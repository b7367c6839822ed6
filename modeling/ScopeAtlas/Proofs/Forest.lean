import ScopeAtlas.Proofs.Arena

namespace ScopeAtlas

-- A forest spells a list of trees as one plain inductive type. The links that a scope itself holds do not count here.
inductive Forest
  | nil
  | tree (id : ScopeId) (scope : Scope) (below rest : Forest)

def Scope.linked (s : Scope) (parent : Option ScopeId) (children : List ScopeId) : Scope := { s with parent, children }

namespace Forest

def ids : Forest → List ScopeId
  | nil => []
  | tree id _ below rest => id :: (below.ids ++ rest.ids)

def roots : Forest → List ScopeId
  | nil => []
  | tree id _ _ rest => id :: rest.roots

def append : Forest → Forest → Forest
  | nil, after => after
  | tree id s below rest, after => tree id s below (rest.append after)

instance : Append Forest := ⟨append⟩

def height : Forest → Nat
  | nil => 0
  | tree _ _ below rest => max (below.height + 1) rest.height

def mapScopes (change : Scope → Scope) : Forest → Forest
  | nil => nil
  | tree id s below rest => tree id (change s) (below.mapScopes change) (rest.mapScopes change)

-- Every scope stands in a given relation to the one right above it.
def Nests (fits : Scope → Scope → Prop) : (above : Scope) → Forest → Prop
  | _, nil => True
  | above, tree _ s below rest => fits above s ∧ below.Nests fits s ∧ rest.Nests fits above

-- The first tree that denotes the same as a scope: its id and what is below it.
def partner? (s : Scope) : Forest → Option (ScopeId × Forest)
  | nil => none
  | tree known mine under rest => if mine.sameEntity s then some (known, under) else rest.partner? s

-- Puts a tree among others: it is united with its partner, or else comes last.
def placeWith (join : Forest → Forest) (id : ScopeId) (s : Scope) (below : Forest) : Forest → Forest
  | nil => tree id s below nil
  | tree known mine under rest =>
    if mine.sameEntity s then tree known (mine.unite s) (join under) rest
    else tree known mine under (placeWith join id s below rest)

-- Puts the trees of a second forest among those of a first, one after the other.
def absorb : (mine theirs : Forest) → Forest
  | mine, nil => mine
  | mine, tree id s below rest => absorb (placeWith (fun under => absorb under below) id s below mine) rest

def place (mine : Forest) (id : ScopeId) (s : Scope) (below : Forest) : Forest :=
  placeWith (fun under => under.absorb below) id s below mine

-- The ids that `absorb` retires, the latest first.
def retired : (mine theirs : Forest) → Forwarding
  | _, nil => []
  | mine, tree id s below rest =>
    retired (mine.place id s below) rest ++
      match mine.partner? s with
      | some (known, under) => retired under below ++ [(id, known)]
      | none => []

def placeRetired (mine : Forest) (id : ScopeId) (s : Scope) (below : Forest) : Forwarding :=
  match mine.partner? s with
  | some (known, under) => retired under below ++ [(id, known)]
  | none => []

theorem absorb_tree (mine : Forest) (id : ScopeId) (s : Scope) (below rest : Forest) :
    mine.absorb (tree id s below rest) = (mine.place id s below).absorb rest := rfl

theorem retired_tree (mine : Forest) (id : ScopeId) (s : Scope) (below rest : Forest) :
    mine.retired (tree id s below rest) = (mine.place id s below).retired rest ++ mine.placeRetired id s below := rfl

section Lists

variable (front back : Forest) (id : ScopeId) (s : Scope) (below rest : Forest)

@[simp] theorem nil_append : nil ++ back = back := rfl

@[simp] theorem tree_append : tree id s below rest ++ back = tree id s below (rest ++ back) := rfl

@[simp] theorem ids_nil : nil.ids = [] := rfl

@[simp] theorem ids_tree : (tree id s below rest).ids = id :: (below.ids ++ rest.ids) := rfl

@[simp] theorem roots_nil : nil.roots = [] := rfl

@[simp] theorem roots_tree : (tree id s below rest).roots = id :: rest.roots := rfl

@[simp] theorem ids_append : (front ++ back).ids = front.ids ++ back.ids := by
  induction front with
  | nil => rfl
  | tree id s below rest _ ih => simp [ih]

@[simp] theorem roots_append : (front ++ back).roots = front.roots ++ back.roots := by
  induction front with
  | nil => rfl
  | tree id s below rest _ ih => simp [ih]

@[simp] theorem append_nil : front ++ nil = front := by
  induction front with
  | nil => rfl
  | tree id s below rest _ ih => simp [ih]

@[simp] theorem ids_mapScopes (change : Scope → Scope) : (front.mapScopes change).ids = front.ids := by
  induction front with
  | nil => rfl
  | tree id s below rest inner outer => simp [mapScopes, inner, outer]

@[simp] theorem roots_mapScopes (change : Scope → Scope) : (front.mapScopes change).roots = front.roots := by
  induction front with
  | nil => rfl
  | tree id s below rest _ outer => simp [mapScopes, outer]

theorem roots_sublist_ids : front.roots.Sublist front.ids := by
  induction front with
  | nil => exact List.Sublist.refl _
  | tree id s below rest _ outer => exact (outer.trans (List.sublist_append_right _ _)).cons_cons id

theorem mem_ids_of_mem_roots {x : ScopeId} (root : x ∈ front.roots) : x ∈ front.ids :=
  front.roots_sublist_ids.subset root

theorem height_le_length : front.height ≤ front.ids.length := by
  induction front with
  | nil => exact Nat.le_refl _
  | tree id s below rest inner outer =>
    simp only [height, ids_tree, List.length_cons, List.length_append]
    omega

end Lists

section Placing

variable (mine theirs : Forest) (id : ScopeId) (s : Scope) (below : Forest)

theorem place_cases :
    (∃ front known kept under back, mine = front ++ tree known kept under back ∧ kept.sameEntity s = true ∧
      mine.partner? s = some (known, under) ∧
      mine.place id s below = front ++ tree known (kept.unite s) (under.absorb below) back ∧
      mine.placeRetired id s below = under.retired below ++ [(id, known)]) ∨
    (mine.partner? s = none ∧ mine.place id s below = mine ++ tree id s below nil ∧
      mine.placeRetired id s below = []) := by
  unfold placeRetired place
  induction mine with
  | nil => exact Or.inr ⟨rfl, rfl, rfl⟩
  | tree known kept under rest _ ih =>
    by_cases same : kept.sameEntity s = true
    · refine Or.inl ⟨nil, known, kept, under, rest, rfl, same, ?_, ?_, ?_⟩ <;> simp [partner?, placeWith, same]
    · rcases ih with ⟨front, known', kept', under', back, rfl, same', found, placed, gone⟩ | ⟨alone, placed, gone⟩
      · refine Or.inl ⟨tree known kept under front, known', kept', under', back, rfl, same', ?_, ?_, ?_⟩
        · simpa [partner?, same] using found
        · simpa [placeWith, same] using placed
        · simpa [partner?, same] using gone
      · refine Or.inr ⟨?_, ?_, ?_⟩
        · simpa [partner?, same] using alone
        · simpa [placeWith, same] using placed
        · simpa [partner?, same] using gone

-- Every id keeps its scope or is retired, and none does both.
theorem place_ids_perm
    (inner : ∀ under : Forest,
      ((under.absorb below).ids ++ (under.retired below).map Prod.fst).Perm (under.ids ++ below.ids)) :
    ((mine.place id s below).ids ++ (mine.placeRetired id s below).map Prod.fst).Perm
      (mine.ids ++ id :: below.ids) := by
  rcases mine.place_cases id s below with
    ⟨front, known, kept, under, back, rfl, _, _, placed, gone⟩ | ⟨_, placed, gone⟩
  · rw [placed, gone, List.perm_iff_count]
    intro x
    have counted := (inner under).count_eq x
    simp only [ids_append, ids_tree, List.map_append, List.map_cons, List.map_nil, List.count_append,
      List.count_cons, List.count_nil] at counted ⊢
    omega
  · rw [placed, gone]
    simp

theorem absorb_ids_perm :
    ((mine.absorb theirs).ids ++ (mine.retired theirs).map Prod.fst).Perm (mine.ids ++ theirs.ids) := by
  induction theirs generalizing mine with
  | nil => simp [absorb, retired]
  | tree id s below rest inner outer =>
    have placed := mine.place_ids_perm id s below inner
    have later := outer (mine.place id s below)
    rw [absorb_tree, retired_tree, List.perm_iff_count]
    intro x
    have first := placed.count_eq x
    have second := later.count_eq x
    simp only [ids_tree, List.map_append, List.count_append, List.count_cons] at first second ⊢
    omega

theorem mem_place_ids {x : ScopeId} (inner : ∀ under : Forest, x ∈ under.ids → x ∈ (under.absorb below).ids)
    (member : x ∈ mine.ids) : x ∈ (mine.place id s below).ids := by
  rcases mine.place_cases id s below with
    ⟨front, known, kept, under, back, rfl, _, _, placed, _⟩ | ⟨_, placed, _⟩
  · rw [placed]
    simp only [ids_append, ids_tree, List.mem_append, List.mem_cons] at member ⊢
    rcases member with here | here | here | here
    · exact Or.inl here
    · exact Or.inr (Or.inl here)
    · exact Or.inr (Or.inr (Or.inl (inner under here)))
    · exact Or.inr (Or.inr (Or.inr here))
  · rw [placed]
    simp [member]

theorem mem_absorb_ids {x : ScopeId} (member : x ∈ mine.ids) : x ∈ (mine.absorb theirs).ids := by
  induction theirs generalizing mine with
  | nil => exact member
  | tree id s below rest inner outer =>
    rw [absorb_tree]
    exact outer _ (mine.mem_place_ids id s below inner member)

-- What takes over a retired id keeps its own scope.
theorem placeRetired_target
    (inner : ∀ under : Forest, ∀ pair ∈ under.retired below, pair.2 ∈ (under.absorb below).ids) :
    ∀ pair ∈ mine.placeRetired id s below, pair.2 ∈ (mine.place id s below).ids := by
  intro pair member
  rcases mine.place_cases id s below with
    ⟨front, known, kept, under, back, rfl, _, _, placed, gone⟩ | ⟨_, _, gone⟩
  · rw [gone] at member
    rw [placed]
    rcases List.mem_append.mp member with earlier | here
    · simp [inner under pair earlier]
    · simp [List.mem_singleton.mp here]
  · rw [gone] at member
    cases member

theorem retired_target : ∀ pair ∈ mine.retired theirs, pair.2 ∈ (mine.absorb theirs).ids := by
  induction theirs generalizing mine with
  | nil => intro pair member; cases member
  | tree id s below rest inner outer =>
    intro pair member
    rw [retired_tree] at member
    rw [absorb_tree]
    rcases List.mem_append.mp member with later | first
    · exact outer _ pair later
    · exact mem_absorb_ids _ _ (mine.placeRetired_target id s below inner pair first)

end Placing

end Forest

end ScopeAtlas
