import ScopeAtlas.Proofs.Nesting

namespace ScopeAtlas

-- Where the ids kept and the ids retired are all different, each retired id is followed to the one that took over.
theorem Forwarding.respects {forward : Forwarding} {kept : List ScopeId} (nodup : (kept ++ forward.map Prod.fst).Nodup)
    (targets : ∀ pair ∈ forward, pair.2 ∈ kept) :
    (∀ x ∈ kept, forward.survivor x = x) ∧ ∀ pair ∈ forward, forward.survivor pair.1 = pair.2 := by
  obtain ⟨-, unique, apart⟩ := List.nodup_append.mp nodup
  have still : ∀ x ∈ kept, x ∉ forward.map Prod.fst := fun x member gone => apart x member x gone rfl
  refine ⟨fun x member => survivor_of_not_mem (still x member), ?_⟩
  intro pair member
  exact survivor_of_mem unique member (still _ (targets pair member))

namespace Forest

variable {rename : ScopeId → ScopeId} {parent : Option ScopeId} {mine theirs f rest : Forest}

def Owned : Option ScopeId → Forest → Prop
  | _, nil => True
  | parent, tree id s below rest =>
    s.StandsIn (· = id) (fun x => parent = some x) ∧ below.Owned (some id) ∧ rest.Owned parent

def OwnedUpTo (rename : ScopeId → ScopeId) : Option ScopeId → Forest → Prop
  | _, nil => True
  | parent, tree id s below rest =>
    s.StandsIn (fun x => rename x = rename id) (fun x => parent.map rename = some (rename x)) ∧
      below.OwnedUpTo rename (some id) ∧ rest.OwnedUpTo rename parent

theorem Owned.upTo (owned : f.Owned parent) (rename : ScopeId → ScopeId) : f.OwnedUpTo rename parent := by
  induction f generalizing parent with
  | nil => trivial
  | tree id s below rest inner outer =>
    refine ⟨owned.1.mono ?_ ?_, inner owned.2.1, outer owned.2.2⟩
    · rintro x rfl
      rfl
    · rintro x rfl
      rfl

theorem OwnedUpTo.congr {parent' : Option ScopeId} (owned : f.OwnedUpTo rename parent)
    (same : parent.map rename = parent'.map rename) : f.OwnedUpTo rename parent' := by
  induction f with
  | nil => trivial
  | tree id s below rest _ outer =>
    refine ⟨owned.1.mono (fun _ held => held) ?_, owned.2.1, outer owned.2.2⟩
    intro x held
    exact same ▸ held

theorem ownedUpTo_append :
    (mine ++ theirs).OwnedUpTo rename parent ↔ mine.OwnedUpTo rename parent ∧ theirs.OwnedUpTo rename parent := by
  induction mine with
  | nil => exact ⟨fun owned => ⟨trivial, owned⟩, fun owned => owned.2⟩
  | tree id s below rest _ outer => rw [tree_append, OwnedUpTo, OwnedUpTo, outer, and_assoc, and_assoc]

theorem OwnedUpTo.absorb (left : mine.OwnedUpTo rename parent) (right : theirs.OwnedUpTo rename parent)
    (respects : ∀ pair ∈ mine.retired theirs, rename pair.1 = rename pair.2) :
    (mine.absorb theirs).OwnedUpTo rename parent := by
  induction theirs generalizing mine parent with
  | nil => exact left
  | tree id s below rest inner outer =>
    obtain ⟨here, owned, beside⟩ := right
    rw [retired_tree] at respects
    rw [absorb_tree]
    refine outer ?_ beside fun pair member => respects pair (List.mem_append_left _ member)
    have respectsHere := fun pair member => respects pair (List.mem_append_right _ member)
    rcases mine.place_cases id s below with
      ⟨front, known, kept, under, back, rfl, _, _, placed, gone⟩ | ⟨_, placed, _⟩
    · rw [gone] at respectsHere
      rw [placed]
      have moved : rename id = rename known := respectsHere (id, known) (by simp)
      obtain ⟨first, hereKept, ownedKept, last⟩ := ownedUpTo_append.mp left
      refine ownedUpTo_append.mpr ⟨first, hereKept.unite (here.mono ?_ fun _ held => held), ?_, last⟩
      · intro x held
        exact held.trans moved
      · refine inner ownedKept (owned.congr ?_) fun pair member => respectsHere pair (List.mem_append_left _ member)
        simp [moved]
    · rw [placed]
      exact ownedUpTo_append.mpr ⟨left, here, owned, trivial⟩

theorem OwnedUpTo.settle (owned : f.OwnedUpTo rename parent) (fixed : ∀ x ∈ f.ids, rename x = x)
    (above : parent.map rename = parent) : (f.mapScopes (·.rebind rename)).Owned parent := by
  induction f generalizing parent with
  | nil => trivial
  | tree id s below rest inner outer =>
    have still : rename id = id := fixed id (by simp)
    refine ⟨owned.1.rebind ?_ ?_, inner owned.2.1 (fun x member => fixed x (by simp [member])) (by simp [still]),
      outer owned.2.2 (fun x member => fixed x (by simp [member])) above⟩
    · intro x held
      exact held.trans still
    · intro x held
      exact above.symm.trans held

theorem Owned.shift (owned : f.Owned parent) (offset : Nat) : (f.shift offset).Owned (parent.map (· + offset)) := by
  induction f generalizing parent with
  | nil => trivial
  | tree id s below rest inner outer =>
    refine ⟨owned.1.rebind ?_ ?_, inner owned.2.1, outer owned.2.2⟩
    · rintro x rfl
      rfl
    · rintro x rfl
      rfl

theorem Owned.withdraw (owned : f.Owned parent) (file : String) : (f.withdraw file).Owned parent := by
  induction f generalizing parent with
  | nil => trivial
  | tree id s below rest inner outer =>
    obtain ⟨here, under, beside⟩ := owned
    unfold Forest.withdraw
    split
    · exact ⟨here, under, outer beside⟩
    · split
      · exact outer beside
      · exact ⟨here.withdraw file, inner under, outer beside⟩

def StacksOwned : Forest → Prop
  | nil => True
  | tree id s below rest =>
    s.StandsIn (· = id) (fun x => rest.roots.head? = some x) ∧ below.Owned (some id) ∧ rest.StacksOwned

theorem StacksOwned.rebind (owned : f.StacksOwned) (fixed : ∀ x ∈ f.ids, rename x = x) :
    (f.mapScopes (·.rebind rename)).StacksOwned := by
  induction f with
  | nil => trivial
  | tree id s below rest _ outer =>
    obtain ⟨here, under, beside⟩ := owned
    have still : rename id = id := fixed id (by simp)
    refine ⟨here.rebind ?_ ?_, (under.upTo rename).settle (fun x member => fixed x (by simp [member])) (by simp [still]),
      outer beside fun x member => fixed x (by simp [member])⟩
    · rintro x rfl
      exact still
    · intro x first
      rw [roots_mapScopes, first, fixed x]
      have member : x ∈ rest.ids := rest.mem_ids_of_mem_roots (List.mem_of_mem_head? first)
      simp [member]

end Forest

variable {file : String} {seen : List String} {next : Nat} {f : Forest}

theorem Grown.nodup (grown : Grown file seen next f) : f.ids.Nodup ∧ ∀ x ∈ f.ids, x < next := by
  induction grown with
  | start starts => simp
  | opened before opens ih =>
    refine ⟨List.nodup_cons.mpr ⟨fun member => Nat.lt_irrefl _ (ih.2 _ member), ih.1⟩, ?_⟩
    intro x member
    rcases List.mem_cons.mp member with rfl | old
    · exact Nat.lt_succ_self _
    · exact Nat.lt_succ_of_lt (ih.2 x old)
  | closed before ih =>
    rename_i seen next id here s m below mine rest
    have permuted := mine.place_ids_perm id s below fun under => under.absorb_ids_perm below
    have counts := fun x => permuted.count_eq x
    simp only [List.count_append, List.count_cons] at counts
    obtain ⟨nodup, bounded⟩ := ih
    rw [List.nodup_iff_count_le_one] at nodup
    simp only [Forest.ids_tree, List.count_append, List.count_cons] at nodup
    rw [Forest.ids_mapScopes]
    refine ⟨?_, ?_⟩
    · rw [List.nodup_iff_count_le_one]
      intro x
      have := nodup x
      have same := counts x
      simp only [Forest.ids_tree, List.count_append, List.count_cons]
      omega
    · intro x member
      refine bounded x ?_
      have placed : x ∈ (mine.place id s below).ids → x ∈ mine.ids ++ id :: below.ids :=
        fun here => permuted.subset (List.mem_append_left _ here)
      simp only [Forest.ids_tree, List.mem_cons, List.mem_append] at member placed ⊢
      grind
  | declared before stands place inFile ih => exact ih
  | called before stands inFile ih => exact ih

-- Closing a scope retires none of the ids that are left, and every retired id is followed to one of them.
theorem Forest.place_respects {id here : ScopeId} {s m : Scope} {below mine rest : Forest}
    (nodup : (Forest.tree id s below (.tree here m mine rest)).ids.Nodup) :
    (∀ x ∈ (Forest.tree here m (mine.place id s below) rest).ids, (mine.placeRetired id s below).survivor x = x) ∧
      ∀ pair ∈ mine.placeRetired id s below, (mine.placeRetired id s below).survivor pair.1 = pair.2 := by
  have permuted := mine.place_ids_perm id s below fun under => under.absorb_ids_perm below
  have counts := fun x => permuted.count_eq x
  rw [List.nodup_iff_count_le_one] at nodup
  simp only [Forest.ids_tree, List.count_append, List.count_cons] at nodup counts
  refine Forwarding.respects ?_ ?_
  · rw [List.nodup_iff_count_le_one]
    intro x
    have := nodup x
    have same := counts x
    simp only [Forest.ids_tree, List.count_append, List.count_cons]
    omega
  · intro pair member
    have target := mine.placeRetired_target id s below (fun under => under.retired_target below) pair member
    simp [target]

theorem Grown.owned (grown : Grown file seen next f) : f.StacksOwned := by
  -- The invariant covers the scopes still open. One that closes may unite with a sibling, and then all that names it
  -- names the survivor.
  induction grown with
  | start starts =>
    refine ⟨⟨?_, ?_, ?_, ?_⟩, trivial, trivial⟩
    · simp [starts.declared, VariableTable.toList]
    · simp [starts.calls]
    · simp [starts.global]
    · simp [starts.global]
  | opened before opens ih =>
    refine ⟨opens.stands.mono (fun _ held => held) ?_, trivial, ih⟩
    rintro x rfl
    rfl
  | closed before ih =>
    rename_i seen next id here s m below mine rest
    obtain ⟨stands, owned, standsHere, ownedMine, beside⟩ := ih
    obtain ⟨fixed, respects⟩ := Forest.place_respects before.nodup.1
    have still : ∀ x ∈ (mine.place id s below).ids, (mine.placeRetired id s below).survivor x = x :=
      fun x member => fixed x (by simp [member])
    have single : (Forest.tree id s below .nil).Owned (some here) :=
      ⟨stands.mono (fun _ held => held) (fun _ held => held), owned, trivial⟩
    have placed : (mine.place id s below).OwnedUpTo (mine.placeRetired id s below).survivor (some here) := by
      refine (ownedMine.upTo _).absorb (single.upTo _) ?_
      intro pair member
      have target := mine.placeRetired_target id s below (fun under => under.retired_target below) pair member
      rw [respects pair member, still _ target]
    refine ⟨?_, placed.settle still ?_, beside.rebind fun x member => fixed x (by simp [member])⟩
    · refine standsHere.rebind ?_ ?_
      · rintro x rfl
        exact fixed x (by simp)
      · intro x first
        rw [Forest.roots_mapScopes, first, fixed x]
        have member : x ∈ rest.ids := rest.mem_ids_of_mem_roots (List.mem_of_mem_head? first)
        simp [member]
    · simp [fixed here (by simp)]
  | declared before stands place inFile ih =>
    refine ⟨⟨?_, ih.1.calls, ih.1.method, ih.1.parents⟩, ih.2⟩
    intro w member
    rcases VariableTable.mem_add member with old | rfl
    · exact ih.1.declared w old
    · exact stands
  | called before stands inFile ih =>
    refine ⟨⟨ih.1.declared, ?_, ih.1.method, ih.1.parents⟩, ih.2⟩
    intro call member
    rcases List.mem_append.mp member with old | new
    · exact ih.1.calls call old
    · rw [List.mem_singleton.mp new]
      exact stands

end ScopeAtlas
