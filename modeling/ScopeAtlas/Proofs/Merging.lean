import ScopeAtlas.Proofs.Joining
import ScopeAtlas.Proofs.Rebinding

namespace ScopeAtlas

namespace Forwarding

variable {forward : Forwarding} {x y : ScopeId}

theorem lookup_of_mem (nodup : (forward.map Prod.fst).Nodup) (member : (x, y) ∈ forward) :
    forward.lookup x = some y := by
  induction forward with
  | nil => cases member
  | cons pair rest ih =>
    obtain ⟨source, into⟩ := pair
    simp only [List.map_cons, List.nodup_cons] at nodup
    rcases List.mem_cons.mp member with here | later
    · cases here
      simp [List.lookup]
    · have other : (x == source) = false := by
        rw [beq_eq_false_iff_ne]
        rintro rfl
        exact nodup.1 (List.mem_map.mpr ⟨_, later, rfl⟩)
      simp [List.lookup, other, ih nodup.2 later]

theorem lookup_of_not_mem (absent : x ∉ forward.map Prod.fst) : forward.lookup x = none := by
  rw [List.lookup_eq_none_iff]
  intro pair member
  rw [bne_iff_ne]
  rintro rfl
  exact absent (List.mem_map.mpr ⟨pair, member, rfl⟩)

theorem survivor_of_not_mem (absent : x ∉ forward.map Prod.fst) : forward.survivor x = x := by
  simp [survivor, followWithin, lookup_of_not_mem absent]

theorem survivor_of_mem (nodup : (forward.map Prod.fst).Nodup) (member : (x, y) ∈ forward)
    (final : y ∉ forward.map Prod.fst) : forward.survivor x = y := by
  have next := lookup_of_mem nodup member
  have stop := lookup_of_not_mem final
  unfold survivor
  rw [followWithin, next]
  cases forward.length with
  | zero => rfl
  | succ bound => simp [followWithin, stop]

theorem survivor_nil : survivor [] = id := by
  funext x
  rfl

end Forwarding

theorem Graph.rebind_id (g : Graph) : g.rebind id = g := by
  have same : (fun slot : Option Scope => slot.map (·.rebind id)) = id := by
    funext slot
    cases slot <;> simp [Scope.rebind_id]
  simp [Graph.rebind, same]

theorem Uniting.settle_eq (u : Uniting) :
    u.settle = { graph := u.graph.rebind u.forward.survivor, missing := u.missing } := by
  unfold Uniting.settle
  cases u with
  | mk change forward =>
    cases forward with
    | nil => simp [Forwarding.survivor_nil, Graph.rebind_id]
    | cons pair rest => simp [Change.map]

theorem Scope.linked_rebind (f : ScopeId → ScopeId) (s : Scope) (parent : Option ScopeId) (children : List ScopeId) :
    (s.linked parent children).rebind f = (s.rebind f).linked (parent.map f) (children.map f) := rfl

theorem Graph.Shows.rebind {g : Graph} {f : ScopeId → ScopeId} {parent : Option ScopeId} {forest : Forest}
    (shown : g.Shows parent forest) (fixed : ∀ x ∈ forest.ids, f x = x) (above : parent.map f = parent) :
    (g.rebind f).Shows parent (forest.mapScopes (·.rebind f)) := by
  induction forest generalizing parent with
  | nil => trivial
  | tree id s below rest inner outer =>
    obtain ⟨here, under, beside⟩ := shown
    have fixedBelow : ∀ x ∈ below.ids, f x = x := fun x member => fixed x (by simp [member])
    refine ⟨?_, inner under fixedBelow ?_, outer beside (fun x member => fixed x (by simp [member])) above⟩
    · rw [Graph.get?_rebind, here, Option.map_some, Scope.linked_rebind, above, Forest.roots_mapScopes,
        map_fixed fun x member => fixedBelow x (below.mem_ids_of_mem_roots member)]
    · simp [fixed id (by simp)]

theorem Graph.Pictures.rebind {g : Graph} {f : ScopeId → ScopeId} {forest : Forest} (picture : g.Pictures forest)
    (fixed : ∀ x ∈ forest.ids, f x = x) : (g.rebind f).Pictures (forest.mapScopes (·.rebind f)) where
  shows := picture.shows.rebind fixed rfl
  nodup := by simpa using picture.nodup
  complete := by
    intro id s found
    rw [Graph.get?_rebind] at found
    obtain ⟨s', found', -⟩ := Option.map_eq_some_iff.mp found
    simpa using picture.complete id s' found'

-- A change that empties all it does not keep leaves a picture of what it keeps, where no retired id is mentioned.
theorem Uniting.Effect.settled {u v : Uniting} {region kept : List ScopeId} {gone : Forwarding} {after : Forest}
    (effect : u.Effect v region kept gone) (fresh : u.forward = []) (shown : v.graph.Shows none after)
    (apart : (after.ids ++ gone.map Prod.fst).Nodup) (still : kept ⊆ after.ids)
    (outside : ∀ x s, u.graph.get? x = some s → x ∉ region → x ∈ after.ids) :
    v.settle.missing = u.missing ∧ v.settle.graph.size = u.graph.size ∧ v.settle.graph.root = u.graph.root ∧
      v.settle.graph.Pictures (after.mapScopes (·.rebind gone.survivor)) := by
  obtain ⟨nodup, -, disjoint⟩ := List.nodup_append.mp apart
  have picture := effect.pictures shown nodup still outside
  rw [Uniting.settle_eq, effect.forward, fresh, List.append_nil]
  refine ⟨effect.missing, by rw [Graph.size_rebind, effect.size], by rw [Graph.root_rebind, effect.root], ?_⟩
  refine picture.rebind ?_
  intro x member
  exact Forwarding.survivor_of_not_mem fun retired => disjoint x member x retired rfl

theorem Graph.Pictures.of_same {g g' : Graph} {f : Forest} (picture : g.Pictures f)
    (same : ∀ x, g'.get? x = g.get? x) : g'.Pictures f where
  shows := picture.shows.frame fun x _ => same x
  nodup := picture.nodup
  complete := by
    intro x s found
    exact picture.complete x s (same x ▸ found)

theorem Change.adopt_pictures {g : Graph} {id current : ScopeId} {s m : Scope} {below mine rest : Forest}
    (picture : g.Pictures (.tree id s below (.tree current m mine rest))) :
    ∃ c, (Change.adopt current id { graph := g }).2 = c ∧ c.missing = none ∧ c.graph.size = g.size ∧
      c.graph.root = g.root ∧
      c.graph.Pictures ((Forest.tree current m (mine.place id s below) rest).mapScopes
        (·.rebind (mine.placeRetired id s below).survivor)) := by
  have picture' := picture.of_same fun x => Graph.get?_detach_root (x := x) picture.shows.1 rfl
  obtain ⟨here, under, hereCurrent, underCurrent, beside⟩ := picture'.shows
  have counted := List.nodup_iff_count_le_one.mp picture.nodup
  simp only [Forest.ids_tree, List.count_append, List.count_cons] at counted
  let u : Uniting := { graph := g.detach id }
  -- one level for the scope itself
  have levels : (Forest.tree id s below .nil).height ≤ u.graph.size := by
    refine Graph.Shows.height_le_size ⟨here, under, trivial⟩ ?_
    rw [List.nodup_iff_count_le_one]
    intro x
    have := counted x
    simp only [Forest.ids_tree, Forest.ids_nil, List.append_nil, List.count_cons]
    omega
  simp only [Forest.height] at levels
  obtain ⟨depth, size⟩ : ∃ depth, u.graph.size = depth + 1 := ⟨u.graph.size - 1, by omega⟩
  have nodup : ([] ++ current :: (mine.ids ++ id :: below.ids)).Nodup := by
    rw [List.nodup_iff_count_le_one]
    intro x
    have := counted x
    simp only [List.nil_append, List.count_append, List.count_cons]
    omega
  have inner : Uniting.Settles depth below := Uniting.settles below (by omega)
  have top : u.graph.Chain none [] := rfl
  obtain ⟨v, placed, shown, effect, -⟩ := Uniting.place_settles (u := u) inner
    ⟨hereCurrent, underCurrent, trivial⟩ ⟨here, under, trivial⟩ top nodup
  have permuted := mine.place_ids_perm id s below fun under => under.absorb_ids_perm below
  have apart : ((Forest.tree current m (mine.place id s below) rest).ids ++
      (mine.placeRetired id s below).map Prod.fst).Nodup := by
    rw [List.nodup_iff_count_le_one]
    intro x
    have := counted x
    have same := permuted.count_eq x
    simp only [Forest.ids_tree, List.count_append, List.count_cons] at same ⊢
    omega
  have shown' : v.graph.Shows none (.tree current m (mine.place id s below) rest) := by
    refine ⟨shown.1, shown.2.1, beside.frame fun x member => effect.frame x ?_⟩
    intro inside
    have := counted x
    have listed := List.count_pos_iff.mpr inside
    have later := List.count_pos_iff.mpr member
    simp only [List.count_append, List.count_cons] at listed
    omega
  have settled := effect.settled rfl shown' apart (by
    intro x member
    simp only [Forest.ids_tree, List.mem_cons, List.mem_append] at member ⊢
    grind) (by
    intro x s' found outside
    have member := picture'.complete x s' found
    simp only [Forest.ids_tree, List.mem_cons, List.mem_append] at member outside ⊢
    grind)
  have adopted : (Change.adopt current id { graph := g }).2 = v.settle := by
    have same : (Uniting.place current id u).2 = v := by
      rw [← placed, ← size]
      unfold Uniting.place Uniting.placeWith
      split <;> rfl
    rw [← same]
    rfl
  rw [adopted]
  exact ⟨_, rfl, settled.1, settled.2.1.trans Graph.size_detach, settled.2.2.1.trans Graph.root_detach, settled.2.2.2⟩

namespace Forest

def shift (offset : Nat) : Forest → Forest
  | nil => nil
  | tree id s below rest => tree (id + offset) (s.rebind (· + offset)) (below.shift offset) (rest.shift offset)

@[simp] theorem ids_shift (offset : Nat) (f : Forest) : (f.shift offset).ids = f.ids.map (· + offset) := by
  induction f with
  | nil => rfl
  | tree id s below rest inner outer => simp [shift, inner, outer]

@[simp] theorem roots_shift (offset : Nat) (f : Forest) : (f.shift offset).roots = f.roots.map (· + offset) := by
  induction f with
  | nil => rfl
  | tree id s below rest _ outer => simp [shift, outer]

structure Relabels (F : Forest → Forest) (move rename : ScopeId → ScopeId) : Prop where
  nil : F nil = nil
  tree : ∀ id s below rest, F (tree id s below rest) = tree (move id) (s.rebind rename) (F below) (F rest)

theorem relabels_rebind (rename : ScopeId → ScopeId) : Relabels (·.mapScopes (·.rebind rename)) id rename :=
  ⟨rfl, fun _ _ _ _ => rfl⟩

theorem relabels_shift (offset : Nat) : Relabels (·.shift offset) (· + offset) (· + offset) :=
  ⟨rfl, fun _ _ _ _ => rfl⟩

end Forest

theorem Graph.Shows.shift {a b : Graph} {parent : Option ScopeId} {f : Forest} (shown : b.Shows parent f) :
    (a.absorb b).Shows (parent.map (· + a.size)) (f.shift a.size) := by
  induction f generalizing parent with
  | nil => trivial
  | tree id s below rest inner outer =>
    obtain ⟨here, under, beside⟩ := shown
    refine ⟨?_, inner under, outer beside⟩
    rw [Graph.get?_absorb_right, here, Option.map_some, Scope.linked_rebind, Forest.roots_shift]

section Appending

variable {a b : Graph} {f h : Forest}

-- The ids of the second arena lie behind all that is live in the first.
theorem Graph.nodup_appended {own moved : List ScopeId} (live : ∀ x ∈ own, a.contains x = true) (once : own.Nodup)
    (once' : moved.Nodup) : (own ++ moved.map (· + a.size)).Nodup := by
  refine List.nodup_append.mpr ⟨once, once'.map fun x y equal => Nat.add_right_cancel equal, ?_⟩
  rintro x member _ shifted rfl
  obtain ⟨y, -, rfl⟩ := List.mem_map.mp shifted
  obtain ⟨s, found⟩ := contains_iff.mp (live _ member)
  exact absurd (lt_size_of_get? found) (Nat.not_lt.mpr (Nat.le_add_left _ _))

theorem Graph.Pictures.nodup_shift (left : a.Pictures f) (right : b.Pictures h) :
    (f.ids ++ (h.shift a.size).ids).Nodup := by
  rw [Forest.ids_shift]
  exact nodup_appended (fun x member => contains_iff.mpr (left.shows.live member)) left.nodup right.nodup

theorem Graph.Shows.absorb {parent : Option ScopeId} (shown : a.Shows parent f) : (a.absorb b).Shows parent f := by
  refine shown.frame fun x member => ?_
  obtain ⟨s, found⟩ := shown.live member
  exact get?_absorb_left b (lt_size_of_get? found)

theorem Graph.Chain.absorb {parent : Option ScopeId} {up : List ScopeId} (above : a.Chain parent up) :
    (a.absorb b).Chain parent up := by
  refine above.frame fun x member => ?_
  obtain ⟨s, found⟩ := contains_iff.mp (above.live member)
  rw [get?_absorb_left b (lt_size_of_get? found)]

theorem Graph.Pictures.mem_of_absorb {x : ScopeId} {s : Scope} (left : a.Pictures f) (right : b.Pictures h)
    (found : (a.absorb b).get? x = some s) : x ∈ f.ids ++ (h.shift a.size).ids := by
  by_cases low : x < a.size
  · rw [Graph.get?_absorb_left b low] at found
    exact List.mem_append_left _ (left.complete x s found)
  · obtain ⟨y, rfl⟩ : ∃ y, x = y + a.size := ⟨x - a.size, (Nat.sub_add_cancel (Nat.not_lt.mp low)).symm⟩
    rw [Graph.get?_absorb_right] at found
    obtain ⟨s', found', -⟩ := Option.map_eq_some_iff.mp found
    rw [Forest.ids_shift]
    exact List.mem_append_right _ (List.mem_map_of_mem (right.complete y s' found'))

theorem Uniting.join_absorb {known id : ScopeId} {kept s : Scope} {under below : Forest} {outer stray : Option ScopeId}
    {up : List ScopeId} (mine : a.Shows outer (.tree known kept under .nil)) (above : a.Chain outer up)
    (once : (up ++ known :: under.ids).Nodup) (theirs : b.Shows stray (.tree id s below .nil))
    (once' : (id :: below.ids).Nodup) :
    ∃ v, join known (id + a.size) { graph := a.absorb b } = v ∧
      v.graph.Shows outer
        (.tree known (kept.unite (s.rebind (· + a.size))) (under.absorb (below.shift a.size)) .nil) ∧
      Effect { graph := a.absorb b } v (known :: (under.ids ++ (id + a.size) :: (below.shift a.size).ids))
        (known :: (under.absorb (below.shift a.size)).ids)
        (under.retired (below.shift a.size) ++ [(id + a.size, known)]) ∧
      v.graph.conflicts = a.conflicts ++ b.conflicts ++
        kept.kind.conflicts ((a.absorb b).fullName known) (s.rebind (· + a.size)).kind := by
  have live : ∀ x ∈ up ++ known :: under.ids, a.contains x = true := by
    intro x member
    rcases List.mem_append.mp member with higher | inside
    · exact above.live higher
    · exact Graph.contains_iff.mpr (mine.live (by simpa using inside))
  have nodup : (up ++ known :: (under.ids ++ (id + a.size) :: (below.shift a.size).ids)).Nodup := by
    simpa using Graph.nodup_appended live once once'
  have shifted : (a.absorb b).Shows (stray.map (· + a.size)) ((Forest.tree id s below .nil).shift a.size) := theirs.shift
  have levels := shifted.height_le_size (by simpa [Forest.shift] using nodup.of_append_right.of_cons.of_append_right)
  simp only [Forest.shift, Forest.height] at levels
  obtain ⟨depth, size⟩ : ∃ depth, (a.absorb b).size = depth + 1 := ⟨(a.absorb b).size - 1, by omega⟩
  have inner : Settles depth (below.shift a.size) := settles _ (by omega)
  obtain ⟨v, joined, shown, effect, conflicts⟩ :=
    join_settles (u := { graph := a.absorb b }) inner mine.absorb shifted above.absorb nodup
  refine ⟨v, ?_, shown, effect, conflicts⟩
  rw [← joined, join, size]

end Appending

-- Merging always succeeds, and unites the forest of the second graph with that of the first.
theorem Graph.merge_pictures {a b : Graph} {s t : Scope} {mine theirs : Forest}
    (left : a.Pictures (.tree a.root s mine .nil)) (right : b.Pictures (.tree b.root t theirs .nil)) :
    ∃ m, a.merge b = .ok m ∧ m.root = a.root ∧ m.size = a.size + b.size ∧
      m.Pictures ((Forest.tree a.root (s.unite (t.rebind (· + a.size))) (mine.absorb (theirs.shift a.size)) .nil).mapScopes
        (·.rebind (Forwarding.survivor
          (mine.retired (theirs.shift a.size) ++ [(b.root + a.size, a.root)])))) := by
  have once : (a.root :: mine.ids).Nodup := by simpa using left.nodup
  have once' : (b.root :: theirs.ids).Nodup := by simpa using right.nodup
  have top : a.Chain none [] := rfl
  obtain ⟨v, joined, shown, effect, -⟩ := Uniting.join_absorb left.shows top once right.shows once'
  have counted := List.nodup_iff_count_le_one.mp (left.nodup_shift right)
  simp only [Forest.shift, Forest.ids_tree, Forest.ids_nil, List.append_nil, List.count_append, List.count_cons] at counted
  have permuted := mine.absorb_ids_perm (theirs.shift a.size)
  have apart : ((Forest.tree a.root (s.unite (t.rebind (· + a.size))) (mine.absorb (theirs.shift a.size)) .nil).ids ++
      (mine.retired (theirs.shift a.size) ++ [(b.root + a.size, a.root)]).map Prod.fst).Nodup := by
    rw [List.nodup_iff_count_le_one]
    intro x
    have := counted x
    have same := permuted.count_eq x
    simp only [Forest.ids_tree, Forest.ids_nil, List.append_nil, List.map_append, List.map_cons, List.map_nil,
      List.count_append, List.count_cons, List.count_nil] at same ⊢
    omega
  obtain ⟨missing, sized, root, picture⟩ := effect.settled rfl shown apart (by
    intro x member
    simpa using member) (by
    intro x s' found outside
    have member := left.mem_of_absorb right found
    simp only [Forest.shift, Forest.ids_tree, Forest.ids_nil, List.append_nil, List.cons_append, List.mem_cons,
      List.mem_append] at member outside
    grind)
  have merged : a.merging b = v.settle := by rw [merging, joined]
  refine ⟨v.settle.graph, ?_, root, sized.trans (size_absorb b), picture⟩
  rw [Graph.merge, merged]
  simp [Change.outcome, missing]

end ScopeAtlas
