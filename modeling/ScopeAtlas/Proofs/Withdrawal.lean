import ScopeAtlas.Proofs.Merging

namespace ScopeAtlas

namespace Scope

variable {above s : Scope} {file : String}

-- Seen somewhere, and in no file in which `above` is not seen.
def SeenWithin (above s : Scope) : Prop := s.locations ≠ [] ∧ ∀ file, s.isIn file = true → above.isIn file = true

theorem isIn_iff : s.isIn file = true ↔ ∃ l ∈ s.locations, l.file = file := by
  simp [isIn, Location.isIn]

theorem isOnlyIn_iff : s.isOnlyIn file = true ↔ s.locations ≠ [] ∧ ∀ l ∈ s.locations, l.file = file := by
  simp [isOnlyIn, Location.isIn]

theorem SeenWithin.isOnlyIn (within : above.SeenWithin s) (only : above.isOnlyIn file = true) :
    s.isOnlyIn file = true := by
  rw [isOnlyIn_iff] at only ⊢
  refine ⟨within.1, ?_⟩
  intro l member
  obtain ⟨k, listed, same⟩ := isIn_iff.mp (within.2 l.file (isIn_iff.mpr ⟨l, member, rfl⟩))
  rw [← same, only.2 k listed]

theorem isIn_of_isOnlyIn (only : s.isOnlyIn file = true) : s.isIn file = true := by
  obtain ⟨some, every⟩ := isOnlyIn_iff.mp only
  obtain ⟨l, member⟩ := List.exists_mem_of_ne_nil _ some
  exact isIn_iff.mpr ⟨l, member, every l member⟩

theorem not_isOutside_of_isOnlyIn (only : s.isOnlyIn file = true) : s.isOutside file = false := by
  rw [isOnlyIn_iff] at only
  simp only [isOutside, List.any_eq_false, Location.isIn]
  intro l member
  simp [only.2 l member]

end Scope

namespace Forest

def withdraw (file : String) : Forest → Forest
  | nil => nil
  | tree id s below rest =>
    if !s.isIn file then tree id s below (rest.withdraw file)
    else if s.isOnlyIn file then rest.withdraw file
    else tree id (s.withdraw file) (below.withdraw file) (rest.withdraw file)

theorem withdraw_ids_sublist (file : String) (f : Forest) : (f.withdraw file).ids.Sublist f.ids := by
  induction f with
  | nil => exact List.Sublist.refl _
  | tree id s below rest inner outer =>
    unfold withdraw
    split
    · exact ((List.Sublist.refl _).append outer).cons_cons id
    · split
      · exact (outer.trans (List.sublist_append_right _ _)).cons id
      · exact (inner.append outer).cons_cons id

theorem withdraw_eq_self {above : Scope} {file : String} {f : Forest} (nested : f.Nests Scope.SeenWithin above)
    (unseen : above.isIn file = false) : f.withdraw file = f := by
  induction f with
  | nil => rfl
  | tree id s below rest _ outer =>
    have unseen' : s.isIn file = false := by
      rw [Bool.eq_false_iff] at unseen ⊢
      exact fun seen => unseen (nested.1.2 file seen)
    simp [withdraw, unseen', outer nested.2.2]

theorem withdraw_eq_nil {above : Scope} {file : String} {f : Forest} (nested : f.Nests Scope.SeenWithin above)
    (only : above.isOnlyIn file = true) : f.withdraw file = nil := by
  induction f with
  | nil => rfl
  | tree id s below rest _ outer =>
    have only' := nested.1.isOnlyIn only
    simp [withdraw, Scope.isIn_of_isOnlyIn only', only', outer nested.2.2]

theorem Nests.mono {fits : Scope → Scope → Prop} {above above' : Scope} {f : Forest} (nested : f.Nests fits above)
    (upper : ∀ s, fits above s → fits above' s) : f.Nests fits above' := by
  induction f with
  | nil => trivial
  | tree id s below rest _ outer => exact ⟨upper s nested.1, nested.2.1, outer nested.2.2⟩

-- A scope seen in one file only has nothing below it that another file knows.
theorem Nests.isOnlyIn {above : Scope} {file : String} {f : Forest} (nested : f.Nests Scope.SeenWithin above)
    (only : above.isOnlyIn file = true) {g : Graph} {parent : Option ScopeId} (shown : g.Shows parent f) :
    ∀ x ∈ f.roots, (g.get? x).any (·.isOutside file) = false := by
  induction f with
  | nil => intro x member; cases member
  | tree id s below rest _ outer =>
    intro x member
    rcases List.mem_cons.mp member with rfl | later
    · rw [shown.1]
      exact Scope.not_isOutside_of_isOnlyIn (nested.1.isOnlyIn only)
    · exact outer nested.2.2 shown.2.2 x later

end Forest

namespace Graph

variable {g : Graph}

theorem discardWithin_shown {f : Forest} {depth : Nat} {parent : Option ScopeId} (shown : g.Shows parent f)
    (nodup : f.ids.Nodup) (levels : f.height ≤ depth) :
    g.Empties (f.roots.foldl (fun g child => discardWithin depth child g) g) f.ids [] := by
  induction f generalizing g depth parent with
  | nil => exact ⟨fun _ _ => rfl, fun x member => (List.not_mem_nil member).elim, rfl, rfl⟩
  | tree id s below rest inner outer =>
    obtain ⟨here, under, beside⟩ := shown
    simp only [Forest.ids_tree, List.nodup_cons, List.mem_append, List.nodup_append, not_or] at nodup
    obtain ⟨⟨fresh, fresh'⟩, nodupBelow, nodupRest, apart⟩ := nodup
    simp only [Forest.height] at levels
    obtain ⟨depth, rfl⟩ : ∃ d, depth = d + 1 := ⟨depth - 1, by omega⟩
    have lower : g.Empties (discardWithin (depth + 1) id g) (id :: below.ids) [] := by
      simp only [discardWithin, here]
      have cleared := g.empties_setSlot id
      have under' := under.frame fun x member => cleared.frame x (by
        rw [List.mem_singleton]
        rintro rfl
        exact fresh member)
      exact cleared.trans (inner under' nodupBelow (by omega)) (by simp) (List.forall_mem_nil _) (List.Subset.refl _)
    have beside' := beside.frame fun x member => lower.frame x (by
      rw [List.mem_cons, not_or]
      exact ⟨fun equal => fresh' (equal ▸ member), fun inside => apart x inside x member rfl⟩)
    refine lower.trans (outer beside' nodupRest (by omega)) ?_ (List.forall_mem_nil _) (List.Subset.refl _)
    simp [or_assoc]

theorem discard_shown {id : ScopeId} {s : Scope} {below : Forest} {parent : Option ScopeId}
    (shown : g.Shows parent (.tree id s below .nil)) (nodup : (id :: below.ids).Nodup) :
    g.Empties (g.discard id) (id :: below.ids) [] := by
  have nodup' : (Forest.tree id s below .nil).ids.Nodup := by simpa using nodup
  simpa [discard] using discardWithin_shown shown nodup' (shown.height_le_size nodup')

theorem outsiders_eq_nil {id : ScopeId} {s : Scope} {below : Forest} {up : Option ScopeId} {file : String}
    (here : g.get? id = some (s.linked up below.roots)) (shown : g.Shows (some id) below)
    (nested : below.Nests Scope.SeenWithin s) (only : s.isOnlyIn file = true) : g.outsiders file id = [] := by
  rw [outsiders, List.filter_eq_nil_iff]
  intro x member
  simp only [children, here, Scope.linked] at member
  simp [nested.isOnlyIn only shown x member]

end Graph

namespace Change

-- Withdrawing a file from the trees below a scope, one after the other, leaves the forest without the file.
def Prunes (file : String) (f : Forest) : Prop :=
  ∀ {depth : Nat} {c : Change} {p : ScopeId} {s : Scope} {up : Option ScopeId} {front : List ScopeId},
    c.graph.get? p = some (s.linked up (front ++ f.roots)) → c.graph.Shows (some p) f →
    f.Nests Scope.SeenWithin s → (p :: (front ++ f.ids)).Nodup → f.height ≤ depth →
    ∃ c', f.roots.foldl (pruneWith (withdrawWithin file depth)) ([], c) = ([], c') ∧ c'.missing = c.missing ∧
      c.graph.Empties c'.graph (p :: f.ids) (p :: (f.withdraw file).ids) ∧
      c'.graph.get? p = some (s.linked up (front ++ (f.withdraw file).roots)) ∧
      c'.graph.Shows (some p) (f.withdraw file)

variable {file : String} {c : Change} {id : ScopeId} {t : Scope} {below : Forest}

theorem withdrawWithin_trims {depth : Nat} {up : Option ScopeId} (inner : Prunes file below)
    (here : c.graph.get? id = some (t.linked up below.roots)) (shown : c.graph.Shows (some id) below)
    (nested : below.Nests Scope.SeenWithin t) (nodup : (id :: below.ids).Nodup) (levels : below.height ≤ depth)
    (seen : t.isIn file = true) (elsewhere : t.isOnlyIn file = false) :
    ∃ c', withdrawWithin file (depth + 1) id c = ([], c') ∧ c'.missing = c.missing ∧
      c.graph.Empties c'.graph (id :: below.ids) (id :: (below.withdraw file).ids) ∧
      c'.graph.Shows up (.tree id (t.withdraw file) (below.withdraw file) .nil) := by
  obtain ⟨c', pruned, missing, effect, here', shown'⟩ := @inner depth c id t up [] here shown nested nodup levels
  have live : (c'.adoptAll id []).need [id] = c' := by
    refine need_of_live ?_
    intro x member
    rw [List.mem_singleton.mp member]
    exact Graph.contains_of_get? here'
  have run : withdrawWithin file (depth + 1) id c = ([], c'.map (·.modify id (·.withdraw file))) := by
    have seen' : (t.linked up below.roots).isIn file = true := seen
    have elsewhere' : (t.linked up below.roots).isOnlyIn file = false := elsewhere
    have children : (t.linked up below.roots).children = below.roots := rfl
    simp only [withdrawWithin, here, seen', elsewhere', children, pruned, trim, live, Bool.not_true,
      Bool.false_eq_true, if_false]
  have fresh : id ∉ (below.withdraw file).ids := fun member =>
    (List.nodup_cons.mp nodup).1 ((below.withdraw_ids_sublist file).subset member)
  refine ⟨_, run, missing, ?_, ?_, ?_, trivial⟩
  · refine effect.trans (Graph.empties_modify id _) ?_ (fun _ member => Or.inr member) ?_
    · simp
    · simp
  · rw [map, Graph.get?_modify, if_pos rfl, here']
    rfl
  · refine shown'.frame ?_
    intro x member
    rw [map, Graph.get?_modify, if_neg]
    rintro rfl
    exact fresh member

theorem withdrawWithin_drops (depth : Nat) {p : ScopeId} {s : Scope} {up : Option ScopeId} {front back : List ScopeId}
    (parent : c.graph.get? p = some (s.linked up (front ++ id :: back)))
    (here : c.graph.get? id = some (t.linked (some p) below.roots)) (shown : c.graph.Shows (some id) below)
    (nested : below.Nests Scope.SeenWithin t) (nodup : (p :: (front ++ id :: back)).Nodup)
    (nodup' : (p :: id :: below.ids).Nodup) (only : t.isOnlyIn file = true) :
    ∃ c', withdrawWithin file (depth + 1) id c = ([], c') ∧ c'.missing = c.missing ∧
      c.graph.Empties c'.graph (p :: id :: below.ids) [p] ∧
      c'.graph.get? p = some (s.linked up (front ++ back)) := by
  have apart : p ≠ id := fun equal => (List.nodup_cons.mp nodup').1 (by simp [equal])
  have fresh : id ∉ below.ids := (List.nodup_cons.mp (List.nodup_cons.mp nodup').2).1
  -- Everything below stands in the file only, so no scope has to be rescued and the tree is dropped whole.
  have run : withdrawWithin file (depth + 1) id c = ([], c.map fun g => (g.detach id).discard id) := by
    have only' : (t.linked (some p) below.roots).isOnlyIn file = true := only
    have seen := Scope.isIn_of_isOnlyIn only'
    have loose := Graph.outsiders_eq_nil here shown nested only
    have live : c.need (c.graph.children id) = c := by
      refine need_of_live ?_
      intro x member
      simp only [Graph.children, here, Scope.linked] at member
      exact Graph.contains_iff.mpr (shown.live (below.mem_ids_of_mem_roots member))
    simp only [withdrawWithin, here, seen, only', rescueAllWith, loose, live, List.foldl_nil, Bool.not_true,
      Bool.false_eq_true, if_false, if_true]
  have detached := fun x => Graph.get?_detach_child (x := x) here rfl apart
  have effect : (c.graph.detach id).Empties ((c.graph.detach id).discard id) (id :: below.ids) [] := by
    have free : (c.graph.detach id).Shows none (.tree id t below .nil) := by
      refine ⟨?_, ?_, trivial⟩
      · rw [detached, if_pos rfl]
        rfl
      · refine shown.frame ?_
        intro x member
        rw [detached, if_neg, if_neg]
        · rintro rfl
          exact (List.nodup_cons.mp nodup').1 (by simp [member])
        · rintro rfl
          exact fresh member
    exact Graph.discard_shown free (List.nodup_cons.mp nodup').2
  have freed : c.graph.Empties (c.graph.detach id) [p, id] [p, id] := by
    refine ⟨?_, fun x inside dropped => absurd inside dropped, Graph.size_detach, Graph.root_detach⟩
    intro x outside
    simp only [List.mem_cons, List.not_mem_nil, or_false, not_or] at outside
    rw [detached, if_neg outside.2, if_neg outside.1]
  refine ⟨_, run, rfl, ?_, ?_⟩
  · refine freed.trans effect ?_ ?_ ?_ <;> intro x <;> simp only [List.mem_cons, List.not_mem_nil, or_false] <;> grind
  · rw [map, effect.frame p (List.nodup_cons.mp nodup').1, detached, if_neg apart, if_pos rfl, parent]
    have gone : (front ++ id :: back).filter (· != id) = front ++ back := by
      have unique := (List.nodup_middle.mp (List.nodup_cons.mp nodup).2)
      have other : ∀ x ∈ front ++ back, (x != id) = true := by
        intro x member
        rw [bne_iff_ne]
        rintro rfl
        exact (List.nodup_cons.mp unique).1 member
      rw [List.filter_append, List.filter_cons_of_neg (by simp), ← List.filter_append, List.filter_eq_self.mpr other]
    simp only [Option.map_some, Scope.linked, gone]

theorem withdrawWithin_tree {depth : Nat} {p : ScopeId} {s : Scope} {up : Option ScopeId} {front back : List ScopeId}
    (inner : Prunes file below) (parent : c.graph.get? p = some (s.linked up (front ++ id :: back)))
    (here : c.graph.get? id = some (t.linked (some p) below.roots)) (shown : c.graph.Shows (some id) below)
    (nested : below.Nests Scope.SeenWithin t) (nodup : (p :: (front ++ id :: back)).Nodup)
    (nodup' : (p :: id :: below.ids).Nodup) (levels : below.height ≤ depth) :
    ∃ c' kept, withdrawWithin file (depth + 1) id c = ([], c') ∧ c'.missing = c.missing ∧
      c.graph.Empties c'.graph (p :: id :: below.ids) (p :: kept.ids) ∧
      c'.graph.get? p = some (s.linked up (front ++ (kept.roots ++ back))) ∧ c'.graph.Shows (some p) kept ∧
      (∀ rest, (Forest.tree id t below rest).withdraw file = kept ++ rest.withdraw file) ∧
      kept.ids.Sublist (id :: below.ids) := by
  by_cases seen : t.isIn file = true
  · by_cases only : t.isOnlyIn file = true
    · obtain ⟨c', run, missing, effect, parent'⟩ :=
        withdrawWithin_drops depth parent here shown nested nodup nodup' only
      refine ⟨c', .nil, run, missing, effect, parent', trivial, ?_, List.nil_sublist _⟩
      intro rest
      simp [Forest.withdraw, seen, only]
    · rw [Bool.not_eq_true] at only
      obtain ⟨c', run, missing, effect, shown'⟩ :=
        withdrawWithin_trims inner here shown nested (List.nodup_cons.mp nodup').2 levels seen only
      refine ⟨c', .tree id (t.withdraw file) (below.withdraw file) .nil, run, missing, ?_, ?_, shown', ?_, ?_⟩
      · refine effect.widen ?_ ?_ ?_ <;> intro x <;>
          simp only [Forest.ids_tree, Forest.ids_nil, List.append_nil, List.mem_cons] <;> grind
      · rw [effect.frame p (List.nodup_cons.mp nodup').1, parent]
        rfl
      · intro rest
        simp [Forest.withdraw, seen, only]
      · simpa using below.withdraw_ids_sublist file
  · have run : withdrawWithin file (depth + 1) id c = ([], c) := by
      have seen' : (t.linked (some p) below.roots).isIn file = false := Bool.eq_false_iff.mpr seen
      simp [withdrawWithin, here, seen']
    refine ⟨c, .tree id t below .nil, run, rfl, ?_, parent, ⟨here, shown, trivial⟩, ?_, ?_⟩
    · rw [Forest.ids_tree, Forest.ids_nil, List.append_nil]
      exact .refl _
    · intro rest
      simp [Forest.withdraw, seen]
    · simp

theorem prunes (file : String) (f : Forest) : Prunes file f := by
  -- `front` holds the roots already pruned: the list of children is read while it shrinks.
  induction f with
  | nil =>
    intro depth c p s up front here shown nested nodup levels
    exact ⟨c, rfl, rfl, .refl _, here, shown⟩
  | tree id t below rest inner outer =>
    intro depth c p s up front here shown nested nodup levels
    simp only [Forest.height] at levels
    obtain ⟨depth, rfl⟩ : ∃ d, depth = d + 1 := ⟨depth - 1, by omega⟩
    obtain ⟨hereTree, under, beside⟩ := shown
    obtain ⟨-, nestedBelow, nestedRest⟩ := nested
    have counted := List.nodup_iff_count_le_one.mp nodup
    simp only [Forest.ids_tree, List.count_append, List.count_cons] at counted
    have nodupTree : (p :: id :: below.ids).Nodup := by
      rw [List.nodup_iff_count_le_one]
      intro x
      have := counted x
      simp only [List.count_cons]
      omega
    have nodupRoots : (p :: (front ++ id :: rest.roots)).Nodup := by
      refine List.Sublist.nodup ?_ nodup
      exact (((List.Sublist.refl _).append ((rest.roots_sublist_ids.trans
        (List.sublist_append_right _ _)).cons_cons id))).cons_cons p
    obtain ⟨c₁, kept, run, missing, effect, here₁, shown₁, shape, sub⟩ :=
      withdrawWithin_tree inner here hereTree under nestedBelow nodupRoots nodupTree
        (show below.height ≤ depth by omega)
    have countedKept := fun x => sub.count_le x
    simp only [List.count_cons] at countedKept
    -- What one tree loses is its own, so its siblings are shown as before.
    have outside : ∀ x ∈ rest.ids, x ∉ p :: id :: below.ids := by
      intro x member inside
      have := counted x
      have later := List.count_pos_iff.mpr member
      have listed := List.count_pos_iff.mpr inside
      simp only [List.count_cons] at listed
      omega
    have nodupRest : (p :: ((front ++ kept.roots) ++ rest.ids)).Nodup := by
      rw [List.nodup_iff_count_le_one]
      intro x
      have := counted x
      have bounded := countedKept x
      have roots := kept.roots_sublist_ids.count_le x
      simp only [List.count_cons, List.count_append]
      omega
    rw [← List.append_assoc] at here₁
    obtain ⟨c₂, run₂, missing₂, effect₂, here₂, shown₂⟩ :=
      outer here₁ (beside.frame fun x member => effect.frame x (outside x member)) nestedRest nodupRest
        (show rest.height ≤ depth + 1 by omega)
    refine ⟨c₂, ?_, missing₂.trans missing, ?_, ?_, ?_⟩
    · rw [Forest.roots_tree, List.foldl_cons, pruneWith, run]
      exact run₂
    · rw [shape]
      refine effect.trans effect₂ ?_ ?_ ?_ <;> intro x <;>
        simp only [Forest.ids_tree, Forest.ids_append, List.mem_cons, List.mem_append] <;> grind
    · rw [here₂, shape, Forest.roots_append, List.append_assoc]
    · rw [shape, Graph.shows_append]
      refine ⟨shown₁.frame ?_, shown₂⟩
      intro x member
      refine effect₂.frame x ?_
      have := counted x
      have bounded := countedKept x
      have listed := List.count_pos_iff.mpr member
      intro inside
      rcases List.mem_cons.mp inside with rfl | later
      · simp only [beq_self_eq_true, if_true] at this
        omega
      · have := List.count_pos_iff.mpr later
        omega

end Change

def Scope.withdrawRoot (file : String) (s : Scope) : Scope :=
  if s.isOnlyIn file then { s with declared := [], calls := [], locations := [] }
  else if s.isIn file then s.withdraw file
  else s

namespace Graph

variable {g : Graph} {s : Scope} {f : Forest} {file : String}

theorem size_discardWithin (depth : Nat) (id : ScopeId) : (discardWithin depth id g).size = g.size := by
  induction depth generalizing id g with
  | zero => rfl
  | succ depth ih =>
    have each : ∀ (l : List ScopeId) (g : Graph), (l.foldl (fun g child => discardWithin depth child g) g).size = g.size := by
      intro l
      induction l with
      | nil => intro g; rfl
      | cons x rest later =>
        intro g
        exact (later _).trans (ih x)
    unfold discardWithin
    split
    · rfl
    · rw [each, size_setSlot]

theorem foldl_discard (l : List ScopeId) :
    l.foldl discard g = l.foldl (fun g' child => discardWithin g.size child g') g := by
  have each : ∀ (l : List ScopeId) (g' : Graph), g'.size = g.size →
      l.foldl discard g' = l.foldl (fun g' child => discardWithin g.size child g') g' := by
    intro l
    induction l with
    | nil => intro g' _; rfl
    | cons x rest later =>
      intro g' same
      rw [List.foldl_cons, List.foldl_cons, discard, same]
      exact later _ ((size_discardWithin _ x).trans same)
  exact each l g rfl

theorem clearRoot_pictures (picture : g.Pictures (.tree g.root s f .nil)) :
    g.clearRoot.root = g.root ∧ g.clearRoot.size = g.size ∧
      g.clearRoot.Pictures (.tree g.root { s with declared := [], calls := [], locations := [] } .nil .nil) := by
  obtain ⟨here, under, -⟩ := picture.shows
  have nodup := picture.nodup
  simp only [Forest.ids_tree, Forest.ids_nil, List.append_nil, List.nodup_cons] at nodup
  have children : g.children g.root = f.roots := by simp [Graph.children, here, Scope.linked]
  have effect := discardWithin_shown under nodup.2 (under.height_le_size nodup.2)
  rw [← foldl_discard, ← children] at effect
  have root := effect.root
  have cleared : g.Empties g.clearRoot (g.root :: f.ids) [g.root] := by
    rw [clearRoot, root]
    refine effect.trans (empties_modify g.root _) ?_ (List.forall_mem_nil _) (List.Subset.refl _)
    simp [or_comm]
  refine ⟨cleared.root, cleared.size, cleared.pictures ⟨?_, trivial, trivial⟩ (by simp) (by simp) ?_⟩
  · unfold clearRoot
    rw [get?_modify, root, if_pos rfl, effect.frame _ nodup.1, here]
    rfl
  · intro x s' found outside
    have member := picture.complete x s' found
    simp only [Forest.ids_tree, Forest.ids_nil, List.append_nil] at member
    exact absurd member outside

-- Withdrawing a file always succeeds, cuts nothing loose and leaves the forest without the file.
theorem withdrawing_pictures (picture : g.Pictures (.tree g.root s f .nil)) (nested : f.Nests Scope.SeenWithin s)
    (file : String) :
    ∃ g', g.withdrawing file = ([], { graph := g' }) ∧ g'.root = g.root ∧ g'.size = g.size ∧
      g'.Pictures (.tree g.root (s.withdrawRoot file) (f.withdraw file) .nil) := by
  obtain ⟨here, under, -⟩ := picture.shows
  have start : Change.need [g.root] { graph := g } = { graph := g } := by
    refine Change.need_of_live ?_
    intro x member
    rw [List.mem_singleton.mp member]
    exact contains_of_get? here
  have onlyHere : (g.get? g.root).any (·.isOnlyIn file) = s.isOnlyIn file := by
    rw [here]
    rfl
  unfold withdrawing
  rw [start, onlyHere]
  -- A root seen in that file only is cleared, one seen elsewhere too is trimmed, one not seen there is left alone.
  by_cases only : s.isOnlyIn file = true
  · have loose := outsiders_eq_nil here under nested only
    have live : Change.need (g.children g.root) { graph := g } = { graph := g } := by
      refine Change.need_of_live ?_
      intro x member
      simp only [children, here, Scope.linked] at member
      exact contains_iff.mpr (under.live (f.mem_ids_of_mem_roots member))
    obtain ⟨root, size, cleared⟩ := clearRoot_pictures picture
    refine ⟨g.clearRoot, ?_, root, size, ?_⟩
    · simp only [only, if_true, Change.rescueAllWith, loose, live, List.foldl_nil, start]
      rfl
    · rw [Forest.withdraw_eq_nil nested only, Scope.withdrawRoot, if_pos only]
      exact cleared
  · rw [if_neg only]
    have nodup := picture.nodup
    simp only [Forest.ids_tree, Forest.ids_nil, List.append_nil] at nodup
    have size := picture.shows.height_le_size picture.nodup
    simp only [Forest.height] at size
    obtain ⟨depth, levels⟩ : ∃ depth, g.size = depth + 1 := ⟨g.size - 1, by omega⟩
    by_cases seen : s.isIn file = true
    · obtain ⟨c', run, missing, effect, shown⟩ :=
        @Change.withdrawWithin_trims file { graph := g } g.root s f depth none (Change.prunes file f) here under nested nodup
          (by omega) seen (Bool.eq_false_iff.mpr only)
      refine ⟨c'.graph, ?_, effect.root, effect.size, ?_⟩
      · rw [Change.withdrawFrom, levels, run]
        cases c'
        simp_all
      · rw [Scope.withdrawRoot, if_neg only, if_pos seen]
        refine effect.pictures shown ?_ (by simp) ?_
        · refine List.Sublist.nodup ?_ nodup
          simpa using f.withdraw_ids_sublist file
        · intro x s' found outside
          exact absurd (picture.complete x s' found) (by simpa using outside)
    · refine ⟨g, ?_, rfl, rfl, ?_⟩
      · have seen' : (s.linked none f.roots).isIn file = false := Bool.eq_false_iff.mpr seen
        simp [Change.withdrawFrom, levels, Change.withdrawWithin, here, seen']
      · rw [Scope.withdrawRoot, if_neg only, if_neg seen, Forest.withdraw_eq_self nested (Bool.eq_false_iff.mpr seen)]
        exact picture

end Graph

end ScopeAtlas
