import ScopeAtlas.Proofs.Forest

namespace ScopeAtlas

namespace Graph

variable {g : Graph}

-- The trees of a forest stand in the arena side by side, all with one parent.
def Shows (g : Graph) : Option ScopeId → Forest → Prop
  | _, .nil => True
  | parent, .tree id s below rest =>
    g.get? id = some (s.linked parent below.roots) ∧ g.Shows (some id) below ∧ g.Shows parent rest

@[simp] theorem shows_nil {parent : Option ScopeId} : g.Shows parent .nil := trivial

theorem shows_tree {parent : Option ScopeId} {id : ScopeId} {s : Scope} {below rest : Forest} :
    g.Shows parent (.tree id s below rest) ↔
      g.get? id = some (s.linked parent below.roots) ∧ g.Shows (some id) below ∧ g.Shows parent rest := Iff.rfl

theorem shows_append {parent : Option ScopeId} {front back : Forest} :
    g.Shows parent (front ++ back) ↔ g.Shows parent front ∧ g.Shows parent back := by
  induction front with
  | nil => simp
  | tree id s below rest _ ih =>
    rw [Forest.tree_append, shows_tree, shows_tree, ih]
    grind

theorem Shows.frame {g' : Graph} {parent : Option ScopeId} {f : Forest} (shown : g.Shows parent f)
    (same : ∀ x ∈ f.ids, g'.get? x = g.get? x) : g'.Shows parent f := by
  induction f generalizing parent with
  | nil => trivial
  | tree id s below rest inner outer =>
    obtain ⟨here, under, beside⟩ := shown
    refine ⟨?_, inner under ?_, outer beside ?_⟩
    · rw [same id (by simp), here]
    · intro x member
      exact same x (by simp [member])
    · intro x member
      exact same x (by simp [member])

theorem Shows.live {parent : Option ScopeId} {f : Forest} (shown : g.Shows parent f) {x : ScopeId}
    (member : x ∈ f.ids) : ∃ s, g.get? x = some s := by
  induction f generalizing parent with
  | nil => cases member
  | tree id s below rest inner outer =>
    obtain ⟨here, under, beside⟩ := shown
    simp only [Forest.ids_tree, List.mem_cons, List.mem_append] at member
    rcases member with rfl | lower | later
    · exact ⟨_, here⟩
    · exact inner under lower
    · exact outer beside later

-- All slots are taken by one forest of scopes, whose trees have no parent.
structure Pictures (g : Graph) (f : Forest) : Prop where
  shows : g.Shows none f
  nodup : f.ids.Nodup
  complete : ∀ id s, g.get? id = some s → id ∈ f.ids

theorem Pictures.mem_iff {f : Forest} (picture : g.Pictures f) {x : ScopeId} : x ∈ f.ids ↔ g.contains x = true := by
  constructor
  · intro member
    exact contains_iff.mpr (picture.shows.live member)
  · intro live
    obtain ⟨s, found⟩ := contains_iff.mp live
    exact picture.complete x s found

-- One graph differs from another in a region only, and in it nothing is left but what is kept.
structure Empties (g g' : Graph) (region kept : List ScopeId) : Prop where
  frame : ∀ x, x ∉ region → g'.get? x = g.get? x
  emptied : ∀ x ∈ region, x ∉ kept → g'.get? x = none
  size : g'.size = g.size
  root : g'.root = g.root

section Emptying

variable {g' g'' : Graph} {r r' region k k' kept : List ScopeId}

theorem Empties.refl (region : List ScopeId) : g.Empties g region region where
  frame _ _ := rfl
  emptied _ inside dropped := absurd inside dropped
  size := rfl
  root := rfl

theorem Empties.trans (first : g.Empties g' r k) (second : g'.Empties g'' r' k')
    (cover : ∀ x, x ∈ region ↔ x ∈ r ∨ x ∈ r') (within : ∀ x ∈ k, x ∈ r' ∨ x ∈ kept) (still : k' ⊆ kept) :
    g.Empties g'' region kept where
  frame x outside := by
    have neither := mt (cover x).mpr outside
    rw [second.frame x fun inside => neither (Or.inr inside), first.frame x fun inside => neither (Or.inl inside)]
  emptied x inside dropped := by
    by_cases later : x ∈ r'
    · exact second.emptied x later fun member => dropped (still member)
    · have earlier : x ∈ r := ((cover x).mp inside).resolve_right later
      rw [second.frame x later]
      exact first.emptied x earlier fun member => (within x member).elim later dropped
  size := second.size.trans first.size
  root := second.root.trans first.root

theorem Empties.widen (empties : g.Empties g' r k) (larger : r ⊆ region) (added : ∀ x ∈ region, x ∈ r ∨ x ∈ kept)
    (still : k ⊆ kept) : g.Empties g' region kept where
  frame x outside := empties.frame x fun inside => outside (larger inside)
  emptied x inside dropped :=
    empties.emptied x ((added x inside).resolve_right dropped) fun member => dropped (still member)
  size := empties.size
  root := empties.root

theorem Empties.pictures {after : Forest} (empties : g.Empties g' region kept) (shown : g'.Shows none after)
    (nodup : after.ids.Nodup) (still : kept ⊆ after.ids)
    (outside : ∀ x s, g.get? x = some s → x ∉ region → x ∈ after.ids) : g'.Pictures after where
  shows := shown
  nodup := nodup
  complete x s found := by
    by_cases inside : x ∈ region
    · by_contra dropped
      rw [empties.emptied x inside fun member => dropped (still member)] at found
      cases found
    · rw [empties.frame x inside] at found
      exact outside x s found inside

theorem empties_setSlot (id : ScopeId) : g.Empties (g.setSlot id none) [id] [] where
  frame x outside := by rw [get?_setSlot_none, if_neg (by simpa using outside)]
  emptied x inside _ := by rw [get?_setSlot_none, if_pos (by simpa using inside)]
  size := size_setSlot none
  root := rfl

theorem empties_modify (id : ScopeId) (change : Scope → Scope) : g.Empties (g.modify id change) [id] [id] where
  frame x outside := by rw [get?_modify, if_neg (by simpa using outside)]
  emptied _ inside dropped := absurd inside dropped
  size := size_modify change
  root := root_modify change

end Emptying

theorem length_le_size {taken : List ScopeId} (nodup : taken.Nodup) (live : ∀ x ∈ taken, ∃ s, g.get? x = some s) :
    taken.length ≤ g.size := by
  have inside : taken ⊆ List.range g.size := by
    intro x member
    obtain ⟨s, found⟩ := live x member
    exact List.mem_range.mpr (lt_size_of_get? found)
  simpa using (nodup.subperm inside).length_le

theorem Shows.height_le_size {parent : Option ScopeId} {f : Forest} (shown : g.Shows parent f) (nodup : f.ids.Nodup) :
    f.height ≤ g.size :=
  Nat.le_trans f.height_le_length (length_le_size nodup fun _ member => shown.live member)

-- The scopes above: each names the next as its parent, and the last has none.
def Chain (g : Graph) : Option ScopeId → List ScopeId → Prop
  | parent, [] => parent = none
  | parent, p :: up => parent = some p ∧ ∃ s, g.get? p = some s ∧ g.Chain s.parent up

theorem Chain.frame {g' : Graph} {parent : Option ScopeId} {up : List ScopeId} (above : g.Chain parent up)
    (same : ∀ x ∈ up, (g'.get? x).map (·.parent) = (g.get? x).map (·.parent)) : g'.Chain parent up := by
  induction up generalizing parent with
  | nil => exact above
  | cons p up ih =>
    obtain ⟨rfl, s, found, further⟩ := above
    have here := same p (by simp)
    rw [found] at here
    obtain ⟨s', found', equal⟩ := Option.map_eq_some_iff.mp here
    exact ⟨rfl, s', found', equal ▸ ih further fun x member => same x (by simp [member])⟩

theorem Chain.live {parent : Option ScopeId} {up : List ScopeId} (above : g.Chain parent up) {x : ScopeId}
    (member : x ∈ up) : g.contains x = true := by
  induction up generalizing parent with
  | nil => cases member
  | cons p up ih =>
    obtain ⟨rfl, s, found, further⟩ := above
    rcases List.mem_cons.mp member with rfl | later
    · exact contains_of_get? found
    · exact ih further later

theorem chainWithin_eq {id : ScopeId} {s : Scope} {up : List ScopeId} (found : g.get? id = some s)
    (above : g.Chain s.parent up) (bound : Nat) : g.chainWithin bound id = (id :: up).take bound := by
  induction bound generalizing id s up with
  | zero => rfl
  | succ bound ih =>
    have parent : g.parent? id = s.parent := by simp [parent?, found]
    cases up with
    | nil =>
      have none : s.parent = none := above
      simp [chainWithin, parent, none]
    | cons p up =>
      obtain ⟨equal, t, found', further⟩ := above
      simp only [chainWithin, parent, equal, List.take_succ_cons, ih found' further]

theorem ancestors_live {id x : ScopeId} {s : Scope} {up : List ScopeId} (found : g.get? id = some s)
    (above : g.Chain s.parent up) (member : x ∈ g.ancestors id) : g.contains x = true := by
  rw [ancestors, ancestorsAndSelf, if_pos (contains_of_get? found), chainWithin_eq found above] at member
  have listed : x ∈ id :: up := List.mem_of_mem_take (List.mem_of_mem_tail member)
  rcases List.mem_cons.mp listed with rfl | higher
  · exact contains_of_get? found
  · exact above.live higher

theorem ancestorsAndSelf_eq {id : ScopeId} {s : Scope} {up : List ScopeId} (found : g.get? id = some s)
    (above : g.Chain s.parent up) (nodup : (id :: up).Nodup) : g.ancestorsAndSelf id = id :: up := by
  have short : (id :: up).length ≤ g.size := by
    refine length_le_size nodup ?_
    intro x member
    rcases List.mem_cons.mp member with rfl | higher
    · exact ⟨s, found⟩
    · exact contains_iff.mp (above.live higher)
  rw [ancestorsAndSelf, if_pos (contains_of_get? found), chainWithin_eq found above, List.take_of_length_le short]

theorem ancestors_eq {id : ScopeId} {s : Scope} {up : List ScopeId} (found : g.get? id = some s)
    (above : g.Chain s.parent up) (nodup : (id :: up).Nodup) : g.ancestors id = up := by
  rw [ancestors, ancestorsAndSelf_eq found above nodup, List.tail_cons]

end Graph

theorem Change.need_of_live {c : Change} {ids : List ScopeId} (live : ∀ x ∈ ids, c.graph.contains x = true) :
    c.need ids = c := by
  have none : ids.find? (fun id => !c.graph.contains id) = none := by
    rw [List.find?_eq_none]
    intro x member
    simp [live x member]
  cases c with
  | mk graph missing => cases missing <;> simp_all [Change.need]

end ScopeAtlas
