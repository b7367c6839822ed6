import ScopeAtlas.Proofs.KeyedUnion

namespace ScopeAtlas

theorem ParentTable.uses_subset_add (table : ParentTable) (use : TypeUse) :
    table.map (·.use) ⊆ (table.add use).map (·.use) := by
  induction table with
  | nil => exact List.nil_subset _
  | cons p rest ih =>
    unfold add
    split
    · exact List.Subset.refl _
    · exact List.cons_subset_cons p.use ih

theorem ParentTable.uses_subset_unite (table other : ParentTable) : table.map (·.use) ⊆ (table.unite other).map (·.use) := by
  unfold unite
  generalize other.flatMap usesOf = uses
  induction uses generalizing table with
  | nil => exact List.Subset.refl _
  | cons use rest ih => exact List.Subset.trans (table.uses_subset_add use) (ih (table.add use))

theorem VariableTable.length_uniteInto (v : Variable) (group : List Variable) :
    group.length ≤ (uniteInto v group).length := by
  induction group with
  | nil => exact Nat.zero_le _
  | cons known rest ih =>
    unfold uniteInto
    split
    · exact Nat.le_refl _
    · exact Nat.succ_le_succ ih

theorem VariableTable.length_named_unite (table : VariableTable) (v : Variable) (name : String) :
    (table.named name).length ≤ ((table.unite v).named name).length := by
  rw [unite, named_alter]
  split
  · rename_i same
    rw [same]
    exact length_uniteInto v _
  · exact Nat.le_refl _

theorem VariableTable.length_named_foldl_unite (table : VariableTable) (found : List Variable) (name : String) :
    (table.named name).length ≤ ((found.foldl (fun table v => table.unite v) table).named name).length := by
  induction found generalizing table with
  | nil => exact Nat.le_refl _
  | cons v rest ih => exact Nat.le_trans (table.length_named_unite v name) (ih (table.unite v))

-- A parameter with a name keeps it, and its position.
theorem Parameter.name_uniteAll {left right : List Parameter} (trimmed : ∀ p ∈ left, Text.trim p.name = p.name) {i : Nat}
    {p : Parameter} (listed : left[i]? = some p) (named : p.name.isEmpty = false) :
    ∃ p', (uniteAll left right)[i]? = some p' ∧ p'.name = p.name := by
  induction left generalizing right i with
  | nil => cases listed
  | cons first left ih =>
    obtain ⟨here, later⟩ := List.forall_mem_cons.mp trimmed
    cases right with
    | nil => exact ⟨p, listed, rfl⟩
    | cons other right =>
      cases i with
      | zero =>
        cases listed
        refine ⟨_, rfl, ?_⟩
        split
        · unfold unite
          rw [here, named]
          rfl
        · rfl
      | succ i => exact ih later listed

structure MethodDefinition.GrowsInto (m m' : MethodDefinition) : Prop where
  isConstructor : m'.isConstructor = m.isConstructor
  isDestructor : m'.isDestructor = m.isDestructor
  parameters : ∀ (i : Nat) (p : Parameter), m.parameters[i]? = some p → p.name.isEmpty = false →
    ∃ p' : Parameter, m'.parameters[i]? = some p' ∧ p'.name = p.name

namespace Scope

structure GrowsInto (s s' : Scope) : Prop where
  name : s'.name = s.name
  category : s'.category = s.category
  parent : s'.parent = s.parent
  uses : s.parentTable.map (·.use) ⊆ s'.parentTable.map (·.use)
  declared : ∀ name, (s.declared.named name).length ≤ (s'.declared.named name).length
  method : ∀ m, s.kind = .method m → ∃ m', s'.kind = .method m' ∧ m.GrowsInto m'

theorem GrowsInto.refl (s : Scope) : s.GrowsInto s where
  name := rfl
  category := rfl
  parent := rfl
  uses := List.Subset.refl _
  declared _ := Nat.le_refl _
  method m kind := ⟨m, kind, rfl, rfl, fun _ p listed _ => ⟨p, listed, rfl⟩⟩

variable {mine theirs : Scope}

theorem category_unite : (mine.unite theirs).category = mine.category := by
  unfold category
  rw [unite_kind]
  cases mine.kind <;> cases theirs.kind <;> rfl

theorem growsInto_unite (sound : mine.Sound) (parent : Option ScopeId) (children children' : List ScopeId) :
    (mine.linked parent children).GrowsInto ((mine.unite theirs).linked parent children') where
  name := unite_name mine theirs
  category := category_unite
  parent := rfl
  uses := by
    change mine.parentTable.map (·.use) ⊆ (mine.unite theirs).parentTable.map (·.use)
    unfold parentTable type?
    rw [unite_kind]
    cases here : mine.kind <;> cases there : theirs.kind <;> simp [ScopeKind.unite, ParentTable.uses_subset_unite]
  declared name := by
    change (mine.declared.named name).length ≤ ((mine.unite theirs).declared.named name).length
    rw [unite_declared]
    exact VariableTable.length_named_foldl_unite _ _ name
  method m kind := by
    change ∃ m', (mine.unite theirs).kind = .method m' ∧ _
    have kind : mine.kind = .method m := kind
    rw [unite_kind, kind]
    cases there : theirs.kind with
    | method m' => exact ⟨_, rfl, rfl, rfl, fun i p => Parameter.name_uniteAll (sound.trimmed m kind)⟩
    | space | type | block => exact ⟨m, rfl, rfl, rfl, fun _ p listed _ => ⟨p, listed, rfl⟩⟩

end Scope

namespace Graph

-- A graph that is there again in another one, with every scope at its id and below the same scopes.
structure GrowsInto (a m : Graph) : Prop where
  root : m.root = a.root
  scopes : ∀ x s, a.get? x = some s → ∃ s', m.get? x = some s' ∧ s.GrowsInto s'
  around : ∀ x, a.contains x = true → m.ancestorsAndSelf x = a.ancestorsAndSelf x

variable {strict : Prop} {a b g m : Graph} {f h : Forest} {parent : Option ScopeId} {up : List ScopeId} {x : ScopeId} {s : Scope}

theorem nodup_of_subperm {l l' : List ScopeId} (inside : l.Subperm l') (nodup : l'.Nodup) : l.Nodup := by
  obtain ⟨l'', same, sub⟩ := inside
  exact same.nodup_iff.mp (nodup.sublist sub)

-- The way up from a scope of a region, which shares no scope with what is below.
theorem Shows.exists_chain {entry : Forest.Entry} (shown : g.Shows parent f) (above : g.Chain parent up)
    (listed : entry ∈ f.entries parent) :
    ∃ up', g.Chain entry.parent up' ∧ (up' ++ entry.id :: entry.below.ids).Subperm (up ++ f.ids) := by
  induction f generalizing parent up with
  | nil => cases listed
  | tree id s below rest inner outer =>
    obtain ⟨here, under, beside⟩ := shown
    rcases Forest.mem_entries_tree.mp listed with rfl | deeper | later
    · refine ⟨up, above, List.Sublist.subperm ?_⟩
      exact (List.Sublist.refl up).append ((List.sublist_append_left _ _).cons_cons id)
    · have chain : g.Chain (some id) (id :: up) := ⟨rfl, _, here, above⟩
      obtain ⟨up', above', inside⟩ := inner under chain deeper
      refine ⟨up', above', inside.trans (List.perm_middle.symm.subperm.trans (List.Sublist.subperm ?_))⟩
      exact (List.Sublist.refl up).append ((List.sublist_append_left _ _).cons_cons id)
    · obtain ⟨up', above', inside⟩ := outer beside above later
      refine ⟨up', above', inside.trans (List.Sublist.subperm ?_)⟩
      exact (List.Sublist.refl up).append ((List.sublist_append_right _ _).cons id)

theorem Pictures.exists_chain (picture : g.Pictures f) (found : g.get? x = some s) :
    ∃ up, g.Chain s.parent up ∧ (x :: up).Nodup := by
  obtain ⟨entry, listed, rfl, rfl⟩ := picture.exists_entry found
  have top : g.Chain none [] := rfl
  obtain ⟨up, above, inside⟩ := picture.shows.exists_chain top listed
  refine ⟨up, above, ?_⟩
  have apart := List.perm_middle.nodup_iff.mp (nodup_of_subperm inside picture.nodup)
  exact apart.sublist ((List.sublist_append_left _ _).cons_cons _)

theorem AtRest.exists_chain (rest : g.AtRest strict f) (found : g.get? x = some s) :
    ∃ up, g.Chain s.parent up ∧ (x :: up).Nodup :=
  rest.picture.exists_chain found

theorem IsOneTree.eq_root (tree : g.IsOneTree) (found : g.get? x = some s) (top : s.parent = none) : x = g.root := by
  rcases (tree.reachable x s found).cases_tail with same | ⟨y, -, lists⟩
  · exact same
  · obtain ⟨t, found', above⟩ := tree.child y x lists
    rw [found] at found'
    cases found'
    rw [top] at above
    cases above

theorem Chain.root_mem (tree : g.IsOneTree) (above : g.Chain parent up) (inner : parent ≠ none) : g.root ∈ up := by
  induction up generalizing parent with
  | nil => exact absurd above inner
  | cons p up ih =>
    obtain ⟨-, s, found, above⟩ := above
    by_cases top : s.parent = none
    · rw [tree.eq_root found top]
      exact List.mem_cons_self
    · exact List.mem_cons_of_mem p (ih above top)

theorem AtRest.root_mem_ancestorsAndSelf (rest : g.AtRest strict f) (live : g.contains x = true) :
    g.root ∈ g.ancestorsAndSelf x := by
  obtain ⟨s, found⟩ := contains_iff.mp live
  obtain ⟨up, above, nodup⟩ := rest.exists_chain found
  rw [ancestorsAndSelf_eq found above nodup]
  by_cases top : s.parent = none
  · rw [rest.isOneTree.eq_root found top]
    exact List.mem_cons_self
  · exact List.mem_cons_of_mem x (above.root_mem rest.isOneTree top)

theorem IsOneTree.ancestorsAndSelf_root (tree : g.IsOneTree) : g.ancestorsAndSelf g.root = [g.root] := by
  obtain ⟨s, found, top, -⟩ := tree.root
  refine ancestorsAndSelf_eq found ?_ (List.nodup_singleton _)
  rw [top]
  exact rfl

theorem AtRest.scope_grows (left : a.AtRest strict f) (right : b.AtRest strict h)
    (merged : m.AtRest strict (f.merged a.size h)) (found : a.get? x = some s) :
    ∃ s', m.get? x = some s' ∧ s.GrowsInto s' := by
  obtain ⟨t, below, here⟩ := left.at?_keyPath found
  obtain ⟨linked, -⟩ := left.of_at? here
  rw [found] at linked
  cases linked
  cases there : h.at? (a.keyPath x) with
  | none => exact ⟨_, left.get?_left right merged here there, .refl _⟩
  | some other =>
    have place := left.at?_merged right (a.keyPath x)
    rw [here, there] at place
    obtain ⟨united, -⟩ := merged.of_at? place
    have sound := (left.sound_of_at? here).1.rebind (f.retired (h.shift a.size)).survivor
    rw [left.parent_left right here, Scope.rebind_unite] at united
    refine ⟨_, united, ?_⟩
    rw [← left.rebind_left right here]
    exact Scope.growsInto_unite sound _ _ _

theorem AtRest.growsInto (left : a.AtRest strict f) (right : b.AtRest strict h)
    (merged : m.AtRest strict (f.merged a.size h)) : a.GrowsInto m := by
  have scopes : ∀ x s, a.get? x = some s → ∃ s', m.get? x = some s' ∧ s.GrowsInto s' :=
    fun x s => left.scope_grows right merged
  refine ⟨?_, scopes, ?_⟩
  · obtain ⟨s, found, top, -⟩ := left.isOneTree.root
    obtain ⟨s', found', grows⟩ := scopes a.root s found
    exact (merged.isOneTree.eq_root found' (grows.parent.trans top)).symm
  · intro x live
    obtain ⟨s, found⟩ := contains_iff.mp live
    obtain ⟨s', found', grows⟩ := scopes x s found
    obtain ⟨up, above, nodup⟩ := left.exists_chain found
    have above' : m.Chain s'.parent up := by
      rw [grows.parent]
      refine above.frame ?_
      intro y member
      obtain ⟨t, here⟩ := contains_iff.mp (above.live member)
      obtain ⟨t', here', grows⟩ := scopes y t here
      rw [here, here', Option.map_some, Option.map_some, grows.parent]
    rw [ancestorsAndSelf_eq found above nodup, ancestorsAndSelf_eq found' above' nodup]

end Graph

end ScopeAtlas
