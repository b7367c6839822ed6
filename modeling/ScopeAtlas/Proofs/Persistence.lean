import ScopeAtlas.Proofs.Extension
import ScopeAtlas.Proofs.Findings

namespace ScopeAtlas

theorem addNewIds_subset {found found' new new' : List ScopeId} (old : found ⊆ found') (more : new ⊆ new') :
    addNewIds found new ⊆ addNewIds found' new' :=
  fun _ member => mem_addNewIds.mpr ((mem_addNewIds.mp member).imp (@old _) (@more _))

def Declared.KeptIn (found found' : List Declared) : Prop := found.map place ⊆ found'.map place

theorem Declared.KeptIn.addNew {found found' : List Declared} (less : KeptIn found found') :
    KeptIn (Declared.addNew [] found) (Declared.addNew [] found') := by
  intro place listed
  obtain ⟨d, member, rfl⟩ := List.mem_map.mp listed
  have member : d ∈ found := (mem_addUnknown member).resolve_left List.not_mem_nil
  obtain ⟨d', member', again⟩ := List.mem_map.mp (less (List.mem_map_of_mem member))
  rw [← again]
  exact mem_keys_addUnknown Declared.isSame_iff member'

-- The one is the other: of one owner and name, and kept at one place.
structure Declared.Matches (d d' : Declared) : Prop where
  owner : d'.scope = d.scope
  name : d'.name = d.name
  place : d'.place = d.place

-- An answer of the later search comes with an earlier one that is kept in it.
def Persists (kept : α → β → Prop) (q : Except Fault α) (q' : Except Fault β) : Prop :=
  ∀ b, q' = .ok b → ∃ a, q = .ok a ∧ kept a b

namespace Persists

variable {α β γ δ : Type} {kept : α → β → Prop} {kept' : γ → δ → Prop} {q : Except Fault α} {q' : Except Fault β}

theorem ok {a : α} {b : β} (holds : kept a b) : Persists kept (.ok a) (.ok b) := by
  intro b' same
  cases same
  exact ⟨a, rfl, holds⟩

theorem mono {weaker : α → β → Prop} (persists : Persists kept q q') (implied : ∀ a b, kept a b → weaker a b) :
    Persists weaker q q' := by
  intro b answer
  obtain ⟨a, before, holds⟩ := persists b answer
  exact ⟨a, before, implied a b holds⟩

theorem bind {f : α → Except Fault γ} {f' : β → Except Fault δ} (first : Persists kept q q')
    (further : ∀ a b, kept a b → Persists kept' (f a) (f' b)) : Persists kept' (q >>= f) (q' >>= f') := by
  intro d answer
  obtain ⟨b, answer, later⟩ := ok_of_bind answer
  obtain ⟨a, before, holds⟩ := first b answer
  rw [before]
  exact further a b holds d later

theorem map {f : α → γ} {f' : β → δ} (first : Persists kept q q') (further : ∀ a b, kept a b → kept' (f a) (f' b)) :
    Persists kept' (q >>= fun a => pure (f a)) (q' >>= fun b => pure (f' b)) :=
  first.bind fun a b holds => ok (further a b holds)

theorem foldlM {f : α → γ → Except Fault α} {f' : β → γ → Except Fault β} {l : List γ} {a : α} {b : β} (start : kept a b)
    (step : ∀ a b c, kept a b → Persists kept (f a c) (f' b c)) : Persists kept (l.foldlM f a) (l.foldlM f' b) := by
  induction l generalizing a b with
  | nil => exact ok start
  | cons c rest ih =>
    rw [List.foldlM_cons, List.foldlM_cons]
    exact (step a b c start).bind fun _ _ => ih

variable {places places' : List α}

theorem mapM {f : α → Except Fault γ} {f' : α → Except Fault δ} (more : places ⊆ places')
    (each : ∀ x ∈ places, Persists kept' (f x) (f' x)) :
    Persists (fun found found' => ∀ c ∈ found, ∃ d ∈ found', kept' c d) (places.mapM f) (places'.mapM f') := by
  intro found' run
  apply Yields.answer
  apply Yields.mapM
  intro x listed
  obtain ⟨d, member, answer⟩ := ok_of_mapM run x (more listed)
  obtain ⟨c, before, holds⟩ := each x listed d answer
  rw [before]
  exact ⟨d, member, holds⟩

theorem flatten {κ : Type} {key : γ → κ} {f f' : α → Except Fault (List γ)} (more : places ⊆ places')
    (each : ∀ x ∈ places, Persists (fun here here' => here.map key ⊆ here'.map key) (f x) (f' x)) :
    Persists (fun found found' => found.flatten.map key ⊆ found'.flatten.map key) (places.mapM f) (places'.mapM f') := by
  apply (mapM more each).mono
  intro found found' all k listed
  obtain ⟨c, member, rfl⟩ := List.mem_map.mp listed
  obtain ⟨here, inside, member⟩ := List.mem_flatten.mp member
  obtain ⟨here', inside', less⟩ := all here inside
  obtain ⟨d, member', same⟩ := List.mem_map.mp (less (List.mem_map_of_mem member))
  exact same ▸ List.mem_map_of_mem (List.mem_flatten.mpr ⟨here', inside', member'⟩)

theorem searchEach {f f' : α → Except Fault (List ScopeId)} (more : places ⊆ places')
    (each : ∀ x ∈ places, Persists (· ⊆ ·) (f x) (f' x)) :
    Persists (· ⊆ ·) (searchEach f places) (searchEach f' places') := by
  intro found' run
  apply Yields.answer
  refine Yields.foldlM (List.nil_subset _) ?_
  intro found x before listed
  obtain ⟨here', answer, inside⟩ := ok_of_searchEach run x (more listed)
  obtain ⟨here, before', less⟩ := each x listed here' answer
  rw [before']
  intro y member
  exact (mem_addNewIds.mp member).elim (@before y) fun new => inside (less new)

end Persists

namespace Graph

variable {a m : Graph} {x y t : ScopeId} {name : String}

variable (tree : a.IsOneTree) (tree' : m.IsOneTree) (grows : a.GrowsInto m)
include grows

theorem GrowsInto.live (here : a.contains x = true) : m.contains x = true := by
  obtain ⟨s, found⟩ := contains_iff.mp here
  obtain ⟨s', found', -⟩ := grows.scopes x s found
  exact contains_of_get? found'

theorem GrowsInto.around_subset (here : a.contains x = true) : a.ancestorsAndSelf x ⊆ m.ancestorsAndSelf x := by
  rw [grows.around x here]
  exact List.Subset.refl _

theorem GrowsInto.persists_scope (here : a.contains x = true) : Persists Scope.GrowsInto (a.scope x) (m.scope x) := by
  obtain ⟨s, found⟩ := contains_iff.mp here
  obtain ⟨s', found', later⟩ := grows.scopes x s found
  rw [scope_eq found, scope_eq found']
  exact Persists.ok later

theorem GrowsInto.nameOf_eq (here : a.contains x = true) : m.nameOf? x = a.nameOf? x := by
  obtain ⟨s, found⟩ := contains_iff.mp here
  obtain ⟨s', found', later⟩ := grows.scopes x s found
  have category := later.category
  rw [nameOf?, nameOf?, found, found', Option.bind_some, Option.bind_some]
  unfold Scope.pathName? Scope.isNamed
  rw [category, later.name]

theorem GrowsInto.persists_guarded {kept : List α → List α → Prop} {q q' : Except Fault (List α)} (nothing : ∀ l, kept [] l)
    (searched : name.isEmpty = false → a.contains x = true → Persists kept q q') :
    Persists kept (if name.isEmpty || !a.contains x then .ok [] else q) (if name.isEmpty || !m.contains x then .ok [] else q') := by
  cases named : name.isEmpty with
  | true => exact fun found' _ => ⟨[], rfl, nothing found'⟩
  | false =>
    cases live : a.contains x with
    | false => exact fun found' _ => ⟨[], rfl, nothing found'⟩
    | true =>
      rw [grows.live live]
      exact searched named live

include tree tree'

theorem GrowsInto.children_subset (x : ScopeId) : a.children x ⊆ m.children x := by
  intro c listed
  unfold children at listed ⊢
  cases found : a.get? x with
  | none => simp [found] at listed
  | some s =>
    rw [found] at listed
    obtain ⟨t, here, above⟩ := tree.child x c ⟨s, found, listed⟩
    obtain ⟨t', here', later⟩ := grows.scopes c t here
    obtain ⟨s', found', listed'⟩ := tree'.listed c t' x here' (later.parent.trans above)
    rw [found']
    exact listed'

theorem GrowsInto.persists_childrenWith {test : Scope → Bool}
    (keeps : ∀ s s', s.GrowsInto s' → test s = true → test s' = true) (x : ScopeId) :
    Persists (· ⊆ ·) (a.childrenWith test x) (m.childrenWith test x) := by
  rw [tree.childrenWith_eq, tree'.childrenWith_eq]
  apply Persists.ok
  intro c member
  obtain ⟨listed, passes⟩ := List.mem_filter.mp member
  obtain ⟨s, found, passes⟩ := (Option.any_eq_true _ _).mp passes
  obtain ⟨s', found', later⟩ := grows.scopes c s found
  refine List.mem_filter.mpr ⟨grows.children_subset tree tree' x listed, ?_⟩
  exact (Option.any_eq_true _ _).mpr ⟨s', found', keeps s s' later passes⟩

theorem GrowsInto.persists_childrenNamedOf (category : Category) (name : String) (x : ScopeId) :
    Persists (· ⊆ ·) (a.childrenNamedOf category name x) (m.childrenNamedOf category name x) := by
  refine grows.persists_childrenWith tree tree' ?_ x
  intro s s' later passes
  rw [later.name, later.category]
  exact passes

theorem GrowsInto.persists_spacesAndTypesCalled (name : String) (x : ScopeId) :
    Persists (· ⊆ ·) (a.spacesAndTypesCalled name x) (m.spacesAndTypesCalled name x) := by
  refine grows.persists_childrenWith tree tree' ?_ x
  intro s s' later passes
  rw [later.name, later.category]
  exact passes

theorem GrowsInto.persists_scopesAtPath (path : List String) :
    Persists (· ⊆ ·) (a.scopesAtPath path) (m.scopesAtPath path) := by
  unfold scopesAtPath
  rw [grows.root]
  refine Persists.foldlM (List.Subset.refl _) ?_
  intro reached reached' name more
  have each : ∀ x ∈ reached, Persists (fun here here' => here.map id ⊆ here'.map id) (a.spacesAndTypesCalled name x)
      (m.spacesAndTypesCalled name x) := by
    intro x _
    simpa only [List.map_id] using grows.persists_spacesAndTypesCalled tree tree' name x
  simpa only [List.map_id] using (Persists.flatten more each).map fun _ _ => id

theorem GrowsInto.persists_importedNamed (category : Category) (name : String) (i : Import) :
    Persists (· ⊆ ·) (a.importedNamed category name i) (m.importedNamed category name i) := by
  have scopes : Persists (· ⊆ ·) (a.importedScopes name i) (m.importedScopes name i) := by
    unfold importedScopes
    split
    · exact grows.persists_scopesAtPath tree tree' i.pathNames
    · exact Persists.ok (List.Subset.refl _)
  apply scopes.bind
  intro reached reached' more
  exact Persists.searchEach more fun x _ => grows.persists_childrenNamedOf tree tree' category name x

omit tree'

theorem GrowsInto.qualifierNames_eq (here : a.contains x = true) : m.qualifierNames x = a.qualifierNames x := by
  unfold qualifierNames ancestors
  rw [grows.around x here]
  congr 1
  apply List.filterMap_congr
  intro y listed
  exact grows.nameOf_eq (tree.live_ancestorsAndSelf x y (List.mem_of_mem_tail listed))

theorem GrowsInto.contextPaths_eq {u : TypeUse} (here : a.contains u.scope = true) :
    u.contextPaths m = u.contextPaths a := by
  unfold TypeUse.contextPaths
  rw [grows.around u.scope here]
  congr 1
  apply List.map_congr_left
  intro y listed
  have live := tree.live_ancestorsAndSelf u.scope y listed
  rw [namePath, namePath, grows.qualifierNames_eq tree live, grows.nameOf_eq live]

include tree'

theorem GrowsInto.persists_qualifiedCandidates {u : TypeUse} (here : a.contains u.scope = true) :
    Persists (· ⊆ ·) (u.qualifiedCandidates a) (u.qualifiedCandidates m) := by
  rw [tree.qualifiedCandidates_eq, tree'.qualifiedCandidates_eq, grows.contextPaths_eq tree here]
  apply Persists.ok
  intro x member
  obtain ⟨called, fits⟩ := List.mem_filter.mp member
  obtain ⟨s, found, type⟩ := mem_typesCalled.mp called
  obtain ⟨s', found', later⟩ := grows.scopes x s found
  refine List.mem_filter.mpr ⟨mem_typesCalled.mpr ⟨s', found', ?_⟩, ?_⟩
  · exact ⟨later.category.trans type.sort, later.name.trans type.named⟩
  · rw [grows.qualifierNames_eq tree (contains_of_get? found)]
    exact fits

variable {parents parents' : Parents}
variable (more : ∀ x, Persists (· ⊆ ·) (parents x) (parents' x)) (finds : a.FindsParents True parents fun _ => True)
include more finds

omit tree tree' grows in
-- The later lineage is closed under the later parents, so the earlier climb never leaves it.
theorem persists_lineageWith (t : ScopeId) : Persists (· ⊆ ·) (a.lineageWith parents t) (m.lineageWith parents' t) := by
  intro found' climbed
  obtain ⟨ahead, -, closed⟩ := climbWithin_closed climbed
  have inside : a.FindsParents False parents (· ∈ found') := by
    intro x member
    obtain ⟨above', answer', within⟩ := (closed x member).resolve_left List.not_mem_nil
    obtain ⟨above, answer, less⟩ := more x above' answer'
    have live := finds x trivial
    rw [answer] at live ⊢
    exact fun p listed => ⟨(live p listed).1, within p (less listed)⟩
  obtain ⟨found, climbed', all⟩ := (yields_lineageWith inside (ahead t List.mem_cons_self)).answer
  exact ⟨found, climbed', fun x member => (all x member).2⟩

omit tree tree' grows in
theorem persists_above (here : a.contains t = true) :
    Persists (fun found found' => a.AllLive found.tail ∧ found.tail ⊆ found'.tail)
      (a.lineageWith parents t) (m.lineageWith parents' t) := by
  intro found' climbed'
  obtain ⟨found, climbed, less⟩ := persists_lineageWith more finds t found' climbed'
  obtain ⟨above, rfl, once⟩ := lineageWith_eq_cons climbed
  obtain ⟨above', rfl, -⟩ := lineageWith_eq_cons climbed'
  have all := @yields_lineageWith a t _ _ _ finds trivial
  rw [climbed] at all
  refine ⟨_, climbed, ?_, ?_⟩
  · intro x member
    rcases (all x (List.mem_cons_of_mem t member)).1 with rfl | live
    · exact here
    · exact live
  · intro x member
    rcases List.mem_cons.mp (less (List.mem_cons_of_mem t member)) with rfl | later
    · exact absurd member (List.nodup_cons.mp once).1
    · exact later

theorem GrowsInto.persists_membersWith (category : Category) (name : String) (here : a.contains x = true) :
    Persists (· ⊆ ·) (a.membersWith parents category name x) (m.membersWith parents' category name x) := by
  have named := grows.persists_childrenNamedOf tree tree' category name
  refine (named x).bind fun own own' less => (grows.persists_scope here).bind fun s s' later => ?_
  rw [later.category]
  split
  · refine (persists_above more finds here).bind fun found found' inherited => ?_
    refine (Persists.searchEach inherited.2 fun y _ => named y).map fun _ _ => ?_
    exact addNewIds_subset less
  · exact Persists.ok less

theorem GrowsInto.persists_outwardWith (category : Category) (name : String) (imports : List Import)
    (around : a.ancestorsAndSelf x ⊆ m.ancestorsAndSelf y) :
    Persists (· ⊆ ·) (a.outwardWith parents category name imports x) (m.outwardWith parents' category name imports y) := by
  have enclosing := Persists.searchEach around fun z listed =>
    grows.persists_membersWith tree tree' more finds category name (tree.live_ancestorsAndSelf x z listed)
  have imported := Persists.searchEach (List.Subset.refl imports) fun i _ =>
    grows.persists_importedNamed tree tree' category name i
  exact enclosing.bind fun _ _ less => imported.map fun _ _ => addNewIds_subset less

theorem GrowsInto.persists_candidatesWith (u : TypeUse) :
    Persists (· ⊆ ·) (u.candidatesWith parents a) (u.candidatesWith parents' m) := by
  refine grows.persists_guarded List.nil_subset fun _ live => ?_
  split
  · exact grows.persists_outwardWith tree tree' more finds _ _ _ (grows.around_subset live)
  · exact grows.persists_qualifiedCandidates tree tree' live

omit tree tree' grows more finds in
theorem parentsWith_eq {s : Scope} (found : a.get? t = some s) : a.parentsWith parents t = do
    return (← searchEach (·.candidatesWith parents a) (s.parentTable.map (·.use))).filter (· != t) := by
  rw [parentsWith, found, Option.bind_some, Scope.map_use_parentTable]
  cases s.type? <;> rfl

theorem GrowsInto.persists_parentsWith (t : ScopeId) :
    Persists (· ⊆ ·) (a.parentsWith parents t) (m.parentsWith parents' t) := by
  cases found : a.get? t with
  | none =>
    rw [parentsWith, found]
    exact fun found' _ => ⟨[], rfl, List.nil_subset _⟩
  | some s =>
    obtain ⟨s', found', later⟩ := grows.scopes t s found
    rw [parentsWith_eq found, parentsWith_eq found']
    have searched := Persists.searchEach later.uses fun u _ => grows.persists_candidatesWith tree tree' more finds u
    exact searched.map fun _ _ less => List.filter_subset _ less

omit more finds

theorem GrowsInto.persists_parentsWithin (bound : Nat) (t : ScopeId) :
    Persists (· ⊆ ·) (a.parentsWithin bound t) (m.parentsWithin bound t) := by
  induction bound generalizing t with
  | zero =>
    intro found' answer
    cases answer
  | succ bound ih => exact grows.persists_parentsWith tree tree' ih (tree.findsParents_within bound) t

-- The larger graph searches within a larger bound, which finds nothing that the smaller bound does not.
theorem GrowsInto.persists_parents (t : ScopeId) : Persists (· ⊆ ·) (a.parents t) (m.parents t) := by
  intro found' answer'
  obtain ⟨found, answer, less⟩ := grows.persists_parentsWithin tree tree' (m.size + 1) t found' answer'
  exact ⟨found, tree.parents_eq answer, less⟩

theorem GrowsInto.persists_lookup (category : Category) (name : String) (imports : List Import)
    (around : a.ancestorsAndSelf x ⊆ m.ancestorsAndSelf y) :
    Persists (· ⊆ ·) (a.lookup category name imports x) (m.lookup category name imports y) :=
  grows.persists_outwardWith tree tree' (grows.persists_parents tree tree') (tree.findsParents_within _) category name imports
    around

theorem GrowsInto.persists_typeCandidates (u : TypeUse) : Persists (· ⊆ ·) (u.candidates a) (u.candidates m) :=
  grows.persists_candidatesWith tree tree' (grows.persists_parents tree tree') (tree.findsParents_within _) u

-- A qualifier outside of all live scopes is searched from the root, which is around every live scope of the larger graph.
theorem GrowsInto.persists_qualifierCandidates (rooted : ∀ y, m.contains y = true → m.root ∈ m.ancestorsAndSelf y)
    (u : QualifierUse) : Persists (· ⊆ ·) (u.candidates a) (u.candidates m) := by
  have around : a.ancestorsAndSelf ((u.scope.filter a.contains).getD a.root) ⊆
      m.ancestorsAndSelf ((u.scope.filter m.contains).getD m.root) := by
    cases live : u.scope.filter a.contains with
    | some x =>
      obtain ⟨written, here⟩ := Option.filter_eq_some_iff.mp live
      rw [Option.filter_eq_some_iff.mpr ⟨written, grows.live here⟩]
      exact grows.around_subset here
    | none =>
      rw [Option.getD_none, tree.ancestorsAndSelf_root, ← grows.root]
      refine List.cons_subset.mpr ⟨?_, List.nil_subset _⟩
      apply rooted
      cases later : u.scope.filter m.contains with
      | some y => exact (Option.filter_eq_some_iff.mp later).2
      | none =>
        obtain ⟨s, found, -⟩ := tree'.root
        exact contains_of_get? found
  refine (grows.persists_lookup tree tree' _ _ _ around).bind fun spaces spaces' less => ?_
  split
  · exact Persists.ok less
  · exact (grows.persists_lookup tree tree' _ _ _ around).map fun _ _ => addNewIds_subset less

theorem GrowsInto.persists_callCandidates {call : Call} (plain : call.receivers = []) :
    Persists (· ⊆ ·) (call.candidates a) (call.candidates m) := by
  unfold Call.candidates
  rw [plain]
  refine grows.persists_guarded List.nil_subset fun _ live => ?_
  have around := grows.around_subset live
  split
  · refine (grows.persists_lookup tree tree' _ _ _ around).bind fun types types' less => ?_
    refine Persists.searchEach less fun x _ => grows.persists_childrenWith tree tree' ?_ x
    intro s s' later passes
    unfold Scope.method? at passes ⊢
    cases kind : s.kind with
    | method definition =>
      obtain ⟨definition', kind', same⟩ := later.method definition kind
      rw [kind] at passes
      rw [kind']
      unfold Call.sharesFlag at passes ⊢
      simpa [same.isConstructor, same.isDestructor] using passes
    | space | type | block => simp [kind] at passes
  · exact grows.persists_lookup tree tree' _ _ _ around

omit tree tree'

theorem GrowsInto.persists_variablesNamed (name : String) (live : a.contains x = true) :
    Persists Declared.KeptIn (a.variablesNamed name x) (m.variablesNamed name x) := by
  refine (grows.persists_scope live).map fun s s' later => ?_
  intro place listed
  obtain ⟨d, member, rfl⟩ := List.mem_map.mp listed
  obtain ⟨⟨v, index⟩, filed, rfl⟩ := List.mem_map.mp member
  rw [List.mem_zipIdx_iff_getElem?] at filed
  obtain ⟨inside, -⟩ := List.getElem?_eq_some_iff.mp filed
  have inside' : index < (s'.declared.named name).length := Nat.lt_of_lt_of_le inside (later.declared name)
  have filed' : ((s'.declared.named name)[index], index) ∈ (s'.declared.named name).zipIdx :=
    List.mem_zipIdx_iff_getElem?.mpr (List.getElem?_eq_getElem inside')
  exact List.mem_map.mpr ⟨_, List.mem_map_of_mem filed', rfl⟩

theorem GrowsInto.persists_parametersNamed (named : name.isEmpty = false) (live : a.contains x = true) :
    Persists Declared.KeptIn (a.parametersNamed name x) (m.parametersNamed name x) := by
  refine (grows.persists_scope live).map fun s s' later => ?_
  intro place listed
  obtain ⟨d, member, rfl⟩ := List.mem_map.mp listed
  obtain ⟨⟨p, index⟩, given, passed⟩ := List.mem_filterMap.mp member
  obtain ⟨same, here⟩ := Option.ite_none_right_eq_some.mp passed
  cases here
  rw [List.mem_zipIdx_iff_getElem?] at given
  cases kind : s.kind with
  | method definition =>
    have given : definition.parameters[index]? = some p := by simpa [Scope.method?, kind] using given
    obtain ⟨definition', kind', grown⟩ := later.method definition kind
    obtain ⟨p', given', same'⟩ := grown.parameters index p given (eq_of_beq same ▸ named)
    have listed' : (p', index) ∈ ((s'.method?.map (·.parameters)).getD []).zipIdx := by
      rw [List.mem_zipIdx_iff_getElem?]
      simpa [Scope.method?, kind'] using given'
    have kept : (p'.name == name) = true := by rw [same', same]
    exact List.mem_map.mpr ⟨.parameter x index p', List.mem_filterMap.mpr ⟨_, listed', if_pos kept⟩, rfl⟩
  | space | type | block => simp [Scope.method?, kind] at given

include tree tree'

theorem GrowsInto.persists_inheritedNamed (name : String) (live : a.contains x = true) :
    Persists Declared.KeptIn (a.inheritedNamed name x) (m.inheritedNamed name x) := by
  refine (grows.persists_scope live).bind fun s s' later => ?_
  rw [later.category]
  split
  · refine (persists_above (grows.persists_parents tree tree') (tree.findsParents_within _) live).bind ?_
    intro found found' inherited
    have fields := Persists.flatten inherited.2 fun y listed => grows.persists_variablesNamed name (inherited.1 y listed)
    exact fields.map fun _ _ => id
  · exact Persists.ok (List.Subset.refl _)

theorem GrowsInto.persists_nameCandidates (u : NameUse) :
    Persists Declared.KeptIn (u.candidates a none) (u.candidates m none) := by
  refine grows.persists_guarded (fun _ => List.nil_subset _) fun named live => ?_
  have around := tree.live_ancestorsAndSelf u.scope
  have same := grows.around_subset live
  have own := Persists.flatten same fun x listed => grows.persists_variablesNamed u.name (around x listed)
  have given := Persists.flatten same fun x listed => grows.persists_parametersNamed named (around x listed)
  have inherited := Persists.flatten same fun x listed => grows.persists_inheritedNamed tree tree' u.name (around x listed)
  refine own.bind fun _ _ own => given.bind fun _ _ given => inherited.map fun _ _ inherited => ?_
  apply Declared.KeptIn.addNew
  intro place listed
  simp only [List.map_append, List.mem_append] at listed ⊢
  exact listed.imp (Or.imp (@own place) (@given place)) (@inherited place)

omit tree tree' grows

-- Whatever a search finds in the one graph is found in the other, unless the search there does not end.
structure KeepsAnswers (a m : Graph) : Prop where
  parents : ∀ t, Persists (· ⊆ ·) (a.parents t) (m.parents t)
  lineage : ∀ t, Persists (· ⊆ ·) (a.lineage t) (m.lineage t)
  typeUse : ∀ u : TypeUse, Persists (· ⊆ ·) (u.candidates a) (u.candidates m)
  qualifierUse : ∀ u : QualifierUse, Persists (· ⊆ ·) (u.candidates a) (u.candidates m)
  variableUse : ∀ u : VariableUse, u.receivers = [] →
    Persists (fun found found' => ∀ d ∈ found, ∃ d' ∈ found', d.Matches d') (u.candidates a) (u.candidates m)
  call : ∀ c : Call, c.receivers = [] → Persists (· ⊆ ·) (c.candidates a) (c.candidates m)

variable {strict : Prop} {f h : Forest} {b : Graph}

theorem AtRest.persists_variableCandidates (first : a.AtRest strict f) (later : m.AtRest strict h) (grows : a.GrowsInto m)
    {u : VariableUse} (plain : u.receivers = []) :
    Persists (fun found found' => ∀ d ∈ found, ∃ d' ∈ found', d.Matches d') (u.candidates a) (u.candidates m) := by
  have searched : ∀ g : Graph, u.candidates g = u.toNameUse.candidates g none := by
    intro g
    rw [VariableUse.candidates, plain]
    rfl
  intro found' answer'
  have places := grows.persists_nameCandidates first.isOneTree later.isOneTree u.toNameUse
  rw [← searched, ← searched] at places
  obtain ⟨found, answer, less⟩ := places found' answer'
  have keeps := first.yields_variableCandidates u
  have keeps' := later.yields_variableCandidates u
  rw [answer] at keeps
  rw [answer'] at keeps'
  refine ⟨found, answer, ?_⟩
  intro d member
  obtain ⟨d', member', same⟩ := List.mem_map.mp (less (List.mem_map_of_mem member))
  have here := keeps.2 d member
  have there := keeps'.2 d' member'
  refine ⟨d', member', ?_, there.named.trans here.named.symm, same⟩
  rw [there.owner, here.owner, same]

-- Adding a graph to a reached one loses nothing that was found before.
theorem merge_keeps_answers {admits admits' : Element → Prop} (left : a.Reached admits) (right : b.Reached admits') :
    ∃ m, a.merge b = .ok m ∧ a.KeepsAnswers m := by
  obtain ⟨f, first⟩ := left.exists_atRest
  obtain ⟨h, second⟩ := right.exists_atRest
  obtain ⟨m, merged, rest⟩ := first.merge second
  have grows := first.growsInto second rest
  have tree := first.isOneTree
  have tree' := rest.isOneTree
  have parents := grows.persists_parents tree tree'
  refine ⟨m, merged, parents, ?_, ?_, ?_, ?_, ?_⟩
  · exact persists_lineageWith parents (tree.findsParents_within _)
  · exact grows.persists_typeCandidates tree tree'
  · exact grows.persists_qualifierCandidates tree tree' fun y => rest.root_mem_ancestorsAndSelf
  · exact fun u plain => first.persists_variableCandidates rest grows plain
  · exact fun c plain => grows.persists_callCandidates tree tree' plain

def baseUnit (file : String) : Element :=
  let base := Content.name "Base" (.written "block" .nil .nil)
  { tag := "unit", attributes := [("filename", file)], content := .written "struct" base .nil : Element }.positioned

-- The base of a shape is found once its file is there, and what was found inside of the shape stays found.
theorem shape_keeps_answers :
    ∃ a b m, surveyUnit .cPlusPlus (shapeUnit "a.cpp" "x") = .ok a ∧ surveyUnit .cPlusPlus (baseUnit "b.cpp") = .ok b ∧
      a.merge b = .ok m ∧ a.KeepsAnswers m ∧ a.lineage 1 = .ok [1] ∧ m.lineage 1 = .ok [1, 4] ∧
      ({ name := "draw", scope := 2, location := default } : Call).candidates a = .ok [2] ∧
      ({ name := "draw", scope := 2, location := default } : Call).candidates m = .ok [2] := by
  obtain ⟨a, b, surveyed, surveyed', tested⟩ := @surveyed_pair .cPlusPlus (shapeUnit "a.cpp" "x") (baseUnit "b.cpp")
    (fun a b => (a.lineage 1).toOption == some [1] &&
      (({ name := "draw", scope := 2, location := default } : Call).candidates a).toOption == some [2] &&
      (a.merge b).toOption.any fun m => (m.lineage 1).toOption == some [1, 4] &&
        (({ name := "draw", scope := 2, location := default } : Call).candidates m).toOption == some [2])
    (by decide +kernel)
  simp only [Bool.and_eq_true, beq_iff_eq, Option.any_eq_true] at tested
  obtain ⟨⟨alone, method⟩, m, merged, derived, method'⟩ := tested
  have first : a.Reached fun _ => True := .surveyed trivial surveyed
  have second : b.Reached fun _ => True := .surveyed trivial surveyed'
  obtain ⟨m', merged', keeps⟩ := merge_keeps_answers first second
  obtain rfl : m' = m := by
    rw [merged'] at merged
    exact Option.some.inj merged
  exact ⟨a, b, m', surveyed, surveyed', merged', keeps, ok_of_toOption alone, ok_of_toOption derived, ok_of_toOption method,
    ok_of_toOption method'⟩

end Graph

end ScopeAtlas
