import ScopeAtlas.Proofs.Forest
import ScopeAtlas.Proofs.Rebinding
import ScopeAtlas.Proofs.Tables

namespace ScopeAtlas

variable {holds other : ScopeId → Prop} {f : ScopeId → ScopeId}

def QualifierUse.StandsIn (holds : ScopeId → Prop) (q : QualifierUse) : Prop := ∃ x, q.scope = some x ∧ holds x

-- The names in an import are not looked up from any scope.
def Import.IsUnbound (i : Import) : Prop := (∀ q ∈ i.path, q.scope = none) ∧ ∀ q, i.symbol = some q → q.scope = none

inductive TypeUse.StandsIn (holds : ScopeId → Prop) : TypeUse → Prop
  | intro {u : TypeUse} (scope : holds u.scope) (qualifiers : ∀ q ∈ u.qualifiers, q.StandsIn holds)
      (arguments : ∀ a ∈ u.arguments, a.StandsIn holds) (imports : ∀ i ∈ u.imports, i.IsUnbound) : u.StandsIn holds

def Variable.StandsIn (holds : ScopeId → Prop) (v : Variable) : Prop :=
  holds v.scope ∧ ∀ u, v.declaredType = some u → u.StandsIn holds

def Argument.StandsIn (holds : ScopeId → Prop) : Argument → Prop
  | .variable u => holds u.scope ∧ ∀ r ∈ u.receivers, holds r.scope
  | .literal u => holds u.scope

structure Call.StandsIn (holds : ScopeId → Prop) (c : Call) : Prop where
  scope : holds c.scope
  receivers : ∀ r ∈ c.receivers, holds r.scope
  arguments : ∀ a ∈ c.arguments, a.StandsIn holds
  imports : ∀ i ∈ c.imports, i.IsUnbound

def Parameter.StandsIn (holds : ScopeId → Prop) (p : Parameter) : Prop :=
  holds p.method ∧ p.declaredType.StandsIn holds

structure MethodDefinition.StandsIn (holds : ScopeId → Prop) (m : MethodDefinition) : Prop where
  returnType : ∀ u, m.returnType = some u → u.StandsIn holds
  parameters : ∀ p ∈ m.parameters, p.StandsIn holds
  qualifiers : ∀ q ∈ m.qualifiers, q.StandsIn holds

-- The uses of a scope stand in scopes that satisfy `own`, those of the parents of a type in such that satisfy `outer`.
structure Scope.StandsIn (own outer : ScopeId → Prop) (s : Scope) : Prop where
  declared : ∀ v ∈ s.declared.toList, v.StandsIn own
  calls : ∀ c ∈ s.calls, c.StandsIn own
  method : ∀ m, s.kind = .method m → m.StandsIn own
  parents : ∀ t, s.kind = .type t → ∀ p ∈ t.parents, p.use.StandsIn outer

section Renaming

theorem QualifierUse.StandsIn.rebind {q : QualifierUse} (stands : q.StandsIn holds)
    (moved : ∀ x, holds x → other (f x)) : (q.rebind f).StandsIn other := by
  obtain ⟨x, named, held⟩ := stands
  exact ⟨f x, by simp [QualifierUse.rebind, named], moved x held⟩

theorem TypeUse.StandsIn.rebind {u : TypeUse} (stands : u.StandsIn holds) (moved : ∀ x, holds x → other (f x)) :
    (u.rebind f).StandsIn other := by
  induction stands with
  | intro scope qualifiers arguments imports ih =>
    refine ⟨?_, ?_, ?_, ?_⟩
    · rw [TypeUse.rebind_scope]
      exact moved _ scope
    · intro q member
      rw [TypeUse.rebind_qualifiers] at member
      obtain ⟨q', listed, rfl⟩ := List.mem_map.mp member
      exact (qualifiers q' listed).rebind moved
    · intro a member
      rw [TypeUse.rebind_arguments] at member
      obtain ⟨a', listed, rfl⟩ := List.mem_map.mp member
      exact ih a' listed
    · rw [TypeUse.rebind_imports]
      exact imports

theorem Variable.StandsIn.rebind {v : Variable} (stands : v.StandsIn holds) (moved : ∀ x, holds x → other (f x)) :
    (v.rebind f).StandsIn other := by
  refine ⟨moved _ stands.1, ?_⟩
  intro u typed
  obtain ⟨u', typed', rfl⟩ := Option.map_eq_some_iff.mp typed
  exact (stands.2 u' typed').rebind moved

theorem Argument.StandsIn.rebind {a : Argument} (stands : a.StandsIn holds) (moved : ∀ x, holds x → other (f x)) :
    (a.rebind f).StandsIn other := by
  rcases a with u | u
  · refine ⟨moved _ stands.1, ?_⟩
    intro r member
    obtain ⟨r', listed, rfl⟩ := List.mem_map.mp member
    exact moved _ (stands.2 r' listed)
  · exact moved _ stands

theorem Call.StandsIn.rebind {c : Call} (stands : c.StandsIn holds) (moved : ∀ x, holds x → other (f x)) :
    (c.rebind f).StandsIn other := by
  refine ⟨moved _ stands.scope, ?_, ?_, stands.imports⟩
  · intro r member
    obtain ⟨r', listed, rfl⟩ := List.mem_map.mp member
    exact moved _ (stands.receivers r' listed)
  · intro a member
    obtain ⟨a', listed, rfl⟩ := List.mem_map.mp member
    exact (stands.arguments a' listed).rebind moved

theorem MethodDefinition.StandsIn.rebind {m : MethodDefinition} (stands : m.StandsIn holds)
    (moved : ∀ x, holds x → other (f x)) : (m.rebind f).StandsIn other := by
  refine ⟨?_, ?_, ?_⟩
  · intro u typed
    obtain ⟨u', typed', rfl⟩ := Option.map_eq_some_iff.mp typed
    exact (stands.returnType u' typed').rebind moved
  · intro p member
    obtain ⟨p', listed, rfl⟩ := List.mem_map.mp member
    exact ⟨moved _ (stands.parameters p' listed).1, (stands.parameters p' listed).2.rebind moved⟩
  · intro q member
    obtain ⟨q', listed, rfl⟩ := List.mem_map.mp member
    exact (stands.qualifiers q' listed).rebind moved

theorem Scope.StandsIn.rebind {s : Scope} {own outer own' outer' : ScopeId → Prop} (stands : s.StandsIn own outer)
    (moved : ∀ x, own x → own' (f x)) (movedOuter : ∀ x, outer x → outer' (f x)) :
    (s.rebind f).StandsIn own' outer' := by
  refine ⟨?_, ?_, ?_, ?_⟩
  · intro v member
    change v ∈ VariableTable.toList (s.declared.rebind f) at member
    rw [VariableTable.rebind_toList] at member
    obtain ⟨v', listed, rfl⟩ := List.mem_map.mp member
    exact (stands.declared v' listed).rebind moved
  · intro c member
    obtain ⟨c', listed, rfl⟩ := List.mem_map.mp member
    exact (stands.calls c' listed).rebind moved
  · intro m kind
    obtain ⟨m', kind', rfl⟩ := ScopeKind.rebind_eq_method kind
    exact (stands.method m' kind').rebind moved
  · intro t kind p member
    obtain ⟨t', kind', rfl⟩ := ScopeKind.rebind_eq_type kind
    rw [TypeDefinition.parents_rebind] at member
    obtain ⟨p', listed, rfl⟩ := List.mem_map.mp member
    exact (stands.parents t' kind' p' listed).rebind movedOuter

theorem Scope.StandsIn.mono {s : Scope} {own outer own' outer' : ScopeId → Prop} (stands : s.StandsIn own outer)
    (wider : ∀ x, own x → own' x) (widerOuter : ∀ x, outer x → outer' x) : s.StandsIn own' outer' := by
  simpa [Scope.rebind_id] using stands.rebind (f := id) wider widerOuter

theorem QualifierUse.StandsIn.fixed {q : QualifierUse} (stands : q.StandsIn holds) (still : ∀ x, holds x → f x = x) :
    q.rebind f = q := by
  obtain ⟨x, named, held⟩ := stands
  cases q
  simp_all [QualifierUse.rebind]

theorem TypeUse.StandsIn.fixed {u : TypeUse} (stands : u.StandsIn holds) (still : ∀ x, holds x → f x = x) :
    u.rebind f = u := by
  induction stands with
  | @intro u scope qualifiers arguments imports ih =>
    cases u
    simp only [TypeUse.rebind, TypeUse.rebindAll_eq_map, still _ scope, map_fixed ih,
      map_fixed fun q member => (qualifiers q member).fixed still]

theorem Variable.StandsIn.fixed {v : Variable} (stands : v.StandsIn holds) (still : ∀ x, holds x → f x = x) :
    v.rebind f = v := by
  have typed : v.declaredType.map (·.rebind f) = v.declaredType := by
    cases same : v.declaredType with
    | none => rfl
    | some u => rw [Option.map_some, (stands.2 u same).fixed still]
  simp only [Variable.rebind, still _ stands.1, typed]

theorem NameUse.fixed {u : NameUse} (still : f u.scope = u.scope) : u.rebind f = u := by
  simp only [NameUse.rebind, still]

theorem Argument.StandsIn.fixed {a : Argument} (stands : a.StandsIn holds) (still : ∀ x, holds x → f x = x) :
    a.rebind f = a := by
  rcases a with u | u
  · have receivers := map_fixed fun r member => NameUse.fixed (still _ (stands.2 r member))
    simp only [Argument.rebind, VariableUse.rebind, NameUse.fixed (still _ stands.1), receivers]
  · simp only [Argument.rebind, still _ stands]

theorem Call.StandsIn.fixed {c : Call} (stands : c.StandsIn holds) (still : ∀ x, holds x → f x = x) :
    c.rebind f = c := by
  have receivers := map_fixed fun r member => NameUse.fixed (still _ (stands.receivers r member))
  have arguments := map_fixed fun a member => (stands.arguments a member).fixed still
  simp only [Call.rebind, still _ stands.scope, receivers, arguments]

theorem MethodDefinition.StandsIn.fixed {m : MethodDefinition} (stands : m.StandsIn holds)
    (still : ∀ x, holds x → f x = x) : m.rebind f = m := by
  have typed : m.returnType.map (·.rebind f) = m.returnType := by
    cases same : m.returnType with
    | none => rfl
    | some u => rw [Option.map_some, (stands.returnType u same).fixed still]
  have parameters : m.parameters.map (·.rebind f) = m.parameters := by
    refine map_fixed ?_
    intro p member
    obtain ⟨method, typed⟩ := stands.parameters p member
    simp only [Parameter.rebind, still _ method, typed.fixed still]
  have qualifiers := map_fixed fun q member => (stands.qualifiers q member).fixed still
  simp only [MethodDefinition.rebind, typed, parameters, qualifiers]

theorem ScopeKind.fixed {kind : ScopeKind} {own outer : ScopeId → Prop} (method : ∀ m, kind = .method m → m.StandsIn own)
    (parents : ∀ t, kind = .type t → ∀ p ∈ t.parents, p.use.StandsIn outer) (still : ∀ x, own x → f x = x)
    (stillOuter : ∀ x, outer x → f x = x) : kind.rebind f = kind := by
  rcases kind with _ | isGlobal | t | m
  · rfl
  · rfl
  · have uses : t.parentColumns.uses.map (·.rebind f) = t.parentColumns.uses := by
      rw [TypeDefinition.uses_eq, List.map_map]
      refine List.map_congr_left ?_
      intro p member
      exact (parents t rfl p member).fixed stillOuter
    simp only [ScopeKind.rebind, TypeDefinition.rebind, ParentColumns.rebind, uses]
  · simp only [ScopeKind.rebind, (method m rfl).fixed still]

theorem Scope.StandsIn.fixed {s : Scope} {own outer : ScopeId → Prop} (stands : s.StandsIn own outer)
    (still : ∀ x, own x → f x = x) (stillOuter : ∀ x, outer x → f x = x) (parent : Option ScopeId)
    (children : List ScopeId) : (s.rebind f).linked parent children = s.linked parent children := by
  have table : s.declared.rebind f = s.declared := by
    refine map_fixed ?_
    rintro ⟨name, group⟩ member
    have each := map_fixed fun v listed =>
      (stands.declared v (List.mem_flatMap.mpr ⟨_, member, listed⟩)).fixed still
    simp only [each]
  have calls := map_fixed fun c member => (stands.calls c member).fixed still
  have kind := ScopeKind.fixed stands.method stands.parents still stillOuter
  simp only [Scope.rebind, Scope.linked, table, calls, kind]

end Renaming

section Content

-- Nothing is written anew when scopes are united or a file is withdrawn, so uses stay where they stood.

variable {own outer : ScopeId → Prop} {mine theirs s : Scope}

theorem TypeUse.StandsIn.relocate {u : TypeUse} (stands : u.StandsIn holds) (l : Option Location) :
    ({ u with location := l } : TypeUse).StandsIn holds := by
  obtain ⟨scope, qualifiers, arguments, imports⟩ := stands
  exact ⟨scope, qualifiers, arguments, imports⟩

theorem VariableTable.unite_standsIn {table : VariableTable} {v : Variable}
    (left : ∀ w ∈ table.toList, w.StandsIn holds) (right : v.StandsIn holds) :
    ∀ w ∈ (table.unite v).toList, w.StandsIn holds := by
  refine forall_unite left right ?_
  intro w stands _
  refine ⟨stands.1, ?_⟩
  intro u typed
  rcases (Option.orElse_eq_some _ _ _).mp typed with here | ⟨-, there⟩
  · exact stands.2 u here
  · exact right.2 u there

theorem ParentTable.unite_standsIn {table other : ParentTable} (left : ∀ p ∈ table, p.use.StandsIn holds)
    (right : ∀ p ∈ other, p.use.StandsIn holds) : ∀ p ∈ table.unite other, p.use.StandsIn holds := by
  refine List.foldlRecOn _ _ (motive := fun table : ParentTable => ∀ p ∈ table, p.use.StandsIn holds) left ?_
  intro table stands use member
  obtain ⟨p, listed, written⟩ := List.mem_flatMap.mp member
  refine forall_add stands ?_ ?_
  · rcases mem_usesOf written with ⟨-, rfl⟩ | ⟨l, -, rfl⟩
    · exact right p listed
    · exact (right p listed).relocate _
  · intro p member _
    exact stands p member

theorem MethodDefinition.StandsIn.unite {mine theirs : MethodDefinition} (left : mine.StandsIn holds)
    (right : theirs.StandsIn holds) (theirsFirst : Bool) : (mine.unite theirsFirst theirs).StandsIn holds := by
  refine ⟨?_, Parameter.forall_uniteAll left.parameters ?_, ?_⟩
  · intro u typed
    rcases preferred_cases typed with here | there
    · exact left.returnType u here
    · exact right.returnType u there
  · intro p member q _
    rw [Parameter.StandsIn, Parameter.unite_method, Parameter.unite_declaredType]
    exact left.parameters p member
  · intro q member
    unfold MethodDefinition.unite at member
    dsimp only at member
    split at member
    · exact right.qualifiers q member
    · exact left.qualifiers q member

theorem Scope.StandsIn.unite (left : mine.StandsIn own outer) (right : theirs.StandsIn own outer) :
    (mine.unite theirs).StandsIn own outer := by
  refine ⟨?_, ?_, ?_, ?_⟩
  · refine List.foldlRecOn theirs.declared.toList (fun table v => table.unite v)
      (motive := fun table : VariableTable => ∀ v ∈ table.toList, v.StandsIn own) left.declared ?_
    intro table stands v member
    exact VariableTable.unite_standsIn stands (right.declared v member)
  · intro c member
    rcases mem_addUnknown member with here | there
    · exact left.calls c here
    · exact right.calls c there
  · intro m kind
    obtain ⟨d, here, rfl | ⟨d', there, rfl⟩⟩ := ScopeKind.unite_eq_method kind
    · exact left.method m here
    · exact (left.method d here).unite (right.method d' there) _
  · intro t kind
    obtain ⟨d, here, rfl | ⟨d', there, rfl⟩⟩ := ScopeKind.unite_eq_type kind
    · exact left.parents t here
    · rw [TypeDefinition.parents_unite]
      exact ParentTable.unite_standsIn (left.parents d here) (right.parents d' there)

theorem ParentTable.mem_withdraw {file : String} {table : ParentTable} {p : ParentType}
    (member : p ∈ table.withdraw file) :
    ∃ p' ∈ table, p.use = p'.use ∨ ∃ l, p.use = { p'.use with location := l } := by
  obtain ⟨p', listed, kept⟩ := List.mem_filterMap.mp member
  refine ⟨p', listed, ?_⟩
  unfold withdrawOne at kept
  split at kept
  · cases kept
    exact Or.inl rfl
  · split at kept
    · cases kept
    · cases kept
      dsimp only
      split
      · exact Or.inr ⟨_, rfl⟩
      · exact Or.inl rfl

theorem Scope.StandsIn.withdraw (stands : s.StandsIn own outer) (file : String) :
    (s.withdraw file).StandsIn own outer := by
  refine ⟨?_, ?_, ?_, ?_⟩
  · intro v member
    obtain ⟨entry, listed, inside⟩ := VariableTable.mem_toList.mp member
    obtain ⟨entry', listed', rfl⟩ := List.mem_map.mp (List.mem_filter.mp listed).1
    obtain ⟨v', inside', rfl⟩ := List.mem_map.mp (List.mem_filter.mp inside).1
    exact stands.declared v' (VariableTable.mem_toList.mpr ⟨entry', listed', inside'⟩)
  · intro c member
    exact stands.calls c (List.mem_filter.mp member).1
  · intro m kind
    obtain ⟨d, kind', rfl⟩ := Scope.withdrawKind_eq_method kind
    obtain ⟨returned, parameters, qualifiers⟩ := stands.method d kind'
    refine ⟨returned, ?_, qualifiers⟩
    intro p member
    obtain ⟨p', listed, rfl⟩ := List.mem_map.mp member
    exact parameters p' listed
  · intro t kind p member
    obtain ⟨d, kind', rfl⟩ := Scope.withdrawKind_eq_type kind
    rw [TypeDefinition.parents_withdraw] at member
    obtain ⟨p', listed, equal | ⟨l, equal⟩⟩ := ParentTable.mem_withdraw member
    · exact equal ▸ stands.parents d kind' p' listed
    · rw [equal]
      exact (stands.parents d kind' p' listed).relocate l

end Content

end ScopeAtlas
