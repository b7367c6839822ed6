import ScopeAtlas.Proofs.Arena
import ScopeAtlas.Proofs.ParentTables

namespace ScopeAtlas

theorem map_fixed {α : Type} {f : α → α} {l : List α} (fixed : ∀ x ∈ l, f x = x) : l.map f = l := by
  simpa using List.map_congr_left (g := id) fixed

variable (f h : ScopeId → ScopeId)

theorem QualifierUse.rebind_rebind (u : QualifierUse) : (u.rebind f).rebind h = u.rebind (h ∘ f) := by
  simp [QualifierUse.rebind]

theorem QualifierUse.rebind_id (u : QualifierUse) : u.rebind id = u := by
  simp [QualifierUse.rebind]

namespace TypeUse

theorem rebindAll_eq_map (uses : List TypeUse) : rebindAll f uses = uses.map (·.rebind f) := by
  induction uses with
  | nil => rfl
  | cons u rest ih => simp [rebindAll, ih]

@[simp] theorem rebind_name (u : TypeUse) : (u.rebind f).name = u.name := by
  cases u; rfl

@[simp] theorem rebind_location (u : TypeUse) : (u.rebind f).location = u.location := by
  cases u; rfl

@[simp] theorem rebind_imports (u : TypeUse) : (u.rebind f).imports = u.imports := by
  cases u; rfl

@[simp] theorem rebind_scope (u : TypeUse) : (u.rebind f).scope = f u.scope := by
  cases u; rfl

@[simp] theorem rebind_qualifiers (u : TypeUse) : (u.rebind f).qualifiers = u.qualifiers.map (·.rebind f) := by
  cases u; rfl

@[simp] theorem rebind_arguments (u : TypeUse) : (u.rebind f).arguments = u.arguments.map (·.rebind f) := by
  cases u
  exact rebindAll_eq_map f _

@[simp] theorem rebind_qualifierNames (u : TypeUse) : (u.rebind f).qualifierNames = u.qualifierNames := by
  simp [qualifierNames, QualifierUse.rebind]

theorem rebind_sameQualifiedName (u v : TypeUse) :
    (u.rebind f).sameQualifiedName (v.rebind f) = u.sameQualifiedName v := by
  simp [sameQualifiedName]

theorem rebind_withLocation (u : TypeUse) (l : Option Location) :
    ({ u with location := l } : TypeUse).rebind f = { u.rebind f with location := l } := by
  cases u; rfl

mutual

theorem rebind_rebind : ∀ u : TypeUse, (u.rebind f).rebind h = u.rebind (h ∘ f)
  | ⟨name, qualifiers, arguments, imports, scope, location, language⟩ => by
    have inner := rebindAll_rebindAll arguments
    simp [rebind, inner, QualifierUse.rebind_rebind]

theorem rebindAll_rebindAll : ∀ uses : List TypeUse, rebindAll h (rebindAll f uses) = rebindAll (h ∘ f) uses
  | [] => rfl
  | u :: rest => by
    simp [rebindAll, rebind_rebind u, rebindAll_rebindAll rest]

end

mutual

theorem rebind_id : ∀ u : TypeUse, u.rebind id = u
  | ⟨name, qualifiers, arguments, imports, scope, location, language⟩ => by
    have same : qualifiers.map (·.rebind id) = qualifiers := by
      simp [QualifierUse.rebind_id]
    simp [rebind, rebindAll_id arguments, same]

theorem rebindAll_id : ∀ uses : List TypeUse, rebindAll id uses = uses
  | [] => rfl
  | u :: rest => by
    simp [rebindAll, rebind_id u, rebindAll_id rest]

end

mutual

theorem rebind_render : ∀ u : TypeUse, (u.rebind f).render = u.render
  | ⟨name, qualifiers, arguments, imports, scope, location, language⟩ => by
    simp only [rebind, render, rebindAll_render arguments, List.map_map]
    rfl

theorem rebindAll_render : ∀ uses : List TypeUse, renderAll (rebindAll f uses) = renderAll uses
  | [] => rfl
  | u :: rest => by
    simp [rebindAll, renderAll, rebind_render u, rebindAll_render rest]

end

end TypeUse

theorem NameUse.rebind_rebind (u : NameUse) : (u.rebind f).rebind h = u.rebind (h ∘ f) := rfl

theorem VariableUse.rebind_rebind (u : VariableUse) : (u.rebind f).rebind h = u.rebind (h ∘ f) := by
  simp [VariableUse.rebind, NameUse.rebind_rebind]

theorem Argument.rebind_rebind (a : Argument) : (a.rebind f).rebind h = a.rebind (h ∘ f) := by
  cases a <;> simp [Argument.rebind, VariableUse.rebind_rebind]

theorem Argument.rebind_id (a : Argument) : a.rebind id = a := by
  rcases a with u | u
  · have same : u.receivers.map (·.rebind id) = u.receivers := List.map_id _
    simp only [Argument.rebind, VariableUse.rebind, same]
    rfl
  · rfl

theorem Call.rebind_rebind (call : Call) : (call.rebind f).rebind h = call.rebind (h ∘ f) := by
  simp [Call.rebind, Argument.rebind_rebind, NameUse.rebind_rebind]

theorem Call.rebind_id (call : Call) : call.rebind id = call := by
  have receivers : call.receivers.map (·.rebind id) = call.receivers := List.map_id _
  have arguments : call.arguments.map (·.rebind id) = call.arguments := by simp [Argument.rebind_id]
  simp [Call.rebind, receivers, arguments]

theorem Variable.rebind_rebind (v : Variable) : (v.rebind f).rebind h = v.rebind (h ∘ f) := by
  simp [Variable.rebind, TypeUse.rebind_rebind, Function.comp_def]

theorem Variable.rebind_id (v : Variable) : v.rebind id = v := by
  simp [Variable.rebind, TypeUse.rebind_id]

theorem Parameter.rebind_rebind (p : Parameter) : (p.rebind f).rebind h = p.rebind (h ∘ f) := by
  simp [Parameter.rebind, TypeUse.rebind_rebind]

theorem Parameter.rebind_id (p : Parameter) : p.rebind id = p := by
  simp [Parameter.rebind, TypeUse.rebind_id]

namespace VariableTable

theorem rebind_rebind (table : VariableTable) : (table.rebind f).rebind h = table.rebind (h ∘ f) := by
  simp [VariableTable.rebind, Variable.rebind_rebind, Function.comp_def]

theorem rebind_id (table : VariableTable) : table.rebind id = table := by
  simp [VariableTable.rebind, Variable.rebind_id]

theorem rebind_toList (table : VariableTable) : (table.rebind f).toList = table.toList.map (·.rebind f) := by
  simp [VariableTable.rebind, toList, List.flatMap_map, List.map_flatMap]

theorem rebind_alter (name : String) (change change' : List Variable → List Variable)
    (commutes : ∀ group, (change group).map (·.rebind f) = change' (group.map (·.rebind f))) (table : VariableTable) :
    (table.alter name change).rebind f = (table.rebind f).alter name change' := by
  induction table with
  | nil =>
    have start := commutes []
    simpa [VariableTable.rebind, alter] using start
  | cons row rest ih =>
    unfold VariableTable.rebind at ih ⊢
    by_cases same : row.1 = name
    · simp [alter, same, commutes]
    · simp only [List.map_cons, alter, same, if_false, ih]

theorem rebind_uniteInto (v : Variable) (group : List Variable) :
    (uniteInto v group).map (·.rebind f) = uniteInto (v.rebind f) (group.map (·.rebind f)) := by
  induction group with
  | nil => rfl
  | cons known rest ih =>
    have shares : (known.rebind f).sharesLocation (v.rebind f) = known.sharesLocation v := rfl
    simp only [uniteInto, List.map_cons, shares]
    split
    · cases declared : known.declaredType <;> simp [Variable.rebind, declared]
    · simp [ih]

theorem rebind_unite (table : VariableTable) (v : Variable) :
    (table.unite v).rebind f = (table.rebind f).unite (v.rebind f) :=
  rebind_alter f v.name (uniteInto v) (uniteInto (v.rebind f)) (rebind_uniteInto f v) table

theorem rebind_uniteAll (found : List Variable) (table : VariableTable) :
    (found.foldl (fun table v => table.unite v) table).rebind f =
      (found.map (·.rebind f)).foldl (fun table v => table.unite v) (table.rebind f) := by
  induction found generalizing table with
  | nil => rfl
  | cons v rest ih => simp [ih, rebind_unite]

end VariableTable

namespace ParentTable

theorem rebind_add (use : TypeUse) (table : ParentTable) :
    (add use table).rebind f = add (use.rebind f) (table.rebind f) := by
  induction table with
  | nil => simp [ParentTable.rebind, add]
  | cons p rest ih =>
    unfold ParentTable.rebind at ih ⊢
    by_cases same : p.use.sameQualifiedName use = true
    · simp [add, same, TypeUse.rebind_sameQualifiedName]
    · simp [add, same, TypeUse.rebind_sameQualifiedName, ih]

theorem rebind_usesOf (p : ParentType) :
    (usesOf p).map (·.rebind f) = usesOf { p with use := p.use.rebind f } := by
  have places : ({ p with use := p.use.rebind f } : ParentType).locations = p.locations := by
    simp [ParentType.locations]
  unfold usesOf
  rw [places]
  cases p.locations with
  | nil => rfl
  | cons l rest => simp [TypeUse.rebind_withLocation]

theorem flatMap_usesOf_rebind (table : ParentTable) :
    (table.rebind f).flatMap usesOf = (table.flatMap usesOf).map (·.rebind f) := by
  simp only [ParentTable.rebind, List.flatMap_map, List.map_flatMap, rebind_usesOf]

end ParentTable

namespace ParentColumns

theorem rebind_rebind (c : ParentColumns) : (c.rebind f).rebind h = c.rebind (h ∘ f) := by
  simp [ParentColumns.rebind, TypeUse.rebind_rebind]

theorem rebind_id (c : ParentColumns) : c.rebind id = c := by
  simp [ParentColumns.rebind, TypeUse.rebind_id]

theorem rebind_add (use : TypeUse) (c : ParentColumns) : (c.add use).rebind f = (c.rebind f).add (use.rebind f) := by
  rw [add_eq, rebind_ofTable, ParentTable.rebind_add, ← table_rebind, ← add_eq]

theorem rebind_unite (c other : ParentColumns) : (c.unite other).rebind f = (c.rebind f).unite (other.rebind f) := by
  rw [unite_eq_foldl, unite_eq_foldl, table_rebind, ParentTable.flatMap_usesOf_rebind]
  generalize other.table.flatMap ParentTable.usesOf = found
  induction found generalizing c with
  | nil => rfl
  | cons use rest ih => simp [ih, rebind_add]

end ParentColumns

theorem MethodDefinition.rebind_rebind (m : MethodDefinition) : (m.rebind f).rebind h = m.rebind (h ∘ f) := by
  simp [MethodDefinition.rebind, TypeUse.rebind_rebind, Parameter.rebind_rebind, QualifierUse.rebind_rebind,
    Function.comp_def]

theorem MethodDefinition.rebind_id (m : MethodDefinition) : m.rebind id = m := by
  simp [MethodDefinition.rebind, TypeUse.rebind_id, Parameter.rebind_id, QualifierUse.rebind_id]

theorem ScopeKind.rebind_rebind (k : ScopeKind) : (k.rebind f).rebind h = k.rebind (h ∘ f) := by
  cases k <;> simp [ScopeKind.rebind, TypeDefinition.rebind, ParentColumns.rebind_rebind, MethodDefinition.rebind_rebind]

theorem ScopeKind.rebind_id (k : ScopeKind) : k.rebind id = k := by
  cases k <;> simp [ScopeKind.rebind, TypeDefinition.rebind, ParentColumns.rebind_id, MethodDefinition.rebind_id]

theorem Parameter.rebind_uniteAll (left right : List Parameter) :
    (uniteAll left right).map (·.rebind f) = uniteAll (left.map (·.rebind f)) (right.map (·.rebind f)) := by
  induction left generalizing right with
  | nil => rfl
  | cons mine left ih =>
    cases right with
    | nil => rfl
    | cons theirs right =>
      simp only [uniteAll, List.map_cons, ih]
      congr 1
      by_cases same : mine.declaredType.name = theirs.declaredType.name
      · simp [Parameter.rebind, Parameter.unite, same]
      · simp [Parameter.rebind, same]

theorem map_preferred {α : Type} (change : α → α) (theirsFirst : Bool) (mine theirs : Option α) :
    (preferred theirsFirst mine theirs).map change = preferred theirsFirst (mine.map change) (theirs.map change) := by
  cases theirsFirst <;> cases mine <;> cases theirs <;> rfl

theorem MethodDefinition.rebind_unite (theirsFirst : Bool) (mine theirs : MethodDefinition) :
    (mine.unite theirsFirst theirs).rebind f = (mine.rebind f).unite theirsFirst (theirs.rebind f) := by
  simp only [MethodDefinition.rebind, MethodDefinition.unite, Parameter.rebind_uniteAll, map_preferred,
    List.isEmpty_map]
  split <;> rfl

theorem ScopeKind.rebind_unite (theirsFirst : Bool) (mine theirs : ScopeKind) :
    (mine.unite theirsFirst theirs).rebind f = (mine.rebind f).unite theirsFirst (theirs.rebind f) := by
  cases mine <;> cases theirs <;>
    simp [ScopeKind.unite, ScopeKind.rebind, MethodDefinition.rebind_unite, TypeDefinition.rebind,
      TypeDefinition.unite, ParentColumns.rebind_unite]

theorem Call.rebind_addNew (known found : List Call) :
    (addNew known found).map (·.rebind f) = addNew (known.map (·.rebind f)) (found.map (·.rebind f)) := by
  unfold addNew
  induction found generalizing known with
  | nil => rfl
  | cons call rest ih =>
    have taken : (known.map (·.rebind f)).any (·.location.sameNode (call.rebind f).location) =
        known.any (·.location.sameNode call.location) := by
      rw [List.any_map]
      rfl
    simp only [List.foldl_cons, List.map_cons, ih, taken]
    split <;> simp

namespace Scope

variable (mine theirs : Scope)

theorem rebind_rebind (s : Scope) : (s.rebind f).rebind h = s.rebind (h ∘ f) := by
  simp [Scope.rebind, VariableTable.rebind_rebind, Call.rebind_rebind, ScopeKind.rebind_rebind, Option.map_map]

theorem rebind_id (s : Scope) : s.rebind id = s := by
  simp [Scope.rebind, VariableTable.rebind_id, Call.rebind_id, ScopeKind.rebind_id]

theorem rebind_unite : (mine.unite theirs).rebind f = (mine.rebind f).unite (theirs.rebind f) := by
  simp only [Scope.unite, Scope.rebind, VariableTable.rebind_uniteAll, VariableTable.rebind_toList,
    Call.rebind_addNew, ScopeKind.rebind_unite]
  rfl

theorem rebind_sameEntity : (mine.rebind f).sameEntity (theirs.rebind f) = mine.sameEntity theirs := by
  rcases mine with ⟨_, _, kind, _, _, _, _, _, _⟩
  rcases theirs with ⟨_, _, kind', _, _, _, _, _, _⟩
  cases kind <;> cases kind' <;>
    simp [Scope.sameEntity, Scope.rebind, ScopeKind.rebind, Scope.category, ScopeKind.category,
      MethodDefinition.parameterTypeNames, MethodDefinition.rebind, Parameter.rebind, Function.comp_def]

end Scope

end ScopeAtlas
