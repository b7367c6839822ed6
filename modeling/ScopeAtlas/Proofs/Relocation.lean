import Mathlib.Data.String.Basic
import Mathlib.Order.Compare
import ScopeAtlas.Proofs.Extension
import ScopeAtlas.Proofs.Lockstep

namespace ScopeAtlas

section Moving

variable (f : String → String)

def Location.move (l : Location) : Location := { l with position := f l.position }

def QualifierUse.move (u : QualifierUse) : QualifierUse := { u with location := u.location.map (·.move f) }

def Import.move (i : Import) : Import :=
  { i with path := i.path.map (·.move f), symbol := i.symbol.map (·.move f), location := i.location.map (·.move f) }

mutual

def TypeUse.move : TypeUse → TypeUse
  | ⟨name, qualifiers, arguments, imports, scope, location, language⟩ =>
    ⟨name, qualifiers.map (·.move f), TypeUse.moveAll arguments, imports.map (·.move f), scope,
      location.map (·.move f), language⟩

def TypeUse.moveAll : List TypeUse → List TypeUse
  | [] => []
  | u :: rest => u.move :: TypeUse.moveAll rest

end

def NameUse.move (u : NameUse) : NameUse := { u with location := u.location.map (·.move f) }

def VariableUse.move (u : VariableUse) : VariableUse where
  toNameUse := u.toNameUse.move f
  receivers := u.receivers.map (·.move f)

def LiteralUse.move (u : LiteralUse) : LiteralUse := { u with location := u.location.map (·.move f) }

def Argument.move : Argument → Argument
  | .variable u => .variable (u.move f)
  | .literal u => .literal (u.move f)

def Call.move (call : Call) : Call :=
  { call with
    arguments := call.arguments.map (·.move f)
    receivers := call.receivers.map (·.move f)
    imports := call.imports.map (·.move f)
    location := call.location.move f }

def Variable.move (v : Variable) : Variable :=
  { v with declaredType := v.declaredType.map (·.move f), locations := v.locations.map (·.move f) }

def Parameter.move (p : Parameter) : Parameter :=
  { p with declaredType := p.declaredType.move f, locations := p.locations.map (·.move f) }

def VariableTable.move (table : VariableTable) : VariableTable :=
  table.map fun (name, group) => (name, group.map (·.move f))

def ParentType.move (p : ParentType) : ParentType where
  use := p.use.move f
  written := p.written.map (·.move f)

def ParentColumns.move (c : ParentColumns) : ParentColumns where
  uses := c.uses.map (·.move f)
  places := c.places.map (·.map (·.move f))

def TypeDefinition.move (d : TypeDefinition) : TypeDefinition := { d with parentColumns := d.parentColumns.move f }

def MethodDefinition.move (m : MethodDefinition) : MethodDefinition :=
  { m with
    returnType := m.returnType.map (·.move f)
    parameters := m.parameters.map (·.move f)
    qualifiers := m.qualifiers.map (·.move f) }

def ScopeKind.move : ScopeKind → ScopeKind
  | .type definition => .type (definition.move f)
  | .method definition => .method (definition.move f)
  | kind => kind

def Scope.move (s : Scope) : Scope :=
  { s with
    kind := s.kind.move f
    declared := s.declared.move f
    calls := s.calls.map (·.move f)
    locations := s.locations.map (·.move f) }

end Moving

section Composition

variable (f h : String → String)

theorem Location.move_move (l : Location) : (l.move f).move h = l.move (h ∘ f) := rfl

theorem QualifierUse.move_move (u : QualifierUse) : (u.move f).move h = u.move (h ∘ f) := by
  simp [QualifierUse.move, Location.move_move, Function.comp_def]

theorem Import.move_move (i : Import) : (i.move f).move h = i.move (h ∘ f) := by
  simp [Import.move, QualifierUse.move_move, Location.move_move, Function.comp_def]

mutual

theorem TypeUse.move_move : ∀ u : TypeUse, (u.move f).move h = u.move (h ∘ f)
  | ⟨name, qualifiers, arguments, imports, scope, location, language⟩ => by
    have inner := TypeUse.moveAll_moveAll arguments
    simp only [TypeUse.move, inner, List.map_map, Option.map_map, Function.comp_def, QualifierUse.move_move,
      Import.move_move, Location.move_move]

theorem TypeUse.moveAll_moveAll : ∀ uses : List TypeUse,
    TypeUse.moveAll h (TypeUse.moveAll f uses) = TypeUse.moveAll (h ∘ f) uses
  | [] => rfl
  | u :: rest => by
    simp [TypeUse.moveAll, TypeUse.move_move u, TypeUse.moveAll_moveAll rest]

end

theorem NameUse.move_move (u : NameUse) : (u.move f).move h = u.move (h ∘ f) := by
  simp [NameUse.move, Location.move_move, Function.comp_def]

theorem Argument.move_move (a : Argument) : (a.move f).move h = a.move (h ∘ f) := by
  cases a <;> simp [Argument.move, VariableUse.move, LiteralUse.move, NameUse.move_move, Location.move_move,
    Function.comp_def]

theorem Call.move_move (call : Call) : (call.move f).move h = call.move (h ∘ f) := by
  simp [Call.move, Argument.move_move, NameUse.move_move, Import.move_move, Location.move_move, Function.comp_def]

theorem Variable.move_move (v : Variable) : (v.move f).move h = v.move (h ∘ f) := by
  simp [Variable.move, TypeUse.move_move, Location.move_move, Function.comp_def]

theorem Parameter.move_move (p : Parameter) : (p.move f).move h = p.move (h ∘ f) := by
  simp [Parameter.move, TypeUse.move_move, Location.move_move, Function.comp_def]

theorem ParentColumns.move_move (c : ParentColumns) : (c.move f).move h = c.move (h ∘ f) := by
  simp [ParentColumns.move, TypeUse.move_move, Location.move_move, Function.comp_def]

theorem ScopeKind.move_move (k : ScopeKind) : (k.move f).move h = k.move (h ∘ f) := by
  cases k <;> simp [ScopeKind.move, TypeDefinition.move, MethodDefinition.move, ParentColumns.move_move, TypeUse.move_move,
    Parameter.move_move, QualifierUse.move_move, Function.comp_def]

theorem Scope.move_move (s : Scope) : (s.move f).move h = s.move (h ∘ f) := by
  simp [Scope.move, VariableTable.move, ScopeKind.move_move, Variable.move_move, Call.move_move, Location.move_move,
    Function.comp_def]

end Composition

namespace TypeUse

variable (f : String → String) (u v : TypeUse)

def Moved : Prop := v = u.move f

theorem moveAll_eq_map (uses : List TypeUse) : moveAll f uses = uses.map (·.move f) := by
  induction uses with
  | nil => rfl
  | cons u rest ih => simp [moveAll, ih]

@[simp] theorem move_name : (u.move f).name = u.name := by
  cases u; rfl

@[simp] theorem move_location : (u.move f).location = u.location.map (·.move f) := by
  cases u; rfl

@[simp] theorem move_qualifierNames : (u.move f).qualifierNames = u.qualifierNames := by
  cases u
  simp [qualifierNames, move, QualifierUse.move]

theorem move_sameQualifiedName : (u.move f).sameQualifiedName (v.move f) = u.sameQualifiedName v := by
  simp [sameQualifiedName]

theorem move_withLocation (l : Option Location) :
    ({ u with location := l } : TypeUse).move f = { u.move f with location := l.map (·.move f) } := by
  cases u; rfl

end TypeUse

section Renaming

variable (f : String → String) (r : ScopeId → ScopeId)

theorem QualifierUse.rebind_move (u : QualifierUse) : (u.move f).rebind r = (u.rebind r).move f := rfl

mutual

theorem TypeUse.rebind_move : ∀ u : TypeUse, (u.move f).rebind r = (u.rebind r).move f
  | ⟨name, qualifiers, arguments, imports, scope, location, language⟩ => by
    have inner := TypeUse.rebindAll_moveAll arguments
    simp [TypeUse.move, TypeUse.rebind, inner, QualifierUse.rebind_move]

theorem TypeUse.rebindAll_moveAll : ∀ uses : List TypeUse,
    TypeUse.rebindAll r (TypeUse.moveAll f uses) = TypeUse.moveAll f (TypeUse.rebindAll r uses)
  | [] => rfl
  | u :: rest => by
    simp [TypeUse.moveAll, TypeUse.rebindAll, TypeUse.rebind_move u, TypeUse.rebindAll_moveAll rest]

end

theorem NameUse.rebind_move (u : NameUse) : (u.move f).rebind r = (u.rebind r).move f := rfl

theorem Argument.rebind_move (a : Argument) : (a.move f).rebind r = (a.rebind r).move f := by
  cases a <;> simp [Argument.move, Argument.rebind, VariableUse.move, VariableUse.rebind, LiteralUse.move,
    NameUse.rebind_move]

theorem Call.rebind_move (call : Call) : (call.move f).rebind r = (call.rebind r).move f := by
  simp [Call.move, Call.rebind, Argument.rebind_move, NameUse.rebind_move]

theorem Variable.rebind_move (v : Variable) : (v.move f).rebind r = (v.rebind r).move f := by
  simp [Variable.move, Variable.rebind, TypeUse.rebind_move, Function.comp_def]

theorem Parameter.rebind_move (p : Parameter) : (p.move f).rebind r = (p.rebind r).move f := by
  simp [Parameter.move, Parameter.rebind, TypeUse.rebind_move]

theorem ScopeKind.rebind_move (k : ScopeKind) : (k.move f).rebind r = (k.rebind r).move f := by
  cases k <;> simp [ScopeKind.move, ScopeKind.rebind, TypeDefinition.move, TypeDefinition.rebind, ParentColumns.rebind,
    ParentColumns.move, MethodDefinition.move, MethodDefinition.rebind, TypeUse.rebind_move, Parameter.rebind_move,
    QualifierUse.rebind_move, Function.comp_def]

theorem Scope.rebind_move (s : Scope) : (s.move f).rebind r = (s.rebind r).move f := by
  simp [Scope.move, Scope.rebind, VariableTable.move, VariableTable.rebind, Variable.rebind_move, Call.rebind_move,
    ScopeKind.rebind_move]

end Renaming

section Uniting

variable {f : String → String} (keeps : StrictMono f)

include keeps

theorem Location.move_sameNode (a b : Location) : (a.move f).sameNode (b.move f) = a.sameNode b := by
  rw [Bool.eq_iff_iff]
  simp [Location.sameNode, Location.move, keeps.injective.eq_iff]

theorem Location.move_compare (a b : Location) : (a.move f).compare (b.move f) = a.compare b := by
  have order := keeps.cmp_map_eq a.position b.position
  rw [cmp_eq_compare, cmp_eq_compare] at order
  simp only [Location.compare, Location.move, order]

theorem Location.move_addNew (known found : List Location) :
    (addNew known found).map (·.move f) = addNew (known.map (·.move f)) (found.map (·.move f)) := by
  unfold addNew
  induction found generalizing known with
  | nil => rfl
  | cons l rest ih =>
    have taken : (known.map (·.move f)).any (·.sameNode (l.move f)) = known.any (·.sameNode l) := by
      simp [List.any_map, Function.comp_def, Location.move_sameNode keeps]
    simp only [List.foldl_cons, List.map_cons, ih, taken]
    split <;> simp

theorem Location.move_min? (locations : List Location) :
    min? (locations.map (·.move f)) = (min? locations).map (·.move f) := by
  cases locations with
  | nil => rfl
  | cons l rest =>
    simp only [List.map_cons, min?, Option.map_some]
    congr 1
    induction rest generalizing l with
    | nil => rfl
    | cons next rest ih =>
      simp only [List.map_cons, List.foldl_cons, Location.move_compare keeps]
      rw [← ih]
      split <;> rfl

theorem DefinitionRank.move_ofLocations (locations : List Location) :
    DefinitionRank.ofLocations (locations.map (·.move f)) =
      { DefinitionRank.ofLocations locations with first := (DefinitionRank.ofLocations locations).first.map (·.move f) } := by
  have definitions : (locations.map (·.move f)).filter (!·.isReference) =
      (locations.filter (!·.isReference)).map (·.move f) := by
    rw [List.filter_map]
    rfl
  unfold DefinitionRank.ofLocations
  rw [definitions, Location.move_min? keeps, Location.move_min? keeps]
  cases Location.min? (locations.filter (!·.isReference)) with
  | some l => rfl
  | none => simp

theorem DefinitionRank.move_compare (mine theirs : List Location) :
    DefinitionRank.compare (.ofLocations (mine.map (·.move f))) (.ofLocations (theirs.map (·.move f))) =
      DefinitionRank.compare (.ofLocations mine) (.ofLocations theirs) := by
  rw [move_ofLocations keeps, move_ofLocations keeps]
  unfold DefinitionRank.compare
  dsimp only
  congr 2
  cases (ofLocations mine).first with
  | none => cases (ofLocations theirs).first <;> rfl
  | some a =>
    cases (ofLocations theirs).first with
    | none => rfl
    | some b => exact Location.move_compare keeps a b

theorem Scope.move_addLocationTo (l : Location) (known : List Location) :
    (addLocationTo l known).map (·.move f) = addLocationTo (l.move f) (known.map (·.move f)) := by
  induction known with
  | nil => rfl
  | cons k rest ih =>
    simp only [addLocationTo, List.map_cons, Location.move_sameNode keeps]
    split
    · rfl
    · rw [List.map_cons, ih]

theorem Scope.move_addLocations (found known : List Location) :
    (found.foldl (fun known l => addLocationTo l known) known).map (·.move f) =
      (found.map (·.move f)).foldl (fun known l => addLocationTo l known) (known.map (·.move f)) := by
  induction found generalizing known with
  | nil => rfl
  | cons l rest ih => simp only [List.foldl_cons, List.map_cons, ih, move_addLocationTo keeps]

theorem Variable.move_sharesLocation (a b : Variable) : (a.move f).sharesLocation (b.move f) = a.sharesLocation b := by
  simp [Variable.sharesLocation, Variable.move, List.any_map, Function.comp_def, Location.move_sameNode keeps]

theorem VariableTable.move_uniteInto (v : Variable) (group : List Variable) :
    (uniteInto v group).map (·.move f) = uniteInto (v.move f) (group.map (·.move f)) := by
  induction group with
  | nil => rfl
  | cons known rest ih =>
    simp only [uniteInto, List.map_cons, Variable.move_sharesLocation keeps]
    split
    · cases declared : known.declaredType <;> simp [Variable.move, declared, Location.move_addNew keeps]
    · rw [List.map_cons, ih]

omit keeps in
theorem VariableTable.move_alter (name : String) (change change' : List Variable → List Variable)
    (commutes : ∀ group, (change group).map (·.move f) = change' (group.map (·.move f))) (table : VariableTable) :
    (table.alter name change).move f = (table.move f).alter name change' := by
  induction table with
  | nil =>
    have start := commutes []
    simpa [VariableTable.move, alter] using start
  | cons row rest ih =>
    unfold VariableTable.move at ih ⊢
    by_cases same : row.1 = name
    · simp [alter, same, commutes]
    · simp only [List.map_cons, alter, same, if_false, ih]

omit keeps in
theorem VariableTable.move_toList (table : VariableTable) : (table.move f).toList = table.toList.map (·.move f) := by
  simp [VariableTable.move, toList, List.flatMap_map, List.map_flatMap]

theorem VariableTable.move_uniteAll (found : List Variable) (table : VariableTable) :
    (found.foldl (fun table v => table.unite v) table).move f =
      (found.map (·.move f)).foldl (fun table v => table.unite v) (table.move f) := by
  induction found generalizing table with
  | nil => rfl
  | cons v rest ih =>
    have united : (table.unite v).move f = (table.move f).unite (v.move f) :=
      move_alter v.name (uniteInto v) (uniteInto (v.move f)) (move_uniteInto keeps v) table
    simp only [List.foldl_cons, List.map_cons, ih, united]

theorem ParentTable.move_add (use : TypeUse) (table : ParentTable) :
    (add use table).map (·.move f) = add (use.move f) (table.map (·.move f)) := by
  have place : use.location.toList.map (·.move f) = (use.move f).location.toList := by
    cases location : use.location <;> simp [location]
  induction table with
  | nil => simp [add, ParentType.move, place]
  | cons p rest ih =>
    have same : (p.move f).use.sameQualifiedName (use.move f) = p.use.sameQualifiedName use :=
      p.use.move_sameQualifiedName f use
    simp only [add, List.map_cons, same]
    split
    · simp only [List.map_cons, ParentType.move, Location.move_addNew keeps, place]
    · rw [List.map_cons, ih]

omit keeps in
theorem ParentTable.move_usesOf (p : ParentType) : (usesOf p).map (·.move f) = usesOf (p.move f) := by
  have places : (p.move f).locations = p.locations.map (·.move f) := by
    simp only [ParentType.locations, ParentType.move, TypeUse.move_location, List.isEmpty_map, Option.toList_map]
    split <;> rfl
  unfold usesOf
  rw [places]
  cases p.locations with
  | nil => rfl
  | cons l rest => simp [ParentType.move, TypeUse.move_withLocation]

omit keeps in
theorem ParentColumns.table_move (c : ParentColumns) : (c.move f).table = c.table.map (·.move f) := by
  unfold ParentColumns.table ParentColumns.move
  dsimp only
  generalize c.places = places
  induction c.uses generalizing places with
  | nil => rfl
  | cons use uses ih =>
    rw [List.map_cons, rows, rows, List.map_cons, ← ih, List.map_tail]
    cases places <;> rfl

theorem ParentColumns.move_add (use : TypeUse) (c : ParentColumns) :
    (c.add use).move f = (c.move f).add (use.move f) := by
  rw [add_eq, add_eq, table_move, ← ParentTable.move_add keeps]
  simp [ofTable, ParentColumns.move, ParentType.move]

theorem ParentColumns.move_foldl_add (uses : List TypeUse) (c : ParentColumns) :
    (uses.foldl (fun c use => c.add use) c).move f = (uses.map (·.move f)).foldl (fun c use => c.add use) (c.move f) := by
  induction uses generalizing c with
  | nil => rfl
  | cons use rest ih => simp only [List.foldl_cons, List.map_cons, ih, move_add keeps]

theorem ParentColumns.move_unite (c other : ParentColumns) :
    (c.unite other).move f = (c.move f).unite (other.move f) := by
  have uses : (other.move f).table.flatMap ParentTable.usesOf = (other.table.flatMap ParentTable.usesOf).map (·.move f) := by
    simp only [table_move, List.flatMap_map, List.map_flatMap, ParentTable.move_usesOf]
  rw [unite_eq_foldl, unite_eq_foldl, uses, move_foldl_add keeps]

theorem Parameter.move_uniteAll (left right : List Parameter) :
    (uniteAll left right).map (·.move f) = uniteAll (left.map (·.move f)) (right.map (·.move f)) := by
  induction left generalizing right with
  | nil => rfl
  | cons mine left ih =>
    cases right with
    | nil => rfl
    | cons theirs right =>
      simp only [uniteAll, List.map_cons, ih]
      congr 1
      by_cases same : mine.declaredType.name = theirs.declaredType.name
      · simp [Parameter.move, Parameter.unite, same, Location.move_addNew keeps]
      · simp [Parameter.move, same]

theorem ScopeKind.move_unite (theirsFirst : Bool) (mine theirs : ScopeKind) :
    (mine.unite theirsFirst theirs).move f = (mine.move f).unite theirsFirst (theirs.move f) := by
  cases mine with
  | block => rfl
  | space isGlobal => cases theirs <;> rfl
  | type mine =>
    cases theirs with
    | type theirs =>
      simp only [ScopeKind.unite, ScopeKind.move, TypeDefinition.move, TypeDefinition.unite, ParentColumns.move_unite keeps]
    | _ => rfl
  | method mine =>
    cases theirs with
    | method theirs =>
      simp only [ScopeKind.unite, ScopeKind.move, MethodDefinition.move, MethodDefinition.unite,
        Parameter.move_uniteAll keeps, map_preferred, List.isEmpty_map]
      split <;> rfl
    | _ => rfl

theorem Call.move_addNew (known found : List Call) :
    (addNew known found).map (·.move f) = addNew (known.map (·.move f)) (found.map (·.move f)) := by
  unfold addNew
  induction found generalizing known with
  | nil => rfl
  | cons call rest ih =>
    have taken : (known.map (·.move f)).any (·.location.sameNode (call.move f).location) =
        known.any (·.location.sameNode call.location) := by
      simp [List.any_map, Function.comp_def, Call.move, Location.move_sameNode keeps]
    simp only [List.foldl_cons, List.map_cons, ih, taken]
    split <;> simp

end Uniting

-- Two scopes that differ in positions alone. Namespaces may stand anywhere; all that is recorded in them is moved.
structure Scope.Moved (f : String → String) (language : Language) (s t : Scope) : Prop where
  content : { t with locations := [] } = { s.move f with locations := [] }
  places : s.category ≠ .space → t.locations = s.locations.map (·.move f)
  spaces : s.category = .space → s.access = .unstated ∧ s.language = some language

namespace Scope

variable {f : String → String} {language : Language} {s t s' t' : Scope}

theorem Moved.of_move (proper : s.category ≠ .space) : s.Moved f language (s.move f) where
  content := rfl
  places _ := rfl
  spaces isSpace := absurd isSpace proper

theorem kind_of_category_space (isSpace : s.category = .space) : ∃ isGlobal, s.kind = .space isGlobal := by
  rcases s with ⟨_, _, kind, _, _, _, _, _, _⟩
  cases kind with
  | space isGlobal => exact ⟨isGlobal, rfl⟩
  | _ => cases isSpace

namespace Moved

theorem eq (moved : s.Moved f language t) : t = { s.move f with locations := t.locations } := by
  have content := moved.content
  rcases t with ⟨_, _, _, _, _, _, _, _, _⟩
  simp only [Scope.mk.injEq] at content ⊢
  simp only [content, and_self]

theorem eq_move (moved : s.Moved f language t) (proper : s.category ≠ .space) : t = s.move f := by
  rw [moved.eq, moved.places proper]
  rfl

end Moved

section Laws

variable (keeps : StrictMono f)

include keeps

theorem move_unite (mine theirs : Scope) : (mine.unite theirs).move f = (mine.move f).unite (theirs.move f) := by
  have yields : (mine.move f).yieldsTo (theirs.move f) = mine.yieldsTo theirs :=
    congrArg Ordering.isLT (DefinitionRank.move_compare keeps theirs.locations mine.locations)
  unfold Scope.unite
  rw [yields]
  simp only [Scope.move, VariableTable.move_uniteAll keeps, VariableTable.move_toList, Call.move_addNew keeps,
    ScopeKind.move_unite keeps, move_addLocations keeps]
  rfl

theorem Moved.sameEntity (first : s.Moved f language s') (second : t.Moved f language t') :
    s'.sameEntity t' = s.sameEntity t := by
  rw [first.eq, second.eq]
  rcases s with ⟨name, _, kind, _, _, _, _, _, locations⟩
  rcases t with ⟨name', _, kind', _, _, _, _, _, locations'⟩
  cases kind with
  | block =>
    cases kind' with
    | block =>
      -- blocks alone are told apart by where they stand
      have proper : ScopeKind.category .block ≠ .space := by decide
      rw [first.places proper, second.places proper]
      simp [Scope.sameEntity, Scope.move, ScopeKind.move, Scope.category, ScopeKind.category, List.any_map,
        Function.comp_def, Location.move_sameNode keeps]
    | _ => rfl
  | space isGlobal => cases kind' <;> rfl
  | type definition => cases kind' <;> rfl
  | method definition =>
    cases kind' with
    | method definition' =>
      simp [Scope.sameEntity, Scope.move, ScopeKind.move, Scope.category, ScopeKind.category, MethodDefinition.move,
        MethodDefinition.parameterTypeNames, Parameter.move, Function.comp_def]
    | _ => rfl

-- All that could depend on where two namespaces stand is the same on both sides anyway.
theorem Moved.unite_space {isGlobal isGlobal' : Bool} (first : s.Moved f language s') (second : t.Moved f language t')
    (space : s.kind = .space isGlobal) (space' : t.kind = .space isGlobal') :
    (s.unite t).Moved f language (s'.unite t') := by
  have isSpace : s.category = .space := congrArg ScopeKind.category space
  obtain ⟨access, written⟩ := first.spaces isSpace
  obtain ⟨access', written'⟩ := second.spaces (congrArg ScopeKind.category space')
  have alone : ∀ theirsFirst, preferred theirsFirst (some language) (some language) = some language := by
    intro theirsFirst
    cases theirsFirst <;> rfl
  refine ⟨?_, ?_, ?_⟩
  · rw [first.eq, second.eq]
    simp only [Scope.unite, Scope.move, access, access', written, written', space, space', ScopeKind.move, ScopeKind.unite,
      ne_eq, not_true_eq_false, false_and, if_false, alone, VariableTable.move_uniteAll keeps, VariableTable.move_toList,
      Call.move_addNew keeps]
  · intro proper
    rw [Scope.category_unite] at proper
    exact absurd isSpace proper
  · intro _
    simp [Scope.unite, access, access', written, written', alone]

theorem moved_congruence : Scope.Congruence (Moved f language) where
  links moved := by
    rw [moved.eq]
    exact ⟨rfl, rfl⟩
  linked parent children moved := by
    rw [moved.eq]
    exact ⟨rfl, moved.places, moved.spaces⟩
  sameEntity first second := first.sameEntity keeps second
  unite := by
    intro s t s' t' first second same
    have sorts : s.category = t.category := by
      simp only [Scope.sameEntity, Bool.and_eq_true, beq_iff_eq] at same
      exact same.1.1
    by_cases isSpace : s.category = .space
    · obtain ⟨isGlobal, space⟩ := kind_of_category_space isSpace
      obtain ⟨isGlobal', space'⟩ := kind_of_category_space (sorts ▸ isSpace)
      exact first.unite_space keeps second space space'
    · rw [first.eq_move isSpace, second.eq_move (sorts ▸ isSpace), ← move_unite keeps]
      refine .of_move ?_
      rw [Scope.category_unite]
      exact isSpace
  rebind := by
    intro s t r moved
    have sorts : (s.rebind r).category = s.category := by
      rcases s with ⟨_, _, kind, _, _, _, _, _, _⟩
      cases kind <;> rfl
    rw [moved.eq]
    refine ⟨?_, ?_, ?_⟩
    · exact congrArg (fun k : Scope => { k with locations := [] }) (rebind_move f r s)
    · intro proper
      exact moved.places (sorts ▸ proper)
    · intro isSpace
      exact moved.spaces (sorts ▸ isSpace)

end Laws

theorem Moved.addCall (moved : s.Moved f language t) (call : Call) :
    (s.addCall call).Moved f language (t.addCall (call.move f)) := by
  rw [moved.eq]
  refine ⟨?_, moved.places, moved.spaces⟩
  simp [Scope.addCall, Scope.move]

theorem Moved.addVariables (moved : s.Moved f language t) (found : List Variable) :
    (found.foldl addVariable s).Moved f language ((found.map (·.move f)).foldl addVariable t) := by
  induction found generalizing s t with
  | nil => exact moved
  | cons v rest ih =>
    refine ih ?_
    have added : (s.declared.add v).move f = (s.declared.move f).add (v.move f) :=
      VariableTable.move_alter v.name (· ++ [v]) (· ++ [v.move f]) (fun group => by simp) s.declared
    rw [moved.eq]
    refine ⟨?_, moved.places, moved.spaces⟩
    simp only [Scope.addVariable, Scope.move, added]

-- The scope as it is wherever it was written: what it records has no position, and it has no places of its own.
def unplaced (s : Scope) : Scope := { s.move (fun _ => "") with locations := [] }

theorem Moved.unplaced (moved : s.Moved f language t) : t.unplaced = s.unplaced := by
  rw [moved.eq]
  exact congrArg (fun k : Scope => { k with locations := [] }) (move_move f (fun _ => "") s)

end Scope

def Graph.unplaced (g : Graph) : Graph := { g with slots := g.slots.map (·.map Scope.unplaced) }

theorem Graph.InStep.unplaced {f : String → String} {language : Language} {g h : Graph}
    (inStep : g.InStep (Scope.Moved f language) h) : h.unplaced = g.unplaced := by
  unfold Graph.unplaced
  rw [inStep.map_slots fun _ _ moved => moved.unplaced, inStep.root, inStep.conflicts]

end ScopeAtlas
