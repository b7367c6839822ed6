import ScopeAtlas.Scope.Basic

namespace ScopeAtlas

-- Two methods made one disagree on the type of a parameter; the first side's type is kept.
structure Conflict where
  method : String
  position : Nat
  keptType : String
  discardedType : String
  keptLocation : Option Location
  discardedLocation : Option Location
deriving DecidableEq, Repr

-- How well a scope is defined; the smaller is the better. A definition comes before a reference, a reference before no
-- location at all, and of equals the one with the smallest location comes first.
structure DefinitionRank where
  onlyReferences : Bool
  nowhere : Bool
  first : Option Location
deriving Repr

def Location.min? : List Location → Option Location
  | [] => none
  | l :: rest => some (rest.foldl (fun least l => if (l.compare least).isLT then l else least) l)

namespace DefinitionRank

def ofLocations (locations : List Location) : DefinitionRank :=
  match Location.min? (locations.filter (!·.isReference)) with
  | some first => ⟨false, false, some first⟩
  | none => ⟨true, locations.isEmpty, Location.min? locations⟩

def compareFirst : Option Location → Option Location → Ordering
  | none, none => .eq
  | none, some _ => .lt
  | some _, none => .gt
  | some a, some b => a.compare b

def compare (a b : DefinitionRank) : Ordering :=
  (Ord.compare a.onlyReferences b.onlyReferences).then <| (Ord.compare a.nowhere b.nowhere).then <|
    compareFirst a.first b.first

end DefinitionRank

-- Keeps `mine` unless `theirs` is there and is either preferred or all there is.
def preferred {α : Type} (theirsFirst : Bool) (mine theirs : Option α) : Option α :=
  if theirsFirst then theirs <|> mine else mine <|> theirs

namespace Parameter

def unite (mine theirs : Parameter) : Parameter :=
  { mine with
    locations := Location.addNew mine.locations theirs.locations
    name := if (Text.trim mine.name).isEmpty then theirs.name else mine.name }

def uniteAll : List Parameter → List Parameter → List Parameter
  | mine :: left, theirs :: right =>
    (if mine.declaredType.name = theirs.declaredType.name then mine.unite theirs else mine) :: uniteAll left right
  | left, _ => left

def conflicts (method : String) (position : Nat) : List Parameter → List Parameter → List Conflict
  | mine :: left, theirs :: right =>
    let later := conflicts method (position + 1) left right
    if mine.declaredType.name = theirs.declaredType.name then later
    else
      { method, position
        keptType := mine.declaredType.render
        discardedType := theirs.declaredType.render
        keptLocation := mine.locations.head?
        discardedLocation := theirs.locations.head? } :: later
  | _, _ => []

end Parameter

namespace TypeDefinition

def unite (theirsFirst : Bool) (mine theirs : TypeDefinition) : TypeDefinition where
  kind := if theirsFirst then theirs.kind else mine.kind
  parentColumns := mine.parentColumns.unite theirs.parentColumns
  isGeneric := mine.isGeneric || theirs.isGeneric
  typeParameters := if !mine.isGeneric && theirs.isGeneric then theirs.typeParameters else mine.typeParameters

end TypeDefinition

namespace MethodDefinition

def unite (theirsFirst : Bool) (mine theirs : MethodDefinition) : MethodDefinition :=
  { mine with
    returnType := preferred theirsFirst mine.returnType theirs.returnType
    qualifiers :=
      if !theirs.qualifiers.isEmpty && (theirsFirst || mine.qualifiers.isEmpty) then theirs.qualifiers
      else mine.qualifiers
    parameters := Parameter.uniteAll mine.parameters theirs.parameters }

end MethodDefinition

def ScopeKind.unite (theirsFirst : Bool) : ScopeKind → ScopeKind → ScopeKind
  | .space mine, .space theirs => .space (mine || theirs)
  | .type mine, .type theirs => .type (mine.unite theirsFirst theirs)
  | .method mine, .method theirs => .method (mine.unite theirsFirst theirs)
  | mine, _ => mine

def ScopeKind.conflicts (method : String) : ScopeKind → ScopeKind → List Conflict
  | .method mine, .method theirs => Parameter.conflicts method 0 mine.parameters theirs.parameters
  | _, _ => []

def Call.addNew (known found : List Call) : List Call :=
  found.foldl (fun known call => if known.any (·.location.sameNode call.location) then known else known ++ [call]) known

namespace Scope

def yieldsTo (mine theirs : Scope) : Bool :=
  (DefinitionRank.compare (.ofLocations theirs.locations) (.ofLocations mine.locations)).isLT

def unite (mine theirs : Scope) : Scope :=
  let theirsFirst := mine.yieldsTo theirs
  { mine with
    locations := theirs.locations.foldl (fun known l => addLocationTo l known) mine.locations
    access :=
      if theirs.access ≠ .unstated ∧ (theirsFirst ∨ mine.access = .unstated) then theirs.access else mine.access
    language := preferred theirsFirst mine.language theirs.language
    declared := theirs.declared.toList.foldl (fun table v => table.unite v) mine.declared
    calls := Call.addNew mine.calls theirs.calls
    kind := mine.kind.unite theirsFirst theirs.kind }

-- The two scopes are one entity of the program: of one sort and name, for methods with the same flags and parameter
-- types, for blocks seen at a common element.
def sameEntity (a b : Scope) : Bool :=
  a.category == b.category && a.name == b.name &&
    match a.kind, b.kind with
    | .block, .block => a.locations.any fun l => b.locations.any (l.sameNode ·)
    | .space x, .space y => x == y
    | .type _, .type _ => true
    | .method x, .method y =>
      x.isConstructor == y.isConstructor && x.isDestructor == y.isDestructor &&
        x.parameterTypeNames == y.parameterTypeNames
    | _, _ => false

def withdrawKind (file : String) : ScopeKind → ScopeKind
  | .type definition => .type { definition with parentColumns := definition.parentColumns.withdraw file }
  | .method definition =>
    .method { definition with
      parameters := definition.parameters.map fun p => { p with locations := p.locations.filter (!·.isIn file) } }
  | kind => kind

def withdraw (file : String) (s : Scope) : Scope :=
  { s with
    calls := s.calls.filter (!·.location.isIn file)
    declared := s.declared.withdraw file
    kind := withdrawKind file s.kind
    locations := s.locations.filter (!·.isIn file) }

end Scope

end ScopeAtlas
