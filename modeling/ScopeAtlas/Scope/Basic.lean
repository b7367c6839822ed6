import ScopeAtlas.Scope.Declaration
import ScopeAtlas.Scope.ParentColumns

namespace ScopeAtlas

structure TypeDefinition where
  kind : TypeKind
  parentColumns : ParentColumns := {}
  isGeneric : Bool := false
  typeParameters : List String := []
deriving Repr, Inhabited

structure MethodDefinition where
  isConstructor : Bool := false
  isDestructor : Bool := false
  -- Absent for constructors, destructors and `void` methods.
  returnType : Option TypeUse := none
  parameters : List Parameter := []
  -- The qualifiers written on the name: `B` in `void B::Foo()`.
  qualifiers : List QualifierUse := []
deriving Repr, Inhabited

def MethodDefinition.parameterTypeNames (m : MethodDefinition) : List String :=
  m.parameters.map (·.declaredType.name)

inductive ScopeKind
  | block
  | space (isGlobal : Bool)
  | type (definition : TypeDefinition)
  | method (definition : MethodDefinition)
deriving Repr, Inhabited

def ScopeKind.category : ScopeKind → Category
  | .block => .block
  | .space _ => .space
  | .type _ => .type
  | .method _ => .method

structure Scope where
  name : String := ""
  access : Access := .unstated
  kind : ScopeKind
  language : Option Language := none
  parent : Option ScopeId := none
  children : List ScopeId := []
  declared : VariableTable := []
  calls : List Call := []
  locations : List Location := []
deriving Repr, Inhabited

namespace Scope

def global : Scope := { kind := .space true }

def category (s : Scope) : Category := s.kind.category

def isNamed (s : Scope) : Bool := s.category != .block

def pathName? (s : Scope) : Option String := if s.isNamed && !s.name.isEmpty then some s.name else none

def isGlobal (s : Scope) : Bool :=
  match s.kind with
  | .space isGlobal => isGlobal
  | _ => false

def type? (s : Scope) : Option TypeDefinition :=
  match s.kind with
  | .type definition => some definition
  | _ => none

def method? (s : Scope) : Option MethodDefinition :=
  match s.kind with
  | .method definition => some definition
  | _ => none

def primaryLocation? (s : Scope) : Option Location :=
  s.locations.find? (!·.isReference) <|> s.locations.head?

-- Records a location; of the same element a definition counts more than a reference.
def addLocationTo (l : Location) : List Location → List Location
  | [] => [l]
  | known :: rest =>
    if known.sameNode l then { known with isReference := known.isReference && l.isReference } :: rest
    else known :: addLocationTo l rest

def addLocation (s : Scope) (l : Location) : Scope := { s with locations := addLocationTo l s.locations }

def addVariable (s : Scope) (v : Variable) : Scope := { s with declared := s.declared.add v }

def addCall (s : Scope) (call : Call) : Scope := { s with calls := s.calls ++ [call] }

def isOnlyIn (s : Scope) (file : String) : Bool := !s.locations.isEmpty && s.locations.all (·.isIn file)

def isIn (s : Scope) (file : String) : Bool := s.locations.any (·.isIn file)

def isOutside (s : Scope) (file : String) : Bool := s.locations.any (!·.isIn file)

def renderMethod (s : Scope) (m : MethodDefinition) : String :=
  (if m.isConstructor then "Constructor: " else if m.isDestructor then "Destructor: " else "Method: ") ++
    (if s.access = .unstated then "" else s.access.text ++ " ") ++
    (match m.returnType with
      | some type => type.render ++ " "
      | none => if m.isConstructor || m.isDestructor then "" else "void ") ++
    s.name ++ "(" ++ ", ".intercalate (m.parameters.map Parameter.render) ++ ")"

def signature (s : Scope) : String :=
  match s.kind with
  | .block => "Block"
  | .space isGlobal => "Namespace: " ++ if isGlobal then "<global>" else s.name
  | .type definition => definition.kind.title ++ ": " ++ s.name
  | .method definition => s.renderMethod definition

end Scope

def TypeDefinition.rebind (rename : ScopeId → ScopeId) (t : TypeDefinition) : TypeDefinition :=
  { t with parentColumns := t.parentColumns.rebind rename }

def MethodDefinition.rebind (rename : ScopeId → ScopeId) (m : MethodDefinition) : MethodDefinition :=
  { m with
    returnType := m.returnType.map (·.rebind rename)
    parameters := m.parameters.map (·.rebind rename)
    qualifiers := m.qualifiers.map (·.rebind rename) }

def ScopeKind.rebind (rename : ScopeId → ScopeId) : ScopeKind → ScopeKind
  | .type definition => .type (definition.rebind rename)
  | .method definition => .method (definition.rebind rename)
  | kind => kind

def Scope.rebind (rename : ScopeId → ScopeId) (s : Scope) : Scope :=
  { s with
    parent := s.parent.map rename
    children := s.children.map rename
    declared := s.declared.rebind rename
    calls := s.calls.map (·.rebind rename)
    kind := s.kind.rebind rename }

end ScopeAtlas
