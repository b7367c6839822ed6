import ScopeAtlas.Language.Literal
import ScopeAtlas.Language.Basic
import ScopeAtlas.Location
import ScopeAtlas.Scope.Kind

namespace ScopeAtlas

-- Qualifiers are kept outermost first, receivers nearest first: in `a->b.Foo()` those of `Foo` are `b`, then `a`.
structure QualifierUse where
  name : String
  location : Option Location := none
  language : Option Language := none
  scope : Option ScopeId := none
  -- Set where only a namespace can be meant, as in the path of an import.
  namespaceOnly : Bool := false
deriving DecidableEq, Repr, Inhabited

def QualifierUse.rebind (rename : ScopeId → ScopeId) (u : QualifierUse) : QualifierUse :=
  { u with scope := u.scope.map rename }

structure Import where
  path : List QualifierUse
  symbol : Option QualifierUse := none
  location : Option Location := none
  language : Option Language := none
deriving DecidableEq, Repr, Inhabited

namespace Import

def isWhole (i : Import) : Bool := i.symbol.isNone

def pathNames (i : Import) : List String := i.path.map (·.name)

def symbolName? (i : Import) : Option String := i.symbol.map (·.name)

def admits (i : Import) (name : String) : Bool :=
  match i.symbolName? with
  | none => true
  | some symbol => symbol == name

def render (i : Import) : String :=
  let path := ".".intercalate i.pathNames
  "import " ++
    match i.symbolName? with
    | none => path ++ ".*"
    | some symbol => if path.isEmpty then symbol else path ++ "." ++ symbol

end Import

structure TypeUse where
  name : String
  qualifiers : List QualifierUse := []
  arguments : List TypeUse := []
  imports : List Import := []
  scope : ScopeId
  location : Option Location := none
  language : Option Language := none
deriving Repr, Inhabited

namespace TypeUse

def qualifierNames (u : TypeUse) : List String := u.qualifiers.map (·.name)

def sameQualifiedName (u v : TypeUse) : Bool := u.name == v.name && u.qualifierNames == v.qualifierNames

mutual

def rebind (rename : ScopeId → ScopeId) : TypeUse → TypeUse
  | ⟨name, qualifiers, arguments, imports, scope, location, language⟩ =>
    ⟨name, qualifiers.map (·.rebind rename), rebindAll rename arguments, imports, rename scope, location, language⟩

def rebindAll (rename : ScopeId → ScopeId) : List TypeUse → List TypeUse
  | [] => []
  | u :: rest => u.rebind rename :: rebindAll rename rest

end

mutual

def render : TypeUse → String
  | ⟨name, qualifiers, arguments, _, _, _, _⟩ =>
    String.join (qualifiers.map (·.name ++ ".")) ++ name ++
      match renderAll arguments with
      | [] => ""
      | texts => "<" ++ ", ".intercalate texts ++ ">"

def renderAll : List TypeUse → List String
  | [] => []
  | u :: rest => u.render :: renderAll rest

end

end TypeUse

structure NameUse where
  name : String
  scope : ScopeId
  location : Option Location := none
  language : Option Language := none
deriving DecidableEq, Repr, Inhabited

def NameUse.rebind (rename : ScopeId → ScopeId) (u : NameUse) : NameUse := { u with scope := rename u.scope }

def NameUse.moveTo (scope : ScopeId) (u : NameUse) : NameUse := { u with scope }

-- A variable, field or parameter; the name is empty for an expression that is no plain name.
structure VariableUse extends NameUse where
  receivers : List NameUse := []
deriving DecidableEq, Repr, Inhabited

namespace VariableUse

def rebind (rename : ScopeId → ScopeId) (u : VariableUse) : VariableUse where
  toNameUse := u.toNameUse.rebind rename
  receivers := u.receivers.map (·.rebind rename)

def moveTo (scope : ScopeId) (u : VariableUse) : VariableUse where
  toNameUse := u.toNameUse.moveTo scope
  receivers := u.receivers.map (·.moveTo scope)

end VariableUse

structure LiteralUse where
  kind : LiteralKind
  typeName : Option String
  value : String
  scope : ScopeId
  location : Option Location := none
deriving DecidableEq, Repr, Inhabited

inductive Argument
  | variable (u : VariableUse)
  | literal (u : LiteralUse)
deriving DecidableEq, Repr, Inhabited

namespace Argument

def scope : Argument → ScopeId
  | .variable u => u.scope
  | .literal u => u.scope

def rebind (rename : ScopeId → ScopeId) : Argument → Argument
  | .variable u => .variable (u.rebind rename)
  | .literal u => .literal { u with scope := rename u.scope }

def moveTo (scope : ScopeId) : Argument → Argument
  | .variable u => .variable (u.moveTo scope)
  | .literal u => .literal { u with scope }

end Argument

structure Call where
  name : String
  isConstructor : Bool := false
  isDestructor : Bool := false
  arguments : List Argument := []
  receivers : List NameUse := []
  -- The imports in force at the call; kept only when there is no receiver.
  imports : List Import := []
  scope : ScopeId
  location : Location
  language : Option Language := none
deriving DecidableEq, Repr, Inhabited

namespace Call

def rebind (rename : ScopeId → ScopeId) (call : Call) : Call :=
  { call with
    scope := rename call.scope
    receivers := call.receivers.map (·.rebind rename)
    arguments := call.arguments.map (·.rebind rename) }

def moveTo (scope : ScopeId) (call : Call) : Call :=
  { call with
    scope
    receivers := call.receivers.map (·.moveTo scope)
    arguments := call.arguments.map (·.moveTo scope) }

def render (call : Call) : String :=
  String.join (call.receivers.reverse.map (·.name ++ ".")) ++
    (if call.isConstructor then "new " else if call.isDestructor then "~" else "") ++
    call.name ++ "(" ++ toString call.arguments.length ++ ")"

end Call

end ScopeAtlas
