import ScopeAtlas.Lookup.Lineage

namespace ScopeAtlas

-- A declaration that was found, with where it is kept: the scope, and the index among the variables of its name or
-- among the parameters there.
inductive Declared
  | variable (holder : ScopeId) (index : Nat) (v : Variable)
  | parameter (holder : ScopeId) (index : Nat) (p : Parameter)
deriving Repr

namespace Declared

def name : Declared → String
  | .variable _ _ v => v.name
  | .parameter _ _ p => p.name

def declaredType : Declared → Option TypeUse
  | .variable _ _ v => v.declaredType
  | .parameter _ _ p => some p.declaredType

def locations : Declared → List Location
  | .variable _ _ v => v.locations
  | .parameter _ _ p => p.locations

def scope : Declared → ScopeId
  | .variable _ _ v => v.scope
  | .parameter _ _ p => p.method

def isParameter : Declared → Bool
  | .variable .. => false
  | .parameter .. => true

def isSame : Declared → Declared → Bool
  | .variable a i _, .variable b j _ | .parameter a i _, .parameter b j _ => a == b && i == j
  | _, _ => false

def addNew (found candidates : List Declared) : List Declared :=
  candidates.foldl (fun found d => if found.any (·.isSame d) then found else found ++ [d]) found

end Declared

namespace Graph

def variablesNamed (g : Graph) (name : String) (id : ScopeId) : Except Fault (List Declared) := do
  return ((← g.scope id).declared.named name).zipIdx.map fun (v, index) => .variable id index v

def parametersNamed (g : Graph) (name : String) (id : ScopeId) : Except Fault (List Declared) := do
  let all := ((← g.scope id).method?.map (·.parameters)).getD []
  return all.zipIdx.filterMap fun (p, index) => if p.name == name then some (.parameter id index p) else none

def inheritedNamed (g : Graph) (name : String) (id : ScopeId) : Except Fault (List Declared) := do
  if (← g.scope id).category == .type then
    return (← (← g.lineage id).tail.mapM (g.variablesNamed name)).flatten
  else return []

def fieldsNamed (g : Graph) (name : String) (id : ScopeId) : Except Fault (List Declared) := do
  return (← (← g.lineage id).mapM (g.variablesNamed name)).flatten

end Graph

abbrev Receiver := Option (Except Fault (List ScopeId))

namespace NameUse

def candidates (g : Graph) (u : NameUse) (receiver : Receiver) : Except Fault (List Declared) :=
  if u.name.isEmpty || !g.contains u.scope then .ok []
  else
    match receiver with
    | some scopes => do
      return Declared.addNew [] (← (← scopes).mapM (g.fieldsNamed u.name)).flatten
    | none => do
      let enclosing := g.ancestorsAndSelf u.scope
      let own ← enclosing.mapM (g.variablesNamed u.name)
      let parameters ← enclosing.mapM (g.parametersNamed u.name)
      let inherited ← enclosing.mapM (g.inheritedNamed u.name)
      return Declared.addNew [] (own.flatten ++ parameters.flatten ++ inherited.flatten)

def declaredTypes (g : Graph) (u : NameUse) (receiver : Receiver) : Except Fault (List ScopeId) := do
  searchEach (·.candidates g) ((← u.candidates g receiver).filterMap (·.declaredType))

-- The types that a name may have. Without a receiver, `this` is the enclosing type, and `base` and `super` are its
-- parents.
def types (g : Graph) (u : NameUse) (receiver : Receiver) : Except Fault (List ScopeId) :=
  if !g.contains u.scope then .ok []
  else if receiver.isNone && u.name == "this" then return (← g.enclosingType? u.scope).toList
  else if receiver.isNone && (u.name == "base" || u.name == "super") then do
    match ← g.enclosingType? u.scope with
    | some type => g.parents type
    | none => return []
  else u.declaredTypes g receiver

def namedScopes (g : Graph) (u : NameUse) (receiver : Receiver) : Except Fault (List ScopeId) :=
  match receiver with
  | none => do
    let spaces ← g.lookup .space u.name [] u.scope
    return addNewIds spaces (← g.lookup .type u.name [] u.scope)
  | some scopes => do searchEach (g.spacesAndTypesCalled u.name) (← scopes)

-- The scopes that a receiver stands for: the types of its value or, when it is no variable, the namespaces and types
-- that it names.
def receiverScopes (g : Graph) (u : NameUse) (receiver : Receiver) : Except Fault (List ScopeId) := do
  let types ← u.types g receiver
  if !types.isEmpty || u.name.isEmpty then return types
  let declared ← u.candidates g receiver
  if declared.isEmpty then u.namedScopes g receiver else return types

end NameUse

def receiverOf (g : Graph) : List NameUse → Receiver
  | [] => none
  | u :: outer => some (u.receiverScopes g (receiverOf g outer))

namespace VariableUse

def candidates (g : Graph) (u : VariableUse) : Except Fault (List Declared) :=
  u.toNameUse.candidates g (receiverOf g u.receivers)

def types (g : Graph) (u : VariableUse) : Except Fault (List ScopeId) :=
  u.toNameUse.types g (receiverOf g u.receivers)

end VariableUse

-- The types that a literal may have.
def LiteralUse.types (g : Graph) (u : LiteralUse) : Except Fault (List ScopeId) :=
  match u.typeName with
  | some name => if g.contains u.scope then g.lookup .type name [] u.scope else .ok []
  | none => .ok []

def Argument.types (g : Graph) : Argument → Except Fault (List ScopeId)
  | .variable u => u.types g
  | .literal u => u.types g

end ScopeAtlas
