import ScopeAtlas.Scope.Use

namespace ScopeAtlas

structure Variable where
  name : String
  declaredType : Option TypeUse
  locations : List Location
  scope : ScopeId
deriving Repr, Inhabited

namespace Variable

def sharesLocation (a b : Variable) : Bool := a.locations.any fun l => b.locations.any (l.sameNode ·)

def rebind (rename : ScopeId → ScopeId) (v : Variable) : Variable :=
  { v with scope := rename v.scope, declaredType := v.declaredType.map (·.rebind rename) }

end Variable

structure Parameter where
  name : String
  declaredType : TypeUse
  locations : List Location
  method : ScopeId
  position : Nat
deriving Repr, Inhabited

namespace Parameter

def rebind (rename : ScopeId → ScopeId) (p : Parameter) : Parameter :=
  { p with method := rename p.method, declaredType := p.declaredType.rebind rename }

def render (p : Parameter) : String :=
  if p.name.isEmpty then p.declaredType.render else p.declaredType.render ++ " " ++ p.name

end Parameter

abbrev VariableTable := List (String × List Variable)

namespace VariableTable

def toList (table : VariableTable) : List Variable := table.flatMap (·.2)

def named (table : VariableTable) (name : String) : List Variable := (table.lookup name).getD []

def alter (name : String) (change : List Variable → List Variable) : VariableTable → VariableTable
  | [] => [(name, change [])]
  | (key, group) :: rest =>
    if key = name then (key, change group) :: rest else (key, group) :: alter name change rest

def add (table : VariableTable) (v : Variable) : VariableTable := table.alter v.name (· ++ [v])

-- Unites `v` with the first variable of a group that was seen at a common element: locations are joined and a missing
-- type is filled in. Without such a variable, `v` joins the group.
def uniteInto (v : Variable) : List Variable → List Variable
  | [] => [v]
  | known :: rest =>
    if known.sharesLocation v then
      { known with
        locations := Location.addNew known.locations v.locations
        declaredType := known.declaredType <|> v.declaredType } :: rest
    else known :: uniteInto v rest

def unite (table : VariableTable) (v : Variable) : VariableTable := table.alter v.name (uniteInto v)

-- Forgets all that was seen in `file`: locations, variables without another location, names without a variable.
def withdraw (file : String) (table : VariableTable) : VariableTable :=
  (table.map fun (name, group) =>
    (name, (group.map fun v => { v with locations := v.locations.filter (!·.isIn file) }).filter
      (!·.locations.isEmpty))).filter (!·.2.isEmpty)

def rebind (rename : ScopeId → ScopeId) (table : VariableTable) : VariableTable :=
  table.map fun (name, group) => (name, group.map (·.rebind rename))

end VariableTable

end ScopeAtlas
