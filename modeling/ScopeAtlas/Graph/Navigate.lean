import ScopeAtlas.Graph.Basic

namespace ScopeAtlas

namespace Graph

def chainWithin (g : Graph) : (bound : Nat) → ScopeId → List ScopeId
  | 0, _ => []
  | bound + 1, id =>
    id :: match g.parent? id with
      | some parent => g.chainWithin bound parent
      | none => []

-- A live scope, then its ancestors up to the root; no chain of parents is longer than the arena.
def ancestorsAndSelf (g : Graph) (id : ScopeId) : List ScopeId :=
  if g.contains id then g.chainWithin g.size id else []

def ancestors (g : Graph) (id : ScopeId) : List ScopeId := (g.ancestorsAndSelf id).tail

def hasCategory (g : Graph) (category : Category) (id : ScopeId) : Bool :=
  (g.get? id).any (·.category == category)

def nearestAncestor? (g : Graph) (id : ScopeId) (category : Category) : Option ScopeId :=
  (g.ancestors id).find? (g.hasCategory category)

def nameOf? (g : Graph) (id : ScopeId) : Option String := (g.get? id).bind (·.pathName?)

def qualifierNames (g : Graph) (id : ScopeId) : List String := ((g.ancestors id).filterMap g.nameOf?).reverse

def namePath (g : Graph) (id : ScopeId) : List String := g.qualifierNames id ++ (g.nameOf? id).toList

def fullName (g : Graph) (id : ScopeId) : String := ".".intercalate (g.namePath id)

-- The children that pass a test. Every child listed has to be live.
def childrenWith (g : Graph) (test : Scope → Bool) (id : ScopeId) : Except Fault (List ScopeId) :=
  (g.children id).filterM fun child => return test (← g.scope child)

def childrenNamed (g : Graph) (name : String) : ScopeId → Except Fault (List ScopeId) :=
  g.childrenWith (·.name == name)

def childrenNamedOf (g : Graph) (category : Category) (name : String) : ScopeId → Except Fault (List ScopeId) :=
  g.childrenWith fun s => s.name == name && s.category == category

def belowWithin (g : Graph) : (depth : Nat) → ScopeId → List ScopeId
  | 0, _ => []
  | depth + 1, id => (g.children id).flatMap fun child => child :: g.belowWithin depth child

-- Everything below a scope, in pre-order; a path downwards has no more scopes than the arena. A scope that is listed in
-- several places is visited in each of them.
def descendants (g : Graph) (id : ScopeId) : List ScopeId := g.belowWithin g.size id

def descendantsOf (g : Graph) (id : ScopeId) (category : Category) : Except Fault (List ScopeId) :=
  (g.descendants id).filterM fun below => return (← g.scope below).category == category

def namespacesAt (g : Graph) (path : List String) : Except Fault (List ScopeId) :=
  path.foldlM (fun reached name => return (← reached.mapM (g.childrenNamedOf .space name)).flatten) [g.root]

def withFullName (g : Graph) (fullName : String) : List ScopeId :=
  (g.scopes.filter fun (id, s) => s.isNamed && g.fullName id == fullName).map (·.1)

def callsWithin (g : Graph) (id : ScopeId) : Except Fault (List Call) := do
  let scopes ← (id :: g.descendants id).mapM g.scope
  return scopes.flatMap (·.calls)

end Graph

end ScopeAtlas
