import ScopeAtlas.Graph.Navigate

namespace ScopeAtlas

-- What types inherit is found by looking up names, and names are looked up in what types inherit. Each search is written
-- over a given way to find parents, and `parentsWithin` closes the loop up to a bound.
abbrev Parents := ScopeId → Except Fault (List ScopeId)

def addNewIds (found candidates : List ScopeId) : List ScopeId :=
  candidates.foldl (fun found id => if found.contains id then found else found ++ [id]) found

def searchEach (search : α → Except Fault (List ScopeId)) (places : List α) : Except Fault (List ScopeId) :=
  places.foldlM (fun found place => return addNewIds found (← search place)) []

namespace Graph

def spacesAndTypesCalled (g : Graph) (name : String) : ScopeId → Except Fault (List ScopeId) :=
  g.childrenWith fun s => s.name == name && (s.category == .space || s.category == .type)

def firstWith? (g : Graph) (test : Scope → Bool) : List ScopeId → Except Fault (Option ScopeId)
  | [] => .ok none
  | id :: rest => do
    if test (← g.scope id) then return some id
    g.firstWith? test rest

def enclosingType? (g : Graph) (id : ScopeId) : Except Fault (Option ScopeId) :=
  g.firstWith? (·.category == .type) (g.ancestorsAndSelf id)

def qualifiersOf (g : Graph) (id : ScopeId) : Except Fault (List String) := do
  return ((← (g.ancestors id).mapM g.scope).filterMap (·.pathName?)).reverse

def scopesAtPath (g : Graph) (path : List String) : Except Fault (List ScopeId) :=
  path.foldlM (fun reached name => return (← reached.mapM (g.spacesAndTypesCalled name)).flatten) [g.root]

def importedScopes (g : Graph) (name : String) (i : Import) : Except Fault (List ScopeId) :=
  if i.admits name then g.scopesAtPath i.pathNames else .ok []

def importedNamed (g : Graph) (category : Category) (name : String) (i : Import) : Except Fault (List ScopeId) := do
  searchEach (g.childrenNamedOf category name) (← g.importedScopes name i)

-- Walks up the inheritance of types, depth first and parents in written order; `done` lists the types already walked,
-- which are passed over. At most `bound` more are walked.
def climbWithin (parents : Parents) : (bound : Nat) → (waiting done : List ScopeId) → Except Fault (List ScopeId)
  | 0, waiting, done => if waiting.all done.contains then .ok done else .error .unbounded
  | bound + 1, waiting, done =>
    match waiting.dropWhile done.contains with
    | [] => .ok done
    | id :: rest => do climbWithin parents bound ((← parents id) ++ rest) (done ++ [id])

-- A type and all it inherits from, each once. The start may be any id, all others are live.
def lineageWith (g : Graph) (parents : Parents) (id : ScopeId) : Except Fault (List ScopeId) :=
  climbWithin parents (g.size + 1) [id] []

def membersWith (g : Graph) (parents : Parents) (category : Category) (name : String) (id : ScopeId) :
    Except Fault (List ScopeId) := do
  let own ← g.childrenNamedOf category name id
  if (← g.scope id).category == .type then
    let lineage ← g.lineageWith parents id
    return addNewIds own (← searchEach (g.childrenNamedOf category name) lineage.tail)
  else return own

def outwardWith (g : Graph) (parents : Parents) (category : Category) (name : String) (imports : List Import)
    (id : ScopeId) : Except Fault (List ScopeId) := do
  let enclosing ← searchEach (g.membersWith parents category name) (g.ancestorsAndSelf id)
  let imported ← searchEach (g.importedNamed category name) imports
  return addNewIds enclosing imported

end Graph

namespace TypeUse

-- The name paths that the qualifiers may be relative to: those of the enclosing scopes, and the paths of imports. An
-- imported symbol can only stand for the first qualifier.
def contexts (g : Graph) (u : TypeUse) : Except Fault (List (List String)) := do
  let enclosing ← (g.ancestorsAndSelf u.scope).mapM fun id => do
    return (← g.qualifiersOf id) ++ (← g.scope id).pathName?.toList
  let imported := u.imports.filter (·.admits (u.qualifierNames.headD ""))
  return enclosing ++ imported.map (·.pathNames)

-- The names start with those of a context and end with the qualifiers, and the two make up their number.
def reads (u : TypeUse) (names context : List String) : Bool :=
  names.length == context.length + u.qualifierNames.length && context.isPrefixOf names && u.qualifierNames.isSuffixOf names

-- The types whose enclosing names are the qualifiers, relative to some context.
def qualifiedCandidates (g : Graph) (u : TypeUse) : Except Fault (List ScopeId) := do
  let contexts ← u.contexts g
  let called := g.scopes.filter fun (_, s) => s.category == .type && s.name == u.name
  (called.map (·.1)).filterM fun id => do
    let names ← g.qualifiersOf id
    return contexts.any (u.reads names)

def candidatesWith (parents : Parents) (g : Graph) (u : TypeUse) : Except Fault (List ScopeId) :=
  if u.name.isEmpty || !g.contains u.scope then .ok []
  else if u.qualifiers.isEmpty then g.outwardWith parents .type u.name u.imports u.scope
  else u.qualifiedCandidates g

end TypeUse

namespace Graph

def parentsWith (g : Graph) (parents : Parents) (id : ScopeId) : Except Fault (List ScopeId) :=
  match (g.get? id).bind (·.type?) with
  | none => .ok []
  | some definition => do
    let found ← searchEach (·.candidatesWith parents g) definition.parentColumns.uses
    return found.filter (· != id)

def parentsWithin (g : Graph) : (bound : Nat) → Parents
  | 0 => fun _ => .error .unbounded
  | bound + 1 => g.parentsWith (g.parentsWithin bound)

-- The parents of a type. More types than the arena holds depend on each other only in a circle.
def parents (g : Graph) : Parents := g.parentsWithin (g.size + 1)

def lineage (g : Graph) : ScopeId → Except Fault (List ScopeId) := g.lineageWith g.parents

def membersNamed (g : Graph) (category : Category) (name : String) : ScopeId → Except Fault (List ScopeId) :=
  g.membersWith g.parents category name

def lookup (g : Graph) (category : Category) (name : String) (imports : List Import) :
    ScopeId → Except Fault (List ScopeId) :=
  g.outwardWith g.parents category name imports

end Graph

def TypeUse.candidates (g : Graph) (u : TypeUse) : Except Fault (List ScopeId) := u.candidatesWith g.parents g

-- The namespaces and types that a qualifier may denote; one without a live scope is searched from the root.
def QualifierUse.candidates (g : Graph) (u : QualifierUse) : Except Fault (List ScopeId) := do
  let start := (u.scope.filter g.contains).getD g.root
  let spaces ← g.lookup .space u.name [] start
  if u.namespaceOnly then return spaces
  return addNewIds spaces (← g.lookup .type u.name [] start)

end ScopeAtlas
