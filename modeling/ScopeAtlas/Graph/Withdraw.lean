import ScopeAtlas.Graph.Unite

namespace ScopeAtlas

def Graph.outsiders (g : Graph) (file : String) (id : ScopeId) : List ScopeId :=
  (g.children id).filter fun child => (g.get? child).any (·.isOutside file)

namespace Change

def rescueWith (withdraw : ScopeId → Change → List ScopeId × Change) (c : Change) (child : ScopeId) : Change :=
  let (orphans, c) := withdraw child (c.map (·.detach child))
  c.adoptAll child orphans

-- Cuts the children loose that are also known from outside `file`. All children are needed for that.
def rescueAllWith (withdraw : ScopeId → Change → List ScopeId × Change) (file : String) (id : ScopeId) (c : Change) :
    List ScopeId × Change :=
  let loose := c.graph.outsiders file id
  (loose, loose.foldl (rescueWith withdraw) (c.need (c.graph.children id)))

def pruneWith (withdraw : ScopeId → Change → List ScopeId × Change) (found : List ScopeId × Change) (child : ScopeId) :
    List ScopeId × Change :=
  let (orphans, c) := withdraw child found.2
  (found.1 ++ orphans, c)

def trim (file : String) (id : ScopeId) (c : Change) : Change := (c.need [id]).map (·.modify id (·.withdraw file))

-- Withdraws `file` from a scope and all below it, `depth` levels down. Answers with the scopes cut loose.
def withdrawWithin (file : String) : (depth : Nat) → ScopeId → Change → List ScopeId × Change
  | 0, _, c => ([], c)
  | depth + 1, id, c =>
    match c.graph.get? id with
    | none => ([], c)
    | some s =>
      if !s.isIn file then ([], c)
      else if s.isOnlyIn file then
        let (loose, c) := c.rescueAllWith (withdrawWithin file depth) file id
        (loose, c.map fun g => (g.detach id).discard id)
      else
        let (orphans, c) := s.children.foldl (pruneWith (withdrawWithin file depth)) ([], c)
        ([], (c.adoptAll id orphans).trim file id)

def withdrawFrom (file : String) (id : ScopeId) (c : Change) : List ScopeId × Change :=
  withdrawWithin file c.graph.size id c

end Change

namespace Graph

def clearRoot (g : Graph) : Graph :=
  let g := (g.children g.root).foldl discard g
  g.modify g.root fun s => { s with children := [], declared := [], calls := [], locations := [] }

-- Withdraws a file from a graph. The root itself stays, also when no other file is left. Answers with the scopes cut
-- loose, which are in need of a parent.
def withdrawing (g : Graph) (file : String) : List ScopeId × Change :=
  let c : Change := Change.need [g.root] { graph := g }
  if (g.get? g.root).any (·.isOnlyIn file) then
    let (loose, c) := c.rescueAllWith (Change.withdrawFrom file) file g.root
    (loose, (c.need [g.root]).map clearRoot)
  else c.withdrawFrom file g.root

def rehoming (g : Graph) (file : String) : Change :=
  let (orphans, c) := g.withdrawing file
  c.adoptAll c.graph.root orphans

def withdraw (g : Graph) (file : String) : List ScopeId × Graph :=
  let (loose, c) := g.withdrawing file
  (loose, c.graph)

def removeFile (g : Graph) (file : String) : Except Fault (List ScopeId × Graph) := do
  let (loose, c) := g.withdrawing file
  return (loose, ← c.outcome)

def withdrawAndRehome (g : Graph) (file : String) : Graph := (g.rehoming file).graph

def removeFileAndRehome (g : Graph) (file : String) : Except Fault Graph := (g.rehoming file).outcome

end Graph

end ScopeAtlas
