import ScopeAtlas.Lookup.Call

namespace ScopeAtlas

inductive EdgeKind
  | calls
  | inherits
deriving DecidableEq, Repr, Inhabited

namespace EdgeKind

def text : EdgeKind → String
  | calls => "calls"
  | inherits => "inherits"

def all : List EdgeKind := [calls, inherits]

def parse (text : String) : Except Error EdgeKind :=
  match Text.foldCase text with
  | "calls" | "call" => .ok calls
  | "inherits" | "inherit" | "extends" => .ok inherits
  | _ => .error (.unknownEdgeKind text)

end EdgeKind

-- How many uses gave a link is counted in words of 64 bits, which wrap around; the theory also counts in numbers.
structure Edge (Count : Type) where
  source : ScopeId
  target : ScopeId
  kind : EdgeKind
  count : Count
deriving DecidableEq, Repr, Inhabited

variable {Count : Type}

namespace Edge

def single [One Count] (source target : ScopeId) (kind : EdgeKind) : Edge Count := { source, target, kind, count := 1 }

def sameLink (a b : Edge Count) : Bool := a.source == b.source && a.target == b.target && a.kind == b.kind

def reversed (e : Edge Count) : Edge Count := { e with source := e.target, target := e.source }

def compare (a b : Edge Count) : Ordering :=
  (Ord.compare a.source b.source).then <| (Ord.compare a.target b.target).then (Ord.compare a.kind.text b.kind.text)

def foldInto [Add Count] (e : Edge Count) : List (Edge Count) → List (Edge Count)
  | [] => []
  | known :: rest =>
    if known.sameLink e then { known with count := known.count + e.count } :: rest else known :: e.foldInto rest

end Edge

abbrev EdgeIndex (Count : Type) := List (ScopeId × List (Edge Count))

namespace EdgeIndex

def edgesAt (index : EdgeIndex Count) (id : ScopeId) : List (Edge Count) := (index.lookup id).getD []

def alter (id : ScopeId) (change : List (Edge Count) → List (Edge Count)) : EdgeIndex Count → EdgeIndex Count
  | [] => [(id, change [])]
  | (key, edges) :: rest =>
    if key = id then (key, change edges) :: rest else (key, edges) :: alter id change rest

end EdgeIndex

structure CallGraph (Count : Type) where
  outgoing : EdgeIndex Count := []
  incoming : EdgeIndex Count := []
deriving Repr

namespace CallGraph

def edgesFrom (g : CallGraph Count) (id : ScopeId) : List (Edge Count) := g.outgoing.edgesAt id

def edgesTo (g : CallGraph Count) (id : ScopeId) : List (Edge Count) := g.incoming.edgesAt id

-- Adds an edge at both of its ends. Whether its link is known is seen at the source alone: if so, its count joins the
-- one that is kept there, and the one at the target if there is one.
def addEdge [Add Count] (g : CallGraph Count) (e : Edge Count) : CallGraph Count :=
  let change := if (g.edgesFrom e.source).any (·.sameLink e) then e.foldInto else (· ++ [e])
  { outgoing := g.outgoing.alter e.source change, incoming := g.incoming.alter e.target change }

def ofEdges [Add Count] (edges : List (Edge Count)) : CallGraph Count := edges.foldl addEdge {}

def targets (g : CallGraph Count) (kind : EdgeKind) (id : ScopeId) : List ScopeId :=
  ((g.edgesFrom id).filter (·.kind == kind)).map (·.target)

def sources (g : CallGraph Count) (kind : EdgeKind) (id : ScopeId) : List ScopeId :=
  ((g.edgesTo id).filter (·.kind == kind)).map (·.source)

def callers (g : CallGraph Count) : ScopeId → List ScopeId := g.sources .calls

def callees (g : CallGraph Count) : ScopeId → List ScopeId := g.targets .calls

def subtypes (g : CallGraph Count) : ScopeId → List ScopeId := g.sources .inherits

def supertypes (g : CallGraph Count) : ScopeId → List ScopeId := g.targets .inherits

def edges (g : CallGraph Count) : List (Edge Count) := g.outgoing.flatMap (·.2)

def sortedEdges (g : CallGraph Count) : List (Edge Count) := g.edges.mergeSort fun a b => (a.compare b).isLE

def fresh (seen : List ScopeId) : List ScopeId → List ScopeId
  | [] => []
  | id :: rest => if seen.contains id then fresh seen rest else id :: fresh (id :: seen) rest

-- Goes against the direction of the edges from a frontier, level by level.
def impactFrom (g : CallGraph Count) : (depth : Nat) → (seen frontier : List ScopeId) → List ScopeId
  | 0, _, _ => []
  | depth + 1, seen, frontier =>
    match fresh seen (frontier.flatMap fun id => (g.edgesTo id).map (·.source)) with
    | [] => []
    | found => found ++ g.impactFrom depth (seen ++ found) found

def impact (g : CallGraph Count) (id : ScopeId) (depth : Nat) : List ScopeId := g.impactFrom depth [id] [id]

-- The method whose code a scope is part of: itself or the nearest around it, with only blocks between.
def owningMethod? (g : Graph) (id : ScopeId) : Except Fault (Option ScopeId) := do
  match ← g.firstWith? (·.category != .block) (g.ancestorsAndSelf id) with
  | none => return none
  | some owner => return if (← g.scope owner).category == .method then some owner else none

def edgesOf [One Count] (g : Graph) (id : ScopeId) (s : Scope) : Except Fault (List (Edge Count)) :=
  match s.category with
  | .method => do
    -- a call inside a nested method or local type belongs to that one
    let own ← (← g.callsWithin id).filterM fun call => return (← owningMethod? g call.scope) == some id
    let callees ← own.mapM (·.candidates g)
    return callees.flatten.map fun target => .single id target .calls
  | .type => return (← g.parents id).map fun target => .single id target .inherits
  | _ => .ok []

def build [Add Count] [One Count] (g : Graph) : Except Fault (CallGraph Count) := do
  let edges ← g.scopes.mapM fun (id, s) => edgesOf g id s
  return ofEdges edges.flatten

structure Stats where
  callEdges : Nat
  inheritsEdges : Nat
  callers : Nat
deriving DecidableEq, Repr

def stats (g : CallGraph Count) : Stats where
  callEdges := (g.edges.filter (·.kind == .calls)).length
  inheritsEdges := (g.edges.filter (·.kind == .inherits)).length
  callers := (g.outgoing.filter fun (_, edges) => edges.any (·.kind == .calls)).length

def Stats.render (s : Stats) : String :=
  s!"Call Graph Statistics:\n  Calling methods: {s.callers}\n  Edges: {s.callEdges} calls, {s.inheritsEdges} inherits\n"

end CallGraph

end ScopeAtlas
