import ScopeAtlas.Scope.Union

namespace ScopeAtlas

inductive Fault
  -- The id names no scope, or one that was united with another or removed.
  | notLive (id : ScopeId)
  -- The parents of a type are defined through themselves without end.
  | unbounded
deriving DecidableEq, Repr

def Fault.message : Fault → String
  | .notLive id => s!"scope #{id} is not live in this graph"
  | .unbounded => "the parents of a type are defined through themselves"

structure Graph where
  slots : Array (Option Scope)
  root : ScopeId
  conflicts : List Conflict := []
deriving Inhabited

namespace Graph

def empty : Graph where
  slots := #[some .global]
  root := 0

def size (g : Graph) : Nat := g.slots.size

def get? (g : Graph) (id : ScopeId) : Option Scope := (g.slots[id]?).join

def contains (g : Graph) (id : ScopeId) : Bool := (g.get? id).isSome

def scope (g : Graph) (id : ScopeId) : Except Fault Scope :=
  match g.get? id with
  | some s => .ok s
  | none => .error (.notLive id)

def scopes (g : Graph) : List (ScopeId × Scope) :=
  g.slots.toList.zipIdx.filterMap fun (slot, id) => slot.map (id, ·)

def len (g : Graph) : Nat := g.scopes.length

def setSlot (g : Graph) (id : ScopeId) (slot : Option Scope) : Graph :=
  { g with slots := g.slots.setIfInBounds id slot }

def modify (g : Graph) (id : ScopeId) (change : Scope → Scope) : Graph :=
  match g.get? id with
  | some s => g.setSlot id (some (change s))
  | none => g

def insert (g : Graph) (s : Scope) : ScopeId × Graph := (g.size, { g with slots := g.slots.push (some s) })

def parent? (g : Graph) (id : ScopeId) : Option ScopeId := (g.get? id).bind (·.parent)

def children (g : Graph) (id : ScopeId) : List ScopeId :=
  match g.get? id with
  | some s => s.children
  | none => []

def attach (g : Graph) (parent child : ScopeId) : Graph :=
  (g.modify child fun s => { s with parent := some parent }).modify parent fun s =>
    { s with children := s.children ++ [child] }

def forgetChild (g : Graph) (parent child : ScopeId) : Graph :=
  g.modify parent fun s => { s with children := s.children.filter (· != child) }

def detach (g : Graph) (id : ScopeId) : Graph :=
  (match g.parent? id with
    | some parent => g.forgetChild parent id
    | none => g).modify id fun s => { s with parent := none }

def discardWithin : (depth : Nat) → ScopeId → Graph → Graph
  | 0, _, g => g
  | depth + 1, id, g =>
    match g.get? id with
    | none => g
    | some s => s.children.foldl (fun g child => discardWithin depth child g) (g.setSlot id none)

-- Drops a scope with all below it. Each level empties a slot, so there are no more levels than slots.
def discard (g : Graph) (id : ScopeId) : Graph := discardWithin g.size id g

end Graph

-- A graph in the course of a change, with the first scope that the change has needed and that was not live.
structure Change where
  graph : Graph
  missing : Option ScopeId := none

namespace Change

def need (ids : List ScopeId) (c : Change) : Change :=
  { c with missing := c.missing <|> ids.find? fun id => !c.graph.contains id }

def map (f : Graph → Graph) (c : Change) : Change := { c with graph := f c.graph }

def outcome (c : Change) : Except Fault Graph :=
  match c.missing with
  | some id => .error (.notLive id)
  | none => .ok c.graph

end Change

end ScopeAtlas
