import ScopeAtlas.Graph.Navigate

namespace ScopeAtlas

-- Retired ids, each with the id it was folded into.
abbrev Forwarding := List (ScopeId × ScopeId)

namespace Forwarding

def followWithin (forward : Forwarding) : (bound : Nat) → ScopeId → ScopeId
  | 0, id => id
  | bound + 1, id =>
    match forward.lookup id with
    | some next => followWithin forward bound next
    | none => id

def survivor (forward : Forwarding) (id : ScopeId) : ScopeId := forward.followWithin (forward.length + 1) id

end Forwarding

structure Uniting extends Change where
  forward : Forwarding := []

namespace Graph

def denoteSame (g : Graph) (a b : ScopeId) : Bool :=
  match g.get? a, g.get? b with
  | some x, some y => x.sameEntity y
  | _, _ => false

def partner? (g : Graph) (parent child : ScopeId) : Option ScopeId :=
  (g.children parent).find? fun sibling => sibling != child && g.denoteSame sibling child

def rebind (rename : ScopeId → ScopeId) (g : Graph) : Graph :=
  { g with slots := g.slots.map (·.map (·.rebind rename)) }

-- Folds the content of a scope into another and empties its slot; its children are left without a parent to list
-- them.
def fold (g : Graph) (into source : ScopeId) (theirs : Scope) : Graph :=
  let kept := g.setSlot source none
  match kept.get? into with
  | some mine =>
    { kept.setSlot into (some (mine.unite theirs)) with
      conflicts := kept.conflicts ++ mine.kind.conflicts (g.fullName into) theirs.kind }
  | none => kept

end Graph

namespace Uniting

def need (ids : List ScopeId) (u : Uniting) : Uniting := { u with toChange := u.toChange.need ids }

-- Places a scope that has no parent: it is joined with its partner under `parent`, or else becomes a child there.
def placeWith (join : ScopeId → ScopeId → Uniting → Uniting) (parent child : ScopeId) (u : Uniting) :
    ScopeId × Uniting :=
  match u.graph.partner? parent child with
  | some partner => (partner, join partner child u)
  | none => (child, { u.need [child, parent] with graph := u.graph.attach parent child })

def moveWith (join : ScopeId → ScopeId → Uniting → Uniting) (parent : ScopeId) (u : Uniting) (child : ScopeId) :
    Uniting :=
  if u.graph.contains child then
    (placeWith join parent child
      { u with graph := u.graph.modify child fun s => { s with parent := none } }).2
  else u

def retire (into source : ScopeId) (theirs : Scope) (u : Uniting) : Uniting :=
  need [into] { u with graph := u.graph.fold into source theirs, forward := (source, into) :: u.forward }

-- Folds `source` with its children into `into`, `depth` levels down. The ancestors of `into` are needed for its full
-- name.
def joinWithin : (depth : Nat) → (into source : ScopeId) → Uniting → Uniting
  | 0, _, _, u => u
  | depth + 1, into, source, u =>
    let u := u.need (u.graph.ancestors into)
    match u.graph.get? source with
    | none => u
    | some theirs => theirs.children.foldl (moveWith (joinWithin depth) into) (u.retire into source theirs)

-- Folds a scope into another. Each level retires a scope, so there are no more levels than slots.
def join (into source : ScopeId) (u : Uniting) : Uniting := joinWithin u.graph.size into source u

def place (parent child : ScopeId) (u : Uniting) : ScopeId × Uniting := placeWith join parent child u

def settle (u : Uniting) : Change :=
  if u.forward.isEmpty then u.toChange else u.toChange.map (·.rebind u.forward.survivor)

end Uniting

namespace Change

-- Moves a scope under a parent, where it may be united with a child that denotes the same. Answers with the id under
-- which it lives on.
def adopt (parent child : ScopeId) (c : Change) : ScopeId × Change :=
  let (id, u) := Uniting.place parent child { c.map (·.detach child) with }
  (id, u.settle)

def adoptAll (parent : ScopeId) (orphans : List ScopeId) (c : Change) : Change :=
  orphans.foldl (fun c orphan => (c.adopt parent orphan).2) c

end Change

namespace Graph

def adopt (g : Graph) (parent child : ScopeId) : ScopeId × Graph :=
  let (id, c) := Change.adopt parent child { graph := g }
  (id, c.graph)

def addChild (g : Graph) (parent child : ScopeId) : Except Fault (ScopeId × Graph) := do
  let (id, c) := Change.adopt parent child { graph := g }
  return (id, ← c.outcome)

def uniting (g : Graph) (into source : ScopeId) : Change :=
  (Uniting.join into source { graph := g.detach source }).settle

-- Unites two scopes of one category and name, even where they differ otherwise. Others are refused.
def unify (g : Graph) (into source : ScopeId) : Except Fault (Except Error Graph) :=
  match g.get? into, g.get? source with
  | some mine, some theirs =>
    if into = source ∨ mine.category ≠ theirs.category ∨ mine.name ≠ theirs.name then
      .ok (.error (.unifyDifferent into mine.signature source theirs.signature))
    else if source ∈ g.ancestors into then .ok (.error (.unifyIntoDescendant source into))
    else (g.uniting into source).outcome.map .ok
  | _, _ => .ok (.error (.unifyRetired into source))

def absorb (g other : Graph) : Graph :=
  { g with
    slots := g.slots ++ (other.rebind (· + g.size)).slots
    conflicts := g.conflicts ++ other.conflicts }

-- Appends the second graph and folds its root into that of the first.
def merging (g other : Graph) : Change :=
  (Uniting.join g.root (other.root + g.size) { graph := g.absorb other }).settle

def mergeLive (g other : Graph) : Graph := (g.merging other).graph

def merge (g other : Graph) : Except Fault Graph := (g.merging other).outcome

end Graph

end ScopeAtlas
