import ScopeAtlas.Scope.Use

namespace ScopeAtlas

-- The parents of a type in written order: their uses, and in a second list, by position, the places that each of them is
-- written at. Parents may be listed without a record of their places, so the second list can be the shorter one. Of two
-- parents that offer the same member, the one listed first is preferred.
structure ParentColumns where
  uses : List TypeUse := []
  places : List (List Location) := []
deriving Repr, Inhabited

namespace ParentColumns

def fitted (c : ParentColumns) : List (List Location) :=
  (c.places.take c.uses.length).rightpad c.uses.length []

def add (use : TypeUse) (c : ParentColumns) : ParentColumns :=
  let (uses, places, position) :=
    match c.uses.findIdx? (·.sameQualifiedName use) with
    | some position => (c.uses, c.fitted, position)
    | none => (c.uses ++ [use], c.fitted ++ [[]], c.uses.length)
  { uses, places := places.modify position (Location.addNew · use.location.toList) }

-- Where the parent at a position is written; without a record, where its use stands.
def locationsAt (c : ParentColumns) (position : Nat) : List Location :=
  match c.places[position]? with
  | some (l :: others) => l :: others
  | _ => (c.uses[position]?.bind (·.location)).toList

def addWritten (use : TypeUse) (written : List Location) (c : ParentColumns) : ParentColumns :=
  let c := written.foldl (fun c l => c.add { use with location := some l }) c
  if written.isEmpty then c.add use else c

def unite (c other : ParentColumns) : ParentColumns :=
  other.uses.zipIdx.foldl (fun c (use, position) => c.addWritten use (other.locationsAt position)) c

def push (use : TypeUse) (written : List Location) (c : ParentColumns) : ParentColumns :=
  { uses := c.uses ++ [use], places := c.places ++ [written] }

-- Forgets what `file` wrote of a parent; one that no other file writes is not taken over.
def pushWithout (file : String) (use : TypeUse) (written : List Location) (c : ParentColumns) : ParentColumns :=
  if written.isEmpty then c.push use written
  else
    match written.filter (!·.isIn file) with
    | [] => c
    | left => c.push (if use.location.any (·.isIn file) then { use with location := left.head? } else use) left

def withdraw (file : String) (c : ParentColumns) : ParentColumns :=
  let written := (List.range c.uses.length).map c.locationsAt
  (c.uses.zip written).foldl (fun kept (use, written) => kept.pushWithout file use written) {}

def rebind (rename : ScopeId → ScopeId) (c : ParentColumns) : ParentColumns :=
  { c with uses := c.uses.map (·.rebind rename) }

end ParentColumns

end ScopeAtlas
