import ScopeAtlas.Error
import ScopeAtlas.Markup.Element

namespace ScopeAtlas

structure Location where
  file : String
  position : String
  line : Nat
  isReference : Bool := false
deriving DecidableEq, Repr, Inhabited

namespace Location

-- Both locations denote one element of one file; lines do not matter.
def sameNode (a b : Location) : Bool := a.file == b.file && a.position == b.position

def isIn (l : Location) (file : String) : Bool := l.file == file

def asReference (l : Location) : Location := { l with isReference := true }

-- By file, then position, then line; a definition before a reference.
def compare (a b : Location) : Ordering :=
  (Ord.compare a.file b.file).then <| (Ord.compare a.position b.position).then <|
    (Ord.compare a.line b.line).then (Ord.compare a.isReference b.isReference)

def definitionScheme : String := "srcml://"

def referenceScheme : String := "srcml-ref://"

def render (l : Location) : String :=
  (if l.isReference then referenceScheme else definitionScheme) ++ l.file ++ "#" ++ l.position ++ "@" ++
    toString l.line

def splitLast (mark : Char) : List Char → Option (List Char × List Char)
  | [] => none
  | c :: rest =>
    match splitLast mark rest with
    | some (before, after) => some (c :: before, after)
    | none => if c = mark then some ([], rest) else none

-- A line number: decimal digits after an optional plus, below 2³².
def line? (digits : List Char) : Option Nat :=
  let digits := match digits with
    | '+' :: rest => rest
    | _ => digits
  if digits.isEmpty || !digits.all Char.isDigit then none
  else
    let number := digits.foldl (fun total c => total * 10 + (c.toNat - '0'.toNat)) 0
    if number < Nat.pow 2 32 then some number else none

def after? (beginning text : List Char) : Option (List Char) :=
  if beginning.isPrefixOf text then some (text.drop beginning.length) else none

def parse (text : String) : Except Error Location := do
  let (rest, isReference) ←
    match after? referenceScheme.toList text.toList, after? definitionScheme.toList text.toList with
    | some rest, _ => .ok (rest, true)
    | none, some rest => .ok (rest, false)
    | none, none => .error (.unknownLocationScheme text)
  match splitLast '#' rest with
  | none => .error .locationWithoutFragment
  | some (file, fragment) =>
    match splitLast '@' fragment with
    | none => .error .fragmentWithoutLine
    | some (position, digits) =>
      match line? digits with
      | none => .error (.badLineNumber (String.ofList digits))
      | some line =>
        .ok { file := String.ofList file, position := String.ofList position, line, isReference }

def ofElement (file : String) (e : Element) (isReference : Bool) : Location where
  file := file
  position := e.position
  line := e.line
  isReference := isReference

def addNew (known : List Location) (found : List Location) : List Location :=
  found.foldl (fun known l => if known.any (·.sameNode l) then known else known ++ [l]) known

end Location

end ScopeAtlas
