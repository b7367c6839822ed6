import ScopeAtlas.Error
import ScopeAtlas.Markup.Position
import ScopeAtlas.Markup.Tag

namespace ScopeAtlas.Document

def byteOrderMark : Char := '\ufeff'

structure LineCursor where
  ahead : List Char
  offset : Nat := 0
  line : Nat := 1
deriving Repr

def advance (target : Nat) : List Char → Nat → Nat → LineCursor
  | [], offset, line => ⟨[], offset, line⟩
  | c :: rest, offset, line =>
    if offset < target then advance target rest (offset + c.utf8Size) (if c = '\n' then line + 1 else line)
    else ⟨c :: rest, offset, line⟩

def LineCursor.moveTo (cursor : LineCursor) (target : Nat) : LineCursor :=
  advance target cursor.ahead cursor.offset cursor.line

structure OpenElement where
  name : List Char
  tag : String
  attributes : Attributes
  line : Nat
  pieces : List Piece := []
deriving Repr

def OpenElement.close (o : OpenElement) : Element where
  tag := o.tag
  attributes := o.attributes
  line := o.line
  content := Content.ofPieces o.pieces.reverse

-- Neighbouring runs of text are one run.
def OpenElement.pushText (o : OpenElement) (run : String) : OpenElement :=
  match o.pieces with
  | .text before :: earlier => { o with pieces := .text (before ++ run) :: earlier }
  | pieces => { o with pieces := .text run :: pieces }

structure State where
  stack : List OpenElement := []
  root : Option Element := none
  cursor : LineCursor
deriving Repr

def State.attach (state : State) (e : Element) : Except Error State :=
  match state.stack, state.root with
  | parent :: outer, _ => .ok { state with stack := { parent with pieces := .element e :: parent.pieces } :: outer }
  | [], none => .ok { state with root := some e }
  | [], some _ => .error .secondRootElement

def State.pushText (state : State) (run : List Char) : State :=
  match state.stack with
  | [] => state
  | parent :: outer => { state with stack := parent.pushText (String.ofList run) :: outer }

def State.start (state : State) (offset : Nat) (inside : List Char) : Except Error State :=
  let cursor := state.cursor.moveTo offset
  match Tag.read? inside with
  | none => .error .malformedMarkup
  | some start =>
    let opened : OpenElement := { name := start.name, tag := start.tag, attributes := start.attributes, line := cursor.line }
    if start.closed then { state with cursor }.attach opened.close
    else .ok { state with cursor, stack := opened :: state.stack }

def State.finish (state : State) (inside : List Char) : Except Error State :=
  match state.stack with
  | [] => .error .malformedMarkup
  | o :: outer =>
    if Tag.endName inside = o.name then { state with stack := outer }.attach o.close
    else .error .malformedMarkup

def State.step (state : State) : Token → Except Error State
  | .startTag offset inside => state.start offset inside
  | .endTag inside => state.finish inside
  | .rawText run => .ok (state.pushText run)
  | .text run =>
    if state.stack.isEmpty then .ok state
    else
      match Entity.decode run with
      | none => .error .malformedMarkup
      | some decoded => .ok (state.pushText decoded)
  | .malformed => .error .malformedMarkup

def State.result (state : State) : Except Error Element :=
  match state.stack, state.root with
  | o :: _, _ => .error (.unclosedElement o.tag)
  | [], some root => .ok root
  | [], none => .error .noRootElement

def build (state : State) (tokens : List Token) : Except Error Element :=
  (tokens.foldlM State.step state).bind State.result

-- The tree of a document, without positions. A byte order mark is no part of the markup, and offsets are counted after
-- it, but the bytes among which line ends are counted include it.
def parse (text : String) : Except Error Element :=
  let whole := text.toList
  let body := if whole.head? = some byteOrderMark then whole.drop 1 else whole
  build { cursor := { ahead := whole } } (Token.scan body)

def parseRoot (text : String) : Except Error Element := do
  let root ← parse text
  if root.tag = "unit" then .ok root else .error (.notUnitRoot root.tag)

def parseUnit (text : String) : Except Error Element :=
  (parseRoot text).map Element.positioned

-- A unit in an archive that names no language takes the archive's.
def inheritLanguage (archive : Option String) (e : Element) : Element :=
  match e.attribute? "language", archive with
  | none, some language => { e with attributes := Attributes.set "language" language e.attributes }
  | _, _ => e

-- The units of an archive: those directly inside the root, or the root itself when there are none.
def parseArchive (text : String) : Except Error (List Element) :=
  (parseRoot text).map fun root =>
    match root.elementsNamed "unit" with
    | [] => [root.positioned]
    | units => units.map fun e => (inheritLanguage (root.attribute? "language") e).positioned

def readArchive (bytes : Option ByteArray) : Except Error (List Element) :=
  match bytes.bind String.fromUTF8? with
  | none => .error .unreadableFile
  | some text => parseArchive text

def unitOfSnippet (snippet file language : String) : Except Error Element :=
  parseUnit <| "<unit xmlns=\"http://www.sdml.info/srcML/src\" xmlns:op=\"http://www.sdml.info/srcML/operator\"" ++
    " xmlns:lit=\"http://www.sdml.info/srcML/literal\" xmlns:type=\"http://www.sdml.info/srcML/modifier\"" ++
    " language=\"" ++ language ++ "\" filename=\"" ++ file ++ "\">" ++ snippet ++ "</unit>"

end ScopeAtlas.Document
