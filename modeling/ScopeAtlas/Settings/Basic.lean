import ScopeAtlas.Codebase
import ScopeAtlas.Settings.Toml

namespace ScopeAtlas

structure TagAdditions where
  containers : List String := []
  types : List String := []
  methods : List String := []
  namespaces : List String := []
  declarations : List String := []
  references : List String := []
  transparent : List String := []
deriving DecidableEq, Repr

structure Settings where
  workers : Option Nat := none
  languages : List (String × TagAdditions) := []
deriving DecidableEq, Repr

inductive SettingsRefusal
  | malformed
  | alreadyThere
  | tooLarge
deriving DecidableEq, Repr

namespace TagAdditions

def fields (a : TagAdditions) : List (String × List String) :=
  [("containers", a.containers), ("types", a.types), ("methods", a.methods), ("namespaces", a.namespaces),
    ("declarations", a.declarations), ("references", a.references), ("transparent", a.transparent)]

def ofFields? (field : String → Option (List String)) : Option TagAdditions := do
  return {
    containers := ← field "containers"
    types := ← field "types"
    methods := ← field "methods"
    namespaces := ← field "namespaces"
    declarations := ← field "declarations"
    references := ← field "references"
    transparent := ← field "transparent" }

def extend (a : TagAdditions) (p : Profile) : Profile :=
  { p with
    containers := p.containers ++ a.containers
    types := p.types ++ a.types
    methods := p.methods ++ a.methods
    namespaces := p.namespaces ++ a.namespaces
    declarations := p.declarations ++ a.declarations
    references := p.references ++ a.references
    transparent := p.transparent ++ a.transparent }

end TagAdditions

namespace Datum

def text? : Datum → Option String
  | .text value => some value
  | _ => none

def texts? : Datum → Option (List String)
  | .list items _ => items.mapM text?
  | _ => none

def count? : Datum → Option Nat
  | .integer value => if 0 ≤ value && value < Int.pow 2 64 then some value.toNat else none
  | _ => none

-- The values of a record by name. It may also be written as a list of the values in the order of the names; whether
-- more values than names are let pass is for the format to say. A date or time is a record without any of the names.
def record? (names : List String) (allowsMore : Bool) : Datum → Option Entries
  | .table _ entries => some entries
  | .list items _ => if items.length ≤ names.length || allowsMore then some (names.zip items) else none
  | .moment => some []
  | _ => none

def tagAdditions? (allowsMore : Bool) (d : Datum) : Option TagAdditions := do
  let entries ← d.record? (({} : TagAdditions).fields.map (·.1)) allowsMore
  TagAdditions.ofFields? fun name =>
    match entries.lookup name with
    | some d => d.texts?
    | none => some []

def languages? (allowsMore : Bool) : Datum → Option (List (String × TagAdditions))
  | .table _ entries => entries.mapM fun (name, d) => return (name, ← d.tagAdditions? allowsMore)
  | _ => none

def workers? : Datum → Option (Option Nat)
  | .null => some none
  | d => d.count?.map some

-- A list that stands for a record names every value without which there is no record.
def isEmptyList : Datum → Bool
  | .list [] _ => true
  | _ => false

def settings? (allowsMore : Bool) (d : Datum) : Option Settings := do
  if d.isEmptyList then none
  let entries ← d.record? ["workers", "languages"] allowsMore
  let workers ← match entries.lookup "workers" with
    | some d => d.workers?
    | none => some none
  let languages ← match entries.lookup "languages" with
    | some d => d.languages? allowsMore
    | none => some []
  return { workers, languages }

end Datum

namespace Settings

def defaultPath : String := "srcscope.toml"

def workerCount? (s : Settings) : Option Nat := s.workers.filter (0 < ·)

def apply (s : Settings) (r : Registry) : Except Error Registry :=
  s.languages.foldlM (fun r (name, additions) =>
    match Language.parse name with
    | .error _ => .error (.unknownLanguageInSettings name)
    | .ok language =>
      if (r.get? language).isSome then .ok (r.update language additions.extend)
      else .error (.noProfileFor language.name)) r

def ofDatum? (d : Datum) : Option Settings := d.settings? false

def load (file : Option String) : Except SettingsRefusal (Option Settings) :=
  match file with
  | none => .ok none
  | some text =>
    match (Toml.parse? text).bind (·.settings? true) with
    | some s => .ok (some s)
    | none => .error .malformed

structure TextStyle where
  mark : Char
  isBlock : Bool
deriving DecidableEq, Repr

def longestRun (mark : Char) (cs : List Char) : Nat :=
  (cs.foldl (fun (run, longest) c => if c == mark then (run + 1, max longest (run + 1)) else (0, longest)) (0, 0)).2

-- The style of a text: double quotes if nothing is escaped, else single quotes, else the same two as a block; double
-- quotes with escapes are for what none of these can hold.
def textStyle (cs : List Char) : TextStyle :=
  let hasLines := cs.contains '\n'
  let hasBackslash := cs.contains '\\'
  let doubles := longestRun '"' cs
  let singles := longestRun '\x27' cs
  if !cs.all fun c => Toml.isPlain c || c == '\n' then ⟨'"', hasLines⟩
  else if !hasBackslash && doubles == 0 && !hasLines then ⟨'"', false⟩
  else if singles == 0 && !hasLines then ⟨'\x27', false⟩
  else if !hasBackslash && doubles ≤ 2 then ⟨'"', true⟩
  else if singles ≤ 2 then ⟨'\x27', true⟩
  else ⟨'"', hasLines⟩

def keyStyle (cs : List Char) : TextStyle :=
  let needsEscape (c : Char) : Bool := c == '"' || c == '\\'
  if cs.any needsEscape && cs.all fun c => Toml.isPlain c && c != '\x27' then ⟨'\x27', false⟩ else ⟨'"', false⟩

def escapedChar (c : Char) : List Char :=
  match c with
  | '\\' => ['\\', '\\']
  | '\n' => ['\\', 'n']
  | '\r' => ['\\', 'r']
  | '\t' => ['\\', 't']
  | '\x08' => ['\\', 'b']
  | '\x0c' => ['\\', 'f']
  | _ =>
    if Toml.isPlain c then [c]
    else
      let digits := (Nat.toDigits 16 c.toNat).map Char.toUpper
      ['\\', 'u'] ++ List.replicate (4 - digits.length) '0' ++ digits

-- A text inside double quotes. A block keeps its line ends, and up to two quotes in a row; `run` counts those just
-- written.
def escapedText (isBlock : Bool) (run : Nat) : List Char → List Char
  | [] => []
  | '"' :: rest =>
    if isBlock && run < 2 then '"' :: escapedText isBlock (run + 1) rest
    else '\\' :: '"' :: escapedText isBlock 0 rest
  | c :: rest =>
    (if isBlock && c == '\n' then [c] else escapedChar c) ++ escapedText isBlock 0 rest

def quoted (style : TextStyle) (cs : List Char) : String :=
  let marks := List.replicate (if style.isBlock then 3 else 1) style.mark
  let start := if style.isBlock && cs.contains '\n' then ['\n'] else []
  let body := if style.mark == '"' then escapedText style.isBlock 0 cs else cs
  String.ofList (marks ++ start ++ body ++ marks)

def renderText (text : String) : String := quoted (textStyle text.toList) text.toList

def renderKey (name : String) : String :=
  if !name.isEmpty && name.toList.all Toml.isBare then name else quoted (keyStyle name.toList) name.toList

def renderTexts : List String → String
  | [] => "[]"
  | [text] => "[" ++ renderText text ++ "]"
  | texts => "[\n" ++ String.join (texts.map fun text => "    " ++ renderText text ++ ",\n") ++ "]"

def renderAdditions (name : String) (a : TagAdditions) : String :=
  "[languages." ++ renderKey name ++ "]\n" ++
    String.join (a.fields.map fun (field, texts) => field ++ " = " ++ renderTexts texts ++ "\n")

def render (s : Settings) : String :=
  let workers := s.workers.toList.map fun n => "workers = " ++ toString n ++ "\n"
  let tables :=
    if s.languages.isEmpty then ["[languages]\n"] else s.languages.map fun (name, a) => renderAdditions name a
  "\n".intercalate (workers ++ tables)

def store (s : Settings) (file : Option String) (force : Bool) : Except SettingsRefusal String :=
  if file.isSome && !force then .error .alreadyThere
  else if s.workers.any (Nat.pow 2 63 ≤ ·) then .error .tooLarge
  else .ok s.render

end Settings

def Codebase.ofSettings (hash : String → String) (s : Settings) : Except Error Codebase := do
  return { tools := { registry := ← s.apply .builtin, hash } }

end ScopeAtlas
