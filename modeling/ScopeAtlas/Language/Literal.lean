import ScopeAtlas.Text.Blank

namespace ScopeAtlas

inductive LiteralKind
  | boolean
  | character
  | number
  | string
  | null
deriving DecidableEq, Repr, Inhabited

namespace LiteralKind

def text : LiteralKind → String
  | boolean => "boolean"
  | character => "char"
  | number => "number"
  | string => "string"
  | null => "null"

def ofText? : String → Option LiteralKind
  | "boolean" => some .boolean
  | "char" => some .character
  | "number" => some .number
  | "string" => some .string
  | "null" => some .null
  | _ => none

end LiteralKind

structure NumberShape where
  isFloating : Bool := false
  suffix : String := ""
deriving DecidableEq, Repr, Inhabited

namespace NumberShape

def isGroupedDigit (c : Char) : Bool := c.isDigit || c == '_' || c == '\''

def isGroupedHexDigit (c : Char) : Bool :=
  isGroupedDigit c || ('a' ≤ c && c ≤ 'f') || ('A' ≤ c && c ≤ 'F')

def isIntegerSuffix (c : Char) : Bool := c == 'u' || c == 'U' || c == 'l' || c == 'L'

def lower (cs : List Char) : String := String.ofList (cs.map Char.toLower)

def hexSuffix? : List Char → Option (List Char)
  | '0' :: x :: rest =>
    let suffix := rest.dropWhile isGroupedHexDigit
    if (x = 'x' ∨ x = 'X') ∧ suffix.length < rest.length ∧ suffix.all isIntegerSuffix then some suffix else none
  | _ => none

def afterExponent? : List Char → Option (List Char)
  | e :: rest =>
    let digits := match rest with
      | '+' :: digits | '-' :: digits => digits
      | _ => rest
    let after := digits.dropWhile Char.isDigit
    if (e = 'e' ∨ e = 'E') ∧ after.length < digits.length then some after else none
  | [] => none

-- A decimal literal taken apart: whether its digits hold a point, whether an exponent follows them, and the
-- letters at its end.
def decimalParts? (cs : List Char) : Option (Bool × Bool × List Char) :=
  let whole := cs.dropWhile isGroupedDigit
  let (point, rest) := match whole with
    | '.' :: fraction => (true, fraction.dropWhile isGroupedDigit)
    | _ => (false, whole)
  match afterExponent? rest with
  | some suffix => if suffix.all Char.isAlpha then some (point, true, suffix) else none
  | none => if rest.all Char.isAlpha then some (point, false, rest) else none

-- The letters that make a decimal literal floating without a point or an exponent.
def floatingSuffixes : List String := ["f", "d", "m"]

def ofText (text : String) : NumberShape :=
  let cs := (Text.trim text).toList
  match hexSuffix? cs with
  | some suffix => { suffix := lower suffix }
  | none =>
    match decimalParts? cs with
    | some (point, exponent, suffix) =>
      { isFloating := point || exponent || floatingSuffixes.contains (lower suffix), suffix := lower suffix }
    | none => {}

end NumberShape

end ScopeAtlas
