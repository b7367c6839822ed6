import ScopeAtlas.Settings.Datum

namespace ScopeAtlas.Toml

def isBlank (c : Char) : Bool := c == ' ' || c == '\t'

def isPlain (c : Char) : Bool := c == '\t' || (0x20 ≤ c.toNat && c.toNat != 0x7f)

def skipBlanks (cs : List Char) : List Char := cs.dropWhile isBlank

def lineEnd? : List Char → Option (List Char)
  | '\n' :: rest | '\r' :: '\n' :: rest => some rest
  | _ => none

def restOfLine? (cs : List Char) : Option (List Char) :=
  let cs := match skipBlanks cs with
    | '#' :: rest => rest.dropWhile isPlain
    | cs => cs
  if cs.isEmpty then some [] else lineEnd? cs

def skipFiller (inComment : Bool) : List Char → Option (List Char)
  | [] => some []
  | '\n' :: rest => skipFiller false rest
  | '\r' :: rest => if rest.head? == some '\n' then skipFiller inComment rest else none
  | c :: rest =>
    if inComment then if isPlain c then skipFiller true rest else none
    else if c == '#' then skipFiller true rest
    else if isBlank c then skipFiller false rest
    else some (c :: rest)

def digitValue? (c : Char) : Option Nat :=
  if c.isDigit then some (c.toNat - '0'.toNat)
  else if 'a' ≤ c && c ≤ 'f' then some (c.toNat - 'a'.toNat + 10)
  else if 'A' ≤ c && c ≤ 'F' then some (c.toNat - 'A'.toNat + 10)
  else none

def number? (base : Nat) (cs : List Char) : Option Nat :=
  cs.foldlM (fun total c => do
    let d ← digitValue? c
    if d < base then some (total * base + d) else none) 0

def numbered? (length : Nat) (cs : List Char) : Option (Char × List Char) := do
  let digits := cs.take length
  if digits.length < length then none
  let n ← number? 16 digits
  if n.isValidChar then some (Char.ofNat n, cs.drop length) else none

def escape? : List Char → Option (Char × List Char)
  | 'b' :: rest => some ('\x08', rest)
  | 't' :: rest => some ('\t', rest)
  | 'n' :: rest => some ('\n', rest)
  | 'f' :: rest => some ('\x0c', rest)
  | 'r' :: rest => some ('\r', rest)
  | '"' :: rest => some ('"', rest)
  | '\\' :: rest => some ('\\', rest)
  | 'u' :: rest => numbered? 4 rest
  | 'U' :: rest => numbered? 8 rest
  | _ => none

def basicText : (fuel : Nat) → List Char → Option (List Char × List Char)
  | _, '"' :: rest => some ([], rest)
  | fuel + 1, '\\' :: rest => do
    let (c, rest) ← escape? rest
    let (text, rest) ← basicText fuel rest
    return (c :: text, rest)
  | fuel + 1, c :: rest => do
    if !isPlain c then none
    let (text, rest) ← basicText fuel rest
    return (c :: text, rest)
  | _, _ => none

def literalText (cs : List Char) : Option (List Char × List Char) :=
  let text := cs.takeWhile (· != '\x27')
  if text.all isPlain && text.length < cs.length then some (text, cs.drop (text.length + 1)) else none

def skipBlankLines : List Char → List Char
  | [] => []
  | '\r' :: '\n' :: rest => skipBlankLines rest
  | c :: rest => if isBlank c || c == '\n' then skipBlankLines rest else c :: rest

def skipFold (cs : List Char) : Option (List Char) := (lineEnd? (skipBlanks cs)).map skipBlankLines

-- A text of several lines after its opening quotes. Three quotes end it, and up to two more belong to it.
def longText (quote : Char) (hasEscapes : Bool) : (fuel : Nat) → List Char → Option (List Char × List Char)
  | 0, _ => none
  | _, [] => none
  | fuel + 1, c :: rest =>
    if c == quote then
      let quotes := (c :: rest).takeWhile (· == quote)
      if 3 ≤ quotes.length then
        if quotes.length ≤ 5 then some (quotes.drop 3, (c :: rest).drop quotes.length) else none
      else do
        let (text, rest) ← longText quote hasEscapes fuel rest
        return (c :: text, rest)
    else if hasEscapes && c == '\\' then
      match skipFold rest with
      | some rest => longText quote hasEscapes fuel rest
      | none => do
        let (c, rest) ← escape? rest
        let (text, rest) ← longText quote hasEscapes fuel rest
        return (c :: text, rest)
    else
      match lineEnd? (c :: rest) with
      | some rest => do
        let (text, rest) ← longText quote hasEscapes fuel rest
        return ('\n' :: text, rest)
      | none => do
        if !isPlain c then none
        let (text, rest) ← longText quote hasEscapes fuel rest
        return (c :: text, rest)

-- The line end right after the opening quotes is no part of a long text.
def longTextBody (quote : Char) (hasEscapes : Bool) (cs : List Char) : Option (List Char × List Char) :=
  let body := (lineEnd? cs).getD cs
  longText quote hasEscapes (body.length + 1) body

def shortText? : List Char → Option (List Char × List Char)
  | '"' :: rest => basicText rest.length rest
  | '\x27' :: rest => literalText rest
  | _ => none

def text? : List Char → Option (List Char × List Char)
  | '"' :: '"' :: '"' :: rest => longTextBody '"' true rest
  | '\x27' :: '\x27' :: '\x27' :: rest => longTextBody '\x27' false rest
  | cs => shortText? cs

def isBare (c : Char) : Bool := c.isAlphanum || c == '_' || c == '-'

def key? (cs : List Char) : Option (String × List Char) :=
  match shortText? cs with
  | some (text, rest) => some (String.ofList text, rest)
  | none =>
    let bare := cs.takeWhile isBare
    if bare.isEmpty then none else some (String.ofList bare, cs.drop bare.length)

def maxDepth : Nat := 79

def keyParts? : (fuel : Nat) → List Char → Option (List String × List Char)
  | 0, _ => none
  | fuel + 1, cs => do
    let (key, rest) ← key? (skipBlanks cs)
    match skipBlanks rest with
    | '.' :: rest =>
      let (keys, rest) ← keyParts? fuel rest
      return (key :: keys, rest)
    | rest => return ([key], rest)

def keyPath? (cs : List Char) : Option (List String × List Char) :=
  (keyParts? (cs.length + 1) cs).filter (·.1.length ≤ maxDepth)

def dropSign : List Char → List Char
  | '+' :: rest | '-' :: rest => rest
  | cs => cs

def groupedDigits? (isDigit : Char → Bool) : List Char → Option (List Char)
  | [] => none
  | [c] => if isDigit c then some [c] else none
  | c :: '_' :: rest => if isDigit c then (groupedDigits? isDigit rest).map (c :: ·) else none
  | c :: rest => if isDigit c then (groupedDigits? isDigit rest).map (c :: ·) else none

def decimalDigits? (cs : List Char) : Option (List Char) := do
  let digits ← groupedDigits? Char.isDigit cs
  if digits.head? == some '0' && 1 < digits.length then none else some digits

def integerIn? (base : Nat) (cs : List Char) : Option Int := do
  let digits ← groupedDigits? (fun c => (digitValue? c).any (· < base)) cs
  return Int.ofNat (← number? base digits)

def decimalInteger? (cs : List Char) : Option Int := do
  let n ← number? 10 (← decimalDigits? (dropSign cs))
  return if cs.head? == some '-' then -Int.ofNat n else Int.ofNat n

def writtenInteger? : List Char → Option Int
  | '0' :: 'x' :: rest => integerIn? 16 rest
  | '0' :: 'o' :: rest => integerIn? 8 rest
  | '0' :: 'b' :: rest => integerIn? 2 rest
  | cs => decimalInteger? cs

def integer? (cs : List Char) : Option Int :=
  (writtenInteger? cs).filter fun n => -Int.pow 2 63 ≤ n && n < Int.pow 2 63

def exponent? : List Char → Option Int
  | [] => some 0
  | c :: rest => do
    if c != 'e' && c != 'E' then none
    let n ← number? 10 (← groupedDigits? Char.isDigit (dropSign rest))
    return if rest.head? == some '-' then -Int.ofNat n else Int.ofNat n

-- The least number that is beyond the range of 64-bit floating point: half a step above the largest in range.
def floatLimit : Nat := Nat.pow 2 1024 - Nat.pow 2 970

-- The number written by `digits` times a power of ten reaches the limit. Powers that decide by themselves are not
-- computed.
def isBeyondFloat (digits : List Char) (power : Int) : Bool :=
  let n := (number? 10 digits).getD 0
  match power with
  | .ofNat up => n != 0 && (309 ≤ up || floatLimit ≤ n * Nat.pow 10 up)
  | .negSucc down => down + 309 < digits.length && floatLimit * Nat.pow 10 (down + 1) ≤ n

def decimal? (cs : List Char) : Option (List Char × Int) := do
  let isMark (c : Char) : Bool := c == '.' || c == 'e' || c == 'E'
  let written := cs.takeWhile (!isMark ·)
  let whole ← decimalDigits? written
  match cs.drop written.length with
  | [] => none
  | '.' :: rest =>
    let written := rest.takeWhile (!isMark ·)
    let places ← groupedDigits? Char.isDigit written
    return (whole ++ places, (← exponent? (rest.drop written.length)) - Int.ofNat places.length)
  | exponent => return (whole, ← exponent? exponent)

-- A number that is not an integer. One that is too large is refused, but not one that is too small.
def isFraction (cs : List Char) : Bool :=
  let unsigned := dropSign cs
  unsigned == ['i', 'n', 'f'] || unsigned == ['n', 'a', 'n'] ||
    (decimal? unsigned).any fun (digits, power) => cs.head? == some '-' || !isBeyondFloat digits power

def twoDigits? (low high : Nat) : List Char → Option (List Char)
  | a :: b :: rest => do
    let n ← number? 10 [a, b]
    if low ≤ n && n ≤ high then some rest else none
  | _ => none

def expect? (c : Char) : List Char → Option (List Char)
  | d :: rest => if c == d then some rest else none
  | [] => none

def daysIn (year month : Nat) : Nat :=
  if month == 2 then if year % 4 == 0 && (year % 100 != 0 || year % 400 == 0) then 29 else 28
  else if month == 4 || month == 6 || month == 9 || month == 11 then 30
  else 31

def date? (cs : List Char) : Option (List Char) := do
  let year ← number? 10 (cs.take 4)
  let rest ← expect? '-' (cs.drop 4)
  let month ← number? 10 (rest.take 2)
  let rest ← expect? '-' (← twoDigits? 1 12 rest)
  twoDigits? 1 (daysIn year month) rest

def time? (cs : List Char) : Option (List Char) := do
  let rest ← expect? ':' (← twoDigits? 0 23 cs)
  let rest ← expect? ':' (← twoDigits? 0 59 rest)
  match ← twoDigits? 0 60 rest with
  | '.' :: rest => if rest.head?.any Char.isDigit then some (rest.dropWhile Char.isDigit) else none
  | rest => some rest

def isOffset : List Char → Bool
  | [] | ['Z'] | ['z'] => true
  | '+' :: rest | '-' :: rest =>
    ((twoDigits? 0 23 rest).bind fun rest => (expect? ':' rest).bind (twoDigits? 0 59)) == some []
  | _ => false

def isMoment (cs : List Char) : Bool :=
  match date? cs with
  | some [] => true
  | some (c :: rest) => (c == 'T' || c == 't' || c == ' ') && (time? rest).any isOffset
  | none => time? cs == some []

-- A value without quotes or brackets; only a date may have a blank inside, before its time.
def scalar? (cs : List Char) : Option (Datum × List Char) := do
  let isPart (c : Char) : Bool := c.isAlphanum || c == '_' || c == '+' || c == '-' || c == '.' || c == ':'
  let word := cs.takeWhile isPart
  let rest := cs.drop word.length
  let (word, rest) := match date? word, rest with
    | some [], ' ' :: c :: later =>
      let time := (c :: later).takeWhile isPart
      if c.isDigit then (word ++ ' ' :: time, (c :: later).drop time.length) else (word, rest)
    | _, _ => (word, rest)
  let value ←
    match String.ofList word with
    | "true" => some (Datum.boolean true)
    | "false" => some (.boolean false)
    | _ =>
      match integer? word with
      | some n => some (.integer n)
      | none => if isFraction word then some .fraction else if isMoment word then some .moment else none
  return (value, rest)

abbrev ValueReader := List Char → Option (Datum × List Char)

def items? (value? : ValueReader) : (fuel : Nat) → List Char → Option (List Datum × List Char)
  | 0, _ => none
  | fuel + 1, cs => do
    match ← skipFiller false cs with
    | ']' :: rest => return ([], rest)
    | cs =>
      let (item, rest) ← value? cs
      match ← skipFiller false rest with
      | ']' :: rest => return ([item], rest)
      | ',' :: rest =>
        let (items, rest) ← items? value? fuel rest
        return (item :: items, rest)
      | _ => none

def pair? (value? : ValueReader) (cs : List Char) : Option (List String × Datum × List Char) := do
  let (path, rest) ← keyPath? cs
  let (value, rest) ← value? (skipBlanks (← expect? '=' rest))
  return (path, value, rest)

def entries? (value? : ValueReader) :
    (fuel : Nat) → Datum.Entries → List Char → Option (Datum.Entries × List Char)
  | 0, _, _ => none
  | fuel + 1, known, cs => do
    let (path, value, rest) ← pair? value? cs
    let known ← Datum.assign value path known
    match skipBlanks rest with
    | '\x7d' :: rest => return (known, rest)
    | ',' :: rest => entries? value? fuel known rest
    | _ => none

def valueWithin : (depth : Nat) → ValueReader
  | 0, cs =>
    match cs with
    | '"' :: _ | '\x27' :: _ => (text? cs).map fun (text, rest) => (.text (String.ofList text), rest)
    | _ => scalar? cs
  | depth + 1, cs =>
    match cs with
    | '[' :: rest => do
      let (items, rest) ← items? (valueWithin depth) (rest.length + 1) rest
      return (.list items false, rest)
    | '\x7b' :: rest =>
      match skipBlanks rest with
      | '\x7d' :: rest => some (.table .closed [], rest)
      | rest => do
        let (entries, rest) ← entries? (valueWithin depth) (rest.length + 1) [] rest
        return (.table .closed entries, rest)
    | _ => valueWithin depth cs

def header? (cs : List Char) : Option (Bool × List String × List Char) := do
  let (isSeries, cs) := match cs with
    | '[' :: rest => (true, rest)
    | _ => (false, cs)
  let (path, rest) ← keyPath? cs
  let rest ← expect? ']' rest
  let rest ← if isSeries then expect? ']' rest else some rest
  return (isSeries, path, rest)

def lines? : (fuel : Nat) → (table : List String) → Datum.Entries → List Char → Option Datum.Entries
  | 0, _, _, _ => none
  | fuel + 1, table, known, cs =>
    match skipBlanks cs with
    | [] => some known
    | '[' :: rest => do
      let (isSeries, path, rest) ← header? rest
      lines? fuel path (← Datum.openTable isSeries path known) (← restOfLine? rest)
    | c :: rest =>
      if c == '#' || c == '\n' || c == '\r' then do lines? fuel table known (← restOfLine? (c :: rest))
      else do
        let (path, value, rest) ← pair? (valueWithin maxDepth) (c :: rest)
        lines? fuel table (← Datum.alterAt (Datum.assign value path) table known) (← restOfLine? rest)

def parse? (text : String) : Option Datum :=
  let cs := match text.toList with
    | '\ufeff' :: rest => rest
    | cs => cs
  (lines? (cs.length + 1) [] [] cs).map (.table .header)

end ScopeAtlas.Toml
