namespace ScopeAtlas.Text.Json

def hexDigits (n : Nat) : List Char :=
  let digits := Nat.toDigits 16 n
  List.replicate (4 - digits.length) '0' ++ digits

def escapedChar (c : Char) : List Char :=
  match c with
  | '"' => ['\\', '"']
  | '\\' => ['\\', '\\']
  | '\n' => ['\\', 'n']
  | '\r' => ['\\', 'r']
  | '\t' => ['\\', 't']
  | '\x08' => ['\\', 'b']
  | '\x0c' => ['\\', 'f']
  | _ => if c.toNat < 0x20 then ['\\', 'u'] ++ hexDigits c.toNat else [c]

def string (text : String) : String := String.ofList (['"'] ++ text.toList.flatMap escapedChar ++ ['"'])

def bracketed (left right indent : String) : List String → String
  | [] => left ++ right
  | items =>
    left ++ "\n" ++ ",\n".intercalate (items.map fun item => indent ++ "  " ++ item) ++ "\n" ++ indent ++ right

def list (indent : String) (items : List String) : String := bracketed "[" "]" indent items

def record (indent : String) (fields : List (String × String)) : String :=
  bracketed "\x7b" "\x7d" indent (fields.map fun (name, value) => string name ++ ": " ++ value)

end ScopeAtlas.Text.Json
