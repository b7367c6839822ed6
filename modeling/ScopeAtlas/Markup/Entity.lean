namespace ScopeAtlas.Entity

def digitValue (base : Nat) (c : Char) : Option Nat :=
  let code := c.toNat
  let value :=
    if '0'.toNat ≤ code && code ≤ '9'.toNat then code - '0'.toNat
    else if 'a'.toNat ≤ code && code ≤ 'f'.toNat then code - 'a'.toNat + 10
    else if 'A'.toNat ≤ code && code ≤ 'F'.toNat then code - 'A'.toNat + 10
    else base
  if value < base then some value else none

def number? (base : Nat) : List Char → Option Nat
  | [] => none
  | cs => cs.foldlM (fun total c => (digitValue base c).map (total * base + ·)) 0

-- The character with this number. NUL and the surrogates have none.
def charOf? (number : Nat) : Option Char :=
  if number ≠ 0 ∧ number.isValidChar then some (Char.ofNat number) else none

def named? (name : List Char) : Option Char :=
  match name with
  | ['l', 't'] => some '<'
  | ['g', 't'] => some '>'
  | ['a', 'm', 'p'] => some '&'
  | ['a', 'p', 'o', 's'] => some '\''
  | ['q', 'u', 'o', 't'] => some '"'
  | '#' :: 'x' :: digits => (number? 16 digits).bind charOf?
  | '#' :: digits => (number? 10 digits).bind charOf?
  | _ => none

-- Replaces the entities; `pending` holds, last character first, the name read since an open `&`. An `&` that no `;`
-- ends before the next `&`, and an unknown name, make the whole text unreadable.
def decodeFrom : Option (List Char) → List Char → Option (List Char)
  | none, [] => some []
  | some _, [] => none
  | none, c :: rest =>
    if c = '&' then decodeFrom (some []) rest else (decodeFrom none rest).map (c :: ·)
  | some pending, c :: rest =>
    if c = '&' then none
    else if c = ';' then (named? pending.reverse).bind fun named => (decodeFrom none rest).map (named :: ·)
    else decodeFrom (some (c :: pending)) rest

def decode (cs : List Char) : Option (List Char) := decodeFrom none cs

end ScopeAtlas.Entity
