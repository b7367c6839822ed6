namespace ScopeAtlas.Text

-- The characters with the Unicode property `White_Space`.
def isBlank (c : Char) : Bool :=
  let code := c.toNat
  (0x9 ≤ code && code ≤ 0xd) || code == 0x20 || code == 0x85 || code == 0xa0 || code == 0x1680 ||
    (0x2000 ≤ code && code ≤ 0x200a) || code == 0x2028 || code == 0x2029 || code == 0x202f || code == 0x205f ||
    code == 0x3000

def trimEnd (cs : List Char) : List Char :=
  (cs.reverse.dropWhile isBlank).reverse

def trim (text : String) : String :=
  String.ofList (trimEnd (text.toList.dropWhile isBlank))

-- The pieces between single blanks; two neighbouring blanks leave an empty piece.
def pieces : List Char → List (List Char)
  | [] => [[]]
  | c :: rest =>
    match pieces rest with
    | [] => [[c]]
    | piece :: later => if isBlank c then [] :: piece :: later else (c :: piece) :: later

def words (text : String) : List String :=
  ((pieces text.toList).filter fun piece => !piece.isEmpty).map String.ofList

end ScopeAtlas.Text
