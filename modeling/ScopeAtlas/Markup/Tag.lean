import ScopeAtlas.Markup.Element
import ScopeAtlas.Markup.Entity
import ScopeAtlas.Markup.Token

namespace ScopeAtlas.Tag

open Token (isSpace)

def localName (name : List Char) : List Char :=
  match name.dropWhile (· ≠ ':') with
  | [] => name
  | _ :: rest => rest

-- One attribute at the head of a text that starts with no blank, and what follows its closing quote. The name has at
-- least one character, whatever that is, and reaches to the next `=` or blank.
def attribute? : List Char → Option ((List Char × List Char) × List Char)
  | [] => none
  | first :: later =>
    let inName (c : Char) : Bool := c ≠ '=' && !isSpace c
    match (later.dropWhile inName).dropWhile isSpace with
    | '=' :: afterSign =>
      match afterSign.dropWhile isSpace with
      | quote :: afterQuote =>
        if quote = '"' ∨ quote = '\'' then
          match afterQuote.dropWhile (· ≠ quote) with
          | _ :: rest => some ((first :: later.takeWhile inName, afterQuote.takeWhile (· ≠ quote)), rest)
          | [] => none
        else none
      | [] => none
    | _ => none

theorem dropWhile_length_le (p : Char → Bool) (cs : List Char) : (cs.dropWhile p).length ≤ cs.length :=
  (List.dropWhile_sublist p).length_le

theorem attribute?_shorter {cs rest : List Char} {pair : List Char × List Char}
    (read : attribute? cs = some (pair, rest)) : rest.length < cs.length := by
  cases cs with
  | nil => cases read
  | cons first later =>
    unfold attribute? at read
    dsimp only at read
    split at read
    · rename_i afterSign sign
      split at read
      · rename_i quote afterQuote blank
        split at read
        · split at read
          · rename_i closing after ended
            obtain ⟨_, rfl⟩ := Prod.mk.inj (Option.some.inj read)
            have name := dropWhile_length_le (fun c => c ≠ '=' && !isSpace c) later
            have gap := dropWhile_length_le isSpace (later.dropWhile fun c => c ≠ '=' && !isSpace c)
            have space := dropWhile_length_le isSpace afterSign
            have value := dropWhile_length_le (· ≠ quote) afterQuote
            rw [sign] at gap
            rw [blank] at space
            rw [ended] at value
            simp only [List.length_cons] at gap space value ⊢
            omega
          · cases read
        · cases read
      · cases read
    · cases read

def attributes? (cs : List Char) : Option (List (List Char × List Char)) :=
  match blank : cs.dropWhile isSpace with
  | [] => some []
  | c :: text =>
    match read : attribute? (c :: text) with
    | none => none
    | some (pair, rest) =>
      have := attribute?_shorter read
      have : (c :: text).length ≤ cs.length := blank ▸ dropWhile_length_le isSpace cs
      (attributes? rest).bind fun later =>
        if later.any (·.1 == pair.1) then none else some (pair :: later)
termination_by cs.length

def isNamespaceDeclaration (name : List Char) : Bool := "xmlns".toList.isPrefixOf name

-- The attributes of an element: local names, values with their entities replaced; of two with one local name the
-- later value stands in the earlier place.
def elementAttributes? (written : List (List Char × List Char)) : Option Attributes :=
  (written.filter fun pair => !isNamespaceDeclaration pair.1).foldlM
    (fun set pair => (Entity.decode pair.2).map fun value =>
      Attributes.set (String.ofList (localName pair.1)) (String.ofList value) set)
    []

structure Start where
  name : List Char
  attributes : Attributes
  closed : Bool
deriving Repr

def Start.tag (start : Start) : String := String.ofList (localName start.name)

def read? (inside : List Char) : Option Start :=
  let closed := inside.getLast? == some '/'
  let inside := if closed then inside.dropLast else inside
  ((attributes? (inside.dropWhile (!isSpace ·))).bind elementAttributes?).map fun attributes =>
    { name := inside.takeWhile (!isSpace ·), attributes, closed }

-- The name that an end tag closes. Blanks after it do not count, unless there is nothing else.
def endName (inside : List Char) : List Char :=
  match inside.reverse.dropWhile isSpace with
  | [] => inside
  | rest => rest.reverse

end ScopeAtlas.Tag
