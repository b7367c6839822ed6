namespace ScopeAtlas

inductive Token
  | startTag (offset : Nat) (inside : List Char)
  | endTag (inside : List Char)
  | text (run : List Char)
  | rawText (run : List Char)
  | malformed
deriving DecidableEq, Repr

namespace Token

def isSpace (c : Char) : Bool := c == ' ' || c == '\t' || c == '\r' || c == '\n'

def cutAt (stop : List Char) : List Char → Option (List Char × List Char)
  | [] => none
  | c :: rest =>
    if stop.isPrefixOf (c :: rest) then some ([], (c :: rest).drop stop.length)
    else (cutAt stop rest).map fun (before, after) => (c :: before, after)

def cutTag : Option Char → List Char → Option (List Char × List Char)
  | _, [] => none
  | none, c :: rest =>
    if c = '>' then some ([], rest)
    else
      (cutTag (if c = '"' ∨ c = '\'' then some c else none) rest).map fun (before, after) => (c :: before, after)
  | some quote, c :: rest =>
    (cutTag (if c = quote then none else some quote) rest).map fun (before, after) => (c :: before, after)

-- Cuts at the first `>` that closes no earlier `<`; `depth` counts those still open.
def cutBalanced : Nat → List Char → Option (List Char × List Char)
  | _, [] => none
  | depth, c :: rest =>
    if c = '>' ∧ depth = 0 then some ([], rest)
    else
      let depth := if c = '<' then depth + 1 else if c = '>' then depth - 1 else depth
      (cutBalanced depth rest).map fun (before, after) => (c :: before, after)

theorem cutAt_shorter {stop cs before after : List Char} (nonempty : stop ≠ [])
    (cut : cutAt stop cs = some (before, after)) : after.length < cs.length := by
  induction cs generalizing before after with
  | nil => simp [cutAt] at cut
  | cons c rest ih =>
    rw [cutAt] at cut
    split at cut
    · obtain ⟨_, rfl⟩ := Prod.mk.inj (Option.some.inj cut)
      have : 0 < stop.length := List.length_pos_iff.mpr nonempty
      simp only [List.length_drop, List.length_cons]; omega
    · obtain ⟨⟨before, after⟩, later, same⟩ := Option.map_eq_some_iff.mp cut
      obtain ⟨_, rfl⟩ := Prod.mk.inj same
      exact Nat.lt_succ_of_lt (ih later)

theorem cutTag_shorter {quote : Option Char} {cs before after : List Char}
    (cut : cutTag quote cs = some (before, after)) : after.length < cs.length := by
  induction cs generalizing quote before after with
  | nil => simp [cutTag] at cut
  | cons c rest ih =>
    cases quote with
    | none =>
      rw [cutTag] at cut
      split at cut
      · obtain ⟨_, rfl⟩ := Prod.mk.inj (Option.some.inj cut)
        exact Nat.lt_succ_self _
      · obtain ⟨⟨before, after⟩, later, same⟩ := Option.map_eq_some_iff.mp cut
        obtain ⟨_, rfl⟩ := Prod.mk.inj same
        exact Nat.lt_succ_of_lt (ih later)
    | some quote =>
      rw [cutTag] at cut
      obtain ⟨⟨before, after⟩, later, same⟩ := Option.map_eq_some_iff.mp cut
      obtain ⟨_, rfl⟩ := Prod.mk.inj same
      exact Nat.lt_succ_of_lt (ih later)

theorem cutBalanced_shorter {depth : Nat} {cs before after : List Char}
    (cut : cutBalanced depth cs = some (before, after)) : after.length < cs.length := by
  induction cs generalizing depth before after with
  | nil => simp [cutBalanced] at cut
  | cons c rest ih =>
    rw [cutBalanced] at cut
    split at cut
    · obtain ⟨_, rfl⟩ := Prod.mk.inj (Option.some.inj cut)
      exact Nat.lt_succ_self _
    · obtain ⟨⟨before, after⟩, later, same⟩ := Option.map_eq_some_iff.mp cut
      obtain ⟨_, rfl⟩ := Prod.mk.inj same
      exact Nat.lt_succ_of_lt (ih later)

-- The sort of markup that an opening `<` starts, told by the characters after it.
inductive Markup
  | rawText
  | comment
  | documentType
  | instruction
  | endTag
  | startTag
  | unknown
deriving DecidableEq, Repr

def Markup.of : List Char → Markup
  | '!' :: '[' :: _ => .rawText
  | '!' :: '-' :: _ => .comment
  | '!' :: 'D' :: _ | '!' :: 'd' :: _ => .documentType
  | '!' :: _ => .unknown
  | '?' :: _ => .instruction
  | '/' :: _ => .endTag
  | _ => .startTag

def Markup.cut (cs : List Char) : Markup → Option (List Char × List Char)
  | .rawText => cutAt [']', ']', '>'] cs
  | .comment => cutAt ['-', '-', '>'] (cs.drop 3)
  | .documentType => cutBalanced 0 cs
  | .instruction => cutAt ['?', '>'] cs
  | .endTag | .startTag => cutTag none cs
  | .unknown => none

theorem Markup.cut_shorter {cs before after : List Char} {markup : Markup}
    (cut : markup.cut cs = some (before, after)) : after.length < cs.length := by
  cases markup with
  | rawText => exact cutAt_shorter (by simp) cut
  | comment =>
    have := cutAt_shorter (by simp) cut
    simp only [List.length_drop] at this; omega
  | documentType => exact cutBalanced_shorter cut
  | instruction => exact cutAt_shorter (by simp) cut
  | endTag => exact cutTag_shorter cut
  | startTag => exact cutTag_shorter cut
  | unknown => simp [Markup.cut] at cut

def ofMarkup (offset : Nat) (cs inside : List Char) : Markup → Option (List Token)
  | .rawText =>
    if "![CDATA[".toList.isPrefixOf inside then some [.rawText (inside.drop 8)] else none
  | .comment => if "!--".toList.isPrefixOf cs then some [] else none
  | .documentType =>
    if (inside.take 8).map Char.toLower = "!doctype".toList ∧ (inside.drop 8).any (!isSpace ·) then some [] else none
  | .instruction => if inside.isEmpty then none else some []
  | .endTag => some [.endTag (inside.drop 1)]
  | .startTag => some [.startTag offset inside]
  | .unknown => none

def byteLength (cs : List Char) : Nat := cs.foldl (fun length c => length + c.utf8Size) 0

-- The bytes of a piece of markup beside its inside.
def Markup.frame : Markup → Nat
  | .rawText => 4
  | .comment => 7
  | .instruction => 3
  | .documentType | .endTag | .startTag | .unknown => 2

-- The first break of the syntax ends the tokens, so that what stands before it is still judged on its own.
def scanFrom (offset : Nat) (cs : List Char) : List Token :=
  match cs with
  | [] => []
  | c :: rest =>
    if c = '<' then
      let markup := Markup.of rest
      match cut : markup.cut rest with
      | none => [.malformed]
      | some (inside, after) =>
        have := Markup.cut_shorter cut
        match ofMarkup offset rest inside markup with
        | none => [.malformed]
        | some tokens => tokens ++ scanFrom (offset + markup.frame + byteLength inside) after
    else
      let run := c :: rest.takeWhile (· ≠ '<')
      .text run :: scanFrom (offset + byteLength run) (rest.dropWhile (· ≠ '<'))
termination_by cs.length
decreasing_by
  · simp only [List.length_cons]; omega
  · have := (List.dropWhile_sublist (fun d => decide (d ≠ '<')) (l := rest)).length_le
    simp only [List.length_cons]; omega

def scan (cs : List Char) : List Token := scanFrom 0 cs

end Token

end ScopeAtlas
