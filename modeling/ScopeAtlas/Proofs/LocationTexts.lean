import ScopeAtlas.Location
import ScopeAtlas.Proofs.RenestedPositions

namespace ScopeAtlas.Location

def IsCanonical (digits : List Char) : Prop :=
  digits ≠ [] ∧ (∀ c ∈ digits, c.isDigit = true) ∧ (digits.head? = some '0' → digits = ['0'])

section Numbers

variable {digits rest : List Char} {number : Nat}

theorem toDigits_digit {c : Char} (digit : c.isDigit = true) :
    c.toNat - '0'.toNat < 10 ∧ Nat.toDigits 10 (c.toNat - '0'.toNat) = [c] := by
  have few : ∀ n : Fin 10, Nat.toDigits 10 n = [Char.ofNat (n + '0'.toNat)] := by decide
  rw [Char.isDigit, Bool.and_eq_true, decide_eq_true_eq, decide_eq_true_eq] at digit
  have low : '0'.toNat ≤ c.toNat := digit.1
  have high : c.toNat ≤ '9'.toNat := digit.2
  have small : c.toNat - '0'.toNat < 10 := by
    simp only [show '0'.toNat = 48 from rfl, show '9'.toNat = 57 from rfl] at low high ⊢
    omega
  refine ⟨small, (few ⟨_, small⟩).trans ?_⟩
  rw [Nat.sub_add_cancel low, Char.ofNat_toNat]

-- By induction from the right, since the last digit is the one that is printed last.
theorem toDigits_ofDigitChars_of_leading (digital : ∀ c ∈ digits, c.isDigit = true) (nonempty : digits ≠ [])
    (leading : digits.head? ≠ some '0') :
    0 < Nat.ofDigitChars 10 digits 0 ∧ Nat.toDigits 10 (Nat.ofDigitChars 10 digits 0) = digits := by
  induction digits using List.reverseRecOn with
  | nil => exact absurd rfl nonempty
  | append_singleton earlier c ih =>
    obtain ⟨small, single⟩ := toDigits_digit (digital c (by simp))
    rw [Nat.ofDigitChars_append, Nat.ofDigitChars_cons, Nat.ofDigitChars_nil]
    cases earlier with
    | nil =>
      rw [Nat.ofDigitChars_nil, Nat.mul_zero, Nat.zero_add, single]
      refine ⟨Nat.pos_of_ne_zero fun zero => leading ?_, rfl⟩
      rw [zero, Nat.toDigits_zero] at single
      rw [← single]
      rfl
    | cons d earlier =>
      obtain ⟨positive, printed⟩ := ih (fun e member => digital e (List.mem_append_left _ member))
        (List.cons_ne_nil _ _) leading
      refine ⟨by omega, ?_⟩
      rw [← Nat.toDigits_append_toDigits (by decide) positive small, printed, single]

theorem toDigits_ofDigitChars (canonical : IsCanonical digits) :
    Nat.toDigits 10 (Nat.ofDigitChars 10 digits 0) = digits := by
  obtain ⟨nonempty, digital, zero⟩ := canonical
  by_cases leading : digits.head? = some '0'
  · rw [zero leading]
    rfl
  · exact (toDigits_ofDigitChars_of_leading digital nonempty leading).2

theorem isCanonical_toDigits (number : Nat) : IsCanonical (Nat.toDigits 10 number) := by
  refine ⟨Nat.toDigits_ne_nil, fun c => Nat.isDigit_of_mem_toDigits (by decide) (by decide), ?_⟩
  induction number using Nat.strongRecOn with
  | ind number ih =>
    intro zero
    by_cases small : number < 10
    · rw [Nat.toDigits_of_lt_base small] at zero ⊢
      exact congrArg (fun c => [c]) (Option.some.inj zero)
    · rw [Nat.toDigits_of_base_le (by decide) (by omega), List.head?_append_of_ne_nil _ Nat.toDigits_ne_nil] at zero
      -- all but the last digit would be zero
      have earlier := congrArg (Nat.ofDigitChars 10 · 0) (ih (number / 10) (by omega) zero)
      simp only [Nat.ofDigitChars_ten_toDigits] at earlier
      have none : number / 10 = 0 := earlier
      omega

end Numbers

section Parts

variable {mark : Char} {cs before after beginning text digits : List Char} {number : Nat}

theorem splitLast_eq_none_iff : splitLast mark cs = none ↔ mark ∉ cs := by
  induction cs with
  | nil => simp [splitLast]
  | cons c rest ih =>
    rw [splitLast, List.mem_cons, not_or, ← ih]
    split
    · rename_i found
      simp [found]
    · rename_i none
      simp [none, eq_comm]

theorem splitLast_append (absent : mark ∉ after) : splitLast mark (before ++ mark :: after) = some (before, after) := by
  induction before with
  | nil =>
    rw [List.nil_append, splitLast, splitLast_eq_none_iff.mpr absent]
    exact if_pos rfl
  | cons c before ih => rw [List.cons_append, splitLast, ih]

theorem splitLast_eq_some_iff : splitLast mark cs = some (before, after) ↔ cs = before ++ mark :: after ∧ mark ∉ after := by
  constructor
  · induction cs generalizing before with
    | nil => simp [splitLast]
    | cons c rest ih =>
      intro found
      rw [splitLast] at found
      split at found
      · rename_i before' after' later
        cases found
        obtain ⟨rfl, absent⟩ := ih later
        exact ⟨rfl, absent⟩
      · rename_i none
        split at found
        · rename_i here
          cases found
          exact ⟨congrArg (· :: after) here, splitLast_eq_none_iff.mp none⟩
        · cases found
  · rintro ⟨rfl, absent⟩
    exact splitLast_append absent

theorem after?_eq_some_iff : after? beginning text = some after ↔ text = beginning ++ after := by
  unfold after?
  constructor
  · intro found
    split at found
    · rename_i begins
      obtain ⟨rest, rfl⟩ := List.isPrefixOf_iff_prefix.mp begins
      rw [List.drop_left] at found
      rw [Option.some.inj found]
    · cases found
  · rintro rfl
    rw [if_pos (List.isPrefixOf_iff_prefix.mpr (List.prefix_append _ _)), List.drop_left]

def unsigned (digits : List Char) : List Char :=
  match digits with
  | '+' :: rest => rest
  | _ => digits

theorem unsigned_of_digits (digital : ∀ c ∈ digits, c.isDigit = true) : unsigned digits = digits := by
  unfold unsigned
  split
  · exact absurd (digital '+' List.mem_cons_self) (by decide)
  · rfl

theorem line?_eq_some_iff : line? digits = some number ↔ unsigned digits ≠ [] ∧
    (∀ c ∈ unsigned digits, c.isDigit = true) ∧ Nat.ofDigitChars 10 (unsigned digits) 0 = number ∧ number < 2 ^ 32 := by
  have read : line? digits = if (unsigned digits).isEmpty || !(unsigned digits).all Char.isDigit then none
      else if Nat.ofDigitChars 10 (unsigned digits) 0 < 2 ^ 32 then some (Nat.ofDigitChars 10 (unsigned digits) 0)
        else none := by
    rw [Nat.ofDigitChars_eq_foldl]
    simp only [Nat.mul_comm 10]
    rfl
  rw [read]
  constructor
  · intro found
    split at found
    · cases found
    · rename_i proper
      split at found
      · rename_i bounded
        cases found
        simp only [Bool.or_eq_true, List.isEmpty_iff, Bool.not_eq_true', not_or, Bool.not_eq_false, List.all_eq_true]
          at proper
        exact ⟨proper.1, proper.2, rfl, bounded⟩
      · cases found
  · rintro ⟨nonempty, digital, rfl, bounded⟩
    rw [if_neg (by simpa [nonempty] using digital), if_pos bounded]

theorem line?_toDigits (bounded : number < 2 ^ 32) : line? (Nat.toDigits 10 number) = some number := by
  obtain ⟨nonempty, digital, -⟩ := isCanonical_toDigits number
  rw [line?_eq_some_iff, unsigned_of_digits digital]
  exact ⟨nonempty, digital, Nat.ofDigitChars_ten_toDigits, bounded⟩

theorem toDigits_eq_iff (read : line? digits = some number) : Nat.toDigits 10 number = digits ↔ IsCanonical digits := by
  constructor
  · rintro rfl
    exact isCanonical_toDigits number
  · intro canonical
    obtain ⟨-, -, value, -⟩ := line?_eq_some_iff.mp read
    rw [unsigned_of_digits canonical.2.1] at value
    rw [← value, toDigits_ofDigitChars canonical]

theorem not_mem_of_line? (read : line? digits = some number) {c : Char} (other : c.isDigit = false) (unsigned' : c ≠ '+') :
    c ∉ digits := by
  obtain ⟨-, digital, -, -⟩ := line?_eq_some_iff.mp read
  intro member
  have digit : c.isDigit = true := by
    unfold unsigned at digital
    split at digital
    · rcases List.mem_cons.mp member with plus | later
      · exact absurd plus unsigned'
      · exact digital c later
    · exact digital c member
  rw [other] at digit
  cases digit

end Parts

def scheme (isReference : Bool) : String := if isReference then referenceScheme else definitionScheme

def lineText (text : String) : List Char := (text.toList.reverse.takeWhile (· ≠ '@')).reverse

section Texts

variable {l : Location} {text : String} {digits : List Char}

theorem toList_render (l : Location) : l.render.toList =
    (scheme l.isReference).toList ++ l.file.toList ++ '#' :: l.position.toList ++ '@' :: Nat.toDigits 10 l.line := by
  simp [render, scheme]

def body (isReference : Bool) (rest : List Char) : Except Error Location :=
  match splitLast '#' rest with
  | none => .error .locationWithoutFragment
  | some (file, fragment) =>
    match splitLast '@' fragment with
    | none => .error .fragmentWithoutLine
    | some (position, digits) =>
      match line? digits with
      | none => .error (.badLineNumber (String.ofList digits))
      | some line =>
        .ok { file := String.ofList file, position := String.ofList position, line, isReference }

theorem body_eq_ok_iff {isReference : Bool} {rest : List Char} : body isReference rest = .ok l ↔
    l.isReference = isReference ∧ ∃ digits, rest = l.file.toList ++ '#' :: (l.position.toList ++ '@' :: digits) ∧
      '#' ∉ l.position.toList ∧ line? digits = some l.line := by
  unfold body
  constructor
  · intro read
    split at read
    · cases read
    rename_i file fragment first
    split at read
    · cases read
    rename_i position digits second
    split at read
    · cases read
    rename_i line third
    cases read
    obtain ⟨rfl, clear⟩ := splitLast_eq_some_iff.mp first
    obtain ⟨rfl, -⟩ := splitLast_eq_some_iff.mp second
    refine ⟨rfl, digits, by simp only [String.toList_ofList], ?_, third⟩
    rw [String.toList_ofList]
    exact fun member => clear (List.mem_append_left _ member)
  · rintro ⟨rfl, digits, rfl, clear, line⟩
    have hash : '#' ∉ l.position.toList ++ '@' :: digits := by
      simp [clear, not_mem_of_line? line (c := '#') (by decide) (by decide)]
    have sign : '@' ∉ digits := not_mem_of_line? line (by decide) (by decide)
    rw [splitLast_append hash]
    dsimp only
    rw [splitLast_append sign]
    dsimp only
    rw [line]
    simp only [String.ofList_toList]

theorem parse_of_scheme {isReference : Bool} {rest : List Char}
    (begins : text.toList = (scheme isReference).toList ++ rest) : parse text = body isReference rest := by
  cases isReference with
  | true =>
    have found : after? referenceScheme.toList text.toList = some rest := after?_eq_some_iff.mpr begins
    unfold parse
    rw [found]
    rfl
  | false =>
    have other : after? referenceScheme.toList text.toList = none := by
      rw [begins]
      simp [after?, scheme, referenceScheme, definitionScheme]
    have found : after? definitionScheme.toList text.toList = some rest := after?_eq_some_iff.mpr begins
    unfold parse
    rw [other, found]
    rfl

theorem scheme_of_parse (read : parse text = .ok l) :
    ∃ isReference rest, text.toList = (scheme isReference).toList ++ rest := by
  unfold parse at read
  split at read
  · rename_i rest found
    exact ⟨true, rest, after?_eq_some_iff.mp found⟩
  · rename_i rest _ found
    exact ⟨false, rest, after?_eq_some_iff.mp found⟩
  · cases read

-- A text is read as a location just if it writes that location down: the last two marks are those before position and
-- line, and the line can be read.
theorem parse_eq_ok_iff : parse text = .ok l ↔ ∃ digits,
    text.toList = (scheme l.isReference).toList ++ l.file.toList ++ '#' :: l.position.toList ++ '@' :: digits ∧
      '#' ∉ l.position.toList ∧ line? digits = some l.line := by
  constructor
  · intro read
    obtain ⟨isReference, rest, begins⟩ := scheme_of_parse read
    rw [parse_of_scheme begins] at read
    obtain ⟨rfl, digits, rfl, clear, line⟩ := body_eq_ok_iff.mp read
    exact ⟨digits, by simp [begins], clear, line⟩
  · rintro ⟨digits, whole, clear, line⟩
    have begins : text.toList =
        (scheme l.isReference).toList ++ (l.file.toList ++ '#' :: (l.position.toList ++ '@' :: digits)) := by
      simp [whole]
    rw [parse_of_scheme begins]
    exact body_eq_ok_iff.mpr ⟨rfl, digits, rfl, clear, line⟩

theorem parse_render (clear : '#' ∉ l.position.toList) (bounded : l.line < 2 ^ 32) : parse l.render = .ok l :=
  parse_eq_ok_iff.mpr ⟨_, l.toList_render, clear, line?_toDigits bounded⟩

theorem lineText_eq (whole : text.toList = (scheme l.isReference).toList ++ l.file.toList ++ '#' :: l.position.toList ++
    '@' :: digits) (sign : '@' ∉ digits) : lineText text = digits := by
  have clear : ∀ c ∈ digits.reverse, decide (c ≠ '@') = true := by
    intro c member
    exact decide_eq_true fun same => sign (List.mem_reverse.mp (same ▸ member))
  rw [lineText, whole, List.reverse_append, List.reverse_cons, List.append_assoc, List.takeWhile_append_of_pos clear]
  simp

end Texts

-- Locations are read back from their texts, whatever stands in the file, and texts are given back from what is read of
-- them, unless the line was not written as it is printed.
theorem texts_round_trip :
    (∀ l : Location, '#' ∉ l.position.toList → l.line < 2 ^ 32 → parse l.render = .ok l) ∧
      ∀ (text : String) (l : Location), parse text = .ok l →
        parse l.render = .ok l ∧ (l.render = text ↔ IsCanonical (lineText text)) := by
  refine ⟨fun l => parse_render, ?_⟩
  intro text l read
  obtain ⟨digits, whole, clear, line⟩ := parse_eq_ok_iff.mp read
  obtain ⟨-, -, -, bounded⟩ := line?_eq_some_iff.mp line
  refine ⟨parse_render clear bounded, ?_⟩
  rw [lineText_eq whole (not_mem_of_line? line (by decide) (by decide)), ← toDigits_eq_iff line, ← String.toList_inj,
    toList_render, whole]
  simp

-- Both marks in the file, and a sign in the position.
def marked : Location where
  file := "a#1@2.h"
  position := "/unit/x@y[1]"
  line := 7
  isReference := true

theorem marked_round_trip :
    ('#' ∉ marked.position.toList ∧ marked.line < 2 ^ 32 ∧ parse marked.render = .ok marked) ∧
      parse "srcml-ref://a#1@2.h#/unit/x@y[1]@+07" = .ok marked ∧ parse marked.render = .ok marked ∧
      (marked.render = "srcml-ref://a#1@2.h#/unit/x@y[1]@+07" ↔
        IsCanonical (lineText "srcml-ref://a#1@2.h#/unit/x@y[1]@+07")) := by
  have clear : '#' ∉ marked.position.toList := by decide +kernel
  have read : parse "srcml-ref://a#1@2.h#/unit/x@y[1]@+07" = .ok marked := by decide +kernel
  exact ⟨⟨clear, by decide, texts_round_trip.1 marked clear (by decide)⟩, read, texts_round_trip.2 _ marked read⟩

end ScopeAtlas.Location
