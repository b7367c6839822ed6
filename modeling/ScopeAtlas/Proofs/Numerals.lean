import Mathlib.Computability.RegularExpressions
import Mathlib.Data.List.TakeWhile
import ScopeAtlas.Language.Literal

namespace ScopeAtlas.NumberShape

open RegularExpression

def oneOf (chars : String) : RegularExpression Char := chars.toList.foldr (fun c others => char c + others) 0

def atLeastOne (r : RegularExpression Char) : RegularExpression Char := r * star r

def optional (r : RegularExpression Char) : RegularExpression Char := 1 + r

def hexDigits : RegularExpression Char :=
  oneOf "0" * (oneOf "xX" * atLeastOne (oneOf "0123456789abcdefABCDEF_'"))

def hexSuffix : RegularExpression Char := star (oneOf "uUlL")

def exponent : RegularExpression Char := oneOf "eE" * (optional (oneOf "+-") * atLeastOne (oneOf "0123456789"))

def decimalDigits : RegularExpression Char :=
  star (oneOf "0123456789_'") * (optional (oneOf ".") * (star (oneOf "0123456789_'") * optional exponent))

def letters : RegularExpression Char := star (oneOf "abcdefghijklmnopqrstuvwxyzABCDEFGHIJKLMNOPQRSTUVWXYZ")

structure Split (first second : RegularExpression Char) (text front back : List Char) : Prop where
  whole : text = front ++ back
  front : front ∈ first.matches'
  back : back ∈ second.matches'

theorem iff_mem_of_ascii {p : Char → Bool} {chars : String} (bounded : ∀ c, p c = true → c.toNat < 128)
    (sound : chars.toList.all p = true)
    (complete : ∀ n < 128, p (Char.ofNat n) = true → Char.ofNat n ∈ chars.toList) (c : Char) :
    p c = true ↔ c ∈ chars.toList := by
  refine ⟨fun holds => ?_, List.all_eq_true.mp sound c⟩
  have member := complete c.toNat (bounded c holds) (by rwa [Char.ofNat_toNat])
  rwa [Char.ofNat_toNat] at member

theorem isDigit_lt {c : Char} (digit : c.isDigit = true) : c.toNat < 128 := by
  rw [Char.isDigit, Bool.and_eq_true, decide_eq_true_eq, decide_eq_true_eq] at digit
  have high : c.toNat ≤ 57 := digit.2
  omega

theorem isGroupedDigit_lt {c : Char} (grouped : isGroupedDigit c = true) : c.toNat < 128 := by
  simp only [isGroupedDigit, Bool.or_eq_true, beq_iff_eq] at grouped
  rcases grouped with (digit | rfl) | rfl
  · exact isDigit_lt digit
  · decide
  · decide

theorem isDigit_iff (c : Char) : c.isDigit = true ↔ c ∈ "0123456789".toList :=
  iff_mem_of_ascii (fun _ => isDigit_lt) (by decide +kernel) (by decide +kernel) c

theorem isGroupedDigit_iff (c : Char) : isGroupedDigit c = true ↔ c ∈ "0123456789_'".toList :=
  iff_mem_of_ascii (fun _ => isGroupedDigit_lt) (by decide +kernel) (by decide +kernel) c

theorem isGroupedHexDigit_iff (c : Char) : isGroupedHexDigit c = true ↔ c ∈ "0123456789abcdefABCDEF_'".toList := by
  refine iff_mem_of_ascii ?_ (by decide +kernel) (by decide +kernel) c
  intro c holds
  simp only [isGroupedHexDigit, Bool.or_eq_true, Bool.and_eq_true, decide_eq_true_eq] at holds
  rcases holds with (grouped | ⟨-, lower⟩) | ⟨-, upper⟩
  · exact isGroupedDigit_lt grouped
  · have high : c.toNat ≤ 102 := lower
    omega
  · have high : c.toNat ≤ 70 := upper
    omega

theorem isAlpha_iff (c : Char) :
    c.isAlpha = true ↔ c ∈ "abcdefghijklmnopqrstuvwxyzABCDEFGHIJKLMNOPQRSTUVWXYZ".toList := by
  refine iff_mem_of_ascii ?_ (by decide +kernel) (by decide +kernel) c
  intro c holds
  rcases Bool.or_eq_true_iff.mp holds with upper | lower
  · have high : c.toNat ≤ 90 := (of_decide_eq_true upper).2
    omega
  · have high : c.toNat ≤ 122 := of_decide_eq_true (Bool.and_eq_true_iff.mp lower).2
    omega

theorem isIntegerSuffix_iff (c : Char) : isIntegerSuffix c = true ↔ c ∈ "uUlL".toList := by
  simp [isIntegerSuffix, or_assoc]

-- What may stand in a suffix stands in no run of digits before it.
theorem not_hexDigit_of_suffix {c : Char} (suffix : isIntegerSuffix c = true) : isGroupedHexDigit c = false := by
  rw [isIntegerSuffix_iff] at suffix
  have all : "uUlL".toList.all (isGroupedHexDigit · = false) = true := by decide +kernel
  exact of_decide_eq_true (List.all_eq_true.mp all c suffix)

theorem not_digit_of_letter {c : Char} (letter : c.isAlpha = true) :
    c.isDigit = false ∧ isGroupedDigit c = false ∧ c ≠ '.' ∧ c ≠ '+' ∧ c ≠ '-' := by
  rw [isAlpha_iff] at letter
  have all : "abcdefghijklmnopqrstuvwxyzABCDEFGHIJKLMNOPQRSTUVWXYZ".toList.all fun c =>
      c.isDigit = false ∧ isGroupedDigit c = false ∧ c ≠ '.' ∧ c ≠ '+' ∧ c ≠ '-' := by decide +kernel
  exact of_decide_eq_true (List.all_eq_true.mp all c letter)

section Matching

variable {r s : RegularExpression Char} {chars : String} {p : Char → Bool} {w d : List Char}

theorem mem_mul_iff : w ∈ (r * s).matches' ↔ ∃ u v, w = u ++ v ∧ u ∈ r.matches' ∧ v ∈ s.matches' := by
  rw [matches'_mul, Language.mem_mul]
  constructor
  · rintro ⟨u, first, v, second, rfl⟩
    exact ⟨u, v, rfl, first, second⟩
  · rintro ⟨u, v, rfl, first, second⟩
    exact ⟨u, first, v, second, rfl⟩

theorem mem_mul_iff_split {text : List Char} : text ∈ (r * s).matches' ↔ ∃ front back, Split r s text front back := by
  rw [mem_mul_iff]
  constructor
  · rintro ⟨front, back, whole, first, second⟩
    exact ⟨front, back, whole, first, second⟩
  · rintro ⟨front, back, split⟩
    exact ⟨front, back, split.whole, split.front, split.back⟩

theorem mem_optional_iff : w ∈ (optional r).matches' ↔ w = [] ∨ w ∈ r.matches' := by
  rw [optional, matches'_add, Language.mem_add, matches'_epsilon, Language.mem_one]

theorem mem_oneOf_iff : w ∈ (oneOf chars).matches' ↔ ∃ c ∈ chars.toList, w = [c] := by
  unfold oneOf
  induction chars.toList with
  | nil => simp
  | cons c rest ih =>
    rw [List.foldr_cons, matches'_add, Language.mem_add, ih, matches'_char, List.exists_mem_cons_iff]
    rfl

theorem mem_star_oneOf_iff (class_iff : ∀ c, p c = true ↔ c ∈ chars.toList) :
    w ∈ (star (oneOf chars)).matches' ↔ ∀ c ∈ w, p c = true := by
  rw [matches'_star, Language.mem_kstar]
  constructor
  · rintro ⟨singles, rfl, all⟩ c member
    obtain ⟨single, among, inside⟩ := List.mem_flatten.mp member
    obtain ⟨d, listed, rfl⟩ := mem_oneOf_iff.mp (all single among)
    rw [List.mem_singleton.mp inside, class_iff]
    exact listed
  · intro all
    refine ⟨w.map fun c => [c], by rw [← List.flatMap_def, List.flatMap_singleton'], ?_⟩
    intro single among
    obtain ⟨c, member, rfl⟩ := List.mem_map.mp among
    exact mem_oneOf_iff.mpr ⟨c, (class_iff c).mp (all c member), rfl⟩

theorem mem_atLeastOne_iff (class_iff : ∀ c, p c = true ↔ c ∈ chars.toList) :
    w ∈ (atLeastOne (oneOf chars)).matches' ↔ w ≠ [] ∧ ∀ c ∈ w, p c = true := by
  rw [atLeastOne, mem_mul_iff]
  constructor
  · rintro ⟨u, v, rfl, first, later⟩
    obtain ⟨c, listed, rfl⟩ := mem_oneOf_iff.mp first
    rw [mem_star_oneOf_iff class_iff] at later
    exact ⟨by simp, List.forall_mem_cons.mpr ⟨(class_iff c).mpr listed, later⟩⟩
  · rintro ⟨nonempty, all⟩
    cases w with
    | nil => exact absurd rfl nonempty
    | cons c rest =>
      obtain ⟨first, later⟩ := List.forall_mem_cons.mp all
      exact ⟨[c], rest, rfl, mem_oneOf_iff.mpr ⟨c, (class_iff c).mp first, rfl⟩, (mem_star_oneOf_iff class_iff).mpr later⟩

theorem mem_hexDigits_iff : d ∈ hexDigits.matches' ↔ ∃ x run, d = '0' :: x :: run ∧ (x = 'x' ∨ x = 'X') ∧ run ≠ [] ∧
    ∀ c ∈ run, isGroupedHexDigit c = true := by
  simp only [hexDigits, mem_mul_iff, mem_oneOf_iff, mem_atLeastOne_iff isGroupedHexDigit_iff]
  constructor
  · rintro ⟨_, _, rfl, ⟨zero, listed, rfl⟩, _, run, rfl, ⟨x, listed', rfl⟩, nonempty, all⟩
    have isZero : zero = '0' := by simpa using listed
    subst isZero
    exact ⟨x, run, rfl, by simpa using listed', nonempty, all⟩
  · rintro ⟨x, run, rfl, mark, nonempty, all⟩
    exact ⟨['0'], x :: run, rfl, ⟨'0', by simp, rfl⟩, [x], run, rfl, ⟨x, by simpa using mark, rfl⟩, nonempty, all⟩

theorem mem_exponent_iff : w ∈ exponent.matches' ↔ ∃ e sign run, w = e :: (sign ++ run) ∧ (e = 'e' ∨ e = 'E') ∧
    (sign = [] ∨ sign = ['+'] ∨ sign = ['-']) ∧ run ≠ [] ∧ ∀ c ∈ run, c.isDigit = true := by
  simp only [exponent, mem_mul_iff, mem_oneOf_iff, mem_optional_iff, mem_atLeastOne_iff isDigit_iff]
  constructor
  · rintro ⟨_, _, rfl, ⟨e, listed, rfl⟩, sign, run, rfl, signed, nonempty, all⟩
    refine ⟨e, sign, run, rfl, by simpa using listed, ?_, nonempty, all⟩
    simpa using signed
  · rintro ⟨e, sign, run, rfl, mark, signed, nonempty, all⟩
    exact ⟨[e], sign ++ run, rfl, ⟨e, by simpa using mark, rfl⟩, sign, run, rfl, by simpa using signed, nonempty, all⟩

theorem mem_decimalDigits_iff : d ∈ decimalDigits.matches' ↔ ∃ whole point fraction power,
    d = whole ++ (point ++ (fraction ++ power)) ∧ (∀ c ∈ whole, isGroupedDigit c = true) ∧ (point = [] ∨ point = ['.']) ∧
      (∀ c ∈ fraction, isGroupedDigit c = true) ∧ (power = [] ∨ power ∈ exponent.matches') := by
  simp only [decimalDigits, mem_mul_iff, mem_optional_iff, mem_star_oneOf_iff isGroupedDigit_iff]
  have pointed : ∀ point, point ∈ (oneOf ".").matches' ↔ point = ['.'] := by
    intro point
    simp [mem_oneOf_iff]
  simp only [pointed]
  constructor
  · rintro ⟨whole, _, rfl, grouped, point, _, rfl, pointed, fraction, power, rfl, grouped', powered⟩
    exact ⟨whole, point, fraction, power, rfl, grouped, pointed, grouped', powered⟩
  · rintro ⟨whole, point, fraction, power, rfl, grouped, pointed, grouped', powered⟩
    exact ⟨whole, _, rfl, grouped, point, _, rfl, pointed, fraction, power, rfl, grouped', powered⟩

end Matching

section Reading

variable {p : Char → Bool} {cs text run rest s d : List Char}

theorem dropWhile_run (passes : ∀ c ∈ run, p c = true) (stops : ∀ c, rest.head? = some c → p c = false) :
    (run ++ rest).dropWhile p = rest := by
  rw [List.dropWhile_append_of_pos passes]
  cases rest with
  | nil => rfl
  | cons c rest => rw [List.dropWhile_cons_of_neg (by simp [stops c rfl])]

theorem takeWhile_ne_nil_of_shorter (shorter : (cs.dropWhile p).length < cs.length) : cs.takeWhile p ≠ [] := by
  intro none
  have whole := cs.takeWhile_append_dropWhile (p := p)
  rw [none, List.nil_append] at whole
  rw [whole] at shorter
  exact Nat.lt_irrefl _ shorter

theorem length_lt_append (nonempty : run ≠ []) (rest : List Char) : rest.length < (run ++ rest).length := by
  have positive := List.length_pos_iff.mpr nonempty
  rw [List.length_append]
  omega

theorem hexSuffix?_of_split (split : Split hexDigits hexSuffix text d s) : hexSuffix? text = some s := by
  obtain ⟨rfl, front, back⟩ := split
  obtain ⟨x, run, rfl, mark, nonempty, all⟩ := mem_hexDigits_iff.mp front
  rw [hexSuffix, mem_star_oneOf_iff isIntegerSuffix_iff] at back
  have stops : ∀ c, s.head? = some c → isGroupedHexDigit c = false :=
    fun c first => not_hexDigit_of_suffix (back c (List.mem_of_mem_head? first))
  simp only [List.cons_append, hexSuffix?, dropWhile_run all stops]
  exact if_pos ⟨mark, length_lt_append nonempty s, List.all_eq_true.mpr back⟩

theorem split_of_hexSuffix? (found : hexSuffix? text = some s) : ∃ d, Split hexDigits hexSuffix text d s := by
  unfold hexSuffix? at found
  split at found
  · rename_i x rest
    dsimp only at found
    split at found
    · rename_i proper
      obtain ⟨mark, shorter, suffix⟩ := proper
      cases found
      have whole := rest.takeWhile_append_dropWhile (p := isGroupedHexDigit)
      have nonempty := takeWhile_ne_nil_of_shorter shorter
      refine ⟨'0' :: x :: rest.takeWhile isGroupedHexDigit, ?_, ?_, ?_⟩
      · rw [List.cons_append, List.cons_append, whole]
      · exact mem_hexDigits_iff.mpr ⟨x, _, rfl, mark, nonempty, fun c => List.mem_takeWhile_imp⟩
      · rw [hexSuffix, mem_star_oneOf_iff isIntegerSuffix_iff]
        exact List.all_eq_true.mp suffix
    · cases found
  · cases found

def afterSign (rest : List Char) : List Char :=
  match rest with
  | '+' :: digits | '-' :: digits => digits
  | _ => rest

theorem afterSign_append {sign : List Char} (signed : sign = [] ∨ sign = ['+'] ∨ sign = ['-'])
    (plain : ∀ c, rest.head? = some c → c ≠ '+' ∧ c ≠ '-') : afterSign (sign ++ rest) = rest := by
  rcases signed with rfl | rfl | rfl
  · rw [List.nil_append]
    unfold afterSign
    split
    · exact absurd rfl (plain '+' rfl).1
    · exact absurd rfl (plain '-' rfl).2
    · rfl
  · rfl
  · rfl

theorem sign_append_afterSign (rest : List Char) :
    ∃ sign, (sign = [] ∨ sign = ['+'] ∨ sign = ['-']) ∧ sign ++ afterSign rest = rest := by
  unfold afterSign
  split
  · exact ⟨['+'], .inr (.inl rfl), rfl⟩
  · exact ⟨['-'], .inr (.inr rfl), rfl⟩
  · exact ⟨[], .inl rfl, rfl⟩

theorem afterExponent?_cons (e : Char) (rest : List Char) : afterExponent? (e :: rest) =
    if (e = 'e' ∨ e = 'E') ∧ ((afterSign rest).dropWhile Char.isDigit).length < (afterSign rest).length
    then some ((afterSign rest).dropWhile Char.isDigit) else none := rfl

theorem afterExponent?_append {power : List Char} (powered : power ∈ exponent.matches')
    (letter : ∀ c ∈ s, c.isAlpha = true) : afterExponent? (power ++ s) = some s := by
  obtain ⟨e, sign, run, rfl, mark, signed, nonempty, all⟩ := mem_exponent_iff.mp powered
  have stops : ∀ c, s.head? = some c → c.isDigit = false :=
    fun c first => (not_digit_of_letter (letter c (List.mem_of_mem_head? first))).1
  have plain : ∀ c, (run ++ s).head? = some c → c ≠ '+' ∧ c ≠ '-' := by
    intro c first
    rw [List.head?_append_of_ne_nil _ nonempty] at first
    have digit := all c (List.mem_of_mem_head? first)
    constructor <;> rintro rfl <;> cases digit
  rw [List.cons_append, List.append_assoc, afterExponent?_cons, afterSign_append signed plain, dropWhile_run all stops]
  exact if_pos ⟨mark, length_lt_append nonempty s⟩

-- Letters alone are none, since no digit follows the first.
theorem afterExponent?_of_letters (letter : ∀ c ∈ s, c.isAlpha = true) : afterExponent? s = none := by
  cases s with
  | nil => rfl
  | cons e rest =>
    have others := (List.forall_mem_cons.mp letter).2
    have plain : ∀ c, rest.head? = some c → c ≠ '+' ∧ c ≠ '-' :=
      fun c first => (not_digit_of_letter (others c (List.mem_of_mem_head? first))).2.2.2
    have stops : ∀ c, rest.head? = some c → c.isDigit = false :=
      fun c first => (not_digit_of_letter (others c (List.mem_of_mem_head? first))).1
    have unsigned : afterSign rest = rest := afterSign_append (.inl rfl) plain
    have none : ([] ++ rest).dropWhile Char.isDigit = rest := dropWhile_run (List.forall_mem_nil _) stops
    rw [List.nil_append] at none
    rw [afterExponent?_cons, unsigned, none]
    exact if_neg fun found => Nat.lt_irrefl _ found.2

theorem exponent_of_afterExponent? (found : afterExponent? cs = some s) : ∃ power ∈ exponent.matches', cs = power ++ s := by
  cases cs with
  | nil => cases found
  | cons e rest =>
    rw [afterExponent?_cons] at found
    split at found
    · rename_i proper
      obtain ⟨mark, shorter⟩ := proper
      obtain ⟨sign, signed, split⟩ := sign_append_afterSign rest
      have whole := (afterSign rest).takeWhile_append_dropWhile (p := Char.isDigit)
      have nonempty := takeWhile_ne_nil_of_shorter shorter
      cases found
      refine ⟨e :: (sign ++ (afterSign rest).takeWhile Char.isDigit), ?_, ?_⟩
      · exact mem_exponent_iff.mpr ⟨e, sign, _, rfl, mark, signed, nonempty, fun c => List.mem_takeWhile_imp⟩
      · rw [List.cons_append, List.append_assoc, whole, split]
    · cases found

def afterMantissa (cs : List Char) : Bool × List Char :=
  let whole := cs.dropWhile isGroupedDigit
  match whole with
  | '.' :: fraction => (true, fraction.dropWhile isGroupedDigit)
  | _ => (false, whole)

theorem afterMantissa_append {whole point fraction : List Char} (grouped : ∀ c ∈ whole, isGroupedDigit c = true)
    (pointed : point = [] ∨ point = ['.']) (grouped' : ∀ c ∈ fraction, isGroupedDigit c = true)
    (stops : ∀ c, rest.head? = some c → isGroupedDigit c = false ∧ c ≠ '.') :
    afterMantissa (whole ++ (point ++ (fraction ++ rest))) = (decide (point = ['.']), rest) := by
  have ends : ∀ c, rest.head? = some c → isGroupedDigit c = false := fun c first => (stops c first).1
  unfold afterMantissa
  rcases pointed with rfl | rfl
  · have both : ∀ c ∈ whole ++ fraction, isGroupedDigit c = true := List.forall_mem_append.mpr ⟨grouped, grouped'⟩
    rw [List.nil_append, ← List.append_assoc, dropWhile_run both ends]
    dsimp only
    split
    · exact absurd rfl (stops '.' rfl).2
    · rfl
  · have point : (whole ++ '.' :: (fraction ++ rest)).dropWhile isGroupedDigit = '.' :: (fraction ++ rest) :=
      dropWhile_run grouped (by simp [isGroupedDigit])
    rw [List.singleton_append, point]
    exact congrArg (Prod.mk true) (dropWhile_run grouped' ends)

theorem mantissa_append_afterMantissa (cs : List Char) : ∃ whole point fraction,
    whole ++ (point ++ (fraction ++ (afterMantissa cs).2)) = cs ∧ (∀ c ∈ whole, isGroupedDigit c = true) ∧
      (point = [] ∨ point = ['.']) ∧ ∀ c ∈ fraction, isGroupedDigit c = true := by
  have whole := cs.takeWhile_append_dropWhile (p := isGroupedDigit)
  refine ⟨cs.takeWhile isGroupedDigit, ?_⟩
  unfold afterMantissa
  dsimp only
  split
  · rename_i fraction rest
    have part := fraction.takeWhile_append_dropWhile (p := isGroupedDigit)
    refine ⟨['.'], fraction.takeWhile isGroupedDigit, ?_, fun c => List.mem_takeWhile_imp, .inr rfl,
      fun c => List.mem_takeWhile_imp⟩
    rw [part, List.singleton_append, ← rest, whole]
  · exact ⟨[], [], whole, fun c => List.mem_takeWhile_imp, .inl rfl, List.forall_mem_nil _⟩

def ending (point : Bool) (rest : List Char) : Option (Bool × Bool × List Char) :=
  match afterExponent? rest with
  | some suffix => if suffix.all Char.isAlpha then some (point, true, suffix) else none
  | none => if rest.all Char.isAlpha then some (point, false, rest) else none

theorem decimalParts?_eq (cs : List Char) :
    decimalParts? cs = ending (afterMantissa cs).1 (afterMantissa cs).2 := rfl

theorem ending_append {power : List Char} (point : Bool) (powered : power = [] ∨ power ∈ exponent.matches')
    (letter : ∀ c ∈ s, c.isAlpha = true) : ending point (power ++ s) = some (point, decide (power ≠ []), s) := by
  unfold ending
  rcases powered with rfl | powered
  · rw [List.nil_append, afterExponent?_of_letters letter]
    exact if_pos (List.all_eq_true.mpr letter)
  · obtain ⟨e, sign, run, shape, -⟩ := mem_exponent_iff.mp powered
    rw [afterExponent?_append powered letter, decide_eq_true (by simp [shape])]
    exact if_pos (List.all_eq_true.mpr letter)

theorem power_of_ending {point point' powered : Bool} (found : ending point rest = some (point', powered, s)) :
    ∃ power, rest = power ++ s ∧ (power = [] ∨ power ∈ exponent.matches') ∧ ∀ c ∈ s, c.isAlpha = true := by
  unfold ending at found
  split at found
  · rename_i suffix after
    split at found
    · rename_i letter
      cases found
      obtain ⟨power, matched, whole⟩ := exponent_of_afterExponent? after
      exact ⟨power, whole, .inr matched, List.all_eq_true.mp letter⟩
    · cases found
  · split at found
    · rename_i letter
      cases found
      exact ⟨[], rfl, .inl rfl, List.all_eq_true.mp letter⟩
    · cases found

-- Neither a point nor the letter of an exponent is mistaken for anything else among the digits.
theorem marks_of_digits {whole point fraction power : List Char} (grouped : ∀ c ∈ whole, isGroupedDigit c = true)
    (pointed : point = [] ∨ point = ['.']) (grouped' : ∀ c ∈ fraction, isGroupedDigit c = true)
    (powered : power = [] ∨ power ∈ exponent.matches') :
    ('.' ∈ whole ++ (point ++ (fraction ++ power)) ↔ point = ['.']) ∧
      ('e' ∈ whole ++ (point ++ (fraction ++ power)) ∨ 'E' ∈ whole ++ (point ++ (fraction ++ power)) ↔ power ≠ []) := by
  have outside : ∀ {run : List Char} {c : Char}, (∀ c ∈ run, isGroupedDigit c = true) → isGroupedDigit c = false → c ∉ run := by
    intro run c all other member
    rw [all c member] at other
    cases other
  have clear : '.' ∉ power ∧ ('e' ∈ power ∨ 'E' ∈ power ↔ power ≠ []) := by
    rcases powered with rfl | powered
    · simp
    · obtain ⟨e, sign, run, rfl, mark, signed, -, all⟩ := mem_exponent_iff.mp powered
      have digits : '.' ∉ run := fun member => absurd (all _ member) (by decide)
      constructor
      · rcases mark with rfl | rfl <;> rcases signed with rfl | rfl | rfl <;> simp [digits]
      · rcases mark with rfl | rfl <;> simp
  have pointless : 'e' ∉ point ∧ 'E' ∉ point ∧ ('.' ∈ point ↔ point = ['.']) := by
    rcases pointed with rfl | rfl <;> simp
  simp only [List.mem_append, outside grouped (c := '.') rfl, outside grouped' (c := '.') rfl, outside grouped (c := 'e') rfl,
    outside grouped' (c := 'e') rfl, outside grouped (c := 'E') rfl, outside grouped' (c := 'E') rfl, pointless, clear,
    false_or, or_false, and_self]

theorem decimalParts?_of_split (split : Split decimalDigits letters text d s) :
    decimalParts? text = some (decide ('.' ∈ d), decide ('e' ∈ d ∨ 'E' ∈ d), s) := by
  obtain ⟨rfl, front, back⟩ := split
  rw [letters, mem_star_oneOf_iff isAlpha_iff] at back
  obtain ⟨whole, point, fraction, power, rfl, grouped, pointed, grouped', powered⟩ := mem_decimalDigits_iff.mp front
  obtain ⟨dotted, raised⟩ := marks_of_digits grouped pointed grouped' powered
  -- an exponent begins with a letter, and so does a suffix
  have stops : ∀ c, (power ++ s).head? = some c → isGroupedDigit c = false ∧ c ≠ '.' := by
    intro c first
    rcases powered with rfl | powered
    · obtain ⟨-, single, point, -, -⟩ := not_digit_of_letter (back c (List.mem_of_mem_head? first))
      exact ⟨single, point⟩
    · obtain ⟨e, sign, run, rfl, mark, -, -, -⟩ := mem_exponent_iff.mp powered
      cases first
      rcases mark with rfl | rfl <;> decide
  have read := afterMantissa_append grouped pointed grouped' stops
  rw [decide_eq_decide.mpr dotted, decide_eq_decide.mpr raised, List.append_assoc, List.append_assoc, List.append_assoc,
    decimalParts?_eq, read]
  exact ending_append _ powered back

theorem split_of_decimalParts? {point powered : Bool} (found : decimalParts? text = some (point, powered, s)) :
    ∃ d, Split decimalDigits letters text d s := by
  rw [decimalParts?_eq] at found
  obtain ⟨power, rest, matched, letter⟩ := power_of_ending found
  obtain ⟨whole, point, fraction, split, grouped, pointed, grouped'⟩ := mantissa_append_afterMantissa text
  refine ⟨whole ++ (point ++ (fraction ++ power)), ?_, ?_, ?_⟩
  · rw [← split, rest]
    simp
  · exact mem_decimalDigits_iff.mpr ⟨whole, point, fraction, power, rfl, grouped, pointed, grouped', matched⟩
  · rw [letters, mem_star_oneOf_iff isAlpha_iff]
    exact letter

end Reading

-- The shape of a literal follows the patterns. A hexadecimal literal is never floating and has its trailing letters as
-- its suffix. Any other text that matches the decimal pattern does so in one way; it has its letters as the suffix, and
-- is floating if there is a point or an exponent among its digits or if the suffix says so. What matches neither is
-- plain.
theorem ofText_by_pattern (text : String) :
    (∀ d s, Split hexDigits hexSuffix (Text.trim text).toList d s →
      ofText text = { isFloating := false, suffix := lower s }) ∧
    ((Text.trim text).toList ∉ (hexDigits * hexSuffix).matches' →
      ∀ d s, Split decimalDigits letters (Text.trim text).toList d s →
        (∀ d' s', Split decimalDigits letters (Text.trim text).toList d' s' → d' = d ∧ s' = s) ∧
          (ofText text).suffix = lower s ∧
          ((ofText text).isFloating = true ↔ '.' ∈ d ∨ ('e' ∈ d ∨ 'E' ∈ d) ∨ lower s ∈ ["f", "d", "m"])) ∧
    ((Text.trim text).toList ∉ (hexDigits * hexSuffix).matches' →
      (Text.trim text).toList ∉ (decimalDigits * letters).matches' →
        ofText text = { isFloating := false, suffix := "" }) := by
  have other : (Text.trim text).toList ∉ (hexDigits * hexSuffix).matches' → hexSuffix? (Text.trim text).toList = none := by
    intro unmatched
    refine Option.eq_none_iff_forall_ne_some.mpr fun s found => unmatched ?_
    obtain ⟨d, split⟩ := split_of_hexSuffix? found
    exact mem_mul_iff_split.mpr ⟨d, s, split⟩
  refine ⟨?_, ?_, ?_⟩
  · intro d s split
    simp only [ofText, hexSuffix?_of_split split]
  · intro unmatched d s split
    have parts := decimalParts?_of_split split
    refine ⟨?_, ?_, ?_⟩
    · intro d' s' split'
      rw [decimalParts?_of_split split'] at parts
      have same : s' = s := (Prod.mk.inj (Prod.mk.inj (Option.some.inj parts)).2).2
      have whole := split'.whole.symm.trans split.whole
      rw [same] at whole
      exact ⟨List.append_cancel_right whole, same⟩
    · simp only [ofText, other unmatched, parts]
    · simp only [ofText, other unmatched, parts, floatingSuffixes, Bool.or_eq_true, decide_eq_true_eq,
        List.contains_eq_mem, or_assoc]
  · intro unmatched unmatched'
    have none : decimalParts? (Text.trim text).toList = none := by
      refine Option.eq_none_iff_forall_ne_some.mpr fun found parts => unmatched' ?_
      obtain ⟨d, split⟩ := split_of_decimalParts? parts
      exact mem_mul_iff_split.mpr ⟨d, _, split⟩
    simp only [ofText, other unmatched, none]

-- Hexadecimal with a digit that could be a suffix, decimal with two letters that could be one, and neither.
theorem odd_literals_by_pattern :
    (Split hexDigits hexSuffix (Text.trim " 0xfL").toList "0xf".toList ['L'] ∧
      ofText " 0xfL" = { isFloating := false, suffix := lower ['L'] }) ∧
    ((Text.trim "1.e+5f").toList ∉ (hexDigits * hexSuffix).matches' ∧
      Split decimalDigits letters (Text.trim "1.e+5f").toList "1.e+5".toList ['f'] ∧
      (∀ d s, Split decimalDigits letters (Text.trim "1.e+5f").toList d s → d = "1.e+5".toList ∧ s = ['f']) ∧
      (ofText "1.e+5f").suffix = lower ['f'] ∧
      ((ofText "1.e+5f").isFloating = true ↔ '.' ∈ "1.e+5".toList ∨ ('e' ∈ "1.e+5".toList ∨ 'E' ∈ "1.e+5".toList) ∨
        lower ['f'] ∈ ["f", "d", "m"])) ∧
    ((Text.trim "1e+").toList ∉ (hexDigits * hexSuffix).matches' ∧
      (Text.trim "1e+").toList ∉ (decimalDigits * letters).matches' ∧
      ofText "1e+" = { isFloating := false, suffix := "" }) := by
  have hexadecimal : Split hexDigits hexSuffix (Text.trim " 0xfL").toList "0xf".toList ['L'] :=
    ⟨by decide +kernel, by decide +kernel, by decide +kernel⟩
  have decimal : Split decimalDigits letters (Text.trim "1.e+5f").toList "1.e+5".toList ['f'] :=
    ⟨by decide +kernel, by decide +kernel, by decide +kernel⟩
  have other : (Text.trim "1.e+5f").toList ∉ (hexDigits * hexSuffix).matches' := by decide +kernel
  have neither : (Text.trim "1e+").toList ∉ (hexDigits * hexSuffix).matches' ∧
      (Text.trim "1e+").toList ∉ (decimalDigits * letters).matches' := by decide +kernel
  exact ⟨⟨hexadecimal, (ofText_by_pattern " 0xfL").1 _ _ hexadecimal⟩,
    ⟨other, decimal, (ofText_by_pattern "1.e+5f").2.1 other _ _ decimal⟩,
    neither.1, neither.2, (ofText_by_pattern "1e+").2.2 neither.1 neither.2⟩

end ScopeAtlas.NumberShape
