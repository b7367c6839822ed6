import ScopeAtlas.Proofs.Spelling

namespace ScopeAtlas

open Token

-- The inside of a tag: no `>` stands outside quotes, and all quotes are closed.
inductive Unbroken : List Char → Prop
  | done : Unbroken []
  | plain {c : Char} {rest : List Char} (bracket : c ≠ '>') (double : c ≠ '"') (single : c ≠ '\'')
    (later : Unbroken rest) : Unbroken (c :: rest)
  | quoted {quote : Char} {body rest : List Char} (isQuote : quote = '"' ∨ quote = '\'') (inside : quote ∉ body)
    (later : Unbroken rest) : Unbroken (quote :: body ++ quote :: rest)

-- Closes the brackets that it opens, and `depth` more.
inductive Balanced : Nat → List Char → Prop
  | done : Balanced 0 []
  | other {depth : Nat} {c : Char} {rest : List Char} (opening : c ≠ '<') (closing : c ≠ '>')
    (later : Balanced depth rest) : Balanced depth (c :: rest)
  | opens {depth : Nat} {rest : List Char} (later : Balanced (depth + 1) rest) : Balanced depth ('<' :: rest)
  | closes {depth : Nat} {rest : List Char} (later : Balanced depth rest) : Balanced (depth + 1) ('>' :: rest)

-- A piece of a document, given by what stands between its marks.
inductive Lexeme
  | text (run : List Char)
  | rawText (body : List Char)
  | comment (body : List Char)
  | documentType (keyword body : List Char)
  | instruction (body : List Char)
  | endTag (inside : List Char)
  | startTag (inside : List Char)

namespace Lexeme

def rawOpening : List Char := ['!', '[', 'C', 'D', 'A', 'T', 'A', '[']

def written : Lexeme → List Char
  | text run => run
  | rawText body => '<' :: rawOpening ++ body ++ [']', ']', '>']
  | comment body => '<' :: '!' :: '-' :: '-' :: body ++ ['-', '-', '>']
  | documentType keyword body => '<' :: '!' :: keyword ++ body ++ ['>']
  | instruction body => '<' :: '?' :: body ++ ['?', '>']
  | endTag inside => '<' :: '/' :: inside ++ ['>']
  | startTag inside => '<' :: inside ++ ['>']

-- What may stand between the marks. The question mark that opens an instruction is none of the mark that ends it.
def Proper : Lexeme → Prop
  | text run => run ≠ [] ∧ '<' ∉ run
  | rawText body => ¬ [']', ']', '>'] <:+: body
  | comment body => ¬ ['-', '-', '>'] <:+: body
  | documentType keyword body =>
    keyword.map Char.toLower = "doctype".toList ∧ Balanced 0 body ∧ ∃ c ∈ body, isSpace c = false
  | instruction body => ¬ ['?', '>'] <:+: '?' :: body
  | endTag inside => Unbroken inside
  | startTag inside => Unbroken inside ∧ ∀ c, inside.head? = some c → c ≠ '!' ∧ c ≠ '?' ∧ c ≠ '/'

def isText : Lexeme → Bool
  | text _ => true
  | _ => false

def tokens (offset : Nat) : Lexeme → List Token
  | text run => [.text run]
  | rawText body => [.rawText body]
  | endTag inside => [.endTag inside]
  | startTag inside => [.startTag offset inside]
  | comment _ | documentType _ _ | instruction _ => []

end Lexeme

-- A text as a row of pieces, where text goes on up to the next `<`.
inductive Lexed : List Lexeme → List Char → Prop
  | done : Lexed [] []
  | next {lexeme : Lexeme} {lexemes : List Lexeme} {rest : List Char} (proper : lexeme.Proper)
    (stops : lexeme.isText = true → ∀ c, rest.head? = some c → c = '<') (later : Lexed lexemes rest) :
    Lexed (lexeme :: lexemes) (lexeme.written ++ rest)

theorem Unbroken.passes {cs : List Char} (unbroken : Unbroken cs) : Passes cs := by
  induction unbroken with
  | done => exact fun out => by simp
  | @plain c rest bracket double single _ ih =>
    have first : Passes [c] := passes_clear (by simp [bracket, double, single])
    exact first.append ih
  | @quoted quote body rest isQuote inside _ ih =>
    have first := passes_quoted isQuote fun c member same => inside (same ▸ member)
    have whole := first.append ih
    rwa [List.append_assoc, List.singleton_append] at whole

theorem Unbroken.tail {c : Char} {cs : List Char} (double : c ≠ '"') (single : c ≠ '\'') (unbroken : Unbroken (c :: cs)) :
    Unbroken cs := by
  generalize whole : c :: cs = text at unbroken
  cases unbroken with
  | done => cases whole
  | plain _ _ _ later =>
    cases whole
    exact later
  | quoted isQuote =>
    cases whole
    rcases isQuote with rfl | rfl
    · exact absurd rfl double
    · exact absurd rfl single

section Balancing

variable {depth : Nat} {cs rest : List Char}

theorem Balanced.append (clear : ∀ c ∈ cs, c ≠ '<' ∧ c ≠ '>') (balanced : Balanced depth rest) :
    Balanced depth (cs ++ rest) := by
  induction cs with
  | nil => exact balanced
  | cons c cs ih =>
    obtain ⟨first, later⟩ := List.forall_mem_cons.mp clear
    exact .other first.1 first.2 (ih later)

theorem Balanced.of_append (clear : ∀ c ∈ cs, c ≠ '<' ∧ c ≠ '>') (balanced : Balanced depth (cs ++ rest)) :
    Balanced depth rest := by
  induction cs with
  | nil => exact balanced
  | cons c cs ih =>
    obtain ⟨first, later⟩ := List.forall_mem_cons.mp clear
    cases balanced with
    | other _ _ balanced => exact ih later balanced
    | opens => exact absurd rfl first.1
    | closes => exact absurd rfl first.2

end Balancing

namespace Token

section Sorts

variable {c : Char} {rest : List Char}

theorem documentType_first (sort : Markup.of (c :: rest) = .documentType) : c = '!' := by
  unfold Markup.of at sort
  split at sort <;> simp_all

theorem instruction_first (sort : Markup.of (c :: rest) = .instruction) : c = '?' := by
  unfold Markup.of at sort
  split at sort <;> simp_all

theorem endTag_first (sort : Markup.of (c :: rest) = .endTag) : c = '/' := by
  unfold Markup.of at sort
  split at sort <;> simp_all

theorem startTag_iff_first : Markup.of (c :: rest) = .startTag ↔ c ≠ '!' ∧ c ≠ '?' ∧ c ≠ '/' := by
  unfold Markup.of
  split <;> simp_all

end Sorts

section Cuts

variable {cs before after stop : List Char} {quote : Option Char} {depth : Nat}

theorem eq_of_cutAt (nonempty : stop ≠ []) (cut : cutAt stop cs = some (before, after)) :
    cs = before ++ stop ++ after ∧ ¬ stop <:+: before := by
  induction cs generalizing before with
  | nil => cases cut
  | cons c rest ih =>
    rw [cutAt] at cut
    split at cut
    · rename_i begins
      obtain ⟨more, whole⟩ := List.isPrefixOf_iff_prefix.mp begins
      cases cut
      rw [← whole, List.drop_left]
      exact ⟨rfl, fun within => nonempty (List.infix_nil.mp within)⟩
    · rename_i other
      obtain ⟨⟨before', after'⟩, later, same⟩ := Option.map_eq_some_iff.mp cut
      cases same
      obtain ⟨rfl, outside⟩ := ih later
      refine ⟨rfl, ?_⟩
      rw [List.infix_cons_iff, not_or]
      refine ⟨fun begins => other (List.isPrefixOf_iff_prefix.mpr ?_), outside⟩
      exact begins.trans ⟨stop ++ after, by simp⟩

def Continues : Option Char → List Char → Prop
  | none, cs => Unbroken cs
  | some quote, cs => ∃ body rest, cs = body ++ quote :: rest ∧ quote ∉ body ∧ Unbroken rest

theorem eq_of_cutTag (isQuote : ∀ q, quote = some q → q = '"' ∨ q = '\'') (cut : cutTag quote cs = some (before, after)) :
    cs = before ++ '>' :: after ∧ Continues quote before := by
  induction cs generalizing quote before with
  | nil => simp [cutTag] at cut
  | cons c rest ih =>
    cases quote with
    | none =>
      rw [cutTag] at cut
      split at cut
      · rename_i bracket
        cases cut
        exact ⟨congrArg (· :: after) bracket, .done⟩
      · rename_i bracket
        obtain ⟨⟨before', after'⟩, later, same⟩ := Option.map_eq_some_iff.mp cut
        cases same
        split at later
        · rename_i opened
          obtain ⟨rfl, body, more, rfl, inside, unbroken⟩ := ih (by simpa using opened) later
          exact ⟨rfl, .quoted opened inside unbroken⟩
        · rename_i plain
          rw [not_or] at plain
          obtain ⟨rfl, unbroken⟩ := ih (by simp) later
          exact ⟨rfl, .plain bracket plain.1 plain.2 unbroken⟩
    | some q =>
      rw [cutTag] at cut
      obtain ⟨⟨before', after'⟩, later, same⟩ := Option.map_eq_some_iff.mp cut
      cases same
      split at later
      · rename_i closed
        obtain ⟨rfl, unbroken⟩ := ih (by simp) later
        exact ⟨rfl, [], before', congrArg (· :: before') closed, by simp, unbroken⟩
      · rename_i other
        obtain ⟨rfl, body, more, rfl, inside, unbroken⟩ := ih isQuote later
        exact ⟨rfl, c :: body, more, rfl, by simp [Ne.symm other, inside], unbroken⟩

theorem cutBalanced_append (balanced : Balanced depth cs) (out : List Char) :
    cutBalanced depth (cs ++ '>' :: out) = some (cs, out) := by
  induction balanced with
  | done => simp [cutBalanced]
  | other opening closing _ ih => simp [cutBalanced, opening, closing, ih]
  | opens _ ih => simp [cutBalanced, ih]
  | closes _ ih => simp [cutBalanced, ih]

theorem eq_of_cutBalanced (cut : cutBalanced depth cs = some (before, after)) :
    cs = before ++ '>' :: after ∧ Balanced depth before := by
  induction cs generalizing depth before with
  | nil => simp [cutBalanced] at cut
  | cons c rest ih =>
    rw [cutBalanced] at cut
    split at cut
    · rename_i ends
      obtain ⟨rfl, rfl⟩ := ends
      cases cut
      exact ⟨rfl, .done⟩
    · rename_i goesOn
      obtain ⟨⟨before', after'⟩, later, same⟩ := Option.map_eq_some_iff.mp cut
      cases same
      obtain ⟨rfl, balanced⟩ := ih later
      refine ⟨rfl, ?_⟩
      by_cases opening : c = '<'
      · subst opening
        exact .opens balanced
      by_cases closing : c = '>'
      · subst closing
        cases depth with
        | zero => exact absurd ⟨rfl, rfl⟩ goesOn
        | succ depth => exact .closes balanced
      · rw [if_neg opening, if_neg closing] at balanced
        exact .other opening closing balanced

end Cuts

end Token

namespace Lexeme

def markup : Lexeme → Markup
  | text _ => .unknown
  | rawText _ => .rawText
  | comment _ => .comment
  | documentType _ _ => .documentType
  | instruction _ => .instruction
  | endTag _ => .endTag
  | startTag _ => .startTag

def inside : Lexeme → List Char
  | text run => run
  | rawText body => rawOpening ++ body
  | comment body => body
  | documentType keyword body => '!' :: keyword ++ body
  | instruction body => '?' :: body
  | endTag inside => '/' :: inside
  | startTag inside => inside

-- A piece is recognised by what follows its `<`, cut where it ends, and known for what it is.
structure Recognised (lexeme : Lexeme) (tail rest : List Char) : Prop where
  sort : Markup.of tail = lexeme.markup
  cut : lexeme.markup.cut tail = some (lexeme.inside, rest)
  known : ∀ offset, ofMarkup offset tail lexeme.inside lexeme.markup = some (lexeme.tokens offset)

section Recognising

variable {keyword body inside : List Char}

theorem recognised_rawText (proper : (rawText body).Proper) (rest : List Char) :
    (rawText body).Recognised (rawOpening ++ body ++ [']', ']', '>'] ++ rest) rest := by
  have whole : ¬ [']', ']', '>'] <:+: rawOpening ++ body := by
    simpa [rawOpening, List.infix_cons_iff, Proper] using proper
  have cut := @cutAt_append [']', ']'] '>' _ (by decide) whole rest
  refine ⟨rfl, ?_, ?_⟩
  · exact cut
  · intro offset
    simp [ofMarkup, tokens, Lexeme.inside, markup, rawOpening]

theorem recognised_comment (proper : (comment body).Proper) (rest : List Char) :
    (comment body).Recognised ('!' :: '-' :: '-' :: body ++ ['-', '-', '>'] ++ rest) rest := by
  refine ⟨rfl, @cutAt_append ['-', '-'] '>' body (by decide) proper rest, ?_⟩
  intro offset
  simp [ofMarkup, tokens, markup]

theorem recognised_instruction (proper : (instruction body).Proper) (rest : List Char) :
    (instruction body).Recognised ('?' :: body ++ ['?', '>'] ++ rest) rest :=
  ⟨rfl, @cutAt_append ['?'] '>' ('?' :: body) (by decide) proper rest, fun _ => rfl⟩

theorem recognised_endTag (proper : (endTag inside).Proper) (rest : List Char) :
    (endTag inside).Recognised ('/' :: inside ++ ['>'] ++ rest) rest := by
  have slash : Passes ['/'] := passes_clear (by simp)
  have cut := (slash.append (Unbroken.passes proper)).cutTag rest
  refine ⟨rfl, ?_, fun _ => rfl⟩
  rw [List.append_assoc, List.singleton_append]
  exact cut

theorem recognised_startTag (proper : (startTag inside).Proper) (rest : List Char) :
    (startTag inside).Recognised (inside ++ ['>'] ++ rest) rest := by
  obtain ⟨unbroken, first⟩ := proper
  rw [List.append_assoc, List.singleton_append]
  refine ⟨?_, unbroken.passes.cutTag rest, fun _ => rfl⟩
  cases inside with
  | nil => rfl
  | cons c later => exact startTag_iff_first.mpr (first c rfl)

theorem keyword_clear (spelled : keyword.map Char.toLower = "doctype".toList) : ∀ c ∈ keyword, c ≠ '<' ∧ c ≠ '>' := by
  intro c member
  have listed : c.toLower ∈ "doctype".toList := spelled ▸ List.mem_map_of_mem member
  constructor
  · rintro rfl
    exact absurd listed (by decide +kernel)
  · rintro rfl
    exact absurd listed (by decide +kernel)

theorem eq_of_toLower {c : Char} (lower : c.toLower = 'd') : c = 'D' ∨ c = 'd' := by
  unfold Char.toLower at lower
  split at lower
  · have same : c.val + ('a'.val - 'A'.val) = 'd'.val := congrArg Char.val lower
    exact .inl (Char.ext (eq_sub_of_add_eq same))
  · exact .inr lower

theorem recognised_documentType (proper : (documentType keyword body).Proper) (rest : List Char) :
    (documentType keyword body).Recognised ('!' :: keyword ++ body ++ ['>'] ++ rest) rest := by
  obtain ⟨spelled, balanced, c, member, shows⟩ := proper
  have length : keyword.length = 7 := by simpa using congrArg List.length spelled
  have clear : ∀ c ∈ '!' :: keyword, c ≠ '<' ∧ c ≠ '>' := List.forall_mem_cons.mpr ⟨by decide, keyword_clear spelled⟩
  have cut := cutBalanced_append (balanced.append clear) rest
  refine ⟨?_, ?_, ?_⟩
  · cases keyword with
    | nil => cases length
    | cons k keyword =>
      have first : k.toLower = 'd' := by simpa using congrArg List.head? spelled
      rcases eq_of_toLower first with rfl | rfl <;> rfl
  · rw [List.append_assoc, List.singleton_append]
    exact cut
  · intro offset
    have word : (('!' :: keyword ++ body).take 8).map Char.toLower = "!doctype".toList := by
      rw [List.cons_append, List.take_succ_cons, ← length, List.take_left, List.map_cons, spelled]
      decide +kernel
    have remains : ('!' :: keyword ++ body).drop 8 = body := by
      rw [List.cons_append, List.drop_succ_cons, ← length, List.drop_left]
    have some : (('!' :: keyword ++ body).drop 8).any (!isSpace ·) = true := by
      rw [remains]
      exact List.any_eq_true.mpr ⟨c, member, by simp [shows]⟩
    exact if_pos ⟨word, some⟩

end Recognising

variable {lexeme : Lexeme} {tail rest : List Char}

theorem recognised (proper : lexeme.Proper) (isMarkup : lexeme.isText = false) (rest : List Char) :
    ∃ tail, lexeme.written ++ rest = '<' :: tail ∧ lexeme.Recognised tail rest := by
  cases lexeme with
  | text run => cases isMarkup
  | rawText body => exact ⟨_, rfl, recognised_rawText proper rest⟩
  | comment body => exact ⟨_, rfl, recognised_comment proper rest⟩
  | documentType keyword body => exact ⟨_, rfl, recognised_documentType proper rest⟩
  | instruction body => exact ⟨_, rfl, recognised_instruction proper rest⟩
  | endTag inside => exact ⟨_, rfl, recognised_endTag proper rest⟩
  | startTag inside => exact ⟨_, rfl, recognised_startTag proper rest⟩

theorem byteLength_framed {front back : List Char} {size : Nat} (marks : byteLength front + byteLength back = size)
    (inside : List Char) : byteLength (front ++ inside ++ back) = size + byteLength inside := by
  rw [byteLength_append, byteLength_append, ← marks]
  omega

theorem byteLength_written (isMarkup : lexeme.isText = false) :
    byteLength lexeme.written = lexeme.markup.frame + byteLength lexeme.inside := by
  cases lexeme with
  | text run => cases isMarkup
  | rawText body => exact @byteLength_framed ['<'] [']', ']', '>'] 4 (by decide) (rawOpening ++ body)
  | comment body => exact @byteLength_framed ['<', '!', '-', '-'] ['-', '-', '>'] 7 (by decide) body
  | documentType keyword body => exact @byteLength_framed ['<'] ['>'] 2 (by decide) ('!' :: keyword ++ body)
  | instruction body => exact @byteLength_framed ['<'] ['?', '>'] 3 (by decide) ('?' :: body)
  | endTag inside => exact @byteLength_framed ['<'] ['>'] 2 (by decide) ('/' :: inside)
  | startTag inside => exact @byteLength_framed ['<'] ['>'] 2 (by decide) inside

theorem scanFrom_written (proper : lexeme.Proper) (stops : lexeme.isText = true → ∀ c, rest.head? = some c → c = '<')
    (offset : Nat) : scanFrom offset (lexeme.written ++ rest) =
      lexeme.tokens offset ++ scanFrom (offset + byteLength lexeme.written) rest := by
  cases isMarkup : lexeme.isText with
  | false =>
    obtain ⟨tail, whole, recognised⟩ := recognised proper isMarkup rest
    have cut := recognised.cut
    have known := recognised.known offset
    rw [← recognised.sort] at cut known
    rw [whole, scanFrom_markup cut known, recognised.sort, byteLength_written isMarkup, Nat.add_assoc]
  | true =>
    cases lexeme with
    | text run =>
      have ends : rest.takeWhile (· ≠ '<') = [] ∧ rest.dropWhile (· ≠ '<') = rest := by
        cases rest with
        | nil => exact ⟨rfl, rfl⟩
        | cons c rest =>
          cases stops rfl c rfl
          exact ⟨rfl, rfl⟩
      have scanned := @scanFrom_text offset run (fun c member same => proper.2 (same ▸ member)) proper.1 rest
      rw [ends.1, ends.2, List.append_nil] at scanned
      exact scanned
    | _ => cases isMarkup

section Finding

variable {inside after : List Char} {found : List Token} {offset : Nat}

theorem find_rawText (cut : cutAt [']', ']', '>'] tail = some (inside, after))
    (known : ofMarkup offset tail inside .rawText = some found) :
    ∃ body, (rawText body).Proper ∧ '<' :: tail = (rawText body).written ++ after := by
  obtain ⟨rfl, outside⟩ := eq_of_cutAt (by simp) cut
  simp only [ofMarkup] at known
  split at known
  · rename_i begins
    obtain ⟨body, rfl⟩ := List.isPrefixOf_iff_prefix.mp begins
    refine ⟨body, fun within => outside (within.trans (List.suffix_append _ body).isInfix), ?_⟩
    simp [written, rawOpening]
  · cases known

theorem find_comment (cut : cutAt ['-', '-', '>'] (tail.drop 3) = some (inside, after))
    (known : ofMarkup offset tail inside .comment = some found) :
    ∃ body, (comment body).Proper ∧ '<' :: tail = (comment body).written ++ after := by
  simp only [ofMarkup] at known
  split at known
  · rename_i begins
    obtain ⟨more, rfl⟩ := List.isPrefixOf_iff_prefix.mp begins
    obtain ⟨whole, outside⟩ := eq_of_cutAt (by simp) cut
    refine ⟨inside, outside, ?_⟩
    have same : more = inside ++ ['-', '-', '>'] ++ after := by simpa using whole
    simp [written, same]
  · cases known

theorem find_documentType (sort : Markup.of tail = .documentType) (cut : cutBalanced 0 tail = some (inside, after))
    (known : ofMarkup offset tail inside .documentType = some found) :
    ∃ keyword body, (documentType keyword body).Proper ∧ '<' :: tail = (documentType keyword body).written ++ after := by
  obtain ⟨rfl, balanced⟩ := eq_of_cutBalanced cut
  simp only [ofMarkup] at known
  split at known
  · rename_i proper
    obtain ⟨spelled, shows⟩ := proper
    cases inside with
    | nil => cases sort
    | cons c inside =>
      cases documentType_first sort
      have word : (inside.take 7).map Char.toLower = "doctype".toList := by simpa using congrArg List.tail spelled
      have whole := inside.take_append_drop 7
      have clear : ∀ c ∈ '!' :: inside.take 7, c ≠ '<' ∧ c ≠ '>' := List.forall_mem_cons.mpr ⟨by decide, keyword_clear word⟩
      obtain ⟨d, member, shown⟩ := List.any_eq_true.mp shows
      rw [← whole] at balanced
      refine ⟨inside.take 7, inside.drop 7, ⟨word, balanced.of_append clear, d, member, by simpa using shown⟩, ?_⟩
      simp [written]
  · cases known

theorem find_instruction (sort : Markup.of tail = .instruction) (cut : cutAt ['?', '>'] tail = some (inside, after))
    (known : ofMarkup offset tail inside .instruction = some found) :
    ∃ body, (instruction body).Proper ∧ '<' :: tail = (instruction body).written ++ after := by
  obtain ⟨rfl, outside⟩ := eq_of_cutAt (by simp) cut
  simp only [ofMarkup] at known
  split at known
  · cases known
  · rename_i nonempty
    cases inside with
    | nil => exact absurd rfl nonempty
    | cons c body =>
      cases instruction_first sort
      exact ⟨body, outside, rfl⟩

theorem find_endTag (sort : Markup.of tail = .endTag) (cut : cutTag none tail = some (inside, after)) :
    ∃ body, (endTag body).Proper ∧ '<' :: tail = (endTag body).written ++ after := by
  obtain ⟨rfl, unbroken⟩ := eq_of_cutTag (by simp) cut
  cases inside with
  | nil => cases sort
  | cons c body =>
    cases endTag_first sort
    exact ⟨body, unbroken.tail (by decide) (by decide), by simp [written]⟩

theorem find_startTag (sort : Markup.of tail = .startTag) (cut : cutTag none tail = some (inside, after)) :
    (startTag inside).Proper ∧ '<' :: tail = (startTag inside).written ++ after := by
  obtain ⟨rfl, unbroken⟩ := eq_of_cutTag (by simp) cut
  refine ⟨⟨unbroken, ?_⟩, by simp [written]⟩
  intro c first
  cases inside with
  | nil => cases first
  | cons d body =>
    cases first
    exact startTag_iff_first.mp sort

-- Markup that is no break of the syntax is one of the pieces.
theorem find_markup (cut : (Markup.of tail).cut tail = some (inside, after))
    (known : ofMarkup offset tail inside (Markup.of tail) = some found) :
    ∃ lexeme : Lexeme, lexeme.Proper ∧ lexeme.isText = false ∧ '<' :: tail = lexeme.written ++ after := by
  cases sort : Markup.of tail with
  | rawText =>
    rw [sort] at cut known
    obtain ⟨body, proper, whole⟩ := find_rawText cut known
    exact ⟨_, proper, rfl, whole⟩
  | comment =>
    rw [sort] at cut known
    obtain ⟨body, proper, whole⟩ := find_comment cut known
    exact ⟨_, proper, rfl, whole⟩
  | documentType =>
    rw [sort] at cut known
    obtain ⟨keyword, body, proper, whole⟩ := find_documentType sort cut known
    exact ⟨_, proper, rfl, whole⟩
  | instruction =>
    rw [sort] at cut known
    obtain ⟨body, proper, whole⟩ := find_instruction sort cut known
    exact ⟨_, proper, rfl, whole⟩
  | endTag =>
    rw [sort] at cut
    obtain ⟨body, proper, whole⟩ := find_endTag sort cut
    exact ⟨_, proper, rfl, whole⟩
  | startTag =>
    rw [sort] at cut
    obtain ⟨proper, whole⟩ := find_startTag sort cut
    exact ⟨_, proper, rfl, whole⟩
  | unknown =>
    rw [sort] at cut
    cases cut

end Finding

end Lexeme

-- A text is taken apart from its start, by induction on what is left of it.
theorem exists_lexed {offset : Nat} {cs : List Char} (sound : Token.malformed ∉ scanFrom offset cs) :
    ∃ lexemes, Lexed lexemes cs := by
  induction length : cs.length using Nat.strongRecOn generalizing offset cs with
  | ind size ih =>
    subst length
    cases cs with
    | nil => exact ⟨[], .done⟩
    | cons c tail =>
      by_cases markup : c = '<'
      · subst markup
        rw [scanFrom, if_pos rfl] at sound
        dsimp only at sound
        split at sound
        · exact absurd List.mem_cons_self sound
        · rename_i inside after cut
          split at sound
          · exact absurd List.mem_cons_self sound
          · rename_i found known
            obtain ⟨lexeme, proper, isMarkup, whole⟩ := Lexeme.find_markup cut known
            have shorter := Markup.cut_shorter cut
            obtain ⟨lexemes, later⟩ := ih _ (Nat.lt_succ_of_lt shorter) (fun member => sound (List.mem_append_right _ member)) rfl
            rw [whole]
            exact ⟨lexeme :: lexemes, .next proper (fun isText => absurd isText (by simp [isMarkup])) later⟩
      · rw [scanFrom, if_neg markup] at sound
        have plain : '<' ∉ c :: tail.takeWhile (· ≠ '<') := by
          rw [List.mem_cons, not_or]
          exact ⟨Ne.symm markup, fun member => absurd (List.mem_takeWhile_imp member) (by simp)⟩
        have stops : ∀ d, (tail.dropWhile (· ≠ '<')).head? = some d → d = '<' := by
          intro d first
          have other := tail.head?_dropWhile_not (· ≠ '<')
          rw [first] at other
          simpa using other
        have shorter := (List.dropWhile_sublist (l := tail) (· ≠ '<')).length_le
        obtain ⟨lexemes, later⟩ := ih _ (Nat.lt_succ_of_le shorter) (fun member => sound (List.mem_cons_of_mem _ member)) rfl
        have next := @Lexed.next (.text (c :: tail.takeWhile (· ≠ '<'))) _ _ ⟨by simp, plain⟩ (fun _ => stops) later
        exact ⟨_, by simpa [Lexeme.written] using next⟩

end ScopeAtlas
