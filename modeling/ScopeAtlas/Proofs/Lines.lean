import Mathlib.Data.List.Forall2
import ScopeAtlas.Proofs.Lexemes
import ScopeAtlas.Proofs.Rendering

namespace ScopeAtlas

open Token

def newlineBytes (cs : List Char) : Nat := (cs.flatMap String.utf8EncodeChar).count 10

-- The byte of a line end is no part of another character, since all bytes of a longer one are at least 128.
theorem count_utf8EncodeChar (c : Char) : (String.utf8EncodeChar c).count 10 = if c = '\n' then 1 else 0 := by
  have byte : ∀ n < 256, UInt8.ofNat n = 10 ↔ n = 10 := by decide +kernel
  have same : c = '\n' ↔ c.val.toNat = 10 := by
    rw [← Char.toNat_inj]
    rfl
  simp only [same]
  unfold String.utf8EncodeChar
  dsimp only
  split
  · rename_i short
    rw [List.count_singleton]
    simp only [beq_iff_eq, byte _ (Nat.lt_of_le_of_lt short (by decide))]
  · rename_i long
    have other : ∀ n, 128 ≤ n → n < 256 → 10 ≠ UInt8.ofNat n := by
      intro n low high equal
      have := (byte n high).mp equal.symm
      omega
    have line : ¬ c.val.toNat = 10 := by omega
    rw [if_neg line, List.count_eq_zero]
    split
    · simp only [List.mem_cons, List.not_mem_nil, or_false, not_or]
      exact ⟨other _ (by omega) (by omega), other _ (by omega) (by omega)⟩
    split
    · simp only [List.mem_cons, List.not_mem_nil, or_false, not_or]
      exact ⟨other _ (by omega) (by omega), other _ (by omega) (by omega), other _ (by omega) (by omega)⟩
    · simp only [List.mem_cons, List.not_mem_nil, or_false, not_or]
      exact ⟨other _ (by omega) (by omega), other _ (by omega) (by omega), other _ (by omega) (by omega),
        other _ (by omega) (by omega)⟩

theorem newlineBytes_eq_count (cs : List Char) : newlineBytes cs = cs.count '\n' := by
  unfold newlineBytes
  induction cs with
  | nil => rfl
  | cons c cs ih =>
    rw [List.flatMap_cons, List.count_append, ih, count_utf8EncodeChar, List.count_cons]
    simp [Nat.add_comm]

-- A start tag of a text: what stands before its `<`, and what stands inside it.
structure Opening where
  before : List Char
  inside : List Char

def Lexeme.openings (before : List Char) : Lexeme → List Opening
  | .startTag inside => [⟨before, inside⟩]
  | .text _ | .rawText _ | .comment _ | .documentType _ _ | .instruction _ | .endTag _ => []

def openings (before : List Char) : List Lexeme → List Opening
  | [] => []
  | lexeme :: lexemes => lexeme.openings before ++ openings (before ++ lexeme.written) lexemes

-- The start tag stands in the text, the element is what it says, and it is on the line of the tag's `<`.
structure Opens (whole : List Char) (e : Element) (o : Opening) : Prop where
  written : o.before ++ (Lexeme.startTag o.inside).written <+: whole
  read : ∃ start, Tag.read? o.inside = some start ∧ start.tag = e.tag ∧ start.attributes = e.attributes
  line : e.line = 1 + newlineBytes o.before

theorem Opens.line_le {whole : List Char} {e : Element} {o : Opening} (opens : Opens whole e o) :
    e.line ≤ newlineBytes whole + 1 := by
  have before := (List.prefix_append o.before _).trans opens.written
  have fewer := before.sublist.count_le '\n'
  rw [opens.line, newlineBytes_eq_count, newlineBytes_eq_count]
  omega

namespace Element

-- An element without its content and its place, so that it stays what it is while the reader fills it.
def heading (e : Element) : Element := { tag := e.tag, attributes := e.attributes, line := e.line }

def headings (e : Element) : List Element := (e :: e.descendants).map heading

end Element

theorem Content.descendants_ofPieces_append (ps qs : List Piece) :
    (ofPieces (ps ++ qs)).descendants = (ofPieces ps).descendants ++ (ofPieces qs).descendants := by
  induction ps with
  | nil => rfl
  | cons p ps ih =>
    cases p with
    | text run => exact ih
    | element e => simp [ofPieces, descendants, ih]

theorem Content.headings_positioned (c : Content) (parent : String) (earlier : List String) :
    (c.positioned parent earlier).descendants.map Element.heading = c.descendants.map Element.heading := by
  induction c generalizing parent earlier with
  | nil => rfl
  | text run rest ih => exact ih parent earlier
  | element tag attributes position line inner rest ihInner ihRest =>
    simp [positioned, descendants, ihInner, ihRest, Element.heading]

theorem Element.headings_positioned (e : Element) : e.positioned.headings = e.headings :=
  congrArg (e.heading :: ·) (e.content.headings_positioned ("/" ++ e.tag) [])

namespace Document

structure LineCursor.Passed (cursor : LineCursor) (passed whole : List Char) : Prop where
  ahead : whole = passed ++ cursor.ahead
  offset : cursor.offset = byteLength passed
  line : cursor.line = 1 + passed.count '\n'

theorem advance_append {gap : List Char} {target offset : Nat} (reaches : offset + byteLength gap = target) (line : Nat)
    (rest : List Char) : advance target (gap ++ rest) offset line = ⟨rest, target, line + gap.count '\n'⟩ := by
  induction gap generalizing offset line with
  | nil =>
    have arrived : offset = target := reaches
    subst arrived
    cases rest with
    | nil => rfl
    | cons c rest => exact if_neg (Nat.lt_irrefl offset)
  | cons c gap ih =>
    have size : byteLength (c :: gap) = c.utf8Size + byteLength gap := by
      have split := byteLength_append [c] gap
      simpa [byteLength] using split
    have positive := c.utf8Size_pos
    have before : offset < target := by omega
    rw [List.cons_append, advance, if_pos before, ih (by omega), List.count_cons]
    by_cases newline : c = '\n'
    · simp [newline, Nat.add_comm, Nat.add_left_comm]
    · simp [newline]

theorem LineCursor.Passed.moveTo {cursor : LineCursor} {passed before whole : List Char}
    (stands : cursor.Passed passed whole) (behind : passed <+: before) (within : before <+: whole) :
    (cursor.moveTo (byteLength before)).Passed before whole := by
  obtain ⟨gap, rfl⟩ := behind
  obtain ⟨rest, rfl⟩ := within
  have left : cursor.ahead = gap ++ rest := by simpa using stands.ahead.symm
  have reaches : cursor.offset + byteLength gap = byteLength (passed ++ gap) := by rw [stands.offset, byteLength_append]
  have moved := advance_append reaches cursor.line rest
  unfold LineCursor.moveTo
  rw [left, moved]
  exact ⟨rfl, rfl, by rw [stands.line, List.count_append, Nat.add_assoc]⟩

def State.headings (state : State) : List Element :=
  (state.root.toList ++ state.stack.reverse.map OpenElement.close).flatMap Element.headings

section Steps

variable {state next : State}

theorem headings_close_cons (o : OpenElement) (p : Piece) :
    ({ o with pieces := p :: o.pieces } : OpenElement).close.headings =
      o.close.headings ++ (Content.ofPieces [p]).descendants.map Element.heading := by
  have split := Content.descendants_ofPieces_append o.pieces.reverse [p]
  simp [Element.headings, OpenElement.close, Element.descendants, Element.heading, split]

theorem headings_pushText (o : OpenElement) (run : String) : (o.pushText run).close.headings = o.close.headings := by
  have fresh : ∀ (before : OpenElement) (text : String),
      ({ before with pieces := .text text :: before.pieces } : OpenElement).close.headings = before.close.headings := by
    intro before text
    rw [headings_close_cons]
    exact List.append_nil _
  unfold OpenElement.pushText
  split
  · rename_i text earlier last
    -- The run that grows is the last piece of the element without it.
    have without := fresh { o with pieces := earlier }
    have same : o = { o with pieces := .text text :: earlier } := by rw [← last]
    rw [without, ← without text, ← same]
  · exact fresh o run

theorem State.headings_push (state : State) (o : OpenElement) :
    ({ state with stack := o :: state.stack } : State).headings = state.headings ++ o.close.headings := by
  simp [State.headings]

theorem attach_ok {e : Element} (attached : state.attach e = .ok next) :
    next.cursor = state.cursor ∧ next.headings = state.headings ++ e.headings := by
  unfold State.attach at attached
  split at attached
  · rename_i parent outer stack
    cases attached
    refine ⟨rfl, ?_⟩
    have grown : ({ parent with pieces := .element e :: parent.pieces } : OpenElement).close.headings =
        parent.close.headings ++ e.headings := by
      rw [headings_close_cons]
      simp [Element.headings, Content.ofPieces, Content.descendants, Element.descendants]
    simp [State.headings, stack, grown]
  · rename_i stack root
    cases attached
    exact ⟨rfl, by simp [State.headings, stack, root]⟩
  · cases attached

theorem pushText_keeps (state : State) (run : List Char) :
    (state.pushText run).cursor = state.cursor ∧ (state.pushText run).headings = state.headings := by
  unfold State.pushText
  split
  · exact ⟨rfl, rfl⟩
  · rename_i parent outer stack
    exact ⟨rfl, by simp [State.headings, stack, headings_pushText]⟩

theorem start_ok {offset : Nat} {inside : List Char} (started : state.start offset inside = .ok next) :
    ∃ start, Tag.read? inside = some start ∧ next.cursor = state.cursor.moveTo offset ∧
      next.headings = state.headings ++
        [{ tag := start.tag, attributes := start.attributes, line := (state.cursor.moveTo offset).line }] := by
  unfold State.start at started
  dsimp only at started
  split at started
  · cases started
  · rename_i start read
    refine ⟨start, read, ?_⟩
    split at started
    · exact attach_ok started
    · cases started
      exact ⟨rfl, State.headings_push state _⟩

theorem finish_keeps {inside : List Char} (finished : state.finish inside = .ok next) :
    next.cursor = state.cursor ∧ next.headings = state.headings := by
  unfold State.finish at finished
  split at finished
  · cases finished
  · rename_i o outer stack
    split at finished
    · obtain ⟨cursor, headings⟩ := attach_ok finished
      refine ⟨cursor, headings.trans ?_⟩
      simp [State.headings, stack]
    · cases finished

theorem step_keeps {token : Token} (other : ∀ offset inside, token ≠ .startTag offset inside)
    (stepped : state.step token = .ok next) : next.cursor = state.cursor ∧ next.headings = state.headings := by
  cases token with
  | startTag offset inside => exact absurd rfl (other offset inside)
  | endTag inside => exact finish_keeps stepped
  | rawText run =>
    cases stepped
    exact pushText_keeps state run
  | text run =>
    simp only [State.step] at stepped
    split at stepped
    · cases stepped
      exact ⟨rfl, rfl⟩
    · split at stepped
      · cases stepped
      · cases stepped
        exact pushText_keeps state _
  | malformed => cases stepped

end Steps

-- The state after `before` is read: the cursor is not past it, and each element read stands for one start tag in it.
structure State.Follows (state : State) (whole before : List Char) (opened : List Opening) : Prop where
  cursor : ∃ passed, passed <+: before ∧ state.cursor.Passed passed whole
  headings : List.Forall₂ (Opens whole) state.headings opened

section Run

variable {whole before rest : List Char} {opened : List Opening} {state next : State} {lexeme : Lexeme}
  {lexemes : List Lexeme}

theorem State.Follows.extend (follows : state.Follows whole before opened) (cursor : next.cursor = state.cursor)
    (headings : next.headings = state.headings) (more : List Char) : next.Follows whole (before ++ more) opened := by
  obtain ⟨passed, behind, stands⟩ := follows.cursor
  refine ⟨⟨passed, behind.trans (List.prefix_append before more), ?_⟩, ?_⟩
  · rw [cursor]
    exact stands
  · rw [headings]
    exact follows.headings

theorem State.Follows.start {inside : List Char} (follows : state.Follows whole before opened)
    (within : before ++ (Lexeme.startTag inside).written <+: whole)
    (started : state.start (byteLength before) inside = .ok next) :
    next.Follows whole (before ++ (Lexeme.startTag inside).written) (opened ++ [⟨before, inside⟩]) := by
  obtain ⟨passed, behind, stands⟩ := follows.cursor
  obtain ⟨start, read, cursor, headings⟩ := start_ok started
  have moved := stands.moveTo behind ((List.prefix_append before _).trans within)
  refine ⟨⟨before, List.prefix_append before _, ?_⟩, ?_⟩
  · rw [cursor]
    exact moved
  · rw [headings]
    refine List.rel_append follows.headings (.cons ⟨within, ⟨start, read, rfl, rfl⟩, ?_⟩ .nil)
    rw [newlineBytes_eq_count]
    exact moved.line

theorem State.Follows.piece (follows : state.Follows whole before opened) (within : before ++ lexeme.written <+: whole)
    (stepped : (lexeme.tokens (byteLength before)).foldlM State.step state = .ok next) :
    next.Follows whole (before ++ lexeme.written) (opened ++ lexeme.openings before) := by
  have single : ∀ token : Token, [token].foldlM State.step state = state.step token := by
    intro token
    rw [List.foldlM_cons]
    exact bind_pure _
  cases lexeme with
  | startTag inside =>
    rw [Lexeme.tokens, single] at stepped
    exact follows.start within stepped
  | text run | rawText run | endTag run =>
    rw [Lexeme.tokens, single] at stepped
    obtain ⟨cursor, headings⟩ := step_keeps (by simp) stepped
    rw [Lexeme.openings, List.append_nil]
    exact follows.extend cursor headings _
  | comment _ | documentType _ _ | instruction _ =>
    cases stepped
    rw [Lexeme.openings, List.append_nil]
    exact follows.extend rfl rfl _

theorem readFrom_written (proper : lexeme.Proper) (stops : lexeme.isText = true → ∀ c, rest.head? = some c → c = '<')
    (state : State) (offset : Nat) : readFrom state offset (lexeme.written ++ rest) =
      (lexeme.tokens offset).foldlM State.step state >>= fun next =>
        readFrom next (offset + byteLength lexeme.written) rest := by
  rw [readFrom, Lexeme.scanFrom_written proper stops, List.foldlM_append]
  rfl

theorem State.Follows.run (lexed : Lexed lexemes rest) (follows : state.Follows whole before opened)
    (remains : before ++ rest = whole) (read : readFrom state (byteLength before) rest = .ok next) :
    next.Follows whole whole (opened ++ openings before lexemes) := by
  induction lexed generalizing state before opened with
  | done =>
    rw [readFrom_nil] at read
    cases read
    have all := follows.extend rfl rfl []
    rwa [remains, ← List.append_nil opened] at all
  | @next lexeme lexemes rest proper stops _ ih =>
    rw [readFrom_written proper stops] at read
    cases stepped : (lexeme.tokens (byteLength before)).foldlM State.step state with
    | error fault =>
      rw [stepped] at read
      cases read
    | ok middle =>
      rw [stepped] at read
      have within : before ++ lexeme.written <+: whole := ⟨rest, by rw [← remains, List.append_assoc]⟩
      have later := ih (follows.piece within stepped) (by rw [← remains, List.append_assoc]) (by
        rw [byteLength_append]
        exact read)
      rw [List.append_assoc] at later
      exact later

theorem malformed_not_mem {tokens : List Token} (read : tokens.foldlM State.step state = .ok next) :
    Token.malformed ∉ tokens := by
  induction tokens generalizing state with
  | nil => exact List.not_mem_nil
  | cons token tokens ih =>
    rw [List.foldlM_cons] at read
    cases stepped : state.step token with
    | error fault =>
      rw [stepped] at read
      cases read
    | ok middle =>
      rw [stepped] at read
      rw [List.mem_cons, not_or]
      refine ⟨?_, ih read⟩
      rintro rfl
      cases stepped

end Run

theorem headings_of_result {state : State} {root : Element} (result : state.result = .ok root) :
    state.headings = root.headings := by
  unfold State.result at result
  split at result
  · cases result
  · rename_i stack root
    cases result
    simp [State.headings, stack, root]
  · cases result

theorem ok_of_parseUnit {text : String} {unit : Element} (accepted : parseUnit text = .ok unit) :
    ∃ root, parse text = .ok root ∧ unit = root.positioned := by
  unfold parseUnit parseRoot at accepted
  cases parsed : parse text with
  | error fault =>
    rw [parsed] at accepted
    cases accepted
  | ok root =>
    rw [parsed] at accepted
    by_cases named : root.tag = "unit"
    · simp only [bind, Except.bind, named, if_true] at accepted
      cases accepted
      exact ⟨root, rfl, rfl⟩
    · simp only [bind, Except.bind, named, if_false] at accepted
      cases accepted

theorem ok_of_parse {text : String} {root : Element} (unmarked : text.toList.head? ≠ some byteOrderMark)
    (parsed : parse text = .ok root) :
    ∃ final, readFrom { cursor := { ahead := text.toList } } 0 text.toList = .ok final ∧ final.result = .ok root := by
  rw [parse, if_neg unmarked] at parsed
  have built : (readFrom { cursor := { ahead := text.toList } } 0 text.toList).bind State.result = .ok root := parsed
  cases read : readFrom { cursor := { ahead := text.toList } } 0 text.toList with
  | error fault =>
    rw [read] at built
    cases built
  | ok final =>
    rw [read] at built
    exact ⟨final, rfl, built⟩

-- The start tags of a document and its elements correspond in document order, and each element is on the line that the
-- line ends before its `<` give; this line fits a word of 32 bits where one more than the line ends does.
theorem parseUnit_lines {text : String} {unit : Element} (unmarked : text.toList.head? ≠ some byteOrderMark)
    (accepted : parseUnit text = .ok unit) :
    (∃ lexemes, Lexed lexemes text.toList) ∧
    (∀ lexemes, Lexed lexemes text.toList →
      List.Forall₂ (Opens text.toList) (unit :: unit.descendants) (openings [] lexemes)) ∧
    (newlineBytes text.toList + 1 < UInt32.size → ∀ e ∈ unit :: unit.descendants, e.line < UInt32.size) := by
  obtain ⟨root, parsed, placed⟩ := ok_of_parseUnit accepted
  obtain ⟨final, read, result⟩ := ok_of_parse unmarked parsed
  obtain ⟨lexemes, lexed⟩ := exists_lexed (malformed_not_mem read)
  have start : State.Follows { cursor := { ahead := text.toList } } text.toList [] [] :=
    ⟨⟨[], List.prefix_rfl, rfl, rfl, rfl⟩, .nil⟩
  have matched : ∀ lexemes, Lexed lexemes text.toList →
      List.Forall₂ (Opens text.toList) (unit :: unit.descendants) (openings [] lexemes) := by
    intro lexemes lexed
    have whole := (State.Follows.run lexed start rfl read).headings
    rw [headings_of_result result, ← root.headings_positioned, ← placed, Element.headings, List.forall₂_map_left_iff] at whole
    exact whole.imp fun _ _ opens => ⟨opens.written, opens.read, opens.line⟩
  refine ⟨⟨lexemes, lexed⟩, matched, ?_⟩
  intro few
  have bounded := (matched lexemes lexed).imp fun _ _ opens => And.intro opens.line_le opens
  intro e member
  exact Nat.lt_of_le_of_lt (((List.forall₂_and_left _ _).mp bounded).1 e member) few

-- Line ends before the root, in a comment with a `<`, in an attribute with a `>`, and in raw text.
def spreadText : String :=
  "<?xml version='1.0'?>\n<!-- a\n<b -->\n<unit>é\n<a x='1\n>2'><![CDATA[\n<c>]]>\n</a><?p\n?><b/>\n</unit>"

def spread : Element where
  tag := "unit"
  position := "/unit"
  line := 4
  content := .text "é\n" (.element "a" [("x", "1\n>2")] "/unit/a[1]" 5 (.text "\n<c>\n" .nil)
    (.element "b" [] "/unit/b[1]" 9 .nil (.text "\n" .nil)))

theorem spread_lines : spreadText.toList.head? ≠ some byteOrderMark ∧ parseUnit spreadText = .ok spread ∧
    (∃ lexemes, Lexed lexemes spreadText.toList) ∧
    (∀ lexemes, Lexed lexemes spreadText.toList →
      List.Forall₂ (Opens spreadText.toList) (spread :: spread.descendants) (openings [] lexemes)) ∧
    (newlineBytes spreadText.toList + 1 < UInt32.size → ∀ e ∈ spread :: spread.descendants, e.line < UInt32.size) := by
  have unmarked : spreadText.toList.head? ≠ some byteOrderMark := by decide +kernel
  have accepted : parseUnit spreadText = .ok spread := by decide +kernel
  exact ⟨unmarked, accepted, parseUnit_lines unmarked accepted⟩

end Document

end ScopeAtlas
