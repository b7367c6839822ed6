import ScopeAtlas.Markup.Document
import ScopeAtlas.Proofs.Spelling

namespace ScopeAtlas

open Token (isSpace)
open Rendering

namespace Document

open Token

def readFrom (state : State) (offset : Nat) (cs : List Char) : Except Error State :=
  (scanFrom offset cs).foldlM State.step state

theorem readFrom_nil (state : State) (offset : Nat) : readFrom state offset [] = .ok state := by
  rw [readFrom, scanFrom]
  rfl

theorem readFrom_skipped {mark : List Char} (skipped : Skipped mark) (state : State) (offset : Nat) (out : List Char) :
    ∃ offset', readFrom state offset (mark ++ out) = readFrom state offset' out := by
  cases skipped with
  | @comment body inside =>
    have cut := @cutAt_append ['-', '-'] '>' body (by decide) inside out
    have scanned := @scanFrom_markup offset ('!' :: '-' :: '-' :: (body ++ "-->".toList ++ out)) body out [] cut (by
      simp [Markup.of, ofMarkup])
    exact ⟨_, congrArg (List.foldlM State.step state) scanned⟩
  | @instruction body inside =>
    have cut := @cutAt_append ['?'] '>' ('?' :: body) (by decide) inside out
    have scanned := @scanFrom_markup offset ('?' :: body ++ "?>".toList ++ out) ('?' :: body) out [] cut (by
      simp [Markup.of, ofMarkup])
    exact ⟨_, congrArg (List.foldlM State.step state) scanned⟩

theorem readFrom_token {rest inside after : List Char} {token : Token} {offset : Nat}
    (cut : (Markup.of rest).cut rest = some (inside, after))
    (known : ofMarkup offset rest inside (Markup.of rest) = some [token]) (state : State) :
    ∃ offset', readFrom state offset ('<' :: rest) = state.step token >>= fun next => readFrom next offset' after := by
  refine ⟨offset + (Markup.of rest).frame + byteLength inside, ?_⟩
  rw [readFrom, scanFrom_markup cut known, List.singleton_append, List.foldlM_cons]
  rfl

theorem readFrom_raw {piece : List Char} (inside : ¬ [']', ']', '>'] <:+: piece) (state : State) (offset : Nat)
    (out : List Char) : ∃ offset', readFrom state offset ("<![CDATA[".toList ++ piece ++ "]]>".toList ++ out) =
      readFrom (state.pushText piece) offset' out := by
  have whole : ¬ [']', ']', '>'] <:+: "![CDATA[".toList ++ piece := by
    simpa [List.infix_cons_iff] using inside
  have cut := @cutAt_append [']', ']'] '>' ("![CDATA[".toList ++ piece) (by decide) whole out
  exact @readFrom_token ("![CDATA[".toList ++ piece ++ "]]>".toList ++ out) ("![CDATA[".toList ++ piece) out
    (.rawText piece) offset cut (by simp [Markup.of, ofMarkup]) state

theorem pushText_append (state : State) (cs ds : List Char) :
    (state.pushText cs).pushText ds = state.pushText (cs ++ ds) := by
  cases stack : state.stack with
  | nil => simp [State.pushText, stack]
  | cons o outer =>
    cases pieces : o.pieces with
    | nil => simp [State.pushText, stack, OpenElement.pushText, pieces]
    | cons piece earlier => cases piece <;> simp [State.pushText, stack, OpenElement.pushText, pieces, String.append_assoc]

-- Text that goes on after the piece is decoded with it, and joins it all the same.
theorem readFrom_escaped {piece : List Char} (some : piece ≠ []) (state : State) (opened : state.stack ≠ [])
    (offset : Nat) (out : List Char) :
    ∃ offset', readFrom state offset (escape piece ++ out) = readFrom (state.pushText piece) offset' out := by
  have clear : ∀ c ∈ escape piece, c ≠ '<' := fun c member => (escape_clear member).1
  have still : (state.pushText piece).stack ≠ [] := by
    cases stack : state.stack with
    | nil => exact absurd stack opened
    | cons o outer => simp [State.pushText, stack]
  refine ⟨offset + byteLength (escape piece), ?_⟩
  unfold readFrom
  rw [scanFrom_text clear (escape_ne_nil some), List.foldlM_cons, State.step, if_neg (by simpa using opened),
    Entity.decode_escape_append]
  by_cases goesOn : ∃ c rest, out = c :: rest ∧ c ≠ '<'
  · obtain ⟨c, rest, rfl, plain⟩ := goesOn
    rw [List.takeWhile_cons_of_pos (by simp [plain]), List.dropWhile_cons_of_pos (by simp [plain]), scanFrom, if_neg plain,
      List.foldlM_cons, State.step, if_neg (by simpa using still)]
    cases Entity.decode (c :: rest.takeWhile (· ≠ '<')) with
    | none => rfl
    | some decoded =>
      rw [Option.map_some]
      dsimp only
      rw [pushText_append, byteLength_append, Nat.add_assoc]
  · have ends : out.takeWhile (· ≠ '<') = [] ∧ out.dropWhile (· ≠ '<') = out := by
      cases out with
      | nil => exact ⟨rfl, rfl⟩
      | cons c rest =>
        have stops : c = '<' := by
          by_contra plain
          exact goesOn ⟨c, rest, rfl, plain⟩
        subst stops
        exact ⟨rfl, rfl⟩
    rw [ends.1, ends.2, Entity.decode, Entity.decodeFrom, Option.map_some, List.append_nil, List.append_nil]
    rfl

section

variable {tag : String} {attributes : Attributes} {header : List Char}

def opening (tag : String) (attributes : Attributes) (line : Nat) : OpenElement :=
  { name := tag.toList, tag, attributes, line }

theorem readFrom_startTag {inside : List Char} (proper : IsName tag) (passes : Passes (tag.toList ++ inside))
    (state : State) (offset : Nat) (out : List Char) :
    ∃ offset', readFrom state offset ('<' :: tag.toList ++ inside ++ '>' :: out) =
      state.start offset (tag.toList ++ inside) >>= fun next => readFrom next offset' out := by
  have markup : Markup.of (tag.toList ++ inside ++ '>' :: out) = .startTag := by
    rw [List.append_assoc]
    exact Tag.markup_of_name proper _
  refine @readFrom_token (tag.toList ++ inside ++ '>' :: out) (tag.toList ++ inside) out
    (.startTag offset (tag.toList ++ inside)) offset ?_ ?_ state
  · rw [markup]
    exact passes.cutTag out
  · rw [markup]
    rfl

theorem readFrom_start (proper : IsName tag) (all : AreAttributes attributes) (listed : Listed attributes header)
    (state : State) (offset : Nat) (out : List Char) :
    ∃ cursor offset', readFrom state offset ('<' :: tag.toList ++ header ++ '>' :: out) =
      readFrom { state with cursor, stack := opening tag attributes cursor.line :: state.stack } offset' out := by
  have passes := (Tag.passes_name proper).append (Tag.passes_listed listed all)
  obtain ⟨offset', read⟩ := readFrom_startTag proper passes state offset out
  refine ⟨state.cursor.moveTo offset, offset', read.trans ?_⟩
  rw [State.start, Tag.read?_written proper listed all]
  simp only [Tag.Start.tag, Tag.localName_of_name proper, String.ofList_toList]
  rfl

theorem readFrom_empty (proper : IsName tag) (all : AreAttributes attributes) (listed : Listed attributes header)
    (state : State) (offset : Nat) (out : List Char) :
    ∃ cursor offset', readFrom state offset ('<' :: tag.toList ++ header ++ '/' :: '>' :: out) =
      { state with cursor }.attach (opening tag attributes cursor.line).close >>=
        fun next => readFrom next offset' out := by
  have slash : Passes ['/'] := passes_clear (by simp)
  have passes := (Tag.passes_name proper).append ((Tag.passes_listed listed all).append slash)
  obtain ⟨offset', read⟩ := readFrom_startTag proper passes state offset out
  simp only [List.append_assoc, List.cons_append, List.nil_append] at read ⊢
  have closed := Tag.read?_closed proper listed all
  rw [List.append_assoc] at closed
  refine ⟨state.cursor.moveTo offset, offset', read.trans ?_⟩
  rw [State.start, closed]
  simp only [Tag.Start.tag, Tag.localName_of_name proper, String.ofList_toList]
  rfl

theorem readFrom_end (proper : IsName tag) {blanks : List Char} (blank : Blank blanks) {state : State} {o : OpenElement}
    {outer : List OpenElement} (stack : state.stack = o :: outer) (name : o.name = tag.toList) (offset : Nat)
    (out : List Char) :
    ∃ offset', readFrom state offset ('<' :: '/' :: tag.toList ++ blanks ++ '>' :: out) =
      { state with stack := outer }.attach o.close >>= fun next => readFrom next offset' out := by
  have slash : Passes ['/'] := passes_clear (by simp)
  have passes := slash.append ((Tag.passes_name proper).append (Tag.passes_blank blank))
  obtain ⟨offset', read⟩ := @readFrom_token ('/' :: tag.toList ++ blanks ++ '>' :: out)
    ('/' :: tag.toList ++ blanks) out (.endTag (tag.toList ++ blanks)) offset (passes.cutTag out) rfl state
  refine ⟨offset', read.trans ?_⟩
  rw [State.step, State.finish, stack]
  dsimp only
  rw [if_pos (by rw [Tag.endName_written proper blank, name])]

end

-- The last thing in the innermost open element is text, which goes on.
def State.InText (state : State) : Prop :=
  ∃ o outer before earlier, state.stack = o :: outer ∧ o.pieces = .text before :: earlier

theorem inText_pushText {state : State} (opened : state.stack ≠ []) (cs : List Char) : (state.pushText cs).InText := by
  cases stack : state.stack with
  | nil => exact absurd stack opened
  | cons o outer =>
    cases pieces : o.pieces with
    | nil => simp [State.InText, State.pushText, stack, OpenElement.pushText, pieces]
    | cons piece earlier => cases piece <;> simp [State.InText, State.pushText, stack, OpenElement.pushText, pieces]

theorem State.InText.stack_ne_nil {state : State} (within : state.InText) : state.stack ≠ [] := by
  obtain ⟨o, outer, before, earlier, stack, -⟩ := within
  rw [stack]
  exact List.cons_ne_nil o outer

theorem State.InText.pushText_nil {state : State} (within : state.InText) : state.pushText [] = state := by
  obtain ⟨o, outer, before, earlier, stack, pieces⟩ := within
  obtain ⟨_, root, cursor⟩ := state
  obtain ⟨name, tag, attributes, line, _⟩ := o
  dsimp only at stack pieces
  subst stack pieces
  simp [State.pushText, OpenElement.pushText]

-- A run is read as one text, unless it has no character; then it leaves no trace inside a text.
theorem readFrom_run {run text : List Char} (written : Run run text) (state : State) (opened : state.stack ≠ [])
    (shows : run ≠ [] ∨ state.InText) (offset : Nat) (out : List Char) :
    ∃ offset', readFrom state offset (text ++ out) = readFrom (state.pushText run) offset' out := by
  induction written generalizing state offset with
  | done =>
    rcases shows with impossible | within
    · exact absurd rfl impossible
    · exact ⟨offset, by rw [within.pushText_nil, List.nil_append]⟩
  | @skip mark run text skipped later ih =>
    rw [List.append_assoc]
    obtain ⟨next, read⟩ := readFrom_skipped skipped state offset (text ++ out)
    obtain ⟨last, rest⟩ := ih state opened shows next
    exact ⟨last, read.trans rest⟩
  | @escaped run text piece later ih =>
    rw [List.append_assoc]
    by_cases some : piece = []
    · subst some
      exact ih state opened shows offset
    · obtain ⟨next, read⟩ := readFrom_escaped some state opened offset (text ++ out)
      have within := inText_pushText opened piece
      obtain ⟨last, rest⟩ := ih _ within.stack_ne_nil (Or.inr within) next
      exact ⟨last, by rw [read, rest, pushText_append]⟩
  | @raw run text piece inside later ih =>
    rw [List.append_assoc]
    obtain ⟨next, read⟩ := readFrom_raw inside state offset (text ++ out)
    have within := inText_pushText opened piece
    obtain ⟨last, rest⟩ := ih _ within.stack_ne_nil (Or.inr within) next
    exact ⟨last, by rw [read, rest, pushText_append]⟩

theorem pushText_fresh {state : State} {o : OpenElement} {outer : List OpenElement} (stack : state.stack = o :: outer)
    (fresh : ¬ state.InText) (cs : List Char) :
    state.pushText cs = { state with stack := { o with pieces := .text (String.ofList cs) :: o.pieces } :: outer } := by
  have pieces : ∀ before earlier, o.pieces ≠ .text before :: earlier :=
    fun before earlier equal => fresh ⟨o, outer, before, earlier, stack, equal⟩
  rw [State.pushText, stack]
  dsimp only
  rw [OpenElement.pushText]
  split
  · rename_i equal
    exact absurd equal (pieces _ _)
  · rfl

end Document

namespace Content

def bare : Content → Content
  | .nil => .nil
  | .text run rest => .text run rest.bare
  | .element tag attributes _ _ inner rest => .element tag attributes "" 0 inner.bare rest.bare

def withoutLines : Content → Content
  | .nil => .nil
  | .text run rest => .text run rest.withoutLines
  | .element tag attributes position _ inner rest => .element tag attributes position 0 inner.withoutLines rest.withoutLines

theorem positioned_bare (c : Content) (parent : String) (earlier : List String) :
    (c.bare.positioned parent earlier).withoutLines = (c.positioned parent earlier).withoutLines := by
  induction c generalizing parent earlier with
  | nil => rfl
  | text run rest ih => simp only [bare, positioned, withoutLines, ih]
  | element tag attributes position line inner rest inside outside =>
    simp only [bare, positioned, withoutLines, inside, outside]

end Content

namespace Element

def withoutLines (e : Element) : Element := { e with line := 0, content := e.content.withoutLines }

def alone (e : Element) : Content := .element e.tag e.attributes e.position e.line e.content .nil

end Element

namespace Document

def Reads (c : Content) (text : List Char) : Prop :=
  ∀ (state : State) (o : OpenElement) (outer : List OpenElement), state.stack = o :: outer →
    (c.startsWithText = true → ¬ state.InText) → ∀ (offset : Nat) (out : List Char),
    ∃ pieces cursor offset', (Content.ofPieces pieces).bare = c.bare ∧
      readFrom state offset (text ++ out) =
        readFrom { state with cursor, stack := { o with pieces := pieces.reverse ++ o.pieces } :: outer } offset' out

def ReadsElement (tag : String) (attributes : Attributes) (inner : Content) (text : List Char) : Prop :=
  ∀ (state : State) (offset : Nat) (out : List Char), ∃ (e : Element) (cursor : LineCursor) (offset' : Nat),
    e.tag = tag ∧ e.attributes = attributes ∧ e.content.bare = inner.bare ∧
      readFrom state offset (text ++ out) =
        State.attach { state with cursor } e >>= fun next => readFrom next offset' out

section

variable {tag : String} {attributes : Attributes} {inner rest : Content} {header body blanks text further : List Char}

theorem readsElement_empty (named : IsName tag) (all : AreAttributes attributes) (listed : Listed attributes header) :
    ReadsElement tag attributes .nil ('<' :: tag.toList ++ header ++ ['/', '>']) := by
  intro state offset out
  obtain ⟨cursor, next, closed⟩ := readFrom_empty named all listed state offset out
  refine ⟨(opening tag attributes cursor.line).close, cursor, next, rfl, rfl, rfl, ?_⟩
  rw [List.append_assoc]
  exact closed

theorem readsElement_full (named : IsName tag) (all : AreAttributes attributes) (listed : Listed attributes header)
    (inside : Reads inner body) (blank : Blank blanks) :
    ReadsElement tag attributes inner
      ('<' :: tag.toList ++ header ++ '>' :: body ++ '<' :: '/' :: tag.toList ++ blanks ++ ['>']) := by
  intro state offset out
  have split : '<' :: tag.toList ++ header ++ '>' :: body ++ '<' :: '/' :: tag.toList ++ blanks ++ ['>'] ++ out =
      '<' :: tag.toList ++ header ++ '>' :: (body ++ ('<' :: '/' :: tag.toList ++ blanks ++ '>' :: out)) := by
    simp
  rw [split]
  obtain ⟨cursor, start, opened⟩ := readFrom_start named all listed state offset
    (body ++ ('<' :: '/' :: tag.toList ++ blanks ++ '>' :: out))
  have fresh : ¬ State.InText { state with cursor, stack := opening tag attributes cursor.line :: state.stack } := by
    rintro ⟨o, outer, before, earlier, stack, pieces⟩
    cases stack
    cases pieces
  obtain ⟨pieces, cursor', stop, same, read⟩ := inside _ _ _ rfl (fun _ => fresh) start
    ('<' :: '/' :: tag.toList ++ blanks ++ '>' :: out)
  obtain ⟨next, closed⟩ := @readFrom_end tag named blanks blank
    { state with
      cursor := cursor'
      stack := { opening tag attributes cursor.line with pieces := pieces.reverse ++ [] } :: state.stack }
    _ _ rfl rfl stop out
  refine ⟨_, cursor', next, rfl, rfl, ?_, opened.trans (read.trans closed)⟩
  rw [OpenElement.close, List.append_nil, List.reverse_reverse, same]

theorem reads_element (position : String) (line : Nat) (first : ReadsElement tag attributes inner text)
    (later : Reads rest further) : Reads (.element tag attributes position line inner rest) (text ++ further) := by
  intro state o outer stack _ offset out
  rw [List.append_assoc]
  obtain ⟨e, cursor, next, rfl, rfl, same, read⟩ := first state offset (further ++ out)
  have attached : State.attach { state with cursor } e =
      .ok { state with cursor, stack := { o with pieces := .element e :: o.pieces } :: outer } := by
    rw [State.attach]
    dsimp only
    rw [stack]
  have apart : ¬ State.InText { state with cursor, stack := { o with pieces := .element e :: o.pieces } :: outer } := by
    rintro ⟨o, outer, before, earlier, stack, pieces⟩
    cases stack
    cases pieces
  obtain ⟨pieces, cursor', last, same', following⟩ := later _ _ _ rfl (fun _ => apart) next out
  refine ⟨.element e :: pieces, cursor', last, ?_, ?_⟩
  · rw [Content.ofPieces, Content.bare, Content.bare, same, same']
  · rw [read, attached]
    refine Eq.trans following ?_
    rw [List.reverse_cons, List.append_assoc, List.singleton_append]

end

theorem reads_written {c : Content} {text : List Char} (written : Written c text) (proper : Proper c) : Reads c text := by
  -- The reader keeps the open elements on a stack; each part of the text is read onto the innermost of them.
  induction written with
  | done =>
    intro state o outer stack _ offset out
    refine ⟨[], state.cursor, offset, rfl, ?_⟩
    obtain ⟨_, root, cursor⟩ := state
    dsimp only at stack
    subst stack
    rfl
  | @skip mark text c skipped later ih =>
    intro state o outer stack apart offset out
    rw [List.append_assoc]
    obtain ⟨next, read⟩ := readFrom_skipped skipped state offset (text ++ out)
    obtain ⟨pieces, cursor, last, same, rest⟩ := ih proper state o outer stack apart next out
    exact ⟨pieces, cursor, last, same, read.trans rest⟩
  | @text run c text further here later ih =>
    intro state o outer stack apart offset out
    rw [List.append_assoc]
    obtain ⟨some, alone, proper⟩ := proper
    have opened : state.stack ≠ [] := by
      rw [stack]
      exact List.cons_ne_nil o outer
    have shows : run.toList ≠ [] := by
      rwa [ne_eq, String.toList_eq_nil_iff]
    obtain ⟨next, read⟩ := readFrom_run here state opened (Or.inl shows) offset (further ++ out)
    rw [pushText_fresh stack (apart rfl), String.ofList_toList] at read
    obtain ⟨pieces, cursor, last, same, rest⟩ := ih proper
      { state with stack := { o with pieces := .text run :: o.pieces } :: outer } _ _ rfl (by simp [alone]) next out
    refine ⟨.text run :: pieces, cursor, last, ?_, ?_⟩
    · rw [Content.ofPieces, Content.bare, Content.bare, same]
    · rw [read, rest, List.reverse_cons, List.append_assoc, List.singleton_append]
  | element position line listed inside blank later within ih =>
    obtain ⟨named, all, properInner, properLater⟩ := proper
    have first := readsElement_full named all listed (within properInner) blank
    have whole := reads_element position line first (ih properLater)
    simpa only [List.append_assoc, List.cons_append, List.nil_append] using whole
  | empty position line listed later ih =>
    obtain ⟨named, all, -, properLater⟩ := proper
    have whole := reads_element position line (readsElement_empty named all listed) (ih properLater)
    simpa only [List.append_assoc, List.cons_append, List.nil_append] using whole

theorem readFrom_nothing {text : List Char} (written : Written .nil text) (state : State) (offset : Nat) :
    readFrom state offset text = .ok state := by
  generalize none : Content.nil = c at written
  induction written generalizing offset with
  | done => exact readFrom_nil state offset
  | @skip mark text c skipped later ih =>
    obtain ⟨next, read⟩ := readFrom_skipped skipped state offset text
    rw [read]
    exact ih next none
  | text => cases none
  | element => cases none
  | empty => cases none

theorem readFrom_root {tag : String} {attributes : Attributes} {inner : Content} {text further : List Char}
    (first : ReadsElement tag attributes inner text) (later : Written .nil further) (cursor : LineCursor) (offset : Nat) :
    ∃ (e : Element) (cursor' : LineCursor), e.tag = tag ∧ e.attributes = attributes ∧ e.content.bare = inner.bare ∧
      readFrom { cursor } offset (text ++ further) = .ok { root := some e, cursor := cursor' } := by
  obtain ⟨e, cursor', next, tag, attributes, same, read⟩ := first { cursor } offset further
  exact ⟨e, cursor', tag, attributes, same, read.trans (readFrom_nothing later _ next)⟩

theorem readFrom_document {e : Element} {text : List Char} (written : Written e.alone text) (proper : Proper e.alone)
    (cursor : LineCursor) (offset : Nat) :
    ∃ (read : Element) (cursor' : LineCursor),
      read.tag = e.tag ∧ read.attributes = e.attributes ∧ read.content.bare = e.content.bare ∧
      readFrom { cursor } offset text = .ok { root := some read, cursor := cursor' } := by
  obtain ⟨named, all, properInner, -⟩ := proper
  generalize whole : e.alone = c at written
  induction written generalizing offset with
  | done => cases whole
  | text => cases whole
  | @skip mark text c skipped later ih =>
    obtain ⟨next, read⟩ := readFrom_skipped skipped { cursor } offset text
    rw [read]
    exact ih next whole
  | element position line listed inside blank later =>
    cases whole
    have first := readsElement_full named all listed (reads_written inside properInner) blank
    have root := readFrom_root first later cursor offset
    simpa only [List.append_assoc, List.cons_append, List.nil_append] using root
  | empty position line listed later =>
    obtain ⟨tag, attributes, position, line, content⟩ := e
    cases whole
    have root := readFrom_root (readsElement_empty named all listed) later cursor offset
    simpa only [List.append_assoc, List.cons_append, List.nil_append] using root

theorem head?_written {e : Element} {text : List Char} (written : Written e.alone text) : text.head? = some '<' := by
  generalize whole : e.alone = c at written
  cases written with
  | done => cases whole
  | text => cases whole
  | skip skipped => cases skipped <;> rfl
  | element => rfl
  | empty => rfl

-- Reading undoes writing: however a tree with the root `unit` is written, it is accepted, and read as that tree with
-- the positions of its elements.
theorem parseUnit_reads_back {e : Element} {text : String} (unit : e.tag = "unit") (proper : Proper e.alone)
    (written : Written e.alone text.toList) :
    ∃ read, parseUnit text = .ok read ∧ read.withoutLines = e.positioned.withoutLines := by
  obtain ⟨read, cursor, tag, attributes, same, done⟩ := readFrom_document written proper { ahead := text.toList } 0
  have parsed : parse text = .ok read := by
    have unmarked : text.toList.head? ≠ some byteOrderMark := by
      rw [head?_written written]
      decide
    simp only [parse, if_neg unmarked]
    change (readFrom { cursor := { ahead := text.toList } } 0 text.toList).bind State.result = _
    rw [done]
    rfl
  have accepted : parseRoot text = .ok read := by
    rw [parseRoot, parsed]
    exact if_pos (tag.trans unit)
  refine ⟨read.positioned, by rw [parseUnit, accepted]; rfl, ?_⟩
  have below : ∀ here, (read.content.positioned here []).withoutLines = (e.content.positioned here []).withoutLines := by
    intro here
    rw [← Content.positioned_bare, same, Content.positioned_bare]
  simp only [Element.withoutLines, Element.positioned, tag, attributes, below]

-- A unit with text that has to be escaped, and an element without content.
def noted : Element where
  tag := "unit"
  attributes := [("language", "C++"), ("note", "a<\"b\"")]
  content := .element "name" [] "" 1 (.text "x<y>&z" .nil) (.element "empty" [] "" 1 .nil .nil)

def notedText : String :=
  "<!--first--><unit language=\"C++\" note=\"a&lt;&quot;b&quot;\">" ++
    "<name>x<![CDATA[<y>]]><?here?>&amp;z</name ><empty/></unit>"

theorem noted_proper : Proper noted.alone := by
  have name : ∀ name ∈ ["unit", "name", "empty", "language", "note"], IsName name := by
    intro name member
    simp only [List.mem_cons, List.not_mem_nil, or_false] at member
    rcases member with rfl | rfl | rfl | rfl | rfl <;>
      exact ⟨by simp, by simp [isSpace], by simp, by simp⟩
  have none : AreAttributes [] := ⟨List.forall_mem_nil _, List.nodup_nil⟩
  have both : AreAttributes noted.attributes := by
    refine ⟨?_, by decide⟩
    intro pair member
    simp only [noted, List.mem_cons, List.not_mem_nil, or_false] at member
    rcases member with rfl | rfl <;> exact name _ (by simp)
  have inner : Proper noted.content :=
    ⟨name _ (by simp), none, ⟨by decide, rfl, trivial⟩, name _ (by simp), none, trivial, trivial⟩
  exact ⟨name _ (by simp [noted]), both, inner, trivial⟩

theorem noted_written : Written noted.alone notedText.toList := by
  have blank : Blank [] := List.forall_mem_nil _
  have gap : Blank [' '] := by simp [Blank, isSpace]
  have run := Run.escaped ['x'] (Run.raw ['<', 'y', '>'] (by decide)
    (Run.skip (@Skipped.instruction ['h', 'e', 'r', 'e'] (by decide)) (Run.escaped ['&', 'z'] Run.done)))
  have same : ['x'] ++ (['<', 'y', '>'] ++ (['&', 'z'] ++ [])) = "x<y>&z".toList := by decide +kernel
  rw [same] at run
  have attributes : Listed noted.attributes _ :=
    .next gap (List.cons_ne_nil _ _) (.next gap (List.cons_ne_nil _ _) (.done blank))
  have inner : Written noted.content _ :=
    .element _ _ (.done blank) (.text run .done) gap (.empty _ _ (.done blank) .done)
  have whole : Written noted.alone _ :=
    .skip (@Skipped.comment ['f', 'i', 'r', 's', 't'] (by decide)) (.element _ _ attributes inner blank .done)
  convert whole using 1
  decide +kernel

theorem noted_is_read_back :
    noted.tag = "unit" ∧ Proper noted.alone ∧ Written noted.alone notedText.toList ∧
      ∃ read, parseUnit notedText = .ok read ∧ read.withoutLines = noted.positioned.withoutLines :=
  ⟨rfl, noted_proper, noted_written, parseUnit_reads_back rfl noted_proper noted_written⟩

end Document

end ScopeAtlas
