import ScopeAtlas.Markup.Tag
import ScopeAtlas.Proofs.Fingerprints

namespace ScopeAtlas

open Token (isSpace)

namespace Rendering

def escapeChar : Char → List Char
  | '<' => ['&', 'l', 't', ';']
  | '>' => ['&', 'g', 't', ';']
  | '&' => ['&', 'a', 'm', 'p', ';']
  | '"' => ['&', 'q', 'u', 'o', 't', ';']
  | c => [c]

def escape (cs : List Char) : List Char := cs.flatMap escapeChar

def Blank (cs : List Char) : Prop := ∀ c ∈ cs, isSpace c = true

-- Comments and instructions. The question mark that opens an instruction is none of the mark that ends it.
inductive Skipped : List Char → Prop
  | comment {body : List Char} (inside : ¬ ['-', '-', '>'] <:+: body) : Skipped ("<!--".toList ++ body ++ "-->".toList)
  | instruction {body : List Char} (inside : ¬ ['?', '>'] <:+: '?' :: body) : Skipped ('<' :: '?' :: body ++ "?>".toList)

-- A run of text in pieces, each escaped or raw.
inductive Run : (run text : List Char) → Prop
  | done : Run [] []
  | skip {mark run out : List Char} (skipped : Skipped mark) (later : Run run out) : Run run (mark ++ out)
  | escaped {run out : List Char} (piece : List Char) (later : Run run out) : Run (piece ++ run) (escape piece ++ out)
  | raw {run out : List Char} (piece : List Char) (inside : ¬ [']', ']', '>'] <:+: piece) (later : Run run out) :
    Run (piece ++ run) ("<![CDATA[".toList ++ piece ++ "]]>".toList ++ out)

inductive Listed : Attributes → List Char → Prop
  | done {blanks : List Char} (blank : Blank blanks) : Listed [] blanks
  | next {name value : String} {rest : Attributes} {gap out : List Char} (blank : Blank gap) (apart : gap ≠ [])
    (later : Listed rest out) :
    Listed ((name, value) :: rest) (gap ++ name.toList ++ '=' :: '"' :: escape value.toList ++ '"' :: out)

-- The ways to write content: those of its runs, of its elements with what is inside them, and of what is passed over.
inductive Written : Content → List Char → Prop
  | done : Written .nil []
  | skip {mark out : List Char} {c : Content} (skipped : Skipped mark) (later : Written c out) : Written c (mark ++ out)
  | text {run : String} {rest : Content} {text out : List Char} (here : Run run.toList text) (later : Written rest out) :
    Written (.text run rest) (text ++ out)
  | element {tag : String} {attributes : Attributes} {inner rest : Content} {header body blanks out : List Char}
    (position : String) (line : Nat) (listed : Listed attributes header) (inside : Written inner body)
    (blank : Blank blanks) (later : Written rest out) :
    Written (.element tag attributes position line inner rest)
      ('<' :: tag.toList ++ header ++ '>' :: body ++ '<' :: '/' :: tag.toList ++ blanks ++ '>' :: out)
  | empty {tag : String} {attributes : Attributes} {rest : Content} {header out : List Char}
    (position : String) (line : Nat) (listed : Listed attributes header) (later : Written rest out) :
    Written (.element tag attributes position line .nil rest) ('<' :: tag.toList ++ header ++ '/' :: '>' :: out)

structure IsName (name : String) : Prop where
  nonempty : name.toList ≠ []
  clear : ∀ c ∈ name.toList, isSpace c = false ∧ c ∉ ['"', '\'', '<', '>', '/', '=', ':', '&']
  first : ∀ c, name.toList.head? = some c → c ≠ '!' ∧ c ≠ '?'
  plain : ¬ "xmlns".toList <+: name.toList

structure AreAttributes (attributes : Attributes) : Prop where
  names : ∀ pair ∈ attributes, IsName pair.1
  distinct : (attributes.map Prod.fst).Nodup

-- Content that can be told from what is written: names are proper, and runs of text are neither empty nor neighbours.
def Proper : Content → Prop
  | .nil => True
  | .text run rest => run ≠ "" ∧ rest.startsWithText = false ∧ Proper rest
  | .element tag attributes _ _ inner rest => IsName tag ∧ AreAttributes attributes ∧ Proper inner ∧ Proper rest

end Rendering

open Rendering

namespace Entity

theorem decodeFrom_escapeChar (c : Char) (rest : List Char) :
    decodeFrom none (escapeChar c ++ rest) = (decodeFrom none rest).map (c :: ·) := by
  unfold escapeChar
  split
  · simp [decodeFrom, named?]
  · simp [decodeFrom, named?]
  · simp [decodeFrom, named?]
  · simp [decodeFrom, named?]
  · rename_i ampersand _
    rw [List.singleton_append, decodeFrom, if_neg ampersand]

theorem decode_escape_append (cs rest : List Char) : decode (escape cs ++ rest) = (decode rest).map (cs ++ ·) := by
  unfold decode
  induction cs with
  | nil => simp [escape]
  | cons c cs ih =>
    rw [escape, List.flatMap_cons, List.append_assoc, decodeFrom_escapeChar, ← escape, ih, Option.map_map]
    rfl

theorem decode_escape (cs : List Char) : decode (escape cs) = some cs := by
  have whole := decode_escape_append cs []
  rw [List.append_nil] at whole
  rw [whole, decode, decodeFrom, Option.map_some, List.append_nil]

end Entity

theorem Rendering.escape_clear {cs : List Char} {c : Char} (member : c ∈ escape cs) : c ≠ '<' ∧ c ≠ '"' := by
  obtain ⟨d, -, member⟩ := List.mem_flatMap.mp member
  unfold escapeChar at member
  split at member
  case h_5 less _ _ quote =>
    rw [List.mem_singleton] at member
    subst member
    exact ⟨less, quote⟩
  all_goals
    simp only [List.mem_cons, List.not_mem_nil, or_false] at member
    rcases member with rfl | rfl | rfl | rfl | rfl | rfl <;> decide

theorem Rendering.escape_ne_nil {cs : List Char} (some : cs ≠ []) : escape cs ≠ [] := by
  intro none
  have decoded := Entity.decode_escape cs
  rw [none] at decoded
  exact some (Option.some.inj decoded).symm

namespace Token

-- Raw text, comments and instructions end at a mark whose last character stands nowhere else in it.
theorem cutAt_append {opening : List Char} {last : Char} {body : List Char} (once : last ∉ opening)
    (inside : ¬ (opening ++ [last]) <:+: body) (out : List Char) :
    cutAt (opening ++ [last]) (body ++ (opening ++ [last]) ++ out) = some (body, out) := by
  induction body with
  | nil =>
    rw [List.nil_append]
    cases whole : opening ++ [last] ++ out with
    | nil => simp at whole
    | cons c rest =>
      rw [cutAt, ← whole, if_pos, List.drop_left]
      exact List.isPrefixOf_iff_prefix.mpr (List.prefix_append _ _)
  | cons c body ih =>
    have here : ¬ (opening ++ [last]) <+: c :: (body ++ (opening ++ [last]) ++ out) := by
      intro begins
      rw [← List.cons_append, ← List.cons_append, List.append_assoc] at begins
      obtain ⟨further, whole⟩ := begins
      rcases List.append_eq_append_iff.mp whole with ⟨more, front, -⟩ | ⟨more, front, back⟩
      · exact inside ⟨[], more, front.symm⟩
      · -- the rest of the mark would be a beginning of it too, with the last character in it
        rcases List.eq_nil_or_concat more with rfl | ⟨init, z, rfl⟩
        · rw [List.append_nil] at front
          exact inside ⟨[], [], by simp [front]⟩
        · rw [List.concat_eq_append] at front back
          have length := congrArg List.length front
          have ends := congrArg List.getLast? front
          simp only [List.getLast?_append, List.getLast?_singleton, Option.some_or, Option.some.injEq] at ends
          simp only [List.length_append, List.length_cons, List.length_nil] at length
          have early : init ++ [z] <+: opening := by
            refine List.prefix_of_prefix_length_le ⟨further, back.symm⟩ ⟨[last] ++ out, by simp⟩ ?_
            simp only [List.length_append, List.length_cons, List.length_nil]
            omega
          exact once (early.subset (by simp [ends]))
    rw [List.cons_append, List.cons_append, cutAt, if_neg, ih]
    · rfl
    · exact fun within => inside (within.trans (List.suffix_cons c body).isInfix)
    · rw [List.isPrefixOf_iff_prefix]
      exact here

def Passes (cs : List Char) : Prop :=
  ∀ out, cutTag none (cs ++ out) = (cutTag none out).map fun (inside, after) => (cs ++ inside, after)

theorem Passes.append {cs ds : List Char} (first : Passes cs) (second : Passes ds) : Passes (cs ++ ds) := by
  intro out
  rw [List.append_assoc, first, second, Option.map_map]
  refine congrArg (fun f => Option.map f _) (funext fun pair => ?_)
  simp

theorem passes_clear {cs : List Char} (clear : ∀ c ∈ cs, c ≠ '>' ∧ c ≠ '"' ∧ c ≠ '\'') : Passes cs := by
  intro out
  induction cs with
  | nil => simp
  | cons c cs ih =>
    obtain ⟨⟨bracket, double, single⟩, later⟩ := List.forall_mem_cons.mp clear
    rw [List.cons_append, cutTag, if_neg bracket, if_neg (by simp [double, single]), ih later, Option.map_map]
    rfl

theorem passes_quoted {quote : Char} {cs : List Char} (isQuote : quote = '"' ∨ quote = '\'')
    (clear : ∀ c ∈ cs, c ≠ quote) : Passes (quote :: cs ++ [quote]) := by
  have within : ∀ out, cutTag (some quote) (cs ++ quote :: out) =
      (cutTag none out).map fun (inside, after) => (cs ++ quote :: inside, after) := by
    intro out
    induction cs with
    | nil => simp [cutTag]
    | cons c cs ih =>
      obtain ⟨other, later⟩ := List.forall_mem_cons.mp clear
      rw [List.cons_append, cutTag, if_neg other, ih later, Option.map_map]
      rfl
  have bracket : quote ≠ '>' := by rcases isQuote with rfl | rfl <;> decide
  intro out
  have opened := within out
  rw [List.append_assoc, List.cons_append, cutTag, if_neg bracket, if_pos isQuote, List.singleton_append, opened,
    Option.map_map]
  refine congrArg (fun f => Option.map f _) (funext fun pair => ?_)
  simp

theorem Passes.cutTag {cs : List Char} (passes : Passes cs) (out : List Char) :
    Token.cutTag none (cs ++ '>' :: out) = some (cs, out) := by
  rw [passes, Token.cutTag, if_pos rfl]
  simp

theorem scanFrom_markup {offset : Nat} {rest inside after : List Char} {tokens : List Token}
    (cut : (Markup.of rest).cut rest = some (inside, after))
    (known : ofMarkup offset rest inside (Markup.of rest) = some tokens) :
    scanFrom offset ('<' :: rest) =
      tokens ++ scanFrom (offset + (Markup.of rest).frame + byteLength inside) after := by
  rw [scanFrom, if_pos rfl]
  dsimp only
  split
  · rename_i none
    rw [cut] at none
    cases none
  · rename_i inside' after' found
    rw [cut] at found
    cases found
    rw [known]

theorem byteLength_append (cs ds : List Char) : byteLength (cs ++ ds) = byteLength cs + byteLength ds := by
  have from' : ∀ (l : List Char) (n : Nat), l.foldl (fun length c => length + c.utf8Size) n = n + byteLength l := by
    intro l
    unfold byteLength
    induction l with
    | nil => intro n; rfl
    | cons c l ih =>
      intro n
      rw [List.foldl_cons, List.foldl_cons, ih, ih (0 + c.utf8Size)]
      omega
  rw [byteLength, List.foldl_append, ← byteLength, from']

theorem scanFrom_text {offset : Nat} {cs : List Char} (clear : ∀ c ∈ cs, c ≠ '<') (some : cs ≠ [])
    (out : List Char) :
    scanFrom offset (cs ++ out) = .text (cs ++ out.takeWhile (· ≠ '<')) ::
      scanFrom (offset + byteLength (cs ++ out.takeWhile (· ≠ '<'))) (out.dropWhile (· ≠ '<')) := by
  cases cs with
  | nil => exact absurd rfl some
  | cons c cs =>
    obtain ⟨here, later⟩ := List.forall_mem_cons.mp clear
    have all : ∀ d ∈ cs, decide (d ≠ '<') = true := fun d member => decide_eq_true (later d member)
    rw [List.cons_append, scanFrom, if_neg here]
    dsimp only
    rw [List.takeWhile_append_of_pos all, List.dropWhile_append_of_pos all]
    rfl

end Token

namespace Tag

theorem localName_of_clear {name : List Char} (clear : ':' ∉ name) : localName name = name := by
  have none : name.dropWhile (· ≠ ':') = [] := by
    rw [List.dropWhile_eq_nil_iff]
    intro c member
    exact decide_eq_true fun equal => clear (equal ▸ member)
  rw [localName, none]

theorem localName_of_name {name : String} (proper : IsName name) : localName name.toList = name.toList :=
  localName_of_clear fun member => (proper.clear _ member).2 (by simp)

theorem dropWhile_blank {blanks : List Char} (blank : Blank blanks) (out : List Char) :
    (blanks ++ out).dropWhile isSpace = out.dropWhile isSpace :=
  List.dropWhile_append_of_pos blank

theorem attribute?_written {name : String} (proper : IsName name) (value out : List Char) :
    attribute? (name.toList ++ '=' :: '"' :: escape value ++ '"' :: out) = some ((name.toList, escape value), out) := by
  have clear := proper.clear
  cases whole : name.toList with
  | nil => exact absurd whole proper.nonempty
  | cons first later =>
    rw [whole] at clear
    have named : ∀ c ∈ later, (c ≠ '=' && !isSpace c : Bool) = true := by
      intro c member
      obtain ⟨space, marks⟩ := clear c (List.mem_cons_of_mem _ member)
      have sign : c ≠ '=' := fun equal => marks (by simp [equal])
      simp [space, sign]
    have quoted : ∀ c ∈ escape value, (c ≠ '"' : Bool) = true :=
      fun c member => decide_eq_true (escape_clear member).2
    have name : (later ++ '=' :: '"' :: escape value ++ '"' :: out).takeWhile (fun c => c ≠ '=' && !isSpace c) =
        later := by
      rw [List.append_assoc, List.takeWhile_append_of_pos named]
      simp
    have sign : (later ++ '=' :: '"' :: escape value ++ '"' :: out).dropWhile (fun c => c ≠ '=' && !isSpace c) =
        '=' :: '"' :: escape value ++ '"' :: out := by
      rw [List.append_assoc, List.dropWhile_append_of_pos named]
      simp
    have ends : (escape value ++ '"' :: out).dropWhile (· ≠ '"') = '"' :: out := by
      rw [List.dropWhile_append_of_pos quoted]
      simp
    have text : (escape value ++ '"' :: out).takeWhile (· ≠ '"') = escape value := by
      rw [List.takeWhile_append_of_pos quoted]
      simp
    simp only [attribute?, List.cons_append, List.append_assoc] at name sign ⊢
    rw [name, sign, List.dropWhile_cons_of_neg (by decide)]
    split
    · rename_i afterSign same
      cases same
      rw [List.dropWhile_cons_of_neg (by decide)]
      dsimp only
      rw [if_pos (Or.inl rfl), ends, text]
    · rename_i other
      exact absurd rfl (other _)

theorem attributes?_blank {blanks : List Char} (blank : Blank blanks) : attributes? blanks = some [] := by
  have none : blanks.dropWhile isSpace = [] := List.dropWhile_eq_nil_iff.mpr blank
  rw [attributes?]
  split
  · rfl
  · rename_i found
    rw [none] at found
    cases found

theorem attributes?_cons {gap text rest : List Char} {c : Char} {pair : List Char × List Char} (blank : Blank gap)
    (plain : isSpace c = false) (read : attribute? (c :: text) = some (pair, rest)) :
    attributes? (gap ++ c :: text) =
      (attributes? rest).bind fun later => if later.any (·.1 == pair.1) then none else some (pair :: later) := by
  have found : (gap ++ c :: text).dropWhile isSpace = c :: text := by
    rw [dropWhile_blank blank, List.dropWhile_cons_of_neg (by simp [plain])]
  rw [attributes?]
  split
  · rename_i none
    rw [found] at none
    cases none
  · rename_i found'
    rw [found] at found'
    cases found'
    split
    · rename_i none
      rw [read] at none
      cases none
    · rename_i read'
      rw [read] at read'
      cases read'
      rfl

theorem attributes?_listed {attributes : Attributes} {header : List Char} (listed : Listed attributes header)
    (proper : AreAttributes attributes) :
    attributes? header = some (attributes.map fun pair => (pair.1.toList, escape pair.2.toList)) := by
  induction listed with
  | done blank => exact attributes?_blank blank
  | @next name value rest gap out blank apart later ih =>
    have named := proper.names _ List.mem_cons_self
    obtain ⟨fresh, distinct⟩ := List.nodup_cons.mp proper.distinct
    have others := ih ⟨fun pair member => proper.names pair (List.mem_cons_of_mem _ member), distinct⟩
    have read := attribute?_written named value.toList out
    have new : (rest.map fun pair => (pair.1.toList, escape pair.2.toList)).any (·.1 == name.toList) = false := by
      rw [List.any_eq_false]
      intro written member equal
      obtain ⟨pair, listed, rfl⟩ := List.mem_map.mp member
      rw [beq_iff_eq, String.toList_inj] at equal
      exact fresh (List.mem_map.mpr ⟨pair, listed, equal⟩)
    cases whole : name.toList with
    | nil => exact absurd whole named.nonempty
    | cons c text =>
      have plain := (named.clear c (by simp [whole])).1
      rw [whole] at read
      simp only [List.cons_append, List.append_assoc] at read ⊢
      have step := attributes?_cons blank plain read
      rw [step, others, Option.bind_some, ← whole, new, List.map_cons]
      rfl

theorem set_of_absent {name value : String} {attributes : Attributes} (absent : name ∉ attributes.map Prod.fst) :
    Attributes.set name value attributes = attributes ++ [(name, value)] := by
  induction attributes with
  | nil => rfl
  | cons pair rest ih =>
    rw [List.map_cons, List.mem_cons, not_or] at absent
    rw [Attributes.set, if_neg (Ne.symm absent.1), ih absent.2, List.cons_append]

theorem elementAttributes?_listed {attributes : Attributes} (proper : AreAttributes attributes) :
    elementAttributes? (attributes.map fun pair => (pair.1.toList, escape pair.2.toList)) = some attributes := by
  have kept : (attributes.map fun pair => (pair.1.toList, escape pair.2.toList)).filter
      (fun pair => !isNamespaceDeclaration pair.1) = attributes.map fun pair => (pair.1.toList, escape pair.2.toList) := by
    rw [List.filter_eq_self]
    intro written member
    obtain ⟨pair, listed, rfl⟩ := List.mem_map.mp member
    have plain := (proper.names pair listed).plain
    simpa [isNamespaceDeclaration, ← List.isPrefixOf_iff_prefix] using plain
  -- the attributes read so far keep their place
  have onto : ∀ (done rest : Attributes), (∀ pair ∈ rest, IsName pair.1) → ((done ++ rest).map Prod.fst).Nodup →
      (rest.map fun pair => (pair.1.toList, escape pair.2.toList)).foldlM
        (fun set pair => (Entity.decode pair.2).map fun value =>
          Attributes.set (String.ofList (localName pair.1)) (String.ofList value) set) done = some (done ++ rest) := by
    intro done rest names distinct
    induction rest generalizing done with
    | nil => simp
    | cons pair rest ih =>
      have named := names pair List.mem_cons_self
      have absent : pair.1 ∉ done.map Prod.fst := by
        rw [List.map_append, List.nodup_append] at distinct
        exact fun member => distinct.2.2 _ member _ (by simp) rfl
      rw [List.map_cons, List.foldlM_cons, Entity.decode_escape, Option.map_some, localName_of_name named,
        String.ofList_toList, String.ofList_toList, set_of_absent absent]
      have moved : done ++ pair :: rest = done ++ [pair] ++ rest := by simp
      rw [moved] at distinct ⊢
      exact ih _ (fun other member => names other (List.mem_cons_of_mem _ member)) distinct
  rw [elementAttributes?, kept]
  exact onto [] attributes proper.names proper.distinct

theorem passes_name {name : String} (proper : IsName name) : Token.Passes name.toList := by
  refine Token.passes_clear fun c member => ?_
  have marks := (proper.clear c member).2
  simp only [List.mem_cons, not_or] at marks
  exact ⟨marks.2.2.2.1, marks.1, marks.2.1⟩

theorem passes_blank {blanks : List Char} (blank : Blank blanks) : Token.Passes blanks := by
  refine Token.passes_clear fun c member => ?_
  have space := blank c member
  refine ⟨?_, ?_, ?_⟩ <;> rintro rfl <;> cases space

theorem passes_listed {attributes : Attributes} {header : List Char} (listed : Listed attributes header)
    (proper : AreAttributes attributes) : Token.Passes header := by
  induction listed with
  | done blank => exact passes_blank blank
  | @next name value rest gap out blank apart later ih =>
    have named := proper.names _ List.mem_cons_self
    have others := ih ⟨fun pair member => proper.names pair (List.mem_cons_of_mem _ member),
      (List.nodup_cons.mp proper.distinct).2⟩
    have sign : Token.Passes ['='] := Token.passes_clear (by simp)
    have quoted := Token.passes_quoted (.inl rfl) fun c (member : c ∈ escape value.toList) => (escape_clear member).2
    have whole := ((((passes_blank blank).append (passes_name named)).append sign).append quoted).append others
    simpa only [List.append_assoc, List.cons_append, List.nil_append] using whole

-- What follows the name begins with a blank and does not end as a tag that closes itself.
theorem listed_starts {attributes : Attributes} {header : List Char} (listed : Listed attributes header) :
    ∀ c, header.head? = some c → isSpace c = true := by
  intro c first
  cases listed with
  | done blank => exact blank c (List.mem_of_mem_head? first)
  | next blank apart later =>
    rename_i gap out
    cases gap with
    | nil => exact absurd rfl apart
    | cons d gap =>
      cases first
      exact blank c List.mem_cons_self

theorem listed_ends {attributes : Attributes} {header : List Char} (listed : Listed attributes header) :
    header.getLast? ≠ some '/' := by
  induction listed with
  | done blank =>
    intro last
    exact absurd (blank _ (List.mem_of_mem_getLast? last)) (by decide)
  | @next name value rest gap out blank apart later ih =>
    intro last
    rw [List.getLast?_append, List.getLast?_cons] at last
    cases ends : out.getLast? with
    | none =>
      rw [ends] at last
      cases last
    | some c =>
      rw [ends] at last ih
      exact ih last

variable {tag : String} {attributes : Attributes} {header : List Char}

theorem takeWhile_name (proper : IsName tag) (listed : Listed attributes header) :
    (tag.toList ++ header).takeWhile (!isSpace ·) = tag.toList ∧
      (tag.toList ++ header).dropWhile (!isSpace ·) = header := by
  have plain : ∀ c ∈ tag.toList, (!isSpace c) = true := by
    intro c member
    rw [(proper.clear c member).1]
    rfl
  rw [List.takeWhile_append_of_pos plain, List.dropWhile_append_of_pos plain]
  have starts := listed_starts listed
  cases header with
  | nil => simp
  | cons c rest => simp [starts c rfl]

theorem read?_written (proper : IsName tag) (listed : Listed attributes header) (all : AreAttributes attributes) :
    read? (tag.toList ++ header) = some ⟨tag.toList, attributes, false⟩ := by
  obtain ⟨name, rest⟩ := takeWhile_name proper listed
  have last : (tag.toList ++ header).getLast? ≠ some '/' := by
    rw [List.getLast?_append]
    cases ends : header.getLast? with
    | some c =>
      rw [Option.some_or, ← ends]
      exact listed_ends listed
    | none =>
      intro slash
      exact (proper.clear _ (List.mem_of_mem_getLast? slash)).2 (by simp)
  have opened : ((tag.toList ++ header).getLast? == some '/') = false := beq_false_of_ne last
  simp only [read?, opened, Bool.false_eq_true, if_false]
  rw [name, rest, attributes?_listed listed all, Option.bind_some, elementAttributes?_listed all, Option.map_some]

theorem read?_closed (proper : IsName tag) (listed : Listed attributes header) (all : AreAttributes attributes) :
    read? (tag.toList ++ header ++ ['/']) = some ⟨tag.toList, attributes, true⟩ := by
  obtain ⟨name, rest⟩ := takeWhile_name proper listed
  have closed : ((tag.toList ++ header ++ ['/']).getLast? == some '/') = true := by simp
  simp only [read?, closed, if_true, List.dropLast_concat]
  rw [name, rest, attributes?_listed listed all, Option.bind_some, elementAttributes?_listed all, Option.map_some]

theorem endName_written (proper : IsName tag) {blanks : List Char} (blank : Blank blanks) :
    endName (tag.toList ++ blanks) = tag.toList := by
  have blank' : ∀ c ∈ blanks.reverse, isSpace c = true := fun c member => blank c (List.mem_reverse.mp member)
  unfold endName
  rw [List.reverse_append, List.dropWhile_append_of_pos blank']
  cases whole : tag.toList.reverse with
  | nil => exact absurd (List.reverse_eq_nil_iff.mp whole) proper.nonempty
  | cons c rest =>
    have plain := (proper.clear c (by rw [← List.mem_reverse, whole]; exact List.mem_cons_self)).1
    rw [List.dropWhile_cons_of_neg (by simp [plain])]
    dsimp only
    rw [← whole, List.reverse_reverse]

theorem markup_of_name (proper : IsName tag) (out : List Char) : Token.Markup.of (tag.toList ++ out) = .startTag := by
  have clear := proper.clear
  have first := proper.first
  cases whole : tag.toList with
  | nil => exact absurd whole proper.nonempty
  | cons c rest =>
    rw [whole] at clear first
    obtain ⟨bang, question⟩ := first c rfl
    have slash : c ≠ '/' := by
      rintro rfl
      exact (clear '/' List.mem_cons_self).2 (by simp)
    unfold Token.Markup.of
    split <;> simp_all

end Tag

end ScopeAtlas
