import ScopeAtlas.Proofs.Grouping
import ScopeAtlas.Proofs.Runs

namespace ScopeAtlas

namespace Content

-- Puts a run of text in front; it joins a run that stands there, and an empty one is left out.
def prepend (run : String) : Content → Content
  | .text next rest => .text (run ++ next) rest
  | rest => if run = "" then rest else .text run rest

-- The content without positions and lines, each stretch of text as one run.
def gist : Content → Content
  | .nil => .nil
  | .text run rest => prepend run rest.gist
  | .element tag attributes _ _ inner rest => .element tag attributes "" 0 inner.gist rest.gist

def startsWithText : Content → Bool
  | .text _ _ => true
  | _ => false

-- Each stretch of text is one run, and there are no positions and lines.
def Plain : Content → Prop
  | .nil => True
  | .text run rest => run ≠ "" ∧ rest.startsWithText = false ∧ rest.Plain
  | .element _ _ position line inner rest => position = "" ∧ line = 0 ∧ inner.Plain ∧ rest.Plain

theorem feed_prepend (run : String) (c : Content) : (prepend run c).feed = run ++ c.feed := by
  cases c with
  | text next rest => simp [prepend, feed, String.append_assoc]
  | nil =>
    by_cases empty : run = ""
    · simp [prepend, empty, feed]
    · simp [prepend, empty, feed]
  | element tag attributes position line inner rest =>
    by_cases empty : run = ""
    · simp [prepend, empty]
    · simp [prepend, empty, feed]

theorem feed_gist (c : Content) : c.gist.feed = c.feed := by
  induction c with
  | nil => rfl
  | text run rest ih => rw [gist, feed_prepend, ih, feed]
  | element tag attributes position line inner rest inside after => rw [gist, feed, feed, inside, after]

theorem plain_prepend {run : String} {c : Content} (plain : c.Plain) : (prepend run c).Plain := by
  cases c with
  | text next rest =>
    refine ⟨?_, plain.2⟩
    intro empty
    exact plain.1 (String.append_eq_empty_iff.mp empty).2
  | nil =>
    by_cases empty : run = ""
    · simpa [prepend, empty] using plain
    · simpa [prepend, empty] using ⟨empty, rfl, plain⟩
  | element tag attributes position line inner rest =>
    by_cases empty : run = ""
    · simpa [prepend, empty] using plain
    · simpa [prepend, empty] using ⟨empty, rfl, plain⟩

theorem plain_gist (c : Content) : c.gist.Plain := by
  induction c with
  | nil => trivial
  | text run rest ih => exact plain_prepend ih
  | element tag attributes position line inner rest inside after => exact ⟨rfl, rfl, inside, after⟩

end Content

-- What a tree says: its tags, its attributes in their order, and its content.
def Element.gist (e : Element) : Element := { tag := e.tag, attributes := e.attributes, line := 0, content := e.content.gist }

theorem Element.feed_gist (e : Element) : e.gist.feed = e.feed := by
  rw [feed, feed, gist, Content.feed_gist]

namespace Mark

-- What stands between the angle brackets of an end mark or of a start mark.
def isTag : List Char → Bool
  | ['/'] => true
  | first :: _ => first ≠ '/' && first ≠ ' '
  | [] => false

def isBracket (c : Char) : Bool := c = '<' || c = '>'

-- A tag begins after an opening bracket that was just read.
def beginsTag (run : List Char) : Bool :=
  isTag (run.takeWhile (!isBracket ·)) && (run.dropWhile (!isBracket ·)).head? = some '>'

def holdsTag : List Char → Bool
  | [] => false
  | c :: rest => (c = '<' && beginsTag rest) || holdsTag rest

-- An equals sign after a blank, as in front of a second attribute.
def holdsSeparator : List Char → Bool
  | [] => false
  | c :: rest => (c = ' ' && rest.contains '=') || holdsSeparator rest

end Mark

def Content.DelimitedTag (tag : String) : Prop :=
  Mark.isTag tag.toList = true ∧ tag.toList.head? ≠ some '/' ∧ tag.toList.all (fun c => !Mark.isBracket c && c != ' ') = true

def Attributes.Delimited (attributes : Attributes) : Prop :=
  ∀ entry ∈ attributes, entry.1.toList.all (fun c => !Mark.isBracket c && c != ' ' && c != '=') = true ∧
    entry.2.toList.all (!Mark.isBracket ·) = true ∧ Mark.holdsSeparator entry.2.toList = false

def Content.Delimited : Content → Prop
  | .nil => True
  | .text run rest => Mark.holdsTag run.toList = false ∧ rest.Delimited
  | .element tag attributes _ _ inner rest =>
    DelimitedTag tag ∧ attributes.Delimited ∧ inner.Delimited ∧ rest.Delimited

-- No part of the tree can be taken for a mark around another.
def Element.Delimited (e : Element) : Prop :=
  Content.DelimitedTag e.tag ∧ e.attributes.Delimited ∧ e.content.gist.Delimited

instance (tag : String) : Decidable (Content.DelimitedTag tag) := inferInstanceAs (Decidable (_ ∧ _))

instance (attributes : Attributes) : Decidable attributes.Delimited :=
  inferInstanceAs (Decidable (∀ entry ∈ attributes, _))

instance Content.decidableDelimited : (c : Content) → Decidable c.Delimited
  | .nil => isTrue trivial
  | .text _ rest => @instDecidableAnd _ _ inferInstance rest.decidableDelimited
  | .element _ _ _ _ inner rest =>
    @instDecidableAnd _ _ inferInstance <| @instDecidableAnd _ _ inferInstance <|
      @instDecidableAnd _ _ inner.decidableDelimited rest.decidableDelimited

instance (e : Element) : Decidable e.Delimited := inferInstanceAs (Decidable (_ ∧ _))

theorem Content.DelimitedTag.clear {tag : String} (delimited : DelimitedTag tag) :
    ∀ c ∈ tag.toList, Mark.isBracket c = false ∧ c ≠ ' ' := by
  intro c member
  simpa using List.all_eq_true.mp delimited.2.2 c member

theorem Attributes.Delimited.cons {name value : String} {rest : Attributes}
    (delimited : Attributes.Delimited ((name, value) :: rest)) :
    ((∀ c ∈ name.toList, Mark.isBracket c = false ∧ c ≠ ' ' ∧ c ≠ '=') ∧
      (∀ c ∈ value.toList, Mark.isBracket c = false) ∧ Mark.holdsSeparator value.toList = false) ∧
      Attributes.Delimited rest := by
  obtain ⟨⟨names, values, clear⟩, others⟩ := List.forall_mem_cons.mp delimited
  refine ⟨⟨fun c member => ?_, fun c member => ?_, clear⟩, others⟩
  · simpa [and_assoc] using List.all_eq_true.mp names c member
  · simpa using List.all_eq_true.mp values c member

namespace Mark

variable {x : Char} {a a' b b' run later : List Char}

def StopsAt (x : Char) (l : List Char) : Prop := ∀ c, l.head? = some c → c = x

theorem stopsAt_cons (x : Char) (l : List Char) : StopsAt x (x :: l) := by
  intro c first
  exact (Option.some.inj first).symm

theorem append_inj_of_stopsAt (free : x ∉ a) (free' : x ∉ a') (stops : StopsAt x b) (stops' : StopsAt x b')
    (same : a ++ b = a' ++ b') : a = a' ∧ b = b' := by
  rcases List.append_eq_append_iff.mp same with ⟨u, rfl, rfl⟩ | ⟨u, rfl, rfl⟩
  · cases u with
    | nil => simp
    | cons c u =>
      have first : c = x := stops c rfl
      simp [first] at free'
  · cases u with
    | nil => simp
    | cons c u =>
      have first : c = x := stops' c rfl
      simp [first] at free

theorem not_mem_of_not_isBracket {l : List Char} (clear : ∀ c ∈ l, isBracket c = false) : '<' ∉ l ∧ '>' ∉ l :=
  ⟨fun member => by simpa [isBracket] using clear _ member, fun member => by simpa [isBracket] using clear _ member⟩

theorem holdsTag_append (front back : List Char) (clear : holdsTag (front ++ back) = false) : holdsTag back = false := by
  induction front with
  | nil => exact clear
  | cons c front ih =>
    rw [List.cons_append, holdsTag, Bool.or_eq_false_iff] at clear
    exact ih clear.2

theorem beginsTag_of_isTag {inside : List Char} (tag : isTag inside = true) (clear : ∀ c ∈ inside, isBracket c = false)
    (later : List Char) : beginsTag (inside ++ '>' :: later) = true := by
  have all : ∀ c ∈ inside, (!isBracket c) = true := fun c member => by simp [clear c member]
  have stop : isBracket '>' = true := by decide
  rw [beginsTag, List.takeWhile_append_of_pos all, List.dropWhile_append_of_pos all]
  simp [stop, tag]

-- What an end mark or an element begins with.
def Leads (l : List Char) : Prop :=
  ∃ inside later, l = '<' :: (inside ++ '>' :: later) ∧ isTag inside = true ∧ ∀ c ∈ inside, isBracket c = false

theorem Leads.head? {l : List Char} (leads : Leads l) : l.head? = some '<' := by
  obtain ⟨inside, later, rfl, -⟩ := leads
  rfl

-- Text that holds no tag is not taken for one, whatever mark comes after it.
theorem not_leads_of_text (written : run ≠ []) (clear : holdsTag run = false) (next : later.head? = some '<') :
    ¬ Leads (run ++ later) := by
  rintro ⟨inside, rest, same, tag, free⟩
  obtain ⟨first, run, rfl⟩ := List.exists_cons_of_ne_nil written
  obtain ⟨rfl, tails⟩ := List.cons.inj same
  obtain ⟨opening, closing⟩ := not_mem_of_not_isBracket free
  rw [holdsTag, Bool.or_eq_false_iff] at clear
  rcases List.append_eq_append_iff.mp tails with ⟨u, rfl, rfl⟩ | ⟨u, rfl, split⟩
  · -- the text ends inside the tag, where no bracket stands
    cases u with
    | nil => simp at next
    | cons c u =>
      have bracket : c = '<' := by simpa using next
      simp [bracket] at opening
  · cases u with
    | nil =>
      rw [List.nil_append] at split
      rw [← split] at next
      simp at next
    | cons c u =>
      -- the text contains the whole tag
      obtain ⟨rfl, -⟩ := List.cons.inj split
      rw [beginsTag_of_isTag tag free] at clear
      simp at clear

theorem text_inj (clear : holdsTag a = false) (clear' : holdsTag a' = false) (leads : Leads b) (leads' : Leads b')
    (same : a ++ b = a' ++ b') : a = a' ∧ b = b' := by
  rcases List.append_eq_append_iff.mp same with ⟨u, rfl, rfl⟩ | ⟨u, rfl, rfl⟩
  · cases u with
    | nil => simp
    | cons c u => exact (not_leads_of_text (List.cons_ne_nil c u) (holdsTag_append a _ clear') leads'.head? leads).elim
  · cases u with
    | nil => simp
    | cons c u => exact (not_leads_of_text (List.cons_ne_nil c u) (holdsTag_append a' _ clear) leads.head? leads').elim

def attributesText : Attributes → List Char
  | [] => []
  | (name, value) :: rest => ' ' :: (name.toList ++ '=' :: (value.toList ++ attributesText rest))

theorem toList_feed (attributes : Attributes) : (Attributes.feed attributes).toList = attributesText attributes := by
  induction attributes with
  | nil => rfl
  | cons entry rest ih => simp [Attributes.feed, attributesText, ih]

theorem attributesText_stops (attributes : Attributes) : StopsAt ' ' (attributesText attributes) := by
  cases attributes with
  | nil => simp [StopsAt, attributesText]
  | cons entry rest => exact stopsAt_cons _ _

theorem holdsSeparator_append (front back : List Char) (clear : holdsSeparator (front ++ back) = false) :
    holdsSeparator back = false := by
  induction front with
  | nil => exact clear
  | cons c front ih =>
    rw [List.cons_append, holdsSeparator, Bool.or_eq_false_iff] at clear
    exact ih clear.2

-- A value does not run on into the attributes after it.
theorem value_ends {value : List Char} {attributes attributes' : Attributes} (delimited : attributes.Delimited)
    (clear : holdsSeparator value = false) (same : attributesText attributes = value ++ attributesText attributes') :
    value = [] := by
  cases value with
  | nil => rfl
  | cons c value =>
    cases attributes with
    | nil => cases same
    | cons entry rest =>
      obtain ⟨name, given⟩ := entry
      obtain ⟨⟨names, -, -⟩, -⟩ := delimited.cons
      obtain ⟨rfl, tails⟩ := List.cons.inj same
      rw [holdsSeparator, Bool.or_eq_false_iff] at clear
      have free : '=' ∉ value := by simpa using clear.1
      have blank : ' ' ∉ name.toList := fun member => (names _ member).2.1 rfl
      rcases List.append_eq_append_iff.mp tails with ⟨u, rfl, split⟩ | ⟨u, inside, split⟩
      · cases u with
        | nil =>
          -- the value stops right before the equals sign
          rw [List.nil_append] at split
          have stop := attributesText_stops attributes' '=' (by rw [← split]; rfl)
          cases stop
        | cons c u =>
          obtain ⟨rfl, -⟩ := List.cons.inj split
          simp at free
      · -- the value stops in the name or right before the equals sign
        cases u with
        | nil =>
          have stop := attributesText_stops attributes' '=' (by rw [split]; rfl)
          cases stop
        | cons c u =>
          have stop := attributesText_stops attributes' c (by rw [split]; rfl)
          rw [stop] at inside
          exact (blank (by simp [inside])).elim

theorem value_inj {value value' : List Char} {attributes attributes' : Attributes} (delimited : attributes.Delimited)
    (delimited' : attributes'.Delimited) (clear : holdsSeparator value = false) (clear' : holdsSeparator value' = false)
    (same : value ++ attributesText attributes = value' ++ attributesText attributes') :
    value = value' ∧ attributesText attributes = attributesText attributes' := by
  rcases List.append_eq_append_iff.mp same with ⟨u, rfl, rest⟩ | ⟨u, rfl, rest⟩
  · obtain rfl := value_ends delimited (holdsSeparator_append value _ clear') rest
    simpa using rest
  · obtain rfl := value_ends delimited' (holdsSeparator_append value' _ clear) rest
    simpa using rest.symm

theorem attributesText_inj {attributes attributes' : Attributes} (delimited : attributes.Delimited)
    (delimited' : attributes'.Delimited) (same : attributesText attributes = attributesText attributes') :
    attributes = attributes' := by
  induction attributes generalizing attributes' with
  | nil =>
    cases attributes' with
    | nil => rfl
    | cons entry rest => cases same
  | cons entry rest ih =>
    cases attributes' with
    | nil => cases same
    | cons entry' rest' =>
      obtain ⟨name, value⟩ := entry
      obtain ⟨name', value'⟩ := entry'
      obtain ⟨⟨names, -, clear⟩, delimited⟩ := delimited.cons
      obtain ⟨⟨names', -, clear'⟩, delimited'⟩ := delimited'.cons
      obtain ⟨first, second⟩ := append_inj_of_stopsAt (fun member => (names _ member).2.2 rfl)
        (fun member => (names' _ member).2.2 rfl) (stopsAt_cons '=' _) (stopsAt_cons '=' _) (List.cons.inj same).2
      obtain ⟨third, fourth⟩ := value_inj delimited delimited' clear clear' (List.cons.inj second).2
      rw [String.toList_inj.mp first, String.toList_inj.mp third, ih delimited delimited' fourth]

def header (tag : String) (attributes : Attributes) : List Char := tag.toList ++ attributesText attributes

variable {tag tag' : String} {attributes attributes' : Attributes}

theorem header_clear (delimited : Content.DelimitedTag tag) (listed : attributes.Delimited) :
    ∀ c ∈ header tag attributes, isBracket c = false := by
  refine List.forall_mem_append.mpr ⟨fun c member => (delimited.clear c member).1, ?_⟩
  induction attributes with
  | nil => exact List.forall_mem_nil _
  | cons entry rest ih =>
    obtain ⟨name, value⟩ := entry
    obtain ⟨⟨names, values, -⟩, listed⟩ := listed.cons
    simp only [attributesText, List.forall_mem_cons, List.forall_mem_append]
    exact ⟨rfl, fun c member => (names c member).1, rfl, values, ih listed⟩

theorem header_isTag (delimited : Content.DelimitedTag tag) :
    ∃ first rest, header tag attributes = first :: rest ∧ first ≠ '/' ∧ isTag (header tag attributes) = true := by
  have clear := delimited.clear
  obtain ⟨named, start, -⟩ := delimited
  unfold header
  cases letters : tag.toList with
  | nil =>
    rw [letters] at named
    cases named
  | cons first rest =>
    rw [letters] at start clear
    have slash : first ≠ '/' := fun same => start (by rw [same]; rfl)
    have blank := (clear first List.mem_cons_self).2
    refine ⟨first, rest ++ attributesText attributes, rfl, slash, ?_⟩
    rw [List.cons_append]
    unfold isTag
    split
    · rfl
    · rename_i other _
      simp_all
    · rename_i empty
      cases empty

theorem header_inj (delimited : Content.DelimitedTag tag) (delimited' : Content.DelimitedTag tag')
    (listed : attributes.Delimited) (listed' : attributes'.Delimited)
    (same : header tag attributes = header tag' attributes') : tag = tag' ∧ attributes = attributes' := by
  obtain ⟨first, second⟩ := append_inj_of_stopsAt (fun member => (delimited.clear _ member).2 rfl)
    (fun member => (delimited'.clear _ member).2 rfl) (attributesText_stops _) (attributesText_stops _) same
  exact ⟨String.toList_inj.mp first, attributesText_inj listed listed' second⟩

end Mark

namespace Content

open Mark

variable {c c' : Content} {r r' : List Char}

def toEnd (c : Content) (r : List Char) : List Char := c.feed.toList ++ '<' :: '/' :: '>' :: r

theorem toEnd_nil (r : List Char) : toEnd .nil r = '<' :: '/' :: '>' :: r := by
  simp [toEnd, feed]

theorem toEnd_text (run : String) (rest : Content) (r : List Char) :
    toEnd (.text run rest) r = run.toList ++ rest.toEnd r := by
  simp [toEnd, feed]

theorem toEnd_element (tag : String) (attributes : Attributes) (position : String) (line : Nat) (inner rest : Content)
    (r : List Char) :
    toEnd (.element tag attributes position line inner rest) r =
      '<' :: (header tag attributes ++ '>' :: inner.toEnd (rest.toEnd r)) := by
  simp [toEnd, feed, header, toList_feed]

theorem toEnd_leads (text : c.startsWithText = false) (delimited : c.Delimited) (r : List Char) : Leads (c.toEnd r) := by
  cases c with
  | nil => exact ⟨['/'], r, toEnd_nil r, rfl, by simp [isBracket]⟩
  | text run rest => cases text
  | element tag attributes position line inner rest =>
    obtain ⟨named, listed, -⟩ := delimited
    obtain ⟨-, -, -, -, isTag⟩ := @header_isTag _ attributes named
    exact ⟨header tag attributes, _, toEnd_element _ _ _ _ _ _ _, isTag, header_clear named listed⟩

theorem toEnd_element_ne_nil {tag : String} {attributes : Attributes} {position : String} {line : Nat}
    {inner rest : Content} (named : DelimitedTag tag) :
    toEnd (.element tag attributes position line inner rest) r ≠ toEnd .nil r' := by
  intro same
  obtain ⟨first, letters, header, slash, -⟩ := @header_isTag _ attributes named
  rw [toEnd_element, toEnd_nil, header] at same
  exact slash (List.cons.inj (List.cons.inj same).2).1

-- The text up to the end mark tells the content, and where it ends.
theorem toEnd_inj (plain : c.Plain) (plain' : c'.Plain) (delimited : c.Delimited) (delimited' : c'.Delimited)
    (same : c.toEnd r = c'.toEnd r') : c = c' ∧ r = r' := by
  -- No run of text holds what reads as a tag, while an element and the end of one both start with a tag.
  have textFails : ∀ {run : String} {rest other : Content} {r r' : List Char}, (Content.text run rest).Plain →
      (Content.text run rest).Delimited → other.startsWithText = false → other.Delimited →
      (Content.text run rest).toEnd r = other.toEnd r' → False := by
    intro run rest other r r' plain delimited noText clear same
    have leads := toEnd_leads noText clear r'
    rw [← same, toEnd_text] at leads
    have written : run.toList ≠ [] := fun empty => plain.1 (String.toList_eq_nil_iff.mp empty)
    exact not_leads_of_text written delimited.1 (toEnd_leads plain.2.1 delimited.2 r).head? leads
  induction c generalizing c' r r' with
  | nil =>
    cases c' with
    | nil => exact ⟨rfl, by simpa [toEnd_nil] using same⟩
    | text run rest => exact (textFails plain' delimited' rfl delimited same.symm).elim
    | element tag attributes position line inner rest => exact (toEnd_element_ne_nil delimited'.1 same.symm).elim
  | text run rest ih =>
    cases c' with
    | nil => exact (textFails plain delimited rfl delimited' same).elim
    | text run' rest' =>
      rw [toEnd_text, toEnd_text] at same
      obtain ⟨runs, rests⟩ := text_inj delimited.1 delimited'.1 (toEnd_leads plain.2.1 delimited.2 r)
        (toEnd_leads plain'.2.1 delimited'.2 r') same
      obtain ⟨rfl, rfl⟩ := ih plain.2.2 plain'.2.2 delimited.2 delimited'.2 rests
      exact ⟨by rw [String.toList_inj.mp runs], rfl⟩
    | element tag attributes position line inner rest' => exact (textFails plain delimited rfl delimited' same).elim
  | element tag attributes position line inner rest inside after =>
    cases c' with
    | nil => exact (toEnd_element_ne_nil delimited.1 same).elim
    | text run rest' => exact (textFails plain' delimited' rfl delimited same.symm).elim
    | element tag' attributes' position' line' inner' rest' =>
      obtain ⟨named, listed, clear, later⟩ := delimited
      obtain ⟨named', listed', clear', later'⟩ := delimited'
      obtain ⟨rfl, rfl, plainInner, plainRest⟩ := plain
      obtain ⟨rfl, rfl, plainInner', plainRest'⟩ := plain'
      rw [toEnd_element, toEnd_element] at same
      obtain ⟨headers, inners⟩ := append_inj_of_stopsAt (not_mem_of_not_isBracket (header_clear named listed)).2
        (not_mem_of_not_isBracket (header_clear named' listed')).2 (stopsAt_cons '>' _) (stopsAt_cons '>' _)
        (List.cons.inj same).2
      obtain ⟨rfl, rfl⟩ := header_inj named named' listed listed' headers
      obtain ⟨rfl, rests⟩ := inside plainInner plainInner' clear clear' (List.cons.inj inners).2
      obtain ⟨rfl, rfl⟩ := after plainRest plainRest' later later' rests
      exact ⟨rfl, rfl⟩

end Content

namespace Element

variable {e e' : Element}

theorem toList_feed (e : Element) :
    e.feed.toList = (Content.element e.tag e.attributes "" 0 e.content.gist .nil).feed.toList := by
  rw [← feed_gist]
  simp [feed, gist, Content.feed]

theorem feed_eq_iff (delimited : e.Delimited) (delimited' : e'.Delimited) : e.feed = e'.feed ↔ e.gist = e'.gist := by
  constructor
  · intro same
    have lists := congrArg (fun text => text.toList ++ ['<', '/', '>']) same
    simp only [toList_feed] at lists
    obtain ⟨named, listed, clear⟩ := delimited
    obtain ⟨named', listed', clear'⟩ := delimited'
    obtain ⟨equal, -⟩ := @Content.toEnd_inj (.element e.tag e.attributes "" 0 e.content.gist .nil)
      (.element e'.tag e'.attributes "" 0 e'.content.gist .nil) [] [] ⟨rfl, rfl, e.content.plain_gist, trivial⟩
      ⟨rfl, rfl, e'.content.plain_gist, trivial⟩ ⟨named, listed, clear, trivial⟩ ⟨named', listed', clear', trivial⟩ lists
    simp only [Content.element.injEq] at equal
    simp [gist, equal]
  · intro same
    rw [← feed_gist e, ← feed_gist e', same]

theorem fileName_of_gist (same : e.gist = e'.gist) : e.fileName = e'.fileName := by
  have attributes : e.gist.attributes = e'.gist.attributes := congrArg Element.attributes same
  unfold fileName attribute?
  exact congrArg (fun listed => (List.lookup "filename" listed).getD "") attributes

end Element

theorem Tools.fingerprint_eq_iff {tools : Tools} {e e' : Element} (injective : Function.Injective tools.hash)
    (delimited : e.Delimited) (delimited' : e'.Delimited) :
    tools.fingerprint e = tools.fingerprint e' ↔ e.gist = e'.gist := by
  rw [Tools.fingerprint, Tools.fingerprint, injective.eq_iff, Element.feed_eq_iff delimited delimited']

namespace Codebase

-- The texts that are hashed tell trees apart that keep clear of the marks. With a hash free of collisions a codebase
-- therefore passes over a unit exactly if the unit in force says the same.
theorem fingerprints_tell_trees (e : Element) (delimited : e.Delimited) :
    (∀ e' : Element, e'.Delimited → (e.feed = e'.feed ↔ e.gist = e'.gist)) ∧
      ∀ (tools : Tools) (requests : List Request), Function.Injective tools.hash →
        (∀ e' ∈ ledger tools requests, e'.Delimited) →
        ((served tools requests).status e = .unchanged ↔ ∃ e' ∈ ledger tools requests, e'.gist = e.gist) := by
  refine ⟨fun e' delimited' => Element.feed_eq_iff delimited delimited', ?_⟩
  intro tools requests injective all
  rw [(served_remembers tools requests).status_eq_unchanged, tools_served]
  constructor
  · rintro ⟨e', listed, -, same⟩
    exact ⟨e', listed, (Tools.fingerprint_eq_iff injective (all e' listed) delimited).mp same⟩
  · rintro ⟨e', listed, same⟩
    refine ⟨e', listed, Element.fileName_of_gist same, ?_⟩
    exact (Tools.fingerprint_eq_iff injective (all e' listed) delimited).mpr same

-- A declaration is known again, and known to have changed.
theorem declarations_told_apart :
    (Graph.functionUnit "a.h" false "int").Delimited ∧ (Graph.functionUnit "a.h" false "long").Delimited ∧
      ledger .builtin [.update (Graph.functionUnit "a.h" false "int")] = [Graph.functionUnit "a.h" false "int"] ∧
      (served .builtin [.update (Graph.functionUnit "a.h" false "int")]).status (Graph.functionUnit "a.h" false "int") = .unchanged ∧
      (served .builtin [.update (Graph.functionUnit "a.h" false "int")]).status (Graph.functionUnit "a.h" false "long") ≠ .unchanged := by
  have first : (Graph.functionUnit "a.h" false "int").Delimited := by decide +kernel
  have second : (Graph.functionUnit "a.h" false "long").Delimited := by decide +kernel
  have inForce : ledger .builtin [.update (Graph.functionUnit "a.h" false "int")] = [Graph.functionUnit "a.h" false "int"] := by
    decide +kernel
  have all : ∀ e ∈ ledger .builtin [.update (Graph.functionUnit "a.h" false "int")], e.Delimited := by
    rw [inForce]
    exact List.forall_mem_singleton.mpr first
  have known := (fingerprints_tell_trees _ first).2 _ _ Function.injective_id all
  have changed := (fingerprints_tell_trees _ second).2 _ _ Function.injective_id all
  rw [inForce] at known changed
  refine ⟨first, second, inForce, known.mpr ⟨_, List.mem_singleton_self _, rfl⟩, fun same => ?_⟩
  obtain ⟨e, listed, equal⟩ := changed.mp same
  rw [List.mem_singleton.mp listed] at equal
  revert equal
  decide +kernel

-- A class, and text that reads like the marks around it; no hash tells them apart.
theorem text_passes_for_a_class :
    ∃ e e' : Element, e.gist ≠ e'.gist ∧ e.feed = e'.feed ∧ ledger .builtin [.update e] = [e] ∧
      (served .builtin [.update e]).status e' = .unchanged := by
  refine ⟨{ tag := "unit", attributes := [("filename", "a.h")], content := .written "class" (.name "A" .nil) .nil },
    { tag := "unit", attributes := [("filename", "a.h")], content := .text "<class><name>A</></>" .nil }, ?_, ?_, ?_, ?_⟩
  all_goals decide +kernel

end Codebase

end ScopeAtlas
