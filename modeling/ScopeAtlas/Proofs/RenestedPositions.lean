import ScopeAtlas.Markup.Position
import ScopeAtlas.Proofs.Renesting

namespace ScopeAtlas

def shift (here path : List Char) (position : String) : String :=
  if here ++ ['/'] <+: position.toList then .ofList (here ++ path ++ position.toList.drop here.length) else position

def IsDescent (path : List Char) : Prop := path = [] ∨ ∃ steps, path = '/' :: steps

section Order

variable {q r s b here path : List Char}

-- Against a text that does not start with `q`, a text that does is judged by `q` alone.
theorem append_lt_of_not_prefix (apart : ¬ q <+: b) (lower : q ++ r < b) : q ++ s < b := by
  induction q generalizing b with
  | nil => exact absurd List.nil_prefix apart
  | cons c q ih =>
    cases b with
    | nil => exact absurd lower (List.not_lt_nil _)
    | cons d b =>
      rw [List.cons_append, List.cons_lt_cons_iff] at lower ⊢
      rcases lower with lower | ⟨rfl, lower⟩
      · exact .inl lower
      · exact .inr ⟨rfl, ih (fun isPrefix => apart (List.cons_prefix_cons.mpr ⟨rfl, isPrefix⟩)) lower⟩

theorem lt_append_of_not_prefix (apart : ¬ q <+: b) (lower : b < q ++ r) : b < q ++ s := by
  induction q generalizing b with
  | nil => exact absurd List.nil_prefix apart
  | cons c q ih =>
    cases b with
    | nil => exact List.nil_lt_cons _ _
    | cons d b =>
      rw [List.cons_append, List.cons_lt_cons_iff] at lower ⊢
      rcases lower with lower | ⟨rfl, lower⟩
      · exact .inl lower
      · exact .inr ⟨rfl, ih (fun isPrefix => apart (List.cons_prefix_cons.mpr ⟨rfl, isPrefix⟩)) lower⟩

theorem lt_of_append_lt_append (lower : q ++ r < q ++ s) : r < s := by
  induction q with
  | nil => exact lower
  | cons c q ih =>
    rw [List.cons_append, List.cons_append, List.cons_lt_cons_iff] at lower
    rcases lower with lower | ⟨-, lower⟩
    · exact absurd lower (lt_irrefl c)
    · exact ih lower

theorem shift_below (here path s : List Char) :
    shift here path (.ofList (here ++ '/' :: s)) = .ofList (here ++ path ++ '/' :: s) := by
  unfold shift
  rw [if_pos]
  · simp
  · simp

theorem shift_other {position : String} (apart : ¬ here ++ ['/'] <+: position.toList) :
    shift here path position = position := if_neg apart

theorem eq_of_below {position : String} (under : here ++ ['/'] <+: position.toList) :
    ∃ s, position = .ofList (here ++ '/' :: s) := by
  obtain ⟨s, same⟩ := under
  refine ⟨s, ?_⟩
  rw [← String.ofList_toList (s := position), ← same]
  simp

theorem IsDescent.below (descends : IsDescent path) (here s : List Char) :
    ∃ r, here ++ path ++ '/' :: s = (here ++ ['/']) ++ r := by
  rcases descends with rfl | ⟨steps, rfl⟩
  · exact ⟨s, by simp⟩
  · exact ⟨steps ++ '/' :: s, by simp⟩

theorem shift_above (s : List Char) : shift (here ++ s) path (.ofList here) = .ofList here := by
  refine shift_other ?_
  intro under
  have length := under.length_le
  simp at length

theorem shift_strictMono (descends : IsDescent path) : StrictMono (shift here path) := by
  intro a b lower
  by_cases below : here ++ ['/'] <+: a.toList
  · obtain ⟨s, rfl⟩ := eq_of_below below
    obtain ⟨r, same⟩ := descends.below here s
    rw [shift_below]
    by_cases below' : here ++ ['/'] <+: b.toList
    · obtain ⟨s', rfl⟩ := eq_of_below below'
      rw [shift_below]
      rw [String.lt_iff, String.toList_ofList, String.toList_ofList] at lower ⊢
      exact List.append_left_lt (lt_of_append_lt_append lower)
    · rw [shift_other below']
      rw [String.lt_iff, String.toList_ofList] at lower ⊢
      rw [List.append_cons] at lower
      rw [same]
      exact append_lt_of_not_prefix below' lower
  · rw [shift_other below]
    by_cases below' : here ++ ['/'] <+: b.toList
    · obtain ⟨s, rfl⟩ := eq_of_below below'
      obtain ⟨r, same⟩ := descends.below here s
      rw [shift_below]
      rw [String.lt_iff, String.toList_ofList] at lower ⊢
      rw [List.append_cons] at lower
      rw [same]
      exact lt_append_of_not_prefix below lower
    · rw [shift_other below']
      exact lower

end Order

section Components

def component (tag : String) (number : Nat) : List Char := tag.toList ++ '[' :: (Nat.toDigits 10 number ++ [']'])

theorem childPosition_eq (parent tag : String) (number : Nat) :
    childPosition parent tag number = .ofList (parent.toList ++ '/' :: component tag number) := by
  unfold childPosition component
  rw [Nat.toString_eq_ofList_toDigits, ← String.toList_inj]
  simp

theorem toList_childPosition (parent tag : String) (number : Nat) :
    (childPosition parent tag number).toList = parent.toList ++ '/' :: component tag number := by
  rw [childPosition_eq, String.toList_ofList]

theorem append_cons_inj {mark : Char} {x y s t : List Char} (outside : mark ∉ x) (outside' : mark ∉ y)
    (same : x ++ mark :: s = y ++ mark :: t) : x = y ∧ s = t := by
  induction x generalizing y with
  | nil =>
    cases y with
    | nil => exact ⟨rfl, (List.cons.inj same).2⟩
    | cons d y => exact absurd (List.mem_cons.mpr (.inl (List.cons.inj same).1)) outside'
  | cons c x ih =>
    cases y with
    | nil => exact absurd (List.mem_cons.mpr (.inl (List.cons.inj same).1.symm)) outside
    | cons d y =>
      obtain ⟨rfl, later⟩ := List.cons.inj same
      obtain ⟨rfl, rest⟩ := ih (fun member => outside (List.mem_cons_of_mem _ member))
        (fun member => outside' (List.mem_cons_of_mem _ member)) later
      exact ⟨rfl, rest⟩

theorem not_mem_digits {c : Char} (other : c.isDigit = false) (number : Nat) : c ∉ Nat.toDigits 10 number := by
  intro member
  have digit := Nat.isDigit_of_mem_toDigits (by decide) (by decide) member
  rw [other] at digit
  cases digit

theorem component_inj {tag tag' : String} {number number' : Nat} (same : component tag number = component tag' number') :
    tag = tag' ∧ number = number' := by
  -- a number has no bracket in it, so the last one tells tag and number apart
  have backwards : ∀ (tag : String) (number : Nat),
      (component tag number).reverse = (']' :: (Nat.toDigits 10 number).reverse) ++ '[' :: tag.toList.reverse := by
    intro tag number
    simp [component]
  have outside : ∀ number, '[' ∉ ']' :: (Nat.toDigits 10 number).reverse := by
    intro number
    simp [not_mem_digits (c := '[') (by decide)]
  have reversed := congrArg List.reverse same
  rw [backwards, backwards] at reversed
  obtain ⟨numbers, tags⟩ := append_cons_inj (outside number) (outside number') reversed
  have digits : Nat.toDigits 10 number = Nat.toDigits 10 number' := List.reverse_inj.mp (List.cons.inj numbers).2
  refine ⟨String.toList_inj.mp (List.reverse_inj.mp tags), ?_⟩
  rw [← Nat.ofDigitChars_ten_toDigits (n := number), digits, Nat.ofDigitChars_ten_toDigits]

theorem slash_not_mem_component {tag : String} (plain : '/' ∉ tag.toList) (number : Nat) : '/' ∉ component tag number := by
  simp [component, plain, not_mem_digits (c := '/') (by decide)]

theorem shift_beside {parent below path x y rest : List Char} (outside : '/' ∉ x) (outside' : '/' ∉ y) (other : y ≠ x)
    (descends : IsDescent below) (descends' : IsDescent rest) :
    shift (parent ++ '/' :: x ++ below) path (.ofList (parent ++ '/' :: y ++ rest)) =
      .ofList (parent ++ '/' :: y ++ rest) := by
  refine shift_other ?_
  rintro ⟨s, same⟩
  rw [String.toList_ofList] at same
  -- both go on after the parent with a step of their own
  obtain ⟨r, same'⟩ : ∃ r, x ++ '/' :: r = y ++ rest := by
    rcases descends with rfl | ⟨steps, rfl⟩
    · exact ⟨s, by simpa using same⟩
    · exact ⟨steps ++ '/' :: s, by simpa using same⟩
  rcases descends' with rfl | ⟨steps, rfl⟩
  · rw [List.append_nil] at same'
    exact outside' (same' ▸ by simp)
  · exact other (append_cons_inj outside outside' same').1.symm

end Components

namespace Content

variable {f : String → String} {parent here path below : List Char}

theorem positioned_fixed (fixed : ∀ s, f (.ofList (parent ++ '/' :: s)) = .ofList (parent ++ '/' :: s)) (c : Content)
    (earlier : List String) : (c.positioned (.ofList parent) earlier).move f = c.positioned (.ofList parent) earlier := by
  induction c generalizing parent earlier with
  | nil => rfl
  | text run rest ih => simp only [positioned, move, ih fixed]
  | element tag attributes position line inner rest within after =>
    have fixed' : ∀ s, f (.ofList ((parent ++ '/' :: component tag (earlier.count tag + 1)) ++ '/' :: s)) =
        .ofList ((parent ++ '/' :: component tag (earlier.count tag + 1)) ++ '/' :: s) := by
      intro s
      simpa using fixed (component tag (earlier.count tag + 1) ++ '/' :: s)
    simp only [positioned, move, childPosition_eq, String.toList_ofList, fixed, within fixed', after fixed]

theorem positioned_below (c : Content) (s : List Char) (earlier : List String) :
    (c.positioned (.ofList (here ++ '/' :: s)) earlier).move (shift here path) =
      c.positioned (.ofList (here ++ path ++ '/' :: s)) earlier := by
  induction c generalizing s earlier with
  | nil => rfl
  | text run rest ih => simp only [positioned, move, ih]
  | element tag attributes position line inner rest within after =>
    have steps : ∀ start : List Char, start ++ '/' :: s ++ '/' :: component tag (earlier.count tag + 1) =
        start ++ '/' :: (s ++ '/' :: component tag (earlier.count tag + 1)) := by simp
    simp only [positioned, move, childPosition_eq, String.toList_ofList, steps, shift_below, within, after]

theorem child_beside (parent path : List Char) {tag tag' : String} {number number' : Nat} (plain : '/' ∉ tag.toList) (plain' : '/' ∉ tag'.toList)
    (other : component tag' number' ≠ component tag number) (descends : IsDescent below) (inner : Content) :
    shift (parent ++ '/' :: component tag number ++ below) path (childPosition (.ofList parent) tag' number') =
        childPosition (.ofList parent) tag' number' ∧
      (inner.positioned (childPosition (.ofList parent) tag' number') []).move
          (shift (parent ++ '/' :: component tag number ++ below) path) =
        inner.positioned (childPosition (.ofList parent) tag' number') [] := by
  have beside : ∀ later, IsDescent later → shift (parent ++ '/' :: component tag number ++ below) path
      (.ofList (parent ++ '/' :: component tag' number' ++ later)) =
        .ofList (parent ++ '/' :: component tag' number' ++ later) :=
    fun later => shift_beside (slash_not_mem_component plain number) (slash_not_mem_component plain' number') other descends
  rw [childPosition_eq, String.toList_ofList]
  refine ⟨?_, positioned_fixed (fun s => beside ('/' :: s) (.inr ⟨s, rfl⟩)) inner []⟩
  have place := beside [] (.inl rfl)
  rwa [List.append_nil] at place

theorem positioned_beside {tag : String} {number : Nat} (plain : '/' ∉ tag.toList) (descends : IsDescent below) (c : Content)
    (slashless : ∀ e ∈ c.descendants, '/' ∉ e.tag.toList) (earlier : List String) (passed : number ≤ earlier.count tag) :
    (c.positioned (.ofList parent) earlier).move (shift (parent ++ '/' :: component tag number ++ below) path) =
      c.positioned (.ofList parent) earlier := by
  induction c generalizing earlier with
  | nil => rfl
  | text run rest ih => simp only [positioned, move, ih slashless earlier passed]
  | element tag' attributes position line inner rest _ after =>
    have plain' : '/' ∉ tag'.toList := slashless ⟨tag', attributes, position, line, inner⟩ (by simp [descendants])
    have other : component tag' (earlier.count tag' + 1) ≠ component tag number := by
      intro same
      obtain ⟨rfl, rfl⟩ := component_inj same
      omega
    obtain ⟨place, inside⟩ := child_beside parent path plain plain' other descends inner
    have slashless' : ∀ e ∈ rest.descendants, '/' ∉ e.tag.toList :=
      fun e member => slashless e (by simp [descendants, member])
    have passed' : number ≤ (tag' :: earlier).count tag := Nat.le_trans passed List.count_le_count_cons
    simp only [positioned, move, place, inside, after slashless' _ passed']

end Content

-- A namespace of a qualified name, at any depth, is replaced by namespaces of its segments one in the other, which hold
-- the same body. The elements around it have tags that are `allowed`.
inductive Content.Renests (allowed : String → Prop) : Content → Content → Prop
  | here {attributes attributes' : Attributes} {position position' : String} {line line' : Nat} {name block : Element}
      {inner inner' : Content} (holds : inner.elements = [name, block]) (isName : name.tag = "name")
      (isBlock : block.tag = "block")
      (nests : block.Nests name.segmentNames ⟨"namespace", attributes', position', line', inner'⟩) (rest : Content) :
    Content.Renests allowed (.element "namespace" attributes position line inner rest)
      (.element "namespace" attributes' position' line' inner' rest)
  | inside {tag : String} (around : allowed tag) (attributes : Attributes) (position : String) (line : Nat)
      {inner inner' : Content} (renests : Content.Renests allowed inner inner') (rest : Content) :
    Content.Renests allowed (.element tag attributes position line inner rest)
      (.element tag attributes position line inner' rest)
  | after (tag : String) (attributes : Attributes) (position : String) (line : Nat) (inner : Content)
      {rest rest' : Content} (renests : Content.Renests allowed rest rest') :
    Content.Renests allowed (.element tag attributes position line inner rest)
      (.element tag attributes position line inner rest')
  | text (run : String) {rest rest' : Content} (renests : Content.Renests allowed rest rest') :
    Content.Renests allowed (.text run rest) (.text run rest')

theorem Content.Renested.fixed {f : String → String} {c : Content} (fixed : c.move f = c) : c.Renested f c := by
  have moved := Content.Renested.moved f c
  rwa [fixed] at moved

theorem Content.move_id (c : Content) : c.move id = c := by
  induction c with
  | nil => rfl
  | text run rest ih => simp only [move, ih]
  | element tag attributes position line inner rest within after => simp only [move, within, after, id]

theorem Content.Renests.renested {c c' : Content} (renests : c.Renests (· ∉ readTags) c') : c.Renested id c' := by
  induction renests with
  | @here _ _ _ _ _ _ name block _ _ holds isName isBlock nests rest =>
    obtain ⟨_, _, _, _, body⟩ := block
    cases isBlock
    exact .space holds isName nests (.fixed body.move_id) (.fixed rest.move_id)
  | inside around attributes position line _ rest ih =>
    exact .kept _ attributes position line ih (fun isRead => absurd isRead around) (.fixed rest.move_id)
  | after tag attributes position line inner _ ih =>
    exact .kept tag attributes position line (.fixed inner.move_id) (fun _ => inner.move_id.symm) ih
  | text run _ ih => exact .text run ih

def Element.placed (position : String) (e : Element) : Element :=
  { e with position, content := e.content.positioned position [] }

section Placing

variable {c : Content} {a b e block : Element} {parent : String}

theorem Content.elements_positioned_cons {rest : List Element} (first : c.elements = e :: rest) (parent : String)
    (earlier : List String) : ∃ c' : Content, c'.elements = rest ∧
      (c.positioned parent earlier).elements =
        e.placed (childPosition parent e.tag (earlier.count e.tag + 1)) :: (c'.positioned parent (e.tag :: earlier)).elements := by
  induction c with
  | nil => cases first
  | text run c ih => exact ih first
  | element tag attributes position line inner c _ _ =>
    cases first
    exact ⟨c, rfl, rfl⟩

theorem Content.elements_positioned_nil (empty : c.elements = []) (parent : String) (earlier : List String) :
    (c.positioned parent earlier).elements = [] := by
  induction c with
  | nil => rfl
  | text run c ih => exact ih empty
  | element tag attributes position line inner c _ _ => cases empty

theorem Content.elements_positioned_one (holds : c.elements = [a]) (parent : String) :
    (c.positioned parent []).elements = [a.placed (childPosition parent a.tag 1)] := by
  obtain ⟨c', empty, first⟩ := elements_positioned_cons holds parent []
  rw [first, elements_positioned_nil empty]
  rfl

theorem Content.elements_positioned_two (holds : c.elements = [a, b]) (differ : b.tag ≠ a.tag) (parent : String) :
    (c.positioned parent []).elements =
      [a.placed (childPosition parent a.tag 1), b.placed (childPosition parent b.tag 1)] := by
  obtain ⟨c', later, first⟩ := elements_positioned_cons holds parent []
  obtain ⟨c'', empty, second⟩ := elements_positioned_cons later parent [a.tag]
  have count : [a.tag].count b.tag = 0 := by simp [differ.symm]
  rw [first, second, elements_positioned_nil empty, count]
  rfl

theorem Element.segmentNames_placed (position : String) (e : Element) : (e.placed position).segmentNames = e.segmentNames := by
  have erased : ∀ (c : Content) (parent : String) (earlier : List String),
      (c.positioned parent earlier).move (fun _ => "") = c.move fun _ => "" := by
    intro c
    induction c with
    | nil => exact fun _ _ => rfl
    | text run rest ih =>
      intro parent earlier
      simp only [Content.positioned, Content.move, ih]
    | element tag attributes position line inner rest within after =>
      intro parent earlier
      simp only [Content.positioned, Content.move, within, after]
  have same : (e.placed position).move (fun _ => "") = e.move fun _ => "" := by
    simp only [Element.placed, Element.move, erased]
  rw [← Element.segmentNames_move (fun _ => "") (e.placed position), same, Element.segmentNames_move]

theorem Element.Nests.placed {names : List String} (nests : block.Nests names e) (isBlock : block.tag = "block")
    (here : String) : ∃ path, IsDescent path ∧
      (block.placed (.ofList (here.toList ++ path ++ '/' :: component "block" 1))).Nests names (e.placed here) := by
  induction nests generalizing here with
  | @innermost e name segment isSpace holds isName named =>
    have holds' := Content.elements_positioned_two holds (by rw [isBlock, isName]; decide) here
    rw [isBlock, childPosition_eq here "block"] at holds'
    refine ⟨[], .inl rfl, ?_⟩
    rw [List.append_nil]
    exact .innermost isSpace holds' isName ((name.segmentNames_placed _).trans named)
  | @outer e name inner segment names isSpace holds isName named inside ih =>
    have isSpace' : inner.tag = "namespace" := by cases inside <;> assumption
    -- the next namespace stands at a position below
    obtain ⟨here', steps, below, holds'⟩ : ∃ (here' : String) (steps : List Char),
        here'.toList = here.toList ++ '/' :: steps ∧
          ((e.placed here).elements = [name.placed (childPosition here name.tag 1), inner.placed here'] ∨
            ∃ block : Element, block.tag = "block" ∧ block.elements = [inner.placed here'] ∧
              (e.placed here).elements = [name.placed (childPosition here name.tag 1), block]) := by
      rcases holds with holds | ⟨between, isBlock', only, holds⟩
      · refine ⟨childPosition here inner.tag 1, _, toList_childPosition _ _ _, .inl ?_⟩
        exact Content.elements_positioned_two holds (by rw [isSpace', isName]; decide) here
      · have holds' := Content.elements_positioned_two holds (by rw [isBlock', isName]; decide) here
        refine ⟨childPosition (childPosition here between.tag 1) inner.tag 1,
          component between.tag 1 ++ '/' :: component inner.tag 1, by simp [toList_childPosition], .inr ?_⟩
        exact ⟨between.placed (childPosition here between.tag 1), isBlock', Content.elements_positioned_one only _, holds'⟩
    obtain ⟨path, -, nested⟩ := ih here'
    refine ⟨'/' :: steps ++ path, .inr ⟨steps ++ path, rfl⟩, ?_⟩
    rw [below] at nested
    refine .outer isSpace holds' isName ((name.segmentNames_placed _).trans named) ?_
    simpa using nested

end Placing

-- Trees that differ by such a replacement, after positions are given out: one place is shifted.
theorem Content.Renests.positioned {c c' : Content} (renests : c.Renests (· ∉ readTags) c')
    (slashless : ∀ e ∈ c.descendants, '/' ∉ e.tag.toList) (parent : List Char) (earlier : List String) :
    ∃ tag number below path, earlier.count tag < number ∧ '/' ∉ tag.toList ∧ IsDescent below ∧ IsDescent path ∧
      (c.positioned (.ofList parent) earlier).Renested (shift (parent ++ '/' :: component tag number ++ below) path)
        (c'.positioned (.ofList parent) earlier) := by
  -- The induction is on the way down to the renested element. Elements before it keep their positions since their
  -- component differs, and elements after it since their number is larger.
  induction renests generalizing parent earlier with
  | @here attributes attributes' position position' line line' name block inner inner' holds isName isBlock nests rest =>
    have later : ∀ e ∈ rest.descendants, '/' ∉ e.tag.toList := fun e member => slashless e (by simp [descendants, member])
    have plain : '/' ∉ "namespace".toList := by decide
    let number := earlier.count "namespace" + 1
    let here := parent ++ '/' :: component "namespace" number
    obtain ⟨path, descends, nested⟩ := nests.placed isBlock (.ofList here)
    have holds' := elements_positioned_two holds (by rw [isBlock, isName]; decide) (.ofList here)
    have after := @positioned_beside parent path [] "namespace" number plain (.inl rfl) rest later ("namespace" :: earlier)
      (by simp [number])
    obtain ⟨bodyTag, bodyAttributes, bodyPosition, bodyLine, body⟩ := block
    cases isBlock
    rw [childPosition_eq _ "block", String.toList_ofList] at holds'
    rw [String.toList_ofList] at nested
    have down := shift_below here path (component "block" 1)
    have moved := Renested.moved (shift here path) (body.positioned (.ofList (here ++ '/' :: component "block" 1)) [])
    rw [positioned_below] at moved
    refine ⟨"namespace", number, [], path, by simp [number], plain, .inl rfl, descends, ?_⟩
    rw [List.append_nil] at after ⊢
    simp only [Content.positioned, childPosition_eq _ "namespace", String.toList_ofList]
    refine .space holds' isName ?_ moved (.fixed after)
    rw [down, Element.segmentNames_placed]
    exact nested
  | @inside tag around attributes position line inner inner' renests rest ih =>
    have within : ∀ e ∈ inner.descendants, '/' ∉ e.tag.toList := fun e member => slashless e (by simp [descendants, member])
    have later : ∀ e ∈ rest.descendants, '/' ∉ e.tag.toList := fun e member => slashless e (by simp [descendants, member])
    have plain : '/' ∉ tag.toList := slashless ⟨tag, attributes, position, line, inner⟩ (by simp [descendants])
    obtain ⟨tag', number, below, path, -, -, descends, descends', renested⟩ :=
      ih within (parent ++ '/' :: component tag (earlier.count tag + 1)) []
    have below' : IsDescent ('/' :: component tag' number ++ below) := .inr ⟨_, rfl⟩
    have after := @positioned_beside parent path _ tag (earlier.count tag + 1) plain below' rest later (tag :: earlier)
      (by simp)
    refine ⟨tag, earlier.count tag + 1, _, path, Nat.lt_succ_self _, plain, below', descends', ?_⟩
    rw [List.append_assoc _ _ below] at renested
    have kept := Renested.kept tag attributes (.ofList (parent ++ '/' :: component tag (earlier.count tag + 1))) line renested
      (fun isRead => absurd isRead around) (.fixed after)
    rw [shift_above] at kept
    simp only [Content.positioned, childPosition_eq _ tag, String.toList_ofList]
    exact kept
  | @after tag attributes position line inner rest rest' renests ih =>
    have later : ∀ e ∈ rest.descendants, '/' ∉ e.tag.toList := fun e member => slashless e (by simp [descendants, member])
    have plain : '/' ∉ tag.toList := slashless ⟨tag, attributes, position, line, inner⟩ (by simp [descendants])
    obtain ⟨tag', number, below, path, counted, plain', descends, descends', renested⟩ := ih later parent (tag :: earlier)
    -- The number of the renested component counts this element too, so the two components differ.
    have other : component tag (earlier.count tag + 1) ≠ component tag' number := by
      intro same
      obtain ⟨rfl, rfl⟩ := component_inj same
      simp at counted
    obtain ⟨place, inside⟩ := child_beside parent path plain' plain other descends inner
    refine ⟨tag', number, below, path, Nat.lt_of_le_of_lt List.count_le_count_cons counted, plain', descends, descends', ?_⟩
    have kept := Content.Renested.kept tag attributes (childPosition (.ofList parent) tag (earlier.count tag + 1)) line
      (Content.Renested.fixed inside) (fun _ => inside.symm) renested
    rwa [place] at kept
  | text run _ ih =>
    obtain ⟨tag, number, below, path, later, plain, descends, descends', renested⟩ := ih slashless parent earlier
    exact ⟨tag, number, below, path, later, plain, descends, descends', .text run renested⟩

end ScopeAtlas
