import ScopeAtlas.Proofs.RenestedPositions

namespace ScopeAtlas

-- Two positions that go on, after a common beginning, to two different children.
def Parts (p q : List Char) : Prop :=
  ∃ parent x y r s : List Char, '/' ∉ x ∧ '/' ∉ y ∧ x ≠ y ∧ IsDescent r ∧ IsDescent s ∧
    p = parent ++ '/' :: x ++ r ∧ q = parent ++ '/' :: y ++ s

section Parting

variable {p q r : List Char}

theorem IsDescent.append_slash (descends : IsDescent r) : ∃ steps, r ++ ['/'] = '/' :: steps := by
  rcases descends with rfl | ⟨steps, rfl⟩
  · exact ⟨[], rfl⟩
  · exact ⟨steps ++ ['/'], rfl⟩

theorem Parts.symm (parts : Parts p q) : Parts q p := by
  obtain ⟨parent, x, y, r, s, plain, plain', differ, descends, descends', first, second⟩ := parts
  exact ⟨parent, y, x, s, r, plain', plain, differ.symm, descends', descends, second, first⟩

theorem Parts.not_prefix (parts : Parts p q) : ¬ p ++ ['/'] <+: q ++ ['/'] := by
  obtain ⟨parent, x, y, r, s, plain, plain', differ, descends, descends', rfl, rfl⟩ := parts
  rintro ⟨more, same⟩
  obtain ⟨steps, down⟩ := descends.append_slash
  obtain ⟨steps', down'⟩ := descends'.append_slash
  rw [List.append_assoc _ r, List.append_assoc _ s, down, down'] at same
  have onward : x ++ '/' :: (steps ++ more) = y ++ '/' :: steps' := by simpa using same
  exact differ (append_cons_inj plain plain' onward).1

theorem Parts.ne (parts : Parts p q) : p ≠ q := by
  rintro rfl
  exact parts.not_prefix (List.prefix_refl _)

theorem Parts.not_below (parts : Parts p q) : ¬ p ++ ['/'] <+: q :=
  fun below => parts.not_prefix (below.trans (List.prefix_append q ['/']))

end Parting

namespace Content

variable {c : Content} {a b : Element}

theorem descendants_subset (member : a ∈ c.descendants) : a.descendants ⊆ c.descendants := by
  induction c with
  | nil => cases member
  | text run rest ih => exact ih member
  | element tag attributes position line inner rest within after =>
    refine List.Subset.trans ?_ (List.subset_cons_self _ _)
    rcases List.mem_cons.mp member with rfl | member
    · exact List.subset_append_left _ _
    rcases List.mem_append.mp member with inside | later
    · exact List.Subset.trans (within inside) (List.subset_append_left _ _)
    · exact List.Subset.trans (after later) (List.subset_append_right _ _)

theorem size_lt_of_mem_descendants (member : a ∈ c.descendants) : a.size < c.size := by
  induction c with
  | nil => cases member
  | text run rest ih => exact Nat.lt_succ_of_lt (ih member)
  | element tag attributes position line inner rest within after =>
    rcases List.mem_cons.mp member with rfl | member
    · simp only [Element.size, size]; omega
    rcases List.mem_append.mp member with inside | later
    · have := within inside
      simp only [size]; omega
    · have := after later
      simp only [size]; omega

-- What is given out below `parent` goes on with the step of a child, whose number has not been given out before.
theorem position_below {parent : String} {earlier : List String} (slashless : ∀ e ∈ c.descendants, '/' ∉ e.tag.toList)
    (member : b ∈ (c.positioned parent earlier).descendants) :
    ∃ tag number path, '/' ∉ tag.toList ∧ earlier.count tag < number ∧ IsDescent path ∧
      b.position.toList = parent.toList ++ '/' :: component tag number ++ path := by
  induction c generalizing parent earlier with
  | nil => cases member
  | text run rest ih => exact ih slashless member
  | element tag attributes position line inner rest within after =>
    have plain : '/' ∉ tag.toList := slashless ⟨tag, attributes, position, line, inner⟩ (by simp [descendants])
    have inside : ∀ e ∈ inner.descendants, '/' ∉ e.tag.toList := fun e member => slashless e (by simp [descendants, member])
    have later : ∀ e ∈ rest.descendants, '/' ∉ e.tag.toList := fun e member => slashless e (by simp [descendants, member])
    rcases List.mem_cons.mp member with rfl | member
    · exact ⟨tag, _, [], plain, Nat.lt_succ_self _, .inl rfl, by rw [toList_childPosition, List.append_nil]⟩
    rcases List.mem_append.mp member with member | member
    · obtain ⟨tag', number, path, -, -, -, place⟩ := within inside member
      rw [toList_childPosition, List.append_assoc] at place
      exact ⟨tag, _, _, plain, Nat.lt_succ_self _, .inr ⟨_, rfl⟩, place⟩
    · obtain ⟨tag', number, path, plain', unused, descends, place⟩ := after later member
      exact ⟨tag', number, path, plain', Nat.lt_of_le_of_lt List.count_le_count_cons unused, descends, place⟩

end Content

namespace Element

-- The one element stands below the other by its position just if it is inside of it, whichever of them is asked about.
def Nested (a b : Element) : Prop :=
  (a.position.toList ++ ['/'] <+: b.position.toList ↔ b ∈ a.descendants) ∧
    (b.position.toList ++ ['/'] <+: a.position.toList ↔ a ∈ b.descendants)

instance : Std.Symm Nested := ⟨fun _ _ nested => ⟨nested.2, nested.1⟩⟩

variable {a b e : Element} {here : String}

theorem not_mem_descendants (e : Element) : e ∉ e.descendants :=
  fun member => Nat.lt_irrefl _ (Content.size_lt_of_mem_descendants member)

theorem nested_self (e : Element) : e.Nested e := by
  have apart : ¬ e.position.toList ++ ['/'] <+: e.position.toList := by
    intro below
    have length := below.length_le
    simp at length
  exact ⟨iff_of_false apart e.not_mem_descendants, iff_of_false apart e.not_mem_descendants⟩

theorem nested_inside {steps : List Char} (member : b ∈ a.descendants)
    (place : b.position.toList = a.position.toList ++ '/' :: steps) : a.position ≠ b.position ∧ a.Nested b := by
  have longer : a.position.toList.length < b.position.toList.length := by simp [place]
  refine ⟨?_, iff_of_true ⟨steps, by simp [place]⟩ member, iff_of_false ?_ ?_⟩
  · intro same
    rw [same] at longer
    exact Nat.lt_irrefl _ longer
  · intro below
    have length := below.length_le
    simp only [List.length_append] at length
    omega
  · intro member'
    exact b.not_mem_descendants (Content.descendants_subset member' member)

theorem nested_apart (parts : Parts a.position.toList b.position.toList) (outside : b ∉ a.descendants)
    (outside' : a ∉ b.descendants) : a.position ≠ b.position ∧ a.Nested b :=
  ⟨fun same => parts.ne (congrArg String.toList same), iff_of_false parts.not_below outside,
    iff_of_false parts.symm.not_below outside'⟩

theorem descendants_subset_of_mem (member : a ∈ e :: e.descendants) : a.descendants ⊆ e.descendants := by
  rcases List.mem_cons.mp member with rfl | inside
  · exact List.Subset.refl _
  · exact Content.descendants_subset inside

theorem position_placed (slashless : ∀ x ∈ e.descendants, '/' ∉ x.tag.toList)
    (member : a ∈ e.placed here :: (e.placed here).descendants) :
    ∃ path, IsDescent path ∧ a.position.toList = here.toList ++ path := by
  rcases List.mem_cons.mp member with rfl | inside
  · exact ⟨[], .inl rfl, (List.append_nil _).symm⟩
  · obtain ⟨tag, number, path, -, -, -, place⟩ := Content.position_below slashless inside
    exact ⟨_, .inr ⟨_, rfl⟩, place.trans (List.append_assoc _ _ _)⟩

theorem placed_nested (slashless : ∀ x ∈ e.descendants, '/' ∉ x.tag.toList)
    (inside : (e.placed here).descendants.Pairwise fun a b => a.position ≠ b.position ∧ a.Nested b) :
    (e.placed here :: (e.placed here).descendants).Pairwise fun a b => a.position ≠ b.position ∧ a.Nested b := by
  refine List.pairwise_cons.mpr ⟨?_, inside⟩
  intro b member
  obtain ⟨tag, number, path, -, -, -, place⟩ := Content.position_below slashless member
  exact nested_inside member (place.trans (List.append_assoc _ _ _))

end Element

namespace Content

-- A child and all in it is parted from what its later siblings hold, since their numbers were given out after its own.
theorem parts_of_later {parent : String} {earlier : List String} {child a b : Element} {rest : Content}
    (plain : '/' ∉ child.tag.toList) (inside : ∀ e ∈ child.descendants, '/' ∉ e.tag.toList)
    (later : ∀ e ∈ rest.descendants, '/' ∉ e.tag.toList)
    (first : a ∈ child.placed (childPosition parent child.tag (earlier.count child.tag + 1)) ::
      (child.placed (childPosition parent child.tag (earlier.count child.tag + 1))).descendants)
    (second : b ∈ (rest.positioned parent (child.tag :: earlier)).descendants) :
    Parts a.position.toList b.position.toList := by
  obtain ⟨path, descends, place⟩ := Element.position_placed inside first
  obtain ⟨tag', number, path', plain', unused, descends', place'⟩ := position_below later second
  rw [toList_childPosition] at place
  refine ⟨_, _, _, path, path', slash_not_mem_component plain _, slash_not_mem_component plain' _, ?_, descends,
    descends', place, place'⟩
  intro same
  obtain ⟨rfl, rfl⟩ := component_inj same
  simp at unused

theorem positioned_nested (c : Content) (slashless : ∀ e ∈ c.descendants, '/' ∉ e.tag.toList) (parent : String)
    (earlier : List String) :
    (c.positioned parent earlier).descendants.Pairwise fun a b => a.position ≠ b.position ∧ a.Nested b := by
  induction c generalizing parent earlier with
  | nil => exact .nil
  | text run rest ih => exact ih slashless parent earlier
  | element tag attributes position line inner rest within after =>
    let child : Element := ⟨tag, attributes, position, line, inner⟩
    let here := childPosition parent tag (earlier.count tag + 1)
    have plain : '/' ∉ child.tag.toList := slashless child (by simp [child, descendants])
    have inside : ∀ e ∈ child.descendants, '/' ∉ e.tag.toList :=
      fun e member => slashless e (by simp [descendants, show e ∈ inner.descendants from member])
    have later : ∀ e ∈ rest.descendants, '/' ∉ e.tag.toList := fun e member => slashless e (by simp [descendants, member])
    change ((child.placed here :: (child.placed here).descendants) ++
      (rest.positioned parent (tag :: earlier)).descendants).Pairwise _
    refine List.pairwise_append.mpr ⟨Element.placed_nested inside (within inside here []), after later parent _, ?_⟩
    intro a first b second
    -- whatever is inside the one comes with it, and so is parted from the other
    have apart : ∀ x ∈ child.placed here :: (child.placed here).descendants,
        ∀ y ∈ (rest.positioned parent (tag :: earlier)).descendants, Parts x.position.toList y.position.toList :=
      fun x first y second => parts_of_later plain inside later first second
    refine Element.nested_apart (apart a first b second) ?_ ?_
    · intro member
      exact (apart b (List.mem_cons_of_mem _ (Element.descendants_subset_of_mem first member)) b second).ne rfl
    · intro member
      exact (apart a first a (descendants_subset second member)).ne rfl

end Content

-- Positions identify elements: where no tag holds a slash, no two elements of a tree have one position, and an element
-- is inside another just if its position goes on, after a slash, from that of the other.
theorem Element.positions_tell_nesting {e : Element} (slashless : ∀ x ∈ e :: e.descendants, '/' ∉ x.tag.toList) :
    (e.positioned.position :: e.positioned.content.positions).Nodup ∧
      ∀ a ∈ e.positioned :: e.positioned.descendants, ∀ b ∈ e.positioned :: e.positioned.descendants,
        (a.position ++ "/").toList <+: b.position.toList ↔ b ∈ a.descendants := by
  have inside : ∀ x ∈ e.descendants, '/' ∉ x.tag.toList := fun x member => slashless x (List.mem_cons_of_mem _ member)
  have all : (e.positioned :: e.positioned.descendants).Pairwise fun a b => a.position ≠ b.position ∧ a.Nested b :=
    placed_nested inside (Content.positioned_nested e.content inside _ [])
  refine ⟨List.pairwise_map.mpr (all.imp And.left), ?_⟩
  intro a first b second
  have nested := (all.imp And.right).forall_of_forall (fun x _ => x.nested_self) first second
  simpa using nested.1

-- A tree with brackets and digits in its tags.
def bracketed : Element where
  tag := "unit"
  content := .element "class" [] "" 1 (.element "name" [] "" 1 .nil .nil)
    (.text " " (.element "class[1]" [] "" 2 .nil (.element "class" [] "" 3 (.element "name" [] "" 3 .nil .nil) .nil)))

theorem bracketed_positions_tell_nesting :
    (∀ x ∈ bracketed :: bracketed.descendants, '/' ∉ x.tag.toList) ∧
      (bracketed.positioned.position :: bracketed.positioned.content.positions).Nodup ∧
      ∀ a ∈ bracketed.positioned :: bracketed.positioned.descendants,
        ∀ b ∈ bracketed.positioned :: bracketed.positioned.descendants,
          (a.position ++ "/").toList <+: b.position.toList ↔ b ∈ a.descendants := by
  have slashless : ∀ x ∈ bracketed :: bracketed.descendants, '/' ∉ x.tag.toList := by decide +kernel
  exact ⟨slashless, Element.positions_tell_nesting slashless⟩

end ScopeAtlas
