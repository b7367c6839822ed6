import ScopeAtlas.Proofs.KeyedUnion

namespace ScopeAtlas

def someLeft? {α : Type} (left : List α) : Option (List α) := if left.isEmpty then none else some left

def Variable.left? (file : String) (v : Variable) : Option Variable :=
  (someLeft? (v.locations.filter (!·.isIn file))).map fun left => { v with locations := left }

def VariableTable.left (file : String) (table : VariableTable) : VariableTable :=
  table.filterMap fun (name, group) => (someLeft? (group.filterMap (·.left? file))).map fun left => (name, left)

-- A parent type without its places in a file, if it has another; its use stands at the first place left.
def ParentType.left? (file : String) (p : ParentType) : Option ParentType :=
  (someLeft? (p.locations.filter (!·.isIn file))).map fun left =>
    { use := { p.use with location := left.head? }, written := left }

def Parameter.left (file : String) (p : Parameter) : Parameter :=
  { p with locations := p.locations.filter (!·.isIn file) }

-- What a scope keeps: its place in the tree, those of its children that live on, and of each list the entries that are
-- not of the file. Variables and parent types without a place are gone, all else is as before.
structure Scope.KeepsWithout (file : String) (alive : ScopeId → Bool) (s s' : Scope) : Prop where
  parent : s'.parent = s.parent
  children : s'.children = s.children.filter alive
  locations : s'.locations = s.locations.filter (!·.isIn file)
  calls : s'.calls = s.calls.filter (!·.location.isIn file)
  declared : s'.declared = s.declared.left file
  types : ∀ t, s.kind = .type t → s'.kind = .type { t with parentColumns := .ofTable (t.parents.filterMap (·.left? file)) }
  methods : ∀ m, s.kind = .method m → s'.kind = .method { m with parameters := m.parameters.map (·.left file) }
  others : (∀ t, s.kind ≠ .type t) → (∀ m, s.kind ≠ .method m) → s'.kind = s.kind
  header : s'.name = s.name ∧ s'.access = s.access ∧ s'.language = s.language

theorem VariableTable.withdraw_eq_left (file : String) (table : VariableTable) :
    table.withdraw file = table.left file := by
  have groups : ∀ group : List Variable,
      (group.map fun v => { v with locations := v.locations.filter (!·.isIn file) }).filter (!·.locations.isEmpty) =
        group.filterMap (·.left? file) := by
    intro group
    rw [← List.filterMap_eq_filter, List.filterMap_map]
    refine List.filterMap_congr fun v _ => ?_
    rw [Function.comp_apply, Variable.left?, someLeft?, Option.guard]
    cases v.locations.filter (!·.isIn file) <;> rfl
  unfold withdraw left
  simp only [groups]
  rw [← List.filterMap_eq_filter, List.filterMap_map]
  refine List.filterMap_congr fun entry _ => ?_
  unfold someLeft? Option.guard
  cases same : entry.2.filterMap (·.left? file) <;> simp [same]

theorem ParentTable.withdraw_eq_left {seen : String → Prop} {table : ParentTable} (placed : ∀ p ∈ table, p.Placed seen)
    (file : String) : table.withdraw file = table.filterMap (·.left? file) := by
  refine List.filterMap_congr ?_
  intro p listed
  rw [withdrawOne_of_placed (placed p listed), ParentType.left?, (placed p listed).locations, someLeft?]
  cases p.written.filter (!·.isIn file) with
  | nil => rfl
  | cons l left => rfl

theorem Scope.Sound.keepsWithout {s : Scope} {file : String} (sound : s.Sound) {alive : ScopeId → Bool}
    {parent : Option ScopeId} {children children' : List ScopeId} (kept : children' = children.filter alive) :
    (s.linked parent children).KeepsWithout file alive ((s.withdraw file).linked parent children') where
  parent := rfl
  children := kept
  locations := rfl
  calls := rfl
  declared := s.declared.withdraw_eq_left file
  types t kind := by
    have kind : s.kind = .type t := kind
    have parents := ParentTable.withdraw_eq_left (sound.derived t kind) file
    change withdrawKind file s.kind = _
    rw [kind, withdrawKind, ParentColumns.withdraw_eq, ← parents]
    rfl
  methods m kind := by
    have kind : s.kind = .method m := kind
    change withdrawKind file s.kind = _
    rw [kind]
    rfl
  others noType noMethod := by
    change withdrawKind file s.kind = s.kind
    cases kind : s.kind with
    | block => rfl
    | space isGlobal => rfl
    | type t => exact absurd kind (noType t)
    | method m => exact absurd kind (noMethod m)
  header := ⟨rfl, rfl, rfl⟩

namespace Scope

variable {above s : Scope} {file : String}

theorem isOutside_iff : s.isOutside file = true ↔ ∃ l ∈ s.locations, l.file ≠ file := by
  simp [isOutside, Location.isIn]

theorem SeenWithin.isOutside (within : above.SeenWithin s) (outside : s.isOutside file = true) :
    above.isOutside file = true := by
  obtain ⟨l, member, other⟩ := isOutside_iff.mp outside
  obtain ⟨k, listed, same⟩ := isIn_iff.mp (within.2 l.file (isIn_iff.mpr ⟨l, member, rfl⟩))
  exact isOutside_iff.mpr ⟨k, listed, same ▸ other⟩

theorem isOutside_of_not_isOnlyIn (some : s.locations ≠ []) (elsewhere : ¬ s.isOnlyIn file = true) :
    s.isOutside file = true := by
  rw [isOnlyIn_iff] at elsewhere
  rw [isOutside_iff]
  by_contra none
  refine elsewhere ⟨some, fun l member => ?_⟩
  by_contra other
  exact none ⟨l, member, other⟩

end Scope

namespace Forest

variable {f : Forest} {above : Scope} {file : String} {parent : Option ScopeId} {entry : Entry}

theorem withdraw_tree {id : ScopeId} {s : Scope} {below rest : Forest}
    (nested : (tree id s below rest).Nests Scope.Fits above) :
    (tree id s below rest).withdraw file =
      if s.isOutside file then tree id (s.withdraw file) (below.withdraw file) (rest.withdraw file)
      else rest.withdraw file := by
  obtain ⟨fits, under, -⟩ := nested
  have within := under.imp fun _ _ fits => fits.within
  rw [withdraw]
  by_cases seen : s.isIn file = true
  · by_cases only : s.isOnlyIn file = true
    · simp only [seen, only, Scope.not_isOutside_of_isOnlyIn only, Bool.not_true, Bool.false_eq_true, if_false, if_true]
    · have outside := Scope.isOutside_of_not_isOnlyIn fits.within.1 only
      simp only [seen, only, outside, Bool.not_true, Bool.false_eq_true, if_false, if_true]
  · have unseen := Bool.eq_false_iff.mpr seen
    have outside : s.isOutside file = true := by
      refine Scope.isOutside_of_not_isOnlyIn fits.within.1 fun only => ?_
      exact seen (Scope.isIn_of_isOnlyIn only)
    simp only [unseen, outside, Bool.not_false, if_true, fits.sound.withdraw_eq_self unseen, withdraw_eq_self within unseen]

theorem Nests.isOutside (nested : f.Nests Scope.Fits above) (listed : entry ∈ f.entries parent)
    (outside : entry.scope.isOutside file = true) : above.isOutside file = true := by
  induction f generalizing above parent with
  | nil => cases listed
  | tree id s below rest inner outer =>
    obtain ⟨fits, under, beside⟩ := nested
    rcases mem_entries_tree.mp listed with rfl | deeper | later
    · exact fits.within.isOutside outside
    · exact fits.within.isOutside (inner under deeper)
    · exact outer beside later

theorem parent_of_below {x : ScopeId} (listed : entry ∈ f.entries (some x)) : entry.parent ≠ none := by
  intro top
  rcases entries_above listed with ⟨-, above⟩ | ⟨upper, -, above, -⟩ <;> rw [top] at above <;> cases above

theorem Nests.below {fits : Scope → Scope → Prop} (nested : f.Nests fits above) (listed : entry ∈ f.entries parent) :
    entry.below.Nests fits entry.scope := by
  induction f generalizing above parent with
  | nil => cases listed
  | tree id s below rest inner outer =>
    rcases mem_entries_tree.mp listed with rfl | deeper | later
    · exact nested.2.1
    · exact inner nested.2.1 deeper
    · exact outer nested.2.2 later

def Entry.withdraw (file : String) (entry : Entry) : Entry :=
  { entry with scope := entry.scope.withdraw file, below := entry.below.withdraw file }

theorem mem_entries_withdraw (nested : f.Nests Scope.Fits above) :
    entry ∈ (f.withdraw file).entries parent ↔
      ∃ old ∈ f.entries parent, old.scope.isOutside file = true ∧ entry = old.withdraw file := by
  induction f generalizing above parent with
  | nil => simp [withdraw, entries]
  | tree id s below rest inner outer =>
    have under := nested.2.1
    have beside := nested.2.2
    rw [withdraw_tree nested]
    simp only [mem_entries_tree, or_and_right, exists_or, exists_eq_left]
    by_cases outside : s.isOutside file = true
    · simp only [outside, if_true, true_and, mem_entries_tree, inner under, outer beside]
      rfl
    · have none : ¬ ∃ old ∈ below.entries (some id), old.scope.isOutside file = true ∧ entry = old.withdraw file := by
        rintro ⟨old, listed, lower, -⟩
        exact outside (under.isOutside listed lower)
      simp only [outside, Bool.false_eq_true, if_false, false_and, none, false_or, outer beside]

theorem Nests.withdraw_roots (nested : f.Nests Scope.Fits above) {alive : ScopeId → Bool}
    (same : ∀ entry ∈ f.entries parent, alive entry.id = entry.scope.isOutside file) :
    (f.withdraw file).roots = f.roots.filter alive := by
  induction f with
  | nil => rfl
  | tree id s below rest _ outer =>
    have here : alive id = s.isOutside file := same ⟨parent, id, s, below⟩ (mem_entries_tree.mpr (Or.inl rfl))
    have later := outer nested.2.2 fun entry listed => same entry (mem_entries_tree.mpr (Or.inr (Or.inr listed)))
    rw [withdraw_tree nested, roots_tree, List.filter_cons, here]
    split
    · rw [roots_tree, later]
    · exact later

section Rooted

variable {strict : Prop} {root : ScopeId}

theorem Rooted.atEntry (rooted : f.Rooted strict root) (listed : entry ∈ f.entries none) :
    entry.scope.Sound ∧ entry.below.Nests Scope.Fits entry.scope := by
  cases rooted with
  | intro isRoot tidy nested =>
    have fits := nested.imp fun _ _ fits => fits.1
    rcases mem_entries_tree.mp listed with rfl | deeper | none
    · exact ⟨isRoot.sound, fits⟩
    · obtain ⟨_, fit⟩ := fits.atEntry deeper
      exact ⟨fit.sound, fits.below deeper⟩
    · cases none

theorem Rooted.exists_root (rooted : f.Rooted strict root) :
    ∃ entry ∈ f.entries none, entry.parent = none ∧ entry.id = root := by
  cases rooted with
  | @intro s below isRoot tidy nested => exact ⟨⟨none, root, s, below⟩, mem_entries_tree.mpr (Or.inl rfl), rfl, rfl⟩

theorem Rooted.id_of_parent (rooted : f.Rooted strict root) (listed : entry ∈ f.entries none)
    (top : entry.parent = none) : entry.id = root := by
  cases rooted with
  | intro isRoot tidy nested =>
    rcases entries_above listed with ⟨first, -⟩ | ⟨upper, -, above, -⟩
    · exact List.mem_singleton.mp first
    · rw [top] at above
      cases above

theorem Rooted.mem_entries_withdrawBelow (rooted : f.Rooted strict root) :
    entry ∈ (f.withdrawBelow file).entries none ↔
      ∃ old ∈ f.entries none, (old.parent = none ∨ old.scope.isOutside file = true) ∧ entry = old.withdraw file := by
  cases rooted with
  | @intro s below isRoot tidy nested =>
    have fits := nested.imp fun _ _ fits => fits.1
    rw [withdrawBelow, withdrawBelow, mem_entries_tree, mem_entries_withdraw fits]
    constructor
    · rintro (rfl | ⟨old, listed, outside, rfl⟩ | none)
      · exact ⟨⟨none, root, s, below⟩, mem_entries_tree.mpr (Or.inl rfl), Or.inl rfl, rfl⟩
      · exact ⟨old, mem_entries_tree.mpr (Or.inr (Or.inl listed)), Or.inr outside, rfl⟩
      · cases none
    · rintro ⟨old, listed, stays, rfl⟩
      rcases mem_entries_tree.mp listed with rfl | deeper | none
      · exact Or.inl rfl
      · exact Or.inr (Or.inl ⟨old, deeper, stays.resolve_left (parent_of_below deeper), rfl⟩)
      · cases none

end Rooted

end Forest

namespace Graph

-- The graphs that come about by surveying, merging and removing files, with no place sought for scopes cut loose.
inductive Edited : Graph → Prop
  | empty : Edited .empty
  | surveyed {p : Profile} {e : Element} {g : Graph} (done : surveyUnit p e = .ok g) : Edited g
  | merged {a b m : Graph} (left : Edited a) (right : Edited b) (done : a.merge b = .ok m) : Edited m
  | removed {g g' : Graph} {file : String} {loose : List ScopeId} (before : Edited g)
      (done : g.removeFile file = .ok (loose, g')) : Edited g'

-- What a file leaves of a graph: the root and the scopes known from elsewhere live on, each with what it keeps.
structure KeepsWithout (file : String) (g g' : Graph) : Prop where
  root : g'.root = g.root
  live : ∀ x, g'.contains x = true ↔ x = g.root ∨ ∃ s, g.get? x = some s ∧ s.isOutside file = true
  kept : ∀ x s', g'.get? x = some s' → ∃ s, g.get? x = some s ∧ s.KeepsWithout file g'.contains s'

variable {strict : Prop} {g : Graph} {f : Forest} {file : String}

theorem AtRest.removes (rest : g.AtRest strict f) (file : String) :
    ∃ g', g.removeFile file = .ok ([], g') ∧ g'.root = g.root ∧ g'.AtRest strict (f.withdrawBelow file) := by
  obtain ⟨g', withdrawn, root, rest'⟩ := rest.withdrawing file
  refine ⟨g', ?_, root, rest'⟩
  rw [Graph.removeFile, withdrawn]
  rfl

theorem Edited.atRest (edited : g.Edited) : ∃ f, g.AtRest False f := by
  induction edited with
  | empty => exact ⟨_, atRest_empty False⟩
  | surveyed done => exact atRest_surveyed False.elim done
  | merged _ _ done left right =>
    obtain ⟨f, left⟩ := left
    obtain ⟨h, right⟩ := right
    obtain ⟨m, merged, rest⟩ := left.merge right
    rw [merged] at done
    cases done
    exact ⟨_, rest⟩
  | removed _ done before =>
    obtain ⟨f, before⟩ := before
    obtain ⟨g', removed, -, rest⟩ := before.removes _
    rw [removed] at done
    cases done
    exact ⟨_, rest⟩

theorem AtRest.keepsWithout {g' : Graph} (rest : g.AtRest strict f) (rest' : g'.AtRest strict (f.withdrawBelow file))
    (root : g'.root = g.root) : g.KeepsWithout file g' := by
  have shown : ∀ entry ∈ f.entries none, g.get? entry.id = some (entry.scope.linked entry.parent entry.below.roots) :=
    fun _ listed => rest.picture.shows.atEntry listed
  have live : ∀ x, g'.contains x = true ↔
      ∃ old ∈ f.entries none, (old.parent = none ∨ old.scope.isOutside file = true) ∧ old.id = x := by
    intro x
    rw [← rest'.picture.mem_iff, ← @Forest.ids_entries _ none, List.mem_map]
    simp only [rest.rooted.mem_entries_withdrawBelow]
    constructor
    · rintro ⟨_, ⟨old, listed, stays, rfl⟩, same⟩
      exact ⟨old, listed, stays, same⟩
    · rintro ⟨old, listed, stays, same⟩
      exact ⟨_, ⟨old, listed, stays, rfl⟩, same⟩
  -- what stands below another scope lives on exactly if another file knows it
  have alive : ∀ entry ∈ f.entries none, entry.parent ≠ none → g'.contains entry.id = entry.scope.isOutside file := by
    intro entry listed lower
    rw [Bool.eq_iff_iff, live]
    constructor
    · rintro ⟨old, listed', stays, same⟩
      have equal := shown old listed'
      rw [same, shown entry listed] at equal
      have equal := Option.some.inj equal
      have parent : entry.parent = old.parent := congrArg Scope.parent equal
      have places := congrArg Scope.locations equal
      change entry.scope.locations = old.scope.locations at places
      rw [Scope.isOutside, places]
      exact stays.resolve_left (parent ▸ lower)
    · intro outside
      exact ⟨entry, listed, Or.inr outside, rfl⟩
  refine ⟨root, ?_, ?_⟩
  · intro x
    rw [live]
    constructor
    · rintro ⟨old, listed, top | outside, rfl⟩
      · exact Or.inl (rest.rooted.id_of_parent listed top)
      · exact Or.inr ⟨_, shown old listed, outside⟩
    · rintro (rfl | ⟨s, found, outside⟩)
      · obtain ⟨old, listed, top, same⟩ := rest.rooted.exists_root
        exact ⟨old, listed, Or.inl top, same⟩
      · obtain ⟨old, listed, rfl, rfl⟩ := rest.picture.exists_entry found
        exact ⟨old, listed, Or.inr outside, rfl⟩
  · intro x s' found
    obtain ⟨entry, listed, rfl, rfl⟩ := rest'.picture.exists_entry found
    obtain ⟨old, known, -, rfl⟩ := rest.rooted.mem_entries_withdrawBelow.mp listed
    obtain ⟨sound, nested⟩ := rest.rooted.atEntry known
    have lower : ∀ entry ∈ old.below.entries (some old.id), g'.contains entry.id = entry.scope.isOutside file :=
      fun entry under => alive entry (Forest.entries_below known under) (Forest.parent_of_below under)
    exact ⟨_, shown old known, sound.keepsWithout (nested.withdraw_roots lower)⟩

theorem removeFile_of_unseen {s : Scope} (live : g.get? g.root = some s) (unseen : s.isIn file = false) :
    g.removeFile file = .ok ([], g) := by
  have start : Change.need [g.root] { graph := g } = { graph := g } := by
    refine Change.need_of_live ?_
    intro x member
    rw [List.mem_singleton.mp member]
    exact contains_of_get? live
  have elsewhere : s.isOnlyIn file = false :=
    Bool.eq_false_iff.mpr fun only => by simp [Scope.isIn_of_isOnlyIn only] at unseen
  have stays : g.withdrawing file = ([], { graph := g }) := by
    unfold withdrawing
    rw [start, live]
    simp only [Option.any_some, elsewhere, Bool.false_eq_true, if_false, Change.withdrawFrom]
    cases size : g.size with
    | zero => rfl
    | succ depth => simp [Change.withdrawWithin, live, unseen]
  rw [removeFile, stays]
  rfl

-- Removing a file cuts nothing loose and leaves the graph without the file; a file that no scope was seen in changes
-- nothing.
theorem removeFile_retracts (edited : g.Edited) (file : String) :
    ∃ g', g.removeFile file = .ok ([], g') ∧ g.KeepsWithout file g' ∧ (¬ g.Sees file → g' = g) := by
  obtain ⟨f, rest⟩ := edited.atRest
  obtain ⟨g', removed, root, rest'⟩ := rest.removes file
  refine ⟨g', removed, rest.keepsWithout rest' root, ?_⟩
  intro absent
  obtain ⟨entry, listed, -, top⟩ := rest.rooted.exists_root
  have live := rest.picture.shows.atEntry listed
  rw [top] at live
  have unseen := Bool.eq_false_iff.mpr fun seen => absent ⟨_, _, live, seen⟩
  have same := removed.symm.trans (removeFile_of_unseen live unseen)
  exact (Prod.mk.inj (Except.ok.inj same)).2

theorem KeepsWithout.not_sees {g' : Graph} (keeps : g.KeepsWithout file g') : ¬ g'.Sees file := by
  rintro ⟨x, s', found, seen⟩
  obtain ⟨s, -, kept⟩ := keeps.kept x s' found
  obtain ⟨l, member, inside⟩ := Scope.isIn_iff.mp seen
  rw [kept.locations] at member
  have outside := (List.mem_filter.mp member).2
  simp [Location.isIn, inside] at outside

-- The file of one shape is removed from two, and removing it again changes nothing.
theorem shapes_retract :
    ∃ a b m g, surveyUnit .cPlusPlus (shapeUnit "a.cpp" "x") = .ok a ∧
      surveyUnit .cPlusPlus (shapeUnit "b.cpp" "y") = .ok b ∧ a.merge b = .ok m ∧
      m.removeFile "a.cpp" = .ok ([], g) ∧ m.KeepsWithout "a.cpp" g ∧ g.removeFile "a.cpp" = .ok ([], g) := by
  obtain ⟨a, b, surveyed, surveyed'⟩ := shapeUnit_surveyed
  have first : a.Edited := .surveyed surveyed
  have second : b.Edited := .surveyed surveyed'
  obtain ⟨f, rest⟩ := first.atRest
  obtain ⟨h, rest'⟩ := second.atRest
  obtain ⟨m, merged, -⟩ := rest.merge rest'
  have both : m.Edited := .merged first second merged
  obtain ⟨g, removed, keeps, -⟩ := removeFile_retracts both "a.cpp"
  obtain ⟨g', removed', -, same⟩ := removeFile_retracts (.removed both removed) "a.cpp"
  rw [same keeps.not_sees] at removed'
  exact ⟨a, b, m, g, surveyed, surveyed', merged, removed, keeps, removed'⟩

end Graph

end ScopeAtlas
