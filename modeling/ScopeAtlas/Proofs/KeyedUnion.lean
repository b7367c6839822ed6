import ScopeAtlas.Proofs.Paths

namespace ScopeAtlas

namespace Graph

def Sees (g : Graph) (file : String) : Prop := ∃ x s, g.get? x = some s ∧ s.isIn file = true

theorem surveyed_isIn {p : Profile} {e : Element} {g : Graph} {x : ScopeId} {s : Scope} (surveyed : surveyUnit p e = .ok g)
    (found : g.get? x = some s) (file : String) : s.isIn file = true ↔ file = e.fileName := by
  obtain ⟨seen, s, f, -, -, grown, picture⟩ := surveyUnit_grown surveyed
  obtain ⟨base, nested, -⟩ := grown.stacks
  obtain ⟨entry, listed, -, rfl⟩ := picture.exists_entry found
  rcases Forest.mem_entries_tree.mp listed with rfl | deeper | none
  · exact base.2.1 file
  · obtain ⟨above, fits⟩ := nested.atEntry deeper
    exact fits.2.1 file
  · cases none

theorem surveyed_sees {p : Profile} {e : Element} {g : Graph} {file : String} (surveyed : surveyUnit p e = .ok g)
    (sees : g.Sees file) : file = e.fileName := by
  obtain ⟨x, s, found, inside⟩ := sees
  exact (surveyed_isIn surveyed found file).mp inside

theorem surveyed_apart {p p' : Profile} {e e' : Element} {a b : Graph} (first : surveyUnit p e = .ok a)
    (second : surveyUnit p' e' = .ok b) (differ : e.fileName ≠ e'.fileName) : ∀ file, a.Sees file → ¬ b.Sees file :=
  fun _ here there => differ ((surveyed_sees first here).symm.trans (surveyed_sees second there))

def HasPath (g : Graph) (path : List Key) : Prop := ∃ x, g.contains x = true ∧ g.keyPath x = path

-- The graph `m` holds what `a` and `b` hold, each path once. The scopes of `a` keep their ids, and `moved` gives the ids
-- that the scopes of `b` have in `m`.
structure KeyedUnion (a b m : Graph) (moved : ScopeId → ScopeId) : Prop where
  paths : ∀ path, m.HasPath path ↔ a.HasPath path ∨ b.HasPath path
  once : ∀ x y, m.contains x = true → m.contains y = true → m.keyPath x = m.keyPath y → x = y
  keptLeft : ∀ x, a.contains x = true → m.contains x = true ∧ m.keyPath x = a.keyPath x
  keptRight : ∀ y, b.contains y = true → m.contains (moved y) = true ∧ m.keyPath (moved y) = b.keyPath y
  both : ∀ x y s t, a.get? x = some s → b.get? y = some t → a.keyPath x = b.keyPath y →
    ∃ u, m.get? x = some u ∧ s.Combines (t.rebind moved) u
  left : ∀ x s, a.get? x = some s → ¬ b.HasPath (a.keyPath x) → m.get? x = some s
  right : ∀ y t, b.get? y = some t → ¬ a.HasPath (b.keyPath y) → m.get? (moved y) = some (t.rebind moved)

variable {strict : Prop} {a b g m : Graph} {f h : Forest} {path : List Key} {x y : ScopeId} {s t : Scope} {below under : Forest}

theorem AtRest.hasPath (rest : g.AtRest strict f) : g.HasPath path ↔ f.at? path ≠ none := by
  constructor
  · rintro ⟨x, live, rfl⟩
    obtain ⟨s, found⟩ := contains_iff.mp live
    obtain ⟨t, below, there⟩ := rest.at?_keyPath found
    rw [there]
    nofun
  · intro present
    obtain ⟨⟨x, s, below⟩, found⟩ := Option.ne_none_iff_exists'.mp present
    obtain ⟨here, same⟩ := rest.of_at? found
    exact ⟨x, contains_of_get? here, same⟩

theorem AtRest.once (rest : g.AtRest strict f) (live : g.contains x = true) (live' : g.contains y = true)
    (same : g.keyPath x = g.keyPath y) : x = y := by
  obtain ⟨s, found⟩ := contains_iff.mp live
  obtain ⟨t, found'⟩ := contains_iff.mp live'
  obtain ⟨_, _, here⟩ := rest.at?_keyPath found
  obtain ⟨_, _, there⟩ := rest.at?_keyPath found'
  rw [same, there] at here
  exact (Prod.mk.inj (Option.some.inj here)).1.symm

section Merging

variable (left : a.AtRest strict f) (right : b.AtRest strict h)

include left right

theorem AtRest.at?_merged (path : List Key) :
    (f.merged a.size h).at? path =
      (Forest.unites (f.at? path) ((h.at? path).map fun found =>
        (found.1 + a.size, found.2.1.rebind (· + a.size), found.2.2.shift a.size))).map fun found =>
          (found.1, found.2.1.rebind (f.retired (h.shift a.size)).survivor,
            found.2.2.mapScopes (·.rebind (f.retired (h.shift a.size)).survivor)) := by
  have united := Forest.at?_absorb (fun sound => sound) Scope.joins_sound (left.rooted.sound .global)
    (((Forest.relabels_shift a.size).rooted right.rooted).sound .global) ((Forest.relabels_shift a.size).distinct right.distinct) path
  rw [Forest.merged, (Forest.relabels_rebind _).at?, united, (Forest.relabels_shift a.size).at?]
  rfl

theorem AtRest.merged_left (found : f.at? path = some (x, s, below)) :
    ((f.merged a.size h).at? path).map (·.1) = some x := by
  rw [left.at?_merged right, found]
  cases h.at? path <;> rfl

theorem AtRest.merged_right (found : h.at? path = some (y, t, below)) :
    ((f.merged a.size h).at? path).map (·.1) = some (f.movedTo a.size h y) := by
  obtain ⟨fixed, respects⟩ := left.respects right
  have shifted : (h.shift a.size).at? path = some (y + a.size, t.rebind (· + a.size), below.shift a.size) := by
    rw [(Forest.relabels_shift a.size).at?, found]
    rfl
  have merged := left.at?_merged right path
  rw [found] at merged
  cases here : f.at? path with
  | some found' =>
    obtain ⟨x, s, under⟩ := found'
    have gone := Forest.at?_retired (fun sound => sound) Scope.joins_sound (left.rooted.sound .global)
      (((Forest.relabels_shift a.size).rooted right.rooted).sound .global)
      ((Forest.relabels_shift a.size).distinct right.distinct) here shifted
    rw [left.merged_left right here, Forest.movedTo, respects _ gone]
  | none =>
    rw [here] at merged
    have kept := Forest.mem_ids_of_at? merged
    rw [Forest.merged, Forest.ids_mapScopes] at kept
    rw [Forest.movedTo, fixed _ kept, merged]
    rfl

theorem AtRest.parent_left (found : f.at? path = some (x, s, below)) :
    ((f.merged a.size h).at? path.dropLast).map (·.1) = (f.at? path.dropLast).map (·.1) := by
  rcases Forest.at?_dropLast found with top | ⟨⟨p, s', under⟩, above⟩
  · rw [top]
    rfl
  · rw [left.merged_left right above, above]
    rfl

theorem AtRest.parent_right (found : h.at? path = some (y, t, below)) :
    ((f.merged a.size h).at? path.dropLast).map (·.1) = ((h.at? path.dropLast).map (·.1)).map (f.movedTo a.size h) := by
  rcases Forest.at?_dropLast found with top | ⟨⟨p, s', under⟩, above⟩
  · rw [top]
    rfl
  · rw [left.merged_right right above, above]
    rfl

theorem AtRest.rebind_entry {entry : Forest.Entry} (listed : entry ∈ f.entries none) (parent : Option ScopeId)
    (children : List ScopeId) :
    (entry.scope.rebind (f.retired (h.shift a.size)).survivor).linked parent children =
      entry.scope.linked parent children := by
  obtain ⟨fixed, -⟩ := left.respects right
  have still : ∀ upper ∈ f.entries none, (f.retired (h.shift a.size)).survivor upper.id = upper.id := by
    intro upper member
    refine fixed _ (f.mem_absorb_ids (h.shift a.size) ?_)
    rw [← @Forest.ids_entries f none]
    exact List.mem_map_of_mem member
  refine (left.owned.atEntry listed).fixed ?_ ?_ parent children
  · rintro z rfl
    exact still entry listed
  · intro z above
    rcases Forest.entries_above listed with ⟨-, top⟩ | ⟨upper, member, lower, -⟩
    · rw [top] at above
      cases above
    · rw [lower] at above
      cases above
      exact still upper member

theorem AtRest.rebind_left (found : f.at? path = some (x, s, below)) (parent : Option ScopeId) (children : List ScopeId) :
    (s.rebind (f.retired (h.shift a.size)).survivor).linked parent children = s.linked parent children :=
  left.rebind_entry right (Forest.mem_entries_of_at? found) parent children

variable (merged : m.AtRest strict (f.merged a.size h))

include merged

theorem AtRest.get?_left (found : f.at? path = some (x, s, below)) (absent : h.at? path = none) :
    m.get? x = some (s.linked ((f.at? path.dropLast).map (·.1)) below.roots) := by
  have place := left.at?_merged right path
  rw [found, absent] at place
  obtain ⟨here, -⟩ := merged.of_at? place
  rw [here, left.parent_left right found, Forest.roots_mapScopes, left.rebind_left right found]

theorem AtRest.get?_right (found : h.at? path = some (y, t, below)) (absent : f.at? path = none) :
    m.get? (f.movedTo a.size h y) =
      some ((t.linked ((h.at? path.dropLast).map (·.1)) below.roots).rebind (f.movedTo a.size h)) := by
  obtain ⟨fixed, -⟩ := left.respects right
  have place := left.at?_merged right path
  rw [found, absent] at place
  -- what is below moves as it is, since none of it is retired
  have still : ∀ z ∈ below.ids, z + a.size = f.movedTo a.size h z := by
    intro z member
    have sub := Forest.entry_ids_sublist (@Forest.mem_entries_of_at? _ none _ _ _ _ place)
    have kept : z + a.size ∈ (f.merged a.size h).ids := sub.subset (by simp [member])
    rw [Forest.merged, Forest.ids_mapScopes] at kept
    exact (fixed _ kept).symm
  have children : below.roots.map (· + a.size) = below.roots.map (f.movedTo a.size h) :=
    List.map_congr_left fun z member => still z (below.mem_ids_of_mem_roots member)
  have moved := left.merged_right right found
  rw [place] at moved
  have same : y + a.size = f.movedTo a.size h y := Option.some.inj moved
  obtain ⟨here, -⟩ := merged.of_at? place
  rw [← same, here, left.parent_right right found, Forest.roots_mapScopes, Forest.roots_shift, Scope.rebind_rebind,
    children, Scope.linked_rebind]
  rfl

theorem AtRest.get?_both (found : f.at? path = some (x, s, below)) (found' : h.at? path = some (y, t, under)) :
    ∃ parent children, m.get? x = some (((s.rebind (f.retired (h.shift a.size)).survivor).unite
      (t.rebind (f.movedTo a.size h))).linked parent children) := by
  have place := left.at?_merged right path
  rw [found, found'] at place
  obtain ⟨here, -⟩ := merged.of_at? place
  rw [Scope.rebind_unite, Scope.rebind_rebind] at here
  exact ⟨_, _, here⟩

end Merging

theorem AtRest.sound_of_at? (rest : g.AtRest strict f) (found : f.at? path = some (x, s, below)) :
    s.Sound ∧ (strict → s.Tidy) ∧ (s.isGlobal = true ∨ s.locations ≠ []) := by
  have listed := @Forest.mem_entries_of_at? f none path x s below found
  cases rest.rooted with
  | intro isRoot tidy nested =>
    rcases Forest.mem_entries_tree.mp listed with same | deeper | none
    · obtain ⟨-, -, rfl, -⟩ := Forest.Entry.mk.inj same
      exact ⟨isRoot.sound, tidy, Or.inl (by simp [Scope.isGlobal, isRoot.global])⟩
    · obtain ⟨above, fits⟩ := nested.atEntry deeper
      exact ⟨fits.1.sound, fits.2, Or.inr fits.1.within.1⟩
    · cases none

theorem AtRest.meet (left : a.AtRest strict f) (right : b.AtRest strict h) (apart : ∀ file, a.Sees file → ¬ b.Sees file)
    (here : f.at? path = some (x, s, below)) (there : h.at? path = some (y, t, under)) : s.Apart t ∧ s.key = t.key := by
  refine ⟨?_, ?_⟩
  · intro file seen seen'
    exact apart file ⟨_, _, (left.of_at? here).1, seen⟩ ⟨_, _, (right.of_at? there).1, seen'⟩
  · have last := Forest.key_of_at? here
    rw [Forest.key_of_at? there] at last
    exact (Option.some.inj last).symm

end Graph

theorem Scope.isGlobal_of_key {s t : Scope} (same : s.key = t.key) : s.isGlobal = t.isGlobal := by
  unfold Scope.key at same
  unfold Scope.isGlobal
  cases here : s.kind <;> cases there : t.kind <;> simp_all

theorem Scope.Apart.combines_rebind {mine theirs : Scope} (apart : mine.Apart theirs) (left : mine.Sound)
    (right : theirs.Sound) (tidy : theirs.Tidy) (same : mine.key = theirs.key)
    (seen : mine.isGlobal = true ∨ mine.locations ≠ [] ∧ theirs.locations ≠ []) (f h : ScopeId → ScopeId) :
    (mine.rebind f).Combines (theirs.rebind h) ((mine.rebind f).unite (theirs.rebind h)) := by
  have apart' : (mine.rebind f).Apart (theirs.rebind h) := apart
  have same' : (mine.rebind f).key = (theirs.rebind h).key := by rw [key_rebind, key_rebind, same]
  have seen' : (mine.rebind f).isGlobal = true ∨ (mine.rebind f).locations ≠ [] ∧ (theirs.rebind h).locations ≠ [] := by
    rw [isGlobal_of_key (key_rebind f)]
    exact seen
  exact apart'.combines (left.rebind f) (right.rebind h) (tidy.rebind h) same' seen'

theorem Scope.Combines.linked {mine theirs united : Scope} (combines : mine.Combines theirs united)
    (p p' p'' : Option ScopeId) (c c' c'' : List ScopeId) :
    (mine.linked p c).Combines (theirs.linked p' c') (united.linked p'' c'') :=
  ⟨combines.locations, combines.declared, combines.calls, combines.parameters, combines.type⟩

namespace Graph

variable {a b m : Graph} {f h : Forest}

theorem AtRest.keyedUnion (left : a.AtRest True f) (right : b.AtRest True h) (merged : m.AtRest True (f.merged a.size h))
    (apart : ∀ file, a.Sees file → ¬ b.Sees file) : a.KeyedUnion b m (f.movedTo a.size h) where
  -- The forests say where a path leads; the graphs agree with them at every path of keys.
  paths path := by
    rw [left.hasPath, right.hasPath, merged.hasPath, left.at?_merged right]
    cases f.at? path <;> cases h.at? path <;> simp [Forest.unites]
  once x y := merged.once
  keptLeft x live := by
    obtain ⟨s, found⟩ := contains_iff.mp live
    obtain ⟨_, _, place⟩ := left.at?_keyPath found
    obtain ⟨⟨x', s', below⟩, place', same⟩ := Option.map_eq_some_iff.mp (left.merged_left right place)
    obtain rfl : x' = x := same
    obtain ⟨here, path⟩ := merged.of_at? place'
    exact ⟨contains_of_get? here, path⟩
  keptRight y live := by
    obtain ⟨s, found⟩ := contains_iff.mp live
    obtain ⟨_, _, place⟩ := right.at?_keyPath found
    obtain ⟨⟨x', s', below⟩, place', same⟩ := Option.map_eq_some_iff.mp (left.merged_right right place)
    obtain rfl : x' = f.movedTo a.size h y := same
    obtain ⟨here, path⟩ := merged.of_at? place'
    exact ⟨contains_of_get? here, path⟩
  both x y s t found found' same := by
    obtain ⟨s', below, place⟩ := left.at?_keyPath found
    obtain ⟨t', under, place'⟩ := right.at?_keyPath found'
    rw [← same] at place'
    obtain ⟨here, -⟩ := left.of_at? place
    obtain ⟨there, -⟩ := right.of_at? place'
    rw [found, ← left.rebind_left right place] at here
    rw [found'] at there
    obtain ⟨sound, -, seen⟩ := left.sound_of_at? place
    obtain ⟨sound', tidy', seen'⟩ := right.sound_of_at? place'
    have key : s'.key = t'.key := by
      have last := Forest.key_of_at? place
      rw [Forest.key_of_at? place'] at last
      exact (Option.some.inj last).symm
    have far : s'.Apart t' := by
      intro file first second
      exact apart file ⟨x, s, found, Option.some.inj here ▸ first⟩ ⟨y, t, found', Option.some.inj there ▸ second⟩
    obtain ⟨parent, children, united⟩ := left.get?_both right merged place place'
    refine ⟨_, united, ?_⟩
    rw [Option.some.inj here, Option.some.inj there, Scope.linked_rebind]
    -- Two global scopes need no place; any other scope of a graph at rest has one.
    have seenBoth : s'.isGlobal = true ∨ s'.locations ≠ [] ∧ t'.locations ≠ [] := by
      rcases seen with global | some
      · exact Or.inl global
      · exact seen'.imp (fun global => (Scope.isGlobal_of_key key).trans global) fun some' => ⟨some, some'⟩
    exact (far.combines_rebind sound sound' (tidy' trivial) key seenBoth _ _).linked _ _ _ _ _ _
  left x s found absent := by
    obtain ⟨s', below, place⟩ := left.at?_keyPath found
    obtain ⟨here, -⟩ := left.of_at? place
    rw [right.hasPath, not_not] at absent
    rw [left.get?_left right merged place absent, ← here, found]
  right y t found absent := by
    obtain ⟨t', below, place⟩ := right.at?_keyPath found
    obtain ⟨here, -⟩ := right.of_at? place
    rw [left.hasPath, not_not] at absent
    rw [found] at here
    rw [left.get?_right right merged place absent, Option.some.inj here]

-- Two graphs with no file in common, of units with distinct positions.
theorem merge_is_keyed_union (left : a.Reached Element.Distinct) (right : b.Reached Element.Distinct)
    (apart : ∀ file, a.Sees file → ¬ b.Sees file) : ∃ m moved, a.merge b = .ok m ∧ a.KeyedUnion b m moved := by
  obtain ⟨f, restLeft⟩ := left.atRest fun _ (_ : True) distinct => distinct
  obtain ⟨h, restRight⟩ := right.atRest fun _ (_ : True) distinct => distinct
  obtain ⟨m, done, rest⟩ := restLeft.merge restRight
  exact ⟨m, f.movedTo a.size h, done, restLeft.keyedUnion restRight rest apart⟩

theorem shapes_unite_by_keys :
    ∃ a b m moved, surveyUnit .cPlusPlus (shapeUnit "a.cpp" "x") = .ok a ∧
      surveyUnit .cPlusPlus (shapeUnit "b.cpp" "y") = .ok b ∧ a.merge b = .ok m ∧ a.KeyedUnion b m moved := by
  obtain ⟨a, b, surveyed, surveyed'⟩ := shapeUnit_surveyed
  have apart : ∀ file, a.Sees file → ¬ b.Sees file := by
    intro file here there
    have inA := surveyed_sees surveyed here
    have inB := surveyed_sees surveyed' there
    rw [shapeUnit_fileName] at inA inB
    exact absurd (inA.symm.trans inB) (by decide)
  obtain ⟨m, moved, merged, union⟩ := merge_is_keyed_union (.surveyed (shapeUnit_distinct _ _) surveyed)
    (.surveyed (shapeUnit_distinct _ _) surveyed') apart
  exact ⟨a, b, m, moved, surveyed, surveyed', merged, union⟩

end Graph

end ScopeAtlas
