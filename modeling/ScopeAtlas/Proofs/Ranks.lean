import ScopeAtlas.Proofs.Contributions

namespace ScopeAtlas

instance : Std.TransCmp Location.compare :=
  inferInstanceAs (Std.TransCmp (compareLex (compareOn Location.file) (compareLex (compareOn Location.position)
    (compareLex (compareOn Location.line) (compareOn Location.isReference)))))

instance : Std.LawfulEqCmp Location.compare where
  compare_self := Std.ReflCmp.compare_self
  eq_of_compare := by
    rintro ⟨file, position, line, isReference⟩ ⟨file', position', line', isReference'⟩ same
    simp only [Location.compare, Ordering.then_eq_eq, Std.LawfulEqOrd.compare_eq_iff_eq] at same
    simp [same]

theorem Location.min?_le {locations : List Location} {least l : Location} (first : Location.min? locations = some least)
    (member : l ∈ locations) : (least.compare l).isLE = true := by
  have refl : ∀ k : Location, (k.compare k).isLE = true := fun _ => Std.ReflCmp.isLE_rfl
  cases locations with
  | nil => cases first
  | cons k rest =>
    cases first
    induction rest generalizing k l with
    | nil =>
      rw [List.mem_singleton.mp member]
      exact refl k
    | cons next rest ih =>
      rw [List.foldl_cons]
      -- the better of the first two comes before both
      obtain ⟨better, chosen, before, before'⟩ : ∃ better, (if (next.compare k).isLT then next else k) = better ∧
          (better.compare k).isLE = true ∧ (better.compare next).isLE = true := by
        by_cases lower : (next.compare k).isLT = true
        · exact ⟨next, if_pos lower, by cases order : next.compare k <;> simp_all, refl next⟩
        · refine ⟨k, if_neg lower, refl k, ?_⟩
          rw [← Location.compare_swap]
          cases order : next.compare k <;> simp_all
      rw [chosen]
      rcases List.mem_cons.mp member with rfl | later
      · exact Std.TransCmp.isLE_trans (ih better List.mem_cons_self) before
      · rcases List.mem_cons.mp later with rfl | later
        · exact Std.TransCmp.isLE_trans (ih better List.mem_cons_self) before'
        · exact ih better (List.mem_cons_of_mem _ later)

namespace DefinitionRank

variable {locations locations' : List Location} {l : Location}

theorem compareFirst_eq (a b : Option Location) :
    compareFirst a b = @Ord.compare (Option Location) (@instOrdOption _ ⟨Location.compare⟩) a b := by
  cases a <;> cases b <;> rfl

instance : Std.TransCmp compareFirst := by
  let _ : Ord Location := ⟨Location.compare⟩
  have _ : Std.TransOrd Location := inferInstanceAs (Std.TransCmp Location.compare)
  have same : compareFirst = Ord.compare := by
    funext a b
    exact compareFirst_eq a b
  rw [same]
  infer_instance

theorem eq_of_compareFirst {a b : Option Location} (same : compareFirst a b = .eq) : a = b := by
  cases a with
  | none => cases b <;> cases same; rfl
  | some k =>
    cases b with
    | none => cases same
    | some l =>
      have equal : k.compare l = .eq := same
      exact congrArg some (Std.LawfulEqCmp.eq_of_compare equal)

instance : Std.TransCmp fun a b : DefinitionRank => compareFirst a.first b.first where
  eq_swap := Std.OrientedCmp.eq_swap
  isLE_trans := Std.TransCmp.isLE_trans

instance : Std.TransCmp compare :=
  inferInstanceAs (Std.TransCmp (compareLex (compareOn onlyReferences) (compareLex (compareOn nowhere)
    fun a b => compareFirst a.first b.first)))

instance : Std.LawfulEqCmp compare where
  compare_self := Std.ReflCmp.compare_self
  eq_of_compare := by
    rintro ⟨onlyReferences, nowhere, first⟩ ⟨onlyReferences', nowhere', first'⟩ same
    simp only [compare, Ordering.then_eq_eq, Std.LawfulEqOrd.compare_eq_iff_eq] at same
    rw [same.1, same.2.1, eq_of_compareFirst same.2.2]

def ofLocation (l : Location) : DefinitionRank := ⟨l.isReference, false, some l⟩

theorem ofLocations_cases (locations : List Location) :
    locations = [] ∨ ∃ l ∈ locations, ofLocations locations = ofLocation l := by
  unfold ofLocations
  cases definitions : Location.min? (locations.filter (!·.isReference)) with
  | some l =>
    obtain ⟨listed, defines⟩ := List.mem_filter.mp (Location.mem_of_min? definitions)
    exact Or.inr ⟨l, listed, by simpa [ofLocation] using defines⟩
  | none =>
    have references := List.filter_eq_nil_iff.mp (Location.min?_eq_none.mp definitions)
    cases least : Location.min? locations with
    | none => exact Or.inl (Location.min?_eq_none.mp least)
    | some l =>
      have listed := Location.mem_of_min? least
      have reference : l.isReference = true := by simpa using references l listed
      refine Or.inr ⟨l, listed, ?_⟩
      have some : locations.isEmpty = false := by simpa using List.ne_nil_of_mem listed
      rw [ofLocation, reference, some]

theorem ofLocations_le (member : l ∈ locations) : ((ofLocations locations).compare (ofLocation l)).isLE = true := by
  unfold ofLocations
  cases definitions : Location.min? (locations.filter (!·.isReference)) with
  | some least =>
    cases defines : l.isReference with
    | false =>
      have before := Location.min?_le definitions (List.mem_filter.mpr ⟨member, by simp [defines]⟩)
      simpa [compare, ofLocation, defines, compareFirst] using before
    | true => simp [compare, ofLocation, defines]; rfl
  | none =>
    have references := List.filter_eq_nil_iff.mp (Location.min?_eq_none.mp definitions)
    have reference : l.isReference = true := by simpa using references l member
    have some : locations.isEmpty = false := by simpa using List.ne_nil_of_mem member
    cases least : Location.min? locations with
    | none => exact absurd (Location.min?_eq_none.mp least) (List.ne_nil_of_mem member)
    | some first =>
      have before := Location.min?_le least member
      simpa [compare, ofLocation, reference, some, compareFirst] using before

theorem le_nowhere (locations : List Location) : ((ofLocations locations).compare (ofLocations [])).isLE = true := by
  rcases ofLocations_cases locations with none | ⟨l, -, same⟩
  · rw [none]
    rfl
  · rw [same]
    cases reference : l.isReference <;> simp [compare, ofLocation, reference, ofLocations, Location.min?] <;> rfl

-- More locations never make the rank worse.
theorem ofLocations_le_of_subset (sub : locations ⊆ locations') :
    ((ofLocations locations').compare (ofLocations locations)).isLE = true := by
  rcases ofLocations_cases locations with none | ⟨l, member, same⟩
  · rw [none]
    exact le_nowhere locations'
  · rw [same]
    exact ofLocations_le (sub member)

theorem ofLocations_append (locations locations' : List Location) :
    ofLocations (locations ++ locations') =
      if ((ofLocations locations').compare (ofLocations locations)).isLT then ofLocations locations'
      else ofLocations locations := by
  have left : ((ofLocations (locations ++ locations')).compare (ofLocations locations)).isLE = true :=
    ofLocations_le_of_subset (List.subset_append_left _ _)
  have right : ((ofLocations (locations ++ locations')).compare (ofLocations locations')).isLE = true :=
    ofLocations_le_of_subset (List.subset_append_right _ _)
  -- it is one of the two, since a single location decides it
  have either : ((ofLocations locations).compare (ofLocations (locations ++ locations'))).isLE = true ∨
      ((ofLocations locations').compare (ofLocations (locations ++ locations'))).isLE = true := by
    rcases ofLocations_cases (locations ++ locations') with none | ⟨l, member, same⟩
    · rw [none, (List.append_eq_nil_iff.mp none).1]
      exact Or.inl rfl
    · rw [same]
      exact (List.mem_append.mp member).imp ofLocations_le ofLocations_le
  have antisymm : ∀ a b : DefinitionRank, (a.compare b).isLE = true → (b.compare a).isLE = true → a = b :=
    fun _ _ before after => Std.LawfulEqCmp.eq_of_compare (Std.OrientedCmp.isLE_antisymm before after)
  rcases either with first | second
  · have same := antisymm _ _ left first
    rw [same] at right
    rw [if_neg, same]
    rw [← compare_swap]
    cases order : (ofLocations locations).compare (ofLocations locations') <;> simp_all
  · have same := antisymm _ _ right second
    rw [same] at left
    rw [same]
    split
    · rfl
    · refine antisymm _ _ left ?_
      rw [← compare_swap]
      cases order : (ofLocations locations').compare (ofLocations locations) <;> simp_all

end DefinitionRank

namespace Scope

variable {mine theirs s t u : Scope}

theorem yieldsTo_eq (s t : Scope) : s.yieldsTo t = (t.rank.compare s.rank).isLT := rfl

theorem not_yieldsTo_iff : s.yieldsTo t = false ↔ (s.rank.compare t.rank).isLE = true := by
  rw [yieldsTo_eq, ← DefinitionRank.compare_swap]
  cases s.rank.compare t.rank <;> simp

theorem yieldsTo_of_subset (sub : theirs.locations ⊆ mine.locations) : mine.yieldsTo theirs = false :=
  not_yieldsTo_iff.mpr (DefinitionRank.ofLocations_le_of_subset sub)

theorem not_yieldsTo_trans (first : s.yieldsTo t = false) (second : t.yieldsTo u = false) : s.yieldsTo u = false :=
  not_yieldsTo_iff.mpr (Std.TransCmp.isLE_trans (not_yieldsTo_iff.mp first) (not_yieldsTo_iff.mp second))

theorem yieldsTo_trans (first : s.yieldsTo t = true) (second : t.yieldsTo u = true) : s.yieldsTo u = true := by
  rw [yieldsTo_eq, Ordering.isLT_iff_eq_lt] at *
  exact Std.TransCmp.lt_trans second first

theorem Apart.rank_unite (apart : mine.Apart theirs) (right : theirs.Sound) :
    (mine.unite theirs).rank = if mine.yieldsTo theirs then theirs.rank else mine.rank := by
  rw [rank, apart.locations right, DefinitionRank.ofLocations_append]
  rfl

theorem Apart.unite_yieldsTo (apart : s.Apart t) (right : t.Sound) :
    (s.unite t).yieldsTo u = if s.yieldsTo t then t.yieldsTo u else s.yieldsTo u := by
  rw [yieldsTo_eq, apart.rank_unite right]
  split <;> rfl

theorem Apart.yieldsTo_unite (apart : t.Apart u) (right : u.Sound) :
    s.yieldsTo (t.unite u) = if t.yieldsTo u then s.yieldsTo u else s.yieldsTo t := by
  rw [yieldsTo_eq, apart.rank_unite right]
  split <;> rfl

end Scope

end ScopeAtlas
