import ScopeAtlas.Proofs.Tangles

namespace ScopeAtlas

variable {α : Type}

theorem mem_of_filterM {f : α → Except Fault Bool} {l kept : List α} {a : α} (run : l.filterM f = .ok kept)
    (member : a ∈ kept) : a ∈ l ∧ f a = .ok true := by
  have collected : ∀ start, l.filterAuxM f start = .ok kept.reverse → a ∈ start ∨ a ∈ l ∧ f a = .ok true := by
    clear run
    induction l with
    | nil =>
      intro start run
      refine Or.inl ?_
      rw [Except.ok.inj run]
      exact List.mem_reverse.mpr member
    | cons b rest ih =>
      intro start run
      obtain ⟨keep, passed, run⟩ := ok_of_bind run
      rcases ih _ run with early | ⟨later, passed'⟩
      · cases keep with
        | false => exact Or.inl early
        | true =>
          rcases List.mem_cons.mp early with rfl | early
          · exact Or.inr ⟨List.mem_cons_self, passed⟩
          · exact Or.inl early
      · exact Or.inr ⟨List.mem_cons_of_mem _ later, passed'⟩
  obtain ⟨all, collects, same⟩ := ok_of_bind run
  cases same
  rcases collected [] (by rw [collects, List.reverse_reverse]) with absent | found
  · cases absent
  · exact found

theorem mem_searchEach {search : α → Except Fault (List ScopeId)} {places : List α} {found : List ScopeId} {x : ScopeId}
    (run : searchEach search places = .ok found) :
    x ∈ found ↔ ∃ place ∈ places, ∃ here, search place = .ok here ∧ x ∈ here := by
  constructor
  · have joined : ∀ start, places.foldlM (fun found place => return addNewIds found (← search place)) start = .ok found →
        x ∈ found → x ∈ start ∨ ∃ place ∈ places, ∃ here, search place = .ok here ∧ x ∈ here := by
      clear run
      induction places with
      | nil =>
        intro start run member
        cases run
        exact Or.inl member
      | cons place rest ih =>
        intro start run member
        rw [List.foldlM_cons] at run
        obtain ⟨next, first, later⟩ := ok_of_bind run
        obtain ⟨here, searched, same⟩ := ok_of_bind first
        cases same
        rcases ih _ later member with early | ⟨place', listed, found'⟩
        · rcases mem_addNewIds.mp early with old | new
          · exact Or.inl old
          · exact Or.inr ⟨place, List.mem_cons_self, here, searched, new⟩
        · exact Or.inr ⟨place', List.mem_cons_of_mem _ listed, found'⟩
    intro member
    exact (joined [] run member).resolve_left List.not_mem_nil
  · rintro ⟨place, listed, here, searched, inside⟩
    obtain ⟨here', searched', all⟩ := ok_of_searchEach run place listed
    rw [searched] at searched'
    cases searched'
    exact all inside

theorem allLive_of_searchEach {g : Graph} {search : α → Except Fault (List ScopeId)} {places : List α} {found : List ScopeId}
    (run : searchEach search places = .ok found) (each : ∀ place here, search place = .ok here → g.AllLive here) :
    g.AllLive found := by
  intro x member
  obtain ⟨place, -, here, searched, inside⟩ := (mem_searchEach run).mp member
  exact each place here searched x inside

namespace Graph

variable {g : Graph} {parents : Parents} {bound n : Nat} {t x : ScopeId} {found : List ScopeId}

-- A search looks at each scope before it lists it, so whatever the links of the graph are, it finds live scopes only.

theorem allLive_of_childrenWith {test : Scope → Bool} (run : g.childrenWith test x = .ok found) : g.AllLive found := by
  intro c member
  obtain ⟨-, passed⟩ := mem_of_filterM run member
  obtain ⟨s, here, -⟩ := ok_of_bind passed
  unfold scope at here
  cases slot : g.get? c with
  | none =>
    rw [slot] at here
    cases here
  | some s => exact contains_of_get? slot

theorem allLive_of_membersWith {category : Category} {name : String}
    (run : g.membersWith parents category name x = .ok found) : g.AllLive found := by
  obtain ⟨own, searched, run⟩ := ok_of_bind run
  have own := allLive_of_childrenWith searched
  obtain ⟨s, -, run⟩ := ok_of_bind run
  split at run
  · obtain ⟨lineage, -, run⟩ := ok_of_bind run
    obtain ⟨inherited, searched', same⟩ := ok_of_bind run
    cases same
    exact own.addNewIds (allLive_of_searchEach searched' fun _ _ => allLive_of_childrenWith)
  · cases run
    exact own

theorem allLive_of_candidatesWith {u : TypeUse} (run : u.candidatesWith parents g = .ok found) : g.AllLive found := by
  unfold TypeUse.candidatesWith at run
  split at run
  · cases run
    exact List.forall_mem_nil _
  split at run
  · obtain ⟨enclosing, searched, run⟩ := ok_of_bind run
    obtain ⟨imported, searched', same⟩ := ok_of_bind run
    cases same
    refine AllLive.addNewIds (allLive_of_searchEach searched fun _ _ => allLive_of_membersWith) ?_
    refine allLive_of_searchEach searched' fun i here run => ?_
    obtain ⟨scopes, -, run⟩ := ok_of_bind run
    exact allLive_of_searchEach run fun _ _ => allLive_of_childrenWith
  · obtain ⟨contexts, -, run⟩ := ok_of_bind run
    intro x member
    obtain ⟨listed, -⟩ := mem_of_filterM run member
    obtain ⟨s, here, -⟩ := (@mem_typesCalled g u.name x).mp listed
    exact contains_of_get? here

theorem allLive_of_parentsWithin (answer : g.parentsWithin n t = .ok found) : g.AllLive found := by
  cases n with
  | zero => cases answer
  | succ n =>
    rw [parentsWithin, parentsWith] at answer
    split at answer
    · cases answer
      exact List.forall_mem_nil _
    · obtain ⟨all, searched, same⟩ := ok_of_bind answer
      cases same
      refine AllLive.of_subset ?_ (List.filter_sublist.subset)
      exact allLive_of_searchEach searched fun _ _ => allLive_of_candidatesWith

theorem parentsWithin_of_size_le (outside : g.size ≤ t) (n : Nat) : g.parentsWithin (n + 1) t = .ok [] := by
  rw [parentsWithin, parentsWith, get?_eq_none_of_size_le outside]
  rfl

open Classical in
noncomputable def foundWithin (g : Graph) (n : Nat) : Finset ScopeId :=
  (Finset.range g.size).filter fun t => ∃ found, g.parentsWithin (n + 1) t = .ok found

theorem mem_foundWithin : t ∈ g.foundWithin n ↔ t < g.size ∧ ∃ found, g.parentsWithin (n + 1) t = .ok found := by
  simp [foundWithin]

theorem foundWithin_mono {m : Nat} (le : n ≤ m) : g.foundWithin n ⊆ g.foundWithin m := by
  intro t member
  obtain ⟨inside, found, answer⟩ := mem_foundWithin.mp member
  exact mem_foundWithin.mpr ⟨inside, found, parentsWithin_refines (Nat.succ_le_succ le) t found answer⟩

-- A step that finds nothing new is the last one that matters.
theorem foundWithin_steady (same : g.foundWithin n = g.foundWithin (n + 1)) :
    g.foundWithin (n + 1) = g.foundWithin (n + 2) := by
  have back : ∀ x, Refines (g.parentsWithin (n + 2) x) (g.parentsWithin (n + 1) x) := by
    intro x found answer
    by_cases inside : x < g.size
    · have member : x ∈ g.foundWithin n := by
        rw [same, mem_foundWithin]
        exact ⟨inside, found, answer⟩
      obtain ⟨-, found', answer'⟩ := mem_foundWithin.mp member
      rw [answer', parentsWithin_unique answer answer']
    · have outside := Nat.le_of_not_lt inside
      rwa [parentsWithin_of_size_le outside] at answer ⊢
  apply (foundWithin_mono (Nat.le_succ _)).antisymm
  intro t member
  obtain ⟨inside, found, answer⟩ := mem_foundWithin.mp member
  exact mem_foundWithin.mpr ⟨inside, found, parentsWith_refines back t found answer⟩

-- What any bound finds is found, in every graph: each step before the last finds the parents of one more scope.
theorem parents_eq_of_parentsWithin (answer : g.parentsWithin n t = .ok found) : g.parents t = .ok found := by
  by_cases inside : t < g.size
  · have few : ∀ m, (g.foundWithin m).card ≤ g.size := by
      intro m
      have below : g.foundWithin m ⊆ Finset.range g.size := fun x member =>
        Finset.mem_range.mpr (mem_foundWithin.mp member).1
      exact (Finset.card_le_card below).trans (Finset.card_range g.size).le
    have steady : (g.foundWithin (max n g.size)).card = (g.foundWithin g.size).card := by
      refine Nat.stabilises_of_monotone (f := fun m => (g.foundWithin m).card) ?_ few ?_ (Nat.le_max_right _ _)
      · exact fun _ _ le => Finset.card_le_card (foundWithin_mono le)
      · intro m same
        have same := Finset.eq_of_subset_of_card_le (foundWithin_mono (Nat.le_succ m)) same.ge
        exact congrArg Finset.card (foundWithin_steady same)
    have all := Finset.eq_of_subset_of_card_le (foundWithin_mono (Nat.le_max_right n g.size)) steady.le
    have late := parentsWithin_refines (Nat.le_succ_of_le (Nat.le_max_left n g.size)) t found answer
    have member : t ∈ g.foundWithin g.size := by
      rw [all, mem_foundWithin]
      exact ⟨inside, found, late⟩
    obtain ⟨-, found', answer'⟩ := mem_foundWithin.mp member
    rw [parents, answer', parentsWithin_unique answer answer']
  · have outside := parentsWithin_of_size_le (Nat.le_of_not_lt inside) g.size
    rw [parents, outside, parentsWithin_unique answer outside]

-- The recursive walk: a scope that was not seen is listed, and then each of its parents is walked in turn. `depth`
-- bounds how far the recursion goes.
def visitWithin (parents : Parents) : (depth : Nat) → (seen : List ScopeId) → ScopeId → Except Fault (List ScopeId)
  | 0, _, _ => .error .unbounded
  | depth + 1, seen, id =>
    if seen.contains id then .ok seen else do (← parents id).foldlM (visitWithin parents depth) (seen ++ [id])

variable {ahead rest done : List ScopeId}

theorem climbWithin_cons_of_mem (walked : x ∈ done) :
    climbWithin parents bound (x :: rest) done = climbWithin parents bound rest done := by
  have known : done.contains x = true := List.contains_iff_mem.mpr walked
  cases bound with
  | zero => simp [climbWithin, walked]
  | succ bound => rw [climbWithin, climbWithin, List.dropWhile_cons_of_pos known]

theorem climbWithin_cons_of_not_mem (fresh : x ∉ done) (climbed : climbWithin parents bound (x :: rest) done = .ok found) :
    ∃ smaller above, bound = smaller + 1 ∧ parents x = .ok above ∧
      climbWithin parents smaller (above ++ rest) (done ++ [x]) = .ok found := by
  have unknown : ¬ done.contains x = true := fun known => fresh (List.contains_iff_mem.mp known)
  cases bound with
  | zero => simp [climbWithin, fresh] at climbed
  | succ smaller =>
    rw [climbWithin, List.dropWhile_cons_of_neg unknown] at climbed
    obtain ⟨above, answer, further⟩ := ok_of_bind climbed
    exact ⟨smaller, above, rfl, answer, further⟩

-- The stack of the climb holds what the recursive walk still has to come back to: what lies on top is walked to the end
-- before the rest is touched. The induction is on the bound, and below it on what lies on top.
theorem climbWithin_visits (climbed : climbWithin parents bound (ahead ++ rest) done = .ok found) :
    ∃ seen smaller, smaller ≤ bound ∧ climbWithin parents smaller rest seen = .ok found ∧
      ∀ depth, bound < depth → ahead.foldlM (visitWithin parents depth) done = .ok seen := by
  induction bound using Nat.strong_induction_on generalizing ahead rest done with
  | _ bound lower =>
    induction ahead generalizing done with
    | nil => exact ⟨done, bound, Nat.le_refl _, climbed, fun _ _ => rfl⟩
    | cons x ahead later =>
      rw [List.cons_append] at climbed
      by_cases walked : x ∈ done
      · rw [climbWithin_cons_of_mem walked] at climbed
        obtain ⟨seen, smaller, le, further, visited⟩ := later climbed
        refine ⟨seen, smaller, le, further, fun depth deep => ?_⟩
        obtain ⟨depth, rfl⟩ := Nat.exists_eq_add_one_of_ne_zero (Nat.ne_zero_of_lt deep)
        rw [List.foldlM_cons, visitWithin, if_pos (List.contains_iff_mem.mpr walked)]
        exact visited _ deep
      · obtain ⟨below, above, rfl, answer, climbed⟩ := climbWithin_cons_of_not_mem walked climbed
        obtain ⟨seen, smaller, le, climbed, first⟩ := lower below (Nat.lt_succ_self _) climbed
        obtain ⟨seen', smaller', le', climbed, others⟩ := lower smaller (Nat.lt_succ_of_le le) climbed
        refine ⟨seen', smaller', by omega, climbed, fun depth deep => ?_⟩
        have entered : visitWithin parents depth done x = .ok seen := by
          obtain ⟨depth, rfl⟩ := Nat.exists_eq_add_one_of_ne_zero (Nat.ne_zero_of_lt deep)
          have unknown : ¬ done.contains x = true := fun known => walked (List.contains_iff_mem.mp known)
          rw [visitWithin, if_neg unknown, answer]
          exact first depth (by omega)
        rw [List.foldlM_cons, entered]
        exact others depth (by omega)

theorem visits_of_lineage (climbed : g.lineage t = .ok found) {depth : Nat} (deep : g.size + 1 < depth) :
    visitWithin g.parents depth [] t = .ok found := by
  have start : climbWithin g.parents (g.size + 1) ([t] ++ []) [] = .ok found := climbed
  obtain ⟨seen, smaller, -, last, visited⟩ := climbWithin_visits start
  have same : climbWithin g.parents smaller [] seen = .ok seen := by
    cases smaller <;> simp [climbWithin]
  rw [same] at last
  cases last
  have visited := visited depth deep
  rw [List.foldlM_cons] at visited
  obtain ⟨after, entered, same⟩ := ok_of_bind visited
  cases same
  exact entered

open Relation

theorem climbWithin_forall {known : ScopeId → Prop}
    (upward : ∀ x above, known x → parents x = .ok above → ∀ p ∈ above, known p)
    (climbed : climbWithin parents bound ahead done = .ok found) (start : ∀ x ∈ ahead, known x)
    (walked : ∀ x ∈ done, known x) : ∀ x ∈ found, known x := by
  induction bound generalizing ahead done with
  | zero =>
    rw [climbWithin] at climbed
    split at climbed
    · cases climbed
      exact walked
    · cases climbed
  | succ bound ih =>
    rw [climbWithin] at climbed
    cases first : ahead.dropWhile done.contains with
    | nil =>
      rw [first] at climbed
      cases climbed
      exact walked
    | cons x rest =>
      rw [first] at climbed
      obtain ⟨above, answer, further⟩ := ok_of_bind climbed
      have left : ∀ y ∈ x :: rest, known y := fun y later =>
        start y ((List.dropWhile_sublist _).subset (first ▸ later))
      obtain ⟨here, later⟩ := List.forall_mem_cons.mp left
      refine ih further (List.forall_mem_append.mpr ⟨upward x above here answer, later⟩) ?_
      exact List.forall_mem_append.mpr ⟨walked, List.forall_mem_singleton.mpr here⟩

theorem mem_lineage_iff (climbed : g.lineage t = .ok found) : x ∈ found ↔ ReflTransGen g.Inherits t x := by
  constructor
  · refine climbWithin_forall ?_ climbed (List.forall_mem_singleton.mpr .refl) (List.forall_mem_nil _) x
    exact fun y above reached answer p listed => reached.tail ⟨_, above, answer, listed⟩
  · exact mem_lineageWith_of_inherits climbed

theorem exists_lineage (ends : ∀ x, ReflTransGen g.Inherits t x → ∃ bound found, g.parentsWithin bound x = .ok found) :
    ∃ found, g.lineage t = .ok found := by
  have finds : g.FindsParents False g.parents (ReflTransGen g.Inherits t) := by
    intro x reached
    obtain ⟨bound, found, answer⟩ := ends x reached
    have answer := parents_eq_of_parentsWithin answer
    rw [answer]
    exact fun p listed => ⟨allLive_of_parentsWithin answer p listed, reached.tail ⟨_, found, answer, listed⟩⟩
  exact (yields_lineageWith finds .refl).exists_ok

-- Where the parents of a type and of all that it inherits from are found at some bound, the walk up from the type ends.
-- It starts with the type, lists each scope that the type inherits from once and nothing else, and is the recursive
-- walk in the order of the parents, however deep that is allowed to go.
theorem lineage_is_walked_in_order
    (ends : ∀ x, ReflTransGen g.Inherits t x → ∃ bound found, g.parentsWithin bound x = .ok found) :
    ∃ order, g.lineage t = .ok order ∧ order.head? = some t ∧ order.Nodup ∧
      (∀ x, x ∈ order ↔ ReflTransGen g.Inherits t x) ∧
      ∀ depth, g.size + 1 < depth → visitWithin g.parents depth [] t = .ok order := by
  obtain ⟨order, climbed⟩ := exists_lineage ends
  obtain ⟨above, same, once⟩ := lineageWith_eq_cons climbed
  refine ⟨order, climbed, ?_, once, fun x => mem_lineage_iff climbed, fun depth => visits_of_lineage climbed⟩
  rw [same, List.head?_cons]

-- `class A : B, C { }; class B : D { }; class C : D { }; class D : A { };` where `D` is inherited twice, and `A` from itself.
theorem rhombus_is_walked_in_order :
    ∃ g, surveyUnit .cPlusPlus (heirUnit (heir "A" (.name "B" (.name "C" .nil)) .nil <| heir "B" (.name "D" .nil) .nil <|
        heir "C" (.name "D" .nil) .nil <| heir "D" (.name "A" .nil) .nil .nil)) = .ok g ∧ g.size = 5 ∧
      (∀ x, ReflTransGen g.Inherits 1 x → ∃ bound found, g.parentsWithin bound x = .ok found) ∧
      g.lineage 1 = .ok [1, 2, 4, 3] ∧ (∀ x, x ∈ [1, 2, 4, 3] ↔ ReflTransGen g.Inherits 1 x) ∧
      ∀ depth, 6 < depth → visitWithin g.parents depth [] 1 = .ok [1, 2, 4, 3] := by
  obtain ⟨g, surveyed, tested⟩ := @surveyed_single .cPlusPlus (heirUnit (heir "A" (.name "B" (.name "C" .nil)) .nil <|
      heir "B" (.name "D" .nil) .nil <| heir "C" (.name "D" .nil) .nil <| heir "D" (.name "A" .nil) .nil .nil))
    (fun g => g.size == 5 && (List.range g.size).all (fun x => (g.parents x).toOption.isSome) &&
      (g.lineage 1).toOption == some [1, 2, 4, 3]) (by decide +kernel)
  simp only [Bool.and_eq_true, beq_iff_eq] at tested
  obtain ⟨⟨size, all⟩, lineage⟩ := tested
  have ends : ∀ x, ReflTransGen g.Inherits 1 x → ∃ bound found, g.parentsWithin bound x = .ok found := by
    intro x _
    by_cases inside : x < g.size
    · obtain ⟨found, answered⟩ := Option.isSome_iff_exists.mp (List.all_eq_true.mp all x (List.mem_range.mpr inside))
      exact ⟨_, found, ok_of_toOption answered⟩
    · exact ⟨1, [], parentsWithin_of_size_le (Nat.le_of_not_lt inside) 0⟩
  obtain ⟨order, climbed, -, -, members, visited⟩ := lineage_is_walked_in_order ends
  have same : order = [1, 2, 4, 3] := by
    rw [ok_of_toOption lineage] at climbed
    exact (Except.ok.inj climbed).symm
  subst same
  exact ⟨g, surveyed, size, ends, climbed, members, fun depth deep => visited depth (by omega)⟩

end Graph

end ScopeAtlas
