import ScopeAtlas.Proofs.Extension
import Mathlib.Data.Fintype.Card

namespace ScopeAtlas

open Relation

theorem wellFounded_of_acyclic {below : ScopeId → ScopeId → Prop} (bound : Nat)
    (bounded : ∀ x y, below x y → x < bound) (acyclic : ∀ x, ¬ TransGen below x x) : WellFounded below := by
  have finite : WellFounded fun x y : Fin bound => TransGen below x.val y.val := by
    have : IsTrans (Fin bound) fun x y => TransGen below x.val y.val := ⟨fun _ _ _ => TransGen.trans⟩
    have : Std.Irrefl fun x y : Fin bound => TransGen below x.val y.val := ⟨fun x => acyclic x.val⟩
    exact Finite.wellFounded_of_trans_of_irrefl _
  have accessible (x : Fin bound) : Acc below x.val := by
    induction x using finite.induction with
    | h x ih => exact ⟨_, fun y lower => ih ⟨y, bounded y x.val lower⟩ (.single lower)⟩
  exact ⟨fun y => ⟨y, fun x lower => accessible ⟨x, bounded x y lower⟩⟩⟩

namespace Graph

-- Both directions of every link agree, and no scope is below itself.
structure IsForest (g : Graph) : Prop where
  once : ∀ x s, g.get? x = some s → s.children.Nodup
  child : ∀ x c, g.Lists x c → ∃ t, g.get? c = some t ∧ t.parent = some x
  listed : ∀ x s p, g.get? x = some s → s.parent = some p → g.Lists p x
  acyclic : ∀ x, ¬ TransGen g.Lists x x

variable {g : Graph} {f : Forest} {parent : Option ScopeId} {up ids : List ScopeId} {x y z e : ScopeId} {s t : Scope}

theorem Lists.live (lists : g.Lists x y) : g.contains x = true := by
  obtain ⟨s, found, -⟩ := lists
  exact contains_of_get? found

section Drawing

theorem IsForest.single (forest : g.IsForest) (first : g.Lists x z) (second : g.Lists y z) : x = y := by
  obtain ⟨t, found, above⟩ := forest.child x z first
  obtain ⟨t', found', above'⟩ := forest.child y z second
  rw [found] at found'
  cases found'
  exact Option.some.inj (above.symm.trans above')

theorem IsForest.below_wellFounded (forest : g.IsForest) : WellFounded fun c x => g.Lists x c := by
  refine wellFounded_of_acyclic g.size ?_ (fun x cycle => forest.acyclic x (transGen_swap.mp cycle))
  intro c x lists
  obtain ⟨t, found, -⟩ := forest.child x c lists
  exact lt_size_of_get? found

theorem IsForest.above_wellFounded (forest : g.IsForest) : WellFounded g.Lists := by
  refine wellFounded_of_acyclic g.size ?_ forest.acyclic
  rintro x c ⟨s, found, -⟩
  exact lt_size_of_get? found

theorem IsForest.eq_of_below (forest : g.IsForest) (here : g.get? x = some s) (there : g.get? y = some t)
    (beside : s.parent = t.parent) (path : ReflTransGen g.Lists x y) : x = y := by
  rcases path.cases_tail with same | ⟨p, path, lists⟩
  · exact same.symm
  · obtain ⟨t', found, above⟩ := forest.child p y lists
    rw [there] at found
    cases found
    exact absurd (TransGen.head' (forest.listed x s p here (beside.trans above)) path) (forest.acyclic p)

theorem IsForest.apart (forest : g.IsForest) (here : g.get? x = some s) (there : g.get? y = some t)
    (beside : s.parent = t.parent) (path : ReflTransGen g.Lists x z) (path' : ReflTransGen g.Lists y z) : x = y := by
  have upward : Relator.RightUnique (Function.swap g.Lists) := fun _ _ _ => forest.single
  rcases ReflTransGen.total_of_right_unique upward (reflTransGen_swap.mpr path) (reflTransGen_swap.mpr path') with way | way
  · exact (forest.eq_of_below there here beside.symm (reflTransGen_swap.mp way)).symm
  · exact forest.eq_of_below here there beside (reflTransGen_swap.mp way)

-- The forest of some scopes side by side and of all that is below them.
structure Spans (g : Graph) (parent : Option ScopeId) (ids : List ScopeId) (f : Forest) : Prop where
  shows : g.Shows parent f
  roots : f.roots = ids
  nodup : f.ids.Nodup
  reach : ∀ y, y ∈ f.ids ↔ ∃ x ∈ ids, ReflTransGen g.Lists x y

theorem Spans.mem_below (spans : g.Spans (some x) s.children f) (found : g.get? x = some s) :
    y ∈ f.ids ↔ TransGen g.Lists x y := by
  rw [spans.reach, TransGen.head'_iff]
  constructor
  · rintro ⟨c, listed, path⟩
    exact ⟨c, ⟨s, found, listed⟩, path⟩
  · rintro ⟨c, ⟨s', found', listed⟩, path⟩
    rw [found] at found'
    cases found'
    exact ⟨c, listed, path⟩

theorem IsForest.spans_cons {rest : Forest} {below : Forest} (forest : g.IsForest) (found : g.get? x = some s)
    (under : g.Spans (some x) s.children below) (beside : g.Spans s.parent ids rest)
    (siblings : ∀ y ∈ ids, ∃ t, g.get? y = some t ∧ t.parent = s.parent) (new : x ∉ ids) :
    g.Spans s.parent (x :: ids) (.tree x s below rest) := by
  have mem_under {y : ScopeId} : y ∈ below.ids ↔ TransGen g.Lists x y := under.mem_below found
  have apart {y : ScopeId} (later : y ∈ rest.ids) : ¬ ReflTransGen g.Lists x y := by
    intro path
    obtain ⟨z, listed, path'⟩ := (beside.reach y).mp later
    obtain ⟨t, found', same⟩ := siblings z listed
    cases forest.apart found found' same.symm path path'
    exact new listed
  refine ⟨⟨?_, under.shows, beside.shows⟩, ?_, ?_, ?_⟩
  · rw [found, under.roots]
    rfl
  · rw [Forest.roots_tree, beside.roots]
  · rw [Forest.ids_tree, List.nodup_cons, List.nodup_append', List.mem_append]
    refine ⟨?_, under.nodup, beside.nodup, fun y lower later => apart later (mem_under.mp lower).to_reflTransGen⟩
    rintro (lower | later)
    · exact forest.acyclic x (mem_under.mp lower)
    · exact apart later .refl
  · intro y
    simp only [Forest.ids_tree, List.mem_cons, List.mem_append, mem_under, beside.reach, exists_eq_or_imp,
      reflTransGen_iff_eq_or_transGen, or_assoc]

theorem IsForest.exists_spans_list (forest : g.IsForest) (nodup : ids.Nodup)
    (each : ∀ x ∈ ids, ∃ s below, g.get? x = some s ∧ s.parent = parent ∧ g.Spans (some x) s.children below) :
    ∃ f, g.Spans parent ids f := by
  induction ids with
  | nil => exact ⟨.nil, trivial, rfl, List.nodup_nil, by simp⟩
  | cons x ids ih =>
    obtain ⟨new, nodup⟩ := List.nodup_cons.mp nodup
    obtain ⟨⟨s, below, found, rfl, under⟩, others⟩ := List.forall_mem_cons.mp each
    obtain ⟨rest, beside⟩ := ih nodup others
    refine ⟨_, forest.spans_cons found under beside ?_ new⟩
    intro y listed
    obtain ⟨t, -, found', same, -⟩ := others y listed
    exact ⟨t, found', same⟩

theorem IsForest.exists_spans (forest : g.IsForest) (found : g.get? x = some s) : ∃ f, g.Spans (some x) s.children f := by
  induction x using forest.below_wellFounded.induction generalizing s with
  | h x ih =>
    refine forest.exists_spans_list (forest.once x s found) ?_
    intro c listed
    have lists : g.Lists x c := ⟨s, found, listed⟩
    obtain ⟨t, found', above⟩ := forest.child x c lists
    obtain ⟨below, under⟩ := ih c lists found'
    exact ⟨t, below, found', above, under⟩

theorem IsForest.exists_top (forest : g.IsForest) (found : g.get? x = some s) :
    ∃ r t, g.get? r = some t ∧ t.parent = none ∧ ReflTransGen g.Lists r x := by
  induction x using forest.above_wellFounded.induction generalizing s with
  | h x ih =>
    cases above : s.parent with
    | none => exact ⟨x, s, found, above, .refl⟩
    | some p =>
      have lists := forest.listed x s p found above
      obtain ⟨s', found'⟩ := contains_iff.mp lists.live
      obtain ⟨r, t, there, top, path⟩ := ih p lists found'
      exact ⟨r, t, there, top, path.tail lists⟩

theorem IsForest.exists_pictures_of (forest : g.IsForest) (nodup : ids.Nodup)
    (tops : ∀ x, x ∈ ids ↔ ∃ s, g.get? x = some s ∧ s.parent = none) : ∃ f, g.Pictures f ∧ f.roots = ids := by
  obtain ⟨f, spans⟩ := forest.exists_spans_list nodup fun x member => by
    obtain ⟨s, found, top⟩ := (tops x).mp member
    obtain ⟨below, under⟩ := forest.exists_spans found
    exact ⟨s, below, found, top, under⟩
  refine ⟨f, ⟨spans.shows, spans.nodup, ?_⟩, spans.roots⟩
  intro x s found
  obtain ⟨r, t, there, top, path⟩ := forest.exists_top found
  exact (spans.reach x).mpr ⟨r, (tops r).mpr ⟨t, there, top⟩, path⟩

def tops (g : Graph) : List ScopeId := (List.range g.size).filter fun x => (g.get? x).any (·.parent.isNone)

theorem nodup_tops : g.tops.Nodup := List.nodup_range.filter _

theorem mem_tops : x ∈ g.tops ↔ ∃ s, g.get? x = some s ∧ s.parent = none := by
  simp only [tops, List.mem_filter, List.mem_range, Option.any_eq_true, Option.isNone_iff_eq_none]
  exact ⟨And.right, fun ⟨s, found, top⟩ => ⟨lt_size_of_get? found, s, found, top⟩⟩

theorem IsForest.exists_pictures (forest : g.IsForest) : ∃ f, g.Pictures f := by
  obtain ⟨f, picture, -⟩ := forest.exists_pictures_of nodup_tops fun _ => mem_tops
  exact ⟨f, picture⟩

theorem IsForest.exists_pictures_first (forest : g.IsForest) (found : g.get? x = some s) (top : s.parent = none) :
    ∃ t below rest, g.Pictures (.tree x t below rest) := by
  have first : (x :: g.tops.filter (· != x)).Nodup :=
    List.nodup_cons.mpr ⟨by simp, nodup_tops.filter _⟩
  obtain ⟨f, picture, roots⟩ := forest.exists_pictures_of first fun y => by
    rw [List.mem_cons, List.mem_filter, mem_tops, bne_iff_ne]
    constructor
    · rintro (rfl | ⟨outermost, -⟩)
      · exact ⟨s, found, top⟩
      · exact outermost
    · intro outermost
      by_cases same : y = x
      · exact Or.inl same
      · exact Or.inr ⟨outermost, same⟩
  cases f with
  | nil => cases roots
  | tree y t below rest =>
    cases (List.cons.inj roots).1
    exact ⟨t, below, rest, picture⟩

end Drawing

section Reading

theorem Pictures.mem_below {entry : Forest.Entry} (picture : g.Pictures f) (listed : entry ∈ f.entries none)
    (path : TransGen g.Lists entry.id y) : y ∈ entry.below.ids := by
  induction path with
  | single lists =>
    obtain ⟨s, found, member⟩ := lists
    rw [picture.shows.atEntry listed] at found
    cases found
    exact entry.below.mem_ids_of_mem_roots member
  | tail path lists ih =>
    obtain ⟨lower, under, rfl⟩ := @Forest.exists_entry_of_mem_ids entry.below (some entry.id) _ ih
    obtain ⟨s, found, member⟩ := lists
    have deeper := Forest.entries_below listed under
    rw [picture.shows.atEntry deeper] at found
    cases found
    exact (Forest.entry_ids_sublist under).subset (List.mem_cons_of_mem _ (lower.below.mem_ids_of_mem_roots member))

theorem Pictures.mem_roots_iff (picture : g.Pictures f) : x ∈ f.roots ↔ ∃ s, g.get? x = some s ∧ s.parent = none := by
  constructor
  · intro member
    obtain ⟨entry, listed, rfl, top⟩ := @Forest.exists_entry_of_mem_roots f none x member
    exact ⟨_, picture.shows.atEntry listed, top⟩
  · rintro ⟨s, found, top⟩
    obtain ⟨entry, listed, rfl, rfl⟩ := picture.exists_entry found
    have top : entry.parent = none := top
    rcases Forest.entries_above listed with ⟨first, -⟩ | ⟨upper, -, above, -⟩
    · exact first
    · rw [top] at above
      cases above

theorem Pictures.isForest (picture : g.Pictures f) : g.IsForest where
  once x s found := by
    obtain ⟨entry, listed, rfl, rfl⟩ := picture.exists_entry found
    have below := picture.nodup.sublist (Forest.entry_ids_sublist listed)
    exact below.of_cons.sublist entry.below.roots_sublist_ids
  child _ _ := picture.child
  listed _ _ _ := picture.listed
  acyclic x cycle := by
    obtain ⟨p, -, lists⟩ := TransGen.tail'_iff.mp cycle
    obtain ⟨s, found, -⟩ := picture.child lists
    obtain ⟨entry, listed, rfl, -⟩ := picture.exists_entry found
    have apart := picture.nodup.sublist (Forest.entry_ids_sublist listed)
    exact (List.nodup_cons.mp apart).1 (picture.mem_below listed cycle)

end Reading

section Around

theorem Chain.mem_iff (forest : g.IsForest) (found : g.get? x = some s) (above : g.Chain s.parent up) :
    e ∈ up ↔ TransGen g.Lists e x := by
  induction up generalizing x s with
  | nil =>
    have top : s.parent = none := above
    refine ⟨fun member => absurd member List.not_mem_nil, fun path => ?_⟩
    obtain ⟨p, -, lists⟩ := TransGen.tail'_iff.mp path
    obtain ⟨t, found', inner⟩ := forest.child p x lists
    rw [found] at found'
    cases found'
    rw [top] at inner
    cases inner
  | cons p up ih =>
    obtain ⟨inner, t, found', further⟩ := above
    have lists := forest.listed x s p found inner
    rw [List.mem_cons, ih found' further]
    constructor
    · rintro (rfl | path)
      · exact .single lists
      · exact path.tail lists
    · intro path
      obtain ⟨q, path, lists'⟩ := TransGen.tail'_iff.mp path
      cases forest.single lists lists'
      rcases reflTransGen_iff_eq_or_transGen.mp path with same | path
      · exact Or.inl same.symm
      · exact Or.inr path

theorem IsForest.exists_chain (forest : g.IsForest) (found : g.get? x = some s) :
    ∃ up, g.Chain s.parent up ∧ (x :: up).Nodup := by
  obtain ⟨f, picture⟩ := forest.exists_pictures
  exact picture.exists_chain found

theorem IsForest.mem_ancestors_iff (forest : g.IsForest) : e ∈ g.ancestors x ↔ TransGen g.Lists e x := by
  cases found : g.get? x with
  | none =>
    have gone : g.ancestors x = [] := by simp [ancestors, ancestorsAndSelf, contains, found]
    rw [gone]
    refine ⟨fun member => absurd member List.not_mem_nil, fun path => ?_⟩
    obtain ⟨p, -, lists⟩ := TransGen.tail'_iff.mp path
    obtain ⟨t, found', -⟩ := forest.child p x lists
    rw [found] at found'
    cases found'
  | some s =>
    obtain ⟨up, above, nodup⟩ := forest.exists_chain found
    rw [ancestors_eq found above nodup, above.mem_iff forest found]

theorem IsForest.mem_ancestorsAndSelf_iff (forest : g.IsForest) (live : g.contains x = true) :
    e ∈ g.ancestorsAndSelf x ↔ ReflTransGen g.Lists e x := by
  obtain ⟨s, found⟩ := contains_iff.mp live
  obtain ⟨up, above, nodup⟩ := forest.exists_chain found
  rw [ancestorsAndSelf_eq found above nodup, List.mem_cons, above.mem_iff forest found, reflTransGen_iff_eq_or_transGen,
    eq_comm]

end Around

section Below

-- A walk down from the roots of a forest meets its scopes in their order, if it goes as deep as the forest.
theorem Shows.flatMap_belowWithin {depth : Nat} (shown : g.Shows parent f) (deep : f.height ≤ depth + 1) :
    (f.roots.flatMap fun c => c :: g.belowWithin depth c) = f.ids := by
  induction f generalizing parent depth with
  | nil => rfl
  | tree id s below rest inner outer =>
    obtain ⟨here, under, beside⟩ := shown
    rw [Forest.height] at deep
    have lower : g.belowWithin depth id = below.ids := by
      cases depth with
      | zero =>
        cases below with
        | nil => rfl
        | tree => simp only [Forest.height] at deep; omega
      | succ depth =>
        have children : g.children id = below.roots := by
          rw [children, here]
          rfl
        rw [belowWithin, children, inner under (by omega)]
    rw [Forest.roots_tree, List.flatMap_cons, lower, outer beside (by omega), Forest.ids_tree, List.cons_append]

theorem Spans.descendants_eq (spans : g.Spans (some x) s.children f) (found : g.get? x = some s) :
    g.descendants x = f.ids := by
  have high := spans.shows.height_le_size spans.nodup
  have children : g.children x = f.roots := by rw [children, found, spans.roots]
  unfold descendants
  cases size : g.size with
  | zero =>
    have inside := lt_size_of_get? found
    rw [size] at inside
    exact absurd inside (Nat.not_lt_zero x)
  | succ depth => rw [belowWithin, children, spans.shows.flatMap_belowWithin (by omega)]

theorem descendants_of_gone (gone : g.get? x = none) : g.descendants x = [] := by
  unfold descendants
  cases g.size with
  | zero => rfl
  | succ depth => simp [belowWithin, children, gone]

theorem IsForest.mem_descendants_iff (forest : g.IsForest) : y ∈ g.descendants x ↔ TransGen g.Lists x y := by
  cases found : g.get? x with
  | none =>
    rw [descendants_of_gone found]
    refine ⟨fun member => absurd member List.not_mem_nil, fun path => ?_⟩
    obtain ⟨c, lists, -⟩ := TransGen.head'_iff.mp path
    obtain ⟨s, found', -⟩ := lists
    rw [found] at found'
    cases found'
  | some s =>
    obtain ⟨f, spans⟩ := forest.exists_spans found
    rw [spans.descendants_eq found, spans.mem_below found]

theorem IsForest.nodup_descendants (forest : g.IsForest) (x : ScopeId) : (g.descendants x).Nodup := by
  cases found : g.get? x with
  | none =>
    rw [descendants_of_gone found]
    exact List.nodup_nil
  | some s =>
    obtain ⟨f, spans⟩ := forest.exists_spans found
    rw [spans.descendants_eq found]
    exact spans.nodup

end Below

end Graph

end ScopeAtlas
