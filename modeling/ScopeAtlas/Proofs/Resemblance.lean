import ScopeAtlas.Proofs.Invariants
import ScopeAtlas.Proofs.Tangles
import ScopeAtlas.Proofs.ViewOrder
import Mathlib.Data.Multiset.Defs

namespace ScopeAtlas

def Variable.face (v : Variable) : Option String × String × Multiset Location :=
  (v.declaredType.map TypeUse.render, v.name, v.locations)

def Call.face (call : Call) : String × Location := (call.render, call.location)

structure Scope.Resembles (s t : Scope) : Prop where
  name : t.name = s.name
  category : t.category = s.category
  access : t.access = s.access
  signature : t.signature = s.signature
  locations : t.locations.Perm s.locations
  parents : (t.parentTable.map (·.use.render)).Perm (s.parentTable.map (·.use.render))
  declared : (t.declared.toList.map Variable.face).Perm (s.declared.toList.map Variable.face)
  calls : (t.calls.map Call.face).Perm (s.calls.map Call.face)

theorem Scope.Resembles.pathName? {s t : Scope} (alike : s.Resembles t) : t.pathName? = s.pathName? := by
  unfold Scope.pathName? isNamed
  rw [alike.name, alike.category]

-- What is read off a face alone is the same, in some order, for lists with the same faces.
theorem perm_map_of_factors {α β γ : Type} [Nonempty γ] {face : α → β} {shown : α → γ} {l l' : List α}
    (factors : ∀ a b, face a = face b → shown a = shown b) (same : (l.map face).Perm (l'.map face)) :
    (l.map shown).Perm (l'.map shown) := by
  have factors : shown.FactorsThrough face := fun a b => factors a b
  obtain ⟨read, equal⟩ := (Function.factorsThrough_iff shown).mp factors
  rw [equal, ← List.map_map, ← List.map_map]
  exact same.map read

namespace Snapshot

theorem renderVariable_congr {v w : Variable} (same : v.face = w.face) : renderVariable v = renderVariable w := by
  simp only [Variable.face, Prod.mk.injEq, Multiset.coe_eq_coe] at same
  obtain ⟨type, name, locations⟩ := same
  have places := sortTexts_eq_of_perm (locations.map Location.render)
  unfold renderVariable
  rw [name, places]
  cases first : v.declaredType <;> cases second : w.declaredType <;> simp_all

theorem renderCall_congr {c d : Call} (same : c.face = d.face) : renderCall c = renderCall d := by
  simp only [Call.face, Prod.mk.injEq] at same
  unfold renderCall
  rw [same.1, same.2]

theorem ofScope_eq_of_resembles {s t : Scope} {fullName : String} {children children' : List Snapshot}
    (alike : s.Resembles t) (below : children'.Perm children) :
    ofScope t fullName children' = ofScope s fullName children := by
  have parents := sortTexts_eq_of_perm alike.parents
  have declared := sortTexts_eq_of_perm (perm_map_of_factors (fun _ _ => renderVariable_congr) alike.declared)
  have calls := sortTexts_eq_of_perm (perm_map_of_factors (fun _ _ => renderCall_congr) alike.calls)
  unfold ofScope
  rw [alike.signature, alike.access, sortTexts_eq_of_perm (alike.locations.map _), Scope.render_uses, Scope.render_uses,
    parents, declared, calls, sort_eq_of_perm below]

end Snapshot

theorem forall₂_unique {α β : Type} {first second : α → β → Prop} {l : List α} {found found' : List β}
    (same : ∀ a ∈ l, ∀ b b', first a b → second a b' → b' = b) (listed : List.Forall₂ first l found)
    (listed' : List.Forall₂ second l found') : found' = found := by
  induction listed generalizing found' with
  | nil =>
    cases listed'
    rfl
  | cons here rest ih =>
    obtain ⟨b', others, here', rest', rfl⟩ := List.forall₂_cons_left_iff.mp listed'
    rw [same _ List.mem_cons_self _ _ here here', ih (fun a later => same a (List.mem_cons_of_mem _ later)) rest']

theorem ok_mapM_iff {α β : Type} {search : α → Except Fault β} {places : List α} {found : List β} :
    places.mapM search = .ok found ↔ List.Forall₂ (fun place here => search place = .ok here) places found := by
  induction places generalizing found with
  | nil =>
    rw [List.mapM_nil, List.forall₂_nil_left_iff]
    constructor
    · intro run
      cases run
      rfl
    · rintro rfl
      rfl
  | cons place rest ih =>
    rw [List.mapM_cons, List.forall₂_cons_left_iff]
    constructor
    · intro run
      obtain ⟨here, searched, run⟩ := ok_of_bind run
      obtain ⟨others, later, same⟩ := ok_of_bind run
      cases same
      exact ⟨here, others, searched, ih.mp later, rfl⟩
    · rintro ⟨here, others, searched, later, rfl⟩
      rw [searched, ih.mpr later]
      rfl

namespace Graph

variable {g h : Graph} {rename : ScopeId → ScopeId} {x y c : ScopeId} {s : Scope}

def InView (g : Graph) (x : ScopeId) : Prop := Relation.ReflTransGen g.Lists g.root x

-- Every walk through what is in view ends: none meets a dead id, no way up goes on for ever, and nothing is below itself.
structure Viewable (g : Graph) : Prop where
  live : ∀ x, g.InView x → ∃ s, g.get? x = some s
  ends : ∀ x s, g.InView x → g.get? x = some s → ∃ up, g.Chain s.parent up
  acyclic : ∀ x, g.InView x → ¬ Relation.TransGen g.Lists x x

-- The scopes in view of one graph stand for those of another. Nothing is asked of what is out of view.
structure Corresponds (g h : Graph) (rename : ScopeId → ScopeId) : Prop where
  root : h.root = rename g.root
  injective : ∀ x y, g.InView x → g.InView y → rename x = rename y → x = y
  above : ∀ x s p, g.InView x → g.get? x = some s → s.parent = some p → g.InView p
  scope : ∀ x s, g.InView x → g.get? x = some s → ∃ t, h.get? (rename x) = some t ∧ s.Resembles t ∧
    t.parent = s.parent.map rename ∧ t.children.Perm (s.children.map rename)

theorem InView.child (seen : g.InView x) (found : g.get? x = some s) (member : c ∈ s.children) : g.InView c :=
  Relation.ReflTransGen.tail seen ⟨s, found, member⟩

theorem Chain.unique {parent : Option ScopeId} {up up' : List ScopeId} (above : g.Chain parent up)
    (above' : g.Chain parent up') : up = up' := by
  induction up generalizing parent up' with
  | nil =>
    cases up' with
    | nil => rfl
    | cons p up' =>
      rw [Chain] at above
      rw [above] at above'
      cases above'.1
  | cons p up ih =>
    obtain ⟨rfl, s, found, further⟩ := above
    cases up' with
    | nil => cases above'
    | cons p' up' =>
      obtain ⟨equal, s', found', further'⟩ := above'
      cases equal
      rw [found] at found'
      cases found'
      rw [ih further further']

theorem Chain.from_member {parent : Option ScopeId} {up : List ScopeId} (above : g.Chain parent up) (member : x ∈ up)
    (found : g.get? x = some s) : ∃ rest, g.Chain s.parent rest ∧ rest.length < up.length := by
  induction up generalizing parent with
  | nil => cases member
  | cons p up ih =>
    obtain ⟨rfl, t, here, further⟩ := above
    rcases List.mem_cons.mp member with rfl | higher
    · rw [found] at here
      cases here
      exact ⟨up, further, Nat.lt_succ_self _⟩
    · obtain ⟨rest, above, shorter⟩ := ih further higher
      exact ⟨rest, above, Nat.lt_succ_of_lt shorter⟩

theorem Chain.nodup {up : List ScopeId} (found : g.get? x = some s) (above : g.Chain s.parent up) : (x :: up).Nodup := by
  rw [List.nodup_cons]
  constructor
  · intro member
    obtain ⟨rest, above', shorter⟩ := above.from_member member found
    rw [above.unique above'] at shorter
    exact Nat.lt_irrefl _ shorter
  · clear found
    induction up generalizing x s with
    | nil => exact List.nodup_nil
    | cons p up ih =>
      obtain ⟨-, t, found, further⟩ := above
      refine List.nodup_cons.mpr ⟨?_, @ih p t further⟩
      intro member
      obtain ⟨rest, above', shorter⟩ := further.from_member member found
      rw [further.unique above'] at shorter
      exact Nat.lt_irrefl _ shorter

-- What is in view is linked both ways, as in every graph that is one tree.
structure Linked (g : Graph) : Prop where
  root : ∃ s, g.get? g.root = some s ∧ s.parent = none
  child : ∀ x c, g.InView x → g.Lists x c → ∃ t, g.get? c = some t ∧ t.parent = some x

theorem IsOneTree.linked (tree : g.IsOneTree) : g.Linked where
  root := by
    obtain ⟨s, found, top, -⟩ := tree.root
    exact ⟨s, found, top⟩
  child x c _ := tree.child x c

namespace Linked

theorem exists_chain (linked : g.Linked) (seen : g.InView x) : ∃ s up, g.get? x = some s ∧ g.Chain s.parent up := by
  induction seen with
  | refl =>
    obtain ⟨s, found, top⟩ := linked.root
    exact ⟨s, [], found, top⟩
  | @tail y z seen lists ih =>
    obtain ⟨s, up, found, above⟩ := ih
    obtain ⟨t, found', next⟩ := linked.child y z seen lists
    exact ⟨t, y :: up, found', next, s, found, above⟩

theorem chain_of_below (linked : g.Linked) {up : List ScopeId} (seen : g.InView x) (found : g.get? x = some s)
    (above : g.Chain s.parent up) (below : Relation.TransGen g.Lists x y) :
    ∃ t up', g.get? y = some t ∧ g.Chain t.parent up' ∧ up.length < up'.length := by
  induction below with
  | single lists =>
    obtain ⟨t, found', next⟩ := linked.child _ _ seen lists
    exact ⟨t, x :: up, found', ⟨next, s, found, above⟩, Nat.lt_succ_self _⟩
  | @tail y z between lists ih =>
    obtain ⟨t, up', found', above', longer⟩ := ih
    have seen' : g.InView y := Relation.ReflTransGen.trans seen between.to_reflTransGen
    obtain ⟨u, found'', next⟩ := linked.child y z seen' lists
    exact ⟨u, y :: up', found'', ⟨next, t, found', above'⟩, Nat.lt_succ_of_lt longer⟩

theorem viewable (linked : g.Linked) : g.Viewable where
  live x seen := by
    obtain ⟨s, -, found, -⟩ := linked.exists_chain seen
    exact ⟨s, found⟩
  ends x s seen found := by
    obtain ⟨s', up, found', above⟩ := linked.exists_chain seen
    rw [found] at found'
    cases found'
    exact ⟨up, above⟩
  acyclic x seen below := by
    obtain ⟨s, up, found, above⟩ := linked.exists_chain seen
    obtain ⟨t, up', found', above', longer⟩ := linked.chain_of_below seen found above below
    rw [found] at found'
    cases found'
    rw [above.unique above'] at longer
    exact Nat.lt_irrefl _ longer

theorem parent_inView (linked : g.Linked) {p : ScopeId} (seen : g.InView x) (found : g.get? x = some s)
    (above : s.parent = some p) : g.InView p := by
  rcases Relation.ReflTransGen.cases_tail seen with rfl | ⟨y, seen', lists⟩
  · obtain ⟨s', found', top⟩ := linked.root
    rw [found] at found'
    cases found'
    rw [above] at top
    cases top
  · obtain ⟨t, found', next⟩ := linked.child y x seen' lists
    rw [found] at found'
    cases found'
    rw [above] at next
    cases next
    exact seen'

end Linked

theorem ofWithin_eq_ok_iff {depth : Nat} {view : Snapshot} :
    Snapshot.ofWithin g (depth + 1) x = .ok view ↔ ∃ s views, g.get? x = some s ∧
      List.Forall₂ (fun c v => Snapshot.ofWithin g depth c = .ok v) s.children views ∧
      view = .ofScope s (g.fullName x) views := by
  rw [Snapshot.ofWithin, Graph.scope]
  cases found : g.get? x with
  | none =>
    constructor
    · intro run
      cases run
    · rintro ⟨s, -, impossible, -⟩
      cases impossible
  | some s =>
    constructor
    · intro run
      obtain ⟨views, listed, same⟩ := ok_of_bind (q := s.children.mapM (Snapshot.ofWithin g depth)) run
      cases same
      exact ⟨s, views, rfl, ok_mapM_iff.mp listed, rfl⟩
    · rintro ⟨s', views, same, listed, rfl⟩
      cases same
      change (s.children.mapM (Snapshot.ofWithin g depth) >>= _) = _
      rw [ok_mapM_iff.mpr listed]
      rfl

-- The scopes passed on the way down are all different, so there are no more of them than slots.
theorem Viewable.exists_view_within (viewable : g.Viewable) {depth : Nat} (passed : List ScopeId) (seen : g.InView x)
    (nodup : passed.Nodup) (walked : ∀ y ∈ passed, g.InView y ∧ Relation.TransGen g.Lists y x)
    (deep : g.size ≤ depth + passed.length) : ∃ view, Snapshot.ofWithin g depth x = .ok view := by
  have fresh : (x :: passed).Nodup :=
    List.nodup_cons.mpr ⟨fun member => viewable.acyclic x seen (walked x member).2, nodup⟩
  induction depth generalizing x passed with
  | zero =>
    have bound : (x :: passed).length ≤ g.size := by
      refine length_le_size fresh ?_
      intro y member
      rcases List.mem_cons.mp member with rfl | earlier
      · exact viewable.live y seen
      · exact viewable.live y (walked y earlier).1
    rw [List.length_cons] at bound
    omega
  | succ depth ih =>
    obtain ⟨s, found⟩ := viewable.live x seen
    have below : ∀ c ∈ s.children, ∃ view, Snapshot.ofWithin g depth c = .ok view := by
      intro c member
      have lists : g.Lists x c := ⟨s, found, member⟩
      have lower : ∀ y ∈ x :: passed, g.InView y ∧ Relation.TransGen g.Lists y c := by
        intro y listed
        rcases List.mem_cons.mp listed with rfl | earlier
        · exact ⟨seen, .single lists⟩
        · exact ⟨(walked y earlier).1, (walked y earlier).2.tail lists⟩
      have seen' := seen.child found member
      refine ih _ seen' fresh lower (by rw [List.length_cons]; omega) ?_
      exact List.nodup_cons.mpr ⟨fun listed => viewable.acyclic c seen' (lower c listed).2, fresh⟩
    choose! view viewed using below
    refine ⟨_, ofWithin_eq_ok_iff.mpr ⟨s, s.children.map view, found, ?_, rfl⟩⟩
    rw [List.forall₂_map_right_iff, List.forall₂_same]
    exact viewed

theorem snapshot_eq {view : Snapshot} : g.snapshot = .ok view ↔ Snapshot.ofWithin g g.size g.root = .ok view := by
  rw [snapshot, Snapshot.of, Graph.scope]
  cases found : g.get? g.root with
  | some s => rfl
  | none =>
    constructor
    · intro run
      cases run
    · intro run
      cases size : g.size with
      | zero =>
        rw [size] at run
        cases run
      | succ n =>
        rw [size] at run
        obtain ⟨s, -, found', -⟩ := ofWithin_eq_ok_iff.mp run
        rw [found] at found'
        cases found'

theorem Viewable.exists_snapshot (viewable : g.Viewable) : ∃ view, g.snapshot = .ok view := by
  obtain ⟨view, viewed⟩ := viewable.exists_view_within [] Relation.ReflTransGen.refl List.nodup_nil
    (List.forall_mem_nil _) (Nat.le_refl _)
  exact ⟨view, snapshot_eq.mpr viewed⟩

namespace Corresponds

theorem exists_child (alike : g.Corresponds h rename) (seen : g.InView x) (live : ∃ s, g.get? x = some s)
    {d : ScopeId} (lists : h.Lists (rename x) d) : ∃ c, d = rename c ∧ g.Lists x c := by
  obtain ⟨s, found⟩ := live
  obtain ⟨t, found', -, -, children⟩ := alike.scope x s seen found
  obtain ⟨t', found'', member⟩ := lists
  rw [found'] at found''
  cases found''
  obtain ⟨c, listed, rfl⟩ := List.mem_map.mp (children.mem_iff.mp member)
  exact ⟨c, rfl, s, found, listed⟩

theorem exists_of_inView (alike : g.Corresponds h rename) (viewable : g.Viewable) {d : ScopeId} (seen : h.InView d) :
    ∃ x, d = rename x ∧ g.InView x := by
  induction seen with
  | refl => exact ⟨g.root, alike.root, Relation.ReflTransGen.refl⟩
  | tail _ lists ih =>
    obtain ⟨x, rfl, seen⟩ := ih
    obtain ⟨c, rfl, lists'⟩ := alike.exists_child seen (viewable.live x seen) lists
    exact ⟨c, rfl, Relation.ReflTransGen.tail seen lists'⟩

theorem exists_below (alike : g.Corresponds h rename) (viewable : g.Viewable) (seen : g.InView x) {d : ScopeId}
    (below : Relation.TransGen h.Lists (rename x) d) : ∃ y, d = rename y ∧ Relation.TransGen g.Lists x y := by
  induction below with
  | single lists =>
    obtain ⟨c, rfl, lists'⟩ := alike.exists_child seen (viewable.live x seen) lists
    exact ⟨c, rfl, .single lists'⟩
  | tail _ lists ih =>
    obtain ⟨y, rfl, below⟩ := ih
    have seen' : g.InView y := Relation.ReflTransGen.trans seen below.to_reflTransGen
    obtain ⟨c, rfl, lists'⟩ := alike.exists_child seen' (viewable.live y seen') lists
    exact ⟨c, rfl, below.tail lists'⟩

theorem chain (alike : g.Corresponds h rename) {parent : Option ScopeId} {up : List ScopeId}
    (above : g.Chain parent up) (seen : ∀ p, parent = some p → g.InView p) :
    h.Chain (parent.map rename) (up.map rename) ∧
      (up.map rename).filterMap h.nameOf? = up.filterMap g.nameOf? := by
  induction up generalizing parent with
  | nil =>
    rw [Chain] at above
    rw [above]
    exact ⟨rfl, rfl⟩
  | cons p up ih =>
    obtain ⟨rfl, s, found, further⟩ := above
    have here := seen p rfl
    obtain ⟨t, found', resembles, parent, -⟩ := alike.scope p s here found
    obtain ⟨chain, names⟩ := ih further fun q next => alike.above p s q here found next
    have name : h.nameOf? (rename p) = g.nameOf? p := by
      simp [nameOf?, found, found', resembles.pathName?]
    refine ⟨⟨rfl, t, found', ?_⟩, ?_⟩
    · rw [parent]
      exact chain
    · rw [List.map_cons, List.filterMap_cons, List.filterMap_cons, name, names]

theorem viewable (alike : g.Corresponds h rename) (viewable : g.Viewable) : h.Viewable where
  live d seen := by
    obtain ⟨x, rfl, seen'⟩ := alike.exists_of_inView viewable seen
    obtain ⟨s, found⟩ := viewable.live x seen'
    obtain ⟨t, found', -⟩ := alike.scope x s seen' found
    exact ⟨t, found'⟩
  ends d t seen found' := by
    obtain ⟨x, rfl, seen'⟩ := alike.exists_of_inView viewable seen
    obtain ⟨s, found⟩ := viewable.live x seen'
    obtain ⟨t', found'', -, parent, -⟩ := alike.scope x s seen' found
    rw [found'] at found''
    cases found''
    obtain ⟨up, above⟩ := viewable.ends x s seen' found
    rw [parent]
    exact ⟨_, (alike.chain above fun p next => alike.above x s p seen' found next).1⟩
  acyclic d seen below := by
    obtain ⟨x, rfl, seen'⟩ := alike.exists_of_inView viewable seen
    obtain ⟨y, equal, below'⟩ := alike.exists_below viewable seen' below
    have seen'' : g.InView y := Relation.ReflTransGen.trans seen' below'.to_reflTransGen
    cases alike.injective x y seen' seen'' equal
    exact viewable.acyclic x seen' below'

theorem fullName (alike : g.Corresponds h rename) (viewable : g.Viewable) (seen : g.InView x)
    (found : g.get? x = some s) : h.fullName (rename x) = g.fullName x := by
  obtain ⟨t, found', resembles, parent, -⟩ := alike.scope x s seen found
  obtain ⟨up, above⟩ := viewable.ends x s seen found
  obtain ⟨above', names⟩ := alike.chain above fun p next => alike.above x s p seen found next
  rw [← parent] at above'
  rw [fullName_eq found above (above.nodup found), fullName_eq found' above' (above'.nodup found'), names,
    resembles.pathName?]

-- Whatever the depths that are enough for each, two views of corresponding scopes are the same.
theorem view_eq (alike : g.Corresponds h rename) (viewable : g.Viewable) {depth depth' : Nat} {view view' : Snapshot}
    (seen : g.InView x) (viewed : Snapshot.ofWithin g depth x = .ok view)
    (viewed' : Snapshot.ofWithin h depth' (rename x) = .ok view') : view' = view := by
  induction depth generalizing x depth' view view' with
  | zero => cases viewed
  | succ depth ih =>
    cases depth' with
    | zero => cases viewed'
    | succ depth' =>
      obtain ⟨s, views, found, below, rfl⟩ := ofWithin_eq_ok_iff.mp viewed
      obtain ⟨t, views', found', below', rfl⟩ := ofWithin_eq_ok_iff.mp viewed'
      obtain ⟨t', found'', resembles, -, children⟩ := alike.scope x s seen found
      rw [found'] at found''
      cases found''
      rw [alike.fullName viewable seen found]
      refine Snapshot.ofScope_eq_of_resembles resembles ?_
      -- the children of the second in the order of the first
      obtain ⟨ordered, listed, permuted⟩ := List.perm_comp_forall₂ children.symm below'
      rw [List.forall₂_map_left_iff] at listed
      have same : ordered = views :=
        forall₂_unique (fun c member v v' first second => ih (seen.child found member) first second) below listed
      rw [← same]
      exact permuted.symm

end Corresponds

-- A view shows no more than what it is made of: two graphs whose scopes in view correspond, whatever their ids and the
-- order of their lists, both have a view, and it is the same.
theorem corresponding_graphs_have_one_view (viewable : g.Viewable) (alike : g.Corresponds h rename) :
    ∃ view, g.snapshot = .ok view ∧ h.snapshot = .ok view := by
  obtain ⟨view, viewed⟩ := viewable.exists_snapshot
  obtain ⟨view', viewed'⟩ := (alike.viewable viewable).exists_snapshot
  refine ⟨view, viewed, ?_⟩
  have first := snapshot_eq.mp viewed
  have second := snapshot_eq.mp viewed'
  rw [alike.root] at second
  rw [viewed', alike.view_eq viewable Relation.ReflTransGen.refl first second]

theorem InView.mem {ids : List ScopeId} (seen : g.InView x) (top : g.root ∈ ids)
    (closed : ∀ y ∈ ids, ∀ s ∈ g.get? y, ∀ c ∈ s.children, c ∈ ids) : x ∈ ids := by
  induction seen with
  | refl => exact top
  | tail _ lists ih =>
    obtain ⟨s, found, member⟩ := lists
    exact closed _ ih s found _ member

def unitAt (file : String) : Location := ⟨file, "/unit", 1, false⟩

-- A class `A` with a class `P`, which is called in twice, and a class `Q`, which has a variable seen in two files.
def outline : Graph where
  slots := #[
    some { Scope.global with children := [1], locations := [unitAt "a.h", unitAt "b.h"] },
    some { name := "A", kind := .type { kind := .classType }, parent := some 0, children := [2, 3] },
    some { name := "P", kind := .type { kind := .classType }, parent := some 1,
           calls := [{ name := "f", scope := 2, location := unitAt "a.h" },
                     { name := "g", scope := 2, location := unitAt "b.h" }] },
    some { name := "Q", kind := .type { kind := .classType }, parent := some 1,
           declared := [("v", [⟨"v", some { name := "int", scope := 3 }, [unitAt "a.h", unitAt "b.h"], 3⟩])] }]
  root := 0

-- The same with other ids, a tombstone, a scope out of view and every list the other way round.
def outlineReversed : Graph where
  slots := #[
    none,
    some { name := "Q", kind := .type { kind := .classType }, parent := some 4,
           declared := [("v", [⟨"v", some { name := "int", scope := 1 }, [unitAt "b.h", unitAt "a.h"], 1⟩])] },
    some { Scope.global with children := [4], locations := [unitAt "b.h", unitAt "a.h"] },
    some { name := "P", kind := .type { kind := .classType }, parent := some 4,
           calls := [{ name := "g", scope := 3, location := unitAt "b.h" },
                     { name := "f", scope := 3, location := unitAt "a.h" }] },
    some { name := "A", kind := .type { kind := .classType }, parent := some 2, children := [1, 3] },
    some { name := "R", kind := .type { kind := .classType } }]
  root := 2

def outlineIds : ScopeId → ScopeId
  | 0 => 2
  | 1 => 4
  | 2 => 3
  | _ => 1

theorem outline_inView (seen : outline.InView x) : x ∈ [0, 1, 2, 3] := seen.mem (by decide) (by decide)

theorem outline_linked : outline.Linked where
  root := ⟨_, rfl, rfl⟩
  child x c seen lists := by
    obtain ⟨s, found, member⟩ := lists
    have listed : ∀ x ∈ [0, 1, 2, 3], ∀ s ∈ outline.get? x, ∀ c ∈ s.children,
        (outline.get? c).map (·.parent) = some (some x) := by decide
    exact Option.map_eq_some_iff.mp (listed x (outline_inView seen) s found c member)

theorem outline_corresponds : outline.Corresponds outlineReversed outlineIds where
  root := rfl
  injective x y seen seen' equal := by
    have apart : ∀ x ∈ [0, 1, 2, 3], ∀ y ∈ [0, 1, 2, 3], outlineIds x = outlineIds y → x = y := by decide
    exact apart x (outline_inView seen) y (outline_inView seen') equal
  above x s p := outline_linked.parent_inView
  scope x s seen found := by
    have member := outline_inView seen
    simp only [List.mem_cons, List.not_mem_nil, or_false] at member
    rcases member with rfl | rfl | rfl | rfl <;> cases found <;>
      refine ⟨_, rfl, ⟨rfl, rfl, rfl, ?_, ?_, ?_, ?_, ?_⟩, rfl, ?_⟩ <;> decide

theorem outline_has_the_view_of_its_reverse :
    outline.Viewable ∧ outline.Corresponds outlineReversed outlineIds ∧
      ∃ view, outline.snapshot = .ok view ∧ outlineReversed.snapshot = .ok view :=
  ⟨outline_linked.viewable, outline_corresponds,
    corresponding_graphs_have_one_view outline_linked.viewable outline_corresponds⟩

end Graph

end ScopeAtlas
