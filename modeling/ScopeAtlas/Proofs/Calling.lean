import ScopeAtlas.Proofs.Findings
import ScopeAtlas.Proofs.Indexes
import ScopeAtlas.Proofs.Links
import Mathlib.Data.Set.Card

namespace ScopeAtlas

open Relation

theorem ok_bind {α β : Type} (a : α) (next : α → Except Fault β) : (Except.ok a >>= next) = next a := rfl

namespace Graph

-- A scope is part of the code of a method: the method itself, or a block in such a part.
inductive IsPartOf (g : Graph) (m : ScopeId) : ScopeId → Prop
  | method {s : Scope} (found : g.get? m = some s) (method : s.category = .method) : g.IsPartOf m m
  | block {x p : ScopeId} {s : Scope} (found : g.get? x = some s) (block : s.category = .block)
      (above : s.parent = some p) (part : g.IsPartOf m p) : g.IsPartOf m x

-- Where a method may call another: the scopes that are part of it, with the indexes of their calls that may reach it.
def callSites (g : Graph) (m c : ScopeId) : Set (ScopeId × Nat) :=
  {site | g.IsPartOf m site.1 ∧ ∃ s call found, g.get? site.1 = some s ∧ s.calls[site.2]? = some call ∧
    call.candidates g = .ok found ∧ c ∈ found}

variable {g : Graph} {m m' c x p : ScopeId} {s : Scope}

section Parts

theorem isPartOf_block (found : g.get? x = some s) (block : s.category = .block) :
    g.IsPartOf m x ↔ ∃ p, s.parent = some p ∧ g.IsPartOf m p := by
  constructor
  · intro part
    cases part with
    | method found' method =>
      rw [found] at found'
      cases found'
      rw [method] at block
      cases block
    | block found' _ above part =>
      rw [found] at found'
      cases found'
      exact ⟨_, above, part⟩
  · rintro ⟨p, above, part⟩
    exact .block found block above part

theorem isPartOf_other (found : g.get? x = some s) (other : s.category ≠ .block) :
    g.IsPartOf m x ↔ x = m ∧ s.category = .method := by
  constructor
  · intro part
    cases part with
    | method found' method =>
      rw [found] at found'
      cases found'
      exact ⟨rfl, method⟩
    | block found' block =>
      rw [found] at found'
      cases found'
      exact absurd block other
  · rintro ⟨rfl, method⟩
    exact .method found method

theorem IsPartOf.unique (part : g.IsPartOf m x) (part' : g.IsPartOf m' x) : m = m' := by
  induction part with
  | method found method => exact ((isPartOf_other found (by simp [method])).mp part').1
  | block found block above _ ih =>
    obtain ⟨p, above', part'⟩ := (isPartOf_block found block).mp part'
    rw [above] at above'
    cases above'
    exact ih part'

theorem IsPartOf.isMethod (part : g.IsPartOf m x) : ∃ s, g.get? m = some s ∧ s.category = .method := by
  induction part with
  | method found method => exact ⟨_, found, method⟩
  | block _ _ _ _ ih => exact ih

theorem IsPartOf.path (forest : g.IsForest) (part : g.IsPartOf m x) : ReflTransGen g.Lists m x := by
  induction part with
  | method => exact .refl
  | block found _ above _ ih => exact ih.tail (forest.listed _ _ _ found above)

theorem firstWith_cons (test : Scope → Bool) (found : g.get? x = some s) (rest : List ScopeId) :
    g.firstWith? test (x :: rest) = if test s then .ok (some x) else g.firstWith? test rest := by
  rw [firstWith?, scope_eq found]
  rfl

-- The way up meets the method, if there is one, as the first scope that is no block. The induction is on the way.
theorem firstWith_chain {start : Option ScopeId} {up : List ScopeId} (above : g.Chain start up) :
    ∃ first, g.firstWith? (·.category != .block) up = .ok first ∧ g.AllLive first.toList ∧
      ∀ m, (∃ x, start = some x ∧ g.IsPartOf m x) ↔ first = some m ∧ g.hasCategory .method m = true := by
  induction up generalizing start with
  | nil =>
    have top : start = none := above
    exact ⟨none, rfl, by simp [AllLive], by simp [top]⟩
  | cons x up ih =>
    obtain ⟨rfl, s, found, further⟩ := above
    rw [firstWith_cons _ found]
    by_cases block : s.category = .block
    · obtain ⟨first, searched, live, owns⟩ := ih further
      refine ⟨first, by simpa [block] using searched, live, fun m => ?_⟩
      rw [← owns, ← isPartOf_block found block]
      simp
    · refine ⟨some x, by simp [block], by simpa [AllLive] using contains_of_get? found, fun m => ?_⟩
      simp only [Option.some.injEq, exists_eq_left', isPartOf_other found block]
      refine and_congr_right ?_
      rintro rfl
      simp [hasCategory, found]

theorem IsForest.exists_owner (forest : g.IsForest) (found : g.get? x = some s) :
    ∃ owner, CallGraph.owningMethod? g x = .ok owner ∧ ∀ m, owner = some m ↔ g.IsPartOf m x := by
  obtain ⟨up, above, nodup⟩ := forest.exists_chain found
  have way : g.Chain (some x) (x :: up) := ⟨rfl, s, found, above⟩
  obtain ⟨first, searched, live, owns⟩ := firstWith_chain way
  simp only [Option.some.injEq, exists_eq_left'] at owns
  unfold CallGraph.owningMethod?
  rw [ancestorsAndSelf_eq found above nodup, searched, ok_bind]
  cases first with
  | none => exact ⟨none, rfl, fun m => by simp [owns]⟩
  | some owner =>
    obtain ⟨t, found'⟩ := contains_iff.mp (live owner (by simp))
    dsimp only
    rw [scope_eq found', ok_bind]
    refine ⟨_, rfl, fun m => ?_⟩
    rw [owns]
    by_cases method : t.category = .method
    · simp only [method, beq_self_eq_true, if_true, Option.some.injEq, iff_self_and]
      rintro rfl
      simp [hasCategory, found', method]
    · simp only [beq_iff_eq, method, if_false, reduceCtorEq, false_iff, not_and, Option.some.injEq]
      rintro rfl
      simp [hasCategory, found', method]

def owner? (g : Graph) (x : ScopeId) : Option ScopeId := (CallGraph.owningMethod? g x).toOption.join

theorem IsForest.owningMethod_eq (forest : g.IsForest) (found : g.get? x = some s) :
    CallGraph.owningMethod? g x = .ok (g.owner? x) ∧ ∀ m, g.owner? x = some m ↔ g.IsPartOf m x := by
  obtain ⟨owner, walked, parts⟩ := forest.exists_owner found
  have same : g.owner? x = owner := by
    rw [owner?, walked]
    rfl
  rw [same]
  exact ⟨walked, parts⟩

end Parts

section Given

def callsOf (g : Graph) (x : ScopeId) : List Call := ((g.get? x).map (·.calls)).getD []

def callsAt (g : Graph) (ids : List ScopeId) : List ((ScopeId × Nat) × Call) :=
  ids.flatMap fun x => (g.callsOf x).zipIdx.map fun e => ((x, e.2), e.1)

theorem mem_callsAt {ids : List ScopeId} {site : ScopeId × Nat} {call : Call} :
    (site, call) ∈ g.callsAt ids ↔ site.1 ∈ ids ∧ ∃ s, g.get? site.1 = some s ∧ s.calls[site.2]? = some call := by
  obtain ⟨x, i⟩ := site
  simp only [callsAt, List.mem_flatMap, List.mem_map, Prod.mk.injEq, Prod.exists, List.mem_zipIdx_iff_getElem?]
  constructor
  · rintro ⟨y, listed, call', i', written, ⟨rfl, rfl⟩, rfl⟩
    refine ⟨listed, ?_⟩
    cases found : g.get? y with
    | none => simp [callsOf, found] at written
    | some s => exact ⟨s, rfl, by simpa [callsOf, found] using written⟩
  · rintro ⟨listed, s, found, written⟩
    exact ⟨x, listed, call, i, by simpa [callsOf, found] using written, ⟨rfl, rfl⟩, rfl⟩

theorem nodup_callsAt {ids : List ScopeId} (nodup : ids.Nodup) : ((g.callsAt ids).map Prod.fst).Nodup := by
  have sites (x : ScopeId) : ((g.callsOf x).zipIdx.map fun e => ((x, e.2), e.1)).map Prod.fst =
      (List.range' 0 (g.callsOf x).length).map (Prod.mk x) := by
    rw [← List.zipIdx_map_snd 0 (g.callsOf x), List.map_map, List.map_map]
    rfl
  rw [callsAt, List.map_flatMap]
  simp only [sites]
  rw [List.nodup_flatMap]
  refine ⟨fun x _ => List.Nodup.map (Prod.mk_right_injective x) List.nodup_range', nodup.imp ?_⟩
  intro x y apart site first second
  obtain ⟨i, -, rfl⟩ := List.mem_map.mp first
  obtain ⟨j, -, same⟩ := List.mem_map.mp second
  cases same
  exact apart rfl

theorem map_snd_callsAt (ids : List ScopeId) :
    (g.callsAt ids).map Prod.snd = (ids.filterMap g.get?).flatMap (·.calls) := by
  have written (x : ScopeId) : ((g.callsOf x).zipIdx.map fun e => ((x, e.2), e.1)).map Prod.snd = g.callsOf x := by
    rw [List.map_map]
    exact List.zipIdx_map_fst 0 (g.callsOf x)
  rw [callsAt, List.map_flatMap]
  simp only [written]
  induction ids with
  | nil => rfl
  | cons x rest ih =>
    rw [List.flatMap_cons, ih, callsOf]
    cases found : g.get? x with
    | none => rw [List.filterMap_cons_none found]; rfl
    | some s => rw [List.filterMap_cons_some found, List.flatMap_cons]; rfl

theorem IsForest.callsWithin_eq (forest : g.IsForest) (live : g.contains m = true) :
    g.callsWithin m = .ok ((g.callsAt (m :: g.descendants m)).map Prod.snd) := by
  have below : g.AllLive (m :: g.descendants m) := by
    refine List.forall_mem_cons.mpr ⟨live, ?_⟩
    intro x lower
    obtain ⟨p, -, lists⟩ := TransGen.tail'_iff.mp (forest.mem_descendants_iff.mp lower)
    obtain ⟨t, found, -⟩ := forest.child p x lists
    exact contains_of_get? found
  rw [callsWithin, mapM_scope below, map_snd_callsAt]
  rfl

-- The searches that the edges ask for all come to an end.
structure LookupsEnd (g : Graph) : Prop where
  parents : ∀ t, ∃ found, g.parents t = .ok found
  calls : ∀ m x s, g.IsPartOf m x → g.get? x = some s → ∀ call ∈ s.calls, ∃ found, call.candidates g = .ok found

theorem parents_of_other (other : ¬ ∃ s, g.get? x = some s ∧ s.category = .type) : g.parents x = .ok [] := by
  have none : (g.get? x).bind (·.type?) = none := by
    rw [Option.bind_eq_none_iff]
    intro s found
    unfold Scope.type?
    split
    · rename_i definition type
      exact absurd ⟨s, found, by rw [Scope.category, type]; rfl⟩ other
    · rfl
  rw [parents, parentsWithin, parentsWith, none]

theorem LookupsEnd.of_all (answered : (g.scopes.all fun e => (g.parents e.1).toOption.isSome &&
    e.2.calls.all fun call => (call.candidates g).toOption.isSome) = true) : g.LookupsEnd := by
  rw [List.all_eq_true] at answered
  simp only [Bool.and_eq_true, List.all_eq_true] at answered
  constructor
  · intro t
    by_cases type : ∃ s, g.get? t = some s ∧ s.category = .type
    · obtain ⟨s, found, -⟩ := type
      obtain ⟨types, answer⟩ := Option.isSome_iff_exists.mp (answered (t, s) (mem_scopes.mpr found)).1
      exact ⟨types, ok_of_toOption answer⟩
    · exact ⟨[], parents_of_other type⟩
  · intro m x s part found call listed
    obtain ⟨callees, answer⟩ := Option.isSome_iff_exists.mp ((answered (x, s) (mem_scopes.mpr found)).2 call listed)
    exact ⟨callees, ok_of_toOption answer⟩

def parentsFound (g : Graph) (t : ScopeId) : List ScopeId := (g.parents t).toOption.getD []

def calleesFound (g : Graph) (call : Call) : List ScopeId := (call.candidates g).toOption.getD []

def ownCalls (g : Graph) (m : ScopeId) : List ((ScopeId × Nat) × Call) :=
  (g.callsAt (m :: g.descendants m)).filter fun e => g.owner? e.1.1 == some m

def targetsGiven (g : Graph) (x : ScopeId) : EdgeKind → List ScopeId
  | .calls => (g.ownCalls x).flatMap (g.calleesFound ·.2)
  | .inherits => g.parentsFound x

variable {Count : Type}

def edgesGiven [One Count] (g : Graph) (x : ScopeId) : List (Edge Count) :=
  EdgeKind.all.flatMap fun kind => (g.targetsGiven x kind).map fun target => .single x target kind

def given [One Count] (g : Graph) : List (Edge Count) := (g.scopes.map (·.1)).flatMap g.edgesGiven

variable {strict : Prop} {f : Forest}

theorem IsForest.mem_ownCalls (forest : g.IsForest) {site : ScopeId × Nat} {call : Call} :
    (site, call) ∈ g.ownCalls m ↔
      g.IsPartOf m site.1 ∧ ∃ s, g.get? site.1 = some s ∧ s.calls[site.2]? = some call := by
  rw [ownCalls, List.mem_filter, mem_callsAt, beq_iff_eq]
  constructor
  · rintro ⟨⟨-, s, found, written⟩, owner⟩
    exact ⟨((forest.owningMethod_eq found).2 m).mp owner, s, found, written⟩
  · rintro ⟨part, s, found, written⟩
    refine ⟨⟨?_, s, found, written⟩, ((forest.owningMethod_eq found).2 m).mpr part⟩
    rw [List.mem_cons, forest.mem_descendants_iff]
    exact reflTransGen_iff_eq_or_transGen.mp (part.path forest)

theorem IsForest.nodup_ownCalls (forest : g.IsForest) (m : ScopeId) : ((g.ownCalls m).map Prod.fst).Nodup := by
  refine (nodup_callsAt ?_).sublist (List.filter_sublist.map Prod.fst)
  rw [List.nodup_cons, forest.mem_descendants_iff]
  exact ⟨forest.acyclic m, forest.nodup_descendants m⟩

theorem LookupsEnd.calls_eq (ends : g.LookupsEnd) (forest : g.IsForest) :
    ((g.ownCalls m).map Prod.snd).mapM (·.candidates g) = .ok (((g.ownCalls m).map Prod.snd).map g.calleesFound) := by
  apply mapM_eq_ok
  intro _ member
  obtain ⟨⟨site, call⟩, own, rfl⟩ := List.mem_map.mp member
  obtain ⟨part, s, found, written⟩ := forest.mem_ownCalls.mp own
  obtain ⟨callees, answer⟩ := ends.calls m site.1 s part found call (List.mem_of_getElem? written)
  rw [calleesFound, answer]
  rfl

-- A call names the scope that holds it, so the walk up from there decides by the place of the call.
theorem AtRest.filterM_owningMethod (rest : g.AtRest strict f) :
    ((g.callsAt (m :: g.descendants m)).map Prod.snd).filterM
        (fun call => return (← CallGraph.owningMethod? g call.scope) == some m) =
      .ok ((g.ownCalls m).map Prod.snd) := by
  have held : ∀ e ∈ g.callsAt (m :: g.descendants m), e.2.scope = e.1.1 ∧ ∃ s, g.get? e.1.1 = some s := by
    rintro ⟨site, call⟩ member
    obtain ⟨-, s, found, written⟩ := mem_callsAt.mp member
    have stands := (rest.namesOwners found).stands.calls call (List.mem_of_getElem? written)
    exact ⟨stands.scope.1, s, found⟩
  have decided : ∀ call ∈ (g.callsAt (m :: g.descendants m)).map Prod.snd,
      (return (← CallGraph.owningMethod? g call.scope) == some m) = Except.ok (g.owner? call.scope == some m) := by
    intro call member
    obtain ⟨e, listed, rfl⟩ := List.mem_map.mp member
    obtain ⟨named, s, found⟩ := held e listed
    rw [named, (rest.picture.isForest.owningMethod_eq found).1]
    rfl
  rw [filterM_eq_ok decided, List.filter_map, ownCalls]
  congr 2
  refine List.filter_congr fun e listed => ?_
  rw [Function.comp, (held e listed).1]

theorem IsForest.targetsGiven_calls (forest : g.IsForest) (other : ¬ ∃ s, g.get? x = some s ∧ s.category = .method) :
    g.targetsGiven x .calls = [] := by
  have none : g.ownCalls x = [] := by
    rw [List.eq_nil_iff_forall_not_mem]
    rintro ⟨site, call⟩ own
    exact other (forest.mem_ownCalls.mp own).1.isMethod
  rw [targetsGiven, none]
  rfl

theorem targetsGiven_inherits (other : ¬ ∃ s, g.get? x = some s ∧ s.category = .type) :
    g.targetsGiven x .inherits = [] := by
  rw [targetsGiven, parentsFound, parents_of_other other]
  rfl

-- A scope has targets of the one kind of edge that its category gives.
theorem AtRest.edgesOf_eq [One Count] (rest : g.AtRest strict f) (ends : g.LookupsEnd) (found : g.get? x = some s) :
    CallGraph.edgesOf g x s = .ok (g.edgesGiven x : List (Edge Count)) := by
  have forest := rest.picture.isForest
  have calls (other : s.category ≠ .method) : g.targetsGiven x .calls = [] :=
    forest.targetsGiven_calls (by simp [found, other])
  have inherits (other : s.category ≠ .type) : g.targetsGiven x .inherits = [] :=
    targetsGiven_inherits (by simp [found, other])
  unfold CallGraph.edgesOf edgesGiven
  simp only [EdgeKind.all, List.flatMap_cons, List.flatMap_nil, List.append_nil]
  cases category : s.category with
  | method =>
    rw [inherits (by simp [category])]
    dsimp only
    rw [forest.callsWithin_eq (contains_of_get? found), ok_bind, rest.filterM_owningMethod, ok_bind,
      ends.calls_eq forest, ok_bind, ← List.flatMap_def, List.flatMap_map, List.map_nil, List.append_nil]
    rfl
  | type =>
    obtain ⟨types, answer⟩ := ends.parents x
    rw [calls (by simp [category]), targetsGiven, parentsFound, answer]
    rfl
  | space | block =>
    rw [calls (by simp [category]), inherits (by simp [category])]
    rfl

theorem AtRest.build_eq [Add Count] [One Count] (rest : g.AtRest strict f) (ends : g.LookupsEnd) :
    CallGraph.build g = .ok (CallGraph.ofEdges (g.given : List (Edge Count))) := by
  have each : ∀ e ∈ g.scopes, CallGraph.edgesOf g e.1 e.2 = .ok (g.edgesGiven e.1 : List (Edge Count)) := by
    rintro ⟨x, s⟩ listed
    exact rest.edgesOf_eq ends (mem_scopes.mp listed)
  unfold CallGraph.build
  rw [mapM_eq_ok each, ok_bind, given, List.flatMap_map, ← List.flatMap_def]
  rfl

-- The edges do not depend on how their uses are counted, so the counts in words are the words of the counts.
theorem AtRest.build_eq_recount (rest : g.AtRest strict f) (ends : g.LookupsEnd) :
    CallGraph.build g = .ok ((CallGraph.ofEdges (g.given : List (Edge Nat))).recount UInt64.ofNat) := by
  have words : (g.given : List (Edge UInt64)) = (g.given : List (Edge Nat)).map (·.recount UInt64.ofNat) := by
    simp only [given, edgesGiven, List.map_flatMap, List.map_map]
    rfl
  rw [rest.build_eq ends, words, CallGraph.recount_ofEdges UInt64.ofNat_add]

end Given

section Counted

variable {ids : List ScopeId}

theorem total_of_ones {added : List (Edge Nat)} (ones : ∀ e ∈ added, e.count = 1) (l : Link) :
    Edge.total added l = (added.map Edge.link).count l := by
  induction added with
  | nil => rfl
  | cons e rest ih =>
    obtain ⟨one, ones⟩ := List.forall_mem_cons.mp ones
    rw [Edge.total_cons, one, ih ones, List.map_cons, List.count_cons, Nat.add_comm]
    simp only [beq_iff_eq]

theorem mem_edgesGiven {e : Edge Nat} (member : e ∈ g.edgesGiven x) : e.source = x ∧ e.count = 1 := by
  obtain ⟨kind, -, listed⟩ := List.mem_flatMap.mp member
  obtain ⟨target, -, rfl⟩ := List.mem_map.mp listed
  exact ⟨rfl, rfl⟩

def linksGiven (g : Graph) : List Link := (g.given : List (Edge Nat)).map Edge.link

-- The call graph before its counts are written as words.
abbrev countedLinks (g : Graph) : CallGraph Nat := .ofEdges g.given

theorem total_given (l : Link) : Edge.total (g.given : List (Edge Nat)) l = g.linksGiven.count l := by
  refine total_of_ones ?_ l
  intro e member
  obtain ⟨x, -, inside⟩ := List.mem_flatMap.mp member
  exact (mem_edgesGiven inside).2

theorem count_targets (l : List ScopeId) (x c : ScopeId) (kind kind' : EdgeKind) :
    ((l.map fun target => (Edge.single x target kind : Edge Nat)).map Edge.link).count ⟨x, c, kind'⟩ =
      if kind = kind' then l.count c else 0 := by
  induction l with
  | nil => simp
  | cons first rest ih =>
    rw [List.map_cons, List.map_cons, List.count_cons, ih, List.count_cons]
    by_cases same : kind = kind' <;> simp [Edge.link, Edge.single, same]

theorem count_edgesGiven (x c : ScopeId) (kind : EdgeKind) :
    ((g.edgesGiven x : List (Edge Nat)).map Edge.link).count ⟨x, c, kind⟩ = (g.targetsGiven x kind).count c := by
  simp only [edgesGiven, EdgeKind.all, List.flatMap_cons, List.flatMap_nil, List.append_nil, List.map_append,
    List.count_append, count_targets]
  cases kind <;> simp

theorem count_links_of_absent (absent : x ∉ ids) (c : ScopeId) (kind : EdgeKind) :
    ((ids.flatMap g.edgesGiven : List (Edge Nat)).map Edge.link).count ⟨x, c, kind⟩ = 0 := by
  rw [List.count_eq_zero]
  intro member
  obtain ⟨e, listed, linked⟩ := List.mem_map.mp member
  obtain ⟨y, live, inside⟩ := List.mem_flatMap.mp listed
  have source : e.source = x := congrArg Link.source linked
  rw [(mem_edgesGiven inside).1] at source
  exact absent (source ▸ live)

theorem count_links (nodup : ids.Nodup) (listed : x ∈ ids) (c : ScopeId) (kind : EdgeKind) :
    ((ids.flatMap g.edgesGiven : List (Edge Nat)).map Edge.link).count ⟨x, c, kind⟩ = (g.targetsGiven x kind).count c := by
  obtain ⟨before, after, rfl⟩ := List.append_of_mem listed
  obtain ⟨-, ⟨new', -⟩, apart⟩ : before.Nodup ∧ (x ∉ after ∧ after.Nodup) ∧ List.Disjoint before (x :: after) := by
    simpa [List.nodup_append'] using nodup
  have new : x ∉ before := fun earlier => apart earlier List.mem_cons_self
  rw [List.flatMap_append, List.flatMap_cons, List.map_append, List.map_append, List.count_append, List.count_append,
    count_links_of_absent new, count_links_of_absent new', count_edgesGiven, Nat.zero_add, Nat.add_zero]

theorem count_given (forest : g.IsForest) (x c : ScopeId) (kind : EdgeKind) :
    g.linksGiven.count ⟨x, c, kind⟩ = (g.targetsGiven x kind).count c := by
  by_cases listed : x ∈ g.scopes.map (·.1)
  · exact count_links g.nodup_scopes listed c kind
  · have gone : g.get? x = none := by
      cases found : g.get? x with
      | none => rfl
      | some s => exact absurd (List.mem_map.mpr ⟨(x, s), mem_scopes.mpr found, rfl⟩) listed
    have none : g.targetsGiven x kind = [] := by
      cases kind with
      | calls => exact forest.targetsGiven_calls (by simp [gone])
      | inherits => exact targetsGiven_inherits (by simp [gone])
    rw [linksGiven, given, count_links_of_absent listed, none]
    rfl

end Counted

section Placed

theorem mem_answer {q : Except Fault (List ScopeId)} : c ∈ q.toOption.getD [] ↔ ∃ found, q = .ok found ∧ c ∈ found := by
  cases q with
  | ok found => simp [Except.toOption]
  | error fault => simp [Except.toOption]

theorem nodup_answer {fails : Prop} {fit : Scope → Prop} {q : Except Fault (List ScopeId)}
    (yields : Yields fails (g.Finds fit) q) : (q.toOption.getD []).Nodup := by
  cases q with
  | ok found => exact Finds.once yields
  | error fault => exact List.nodup_nil

theorem count_flatMap_of_nodup {α : Type} (l : List α) {answer : α → List ScopeId} (once : ∀ a ∈ l, (answer a).Nodup) :
    (l.flatMap answer).count c = (l.filter (c ∈ answer ·)).length := by
  induction l with
  | nil => rfl
  | cons a rest ih =>
    obtain ⟨here, later⟩ := List.forall_mem_cons.mp once
    rw [List.flatMap_cons, List.count_append, here.count, ih later, List.filter_cons]
    by_cases member : c ∈ answer a
    · simp [member, Nat.add_comm]
    · simp [member]

theorem encard_of_nodup {α : Type} [DecidableEq α] {l : List α} (once : l.Nodup) : {a | a ∈ l}.encard = l.length := by
  rw [← List.coe_toFinset, Set.encard_coe_eq_coe_finsetCard, List.toFinset_card_of_nodup once]

theorem mem_calleesFound {call : Call} : c ∈ g.calleesFound call ↔ ∃ found, call.candidates g = .ok found ∧ c ∈ found :=
  mem_answer

theorem callSites_eq (forest : g.IsForest) (m c : ScopeId) :
    g.callSites m c = {site | site ∈ ((g.ownCalls m).filter (c ∈ g.calleesFound ·.2)).map Prod.fst} := by
  ext site
  simp only [callSites, Set.mem_ofPred_eq, List.mem_map, List.mem_filter, decide_eq_true_eq, Prod.exists,
    forest.mem_ownCalls, mem_calleesFound]
  constructor
  · rintro ⟨part, s, call, found, live, written, answer, member⟩
    exact ⟨site.1, site.2, call, ⟨⟨part, s, live, written⟩, found, answer, member⟩, rfl⟩
  · rintro ⟨x, i, call, ⟨⟨part, s, live, written⟩, found, answer, member⟩, rfl⟩
    exact ⟨part, s, call, found, live, written, answer, member⟩

variable {strict : Prop} {f : Forest}

theorem AtRest.encard_callSites (rest : g.AtRest strict f) (m c : ScopeId) :
    (g.callSites m c).encard = g.linksGiven.count ⟨m, c, .calls⟩ := by
  have tree := rest.isOneTree
  have forest := rest.picture.isForest
  have once : ∀ e ∈ g.ownCalls m, (g.calleesFound e.2).Nodup :=
    fun e _ => nodup_answer (tree.yields_callCandidates tree.findsParents_unless_tangled e.2)
  rw [count_given forest, targetsGiven, count_flatMap_of_nodup _ once, callSites_eq forest, encard_of_nodup, List.length_map]
  exact (forest.nodup_ownCalls m).sublist (List.filter_sublist.map Prod.fst)

theorem AtRest.count_inherits (rest : g.AtRest strict f) (t p : ScopeId) :
    g.linksGiven.count ⟨t, p, .inherits⟩ = if p ∈ g.parentsFound t then 1 else 0 := by
  have tree := rest.isOneTree
  have once : (g.parentsFound t).Nodup := nodup_answer (tree.yields_parents tree.findsParents_unless_tangled t)
  rw [count_given rest.picture.isForest, targetsGiven, once.count]

theorem mem_edgesFrom_given {n : Nat} {kind : EdgeKind} :
    ⟨x, c, kind, n⟩ ∈ g.countedLinks.edgesFrom x ↔
      0 < g.linksGiven.count ⟨x, c, kind⟩ ∧ n = g.linksGiven.count ⟨x, c, kind⟩ := by
  rw [CallGraph.mem_edgesFrom, and_iff_left rfl, Edge.mem_tally, total_given, List.count_pos_iff]
  rfl

theorem AtRest.mem_calls (rest : g.AtRest strict f) {n : Nat} :
    ⟨m, c, .calls, n⟩ ∈ g.countedLinks.edgesFrom m ↔
      (g.callSites m c).Nonempty ∧ (g.callSites m c).encard = n := by
  rw [mem_edgesFrom_given, ← Set.encard_pos, rest.encard_callSites]
  norm_cast
  rw [@eq_comm _ n]

theorem AtRest.mem_inherits (rest : g.AtRest strict f) {t p : ScopeId} {n : Nat} :
    ⟨t, p, .inherits, n⟩ ∈ g.countedLinks.edgesFrom t ↔
      (∃ found, g.parents t = .ok found ∧ p ∈ found) ∧ n = 1 := by
  have known : p ∈ g.parentsFound t ↔ ∃ found, g.parents t = .ok found ∧ p ∈ found := mem_answer
  rw [mem_edgesFrom_given, rest.count_inherits, ← known]
  by_cases inherits : p ∈ g.parentsFound t <;> simp [inherits]

theorem encard_of_disjoint {edges : List (Edge Nat)} (places : Edge Nat → Set (ScopeId × Nat))
    (apart : edges.Pairwise fun a b => Disjoint (places a) (places b)) (counted : ∀ e ∈ edges, (places e).encard = e.count) :
    {site | ∃ e ∈ edges, site ∈ places e}.encard = (edges.map (·.count)).sum := by
  induction edges with
  | nil => simp
  | cons e rest ih =>
    obtain ⟨here, apart⟩ := List.pairwise_cons.mp apart
    obtain ⟨one, counted⟩ := List.forall_mem_cons.mp counted
    have split : {site | ∃ a ∈ e :: rest, site ∈ places a} = places e ∪ {site | ∃ a ∈ rest, site ∈ places a} := by
      ext site
      simp
    have away : Disjoint (places e) {site | ∃ a ∈ rest, site ∈ places a} := by
      rw [Set.disjoint_left]
      rintro site first ⟨a, member, second⟩
      exact Set.disjoint_left.mp (here a member) first second
    rw [split, Set.encard_union_eq away, one, ih apart counted, List.map_cons, List.sum_cons, Nat.cast_add]

-- No place counts at two methods, so that the edges to a method count all places where it may be called.
theorem AtRest.sum_calls (rest : g.AtRest strict f) (c : ScopeId) :
    (((g.countedLinks.edgesTo c).filter (·.kind == .calls)).map (·.count)).sum =
      {site | ∃ m, site ∈ g.callSites m c}.encard := by
  have member (e : Edge Nat) : e ∈ (g.countedLinks.edgesTo c).filter (·.kind == .calls) ↔
      e ∈ g.countedLinks.edgesFrom e.source ∧ e.target = c ∧ e.kind = .calls := by
    rw [List.mem_filter, CallGraph.mem_edgesTo, CallGraph.mem_edgesFrom, beq_iff_eq, and_iff_left rfl, and_assoc]
  have once : (((g.countedLinks.edgesTo c).filter (·.kind == .calls)).map Edge.link).Nodup := by
    refine (Edge.nodup_tally g.given).sublist (List.Sublist.map Edge.link (List.filter_sublist.trans ?_))
    rw [CallGraph.edgesTo, (CallGraph.ofEdges_shows g.given).incoming]
    exact List.filter_sublist
  rw [← encard_of_disjoint fun e => g.callSites e.source c]
  · congr 1
    ext site
    constructor
    · rintro ⟨e, -, inside⟩
      exact ⟨e.source, inside⟩
    · rintro ⟨m, inside⟩
      have counted := rest.encard_callSites m c
      exact ⟨_, (member _).mpr ⟨rest.mem_calls.mpr ⟨⟨site, inside⟩, counted⟩, rfl, rfl⟩, inside⟩
  · rw [List.Nodup, List.pairwise_map] at once
    refine once.imp_of_mem ?_
    intro a b first second other
    obtain ⟨-, target, kind⟩ := (member a).mp first
    obtain ⟨-, target', kind'⟩ := (member b).mp second
    rw [Set.disjoint_left]
    rintro site ⟨part, -⟩ ⟨part', -⟩
    refine other ?_
    rw [Edge.link, Edge.link, part.unique part', target, target', kind, kind']
  · rintro ⟨m, c', kind, n⟩ listed
    obtain ⟨stored, target, kind⟩ := (member _).mp listed
    cases target
    cases kind
    exact (rest.mem_calls.mp stored).2

end Placed

end Graph

-- In a graph that was reached and in which the searches end: a method calls another by as many uses as there are places
-- in its own code whose call may reach it, with no edge where there is none; a type inherits once from each of its
-- parents. A place is in the code of one method only, and the edges to a method count each place where it may be called
-- once.
theorem CallGraph.build_counts_places {g : Graph} {admits : Element → Prop} (reached : g.Reached admits)
    (ends : g.LookupsEnd) :
    ∃ links : CallGraph Nat, CallGraph.build g = .ok links ∧
      CallGraph.build g = .ok (links.recount UInt64.ofNat) ∧
      (∀ m c (n : Nat), ⟨m, c, .calls, n⟩ ∈ links.edgesFrom m ↔ (g.callSites m c).Nonempty ∧ (g.callSites m c).encard = n) ∧
      (∀ t p n, ⟨t, p, .inherits, n⟩ ∈ links.edgesFrom t ↔ (∃ found, g.parents t = .ok found ∧ p ∈ found) ∧ n = 1) ∧
      (∀ m m' x, g.IsPartOf m x → g.IsPartOf m' x → m = m') ∧
      ∀ c, (((links.edgesTo c).filter (·.kind == .calls)).map (·.count)).sum =
        {site | ∃ m, site ∈ g.callSites m c}.encard := by
  obtain ⟨f, rest⟩ := reached.exists_atRest
  exact ⟨_, rest.build_eq ends, rest.build_eq_recount ends, fun _ _ _ => rest.mem_calls, fun _ _ _ => rest.mem_inherits,
    fun _ _ _ => Graph.IsPartOf.unique, rest.sum_calls⟩

-- `class Base {}; void c() {} void b() { c(); if (…) { c(); } class Local : Base { void d() { c(); } }; }`
def nestedUnit : Element :=
  let call := Content.written "expr_stmt" (.written "expr"
    (.written "call" (.name "c" (.written "argument_list" .nil .nil)) .nil) .nil)
  let function := fun (name : String) (body rest : Content) => Content.written "function" (.written "type" (.name "void" .nil)
    (.name name (.written "parameter_list" .nil (.written "block" body .nil)))) rest
  let inner := Graph.heir "Local" (.name "Base" .nil) (function "d" (call .nil) .nil) .nil
  Graph.heirUnit (Graph.heir "Base" .nil .nil (function "c" .nil
    (function "b" (call (.written "if" (.written "then" (.written "block" (call .nil) .nil) .nil) inner)) .nil)))

-- The call of the local method is below the outer one and counts at its own method only.
theorem nested_calls_counted :
    ∃ (g : Graph) (links : CallGraph Nat), surveyUnit .cPlusPlus nestedUnit = .ok g ∧ g.LookupsEnd ∧ CallGraph.build g = .ok links ∧
      (g.callSites 3 2).encard = 2 ∧ (g.callSites 7 2).encard = 1 ∧ {site | ∃ m, site ∈ g.callSites m 2}.encard = 3 ∧
      ∃ found, g.parents 6 = .ok found ∧ 1 ∈ found := by
  obtain ⟨g, surveyed, tested⟩ := @surveyed_single .cPlusPlus nestedUnit
    (fun g => (g.scopes.all fun e => (g.parents e.1).toOption.isSome &&
        e.2.calls.all fun call => (call.candidates g).toOption.isSome) &&
      ((CallGraph.build g).map fun links : CallGraph Nat => [3, 6, 7].map links.edgesFrom ++ [links.edgesTo 2]).toOption ==
        some [[⟨3, 2, .calls, 2⟩], [⟨6, 1, .inherits, 1⟩], [⟨7, 2, .calls, 1⟩], [⟨3, 2, .calls, 2⟩, ⟨7, 2, .calls, 1⟩]])
    (by decide +kernel)
  simp only [Bool.and_eq_true, beq_iff_eq] at tested
  obtain ⟨answered, linked⟩ := tested
  have ends := Graph.LookupsEnd.of_all answered
  have reached : g.Reached fun _ => True := .surveyed trivial surveyed
  obtain ⟨links, built, -, calls, inherits, -, total⟩ := CallGraph.build_counts_places reached ends
  simp only [built, Except.map, Except.toOption, List.map_cons, List.map_nil, List.cons_append, List.nil_append,
    Option.some.injEq, List.cons.injEq, and_true] at linked
  obtain ⟨outer, type, inner, callers⟩ := linked
  refine ⟨g, links, surveyed, ends, built, ((calls 3 2 2).mp ?_).2, ((calls 7 2 1).mp ?_).2, ?_, ((inherits 6 1 1).mp ?_).1⟩
  · simp [outer]
  · simp [inner]
  · rw [← total 2, callers]
    rfl
  · simp [type]

end ScopeAtlas
