import ScopeAtlas.Proofs.Runs
import ScopeAtlas.Proofs.Shares

namespace ScopeAtlas

namespace Holding

def sum : List Holding → Holding
  | [] => nothing
  | a :: rest => a ++ sum rest

theorem sum_append (front back : List Holding) : sum (front ++ back) = sum front ++ sum back := by
  induction front with
  | nil => rfl
  | cons a rest ih => rw [List.cons_append, sum, sum, ih, append_assoc]

theorem mem_locations_sum {l : Location} {parts : List Holding} :
    l ∈ (sum parts).locations ↔ ∃ a ∈ parts, l ∈ a.locations := by
  induction parts with
  | nil => simp [sum, nothing]
  | cons a rest ih =>
    change l ∈ a.locations ++ (sum rest).locations ↔ _
    rw [List.mem_append, ih, List.exists_mem_cons_iff]

end Holding

namespace Codebase

variable {tools : Tools} {e : Element} {path : List Key} {ledger : List Element} {file : String}

def unitHolding (tools : Tools) (path : List Key) (e : Element) : Option Holding :=
  match survey tools e with
  | .ok new => new.graph.holdingAt path
  | .error _ => none

-- What the units of a ledger write about it, one by one.
def parts (tools : Tools) (ledger : List Element) (path : List Key) : List Holding := ledger.filterMap (unitHolding tools path)

-- What they write about it in all; the root is there in any case.
def gathered (tools : Tools) (ledger : List Element) (path : List Key) : Option Holding :=
  if path = Forest.rootPath ∨ parts tools ledger path ≠ [] then some (.sum (parts tools ledger path)) else none

theorem gathered_of_some {tools : Tools} {held : Holding} (some : gathered tools ledger path = .some held) :
    held = .sum (parts tools ledger path) := by
  unfold gathered at some
  split at some
  · exact (Option.some.inj some).symm
  · cases some

theorem gathered_eq_none : gathered tools ledger path = none ↔
    path ≠ Forest.rootPath ∧ parts tools ledger path = [] := by
  unfold gathered
  simp

theorem unitHolding_within {held : Holding} (some : unitHolding tools path e = .some held) :
    held.Within (· = e.fileName) ∧ held.locations ≠ [] := by
  unfold unitHolding at some
  cases surveyed : survey tools e with
  | error fault =>
    rw [surveyed] at some
    cases some
  | ok new =>
    rw [surveyed] at some
    obtain ⟨-, -, p, graph⟩ := survey_ok surveyed
    obtain ⟨h, rest⟩ := Graph.atRest_surveyed False.elim graph
    have found : new.graph.holdingAt path = .some held := some
    rw [rest.holdingAt] at found
    obtain ⟨t, there, rfl⟩ := Option.map_eq_some_iff.mp found
    have sees : ∀ other, t.isIn other = true → other = e.fileName := fun other seen =>
      Graph.surveyed_sees graph (rest.sees_of_scopeAt there seen)
    refine ⟨(rest.sound_of_scopeAt there).1.within.mono sees, ?_⟩
    obtain ⟨⟨x, t, below⟩, place, rfl⟩ := Option.map_eq_some_iff.mp there
    have places : (t.linked _ _).locations ≠ [] := Graph.surveyed_locations graph (rest.of_at? place).1
    exact places

-- Without a file the sum is that of the other units.
theorem keep_sum (tools : Tools) (path : List Key) (ledger : List Element) (file : String) :
    (Holding.sum (parts tools ledger path)).keep (· != file) = .sum (parts tools (ledger.filter (·.fileName ≠ file)) path) := by
  unfold parts
  induction ledger with
  | nil => rfl
  | cons e rest ih =>
    cases part : unitHolding tools path e with
    | none =>
      rw [List.filterMap_cons_none part, ih, List.filter_cons]
      split
      · rw [List.filterMap_cons_none part]
      · rfl
    | some held =>
      have within := (unitHolding_within part).1
      rw [List.filterMap_cons_some part, Holding.sum, Holding.keep_append, ih]
      by_cases same : e.fileName = file
      · have none : held.keep (· != file) = .nothing :=
          within.keep_eq_nothing fun other own => by simp [own, same]
        rw [List.filter_cons_of_neg (by simp [same]), none, Holding.nothing_append]
      · have all : held.keep (· != file) = held := within.keep_eq_self fun other own => by simp [own, same]
        rw [List.filter_cons_of_pos (by simp [same]), List.filterMap_cons_some part, all, Holding.sum]

theorem mem_gathered_locations {l : Location} :
    l ∈ (Holding.sum (parts tools ledger path)).locations →
      ∃ e ∈ ledger, l.file = e.fileName ∧ unitHolding tools path e ≠ none := by
  intro member
  obtain ⟨held, listed, place⟩ := Holding.mem_locations_sum.mp member
  obtain ⟨e, inForce, part⟩ := List.mem_filterMap.mp listed
  exact ⟨e, inForce, (unitHolding_within part).1.locations l place, by simp [part]⟩

-- The graph of a codebase, as a tree that holds what the units of the ledger contribute.
structure Gathers (c : Codebase) (ledger : List Element) (f : Forest) : Prop where
  remembers : c.Remembers ledger
  rest : c.graph.AtRest True f
  holds : ∀ path, (f.scopeAt path).map Scope.holding = gathered c.tools ledger path

variable {c : Codebase} {f h : Forest} {s : Scope}

theorem gathers_nothing (tools : Tools) : Gathers { tools := tools } [] (.tree Graph.empty.root .global .nil .nil) where
  remembers := remembers_nothing tools
  rest := Graph.atRest_empty True
  holds path := by
    have root : Scope.global.holding = .nothing := rfl
    have empty : parts tools [] path = [] := rfl
    rw [gathered, empty]
    unfold Forest.scopeAt
    rcases path with _ | ⟨k, _ | ⟨k', path⟩⟩
    · rfl
    · by_cases top : Scope.global.key = k
      · simp [Forest.at?, Forest.find, top, Forest.rootPath, root, Holding.sum]
      · simp [Forest.at?, Forest.find, top, Forest.rootPath, Ne.symm top]
    · have below : Forest.nil.at? (k' :: path) = none := by cases path <;> rfl
      by_cases top : Scope.global.key = k <;> simp [Forest.at?, Forest.find, top, Forest.rootPath, below]

theorem Gathers.holding_eq (gathers : c.Gathers ledger f) (found : f.scopeAt path = some s) :
    s.holding = .sum (parts c.tools ledger path) := by
  have holds := gathers.holds path
  rw [found] at holds
  exact gathered_of_some holds.symm

theorem Gathers.sees (gathers : c.Gathers ledger f) (sees : c.graph.Sees file) : ∃ e ∈ ledger, e.fileName = file := by
  obtain ⟨x, s, found, seen⟩ := sees
  obtain ⟨t, below, there⟩ := gathers.rest.at?_keyPath found
  obtain ⟨same, -⟩ := gathers.rest.of_at? there
  rw [found] at same
  have inside : t.isIn file = true := by
    rw [Option.some.inj same] at seen
    exact seen
  have found' : f.scopeAt (c.graph.keyPath x) = some t := by rw [Forest.scopeAt, there, Option.map_some]
  obtain ⟨l, member, rfl⟩ := Scope.isIn_iff.mp inside
  have listed : l ∈ t.holding.locations := member
  rw [gathers.holding_eq found'] at listed
  obtain ⟨e, inForce, own, -⟩ := mem_gathered_locations listed
  exact ⟨e, inForce, own.symm⟩

-- A scope is known from elsewhere if a unit of another file writes about it.
theorem Gathers.isOutside_iff (gathers : c.Gathers ledger f) (found : f.scopeAt path = some s) :
    s.isOutside file = true ↔ parts c.tools (ledger.filter (·.fileName ≠ file)) path ≠ [] := by
  have locations := congrArg Holding.locations (gathers.holding_eq found)
  change s.locations = _ at locations
  rw [Scope.isOutside_iff, locations]
  constructor
  · rintro ⟨l, member, other⟩
    obtain ⟨e, inForce, own, some⟩ := mem_gathered_locations member
    obtain ⟨held, part⟩ := Option.ne_none_iff_exists'.mp some
    refine List.ne_nil_of_mem (List.mem_filterMap.mpr ⟨e, List.mem_filter.mpr ⟨inForce, ?_⟩, part⟩)
    simpa [← own] using other
  · intro some
    obtain ⟨held, listed⟩ := List.exists_mem_of_ne_nil _ some
    obtain ⟨e, kept, part⟩ := List.mem_filterMap.mp listed
    obtain ⟨inForce, other⟩ := List.mem_filter.mp kept
    obtain ⟨within, places⟩ := unitHolding_within part
    obtain ⟨l, place⟩ := List.exists_mem_of_ne_nil _ places
    refine ⟨l, Holding.mem_locations_sum.mpr ⟨held, List.mem_filterMap.mpr ⟨e, inForce, part⟩, place⟩, ?_⟩
    rw [within.locations l place]
    simpa using other

theorem Gathers.retract (gathers : c.Gathers ledger f) (file : String) :
    (c.retract file).Gathers (ledger.filter (·.fileName ≠ file)) (f.withdrawBelow file) where
  remembers := @Remembers.happen _ _ gathers.remembers (.dropped file) trivial
  rest := gathers.rest.withdrawAndRehome file
  holds path := by
    have holds := gathers.holds path
    have tools : (c.retract file).tools = c.tools := rfl
    rw [gathers.rest.rooted.scopeAt_withdrawBelow gathers.rest.distinct, tools]
    cases found : f.scopeAt path with
    | none =>
      rw [found] at holds
      obtain ⟨other, none⟩ := gathered_eq_none.mp holds.symm
      have fewer : parts c.tools (ledger.filter (·.fileName ≠ file)) path = [] :=
        List.sublist_nil.mp (none ▸ List.filter_sublist.filterMap _)
      exact (gathered_eq_none.mpr ⟨other, fewer⟩).symm
    | some s =>
      have stays := @Gathers.isOutside_iff path ledger file c f s gathers found
      have left : (s.withdraw file).holding = .sum (parts c.tools (ledger.filter (·.fileName ≠ file)) path) := by
        rw [(gathers.rest.sound_of_scopeAt found).1.holding_withdraw, gathers.holding_eq found, keep_sum]
      unfold gathered
      simp only [← stays, ← left]
      by_cases top : path = Forest.rootPath
      · simp [Option.filter_some, top]
      · cases outside : s.isOutside file <;> simp [Option.filter_some, top, outside]

theorem Gathers.bringIn {new : Contribution} (gathers : c.Gathers ledger f) (surveyed : survey c.tools e = .ok new)
    (right : new.graph.AtRest True h) (fresh : ∀ e' ∈ ledger, e'.fileName ≠ e.fileName) :
    (c.bringIn new).Gathers (ledger ++ [e]) (f.merged c.graph.size h) := by
  obtain ⟨own, -, p, graph⟩ := survey_ok surveyed
  -- The file is new to the ledger, so nothing is withdrawn before the merge.
  have unknown : ¬ (c.fingerprints.lookup new.file).isSome = true := by
    rw [gathers.remembers.fingerprints, lookup_fingerprints, own]
    rintro ⟨e', listed, same⟩
    exact fresh e' listed same
  have graph_eq : (c.bringIn new).graph = c.graph.mergeLive new.graph := by rw [graph_bringIn, if_neg unknown]
  have tools : (c.bringIn new).tools = c.tools := by rw [← takeIn_eq surveyed, tools_takeIn]
  have apart : ∀ file, c.graph.Sees file → ¬ new.graph.Sees file := by
    intro file here there
    obtain ⟨e', listed, same⟩ := gathers.sees here
    exact fresh e' listed (same.trans (Graph.surveyed_sees graph there))
  refine ⟨?_, ?_, ?_⟩
  · have remembers := @Remembers.happen _ _ gathers.remembers (.taken e) ⟨new, surveyed⟩
    have kept : ledger.filter (·.fileName ≠ e.fileName) = ledger := List.filter_eq_self.mpr (by simpa using fresh)
    rw [Event.record, kept] at remembers
    exact takeIn_eq surveyed ▸ remembers
  · rw [graph_eq]
    exact gathers.rest.mergeLive right
  · intro path
    obtain ⟨rename, rename', united⟩ := gathers.rest.scopeAt_merged right
    have holds := gathers.holds path
    have part : unitHolding c.tools path e = (h.scopeAt path).map Scope.holding := by
      rw [unitHolding, surveyed, ← right.holdingAt]
    have parts_eq : parts c.tools (ledger ++ [e]) path =
        parts c.tools ledger path ++ ((h.scopeAt path).map Scope.holding).toList := by
      rw [← part, parts, List.filterMap_append]
      cases part : unitHolding c.tools path e <;> simp [parts, part]
    rw [tools, united path, gathered, parts_eq]
    -- At each path the unit says nothing, or it is the first to say something, or it adds to what is said.
    cases there : h.scopeAt path with
    | none =>
      rw [Option.map_none, Option.map_none, Option.toList_none, List.append_nil]
      refine Eq.trans ?_ holds
      cases f.scopeAt path <;> simp [Scope.holding_rebind]
    | some t =>
      cases here : f.scopeAt path with
      | none =>
        rw [here] at holds
        obtain ⟨-, none⟩ := gathered_eq_none.mp holds.symm
        simp [none, Scope.holding_rebind, Holding.sum]
      | some s =>
        obtain ⟨sound, -⟩ := gathers.rest.sound_of_scopeAt here
        obtain ⟨sound', tidy⟩ := right.sound_of_scopeAt there
        obtain ⟨apart', key⟩ := gathers.rest.meet_scopes right apart here there
        have joined := @Scope.Apart.holding_unite (s.rebind rename) (t.rebind rename') apart' (sound.rebind rename)
          (sound'.rebind rename') ((tidy trivial).rebind rename') (by simpa using key)
        simp only [Scope.holding_rebind, gathers.holding_eq here] at joined
        simp [joined, Holding.sum_append, Holding.sum]

theorem Gathers.scopeAt_retract (gathers : c.Gathers ledger f) {s' : Scope}
    (found : (f.withdrawBelow file).scopeAt path = some s') : ∃ s, f.scopeAt path = some s ∧ s' = s.withdraw file := by
  rw [gathers.rest.rooted.scopeAt_withdrawBelow gathers.rest.distinct] at found
  obtain ⟨s, stays, rfl⟩ := Option.map_eq_some_iff.mp found
  exact ⟨s, (Option.filter_eq_some_iff.mp stays).1, rfl⟩

def cleared (c : Codebase) (file : String) : Codebase :=
  if (c.fingerprints.lookup file).isSome then c.retract file else c

theorem bringIn_cleared (c : Codebase) (new : Contribution) : c.bringIn new = (c.cleared new.file).bringIn new := by
  have gone : ¬ ((c.cleared new.file).fingerprints.lookup new.file).isSome = true := by
    unfold cleared
    split
    · simp [retract, lookup_filter_ne]
    · assumption
  unfold bringIn
  rw [if_neg gone]
  rfl

@[simp] theorem tools_cleared (c : Codebase) (file : String) : (c.cleared file).tools = c.tools := by
  unfold cleared
  split <;> rfl

theorem Gathers.cleared (gathers : c.Gathers ledger f) (file : String) :
    ∃ f', (c.cleared file).Gathers (ledger.filter (·.fileName ≠ file)) f' ∧
      ∀ path s', f'.scopeAt path = some s' → ∃ s, f.scopeAt path = some s ∧ s' = s.withdraw file := by
  unfold Codebase.cleared
  split
  · exact ⟨_, gathers.retract file, fun path s' => gathers.scopeAt_retract⟩
  · rename_i unknown
    rw [gathers.remembers.fingerprints, lookup_fingerprints] at unknown
    have others : ∀ e ∈ ledger, e.fileName ≠ file := fun e listed same => unknown ⟨e, listed, same⟩
    have kept : ledger.filter (·.fileName ≠ file) = ledger := List.filter_eq_self.mpr (by simpa using others)
    rw [kept]
    refine ⟨f, gathers, fun path s found => ⟨s, found, ?_⟩⟩
    -- the file has left no trace
    refine ((gathers.rest.sound_of_scopeAt found).1.withdraw_eq_self (Bool.eq_false_iff.mpr fun seen => ?_)).symm
    exact unknown (gathers.sees (gathers.rest.sees_of_scopeAt found seen))

theorem Gathers.happen (gathers : c.Gathers ledger f) {event : Event} (admitted : event.Admitted c.tools)
    (distinct : ∀ e, event = .taken e → e.Distinct) : ∃ f', (c.happen event).Gathers (event.record ledger) f' := by
  cases event with
  | dropped file => exact ⟨_, gathers.retract file⟩
  | taken e =>
    obtain ⟨new, surveyed⟩ := admitted
    obtain ⟨own, -, p, graph⟩ := survey_ok surveyed
    obtain ⟨f', without, -⟩ := gathers.cleared e.fileName
    obtain ⟨h, right⟩ := Graph.atRest_surveyed (fun _ => distinct e rfl) graph
    refine ⟨f'.merged (c.cleared e.fileName).graph.size h, ?_⟩
    change (c.takeIn e).Gathers _ _
    rw [takeIn_eq surveyed, bringIn_cleared, own]
    refine without.bringIn (by simpa using surveyed) right ?_
    intro e' listed
    simpa using (List.mem_filter.mp listed).2

theorem Gathers.foldl_happen {events : List Event} (gathers : c.Gathers ledger f)
    (admitted : ∀ event ∈ events, event.Admitted c.tools) (distinct : ∀ e, .taken e ∈ events → e.Distinct) :
    ∃ f', (events.foldl Codebase.happen c).Gathers (events.foldl Event.record ledger) f' := by
  induction events generalizing c ledger f with
  | nil => exact ⟨f, gathers⟩
  | cons event later ih =>
    obtain ⟨first, others⟩ := List.forall_mem_cons.mp admitted
    obtain ⟨f', gathers'⟩ := gathers.happen first fun e same => distinct e (same ▸ List.mem_cons_self)
    exact ih gathers' (tools_happen c event ▸ others) fun e listed => distinct e (List.mem_cons_of_mem _ listed)

theorem served_gathers (tools : Tools) (requests : List Request) (distinct : ∀ e, .taken e ∈ history tools requests → e.Distinct) :
    ∃ f, (served tools requests).Gathers (Codebase.ledger tools requests) f := by
  rw [served_eq]
  exact (gathers_nothing tools).foldl_happen (admitted_history tools requests) distinct

-- Whatever is asked of a codebase, its graph is reached by surveying, merging and withdrawing.
theorem reached_happen (reached : c.graph.Reached fun _ => True) (event : Event) :
    (c.happen event).graph.Reached fun _ => True := by
  obtain ⟨f, rest⟩ := @Graph.Reached.atRest False _ _ reached fun _ => False.elim
  have withdrawn : ∀ file, (c.graph.withdrawAndRehome file).Reached fun _ => True :=
    fun file => .withdrawn reached (rest.withdraw_eq file)
  cases event with
  | dropped file => exact withdrawn file
  | taken e =>
    change (c.takeIn e).graph.Reached fun _ => True
    unfold takeIn
    cases surveyed : survey c.tools e with
    | error fault => exact reached
    | ok new =>
      obtain ⟨-, -, p, graph⟩ := survey_ok surveyed
      have right : new.graph.Reached fun _ => True := .surveyed trivial graph
      obtain ⟨h, rest'⟩ := @Graph.Reached.atRest False _ _ right fun _ => False.elim
      dsimp only
      rw [graph_bringIn]
      split
      · exact .merged (withdrawn _) right ((rest.withdrawAndRehome _).merge_eq rest')
      · exact .merged reached right (rest.merge_eq rest')

theorem reached_served (tools : Tools) (requests : List Request) : (served tools requests).graph.Reached fun _ => True := by
  rw [served_eq]
  refine List.foldlRecOn _ _ (motive := fun c : Codebase => c.graph.Reached fun _ => True) .empty ?_
  exact fun c reached event _ => reached_happen reached event

def fresh (tools : Tools) (units : List Element) : Codebase := served tools (units.map .update)

theorem fresh_eq {units : List Element} (differ : units.Pairwise fun e e' => e.fileName ≠ e'.fileName) (tools : Tools) :
    fresh tools units = units.foldl takeIn { tools := tools } := by
  have all : units.filter (status { tools := tools } · ≠ .unchanged) = units :=
    List.filter_eq_self.mpr fun e _ => by simp [status]
  have updates := @foldl_updateOrKeep units differ { tools := tools }
  rw [all] at updates
  rw [fresh, served, List.foldl_map]
  exact updates

theorem foldl_record_taken {units : List Element} (differ : units.Pairwise fun e e' => e.fileName ≠ e'.fileName) :
    (units.map Event.taken).foldl Event.record [] = units := by
  induction units using List.reverseRecOn with
  | nil => rfl
  | append_singleton units e ih =>
    obtain ⟨before, -, others⟩ := List.pairwise_append.mp differ
    have kept : units.filter (·.fileName ≠ e.fileName) = units :=
      List.filter_eq_self.mpr fun e' listed => by simpa using others e' listed e List.mem_cons_self
    rw [List.map_append, List.foldl_append, ih before, List.map_singleton, List.foldl_cons, List.foldl_nil,
      Event.record, kept]

theorem fresh_gathers {units : List Element} (differ : units.Pairwise fun e e' => e.fileName ≠ e'.fileName)
    (surveyed : ∀ e ∈ units, ∃ new, survey tools e = .ok new) (distinct : ∀ e ∈ units, e.Distinct) :
    ∃ f, (fresh tools units).Gathers units f := by
  have gathers := @Gathers.foldl_happen [] { tools := tools } _ (units.map Event.taken) (gathers_nothing tools)
  rw [foldl_record_taken differ, foldl_happen_taken, ← fresh_eq differ] at gathers
  refine gathers ?_ ?_
  · intro event member
    obtain ⟨e, listed, rfl⟩ := List.mem_map.mp member
    exact surveyed e listed
  · intro e member
    obtain ⟨e', listed, same⟩ := List.mem_map.mp member
    cases same
    exact distinct e listed

end Codebase

end ScopeAtlas
