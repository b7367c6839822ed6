import ScopeAtlas.Proofs.Invariants

namespace ScopeAtlas

namespace Scope

-- What an id stands for: the sort and name of its scope, and for a method its flags and the names of its parameter types.
structure Identity where
  category : Category
  name : String
  method : Option (Bool × Bool × List String)
deriving DecidableEq, Repr

def identity (s : Scope) : Identity where
  category := s.category
  name := s.name
  method := s.method?.map fun m => (m.isConstructor, m.isDestructor, m.parameterTypeNames)

variable (mine theirs s : Scope)

theorem identity_unite : (mine.unite theirs).identity = mine.identity := by
  unfold identity category method?
  rw [unite_kind, unite_name]
  cases mine.kind <;> cases theirs.kind <;>
    simp [ScopeKind.unite, ScopeKind.category, MethodDefinition.unite, MethodDefinition.parameterTypeNames,
      uniteAll_typeNames]

theorem identity_rebind (rename : ScopeId → ScopeId) : (s.rebind rename).identity = s.identity := by
  unfold identity category method? Scope.rebind
  cases s.kind <;>
    simp [ScopeKind.rebind, ScopeKind.category, MethodDefinition.rebind, MethodDefinition.parameterTypeNames,
      Parameter.rebind, Function.comp_def]

theorem identity_withdraw (file : String) : (s.withdraw file).identity = s.identity := by
  unfold identity category method? Scope.withdraw
  cases s.kind <;>
    simp [withdrawKind, ScopeKind.category, MethodDefinition.parameterTypeNames, Function.comp_def]

def Alike (s t : Scope) : Prop := s.category = t.category ∧ s.name = t.name

theorem alike_of_identity {s t : Scope} (same : s.identity = t.identity) : s.Alike t :=
  ⟨congrArg Identity.category same, congrArg Identity.name same⟩

theorem Alike.trans {s t u : Scope} (first : s.Alike t) (second : t.Alike u) : s.Alike u :=
  ⟨first.1.trans second.1, first.2.trans second.2⟩

theorem Alike.symm {s t : Scope} (alike : s.Alike t) : t.Alike s := ⟨alike.1.symm, alike.2.symm⟩

theorem alike_of_sameEntity {s t : Scope} (same : s.sameEntity t = true) : s.Alike t := by
  simp only [sameEntity, Bool.and_eq_true, beq_iff_eq] at same
  exact same.1

end Scope

namespace Graph

variable {g h k : Graph} {id : ScopeId}

-- A later state of a graph: no id that was dead is live, and a live one stands for what it did.
structure Continues (g h : Graph) : Prop where
  size : g.size ≤ h.size
  root : h.root = g.root
  dead : ∀ id, id < g.size → g.get? id = none → h.get? id = none
  same : ∀ id s t, g.get? id = some s → h.get? id = some t → t.identity = s.identity

-- The same ids are live and stand for the same; only contents and links may differ.
structure Relinks (g h : Graph) : Prop where
  size : h.size = g.size
  root : h.root = g.root
  same : ∀ id, (h.get? id).map Scope.identity = (g.get? id).map Scope.identity

theorem Continues.refl (g : Graph) : g.Continues g := by
  refine ⟨Nat.le_refl _, rfl, fun _ _ dead => dead, ?_⟩
  intro id s t found found'
  rw [found] at found'
  cases found'
  rfl

theorem Continues.trans (first : g.Continues h) (second : h.Continues k) : g.Continues k where
  size := Nat.le_trans first.size second.size
  root := second.root.trans first.root
  dead id inside gone := second.dead id (Nat.lt_of_lt_of_le inside first.size) (first.dead id inside gone)
  same id s t found found' := by
    -- an id that lives at both ends lives in between
    cases middle : h.get? id with
    | none =>
      have inside := Nat.lt_of_lt_of_le (lt_size_of_get? found) first.size
      rw [second.dead id inside middle] at found'
      cases found'
    | some u => exact (second.same id u t middle found').trans (first.same id s u found middle)

theorem Continues.lived (later : g.Continues h) {t : Scope} (inside : id < g.size) (found : h.get? id = some t) :
    ∃ s, g.get? id = some s ∧ t.identity = s.identity := by
  cases before : g.get? id with
  | none =>
    rw [later.dead id inside before] at found
    cases found
  | some s => exact ⟨s, rfl, later.same id s t before found⟩

theorem Continues.foldl {α : Type} {step : Graph → α → Graph} (steps : ∀ (g : Graph) x, g.Continues (step g x))
    (l : List α) :
    g.Continues (l.foldl step g) := by
  induction l generalizing g with
  | nil => exact .refl g
  | cons x l ih => exact (steps g x).trans ih

theorem Relinks.continues (relinks : g.Relinks h) : g.Continues h where
  size := Nat.le_of_eq relinks.size.symm
  root := relinks.root
  dead id _ gone := by
    have same := relinks.same id
    rw [gone] at same
    exact Option.map_eq_none_iff.mp same
  same id s t found found' := by
    have same := relinks.same id
    rw [found, found'] at same
    exact Option.some.inj same

theorem Relinks.refl (g : Graph) : g.Relinks g := ⟨rfl, rfl, fun _ => rfl⟩

theorem Relinks.trans (first : g.Relinks h) (second : h.Relinks k) : g.Relinks k where
  size := second.size.trans first.size
  root := second.root.trans first.root
  same id := (second.same id).trans (first.same id)

theorem relinks_modify (id : ScopeId) (change : Scope → Scope) (keeps : ∀ s, (change s).identity = s.identity) :
    g.Relinks (g.modify id change) where
  size := size_modify change
  root := root_modify change
  same x := by
    rw [get?_modify]
    split
    · rename_i equal
      subst equal
      simp [Function.comp_def, keeps]
    · rfl

theorem relinks_rebind (rename : ScopeId → ScopeId) : g.Relinks (g.rebind rename) where
  size := size_rebind rename
  root := rfl
  same x := by simp [get?_rebind, Function.comp_def, Scope.identity_rebind]

theorem relinks_detach (id : ScopeId) : g.Relinks (g.detach id) := by
  have freed (g : Graph) := relinks_modify (g := g) id (fun s => { s with parent := none }) fun _ => rfl
  unfold detach
  split
  · rename_i parent above
    refine (relinks_modify parent (fun s => { s with children := s.children.filter (· != id) }) fun _ => rfl).trans ?_
    exact freed _
  · exact freed g

theorem relinks_attach (parent child : ScopeId) : g.Relinks (g.attach parent child) :=
  (relinks_modify child (fun s => { s with parent := some parent }) fun _ => rfl).trans
    (relinks_modify parent (fun s => { s with children := s.children ++ [child] }) fun _ => rfl)

theorem continues_setSlot_none (id : ScopeId) : g.Continues (g.setSlot id none) where
  size := Nat.le_of_eq (size_setSlot none).symm
  root := rfl
  dead x _ gone := by
    rw [get?_setSlot_none, gone, ite_self]
  same x s t found found' := by
    rw [get?_setSlot_none] at found'
    split at found'
    · cases found'
    · rw [found] at found'
      cases found'
      rfl

theorem continues_insert (s : Scope) : g.Continues (g.insert s).2 where
  size := by simp
  root := rfl
  dead x inside gone := by
    rw [get?_insert, if_neg (Nat.ne_of_lt inside), gone]
  same x t u found found' := by
    rw [get?_insert, if_neg (Nat.ne_of_lt (lt_size_of_get? found)), found] at found'
    cases found'
    rfl

theorem continues_absorb (other : Graph) : g.Continues (g.absorb other) where
  size := by simp
  root := rfl
  dead x inside gone := by
    rw [get?_absorb_left other inside, gone]
  same x s t found found' := by
    rw [get?_absorb_left other (lt_size_of_get? found), found] at found'
    cases found'
    rfl

theorem continues_discardWithin (depth : Nat) : ∀ id (g : Graph), g.Continues (discardWithin depth id g) := by
  induction depth with
  | zero => exact fun _ g => .refl g
  | succ depth ih =>
    intro id g
    unfold discardWithin
    split
    · exact .refl g
    · exact (continues_setSlot_none id).trans (Continues.foldl (fun g child => ih child g) _)

theorem continues_discard (id : ScopeId) : g.Continues (g.discard id) := continues_discardWithin g.size id g

theorem continues_fold (into source : ScopeId) (theirs : Scope) : g.Continues (g.fold into source theirs) := by
  refine (continues_setSlot_none source).trans ?_
  unfold fold
  dsimp only
  split
  · rename_i mine found
    have relinks : (g.setSlot source none).Relinks ((g.setSlot source none).setSlot into (some (mine.unite theirs))) := by
      refine ⟨size_setSlot _, rfl, ?_⟩
      intro x
      rw [get?_setSlot_of_lt (lt_size_of_get? found)]
      split
      · rename_i equal
        rw [equal, found, Option.map_some, Option.map_some, Scope.identity_unite]
      · rfl
    exact ⟨relinks.continues.size, relinks.continues.root, relinks.continues.dead, relinks.continues.same⟩
  · exact .refl _

theorem size_fold (into source : ScopeId) (theirs : Scope) : (g.fold into source theirs).size = g.size := by
  have emptied : (g.setSlot source none).size = g.size := size_setSlot none
  unfold fold
  dsimp only
  split
  · exact (size_setSlot (g := g.setSlot source none) _).trans emptied
  · exact emptied

theorem get?_fold_source (into source : ScopeId) (theirs : Scope) : (g.fold into source theirs).get? source = none := by
  have emptied : (g.setSlot source none).get? source = none := by rw [get?_setSlot_none, if_pos rfl]
  unfold fold
  dsimp only
  split
  · rename_i mine found
    have other : source ≠ into := by
      intro equal
      rw [← equal, emptied] at found
      cases found
    have slots := get?_setSlot_of_lt (x := source) (lt_size_of_get? found) (some (mine.unite theirs))
    rw [if_neg other, emptied] at slots
    exact slots
  · exact emptied

end Graph

namespace Forwarding

variable {forward : Forwarding} {x source into : ScopeId}

theorem lookup_cons_of_ne (other : x ≠ source) : List.lookup x ((source, into) :: forward) = forward.lookup x := by
  have differs : (x == source) = false := beq_eq_false_iff_ne.mpr other
  simp [List.lookup, differs]

-- A further retirement sends those on that had come to the retired id, and nobody else.
theorem followWithin_cons {last : ScopeId} (bound : Nat) (ends : forward.followWithin bound x = last)
    (final : last ∉ forward.map Prod.fst) (new : source ∉ forward.map Prod.fst) (other : into ≠ source)
    (stays : into ∉ forward.map Prod.fst) :
    followWithin ((source, into) :: forward) (bound + 1) x = if last = source then into else last := by
  have stop : ∀ bound, followWithin ((source, into) :: forward) bound into = into := by
    intro bound
    cases bound with
    | zero => rfl
    | succ bound => simp [followWithin, lookup_cons_of_ne other, lookup_of_not_mem stays]
  -- one step from an id that is not retired yet
  have halt : ∀ bound, followWithin ((source, into) :: forward) (bound + 1) last = if last = source then into else last := by
    intro bound
    by_cases here : last = source
    · subst here
      simp [followWithin, stop]
    · rw [followWithin, lookup_cons_of_ne here, lookup_of_not_mem final, if_neg here]
  induction bound generalizing x with
  | zero =>
    cases ends
    exact halt 0
  | succ bound ih =>
    cases next : forward.lookup x with
    | none =>
      rw [followWithin, next] at ends
      cases ends
      exact halt (bound + 1)
    | some y =>
      rw [followWithin, next] at ends
      have away : x ≠ source := by
        intro equal
        rw [equal, lookup_of_not_mem new] at next
        cases next
      rw [followWithin, lookup_cons_of_ne away, next]
      exact ih ends

theorem survivor_cons (final : forward.survivor x ∉ forward.map Prod.fst) (new : source ∉ forward.map Prod.fst)
    (other : into ≠ source) (stays : into ∉ forward.map Prod.fst) :
    survivor ((source, into) :: forward) x = if forward.survivor x = source then into else forward.survivor x :=
  followWithin_cons (forward.length + 1) rfl final new other stays

end Forwarding

namespace Uniting

variable {u v w : Uniting} {a : Graph} {into source parent child : ScopeId}

-- Where the scopes of an earlier graph are to be found: each under its survivor, which is live and like it.
structure Follows (a : Graph) (u : Uniting) : Prop where
  graph : a.Continues u.graph
  size : u.graph.size = a.size
  known : ∀ x ∈ u.forward.map Prod.fst, a.contains x = true
  retired : ∀ x ∈ u.forward.map Prod.fst, u.graph.get? x = none
  survives : ∀ x s, a.get? x = some s → ∃ t, u.graph.get? (u.forward.survivor x) = some t ∧ t.Alike s

theorem Follows.not_retired (follows : u.Follows a) {x : ScopeId} {t : Scope} (found : u.graph.get? x = some t) :
    x ∉ u.forward.map Prod.fst := by
  intro member
  rw [follows.retired x member] at found
  cases found

theorem follows_start (a : Graph) : Follows a { graph := a } where
  graph := .refl a
  size := rfl
  known x member := by cases member
  retired x member := by cases member
  survives x s found := ⟨s, found, rfl, rfl⟩

-- A survivor is its own survivor, so that renaming ids once is enough.
theorem Follows.survivor_survivor (follows : u.Follows a) (x : ScopeId) :
    u.forward.survivor (u.forward.survivor x) = u.forward.survivor x := by
  by_cases live : a.contains x = true
  · obtain ⟨s, found⟩ := Graph.contains_iff.mp live
    obtain ⟨t, there, -⟩ := follows.survives x s found
    exact Forwarding.survivor_of_not_mem (follows.not_retired there)
  · have stays : u.forward.survivor x = x :=
      Forwarding.survivor_of_not_mem fun member => live (follows.known x member)
    rw [stays, stays]

-- What a change does when nothing it needs is missing. An earlier miss is never forgotten.
structure Leads (u v : Uniting) : Prop where
  graph : u.graph.Continues v.graph
  missing : v.missing = none → u.missing = none
  follows : v.missing = none → ∀ a, u.Follows a → v.Follows a

theorem Leads.refl (u : Uniting) : u.Leads u := ⟨.refl _, fun complete => complete, fun _ _ follows => follows⟩

theorem Leads.trans (first : u.Leads v) (second : v.Leads w) : u.Leads w where
  graph := first.graph.trans second.graph
  missing complete := first.missing (second.missing complete)
  follows complete a follows := second.follows complete a (first.follows (second.missing complete) a follows)

theorem Leads.foldl {α : Type} {step : Uniting → α → Uniting} (steps : ∀ (u : Uniting) x, u.Leads (step u x))
    (l : List α) :
    u.Leads (l.foldl step u) := by
  induction l generalizing u with
  | nil => exact .refl u
  | cons x l ih => exact (steps u x).trans ih

theorem leads_of_relinks (relinks : u.graph.Relinks v.graph) (forward : v.forward = u.forward)
    (missing : v.missing = none → u.missing = none) : u.Leads v := by
  refine ⟨relinks.continues, missing, ?_⟩
  intro _ a follows
  refine ⟨follows.graph.trans relinks.continues, relinks.size.trans follows.size, ?_, ?_, ?_⟩
  · rw [forward]
    exact follows.known
  · rw [forward]
    intro x member
    exact relinks.continues.dead x (Nat.lt_of_lt_of_eq (Graph.lt_size_of_get? (Graph.contains_iff.mp
      (follows.known x member)).choose_spec) follows.size.symm) (follows.retired x member)
  · intro x s found
    obtain ⟨t, there, alike⟩ := follows.survives x s found
    have same := relinks.same (u.forward.survivor x)
    rw [there, Option.map_some] at same
    obtain ⟨t', there', equal⟩ := Option.map_eq_some_iff.mp same
    rw [forward]
    exact ⟨t', there', (Scope.alike_of_identity equal).trans alike⟩

theorem missing_need {ids : List ScopeId} (complete : (u.need ids).missing = none) :
    u.missing = none ∧ ∀ x ∈ ids, u.graph.contains x = true := by
  have both : (u.missing <|> ids.find? fun id => !u.graph.contains id) = none := complete
  cases before : u.missing with
  | some x =>
    rw [before] at both
    cases both
  | none =>
    rw [before] at both
    have found : (ids.find? fun id => !u.graph.contains id) = none := both
    refine ⟨rfl, ?_⟩
    intro x member
    simpa using List.find?_eq_none.mp found x member

theorem leads_need (ids : List ScopeId) : u.Leads (u.need ids) :=
  leads_of_relinks (.refl _) rfl fun complete => (missing_need complete).1

-- The one step that retires an id: those whose survivor it was now survive in the scope that took it in.
theorem leads_retire {theirs : Scope} (found : u.graph.get? source = some theirs)
    (alike : ∀ mine, u.graph.get? into = some mine → mine.Alike theirs) : u.Leads (u.retire into source theirs) := by
  have continues := Graph.continues_fold (g := u.graph) into source theirs
  refine ⟨continues, fun complete => (missing_need complete).1, ?_⟩
  intro complete a follows
  obtain ⟨-, needed⟩ := missing_need complete
  obtain ⟨united, live⟩ := Graph.contains_iff.mp (needed into (List.mem_singleton.mpr rfl))
  have live : (u.graph.fold into source theirs).get? into = some united := live
  have emptied := Graph.get?_fold_source (g := u.graph) into source theirs
  have other : into ≠ source := by
    intro equal
    subst equal
    rw [emptied] at live
    cases live
  have size : (u.graph.fold into source theirs).size = a.size := (Graph.size_fold into source theirs).trans follows.size
  have inside : into < u.graph.size := by
    rw [← Graph.size_fold into source theirs]
    exact Graph.lt_size_of_get? live
  obtain ⟨mine, lived, kept⟩ := continues.lived inside live
  have new := follows.not_retired found
  have stays := follows.not_retired lived
  refine ⟨follows.graph.trans continues, size, ?_, ?_, ?_⟩
  · intro x member
    rcases List.mem_cons.mp member with equal | earlier
    · obtain ⟨s, before, -⟩ := follows.graph.lived (follows.size ▸ Graph.lt_size_of_get? found) found
      rw [equal]
      exact Graph.contains_of_get? before
    · exact follows.known x earlier
  · intro x member
    rcases List.mem_cons.mp member with equal | earlier
    · rw [equal]
      exact emptied
    · have bound : x < u.graph.size := by
        obtain ⟨s, before⟩ := Graph.contains_iff.mp (follows.known x earlier)
        rw [follows.size]
        exact Graph.lt_size_of_get? before
      exact continues.dead x bound (follows.retired x earlier)
  · intro x s before
    obtain ⟨t, there, like⟩ := follows.survives x s before
    have last : (u.retire into source theirs).forward.survivor x =
        if u.forward.survivor x = source then into else u.forward.survivor x :=
      Forwarding.survivor_cons (follows.not_retired there) new other stays
    rw [last]
    split
    · rename_i equal
      rw [equal, found] at there
      cases there
      exact ⟨united, live, ((Scope.alike_of_identity kept).trans (alike mine lived)).trans like⟩
    · rename_i apart
      by_cases equal : u.forward.survivor x = into
      · rw [equal, lived] at there
        cases there
        rw [equal]
        exact ⟨united, live, (Scope.alike_of_identity kept).trans like⟩
      · -- only the source dies, and only the scope that takes it in changes
        have same := get?_fold (t := theirs) lived other (u.forward.survivor x)
        rw [if_neg equal, if_neg apart, there] at same
        exact ⟨t, same, like⟩

theorem leads_place {join : ScopeId → ScopeId → Uniting → Uniting}
    (joins : ∀ into source (u : Uniting), (∀ mine theirs, u.graph.get? into = some mine → u.graph.get? source = some theirs →
      mine.Alike theirs) → u.Leads (join into source u)) (parent child : ScopeId) (u : Uniting) :
    u.Leads (placeWith join parent child u).2 := by
  unfold placeWith
  split
  · rename_i partner found
    apply joins
    intro mine theirs here there
    have denotes := List.find?_some found
    rw [Bool.and_eq_true, Graph.denoteSame, here, there] at denotes
    exact Scope.alike_of_sameEntity denotes.2
  · refine leads_of_relinks (Graph.relinks_attach parent child) rfl ?_
    exact fun complete => (missing_need complete).1

theorem leads_join (depth : Nat) : ∀ into source (u : Uniting),
    (∀ mine theirs, u.graph.get? into = some mine → u.graph.get? source = some theirs → mine.Alike theirs) →
    u.Leads (joinWithin depth into source u) := by
  induction depth with
  | zero => exact fun _ _ u _ => .refl u
  | succ depth ih =>
    intro into source u alike
    unfold joinWithin
    dsimp only
    refine (leads_need (u.graph.ancestors into)).trans ?_
    split
    · exact .refl _
    · rename_i theirs found
      refine (leads_retire found fun mine here => alike mine theirs here found).trans (Leads.foldl ?_ _)
      intro v child
      unfold moveWith
      split
      · have freed : v.Leads { v with graph := v.graph.modify child fun s => { s with parent := none } } :=
          leads_of_relinks (Graph.relinks_modify child _ fun _ => rfl) rfl fun complete => complete
        exact freed.trans (leads_place ih into child _)
      · exact .refl v

theorem graph_settle (u : Uniting) : u.graph.Continues u.settle.graph := by
  rw [settle_eq]
  exact (Graph.relinks_rebind _).continues

end Uniting

namespace Change

variable {c : Change} {file : String}

theorem continues_adopt (parent child : ScopeId) (c : Change) : c.graph.Continues (c.adopt parent child).2.graph := by
  have placed := Uniting.leads_place (fun into source u => Uniting.leads_join u.graph.size into source u) parent child
    { c.map (·.detach child) with }
  refine (Graph.relinks_detach child).continues.trans (placed.graph.trans ?_)
  exact Uniting.graph_settle _

theorem continues_adoptAll (parent : ScopeId) (orphans : List ScopeId) (c : Change) :
    c.graph.Continues (c.adoptAll parent orphans).graph := by
  induction orphans generalizing c with
  | nil => exact .refl _
  | cons orphan orphans ih => exact (continues_adopt parent orphan c).trans (ih _)

theorem continues_rescueAllWith {withdraw : ScopeId → Change → List ScopeId × Change}
    (withdraws : ∀ id (c : Change), c.graph.Continues (withdraw id c).2.graph) (file : String) (id : ScopeId) (c : Change) :
    c.graph.Continues (c.rescueAllWith withdraw file id).2.graph := by
  unfold rescueAllWith
  dsimp only
  have start : c.graph.Continues (c.need (c.graph.children id)).graph := .refl _
  generalize c.need (c.graph.children id) = d at start
  generalize c.graph.outsiders file id = loose
  induction loose generalizing d with
  | nil => exact start
  | cons child loose ih =>
    apply ih
    refine start.trans ((Graph.relinks_detach child).continues.trans ?_)
    exact (withdraws child (d.map (·.detach child))).trans (continues_adoptAll child _ _)

theorem continues_prune {withdraw : ScopeId → Change → List ScopeId × Change}
    (withdraws : ∀ id (c : Change), c.graph.Continues (withdraw id c).2.graph) (children : List ScopeId)
    (found : List ScopeId × Change) :
    found.2.graph.Continues (children.foldl (pruneWith withdraw) found).2.graph := by
  induction children generalizing found with
  | nil => exact .refl _
  | cons child children ih => exact (withdraws child found.2).trans (ih (pruneWith withdraw found child))

theorem continues_withdrawWithin (depth : Nat) :
    ∀ id (c : Change), c.graph.Continues (withdrawWithin file depth id c).2.graph := by
  induction depth with
  | zero => exact fun _ c => .refl c.graph
  | succ depth ih =>
    intro id c
    unfold withdrawWithin
    split
    · exact .refl _
    · rename_i s found
      split
      · exact .refl _
      · split
        · refine (continues_rescueAllWith ih file id c).trans ?_
          exact (Graph.relinks_detach id).continues.trans (Graph.continues_discard id)
        · have pruned := continues_prune ih s.children ([], c)
          generalize s.children.foldl (pruneWith (withdrawWithin file depth)) ([], c) = found at pruned
          obtain ⟨orphans, d⟩ := found
          refine pruned.trans ((continues_adoptAll id orphans d).trans ?_)
          exact (Graph.relinks_modify id _ fun s => s.identity_withdraw file).continues

end Change

namespace Graph

variable {g h m other start : Graph} {file : String}

theorem continues_clearRoot (g : Graph) : g.Continues g.clearRoot := by
  have discarded : g.Continues ((g.children g.root).foldl discard g) := Continues.foldl (fun g child => continues_discard child) _
  let emptied (s : Scope) : Scope := { s with children := [], declared := [], calls := [], locations := [] }
  exact discarded.trans (relinks_modify _ emptied fun _ => rfl).continues

theorem continues_withdrawing (g : Graph) (file : String) : g.Continues (g.withdrawing file).2.graph := by
  have withdraws : ∀ id (c : Change), c.graph.Continues (c.withdrawFrom file id).2.graph :=
    fun id c => Change.continues_withdrawWithin c.graph.size id c
  unfold withdrawing
  dsimp only
  split
  · have rescued : g.Continues
        (Change.rescueAllWith (Change.withdrawFrom file) file g.root (Change.need [g.root] { graph := g })).2.graph :=
      Change.continues_rescueAllWith withdraws file g.root (Change.need [g.root] { graph := g })
    exact rescued.trans (continues_clearRoot _)
  · exact withdraws g.root (Change.need [g.root] { graph := g })

theorem graph_of_outcome {c : Change} (done : c.outcome = .ok h) : c.graph = h ∧ c.missing = none := by
  unfold Change.outcome at done
  split at done
  · cases done
  · rename_i none
    exact ⟨Except.ok.inj done, none⟩

theorem continues_addChild {parent child id : ScopeId} (done : g.addChild parent child = .ok (id, h)) :
    g.Continues h := by
  have adopted := Change.continues_adopt parent child { graph := g }
  unfold addChild at done
  cases settled : (Change.adopt parent child { graph := g }).2.outcome with
  | error fault =>
    simp only [settled] at done
    cases done
  | ok k =>
    simp only [settled] at done
    cases done
    rwa [(graph_of_outcome settled).1] at adopted

theorem continues_uniting {into source : ScopeId}
    (alike : ∀ mine theirs, g.get? into = some mine → g.get? source = some theirs → mine.Alike theirs) :
    g.Continues (g.uniting into source).graph := by
  have detached := relinks_detach (g := g) source
  have same : ∀ mine theirs, (g.detach source).get? into = some mine → (g.detach source).get? source = some theirs →
      mine.Alike theirs := by
    intro mine theirs here there
    obtain ⟨mine', here', left⟩ := detached.continues.lived (detached.size ▸ lt_size_of_get? here) here
    obtain ⟨theirs', there', right⟩ := detached.continues.lived (detached.size ▸ lt_size_of_get? there) there
    refine (Scope.alike_of_identity left).trans ((alike mine' theirs' here' there').trans ?_)
    exact (Scope.alike_of_identity right).symm
  refine detached.continues.trans ?_
  exact (Uniting.leads_join _ into source { graph := g.detach source } same).graph.trans (Uniting.graph_settle _)

theorem continues_unify {into source : ScopeId} (done : g.unify into source = .ok (.ok h)) : g.Continues h := by
  unfold unify at done
  split at done
  · rename_i mine theirs here there
    split at done
    · cases done
    · rename_i allowed
      split at done
      · cases done
      · cases settled : (g.uniting into source).outcome with
        | error fault =>
          rw [settled] at done
          cases done
        | ok k =>
          rw [settled] at done
          cases done
          rw [← (graph_of_outcome settled).1]
          apply continues_uniting
          intro mine' theirs' here' there'
          rw [here] at here'
          rw [there] at there'
          cases here'
          cases there'
          simp only [not_or, ne_eq, not_not] at allowed
          exact allowed.2
  · cases done

def HasGlobalRoot (g : Graph) : Prop := g.root < g.size ∧ ∀ s, g.get? g.root = some s → s.Alike .global

theorem Continues.hasGlobalRoot (later : g.Continues h) (global : g.HasGlobalRoot) : h.HasGlobalRoot := by
  refine ⟨?_, ?_⟩
  · rw [later.root]
    exact Nat.lt_of_lt_of_le global.1 later.size
  · intro t found
    rw [later.root] at found
    obtain ⟨s, before, same⟩ := later.lived global.1 found
    exact (Scope.alike_of_identity same).trans (global.2 s before)

def mergedUniting (g other : Graph) : Uniting := Uniting.join g.root (other.root + g.size) { graph := g.absorb other }

def relocated (g other : Graph) (id : ScopeId) : ScopeId := (g.mergedUniting other).forward.survivor (id + g.size)

theorem leads_mergedUniting (left : g.HasGlobalRoot) (right : other.HasGlobalRoot) :
    Uniting.Leads { graph := g.absorb other } (g.mergedUniting other) := by
  apply Uniting.leads_join
  intro mine theirs here there
  have here : g.get? g.root = some mine := by rwa [get?_absorb_left other left.1] at here
  rw [get?_absorb_right] at there
  obtain ⟨theirs', there', rfl⟩ := Option.map_eq_some_iff.mp there
  have moved : (theirs'.rebind (· + g.size)).Alike .global :=
    (Scope.alike_of_identity (theirs'.identity_rebind _)).trans (right.2 theirs' there')
  exact (left.2 mine here).trans moved.symm

theorem continues_merge (left : g.HasGlobalRoot) (right : other.HasGlobalRoot) (done : g.merge other = .ok m) :
    g.Continues m := by
  have graph := (graph_of_outcome done).1
  have settled : (g.absorb other).Continues (g.merging other).graph :=
    (leads_mergedUniting left right).graph.trans (Uniting.graph_settle _)
  rw [graph] at settled
  exact (continues_absorb other).trans settled

-- An id is written down as a word of 32 bits. This loses nothing in an arena of at most 2^32 slots.
def word (id : ScopeId) : UInt32 := UInt32.ofNat id

theorem toNat_word {x : ScopeId} (small : x < UInt32.size) : (word x).toNat = x := UInt32.toNat_ofNat_of_lt' small

-- Words of ids are told apart, and a word moved up by the length of an arena does not wrap.
structure Fits (g : Graph) : Prop where
  apart : ∀ x y, x < g.size → y < g.size → word x = word y → x = y
  shifted : ∀ x base, x + base < g.size → (word x + word base).toNat = x + base

theorem fits_of_size_le (small : g.size ≤ UInt32.size) : g.Fits where
  apart x y inside inside' same := by
    rw [← toNat_word (Nat.lt_of_lt_of_le inside small), same, toNat_word (Nat.lt_of_lt_of_le inside' small)]
  shifted x base inside := by
    have sum := Nat.lt_of_lt_of_le inside small
    have first : x < UInt32.size := by omega
    have second : base < UInt32.size := by omega
    rw [UInt32.toNat_add, toNat_word first, toNat_word second, Nat.mod_eq_of_lt sum]

-- What becomes of the ids of the second graph of a merge.
structure Relocates (g other m : Graph) : Prop where
  -- an id in use comes from the first graph, or from the second with the size of the first added
  origin : ∀ id, m.contains id = true → g.contains id = true ∨ ∃ x, other.contains x = true ∧ id = x + g.size
  -- a scope of the second graph is found under its new id, where a live scope is of its sort and name
  found : ∀ x s, other.get? x = some s → ∃ t, m.get? (g.relocated other x) = some t ∧ t.Alike s
  -- it keeps its place and its identity unless it was united with another
  kept : ∀ x s t, other.get? x = some s → m.get? (x + g.size) = some t →
    g.relocated other x = x + g.size ∧ t.identity = s.identity
  -- and no retired id is mentioned anywhere
  settled : m.rebind (g.mergedUniting other).forward.survivor = m

theorem merge_relocates (left : g.HasGlobalRoot) (right : other.HasGlobalRoot) (done : g.merge other = .ok m) :
    g.Relocates other m := by
  obtain ⟨graph, complete⟩ := graph_of_outcome done
  have united : (g.merging other) =
      { graph := (g.mergedUniting other).graph.rebind (g.mergedUniting other).forward.survivor,
        missing := (g.mergedUniting other).missing } := Uniting.settle_eq _
  rw [united] at graph complete
  have follows := (leads_mergedUniting left right).follows complete _ (Uniting.follows_start (g.absorb other))
  have relinks : (g.mergedUniting other).graph.Relinks m := graph ▸ relinks_rebind _
  have continues : (g.absorb other).Continues m := follows.graph.trans relinks.continues
  refine ⟨?_, ?_, ?_, ?_⟩
  · intro id live
    obtain ⟨t, found⟩ := contains_iff.mp live
    have inside : id < (g.absorb other).size := by
      rw [← follows.size, ← relinks.size]
      exact lt_size_of_get? found
    obtain ⟨s, before, -⟩ := continues.lived inside found
    by_cases low : id < g.size
    · rw [get?_absorb_left other low] at before
      exact Or.inl (contains_of_get? before)
    · have shifted : id = id - g.size + g.size := (Nat.sub_add_cancel (Nat.not_lt.mp low)).symm
      rw [shifted, get?_absorb_right] at before
      obtain ⟨s', before', -⟩ := Option.map_eq_some_iff.mp before
      exact Or.inr ⟨id - g.size, contains_of_get? before', shifted⟩
  · intro x s found
    have before : (g.absorb other).get? (x + g.size) = some (s.rebind (· + g.size)) := by
      rw [get?_absorb_right, found, Option.map_some]
    obtain ⟨t, there, like⟩ := follows.survives _ _ before
    refine ⟨t.rebind (g.mergedUniting other).forward.survivor, ?_, ?_⟩
    · rw [← graph, get?_rebind]
      exact congrArg (Option.map _) there
    · refine (Scope.alike_of_identity (t.identity_rebind _)).trans (like.trans ?_)
      exact Scope.alike_of_identity (s.identity_rebind _)
  · intro x s t found after
    have before : (g.absorb other).get? (x + g.size) = some (s.rebind (· + g.size)) := by
      rw [get?_absorb_right, found, Option.map_some]
    refine ⟨?_, (continues.same _ _ t before after).trans (s.identity_rebind _)⟩
    rw [← graph, get?_rebind] at after
    obtain ⟨t', live, -⟩ := Option.map_eq_some_iff.mp after
    exact Forwarding.survivor_of_not_mem (follows.not_retired live)
  -- A survivor survives itself, so a second rebinding along the same forwarding changes nothing.
  · have once : (g.mergedUniting other).forward.survivor ∘ (g.mergedUniting other).forward.survivor =
        (g.mergedUniting other).forward.survivor := funext follows.survivor_survivor
    rw [← graph]
    simp [Graph.rebind, Scope.rebind_rebind, once, Function.comp_def]

inductive Fresh : Graph → Prop
  | empty : Fresh .empty
  | surveyed {p : Profile} {e : Element} {g : Graph} (done : surveyUnit p e = .ok g) : Fresh g

theorem Fresh.hasGlobalRoot (fresh : g.Fresh) : g.HasGlobalRoot := by
  cases fresh with
  | empty =>
    refine ⟨Nat.zero_lt_one, ?_⟩
    intro s found
    cases found
    exact ⟨rfl, rfl⟩
  | surveyed done =>
    obtain ⟨f, rest⟩ := @atRest_surveyed False g _ _ False.elim done
    obtain ⟨picture, rooted, -, -⟩ := rest
    cases rooted with
    | intro isRoot _ _ =>
      refine ⟨lt_size_of_get? picture.shows.1, ?_⟩
      intro s found
      rw [picture.shows.1] at found
      cases found
      exact ⟨congrArg ScopeKind.category isRoot.global, isRoot.unnamed⟩

-- A run of operations on one graph, from one of its states to a later one. A scope may be added anywhere, and the
-- second graph of a merge has its own run behind it.
inductive Run : Graph → Graph → Prop
  | stop {g : Graph} : Run g g
  | inserted {g h : Graph} (run : Run g h) (s : Scope) : Run g (h.insert s).2
  | detached {g h : Graph} (run : Run g h) (id : ScopeId) : Run g (h.detach id)
  | added {g h k : Graph} {parent child id : ScopeId} (run : Run g h) (done : h.addChild parent child = .ok (id, k)) :
      Run g k
  | unified {g h k : Graph} {into source : ScopeId} (run : Run g h) (done : h.unify into source = .ok (.ok k)) : Run g k
  | merged {g h start other m : Graph} (run : Run g h) (fresh : start.Fresh) (right : Run start other)
      (done : h.merge other = .ok m) : Run g m
  | withdrawn {g h k : Graph} {file : String} {loose : List ScopeId} (run : Run g h)
      (done : h.removeFile file = .ok (loose, k)) : Run g k
  | rehomed {g h k : Graph} {file : String} (run : Run g h) (done : h.removeFileAndRehome file = .ok k) : Run g k

theorem Run.continues (run : Run g h) (global : g.HasGlobalRoot) : g.Continues h := by
  induction run with
  | stop => exact .refl _
  | inserted run s ih => exact (ih global).trans (continues_insert s)
  | detached run id ih => exact (ih global).trans (relinks_detach id).continues
  | added run done ih => exact (ih global).trans (continues_addChild done)
  | unified run done ih => exact (ih global).trans (continues_unify done)
  | merged run fresh right done ih ihRight =>
    have left := ih global
    have other := (ihRight fresh.hasGlobalRoot).hasGlobalRoot fresh.hasGlobalRoot
    exact left.trans (continues_merge (left.hasGlobalRoot global) other done)
  | @withdrawn g h k file loose run done ih =>
    refine (ih global).trans ?_
    have withdrawn := continues_withdrawing h file
    unfold removeFile at done
    cases settled : (h.withdrawing file).2.outcome with
    | error fault =>
      simp only [settled] at done
      cases done
    | ok k' =>
      simp only [settled] at done
      cases done
      rwa [(graph_of_outcome settled).1] at withdrawn
  | @rehomed g h k file run done ih =>
    refine (ih global).trans ((continues_withdrawing h file).trans ?_)
    rw [← (graph_of_outcome done).1]
    exact Change.continues_adoptAll _ _ _

-- Ids never stand for two things. Over any run, an id that has become dead is never live again, and as long as an id is
-- live it stands for a scope of one identity; in a merge the ids of the second graph move up by the size of the first,
-- or lead to a live scope of their sort and name.
theorem run_keeps_ids_apart (fresh : start.Fresh) (before : Run start g) (run : Run g h) :
    (∀ id, id < g.size → g.contains id = false → h.contains id = false) ∧
      (∀ id s t, g.get? id = some s → h.get? id = some t → t.identity = s.identity) ∧
      (h.size ≤ UInt32.size → g.Fits ∧ h.Fits) ∧
      ∀ start' other m, Fresh start' → Run start' other → h.merge other = .ok m → h.Relocates other m := by
  have global := (before.continues fresh.hasGlobalRoot).hasGlobalRoot fresh.hasGlobalRoot
  have later := run.continues global
  refine ⟨?_, later.same, ?_, ?_⟩
  · intro id inside dead
    have gone : g.get? id = none := by simpa [contains] using dead
    simp [contains, later.dead id inside gone]
  · exact fun small => ⟨fits_of_size_le (later.size.trans small), fits_of_size_le small⟩
  · intro start' other m fresh' right done
    have global' := (right.continues fresh'.hasGlobalRoot).hasGlobalRoot fresh'.hasGlobalRoot
    exact merge_relocates (later.hasGlobalRoot global) global' done

def withClass (g : Graph) (name : String) : Graph :=
  ((g.insert { name, kind := .type { kind := .classType } }).2.adopt g.root g.size).2

theorem Run.withClass {name : String} (run : Run g h)
    (complete : (Change.adopt h.root h.size
      { graph := (h.insert { name, kind := .type { kind := .classType } }).2 }).2.missing = none) :
    Run g (h.withClass name) := by
  have added : (h.insert { name, kind := .type { kind := .classType } }).2.addChild h.root h.size =
      .ok (((h.insert { name, kind := .type { kind := .classType } }).2.adopt h.root h.size).1, h.withClass name) := by
    unfold addChild Change.outcome
    dsimp only
    rw [complete]
    rfl
  exact (run.inserted _).added added

-- The second `A` is united with the first, and its id is not given to `B`; merged with what was there before, the class
-- `A` of the second graph is found under the id that it has in the first.
theorem class_united_is_not_revived :
    let g := (Graph.empty.withClass "A").withClass "A"
    let h := g.withClass "B"
    Fresh .empty ∧ Run .empty g ∧ Run g h ∧ 2 < g.size ∧ g.contains 2 = false ∧ h.contains 2 = false ∧ h.contains 3 = true ∧
      (∀ id s t, g.get? id = some s → h.get? id = some t → t.identity = s.identity) ∧
      h.merge g = .ok (h.mergeLive g) ∧ h.Relocates g (h.mergeLive g) ∧ h.relocated g 1 = 1 := by
  intro g h
  have first : Run .empty g := (Run.stop.withClass (by decide +kernel)).withClass (by decide +kernel)
  have second : Run g h := Run.stop.withClass (by decide +kernel)
  have merged : h.merge g = .ok (h.mergeLive g) := by
    have complete : (h.merging g).missing = none := by decide +kernel
    unfold merge Change.outcome
    rw [complete]
    rfl
  obtain ⟨dead, same, -, relocates⟩ := run_keeps_ids_apart .empty first second
  exact ⟨.empty, first, second, by decide +kernel, by decide +kernel, dead 2 (by decide +kernel) (by decide +kernel),
    by decide +kernel, same, merged, relocates _ g _ .empty first merged, by decide +kernel⟩

end Graph

end ScopeAtlas
