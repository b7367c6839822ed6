import ScopeAtlas.Proofs.Batches

namespace ScopeAtlas

inductive Request
  | update (e : Element)
  | add (units : List Element)
  | remove (file : String)

-- What happens to a codebase: a unit takes the place of what its file contributed before, or a file goes.
inductive Event
  | taken (e : Element)
  | dropped (file : String)
deriving DecidableEq

namespace Event

def file : Event → String
  | taken e => e.fileName
  | dropped file => file

def record (ledger : List Element) : Event → List Element
  | taken e => ledger.filter (·.fileName ≠ e.fileName) ++ [e]
  | dropped file => ledger.filter (·.fileName ≠ file)

-- Only units that can be surveyed are taken in.
def Admitted (tools : Tools) : Event → Prop
  | taken e => ∃ new, Codebase.survey tools e = .ok new
  | dropped _ => True

end Event

namespace Codebase

variable {c : Codebase} {tools : Tools} {e : Element} {units : List Element} {events : List Event}

def serve (c : Codebase) : Request → Codebase
  | .update e => c.updateOrKeep e
  | .add units => (c.addUnits units).1
  | .remove file => (c.remove file).2

def served (tools : Tools) (requests : List Request) : Codebase := requests.foldl serve { tools := tools }

def takes (c : Codebase) (e : Element) : Bool := c.status e ≠ .unchanged && (survey c.tools e).isOk

def eventsOf (c : Codebase) : Request → List Event
  | .update e => ([e].filter c.takes).map .taken
  | .add units => ((firstOfEachFile units).filter c.takes).map .taken
  | .remove file => if (c.fingerprints.lookup file).isSome then [.dropped file] else []

def eventsFrom (c : Codebase) : List Request → List Event
  | [] => []
  | request :: later => c.eventsOf request ++ (c.serve request).eventsFrom later

def history (tools : Tools) (requests : List Request) : List Event := eventsFrom { tools := tools } requests

-- The units in force after a run of requests, in the order in which they were last taken in.
def ledger (tools : Tools) (requests : List Request) : List Element := (history tools requests).foldl Event.record []

def happen (c : Codebase) : Event → Codebase
  | .taken e => c.takeIn e
  | .dropped file => c.retract file

theorem foldl_takeIn_filter (c : Codebase) (units : List Element) :
    units.foldl takeIn c = (units.filter fun e => (survey c.tools e).isOk).foldl takeIn c := by
  induction units generalizing c with
  | nil => rfl
  | cons e rest ih =>
    rw [List.foldl_cons, ih, tools_takeIn]
    cases surveyed : survey c.tools e with
    | ok new =>
      rw [List.filter_cons_of_pos (by rw [surveyed]; rfl)]
      rfl
    | error fault =>
      have kept : c.takeIn e = c := by rw [takeIn, surveyed]
      rw [List.filter_cons_of_neg (by rw [surveyed]; exact Bool.false_ne_true), kept]

theorem foldl_happen_taken (c : Codebase) (units : List Element) :
    (units.map Event.taken).foldl happen c = units.foldl takeIn c := by
  rw [List.foldl_map]
  rfl

theorem foldl_updateOrKeep_eq (differ : units.Pairwise fun e e' => e.fileName ≠ e'.fileName) (c : Codebase) :
    units.foldl updateOrKeep c = (units.filter c.takes).foldl takeIn c := by
  rw [foldl_updateOrKeep differ, foldl_takeIn_filter, List.filter_filter]
  refine congrArg (List.foldl takeIn c) (List.filter_congr ?_)
  exact fun e _ => Bool.and_comm _ _

theorem serve_eq (c : Codebase) (request : Request) : c.serve request = (c.eventsOf request).foldl happen c := by
  cases request with
  | update e =>
    have alone := @foldl_updateOrKeep_eq [e] (List.pairwise_singleton _ e) c
    rw [eventsOf, foldl_happen_taken, ← alone]
    rfl
  | add units =>
    rw [eventsOf, foldl_happen_taken, ← foldl_updateOrKeep_eq (firstOfEachFile_differ units), ← addUnits_fst]
    rfl
  | remove file =>
    rw [serve, remove, eventsOf]
    split <;> rfl

theorem foldl_serve (c : Codebase) (requests : List Request) :
    requests.foldl serve c = (c.eventsFrom requests).foldl happen c := by
  induction requests generalizing c with
  | nil => rfl
  | cons request later ih => rw [List.foldl_cons, eventsFrom, List.foldl_append, ← serve_eq, ih]

theorem served_eq (tools : Tools) (requests : List Request) :
    served tools requests = (history tools requests).foldl happen { tools := tools } :=
  foldl_serve _ requests

@[simp] theorem tools_happen (c : Codebase) (event : Event) : (c.happen event).tools = c.tools := by
  cases event with
  | taken e => exact tools_takeIn c e
  | dropped file => rfl

theorem tools_foldl_happen (c : Codebase) (events : List Event) :
    (events.foldl happen c).tools = c.tools := by
  induction events generalizing c with
  | nil => rfl
  | cons event later ih => rw [List.foldl_cons, ih, tools_happen]

theorem tools_served (tools : Tools) (requests : List Request) : (served tools requests).tools = tools := by
  rw [served_eq, tools_foldl_happen]

theorem admitted_eventsOf (c : Codebase) (request : Request) :
    ∀ event ∈ c.eventsOf request, event.Admitted c.tools := by
  have each : ∀ units : List Element, ∀ event ∈ (units.filter c.takes).map Event.taken, event.Admitted c.tools := by
    intro units event member
    obtain ⟨e, listed, rfl⟩ := List.mem_map.mp member
    have taken := (List.mem_filter.mp listed).2
    rw [takes, Bool.and_eq_true] at taken
    cases surveyed : survey c.tools e with
    | ok new => exact ⟨new, surveyed⟩
    | error fault =>
      rw [surveyed] at taken
      exact (Bool.false_ne_true taken.2).elim
  cases request with
  | update e => exact each [e]
  | add units => exact each _
  | remove file =>
    intro event member
    rw [eventsOf] at member
    split at member
    · rw [List.mem_singleton.mp member]
      trivial
    · cases member

theorem admitted_eventsFrom (c : Codebase) (requests : List Request) :
    ∀ event ∈ c.eventsFrom requests, event.Admitted c.tools := by
  induction requests generalizing c with
  | nil => exact List.forall_mem_nil _
  | cons request later ih =>
    have tools : (c.serve request).tools = c.tools := by rw [serve_eq, tools_foldl_happen]
    refine List.forall_mem_append.mpr ⟨c.admitted_eventsOf request, ?_⟩
    exact tools ▸ ih (c.serve request)

theorem admitted_history (tools : Tools) (requests : List Request) :
    ∀ event ∈ history tools requests, event.Admitted tools :=
  admitted_eventsFrom { tools := tools } requests

-- A codebase remembers the units of the ledger, one for each file.
structure Remembers (c : Codebase) (ledger : List Element) : Prop where
  fingerprints : c.fingerprints = ledger.map fun e => (e.fileName, c.tools.fingerprint e)
  differ : ledger.Pairwise fun e e' => e.fileName ≠ e'.fileName
  surveyed : ∀ e ∈ ledger, ∃ new, survey c.tools e = .ok new

theorem remembers_nothing (tools : Tools) : Remembers { tools := tools } [] :=
  ⟨rfl, .nil, List.forall_mem_nil _⟩

theorem filter_fingerprints (tools : Tools) (ledger : List Element) (file : String) :
    (ledger.map fun e => (e.fileName, tools.fingerprint e)).filter (·.1 != file) =
      (ledger.filter (·.fileName ≠ file)).map fun e => (e.fileName, tools.fingerprint e) := by
  rw [List.filter_map]
  refine congrArg _ (List.filter_congr ?_)
  intro e _
  by_cases same : e.fileName = file <;> simp [same]

theorem lookup_fingerprints {ledger : List Element} {file : String} :
    ((ledger.map fun e => (e.fileName, tools.fingerprint e)).lookup file).isSome = true ↔
      ∃ e ∈ ledger, e.fileName = file := by
  rw [Option.isSome_iff_ne_none, Ne, List.lookup_eq_none_iff, List.forall_mem_map]
  constructor
  · intro some
    by_contra none
    refine some fun e listed => ?_
    simpa using fun same : file = e.fileName => none ⟨e, listed, same.symm⟩
  · rintro ⟨e, listed, same⟩ none
    simpa [same] using none e listed

theorem takeIn_eq {new : Contribution} (surveyed : survey c.tools e = .ok new) : c.takeIn e = c.bringIn new := by
  rw [takeIn, surveyed]

theorem Remembers.happen {ledger : List Element} (remembers : c.Remembers ledger) {event : Event}
    (admitted : event.Admitted c.tools) : (c.happen event).Remembers (event.record ledger) := by
  obtain ⟨fingerprints, differ, surveyed⟩ := remembers
  cases event with
  | taken e =>
    obtain ⟨new, done⟩ := admitted
    obtain ⟨file, print, -⟩ := survey_ok done
    refine ⟨?_, ?_, ?_⟩
    · change (c.takeIn e).fingerprints = _
      rw [takeIn_eq done, fingerprints_bringIn, fingerprints, filter_fingerprints, file, print]
      simp [Event.record]
    · refine List.pairwise_append.mpr ⟨differ.sublist List.filter_sublist, List.pairwise_singleton _ e, ?_⟩
      intro e' listed e'' last
      rw [List.mem_singleton.mp last]
      simpa using (List.mem_filter.mp listed).2
    · rw [tools_happen]
      refine List.forall_mem_append.mpr ⟨fun e' listed => surveyed e' (List.mem_filter.mp listed).1, ?_⟩
      exact List.forall_mem_singleton.mpr ⟨new, done⟩
  | dropped file =>
    refine ⟨?_, differ.sublist List.filter_sublist, fun e listed => surveyed e (List.mem_filter.mp listed).1⟩
    change c.fingerprints.filter (·.1 != file) = _
    rw [fingerprints, filter_fingerprints]
    rfl

theorem Remembers.foldl_happen {ledger : List Element} (remembers : c.Remembers ledger)
    (admitted : ∀ event ∈ events, event.Admitted c.tools) :
    (events.foldl Codebase.happen c).Remembers (events.foldl Event.record ledger) := by
  induction events generalizing c ledger with
  | nil => exact remembers
  | cons event later ih =>
    obtain ⟨first, rest⟩ := List.forall_mem_cons.mp admitted
    exact ih (remembers.happen first) (tools_happen c event ▸ rest)

theorem served_remembers (tools : Tools) (requests : List Request) :
    (served tools requests).Remembers (ledger tools requests) := by
  rw [served_eq]
  exact (remembers_nothing tools).foldl_happen (admitted_history tools requests)

theorem mem_foldl_record {ledger : List Element} (listed : e ∈ events.foldl Event.record ledger) :
    e ∈ ledger ∨ .taken e ∈ events := by
  induction events generalizing ledger with
  | nil => exact Or.inl listed
  | cons event later ih =>
    rcases ih listed with before | after
    · cases event with
      | taken e' =>
        rcases List.mem_append.mp before with kept | last
        · exact Or.inl (List.mem_filter.mp kept).1
        · rw [List.mem_singleton.mp last]
          exact Or.inr List.mem_cons_self
      | dropped file => exact Or.inl (List.mem_filter.mp before).1
    · exact Or.inr (List.mem_cons_of_mem _ after)

theorem taken_of_mem_ledger {requests : List Request} (listed : e ∈ ledger tools requests) :
    .taken e ∈ history tools requests :=
  (mem_foldl_record listed).resolve_left List.not_mem_nil

-- A unit is passed over exactly if the unit in force of its file has its fingerprint.
theorem Remembers.status_eq_unchanged {ledger : List Element} (remembers : c.Remembers ledger) :
    c.status e = .unchanged ↔ ∃ e' ∈ ledger, e'.fileName = e.fileName ∧ c.tools.fingerprint e' = c.tools.fingerprint e := by
  obtain ⟨fingerprints, differ, -⟩ := remembers
  have found : ∀ e' ∈ ledger, c.fingerprints.lookup e'.fileName = some (c.tools.fingerprint e') := by
    intro e' listed
    rw [fingerprints]
    clear fingerprints
    induction ledger with
    | nil => cases listed
    | cons first rest ih =>
      obtain ⟨others, differ⟩ := List.pairwise_cons.mp differ
      rw [List.map_cons, List.lookup_cons]
      rcases List.mem_cons.mp listed with rfl | later
      · simp
      · rw [beq_eq_false_iff_ne.mpr (Ne.symm (others e' later))]
        exact ih differ later
  unfold status
  constructor
  · intro unchanged
    cases known : c.fingerprints.lookup e.fileName with
    | none =>
      rw [known] at unchanged
      cases unchanged
    | some print =>
      have some : (c.fingerprints.lookup e.fileName).isSome = true := by rw [known]; rfl
      rw [fingerprints, lookup_fingerprints] at some
      obtain ⟨e', listed, same⟩ := some
      have held := found e' listed
      rw [same, known] at held
      rw [known] at unchanged
      simp only at unchanged
      split at unchanged
      · rename_i equal
        exact ⟨e', listed, same, (Option.some.inj held).symm.trans equal⟩
      · cases unchanged
  · rintro ⟨e', listed, same, equal⟩
    rw [← same, found e' listed]
    exact if_pos equal

end Codebase

end ScopeAtlas
