import Mathlib.Data.List.Nodup
import Mathlib.Data.List.ReduceOption
import Mathlib.Data.Nat.Init
import Mathlib.Logic.Relation
import ScopeAtlas.Codebase

namespace ScopeAtlas

def firstOfEachFile : List Element → List Element
  | [] => []
  | e :: rest => e :: (firstOfEachFile rest).filter (·.fileName ≠ e.fileName)

theorem firstOfEachFile_differ (units : List Element) :
    (firstOfEachFile units).Pairwise fun e e' => e.fileName ≠ e'.fileName := by
  induction units with
  | nil => exact List.Pairwise.nil
  | cons e rest ih =>
    refine List.pairwise_cons.mpr ⟨?_, ih.sublist List.filter_sublist⟩
    intro e' member
    have other := (List.mem_filter.mp member).2
    exact Ne.symm (by simpa using other)

-- Workers that share a queue of jobs: each is idle or has a job in hand, and results are sent as they come about.
structure Pool where
  waiting : List (Element × Nat)
  hands : List (Option (Element × Nat))
  sent : List JobResult

namespace Pool

variable {tools : Tools} {p q : Pool}

-- An idle worker takes the job that has waited longest; a busy one sends its result.
inductive Step (tools : Tools) : Pool → Pool → Prop
  | take (job : Element × Nat) (waiting : List (Element × Nat)) (front back : List (Option (Element × Nat)))
      (sent : List JobResult) :
      Step tools ⟨job :: waiting, front ++ none :: back, sent⟩ ⟨waiting, front ++ some job :: back, sent⟩
  | send (job : Element × Nat) (waiting : List (Element × Nat)) (front back : List (Option (Element × Nat)))
      (sent : List JobResult) :
      Step tools ⟨waiting, front ++ some job :: back, sent⟩
        ⟨waiting, front ++ none :: back, sent ++ [Codebase.job tools job.1 job.2]⟩

-- No more workers than jobs, and at least one.
def start (workers : Nat) (jobs : List Element) : Pool :=
  ⟨jobs.zipIdx, List.replicate (max (min workers jobs.length) 1) none, []⟩

def Done (p : Pool) : Prop := p.waiting = [] ∧ ∀ hand ∈ p.hands, hand = none

def Delivers (tools : Tools) (workers : Nat) (jobs : List Element) (sent : List JobResult) : Prop :=
  ∃ p, Relation.ReflTransGen (Step tools) (start workers jobs) p ∧ p.Done ∧ p.sent = sent

def results (tools : Tools) (p : Pool) : List JobResult :=
  p.sent ++ (p.hands.reduceOption ++ p.waiting).map fun job => Codebase.job tools job.1 job.2

def work (p : Pool) : Nat := 2 * p.waiting.length + p.hands.reduceOption.length

theorem Step.results_perm (step : Step tools p q) : (q.results tools).Perm (p.results tools) := by
  cases step with
  | take job waiting front back sent =>
    refine List.Perm.append_left _ (List.Perm.map _ ?_)
    simp only [List.reduceOption_append, List.reduceOption_cons_of_some, List.reduceOption_cons_of_none,
      List.append_assoc, List.cons_append]
    exact List.Perm.append_left _ List.perm_middle.symm
  | send job waiting front back sent =>
    simp only [results, List.reduceOption_append, List.reduceOption_cons_of_some, List.reduceOption_cons_of_none,
      List.append_assoc, List.cons_append, List.map_append, List.map_cons, List.nil_append]
    exact List.Perm.append_left _ List.perm_middle.symm

theorem Step.work_lt (step : Step tools p q) : q.work < p.work := by
  cases step with
  | take job waiting front back sent =>
    simp only [work, List.reduceOption_append, List.reduceOption_cons_of_some, List.reduceOption_cons_of_none,
      List.length_append, List.length_cons]
    omega
  | send job waiting front back sent =>
    simp only [work, List.reduceOption_append, List.reduceOption_cons_of_some, List.reduceOption_cons_of_none,
      List.length_append, List.length_cons]
    omega

theorem Step.hands_length (step : Step tools p q) : q.hands.length = p.hands.length := by
  cases step <;> simp

-- Workers never wait for each other.
theorem exists_step (tools : Tools) (staffed : p.hands ≠ []) (left : ¬ p.Done) : ∃ q, Step tools p q := by
  obtain ⟨waiting, hands, sent⟩ := p
  by_cases busy : ∃ job, some job ∈ hands
  · obtain ⟨job, member⟩ := busy
    obtain ⟨front, back, rfl⟩ := List.append_of_mem member
    exact ⟨_, .send job waiting front back sent⟩
  · have idle : ∀ hand ∈ hands, hand = none := by
      intro hand member
      cases hand with
      | none => rfl
      | some job => exact (busy ⟨job, member⟩).elim
    obtain ⟨hand, back, rfl⟩ := List.exists_cons_of_ne_nil staffed
    obtain rfl := idle hand List.mem_cons_self
    cases waiting with
    | nil => exact (left ⟨rfl, idle⟩).elim
    | cons job waiting => exact ⟨_, .take job waiting [] back sent⟩

theorem exists_done (tools : Tools) (staffed : p.hands ≠ []) : ∃ q, Relation.ReflTransGen (Step tools) p q ∧ q.Done := by
  -- every step leaves less work
  induction size : p.work using Nat.strong_induction_on generalizing p with
  | _ size ih =>
    by_cases done : p.Done
    · exact ⟨p, .refl, done⟩
    · obtain ⟨q, step⟩ := exists_step tools staffed done
      have staffed' : q.hands ≠ [] := by
        intro none
        have length := step.hands_length
        rw [none] at length
        exact staffed (List.length_eq_zero_iff.mp length.symm)
      obtain ⟨last, run, done⟩ := ih q.work (size ▸ step.work_lt) staffed' rfl
      exact ⟨last, .head step run, done⟩

theorem exists_delivers (tools : Tools) (workers : Nat) (jobs : List Element) : ∃ sent, Delivers tools workers jobs sent := by
  have staffed : (start workers jobs).hands ≠ [] := by
    intro none
    have length := congrArg List.length none
    simp [start] at length
  obtain ⟨p, run, done⟩ := exists_done tools staffed
  exact ⟨p.sent, p, run, done, rfl⟩

theorem results_of_run (run : Relation.ReflTransGen (Step tools) p q) : (q.results tools).Perm (p.results tools) := by
  induction run with
  | refl => exact List.Perm.refl _
  | tail _ step ih => exact step.results_perm.trans ih

-- Every job is done once, whoever does it.
theorem Delivers.perm {workers : Nat} {jobs : List Element} {sent : List JobResult}
    (delivered : Delivers tools workers jobs sent) :
    sent.Perm (jobs.zipIdx.map fun (e, index) => Codebase.job tools e index) := by
  obtain ⟨p, run, ⟨empty, idle⟩, rfl⟩ := delivered
  have all := results_of_run run
  have hands : p.hands.reduceOption = [] := by
    rw [List.eq_replicate_of_mem idle, List.reduceOption_replicate_none]
  have none : (start workers jobs).hands.reduceOption = [] := List.reduceOption_replicate_none
  rw [results, results, empty, hands, none] at all
  simpa [start] using all

end Pool

namespace Codebase

variable {c : Codebase} {e e' : Element} {units : List Element}

def updateOrKeep (c : Codebase) (e : Element) : Codebase :=
  match c.update e with
  | .ok (_, c') => c'
  | .error _ => c

-- Brings in a unit whether or not it has changed, if it can be surveyed.
def takeIn (c : Codebase) (e : Element) : Codebase :=
  match survey c.tools e with
  | .ok new => c.bringIn new
  | .error _ => c

theorem survey_ok {tools : Tools} {new : Contribution} (surveyed : survey tools e = .ok new) :
    new.file = e.fileName ∧ new.fingerprint = tools.fingerprint e ∧ ∃ p, surveyUnit p e = .ok new.graph := by
  unfold survey at surveyed
  cases profile : tools.registry.forUnit e with
  | error fault =>
    rw [profile] at surveyed
    cases surveyed
  | ok p =>
    cases graph : surveyUnit p e with
    | error fault =>
      simp only [profile, graph, bind, Except.bind] at surveyed
      cases surveyed
    | ok g =>
      simp only [profile, graph, bind, Except.bind, pure, Except.pure] at surveyed
      cases surveyed
      exact ⟨rfl, rfl, p, graph⟩

theorem updateOrKeep_eq (c : Codebase) (e : Element) :
    c.updateOrKeep e = if c.status e = .unchanged then c else c.takeIn e := by
  unfold updateOrKeep update takeIn
  by_cases same : c.status e = .unchanged
  · rw [if_pos same, if_pos same]
  · rw [if_neg same, if_neg same]
    cases survey c.tools e <;> rfl

@[simp] theorem tools_takeIn (c : Codebase) (e : Element) : (c.takeIn e).tools = c.tools := by
  unfold takeIn
  split
  · unfold bringIn
    split <;> rfl
  · rfl

section Fingerprints

variable {α β : Type} [DecidableEq α]

theorem lookup_filter_ne (l : List (α × β)) (x y : α) :
    (l.filter (·.1 != y)).lookup x = if x = y then none else l.lookup x := by
  induction l with
  | nil => simp
  | cons entry rest ih =>
    obtain ⟨z, value⟩ := entry
    by_cases gone : z = y
    · rw [List.filter_cons_of_neg (by simp [gone]), ih, List.lookup_cons, gone]
      by_cases same : x = y
      · simp [same]
      · simp [same, beq_eq_false_iff_ne.mpr same]
    · rw [List.filter_cons_of_pos (by simpa using gone), List.lookup_cons, List.lookup_cons, ih]
      by_cases same : x = z
      · simp [same, gone]
      · simp [beq_eq_false_iff_ne.mpr same]

end Fingerprints

theorem graph_bringIn (c : Codebase) (new : Contribution) :
    (c.bringIn new).graph = (if (c.fingerprints.lookup new.file).isSome then c.graph.withdrawAndRehome new.file
      else c.graph).mergeLive new.graph := by
  unfold bringIn
  split <;> rfl

theorem fingerprints_bringIn (c : Codebase) (new : Contribution) :
    (c.bringIn new).fingerprints = c.fingerprints.filter (·.1 != new.file) ++ [(new.file, new.fingerprint)] := by
  unfold bringIn
  by_cases known : (c.fingerprints.lookup new.file).isSome = true
  · simp [known, retract]
  · have absent : c.fingerprints.lookup new.file = none := Option.not_isSome_iff_eq_none.mp known
    have others : c.fingerprints.filter (·.1 != new.file) = c.fingerprints := by
      refine List.filter_eq_self.mpr ?_
      intro entry member
      have differ := List.lookup_eq_none_iff.mp absent entry member
      simpa using Ne.symm (by simpa using differ)
    rw [if_neg known, others]

theorem lookup_takeIn (differ : e.fileName ≠ e'.fileName) :
    (c.takeIn e).fingerprints.lookup e'.fileName = c.fingerprints.lookup e'.fileName := by
  unfold takeIn
  cases surveyed : survey c.tools e with
  | error fault => rfl
  | ok new =>
    have file := (survey_ok surveyed).1
    have other : (e'.fileName == e.fileName) = false := beq_eq_false_iff_ne.mpr (Ne.symm differ)
    show (c.bringIn new).fingerprints.lookup e'.fileName = _
    rw [fingerprints_bringIn, List.lookup_append, lookup_filter_ne, file, if_neg (Ne.symm differ), List.lookup_cons, other]
    exact Option.or_none

theorem status_takeIn (differ : e.fileName ≠ e'.fileName) : (c.takeIn e).status e' = c.status e' := by
  unfold status
  rw [lookup_takeIn differ, tools_takeIn]

-- Which units have changed may be found out beforehand, if no two are of one file.
theorem foldl_updateOrKeep (differ : units.Pairwise fun e e' => e.fileName ≠ e'.fileName) (c : Codebase) :
    units.foldl updateOrKeep c = (units.filter (c.status · ≠ .unchanged)).foldl takeIn c := by
  induction units generalizing c with
  | nil => rfl
  | cons e rest ih =>
    obtain ⟨others, differ⟩ := List.pairwise_cons.mp differ
    rw [List.foldl_cons, ih differ, updateOrKeep_eq]
    by_cases same : c.status e = .unchanged
    · rw [if_pos same, List.filter_cons_of_neg (by simp [same])]
    · rw [if_neg same, List.filter_cons_of_pos (by simp [same]), List.foldl_cons]
      refine congrArg (List.foldl takeIn (c.takeIn e)) (List.filter_congr ?_)
      intro e' member
      rw [status_takeIn (others e' member)]

theorem foldl_planUnit_jobs (c : Codebase) (plan : BatchPlan) (units : List Element) :
    (units.foldl c.planUnit plan).jobs =
      plan.jobs ++ ((firstOfEachFile units).filter (!plan.seen.contains ·.fileName)).filter (c.status · ≠ .unchanged) := by
  induction units generalizing plan with
  | nil => simp [firstOfEachFile]
  | cons e rest ih =>
    rw [List.foldl_cons, ih, firstOfEachFile]
    by_cases seen : e.fileName ∈ plan.seen
    · -- a second unit of its file leaves no trace in the jobs
      have planned : (c.planUnit plan e).jobs = plan.jobs ∧ (c.planUnit plan e).seen = plan.seen := by
        simp [planUnit, seen]
      have later : (firstOfEachFile rest).filter (!plan.seen.contains ·.fileName) =
          ((firstOfEachFile rest).filter (·.fileName ≠ e.fileName)).filter (!plan.seen.contains ·.fileName) := by
        rw [List.filter_filter]
        refine List.filter_congr ?_
        intro e' _
        by_cases same : e'.fileName = e.fileName <;> simp [same, seen]
      rw [planned.1, planned.2, later, List.filter_cons_of_neg (by simp [seen])]
    · have planned : (c.planUnit plan e).seen = e.fileName :: plan.seen ∧
          (c.planUnit plan e).jobs = plan.jobs ++ [e].filter (c.status · ≠ .unchanged) := by
        by_cases same : c.status e = .unchanged <;> simp [planUnit, seen, same]
      have later : (firstOfEachFile rest).filter (fun e' => !(e.fileName :: plan.seen).contains e'.fileName) =
          ((firstOfEachFile rest).filter (·.fileName ≠ e.fileName)).filter (!plan.seen.contains ·.fileName) := by
        rw [List.filter_filter]
        refine List.filter_congr ?_
        intro e' _
        by_cases same : e'.fileName = e.fileName <;> simp [same]
      have first : (e :: (firstOfEachFile rest).filter (·.fileName ≠ e.fileName)).filter (!plan.seen.contains ·.fileName) =
          [e] ++ ((firstOfEachFile rest).filter (·.fileName ≠ e.fileName)).filter (!plan.seen.contains ·.fileName) :=
        List.filter_cons_of_pos (by simp [seen])
      rw [planned.1, planned.2, later, first, List.filter_append, List.append_assoc]

theorem plan_jobs (c : Codebase) (units : List Element) :
    (c.plan units).jobs = (firstOfEachFile units).filter (c.status · ≠ .unchanged) := by
  rw [plan, foldl_planUnit_jobs]
  simp

theorem foldl_planUnit_count (c : Codebase) (plan : BatchPlan) (units : List Element) :
    (units.foldl c.planUnit plan).jobs.length + (units.foldl c.planUnit plan).report.unchanged +
        (units.foldl c.planUnit plan).report.failed.length + (units.foldl c.planUnit plan).report.compiled =
      plan.jobs.length + plan.report.unchanged + plan.report.failed.length + plan.report.compiled + units.length := by
  induction units generalizing plan with
  | nil => rfl
  | cons e rest ih =>
    rw [List.foldl_cons, ih, List.length_cons]
    unfold planUnit
    by_cases seen : e.fileName ∈ plan.seen
    · simp [seen]
      omega
    · by_cases same : c.status e = .unchanged <;> simp [seen, same] <;> omega

def ordered (tools : Tools) (jobs : List Element) : List JobResult :=
  jobs.zipIdx.map fun (e, index) => job tools e index

-- The order of arrival does not matter.
theorem mergeSort_eq_ordered {tools : Tools} {jobs : List Element} {sent : List JobResult}
    (same : sent.Perm (ordered tools jobs)) : sent.mergeSort (fun a b => a.index ≤ b.index) = ordered tools jobs := by
  have indexes : (ordered tools jobs).map JobResult.index = List.range jobs.length := by
    rw [ordered, List.map_map]
    exact List.zipIdx_map_snd 0 jobs |>.trans (List.range_eq_range' ▸ rfl)
  have ascending : (ordered tools jobs).Pairwise fun a b => a.index < b.index := by
    rw [← List.pairwise_map, indexes]
    exact List.pairwise_lt_range
  have permuted := (List.mergeSort_perm sent fun a b => a.index ≤ b.index).trans same
  have sorted : (sent.mergeSort fun a b => a.index ≤ b.index).Pairwise fun a b => a.index ≤ b.index := by
    have trans : ∀ a b c : JobResult, decide (a.index ≤ b.index) = true → decide (b.index ≤ c.index) = true →
        decide (a.index ≤ c.index) = true := by
      simpa using fun a b c : JobResult => Nat.le_trans
    have total : ∀ a b : JobResult, (decide (a.index ≤ b.index) || decide (b.index ≤ a.index)) = true := by
      simpa using fun a b : JobResult => Nat.le_total a.index b.index
    exact (List.pairwise_mergeSort trans total sent).imp of_decide_eq_true
  refine List.Perm.eq_of_pairwise ?_ sorted (ascending.imp Nat.le_of_lt) permuted
  intro a b first second below above
  have nodup : ((ordered tools jobs).map JobResult.index).Nodup := indexes ▸ List.nodup_range
  exact List.inj_on_of_nodup_map nodup (permuted.subset first) second (Nat.le_antisymm below above)

theorem foldl_settleOne (c : Codebase) (report : BatchReport) (jobs : List Element) (start : Nat) :
    ∃ report', ((jobs.zipIdx start).map fun (e, index) => job c.tools e index).foldl settleOne (c, report) =
        (jobs.foldl takeIn c, report') ∧
      report'.compiled + report'.failed.length = report.compiled + report.failed.length + jobs.length ∧
      report'.unchanged = report.unchanged := by
  induction jobs generalizing c report start with
  | nil => exact ⟨report, rfl, rfl, rfl⟩
  | cons e rest ih =>
    obtain ⟨next, first, counted, kept⟩ : ∃ next, settleOne (c, report) (job c.tools e start) = (c.takeIn e, next) ∧
        next.compiled + next.failed.length = report.compiled + report.failed.length + 1 ∧
        next.unchanged = report.unchanged := by
      unfold settleOne takeIn job
      cases survey c.tools e with
      | ok new => exact ⟨_, rfl, by simp; omega, rfl⟩
      | error fault => exact ⟨_, rfl, by simp; omega, rfl⟩
    obtain ⟨report', later, counted', kept'⟩ := ih (c.takeIn e) next (start + 1)
    rw [tools_takeIn] at later
    refine ⟨report', ?_, ?_, kept'.trans kept⟩
    · rw [List.zipIdx_cons, List.map_cons, List.foldl_cons, first, later, List.foldl_cons]
    · rw [counted', counted, List.length_cons]
      omega

-- Whatever order the results of a batch come in, the codebase ends up as after updates with the first unit of each file
-- in turn, and every unit is reported.
theorem settle_of_perm (c : Codebase) (units : List Element) {sent : List JobResult}
    (same : sent.Perm (ordered c.tools (c.plan units).jobs)) :
    ∃ report, c.settle (c.plan units).report sent = ((firstOfEachFile units).foldl updateOrKeep c, report) ∧
      report.compiled + report.unchanged + report.failed.length = units.length := by
  obtain ⟨report, settled, counted, kept⟩ := c.foldl_settleOne (c.plan units).report (c.plan units).jobs 0
  refine ⟨report, ?_, ?_⟩
  · rw [settle, mergeSort_eq_ordered same, ordered, settled, plan_jobs, foldl_updateOrKeep (firstOfEachFile_differ units)]
  · have planned := c.foldl_planUnit_count {} units
    simp only [List.length_nil] at planned
    unfold plan at counted kept
    omega

theorem addUnits_fst (c : Codebase) (units : List Element) :
    (c.addUnits units).1 = (firstOfEachFile units).foldl updateOrKeep c := by
  obtain ⟨report, settled, -⟩ := c.settle_of_perm units (List.Perm.refl (ordered c.tools (c.plan units).jobs))
  exact congrArg Prod.fst settled

end Codebase

end ScopeAtlas
