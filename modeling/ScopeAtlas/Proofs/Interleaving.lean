import ScopeAtlas.Proofs.Gathering

namespace ScopeAtlas

namespace Codebase

variable {strict : Prop} {c : Codebase} {e : Element} {f : Forest} {file : String}

-- A unit of another file leaves the share of a file as it is.
theorem share_takeIn (rest : c.graph.AtRest False f) (differ : e.fileName ≠ file) :
    (∃ f', (c.takeIn e).graph.AtRest False f') ∧
      ∀ path, (c.takeIn e).graph.share file path = c.graph.share file path := by
  unfold takeIn
  cases surveyed : survey c.tools e with
  | error fault => exact ⟨⟨f, rest⟩, fun _ => rfl⟩
  | ok new =>
    obtain ⟨own, -, p, graph⟩ := survey_ok surveyed
    obtain ⟨h, right⟩ := Graph.atRest_surveyed False.elim graph
    have unseen : ¬ new.graph.Sees file := fun sees => differ (Graph.surveyed_sees graph sees).symm
    dsimp only
    rw [graph_bringIn]
    split
    · have left := rest.withdrawAndRehome new.file
      refine ⟨⟨_, left.mergeLive right⟩, fun path => ?_⟩
      refine (left.share_merged right (left.mergeLive right) unseen path).trans ?_
      exact rest.share_withdrawn left (own ▸ differ) path
    · exact ⟨⟨_, rest.mergeLive right⟩, rest.share_merged right (rest.mergeLive right) unseen⟩

theorem foldl_takeIn_keeps {units : List Element} (rest : c.graph.AtRest False f)
    (differ : ∀ e ∈ units, e.fileName ≠ file) (path : List Key) :
    (units.foldl takeIn c).graph.share file path = c.graph.share file path := by
  induction units generalizing c f with
  | nil => rfl
  | cons e later ih =>
    obtain ⟨first, others⟩ := List.forall_mem_cons.mp differ
    obtain ⟨⟨f', rest'⟩, same⟩ := share_takeIn rest first
    rw [List.foldl_cons, ih rest' others, same]

theorem foldl_takeIn_lookup {units : List Element} (differ : ∀ e' ∈ units, e'.fileName ≠ e.fileName) (c : Codebase) :
    (units.foldl takeIn c).fingerprints.lookup e.fileName = c.fingerprints.lookup e.fileName := by
  induction units generalizing c with
  | nil => rfl
  | cons e' later ih =>
    obtain ⟨first, others⟩ := List.forall_mem_cons.mp differ
    rw [List.foldl_cons, ih others, lookup_takeIn first]

-- In a batch a unit that is not taken in leaves its file to no other.
theorem differ_of_not_takes {units : List Element} (listed : e ∈ firstOfEachFile units) (passed : c.takes e = false) :
    ∀ e' ∈ (firstOfEachFile units).filter c.takes, e'.fileName ≠ e.fileName := by
  intro e' member
  obtain ⟨listed', taken⟩ := List.mem_filter.mp member
  have other : e' ≠ e := by
    rintro rfl
    rw [passed] at taken
    cases taken
  have symm : Std.Symm fun e e' : Element => e.fileName ≠ e'.fileName := ⟨fun _ _ => Ne.symm⟩
  exact (firstOfEachFile_differ units).forall listed' listed other

-- A batch comes to the same with any number of workers and any order of their results: its codebase, ids and
-- fingerprints included, is the one after an update with the first unit of each file in turn. A unit that cannot be
-- surveyed leaves the fingerprint and the share of its file as they were, and every unit is counted once.
theorem batch_in_any_order (c : Codebase) (units : List Element) (workers : Nat) :
    (∃ sent, Pool.Delivers c.tools workers (c.plan units).jobs sent) ∧
      (∀ sent, Pool.Delivers c.tools workers (c.plan units).jobs sent →
        sent.Perm (ordered c.tools (c.plan units).jobs)) ∧
      (∀ sent, sent.Perm (ordered c.tools (c.plan units).jobs) →
        c.settle (c.plan units).report sent = c.addUnits units) ∧
      (c.addUnits units).1 = (firstOfEachFile units).foldl updateOrKeep c ∧
      (∀ e ∈ firstOfEachFile units, (survey c.tools e).isOk = false →
        (c.addUnits units).1.fingerprints.lookup e.fileName = c.fingerprints.lookup e.fileName ∧
          (c.graph.Reached (fun _ => True) → ∀ path,
            (c.addUnits units).1.graph.share e.fileName path = c.graph.share e.fileName path)) ∧
      (c.addUnits units).2.compiled + (c.addUnits units).2.unchanged + (c.addUnits units).2.failed.length =
        units.length := by
  refine ⟨Pool.exists_delivers _ _ _, fun sent delivered => delivered.perm, ?_, addUnits_fst c units, ?_, ?_⟩
  · intro sent same
    rw [addUnits, settle, settle, mergeSort_eq_ordered same]
    exact congrArg (List.foldl settleOne _) (mergeSort_eq_ordered (List.Perm.refl _)).symm
  · intro e listed fails
    have passed : c.takes e = false := by rw [takes, fails, Bool.and_false]
    have differ := differ_of_not_takes listed passed
    rw [addUnits_fst, foldl_updateOrKeep_eq (firstOfEachFile_differ units)]
    refine ⟨foldl_takeIn_lookup differ c, ?_⟩
    intro reached path
    obtain ⟨f, rest⟩ := @Graph.Reached.atRest False _ _ reached fun _ => False.elim
    exact foldl_takeIn_keeps rest differ path
  · obtain ⟨report, settled, counted⟩ := c.settle_of_perm units (List.Perm.refl _)
    have same : c.addUnits units = _ := settled
    rw [same]
    exact counted

-- A unit in a language that nobody knows, next to a good one and a second one of its file.
theorem unread_unit_keeps_its_file :
    let declared := Graph.functionUnit "a.h" false "int"
    let unread := { declared with attributes := [("filename", "a.h"), ("language", "Cobol")] }
    let units := [unread, Graph.functionUnit "b.cpp" true "void", Graph.functionUnit "a.h" false "long"]
    let c := served .builtin [.update declared]
    unread ∈ firstOfEachFile units ∧ (survey c.tools unread).isOk = false ∧
      (∃ sent, Pool.Delivers c.tools 2 (c.plan units).jobs sent ∧ c.settle (c.plan units).report sent = c.addUnits units) ∧
      (c.addUnits units).1 = (c.updateOrKeep unread).updateOrKeep (Graph.functionUnit "b.cpp" true "void") ∧
      (c.addUnits units).1.fingerprints.lookup "a.h" = c.fingerprints.lookup "a.h" ∧
      (∀ path, (c.addUnits units).1.graph.share "a.h" path = c.graph.share "a.h" path) ∧
      (c.graph.share "a.h" Forest.rootPath).locations ≠ [] ∧
      (c.addUnits units).2.compiled + (c.addUnits units).2.unchanged + (c.addUnits units).2.failed.length = 3 := by
  intro declared unread units c
  have fails : (survey c.tools unread).isOk = false := by decide +kernel
  have first : firstOfEachFile units = [unread, Graph.functionUnit "b.cpp" true "void"] := by decide +kernel
  have listed : unread ∈ firstOfEachFile units := by simp [first]
  have file : unread.fileName = "a.h" := by decide +kernel
  obtain ⟨⟨sent, delivered⟩, once, settled, updated, kept, counted⟩ := batch_in_any_order c units 2
  obtain ⟨print, share⟩ := kept unread listed fails
  rw [first] at updated
  rw [file] at print share
  refine ⟨listed, fails, ⟨sent, delivered, settled sent (once sent delivered)⟩, ?_, ?_, ?_, ?_, ?_⟩
  · rw [updated, List.foldl_cons, List.foldl_cons, List.foldl_nil]
  · exact print
  · exact share (reached_served _ _)
  · decide +kernel
  · exact counted

end Codebase

end ScopeAtlas
