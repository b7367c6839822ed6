import ScopeAtlas.Graph.Withdraw
import ScopeAtlas.Language.Registry
import ScopeAtlas.Markup.Fingerprint
import ScopeAtlas.Survey.Walk

namespace ScopeAtlas

inductive FileStatus
  | new
  | modified
  | unchanged
deriving DecidableEq, Repr

def FileStatus.text : FileStatus → String
  | new => "new"
  | modified => "modified"
  | unchanged => "unchanged"

-- What a codebase works with: the profiles of the languages, and the hash that makes fingerprints of texts.
structure Tools where
  registry : Registry
  hash : String → String

namespace Tools

-- Each text is its own fingerprint.
def builtin : Tools := { registry := .builtin, hash := id }

def fingerprint (t : Tools) (e : Element) : String := t.hash e.feed

end Tools

structure Codebase where
  tools : Tools
  graph : Graph := .empty
  fingerprints : List (String × String) := []

structure FailedUnit where
  file : String
  reason : String
deriving DecidableEq, Repr

structure BatchReport where
  compiled : Nat := 0
  unchanged : Nat := 0
  failed : List FailedUnit := []
deriving DecidableEq, Repr

def BatchReport.render (r : BatchReport) : String :=
  s!"Program Statistics:\n  Compiled: {r.compiled}\n  Unchanged: {r.unchanged}\n  Failed: {r.failed.length}\n" ++
    String.join (r.failed.map fun f => s!"    {f.file}: {f.reason}\n")

structure Contribution where
  file : String
  fingerprint : String
  graph : Graph

structure JobResult where
  index : Nat
  file : String
  outcome : Except Error Contribution

structure BatchPlan where
  jobs : List Element := []
  report : BatchReport := {}
  seen : List String := []

namespace Codebase

def files (c : Codebase) : List String :=
  (c.fingerprints.map (·.1)).mergeSort fun a b => (Ord.compare a b).isLE

def status (c : Codebase) (e : Element) : FileStatus :=
  match c.fingerprints.lookup e.fileName with
  | none => .new
  | some known => if known = c.tools.fingerprint e then .unchanged else .modified

def survey (t : Tools) (e : Element) : Except Error Contribution := do
  let profile ← t.registry.forUnit e
  let graph ← surveyUnit profile e
  return { file := e.fileName, fingerprint := t.fingerprint e, graph }

def retract (c : Codebase) (file : String) : Codebase :=
  { c with
    graph := c.graph.withdrawAndRehome file
    fingerprints := c.fingerprints.filter (·.1 != file) }

def bringIn (c : Codebase) (new : Contribution) : Codebase :=
  let c := if (c.fingerprints.lookup new.file).isSome then c.retract new.file else c
  { c with
    graph := c.graph.mergeLive new.graph
    fingerprints := c.fingerprints ++ [(new.file, new.fingerprint)] }

-- Sorts out a unit: the second of a file in one batch is refused, one without a change is passed over.
def planUnit (c : Codebase) (plan : BatchPlan) (e : Element) : BatchPlan :=
  let file := e.fileName
  if plan.seen.contains file then
    { plan with
      report.failed := plan.report.failed ++ [{ file, reason := "duplicate unit in batch" }] }
  else
    let plan := { plan with seen := file :: plan.seen }
    if c.status e = .unchanged then { plan with report.unchanged := plan.report.unchanged + 1 }
    else { plan with jobs := plan.jobs ++ [e] }

def plan (c : Codebase) (units : List Element) : BatchPlan := units.foldl c.planUnit {}

def job (t : Tools) (e : Element) (index : Nat) : JobResult where
  index := index
  file := e.fileName
  outcome := survey t e

def settleOne (state : Codebase × BatchReport) (result : JobResult) : Codebase × BatchReport :=
  let (c, report) := state
  match result.outcome with
  | .ok new => (c.bringIn new, { report with compiled := report.compiled + 1 })
  | .error error =>
    (c, { report with failed := report.failed ++ [{ file := result.file, reason := error.message }] })

def settle (c : Codebase) (report : BatchReport) (results : List JobResult) : Codebase × BatchReport :=
  (results.mergeSort fun a b => a.index ≤ b.index).foldl settleOne (c, report)

def addUnits (c : Codebase) (units : List Element) : Codebase × BatchReport :=
  let plan := c.plan units
  c.settle plan.report (plan.jobs.zipIdx.map fun (e, index) => job c.tools e index)

def update (c : Codebase) (e : Element) : Except Error (FileStatus × Codebase) :=
  let status := c.status e
  if status = .unchanged then .ok (status, c)
  else do
    let new ← survey c.tools e
    return (status, c.bringIn new)

def remove (c : Codebase) (file : String) : Bool × Codebase :=
  if (c.fingerprints.lookup file).isSome then (true, c.retract file) else (false, c)

end Codebase

end ScopeAtlas
