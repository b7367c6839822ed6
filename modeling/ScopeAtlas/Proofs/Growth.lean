import ScopeAtlas.Proofs.Content
import ScopeAtlas.Proofs.Standing

namespace ScopeAtlas

namespace Scope

-- A scope as it is opened at `id`, inside of `above`.
structure Opens (file : String) (above id : ScopeId) (s : Scope) : Prop where
  links : s.linked none [] = s
  declared : s.declared = []
  calls : s.calls = []
  place : ∃ l, s.locations = [l] ∧ l.file = file
  plain : s.isGlobal = false
  block : s.kind = .block → s.name = ""
  positions : ∀ m, s.kind = .method m → m.parameters.map (·.position) = List.range m.parameters.length
  parameters : ∀ m, s.kind = .method m → ∀ p ∈ m.parameters, ∃ l, p.locations = [l] ∧ l.file = file
  trimmed : ∀ m, s.kind = .method m → ∀ p ∈ m.parameters, Text.trim p.name = p.name
  parents : ∀ t, s.kind = .type t → (t.parents.faces.map Prod.fst).Nodup
  derived : ∀ t, s.kind = .type t → ∀ p ∈ t.parents, p.Placed (· = file)
  aligned : ∀ t, s.kind = .type t → t.parentColumns.Aligned
  stands : s.StandsIn (· = id) (· = above)

structure Starts (file : String) (s : Scope) : Prop where
  global : s.kind = .space true
  unnamed : s.name = ""
  declared : s.declared = []
  calls : s.calls = []
  place : ∃ l, s.locations = [l] ∧ l.file = file

end Scope

-- The forests that the survey of a file goes through, with the positions recorded and the number of ids given out.
inductive Grown (file : String) : List String → Nat → Forest → Prop
  | start {s : Scope} (starts : s.Starts file) : Grown file [] 1 (.tree 0 s .nil .nil)
  | opened {seen : List String} {next here : ScopeId} {m s : Scope} {mine rest : Forest}
      (before : Grown file seen next (.tree here m mine rest)) (opens : s.Opens file here next) :
      Grown file seen (next + 1) (.tree next s .nil (.tree here m mine rest))
  | closed {seen : List String} {next id here : ScopeId} {s m : Scope} {below mine rest : Forest}
      (before : Grown file seen next (.tree id s below (.tree here m mine rest))) :
      Grown file seen next ((Forest.tree here m (mine.place id s below) rest).mapScopes
        (·.rebind (mine.placeRetired id s below).survivor))
  | declared {seen : List String} {next here : ScopeId} {m : Scope} {mine rest : Forest} {v : Variable} {l : Location}
      (before : Grown file seen next (.tree here m mine rest)) (stands : v.StandsIn (· = here))
      (place : v.locations = [l]) (inFile : l.file = file) :
      Grown file (l.position :: seen) next (.tree here (m.addVariable v) mine rest)
  | called {seen : List String} {next here : ScopeId} {m : Scope} {mine rest : Forest} {c : Call}
      (before : Grown file seen next (.tree here m mine rest)) (stands : c.StandsIn (· = here))
      (inFile : c.location.file = file) :
      Grown file (c.location.position :: seen) next (.tree here (m.addCall c) mine rest)

end ScopeAtlas
