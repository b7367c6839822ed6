import ScopeAtlas.Proofs.LexicalContext

namespace ScopeAtlas

-- A name with the operator behind it, as in `a.` or `a->`.
structure MemberLink where
  name : Element
  operator : Element

namespace MemberLink

def IsWritten (link : MemberLink) : Prop := link.name.tag = "name" ∧ link.operator.isMemberOperator = true

def receiver (link : MemberLink) : String := link.name.lastSegment.identifier

def row (links : List MemberLink) : List Element := links.flatMap fun link => [link.name, link.operator]

end MemberLink

-- These links, in written order, are all that lead up to the end of some elements without a gap.
structure LongestRun (elements : List Element) (links : List MemberLink) : Prop where
  ends : MemberLink.row links <:+ elements
  written : ∀ link ∈ links, link.IsWritten
  longest : ∀ others, MemberLink.row others <:+ elements → (∀ link ∈ others, link.IsWritten) → others.length ≤ links.length

section Runs

variable {before : List Element} {links : List MemberLink}

theorem MemberLink.reverse_row (links : List MemberLink) :
    (row links).reverse = links.reverse.flatMap fun link => [link.operator, link.name] := by
  induction links with
  | nil => rfl
  | cons link rest ih => simp [row] at ih ⊢; simp [ih]

theorem receiverNames_of_links (links : List MemberLink) (written : ∀ link ∈ links, link.IsWritten) (before : List Element) :
    receiverNames (links.flatMap (fun link => [link.operator, link.name]) ++ before) =
      links.map MemberLink.receiver ++ receiverNames before := by
  induction links with
  | nil => rfl
  | cons link rest ih =>
    obtain ⟨isName, isOperator⟩ := written link List.mem_cons_self
    have later := ih fun link listed => written link (List.mem_cons_of_mem _ listed)
    simp [receiverNames, isName, isOperator, MemberLink.receiver, later]

-- The names that are read are those of links that stand next to each other, nearest first.
theorem links_of_receiverNames (before : List Element) : ∃ (links : List MemberLink) (rest : List Element),
    before = links.flatMap (fun link => [link.operator, link.name]) ++ rest ∧ (∀ link ∈ links, link.IsWritten) ∧
      receiverNames before = links.map MemberLink.receiver ∧ receiverNames rest = [] := by
  fun_induction receiverNames before with
  | case1 operator receiver before linked ih =>
    obtain ⟨links, rest, rfl, written, names, ended⟩ := ih
    have facts : operator.isMemberOperator = true ∧ receiver.tag = "name" := by simpa using linked
    refine ⟨⟨receiver, operator⟩ :: links, rest, rfl, ?_, ?_, ended⟩
    · intro link listed
      rcases List.mem_cons.mp listed with rfl | later
      · exact ⟨facts.2, facts.1⟩
      · exact written link later
    · rw [names]
      rfl
  | case2 operator receiver before apart =>
    exact ⟨[], _, rfl, List.forall_mem_nil _, rfl, by simp [receiverNames, apart]⟩
  | case3 before short =>
    refine ⟨[], before, rfl, List.forall_mem_nil _, rfl, ?_⟩
    unfold receiverNames
    split
    · exact absurd rfl (short _ _ _)
    · rfl

theorem exists_longestRun (pre : List Element) : ∃ links, LongestRun pre links ∧
    receiverNames pre.reverse = (links.map MemberLink.receiver).reverse := by
  obtain ⟨links, rest, split, written, names, -⟩ := links_of_receiverNames pre.reverse
  have ends : MemberLink.row links.reverse <:+ pre := by
    refine ⟨rest.reverse, List.reverse_injective ?_⟩
    rw [split, List.reverse_append, List.reverse_reverse, MemberLink.reverse_row, List.reverse_reverse]
  refine ⟨links.reverse, ⟨ends, ?_, ?_⟩, by rw [names, List.map_reverse, List.reverse_reverse]⟩
  · intro link listed
    exact written link (List.mem_reverse.mp listed)
  · rintro others ⟨front, rfl⟩ good
    have read := receiverNames_of_links others.reverse (fun link listed => good link (List.mem_reverse.mp listed))
      front.reverse
    rw [List.reverse_append, MemberLink.reverse_row, read] at names
    have length := congrArg List.length names
    simp only [List.length_append, List.length_map, List.length_reverse] at length ⊢
    omega

end Runs

structure Call.ReachedAs (visible : List Import) (pre : List Element) (e : Element) (c : Call) : Prop where
  chain : ∃ qualifiers last links, (e.element? "name").map (·.segmentNames) = some (qualifiers ++ [last]) ∧
    LongestRun pre links ∧ c.receivers.reverse.map (·.name) = links.map MemberLink.receiver ++ qualifiers
  scopes : ∀ r ∈ c.receivers, r.scope = c.scope
  imports : c.imports = if c.receivers = [] then visible else []

section Reading

variable {p : Profile} {site : Site} {here : ScopeId} {pre : List Element} {e : Element} {c : Call}

theorem Call.ReachedAs.rebind {visible : List Import} (reached : c.ReachedAs visible pre e) (f : ScopeId → ScopeId) :
    (c.rebind f).ReachedAs visible pre e := by
  obtain ⟨⟨qualifiers, last, links, named, run, names⟩, scopes, imports⟩ := reached
  refine ⟨⟨qualifiers, last, links, named, run, ?_⟩, ?_, ?_⟩
  · rw [← names]
    simp only [Call.rebind, List.map_reverse, List.map_map]
    rfl
  · intro r member
    obtain ⟨r', listed, rfl⟩ := List.mem_map.mp member
    exact congrArg f (scopes r' listed)
  · simpa [Call.rebind] using imports

theorem Site.call?_reachedAs (read : site.call? p here pre.reverse e = some c) :
    c.scope = here ∧ c.ReachedAs site.imports pre e := by
  obtain ⟨links, run, names⟩ := exists_longestRun pre
  unfold Site.call? at read
  split at read
  · cases read
  · cases read
  · rename_i first rest written
    cases read
    obtain ⟨name, found, same⟩ := Option.map_eq_some_iff.mp written
    let segments := first :: rest
    have ended : segments.dropLast ++ [segments.getLast (by simp [segments])] = segments := List.dropLast_append_getLast _
    refine ⟨rfl, ⟨segments.dropLast.map (·.identifier), (segments.getLast (by simp [segments])).identifier, links, ?_, run, ?_⟩,
      ?_, ?_⟩
    · rw [found, Option.map_some]
      unfold Element.segmentNames
      rw [same, ← List.map_singleton, ← List.map_append, ended]
    · simp [Site.receivers, names, segments, Function.comp_def]
    · intro r member
      obtain ⟨name, -, rfl⟩ := List.mem_map.mp member
      rfl
    · simp

end Reading

-- Each call of a graph was read from a call element of the unit, and is reached as it is written there.
structure Graph.CallsReachedAsWritten (p : Profile) (unit : Element) (g : Graph) : Prop where
  owner : ∀ x s, g.get? x = some s → ∀ c ∈ s.calls, c.scope = x
  written : ∀ x s, g.get? x = some s → ∀ c ∈ s.calls, ∃ parent e up pre post visible, unit.Path (e :: parent :: up) ∧
    e.tag = "call" ∧ parent.elements = pre ++ e :: post ∧ c.location = .ofElement unit.fileName e false ∧
    c.ReachedAs visible pre e ∧ (p.Orderly → p.importsInForce unit (parent :: up) = .ok visible)

theorem calls_are_reached_as_written (p : Profile) :
    (∀ site here pre e c, Site.call? p site here pre.reverse e = some c → c.scope = here ∧ c.ReachedAs site.imports pre e) ∧
      ∀ unit g, surveyUnit p unit = .ok g → g.CallsReachedAsWritten p unit := by
  refine ⟨fun site here pre e c read => Site.call?_reachedAs read, ?_⟩
  intro unit g surveyed
  refine ⟨?_, ?_⟩
  · intro x s found c member
    have reached : g.Reached fun _ => True := .surveyed trivial surveyed
    obtain ⟨f, rest⟩ := reached.exists_atRest
    exact ((rest.namesOwners found).stands.calls c member).scope.1
  · intro x s found c member
    obtain ⟨parent, e, up, before, around, readAt⟩ := (surveyed_readIn surveyed found).calls c member
    obtain ⟨after, siblings⟩ := readAt.siblings
    obtain ⟨here, read, rename, reads, rfl⟩ := readAt.read
    rw [← before.reverse_reverse] at reads
    refine ⟨parent, e, up, before.reverse, after, around.site.imports, readAt.path, readAt.isCall, siblings,
      readAt.location, (Site.call?_reachedAs reads).2.rebind rename, ?_⟩
    exact fun orderly => (readAt.surrounds orderly).imports

-- `using namespace std; void m() { x + a->b.C::f(); g(); }`
def chainedUnit : Element :=
  let operator (text : String) (rest : Content) := Content.written "operator" (.text text .nil) rest
  let called (name : Content) := Content.written "call" name .nil
  let qualified := Content.written "name" (.name "C" <| operator "::" <| .name "f" .nil) .nil
  let chain := Content.name "x" <| operator "+" <| .name "a" <| operator "->" <| .name "b" <| operator "." <|
    called qualified
  cppUnit (.usingSpace "std" <| .written "function" (.name "m" <| .written "block"
    (.written "expr" chain <| .written "expr" (called (.name "g" .nil)) .nil) .nil) .nil)

def Call.reach (c : Call) : String × List String × List String :=
  (c.name, c.receivers.reverse.map (·.name), c.imports.map Import.render)

theorem chained_call_is_reached_through_all_links :
    ∃ g, surveyUnit .cPlusPlus chainedUnit = .ok g ∧
      (g.get? 1).map (fun s => s.calls.map Call.reach) =
        some [("f", ["a", "b", "C"], []), ("g", [], ["import std.*"])] ∧
      g.CallsReachedAsWritten .cPlusPlus chainedUnit := by
  obtain ⟨g, surveyed, shown⟩ := @surveyed_single .cPlusPlus chainedUnit
    (fun g => (g.get? 1).map (fun s => s.calls.map Call.reach) ==
      some [("f", ["a", "b", "C"], []), ("g", [], ["import std.*"])])
    (by decide +kernel)
  exact ⟨g, surveyed, by simpa using shown, (calls_are_reached_as_written .cPlusPlus).2 chainedUnit g surveyed⟩

end ScopeAtlas
