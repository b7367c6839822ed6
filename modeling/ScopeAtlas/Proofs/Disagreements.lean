import ScopeAtlas.Proofs.Unifying

namespace ScopeAtlas

open Relation

namespace Parameter

def disagreement? (method : String) (position : Nat) (mine theirs : Parameter) : Option Conflict :=
  if mine.declaredType.name = theirs.declaredType.name then none
  else some {
    method, position
    keptType := mine.declaredType.render
    discardedType := theirs.declaredType.render
    keptLocation := mine.locations.head?
    discardedLocation := theirs.locations.head? }

-- The disagreements at the positions that both lists have, in ascending order.
def disagreements (method : String) (mine theirs : List Parameter) : List Conflict :=
  (List.range (min mine.length theirs.length)).filterMap fun i =>
    mine[i]?.bind fun p => theirs[i]?.bind fun q => disagreement? method i p q

theorem conflicts_from (method : String) (start : Nat) (mine theirs : List Parameter) :
    conflicts method start mine theirs = (List.range (min mine.length theirs.length)).filterMap fun i =>
      mine[i]?.bind fun p => theirs[i]?.bind fun q => disagreement? method (start + i) p q := by
  induction mine generalizing start theirs with
  | nil => simp [conflicts]
  | cons p mine ih =>
    cases theirs with
    | nil => simp [conflicts]
    | cons q theirs =>
      have later := ih (start + 1) theirs
      simp only [Nat.add_assoc, Nat.add_comm 1] at later
      have first : conflicts method start (p :: mine) (q :: theirs) =
          (disagreement? method start p q).toList ++ conflicts method (start + 1) mine theirs := by
        rw [conflicts, disagreement?]
        split <;> rfl
      rw [first, later, List.length_cons, List.length_cons, Nat.succ_min_succ, List.range_succ_eq_map, List.filterMap_cons,
        List.filterMap_map]
      cases answer : disagreement? method start p q <;> simp [answer]

theorem conflicts_eq (method : String) (mine theirs : List Parameter) :
    conflicts method 0 mine theirs = disagreements method mine theirs := by
  rw [conflicts_from, disagreements]
  simp only [Nat.zero_add]

theorem uniteAll_places (mine theirs : List Parameter) :
    (uniteAll mine theirs).map (fun p => (p.position, p.declaredType)) = mine.map fun p => (p.position, p.declaredType) :=
  map_uniteAll fun p q => by rw [unite_position, unite_declaredType]

end Parameter

theorem ScopeKind.conflicts_of_ne_method {mine theirs : ScopeKind} {method : String} (other : mine.category ≠ .method) :
    mine.conflicts method theirs = [] := by
  cases mine with
  | method m => exact absurd rfl other
  | block | space | type => rfl

-- The parameters of a method are where and of the types they were, but for the ids of scopes that are gone.
def MethodDefinition.KeepsParameters (gone : ScopeId → Prop) (m m' : MethodDefinition) : Prop :=
  ∃ rename : ScopeId → ScopeId, (∀ x, ¬ gone x → rename x = x) ∧
    m'.parameters.map (fun p => (p.position, p.declaredType)) =
      m.parameters.map fun p => (p.position, p.declaredType.rebind rename)

namespace Uniting

variable {u : Uniting} {x : ScopeId}

theorem need_missing (lost : u.missing = some x) (ids : List ScopeId) : (u.need ids).missing = some x := by
  simp [need, Change.need, lost]

theorem moveWith_missing {join : ScopeId → ScopeId → Uniting → Uniting}
    (joins : ∀ into source (u : Uniting), u.missing = some x → (join into source u).missing = some x)
    (lost : u.missing = some x) (parent child : ScopeId) : (moveWith join parent u child).missing = some x := by
  unfold moveWith placeWith
  split
  · split
    · exact joins _ _ _ lost
    · change (need [child, parent] { u with graph := _ }).missing = some x
      refine need_missing ?_ _
      exact lost
  · exact lost

theorem joinWithin_missing (depth : Nat) :
    ∀ into source (u : Uniting), u.missing = some x → (joinWithin depth into source u).missing = some x := by
  induction depth with
  | zero => exact fun _ _ _ lost => lost
  | succ depth ih =>
    intro into source u lost
    unfold joinWithin
    dsimp only
    split
    · exact need_missing lost _
    · refine List.foldlRecOn _ _ (motive := fun v : Uniting => v.missing = some x) ?_ ?_
      · unfold retire
        refine need_missing ?_ _
        exact need_missing lost _
      · exact fun v lost child _ => moveWith_missing ih lost into child

end Uniting

namespace Graph

variable {g a b : Graph} {parent child into source id x : ScopeId} {mine theirs s : Scope}

theorem conflicts_settle (u : Uniting) : u.settle.graph.conflicts = u.graph.conflicts := by
  rw [Uniting.settle_eq]
  rfl

section Moving

theorem IsForest.addChild_conflicts (forest : g.IsForest) (here : g.contains parent = true) (there : g.contains child = true)
    (outside : ¬ ReflTransGen g.Lists child parent) :
    ∃ id h, g.addChild parent child = .ok (id, h) ∧ h.conflicts = g.conflicts := by
  rw [← forest.mem_ancestorsAndSelf_iff here] at outside
  obtain ⟨s, below, around, loose, entry, listed, rfl⟩ := forest.exists_loose there here outside
  obtain ⟨after, -, ends, same⟩ := Uniting.place_ends loose listed
  let placed := Uniting.place entry.id child { graph := g.detach child }
  have outcome : placed.2.settle.outcome = .ok placed.2.settle.graph := by
    rw [Change.outcome, ends.missing]
  refine ⟨placed.1, placed.2.settle.graph, ?_, (conflicts_settle _).trans (same.trans (conflicts_detach child))⟩
  have moved : g.addChild entry.id child = placed.2.settle.outcome.map fun h => (placed.1, h) := rfl
  rw [moved, outcome]
  rfl

end Moving

section Naming

variable (forest : g.IsForest)
include forest

theorem IsForest.nameOf?_detach (id x : ScopeId) : (g.detach id).nameOf? x = g.nameOf? x := by
  rw [nameOf?, nameOf?, forest.get?_detach]
  cases g.get? x with
  | none => rfl
  | some s =>
    rw [Option.map_some]
    split <;> rfl

-- What is around a scope has the same names when some other scope is cut off.
theorem IsForest.fullName_detach (found : g.get? x = some s) (outside : id ∉ g.ancestorsAndSelf x) :
    (g.detach id).fullName x = g.fullName x := by
  obtain ⟨up, above, nodup⟩ := forest.exists_chain found
  rw [ancestorsAndSelf_eq found above nodup, List.mem_cons, not_or] at outside
  obtain ⟨t, found', same⟩ := forest.parent_detach found (Ne.symm outside.1)
  have above' : (g.detach id).Chain t.parent up := by
    rw [same]
    refine above.frame fun y member => ?_
    obtain ⟨s', there⟩ := contains_iff.mp (above.live member)
    have other : y ≠ id := by
      rintro rfl
      exact outside.2 member
    obtain ⟨t', there', same'⟩ := forest.parent_detach there other
    rw [there, there', Option.map_some, Option.map_some, same']
  have names : (g.detach id).nameOf? = g.nameOf? := funext fun y => forest.nameOf?_detach id y
  rw [fullName, fullName, namePath, namePath, qualifierNames, qualifierNames, ancestors_eq found above nodup,
    ancestors_eq found' above' nodup, names]

end Naming

section Merging

-- A root that is not live leaves the first graph as it is, with the second beside it.
theorem join_absent {up : List ScopeId} (found : a.get? x = some s) (above : a.Chain s.parent up) {y : ScopeId}
    (absent : b.get? y = none) : Uniting.join x (y + a.size) { graph := a.absorb b } = { graph := a.absorb b } := by
  have here : (a.absorb b).get? x = some s := by rw [get?_absorb_left b (lt_size_of_get? found), found]
  obtain ⟨depth, size⟩ := Nat.exists_eq_add_one_of_ne_zero (Nat.ne_zero_of_lt (lt_size_of_get? here))
  let u : Uniting := { graph := a.absorb b }
  have live : u.need (u.graph.ancestors x) = u :=
    Uniting.need_of_live fun z member => ancestors_live here above.absorb member
  have gone : u.graph.get? (y + a.size) = none := by rw [get?_absorb_right, absent, Option.map_none]
  rw [Uniting.join, size, Uniting.joinWithin, live]
  simp only [gone, u]

-- Nothing is asked of the second root: it may be gone, or stand below another scope.
theorem IsForest.merge_conflicts (first : a.IsForest) (second : b.IsForest)
    (root : ∃ s, a.get? a.root = some s ∧ s.category ≠ .method) :
    ∃ m, a.merge b = .ok m ∧ m.conflicts = a.conflicts ++ b.conflicts := by
  obtain ⟨s, found, other⟩ := root
  obtain ⟨f, left⟩ := first.exists_pictures
  obtain ⟨k, right⟩ := second.exists_pictures
  obtain ⟨mine, listed, isRoot, rfl⟩ := left.exists_entry found
  have other : mine.scope.kind.category ≠ .method := other
  have top : a.Chain none [] := rfl
  obtain ⟨up, above, inside⟩ := left.shows.exists_chain top listed
  have ends : ∃ v, Uniting.join a.root (b.root + a.size) { graph := a.absorb b } = v ∧ v.missing = none ∧
      v.graph.conflicts = a.conflicts ++ b.conflicts := by
    cases there : b.get? b.root with
    | none => exact ⟨_, join_absent found above there, rfl, rfl⟩
    | some t =>
      obtain ⟨theirs, listed', isRoot', -⟩ := right.exists_entry there
      obtain ⟨v, joined, -, effect, conflicts⟩ := Uniting.join_absorb (left.shows.tree listed) above
        (nodup_of_subperm inside left.nodup) (right.shows.tree listed')
        (right.nodup.sublist (Forest.entry_ids_sublist listed'))
      rw [ScopeKind.conflicts_of_ne_method other, List.append_nil] at conflicts
      rw [isRoot, isRoot'] at joined
      exact ⟨v, joined, effect.missing, conflicts⟩
  obtain ⟨v, joined, complete, conflicts⟩ := ends
  have merging : a.merging b = { graph := v.graph.rebind v.forward.survivor, missing := none } := by
    rw [Graph.merging, joined, Uniting.settle_eq, complete]
  refine ⟨v.graph.rebind v.forward.survivor, ?_, conflicts⟩
  rw [merge, merging]
  rfl

-- A live scope cannot be folded into one that is gone.
theorem merge_of_dead_root {t : Scope} (inside : a.root < a.size) (dead : a.get? a.root = none)
    (there : b.get? b.root = some t) : a.merge b = .error (.notLive a.root) := by
  let u : Uniting := { graph := a.absorb b }
  have gone : u.graph.get? a.root = none := by rw [get?_absorb_left b inside, dead]
  have calm : u.need (u.graph.ancestors a.root) = u :=
    Uniting.need_of_live (by simp [ancestors, ancestorsAndSelf, contains, gone])
  have found : u.graph.get? (b.root + a.size) = some (t.rebind (· + a.size)) := by
    rw [get?_absorb_right, there, Option.map_some]
  have lost : (u.retire a.root (b.root + a.size) (t.rebind (· + a.size))).missing = some a.root := by
    have still : (u.graph.fold a.root (b.root + a.size) (t.rebind (· + a.size))).contains a.root = false := by
      simp only [fold, get?_setSlot_none, gone, ite_self, contains]
      rfl
    simp [Uniting.retire, Uniting.need, Change.need, still, u]
  have joined : (Uniting.join a.root (b.root + a.size) u).missing = some a.root := by
    obtain ⟨depth, size⟩ := Nat.exists_eq_add_one_of_ne_zero (Nat.ne_zero_of_lt (lt_size_of_get? found))
    rw [Uniting.join, size, Uniting.joinWithin, calm]
    simp only [found]
    refine List.foldlRecOn _ _ (motive := fun v : Uniting => v.missing = some a.root) lost ?_
    exact fun v lost child _ => Uniting.moveWith_missing (Uniting.joinWithin_missing depth) lost a.root child
  have settled : (a.merging b).missing = some a.root := by
    rw [merging, Uniting.settle_eq]
    exact joined
  rw [merge, Change.outcome, settled]

end Merging

section Unifying

variable {m k : MethodDefinition} (u : g.Unification into source) (forest : g.IsForest) (here : g.get? into = some mine)
  (there : g.get? source = some theirs)
include u forest here there

theorem Unification.conflicts_eq (unifiable : g.Unifiable into source) :
    u.done.settle.graph.conflicts = g.conflicts ++ mine.kind.conflicts (g.fullName into) theirs.kind := by
  rw [conflicts_settle, u.conflicts, forest.fullName_detach here (unifiable.not_around forest),
    u.entry_kind forest here, u.scope_kind forest there]

theorem Unification.keepsParameters (method : mine.kind = .method m) (method' : theirs.kind = .method k) :
    ∃ s m', u.done.settle.graph.get? into = some s ∧ s.kind = .method m' ∧
      m.KeepsParameters (fun x => g.contains x = true ∧ u.done.settle.graph.contains x = false) m' := by
  obtain ⟨parent, children, found⟩ := u.exists_united
  have kind := Scope.unite_kind u.entry.scope u.scope
  rw [u.entry_kind forest here, u.scope_kind forest there, method, method'] at kind
  refine ⟨_, _, found, congrArg (ScopeKind.rebind u.done.forward.survivor) kind, u.done.forward.survivor, ?_, ?_⟩
  · intro x kept
    refine Forwarding.survivor_of_not_mem fun retired => kept ⟨?_, ?_⟩
    · rw [← contains_detach source]
      exact (u.ends.known x).mpr (Or.inr retired)
    · rw [Bool.eq_false_iff, ne_eq, u.ends.contains_iff]
      exact fun kept => (List.nodup_append.mp u.ends.apart).2.2 x kept x retired rfl
  · have places := congrArg (List.map fun p => (p.1, p.2.rebind u.done.forward.survivor))
      (Parameter.uniteAll_places m.parameters k.parameters)
    simpa [MethodDefinition.rebind, MethodDefinition.unite, Parameter.rebind, Function.comp_def] using places

end Unifying

-- What is on record, and what the first scope keeps, after a second scope was folded into it on demand.
structure RecordsUnion (g : Graph) (into : ScopeId) (mine theirs : Scope) (h : Graph) : Prop where
  methods : ∀ m k, mine.kind = .method m → theirs.kind = .method k →
    h.conflicts = g.conflicts ++ Parameter.disagreements (g.fullName into) m.parameters k.parameters
  others : mine.category ≠ .method → h.conflicts = g.conflicts
  kept : ∀ m, mine.kind = .method m → ∃ s m', h.get? into = some s ∧ s.kind = .method m' ∧
    m.KeepsParameters (fun x => g.contains x = true ∧ h.contains x = false) m'

theorem IsForest.unify_records (forest : g.IsForest) (unifiable : g.Unifiable into source) :
    ∃ mine theirs h, g.get? into = some mine ∧ g.get? source = some theirs ∧ g.unify into source = .ok (.ok h) ∧
      g.RecordsUnion into mine theirs h := by
  obtain ⟨u⟩ := forest.exists_unification unifiable
  obtain ⟨mine, theirs, here, there, alike, -⟩ := unifiable.alike
  have recorded := u.conflicts_eq forest here there unifiable
  refine ⟨mine, theirs, _, here, there, u.unified, ?_, ?_, ?_⟩
  · intro m k method method'
    rw [recorded, method, method', ScopeKind.conflicts, Parameter.conflicts_eq]
  · intro other
    rw [recorded, ScopeKind.conflicts_of_ne_method other, List.append_nil]
  · intro m method
    obtain ⟨k, method'⟩ : ∃ k, theirs.kind = .method k := by
      unfold Scope.category at alike
      rw [method] at alike
      cases kind : theirs.kind <;> simp_all [ScopeKind.category]
    exact u.keepsParameters forest here there method method'

-- In a forest, moving a scope to a place outside what is below it records nothing; merging another forest into it
-- appends the record of that one, if there is a root to merge it into; and making two scopes one, where it is not
-- refused, records just where the parameters of two methods disagree.
theorem conflicts_are_recorded_exactly (forest : g.IsForest) :
    (∀ parent child, g.contains parent = true → g.contains child = true → ¬ ReflTransGen g.Lists child parent →
      ∃ id h, g.addChild parent child = .ok (id, h) ∧ h.conflicts = g.conflicts) ∧
    (∀ other : Graph, other.IsForest →
      ((∃ s, g.get? g.root = some s ∧ s.category ≠ .method) →
        ∃ m, g.merge other = .ok m ∧ m.conflicts = g.conflicts ++ other.conflicts) ∧
      (g.root < g.size → g.contains g.root = false → other.contains other.root = true →
        g.merge other = .error (.notLive g.root))) ∧
    ∀ into source, (¬ g.Unifiable into source ∧ ∃ e, g.unify into source = .ok (.error e)) ∨
      ∃ mine theirs h, g.get? into = some mine ∧ g.get? source = some theirs ∧ g.unify into source = .ok (.ok h) ∧
        g.RecordsUnion into mine theirs h := by
  refine ⟨fun parent child => forest.addChild_conflicts, ?_, ?_⟩
  · intro other second
    refine ⟨forest.merge_conflicts second, fun inside dead live => ?_⟩
    obtain ⟨t, there⟩ := contains_iff.mp live
    exact merge_of_dead_root inside (Option.not_isSome_iff_eq_none.mp (Bool.eq_false_iff.mp dead)) there
  · intro into source
    by_cases unifiable : g.Unifiable into source
    · exact Or.inr (forest.unify_records unifiable)
    · exact Or.inl ⟨unifiable, forest.unify_refused unifiable⟩

def parameterOf (method : ScopeId) (position : Nat) (type : String) : Parameter where
  name := ""
  declaredType := { name := type, scope := method }
  locations := []
  method := method
  position := position

-- `Foo(int, int)` and `Foo(char, int, bool)`.
def overloads : List Scope :=
  [methodCalled "Foo" { parameters := [parameterOf 1 0 "int", parameterOf 1 1 "int"] },
    methodCalled "Foo" { parameters := [parameterOf 2 0 "char", parameterOf 2 1 "int", parameterOf 2 2 "bool"] }]

theorem overloads_unlinked : ∀ s ∈ overloads, s.parent = none ∧ s.children = [] := by
  simp [overloads, methodCalled]

-- The two functions disagree on their first parameter only. Nothing is recorded when one is moved into the global
-- namespace, or when the graph takes in itself.
theorem overloads_disagree_once :
    (loose overloads).IsForest ∧
      (∃ id h, (loose overloads).addChild 0 1 = .ok (id, h) ∧ h.conflicts = []) ∧
      (∃ m, (loose overloads).merge (loose overloads) = .ok m ∧ m.conflicts = []) ∧
      ∃ h, (loose overloads).unify 1 2 = .ok (.ok h) ∧
        h.conflicts.map (fun c => (c.position, c.keptType, c.discardedType)) = [(0, "int", "char")] := by
  have forest := isForest_loose overloads_unlinked
  obtain ⟨moves, merges, unions⟩ := conflicts_are_recorded_exactly forest
  refine ⟨forest, moves 0 1 rfl rfl ?_, (merges _ forest).1 ⟨.global, rfl, by decide⟩, ?_⟩
  · rw [reflTransGen_iff_eq_or_transGen, not_or]
    exact ⟨by decide, not_transGen_loose overloads_unlinked 1 0⟩
  · rcases unions 1 2 with ⟨-, e, refused⟩ | ⟨mine, theirs, h, here, there, unified, recorded⟩
    · cases refused
    · cases here
      cases there
      refine ⟨h, unified, ?_⟩
      rw [recorded.methods _ _ rfl rfl]
      rfl

-- A namespace without a name takes in the root, and then there is none that an empty graph could be merged into.
theorem merge_fails_at_a_retired_root :
    (loose [{ kind := .space false }]).IsForest ∧ empty.IsForest ∧
      ∃ h, (loose [{ kind := .space false }]).unify 1 0 = .ok (.ok h) ∧ h.IsForest ∧ h.merge empty = .error (.notLive 0) := by
  have unlinked : ∀ s ∈ [({ kind := .space false } : Scope)], s.parent = none ∧ s.children = [] := by simp
  have forest := isForest_loose unlinked
  have unifiable : (loose [{ kind := .space false }]).Unifiable 1 0 :=
    ⟨by decide, ⟨_, _, rfl, rfl, rfl, rfl⟩, not_transGen_loose unlinked 0 1⟩
  obtain ⟨u⟩ := forest.exists_unification unifiable
  refine ⟨forest, isForest_loose (List.forall_mem_nil _), _, u.unified, u.ends.picture.isForest, ?_⟩
  have root : u.done.settle.graph.root = 0 := u.ends.root.trans root_detach
  have size : u.done.settle.graph.size = 2 := u.ends.size.trans size_detach
  have dead : u.done.settle.graph.get? 0 = none := Option.not_isSome_iff_eq_none.mp (Bool.eq_false_iff.mp u.source_dead)
  have fails := merge_of_dead_root (b := empty) (by rw [root, size]; decide) (by rw [root, dead]) rfl
  rwa [root] at fails

end Graph

end ScopeAtlas
