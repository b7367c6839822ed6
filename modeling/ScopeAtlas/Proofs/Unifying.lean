import ScopeAtlas.Proofs.Grafting

namespace ScopeAtlas

open Relation

section Mentioning

variable (rename : ScopeId → ScopeId)

-- The scopes that are mentioned, in the order in which they are written. The names in an import are not looked up from
-- any scope.

def QualifierUse.mentions (q : QualifierUse) : List ScopeId := q.scope.toList

mutual

def TypeUse.mentions : TypeUse → List ScopeId
  | ⟨_, qualifiers, arguments, _, scope, _, _⟩ =>
    scope :: (qualifiers.flatMap (·.mentions) ++ TypeUse.mentionsAll arguments)

def TypeUse.mentionsAll : List TypeUse → List ScopeId
  | [] => []
  | u :: rest => u.mentions ++ TypeUse.mentionsAll rest

end

def Variable.mentions (v : Variable) : List ScopeId := v.scope :: v.declaredType.toList.flatMap (·.mentions)

def Argument.mentions : Argument → List ScopeId
  | .variable u => u.scope :: u.receivers.map (·.scope)
  | .literal u => [u.scope]

def Call.mentions (call : Call) : List ScopeId :=
  call.scope :: (call.receivers.map (·.scope) ++ call.arguments.flatMap (·.mentions))

def Parameter.mentions (p : Parameter) : List ScopeId := p.method :: p.declaredType.mentions

def ScopeKind.mentions : ScopeKind → List ScopeId
  | .type definition => definition.parentColumns.uses.flatMap (·.mentions)
  | .method definition => definition.returnType.toList.flatMap (·.mentions) ++
      definition.parameters.flatMap (·.mentions) ++ definition.qualifiers.flatMap (·.mentions)
  | _ => []

def Scope.mentions (s : Scope) : List ScopeId :=
  s.parent.toList ++ s.children ++ s.declared.toList.flatMap (·.mentions) ++ s.calls.flatMap (·.mentions) ++
    s.kind.mentions

theorem flatMap_mentions {α : Type} {l : List α} {change : α → α} {mentions : α → List ScopeId}
    (each : ∀ a ∈ l, mentions (change a) = (mentions a).map rename) :
    (l.map change).flatMap mentions = (l.flatMap mentions).map rename := by
  rw [List.flatMap_map, List.map_flatMap]
  exact List.flatMap_congr each

theorem QualifierUse.mentions_rebind (q : QualifierUse) : (q.rebind rename).mentions = q.mentions.map rename := by
  unfold mentions rebind
  cases q.scope <;> rfl

mutual

theorem TypeUse.mentions_rebind : ∀ u : TypeUse, (u.rebind rename).mentions = u.mentions.map rename
  | ⟨name, qualifiers, arguments, imports, scope, location, language⟩ => by
    have inner := TypeUse.mentionsAll_rebind arguments
    have outer := flatMap_mentions rename fun (q : QualifierUse) (_ : q ∈ qualifiers) => q.mentions_rebind rename
    rw [rebind, mentions, mentions, inner, outer, List.map_cons, List.map_append]

theorem TypeUse.mentionsAll_rebind :
    ∀ uses : List TypeUse, mentionsAll (rebindAll rename uses) = (mentionsAll uses).map rename
  | [] => rfl
  | u :: rest => by
    rw [rebindAll, mentionsAll, mentionsAll, mentions_rebind u, mentionsAll_rebind rest, List.map_append]

end

theorem TypeUse.toList_mentions_rebind (u : Option TypeUse) :
    (u.map (·.rebind rename)).toList.flatMap mentions = (u.toList.flatMap mentions).map rename := by
  cases u <;> simp [mentions_rebind]

theorem Variable.mentions_rebind (v : Variable) : (v.rebind rename).mentions = v.mentions.map rename := by
  rw [mentions, mentions, List.map_cons, ← TypeUse.toList_mentions_rebind]
  rfl

theorem Argument.mentions_rebind (a : Argument) : (a.rebind rename).mentions = a.mentions.map rename := by
  rcases a with u | u
  · simp [mentions, rebind, VariableUse.rebind, NameUse.rebind]
  · rfl

theorem Call.mentions_rebind (call : Call) : (call.rebind rename).mentions = call.mentions.map rename := by
  have arguments := flatMap_mentions rename fun (a : Argument) (_ : a ∈ call.arguments) => a.mentions_rebind rename
  simp [mentions, rebind, arguments, NameUse.rebind]

theorem Parameter.mentions_rebind (p : Parameter) : (p.rebind rename).mentions = p.mentions.map rename := by
  rw [mentions, mentions, List.map_cons, ← TypeUse.mentions_rebind]
  rfl

theorem ScopeKind.mentions_rebind (kind : ScopeKind) : (kind.rebind rename).mentions = kind.mentions.map rename := by
  cases kind with
  | block | space => rfl
  | type definition =>
    exact flatMap_mentions rename fun use _ => use.mentions_rebind rename
  | method definition =>
    have parameters := flatMap_mentions rename
      fun (p : Parameter) (_ : p ∈ definition.parameters) => p.mentions_rebind rename
    have qualifiers := flatMap_mentions rename
      fun (q : QualifierUse) (_ : q ∈ definition.qualifiers) => q.mentions_rebind rename
    simp only [rebind, MethodDefinition.rebind, mentions, TypeUse.toList_mentions_rebind, parameters, qualifiers,
      List.map_append]

theorem Scope.mentions_rebind (s : Scope) : (s.rebind rename).mentions = s.mentions.map rename := by
  have links : (s.parent.map rename).toList = s.parent.toList.map rename := by cases s.parent <;> rfl
  have declared := flatMap_mentions rename fun (v : Variable) (_ : v ∈ s.declared.toList) => v.mentions_rebind rename
  have calls := flatMap_mentions rename fun (c : Call) (_ : c ∈ s.calls) => c.mentions_rebind rename
  simp only [mentions, rebind, links, VariableTable.rebind_toList, declared, calls, ScopeKind.mentions_rebind,
    List.map_append]

end Mentioning

section Returning

def Scope.IsSpecial (s : Scope) : Prop := ∃ m, s.kind = .method m ∧ (m.isConstructor = true ∨ m.isDestructor = true)

def Scope.Returns (s : Scope) : Prop := ∃ m, s.kind = .method m ∧ m.returnType ≠ none

def Scope.ReturnsFit (s : Scope) : Prop := s.IsSpecial → ¬ s.Returns

def Graph.ReturnsFit (g : Graph) : Prop := ∀ x s, g.get? x = some s → s.ReturnsFit

variable {mine theirs s : Scope}

theorem Scope.isSpecial_unite (alike : mine.category = theirs.category) : (mine.unite theirs).IsSpecial ↔ mine.IsSpecial := by
  unfold IsSpecial
  rw [unite_kind]
  unfold category at alike
  cases here : mine.kind <;> cases there : theirs.kind <;> simp_all [ScopeKind.category, ScopeKind.unite,
    MethodDefinition.unite]

theorem Scope.returns_unite (alike : mine.category = theirs.category) :
    (mine.unite theirs).Returns ↔ mine.Returns ∨ theirs.Returns := by
  unfold Returns
  rw [unite_kind]
  unfold category at alike
  cases here : mine.kind <;> cases there : theirs.kind <;> simp_all [ScopeKind.category, ScopeKind.unite,
    MethodDefinition.unite, preferred_eq_none, imp_iff_not_or]

-- A union keeps to the rule unless a constructor or destructor takes in a method that returns a value.
theorem Scope.returnsFit_unite (fits : mine.ReturnsFit) (alike : mine.category = theirs.category) :
    (mine.unite theirs).ReturnsFit ↔ ¬ (mine.IsSpecial ∧ theirs.Returns) := by
  unfold ReturnsFit at fits ⊢
  rw [isSpecial_unite alike, returns_unite alike]
  tauto

theorem Scope.isSpecial_rebind (rename : ScopeId → ScopeId) : (s.rebind rename).IsSpecial ↔ s.IsSpecial := by
  unfold IsSpecial rebind
  cases kind : s.kind <;> simp [ScopeKind.rebind, MethodDefinition.rebind]

theorem Scope.returns_rebind (rename : ScopeId → ScopeId) : (s.rebind rename).Returns ↔ s.Returns := by
  unfold Returns rebind
  cases kind : s.kind <;> simp [ScopeKind.rebind, MethodDefinition.rebind]

theorem Scope.returnsFit_rebind (rename : ScopeId → ScopeId) : (s.rebind rename).ReturnsFit ↔ s.ReturnsFit := by
  unfold ReturnsFit
  rw [isSpecial_rebind, returns_rebind]

theorem Scope.IsSpecial.of_sameEntity (special : mine.IsSpecial) (same : mine.sameEntity theirs = true) :
    theirs.IsSpecial := by
  obtain ⟨m, kind, flags⟩ := special
  unfold sameEntity at same
  rw [kind] at same
  cases there : theirs.kind with
  | method k =>
    simp only [there, Bool.and_eq_true, beq_iff_eq] at same
    obtain ⟨-, ⟨ctor, dtor⟩, -⟩ := same
    exact ⟨k, there, by rwa [← ctor, ← dtor]⟩
  | block | space | type => simp [there] at same

theorem joins_returnsFit : Joins fun _ s => s.ReturnsFit where
  left := id
  right := id
  unite mine theirs same := by
    refine (Scope.returnsFit_unite mine (Scope.alike_of_sameEntity same).1).mpr ?_
    rintro ⟨special, returns⟩
    exact theirs (special.of_sameEntity same) returns
  rebind f := (Scope.returnsFit_rebind f).mpr

end Returning

namespace Uniting.Ends

variable {g : Graph} {v : Uniting} {after : Forest} {x y : ScopeId} {s : Scope} {entry : Forest.Entry}

theorem survivor_not_retired (ends : v.Ends g after) (x : ScopeId) :
    v.forward.survivor x ∉ v.forward.map Prod.fst := by
  obtain ⟨-, nodup, disjoint⟩ := List.nodup_append.mp ends.apart
  by_cases retired : x ∈ v.forward.map Prod.fst
  · obtain ⟨⟨source, into⟩, listed, rfl⟩ := List.mem_map.mp retired
    have final : into ∉ v.forward.map Prod.fst := fun gone => disjoint into (ends.targets _ listed) into gone rfl
    rwa [Forwarding.survivor_of_mem nodup listed final]
  · rwa [Forwarding.survivor_of_not_mem retired]

theorem contains_iff (ends : v.Ends g after) : v.settle.graph.contains x = true ↔ x ∈ after.ids := by
  rw [← ends.picture.mem_iff, Forest.ids_mapScopes]

theorem get?_entry (ends : v.Ends g after) (listed : entry ∈ after.entries none) :
    v.settle.graph.get? entry.id =
      some ((entry.scope.rebind v.forward.survivor).linked entry.parent entry.below.roots) := by
  have listed' : entry.mapScopes (·.rebind v.forward.survivor) ∈ (after.mapScopes (·.rebind v.forward.survivor)).entries none := by
    rw [Forest.entries_mapScopes]
    exact List.mem_map_of_mem listed
  have here := ends.picture.shows.atEntry listed'
  rwa [Forest.Entry.mapScopes, Forest.roots_mapScopes] at here

theorem not_mentioned (ends : v.Ends g after) (live : g.contains x = true) (dead : v.settle.graph.contains x = false)
    (found : v.settle.graph.get? y = some s) : x ∉ s.mentions := by
  have retired : x ∈ v.forward.map Prod.fst := by
    refine ((ends.known x).mp live).resolve_left fun kept => ?_
    rw [ends.contains_iff.mpr kept] at dead
    cases dead
  rw [settle_eq, Graph.get?_rebind] at found
  obtain ⟨t, -, rfl⟩ := Option.map_eq_some_iff.mp found
  rw [Scope.mentions_rebind]
  intro member
  obtain ⟨z, -, rfl⟩ := List.mem_map.mp member
  exact ends.survivor_not_retired z retired

end Uniting.Ends

namespace Graph

variable {g h : Graph} {into source x : ScopeId} {mine theirs s : Scope}

-- Two scopes that can be made one, the second going into the first.
structure Unifiable (g : Graph) (into source : ScopeId) : Prop where
  two : into ≠ source
  alike : ∃ mine theirs, g.get? into = some mine ∧ g.get? source = some theirs ∧ mine.Alike theirs
  outside : ¬ TransGen g.Lists source into

theorem Unifiable.not_around (unifiable : g.Unifiable into source) (forest : g.IsForest) :
    source ∉ g.ancestorsAndSelf into := by
  obtain ⟨mine, theirs, here, -⟩ := unifiable.alike
  rw [forest.mem_ancestorsAndSelf_iff (contains_of_get? here), reflTransGen_iff_eq_or_transGen]
  exact fun path => path.elim unifiable.two unifiable.outside

theorem IsForest.unify_eq (forest : g.IsForest) (unifiable : g.Unifiable into source) :
    g.unify into source = (g.uniting into source).outcome.map .ok := by
  obtain ⟨two, ⟨mine, theirs, here, there, sort, name⟩, outside⟩ := unifiable
  rw [← forest.mem_ancestors_iff] at outside
  simp only [unify, here, there]
  rw [if_neg (by simp [two, sort, name]), if_neg outside]

theorem IsForest.unify_refused (forest : g.IsForest) (refused : ¬ g.Unifiable into source) :
    ∃ e, g.unify into source = .ok (.error e) := by
  unfold unify
  split
  · rename_i mine theirs here there
    split
    · exact ⟨_, rfl⟩
    · rename_i allowed
      simp only [not_or, ne_eq, not_not] at allowed
      split
      · exact ⟨_, rfl⟩
      · rename_i outside
        rw [forest.mem_ancestors_iff] at outside
        exact absurd ⟨allowed.1, ⟨mine, theirs, here, there, allowed.2⟩, outside⟩ refused
  · exact ⟨_, rfl⟩

theorem contains_detach (id x : ScopeId) : (g.detach id).contains x = g.contains x := by
  have same := (relinks_detach (g := g) id).same x
  unfold contains
  rw [← Option.isSome_map (f := Scope.identity), same, Option.isSome_map]

theorem conflicts_detach (id : ScopeId) : (g.detach id).conflicts = g.conflicts := by
  unfold detach forgetChild
  split <;> simp

-- The forest before and after: the second scope is cut off, and the first takes it in where it stands.
structure Unification (g : Graph) (into source : ScopeId) where
  scope : Scope
  below : Forest
  around : Forest
  entry : Forest.Entry
  after : Forest
  done : Uniting
  loose : (g.detach source).Pictures (.tree source scope below around)
  listed : entry ∈ around.entries none
  isInto : entry.id = into
  grafts : Forest.Grafts into entry.scope (entry.scope.unite scope) entry.below (entry.below.absorb below) around after
  ends : done.Ends (g.detach source) after
  conflicts : done.graph.conflicts =
    g.conflicts ++ entry.scope.kind.conflicts ((g.detach source).fullName into) scope.kind
  unified : g.unify into source = .ok (.ok done.settle.graph)

theorem IsForest.exists_unification (forest : g.IsForest) (unifiable : g.Unifiable into source) :
    Nonempty (g.Unification into source) := by
  obtain ⟨mine, theirs, here, there, -⟩ := unifiable.alike
  obtain ⟨scope, below, around, loose, entry, listed, same⟩ :=
    forest.exists_loose (contains_of_get? there) (contains_of_get? here) (unifiable.not_around forest)
  obtain ⟨after, grafts, ends, conflicts⟩ := Uniting.join_ends loose listed
  rw [same] at grafts ends conflicts
  rw [conflicts_detach] at conflicts
  have unified : g.unify into source = .ok (.ok (Uniting.join into source { graph := g.detach source }).settle.graph) := by
    rw [forest.unify_eq unifiable, uniting, Change.outcome, ends.missing]
    rfl
  exact ⟨⟨scope, below, around, entry, after, _, loose, listed, same, grafts, ends, conflicts, unified⟩⟩

namespace Unification

variable (u : g.Unification into source)
include u

theorem scope_kind (forest : g.IsForest) (there : g.get? source = some theirs) : u.scope.kind = theirs.kind := by
  have shown := u.loose.shows.1
  rw [forest.get?_detach, there, Option.map_some, if_pos rfl] at shown
  exact (congrArg Scope.kind (Option.some.inj shown)).symm

theorem entry_kind (forest : g.IsForest) (here : g.get? into = some mine) : u.entry.scope.kind = mine.kind := by
  have shown := u.loose.shows.2.2.atEntry u.listed
  rw [u.isInto, forest.get?_detach, here, Option.map_some] at shown
  have same := congrArg Scope.kind (Option.some.inj shown)
  split at same <;> exact same.symm

theorem into_live : u.done.settle.graph.contains into = true := by
  rw [u.ends.contains_iff]
  obtain ⟨entry, listed, same, -⟩ := @Forest.Grafts.exists_entry _ _ _ _ _ _ _ none u.grafts
  exact (Forest.entry_ids_sublist listed).subset (by simp [same])

theorem source_dead : u.done.settle.graph.contains source = false := by
  rw [Bool.eq_false_iff, ne_eq, u.ends.contains_iff, ← List.count_pos_iff]
  have once := List.nodup_iff_count_le_one.mp u.loose.nodup source
  have moved := u.grafts.ids_perm.count_eq source
  have kept := (u.entry.below.absorb_ids_perm u.below).count_eq source
  simp only [Forest.ids_tree, List.count_append, List.count_cons_self] at once moved kept
  omega

theorem root_top (top : ∃ s, g.get? g.root = some s ∧ s.parent = none) (forest : g.IsForest) :
    (∃ s, u.done.settle.graph.get? u.done.settle.graph.root = some s ∧ s.parent = none) ↔ source ≠ g.root := by
  rw [← u.ends.picture.mem_roots_iff, u.ends.root, root_detach, Forest.roots_mapScopes, u.grafts.roots]
  have apart : source ∉ u.around.roots := by
    intro member
    have new := (List.nodup_cons.mp u.loose.nodup).1
    exact new (List.mem_append_right _ (u.around.mem_ids_of_mem_roots member))
  constructor
  · rintro member rfl
    exact apart member
  · intro other
    obtain ⟨s, found, outermost⟩ := top
    obtain ⟨t, found', same⟩ := forest.parent_detach found other.symm
    have member := u.loose.mem_roots_iff.mpr ⟨t, found', same.trans outermost⟩
    exact (List.mem_cons.mp member).resolve_left other.symm

theorem exists_united : ∃ parent children, u.done.settle.graph.get? into =
    some (((u.entry.scope.unite u.scope).rebind u.done.forward.survivor).linked parent children) := by
  obtain ⟨entry, listed, same, united, -⟩ := @Forest.Grafts.exists_entry _ _ _ _ _ _ _ none u.grafts
  have here := u.ends.get?_entry listed
  rw [same, united] at here
  exact ⟨_, _, here⟩

theorem returnsFit_iff (fits : g.ReturnsFit) (forest : g.IsForest) (here : g.get? into = some mine)
    (there : g.get? source = some theirs) (alike : mine.Alike theirs) :
    u.done.settle.graph.ReturnsFit ↔ ¬ (mine.IsSpecial ∧ theirs.Returns) := by
  have mineKind := u.entry_kind forest here
  have theirsKind := u.scope_kind forest there
  have category : u.entry.scope.category = u.scope.category := by
    unfold Scope.category
    rw [mineKind, theirsKind]
    exact alike.1
  have same : mine.IsSpecial ∧ theirs.Returns ↔ u.entry.scope.IsSpecial ∧ u.scope.Returns := by
    unfold Scope.IsSpecial Scope.Returns
    rw [mineKind, theirsKind]
  -- the rule before, in the forest
  have before : ∀ entry ∈ (Forest.tree source u.scope u.below u.around).entries none, entry.scope.ReturnsFit := by
    intro entry listed
    have shown := u.loose.shows.atEntry listed
    rw [forest.get?_detach] at shown
    obtain ⟨s, found, linked⟩ := Option.map_eq_some_iff.mp shown
    have kind : entry.scope.kind = s.kind := by
      have kinds := congrArg Scope.kind linked
      split at kinds <;> exact kinds.symm
    have fit := fits _ s found
    unfold Scope.ReturnsFit Scope.IsSpecial Scope.Returns at fit ⊢
    rwa [kind]
  have fit : u.entry.scope.ReturnsFit := before _ (Forest.mem_entries_tree.mpr (Or.inr (Or.inr u.listed)))
  rw [same, ← Scope.returnsFit_unite fit category]
  constructor
  · intro fits
    obtain ⟨parent, children, found⟩ := u.exists_united
    have fit := fits into _ found
    exact (Scope.returnsFit_rebind u.done.forward.survivor).mp fit
  · intro united x s found
    have outer : ∀ entry ∈ u.around.entries none, entry.scope.ReturnsFit :=
      fun entry listed => before entry (Forest.mem_entries_tree.mpr (Or.inr (Or.inr listed)))
    have inner : ∀ entry ∈ u.entry.below.entries (some u.entry.id), entry.scope.ReturnsFit :=
      fun entry lower => outer entry (Forest.entries_below u.listed lower)
    have moved : ∀ entry ∈ u.below.entries (some source), entry.scope.ReturnsFit :=
      fun entry lower => before entry (Forest.mem_entries_tree.mpr (Or.inr (Or.inl lower)))
    have nested : u.after.Nests (fun _ t => t.ReturnsFit) u.scope :=
      u.grafts.nests (Forest.nests_of_entries outer _) united
        (.absorb joins_returnsFit (Forest.nests_of_entries inner _) (Forest.nests_of_entries moved _))
    have member := u.ends.picture.mem_iff.mpr (contains_of_get? found)
    rw [Forest.ids_mapScopes] at member
    obtain ⟨entry, listed, rfl⟩ := @Forest.exists_entry_of_mem_ids u.after none x member
    rw [u.ends.get?_entry listed] at found
    cases found
    obtain ⟨-, fit⟩ := nested.atEntry listed
    exact (Scope.returnsFit_rebind _).mpr fit

end Unification

structure Unified (g : Graph) (into source : ScopeId) (h : Graph) : Prop where
  live : h.contains into = true
  gone : h.contains source = false
  forest : h.IsForest
  root : h.root = g.root ∧ ((∃ s, h.get? h.root = some s ∧ s.parent = none) ↔ source ≠ g.root)
  returns : h.ReturnsFit ↔
    ¬ ∃ mine theirs, g.get? into = some mine ∧ g.get? source = some theirs ∧ mine.IsSpecial ∧ theirs.Returns
  forwarded : ∀ x, g.contains x = true → h.contains x = false → ∀ y s, h.get? y = some s → x ∉ s.mentions

theorem IsForest.exists_unified (forest : g.IsForest) (top : ∃ s, g.get? g.root = some s ∧ s.parent = none)
    (fits : g.ReturnsFit) (unifiable : g.Unifiable into source) :
    ∃ h, g.unify into source = .ok (.ok h) ∧ g.Unified into source h := by
  obtain ⟨u⟩ := forest.exists_unification unifiable
  obtain ⟨mine, theirs, here, there, alike⟩ := unifiable.alike
  refine ⟨_, u.unified, u.into_live, u.source_dead, u.ends.picture.isForest, ⟨?_, u.root_top top forest⟩, ?_, ?_⟩
  · exact u.ends.root.trans root_detach
  · rw [u.returnsFit_iff fits forest here there alike]
    simp [here, there]
  · intro x live dead y s found
    refine u.ends.not_mentioned ?_ dead found
    rwa [contains_detach]

-- In a forest with a root at the top and no constructor or destructor that returns a value, making two scopes one is
-- refused, and nothing changes, or it is done.
theorem unify_leaves_a_forest (forest : g.IsForest) (top : ∃ s, g.get? g.root = some s ∧ s.parent = none)
    (fits : g.ReturnsFit) (into source : ScopeId) :
    (¬ g.Unifiable into source ∧ ∃ e, g.unify into source = .ok (.error e)) ∨
      (g.Unifiable into source ∧ ∃ h, g.unify into source = .ok (.ok h) ∧ g.Unified into source h) := by
  by_cases unifiable : g.Unifiable into source
  · exact Or.inr ⟨unifiable, forest.exists_unified top fits unifiable⟩
  · exact Or.inl ⟨unifiable, forest.unify_refused unifiable⟩

def loose (scopes : List Scope) : Graph where
  slots := ((Scope.global :: scopes).map some).toArray
  root := 0

theorem get?_loose (scopes : List Scope) : (loose scopes).get? x = (Scope.global :: scopes)[x]? := by
  unfold get? loose
  rw [List.getElem?_toArray, List.getElem?_map]
  cases (Scope.global :: scopes)[x]? <;> rfl

section Loose

variable {scopes : List Scope} (unlinked : ∀ s ∈ scopes, s.parent = none ∧ s.children = [])
include unlinked

theorem links_loose (found : (loose scopes).get? x = some s) : s.parent = none ∧ s.children = [] := by
  rw [get?_loose] at found
  rcases List.mem_cons.mp (List.mem_of_getElem? found) with rfl | member
  · exact ⟨rfl, rfl⟩
  · exact unlinked s member

theorem not_transGen_loose (x y : ScopeId) : ¬ TransGen (loose scopes).Lists x y := by
  intro path
  obtain ⟨c, ⟨s, found, listed⟩, -⟩ := TransGen.head'_iff.mp path
  rw [(links_loose unlinked found).2] at listed
  cases listed

theorem isForest_loose : (loose scopes).IsForest where
  once x s found := by
    rw [(links_loose unlinked found).2]
    exact List.nodup_nil
  child x c lists := absurd (.single lists) (not_transGen_loose unlinked x c)
  listed x s p found above := by
    rw [(links_loose unlinked found).1] at above
    cases above
  acyclic x := not_transGen_loose unlinked x x

end Loose

def methodCalled (name : String) (m : MethodDefinition) : Scope := { name, kind := .method m }

-- `void Foo();`, `int Foo();`, a constructor `Foo();` and a namespace without a name.
def fooScopes : List Scope :=
  [methodCalled "Foo" {}, methodCalled "Foo" { returnType := some { name := "int", scope := 2 } },
    methodCalled "Foo" { isConstructor := true }, { kind := .space false }]

theorem fooScopes_unlinked : ∀ s ∈ fooScopes, s.parent = none ∧ s.children = [] := by
  simp [fooScopes, methodCalled]

theorem fooScopes_top : ∃ s, (loose fooScopes).get? (loose fooScopes).root = some s ∧ s.parent = none :=
  ⟨.global, rfl, rfl⟩

theorem fooScopes_returnsFit : (loose fooScopes).ReturnsFit := by
  intro x s found
  rw [get?_loose] at found
  have member := List.mem_of_getElem? found
  simp only [fooScopes, List.mem_cons, List.not_mem_nil, or_false] at member
  rintro ⟨m, kind, special⟩ ⟨m', kind', returns⟩
  rw [kind] at kind'
  cases kind'
  rcases member with rfl | rfl | rfl | rfl | rfl <;> cases kind <;> simp at special returns

theorem fooScopes_unifiable (into source : ScopeId) (two : into ≠ source) (here : (loose fooScopes).get? into = some mine)
    (there : (loose fooScopes).get? source = some theirs) (alike : mine.Alike theirs) :
    (loose fooScopes).Unifiable into source :=
  ⟨two, ⟨mine, theirs, here, there, alike⟩, not_transGen_loose fooScopes_unlinked source into⟩

-- The two functions become one, which returns a value.
theorem functions_are_made_one :
    (loose fooScopes).IsForest ∧ (loose fooScopes).ReturnsFit ∧
      ∃ h, (loose fooScopes).unify 1 2 = .ok (.ok h) ∧ h.contains 1 = true ∧ h.contains 2 = false ∧ h.IsForest ∧
        (∃ s, h.get? h.root = some s ∧ s.parent = none) ∧ h.ReturnsFit := by
  have forest := isForest_loose fooScopes_unlinked
  have unifiable : (loose fooScopes).Unifiable 1 2 := fooScopes_unifiable 1 2 (by decide) rfl rfl ⟨rfl, rfl⟩
  refine ⟨forest, fooScopes_returnsFit, ?_⟩
  rcases unify_leaves_a_forest forest fooScopes_top fooScopes_returnsFit 1 2 with ⟨refused, -⟩ | ⟨-, h, unified, left⟩
  · exact absurd unifiable refused
  · refine ⟨h, unified, left.live, left.gone, left.forest, left.root.2.mpr (by decide), left.returns.mpr ?_⟩
    rintro ⟨mine, theirs, here, there, ⟨m, kind, special⟩, -⟩
    cases here
    cases kind
    simp at special

-- The constructor takes in the function that returns a value, and the namespace takes in the root.
theorem unify_gives_a_constructor_a_type_and_retires_the_root :
    (loose fooScopes).IsForest ∧ (∃ s, (loose fooScopes).get? (loose fooScopes).root = some s ∧ s.parent = none) ∧
      (loose fooScopes).ReturnsFit ∧
      (∃ h, (loose fooScopes).unify 3 2 = .ok (.ok h) ∧ ¬ h.ReturnsFit) ∧
      ∃ h, (loose fooScopes).unify 4 0 = .ok (.ok h) ∧ h.contains h.root = false := by
  have forest := isForest_loose fooScopes_unlinked
  refine ⟨forest, fooScopes_top, fooScopes_returnsFit, ?_, ?_⟩
  · obtain ⟨h, unified, left⟩ := forest.exists_unified fooScopes_top fooScopes_returnsFit
      (fooScopes_unifiable 3 2 (by decide) rfl rfl ⟨rfl, rfl⟩)
    refine ⟨h, unified, fun fits => left.returns.mp fits ⟨_, _, rfl, rfl, ⟨_, rfl, Or.inl rfl⟩, _, rfl, ?_⟩⟩
    exact Option.some_ne_none _
  · obtain ⟨h, unified, left⟩ := forest.exists_unified fooScopes_top fooScopes_returnsFit
      (fooScopes_unifiable 4 0 (by decide) rfl rfl ⟨rfl, rfl⟩)
    refine ⟨h, unified, ?_⟩
    rw [left.root.1]
    exact left.gone

end Graph

end ScopeAtlas
