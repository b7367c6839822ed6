import ScopeAtlas.Lookup.Call
import ScopeAtlas.Proofs.Invariants

namespace ScopeAtlas

-- A search gives an answer with a property or, where it may fail, exceeds its bound.
def Yields (fails : Prop) (post : α → Prop) : Except Fault α → Prop
  | .ok a => post a
  | .error fault => fails ∧ fault = .unbounded

namespace Yields

variable {α β : Type} {fails : Prop} {post : α → Prop} {next : β → Prop} {q : Except Fault α} {l : List α}

theorem mono {weaker : α → Prop} (yields : Yields fails post q) (implied : ∀ a, post a → weaker a) :
    Yields fails weaker q := by
  cases q with
  | ok a => exact implied a yields
  | error fault => exact yields

theorem ends (yields : Yields fails post q) : Yields fails (fun _ => True) q := yields.mono fun _ _ => trivial

theorem answer (yields : Yields False post q) : ∃ a, q = .ok a ∧ post a := by
  cases q with
  | ok a => exact ⟨a, rfl, yields⟩
  | error fault => exact yields.1.elim

theorem exists_ok (yields : Yields False post q) : ∃ a, q = .ok a := by
  obtain ⟨a, answered, -⟩ := yields.answer
  exact ⟨a, answered⟩

theorem bind {f : α → Except Fault β} (first : Yields fails post q) (further : ∀ a, post a → Yields fails next (f a)) :
    Yields fails next (q >>= f) := by
  cases q with
  | ok a => exact further a first
  | error fault => exact first

theorem map {f : α → β} (first : Yields fails post q) (further : ∀ a, post a → next (f a)) :
    Yields fails next (q >>= fun a => pure (f a)) :=
  first.bind further

theorem foldlM {f : β → α → Except Fault β} {b : β} (start : next b)
    (step : ∀ b a, next b → a ∈ l → Yields fails next (f b a)) : Yields fails next (l.foldlM f b) := by
  induction l generalizing b with
  | nil => exact start
  | cons a rest ih =>
    rw [List.foldlM_cons]
    refine (step b a start List.mem_cons_self).bind fun b' kept => ?_
    exact ih kept fun b a kept listed => step b a kept (List.mem_cons_of_mem _ listed)

theorem mapM {f : α → Except Fault β} (each : ∀ a ∈ l, Yields fails next (f a)) :
    Yields fails (fun found => ∀ b ∈ found, next b) (l.mapM f) := by
  induction l with
  | nil => exact List.forall_mem_nil _
  | cons a rest ih =>
    rw [List.mapM_cons]
    refine (each a List.mem_cons_self).bind fun b first => ?_
    exact (ih fun a listed => each a (List.mem_cons_of_mem _ listed)).map fun _ later =>
      List.forall_mem_cons.mpr ⟨first, later⟩

theorem mapM_ends {f : α → Except Fault β} (each : ∀ a ∈ l, Yields fails (fun _ => True) (f a)) :
    Yields fails (fun _ => True) (l.mapM f) :=
  (mapM each).ends

theorem filterM_ends {f : α → Except Fault Bool} (each : ∀ a ∈ l, Yields fails (fun _ => True) (f a)) :
    Yields fails (fun _ => True) (l.filterM f) := by
  have collected : ∀ kept, Yields fails (fun _ => True) (l.filterAuxM f kept) := by
    induction l with
    | nil => exact fun _ => trivial
    | cons a rest ih =>
      obtain ⟨first, later⟩ := List.forall_mem_cons.mp each
      exact fun kept => first.bind fun keep _ => ih later _
  exact (collected []).map fun _ _ => trivial

theorem and {fails' : Prop} {post' : α → Prop} (yields : Yields fails post q) (yields' : Yields fails' post' q) :
    Yields fails (fun a => post a ∧ post' a) q := by
  cases q with
  | ok a => exact ⟨yields, yields'⟩
  | error fault => exact yields

end Yields

section Exact

variable {α β : Type} {l : List α}

theorem mapM_eq_ok {f : α → Except Fault β} {h : α → β} (each : ∀ a ∈ l, f a = .ok (h a)) : l.mapM f = .ok (l.map h) := by
  induction l with
  | nil => rfl
  | cons a rest ih =>
    obtain ⟨first, later⟩ := List.forall_mem_cons.mp each
    rw [List.mapM_cons, first, ih later]
    rfl

theorem filterM_eq_ok {f : α → Except Fault Bool} {test : α → Bool} (each : ∀ a ∈ l, f a = .ok (test a)) :
    l.filterM f = .ok (l.filter test) := by
  have collected : ∀ kept, l.filterAuxM f kept = .ok ((l.filter test).reverse ++ kept) := by
    induction l with
    | nil => exact fun _ => rfl
    | cons a rest ih =>
      obtain ⟨first, later⟩ := List.forall_mem_cons.mp each
      intro kept
      rw [List.filterAuxM, first]
      change rest.filterAuxM f (cond (test a) (a :: kept) kept) = _
      rw [ih later]
      cases passes : test a <;> simp [passes]
  rw [List.filterM, collected]
  change Except.ok ((l.filter test).reverse ++ []).reverse = _
  simp

end Exact

def isId (known new : ScopeId) : Bool := new == known

theorem isId_iff (a b : ScopeId) : isId a b = true ↔ id a = id b := beq_iff_eq.trans eq_comm

theorem addNewIds_eq (found candidates : List ScopeId) : addNewIds found candidates = addUnknown isId found candidates := by
  simp only [addNewIds, addUnknown, List.contains_eq_any_beq]
  rfl

theorem mem_addNewIds {found candidates : List ScopeId} {x : ScopeId} :
    x ∈ addNewIds found candidates ↔ x ∈ found ∨ x ∈ candidates := by
  rw [addNewIds_eq]
  exact mem_addUnknown_iff isId_iff fun _ _ _ _ => id

theorem nodup_addNewIds {found candidates : List ScopeId} (once : found.Nodup) : (addNewIds found candidates).Nodup := by
  have keyed := @nodup_addUnknown _ _ isId id found candidates isId_iff
  rw [List.map_id, List.map_id] at keyed
  rw [addNewIds_eq]
  exact keyed once

def Declared.place : Declared → Bool × ScopeId × Nat
  | .variable holder index _ => (false, holder, index)
  | .parameter holder index _ => (true, holder, index)

theorem Declared.isSame_iff (d d' : Declared) : d.isSame d' = true ↔ d.place = d'.place := by
  cases d <;> cases d' <;> simp [isSame, place]

def Scope.IsType (s : Scope) : Prop := s.category = .type

def TypeUse.contextPaths (g : Graph) (u : TypeUse) : List (List String) :=
  (g.ancestorsAndSelf u.scope).map g.namePath ++
    (u.imports.filter (·.admits (u.qualifierNames.headD ""))).map (·.pathNames)

-- By their number, the names that the context leaves over are the qualifiers.
theorem TypeUse.reads_iff {u : TypeUse} {names context : List String} :
    u.reads names context = true ↔ names = context ++ u.qualifierNames := by
  simp only [reads, Bool.and_eq_true, beq_iff_eq, List.isPrefixOf_iff_prefix, List.isSuffixOf_iff_suffix]
  constructor
  · rintro ⟨⟨long, rest, rfl⟩, ends⟩
    have short : rest.length = u.qualifierNames.length := by simpa using long
    have inside := List.suffix_of_suffix_length_le ends (List.suffix_append context rest) short.ge
    rw [inside.eq_of_length short.symm]
  · rintro rfl
    exact ⟨⟨List.length_append, List.prefix_append _ _⟩, List.suffix_append _ _⟩

structure Scope.IsCalled (category : Category) (name : String) (s : Scope) : Prop where
  sort : s.category = category
  named : s.name = name

namespace Graph

def AllLive (g : Graph) (ids : List ScopeId) : Prop := ∀ x ∈ ids, g.contains x = true

-- Live scopes of a kind, none of them twice.
structure Finds (g : Graph) (fit : Scope → Prop) (ids : List ScopeId) : Prop where
  once : ids.Nodup
  each : ∀ x ∈ ids, ∃ s, g.get? x = some s ∧ fit s

def Declares (g : Graph) (name : String) : Declared → Prop
  | .variable holder index v => ∃ s, g.get? holder = some s ∧ (s.declared.named name)[index]? = some v
  | .parameter holder index p =>
    ∃ s m, g.get? holder = some s ∧ s.method? = some m ∧ m.parameters[index]? = some p ∧ p.name = name

def typesCalled (g : Graph) (name : String) : List ScopeId :=
  (g.scopes.filter fun (_, s) => s.category == .type && s.name == name).map (·.1)

structure FindsDeclared (g : Graph) (name : String) (found : List Declared) : Prop where
  once : (found.map Declared.place).Nodup
  each : ∀ d ∈ found, g.Declares name d

variable {g : Graph} {ids ids' : List ScopeId} {id : ScopeId} {fails : Prop} {fit fit' : Scope → Prop}

theorem AllLive.addNewIds (live : g.AllLive ids) (live' : g.AllLive ids') : g.AllLive (addNewIds ids ids') :=
  fun x member => (mem_addNewIds.mp member).elim (live x) (live' x)

theorem AllLive.of_subset (live : g.AllLive ids) (inside : ids' ⊆ ids) : g.AllLive ids' :=
  fun x member => live x (inside member)

theorem AllLive.flatten {lists : List (List ScopeId)} (live : ∀ ids ∈ lists, g.AllLive ids) : g.AllLive lists.flatten := by
  intro x member
  obtain ⟨ids, listed, inside⟩ := List.mem_flatten.mp member
  exact live ids listed x inside

theorem finds_nil (g : Graph) (fit : Scope → Prop) : g.Finds fit [] := ⟨List.nodup_nil, List.forall_mem_nil _⟩

theorem Finds.live (finds : g.Finds fit ids) : g.AllLive ids := by
  intro x member
  obtain ⟨s, found, -⟩ := finds.each x member
  exact contains_of_get? found

theorem Finds.mono (finds : g.Finds fit ids) (implied : ∀ s, fit s → fit' s) : g.Finds fit' ids := by
  refine ⟨finds.once, ?_⟩
  intro x member
  obtain ⟨s, found, fits⟩ := finds.each x member
  exact ⟨s, found, implied s fits⟩

theorem Finds.sublist (finds : g.Finds fit ids) (inside : ids'.Sublist ids) : g.Finds fit ids' :=
  ⟨finds.once.sublist inside, fun x member => finds.each x (inside.subset member)⟩

theorem Finds.addNewIds (finds : g.Finds fit ids) (finds' : g.Finds fit ids') : g.Finds fit (addNewIds ids ids') :=
  ⟨nodup_addNewIds finds.once, fun x member => (mem_addNewIds.mp member).elim (finds.each x) (finds'.each x)⟩

theorem yields_searchEach {α : Type} {search : α → Except Fault (List ScopeId)} {places : List α}
    (each : ∀ place ∈ places, Yields fails (g.Finds fit) (search place)) :
    Yields fails (g.Finds fit) (searchEach search places) :=
  Yields.foldlM (finds_nil g fit) fun _ place before listed => (each place listed).map fun _ here => before.addNewIds here

theorem scope_eq {s : Scope} (found : g.get? id = some s) : g.scope id = .ok s := by
  rw [scope, found]

theorem mapM_scope (live : g.AllLive ids) : ids.mapM g.scope = .ok (ids.filterMap g.get?) := by
  induction ids with
  | nil => rfl
  | cons x rest ih =>
    obtain ⟨here, later⟩ := List.forall_mem_cons.mp live
    obtain ⟨s, found⟩ := contains_iff.mp here
    rw [List.mapM_cons, scope_eq found, ih later, List.filterMap_cons_some found]
    rfl

theorem yields_scope (live : g.contains id = true) : Yields fails (fun s => g.get? id = some s) (g.scope id) := by
  obtain ⟨s, found⟩ := Option.isSome_iff_exists.mp live
  rw [scope, found]
  exact rfl

theorem yields_flatten {α : Type} {name : String} {search : α → Except Fault (List Declared)} {places : List α}
    (each : ∀ place ∈ places, Yields fails (fun found => ∀ d ∈ found, g.Declares name d) (search place)) :
    Yields fails (fun found => ∀ d ∈ found.flatten, g.Declares name d) (places.mapM search) := by
  refine (Yields.mapM each).mono ?_
  intro lists all d member
  obtain ⟨found, listed, inside⟩ := List.mem_flatten.mp member
  exact all found listed d inside

theorem findsDeclared_addNew {name : String} {found : List Declared} (all : ∀ d ∈ found, g.Declares name d) :
    g.FindsDeclared name (Declared.addNew [] found) where
  once := nodup_addUnknown Declared.isSame_iff List.nodup_nil
  each d member := all d ((mem_addUnknown member).resolve_left List.not_mem_nil)

theorem yields_variablesNamed (name : String) (live : g.contains id = true) :
    Yields fails (fun found => ∀ d ∈ found, g.Declares name d) (g.variablesNamed name id) := by
  refine (yields_scope live).map ?_
  intro s found d member
  obtain ⟨⟨v, index⟩, listed, rfl⟩ := List.mem_map.mp member
  exact ⟨s, found, List.mem_zipIdx_iff_getElem?.mp listed⟩

theorem yields_parametersNamed (name : String) (live : g.contains id = true) :
    Yields fails (fun found => ∀ d ∈ found, g.Declares name d) (g.parametersNamed name id) := by
  refine (yields_scope live).map ?_
  intro s found d member
  obtain ⟨⟨p, index⟩, listed, kept⟩ := List.mem_filterMap.mp member
  rw [List.mem_zipIdx_iff_getElem?] at listed
  cases method : s.method? with
  | none => simp [method] at listed
  | some m =>
    rw [method] at listed
    obtain ⟨same, here⟩ := Option.ite_none_right_eq_some.mp kept
    cases here
    exact ⟨s, m, found, method, listed, eq_of_beq same⟩

theorem mem_typesCalled {name : String} {x : ScopeId} :
    x ∈ g.typesCalled name ↔ ∃ s, g.get? x = some s ∧ s.IsCalled .type name := by
  simp only [typesCalled, List.mem_map, List.mem_filter, Bool.and_eq_true, beq_iff_eq, Prod.exists, exists_and_right,
    exists_eq_right, mem_scopes]
  exact exists_congr fun s => and_congr_right fun _ => ⟨fun called => ⟨called.1, called.2⟩, fun called => ⟨called.1, called.2⟩⟩

theorem finds_typesCalled (g : Graph) (name : String) : g.Finds (Scope.IsCalled .type name) (g.typesCalled name) :=
  ⟨g.nodup_scopes.sublist (List.filter_sublist.map _), fun _ => mem_typesCalled.mp⟩

variable (tree : g.IsOneTree)
include tree

theorem IsOneTree.live_children (id : ScopeId) : g.AllLive (g.children id) := by
  intro c listed
  unfold children at listed
  cases found : g.get? id with
  | none => simp [found] at listed
  | some s =>
    rw [found] at listed
    obtain ⟨t, found', -⟩ := tree.child id c ⟨s, found, listed⟩
    exact contains_of_get? found'

theorem IsOneTree.live_ancestorsAndSelf (id : ScopeId) : g.AllLive (g.ancestorsAndSelf id) := by
  have chain : ∀ bound x, g.contains x = true → g.AllLive (g.chainWithin bound x) := by
    intro bound
    induction bound with
    | zero => exact fun _ _ => List.forall_mem_nil _
    | succ bound ih =>
      intro x live
      refine List.forall_mem_cons.mpr ⟨live, ?_⟩
      obtain ⟨s, found⟩ := Option.isSome_iff_exists.mp live
      have above : g.parent? x = s.parent := by rw [parent?, found]; rfl
      rw [above]
      cases parent : s.parent with
      | none => exact List.forall_mem_nil _
      | some p =>
        obtain ⟨t, found', -⟩ := tree.listed x s p found parent
        exact ih p (contains_of_get? found')
  unfold ancestorsAndSelf
  split
  · rename_i live
    exact chain _ id live
  · exact List.forall_mem_nil _

theorem IsOneTree.childrenWith_eq (test : Scope → Bool) (id : ScopeId) :
    g.childrenWith test id = .ok ((g.children id).filter fun c => (g.get? c).any test) := by
  apply filterM_eq_ok
  intro c listed
  obtain ⟨s, found⟩ := contains_iff.mp (tree.live_children id c listed)
  rw [scope_eq found, found]
  rfl

theorem IsOneTree.yields_childrenWith (test : Scope → Bool) (id : ScopeId) :
    Yields fails (g.Finds fun s => test s = true ∧ s.parent = some id) (g.childrenWith test id) := by
  rw [tree.childrenWith_eq]
  unfold children
  cases found : g.get? id with
  | none => exact finds_nil g _
  | some t =>
    refine ⟨(tree.once id t found).sublist List.filter_sublist, ?_⟩
    intro c member
    obtain ⟨listed, passes⟩ := List.mem_filter.mp member
    obtain ⟨s, here, above⟩ := tree.child id c ⟨t, found, listed⟩
    rw [here] at passes
    exact ⟨s, here, passes, above⟩

theorem IsOneTree.yields_childrenNamedOf (category : Category) (name : String) (id : ScopeId) :
    Yields fails (g.Finds (Scope.IsCalled category name)) (g.childrenNamedOf category name id) := by
  refine (tree.yields_childrenWith _ id).mono ?_
  intro found finds
  refine finds.mono ?_
  intro s passed
  simp only [Bool.and_eq_true, beq_iff_eq] at passed
  exact ⟨passed.1.2, passed.1.1⟩

theorem IsOneTree.yields_spacesAndTypesCalled (name : String) (id : ScopeId) :
    Yields fails (g.Finds fun s => s.IsCalled .space name ∨ s.IsCalled .type name) (g.spacesAndTypesCalled name id) := by
  refine (tree.yields_childrenWith _ id).mono ?_
  intro found finds
  refine finds.mono ?_
  intro s passed
  simp only [Bool.and_eq_true, Bool.or_eq_true, beq_iff_eq] at passed
  exact passed.1.2.imp (fun space => ⟨space, passed.1.1⟩) fun type => ⟨type, passed.1.1⟩

theorem IsOneTree.yields_scopesAtPath (path : List String) : Yields fails g.AllLive (g.scopesAtPath path) := by
  obtain ⟨s, found, -⟩ := tree.root
  refine Yields.foldlM (List.forall_mem_singleton.mpr (contains_of_get? found)) fun reached name _ _ => ?_
  refine (Yields.mapM fun x _ => tree.yields_spacesAndTypesCalled name x).map fun lists called => ?_
  exact AllLive.flatten fun found listed => (called found listed).live

theorem IsOneTree.yields_importedNamed (category : Category) (name : String) (i : Import) :
    Yields fails (g.Finds (Scope.IsCalled category name)) (g.importedNamed category name i) := by
  have imported : Yields fails g.AllLive (g.importedScopes name i) := by
    unfold importedScopes
    split
    · exact tree.yields_scopesAtPath _
    · exact List.forall_mem_nil _
  exact imported.bind fun _ _ => yields_searchEach fun x _ => tree.yields_childrenNamedOf category name x

theorem IsOneTree.qualifiersOf_eq (id : ScopeId) : g.qualifiersOf id = .ok (g.qualifierNames id) := by
  have above : g.AllLive (g.ancestors id) := (tree.live_ancestorsAndSelf id).of_subset (List.tail_subset _)
  rw [qualifiersOf, mapM_scope above, qualifierNames]
  change Except.ok (((g.ancestors id).filterMap g.get?).filterMap (·.pathName?)).reverse = _
  rw [List.filterMap_filterMap]
  rfl

theorem IsOneTree.contexts_eq (u : TypeUse) : u.contexts g = .ok (u.contextPaths g) := by
  have paths : (g.ancestorsAndSelf u.scope).mapM (fun id => do
      return (← g.qualifiersOf id) ++ (← g.scope id).pathName?.toList) = .ok ((g.ancestorsAndSelf u.scope).map g.namePath) := by
    apply mapM_eq_ok
    intro x listed
    obtain ⟨s, found⟩ := contains_iff.mp (tree.live_ancestorsAndSelf u.scope x listed)
    rw [tree.qualifiersOf_eq, scope_eq found, namePath, nameOf?, found]
    rfl
  rw [TypeUse.contexts, paths]
  rfl

theorem IsOneTree.qualifiedCandidates_eq (u : TypeUse) :
    u.qualifiedCandidates g = .ok ((g.typesCalled u.name).filter fun x =>
      (u.contextPaths g).any fun context => g.qualifierNames x == context ++ u.qualifierNames) := by
  rw [TypeUse.qualifiedCandidates, tree.contexts_eq]
  have same (x : ScopeId) (context : List String) :
      u.reads (g.qualifierNames x) context = (g.qualifierNames x == context ++ u.qualifierNames) := by
    rw [Bool.eq_iff_iff, TypeUse.reads_iff, beq_iff_eq]
  simp only [← same]
  apply filterM_eq_ok
  intro x _
  rw [tree.qualifiersOf_eq]
  rfl

theorem IsOneTree.yields_qualifiedCandidates (u : TypeUse) :
    Yields fails (g.Finds (Scope.IsCalled .type u.name)) (u.qualifiedCandidates g) := by
  rw [tree.qualifiedCandidates_eq]
  exact (finds_typesCalled g u.name).sublist List.filter_sublist

omit tree in
theorem yields_firstWith (test : Scope → Bool) (live : g.AllLive ids) :
    Yields fails (fun found => g.Finds (test · = true) found.toList) (g.firstWith? test ids) := by
  induction ids with
  | nil => exact finds_nil g _
  | cons x rest ih =>
    obtain ⟨here, later⟩ := List.forall_mem_cons.mp live
    refine (yields_scope here).bind fun s found => ?_
    split
    · rename_i passes
      exact ⟨List.nodup_singleton x, List.forall_mem_singleton.mpr ⟨s, found, passes⟩⟩
    · exact ih later

theorem IsOneTree.yields_enclosingType (id : ScopeId) :
    Yields fails (fun found => g.Finds Scope.IsType found.toList) (g.enclosingType? id) := by
  refine (yields_firstWith _ (tree.live_ancestorsAndSelf id)).mono fun found finds => ?_
  exact finds.mono fun s type => eq_of_beq type

omit tree

-- The next type that a climb walks is new, so it walks none twice.

theorem not_mem_of_dropWhile {waiting done rest : List ScopeId} {x : ScopeId}
    (first : waiting.dropWhile done.contains = x :: rest) : x ∉ done := by
  have stops := List.head?_dropWhile_not done.contains waiting
  rw [first] at stops
  simpa using stops

theorem nodup_concat {done : List ScopeId} {x : ScopeId} (apart : done.Nodup) (fresh : x ∉ done) : (done ++ [x]).Nodup := by
  rw [List.nodup_append]
  refine ⟨apart, List.nodup_singleton x, ?_⟩
  intro y old z new same
  rw [List.mem_singleton.mp new] at same
  exact fresh (same ▸ old)

-- A way to find parents that works for the types of a kind, whose parents are of that kind again.
def FindsParents (g : Graph) (fails : Prop) (parents : Parents) (known : ScopeId → Prop) : Prop :=
  ∀ x, known x → Yields fails (fun found => ∀ p ∈ found, g.contains p = true ∧ known p) (parents x)

variable {parents : Parents} {known : ScopeId → Prop}

-- A climb walks no type twice, and all but the start are live, so a bound above the size of the arena is never exceeded.
theorem yields_climbWithin (finds : g.FindsParents fails parents known) {start : ScopeId} {bound : Nat}
    {waiting done : List ScopeId} (apart : done.Nodup) (walked : ∀ x ∈ done, (x = start ∨ g.contains x = true) ∧ known x)
    (ahead : ∀ x ∈ waiting, (x = start ∨ g.contains x = true) ∧ known x) (enough : g.size + 1 ≤ done.length + bound) :
    Yields fails (fun found => ∀ x ∈ found, (x = start ∨ g.contains x = true) ∧ known x)
      (climbWithin parents bound waiting done) := by
  have inside : ∀ x, x = start ∨ g.contains x = true → x ∈ start :: List.range g.size := by
    rintro x (rfl | live)
    · exact List.mem_cons_self
    · obtain ⟨s, found⟩ := Option.isSome_iff_exists.mp live
      exact List.mem_cons_of_mem _ (List.mem_range.mpr (lt_size_of_get? found))
  induction bound generalizing waiting done with
  | zero =>
    -- everything there is was walked
    have full : done.Perm (start :: List.range g.size) := by
      refine (apart.subperm fun x listed => inside x (walked x listed).1).perm_of_length_le ?_
      simpa using enough
    have all : waiting.all done.contains = true := by
      refine List.all_eq_true.mpr fun x listed => ?_
      exact List.contains_iff_mem.mpr (full.mem_iff.mpr (inside x (ahead x listed).1))
    rw [climbWithin, if_pos all]
    exact walked
  | succ bound ih =>
    rw [climbWithin]
    cases first : waiting.dropWhile done.contains with
    | nil => exact walked
    | cons x rest =>
      have listed : ∀ y ∈ x :: rest, y ∈ waiting := by
        rw [← first]
        exact (List.dropWhile_sublist _).subset
      have fresh := not_mem_of_dropWhile first
      have place := ahead x (listed x List.mem_cons_self)
      refine (finds x place.2).bind fun found above => ih (nodup_concat apart fresh) ?_ ?_ ?_
      · exact List.forall_mem_append.mpr ⟨walked, List.forall_mem_singleton.mpr place⟩
      · intro y member
        rcases List.mem_append.mp member with parent | later
        · exact ⟨Or.inr (above y parent).1, (above y parent).2⟩
        · exact ahead y (listed y (List.mem_cons_of_mem _ later))
      · simp only [List.length_append, List.length_singleton]
        omega

theorem yields_lineageWith (finds : g.FindsParents fails parents known) (here : known id) :
    Yields fails (fun found => ∀ x ∈ found, (x = id ∨ g.contains x = true) ∧ known x) (g.lineageWith parents id) :=
  yields_climbWithin finds List.nodup_nil (List.forall_mem_nil _) (List.forall_mem_singleton.mpr ⟨Or.inl rfl, here⟩)
    (by simp)

include tree

theorem IsOneTree.yields_membersWith (finds : g.FindsParents fails parents known) (category : Category) (name : String)
    (live : g.contains id = true) (types : g.hasCategory .type id = true → known id) :
    Yields fails (g.Finds (Scope.IsCalled category name)) (g.membersWith parents category name id) := by
  have called := @tree.yields_childrenNamedOf _ fails category name
  refine (called id).bind fun own ownCalled => (yields_scope live).bind fun s found => ?_
  split
  · rename_i type
    have here : known id := types (by rw [hasCategory, found]; exact type)
    refine (yields_lineageWith finds here).bind fun lineage _ => ?_
    exact (yields_searchEach fun x _ => called x).map fun _ => ownCalled.addNewIds
  · exact ownCalled

theorem IsOneTree.yields_outwardWith (finds : g.FindsParents fails parents known) (category : Category) (name : String)
    (imports : List Import) (types : ∀ x ∈ g.ancestorsAndSelf id, g.hasCategory .type x = true → known x) :
    Yields fails (g.Finds (Scope.IsCalled category name)) (g.outwardWith parents category name imports id) := by
  have enclosing : Yields fails (g.Finds (Scope.IsCalled category name))
      (searchEach (g.membersWith parents category name) (g.ancestorsAndSelf id)) := by
    refine yields_searchEach fun x listed => ?_
    exact tree.yields_membersWith finds category name (tree.live_ancestorsAndSelf id x listed) (types x listed)
  refine enclosing.bind fun _ around => ?_
  exact (yields_searchEach fun i _ => tree.yields_importedNamed category name i).map fun _ => around.addNewIds

end Graph

namespace TypeUse

-- The search for a use goes through what a type around it inherits; only a plain name is searched so.
structure Enters (g : Graph) (u : TypeUse) (x : ScopeId) : Prop where
  named : u.name.isEmpty = false
  plain : u.qualifiers.isEmpty = true
  around : x ∈ g.ancestorsAndSelf u.scope
  type : g.hasCategory .type x = true

end TypeUse

namespace Graph

variable {g : Graph} {ids : List ScopeId} {id : ScopeId} {fails : Prop} {parents : Parents} {known : ScopeId → Prop}

variable (tree : g.IsOneTree)
include tree

theorem IsOneTree.yields_candidatesWith {u : TypeUse} (finds : g.FindsParents fails parents known)
    (enters : ∀ x, u.Enters g x → known x) :
    Yields fails (g.Finds (Scope.IsCalled .type u.name)) (u.candidatesWith parents g) := by
  unfold TypeUse.candidatesWith
  split
  · exact finds_nil g _
  · rename_i searched
    rw [Bool.or_eq_true, not_or, Bool.not_eq_true] at searched
    split
    · rename_i plain
      exact tree.yields_outwardWith finds _ _ _ fun x around type => enters x ⟨searched.1, plain, around, type⟩
    · exact tree.yields_qualifiedCandidates u

theorem IsOneTree.yields_parentsWith (finds : g.FindsParents fails parents known)
    (enters : ∀ s, g.get? id = some s → ∀ p ∈ s.parentTable, ∀ x, p.use.Enters g x → known x) :
    Yields fails (g.Finds Scope.IsType) (g.parentsWith parents id) := by
  unfold parentsWith
  cases found : g.get? id with
  | none => exact finds_nil g _
  | some s =>
    cases type : s.type? with
    | none =>
      simp only [Option.bind_some, type]
      exact finds_nil g _
    | some definition =>
      simp only [Option.bind_some, type]
      have table : s.parentTable = definition.parents := by rw [Scope.parentTable, type]; rfl
      have each : ∀ use ∈ definition.parentColumns.uses,
          Yields fails (g.Finds Scope.IsType) (use.candidatesWith parents g) := by
        intro use written
        rw [TypeDefinition.uses_eq] at written
        obtain ⟨p, listed, rfl⟩ := List.mem_map.mp written
        refine (tree.yields_candidatesWith finds (enters s found p (table ▸ listed))).mono fun _ called => ?_
        exact called.mono fun _ => Scope.IsCalled.sort
      exact (yields_searchEach each).map fun _ found => found.sublist List.filter_sublist

-- The only way for the parents of a type not to be found is that the bound is exceeded.
theorem IsOneTree.yields_parentsWithin (n : Nat) (t : ScopeId) :
    Yields True (g.Finds Scope.IsType) (g.parentsWithin n t) := by
  induction n generalizing t with
  | zero => exact ⟨trivial, rfl⟩
  | succ n ih =>
    have finds : g.FindsParents True (g.parentsWithin n) fun _ => True :=
      fun x _ => (ih x).mono fun _ types p listed => ⟨types.live p listed, trivial⟩
    exact tree.yields_parentsWith finds fun _ _ _ _ _ _ => trivial

theorem IsOneTree.findsParents_within (n : Nat) : g.FindsParents True (g.parentsWithin n) fun _ => True :=
  fun t _ => (tree.yields_parentsWithin n t).mono fun _ types p listed => ⟨types.live p listed, trivial⟩

def Settled (g : Graph) : Prop := g.FindsParents False g.parents fun _ => True

variable (finds : g.FindsParents fails g.parents fun _ => True)
include finds

theorem IsOneTree.yields_parents (t : ScopeId) : Yields fails (g.Finds Scope.IsType) (g.parents t) :=
  ((finds t trivial).and (tree.yields_parentsWithin _ t)).mono fun _ found => found.2

theorem IsOneTree.yields_membersNamed (category : Category) (name : String) (live : g.contains id = true) :
    Yields fails (g.Finds (Scope.IsCalled category name)) (g.membersNamed category name id) :=
  tree.yields_membersWith finds category name live fun _ => trivial

theorem IsOneTree.yields_lookup (category : Category) (name : String) (imports : List Import) (id : ScopeId) :
    Yields fails (g.Finds (Scope.IsCalled category name)) (g.lookup category name imports id) :=
  tree.yields_outwardWith finds category name imports fun _ _ _ => trivial

theorem IsOneTree.yields_typesCalled (name : String) (imports : List Import) (id : ScopeId) :
    Yields fails (g.Finds Scope.IsType) (g.lookup .type name imports id) :=
  (tree.yields_lookup finds .type name imports id).mono fun _ called => called.mono fun _ => Scope.IsCalled.sort

theorem IsOneTree.yields_typeCandidates (u : TypeUse) :
    Yields fails (g.Finds (Scope.IsCalled .type u.name)) (u.candidates g) :=
  tree.yields_candidatesWith finds fun _ _ => trivial

theorem IsOneTree.yields_typeUse (u : TypeUse) : Yields fails (g.Finds Scope.IsType) (u.candidates g) :=
  (tree.yields_typeCandidates finds u).mono fun _ called => called.mono fun _ => Scope.IsCalled.sort

end Graph

def QualifierUse.Denotes (u : QualifierUse) (s : Scope) : Prop :=
  s.IsCalled .space u.name ∨ u.namespaceOnly = false ∧ s.IsCalled .type u.name

-- What a call may reach. A plain call goes by the name of the method, any other by the name of the type.
structure Call.Reaches (g : Graph) (call : Call) (s : Scope) : Prop where
  plain : call.isConstructor = false → call.isDestructor = false → s.IsCalled .method call.name
  flagged : call.isConstructor = true ∨ call.isDestructor = true →
    (∃ m, s.kind = .method m ∧ call.sharesFlag m = true) ∧
      ∃ p t, s.parent = some p ∧ g.get? p = some t ∧ t.IsCalled .type call.name

namespace Graph

variable {g : Graph} {ids : List ScopeId} {id : ScopeId} {fails : Prop}
variable (tree : g.IsOneTree) (finds : g.FindsParents fails g.parents fun _ => True)
include tree finds

theorem IsOneTree.yields_qualifierCandidates (u : QualifierUse) : Yields fails (g.Finds u.Denotes) (u.candidates g) := by
  refine (tree.yields_lookup finds _ _ _ _).bind fun spaces called => ?_
  have spaces : g.Finds u.Denotes spaces := called.mono fun _ => Or.inl
  split
  · exact spaces
  · rename_i both
    refine (tree.yields_lookup finds _ _ _ _).map fun types called => spaces.addNewIds ?_
    exact called.mono fun _ type => Or.inr ⟨Bool.eq_false_iff.mpr both, type⟩

omit tree

theorem yields_lineage (live : g.contains id = true) : Yields fails g.AllLive (g.lineage id) := by
  refine (yields_lineageWith finds trivial).mono fun found all x member => ?_
  rcases (all x member).1 with rfl | live'
  · exact live
  · exact live'

theorem yields_fieldsNamed (name : String) (live : g.contains id = true) :
    Yields fails (fun found => ∀ d ∈ found, g.Declares name d) (g.fieldsNamed name id) := by
  refine (yields_lineage finds live).bind fun lineage all => ?_
  exact (yields_flatten fun x listed => yields_variablesNamed name (all x listed)).map fun _ declares => declares

theorem yields_inheritedNamed (name : String) (live : g.contains id = true) :
    Yields fails (fun found => ∀ d ∈ found, g.Declares name d) (g.inheritedNamed name id) := by
  refine (yields_scope live).bind fun s _ => ?_
  split
  · refine (yields_lineage finds live).bind fun lineage all => ?_
    have above : g.AllLive lineage.tail := all.of_subset (List.tail_subset _)
    exact (yields_flatten fun x listed => yields_variablesNamed name (above x listed)).map fun _ declares => declares
  · exact List.forall_mem_nil _

def Answers (g : Graph) (fails : Prop) (receiver : Receiver) : Prop :=
  ∀ scopes, receiver = some scopes → Yields fails g.AllLive scopes

include tree

theorem IsOneTree.yields_nameCandidates (u : NameUse) {receiver : Receiver} (answers : g.Answers fails receiver) :
    Yields fails (g.FindsDeclared u.name) (u.candidates g receiver) := by
  unfold NameUse.candidates
  split
  · exact ⟨List.nodup_nil, List.forall_mem_nil _⟩
  · cases receiver with
    | some scopes =>
      refine (answers scopes rfl).bind fun found live => ?_
      have fields := yields_flatten fun x listed => yields_fieldsNamed finds u.name (live x listed)
      exact fields.map fun _ => findsDeclared_addNew
    | none =>
      have live := tree.live_ancestorsAndSelf u.scope
      refine (yields_flatten fun x listed => yields_variablesNamed u.name (live x listed)).bind fun own declared => ?_
      refine (yields_flatten fun x listed => yields_parametersNamed u.name (live x listed)).bind fun given parameters => ?_
      refine (yields_flatten fun x listed => yields_inheritedNamed finds u.name (live x listed)).map fun more inherited => ?_
      apply findsDeclared_addNew
      exact List.forall_mem_append.mpr ⟨List.forall_mem_append.mpr ⟨declared, parameters⟩, inherited⟩

theorem IsOneTree.yields_nameTypes (u : NameUse) {receiver : Receiver} (answers : g.Answers fails receiver) :
    Yields fails (g.Finds Scope.IsType) (u.types g receiver) := by
  unfold NameUse.types
  split
  · exact finds_nil g _
  split
  · exact (tree.yields_enclosingType u.scope).map fun _ type => type
  split
  · refine (tree.yields_enclosingType u.scope).bind fun type _ => ?_
    cases type with
    | none => exact finds_nil g _
    | some type => exact tree.yields_parents finds type
  · refine (tree.yields_nameCandidates finds u answers).bind fun declared _ => ?_
    exact yields_searchEach fun type _ => tree.yields_typeUse finds type

theorem IsOneTree.yields_receiverScopes (u : NameUse) {receiver : Receiver} (answers : g.Answers fails receiver) :
    Yields fails g.AllLive (u.receiverScopes g receiver) := by
  have named : Yields fails g.AllLive (u.namedScopes g receiver) := by
    cases receiver with
    | none =>
      refine (tree.yields_lookup finds _ _ _ _).bind fun spaces called => ?_
      exact (tree.yields_lookup finds _ _ _ _).map fun _ called' => called.live.addNewIds called'.live
    | some scopes =>
      refine (answers scopes rfl).bind fun _ _ => ?_
      exact (yields_searchEach fun x _ => tree.yields_spacesAndTypesCalled u.name x).mono fun _ => Finds.live
  refine (tree.yields_nameTypes finds u answers).bind fun types found => ?_
  split
  · exact found.live
  · refine (tree.yields_nameCandidates finds u answers).bind fun declared _ => ?_
    split
    · exact named
    · exact found.live

-- Each receiver of a chain is found through the next one out.
theorem IsOneTree.answers_receiverOf (receivers : List NameUse) : g.Answers fails (receiverOf g receivers) := by
  induction receivers with
  | nil =>
    intro scopes absent
    cases absent
  | cons u outer ih =>
    rintro scopes ⟨⟩
    exact tree.yields_receiverScopes finds u ih

theorem IsOneTree.yields_callCandidates (call : Call) : Yields fails (g.Finds (call.Reaches g)) (call.candidates g) := by
  unfold Call.candidates
  split
  · exact finds_nil g _
  split
  · rename_i flagged
    rw [Bool.or_eq_true] at flagged
    refine (tree.yields_lookup finds _ _ _ _).bind fun types called => ?_
    refine yields_searchEach fun x listed => ?_
    obtain ⟨t, here, type⟩ := called.each x listed
    refine (tree.yields_childrenWith _ x).mono fun _ methods => methods.mono ?_
    rintro s ⟨passes, above⟩
    refine ⟨fun plain plain' => ?_, fun _ => ⟨?_, x, t, above, here, type⟩⟩
    · simp [plain, plain'] at flagged
    · unfold Scope.method? at passes
      cases kind : s.kind with
      | method m => exact ⟨m, rfl, by simpa [kind] using passes⟩
      | space | type | block => simp [kind] at passes
  · rename_i plain
    rw [Bool.or_eq_true] at plain
    have named : ∀ s : Scope, s.IsCalled .method call.name → call.Reaches g s :=
      fun s called => ⟨fun _ _ => called, fun flagged => absurd flagged plain⟩
    have answers := tree.answers_receiverOf finds call.receivers
    split
    · rename_i scopes receiver
      refine (answers scopes receiver).bind fun found live => ?_
      refine yields_searchEach fun x listed => ?_
      exact (tree.yields_membersNamed finds _ _ (live x listed)).mono fun _ called => called.mono named
    · exact (tree.yields_lookup finds _ _ _ _).mono fun _ called => called.mono named

theorem IsOneTree.yields_resultTypes (live : g.contains id = true) :
    Yields fails (g.Finds Scope.IsType) (Call.resultTypes g id) := by
  refine (yields_scope live).bind fun s _ => ?_
  split
  · exact finds_nil g _
  split
  · exact (tree.yields_enclosingType id).map fun _ type => type
  split
  · exact tree.yields_typeUse finds _
  · exact finds_nil g _

theorem IsOneTree.yields_callTypes (call : Call) : Yields fails (g.Finds Scope.IsType) (call.types g) := by
  refine (tree.yields_callCandidates finds call).bind fun methods reached => ?_
  split
  · exact tree.yields_typesCalled finds _ _ _
  · exact yields_searchEach fun x listed => tree.yields_resultTypes finds (reached.live x listed)

theorem IsOneTree.yields_literalTypes (u : LiteralUse) : Yields fails (g.Finds Scope.IsType) (u.types g) := by
  unfold LiteralUse.types
  split
  · split
    · exact tree.yields_typesCalled finds _ _ _
    · exact finds_nil g _
  · exact finds_nil g _

theorem IsOneTree.yields_callsTo (callee : ScopeId) (live : g.contains id = true) :
    Yields fails (fun _ => True) (g.callsTo id callee) := by
  have below : ∀ depth x, g.AllLive (g.belowWithin depth x) := by
    intro depth
    induction depth with
    | zero => exact fun _ => List.forall_mem_nil _
    | succ depth ih =>
      intro x y member
      obtain ⟨child, listed, inside⟩ := List.mem_flatMap.mp member
      rcases List.mem_cons.mp inside with rfl | deeper
      · exact tree.live_children x _ listed
      · exact ih child y deeper
  have all : g.AllLive (id :: g.descendants id) := List.forall_mem_cons.mpr ⟨live, below g.size id⟩
  have calls : Yields fails (fun _ => True) (g.callsWithin id) :=
    (Yields.mapM_ends fun x listed => (yields_scope (all x listed)).ends).map fun _ _ => trivial
  refine calls.bind fun calls _ => ?_
  apply Yields.filterM_ends
  intro call _
  exact (tree.yields_callCandidates finds call).map fun _ _ => trivial

structure Resolves (g : Graph) : Prop where
  parents : ∀ x, ∃ found, g.parents x = .ok found
  lineage : ∀ x, ∃ found, g.lineage x = .ok found
  typeUse : ∀ u : TypeUse, ∃ found, u.candidates g = .ok found
  qualifierUse : ∀ u : QualifierUse, ∃ found, u.candidates g = .ok found
  variableUse : ∀ u : VariableUse, (∃ found, u.candidates g = .ok found) ∧ ∃ found, u.types g = .ok found
  literalUse : ∀ u : LiteralUse, ∃ found, u.types g = .ok found
  call : ∀ c : Call, (∃ found, c.candidates g = .ok found) ∧ ∃ found, c.types g = .ok found
  callsTo : ∀ x callee, g.contains x = true → ∃ found, g.callsTo x callee = .ok found

omit finds

theorem IsOneTree.resolves (settled : g.Settled) : g.Resolves where
  parents x := (settled x trivial).exists_ok
  lineage x := (yields_lineageWith settled trivial).exists_ok
  typeUse u := (tree.yields_typeCandidates settled u).exists_ok
  qualifierUse u := (tree.yields_qualifierCandidates settled u).exists_ok
  variableUse u := by
    have answers := tree.answers_receiverOf settled u.receivers
    exact ⟨(tree.yields_nameCandidates settled u.toNameUse answers).exists_ok,
      (tree.yields_nameTypes settled u.toNameUse answers).exists_ok⟩
  literalUse u := (tree.yields_literalTypes settled u).exists_ok
  call c := ⟨(tree.yields_callCandidates settled c).exists_ok, (tree.yields_callTypes settled c).exists_ok⟩
  callsTo _ callee live := (tree.yields_callsTo settled callee live).exists_ok

end Graph

end ScopeAtlas
