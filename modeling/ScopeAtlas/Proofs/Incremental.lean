import ScopeAtlas.Proofs.Gathering

namespace ScopeAtlas

def Parameter.face (p : Parameter) : String × String := (p.declaredType.render, p.name)

namespace Scope

def typeKind (s : Scope) : Option TypeKind := s.type?.map (·.kind)

-- Two scopes are described alike. A parent type that both have is written the same.
structure DescribedLike (s t : Scope) : Prop where
  access : s.access = t.access
  returns : s.shownReturn = t.shownReturn
  kind : s.typeKind = t.typeKind
  parameters : s.parameterList.map Parameter.face = t.parameterList.map Parameter.face
  parents : ∀ x ∈ s.parentTable.faces, ∀ y ∈ t.parentTable.faces, x.1 = y.1 → x = y

instance (s t : Scope) : Decidable (s.DescribedLike t) :=
  decidable_of_iff (s.access = t.access ∧ s.shownReturn = t.shownReturn ∧ s.typeKind = t.typeKind ∧
      s.parameterList.map Parameter.face = t.parameterList.map Parameter.face ∧
      ∀ x ∈ s.parentTable.faces, ∀ y ∈ t.parentTable.faces, x.1 = y.1 → x = y)
    ⟨fun ⟨access, returns, kind, parameters, parents⟩ => ⟨access, returns, kind, parameters, parents⟩,
      fun alike => ⟨alike.access, alike.returns, alike.kind, alike.parameters, alike.parents⟩⟩

variable {s t u s' t' : Scope} {file : String}

theorem Sound.mem_parents_iff (sound : s.Sound) {name : String × List String} :
    name ∈ s.parentTable.faces.map Prod.fst ↔ s.holding.parents name ≠ [] := by
  change _ ↔ s.parentTable.places name ≠ []
  constructor
  · intro member
    obtain ⟨x, listed, rfl⟩ := List.mem_map.mp member
    obtain ⟨p, written, rfl⟩ := List.mem_map.mp listed
    rw [ParentTable.places_of_mem sound.nodup_parents written]
    exact (sound.placed_parents p written).written
  · intro some
    by_contra absent
    exact some (ParentTable.places_eq_nil absent)

theorem mem_parents_congr (left : s.Sound) (right : t.Sound) (same : s.holding = t.holding) {name : String × List String} :
    name ∈ s.parentTable.faces.map Prod.fst ↔ name ∈ t.parentTable.faces.map Prod.fst := by
  rw [left.mem_parents_iff, right.mem_parents_iff, same]

theorem Sound.described_self (sound : s.Sound) : s.DescribedLike s :=
  ⟨rfl, rfl, rfl, rfl, fun _ here _ there same => List.inj_on_of_nodup_map sound.nodup_parents here there same⟩

theorem typeKind_rebind (f : ScopeId → ScopeId) (s : Scope) : (s.rebind f).typeKind = s.typeKind := by
  unfold typeKind type? Scope.rebind
  cases s.kind <;> rfl

theorem described_rebind (f : ScopeId → ScopeId) (s : Scope) :
    (s.rebind f).access = s.access ∧ (s.rebind f).shownReturn = s.shownReturn ∧ (s.rebind f).typeKind = s.typeKind ∧
      (s.rebind f).parameterList.map Parameter.face = s.parameterList.map Parameter.face ∧
      (s.rebind f).parentTable.faces = s.parentTable.faces := by
  refine ⟨rfl, shownReturn_rebind f s, typeKind_rebind f s, ?_, ?_⟩
  · rw [parameterList_rebind, List.map_map]
    refine List.map_congr_left fun p _ => ?_
    simp [Parameter.face, Parameter.rebind, TypeUse.rebind_render]
  · rw [parentTable_rebind, ParentTable.faces_rebind]

theorem describedLike_rebind (f h : ScopeId → ScopeId) : (s.rebind f).DescribedLike (t.rebind h) ↔ s.DescribedLike t := by
  obtain ⟨access, returns, kind, parameters, parents⟩ := s.described_rebind f
  obtain ⟨access', returns', kind', parameters', parents'⟩ := t.described_rebind h
  constructor
  · rintro ⟨a, b, c, d, e⟩
    rw [access, access'] at a
    rw [returns, returns'] at b
    rw [kind, kind'] at c
    rw [parameters, parameters'] at d
    rw [parents, parents'] at e
    exact ⟨a, b, c, d, e⟩
  · rintro ⟨a, b, c, d, e⟩
    refine ⟨?_, ?_, ?_, ?_, ?_⟩
    · rw [access, access', a]
    · rw [returns, returns', b]
    · rw [kind, kind', c]
    · rw [parameters, parameters', d]
    · rwa [parents, parents']

theorem typeKind_unite (same : s.key = t.key) :
    (s.unite t).typeKind = if s.yieldsTo t then t.typeKind else s.typeKind := by
  have alike := alike_kinds_of_key same
  unfold typeKind type?
  rw [unite_kind]
  generalize s.kind = k, t.kind = l at alike
  cases alike with
  | type d d' => cases s.yieldsTo t <;> rfl
  | block | space | method => cases s.yieldsTo t <;> rfl

theorem face_uniteAll {left left' right : List Parameter} (same : left.map Parameter.face = left'.map Parameter.face)
    (names : left.map (·.declaredType.name) = right.map (·.declaredType.name))
    (names' : left'.map (·.declaredType.name) = right.map (·.declaredType.name)) :
    (Parameter.uniteAll left right).map Parameter.face = (Parameter.uniteAll left' right).map Parameter.face := by
  induction left generalizing left' right with
  | nil =>
    rw [List.map_eq_nil_iff.mp same.symm]
  | cons p left ih =>
    cases left' with
    | nil => cases same
    | cons p' left' =>
      cases right with
      | nil => cases names
      | cons q right =>
        obtain ⟨first, rest⟩ := List.cons.inj same
        obtain ⟨name, later⟩ := List.cons.inj names
        obtain ⟨name', later'⟩ := List.cons.inj names'
        obtain ⟨type, named⟩ := Prod.mk.inj first
        have joined : (p.unite q).face = (p'.unite q).face := by
          rw [Parameter.face, Parameter.face, Parameter.unite_declaredType, Parameter.unite_declaredType, type,
            Parameter.unite_name, Parameter.unite_name, Parameter.isAnonymous, Parameter.isAnonymous, named]
        rw [Parameter.uniteAll, Parameter.uniteAll, if_pos name, if_pos name', List.map_cons, List.map_cons, joined,
          ih rest later later']

-- A parent of a united scope is written as the first one wrote it, if that one has it.
theorem mem_faces_unite_cases {x : (String × List String) × String} (same : s.key = t.key) (left : s.Sound)
    (member : x ∈ (s.unite t).parentTable.faces) :
    x ∈ s.parentTable.faces ∨ x ∈ t.parentTable.faces ∧ x.1 ∉ s.parentTable.faces.map Prod.fst := by
  rw [faces_unite same] at member
  rcases mem_addUnknown member with here | there
  · exact Or.inl here
  · by_cases known : x.1 ∈ s.parentTable.faces.map Prod.fst
    · obtain ⟨z, listed, equal⟩ := List.mem_map.mp known
      have nodup := @nodup_addUnknown _ _ ParentTable.sameName Prod.fst s.parentTable.faces t.parentTable.faces
        ParentTable.sameName_iff left.nodup_parents
      rw [← List.inj_on_of_nodup_map nodup (mem_addUnknown_left listed) member equal]
      exact Or.inl listed
    · exact Or.inr ⟨there, known⟩

-- Scopes that are described alike and hold the same take a third one in alike.
theorem DescribedLike.unite (alike : s.DescribedLike s') (same : s.holding = s'.holding) (left : s.Sound) (left' : s'.Sound)
    (right : t.Sound) (key : s.key = t.key) (key' : s'.key = t.key) : (s.unite t).DescribedLike (s'.unite t) := by
  have locations : s.locations = s'.locations := congrArg Holding.locations same
  have yields : s.yieldsTo t = s'.yieldsTo t := by rw [yieldsTo_eq, yieldsTo_eq, rank, rank, rank, locations]
  refine ⟨?_, ?_, ?_, ?_, ?_⟩
  · rw [unite_access, unite_access, yields, alike.access]
  · rw [shownReturn_unite key, shownReturn_unite key', yields, alike.returns]
  · rw [typeKind_unite key, typeKind_unite key', yields, alike.kind]
  · rw [parameterList_unite key, parameterList_unite key']
    exact face_uniteAll alike.parameters (parameter_names key) (parameter_names key')
  · intro x member y member' equal
    have names := @mem_parents_congr s s' left left' same
    rcases mem_faces_unite_cases key left member with here | ⟨there, unknown⟩ <;>
      rcases mem_faces_unite_cases key' left' member' with here' | ⟨there', unknown'⟩
    · exact alike.parents x here y here' equal
    · exact (unknown' (equal ▸ names.mp (List.mem_map_of_mem here))).elim
    · exact (unknown (equal ▸ names.mpr (List.mem_map_of_mem here'))).elim
    · exact List.inj_on_of_nodup_map right.nodup_parents there there' equal

theorem DescribedLike.unite_rebind (alike : s.DescribedLike s') (same : s.holding = s'.holding) (left : s.Sound)
    (left' : s'.Sound) (right : t.Sound) (key : s.key = t.key) (key' : s'.key = t.key) (f h f' h' : ScopeId → ScopeId) :
    ((s.rebind f).unite (t.rebind h)).DescribedLike ((s'.rebind f').unite (t.rebind h')) := by
  have blind : ∀ (s t : Scope) (f h : ScopeId → ScopeId),
      ((s.rebind f).unite (t.rebind h)).rebind (fun _ => 0) = (s.unite t).rebind fun _ => 0 := by
    intro s t f h
    rw [rebind_unite, rebind_rebind, rebind_rebind, rebind_unite]
    rfl
  rw [← describedLike_rebind (fun _ => 0) (fun _ => 0), blind, blind, describedLike_rebind]
  exact alike.unite same left left' right key key'

theorem DescribedLike.withdraw (alike : s.DescribedLike t) (same : s.holding = t.holding) (left : s.Sound) (right : t.Sound)
    (alike' : t'.DescribedLike t) : (s.withdraw file).DescribedLike t' := by
  refine ⟨alike.access.trans alike'.access.symm, ?_, ?_, ?_, ?_⟩
  · have kept : (s.withdraw file).shownReturn = s.shownReturn := by
      unfold shownReturn method? Scope.withdraw
      cases s.kind <;> rfl
    rw [kept, alike.returns, alike'.returns]
  · have kept : (s.withdraw file).typeKind = s.typeKind := by
      unfold typeKind type? Scope.withdraw
      cases s.kind <;> rfl
    rw [kept, alike.kind, alike'.kind]
  · rw [parameterList_withdraw, List.map_map, alike'.parameters, ← alike.parameters]
    rfl
  · intro x member y member' equal
    rw [parentTable_withdraw] at member
    have here := (ParentTable.faces_withdraw_sublist file s.parentTable).subset member
    obtain ⟨z, listed, named⟩ := List.mem_map.mp ((mem_parents_congr left right same).mp (List.mem_map_of_mem here))
    rw [alike.parents x here z listed named.symm, alike'.parents y member' z listed (equal.symm.trans named.symm)]

theorem DescribedLike.signature (alike : s.DescribedLike t) (left : s.Sound) (right : t.Sound) (key : s.key = t.key) :
    s.signature = t.signature := by
  obtain ⟨-, name⟩ := alike_of_key key left right
  have kinds := alike_kinds_of_key key
  generalize here : s.kind = k, there : t.kind = l at kinds
  cases kinds with
  | block => simp [Scope.signature, here, there]
  | space isGlobal => simp [Scope.signature, here, there, name]
  | type d d' =>
    have kind := alike.kind
    simp only [typeKind, type?, here, there, Option.map_some, Option.some.injEq] at kind
    simp [Scope.signature, here, there, name, kind]
  | method m m' types =>
    have flags : m.isConstructor = m'.isConstructor ∧ m.isDestructor = m'.isDestructor := by
      simp only [Scope.key, here, there, Key.method.injEq] at key
      exact ⟨key.2.1, key.2.2.1⟩
    refine signature_eq_of_method here there name alike.access alike.returns flags ?_
    have faces := alike.parameters
    simp only [parameterList, method?, here, there, Option.map_some, Option.getD_some] at faces
    have shown : ∀ parameters : List Parameter, parameters.map Parameter.render =
        (parameters.map Parameter.face).map fun x => if x.2.isEmpty then x.1 else x.1 ++ " " ++ x.2 := by
      intro parameters
      rw [List.map_map]
      rfl
    rw [shown, shown, faces]

theorem DescribedLike.faces_perm (alike : s.DescribedLike t) (left : s.Sound) (right : t.Sound) (same : s.holding = t.holding) :
    s.parentTable.faces.Perm t.parentTable.faces := by
  refine (List.perm_ext_iff_of_nodup (.of_map _ left.nodup_parents) (.of_map _ right.nodup_parents)).mpr ?_
  intro x
  have names := @mem_parents_congr s t left right same x.1
  constructor
  · intro member
    obtain ⟨y, listed, named⟩ := List.mem_map.mp (names.mp (List.mem_map_of_mem member))
    rw [alike.parents x member y listed named.symm]
    exact listed
  · intro member
    obtain ⟨y, listed, named⟩ := List.mem_map.mp (names.mpr (List.mem_map_of_mem member))
    rw [← alike.parents y listed x member named]
    exact listed

theorem declared_perm_of_holding (left : s.Sound) (right : t.Sound) (same : s.holding = t.holding) :
    (s.rebind fun _ => 0).declared.toList.Perm (t.rebind fun _ => 0).declared.toList := by
  have named : ∀ (u : Scope) (name : String), (u.rebind fun _ => 0).declared.named name = u.holding.declared name :=
    fun u name => VariableTable.named_rebind _ u.declared name
  refine VariableTable.perm_of_filter ?_
  intro name
  rw [(left.rebind _).filter_declared, (right.rebind _).filter_declared, named, named, same]

end Scope

theorem Snapshot.ofScope_of_alike {s t : Scope} {fullName : String} {children children' : List Snapshot} (left : s.Sound)
    (right : t.Sound) (key : s.key = t.key) (same : s.holding = t.holding) (alike : s.DescribedLike t)
    (below : children.Perm children') : ofScope s fullName children = ofScope t fullName children' := by
  have shown : ∀ table : ParentTable, table.map (·.use.render) = table.faces.map Prod.snd := by
    intro table
    simp [ParentTable.faces, TypeUse.face]
  rw [← ofScope_rebind (fun _ => 0) s, ← ofScope_rebind (fun _ => 0) t]
  refine ofScope_congr ?_ alike.access ?_ ?_ (Scope.declared_perm_of_holding left right same) ?_ below
  · rw [signature_rebind, signature_rebind, alike.signature left right key]
  · exact List.Perm.of_eq (congrArg Holding.locations same)
  · rw [shown, shown, (s.described_rebind _).2.2.2.2, (t.described_rebind _).2.2.2.2]
    exact (alike.faces_perm left right same).map _
  · exact List.Perm.of_eq (congrArg Holding.calls same)

namespace Forest

variable {f h : Forest}

def DescribedLike (f h : Forest) : Prop :=
  ∀ path s t, f.scopeAt path = some s → h.scopeAt path = some t → s.DescribedLike t

theorem scopeAt_below {k : Key} {x : ScopeId} {s : Scope} {below : Forest} (found : f.find k = some (x, s, below))
    (path : List Key) : f.scopeAt (k :: path) = if path = [] then some s else below.scopeAt path := by
  unfold scopeAt
  cases path with
  | nil => simp [at?, found]
  | cons k' path => simp [at?, found]

-- Forests that hold the same and are described alike have one view.
theorem views_of_alike (distinct : f.Distinct) (distinct' : h.Distinct) (sound : ∀ path s, f.scopeAt path = some s → s.Sound)
    (sound' : ∀ path s, h.scopeAt path = some s → s.Sound)
    (same : ∀ path, (f.scopeAt path).map Scope.holding = (h.scopeAt path).map Scope.holding) (alike : f.DescribedLike h)
    (above : List String) : (f.views above).Perm (h.views above) := by
  induction size : f.height using Nat.strong_induction_on generalizing f h above with
  | _ size ih =>
    refine distinct.views_perm distinct' ?_
    intro k
    have top : ∀ f : Forest, f.scopeAt [k] = (f.find k).map (·.2.1) := fun _ => rfl
    have first := same [k]
    rw [top, top] at first
    rcases here : f.find k with _ | ⟨x, s, below⟩ <;> rcases there : h.find k with _ | ⟨y, t, under⟩
    · rfl
    · simp [here, there] at first
    · simp [here, there] at first
    · rw [here, there] at first
      have left : f.scopeAt [k] = some s := by rw [top, here, Option.map_some]
      have right : h.scopeAt [k] = some t := by rw [top, there, Option.map_some]
      have key : s.key = t.key := (key_of_find here).trans (key_of_find there).symm
      have name := Scope.pathName?_of_key (sound _ _ left) (sound' _ _ right) key
      -- what is found below the two scopes is found one key further down
      have deeper : ∀ path s', below.scopeAt path = some s' → f.scopeAt (k :: path) = some s' := by
        intro path s' found
        rw [scopeAt_below here]
        cases path with
        | nil => cases found
        | cons => simpa using found
      have deeper' : ∀ path t', under.scopeAt path = some t' → h.scopeAt (k :: path) = some t' := by
        intro path t' found
        rw [scopeAt_below there]
        cases path with
        | nil => cases found
        | cons => simpa using found
      have lower := @ih below.height (size ▸ height_of_find here) below under (distinct.find here) (distinct'.find there)
        (fun path s' found => sound _ s' (deeper path s' found)) (fun path t' found => sound' _ t' (deeper' path t' found))
        (fun path => by
          have further := same (k :: path)
          rw [scopeAt_below here, scopeAt_below there] at further
          cases path with
          | nil => rfl
          | cons => simpa using further)
        (fun path s' t' found found' => alike _ s' t' (deeper path s' found) (deeper' path t' found'))
        (above ++ s.pathName?.toList) rfl
      simp only [Option.map_some, viewOf, ← name]
      rw [Snapshot.ofScope_of_alike (sound _ _ left) (sound' _ _ right) key (Option.some.inj first)
        (alike _ _ _ left right) lower]

end Forest

namespace Graph

variable {strict : Prop} {a b : Graph} {f h : Forest}

def DescribesLike (a b : Graph) : Prop :=
  ∀ x y s t, a.get? x = some s → b.get? y = some t → a.keyPath x = b.keyPath y → s.DescribedLike t

instance (a b : Graph) : Decidable (a.DescribesLike b) :=
  decidable_of_iff (∀ x ∈ a.scopes, ∀ y ∈ b.scopes, a.keyPath x.1 = b.keyPath y.1 → x.2.DescribedLike y.2) <| by
    simp only [DescribesLike, Prod.forall, mem_scopes]
    exact ⟨fun all x y s t here there => all x s here y t there, fun all x s here y t there => all x y s t here there⟩

theorem AtRest.describedLike (left : a.AtRest strict f) (right : b.AtRest strict h) (alike : a.DescribesLike b) :
    f.DescribedLike h := by
  intro path s t here there
  obtain ⟨⟨x, s, below⟩, found, rfl⟩ := Option.map_eq_some_iff.mp here
  obtain ⟨⟨y, t, under⟩, found', rfl⟩ := Option.map_eq_some_iff.mp there
  obtain ⟨live, place⟩ := left.of_at? found
  obtain ⟨live', place'⟩ := right.of_at? found'
  have both := alike x y _ _ live live' (place.trans place'.symm)
  exact ⟨both.access, both.returns, both.kind, both.parameters, both.parents⟩

theorem AtRest.snapshot_of_alike (left : a.AtRest strict f) (right : b.AtRest strict h)
    (same : ∀ path, (f.scopeAt path).map Scope.holding = (h.scopeAt path).map Scope.holding) (alike : f.DescribedLike h) :
    ∃ v, a.snapshot = .ok v ∧ b.snapshot = .ok v := by
  obtain ⟨v, views, shown⟩ := left.snapshot
  obtain ⟨v', views', shown'⟩ := right.snapshot
  have permuted := Forest.views_of_alike left.distinct right.distinct (fun _ _ found => (left.sound_of_scopeAt found).1)
    (fun _ _ found => (right.sound_of_scopeAt found).1) same alike []
  rw [views, views', List.perm_singleton] at permuted
  cases permuted
  exact ⟨v, shown, shown'⟩

end Graph

namespace Codebase

-- A file may go: the codebase of the other units describes its scopes as the codebase of all units does.
def Harmless (tools : Tools) (ledger : List Element) (file : String) : Prop :=
  (fresh tools (ledger.filter (·.fileName ≠ file))).graph.DescribesLike (fresh tools ledger).graph

instance (tools : Tools) (ledger : List Element) (file : String) : Decidable (Harmless tools ledger file) :=
  inferInstanceAs (Decidable (Graph.DescribesLike _ _))

-- In a run of events, each file that goes or is replaced may go.
def Calm (tools : Tools) : List Element → List Event → Prop
  | _, [] => True
  | ledger, event :: later => Harmless tools ledger event.file ∧ Calm tools (event.record ledger) later

instance decidableCalm (tools : Tools) : (ledger : List Element) → (events : List Event) → Decidable (Calm tools ledger events)
  | _, [] => isTrue trivial
  | ledger, event :: later =>
    have := decidableCalm tools (event.record ledger) later
    inferInstanceAs (Decidable (_ ∧ _))

variable {c c' : Codebase} {ledger : List Element} {f f' h h' k : Forest} {e : Element} {path : List Key}

theorem Gathers.holding_congr (left : c.Gathers ledger f) (right : c'.Gathers ledger h) (same : c.tools = c'.tools)
    (path : List Key) : (f.scopeAt path).map Scope.holding = (h.scopeAt path).map Scope.holding := by
  rw [left.holds, right.holds, same]

theorem Gathers.describedLike_without {tools : Tools} {file : String} (gathers : c.Gathers ledger f)
    (scratch : (fresh tools ledger).Gathers ledger h) (same : c.tools = (fresh tools ledger).tools)
    (less : (fresh tools (ledger.filter (·.fileName ≠ file))).Gathers (ledger.filter (·.fileName ≠ file)) h')
    (alike : f.DescribedLike h) (harmless : Harmless tools ledger file)
    (left : ∀ path s', f'.scopeAt path = some s' → ∃ s, f.scopeAt path = some s ∧ s' = s.withdraw file) :
    f'.DescribedLike h' := by
  have scratches := less.rest.describedLike scratch.rest harmless
  intro path s' t' here there
  obtain ⟨s, found, rfl⟩ := left path s' here
  have holding := gathers.holding_congr scratch same path
  rw [found] at holding
  obtain ⟨t, found', held⟩ := Option.map_eq_some_iff.mp holding.symm
  exact (alike path s t found found').withdraw held.symm (gathers.rest.sound_of_scopeAt found).1
    (scratch.rest.sound_of_scopeAt found').1 (scratches path t' t there found')

theorem Gathers.describedLike_bringIn {new : Contribution} (left : c.Gathers ledger f) (right : c'.Gathers ledger h)
    (same : c.tools = c'.tools) (alike : f.DescribedLike h) (unit : new.graph.AtRest True k) :
    (f.merged c.graph.size k).DescribedLike (h.merged c'.graph.size k) := by
  obtain ⟨rename, moved, united⟩ := left.rest.scopeAt_merged unit
  obtain ⟨rename', moved', united'⟩ := right.rest.scopeAt_merged unit
  intro path s' t' here there
  have holding := left.holding_congr right same path
  rw [united path] at here
  rw [united' path] at there
  -- The holdings of both sides agree at the path, so both have a scope there or neither has.
  cases added : k.scopeAt path with
  | none =>
    rw [added] at here there
    cases inLeft : f.scopeAt path with
    | none => simp [inLeft] at here
    | some s =>
      rw [inLeft] at holding
      obtain ⟨t, inRight, -⟩ := Option.map_eq_some_iff.mp holding.symm
      rw [inLeft] at here
      rw [inRight] at there
      cases here
      cases there
      exact (Scope.describedLike_rebind _ _).mpr (alike path s t inLeft inRight)
  | some u =>
    rw [added] at here there
    have sound := (unit.sound_of_scopeAt added).1
    have keyed : ∀ {forest : Forest} {s : Scope}, forest.scopeAt path = some s → s.key = u.key := by
      intro forest s found
      have last := Graph.key_of_scopeAt found
      rw [Graph.key_of_scopeAt added] at last
      exact (Option.some.inj last).symm
    cases inLeft : f.scopeAt path with
    | none =>
      rw [inLeft] at holding
      rw [inLeft] at here
      rw [Option.map_eq_none_iff.mp holding.symm] at there
      cases here
      cases there
      exact (Scope.describedLike_rebind _ _).mpr sound.described_self
    | some s =>
      rw [inLeft] at holding
      obtain ⟨t, inRight, held⟩ := Option.map_eq_some_iff.mp holding.symm
      rw [inLeft] at here
      rw [inRight] at there
      cases here
      cases there
      exact (alike path s t inLeft inRight).unite_rebind held.symm (left.rest.sound_of_scopeAt inLeft).1
        (right.rest.sound_of_scopeAt inRight).1 sound (keyed inLeft) (keyed inRight) _ _ _ _

theorem tools_fresh (tools : Tools) (units : List Element) : (fresh tools units).tools = tools := by
  rw [fresh, tools_served]

theorem fresh_concat {tools : Tools} {units : List Element}
    (differ : (units ++ [e]).Pairwise fun e e' => e.fileName ≠ e'.fileName) :
    fresh tools (units ++ [e]) = (fresh tools units).takeIn e := by
  rw [fresh_eq differ, fresh_eq (List.pairwise_append.mp differ).1, List.foldl_append]
  rfl

-- A codebase that is described like one built from its ledger.
structure Tracks (tools : Tools) (c : Codebase) (ledger : List Element) : Prop where
  unchanged : c.tools = tools
  distinct : ∀ e ∈ ledger, e.Distinct
  alike : ∃ f h, c.Gathers ledger f ∧ (fresh tools ledger).Gathers ledger h ∧ f.DescribedLike h

theorem tracks_nothing (tools : Tools) : Tracks tools { tools := tools } [] := by
  refine ⟨rfl, List.forall_mem_nil _, _, _, gathers_nothing tools, gathers_nothing tools, ?_⟩
  intro path s t here there
  rw [here] at there
  cases there
  exact (((gathers_nothing tools).rest).sound_of_scopeAt here).1.described_self

theorem Tracks.happen {tools : Tools} {event : Event} (tracks : Tracks tools c ledger) (admitted : event.Admitted tools)
    (distinct : ∀ e, event = .taken e → e.Distinct) (harmless : Harmless tools ledger event.file) :
    Tracks tools (c.happen event) (event.record ledger) := by
  obtain ⟨rfl, each, f, h, gathers, scratch, alike⟩ := tracks
  -- Both codebases lose the file first. What is described alike without it stays so when both take in the same unit.
  have same : c.tools = (fresh c.tools ledger).tools := (tools_fresh _ _).symm
  have kept : ∀ file, ∀ e ∈ ledger.filter (·.fileName ≠ file), e.Distinct :=
    fun file e listed => each e (List.mem_filter.mp listed).1
  obtain ⟨h', less⟩ : ∃ h', (fresh c.tools (ledger.filter (·.fileName ≠ event.file))).Gathers
      (ledger.filter (·.fileName ≠ event.file)) h' := by
    refine fresh_gathers (gathers.remembers.differ.sublist List.filter_sublist) ?_ (kept event.file)
    exact fun e listed => gathers.remembers.surveyed e (List.mem_filter.mp listed).1
  cases event with
  | dropped file =>
    refine ⟨rfl, kept file, _, h', gathers.retract file, less, ?_⟩
    exact gathers.describedLike_without scratch same less alike harmless fun path s' => gathers.scopeAt_retract
  | taken e =>
    obtain ⟨new, surveyed⟩ := admitted
    obtain ⟨own, -, p, graph⟩ := survey_ok surveyed
    obtain ⟨f', cleared, left⟩ := gathers.cleared e.fileName
    obtain ⟨k, unit⟩ := @Graph.atRest_surveyed True _ _ _ (fun _ => distinct e rfl) graph
    have alike' := gathers.describedLike_without scratch same less alike harmless left
    have others : ∀ e' ∈ ledger.filter (·.fileName ≠ e.fileName), e'.fileName ≠ e.fileName := by
      intro e' listed
      simpa using (List.mem_filter.mp listed).2
    have differ : (ledger.filter (·.fileName ≠ e.fileName) ++ [e]).Pairwise fun e e' => e.fileName ≠ e'.fileName := by
      refine List.pairwise_append.mpr ⟨gathers.remembers.differ.sublist List.filter_sublist, List.pairwise_singleton _ e, ?_⟩
      intro e' listed e'' last
      rw [List.mem_singleton.mp last]
      exact others e' listed
    have here : c.happen (.taken e) = (c.cleared e.fileName).bringIn new := by
      change c.takeIn e = _
      rw [takeIn_eq surveyed, bringIn_cleared, own]
    have there : fresh c.tools (ledger.filter (·.fileName ≠ e.fileName) ++ [e]) =
        (fresh c.tools (ledger.filter (·.fileName ≠ e.fileName))).bringIn new := by
      rw [fresh_concat differ, takeIn_eq (by rwa [tools_fresh])]
    have left := cleared.bringIn (by simpa using surveyed) unit others
    have right := less.bringIn (by rwa [tools_fresh]) unit others
    rw [← here] at left
    rw [Event.file, ← there] at right
    refine ⟨tools_happen c _, ?_, _, _, left, right, ?_⟩
    · exact List.forall_mem_append.mpr ⟨kept _, List.forall_mem_singleton.mpr (distinct e rfl)⟩
    · exact cleared.describedLike_bringIn less (by rw [tools_cleared, tools_fresh]) alike' unit

theorem Tracks.foldl_happen {tools : Tools} {events : List Event} (tracks : Tracks tools c ledger)
    (admitted : ∀ event ∈ events, event.Admitted tools) (distinct : ∀ e, .taken e ∈ events → e.Distinct)
    (calm : Calm tools ledger events) : Tracks tools (events.foldl Codebase.happen c) (events.foldl Event.record ledger) := by
  induction events generalizing c ledger with
  | nil => exact tracks
  | cons event later ih =>
    obtain ⟨first, others⟩ := List.forall_mem_cons.mp admitted
    have next := tracks.happen first (fun e same => distinct e (same ▸ List.mem_cons_self)) calm.1
    exact ih next others (fun e listed => distinct e (List.mem_cons_of_mem _ listed)) calm.2

-- After any run of requests the codebase remembers the units of the ledger, and at every path it holds what they
-- contribute one after the other, as does a codebase that is told these units alone. If no file that went had decided
-- how a scope is described, the two have the same snapshot.
theorem updates_match_rebuild (tools : Tools) (requests : List Request)
    (distinct : ∀ e, .taken e ∈ history tools requests → e.Distinct) :
    (served tools requests).fingerprints = (Codebase.ledger tools requests).map (fun e => (e.fileName, tools.fingerprint e)) ∧
      (∀ path, (served tools requests).graph.holdingAt path = gathered tools (Codebase.ledger tools requests) path ∧
        (fresh tools (Codebase.ledger tools requests)).graph.holdingAt path = gathered tools (Codebase.ledger tools requests) path) ∧
      (Calm tools [] (history tools requests) → ∃ v, (served tools requests).graph.snapshot = .ok v ∧
        (fresh tools (Codebase.ledger tools requests)).graph.snapshot = .ok v) := by
  have remembers := served_remembers tools requests
  have unchanged := tools_served tools requests
  obtain ⟨f, gathers⟩ := served_gathers tools requests distinct
  obtain ⟨h, scratch⟩ := fresh_gathers remembers.differ (unchanged ▸ remembers.surveyed)
    fun e listed => distinct e (taken_of_mem_ledger listed)
  refine ⟨by rw [remembers.fingerprints, unchanged], ?_, ?_⟩
  · intro path
    rw [gathers.rest.holdingAt, scratch.rest.holdingAt, gathers.holds, scratch.holds, unchanged, tools_fresh]
    exact ⟨rfl, rfl⟩
  · intro calm
    have tracks := (tracks_nothing tools).foldl_happen (admitted_history tools requests) distinct calm
    rw [← served_eq] at tracks
    obtain ⟨f, h, gathers, scratch, alike⟩ := tracks.alike
    refine gathers.rest.snapshot_of_alike scratch.rest ?_ alike
    exact gathers.holding_congr scratch (unchanged.trans (tools_fresh tools _).symm)

-- A declaration goes and the definition stays as it was, then the definition is written anew.
theorem definition_outlives_declaration :
    let requests : List Request := [.update (Graph.functionUnit "a.h" false "int"),
      .add [Graph.functionUnit "b.cpp" true "int"], .remove "a.h", .update (Graph.functionUnit "b.cpp" true "void")]
    (history .builtin requests).length = 4 ∧ (∀ e, .taken e ∈ history .builtin requests → e.Distinct) ∧
      Calm .builtin [] (history .builtin requests) ∧
      ∃ v, (served .builtin requests).graph.snapshot = .ok v ∧
        (fresh .builtin [Graph.functionUnit "b.cpp" true "void"]).graph.snapshot = .ok v := by
  intro requests
  have told : history .builtin requests = [.taken (Graph.functionUnit "a.h" false "int"),
      .taken (Graph.functionUnit "b.cpp" true "int"), .dropped "a.h", .taken (Graph.functionUnit "b.cpp" true "void")] := by
    decide +kernel
  have distinct : ∀ e, .taken e ∈ history .builtin requests → e.Distinct := by
    intro e listed
    simp only [told, List.mem_cons, Event.taken.injEq, reduceCtorEq, List.not_mem_nil, or_false, false_or] at listed
    rcases listed with rfl | rfl | rfl <;> exact Graph.functionUnit_distinct _ _ _
  have calm : Calm .builtin [] (history .builtin requests) := by decide +kernel
  have inForce : Codebase.ledger .builtin requests = [Graph.functionUnit "b.cpp" true "void"] := by decide +kernel
  have same := (updates_match_rebuild .builtin requests distinct).2.2 calm
  rw [inForce] at same
  exact ⟨by rw [told]; rfl, distinct, calm, same⟩

-- The definition returns nothing, and keeps the type that the declaration gave it.
theorem forgotten_declaration_shows :
    let requests : List Request := [.update (Graph.functionUnit "a.h" false "int"),
      .update (Graph.functionUnit "b.cpp" true "void"), .remove "a.h"]
    Codebase.ledger .builtin requests = [Graph.functionUnit "b.cpp" true "void"] ∧
      ∃ v v', (served .builtin requests).graph.snapshot = .ok v ∧
        (fresh .builtin [Graph.functionUnit "b.cpp" true "void"]).graph.snapshot = .ok v' ∧
        v.Shows "Method: int area()" ∧ ¬ v'.Shows "Method: int area()" := by
  intro requests
  have kept : "Method: int area()" ∈ (served .builtin requests).graph.scopes.map (·.2.signature) := by decide +kernel
  have gone : "Method: int area()" ∉
      (fresh .builtin [Graph.functionUnit "b.cpp" true "void"]).graph.scopes.map (·.2.signature) := by decide +kernel
  obtain ⟨f, rest⟩ := @Graph.Reached.atRest False _ _ (reached_served .builtin requests) fun _ => False.elim
  obtain ⟨h, rest'⟩ := @Graph.Reached.atRest False _ _
    (reached_served .builtin [.update (Graph.functionUnit "b.cpp" true "void")]) fun _ => False.elim
  obtain ⟨v, -, shown⟩ := rest.snapshot
  obtain ⟨v', -, shown'⟩ := rest'.snapshot
  refine ⟨by decide +kernel, v, v', shown, shown', (rest.shows shown).mpr kept, ?_⟩
  exact fun shows => gone ((rest'.shows shown').mp shows)

end Codebase

end ScopeAtlas
