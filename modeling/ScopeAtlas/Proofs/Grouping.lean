import ScopeAtlas.Proofs.Ranks
import ScopeAtlas.Proofs.Symmetry

namespace ScopeAtlas

namespace Scope

def statedAccess (s : Scope) : Option Access := if s.access = .unstated then none else some s.access

def shownReturn (s : Scope) : Option String := (s.method?.bind (·.returnType)).map TypeUse.render

-- Neither contradicts the other.
def CompatibleOn {α : Type} (value : Scope → Option α) (s t : Scope) : Prop :=
  value s = none ∨ value t = none ∨ value s = value t

-- A value comes out the same however the three are grouped. Where the best defined one has none, another fills in. Grouped
-- to the left it is the second for the first, the first for the second, and for the third the better of the two; grouped
-- to the right it is the better of the two for the first, the third for the second, and the second for the third.
def SettledOn {α : Type} (value : Scope → Option α) (s t u : Scope) : Prop :=
  (s.yieldsTo t = false → s.yieldsTo u = false → value s = none → t.yieldsTo u = true → CompatibleOn value t u) ∧
    (s.yieldsTo t = true → t.yieldsTo u = false → value t = none → CompatibleOn value s u) ∧
    (s.yieldsTo u = true → t.yieldsTo u = true → value u = none → s.yieldsTo t = false → CompatibleOn value s t)

-- Three scopes that become one may be grouped either way.
def Settled (s t u : Scope) : Prop := SettledOn statedAccess s t u ∧ SettledOn shownReturn s t u

instance {α : Type} [DecidableEq α] (value : Scope → Option α) (s t : Scope) : Decidable (CompatibleOn value s t) :=
  inferInstanceAs (Decidable (_ ∨ _ ∨ _))

instance {α : Type} [DecidableEq α] (value : Scope → Option α) (s t u : Scope) : Decidable (SettledOn value s t u) :=
  @instDecidableAnd _ _ inferInstance (@instDecidableAnd _ _ inferInstance inferInstance)

instance (s t u : Scope) : Decidable (s.Settled t u) := inferInstanceAs (Decidable (_ ∧ _))

end Scope

section Lists

theorem addUnknown_append {α : Type} (same : α → α → Bool) (known found found' : List α) :
    addUnknown same known (found ++ found') = addUnknown same (addUnknown same known found) found' :=
  List.foldl_append

theorem addUnknown_cons {α : Type} (same : α → α → Bool) (known : List α) (x : α) (found : List α) :
    addUnknown same known (x :: found) = addUnknown same (addUnknown same known [x]) found := rfl

theorem addUnknown_singleton {α : Type} (same : α → α → Bool) (known : List α) (x : α) :
    addUnknown same known [x] = if known.any (same · x) then known else known ++ [x] := rfl

theorem addUnknown_assoc {α κ : Type} {same : α → α → Bool} {key : α → κ}
    (sound : ∀ a b, same a b = true ↔ key a = key b) (first second third : List α) :
    addUnknown same (addUnknown same first second) third = addUnknown same first (addUnknown same second third) := by
  induction third using List.reverseRecOn with
  | nil => rfl
  | append_singleton third x ih =>
    rw [addUnknown_append, addUnknown_append, ih]
    generalize addUnknown same second third = joined
    by_cases old : joined.any (same · x) = true
    · -- a key that is listed before stays listed
      obtain ⟨a, member, equal⟩ := List.any_eq_true.mp old
      obtain ⟨b, listed, equal'⟩ := List.mem_map.mp (@mem_keys_addUnknown _ _ same key first joined sound a member)
      have known : (addUnknown same first joined).any (same · x) = true :=
        List.any_eq_true.mpr ⟨b, listed, (sound b x).mpr (equal'.trans ((sound a x).mp equal))⟩
      rw [addUnknown_singleton, addUnknown_singleton, if_pos known, if_pos old]
    · rw [addUnknown_singleton same joined, if_neg old, addUnknown_append]

theorem addUnknown_flatMap {α β : Type} {same : β → β → Bool} (refl : ∀ x, same x x = true) {copies : α → List β}
    {one : α → β} (some : ∀ a, copies a ≠ []) (all : ∀ a, ∀ x ∈ copies a, x = one a) (known : List β) (found : List α) :
    addUnknown same known (found.flatMap copies) = addUnknown same known (found.map one) := by
  have again : ∀ (x : β) (known : List β) (l : List β), (∀ y ∈ l, y = x) →
      addUnknown same (addUnknown same known [x]) l = addUnknown same known [x] := by
    intro x known l
    have listed : (addUnknown same known [x]).any (same · x) = true := by
      rw [addUnknown_singleton]
      split
      · assumption
      · simp [refl]
    induction l with
    | nil => exact fun _ => rfl
    | cons y rest ih =>
      intro equal
      obtain ⟨rfl, later⟩ := List.forall_mem_cons.mp equal
      rw [addUnknown_cons, addUnknown_singleton same (addUnknown same known [y]), if_pos listed]
      exact ih later
  induction found generalizing known with
  | nil => rfl
  | cons a rest ih =>
    obtain ⟨x, l, written⟩ := List.exists_cons_of_ne_nil (some a)
    have copied := all a
    rw [written] at copied
    obtain ⟨rfl, later⟩ := List.forall_mem_cons.mp copied
    rw [List.flatMap_cons, List.map_cons, addUnknown_append, ih, written, addUnknown_cons, again _ _ _ later,
      ← addUnknown_cons]

end Lists

theorem ParentTable.faces_unite (mine theirs : ParentTable) :
    (mine.unite theirs).faces = addUnknown sameName mine.faces theirs.faces := by
  rw [unite, faces_foldl_add, List.map_flatMap, faces, faces]
  refine addUnknown_flatMap (fun x => (sameName_iff x x).mpr rfl) ?_ ?_ _ _
  · intro p
    unfold usesOf
    split <;> simp_all
  · intro p x member
    obtain ⟨u, written, rfl⟩ := List.mem_map.mp member
    rcases mem_usesOf written with ⟨-, rfl⟩ | ⟨l, -, rfl⟩
    · rfl
    · exact p.use.face_relocate _

theorem Location.addNew_assoc (first second third : List Location) :
    Location.addNew (Location.addNew first second) third = Location.addNew first (Location.addNew second third) :=
  @addUnknown_assoc _ _ Location.sameNode Location.node (fun _ _ => Location.sameNode_iff) first second third

attribute [ext] Parameter

namespace Parameter

theorem unite_assoc (p q r : Parameter) : (p.unite q).unite r = p.unite (q.unite r) := by
  have name : ((p.unite q).unite r).name = (p.unite (q.unite r)).name := by
    have joined := unite_name p q
    rw [unite_name, unite_name p (q.unite r), unite_name q r]
    by_cases here : p.isAnonymous = true
    · rw [if_pos here] at joined
      have same : (p.unite q).isAnonymous = q.isAnonymous := by rw [isAnonymous, isAnonymous, joined]
      rw [if_pos here, same, joined]
    · rw [if_neg here] at joined
      have same : (p.unite q).isAnonymous = p.isAnonymous := by rw [isAnonymous, isAnonymous, joined]
      rw [same, if_neg here, if_neg here, joined]
  have locations : ((p.unite q).unite r).locations = (p.unite (q.unite r)).locations := by
    simp only [unite_locations, Location.addNew_assoc]
  refine Parameter.ext name ?_ locations ?_ ?_
  · simp only [unite_declaredType]
  · simp only [unite_method]
  · simp only [unite_position]

theorem uniteAll_assoc {ps qs rs : List Parameter} (first : ps.map (·.declaredType.name) = qs.map (·.declaredType.name))
    (second : qs.map (·.declaredType.name) = rs.map (·.declaredType.name)) :
    uniteAll (uniteAll ps qs) rs = uniteAll ps (uniteAll qs rs) := by
  induction ps generalizing qs rs with
  | nil =>
    rw [List.map_eq_nil_iff.mp first.symm] at second ⊢
    rw [List.map_eq_nil_iff.mp second.symm]
    rfl
  | cons p ps ih =>
    cases qs with
    | nil => cases first
    | cons q qs =>
      cases rs with
      | nil => cases second
      | cons r rs =>
        obtain ⟨here, rest⟩ := List.cons.inj first
        obtain ⟨there, rest'⟩ := List.cons.inj second
        simp only [uniteAll, if_pos here, if_pos there, unite_declaredType, if_pos (here.trans there), unite_assoc,
          ih rest rest']

end Parameter

namespace VariableTable

def joinInto (group found : List Variable) : List Variable := found.foldl (fun group v => uniteInto v group) group

variable {group group' found : List Variable} {v : Variable}

theorem named_foldl_unite (found : List Variable) (table : VariableTable) (name : String) :
    (found.foldl (fun table v => table.unite v) table).named name =
      joinInto (table.named name) (found.filter (·.name = name)) := by
  induction found generalizing table with
  | nil => rfl
  | cons v rest ih =>
    rw [List.foldl_cons, ih, unite, named_alter]
    by_cases same : name = v.name
    · rw [if_pos same, List.filter_cons_of_pos (by simp [same]), same]
      rfl
    · rw [if_neg same, List.filter_cons_of_neg (by simpa using Ne.symm same)]

theorem uniteInto_append (fresh : ∀ w ∈ group, w.sharesLocation v = false) :
    uniteInto v (group ++ group') = group ++ uniteInto v group' := by
  induction group with
  | nil => rfl
  | cons w rest ih =>
    obtain ⟨here, later⟩ := List.forall_mem_cons.mp fresh
    rw [List.cons_append, uniteInto, if_neg (by simp [here]), ih later]
    rfl

theorem joinInto_append (group found found' : List Variable) :
    joinInto group (found ++ found') = joinInto (joinInto group found) found' := List.foldl_append

theorem append_joinInto (fresh : ∀ v ∈ found, ∀ w ∈ group, w.sharesLocation v = false) :
    joinInto (group ++ group') found = group ++ joinInto group' found := by
  induction found generalizing group' with
  | nil => rfl
  | cons v rest ih =>
    obtain ⟨here, later⟩ := List.forall_mem_cons.mp fresh
    unfold joinInto at ih ⊢
    rw [List.foldl_cons, List.foldl_cons, uniteInto_append here, ih later]

-- Variables that share no place with a group come after it, joined among themselves.
theorem joinInto_of_fresh (fresh : ∀ v ∈ found, ∀ w ∈ group, w.sharesLocation v = false) :
    joinInto group found = group ++ joinInto [] found := by
  rw [← append_joinInto fresh, List.append_nil]

def nodes (group : List Variable) : List (String × String) := group.flatMap fun v => v.locations.map Location.node

section Places

variable {s : Scope}

theorem seesOnce_uniteInto (each : ∀ w ∈ group, s.SeesOnce w) (this : s.SeesOnce v) :
    ∀ w ∈ uniteInto v group, s.SeesOnce w := by
  refine forall_uniteInto each this ?_
  intro w member shared
  obtain ⟨k, one, seen⟩ := each w member
  obtain ⟨l, only, -⟩ := this
  exact ⟨k, Scope.addNew_of_shared one only shared, seen⟩

theorem seesOnce_joinInto (each : ∀ w ∈ group, s.SeesOnce w) (all : ∀ v ∈ found, s.SeesOnce v) :
    ∀ w ∈ joinInto group found, s.SeesOnce w := by
  induction found generalizing group with
  | nil => exact each
  | cons v rest ih =>
    obtain ⟨this, later⟩ := List.forall_mem_cons.mp all
    exact ih (seesOnce_uniteInto each this) later

theorem nodup_joinInto (each : ∀ w ∈ group, s.SeesOnce w) (all : ∀ v ∈ found, s.SeesOnce v)
    (nodup : (nodes group).Nodup) : (nodes (joinInto group found)).Nodup := by
  induction found generalizing group with
  | nil => exact nodup
  | cons v rest ih =>
    obtain ⟨this, later⟩ := List.forall_mem_cons.mp all
    refine ih (seesOnce_uniteInto each this) later ?_
    obtain ⟨l, only, -⟩ := this
    have ones : ∀ w ∈ group, ∃ k, w.locations = [k] := fun w member => (each w member).imp fun _ place => place.1
    rw [nodes, Scope.uniteInto_nodes ones only]
    split
    · exact nodup
    · rename_i fresh
      exact List.nodup_append_comm.mp (List.nodup_cons.mpr ⟨fresh, nodup⟩)

end Places

theorem joinInto_eq_append (nodup : (nodes (group ++ found)).Nodup) : joinInto group found = group ++ found := by
  induction found generalizing group with
  | nil => exact (List.append_nil group).symm
  | cons v rest ih =>
    have fresh : ∀ w ∈ group, w.sharesLocation v = false := by
      intro w member
      obtain ⟨-, apart⟩ := List.nodup_flatMap.mp nodup
      obtain ⟨-, -, cross⟩ := List.pairwise_append.mp apart
      have disjoint := cross w member v List.mem_cons_self
      rw [Bool.eq_false_iff]
      intro shared
      obtain ⟨k, here, l, there, equal⟩ := sharesLocation_iff.mp shared
      exact disjoint (List.mem_map_of_mem here) (equal ▸ List.mem_map_of_mem there)
    have moved : group ++ v :: rest = group ++ [v] ++ rest := by simp
    rw [moved] at nodup ⊢
    rw [← ih nodup, ← uniteInto_eq_append fresh]
    rfl

theorem joinInto_idem {s : Scope} (all : ∀ v ∈ found, s.SeesOnce v) :
    joinInto [] (joinInto [] found) = joinInto [] found :=
  joinInto_eq_append (nodup_joinInto nofun all List.nodup_nil)

theorem perm_of_filter {left right : List Variable}
    (same : ∀ name, left.filter (·.name = name) = right.filter (·.name = name)) : left.Perm right := by
  classical
  refine List.perm_iff_count.mpr ?_
  intro v
  have kept : ∀ group : List Variable, (group.filter (·.name = v.name)).count v = group.count v :=
    fun group => List.count_filter (by simp)
  rw [← kept left, same, kept right]

end VariableTable

namespace Scope

variable {s t u : Scope}

theorem Sound.unite_of_key (left : s.Sound) (right : t.Sound) (same : s.key = t.key) : (s.unite t).Sound :=
  left.unite right ((sameEntity_iff left right).mpr same)

theorem Apart.unite_left (first : s.Apart u) (second : t.Apart u) : (s.unite t).Apart u := by
  intro file here there
  exact (isIn_unite.mp here).elim (fun seen => first file seen there) fun seen => second file seen there

theorem Apart.unite_right (first : s.Apart t) (second : s.Apart u) : s.Apart (t.unite u) := by
  intro file here there
  exact (isIn_unite.mp there).elim (first file here) (second file here)

theorem Apart.named_unite (apart : s.Apart t) (left : s.Sound) (right : t.Sound) (name : String) :
    (s.unite t).declared.named name =
      s.declared.named name ++ VariableTable.joinInto [] (t.declared.named name) := by
  rw [unite_declared, VariableTable.named_foldl_unite, right.filter_declared]
  refine VariableTable.joinInto_of_fresh ?_
  exact fun v there w here => apart.variables (left.seesOnce here) (right.seesOnce there)

end Scope

inductive ScopeKind.Alike : ScopeKind → ScopeKind → Prop
  | block : Alike .block .block
  | space (isGlobal : Bool) : Alike (.space isGlobal) (.space isGlobal)
  | type (d d' : TypeDefinition) : Alike (.type d) (.type d')
  | method (m m' : MethodDefinition)
      (types : m.parameters.map (·.declaredType.name) = m'.parameters.map (·.declaredType.name)) :
      Alike (.method m) (.method m')

namespace Scope

variable {s t u : Scope}

theorem alike_kinds_of_key (same : s.key = t.key) : s.kind.Alike t.kind := by
  unfold key at same
  cases here : s.kind <;> cases there : t.kind <;> simp only [here, there, reduceCtorEq] at same
  · exact .block
  · rw [(Key.space.inj same).2]
    exact .space _
  · exact .type _ _
  · exact .method _ _ (Key.method.inj same).2.2.2

-- Of three values the best defined one is kept, if there is one; which of the others fills in depends on the grouping.
theorem preferred_assoc_iff {α : Type} {st tu su : Bool} (x y z : Option α) (yields : st = true → tu = true → su = true)
    (keeps : st = false → tu = false → su = false) :
    preferred (if st then tu else su) (preferred st x y) z = preferred (if tu then su else st) x (preferred tu y z) ↔
      (st = false → su = false → x = none → tu = true → y = none ∨ z = none ∨ y = z) ∧
        (st = true → tu = false → y = none → x = none ∨ z = none ∨ x = z) ∧
        (su = true → tu = true → z = none → st = false → x = none ∨ y = none ∨ x = y) := by
  cases st <;> cases tu <;> cases su <;> cases x <;> cases y <;> cases z <;> simp_all [preferred, eq_comm]

theorem best_assoc {α : Type} {st tu su : Bool} (x y z : α) (yields : st = true → tu = true → su = true)
    (keeps : st = false → tu = false → su = false) :
    (if (if st then tu else su) then z else if st then y else x) =
      if (if tu then su else st) then (if tu then z else y) else x := by
  cases st <;> cases tu <;> cases su <;> simp_all

theorem statedAccess_unite (s t : Scope) :
    (s.unite t).statedAccess = preferred (s.yieldsTo t) s.statedAccess t.statedAccess := by
  unfold statedAccess
  rw [unite_access]
  cases s.yieldsTo t <;> by_cases here : s.access = .unstated <;> by_cases there : t.access = .unstated <;>
    simp [here, there, preferred]

theorem access_of_stated (same : s.statedAccess = t.statedAccess) : s.access = t.access := by
  unfold statedAccess at same
  split at same <;> split at same <;> simp_all

theorem shownReturn_of_method {m : MethodDefinition} (kind : s.kind = .method m) :
    s.shownReturn = m.returnType.map TypeUse.render := by
  simp [shownReturn, method?, kind]

theorem shownReturn_unite (same : s.key = t.key) :
    (s.unite t).shownReturn = preferred (s.yieldsTo t) s.shownReturn t.shownReturn := by
  have alike := alike_kinds_of_key same
  have united := unite_kind s t
  generalize here : s.kind = k, there : t.kind = l at alike united
  cases alike with
  | method m m' =>
    rw [shownReturn_of_method united, shownReturn_of_method here, shownReturn_of_method there]
    simp only [MethodDefinition.unite]
    cases s.yieldsTo t <;> cases m.returnType <;> cases m'.returnType <;> rfl
  | block | space | type =>
    simp only [shownReturn, method?, united, here, there, ScopeKind.unite]
    cases s.yieldsTo t <;> rfl

theorem faces_unite (same : s.key = t.key) :
    (s.unite t).parentTable.faces = addUnknown ParentTable.sameName s.parentTable.faces t.parentTable.faces := by
  have alike := alike_kinds_of_key same
  unfold parentTable type?
  rw [unite_kind]
  generalize s.kind = k, t.kind = l at alike
  cases alike with
  | type d d' =>
    rw [← ParentTable.faces_unite]
    exact congrArg ParentTable.faces (TypeDefinition.parents_unite _ d d')
  | block | space | method => rfl

theorem signature_eq_of_method {m m' : MethodDefinition} (here : s.kind = .method m) (there : t.kind = .method m')
    (name : s.name = t.name) (access : s.access = t.access) (returns : s.shownReturn = t.shownReturn)
    (flags : m.isConstructor = m'.isConstructor ∧ m.isDestructor = m'.isDestructor)
    (parameters : m.parameters.map Parameter.render = m'.parameters.map Parameter.render) :
    s.signature = t.signature := by
  rw [shownReturn_of_method here, shownReturn_of_method there] at returns
  simp only [signature, here, there, renderMethod, name, access, flags, parameters]
  cases first : m.returnType <;> cases second : m'.returnType <;> simp_all

theorem calls_assoc (s t u : Scope) : ((s.unite t).unite u).calls = (s.unite (t.unite u)).calls := by
  simp only [unite_calls, Call.addNew_eq]
  exact addUnknown_assoc (fun c d : Call => @Location.sameNode_iff c.location d.location) s.calls t.calls u.calls

-- Three scopes of one key, no two of them seen in one file.
structure Trio (s t u : Scope) : Prop where
  first : s.Sound
  second : t.Sound
  third : u.Sound
  key : s.key = t.key
  key' : t.key = u.key
  apart : s.Apart t
  apart' : t.Apart u
  across : s.Apart u

namespace Trio

variable (trio : s.Trio t u)

include trio

theorem sound_left : (s.unite t).Sound := trio.first.unite_of_key trio.second trio.key

theorem sound_right : (t.unite u).Sound := trio.second.unite_of_key trio.third trio.key'

theorem key_left : (s.unite t).key = u.key :=
  (key_unite trio.first trio.second trio.key).trans (trio.key.trans trio.key')

theorem key_right : s.key = (t.unite u).key :=
  trio.key.trans (key_unite trio.second trio.third trio.key').symm

theorem apart_left : (s.unite t).Apart u := trio.across.unite_left trio.apart'

theorem apart_right : s.Apart (t.unite u) := trio.apart.unite_right trio.across

theorem locations_assoc : ((s.unite t).unite u).locations = (s.unite (t.unite u)).locations := by
  rw [trio.apart_left.locations trio.third, trio.apart.locations trio.second,
    trio.apart_right.locations trio.sound_right, trio.apart'.locations trio.third, List.append_assoc]

theorem faces_assoc : ((s.unite t).unite u).parentTable.faces = (s.unite (t.unite u)).parentTable.faces := by
  rw [faces_unite trio.key_left, faces_unite trio.key, faces_unite trio.key_right, faces_unite trio.key']
  exact addUnknown_assoc ParentTable.sameName_iff _ _ _

theorem named_assoc (name : String) :
    ((s.unite t).unite u).declared.named name = (s.unite (t.unite u)).declared.named name := by
  have later : ∀ v ∈ VariableTable.joinInto [] (u.declared.named name), u.SeesOnce v :=
    VariableTable.seesOnce_joinInto nofun fun _ => trio.third.seesOnce
  have middle : ∀ v ∈ VariableTable.joinInto [] (t.declared.named name), t.SeesOnce v :=
    VariableTable.seesOnce_joinInto nofun fun _ => trio.second.seesOnce
  have joined := VariableTable.joinInto_of_fresh fun v there w here =>
    trio.apart'.variables (middle w here) (later v there)
  rw [VariableTable.joinInto_idem fun _ => trio.third.seesOnce] at joined
  rw [trio.apart_left.named_unite trio.sound_left trio.third, trio.apart.named_unite trio.first trio.second,
    trio.apart_right.named_unite trio.first trio.sound_right, trio.apart'.named_unite trio.second trio.third,
    VariableTable.joinInto_append, joined, List.append_assoc]

theorem declared_assoc : ((s.unite t).unite u).declared.toList.Perm (s.unite (t.unite u)).declared.toList := by
  have left := trio.sound_left.unite_of_key trio.third trio.key_left
  have right := trio.first.unite_of_key trio.sound_right trio.key_right
  refine VariableTable.perm_of_filter ?_
  intro name
  rw [left.filter_declared, right.filter_declared, trio.named_assoc]

-- A value that is taken from the better defined side comes out the same exactly if it is settled.
theorem value_assoc_iff {α : Type} {value : Scope → Option α}
    (law : ∀ {s t : Scope}, s.key = t.key → value (s.unite t) = preferred (s.yieldsTo t) (value s) (value t)) :
    value ((s.unite t).unite u) = value (s.unite (t.unite u)) ↔ SettledOn value s t u := by
  rw [law trio.key_left, law trio.key, law trio.key_right, law trio.key', trio.apart.unite_yieldsTo trio.second,
    trio.apart'.yieldsTo_unite trio.third]
  exact preferred_assoc_iff _ _ _ yieldsTo_trans not_yieldsTo_trans

theorem access_assoc (settled : SettledOn statedAccess s t u) :
    ((s.unite t).unite u).access = (s.unite (t.unite u)).access :=
  access_of_stated ((trio.value_assoc_iff fun _ => statedAccess_unite _ _).mpr settled)

theorem signature_assoc (settled : s.Settled t u) :
    ((s.unite t).unite u).signature = (s.unite (t.unite u)).signature := by
  have access := trio.access_assoc settled.1
  have returns := (trio.value_assoc_iff shownReturn_unite).mpr settled.2
  have name : ((s.unite t).unite u).name = (s.unite (t.unite u)).name := by simp only [unite_name]
  have left : ((s.unite t).unite u).kind = (s.kind.unite (s.yieldsTo t) t.kind).unite
      (if s.yieldsTo t then t.yieldsTo u else s.yieldsTo u) u.kind := by
    rw [unite_kind, unite_kind, trio.apart.unite_yieldsTo trio.second]
  have right : (s.unite (t.unite u)).kind = s.kind.unite (if t.yieldsTo u then s.yieldsTo u else s.yieldsTo t)
      (t.kind.unite (t.yieldsTo u) u.kind) := by
    rw [unite_kind, unite_kind, trio.apart'.yieldsTo_unite trio.third]
  have first := alike_kinds_of_key trio.key
  have second := alike_kinds_of_key trio.key'
  generalize s.kind = k, t.kind = l, u.kind = r at first second left right
  cases first with
  | block =>
    cases second
    simp only [signature, left, right, ScopeKind.unite]
  | space =>
    cases second
    simp only [signature, left, right, ScopeKind.unite, name, Bool.or_self]
  | type d d' =>
    cases second
    simp only [signature, left, right, ScopeKind.unite, TypeDefinition.unite, name,
      best_assoc _ _ _ (@yieldsTo_trans s t u) not_yieldsTo_trans]
  | method m m' types =>
    cases second with
    | method _ m'' types' =>
      have parameters := congrArg (List.map Parameter.render) (Parameter.uniteAll_assoc types types')
      simp only [ScopeKind.unite] at left right
      exact signature_eq_of_method left right name access returns ⟨rfl, rfl⟩ parameters

end Trio

end Scope

theorem Snapshot.ofScope_unite_assoc {s t u : Scope} {fullName : String} {children children' : List Snapshot}
    (trio : s.Trio t u) (settled : s.Settled t u) (below : children.Perm children') :
    ofScope ((s.unite t).unite u) fullName children = ofScope (s.unite (t.unite u)) fullName children' := by
  have shown : ∀ table : ParentTable, table.map (·.use.render) = table.faces.map Prod.snd := by
    intro table
    simp [ParentTable.faces, TypeUse.face]
  refine ofScope_congr (trio.signature_assoc settled) (trio.access_assoc settled.1) (.of_eq trio.locations_assoc) ?_
    trio.declared_assoc (.of_eq (Scope.calls_assoc s t u)) below
  rw [shown, shown, trio.faces_assoc]

namespace Forest

-- Three forests may be united in either grouping, where the scopes that all of them hold are settled.
theorem views_absorb_assoc {f g h : Forest} {upper : Scope} (first : f.Nests (fun _ s => s.Sound) upper)
    (second : g.Nests (fun _ s => s.Sound) upper) (third : h.Nests (fun _ s => s.Sound) upper) (distinct : f.Distinct)
    (distinct' : g.Distinct) (distinct'' : h.Distinct)
    (meet : ∀ path x s below y t under z u deep, f.at? path = some (x, s, below) → g.at? path = some (y, t, under) →
      h.at? path = some (z, u, deep) → s.Trio t u ∧ s.Settled t u)
    (above : List String) : (((f.absorb g).absorb h).views above).Perm ((f.absorb (g.absorb h)).views above) := by
  have joins := Scope.joins_sound
  have sound : ∀ {s : Scope}, s.Sound → s.Sound := fun here => here
  -- what is below the scopes that meet is lower
  induction size : f.height using Nat.strong_induction_on generalizing f g h upper above with
  | _ size ih =>
    have left := first.absorb joins second
    have right := second.absorb joins third
    have distinctLeft := distinct.absorb sound joins first second distinct'
    have distinctRight := distinct'.absorb sound joins second third distinct''
    refine (distinctLeft.absorb sound joins left third distinct'').views_perm
      (distinct.absorb sound joins first right distinctRight) ?_
    intro k
    rw [find_absorb sound joins left third distinct'', find_absorb sound joins first second distinct',
      find_absorb sound joins first right distinctRight, find_absorb sound joins second third distinct'']
    rcases inF : f.find k with _ | ⟨x, s, below⟩
    · rfl
    · rcases inG : g.find k with _ | ⟨y, t, under⟩
      · rfl
      · rcases inH : h.find k with _ | ⟨z, u, deep⟩
        · rfl
        · have meet' : ∀ path x' s' b y' t' c z' u' d, below.at? path = some (x', s', b) →
              under.at? path = some (y', t', c) → deep.at? path = some (z', u', d) →
              s'.Trio t' u' ∧ s'.Settled t' u' := by
            intro path x' s' b y' t' c z' u' d here there yonder
            cases path with
            | nil => cases here
            | cons k' path =>
              refine meet (k :: k' :: path) x' s' b y' t' c z' u' d ?_ ?_ ?_
              · rw [at?, inF]
                exact here
              · rw [at?, inG]
                exact there
              · rw [at?, inH]
                exact yonder
          have lower := ih below.height (size ▸ height_of_find inF) (first.find inF).2
            ((second.find inG).2.mono fun _ here => here) ((third.find inH).2.mono fun _ here => here)
            (distinct.find inF) (distinct'.find inG) (distinct''.find inH) meet' (above ++ s.pathName?.toList) rfl
          obtain ⟨trio, settled⟩ := meet [k] x s below y t under z u deep inF inG inH
          simp only [unites, Option.map_some, viewOf, Scope.pathName?_unite]
          rw [Snapshot.ofScope_unite_assoc trio settled lower]

theorem blind_rebind (rename : ScopeId → ScopeId) (f : Forest) : (f.mapScopes (·.rebind rename)).blind = f.blind := by
  induction f with
  | nil => rfl
  | tree id s below rest inner outer => rw [mapScopes, blind, blind, inner, outer, Scope.rebind_rebind]; rfl

theorem blind_merged (offset : Nat) (f h : Forest) : (f.merged offset h).blind = f.blind.absorb h.blind := by
  rw [merged, blind_rebind, relabels_blind.absorb, blind_shift]

end Forest

namespace Scope

variable {s t u : Scope}

theorem shownReturn_rebind (f : ScopeId → ScopeId) (s : Scope) : (s.rebind f).shownReturn = s.shownReturn := by
  unfold shownReturn method? Scope.rebind
  cases s.kind with
  | method m => simp [ScopeKind.rebind, MethodDefinition.rebind, Function.comp_def, TypeUse.rebind_render]
  | block | space | type => rfl

theorem Settled.rebind (settled : s.Settled t u) (f : ScopeId → ScopeId) :
    (s.rebind f).Settled (t.rebind f) (u.rebind f) := by
  simp only [Settled, SettledOn, CompatibleOn, shownReturn_rebind]
  exact settled

theorem Trio.rebind (trio : s.Trio t u) (f : ScopeId → ScopeId) : (s.rebind f).Trio (t.rebind f) (u.rebind f) where
  first := trio.first.rebind f
  second := trio.second.rebind f
  third := trio.third.rebind f
  key := by simpa using trio.key
  key' := by simpa using trio.key'
  apart := trio.apart
  apart' := trio.apart'
  across := trio.across

end Scope

namespace Graph

variable {a b c : Graph} {f g h : Forest}

-- The scopes that all three graphs hold are settled.
def SettledWith (a b c : Graph) : Prop :=
  ∀ x y z s t u, a.get? x = some s → b.get? y = some t → c.get? z = some u → a.keyPath x = b.keyPath y →
    b.keyPath y = c.keyPath z → s.Settled t u

instance (a b c : Graph) : Decidable (a.SettledWith b c) :=
  decidable_of_iff (∀ x ∈ a.scopes, ∀ y ∈ b.scopes, ∀ z ∈ c.scopes, a.keyPath x.1 = b.keyPath y.1 →
    b.keyPath y.1 = c.keyPath z.1 → x.2.Settled y.2 z.2) <| by
    simp only [SettledWith, Prod.forall, mem_scopes]
    constructor
    · exact fun all x y z s t u here there yonder => all x s here y t there z u yonder
    · exact fun all x s here y t there z u yonder => all x y z s t u here there yonder

theorem AtRest.views_grouped {strict : Prop} (first : a.AtRest strict f) (second : b.AtRest strict g)
    (third : c.AtRest strict h) (n n' k k' : Nat)
    (meet : ∀ path x s below y t under z u deep, f.at? path = some (x, s, below) → g.at? path = some (y, t, under) →
      h.at? path = some (z, u, deep) → s.Trio t u ∧ s.Settled t u) :
    (((f.merged n g).merged n' h).views []).Perm ((f.merged k (g.merged k' h)).views []) := by
  rw [Forest.views_merged, Forest.views_merged, Forest.blind_merged, Forest.blind_merged]
  have blind := Forest.relabels_blind
  refine Forest.views_absorb_assoc ((blind.rooted first.rooted).sound .global)
    ((blind.rooted second.rooted).sound .global) ((blind.rooted third.rooted).sound .global)
    (blind.distinct first.distinct) (blind.distinct second.distinct) (blind.distinct third.distinct) ?_ []
  intro path x s below y t under z u deep here there yonder
  rw [blind.at?] at here there yonder
  obtain ⟨⟨x', s', below'⟩, found, same⟩ := Option.map_eq_some_iff.mp here
  obtain ⟨⟨y', t', under'⟩, found', same'⟩ := Option.map_eq_some_iff.mp there
  obtain ⟨⟨z', u', deep'⟩, found'', same''⟩ := Option.map_eq_some_iff.mp yonder
  cases same
  cases same'
  cases same''
  obtain ⟨trio, settled⟩ := meet path x' s' below' y' t' under' z' u' deep' found found' found''
  exact ⟨trio.rebind _, settled.rebind _⟩

-- Three graphs, no two of them with a file in common, may be merged in either grouping, if they are settled.
theorem merge_grouping_of_settled {admits : Element → Prop} (first : a.Reached admits) (second : b.Reached admits)
    (third : c.Reached admits) (apart : ∀ file, a.Sees file → ¬ b.Sees file)
    (apart' : ∀ file, b.Sees file → ¬ c.Sees file) (across : ∀ file, a.Sees file → ¬ c.Sees file)
    (settled : a.SettledWith b c) :
    ∃ ab bc m m' v, a.merge b = .ok ab ∧ ab.merge c = .ok m ∧ b.merge c = .ok bc ∧ a.merge bc = .ok m' ∧
      m.snapshot = .ok v ∧ m'.snapshot = .ok v := by
  obtain ⟨f, inA⟩ := first.exists_atRest
  obtain ⟨g, inB⟩ := second.exists_atRest
  obtain ⟨h, inC⟩ := third.exists_atRest
  obtain ⟨ab, merged, restAB⟩ := inA.merge inB
  obtain ⟨bc, merged', restBC⟩ := inB.merge inC
  obtain ⟨m, left, rest⟩ := restAB.merge inC
  obtain ⟨m', right, rest'⟩ := inA.merge restBC
  obtain ⟨v, views, shown⟩ := rest.snapshot
  obtain ⟨v', views', shown'⟩ := rest'.snapshot
  have same := inA.views_grouped inB inC a.size ab.size a.size b.size (by
    intro path x s below y t under z u deep here there yonder
    obtain ⟨found, path_x⟩ := inA.of_at? here
    obtain ⟨found', path_y⟩ := inB.of_at? there
    obtain ⟨found'', path_z⟩ := inC.of_at? yonder
    obtain ⟨distant, key⟩ := inA.meet inB apart here there
    obtain ⟨distant', key'⟩ := inB.meet inC apart' there yonder
    refine ⟨⟨(inA.sound_of_at? here).1, (inB.sound_of_at? there).1, (inC.sound_of_at? yonder).1, key, key', distant,
      distant', (inA.meet inC across here yonder).1⟩, ?_⟩
    have held := settled x y z _ _ _ found found' found'' (path_x.trans path_y.symm) (path_y.trans path_z.symm)
    exact held)
  rw [views, views', List.perm_singleton] at same
  cases same
  exact ⟨ab, bc, m, m', v, merged, left, merged', right, shown, shown'⟩

def functionUnit (file : String) (defined : Bool) (returns : String) : Element :=
  let body := if defined then Content.written "block" .nil .nil else .nil
  let typed := Content.written "type" (.name returns .nil) <| .name "area" <| .written "parameter_list" .nil body
  let content := Content.written (if defined then "function" else "function_decl") typed .nil
  { tag := "unit", attributes := [("filename", file)], content := content : Element }.positioned

theorem functionUnit_distinct (file : String) (defined : Bool) (returns : String) :
    (functionUnit file defined returns).Distinct := by
  have same : (functionUnit file defined returns).content.positions = (functionUnit "" defined "").content.positions := rfl
  unfold Element.Distinct
  rw [same]
  cases defined <;> decide +kernel

theorem surveyed_trio {p : Profile} {e e' e'' : Element} {test : Graph → Graph → Graph → Bool}
    (passed : (do return test (← surveyUnit p e) (← surveyUnit p e') (← surveyUnit p e'')).toOption = some true) :
    ∃ a b c, surveyUnit p e = .ok a ∧ surveyUnit p e' = .ok b ∧ surveyUnit p e'' = .ok c ∧ test a b c = true := by
  cases first : surveyUnit p e with
  | error fault =>
    rw [first] at passed
    cases passed
  | ok a =>
    rw [first] at passed
    obtain ⟨b, c, second, third, tested⟩ := @surveyed_pair p e' e'' (test a) passed
    exact ⟨a, b, c, rfl, second, third, tested⟩

-- A definition that returns nothing, between two declarations that name the same type.
theorem functions_merge_in_groups :
    ∃ a b c ab bc m m' v, surveyUnit .cPlusPlus (functionUnit "a.h" false "int") = .ok a ∧
      surveyUnit .cPlusPlus (functionUnit "b.cpp" true "void") = .ok b ∧
      surveyUnit .cPlusPlus (functionUnit "c.h" false "int") = .ok c ∧ a.SettledWith b c ∧
      a.merge b = .ok ab ∧ ab.merge c = .ok m ∧ b.merge c = .ok bc ∧ a.merge bc = .ok m' ∧
      m.snapshot = .ok v ∧ m'.snapshot = .ok v := by
  obtain ⟨a, b, c, first, second, third, settled⟩ := @surveyed_trio .cPlusPlus (functionUnit "a.h" false "int")
    (functionUnit "b.cpp" true "void") (functionUnit "c.h" false "int") (fun a b c => decide (a.SettledWith b c))
    (by decide +kernel)
  have settled := of_decide_eq_true settled
  obtain ⟨ab, bc, m, m', v, merged⟩ := @merge_grouping_of_settled a b c (fun _ => True) (.surveyed trivial first)
    (.surveyed trivial second) (.surveyed trivial third) (surveyed_apart first second (by decide))
    (surveyed_apart second third (by decide)) (surveyed_apart first third (by decide)) settled
  exact ⟨a, b, c, ab, bc, m, m', v, first, second, third, settled, merged⟩

-- The declarations name different types: the one that meets the definition first gives it the type.
theorem functions_merge_grouping_shows :
    ∃ a b c ab bc m m' v v', surveyUnit .cPlusPlus (functionUnit "a.h" false "int") = .ok a ∧
      surveyUnit .cPlusPlus (functionUnit "b.cpp" true "void") = .ok b ∧
      surveyUnit .cPlusPlus (functionUnit "c.h" false "long") = .ok c ∧
      a.merge b = .ok ab ∧ ab.merge c = .ok m ∧ b.merge c = .ok bc ∧ a.merge bc = .ok m' ∧
      m.snapshot = .ok v ∧ m'.snapshot = .ok v' ∧ v ≠ v' := by
  obtain ⟨a, b, c, first, second, third, passed⟩ := @surveyed_trio .cPlusPlus (functionUnit "a.h" false "int")
    (functionUnit "b.cpp" true "void") (functionUnit "c.h" false "long")
    (fun a b c => match a.merge b >>= (·.merge c), b.merge c >>= a.merge with
      | .ok m, .ok m' =>
        decide ("Method: int area()" ∈ m.scopes.map (·.2.signature) ∧
          "Method: int area()" ∉ m'.scopes.map (·.2.signature))
      | _, _ => false) (by decide +kernel)
  obtain ⟨f, inA⟩ := @atRest_surveyed False _ _ _ nofun first
  obtain ⟨g, inB⟩ := @atRest_surveyed False _ _ _ nofun second
  obtain ⟨h, inC⟩ := @atRest_surveyed False _ _ _ nofun third
  obtain ⟨ab, merged, restAB⟩ := inA.merge inB
  obtain ⟨bc, merged', restBC⟩ := inB.merge inC
  obtain ⟨m, left, rest⟩ := restAB.merge inC
  obtain ⟨m', right, rest'⟩ := inA.merge restBC
  obtain ⟨v, -, shown⟩ := rest.snapshot
  obtain ⟨v', -, shown'⟩ := rest'.snapshot
  have both : a.merge b >>= (·.merge c) = .ok m ∧ b.merge c >>= a.merge = .ok m' := by
    rw [merged, merged']
    exact ⟨left, right⟩
  rw [both.1, both.2] at passed
  obtain ⟨listed, missing⟩ := of_decide_eq_true passed
  refine ⟨a, b, c, ab, bc, m, m', v, v', first, second, third, merged, left, merged', right, shown, shown', ?_⟩
  rintro rfl
  exact missing ((rest'.shows shown').mp ((rest.shows shown).mpr listed))

end Graph

end ScopeAtlas
