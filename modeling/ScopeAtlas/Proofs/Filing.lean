import ScopeAtlas.Proofs.Contributions
import ScopeAtlas.Proofs.Resemblance
import Mathlib.Data.Multiset.Bind
import Mathlib.Tactic.Abel

namespace ScopeAtlas

-- A call or a declaration, by the place where it is written.
structure Record where
  isCall : Bool
  location : Location
deriving DecidableEq, Repr

def Record.node (r : Record) : String × String := r.location.node

-- An element stands for one location.
def Location.Unambiguous (places : Set Location) : Prop := ∀ l ∈ places, ∀ k ∈ places, l.node = k.node → l = k

namespace Scope

variable {mine theirs s : Scope}

def filed (s : Scope) : List Record :=
  s.calls.map (fun call => ⟨true, call.location⟩) ++ s.declared.toList.flatMap fun v => v.locations.map (⟨false, ·⟩)

theorem filed_rebind (s : Scope) (rename : ScopeId → ScopeId) : (s.rebind rename).filed = s.filed := by
  have declared : (s.rebind rename).declared.toList = s.declared.toList.map (·.rebind rename) :=
    VariableTable.rebind_toList rename s.declared
  rw [filed, filed, declared, List.flatMap_map]
  simp [Scope.rebind, Call.rebind, Variable.rebind, Function.comp_def]

theorem filed_addCall (s : Scope) (call : Call) : (s.addCall call).filed.Perm (⟨true, call.location⟩ :: s.filed) := by
  rw [filed, filed, addCall, List.map_append, List.append_assoc, List.map_singleton, List.singleton_append]
  exact List.perm_middle

theorem filed_addVariable (s : Scope) (v : Variable) :
    (s.addVariable v).filed.Perm (v.locations.map (⟨false, ·⟩) ++ s.filed) := by
  have added := (VariableTable.toList_add_perm s.declared v).flatMap_right fun v => v.locations.map (Record.mk false)
  rw [List.flatMap_append, List.flatMap_singleton] at added
  rw [filed, filed]
  refine (added.append_left (s.calls.map fun call => ⟨true, call.location⟩)).trans ?_
  rw [← List.append_assoc]
  exact List.perm_append_comm

theorem filed_foldl_addVariable (found : List Variable) (s : Scope) :
    (found.foldl addVariable s).filed.Perm ((found.flatMap fun v => v.locations.map (Record.mk false)) ++ s.filed) := by
  induction found generalizing s with
  | nil => exact List.Perm.refl _
  | cons v found ih =>
    rw [List.foldl_cons, List.flatMap_cons]
    refine (ih (s.addVariable v)).trans (((filed_addVariable s v).append_left _).trans ?_)
    rw [← List.append_assoc]
    exact List.perm_append_comm.append_right _

theorem locations_foldl_addVariable (found : List Variable) (s : Scope) :
    (found.foldl addVariable s).locations = s.locations := by
  induction found generalizing s with
  | nil => rfl
  | cons v found ih => exact ih (s.addVariable v)

theorem mem_filed_of_declared {v : Variable} {l : Location} (listed : v ∈ s.declared.toList) (member : l ∈ v.locations) :
    ⟨false, l⟩ ∈ s.filed :=
  List.mem_append_right _ (List.mem_flatMap.mpr ⟨v, listed, List.mem_map_of_mem member⟩)

theorem unite_calls_apart (apart : ((mine.filed ++ theirs.filed).map Record.node).Nodup) :
    (mine.unite theirs).calls = mine.calls ++ theirs.calls := by
  rw [List.map_append, List.nodup_append] at apart
  obtain ⟨-, nodup, apart⟩ := apart
  have nodes : ∀ s : Scope, (s.calls.map (·.location.node)).Sublist (s.filed.map Record.node) := by
    intro s
    have sub := (List.sublist_append_left (s.calls.map fun call => (⟨true, call.location⟩ : Record))
      (s.declared.toList.flatMap fun v => v.locations.map (⟨false, ·⟩))).map Record.node
    rw [List.map_map] at sub
    exact sub
  rw [unite_calls, Call.addNew_eq]
  refine addUnknown_eq_append (fun _ _ => Location.sameNode_iff) (nodup.sublist (nodes theirs)) ?_
  intro call member listed
  exact apart _ ((nodes mine).subset listed) _ ((nodes theirs).subset (List.mem_map_of_mem member)) rfl

theorem unite_declared_apart (apart : ((mine.filed ++ theirs.filed).map Record.node).Nodup) :
    (mine.unite theirs).declared.toList.Perm (mine.declared.toList ++ theirs.declared.toList) := by
  rw [List.map_append, List.nodup_append] at apart
  obtain ⟨-, nodup, apart⟩ := apart
  have unshared : ∀ v w : Variable, (∀ k ∈ v.locations, ∀ l ∈ w.locations, k.node ≠ l.node) →
      v.sharesLocation w = false := by
    intro v w differ
    rw [Bool.eq_false_iff]
    intro shared
    obtain ⟨k, member, l, member', same⟩ := VariableTable.sharesLocation_iff.mp shared
    exact differ k member l member' same
  rw [unite_declared, VariableTable.foldl_unite_eq_add]
  · exact VariableTable.toList_foldl_add_perm _ _
  · intro v member w listed
    refine unshared w v ?_
    intro k here l there same
    have known : w ∈ mine.declared.toList := VariableTable.mem_toList.mpr (VariableTable.mem_named listed)
    have here : ⟨false, k⟩ ∈ mine.filed := mem_filed_of_declared known here
    have there : ⟨false, l⟩ ∈ theirs.filed := mem_filed_of_declared member there
    exact apart _ (List.mem_map_of_mem here) _ (List.mem_map_of_mem there) same
  · rw [filed, List.map_append, List.map_flatMap] at nodup
    obtain ⟨-, disjoint⟩ := List.nodup_flatMap.mp (List.nodup_append.mp nodup).2.1
    refine disjoint.imp ?_
    intro w v disjoint _
    refine unshared w v ?_
    intro k here l there same
    have here : k.node ∈ (w.locations.map (Record.mk false)).map Record.node := by
      rw [List.map_map]
      exact List.mem_map_of_mem here
    have there : l.node ∈ (v.locations.map (Record.mk false)).map Record.node := by
      rw [List.map_map]
      exact List.mem_map_of_mem there
    exact disjoint here (same ▸ there)

-- Nothing is lost where nothing was filed at one element twice.
theorem filed_unite (apart : ((mine.filed ++ theirs.filed).map Record.node).Nodup) :
    (mine.unite theirs).filed.Perm (mine.filed ++ theirs.filed) := by
  have declared := (unite_declared_apart apart).flatMap_right fun v => v.locations.map (Record.mk false)
  rw [List.flatMap_append] at declared
  rw [filed, unite_calls_apart apart, List.map_append]
  refine (declared.append_left _).trans ?_
  simp only [filed, List.append_assoc]
  refine List.Perm.append_left _ ?_
  rw [← List.append_assoc, ← List.append_assoc]
  exact List.perm_append_comm.append_right _

theorem mem_addLocationTo {places : Set Location} {l k : Location} {known : List Location}
    (once : Location.Unambiguous places) (new : l ∈ places) (placed : ∀ k ∈ known, k ∈ places) :
    k ∈ addLocationTo l known ↔ k ∈ known ∨ k = l := by
  induction known with
  | nil => simp [addLocationTo]
  | cons first rest ih =>
    unfold addLocationTo
    obtain ⟨here, later⟩ := List.forall_mem_cons.mp placed
    split
    · rename_i same
      cases once first here l new (Location.sameNode_iff.mp same)
      have kept : { l with isReference := l.isReference && l.isReference } = l := by rw [Bool.and_self]
      rw [kept, List.mem_cons]
      exact ⟨Or.inl, fun listed => listed.elim id Or.inl⟩
    · rw [List.mem_cons, ih later, List.mem_cons, or_assoc]

theorem mem_unite_locations {places : Set Location} (once : Location.Unambiguous places) {k : Location}
    (left : ∀ l ∈ mine.locations, l ∈ places) (right : ∀ l ∈ theirs.locations, l ∈ places) :
    k ∈ (mine.unite theirs).locations ↔ k ∈ mine.locations ∨ k ∈ theirs.locations := by
  rw [unite_locations]
  generalize mine.locations = known at left ⊢
  generalize theirs.locations = found at right ⊢
  induction found generalizing known with
  | nil => simp
  | cons l rest ih =>
    obtain ⟨here, later⟩ := List.forall_mem_cons.mp right
    have known' : ∀ k ∈ addLocationTo l known, k ∈ places := by
      intro k member
      rcases (mem_addLocationTo once here left).mp member with old | rfl
      · exact left k old
      · exact here
    rw [List.foldl_cons, ih _ known' later, mem_addLocationTo once here left, List.mem_cons, or_assoc]

-- All that the one scope holds is in the other.
structure HeldBy (s t : Scope) : Prop where
  filed : s.filed ⊆ t.filed
  locations : s.locations ⊆ t.locations

theorem HeldBy.refl (s : Scope) : s.HeldBy s := ⟨List.Subset.refl _, List.Subset.refl _⟩

theorem HeldBy.trans {t u : Scope} (first : s.HeldBy t) (second : t.HeldBy u) : s.HeldBy u :=
  ⟨List.Subset.trans first.filed second.filed, List.Subset.trans first.locations second.locations⟩

theorem heldBy_rebind (s : Scope) (rename : ScopeId → ScopeId) : s.HeldBy (s.rebind rename) := by
  refine ⟨?_, List.Subset.refl _⟩
  rw [filed_rebind]
  exact List.Subset.refl _

end Scope

-- A scope with those above it, the nearest first.
structure Level where
  scope : Scope
  above : List Scope

namespace Level

def path (level : Level) : List Scope := level.scope :: level.above

def HeldBy (a b : Level) : Prop := List.Forall₂ Scope.HeldBy a.path b.path

def filed (levels : Multiset Level) : Multiset Record := levels.bind fun level => level.scope.filed

@[simp] theorem filed_zero : filed 0 = 0 := Multiset.zero_bind _

@[simp] theorem filed_cons (level : Level) (levels : Multiset Level) :
    filed (level ::ₘ levels) = level.scope.filed + filed levels := Multiset.cons_bind _ _ _

@[simp] theorem filed_add (a b : Multiset Level) : filed (a + b) = filed a + filed b := Multiset.add_bind _ _ _

theorem heldBy_iff {a b : Level} : a.HeldBy b ↔ a.scope.HeldBy b.scope ∧ List.Forall₂ Scope.HeldBy a.above b.above :=
  List.forall₂_cons

theorem HeldBy.trans {a b c : Level} (first : a.HeldBy b) (second : b.HeldBy c) : a.HeldBy c := by
  unfold HeldBy at *
  generalize a.path = a at first
  generalize b.path = b at first second
  generalize c.path = c at second
  induction first generalizing c with
  | nil => exact second
  | cons here _ ih =>
    cases second with
    | cons here' later => exact .cons (here.trans here') (ih _ later)

theorem HeldBy.refl (a : Level) : a.HeldBy a := List.forall₂_same.mpr fun s _ => Scope.HeldBy.refl s

-- Nothing is filed at one element twice, and every scope was seen at given places.
structure Orderly (places : Set Location) (levels : Multiset Level) : Prop where
  nodup : ((filed levels).map Record.node).Nodup
  placed : ∀ level ∈ levels, ∀ l ∈ level.scope.locations, l ∈ places

-- Scopes that come from others: all that was filed is there, once, and each scope holds on to what it had.
structure Gathered (parts whole : Multiset Level) : Prop where
  filed : filed whole = filed parts
  kept : ∀ a ∈ parts, ∃ b ∈ whole, a.HeldBy b
  seen : ∀ b ∈ whole, ∀ l ∈ b.scope.locations, ∃ a ∈ parts, l ∈ a.scope.locations

section Gathering

variable {places : Set Location} {parts parts' whole whole' : Multiset Level}

theorem Orderly.of_add_left (orderly : Orderly places (parts + parts')) : Orderly places parts := by
  refine ⟨Multiset.nodup_of_le ?_ orderly.nodup, ?_⟩
  · rw [filed_add, Multiset.map_add]
    exact Multiset.le_add_right _ _
  · exact fun level member => orderly.placed level (Multiset.mem_add.mpr (Or.inl member))

theorem Orderly.gathered (orderly : Orderly places parts) (gathered : Gathered parts whole) : Orderly places whole := by
  refine ⟨by rw [gathered.filed]; exact orderly.nodup, ?_⟩
  intro b member l seen
  obtain ⟨a, member', seen'⟩ := gathered.seen b member l seen
  exact orderly.placed a member' l seen'

theorem Gathered.refl (parts : Multiset Level) : Gathered parts parts :=
  ⟨rfl, fun a member => ⟨a, member, HeldBy.refl a⟩, fun b member _ seen => ⟨b, member, seen⟩⟩

theorem Gathered.trans {between : Multiset Level} (first : Gathered parts between) (second : Gathered between whole) :
    Gathered parts whole := by
  refine ⟨second.filed.trans first.filed, ?_, ?_⟩
  · intro a member
    obtain ⟨b, member, held⟩ := first.kept a member
    obtain ⟨c, member, held'⟩ := second.kept b member
    exact ⟨c, member, held.trans held'⟩
  · intro c member l seen
    obtain ⟨b, member, seen⟩ := second.seen c member l seen
    exact first.seen b member l seen

theorem Gathered.add (left : Gathered parts whole) (right : Gathered parts' whole') :
    Gathered (parts + parts') (whole + whole') := by
  refine ⟨by rw [filed_add, filed_add, left.filed, right.filed], ?_, ?_⟩
  · intro a member
    rcases Multiset.mem_add.mp member with here | there
    · obtain ⟨b, member, held⟩ := left.kept a here
      exact ⟨b, Multiset.mem_add.mpr (Or.inl member), held⟩
    · obtain ⟨b, member, held⟩ := right.kept a there
      exact ⟨b, Multiset.mem_add.mpr (Or.inr member), held⟩
  · intro b member l seen
    rcases Multiset.mem_add.mp member with here | there
    · obtain ⟨a, member, seen⟩ := left.seen b here l seen
      exact ⟨a, Multiset.mem_add.mpr (Or.inl member), seen⟩
    · obtain ⟨a, member, seen⟩ := right.seen b there l seen
      exact ⟨a, Multiset.mem_add.mpr (Or.inr member), seen⟩

theorem Gathered.single {a b : Level} (filed : b.scope.filed.Perm a.scope.filed)
    (located : b.scope.locations ⊆ a.scope.locations) (held : a.HeldBy b) : Gathered {a} {b} := by
  refine ⟨?_, ?_, ?_⟩
  · rw [← Multiset.cons_zero b, ← Multiset.cons_zero a, filed_cons, filed_cons, Multiset.coe_eq_coe.mpr filed]
  · intro a' member
    rw [Multiset.mem_singleton.mp member]
    exact ⟨b, Multiset.mem_singleton_self b, held⟩
  · intro b' member l seen
    rw [Multiset.mem_singleton.mp member] at seen
    exact ⟨a, Multiset.mem_singleton_self a, located seen⟩

theorem Orderly.gathered_unite {mine theirs : Scope} {above₁ above₂ above : List Scope} (once : Location.Unambiguous places)
    (orderly : Orderly places ({⟨mine, above₁⟩} + {⟨theirs, above₂⟩})) (left : List.Forall₂ Scope.HeldBy above₁ above)
    (right : List.Forall₂ Scope.HeldBy above₂ above) :
    Gathered ({⟨mine, above₁⟩} + {⟨theirs, above₂⟩}) {⟨mine.unite theirs, above⟩} := by
  have both : ∀ a b : Level, Level.filed ({a} + {b}) = ↑(a.scope.filed ++ b.scope.filed) := by
    intro a b
    rw [filed_add, ← Multiset.cons_zero a, ← Multiset.cons_zero b, filed_cons, filed_cons, filed_zero, add_zero, add_zero]
    exact Multiset.coe_add _ _
  have apart : ((mine.filed ++ theirs.filed).map Record.node).Nodup := by
    have nodup := orderly.nodup
    rw [both, Multiset.map_coe] at nodup
    exact nodup
  have filed := Scope.filed_unite apart
  have here : ∀ l ∈ mine.locations, l ∈ places := orderly.placed ⟨mine, above₁⟩ (by simp)
  have there : ∀ l ∈ theirs.locations, l ∈ places := orderly.placed ⟨theirs, above₂⟩ (by simp)
  have located := fun l => @Scope.mem_unite_locations mine theirs places once l here there
  refine ⟨?_, ?_, ?_⟩
  · rw [both, ← Multiset.cons_zero, filed_cons, filed_zero, add_zero]
    exact Multiset.coe_eq_coe.mpr filed
  · intro a member
    refine ⟨_, Multiset.mem_singleton_self _, ?_⟩
    rcases Multiset.mem_add.mp member with first | second
    · rw [Multiset.mem_singleton.mp first]
      refine heldBy_iff.mpr ⟨⟨?_, fun l seen => (located l).mpr (Or.inl seen)⟩, left⟩
      exact fun r listed => filed.mem_iff.mpr (List.mem_append_left _ listed)
    · rw [Multiset.mem_singleton.mp second]
      refine heldBy_iff.mpr ⟨⟨?_, fun l seen => (located l).mpr (Or.inr seen)⟩, right⟩
      exact fun r listed => filed.mem_iff.mpr (List.mem_append_right _ listed)
  · intro b member l seen
    rw [Multiset.mem_singleton.mp member] at seen
    rcases (located l).mp seen with first | second
    · exact ⟨⟨mine, above₁⟩, by simp, first⟩
    · exact ⟨⟨theirs, above₂⟩, by simp, second⟩

def rebind (rename : ScopeId → ScopeId) (level : Level) : Level :=
  ⟨level.scope.rebind rename, level.above.map (·.rebind rename)⟩

theorem heldBy_rebind (rename : ScopeId → ScopeId) (level : Level) : level.HeldBy (level.rebind rename) := by
  refine heldBy_iff.mpr ⟨level.scope.heldBy_rebind rename, ?_⟩
  rw [rebind, List.forall₂_map_right_iff]
  exact List.forall₂_same.mpr fun s _ => s.heldBy_rebind rename

theorem gathered_rebind (rename : ScopeId → ScopeId) (levels : Multiset Level) :
    Gathered levels (levels.map (·.rebind rename)) := by
  refine ⟨?_, fun a member => ⟨_, Multiset.mem_map_of_mem _ member, heldBy_rebind rename a⟩, ?_⟩
  · rw [Level.filed, Multiset.bind_map]
    simp only [rebind, Scope.filed_rebind]
    rfl
  · intro b member l seen
    obtain ⟨a, listed, rfl⟩ := Multiset.mem_map.mp member
    exact ⟨a, listed, seen⟩

end Gathering

end Level

namespace Forest

open Level (Gathered Orderly)

variable {places : Set Location} {mine theirs below : Forest} {above above₁ above₂ : List Scope} {id : ScopeId} {s : Scope}

def levels (above : List Scope) : Forest → Multiset Level
  | nil => 0
  | tree _ s below rest => {⟨s, above⟩} + (below.levels (s :: above) + rest.levels above)

theorem levels_append (front back : Forest) : (front ++ back).levels above = front.levels above + back.levels above := by
  induction front with
  | nil => rw [nil_append, levels, zero_add]
  | tree id s below rest _ ih => rw [tree_append, levels, levels, ih, add_assoc, add_assoc]

theorem levels_mapScopes (rename : ScopeId → ScopeId) (f : Forest) (above : List Scope) :
    (f.mapScopes (·.rebind rename)).levels (above.map (·.rebind rename)) = (f.levels above).map (·.rebind rename) := by
  induction f generalizing above with
  | nil => rfl
  | tree id s below rest inner outer =>
    rw [mapScopes, levels, levels, Multiset.map_add, Multiset.map_add, Multiset.map_singleton, ← inner, ← outer]
    rfl

theorem gathered_levels (f : Forest) (held : List.Forall₂ Scope.HeldBy above₁ above) :
    Gathered (f.levels above₁) (f.levels above) := by
  induction f generalizing above₁ above with
  | nil => exact Gathered.refl _
  | tree id s below rest inner outer =>
    have first : Gathered {⟨s, above₁⟩} {⟨s, above⟩} :=
      .single (.refl _) (List.Subset.refl _) (Level.heldBy_iff.mpr ⟨.refl s, held⟩)
    exact first.add ((inner (.cons (.refl s) held)).add (outer held))

theorem heldBy_self (above : List Scope) : List.Forall₂ Scope.HeldBy above above :=
  List.forall₂_same.mpr fun s _ => Scope.HeldBy.refl s

-- A tree is put among others without loss, as far as that is so of what is below it.
theorem gathered_place (once : Location.Unambiguous places)
    (inner : ∀ {mine : Forest} {above₁ above₂ above : List Scope}, List.Forall₂ Scope.HeldBy above₁ above →
      List.Forall₂ Scope.HeldBy above₂ above → Orderly places (mine.levels above₁ + below.levels above₂) →
      Gathered (mine.levels above₁ + below.levels above₂) ((mine.absorb below).levels above))
    (left : List.Forall₂ Scope.HeldBy above₁ above) (right : List.Forall₂ Scope.HeldBy above₂ above)
    (orderly : Orderly places (mine.levels above₁ + ({⟨s, above₂⟩} + below.levels (s :: above₂)))) :
    Gathered (mine.levels above₁ + ({⟨s, above₂⟩} + below.levels (s :: above₂)))
      ((mine.place id s below).levels above) := by
  -- The scope unites with a sibling, whose levels are then gathered with its own, or stands beside all of them.
  rcases mine.place_cases id s below with
    ⟨front, known, kept, under, back, rfl, _, _, placed, _⟩ | ⟨_, placed, _⟩
  · have parts : (front ++ tree known kept under back).levels above₁ + ({⟨s, above₂⟩} + below.levels (s :: above₂)) =
        ({⟨kept, above₁⟩} + {⟨s, above₂⟩}) + (under.levels (kept :: above₁) + below.levels (s :: above₂)) +
          (front.levels above₁ + back.levels above₁) := by
      rw [levels_append, levels]
      abel
    have whole : (front ++ tree known (kept.unite s) (under.absorb below) back).levels above =
        {⟨kept.unite s, above⟩} + (under.absorb below).levels (kept.unite s :: above) +
          (front.levels above + back.levels above) := by
      rw [levels_append, levels]
      abel
    rw [parts] at orderly
    rw [placed, parts, whole]
    have united := orderly.of_add_left.of_add_left.gathered_unite once left right
    have held : ∀ a ∈ ({⟨kept, above₁⟩} + {⟨s, above₂⟩} : Multiset Level), a.HeldBy ⟨kept.unite s, above⟩ := by
      intro a member
      obtain ⟨b, member, held⟩ := united.kept a member
      exact Multiset.mem_singleton.mp member ▸ held
    have lower := orderly.of_add_left
    rw [add_comm] at lower
    have deeper : Gathered _ ((under.absorb below).levels (kept.unite s :: above)) :=
      inner (held ⟨kept, above₁⟩ (by simp)) (held ⟨s, above₂⟩ (by simp)) lower.of_add_left
    exact (united.add deeper).add ((gathered_levels front left).add (gathered_levels back left))
  · have alone : (mine ++ tree id s below nil).levels above =
        mine.levels above + ({⟨s, above⟩} + below.levels (s :: above)) := by
      rw [levels_append, levels, levels, add_zero]
    have tree := (tree id s below nil).gathered_levels right
    rw [levels, levels, levels, levels, add_zero, add_zero] at tree
    rw [placed, alone]
    exact (gathered_levels mine left).add tree

theorem gathered_absorb (once : Location.Unambiguous places) (left : List.Forall₂ Scope.HeldBy above₁ above)
    (right : List.Forall₂ Scope.HeldBy above₂ above)
    (orderly : Orderly places (mine.levels above₁ + theirs.levels above₂)) :
    Gathered (mine.levels above₁ + theirs.levels above₂) ((mine.absorb theirs).levels above) := by
  induction theirs generalizing mine above₁ above₂ above with
  | nil =>
    rw [absorb, levels, add_zero]
    exact gathered_levels mine left
  | tree id s below rest inner outer =>
    have split : mine.levels above₁ + (tree id s below rest).levels above₂ =
        mine.levels above₁ + ({⟨s, above₂⟩} + below.levels (s :: above₂)) + rest.levels above₂ := by
      rw [levels]
      abel
    rw [split] at orderly
    rw [absorb_tree, split]
    have placed : Gathered _ ((mine.place id s below).levels above) :=
      gathered_place once inner left right orderly.of_add_left
    have first := placed.add (Gathered.refl (rest.levels above₂))
    exact first.trans (outer (heldBy_self above) right (orderly.gathered first))

theorem levels_filed (f : Forest) (parent : Option ScopeId) (above : List Scope) :
    Level.filed (f.levels above) = ↑((f.entries parent).flatMap (·.scope.filed)) := by
  induction f generalizing parent above with
  | nil => exact Level.filed_zero
  | tree id s below rest inner outer =>
    rw [levels, Multiset.singleton_add, Level.filed_cons, Level.filed_add, inner (some id), outer parent,
      entries, List.flatMap_cons, List.flatMap_append, ← Multiset.coe_add, ← Multiset.coe_add]

def openScopes : Forest → List Scope
  | nil => []
  | tree _ s _ rest => s :: rest.openScopes

-- The scopes while some are open: each open one stands below the next.
def standing : Forest → Multiset Level
  | nil => 0
  | tree _ s below rest => {⟨s, rest.openScopes⟩} + (below.levels (s :: rest.openScopes) + rest.standing)

theorem openScopes_mapScopes (change : Scope → Scope) (f : Forest) :
    (f.mapScopes change).openScopes = f.openScopes.map change := by
  induction f with
  | nil => rfl
  | tree id s below rest _ outer => rw [mapScopes, openScopes, openScopes, outer, List.map_cons]

theorem standing_mapScopes (rename : ScopeId → ScopeId) (f : Forest) :
    (f.mapScopes (·.rebind rename)).standing = f.standing.map (·.rebind rename) := by
  induction f with
  | nil => rfl
  | tree id s below rest _ outer =>
    rw [mapScopes, standing, standing, Multiset.map_add, Multiset.map_add, Multiset.map_singleton, ← outer,
      ← levels_mapScopes, openScopes_mapScopes]
    rfl

theorem gathered_close {here : ScopeId} {m : Scope} {rest : Forest} (once : Location.Unambiguous places)
    (rename : ScopeId → ScopeId) (orderly : Orderly places (tree id s below (tree here m mine rest)).standing) :
    Gathered (tree id s below (tree here m mine rest)).standing
      ((tree here m (mine.place id s below) rest).mapScopes (·.rebind rename)).standing := by
  let above := m :: rest.openScopes
  have parts : (tree id s below (tree here m mine rest)).standing =
      mine.levels above + ({⟨s, above⟩} + below.levels (s :: above)) + ({⟨m, rest.openScopes⟩} + rest.standing) := by
    rw [standing, standing, openScopes]
    abel
  have whole : (tree here m (mine.place id s below) rest).standing =
      (mine.place id s below).levels above + ({⟨m, rest.openScopes⟩} + rest.standing) := by
    rw [standing]
    abel
  rw [parts] at orderly
  rw [standing_mapScopes, parts]
  refine Gathered.trans ?_ (Level.gathered_rebind rename _)
  rw [whole]
  refine Gathered.add (gathered_place once (gathered_absorb once) ?_ ?_ orderly.of_add_left) (Gathered.refl _)
  · exact heldBy_self above
  · exact heldBy_self above

end Forest

namespace Graph

variable {g : Graph} {f : Forest} {parent : Option ScopeId}

def filed (g : Graph) : List (ScopeId × Record) := g.scopes.flatMap fun entry => entry.2.filed.map (entry.1, ·)

def Seats (g : Graph) (x : ScopeId) (s : Scope) : Prop := ∃ parent children, g.get? x = some (s.linked parent children)

theorem mem_filed {x : ScopeId} {r : Record} : (x, r) ∈ g.filed ↔ ∃ s, g.get? x = some s ∧ r ∈ s.filed := by
  simp only [filed, List.mem_flatMap, List.mem_map, Prod.mk.injEq, Prod.exists, mem_scopes]
  constructor
  · rintro ⟨y, s, found, r, member, rfl, rfl⟩
    exact ⟨s, found, member⟩
  · rintro ⟨s, found, member⟩
    exact ⟨x, s, found, r, member, rfl, rfl⟩

theorem Pictures.scopes_perm (picture : g.Pictures f) :
    g.scopes.Perm ((f.entries none).map fun entry => (entry.id, entry.scope.linked entry.parent entry.below.roots)) := by
  have nodup : (((f.entries none).map fun entry => (entry.id, entry.scope.linked entry.parent entry.below.roots)).map
      Prod.fst).Nodup := by
    rw [List.map_map]
    exact (@Forest.ids_entries f none).symm ▸ picture.nodup
  rw [List.perm_ext_iff_of_nodup g.nodup_scopes.of_map nodup.of_map]
  rintro ⟨x, s⟩
  rw [mem_scopes, List.mem_map]
  constructor
  · intro found
    obtain ⟨entry, listed, rfl, rfl⟩ := picture.exists_entry found
    exact ⟨entry, listed, rfl⟩
  · rintro ⟨entry, listed, same⟩
    cases same
    exact picture.shows.atEntry listed

theorem Pictures.filed (picture : g.Pictures f) : Level.filed (f.levels []) = ↑(g.filed.map Prod.snd) := by
  have each := picture.scopes_perm.flatMap_right fun entry => entry.2.filed
  rw [List.flatMap_map] at each
  have records : g.filed.map Prod.snd = g.scopes.flatMap fun entry => entry.2.filed := by
    simp [Graph.filed, List.map_flatMap, Function.comp_def]
  rw [f.levels_filed none, Multiset.coe_eq_coe, records]
  exact each.symm

-- A scope of a forest has its seat in the graph, and so have those above it.
theorem Shows.seats {up : List ScopeId} {above : List Scope} {level : Level} (shown : g.Shows parent f)
    (chain : g.Chain parent up) (seated : List.Forall₂ g.Seats up above) (member : level ∈ f.levels above) :
    ∃ x, List.Forall₂ g.Seats (g.ancestorsAndSelf x) level.path ∧ g.Seats x level.scope := by
  induction f generalizing parent up above with
  | nil => exact (Multiset.notMem_zero _ member).elim
  | tree id s below rest inner outer =>
    obtain ⟨here, under, beside⟩ := shown
    rw [Forest.levels, Multiset.mem_add, Multiset.mem_add, Multiset.mem_singleton] at member
    have seat : g.Seats id s := ⟨parent, _, here⟩
    rcases member with rfl | deeper | later
    · refine ⟨id, ?_, seat⟩
      rw [ancestorsAndSelf_eq here chain (Chain.nodup here chain)]
      exact .cons seat seated
    · have chain' : g.Chain (some id) (id :: up) := ⟨rfl, _, here, chain⟩
      exact inner under chain' (.cons seat seated) deeper
    · exact outer beside chain seated later

end Graph

end ScopeAtlas
