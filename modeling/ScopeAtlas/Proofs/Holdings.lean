import ScopeAtlas.Proofs.Absorption
import ScopeAtlas.Proofs.Grouping
import ScopeAtlas.Proofs.Undoing

namespace ScopeAtlas

def ParentTable.places (name : String × List String) : ParentTable → List Location
  | [] => []
  | p :: rest => if p.use.face.1 = name then p.written else places name rest

-- What is written about one scope.
@[ext] structure Holding where
  locations : List Location
  calls : List Call
  declared : String → List Variable
  parents : String × List String → List Location
  parameters : Nat → List Location

namespace Holding

def append (a b : Holding) : Holding where
  locations := a.locations ++ b.locations
  calls := a.calls ++ b.calls
  declared name := a.declared name ++ b.declared name
  parents name := a.parents name ++ b.parents name
  parameters position := a.parameters position ++ b.parameters position

instance : Append Holding := ⟨append⟩

def nothing : Holding := ⟨[], [], fun _ => [], fun _ => [], fun _ => []⟩

def keep (which : String → Bool) (a : Holding) : Holding where
  locations := a.locations.filter (which ·.file)
  calls := a.calls.filter (which ·.location.file)
  declared name := (a.declared name).filter (·.locations.any (which ·.file))
  parents name := (a.parents name).filter (which ·.file)
  parameters position := (a.parameters position).filter (which ·.file)

-- All is written in files of a kind, each variable at one place.
structure Within (seen : String → Prop) (a : Holding) : Prop where
  locations : ∀ l ∈ a.locations, seen l.file
  calls : ∀ c ∈ a.calls, seen c.location.file
  declared : ∀ name, ∀ v ∈ a.declared name, ∃ l, v.locations = [l] ∧ seen l.file
  parents : ∀ name, ∀ l ∈ a.parents name, seen l.file
  parameters : ∀ position, ∀ l ∈ a.parameters position, seen l.file

variable {a b c : Holding} {which other : String → Bool} {seen wider : String → Prop}

@[simp] theorem nothing_append (a : Holding) : nothing ++ a = a := rfl

@[simp] theorem append_nothing (a : Holding) : a ++ nothing = a := by
  have same : append a nothing = a := by simp [append, nothing]
  exact same

theorem append_assoc (a b c : Holding) : a ++ b ++ c = a ++ (b ++ c) := by
  have same : append (append a b) c = append a (append b c) := by simp [append]
  exact same

theorem keep_append (which : String → Bool) (a b : Holding) : (a ++ b).keep which = a.keep which ++ b.keep which := by
  have same : (append a b).keep which = append (a.keep which) (b.keep which) := by simp [keep, append]
  exact same

theorem Within.mono (within : a.Within seen) (widen : ∀ file, seen file → wider file) : a.Within wider where
  locations l member := widen _ (within.locations l member)
  calls c member := widen _ (within.calls c member)
  declared name v member := (within.declared name v member).imp fun _ place => ⟨place.1, widen _ place.2⟩
  parents name l member := widen _ (within.parents name l member)
  parameters position l member := widen _ (within.parameters position l member)

theorem Within.keep_keep (within : a.Within seen) (which other : String → Bool) :
    (a.keep which).keep other = a.keep fun file => other file && which file := by
  refine Holding.ext List.filter_filter List.filter_filter (funext fun name => ?_) (funext fun _ => List.filter_filter)
    (funext fun _ => List.filter_filter)
  refine List.filter_filter.trans (List.filter_congr fun v member => ?_)
  obtain ⟨l, only, -⟩ := within.declared name v member
  simp [only]

theorem Within.keep_eq_self (within : a.Within seen) (all : ∀ file, seen file → which file = true) :
    a.keep which = a := by
  refine Holding.ext ?_ ?_ (funext fun name => ?_) (funext fun name => ?_) (funext fun position => ?_)
  · exact List.filter_eq_self.mpr fun l member => all _ (within.locations l member)
  · exact List.filter_eq_self.mpr fun c member => all _ (within.calls c member)
  · refine List.filter_eq_self.mpr fun v member => ?_
    obtain ⟨l, only, inside⟩ := within.declared name v member
    simp [only, all _ inside]
  · exact List.filter_eq_self.mpr fun l member => all _ (within.parents name l member)
  · exact List.filter_eq_self.mpr fun l member => all _ (within.parameters position l member)

theorem Within.keep_eq_nothing (within : a.Within seen) (none : ∀ file, seen file → which file = false) :
    a.keep which = nothing := by
  have out : ∀ file, seen file → ¬ which file = true := fun file inside => Bool.eq_false_iff.mp (none file inside)
  refine Holding.ext ?_ ?_ (funext fun name => ?_) (funext fun name => ?_) (funext fun position => ?_)
  · exact List.filter_eq_nil_iff.mpr fun l member => out _ (within.locations l member)
  · exact List.filter_eq_nil_iff.mpr fun c member => out _ (within.calls c member)
  · refine List.filter_eq_nil_iff.mpr fun v member => ?_
    obtain ⟨l, only, inside⟩ := within.declared name v member
    simp [only, none _ inside]
  · exact List.filter_eq_nil_iff.mpr fun l member => out _ (within.parents name l member)
  · exact List.filter_eq_nil_iff.mpr fun l member => out _ (within.parameters position l member)

end Holding

def Scope.holding (s : Scope) : Holding where
  locations := s.locations
  calls := s.calls.map (·.rebind fun _ => 0)
  declared name := (s.declared.named name).map (·.rebind fun _ => 0)
  parents name := s.parentTable.places name
  parameters position := (s.parameterList[position]?.map (·.locations)).getD []

section Tables

variable {name : String × List String} {table mine theirs : ParentTable} {seen : String → Prop} {file : String}

namespace ParentTable

theorem places_add (table : ParentTable) (use : TypeUse) :
    (table.add use).places name =
      if use.face.1 = name then Location.addNew (table.places name) use.location.toList else table.places name := by
  induction table with
  | nil => cases place : use.location <;> simp [add, places, place, Location.addNew]
  | cons p rest ih =>
    unfold add
    by_cases same : p.use.sameQualifiedName use = true
    · have equal := sameQualifiedName_iff.mp same
      rw [if_pos same, places, places, equal]
      split <;> rfl
    · have differ : p.use.face.1 ≠ use.face.1 := fun equal => same (sameQualifiedName_iff.mpr equal)
      rw [if_neg same, places, places, ih]
      by_cases this : p.use.face.1 = name
      · rw [if_pos this, if_pos this, if_neg fun other => differ (this.trans other.symm)]
      · rw [if_neg this, if_neg this]

theorem places_foldl_add (uses : List TypeUse) (table : ParentTable) :
    (uses.foldl (fun table use => table.add use) table).places name =
      Location.addNew (table.places name) ((uses.filter (·.face.1 = name)).flatMap (·.location.toList)) := by
  induction uses generalizing table with
  | nil => rfl
  | cons use rest ih =>
    rw [List.foldl_cons, ih, places_add]
    by_cases this : use.face.1 = name
    · rw [if_pos this, List.filter_cons_of_pos (by simp [this]), List.flatMap_cons, Location.addNew_eq, Location.addNew_eq,
        Location.addNew_eq, addUnknown_append]
    · rw [if_neg this, List.filter_cons_of_neg (by simp [this])]

theorem places_eq_nil (absent : name ∉ table.faces.map Prod.fst) : table.places name = [] := by
  induction table with
  | nil => rfl
  | cons p rest ih =>
    rw [faces, List.map_cons, List.map_cons, List.mem_cons, not_or] at absent
    rw [places, if_neg (Ne.symm absent.1), ih absent.2]

theorem places_cases (table : ParentTable) (name : String × List String) :
    table.places name = [] ∨ ∃ p ∈ table, p.use.face.1 = name ∧ table.places name = p.written := by
  induction table with
  | nil => exact Or.inl rfl
  | cons p rest ih =>
    rw [places]
    split
    · rename_i this
      exact Or.inr ⟨p, List.mem_cons_self, this, rfl⟩
    · exact ih.imp_right fun ⟨q, listed, found⟩ => ⟨q, List.mem_cons_of_mem _ listed, found⟩

theorem places_of_mem {p : ParentType} (nodup : (table.faces.map Prod.fst).Nodup) (listed : p ∈ table) :
    table.places p.use.face.1 = p.written := by
  induction table with
  | nil => cases listed
  | cons first rest ih =>
    obtain ⟨fresh, nodup⟩ := List.nodup_cons.mp nodup
    rcases List.mem_cons.mp listed with rfl | later
    · rw [places, if_pos rfl]
    · have other : ¬ first.use.face.1 = p.use.face.1 := by
        intro same
        refine fresh ?_
        rw [same]
        exact List.mem_map_of_mem (List.mem_map_of_mem later)
      rw [places, if_neg other, ih nodup later]

theorem places_usesOf (placed : ∀ p ∈ table, p.Placed seen) (nodup : (table.faces.map Prod.fst).Nodup) :
    ((table.flatMap usesOf).filter (·.face.1 = name)).flatMap (·.location.toList) = table.places name := by
  induction table with
  | nil => rfl
  | cons p rest ih =>
    obtain ⟨here, placed⟩ := List.forall_mem_cons.mp placed
    obtain ⟨fresh, nodup⟩ := List.nodup_cons.mp nodup
    have later := ih placed nodup
    have own : ∀ u ∈ usesOf p, u.face.1 = p.use.face.1 := by
      intro u member
      rw [usesOf_of_placed here] at member
      obtain ⟨l, -, rfl⟩ := List.mem_map.mp member
      rw [TypeUse.face_relocate]
    have places' : (usesOf p).flatMap (·.location.toList) = p.written := by
      rw [usesOf_of_placed here, List.flatMap_map]
      simp
    rw [List.flatMap_cons, List.filter_append, List.flatMap_append, later, places]
    by_cases this : p.use.face.1 = name
    · have all : (usesOf p).filter (·.face.1 = name) = usesOf p :=
        List.filter_eq_self.mpr fun u member => by simp [own u member, this]
      rw [if_pos this, all, places', places_eq_nil (this ▸ fresh), List.append_nil]
    · have none : (usesOf p).filter (·.face.1 = name) = [] :=
        List.filter_eq_nil_iff.mpr fun u member => by simp [own u member, this]
      rw [if_neg this, none]
      rfl

theorem places_unite (placed : ∀ p ∈ theirs, p.Placed seen) (nodup : (theirs.faces.map Prod.fst).Nodup) :
    (mine.unite theirs).places name = Location.addNew (mine.places name) (theirs.places name) := by
  rw [unite, places_foldl_add, places_usesOf placed nodup]

theorem places_withdraw (placed : ∀ p ∈ table, p.Placed seen) (nodup : (table.faces.map Prod.fst).Nodup) :
    (table.withdraw file).places name = (table.places name).filter (!·.isIn file) := by
  induction table with
  | nil => rfl
  | cons p rest ih =>
    obtain ⟨here, placed⟩ := List.forall_mem_cons.mp placed
    obtain ⟨fresh, nodup⟩ := List.nodup_cons.mp nodup
    have later := ih placed nodup
    have one := withdrawOne_of_placed here file
    unfold withdraw at later ⊢
    cases left : p.written.filter (!·.isIn file) with
    | nil =>
      rw [left] at one
      rw [List.filterMap_cons_none one, later, places]
      split
      · rename_i this
        rw [left, places_eq_nil (this ▸ fresh)]
        rfl
      · rfl
    | cons l kept =>
      rw [left] at one
      rw [List.filterMap_cons_some one, places, places, TypeUse.face_relocate, later]
      split
      · exact left.symm
      · rfl

theorem places_rebind (f : ScopeId → ScopeId) (table : ParentTable) : (table.rebind f).places name = table.places name := by
  induction table with
  | nil => rfl
  | cons p rest ih =>
    change places name ({ p with use := p.use.rebind f } :: rebind f rest) = _
    rw [places, places, ih, TypeUse.face_rebind]

end ParentTable

theorem Variable.left?_of_single {v : Variable} {l : Location} (only : v.locations = [l]) :
    v.left? file = Option.guard (fun v => (v.rebind fun _ => 0).locations.any (·.file != file)) v := by
  have same : (v.rebind fun _ => 0).locations = [l] := only
  have rebuilt : ({ v with locations := [l] } : Variable) = v := by rw [← only]
  unfold Variable.left? Option.guard someLeft?
  rw [only]
  cases inside : l.file == file <;> simp [Location.isIn, inside, bne, rebuilt, same]

namespace VariableTable

theorem named_eq_nil {table : VariableTable} {key : String} (absent : key ∉ table.map Prod.fst) : table.named key = [] := by
  rcases table.named_cases key with none | listed
  · exact none
  · exact (absent (List.mem_map_of_mem listed)).elim

theorem left_cons (key : String) (group : List Variable) (rest : VariableTable) :
    left file ((key, group) :: rest) =
      ((someLeft? (group.filterMap (·.left? file))).map fun left => (key, left)).toList ++ left file rest := by
  unfold left
  cases some : someLeft? (group.filterMap (·.left? file)) <;> simp [some]

theorem named_withdraw {table : VariableTable} (nodup : (table.map Prod.fst).Nodup) (name : String) :
    (table.withdraw file).named name = (table.named name).filterMap (·.left? file) := by
  rw [withdraw_eq_left]
  induction table with
  | nil => rfl
  | cons entry rest ih =>
    obtain ⟨key, group⟩ := entry
    obtain ⟨fresh, nodup⟩ := List.nodup_cons.mp nodup
    have later := ih nodup
    rw [left_cons, named_cons]
    cases kept : group.filterMap (·.left? file) with
    | nil =>
      -- the name is gone, and no other entry has it
      change (left file rest).named name = _
      rw [later]
      split
      · rename_i this
        rw [this, named_eq_nil fresh, kept]
        rfl
      · rfl
    | cons v others =>
      change named ((key, v :: others) :: left file rest) name = _
      rw [named_cons, later]
      split
      · exact kept.symm
      · rfl

end VariableTable

end Tables

namespace Scope

variable {s mine theirs : Scope} {file : String} {which : String → Bool}

theorem Sound.placed_parents (sound : s.Sound) : ∀ p ∈ s.parentTable, p.Placed (s.isIn · = true) := by
  intro p listed
  cases kind : s.kind with
  | type t => exact sound.derived t kind p (by simpa [parentTable, type?, kind] using listed)
  | block | space | method => simp [parentTable, type?, kind] at listed

theorem Sound.nodup_parents (sound : s.Sound) : (s.parentTable.faces.map Prod.fst).Nodup := by
  cases kind : s.kind with
  | type t => simpa [parentTable, type?, kind] using sound.parents t kind
  | block | space | method => simp [parentTable, type?, kind, ParentTable.faces]

theorem Sound.placed_parameters (sound : s.Sound) :
    ∀ p ∈ s.parameterList, (p.locations.map Location.node).Nodup ∧ ∀ l ∈ p.locations, s.isIn l.file = true := by
  intro p listed
  cases kind : s.kind with
  | method m => exact sound.parameters m kind p (by simpa [parameterList, method?, kind] using listed)
  | block | space | type => simp [parameterList, method?, kind] at listed

theorem parentTable_unite (same : mine.key = theirs.key) :
    (mine.unite theirs).parentTable = mine.parentTable.unite theirs.parentTable := by
  have alike := alike_kinds_of_key same
  unfold parentTable type?
  rw [unite_kind]
  generalize mine.kind = k, theirs.kind = l at alike
  cases alike with
  | type d d' => exact TypeDefinition.parents_unite _ d d'
  | block | space | method => rfl

theorem parameterList_unite (same : mine.key = theirs.key) :
    (mine.unite theirs).parameterList = Parameter.uniteAll mine.parameterList theirs.parameterList := by
  have alike := alike_kinds_of_key same
  unfold parameterList method?
  rw [unite_kind]
  generalize mine.kind = k, theirs.kind = l at alike
  cases alike <;> rfl

theorem parameter_names (same : mine.key = theirs.key) :
    mine.parameterList.map (·.declaredType.name) = theirs.parameterList.map (·.declaredType.name) := by
  have alike := alike_kinds_of_key same
  unfold parameterList method?
  generalize mine.kind = k, theirs.kind = l at alike
  cases alike with
  | method m m' types => exact types
  | block | space | type => rfl

theorem parentTable_withdraw (s : Scope) (file : String) : (s.withdraw file).parentTable = s.parentTable.withdraw file := by
  unfold parentTable type? Scope.withdraw
  cases s.kind with
  | type d => exact d.parents_withdraw file
  | block | space | method => rfl

theorem parameterList_withdraw (s : Scope) (file : String) :
    (s.withdraw file).parameterList = s.parameterList.map (·.left file) := by
  unfold parameterList method? Scope.withdraw
  cases s.kind <;> rfl

theorem parameterList_rebind (f : ScopeId → ScopeId) (s : Scope) :
    (s.rebind f).parameterList = s.parameterList.map (·.rebind f) := by
  unfold parameterList method? Scope.rebind
  cases s.kind <;> rfl

theorem holding_rebind (f : ScopeId → ScopeId) (s : Scope) : (s.rebind f).holding = s.holding := by
  refine Holding.ext rfl ?_ (funext fun name => ?_) (funext fun name => ?_) (funext fun position => ?_)
  · change (s.calls.map (·.rebind f)).map (·.rebind fun _ => 0) = s.calls.map (·.rebind fun _ => 0)
    simp only [List.map_map, Function.comp_def, Call.rebind_rebind]
  · change (VariableTable.named (s.declared.rebind f) name).map (·.rebind fun _ => 0) = _
    rw [VariableTable.named_rebind, List.map_map]
    simp only [Function.comp_def, Variable.rebind_rebind, holding]
  · change (s.rebind f).parentTable.places name = _
    rw [parentTable_rebind, ParentTable.places_rebind]
    rfl
  · change ((s.rebind f).parameterList[position]?.map (·.locations)).getD [] = _
    rw [parameterList_rebind, List.getElem?_map, Option.map_map]
    rfl

theorem Sound.within (sound : s.Sound) : s.holding.Within (s.isIn · = true) where
  locations l member := isIn_of_mem member
  calls c member := by
    obtain ⟨c, listed, rfl⟩ := List.mem_map.mp member
    exact sound.calls c listed
  declared name v member := by
    obtain ⟨w, listed, rfl⟩ := List.mem_map.mp member
    have once : s.SeesOnce w := sound.seesOnce listed
    exact once
  parents name l member := by
    change l ∈ s.parentTable.places name at member
    rcases s.parentTable.places_cases name with none | ⟨p, listed, -, written⟩
    · rw [none] at member
      cases member
    · exact (sound.placed_parents p listed).within l (written ▸ member)
  parameters position l member := by
    change l ∈ (s.parameterList[position]?.map (·.locations)).getD [] at member
    cases found : s.parameterList[position]? with
    | none => simp [found] at member
    | some p =>
      rw [found] at member
      exact (sound.placed_parameters p (List.mem_of_getElem? found)).2 l member

theorem Sound.holding_withdraw (sound : s.Sound) (file : String) :
    (s.withdraw file).holding = s.holding.keep (· != file) := by
  refine Holding.ext rfl ?_ (funext fun name => ?_) (funext fun name => ?_) (funext fun position => ?_)
  · change (s.calls.filter (!·.location.isIn file)).map _ = (s.calls.map _).filter _
    rw [List.filter_map]
    rfl
  · change (VariableTable.named (s.declared.withdraw file) name).map _ = ((s.declared.named name).map _).filter _
    rw [VariableTable.named_withdraw sound.names, List.filter_map, ← List.filterMap_eq_filter]
    refine congrArg _ (List.filterMap_congr ?_)
    intro v listed
    obtain ⟨l, only, -⟩ := sound.seesOnce listed
    exact Variable.left?_of_single only
  · change (s.withdraw file).parentTable.places name = (s.parentTable.places name).filter _
    rw [parentTable_withdraw, ParentTable.places_withdraw sound.placed_parents sound.nodup_parents]
    rfl
  · change ((s.withdraw file).parameterList[position]?.map (·.locations)).getD [] = _
    rw [parameterList_withdraw, List.getElem?_map]
    change _ = ((s.parameterList[position]?.map (·.locations)).getD []).filter _
    cases s.parameterList[position]? <;> rfl

-- Two scopes that no file has both seen hold one after the other.
theorem Apart.holding_unite (apart : mine.Apart theirs) (left : mine.Sound) (right : theirs.Sound) (tidy : theirs.Tidy)
    (same : mine.key = theirs.key) : (mine.unite theirs).holding = mine.holding ++ theirs.holding := by
  -- No place is known to both sides, so every list that skips known places appends all of them.
  have fresh : ∀ found found' : List Location, (∀ l ∈ found, mine.isIn l.file = true) →
      (∀ l ∈ found', theirs.isIn l.file = true) → (found'.map Location.node).Nodup →
      Location.addNew found found' = found ++ found' := by
    intro found found' here there nodes
    refine addUnknown_eq_append (fun _ _ => Location.sameNode_iff) nodes ?_
    intro l member listed
    obtain ⟨k, member', equal⟩ := List.mem_map.mp listed
    exact apart.node (here k member') (there l member) equal
  refine Holding.ext (apart.locations right) ?_ (funext fun name => ?_) (funext fun name => ?_) (funext fun position => ?_)
  · change (mine.unite theirs).calls.map _ = mine.calls.map _ ++ theirs.calls.map _
    rw [apart.calls left right tidy, List.map_append]
  · change ((mine.unite theirs).declared.named name).map _ = (mine.declared.named name).map _ ++ _
    rw [apart.declared left right tidy, List.map_append]
    rfl
  · change (mine.unite theirs).parentTable.places name = mine.parentTable.places name ++ theirs.parentTable.places name
    rw [parentTable_unite same, ParentTable.places_unite right.placed_parents right.nodup_parents]
    refine fresh _ _ (left.within.parents name) (right.within.parents name) ?_
    rcases theirs.parentTable.places_cases name with none | ⟨p, listed, -, written⟩
    · rw [none]
      exact List.nodup_nil
    · rw [written]
      exact (right.placed_parents p listed).nodes
  · change ((mine.unite theirs).parameterList[position]?.map (·.locations)).getD [] = _ ++ _
    have both : ∀ p ∈ mine.parameterList, ∀ q ∈ theirs.parameterList,
        Location.addNew p.locations q.locations = p.locations ++ q.locations := by
      intro p member q member'
      obtain ⟨nodes, there⟩ := right.placed_parameters q member'
      exact fresh _ _ (left.placed_parameters p member).2 there nodes
    have joined := Parameter.uniteAll_locations (parameter_names same) both
    have length := congrArg List.length (parameter_names same)
    rw [parameterList_unite same, ← List.getElem?_map, joined, List.getElem?_zipWith]
    simp only [List.length_map] at length
    unfold holding
    cases here : mine.parameterList[position]? with
    | none =>
      have there : theirs.parameterList[position]? = none := by
        rw [List.getElem?_eq_none_iff] at here ⊢
        omega
      simp [here, there]
    | some p =>
      obtain ⟨q, there⟩ : ∃ q, theirs.parameterList[position]? = some q := by
        refine ⟨_, List.getElem?_eq_getElem ?_⟩
        rw [← length]
        exact (List.getElem?_eq_some_iff.mp here).1
      simp [here, there]

theorem filter_addLocationTo_of_not {l : Location} (out : which l.file = false) (known : List Location) :
    (addLocationTo l known).filter (which ·.file) = known.filter (which ·.file) := by
  induction known with
  | nil => simp [addLocationTo, out]
  | cons first rest ih =>
    unfold addLocationTo
    split
    · rename_i same
      have equal : first.file = l.file := (Prod.mk.inj (Location.sameNode_iff.mp same)).1
      simp [equal, out]
    · rw [List.filter_cons, List.filter_cons, ih]

theorem filter_uniteInto {v : Variable} {l : Location} {group : List Variable}
    (ones : ∀ w ∈ group, ∃ k, w.locations = [k]) (only : v.locations = [l]) (out : which l.file = false) :
    (VariableTable.uniteInto v group).filter (·.locations.any (which ·.file)) =
      group.filter (·.locations.any (which ·.file)) := by
  induction group with
  | nil => simp [VariableTable.uniteInto, only, out]
  | cons known rest ih =>
    obtain ⟨⟨k, one⟩, later⟩ := List.forall_mem_cons.mp ones
    unfold VariableTable.uniteInto
    split
    · rename_i shared
      have kept := addNew_of_shared one only shared
      obtain ⟨k', first, l', second, node⟩ := VariableTable.sharesLocation_iff.mp shared
      rw [one, List.mem_singleton] at first
      rw [only, List.mem_singleton] at second
      rw [first, second] at node
      have equal : k.file = l.file := (Prod.mk.inj node).1
      rw [kept]
      simp [one, equal, out]
    · rw [List.filter_cons, List.filter_cons, ih later]

theorem filter_joinInto {group found : List Variable} (ones : ∀ w ∈ group, ∃ k, w.locations = [k])
    (right : ∀ v ∈ found, theirs.SeesOnce v) (out : ∀ file, theirs.isIn file = true → which file = false) :
    (VariableTable.joinInto group found).filter (·.locations.any (which ·.file)) =
      group.filter (·.locations.any (which ·.file)) := by
  induction found generalizing group with
  | nil => rfl
  | cons v rest ih =>
    obtain ⟨⟨l, only, seen⟩, later⟩ := List.forall_mem_cons.mp right
    have ones' : ∀ w ∈ VariableTable.uniteInto v group, ∃ k, w.locations = [k] := by
      refine VariableTable.forall_uniteInto ones ⟨l, only⟩ ?_
      intro w member shared
      obtain ⟨k, one⟩ := ones w member
      exact ⟨k, addNew_of_shared one only shared⟩
    exact (ih ones' later).trans (filter_uniteInto ones only (out l.file seen))

theorem filter_uniteAll {left right : List Parameter} (out : ∀ q ∈ right, ∀ l ∈ q.locations, which l.file = false)
    (position : Nat) :
    (((Parameter.uniteAll left right)[position]?.map (·.locations)).getD []).filter (which ·.file) =
      ((left[position]?.map (·.locations)).getD []).filter (which ·.file) := by
  induction left generalizing right position with
  | nil => cases right <;> rfl
  | cons p left ih =>
    cases right with
    | nil => rfl
    | cons q right =>
      obtain ⟨here, later⟩ := List.forall_mem_cons.mp out
      rw [Parameter.uniteAll]
      cases position with
      | succ position => simpa using ih later position
      | zero =>
        simp only [List.getElem?_cons_zero, Option.map_some, Option.getD_some]
        split
        · rw [Parameter.unite_locations, Location.addNew_eq]
          exact filter_addUnknown here
        · rfl

-- What a scope takes in leaves alone what the scope holds of other files.
theorem Sound.keep_unite (left : mine.Sound) (right : theirs.Sound) (same : mine.key = theirs.key)
    (out : ∀ file, theirs.isIn file = true → which file = false) :
    (mine.unite theirs).holding.keep which = mine.holding.keep which := by
  refine Holding.ext ?_ ?_ (funext fun name => ?_) (funext fun name => ?_) (funext fun position => ?_)
  · change (mine.unite theirs).locations.filter _ = mine.locations.filter _
    rw [unite_locations]
    refine List.foldlRecOn _ _ (motive := fun known : List Location =>
      known.filter (which ·.file) = mine.locations.filter (which ·.file)) rfl ?_
    intro known kept l member
    rw [filter_addLocationTo_of_not (out _ (isIn_of_mem member)), kept]
  · change ((mine.unite theirs).calls.map _).filter _ = (mine.calls.map _).filter _
    rw [List.filter_map, List.filter_map, unite_calls, Call.addNew_eq]
    refine congrArg _ (filter_addUnknown ?_)
    exact fun c member => out _ (right.calls c member)
  · change (((mine.unite theirs).declared.named name).map _).filter _ = ((mine.declared.named name).map _).filter _
    rw [List.filter_map, List.filter_map, unite_declared, VariableTable.named_foldl_unite, right.filter_declared]
    refine congrArg _ (filter_joinInto ?_ (fun _ => right.seesOnce) out)
    exact fun w listed => (left.seesOnce listed).imp fun _ place => place.1
  · change ((mine.unite theirs).parentTable.places name).filter _ = (mine.parentTable.places name).filter _
    rw [parentTable_unite same, ParentTable.places_unite right.placed_parents right.nodup_parents, Location.addNew_eq]
    exact filter_addUnknown fun l member => out _ (right.within.parents name l member)
  · change (((mine.unite theirs).parameterList[position]?.map (·.locations)).getD []).filter _ = _
    rw [parameterList_unite same]
    exact filter_uniteAll (fun q member l place => out _ ((right.placed_parameters q member).2 l place)) position

end Scope

end ScopeAtlas
