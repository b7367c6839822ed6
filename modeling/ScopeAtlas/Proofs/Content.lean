import ScopeAtlas.Proofs.Tables
import ScopeAtlas.Proofs.Withdrawal

namespace ScopeAtlas

theorem TypeUse.face_rebind (f : ScopeId → ScopeId) (u : TypeUse) : (u.rebind f).face = u.face := by
  simp [TypeUse.face, TypeUse.qualifierNames, TypeUse.rebind_render, QualifierUse.rebind, Function.comp_def]

theorem ParentTable.faces_rebind (f : ScopeId → ScopeId) (table : ParentTable) :
    (table.rebind f).faces = table.faces := by
  simp [ParentTable.faces, ParentTable.rebind, TypeUse.face_rebind, Function.comp_def]

namespace VariableTable

variable {table : VariableTable} {file : String}

theorem withdraw_eq_self (groups : ∀ entry ∈ table, entry.2 ≠ [])
    (outside : ∀ entry ∈ table, ∀ v ∈ entry.2, ∃ l, v.locations = [l] ∧ l.isIn file = false) :
    table.withdraw file = table := by
  have kept : ∀ entry ∈ table, (entry.2.map fun v => { v with locations := v.locations.filter (!·.isIn file) }).filter
      (!·.locations.isEmpty) = entry.2 := by
    intro entry listed
    rw [map_fixed, List.filter_eq_self]
    · intro v member
      obtain ⟨l, only, -⟩ := outside entry listed v member
      simp [only]
    · intro v member
      obtain ⟨l, only, apart⟩ := outside entry listed v member
      have all : v.locations.filter (!·.isIn file) = v.locations := by simp [only, apart]
      rw [all]
  unfold withdraw
  rw [map_fixed, List.filter_eq_self]
  · exact fun entry listed => by simpa using groups entry listed
  · rintro ⟨name, group⟩ listed
    exact congrArg (Prod.mk name) (kept _ listed)

theorem withdraw_eq_nil (inside : ∀ entry ∈ table, ∀ v ∈ entry.2, ∀ l ∈ v.locations, l.isIn file = true) :
    table.withdraw file = [] := by
  unfold withdraw
  rw [List.filter_eq_nil_iff]
  intro entry listed
  obtain ⟨entry', listed', rfl⟩ := List.mem_map.mp listed
  have none : (entry'.2.map fun v => { v with locations := v.locations.filter (!·.isIn file) }).filter
      (!·.locations.isEmpty) = [] := by
    rw [List.filter_eq_nil_iff]
    intro v member
    obtain ⟨v', member', rfl⟩ := List.mem_map.mp member
    simpa using inside entry' listed' v' member'
  simp [none]

end VariableTable

theorem ParentTable.withdraw_eq_self {seen : String → Prop} {table : ParentTable} {file : String}
    (placed : ∀ p ∈ table, p.Placed seen) (unseen : ¬ seen file) : table.withdraw file = table := by
  have each : ∀ p ∈ table, withdrawOne file p = some p := by
    intro p listed
    have here := placed p listed
    have all : p.written.filter (!·.isIn file) = p.written := by
      rw [List.filter_eq_self]
      intro l member
      have apart : l.file ≠ file := fun same => unseen (same ▸ here.within l member)
      simpa [Location.isIn] using apart
    obtain ⟨first, rest, places⟩ := List.exists_cons_of_ne_nil here.written
    have stands : p.use.location = some first := by rw [here.first, places]; rfl
    rw [withdrawOne_of_placed here, all, places, List.head?_cons, Option.map_some, TypeUse.relocate_eq_self stands,
      ← places]
  unfold withdraw
  rw [List.filterMap_congr each, List.filterMap_some]

namespace Scope

section Places

variable {mine theirs s : Scope} {file : String} {l : Location}

theorem addLocationTo_file (l : Location) (known : List Location) :
    (∃ k ∈ addLocationTo l known, k.file = file) ↔ l.file = file ∨ ∃ k ∈ known, k.file = file := by
  induction known with
  | nil => simp [addLocationTo]
  | cons first rest ih =>
    unfold addLocationTo
    split
    · rename_i same
      have equal : first.file = l.file := (Prod.mk.inj (Location.sameNode_iff.mp same)).1
      simp [equal]
    · simp only [List.exists_mem_cons_iff, ih]
      grind

theorem addLocationTo_node (l : Location) (known : List Location) :
    (addLocationTo l known).map Location.node =
      if l.node ∈ known.map Location.node then known.map Location.node else known.map Location.node ++ [l.node] := by
  induction known with
  | nil => simp [addLocationTo]
  | cons first rest ih =>
    unfold addLocationTo
    by_cases same : first.sameNode l = true
    · have equal := Location.sameNode_iff.mp same
      simp only [same, if_true, List.map_cons, ← equal, List.mem_cons, true_or]
      rfl
    · have differs : ¬ l.node = first.node := fun equal => same (Location.sameNode_iff.mpr equal.symm)
      simp only [same, Bool.false_eq_true, if_false, List.map_cons, ih, List.mem_cons, differs, false_or]
      split <;> rfl

theorem isIn_unite : (mine.unite theirs).isIn file = true ↔ mine.isIn file = true ∨ theirs.isIn file = true := by
  simp only [isIn_iff, unite_locations]
  generalize mine.locations = known
  induction theirs.locations generalizing known with
  | nil => simp
  | cons first rest ih =>
    rw [List.foldl_cons, ih, addLocationTo_file]
    rw [List.exists_mem_cons_iff, or_assoc, or_left_comm]

theorem nodup_unite (nodup : (mine.locations.map Location.node).Nodup) :
    ((mine.unite theirs).locations.map Location.node).Nodup := by
  rw [unite_locations]
  refine List.foldlRecOn theirs.locations (fun known l => addLocationTo l known)
    (motive := fun known => (known.map Location.node).Nodup) nodup ?_
  intro known nodup l _
  rw [addLocationTo_node]
  split
  · exact nodup
  · rename_i fresh
    exact List.nodup_append.mpr ⟨nodup, by simp, by rintro x old y new rfl; exact fresh (by simp_all)⟩

theorem locations_ne_nil_unite (some : mine.locations ≠ []) : (mine.unite theirs).locations ≠ [] := by
  obtain ⟨l, member⟩ := List.exists_mem_of_ne_nil _ some
  have seen : (mine.unite theirs).isIn l.file = true := isIn_unite.mpr (Or.inl (isIn_iff.mpr ⟨l, member, rfl⟩))
  obtain ⟨k, listed, -⟩ := isIn_iff.mp seen
  exact List.ne_nil_of_mem listed

theorem isIn_withdraw {other : String} :
    (s.withdraw file).isIn other = true ↔ s.isIn other = true ∧ other ≠ file := by
  simp only [isIn_iff, withdraw, List.mem_filter, Location.isIn, Bool.not_eq_true', beq_eq_false_iff_ne]
  constructor
  · rintro ⟨l, ⟨member, outside⟩, rfl⟩
    exact ⟨⟨l, member, rfl⟩, outside⟩
  · rintro ⟨⟨l, member, rfl⟩, outside⟩
    exact ⟨l, ⟨member, outside⟩, rfl⟩

end Places

-- What a scope at rest lists.
structure Sound (s : Scope) : Prop where
  -- A block has no name and is seen at one place.
  block : s.kind = .block → s.name = "" ∧ ∃ l, s.locations = [l]
  nodes : (s.locations.map Location.node).Nodup
  calls : ∀ c ∈ s.calls, s.isIn c.location.file = true
  names : (s.declared.map Prod.fst).Nodup
  declared : ∀ entry ∈ s.declared, ∀ v ∈ entry.2,
    v.name = entry.1 ∧ ∃ l, v.locations = [l] ∧ s.isIn l.file = true
  -- A name is listed for the variables it has.
  groups : ∀ entry ∈ s.declared, entry.2 ≠ []
  positions : ∀ m, s.kind = .method m → m.parameters.map (·.position) = List.range m.parameters.length
  parameters : ∀ m, s.kind = .method m → ∀ p ∈ m.parameters,
    (p.locations.map Location.node).Nodup ∧ ∀ l ∈ p.locations, s.isIn l.file = true
  trimmed : ∀ m, s.kind = .method m → ∀ p ∈ m.parameters, Text.trim p.name = p.name
  parents : ∀ t, s.kind = .type t → (t.parents.faces.map Prod.fst).Nodup
  derived : ∀ t, s.kind = .type t → ∀ p ∈ t.parents, p.Placed (s.isIn · = true)
  aligned : ∀ t, s.kind = .type t → t.parentColumns.Aligned

-- Where moreover no element of the source text is listed as two calls or as two variables of one name.
structure Tidy (s : Scope) : Prop where
  calls : (s.calls.map (·.location.node)).Nodup
  declared : ∀ entry ∈ s.declared, (entry.2.flatMap fun v => v.locations.map Location.node).Nodup

section Uniting

variable {mine theirs : Scope}

theorem sameEntity_block (same : mine.sameEntity theirs = true) (block : mine.kind = .block) :
    theirs.kind = .block ∧ ∃ l ∈ mine.locations, ∃ k ∈ theirs.locations, l.node = k.node := by
  unfold sameEntity at same
  rw [block] at same
  cases kind : theirs.kind with
  | block =>
    simp only [kind, Bool.and_eq_true, List.any_eq_true, Location.sameNode_iff] at same
    exact ⟨rfl, same.2⟩
  | space isGlobal => simp [kind] at same
  | type t => simp [kind] at same
  | method m => simp [kind] at same

theorem addNew_of_shared {v w : Variable} {k l : Location} (left : v.locations = [k]) (right : w.locations = [l])
    (shared : v.sharesLocation w = true) : Location.addNew v.locations w.locations = [k] := by
  simp only [Variable.sharesLocation, left, right, List.any_cons, List.any_nil, Bool.or_false] at shared
  simp [Location.addNew, left, right, shared]

-- A block meets a block at the same place.
theorem Sound.block_unite (left : mine.Sound) (right : theirs.Sound) (same : mine.sameEntity theirs = true)
    (block : mine.kind = .block) : mine.name = "" ∧ ∃ l, (mine.unite theirs).locations = [l] := by
  obtain ⟨block', l, member, k, member', equal⟩ := sameEntity_block same block
  obtain ⟨unnamed, l₁, only⟩ := left.block block
  obtain ⟨-, k₁, only'⟩ := right.block block'
  rw [only, List.mem_singleton] at member
  rw [only', List.mem_singleton] at member'
  subst member member'
  refine ⟨unnamed, { l with isReference := l.isReference && k.isReference }, ?_⟩
  rw [unite_locations, only, only']
  simp [addLocationTo, Location.sameNode_iff.mpr equal]

theorem Sound.declared_unite (left : mine.Sound) (right : theirs.Sound) :
    ∀ entry ∈ (mine.unite theirs).declared, ∀ v ∈ entry.2,
      v.name = entry.1 ∧ ∃ l, v.locations = [l] ∧ (mine.unite theirs).isIn l.file = true := by
  rw [unite_declared]
  -- the variables of the second scope are added one after the other
  refine List.foldlRecOn _ _ (motive := fun table : VariableTable => ∀ entry ∈ table, ∀ v ∈ entry.2,
    v.name = entry.1 ∧ ∃ l, v.locations = [l] ∧ (mine.unite theirs).isIn l.file = true) ?_ ?_
  · intro entry listed v member
    obtain ⟨name, l, only, seen⟩ := left.declared entry listed v member
    exact ⟨name, l, only, isIn_unite.mpr (Or.inl seen)⟩
  · intro table each w listed
    obtain ⟨entry', listed', member'⟩ := VariableTable.mem_toList.mp listed
    obtain ⟨-, l, only, seen⟩ := right.declared entry' listed' w member'
    have seen' : (mine.unite theirs).isIn l.file = true := isIn_unite.mpr (Or.inr seen)
    refine VariableTable.forall_alter (P := fun name group => ∀ v ∈ group,
      v.name = name ∧ ∃ l, v.locations = [l] ∧ (mine.unite theirs).isIn l.file = true) each ?_ ?_
    · intro v member
      rw [List.mem_singleton.mp member]
      exact ⟨rfl, l, only, seen'⟩
    · intro group known
      refine VariableTable.forall_uniteInto known ⟨rfl, l, only, seen'⟩ ?_
      intro v member shared
      obtain ⟨name, k, one, inside⟩ := known v member
      exact ⟨name, k, addNew_of_shared one only shared, inside⟩

theorem Sound.parameters_unite {m : MethodDefinition} (left : mine.Sound) (right : theirs.Sound)
    (kind : (mine.unite theirs).kind = .method m) : ∀ p ∈ m.parameters,
      (p.locations.map Location.node).Nodup ∧ ∀ l ∈ p.locations, (mine.unite theirs).isIn l.file = true := by
  have kept : ∀ d, mine.kind = .method d → ∀ p ∈ d.parameters,
      (p.locations.map Location.node).Nodup ∧ ∀ l ∈ p.locations, (mine.unite theirs).isIn l.file = true := by
    intro d here p member
    obtain ⟨nodup, seen⟩ := left.parameters d here p member
    exact ⟨nodup, fun l listed => isIn_unite.mpr (Or.inl (seen l listed))⟩
  rw [unite_kind] at kind
  obtain ⟨d, here, rfl | ⟨d', there, rfl⟩⟩ := ScopeKind.unite_eq_method kind
  · exact kept m here
  · refine Parameter.forall_uniteAll (kept d here) ?_
    intro p member q member'
    obtain ⟨nodup, seen⟩ := kept d here p member
    rw [Parameter.unite_locations]
    refine ⟨nodup_addUnknown (fun _ _ => Location.sameNode_iff) nodup, ?_⟩
    intro l listed
    rcases mem_addUnknown listed with old | new
    · exact seen l old
    · exact isIn_unite.mpr (Or.inr ((right.parameters d' there q member').2 l new))

theorem Sound.unite (left : mine.Sound) (right : theirs.Sound) (same : mine.sameEntity theirs = true) :
    (mine.unite theirs).Sound where
  block kind := by
    rw [unite_kind] at kind
    simpa using left.block_unite right same (ScopeKind.unite_eq_block kind)
  nodes := nodup_unite left.nodes
  calls c member := by
    rw [unite_calls] at member
    rcases mem_addUnknown member with here | there
    · exact isIn_unite.mpr (Or.inl (left.calls c here))
    · exact isIn_unite.mpr (Or.inr (right.calls c there))
  names := by
    rw [unite_declared]
    refine List.foldlRecOn _ _ (motive := fun table : VariableTable => (table.map Prod.fst).Nodup) left.names ?_
    intro table nodup v _
    exact VariableTable.nodup_alter nodup
  declared := left.declared_unite right
  groups := by
    rw [unite_declared]
    refine List.foldlRecOn _ _ (motive := fun table : VariableTable => ∀ entry ∈ table, entry.2 ≠ []) left.groups ?_
    intro table each v _
    refine VariableTable.forall_alter (P := fun _ group => group ≠ []) each (by simp [VariableTable.uniteInto]) ?_
    intro group some
    exact VariableTable.uniteInto_ne_nil
  positions m kind := by
    rw [unite_kind] at kind
    obtain ⟨d, here, rfl | ⟨d', there, rfl⟩⟩ := ScopeKind.unite_eq_method kind
    · exact left.positions m here
    · have ordered := left.positions d here
      have long := congrArg List.length (@Parameter.uniteAll_positions d.parameters d'.parameters)
      rw [List.length_map, List.length_map] at long
      simp only [MethodDefinition.unite]
      rw [Parameter.uniteAll_positions, long, ordered]
  parameters _ kind := left.parameters_unite right kind
  trimmed m kind := by
    rw [unite_kind] at kind
    obtain ⟨d, here, rfl | ⟨d', there, rfl⟩⟩ := ScopeKind.unite_eq_method kind
    · exact left.trimmed m here
    · refine Parameter.forall_uniteAll (left.trimmed d here) ?_
      intro p member q member'
      rcases Parameter.unite_name_cases p q with name | name
      · rw [name]
        exact left.trimmed d here p member
      · rw [name]
        exact right.trimmed d' there q member'
  parents t kind := by
    rw [unite_kind] at kind
    obtain ⟨d, here, rfl | ⟨d', there, rfl⟩⟩ := ScopeKind.unite_eq_type kind
    · exact left.parents t here
    · rw [TypeDefinition.parents_unite]
      exact ParentTable.nodup_foldl_add _ (left.parents d here)
  -- A parent of either side is placed in a file of its own scope, hence in one of the union.
  derived t kind := by
    have kept : ∀ d, mine.kind = .type d → ∀ p ∈ d.parents, p.Placed ((mine.unite theirs).isIn · = true) :=
      fun d here p member => (left.derived d here p member).mono fun _ seen => isIn_unite.mpr (Or.inl seen)
    rw [unite_kind] at kind
    obtain ⟨d, here, rfl | ⟨d', there, rfl⟩⟩ := ScopeKind.unite_eq_type kind
    · exact kept t here
    · rw [TypeDefinition.parents_unite]
      refine ParentTable.placed_unite (kept d here) ?_
      exact fun p member => (right.derived d' there p member).mono fun _ seen => isIn_unite.mpr (Or.inr seen)
  aligned t kind := by
    rw [unite_kind] at kind
    obtain ⟨d, here, rfl | ⟨d', -, rfl⟩⟩ := ScopeKind.unite_eq_type kind
    · exact left.aligned t here
    · exact (left.aligned d here).unite d'.parentColumns

-- Of variables with one place each, one joins a group unless its element is listed there.
theorem uniteInto_nodes {group : List Variable} {v : Variable} {l : Location}
    (ones : ∀ w ∈ group, ∃ k, w.locations = [k]) (only : v.locations = [l]) :
    (VariableTable.uniteInto v group).flatMap (fun w => w.locations.map Location.node) =
      if l.node ∈ group.flatMap (fun w => w.locations.map Location.node) then
        group.flatMap (fun w => w.locations.map Location.node)
      else group.flatMap (fun w => w.locations.map Location.node) ++ [l.node] := by
  induction group with
  | nil => simp [VariableTable.uniteInto, only]
  | cons known rest ih =>
    obtain ⟨k, one⟩ := ones known List.mem_cons_self
    have later := ih fun w listed => ones w (List.mem_cons_of_mem _ listed)
    unfold VariableTable.uniteInto
    by_cases shared : known.sharesLocation v = true
    · have equal : k.node = l.node := by
        simpa [Variable.sharesLocation, one, only, Location.sameNode_iff] using shared
      have joined := addNew_of_shared one only shared
      rw [one] at joined
      simp only [shared, if_true, List.flatMap_cons, one, joined, equal, List.map_cons, List.map_nil, List.cons_append,
        List.nil_append, List.mem_cons, true_or]
    · have differs : ¬ l.node = k.node := by
        intro equal
        apply shared
        simp [Variable.sharesLocation, one, only, Location.sameNode_iff, equal]
      simp only [shared, Bool.false_eq_true, if_false, List.flatMap_cons, later, one, List.map_cons, List.map_nil,
        List.cons_append, List.nil_append, List.mem_cons, differs, false_or]
      split <;> rfl

theorem Tidy.unite (left : mine.Sound) (right : theirs.Sound) (tidy : mine.Tidy) : (mine.unite theirs).Tidy := by
  refine ⟨?_, ?_⟩
  · rw [unite_calls, Call.addNew_eq]
    exact nodup_addUnknown (fun _ _ => Location.sameNode_iff) tidy.calls
  · have each : ∀ entry ∈ (mine.unite theirs).declared,
        (entry.2.flatMap fun v => v.locations.map Location.node).Nodup ∧ ∀ v ∈ entry.2, ∃ l, v.locations = [l] := by
      rw [unite_declared]
      refine List.foldlRecOn _ _ (motive := fun table : VariableTable => ∀ entry ∈ table,
        (entry.2.flatMap fun v => v.locations.map Location.node).Nodup ∧ ∀ v ∈ entry.2, ∃ l, v.locations = [l]) ?_ ?_
      · intro entry listed
        refine ⟨tidy.declared entry listed, ?_⟩
        intro v member
        obtain ⟨-, l, only, -⟩ := left.declared entry listed v member
        exact ⟨l, only⟩
      · intro table each w listed
        obtain ⟨entry', listed', member'⟩ := VariableTable.mem_toList.mp listed
        obtain ⟨-, l, only, -⟩ := right.declared entry' listed' w member'
        refine VariableTable.forall_alter (P := fun _ group =>
          (group.flatMap fun v => v.locations.map Location.node).Nodup ∧ ∀ v ∈ group, ∃ l, v.locations = [l]) each ?_ ?_
        · simp [VariableTable.uniteInto, only]
        · rintro group ⟨nodup, ones⟩
          refine ⟨?_, VariableTable.forall_uniteInto ones ⟨l, only⟩ ?_⟩
          · rw [uniteInto_nodes ones only]
            split
            · exact nodup
            · rename_i fresh
              exact List.nodup_append.mpr ⟨nodup, by simp, by rintro x old y new rfl; exact fresh (by simp_all)⟩
          · intro v member shared
            obtain ⟨k, one⟩ := ones v member
            exact ⟨k, addNew_of_shared one only shared⟩
    intro entry listed
    exact (each entry listed).1

end Uniting

section Renaming

variable {s : Scope}

theorem Sound.rebind (sound : s.Sound) (f : ScopeId → ScopeId) : (s.rebind f).Sound := by
  refine ⟨?_, sound.nodes, ?_, ?_, ?_, ?_, ?_, ?_, ?_, ?_, ?_, ?_⟩
  · intro kind
    refine sound.block ?_
    change s.kind.rebind f = .block at kind
    cases same : s.kind <;> simp [same, ScopeKind.rebind] at kind ⊢
  · intro c member
    obtain ⟨c', listed, rfl⟩ := List.mem_map.mp member
    exact sound.calls c' listed
  · have names : (s.rebind f).declared.map Prod.fst = s.declared.map Prod.fst := by
      simp [Scope.rebind, VariableTable.rebind]
    rw [names]
    exact sound.names
  · intro entry listed v member
    obtain ⟨entry', listed', rfl⟩ := List.mem_map.mp listed
    obtain ⟨v', member', rfl⟩ := List.mem_map.mp member
    exact sound.declared entry' listed' v' member'
  · intro entry listed
    obtain ⟨entry', listed', rfl⟩ := List.mem_map.mp listed
    simpa using sound.groups entry' listed'
  · intro m kind
    obtain ⟨d, kind', rfl⟩ := ScopeKind.rebind_eq_method kind
    have ordered := sound.positions d kind'
    simpa [MethodDefinition.rebind, Parameter.rebind, Function.comp_def] using ordered
  · intro m kind p member
    obtain ⟨d, kind', rfl⟩ := ScopeKind.rebind_eq_method kind
    obtain ⟨p', listed, rfl⟩ := List.mem_map.mp member
    exact sound.parameters d kind' p' listed
  · intro m kind p member
    obtain ⟨d, kind', rfl⟩ := ScopeKind.rebind_eq_method kind
    obtain ⟨p', listed, rfl⟩ := List.mem_map.mp member
    exact sound.trimmed d kind' p' listed
  · intro t kind
    obtain ⟨d, kind', rfl⟩ := ScopeKind.rebind_eq_type kind
    rw [TypeDefinition.parents_rebind, ParentTable.faces_rebind]
    exact sound.parents d kind'
  · intro t kind
    obtain ⟨d, kind', rfl⟩ := ScopeKind.rebind_eq_type kind
    rw [TypeDefinition.parents_rebind]
    exact ParentTable.placed_rebind (sound.derived d kind') f
  · intro t kind
    obtain ⟨d, kind', rfl⟩ := ScopeKind.rebind_eq_type kind
    exact (sound.aligned d kind').rebind f

theorem Tidy.rebind (tidy : s.Tidy) (f : ScopeId → ScopeId) : (s.rebind f).Tidy := by
  refine ⟨?_, ?_⟩
  · have calls : (s.rebind f).calls.map (·.location.node) = s.calls.map (·.location.node) := by
      simp [Scope.rebind, Call.rebind]
    rw [calls]
    exact tidy.calls
  · intro entry listed
    obtain ⟨entry', listed', rfl⟩ := List.mem_map.mp listed
    simpa [Variable.rebind, List.flatMap_map] using tidy.declared entry' listed'

end Renaming

section Withdrawing

variable {s : Scope} {file : String}

theorem Sound.not_block (sound : s.Sound) (seen : s.isIn file = true) (elsewhere : s.isOnlyIn file = false) :
    s.kind ≠ .block := by
  intro block
  obtain ⟨-, l, only⟩ := sound.block block
  have here : l.isIn file = true := by simpa [isIn, only] using seen
  simp [isOnlyIn, only, here] at elsewhere

theorem Sound.withdraw_eq_self (sound : s.Sound) (unseen : s.isIn file = false) : s.withdraw file = s := by
  have outside : ∀ l : Location, s.isIn l.file = true → l.isIn file = false := by
    intro l seen
    rw [Bool.eq_false_iff]
    intro inside
    rw [← beq_iff_eq.mp inside, seen] at unseen
    cases unseen
  have calls : s.calls.filter (!·.location.isIn file) = s.calls :=
    List.filter_eq_self.mpr fun c member => by simp [outside _ (sound.calls c member)]
  have locations : s.locations.filter (!·.isIn file) = s.locations :=
    List.filter_eq_self.mpr fun l member => by simp [outside l (isIn_iff.mpr ⟨l, member, rfl⟩)]
  have declared : s.declared.withdraw file = s.declared := by
    refine VariableTable.withdraw_eq_self sound.groups ?_
    intro entry listed v member
    obtain ⟨-, l, only, seen⟩ := sound.declared entry listed v member
    exact ⟨l, only, outside l seen⟩
  have kind : withdrawKind file s.kind = s.kind := by
    cases same : s.kind with
    | block => rfl
    | space isGlobal => rfl
    | type t =>
      have parents : t.parentColumns.table.withdraw file = t.parentColumns.table :=
        ParentTable.withdraw_eq_self (sound.derived t same) (by simp [unseen])
      have columns := (ParentColumns.aligned_withdraw file _).eq_of_table (sound.aligned t same)
        ((ParentColumns.table_withdraw file _).trans parents)
      rw [withdrawKind, columns]
    | method m =>
      have parameters : m.parameters.map (fun p => { p with locations := p.locations.filter (!·.isIn file) }) =
          m.parameters := by
        refine map_fixed ?_
        intro p member
        have all : p.locations.filter (!·.isIn file) = p.locations :=
          List.filter_eq_self.mpr fun l listed => by simp [outside l ((sound.parameters m same p member).2 l listed)]
        rw [all]
      simp only [withdrawKind, parameters]
  unfold Scope.withdraw
  rw [calls, locations, declared, kind]

-- A root is left what any scope is left, also when no other file knows it.
theorem Sound.withdrawRoot_eq {isGlobal : Bool} (sound : s.Sound) (kind : s.kind = .space isGlobal) (file : String) :
    s.withdrawRoot file = s.withdraw file := by
  unfold withdrawRoot
  by_cases only : s.isOnlyIn file = true
  · have every := (isOnlyIn_iff.mp only).2
    have inside : ∀ l : Location, s.isIn l.file = true → l.isIn file = true := by
      intro l seen
      obtain ⟨k, member, same⟩ := isIn_iff.mp seen
      rw [Location.isIn, ← same, every k member, beq_self_eq_true]
    have calls : s.calls.filter (!·.location.isIn file) = [] :=
      List.filter_eq_nil_iff.mpr fun c member => by simp [inside _ (sound.calls c member)]
    have locations : s.locations.filter (!·.isIn file) = [] :=
      List.filter_eq_nil_iff.mpr fun l member => by simp [inside l (isIn_iff.mpr ⟨l, member, rfl⟩)]
    have declared : s.declared.withdraw file = [] := by
      refine VariableTable.withdraw_eq_nil ?_
      intro entry listed v member l place
      obtain ⟨-, k, one, seen⟩ := sound.declared entry listed v member
      rw [one, List.mem_singleton] at place
      exact place ▸ inside k seen
    rw [if_pos only]
    unfold Scope.withdraw
    rw [calls, locations, declared, kind]
    rfl
  · rw [if_neg only]
    split
    · rfl
    · rename_i unseen
      exact (sound.withdraw_eq_self (Bool.eq_false_iff.mpr unseen)).symm

theorem Sound.withdraw (sound : s.Sound) (apart : s.kind = .block → s.isIn file = false) :
    (s.withdraw file).Sound where
  block kind := by
    have block : s.kind = .block := by
      change withdrawKind file s.kind = .block at kind
      cases same : s.kind <;> simp [same, withdrawKind] at kind ⊢
    obtain ⟨unnamed, l, only⟩ := sound.block block
    have outside : (l.isIn file) = false := by simpa [isIn, only] using apart block
    exact ⟨unnamed, l, by simp [Scope.withdraw, only, outside]⟩
  nodes := sound.nodes.sublist (List.filter_sublist.map _)
  calls c member := by
    obtain ⟨listed, outside⟩ := List.mem_filter.mp member
    exact isIn_withdraw.mpr ⟨sound.calls c listed, by simpa [Location.isIn] using outside⟩
  names := sound.names.sublist (VariableTable.withdraw_names_sublist file)
  declared entry listed v member := by
    obtain ⟨entry', listed', name, group⟩ := VariableTable.mem_withdraw listed
    rw [group] at member
    obtain ⟨member, some⟩ := List.mem_filter.mp member
    obtain ⟨v', member', rfl⟩ := List.mem_map.mp member
    obtain ⟨named, l, only, seen⟩ := sound.declared entry' listed' v' member'
    have outside : l.isIn file = false := by
      by_contra inside
      simp [only, Bool.not_eq_false _ ▸ inside] at some
    refine ⟨named.trans name.symm, l, by simp [only, outside], ?_⟩
    exact isIn_withdraw.mpr ⟨seen, by simpa [Location.isIn] using outside⟩
  groups entry listed := by simpa using (List.mem_filter.mp listed).2
  positions m kind := by
    obtain ⟨d, kind', rfl⟩ := withdrawKind_eq_method kind
    have ordered := sound.positions d kind'
    simpa [Function.comp_def] using ordered
  parameters m kind p member := by
    obtain ⟨d, kind', rfl⟩ := withdrawKind_eq_method kind
    obtain ⟨p', listed, rfl⟩ := List.mem_map.mp member
    obtain ⟨nodup, seen⟩ := sound.parameters d kind' p' listed
    refine ⟨nodup.sublist (List.filter_sublist.map _), ?_⟩
    intro l kept
    obtain ⟨member, outside⟩ := List.mem_filter.mp kept
    exact isIn_withdraw.mpr ⟨seen l member, by simpa [Location.isIn] using outside⟩
  trimmed m kind p member := by
    obtain ⟨d, kind', rfl⟩ := withdrawKind_eq_method kind
    obtain ⟨p', listed, rfl⟩ := List.mem_map.mp member
    exact sound.trimmed d kind' p' listed
  parents t kind := by
    obtain ⟨d, kind', rfl⟩ := withdrawKind_eq_type kind
    rw [TypeDefinition.parents_withdraw]
    exact (sound.parents d kind').sublist ((ParentTable.faces_withdraw_sublist file d.parents).map _)
  derived t kind p member := by
    obtain ⟨d, kind', rfl⟩ := withdrawKind_eq_type kind
    rw [TypeDefinition.parents_withdraw] at member
    exact (ParentTable.placed_withdraw (sound.derived d kind') file p member).mono fun _ => isIn_withdraw.mpr
  aligned t kind := by
    obtain ⟨d, -, rfl⟩ := withdrawKind_eq_type kind
    exact ParentColumns.aligned_withdraw file d.parentColumns

theorem Tidy.withdraw (tidy : s.Tidy) (file : String) : (s.withdraw file).Tidy := by
  refine ⟨tidy.calls.sublist (List.filter_sublist.map _), ?_⟩
  intro entry listed
  obtain ⟨entry', listed', -, group⟩ := VariableTable.mem_withdraw listed
  rw [group]
  refine (tidy.declared entry' listed').sublist ?_
  have inner : ∀ l : List Variable,
      ((l.map fun v => { v with locations := v.locations.filter (!·.isIn file) }).flatMap
        fun v => v.locations.map Location.node).Sublist (l.flatMap fun v => v.locations.map Location.node) := by
    intro l
    induction l with
    | nil => exact List.Sublist.refl _
    | cons v rest ih => exact (List.filter_sublist.map _).append ih
  refine List.Sublist.trans ?_ (inner entry'.2)
  generalize entry'.2.map _ = group
  induction group with
  | nil => exact List.Sublist.refl _
  | cons v rest ih =>
    rw [List.filter_cons]
    split
    · exact (List.Sublist.refl _).append ih
    · exact ih.trans (List.sublist_append_right _ _)

end Withdrawing

section Filling

variable {s : Scope} {v : Variable} {c : Call} {l : Location}

theorem Sound.addVariable (sound : s.Sound) (only : v.locations = [l]) (seen : s.isIn l.file = true) :
    (s.addVariable v).Sound := by
  refine ⟨sound.block, sound.nodes, sound.calls, VariableTable.nodup_alter sound.names, ?_, ?_, sound.positions,
    sound.parameters, sound.trimmed, sound.parents, sound.derived, sound.aligned⟩
  · refine VariableTable.forall_alter (P := fun name group => ∀ w ∈ group,
      w.name = name ∧ ∃ l, w.locations = [l] ∧ s.isIn l.file = true) sound.declared ?_ ?_
    · intro w member
      rw [List.mem_singleton.mp member]
      exact ⟨rfl, l, only, seen⟩
    · intro group known w member
      rcases List.mem_append.mp member with old | new
      · exact known w old
      · rw [List.mem_singleton.mp new]
        exact ⟨rfl, l, only, seen⟩
  · exact VariableTable.forall_alter (P := fun _ group => group ≠ []) sound.groups (by simp) (by simp)

theorem Sound.addCall (sound : s.Sound) (seen : s.isIn c.location.file = true) : (s.addCall c).Sound := by
  refine ⟨sound.block, sound.nodes, ?_, sound.names, sound.declared, sound.groups, sound.positions, sound.parameters,
    sound.trimmed, sound.parents, sound.derived, sound.aligned⟩
  intro call member
  rcases List.mem_append.mp member with old | new
  · exact sound.calls call old
  · rw [List.mem_singleton.mp new]
    exact seen

-- The elements that a scope lists as calls and variables are among those recorded; where none of these is recorded
-- twice, none is listed twice.
def RecordedIn (seen : List String) (s : Scope) : Prop :=
  (∀ c ∈ s.calls, c.location.position ∈ seen) ∧ (∀ v ∈ s.declared.toList, ∀ l ∈ v.locations, l.position ∈ seen) ∧
    (seen.Nodup → s.Tidy)

variable {seen : List String} {mine theirs : Scope}

theorem RecordedIn.cons (recorded : s.RecordedIn seen) (position : String) : s.RecordedIn (position :: seen) := by
  obtain ⟨calls, declared, tidy⟩ := recorded
  refine ⟨fun c member => List.mem_cons_of_mem _ (calls c member), ?_, fun nodup => tidy (List.nodup_cons.mp nodup).2⟩
  exact fun v member l listed => List.mem_cons_of_mem _ (declared v member l listed)

theorem RecordedIn.rebind (recorded : s.RecordedIn seen) (f : ScopeId → ScopeId) : (s.rebind f).RecordedIn seen := by
  obtain ⟨calls, declared, tidy⟩ := recorded
  refine ⟨?_, ?_, fun nodup => (tidy nodup).rebind f⟩
  · intro c member
    obtain ⟨c', listed, rfl⟩ := List.mem_map.mp member
    exact calls c' listed
  · intro v member
    change v ∈ VariableTable.toList (s.declared.rebind f) at member
    rw [VariableTable.rebind_toList] at member
    obtain ⟨v', listed, rfl⟩ := List.mem_map.mp member
    exact declared v' listed

theorem RecordedIn.unite (left : mine.Sound) (right : theirs.Sound) (recorded : mine.RecordedIn seen)
    (recorded' : theirs.RecordedIn seen) : (mine.unite theirs).RecordedIn seen := by
  refine ⟨?_, ?_, fun nodup => (recorded.2.2 nodup).unite left right⟩
  · intro c member
    rw [unite_calls] at member
    rcases mem_addUnknown member with here | there
    · exact recorded.1 c here
    · exact recorded'.1 c there
  · rw [unite_declared]
    refine List.foldlRecOn _ _ (motive := fun table : VariableTable =>
      ∀ v ∈ table.toList, ∀ l ∈ v.locations, l.position ∈ seen) recorded.2.1 ?_
    intro table each v member
    refine VariableTable.forall_unite (P := fun v => ∀ l ∈ v.locations, l.position ∈ seen) each
      (recorded'.2.1 v member) ?_
    intro w places _ l listed
    rcases mem_addUnknown listed with old | new
    · exact places l old
    · exact recorded'.2.1 v member l new

theorem RecordedIn.addVariable (recorded : s.RecordedIn seen) (only : v.locations = [l]) :
    (s.addVariable v).RecordedIn (l.position :: seen) := by
  obtain ⟨calls, declared, tidy⟩ := recorded.cons l.position
  refine ⟨calls, ?_, ?_⟩
  · intro w member k listed
    rcases VariableTable.mem_add member with old | rfl
    · exact declared w old k listed
    · rw [only, List.mem_singleton] at listed
      simp [listed]
  · intro nodup
    refine ⟨(tidy nodup).calls, ?_⟩
    intro entry listed
    rcases VariableTable.mem_alter listed with kept | rfl | ⟨group, known, rfl⟩
    · exact (tidy nodup).declared entry kept
    · simp [only]
    · rw [List.flatMap_append, List.nodup_append]
      refine ⟨(tidy nodup).declared _ known, by simp [only], ?_⟩
      rintro x old y new rfl
      obtain ⟨w, member, place⟩ := List.mem_flatMap.mp old
      obtain ⟨k, here, rfl⟩ := List.mem_map.mp place
      have position := recorded.2.1 w (VariableTable.mem_toList.mpr ⟨_, known, member⟩) k here
      have same : k.node = l.node := by simpa [only] using new
      rw [(Prod.mk.inj same).2] at position
      exact (List.nodup_cons.mp nodup).1 position

theorem RecordedIn.addCall (recorded : s.RecordedIn seen) :
    (s.addCall c).RecordedIn (c.location.position :: seen) := by
  obtain ⟨calls, declared, tidy⟩ := recorded.cons c.location.position
  refine ⟨?_, declared, ?_⟩
  · intro call member
    rcases List.mem_append.mp member with old | new
    · exact calls call old
    · simp [List.mem_singleton.mp new]
  · intro nodup
    refine ⟨?_, (tidy nodup).declared⟩
    change ((s.calls ++ [c]).map (·.location.node)).Nodup
    rw [List.map_append, List.nodup_append]
    refine ⟨(tidy nodup).calls, by simp, ?_⟩
    rintro x old y new rfl
    obtain ⟨call, member, same⟩ := List.mem_map.mp old
    have position := recorded.1 call member
    have equal : call.location.node = c.location.node := by
      rw [same]
      simpa using new
    rw [(Prod.mk.inj equal).2] at position
    exact (List.nodup_cons.mp nodup).1 position

end Filling

end Scope

end ScopeAtlas
