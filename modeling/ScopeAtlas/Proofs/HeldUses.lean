import ScopeAtlas.Proofs.Extension
import ScopeAtlas.Proofs.Lockstep

namespace ScopeAtlas

mutual

-- A type use with those in its arguments, at any depth.
def TypeUse.all : TypeUse → List TypeUse
  | ⟨name, qualifiers, arguments, imports, scope, location, language⟩ =>
    ⟨name, qualifiers, arguments, imports, scope, location, language⟩ :: TypeUse.allOf arguments

def TypeUse.allOf : List TypeUse → List TypeUse
  | [] => []
  | u :: rest => u.all ++ TypeUse.allOf rest

end

def ScopeKind.typeUses : ScopeKind → List TypeUse
  | .type definition => definition.parents.flatMap (·.use.all)
  | .method definition =>
    definition.returnType.toList.flatMap (·.all) ++ definition.parameters.flatMap (·.declaredType.all)
  | _ => []

def Variable.typeUses (v : Variable) : List TypeUse := v.declaredType.toList.flatMap (·.all)

def Scope.typeUses (s : Scope) : List TypeUse := s.declared.toList.flatMap (·.typeUses) ++ s.kind.typeUses

variable {f : ScopeId → ScopeId}

namespace TypeUse

theorem allOf_eq (uses : List TypeUse) : allOf uses = uses.flatMap (·.all) := by
  induction uses with
  | nil => rfl
  | cons u rest ih => simp [allOf, ih]

theorem mem_all {u v : TypeUse} : v ∈ u.all ↔ v = u ∨ ∃ a ∈ u.arguments, v ∈ a.all := by
  cases u
  simp [all, allOf_eq]

mutual

theorem all_rebind : ∀ u : TypeUse, (u.rebind f).all = u.all.map (·.rebind f)
  | ⟨name, qualifiers, arguments, imports, scope, location, language⟩ => by
    simp only [rebind, all, List.map_cons, allOf_rebind arguments]

theorem allOf_rebind : ∀ uses : List TypeUse, allOf (rebindAll f uses) = (allOf uses).map (·.rebind f)
  | [] => rfl
  | u :: rest => by simp only [rebindAll, allOf, all_rebind u, allOf_rebind rest, List.map_append]

end

end TypeUse

section Renaming

theorem Variable.typeUses_rebind (v : Variable) : (v.rebind f).typeUses = v.typeUses.map (·.rebind f) := by
  unfold Variable.typeUses Variable.rebind
  cases v.declaredType with
  | none => rfl
  | some u => simp [TypeUse.all_rebind]

theorem ScopeKind.typeUses_rebind (kind : ScopeKind) : (kind.rebind f).typeUses = kind.typeUses.map (·.rebind f) := by
  cases kind with
  | block => rfl
  | space isGlobal => rfl
  | type t =>
    simp [ScopeKind.rebind, typeUses, ParentTable.rebind, List.flatMap_map, List.map_flatMap, TypeUse.all_rebind]
  | method m =>
    cases returned : m.returnType <;>
    simp [ScopeKind.rebind, typeUses, MethodDefinition.rebind, returned, Parameter.rebind, List.flatMap_map,
      List.map_flatMap, TypeUse.all_rebind]

theorem Scope.typeUses_rebind (s : Scope) : (s.rebind f).typeUses = s.typeUses.map (·.rebind f) := by
  unfold Scope.typeUses
  have table : (s.rebind f).declared = s.declared.rebind f := rfl
  have kind : (s.rebind f).kind = s.kind.rebind f := rfl
  rw [table, kind, VariableTable.rebind_toList, ScopeKind.typeUses_rebind, List.map_append, List.flatMap_map,
    List.map_flatMap]
  simp only [Variable.typeUses_rebind]

end Renaming

namespace ParentTable

variable {table other : ParentTable} {use : TypeUse} {p : ParentType} {seen : String → Prop}

theorem uses_add (known : ∃ q ∈ table, q.use.sameQualifiedName use = true) :
    (table.add use).map (·.use) = table.map (·.use) := by
  induction table with
  | nil => obtain ⟨q, member, -⟩ := known; cases member
  | cons q rest ih =>
    unfold add
    split
    · rfl
    · rename_i differs
      obtain ⟨q', member, same⟩ := known
      rcases List.mem_cons.mp member with rfl | later
      · exact absurd same differs
      · rw [List.map_cons, List.map_cons, ih ⟨q', later, same⟩]

theorem known_add (table : ParentTable) (use : TypeUse) : ∃ q ∈ table.add use, q.use.sameQualifiedName use = true := by
  induction table with
  | nil => exact ⟨_, List.mem_singleton.mpr rfl, by simp [TypeUse.sameQualifiedName]⟩
  | cons q rest ih =>
    unfold add
    split
    · rename_i same
      exact ⟨_, List.mem_cons_self, same⟩
    · obtain ⟨q', member, same⟩ := ih
      exact ⟨q', List.mem_cons_of_mem _ member, same⟩

theorem known_of_uses {table' : ParentTable} (same : table'.map (·.use) = table.map (·.use))
    (known : ∃ q ∈ table, q.use.sameQualifiedName use = true) : ∃ q ∈ table', q.use.sameQualifiedName use = true := by
  obtain ⟨q, member, name⟩ := known
  have listed : q.use ∈ table'.map (·.use) := same ▸ List.mem_map_of_mem member
  obtain ⟨q', member', equal⟩ := List.mem_map.mp listed
  exact ⟨q', member', equal ▸ name⟩

theorem uses_addPlaces (known : ∃ q ∈ table, q.use.sameQualifiedName use = true) (places : List Location) :
    ((places.map fun l => { use with location := some l }).foldl (fun table use => table.add use) table).map (·.use) =
      table.map (·.use) := by
  induction places generalizing table with
  | nil => rfl
  | cons l rest ih =>
    have known' : ∃ q ∈ table, q.use.sameQualifiedName { use with location := some l } = true := known
    have same := uses_add known'
    rw [List.map_cons, List.foldl_cons, ih (known_of_uses same known), same]

-- The parent is added with its own use, which stands at the first of its places.
theorem mem_uses_addAll (placed : p.Placed seen)
    (member : use ∈ ((usesOf p).foldl (fun table use => table.add use) table).map (·.use)) :
    use ∈ table.map (·.use) ∨ use = p.use := by
  rw [usesOf_of_placed placed] at member
  have first := placed.first
  cases places : p.written with
  | nil => exact absurd places placed.written
  | cons l rest =>
    rw [places, List.head?_cons] at first
    have known : ∃ q ∈ table.add p.use, q.use.sameQualifiedName p.use = true := known_add table p.use
    rw [places, List.map_cons, List.foldl_cons, TypeUse.relocate_eq_self first, uses_addPlaces known] at member
    obtain ⟨q, listed, rfl⟩ := List.mem_map.mp member
    have each : ∀ q ∈ table.add p.use, q.use ∈ table.map (·.use) ∨ q.use = p.use := by
      refine forall_add ?_ (Or.inr rfl) ?_
      · exact fun q listed => Or.inl (List.mem_map_of_mem listed)
      · exact fun q listed _ => Or.inl (List.mem_map.mpr ⟨q, listed, rfl⟩)
    exact each q listed

theorem mem_uses_unite (placed : ∀ p ∈ other, p.Placed seen) (member : use ∈ (table.unite other).map (·.use)) :
    use ∈ table.map (·.use) ∨ use ∈ other.map (·.use) := by
  unfold unite at member
  induction other generalizing table with
  | nil => exact Or.inl member
  | cons p rest ih =>
    rw [List.flatMap_cons, List.foldl_append] at member
    rcases ih (fun q listed => placed q (List.mem_cons_of_mem _ listed)) member with here | there
    · rcases mem_uses_addAll (placed p List.mem_cons_self) here with old | rfl
      · exact Or.inl old
      · exact Or.inr List.mem_cons_self
    · exact Or.inr (List.mem_cons_of_mem _ there)

end ParentTable

section Uniting

variable {mine theirs : Scope} {u : TypeUse} {seen : String → Prop}

theorem Variable.mem_typeUses {v : Variable} : u ∈ v.typeUses ↔ ∃ t, v.declaredType = some t ∧ u ∈ t.all := by
  unfold Variable.typeUses
  cases v.declaredType <;> simp

theorem VariableTable.typeUses_unite {left right : VariableTable} {holds : TypeUse → Prop}
    (here : ∀ v ∈ left.toList, ∀ u ∈ v.typeUses, holds u) (there : ∀ v ∈ right.toList, ∀ u ∈ v.typeUses, holds u) :
    ∀ v ∈ (right.toList.foldl (fun table v => table.unite v) left).toList, ∀ u ∈ v.typeUses, holds u := by
  refine List.foldlRecOn right.toList (fun table v => table.unite v)
    (motive := fun table : VariableTable => ∀ v ∈ table.toList, ∀ u ∈ v.typeUses, holds u) here ?_
  intro table sofar v listed
  refine forall_unite sofar (there v listed) ?_
  intro w known _ u member
  obtain ⟨t, typed, inside⟩ := Variable.mem_typeUses.mp member
  rcases (Option.orElse_eq_some _ _ _).mp typed with old | ⟨-, new⟩
  · exact known u (Variable.mem_typeUses.mpr ⟨t, old, inside⟩)
  · exact there v listed u (Variable.mem_typeUses.mpr ⟨t, new, inside⟩)

theorem MethodDefinition.mem_typeUses_unite {left right : MethodDefinition} {theirsFirst : Bool}
    (member : u ∈ (ScopeKind.method (left.unite theirsFirst right)).typeUses) :
    u ∈ (ScopeKind.method left).typeUses ∨ u ∈ (ScopeKind.method right).typeUses := by
  simp only [ScopeKind.typeUses, List.mem_append, List.mem_flatMap, Option.mem_toList] at member ⊢
  rcases member with ⟨t, returned, inside⟩ | ⟨p, listed, inside⟩
  · rcases preferred_cases returned with here | there
    · exact Or.inl (Or.inl ⟨t, here, inside⟩)
    · exact Or.inr (Or.inl ⟨t, there, inside⟩)
  · have each : ∀ p ∈ Parameter.uniteAll left.parameters right.parameters,
        ∃ q ∈ left.parameters, q.declaredType = p.declaredType := by
      refine Parameter.forall_uniteAll (fun q listed => ⟨q, listed, rfl⟩) ?_
      exact fun q listed r _ => ⟨q, listed, (q.unite_declaredType r).symm⟩
    obtain ⟨q, listed', same⟩ := each p listed
    exact Or.inl (Or.inr ⟨q, listed', same ▸ inside⟩)

theorem TypeDefinition.mem_typeUses_unite {left right : TypeDefinition} {theirsFirst : Bool}
    (placed : ∀ p ∈ right.parents, p.Placed seen)
    (member : u ∈ (ScopeKind.type (left.unite theirsFirst right)).typeUses) :
    u ∈ (ScopeKind.type left).typeUses ∨ u ∈ (ScopeKind.type right).typeUses := by
  obtain ⟨p, listed, inside⟩ := List.mem_flatMap.mp member
  rw [TypeDefinition.parents_unite] at listed
  rcases ParentTable.mem_uses_unite placed (List.mem_map_of_mem listed) with here | there
  · obtain ⟨q, listed', same⟩ := List.mem_map.mp here
    exact Or.inl (List.mem_flatMap.mpr ⟨q, listed', same ▸ inside⟩)
  · obtain ⟨q, listed', same⟩ := List.mem_map.mp there
    exact Or.inr (List.mem_flatMap.mpr ⟨q, listed', same ▸ inside⟩)

theorem ScopeKind.mem_typeUses_unite {left right : ScopeKind} {theirsFirst : Bool}
    (placed : ∀ t, right = .type t → ∀ p ∈ t.parents, p.Placed seen)
    (member : u ∈ (left.unite theirsFirst right).typeUses) : u ∈ left.typeUses ∨ u ∈ right.typeUses := by
  cases left with
  | block => exact Or.inl member
  | space isGlobal => cases right <;> exact Or.inl member
  | type d =>
    cases right with
    | type d' => exact TypeDefinition.mem_typeUses_unite (placed d' rfl) member
    | block => exact Or.inl member
    | space isGlobal => exact Or.inl member
    | method m => exact Or.inl member
  | method d =>
    cases right with
    | method d' => exact MethodDefinition.mem_typeUses_unite member
    | block => exact Or.inl member
    | space isGlobal => exact Or.inl member
    | type t => exact Or.inl member

theorem Scope.nodes_unite : ∀ node, node ∈ (mine.unite theirs).locations.map Location.node ↔
    node ∈ mine.locations.map Location.node ∨ node ∈ theirs.locations.map Location.node := by
  intro node
  rw [Scope.unite_locations]
  generalize mine.locations = known
  induction theirs.locations generalizing known with
  | nil => simp
  | cons l rest ih =>
    rw [List.foldl_cons, ih, Scope.addLocationTo_node]
    split <;> grind

end Uniting

-- What is asked of the uses and calls in a scope, and of its access if it is a type or method; the latter may depend
-- on one of the elements at which the scope was seen.
structure Scope.Keeps (use : TypeUse → Prop) (call : Call → Prop) (access : Access → String × String → Prop)
    (s : Scope) : Prop where
  uses : ∀ u ∈ s.typeUses, use u
  calls : ∀ c ∈ s.calls, call c
  access : s.category = .type ∨ s.category = .method → ∃ node ∈ s.locations.map Location.node, access s.access node
  placed : ∀ t, s.kind = .type t → ∀ p ∈ t.parents, p.Placed fun _ => True

section Invariant

variable {use : TypeUse → Prop} {call : Call → Prop} {access : Access → String × String → Prop} {s mine theirs : Scope}

theorem Scope.Keeps.rebind (use_rebind : ∀ u f, use u → use (u.rebind f))
    (call_rebind : ∀ c f, call c → call (c.rebind f)) (keeps : s.Keeps use call access) :
    (s.rebind f).Keeps use call access := by
  refine ⟨?_, ?_, ?_, ?_⟩
  · intro u member
    rw [Scope.typeUses_rebind] at member
    obtain ⟨u', listed, rfl⟩ := List.mem_map.mp member
    exact use_rebind u' f (keeps.uses u' listed)
  · intro c member
    obtain ⟨c', listed, rfl⟩ := List.mem_map.mp member
    exact call_rebind c' f (keeps.calls c' listed)
  · intro sort
    have category : (s.rebind f).category = s.category := by
      unfold Scope.category Scope.rebind
      cases s.kind <;> rfl
    rw [category] at sort
    exact keeps.access sort
  · intro t kind
    obtain ⟨t', kind', rfl⟩ := ScopeKind.rebind_eq_type kind
    rw [TypeDefinition.parents_rebind]
    exact ParentTable.placed_rebind (keeps.placed t' kind') f

theorem Scope.Keeps.unite (left : mine.Keeps use call access) (right : theirs.Keeps use call access)
    (same : mine.sameEntity theirs = true) : (mine.unite theirs).Keeps use call access := by
  have sort : theirs.category = mine.category := by
    unfold Scope.sameEntity at same
    simp only [Bool.and_eq_true, beq_iff_eq] at same
    exact same.1.1.symm
  refine ⟨?_, ?_, ?_, ?_⟩
  · intro u member
    rcases List.mem_append.mp member with declared | kind
    · obtain ⟨v, listed, inside⟩ := List.mem_flatMap.mp declared
      refine VariableTable.typeUses_unite ?_ ?_ v listed u inside
      · exact fun w listed u inside => left.uses u (List.mem_append_left _ (List.mem_flatMap.mpr ⟨w, listed, inside⟩))
      · exact fun w listed u inside => right.uses u (List.mem_append_left _ (List.mem_flatMap.mpr ⟨w, listed, inside⟩))
    · rcases ScopeKind.mem_typeUses_unite right.placed kind with here | there
      · exact left.uses u (List.mem_append_right _ here)
      · exact right.uses u (List.mem_append_right _ there)
  · intro c member
    rcases mem_addUnknown member with here | there
    · exact left.calls c here
    · exact right.calls c there
  · intro sorted
    rw [Scope.category_unite] at sorted
    obtain ⟨node, listed, holds⟩ := left.access sorted
    obtain ⟨node', listed', holds'⟩ := right.access (sort.symm ▸ sorted)
    by_cases chosen : theirs.access ≠ .unstated ∧ (mine.yieldsTo theirs = true ∨ mine.access = .unstated)
    · refine ⟨node', (Scope.nodes_unite node').mpr (Or.inr listed'), ?_⟩
      have taken : (mine.unite theirs).access = theirs.access := if_pos chosen
      rw [taken]
      exact holds'
    · refine ⟨node, (Scope.nodes_unite node).mpr (Or.inl listed), ?_⟩
      have kept : (mine.unite theirs).access = mine.access := if_neg chosen
      rw [kept]
      exact holds
  · intro t kind
    obtain ⟨d, here, rfl | ⟨d', there, rfl⟩⟩ := ScopeKind.unite_eq_type kind
    · exact left.placed t here
    · rw [TypeDefinition.parents_unite]
      exact ParentTable.placed_unite (left.placed d here) (right.placed d' there)

-- An invariant of single scopes, as a relation of each scope with itself.
theorem Scope.Keeps.congruence (use_rebind : ∀ u f, use u → use (u.rebind f))
    (call_rebind : ∀ c f, call c → call (c.rebind f)) :
    Scope.Congruence fun s t => t = s ∧ s.Keeps use call access := by
  refine ⟨?_, ?_, ?_, ?_, ?_⟩
  · rintro s t ⟨rfl, -⟩
    exact ⟨rfl, rfl⟩
  · rintro s t parent children ⟨rfl, keeps⟩
    exact ⟨rfl, keeps.uses, keeps.calls, keeps.access, keeps.placed⟩
  · rintro s t s' t' ⟨rfl, -⟩ ⟨rfl, -⟩
    rfl
  · rintro s t s' t' ⟨rfl, left⟩ ⟨rfl, right⟩ same
    exact ⟨rfl, left.unite right same⟩
  · rintro s t f ⟨rfl, keeps⟩
    exact ⟨rfl, keeps.rebind use_rebind call_rebind⟩

theorem Scope.Keeps.addVariable {v : Variable} (keeps : s.Keeps use call access) (typed : ∀ u ∈ v.typeUses, use u) :
    (s.addVariable v).Keeps use call access := by
  refine ⟨?_, keeps.calls, keeps.access, keeps.placed⟩
  intro u member
  rcases List.mem_append.mp member with declared | kind
  · obtain ⟨w, listed, inside⟩ := List.mem_flatMap.mp declared
    rcases VariableTable.mem_add listed with old | rfl
    · exact keeps.uses u (List.mem_append_left _ (List.mem_flatMap.mpr ⟨w, old, inside⟩))
    · exact typed u inside
  · exact keeps.uses u (List.mem_append_right _ kind)

theorem Scope.Keeps.addVariables {found : List Variable} (keeps : s.Keeps use call access)
    (typed : ∀ v ∈ found, ∀ u ∈ v.typeUses, use u) : (found.foldl Scope.addVariable s).Keeps use call access := by
  induction found generalizing s with
  | nil => exact keeps
  | cons v found ih =>
    exact ih (keeps.addVariable (typed v List.mem_cons_self)) fun w listed => typed w (List.mem_cons_of_mem _ listed)

theorem Scope.Keeps.addCall {c : Call} (keeps : s.Keeps use call access) (holds : call c) :
    (s.addCall c).Keeps use call access := by
  refine ⟨keeps.uses, ?_, keeps.access, keeps.placed⟩
  intro k member
  rcases List.mem_append.mp member with old | new
  · exact keeps.calls k old
  · rw [List.mem_singleton.mp new]
    exact holds

end Invariant

end ScopeAtlas
