import ScopeAtlas.Proofs.Keys

namespace ScopeAtlas

namespace Scope

variable {mine theirs : Scope}

-- No file has seen both.
def Apart (mine theirs : Scope) : Prop := ∀ file, mine.isIn file = true → theirs.isIn file = true → False

theorem Apart.node {k l : Location} (apart : mine.Apart theirs) (here : mine.isIn k.file = true)
    (there : theirs.isIn l.file = true) : k.node ≠ l.node := by
  intro same
  have file : k.file = l.file := (Prod.mk.inj same).1
  exact apart l.file (file ▸ here) there

theorem isIn_of_mem {s : Scope} {l : Location} (member : l ∈ s.locations) : s.isIn l.file = true :=
  isIn_iff.mpr ⟨l, member, rfl⟩

theorem addLocationTo_eq_append {l : Location} {known : List Location} (fresh : l.node ∉ known.map Location.node) :
    addLocationTo l known = known ++ [l] := by
  induction known with
  | nil => rfl
  | cons first rest ih =>
    obtain ⟨other, fresh⟩ := not_or.mp (List.mem_cons.not.mp fresh)
    have differs : ¬ first.sameNode l = true := fun same => other (Location.sameNode_iff.mp same).symm
    rw [addLocationTo, if_neg differs, ih fresh, List.cons_append]

theorem foldl_addLocationTo {known found : List Location} (nodup : (found.map Location.node).Nodup)
    (fresh : ∀ l ∈ found, l.node ∉ known.map Location.node) :
    found.foldl (fun known l => addLocationTo l known) known = known ++ found := by
  induction found generalizing known with
  | nil => simp
  | cons l rest ih =>
    obtain ⟨unique, nodup⟩ := List.nodup_cons.mp nodup
    rw [List.foldl_cons, addLocationTo_eq_append (fresh l (by simp)), ih nodup, List.append_assoc, List.singleton_append]
    intro k member
    rw [List.map_append, List.mem_append, not_or]
    refine ⟨fresh k (by simp [member]), ?_⟩
    rw [List.map_singleton, List.mem_singleton]
    intro same
    exact unique (List.mem_map.mpr ⟨k, member, same⟩)

theorem Apart.locations (apart : mine.Apart theirs) (right : theirs.Sound) :
    (mine.unite theirs).locations = mine.locations ++ theirs.locations := by
  rw [unite_locations]
  refine foldl_addLocationTo right.nodes ?_
  intro l member listed
  obtain ⟨k, member', same⟩ := List.mem_map.mp listed
  exact apart.node (isIn_of_mem member') (isIn_of_mem member) same

theorem Apart.calls (apart : mine.Apart theirs) (left : mine.Sound) (right : theirs.Sound) (tidy : theirs.Tidy) :
    (mine.unite theirs).calls = mine.calls ++ theirs.calls := by
  rw [unite_calls, Call.addNew_eq]
  refine addUnknown_eq_append (fun _ _ => Location.sameNode_iff) tidy.calls ?_
  intro c member listed
  obtain ⟨d, member', same⟩ := List.mem_map.mp listed
  exact apart.node (left.calls d member') (right.calls c member) same

end Scope

namespace VariableTable

theorem sharesLocation_iff {v w : Variable} :
    v.sharesLocation w = true ↔ ∃ k ∈ v.locations, ∃ l ∈ w.locations, k.node = l.node := by
  simp [Variable.sharesLocation, Location.sameNode_iff]

theorem uniteInto_eq_append {v : Variable} {group : List Variable}
    (fresh : ∀ w ∈ group, w.sharesLocation v = false) : uniteInto v group = group ++ [v] := by
  induction group with
  | nil => rfl
  | cons w rest ih =>
    rw [uniteInto, if_neg (by simp [fresh w]), ih fun u member => fresh u (by simp [member]), List.cons_append]

theorem named_cons (key : String) (group : List Variable) (rest : VariableTable) (name : String) :
    named ((key, group) :: rest) name = if name = key then group else named rest name := by
  by_cases same : name = key
  · simp [named, same]
  · simp [named, List.lookup_cons, beq_eq_false_iff_ne.mpr same, same]

theorem named_cases (table : VariableTable) (name : String) : table.named name = [] ∨ (name, table.named name) ∈ table := by
  induction table with
  | nil => exact Or.inl rfl
  | cons entry rest ih =>
    rw [named_cons]
    split
    · rename_i same
      exact Or.inr (by simp [same])
    · exact ih.imp_right (List.mem_cons_of_mem _)

theorem mem_named {table : VariableTable} {name : String} {v : Variable} (member : v ∈ table.named name) :
    ∃ entry ∈ table, v ∈ entry.2 := by
  rcases table.named_cases name with none | listed
  · rw [none] at member
    cases member
  · exact ⟨_, listed, member⟩

theorem alter_congr {table : VariableTable} {name : String} {change change' : List Variable → List Variable}
    (same : change (table.named name) = change' (table.named name)) : table.alter name change = table.alter name change' := by
  induction table with
  | nil => exact congrArg (fun group => [(name, group)]) same
  | cons entry rest ih =>
    obtain ⟨key, group⟩ := entry
    rw [named_cons] at same
    unfold alter
    by_cases equal : key = name
    · rw [if_pos equal.symm] at same
      rw [if_pos equal, if_pos equal, same]
    · rw [if_neg (Ne.symm equal)] at same
      rw [if_neg equal, if_neg equal, ih same]

-- Variables that share no location with any of their name are simply added.
theorem foldl_unite_eq_add {table : VariableTable} {found : List Variable}
    (fresh : ∀ v ∈ found, ∀ w ∈ table.named v.name, w.sharesLocation v = false)
    (apart : found.Pairwise fun w v => w.name = v.name → w.sharesLocation v = false) :
    found.foldl (fun table v => table.unite v) table = found.foldl (fun table v => table.add v) table := by
  induction found generalizing table with
  | nil => rfl
  | cons v rest ih =>
    obtain ⟨first, apart⟩ := List.pairwise_cons.mp apart
    have added : table.unite v = table.add v := alter_congr (uniteInto_eq_append (fresh v (by simp)))
    rw [List.foldl_cons, List.foldl_cons, added]
    refine ih ?_ apart
    intro u member w listed
    rw [add, named_alter] at listed
    split at listed
    · rename_i same
      rcases List.mem_append.mp listed with old | new
      · exact fresh u (by simp [member]) w (same ▸ old)
      · rw [List.mem_singleton] at new
        exact new ▸ first u member (same ▸ rfl)
    · exact fresh u (by simp [member]) w listed

theorem named_foldl_add (table : VariableTable) (found : List Variable) (name : String) :
    (found.foldl (fun table v => table.add v) table).named name = table.named name ++ found.filter (·.name = name) := by
  induction found generalizing table with
  | nil => simp
  | cons v rest ih =>
    rw [List.foldl_cons, ih, add, named_alter]
    by_cases same : name = v.name
    · simp [same]
    · simp [same, Ne.symm same]

theorem toList_add_perm (table : VariableTable) (v : Variable) : (table.add v).toList.Perm (table.toList ++ [v]) := by
  unfold add toList
  induction table with
  | nil => exact List.Perm.refl _
  | cons entry rest ih =>
    obtain ⟨key, group⟩ := entry
    unfold alter
    split
    · simp only [List.flatMap_cons, List.append_assoc]
      exact (List.perm_append_comm).append_left group
    · simp only [List.flatMap_cons, List.append_assoc]
      exact ih.append_left group

theorem toList_foldl_add_perm (table : VariableTable) (found : List Variable) :
    (found.foldl (fun table v => table.add v) table).toList.Perm (table.toList ++ found) := by
  induction found generalizing table with
  | nil => simp
  | cons v rest ih =>
    rw [List.foldl_cons]
    refine (ih (table.add v)).trans (((toList_add_perm table v).append_right rest).trans ?_)
    rw [List.append_assoc, List.singleton_append]

theorem filter_toList {table : VariableTable} (nodup : (table.map Prod.fst).Nodup)
    (filed : ∀ entry ∈ table, ∀ v ∈ entry.2, v.name = entry.1) (name : String) :
    table.toList.filter (·.name = name) = table.named name := by
  induction table with
  | nil => rfl
  | cons entry rest ih =>
    obtain ⟨key, group⟩ := entry
    obtain ⟨unique, nodup⟩ := List.nodup_cons.mp nodup
    have here : ∀ v ∈ group, v.name = key := filed (key, group) (by simp)
    have later := ih nodup fun entry listed => filed entry (by simp [listed])
    have split : toList ((key, group) :: rest) = group ++ toList rest := rfl
    rw [split, List.filter_append, later]
    by_cases same : name = key
    · have all : group.filter (·.name = name) = group := List.filter_eq_self.mpr fun v member => by simp [here v member, same]
      have none : named rest name = [] := by
        rw [← later, List.filter_eq_nil_iff]
        intro v member
        obtain ⟨entry, listed, inside⟩ := mem_toList.mp member
        have other := filed entry (by simp [listed]) v inside
        simp only [decide_eq_true_eq]
        intro equal
        exact unique (List.mem_map.mpr ⟨entry, listed, by rw [← other, equal, same]⟩)
      rw [all, none, List.append_nil, named_cons, if_pos same]
    · have none : group.filter (·.name = name) = [] := by
        rw [List.filter_eq_nil_iff]
        intro v member
        simp [here v member, Ne.symm same]
      rw [none, List.nil_append, named_cons, if_neg same]

end VariableTable

namespace Scope

variable {mine theirs : Scope}

theorem Sound.filter_declared {s : Scope} (sound : s.Sound) (name : String) :
    s.declared.toList.filter (·.name = name) = s.declared.named name :=
  VariableTable.filter_toList sound.names (fun entry listed v member => (sound.declared entry listed v member).1) name

theorem Tidy.pairwise_declared {s : Scope} (tidy : s.Tidy) (sound : s.Sound) :
    s.declared.toList.Pairwise fun w v => w.name = v.name → w.sharesLocation v = false := by
  refine List.pairwise_flatMap.mpr ⟨?_, ?_⟩
  · intro entry listed
    obtain ⟨-, apart⟩ := List.nodup_flatMap.mp (tidy.declared entry listed)
    refine apart.imp ?_
    intro w v disjoint _
    rw [Bool.eq_false_iff]
    intro shared
    obtain ⟨k, member, l, member', equal⟩ := VariableTable.sharesLocation_iff.mp shared
    exact disjoint (List.mem_map_of_mem member) (equal ▸ List.mem_map_of_mem member')
  · -- variables of two groups have different names
    have names := List.pairwise_map.mp sound.names
    refine names.imp_of_mem ?_
    intro entry entry' listed listed' differ w member v member' same
    rw [(sound.declared entry listed w member).1, (sound.declared entry' listed' v member').1] at same
    exact (differ same).elim

-- A variable with one place, in a file that saw the scope.
def SeesOnce (s : Scope) (v : Variable) : Prop := ∃ l, v.locations = [l] ∧ s.isIn l.file = true

theorem Sound.seesOnce {s : Scope} {name : String} {v : Variable} (sound : s.Sound) (listed : v ∈ s.declared.named name) :
    s.SeesOnce v := by
  obtain ⟨entry, filed, member⟩ := VariableTable.mem_named listed
  exact (sound.declared entry filed v member).2

theorem Apart.variables {v w : Variable} (apart : mine.Apart theirs) (here : mine.SeesOnce w)
    (there : theirs.SeesOnce v) : w.sharesLocation v = false := by
  obtain ⟨k, only, seen⟩ := here
  obtain ⟨l, only', seen'⟩ := there
  rw [Bool.eq_false_iff]
  intro shared
  obtain ⟨k', first, l', second, same⟩ := VariableTable.sharesLocation_iff.mp shared
  rw [only, List.mem_singleton] at first
  rw [only', List.mem_singleton] at second
  exact apart.node (first ▸ seen) (second ▸ seen') same

theorem Apart.unite_declared_eq (apart : mine.Apart theirs) (left : mine.Sound) (right : theirs.Sound) (tidy : theirs.Tidy) :
    (mine.unite theirs).declared = theirs.declared.toList.foldl (fun table v => table.add v) mine.declared := by
  rw [unite_declared]
  refine VariableTable.foldl_unite_eq_add ?_ (tidy.pairwise_declared right)
  intro v member w listed
  obtain ⟨entry, filed, inside⟩ := VariableTable.mem_toList.mp member
  exact apart.variables (left.seesOnce listed) (right.declared entry filed v inside).2

theorem Apart.declared (apart : mine.Apart theirs) (left : mine.Sound) (right : theirs.Sound) (tidy : theirs.Tidy)
    (name : String) :
    (mine.unite theirs).declared.named name = mine.declared.named name ++ theirs.declared.named name := by
  rw [apart.unite_declared_eq left right tidy, VariableTable.named_foldl_add, right.filter_declared]

end Scope

theorem Parameter.uniteAll_locations {left right : List Parameter}
    (same : left.map (·.declaredType.name) = right.map (·.declaredType.name))
    (fresh : ∀ p ∈ left, ∀ q ∈ right, Location.addNew p.locations q.locations = p.locations ++ q.locations) :
    (uniteAll left right).map (·.locations) = List.zipWith (fun p q => p.locations ++ q.locations) left right := by
  induction left generalizing right with
  | nil => cases right <;> rfl
  | cons p left ih =>
    cases right with
    | nil => cases same
    | cons q right =>
      obtain ⟨first, rest⟩ := List.cons.inj same
      rw [uniteAll, if_pos first, List.map_cons, unite_locations, fresh p (by simp) q (by simp)]
      rw [ih rest fun p' member q' member' => fresh p' (by simp [member]) q' (by simp [member'])]
      rfl

section Ranks

variable {mine theirs : Scope}

theorem Location.compare_swap (a b : Location) : (a.compare b).swap = b.compare a := by
  simp only [Location.compare, Ordering.swap_then, ← Std.OrientedOrd.eq_swap]

theorem Location.file_eq_of_compare {a b : Location} (same : a.compare b = .eq) : a.file = b.file := by
  rw [Location.compare, Ordering.then_eq_eq] at same
  exact Std.LawfulEqOrd.eq_of_compare same.1

theorem Location.mem_of_min? {l : Location} {locations : List Location} (least : Location.min? locations = some l) :
    l ∈ locations := by
  cases locations with
  | nil => cases least
  | cons first rest =>
    cases least
    refine List.foldlRecOn rest _ (motive := fun least => least ∈ first :: rest) (by simp) ?_
    intro least listed l member
    split
    · simp [member]
    · exact listed

theorem Location.min?_eq_none {locations : List Location} : Location.min? locations = none ↔ locations = [] := by
  cases locations <;> simp [Location.min?]

theorem DefinitionRank.first_ofLocations {locations : List Location} (some : locations ≠ []) :
    ∃ l ∈ locations, (ofLocations locations).first = .some l := by
  unfold ofLocations
  cases definitions : Location.min? (locations.filter (!·.isReference)) with
  | some l => exact ⟨l, (List.mem_filter.mp (Location.mem_of_min? definitions)).1, rfl⟩
  | none =>
    obtain ⟨l, least⟩ := Option.ne_none_iff_exists'.mp fun none => some (Location.min?_eq_none.mp none)
    exact ⟨l, Location.mem_of_min? least, least⟩

theorem DefinitionRank.compare_swap (a b : DefinitionRank) : (a.compare b).swap = b.compare a := by
  have first : (compareFirst a.first b.first).swap = compareFirst b.first a.first := by
    cases a.first <;> cases b.first <;> simp [compareFirst, Location.compare_swap]
  simp only [DefinitionRank.compare, Ordering.swap_then, ← Std.OrientedOrd.eq_swap, first]

def Scope.rank (s : Scope) : DefinitionRank := .ofLocations s.locations

-- Of two scopes seen in different files one is the better defined.
theorem Scope.Apart.rank_ne (apart : mine.Apart theirs) (left : mine.locations ≠ []) (right : theirs.locations ≠ []) :
    mine.rank.compare theirs.rank ≠ .eq := by
  intro same
  obtain ⟨k, member, first⟩ := DefinitionRank.first_ofLocations left
  obtain ⟨l, member', first'⟩ := DefinitionRank.first_ofLocations right
  rw [DefinitionRank.compare, Ordering.then_eq_eq, Ordering.then_eq_eq] at same
  have least := same.2.2
  rw [Scope.rank, Scope.rank, first, first'] at least
  have file := Location.file_eq_of_compare least
  exact apart l.file (file ▸ Scope.isIn_of_mem member) (Scope.isIn_of_mem member')

theorem Scope.Apart.rank_cases (apart : mine.Apart theirs) (left : mine.locations ≠ []) (right : theirs.locations ≠ []) :
    (mine.rank.compare theirs.rank = .lt ∧ mine.yieldsTo theirs = false ∧ theirs.yieldsTo mine = true) ∨
      (theirs.rank.compare mine.rank = .lt ∧ mine.yieldsTo theirs = true ∧ theirs.yieldsTo mine = false) := by
  have differs := apart.rank_ne left right
  have swapped := DefinitionRank.compare_swap mine.rank theirs.rank
  have here : mine.yieldsTo theirs = (theirs.rank.compare mine.rank).isLT := rfl
  have there : theirs.yieldsTo mine = (mine.rank.compare theirs.rank).isLT := rfl
  rw [here, there, ← swapped]
  cases order : mine.rank.compare theirs.rank with
  | lt => simp
  | gt => simp
  | eq => exact (differs order).elim

end Ranks

namespace Scope

variable {mine theirs united : Scope}

-- What a scope has taken over from two others: every list of the first followed by that of the second, the parameters
-- position by position, and the sort of a type from the better defined of the two.
structure Combines (mine theirs united : Scope) : Prop where
  locations : united.locations = mine.locations ++ theirs.locations
  declared : ∀ name, united.declared.named name = mine.declared.named name ++ theirs.declared.named name
  calls : united.calls = mine.calls ++ theirs.calls
  parameters : ∀ m m', mine.kind = .method m → theirs.kind = .method m' → m.parameters.length = m'.parameters.length ∧
    ∃ w, united.kind = .method w ∧
      w.parameters.map (·.locations) = List.zipWith (fun p q => p.locations ++ q.locations) m.parameters m'.parameters
  type : ∀ t t', mine.kind = .type t → theirs.kind = .type t' → ∃ w, united.kind = .type w ∧
    ((mine.rank.compare theirs.rank = .lt ∧ w.kind = t.kind) ∨ (theirs.rank.compare mine.rank = .lt ∧ w.kind = t'.kind))

theorem Apart.parameters {m m' : MethodDefinition} (apart : mine.Apart theirs) (left : mine.Sound) (right : theirs.Sound)
    (here : mine.kind = .method m) (there : theirs.kind = .method m') :
    ∀ p ∈ m.parameters, ∀ q ∈ m'.parameters, Location.addNew p.locations q.locations = p.locations ++ q.locations := by
  intro p member q member'
  obtain ⟨-, seen⟩ := left.parameters m here p member
  obtain ⟨nodes, seen'⟩ := right.parameters m' there q member'
  refine addUnknown_eq_append (fun _ _ => Location.sameNode_iff) nodes ?_
  intro l listed known
  obtain ⟨k, listed', same⟩ := List.mem_map.mp known
  exact apart.node (seen k listed') (seen' l listed) same

theorem Apart.combines (apart : mine.Apart theirs) (left : mine.Sound) (right : theirs.Sound) (tidy : theirs.Tidy)
    (same : mine.key = theirs.key) (seen : mine.isGlobal = true ∨ mine.locations ≠ [] ∧ theirs.locations ≠ []) :
    mine.Combines theirs (mine.unite theirs) where
  locations := apart.locations right
  declared := apart.declared left right tidy
  calls := apart.calls left right tidy
  parameters m m' here there := by
    have names : m.parameterTypeNames = m'.parameterTypeNames := by
      simp only [key, here, there, Key.method.injEq] at same
      exact same.2.2.2
    refine ⟨by simpa [MethodDefinition.parameterTypeNames] using congrArg List.length names, ?_⟩
    refine ⟨m.unite (mine.yieldsTo theirs) m', by rw [unite_kind, here, there]; rfl, ?_⟩
    exact Parameter.uniteAll_locations names (apart.parameters left right here there)
  type t t' here there := by
    refine ⟨t.unite (mine.yieldsTo theirs) t', by rw [unite_kind, here, there]; rfl, ?_⟩
    obtain ⟨some, some'⟩ : mine.locations ≠ [] ∧ theirs.locations ≠ [] := by
      rcases seen with global | seen
      · simp [isGlobal, here] at global
      · exact seen
    rcases apart.rank_cases some some' with ⟨lower, first, -⟩ | ⟨lower, first, -⟩
    · exact Or.inl ⟨lower, by simp [TypeDefinition.unite, first]⟩
    · exact Or.inr ⟨lower, by simp [TypeDefinition.unite, first]⟩

end Scope

end ScopeAtlas
