import ScopeAtlas.Proofs.Arena
import ScopeAtlas.Proofs.ParentTables

namespace ScopeAtlas

namespace VariableTable

variable {table : VariableTable} {name : String} {change : List Variable → List Variable} {v : Variable}

theorem mem_toList : v ∈ table.toList ↔ ∃ entry ∈ table, v ∈ entry.2 := List.mem_flatMap

theorem mem_alter {entry : String × List Variable} (member : entry ∈ table.alter name change) :
    entry ∈ table ∨ entry = (name, change []) ∨ ∃ group, (name, group) ∈ table ∧ entry = (name, change group) := by
  induction table with
  | nil => exact Or.inr (Or.inl (List.mem_singleton.mp member))
  | cons first rest ih =>
    obtain ⟨key, group⟩ := first
    unfold alter at member
    split at member
    · rename_i equal
      subst equal
      rcases List.mem_cons.mp member with here | later
      · exact Or.inr (Or.inr ⟨group, List.mem_cons_self, here⟩)
      · exact Or.inl (List.mem_cons_of_mem _ later)
    · rcases List.mem_cons.mp member with here | later
      · exact Or.inl (List.mem_cons.mpr (Or.inl here))
      · rcases ih later with old | new | ⟨group', listed, changed⟩
        · exact Or.inl (List.mem_cons_of_mem _ old)
        · exact Or.inr (Or.inl new)
        · exact Or.inr (Or.inr ⟨group', List.mem_cons_of_mem _ listed, changed⟩)

theorem forall_alter {P : String → List Variable → Prop} (each : ∀ entry ∈ table, P entry.1 entry.2)
    (new : P name (change [])) (old : ∀ group, P name group → P name (change group)) :
    ∀ entry ∈ table.alter name change, P entry.1 entry.2 := by
  intro entry member
  rcases mem_alter member with kept | rfl | ⟨group, listed, rfl⟩
  · exact each entry kept
  · exact new
  · exact old group (each _ listed)

theorem nodup_alter (nodup : (table.map Prod.fst).Nodup) : ((table.alter name change).map Prod.fst).Nodup := by
  have listed : ∀ (table : VariableTable) (x : String),
      x ∈ (table.alter name change).map Prod.fst → x = name ∨ x ∈ table.map Prod.fst := by
    intro table x
    induction table with
    | nil => simp [alter]
    | cons first rest ih =>
      unfold alter
      split
      · intro member
        exact Or.inr member
      · intro member
        rcases List.mem_cons.mp member with rfl | later
        · exact Or.inr (by simp)
        · rcases ih later with rfl | old
          · exact Or.inl rfl
          · exact Or.inr (List.mem_cons_of_mem _ old)
  induction table with
  | nil => simp [alter]
  | cons first rest ih =>
    obtain ⟨fresh, nodupRest⟩ := List.nodup_cons.mp nodup
    unfold alter
    split
    · exact nodup
    · rename_i differs
      refine List.nodup_cons.mpr ⟨?_, ih nodupRest⟩
      intro member
      rcases listed rest first.1 member with equal | old
      · exact differs equal
      · exact fresh old

theorem named_alter (n : String) :
    (table.alter name change).named n = if n = name then change (table.named name) else table.named n := by
  induction table with
  | nil =>
    by_cases equal : n = name
    · simp [alter, named, equal]
    · have differs : (n == name) = false := by simpa using equal
      simp [alter, named, equal, List.lookup, differs]
  | cons first rest ih =>
    obtain ⟨key, group⟩ := first
    unfold alter
    by_cases same : key = name
    · subst same
      by_cases equal : n = key
      · simp [named, equal]
      · have differs : (n == key) = false := by simpa using equal
        simp [named, equal, List.lookup, differs]
    · rw [if_neg same]
      by_cases equal : n = key
      · subst equal
        simp [named, same]
      · have differs : (n == key) = false := by simpa using equal
        have differs' : (name == key) = false := by simpa using fun equal : name = key => same equal.symm
        simpa [named, List.lookup, differs, differs'] using ih

-- Each variable of a group that took in another was there before, or is the other, or both in one.
theorem forall_uniteInto {holds : Variable → Prop} {group : List Variable} (each : ∀ w ∈ group, holds w)
    (this : holds v)
    (both : ∀ w ∈ group, w.sharesLocation v = true → holds { w with
      locations := Location.addNew w.locations v.locations, declaredType := w.declaredType <|> v.declaredType }) :
    ∀ w ∈ uniteInto v group, holds w := by
  induction group with
  | nil =>
    intro w member
    rw [List.mem_singleton.mp member]
    exact this
  | cons known rest ih =>
    intro w member
    unfold uniteInto at member
    split at member
    · rename_i shared
      rcases List.mem_cons.mp member with rfl | later
      · exact both known List.mem_cons_self shared
      · exact each w (List.mem_cons_of_mem _ later)
    · rcases List.mem_cons.mp member with rfl | later
      · exact each w List.mem_cons_self
      · exact ih (fun w listed => each w (List.mem_cons_of_mem _ listed))
          (fun w listed => both w (List.mem_cons_of_mem _ listed)) w later

theorem uniteInto_ne_nil {group : List Variable} : uniteInto v group ≠ [] := by
  cases group with
  | nil => simp [uniteInto]
  | cons known rest =>
    unfold uniteInto
    split <;> simp

theorem forall_unite {P : Variable → Prop} (left : ∀ w ∈ table.toList, P w) (right : P v)
    (both : ∀ w, P w → w.sharesLocation v = true → P { w with
      locations := Location.addNew w.locations v.locations, declaredType := w.declaredType <|> v.declaredType }) :
    ∀ w ∈ (table.unite v).toList, P w := by
  have each : ∀ entry ∈ table.unite v, ∀ w ∈ entry.2, P w := by
    refine forall_alter (P := fun _ group => ∀ w ∈ group, P w) ?_ ?_ ?_
    · intro entry listed w member
      exact left w (mem_toList.mpr ⟨entry, listed, member⟩)
    · intro w member
      rw [List.mem_singleton.mp member]
      exact right
    · intro group all
      exact forall_uniteInto all right fun w member => both w (all w member)
  intro w member
  obtain ⟨entry, listed, inside⟩ := mem_toList.mp member
  exact each entry listed w inside

theorem mem_add {w : Variable} (member : w ∈ (table.add v).toList) : w ∈ table.toList ∨ w = v := by
  obtain ⟨entry, listed, inside⟩ := mem_toList.mp member
  rcases mem_alter listed with kept | rfl | ⟨group, known, rfl⟩
  · exact Or.inl (mem_toList.mpr ⟨entry, kept, inside⟩)
  · exact Or.inr (List.mem_singleton.mp inside)
  · rcases List.mem_append.mp inside with old | new
    · exact Or.inl (mem_toList.mpr ⟨_, known, old⟩)
    · exact Or.inr (List.mem_singleton.mp new)

theorem mem_withdraw {file : String} {entry : String × List Variable}
    (listed : entry ∈ table.withdraw file) :
    ∃ entry' ∈ table, entry.1 = entry'.1 ∧ entry.2 =
      (entry'.2.map fun v => { v with locations := v.locations.filter (!·.isIn file) }).filter (!·.locations.isEmpty) := by
  obtain ⟨entry', listed', rfl⟩ := List.mem_map.mp (List.mem_filter.mp listed).1
  exact ⟨entry', listed', rfl, rfl⟩

theorem withdraw_names_sublist (file : String) :
    ((table.withdraw file).map Prod.fst).Sublist (table.map Prod.fst) := by
  refine (List.filter_sublist.map _).trans ?_
  rw [List.map_map]
  exact List.Sublist.refl _

end VariableTable

namespace ParentTable

variable {table : ParentTable} {use : TypeUse}

theorem forall_add {holds : ParentType → Prop} (each : ∀ p ∈ table, holds p)
    (new : holds { use, written := use.location.toList })
    (both : ∀ p ∈ table, p.use.sameQualifiedName use = true →
      holds { p with written := Location.addNew p.written use.location.toList }) :
    ∀ p ∈ table.add use, holds p := by
  induction table with
  | nil =>
    intro p member
    rw [List.mem_singleton.mp member]
    exact new
  | cons known rest ih =>
    intro p member
    unfold add at member
    split at member
    · rename_i same
      rcases List.mem_cons.mp member with rfl | later
      · exact both known List.mem_cons_self same
      · exact each p (List.mem_cons_of_mem _ later)
    · rcases List.mem_cons.mp member with rfl | later
      · exact each p List.mem_cons_self
      · exact ih (fun p listed => each p (List.mem_cons_of_mem _ listed))
          (fun p listed => both p (List.mem_cons_of_mem _ listed)) p later

theorem mem_usesOf {p : ParentType} (member : use ∈ usesOf p) :
    (p.locations = [] ∧ use = p.use) ∨ ∃ l ∈ p.locations, use = { p.use with location := some l } := by
  unfold usesOf at member
  split at member
  · rename_i none
    exact Or.inl ⟨none, List.mem_singleton.mp member⟩
  · obtain ⟨l, listed, rfl⟩ := List.mem_map.mp member
    exact Or.inr ⟨l, listed, rfl⟩

end ParentTable

namespace Parameter

variable (mine theirs : Parameter)

@[simp] theorem unite_method : (mine.unite theirs).method = mine.method := by
  unfold unite
  rfl

@[simp] theorem unite_declaredType : (mine.unite theirs).declaredType = mine.declaredType := by
  unfold unite
  rfl

@[simp] theorem unite_position : (mine.unite theirs).position = mine.position := by
  unfold unite
  rfl

@[simp] theorem unite_locations :
    (mine.unite theirs).locations = Location.addNew mine.locations theirs.locations := by
  unfold unite
  rfl

theorem unite_name_cases : (mine.unite theirs).name = mine.name ∨ (mine.unite theirs).name = theirs.name := by
  unfold unite
  dsimp only
  split
  · exact Or.inr rfl
  · exact Or.inl rfl

variable {left right : List Parameter}

theorem forall_uniteAll {holds : Parameter → Prop} (each : ∀ p ∈ left, holds p)
    (both : ∀ p ∈ left, ∀ q ∈ right, holds (p.unite q)) : ∀ p ∈ uniteAll left right, holds p := by
  induction left generalizing right with
  | nil =>
    intro p member
    cases right <;> cases member
  | cons mine left ih =>
    cases right with
    | nil => exact each
    | cons theirs right =>
      intro p member
      rcases List.mem_cons.mp member with rfl | later
      · split
        · exact both mine List.mem_cons_self theirs List.mem_cons_self
        · exact each mine List.mem_cons_self
      · exact ih (fun p listed => each p (List.mem_cons_of_mem _ listed))
          (fun p listed q listed' => both p (List.mem_cons_of_mem _ listed) q (List.mem_cons_of_mem _ listed')) p later

theorem map_uniteAll {β : Type} {view : Parameter → β} (kept : ∀ p q, view (p.unite q) = view p) :
    (uniteAll left right).map view = left.map view := by
  induction left generalizing right with
  | nil => cases right <;> rfl
  | cons mine left ih =>
    cases right with
    | nil => rfl
    | cons theirs right =>
      rw [uniteAll, List.map_cons, List.map_cons, ih]
      split
      · rw [kept]
      · rfl

theorem uniteAll_positions : (uniteAll left right).map (·.position) = left.map (·.position) :=
  map_uniteAll unite_position

end Parameter

namespace Scope

variable (mine theirs : Scope)

@[simp] theorem unite_name : (mine.unite theirs).name = mine.name := by
  unfold unite
  rfl

@[simp] theorem unite_locations :
    (mine.unite theirs).locations = theirs.locations.foldl (fun known l => addLocationTo l known) mine.locations := by
  unfold unite
  rfl

@[simp] theorem unite_declared :
    (mine.unite theirs).declared = theirs.declared.toList.foldl (fun table v => table.unite v) mine.declared := by
  unfold unite
  rfl

@[simp] theorem unite_calls : (mine.unite theirs).calls = Call.addNew mine.calls theirs.calls := by
  unfold unite
  rfl

@[simp] theorem unite_access :
    (mine.unite theirs).access =
      if theirs.access ≠ .unstated ∧ (mine.yieldsTo theirs = true ∨ mine.access = .unstated) then theirs.access
      else mine.access := by
  unfold unite
  rfl

@[simp] theorem unite_kind :
    (mine.unite theirs).kind = mine.kind.unite (mine.yieldsTo theirs) theirs.kind := by
  unfold unite
  rfl

end Scope

section Kinds

variable {theirsFirst : Bool} {mine theirs : ScopeKind}

theorem preferred_eq_none {α : Type} {x y : Option α} :
    preferred theirsFirst x y = none ↔ x = none ∧ y = none := by
  cases theirsFirst <;> cases x <;> cases y <;> simp [preferred]

theorem preferred_cases {α : Type} {left right : Option α} {x : α} (chosen : preferred theirsFirst left right = some x) :
    left = some x ∨ right = some x := by
  unfold preferred at chosen
  split at chosen
  · rcases (Option.orElse_eq_some _ _ _).mp chosen with here | ⟨-, there⟩
    · exact Or.inr here
    · exact Or.inl there
  · rcases (Option.orElse_eq_some _ _ _).mp chosen with here | ⟨-, there⟩
    · exact Or.inl here
    · exact Or.inr there

theorem ScopeKind.unite_eq_method {m : MethodDefinition} (united : mine.unite theirsFirst theirs = .method m) :
    ∃ d, mine = .method d ∧ (m = d ∨ ∃ d', theirs = .method d' ∧ m = d.unite theirsFirst d') := by
  cases mine with
  | block => cases united
  | space isGlobal => cases theirs <;> cases united
  | type t => cases theirs <;> cases united
  | method d =>
    refine ⟨d, rfl, ?_⟩
    cases theirs with
    | method d' =>
      cases united
      exact Or.inr ⟨d', rfl, rfl⟩
    | block => cases united; exact Or.inl rfl
    | space isGlobal => cases united; exact Or.inl rfl
    | type t => cases united; exact Or.inl rfl

theorem ScopeKind.unite_eq_block (united : mine.unite theirsFirst theirs = .block) : mine = .block := by
  cases mine with
  | block => rfl
  | space isGlobal => cases theirs <;> cases united
  | type t => cases theirs <;> cases united
  | method m => cases theirs <;> cases united

theorem ScopeKind.unite_eq_type {t : TypeDefinition} (united : mine.unite theirsFirst theirs = .type t) :
    ∃ d, mine = .type d ∧ (t = d ∨ ∃ d', theirs = .type d' ∧ t = d.unite theirsFirst d') := by
  cases mine with
  | block => cases united
  | space isGlobal => cases theirs <;> cases united
  | method m => cases theirs <;> cases united
  | type d =>
    refine ⟨d, rfl, ?_⟩
    cases theirs with
    | type d' =>
      cases united
      exact Or.inr ⟨d', rfl, rfl⟩
    | block => cases united; exact Or.inl rfl
    | space isGlobal => cases united; exact Or.inl rfl
    | method m => cases united; exact Or.inl rfl

variable {kind : ScopeKind} {f : ScopeId → ScopeId} {file : String}

theorem ScopeKind.rebind_eq_method {m : MethodDefinition} (renamed : kind.rebind f = .method m) :
    ∃ d, kind = .method d ∧ m = d.rebind f := by
  cases kind <;> cases renamed
  exact ⟨_, rfl, rfl⟩

theorem ScopeKind.rebind_eq_type {t : TypeDefinition} (renamed : kind.rebind f = .type t) :
    ∃ d, kind = .type d ∧ t = d.rebind f := by
  cases kind <;> cases renamed
  exact ⟨_, rfl, rfl⟩

theorem Scope.withdrawKind_eq_method {m : MethodDefinition} (left : withdrawKind file kind = .method m) :
    ∃ d, kind = .method d ∧ m = { d with
      parameters := d.parameters.map fun p => { p with locations := p.locations.filter (!·.isIn file) } } := by
  cases kind <;> cases left
  exact ⟨_, rfl, rfl⟩

theorem Scope.withdrawKind_eq_type {t : TypeDefinition} (left : withdrawKind file kind = .type t) :
    ∃ d, kind = .type d ∧ t = { d with parentColumns := d.parentColumns.withdraw file } := by
  cases kind <;> cases left
  exact ⟨_, rfl, rfl⟩

end Kinds

-- The element of the source text that a location denotes.
def Location.node (l : Location) : String × String := (l.file, l.position)

theorem Location.sameNode_iff {a b : Location} : a.sameNode b = true ↔ a.node = b.node := by
  simp [Location.sameNode, Location.node]

def addUnknown {α : Type} (same : α → α → Bool) (known found : List α) : List α :=
  found.foldl (fun known x => if known.any (same · x) then known else known ++ [x]) known

theorem Location.addNew_eq (known found : List Location) :
    Location.addNew known found = addUnknown Location.sameNode known found := rfl

theorem Call.addNew_eq (known found : List Call) :
    Call.addNew known found = addUnknown (fun a b => a.location.sameNode b.location) known found := rfl

section Unknown

variable {α κ : Type} {same : α → α → Bool} {key : α → κ} {known found : List α}

theorem mem_addUnknown {x : α} (member : x ∈ addUnknown same known found) : x ∈ known ∨ x ∈ found := by
  induction found generalizing known with
  | nil => exact Or.inl member
  | cons first rest ih =>
    unfold addUnknown at member
    rw [List.foldl_cons] at member
    split at member
    · rcases ih member with old | new
      · exact Or.inl old
      · exact Or.inr (List.mem_cons_of_mem _ new)
    · rcases ih member with old | new
      · rcases List.mem_append.mp old with old | here
        · exact Or.inl old
        · exact Or.inr (List.mem_cons.mpr (Or.inl (List.mem_singleton.mp here)))
      · exact Or.inr (List.mem_cons_of_mem _ new)

theorem mem_addUnknown_left {x : α} (member : x ∈ known) : x ∈ addUnknown same known found := by
  induction found generalizing known with
  | nil => exact member
  | cons first rest ih =>
    unfold addUnknown
    rw [List.foldl_cons]
    split
    · exact ih member
    · exact ih (List.mem_append_left _ member)

theorem addUnknown_ne_nil (some : known ≠ []) : addUnknown same known found ≠ [] := by
  obtain ⟨x, member⟩ := List.exists_mem_of_ne_nil _ some
  exact List.ne_nil_of_mem (mem_addUnknown_left member)

theorem head?_addUnknown (some : known ≠ []) : (addUnknown same known found).head? = known.head? := by
  induction found generalizing known with
  | nil => rfl
  | cons first rest ih =>
    unfold addUnknown
    rw [List.foldl_cons]
    split
    · exact ih some
    · exact (ih (by simp)).trans (List.head?_append_of_ne_nil _ some)

theorem nodup_addUnknown (sound : ∀ a b, same a b = true ↔ key a = key b) (nodup : (known.map key).Nodup) :
    ((addUnknown same known found).map key).Nodup := by
  induction found generalizing known with
  | nil => exact nodup
  | cons first rest ih =>
    unfold addUnknown
    rw [List.foldl_cons]
    split
    · exact ih nodup
    · rename_i fresh
      refine ih ?_
      rw [List.map_append, List.nodup_append]
      refine ⟨nodup, by simp, ?_⟩
      intro x old y new equal
      obtain ⟨a, listed, rfl⟩ := List.mem_map.mp old
      simp only [List.map_cons, List.map_nil, List.mem_singleton] at new
      exact fresh (List.any_eq_true.mpr ⟨a, listed, (sound a first).mpr (equal.trans new)⟩)

theorem addUnknown_eq_append (sound : ∀ a b, same a b = true ↔ key a = key b) (nodup : (found.map key).Nodup)
    (fresh : ∀ x ∈ found, key x ∉ known.map key) : addUnknown same known found = known ++ found := by
  induction found generalizing known with
  | nil => simp [addUnknown]
  | cons first rest ih =>
    obtain ⟨unique, nodup⟩ := List.nodup_cons.mp nodup
    have unknown : known.any (same · first) = false := by
      rw [List.any_eq_false]
      intro a listed equal
      exact fresh first List.mem_cons_self (List.mem_map.mpr ⟨a, listed, (sound a first).mp equal⟩)
    have later := @ih (known ++ [first]) nodup (by
      intro x member
      rw [List.map_append, List.mem_append, not_or]
      refine ⟨fresh x (List.mem_cons_of_mem _ member), ?_⟩
      intro equal
      exact unique (List.mem_map.mpr ⟨x, member, by simpa using equal⟩))
    unfold addUnknown at later ⊢
    rw [List.foldl_cons, unknown]
    simpa using later

theorem mem_keys_addUnknown (sound : ∀ a b, same a b = true ↔ key a = key b) {x : α} (member : x ∈ found) :
    key x ∈ (addUnknown same known found).map key := by
  induction found generalizing known with
  | nil => cases member
  | cons first rest ih =>
    unfold addUnknown
    rw [List.foldl_cons]
    rcases List.mem_cons.mp member with rfl | later
    · have listed : ∃ a ∈ (if known.any (same · x) then known else known ++ [x]), key a = key x := by
        split
        · rename_i old
          obtain ⟨a, listed, equal⟩ := List.any_eq_true.mp old
          exact ⟨a, listed, (sound a x).mp equal⟩
        · exact ⟨x, by simp, rfl⟩
      obtain ⟨a, listed, equal⟩ := listed
      exact List.mem_map.mpr ⟨a, mem_addUnknown_left listed, equal⟩
    · exact ih later

-- Where what has one key is one and the same, nothing is left out.
theorem mem_addUnknown_iff (sound : ∀ a b, same a b = true ↔ key a = key b)
    (agree : ∀ x ∈ known ++ found, ∀ y ∈ known ++ found, key x = key y → x = y) {x : α} :
    x ∈ addUnknown same known found ↔ x ∈ known ∨ x ∈ found := by
  refine ⟨mem_addUnknown, ?_⟩
  rintro (old | new)
  · exact mem_addUnknown_left old
  · obtain ⟨y, listed, equal⟩ := List.mem_map.mp (@mem_keys_addUnknown _ _ same key known found sound x new)
    have among : y ∈ known ++ found := List.mem_append.mpr (mem_addUnknown listed)
    rw [← agree y among x (by simp [new]) equal]
    exact listed

end Unknown

-- What shows of a use: its qualified name, and how it is written.
def TypeUse.face (u : TypeUse) : (String × List String) × String := ((u.name, u.qualifierNames), u.render)

theorem TypeUse.face_relocate (u : TypeUse) (location : Option Location) :
    ({ u with location } : TypeUse).face = u.face := by
  cases u
  rfl

theorem TypeUse.relocate_eq_self {u : TypeUse} {location : Option Location} (stands : u.location = location) :
    ({ u with location } : TypeUse) = u := by
  subst stands
  cases u
  rfl

namespace ParentTable

def faces (table : ParentTable) : List ((String × List String) × String) := table.map fun p => p.use.face

def sameName (a b : (String × List String) × String) : Bool := a.1 == b.1

theorem sameName_iff (a b : (String × List String) × String) : sameName a b = true ↔ a.1 = b.1 := beq_iff_eq

theorem sameQualifiedName_iff {u v : TypeUse} : u.sameQualifiedName v = true ↔ u.face.1 = v.face.1 := by
  simp [TypeUse.sameQualifiedName, TypeUse.face]

theorem faces_add (table : ParentTable) (use : TypeUse) :
    (table.add use).faces = addUnknown sameName table.faces [use.face] := by
  induction table with
  | nil => rfl
  | cons p rest ih =>
    unfold add
    by_cases same : p.use.sameQualifiedName use = true
    · have equal := (sameName_iff p.use.face use.face).mpr (sameQualifiedName_iff.mp same)
      simp [same, faces, addUnknown, equal]
    · have differs : sameName p.use.face use.face = false := by
        rw [Bool.eq_false_iff]
        exact fun equal => same (sameQualifiedName_iff.mpr ((sameName_iff _ _).mp equal))
      rw [if_neg same]
      have later : faces (p :: add use rest) = p.use.face :: addUnknown sameName (faces rest) [use.face] := by
        rw [← ih]
        rfl
      rw [later]
      simp only [addUnknown, faces, List.foldl_cons, List.foldl_nil, List.map_cons, List.any_cons, differs, Bool.false_or]
      split <;> rfl

theorem faces_foldl_add (uses : List TypeUse) (table : ParentTable) :
    (uses.foldl (fun table use => table.add use) table).faces = addUnknown sameName table.faces (uses.map TypeUse.face) := by
  induction uses generalizing table with
  | nil => rfl
  | cons use rest ih => rw [List.foldl_cons, ih, faces_add]; rfl

theorem nodup_foldl_add {table : ParentTable} (uses : List TypeUse) (nodup : (table.faces.map Prod.fst).Nodup) :
    ((uses.foldl (fun table use => table.add use) table).faces.map Prod.fst).Nodup := by
  rw [faces_foldl_add]
  exact nodup_addUnknown sameName_iff nodup

theorem faces_withdraw_sublist (file : String) (table : ParentTable) : (table.withdraw file).faces.Sublist table.faces := by
  induction table with
  | nil => exact List.Sublist.refl _
  | cons p rest ih =>
    have kept : ∀ q, withdrawOne file p = some q → q.use.face = p.use.face := by
      intro q left
      unfold withdrawOne at left
      split at left
      · cases left
        rfl
      · split at left
        · cases left
        · cases left
          dsimp only
          split
          · exact p.use.face_relocate _
          · rfl
    unfold withdraw at ih ⊢
    cases one : withdrawOne file p with
    | none =>
      rw [List.filterMap_cons_none one]
      exact ih.cons p.use.face
    | some q =>
      rw [List.filterMap_cons_some one]
      unfold faces at ih ⊢
      rw [List.map_cons, List.map_cons, kept q one]
      exact ih.cons_cons _

end ParentTable

-- All places of a parent are listed, each once, in files that `seen` admits; its use stands at the first of them.
structure ParentType.Placed (seen : String → Prop) (p : ParentType) : Prop where
  written : p.written ≠ []
  nodes : (p.written.map Location.node).Nodup
  first : p.use.location = p.written.head?
  within : ∀ l ∈ p.written, seen l.file

section Places

variable {seen wider : String → Prop} {p : ParentType} {table other : ParentTable} {use : TypeUse} {l : Location}

theorem ParentType.Placed.mono (placed : p.Placed seen) (widen : ∀ file, seen file → wider file) : p.Placed wider :=
  ⟨placed.written, placed.nodes, placed.first, fun l member => widen _ (placed.within l member)⟩

theorem ParentType.Placed.locations (placed : p.Placed seen) : p.locations = p.written := by
  unfold ParentType.locations
  rw [if_neg]
  simpa using placed.written

namespace ParentTable

theorem usesOf_of_placed (placed : p.Placed seen) :
    usesOf p = p.written.map fun l => { p.use with location := some l } := by
  unfold usesOf
  rw [placed.locations]
  split
  · rename_i none
    exact absurd none placed.written
  · rfl

theorem placed_add (each : ∀ p ∈ table, p.Placed seen) (stands : use.location = some l) (inside : seen l.file) :
    ∀ p ∈ table.add use, p.Placed seen := by
  refine forall_add each ?_ ?_
  · rw [stands]
    exact ⟨by simp, by simp, stands, by simpa using inside⟩
  · intro p member _
    obtain ⟨written, nodes, first, within⟩ := each p member
    rw [stands]
    refine ⟨addUnknown_ne_nil written, nodup_addUnknown (fun _ _ => Location.sameNode_iff) nodes, ?_, ?_⟩
    · exact first.trans (head?_addUnknown written).symm
    · intro k listed
      rcases mem_addUnknown listed with old | new
      · exact within k old
      · rw [List.mem_singleton.mp new]
        exact inside

theorem placed_unite (left : ∀ p ∈ table, p.Placed seen) (right : ∀ p ∈ other, p.Placed seen) :
    ∀ p ∈ table.unite other, p.Placed seen := by
  refine List.foldlRecOn _ _ (motive := fun table : ParentTable => ∀ p ∈ table, p.Placed seen) left ?_
  intro table each use member
  obtain ⟨p, listed, written⟩ := List.mem_flatMap.mp member
  rw [usesOf_of_placed (right p listed)] at written
  obtain ⟨l, place, rfl⟩ := List.mem_map.mp written
  exact placed_add each rfl ((right p listed).within l place)

theorem placed_rebind (each : ∀ p ∈ table, p.Placed seen) (f : ScopeId → ScopeId) :
    ∀ p ∈ table.rebind f, p.Placed seen := by
  intro q member
  obtain ⟨p, listed, rfl⟩ := List.mem_map.mp member
  obtain ⟨written, nodes, first, within⟩ := each p listed
  refine ⟨written, nodes, ?_, within⟩
  rw [← first]
  cases p.use
  rfl

-- A parent goes when no other file writes it; otherwise its use moves to the first place that is left.
theorem withdrawOne_of_placed (placed : p.Placed seen) (file : String) :
    withdrawOne file p = (p.written.filter (!·.isIn file)).head?.map fun l =>
      { use := { p.use with location := some l }, written := p.written.filter (!·.isIn file) } := by
  have some : p.locations.isEmpty = false := by
    rw [placed.locations]
    simpa using placed.written
  obtain ⟨first, rest, places⟩ := List.exists_cons_of_ne_nil placed.written
  have stands : p.use.location = .some first := by rw [placed.first, places]; rfl
  unfold withdrawOne
  rw [some, placed.locations, stands]
  by_cases gone : first.isIn file = true
  · cases left : p.written.filter (!·.isIn file) with
    | nil => rfl
    | cons l later => simp [gone]
  · have kept : p.written.filter (!·.isIn file) = first :: rest.filter (!·.isIn file) := by
      rw [places, List.filter_cons_of_pos (by simp [gone])]
    rw [kept]
    simp [gone, TypeUse.relocate_eq_self stands]

theorem placed_withdraw (each : ∀ p ∈ table, p.Placed seen) (file : String) :
    ∀ p ∈ table.withdraw file, p.Placed fun other => seen other ∧ other ≠ file := by
  intro q member
  obtain ⟨p, listed, kept⟩ := List.mem_filterMap.mp member
  have placed := each p listed
  rw [withdrawOne_of_placed placed] at kept
  obtain ⟨l, first, rfl⟩ := Option.map_eq_some_iff.mp kept
  refine ⟨?_, placed.nodes.sublist (List.filter_sublist.map _), first.symm, ?_⟩
  · exact List.ne_nil_of_mem (List.mem_of_mem_head? first)
  · intro k left
    obtain ⟨place, outside⟩ := List.mem_filter.mp left
    exact ⟨placed.within k place, by simpa [Location.isIn] using outside⟩

end ParentTable

end Places

end ScopeAtlas
