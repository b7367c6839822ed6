import ScopeAtlas.Proofs.Absorption

namespace ScopeAtlas

-- A definition whose parents were gathered step by step, each from a place in the source.
inductive TypeDefinition.Gathered : TypeDefinition → Prop
  | new (kind : TypeKind) : Gathered { kind }
  | added {d : TypeDefinition} {use : TypeUse} {l : Location} (before : Gathered d) (stands : use.location = some l) :
      Gathered { d with parentColumns := d.parentColumns.add use }
  | united {d other : TypeDefinition} (mine : Gathered d) (theirs : Gathered other) :
      Gathered { d with parentColumns := d.parentColumns.unite other.parentColumns }
  | withdrawn {d : TypeDefinition} (before : Gathered d) (file : String) :
      Gathered { d with parentColumns := d.parentColumns.withdraw file }

def TypeUse.qualifiedName (u : TypeUse) : List String := u.qualifierNames ++ [u.name]

namespace ParentType

def outside (file : String) (p : ParentType) : List Location := p.locations.filter (!·.isIn file)

-- The parent as other files write it; its use stands at the first place that they write.
def without (file : String) (p : ParentType) : ParentType where
  use := { p.use with location := (p.outside file).head? }
  written := p.outside file

end ParentType

theorem TypeUse.face_eq_iff {u v : TypeUse} : u.face.1 = v.face.1 ↔ u.qualifiedName = v.qualifiedName := by
  simp [face, qualifiedName, Prod.ext_iff, and_comm]

namespace ParentTable

variable {table other : ParentTable} {use written : TypeUse} {l k : Location} {seen : String → Prop}

theorem nodup_qualifiedNames (nodup : (table.faces.map Prod.fst).Nodup) : (table.map (·.use.qualifiedName)).Nodup := by
  rw [faces, List.map_map, List.Nodup, List.pairwise_map] at nodup
  rw [List.Nodup, List.pairwise_map]
  apply nodup.imp
  intro p q differ same
  exact differ (TypeUse.face_eq_iff.mpr same)

theorem withdraw_eq (placed : ∀ p ∈ table, p.Placed seen) (file : String) :
    table.withdraw file = (table.filter fun p => !p.locations.all (·.isIn file)).map (·.without file) := by
  induction table with
  | nil => rfl
  | cons p rest ih =>
    obtain ⟨here, placed⟩ := List.forall_mem_cons.mp placed
    have later := ih placed
    have one := withdrawOne_of_placed here file
    have kept : (!p.locations.all (·.isIn file)) = !(p.outside file).isEmpty := by
      rw [Bool.eq_iff_iff]
      simp [ParentType.outside, List.filter_eq_nil_iff]
    rw [← here.locations] at one
    change withdrawOne file p = (p.outside file).head?.map fun l =>
      { use := { p.use with location := some l }, written := p.outside file } at one
    unfold withdraw at later ⊢
    cases left : p.outside file with
    | nil =>
      rw [left] at one kept
      rw [List.filterMap_cons_none one, List.filter_cons_of_neg (by simp [kept]), later]
    | cons l others =>
      rw [left] at one kept
      have trimmed : p.without file = { use := { p.use with location := some l }, written := l :: others } := by
        rw [ParentType.without, left]
        rfl
      rw [List.filterMap_cons_some one, List.filter_cons_of_pos (by simp [kept]), List.map_cons, later, trimmed]

theorem lists_add_iff (stands : written.location = some k) :
    (table.add written).Lists use l ↔
      table.Lists use l ∨ written.sameQualifiedName use = true ∧ l.node = k.node := by
  constructor
  · rintro ⟨p, member, named, listed⟩
    revert p
    apply forall_add
    · intro p member named listed
      exact Or.inl ⟨p, member, named, listed⟩
    · intro named listed
      exact Or.inr ⟨named, by simpa [stands] using listed⟩
    · intro p member same named listed
      rw [stands] at listed
      rcases Location.mem_nodes_addNew.mp listed with old | new
      · exact Or.inl ⟨p, member, named, old⟩
      · rw [sameQualifiedName_iff] at same named
        exact Or.inr ⟨sameQualifiedName_iff.mpr (same.symm.trans named), by simpa using new⟩
  · rintro (old | ⟨named, node⟩)
    · exact old.add written
    · obtain ⟨p, member, named', listed⟩ := lists_add table stands
      rw [sameQualifiedName_iff] at named named'
      exact ⟨p, member, sameQualifiedName_iff.mpr (named'.trans named), node ▸ listed⟩

theorem lists_unite_iff (placed : ∀ p ∈ other, p.Placed seen) :
    (table.unite other).Lists use l ↔ table.Lists use l ∨ other.Lists use l := by
  constructor
  · apply List.foldlRecOn (motive := fun sofar : ParentTable => sofar.Lists use l → table.Lists use l ∨ other.Lists use l)
    · exact Or.inl
    · intro sofar known written member lists
      obtain ⟨p, listed, spelled⟩ := List.mem_flatMap.mp member
      rw [usesOf_of_placed (placed p listed)] at spelled
      obtain ⟨k, place, rfl⟩ := List.mem_map.mp spelled
      rcases (lists_add_iff rfl).mp lists with old | ⟨named, node⟩
      · exact known old
      · exact Or.inr ⟨p, listed, named, node ▸ List.mem_map_of_mem place⟩
  · rintro (mine | theirs)
    · exact mine.unite_left other
    · exact theirs.unite_right placed table

end ParentTable

namespace ParentColumns

variable {c other : ParentColumns} {use written : TypeUse} {l k : Location} {seen : String → Prop}

def Lists (c : ParentColumns) (use : TypeUse) (l : Location) : Prop :=
  ∃ row ∈ c.uses.zip c.places, row.1.sameQualifiedName use = true ∧ l.node ∈ row.2.map Location.node

-- The rows that not only `file` writes, with what the other files write.
def without (file : String) (c : ParentColumns) : ParentColumns :=
  let kept := (c.uses.zip c.places).filter fun row => !row.2.all (·.isIn file)
  { uses := kept.map fun row => { row.1 with location := (row.2.filter (!·.isIn file)).head? }
    places := kept.map fun row => row.2.filter (!·.isIn file) }

theorem Aligned.zip (aligned : c.Aligned) : c.uses.zip c.places = c.table.map fun p => (p.use, p.written) := by
  have columns := aligned.ofTable_table
  calc c.uses.zip c.places
      = (ofTable c.table).uses.zip (ofTable c.table).places := by rw [columns]
    _ = c.table.map fun p => (p.use, p.written) := List.zip_map'

theorem Aligned.lists_iff (aligned : c.Aligned) : c.Lists use l ↔ c.table.Lists use l := by
  unfold Lists ParentTable.Lists
  rw [aligned.zip]
  simp

theorem Aligned.withdraw_eq_without (aligned : c.Aligned) (placed : ∀ p ∈ c.table, p.Placed seen) (file : String) :
    c.withdraw file = c.without file := by
  have kept : (c.uses.zip c.places).filter (fun row => !row.2.all (·.isIn file)) =
      (c.table.filter fun p => !p.locations.all (·.isIn file)).map fun p => (p.use, p.written) := by
    rw [aligned.zip, List.filter_map]
    refine congrArg _ (List.filter_congr ?_)
    intro p member
    rw [(placed p member).locations]
    rfl
  have trimmed : ∀ p ∈ c.table.filter fun p => !p.locations.all (·.isIn file), p.without file =
      { use := { p.use with location := (p.written.filter (!·.isIn file)).head? }
        written := p.written.filter (!·.isIn file) } := by
    intro p member
    rw [ParentType.without, ParentType.outside, (placed p (List.mem_filter.mp member).1).locations]
  rw [withdraw_eq, ParentTable.withdraw_eq placed, List.map_congr_left trimmed, without, kept]
  simp only [ofTable, List.map_map, Function.comp_def]

theorem lists_add_iff (aligned : c.Aligned) (stands : written.location = some k) :
    (c.add written).Lists use l ↔ c.Lists use l ∨ written.sameQualifiedName use = true ∧ l.node = k.node := by
  rw [(aligned_add c written).lists_iff, aligned.lists_iff, table_add]
  exact ParentTable.lists_add_iff stands

theorem lists_unite_iff (aligned : c.Aligned) (aligned' : other.Aligned) (placed : ∀ p ∈ other.table, p.Placed seen) :
    (c.unite other).Lists use l ↔ c.Lists use l ∨ other.Lists use l := by
  rw [(aligned.unite other).lists_iff, aligned.lists_iff, aligned'.lists_iff, table_unite]
  exact ParentTable.lists_unite_iff placed

theorem exists_places (placed : ∀ p ∈ c.table, p.Placed seen) {position : Nat} (listed : c.uses[position]? = some use) :
    ∃ written, c.places[position]? = some written ∧ c.locationsAt position = written ∧ written ≠ [] ∧
      (written.map Location.node).Nodup ∧ use.location = written.head? := by
  have row : c.table[position]? = some { use, written := c.places[position]?.getD [] } := by
    rw [table, getElem?_rows, listed, Option.map_some]
  have here := placed _ (List.mem_of_getElem? row)
  cases recorded : c.places[position]? with
  | none => exact absurd (by simp [recorded]) here.written
  | some written =>
    rw [recorded] at here
    refine ⟨written, rfl, ?_, here.written, here.nodes, here.first⟩
    obtain ⟨l, others, rfl⟩ := List.exists_cons_of_ne_nil here.written
    rw [locationsAt, recorded]

end ParentColumns

namespace TypeDefinition

variable {d : TypeDefinition}

theorem Gathered.aligned (gathered : d.Gathered) : d.parentColumns.Aligned := by
  induction gathered with
  | new kind => rfl
  | @added d use _ _ _ _ => exact d.parentColumns.aligned_add use
  | @united _ other _ _ mine _ => exact mine.unite other.parentColumns
  | @withdrawn d _ file _ => exact d.parentColumns.aligned_withdraw file

theorem Gathered.placed (gathered : d.Gathered) : ∀ p ∈ d.parents, p.Placed fun _ => True := by
  unfold parents
  induction gathered with
  | new kind => exact List.forall_mem_nil _
  | added _ stands ih =>
    rw [ParentColumns.table_add]
    exact ParentTable.placed_add ih stands trivial
  | united _ _ mine theirs =>
    rw [ParentColumns.table_unite]
    exact ParentTable.placed_unite mine theirs
  | withdrawn _ file ih =>
    intro p member
    rw [ParentColumns.table_withdraw] at member
    exact (ParentTable.placed_withdraw ih file p member).mono fun _ _ => trivial

theorem Gathered.nodup (gathered : d.Gathered) : (d.parents.faces.map Prod.fst).Nodup := by
  unfold parents
  induction gathered with
  | new kind => exact List.nodup_nil
  | @added _ use _ _ _ ih =>
    rw [ParentColumns.table_add]
    exact ParentTable.nodup_foldl_add [use] ih
  | united _ _ mine _ =>
    rw [ParentColumns.table_unite]
    exact ParentTable.nodup_foldl_add _ mine
  | @withdrawn d _ file ih =>
    rw [ParentColumns.table_withdraw]
    exact ih.sublist ((ParentTable.faces_withdraw_sublist file d.parents).map _)

-- The two columns stay one table: each position has its use and its places. The last two parts say that nothing written
-- is lost on the way, and nothing else listed.
theorem gathered_parents_stand_once (gathered : d.Gathered) :
    d.parentColumns.places.length = d.parentColumns.uses.length ∧
      (d.parentColumns.uses.map (·.qualifiedName)).Nodup ∧
      (∀ position use, d.parentColumns.uses[position]? = some use → ∃ written,
        d.parentColumns.places[position]? = some written ∧ d.parentColumns.locationsAt position = written ∧
        written ≠ [] ∧ (written.map Location.node).Nodup ∧ use.location = written.head?) ∧
      (∀ file, d.parentColumns.withdraw file = d.parentColumns.without file) ∧
      (∀ written k use l, written.location = some k → ((d.parentColumns.add written).Lists use l ↔
        d.parentColumns.Lists use l ∨ written.sameQualifiedName use = true ∧ l.node = k.node)) ∧
      ∀ other : TypeDefinition, other.Gathered → ∀ use l,
        (d.parentColumns.unite other.parentColumns).Lists use l ↔
          d.parentColumns.Lists use l ∨ other.parentColumns.Lists use l := by
  have aligned := gathered.aligned
  refine ⟨aligned, ?_, ?_, aligned.withdraw_eq_without gathered.placed, ?_, ?_⟩
  · rw [d.uses_eq, List.map_map]
    exact ParentTable.nodup_qualifiedNames gathered.nodup
  · exact fun position use => ParentColumns.exists_places gathered.placed
  · exact fun written k use l => ParentColumns.lists_add_iff aligned
  · exact fun other theirs use l => ParentColumns.lists_unite_iff aligned theirs.aligned theirs.placed

def derives (d : TypeDefinition) (qualifiers : List String) (name file position : String) : TypeDefinition :=
  let use : TypeUse :=
    { name, qualifiers := qualifiers.map fun qualifier => { name := qualifier }, scope := 0
      location := some { file, position, line := 1 } }
  { d with parentColumns := d.parentColumns.add use }

-- `class D : A, n::B` in one file and `class D : A` in another.
def derivedTwice : TypeDefinition :=
  let mine := derives (derives { kind := .classType } [] "A" "a.h" "/unit/class/super[1]") ["n"] "B" "a.h"
    "/unit/class/super[2]"
  let theirs := derives { kind := .classType } [] "A" "b.h" "/unit/class/super"
  { mine with parentColumns := mine.parentColumns.unite theirs.parentColumns }

def parentFiles (c : ParentColumns) : List (List String × Option String × List String) :=
  c.uses.zipIdx.map fun (use, position) =>
    (use.qualifiedName, use.location.map (·.file), (c.locationsAt position).map (·.file))

theorem parent_outlives_one_of_its_files :
    derivedTwice.Gathered ∧
      parentFiles derivedTwice.parentColumns =
        [(["A"], some "a.h", ["a.h", "b.h"]), (["n", "B"], some "a.h", ["a.h"])] ∧
      parentFiles (derivedTwice.parentColumns.withdraw "a.h") = [(["A"], some "b.h", ["b.h"])] := by
  have more : ∀ {d : TypeDefinition} qualifiers name file position, d.Gathered →
      (derives d qualifiers name file position).Gathered :=
    fun _ _ _ _ before => .added before rfl
  have gathered : derivedTwice.Gathered :=
    .united (more _ _ _ _ (more _ _ _ _ (.new .classType))) (more _ _ _ _ (.new .classType))
  obtain ⟨-, -, -, withdrawn, -, -⟩ := gathered_parents_stand_once gathered
  refine ⟨gathered, by decide, ?_⟩
  rw [withdrawn]
  decide

end TypeDefinition

end ScopeAtlas
