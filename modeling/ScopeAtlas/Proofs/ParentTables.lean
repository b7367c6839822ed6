import ScopeAtlas.Scope.Union

namespace ScopeAtlas

structure ParentType where
  use : TypeUse
  written : List Location := []

-- Where the parent is written; without a record, where its use stands.
def ParentType.locations (p : ParentType) : List Location :=
  if p.written.isEmpty then p.use.location.toList else p.written

-- The two columns as one list, in which a parent cannot be parted from its places.
abbrev ParentTable := List ParentType

namespace ParentTable

def add (use : TypeUse) : ParentTable → ParentTable
  | [] => [{ use, written := use.location.toList }]
  | p :: rest =>
    if p.use.sameQualifiedName use then
      { p with written := Location.addNew p.written use.location.toList } :: rest
    else p :: add use rest

def usesOf (p : ParentType) : List TypeUse :=
  match p.locations with
  | [] => [p.use]
  | places => places.map fun l => { p.use with location := some l }

def unite (table other : ParentTable) : ParentTable :=
  (other.flatMap usesOf).foldl (fun table use => table.add use) table

def withdrawOne (file : String) (p : ParentType) : Option ParentType :=
  if p.locations.isEmpty then some p
  else
    match p.locations.filter (!·.isIn file) with
    | [] => none
    | left =>
      let gone := p.use.location.any (·.isIn file)
      some { use := if gone then { p.use with location := left.head? } else p.use, written := left }

def withdraw (file : String) (table : ParentTable) : ParentTable := table.filterMap (withdrawOne file)

def rebind (rename : ScopeId → ScopeId) (table : ParentTable) : ParentTable :=
  table.map fun p => { p with use := p.use.rebind rename }

end ParentTable

namespace ParentColumns

variable {c : ParentColumns} {position : Nat}

-- Row by row; a use without a list of places has none.
def rows : List TypeUse → List (List Location) → ParentTable
  | [], _ => []
  | use :: uses, places => { use, written := places.headD [] } :: rows uses places.tail

def table (c : ParentColumns) : ParentTable := rows c.uses c.places

def ofTable (table : ParentTable) : ParentColumns where
  uses := table.map (·.use)
  places := table.map (·.written)

def Aligned (c : ParentColumns) : Prop := c.places.length = c.uses.length

section Rows

theorem getElem?_rows (uses : List TypeUse) (places : List (List Location)) (position : Nat) :
    (rows uses places)[position]? = uses[position]?.map fun use => { use, written := places[position]?.getD [] } := by
  induction uses generalizing places position with
  | nil => rfl
  | cons use uses ih =>
    cases position with
    | zero => cases places <;> rfl
    | succ position =>
      rw [rows, List.getElem?_cons_succ, List.getElem?_cons_succ, ih, List.getElem?_tail]

theorem map_use_rows (uses : List TypeUse) (places : List (List Location)) : (rows uses places).map (·.use) = uses := by
  induction uses generalizing places with
  | nil => rfl
  | cons use uses ih => rw [rows, List.map_cons, ih]

theorem map_written_rows (uses : List TypeUse) (places : List (List Location)) :
    (rows uses places).map (·.written) = (places.take uses.length).rightpad uses.length [] := by
  induction uses generalizing places with
  | nil => simp [rows, List.rightpad]
  | cons use uses ih =>
    rw [rows, List.map_cons, ih]
    cases places with
    | nil => simp [List.rightpad, List.replicate_succ]
    | cons first rest => simp [List.rightpad]

@[simp] theorem map_use_table (c : ParentColumns) : c.table.map (·.use) = c.uses := map_use_rows c.uses c.places

theorem map_written_table (c : ParentColumns) : c.table.map (·.written) = c.fitted := map_written_rows c.uses c.places

@[simp] theorem table_ofTable (table : ParentTable) : (ofTable table).table = table := by
  unfold ParentColumns.table ofTable
  dsimp only
  induction table with
  | nil => rfl
  | cons p rest ih => rw [List.map_cons, List.map_cons, rows, List.tail_cons, ih]; rfl

-- The columns are the table but for lists of places at the end that are missing or have no use.
theorem ofTable_table (c : ParentColumns) : ofTable c.table = { uses := c.uses, places := c.fitted } := by
  rw [ofTable, map_use_table, map_written_table]

theorem aligned_ofTable (table : ParentTable) : (ofTable table).Aligned := by
  simp [Aligned, ofTable]

theorem Aligned.ofTable_table (aligned : c.Aligned) : ofTable c.table = c := by
  have fitted : c.fitted = c.places := by
    rw [ParentColumns.fitted, ← aligned, List.take_length]
    simp [List.rightpad]
  rw [ParentColumns.ofTable_table, fitted]

theorem Aligned.eq_of_table {other : ParentColumns} (aligned : c.Aligned) (aligned' : other.Aligned)
    (same : c.table = other.table) : c = other := by
  rw [← aligned.ofTable_table, same, aligned'.ofTable_table]

theorem fitted_ofTable (table : ParentTable) : (ofTable table).fitted = table.map (·.written) := by
  rw [← map_written_table, table_ofTable]

theorem getElem?_table (c : ParentColumns) (position : Nat) :
    (c.table[position]?.map fun p => (p.use, p.locations)) =
      c.uses[position]?.map fun use => (use, c.locationsAt position) := by
  rw [table, getElem?_rows, locationsAt]
  cases c.uses[position]? with
  | none => rfl
  | some use =>
    cases c.places[position]? with
    | none => rfl
    | some written => cases written <;> rfl

theorem zipIdx_uses (c : ParentColumns) :
    (c.uses.zipIdx.map fun row => (row.1, c.locationsAt row.2)) = c.table.map fun p => (p.use, p.locations) := by
  apply List.ext_getElem?
  intro position
  rw [List.getElem?_map, List.getElem?_map, getElem?_table, List.getElem?_zipIdx, Option.map_map, Nat.zero_add]
  rfl

theorem zip_locationsAt (c : ParentColumns) :
    c.uses.zip ((List.range c.uses.length).map c.locationsAt) = c.table.map fun p => (p.use, p.locations) := by
  rw [← zipIdx_uses, List.zipIdx_eq_zip_range', ← List.range_eq_range', List.zip_map_right]
  rfl

end Rows

section Adding

-- The search by position and the search along the rows come to the same row.
theorem add_ofTable (t : ParentTable) (use : TypeUse) : (ofTable t).add use = ofTable (t.add use) := by
  induction t with
  | nil =>
    have first : Location.addNew [] use.location.toList = use.location.toList := by cases use.location <;> rfl
    simp [add, fitted, ofTable, ParentTable.add, first]
  | cons p rest ih =>
    simp only [add, fitted_ofTable] at ih ⊢
    simp only [ofTable, List.map_cons, List.findIdx?_cons] at ih ⊢
    rw [ParentTable.add]
    by_cases same : p.use.sameQualifiedName use
    · simp [same]
    · simp only [same, Bool.false_eq_true, if_false]
      cases found : (rest.map (·.use)).findIdx? (·.sameQualifiedName use) with
      | none => simp_all
      | some position => simp_all

theorem add_eq (c : ParentColumns) (use : TypeUse) : c.add use = ofTable (c.table.add use) := by
  rw [← add_ofTable, ofTable_table]
  have fitted : ({ uses := c.uses, places := c.fitted } : ParentColumns).fitted = c.fitted := by
    rw [← ofTable_table, fitted_ofTable, map_written_table]
  unfold add
  rw [fitted]

@[simp] theorem table_add (c : ParentColumns) (use : TypeUse) : (c.add use).table = c.table.add use := by
  rw [add_eq, table_ofTable]

theorem aligned_add (c : ParentColumns) (use : TypeUse) : (c.add use).Aligned := by
  rw [add_eq]
  exact aligned_ofTable _

theorem table_foldl_add (uses : List TypeUse) (c : ParentColumns) :
    (uses.foldl (fun c use => c.add use) c).table = uses.foldl (fun t use => t.add use) c.table := by
  induction uses generalizing c with
  | nil => rfl
  | cons use uses ih => rw [List.foldl_cons, ih, table_add, List.foldl_cons]

theorem aligned_foldl_add (uses : List TypeUse) {c : ParentColumns} (aligned : c.Aligned) :
    (uses.foldl (fun c use => c.add use) c).Aligned := by
  induction uses generalizing c with
  | nil => exact aligned
  | cons use uses ih => exact ih (aligned_add c use)

theorem addWritten_eq (c : ParentColumns) (p : ParentType) :
    c.addWritten p.use p.locations = (ParentTable.usesOf p).foldl (fun c use => c.add use) c := by
  unfold addWritten ParentTable.usesOf
  cases p.locations with
  | nil => rfl
  | cons l others => rw [List.foldl_map]; rfl

theorem unite_eq_foldl (c other : ParentColumns) :
    c.unite other = (other.table.flatMap ParentTable.usesOf).foldl (fun c use => c.add use) c := by
  calc c.unite other
      = (other.uses.zipIdx.map fun row => (row.1, other.locationsAt row.2)).foldl
          (fun c row => c.addWritten row.1 row.2) c := by rw [unite, List.foldl_map]
    _ = other.table.foldl (fun c p => c.addWritten p.use p.locations) c := by rw [zipIdx_uses, List.foldl_map]
    _ = (other.table.flatMap ParentTable.usesOf).foldl (fun c use => c.add use) c := by
      simp only [addWritten_eq, List.foldl_flatMap]

@[simp] theorem table_unite (c other : ParentColumns) : (c.unite other).table = c.table.unite other.table := by
  rw [unite_eq_foldl, table_foldl_add, ParentTable.unite]

theorem Aligned.unite (aligned : c.Aligned) (other : ParentColumns) : (c.unite other).Aligned := by
  rw [unite_eq_foldl]
  exact aligned_foldl_add _ aligned

end Adding

section Withdrawing

theorem push_ofTable (t : ParentTable) (use : TypeUse) (written : List Location) :
    (ofTable t).push use written = ofTable (t ++ [⟨use, written⟩]) := by
  simp [push, ofTable]

theorem pushWithout_ofTable (file : String) (t : ParentTable) (p : ParentType) :
    (ofTable t).pushWithout file p.use p.locations = ofTable (t ++ (ParentTable.withdrawOne file p).toList) := by
  unfold pushWithout ParentTable.withdrawOne
  by_cases unplaced : p.locations.isEmpty
  · have unrecorded : p.locations = p.written := by
      unfold ParentType.locations at unplaced ⊢
      split at unplaced <;> simp_all
    rw [if_pos unplaced, if_pos unplaced, unrecorded, push_ofTable]
    rfl
  · rw [if_neg unplaced, if_neg unplaced]
    cases left : p.locations.filter (!·.isIn file) with
    | nil => simp
    | cons l others => exact push_ofTable t _ _

theorem foldl_pushWithout (file : String) (t read : ParentTable) :
    t.foldl (fun c p => c.pushWithout file p.use p.locations) (ofTable read) =
      ofTable (read ++ t.withdraw file) := by
  induction t generalizing read with
  | nil => simp [ParentTable.withdraw]
  | cons p rest ih =>
    rw [List.foldl_cons, pushWithout_ofTable, ih, List.append_assoc]
    congr 2
    rw [ParentTable.withdraw, ParentTable.withdraw, List.filterMap_cons]
    cases ParentTable.withdrawOne file p <;> rfl

theorem withdraw_eq (file : String) (c : ParentColumns) : c.withdraw file = ofTable (c.table.withdraw file) := by
  calc c.withdraw file
      = (c.table.map fun p => (p.use, p.locations)).foldl (fun kept row => kept.pushWithout file row.1 row.2) {} := by
        rw [withdraw, zip_locationsAt]
    _ = ofTable (c.table.withdraw file) := by rw [List.foldl_map]; exact foldl_pushWithout file c.table []

theorem aligned_withdraw (file : String) (c : ParentColumns) : (c.withdraw file).Aligned := by
  rw [withdraw_eq]
  exact aligned_ofTable _

@[simp] theorem table_withdraw (file : String) (c : ParentColumns) :
    (c.withdraw file).table = c.table.withdraw file := by
  rw [withdraw_eq, table_ofTable]

end Withdrawing

section Rebinding

theorem rows_rebind (rename : ScopeId → ScopeId) (uses : List TypeUse) (places : List (List Location)) :
    rows (uses.map (·.rebind rename)) places = ParentTable.rebind rename (rows uses places) := by
  induction uses generalizing places with
  | nil => rfl
  | cons use uses ih => rw [List.map_cons, rows, ih]; rfl

@[simp] theorem table_rebind (rename : ScopeId → ScopeId) (c : ParentColumns) :
    (c.rebind rename).table = c.table.rebind rename := rows_rebind rename c.uses c.places

theorem Aligned.rebind (aligned : c.Aligned) (rename : ScopeId → ScopeId) : (c.rebind rename).Aligned := by
  simpa [Aligned, ParentColumns.rebind] using aligned

theorem rebind_ofTable (rename : ScopeId → ScopeId) (t : ParentTable) :
    (ofTable t).rebind rename = ofTable (t.rebind rename) := by
  simp [rebind, ofTable, ParentTable.rebind]

end Rebinding

end ParentColumns

namespace TypeDefinition

def parents (d : TypeDefinition) : ParentTable := d.parentColumns.table

theorem uses_eq (d : TypeDefinition) : d.parentColumns.uses = d.parents.map (·.use) := d.parentColumns.map_use_table.symm

@[simp] theorem parents_unite (theirsFirst : Bool) (mine theirs : TypeDefinition) :
    (mine.unite theirsFirst theirs).parents = mine.parents.unite theirs.parents :=
  ParentColumns.table_unite mine.parentColumns theirs.parentColumns

@[simp] theorem parents_rebind (rename : ScopeId → ScopeId) (d : TypeDefinition) :
    (d.rebind rename).parents = d.parents.rebind rename :=
  ParentColumns.table_rebind rename d.parentColumns

@[simp] theorem parents_withdraw (file : String) (d : TypeDefinition) :
    ({ d with parentColumns := d.parentColumns.withdraw file } : TypeDefinition).parents = d.parents.withdraw file :=
  ParentColumns.table_withdraw file d.parentColumns

end TypeDefinition

end ScopeAtlas
