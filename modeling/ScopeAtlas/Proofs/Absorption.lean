import ScopeAtlas.Proofs.Ranks
import ScopeAtlas.Proofs.Symmetry

namespace ScopeAtlas

structure Parameter.Covers (p q : Parameter) : Prop where
  locations : ∀ l ∈ q.locations, l.node ∈ p.locations.map Location.node
  name : p.isAnonymous = true → q.name = p.name

-- The parent that a use names is listed with a place.
def ParentTable.Lists (table : ParentTable) (use : TypeUse) (l : Location) : Prop :=
  ∃ p ∈ table, p.use.sameQualifiedName use = true ∧ l.node ∈ p.written.map Location.node

structure TypeDefinition.Covers (d d' : TypeDefinition) : Prop where
  parents : ∀ p ∈ d'.parents, ∀ l ∈ p.written, d.parents.Lists p.use l
  isGeneric : d'.isGeneric = true → d.isGeneric = true

structure MethodDefinition.Covers (m m' : MethodDefinition) : Prop where
  returnType : m.returnType = none → m'.returnType = none
  qualifiers : m.qualifiers = [] → m'.qualifiers = []
  parameters : List.Forall₂ Parameter.Covers m.parameters m'.parameters

inductive ScopeKind.Covers : ScopeKind → ScopeKind → Prop
  | block : Covers .block .block
  | space {x y : Bool} (global : y = true → x = true) : Covers (.space x) (.space y)
  | type {d d' : TypeDefinition} (covers : d.Covers d') : Covers (.type d) (.type d')
  | method {m m' : MethodDefinition} (covers : m.Covers m') : Covers (.method m) (.method m')

-- All that `t` lists is listed by `s`, and nothing that `t` knows is unknown to `s`.
structure Scope.Covers (s t : Scope) : Prop where
  locations : t.locations ⊆ s.locations
  declared : ∀ v ∈ t.declared.toList, ∃ w ∈ s.declared.named v.name,
    w.locations = v.locations ∧ (w.declaredType = none → v.declaredType = none)
  calls : ∀ c ∈ t.calls, c.location.node ∈ s.calls.map (·.location.node)
  access : s.access = .unstated → t.access = .unstated
  language : s.language = none → t.language = none
  kind : s.kind.Covers t.kind

section Lists

theorem addUnknown_eq_self {α κ : Type} {same : α → α → Bool} {key : α → κ} {known found : List α}
    (sound : ∀ a b, same a b = true ↔ key a = key b) (listed : ∀ x ∈ found, key x ∈ known.map key) :
    addUnknown same known found = known := by
  induction found with
  | nil => rfl
  | cons first rest ih =>
    obtain ⟨a, member, equal⟩ := List.mem_map.mp (listed first List.mem_cons_self)
    have old : known.any (same · first) = true := List.any_eq_true.mpr ⟨a, member, (sound a first).mpr equal⟩
    have later := ih fun x member => listed x (List.mem_cons_of_mem _ member)
    unfold addUnknown at later ⊢
    rw [List.foldl_cons, if_pos old, later]

theorem Location.addNew_eq_self {known found : List Location} (listed : ∀ l ∈ found, l.node ∈ known.map Location.node) :
    Location.addNew known found = known :=
  addUnknown_eq_self (fun _ _ => Location.sameNode_iff) listed

theorem Location.mem_nodes_addNew {known found : List Location} {n : String × String} :
    n ∈ (Location.addNew known found).map Location.node ↔
      n ∈ known.map Location.node ∨ n ∈ found.map Location.node := by
  constructor
  · intro listed
    obtain ⟨l, member, rfl⟩ := List.mem_map.mp listed
    exact (mem_addUnknown member).imp List.mem_map_of_mem List.mem_map_of_mem
  · rintro (old | new)
    · obtain ⟨l, member, rfl⟩ := List.mem_map.mp old
      exact List.mem_map_of_mem (mem_addUnknown_left member)
    · obtain ⟨l, member, rfl⟩ := List.mem_map.mp new
      exact @mem_keys_addUnknown _ _ Location.sameNode _ known _ (fun _ _ => Location.sameNode_iff) l member

theorem Scope.addLocationTo_eq_self {l : Location} {known : List Location} (nodup : (known.map Location.node).Nodup)
    (member : l ∈ known) : addLocationTo l known = known := by
  induction known with
  | nil => cases member
  | cons first rest ih =>
    obtain ⟨fresh, nodup⟩ := List.nodup_cons.mp nodup
    rcases List.mem_cons.mp member with rfl | later
    · simp [addLocationTo, Location.sameNode]
    · have differs : ¬ first.sameNode l = true := by
        intro same
        rw [Location.sameNode_iff.mp same] at fresh
        exact fresh (List.mem_map_of_mem later)
      rw [addLocationTo, if_neg differs, ih nodup later]

namespace VariableTable

variable {table : VariableTable} {name : String} {v w : Variable} {l : Location}

theorem alter_eq_self {change : List Variable → List Variable} (some : table.named name ≠ [])
    (same : change (table.named name) = table.named name) : table.alter name change = table := by
  induction table with
  | nil => exact absurd rfl some
  | cons entry rest ih =>
    obtain ⟨key, group⟩ := entry
    rw [named_cons] at some same
    unfold alter
    by_cases equal : key = name
    · rw [if_pos equal.symm] at same
      rw [if_pos equal, same]
    · rw [if_neg (Ne.symm equal)] at some same
      rw [if_neg equal, ih some same]

theorem uniteInto_eq_self {group : List Variable} (nodup : (group.flatMap fun w => w.locations.map Location.node).Nodup)
    (member : w ∈ group) (place : w.locations = v.locations) (only : v.locations = [l])
    (typed : w.declaredType = none → v.declaredType = none) : uniteInto v group = group := by
  have shares : w.sharesLocation v = true := by simp [sharesLocation_iff, place, only]
  induction group with
  | nil => cases member
  | cons known rest ih =>
    rw [List.flatMap_cons, List.nodup_append] at nodup
    rcases List.mem_cons.mp member with rfl | later
    · have joined : Location.addNew w.locations v.locations = w.locations :=
        Location.addNew_eq_self fun k listed => List.mem_map_of_mem (place ▸ listed)
      have type : (w.declaredType <|> v.declaredType) = w.declaredType := by
        cases here : w.declaredType with
        | none => rw [typed here]; rfl
        | some u => rfl
      rw [uniteInto, if_pos shares, joined, type]
    · have differs : ¬ known.sharesLocation v = true := by
        intro shared
        obtain ⟨k, first, l', second, same⟩ := sharesLocation_iff.mp shared
        have there : l'.node ∈ rest.flatMap fun w => w.locations.map Location.node :=
          List.mem_flatMap.mpr ⟨w, later, List.mem_map_of_mem (place ▸ second)⟩
        exact nodup.2.2 _ (List.mem_map_of_mem first) _ there same
      rw [uniteInto, if_neg differs, ih nodup.2.1 later]

end VariableTable

namespace ParentTable

variable {seen : String → Prop} {table other : ParentTable} {use use' : TypeUse} {l k : Location}

theorem add_eq_self (nodup : (table.faces.map Prod.fst).Nodup) (stands : use.location = some l)
    (lists : table.Lists use l) : table.add use = table := by
  obtain ⟨q, member, named, listed⟩ := lists
  induction table with
  | nil => cases member
  | cons known rest ih =>
    obtain ⟨fresh, nodup⟩ := List.nodup_cons.mp nodup
    rcases List.mem_cons.mp member with rfl | later
    · have joined : Location.addNew q.written use.location.toList = q.written :=
        Location.addNew_eq_self (by simpa [stands] using listed)
      rw [add, if_pos named, joined]
    · have differs : ¬ known.use.sameQualifiedName use = true := by
        intro same
        have equal := (sameQualifiedName_iff.mp same).trans (sameQualifiedName_iff.mp named).symm
        refine fresh ?_
        rw [equal]
        exact List.mem_map_of_mem (List.mem_map_of_mem later)
      rw [add, if_neg differs, ih nodup later]

theorem unite_eq_self (nodup : (table.faces.map Prod.fst).Nodup) (placed : ∀ p ∈ other, p.Placed seen)
    (lists : ∀ p ∈ other, ∀ l ∈ p.written, table.Lists p.use l) : table.unite other = table := by
  refine List.foldlRecOn _ _ (motive := fun sofar : ParentTable => sofar = table) rfl ?_
  rintro sofar rfl use member
  obtain ⟨p, listed, written⟩ := List.mem_flatMap.mp member
  rw [usesOf_of_placed (placed p listed)] at written
  obtain ⟨l, place, rfl⟩ := List.mem_map.mp written
  exact add_eq_self nodup rfl (lists p listed l place)

theorem Lists.add (lists : table.Lists use l) (use' : TypeUse) : (table.add use').Lists use l := by
  obtain ⟨q, member, named, listed⟩ := lists
  induction table with
  | nil => cases member
  | cons known rest ih =>
    unfold ParentTable.add
    rcases List.mem_cons.mp member with rfl | later
    · split
      · exact ⟨_, List.mem_cons_self, named, Location.mem_nodes_addNew.mpr (Or.inl listed)⟩
      · exact ⟨q, List.mem_cons_self, named, listed⟩
    · split
      · exact ⟨q, List.mem_cons_of_mem _ later, named, listed⟩
      · obtain ⟨q', member', found⟩ := ih later
        exact ⟨q', List.mem_cons_of_mem _ member', found⟩

theorem lists_add (table : ParentTable) (stands : use.location = some l) : (table.add use).Lists use l := by
  induction table with
  | nil => exact ⟨_, List.mem_cons_self, sameQualifiedName_iff.mpr rfl, by simp [stands]⟩
  | cons known rest ih =>
    unfold ParentTable.add
    split
    · rename_i same
      exact ⟨_, List.mem_cons_self, same, Location.mem_nodes_addNew.mpr (Or.inr (by simp [stands]))⟩
    · obtain ⟨q, member, found⟩ := ih
      exact ⟨q, List.mem_cons_of_mem _ member, found⟩

theorem Lists.unite_left (lists : table.Lists use l) (other : ParentTable) : (table.unite other).Lists use l :=
  List.foldlRecOn _ _ (motive := fun sofar : ParentTable => sofar.Lists use l) lists fun _ found use' _ => found.add use'

theorem lists_foldl_add (table : ParentTable) (stands : use.location = some l) {uses : List TypeUse}
    (member : use ∈ uses) :
    (uses.foldl (fun table use => table.add use) table).Lists use l := by
  induction uses generalizing table with
  | nil => cases member
  | cons first rest ih =>
    rcases List.mem_cons.mp member with rfl | later
    · exact List.foldlRecOn rest _ (motive := fun sofar : ParentTable => sofar.Lists use l) (lists_add table stands)
        fun _ found use' _ => found.add use'
    · exact ih _ later

theorem Lists.unite_right (lists : other.Lists use l) (placed : ∀ p ∈ other, p.Placed seen) (table : ParentTable) :
    (table.unite other).Lists use l := by
  obtain ⟨q, member, named, listed⟩ := lists
  obtain ⟨k, place, node⟩ := List.mem_map.mp listed
  have written : { q.use with location := some k } ∈ other.flatMap usesOf := by
    refine List.mem_flatMap.mpr ⟨q, member, ?_⟩
    rw [usesOf_of_placed (placed q member)]
    exact List.mem_map.mpr ⟨k, place, rfl⟩
  obtain ⟨p, member', named', listed'⟩ := lists_foldl_add table rfl written
  rw [sameQualifiedName_iff] at named named'
  rw [TypeUse.face_relocate] at named'
  exact ⟨p, member', sameQualifiedName_iff.mpr (named'.trans named), node ▸ listed'⟩

end ParentTable

namespace Parameter

variable {p q r : Parameter} {ps qs rs : List Parameter}

theorem Covers.unite_eq (covers : p.Covers q) : p.unite q = p := by
  have name : (if (Text.trim p.name).isEmpty then q.name else p.name) = p.name := by
    split
    · rename_i blank
      exact covers.name blank
    · rfl
  rw [unite, Location.addNew_eq_self covers.locations, name]

theorem uniteAll_eq_self (covers : List.Forall₂ Covers ps qs) : uniteAll ps qs = ps := by
  induction covers with
  | nil => rfl
  | cons first _ ih =>
    rw [uniteAll, first.unite_eq, ih, ite_self]

theorem eq_empty_of_isAnonymous (trimmed : Text.trim p.name = p.name) (blank : p.isAnonymous = true) : p.name = "" := by
  rw [isAnonymous, trimmed] at blank
  exact String.isEmpty_iff.mp blank

theorem isAnonymous_congr (same : p.name = q.name) : p.isAnonymous = q.isAnonymous := by
  rw [isAnonymous, isAnonymous, same]

theorem isAnonymous_unite (blank : (p.unite q).isAnonymous = true) :
    p.isAnonymous = true ∧ q.isAnonymous = true ∧ (p.unite q).name = q.name := by
  have name := unite_name p q
  by_cases here : p.isAnonymous = true
  · rw [if_pos here] at name
    exact ⟨here, isAnonymous_congr name ▸ blank, name⟩
  · rw [if_neg here] at name
    exact absurd (isAnonymous_congr name ▸ blank) here

theorem Covers.unite_left (covers : p.Covers r) (trimmed : Text.trim p.name = p.name)
    (trimmed' : Text.trim q.name = q.name) :
    (p.unite q).Covers r where
  locations l member := by
    rw [unite_locations]
    exact Location.mem_nodes_addNew.mpr (Or.inl (covers.locations l member))
  name blank := by
    obtain ⟨here, there, name⟩ := isAnonymous_unite blank
    rw [covers.name here, name, eq_empty_of_isAnonymous trimmed here, eq_empty_of_isAnonymous trimmed' there]

theorem Covers.unite_right (covers : q.Covers r) (p : Parameter) : (p.unite q).Covers r where
  locations l member := by
    rw [unite_locations]
    exact Location.mem_nodes_addNew.mpr (Or.inr (covers.locations l member))
  name blank := by
    obtain ⟨-, there, name⟩ := isAnonymous_unite blank
    rw [name, covers.name there]

theorem Covers.uniteAll_left (covers : List.Forall₂ Covers ps rs) (trimmed : ∀ p ∈ ps, Text.trim p.name = p.name)
    (trimmed' : ∀ q ∈ qs, Text.trim q.name = q.name) : List.Forall₂ Covers (uniteAll ps qs) rs := by
  induction covers generalizing qs with
  | nil => cases qs <;> exact .nil
  | cons first rest ih =>
    cases qs with
    | nil => exact .cons first rest
    | cons q qs =>
      obtain ⟨here, trimmed⟩ := List.forall_mem_cons.mp trimmed
      obtain ⟨there, trimmed'⟩ := List.forall_mem_cons.mp trimmed'
      refine .cons ?_ (ih trimmed trimmed')
      split
      · exact first.unite_left here there
      · exact first

theorem Covers.uniteAll_right (covers : List.Forall₂ Covers qs rs)
    (same : ps.map (·.declaredType.name) = qs.map (·.declaredType.name)) : List.Forall₂ Covers (uniteAll ps qs) rs := by
  induction covers generalizing ps with
  | nil =>
    rw [List.map_eq_nil_iff.mp same]
    exact .nil
  | cons first rest ih =>
    cases ps with
    | nil => cases same
    | cons p ps =>
      obtain ⟨here, later⟩ := List.cons.inj same
      rw [uniteAll, if_pos here]
      exact .cons (first.unite_right p) (ih later)

end Parameter

end Lists

section Kinds

variable {seen : String → Prop} {d d' : TypeDefinition} {m m' : MethodDefinition}

theorem preferred_eq_left {α : Type} {x y : Option α} (covered : x = none → y = none) : preferred false x y = x := by
  cases x with
  | none => rw [covered rfl]; rfl
  | some a => rfl

theorem TypeDefinition.Covers.unite_eq (covers : d.Covers d') (aligned : d.parentColumns.Aligned)
    (nodup : (d.parents.faces.map Prod.fst).Nodup) (placed : ∀ p ∈ d'.parents, p.Placed seen) : d.unite false d' = d := by
  have parents : d.parentColumns.unite d'.parentColumns = d.parentColumns := by
    refine (aligned.unite _).eq_of_table aligned ?_
    rw [ParentColumns.table_unite]
    exact ParentTable.unite_eq_self nodup placed covers.parents
  obtain ⟨generic, names⟩ : (d.isGeneric || d'.isGeneric) = d.isGeneric ∧ (!d.isGeneric && d'.isGeneric) = false := by
    have covered := covers.isGeneric
    cases here : d.isGeneric <;> cases there : d'.isGeneric <;> simp_all
  unfold TypeDefinition.unite
  rw [parents, generic, names]
  rfl

theorem MethodDefinition.Covers.unite_eq (covers : m.Covers m') : m.unite false m' = m := by
  have parameters := Parameter.uniteAll_eq_self covers.parameters
  have qualifiers : (if !m'.qualifiers.isEmpty && (false || m.qualifiers.isEmpty) then m'.qualifiers
      else m.qualifiers) = m.qualifiers := by
    cases here : m.qualifiers with
    | nil => simp [covers.qualifiers here]
    | cons q rest => simp
  unfold MethodDefinition.unite
  rw [parameters, qualifiers, preferred_eq_left covers.returnType]

theorem MethodDefinition.qualifiers_unite_eq_nil {theirsFirst : Bool} {m m' : MethodDefinition}
    (none : (m.unite theirsFirst m').qualifiers = []) : m.qualifiers = [] ∧ m'.qualifiers = [] := by
  unfold MethodDefinition.unite at none
  dsimp only at none
  split at none
  · rename_i some
    simp [none] at some
  · rename_i other
    refine ⟨none, ?_⟩
    simpa [none] using other

variable {e : TypeDefinition} {w : MethodDefinition} {theirsFirst : Bool}

theorem TypeDefinition.Covers.unite_left (covers : d.Covers e) (d' : TypeDefinition) :
    (d.unite theirsFirst d').Covers e where
  parents p member l place := by
    rw [TypeDefinition.parents_unite]
    exact (covers.parents p member l place).unite_left d'.parents
  isGeneric generic := by simp [TypeDefinition.unite, covers.isGeneric generic]

theorem TypeDefinition.Covers.unite_right (covers : d'.Covers e) (placed : ∀ p ∈ d'.parents, p.Placed seen) :
    (d.unite theirsFirst d').Covers e where
  parents p member l place := by
    rw [TypeDefinition.parents_unite]
    exact (covers.parents p member l place).unite_right placed d.parents
  isGeneric generic := by simp [TypeDefinition.unite, covers.isGeneric generic]

theorem MethodDefinition.Covers.unite_left (covers : m.Covers w)
    (trimmed : ∀ p ∈ m.parameters, Text.trim p.name = p.name)
    (trimmed' : ∀ q ∈ m'.parameters, Text.trim q.name = q.name) : (m.unite theirsFirst m').Covers w where
  returnType none := covers.returnType (preferred_eq_none.mp none).1
  qualifiers none := covers.qualifiers (qualifiers_unite_eq_nil none).1
  parameters := Parameter.Covers.uniteAll_left covers.parameters trimmed trimmed'

theorem MethodDefinition.Covers.unite_right (covers : m'.Covers w)
    (same : m.parameterTypeNames = m'.parameterTypeNames) : (m.unite theirsFirst m').Covers w where
  returnType none := covers.returnType (preferred_eq_none.mp none).2
  qualifiers none := covers.qualifiers (qualifiers_unite_eq_nil none).2
  parameters := Parameter.Covers.uniteAll_right covers.parameters same

end Kinds

namespace Scope

variable {mine theirs s t u : Scope}

@[simp] theorem unite_language (mine theirs : Scope) :
    (mine.unite theirs).language = preferred (mine.yieldsTo theirs) mine.language theirs.language := by
  unfold unite
  rfl

theorem Covers.unite_kind_eq (covers : mine.Covers theirs) (left : mine.Sound) (right : theirs.Sound) :
    mine.kind.unite false theirs.kind = mine.kind := by
  have kind := covers.kind
  generalize here : mine.kind = k, there : theirs.kind = k' at kind
  cases kind with
  | block => rfl
  | @space x y global => cases x <;> cases y <;> simp_all [ScopeKind.unite]
  | @type d d' covers => rw [ScopeKind.unite, covers.unite_eq (left.aligned d here) (left.parents d here) (right.derived d' there)]
  | method covers => rw [ScopeKind.unite, covers.unite_eq]

-- What is covered is taken in without a trace.
theorem Covers.unite_eq (covers : mine.Covers theirs) (left : mine.Sound) (tidy : mine.Tidy) (right : theirs.Sound) :
    mine.unite theirs = mine := by
  have first := yieldsTo_of_subset covers.locations
  have locations : theirs.locations.foldl (fun known l => addLocationTo l known) mine.locations = mine.locations := by
    refine List.foldlRecOn _ _ (motive := fun known => known = mine.locations) rfl ?_
    rintro known rfl l member
    exact addLocationTo_eq_self left.nodes (covers.locations member)
  have declared : theirs.declared.toList.foldl (fun table v => table.unite v) mine.declared = mine.declared := by
    refine List.foldlRecOn _ _ (motive := fun table : VariableTable => table = mine.declared) rfl ?_
    rintro table rfl v member
    obtain ⟨w, listed, place, typed⟩ := covers.declared v member
    obtain ⟨entry, filed, inside⟩ := VariableTable.mem_toList.mp member
    obtain ⟨-, l, only, -⟩ := right.declared entry filed v inside
    rcases mine.declared.named_cases v.name with none | group
    · rw [none] at listed
      cases listed
    · refine VariableTable.alter_eq_self (List.ne_nil_of_mem listed) ?_
      exact VariableTable.uniteInto_eq_self (tidy.declared _ group) listed place only typed
  have calls : Call.addNew mine.calls theirs.calls = mine.calls :=
    addUnknown_eq_self (fun _ _ => Location.sameNode_iff) covers.calls
  have access : (if theirs.access ≠ .unstated ∧ (false = true ∨ mine.access = .unstated) then theirs.access
      else mine.access) = mine.access := by
    by_cases unstated : mine.access = .unstated
    · simp [covers.access unstated]
    · simp [unstated]
  unfold Scope.unite
  rw [first]
  dsimp only
  rw [locations, declared, calls, covers.unite_kind_eq left right, preferred_eq_left covers.language, access]

theorem access_unite_eq_unstated (unstated : (mine.unite theirs).access = .unstated) :
    mine.access = .unstated ∧ theirs.access = .unstated := by
  rw [unite_access] at unstated
  split at unstated
  · rename_i stated
    exact absurd unstated stated.1
  · rename_i other
    refine ⟨unstated, ?_⟩
    by_contra stated
    exact other ⟨stated, Or.inr unstated⟩

theorem covers_self (sound : s.Sound) : s.Covers s where
  locations := List.Subset.refl _
  declared v member := by
    refine ⟨v, ?_, rfl, id⟩
    rw [← sound.filter_declared]
    exact List.mem_filter.mpr ⟨member, by simp⟩
  calls c member := List.mem_map_of_mem member
  access := id
  language := id
  kind := by
    cases s.kind with
    | block => exact .block
    | space x => exact .space id
    | type d =>
      refine .type ⟨?_, id⟩
      exact fun p member l place => ⟨p, member, ParentTable.sameQualifiedName_iff.mpr rfl, List.mem_map_of_mem place⟩
    | method m =>
      refine .method ⟨id, id, List.forall₂_same.mpr ?_⟩
      exact fun p _ => ⟨fun l member => List.mem_map_of_mem member, fun _ => rfl⟩

theorem Covers.unite_kind_left (covers : s.Covers t) (left : s.Sound) (right : u.Sound) :
    (s.unite u).kind.Covers t.kind := by
  have kind := covers.kind
  rw [Scope.unite_kind]
  generalize here : s.kind = k, t.kind = k' at kind
  cases kind with
  | block => exact .block
  | @space x y global =>
    cases u.kind with
    | space z => exact .space fun yes => by simp [global yes]
    | block => exact .space global
    | type d => exact .space global
    | method m => exact .space global
  | @type d e covers =>
    cases u.kind with
    | type d' => exact .type (covers.unite_left d')
    | block => exact .type covers
    | space z => exact .type covers
    | method m => exact .type covers
  | @method m w covers =>
    cases there : u.kind with
    | method m' => exact .method (covers.unite_left (left.trimmed m here) (right.trimmed m' there))
    | block => exact .method covers
    | space z => exact .method covers
    | type d => exact .method covers

theorem Covers.unite_left (covers : s.Covers t) (apart : s.Apart u) (left : s.Sound) (right : u.Sound) (tidy : u.Tidy) :
    (s.unite u).Covers t where
  locations := by
    rw [apart.locations right]
    exact fun l member => List.mem_append_left _ (covers.locations member)
  declared v member := by
    obtain ⟨w, listed, same⟩ := covers.declared v member
    refine ⟨w, ?_, same⟩
    rw [apart.declared left right tidy]
    exact List.mem_append_left _ listed
  calls c member := by
    rw [apart.calls left right tidy, List.map_append]
    exact List.mem_append_left _ (covers.calls c member)
  access unstated := covers.access (access_unite_eq_unstated unstated).1
  language none := by
    rw [unite_language] at none
    exact covers.language (preferred_eq_none.mp none).1
  kind := covers.unite_kind_left left right

theorem Covers.unite_kind_right (covers : u.Covers t) (same : s.key = u.key) (right : u.Sound) :
    (s.unite u).kind.Covers t.kind := by
  have kind := covers.kind
  unfold key at same
  rw [Scope.unite_kind]
  generalize there : u.kind = k, t.kind = k' at kind
  cases kind with
  | block => cases here : s.kind <;> simp_all [ScopeKind.unite, ScopeKind.Covers.block]
  | @space x y global =>
    cases here : s.kind <;> simp only [here, there, reduceCtorEq] at same
    exact .space fun yes => by simp [global yes]
  | @type d' e covers =>
    cases here : s.kind <;> simp only [here, there, reduceCtorEq] at same
    exact .type (covers.unite_right (right.derived d' there))
  | method covers =>
    cases here : s.kind <;> simp only [here, there, reduceCtorEq] at same
    exact .method (covers.unite_right (Key.method.inj same).2.2.2)

theorem Covers.unite_right (covers : u.Covers t) (apart : s.Apart u) (same : s.key = u.key) (left : s.Sound)
    (right : u.Sound) (tidy : u.Tidy) : (s.unite u).Covers t where
  locations := by
    rw [apart.locations right]
    exact fun l member => List.mem_append_right _ (covers.locations member)
  declared v member := by
    obtain ⟨w, listed, alike⟩ := covers.declared v member
    refine ⟨w, ?_, alike⟩
    rw [apart.declared left right tidy]
    exact List.mem_append_right _ listed
  calls c member := by
    rw [apart.calls left right tidy, List.map_append]
    exact List.mem_append_right _ (covers.calls c member)
  access unstated := covers.access (access_unite_eq_unstated unstated).2
  language none := by
    rw [unite_language] at none
    exact covers.language (preferred_eq_none.mp none).2
  kind := covers.unite_kind_right same right

end Scope

section Renaming

theorem ScopeKind.Covers.rebind {k k' : ScopeKind} (covers : k.Covers k') (f g : ScopeId → ScopeId) :
    (k.rebind f).Covers (k'.rebind g) := by
  cases covers with
  | block => exact .block
  | space global => exact .space global
  | type covers =>
    refine .type ⟨?_, covers.isGeneric⟩
    intro p member l place
    rw [TypeDefinition.parents_rebind] at member ⊢
    obtain ⟨p', member', rfl⟩ := List.mem_map.mp member
    obtain ⟨q, listed, named, written⟩ := covers.parents p' member' l place
    refine ⟨_, List.mem_map_of_mem listed, ?_, written⟩
    rw [ParentTable.sameQualifiedName_iff] at named ⊢
    rw [TypeUse.face_rebind, TypeUse.face_rebind, named]
  | method covers =>
    refine .method ⟨?_, ?_, ?_⟩
    · exact fun none => Option.map_eq_none_iff.mpr (covers.returnType (Option.map_eq_none_iff.mp none))
    · exact fun none => List.map_eq_nil_iff.mpr (covers.qualifiers (List.map_eq_nil_iff.mp none))
    · refine List.forall₂_map_left_iff.mpr (List.forall₂_map_right_iff.mpr (covers.parameters.imp ?_))
      exact fun p q both => ⟨both.locations, both.name⟩

theorem VariableTable.named_rebind (f : ScopeId → ScopeId) (table : VariableTable) (name : String) :
    (table.rebind f).named name = (table.named name).map (·.rebind f) := by
  induction table with
  | nil => rfl
  | cons entry rest ih =>
    change named ((entry.1, entry.2.map (·.rebind f)) :: rebind f rest) name = _
    rw [named_cons, named_cons, ih]
    split <;> rfl

theorem Scope.Covers.rebind {s t : Scope} (covers : s.Covers t) (f g : ScopeId → ScopeId) :
    (s.rebind f).Covers (t.rebind g) where
  locations := covers.locations
  declared v member := by
    change v ∈ VariableTable.toList (t.declared.rebind g) at member
    rw [VariableTable.rebind_toList] at member
    obtain ⟨v', member', rfl⟩ := List.mem_map.mp member
    obtain ⟨w, listed, place, typed⟩ := covers.declared v' member'
    refine ⟨w.rebind f, ?_, place, ?_⟩
    · change w.rebind f ∈ VariableTable.named (s.declared.rebind f) v'.name
      rw [VariableTable.named_rebind]
      exact List.mem_map_of_mem listed
    · exact fun none => Option.map_eq_none_iff.mpr (typed (Option.map_eq_none_iff.mp none))
  calls c member := by
    obtain ⟨c', member', rfl⟩ := List.mem_map.mp member
    obtain ⟨d, listed, same⟩ := List.mem_map.mp (covers.calls c' member')
    exact List.mem_map.mpr ⟨d.rebind f, List.mem_map_of_mem listed, same⟩
  access := covers.access
  language := covers.language
  kind := covers.kind.rebind f g

theorem Scope.Covers.rebind_left {s t : Scope} (covers : s.Covers t) (f : ScopeId → ScopeId) :
    (s.rebind f).Covers t := by
  simpa only [Scope.rebind_id] using covers.rebind f id

theorem Scope.Covers.rebind_right {s t : Scope} (covers : s.Covers t) (f : ScopeId → ScopeId) :
    s.Covers (t.rebind f) := by
  simpa only [Scope.rebind_id] using covers.rebind id f

end Renaming

namespace Forest

variable {mine theirs f : Forest} {above : Scope}

def Covers (mine theirs : Forest) : Prop :=
  ∀ path y t below, theirs.at? path = some (y, t, below) →
    ∃ x s under, mine.at? path = some (x, s, under) ∧ s.Covers t

theorem place_eq_self {id x : ScopeId} {s t : Scope} {below under : Forest} (nested : mine.Nests (fun _ s => s.Sound) above)
    (here : t.Sound) (found : mine.find t.key = some (x, s, under)) (same : s.unite t = s)
    (lower : under.absorb below = under) : mine.place id t below = mine := by
  unfold place
  induction mine with
  | nil => cases found
  | tree known kept inside rest _ outer =>
    have entity := Scope.sameEntity_iff nested.1 here
    unfold placeWith
    rw [Forest.find] at found
    split at found
    · rename_i equal
      cases found
      rw [if_pos (entity.mpr equal), same, lower]
    · rename_i differs
      rw [if_neg fun same => differs (entity.mp same), outer nested.2.2 found]

-- A forest takes in what it covers without a trace.
theorem Covers.absorb_eq (covers : mine.Covers theirs) (left : mine.Nests (fun _ s => s.Sound ∧ s.Tidy) above)
    (right : theirs.Nests (fun _ s => s.Sound) above) (distinct : theirs.Distinct) : mine.absorb theirs = mine := by
  induction theirs generalizing mine above with
  | nil => rfl
  | tree id t below rest inner outer =>
    obtain ⟨here, nested, beside⟩ := right
    obtain ⟨x, s, under, (found : mine.find t.key = some (x, s, under)), covered⟩ :=
      covers [t.key] id t below (by simp [at?, Forest.find])
    obtain ⟨⟨sound, tidy⟩, nested'⟩ := left.find found
    have deeper : under.Covers below := by
      intro path y u lower there
      cases path with
      | nil => cases there
      | cons k path =>
        obtain ⟨x', s', under', found', covered'⟩ := covers (t.key :: k :: path) y u lower (by simpa [at?, Forest.find])
        rw [at?, found] at found'
        exact ⟨x', s', under', found', covered'⟩
    have lower := inner deeper nested' (nested.mono fun _ sound => sound) distinct.2.1
    rw [absorb_tree, place_eq_self (left.imp fun _ _ both => both.1) here found (covered.unite_eq sound tidy here) lower]
    exact outer (fun path y u lower there => covers path y u lower (distinct.at?_rest there)) left beside distinct.2.2

theorem Rooted.soundTidy {root : ScopeId} (rooted : f.Rooted True root) (above : Scope) :
    f.Nests (fun _ s => s.Sound ∧ s.Tidy) above := by
  cases rooted with
  | intro isRoot tidy nested =>
    exact ⟨⟨isRoot.sound, tidy trivial⟩, (nested.imp fun _ _ fits => ⟨fits.1.sound, fits.2 trivial⟩), trivial⟩

end Forest

namespace Graph

-- The same graph, up to slots that are free: the same root and the same scopes, so the same view.
structure SameAs (g g' : Graph) : Prop where
  root : g'.root = g.root
  scopes : ∀ x, g'.get? x = g.get? x
  view : ∃ v, g.snapshot = .ok v ∧ g'.snapshot = .ok v

variable {a b m : Graph} {f h : Forest}

theorem AtRest.sameAs_merged (left : a.AtRest True f) (right : b.AtRest True h) (covers : f.Covers h)
    (merged : m.AtRest True (f.merged a.size h)) : a.SameAs m := by
  have shifted := Forest.relabels_shift a.size
  have covers' : f.Covers (h.shift a.size) := by
    intro path y t below there
    rw [shifted.at?] at there
    obtain ⟨⟨y', t', below'⟩, found, same⟩ := Option.map_eq_some_iff.mp there
    cases same
    obtain ⟨x, s, under, found', covered⟩ := covers path y' t' below' found
    exact ⟨x, s, under, found', covered.rebind_right _⟩
  have same : f.merged a.size h = f.mapScopes (·.rebind (f.retired (h.shift a.size)).survivor) := by
    rw [Forest.merged, covers'.absorb_eq (left.rooted.soundTidy .global) ((shifted.rooted right.rooted).sound .global)
      (shifted.distinct right.distinct)]
  rw [same] at merged
  refine ⟨?_, ?_, ?_⟩
  · have roots := merged.rooted.roots
    rw [Forest.roots_mapScopes, left.rooted.roots] at roots
    exact (List.singleton_inj.mp roots).symm
  · intro x
    by_cases live : x ∈ f.ids
    · obtain ⟨entry, listed, rfl⟩ := @Forest.exists_entry_of_mem_ids f none x live
      have renamed := Forest.entries_mapScopes (·.rebind (f.retired (h.shift a.size)).survivor) f none
      have shown := merged.picture.shows.atEntry (renamed ▸ List.mem_map_of_mem listed)
      refine shown.trans ?_
      rw [left.picture.shows.atEntry listed, ← left.rebind_entry right listed]
      simp only [Forest.Entry.mapScopes, Forest.roots_mapScopes]
    · have free : ∀ {g : Graph} {f : Forest}, g.Pictures f → x ∉ f.ids → g.get? x = none := fun picture absent =>
        Option.eq_none_iff_forall_ne_some.mpr fun s found => absent (picture.complete x s found)
      rw [free left.picture live, free merged.picture (by rwa [Forest.ids_mapScopes])]
  · obtain ⟨v, views, shown⟩ := left.snapshot
    obtain ⟨v', views', shown'⟩ := merged.snapshot
    rw [(Forest.relabels_rebind _).views, views] at views'
    cases views'
    exact ⟨v, shown, shown'⟩

theorem AtRest.covers_self (rest : a.AtRest True f) : f.Covers f := by
  intro path y t below found
  exact ⟨y, t, below, found, Scope.covers_self (rest.sound_of_at? found).1⟩

variable (left : a.AtRest True f) (right : b.AtRest True h) (apart : ∀ file, a.Sees file → ¬ b.Sees file)

include left right apart

theorem AtRest.covers_left : (f.merged a.size h).Covers f := by
  intro path x s below here
  obtain ⟨sound, -, -⟩ := left.sound_of_at? here
  have covers := Scope.covers_self sound
  rw [left.at?_merged right path, here]
  cases there : h.at? path with
  | none => exact ⟨_, _, _, rfl, covers.rebind_left _⟩
  | some found =>
    obtain ⟨y, t, under⟩ := found
    obtain ⟨sound', tidy', -⟩ := right.sound_of_at? there
    obtain ⟨apart', -⟩ := left.meet right apart here there
    refine ⟨_, _, _, rfl, Scope.Covers.rebind_left ?_ _⟩
    exact covers.unite_left apart' sound (sound'.rebind _) ((tidy' trivial).rebind _)

theorem AtRest.covers_right : (f.merged a.size h).Covers h := by
  intro path y t under there
  obtain ⟨sound', tidy', -⟩ := right.sound_of_at? there
  have covers := (Scope.covers_self sound').rebind_left (· + a.size)
  rw [left.at?_merged right path, there]
  cases here : f.at? path with
  | none => exact ⟨_, _, _, rfl, covers.rebind_left _⟩
  | some found =>
    obtain ⟨x, s, below⟩ := found
    obtain ⟨sound, -, -⟩ := left.sound_of_at? here
    obtain ⟨apart', key⟩ := left.meet right apart here there
    refine ⟨_, _, _, rfl, Scope.Covers.rebind_left ?_ _⟩
    have key' := key.trans (@Scope.key_rebind t (· + a.size)).symm
    exact covers.unite_right apart' key' sound (sound'.rebind _) ((tidy' trivial).rebind _)

omit left right

-- Two graphs with no file in common, of units with distinct positions: a graph takes in itself, and the two merged take
-- in either of them, without a trace.
theorem merge_absorbs_known (first : a.Reached Element.Distinct) (second : b.Reached Element.Distinct) :
    ∃ twice m again again', a.merge a = .ok twice ∧ a.merge b = .ok m ∧ m.merge a = .ok again ∧ m.merge b = .ok again' ∧
      a.SameAs twice ∧ m.SameAs again ∧ m.SameAs again' := by
  obtain ⟨f, left⟩ := first.atRest fun _ (_ : True) distinct => distinct
  obtain ⟨h, right⟩ := second.atRest fun _ (_ : True) distinct => distinct
  obtain ⟨twice, doubled, restTwice⟩ := left.merge left
  obtain ⟨m, merged, rest⟩ := left.merge right
  obtain ⟨again, merged', restAgain⟩ := rest.merge left
  obtain ⟨again', merged'', restAgain'⟩ := rest.merge right
  refine ⟨twice, m, again, again', doubled, merged, merged', merged'', ?_, ?_, ?_⟩
  · exact left.sameAs_merged left left.covers_self restTwice
  · exact rest.sameAs_merged left (left.covers_left right apart) restAgain
  · exact rest.sameAs_merged right (left.covers_right right apart) restAgain'

omit apart

-- Shapes of two files, with parameters of different names, merged once and then each of them again.
theorem shapes_absorbed :
    ∃ a b twice m again again', surveyUnit .cPlusPlus (shapeUnit "a.cpp" "x") = .ok a ∧
      surveyUnit .cPlusPlus (shapeUnit "b.cpp" "y") = .ok b ∧ (∀ file, a.Sees file → ¬ b.Sees file) ∧
      a.merge a = .ok twice ∧ a.merge b = .ok m ∧ m.merge a = .ok again ∧ m.merge b = .ok again' ∧
      a.SameAs twice ∧ m.SameAs again ∧ m.SameAs again' := by
  obtain ⟨a, b, surveyed, surveyed'⟩ := shapeUnit_surveyed
  have apart := surveyed_apart surveyed surveyed' (by decide)
  obtain ⟨twice, m, again, again', merged⟩ := merge_absorbs_known apart (.surveyed (shapeUnit_distinct _ _) surveyed)
    (.surveyed (shapeUnit_distinct _ _) surveyed')
  exact ⟨a, b, twice, m, again, again', surveyed, surveyed', apart, merged⟩

end Graph

end ScopeAtlas
