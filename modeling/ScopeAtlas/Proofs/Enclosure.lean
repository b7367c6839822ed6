import ScopeAtlas.Proofs.Filing

namespace ScopeAtlas

namespace Lexical

-- A call or declaration to be filed. `around` has the location of each scope that is open there, the nearest first.
structure Filing where
  record : Record
  around : List Location
deriving DecidableEq, Repr

def Filing.node (h : Filing) : String × String := h.record.node

abbrev Within := Place → (around : List Location) → List Filing

def opening (p : Profile) (file : String) (e : Element) : Location :=
  .ofElement file e (match p.role e.tag with
    | .type | .method => p.isReference e.tag
    | _ => false)

-- A namespace without a name is opened as well.
def spaceDepth (e : Element) : Nat := max 1 (((e.element? "name").map (·.segmentNames)).getD []).length

def isNamedCall (e : Element) : Bool := (e.element? "name").any (!·.segments.isEmpty)

def names (file : String) (e : Element) (around : List Location) : List Filing :=
  (e.elementsNamed "name").map fun name => ⟨⟨false, .ofElement file name false⟩, around⟩

def declarator (file : String) (e : Element) (within : Within) (around : List Location) : List Filing :=
  names file e around ++ within .initializers around

def call (file : String) (e : Element) (within : Within) (around : List Location) : List Filing :=
  if isNamedCall e then ⟨⟨true, .ofElement file e false⟩, around⟩ :: within .call around
  else within .statements around

def visit (p : Profile) (file : String) (e : Element) (within : Within) (around : List Location) : List Filing :=
  match p.role e.tag with
  | .transparent => within (if e.tag = "template" then .template else .statements) around
  | .type | .method | .container => within (p.bodyOf e.tag) (opening p file e :: around)
  | .space => within .spaceBody (List.replicate (spaceDepth e) (opening p file e) ++ around)
  | .declaration => within (.declarators none) around
  | .latecomer | .comment => []
  | .call => call file e within around
  | .declarator => declarator file e within around
  | .plain => within .statements around

def treat (p : Profile) (file : String) (e : Element) (within : Within) (around : List Location) : Treatment → List Filing
  | .skip => []
  | .visit => visit p file e within around
  | .enter place => within place around
  | .enterSpace => within (.leading false) around
  | .declare _ => declarator file e within around

-- What is to be filed among some siblings, the first of which stands in the given place.
def filings (p : Profile) (file : String) : Content → Within
  | .nil, _, _ => []
  | .text _ rest, place, around => filings p file rest place around
  | .element tag attributes position line inner rest, place, around =>
    treat p file ⟨tag, attributes, position, line, inner⟩ (filings p file inner) around (place.treatment p tag) ++
      filings p file rest (place.next p tag none) around

-- The scopes around the statements of a unit: the root, and in it those of a package stated first.
def unitAround (p : Profile) (e : Element) : List Location :=
  let package := (p.leadingPackage? e.elements).elim [] fun package =>
    List.replicate (((package.element? "name").map (·.segmentNames)).getD []).length (.ofElement e.fileName package false)
  package ++ [.ofElement e.fileName e false]

def unitFilings (p : Profile) (e : Element) : List Filing :=
  filings p e.fileName e.content (.leading true) (unitAround p e)

section Positions

variable {p : Profile} {file : String} {e : Element} {within : Within} {content : Content}

-- The type of a declarator has no part in what is filed.
theorem filings_declarators (previous : Option TypeUse) (around : List Location) :
    filings p file content (.declarators previous) around = filings p file content (.declarators none) around := by
  induction content generalizing previous with
  | nil => rfl
  | text run rest ih => exact ih previous
  | element tag attributes position line inner rest _ ih =>
    by_cases decl : tag = "decl"
    · simp only [filings, Place.treatment, Place.next, decl, if_true, treat]
    · simp only [filings, Place.treatment, Place.next, decl, if_false, treat, ih previous]

theorem filings_next (place : Place) (tag : String) (type : Option TypeUse) (around : List Location) :
    filings p file content (place.next p tag type) around = filings p file content (place.next p tag none) around := by
  cases place with
  | declarators previous =>
    simp only [Place.next]
    rw [filings_declarators, filings_declarators (if tag = "decl" then none else previous)]
  | _ => rfl

-- Nothing is filed that is not written, or twice.
structure Covers (file : String) (content : Content) (within : Within) : Prop where
  all : ∀ place around, ((within place around).map Filing.node).Subperm (content.positions.map (Prod.mk file))
  besideNames : ∀ around,
    ((within .initializers around).map Filing.node).Subperm (content.positionsBesideNames.map (Prod.mk file))

theorem names_covered (file : String) (e : Element) (around : List Location) :
    (names file e around).map Filing.node = ((e.elementsNamed "name").map (·.position)).map (Prod.mk file) := by
  rw [names, List.map_map, List.map_map]
  rfl

theorem Covers.declarator (covers : Covers file e.content within) (around : List Location) :
    ((declarator file e within around).map Filing.node).Subperm (e.content.positions.map (Prod.mk file)) := by
  rw [Lexical.declarator, List.map_append, names_covered]
  have named := e.content.names_subperm.map (Prod.mk_right_injective file)
  rw [List.map_append] at named
  exact ((List.subperm_append_left _).mpr (covers.besideNames around)).trans named

theorem Covers.visit (covers : Covers file e.content within) (around : List Location) :
    ((visit p file e within around).map Filing.node).Subperm ((e.position :: e.content.positions).map (Prod.mk file)) := by
  have inner : ∀ {l : List (String × String)}, l.Subperm (e.content.positions.map (Prod.mk file)) →
      l.Subperm ((e.position :: e.content.positions).map (Prod.mk file)) :=
    fun below => below.trans (List.sublist_cons_self _ _).subperm
  unfold Lexical.visit
  cases p.role e.tag with
  | transparent | type | method | container | space | declaration | plain => exact inner (covers.all _ _)
  | latecomer | comment => exact List.nil_subperm
  | call =>
    dsimp only
    unfold call
    split
    · exact (List.subperm_cons _).mpr (covers.all .call around)
    · exact inner (covers.all .statements around)
  | declarator => exact inner (covers.declarator around)

theorem Covers.treat (covers : Covers file e.content within) (around : List Location) (treatment : Treatment) :
    ((treat p file e within around treatment).map Filing.node).Subperm
      ((e.position :: e.content.positions).map (Prod.mk file)) := by
  have inner : (e.content.positions.map (Prod.mk file)).Subperm ((e.position :: e.content.positions).map (Prod.mk file)) :=
    (List.sublist_cons_self _ _).subperm
  cases treatment with
  | skip => exact List.nil_subperm
  | visit => exact covers.visit around
  | enter place => exact (covers.all place around).trans inner
  | enterSpace => exact (covers.all (.leading false) around).trans inner
  | declare previous => exact (covers.declarator around).trans inner

theorem filings_covers (p : Profile) (file : String) (content : Content) :
    Covers file content (filings p file content) := by
  induction content with
  | nil => exact ⟨fun _ _ => List.nil_subperm, fun _ => List.nil_subperm⟩
  | text run rest ih => exact ⟨fun place around => ih.all place around, fun around => ih.besideNames around⟩
  | element tag attributes position line inner rest ihInner ihRest =>
    let e : Element := ⟨tag, attributes, position, line, inner⟩
    have covers : Covers file e.content (filings p file inner) := ihInner
    constructor
    · intro place around
      rw [Content.positions_element, filings, List.map_append, List.map_append]
      exact (covers.treat around _).append (ihRest.all _ around)
    · intro around
      rw [filings, Content.positionsBesideNames, List.map_append, List.map_append]
      refine List.Subperm.append ?_ (ihRest.besideNames around)
      by_cases name : tag = "name"
      · simp only [Place.treatment, name, or_true, if_true, Lexical.treat]
        exact List.nil_subperm
      · rw [if_neg name]
        exact covers.treat around _

theorem unitFilings_nodup (distinct : e.content.positions.Nodup) : ((unitFilings p e).map Filing.node).Nodup := by
  obtain ⟨l, same, among⟩ := (filings_covers p e.fileName e.content).all (.leading true) (unitAround p e)
  exact same.nodup_iff.mp ((distinct.map (Prod.mk_right_injective e.fileName)).sublist among)

end Positions

section Forests

variable {places : Set Location} {around : List Location} {listed : Multiset Filing} {f f' mine below rest : Forest}
  {here id : ScopeId} {m s : Scope} {l : Location}

def SeenAt (l : Location) (s : Scope) : Prop := l ∈ s.locations

-- A forest in which some filings are made and no others, while scopes are open at the locations `around`.
structure Keeps (places : Set Location) (around : List Location) (listed : Multiset Filing) (f : Forest) : Prop where
  openAt : List.Forall₂ SeenAt around f.openScopes
  filed : Level.filed f.standing = listed.map Filing.record
  held : ∀ h ∈ listed, ∃ level ∈ f.standing, h.record ∈ level.scope.filed ∧ List.Forall₂ SeenAt h.around level.path
  placed : ∀ level ∈ f.standing, ∀ l ∈ level.scope.locations, l ∈ places

theorem seenAt_of_heldBy {above above' : List Scope} (seen : List.Forall₂ SeenAt around above)
    (held : List.Forall₂ Scope.HeldBy above above') : List.Forall₂ SeenAt around above' := by
  induction seen generalizing above' with
  | nil =>
    cases held
    exact .nil
  | cons first _ ih =>
    cases held with
    | cons here later => exact .cons (here.locations first) (ih later)

theorem Keeps.orderly (keeps : Keeps places around listed f) (nodup : (listed.map Filing.node).Nodup) :
    Level.Orderly places f.standing := by
  refine ⟨?_, keeps.placed⟩
  rw [keeps.filed, Multiset.map_map]
  exact nodup

theorem Keeps.gathered {around' : List Location} (keeps : Keeps places around listed f)
    (gathered : Level.Gathered f.standing f'.standing) (openAt : List.Forall₂ SeenAt around' f'.openScopes) :
    Keeps places around' listed f' := by
  refine ⟨openAt, gathered.filed.trans keeps.filed, ?_, ?_⟩
  · intro h member
    obtain ⟨level, member, recorded, seen⟩ := keeps.held h member
    obtain ⟨level', member', held⟩ := gathered.kept level member
    exact ⟨level', member', (Level.heldBy_iff.mp held).1.filed recorded, seenAt_of_heldBy seen held⟩
  · intro level member l seen
    obtain ⟨level', member', seen'⟩ := gathered.seen level member l seen
    exact keeps.placed level' member' l seen'

theorem Keeps.opened (keeps : Keeps places around listed f) (empty : s.filed = []) (only : s.locations = [l])
    (place : l ∈ places) : Keeps places (l :: around) listed (.tree id s .nil f) := by
  have new : (Forest.tree id s .nil f).standing = ⟨s, f.openScopes⟩ ::ₘ f.standing := by
    rw [Forest.standing, Forest.levels, zero_add, Multiset.singleton_add]
  refine ⟨.cons (by simp [SeenAt, only]) keeps.openAt, ?_, ?_, ?_⟩
  · rw [new, Level.filed_cons, keeps.filed]
    simp [empty]
  · intro h member
    obtain ⟨level, member, held⟩ := keeps.held h member
    exact ⟨level, new ▸ Multiset.mem_cons_of_mem member, held⟩
  · intro level member k seen
    rw [new, Multiset.mem_cons] at member
    rcases member with rfl | old
    · rw [only, List.mem_singleton] at seen
      exact seen ▸ place
    · exact keeps.placed level old k seen

theorem Keeps.closed (keeps : Keeps places (l :: around) listed (.tree id s below (.tree here m mine rest)))
    (once : Location.Unambiguous places) (nodup : (listed.map Filing.node).Nodup) (rename : ScopeId → ScopeId) :
    Keeps places around listed ((Forest.tree here m (mine.place id s below) rest).mapScopes (·.rebind rename)) := by
  refine keeps.gathered (Forest.gathered_close once rename (keeps.orderly nodup)) ?_
  rw [Forest.openScopes_mapScopes, List.forall₂_map_right_iff]
  obtain ⟨-, outer⟩ := List.forall₂_cons.mp keeps.openAt
  exact outer

theorem Keeps.filled {m' : Scope} {new : List Record} (keeps : Keeps places around listed (.tree here m mine rest))
    (filed : m'.filed.Perm (new ++ m.filed)) (located : m'.locations = m.locations) :
    Keeps places around (↑(new.map fun r => Filing.mk r around) + listed) (.tree here m' mine rest) := by
  have held : m.HeldBy m' := by
    refine ⟨fun r member => filed.mem_iff.mpr (List.mem_append_right _ member), ?_⟩
    rw [located]
    exact List.Subset.refl _
  have path : List.Forall₂ Scope.HeldBy (m :: rest.openScopes) (m' :: rest.openScopes) := .cons held (Forest.heldBy_self _)
  have others := (Forest.gathered_levels mine path).add (Level.Gathered.refl rest.standing)
  have openAt := seenAt_of_heldBy keeps.openAt path
  refine ⟨openAt, ?_, ?_, ?_⟩
  · have before := keeps.filed
    rw [Forest.standing, Multiset.singleton_add, Level.filed_cons] at before
    rw [Forest.standing, Multiset.singleton_add, Level.filed_cons, others.filed, Multiset.map_add, ← before,
      Multiset.coe_eq_coe.mpr filed, ← Multiset.coe_add, add_assoc, Multiset.map_coe, List.map_map]
    simp [Function.comp_def]
  · intro h member
    rcases Multiset.mem_add.mp member with first | later
    · obtain ⟨r, listed, rfl⟩ := List.mem_map.mp (Multiset.mem_coe.mp first)
      refine ⟨⟨m', rest.openScopes⟩, by simp [Forest.standing], ?_, openAt⟩
      exact filed.mem_iff.mpr (List.mem_append_left _ listed)
    · obtain ⟨level, member, recorded, seen⟩ := keeps.held h later
      rw [Forest.standing, Multiset.mem_add, Multiset.mem_singleton] at member
      rcases member with rfl | member
      · exact ⟨⟨m', rest.openScopes⟩, by simp [Forest.standing], held.filed recorded, seenAt_of_heldBy seen path⟩
      · obtain ⟨level', member', held'⟩ := others.kept level member
        refine ⟨level', ?_, (Level.heldBy_iff.mp held').1.filed recorded, seenAt_of_heldBy seen held'⟩
        exact Multiset.mem_add.mpr (Or.inr member')
  · intro level member k seen
    rw [Forest.standing, Multiset.mem_add, Multiset.mem_singleton] at member
    rcases member with rfl | member
    · exact keeps.placed ⟨m, rest.openScopes⟩ (by simp [Forest.standing]) k (located ▸ seen)
    · obtain ⟨level', member', seen'⟩ := others.seen level member k seen
      exact keeps.placed level' (Multiset.mem_add.mpr (Or.inr member')) k seen'

end Forests

end Lexical

end ScopeAtlas
