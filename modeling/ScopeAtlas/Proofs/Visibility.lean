import ScopeAtlas.Proofs.Lineages
import ScopeAtlas.Proofs.Links

namespace ScopeAtlas

open Relation

def Import.Brings (i : Import) (name : String) : Prop := i.isWhole = true ∨ i.symbolName? = some name

theorem Import.admits_iff {i : Import} {name : String} : i.admits name = true ↔ i.Brings name := by
  unfold admits Brings isWhole symbolName?
  cases i.symbol <;> simp

theorem mem_of_mapM {α β : Type} {search : α → Except Fault β} {places : List α} {found : List β} {b : β}
    (run : places.mapM search = .ok found) (member : b ∈ found) : ∃ place ∈ places, search place = .ok b := by
  induction places generalizing found with
  | nil =>
    cases run
    cases member
  | cons place rest ih =>
    rw [List.mapM_cons] at run
    obtain ⟨first, searched, run⟩ := ok_of_bind run
    obtain ⟨others, later, same⟩ := ok_of_bind run
    cases same
    rcases List.mem_cons.mp member with rfl | member
    · exact ⟨place, List.mem_cons_self, searched⟩
    · obtain ⟨place', listed, searched'⟩ := ih later member
      exact ⟨place', List.mem_cons_of_mem _ listed, searched'⟩

namespace Graph

def Called (g : Graph) (category : Category) (name : String) (x : ScopeId) : Prop :=
  ∃ s, g.get? x = some s ∧ s.IsCalled category name

-- A path of names leads from one scope to another, through namespaces and types.
def Leads (g : Graph) : List String → ScopeId → ScopeId → Prop
  | [], x, y => x = y
  | name :: path, x, y =>
    ∃ z, g.Lists x z ∧ (g.Called .space name z ∨ g.Called .type name z) ∧ g.Leads path z y

-- The names of the scopes around a scope, outermost first; blocks and the global namespace have none.
inductive Qualified (g : Graph) : ScopeId → List String → Prop
  | top {x : ScopeId} {s : Scope} (found : g.get? x = some s) (outermost : s.parent = none) : g.Qualified x []
  | inner {p x : ScopeId} {s : Scope} {names : List String} (found : g.get? p = some s) (lists : g.Lists p x)
      (above : g.Qualified p names) : g.Qualified x (names ++ s.pathName?.toList)

end Graph

-- How a written type may come to denote a type.
inductive TypeUse.Sees (g : Graph) (u : TypeUse) (c : ScopeId) : Prop
  | enclosing {e : ScopeId} (plain : u.qualifiers = []) (around : ReflTransGen g.Lists e u.scope) (lists : g.Lists e c)
  | inherited {t p : ScopeId} (plain : u.qualifiers = []) (around : ReflTransGen g.Lists t u.scope)
      (type : g.hasCategory .type t = true) (inherits : ReflTransGen g.Inherits t p) (lists : g.Lists p c)
  | imported {i : Import} {p : ScopeId} (plain : u.qualifiers = []) (inForce : i ∈ u.imports) (brings : i.Brings u.name)
      (leads : g.Leads i.pathNames g.root p) (lists : g.Lists p c)
  | relative {e : ScopeId} {s : Scope} {names : List String} (qualified : u.qualifiers ≠ [])
      (around : ReflTransGen g.Lists e u.scope) (found : g.get? e = some s) (outer : g.Qualified e names)
      (spelled : g.Qualified c (names ++ s.pathName?.toList ++ u.qualifierNames))
  | relativeToImport {i : Import} {first : String} {later : List String} (qualified : u.qualifierNames = first :: later)
      (inForce : i ∈ u.imports) (brings : i.Brings first) (spelled : g.Qualified c (i.pathNames ++ u.qualifierNames))

namespace Graph

variable {g : Graph} {category : Category} {name : String} {names path : List String} {x p c t : ScopeId} {s : Scope}
  {found here : List ScopeId} {u : TypeUse}

section Naming

theorem IsForest.ancestors_of_lists (forest : g.IsForest) (lists : g.Lists p x) : g.ancestors x = p :: g.ancestors p := by
  obtain ⟨s, found, inner⟩ := forest.child p x lists
  obtain ⟨up, above, nodup⟩ := forest.exists_chain found
  rw [ancestors_eq found above nodup]
  rw [inner] at above
  cases up with
  | nil => cases above
  | cons q up =>
    obtain ⟨same, t, found', further⟩ := above
    cases same
    rw [ancestors_eq found' further nodup.of_cons]

theorem IsForest.qualifierNames_of_lists (forest : g.IsForest) (lists : g.Lists p x) :
    g.qualifierNames x = g.namePath p := by
  rw [qualifierNames, forest.ancestors_of_lists lists, namePath, qualifierNames]
  cases name : g.nameOf? p <;> simp [name]

theorem namePath_of_get? (found : g.get? x = some s) : g.namePath x = g.qualifierNames x ++ s.pathName?.toList := by
  rw [namePath, nameOf?, found, Option.bind_some]

theorem qualifierNames_top (found : g.get? x = some s) (outermost : s.parent = none) : g.qualifierNames x = [] := by
  have above : g.Chain s.parent [] := outermost
  rw [qualifierNames, ancestors_eq found above (List.nodup_singleton x)]
  rfl

theorem IsForest.qualified_iff (forest : g.IsForest) (found : g.get? x = some s) :
    g.Qualified x names ↔ g.qualifierNames x = names := by
  constructor
  · intro qualified
    clear found
    induction qualified with
    | top found outermost => exact qualifierNames_top found outermost
    | inner found lists _ ih => rw [forest.qualifierNames_of_lists lists, namePath_of_get? found, ih]
  · rintro rfl
    induction x using forest.above_wellFounded.induction generalizing s with
    | h x ih =>
      cases inner : s.parent with
      | none =>
        rw [qualifierNames_top found inner]
        exact .top found inner
      | some p =>
        have lists := forest.listed x s p found inner
        obtain ⟨t, found'⟩ := contains_iff.mp lists.live
        rw [forest.qualifierNames_of_lists lists, namePath_of_get? found']
        exact .inner found' lists (ih p lists found')

end Naming

section Searching

variable (tree : g.IsOneTree)
include tree

theorem IsOneTree.mem_childrenWith {test : Scope → Bool} (run : g.childrenWith test p = .ok here) :
    c ∈ here ↔ g.Lists p c ∧ ∃ s, g.get? c = some s ∧ test s = true := by
  rw [tree.childrenWith_eq] at run
  cases run
  rw [List.mem_filter, Option.any_eq_true]
  refine and_congr_left fun _ => ?_
  unfold children
  cases found : g.get? p <;> simp [Lists, found]

theorem IsOneTree.mem_childrenNamedOf (run : g.childrenNamedOf category name p = .ok here) :
    c ∈ here ↔ g.Lists p c ∧ g.Called category name c := by
  rw [tree.mem_childrenWith run]
  refine and_congr_right fun _ => exists_congr fun s => and_congr_right fun _ => ?_
  simp only [Bool.and_eq_true, beq_iff_eq]
  exact ⟨fun called => ⟨called.2, called.1⟩, fun called => ⟨called.named, called.sort⟩⟩

theorem IsOneTree.mem_spacesAndTypesCalled (run : g.spacesAndTypesCalled name p = .ok here) :
    c ∈ here ↔ g.Lists p c ∧ (g.Called .space name c ∨ g.Called .type name c) := by
  rw [tree.mem_childrenWith run]
  refine and_congr_right fun _ => ?_
  unfold Called
  rw [← exists_or]
  refine exists_congr fun s => ?_
  rw [← and_or_left]
  refine and_congr_right fun _ => ?_
  simp only [Bool.and_eq_true, Bool.or_eq_true, beq_iff_eq]
  exact ⟨fun called => called.2.imp (⟨·, called.1⟩) (⟨·, called.1⟩),
    fun called => called.elim (fun space => ⟨space.named, .inl space.sort⟩) fun type => ⟨type.named, .inr type.sort⟩⟩

-- The induction is on the path, from any scopes that the way starts at.
theorem IsOneTree.mem_path {starts : List ScopeId} (run : path.foldlM (fun reached name =>
      return (← reached.mapM (g.spacesAndTypesCalled name)).flatten) starts = .ok found) :
    x ∈ found ↔ ∃ r ∈ starts, g.Leads path r x := by
  induction path generalizing starts with
  | nil =>
    cases run
    simp [Leads]
  | cons name path ih =>
    rw [List.foldlM_cons] at run
    obtain ⟨next, step, run⟩ := ok_of_bind run
    obtain ⟨lists, searched, same⟩ := ok_of_bind step
    cases same
    have mem_next {z : ScopeId} : z ∈ lists.flatten ↔
        ∃ r ∈ starts, g.Lists r z ∧ (g.Called .space name z ∨ g.Called .type name z) := by
      rw [List.mem_flatten]
      constructor
      · rintro ⟨here, listed, member⟩
        obtain ⟨r, start, searched'⟩ := mem_of_mapM searched listed
        exact ⟨r, start, (tree.mem_spacesAndTypesCalled searched').mp member⟩
      · rintro ⟨r, start, called⟩
        obtain ⟨here, listed, searched'⟩ := ok_of_mapM searched r start
        exact ⟨here, listed, (tree.mem_spacesAndTypesCalled searched').mpr called⟩
    rw [ih run]
    constructor
    · rintro ⟨z, member, leads⟩
      obtain ⟨r, start, lists, called⟩ := mem_next.mp member
      exact ⟨r, start, z, lists, called, leads⟩
    · rintro ⟨r, start, z, lists, called, leads⟩
      exact ⟨z, mem_next.mpr ⟨r, start, lists, called⟩, leads⟩

theorem IsOneTree.mem_importedNamed {i : Import} (run : g.importedNamed category name i = .ok found) :
    c ∈ found ↔ g.Called category name c ∧ i.Brings name ∧ ∃ p, g.Leads i.pathNames g.root p ∧ g.Lists p c := by
  obtain ⟨scopes, searched, run⟩ := ok_of_bind run
  have mem_scopes {p : ScopeId} : p ∈ scopes ↔ i.Brings name ∧ g.Leads i.pathNames g.root p := by
    unfold importedScopes at searched
    split at searched
    · rename_i admits
      have start : p ∈ scopes ↔ ∃ r ∈ [g.root], g.Leads i.pathNames r p := tree.mem_path searched
      rw [start, ← Import.admits_iff]
      simp [admits]
    · rename_i refuses
      cases searched
      simp [← Import.admits_iff, refuses]
  rw [mem_searchEach run]
  constructor
  · rintro ⟨p, listed, here, searched', member⟩
    obtain ⟨lists, called⟩ := (tree.mem_childrenNamedOf searched').mp member
    obtain ⟨brings, leads⟩ := mem_scopes.mp listed
    exact ⟨called, brings, p, leads, lists⟩
  · rintro ⟨called, brings, p, leads, lists⟩
    have listed := mem_scopes.mpr ⟨brings, leads⟩
    obtain ⟨here, searched', -⟩ := ok_of_searchEach run p listed
    exact ⟨p, listed, here, searched', (tree.mem_childrenNamedOf searched').mpr ⟨lists, called⟩⟩

def Offers (g : Graph) (x c : ScopeId) : Prop :=
  g.Lists x c ∨ g.hasCategory .type x = true ∧ ∃ p, ReflTransGen g.Inherits x p ∧ g.Lists p c

theorem IsOneTree.mem_membersNamed (run : g.membersNamed category name x = .ok found) :
    c ∈ found ↔ g.Called category name c ∧ g.Offers x c := by
  obtain ⟨own, searched, run⟩ := ok_of_bind run
  obtain ⟨s, here, run⟩ := ok_of_bind run
  have type : g.hasCategory .type x = (s.category == .type) := by
    unfold scope at here
    unfold hasCategory
    cases slot : g.get? x with
    | none => simp [slot] at here
    | some s' =>
      rw [slot] at here
      cases here
      rfl
  unfold Offers
  rw [type]
  split at run
  · rename_i isType
    obtain ⟨lineage, climbed, run⟩ := ok_of_bind run
    obtain ⟨inherited, searched', same⟩ := ok_of_bind run
    cases same
    -- A lineage starts with the type itself, whose own members are searched before.
    obtain ⟨above, whole, -⟩ := lineageWith_eq_cons climbed
    have mem_above {p : ScopeId} : p = x ∨ p ∈ above ↔ ReflTransGen g.Inherits x p := by
      rw [← mem_lineage_iff climbed, whole, List.mem_cons]
    rw [whole, List.tail_cons] at searched'
    rw [mem_addNewIds, tree.mem_childrenNamedOf searched, mem_searchEach searched']
    constructor
    · rintro (⟨lists, called⟩ | ⟨p, listed, more, searched'', member⟩)
      · exact ⟨called, Or.inl lists⟩
      · obtain ⟨lists, called⟩ := (tree.mem_childrenNamedOf searched'').mp member
        exact ⟨called, Or.inr ⟨isType, p, mem_above.mp (Or.inr listed), lists⟩⟩
    · rintro ⟨called, lists | ⟨-, p, inherits, lists⟩⟩
      · exact Or.inl ⟨lists, called⟩
      · rcases mem_above.mpr inherits with rfl | listed
        · exact Or.inl ⟨lists, called⟩
        · obtain ⟨more, searched'', -⟩ := ok_of_searchEach searched' p listed
          exact Or.inr ⟨p, listed, more, searched'', (tree.mem_childrenNamedOf searched'').mpr ⟨lists, called⟩⟩
  · rename_i noType
    cases run
    rw [tree.mem_childrenNamedOf searched]
    simp [noType, and_comm]

theorem IsOneTree.mem_lookup {imports : List Import} (run : g.lookup category name imports x = .ok found) :
    c ∈ found ↔ g.Called category name c ∧ ((∃ e ∈ g.ancestorsAndSelf x, g.Offers e c) ∨
      ∃ i ∈ imports, i.Brings name ∧ ∃ p, g.Leads i.pathNames g.root p ∧ g.Lists p c) := by
  obtain ⟨enclosing, searched, run⟩ := ok_of_bind run
  obtain ⟨imported, searched', same⟩ := ok_of_bind run
  cases same
  rw [mem_addNewIds, mem_searchEach searched, mem_searchEach searched', and_or_left]
  refine or_congr ?_ ?_
  · constructor
    · rintro ⟨e, listed, here, members, member⟩
      obtain ⟨called, offers⟩ := (tree.mem_membersNamed members).mp member
      exact ⟨called, e, listed, offers⟩
    · rintro ⟨called, e, listed, offers⟩
      obtain ⟨here, members, -⟩ := ok_of_searchEach searched e listed
      exact ⟨e, listed, here, members, (tree.mem_membersNamed members).mpr ⟨called, offers⟩⟩
  · constructor
    · rintro ⟨i, listed, here, members, member⟩
      obtain ⟨called, brings⟩ := (tree.mem_importedNamed members).mp member
      exact ⟨called, i, listed, brings⟩
    · rintro ⟨called, i, listed, brings⟩
      obtain ⟨here, members, -⟩ := ok_of_searchEach searched' i listed
      exact ⟨i, listed, here, members, (tree.mem_importedNamed members).mpr ⟨called, brings⟩⟩

variable (forest : g.IsForest) (live : g.contains u.scope = true)
include forest live

theorem IsOneTree.mem_plain (plain : u.qualifiers = []) (run : g.lookup .type u.name u.imports u.scope = .ok found) :
    c ∈ found ↔ g.Called .type u.name c ∧ u.Sees g c := by
  rw [tree.mem_lookup run]
  refine and_congr_right fun _ => ⟨?_, ?_⟩
  · rintro (⟨e, around, lists | ⟨type, p, inherits, lists⟩⟩ | ⟨i, inForce, brings, p, leads, lists⟩)
    · exact .enclosing plain ((forest.mem_ancestorsAndSelf_iff live).mp around) lists
    · exact .inherited plain ((forest.mem_ancestorsAndSelf_iff live).mp around) type inherits lists
    · exact .imported plain inForce brings leads lists
  · intro sees
    cases sees with
    | enclosing _ around lists =>
      exact Or.inl ⟨_, (forest.mem_ancestorsAndSelf_iff live).mpr around, Or.inl lists⟩
    | inherited _ around type inherits lists =>
      exact Or.inl ⟨_, (forest.mem_ancestorsAndSelf_iff live).mpr around, Or.inr ⟨type, _, inherits, lists⟩⟩
    | imported _ inForce brings leads lists => exact Or.inr ⟨_, inForce, brings, _, leads, lists⟩
    | relative qualified => exact absurd plain qualified
    | relativeToImport qualified => simp [TypeUse.qualifierNames, plain] at qualified

theorem IsOneTree.mem_contextPaths {context : List String} : context ∈ u.contextPaths g ↔
    (∃ e s names, ReflTransGen g.Lists e u.scope ∧ g.get? e = some s ∧ g.Qualified e names ∧
      names ++ s.pathName?.toList = context) ∨
      ∃ i ∈ u.imports, i.Brings (u.qualifierNames.headD "") ∧ i.pathNames = context := by
  unfold TypeUse.contextPaths
  rw [List.mem_append]
  refine or_congr ?_ ?_
  · rw [List.mem_map]
    constructor
    · rintro ⟨e, around, rfl⟩
      obtain ⟨s, found⟩ := contains_iff.mp (tree.live_ancestorsAndSelf u.scope e around)
      refine ⟨e, s, _, (forest.mem_ancestorsAndSelf_iff live).mp around, found, ?_, (namePath_of_get? found).symm⟩
      exact (forest.qualified_iff found).mpr rfl
    · rintro ⟨e, s, names, around, found, qualified, rfl⟩
      refine ⟨e, (forest.mem_ancestorsAndSelf_iff live).mpr around, ?_⟩
      rw [namePath_of_get? found, (forest.qualified_iff found).mp qualified]
  · simp only [List.mem_map, List.mem_filter, Import.admits_iff, and_assoc]

theorem IsOneTree.mem_qualified (qualified : u.qualifiers ≠ []) (run : u.qualifiedCandidates g = .ok found) :
    c ∈ found ↔ g.Called .type u.name c ∧ u.Sees g c := by
  obtain ⟨first, later, whole⟩ : ∃ first later, u.qualifierNames = first :: later :=
    List.exists_cons_of_ne_nil (by simpa [TypeUse.qualifierNames] using qualified)
  rw [tree.qualifiedCandidates_eq] at run
  cases run
  rw [List.mem_filter, mem_typesCalled]
  refine and_congr_right ?_
  rintro ⟨s, found, -⟩
  simp only [List.any_eq_true, beq_iff_eq, tree.mem_contextPaths forest live, ← forest.qualified_iff found]
  rw [whole, List.headD_cons, ← whole]
  constructor
  · rintro ⟨context, ⟨e, s, names, around, found, outer, rfl⟩ | ⟨i, inForce, brings, rfl⟩, spelled⟩
    · exact .relative qualified around found outer spelled
    · exact .relativeToImport whole inForce brings spelled
  · intro sees
    cases sees with
    | enclosing plain => exact absurd plain qualified
    | inherited plain => exact absurd plain qualified
    | imported plain => exact absurd plain qualified
    | relative _ around found outer spelled => exact ⟨_, Or.inl ⟨_, _, _, around, found, outer, rfl⟩, spelled⟩
    | relativeToImport whole' inForce brings spelled =>
      rw [whole] at whole'
      cases whole'
      exact ⟨_, Or.inr ⟨_, inForce, brings, rfl⟩, spelled⟩

end Searching

-- In a reached graph a written type with a name, in a live scope, denotes the live types of that name that it sees,
-- whenever its search comes to an end at some bound.
theorem type_use_denotes_what_it_sees {admits : Element → Prop} (reached : g.Reached admits)
    (named : u.name.isEmpty = false) (live : g.contains u.scope = true)
    (ends : ∃ bound found, u.candidatesWith (g.parentsWithin bound) g = .ok found) :
    ∃ found, u.candidates g = .ok found ∧ ∀ c, c ∈ found ↔ g.Called .type u.name c ∧ u.Sees g c := by
  obtain ⟨f, rest⟩ := reached.exists_atRest
  have forest := rest.picture.isForest
  obtain ⟨bound, found, run⟩ := ends
  have run : u.candidates g = .ok found :=
    candidatesWith_refines (fun _ _ answer => parents_eq_of_parentsWithin answer) u found run
  refine ⟨found, run, fun c => ?_⟩
  rw [TypeUse.candidates, TypeUse.candidatesWith, if_neg (by simp [named, live])] at run
  by_cases plain : u.qualifiers = []
  · rw [if_pos (by simp [plain])] at run
    exact rest.isOneTree.mem_plain forest live plain run
  · rw [if_neg (by simpa using plain)] at run
    exact rest.isOneTree.mem_qualified forest live plain run

-- `class X : Y { class Part : X { }; }; class Y { class Z { }; };` where the part sees `Z` through what `X` inherits from,
-- and `Y::Z` from the global namespace.
theorem part_sees_inherited_class :
    ∃ g, surveyUnit .cPlusPlus (heirUnit (heir "X" (.name "Y" .nil) (heir "Part" (.name "X" .nil) .nil .nil) <|
        heir "Y" .nil (heir "Z" .nil .nil .nil) .nil)) = .ok g ∧ g.Reached (fun _ => True) ∧ g.contains 2 = true ∧
      (TypeUse.candidates g { name := "Z", scope := 2 } = .ok [4] ∧
        ∀ c, c ∈ [4] ↔ g.Called .type "Z" c ∧ TypeUse.Sees g { name := "Z", scope := 2 } c) ∧
      TypeUse.candidates g { name := "Z", qualifiers := [{ name := "Y" }], scope := 2 } = .ok [4] ∧
        ∀ c, c ∈ [4] ↔
          g.Called .type "Z" c ∧ TypeUse.Sees g { name := "Z", qualifiers := [{ name := "Y" }], scope := 2 } c := by
  obtain ⟨g, surveyed, tested⟩ := @surveyed_single .cPlusPlus (heirUnit (heir "X" (.name "Y" .nil)
      (heir "Part" (.name "X" .nil) .nil .nil) <| heir "Y" .nil (heir "Z" .nil .nil .nil) .nil))
    (fun g => g.contains 2 && (TypeUse.candidates g { name := "Z", scope := 2 }).toOption == some [4] &&
      (TypeUse.candidates g { name := "Z", qualifiers := [{ name := "Y" }], scope := 2 }).toOption == some [4])
    (by decide +kernel)
  simp only [Bool.and_eq_true, beq_iff_eq] at tested
  obtain ⟨⟨live, plain⟩, qualified⟩ := tested
  have reached : g.Reached fun _ => True := .surveyed trivial surveyed
  have seen {u : TypeUse} (named : u.name.isEmpty = false) (live : g.contains u.scope = true)
      (answer : (u.candidates g).toOption = some [4]) :
      u.candidates g = .ok [4] ∧ ∀ c, c ∈ [4] ↔ g.Called .type u.name c ∧ u.Sees g c := by
    have answer := ok_of_toOption answer
    obtain ⟨found, run, members⟩ := type_use_denotes_what_it_sees reached named live ⟨g.size + 1, [4], answer⟩
    rw [answer] at run
    cases run
    exact ⟨answer, members⟩
  exact ⟨g, surveyed, reached, live, seen rfl live plain, seen rfl live qualified⟩

end Graph

end ScopeAtlas
