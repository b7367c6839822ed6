import ScopeAtlas.Language.Builtin
import ScopeAtlas.Proofs.SurveyLockstep

namespace ScopeAtlas

-- An element of a unit with all elements around it, the nearest first and the unit last.
inductive Element.Path (unit : Element) : List Element → Prop
  | top : Element.Path unit [unit]
  | child {e parent : Element} {up : List Element} (path : Element.Path unit (parent :: up))
      (member : e ∈ parent.elements) : Element.Path unit (e :: parent :: up)

-- An element and one inside of it, with no block between the two.
inductive Element.Holds : Element → Element → Prop
  | self (e : Element) : Element.Holds e e
  | inside {e child inner : Element} (plain : e.tag ≠ "block") (member : child ∈ e.elements)
      (holds : Element.Holds child inner) : Element.Holds e inner

namespace Element

variable {e child inner name segment : Element} {tag : String}

theorem Holds.trans (outer : e.Holds child) (holds : child.Holds inner) : e.Holds inner := by
  induction outer with
  | self => exact holds
  | inside plain member _ ih => exact .inside plain member (ih holds)

theorem holds_of_elementsNamed (plain : e.tag ≠ "block") (member : child ∈ e.elementsNamed tag) :
    e.Holds child ∧ child.tag = tag := by
  obtain ⟨listed, same⟩ := List.mem_filter.mp member
  exact ⟨.inside plain listed (.self child), by simpa using same⟩

theorem holds_of_element? (plain : e.tag ≠ "block") (found : e.element? tag = some child) :
    e.Holds child ∧ child.tag = tag := by
  have same := List.find?_some found
  exact ⟨.inside plain (List.mem_of_find?_eq_some found) (.self child), by simpa using same⟩

theorem holds_of_nameSegments {content : Content} (member : segment ∈ content.nameSegments) :
    segment.tag = "name" ∧ ∀ e : Element, e.tag ≠ "block" → content.elements ⊆ e.elements → e.Holds segment := by
  induction content with
  | nil => cases member
  | text run rest ih => exact ih member
  | element tag attributes position line inner rest ihInner ihRest =>
    have later : segment ∈ rest.nameSegments → segment.tag = "name" ∧ ∀ e : Element, e.tag ≠ "block" →
        (Content.element tag attributes position line inner rest).elements ⊆ e.elements → e.Holds segment := by
      intro listed
      obtain ⟨named, holds⟩ := ihRest listed
      refine ⟨named, ?_⟩
      intro e plain subset
      exact holds e plain fun x among => subset (List.mem_cons_of_mem _ among)
    unfold Content.nameSegments at member
    split at member
    · rename_i isName
      rcases List.mem_append.mp member with here | listed
      · let child : Element := ⟨tag, attributes, position, line, inner⟩
        have plain' : child.tag ≠ "block" := by simp [child, isName]
        have below : segment.tag = "name" ∧ child.Holds segment := by
          split at here
          · obtain ⟨named, holds⟩ := ihInner here
            exact ⟨named, holds child plain' (List.Subset.refl _)⟩
          · rw [List.mem_singleton.mp here]
            exact ⟨isName, .self child⟩
        refine ⟨below.1, ?_⟩
        intro e plain subset
        exact .inside plain (subset List.mem_cons_self) below.2
      · exact later listed
    · exact later member

theorem holds_of_segments (isName : name.tag = "name") (member : segment ∈ name.segments) :
    segment.tag = "name" ∧ name.Holds segment := by
  unfold segments at member
  split at member
  · obtain ⟨named, holds⟩ := holds_of_nameSegments member
    exact ⟨named, holds name (by simp [isName]) (List.Subset.refl _)⟩
  · rw [List.mem_singleton.mp member]
    exact ⟨isName, .self name⟩

theorem holds_lastSegment (isName : name.tag = "name") :
    name.lastSegment.tag = "name" ∧ name.Holds name.lastSegment := by
  unfold lastSegment
  cases last : name.segments.getLast? with
  | none => exact ⟨isName, .self name⟩
  | some segment => exact holds_of_segments isName (List.mem_of_getLast? last)

theorem holds_argumentName? (plain : e.tag ≠ "block") (found : e.argumentName? = some name) :
    name.tag = "name" ∧ e.Holds name := by
  unfold argumentName? at found
  rcases (Option.orElse_eq_some _ _ _).mp found with direct | ⟨-, wrapped⟩
  · exact (holds_of_element? plain direct).symm
  · obtain ⟨expression, outer, direct⟩ := Option.bind_eq_some_iff.mp wrapped
    obtain ⟨holds, tagged⟩ := holds_of_element? plain outer
    obtain ⟨holds', isName⟩ := holds_of_element? (by simp [tagged]) direct
    exact ⟨isName, holds.trans holds'⟩

theorem holds_of_typeArguments (isName : segment.tag = "name") (member : name ∈ segment.typeArguments) :
    name.tag = "name" ∧ segment.Holds name := by
  unfold typeArguments at member
  split at member
  · cases member
  · rename_i list found
    obtain ⟨argument, listed, read⟩ := List.mem_filterMap.mp member
    obtain ⟨holds, isList⟩ := holds_of_element? (by simp [isName]) found
    obtain ⟨holds', isArgument⟩ := holds_of_elementsNamed (by simp [isList]) listed
    obtain ⟨named, holds''⟩ := holds_argumentName? (by simp [isArgument]) read
    exact ⟨named, holds.trans (holds'.trans holds'')⟩

theorem holds_of_superNames (plain : e.tag ≠ "block") :
    ∀ name ∈ e.superNames, name.tag = "name" ∧ e.Holds name := by
  intro name member
  obtain ⟨clause, listed, named⟩ := List.mem_flatMap.mp member
  obtain ⟨holds, isSuper⟩ := holds_of_elementsNamed plain listed
  obtain ⟨holds', isName⟩ := holds_of_elementsNamed (by simp [isSuper]) named
  exact ⟨isName, holds.trans holds'⟩

theorem holds_of_clauseNames (plain : e.tag ≠ "block") :
    ∀ name ∈ e.clauseNames, name.tag = "name" ∧ e.Holds name := by
  intro name member
  obtain ⟨clause, listed, named⟩ := List.mem_flatMap.mp member
  obtain ⟨among, isClause⟩ := List.mem_filter.mp listed
  have holds : e.Holds clause := by
    rcases List.mem_append.mp among with wrapped | direct
    · obtain ⟨outer, isSuper, inner⟩ := List.mem_flatMap.mp wrapped
      obtain ⟨holds, isSuper⟩ := holds_of_elementsNamed plain isSuper
      exact holds.trans (.inside (by simp [isSuper]) inner (.self clause))
    · exact .inside plain direct (.self clause)
  have plain' : clause.tag ≠ "block" := by
    intro block
    simp [block] at isClause
  obtain ⟨holds', isName⟩ := holds_of_elementsNamed plain' named
  exact ⟨isName, holds.trans holds'⟩

end Element

namespace Profile

-- The imports at the head of a file or namespace body. Comments do not count, nor does the package a file states first.
def headImports (p : Profile) (mayHavePackage : Bool) (elements : List Element) : List Element :=
  let written := elements.filter (·.tag != "comment")
  let body := if mayHavePackage && written.head?.any (p.isPackage ·.tag) then written.tail else written
  body.takeWhile (p.isImport ·.tag)

-- The imports in force inside all of these elements, outermost first: those of the file, then those of each namespace
-- body.
def importsAround (p : Profile) : List Element → List Element
  | [] => []
  | [unit] => p.headImports true unit.elements
  | e :: parent :: up =>
    p.importsAround (parent :: up) ++
      if e.tag = "block" ∧ p.isNamespace parent.tag = true then p.headImports false e.elements else []

-- The innermost access region around a point, unless a type stands between.
def regionAround (p : Profile) : List Element → Option String
  | [] => none
  | e :: up =>
    if p.isType e.tag then none
    else if p.isTransparent e.tag ∧ e.tag ≠ "template" then some e.tag
    else p.regionAround up

def importsInForce (p : Profile) (unit : Element) (around : List Element) : Except Error (List Import) :=
  (p.importsAround around).mapM (Site.importOf p { file := unit.fileName, language := p.language })

theorem leadingImports_eq (p : Profile) (mayHavePackage : Bool) (elements : List Element) :
    p.leadingImports mayHavePackage elements = p.headImports mayHavePackage elements := by
  induction elements generalizing mayHavePackage with
  | nil => simp [leadingImports, headImports]
  | cons e rest ih =>
    unfold leadingImports leading?
    by_cases comment : e.tag = "comment"
    · rw [if_pos comment]
      dsimp only
      rw [ih]
      simp [headImports, comment]
    · have kept : ((e :: rest).filter (·.tag != "comment")) = e :: rest.filter (·.tag != "comment") := by
        simp [comment]
      rw [if_neg comment]
      unfold headImports
      rw [kept]
      cases package : mayHavePackage && p.isPackage e.tag with
      | true => simp [package, ih, headImports]
      | false =>
        cases importing : p.isImport e.tag with
        | true => simp [package, importing, ih, headImports]
        | false => simp [package, importing]

theorem importsAround_holds {unit e parent inner : Element} {up : List Element} (p : Profile) (holds : e.Holds inner)
    (path : unit.Path (e :: parent :: up)) : ∃ parent' up', unit.Path (inner :: parent' :: up') ∧
      p.importsAround (parent' :: up') = p.importsAround (parent :: up) := by
  induction holds generalizing parent up with
  | self e => exact ⟨parent, up, path, rfl⟩
  | inside plain member _ ih =>
    obtain ⟨parent', up', path', same⟩ := ih (.child path member)
    refine ⟨parent', up', path', ?_⟩
    rw [same, Profile.importsAround, if_neg (by simp [plain]), List.append_nil]

theorem leadingPackage?_reread (p : Profile) (reading : Reading) (elements : List Element) :
    (p.reread reading).leadingPackage? elements = p.leadingPackage? elements := by
  induction elements with
  | nil => rfl
  | cons e rest ih =>
    unfold leadingPackage?
    rw [ih]
    rfl

-- Tags that open nothing of their own are entered without a look at their role.
def structuralTags : List String := ["unit", "block", "parameter_list", "param", "argument_list", "decl"]

-- No tag has two meanings, and what a type is derived from is written inside of it.
structure Orderly (p : Profile) : Prop where
  types : ∀ tag ∈ p.types, p.role tag = .type
  namespaces : ∀ tag ∈ p.namespaces, p.role tag = .space
  structural : ∀ tag ∈ structuralTags,
    p.isType tag = false ∧ p.isTransparent tag = false ∧ p.isNamespace tag = false ∧ p.isMethod tag = false
  parents : ∀ e : Element, e.tag ≠ "block" → ∀ name ∈ p.reading.parentNames e, name.tag = "name" ∧ e.Holds name

theorem builtin_orderly (language : Language) : (builtin language).Orderly := by
  refine ⟨?_, ?_, ?_, ?_⟩
  · cases language <;> decide
  · cases language <;> decide
  · cases language <;> decide
  · cases language with
    | c => exact fun e => Element.holds_of_superNames
    | cPlusPlus => exact fun e => Element.holds_of_superNames
    | java => exact fun e => Element.holds_of_clauseNames
    | cSharp => exact fun e => Element.holds_of_superNames

theorem isMethod_of_role {p : Profile} {tag : String} (role : p.role tag = .method) : p.isMethod tag = true := by
  unfold Profile.role at role
  grind

namespace Orderly

variable {p : Profile} {tag : String}

theorem isType_iff (orderly : p.Orderly) : p.isType tag = true ↔ p.role tag = .type := by
  constructor
  · intro listed
    exact orderly.types tag (by simpa [isType] using listed)
  · intro role
    unfold Profile.role at role
    grind

theorem isNamespace_iff (orderly : p.Orderly) : p.isNamespace tag = true ↔ p.role tag = .space := by
  constructor
  · intro listed
    exact orderly.namespaces tag (by simpa [isNamespace] using listed)
  · intro role
    unfold Profile.role at role
    grind

theorem type_ne_block (orderly : p.Orderly) (role : p.role tag = .type) : tag ≠ "block" := by
  rintro rfl
  have isType := orderly.isType_iff.mpr role
  rw [(orderly.structural "block" (by decide)).1] at isType
  cases isType

theorem method_ne_block (orderly : p.Orderly) (role : p.role tag = .method) : tag ≠ "block" := by
  rintro rfl
  have isMethod := isMethod_of_role role
  rw [(orderly.structural "block" (by decide)).2.2.2] at isMethod
  cases isMethod

end Orderly

theorem isTransparent_iff (p : Profile) (tag : String) : p.isTransparent tag = true ↔ p.role tag = .transparent := by
  unfold role
  grind

end Profile

namespace Place

variable {p : Profile} {place : Place} {tag : String}

theorem treatment_enterSpace : place.treatment p tag = .enterSpace ↔ place.isSpaceBody = true ∧ tag = "block" := by
  unfold treatment isSpaceBody
  grind

theorem treatment_direct (direct : (place.treatment p tag).isDirect = true) :
    tag ∈ Profile.structuralTags ∧ place.isSpaceBody = false := by
  unfold treatment Treatment.isDirect isSpaceBody at *
  grind [Profile.structuralTags]

theorem treatment_declare {type : Option TypeUse} (declares : place.treatment p tag = .declare type) : tag = "decl" := by
  unfold treatment at declares
  grind

theorem next_isSpaceBody (type : Option TypeUse) : (place.next p tag type).isSpaceBody = place.isSpaceBody := by
  unfold next isSpaceBody
  grind

end Place

theorem Site.importOf_congr {site site' : Site} (file : site'.file = site.file) (language : site'.language = site.language)
    (p : Profile) (e : Element) : site'.importOf p e = site.importOf p e := by
  unfold Site.importOf Site.locate
  rw [file, language]

namespace Survey

structure Surrounds (p : Profile) (unit : Element) (path : List Element) (around : Surroundings) : Prop where
  file : around.site.file = unit.fileName
  language : around.site.language = p.language
  imports : p.importsInForce unit path = .ok around.site.imports
  region : around.region = p.regionAround path

variable {alike : Scope → Scope → Prop} {like : TypeUse → TypeUse → Prop} {p : Profile} {reading : Reading}
  {unit e parent : Element} {up : List Element} {around : Surroundings}

theorem Surroundings.within_site (around : Surroundings) : (around.within p e).site = around.site := by
  unfold Surroundings.within
  split
  · split <;> rfl
  · rfl
  · rfl

theorem Surrounds.within (orderly : p.Orderly) (surrounds : Surrounds p unit (parent :: up) around)
    (apart : ¬ (e.tag = "block" ∧ p.isNamespace parent.tag = true)) :
    Surrounds p unit (e :: parent :: up) (around.within p e) := by
  have imports : p.importsAround (e :: parent :: up) = p.importsAround (parent :: up) := by
    rw [Profile.importsAround, if_neg apart, List.append_nil]
  refine ⟨?_, ?_, ?_, ?_⟩
  · rw [Surroundings.within_site]
    exact surrounds.file
  · rw [Surroundings.within_site]
    exact surrounds.language
  · unfold Profile.importsInForce
    rw [Surroundings.within_site, imports]
    exact surrounds.imports
  · rw [Profile.regionAround]
    by_cases isType : p.isType e.tag = true
    · rw [if_pos isType, Surroundings.within_type (orderly.isType_iff.mp isType)]
    · rw [if_neg isType]
      by_cases isTransparent : p.isTransparent e.tag = true
      · have role := (p.isTransparent_iff e.tag).mp isTransparent
        by_cases isTemplate : e.tag = "template"
        · rw [if_neg (by simp [isTemplate]), Surroundings.within_template role isTemplate]
          exact surrounds.region
        · rw [if_pos ⟨isTransparent, isTemplate⟩, Surroundings.within_region role isTemplate]
      · rw [if_neg (by simp [isTransparent]), Surroundings.within_other]
        · exact surrounds.region
        · exact fun role => isTransparent ((p.isTransparent_iff e.tag).mpr role)
        · exact fun role => isType (orderly.isType_iff.mpr role)

theorem regionAround_structural (orderly : p.Orderly) (structural : e.tag ∈ Profile.structuralTags) (up : List Element) :
    p.regionAround (e :: up) = p.regionAround up := by
  obtain ⟨isType, isTransparent, -, -⟩ := orderly.structural e.tag structural
  simp [Profile.regionAround, isType, isTransparent]

theorem Surrounds.enter (orderly : p.Orderly) (surrounds : Surrounds p unit (parent :: up) around)
    (structural : e.tag ∈ Profile.structuralTags) (apart : p.isNamespace parent.tag = false) :
    Surrounds p unit (e :: parent :: up) around := by
  refine ⟨surrounds.file, surrounds.language, ?_, ?_⟩
  · unfold Profile.importsInForce
    rw [Profile.importsAround, if_neg (by simp [apart]), List.append_nil]
    exact surrounds.imports
  · rw [regionAround_structural orderly structural]
    exact surrounds.region

theorem Surrounds.enterSpace (orderly : p.Orderly) (surrounds : Surrounds p unit (parent :: up) around)
    (block : e.tag = "block") (inSpace : p.isNamespace parent.tag = true) {found : List Import}
    (read : around.site.importsOf p false e.elements = .ok found) :
    Surrounds p unit (e :: parent :: up) (around.importing found) := by
  refine ⟨surrounds.file, surrounds.language, ?_, ?_⟩
  · have same : around.site.importOf p = Site.importOf p { file := unit.fileName, language := p.language } :=
      funext (Site.importOf_congr surrounds.file surrounds.language p)
    have imports := surrounds.imports
    unfold Site.importsOf at read
    rw [Profile.leadingImports_eq, same] at read
    unfold Profile.importsInForce at imports ⊢
    rw [Profile.importsAround, if_pos ⟨block, inSpace⟩, List.mapM_append, imports, read]
    rfl
  · rw [regionAround_structural orderly (by simp [Profile.structuralTags, block])]
    exact surrounds.region

theorem importsOf_reread (same : reading.importsNamespace = p.reading.importsNamespace) (site : Site)
    (mayHavePackage : Bool) (elements : List Element) :
    site.importsOf (p.reread reading) mayHavePackage elements = site.importsOf p mayHavePackage elements := by
  have importOf : site.importOf (p.reread reading) = site.importOf p := by
    funext e
    unfold Site.importOf
    rw [Profile.reread, same]
    rfl
  unfold Site.importsOf
  rw [importOf, Profile.leadingImports_eq, Profile.leadingImports_eq]
  rfl

-- Every element of a unit is read alike wherever a walk may come to it: in the surroundings that its path gives, if the
-- profile is orderly.
def ReadsAll (alike : Scope → Scope → Prop) (like : TypeUse → TypeUse → Prop) (p : Profile) (reading : Reading)
    (unit : Element) : Prop :=
  ∀ parent up before e after around, unit.Path (e :: parent :: up) → parent.elements = List.reverse before ++ e :: after →
    around.site.file = unit.fileName → (p.Orderly → Surrounds p unit (parent :: up) around) → Reads alike like p reading around around before before e e

structure Remains (p : Profile) (unit parent : Element) (up before : List Element) (content : Content) (place : Place)
    (around : Surroundings) : Prop where
  path : unit.Path (parent :: up)
  elements : parent.elements = before.reverse ++ content.elements
  file : around.site.file = unit.fileName
  surrounds : p.Orderly → Surrounds p unit (parent :: up) around
  stands : p.Orderly → place.isSpaceBody = p.isNamespace parent.tag

theorem walk_lockstep (laws : Scope.Congruence alike) (same : reading.importsNamespace = p.reading.importsNamespace)
    (reads : ReadsAll alike like p reading unit) (content : Content) : ∀ {parent up before place place' around},
      Remains p unit parent up before content place around → place.Like like place' →
      Lockstep alike around around (fun _ _ => True) (walk p content place before)
        (walk (p.reread reading) content place' before) := by
  induction content with
  | nil => exact fun _ _ => Lockstep.pure trivial
  | text run rest ih =>
    intro parent up before place place' around remains places
    exact ih { remains with elements := remains.elements } places
  | element tag attributes position line inner rest ihInner ihRest =>
    intro parent up before place place' around remains places
    let e : Element := ⟨tag, attributes, position, line, inner⟩
    have split : parent.elements = before.reverse ++ e :: rest.elements := remains.elements
    have path : unit.Path (e :: parent :: up) := .child remains.path (by simp [split])
    -- the content of the element, in whatever surroundings its path gives
    have inside : ∀ inSpace around', around'.site.file = unit.fileName → (p.Orderly → inSpace = p.isNamespace tag) →
        (p.Orderly → Surrounds p unit (e :: parent :: up) around') → InsideLockstep alike like inSpace around' around'
          (fun place => walk p inner place []) (fun place => walk (p.reread reading) inner place []) := by
      intro inSpace around' file' fits surrounds' place place' places stands
      exact ihInner ⟨path, rfl, file', surrounds', fun orderly => stands.trans (fits orderly)⟩ places
    have treated : Lockstep alike around around (Option.Rel like)
        (treat p before e (fun place => walk p inner place []) (place.treatment p tag))
        (treat (p.reread reading) before e (fun place => walk (p.reread reading) inner place [])
          (place'.treatment (p.reread reading) tag)) := by
      refine treat_lockstep laws (reads parent up before e _ around path split remains.file remains.surrounds) (places.treatment tag)
        ?_ ?_ ?_ ?_ ?_
      · exact fun type declares => Place.treatment_declare declares
      · intro visited
        refine inside _ _ ?_ ?_ ?_
        · rw [Surroundings.within_site]
          exact remains.file
        · intro orderly
          exact Bool.eq_iff_iff.mpr (beq_iff_eq.trans orderly.isNamespace_iff.symm)
        · intro orderly
          refine (remains.surrounds orderly).within orderly ?_
          rintro ⟨block, inSpace⟩
          have entered : place.treatment p tag = .enterSpace :=
            Place.treatment_enterSpace.mpr ⟨(remains.stands orderly).trans inSpace, block⟩
          cases visited.symm.trans entered
      · intro direct
        obtain ⟨structural, apart⟩ := Place.treatment_direct direct
        refine inside false around remains.file ?_ ?_
        · exact fun orderly => (orderly.structural tag structural).2.2.1.symm
        · intro orderly
          exact (remains.surrounds orderly).enter orderly structural ((remains.stands orderly).symm.trans apart)
      · intro _
        rw [importsOf_reread same]
      · intro entered found found' read read'
        obtain ⟨inSpace, block⟩ := Place.treatment_enterSpace.mp entered
        rw [importsOf_reread same, read] at read'
        cases read'
        refine inside false _ remains.file ?_ ?_
        · exact fun orderly => (orderly.structural tag (by simp [Profile.structuralTags, block])).2.2.1.symm
        · intro orderly
          exact (remains.surrounds orderly).enterSpace orderly block ((remains.stands orderly).symm.trans inSpace) read
    refine treated.bind ?_
    intro type type' types
    refine ihRest ⟨remains.path, ?_, remains.file, remains.surrounds, ?_⟩ (places.next tag types)
    · simpa using split
    · intro orderly
      rw [Place.next_isSpaceBody]
      exact remains.stands orderly

theorem Surrounds.start (orderly : p.Orderly) (isUnit : unit.tag = "unit") {found : List Import}
    (read : (Surroundings.start p unit).site.importsOf p true unit.elements = .ok found) :
    Surrounds p unit [unit] ((Surroundings.start p unit).importing found) := by
  refine ⟨rfl, rfl, ?_, ?_⟩
  · unfold Site.importsOf at read
    rw [Profile.leadingImports_eq] at read
    exact read
  · rw [regionAround_structural orderly (by simp [Profile.structuralTags, isUnit])]
    rfl

end Survey

theorem surveyUnit_inStep {alike : Scope → Scope → Prop} {like : TypeUse → TypeUse → Prop} {p : Profile}
    {reading : Reading} {u : Element} (laws : Scope.Congruence alike)
    (same : reading.importsNamespace = p.reading.importsNamespace) (reads : Survey.ReadsAll alike like p reading u)
    (spaces : ∀ e name isGlobal,
      alike ((Survey.Surroundings.start p u).opened e false { name, kind := .space isGlobal })
        ((Survey.Surroundings.start p u).opened e false { name, kind := .space isGlobal })) :
    SurveyedAlike alike (surveyUnit p u) (surveyUnit (p.reread reading) u) := by
  by_cases isUnit : u.tag = "unit"
  · refine surveyUnit_lockstep rfl (spaces u "" true) (Survey.unitBody_lockstep laws ?_ ?_ ?_)
    · rw [Survey.importsOf_reread same]
    · rw [Profile.leadingPackage?_reread]
      cases p.leadingPackage? u.elements with
      | none => exact .none
      | some e => exact .some ⟨rfl, fun name => spaces e name false⟩
    · intro found found' read read'
      rw [Survey.importsOf_reread same, read] at read'
      cases read'
      refine Survey.walk_lockstep laws same reads u.content ⟨.top, rfl, rfl, ?_, ?_⟩ (.untyped rfl)
      · exact fun orderly => .start orderly isUnit read
      · intro orderly
        rw [isUnit, (orderly.structural "unit" (by simp [Profile.structuralTags])).2.2.1]
        rfl
  · unfold surveyUnit
    rw [if_pos isUnit, if_pos isUnit]
    exact .refused _

def Profile.withAccess (p : Profile) (access : Element → Option String → Access) : Profile :=
  p.reread { p.reading with access }

namespace Survey

variable {holds : Scope → Prop} {fits : TypeUse → Prop} {p : Profile} {around : Surroundings} {before : List Element}
  {e : Element} {access : Element → Option String → Access}

-- What has to hold of all that is read from an element.
structure Provides (holds : Scope → Prop) (fits : TypeUse → Prop) (p : Profile) (around : Surroundings)
    (before : List Element) (e : Element) : Prop where
  type : p.role e.tag = .type → ∀ c parameters, c.site = around.site → c.region = around.region →
    holds (around.opened e (p.isReference e.tag) (typeScope p c parameters e))
  method : p.role e.tag = .method → ∀ c id, c.site = around.site → c.region = around.region →
    holds (around.opened e (p.isReference e.tag) (methodScope p c e id))
  space : ∀ name, holds (around.opened e false { name, kind := .space false })
  block : holds (around.opened e false { kind := .block })
  declaredType : e.tag = "decl" → ∀ here type u, (∀ t, type = some t → fits t) →
    around.site.declaratorType? here type e = some u → fits u
  declared : e.tag = "decl" → ∀ here type s, (∀ t, type = some t → fits t) → holds s →
    holds ((around.site.declaredVariables here type e).foldl Scope.addVariable s)
  call : e.tag = "call" → ∀ here k s, around.site.call? p here before e = some k → holds s → holds (s.addCall k)

theorem typeScope_congr {c d : Context} {parameters : List String} (site : d.site = c.site) (region : d.region = c.region)
    (current : d.current = c.current) (agree : access e c.region = p.reading.access e c.region) :
    typeScope (p.withAccess access) d parameters e = typeScope p c parameters e := by
  unfold typeScope
  rw [site, region, current]
  change Scope.mk _ (access e c.region) _ _ _ _ _ _ _ = _
  rw [agree]
  rfl

theorem methodScope_congr {c d : Context} {id : ScopeId} (site : d.site = c.site) (region : d.region = c.region)
    (agree : access e c.region = p.reading.access e c.region) :
    methodScope (p.withAccess access) d e id = methodScope p c e id := by
  unfold methodScope
  rw [site, region]
  change Scope.mk _ (access e c.region) _ _ _ _ _ _ _ = _
  rw [agree]
  rfl

theorem Provides.reads (provides : Provides holds fits p around before e)
    (agree : p.role e.tag = .type ∨ p.role e.tag = .method → access e around.region = p.reading.access e around.region) :
    Reads (fun s t => t = s ∧ holds s) (fun u v => v = u ∧ fits u) p { p.reading with access } around around before
      before e e := by
  have fits_of : ∀ type type' : Option TypeUse, Option.Rel (fun u v => v = u ∧ fits u) type type' →
      type' = type ∧ ∀ t, type = some t → fits t := by
    rintro _ _ (⟨rfl, fits⟩ | _)
    · exact ⟨rfl, by rintro t ⟨⟩; exact fits⟩
    · exact ⟨rfl, by rintro t ⟨⟩⟩
  -- The two readings differ in how they find an access, which only types and methods ask for.
  refine ⟨rfl, ?_, ?_, fun _ => rfl, ?_, ?_, fun _ => rfl, ?_, ?_, ?_⟩
  · intro role c d parameters inStep
    have same : d.site = c.site := inStep.site'.trans inStep.site.symm
    have region : d.region = c.region := inStep.region'.trans inStep.region.symm
    refine ⟨?_, provides.type role c parameters inStep.site inStep.region⟩
    have agree' := agree (Or.inl role)
    rw [← inStep.region] at agree'
    exact congrArg _ (typeScope_congr same region inStep.current agree')
  · intro role c d id inStep
    have same : d.site = c.site := inStep.site'.trans inStep.site.symm
    have region : d.region = c.region := inStep.region'.trans inStep.region.symm
    refine ⟨?_, provides.method role c id inStep.site inStep.region⟩
    have agree' := agree (Or.inr role)
    rw [← inStep.region] at agree'
    exact congrArg _ (methodScope_congr same region agree')
  · exact fun _ name => ⟨rfl, provides.space name⟩
  · exact fun _ => ⟨rfl, provides.block⟩
  · intro isDeclarator here type type' types
    obtain ⟨rfl, fitting⟩ := fits_of type type' types
    cases read : around.site.declaratorType? here type' e with
    | none => exact .none
    | some u => exact .some ⟨rfl, provides.declaredType isDeclarator here type' u fitting read⟩
  · rintro isDeclarator here type type' s t types ⟨rfl, held⟩
    obtain ⟨rfl, fitting⟩ := fits_of type type' types
    exact ⟨rfl, provides.declared isDeclarator here type' t fitting held⟩
  · intro isCall here
    have same : around.site.call? (p.reread { p.reading with access }) here before e =
        around.site.call? p here before e := rfl
    rw [same]
    cases read : around.site.call? p here before e with
    | none => exact .none
    | some k =>
      refine .some ?_
      rintro s t ⟨rfl, held⟩
      exact ⟨rfl, provides.call isCall here k t read held⟩

end Survey

end ScopeAtlas
