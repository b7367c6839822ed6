import ScopeAtlas.Proofs.LexicalPaths
import ScopeAtlas.Proofs.Renesting

namespace ScopeAtlas

def Site.move (f : String → String) (site : Site) : Site := { site with imports := site.imports.map (·.move f) }

def Site.WrittenParameter.move (f : String → String) (w : Site.WrittenParameter) : Site.WrittenParameter :=
  { w with type := w.type.map (·.move f), location := w.location.move f }

variable {f : String → String} {e e' : Element} {before before' : List Element}

namespace Element.Kept

variable (kept : e.Kept f e')

include kept

theorem templateParameter :
    (e'.element? "name" <|> (e'.element? "decl").bind (·.element? "name") <|>
        (e'.element? "type").bind fun type => (type.elementsNamed "name").getLast?) =
      (e.element? "name" <|> (e.element? "decl").bind (·.element? "name") <|>
        (e.element? "type").bind fun type => (type.elementsNamed "name").getLast?).map (·.move f) := by
  have declared : (e'.element? "decl").bind (·.element? "name") =
      ((e.element? "decl").bind (·.element? "name")).map (·.move f) := by
    rcases kept.element? "decl" (by decide) with ⟨none, none'⟩ | ⟨_, _, some, some', declarator⟩
    · rw [none, none']
      rfl
    · rw [some, some']
      exact declarator.element?_read "name" (by decide)
  have typed : ((e'.element? "type").bind fun type => (type.elementsNamed "name").getLast?) =
      ((e.element? "type").bind fun type => (type.elementsNamed "name").getLast?).map (·.move f) := by
    rcases kept.element? "type" (by decide) with ⟨none, none'⟩ | ⟨_, _, some, some', type⟩
    · rw [none, none']
      rfl
    · rw [some, some', Option.bind_some, Option.bind_some, type.elementsNamed_read "name" (by decide), List.getLast?_map]
  rw [kept.element?_read "name" (by decide), declared, typed]
  simp only [Option.orElse_eq_orElse, Option.orElse_eq_or, Option.map_or]

theorem templateParameters : e'.templateParameters = e.templateParameters := by
  unfold Element.templateParameters
  rcases kept.element? "parameter_list" (by decide) with ⟨none, none'⟩ | ⟨list, list', some, some', lists⟩
  · rw [none, none']
  · rw [some, some']
    have params := lists.elementsNamed "param" (by decide)
    simp only [Option.toList_some, List.flatMap_cons, List.flatMap_nil, List.append_nil]
    generalize list.elementsNamed "param" = found at params
    generalize list'.elementsNamed "param" = found' at params
    induction params with
    | nil => rfl
    | cons first _ ih =>
      rw [List.filterMap_cons, List.filterMap_cons, ih, first.1.templateParameter, Option.map_map]
      simp only [Function.comp_def, Element.identifier_move]

theorem superNames : e'.superNames = e.superNames.map (·.move f) := by
  have clauses := kept.elementsNamed "super" (by decide)
  unfold Element.superNames
  generalize e.elementsNamed "super" = found at clauses
  generalize e'.elementsNamed "super" = found' at clauses
  induction clauses with
  | nil => rfl
  | cons first _ ih =>
    rw [List.flatMap_cons, List.flatMap_cons, List.map_append, ih, first.1.elementsNamed_read "name" (by decide)]

theorem specifiedAccess : e'.specifiedAccess = e.specifiedAccess := by
  have types : ((e'.element? "type").getD e').elementsNamed "specifier" =
      (((e.element? "type").getD e).elementsNamed "specifier").map (·.move f) := by
    rcases kept.element? "type" (by decide) with ⟨none, none'⟩ | ⟨_, _, some, some', type⟩
    · rw [none, none']
      exact kept.elementsNamed_read "specifier" (by decide)
    · rw [some, some']
      exact type.elementsNamed_read "specifier" (by decide)
  unfold Element.specifiedAccess
  dsimp only
  rw [types, kept.elementsNamed_read "specifier" (by decide), ← List.map_append, List.findSome?_map]
  congr 2
  funext specifier
  rw [Function.comp_apply, Element.value_move]

theorem isVoid (u : TypeUse) : (u.move f).isVoid (some e') = u.isVoid (some e) := by
  have modified : (e'.element? "modifier").isSome = (e.element? "modifier").isSome := by
    rcases kept.element? "modifier" (by decide) with ⟨none, none'⟩ | ⟨_, _, some, some', -⟩
    · rw [none, none']
    · rw [some, some']
      rfl
  rcases u with ⟨_, _, _, _, _, _, _⟩
  simp [TypeUse.isVoid, TypeUse.move, modified]

end Element.Kept

theorem receiverNames_like (likes : List.Forall₂ (Element.Like f) before before') :
    receiverNames before' = receiverNames before := by
  induction before using receiverNames.induct generalizing before' with
  | case1 operator receiver before reaches ih =>
    cases likes with
    | cons first later =>
      cases later with
      | cons second later =>
        simp only [Bool.and_eq_true, beq_iff_eq] at reaches
        have isRead : receiver.tag ∈ readTags := by simp [reaches.2, readTags]
        unfold receiverNames
        rw [first.isMemberOperator, second.eq_move isRead]
        simp [reaches, ih later]
  | case2 operator receiver before reaches =>
    cases likes with
    | cons first later =>
      cases later with
      | cons second later =>
        unfold receiverNames
        rw [first.isMemberOperator, second.tag, if_neg reaches, if_neg reaches]
  | case3 before short =>
    cases likes with
    | nil => rfl
    | cons first later =>
      cases later with
      | nil => rfl
      | cons second later => exact absurd rfl (short _ _ _)

namespace Site

variable (site : Site) (here : ScopeId)

theorem locate_kept (kept : e.Kept f e') (isReference : Bool) :
    (site.move f).locate e' isReference = (site.locate e isReference).move f := by
  simp [locate, Location.ofElement, Location.move, Site.move, kept.position, kept.line]

theorem locate_move (e : Element) (isReference : Bool) :
    (site.move f).locate (e.move f) isReference = (site.locate e isReference).move f := rfl

theorem qualifierUse_move (segment : Element) :
    (site.move f).qualifierUse here (segment.move f) = (site.qualifierUse here segment).move f := by
  simp only [qualifierUse, QualifierUse.move, Element.identifier_move, locate_move]
  rfl

theorem typeUse_move (name : Element) : (site.move f).typeUse here (name.move f) = (site.typeUse here name).move f := by
  have arguments : name.lastSegment.typeArguments.map (fun argument => (site.move f).typeUse here (argument.move f)) =
      name.lastSegment.typeArguments.map (fun argument => (site.typeUse here argument).move f) := by
    refine List.map_congr_left ?_
    intro argument member
    have := Nat.lt_of_lt_of_le (Element.size_lt_of_mem_typeArguments member) name.size_lastSegment_le
    exact typeUse_move argument
  have qualifiers : name.qualifierSegments.map (fun segment => (site.move f).qualifierUse here (segment.move f)) =
      name.qualifierSegments.map (fun segment => (site.qualifierUse here segment).move f) :=
    List.map_congr_left fun segment _ => site.qualifierUse_move here segment
  rw [typeUse_eq, typeUse_eq]
  simp only [TypeUse.move, TypeUse.moveAll_eq_map, Element.lastSegment_move, Element.identifier_move,
    Element.qualifierSegments_move, Element.typeArguments_move, List.map_map, Function.comp_def, arguments, qualifiers]
  rfl
termination_by name.size

theorem declaredType?_kept (kept : e.Kept f e') :
    (site.move f).declaredType? here e' = (site.declaredType? here e).map (·.move f) := by
  unfold declaredType?
  rw [kept.elementsNamed_read "name" (by decide), List.getLast?_map, Option.map_map, Option.map_map]
  congr 1
  funext name
  exact site.typeUse_move here name

theorem importOf_move {p : Profile} (same : p.reading.importsNamespace (e.move f) = p.reading.importsNamespace e) :
    (site.move f).importOf p (e.move f) = (site.importOf p e).map (·.move f) := by
  have named : ((e.move f).element? "name" <|> ((e.move f).element? "namespace").bind (·.element? "name")) =
      (e.element? "name" <|> (e.element? "namespace").bind (·.element? "name")).map (·.move f) := by
    cases direct : e.element? "name" with
    | some name => simp [direct]
    | none => cases wrapped : e.element? "namespace" <;> simp [direct, wrapped]
  unfold importOf
  rw [Element.tag_move, named, same]
  split
  · rfl
  · cases e.element? "name" <|> (e.element? "namespace").bind (·.element? "name") with
    | none => rfl
    | some name =>
      simp only [Option.map_some, Except.map, Import.move, Element.segments_move, List.map_map, Function.comp_def,
        Element.identifier_move, locate_move]
      cases p.reading.importsNamespace e with
      | true => simp [QualifierUse.move, Site.move]
      | false => simp [QualifierUse.move, Site.move, Function.comp_def]

theorem receivers_move (names : List String) :
    (site.move f).receivers here names = (site.receivers here names).map (·.move f) := by
  simp [receivers, NameUse.move, Site.move]

theorem variableUse_like {elements elements' : List Element} (likes : List.Forall₂ (Element.Like f) elements elements') :
    (site.move f).variableUse here elements' = (site.variableUse here elements).move f := by
  have reversed := List.forall₂_reverse_iff.mpr likes
  unfold variableUse
  generalize elements.reverse = back at reversed
  generalize elements'.reverse = back' at reversed
  cases reversed with
  | nil => rfl
  | @cons last last' earlier earlier' like later =>
    dsimp only
    rw [like.tag]
    by_cases isName : last.tag = "name"
    · rw [like.eq_move (by simp [isName, readTags]), receiverNames_like later]
      simp [isName, VariableUse.move, NameUse.move, locate_move, receivers_move]
      rfl
    · simp [isName, VariableUse.move, NameUse.move]
      rfl

theorem literalUse?_like (p : Profile) {elements elements' : List Element}
    (likes : List.Forall₂ (Element.Like f) elements elements') :
    (site.move f).literalUse? p here elements' = (site.literalUse? p here elements).map (·.move f) := by
  cases likes with
  | nil => rfl
  | @cons e e' rest rest' like later =>
    cases later with
    | cons _ _ => rfl
    | nil =>
      simp only [literalUse?]
      rw [like.tag]
      by_cases isLiteral : e.tag = "literal"
      · rw [like.eq_move (by simp [isLiteral, readTags])]
        simp [isLiteral, LiteralUse.move, locate_move, Function.comp_def]
      · simp [isLiteral]

theorem argument_kept (p : Profile) (kept : e.Kept f e') :
    (site.move f).argument p here e' = (site.argument p here e).move f := by
  have likes : List.Forall₂ (Element.Like f) ((e.element? "expr").getD e).elements ((e'.element? "expr").getD e').elements := by
    rcases kept.element? "expr" (by decide) with ⟨none, none'⟩ | ⟨_, _, some, some', expression⟩
    · rw [none, none']
      exact kept.content.elements
    · rw [some, some']
      exact expression.content.elements
  unfold argument
  dsimp only
  rw [site.literalUse?_like here p likes, site.variableUse_like here likes]
  cases site.literalUse? p here ((e.element? "expr").getD e).elements <;> rfl

theorem call?_kept (p : Profile) (likes : List.Forall₂ (Element.Like f) before before') (kept : e.Kept f e') :
    (site.move f).call? p here before' e' = (site.call? p here before e).map (·.move f) := by
  have arguments : (((e'.element? "argument_list").toList.flatMap fun list =>
        (list.elementsNamed "argument").map ((site.move f).argument p here))) =
      ((e.element? "argument_list").toList.flatMap fun list =>
        (list.elementsNamed "argument").map (site.argument p here)).map (·.move f) := by
    rcases kept.element? "argument_list" (by decide) with ⟨none, none'⟩ | ⟨list, list', some, some', lists⟩
    · rw [none, none']
      rfl
    · rw [some, some']
      have found := lists.elementsNamed "argument" (by decide)
      simp only [Option.toList_some, List.flatMap_cons, List.flatMap_nil, List.append_nil]
      generalize list.elementsNamed "argument" = found at found
      generalize list'.elementsNamed "argument" = found' at found
      induction found with
      | nil => rfl
      | cons first _ ih => simp only [List.map_cons, ih, site.argument_kept here p first.1]
  have operators : ∀ word, before'.head?.any (·.isOperator word) = before.head?.any (·.isOperator word) := by
    intro word
    cases likes with
    | nil => rfl
    | cons first _ => exact first.isOperator word
  have imports : ∀ kept : Bool, (if kept then (site.move f).imports else []) =
      (if kept then site.imports else []).map (·.move f) := by
    intro kept
    cases kept <;> rfl
  -- What a call reads is under tags that no renesting touches, so each part moves on its own.
  unfold call?
  rw [kept.element?_read "name" (by decide)]
  cases e.element? "name" with
  | none => rfl
  | some name =>
    rw [Option.map_some, Option.map_some, Option.map_some, Element.segments_move]
    cases name.segments with
    | nil => rfl
    | cons first rest =>
      have written : ((first :: rest).map (·.move f)).getLast?.map (·.identifier) =
          (first :: rest).getLast?.map (·.identifier) := by
        rw [List.getLast?_map, Option.map_map]
        simp only [Function.comp_def, Element.identifier_move]
      have qualifiers : ((first :: rest).map (·.move f)).dropLast.map (·.identifier) =
          (first :: rest).dropLast.map (·.identifier) := by
        rw [← List.map_dropLast, List.map_map]
        simp only [Function.comp_def, Element.identifier_move]
      rw [List.map_cons] at written qualifiers ⊢
      dsimp only
      rw [written, qualifiers, receiverNames_like likes, receivers_move, List.isEmpty_map, operators, operators, arguments,
        site.locate_kept kept, imports]
      rfl

theorem declaratorType?_kept (kept : e.Kept f e') (previous : Option TypeUse) :
    (site.move f).declaratorType? here (previous.map (·.move f)) e' =
      (site.declaratorType? here previous e).map (·.move f) := by
  unfold declaratorType?
  rcases kept.element? "type" (by decide) with ⟨none, none'⟩ | ⟨_, _, some, some', type⟩
  · rw [none, none']
  · rw [some, some']
    dsimp only
    rw [type.attribute?, site.declaredType?_kept here type]
    split <;> rfl

theorem declaredVariables_kept (kept : e.Kept f e') (type : Option TypeUse) :
    (site.move f).declaredVariables here (type.map (·.move f)) e' =
      (site.declaredVariables here type e).map (·.move f) := by
  unfold declaredVariables
  rw [kept.elementsNamed_read "name" (by decide), List.map_map, List.map_map]
  congr 1
  funext name
  simp [Variable.move, locate_move]

theorem writtenParameter_kept (isReference : Bool) (kept : e.Kept f e') :
    (site.move f).writtenParameter here isReference e' = (site.writtenParameter here isReference e).move f := by
  obtain ⟨declarator, declarator', found, found', declares⟩ : ∃ declarator declarator' : Element,
      (e.element? "decl").getD e = declarator ∧ (e'.element? "decl").getD e' = declarator' ∧
        declarator.Kept f declarator' := by
    rcases kept.element? "decl" (by decide) with ⟨none, none'⟩ | ⟨a, a', some, some', declares⟩
    · exact ⟨e, e', by rw [none]; rfl, by rw [none']; rfl, kept⟩
    · exact ⟨a, a', by rw [some]; rfl, by rw [some']; rfl, declares⟩
  unfold writtenParameter
  dsimp only
  rw [found, found', declares.element?_read "name" (by decide), site.locate_kept kept]
  rcases declares.element? "type" (by decide) with ⟨none, none'⟩ | ⟨type, type', some, some', types⟩
  · rw [none, none']
    simp [WrittenParameter.move, Function.comp_def]
  · rw [some, some', Option.bind_some, Option.bind_some, site.declaredType?_kept here types]
    cases site.declaredType? here type with
    | none => simp [WrittenParameter.move, Function.comp_def]
    | some use => simp [WrittenParameter.move, Function.comp_def, types.isVoid]

theorem parameters_kept (isReference : Bool) (kept : e.Kept f e') :
    (site.move f).parameters here isReference e' = (site.parameters here isReference e).map (·.move f) := by
  have written : ((e'.element? "parameter_list").toList.flatMap (·.elementsNamed "param")).map
        ((site.move f).writtenParameter here isReference) =
      (((e.element? "parameter_list").toList.flatMap (·.elementsNamed "param")).map
        (site.writtenParameter here isReference)).map (·.move f) := by
    rcases kept.element? "parameter_list" (by decide) with ⟨none, none'⟩ | ⟨list, list', some, some', lists⟩
    · rw [none, none']
      rfl
    · rw [some, some']
      have params := lists.elementsNamed "param" (by decide)
      simp only [Option.toList_some, List.flatMap_cons, List.flatMap_nil, List.append_nil]
      generalize list.elementsNamed "param" = found at params
      generalize list'.elementsNamed "param" = found' at params
      induction params with
      | nil => rfl
      | cons first _ ih => simp only [List.map_cons, ih, site.writtenParameter_kept here isReference first.1]
  unfold parameters
  dsimp only
  rw [written]
  generalize ((e.element? "parameter_list").toList.flatMap (·.elementsNamed "param")).map
    (site.writtenParameter here isReference) = found
  let counts (w : WrittenParameter × Nat) : Parameter :=
    { name := w.1.name
      declaredType := w.1.type.getD { name := "", scope := here }
      locations := [w.1.location]
      method := here
      position := w.2 }
  -- each parameter that counts keeps its number
  have placed : ∀ counted : List WrittenParameter,
      (counted.map (·.move f)).zipIdx.map counts = (counted.zipIdx.map counts).map (·.move f) := by
    intro counted
    rw [List.zipIdx_map, List.map_map, List.map_map]
    refine List.map_congr_left ?_
    rintro ⟨⟨name, type, isVoid, location⟩, number⟩ -
    cases type <;> rfl
  cases found with
  | nil => rfl
  | cons only rest =>
    cases rest with
    | nil =>
      have alike : ((only.move f).name.isEmpty && (only.move f).isVoid) = (only.name.isEmpty && only.isVoid) := rfl
      simp only [List.map_cons, List.map_nil, alike]
      split
      · rfl
      · exact placed [only]
    | cons second rest => exact placed (only :: second :: rest)

end Site

-- The decisions of a profile neither look at positions nor at the namespaces inside of an element.
structure Profile.Placeless (p : Profile) : Prop where
  importTag : p.importTag = "using"
  packageTag : p.packageTag = none
  space : p.role "namespace" = .space
  access : ∀ {f : String → String} {e e' : Element} (region : Option String), e.Kept f e' →
    p.reading.access e' region = p.reading.access e region
  importsNamespace : ∀ (f : String → String) (e : Element),
    p.reading.importsNamespace (e.move f) = p.reading.importsNamespace e
  parentNames : ∀ {f : String → String} {e e' : Element}, e.Kept f e' →
    p.reading.parentNames e' = (p.reading.parentNames e).map (·.move f)

theorem Profile.cPlusPlus_placeless : Profile.cPlusPlus.Placeless where
  importTag := rfl
  packageTag := rfl
  space := by decide
  access region kept := congrArg (Option.getD _) kept.specifiedAccess
  importsNamespace f e := by
    have direct : (e.move f).directText = e.directText := Content.directText_move f e.content
    simp only [cPlusPlus, Reading.c, Reading.usesNamespaceWord, Element.element?_move, Option.isSome_map, direct]
  parentNames kept := kept.superNames

theorem Profile.cSharp_placeless : Profile.cSharp.Placeless where
  importTag := rfl
  packageTag := rfl
  space := by decide
  access _ kept := kept.specifiedAccess
  importsNamespace f e := congrArg (fun text : String => !text.contains '=') (e.value_move f)
  parentNames kept := kept.superNames

namespace Profile.Placeless

variable {p : Profile} (placeless : p.Placeless)

include placeless

theorem isNamespace : p.isNamespace "namespace" = true := by
  have role := placeless.space
  unfold Profile.role at role
  grind

theorem leading?_space (mayHavePackage : Bool) : p.leading? mayHavePackage "namespace" = none := by
  simp [Profile.leading?, Profile.isPackage, Profile.isImport, placeless.packageTag, placeless.importTag]

theorem leadingPackage? (elements : List Element) : p.leadingPackage? elements = none := by
  induction elements with
  | nil => rfl
  | cons e rest ih =>
    unfold Profile.leadingPackage? leading?
    rw [ih]
    grind [Profile.isPackage, placeless.packageTag]

theorem leadingImports_like (mayHavePackage : Bool) (likes : List.Forall₂ (Element.Like f) before before') :
    p.leadingImports mayHavePackage before' = (p.leadingImports mayHavePackage before).map (·.move f) := by
  induction likes generalizing mayHavePackage with
  | nil => rfl
  | @cons e e' rest rest' like _ ih =>
    unfold leadingImports
    rw [like.tag]
    cases leading : p.leading? mayHavePackage e.tag with
    | none => rfl
    | some sort =>
      cases sort with
      | comment => exact ih mayHavePackage
      | package => exact ih false
      | importing =>
        have isImport : p.importTag = e.tag := by
          unfold leading? at leading
          grind [Profile.isImport]
        have isRead : e.tag ∈ readTags := by
          rw [← isImport, placeless.importTag]
          decide
        rw [List.map_cons, ← ih false, like.eq_move isRead]

-- Imports stand in no namespace of a qualified name, and it does not matter in which they are read.
theorem importsOf_like (site : Site) (mayHavePackage : Bool) (likes : List.Forall₂ (Element.Like f) before before') :
    (site.move f).importsOf p mayHavePackage before' =
      (site.importsOf p mayHavePackage before).map (·.map (·.move f)) := by
  unfold Site.importsOf
  rw [placeless.leadingImports_like mayHavePackage likes]
  induction p.leadingImports mayHavePackage before with
  | nil => rfl
  | cons e rest ih =>
    rw [List.map_cons, List.mapM_cons, List.mapM_cons, ih, site.importOf_move (placeless.importsNamespace f e)]
    cases site.importOf p e with
    | error error => rfl
    | ok i => cases rest.mapM (site.importOf p) <;> rfl

end Profile.Placeless

namespace Survey

variable {p : Profile} {language : Language} {around : Surroundings} {c d : Context}

def Surroundings.move (f : String → String) (around : Surroundings) : Surroundings :=
  { around with site := around.site.move f }

theorem typeScope_kept (placeless : p.Placeless) (keeps : StrictMono f) (kept : e.Kept f e') (site : d.site = c.site.move f)
    (current : d.current = c.current) (region : d.region = c.region) (parameters : List String) :
    typeScope p d parameters e' = (typeScope p c parameters e).move f := by
  have uses : ((p.reading.parentNames e).map (c.site.typeUse c.current)).map (·.move f) =
      ((p.reading.parentNames e).map (·.move f)).map (d.site.typeUse d.current) := by
    simp [site, current, Site.typeUse_move]
  have none : ParentColumns.move f {} = {} := rfl
  unfold typeScope
  dsimp only
  rw [kept.element?_read "name" (by decide), placeless.parentNames kept, placeless.access d.region kept, kept.tag, region]
  simp only [Scope.move, ScopeKind.move, TypeDefinition.move, ParentColumns.move_foldl_add keeps, uses, none]
  cases e.element? "name" with
  | none => rfl
  | some name => simp [VariableTable.move, Function.comp_def]

theorem methodScope_kept (placeless : p.Placeless) (kept : e.Kept f e') (site : d.site = c.site.move f)
    (region : d.region = c.region) (id : ScopeId) :
    methodScope p d e' id = (methodScope p c e id).move f := by
  have returned : ((e'.element? "type").bind ((c.site.move f).declaredType? id)).filter (!·.isVoid (e'.element? "type")) =
      (((e.element? "type").bind (c.site.declaredType? id)).filter (!·.isVoid (e.element? "type"))).map (·.move f) := by
    rcases kept.element? "type" (by decide) with ⟨none, none'⟩ | ⟨type, type', some, some', types⟩
    · rw [none, none']
      rfl
    · rw [some, some', Option.bind_some, Option.bind_some, c.site.declaredType?_kept id types]
      cases c.site.declaredType? id type with
      | none => rfl
      | some use =>
        simp only [Option.map_some, Option.filter_some, types.isVoid]
        split <;> rfl
  unfold methodScope
  dsimp only
  rw [kept.element?_read "name" (by decide), placeless.access d.region kept, kept.tag, region, site,
    c.site.parameters_kept id _ kept]
  simp only [Scope.move, ScopeKind.move, MethodDefinition.move, List.map_nil, returned, apply_ite (Option.map _)]
  cases e.element? "name" with
  | none => rfl
  | some name => simp [VariableTable.move, Site.qualifierUse_move]

theorem opened_kept (kept : e.Kept f e') (isReference : Bool) (s : Scope) {sort : Category} (fresh : s.locations = [])
    (sorted : s.category = sort) (proper : sort ≠ .space) :
    (around.opened e isReference s).Moved f language ((around.move f).opened e' isReference (s.move f)) := by
  have place := around.site.locate_kept kept isReference
  have moved : (around.move f).opened e' isReference (s.move f) = (around.opened e isReference s).move f := by
    simp only [Surroundings.opened, Surroundings.move, Scope.addLocation, Scope.move, fresh, List.map_nil,
      Scope.addLocationTo, place, List.map_cons]
    rfl
  rw [moved]
  exact .of_move (sorted ▸ proper)

theorem opened_space (spoken : around.site.language = language) (e e' : Element) (name : String) (isGlobal : Bool) :
    (around.opened e false { name, kind := .space isGlobal }).Moved f language
      ((around.move f).opened e' false { name, kind := .space isGlobal }) := by
  subst spoken
  exact ⟨rfl, fun proper => absurd rfl proper, fun _ => ⟨rfl, rfl⟩⟩

theorem rel_move {type type' : Option TypeUse} :
    Option.Rel (TypeUse.Moved f) type type' ↔ type' = type.map (·.move f) := by
  constructor
  · rintro (same | -)
    · exact congrArg some same
    · rfl
  · rintro rfl
    cases type with
    | none => exact .none
    | some u => exact .some rfl

theorem reads_kept (placeless : p.Placeless) (keeps : StrictMono f) (spoken : around.site.language = language)
    (likes : List.Forall₂ (Element.Like f) before before') (kept : e.Kept f e') :
    Reads (Scope.Moved f language) (TypeUse.Moved f) p p.reading around (around.move f) before before' e e' where
  tag := kept.tag
  type _ c d parameters inStep := by
    have site : d.site = c.site.move f := by rw [inStep.site', inStep.site]; rfl
    have region : d.region = c.region := by rw [inStep.region', inStep.region]; rfl
    have read : typeScope (p.reread p.reading) d parameters e' = (typeScope p c parameters e).move f :=
      typeScope_kept placeless keeps kept site inStep.current region parameters
    have sorted : (typeScope p c parameters e).category = .type := rfl
    rw [read]
    exact opened_kept kept _ _ rfl sorted (by decide)
  method _ c d id inStep := by
    have site : d.site = c.site.move f := by rw [inStep.site', inStep.site]; rfl
    have region : d.region = c.region := by rw [inStep.region', inStep.region]; rfl
    have read : methodScope (p.reread p.reading) d e' id = (methodScope p c e id).move f :=
      methodScope_kept placeless kept site region id
    have sorted : (methodScope p c e id).category = .method := rfl
    rw [read]
    exact opened_kept kept _ _ rfl sorted (by decide)
  path _ := by
    rw [kept.element?_read "name" (by decide), Option.map_map]
    simp only [Function.comp_def, Element.segmentNames_move]
  space _ name := opened_space spoken e e' name false
  block _ := opened_kept kept false { kind := .block } rfl rfl (by decide)
  template _ := kept.templateParameters
  -- A declarator is handed the type before it, which is a moved one already.
  declaredType _ here type type' types := by
    rw [rel_move.mp types]
    exact rel_move.mpr (around.site.declaratorType?_kept here kept type)
  declared _ here type type' s t types moved := by
    have found : (around.move f).site.declaredVariables here (type.map (·.move f)) e' =
      (around.site.declaredVariables here type e).map (·.move f) := around.site.declaredVariables_kept here kept type
    rw [rel_move.mp types, found]
    exact moved.addVariables _
  call _ here := by
    have found : (around.move f).site.call? (p.reread p.reading) here before' e' =
      (around.site.call? p here before e).map (·.move f) := around.site.call?_kept here p likes kept
    rw [found]
    cases around.site.call? p here before e with
    | none => exact .none
    | some call => exact .some fun s t moved => moved.addCall call

end Survey

end ScopeAtlas
