import ScopeAtlas.Proofs.Invariants

namespace ScopeAtlas

-- A type as it is meant: `a::b::c<…>` has the qualifiers `a` and `b`, the name `c` and some types as arguments.
@[ext] structure TypeName where
  qualifiers : List String
  name : String
  arguments : List TypeName

namespace TypeUse

mutual

def typeName : TypeUse → TypeName
  | ⟨name, qualifiers, arguments, _, _, _, _⟩ => ⟨qualifiers.map (·.name), name, typeNames arguments⟩

def typeNames : List TypeUse → List TypeName
  | [] => []
  | u :: rest => u.typeName :: typeNames rest

end

theorem typeNames_eq_map (uses : List TypeUse) : typeNames uses = uses.map typeName := by
  induction uses with
  | nil => rfl
  | cons u rest ih => rw [typeNames, ih, List.map_cons]

theorem typeName_eq (u : TypeUse) : u.typeName = ⟨u.qualifierNames, u.name, u.arguments.map typeName⟩ := by
  cases u
  rw [typeName, typeNames_eq_map]
  rfl

end TypeUse

section Spelling

-- A plain identifier: a name that holds text alone. Blanks around it do not count.
structure Element.Identifies (e : Element) (identifier : String) : Prop where
  tag : e.tag = "name"
  plain : e.elements = []
  text : Text.trim e.value = identifier

mutual

inductive Spells : Element → TypeName → Prop
  | plain {e : Element} {name : String} (identifies : e.Identifies name) : Spells e ⟨[], name, []⟩
  | generic {e first list : Element} {name : String} {arguments : List TypeName} (tag : e.tag = "name")
      (holds : e.elements = [first, list]) (identifies : first.Identifies name) (listed : list.tag = "argument_list")
      (spelled : SpellArguments list.elements arguments) : Spells e ⟨[], name, arguments⟩
  -- each part may be qualified itself
  | qualified {e first operator : Element} {rest : List Element} {t : TypeName} (tag : e.tag = "name")
      (holds : e.elements = first :: operator :: rest) (spelled : SpellPath (first :: operator :: rest) t) : Spells e t

-- Parts of a qualified name with operators between them. Only the last segment has arguments.
inductive SpellPath : List Element → TypeName → Prop
  | last {e : Element} {t : TypeName} (spelled : Spells e t) : SpellPath [e] t
  | further {e operator : Element} {rest : List Element} {before after : List String} {segment name : String}
      {arguments : List TypeName} (spelled : Spells e ⟨before, segment, []⟩) (tag : operator.tag = "operator")
      (later : SpellPath rest ⟨after, name, arguments⟩) :
      SpellPath (e :: operator :: rest) ⟨before ++ segment :: after, name, arguments⟩

inductive SpellArguments : List Element → List TypeName → Prop
  | none : SpellArguments [] []
  | direct {argument name : Element} {rest : List Element} {t : TypeName} {later : List TypeName}
      (tag : argument.tag = "argument") (holds : argument.elements = [name]) (spelled : Spells name t)
      (others : SpellArguments rest later) : SpellArguments (argument :: rest) (t :: later)
  | wrapped {argument expression name : Element} {rest : List Element} {t : TypeName} {later : List TypeName}
      (tag : argument.tag = "argument") (holds : argument.elements = [expression]) (wraps : expression.tag = "expr")
      (inside : expression.elements = [name]) (spelled : Spells name t) (others : SpellArguments rest later) :
      SpellArguments (argument :: rest) (t :: later)

end

theorem Spells.tag {e : Element} {t : TypeName} (spelled : Spells e t) : e.tag = "name" := by
  cases spelled with
  | plain identifies => exact identifies.tag
  | generic tag => exact tag
  | qualified tag => exact tag

end Spelling

section Segments

variable {e : Element}

theorem Content.nameSegments_eq (c : Content) :
    c.nameSegments = (c.elements.filter (·.tag == "name")).flatMap Element.segments := by
  induction c with
  | nil => rfl
  | text run rest ih => exact ih
  | element tag attributes position line inner rest _ ih =>
    by_cases name : tag = "name"
    · simp only [nameSegments, elements, name, if_true, beq_self_eq_true, List.filter_cons_of_pos, List.flatMap_cons, ih]
      rfl
    · have differs : (tag == "name") = false := beq_eq_false_iff_ne.mpr name
      simp only [nameSegments, elements, name, differs, if_false, List.filter_cons, Bool.false_eq_true, ih]

theorem Content.identifier?_eq (c : Content) :
    c.identifier? = (c.elements.find? (·.tag == "name")).map Element.identifier := by
  induction c with
  | nil => rfl
  | text run rest ih => exact ih
  | element tag attributes position line inner rest _ ih =>
    by_cases name : tag = "name"
    · simp only [identifier?, elements, name, if_true, beq_self_eq_true, List.find?_cons_of_pos, Option.map_some]
      rfl
    · have differs : (tag == "name") = false := beq_eq_false_iff_ne.mpr name
      simp only [identifier?, elements, name, differs, if_false, List.find?_cons, ih]

namespace Element

theorem segments_of_plain (plain : e.content.isQualified = false) : e.segments = [e] := by
  rw [segments, plain]
  rfl

theorem segments_of_qualified (qualified : e.content.isQualified = true) :
    e.segments = (e.elementsNamed "name").flatMap segments := by
  rw [segments, qualified, if_pos rfl, Content.nameSegments_eq]
  rfl

theorem identifier_eq (e : Element) :
    e.identifier = ((e.element? "name").map identifier).getD (Text.trim e.value) := by
  rw [identifier, Content.identifier?_eq]
  rfl

theorem Identifies.identifier {name : String} (identifies : e.Identifies name) : e.identifier = name := by
  rw [identifier_eq, element?, identifies.plain]
  exact identifies.text

end Element

-- Segments that say the qualifiers of a type, then one that says its name and holds its arguments.
def Tells (segments : List Element) (t : TypeName) : Prop :=
  ∃ before last, segments = before ++ [last] ∧ before.map Element.identifier = t.qualifiers ∧ last.identifier = t.name ∧
    List.Forall₂ Spells last.typeArguments t.arguments

theorem SpellArguments.names {elements : List Element} {arguments : List TypeName}
    (spelled : SpellArguments elements arguments) :
    List.Forall₂ Spells ((elements.filter (·.tag == "argument")).filterMap Element.argumentName?) arguments := by
  induction elements generalizing arguments with
  | nil =>
    cases spelled
    exact .nil
  | cons argument rest ih =>
    cases spelled with
    | @direct _ name _ t later tag holds spelled others =>
      have found : argument.argumentName? = some name := by
        simp [Element.argumentName?, Element.element?, holds, spelled.tag]
      simp only [List.filter_cons, tag, beq_self_eq_true, if_true, List.filterMap_cons, found]
      exact .cons spelled (ih others)
    | @wrapped _ expression name _ t later tag holds wraps inside spelled others =>
      have found : argument.argumentName? = some name := by
        simp [Element.argumentName?, Element.element?, holds, wraps, inside, spelled.tag]
      simp only [List.filter_cons, tag, beq_self_eq_true, if_true, List.filterMap_cons, found]
      exact .cons spelled (ih others)

theorem tells_plain {name : String} (identifies : e.Identifies name) : Tells e.segments ⟨[], name, []⟩ := by
  have plain : e.content.isQualified = false := by
    have none : e.content.elements = [] := identifies.plain
    simp [Content.isQualified, none]
  refine ⟨[], e, Element.segments_of_plain plain, rfl, identifies.identifier, ?_⟩
  have none : e.element? "argument_list" = none := by rw [Element.element?, identifies.plain]; rfl
  rw [Element.typeArguments, none]
  exact .nil

theorem tells_generic {first list : Element} {name : String} {arguments : List TypeName} (holds : e.elements = [first, list])
    (identifies : first.Identifies name) (listed : list.tag = "argument_list")
    (spelled : SpellArguments list.elements arguments) : Tells e.segments ⟨[], name, arguments⟩ := by
  have elements : e.content.elements = [first, list] := holds
  have plain : e.content.isQualified = false := by
    simp [Content.isQualified, elements, identifies.tag, listed]
  have named : e.element? "name" = some first := by simp [Element.element?, holds, identifies.tag]
  have found : e.element? "argument_list" = some list := by simp [Element.element?, holds, identifies.tag, listed]
  refine ⟨[], e, Element.segments_of_plain plain, rfl, ?_, ?_⟩
  · rw [Element.identifier_eq, named]
    exact identifies.identifier
  · rw [Element.typeArguments, found]
    exact spelled.names

theorem SpellPath.operator_tag {first operator : Element} {rest : List Element} {t : TypeName}
    (spelled : SpellPath (first :: operator :: rest) t) : operator.tag = "operator" := by
  cases spelled with
  | further _ tag => exact tag

theorem Tells.further {segments later : List Element} {before after : List String} {segment name : String}
    {arguments : List TypeName} (first : Tells segments ⟨before, segment, []⟩) (second : Tells later ⟨after, name, arguments⟩) :
    Tells (segments ++ later) ⟨before ++ segment :: after, name, arguments⟩ := by
  obtain ⟨front, middle, rfl, fronts, identifier, -⟩ := first
  obtain ⟨further, last, rfl, furthers, named, spelled⟩ := second
  refine ⟨front ++ middle :: further, last, by simp, ?_, named, spelled⟩
  rw [List.map_append, List.map_cons, fronts, identifier, furthers]

mutual

-- The segments of a name, by recursion on the way it is written.
theorem Spells.tells {e : Element} {t : TypeName} : Spells e t → Tells e.segments t
  | .plain identifies => tells_plain identifies
  | .generic _ holds identifies listed spelled => tells_generic holds identifies listed spelled
  | .qualified _ holds spelled => by
    have elements : e.content.elements = _ := holds
    have qualified : e.content.isQualified = true := by
      simp [Content.isQualified, elements, spelled.operator_tag]
    rw [Element.segments_of_qualified qualified, Element.elementsNamed, holds]
    exact SpellPath.tells spelled

theorem SpellPath.tells {parts : List Element} {t : TypeName} :
    SpellPath parts t → Tells ((parts.filter (·.tag == "name")).flatMap Element.segments) t
  | .last spelled => by
    simp only [List.filter_cons, spelled.tag, beq_self_eq_true, if_true, List.filter_nil, List.flatMap_singleton]
    exact Spells.tells spelled
  | .further spelled tag later => by
    have differs : ("operator" == "name") = false := by decide
    simp only [List.filter_cons, spelled.tag, tag, differs, beq_self_eq_true, if_true, Bool.false_eq_true, if_false,
      List.flatMap_cons]
    exact (Spells.tells spelled).further (SpellPath.tells later)

end

end Segments

namespace Site

theorem typeUse_eq (site : Site) (scope : ScopeId) (name : Element) :
    site.typeUse scope name =
      { name := name.lastSegment.identifier
        qualifiers := name.qualifierSegments.map (site.qualifierUse scope)
        arguments := name.lastSegment.typeArguments.map (site.typeUse scope)
        imports := site.imports
        scope
        location := some (site.locate name true)
        language := some site.language } := by
  rw [typeUse]
  simp only [List.map_subtype, List.unattach_attach]

-- Whatever way a type is written, the use that is read from it names that type: its name, its qualifiers and, at any
-- depth, its arguments.
theorem typeUse_reads_back (site : Site) (scope : ScopeId) {e : Element} {t : TypeName} (spelled : Spells e t) :
    (site.typeUse scope e).typeName = t := by
  induction size : e.size using Nat.strong_induction_on generalizing e t with
  | _ n ih =>
    obtain ⟨before, last, segments, qualifiers, name, arguments⟩ := spelled.tells
    have lastSegment : e.lastSegment = last := by rw [Element.lastSegment, segments, List.getLast?_concat, Option.getD_some]
    have qualifierSegments : e.qualifierSegments = before := by rw [Element.qualifierSegments, segments, List.dropLast_concat]
    have decoded : (last.typeArguments.map fun argument => (site.typeUse scope argument).typeName) = t.arguments := by
      rw [← List.forall₂_eq_eq_eq, List.forall₂_map_left_iff]
      have listed := List.forall₂_and_left last.typeArguments t.arguments |>.mpr ⟨fun _ member => member, arguments⟩
      refine listed.imp ?_
      rintro argument u ⟨member, spelled⟩
      have smaller := Nat.lt_of_lt_of_le (Element.size_lt_of_mem_typeArguments member) (lastSegment ▸ e.size_lastSegment_le)
      exact ih argument.size (size ▸ smaller) spelled rfl
    rw [typeUse_eq, TypeUse.typeName_eq, lastSegment, qualifierSegments]
    refine TypeName.ext ?_ name ?_
    · exact (List.map_map ..).trans qualifiers
    · exact (List.map_map ..).trans decoded

end Site

-- `std::map<a::key, std::list<int>>`; the first argument is written inside an expression, the second directly.
def mapOfLists : Element :=
  let colons := Content.written "operator" (.text "::" .nil)
  let key := Content.written "name" (.name "a" <| colons <| .name "key" .nil) .nil
  let list := Content.written "name" (.name "list" <| .written "argument_list"
    (.text "<" <| .written "argument" (.name "int" .nil) <| .text ">" .nil) .nil) .nil
  let lists := Content.written "name" (.name "std" <| colons list) .nil
  let arguments := Content.text "<" <| .written "argument" (.written "expr" key .nil) <| .text ", " <|
    .written "argument" lists <| .text ">" .nil
  { tag := "name"
    content := .name "std" <| colons <| .written "name" (.name "map" <| .written "argument_list" arguments .nil) .nil }

theorem map_of_lists_is_read :
    let t : TypeName := ⟨["std"], "map", [⟨["a"], "key", []⟩, ⟨["std"], "list", [⟨[], "int", []⟩]⟩]⟩
    Spells mapOfLists t ∧ (Site.typeUse { file := "a.cpp", language := .cPlusPlus } 0 mapOfLists).typeName = t := by
  have identifies : ∀ text, Text.trim (text ++ "") = text → Element.Identifies ⟨"name", [], "", 1, .text text .nil⟩ text :=
    fun text trimmed => ⟨rfl, rfl, trimmed⟩
  have word : ∀ text, Text.trim (text ++ "") = text → Spells ⟨"name", [], "", 1, .text text .nil⟩ ⟨[], text, []⟩ :=
    fun text trimmed => .plain (identifies text trimmed)
  have std := word "std" (by decide +kernel)
  have spelled : Spells mapOfLists ⟨[] ++ ["std"], "map", [⟨[] ++ ["a"], "key", []⟩, ⟨[] ++ ["std"], "list", [⟨[], "int", []⟩]⟩]⟩ := by
    refine .qualified rfl rfl (.further std rfl (.last (.generic rfl rfl (identifies "map" (by decide +kernel)) rfl ?_)))
    refine .wrapped rfl rfl rfl rfl ?_ (.direct rfl rfl ?_ .none)
    · exact .qualified rfl rfl (.further (word "a" (by decide +kernel)) rfl (.last (word "key" (by decide +kernel))))
    · refine .qualified rfl rfl (.further std rfl (.last (.generic rfl rfl (identifies "list" (by decide +kernel)) rfl ?_)))
      exact .direct rfl rfl (word "int" (by decide +kernel)) .none
  exact ⟨spelled, Site.typeUse_reads_back _ _ spelled⟩

end ScopeAtlas
