import ScopeAtlas.Language.Profile
import ScopeAtlas.Markup.Name
import ScopeAtlas.Scope.Basic

namespace ScopeAtlas

structure Site where
  file : String
  language : Language
  imports : List Import := []

namespace Site

def locate (site : Site) (e : Element) (isReference : Bool) : Location := .ofElement site.file e isReference

def qualifierUse (site : Site) (scope : ScopeId) (segment : Element) : QualifierUse where
  name := segment.identifier
  location := some (site.locate segment true)
  language := some site.language
  scope := some scope

def typeUse (site : Site) (scope : ScopeId) (name : Element) : TypeUse :=
  { name := name.lastSegment.identifier
    qualifiers := name.qualifierSegments.map (site.qualifierUse scope)
    arguments := name.lastSegment.typeArguments.attach.map fun ⟨argument, member⟩ =>
      have := Nat.lt_of_lt_of_le (Element.size_lt_of_mem_typeArguments member) name.size_lastSegment_le
      site.typeUse scope argument
    imports := site.imports
    scope
    location := some (site.locate name true)
    language := some site.language }
termination_by name.size

-- The type that a `type` element names: its last name, since specifiers may be written as names before it.
def declaredType? (site : Site) (scope : ScopeId) (type : Element) : Option TypeUse :=
  (type.elementsNamed "name").getLast?.map (site.typeUse scope)

-- Reads an import; its last segment is the symbol unless a whole namespace is brought in.
def importOf (p : Profile) (site : Site) (e : Element) : Except Error Import :=
  if !p.isImport e.tag then .error (.notImport p.importTag e.tag)
  else
    match e.element? "name" <|> (e.element? "namespace").bind (·.element? "name") with
    | none => .error (.importWithoutName e.tag)
    | some name =>
      let path : List QualifierUse := name.segments.map fun segment =>
        { name := segment.identifier
          location := some (site.locate segment true)
          language := some site.language
          namespaceOnly := true }
      let whole := p.reading.importsNamespace e
      .ok {
        path := if whole then path else path.dropLast
        symbol := if whole then none else path.getLast?.map ({ · with namespaceOnly := false })
        location := some (site.locate e false)
        language := some site.language }

end Site

def TypeUse.isVoid (u : TypeUse) (type : Option Element) : Bool :=
  u.name == "void" && u.qualifiers.isEmpty && !type.any fun e => (e.element? "modifier").isSome

def Element.isMemberOperator (e : Element) : Bool :=
  e.tag == "operator" && (Text.trim e.value == "." || Text.trim e.value == "->")

def Element.isOperator (e : Element) (word : String) : Bool := e.tag == "operator" && Text.trim e.value == word

-- The receivers written before a member, nearest first, given the elements before it, nearest first: pairs of a name
-- and a member operator, for as long as they follow each other.
def receiverNames : (before : List Element) → List String
  | operator :: receiver :: before =>
    if operator.isMemberOperator && receiver.tag == "name" then
      receiver.lastSegment.identifier :: receiverNames before
    else []
  | _ => []

namespace Site

def receivers (site : Site) (scope : ScopeId) (names : List String) : List NameUse :=
  names.map fun name => { name, scope, language := some site.language }

def variableUse (site : Site) (scope : ScopeId) (elements : List Element) : VariableUse :=
  match elements.reverse with
  | last :: before =>
    if last.tag == "name" then
      { name := last.lastSegment.identifier
        scope
        location := some (site.locate last false)
        language := some site.language
        receivers := site.receivers scope (receiverNames before) }
    else { name := "", scope, language := some site.language }
  | [] => { name := "", scope, language := some site.language }

def literalUse? (p : Profile) (site : Site) (scope : ScopeId) : List Element → Option LiteralUse
  | [e] =>
    if e.tag == "literal" then
      (LiteralKind.ofText? ((e.attribute? "type").getD "")).map fun kind =>
        { kind
          typeName := p.literalType? kind e.value
          value := e.value
          scope
          location := some (site.locate e false) }
    else none
  | _ => none

def argument (p : Profile) (site : Site) (scope : ScopeId) (e : Element) : Argument :=
  let elements := ((e.element? "expr").getD e).elements
  match site.literalUse? p scope elements with
  | some u => .literal u
  | none => .variable (site.variableUse scope elements)

def call? (p : Profile) (site : Site) (scope : ScopeId) (before : List Element) (e : Element) : Option Call :=
  match (e.element? "name").map (·.segments) with
  | none | some [] => none
  | some (first :: rest) =>
    let segments := first :: rest
    let written := (segments.getLast?.map (·.identifier)).getD ""
    let qualifiers := segments.dropLast.map (·.identifier)
    let receivers := site.receivers scope (qualifiers.reverse ++ receiverNames before)
    let (name, hasTilde) := match written.toList with
      | '~' :: rest => (Text.trim (String.ofList rest), true)
      | _ => (written, false)
    some {
      name
      isConstructor := before.head?.any (·.isOperator "new")
      isDestructor := before.head?.any (·.isOperator "~") || hasTilde
      arguments := (e.element? "argument_list").toList.flatMap fun list =>
        (list.elementsNamed "argument").map (site.argument p scope)
      receivers
      imports := if receivers.isEmpty then site.imports else []
      scope
      location := site.locate e false
      language := some site.language }

-- The type of a declarator: one that refers back, or has none, shares the type of the declarator before it.
def declaratorType? (site : Site) (scope : ScopeId) (previous : Option TypeUse) (e : Element) : Option TypeUse :=
  match e.element? "type" with
  | some type => if type.attribute? "ref" == some "prev" then previous else site.declaredType? scope type
  | none => previous

def declaredVariables (site : Site) (scope : ScopeId) (type : Option TypeUse) (e : Element) : List Variable :=
  (e.elementsNamed "name").map fun name =>
    { name := name.identifier, declaredType := type, locations := [site.locate name false], scope }

structure WrittenParameter where
  name : String
  type : Option TypeUse
  isVoid : Bool
  location : Location

def writtenParameter (site : Site) (method : ScopeId) (isReference : Bool) (e : Element) : WrittenParameter :=
  let declarator := (e.element? "decl").getD e
  let type := declarator.element? "type"
  let use := type.bind (site.declaredType? method)
  { name := ((declarator.element? "name").map (·.identifier)).getD ""
    type := use
    isVoid := use.any (·.isVoid type)
    location := site.locate e isReference }

-- The parameters in their positions; a lone `void` without a name stands for none.
def parameters (site : Site) (method : ScopeId) (isReference : Bool) (e : Element) : List Parameter :=
  let written := ((e.element? "parameter_list").toList.flatMap (·.elementsNamed "param")).map
    (site.writtenParameter method isReference)
  let counted := match written with
    | [only] => if only.name.isEmpty && only.isVoid then [] else [only]
    | several => several
  counted.zipIdx.map fun (w, position) =>
    { name := w.name
      declaredType := w.type.getD { name := "", scope := method }
      locations := [w.location]
      method
      position }

end Site

def Element.templateParameters (e : Element) : List String :=
  (e.element? "parameter_list").toList.flatMap fun list =>
    (list.elementsNamed "param").filterMap fun param =>
      (param.element? "name" <|> (param.element? "decl").bind (·.element? "name") <|>
        (param.element? "type").bind fun type => (type.elementsNamed "name").getLast?).map (·.identifier)

end ScopeAtlas
