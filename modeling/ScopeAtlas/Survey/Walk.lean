import ScopeAtlas.Survey.Context
import ScopeAtlas.Survey.Role

namespace ScopeAtlas

namespace Survey

-- A handler is given the walk of its content, so that the recursion itself is that of the tree.
abbrev Inside := Place → Survey Unit

-- Opens namespaces one in the other and takes a step in the innermost. Answers with the outermost; without any
-- names the step is taken in place.
def openSpaces (e : Element) (step : Survey Unit) : List String → Survey ScopeId
  | [] => do
    step
    current
  | name :: names =>
    withScope (fun _ => { name, kind := .space false }) e false do
      let _ ← openSpaces e step names

def readImports (p : Profile) (mayHavePackage : Bool) (elements : List Element) : Survey (List Import) := do
  let site := (← get).site
  (p.leadingImports mayHavePackage elements).mapM fun e => liftExcept (site.importOf p e)
where
  liftExcept (outcome : Except Error Import) : Survey Import := ExceptT.mk (pure outcome)

def typeScope (p : Profile) (c : Context) (parameters : List String) (e : Element) : Scope :=
  let last := (e.element? "name").map (·.lastSegment)
  let written := last.toList.flatMap fun segment => segment.typeArguments.map (·.identifier)
  let typeParameters := if written.isEmpty then parameters else written
  let parents := (p.reading.parentNames e).map (c.site.typeUse c.current)
  { name := (last.map (·.identifier)).getD ""
    access := p.reading.access e c.region
    kind := .type {
      kind := (TypeKind.ofTag? e.tag).getD .classType
      parentColumns := parents.foldl (fun columns use => columns.add use) {}
      isGeneric := !typeParameters.isEmpty
      typeParameters } }

def type (p : Profile) (e : Element) (inside : Inside) : Survey ScopeId := do
  if !p.isType e.tag then throw (.notType e.tag)
  let parameters ← takeTypeParameters
  let s := typeScope p (← get) parameters e
  withScope (fun _ => s) e (p.isReference e.tag) (withRegion none (inside (p.bodyOf e.tag)))

def space (p : Profile) (e : Element) (inside : Inside) : Survey ScopeId := do
  if !p.isNamespace e.tag then throw (.notNamespace e.tag)
  let path := ((e.element? "name").map (·.segmentNames)).getD []
  openSpaces e (inside .spaceBody) (if path.isEmpty then [""] else path)

def methodScope (p : Profile) (c : Context) (e : Element) (id : ScopeId) : Scope :=
  let isConstructor := e.tag.startsWith "constructor"
  let isDestructor := e.tag.startsWith "destructor"
  let name := e.element? "name"
  let type := e.element? "type"
  { name := (name.map (·.lastSegment.identifier)).getD ""
    access := p.reading.access e c.region
    kind := .method {
      isConstructor
      isDestructor
      returnType :=
        if isConstructor || isDestructor then none
        else (type.bind (c.site.declaredType? id)).filter (!·.isVoid type)
      parameters := c.site.parameters id (p.isReference e.tag) e
      qualifiers := name.toList.flatMap fun name => name.qualifierSegments.map (c.site.qualifierUse id) } }

def method (p : Profile) (e : Element) (inside : Inside) : Survey ScopeId := do
  if !p.isMethod e.tag then throw (.notMethod e.tag)
  -- parameters of a function template are not kept
  let _ ← takeTypeParameters
  let c ← get
  withScope (methodScope p c e) e (p.isReference e.tag) (inside (p.bodyOf e.tag))

def block (p : Profile) (e : Element) (inside : Inside) : Survey ScopeId := do
  if !p.isContainer e.tag then throw (.notContainer e.tag)
  withScope (fun _ => { kind := .block }) e false (inside (p.bodyOf e.tag))

def region (e : Element) (inside : Inside) : Survey Unit :=
  if e.tag = "template" then withTypeParameters e.templateParameters (inside .template)
  else withRegion (some e.tag) (inside .statements)

def declarator (e : Element) (previous : Option TypeUse) (inside : Inside) : Survey (Option TypeUse) := do
  let c ← get
  let type := c.site.declaratorType? c.current previous e
  set (c.modifyCurrent fun s => (c.site.declaredVariables c.current type e).foldl Scope.addVariable s)
  inside .initializers
  return type

def call (p : Profile) (before : List Element) (e : Element) (inside : Inside) : Survey Unit := do
  let c ← get
  match c.site.call? p c.current before e with
  | none => inside .statements
  | some found =>
    set (c.modifyCurrent (·.addCall found))
    inside .call

def visit (p : Profile) (before : List Element) (e : Element) (inside : Inside) : Survey Unit :=
  match p.role e.tag with
  | .transparent => region e inside
  | .type => discard (type p e inside)
  | .space => discard (space p e inside)
  | .method => discard (method p e inside)
  | .container => discard (block p e inside)
  | .declaration => inside (.declarators none)
  | .latecomer | .comment => pure ()
  | .call => call p before e inside
  | .declarator => discard (declarator e none inside)
  | .plain => inside .statements

def treat (p : Profile) (before : List Element) (e : Element) (inside : Inside) : Treatment → Survey (Option TypeUse)
  | .skip => return none
  | .visit => do
    visit p before e inside
    return none
  | .enter place => do
    inside place
    return none
  | .enterSpace => do
    withImports (← readImports p false e.elements) (inside (.leading false))
    return none
  | .declare previous => declarator e previous inside

def walk (p : Profile) : Content → Place → (before : List Element) → Survey Unit
  | .nil, _, _ => pure ()
  | .text _ rest, place, before => walk p rest place before
  | .element tag attributes position line inner rest, place, before => do
    let e : Element := ⟨tag, attributes, position, line, inner⟩
    let type ← treat p before e (fun place => walk p inner place []) (place.treatment p tag)
    walk p rest (place.next p tag type) (e :: before)

def insideOf (p : Profile) (e : Element) : Inside := fun place => walk p e.content place []

def unitBody (p : Profile) (e : Element) : Survey Unit := do
  let imports ← readImports p true e.elements
  withImports imports do
    let statements := insideOf p e (.leading true)
    match p.leadingPackage? e.elements with
    | some package =>
      let path := ((package.element? "name").map (·.segmentNames)).getD []
      let _ ← openSpaces package statements path
    | none => statements

def unitStart (p : Profile) (e : Element) : Context :=
  let c := Context.start e.fileName p.language
  c.modifyCurrent fun s => { s.addLocation (c.site.locate e false) with language := some p.language }

end Survey

def surveyUnit (p : Profile) (e : Element) : Except Error Graph :=
  if e.tag ≠ "unit" then .error (.notUnit e.tag)
  else
    match (Survey.unitBody p e).run (Survey.unitStart p e) with
    | (.ok (), c) => .ok c.graph
    | (.error error, _) => .error error

end ScopeAtlas
