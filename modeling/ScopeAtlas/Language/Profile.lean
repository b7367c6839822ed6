import ScopeAtlas.Language.Basic
import ScopeAtlas.Language.Literal
import ScopeAtlas.Markup.Element
import ScopeAtlas.Scope.Kind

namespace ScopeAtlas

structure Reading where
  booleanType : String → String
  characterType : String → String
  numberType : String → String
  stringType : String → String
  -- The access of a type or method, given the tag of the access region it stands in.
  access : Element → Option String → Access
  importsNamespace : Element → Bool
  parentNames : Element → List Element

structure Profile where
  language : Language
  containers : List String
  types : List String
  methods : List String
  namespaces : List String
  declarations : List String
  -- Tags that declare without defining.
  references : List String
  -- Tags that are walked through as if they were not there.
  transparent : List String
  importTag : String
  packageTag : Option String
  reading : Reading

namespace Profile

def isType (p : Profile) (tag : String) : Bool := p.types.contains tag

def isMethod (p : Profile) (tag : String) : Bool := p.methods.contains tag

def isNamespace (p : Profile) (tag : String) : Bool := p.namespaces.contains tag

def isContainer (p : Profile) (tag : String) : Bool :=
  p.containers.contains tag || p.isType tag || p.isMethod tag || p.isNamespace tag

def isDeclaration (p : Profile) (tag : String) : Bool := p.declarations.contains tag

def isReference (p : Profile) (tag : String) : Bool := p.references.contains tag

def isTransparent (p : Profile) (tag : String) : Bool := p.transparent.contains tag

def isImport (p : Profile) (tag : String) : Bool := p.importTag == tag

def isPackage (p : Profile) (tag : String) : Bool := p.packageTag == some tag

def literalType? (p : Profile) (kind : LiteralKind) (value : String) : Option String :=
  let value := Text.trim value
  match kind with
  | .boolean => some (p.reading.booleanType value)
  | .character => some (p.reading.characterType value)
  | .number => some (p.reading.numberType value)
  | .string => some (p.reading.stringType value)
  | .null => none

end Profile

-- The first access keyword among the specifiers of an element's `type`, then among its own.
def Element.specifiedAccess (e : Element) : Access :=
  let specifiers := ((e.element? "type").getD e).elementsNamed "specifier" ++ e.elementsNamed "specifier"
  (specifiers.findSome? fun specifier => Access.ofKeyword? (Text.trim specifier.value)).getD .unstated

end ScopeAtlas
