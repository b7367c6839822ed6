import ScopeAtlas.Language.Profile

namespace ScopeAtlas

def Element.superNames (e : Element) : List Element :=
  (e.elementsNamed "super").flatMap (·.elementsNamed "name")

def Element.clauseNames (e : Element) : List Element :=
  let clauses := (e.elementsNamed "super").flatMap (·.elements) ++ e.elements
  (clauses.filter fun clause => clause.tag == "extends" || clause.tag == "implements").flatMap (·.elementsNamed "name")

namespace Reading

-- The suffix letters `u` and `l` size an integer.
def cNumberType (text : String) : String :=
  let shape := NumberShape.ofText text
  if shape.isFloating then
    match shape.suffix with
    | "f" => "float"
    | "l" => "long double"
    | _ => "double"
  else
    let letters := shape.suffix.toList
    let base := match letters.count 'l' with
      | 0 => "int"
      | 1 => "long"
      | _ => "long long"
    if letters.contains 'u' then "unsigned " ++ base else base

def javaNumberType (text : String) : String :=
  let shape := NumberShape.ofText text
  match shape.isFloating, shape.suffix with
  | true, "f" => "float"
  | true, _ => "double"
  | false, "l" => "long"
  | false, _ => "int"

def cSharpNumberType (text : String) : String :=
  let shape := NumberShape.ofText text
  match shape.suffix with
  | "f" => "float"
  | "d" => "double"
  | "m" => "decimal"
  | "u" => "uint"
  | "l" => "long"
  | "ul" | "lu" => "ulong"
  | _ => if shape.isFloating then "double" else "int"

def regionAccess (e : Element) (region : Option String) : Access :=
  (region.bind fun tag => Access.ofKeyword? (Text.trim tag)).getD e.specifiedAccess

-- `using namespace x::y;` brings in a namespace, `using x::Foo;` a symbol.
def usesNamespaceWord (e : Element) : Bool :=
  (e.element? "namespace").isSome || (Text.words e.directText).contains "namespace"

-- `import java.util.*;` brings in a package.
def endsInStar (e : Element) : Bool :=
  let written := (Text.trimEnd (e.value.toList.dropWhile Text.isBlank)).reverse
  ((written.dropWhile (· == ';')).dropWhile Text.isBlank).head? == some '*'

def c : Reading where
  booleanType _ := "bool"
  characterType _ := "char"
  numberType := cNumberType
  stringType _ := "char*"
  access := regionAccess
  importsNamespace := usesNamespaceWord
  parentNames := Element.superNames

def java : Reading where
  booleanType _ := "boolean"
  characterType _ := "char"
  numberType := javaNumberType
  stringType _ := "String"
  access e _ := e.specifiedAccess
  importsNamespace := endsInStar
  parentNames := Element.clauseNames

-- `using System.Text;` brings in a namespace, `using Text = System.Text;` does not.
def cSharp : Reading where
  booleanType _ := "bool"
  characterType _ := "char"
  numberType := cSharpNumberType
  stringType _ := "string"
  access e _ := e.specifiedAccess
  importsNamespace e := !e.value.contains '='
  parentNames := Element.superNames

end Reading

namespace Profile

def cPlusPlus : Profile where
  language := .cPlusPlus
  containers := ["block", "catch", "do", "else", "extern", "for", "if", "switch", "then", "try", "while"]
  types := ["class", "class_decl", "struct", "struct_decl", "union", "union_decl", "enum"]
  methods := ["function", "function_decl", "constructor", "constructor_decl", "destructor", "destructor_decl"]
  namespaces := ["namespace"]
  declarations := ["decl_stmt"]
  references := ["function_decl", "constructor_decl", "destructor_decl", "class_decl", "struct_decl", "union_decl"]
  transparent := ["public", "private", "protected", "template"]
  importTag := "using"
  packageTag := none
  reading := .c

def c : Profile := { cPlusPlus with language := .c, namespaces := [], transparent := [] }

def java : Profile where
  language := .java
  containers := ["block", "catch", "do", "else", "finally", "for", "if", "switch", "synchronized", "then", "try", "while"]
  types := ["class", "interface", "enum"]
  methods := ["function", "function_decl", "constructor"]
  namespaces := []
  declarations := ["decl_stmt"]
  references := ["function_decl"]
  transparent := []
  importTag := "import"
  packageTag := some "package"
  reading := .java

def cSharp : Profile where
  language := .cSharp
  containers := ["block", "catch", "do", "else", "finally", "fixed", "for", "foreach", "if", "lock", "switch", "then",
    "try", "unsafe", "using_stmt", "while"]
  types := ["class", "struct", "interface", "enum"]
  methods := ["function", "function_decl", "constructor", "destructor"]
  namespaces := ["namespace"]
  declarations := ["decl_stmt"]
  references := ["function_decl"]
  transparent := []
  importTag := "using"
  packageTag := none
  reading := .cSharp

def builtin : Language → Profile
  | .c => c
  | .cPlusPlus => cPlusPlus
  | .java => java
  | .cSharp => cSharp

end Profile

end ScopeAtlas
