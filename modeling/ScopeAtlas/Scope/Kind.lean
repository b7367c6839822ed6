import ScopeAtlas.Error
import ScopeAtlas.Text.Fold

namespace ScopeAtlas

abbrev ScopeId := Nat

inductive Access
  | unstated
  | everyone
  | owner
  | heirs
  | assembly
deriving DecidableEq, Repr, Inhabited

namespace Access

def text : Access → String
  | unstated => "none"
  | everyone => "public"
  | owner => "private"
  | heirs => "protected"
  | assembly => "internal"

def ofKeyword? : String → Option Access
  | "public" => some everyone
  | "private" => some owner
  | "protected" => some heirs
  | "internal" => some assembly
  | _ => none

def parse (text : String) : Except Error Access :=
  match Text.foldCase text with
  | "" | "none" => .ok unstated
  | word =>
    match ofKeyword? word with
    | some access => .ok access
    | none => .error (.unknownAccess text)

end Access

inductive TypeKind
  | classType
  | structType
  | unionType
  | interfaceType
  | enumType
deriving DecidableEq, Repr, Inhabited

namespace TypeKind

def text : TypeKind → String
  | classType => "class"
  | structType => "struct"
  | unionType => "union"
  | interfaceType => "interface"
  | enumType => "enum"

def ofTag? : String → Option TypeKind
  | "class" | "class_decl" => some classType
  | "struct" | "struct_decl" => some structType
  | "union" | "union_decl" => some unionType
  | "interface" | "interface_decl" => some interfaceType
  | "enum" | "enum_decl" => some enumType
  | _ => none

def parse (text : String) : Except Error TypeKind :=
  match ofTag? (Text.foldCase text) with
  | some kind => .ok kind
  | none => .error (.unknownTypeKind text)

def title : TypeKind → String
  | classType => "Class"
  | structType => "Struct"
  | unionType => "Union"
  | interfaceType => "Interface"
  | enumType => "Enum"

end TypeKind

inductive Category
  | block
  | space
  | type
  | method
deriving DecidableEq, Repr, Inhabited

namespace Category

def text : Category → String
  | block => "block"
  | space => "namespace"
  | type => "type"
  | method => "method"

def parse (text : String) : Except Error Category :=
  match Text.foldCase text with
  | "block" | "scope" => .ok block
  | "namespace" | "ns" | "package" => .ok space
  | "type" | "class" | "struct" => .ok type
  | "method" | "function" => .ok method
  | _ => .error (.unknownCategory text)

end Category

end ScopeAtlas
