import ScopeAtlas.Language.Profile
import ScopeAtlas.Scope.Use

namespace ScopeAtlas

inductive Role
  | transparent
  | type
  | space
  | method
  | container
  | declaration
  | latecomer
  | call
  | declarator
  | comment
  | plain
deriving DecidableEq, Repr

-- The first role in this order that a tag has.
def Profile.role (p : Profile) (tag : String) : Role :=
  if p.isTransparent tag then .transparent
  else if p.isType tag then .type
  else if p.isNamespace tag then .space
  else if p.isMethod tag then .method
  else if p.isContainer tag then .container
  else if p.isDeclaration tag then .declaration
  else if p.isImport tag || p.isPackage tag then .latecomer
  else
    match tag with
    | "call" => .call
    | "decl" => .declarator
    | "comment" => .comment
    | _ => .plain

inductive Place
  | statements
  -- The start of a file or namespace body, where imports stand; a package statement may come before them.
  | leading (mayHavePackage : Bool)
  -- Inside a scope's element: `ofBlock` when that is a block itself, `named` when it is a type or method.
  | body (ofBlock named : Bool)
  | spaceBody
  | template
  -- Inside a declaration statement, with the type of the declarator before.
  | declarators (previous : Option TypeUse)
  | initializers
  | parameters
  | parameter
  | call
  | rest

inductive Treatment
  | skip
  | visit
  | enter (place : Place)
  | enterSpace
  | declare (previous : Option TypeUse)

inductive Leading
  | comment
  | package
  | importing
deriving DecidableEq, Repr

def Profile.leading? (p : Profile) (mayHavePackage : Bool) (tag : String) : Option Leading :=
  if tag = "comment" then some .comment
  else if mayHavePackage && p.isPackage tag then some .package
  else if p.isImport tag then some .importing
  else none

def Profile.bodyOf (p : Profile) (tag : String) : Place :=
  .body (tag == "block") (p.isType tag || p.isMethod tag)

namespace Place

def treatment (p : Profile) (tag : String) : Place → Treatment
  | statements => .visit
  | leading mayHavePackage => if (p.leading? mayHavePackage tag).isSome then .skip else .visit
  | body ofBlock named =>
    match tag with
    | "block" => if ofBlock then .visit else .enter .statements
    | "name" | "type" | "super" | "specifier" => .skip
    | "parameter_list" => if named then .skip else .enter .parameters
    | _ => .visit
  | spaceBody =>
    match tag with
    | "block" => .enterSpace
    | "name" => .skip
    | _ => .visit
  | template => if tag = "parameter_list" then .skip else .visit
  | declarators previous => if tag = "decl" then .declare previous else .skip
  | initializers => if tag = "type" ∨ tag = "name" then .skip else .visit
  | parameters => if tag = "param" then .enter .parameter else .skip
  | parameter => if tag = "decl" then .declare none else .skip
  | call => if tag = "argument_list" then .enter .statements else .skip
  | rest => .skip

def next (p : Profile) (tag : String) (type : Option TypeUse) : Place → Place
  | leading mayHavePackage =>
    match p.leading? mayHavePackage tag with
    | some .comment => leading mayHavePackage
    | some _ => leading false
    | none => statements
  | declarators previous => declarators (if tag = "decl" then type else previous)
  | call => if tag = "argument_list" then rest else call
  | place => place

end Place

def Profile.leadingImports (p : Profile) : (mayHavePackage : Bool) → List Element → List Element
  | _, [] => []
  | mayHavePackage, e :: rest =>
    match p.leading? mayHavePackage e.tag with
    | some .comment => p.leadingImports mayHavePackage rest
    | some .package => p.leadingImports false rest
    | some .importing => e :: p.leadingImports false rest
    | none => []

def Profile.leadingPackage? (p : Profile) : List Element → Option Element
  | [] => none
  | e :: rest =>
    match p.leading? true e.tag with
    | some .comment => p.leadingPackage? rest
    | some .package => some e
    | _ => none

end ScopeAtlas
