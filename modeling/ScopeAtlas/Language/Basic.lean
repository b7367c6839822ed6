import ScopeAtlas.Error
import ScopeAtlas.Text.Fold

namespace ScopeAtlas

inductive Language
  | c
  | cPlusPlus
  | java
  | cSharp
deriving DecidableEq, Repr, Inhabited

namespace Language

def all : List Language := [.c, .cPlusPlus, .java, .cSharp]

def name : Language → String
  | c => "C"
  | cPlusPlus => "C++"
  | java => "Java"
  | cSharp => "C#"

def extensions : Language → List String
  | c => ["c", "h"]
  | cPlusPlus => ["cpp", "cc", "cxx", "c++", "hpp", "hh", "hxx"]
  | java => ["java"]
  | cSharp => ["cs"]

def parse (text : String) : Except Error Language :=
  match Text.foldCase text with
  | "c" => .ok .c
  | "c++" | "cpp" | "cplusplus" | "cxx" => .ok .cPlusPlus
  | "java" => .ok .java
  | "c#" | "csharp" | "cs" => .ok .cSharp
  | _ => .error (.unknownLanguage text)

end Language

def pathParts : List Char → List (List Char)
  | [] => [[]]
  | c :: rest =>
    match pathParts rest with
    | [] => [[c]]
    | part :: later => if c = '/' then [] :: part :: later else (c :: part) :: later

-- The file that a path names: its last part, where empty parts and `.` do not count and `..` names none.
def pathFile? (path : List Char) : Option (List Char) :=
  match ((pathParts path).filter fun part => part ≠ [] && part ≠ ['.']).getLast? with
  | some ['.', '.'] => none
  | file => file

def fileExtension? (file : List Char) : Option (List Char) :=
  match file.reverse.dropWhile (· ≠ '.') with
  | [] | [_] => none
  | _ => some (file.reverse.takeWhile (· ≠ '.')).reverse

def Language.ofPath? (path : String) : Option Language :=
  ((pathFile? path.toList).bind fileExtension?).bind fun letters =>
    let ending := Text.foldCase (String.ofList letters)
    Language.all.find? (·.extensions.contains ending)

end ScopeAtlas
