import ScopeAtlas.Language.Builtin

namespace ScopeAtlas

structure Registry where
  profiles : List Profile := []

namespace Registry

def register (r : Registry) (p : Profile) : Registry where
  profiles := r.profiles.filter (·.language != p.language) ++ [p]

def builtin : Registry := Language.all.foldl (fun r language => r.register (Profile.builtin language)) {}

def get? (r : Registry) (language : Language) : Option Profile :=
  r.profiles.find? (·.language == language)

def update (r : Registry) (language : Language) (change : Profile → Profile) : Registry where
  profiles := r.profiles.map fun p => if p.language = language then change p else p

def languages (r : Registry) : List Language := r.profiles.map (·.language)

def forPath? (r : Registry) (path : String) : Option Profile := (Language.ofPath? path).bind r.get?

-- The language that a unit states decides; without one, the ending of its file name does.
def forUnit (r : Registry) (e : Element) : Except Error Profile :=
  match e.attribute? "language" with
  | some name => do
    let language ← Language.parse name
    match r.get? language with
    | some p => .ok p
    | none => .error (.unknownLanguage name)
  | none =>
    match r.forPath? e.fileName with
    | some p => .ok p
    | none => .error (.noLanguageForUnit e.fileName)

end Registry

end ScopeAtlas
