import ScopeAtlas.Graph.Navigate
import ScopeAtlas.Text.Json

namespace ScopeAtlas

structure Snapshot where
  signature : String
  fullName : String
  access : String
  locations : List String
  parentTypes : List String
  declarations : List String
  calls : List String
  children : List Snapshot
deriving BEq, Repr, Inhabited

namespace Snapshot

mutual

def compare : Snapshot → Snapshot → Ordering
  | ⟨signature, fullName, access, locations, parentTypes, declarations, calls, children⟩,
    ⟨signature', fullName', access', locations', parentTypes', declarations', calls', children'⟩ =>
    (Ord.compare signature signature').then <| (Ord.compare fullName fullName').then <|
      (Ord.compare access access').then <| (List.compareLex Ord.compare locations locations').then <|
      (List.compareLex Ord.compare parentTypes parentTypes').then <|
      (List.compareLex Ord.compare declarations declarations').then <|
      (List.compareLex Ord.compare calls calls').then (compareAll children children')

def compareAll : List Snapshot → List Snapshot → Ordering
  | [], [] => .eq
  | [], _ :: _ => .lt
  | _ :: _, [] => .gt
  | s :: rest, s' :: rest' => (compare s s').then (compareAll rest rest')

end

mutual

def scopeCount : Snapshot → Nat
  | ⟨_, _, _, _, _, _, _, children⟩ => 1 + scopeCountAll children

def scopeCountAll : List Snapshot → Nat
  | [] => 0
  | s :: rest => scopeCount s + scopeCountAll rest

end

def sortTexts (texts : List String) : List String := texts.mergeSort fun a b => (Ord.compare a b).isLE

def sort (snapshots : List Snapshot) : List Snapshot := snapshots.mergeSort fun a b => (compare a b).isLE

def renderVariable (v : Variable) : String :=
  (match v.declaredType with
    | some type => type.render ++ " "
    | none => "") ++
    v.name ++ " [" ++ ", ".intercalate (sortTexts (v.locations.map Location.render)) ++ "]"

def renderCall (call : Call) : String := call.render ++ " @ " ++ call.location.render

-- Every list that the order of work could permute is sorted.
def ofScope (s : Scope) (fullName : String) (children : List Snapshot) : Snapshot where
  signature := s.signature
  fullName := fullName
  access := s.access.text
  locations := sortTexts (s.locations.map Location.render)
  parentTypes := sortTexts ((s.type?.map (·.parentColumns.uses)).getD [] |>.map (·.render))
  declarations := sortTexts (s.declared.toList.map renderVariable)
  calls := sortTexts (s.calls.map renderCall)
  children := sort children

def ofWithin (g : Graph) : (depth : Nat) → ScopeId → Except Fault Snapshot
  | 0, _ => .error .unbounded
  | depth + 1, id => do
    let s ← g.scope id
    return ofScope s (g.fullName id) (← s.children.mapM (ofWithin g depth))

def of (g : Graph) (id : ScopeId) : Except Fault Snapshot := do
  let _ ← g.scope id
  ofWithin g g.size id

def optionalField (indent name : String) (items : List String) : List (String × String) :=
  if items.isEmpty then [] else [(name, Text.Json.list indent items)]

mutual

def renderAt (indent : String) : Snapshot → String
  | ⟨signature, fullName, access, locations, parentTypes, declarations, calls, children⟩ =>
    let inner := indent ++ "  "
    Text.Json.record indent (
      [ ("signature", Text.Json.string signature),
        ("full_name", Text.Json.string fullName),
        ("accessibility", Text.Json.string access),
        ("locations", Text.Json.list inner (locations.map Text.Json.string)) ] ++
      optionalField inner "parent_types" (parentTypes.map Text.Json.string) ++
      optionalField inner "declarations" (declarations.map Text.Json.string) ++
      optionalField inner "calls" (calls.map Text.Json.string) ++
      optionalField inner "children" (renderAllAt (inner ++ "  ") children))

def renderAllAt (indent : String) : List Snapshot → List String
  | [] => []
  | s :: rest => renderAt indent s :: renderAllAt indent rest

end

def render (s : Snapshot) : String := s.renderAt ""

end Snapshot

def Graph.snapshot (g : Graph) : Except Fault Snapshot := Snapshot.of g g.root

end ScopeAtlas
