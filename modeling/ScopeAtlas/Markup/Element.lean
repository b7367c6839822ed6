namespace ScopeAtlas

-- Attributes by name, in written order, each name once.
abbrev Attributes := List (String × String)

def Attributes.set (name value : String) : Attributes → Attributes
  | [] => [(name, value)]
  | (key, old) :: rest =>
    if key = name then (key, value) :: rest else (key, old) :: Attributes.set name value rest

inductive Content
  | nil
  | text (run : String) (rest : Content)
  | element (tag : String) (attributes : Attributes) (position : String) (line : Nat) (inner rest : Content)
deriving DecidableEq, Repr, Inhabited

structure Element where
  tag : String
  attributes : Attributes := []
  -- Where the element stands in its tree, such as `/unit/class[1]`; empty until positions are given out.
  position : String := ""
  line : Nat := 1
  content : Content := .nil
deriving DecidableEq, Repr, Inhabited

inductive Piece
  | text (run : String)
  | element (child : Element)
deriving DecidableEq, Repr, Inhabited

namespace Content

def ofPieces : List Piece → Content
  | [] => .nil
  | .text run :: rest => .text run (ofPieces rest)
  | .element e :: rest => .element e.tag e.attributes e.position e.line e.content (ofPieces rest)

def pieces : Content → List Piece
  | .nil => []
  | .text run rest => .text run :: rest.pieces
  | .element tag attributes position line inner rest =>
    .element ⟨tag, attributes, position, line, inner⟩ :: rest.pieces

def elements : Content → List Element
  | .nil => []
  | .text _ rest => rest.elements
  | .element tag attributes position line inner rest =>
    ⟨tag, attributes, position, line, inner⟩ :: rest.elements

def descendants : Content → List Element
  | .nil => []
  | .text _ rest => rest.descendants
  | .element tag attributes position line inner rest =>
    ⟨tag, attributes, position, line, inner⟩ :: (inner.descendants ++ rest.descendants)

def value : Content → String
  | .nil => ""
  | .text run rest => run ++ rest.value
  | .element _ _ _ _ inner rest => inner.value ++ rest.value

def directText : Content → String
  | .nil => ""
  | .text run rest => run ++ rest.directText
  | .element _ _ _ _ _ rest => rest.directText

def size : Content → Nat
  | .nil => 0
  | .text _ rest => rest.size + 1
  | .element _ _ _ _ inner rest => inner.size + rest.size + 1

end Content

def joinRuns : List Piece → List Piece
  | .text first :: rest =>
    match joinRuns rest with
    | .text second :: later => .text (first ++ second) :: later
    | joined => .text first :: joined
  | piece :: rest => piece :: joinRuns rest
  | [] => []

namespace Element

def build (tag : String) (attributes : List (String × String)) (pieces : List Piece) : Element where
  tag := tag
  attributes := attributes.foldl (fun set (name, value) => Attributes.set name value set) []
  content := Content.ofPieces (joinRuns pieces)

def elements (e : Element) : List Element := e.content.elements

def descendants (e : Element) : List Element := e.content.descendants

def value (e : Element) : String := e.content.value

def directText (e : Element) : String := e.content.directText

def size (e : Element) : Nat := e.content.size

def attribute? (e : Element) (name : String) : Option String := e.attributes.lookup name

def elementsNamed (e : Element) (tag : String) : List Element := e.elements.filter (·.tag == tag)

def element? (e : Element) (tag : String) : Option Element := e.elements.find? (·.tag == tag)

-- The child elements before the one at `index`; all of them when there is none.
def elementsBefore (e : Element) (index : Nat) : List Element := e.elements.take index

def fileName (e : Element) : String := (e.attribute? "filename").getD ""

end Element

theorem Content.size_lt_of_mem_elements {c : Content} {e : Element} (member : e ∈ c.elements) : e.size < c.size := by
  induction c with
  | nil => cases member
  | text run rest ih => exact Nat.lt_succ_of_lt (ih member)
  | element tag attributes position line inner rest _ ih =>
    rcases List.mem_cons.mp member with rfl | later
    · simp only [Element.size, size]; omega
    · have := ih later
      simp only [size]; omega

theorem Element.size_lt_of_mem_elementsNamed {e child : Element} {tag : String} (member : child ∈ e.elementsNamed tag) :
    child.size < e.size :=
  Content.size_lt_of_mem_elements (List.mem_filter.mp member).1

theorem Element.size_lt_of_element? {e child : Element} {tag : String} (found : e.element? tag = some child) :
    child.size < e.size :=
  Content.size_lt_of_mem_elements (List.mem_of_find?_eq_some found)

end ScopeAtlas
