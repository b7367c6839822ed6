import ScopeAtlas.Markup.Element
import ScopeAtlas.Text.Blank

namespace ScopeAtlas

-- A name is qualified when operators or several names stand in it.
def Content.isQualified (c : Content) : Bool :=
  c.elements.any (·.tag == "operator") || 1 < (c.elements.filter (·.tag == "name")).length

def Content.nameSegments : Content → List Element
  | .nil => []
  | .text _ rest => rest.nameSegments
  | .element tag attributes position line inner rest =>
    if tag = "name" then
      (if inner.isQualified then inner.nameSegments else [⟨tag, attributes, position, line, inner⟩]) ++ rest.nameSegments
    else rest.nameSegments

def Content.identifier? : Content → Option String
  | .nil => none
  | .text _ rest => rest.identifier?
  | .element tag _ _ _ inner rest =>
    if tag = "name" then some (inner.identifier?.getD (Text.trim inner.value)) else rest.identifier?

namespace Element

-- The segments of a name, outermost first; a plain or generic name is its own single segment.
def segments (name : Element) : List Element :=
  if name.content.isQualified then name.content.nameSegments else [name]

def identifier (segment : Element) : String :=
  segment.content.identifier?.getD (Text.trim segment.value)

def lastSegment (name : Element) : Element := name.segments.getLast?.getD name

def qualifierSegments (name : Element) : List Element := name.segments.dropLast

def segmentNames (name : Element) : List String := name.segments.map identifier

def argumentName? (argument : Element) : Option Element :=
  argument.element? "name" <|> (argument.element? "expr").bind (·.element? "name")

-- The names of the type arguments of a generic segment.
def typeArguments (segment : Element) : List Element :=
  match segment.element? "argument_list" with
  | none => []
  | some list => (list.elementsNamed "argument").filterMap argumentName?

end Element

theorem Content.size_lt_of_mem_nameSegments {c : Content} {e : Element} (member : e ∈ c.nameSegments) :
    e.size < c.size := by
  induction c with
  | nil => cases member
  | text run rest ih => exact Nat.lt_succ_of_lt (ih member)
  | element tag attributes position line inner rest within after =>
    simp only [nameSegments] at member
    simp only [size]
    split at member
    · rcases List.mem_append.mp member with here | later
      · split at here
        · have := within here; omega
        · rw [List.mem_singleton.mp here]; simp only [Element.size]; omega
      · have := after later; omega
    · have := after member; omega

namespace Element

theorem size_le_of_mem_segments {name segment : Element} (member : segment ∈ name.segments) :
    segment.size ≤ name.size := by
  unfold segments at member
  split at member
  · exact Nat.le_of_lt (Content.size_lt_of_mem_nameSegments member)
  · exact Nat.le_of_eq (congrArg size (List.mem_singleton.mp member))

theorem size_lastSegment_le (name : Element) : name.lastSegment.size ≤ name.size := by
  unfold lastSegment
  cases last : name.segments.getLast? with
  | none => exact Nat.le_refl _
  | some segment => exact size_le_of_mem_segments (List.mem_of_getLast? last)

theorem size_lt_of_argumentName? {argument name : Element} (found : argument.argumentName? = some name) :
    name.size < argument.size := by
  unfold argumentName? at found
  cases direct : argument.element? "name" with
  | some direct' =>
    rw [direct] at found
    cases found
    exact size_lt_of_element? direct
  | none =>
    rw [direct] at found
    obtain ⟨expression, wrapped, inside⟩ := Option.bind_eq_some_iff.mp found
    exact Nat.lt_trans (size_lt_of_element? inside) (size_lt_of_element? wrapped)

theorem size_lt_of_mem_typeArguments {segment name : Element} (member : name ∈ segment.typeArguments) :
    name.size < segment.size := by
  unfold typeArguments at member
  split at member
  · cases member
  · rename_i list found
    obtain ⟨argument, listed, named⟩ := List.mem_filterMap.mp member
    exact Nat.lt_trans (size_lt_of_argumentName? named)
      (Nat.lt_trans (size_lt_of_mem_elementsNamed listed) (size_lt_of_element? found))

end Element

end ScopeAtlas
