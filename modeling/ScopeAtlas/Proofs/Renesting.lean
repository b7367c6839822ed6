import Mathlib.Data.List.Forall2
import ScopeAtlas.Proofs.Relocation
import ScopeAtlas.Proofs.TypeNames

namespace ScopeAtlas

def Content.move (f : String → String) : Content → Content
  | .nil => .nil
  | .text run rest => .text run (rest.move f)
  | .element tag attributes position line inner rest =>
    .element tag attributes (f position) line (inner.move f) (rest.move f)

def Element.move (f : String → String) (e : Element) : Element :=
  { e with position := f e.position, content := e.content.move f }

def readTags : List String := ["name", "operator", "literal", "specifier", "using"]

-- Namespaces of single names one in the other, each the next one's only content or that of its body block; the
-- innermost holds `body`.
inductive Element.Nests (body : Element) : List String → Element → Prop
  | innermost {e name : Element} {segment : String} (isSpace : e.tag = "namespace") (holds : e.elements = [name, body])
      (isName : name.tag = "name") (named : name.segmentNames = [segment]) : Element.Nests body [segment] e
  | outer {e name inner : Element} {segment : String} {names : List String} (isSpace : e.tag = "namespace")
      (holds : e.elements = [name, inner] ∨
        ∃ block : Element, block.tag = "block" ∧ block.elements = [inner] ∧ e.elements = [name, block])
      (isName : name.tag = "name") (named : name.segmentNames = [segment]) (inside : Element.Nests body names inner) :
    Element.Nests body (segment :: names) e

-- The contents of two trees. Corresponding elements stand at positions that `f` gives, only nested namespaces stand
-- anywhere.
inductive Content.Renested (f : String → String) : Content → Content → Prop
  | nil : Content.Renested f .nil .nil
  | text (run : String) {rest rest' : Content} (after : Content.Renested f rest rest') :
    Content.Renested f (.text run rest) (.text run rest')
  | kept (tag : String) (attributes : Attributes) (position : String) (line : Nat) {inner inner' rest rest' : Content}
      (inside : Content.Renested f inner inner') (read : tag ∈ readTags → inner' = inner.move f)
      (after : Content.Renested f rest rest') :
    Content.Renested f (.element tag attributes position line inner rest)
      (.element tag attributes (f position) line inner' rest')
  | space {attributes attributes' bodyAttributes : Attributes} {position position' bodyPosition : String}
      {line line' bodyLine : Nat} {name : Element} {inner inner' body body' rest rest' : Content}
      (holds : inner.elements = [name, ⟨"block", bodyAttributes, bodyPosition, bodyLine, body⟩]) (isName : name.tag = "name")
      (nests : Element.Nests ⟨"block", bodyAttributes, f bodyPosition, bodyLine, body'⟩ name.segmentNames
        ⟨"namespace", attributes', position', line', inner'⟩)
      (inside : Content.Renested f body body') (after : Content.Renested f rest rest') :
    Content.Renested f (.element "namespace" attributes position line inner rest)
      (.element "namespace" attributes' position' line' inner' rest')

structure Element.Kept (f : String → String) (e e' : Element) : Prop where
  tag : e'.tag = e.tag
  attributes : e'.attributes = e.attributes
  position : e'.position = f e.position
  line : e'.line = e.line
  content : e.content.Renested f e'.content
  read : e.tag ∈ readTags → e'.content = e.content.move f

-- Two elements that correspond, or a namespace and those nested in its place.
def Element.Like (f : String → String) (e e' : Element) : Prop :=
  e.Kept f e' ∨ e.tag = "namespace" ∧ e'.tag = "namespace"

section Moved

variable (f : String → String)

namespace Content

theorem elements_move (c : Content) : (c.move f).elements = c.elements.map (·.move f) := by
  induction c with
  | nil => rfl
  | text run rest ih => exact ih
  | element tag attributes position line inner rest _ ih => simp [move, elements, ih, Element.move]

@[simp] theorem value_move (c : Content) : (c.move f).value = c.value := by
  induction c with
  | nil => rfl
  | text run rest ih => simp [move, value, ih]
  | element tag attributes position line inner rest within after => simp [move, value, within, after]

@[simp] theorem directText_move (c : Content) : (c.move f).directText = c.directText := by
  induction c with
  | nil => rfl
  | text run rest ih => simp [move, directText, ih]
  | element tag attributes position line inner rest _ ih => simp [move, directText, ih]

@[simp] theorem isQualified_move (c : Content) : (c.move f).isQualified = c.isQualified := by
  have names : ((c.move f).elements.filter (·.tag == "name")).length = (c.elements.filter (·.tag == "name")).length := by
    rw [elements_move, List.filter_map, List.length_map]
    rfl
  unfold isQualified
  rw [names, elements_move, List.any_map]
  rfl

theorem nameSegments_move (c : Content) : (c.move f).nameSegments = c.nameSegments.map (·.move f) := by
  induction c with
  | nil => rfl
  | text run rest ih => simp [move, nameSegments, ih]
  | element tag attributes position line inner rest within after =>
    simp only [move, nameSegments, isQualified_move, within, after]
    split
    · split <;> simp [Element.move]
    · rfl

@[simp] theorem identifier?_move (c : Content) : (c.move f).identifier? = c.identifier? := by
  induction c with
  | nil => rfl
  | text run rest ih => simp [move, identifier?, ih]
  | element tag attributes position line inner rest within after =>
    simp only [move, identifier?, within, after, value_move]

end Content

namespace Element

variable (e : Element)

theorem element?_eq_head? (tag : String) : e.element? tag = (e.elementsNamed tag).head? := by
  unfold element? elementsNamed
  rw [List.head?_filter]

@[simp] theorem tag_move : (e.move f).tag = e.tag := rfl

@[simp] theorem attribute?_move (name : String) : (e.move f).attribute? name = e.attribute? name := rfl

@[simp] theorem value_move : (e.move f).value = e.value := Content.value_move f e.content

@[simp] theorem elements_move : (e.move f).elements = e.elements.map (·.move f) := Content.elements_move f e.content

@[simp] theorem elementsNamed_move (tag : String) : (e.move f).elementsNamed tag = (e.elementsNamed tag).map (·.move f) := by
  unfold elementsNamed
  rw [elements_move, List.filter_map]
  rfl

@[simp] theorem element?_move (tag : String) : (e.move f).element? tag = (e.element? tag).map (·.move f) := by
  rw [element?_eq_head?, element?_eq_head?, elementsNamed_move, List.head?_map]

@[simp] theorem identifier_move : (e.move f).identifier = e.identifier := by
  unfold identifier
  rw [value_move]
  exact congrArg (fun found => Option.getD found _) (Content.identifier?_move f e.content)

theorem segments_move : (e.move f).segments = e.segments.map (·.move f) := by
  have qualified : (e.move f).content.isQualified = e.content.isQualified := Content.isQualified_move f e.content
  have segments : (e.move f).content.nameSegments = e.content.nameSegments.map (·.move f) :=
    Content.nameSegments_move f e.content
  unfold Element.segments
  rw [qualified, segments]
  split <;> rfl

@[simp] theorem segmentNames_move : (e.move f).segmentNames = e.segmentNames := by
  simp [segmentNames, segments_move]

@[simp] theorem lastSegment_move : (e.move f).lastSegment = e.lastSegment.move f := by
  unfold lastSegment
  rw [segments_move, List.getLast?_map]
  cases e.segments.getLast? <;> rfl

@[simp] theorem qualifierSegments_move : (e.move f).qualifierSegments = e.qualifierSegments.map (·.move f) := by
  unfold qualifierSegments
  rw [segments_move, List.map_dropLast]

theorem argumentName?_move : (e.move f).argumentName? = e.argumentName?.map (·.move f) := by
  unfold argumentName?
  cases direct : e.element? "name" with
  | some name => simp [direct]
  | none => cases wrapped : e.element? "expr" <;> simp [direct, wrapped]

@[simp] theorem typeArguments_move : (e.move f).typeArguments = e.typeArguments.map (·.move f) := by
  unfold typeArguments
  rw [element?_move]
  cases e.element? "argument_list" with
  | none => rfl
  | some list =>
    simp only [Option.map_some, elementsNamed_move, List.filterMap_map, List.map_filterMap]
    congr 1
    funext argument
    exact argumentName?_move f argument

end Element

end Moved

section Correspondence

variable {f : String → String} {e e' : Element} {c c' : Content}

theorem Content.Renested.moved (f : String → String) (c : Content) : c.Renested f (c.move f) := by
  induction c with
  | nil => exact .nil
  | text run rest ih => exact .text run ih
  | element tag attributes position line inner rest within after =>
    exact .kept tag attributes position line within (fun _ => rfl) after

theorem Content.Renested.elements (renested : c.Renested f c') : List.Forall₂ (Element.Like f) c.elements c'.elements := by
  induction renested with
  | nil => exact .nil
  | text run _ ih => exact ih
  | kept tag attributes position line inside read _ _ ih => exact .cons (.inl ⟨rfl, rfl, rfl, rfl, inside, read⟩) ih
  | space _ _ _ _ _ _ ih => exact .cons (.inr ⟨rfl, rfl⟩) ih

namespace Element

theorem Like.tag (like : e.Like f e') : e'.tag = e.tag := by
  rcases like with kept | ⟨isSpace, isSpace'⟩
  · exact kept.tag
  · rw [isSpace, isSpace']

theorem Like.kept (like : e.Like f e') (other : e.tag ≠ "namespace") : e.Kept f e' := by
  rcases like with kept | ⟨isSpace, -⟩
  · exact kept
  · exact absurd isSpace other

theorem Kept.eq_move (kept : e.Kept f e') (isRead : e.tag ∈ readTags) : e' = e.move f := by
  have read := kept.read isRead
  rcases kept with ⟨tag, attributes, position, line, -, -⟩
  rcases e' with ⟨_, _, _, _, _⟩
  cases tag
  cases attributes
  cases position
  cases line
  cases read
  rfl

theorem Like.eq_move (like : e.Like f e') (isRead : e.tag ∈ readTags) : e' = e.move f := by
  refine (like.kept ?_).eq_move isRead
  intro isSpace
  rw [isSpace] at isRead
  exact absurd isRead (by decide)

theorem Like.isOperator (like : e.Like f e') (word : String) : e'.isOperator word = e.isOperator word := by
  by_cases isOperator : e.tag = "operator"
  · rw [like.eq_move (by simp [isOperator, readTags])]
    simp [Element.isOperator]
  · have other : (e.tag == "operator") = false := by simpa using isOperator
    simp only [Element.isOperator, like.tag, other, Bool.false_and]

theorem Like.isMemberOperator (like : e.Like f e') : e'.isMemberOperator = e.isMemberOperator := by
  have split : ∀ x : Element, x.isMemberOperator = (x.isOperator "." || x.isOperator "->") := by
    intro x
    simp only [Element.isMemberOperator, Element.isOperator, Bool.and_or_distrib_left]
  rw [split, split, like.isOperator, like.isOperator]

namespace Kept

variable (kept : e.Kept f e')

include kept

theorem elementsNamed (tag : String) (other : tag ≠ "namespace") :
    List.Forall₂ (fun a a' => a.Kept f a' ∧ a.tag = tag) (e.elementsNamed tag) (e'.elementsNamed tag) := by
  have children := kept.content.elements
  unfold Element.elementsNamed Element.elements
  generalize e.content.elements = es at children
  generalize e'.content.elements = es' at children
  induction children with
  | nil => exact .nil
  | @cons a a' es es' like _ ih =>
    rw [List.filter_cons, List.filter_cons, like.tag]
    by_cases same : a.tag = tag
    · rw [if_pos (by simp [same]), if_pos (by simp [same])]
      exact .cons ⟨like.kept (same ▸ other), same⟩ ih
    · rw [if_neg (by simp [same]), if_neg (by simp [same])]
      exact ih

theorem element? (tag : String) (other : tag ≠ "namespace") :
    (e.element? tag = none ∧ e'.element? tag = none) ∨
      ∃ a a', e.element? tag = some a ∧ e'.element? tag = some a' ∧ a.Kept f a' := by
  have related := kept.elementsNamed tag other
  rw [element?_eq_head?, element?_eq_head?]
  generalize e.elementsNamed tag = es at related
  generalize e'.elementsNamed tag = es' at related
  cases related with
  | nil => exact .inl ⟨rfl, rfl⟩
  | cons first _ => exact .inr ⟨_, _, rfl, rfl, first.1⟩

theorem elementsNamed_read (tag : String) (isRead : tag ∈ readTags) :
    e'.elementsNamed tag = (e.elementsNamed tag).map (·.move f) := by
  have other : tag ≠ "namespace" := by
    rintro rfl
    exact absurd isRead (by decide)
  have related := kept.elementsNamed tag other
  generalize e.elementsNamed tag = es at related
  generalize e'.elementsNamed tag = es' at related
  induction related with
  | nil => rfl
  | cons first _ ih => rw [List.map_cons, ih, first.1.eq_move (first.2 ▸ isRead)]

theorem element?_read (tag : String) (isRead : tag ∈ readTags) :
    e'.element? tag = (e.element? tag).map (·.move f) := by
  rw [element?_eq_head?, element?_eq_head?, kept.elementsNamed_read tag isRead, List.head?_map]

theorem attribute? (name : String) : e'.attribute? name = e.attribute? name := by
  unfold Element.attribute?
  rw [kept.attributes]

end Kept

end Element

end Correspondence

end ScopeAtlas
