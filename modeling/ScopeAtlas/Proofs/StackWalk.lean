import ScopeAtlas.Proofs.Links

namespace ScopeAtlas

namespace Graph

-- The pre-order of the subtrees of some scopes side by side. Nothing bounds this recursion: on a cycle there is no list.
inductive Preorder (g : Graph) : List ScopeId → List ScopeId → Prop
  | nil : Preorder g [] []
  | cons {x : ScopeId} {ids below after : List ScopeId} (under : Preorder g (g.children x) below)
      (beside : Preorder g ids after) : Preorder g (x :: ids) (x :: (below ++ after))

-- A walk down under way: the scopes still to visit, the next one on top, and those visited so far.
structure Descent where
  pending : List ScopeId
  found : List ScopeId := []

namespace Descent

def push (ids stack : List ScopeId) : List ScopeId := ids.foldl (fun stack id => id :: stack) stack

-- Visits the scope on top. Its children go on the stack from the last to the first, so that the first is visited next.
def step? (g : Graph) (d : Descent) : Option Descent :=
  d.pending.head?.map fun x =>
    { pending := push (g.children x).reverse d.pending.tail, found := d.found ++ [x] }

def start (g : Graph) (id : ScopeId) : Descent := { pending := push (g.children id).reverse [] }

-- Takes steps until the stack is empty and answers with what was visited, if that takes no more than `turns` steps.
def run (g : Graph) : (turns : Nat) → Descent → Option (List ScopeId)
  | 0, d => if d.pending.isEmpty then some d.found else none
  | turns + 1, d => (d.step? g).elim (some d.found) (run g turns)

end Descent

variable {g : Graph} {f : Forest} {parent : Option ScopeId} {d : Descent} {ids front back later : List ScopeId}
  {x : ScopeId} {turns : Nat}

section Loop

theorem Preorder.append (first : g.Preorder ids front) (second : g.Preorder later back) :
    g.Preorder (ids ++ later) (front ++ back) := by
  induction first with
  | nil => exact second
  | cons under _ _ ih =>
    have both := Preorder.cons under ih
    simpa only [List.cons_append, List.append_assoc] using both

theorem Descent.push_reverse (ids stack : List ScopeId) : push ids.reverse stack = ids ++ stack := by
  simp [push]

-- A step takes the first scope off what is ahead; the rest of it stays ahead, in its order.
theorem Descent.step_ahead {ahead : List ScopeId} (order : g.Preorder d.pending ahead) :
    d.step? g = none ∧ ahead = [] ∨
      ∃ x rest next, ahead = x :: rest ∧ d.step? g = some next ∧ next.found = d.found ++ [x] ∧
        g.Preorder next.pending rest := by
  obtain ⟨pending, found⟩ := d
  cases order with
  | nil => exact Or.inl ⟨rfl, rfl⟩
  | @cons x ids below after under beside =>
    refine Or.inr ⟨x, below ++ after, _, rfl, rfl, rfl, ?_⟩
    have both := under.append beside
    rwa [← push_reverse] at both

-- The loop visits what is ahead, and needs one turn for each scope.
theorem Descent.run_ahead {ahead : List ScopeId} (order : g.Preorder d.pending ahead) (enough : ahead.length ≤ turns) :
    d.run g turns = some (d.found ++ ahead) := by
  induction turns generalizing d ahead with
  | zero =>
    have none : ahead = [] := List.eq_nil_of_length_eq_zero (Nat.le_zero.mp enough)
    subst none
    obtain ⟨pending, found⟩ := d
    cases order
    simp [run]
  | succ turns ih =>
    rcases step_ahead order with ⟨done, rfl⟩ | ⟨x, rest, next, rfl, stepped, found, order'⟩
    · simp [run, done]
    · have visited := ih order' (Nat.le_of_succ_le_succ enough)
      rw [found, List.append_assoc] at visited
      rw [run, stepped]
      exact visited

end Loop

section Forests

theorem Shows.preorder (shown : g.Shows parent f) : g.Preorder f.roots f.ids := by
  induction f generalizing parent with
  | nil => exact .nil
  | tree id s below rest inner outer =>
    obtain ⟨here, under, beside⟩ := shown
    have children : g.children id = below.roots := by
      rw [children, here]
      rfl
    refine .cons ?_ (outer beside)
    rw [children]
    exact inner under

theorem IsForest.preorder_descendants (forest : g.IsForest) (x : ScopeId) :
    g.Preorder (g.children x) (g.descendants x) := by
  cases found : g.get? x with
  | none =>
    have children : g.children x = [] := by simp [children, found]
    rw [children, descendants_of_gone found]
    exact .nil
  | some s =>
    obtain ⟨f, spans⟩ := forest.exists_spans found
    have children : g.children x = f.roots := by rw [children, found, spans.roots]
    rw [children, spans.descendants_eq found]
    exact spans.shows.preorder

theorem IsForest.length_descendants_le (forest : g.IsForest) (x : ScopeId) : (g.descendants x).length ≤ g.size := by
  apply length_le_size (forest.nodup_descendants x)
  intro y member
  obtain ⟨p, -, lists⟩ := Relation.TransGen.tail'_iff.mp (forest.mem_descendants_iff.mp member)
  obtain ⟨t, found, -⟩ := forest.child p y lists
  exact ⟨t, found⟩

theorem IsForest.chain_ancestors (forest : g.IsForest) (live : g.contains x = true) :
    g.Chain (g.parent? x) (g.ancestors x) := by
  obtain ⟨s, found⟩ := contains_iff.mp live
  obtain ⟨up, above, nodup⟩ := forest.exists_chain found
  have inner : g.parent? x = s.parent := by simp [parent?, found]
  rw [inner, ancestors_eq found above nodup]
  exact above

-- What is below a scope, walked down in either way, and what is above one agree.
theorem downward_and_upward_walks_agree (forest : g.IsForest) (id : ScopeId) :
    g.Preorder (g.children id) (g.descendants id) ∧
      (∀ turns, g.size ≤ turns → (Descent.start g id).run g turns = some (g.descendants id)) ∧
      (g.descendants id).Nodup ∧
      (∀ x, g.contains x = true → g.Chain (g.parent? x) (g.ancestors x)) ∧
      ∀ x, x ∈ g.descendants id ↔ id ∈ g.ancestors x := by
  have order := forest.preorder_descendants id
  refine ⟨order, ?_, forest.nodup_descendants id, fun x live => forest.chain_ancestors live, ?_⟩
  · intro turns enough
    apply Descent.run_ahead
    · rw [Descent.start, Descent.push_reverse, List.append_nil]
      exact order
    · exact Nat.le_trans (forest.length_descendants_le id) enough
  · intro x
    rw [forest.mem_descendants_iff, forest.mem_ancestors_iff]

-- Two trees, with children listed in another order than that of their ids, and a slot that was emptied.
def grove : Graph where
  slots := #[some { kind := .space true, children := [1, 4] },
    some { name := "a", kind := .space false, parent := some 0, children := [3, 2] },
    some { kind := .block, parent := some 1 }, some { kind := .block, parent := some 1, children := [5] },
    some { name := "b", kind := .space false, parent := some 0 }, some { kind := .block, parent := some 3 },
    none, some { kind := .block, children := [8] }, some { kind := .block, parent := some 7 }]
  root := 0

def groveForest : Forest :=
  let block : Scope := { kind := .block }
  let under : Forest := .tree 3 block (.tree 5 block .nil .nil) (.tree 2 block .nil .nil)
  .tree 0 .global (.tree 1 { name := "a", kind := .space false } under <|
    .tree 4 { name := "b", kind := .space false } .nil .nil) (.tree 7 block (.tree 8 block .nil .nil) .nil)

theorem grove_isForest : grove.IsForest := by
  have all : ∀ id < 9, grove.contains id = true → id ∈ groveForest.ids := by decide
  have picture : grove.Pictures groveForest := by
    refine ⟨?_, by decide, ?_⟩
    · simp [Shows, grove, groveForest, get?, Scope.linked, Scope.global]
    · intro id s found
      exact all id (lt_size_of_get? found) (contains_of_get? found)
  exact picture.isForest

theorem grove_walks_agree :
    grove.IsForest ∧ (Descent.start grove 0).run grove 9 = some [1, 3, 5, 2, 4] ∧
      ∀ x, x ∈ [1, 3, 5, 2, 4] ↔ 0 ∈ grove.ancestors x := by
  have below : grove.descendants 0 = [1, 3, 5, 2, 4] := by decide
  obtain ⟨-, looped, -, -, agree⟩ := downward_and_upward_walks_agree grove_isForest 0
  rw [below] at looped agree
  exact ⟨grove_isForest, looped 9 (by decide), agree⟩

end Forests

end Graph

end ScopeAtlas
