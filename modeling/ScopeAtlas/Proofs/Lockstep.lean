import ScopeAtlas.Proofs.Surveying

namespace ScopeAtlas

-- A relation between scopes that all changes respect. What two scopes are united for is seen alike on both sides.
structure Scope.Congruence (alike : Scope → Scope → Prop) : Prop where
  links : ∀ {s t : Scope}, alike s t → t.parent = s.parent ∧ t.children = s.children
  linked : ∀ {s t : Scope} (parent : Option ScopeId) (children : List ScopeId), alike s t →
    alike (s.linked parent children) (t.linked parent children)
  sameEntity : ∀ {s t s' t' : Scope}, alike s s' → alike t t' → s'.sameEntity t' = s.sameEntity t
  unite : ∀ {s t s' t' : Scope}, alike s s' → alike t t' → s.sameEntity t = true → alike (s.unite t) (s'.unite t')
  rebind : ∀ {s t : Scope} (f : ScopeId → ScopeId), alike s t → alike (s.rebind f) (t.rebind f)

namespace Graph

-- Two graphs with the same ids, and alike scopes at each of them.
structure InStep (alike : Scope → Scope → Prop) (g h : Graph) : Prop where
  size : h.size = g.size
  root : h.root = g.root
  conflicts : h.conflicts = g.conflicts
  slots : ∀ x, Option.Rel alike (g.get? x) (h.get? x)

variable {alike : Scope → Scope → Prop} {g h : Graph} {id : ScopeId}

theorem InStep.found (inStep : g.InStep alike h) {s : Scope} (found : g.get? id = some s) :
    ∃ t, h.get? id = some t ∧ alike s t := by
  have slot := inStep.slots id
  rw [found] at slot
  cases there : h.get? id with
  | none =>
    rw [there] at slot
    cases slot
  | some t =>
    rw [there] at slot
    cases slot with
    | some like => exact ⟨t, rfl, like⟩

theorem InStep.missing (inStep : g.InStep alike h) (absent : g.get? id = none) : h.get? id = none := by
  have slot := inStep.slots id
  rw [absent] at slot
  cases there : h.get? id with
  | none => rfl
  | some t =>
    rw [there] at slot
    cases slot

theorem InStep.contains (inStep : g.InStep alike h) (id : ScopeId) : h.contains id = g.contains id := by
  cases found : g.get? id with
  | none => simp [Graph.contains, found, inStep.missing found]
  | some s =>
    obtain ⟨t, found', -⟩ := inStep.found found
    simp [Graph.contains, found, found']

theorem InStep.modify (inStep : g.InStep alike h) {change change' : Scope → Scope}
    (changes : ∀ s t, alike s t → alike (change s) (change' t)) (id : ScopeId) :
    (g.modify id change).InStep alike (h.modify id change') := by
  refine ⟨by simp [inStep.size], by simp [inStep.root], by simp [inStep.conflicts], ?_⟩
  intro x
  rw [get?_modify, get?_modify]
  split
  · cases found : g.get? id with
    | none =>
      rw [inStep.missing found]
      exact .none
    | some s =>
      obtain ⟨t, found', like⟩ := inStep.found found
      rw [found']
      exact .some (changes s t like)
  · exact inStep.slots x

theorem InStep.insert (inStep : g.InStep alike h) {s t : Scope} (like : alike s t) :
    (g.insert s).2.InStep alike (h.insert t).2 := by
  refine ⟨by simp [inStep.size], inStep.root, inStep.conflicts, ?_⟩
  intro x
  rw [get?_insert, get?_insert, inStep.size]
  split
  · exact .some like
  · exact inStep.slots x

theorem InStep.map_slots {α : Type} {view : Scope → α} (inStep : g.InStep alike h)
    (same : ∀ s t, alike s t → view t = view s) : h.slots.map (·.map view) = g.slots.map (·.map view) := by
  have slot : ∀ (k : Graph) (x : ScopeId), x < k.size → k.slots[x]? = some (k.get? x) := by
    intro k x inside
    unfold Graph.get?
    rw [Array.getElem?_eq_getElem inside]
    rfl
  have size : h.slots.size = g.slots.size := inStep.size
  refine Array.ext_getElem? ?_
  intro x
  rw [Array.getElem?_map, Array.getElem?_map]
  by_cases inside : x < g.size
  · rw [slot g x inside, slot h x (inStep.size.symm ▸ inside), Option.map_some, Option.map_some]
    have related := inStep.slots x
    generalize g.get? x = left at related
    generalize h.get? x = right at related
    cases related with
    | some like => rw [Option.map_some, Option.map_some, same _ _ like]
    | none => rfl
  · have outside : g.slots.size ≤ x := Nat.not_lt.mp inside
    rw [Array.getElem?_eq_none outside, Array.getElem?_eq_none (size ▸ outside)]

section Laws

variable (laws : Scope.Congruence alike)

include laws

theorem InStep.children (inStep : g.InStep alike h) (id : ScopeId) : h.children id = g.children id := by
  cases found : g.get? id with
  | none => simp [Graph.children, found, inStep.missing found]
  | some s =>
    obtain ⟨t, found', like⟩ := inStep.found found
    simp [Graph.children, found, found', (laws.links like).2]

theorem InStep.parent? (inStep : g.InStep alike h) (id : ScopeId) : h.parent? id = g.parent? id := by
  cases found : g.get? id with
  | none => simp [Graph.parent?, found, inStep.missing found]
  | some s =>
    obtain ⟨t, found', like⟩ := inStep.found found
    simp [Graph.parent?, found, found', (laws.links like).1]

theorem InStep.denoteSame (inStep : g.InStep alike h) (a b : ScopeId) : h.denoteSame a b = g.denoteSame a b := by
  unfold Graph.denoteSame
  cases first : g.get? a with
  | none => simp [inStep.missing first]
  | some s =>
    obtain ⟨s', first', like⟩ := inStep.found first
    cases second : g.get? b with
    | none => simp [first', inStep.missing second]
    | some t =>
      obtain ⟨t', second', like'⟩ := inStep.found second
      simp [first', second', laws.sameEntity like like']

theorem InStep.partner? (inStep : g.InStep alike h) (parent child : ScopeId) :
    h.partner? parent child = g.partner? parent child := by
  simp only [Graph.partner?, inStep.children laws, inStep.denoteSame laws]

theorem InStep.rebind (inStep : g.InStep alike h) (f : ScopeId → ScopeId) : (g.rebind f).InStep alike (h.rebind f) := by
  refine ⟨by simp [inStep.size], inStep.root, inStep.conflicts, ?_⟩
  intro x
  rw [get?_rebind, get?_rebind]
  cases found : g.get? x with
  | none =>
    rw [inStep.missing found]
    exact .none
  | some s =>
    obtain ⟨t, found', like⟩ := inStep.found found
    rw [found']
    exact .some (laws.rebind f like)

theorem InStep.reparent (inStep : g.InStep alike h) (id : ScopeId) (parent : Option ScopeId) :
    (g.modify id fun s => { s with parent }).InStep alike (h.modify id fun s => { s with parent }) := by
  refine inStep.modify ?_ id
  intro s t like
  have same : { t with parent } = t.linked parent s.children := by rw [← (laws.links like).2]; rfl
  rw [same]
  exact laws.linked parent s.children like

theorem InStep.relist (inStep : g.InStep alike h) (id : ScopeId) (change : List ScopeId → List ScopeId) :
    (g.modify id fun s => { s with children := change s.children }).InStep alike
      (h.modify id fun s => { s with children := change s.children }) := by
  refine inStep.modify ?_ id
  intro s t like
  have same : { t with children := change t.children } = t.linked s.parent (change s.children) := by
    rw [← (laws.links like).1, ← (laws.links like).2]; rfl
  rw [same]
  exact laws.linked s.parent (change s.children) like

theorem InStep.attach (inStep : g.InStep alike h) (parent child : ScopeId) :
    (g.attach parent child).InStep alike (h.attach parent child) :=
  (inStep.reparent laws child (some parent)).relist laws parent (· ++ [child])

theorem InStep.detach (inStep : g.InStep alike h) (id : ScopeId) : (g.detach id).InStep alike (h.detach id) := by
  unfold Graph.detach
  rw [inStep.parent? laws]
  split
  · exact (inStep.relist laws _ (·.filter (· != id))).reparent laws id none
  · exact inStep.reparent laws id none

-- Only scopes that denote one entity are folded, so no conflict is noted on either side.
theorem InStep.fold (inStep : g.InStep alike h) {into source : ScopeId} {s t : Scope} (found : g.get? source = some s)
    (found' : h.get? source = some t) (other : into ≠ source) (same : g.denoteSame into source = true) :
    (g.fold into source s).InStep alike (h.fold into source t) := by
  have like : alike s t := by
    obtain ⟨t', there, like⟩ := inStep.found found
    rw [found'] at there
    cases there
    exact like
  cases mine : g.get? into with
  | none => simp [Graph.denoteSame, mine] at same
  | some m =>
    obtain ⟨m', mine', like'⟩ := inStep.found mine
    have entity : m.sameEntity s = true := by simpa [Graph.denoteSame, mine, found] using same
    have entity' : m'.sameEntity t = true := (laws.sameEntity like' like).trans entity
    obtain ⟨size, root, conflicts⟩ := Uniting.fold_parts (t := s) mine other
    obtain ⟨size', root', conflicts'⟩ := Uniting.fold_parts (t := t) mine' other
    refine ⟨by rw [size, size', inStep.size], by rw [root, root', inStep.root], ?_, ?_⟩
    · rw [conflicts, conflicts', Scope.conflicts_of_sameEntity entity, Scope.conflicts_of_sameEntity entity',
        inStep.conflicts]
    · intro x
      rw [Uniting.get?_fold mine other, Uniting.get?_fold mine' other]
      split
      · exact .some (laws.unite like' like entity)
      · split
        · exact .none
        · exact inStep.slots x

end Laws

end Graph

namespace Uniting

structure InStep (alike : Scope → Scope → Prop) (u v : Uniting) : Prop where
  graph : u.graph.InStep alike v.graph
  forward : v.forward = u.forward

variable {alike : Scope → Scope → Prop} {u v : Uniting}

-- A way to join scopes that is only asked for different ids of one entity.
def JoinsInStep (alike : Scope → Scope → Prop) (join : ScopeId → ScopeId → Uniting → Uniting) : Prop :=
  ∀ into source u v, InStep alike u v → into ≠ source → u.graph.denoteSame into source = true →
    InStep alike (join into source u) (join into source v)

theorem partner?_sound {g : Graph} {parent child partner : ScopeId} (found : g.partner? parent child = some partner) :
    partner ≠ child ∧ g.denoteSame partner child = true := by
  have holds := List.find?_some found
  simpa using holds

section Laws

variable (laws : Scope.Congruence alike) {join : ScopeId → ScopeId → Uniting → Uniting}

include laws

theorem InStep.placeWith (joins : JoinsInStep alike join) (inStep : InStep alike u v) (parent child : ScopeId) :
    (placeWith join parent child v).1 = (placeWith join parent child u).1 ∧
      InStep alike (placeWith join parent child u).2 (placeWith join parent child v).2 := by
  unfold Uniting.placeWith
  rw [inStep.graph.partner? laws]
  split
  · rename_i partner found
    obtain ⟨other, same⟩ := partner?_sound found
    exact ⟨rfl, joins partner child u v inStep other same⟩
  · exact ⟨rfl, inStep.graph.attach laws parent child, inStep.forward⟩

theorem InStep.moveWith (joins : JoinsInStep alike join) (inStep : InStep alike u v) (parent child : ScopeId) :
    InStep alike (moveWith join parent u child) (moveWith join parent v child) := by
  unfold Uniting.moveWith
  rw [inStep.graph.contains]
  split
  · have freed : InStep alike { u with graph := u.graph.modify child fun s => { s with parent := none } }
        { v with graph := v.graph.modify child fun s => { s with parent := none } } :=
      ⟨inStep.graph.reparent laws child none, inStep.forward⟩
    exact (freed.placeWith laws joins parent child).2
  · exact inStep

theorem InStep.moveAll (joins : JoinsInStep alike join) (inStep : InStep alike u v) (parent : ScopeId)
    (children : List ScopeId) :
    InStep alike (children.foldl (Uniting.moveWith join parent) u) (children.foldl (Uniting.moveWith join parent) v) := by
  induction children generalizing u v with
  | nil => exact inStep
  | cons child rest ih => exact ih (inStep.moveWith laws joins parent child)

theorem joinWithin_inStep (depth : Nat) : JoinsInStep alike (joinWithin depth) := by
  induction depth with
  | zero => exact fun _ _ _ _ inStep _ _ => inStep
  | succ depth ih =>
    intro into source u v inStep other same
    unfold joinWithin
    dsimp only
    cases found : u.graph.get? source with
    | none => simp [Graph.denoteSame, found] at same
    | some s =>
      obtain ⟨t, found', like⟩ := inStep.graph.found found
      have retired : InStep alike ((u.need (u.graph.ancestors into)).retire into source s)
          ((v.need (v.graph.ancestors into)).retire into source t) :=
        ⟨inStep.graph.fold laws found found' other same, congrArg ((source, into) :: ·) inStep.forward⟩
      have moved := retired.moveAll laws ih into s.children
      have here : (u.need (u.graph.ancestors into)).graph.get? source = some s := found
      have there : (v.need (v.graph.ancestors into)).graph.get? source = some t := found'
      rw [here, there]
      dsimp only
      rw [(laws.links like).2]
      exact moved

theorem InStep.settle (inStep : InStep alike u v) : u.settle.graph.InStep alike v.settle.graph := by
  unfold Uniting.settle
  rw [inStep.forward]
  split
  · exact inStep.graph
  · exact inStep.graph.rebind laws _

end Laws

end Uniting

theorem Graph.InStep.adopt {alike : Scope → Scope → Prop} {g h : Graph} (laws : Scope.Congruence alike)
    (inStep : g.InStep alike h) (parent child : ScopeId) :
    (h.adopt parent child).1 = (g.adopt parent child).1 ∧
      (g.adopt parent child).2.InStep alike (h.adopt parent child).2 := by
  have detached : Uniting.InStep alike { graph := g.detach child } { graph := h.detach child } :=
    ⟨inStep.detach laws child, rfl⟩
  have joins : Uniting.JoinsInStep alike Uniting.join := by
    intro into source u v inStep other same
    unfold Uniting.join
    rw [inStep.graph.size]
    exact Uniting.joinWithin_inStep laws _ into source u v inStep other same
  obtain ⟨survivor, placed⟩ := detached.placeWith laws joins parent child
  exact ⟨survivor, placed.settle laws⟩

end ScopeAtlas
