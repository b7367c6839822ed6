import ScopeAtlas.Proofs.Picture

namespace ScopeAtlas

theorem Scope.linked_sameEntity (mine theirs : Scope) (p q : Option ScopeId) (c d : List ScopeId) :
    (mine.linked p c).sameEntity (theirs.linked q d) = mine.sameEntity theirs := rfl

theorem Parameter.conflicts_of_same_types {method : String} {position : Nat} {left right : List Parameter}
    (same : left.map (·.declaredType.name) = right.map (·.declaredType.name)) :
    Parameter.conflicts method position left right = [] := by
  induction left generalizing position right with
  | nil => rfl
  | cons mine left ih =>
    cases right with
    | nil => rfl
    | cons theirs right =>
      simp only [List.map_cons, List.cons.injEq] at same
      simp only [Parameter.conflicts, same.1, if_true]
      exact ih same.2

-- Scopes that denote one entity never disagree on a parameter.
theorem Scope.conflicts_of_sameEntity {mine theirs : Scope} (same : mine.sameEntity theirs = true) (method : String) :
    mine.kind.conflicts method theirs.kind = [] := by
  unfold Scope.sameEntity at same
  unfold ScopeKind.conflicts
  split
  · rename_i left right leftKind rightKind
    simp only [leftKind, rightKind, Bool.and_eq_true, beq_iff_eq] at same
    exact Parameter.conflicts_of_same_types same.2.2
  · rfl

theorem Graph.partner?_eq {g : Graph} {into id : ScopeId} {s : Scope} {mine : Forest} {parent q : Option ScopeId}
    {d : List ScopeId} (children : g.children into = mine.roots) (shown : g.Shows parent mine)
    (found : g.get? id = some (s.linked q d)) (new : id ∉ mine.roots) :
    g.partner? into id = (mine.partner? s).map Prod.fst := by
  rw [Graph.partner?, children]
  clear children
  induction mine with
  | nil => rfl
  | tree known kept under rest _ ih =>
    obtain ⟨here, _, beside⟩ := shown
    simp only [Forest.roots_tree, List.mem_cons, not_or] at new
    have other : (known != id) = true := by simpa using fun equal : known = id => new.1 equal.symm
    have denotes : g.denoteSame known id = kept.sameEntity s := by
      simp only [Graph.denoteSame, here, found, Scope.linked_sameEntity]
    simp only [Forest.roots_tree, List.find?_cons, other, denotes, Bool.true_and, Forest.partner?]
    cases same : kept.sameEntity s with
    | true => simp
    | false => simpa using ih beside new.2

namespace Uniting

variable {u v w : Uniting}

-- What a change does to the arena, and which scopes it retires.
structure Effect (u v : Uniting) (region kept : List ScopeId) (gone : Forwarding) : Prop
    extends u.graph.Empties v.graph region kept where
  missing : v.missing = u.missing
  forward : v.forward = gone ++ u.forward

theorem Effect.trans {r₁ r₂ r k₁ k₂ : List ScopeId} {f₁ f₂ : Forwarding} (first : u.Effect v r₁ k₁ f₁)
    (second : v.Effect w r₂ k₂ f₂) (within : k₁ ⊆ r₂) (cover : ∀ x, x ∈ r ↔ x ∈ r₁ ∨ x ∈ r₂) :
    u.Effect w r k₂ (f₂ ++ f₁) where
  toEmpties := first.toEmpties.trans second.toEmpties cover (fun _ member => Or.inl (within member)) (List.Subset.refl _)
  missing := second.missing.trans first.missing
  forward := by rw [second.forward, first.forward, List.append_assoc]

theorem Effect.widen {r r' k k' : List ScopeId} {f : Forwarding} (effect : u.Effect v r k f) (larger : r ⊆ r')
    (added : ∀ x ∈ r', x ∈ r ∨ x ∈ k') (still : k ⊆ k') : u.Effect v r' k' f :=
  ⟨effect.toEmpties.widen larger added still, effect.missing, effect.forward⟩

-- The trees of a loose forest, moved under a scope one after the other, are absorbed by the forest there.
def Settles (depth : Nat) (loose : Forest) : Prop :=
  ∀ (u : Uniting) (into : ScopeId) (m : Scope) (mine : Forest) (outer stray : Option ScopeId) (up : List ScopeId),
    u.graph.Shows outer (.tree into m mine .nil) → u.graph.Shows stray loose → u.graph.Chain outer up →
    (up ++ into :: (mine.ids ++ loose.ids)).Nodup →
    ∃ v, loose.roots.foldl (moveWith (joinWithin depth) into) u = v ∧
      v.graph.Shows outer (.tree into m (mine.absorb loose) .nil) ∧
      u.Effect v (into :: (mine.ids ++ loose.ids)) (into :: (mine.absorb loose).ids) (mine.retired loose) ∧
      v.graph.conflicts = u.graph.conflicts

theorem need_of_live {ids : List ScopeId} (live : ∀ x ∈ ids, u.graph.contains x = true) : u.need ids = u := by
  unfold need
  rw [Change.need_of_live live]

section Retire

variable {into source : ScopeId} {m t : Scope}

theorem get?_fold {g : Graph} (mine : g.get? into = some m) (other : into ≠ source) (x : ScopeId) :
    (g.fold into source t).get? x =
      if x = into then some (m.unite t) else if x = source then none else g.get? x := by
  have kept : (g.setSlot source none).get? into = some m := by
    rw [Graph.get?_setSlot_none, if_neg other, mine]
  have inside : into < (g.setSlot source none).size := Graph.lt_size_of_get? kept
  have slots : (g.fold into source t).get? x = ((g.setSlot source none).setSlot into (some (m.unite t))).get? x := by
    unfold Graph.fold
    simp only [kept]
    rfl
  rw [slots, Graph.get?_setSlot_of_lt inside, Graph.get?_setSlot_none]

theorem fold_parts {g : Graph} (mine : g.get? into = some m) (other : into ≠ source) :
    (g.fold into source t).size = g.size ∧ (g.fold into source t).root = g.root ∧
      (g.fold into source t).conflicts = g.conflicts ++ m.kind.conflicts (g.fullName into) t.kind := by
  have kept : (g.setSlot source none).get? into = some m := by
    rw [Graph.get?_setSlot_none, if_neg other, mine]
  have size : (g.fold into source t).size = ((g.setSlot source none).setSlot into (some (m.unite t))).size := by
    unfold Graph.fold
    simp only [kept]
    rfl
  refine ⟨by rw [size, Graph.size_setSlot, Graph.size_setSlot], ?_, ?_⟩ <;>
  · unfold Graph.fold
    simp only [kept]
    rfl

theorem retire_effect (mine : u.graph.get? into = some m) (other : into ≠ source) :
    u.Effect (u.retire into source t) [into, source] [into] [(source, into)] ∧
      (u.retire into source t).graph.get? into = some (m.unite t) ∧
      (u.retire into source t).graph.conflicts =
        u.graph.conflicts ++ m.kind.conflicts (u.graph.fullName into) t.kind := by
  have slots := fun x => get?_fold (t := t) mine other x
  have live : (u.graph.fold into source t).contains into = true :=
    Graph.contains_of_get? (by rw [slots into, if_pos rfl])
  have parts := fold_parts (t := t) mine other
  have same : u.retire into source t =
      { u with graph := u.graph.fold into source t, forward := (source, into) :: u.forward } := by
    unfold retire
    apply need_of_live
    intro x member
    rw [List.mem_singleton.mp member]
    exact live
  rw [same]
  refine ⟨⟨⟨?_, ?_, parts.1, parts.2.1⟩, rfl, rfl⟩, ?_, parts.2.2⟩
  · intro x outside
    simp only [List.mem_cons, List.not_mem_nil, or_false, not_or] at outside
    rw [slots x, if_neg outside.1, if_neg outside.2]
  · intro x inside dropped
    simp only [List.mem_cons, List.not_mem_nil, or_false] at inside dropped
    rw [slots x, if_neg dropped, if_pos (inside.resolve_left dropped)]
  · rw [slots into, if_pos rfl]

end Retire

-- Folding one tree into another, when what is below can be settled one level less deep.
theorem join_settles {depth : Nat} {below : Forest} (inner : Settles depth below) {known id : ScopeId}
    {kept s : Scope} {under : Forest} {outer stray : Option ScopeId} {up : List ScopeId}
    (mine : u.graph.Shows outer (.tree known kept under .nil)) (theirs : u.graph.Shows stray (.tree id s below .nil))
    (above : u.graph.Chain outer up) (nodup : (up ++ known :: (under.ids ++ id :: below.ids)).Nodup) :
    ∃ v, joinWithin (depth + 1) known id u = v ∧
      v.graph.Shows outer (.tree known (kept.unite s) (under.absorb below) .nil) ∧
      u.Effect v (known :: (under.ids ++ id :: below.ids)) (known :: (under.absorb below).ids)
        (under.retired below ++ [(id, known)]) ∧
      v.graph.conflicts = u.graph.conflicts ++ kept.kind.conflicts (u.graph.fullName known) s.kind := by
  obtain ⟨mineHere, mineUnder, -⟩ := mine
  obtain ⟨theirsHere, theirsUnder, -⟩ := theirs
  have counted := List.nodup_iff_count_le_one.mp nodup
  have other : known ≠ id := by
    rintro rfl
    have := counted known
    simp only [List.count_append, List.count_cons_self] at this
    omega
  obtain ⟨retired, united, conflicts⟩ := retire_effect (t := s.linked stray below.roots) mineHere other
  -- below the two scopes nothing has changed yet, and the children of the second have lost their parent
  have outside : ∀ x, x ∈ under.ids ∨ x ∈ below.ids ∨ x ∈ up → x ∉ [known, id] := by
    intro x member
    have := counted x
    simp only [List.count_append, List.count_cons, ← List.count_pos_iff] at this member
    simp only [List.mem_cons, List.not_mem_nil, or_false, not_or]
    constructor
    · rintro rfl
      simp only [beq_self_eq_true, if_true] at this
      omega
    · rintro rfl
      simp only [beq_self_eq_true, if_true] at this
      omega
  have mineUnder' := mineUnder.frame fun x member => retired.frame x (outside x (Or.inl member))
  have theirsUnder' := theirsUnder.frame fun x member => retired.frame x (outside x (Or.inr (Or.inl member)))
  have above' := above.frame fun x member => congrArg _ (retired.frame x (outside x (Or.inr (Or.inr member))))
  have nodup' : (up ++ known :: (under.ids ++ below.ids)).Nodup := by
    rw [List.nodup_iff_count_le_one]
    intro x
    have := counted x
    simp only [List.count_append, List.count_cons] at this ⊢
    omega
  obtain ⟨v, moved, shown, effect, same⟩ :=
    inner _ known (kept.unite s) under outer (some id) up ⟨united, mineUnder', trivial⟩ theirsUnder' above' nodup'
  refine ⟨v, ?_, shown, ?_, same.trans conflicts⟩
  · rw [joinWithin, need_of_live fun x member => Graph.ancestors_live mineHere above member]
    simp only [theirsHere]
    exact moved
  · refine retired.trans effect ?_ ?_
    · intro x member
      simp [List.mem_singleton.mp member]
    · intro x
      simp only [List.mem_cons, List.mem_append, List.not_mem_nil, or_false]
      grind

theorem attach_effect {into id : ScopeId} {m s : Scope} (mine : u.graph.get? into = some m)
    (theirs : u.graph.get? id = some s) (other : into ≠ id) :
    u.Effect { u.need [id, into] with graph := u.graph.attach into id } [into, id] [into, id] [] ∧
      (u.graph.attach into id).get? into = some { m with children := m.children ++ [id] } ∧
      (u.graph.attach into id).get? id = some { s with parent := some into } ∧
      (u.graph.attach into id).conflicts = u.graph.conflicts := by
  have needed : u.need [id, into] = u := by
    apply need_of_live
    intro x member
    rcases List.mem_cons.mp member with rfl | last
    · exact Graph.contains_of_get? theirs
    · rw [List.mem_singleton.mp last]
      exact Graph.contains_of_get? mine
  rw [needed]
  refine ⟨⟨?_, rfl, rfl⟩, ?_, ?_, by simp [Graph.attach]⟩
  · refine (Graph.empties_modify id _).trans (Graph.empties_modify into _) ?_ ?_ ?_ <;> intro x <;>
      simp only [List.mem_cons, List.not_mem_nil, or_false] <;> grind
  · simp [Graph.attach, Graph.get?_modify, other, mine]
  · simp [Graph.attach, Graph.get?_modify, other.symm, theirs]

theorem join_among {depth : Nat} {below : Forest} (inner : Settles depth below) {into id known : ScopeId} {m s kept : Scope}
    {front under back : Forest} {outer : Option ScopeId} {up : List ScopeId}
    (shown : u.graph.Shows outer (.tree into m (front ++ .tree known kept under back) .nil))
    (loose : u.graph.Shows none (.tree id s below .nil)) (above : u.graph.Chain outer up)
    (nodup : (up ++ into :: ((front ++ .tree known kept under back).ids ++ id :: below.ids)).Nodup)
    (same : kept.sameEntity s = true) :
    ∃ v, joinWithin (depth + 1) known id u = v ∧
      v.graph.Shows outer (.tree into m (front ++ .tree known (kept.unite s) (under.absorb below) back) .nil) ∧
      u.Effect v (into :: ((front ++ .tree known kept under back).ids ++ id :: below.ids))
        (into :: (front ++ .tree known (kept.unite s) (under.absorb below) back).ids)
        (under.retired below ++ [(id, known)]) ∧
      v.graph.conflicts = u.graph.conflicts := by
  obtain ⟨here, beside, -⟩ := shown
  obtain ⟨frontShown, hereKnown, underShown, backShown⟩ := Graph.shows_append.mp beside
  have counted := List.nodup_iff_count_le_one.mp nodup
  simp only [Forest.ids_append, Forest.ids_tree, List.count_append, List.count_cons] at counted
  have nodup' : ((into :: up) ++ known :: (under.ids ++ id :: below.ids)).Nodup := by
    rw [List.nodup_iff_count_le_one]
    intro x
    have := counted x
    simp only [List.count_append, List.count_cons]
    omega
  have above' : u.graph.Chain (some into) (into :: up) := ⟨rfl, _, here, above⟩
  obtain ⟨v, joined, shown', effect, conflicts⟩ :=
    join_settles inner ⟨hereKnown, underShown, trivial⟩ loose above' nodup'
  -- The join stays within the known child and the scope that joins it, so its siblings are framed.
  have outside : ∀ x, x = into ∨ x ∈ front.ids ∨ x ∈ back.ids → x ∉ known :: (under.ids ++ id :: below.ids) := by
    intro x member inside
    have := counted x
    have listed := List.count_pos_iff.mpr inside
    simp only [List.count_append, List.count_cons] at listed
    rcases member with rfl | member | member
    · simp only [beq_self_eq_true, if_true] at this
      omega
    · have := List.count_pos_iff.mpr member
      omega
    · have := List.count_pos_iff.mpr member
      omega
  refine ⟨v, joined, ⟨?_, ?_, trivial⟩, ?_, ?_⟩
  · rw [effect.frame into (outside into (Or.inl rfl)), here]
    simp
  · refine Graph.shows_append.mpr ⟨?_, shown'.1, shown'.2.1, ?_⟩
    · exact frontShown.frame fun x member => effect.frame x (outside x (Or.inr (Or.inl member)))
    · exact backShown.frame fun x member => effect.frame x (outside x (Or.inr (Or.inr member)))
  · refine effect.widen ?_ ?_ ?_ <;> intro x <;>
      simp only [Forest.ids_append, Forest.ids_tree, List.mem_cons, List.mem_append] <;> grind
  · rw [conflicts, Scope.conflicts_of_sameEntity same, List.append_nil]

theorem attach_among {into id : ScopeId} {m s : Scope} {mine below : Forest} {outer : Option ScopeId} {up : List ScopeId}
    (shown : u.graph.Shows outer (.tree into m mine .nil)) (loose : u.graph.Shows none (.tree id s below .nil))
    (nodup : (up ++ into :: (mine.ids ++ id :: below.ids)).Nodup) :
    (u.graph.attach into id).Shows outer (.tree into m (mine ++ .tree id s below .nil) .nil) ∧
      u.Effect { u.need [id, into] with graph := u.graph.attach into id } (into :: (mine.ids ++ id :: below.ids))
        (into :: (mine ++ .tree id s below .nil).ids) [] ∧
      (u.graph.attach into id).conflicts = u.graph.conflicts := by
  obtain ⟨here, beside, -⟩ := shown
  have counted := List.nodup_iff_count_le_one.mp nodup
  simp only [List.count_append, List.count_cons] at counted
  have other : into ≠ id := by
    rintro rfl
    have := counted into
    simp only [beq_self_eq_true, if_true] at this
    omega
  obtain ⟨effect, united, attached, conflicts⟩ := attach_effect here loose.1 other
  have outside : ∀ x, x ∈ mine.ids ∨ x ∈ below.ids → x ∉ [into, id] := by
    intro x member
    have := counted x
    simp only [← List.count_pos_iff] at member
    simp only [List.mem_cons, List.not_mem_nil, or_false, not_or]
    constructor <;>
    · rintro rfl
      simp only [beq_self_eq_true, if_true] at this
      omega
  refine ⟨⟨?_, ?_, trivial⟩, ?_, conflicts⟩
  · rw [united]
    simp [Scope.linked]
  · refine Graph.shows_append.mpr ⟨?_, ?_, ?_, trivial⟩
    · exact beside.frame fun x member => effect.frame x (outside x (Or.inl member))
    · rw [attached]
      rfl
    · exact loose.2.1.frame fun x member => effect.frame x (outside x (Or.inr member))
  · refine effect.widen ?_ ?_ ?_ <;> intro x <;>
      simp only [Forest.ids_append, Forest.ids_tree, Forest.ids_nil, List.mem_cons, List.mem_append,
        List.not_mem_nil, or_false] <;> grind

theorem place_settles {depth : Nat} {below : Forest} (inner : Settles depth below) {into id : ScopeId} {m s : Scope}
    {mine : Forest} {outer : Option ScopeId} {up : List ScopeId}
    (shown : u.graph.Shows outer (.tree into m mine .nil)) (loose : u.graph.Shows none (.tree id s below .nil))
    (above : u.graph.Chain outer up) (nodup : (up ++ into :: (mine.ids ++ id :: below.ids)).Nodup) :
    ∃ v, (placeWith (joinWithin (depth + 1)) into id u).2 = v ∧
      v.graph.Shows outer (.tree into m (mine.place id s below) .nil) ∧
      u.Effect v (into :: (mine.ids ++ id :: below.ids)) (into :: (mine.place id s below).ids)
        (mine.placeRetired id s below) ∧
      v.graph.conflicts = u.graph.conflicts := by
  have new : id ∉ mine.roots := by
    intro member
    have := List.nodup_iff_count_le_one.mp nodup id
    have listed := List.count_pos_iff.mpr (mine.mem_ids_of_mem_roots member)
    simp only [List.count_append, List.count_cons_self, List.count_cons] at this
    omega
  have children : u.graph.children into = mine.roots := by simp [Graph.children, shown.1, Scope.linked]
  have partner := Graph.partner?_eq children shown.2.1 loose.1 new
  rcases mine.place_cases id s below with
    ⟨front, known, kept, under, back, rfl, same, found, placed, gone⟩ | ⟨alone, placed, gone⟩
  · rw [found] at partner
    rw [placed, gone]
    simp only [placeWith, partner, Option.map_some]
    exact join_among inner shown loose above nodup same
  · rw [alone] at partner
    rw [placed, gone]
    simp only [placeWith, partner, Option.map_none]
    exact ⟨_, rfl, attach_among shown loose nodup⟩

theorem unparent_effect {id : ScopeId} {s : Scope} {parent : Option ScopeId} {children : List ScopeId}
    (found : u.graph.get? id = some (s.linked parent children)) :
    u.Effect { u with graph := u.graph.modify id fun s => { s with parent := none } } [id] [id] [] ∧
      (u.graph.modify id fun s => { s with parent := none }).get? id = some (s.linked none children) := by
  refine ⟨⟨Graph.empties_modify id _, rfl, rfl⟩, ?_⟩
  simp [Graph.get?_modify, found, Scope.linked]

-- A tree is cut loose from where it stands and placed under a scope.
theorem move_settles {depth : Nat} {below : Forest} (inner : Settles depth below) {into id : ScopeId} {m s : Scope}
    {mine : Forest} {outer stray : Option ScopeId} {up : List ScopeId}
    (shown : u.graph.Shows outer (.tree into m mine .nil)) (loose : u.graph.Shows stray (.tree id s below .nil))
    (above : u.graph.Chain outer up) (nodup : (up ++ into :: (mine.ids ++ id :: below.ids)).Nodup) :
    ∃ v, moveWith (joinWithin (depth + 1)) into u id = v ∧
      v.graph.Shows outer (.tree into m (mine.place id s below) .nil) ∧
      u.Effect v (into :: (mine.ids ++ id :: below.ids)) (into :: (mine.place id s below).ids)
        (mine.placeRetired id s below) ∧
      v.graph.conflicts = u.graph.conflicts := by
  obtain ⟨here, under, -⟩ := loose
  -- A child that is moved first loses its parent, and is then placed like any loose tree.
  obtain ⟨freed, free⟩ := unparent_effect here
  have outside : ∀ x, x = into ∨ x ∈ mine.ids ∨ x ∈ below.ids ∨ x ∈ up → x ∉ [id] := by
    intro x member inside
    rw [List.mem_singleton] at inside
    subst inside
    have := List.nodup_iff_count_le_one.mp nodup x
    simp only [List.count_append, List.count_cons, ← List.count_pos_iff, beq_self_eq_true, if_true] at this member
    rcases member with rfl | member | member | member
    · simp only [beq_self_eq_true, if_true] at this
      omega
    all_goals omega
  have shown' := shown.frame fun x member => freed.frame x (outside x (by
    simp only [Forest.ids_tree, Forest.ids_nil, List.append_nil, List.mem_cons] at member
    grind))
  have under' := under.frame fun x member => freed.frame x (outside x (by grind))
  have above' := above.frame fun x member => congrArg _ (freed.frame x (outside x (by grind)))
  obtain ⟨v, placed, settled, effect, conflicts⟩ := place_settles inner shown' ⟨free, under', trivial⟩ above' nodup
  have live : u.graph.contains id = true := Graph.contains_of_get? here
  refine ⟨v, ?_, settled, ?_, conflicts.trans (by simp)⟩
  · simp only [moveWith, live, if_true]
    exact placed
  · have both : u.Effect v (into :: (mine.ids ++ id :: below.ids)) (into :: (mine.place id s below).ids)
        (mine.placeRetired id s below ++ []) := by
      refine freed.trans effect ?_ ?_
      · intro x member
        simp [List.mem_singleton.mp member]
      · intro x
        simp only [List.mem_cons, List.mem_append, List.not_mem_nil, or_false]
        grind
    rwa [List.append_nil] at both

theorem settles (loose : Forest) {depth : Nat} (bound : loose.height ≤ depth) : Settles depth loose := by
  induction loose generalizing depth with
  | nil =>
    intro u into m mine outer stray up shown _ _ _
    rw [Forest.ids_nil, List.append_nil]
    exact ⟨u, rfl, shown, ⟨.refl _, rfl, rfl⟩, rfl⟩
  | tree id s below rest lower later =>
    intro u into m mine outer stray up shown ⟨here, under, beside⟩ above nodup
    simp only [Forest.height] at bound
    obtain ⟨depth, rfl⟩ : ∃ smaller, depth = smaller + 1 := ⟨depth - 1, by omega⟩
    have counted := List.nodup_iff_count_le_one.mp nodup
    simp only [Forest.ids_tree, List.count_append, List.count_cons] at counted
    have nodup₁ : (up ++ into :: (mine.ids ++ id :: below.ids)).Nodup := by
      rw [List.nodup_iff_count_le_one]
      intro x
      have := counted x
      simp only [List.count_append, List.count_cons]
      omega
    obtain ⟨v, moved, shown₁, effect, conflicts⟩ :=
      move_settles (@lower depth (by omega)) shown ⟨here, under, trivial⟩ above nodup₁
    -- the other trees are where they were
    have untouched : ∀ x, x ∈ rest.ids ∨ x ∈ up → x ∉ into :: (mine.ids ++ id :: below.ids) := by
      intro x member inside
      have := counted x
      have listed := List.count_pos_iff.mpr inside
      simp only [List.count_append, List.count_cons] at listed
      simp only [← List.count_pos_iff] at member
      omega
    have beside₁ := beside.frame fun x member => effect.frame x (untouched x (Or.inl member))
    have above₁ := above.frame fun x member => congrArg _ (effect.frame x (untouched x (Or.inr member)))
    have permuted := mine.place_ids_perm id s below fun under => under.absorb_ids_perm below
    have nodup₂ : (up ++ into :: ((mine.place id s below).ids ++ rest.ids)).Nodup := by
      rw [List.nodup_iff_count_le_one]
      intro x
      have := counted x
      have same := permuted.count_eq x
      simp only [List.count_append, List.count_cons] at same ⊢
      omega
    obtain ⟨w, moved', shown₂, effect', conflicts'⟩ :=
      @later (depth + 1) (by omega) v into m (mine.place id s below) outer stray up shown₁ beside₁ above₁ nodup₂
    have within : ∀ x ∈ (mine.place id s below).ids, x ∈ mine.ids ++ id :: below.ids := by
      intro x member
      exact permuted.subset (List.mem_append_left _ member)
    refine ⟨w, ?_, shown₂, ?_, conflicts'.trans conflicts⟩
    · rw [Forest.roots_tree, List.foldl_cons, moved]
      exact moved'
    · rw [Forest.retired_tree]
      refine effect.trans effect' ?_ ?_
      · intro x member
        simp only [List.mem_cons, List.mem_append] at member ⊢
        grind
      · intro x
        have inside := within x
        simp only [Forest.ids_tree, List.mem_cons, List.mem_append] at inside ⊢
        grind

end Uniting

end ScopeAtlas
