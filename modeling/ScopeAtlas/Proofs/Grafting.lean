import ScopeAtlas.Proofs.Links
import ScopeAtlas.Proofs.Lifetimes

namespace ScopeAtlas

open Relation

namespace Graph

variable {g : Graph} {id x c : ScopeId} {s t : Scope}

theorem filter_children_of_not_lists (found : g.get? x = some t) (absent : ¬ g.Lists x id) :
    { t with children := t.children.filter (· != id) } = t := by
  have same : t.children.filter (· != id) = t.children := by
    rw [List.filter_eq_self]
    intro y listed
    rw [bne_iff_ne]
    rintro rfl
    exact absent ⟨t, found, listed⟩
  rw [same]

section Detaching

variable (forest : g.IsForest)
include forest

theorem IsForest.not_lists_of_dead (dead : g.get? id = none) : ¬ g.Lists x id := by
  intro lists
  obtain ⟨s, there, -⟩ := forest.child x id lists
  rw [dead] at there
  cases there

theorem IsForest.not_lists_of_top (here : g.get? id = some s) (top : s.parent = none) : ¬ g.Lists x id := by
  intro lists
  obtain ⟨s', there, inner⟩ := forest.child x id lists
  rw [here] at there
  cases there
  rw [top] at inner
  cases inner

-- Only the parent lists a scope, so it is as if all others were told to drop it.
theorem IsForest.get?_detach (id x : ScopeId) : (g.detach id).get? x = (g.get? x).map fun t =>
    if x = id then { t with parent := none } else { t with children := t.children.filter (· != id) } := by
  -- Only the parent of a live scope lists it, so to filter every list of children is to filter that one.
  cases here : g.get? id with
  | none =>
    have parent : g.parent? id = none := by rw [parent?, here]; rfl
    simp only [detach, parent, get?_modify, here]
    split
    · rename_i same
      rw [same, here]
    · cases found : g.get? x with
      | none => rfl
      | some t => rw [Option.map_some, filter_children_of_not_lists found (forest.not_lists_of_dead here)]
  | some s =>
    cases above : s.parent with
    | none =>
      rw [get?_detach_root here above]
      cases found : g.get? x with
      | none => rfl
      | some t =>
        rw [Option.map_some]
        split
        · rename_i same
          subst same
          rw [here] at found
          cases found
          rw [← above]
        · rw [filter_children_of_not_lists found (forest.not_lists_of_top here above)]
    | some p =>
      have lists := forest.listed id s p here above
      have apart : p ≠ id := by
        rintro rfl
        exact forest.acyclic p (.single lists)
      rw [get?_detach_child here above apart]
      split
      · rename_i same
        rw [same, here]
        rfl
      · split
        · rename_i same
          rw [same]
        · rename_i other
          cases found : g.get? x with
          | none => rfl
          | some t =>
            have unlisted : ¬ g.Lists x id := fun lists' => other (forest.single lists' lists)
            rw [Option.map_some, filter_children_of_not_lists found unlisted]

theorem IsForest.parent_detach (found : g.get? x = some s) (other : x ≠ id) :
    ∃ t, (g.detach id).get? x = some t ∧ t.parent = s.parent := by
  rw [forest.get?_detach, found, Option.map_some, if_neg other]
  exact ⟨_, rfl, rfl⟩

theorem IsForest.lists_detach : (g.detach id).Lists x c ↔ g.Lists x c ∧ c ≠ id := by
  constructor
  · rintro ⟨t, found, listed⟩
    rw [forest.get?_detach] at found
    obtain ⟨s, found', rfl⟩ := Option.map_eq_some_iff.mp found
    split at listed
    · rename_i same
      have lists : g.Lists x c := ⟨s, found', listed⟩
      refine ⟨lists, ?_⟩
      rintro rfl
      exact forest.acyclic c (.single (same ▸ lists))
    · obtain ⟨listed, other⟩ := List.mem_filter.mp listed
      exact ⟨⟨s, found', listed⟩, bne_iff_ne.mp other⟩
  · rintro ⟨⟨s, found, listed⟩, other⟩
    refine ⟨_, by rw [forest.get?_detach, found, Option.map_some], ?_⟩
    split
    · exact listed
    · exact List.mem_filter.mpr ⟨listed, bne_iff_ne.mpr other⟩

theorem IsForest.detach (id : ScopeId) : (g.detach id).IsForest where
  once x t found := by
    rw [forest.get?_detach] at found
    obtain ⟨s, found', rfl⟩ := Option.map_eq_some_iff.mp found
    split
    · exact forest.once x s found'
    · exact (forest.once x s found').filter _
  child x c lists := by
    obtain ⟨lists, other⟩ := forest.lists_detach.mp lists
    obtain ⟨s, found, above⟩ := forest.child x c lists
    obtain ⟨t, found', same⟩ := forest.parent_detach found other
    exact ⟨t, found', same.trans above⟩
  listed x t p found above := by
    rw [forest.get?_detach] at found
    obtain ⟨s, found', rfl⟩ := Option.map_eq_some_iff.mp found
    split at above
    · cases above
    · rename_i other
      exact forest.lists_detach.mpr ⟨forest.listed x s p found' above, other⟩
  acyclic x cycle := forest.acyclic x (cycle.lift (fun y => y) fun _ _ lists => (forest.lists_detach.mp lists).1)

end Detaching

end Graph

namespace Forest

-- One scope and what is below it are replaced, and all around them stays.
inductive Grafts (id : ScopeId) (s s' : Scope) (under under' : Forest) : Forest → Forest → Prop
  | here (rest : Forest) : Grafts id s s' under under' (tree id s under rest) (tree id s' under' rest)
  | inside {known : ScopeId} {t : Scope} {below below' : Forest} (rest : Forest)
      (deeper : Grafts id s s' under under' below below') :
      Grafts id s s' under under' (tree known t below rest) (tree known t below' rest)
  | beside {known : ScopeId} {t : Scope} (below : Forest) {rest rest' : Forest}
      (later : Grafts id s s' under under' rest rest') :
      Grafts id s s' under under' (tree known t below rest) (tree known t below rest')

variable {id : ScopeId} {s s' : Scope} {under under' f f' : Forest} {parent : Option ScopeId} {entry : Entry}

theorem exists_grafts (listed : entry ∈ f.entries parent) (s' : Scope) (under' : Forest) :
    ∃ f', Grafts entry.id entry.scope s' entry.below under' f f' := by
  induction f generalizing parent with
  | nil => cases listed
  | tree id s below rest inner outer =>
    rcases mem_entries_tree.mp listed with rfl | deeper | later
    · exact ⟨_, .here rest⟩
    · obtain ⟨below', grafts⟩ := inner deeper
      exact ⟨_, .inside rest grafts⟩
    · obtain ⟨rest', grafts⟩ := outer later
      exact ⟨_, .beside below grafts⟩

theorem Grafts.roots (grafts : Grafts id s s' under under' f f') : f'.roots = f.roots := by
  induction grafts with
  | here rest => rfl
  | inside rest deeper ih => rfl
  | beside below later ih => rw [roots_tree, roots_tree, ih]

theorem Grafts.region (grafts : Grafts id s s' under under' f f') : id :: under.ids ⊆ f.ids := by
  induction grafts with
  | here rest => exact (List.sublist_append_left _ _).cons_cons id |>.subset
  | inside rest deeper ih => exact fun x member => List.mem_cons_of_mem _ (List.mem_append_left _ (ih member))
  | beside below later ih => exact fun x member => List.mem_cons_of_mem _ (List.mem_append_right _ (ih member))

theorem Grafts.ids_perm (grafts : Grafts id s s' under under' f f') : (f'.ids ++ under.ids).Perm (f.ids ++ under'.ids) := by
  rw [List.perm_iff_count]
  intro x
  induction grafts with
  | here rest =>
    simp only [ids_tree, List.count_append, List.count_cons]
    omega
  | inside rest deeper ih | beside below later ih =>
    simp only [ids_tree, List.count_append, List.count_cons] at ih ⊢
    omega

theorem Grafts.nests {fit : Scope → Prop} {above : Scope} (grafts : Grafts id s s' under under' f f')
    (nested : f.Nests (fun _ t => fit t) above) (new : fit s') (newBelow : under'.Nests (fun _ t => fit t) s') :
    f'.Nests (fun _ t => fit t) above := by
  induction grafts generalizing above with
  | here rest => exact ⟨new, newBelow, nested.2.2⟩
  | inside rest deeper ih => exact ⟨nested.1, ih nested.2.1, nested.2.2⟩
  | beside below later ih => exact ⟨nested.1, nested.2.1, ih nested.2.2⟩

theorem Grafts.exists_entry (grafts : Grafts id s s' under under' f f') :
    ∃ entry ∈ f'.entries parent, entry.id = id ∧ entry.scope = s' ∧ entry.below = under' := by
  induction grafts generalizing parent with
  | here rest => exact ⟨_, mem_entries_tree.mpr (Or.inl rfl), rfl, rfl, rfl⟩
  | inside rest deeper ih =>
    obtain ⟨entry, listed, same⟩ := @ih (some _)
    exact ⟨entry, mem_entries_tree.mpr (Or.inr (Or.inl listed)), same⟩
  | beside below later ih =>
    obtain ⟨entry, listed, same⟩ := @ih parent
    exact ⟨entry, mem_entries_tree.mpr (Or.inr (Or.inr listed)), same⟩

end Forest

namespace Graph

variable {g v : Graph} {id x : ScopeId} {s s' t : Scope} {under under' below around f f' : Forest} {parent : Option ScopeId}
  {entry : Forest.Entry} {up : List ScopeId}

-- A graph that differs from another below one scope only shows the grafted forest.
theorem Shows.graft (shown : g.Shows parent f) (nodup : f.ids.Nodup) (grafts : Forest.Grafts id s s' under under' f f')
    (place : ∀ q, g.get? id = some (s.linked q under.roots) → v.get? id = some (s'.linked q under'.roots))
    (lower : v.Shows (some id) under') (frame : ∀ x ∈ f.ids, x ∉ id :: under.ids → v.get? x = g.get? x) :
    v.Shows parent f' := by
  induction grafts generalizing parent with
  | here rest =>
    obtain ⟨here, -, beside⟩ := shown
    refine ⟨place parent here, lower, beside.frame fun x member => frame x (by simp [member]) fun inside => ?_⟩
    rw [Forest.ids_tree, ← List.cons_append] at nodup
    exact List.disjoint_of_nodup_append nodup inside member
  | @inside known t below below' rest deeper ih =>
    obtain ⟨here, beneath, beside⟩ := shown
    rw [Forest.ids_tree, List.nodup_cons, List.mem_append, not_or] at nodup
    obtain ⟨⟨new, -⟩, apart⟩ := nodup
    refine ⟨?_, ih beneath apart.of_append_left fun x member => frame x (by simp [member]), beside.frame ?_⟩
    · rw [frame known (by simp) fun inside => new (deeper.region inside), here, deeper.roots]
    · intro x member
      exact frame x (by simp [member]) fun inside => List.disjoint_of_nodup_append apart (deeper.region inside) member
  | @beside known t below rest rest' later ih =>
    obtain ⟨here, beneath, beside⟩ := shown
    rw [Forest.ids_tree, List.nodup_cons, List.mem_append, not_or] at nodup
    obtain ⟨⟨-, new⟩, apart⟩ := nodup
    refine ⟨?_, beneath.frame ?_, ih beside apart.of_append_right fun x member => frame x (by simp [member])⟩
    · rw [frame known (by simp) fun inside => new (later.region inside), here]
    · intro x member
      exact frame x (by simp [member]) fun inside => List.disjoint_of_nodup_append apart member (later.region inside)

section Loose

-- One of the trees is loose, and the scope it is to meet stands in another one.
variable (picture : g.Pictures (.tree id s below around)) (listed : entry ∈ around.entries none)
include picture

theorem Pictures.exists_depth : ∃ depth, g.size = depth + 1 ∧ Uniting.Settles depth below := by
  have levels := picture.shows.height_le_size picture.nodup
  simp only [Forest.height] at levels
  exact ⟨g.size - 1, by omega, Uniting.settles below (by omega)⟩

include listed

theorem Pictures.exists_way :
    ∃ up, g.Chain entry.parent up ∧ (up ++ entry.id :: (entry.below.ids ++ id :: below.ids)).Nodup := by
  have top : g.Chain none [] := rfl
  obtain ⟨up, above, inside⟩ := picture.shows.2.2.exists_chain top listed
  refine ⟨up, above, List.nodup_iff_count_le_one.mpr fun x => ?_⟩
  have counted := List.nodup_iff_count_le_one.mp picture.nodup x
  have fewer := inside.count_le x
  simp only [Forest.ids_tree, List.nil_append, List.count_append, List.count_cons] at counted fewer ⊢
  omega

end Loose

end Graph

namespace Uniting

-- A graph whose scopes were united: what is left is pictured by a forest, which no retired id is part of.
structure Ends (g : Graph) (v : Uniting) (after : Forest) : Prop where
  missing : v.settle.missing = none
  size : v.settle.graph.size = g.size
  root : v.settle.graph.root = g.root
  apart : (after.ids ++ v.forward.map Prod.fst).Nodup
  known : ∀ x, g.contains x = true ↔ x ∈ after.ids ∨ x ∈ v.forward.map Prod.fst
  targets : ∀ pair ∈ v.forward, pair.2 ∈ after.ids
  picture : v.settle.graph.Pictures (after.mapScopes (·.rebind v.forward.survivor))

variable {g : Graph} {u v : Uniting} {id : ScopeId} {s s' : Scope} {below around new : Forest} {entry : Forest.Entry}
  {gone : Forwarding}

theorem Effect.grafted (effect : u.Effect v (entry.id :: (entry.below.ids ++ id :: below.ids)) (entry.id :: new.ids) gone)
    (fresh : u.forward = []) (complete : u.missing = none) (picture : u.graph.Pictures (.tree id s below around))
    (listed : entry ∈ around.entries none) (shown : v.graph.Shows entry.parent (.tree entry.id s' new .nil))
    (permuted : (new.ids ++ gone.map Prod.fst).Perm (entry.below.ids ++ id :: below.ids))
    (targets : ∀ pair ∈ gone, pair.2 ∈ entry.id :: new.ids) :
    ∃ after, Forest.Grafts entry.id entry.scope s' entry.below new around after ∧ v.Ends u.graph after := by
  obtain ⟨after, grafts⟩ := Forest.exists_grafts listed s' new
  have counted := List.nodup_iff_count_le_one.mp picture.nodup
  simp only [Forest.ids_tree, List.count_append, List.count_cons] at counted
  have total : (after.ids ++ gone.map Prod.fst).Perm (id :: (below.ids ++ around.ids)) := by
    rw [List.perm_iff_count]
    intro x
    have moved := grafts.ids_perm.count_eq x
    have kept := permuted.count_eq x
    simp only [List.count_append, List.count_cons] at moved kept ⊢
    omega
  have apart : (after.ids ++ gone.map Prod.fst).Nodup := total.nodup_iff.mpr picture.nodup
  have around_apart {x : ScopeId} (member : x ∈ around.ids) : x ∉ id :: below.ids := by
    intro inside
    have once := counted x
    have first := List.count_pos_iff.mpr member
    have second := List.count_pos_iff.mpr inside
    simp only [List.count_cons] at second
    omega
  -- outside the two regions nothing changes
  have shown' : v.graph.Shows none after := by
    refine picture.shows.2.2.graft ?_ grafts ?_ shown.2.1 ?_
    · exact (List.nodup_cons.mp picture.nodup).2.of_append_right
    · intro q here
      have there := picture.shows.2.2.atEntry listed
      rw [here] at there
      have same : q = entry.parent := congrArg Scope.parent (Option.some.inj there)
      rw [same]
      exact shown.1
    · intro x member outside
      refine effect.frame x ?_
      simp only [List.mem_cons, List.mem_append, not_or] at outside ⊢
      exact ⟨outside.1, outside.2, by simpa using around_apart member⟩
  have members {x : ScopeId} : x ∈ after.ids ∨ x ∈ gone.map Prod.fst ↔ x ∈ id :: (below.ids ++ around.ids) := by
    rw [← List.mem_append, total.mem_iff]
  have kept : entry.id :: new.ids ⊆ after.ids := by
    obtain ⟨entry', listed', same, -, same'⟩ := @Forest.Grafts.exists_entry _ _ _ _ _ _ _ none grafts
    rw [← same, ← same']
    exact (Forest.entry_ids_sublist listed').subset
  obtain ⟨missing, size, root, pictured⟩ := effect.settled fresh shown' apart kept (by
    intro x t found outside
    have member := picture.complete x t found
    rcases members.mpr member with kept | retired
    · exact kept
    · refine absurd ?_ outside
      have inside := permuted.subset (List.mem_append_right _ retired)
      exact List.mem_cons_of_mem _ inside)
  have forward : v.forward = gone := by rw [effect.forward, fresh, List.append_nil]
  refine ⟨after, grafts, missing.trans complete, size, root, ?_, ?_, ?_, ?_⟩
  · rwa [forward]
  · intro x
    rw [forward, members, ← picture.mem_iff, Forest.ids_tree]
  · intro pair member
    rw [forward] at member
    exact kept (targets pair member)
  · rwa [forward]

variable (picture : g.Pictures (.tree id s below around)) (listed : entry ∈ around.entries none)
include picture listed

theorem join_ends :
    ∃ after, Forest.Grafts entry.id entry.scope (entry.scope.unite s) entry.below (entry.below.absorb below) around after ∧
      (join entry.id id { graph := g }).Ends g after ∧
      (join entry.id id { graph := g }).graph.conflicts =
        g.conflicts ++ entry.scope.kind.conflicts (g.fullName entry.id) s.kind := by
  obtain ⟨depth, size, inner⟩ := picture.exists_depth
  obtain ⟨up, above, nodup⟩ := picture.exists_way listed
  obtain ⟨here, lower, beside⟩ := picture.shows
  obtain ⟨v, joined, shown, effect, conflicts⟩ :=
    join_settles (u := { graph := g }) inner (beside.tree listed) ⟨here, lower, trivial⟩ above nodup
  have joined : join entry.id id { graph := g } = v := by
    rw [join, size]
    exact joined
  rw [joined]
  obtain ⟨after, grafts, ends⟩ := effect.grafted rfl rfl picture listed shown (by
    rw [List.perm_iff_count]
    intro x
    have kept := (entry.below.absorb_ids_perm below).count_eq x
    simp only [List.map_append, List.map_cons, List.map_nil, List.count_append, List.count_cons, List.count_nil] at kept ⊢
    omega) (by
    intro pair member
    rcases List.mem_append.mp member with lower | last
    · exact List.mem_cons_of_mem _ (entry.below.retired_target below pair lower)
    · rw [List.mem_singleton.mp last]
      exact List.mem_cons_self)
  exact ⟨after, grafts, ends, conflicts⟩

theorem place_ends :
    ∃ after, Forest.Grafts entry.id entry.scope entry.scope entry.below (entry.below.place id s below) around after ∧
      (place entry.id id { graph := g }).2.Ends g after ∧
      (place entry.id id { graph := g }).2.graph.conflicts = g.conflicts := by
  obtain ⟨depth, size, inner⟩ := picture.exists_depth
  obtain ⟨up, above, nodup⟩ := picture.exists_way listed
  obtain ⟨here, lower, beside⟩ := picture.shows
  obtain ⟨v, placed, shown, effect, conflicts⟩ :=
    place_settles (u := { graph := g }) inner (beside.tree listed) ⟨here, lower, trivial⟩ above nodup
  have placed : (place entry.id id { graph := g }).2 = v := by
    rw [← placed, ← size]
    unfold place placeWith
    split <;> rfl
  rw [placed]
  obtain ⟨after, grafts, ends⟩ := effect.grafted rfl rfl picture listed shown
    (entry.below.place_ids_perm id s below fun under => under.absorb_ids_perm below) (by
    intro pair member
    exact List.mem_cons_of_mem _
      (entry.below.placeRetired_target id s below (fun under => under.retired_target below) pair member))
  exact ⟨after, grafts, ends, conflicts⟩

end Uniting

namespace Graph

variable {g : Graph} {id x : ScopeId}

-- A scope is cut off from a forest, and what is not below it stands in the rest.
theorem IsForest.exists_loose (forest : g.IsForest) (live : g.contains id = true) (live' : g.contains x = true)
    (outside : id ∉ g.ancestorsAndSelf x) :
    ∃ s below around, (g.detach id).Pictures (.tree id s below around) ∧ ∃ entry ∈ around.entries none, entry.id = x := by
  rw [forest.mem_ancestorsAndSelf_iff live'] at outside
  obtain ⟨s, found⟩ := contains_iff.mp live
  obtain ⟨t, found'⟩ := contains_iff.mp live'
  have loose : (g.detach id).get? id = some { s with parent := none } := by
    rw [forest.get?_detach, found, Option.map_some, if_pos rfl]
  obtain ⟨s', below, around, picture⟩ := (forest.detach id).exists_pictures_first loose rfl
  refine ⟨s', below, around, picture, Forest.exists_entry_of_mem_ids ?_⟩
  have there : (g.detach id).contains x = true := by
    rw [contains, forest.get?_detach, found']
    rfl
  have member := picture.mem_iff.mpr there
  rw [Forest.ids_tree, List.mem_cons, List.mem_append] at member
  rcases member with same | lower | rest
  · exact absurd (same ▸ .refl) outside
  · obtain ⟨r, first, path⟩ := picture.shows.2.1.reachable lower
    have lists : (g.detach id).Lists id r := ⟨_, picture.shows.1, first⟩
    exact absurd ((path.head lists).lift (fun y => y) fun _ _ lists => (forest.lists_detach.mp lists).1) outside
  · exact rest

end Graph

end ScopeAtlas
