import ScopeAtlas.Proofs.Contributions
import ScopeAtlas.Proofs.Invariants

namespace ScopeAtlas

def Graph.keyPath (g : Graph) (id : ScopeId) : List Key :=
  ((g.ancestorsAndSelf id).reverse.filterMap g.get?).map Scope.key

namespace Forest

variable {f mine theirs : Forest} {parent : Option ScopeId} {path : List Key} {x y : ScopeId} {s t : Scope} {below : Forest}

section Retiring

variable {fits : Scope → Scope → Prop} {above : Scope} (sound : ∀ {above s : Scope}, fits above s → s.Sound)

include sound in
theorem find_retired (joins : Joins fits) (left : mine.Nests fits above) (right : theirs.Nests fits above)
    (distinct : theirs.Distinct) {k : Key} {under : Forest} (here : mine.find k = some (x, s, under))
    (there : theirs.find k = some (y, t, below)) :
    (y, x) ∈ mine.retired theirs ∧ under.retired below ⊆ mine.retired theirs := by
  induction theirs generalizing mine s under with
  | nil => cases there
  | tree id t' below' rest _ outer =>
    obtain ⟨fit, nested, beside⟩ := right
    rw [retired_tree]
    rw [find] at there
    split at there
    · rename_i same
      cases there
      have partner := partner?_eq_find sound left (sound fit)
      rw [same, here, Option.map_some] at partner
      have gone : mine.placeRetired y t below = under.retired below ++ [(y, x)] := by
        rw [placeRetired, partner]
      rw [gone]
      exact ⟨by simp, fun pair member => by simp [member]⟩
    · rename_i other
      have kept : (mine.place id t' below').find k = some (x, s, under) := by
        rw [find_place sound left (sound fit), if_neg other, here]
      obtain ⟨gone, lower⟩ := outer (left.place joins fit nested) beside distinct.2.2 kept there
      exact ⟨by simp [gone], fun pair member => by simp [lower member]⟩

-- Where two forests hold a scope at one path, that of the second is retired in favour of that of the first.
include sound in
theorem at?_retired (joins : Joins fits) (left : mine.Nests fits above) (right : theirs.Nests fits above)
    (distinct : theirs.Distinct) {under : Forest} (here : mine.at? path = some (x, s, under))
    (there : theirs.at? path = some (y, t, below)) : (y, x) ∈ mine.retired theirs := by
  induction path generalizing mine theirs above with
  | nil => cases here
  | cons k path ih =>
    cases path with
    | nil => exact (find_retired sound joins left right distinct here there).1
    | cons k' path =>
      rw [at?] at here there
      obtain ⟨⟨x', s', under'⟩, first, here⟩ := Option.bind_eq_some_iff.mp here
      obtain ⟨⟨y', t', below'⟩, first', there⟩ := Option.bind_eq_some_iff.mp there
      obtain ⟨-, lower⟩ := find_retired sound joins left right distinct first first'
      obtain ⟨-, nested⟩ := left.find first
      obtain ⟨-, nested'⟩ := right.find first'
      exact lower (ih (nested.mono fun _ => joins.left) (nested'.mono fun _ => joins.right) (distinct.find first') here there)

end Retiring

theorem mem_entries_of_find {k : Key} (found : f.find k = some (x, s, below)) :
    ⟨parent, x, s, below⟩ ∈ f.entries parent := by
  induction f with
  | nil => cases found
  | tree id t under rest _ outer =>
    rw [find] at found
    split at found
    · cases found
      exact mem_entries_tree.mpr (Or.inl rfl)
    · exact mem_entries_tree.mpr (Or.inr (Or.inr (outer found)))

theorem at?_concat (f : Forest) (path : List Key) (k : Key) :
    f.at? (path ++ [k]) = if path = [] then f.find k else (f.at? path).bind fun found => found.2.2.find k := by
  induction path generalizing f with
  | nil => rfl
  | cons k' path ih =>
    cases path with
    | nil => rfl
    | cons k'' path =>
      rw [if_neg (List.cons_ne_nil _ _), at?, Option.bind_assoc]
      rw [List.cons_append, List.cons_append, at?]
      refine Option.bind_congr fun found _ => ?_
      have lower := ih found.2.2
      rwa [if_neg (List.cons_ne_nil _ _)] at lower

-- What is found along a path is in the forest, right below what the path without its last key leads to.
theorem mem_entries_of_at? (found : f.at? path = some (x, s, below)) :
    ⟨((f.at? path.dropLast).map (·.1)).or parent, x, s, below⟩ ∈ f.entries parent := by
  induction path using List.reverseRecOn generalizing x s below with
  | nil => cases found
  | append_singleton path k ih =>
    rw [at?_concat] at found
    rw [List.dropLast_concat]
    split at found
    · rename_i first
      rw [first]
      exact mem_entries_of_find found
    · obtain ⟨⟨x', s', under⟩, upper, found⟩ := Option.bind_eq_some_iff.mp found
      rw [upper]
      exact entries_below (ih upper) (mem_entries_of_find found)

theorem mem_ids_of_at? (found : f.at? path = some (x, s, below)) : x ∈ f.ids := by
  rw [← @ids_entries f none]
  exact List.mem_map.mpr ⟨_, mem_entries_of_at? found, rfl⟩

theorem key_of_at? (found : f.at? path = some (x, s, below)) : path.getLast? = some s.key := by
  induction path using List.reverseRecOn with
  | nil => cases found
  | append_singleton path k =>
    rw [at?_concat] at found
    rw [List.getLast?_concat]
    split at found
    · rw [key_of_find found]
    · obtain ⟨⟨_, _, under⟩, -, found⟩ := Option.bind_eq_some_iff.mp found
      rw [key_of_find found]

theorem at?_dropLast (found : f.at? path = some (x, s, below)) :
    path.dropLast = [] ∨ ∃ upper, f.at? path.dropLast = some upper := by
  induction path using List.reverseRecOn with
  | nil => cases found
  | append_singleton path k =>
    rw [at?_concat] at found
    rw [List.dropLast_concat]
    split at found
    · rename_i first
      exact Or.inl first
    · obtain ⟨upper, above, -⟩ := Option.bind_eq_some_iff.mp found
      exact Or.inr ⟨upper, above⟩

theorem Distinct.at?_rest {id : ScopeId} {t : Scope} {under rest : Forest} {found : ScopeId × Scope × Forest}
    (distinct : (tree id t under rest).Distinct) (later : rest.at? path = some found) :
    (tree id t under rest).at? path = some found := by
  have first : ∀ k, rest.find k ≠ none → (tree id t under rest).find k = rest.find k := by
    intro k present
    have listed : k ∈ rest.keys := by
      by_contra absent
      exact present (find_eq_none.mpr absent)
    have other : ¬ t.key = k := fun same => distinct.1 (same ▸ listed)
    rw [Forest.find, if_neg other]
  cases path with
  | nil => cases later
  | cons k path =>
    cases path with
    | nil =>
      rw [at?] at later ⊢
      have present : rest.find k ≠ none := by simp [later]
      rw [first k present, later]
    | cons k' path =>
      rw [at?] at later ⊢
      rw [first k ?_, later]
      intro none
      rw [none] at later
      cases later

theorem Distinct.exists_path (distinct : f.Distinct) (member : x ∈ f.ids) : ∃ path s below, f.at? path = some (x, s, below) := by
  induction f with
  | nil => cases member
  | tree id t under rest inner outer =>
    rw [ids_tree, List.mem_cons, List.mem_append] at member
    rcases member with rfl | deeper | later
    · exact ⟨[t.key], t, under, by simp [at?, Forest.find]⟩
    · obtain ⟨path, s, below, found⟩ := inner distinct.2.1 deeper
      cases path with
      | nil => cases found
      | cons k path => exact ⟨t.key :: k :: path, s, below, by simp [at?, Forest.find, found]⟩
    · obtain ⟨path, s, below, found⟩ := outer distinct.2.2 later
      exact ⟨path, s, below, distinct.at?_rest found⟩

end Forest

namespace Graph

variable {g : Graph} {f : Forest} {parent : Option ScopeId} {up : List ScopeId} {path : List Key} {x : ScopeId} {s : Scope}
  {below : Forest}

theorem Shows.keyPath (shown : g.Shows parent f) (above : g.Chain parent up) (nodup : (up ++ f.ids).Nodup)
    (found : f.at? path = some (x, s, below)) :
    g.keyPath x = (up.reverse.filterMap g.get?).map Scope.key ++ path := by
  induction path generalizing f parent up with
  | nil => cases found
  | cons k path ih =>
    have step : ∀ {x s below}, f.find k = some (x, s, below) → g.get? x = some (s.linked parent below.roots) ∧
        g.Shows (some x) below ∧ ((x :: up) ++ below.ids).Nodup ∧
        (((x :: up).reverse.filterMap g.get?).map Scope.key) = (up.reverse.filterMap g.get?).map Scope.key ++ [k] := by
      intro x s below first
      have listed := @Forest.mem_entries_of_find f parent x s below k first
      have here := shown.atEntry listed
      refine ⟨here, shown.below listed, ?_, ?_⟩
      · have sub := (List.Sublist.refl up).append (Forest.entry_ids_sublist listed)
        exact List.perm_middle.nodup_iff.mp (nodup.sublist sub)
      · have own : s.key = k := Forest.key_of_find first
        have key : (s.linked parent below.roots).key = k := own
        simp [List.filterMap_append, here, key]
    cases path with
    | nil =>
      obtain ⟨here, -, apart, keys⟩ := step found
      rw [Graph.keyPath, ancestorsAndSelf_eq here above (List.nodup_append.mp apart).1, keys]
    | cons k' path =>
      rw [Forest.at?] at found
      obtain ⟨⟨x', s', under⟩, first, found⟩ := Option.bind_eq_some_iff.mp found
      obtain ⟨here, shown', apart, keys⟩ := step first
      have chain : g.Chain (some x') (x' :: up) := ⟨rfl, _, here, above⟩
      rw [ih shown' chain apart found, keys, List.append_assoc, List.singleton_append]

theorem AtRest.at?_keyPath {strict : Prop} (rest : g.AtRest strict f) (live : g.get? x = some s) :
    ∃ t below, f.at? (g.keyPath x) = some (x, t, below) := by
  obtain ⟨path, t, below, found⟩ := rest.distinct.exists_path (rest.picture.complete x s live)
  have top : g.Chain none [] := rfl
  have same := rest.picture.shows.keyPath top (by simpa using rest.picture.nodup) found
  rw [same]
  exact ⟨t, below, found⟩

theorem AtRest.of_at? {strict : Prop} (rest : g.AtRest strict f) (found : f.at? path = some (x, s, below)) :
    g.get? x = some (s.linked ((f.at? path.dropLast).map (·.1)) below.roots) ∧ g.keyPath x = path := by
  have top : g.Chain none [] := rfl
  have same := rest.picture.shows.keyPath top (by simpa using rest.picture.nodup) found
  have here := rest.picture.shows.atEntry (@Forest.mem_entries_of_at? f none path x s below found)
  rw [Option.or_none] at here
  exact ⟨here, same⟩

end Graph

end ScopeAtlas
