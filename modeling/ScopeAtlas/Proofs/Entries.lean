import ScopeAtlas.Proofs.History

namespace ScopeAtlas

namespace Forest

structure Entry where
  parent : Option ScopeId
  id : ScopeId
  scope : Scope
  below : Forest

def entries : Option ScopeId → Forest → List Entry
  | _, nil => []
  | parent, tree id s below rest => ⟨parent, id, s, below⟩ :: (below.entries (some id) ++ rest.entries parent)

variable {f : Forest} {parent : Option ScopeId} {entry : Entry} {x : ScopeId}

theorem ids_entries : (f.entries parent).map Entry.id = f.ids := by
  induction f generalizing parent with
  | nil => rfl
  | tree id s below rest inner outer => simp [entries, inner, outer]

theorem mem_entries_tree {id : ScopeId} {s : Scope} {below rest : Forest} :
    entry ∈ (tree id s below rest).entries parent ↔
      entry = ⟨parent, id, s, below⟩ ∨ entry ∈ below.entries (some id) ∨ entry ∈ rest.entries parent := by
  simp [entries]

theorem exists_entry_of_mem_ids (member : x ∈ f.ids) : ∃ entry ∈ f.entries parent, entry.id = x := by
  rw [← @ids_entries f parent] at member
  obtain ⟨entry, listed, same⟩ := List.mem_map.mp member
  exact ⟨entry, listed, same⟩

theorem exists_entry_of_mem_roots (member : x ∈ f.roots) : ∃ entry ∈ f.entries parent, entry.id = x ∧ entry.parent = parent := by
  induction f with
  | nil => cases member
  | tree id s below rest _ outer =>
    rcases List.mem_cons.mp member with rfl | later
    · exact ⟨_, mem_entries_tree.mpr (Or.inl rfl), rfl, rfl⟩
    · obtain ⟨entry, listed, same⟩ := outer later
      exact ⟨entry, mem_entries_tree.mpr (Or.inr (Or.inr listed)), same⟩

theorem entries_below (listed : entry ∈ f.entries parent) {lower : Entry}
    (under : lower ∈ entry.below.entries (some entry.id)) : lower ∈ f.entries parent := by
  induction f generalizing parent with
  | nil => cases listed
  | tree id s below rest inner outer =>
    rw [mem_entries_tree] at listed ⊢
    rcases listed with rfl | deeper | later
    · exact Or.inr (Or.inl under)
    · exact Or.inr (Or.inl (inner deeper))
    · exact Or.inr (Or.inr (outer later))

-- A scope is a root of the forest, or it is listed by the one right above it.
theorem entries_above (listed : entry ∈ f.entries parent) :
    (entry.id ∈ f.roots ∧ entry.parent = parent) ∨
      ∃ upper ∈ f.entries parent, entry.parent = some upper.id ∧ entry.id ∈ upper.below.roots := by
  induction f generalizing parent with
  | nil => cases listed
  | tree id s below rest inner outer =>
    rcases mem_entries_tree.mp listed with rfl | deeper | later
    · exact Or.inl ⟨by simp, rfl⟩
    · refine Or.inr ?_
      rcases inner deeper with ⟨first, above⟩ | ⟨upper, listed', above, lists⟩
      · exact ⟨_, mem_entries_tree.mpr (Or.inl rfl), above, first⟩
      · exact ⟨upper, mem_entries_tree.mpr (Or.inr (Or.inl listed')), above, lists⟩
    · rcases outer later with ⟨first, above⟩ | ⟨upper, listed', above, lists⟩
      · exact Or.inl ⟨by simp [first], above⟩
      · exact Or.inr ⟨upper, mem_entries_tree.mpr (Or.inr (Or.inr listed')), above, lists⟩

theorem entry_ids_sublist (listed : entry ∈ f.entries parent) : (entry.id :: entry.below.ids).Sublist f.ids := by
  induction f generalizing parent with
  | nil => cases listed
  | tree id s below rest inner outer =>
    rw [ids_tree]
    rcases mem_entries_tree.mp listed with rfl | deeper | later
    · exact (List.sublist_append_left _ _).cons_cons id
    · exact ((inner deeper).trans (List.sublist_append_left _ _)).cons id
    · exact ((outer later).trans (List.sublist_append_right _ _)).cons id

theorem Owned.atEntry (owned : f.Owned parent) (listed : entry ∈ f.entries parent) :
    entry.scope.StandsIn (· = entry.id) (fun x => entry.parent = some x) := by
  induction f generalizing parent with
  | nil => cases listed
  | tree id s below rest inner outer =>
    rcases mem_entries_tree.mp listed with rfl | deeper | later
    · exact owned.1
    · exact inner owned.2.1 deeper
    · exact outer owned.2.2 later

theorem Nests.atEntry {fits : Scope → Scope → Prop} {above : Scope} (nested : f.Nests fits above)
    (listed : entry ∈ f.entries parent) : ∃ above, fits above entry.scope := by
  induction f generalizing parent above with
  | nil => cases listed
  | tree id s below rest inner outer =>
    rcases mem_entries_tree.mp listed with rfl | deeper | later
    · exact ⟨above, nested.1⟩
    · exact inner nested.2.1 deeper
    · exact outer nested.2.2 later

theorem nests_of_entries {holds : Scope → Prop} (each : ∀ entry ∈ f.entries parent, holds entry.scope) (above : Scope) :
    f.Nests (fun _ s => holds s) above := by
  induction f generalizing parent above with
  | nil => trivial
  | tree id s below rest inner outer =>
    have under := inner fun entry listed => each entry (mem_entries_tree.mpr (Or.inr (Or.inl listed)))
    have beside := outer fun entry listed => each entry (mem_entries_tree.mpr (Or.inr (Or.inr listed)))
    exact ⟨each _ (mem_entries_tree.mpr (Or.inl rfl)), under s, beside above⟩

theorem Distinct.atEntry (distinct : f.Distinct) (listed : entry ∈ f.entries parent) : entry.below.Distinct := by
  induction f generalizing parent with
  | nil => cases listed
  | tree id s below rest inner outer =>
    rcases mem_entries_tree.mp listed with rfl | deeper | later
    · exact distinct.2.1
    · exact inner distinct.2.1 deeper
    · exact outer distinct.2.2 later

theorem Rooted.roots {strict : Prop} {root : ScopeId} (rooted : f.Rooted strict root) : f.roots = [root] := by
  cases rooted
  rfl

def Entry.mapScopes (change : Scope → Scope) (entry : Entry) : Entry :=
  { entry with scope := change entry.scope, below := entry.below.mapScopes change }

theorem entries_mapScopes (change : Scope → Scope) (f : Forest) (parent : Option ScopeId) :
    (f.mapScopes change).entries parent = (f.entries parent).map (·.mapScopes change) := by
  induction f generalizing parent with
  | nil => rfl
  | tree id s below rest inner outer => rw [mapScopes, entries, entries, inner, outer, List.map_cons, List.map_append]; rfl

end Forest

namespace Graph

variable {g : Graph} {f : Forest} {parent : Option ScopeId} {entry : Forest.Entry} {x : ScopeId} {s : Scope}

theorem Shows.atEntry (shown : g.Shows parent f) (listed : entry ∈ f.entries parent) :
    g.get? entry.id = some (entry.scope.linked entry.parent entry.below.roots) := by
  induction f generalizing parent with
  | nil => cases listed
  | tree id s below rest inner outer =>
    obtain ⟨here, under, beside⟩ := shown
    rcases Forest.mem_entries_tree.mp listed with rfl | deeper | later
    · exact here
    · exact inner under deeper
    · exact outer beside later

theorem Shows.below (shown : g.Shows parent f) (listed : entry ∈ f.entries parent) :
    g.Shows (some entry.id) entry.below := by
  induction f generalizing parent with
  | nil => cases listed
  | tree id s below rest inner outer =>
    obtain ⟨-, under, beside⟩ := shown
    rcases Forest.mem_entries_tree.mp listed with rfl | deeper | later
    · exact under
    · exact inner under deeper
    · exact outer beside later

theorem Shows.tree (shown : g.Shows parent f) (listed : entry ∈ f.entries parent) :
    g.Shows entry.parent (.tree entry.id entry.scope entry.below .nil) :=
  ⟨shown.atEntry listed, shown.below listed, trivial⟩

theorem Pictures.exists_entry (picture : g.Pictures f) (found : g.get? x = some s) :
    ∃ entry ∈ f.entries none, entry.id = x ∧ s = entry.scope.linked entry.parent entry.below.roots := by
  obtain ⟨entry, listed, rfl⟩ := @Forest.exists_entry_of_mem_ids f none x (picture.complete x s found)
  have here := picture.shows.atEntry listed
  rw [found] at here
  exact ⟨entry, listed, rfl, Option.some.inj here⟩

end Graph

end ScopeAtlas
