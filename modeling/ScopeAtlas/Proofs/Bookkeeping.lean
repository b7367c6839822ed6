import ScopeAtlas.Proofs.Gathering

namespace ScopeAtlas

section Surveyed

variable {file : String} {seen : List String} {next : Nat} {f : Forest}

def Forest.tops : Forest → List Scope
  | nil => []
  | tree _ s _ rest => s :: rest.tops

theorem Forest.tops_mapScopes (change : Scope → Scope) (f : Forest) : (f.mapScopes change).tops = f.tops.map change := by
  induction f with
  | nil => rfl
  | tree id s below rest _ outer => rw [mapScopes, tops, tops, List.map_cons, outer]

-- While a scope is open it is seen at the place where it was opened, and nowhere else.
theorem Grown.seen_once (grown : Grown file seen next f) : ∀ s ∈ f.tops, ∃ l, s.locations = [l] ∧ l.file = file := by
  induction grown with
  | start starts => exact List.forall_mem_singleton.mpr starts.place
  | opened before opens ih => exact List.forall_mem_cons.mpr ⟨opens.place, ih⟩
  | closed before ih =>
    rw [Forest.tops_mapScopes, List.forall_mem_map]
    exact (List.forall_mem_cons.mp ih).2
  | declared before stands place inFile ih => exact List.forall_mem_cons.mpr (List.forall_mem_cons.mp ih)
  | called before stands inFile ih => exact List.forall_mem_cons.mpr (List.forall_mem_cons.mp ih)

end Surveyed

namespace Forest

variable {f h : Forest} {strict : Prop} {root root' : ScopeId} {file : String} {above : Scope} {parent : Option ScopeId}

def topFiles : Forest → List String
  | nil => []
  | tree _ s _ _ => s.locations.map (·.file)

theorem topFiles_withdrawBelow (file : String) (f : Forest) :
    (f.withdrawBelow file).topFiles = f.topFiles.filter (· != file) := by
  cases f with
  | nil => rfl
  | tree id s below rest =>
    rw [topFiles, List.filter_map]
    rfl

theorem topFiles_rebind (rename : ScopeId → ScopeId) (f : Forest) :
    (f.mapScopes (·.rebind rename)).topFiles = f.topFiles := by
  cases f <;> rfl

theorem Rooted.topFiles_merged (left : f.Rooted strict root) (right : h.Rooted strict root') (offset : Nat)
    (single : h.topFiles = [file]) (fresh : file ∉ f.topFiles) :
    (f.merged offset h).topFiles = f.topFiles ++ [file] := by
  cases left with
  | @intro s mine isRoot _ _ =>
    cases right with
    | @intro t theirs isRoot' _ _ =>
      obtain ⟨l, only, own⟩ : ∃ l, t.locations = [l] ∧ l.file = file := List.map_eq_singleton_iff.mp single
      have new : l.node ∉ s.locations.map Location.node := by
        intro known
        obtain ⟨k, listed, same⟩ := List.mem_map.mp known
        apply fresh
        exact List.mem_map.mpr ⟨k, listed, (Prod.mk.inj same).1.trans own⟩
      have united : (s.unite (t.rebind (· + offset))).locations = s.locations ++ [l] := by
        have places : (t.rebind (· + offset)).locations = [l] := only
        rw [Scope.unite_locations, places]
        exact Scope.addLocationTo_eq_append new
      obtain ⟨absorbed, -⟩ := @absorb_roots root (root' + offset) s _ mine (theirs.shift offset) isRoot
        (isRoot'.rebind (· + offset))
      rw [merged, topFiles_rebind, shift, shift, absorbed, topFiles, united, List.map_append, List.map_singleton, own]
      rfl

-- What a file shows of a lower scope it shows of those above.
theorem Nests.isIn {entry : Entry} (nested : f.Nests Scope.Fits above) (listed : entry ∈ f.entries parent)
    (seen : entry.scope.isIn file = true) : above.isIn file = true := by
  induction f generalizing above parent with
  | nil => cases listed
  | tree id s below rest inner outer =>
    obtain ⟨fits, under, beside⟩ := nested
    rcases mem_entries_tree.mp listed with rfl | deeper | later
    · exact fits.within.2 file seen
    · exact fits.within.2 file (inner under deeper)
    · exact outer beside later

end Forest

namespace Graph

variable {strict : Prop} {g : Graph} {f : Forest} {x : ScopeId} {s : Scope} {file : String}

theorem AtRest.topFiles (rest : g.AtRest strict f) :
    ∃ s, g.get? g.root = some s ∧ s.locations.map (·.file) = f.topFiles := by
  have shown := rest.picture.shows
  cases rest.rooted with
  | intro isRoot tidy nested => exact ⟨_, shown.1, rfl⟩

theorem AtRest.topFiles_surveyed {p : Profile} {e : Element} (surveyed : surveyUnit p e = .ok g) (rest : g.AtRest strict f) :
    f.topFiles = [e.fileName] := by
  obtain ⟨seen, t, under, -, root, grown, picture⟩ := surveyUnit_grown surveyed
  obtain ⟨l, only, own⟩ := grown.seen_once t List.mem_cons_self
  obtain ⟨s, found, files⟩ := rest.topFiles
  rw [root, picture.shows.1] at found
  cases found
  have places : (t.linked none under.roots).locations = [l] := only
  rw [← files, places, List.map_singleton, own]

theorem AtRest.isIn_topFiles (rest : g.AtRest strict f) (found : g.get? x = some s) (seen : s.isIn file = true) :
    file ∈ f.topFiles := by
  obtain ⟨entry, listed, -, rfl⟩ := rest.picture.exists_entry found
  cases rest.rooted with
  | @intro r below isRoot tidy nested =>
    have atRoot : r.isIn file = true := by
      rcases Forest.mem_entries_tree.mp listed with rfl | deeper | none
      · exact seen
      · exact (nested.imp fun _ _ fits => fits.1).isIn deeper seen
      · cases none
    obtain ⟨l, member, own⟩ := Scope.isIn_iff.mp atRoot
    exact List.mem_map.mpr ⟨l, member, own⟩

end Graph

-- Every place that is written down in a scope lies in a file of a kind.
structure Scope.LiesIn (within : String → Prop) (s : Scope) : Prop where
  locations : ∀ l ∈ s.locations, within l.file
  declared : ∀ v ∈ s.declared.toList, ∀ l ∈ v.locations, within l.file
  calls : ∀ c ∈ s.calls, within c.location.file
  parameters : ∀ p ∈ s.parameterList, ∀ l ∈ p.locations, within l.file
  parents : ∀ p ∈ s.parentTable, ∀ l ∈ p.locations, within l.file

theorem Scope.Sound.liesIn {s : Scope} {within : String → Prop} (sound : s.Sound)
    (inside : ∀ file, s.isIn file = true → within file) : s.LiesIn within where
  locations l member := inside _ (isIn_of_mem member)
  declared v listed l member := by
    obtain ⟨entry, filed, listed⟩ := VariableTable.mem_toList.mp listed
    obtain ⟨-, k, only, seen⟩ := sound.declared entry filed v listed
    rw [only, List.mem_singleton] at member
    exact inside _ (member ▸ seen)
  calls c member := inside _ (sound.calls c member)
  parameters p listed l member := inside _ ((sound.placed_parameters p listed).2 l member)
  parents p listed l member := by
    have placed := sound.placed_parents p listed
    rw [placed.locations] at member
    exact inside _ (placed.within l member)

namespace Codebase

variable {c : Codebase} {f h : Forest} {file : String} {e : Element}

-- The root is seen once in each of the files that are remembered, and every place in the graph lies in one of them.
structure KeepsBooks (c : Codebase) : Prop where
  root : ∃ s, c.graph.get? c.graph.root = some s ∧
    ∀ file, (s.locations.map (·.file)).count file = if file ∈ c.files then 1 else 0
  places : ∀ x s, c.graph.get? x = some s → s.LiesIn (· ∈ c.files)

-- What is kept event by event: the places of the root are those of the files, in the order they came.
structure Tallies (c : Codebase) (f : Forest) : Prop where
  rest : c.graph.AtRest False f
  files : f.topFiles = c.fingerprints.map (·.1)

theorem Tallies.retract (tallies : c.Tallies f) (file : String) : (c.retract file).Tallies (f.withdrawBelow file) where
  rest := tallies.rest.withdrawAndRehome file
  files := by
    rw [Forest.topFiles_withdrawBelow, tallies.files, List.filter_map]
    rfl

theorem Tallies.cleared (tallies : c.Tallies f) (file : String) :
    ∃ f', (c.cleared file).Tallies f' ∧ file ∉ f'.topFiles := by
  unfold Codebase.cleared
  split
  · refine ⟨_, tallies.retract file, ?_⟩
    simp [Forest.topFiles_withdrawBelow]
  · rename_i unknown
    refine ⟨f, tallies, ?_⟩
    rw [tallies.files]
    simpa using unknown

theorem Tallies.bringIn {new : Contribution} (tallies : c.Tallies f) (right : new.graph.AtRest False h)
    (single : h.topFiles = [new.file]) (fresh : new.file ∉ f.topFiles) :
    (c.bringIn new).Tallies (f.merged c.graph.size h) := by
  have others : ∀ known ∈ c.fingerprints, known.1 ≠ new.file := by
    intro known listed same
    apply fresh
    rw [tallies.files]
    exact List.mem_map.mpr ⟨known, listed, same⟩
  have kept : c.fingerprints.filter (·.1 != new.file) = c.fingerprints := by
    rw [List.filter_eq_self]
    intro known listed
    exact bne_iff_ne.mpr (others known listed)
  have unknown : ¬ (c.fingerprints.lookup new.file).isSome = true := by
    rw [Option.not_isSome_iff_eq_none, List.lookup_eq_none_iff]
    intro known listed
    exact bne_iff_ne.mpr (others known listed).symm
  refine ⟨?_, ?_⟩
  · rw [graph_bringIn, if_neg unknown]
    exact tallies.rest.mergeLive right
  · have files := tallies.rest.rooted.topFiles_merged right.rooted c.graph.size single fresh
    rw [files, fingerprints_bringIn, kept, List.map_append, tallies.files]
    rfl

theorem Tallies.happen (tallies : c.Tallies f) (event : Event) : ∃ f', (c.happen event).Tallies f' := by
  cases event with
  | dropped file => exact ⟨_, tallies.retract file⟩
  | taken e =>
    change ∃ f', (c.takeIn e).Tallies f'
    cases surveyed : survey c.tools e with
    | error fault => exact ⟨f, by rwa [Codebase.takeIn, surveyed]⟩
    | ok new =>
      obtain ⟨own, -, p, graph⟩ := survey_ok surveyed
      obtain ⟨f', without, fresh⟩ := tallies.cleared new.file
      obtain ⟨h, right⟩ := Graph.atRest_surveyed False.elim graph
      have single : h.topFiles = [new.file] := own ▸ right.topFiles_surveyed graph
      rw [takeIn_eq surveyed, bringIn_cleared]
      exact ⟨_, without.bringIn right single fresh⟩

theorem served_tallies (tools : Tools) (requests : List Request) : ∃ f, (served tools requests).Tallies f := by
  rw [served_eq]
  refine List.foldlRecOn _ _ (motive := fun c : Codebase => ∃ f, c.Tallies f) ⟨_, Graph.atRest_empty False, rfl⟩ ?_
  intro c tallied event _
  obtain ⟨f, tallies⟩ := tallied
  exact tallies.happen event

theorem mem_files : file ∈ c.files ↔ file ∈ c.fingerprints.map (·.1) :=
  (List.mergeSort_perm _ _).mem_iff

theorem Remembers.nodup_files {ledger : List Element} (remembers : c.Remembers ledger) :
    (c.fingerprints.map (·.1)).Nodup := by
  rw [remembers.fingerprints, List.map_map]
  exact List.pairwise_map.mpr remembers.differ

-- Whatever is asked of a codebase, the files it remembers are those its graph is made of, and those of the units in force.
theorem served_keeps_books (tools : Tools) (requests : List Request) :
    (served tools requests).KeepsBooks ∧
      ∀ file, file ∈ (served tools requests).files ↔ ∃ e ∈ ledger tools requests, e.fileName = file := by
  obtain ⟨f, tallies⟩ := served_tallies tools requests
  have remembers := served_remembers tools requests
  refine ⟨⟨?_, ?_⟩, ?_⟩
  · obtain ⟨s, found, files⟩ := tallies.rest.topFiles
    refine ⟨s, found, ?_⟩
    intro file
    rw [files, tallies.files, List.Nodup.count remembers.nodup_files]
    simp only [mem_files]
  · intro x s found
    apply (tallies.rest.sound found).liesIn
    intro file seen
    have known := tallies.rest.isIn_topFiles found seen
    rw [tallies.files] at known
    exact mem_files.mpr known
  · intro file
    rw [mem_files, remembers.fingerprints]
    simp

end Codebase

end ScopeAtlas
