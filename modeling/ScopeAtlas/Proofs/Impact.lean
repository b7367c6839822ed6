import ScopeAtlas.Proofs.Indexes
import Mathlib.Order.Lattice.Nat

namespace ScopeAtlas

variable {Count : Type}

namespace Edge

variable {added : List (Edge Count)} {n m : Nat} {x y id : ScopeId}

inductive Path (added : List (Edge Count)) : Nat → ScopeId → ScopeId → Prop
  | here (x : ScopeId) : Path added 0 x x
  | step {e : Edge Count} {n : Nat} {y : ScopeId} (member : e ∈ added) (further : Path added n e.target y) :
      Path added (n + 1) e.source y

-- The number of edges of a shortest path.
noncomputable def distance (added : List (Edge Count)) (x y : ScopeId) : Nat := sInf {n | Path added n x y}

structure Away (added : List (Edge Count)) (id : ScopeId) (n : Nat) (x : ScopeId) : Prop where
  path : Path added n x id
  least : ∀ m < n, ¬ Path added m x id

theorem path_zero : Path added 0 x y ↔ x = y := by
  constructor
  · rintro ⟨⟩
    rfl
  · rintro rfl
    exact .here x

theorem Path.away_distance (path : Path added n x id) : Away added id (distance added x id) x := by
  have attained : distance added x id ∈ {n | Path added n x id} := Nat.sInf_mem ⟨n, path⟩
  refine ⟨attained, fun m shorter path' => ?_⟩
  have reached : m ∈ {n | Path added n x id} := path'
  exact Nat.notMem_of_lt_sInf shorter reached

theorem Path.exists_away (path : Path added n x id) : ∃ m ≤ n, Away added id m x :=
  ⟨_, Nat.sInf_le path, path.away_distance⟩

theorem Away.distance_eq (away : Away added id n x) : distance added x id = n := by
  refine Nat.le_antisymm (Nat.sInf_le away.path) ?_
  by_contra closer
  exact away.least _ (Nat.lt_of_not_le closer) away.path.away_distance.path

theorem away_zero : Away added id 0 x ↔ x = id :=
  ⟨fun away => path_zero.mp away.path, fun same => ⟨path_zero.mpr same, fun m below => absurd below (Nat.not_lt_zero m)⟩⟩

-- One edge further: not reached in fewer, and by an edge to a scope one level nearer.
theorem away_succ : Away added id (n + 1) x ↔
    (¬ ∃ m ≤ n, Path added m x id) ∧ ∃ e ∈ added, e.source = x ∧ Away added id n e.target := by
  constructor
  · rintro ⟨path, least⟩
    refine ⟨fun ⟨m, shorter, path'⟩ => least m (Nat.lt_succ_of_le shorter) path', ?_⟩
    cases path with
    | step member further =>
      exact ⟨_, member, rfl, further, fun m shorter path' => least (m + 1) (Nat.succ_lt_succ shorter) (.step member path')⟩
  · rintro ⟨fresh, e, member, rfl, away⟩
    exact ⟨.step member away.path, fun m shorter path => fresh ⟨m, Nat.le_of_lt_succ shorter, path⟩⟩

end Edge

namespace CallGraph

open Edge

variable {g : CallGraph Count} {added : List (Edge Count)} {depth n : Nat} {x id : ScopeId}
  {seen frontier candidates : List ScopeId}

section Searching

theorem mem_fresh : x ∈ fresh seen candidates ↔ x ∈ candidates ∧ x ∉ seen := by
  induction candidates generalizing seen with
  | nil => simp [fresh]
  | cons first rest ih =>
    rw [fresh]
    split
    · rename_i known
      rw [ih, List.mem_cons]
      have known : first ∈ seen := by simpa using known
      grind
    · rename_i new
      rw [List.mem_cons, ih, List.mem_cons, List.mem_cons]
      have new : first ∉ seen := by simpa using new
      grind

theorem nodup_fresh : (fresh seen candidates).Nodup := by
  induction candidates generalizing seen with
  | nil => exact List.nodup_nil
  | cons first rest ih =>
    rw [fresh]
    split
    · exact ih
    · refine List.nodup_cons.mpr ⟨fun again => ?_, ih⟩
      exact (mem_fresh.mp again).2 List.mem_cons_self

def found (g : CallGraph Count) (seen frontier : List ScopeId) : List ScopeId :=
  fresh seen (frontier.flatMap fun id => (g.edgesTo id).map (·.source))

theorem impactFrom_nil : g.impactFrom depth seen [] = [] := by
  cases depth <;> rfl

-- That the search stops at a level without finds changes nothing, since it would find nothing from there on.
theorem impactFrom_succ : g.impactFrom (depth + 1) seen frontier =
    g.found seen frontier ++ g.impactFrom depth (seen ++ g.found seen frontier) (g.found seen frontier) := by
  rw [impactFrom]
  split
  · rename_i none
    have none : g.found seen frontier = [] := none
    rw [none, impactFrom_nil, List.append_nil]
  · rfl

theorem impactFrom_prefix : g.impactFrom depth seen frontier <+: g.impactFrom (depth + 1) seen frontier := by
  induction depth generalizing seen frontier with
  | zero => exact List.nil_prefix
  | succ depth ih =>
    rw [impactFrom_succ, impactFrom_succ]
    exact (List.prefix_append_right_inj _).mpr ih

theorem mem_sources_edgesTo [Add Count] {y : ScopeId} :
    x ∈ ((ofEdges added).edgesTo y).map (·.source) ↔ ∃ e ∈ added, e.source = x ∧ e.target = y := by
  rw [List.mem_map]
  constructor
  · rintro ⟨known, member, rfl⟩
    obtain ⟨listed, rfl⟩ := mem_edgesTo.mp member
    obtain ⟨e, member, linked⟩ := List.mem_map.mp (mem_links_tally.mp (List.mem_map_of_mem listed))
    exact ⟨e, member, congrArg Link.source linked, congrArg Link.target linked⟩
  · rintro ⟨e, member, rfl, rfl⟩
    obtain ⟨known, listed, linked⟩ := List.mem_map.mp (mem_links_tally.mpr (List.mem_map_of_mem member))
    exact ⟨known, mem_edgesTo.mpr ⟨listed, congrArg Link.target linked⟩, congrArg Link.source linked⟩

end Searching

-- The state of a search when so many levels are taken.
structure Level (added : List (Edge Count)) (id : ScopeId) (n : Nat) (seen frontier : List ScopeId) : Prop where
  seen : ∀ x, x ∈ seen ↔ ∃ m ≤ n, Path added m x id
  frontier : ∀ x, x ∈ frontier ↔ Away added id n x

theorem level_zero : Level added id 0 [id] [id] where
  seen x := by simp [path_zero]
  frontier x := by rw [List.mem_singleton, away_zero]

variable [Add Count]

theorem Level.mem_found (level : Level added id n seen frontier) :
    x ∈ (ofEdges added).found seen frontier ↔ Away added id (n + 1) x := by
  rw [found, mem_fresh, away_succ, level.seen, and_comm]
  refine and_congr_right fun _ => ?_
  simp only [List.mem_flatMap, mem_sources_edgesTo, level.frontier]
  constructor
  · rintro ⟨y, away, e, member, rfl, rfl⟩
    exact ⟨e, member, rfl, away⟩
  · rintro ⟨e, member, rfl, away⟩
    exact ⟨e.target, away, e, member, rfl, rfl⟩

theorem Level.next (level : Level added id n seen frontier) :
    Level added id (n + 1) (seen ++ (ofEdges added).found seen frontier) ((ofEdges added).found seen frontier) where
  seen x := by
    rw [List.mem_append, level.seen, level.mem_found]
    constructor
    · rintro (⟨m, within, path⟩ | away)
      · exact ⟨m, Nat.le_succ_of_le within, path⟩
      · exact ⟨n + 1, Nat.le_refl _, away.path⟩
    · rintro ⟨m, within, path⟩
      obtain ⟨k, shorter, away⟩ := path.exists_away
      rcases Nat.lt_or_ge n k with beyond | inside
      · obtain rfl : k = n + 1 := by omega
        exact Or.inr away
      · exact Or.inl ⟨k, inside, away.path⟩
  frontier x := level.mem_found

theorem Level.mem_impactFrom (level : Level added id n seen frontier) :
    x ∈ (ofEdges added).impactFrom depth seen frontier ↔ ∃ k, n < k ∧ k ≤ n + depth ∧ Away added id k x := by
  induction depth generalizing n seen frontier with
  | zero =>
    refine ⟨fun member => absurd member List.not_mem_nil, ?_⟩
    rintro ⟨k, beyond, within, -⟩
    omega
  | succ depth ih =>
    rw [impactFrom_succ, List.mem_append, level.mem_found, ih level.next]
    constructor
    · rintro (away | ⟨k, beyond, within, away⟩)
      · exact ⟨n + 1, by omega, by omega, away⟩
      · exact ⟨k, by omega, by omega, away⟩
    · rintro ⟨k, beyond, within, away⟩
      rcases Nat.eq_or_lt_of_le (Nat.succ_le_of_lt beyond) with rfl | further
      · exact Or.inl away
      · exact Or.inr ⟨k, further, by omega, away⟩

-- No scope comes twice, and none before one that is nearer.
theorem Level.pairwise_impactFrom (level : Level added id n seen frontier) :
    ((ofEdges added).impactFrom depth seen frontier).Pairwise fun x y =>
      x ≠ y ∧ distance added x id ≤ distance added y id := by
  induction depth generalizing n seen frontier with
  | zero => exact List.Pairwise.nil
  | succ depth ih =>
    rw [impactFrom_succ]
    refine List.pairwise_append.mpr ⟨?_, ih level.next, ?_⟩
    · refine nodup_fresh.imp_of_mem ?_
      intro x y first second apart
      rw [(level.mem_found.mp first).distance_eq, (level.mem_found.mp second).distance_eq]
      exact ⟨apart, Nat.le_refl _⟩
    · intro x first y later
      obtain ⟨k, beyond, -, away⟩ := level.next.mem_impactFrom.mp later
      have near := (level.mem_found.mp first).distance_eq
      have far := away.distance_eq
      refine ⟨?_, by omega⟩
      rintro rfl
      omega

-- The impact of a scope within a depth: exactly the other scopes from which a path of at most so many edges leads to
-- it, each once, the nearer before the farther; a greater depth only appends to it.
theorem impact_is_bounded_search (added : List (Edge Count)) (id : ScopeId) (depth : Nat) :
    (∀ x, x ∈ (ofEdges added).impact id depth ↔ x ≠ id ∧ ∃ n, 1 ≤ n ∧ n ≤ depth ∧ Path added n x id) ∧
      ((ofEdges added).impact id depth).Nodup ∧
      ((ofEdges added).impact id depth).Pairwise (fun x y => distance added x id ≤ distance added y id) ∧
      (ofEdges added).impact id depth <+: (ofEdges added).impact id (depth + 1) := by
  have ordered := @Level.pairwise_impactFrom _ added depth 0 id [id] [id] _ level_zero
  refine ⟨?_, ordered.imp And.left, ordered.imp And.right, impactFrom_prefix⟩
  intro x
  rw [impact, level_zero.mem_impactFrom]
  constructor
  · rintro ⟨n, least, within, away⟩
    refine ⟨?_, n, least, by omega, away.path⟩
    rintro rfl
    exact away.least 0 least (.here x)
  · rintro ⟨other, n, least, within, path⟩
    obtain ⟨m, shorter, away⟩ := path.exists_away
    refine ⟨m, Nat.pos_of_ne_zero ?_, by omega, away⟩
    rintro rfl
    exact other (away_zero.mp away)

end CallGraph

end ScopeAtlas
