import ScopeAtlas.Proofs.Searches

namespace ScopeAtlas

variable {α β : Type}

theorem ok_of_bind {q : Except Fault α} {f : α → Except Fault β} {b : β} (run : q >>= f = .ok b) :
    ∃ a, q = .ok a ∧ f a = .ok b := by
  cases q with
  | ok a => exact ⟨a, rfl, run⟩
  | error fault => cases run

theorem ok_of_searchEach {search : α → Except Fault (List ScopeId)} {places : List α} {found : List ScopeId}
    (run : searchEach search places = .ok found) : ∀ place ∈ places, ∃ here, search place = .ok here ∧ here ⊆ found := by
  have joined : ∀ start, places.foldlM (fun found place => return addNewIds found (← search place)) start = .ok found →
      start ⊆ found ∧ ∀ place ∈ places, ∃ here, search place = .ok here ∧ here ⊆ found := by
    clear run
    induction places with
    | nil =>
      intro start run
      cases run
      exact ⟨List.Subset.refl _, List.forall_mem_nil _⟩
    | cons place rest ih =>
      intro start run
      rw [List.foldlM_cons] at run
      obtain ⟨next, first, later⟩ := ok_of_bind run
      obtain ⟨here, searched, same⟩ := ok_of_bind first
      cases same
      obtain ⟨kept, others⟩ := ih _ later
      refine ⟨fun x old => kept (mem_addNewIds.mpr (Or.inl old)), List.forall_mem_cons.mpr ⟨⟨here, searched, ?_⟩, others⟩⟩
      exact fun x new => kept (mem_addNewIds.mpr (Or.inr new))
  exact (joined [] run).2

theorem ok_of_mapM {search : α → Except Fault β} {places : List α} {found : List β} (run : places.mapM search = .ok found) :
    ∀ place ∈ places, ∃ here ∈ found, search place = .ok here := by
  induction places generalizing found with
  | nil => exact List.forall_mem_nil _
  | cons place rest ih =>
    rw [List.mapM_cons] at run
    obtain ⟨here, searched, run⟩ := ok_of_bind run
    obtain ⟨others, later, same⟩ := ok_of_bind run
    cases same
    refine List.forall_mem_cons.mpr ⟨⟨here, List.mem_cons_self, searched⟩, ?_⟩
    intro place' listed
    obtain ⟨here', member, searched'⟩ := ih later place' listed
    exact ⟨here', List.mem_cons_of_mem _ member, searched'⟩

-- Whatever answer the one search gives, the other gives it too.
def Refines (q q' : Except Fault α) : Prop := ∀ a, q = .ok a → q' = .ok a

namespace Refines

variable {q q' : Except Fault α}

theorem refl (q : Except Fault α) : Refines q q := fun _ => id

theorem bind {f f' : α → Except Fault β} (first : Refines q q') (further : ∀ a, Refines (f a) (f' a)) :
    Refines (q >>= f) (q' >>= f') := by
  intro b run
  obtain ⟨a, answer, later⟩ := ok_of_bind run
  rw [first a answer]
  exact further a b later

theorem searchEach {search search' : α → Except Fault (List ScopeId)} (each : ∀ place, Refines (search place) (search' place))
    (places : List α) : Refines (searchEach search places) (searchEach search' places) := by
  unfold ScopeAtlas.searchEach
  generalize ([] : List ScopeId) = start
  induction places generalizing start with
  | nil => exact refl _
  | cons place rest ih =>
    rw [List.foldlM_cons, List.foldlM_cons]
    exact ((each place).bind fun _ => refl _).bind ih

end Refines

namespace Graph

variable {g : Graph} {parents parents' : Parents} {bound bound' : Nat} {t x y : ScopeId} {waiting done found found' : List ScopeId}

theorem climbWithin_refines (more : ∀ x, Refines (parents x) (parents' x)) (bound : Nat) (waiting done : List ScopeId) :
    Refines (climbWithin parents bound waiting done) (climbWithin parents' bound waiting done) := by
  induction bound generalizing waiting done with
  | zero => exact Refines.refl _
  | succ bound ih =>
    rw [climbWithin, climbWithin]
    split
    · exact Refines.refl _
    · exact (more _).bind fun _ => ih _ _

theorem candidatesWith_refines (more : ∀ x, Refines (parents x) (parents' x)) (u : TypeUse) :
    Refines (u.candidatesWith parents g) (u.candidatesWith parents' g) := by
  have members : ∀ category name x,
      Refines (g.membersWith parents category name x) (g.membersWith parents' category name x) := by
    intro category name x
    refine (Refines.refl _).bind fun own => (Refines.refl _).bind fun s => ?_
    split
    · exact (climbWithin_refines more _ _ _).bind fun _ => Refines.refl _
    · exact Refines.refl _
  unfold TypeUse.candidatesWith
  split
  · exact Refines.refl _
  split
  · exact (Refines.searchEach (members _ _) _).bind fun _ => Refines.refl _
  · exact Refines.refl _

theorem parentsWith_refines (more : ∀ x, Refines (parents x) (parents' x)) (t : ScopeId) :
    Refines (g.parentsWith parents t) (g.parentsWith parents' t) := by
  unfold parentsWith
  split
  · exact Refines.refl _
  · exact (Refines.searchEach (candidatesWith_refines more) _).bind fun _ => Refines.refl _

theorem parentsWithin_refines (le : bound ≤ bound') (t : ScopeId) :
    Refines (g.parentsWithin bound t) (g.parentsWithin bound' t) := by
  induction bound generalizing bound' t with
  | zero =>
    intro found answer
    cases answer
  | succ bound ih =>
    obtain ⟨bound', rfl⟩ := Nat.exists_eq_add_of_le' le
    exact parentsWith_refines (fun x => ih (Nat.le_add_left bound bound') x) t

theorem parentsWithin_unique (answer : g.parentsWithin bound t = .ok found) (answer' : g.parentsWithin bound' t = .ok found') :
    found = found' := by
  have one := parentsWithin_refines (Nat.le_max_left bound bound') t found answer
  have other := parentsWithin_refines (Nat.le_max_right bound bound') t found' answer'
  rw [one] at other
  exact Except.ok.inj other

theorem climbWithin_closed (climbed : climbWithin parents bound waiting done = .ok found) :
    (∀ x ∈ waiting, x ∈ found) ∧ (∀ x ∈ done, x ∈ found) ∧
      ∀ x ∈ found, x ∈ done ∨ ∃ above, parents x = .ok above ∧ ∀ p ∈ above, p ∈ found := by
  induction bound generalizing waiting done with
  | zero =>
    rw [climbWithin] at climbed
    split at climbed
    · rename_i all
      cases climbed
      exact ⟨fun x listed => by simpa using List.all_eq_true.mp all x listed, fun _ => id, fun _ => Or.inl⟩
    · cases climbed
  | succ bound ih =>
    rw [climbWithin] at climbed
    cases first : waiting.dropWhile done.contains with
    | nil =>
      rw [first] at climbed
      cases climbed
      exact ⟨fun x listed => by simpa using List.dropWhile_eq_nil_iff.mp first x listed, fun _ => id, fun _ => Or.inl⟩
    | cons x rest =>
      rw [first] at climbed
      obtain ⟨above, answer, further⟩ := ok_of_bind climbed
      obtain ⟨ahead, walked, closed⟩ := ih further
      refine ⟨?_, fun y old => walked y (List.mem_append_left _ old), ?_⟩
      · intro y listed
        rw [← List.takeWhile_append_dropWhile (p := done.contains) (l := waiting), first] at listed
        rcases List.mem_append.mp listed with passed | later
        · exact walked y (List.mem_append_left _ (by simpa using List.mem_takeWhile_imp passed))
        · rcases List.mem_cons.mp later with rfl | later
          · exact walked y (by simp)
          · exact ahead y (List.mem_append_right _ later)
      · intro y member
        rcases closed y member with old | parents
        · rcases List.mem_append.mp old with old | new
          · exact Or.inl old
          · cases List.mem_singleton.mp new
            exact Or.inr ⟨above, answer, fun p listed => ahead p (List.mem_append_left _ listed)⟩
        · exact Or.inr parents

theorem climbWithin_extends (climbed : climbWithin parents bound waiting done = .ok found) (apart : done.Nodup) :
    done <+: found ∧ found.Nodup := by
  induction bound generalizing waiting done with
  | zero =>
    rw [climbWithin] at climbed
    split at climbed
    · cases climbed
      exact ⟨List.prefix_refl _, apart⟩
    · cases climbed
  | succ bound ih =>
    rw [climbWithin] at climbed
    cases first : waiting.dropWhile done.contains with
    | nil =>
      rw [first] at climbed
      cases climbed
      exact ⟨List.prefix_refl _, apart⟩
    | cons x rest =>
      rw [first] at climbed
      obtain ⟨above, -, further⟩ := ok_of_bind climbed
      obtain ⟨before, once⟩ := ih further (nodup_concat apart (not_mem_of_dropWhile first))
      exact ⟨(List.prefix_append done [x]).trans before, once⟩

theorem lineageWith_eq_cons (climbed : g.lineageWith parents t = .ok found) :
    ∃ above, found = t :: above ∧ found.Nodup := by
  rw [lineageWith, climbWithin] at climbed
  obtain ⟨first, -, further⟩ := ok_of_bind climbed
  obtain ⟨⟨above, same⟩, once⟩ := climbWithin_extends further (List.nodup_singleton t)
  exact ⟨above, same.symm, once⟩

def Inherits (g : Graph) (x y : ScopeId) : Prop := ∃ bound found, g.parentsWithin bound x = .ok found ∧ y ∈ found

end Graph

open Relation

-- The search for a use asks for the parents of a type.
def TypeUse.Consults (g : Graph) (u : TypeUse) (x : ScopeId) : Prop := ∃ a, u.Enters g a ∧ ReflTransGen g.Inherits a x

namespace Graph

-- To find the parents of a type, those of another have to be found first.
def Needs (g : Graph) (t x : ScopeId) : Prop := ∃ s, g.get? t = some s ∧ ∃ p ∈ s.parentTable, p.use.Consults g x

-- The needs of a type lead into a circle.
def Tangled (g : Graph) (t : ScopeId) : Prop := ∃ x, ReflTransGen g.Needs t x ∧ TransGen g.Needs x x

variable {g : Graph} {bound n : Nat} {t x y : ScopeId} {u : TypeUse} {found : List ScopeId}

theorem mem_lineageWith_of_inherits (climbed : g.lineageWith (g.parentsWithin n) t = .ok found)
    (reached : ReflTransGen g.Inherits t x) : x ∈ found := by
  obtain ⟨ahead, -, closed⟩ := climbWithin_closed climbed
  induction reached with
  | refl => exact ahead t List.mem_cons_self
  | tail _ inherits ih =>
    obtain ⟨above, answer, inside⟩ := (closed _ ih).resolve_left List.not_mem_nil
    obtain ⟨bound, above', answer', member⟩ := inherits
    exact inside _ (parentsWithin_unique answer' answer ▸ member)

theorem ok_of_lineageWith (climbed : g.lineageWith (g.parentsWithin n) t = .ok found) (reached : ReflTransGen g.Inherits t x) :
    ∃ above, g.parentsWithin n x = .ok above := by
  obtain ⟨-, -, closed⟩ := climbWithin_closed climbed
  obtain ⟨above, answer, -⟩ :=
    (closed x (mem_lineageWith_of_inherits climbed reached)).resolve_left List.not_mem_nil
  exact ⟨above, answer⟩

theorem ok_of_candidatesWith (run : u.candidatesWith (g.parentsWithin n) g = .ok found) (consults : u.Consults g x) :
    ∃ above, g.parentsWithin n x = .ok above := by
  obtain ⟨a, enters, reached⟩ := consults
  have live : g.contains u.scope = true := by
    by_contra dead
    have around := enters.around
    rw [ancestorsAndSelf, if_neg dead] at around
    cases around
  unfold TypeUse.candidatesWith at run
  rw [if_neg (by simp [enters.named, live]), if_pos enters.plain] at run
  obtain ⟨enclosing, searched, -⟩ := ok_of_bind run
  obtain ⟨here, members, -⟩ := ok_of_searchEach searched a enters.around
  obtain ⟨own, -, members⟩ := ok_of_bind members
  obtain ⟨s, found, members⟩ := ok_of_bind members
  have type : (s.category == .type) = true := by
    have type := enters.type
    unfold scope at found
    unfold hasCategory at type
    cases slot : g.get? a with
    | none => simp [slot] at found
    | some s' =>
      rw [slot] at found type
      cases found
      exact type
  rw [if_pos type] at members
  obtain ⟨lineage, climbed, -⟩ := ok_of_bind members
  exact ok_of_lineageWith climbed reached

variable (tree : g.IsOneTree)
include tree

theorem IsOneTree.findsParents {known : ScopeId → Prop} (closed : ∀ x y, known x → g.Inherits x y → known y)
    (each : ∀ x, known x → ∃ above, g.parentsWithin n x = .ok above) :
    g.FindsParents False (g.parentsWithin n) known := by
  intro x here
  obtain ⟨above, answer⟩ := each x here
  have types := tree.yields_parentsWithin n x
  rw [answer] at types ⊢
  exact fun p listed => ⟨types.live p listed, closed x p here ⟨n, above, answer, listed⟩⟩

theorem IsOneTree.candidatesWith_ok_iff : (∃ found, u.candidatesWith (g.parentsWithin n) g = .ok found) ↔
    ∀ x, u.Consults g x → ∃ above, g.parentsWithin n x = .ok above := by
  constructor
  · rintro ⟨found, run⟩ x consults
    exact ok_of_candidatesWith run consults
  · intro each
    have finds : g.FindsParents False (g.parentsWithin n) (u.Consults g) := by
      refine tree.findsParents ?_ each
      rintro x y ⟨a, enters, reached⟩ inherits
      exact ⟨a, enters, reached.tail inherits⟩
    exact (tree.yields_candidatesWith finds fun x enters => ⟨x, enters, .refl⟩).exists_ok

-- One more type is found through those that it needs, and through no others.
theorem IsOneTree.parentsWithin_succ_ok_iff : (∃ found, g.parentsWithin (n + 1) t = .ok found) ↔
    ∀ x, g.Needs t x → ∃ above, g.parentsWithin n x = .ok above := by
  constructor
  · rintro ⟨found, run⟩ x ⟨s, here, p, listed, consults⟩
    rw [parentsWithin, parentsWith, here, Option.bind_some] at run
    unfold Scope.parentTable at listed
    cases type : s.type? with
    | none => simp [type] at listed
    | some definition =>
      simp only [type, Option.map_some, Option.getD_some] at run listed
      obtain ⟨all, searched, -⟩ := ok_of_bind run
      rw [TypeDefinition.uses_eq] at searched
      obtain ⟨candidates, run, -⟩ := ok_of_searchEach searched p.use (List.mem_map_of_mem listed)
      exact ok_of_candidatesWith run consults
  · intro each
    have finds : g.FindsParents False (g.parentsWithin n) (g.Needs t) := by
      refine tree.findsParents ?_ each
      rintro x y ⟨s, here, p, listed, a, enters, reached⟩ inherits
      exact ⟨s, here, p, listed, a, enters, reached.tail inherits⟩
    refine (tree.yields_parentsWith finds ?_).exists_ok
    exact fun s here p listed x enters => ⟨s, here, p, listed, x, enters, .refl⟩

omit tree

theorem Tangled.of_needs (needs : g.Needs t x) (tangled : g.Tangled x) : g.Tangled t := by
  obtain ⟨y, reached, circle⟩ := tangled
  exact ⟨y, reached.head needs, circle⟩

theorem Tangled.exists_needs (tangled : g.Tangled t) : ∃ x, g.Needs t x ∧ g.Tangled x := by
  obtain ⟨y, reached, circle⟩ := tangled
  rcases reached.cases_head with rfl | ⟨x, needs, reached⟩
  · obtain ⟨x, needs, back⟩ := TransGen.head'_iff.mp circle
    exact ⟨x, needs, t, back, circle⟩
  · exact ⟨x, needs, y, reached, circle⟩

include tree

-- A tangled type needs a tangled one, which has one step less to be found.
theorem IsOneTree.not_tangled (answer : g.parentsWithin n t = .ok found) : ¬ g.Tangled t := by
  induction n generalizing t found with
  | zero => cases answer
  | succ n ih =>
    intro tangled
    obtain ⟨x, needs, tangled⟩ := tangled.exists_needs
    obtain ⟨above, answer⟩ := tree.parentsWithin_succ_ok_iff.mp ⟨found, answer⟩ x needs
    exact ih answer tangled

omit tree

-- A type that is not tangled is not on the way to itself, so a step further makes the way longer.
theorem way_cons {way : List ScopeId} (apart : way.Nodup) (leads : ∀ y ∈ way, y < g.size ∧ TransGen g.Needs y t)
    (untangled : ¬ g.Tangled t) (needs : g.Needs t x) :
    (t :: way).Nodup ∧ (∀ y ∈ t :: way, y < g.size ∧ TransGen g.Needs y x) ∧ way.length < g.size := by
  have fresh : t ∉ way := fun listed => untangled ⟨t, .refl, (leads t listed).2⟩
  have apart' : (t :: way).Nodup := List.nodup_cons.mpr ⟨fresh, apart⟩
  have inside : t < g.size := by
    obtain ⟨s, here, -⟩ := needs
    exact lt_size_of_get? here
  have leads' : ∀ y ∈ t :: way, y < g.size ∧ TransGen g.Needs y x := by
    refine List.forall_mem_cons.mpr ⟨⟨inside, .single needs⟩, fun y listed => ?_⟩
    exact ⟨(leads y listed).1, (leads y listed).2.tail needs⟩
  have short : (t :: way).length ≤ (List.range g.size).length :=
    (apart'.subperm fun y listed => List.mem_range.mpr (leads' y listed).1).length_le
  rw [List.length_range] at short
  exact ⟨apart', leads', short⟩

include tree

-- The way that needs lead is no longer than the arena.
theorem IsOneTree.parentsWithin_ok {way : List ScopeId} (apart : way.Nodup)
    (leads : ∀ y ∈ way, y < g.size ∧ TransGen g.Needs y t) (enough : g.size ≤ way.length + n) (untangled : ¬ g.Tangled t) :
    ∃ found, g.parentsWithin (n + 1) t = .ok found := by
  induction n generalizing t way with
  | zero =>
    refine tree.parentsWithin_succ_ok_iff.mpr fun x needs => ?_
    obtain ⟨-, -, short⟩ := way_cons apart leads untangled needs
    omega
  | succ n ih =>
    refine tree.parentsWithin_succ_ok_iff.mpr fun x needs => ?_
    obtain ⟨apart', leads', -⟩ := way_cons apart leads untangled needs
    refine ih apart' leads' ?_ fun tangled => untangled (.of_needs needs tangled)
    rw [List.length_cons]
    omega

theorem IsOneTree.parents_ok_iff : (∃ found, g.parents t = .ok found) ↔ ¬ g.Tangled t := by
  constructor
  · rintro ⟨found, answer⟩
    exact tree.not_tangled answer
  · exact tree.parentsWithin_ok List.nodup_nil (List.forall_mem_nil _) (by simp)

theorem IsOneTree.parents_eq (answer : g.parentsWithin n t = .ok found) : g.parents t = .ok found := by
  obtain ⟨found', answer'⟩ := tree.parents_ok_iff.mpr (tree.not_tangled answer)
  rw [answer', parentsWithin_unique answer answer']

theorem IsOneTree.unbounded_of_tangled (tangled : g.Tangled t) (bound : Nat) :
    g.parentsWithin bound t = .error .unbounded := by
  have outcome := tree.yields_parentsWithin bound t
  cases answer : g.parentsWithin bound t with
  | ok found => exact absurd tangled (tree.not_tangled answer)
  | error fault =>
    rw [answer] at outcome
    rw [outcome.2]

theorem IsOneTree.findsParents_unless_tangled : g.FindsParents (∃ t, g.Tangled t) g.parents fun _ => True := by
  intro t _
  by_cases tangled : g.Tangled t
  · rw [parents, tree.unbounded_of_tangled tangled]
    exact ⟨⟨t, tangled⟩, rfl⟩
  · obtain ⟨found, answer⟩ := tree.parents_ok_iff.mpr tangled
    have types := tree.yields_parentsWithin (g.size + 1) t
    rw [← parents, answer] at types
    rw [answer]
    exact fun p listed => ⟨types.live p listed, trivial⟩

theorem IsOneTree.settled (untangled : ∀ t, ¬ g.Tangled t) : g.Settled :=
  tree.findsParents (fun _ _ _ _ => trivial) fun _ _ => tree.parents_ok_iff.mpr (untangled _)

omit tree

-- What a type is derived from is written right outside of it, so only a type inside another has needs.
theorem NamesOwners.nested_of_needs {s : Scope} (owners : g.NamesOwners t s) (here : g.get? t = some s)
    (needs : g.Needs t x) : ∃ y, s.parent = some y ∧ ∃ a ∈ g.ancestorsAndSelf y, g.hasCategory .type a = true := by
  obtain ⟨s', here', p, listed, a, enters, -⟩ := needs
  cases Option.some.inj (here.symm.trans here')
  have stands : p.use.StandsIn fun y => s.parent = some y ∧ g.contains y = true := by
    unfold Scope.parentTable Scope.type? at listed
    cases kind : s.kind with
    | type definition =>
      rw [kind] at listed
      exact owners.stands.parents definition kind p listed
    | _ => simp [kind] at listed
  obtain ⟨⟨above, -⟩, -, -, -⟩ := stands
  exact ⟨_, above, a, enters.around, enters.type⟩

def heir (name : String) (parent members rest : Content) : Content :=
  .written "class" (.name name (.written "super" parent (.written "block" members .nil))) rest

def heirUnit (classes : Content) : Element :=
  { tag := "unit", attributes := [("filename", "a.cpp")], content := classes : Element }.positioned

-- In a reached graph the parents of a type are found just if it is not tangled, and the types that a use denotes just
-- if none of the types that it asks for is; no bound finds the parents of a tangled type, and what any bound finds is
-- found. A type inside no other type is never tangled, and where no type is tangled every search ends.
theorem searches_end_unless_tangled {admits : Element → Prop} (reached : g.Reached admits) :
    (∀ t, (∃ found, g.parents t = .ok found) ↔ ¬ g.Tangled t) ∧
      (∀ u : TypeUse, (∃ found, u.candidates g = .ok found) ↔ ∀ x, u.Consults g x → ¬ g.Tangled x) ∧
      (∀ t, g.Tangled t → ∀ bound, g.parentsWithin bound t = .error .unbounded) ∧
      (∀ t bound found, g.parentsWithin bound t = .ok found → g.parents t = .ok found) ∧
      (∀ t s, g.get? t = some s → (∀ y, s.parent = some y → ∀ a ∈ g.ancestorsAndSelf y, g.hasCategory .type a = false) →
        ¬ g.Tangled t) ∧
      ((∀ t, ¬ g.Tangled t) → g.Resolves) := by
  obtain ⟨f, rest⟩ := reached.exists_atRest
  have tree := rest.isOneTree
  refine ⟨fun t => tree.parents_ok_iff, ?_, fun t => tree.unbounded_of_tangled, ?_, ?_, ?_⟩
  · intro u
    exact tree.candidatesWith_ok_iff.trans (forall₂_congr fun x _ => tree.parents_ok_iff)
  · intro t bound found answer
    obtain ⟨found', answer'⟩ := tree.parents_ok_iff.mpr (tree.not_tangled answer)
    rw [answer', parentsWithin_unique answer answer']
  · intro t s here unnested tangled
    obtain ⟨x, needs, -⟩ := tangled.exists_needs
    obtain ⟨y, above, a, around, type⟩ := (rest.namesOwners here).nested_of_needs here needs
    rw [unnested y above a around] at type
    cases type
  · exact fun untangled => tree.resolves (tree.settled untangled)

-- `class X : Y { class Part : X { }; }; class Y : X { };` where the part is searched through both.
theorem heirs_of_each_other_resolve :
    ∃ g, surveyUnit .cPlusPlus (heirUnit
        (heir "X" (.name "Y" .nil) (heir "Part" (.name "X" .nil) .nil .nil) (heir "Y" (.name "X" .nil) .nil .nil))) = .ok g ∧
      g.Reached (fun _ => True) ∧ g.lineage 2 = .ok [2, 1, 3] ∧ g.Resolves := by
  obtain ⟨g, surveyed, tested⟩ := @surveyed_single .cPlusPlus (heirUnit
      (heir "X" (.name "Y" .nil) (heir "Part" (.name "X" .nil) .nil .nil) (heir "Y" (.name "X" .nil) .nil .nil)))
    (fun g => (List.range g.size).all (fun t => (g.parents t).toOption.isSome) && (g.lineage 2).toOption == some [2, 1, 3])
    (by decide +kernel)
  obtain ⟨all, lineage⟩ := Bool.and_eq_true_iff.mp tested
  have reached : g.Reached fun _ => True := .surveyed trivial surveyed
  obtain ⟨ends, -, -, -, -, resolves⟩ := searches_end_unless_tangled reached
  refine ⟨g, surveyed, reached, ok_of_toOption (eq_of_beq lineage), resolves fun t => (ends t).mp ?_⟩
  by_cases inside : t < g.size
  · obtain ⟨found, answered⟩ := Option.isSome_iff_exists.mp (List.all_eq_true.mp all t (List.mem_range.mpr inside))
    exact ⟨found, ok_of_toOption answered⟩
  · refine ⟨[], ?_⟩
    rw [parents, parentsWithin, parentsWith, get?_eq_none_of_size_le (Nat.le_of_not_lt inside)]
    rfl

-- `class Outer : Outer::Inner { class Inner : Base { }; };` where the base is searched in what the outer class inherits,
-- which is the inner class.
theorem base_of_inner_heir_never_found :
    ∃ g, surveyUnit .cPlusPlus (heirUnit (heir "Outer"
        (.written "name" (.name "Outer" (.written "operator" (.text "::" .nil) (.name "Inner" .nil))) .nil)
        (heir "Inner" (.name "Base" .nil) .nil .nil) .nil)) = .ok g ∧
      g.Reached (fun _ => True) ∧ ∀ bound, g.parentsWithin bound 2 = .error .unbounded := by
  obtain ⟨g, surveyed, tested⟩ := @surveyed_single .cPlusPlus (heirUnit (heir "Outer"
        (.written "name" (.name "Outer" (.written "operator" (.text "::" .nil) (.name "Inner" .nil))) .nil)
        (heir "Inner" (.name "Base" .nil) .nil .nil) .nil))
    (fun g => (g.parentsWithin 1 1).toOption == some [2] && g.hasCategory .type 1 &&
      (g.get? 2).any fun s => s.parentTable.any fun p =>
        !p.use.name.isEmpty && p.use.qualifiers.isEmpty && (g.ancestorsAndSelf p.use.scope).contains 1)
    (by decide +kernel)
  simp only [Bool.and_eq_true, beq_iff_eq, Option.any_eq_true, List.any_eq_true, Bool.not_eq_true',
    List.contains_iff_mem] at tested
  obtain ⟨⟨parents, type⟩, s, here, p, listed, ⟨named, plain⟩, around⟩ := tested
  have reached : g.Reached fun _ => True := .surveyed trivial surveyed
  obtain ⟨f, rest⟩ := reached.exists_atRest
  have inherits : g.Inherits 1 2 := ⟨1, [2], ok_of_toOption parents, List.mem_singleton_self 2⟩
  have needs : g.Needs 2 2 := ⟨s, here, p, listed, 1, ⟨named, plain, around, type⟩, .single inherits⟩
  exact ⟨g, surveyed, reached, rest.isOneTree.unbounded_of_tangled ⟨2, .refl, .single needs⟩⟩

end Graph

end ScopeAtlas
