import ScopeAtlas.Proofs.Ownership

namespace ScopeAtlas

-- What tells a scope from its siblings.
inductive Key
  | space (name : String) (isGlobal : Bool)
  | type (name : String)
  | method (name : String) (isConstructor isDestructor : Bool) (parameterTypes : List String)
  | block (file position : String)
deriving DecidableEq, Repr

namespace Scope

def key (s : Scope) : Key :=
  match s.kind with
  | .space isGlobal => .space s.name isGlobal
  | .type _ => .type s.name
  | .method m => .method s.name m.isConstructor m.isDestructor m.parameterTypeNames
  | .block => .block ((s.locations.head?.map (·.file)).getD "") ((s.locations.head?.map (·.position)).getD "")

variable {mine theirs s : Scope}

theorem sameEntity_iff (left : mine.Sound) (right : theirs.Sound) :
    mine.sameEntity theirs = true ↔ mine.key = theirs.key := by
  unfold sameEntity key category
  cases here : mine.kind with
  | space x => cases there : theirs.kind <;> simp [ScopeKind.category]
  | type x => cases there : theirs.kind <;> simp [ScopeKind.category]
  | method x => cases there : theirs.kind <;> simp [ScopeKind.category, and_assoc]
  | block =>
    obtain ⟨unnamed, l, only⟩ := left.block here
    cases there : theirs.kind with
    | block =>
      obtain ⟨unnamed', k, only'⟩ := right.block there
      simp [ScopeKind.category, unnamed, unnamed', only, only', Location.sameNode]
    | space y => simp [ScopeKind.category]
    | type y => simp [ScopeKind.category]
    | method y => simp [ScopeKind.category]

theorem uniteAll_typeNames (left right : List Parameter) :
    (Parameter.uniteAll left right).map (·.declaredType.name) = left.map (·.declaredType.name) :=
  Parameter.map_uniteAll fun p q => by rw [p.unite_declaredType q]

theorem key_unite (left : mine.Sound) (right : theirs.Sound) (same : mine.key = theirs.key) :
    (mine.unite theirs).key = mine.key := by
  unfold key at *
  rw [unite_kind, unite_name]
  cases here : mine.kind with
  | space x => cases there : theirs.kind <;> simp_all [ScopeKind.unite]
  | type x => cases there : theirs.kind <;> simp [ScopeKind.unite]
  | method x =>
    cases there : theirs.kind with
    | method y =>
      simp [ScopeKind.unite, MethodDefinition.unite, MethodDefinition.parameterTypeNames, uniteAll_typeNames]
    | block => simp [ScopeKind.unite]
    | space y => simp [ScopeKind.unite]
    | type y => simp [ScopeKind.unite]
  | block =>
    obtain ⟨-, l, only⟩ := left.block here
    cases there : theirs.kind with
    | block =>
      obtain ⟨-, k, only'⟩ := right.block there
      have equal : l.file = k.file ∧ l.position = k.position := by simpa [here, there, only, only'] using same
      simp [ScopeKind.unite, only, only', addLocationTo, Location.sameNode, equal]
    | space y => simp [here, there] at same
    | type y => simp [here, there] at same
    | method y => simp [here, there] at same

@[simp] theorem key_rebind (f : ScopeId → ScopeId) : (s.rebind f).key = s.key := by
  unfold key
  cases kind : s.kind <;>
    simp [Scope.rebind, kind, ScopeKind.rebind, MethodDefinition.rebind, MethodDefinition.parameterTypeNames,
      Parameter.rebind, Function.comp_def]

theorem key_withdraw {file : String} (sound : s.Sound) (seen : s.isIn file = true) (elsewhere : ¬ s.isOnlyIn file = true) :
    (s.withdraw file).key = s.key := by
  unfold key
  cases kind : s.kind with
  | space x => simp [Scope.withdraw, kind, withdrawKind]
  | type x => simp [Scope.withdraw, kind, withdrawKind]
  | method x => simp [Scope.withdraw, kind, withdrawKind, MethodDefinition.parameterTypeNames, Function.comp_def]
  | block => exact (sound.not_block seen (Bool.eq_false_iff.mpr elsewhere) kind).elim

end Scope

namespace Forest

def keys : Forest → List Key
  | nil => []
  | tree _ s _ rest => s.key :: rest.keys

-- No two scopes side by side have one key.
def Distinct : Forest → Prop
  | nil => True
  | tree _ s below rest => s.key ∉ rest.keys ∧ below.Distinct ∧ rest.Distinct

variable {mine theirs f : Forest}

@[simp] theorem keys_append : (mine ++ theirs).keys = mine.keys ++ theirs.keys := by
  induction mine with
  | nil => rfl
  | tree id s below rest _ outer => simp [keys, outer]

theorem distinct_append :
    (mine ++ theirs).Distinct ↔ mine.Distinct ∧ theirs.Distinct ∧ ∀ k ∈ mine.keys, k ∉ theirs.keys := by
  induction mine with
  | nil => simp [Distinct, keys]
  | tree id s below rest _ outer =>
    rw [tree_append, Distinct, Distinct, outer, keys_append, keys]
    simp only [List.mem_append, not_or, List.forall_mem_cons]
    grind

def find (k : Key) : Forest → Option (ScopeId × Scope × Forest)
  | nil => none
  | tree id s below rest => if s.key = k then some (id, s, below) else rest.find k

def at? : List Key → Forest → Option (ScopeId × Scope × Forest)
  | [], _ => none
  | [k], f => f.find k
  | k :: k' :: path, f => (f.find k).bind fun found => found.2.2.at? (k' :: path)

def unites : Option (ScopeId × Scope × Forest) → Option (ScopeId × Scope × Forest) → Option (ScopeId × Scope × Forest)
  | some (x, mine, under), some (_, theirs, below) => some (x, mine.unite theirs, under.absorb below)
  | some found, none => some found
  | none, found => found

theorem key_of_find {k : Key} {x : ScopeId} {s : Scope} {below : Forest} (found : f.find k = some (x, s, below)) :
    s.key = k := by
  induction f with
  | nil => cases found
  | tree id t under rest _ outer =>
    unfold find at found
    split at found
    · rename_i same
      cases found
      exact same
    · exact outer found

theorem find_eq_none {k : Key} : f.find k = none ↔ k ∉ f.keys := by
  induction f with
  | nil => simp [find, keys]
  | tree id s below rest _ outer =>
    unfold find keys
    by_cases same : s.key = k
    · simp [same]
    · simp [same, outer, Ne.symm same]

section Union

variable {fits : Scope → Scope → Prop} {above : Scope}

theorem Nests.find {k : Key} {x : ScopeId} {s : Scope} {below : Forest} (nested : f.Nests fits above)
    (found : f.find k = some (x, s, below)) : fits above s ∧ below.Nests fits s := by
  induction f with
  | nil => cases found
  | tree id t under rest _ outer =>
    unfold Forest.find at found
    split at found
    · cases found
      exact ⟨nested.1, nested.2.1⟩
    · exact outer nested.2.2 found

theorem Distinct.find {k : Key} {x : ScopeId} {s : Scope} {below : Forest} (distinct : f.Distinct)
    (found : f.find k = some (x, s, below)) : below.Distinct := by
  induction f with
  | nil => cases found
  | tree id t under rest _ outer =>
    unfold Forest.find at found
    split at found
    · cases found
      exact distinct.2.1
    · exact outer distinct.2.2 found

variable (sound : ∀ {above s : Scope}, fits above s → s.Sound)

include sound in
theorem partner?_eq_find {s : Scope} (nested : mine.Nests fits above) (here : s.Sound) :
    mine.partner? s = (mine.find s.key).map fun found => (found.1, found.2.2) := by
  induction mine with
  | nil => rfl
  | tree known kept under rest _ outer =>
    have same := Scope.sameEntity_iff (sound nested.1) here
    unfold partner? Forest.find
    by_cases equal : kept.key = s.key
    · simp [same.mpr equal, equal]
    · have differs : kept.sameEntity s = false := Bool.eq_false_iff.mpr fun entity => equal (same.mp entity)
      simp [differs, equal, outer nested.2.2]

include sound in
theorem find_place {id : ScopeId} {s : Scope} {below : Forest} (nested : mine.Nests fits above) (here : s.Sound) (k : Key) :
    (mine.place id s below).find k =
      if s.key = k then unites (mine.find k) (some (id, s, below)) else mine.find k := by
  unfold place
  induction mine with
  | nil =>
    unfold placeWith Forest.find
    rfl
  | tree known kept under rest _ outer =>
    have same := Scope.sameEntity_iff (sound nested.1) here
    unfold placeWith
    by_cases equal : kept.key = s.key
    · have kept' := Scope.key_unite (sound nested.1) here equal
      rw [if_pos (same.mpr equal)]
      unfold Forest.find
      rw [kept', equal]
      split
      · rfl
      · rfl
    · rw [if_neg fun entity => equal (same.mp entity)]
      unfold Forest.find
      rw [outer nested.2.2]
      by_cases first : kept.key = k
      · have other : ¬ s.key = k := fun second => equal (first.trans second.symm)
        simp [first, other]
      · simp [first]

include sound in
theorem find_absorb (joins : Joins fits) (left : mine.Nests fits above) (right : theirs.Nests fits above)
    (distinct : theirs.Distinct) (k : Key) :
    (mine.absorb theirs).find k = unites (mine.find k) (theirs.find k) := by
  induction theirs generalizing mine with
  | nil =>
    show mine.find k = unites (mine.find k) none
    cases mine.find k <;> rfl
  | tree id s below rest _ outer =>
    obtain ⟨here, nested, beside⟩ := right
    rw [absorb_tree, outer (left.place joins here nested) beside distinct.2.2, find_place sound left (sound here)]
    rw [Forest.find.eq_2]
    by_cases same : s.key = k
    · have absent : rest.find k = none := find_eq_none.mpr (same ▸ distinct.1)
      rw [if_pos same, if_pos same, absent]
      rcases mine.find k with _ | ⟨x, m, under⟩ <;> rfl
    · rw [if_neg same, if_neg same]

-- Uniting two forests is a union by paths.
include sound in
theorem at?_absorb (joins : Joins fits) (left : mine.Nests fits above) (right : theirs.Nests fits above)
    (distinct : theirs.Distinct) (path : List Key) :
    (mine.absorb theirs).at? path = unites (mine.at? path) (theirs.at? path) := by
  induction path generalizing mine theirs above with
  | nil => rfl
  | cons k path ih =>
    cases path with
    | nil => exact find_absorb sound joins left right distinct k
    | cons k' path =>
      rw [at?, at?, at?, find_absorb sound joins left right distinct k]
      rcases here : mine.find k with _ | ⟨x, m, under⟩ <;> rcases there : theirs.find k with _ | ⟨y, t, below⟩
      · rfl
      · rfl
      · simp only [unites, Option.bind_some, Option.bind_none]
        cases under.at? (k' :: path) <;> rfl
      · simp only [unites, Option.bind_some]
        obtain ⟨-, nested⟩ := left.find here
        obtain ⟨-, nested'⟩ := right.find there
        exact ih (nested.mono fun _ => joins.left) (nested'.mono fun _ => joins.right) (distinct.find there)

include sound in
theorem Distinct.absorb (joins : Joins fits) (left : mine.Nests fits above) (right : theirs.Nests fits above)
    (distinct : mine.Distinct) (distinct' : theirs.Distinct) : (mine.absorb theirs).Distinct := by
  induction theirs generalizing mine above with
  | nil => exact distinct
  | tree id s below rest inner outer =>
    obtain ⟨here, nested, beside⟩ := right
    rw [absorb_tree]
    refine outer (left.place joins here nested) beside ?_ distinct'.2.2
    rcases mine.place_cases id s below with
      ⟨front, known, kept, under, back, rfl, same, _, placed, _⟩ | ⟨alone, placed, _⟩
    · rw [placed]
      obtain ⟨first, hereKept, nestedKept, last⟩ := nests_append.mp left
      obtain ⟨distinctFront, ⟨fresh, distinctUnder, distinctBack⟩, apart⟩ := distinct_append.mp distinct
      have key := (Scope.sameEntity_iff (sound hereKept) (sound here)).mp same
      have united := Scope.key_unite (sound hereKept) (sound here) key
      refine distinct_append.mpr ⟨distinctFront, ⟨united ▸ fresh, ?_, distinctBack⟩, ?_⟩
      · exact inner (nestedKept.mono fun _ => joins.left) (nested.mono fun _ => joins.right) distinctUnder distinct'.2.1
      · rw [keys, united]
        exact apart
    · rw [placed]
      refine distinct_append.mpr ⟨distinct, ⟨nofun, distinct'.2.1, trivial⟩, ?_⟩
      intro k member listed
      rw [keys, keys, List.mem_singleton] at listed
      rw [partner?_eq_find sound left (sound here), Option.map_eq_none_iff, find_eq_none] at alone
      exact alone (listed ▸ member)

end Union

section Relabeling

variable {F : Forest → Forest} {move rename : ScopeId → ScopeId} (relabels : Relabels F move rename)

include relabels

theorem Relabels.keys (f : Forest) : (F f).keys = f.keys := by
  induction f with
  | nil => rw [relabels.nil]
  | tree id s below rest _ outer => rw [relabels.tree, Forest.keys, Forest.keys, Scope.key_rebind, outer]

theorem Relabels.distinct (distinct : f.Distinct) : (F f).Distinct := by
  induction f with
  | nil =>
    rw [relabels.nil]
    trivial
  | tree id s below rest inner outer =>
    rw [relabels.tree]
    refine ⟨?_, inner distinct.2.1, outer distinct.2.2⟩
    rw [Scope.key_rebind, relabels.keys]
    exact distinct.1

theorem Relabels.find (f : Forest) (k : Key) :
    (F f).find k = (f.find k).map fun found => (move found.1, found.2.1.rebind rename, F found.2.2) := by
  induction f with
  | nil =>
    rw [relabels.nil]
    rfl
  | tree id s below rest _ outer =>
    rw [relabels.tree, Forest.find, Forest.find, Scope.key_rebind, outer]
    split <;> rfl

theorem Relabels.at? (f : Forest) (path : List Key) :
    (F f).at? path = (f.at? path).map fun found => (move found.1, found.2.1.rebind rename, F found.2.2) := by
  induction path generalizing f with
  | nil => rfl
  | cons k path ih =>
    cases path with
    | nil => exact relabels.find f k
    | cons k' path =>
      rw [Forest.at?, Forest.at?, relabels.find]
      cases f.find k with
      | none => rfl
      | some found => exact ih found.2.2

theorem Relabels.place {id : ScopeId} {s : Scope} {below : Forest}
    (inner : ∀ under : Forest, F (under.absorb below) = (F under).absorb (F below)) (mine : Forest) :
    F (mine.place id s below) = (F mine).place (move id) (s.rebind rename) (F below) := by
  unfold Forest.place
  induction mine with
  | nil => rw [placeWith, relabels.tree, relabels.nil, placeWith]
  | tree known kept under rest _ outer =>
    rw [relabels.tree, placeWith, placeWith, Scope.rebind_sameEntity]
    split
    · rw [relabels.tree, Scope.rebind_unite, inner]
    · rw [relabels.tree, outer]

-- Uniting forests does not depend on their ids.
theorem Relabels.absorb (mine theirs : Forest) : F (mine.absorb theirs) = (F mine).absorb (F theirs) := by
  induction theirs generalizing mine with
  | nil =>
    rw [relabels.nil]
    rfl
  | tree id s below rest inner outer =>
    rw [relabels.tree, absorb_tree, absorb_tree, outer, relabels.place inner]

end Relabeling

section Withdrawing

variable {fits : Scope → Scope → Prop} {above : Scope} (sound : ∀ {above s : Scope}, fits above s → s.Sound)

include sound in
theorem withdraw_keys_sublist (file : String) (nested : f.Nests fits above) :
    (f.withdraw file).keys.Sublist f.keys := by
  induction f with
  | nil => exact List.Sublist.refl _
  | tree id s below rest _ outer =>
    have later := outer nested.2.2
    unfold withdraw
    by_cases seen : s.isIn file = true
    · by_cases only : s.isOnlyIn file = true
      · simpa [seen, only, keys] using later.cons s.key
      · have kept := Scope.key_withdraw (sound nested.1) seen only
        simpa [seen, only, keys, kept] using later
    · simpa [seen, keys] using later

include sound in
theorem Distinct.withdraw (file : String) (nested : f.Nests fits above) (distinct : f.Distinct) :
    (f.withdraw file).Distinct := by
  induction f generalizing above with
  | nil => trivial
  | tree id s below rest inner outer =>
    obtain ⟨fresh, under, beside⟩ := distinct
    have fresh' : s.key ∉ (rest.withdraw file).keys := fun member =>
      fresh ((withdraw_keys_sublist sound file nested.2.2).subset member)
    have later := outer nested.2.2 beside
    unfold Forest.withdraw
    by_cases seen : s.isIn file = true
    · by_cases only : s.isOnlyIn file = true
      · simpa [seen, only] using later
      · have kept := Scope.key_withdraw (sound nested.1) seen only
        simpa [seen, only, Distinct, kept] using ⟨fresh', inner nested.2.1 under, later⟩
    · simpa [seen, Distinct] using ⟨fresh', under, later⟩

end Withdrawing

def StacksDistinct : Forest → Prop
  | nil => True
  | tree _ _ below rest => below.Distinct ∧ rest.StacksDistinct

theorem StacksDistinct.rebind (rename : ScopeId → ScopeId) (distinct : f.StacksDistinct) :
    (f.mapScopes (·.rebind rename)).StacksDistinct := by
  induction f with
  | nil => trivial
  | tree id s below rest _ outer => exact ⟨(relabels_rebind rename).distinct distinct.1, outer distinct.2⟩

end Forest

theorem Grown.distinct {file : String} {seen : List String} {next : Nat} {f : Forest} (grown : Grown file seen next f) :
    f.StacksDistinct := by
  have joins := Scope.joins_surveyedIn file
  induction grown with
  | start => exact ⟨trivial, trivial⟩
  | opened before opens ih => exact ⟨trivial, ih⟩
  | closed before ih =>
    rename_i seen next id here s m below mine rest
    obtain ⟨fits, nested, -, nestedMine, -⟩ := before.stacks
    have single : (Forest.tree id s below .nil).Nests (Scope.FitsWith (Scope.SurveyedIn file seen)) m :=
      ⟨fits, nested, trivial⟩
    refine Forest.StacksDistinct.rebind _ ⟨?_, ih.2.2⟩
    exact ih.2.1.absorb (fun fits => fits.1.sound) (joins seen) nestedMine single ⟨nofun, ih.1, trivial⟩
  | declared before stands place inFile ih => exact ih
  | called before stands inFile ih => exact ih

end ScopeAtlas
