import ScopeAtlas.Proofs.Growth

namespace ScopeAtlas

-- A relation between a scope and one right below it that survives uniting and renaming.
structure Joins (fits : Scope → Scope → Prop) : Prop where
  left : ∀ {mine theirs s : Scope}, fits mine s → fits (mine.unite theirs) s
  right : ∀ {mine theirs s : Scope}, fits theirs s → fits (mine.unite theirs) s
  unite : ∀ {above mine theirs : Scope}, fits above mine → fits above theirs → mine.sameEntity theirs = true →
    fits above (mine.unite theirs)
  rebind : ∀ {above s : Scope} (f : ScopeId → ScopeId), fits above s → fits (above.rebind f) (s.rebind f)

structure Trims (fits : Scope → Scope → Prop) : Prop where
  trim : ∀ {above s : Scope} {file : String}, fits above s → s.isIn file = true → s.isOnlyIn file = false →
    fits (above.withdraw file) (s.withdraw file)
  spare : ∀ {above s : Scope} {file : String}, fits above s → s.isIn file = false → fits (above.withdraw file) s

namespace Forest

variable {fits : Scope → Scope → Prop} {above : Scope} {mine theirs f : Forest}

theorem nests_append : (mine ++ theirs).Nests fits above ↔ mine.Nests fits above ∧ theirs.Nests fits above := by
  induction mine with
  | nil => exact ⟨fun nested => ⟨trivial, nested⟩, fun nested => nested.2⟩
  | tree id s below rest _ outer =>
    rw [tree_append, Nests, Nests, outer, and_assoc, and_assoc]

theorem Nests.absorb (joins : Joins fits) (left : mine.Nests fits above) (right : theirs.Nests fits above) :
    (mine.absorb theirs).Nests fits above := by
  induction theirs generalizing mine above with
  | nil => exact left
  | tree id s below rest inner outer =>
    obtain ⟨here, nested, beside⟩ := right
    rw [absorb_tree]
    refine outer ?_ beside
    rcases mine.place_cases id s below with
      ⟨front, known, kept, under, back, rfl, same, _, placed, _⟩ | ⟨_, placed, _⟩
    · rw [placed]
      obtain ⟨first, hereKept, nestedKept, last⟩ := nests_append.mp left
      refine nests_append.mpr ⟨first, joins.unite hereKept here same, ?_, last⟩
      exact inner (nestedKept.mono fun _ => joins.left) (nested.mono fun _ => joins.right)
    · rw [placed]
      exact nests_append.mpr ⟨left, here, nested, trivial⟩

theorem Nests.place (joins : Joins fits) {id : ScopeId} {s : Scope} {below : Forest} (left : mine.Nests fits above)
    (here : fits above s) (nested : below.Nests fits s) : (mine.place id s below).Nests fits above :=
  have single : (tree id s below nil).Nests fits above := ⟨here, nested, trivial⟩
  left.absorb joins single

theorem Relabels.nests {F : Forest → Forest} {move rename : ScopeId → ScopeId} (relabels : Relabels F move rename)
    (joins : Joins fits) (nested : f.Nests fits above) : (F f).Nests fits (above.rebind rename) := by
  induction f generalizing above with
  | nil =>
    rw [relabels.nil]
    trivial
  | tree id s below rest inner outer =>
    rw [relabels.tree]
    exact ⟨joins.rebind rename nested.1, inner nested.2.1, outer nested.2.2⟩

theorem Nests.withdraw (trims : Trims fits) (file : String) (nested : f.Nests fits above) :
    (f.withdraw file).Nests fits (above.withdraw file) := by
  induction f generalizing above with
  | nil => trivial
  | tree id s below rest inner outer =>
    obtain ⟨here, nested, beside⟩ := nested
    unfold Forest.withdraw
    by_cases seen : s.isIn file = true
    · by_cases only : s.isOnlyIn file = true
      · simp only [seen, only, Bool.not_true, Bool.false_eq_true, if_false, if_true]
        exact outer beside
      · simp only [seen, only, Bool.not_true, Bool.false_eq_true, if_false]
        exact ⟨trims.trim here seen (Bool.eq_false_iff.mpr only), inner nested, outer beside⟩
    · simp only [seen, Bool.not_false, if_true]
      exact ⟨trims.spare here (Bool.eq_false_iff.mpr seen), nested, outer beside⟩

theorem Nests.imp {fits' : Scope → Scope → Prop} (nested : f.Nests fits above)
    (weaker : ∀ above s, fits above s → fits' above s) : f.Nests fits' above := by
  induction f generalizing above with
  | nil => trivial
  | tree id s below rest inner outer => exact ⟨weaker _ _ nested.1, inner nested.2.1, outer nested.2.2⟩

end Forest

namespace Scope

variable {above mine theirs s : Scope} {extra : Scope → Prop}

-- A scope fits below another: seen in no further file, not global, and sound by itself.
structure Fits (above s : Scope) : Prop where
  within : above.SeenWithin s
  plain : s.isGlobal = false
  sound : s.Sound

structure IsRoot (s : Scope) : Prop where
  global : s.kind = .space true
  unnamed : s.name = ""
  sound : s.Sound

def FitsWith (extra : Scope → Prop) (above s : Scope) : Prop := above.Fits s ∧ extra s

theorem plain_unite (left : mine.isGlobal = false) (right : theirs.isGlobal = false) :
    (mine.unite theirs).isGlobal = false := by
  unfold isGlobal at *
  rw [unite_kind]
  cases here : mine.kind <;> cases there : theirs.kind <;> simp_all [ScopeKind.unite]

theorem SeenWithin.left (within : mine.SeenWithin s) : (mine.unite theirs).SeenWithin s :=
  ⟨within.1, fun file seen => isIn_unite.mpr (Or.inl (within.2 file seen))⟩

theorem SeenWithin.right (within : theirs.SeenWithin s) : (mine.unite theirs).SeenWithin s :=
  ⟨within.1, fun file seen => isIn_unite.mpr (Or.inr (within.2 file seen))⟩

theorem SeenWithin.unite (left : above.SeenWithin mine) (right : above.SeenWithin theirs) :
    above.SeenWithin (mine.unite theirs) := by
  refine ⟨locations_ne_nil_unite left.1, ?_⟩
  intro file seen
  rcases isIn_unite.mp seen with here | there
  · exact left.2 file here
  · exact right.2 file there

theorem joins_fitsWith
    (unite : ∀ {mine theirs : Scope}, mine.Sound → theirs.Sound → extra mine → extra theirs → extra (mine.unite theirs))
    (rebind : ∀ {s : Scope} (f : ScopeId → ScopeId), extra s → extra (s.rebind f)) : Joins (FitsWith extra) where
  left fits := ⟨⟨fits.1.within.left, fits.1.plain, fits.1.sound⟩, fits.2⟩
  right fits := ⟨⟨fits.1.within.right, fits.1.plain, fits.1.sound⟩, fits.2⟩
  unite left right same := by
    refine ⟨⟨left.1.within.unite right.1.within, plain_unite left.1.plain right.1.plain, ?_⟩, ?_⟩
    · exact left.1.sound.unite right.1.sound same
    · exact unite left.1.sound right.1.sound left.2 right.2
  rebind f fits := by
    refine ⟨⟨fits.1.within, ?_, fits.1.sound.rebind f⟩, rebind f fits.2⟩
    have plain := fits.1.plain
    unfold isGlobal Scope.rebind at *
    rename_i s
    cases kind : s.kind <;> simp_all [ScopeKind.rebind]

theorem trims_fitsWith (withdraw : ∀ {s : Scope} (file : String), extra s → extra (s.withdraw file)) :
    Trims (FitsWith extra) where
  trim fits seen elsewhere := by
    rename_i above s file
    have plain := fits.1.plain
    refine ⟨⟨⟨?_, ?_⟩, ?_, fits.1.sound.withdraw ?_⟩, withdraw file fits.2⟩
    · intro none
      have every : ∀ l ∈ s.locations, l.file = file := by
        intro l member
        have dropped := List.filter_eq_nil_iff.mp none l member
        simpa [Location.isIn] using dropped
      have only := isOnlyIn_iff.mpr ⟨fits.1.within.1, every⟩
      rw [elsewhere] at only
      cases only
    · intro other there
      obtain ⟨there, apart⟩ := isIn_withdraw.mp there
      exact isIn_withdraw.mpr ⟨fits.1.within.2 other there, apart⟩
    · unfold isGlobal Scope.withdraw at *
      cases kind : s.kind <;> simp_all [withdrawKind]
    · exact fun block => (fits.1.sound.not_block seen elsewhere block).elim
  spare fits unseen := by
    rename_i above s file
    refine ⟨⟨⟨fits.1.within.1, ?_⟩, fits.1.plain, fits.1.sound⟩, fits.2⟩
    intro other there
    refine isIn_withdraw.mpr ⟨fits.1.within.2 other there, ?_⟩
    rintro rfl
    rw [unseen] at there
    cases there

theorem sound_of_empty {isGlobal : Bool} (kind : s.kind = .space isGlobal) (declared : s.declared = [])
    (calls : s.calls = []) (nodes : (s.locations.map Location.node).Nodup) : s.Sound := by
  refine ⟨?_, nodes, ?_, ?_, ?_, ?_, ?_, ?_, ?_, ?_, ?_, ?_⟩ <;> simp [kind, declared, calls]

theorem IsRoot.sameEntity (left : mine.IsRoot) (right : theirs.IsRoot) : mine.sameEntity theirs = true := by
  simp [Scope.sameEntity, category, ScopeKind.category, left.global, right.global, left.unnamed, right.unnamed]

theorem IsRoot.unite (left : mine.IsRoot) (right : theirs.IsRoot) : (mine.unite theirs).IsRoot where
  global := by rw [unite_kind, left.global, right.global]; rfl
  unnamed := by rw [unite_name, left.unnamed]
  sound := left.sound.unite right.sound (left.sameEntity right)

theorem IsRoot.rebind (root : s.IsRoot) (f : ScopeId → ScopeId) : (s.rebind f).IsRoot where
  global := by simp [Scope.rebind, root.global, ScopeKind.rebind]
  unnamed := root.unnamed
  sound := root.sound.rebind f

theorem IsRoot.withdraw (root : s.IsRoot) (file : String) : (s.withdraw file).IsRoot where
  global := by simp [Scope.withdraw, root.global, withdrawKind]
  unnamed := root.unnamed
  sound := by
    refine root.sound.withdraw ?_
    intro block
    rw [root.global] at block
    cases block

end Scope

namespace Forest

-- Open scopes, the innermost first: each fits the next one, and the last is a root.
def Stacks (fits : Scope → Scope → Prop) (base : Scope → Prop) : Forest → Prop
  | nil => True
  | tree _ s below rest =>
    (match rest with
      | nil => base s
      | tree _ m _ _ => fits m s) ∧ below.Nests fits s ∧ rest.Stacks fits base

variable {fits fits' : Scope → Scope → Prop} {base base' : Scope → Prop} {f rest : Forest}

theorem Stacks.imp (stacked : f.Stacks fits base) (weaker : ∀ above s, fits above s → fits' above s)
    (weaker' : ∀ s, base s → base' s) : f.Stacks fits' base' := by
  induction f with
  | nil => trivial
  | tree id s below rest _ outer =>
    obtain ⟨first, nested, later⟩ := stacked
    refine ⟨?_, nested.imp weaker, outer later⟩
    cases rest with
    | nil => exact weaker' s first
    | tree id m mine rest => exact weaker m s first

theorem Stacks.rebind (joins : Joins fits) (rebase : ∀ {s : Scope} (f : ScopeId → ScopeId), base s → base (s.rebind f))
    (rename : ScopeId → ScopeId) (stacked : f.Stacks fits base) :
    (f.mapScopes (·.rebind rename)).Stacks fits base := by
  induction f with
  | nil => trivial
  | tree id s below rest _ outer =>
    obtain ⟨first, nested, later⟩ := stacked
    refine ⟨?_, (relabels_rebind rename).nests joins nested, outer later⟩
    cases rest with
    | nil => exact rebase rename first
    | tree id m mine rest => exact joins.rebind rename first

theorem Stacks.refill {here : ScopeId} {m m' : Scope} {mine : Forest} (stacked : (tree here m mine rest).Stacks fits base)
    (weaker : ∀ above s, fits above s → fits' above s) (weaker' : ∀ s, base s → base' s)
    (upper : ∀ s, fits' m s → fits' m' s) (lower : ∀ above, fits above m → fits' above m') (root : base m → base' m') :
    (tree here m' mine rest).Stacks fits' base' := by
  obtain ⟨first, nested, later⟩ := stacked
  refine ⟨?_, (nested.imp weaker).mono upper, later.imp weaker weaker'⟩
  cases rest with
  | nil => exact root first
  | tree id outer beside rest => exact lower outer first

theorem Stacks.first {extra : Scope → Prop} {here : ScopeId} {m : Scope} {mine : Forest}
    (stacked : (tree here m mine rest).Stacks (Scope.FitsWith extra) fun s => s.IsRoot ∧ extra s) : extra m := by
  obtain ⟨first, -, -⟩ := stacked
  cases rest with
  | nil => exact first.2
  | tree id outer beside rest => exact first.2

end Forest

namespace Scope

def SurveyedIn (file : String) (seen : List String) (s : Scope) : Prop :=
  (∀ other, s.isIn other = true ↔ other = file) ∧ s.RecordedIn seen

theorem joins_surveyedIn (file : String) (seen : List String) : Joins (FitsWith (SurveyedIn file seen)) := by
  refine joins_fitsWith (fun left right here there => ⟨?_, here.2.unite left right there.2⟩)
    fun f surveyed => ⟨surveyed.1, surveyed.2.rebind f⟩
  intro other
  rw [isIn_unite, here.1 other, there.1 other, or_self]

variable {file : String} {above id : ScopeId} {s : Scope}

theorem isIn_of_place {l : Location} (only : s.locations = [l]) (inFile : l.file = file) (other : String) :
    s.isIn other = true ↔ other = file := by
  rw [isIn_iff, only, ← inFile]
  simp [eq_comm]

theorem Opens.sound (opens : s.Opens file above id) : s.Sound := by
  obtain ⟨l, only, inFile⟩ := opens.place
  have here : s.isIn file = true := (isIn_of_place only inFile file).mpr rfl
  refine ⟨fun block => ⟨opens.block block, l, only⟩, by simp [only], ?_, by simp [opens.declared], ?_, ?_,
    opens.positions, ?_, opens.trimmed, opens.parents, ?_, opens.aligned⟩
  · rw [opens.calls]
    exact nofun
  · rw [opens.declared]
    exact nofun
  · rw [opens.declared]
    exact nofun
  · intro m kind p member
    obtain ⟨k, one, inFile'⟩ := opens.parameters m kind p member
    refine ⟨by simp [one], ?_⟩
    intro k' listed
    rw [one, List.mem_singleton] at listed
    rw [listed, inFile']
    exact here
  · intro t kind p member
    refine (opens.derived t kind p member).mono ?_
    rintro other rfl
    exact here

theorem Opens.fits {m : Scope} (opens : s.Opens file above id) (seen : m.isIn file = true) : m.Fits s := by
  obtain ⟨l, only, inFile⟩ := opens.place
  refine ⟨⟨by simp [only], ?_⟩, opens.plain, opens.sound⟩
  intro other there
  obtain ⟨k, member, rfl⟩ := isIn_iff.mp there
  rw [only, List.mem_singleton] at member
  rw [member, inFile]
  exact seen

theorem recordedIn_of_empty (seen : List String) (declared : s.declared = []) (calls : s.calls = []) :
    s.RecordedIn seen := by
  refine ⟨by simp [calls], by simp [declared, VariableTable.toList], fun _ => ⟨by simp [calls], by simp [declared]⟩⟩

theorem Starts.isRoot (starts : s.Starts file) : s.IsRoot := by
  obtain ⟨l, only, inFile⟩ := starts.place
  exact ⟨starts.global, starts.unnamed, sound_of_empty starts.global starts.declared starts.calls (by simp [only])⟩

end Scope

theorem Grown.stacks {file : String} {seen : List String} {next : Nat} {f : Forest} (grown : Grown file seen next f) :
    f.Stacks (Scope.FitsWith (Scope.SurveyedIn file seen)) fun s => s.IsRoot ∧ s.SurveyedIn file seen := by
  have joins := Scope.joins_surveyedIn file
  induction grown with
  | start starts =>
    obtain ⟨l, only, inFile⟩ := starts.place
    have recorded := Scope.recordedIn_of_empty [] starts.declared starts.calls
    exact ⟨⟨starts.isRoot, Scope.isIn_of_place only inFile, recorded⟩, trivial, trivial⟩
  | opened before opens ih =>
    obtain ⟨l, only, inFile⟩ := opens.place
    refine ⟨⟨opens.fits ((ih.first.1 file).mpr rfl), Scope.isIn_of_place only inFile, ?_⟩, trivial, ih⟩
    exact Scope.recordedIn_of_empty _ opens.declared opens.calls
  -- Only a scope that closes may meet one like it; opening, declaring and calling change the innermost scope alone.
  | closed before ih =>
    obtain ⟨fits, nested, first, nestedMine, later⟩ := ih
    refine Forest.Stacks.rebind (joins _) ?_ _ ⟨first, nestedMine.place (joins _) fits nested, later⟩
    exact fun f base => ⟨base.1.rebind f, base.2.1, base.2.2.rebind f⟩
  | declared before stands place inFile ih =>
    rename_i seen next here m mine rest v l
    have inside : m.isIn l.file = true := (ih.first.1 l.file).mpr inFile
    refine ih.refill ?_ ?_ ?_ ?_ ?_
    · exact fun above s fits => ⟨fits.1, fits.2.1, fits.2.2.cons _⟩
    · exact fun s base => ⟨base.1, base.2.1, base.2.2.cons _⟩
    · exact fun s fits => ⟨⟨fits.1.within, fits.1.plain, fits.1.sound⟩, fits.2⟩
    · intro above fits
      refine ⟨⟨fits.1.within, fits.1.plain, fits.1.sound.addVariable place inside⟩, fits.2.1, ?_⟩
      exact fits.2.2.addVariable place
    · intro base
      refine ⟨⟨base.1.global, base.1.unnamed, base.1.sound.addVariable place inside⟩, base.2.1, ?_⟩
      exact base.2.2.addVariable place
  | called before stands inFile ih =>
    rename_i seen next here m mine rest c
    have inside : m.isIn c.location.file = true := (ih.first.1 c.location.file).mpr inFile
    refine ih.refill ?_ ?_ ?_ ?_ ?_
    · exact fun above s fits => ⟨fits.1, fits.2.1, fits.2.2.cons _⟩
    · exact fun s base => ⟨base.1, base.2.1, base.2.2.cons _⟩
    · exact fun s fits => ⟨⟨fits.1.within, fits.1.plain, fits.1.sound⟩, fits.2⟩
    · intro above fits
      exact ⟨⟨fits.1.within, fits.1.plain, fits.1.sound.addCall inside⟩, fits.2.1, fits.2.2.addCall⟩
    · intro base
      exact ⟨⟨base.1.global, base.1.unnamed, base.1.sound.addCall inside⟩, base.2.1, base.2.2.addCall⟩

end ScopeAtlas
