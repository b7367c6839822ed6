import ScopeAtlas.Proofs.Holdings

namespace ScopeAtlas

theorem Scope.key_withdraw_of_outside {s : Scope} {file : String} (sound : s.Sound) (outside : s.isOutside file = true) :
    (s.withdraw file).key = s.key := by
  by_cases seen : s.isIn file = true
  · refine key_withdraw sound seen fun only => ?_
    rw [not_isOutside_of_isOnlyIn only] at outside
    cases outside
  · rw [sound.withdraw_eq_self (Bool.eq_false_iff.mpr seen)]

theorem Scope.IsRoot.key {s : Scope} (root : s.IsRoot) : s.key = Scope.global.key := by
  simp [Scope.key, root.global, root.unnamed, Scope.global]

namespace Forest

def rootPath : List Key := [Scope.global.key]

def scopeAt (f : Forest) (path : List Key) : Option Scope := (f.at? path).map (·.2.1)

variable {f : Forest} {above : Scope} {file : String}

def leftOf (file : String) (found : ScopeId × Scope × Forest) : ScopeId × Scope × Forest :=
  (found.1, found.2.1.withdraw file, found.2.2.withdraw file)

theorem find_withdraw (nested : f.Nests Scope.Fits above) (distinct : f.Distinct) (k : Key) :
    (f.withdraw file).find k = ((f.find k).filter (·.2.1.isOutside file)).map (leftOf file) := by
  induction f with
  | nil => rfl
  | tree id s below rest _ outer =>
    have fits := nested.1
    have later := outer nested.2.2 distinct.2.2
    rw [withdraw_tree nested, Forest.find]
    by_cases outside : s.isOutside file = true
    · rw [if_pos outside, Forest.find, Scope.key_withdraw_of_outside fits.sound outside, later]
      split
      · simp [outside, leftOf]
      · rfl
    · rw [if_neg outside, later]
      split
      · rename_i same
        have absent : rest.find k = none := find_eq_none.mpr (same ▸ distinct.1)
        simp [absent, outside]
      · rfl

theorem at?_withdraw (nested : f.Nests Scope.Fits above) (distinct : f.Distinct) (path : List Key) :
    (f.withdraw file).at? path = ((f.at? path).filter (·.2.1.isOutside file)).map (leftOf file) := by
  induction path generalizing f above with
  | nil => rfl
  | cons k path ih =>
    cases path with
    | nil => exact find_withdraw nested distinct k
    | cons k' path =>
      rw [at?, at?, find_withdraw nested distinct]
      rcases found : f.find k with _ | ⟨x, s, below⟩
      · rfl
      · obtain ⟨-, under⟩ := nested.find found
        have lower := @ih below s under (distinct.find found)
        by_cases outside : s.isOutside file = true
        · simpa [Option.filter_some, outside, leftOf] using lower
        · -- what is below is known to no other file either
          rcases deeper : below.at? (k' :: path) with _ | ⟨y, t, deep⟩
          · simp [Option.filter_some, outside, deeper]
          · have inside : ¬ t.isOutside file = true := fun lower =>
              outside (under.isOutside (@mem_entries_of_at? below none _ _ _ _ deeper) lower)
            simp [Option.filter_some, outside, deeper, inside]

theorem Rooted.scopeAt_withdrawBelow {strict : Prop} {root : ScopeId} (rooted : f.Rooted strict root)
    (distinct : f.Distinct) (path : List Key) :
    (f.withdrawBelow file).scopeAt path =
      ((f.scopeAt path).filter fun s => path = rootPath || s.isOutside file).map (·.withdraw file) := by
  cases rooted with
  | @intro s below isRoot tidy nested =>
    have fits := nested.imp fun _ _ fits => fits.1
    have key := isRoot.key
    have key' := (isRoot.withdraw file).key
    unfold scopeAt
    rcases path with _ | ⟨k, _ | ⟨k', path⟩⟩
    · rfl
    · rw [at?, at?, withdrawBelow, withdrawBelow, Forest.find.eq_2, Forest.find.eq_2, key, key']
      by_cases top : Scope.global.key = k
      · simp [top, rootPath, Option.filter_some]
      · simp [top, Forest.find]
    · rw [at?, at?, withdrawBelow, withdrawBelow, Forest.find.eq_2, Forest.find.eq_2, key, key']
      by_cases top : Scope.global.key = k
      · have other : ¬ k :: k' :: path = rootPath := by simp [rootPath]
        simp only [if_pos top, Option.bind_some, at?_withdraw fits distinct.2.1, other, decide_false, Bool.false_or]
        rcases below.at? (k' :: path) with _ | ⟨y, t, deep⟩
        · rfl
        · cases outside : t.isOutside file <;> simp [Option.filter_some, outside, leftOf]
      · simp [top, Forest.find]

end Forest

namespace Graph

def scopeAt (g : Graph) (path : List Key) : Option Scope := (g.scopes.find? fun x => g.keyPath x.1 = path).map (·.2)

def holdingAt (g : Graph) (path : List Key) : Option Holding := (g.scopeAt path).map Scope.holding

-- The part of it that a file wrote; nothing where there is no scope.
def share (g : Graph) (file : String) (path : List Key) : Holding :=
  ((g.holdingAt path).map (·.keep (· == file))).getD .nothing

variable {strict : Prop} {a b g m : Graph} {f h : Forest} {file : String} {path : List Key} {s : Scope}

theorem scopeAt_eq_some (found : g.scopeAt path = some s) : ∃ x, g.get? x = some s ∧ g.keyPath x = path := by
  obtain ⟨⟨x, t⟩, listed, rfl⟩ := Option.map_eq_some_iff.mp found
  have same := List.find?_some listed
  exact ⟨x, mem_scopes.mp (List.mem_of_find?_eq_some listed), by simpa using same⟩

theorem AtRest.scopeAt (rest : g.AtRest strict f) (path : List Key) :
    g.scopeAt path = (f.at? path).map fun found =>
      found.2.1.linked ((f.at? path.dropLast).map (·.1)) found.2.2.roots := by
  rcases found : f.at? path with _ | ⟨x, s, below⟩
  · rw [Option.map_none, Graph.scopeAt, Option.map_eq_none_iff, List.find?_eq_none]
    rintro ⟨x, s⟩ listed
    simp only [decide_eq_true_eq]
    rintro rfl
    obtain ⟨t, below, there⟩ := rest.at?_keyPath (mem_scopes.mp listed)
    rw [found] at there
    cases there
  · obtain ⟨here, same⟩ := rest.of_at? found
    cases shown : g.scopeAt path with
    | none =>
      rw [Graph.scopeAt, Option.map_eq_none_iff, List.find?_eq_none] at shown
      exact absurd (decide_eq_true same) (shown (x, _) (mem_scopes.mpr here))
    | some t =>
      obtain ⟨y, there, same'⟩ := scopeAt_eq_some shown
      have once := rest.once (contains_of_get? here) (contains_of_get? there) (same.trans same'.symm)
      rw [← once, here] at there
      exact there.symm

theorem AtRest.holdingAt (rest : g.AtRest strict f) (path : List Key) :
    g.holdingAt path = (f.scopeAt path).map Scope.holding := by
  rw [Graph.holdingAt, rest.scopeAt, Option.map_map, Forest.scopeAt, Option.map_map]
  rfl

theorem AtRest.share (rest : g.AtRest strict f) (file : String) (path : List Key) :
    g.share file path = ((f.scopeAt path).map (·.holding.keep (· == file))).getD .nothing := by
  rw [Graph.share, rest.holdingAt, Option.map_map]
  rfl

theorem AtRest.sound_of_scopeAt (rest : g.AtRest strict f) (found : f.scopeAt path = some s) :
    s.Sound ∧ (strict → s.Tidy) := by
  obtain ⟨⟨x, s, below⟩, there, rfl⟩ := Option.map_eq_some_iff.mp found
  obtain ⟨sound, tidy, -⟩ := rest.sound_of_at? there
  exact ⟨sound, tidy⟩

theorem key_of_scopeAt (found : f.scopeAt path = some s) : path.getLast? = some s.key := by
  obtain ⟨⟨x, s, below⟩, there, rfl⟩ := Option.map_eq_some_iff.mp found
  exact Forest.key_of_at? there

theorem AtRest.sees_of_scopeAt (rest : g.AtRest strict f) (found : f.scopeAt path = some s) (seen : s.isIn file = true) :
    g.Sees file := by
  obtain ⟨⟨x, s, below⟩, there, rfl⟩ := Option.map_eq_some_iff.mp found
  exact ⟨x, _, (rest.of_at? there).1, seen⟩

theorem AtRest.meet_scopes {t : Scope} (left : a.AtRest strict f) (right : b.AtRest strict h)
    (apart : ∀ file, a.Sees file → ¬ b.Sees file) (here : f.scopeAt path = some s) (there : h.scopeAt path = some t) :
    s.Apart t ∧ s.key = t.key := by
  obtain ⟨⟨x, s, below⟩, found, rfl⟩ := Option.map_eq_some_iff.mp here
  obtain ⟨⟨y, t, under⟩, found', rfl⟩ := Option.map_eq_some_iff.mp there
  exact left.meet right apart found found'

theorem AtRest.scopeAt_merged (left : a.AtRest strict f) (right : b.AtRest strict h) :
    ∃ rename rename' : ScopeId → ScopeId, ∀ path, (f.merged a.size h).scopeAt path =
      Option.merge Scope.unite ((f.scopeAt path).map (·.rebind rename)) ((h.scopeAt path).map (·.rebind rename')) := by
  refine ⟨(f.retired (h.shift a.size)).survivor, (f.retired (h.shift a.size)).survivor ∘ (· + a.size), ?_⟩
  intro path
  unfold Forest.scopeAt
  rw [left.at?_merged right path]
  cases f.at? path <;> cases h.at? path <;> simp [Forest.unites, Scope.rebind_unite, Scope.rebind_rebind]

theorem AtRest.merge_eq (left : a.AtRest strict f) (right : b.AtRest strict h) : a.merge b = .ok (a.mergeLive b) := by
  obtain ⟨m, merged, -⟩ := left.merge right
  rw [Graph.merge, Change.outcome] at merged ⊢
  rw [Graph.mergeLive]
  split at merged
  · cases merged
  · rfl

theorem AtRest.mergeLive (left : a.AtRest strict f) (right : b.AtRest strict h) :
    (a.mergeLive b).AtRest strict (f.merged a.size h) := by
  obtain ⟨m, merged, rest⟩ := left.merge right
  rw [left.merge_eq right] at merged
  cases merged
  exact rest

theorem AtRest.withdraw_eq (rest : g.AtRest strict f) (file : String) :
    g.removeFileAndRehome file = .ok (g.withdrawAndRehome file) := by
  obtain ⟨g', withdrawn, -, -⟩ := rest.withdrawing file
  rw [Graph.withdrawAndRehome, removeFileAndRehome, rehoming, withdrawn]
  rfl

theorem AtRest.withdrawAndRehome (rest : g.AtRest strict f) (file : String) :
    (g.withdrawAndRehome file).AtRest strict (f.withdrawBelow file) := by
  obtain ⟨g', withdrawn, rest'⟩ := rest.rehomes file
  rw [rest.withdraw_eq] at withdrawn
  cases withdrawn
  exact rest'

theorem AtRest.share_merged (left : a.AtRest strict f) (right : b.AtRest strict h)
    (merged : m.AtRest strict (f.merged a.size h)) (unseen : ¬ b.Sees file) (path : List Key) :
    m.share file path = a.share file path := by
  obtain ⟨rename, rename', united⟩ := left.scopeAt_merged right
  rw [merged.share, left.share, united path]
  cases there : h.scopeAt path with
  | none => cases f.scopeAt path <;> simp [Scope.holding_rebind]
  | some t =>
    have sound := (right.sound_of_scopeAt there).1
    have out : ∀ other, t.isIn other = true → (other == file) = false := by
      intro other seen
      rw [beq_eq_false_iff_ne]
      rintro rfl
      exact unseen (right.sees_of_scopeAt there seen)
    cases here : f.scopeAt path with
    | none => simp [Scope.holding_rebind, sound.within.keep_eq_nothing out]
    | some s =>
      have sound' := (left.sound_of_scopeAt here).1
      have key : s.key = t.key := by
        have last := key_of_scopeAt here
        rw [key_of_scopeAt there] at last
        exact (Option.some.inj last).symm
      have kept := (sound'.rebind rename).keep_unite (sound.rebind rename') (by simpa using key) out
      simpa [Scope.holding_rebind] using kept

theorem AtRest.share_withdrawn {other : String} {g' : Graph} (rest : g.AtRest strict f)
    (rest' : g'.AtRest strict (f.withdrawBelow other)) (differ : other ≠ file) (path : List Key) :
    g'.share file path = g.share file path := by
  rw [rest'.share, rest.share, rest.rooted.scopeAt_withdrawBelow rest.distinct]
  cases found : f.scopeAt path with
  | none => rfl
  | some s =>
    have sound := (rest.sound_of_scopeAt found).1
    cases stays : decide (path = Forest.rootPath) || s.isOutside other with
    | true =>
      have kept : (s.holding.keep (· != other)).keep (· == file) = s.holding.keep (· == file) := by
        rw [sound.within.keep_keep]
        refine congrArg s.holding.keep (funext fun x => ?_)
        by_cases this : x = file
        · simp [this, Ne.symm differ]
        · simp [this]
      simp only [Option.filter_some, stays, if_true, Option.map_some, Option.getD_some, sound.holding_withdraw, kept]
    | false =>
      -- the scope was the other file's alone
      have inside : s.isOutside other = false := (Bool.or_eq_false_iff.mp stays).2
      have out : ∀ x, s.isIn x = true → (x == file) = false := by
        intro x seen
        rw [beq_eq_false_iff_ne]
        rintro rfl
        obtain ⟨l, member, rfl⟩ := Scope.isIn_iff.mp seen
        exact Bool.eq_false_iff.mp inside (Scope.isOutside_iff.mpr ⟨l, member, Ne.symm differ⟩)
      simp [Option.filter_some, stays, sound.within.keep_eq_nothing out]

end Graph

end ScopeAtlas
