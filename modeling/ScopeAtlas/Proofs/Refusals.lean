import ScopeAtlas.Proofs.Invariants

namespace ScopeAtlas

def Element.HasChild (e : Element) (tag : String) : Prop := ∃ c ∈ e.elements, c.tag = tag

instance (e : Element) (tag : String) : Decidable (e.HasChild tag) :=
  inferInstanceAs (Decidable (∃ c ∈ e.elements, c.tag = tag))

-- An import says what it brings in by a name of its own or by one in its first `namespace`.
def Element.SaysName (e : Element) : Prop :=
  e.HasChild "name" ∨ ∃ space, e.element? "namespace" = some space ∧ space.HasChild "name"

theorem Element.element?_isSome {e : Element} {tag : String} : (e.element? tag).isSome ↔ e.HasChild tag := by
  simp [element?, HasChild]

theorem Element.saysName_iff {e : Element} :
    e.SaysName ↔ (e.element? "name" <|> (e.element? "namespace").bind (·.element? "name")).isSome = true := by
  rw [SaysName, ← element?_isSome]
  cases e.element? "name" with
  | some name => simp
  | none =>
    cases e.element? "namespace" with
    | none => simp
    | some space => simp [element?_isSome]

instance (e : Element) : Decidable e.SaysName := decidable_of_iff _ Element.saysName_iff.symm

def Role.holds (p : Profile) (tag : String) : Role → Bool
  | .type => p.isType tag
  | .space => p.isNamespace tag
  | .method => p.isMethod tag
  | .container => p.isContainer tag
  | _ => true

theorem Profile.role_holds (p : Profile) (tag : String) : (p.role tag).holds p tag = true := by
  unfold role
  by_cases transparent : p.isTransparent tag = true
  · rw [if_pos transparent]
    rfl
  rw [if_neg transparent]
  by_cases type : p.isType tag = true
  · rwa [if_pos type]
  rw [if_neg type]
  by_cases space : p.isNamespace tag = true
  · rwa [if_pos space]
  rw [if_neg space]
  by_cases method : p.isMethod tag = true
  · rwa [if_pos method]
  rw [if_neg method]
  by_cases container : p.isContainer tag = true
  · rwa [if_pos container]
  rw [if_neg container]
  split
  · rfl
  split
  · rfl
  split <;> rfl

theorem Profile.isImport_of_leading? {p : Profile} {mayHavePackage : Bool} {tag : String}
    (leads : p.leading? mayHavePackage tag = some .importing) : p.isImport tag = true := by
  unfold leading? at leads
  split at leads
  · cases leads
  split at leads
  · cases leads
  split at leads
  · assumption
  · cases leads

theorem Profile.mem_leadingImports {p : Profile} {mayHavePackage : Bool} {elements : List Element} {x : Element}
    (listed : x ∈ p.leadingImports mayHavePackage elements) : x ∈ elements ∧ p.isImport x.tag = true := by
  induction elements generalizing mayHavePackage with
  | nil => cases listed
  | cons first rest ih =>
    unfold leadingImports at listed
    split at listed
    · exact ⟨List.mem_cons_of_mem _ (ih listed).1, (ih listed).2⟩
    · exact ⟨List.mem_cons_of_mem _ (ih listed).1, (ih listed).2⟩
    · rename_i leads
      rcases List.mem_cons.mp listed with rfl | later
      · exact ⟨List.mem_cons_self, isImport_of_leading? leads⟩
      · exact ⟨List.mem_cons_of_mem _ (ih later).1, (ih later).2⟩
    · cases listed

theorem Site.importOf_error {p : Profile} {site : Site} {e : Element} {error : Error} (imports : p.isImport e.tag = true)
    (refused : site.importOf p e = .error error) : ¬ e.SaysName ∧ error = .importWithoutName e.tag := by
  unfold importOf at refused
  rw [imports] at refused
  rw [Element.saysName_iff]
  split at refused
  · contradiction
  split at refused
  · rename_i none
    cases refused
    simp [none]
  · cases refused

theorem Site.saysName_of_importOf {p : Profile} {site : Site} {e : Element} {i : Import}
    (read : site.importOf p e = .ok i) : e.SaysName := by
  unfold importOf at read
  rw [Element.saysName_iff]
  split at read
  · cases read
  split at read
  · cases read
  · rename_i name
    rw [name]
    rfl

namespace Survey

variable {α β : Type} {bad : Error → Prop}

def FailsOnly (bad : Error → Prop) (x : Survey α) : Prop := ∀ c error, (x.run c).1 = .error error → bad error

section Laws

theorem FailsOnly.pure (a : α) : FailsOnly bad (pure a : Survey α) := by
  intro c error run
  cases run

theorem FailsOnly.bind {x : Survey α} {next : α → Survey β} (first : FailsOnly bad x)
    (second : ∀ a, FailsOnly bad (next a)) : FailsOnly bad (x >>= next) := by
  intro c error run
  rw [run_bind] at run
  rcases step : x.run c with ⟨_ | a, c'⟩
  · rw [step] at run
    cases run
    exact first c _ (by rw [step])
  · rw [step] at run
    exact second a c' error run

theorem run_bind_error {x : Survey α} {c : Context} {error : Error} (refused : (x.run c).1 = .error error)
    (next : α → Survey β) : ((x >>= next).run c).1 = .error error := by
  rw [run_bind]
  rcases step : x.run c with ⟨error' | a, c'⟩
  · rw [step] at refused
    exact congrArg Except.error (Except.error.inj refused)
  · rw [step] at refused
    cases refused

theorem FailsOnly.get : FailsOnly bad (get : Survey Context) := by
  intro c error run
  cases run

theorem FailsOnly.discard {x : Survey α} (fails : FailsOnly bad x) : FailsOnly bad (Functor.discard x) :=
  fails.bind fun _ => .pure _

theorem FailsOnly.mapM {l : List α} {f : α → Survey β} (each : ∀ a ∈ l, FailsOnly bad (f a)) : FailsOnly bad (l.mapM f) := by
  induction l with
  | nil =>
    rw [List.mapM_nil]
    exact .pure _
  | cons a rest ih =>
    obtain ⟨here, later⟩ := List.forall_mem_cons.mp each
    rw [List.mapM_cons]
    exact here.bind fun _ => (ih later).bind fun _ => .pure _

theorem FailsOnly.withScope {make : ScopeId → Scope} {e : Element} {isReference : Bool} {step : Survey Unit}
    (inner : FailsOnly bad step) : FailsOnly bad (withScope make e isReference step) := by
  intro c error run
  rw [run_withScope] at run
  dsimp only at run
  generalize Context.openScope _ _ = opened at run
  rcases step : step.run opened with ⟨error' | _, c'⟩
  · rw [step] at run
    cases run
    exact inner opened _ (by rw [step])
  · rw [step] at run
    cases run

theorem FailsOnly.withImports {found : List Import} {step : Survey Unit} (inner : FailsOnly bad step) :
    FailsOnly bad (withImports found step) := by
  intro c error run
  rw [run_withImports] at run
  exact inner _ error run

theorem FailsOnly.withRegion {region : Option String} {step : Survey Unit} (inner : FailsOnly bad step) :
    FailsOnly bad (withRegion region step) := by
  intro c error run
  rw [run_withRegion] at run
  exact inner _ error run

theorem FailsOnly.withTypeParameters {names : List String} {step : Survey Unit} (inner : FailsOnly bad step) :
    FailsOnly bad (withTypeParameters names step) := by
  intro c error run
  rw [run_withTypeParameters] at run
  exact inner _ error run

theorem FailsOnly.takeTypeParameters : FailsOnly bad takeTypeParameters := by
  intro c error run
  cases run

end Laws

section Handlers

variable {p : Profile} {e : Element} {inside : Inside}

theorem openSpaces_fails {step : Survey Unit} (inner : FailsOnly bad step) (names : List String) :
    FailsOnly bad (openSpaces e step names) := by
  induction names with
  | nil => exact inner.bind fun _ => FailsOnly.get.bind fun _ => .pure _
  | cons name names ih => exact (ih.bind fun _ => .pure _).withScope

theorem type_fails (inner : ∀ place, FailsOnly bad (inside place)) (checked : p.isType e.tag = true) :
    FailsOnly bad (type p e inside) := by
  unfold type
  rw [checked, Bool.not_true, if_neg Bool.false_ne_true]
  exact FailsOnly.takeTypeParameters.bind fun _ => FailsOnly.get.bind fun _ => (inner _).withRegion.withScope

theorem space_fails (inner : ∀ place, FailsOnly bad (inside place)) (checked : p.isNamespace e.tag = true) :
    FailsOnly bad (space p e inside) := by
  unfold space
  rw [checked, Bool.not_true, if_neg Bool.false_ne_true]
  exact openSpaces_fails (inner _) _

theorem method_fails (inner : ∀ place, FailsOnly bad (inside place)) (checked : p.isMethod e.tag = true) :
    FailsOnly bad (method p e inside) := by
  unfold method
  rw [checked, Bool.not_true, if_neg Bool.false_ne_true]
  exact FailsOnly.takeTypeParameters.bind fun _ => FailsOnly.get.bind fun _ => (inner _).withScope

theorem block_fails (inner : ∀ place, FailsOnly bad (inside place)) (checked : p.isContainer e.tag = true) :
    FailsOnly bad (block p e inside) := by
  unfold block
  rw [checked, Bool.not_true, if_neg Bool.false_ne_true]
  exact (inner _).withScope

theorem region_fails (inner : ∀ place, FailsOnly bad (inside place)) : FailsOnly bad (region e inside) := by
  unfold region
  split
  · exact (inner _).withTypeParameters
  · exact (inner _).withRegion

theorem declarator_fails (inner : ∀ place, FailsOnly bad (inside place)) (previous : Option TypeUse) :
    FailsOnly bad (declarator e previous inside) := by
  intro c error run
  rw [run_declarator] at run
  exact (inner .initializers).bind (fun _ => .pure _) _ error run

theorem call_fails (inner : ∀ place, FailsOnly bad (inside place)) (before : List Element) :
    FailsOnly bad (call p before e inside) := by
  intro c error run
  rw [run_call] at run
  split at run
  · exact inner _ _ error run
  · exact inner _ _ error run

theorem visit_fails (inner : ∀ place, FailsOnly bad (inside place)) (before : List Element) :
    FailsOnly bad (visit p before e inside) := by
  have checked := p.role_holds e.tag
  unfold visit
  generalize p.role e.tag = role at checked
  cases role with
  | transparent => exact region_fails inner
  | type => exact (type_fails inner checked).discard
  | space => exact (space_fails inner checked).discard
  | method => exact (method_fails inner checked).discard
  | container => exact (block_fails inner checked).discard
  | declaration => exact inner _
  | latecomer => exact .pure _
  | comment => exact .pure _
  | call => exact call_fails inner before
  | declarator => exact (declarator_fails inner none).discard
  | plain => exact inner _

-- Only here can a survey fail.
theorem readImports_fails {mayHavePackage : Bool} {elements : List Element}
    (covers : ∀ x ∈ elements, p.isImport x.tag = true → ¬ x.SaysName → bad (.importWithoutName x.tag)) :
    FailsOnly bad (readImports p mayHavePackage elements) := by
  unfold readImports
  refine FailsOnly.get.bind fun c => FailsOnly.mapM fun x listed => ?_
  obtain ⟨child, imports⟩ := Profile.mem_leadingImports listed
  intro c' error refused
  obtain ⟨nameless, rfl⟩ := Site.importOf_error imports refused
  exact covers x child imports nameless

theorem readImports_refuses {mayHavePackage : Bool} {elements : List Element} {x : Element}
    (listed : x ∈ p.leadingImports mayHavePackage elements) (nameless : ¬ x.SaysName) (c : Context) :
    ((readImports p mayHavePackage elements).run c).1 = .error (.importWithoutName p.importTag) := by
  have tags : ∀ x ∈ p.leadingImports mayHavePackage elements, p.importTag = x.tag :=
    fun x listed => eq_of_beq (Profile.mem_leadingImports listed).2
  unfold readImports
  rw [run_bind, run_get]
  dsimp only
  generalize p.leadingImports mayHavePackage elements = found at listed tags
  -- whichever import is refused first, all have the same tag
  induction found with
  | nil => cases listed
  | cons first rest ih =>
    obtain ⟨tag, tags⟩ := List.forall_mem_cons.mp tags
    have run : (readImports.liftExcept (c.site.importOf p first)).run c = (c.site.importOf p first, c) := rfl
    rw [List.mapM_cons, run_bind, run]
    cases read : c.site.importOf p first with
    | error error => rw [(Site.importOf_error (by simp [Profile.isImport, tag]) read).2, tag]
    | ok i =>
      have later : x ∈ rest := by
        rcases List.mem_cons.mp listed with rfl | later
        · exact absurd (Site.saysName_of_importOf read) nameless
        · exact later
      exact run_bind_error (ih later tags) _

theorem treat_fails (inner : ∀ place, FailsOnly bad (inside place)) (before : List Element) (treatment : Treatment)
    (covers : ∀ x ∈ e.elements, p.isImport x.tag = true → ¬ x.SaysName → bad (.importWithoutName x.tag)) :
    FailsOnly bad (treat p before e inside treatment) := by
  unfold treat
  cases treatment with
  | skip => exact .pure _
  | visit => exact (visit_fails inner before).bind fun _ => .pure _
  | enter place => exact (inner place).bind fun _ => .pure _
  | enterSpace => exact (readImports_fails covers).bind fun _ => (inner _).withImports.bind fun _ => .pure _
  | declare previous => exact declarator_fails inner previous

end Handlers

theorem walk_fails (p : Profile) (content : Content)
    (covers : ∀ x ∈ content.descendants, p.isImport x.tag = true → ¬ x.SaysName → bad (.importWithoutName x.tag)) :
    ∀ place before, FailsOnly bad (walk p content place before) := by
  induction content with
  | nil => exact fun _ _ => .pure _
  | text run rest ih => exact ih covers
  | element tag attributes position line inner rest ihInner ihRest =>
    intro place before
    rw [Content.descendants, List.forall_mem_cons, List.forall_mem_append] at covers
    obtain ⟨-, within, beside⟩ := covers
    refine FailsOnly.bind (treat_fails (fun place => ihInner within place []) before _ ?_) fun type => ihRest beside _ _
    exact fun x child => within x (inner.elements_subset_descendants child)

theorem unitBody_fails (p : Profile) (e : Element)
    (covers : ∀ x ∈ e.descendants, p.isImport x.tag = true → ¬ x.SaysName → bad (.importWithoutName x.tag)) :
    FailsOnly bad (unitBody p e) := by
  have statements := walk_fails p e.content covers (.leading true) []
  refine (readImports_fails fun x child => covers x (e.content.elements_subset_descendants child)).bind fun imports => ?_
  refine FailsOnly.withImports ?_
  split
  · exact (openSpaces_fails statements _).bind fun _ => .pure _
  · exact statements

end Survey

theorem surveyUnit_error {p : Profile} {e : Element} {error : Error} (unit : e.tag = "unit") :
    surveyUnit p e = .error error ↔ ((Survey.unitBody p e).run (Survey.unitStart p e)).1 = .error error := by
  rw [surveyUnit, if_neg (not_not.mpr unit)]
  rcases (Survey.unitBody p e).run (Survey.unitStart p e) with ⟨error' | _, c⟩
  · simp
  · simp

-- A survey fails only at an import that says no name, and says so of its tag: whatever else a tree lacks, and however
-- the tags of a language overlap, the survey of a unit gives a graph.
theorem survey_fails_only_at_imports (p : Profile) (e : Element) (unit : e.tag = "unit") :
    ((∀ x ∈ e.descendants, p.isImport x.tag = true → x.SaysName) → ∃ g, surveyUnit p e = .ok g) ∧
      (∀ error, surveyUnit p e = .error error → error.kind = .invalidInput ∧
        ∃ x ∈ e.descendants, p.isImport x.tag = true ∧ ¬ x.SaysName ∧ error = .importWithoutName x.tag ∧
          error.cause = "<" ++ x.tag ++ "> without a name") ∧
      ∀ x ∈ p.leadingImports true e.elements, ¬ x.SaysName → surveyUnit p e = .error (.importWithoutName x.tag) := by
  have fails : Survey.FailsOnly (fun error => ∃ x ∈ e.descendants, p.isImport x.tag = true ∧ ¬ x.SaysName ∧
      error = .importWithoutName x.tag) (Survey.unitBody p e) :=
    Survey.unitBody_fails p e fun x member imports nameless => ⟨x, member, imports, nameless, rfl⟩
  have failed : ∀ error, surveyUnit p e = .error error →
      ∃ x ∈ e.descendants, p.isImport x.tag = true ∧ ¬ x.SaysName ∧ error = .importWithoutName x.tag :=
    fun error surveyed => fails _ error ((surveyUnit_error unit).mp surveyed)
  refine ⟨?_, ?_, ?_⟩
  · intro named
    cases surveyed : surveyUnit p e with
    | ok g => exact ⟨g, rfl⟩
    | error error =>
      obtain ⟨x, member, imports, nameless, -⟩ := failed error surveyed
      exact absurd (named x member imports) nameless
  · intro error surveyed
    obtain ⟨x, member, imports, nameless, rfl⟩ := failed error surveyed
    exact ⟨rfl, x, member, imports, nameless, rfl, rfl⟩
  · intro x listed nameless
    have tag : p.importTag = x.tag := eq_of_beq (Profile.mem_leadingImports listed).2
    rw [surveyUnit_error unit, ← tag]
    exact Survey.run_bind_error (Survey.readImports_refuses listed nameless _) _

def usingUnit (inner rest : Content) : Element :=
  { tag := "unit", attributes := [("filename", "a.cpp")], content := .written "using" inner rest : Element }.positioned

-- An import with a name, then a type, a namespace, a function, a handler and a call that all lack theirs.
def sparseUnit : Element :=
  let handler := Content.written "catch" (.written "parameter_list" (.written "param" .nil .nil) .nil) .nil
  usingUnit (.written "namespace" (.name "std" .nil) .nil) <| .written "struct" .nil <| .written "namespace" .nil <|
    .written "function" (.written "block" handler .nil) <| .written "call" .nil .nil

-- `using` with an empty `namespace` and then one that has a name.
def twiceUsingUnit : Element := usingUnit (.written "namespace" .nil (.written "namespace" (.name "std" .nil) .nil)) .nil

theorem sparse_unit_is_surveyed :
    ((∀ x ∈ sparseUnit.descendants, Profile.cPlusPlus.isImport x.tag = true → x.SaysName) ∧
        ∃ g, surveyUnit .cPlusPlus sparseUnit = .ok g) ∧
      ∃ x ∈ twiceUsingUnit.descendants, Profile.cPlusPlus.isImport x.tag = true ∧ ¬ x.SaysName ∧
        surveyUnit .cPlusPlus twiceUsingUnit = .error (.importWithoutName x.tag) := by
  have named : ∀ x ∈ sparseUnit.descendants, Profile.cPlusPlus.isImport x.tag = true → x.SaysName := by decide +kernel
  have refused : surveyUnit .cPlusPlus twiceUsingUnit = .error (.importWithoutName "using") := by rfl
  refine ⟨⟨named, (survey_fails_only_at_imports .cPlusPlus sparseUnit rfl).1 named⟩, ?_⟩
  obtain ⟨-, x, member, imports, nameless, same, -⟩ :=
    (survey_fails_only_at_imports .cPlusPlus twiceUsingUnit rfl).2.1 _ refused
  exact ⟨x, member, imports, nameless, refused.trans (congrArg _ same)⟩

-- A later `namespace` is not looked into, also where it has a name.
theorem second_namespace_goes_unread :
    twiceUsingUnit.tag = "unit" ∧
      (∀ x ∈ twiceUsingUnit.descendants, Profile.cPlusPlus.isImport x.tag = true →
        x.HasChild "name" ∨ ∃ space ∈ x.elements, space.tag = "namespace" ∧ space.HasChild "name") ∧
      surveyUnit .cPlusPlus twiceUsingUnit = .error (.importWithoutName "using") := by
  refine ⟨rfl, by decide +kernel, by rfl⟩

end ScopeAtlas
