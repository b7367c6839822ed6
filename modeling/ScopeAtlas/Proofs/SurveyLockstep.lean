import ScopeAtlas.Proofs.Lockstep

namespace ScopeAtlas

namespace Survey

structure Surroundings where
  site : Site
  region : Option String := none

structure InStep (alike : Scope → Scope → Prop) (around around' : Surroundings) (c d : Context) : Prop where
  graph : c.graph.InStep alike d.graph
  stack : d.stack = c.stack
  typeParameters : d.typeParameters = c.typeParameters
  site : c.site = around.site
  region : c.region = around.region
  site' : d.site = around'.site
  region' : d.region = around'.region

inductive Ends {α : Type} (alike : Scope → Scope → Prop) (around around' : Surroundings) (value : α → α → Prop) :
    Except Error α × Context → Except Error α × Context → Prop
  | done {a b : α} {c d : Context} (like : value a b) (inStep : InStep alike around around' c d) :
    Ends alike around around' value (.ok a, c) (.ok b, d)
  | failed {error : Error} {c d : Context} (inStep : InStep alike around around' c d) :
    Ends alike around around' value (.error error, c) (.error error, d)

def Lockstep {α : Type} (alike : Scope → Scope → Prop) (around around' : Surroundings) (value : α → α → Prop)
    (x y : Survey α) : Prop :=
  ∀ c d, InStep alike around around' c d → Ends alike around around' value (x.run c) (y.run d)

variable {α β : Type} {alike : Scope → Scope → Prop} {around around' : Surroundings} {c d : Context}

theorem InStep.current (inStep : InStep alike around around' c d) : d.current = c.current := by
  unfold Context.current
  rw [inStep.stack, inStep.graph.root]

section Laws

variable {value : α → α → Prop} {value' : β → β → Prop} {x y : Survey α}

theorem Lockstep.pure {a b : α} (like : value a b) : Lockstep alike around around' value (pure a) (pure b) :=
  fun _ _ inStep => .done like inStep

theorem Lockstep.refused (error : Error) (next next' : α → Survey β) :
    Lockstep alike around around' value' (throw error >>= next) (throw error >>= next') :=
  fun _ _ inStep => .failed inStep

theorem Lockstep.get : Lockstep alike around around' (InStep alike around around') get get :=
  fun _ _ inStep => .done inStep inStep

theorem Lockstep.bind {next next' : α → Survey β} (first : Lockstep alike around around' value x y)
    (second : ∀ a b, value a b → Lockstep alike around around' value' (next a) (next' b)) :
    Lockstep alike around around' value' (x >>= next) (y >>= next') := by
  intro c d inStep
  have ends := first c d inStep
  rw [run_bind, run_bind]
  generalize x.run c = left at ends
  generalize y.run d = right at ends
  cases ends with
  | done like inStep => exact second _ _ like _ _ inStep
  | failed inStep => exact .failed inStep

theorem Lockstep.discard (steps : Lockstep alike around around' value x y) :
    Lockstep alike around around' (fun _ _ => True) (Functor.discard x) (Functor.discard y) := by
  have left : Functor.discard x = x >>= fun _ => Pure.pure PUnit.unit := rfl
  have right : Functor.discard y = y >>= fun _ => Pure.pure PUnit.unit := rfl
  rw [left, right]
  exact steps.bind fun _ _ _ => Lockstep.pure trivial

end Laws

section Surroundings

variable {inner inner' : Surroundings} {step step' : Survey Unit}

theorem Ends.restore {value : α → α → Prop} {left right : Except Error α × Context}
    (ends : Ends alike inner inner' value left right) (restore restore' : Context → Context)
    (restores : ∀ c d, InStep alike inner inner' c d → InStep alike around around' (restore c) (restore' d)) :
    Ends alike around around' value (left.1, restore left.2) (right.1, restore' right.2) := by
  cases ends with
  | done like inStep => exact .done like (restores _ _ inStep)
  | failed inStep => exact .failed (restores _ _ inStep)

def Surroundings.importing (around : Surroundings) (found : List Import) : Surroundings :=
  { around with site.imports := around.site.imports ++ found }

theorem Lockstep.withImports {found found' : List Import}
    (steps : Lockstep alike (around.importing found) (around'.importing found') (fun _ _ => True) step step') :
    Lockstep alike around around' (fun _ _ => True) (withImports found step) (withImports found' step') := by
  intro c d inStep
  rw [run_withImports, run_withImports]
  have entered : InStep alike (around.importing found) (around'.importing found')
      { c with site.imports := c.site.imports ++ found } { d with site.imports := d.site.imports ++ found' } := by
    refine { inStep with site := ?_, site' := ?_ }
    · simp only [Surroundings.importing, inStep.site]
    · simp only [Surroundings.importing, inStep.site']
  refine (steps _ _ entered).restore (fun c' => { c' with site.imports := c.site.imports })
    (fun d' => { d' with site.imports := d.site.imports }) ?_
  intro c' d' after
  refine { after with site := ?_, site' := ?_ }
  · simp only [after.site, inStep.site, Surroundings.importing]
  · simp only [after.site', inStep.site', Surroundings.importing]

theorem Lockstep.withRegion {tag tag' : Option String}
    (steps : Lockstep alike { around with region := tag } { around' with region := tag' } (fun _ _ => True) step step') :
    Lockstep alike around around' (fun _ _ => True) (withRegion tag step) (withRegion tag' step') := by
  intro c d inStep
  rw [run_withRegion, run_withRegion]
  have entered : InStep alike { around with region := tag } { around' with region := tag' } { c with region := tag }
      { d with region := tag' } := { inStep with region := rfl, region' := rfl }
  refine (steps _ _ entered).restore (fun c' => { c' with region := c.region }) (fun d' => { d' with region := d.region }) ?_
  exact fun _ _ after => { after with region := inStep.region, region' := inStep.region' }

theorem Lockstep.withTypeParameters (names : List String)
    (steps : Lockstep alike around around' (fun _ _ => True) step step') :
    Lockstep alike around around' (fun _ _ => True) (withTypeParameters names step) (withTypeParameters names step') := by
  intro c d inStep
  rw [run_withTypeParameters, run_withTypeParameters]
  have entered : InStep alike around around' { c with typeParameters := names } { d with typeParameters := names } :=
    { inStep with typeParameters := rfl }
  refine (steps _ _ entered).restore (fun c' => { c' with typeParameters := [] })
    (fun d' => { d' with typeParameters := [] }) ?_
  exact fun _ _ after => { after with typeParameters := rfl }

theorem Lockstep.takeTypeParameters :
    Lockstep alike around around' Eq takeTypeParameters takeTypeParameters :=
  fun _ _ inStep => .done inStep.typeParameters.symm { inStep with typeParameters := rfl }

def Surroundings.opened (around : Surroundings) (e : Element) (isReference : Bool) (s : Scope) : Scope :=
  { s.addLocation (around.site.locate e isReference) with language := some around.site.language }

theorem Lockstep.withScope (laws : Scope.Congruence alike) {make make' : ScopeId → Scope} {e e' : Element}
    {isReference isReference' : Bool}
    (opens : ∀ id, alike (around.opened e isReference (make id)) (around'.opened e' isReference' (make' id)))
    (steps : Lockstep alike around around' (fun _ _ => True) step step') :
    Lockstep alike around around' Eq (withScope make e isReference step) (withScope make' e' isReference' step') := by
  intro c d inStep
  rw [run_withScope, run_withScope, inStep.graph.size, inStep.current, inStep.site, inStep.site']
  dsimp only
  have opened : InStep alike around around' (c.openScope (around.opened e isReference (make c.graph.size)))
      (d.openScope (around'.opened e' isReference' (make' c.graph.size))) := by
    refine { inStep with graph := inStep.graph.insert (opens _), stack := ?_ }
    exact congrArg₂ List.cons inStep.graph.size inStep.stack
  have ends := steps _ _ opened
  unfold Surroundings.opened at ends
  generalize step.run _ = left at ends
  generalize step'.run _ = right at ends
  cases ends with
  | done _ after =>
    obtain ⟨survivor, adopted⟩ := after.graph.adopt laws c.current c.graph.size
    exact .done survivor.symm { after with graph := adopted, stack := congrArg List.tail after.stack }
  | failed after =>
    obtain ⟨-, adopted⟩ := after.graph.adopt laws c.current c.graph.size
    exact .failed { after with graph := adopted, stack := congrArg List.tail after.stack }

end Surroundings

theorem InStep.modifyCurrent (inStep : InStep alike around around' c d) {change change' : Scope → Scope}
    (changes : ∀ s t, alike s t → alike (change s) (change' t)) :
    InStep alike around around' (c.modifyCurrent change) (d.modifyCurrent change') := by
  refine { inStep with graph := ?_ }
  have graph := inStep.graph.modify changes c.current
  unfold Context.modifyCurrent
  rw [inStep.current]
  exact graph

end Survey

namespace Profile

-- The profile with other decisions about elements, of the same tags.
def reread (p : Profile) (reading : Reading) : Profile := { p with reading }

variable (p : Profile) (reading : Reading) (tag : String)

@[simp] theorem reread_isType : (p.reread reading).isType tag = p.isType tag := rfl

@[simp] theorem reread_isMethod : (p.reread reading).isMethod tag = p.isMethod tag := rfl

@[simp] theorem reread_isNamespace : (p.reread reading).isNamespace tag = p.isNamespace tag := rfl

@[simp] theorem reread_isContainer : (p.reread reading).isContainer tag = p.isContainer tag := rfl

@[simp] theorem reread_role : (p.reread reading).role tag = p.role tag := rfl

theorem tag_of_role_call {p : Profile} {tag : String} (isCall : p.role tag = .call) : tag = "call" := by
  unfold role at isCall
  split_ifs at isCall
  split at isCall
  · rfl
  all_goals cases isCall

theorem tag_of_role_declarator {p : Profile} {tag : String} (isDeclarator : p.role tag = .declarator) :
    tag = "decl" := by
  unfold role at isDeclarator
  split_ifs at isDeclarator
  split at isDeclarator
  · cases isDeclarator
  · rfl
  all_goals cases isDeclarator

end Profile

def Place.type? : Place → Option TypeUse
  | .declarators type => type
  | _ => none

def Place.isSpaceBody : Place → Bool
  | .spaceBody => true
  | _ => false

inductive Place.Like (like : TypeUse → TypeUse → Prop) : Place → Place → Prop
  | untyped {place : Place} (plain : place.type? = none) : Place.Like like place place
  | typed {u v : TypeUse} (types : like u v) : Place.Like like (.declarators (some u)) (.declarators (some v))

inductive Treatment.Like (like : TypeUse → TypeUse → Prop) : Treatment → Treatment → Prop
  | skip : Treatment.Like like .skip .skip
  | visit : Treatment.Like like .visit .visit
  | enter {place place' : Place} (places : place.Like like place') (outside : place.isSpaceBody = false) :
    Treatment.Like like (.enter place) (.enter place')
  | enterSpace : Treatment.Like like .enterSpace .enterSpace
  | declare {type type' : Option TypeUse} (types : Option.Rel like type type') :
    Treatment.Like like (.declare type) (.declare type')

def Treatment.isDirect : Treatment → Bool
  | .enter _ | .declare _ => true
  | _ => false

section Places

variable {like : TypeUse → TypeUse → Prop} {place place' : Place} {p : Profile} {reading : Reading}

theorem Place.Like.declarators {type type' : Option TypeUse} (types : Option.Rel like type type') :
    Place.Like like (.declarators type) (.declarators type') := by
  cases types with
  | some types => exact .typed types
  | none => exact .untyped rfl

theorem Place.Like.treatment (places : place.Like like place') (tag : String) :
    (place.treatment p tag).Like like (place'.treatment (p.reread reading) tag) := by
  have entered : ∀ place, place = .statements ∨ place = .parameters ∨ place = .parameter →
      Treatment.Like like (.enter place) (.enter place) := by
    rintro place (rfl | rfl | rfl) <;> exact .enter (.untyped rfl) rfl
  -- Only declarators carry a type from one to the next; every other place is the same on both sides.
  cases places with
  | typed types =>
    unfold Place.treatment
    dsimp only
    split
    · exact .declare (.some types)
    · exact .skip
  | untyped plain =>
    unfold Place.treatment
    cases place with
    | statements => exact .visit
    | leading mayHavePackage =>
      change Treatment.Like like _ (if (p.leading? mayHavePackage tag).isSome then .skip else .visit)
      dsimp only
      split
      · exact .skip
      · exact .visit
    | body ofBlock named =>
      dsimp only
      split
      · split
        · exact .visit
        · exact entered _ (.inl rfl)
      · exact .skip
      · exact .skip
      · exact .skip
      · exact .skip
      · split
        · exact .skip
        · exact entered _ (.inr (.inl rfl))
      · exact .visit
    | spaceBody => dsimp only; split <;> constructor
    | template => dsimp only; split <;> constructor
    | declarators previous =>
      cases previous with
      | some u => cases plain
      | none =>
        dsimp only
        split
        · exact .declare .none
        · exact .skip
    | initializers => dsimp only; split <;> constructor
    | parameters =>
      dsimp only
      split
      · exact entered _ (.inr (.inr rfl))
      · exact .skip
    | parameter =>
      dsimp only
      split
      · exact .declare .none
      · exact .skip
    | call =>
      dsimp only
      split
      · exact entered _ (.inl rfl)
      · exact .skip
    | rest => exact .skip

theorem Place.Like.next (places : place.Like like place') (tag : String) {type type' : Option TypeUse}
    (types : Option.Rel like type type') :
    (place.next p tag type).Like like (place'.next (p.reread reading) tag type') := by
  cases places with
  | typed types' =>
    unfold Place.next
    dsimp only
    split
    · exact .declarators types
    · exact .typed types'
  | untyped plain =>
    cases place with
    | leading mayHavePackage =>
      refine Place.Like.untyped ?_
      unfold Place.next
      dsimp only
      split <;> rfl
    | declarators previous =>
      cases previous with
      | some u => cases plain
      | none =>
        unfold Place.next
        dsimp only
        split
        · exact .declarators types
        · exact .untyped plain
    | call =>
      unfold Place.next
      dsimp only
      split <;> exact .untyped rfl
    | statements => exact .untyped plain
    | body ofBlock named => exact .untyped plain
    | spaceBody => exact .untyped plain
    | template => exact .untyped plain
    | initializers => exact .untyped plain
    | parameters => exact .untyped plain
    | parameter => exact .untyped plain
    | rest => exact .untyped plain

end Places

def Site.importsOf (site : Site) (p : Profile) (mayHavePackage : Bool) (elements : List Element) :
    Except Error (List Import) :=
  (p.leadingImports mayHavePackage elements).mapM (site.importOf p)

namespace Survey

variable {alike : Scope → Scope → Prop} {like : TypeUse → TypeUse → Prop} {p : Profile} {reading : Reading}
  {around around' : Surroundings}

theorem run_readImports (p : Profile) (mayHavePackage : Bool) (elements : List Element) (c : Context) :
    (readImports p mayHavePackage elements).run c = (c.site.importsOf p mayHavePackage elements, c) := by
  unfold readImports Site.importsOf
  rw [run_bind, run_get]
  dsimp only
  induction p.leadingImports mayHavePackage elements with
  | nil => rfl
  | cons first rest ih =>
    rw [List.mapM_cons, List.mapM_cons, run_bind]
    have read : (readImports.liftExcept (c.site.importOf p first)).run c = (c.site.importOf p first, c) := rfl
    rw [read]
    cases c.site.importOf p first with
    | error error => rfl
    | ok i =>
      dsimp only
      rw [run_bind, ih]
      cases rest.mapM (c.site.importOf p) <;> rfl

theorem readImports_lockstep {mayHavePackage : Bool} {elements elements' : List Element}
    (errors : (around'.site.importsOf (p.reread reading) mayHavePackage elements').map (fun _ => ()) =
      (around.site.importsOf p mayHavePackage elements).map fun _ => ()) :
    Lockstep alike around around' (fun found found' => around.site.importsOf p mayHavePackage elements = .ok found ∧
        around'.site.importsOf (p.reread reading) mayHavePackage elements' = .ok found')
      (readImports p mayHavePackage elements) (readImports (p.reread reading) mayHavePackage elements') := by
  intro c d inStep
  rw [run_readImports, run_readImports, inStep.site, inStep.site']
  cases left : around.site.importsOf p mayHavePackage elements with
  | error error =>
    rw [left] at errors
    cases right : around'.site.importsOf (p.reread reading) mayHavePackage elements' with
    | error error' =>
      rw [right] at errors
      cases errors
      exact .failed inStep
    | ok found' =>
      rw [right] at errors
      cases errors
  | ok found =>
    rw [left] at errors
    cases right : around'.site.importsOf (p.reread reading) mayHavePackage elements' with
    | error error' =>
      rw [right] at errors
      cases errors
    | ok found' => exact .done ⟨rfl, rfl⟩ inStep

def Surroundings.within (p : Profile) (e : Element) (around : Surroundings) : Surroundings :=
  match p.role e.tag with
  | .transparent => if e.tag = "template" then around else { around with region := some e.tag }
  | .type => { around with region := none }
  | _ => around

theorem Surroundings.within_type {e : Element} (isType : p.role e.tag = .type) :
    around.within p e = { around with region := none } := by
  unfold Surroundings.within
  rw [isType]

theorem Surroundings.within_template {e : Element} (isTransparent : p.role e.tag = .transparent)
    (isTemplate : e.tag = "template") : around.within p e = around := by
  unfold Surroundings.within
  rw [isTransparent]
  exact if_pos isTemplate

theorem Surroundings.within_region {e : Element} (isTransparent : p.role e.tag = .transparent)
    (other : e.tag ≠ "template") : around.within p e = { around with region := some e.tag } := by
  unfold Surroundings.within
  rw [isTransparent]
  exact if_neg other

theorem Surroundings.within_other {e : Element} (notTransparent : p.role e.tag ≠ .transparent)
    (notType : p.role e.tag ≠ .type) : around.within p e = around := by
  unfold Surroundings.within
  split
  · contradiction
  · contradiction
  · rfl

-- Two elements that are read alike where they stand, after the elements before them.
structure Reads (alike : Scope → Scope → Prop) (like : TypeUse → TypeUse → Prop) (p : Profile) (reading : Reading)
    (around around' : Surroundings) (before before' : List Element) (e e' : Element) : Prop where
  tag : e'.tag = e.tag
  type : p.role e.tag = .type → ∀ c d parameters, InStep alike around around' c d →
    alike (around.opened e (p.isReference e.tag) (typeScope p c parameters e))
      (around'.opened e' (p.isReference e.tag) (typeScope (p.reread reading) d parameters e'))
  method : p.role e.tag = .method → ∀ c d id, InStep alike around around' c d →
    alike (around.opened e (p.isReference e.tag) (methodScope p c e id))
      (around'.opened e' (p.isReference e.tag) (methodScope (p.reread reading) d e' id))
  path : p.role e.tag = .space → (e'.element? "name").map (·.segmentNames) = (e.element? "name").map (·.segmentNames)
  space : p.role e.tag = .space → ∀ name, alike (around.opened e false { name, kind := .space false })
    (around'.opened e' false { name, kind := .space false })
  block : p.role e.tag = .container →
    alike (around.opened e false { kind := .block }) (around'.opened e' false { kind := .block })
  template : p.role e.tag = .transparent → e'.templateParameters = e.templateParameters
  declaredType : e.tag = "decl" → ∀ here type type', Option.Rel like type type' →
    Option.Rel like (around.site.declaratorType? here type e) (around'.site.declaratorType? here type' e')
  declared : e.tag = "decl" → ∀ here type type' s t, Option.Rel like type type' → alike s t →
    alike ((around.site.declaredVariables here type e).foldl Scope.addVariable s)
      ((around'.site.declaredVariables here type' e').foldl Scope.addVariable t)
  call : e.tag = "call" → ∀ here, Option.Rel (fun k k' => ∀ s t, alike s t → alike (s.addCall k) (t.addCall k'))
    (around.site.call? p here before e) (around'.site.call? (p.reread reading) here before' e')

section Handlers

variable {before before' : List Element} {e e' : Element} {inside inside' : Inside}

-- The walks of two contents, for all places that correspond.
def InsideLockstep (alike : Scope → Scope → Prop) (like : TypeUse → TypeUse → Prop) (inSpace : Bool)
    (around around' : Surroundings) (inside inside' : Inside) : Prop :=
  ∀ place place', place.Like like place' → place.isSpaceBody = inSpace →
    Lockstep alike around around' (fun _ _ => True) (inside place) (inside' place')

theorem InsideLockstep.same {inSpace : Bool} (steps : InsideLockstep alike like inSpace around around' inside inside')
    (place : Place) (plain : place.type? = none) (stands : place.isSpaceBody = inSpace) :
    Lockstep alike around around' (fun _ _ => True) (inside place) (inside' place) :=
  steps place place (.untyped plain) stands

theorem openSpaces_lockstep (laws : Scope.Congruence alike) {step step' : Survey Unit}
    (opens : ∀ name, alike (around.opened e false { name, kind := .space false })
      (around'.opened e' false { name, kind := .space false }))
    (steps : Lockstep alike around around' (fun _ _ => True) step step') (names : List String) :
    Lockstep alike around around' Eq (openSpaces e step names) (openSpaces e' step' names) := by
  induction names with
  | nil =>
    refine steps.bind fun _ _ _ => ?_
    refine Lockstep.get.bind ?_
    intro c d inStep
    exact Lockstep.pure inStep.current.symm
  | cons name names ih =>
    refine Lockstep.withScope laws (fun _ => opens name) ?_
    exact ih.bind fun _ _ _ => Lockstep.pure trivial

theorem type_lockstep (laws : Scope.Congruence alike) (isType : p.role e.tag = .type)
    (reads : Reads alike like p reading around around' before before' e e')
    (steps : InsideLockstep alike like false { around with region := none } { around' with region := none } inside inside') :
    Lockstep alike around around' Eq (type p e inside) (type (p.reread reading) e' inside') := by
  unfold type
  rw [reads.tag, Profile.reread_isType]
  split
  · exact Lockstep.refused _ _ _
  · refine Lockstep.takeTypeParameters.bind ?_
    rintro parameters _ rfl
    refine Lockstep.get.bind ?_
    intro c d inStep
    refine Lockstep.withScope laws (fun _ => reads.type isType c d parameters inStep) ?_
    exact (steps.same (p.bodyOf e.tag) rfl rfl).withRegion

theorem space_lockstep (laws : Scope.Congruence alike) (isSpace : p.role e.tag = .space)
    (reads : Reads alike like p reading around around' before before' e e')
    (steps : InsideLockstep alike like true around around' inside inside') :
    Lockstep alike around around' Eq (space p e inside) (space (p.reread reading) e' inside') := by
  unfold space
  rw [reads.tag, reads.path isSpace, Profile.reread_isNamespace]
  split
  · exact Lockstep.refused _ _ _
  · exact openSpaces_lockstep laws (reads.space isSpace) (steps.same .spaceBody rfl rfl) _

theorem method_lockstep (laws : Scope.Congruence alike) (isMethod : p.role e.tag = .method)
    (reads : Reads alike like p reading around around' before before' e e')
    (steps : InsideLockstep alike like false around around' inside inside') :
    Lockstep alike around around' Eq (method p e inside) (method (p.reread reading) e' inside') := by
  unfold method
  rw [reads.tag, Profile.reread_isMethod]
  split
  · exact Lockstep.refused _ _ _
  · refine Lockstep.takeTypeParameters.bind ?_
    rintro _ _ -
    refine Lockstep.get.bind ?_
    intro c d inStep
    exact Lockstep.withScope laws (fun id => reads.method isMethod c d id inStep) (steps.same (p.bodyOf e.tag) rfl rfl)

theorem block_lockstep (laws : Scope.Congruence alike) (isContainer : p.role e.tag = .container)
    (reads : Reads alike like p reading around around' before before' e e')
    (steps : InsideLockstep alike like false around around' inside inside') :
    Lockstep alike around around' Eq (block p e inside) (block (p.reread reading) e' inside') := by
  unfold block
  rw [reads.tag, Profile.reread_isContainer]
  split
  · exact Lockstep.refused _ _ _
  · exact Lockstep.withScope laws (fun _ => reads.block isContainer) (steps.same (p.bodyOf e.tag) rfl rfl)

theorem region_lockstep (isTransparent : p.role e.tag = .transparent)
    (reads : Reads alike like p reading around around' before before' e e')
    (steps : InsideLockstep alike like false (around.within p e) (around'.within p e') inside inside') :
    Lockstep alike around around' (fun _ _ => True) (region e inside) (region e' inside') := by
  have isTransparent' : p.role e'.tag = .transparent := reads.tag ▸ isTransparent
  unfold region
  by_cases isTemplate : e.tag = "template"
  · have isTemplate' : e'.tag = "template" := reads.tag.trans isTemplate
    rw [if_pos isTemplate, if_pos isTemplate', reads.template isTransparent]
    rw [Surroundings.within_template isTransparent isTemplate,
      Surroundings.within_template isTransparent' isTemplate'] at steps
    exact Lockstep.withTypeParameters _ (steps.same .template rfl rfl)
  · have other : e'.tag ≠ "template" := reads.tag ▸ isTemplate
    rw [if_neg isTemplate, if_neg other]
    rw [Surroundings.within_region isTransparent isTemplate, Surroundings.within_region isTransparent' other] at steps
    exact Lockstep.withRegion (steps.same .statements rfl rfl)

theorem declarator_lockstep (isDeclarator : e.tag = "decl") {type type' : Option TypeUse}
    (types : Option.Rel like type type') (reads : Reads alike like p reading around around' before before' e e')
    (steps : InsideLockstep alike like false around around' inside inside') :
    Lockstep alike around around' (Option.Rel like) (declarator e type inside) (declarator e' type' inside') := by
  intro c d inStep
  rw [run_declarator, run_declarator, inStep.site, inStep.site', inStep.current]
  have types' := reads.declaredType isDeclarator c.current type type' types
  have filled := inStep.modifyCurrent fun s t alike => reads.declared isDeclarator c.current _ _ s t types' alike
  exact ((steps.same .initializers rfl rfl).bind fun _ _ _ => Lockstep.pure types') _ _ filled

theorem call_lockstep (isCall : e.tag = "call") (reads : Reads alike like p reading around around' before before' e e')
    (steps : InsideLockstep alike like false around around' inside inside') :
    Lockstep alike around around' (fun _ _ => True) (call p before e inside)
      (call (p.reread reading) before' e' inside') := by
  intro c d inStep
  have calls := reads.call isCall c.current
  rw [run_call, run_call, inStep.site, inStep.site', inStep.current]
  generalize around.site.call? p c.current before e = found at calls
  generalize around'.site.call? (p.reread reading) c.current before' e' = found' at calls
  cases calls with
  | none => exact steps.same .statements rfl rfl _ _ inStep
  | some added => exact steps.same .call rfl rfl _ _ (inStep.modifyCurrent added)

theorem visit_lockstep (laws : Scope.Congruence alike)
    (reads : Reads alike like p reading around around' before before' e e')
    (steps : InsideLockstep alike like (p.role e.tag == .space) (around.within p e) (around'.within p e') inside
      inside') :
    Lockstep alike around around' (fun _ _ => True) (visit p before e inside)
      (visit (p.reread reading) before' e' inside') := by
  -- Below a type or a region the surroundings change; for all other roles they are those around the element.
  have unchanged : p.role e.tag ≠ .transparent ∧ p.role e.tag ≠ .type →
      InsideLockstep alike like (p.role e.tag == .space) around around' inside inside' := by
    rintro ⟨notTransparent, notType⟩
    rwa [Surroundings.within_other notTransparent notType,
      Surroundings.within_other (reads.tag ▸ notTransparent) (reads.tag ▸ notType)] at steps
  unfold visit
  rw [reads.tag, Profile.reread_role]
  cases role : p.role e.tag with
  | transparent =>
    rw [role] at steps
    exact region_lockstep role reads steps
  | type =>
    rw [Surroundings.within_type role, Surroundings.within_type (reads.tag ▸ role), role] at steps
    exact (type_lockstep laws role reads steps).discard
  | latecomer => exact Lockstep.pure trivial
  | comment => exact Lockstep.pure trivial
  | space =>
    rw [role] at unchanged
    exact (space_lockstep laws role reads (unchanged (by decide))).discard
  | method =>
    rw [role] at unchanged
    exact (method_lockstep laws role reads (unchanged (by decide))).discard
  | container =>
    rw [role] at unchanged
    exact (block_lockstep laws role reads (unchanged (by decide))).discard
  | declaration =>
    rw [role] at unchanged
    exact (unchanged (by decide)).same (.declarators none) rfl rfl
  | call =>
    rw [role] at unchanged
    exact call_lockstep (Profile.tag_of_role_call role) reads (unchanged (by decide))
  | declarator =>
    rw [role] at unchanged
    exact (declarator_lockstep (Profile.tag_of_role_declarator role) .none reads (unchanged (by decide))).discard
  | plain =>
    rw [role] at unchanged
    exact (unchanged (by decide)).same .statements rfl rfl

theorem treat_lockstep (laws : Scope.Congruence alike) {treatment treatment' : Treatment}
    (reads : Reads alike like p reading around around' before before' e e') (treatments : treatment.Like like treatment')
    (declares : ∀ type, treatment = .declare type → e.tag = "decl")
    (visited : treatment = .visit →
      InsideLockstep alike like (p.role e.tag == .space) (around.within p e) (around'.within p e') inside inside')
    (entered : treatment.isDirect = true → InsideLockstep alike like false around around' inside inside')
    (errors : treatment = .enterSpace → (around'.site.importsOf (p.reread reading) false e'.elements).map (fun _ => ()) =
      (around.site.importsOf p false e.elements).map fun _ => ())
    (spaces : treatment = .enterSpace → ∀ found found', around.site.importsOf p false e.elements = .ok found →
      around'.site.importsOf (p.reread reading) false e'.elements = .ok found' →
      InsideLockstep alike like false (around.importing found) (around'.importing found') inside inside') :
    Lockstep alike around around' (Option.Rel like) (treat p before e inside treatment)
      (treat (p.reread reading) before' e' inside' treatment') := by
  unfold treat
  cases treatments with
  | skip => exact Lockstep.pure .none
  | visit => exact (visit_lockstep laws reads (visited rfl)).bind fun _ _ _ => Lockstep.pure .none
  | enter places outside =>
    exact Lockstep.bind (entered rfl _ _ places outside) fun _ _ _ => Lockstep.pure .none
  | enterSpace =>
    refine (readImports_lockstep (errors rfl)).bind ?_
    rintro found found' ⟨read, read'⟩
    have inner := (spaces rfl found found' read read').same (.leading false) rfl rfl
    exact inner.withImports.bind fun _ _ _ => Lockstep.pure .none
  | declare types =>
    exact declarator_lockstep (declares _ rfl) types reads (entered rfl)

end Handlers

def Surroundings.start (p : Profile) (unit : Element) : Surroundings where
  site := { file := unit.fileName, language := p.language }

section Units

variable {u u' : Element}

theorem get?_unitStart (x : ScopeId) :
    (unitStart p u).graph.get? x = if x = 0 then some ((Surroundings.start p u).opened u false .global) else none := by
  have first : (Context.start u.fileName p.language).current = 0 := rfl
  unfold unitStart Context.modifyCurrent
  dsimp only
  rw [Graph.get?_modify, first]
  split
  · rfl
  · rename_i other
    exact Graph.get?_eq_none_of_size_le (Nat.one_le_iff_ne_zero.mpr other)

theorem unitStart_inStep (opens : alike ((Surroundings.start p u).opened u false .global)
      ((Surroundings.start p u').opened u' false .global)) :
    InStep alike (.start p u) (.start p u') (unitStart p u) (unitStart (p.reread reading) u') := by
  refine ⟨⟨rfl, rfl, rfl, ?_⟩, rfl, rfl, rfl, rfl, rfl, rfl⟩
  intro x
  rw [get?_unitStart, get?_unitStart]
  split
  · exact .some opens
  · exact .none

theorem unitBody_lockstep (laws : Scope.Congruence alike)
    (errors : ((Surroundings.start p u').site.importsOf (p.reread reading) true u'.elements).map (fun _ => ()) =
      ((Surroundings.start p u).site.importsOf p true u.elements).map fun _ => ())
    (packages : Option.Rel (fun e e' => (e'.element? "name").map (·.segmentNames) = (e.element? "name").map (·.segmentNames) ∧
        ∀ name, alike ((Surroundings.start p u).opened e false { name, kind := .space false })
          ((Surroundings.start p u').opened e' false { name, kind := .space false }))
      (p.leadingPackage? u.elements) ((p.reread reading).leadingPackage? u'.elements))
    (statements : ∀ found found', (Surroundings.start p u).site.importsOf p true u.elements = .ok found →
      (Surroundings.start p u').site.importsOf (p.reread reading) true u'.elements = .ok found' →
      Lockstep alike ((Surroundings.start p u).importing found) ((Surroundings.start p u').importing found')
        (fun _ _ => True) (insideOf p u (.leading true)) (insideOf (p.reread reading) u' (.leading true))) :
    Lockstep alike (.start p u) (.start p u') (fun _ _ => True) (unitBody p u) (unitBody (p.reread reading) u') := by
  unfold unitBody
  refine (readImports_lockstep errors).bind ?_
  rintro found found' ⟨read, read'⟩
  have inner := statements found found' read read'
  refine Lockstep.withImports ?_
  dsimp only
  generalize p.leadingPackage? u.elements = package at packages
  generalize (p.reread reading).leadingPackage? u'.elements = package' at packages
  cases packages with
  | none => exact inner
  | @some e e' related =>
    obtain ⟨path, opens⟩ := related
    have opens' : ∀ name, alike (((Surroundings.start p u).importing found).opened e false { name, kind := .space false })
        (((Surroundings.start p u').importing found').opened e' false { name, kind := .space false }) := opens
    dsimp only
    rw [path]
    exact (openSpaces_lockstep laws opens' inner _).bind fun _ _ _ => Lockstep.pure trivial

end Units

end Survey

-- Both surveys give graphs that are in step, or both are refused for the same reason.
inductive SurveyedAlike (alike : Scope → Scope → Prop) : Except Error Graph → Except Error Graph → Prop
  | done {g h : Graph} (inStep : g.InStep alike h) : SurveyedAlike alike (.ok g) (.ok h)
  | refused (error : Error) : SurveyedAlike alike (.error error) (.error error)

theorem surveyUnit_lockstep {alike : Scope → Scope → Prop} {p : Profile} {reading : Reading} {u u' : Element}
    (tag : u'.tag = u.tag)
    (opens : alike ((Survey.Surroundings.start p u).opened u false .global)
      ((Survey.Surroundings.start p u').opened u' false .global))
    (body : Survey.Lockstep alike (.start p u) (.start p u') (fun _ _ => True) (Survey.unitBody p u)
      (Survey.unitBody (p.reread reading) u')) :
    SurveyedAlike alike (surveyUnit p u) (surveyUnit (p.reread reading) u') := by
  unfold surveyUnit
  rw [tag]
  split
  · exact .refused _
  · have ends := body (Survey.unitStart p u) (Survey.unitStart (p.reread reading) u') (Survey.unitStart_inStep opens)
    generalize (Survey.unitBody p u).run (Survey.unitStart p u) = left at ends
    generalize (Survey.unitBody (p.reread reading) u').run (Survey.unitStart (p.reread reading) u') = right at ends
    cases ends with
    | done _ inStep => exact .done inStep.graph
    | failed _ => exact .refused _

end ScopeAtlas
