import ScopeAtlas.Proofs.Links
import ScopeAtlas.Proofs.LexicalContext
import ScopeAtlas.Proofs.Refusals

namespace ScopeAtlas

namespace Context

-- The scopes without a parent are the open ones, innermost first.
def IsCoherent (c : Context) : Prop :=
  ∃ here m mine rest, c.graph.Pictures (.tree here m mine rest) ∧ c.stack = here :: rest.roots

-- What a step leaves behind, whatever its outcome.
structure Resumes (c after : Context) : Prop where
  coherent : after.IsCoherent
  stack : after.stack = c.stack
  site : after.site = c.site
  region : after.region = c.region

variable {c d : Context}

theorem IsCoherent.congr (coherent : c.IsCoherent) (graph : d.graph = c.graph) (stack : d.stack = c.stack) :
    d.IsCoherent := by
  unfold IsCoherent
  rw [graph, stack]
  exact coherent

theorem IsCoherent.exists_stack (coherent : c.IsCoherent) : ∃ up, c.stack = c.current :: up := by
  obtain ⟨here, m, mine, rest, -, stack⟩ := coherent
  refine ⟨rest.roots, ?_⟩
  simp [Context.current, stack]

theorem IsCoherent.openScope {s : Scope} (coherent : c.IsCoherent) (alone : s.linked none [] = s) :
    (c.openScope s).IsCoherent := by
  obtain ⟨here, m, mine, rest, picture, stack⟩ := coherent
  exact ⟨c.graph.size, s, .nil, .tree here m mine rest, picture.insert alone, congrArg (c.graph.size :: ·) stack⟩

theorem IsCoherent.modifyCurrent {change : Scope → Scope} (coherent : c.IsCoherent)
    (content : ∀ m parent children, change (Scope.linked m parent children) = (change m).linked parent children) :
    (c.modifyCurrent change).IsCoherent := by
  obtain ⟨here, m, mine, rest, picture, stack⟩ := coherent
  have current : c.current = here := by simp [Context.current, stack]
  refine ⟨here, change m, mine, rest, ?_, stack⟩
  rw [Context.modifyCurrent, current]
  exact picture.modify (content m)

-- The innermost scope may be united with others on the way, but never with one that is still open.
theorem IsCoherent.closeInto {id here : ScopeId} {up : List ScopeId} (coherent : c.IsCoherent)
    (stack : c.stack = id :: here :: up) :
    { c.closeScope with graph := (c.closeScope.graph.adopt here id).2 }.IsCoherent := by
  obtain ⟨id', s, below, outside, picture, stack'⟩ := coherent
  obtain ⟨rfl, outer⟩ := List.cons.inj (stack'.symm.trans stack)
  cases outside with
  | nil => cases outer
  | tree here' m mine rest =>
    obtain ⟨rfl, rfl⟩ := List.cons.inj outer
    obtain ⟨closed, adopted, -, -, -, picture'⟩ := Change.adopt_pictures picture
    have graph : (c.closeScope.graph.adopt here' id').2 = closed.graph := by
      rw [← adopted]
      rfl
    rw [graph]
    refine ⟨_, _, _, _, picture', ?_⟩
    change c.stack.tail = _
    rw [stack, List.tail_cons, Forest.roots_mapScopes]

theorem IsCoherent.mem_stack_iff (coherent : c.IsCoherent) {id : ScopeId} :
    id ∈ c.stack ↔ c.graph.contains id = true ∧ c.graph.parent? id = none := by
  obtain ⟨here, m, mine, rest, picture, stack⟩ := coherent
  have roots : (Forest.tree here m mine rest).roots = c.stack := stack.symm
  rw [← roots, picture.mem_roots_iff, Graph.contains_iff]
  constructor
  · intro top
    obtain ⟨s, found, none⟩ := top
    exact ⟨⟨s, found⟩, by simp [Graph.parent?, found, none]⟩
  · intro top
    obtain ⟨⟨s, found⟩, none⟩ := top
    exact ⟨s, found, by simpa [Graph.parent?, found] using none⟩

theorem IsCoherent.not_mem_children (coherent : c.IsCoherent) {id : ScopeId} (listed : id ∈ c.stack) (x : ScopeId) :
    id ∉ c.graph.children x := by
  intro member
  have top := (coherent.mem_stack_iff.mp listed).2
  obtain ⟨here, m, mine, rest, picture, -⟩ := coherent
  cases found : c.graph.get? x with
  | none => simp [Graph.children, found] at member
  | some s =>
    have lists : c.graph.Lists x id := ⟨s, found, by simpa [Graph.children, found] using member⟩
    obtain ⟨t, found', above⟩ := picture.isForest.child x id lists
    rw [Graph.parent?, found'] at top
    exact absurd (above.symm.trans top) (Option.some_ne_none x)

theorem Resumes.refl (coherent : c.IsCoherent) : c.Resumes c := ⟨coherent, rfl, rfl, rfl⟩

theorem Resumes.trans {e : Context} (first : c.Resumes d) (second : d.Resumes e) : c.Resumes e :=
  ⟨second.coherent, second.stack.trans first.stack, second.site.trans first.site, second.region.trans first.region⟩

end Context

namespace Survey

-- Two steps that do the same in every coherent context, and resume it.
def Agree {α : Type} (x y : Survey α) : Prop :=
  ∀ c : Context, c.IsCoherent → y.run c = x.run c ∧ c.Resumes (x.run c).2

section Laws

variable {α β : Type} {x y : Survey α}

theorem Agree.pure (a : α) : Agree (pure a : Survey α) (pure a) := fun _ coherent => ⟨rfl, .refl coherent⟩

theorem Agree.get : Agree (get : Survey Context) get := fun _ coherent => ⟨rfl, .refl coherent⟩

theorem Agree.refused (error : Error) (next next' : α → Survey β) :
    Agree (throw error >>= next) (throw error >>= next') := fun _ coherent => ⟨rfl, .refl coherent⟩

theorem Agree.takeTypeParameters : Agree takeTypeParameters takeTypeParameters :=
  fun _ coherent => ⟨rfl, coherent.congr rfl rfl, rfl, rfl, rfl⟩

theorem Agree.readImports (p : Profile) (mayHavePackage : Bool) (elements : List Element) :
    Agree (readImports p mayHavePackage elements) (readImports p mayHavePackage elements) := by
  intro c coherent
  rw [run_readImports]
  exact ⟨rfl, .refl coherent⟩

theorem Agree.bind {next next' : α → Survey β} (first : Agree x y) (second : ∀ a, Agree (next a) (next' a)) :
    Agree (x >>= next) (y >>= next') := by
  intro c coherent
  obtain ⟨same, resumes⟩ := first c coherent
  rw [run_bind, run_bind, same]
  rcases run : x.run c with ⟨_ | a, c'⟩
  · rw [run] at resumes
    exact ⟨rfl, resumes⟩
  · rw [run] at resumes
    obtain ⟨same', resumes'⟩ := second a c' resumes.coherent
    exact ⟨same', resumes.trans resumes'⟩

theorem Agree.discard (agree : Agree x y) : Agree (Functor.discard x) (Functor.discard y) :=
  agree.bind fun _ => Agree.pure PUnit.unit

theorem Agree.surrounded {step step' : Survey α} (agree : Agree step step') (enter : Context → Context)
    (leave : Context → Context → Context)
    (run : ∀ c, x.run c = ((step.run (enter c)).1, leave c (step.run (enter c)).2))
    (run' : ∀ c, y.run c = ((step'.run (enter c)).1, leave c (step'.run (enter c)).2))
    (entered : ∀ c : Context, c.IsCoherent → (enter c).IsCoherent)
    (left : ∀ c c', (enter c).Resumes c' → c.Resumes (leave c c')) : Agree x y := by
  intro c coherent
  obtain ⟨same, resumes⟩ := agree (enter c) (entered c coherent)
  rw [run, run', same]
  exact ⟨rfl, left c _ resumes⟩

end Laws

section Surroundings

variable {step step' : Survey Unit}

theorem Agree.withImports (found : List Import) (agree : Agree step step') :
    Agree (withImports found step) (withImports found step') := by
  apply agree.surrounded (fun c => { c with site.imports := c.site.imports ++ found })
    (fun c c' => { c' with site.imports := c.site.imports }) (run_withImports found step) (run_withImports found step')
  · exact fun c coherent => coherent.congr rfl rfl
  · intro c c' resumes
    refine ⟨resumes.coherent.congr rfl rfl, resumes.stack, ?_, resumes.region⟩
    simp only [resumes.site]

theorem Agree.withRegion (region : Option String) (agree : Agree step step') :
    Agree (withRegion region step) (withRegion region step') := by
  apply agree.surrounded (fun c => { c with region }) (fun c c' => { c' with region := c.region })
    (run_withRegion region step) (run_withRegion region step')
  · exact fun c coherent => coherent.congr rfl rfl
  · exact fun c c' resumes => ⟨resumes.coherent.congr rfl rfl, resumes.stack, resumes.site, rfl⟩

theorem Agree.withTypeParameters (names : List String) (agree : Agree step step') :
    Agree (withTypeParameters names step) (withTypeParameters names step') := by
  apply agree.surrounded (fun c => { c with typeParameters := names }) (fun _ c' => { c' with typeParameters := [] })
    (run_withTypeParameters names step) (run_withTypeParameters names step')
  · exact fun c coherent => coherent.congr rfl rfl
  · exact fun c c' resumes => ⟨resumes.coherent.congr rfl rfl, resumes.stack, resumes.site, resumes.region⟩

theorem Agree.withScope {make : ScopeId → Scope} {e : Element} {isReference : Bool}
    (alone : ∀ id, (make id).linked none [] = make id) (agree : Agree step step') :
    Agree (withScope make e isReference step) (withScope make e isReference step') := by
  intro c coherent
  let s : Scope := { (make c.graph.size).addLocation (c.site.locate e isReference) with
    language := some c.site.language }
  have alone' : s.linked none [] = s :=
    congrArg (fun t : Scope => { t.addLocation (c.site.locate e isReference) with language := some c.site.language })
      (alone c.graph.size)
  obtain ⟨up, stack⟩ := coherent.exists_stack
  obtain ⟨same, inner⟩ := agree (c.openScope s) (coherent.openScope alone')
  have closed := inner.coherent.closeInto (inner.stack.trans (congrArg (c.graph.size :: ·) stack))
  rw [run_withScope, run_withScope, same]
  exact ⟨rfl, closed, congrArg List.tail inner.stack, inner.site, inner.region⟩

end Surroundings

theorem openSpaces_agree {e : Element} {step step' : Survey Unit} (agree : Agree step step') (names : List String) :
    Agree (openSpaces e step names) (openSpaces e step' names) := by
  induction names with
  | nil => exact agree.bind fun _ => Agree.get.bind fun c => Agree.pure c.current
  | cons name names ih =>
    apply Agree.withScope (fun _ => rfl)
    exact ih.bind fun _ => Agree.pure ()

section Handlers

variable {p : Profile} {e : Element} {before : List Element} {inside other : Inside}
  (agree : ∀ place, Agree (inside place) (other place))

include agree

theorem type_agree : Agree (type p e inside) (type p e other) := by
  unfold type
  split
  · exact Agree.refused _ _ _
  · apply Agree.takeTypeParameters.bind
    intro parameters
    apply Agree.get.bind
    intro c
    exact Agree.withScope (fun _ => rfl) ((agree (p.bodyOf e.tag)).withRegion none)

theorem space_agree : Agree (space p e inside) (space p e other) := by
  unfold space
  split
  · exact Agree.refused _ _ _
  · exact openSpaces_agree (agree .spaceBody) _

theorem method_agree : Agree (method p e inside) (method p e other) := by
  unfold method
  split
  · exact Agree.refused _ _ _
  · apply Agree.takeTypeParameters.bind
    intro parameters
    apply Agree.get.bind
    intro c
    exact Agree.withScope (fun _ => rfl) (agree (p.bodyOf e.tag))

theorem block_agree : Agree (block p e inside) (block p e other) := by
  unfold block
  split
  · exact Agree.refused _ _ _
  · exact Agree.withScope (fun _ => rfl) (agree (p.bodyOf e.tag))

theorem region_agree : Agree (region e inside) (region e other) := by
  unfold region
  split
  · exact (agree .template).withTypeParameters _
  · exact (agree .statements).withRegion _

theorem declarator_agree {previous : Option TypeUse} :
    Agree (declarator e previous inside) (declarator e previous other) := by
  intro c coherent
  let type := c.site.declaratorType? c.current previous e
  let found := c.site.declaredVariables c.current type e
  have filled : (c.modifyCurrent fun s => found.foldl Scope.addVariable s).IsCoherent :=
    coherent.modifyCurrent (Scope.linked_foldl_addVariable found)
  have last := (agree .initializers).bind fun _ => Agree.pure type
  obtain ⟨same, resumes⟩ := last _ filled
  rw [run_declarator, run_declarator]
  exact ⟨same, resumes.coherent, resumes.stack, resumes.site, resumes.region⟩

theorem call_agree : Agree (call p before e inside) (call p before e other) := by
  intro c coherent
  rw [run_call, run_call]
  cases c.site.call? p c.current before e with
  | none => exact agree .statements c coherent
  | some found =>
    have filled : (c.modifyCurrent (·.addCall found)).IsCoherent := coherent.modifyCurrent fun _ _ _ => rfl
    obtain ⟨same, resumes⟩ := agree .call _ filled
    exact ⟨same, resumes.coherent, resumes.stack, resumes.site, resumes.region⟩

theorem visit_agree : Agree (visit p before e inside) (visit p before e other) := by
  unfold visit
  cases p.role e.tag with
  | transparent => exact region_agree agree
  | type => exact (type_agree agree).discard
  | space => exact (space_agree agree).discard
  | method => exact (method_agree agree).discard
  | container => exact (block_agree agree).discard
  | declaration => exact agree (.declarators none)
  | latecomer => exact Agree.pure ()
  | comment => exact Agree.pure ()
  | call => exact call_agree agree
  | declarator => exact (declarator_agree agree).discard
  | plain => exact agree .statements

theorem treat_agree {treatment : Treatment} :
    Agree (treat p before e inside treatment) (treat p before e other treatment) := by
  unfold treat
  cases treatment with
  | skip => exact Agree.pure none
  | visit => exact (visit_agree agree).bind fun _ => Agree.pure none
  | enter place => exact (agree place).bind fun _ => Agree.pure none
  | enterSpace =>
    apply (Agree.readImports p false e.elements).bind
    intro found
    exact ((agree (.leading false)).withImports found).bind fun _ => Agree.pure none
  | declare previous => exact declarator_agree agree

end Handlers

theorem walk_agree (p : Profile) (content : Content) (place : Place) (before : List Element) :
    Agree (walk p content place before) (walk p content place before) := by
  induction content generalizing place before with
  | nil => exact Agree.pure ()
  | text run rest ih => exact ih place before
  | element tag attributes position line inner rest ihInner ihRest =>
    apply (treat_agree fun place => ihInner place []).bind
    intro type
    exact ihRest (place.next p tag type) _

theorem insideOf_agree (p : Profile) (e : Element) (place : Place) : Agree (insideOf p e place) (insideOf p e place) :=
  walk_agree p e.content place []

def unitBodyWith (p : Profile) (e : Element) (inside : Inside) : Survey Unit := do
  withImports (← readImports p true e.elements) <|
    (p.leadingPackage? e.elements).elim (inside (.leading true)) fun package =>
      discard (openSpaces package (inside (.leading true)) (((package.element? "name").map (·.segmentNames)).getD []))

theorem unitBody_eq (p : Profile) (e : Element) : unitBody p e = unitBodyWith p e (insideOf p e) := by
  unfold unitBody unitBodyWith
  cases p.leadingPackage? e.elements <;> rfl

theorem unitBodyWith_agree {p : Profile} {e : Element} {inside other : Inside}
    (agree : ∀ place, Agree (inside place) (other place)) : Agree (unitBodyWith p e inside) (unitBodyWith p e other) := by
  unfold unitBodyWith
  apply (Agree.readImports p true e.elements).bind
  intro found
  apply Agree.withImports
  cases p.leadingPackage? e.elements with
  | none => exact agree (.leading true)
  | some package => exact (openSpaces_agree (agree (.leading true)) _).discard

theorem unitStart_coherent (p : Profile) (e : Element) : (unitStart p e).IsCoherent := by
  obtain ⟨m, mine, rest, -, picture, stack⟩ := (unitStart_at p e).grown
  exact ⟨0, m, mine, rest, picture, stack⟩

section Entering

variable {α : Type} {step : Inside → Survey α} {inside : Inside} {c entered : Context} {place : Place}

-- From `c` on, a step enters its content in this place and at this context: a walk of the content that differs there
-- alone makes a difference to the step. An error inside is always passed on, so no entry goes unnoticed.
def Enters (step : Inside → Survey α) (inside : Inside) (c : Context) (place : Place) (entered : Context) : Prop :=
  ∃ other : Inside, (∀ q d, (other q).run d ≠ (inside q).run d → q = place ∧ d = entered) ∧
    (step other).run c ≠ (step inside).run c

-- Walks that differ at an incoherent context alone agree, so no difference is made there.
theorem Enters.coherent (enters : Enters step inside c place entered) (coherent : c.IsCoherent)
    (resumes : ∀ q, Agree (inside q) (inside q))
    (judged : ∀ other : Inside, (∀ q, Agree (inside q) (other q)) → Agree (step inside) (step other)) :
    entered.IsCoherent := by
  obtain ⟨other, only, differs⟩ := enters
  by_contra incoherent
  apply differs
  refine (judged other ?_ c coherent).1
  intro q d coherent'
  refine ⟨?_, (resumes q d coherent').2⟩
  by_contra apart
  obtain ⟨-, rfl⟩ := only q d apart
  exact incoherent coherent'

-- A failure of the content is one of the step, so the content is entered there.
theorem Enters.of_fails (fails : ∀ (other : Inside) (error : Error), ((other place).run entered).1 = .error error →
    ((step other).run c).1 = .error error) : Enters step inside c place entered := by
  classical
  let failing (error : Error) : Inside := fun q => ExceptT.mk fun d =>
    if q = place ∧ d = entered then (.error error, d) else (inside q).run d
  have fails' (error : Error) : ((step (failing error)).run c).1 = .error error := by
    apply fails
    exact congrArg Prod.fst (if_pos ⟨rfl, rfl⟩)
  have only (error : Error) (q : Place) (d : Context) (differs : (failing error q).run d ≠ (inside q).run d) :
      q = place ∧ d = entered := by
    by_contra elsewhere
    exact differs (if_neg elsewhere)
  -- the content itself may fail with one of two errors, not with both
  by_cases same : (step (failing (.notUnit ""))).run c = (step inside).run c
  · refine ⟨failing (.notType ""), only _, ?_⟩
    intro same'
    have equal := (fails' (.notUnit "")).symm.trans ((congrArg Prod.fst (same.trans same'.symm)).trans (fails' (.notType "")))
    cases equal
  · exact ⟨failing (.notUnit ""), only _, same⟩

end Entering

variable {p : Profile} {unit : Element} {place : Place} {c : Context}

theorem run_withScope_error {make : ScopeId → Scope} {e : Element} {isReference : Bool} {step : Survey Unit} {error : Error}
    (refused : (step.run (c.openScope { (make c.graph.size).addLocation (c.site.locate e isReference) with
      language := some c.site.language })).1 = .error error) :
    ((withScope make e isReference step).run c).1 = .error error := by
  rw [run_withScope]
  dsimp only
  rw [refused]
  rfl

section Ways

variable {inside : Inside} {before : List Element} {e : Element}

theorem enters_unit {found : List Import} (read : (unitStart p unit).site.importsOf p true unit.elements = .ok found)
    (unpackaged : p.leadingPackage? unit.elements = none) :
    Enters (unitBodyWith p unit) inside (unitStart p unit) (.leading true)
      { unitStart p unit with site.imports := found } := by
  apply Enters.of_fails
  intro other error fails
  rw [unitBodyWith, run_bind, run_readImports, read]
  dsimp only
  rw [unpackaged, Option.elim_none, run_withImports]
  exact fails

def insideType (p : Profile) (e : Element) (c : Context) : Context :=
  let around := { c with typeParameters := [] }
  let s := (typeScope p around c.typeParameters e).addLocation (c.site.locate e (p.isReference e.tag))
  { around.openScope { s with language := some c.site.language } with region := none }

theorem run_type (checked : p.isType e.tag = true) :
    (type p e inside).run c =
      let around := { c with typeParameters := [] }
      (withScope (fun _ => typeScope p around c.typeParameters e) e (p.isReference e.tag)
        (withRegion none (inside (p.bodyOf e.tag)))).run around := by
  have taken : takeTypeParameters.run c = (.ok c.typeParameters, { c with typeParameters := [] }) := rfl
  unfold type
  rw [checked, if_neg (by decide), run_bind, taken]
  dsimp only
  rw [run_bind, run_get]

theorem enters_type (isType : p.role e.tag = .type) :
    Enters (fun inside => treat p before e inside .visit) inside c (p.bodyOf e.tag) (insideType p e c) := by
  have checked := p.role_holds e.tag
  rw [isType] at checked
  apply Enters.of_fails
  intro other error fails
  have inner : ((type p e other).run c).1 = .error error := by
    rw [run_type checked]
    apply run_withScope_error
    rw [run_withRegion]
    exact fails
  refine run_bind_error ?_ _
  rw [visit, isType]
  exact run_bind_error inner _

theorem enters_region (isTransparent : p.role e.tag = .transparent) (notTemplate : e.tag ≠ "template") :
    Enters (fun inside => treat p before e inside .visit) inside c .statements { c with region := some e.tag } := by
  apply Enters.of_fails
  intro other error fails
  refine run_bind_error ?_ _
  rw [visit, isTransparent]
  dsimp only
  rw [region, if_neg notTemplate, run_withRegion]
  exact fails

theorem enters_place : Enters (fun inside => treat p before e inside (.enter place)) inside c place c := by
  apply Enters.of_fails
  intro other error fails
  exact run_bind_error fails _

end Ways

-- The points that the survey of a unit comes to: what is left of some content there, in which place, after which
-- elements, and the context.
inductive Reached (p : Profile) (unit : Element) : Content → Place → List Element → Context → Prop
  | start {place : Place} {c : Context} (enters : Enters (unitBodyWith p unit) (insideOf p unit) (unitStart p unit) place c) :
    Reached p unit unit.content place [] c
  | text {run : String} {rest : Content} {place : Place} {before : List Element} {c : Context}
    (reached : Reached p unit (.text run rest) place before c) : Reached p unit rest place before c
  | entered {e : Element} {rest : Content} {place place' : Place} {before : List Element} {c c' : Context}
    (reached : Reached p unit (.element e.tag e.attributes e.position e.line e.content rest) place before c)
    (enters : Enters (fun inside => treat p before e inside (place.treatment p e.tag)) (insideOf p e) c place' c') :
    Reached p unit e.content place' [] c'
  | passed {e : Element} {rest : Content} {place : Place} {before : List Element} {c c' : Context} {type : Option TypeUse}
    (reached : Reached p unit (.element e.tag e.attributes e.position e.line e.content rest) place before c)
    (treated : (treat p before e (insideOf p e) (place.treatment p e.tag)).run c = (.ok type, c')) :
    Reached p unit rest (place.next p e.tag type) (e :: before) c'

variable {content : Content} {done : List Element}

theorem Reached.coherent (reached : Reached p unit content place done c) : c.IsCoherent := by
  induction reached with
  | start enters =>
    exact enters.coherent (unitStart_coherent p unit) (insideOf_agree p unit) fun _ agree => unitBodyWith_agree agree
  | text _ ih => exact ih
  | entered _ enters ih => exact enters.coherent ih (insideOf_agree p _) fun _ agree => treat_agree agree
  | @passed e rest place before c c' type _ treated ih =>
    have agree := @treat_agree p e before _ _ (insideOf_agree p e) (place.treatment p e.tag)
    have resumes := (agree _ ih).2
    rw [treated] at resumes
    exact resumes.coherent

-- The scopes without a parent are then the open ones still, so that none of them was united with another one or placed
-- below one, and all that was opened on the way has found a place.
theorem visit_resumes_reached_context (reached : Reached p unit content place done c) (before : List Element) (e : Element)
    (outcome : Except Error Unit) (after : Context) (visited : (visit p before e (insideOf p e)).run c = (outcome, after)) :
    after.stack = c.stack ∧ after.site = c.site ∧ after.region = c.region ∧
      (∀ id ∈ c.stack, after.graph.contains id = true ∧ after.graph.parent? id = none ∧
        ∀ x, id ∉ after.graph.children x) ∧
      ∀ id, after.graph.contains id = true → after.graph.parent? id = none → id ∈ c.stack := by
  have agree := @visit_agree p e before _ _ (insideOf_agree p e)
  have resumes := (agree c reached.coherent).2
  rw [visited] at resumes
  refine ⟨resumes.stack, resumes.site, resumes.region, ?_, ?_⟩
  · intro id listed
    have still : id ∈ after.stack := resumes.stack ▸ listed
    obtain ⟨live, top⟩ := resumes.coherent.mem_stack_iff.mp still
    exact ⟨live, top, resumes.coherent.not_mem_children still⟩
  · intro id live top
    rw [← resumes.stack]
    exact resumes.coherent.mem_stack_iff.mpr ⟨live, top⟩

-- `using namespace std; class C { private: namespace N { using; } };` with an import that names nothing.
def regionUnit : Element :=
  let space := Content.written "namespace" (.name "N" <| .written "block" (.written "using" .nil .nil) .nil) .nil
  cppUnit (.usingSpace "std" <| .written "class" (.name "C" <| .written "block" (.written "private" space .nil) .nil) .nil)

def regionClass : Element := regionUnit.elements.getD 1 default

def regionBlock : Element := regionClass.elements.getD 1 default

def privateRegion : Element := regionBlock.elements.getD 0 default

def regionSpace : Element := privateRegion.elements.getD 0 default

def inRegionUnit : Context :=
  let start := unitStart .cPlusPlus regionUnit
  { start with site.imports := (start.site.importsOf .cPlusPlus true regionUnit.elements).toOption.getD [] }

def inRegionClass : Context := insideType .cPlusPlus regionClass inRegionUnit

theorem region_reached :
    Reached .cPlusPlus regionUnit privateRegion.content .statements [] { inRegionClass with region := some "private" } := by
  let importing : Element := regionUnit.elements.getD 0 default
  let name : Element := regionClass.elements.getD 0 default
  have read : (unitStart .cPlusPlus regionUnit).site.importsOf .cPlusPlus true regionUnit.elements =
      .ok inRegionUnit.site.imports := rfl
  have inUnit : Reached .cPlusPlus regionUnit regionUnit.content (.leading true) [] inRegionUnit :=
    .start (enters_unit read rfl)
  have atClass := inUnit.passed (e := importing) rfl
  have inClass := atClass.entered (e := regionClass) (enters_type rfl)
  have atBlock := inClass.passed (e := name) rfl
  have inBlock := atBlock.entered (e := regionBlock) enters_place
  exact inBlock.entered (e := privateRegion) (enters_region rfl (by decide +kernel))

-- The namespace is opened, and then fails at its import: it has still found its place in the class, and the rest is as before.
theorem failed_visit_resumes_region :
    ∃ c after, Reached .cPlusPlus regionUnit privateRegion.content .statements [] c ∧
      (visit .cPlusPlus [] regionSpace (insideOf .cPlusPlus regionSpace)).run c = (.error (.importWithoutName "using"), after) ∧
      after.graph.parent? 2 = some 1 ∧ after.stack = [1, 0] ∧
      after.site.imports.map Import.render = ["import std.*"] ∧ after.region = some "private" ∧
      ∀ id, id ∈ [1, 0] ↔ after.graph.contains id = true ∧ after.graph.parent? id = none := by
  have opened : inRegionClass.stack = [1, 0] := by decide +kernel
  have imports : inRegionClass.site.imports.map Import.render = ["import std.*"] := by decide +kernel
  have failed : ((visit .cPlusPlus [] regionSpace (insideOf .cPlusPlus regionSpace)).run
      { inRegionClass with region := some "private" }).1 = .error (.importWithoutName "using") := by decide +kernel
  have placed : ((visit .cPlusPlus [] regionSpace (insideOf .cPlusPlus regionSpace)).run
      { inRegionClass with region := some "private" }).2.graph.parent? 2 = some 1 := by decide +kernel
  obtain ⟨stack, site, region, still, only⟩ :=
    visit_resumes_reached_context region_reached [] regionSpace _ _ (Prod.ext failed rfl)
  refine ⟨_, _, region_reached, Prod.ext failed rfl, placed, stack.trans opened, ?_, region, ?_⟩
  · rw [site]
    exact imports
  · intro id
    rw [← opened]
    exact ⟨fun listed => ⟨(still id listed).1, (still id listed).2.1⟩, fun top => only id top.1 top.2⟩

end Survey

end ScopeAtlas
