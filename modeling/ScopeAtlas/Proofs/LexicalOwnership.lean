import ScopeAtlas.Proofs.Enclosure

namespace ScopeAtlas

structure Scope.Blank (s : Scope) : Prop where
  links : s.linked none [] = s
  filed : s.filed = []
  locations : s.locations = []

namespace Survey

open Lexical (Filing Keeps Within)

-- A survey of `file` stands where scopes are open at the locations `around`, with some filings made.
structure Stands (file : String) (places : Set Location) (around : List Location) (listed : Multiset Filing) (c : Context) :
    Prop where
  inFile : c.site.file = file
  forest : ∃ here m mine rest, c.graph.Pictures (.tree here m mine rest) ∧ c.stack = here :: rest.roots ∧
    Keeps places around listed (.tree here m mine rest)

-- A step that makes some more filings there whenever it succeeds, as long as all are of different elements.
def Files {α : Type} (file : String) (places : Set Location) (around : List Location) (items : List Filing) (x : Survey α) :
    Prop :=
  ∀ listed c, Stands file places around listed c → ((↑items + listed : Multiset Filing).map Filing.node).Nodup →
    ∀ a c', x.run c = (.ok a, c') → Stands file places around (↑items + listed) c' ∧ c'.stack = c.stack

structure SamePlace (c c' : Context) : Prop where
  graph : c'.graph = c.graph
  stack : c'.stack = c.stack
  file : c'.site.file = c.site.file

variable {α β : Type} {file : String} {places : Set Location} {around : List Location} {items items' : List Filing}

theorem Stands.congr {listed : Multiset Filing} {c c' : Context} (stands : Stands file places around listed c)
    (same : SamePlace c c') : Stands file places around listed c' := by
  refine ⟨same.file.trans stands.inFile, ?_⟩
  rw [same.graph, same.stack]
  exact stands.forest

section Laws

variable {x : Survey α}

theorem Files.still (still : ∀ c, SamePlace c (x.run c).2) : Files file places around [] x := by
  intro listed c stands _ a c' run
  have same := still c
  rw [run] at same
  rw [Multiset.coe_nil, zero_add]
  exact ⟨stands.congr same, same.stack⟩

theorem Files.pure (a : α) : Files file places around [] (pure a : Survey α) := Files.still fun _ => ⟨rfl, rfl, rfl⟩

theorem Files.get : Files file places around [] (get : Survey Context) := Files.still fun _ => ⟨rfl, rfl, rfl⟩

theorem Files.refused (error : Error) (next : α → Survey β) : Files file places around items (throw error >>= next) := by
  intro listed c stands _ a c' run
  cases run

theorem Files.bind {next : α → Survey β} (first : Files file places around items x)
    (second : ∀ a, Files file places around items' (next a)) : Files file places around (items ++ items') (x >>= next) := by
  intro listed c stands nodup b c'' run
  have all : (↑(items ++ items') + listed : Multiset Filing) = ↑items' + (↑items + listed) := by
    rw [← Multiset.coe_add]
    abel
  rw [all] at nodup
  rw [run_bind] at run
  rcases ran : x.run c with ⟨_ | a, c'⟩
  · rw [ran] at run
    cases run
  · rw [ran] at run
    have earlier : ((↑items + listed : Multiset Filing).map Filing.node).Nodup := by
      rw [Multiset.map_add] at nodup
      exact Multiset.nodup_of_le (Multiset.le_add_left _ _) nodup
    obtain ⟨after, stack⟩ := first listed c stands earlier a c' ran
    obtain ⟨after', stack'⟩ := second a _ c' after nodup b c'' run
    rw [all]
    exact ⟨after', stack'.trans stack⟩

theorem Files.thenLast {next : α → Survey β} (first : Files file places around items x)
    (second : ∀ a, Files file places around [] (next a)) : Files file places around items (x >>= next) := by
  simpa using first.bind second

theorem Files.after {next : α → Survey β} (first : Files file places around [] x)
    (second : ∀ a, Files file places around items (next a)) : Files file places around items (x >>= next) :=
  first.bind second

theorem Files.discard (files : Files file places around items x) : Files file places around items (Functor.discard x) := by
  have step : Functor.discard x = x >>= fun _ => Pure.pure PUnit.unit := rfl
  rw [step]
  exact files.thenLast fun _ => Files.pure PUnit.unit

theorem Files.surrounded {step : Survey α} (files : Files file places around items step) (enter : Context → Context)
    (leave : Context → Context → Context)
    (run : ∀ c, x.run c = ((step.run (enter c)).1, leave c (step.run (enter c)).2))
    (entered : ∀ c, SamePlace c (enter c)) (left : ∀ c c', SamePlace c' (leave c c')) :
    Files file places around items x := by
  intro listed c stands nodup a c' ran
  rw [run] at ran
  obtain ⟨ok, rfl⟩ := Prod.mk.inj ran
  obtain ⟨after, stack⟩ := files listed (enter c) (stands.congr (entered c)) nodup a _ (Prod.ext ok rfl)
  have same := left c (step.run (enter c)).2
  exact ⟨after.congr same, same.stack.trans (stack.trans (entered c).stack)⟩

end Laws

section Surroundings

variable {step : Survey Unit}

theorem Files.withImports (found : List Import) (files : Files file places around items step) :
    Files file places around items (withImports found step) :=
  files.surrounded (fun c => { c with site.imports := c.site.imports ++ found })
    (fun c c' => { c' with site.imports := c.site.imports }) (run_withImports found step)
    (fun _ => ⟨rfl, rfl, rfl⟩) fun _ _ => ⟨rfl, rfl, rfl⟩

theorem Files.withRegion (region : Option String) (files : Files file places around items step) :
    Files file places around items (withRegion region step) :=
  files.surrounded (fun c => { c with region }) (fun c c' => { c' with region := c.region }) (run_withRegion region step)
    (fun _ => ⟨rfl, rfl, rfl⟩) fun _ _ => ⟨rfl, rfl, rfl⟩

theorem Files.withTypeParameters (names : List String) (files : Files file places around items step) :
    Files file places around items (withTypeParameters names step) :=
  files.surrounded (fun c => { c with typeParameters := names }) (fun _ c' => { c' with typeParameters := [] })
    (run_withTypeParameters names step) (fun _ => ⟨rfl, rfl, rfl⟩) fun _ _ => ⟨rfl, rfl, rfl⟩

end Surroundings

section Scopes

variable {listed : Multiset Filing} {l : Location} {c : Context}

theorem Stands.openScope {s : Scope} (stands : Stands file places around listed c) (links : s.linked none [] = s)
    (empty : s.filed = []) (only : s.locations = [l]) (place : l ∈ places) :
    Stands file places (l :: around) listed (c.openScope s) := by
  obtain ⟨here, m, mine, rest, picture, stack, keeps⟩ := stands.forest
  refine ⟨stands.inFile, c.graph.size, s, .nil, .tree here m mine rest, picture.insert links, ?_, ?_⟩
  · exact congrArg (c.graph.size :: ·) stack
  · exact keeps.opened empty only place

theorem Stands.closeInto {here id : ScopeId} {up : List ScopeId} (stands : Stands file places (l :: around) listed c)
    (once : Location.Unambiguous places) (nodup : (listed.map Filing.node).Nodup) (stack : c.stack = id :: here :: up) :
    Stands file places around listed { c.closeScope with graph := (c.closeScope.graph.adopt here id).2 } := by
  obtain ⟨id', s, below, outside, picture, stack', keeps⟩ := stands.forest
  obtain ⟨rfl, outer⟩ := List.cons.inj (stack'.symm.trans stack)
  cases outside with
  | nil => cases outer
  | tree here' m mine rest =>
    obtain ⟨rfl, rfl⟩ := List.cons.inj outer
    obtain ⟨closed, adopted, -, -, -, picture'⟩ := Change.adopt_pictures picture
    have graph : (c.closeScope.graph.adopt here' id').2 = closed.graph := by
      rw [← adopted]
      rfl
    rw [graph]
    refine ⟨stands.inFile, _, _, _, _, picture', ?_, keeps.closed once nodup _⟩
    change c.stack.tail = _
    rw [stack, List.tail_cons, Forest.roots_mapScopes]

theorem Files.withScope {make : ScopeId → Scope} {e : Element} {isReference : Bool} {step : Survey Unit}
    (once : Location.Unambiguous places) (blank : ∀ id, (make id).Blank)
    (place : Location.ofElement file e isReference ∈ places)
    (inner : Files file places (.ofElement file e isReference :: around) items step) :
    Files file places around items (withScope make e isReference step) := by
  intro listed c stands nodup a c' run
  have located : c.site.locate e isReference = .ofElement file e isReference := by rw [Site.locate, stands.inFile]
  obtain ⟨here, m, mine, rest, picture, stack, -⟩ := stands.forest
  have current : c.current = here := by simp [Context.current, stack]
  have fresh := blank c.graph.size
  let l := Location.ofElement file e isReference
  let s : Scope := { (make c.graph.size).addLocation l with language := some c.site.language }
  have links : s.linked none [] = s :=
    congrArg (fun t : Scope => { t.addLocation l with language := some c.site.language }) fresh.links
  have only : s.locations = [l] := by
    change Scope.addLocationTo l (make c.graph.size).locations = [l]
    rw [fresh.locations]
    rfl
  have opened := stands.openScope links fresh.filed only place
  rw [run_withScope, located, current] at run
  obtain ⟨ok, rfl⟩ := Prod.mk.inj run
  have done : ((step.run (c.openScope s)).1) = .ok () := by
    cases outcome : (step.run (c.openScope s)).1 with
    | error error =>
      rw [outcome] at ok
      cases ok
    | ok _ => rfl
  obtain ⟨after, same⟩ := inner listed _ opened nodup () _ (Prod.ext done rfl)
  refine ⟨after.closeInto once nodup (same.trans (congrArg (c.graph.size :: ·) stack)), ?_⟩
  exact congrArg List.tail same

end Scopes

section Handlers

variable {p : Profile} {e : Element} {inside : Inside} {within : Within}

theorem Stands.modifyCurrent {listed : Multiset Filing} {c : Context} {change : Scope → Scope} {new : List Record}
    (stands : Stands file places around listed c)
    (content : ∀ m parent children, change (Scope.linked m parent children) = (change m).linked parent children)
    (filed : ∀ m, (change m).filed.Perm (new ++ m.filed)) (located : ∀ m, (change m).locations = m.locations) :
    Stands file places around (↑(new.map fun r => Filing.mk r around) + listed) (c.modifyCurrent change) := by
  obtain ⟨here, m, mine, rest, picture, stack, keeps⟩ := stands.forest
  have current : c.current = here := by simp [Context.current, stack]
  refine ⟨stands.inFile, here, change m, mine, rest, ?_, stack, keeps.filled (filed m) (located m)⟩
  rw [Context.modifyCurrent, current]
  exact picture.modify (content m)

theorem Files.afterModify {step : Survey α} {c c' : Context} {a : α} {listed : Multiset Filing} {change : Scope → Scope}
    {new : List Record} (files : Files file places around items step) (stands : Stands file places around listed c)
    (nodup : ((↑(new.map (fun r => Filing.mk r around) ++ items) + listed : Multiset Filing).map Filing.node).Nodup)
    (content : ∀ m parent children, change (Scope.linked m parent children) = (change m).linked parent children)
    (filed : ∀ m, (change m).filed.Perm (new ++ m.filed)) (located : ∀ m, (change m).locations = m.locations)
    (run : step.run (c.modifyCurrent change) = (.ok a, c')) :
    Stands file places around (↑(new.map (fun r => Filing.mk r around) ++ items) + listed) c' ∧ c'.stack = c.stack := by
  have all : (↑(new.map (fun r => Filing.mk r around) ++ items) + listed : Multiset Filing) =
      ↑items + (↑(new.map fun r => Filing.mk r around) + listed) := by
    rw [← Multiset.coe_add]
    abel
  rw [all] at nodup ⊢
  exact files _ _ (stands.modifyCurrent content filed located) nodup a c' run

theorem declarator_files {previous : Option TypeUse}
    (files : Files file places around (within .initializers around) (inside .initializers)) :
    Files file places around (Lexical.declarator file e within around) (declarator e previous inside) := by
  intro listed c stands nodup a c' run
  let records := (e.elementsNamed "name").map fun name => Record.mk false (.ofElement file name false)
  have written : Lexical.declarator file e within around =
      records.map (fun r => Filing.mk r around) ++ within .initializers around := by
    rw [Lexical.declarator, Lexical.names, List.map_map]
    rfl
  have recorded : ∀ type, ((c.site.declaredVariables c.current type e).flatMap fun v => v.locations.map (Record.mk false)) =
      records := by
    intro type
    simp [records, Site.declaredVariables, List.flatMap_map, ← List.map_eq_flatMap, Site.locate, stands.inFile]
  rw [run_declarator] at run
  rw [written] at nodup ⊢
  refine (files.thenLast fun _ => Files.pure _).afterModify stands nodup (Scope.linked_foldl_addVariable _) ?_ ?_ run
  · intro m
    rw [← recorded]
    exact Scope.filed_foldl_addVariable _ m
  · exact Scope.locations_foldl_addVariable _

theorem call?_cases (site : Site) (scope : ScopeId) (before : List Element) :
    (site.call? p scope before e = none ∧ Lexical.isNamedCall e = false) ∨
      ∃ found, site.call? p scope before e = some found ∧ Lexical.isNamedCall e = true ∧
        found.location = site.locate e false := by
  unfold Site.call? Lexical.isNamedCall
  cases e.element? "name" with
  | none => exact Or.inl ⟨rfl, rfl⟩
  | some name =>
    cases segments : name.segments with
    | nil => simp [segments]
    | cons first rest => simp [segments]

theorem call_files {before : List Element}
    (files : ∀ place, Files file places around (within place around) (inside place)) :
    Files file places around (Lexical.call file e within around) (call p before e inside) := by
  intro listed c stands nodup a c' run
  rw [run_call] at run
  rcases @call?_cases p e c.site c.current before with ⟨none, unnamed⟩ | ⟨found, some, named, place⟩
  · have written : Lexical.call file e within around = within .statements around := by
      rw [Lexical.call, unnamed]
      rfl
    rw [none] at run
    rw [written] at nodup ⊢
    exact files .statements listed c stands nodup a c' run
  · let records : List Record := [⟨true, .ofElement file e false⟩]
    have written : Lexical.call file e within around =
        records.map (fun r => Filing.mk r around) ++ within .call around := by
      rw [Lexical.call, named]
      rfl
    have filed : ∀ m : Scope, (m.addCall found).filed.Perm (records ++ m.filed) := by
      intro m
      have added := m.filed_addCall found
      rw [place, Site.locate, stands.inFile] at added
      exact added
    rw [some] at run
    rw [written] at nodup ⊢
    exact (files .call).afterModify stands nodup (fun _ _ _ => rfl) filed (fun _ => rfl) run

theorem openSpaces_files {step : Survey Unit} (once : Location.Unambiguous places)
    (place : Location.ofElement file e false ∈ places) (names : List String)
    (inner : Files file places (List.replicate names.length (.ofElement file e false) ++ around) items step) :
    Files file places around items (openSpaces e step names) := by
  induction names generalizing around with
  | nil => exact inner.thenLast fun _ => Files.still fun _ => ⟨rfl, rfl, rfl⟩
  | cons name names ih =>
    refine Files.withScope once (fun _ => ⟨rfl, rfl, rfl⟩) place ?_
    refine (ih ?_).thenLast fun _ => Files.pure ()
    rw [List.length_cons, List.replicate_succ', List.append_assoc, List.singleton_append] at inner
    exact inner

theorem takeTypeParameters_files : Files file places around [] takeTypeParameters := Files.still fun _ => ⟨rfl, rfl, rfl⟩

theorem readImports_files {mayHavePackage : Bool} {elements : List Element} :
    Files file places around [] (readImports p mayHavePackage elements) := by
  unfold readImports
  refine Files.get.after ?_
  intro c
  dsimp only
  generalize p.leadingImports mayHavePackage elements = imports
  induction imports with
  | nil =>
    rw [List.mapM_nil]
    exact Files.pure []
  | cons first rest ih =>
    rw [List.mapM_cons]
    have read : Files file places around [] (readImports.liftExcept (c.site.importOf p first)) :=
      Files.still fun _ => ⟨rfl, rfl, rfl⟩
    exact read.after fun i => ih.after fun later => Files.pure (i :: later)

def Follows (file : String) (places : Set Location) (inside : Inside) (within : Within) : Prop :=
  ∀ place around, Files file places around (within place around) (inside place)

theorem type_files (once : Location.Unambiguous places) (place : Location.ofElement file e (p.isReference e.tag) ∈ places)
    (follows : Follows file places inside within) :
    Files file places around (within (p.bodyOf e.tag) (.ofElement file e (p.isReference e.tag) :: around))
      (type p e inside) := by
  unfold type
  split
  · exact Files.refused _ _
  · refine takeTypeParameters_files.after fun parameters => Files.get.after fun c => ?_
    exact Files.withScope once (fun _ => ⟨rfl, rfl, rfl⟩) place ((follows _ _).withRegion none)

theorem method_files (once : Location.Unambiguous places) (place : Location.ofElement file e (p.isReference e.tag) ∈ places)
    (follows : Follows file places inside within) :
    Files file places around (within (p.bodyOf e.tag) (.ofElement file e (p.isReference e.tag) :: around))
      (method p e inside) := by
  unfold method
  split
  · exact Files.refused _ _
  · refine takeTypeParameters_files.after fun parameters => Files.get.after fun c => ?_
    exact Files.withScope once (fun _ => ⟨rfl, rfl, rfl⟩) place (follows _ _)

theorem block_files (once : Location.Unambiguous places) (place : Location.ofElement file e false ∈ places)
    (follows : Follows file places inside within) :
    Files file places around (within (p.bodyOf e.tag) (.ofElement file e false :: around)) (block p e inside) := by
  unfold block
  split
  · exact Files.refused _ _
  · exact Files.withScope once (fun _ => ⟨rfl, rfl, rfl⟩) place (follows _ _)

theorem space_files (once : Location.Unambiguous places) (place : Location.ofElement file e false ∈ places)
    (follows : Follows file places inside within) :
    Files file places around
      (within .spaceBody (List.replicate (Lexical.spaceDepth e) (.ofElement file e false) ++ around))
      (space p e inside) := by
  have depth : Lexical.spaceDepth e = (if (((e.element? "name").map (·.segmentNames)).getD []).isEmpty then [""]
      else ((e.element? "name").map (·.segmentNames)).getD []).length := by
    unfold Lexical.spaceDepth
    cases ((e.element? "name").map (·.segmentNames)).getD [] <;> simp
  unfold space
  split
  · exact Files.refused _ _
  · refine openSpaces_files once place _ ?_
    rw [← depth]
    exact follows _ _

theorem region_files (follows : Follows file places inside within) :
    Files file places around (within (if e.tag = "template" then .template else .statements) around) (region e inside) := by
  unfold region
  split
  · exact (follows .template around).withTypeParameters _
  · exact (follows .statements around).withRegion _

theorem visit_files {before : List Element} (once : Location.Unambiguous places) (place : Lexical.opening p file e ∈ places)
    (follows : Follows file places inside within) :
    Files file places around (Lexical.visit p file e within around) (visit p before e inside) := by
  unfold Lexical.visit visit
  unfold Lexical.opening at place ⊢
  cases role : p.role e.tag with
  | transparent => exact region_files follows
  | type =>
    rw [role] at place
    exact (type_files once place follows).discard
  | space =>
    rw [role] at place
    exact (space_files once place follows).discard
  | method =>
    rw [role] at place
    exact (method_files once place follows).discard
  | container =>
    rw [role] at place
    exact (block_files once place follows).discard
  | declaration => exact follows (.declarators none) around
  | latecomer => exact Files.pure ()
  | comment => exact Files.pure ()
  | call => exact call_files fun place => follows place around
  | declarator => exact (declarator_files (follows .initializers around)).discard
  | plain => exact follows .statements around

theorem treat_files {before : List Element} (once : Location.Unambiguous places) (place : Lexical.opening p file e ∈ places)
    (follows : Follows file places inside within) (treatment : Treatment) :
    Files file places around (Lexical.treat p file e within around treatment) (treat p before e inside treatment) := by
  cases treatment with
  | skip => exact Files.pure none
  | visit => exact (visit_files once place follows).thenLast fun _ => Files.pure none
  | enter place => exact (follows place around).thenLast fun _ => Files.pure none
  | enterSpace =>
    refine readImports_files.after fun found => ?_
    exact ((follows (.leading false) around).withImports found).thenLast fun _ => Files.pure none
  | declare previous => exact declarator_files (follows .initializers around)

end Handlers

theorem walk_follows {p : Profile} {content : Content} (once : Location.Unambiguous places)
    (placed : ∀ x ∈ content.descendants, Lexical.opening p file x ∈ places) (before : List Element) :
    Follows file places (fun place => walk p content place before) (Lexical.filings p file content) := by
  induction content generalizing before with
  | nil => exact fun place around => Files.pure ()
  | text run rest ih => exact fun place around => ih placed before place around
  | element tag attributes position line inner rest ihInner ihRest =>
    intro place around
    simp only [Content.descendants, List.forall_mem_cons, List.forall_mem_append] at placed
    obtain ⟨here, below, beside⟩ := placed
    refine (treat_files once here (ihInner below []) (place.treatment p tag)).bind fun type => ?_
    rw [← Lexical.filings_next place tag type]
    exact ihRest beside _ (place.next p tag type) around

-- A package statement is not opened by the walk, which passes over it.
theorem walk_leading_files {p : Profile} {content : Content} (once : Location.Unambiguous places)
    (distinct : content.positions.Nodup)
    (placed : ∀ x ∈ content.descendants, p.leadingPackage? content.elements ≠ some x → Lexical.opening p file x ∈ places)
    (before : List Element) :
    Files file places around (Lexical.filings p file content (.leading true) around)
      (walk p content (.leading true) before) := by
  induction content generalizing before with
  | nil => exact Files.pure ()
  | text run rest ih => exact ih distinct placed before
  | element tag attributes position line inner rest _ ih =>
    let e : Element := ⟨tag, attributes, position, line, inner⟩
    let whole := Content.element tag attributes position line inner rest
    -- without a package statement every element may be opened
    have unstated (none : p.leadingPackage? (e :: rest.elements) = none) :
        Files file places around (Lexical.filings p file whole (.leading true) around)
          (walk p whole (.leading true) before) := by
      refine walk_follows once (fun x member => placed x member fun same => ?_) before (.leading true) around
      cases none.symm.trans same
    rw [Content.positions_element, List.nodup_append] at distinct
    obtain ⟨-, later, apart⟩ := distinct
    have placed' : ∀ x ∈ rest.descendants, p.leadingPackage? (e :: rest.elements) ≠ some x →
        Lexical.opening p file x ∈ places :=
      fun x member => placed x (List.mem_cons_of_mem _ (List.mem_append_right _ member))
    cases lead : p.leading? true tag with
    | none => exact unstated (by simp [Profile.leadingPackage?, e, lead])
    | some kind =>
      have skips : (Place.leading true).treatment p tag = .skip := by simp [Place.treatment, lead]
      cases kind with
      | importing => exact unstated (by simp [Profile.leadingPackage?, e, lead])
      | comment =>
        have next : ∀ type, (Place.leading true).next p tag type = .leading true := by simp [Place.next, lead]
        have same : p.leadingPackage? (e :: rest.elements) = p.leadingPackage? rest.elements := by
          simp [Profile.leadingPackage?, e, lead]
        rw [Lexical.filings, walk, skips, next]
        refine (Files.pure none).after fun type => ?_
        rw [next]
        exact ih later (fun x member other => placed' x member (same ▸ other)) _
      | package =>
        have next : ∀ type, (Place.leading true).next p tag type = .leading false := by simp [Place.next, lead]
        have stated : p.leadingPackage? (e :: rest.elements) = some e := by simp [Profile.leadingPackage?, e, lead]
        rw [Lexical.filings, walk, skips, next]
        refine (Files.pure none).after fun type => ?_
        rw [next]
        refine walk_follows once (fun x member => placed' x member fun same => ?_) _ (.leading false) around
        cases Option.some.inj (stated.symm.trans same)
        exact apart position List.mem_cons_self position (List.mem_map_of_mem member) rfl

end Survey

theorem Profile.mem_of_leadingPackage? {p : Profile} {x : Element} {elements : List Element}
    (stated : p.leadingPackage? elements = some x) : x ∈ elements := by
  induction elements with
  | nil => cases stated
  | cons first rest ih =>
    unfold Profile.leadingPackage? at stated
    split at stated
    · exact List.mem_cons_of_mem _ (ih stated)
    · cases stated
      exact List.mem_cons_self
    · cases stated

namespace Lexical

variable {p : Profile} {e x : Element}

-- Where scopes of a unit are seen. Those of the unit itself and of its package are opened outside of the walk.
def unitPlaces (p : Profile) (e : Element) : Set Location :=
  fun l => ∃ x ∈ e :: e.content.descendants,
    l = if x = e ∨ p.leadingPackage? e.elements = some x then .ofElement e.fileName x false else opening p e.fileName x

theorem unitPlaces_unambiguous (distinct : (e.position :: e.content.positions).Nodup) :
    Location.Unambiguous (unitPlaces p e) := by
  have node : ∀ x : Element, (if x = e ∨ p.leadingPackage? e.elements = some x then Location.ofElement e.fileName x false
      else opening p e.fileName x).node = (e.fileName, x.position) := by
    intro x
    split <;> rfl
  intro l ⟨x, member, here⟩ k ⟨y, member', there⟩ same
  rw [here, there, node, node] at same
  have distinct : ((e :: e.content.descendants).map (·.position)).Nodup := distinct
  cases List.inj_on_of_nodup_map distinct member member' (Prod.mk.inj same).2
  exact here.trans there.symm

theorem unit_mem_unitPlaces (p : Profile) (e : Element) : .ofElement e.fileName e false ∈ unitPlaces p e :=
  ⟨e, List.mem_cons_self, by rw [if_pos (Or.inl rfl)]⟩

theorem package_mem_unitPlaces (stated : p.leadingPackage? e.elements = some x) :
    .ofElement e.fileName x false ∈ unitPlaces p e :=
  have member : x ∈ e.content.descendants :=
    e.content.elements_subset_descendants (Profile.mem_of_leadingPackage? stated)
  ⟨x, List.mem_cons_of_mem _ member, by rw [if_pos (Or.inr stated)]⟩

theorem opening_mem_unitPlaces (distinct : (e.position :: e.content.positions).Nodup) (member : x ∈ e.content.descendants)
    (other : p.leadingPackage? e.elements ≠ some x) : opening p e.fileName x ∈ unitPlaces p e := by
  refine ⟨x, List.mem_cons_of_mem _ member, ?_⟩
  rw [if_neg]
  rintro (rfl | same)
  · exact (List.nodup_cons.mp distinct).1 (List.mem_map_of_mem member)
  · exact other same

theorem unitBody_files (distinct : (e.position :: e.content.positions).Nodup) :
    Survey.Files e.fileName (unitPlaces p e) [.ofElement e.fileName e false] (unitFilings p e) (Survey.unitBody p e) := by
  have once : Location.Unambiguous (unitPlaces p e) := unitPlaces_unambiguous distinct
  have statements : ∀ around, Survey.Files e.fileName (unitPlaces p e) around
      (filings p e.fileName e.content (.leading true) around) (Survey.insideOf p e (.leading true)) := by
    intro around
    refine Survey.walk_leading_files once (List.nodup_cons.mp distinct).2 ?_ []
    exact fun x member other => opening_mem_unitPlaces distinct member other
  unfold Survey.unitBody unitFilings unitAround
  refine Survey.readImports_files.after fun found => Survey.Files.withImports found ?_
  dsimp only
  cases stated : p.leadingPackage? e.elements with
  | none => exact statements _
  | some package =>
    refine (Survey.openSpaces_files once (package_mem_unitPlaces stated) _ ?_).thenLast fun _ => Survey.Files.pure ()
    exact statements _

theorem unitStart_stands (p : Profile) (e : Element) :
    Survey.Stands e.fileName (unitPlaces p e) [.ofElement e.fileName e false] 0 (Survey.unitStart p e) := by
  let l := Location.ofElement e.fileName e false
  let change : Scope → Scope := fun s => { s.addLocation l with language := some p.language }
  have content : ∀ parent children,
      change (Scope.global.linked parent children) = (change .global).linked parent children := fun _ _ => rfl
  have nothing : Keeps (unitPlaces p e) [] 0 .nil :=
    ⟨.nil, rfl, fun h member => (Multiset.notMem_zero h member).elim, fun h member => (Multiset.notMem_zero h member).elim⟩
  refine ⟨rfl, 0, change .global, .nil, .nil, Graph.empty_pictures.modify content, rfl, ?_⟩
  exact nothing.opened rfl rfl (unit_mem_unitPlaces p e)

theorem surveyUnit_keeps {g : Graph} (surveyed : surveyUnit p e = .ok g)
    (distinct : (e.position :: e.content.positions).Nodup) :
    ∃ s f, g.Pictures (.tree 0 s f .nil) ∧
      Keeps (unitPlaces p e) [.ofElement e.fileName e false] (unitFilings p e) (.tree 0 s f .nil) := by
  unfold surveyUnit at surveyed
  split at surveyed
  · cases surveyed
  · split at surveyed
    · rename_i c run
      cases surveyed
      have nodup : ((↑(unitFilings p e) + 0 : Multiset Filing).map Filing.node).Nodup := by
        rw [add_zero]
        exact unitFilings_nodup (List.nodup_cons.mp distinct).2
      obtain ⟨after, stack⟩ := unitBody_files distinct 0 _ (unitStart_stands p e) nodup () c run
      rw [add_zero] at after
      obtain ⟨here, s, f, rest, picture, stack', keeps⟩ := after.forest
      obtain ⟨rfl, alone⟩ := List.cons.inj (stack'.symm.trans stack)
      cases rest with
      | nil => exact ⟨s, f, picture, keeps⟩
      | tree id m mine rest => cases alone
    · cases surveyed

def LiesWithin (g : Graph) (x : ScopeId) (around : List Location) : Prop :=
  List.Forall₂ (fun y l => ∃ s, g.get? y = some s ∧ l ∈ s.locations) (g.ancestorsAndSelf x) around

theorem seats_seenAt {g : Graph} {ids : List ScopeId} {path : List Scope} {around : List Location}
    (seats : List.Forall₂ g.Seats ids path) (seen : List.Forall₂ SeenAt around path) :
    List.Forall₂ (fun y l => ∃ s, g.get? y = some s ∧ l ∈ s.locations) ids around := by
  induction seats generalizing around with
  | nil =>
    cases seen
    exact .nil
  | cons seat _ ih =>
    cases seen with
    | cons here later =>
      obtain ⟨parent, children, found⟩ := seat
      exact .cons ⟨_, found, here⟩ (ih later)

theorem Keeps.owned {g : Graph} {s : Scope} {f : Forest} {places : Set Location} {around : List Location}
    {listed : Multiset Filing} {h : Filing} (picture : g.Pictures (.tree 0 s f .nil))
    (keeps : Keeps places around listed (.tree 0 s f .nil)) (member : h ∈ listed) :
    ∃ x, (x, h.record) ∈ g.filed ∧ LiesWithin g x h.around := by
  obtain ⟨level, standing, recorded, seen⟩ := keeps.held h member
  have top : g.Chain none [] := rfl
  obtain ⟨x, seats, parent, children, found⟩ := picture.shows.seats top .nil standing
  exact ⟨x, Graph.mem_filed.mpr ⟨_, found, recorded⟩, seats_seenAt seats seen⟩

-- Every call and declaration that the survey comes to is filed, once, and nothing else is; it is filed in the scope opened
-- for the nearest element around it, which stands below the scopes opened for the further ones.
theorem surveyed_scopes_own_what_they_enclose {g : Graph} (surveyed : surveyUnit p e = .ok g)
    (distinct : (e.position :: e.content.positions).Nodup) :
    (g.filed.map Prod.snd).Perm ((unitFilings p e).map Filing.record) ∧
      ∀ h ∈ unitFilings p e, ∃ x, g.filed.filter (·.2.location.sameNode h.record.location) = [(x, h.record)] ∧
        LiesWithin g x h.around := by
  obtain ⟨s, f, picture, keeps⟩ := surveyUnit_keeps surveyed distinct
  have standing : (Forest.tree 0 s f .nil).standing = (Forest.tree 0 s f .nil).levels [] := rfl
  have same : (g.filed.map Prod.snd).Perm ((unitFilings p e).map Filing.record) := by
    rw [← Multiset.coe_eq_coe, ← picture.filed, ← standing, keeps.filed, Multiset.map_coe]
  have nodup : (g.filed.map (·.2.node)).Nodup := by
    have nodes := (same.map Record.node).nodup_iff.mpr
    rw [List.map_map, List.map_map] at nodes
    exact nodes (unitFilings_nodup (List.nodup_cons.mp distinct).2)
  refine ⟨same, ?_⟩
  intro h member
  obtain ⟨x, filed, lies⟩ := keeps.owned picture member
  refine ⟨x, List.perm_singleton.mp ?_, lies⟩
  rw [List.perm_ext_iff_of_nodup (nodup.of_map.filter _) (List.nodup_singleton _)]
  intro entry
  rw [List.mem_filter, List.mem_singleton, Location.sameNode_iff]
  constructor
  · intro ⟨listed, equal⟩
    exact List.inj_on_of_nodup_map nodup listed filed equal
  · rintro rfl
    exact ⟨filed, rfl⟩

-- `namespace a::b { int x = f(); }` and after it `namespace a { namespace b { int y; } }`.
def reopenedUnit : Element :=
  let path := Content.written "name" (.name "a" <| .written "operator" (.text "::" .nil) <| .name "b" .nil)
  let call := Content.written "call" (.name "f" <| .written "argument_list" .nil .nil) .nil
  let declared (name : String) (init : Content) := Content.written "decl_stmt"
    (.written "decl" (.written "type" (.name "int" .nil) <| .name name init) .nil) .nil
  let first := path <| .written "block" (declared "x" (.written "init" (.written "expr" call .nil) .nil)) .nil
  let inner := Content.name "b" <| .written "block" (declared "y" .nil) .nil
  let second := Content.name "a" <| .written "block" (.written "namespace" inner .nil) .nil
  { tag := "unit", attributes := [("filename", "a.cpp")]
    content := .written "namespace" first <| .written "namespace" second .nil : Element }.positioned

theorem reopened_namespace_owns_both_parts :
    ∃ g, surveyUnit .cPlusPlus reopenedUnit = .ok g ∧ (reopenedUnit.position :: reopenedUnit.content.positions).Nodup ∧
      (unitFilings .cPlusPlus reopenedUnit).map (·.around.length) = [3, 3, 3] ∧ g.filed.map Prod.fst = [2, 2, 2] ∧
      (g.filed.map Prod.snd).Perm ((unitFilings .cPlusPlus reopenedUnit).map Filing.record) ∧
      ∀ h ∈ unitFilings .cPlusPlus reopenedUnit, ∃ x,
        g.filed.filter (·.2.location.sameNode h.record.location) = [(x, h.record)] ∧ LiesWithin g x h.around := by
  have distinct : (reopenedUnit.position :: reopenedUnit.content.positions).Nodup := by decide +kernel
  obtain ⟨g, surveyed, owners⟩ := @surveyed_single .cPlusPlus reopenedUnit
    (fun g => g.filed.map Prod.fst == [2, 2, 2]) (by decide +kernel)
  obtain ⟨filed, owned⟩ := surveyed_scopes_own_what_they_enclose surveyed distinct
  exact ⟨g, surveyed, distinct, by decide +kernel, eq_of_beq owners, filed, owned⟩

-- `package a; int x;`
def packagedUnit : Element :=
  let declared := Content.written "decl" (.written "type" (.name "int" .nil) <| .name "x" .nil) .nil
  { tag := "unit", attributes := [("filename", "A.java")]
    content := .written "package" (.name "a" .nil) <| .written "decl_stmt" declared .nil : Element }.positioned

-- No element around the variable is opened but the unit, and yet it is not the root that has the variable.
theorem package_owns_what_it_does_not_enclose :
    ∃ g, surveyUnit .java packagedUnit = .ok g ∧ (packagedUnit.position :: packagedUnit.content.positions).Nodup ∧
      ¬ ∀ h ∈ filings .java packagedUnit.fileName packagedUnit.content (.leading true)
          [.ofElement packagedUnit.fileName packagedUnit false],
        ∃ x, g.filed.filter (·.2.location.sameNode h.record.location) = [(x, h.record)] ∧
          ∃ s, g.get? x = some s ∧ ∀ l ∈ h.around.head?, l ∈ s.locations := by
  let unit := Location.ofElement packagedUnit.fileName packagedUnit false
  obtain ⟨g, surveyed, elsewhere⟩ := @surveyed_single .java packagedUnit
    (fun g => g.filed.all fun entry => (g.get? entry.1).all fun s => !s.locations.contains unit) (by decide +kernel)
  refine ⟨g, surveyed, by decide +kernel, ?_⟩
  intro owned
  obtain ⟨x, filed, s, found, seen⟩ := owned ⟨⟨false, ⟨"A.java", "/unit/decl_stmt[1]/decl[1]/name[1]", 1, false⟩⟩, [unit]⟩
    (by decide +kernel)
  have listed := List.mem_of_mem_filter (filed ▸ List.mem_singleton_self _)
  have here := List.all_eq_true.mp elsewhere _ listed
  rw [found] at here
  simp [seen unit rfl] at here

end Lexical

end ScopeAtlas
