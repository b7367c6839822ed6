import ScopeAtlas.Proofs.Reading

namespace ScopeAtlas

section Arena

variable {g : Graph} {s m : Scope} {here : ScopeId} {mine rest f : Forest}

theorem Graph.empty_pictures : Graph.empty.Pictures (.tree Graph.empty.root .global .nil .nil) := by
  refine ⟨⟨rfl, trivial, trivial⟩, by simp, ?_⟩
  intro x s found
  have only : x = 0 := Nat.lt_one_iff.mp (Graph.lt_size_of_get? found)
  simp [only, Graph.empty]

theorem Graph.Pictures.insert (picture : g.Pictures f) (alone : s.linked none [] = s) :
    (g.insert s).2.Pictures (.tree g.size s .nil f) := by
  have inside : ∀ x ∈ f.ids, x ≠ g.size := by
    rintro x member rfl
    obtain ⟨t, found⟩ := picture.shows.live member
    exact Nat.lt_irrefl _ (Graph.lt_size_of_get? found)
  refine ⟨⟨?_, trivial, ?_⟩, ?_, ?_⟩
  · rw [Graph.get?_insert, if_pos rfl]
    exact congrArg some alone.symm
  · refine picture.shows.frame ?_
    intro x member
    rw [Graph.get?_insert, if_neg (inside x member)]
  · exact List.nodup_cons.mpr ⟨fun member => inside _ member rfl, picture.nodup⟩
  · intro x t found
    rw [Graph.get?_insert] at found
    by_cases new : x = g.size
    · simp [new]
    · rw [if_neg new] at found
      simp [picture.complete x t found]

theorem Graph.Pictures.modify {change : Scope → Scope} (picture : g.Pictures (.tree here m mine rest))
    (content : ∀ parent children, change (m.linked parent children) = (change m).linked parent children) :
    (g.modify here change).Pictures (.tree here (change m) mine rest) := by
  obtain ⟨found, under, beside⟩ := picture.shows
  have nodup := picture.nodup
  simp only [Forest.ids_tree, List.nodup_cons, List.mem_append, not_or] at nodup
  refine ⟨⟨?_, ?_, ?_⟩, picture.nodup, ?_⟩
  · rw [Graph.get?_modify, if_pos rfl, found, Option.map_some, content]
  · refine under.frame ?_
    intro x member
    rw [Graph.get?_modify, if_neg]
    rintro rfl
    exact nodup.1.1 member
  · refine beside.frame ?_
    intro x member
    rw [Graph.get?_modify, if_neg]
    rintro rfl
    exact nodup.1.2 member
  · intro x t seen
    rw [Graph.get?_modify] at seen
    by_cases same : x = here
    · simp [same]
    · rw [if_neg same] at seen
      exact picture.complete x t seen

theorem Scope.linked_foldl_addVariable (found : List Variable) (m : Scope) (parent : Option ScopeId)
    (children : List ScopeId) :
    found.foldl Scope.addVariable (m.linked parent children) = (found.foldl Scope.addVariable m).linked parent children := by
  induction found generalizing m with
  | nil => rfl
  | cons v found ih => exact ih (m.addVariable v)

end Arena

namespace Survey

section Runs

variable {α β : Type}

theorem run_bind (x : Survey α) (next : α → Survey β) (c : Context) :
    (x >>= next).run c = match x.run c with
      | (.ok a, c') => (next a).run c'
      | (.error error, c') => (.error error, c') := by
  have step : (x >>= next).run c = ExceptT.bindCont next (x.run c).1 (x.run c).2 := rfl
  rw [step]
  rcases x.run c with ⟨_ | a, c'⟩ <;> rfl

theorem run_get (c : Context) : (get : Survey Context).run c = (.ok c, c) := rfl

theorem run_set (c c' : Context) : (set c' : Survey PUnit).run c = (.ok ⟨⟩, c') := rfl

theorem run_modify (change : Context → Context) (c : Context) :
    (modify change : Survey PUnit).run c = (.ok ⟨⟩, change c) := rfl

theorem run_thenAlways (x : Survey α) (restore : Context → Context) (c : Context) :
    (thenAlways x restore).run c = ((x.run c).1, restore (x.run c).2) := rfl

theorem run_withScope (make : ScopeId → Scope) (e : Element) (isReference : Bool) (step : Survey Unit) (c : Context) :
    (withScope make e isReference step).run c =
      let inner := step.run (c.openScope { (make c.graph.size).addLocation (c.site.locate e isReference) with
        language := some c.site.language })
      let placed := inner.2.closeScope.graph.adopt c.current c.graph.size
      (inner.1.map fun _ => placed.1, { inner.2.closeScope with graph := placed.2 }) := by
  unfold withScope
  rw [run_bind, run_get]
  dsimp only
  rw [run_bind, run_set]
  dsimp only
  generalize c.openScope _ = opened
  rfl

theorem run_withImports (found : List Import) (step : Survey Unit) (c : Context) :
    (withImports found step).run c =
      let inner := step.run { c with site.imports := c.site.imports ++ found }
      (inner.1, { inner.2 with site.imports := c.site.imports }) := by
  unfold withImports
  rw [run_bind, run_get]
  dsimp only
  rw [run_bind, run_modify]
  dsimp only
  rw [run_thenAlways]

theorem run_withRegion (region : Option String) (step : Survey Unit) (c : Context) :
    (withRegion region step).run c =
      let inner := step.run { c with region }
      (inner.1, { inner.2 with region := c.region }) := by
  unfold withRegion
  rw [run_bind, run_get]
  dsimp only
  rw [run_bind, run_modify]
  dsimp only
  rw [run_thenAlways]

theorem run_withTypeParameters (names : List String) (step : Survey Unit) (c : Context) :
    (withTypeParameters names step).run c =
      let inner := step.run { c with typeParameters := names }
      (inner.1, { inner.2 with typeParameters := [] }) := by
  unfold withTypeParameters
  rw [run_bind, run_modify]
  dsimp only
  rw [run_thenAlways]

theorem run_declarator (e : Element) (previous : Option TypeUse) (inside : Inside) (c : Context) :
    (declarator e previous inside).run c =
      let type := c.site.declaratorType? c.current previous e
      (inside .initializers >>= fun _ => pure type).run
        (c.modifyCurrent fun s => (c.site.declaredVariables c.current type e).foldl Scope.addVariable s) := by
  unfold declarator
  rw [run_bind, run_get]
  dsimp only
  rw [run_bind, run_set]

theorem run_call (p : Profile) (before : List Element) (e : Element) (inside : Inside) (c : Context) :
    (call p before e inside).run c =
      match c.site.call? p c.current before e with
      | none => (inside .statements).run c
      | some found => (inside .call).run (c.modifyCurrent (·.addCall found)) := by
  unfold call
  rw [run_bind, run_get]
  dsimp only
  cases c.site.call? p c.current before e with
  | none => rfl
  | some found =>
    dsimp only
    rw [run_bind, run_set]

end Runs

-- A survey of `file` has come to stand in the open scope `here`.
structure At (file : String) (seen : List String) (here : ScopeId) (c : Context) : Prop where
  inFile : c.site.file = file
  imports : ∀ i ∈ c.site.imports, i.IsUnbound
  root : c.graph.root = 0
  grown : ∃ m mine rest, Grown file seen c.graph.size (.tree here m mine rest) ∧
    c.graph.Pictures (.tree here m mine rest) ∧ c.stack = here :: rest.roots

variable {α β : Type} {file : String} {here : ScopeId} {marks marks' : List String}

def Records (file : String) (here : ScopeId) (marks : List String) (result : α → Prop) (x : Survey α) : Prop :=
  ∀ seen c, At file seen here c → ∃ new, new.Subperm marks ∧ At file (new ++ seen) here (x.run c).2 ∧
    (x.run c).2.stack = c.stack ∧ ∀ a, (x.run c).1 = .ok a → result a

theorem At.current {seen : List String} {c : Context} (stands : At file seen here c) : c.current = here := by
  obtain ⟨m, mine, rest, -, -, stack⟩ := stands.grown
  simp [Context.current, stack]

theorem At.congr {seen : List String} {c c' : Context} (stands : At file seen here c) (graph : c'.graph = c.graph)
    (stack : c'.stack = c.stack) (same : c'.site.file = c.site.file) (imports : ∀ i ∈ c'.site.imports, i.IsUnbound) :
    At file seen here c' := by
  refine ⟨same.trans stands.inFile, imports, graph ▸ stands.root, ?_⟩
  rw [graph, stack]
  exact stands.grown

section Laws

variable {result : α → Prop} {result' : β → Prop} {x : Survey α}

theorem Records.pure {a : α} (holds : result a) : Records file here marks result (pure a) := by
  intro seen c stands
  refine ⟨[], List.nil_subperm, stands, rfl, ?_⟩
  intro b same
  cases same
  exact holds

theorem Records.refused (error : Error) (next : α → Survey β) :
    Records file here marks result' (throw error >>= next) := by
  intro seen c stands
  refine ⟨[], List.nil_subperm, stands, rfl, ?_⟩
  intro b same
  cases same

theorem Records.get :
    Records file here [] (fun c : Context => c.current = here ∧ c.site.file = file ∧ ∀ i ∈ c.site.imports, i.IsUnbound)
      get := by
  intro seen c stands
  refine ⟨[], List.Subperm.refl _, stands, rfl, ?_⟩
  intro c' same
  cases same
  exact ⟨stands.current, stands.inFile, stands.imports⟩

theorem Records.mono {result'' : α → Prop} (records : Records file here marks result x) (more : marks.Subperm marks')
    (weaker : ∀ a, result a → result'' a) : Records file here marks' result'' x := by
  intro seen c stands
  obtain ⟨new, few, after, stack, good⟩ := records seen c stands
  exact ⟨new, few.trans more, after, stack, fun a ok => weaker a (good a ok)⟩

theorem Records.bind {next : α → Survey β} (first : Records file here marks result x)
    (second : ∀ a, result a → Records file here marks' result' (next a)) :
    Records file here (marks ++ marks') result' (x >>= next) := by
  intro seen c stands
  obtain ⟨new, few, after, stack, good⟩ := first seen c stands
  rw [run_bind]
  rcases run : x.run c with ⟨_ | a, c'⟩
  · rw [run] at after stack
    refine ⟨new, few.trans (List.sublist_append_left _ _).subperm, after, stack, ?_⟩
    intro b same
    cases same
  · rw [run] at after stack good
    obtain ⟨new', few', after', stack', good'⟩ := second a (good a rfl) _ c' after
    refine ⟨new' ++ new, ?_, ?_, stack'.trans stack, good'⟩
    · rw [List.subperm_iff_count] at few few' ⊢
      intro y
      have := few y
      have := few' y
      simp only [List.count_append]
      omega
    · rw [List.append_assoc]
      exact after'

theorem Records.thenLast {next : α → Survey β} (first : Records file here marks result x)
    (second : ∀ a, result a → Records file here [] result' (next a)) : Records file here marks result' (x >>= next) := by
  simpa using first.bind second

theorem Records.discard (records : Records file here marks result x) :
    Records file here marks (fun _ => True) (Functor.discard x) := by
  have step : Functor.discard x = x >>= fun _ => Pure.pure PUnit.unit := rfl
  rw [step]
  exact records.thenLast fun _ _ => Records.pure trivial

end Laws

section Surroundings

variable {step : Survey Unit}

theorem Records.withImports {found : List Import} (unbound : ∀ i ∈ found, i.IsUnbound)
    (inner : Records file here marks (fun _ => True) step) :
    Records file here marks (fun _ => True) (withImports found step) := by
  intro seen c stands
  have entered : At file seen here { c with site.imports := c.site.imports ++ found } := by
    refine stands.congr rfl rfl rfl ?_
    intro i member
    rcases List.mem_append.mp member with old | new
    · exact stands.imports i old
    · exact unbound i new
  obtain ⟨new, few, after, stack, -⟩ := inner seen _ entered
  rw [run_withImports]
  exact ⟨new, few, after.congr rfl rfl rfl stands.imports, stack, fun _ _ => trivial⟩

theorem Records.withRegion {region : Option String} (inner : Records file here marks (fun _ => True) step) :
    Records file here marks (fun _ => True) (withRegion region step) := by
  intro seen c stands
  have entered : At file seen here { c with region } := stands.congr rfl rfl rfl stands.imports
  obtain ⟨new, few, after, stack, -⟩ := inner seen _ entered
  rw [run_withRegion]
  exact ⟨new, few, after.congr rfl rfl rfl after.imports, stack, fun _ _ => trivial⟩

theorem Records.withTypeParameters {names : List String} (inner : Records file here marks (fun _ => True) step) :
    Records file here marks (fun _ => True) (withTypeParameters names step) := by
  intro seen c stands
  have entered : At file seen here { c with typeParameters := names } := stands.congr rfl rfl rfl stands.imports
  obtain ⟨new, few, after, stack, -⟩ := inner seen _ entered
  rw [run_withTypeParameters]
  exact ⟨new, few, after.congr rfl rfl rfl after.imports, stack, fun _ _ => trivial⟩

theorem Records.takeTypeParameters : Records file here [] (fun _ => True) takeTypeParameters := by
  intro seen c stands
  exact ⟨[], List.Subperm.refl _, stands.congr rfl rfl rfl stands.imports, rfl, fun _ _ => trivial⟩

end Surroundings

theorem At.modifyCurrent {seen new : List String} {c : Context} {change : Scope → Scope} (stands : At file seen here c)
    (content : ∀ m parent children, change (Scope.linked m parent children) = (change m).linked parent children)
    (grows : ∀ m mine rest, Grown file seen c.graph.size (.tree here m mine rest) →
      Grown file (new ++ seen) c.graph.size (.tree here (change m) mine rest)) :
    At file (new ++ seen) here (c.modifyCurrent change) := by
  obtain ⟨m, mine, rest, grown, picture, stack⟩ := stands.grown
  have size : (c.modifyCurrent change).graph.size = c.graph.size := Graph.size_modify change
  refine ⟨stands.inFile, stands.imports, ?_, change m, mine, rest, ?_, ?_, stack⟩
  · exact (Graph.root_modify change).trans stands.root
  · rw [size]
    exact grows m mine rest grown
  · rw [Context.modifyCurrent, stands.current]
    exact picture.modify (content m)

theorem At.closeInto {seen : List String} {id : ScopeId} {up : List ScopeId} {c : Context} (stands : At file seen id c)
    (stack : c.stack = id :: here :: up) :
    At file seen here { c.closeScope with graph := (c.closeScope.graph.adopt here id).2 } := by
  obtain ⟨s, below, outside, grown, picture, stack'⟩ := stands.grown
  have outer : outside.roots = here :: up := (List.cons.inj (stack'.symm.trans stack)).2
  cases outside with
  | nil => cases outer
  | tree id' m mine rest =>
    obtain ⟨rfl, rfl⟩ := List.cons.inj outer
    obtain ⟨closed, adopted, -, size, root, picture'⟩ := Change.adopt_pictures picture
    have graph : (c.closeScope.graph.adopt id' id).2 = closed.graph := by
      rw [← adopted]
      rfl
    have grown' := grown.closed
    rw [← size] at grown'
    rw [graph]
    refine ⟨stands.inFile, stands.imports, root.trans stands.root, _, _, _, grown', picture', ?_⟩
    change c.stack.tail = _
    rw [stack, List.tail_cons, Forest.roots_mapScopes]

theorem Records.withScope {make : ScopeId → Scope} {e : Element} {isReference : Bool} {step : Survey Unit}
    (opens : ∀ id l language, l.file = file → Scope.Opens file here id { (make id).addLocation l with language })
    (inner : ∀ id, Records file id marks (fun _ => True) step) :
    Records file here marks (fun _ => True) (withScope make e isReference step) := by
  intro seen c stands
  obtain ⟨m, mine, rest, grown, picture, stack⟩ := stands.grown
  let s : Scope := { (make c.graph.size).addLocation (c.site.locate e isReference) with
    language := some c.site.language }
  have opens' : s.Opens file here c.graph.size := opens _ _ _ stands.inFile
  have opened : At file seen c.graph.size (c.openScope s) := by
    refine ⟨stands.inFile, stands.imports, stands.root, s, .nil, .tree here m mine rest, ?_, ?_, ?_⟩
    · have size : (c.openScope s).graph.size = c.graph.size + 1 := Graph.size_insert s
      rw [size]
      exact grown.opened opens'
    · exact picture.insert opens'.links
    · exact congrArg (c.graph.size :: ·) stack
  obtain ⟨new, few, after, same, -⟩ := inner c.graph.size seen _ opened
  have closed := after.closeInto (same.trans (congrArg (c.graph.size :: ·) stack))
  rw [run_withScope]
  dsimp only
  rw [stands.current]
  refine ⟨new, few, closed, ?_, fun _ _ => trivial⟩
  exact congrArg List.tail same

end Survey

theorem Content.elements_subset_descendants (content : Content) : content.elements ⊆ content.descendants := by
  induction content with
  | nil => exact List.Subset.refl _
  | text run rest ih => exact ih
  | element tag attributes position line inner rest _ ih =>
    exact List.cons_subset_cons _ (List.Subset.trans ih (List.subset_append_right _ _))

def Content.positions (c : Content) : List String := c.descendants.map (·.position)

theorem Content.positions_element (tag : String) (attributes : List (String × String)) (position : String) (line : Nat)
    (inner rest : Content) : (Content.element tag attributes position line inner rest).positions =
      (position :: inner.positions) ++ rest.positions := by
  simp [positions, descendants]

-- Those without the names that stand right here, which are read together with the element around them.
def Content.positionsBesideNames : Content → List String
  | .nil => []
  | .text _ rest => rest.positionsBesideNames
  | .element tag _ position _ inner rest =>
    (if tag = "name" then [] else position :: inner.positions) ++ rest.positionsBesideNames

theorem Content.names_subperm (c : Content) :
    ((c.elements.filter (·.tag == "name")).map (·.position) ++ c.positionsBesideNames).Subperm c.positions := by
  rw [List.subperm_iff_count]
  intro x
  induction c with
  | nil => simp [elements, positionsBesideNames]
  | text run rest ih => exact ih
  | element tag attributes position line inner rest _ ih =>
    simp only [positions, elements, descendants, positionsBesideNames, List.filter_cons, List.map_cons, List.map_append,
      List.count_append, List.count_cons] at ih ⊢
    by_cases name : tag = "name"
    · simp only [name, beq_self_eq_true, if_true, List.map_cons, List.count_cons, List.count_nil]
      omega
    · have differs : (tag == "name") = false := by simpa using name
      simp only [name, differs, Bool.false_eq_true, if_false, List.count_cons]
      omega

-- The type that a declarator may share with the one before it was read in this very scope.
def Place.Fits (here : ScopeId) : Place → Prop
  | .declarators (some u) => u.StandsIn (· = here)
  | _ => True

def Treatment.Fits (here : ScopeId) : Treatment → Prop
  | .enter place => place.Fits here
  | .declare (some u) => u.StandsIn (· = here)
  | _ => True

theorem Place.Fits.treatment {here : ScopeId} {place : Place} (fits : place.Fits here) (p : Profile) (tag : String) :
    (place.treatment p tag).Fits here := by
  unfold Place.treatment
  cases place with
  | statements => trivial
  | leading mayHavePackage => dsimp only; split <;> trivial
  | body ofBlock named =>
    dsimp only
    split
    · split <;> trivial
    · trivial
    · trivial
    · trivial
    · trivial
    · split <;> trivial
    · trivial
  | spaceBody => dsimp only; split <;> trivial
  | template => dsimp only; split <;> trivial
  | declarators previous =>
    dsimp only
    split
    · cases previous with
      | none => trivial
      | some u => exact fits
    · trivial
  | initializers => dsimp only; split <;> trivial
  | parameters => dsimp only; split <;> trivial
  | parameter => dsimp only; split <;> trivial
  | call => dsimp only; split <;> trivial
  | rest => trivial

theorem Place.Fits.next {here : ScopeId} {place : Place} {type : Option TypeUse} (fits : place.Fits here)
    (typed : ∀ u, type = some u → u.StandsIn (· = here)) (p : Profile) (tag : String) :
    (place.next p tag type).Fits here := by
  unfold Place.next
  split
  · split <;> trivial
  · split
    · cases type with
      | none => trivial
      | some u => exact typed u rfl
    · exact fits
  · split <;> trivial
  · exact fits

namespace Survey

variable {file : String} {here : ScopeId}

-- The walk of some content records no element that is not in it.
structure Explores (file : String) (content : Content) (inside : Inside) : Prop where
  all : ∀ here place, place.Fits here → Records file here content.positions (fun _ => True) (inside place)
  besideNames : ∀ here, Records file here content.positionsBesideNames (fun _ => True) (inside .initializers)

section Handlers

variable {p : Profile} {e : Element} {inside : Inside}

theorem openSpaces_records {marks : List String} {step : Survey Unit}
    (inner : ∀ id, Records file id marks (fun _ => True) step) (names : List String) :
    ∀ here, Records file here marks (fun _ => True) (openSpaces e step names) := by
  induction names with
  | nil =>
    intro here
    exact (inner here).thenLast fun _ _ seen c stands => ⟨[], List.Subperm.refl _, stands, rfl, fun _ _ => trivial⟩
  | cons name names ih =>
    intro here
    refine Records.withScope (fun id l language inFile => opens_space name inFile) ?_
    intro id
    exact (ih id).thenLast fun _ _ => Records.pure trivial

theorem type_records (explores : Explores file e.content inside) :
    Records file here e.content.positions (fun _ => True) (type p e inside) := by
  unfold type
  split
  · exact Records.refused _ _
  · refine Records.takeTypeParameters.bind fun parameters _ => Records.get.bind ?_
    rintro c ⟨current, site, unbound⟩
    refine Records.withScope (fun id l language inFile => opens_type p unbound current site parameters e inFile) ?_
    intro id
    exact (explores.all id (p.bodyOf e.tag) trivial).withRegion

theorem space_records (explores : Explores file e.content inside) :
    Records file here e.content.positions (fun _ => True) (space p e inside) := by
  unfold space
  split
  · exact Records.refused _ _
  · exact openSpaces_records (fun id => explores.all id .spaceBody trivial) _ here

theorem method_records (explores : Explores file e.content inside) :
    Records file here e.content.positions (fun _ => True) (method p e inside) := by
  unfold method
  split
  · exact Records.refused _ _
  · refine Records.takeTypeParameters.bind fun parameters _ => Records.get.bind ?_
    rintro c ⟨-, site, unbound⟩
    refine Records.withScope (fun id l language inFile => opens_method p unbound site e inFile) ?_
    intro id
    exact explores.all id _ trivial

theorem block_records (explores : Explores file e.content inside) :
    Records file here e.content.positions (fun _ => True) (block p e inside) := by
  unfold block
  split
  · exact Records.refused _ _
  · exact Records.withScope (fun id l language inFile => opens_block inFile) fun id => explores.all id _ trivial

theorem region_records (explores : Explores file e.content inside) :
    Records file here e.content.positions (fun _ => True) (region e inside) := by
  unfold region
  split
  · exact (explores.all here .template trivial).withTypeParameters
  · exact (explores.all here .statements trivial).withRegion

theorem grown_declaredAll {seen : List String} {next : Nat} {m : Scope} {mine rest : Forest} {found : List Variable}
    {place : Variable → Location} (grown : Grown file seen next (.tree here m mine rest))
    (stands : ∀ v ∈ found, v.StandsIn (· = here)) (places : ∀ v ∈ found, v.locations = [place v] ∧ (place v).file = file) :
    Grown file ((found.map fun v => (place v).position).reverse ++ seen) next
      (.tree here (found.foldl Scope.addVariable m) mine rest) := by
  induction found generalizing seen m with
  | nil => exact grown
  | cons v found ih =>
    obtain ⟨only, inFile⟩ := places v List.mem_cons_self
    have later := ih (grown.declared (stands v List.mem_cons_self) only inFile)
      (fun v listed => stands v (List.mem_cons_of_mem _ listed)) fun v listed => places v (List.mem_cons_of_mem _ listed)
    simpa using later

theorem declarator_records {previous : Option TypeUse} (fits : ∀ u, previous = some u → u.StandsIn (· = here))
    (explores : Explores file e.content inside) :
    Records file here e.content.positions (fun type => ∀ u, type = some u → u.StandsIn (· = here))
      (declarator e previous inside) := by
  intro seen c stands
  let type := c.site.declaratorType? c.current previous e
  let found := c.site.declaredVariables c.current type e
  have typed : ∀ u, type = some u → u.StandsIn (· = here) := by
    intro u same
    have fits' : ∀ u, previous = some u → u.StandsIn (· = c.current) := stands.current.symm ▸ fits
    have here' := Site.declaratorType?_standsIn stands.imports fits' same
    exact stands.current ▸ here'
  have places : ∀ v ∈ found, v.locations = [v.locations.headD default] ∧ (v.locations.headD default).file = file := by
    intro v member
    obtain ⟨name, -, rfl⟩ := List.mem_map.mp member
    exact ⟨rfl, stands.inFile⟩
  have among : (found.map fun v => (v.locations.headD default).position) =
      (e.content.elements.filter (·.tag == "name")).map (·.position) := by
    simp only [found, Site.declaredVariables, List.map_map]
    rfl
  have recorded : At file ((found.map fun v => (v.locations.headD default).position).reverse ++ seen) here
      (c.modifyCurrent fun s => found.foldl Scope.addVariable s) := by
    refine stands.modifyCurrent (Scope.linked_foldl_addVariable found) ?_
    intro m mine rest grown
    refine grown_declaredAll grown ?_ places
    intro v member
    have typed' : ∀ u, type = some u → u.StandsIn (· = c.current) := stands.current.symm ▸ typed
    have here' := Site.declaredVariables_standsIn typed' v member
    exact stands.current ▸ here'
  have last : Records file here e.content.positionsBesideNames (fun type => ∀ u, type = some u → u.StandsIn (· = here))
      (inside .initializers >>= fun _ => pure type) :=
    (explores.besideNames here).thenLast fun _ _ => Records.pure typed
  -- The names are recorded first and are left out inside, so no position is seen twice.
  obtain ⟨new, few, after, same, good⟩ := last _ _ recorded
  rw [run_declarator]
  refine ⟨new ++ (found.map fun v => (v.locations.headD default).position).reverse, ?_, ?_, same, good⟩
  · refine List.Subperm.trans ?_ e.content.names_subperm
    rw [among, List.subperm_iff_count] at *
    intro x
    have := few x
    simp only [List.count_append, List.count_reverse]
    omega
  · rw [List.append_assoc]
    exact after

theorem call_records {before : List Element} (explores : Explores file e.content inside) :
    Records file here (e.position :: e.content.positions) (fun _ => True) (call p before e inside) := by
  intro seen c stands
  cases found : c.site.call? p c.current before e with
  | none =>
    obtain ⟨new, few, after⟩ := explores.all here .statements trivial seen c stands
    rw [run_call, found]
    exact ⟨new, few.trans (List.sublist_cons_self _ _).subperm, after⟩
  | some written =>
    obtain ⟨stands', place⟩ := Site.call?_standsIn stands.imports found
    rw [stands.current] at stands'
    have recorded : At file ([e.position] ++ seen) here (c.modifyCurrent (·.addCall written)) := by
      refine stands.modifyCurrent (fun _ _ _ => rfl) ?_
      intro m mine rest grown
      have grown' := grown.called stands' (place ▸ stands.inFile)
      rw [place] at grown'
      exact grown'
    obtain ⟨new, few, after, same, good⟩ := explores.all here .call trivial _ _ recorded
    rw [run_call, found]
    refine ⟨new ++ [e.position], ?_, ?_, same, good⟩
    · rw [List.subperm_iff_count] at few ⊢
      intro x
      have := few x
      simp only [List.count_append, List.count_cons, List.count_nil]
      omega
    · rw [List.append_assoc]
      exact after

theorem visit_records {before : List Element} (explores : Explores file e.content inside) :
    Records file here (e.position :: e.content.positions) (fun _ => True) (visit p before e inside) := by
  have inner : e.content.positions.Subperm (e.position :: e.content.positions) := (List.sublist_cons_self _ _).subperm
  have more : ∀ {x : Survey Unit}, Records file here e.content.positions (fun _ => True) x →
      Records file here (e.position :: e.content.positions) (fun _ => True) x :=
    fun records => records.mono inner fun _ _ => trivial
  unfold visit
  cases p.role e.tag with
  | transparent => exact more (region_records explores)
  | type => exact more (type_records explores).discard
  | space => exact more (space_records explores).discard
  | method => exact more (method_records explores).discard
  | container => exact more (block_records explores).discard
  | declaration => exact more (explores.all here (.declarators none) trivial)
  | latecomer => exact Records.pure trivial
  | comment => exact Records.pure trivial
  | call => exact call_records explores
  | declarator =>
    have untyped : ∀ u, (none : Option TypeUse) = some u → u.StandsIn (· = here) := nofun
    exact more (declarator_records untyped explores).discard
  | plain => exact more (explores.all here .statements trivial)

theorem readImports_records {mayHavePackage : Bool} {elements : List Element} :
    Records file here [] (fun found : List Import => ∀ i ∈ found, i.IsUnbound) (readImports p mayHavePackage elements) := by
  unfold readImports
  refine Records.get.bind ?_
  rintro c -
  dsimp only
  generalize p.leadingImports mayHavePackage elements = imports
  induction imports with
  | nil =>
    rw [List.mapM_nil]
    exact Records.pure (List.forall_mem_nil _)
  | cons first rest ih =>
    rw [List.mapM_cons]
    have read : Records file here [] Import.IsUnbound (readImports.liftExcept (c.site.importOf p first)) :=
      fun seen c' stands => ⟨[], List.nil_subperm, stands, rfl, fun i ok => Site.importOf_unbound ok⟩
    refine read.bind fun i unbound => ih.thenLast fun later unbounds => Records.pure ?_
    intro j member
    rcases List.mem_cons.mp member with rfl | listed
    · exact unbound
    · exact unbounds j listed

theorem treat_records {before : List Element} {treatment : Treatment} (fits : treatment.Fits here)
    (explores : Explores file e.content inside) :
    Records file here (e.position :: e.content.positions) (fun type => ∀ u, type = some u → u.StandsIn (· = here))
      (treat p before e inside treatment) := by
  have inner : e.content.positions.Subperm (e.position :: e.content.positions) := (List.sublist_cons_self _ _).subperm
  unfold treat
  cases treatment with
  | skip => exact Records.pure nofun
  | visit => exact (visit_records explores).thenLast fun _ _ => Records.pure nofun
  | enter place =>
    exact ((explores.all here place fits).mono inner fun _ _ => trivial).thenLast
      fun _ _ => Records.pure nofun
  | enterSpace =>
    refine (Records.mono ?_ inner fun _ typed => typed)
    refine readImports_records.bind fun found unbound => ?_
    exact ((explores.all here (.leading false) trivial).withImports unbound).thenLast fun _ _ => Records.pure nofun
  | declare previous =>
    refine (declarator_records ?_ explores).mono inner fun _ typed => typed
    rintro u rfl
    exact fits

end Handlers

theorem walk_explores (p : Profile) (content : Content) :
    ∀ before, Explores file content (fun place => walk p content place before) := by
  induction content with
  | nil => exact fun before => ⟨fun here place fits => Records.pure trivial, fun here => Records.pure trivial⟩
  | text run rest ih =>
    exact fun before => ⟨fun here place fits => (ih before).all here place fits, fun here => (ih before).besideNames here⟩
  | element tag attributes position line inner rest ihInner ihRest =>
    intro before
    let e : Element := ⟨tag, attributes, position, line, inner⟩
    have explores : Explores file e.content (fun place => walk p inner place []) := ihInner []
    have treated : ∀ (here : ScopeId) (place : Place), place.Fits here → Records file here (position :: inner.positions)
        (fun type => ∀ u, type = some u → u.StandsIn (· = here))
        (treat p before e (fun place => walk p inner place []) (place.treatment p tag)) :=
      fun here place fits => treat_records (fits.treatment p tag) explores
    refine ⟨?_, ?_⟩
    · intro here place fits
      rw [Content.positions_element]
      exact (treated here place fits).bind fun type typed =>
        (ihRest (e :: before)).all here _ (fits.next typed p tag)
    · intro here
      by_cases name : tag = "name"
      · have marks : (Content.element tag attributes position line inner rest).positionsBesideNames =
            [] ++ rest.positionsBesideNames := by
          simp [Content.positionsBesideNames, name]
        have skipped : Records file here [] (fun _ => True)
            (treat p before e (fun place => walk p inner place []) (Place.initializers.treatment p tag)) := by
          simp only [Place.treatment, name, or_true, if_true, treat]
          exact Records.pure trivial
        rw [marks]
        exact skipped.bind fun type _ => (ihRest (e :: before)).besideNames here
      · have marks : (Content.element tag attributes position line inner rest).positionsBesideNames =
            (position :: inner.positions) ++ rest.positionsBesideNames := by
          simp [Content.positionsBesideNames, name]
        rw [marks]
        exact (treated here .initializers trivial).bind fun type _ => (ihRest (e :: before)).besideNames here

theorem unitBody_records (p : Profile) (e : Element) :
    Records file here e.content.positions (fun _ => True) (unitBody p e) := by
  have explores : Explores file e.content (insideOf p e) := walk_explores p e.content []
  unfold unitBody
  refine readImports_records.bind fun found unbound => ?_
  refine Records.withImports unbound ?_
  dsimp only
  split
  · exact (openSpaces_records (fun id => explores.all id (.leading true) trivial) _ here).thenLast
      fun _ _ => Records.pure trivial
  · exact explores.all here (.leading true) trivial

theorem unitStart_at (p : Profile) (e : Element) : At e.fileName [] 0 (unitStart p e) := by
  let l := Location.ofElement e.fileName e false
  refine ⟨rfl, List.forall_mem_nil _, rfl, { Scope.global.addLocation l with language := some p.language }, .nil, .nil,
    .start ?_, ?_, rfl⟩
  · exact ⟨rfl, rfl, rfl, rfl, l, rfl, rfl⟩
  · let change : Scope → Scope := fun s => { s.addLocation l with language := some p.language }
    have content : ∀ parent children, change (Scope.global.linked parent children) = (change .global).linked parent children :=
      fun _ _ => rfl
    exact Graph.empty_pictures.modify content

end Survey

-- A surveyed graph has grown to one tree, by a history that records only elements of the unit.
theorem surveyUnit_grown {p : Profile} {e : Element} {g : Graph} (surveyed : surveyUnit p e = .ok g) :
    ∃ seen s f, seen.Subperm e.content.positions ∧ g.root = 0 ∧ Grown e.fileName seen g.size (.tree 0 s f .nil) ∧
      g.Pictures (.tree 0 s f .nil) := by
  unfold surveyUnit at surveyed
  split at surveyed
  · cases surveyed
  · obtain ⟨new, few, after, stack, -⟩ := Survey.unitBody_records p e [] _ (Survey.unitStart_at p e)
    rw [List.append_nil] at after
    obtain ⟨s, f, rest, grown, picture, stack'⟩ := after.grown
    have alone : rest = .nil := by
      have equal := stack'.symm.trans stack
      cases rest with
      | nil => rfl
      | tree id m mine rest => simp [Survey.unitStart, Context.modifyCurrent, Context.start] at equal
    subst alone
    split at surveyed
    · rename_i c run
      cases surveyed
      rw [run] at picture grown after
      exact ⟨new, s, f, few, after.root, grown, picture⟩
    · cases surveyed

end ScopeAtlas
