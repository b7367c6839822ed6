import ScopeAtlas.Proofs.HeldUses
import ScopeAtlas.Proofs.LexicalPaths
import ScopeAtlas.Proofs.TypeNames

namespace ScopeAtlas

-- The use was read from a name in the unit and has the imports in force there. The placeholder for the type of a
-- parameter that has none stands nowhere and has no imports.
inductive TypeUse.WrittenIn (p : Profile) (unit : Element) (u : TypeUse) : Prop
  | written {name : Element} {around : List Element} (path : unit.Path (name :: around)) (isName : name.tag = "name")
      (named : u.name = name.lastSegment.identifier) (location : u.location = some (.ofElement unit.fileName name true))
      (imports : p.importsInForce unit around = .ok u.imports) : u.WrittenIn p unit
  | placeholder (named : u.name = "") (location : u.location = none) (imports : u.imports = []) : u.WrittenIn p unit

-- The call was read from an element of the unit, given those before it. Only the scopes it names may have been renamed
-- since.
structure Call.ReadAt (p : Profile) (unit : Element) (parent e : Element) (up before : List Element)
    (around : Survey.Surroundings) (c : Call) : Prop where
  path : unit.Path (e :: parent :: up)
  isCall : e.tag = "call"
  siblings : ∃ after, parent.elements = before.reverse ++ e :: after
  file : around.site.file = unit.fileName
  surrounds : p.Orderly → Survey.Surrounds p unit (parent :: up) around
  read : ∃ here found rename, around.site.call? p here before e = some found ∧ c = found.rebind rename

def Call.ReadIn (p : Profile) (unit : Element) (c : Call) : Prop :=
  ∃ parent e up before around, c.ReadAt p unit parent e up before around

-- The access was decided for a type or method of the unit, at the given element.
def Access.DecidedIn (p : Profile) (unit : Element) (access : Access) (node : String × String) : Prop :=
  ∃ e around, unit.Path (e :: around) ∧ (p.isType e.tag = true ∨ p.isMethod e.tag = true) ∧
    node = (unit.fileName, e.position) ∧ access = p.reading.access e (p.regionAround around)

abbrev Scope.ReadIn (p : Profile) (unit : Element) : Scope → Prop :=
  Scope.Keeps (fun u => p.Orderly → u.WrittenIn p unit) (Call.ReadIn p unit)
    fun access node => p.Orderly → access.DecidedIn p unit node

section Reading

variable {p : Profile} {unit e parent name : Element} {up before : List Element} {around : Survey.Surroundings}
  {here : ScopeId} {u : TypeUse}

theorem Site.mem_all_typeUse {site : Site} (isName : name.tag = "name") (member : u ∈ (site.typeUse here name).all) :
    ∃ inner, name.Holds inner ∧ inner.tag = "name" ∧ u.name = inner.lastSegment.identifier ∧
      u.location = some (site.locate inner true) ∧ u.imports = site.imports := by
  induction size : name.size using Nat.strong_induction_on generalizing name with
  | h n ih =>
    rw [typeUse_eq, TypeUse.mem_all] at member
    rcases member with rfl | ⟨a, listed, inside⟩
    · exact ⟨name, .self name, isName, rfl, rfl, rfl⟩
    · obtain ⟨argument, written, rfl⟩ := List.mem_map.mp listed
      obtain ⟨isSegment, toLast⟩ := Element.holds_lastSegment isName
      obtain ⟨isName', holds⟩ := Element.holds_of_typeArguments isSegment written
      have smaller := Nat.lt_of_lt_of_le (Element.size_lt_of_mem_typeArguments written) name.size_lastSegment_le
      obtain ⟨inner, holds', facts⟩ := ih argument.size (size ▸ smaller) isName' inside rfl
      exact ⟨inner, (toLast.trans holds).trans holds', facts⟩

theorem TypeUse.WrittenIn.rebind (written : u.WrittenIn p unit) (f : ScopeId → ScopeId) : (u.rebind f).WrittenIn p unit := by
  cases u
  cases written with
  | written path isName named location imports => exact .written path isName named location imports
  | placeholder named location imports => exact .placeholder named location imports

theorem Call.ReadIn.rebind {c : Call} (read : c.ReadIn p unit) (f : ScopeId → ScopeId) : (c.rebind f).ReadIn p unit := by
  obtain ⟨parent, e, up, before, around, readAt⟩ := read
  obtain ⟨here, found, rename, read, rfl⟩ := readAt.read
  exact ⟨parent, e, up, before, around, { readAt with read := ⟨here, found, f ∘ rename, read, found.rebind_rebind ..⟩ }⟩

theorem TypeUse.writtenIn_of_name (path : unit.Path (e :: parent :: up))
    (surrounds : Survey.Surrounds p unit (parent :: up) around) (isName : name.tag = "name") (holds : e.Holds name)
    (member : u ∈ (around.site.typeUse here name).all) : u.WrittenIn p unit := by
  obtain ⟨inner, holds', isName', named, location, imports⟩ := Site.mem_all_typeUse isName member
  obtain ⟨parent', up', path', same⟩ := p.importsAround_holds (holds.trans holds') path
  refine .written path' isName' named ?_ ?_
  · rw [location, Site.locate, surrounds.file]
  · unfold Profile.importsInForce
    rw [same, imports]
    exact surrounds.imports

theorem TypeUse.writtenIn_of_declaredType? {type : Element} {t : TypeUse} (path : unit.Path (e :: parent :: up))
    (surrounds : Survey.Surrounds p unit (parent :: up) around) (plain : type.tag ≠ "block") (holds : e.Holds type)
    (read : around.site.declaredType? here type = some t) : ∀ u ∈ t.all, u.WrittenIn p unit := by
  intro u member
  obtain ⟨name, last, rfl⟩ := Option.map_eq_some_iff.mp read
  obtain ⟨holds', isName⟩ := Element.holds_of_elementsNamed plain (List.mem_of_getLast? last)
  exact writtenIn_of_name path surrounds isName (holds.trans holds') member

theorem Scope.readIn_opened {s : Scope} {isReference : Bool} (blank : s.declared = [] ∧ s.calls = [] ∧ s.locations = [])
    (uses : ∀ u ∈ s.kind.typeUses, p.Orderly → u.WrittenIn p unit)
    (decided : s.category = .type ∨ s.category = .method → p.Orderly →
      s.access.DecidedIn p unit (around.site.file, e.position))
    (placed : ∀ t, s.kind = .type t → ∀ p ∈ t.parents, p.Placed fun _ => True) :
    (around.opened e isReference s).ReadIn p unit := by
  obtain ⟨declared, calls, locations⟩ := blank
  refine ⟨?_, ?_, ?_, placed⟩
  · intro u member
    unfold Scope.typeUses Survey.Surroundings.opened Scope.addLocation at member
    dsimp only at member
    rw [declared] at member
    exact uses u member
  · intro c member
    change c ∈ s.calls at member
    rw [calls] at member
    cases member
  · intro sort
    have places : (around.opened e isReference s).locations = [around.site.locate e isReference] := by
      unfold Survey.Surroundings.opened Scope.addLocation
      dsimp only
      rw [locations]
      rfl
    rw [places]
    exact ⟨_, List.mem_singleton.mpr rfl, decided sort⟩

theorem Scope.readIn_opened_space (name : String) (isGlobal isReference : Bool) :
    (around.opened e isReference { name, kind := .space isGlobal }).ReadIn p unit := by
  refine Scope.readIn_opened ⟨rfl, rfl, rfl⟩ (List.forall_mem_nil _) ?_ ?_
  · rintro (sort | sort) <;> cases sort
  · intro t kind
    cases kind

theorem Scope.readIn_opened_block (isReference : Bool) : (around.opened e isReference { kind := .block }).ReadIn p unit := by
  refine Scope.readIn_opened ⟨rfl, rfl, rfl⟩ (List.forall_mem_nil _) ?_ ?_
  · rintro (sort | sort) <;> cases sort
  · intro t kind
    cases kind

theorem Survey.typeScope_readIn (role : p.role e.tag = .type) (path : unit.Path (e :: parent :: up))
    (surrounds : p.Orderly → Surrounds p unit (parent :: up) around) {c : Context} (site : c.site = around.site)
    (region : c.region = around.region) (parameters : List String) :
    (around.opened e (p.isReference e.tag) (typeScope p c parameters e)).ReadIn p unit := by
  have table : ∀ t, (typeScope p c parameters e).kind = .type t → ∀ q ∈ t.parents,
      (q.Placed fun _ => True) ∧ ∀ u ∈ q.use.all, p.Orderly → u.WrittenIn p unit := by
    intro t kind
    rw [(typeScope_parents kind).1]
    refine List.foldlRecOn _ _ (motive := fun table : ParentTable => ∀ q ∈ table, (q.Placed fun _ => True) ∧
      ∀ u ∈ q.use.all, p.Orderly → u.WrittenIn p unit) (List.forall_mem_nil _) ?_
    intro table sofar use member q listed
    obtain ⟨name, written, rfl⟩ := List.mem_map.mp member
    refine ⟨?_, ?_⟩
    · exact ParentTable.placed_add (fun q listed => (sofar q listed).1) (Site.typeUse_location c.current name) trivial q listed
    · refine ParentTable.forall_add (fun q listed => (sofar q listed).2) ?_ (fun q listed _ => (sofar q listed).2) q listed
      intro u member orderly
      obtain ⟨isName, holds⟩ := orderly.parents e (orderly.type_ne_block role) name written
      rw [site] at member
      exact TypeUse.writtenIn_of_name path (surrounds orderly) isName holds member
  refine Scope.readIn_opened ⟨rfl, rfl, rfl⟩ ?_ ?_ ?_
  · intro u member
    obtain ⟨q, listed, within⟩ := List.mem_flatMap.mp member
    exact (table _ rfl q listed).2 u within
  · intro _ orderly
    refine ⟨e, parent :: up, path, Or.inl (orderly.isType_iff.mpr role), by rw [(surrounds orderly).file], ?_⟩
    rw [← (surrounds orderly).region, ← region]
    rfl
  · intro t kind q listed
    exact (table t kind q listed).1

theorem TypeUse.writtenIn_of_parameter {param : Element} {isReference : Bool} (path : unit.Path (e :: parent :: up))
    (surrounds : Survey.Surrounds p unit (parent :: up) around) (isParam : param.tag = "param") (holds : e.Holds param) :
    ∀ u ∈ ((around.site.writtenParameter here isReference param).type.getD { name := "", scope := here }).all,
      u.WrittenIn p unit := by
  intro u member
  cases typed : (around.site.writtenParameter here isReference param).type with
  | none =>
    rw [typed] at member
    rcases TypeUse.mem_all.mp member with rfl | ⟨a, listed, -⟩
    · exact .placeholder rfl rfl rfl
    · cases listed
  | some t =>
    rw [typed] at member
    obtain ⟨type, found, read⟩ := Option.bind_eq_some_iff.mp typed
    have declarator : param.Holds ((param.element? "decl").getD param) ∧ ((param.element? "decl").getD param).tag ≠ "block" := by
      cases written : param.element? "decl" with
      | none => exact ⟨.self param, by simp [isParam]⟩
      | some declarator =>
        obtain ⟨within, isDeclarator⟩ := Element.holds_of_element? (by simp [isParam]) written
        exact ⟨within, by simp [isDeclarator]⟩
    obtain ⟨within, isType⟩ := Element.holds_of_element? declarator.2 found
    exact writtenIn_of_declaredType? path surrounds (by simp [isType]) (holds.trans (declarator.1.trans within)) read u member

theorem Survey.methodScope_readIn (role : p.role e.tag = .method) (path : unit.Path (e :: parent :: up))
    (surrounds : p.Orderly → Surrounds p unit (parent :: up) around) {c : Context} (site : c.site = around.site)
    (region : c.region = around.region) (id : ScopeId) :
    (around.opened e (p.isReference e.tag) (methodScope p c e id)).ReadIn p unit := by
  refine Scope.readIn_opened ⟨rfl, rfl, rfl⟩ ?_ ?_ ?_
  · intro u member orderly
    have plain := orderly.method_ne_block role
    rcases List.mem_append.mp member with returned | parameter
    · obtain ⟨t, typed, within⟩ := List.mem_flatMap.mp returned
      rw [Option.mem_toList] at typed
      dsimp only at typed
      split at typed
      · cases typed
      · obtain ⟨type, found, read⟩ := Option.bind_eq_some_iff.mp (Option.filter_eq_some_iff.mp typed).1
        obtain ⟨holds, isType⟩ := Element.holds_of_element? plain found
        rw [site] at read
        exact TypeUse.writtenIn_of_declaredType? path (surrounds orderly) (by simp [isType]) holds read u within
    · obtain ⟨q, listed, within⟩ := List.mem_flatMap.mp parameter
      obtain ⟨param, written, typed, -⟩ := Site.mem_parameters listed
      obtain ⟨list, found, among⟩ := List.mem_flatMap.mp written
      obtain ⟨holds, isList⟩ := Element.holds_of_element? plain (Option.mem_toList.mp found)
      obtain ⟨holds', isParam⟩ := Element.holds_of_elementsNamed (by simp [isList]) among
      rw [typed, site] at within
      exact TypeUse.writtenIn_of_parameter path (surrounds orderly) isParam (holds.trans holds') u within
  · intro _ orderly
    refine ⟨e, parent :: up, path, Or.inr (Profile.isMethod_of_role role), by rw [(surrounds orderly).file], ?_⟩
    rw [← (surrounds orderly).region, ← region]
    rfl
  · intro t kind
    cases kind

theorem Survey.provides_readIn {after : List Element} (path : unit.Path (e :: parent :: up))
    (siblings : parent.elements = before.reverse ++ e :: after) (file : around.site.file = unit.fileName)
    (surrounds : p.Orderly → Surrounds p unit (parent :: up) around) :
    Provides (Scope.ReadIn p unit) (fun t => ∀ u ∈ t.all, p.Orderly → u.WrittenIn p unit) p around before e := by
  refine ⟨?_, ?_, ?_, ?_, ?_, ?_, ?_⟩
  · intro role c parameters site region
    exact typeScope_readIn role path surrounds site region parameters
  · intro role c id site region
    exact methodScope_readIn role path surrounds site region id
  · exact fun name => Scope.readIn_opened_space name false false
  · exact Scope.readIn_opened_block false
  · intro isDeclarator here type t fitting read
    have plain : e.tag ≠ "block" := by simp [isDeclarator]
    unfold Site.declaratorType? at read
    split at read
    · rename_i written found
      split at read
      · exact fitting t read
      · intro u member orderly
        obtain ⟨holds, isType⟩ := Element.holds_of_element? plain found
        exact TypeUse.writtenIn_of_declaredType? path (surrounds orderly) (by simp [isType]) holds read u member
    · exact fitting t read
  · intro _ here type s fitting held
    refine held.addVariables ?_
    intro v listed u member
    obtain ⟨name, -, rfl⟩ := List.mem_map.mp listed
    obtain ⟨t, typed, within⟩ := Variable.mem_typeUses.mp member
    exact fitting t typed u within
  · intro isCall here k s read held
    exact held.addCall ⟨parent, e, up, before, around, path, isCall, ⟨after, siblings⟩, file, surrounds, here, k, id,
      read, k.rebind_id.symm⟩

end Reading

-- A unit is surveyed with one decision about access as with another that agrees where it is asked: at the types and
-- methods of the unit, with the access regions around them.
def Profile.AgreeOn (p : Profile) (unit : Element) (access : Element → Option String → Access) : Prop :=
  ∀ e around, unit.Path (e :: around) → p.isType e.tag = true ∨ p.isMethod e.tag = true →
    access e (p.regionAround around) = p.reading.access e (p.regionAround around)

theorem surveyUnit_readIn {p : Profile} {u : Element} {access : Element → Option String → Access}
    (agree : access = p.reading.access ∨ p.Orderly ∧ p.AgreeOn u access) :
    SurveyedAlike (fun s t => t = s ∧ s.ReadIn p u) (surveyUnit p u) (surveyUnit (p.withAccess access) u) := by
  have laws : Scope.Congruence fun s t => t = s ∧ s.ReadIn p u :=
    Scope.Keeps.congruence (fun _ f written orderly => (written orderly).rebind f) fun _ f read => read.rebind f
  have reads : Survey.ReadsAll (fun s t => t = s ∧ s.ReadIn p u)
      (fun t t' => t' = t ∧ ∀ v ∈ t.all, p.Orderly → v.WrittenIn p u) p { p.reading with access } u := by
    intro parent up before e after around path siblings file surrounds
    refine (Survey.provides_readIn path siblings file surrounds).reads ?_
    intro role
    rcases agree with rfl | ⟨orderly, asked⟩
    · rfl
    · have sort : p.isType e.tag = true ∨ p.isMethod e.tag = true :=
        role.imp orderly.isType_iff.mpr Profile.isMethod_of_role
      rw [(surrounds orderly).region]
      exact asked e (parent :: up) path sort
  exact surveyUnit_inStep laws rfl reads fun e name isGlobal => ⟨rfl, Scope.readIn_opened_space name isGlobal false⟩

theorem surveyed_readIn {p : Profile} {u : Element} {g : Graph} (surveyed : surveyUnit p u = .ok g) {x : ScopeId}
    {s : Scope} (found : g.get? x = some s) : s.ReadIn p u := by
  have alike : SurveyedAlike (fun s t => t = s ∧ s.ReadIn p u) (surveyUnit p u)
      (surveyUnit (p.withAccess p.reading.access) u) := surveyUnit_readIn (Or.inl rfl)
  rw [surveyed] at alike
  generalize surveyUnit (p.withAccess p.reading.access) u = other at alike
  cases alike with
  | done inStep =>
    obtain ⟨t, -, -, holds⟩ := inStep.found found
    exact holds

theorem Graph.InStep.eq {g h : Graph} {holds : Scope → Prop} (inStep : g.InStep (fun s t => t = s ∧ holds s) h) : h = g := by
  have shown : h.slots.map (·.map id) = g.slots.map (·.map id) := inStep.map_slots fun _ _ like => like.1
  have slots : h.slots = g.slots := by simpa using shown
  obtain ⟨_, _, _⟩ := g
  obtain ⟨_, _, _⟩ := h
  cases slots
  cases inStep.root
  cases inStep.conflicts
  rfl

theorem surveyUnit_withAccess {p : Profile} {u : Element} {access : Element → Option String → Access} (orderly : p.Orderly)
    (agree : p.AgreeOn u access) : surveyUnit (p.withAccess access) u = surveyUnit p u := by
  have alike := surveyUnit_readIn (Or.inr ⟨orderly, agree⟩)
  generalize surveyUnit p u = one at alike
  generalize surveyUnit (p.withAccess access) u = other at alike
  cases alike with
  | done inStep => rw [inStep.eq]
  | refused error => rfl

theorem Profile.withAccess_self (p : Profile) : p.withAccess p.reading.access = p := rfl

theorem Profile.Orderly.withAccess {p : Profile} (orderly : p.Orderly) (access : Element → Option String → Access) :
    (p.withAccess access).Orderly :=
  ⟨orderly.types, orderly.namespaces, orderly.structural, orderly.parents⟩

theorem Call.ReadAt.location {p : Profile} {unit parent e : Element} {up before : List Element}
    {around : Survey.Surroundings} {c : Call} (readAt : c.ReadAt p unit parent e up before around) :
    c.location = .ofElement unit.fileName e false := by
  obtain ⟨here, found, rename, read, rfl⟩ := readAt.read
  rw [← readAt.file]
  unfold Site.call? at read
  split at read <;> cases read
  rfl

theorem Call.ReadAt.imports {p : Profile} {unit parent e : Element} {up before : List Element}
    {around : Survey.Surroundings} {c : Call} (readAt : c.ReadAt p unit parent e up before around) :
    c.imports = if c.receivers = [] then around.site.imports else [] := by
  obtain ⟨here, found, rename, read, rfl⟩ := readAt.read
  unfold Site.call? at read
  split at read <;> cases read
  simp [Call.rebind]

-- What a graph holds was written in a unit, each use with the imports in force around it, and the access of a type or
-- method was decided by the access region around it.
structure Graph.InContext (p : Profile) (unit : Element) (g : Graph) : Prop where
  types : ∀ x s, g.get? x = some s → ∀ u ∈ s.typeUses, u.WrittenIn p unit
  calls : ∀ x s, g.get? x = some s → ∀ c ∈ s.calls, c.receivers = [] → ∃ e around, unit.Path (e :: around) ∧
    e.tag = "call" ∧ c.location = .ofElement unit.fileName e false ∧ p.importsInForce unit around = .ok c.imports
  access : ∀ x s, g.get? x = some s → s.category = .type ∨ s.category = .method → ∃ e around, unit.Path (e :: around) ∧
    (p.isType e.tag = true ∨ p.isMethod e.tag = true) ∧ (unit.fileName, e.position) ∈ s.locations.map Location.node ∧
    s.access = p.reading.access e (p.regionAround around)

-- Access may be decided in any way, that of the language being one. The last part says that the decision is asked for
-- nothing else: another one that agrees on the types and methods of the unit, with these regions, gives the same graph.
theorem surveyed_in_lexical_context (language : Language) (access : Element → Option String → Access) (unit : Element)
    (g : Graph) (surveyed : surveyUnit ((Profile.builtin language).withAccess access) unit = .ok g) :
    g.InContext ((Profile.builtin language).withAccess access) unit ∧
      ∀ access', ((Profile.builtin language).withAccess access).AgreeOn unit access' →
        surveyUnit ((Profile.builtin language).withAccess access') unit = .ok g := by
  have orderly := (Profile.builtin_orderly language).withAccess access
  refine ⟨⟨?_, ?_, ?_⟩, ?_⟩
  · intro x s found u member
    exact (surveyed_readIn surveyed found).uses u member orderly
  · intro x s found c member alone
    obtain ⟨parent, e, up, before, around, readAt⟩ := (surveyed_readIn surveyed found).calls c member
    refine ⟨e, parent :: up, readAt.path, readAt.isCall, readAt.location, ?_⟩
    rw [readAt.imports, if_pos alone]
    exact (readAt.surrounds orderly).imports
  · intro x s found sort
    obtain ⟨node, listed, decided⟩ := (surveyed_readIn surveyed found).access sort
    obtain ⟨e, around, path, role, rfl, equal⟩ := decided orderly
    exact ⟨e, around, path, role, listed, equal⟩
  · intro access' agree
    have same : surveyUnit (((Profile.builtin language).withAccess access).withAccess access') unit =
        surveyUnit ((Profile.builtin language).withAccess access) unit := surveyUnit_withAccess orderly agree
    exact same.trans surveyed

def Content.usingSpace (name : String) (rest : Content) : Content :=
  .written "using" (.written "namespace" (.name name .nil) .nil) rest

def cppUnit (content : Content) : Element :=
  { tag := "unit", attributes := [("filename", "a.cpp")], content : Element }.positioned

-- `using namespace std; namespace a { /* */ using namespace b; class C { public: void m(T x); }; }`
def reopeningUnit : Element :=
  let typed := Content.written "decl" (.written "type" (.name "T" .nil) (.name "x" .nil)) .nil
  let method := Content.written "function_decl" (.written "type" (.name "void" .nil) <| .name "m" <|
    .written "parameter_list" (.written "param" typed .nil) .nil) .nil
  let type := Content.written "class" (.name "C" <| .written "block" (.written "public" method .nil) .nil) .nil
  cppUnit (.usingSpace "std" <| .written "namespace" (.name "a" <| .written "block"
    (.written "comment" .nil <| .usingSpace "b" type) .nil) .nil)

-- `using namespace std;` before a function whose parameter has a name but no type.
def untypedUnit : Element :=
  cppUnit (.usingSpace "std" <| .written "function" (.name "f" <|
    .written "parameter_list" (.written "param" (.written "decl" (.name "x" .nil) .nil) .nil) <|
    .written "block" .nil .nil) .nil)

def Scope.context (s : Scope) : Access × List (String × List String) :=
  (s.access, s.typeUses.map fun u => (u.name, u.imports.map Import.render))

theorem method_sees_imports_of_file_and_namespace :
    ∃ g, surveyUnit .cPlusPlus reopeningUnit = .ok g ∧
      (g.get? 3).map Scope.context = some (.everyone, [("T", ["import std.*", "import b.*"])]) ∧
      g.InContext .cPlusPlus reopeningUnit ∧
      ∀ access, Profile.cPlusPlus.AgreeOn reopeningUnit access →
        surveyUnit (Profile.cPlusPlus.withAccess access) reopeningUnit = .ok g := by
  obtain ⟨g, surveyed, shown⟩ := @surveyed_single .cPlusPlus reopeningUnit
    (fun g => (g.get? 3).map Scope.context == some (.everyone, [("T", ["import std.*", "import b.*"])]))
    (by decide +kernel)
  have context := surveyed_in_lexical_context .cPlusPlus (Profile.builtin .cPlusPlus).reading.access reopeningUnit g
  rw [Profile.withAccess_self] at context
  exact ⟨g, surveyed, by simpa using shown, context surveyed⟩

def untypedParameter : List Element :=
  let function : Element := untypedUnit.elements.getD 1 default
  let parameters : Element := function.elements.getD 1 default
  [parameters.elements.getD 0 default, parameters, function, untypedUnit]

def Scope.parameterImports (s : Scope) : Option (List (List Location × List Import)) :=
  s.method?.map fun m => m.parameters.map fun q => (q.locations, q.declaredType.imports)

-- The import of the file is in force at the parameter, but not on the type that stands in for the missing one.
theorem placeholder_type_has_no_imports :
    untypedUnit.Path untypedParameter ∧
      ((Profile.cPlusPlus.importsInForce untypedUnit untypedParameter.tail).map (·.map Import.render)).toOption =
        some ["import std.*"] ∧
      ∃ g, surveyUnit .cPlusPlus untypedUnit = .ok g ∧ (g.get? 1).bind Scope.parameterImports =
        some [(untypedParameter.head?.toList.map (.ofElement "a.cpp" · false), [])] := by
  have path : untypedUnit.Path untypedParameter := by
    refine .child (.child (.child .top ?_) ?_) ?_
    · decide +kernel
    · decide +kernel
    · decide +kernel
  obtain ⟨g, surveyed, shown⟩ := @surveyed_single .cPlusPlus untypedUnit
    (fun g => (g.get? 1).bind Scope.parameterImports ==
      some [(untypedParameter.head?.toList.map (.ofElement "a.cpp" · false), [])])
    (by decide +kernel)
  exact ⟨path, by decide +kernel, g, surveyed, eq_of_beq shown⟩

end ScopeAtlas
