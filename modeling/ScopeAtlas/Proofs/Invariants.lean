import ScopeAtlas.Language.Builtin
import ScopeAtlas.Markup.Position
import ScopeAtlas.Proofs.Views

namespace ScopeAtlas

section Shape

def Content.written (tag : String) (inner rest : Content) : Content := .element tag [] "" 1 inner rest

def Content.name (text : String) (rest : Content) : Content := .written "name" (.text text .nil) rest

-- `struct Shape : Base { void draw(int x) { paint(x); } };` as the only text of a file, with a name for the parameter.
def shapeUnit (file parameter : String) : Element :=
  let typed := Content.written "decl" (.written "type" (.name "int" .nil) (.name parameter .nil)) .nil
  let passed := Content.written "argument" (.written "expr" (.name parameter .nil) .nil) .nil
  let call := Content.written "call" (.name "paint" (.written "argument_list" passed .nil)) .nil
  let draw := Content.written "type" (.name "void" .nil) <| .name "draw" <|
    .written "parameter_list" (.written "param" typed .nil) <|
    .written "block" (.written "expr_stmt" (.written "expr" call .nil) .nil) .nil
  let shape := Content.name "Shape" <| .written "super" (.name "Base" .nil) <|
    .written "block" (.written "function" draw .nil) .nil
  { tag := "unit", attributes := [("filename", file)], content := .written "struct" shape .nil : Element }.positioned

theorem shapeUnit_fileName (file parameter : String) : (shapeUnit file parameter).fileName = file := rfl

theorem shapeUnit_distinct (file parameter : String) : (shapeUnit file parameter).Distinct := by
  have same : (shapeUnit file parameter).content.positions = (shapeUnit "" "").content.positions := rfl
  unfold Element.Distinct
  rw [same]
  decide +kernel

theorem ok_of_toOption {ε α : Type} {q : Except ε α} {found : α} (answered : q.toOption = some found) : q = .ok found := by
  cases q with
  | error fault => cases answered
  | ok found' => exact congrArg _ (Option.some.inj answered)

-- A test of the graph of a unit tells that there is one.
theorem surveyed_single {p : Profile} {e : Element} {test : Graph → Bool}
    (passed : (do return test (← surveyUnit p e)).toOption = some true) : ∃ g, surveyUnit p e = .ok g ∧ test g = true := by
  cases surveyed : surveyUnit p e with
  | error fault =>
    rw [surveyed] at passed
    cases passed
  | ok g =>
    rw [surveyed] at passed
    exact ⟨g, rfl, Option.some.inj passed⟩

theorem surveyed_pair {p : Profile} {e e' : Element} {test : Graph → Graph → Bool}
    (passed : (do return test (← surveyUnit p e) (← surveyUnit p e')).toOption = some true) :
    ∃ a b, surveyUnit p e = .ok a ∧ surveyUnit p e' = .ok b ∧ test a b = true := by
  cases first : surveyUnit p e with
  | error fault =>
    rw [first] at passed
    cases passed
  | ok a =>
    rw [first] at passed
    obtain ⟨b, second, tested⟩ := @surveyed_single p e' (test a) passed
    exact ⟨a, b, rfl, second, tested⟩

theorem shapeUnit_surveyed :
    ∃ a b, surveyUnit .cPlusPlus (shapeUnit "a.cpp" "x") = .ok a ∧ surveyUnit .cPlusPlus (shapeUnit "b.cpp" "y") = .ok b := by
  obtain ⟨a, b, first, second, -⟩ := @surveyed_pair .cPlusPlus (shapeUnit "a.cpp" "x") (shapeUnit "b.cpp" "y")
    (fun _ _ => true) (by decide +kernel)
  exact ⟨a, b, first, second⟩

end Shape

namespace Graph

def Lists (g : Graph) (x c : ScopeId) : Prop := ∃ s, g.get? x = some s ∧ c ∈ s.children

-- The live scopes are one tree below the root, with both directions of every link, and only the root is global.
structure IsOneTree (g : Graph) : Prop where
  root : ∃ s, g.get? g.root = some s ∧ s.parent = none ∧ s.isGlobal = true
  global : ∀ x s, g.get? x = some s → s.isGlobal = true → x = g.root
  once : ∀ x s, g.get? x = some s → s.children.Nodup
  child : ∀ x c, g.Lists x c → ∃ t, g.get? c = some t ∧ t.parent = some x
  single : ∀ x y c, g.Lists x c → g.Lists y c → x = y
  listed : ∀ x s p, g.get? x = some s → s.parent = some p → g.Lists p x
  reachable : ∀ x s, g.get? x = some s → Relation.ReflTransGen g.Lists g.root x

variable {strict : Prop} {g : Graph} {f : Forest} {parent : Option ScopeId} {x c : ScopeId} {s : Scope}

theorem Pictures.child (picture : g.Pictures f) (lists : g.Lists x c) :
    ∃ t, g.get? c = some t ∧ t.parent = some x := by
  obtain ⟨s, found, member⟩ := lists
  obtain ⟨entry, listed, rfl, rfl⟩ := picture.exists_entry found
  obtain ⟨lower, under, rfl, above⟩ := @Forest.exists_entry_of_mem_roots _ (some entry.id) _ member
  exact ⟨_, picture.shows.atEntry (Forest.entries_below listed under), above⟩

theorem Pictures.listed {p : ScopeId} (picture : g.Pictures f) (found : g.get? x = some s) (above : s.parent = some p) :
    g.Lists p x := by
  obtain ⟨entry, listed, rfl, rfl⟩ := picture.exists_entry found
  have above : entry.parent = some p := above
  rcases Forest.entries_above listed with ⟨-, top⟩ | ⟨upper, listed', above', member⟩
  · rw [above] at top
    cases top
  · rw [above] at above'
    cases above'
    exact ⟨_, picture.shows.atEntry listed', member⟩

theorem Shows.reachable (shown : g.Shows parent f) (member : x ∈ f.ids) :
    ∃ r ∈ f.roots, Relation.ReflTransGen g.Lists r x := by
  induction f generalizing parent with
  | nil => cases member
  | tree id s below rest inner outer =>
    obtain ⟨here, under, beside⟩ := shown
    rw [Forest.ids_tree, List.mem_cons, List.mem_append] at member
    rcases member with rfl | deeper | later
    · exact ⟨x, by simp, .refl⟩
    · obtain ⟨r, first, path⟩ := inner under deeper
      exact ⟨id, by simp, .head ⟨_, here, first⟩ path⟩
    · obtain ⟨r, first, path⟩ := outer beside later
      exact ⟨r, by simp [first], path⟩

theorem AtRest.isOneTree (rest : g.AtRest strict f) : g.IsOneTree := by
  have picture := rest.picture
  refine ⟨?_, ?_, ?_, fun x c => picture.child, ?_, fun x s p => picture.listed, ?_⟩
  · cases rest.rooted with
    | intro isRoot tidy nested =>
      refine ⟨_, picture.shows.1, rfl, ?_⟩
      simp [Scope.isGlobal, Scope.linked, isRoot.global]
  · intro x s found global
    obtain ⟨entry, listed, rfl, rfl⟩ := picture.exists_entry found
    cases rest.rooted with
    | intro isRoot tidy nested =>
      rcases Forest.mem_entries_tree.mp listed with rfl | deeper | none
      · rfl
      · obtain ⟨above, fits⟩ := nested.atEntry deeper
        have plain : (entry.scope.linked entry.parent entry.below.roots).isGlobal = false := fits.1.plain
        rw [plain] at global
        cases global
      · cases none
  · intro x s found
    obtain ⟨entry, listed, rfl, rfl⟩ := picture.exists_entry found
    have nodup := picture.nodup.sublist (Forest.entry_ids_sublist listed)
    exact (List.nodup_cons.mp nodup).2.sublist entry.below.roots_sublist_ids
  · intro x y c first second
    obtain ⟨t, found, above⟩ := picture.child first
    obtain ⟨t', found', above'⟩ := picture.child second
    rw [found] at found'
    cases found'
    rw [above] at above'
    exact Option.some.inj above'
  · intro x s found
    obtain ⟨r, first, path⟩ := picture.shows.reachable (picture.complete x s found)
    cases rest.rooted with
    | intro isRoot tidy nested =>
      rw [Forest.roots_tree, Forest.roots_nil, List.mem_singleton] at first
      rwa [first] at path

theorem AtRest.scopeCount (rest : g.AtRest strict f) : ∃ v, g.snapshot = .ok v ∧ v.scopeCount = g.len := by
  obtain ⟨v, views, shown⟩ := rest.snapshot
  refine ⟨v, shown, ?_⟩
  have counted := f.scopeCount_views []
  rw [views, Snapshot.scopeCountAll, Snapshot.scopeCountAll, Nat.add_zero] at counted
  rw [counted, rest.picture.len]

theorem Reached.exists_atRest {admits : Element → Prop} (reached : g.Reached admits) : ∃ f, g.AtRest False f :=
  reached.atRest fun _ => False.elim

-- A reached graph is one tree, its view shows every live scope, and every further operation on it succeeds.
theorem reached_isOneTree {admits : Element → Prop} (reached : g.Reached admits) :
    g.IsOneTree ∧ (∃ v, g.snapshot = .ok v ∧ v.scopeCount = g.len) ∧
      (∀ other : Graph, other.Reached admits → ∃ m, g.merge other = .ok m) ∧
      ∀ file, ∃ g', g.removeFileAndRehome file = .ok g' := by
  obtain ⟨f, rest⟩ := reached.exists_atRest
  refine ⟨rest.isOneTree, rest.scopeCount, ?_, ?_⟩
  · intro other reached'
    obtain ⟨h, rest'⟩ := reached'.exists_atRest
    obtain ⟨m, merged, -⟩ := rest.merge rest'
    exact ⟨m, merged⟩
  · intro file
    obtain ⟨g', f', withdrawn, -⟩ := rest.removeFile file
    exact ⟨g', withdrawn⟩

theorem shapes_are_one_tree :
    ∃ a b m g, surveyUnit .cPlusPlus (shapeUnit "a.cpp" "x") = .ok a ∧
      surveyUnit .cPlusPlus (shapeUnit "b.cpp" "y") = .ok b ∧ a.merge b = .ok m ∧
      m.removeFileAndRehome "a.cpp" = .ok g ∧ g.IsOneTree ∧ ∃ v, g.snapshot = .ok v ∧ v.scopeCount = g.len := by
  obtain ⟨a, b, surveyed, surveyed'⟩ := shapeUnit_surveyed
  have first : a.Reached fun _ => True := .surveyed trivial surveyed
  have second : b.Reached fun _ => True := .surveyed trivial surveyed'
  obtain ⟨m, merged⟩ := (reached_isOneTree first).2.2.1 b second
  have both := Reached.merged first second merged
  obtain ⟨g, withdrawn⟩ := (reached_isOneTree both).2.2.2 "a.cpp"
  obtain ⟨tree, counted, -⟩ := reached_isOneTree (.withdrawn both withdrawn)
  exact ⟨a, b, m, g, surveyed, surveyed', merged, withdrawn, tree, counted⟩

-- The ids that a live scope holds are live: its links, those of its uses, which all stand in the scope itself, and those
-- of what a type is derived from, which stand right above it. Parameters are numbered in order.
structure NamesOwners (g : Graph) (x : ScopeId) (s : Scope) : Prop where
  parent : ∀ p, s.parent = some p → g.contains p = true
  children : ∀ c ∈ s.children, g.contains c = true
  stands : s.StandsIn (fun y => y = x ∧ g.contains y = true) (fun y => s.parent = some y ∧ g.contains y = true)
  positions : ∀ m, s.kind = .method m → ∀ (i : Nat) (p : Parameter), m.parameters[i]? = some p → p.position = i

theorem AtRest.namesOwners (rest : g.AtRest strict f) (found : g.get? x = some s) : g.NamesOwners x s := by
  have picture := rest.picture
  have live : ∀ p, s.parent = some p → g.contains p = true := by
    intro p above
    obtain ⟨t, found', -⟩ := picture.listed found above
    exact contains_of_get? found'
  refine ⟨live, ?_, ?_, ?_⟩
  · intro c member
    obtain ⟨t, found', -⟩ := picture.child ⟨s, found, member⟩
    exact contains_of_get? found'
  · have here := contains_of_get? found
    obtain ⟨entry, listed, rfl, rfl⟩ := picture.exists_entry found
    have stands : entry.scope.StandsIn (fun y => y = entry.id ∧ g.contains y = true)
        (fun y => entry.parent = some y ∧ g.contains y = true) := by
      refine (rest.owned.atEntry listed).mono ?_ fun y above => ⟨above, live y above⟩
      rintro y rfl
      exact ⟨rfl, here⟩
    exact ⟨stands.declared, stands.calls, stands.method, stands.parents⟩
  · obtain ⟨entry, listed, rfl, rfl⟩ := picture.exists_entry found
    obtain ⟨-, sound⟩ := (rest.rooted.sound .global).atEntry listed
    intro m kind i p found
    have numbered := congrArg (fun l => l[i]?) (sound.positions m kind)
    obtain ⟨inside, rfl⟩ := List.getElem?_eq_some_iff.mp found
    simpa [inside] using numbered

theorem reached_names_owners {admits : Element → Prop} (reached : g.Reached admits) :
    ∀ x s, g.get? x = some s → g.NamesOwners x s := by
  obtain ⟨f, rest⟩ := reached.exists_atRest
  exact fun x s => rest.namesOwners

theorem shapes_name_owners :
    ∃ a b m, surveyUnit .cPlusPlus (shapeUnit "a.cpp" "x") = .ok a ∧
      surveyUnit .cPlusPlus (shapeUnit "b.cpp" "y") = .ok b ∧ a.merge b = .ok m ∧
      ∀ x s, m.get? x = some s → m.NamesOwners x s := by
  obtain ⟨a, b, surveyed, surveyed'⟩ := shapeUnit_surveyed
  have first : a.Reached fun _ => True := .surveyed trivial surveyed
  have second : b.Reached fun _ => True := .surveyed trivial surveyed'
  obtain ⟨f, rest⟩ := first.exists_atRest
  obtain ⟨h, rest'⟩ := second.exists_atRest
  obtain ⟨m, merged, -⟩ := rest.merge rest'
  exact ⟨a, b, m, surveyed, surveyed', merged, reached_names_owners (.merged first second merged)⟩

end Graph

namespace Scope

variable {s t : Scope}

theorem Sound.linked (sound : s.Sound) (parent : Option ScopeId) (children : List ScopeId) :
    (s.linked parent children).Sound :=
  ⟨sound.block, sound.nodes, sound.calls, sound.names, sound.declared, sound.groups, sound.positions, sound.parameters,
    sound.trimmed, sound.parents, sound.derived, sound.aligned⟩

-- Two scopes that are not one entity, and what this comes to for scopes of one sort.
structure Differs (s t : Scope) : Prop where
  entity : s.sameEntity t = false
  spaces : s.category = .space → t.category = .space → s.name ≠ t.name
  types : s.category = .type → t.category = .type → s.name ≠ t.name
  methods : ∀ m m', s.kind = .method m → t.kind = .method m' → m.isConstructor = m'.isConstructor →
    m.isDestructor = m'.isDestructor → m.parameterTypeNames = m'.parameterTypeNames → s.name ≠ t.name
  blocks : s.kind = .block → t.kind = .block → ∀ k ∈ s.locations, ∀ l ∈ t.locations, k.node ≠ l.node

theorem differs_of_key (left : s.Sound) (right : t.Sound) (plain : s.isGlobal = false) (plain' : t.isGlobal = false)
    (apart : s.key ≠ t.key) : s.Differs t where
  entity := by
    rw [Bool.eq_false_iff]
    intro same
    exact apart ((sameEntity_iff left right).mp same)
  spaces here there same := by
    unfold key isGlobal category at *
    cases mine : s.kind <;> cases theirs : t.kind <;> simp_all [ScopeKind.category]
  types here there same := by
    unfold key category at *
    cases mine : s.kind <;> cases theirs : t.kind <;> simp_all [ScopeKind.category]
  methods m m' here there constructor destructor parameters same := by
    apply apart
    simp only [key, here, there, constructor, destructor, parameters, same]
  blocks here there k first l second same := by
    apply apart
    obtain ⟨-, k', only⟩ := left.block here
    obtain ⟨-, l', only'⟩ := right.block there
    rw [only, List.mem_singleton] at first
    rw [only', List.mem_singleton] at second
    subst first second
    obtain ⟨file, position⟩ := Prod.mk.inj same
    simp [key, here, there, only, only', file, position]

end Scope

namespace Graph

variable {strict : Prop} {g : Graph} {f : Forest} {parent : Option ScopeId} {x y z : ScopeId} {s t : Scope}

theorem Shows.key_mem (shown : g.Shows parent f) (member : x ∈ f.roots) (found : g.get? x = some s) : s.key ∈ f.keys := by
  induction f with
  | nil => cases member
  | tree id mine below rest _ outer =>
    obtain ⟨here, -, beside⟩ := shown
    rcases List.mem_cons.mp member with rfl | later
    · rw [found] at here
      cases here
      exact List.mem_cons_self
    · exact List.mem_cons_of_mem _ (outer beside later)

theorem Shows.keys_differ (shown : g.Shows parent f) (distinct : f.Distinct) (first : x ∈ f.roots) (second : y ∈ f.roots)
    (apart : x ≠ y) (found : g.get? x = some s) (found' : g.get? y = some t) : s.key ≠ t.key := by
  induction f with
  | nil => cases first
  | tree id mine below rest _ outer =>
    obtain ⟨here, -, beside⟩ := shown
    obtain ⟨fresh, -, distinct⟩ := distinct
    rcases List.mem_cons.mp first with rfl | later <;> rcases List.mem_cons.mp second with rfl | later'
    · exact (apart rfl).elim
    · rw [found] at here
      cases here
      intro same
      apply fresh
      exact same ▸ beside.key_mem later' found'
    · rw [found'] at here
      cases here
      intro same
      apply fresh
      exact same ▸ beside.key_mem later found
    · exact outer beside distinct later later'

theorem AtRest.sound (rest : g.AtRest strict f) (found : g.get? x = some s) : s.Sound := by
  obtain ⟨entry, listed, -, rfl⟩ := rest.picture.exists_entry found
  obtain ⟨-, sound⟩ := (rest.rooted.sound .global).atEntry listed
  exact sound.linked _ _

theorem IsOneTree.plain (tree : g.IsOneTree) (lists : g.Lists z x) (found : g.get? x = some s) : s.isGlobal = false := by
  obtain ⟨t, found', above⟩ := tree.child z x lists
  obtain ⟨r, atRoot, top, -⟩ := tree.root
  rw [Bool.eq_false_iff]
  intro global
  rw [tree.global x s found global, atRoot] at found'
  cases found'
  rw [top] at above
  cases above

theorem AtRest.siblings_differ (rest : g.AtRest strict f) (first : g.Lists z x) (second : g.Lists z y) (apart : x ≠ y)
    (found : g.get? x = some s) (found' : g.get? y = some t) : s.Differs t := by
  have tree := rest.isOneTree
  refine Scope.differs_of_key (rest.sound found) (rest.sound found') (tree.plain first found) (tree.plain second found') ?_
  obtain ⟨above, here, member⟩ := first
  obtain ⟨above', there, member'⟩ := second
  rw [here] at there
  cases there
  obtain ⟨entry, listed, -, rfl⟩ := rest.picture.exists_entry here
  have shown := rest.picture.shows.below listed
  exact shown.keys_differ (rest.distinct.atEntry listed) member member' apart found found'

-- No two children of one scope are one entity.
theorem reached_siblings_differ {admits : Element → Prop} (reached : g.Reached admits) (x a b : ScopeId)
    (first : g.Lists x a) (second : g.Lists x b) (apart : a ≠ b) :
    g.denoteSame a b = false ∧ ∃ s t, g.get? a = some s ∧ g.get? b = some t ∧ s.Differs t := by
  obtain ⟨f, rest⟩ := reached.exists_atRest
  obtain ⟨s, found, -⟩ := rest.isOneTree.child x a first
  obtain ⟨t, found', -⟩ := rest.isOneTree.child x b second
  have differs := rest.siblings_differ first second apart found found'
  refine ⟨?_, s, t, found, found', differs⟩
  rw [denoteSame, found, found']
  exact differs.entity

-- `void draw(int x) { } void draw(float x) { }` as the only text of a file.
def overloadsUnit (file : String) : Element :=
  let draw (type : String) (rest : Content) : Content :=
    let typed := Content.written "decl" (.written "type" (.name type .nil) (.name "x" .nil)) .nil
    .written "function" (.written "type" (.name "void" .nil) <| .name "draw" <|
      .written "parameter_list" (.written "param" typed .nil) <| .written "block" .nil .nil) rest
  { tag := "unit", attributes := [("filename", file)], content := draw "int" (draw "float" .nil) : Element }.positioned

-- The methods of both files are united by their parameters, and those of one name stay apart.
theorem overloads_differ :
    ∃ a b m r, surveyUnit .cPlusPlus (overloadsUnit "a.cpp") = .ok a ∧
      surveyUnit .cPlusPlus (overloadsUnit "b.cpp") = .ok b ∧ a.merge b = .ok m ∧
      m.get? m.root = some r ∧ r.children = [1, 2] ∧ m.denoteSame 1 2 = false ∧
      ∃ s t, m.get? 1 = some s ∧ m.get? 2 = some t ∧ s.Differs t := by
  obtain ⟨a, b, surveyed, surveyed', tested⟩ := @surveyed_pair .cPlusPlus (overloadsUnit "a.cpp") (overloadsUnit "b.cpp")
    (fun a b => (a.merge b).toOption.any fun m => (m.get? m.root).any fun r => r.children == [1, 2]) (by decide +kernel)
  simp only [Option.any_eq_true, beq_iff_eq] at tested
  obtain ⟨m, merged, r, found, children⟩ := tested
  have merged : a.merge b = .ok m := ok_of_toOption merged
  have reached : m.Reached fun _ => True := .merged (.surveyed trivial surveyed) (.surveyed trivial surveyed') merged
  have first : m.Lists m.root 1 := ⟨r, found, by simp [children]⟩
  have second : m.Lists m.root 2 := ⟨r, found, by simp [children]⟩
  have differ := reached_siblings_differ reached m.root 1 2 first second (by decide)
  exact ⟨a, b, m, r, surveyed, surveyed', merged, found, children, differ⟩

end Graph

end ScopeAtlas
