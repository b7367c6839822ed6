import ScopeAtlas.Proofs.Invariants
import ScopeAtlas.Proofs.RenestedPositions
import ScopeAtlas.Proofs.RenestedReading

namespace ScopeAtlas

namespace Survey

variable {p : Profile} {f : String → String} {language : Language} {around : Surroundings}

section Bodies

variable {c : Content} {e name : Element} {es before : List Element} {place : Place}

theorem walk_nil (empty : c.elements = []) : walk p c place before = pure () := by
  induction c with
  | nil => rfl
  | text run rest ih => exact ih empty
  | element tag attributes position line inner rest _ _ => cases empty

theorem walk_cons (first : c.elements = e :: es) (place : Place) (before : List Element) :
    ∃ rest : Content, rest.elements = es ∧
      walk p c place before = treat p before e (insideOf p e) (place.treatment p e.tag) >>= fun type =>
        walk p rest (place.next p e.tag type) (e :: before) := by
  induction c with
  | nil => cases first
  | text run rest ih => exact ih first
  | element tag attributes position line inner rest _ _ =>
    cases first
    exact ⟨rest, rfl, rfl⟩

theorem walk_only (only : c.elements = [e]) (place : Place) (before : List Element) :
    walk p c place before = treat p before e (insideOf p e) (place.treatment p e.tag) >>= fun _ => pure () := by
  obtain ⟨rest, empty, walked⟩ := walk_cons (p := p) only place before
  rw [walked]
  congr 1
  funext type
  exact walk_nil empty

theorem walk_spaceBody (holds : c.elements = [name, e]) (isName : name.tag = "name") :
    walk p c .spaceBody [] = treat p [name] e (insideOf p e) (Place.spaceBody.treatment p e.tag) >>= fun _ => pure () := by
  obtain ⟨rest, only, walked⟩ := walk_cons (p := p) holds .spaceBody []
  have skipped : Place.spaceBody.treatment p name.tag = .skip := by rw [isName]; rfl
  rw [walked, skipped]
  exact walk_only only .spaceBody [name]

theorem readImports_none (placeless : p.Placeless) (isSpace : e.tag = "namespace") :
    readImports p false (e :: es) = pure [] := by
  have none : p.leadingImports false (e :: es) = [] := by
    unfold Profile.leadingImports
    rw [isSpace, placeless.leading?_space]
  unfold readImports
  rw [none]
  rfl

theorem visit_space (placeless : p.Placeless) (isSpace : e.tag = "namespace") (inside : Inside) :
    treat p before e inside .visit >>= (fun _ => pure ()) = discard (space p e inside) := by
  unfold treat visit
  rw [isSpace, placeless.space, bind_assoc]
  simp only [pure_bind]
  exact bind_pure _

end Bodies

theorem Lockstep.withoutImports {alike : Scope → Scope → Prop} {around around' : Surroundings} {step step' : Survey Unit}
    (steps : Lockstep alike around around' (fun _ _ => True) step step') :
    Lockstep alike around around' (fun _ _ => True) step (Survey.withImports [] step') := by
  intro c d inStep
  have same : { d with site.imports := d.site.imports ++ [] } = d := by rw [List.append_nil]
  rw [run_withImports, same]
  have ends := steps c d inStep
  generalize step.run c = left at ends
  generalize step'.run d = right at ends
  have restored : ∀ k : Context, k.site = around'.site → { k with site.imports := d.site.imports } = k := by
    intro k site
    rw [inStep.site', ← site]
  cases ends with
  | done like after =>
    dsimp only
    rw [restored _ after.site']
    exact .done like after
  | failed after =>
    dsimp only
    rw [restored _ after.site']
    exact .failed after

theorem openSpaces_nil (e : Element) (step : Survey Unit) : (openSpaces e step [] >>= fun _ => pure ()) = step := by
  unfold openSpaces
  rw [bind_assoc]
  exact bind_pure _

-- The body of a namespace that holds just one more is walked over like that one.
theorem spaceBody_lockstep {alike : Scope → Scope → Prop} {around around' : Surroundings} {step : Survey Unit}
    {e name inner : Element} (placeless : p.Placeless)
    (holds : e.elements = [name, inner] ∨
      ∃ block : Element, block.tag = "block" ∧ block.elements = [inner] ∧ e.elements = [name, block])
    (isName : name.tag = "name") (isSpace : inner.tag = "namespace")
    (steps : Lockstep alike around around' (fun _ _ => True) step (discard (space p inner (insideOf p inner)))) :
    Lockstep alike around around' (fun _ _ => True) step (insideOf p e .spaceBody) := by
  unfold insideOf
  rcases holds with holds | ⟨block, isBlock, only, holds⟩
  · have visited : Place.spaceBody.treatment p inner.tag = .visit := by rw [isSpace]; rfl
    rw [walk_spaceBody holds isName, visited, visit_space placeless isSpace]
    exact steps
  · have entered : Place.spaceBody.treatment p block.tag = .enterSpace := by rw [isBlock]; rfl
    have visited : (Place.leading false).treatment p inner.tag = .visit := by
      simp only [Place.treatment, isSpace, placeless.leading?_space]
      rfl
    have body : insideOf p block (.leading false) = discard (space p inner (insideOf p inner)) := by
      unfold insideOf
      rw [walk_only only, visited, visit_space placeless isSpace]
      rfl
    have inside : (treat p [name] block (insideOf p block) .enterSpace >>= fun _ => pure ()) =
        withImports [] (insideOf p block (.leading false)) := by
      unfold treat
      rw [only, readImports_none placeless isSpace, pure_bind, bind_assoc]
      simp only [pure_bind]
      exact bind_pure _
    rw [walk_spaceBody holds isName, entered, inside, body]
    exact steps.withoutImports

-- Namespaces opened at once for one element, and those opened at elements one in the other.
theorem nests_lockstep (placeless : p.Placeless) (keeps : StrictMono f) (spoken : around.site.language = language)
    {e e' body : Element} {step : Survey Unit} {names : List String} (nests : body.Nests names e')
    (block : body.tag = "block")
    (steps : Lockstep (Scope.Moved f language) around (around.move f) (fun _ _ => True) step
      (treat p [] body (insideOf p body) .enterSpace >>= fun _ => pure ())) :
    Lockstep (Scope.Moved f language) around (around.move f) Eq (openSpaces e step names)
      (space p e' (insideOf p e')) := by
  have laws : Scope.Congruence (Scope.Moved f language) := Scope.moved_congruence keeps
  have opens : ∀ e' name, (around.opened e false { name, kind := .space false }).Moved f language
      ((around.move f).opened e' false { name, kind := .space false }) :=
    fun e' name => opened_space spoken e e' name false
  -- a namespace with the name of one segment
  have single : ∀ {e' name : Element} {segment : String}, e'.tag = "namespace" → e'.elements.head? = some name →
      name.tag = "name" → name.segmentNames = [segment] →
      space p e' (insideOf p e') = openSpaces e' (insideOf p e' .spaceBody) [segment] := by
    intro e' name segment isSpace first isName named
    have found : e'.element? "name" = some name := by
      obtain ⟨rest, listed⟩ := List.head?_eq_some_iff.mp first
      simp [Element.element?, listed, isName]
    unfold space
    simp [isSpace, placeless.isNamespace, found, named]
  induction nests with
  | @innermost e' name segment isSpace holds isName named =>
    have entered : Place.spaceBody.treatment p body.tag = .enterSpace := by rw [block]; rfl
    rw [single isSpace (by rw [holds]; rfl) isName named]
    refine openSpaces_lockstep laws (opens e') ?_ [segment]
    unfold insideOf
    rw [walk_spaceBody holds isName, entered]
    exact steps
  | @outer e' name inner segment names isSpace holds isName named inside ih =>
    have first : e'.elements.head? = some name := by
      rcases holds with holds | ⟨_, -, -, holds⟩ <;> rw [holds] <;> rfl
    have isSpace' : inner.tag = "namespace" := by cases inside <;> assumption
    rw [single isSpace first isName named]
    refine Lockstep.withScope laws (fun _ => opens e' segment) ?_
    rw [openSpaces_nil]
    exact spaceBody_lockstep placeless holds isName isSpace' ih.discard

theorem Surroundings.move_within {e e' : Element} (tag : e'.tag = e.tag) :
    (around.move f).within p e' = (around.within p e).move f := by
  unfold Surroundings.within
  rw [tag]
  split
  · split <;> rfl
  · rfl
  · rfl

theorem Surroundings.move_importing (found : List Import) :
    (around.move f).importing (found.map (·.move f)) = (around.importing found).move f := by
  simp [Surroundings.importing, Surroundings.move, Site.move]

def InsideMoved (f : String → String) (language : Language) (p : Profile) (e e' : Element) : Prop :=
  ∀ inSpace (around : Surroundings), around.site.language = language →
    InsideLockstep (Scope.Moved f language) (TypeUse.Moved f) inSpace around (around.move f) (insideOf p e)
      (insideOf p e')

theorem treat_kept (placeless : p.Placeless) (keeps : StrictMono f) (spoken : around.site.language = language)
    {e e' : Element} {before before' : List Element} {treatment treatment' : Treatment}
    (likes : List.Forall₂ (Element.Like f) before before') (kept : e.Kept f e')
    (treatments : treatment.Like (TypeUse.Moved f) treatment')
    (declares : ∀ type, treatment = .declare type → e.tag = "decl") (inside : InsideMoved f language p e e') :
    Lockstep (Scope.Moved f language) around (around.move f) (Option.Rel (TypeUse.Moved f))
      (treat p before e (insideOf p e) treatment) (treat p before' e' (insideOf p e') treatment') := by
  have imports : (around.move f).site.importsOf (p.reread p.reading) false e'.elements =
      (around.site.importsOf p false e.elements).map (·.map (·.move f)) :=
    placeless.importsOf_like around.site false kept.content.elements
  refine treat_lockstep (Scope.moved_congruence keeps) (reads_kept placeless keeps spoken likes kept) treatments declares
    ?_ ?_ ?_ ?_
  · intro _
    rw [Surroundings.move_within kept.tag]
    refine inside _ _ ?_
    rw [Surroundings.within_site]
    exact spoken
  · intro _
    exact inside false around spoken
  · intro _
    rw [imports]
    cases around.site.importsOf p false e.elements <;> rfl
  · intro _ found found' read read'
    rw [imports, read] at read'
    cases read'
    rw [Surroundings.move_importing]
    exact inside false (around.importing found) spoken

theorem treatment_space (p : Profile) (place : Place) :
    place.treatment p "namespace" = .skip ∨ place.treatment p "namespace" = .visit := by
  unfold Place.treatment
  grind

theorem space_renested (placeless : p.Placeless) (keeps : StrictMono f) (spoken : around.site.language = language)
    {e e' name block block' : Element} (isSpace : e.tag = "namespace") (holds : e.elements = [name, block])
    (isName : name.tag = "name") (isBlock : block.tag = "block") (kept : block.Kept f block')
    (nests : block'.Nests name.segmentNames e') (inside : InsideMoved f language p block block') :
    Lockstep (Scope.Moved f language) around (around.move f) Eq (space p e (insideOf p e))
      (space p e' (insideOf p e')) := by
  have found : e.element? "name" = some name := by simp [Element.element?, holds, isName]
  have several : name.segmentNames ≠ [] := by
    intro none
    rw [none] at nests
    cases nests
  have opened : space p e (insideOf p e) = openSpaces e (insideOf p e .spaceBody) name.segmentNames := by
    unfold space
    simp [isSpace, placeless.isNamespace, found, several]
  have entered : Place.spaceBody.treatment p block.tag = .enterSpace := by rw [isBlock]; rfl
  rw [opened]
  refine nests_lockstep placeless keeps spoken nests (kept.tag.trans isBlock) ?_
  unfold insideOf
  rw [walk_spaceBody holds isName, entered]
  have treated := treat_kept placeless keeps spoken .nil kept .enterSpace (fun _ declares => by cases declares) inside
  exact treated.bind fun _ _ _ => Lockstep.pure trivial

theorem treat_space {alike : Scope → Scope → Prop} {like : TypeUse → TypeUse → Prop} {around around' : Surroundings}
    {e e' : Element} {before before' : List Element} {inside inside' : Inside} {treatment treatment' : Treatment}
    (placeless : p.Placeless) (isSpace : e.tag = "namespace") (isSpace' : e'.tag = "namespace")
    (spaces : Lockstep alike around around' Eq (space p e inside) (space p e' inside'))
    (treatments : treatment.Like like treatment') (plain : treatment = .skip ∨ treatment = .visit) :
    Lockstep alike around around' (Option.Rel like) (treat p before e inside treatment)
      (treat p before' e' inside' treatment') := by
  rcases plain with rfl | rfl
  · cases treatments
    exact Lockstep.pure .none
  · cases treatments
    unfold treat visit
    rw [isSpace, isSpace', placeless.space]
    exact spaces.discard.bind fun _ _ _ => Lockstep.pure .none

theorem walk_renested (placeless : p.Placeless) (keeps : StrictMono f) {c c' : Content} (renested : c.Renested f c') :
    ∀ {around : Surroundings} {before before' : List Element} {place place' : Place},
      around.site.language = language → List.Forall₂ (Element.Like f) before before' →
      place.Like (TypeUse.Moved f) place' →
      Lockstep (Scope.Moved f language) around (around.move f) (fun _ _ => True) (walk p c place before)
        (walk p c' place' before') := by
  induction renested with
  | nil => exact fun _ _ _ => Lockstep.pure trivial
  | text run _ ih => exact ih
  | @kept tag attributes position line inner inner' rest rest' inside read _ ihInside ihAfter =>
    intro around before before' place place' spoken likes places
    have kept : Element.Kept f ⟨tag, attributes, position, line, inner⟩ ⟨tag, attributes, f position, line, inner'⟩ :=
      ⟨rfl, rfl, rfl, rfl, inside, read⟩
    have treatments : (place.treatment p tag).Like (TypeUse.Moved f) (place'.treatment p tag) :=
      places.treatment tag
    have treated := treat_kept placeless keeps spoken likes kept treatments (fun _ => Place.treatment_declare)
      fun _ _ spoken' _ _ places' _ => ihInside spoken' .nil places'
    refine treated.bind ?_
    intro type type' types
    exact ihAfter spoken (.cons (.inl kept) likes) (places.next tag types)
  | @space attributes attributes' bodyAttributes position position' bodyPosition line line' bodyLine name inner inner' body
      body' rest rest' holds isName nests inside _ ihInside ihAfter =>
    intro around before before' place place' spoken likes places
    have kept : Element.Kept f ⟨"block", bodyAttributes, bodyPosition, bodyLine, body⟩
        ⟨"block", bodyAttributes, f bodyPosition, bodyLine, body'⟩ :=
      ⟨rfl, rfl, rfl, rfl, inside, fun isRead => absurd isRead (show "block" ∉ readTags by decide)⟩
    have treatments : (place.treatment p "namespace").Like (TypeUse.Moved f) (place'.treatment p "namespace") :=
      places.treatment "namespace"
    have spaces := @space_renested p f language around placeless keeps spoken ⟨"namespace", attributes, position, line, inner⟩
      ⟨"namespace", attributes', position', line', inner'⟩ name _ _ rfl holds isName rfl kept nests
      fun _ _ spoken' _ _ places' _ => ihInside spoken' .nil places'
    refine (treat_space placeless rfl rfl spaces treatments (treatment_space p place)).bind ?_
    intro type type' types
    exact ihAfter spoken (.cons (.inr ⟨rfl, rfl⟩) likes) (places.next "namespace" types)

end Survey

theorem surveyUnit_renested {p : Profile} {f : String → String} {u u' : Element} (placeless : p.Placeless)
    (keeps : StrictMono f) (tag : u'.tag = u.tag) (attributes : u'.attributes = u.attributes)
    (renested : u.content.Renested f u'.content) :
    (surveyUnit p u').map Graph.unplaced = (surveyUnit p u).map Graph.unplaced := by
  have file : u'.fileName = u.fileName := by simp only [Element.fileName, Element.attribute?, attributes]
  have start : Survey.Surroundings.start p u' = (Survey.Surroundings.start p u).move f := by
    simp [Survey.Surroundings.start, Survey.Surroundings.move, Site.move, file]
  have imports : (Survey.Surroundings.start p u').site.importsOf (p.reread p.reading) true u'.elements =
      ((Survey.Surroundings.start p u).site.importsOf p true u.elements).map (·.map (·.move f)) := by
    rw [start]
    exact placeless.importsOf_like _ true renested.elements
  have body : Survey.Lockstep (Scope.Moved f p.language) (.start p u) (.start p u') (fun _ _ => True)
      (Survey.unitBody p u) (Survey.unitBody (p.reread p.reading) u') := by
    refine Survey.unitBody_lockstep (Scope.moved_congruence keeps) ?_ ?_ ?_
    · rw [imports]
      cases (Survey.Surroundings.start p u).site.importsOf p true u.elements <;> rfl
    · rw [Profile.leadingPackage?_reread, placeless.leadingPackage?, placeless.leadingPackage?]
      exact .none
    · intro found found' read read'
      rw [imports, read] at read'
      cases read'
      rw [start, Survey.Surroundings.move_importing]
      exact Survey.walk_renested placeless keeps renested rfl .nil (.untyped rfl)
  have opens : ((Survey.Surroundings.start p u).opened u false .global).Moved f p.language
      ((Survey.Surroundings.start p u').opened u' false .global) := by
    have spoken : (Survey.Surroundings.start p u).site.language = p.language := rfl
    rw [start]
    exact Survey.opened_space spoken u u' "" true
  have alike : SurveyedAlike (Scope.Moved f p.language) (surveyUnit p u) (surveyUnit p u') :=
    surveyUnit_lockstep tag opens body
  generalize surveyUnit p u = one at alike
  generalize surveyUnit p u' = other at alike
  cases alike with
  | done inStep => exact congrArg Except.ok inStep.unplaced
  | refused error => rfl

-- For languages with namespaces, a file may write a namespace `a::b` at any depth as `a` with `b` inside, and has the
-- same graph up to source positions: the same ids, links, names, declarations, calls, uses and imports. This is so
-- whether all else stays where it is or positions are given out anew; then no tag may have a slash in it.
theorem qualified_namespace_means_nested {language : Language} (known : language = .cPlusPlus ∨ language = .cSharp)
    (u : Element) {content : Content} (renests : u.content.Renests (· ∉ readTags) content) :
    (surveyUnit (.builtin language) { u with content }).map Graph.unplaced =
        (surveyUnit (.builtin language) u).map Graph.unplaced ∧
      ((∀ e ∈ u.descendants, '/' ∉ e.tag.toList) →
        (surveyUnit (.builtin language) ({ u with content } : Element).positioned).map Graph.unplaced =
          (surveyUnit (.builtin language) u.positioned).map Graph.unplaced) := by
  have placeless : (Profile.builtin language).Placeless := by
    rcases known with rfl | rfl
    · exact Profile.cPlusPlus_placeless
    · exact Profile.cSharp_placeless
  refine ⟨surveyUnit_renested placeless strictMono_id rfl rfl renests.renested, ?_⟩
  intro slashless
  obtain ⟨tag, number, below, path, -, -, -, descends, renested⟩ :=
    renests.positioned slashless ("/" ++ u.tag).toList []
  rw [String.ofList_toList] at renested
  exact surveyUnit_renested placeless (shift_strictMono descends) rfl rfl renested

section Written

def cppFile (content : Content) : Element := { tag := "unit", attributes := [("filename", "a.cpp")], content }

def qualifiedSpace (body rest : Content) : Content :=
  .written "namespace" (.written "name" (.name "a" (.written "operator" (.text "::" .nil) (.name "b" .nil)))
    (.written "block" body .nil)) rest

def nestedSpace (body rest : Content) : Content :=
  .written "namespace" (.name "a" (.written "block"
    (.written "namespace" (.name "b" (.written "block" body .nil)) .nil) .nil)) rest

theorem qualifiedSpace_renests (allowed : String → Prop) (body rest : Content) :
    (qualifiedSpace body rest).Renests allowed (nestedSpace body rest) := by
  let plain (text : String) : Element := { tag := "name", content := .text text .nil }
  let qualified : Element :=
    { tag := "name", content := .name "a" (.written "operator" (.text "::" .nil) (.name "b" .nil)) }
  have names : qualified.segmentNames = ["a", "b"] := by decide +kernel
  have outer : (plain "a").segmentNames = ["a"] := by decide +kernel
  have inner : (plain "b").segmentNames = ["b"] := by decide +kernel
  refine @Content.Renests.here allowed _ _ _ _ _ _ qualified _ _ _ rfl rfl rfl ?_ rest
  rw [names]
  exact .outer rfl (.inr ⟨_, rfl, rfl, rfl⟩) rfl outer (.innermost rfl rfl rfl inner)

def emptyType (tag : String) : Content := .written tag (.name "X" (.written "block" .nil .nil)) .nil

-- `using namespace std; namespace c { namespace a::b { class X { }; } namespace a { namespace b { class X; } } }`
def spacesContent (space : Content → Content → Content) : Content :=
  .written "using" (.written "namespace" (.name "std" .nil) .nil) <| .written "namespace" (.name "c" (.written "block"
    (space (emptyType "class") (nestedSpace (emptyType "class_decl") .nil)) .nil)) .nil

def Graph.synopsis (g : Graph) : List (Option ScopeId × String × Option TypeKind × List String) :=
  g.scopes.map fun entry => (entry.2.parent, entry.2.name, entry.2.type?.map (·.kind), entry.2.declared.map (·.1))

def spacesSynopsis : List (Option ScopeId × String × Option TypeKind × List String) :=
  [(none, "", none, []), (some 0, "c", none, []), (some 1, "a", none, []), (some 2, "b", none, []),
    (some 3, "X", some .classType, [])]

theorem reopened_namespace_means_nested :
    (spacesContent qualifiedSpace).Renests (· ∉ readTags) (spacesContent nestedSpace) ∧
      (∀ e ∈ (cppFile (spacesContent qualifiedSpace)).descendants, '/' ∉ e.tag.toList) ∧
      (surveyUnit (.builtin .cPlusPlus) (cppFile (spacesContent nestedSpace)).positioned).map Graph.unplaced =
        (surveyUnit (.builtin .cPlusPlus) (cppFile (spacesContent qualifiedSpace)).positioned).map Graph.unplaced ∧
      ∃ g, surveyUnit .cPlusPlus (cppFile (spacesContent qualifiedSpace)).positioned = .ok g ∧
        g.synopsis = spacesSynopsis := by
  have renests : (spacesContent qualifiedSpace).Renests (· ∉ readTags) (spacesContent nestedSpace) :=
    .after _ _ _ _ _ (.inside (by decide) _ _ _ (.after _ _ _ _ _ (.inside (by decide) _ _ _
      (qualifiedSpace_renests _ _ _) _)) _)
  have slashless : ∀ e ∈ (cppFile (spacesContent qualifiedSpace)).descendants, '/' ∉ e.tag.toList := by
    decide +kernel
  obtain ⟨g, surveyed, shown⟩ := @surveyed_single .cPlusPlus (cppFile (spacesContent qualifiedSpace)).positioned
    (fun g => g.synopsis == spacesSynopsis) (by decide +kernel)
  have same := qualified_namespace_means_nested (.inl rfl) (cppFile (spacesContent qualifiedSpace)) renests
  exact ⟨renests, slashless, same.2 slashless, g, surveyed, eq_of_beq shown⟩

-- `int ‹a::b›;` with a namespace inside the name, the text of which is read
def namedContent (space : Content → Content → Content) : Content :=
  .written "decl_stmt" (.written "decl" (.written "type" (.name "int" .nil) <| .written "name"
    (.written "namespace" (.written "block" (space .nil .nil) .nil) .nil) .nil) .nil) .nil

-- A definition of `a::b::X`, and one more at a position that comes between those below the namespace.
def slashedContent (space : Content → Content → Content) : Content :=
  space (emptyType "class") (.written "namespace[1]/block[1]/m" (nestedSpace (emptyType "struct") .nil) .nil)

theorem nesting_shows_in_text_and_slashed_tags :
    ((namedContent qualifiedSpace).Renests (fun _ => True) (namedContent nestedSpace) ∧
        (surveyUnit (.builtin .cPlusPlus) (cppFile (namedContent nestedSpace)).positioned).map Graph.unplaced ≠
          (surveyUnit (.builtin .cPlusPlus) (cppFile (namedContent qualifiedSpace)).positioned).map Graph.unplaced) ∧
      (slashedContent qualifiedSpace).Renests (· ∉ readTags) (slashedContent nestedSpace) ∧
        (surveyUnit (.builtin .cPlusPlus) (cppFile (slashedContent nestedSpace)).positioned).map Graph.unplaced ≠
          (surveyUnit (.builtin .cPlusPlus) (cppFile (slashedContent qualifiedSpace)).positioned).map Graph.unplaced := by
  have told : ∀ a b : Except Error Graph, a.toOption.map Graph.synopsis ≠ b.toOption.map Graph.synopsis → a ≠ b := by
    rintro a b differ rfl
    exact differ rfl
  refine ⟨⟨?_, ?_⟩, qualifiedSpace_renests _ _ _, ?_⟩
  · exact .inside trivial _ _ _ (.inside trivial _ _ _ (.after _ _ _ _ _ (.inside trivial _ _ _ (.inside trivial _ _ _
      (.inside trivial _ _ _ (qualifiedSpace_renests _ _ _) _) _) _)) _) _
  · exact told _ _ (by decide +kernel)
  · exact told _ _ (by decide +kernel)

end Written

end ScopeAtlas
