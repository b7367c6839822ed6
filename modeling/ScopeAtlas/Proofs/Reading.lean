import ScopeAtlas.Proofs.Growth
import ScopeAtlas.Survey.Walk

namespace ScopeAtlas

theorem Text.trim_trim (text : String) : Text.trim (Text.trim text) = Text.trim text := by
  have ends : ∀ cs, Text.trimEnd cs = cs.rdropWhile Text.isBlank := fun _ => rfl
  -- what is left begins as before, with a character that is not blank
  have start : ((text.toList.dropWhile Text.isBlank).rdropWhile Text.isBlank).dropWhile Text.isBlank =
      (text.toList.dropWhile Text.isBlank).rdropWhile Text.isBlank := by
    rw [List.dropWhile_eq_self_iff]
    intro long
    have same := (List.rdropWhile_prefix Text.isBlank (text.toList.dropWhile Text.isBlank)).getElem long
    rw [same]
    exact List.dropWhile_get_zero_not _ _ _
  unfold Text.trim
  rw [String.toList_ofList, ends, ends, start, List.rdropWhile_idempotent]

theorem Content.trim_identifier? {c : Content} {name : String} (found : c.identifier? = some name) :
    Text.trim name = name := by
  induction c generalizing name with
  | nil => cases found
  | text written rest ih => exact ih found
  | element tag attributes position line inner rest inside beside =>
    rw [identifier?] at found
    split at found
    · obtain rfl := Option.some.inj found
      cases deeper : inner.identifier? with
      | none => exact Text.trim_trim _
      | some name => exact inside deeper
    · exact beside found

theorem Element.trim_identifier (e : Element) : Text.trim e.identifier = e.identifier := by
  unfold Element.identifier
  cases found : e.content.identifier? with
  | none => exact Text.trim_trim _
  | some name => exact Content.trim_identifier? found

namespace Site

variable {site : Site} {scope : ScopeId}

theorem qualifierUse_standsIn (segment : Element) : (site.qualifierUse scope segment).StandsIn (· = scope) :=
  ⟨scope, rfl, rfl⟩

theorem typeUse_standsIn (unbound : ∀ i ∈ site.imports, i.IsUnbound) (name : Element) :
    (site.typeUse scope name).StandsIn (· = scope) := by
  fun_induction site.typeUse scope name with
  | case1 name ih =>
    refine ⟨rfl, ?_, ?_, unbound⟩
    · intro q member
      obtain ⟨segment, -, rfl⟩ := List.mem_map.mp member
      exact qualifierUse_standsIn segment
    · intro a member
      obtain ⟨⟨argument, listed⟩, -, rfl⟩ := List.mem_map.mp member
      exact ih argument listed

theorem typeUse_location (scope : ScopeId) (name : Element) :
    (site.typeUse scope name).location = some (site.locate name true) := by
  rw [typeUse]

theorem declaredType?_standsIn (unbound : ∀ i ∈ site.imports, i.IsUnbound) {type : Element} {u : TypeUse}
    (typed : site.declaredType? scope type = some u) : u.StandsIn (· = scope) := by
  obtain ⟨name, -, rfl⟩ := Option.map_eq_some_iff.mp typed
  exact typeUse_standsIn unbound name

theorem declaratorType?_standsIn (unbound : ∀ i ∈ site.imports, i.IsUnbound) {previous : Option TypeUse} {e : Element}
    (before : ∀ u, previous = some u → u.StandsIn (· = scope)) {u : TypeUse}
    (typed : site.declaratorType? scope previous e = some u) : u.StandsIn (· = scope) := by
  unfold declaratorType? at typed
  split at typed
  · split at typed
    · exact before u typed
    · exact declaredType?_standsIn unbound typed
  · exact before u typed

theorem declaredVariables_standsIn {type : Option TypeUse} {e : Element}
    (typed : ∀ u, type = some u → u.StandsIn (· = scope)) :
    ∀ v ∈ site.declaredVariables scope type e, v.StandsIn (· = scope) := by
  intro v member
  obtain ⟨name, -, rfl⟩ := List.mem_map.mp member
  exact ⟨rfl, typed⟩

theorem importOf_unbound {p : Profile} {e : Element} {i : Import} (read : site.importOf p e = .ok i) : i.IsUnbound := by
  unfold importOf at read
  split at read
  · cases read
  · split at read
    · cases read
    · cases read
      refine ⟨?_, ?_⟩
      · intro q member
        dsimp only at member
        split at member
        · obtain ⟨segment, -, rfl⟩ := List.mem_map.mp member
          rfl
        · obtain ⟨segment, -, rfl⟩ := List.mem_map.mp (List.mem_of_mem_dropLast member)
          rfl
      · intro q last
        dsimp only at last
        split at last
        · cases last
        · obtain ⟨q', found, rfl⟩ := Option.map_eq_some_iff.mp last
          obtain ⟨segment, -, rfl⟩ := List.mem_map.mp (List.mem_of_mem_getLast? found)
          rfl

theorem receivers_standsIn {names : List String} : ∀ r ∈ site.receivers scope names, r.scope = scope := by
  intro r member
  obtain ⟨name, -, rfl⟩ := List.mem_map.mp member
  rfl

theorem argument_standsIn {p : Profile} (e : Element) : (site.argument p scope e).StandsIn (· = scope) := by
  unfold argument
  dsimp only
  split
  · rename_i u found
    change u.scope = scope
    unfold literalUse? at found
    split at found
    · split at found
      · obtain ⟨kind, -, rfl⟩ := Option.map_eq_some_iff.mp found
        rfl
      · cases found
    · cases found
  · unfold variableUse
    split
    · split
      · exact ⟨rfl, receivers_standsIn⟩
      · exact ⟨rfl, fun r member => (List.not_mem_nil member).elim⟩
    · exact ⟨rfl, fun r member => (List.not_mem_nil member).elim⟩

theorem call?_standsIn (unbound : ∀ i ∈ site.imports, i.IsUnbound) {p : Profile} {before : List Element} {e : Element}
    {c : Call} (found : site.call? p scope before e = some c) :
    c.StandsIn (· = scope) ∧ c.location = site.locate e false := by
  unfold call? at found
  split at found
  · cases found
  · cases found
  · cases found
    refine ⟨⟨rfl, receivers_standsIn, ?_, ?_⟩, rfl⟩
    · intro a member
      obtain ⟨list, -, listed⟩ := List.mem_flatMap.mp member
      obtain ⟨argument, -, rfl⟩ := List.mem_map.mp listed
      exact argument_standsIn argument
    · intro i member
      dsimp only at member
      split at member
      · exact unbound i member
      · cases member

theorem parameters_positions (isReference : Bool) (e : Element) :
    (site.parameters scope isReference e).map (·.position) =
      List.range (site.parameters scope isReference e).length := by
  unfold parameters
  dsimp only
  rw [List.map_map, List.length_map, List.length_zipIdx, List.range_eq_range']
  exact List.zipIdx_map_snd 0 _

theorem mem_parameters {isReference : Bool} {e : Element} {p : Parameter}
    (member : p ∈ site.parameters scope isReference e) :
    ∃ param ∈ (e.element? "parameter_list").toList.flatMap (·.elementsNamed "param"),
      p.declaredType = (site.writtenParameter scope isReference param).type.getD { name := "", scope } ∧
      p.locations = [site.locate param isReference] ∧ p.method = scope ∧
      p.name = (site.writtenParameter scope isReference param).name := by
  obtain ⟨⟨w, position⟩, listed, rfl⟩ := List.mem_map.mp member
  have counted := List.fst_mem_of_mem_zipIdx listed
  have among : w ∈ ((e.element? "parameter_list").toList.flatMap (·.elementsNamed "param")).map
      (site.writtenParameter scope isReference) := by
    dsimp only at counted
    split at counted
    · rename_i only same
      rw [same]
      split at counted
      · cases counted
      · exact counted
    · exact counted
  obtain ⟨param, written, rfl⟩ := List.mem_map.mp among
  exact ⟨param, written, rfl, rfl, rfl, rfl⟩

theorem trim_writtenParameter {isReference : Bool} (param : Element) :
    Text.trim (site.writtenParameter scope isReference param).name = (site.writtenParameter scope isReference param).name := by
  unfold writtenParameter
  dsimp only
  cases ((param.element? "decl").getD param).element? "name" with
  | none => exact Text.trim_trim ""
  | some name => exact name.trim_identifier

theorem parameters_standsIn (unbound : ∀ i ∈ site.imports, i.IsUnbound) {isReference : Bool} {e : Element} :
    ∀ p ∈ site.parameters scope isReference e, p.StandsIn (· = scope) := by
  intro p member
  obtain ⟨param, -, typed, -, method, -⟩ := mem_parameters member
  refine ⟨method, ?_⟩
  rw [typed]
  cases use : (site.writtenParameter scope isReference param).type with
  | none => exact ⟨rfl, fun _ none => (List.not_mem_nil none).elim, fun _ none => (List.not_mem_nil none).elim,
      fun _ none => (List.not_mem_nil none).elim⟩
  | some u =>
    obtain ⟨type, -, typed'⟩ := Option.bind_eq_some_iff.mp use
    exact declaredType?_standsIn unbound typed'

end Site

namespace Survey

variable {file : String} {above id : ScopeId} {l : Location} {language : Option Language}

theorem opens_space (name : String) (inFile : l.file = file) :
    Scope.Opens file above id { Scope.addLocation { name, kind := .space false } l with language } where
  links := rfl
  declared := rfl
  calls := rfl
  place := ⟨l, rfl, inFile⟩
  plain := rfl
  block := nofun
  positions := nofun
  parameters := nofun
  trimmed := nofun
  parents := nofun
  derived := nofun
  aligned := nofun
  stands := ⟨nofun, nofun, nofun, nofun⟩

theorem opens_block (inFile : l.file = file) :
    Scope.Opens file above id { Scope.addLocation { kind := .block } l with language } where
  links := rfl
  declared := rfl
  calls := rfl
  place := ⟨l, rfl, inFile⟩
  plain := rfl
  block := fun _ => rfl
  positions := nofun
  parameters := nofun
  trimmed := nofun
  parents := nofun
  derived := nofun
  aligned := nofun
  stands := ⟨nofun, nofun, nofun, nofun⟩

theorem typeScope_parents {p : Profile} {c : Context} {parameters : List String} {e : Element} {t : TypeDefinition}
    (kind : (typeScope p c parameters e).kind = .type t) :
    t.parents = ((p.reading.parentNames e).map (c.site.typeUse c.current)).foldl
        (fun (table : ParentTable) use => table.add use) [] ∧
      t.parentColumns.Aligned := by
  cases kind
  exact ⟨ParentColumns.table_foldl_add _ {}, ParentColumns.aligned_foldl_add _ rfl⟩

theorem opens_type (p : Profile) {c : Context} (unbound : ∀ i ∈ c.site.imports, i.IsUnbound) (current : c.current = above)
    (site : c.site.file = file) (parameters : List String) (e : Element) (inFile : l.file = file) :
    Scope.Opens file above id { (typeScope p c parameters e).addLocation l with language } where
  links := rfl
  declared := rfl
  calls := rfl
  place := ⟨l, rfl, inFile⟩
  plain := rfl
  block := nofun
  positions := nofun
  parameters := nofun
  trimmed := nofun
  parents := by
    intro t kind
    rw [(typeScope_parents kind).1]
    exact ParentTable.nodup_foldl_add _ List.nodup_nil
  derived := by
    intro t kind
    rw [(typeScope_parents kind).1]
    refine List.foldlRecOn _ _ (motive := fun table : ParentTable => ∀ p ∈ table, p.Placed (· = file)) nofun ?_
    intro table placed use member
    obtain ⟨name, -, rfl⟩ := List.mem_map.mp member
    exact ParentTable.placed_add placed (Site.typeUse_location c.current name) site
  aligned t kind := (typeScope_parents kind).2
  stands := by
    refine ⟨nofun, nofun, nofun, ?_⟩
    intro t kind
    rw [(typeScope_parents kind).1]
    refine List.foldlRecOn _ _ (motive := fun table : ParentTable => ∀ p ∈ table, p.use.StandsIn (· = above)) nofun ?_
    intro table stands use member
    obtain ⟨name, -, rfl⟩ := List.mem_map.mp member
    refine ParentTable.forall_add stands ?_ fun p listed _ => stands p listed
    rw [current]
    exact Site.typeUse_standsIn unbound name

theorem opens_method (p : Profile) {c : Context} (unbound : ∀ i ∈ c.site.imports, i.IsUnbound) (site : c.site.file = file)
    (e : Element) (inFile : l.file = file) :
    Scope.Opens file above id { (methodScope p c e id).addLocation l with language } where
  links := rfl
  -- A new scope has no declarations or calls yet; what its header names stands in the scope itself.
  declared := rfl
  calls := rfl
  place := ⟨l, rfl, inFile⟩
  plain := rfl
  block := nofun
  positions := by
    intro m kind
    cases kind
    exact Site.parameters_positions _ e
  parameters := by
    intro m kind p member
    cases kind
    obtain ⟨param, -, -, places, -, -⟩ := Site.mem_parameters member
    exact ⟨_, places, site⟩
  trimmed := by
    intro m kind p member
    cases kind
    obtain ⟨param, -, -, -, -, name⟩ := Site.mem_parameters member
    rw [name]
    exact Site.trim_writtenParameter param
  parents := nofun
  derived := nofun
  aligned := nofun
  stands := by
    refine ⟨nofun, nofun, ?_, nofun⟩
    intro m kind
    cases kind
    refine ⟨?_, Site.parameters_standsIn unbound, ?_⟩
    · intro u typed
      dsimp only at typed
      split at typed
      · cases typed
      · obtain ⟨type, -, typed'⟩ := Option.bind_eq_some_iff.mp (Option.filter_eq_some_iff.mp typed).1
        exact Site.declaredType?_standsIn unbound typed'
    · intro q member
      obtain ⟨name, -, listed⟩ := List.mem_flatMap.mp member
      obtain ⟨segment, -, rfl⟩ := List.mem_map.mp listed
      exact Site.qualifierUse_standsIn segment

end Survey

end ScopeAtlas
