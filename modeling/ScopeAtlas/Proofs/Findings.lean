import ScopeAtlas.Proofs.Contributions
import ScopeAtlas.Proofs.Tangles

namespace ScopeAtlas

namespace Graph

variable {strict : Prop} {g : Graph} {f : Forest} {name : String} {d : Declared}

-- A declaration of a name that a live scope keeps, and that names this scope as its owner.
structure Keeps (g : Graph) (name : String) (d : Declared) : Prop where
  declares : g.Declares name d
  named : d.name = name
  owner : d.scope = d.place.2.1
  live : g.contains d.scope = true

theorem AtRest.keeps (rest : g.AtRest strict f) (declares : g.Declares name d) : g.Keeps name d := by
  rcases d with ⟨holder, index, v⟩ | ⟨holder, index, p⟩
  · obtain ⟨s, found, listed⟩ := declares
    have member : v ∈ s.declared.named name := List.mem_of_getElem? listed
    obtain ⟨entry, filed, inside, key⟩ : ∃ entry ∈ s.declared, v ∈ entry.2 ∧ entry.1 = name := by
      rcases s.declared.named_cases name with none | filed
      · rw [none] at member
        cases member
      · exact ⟨_, filed, member, rfl⟩
    obtain ⟨named, -⟩ := (rest.sound found).declared entry filed v inside
    obtain ⟨⟨owner, live⟩, -⟩ :=
      (rest.namesOwners found).stands.declared v (VariableTable.mem_toList.mpr ⟨entry, filed, inside⟩)
    exact ⟨⟨s, found, listed⟩, named.trans key, owner, live⟩
  · obtain ⟨s, m, found, method, listed, named⟩ := declares
    have kind : s.kind = .method m := by
      unfold Scope.method? at method
      cases kind : s.kind with
      | method m' => simpa [kind] using method
      | space | type | block => simp [kind] at method
    obtain ⟨⟨owner, live⟩, -⟩ := ((rest.namesOwners found).stands.method m kind).parameters p (List.mem_of_getElem? listed)
    exact ⟨⟨s, m, found, method, listed, named⟩, named, owner, live⟩

theorem AtRest.yields_variableCandidates (rest : g.AtRest strict f) (u : VariableUse) :
    Yields (∃ t, g.Tangled t) (fun found => (found.map Declared.place).Nodup ∧ ∀ d ∈ found, g.Keeps u.name d)
      (u.candidates g) := by
  have tree := rest.isOneTree
  have finds := tree.findsParents_unless_tangled
  apply (tree.yields_nameCandidates finds u.toNameUse (tree.answers_receiverOf finds u.receivers)).mono
  intro found declared
  exact ⟨declared.once, fun d member => rest.keeps (declared.each d member)⟩

structure FindsOnly (g : Graph) (fails : Prop) : Prop where
  typeUse : ∀ u : TypeUse, Yields fails (g.Finds (Scope.IsCalled .type u.name)) (u.candidates g)
  qualifierUse : ∀ u : QualifierUse, Yields fails (g.Finds u.Denotes) (u.candidates g)
  variableUse : ∀ u : VariableUse,
    Yields fails (fun found => (found.map Declared.place).Nodup ∧ ∀ d ∈ found, g.Keeps u.name d) (u.candidates g)
  call : ∀ c : Call, Yields fails (g.Finds (c.Reaches g)) (c.candidates g)
  variableTypes : ∀ u : VariableUse, Yields fails (g.Finds Scope.IsType) (u.types g)
  literalTypes : ∀ u : LiteralUse, Yields fails (g.Finds Scope.IsType) (u.types g)
  argumentTypes : ∀ a : Argument, Yields fails (g.Finds Scope.IsType) (a.types g)
  callTypes : ∀ c : Call, Yields fails (g.Finds Scope.IsType) (c.types g)

-- Every search gives only what it was asked for, or meets a tangled type; it never comes to an id that is not live.
theorem searches_find_what_is_named {admits : Element → Prop} (reached : g.Reached admits) :
    g.FindsOnly (∃ t, g.Tangled t) := by
  obtain ⟨f, rest⟩ := reached.exists_atRest
  have tree := rest.isOneTree
  have finds := tree.findsParents_unless_tangled
  have types : ∀ u : VariableUse, Yields (∃ t, g.Tangled t) (g.Finds Scope.IsType) (u.types g) :=
    fun u => tree.yields_nameTypes finds u.toNameUse (tree.answers_receiverOf finds u.receivers)
  have literals : ∀ u : LiteralUse, Yields (∃ t, g.Tangled t) (g.Finds Scope.IsType) (u.types g) :=
    tree.yields_literalTypes finds
  refine ⟨tree.yields_typeCandidates finds, tree.yields_qualifierCandidates finds, rest.yields_variableCandidates,
    tree.yields_callCandidates finds, types, literals, ?_, tree.yields_callTypes finds⟩
  intro a
  rcases a with u | u
  · exact types u
  · exact literals u

-- In `struct Shape : Base { void draw(int x) { paint(x); } };` the type, its method and the parameter are found from inside
-- of the method, and nothing is found from a scope that does not exist.
theorem shape_uses_found :
    ∃ g, surveyUnit .cPlusPlus (shapeUnit "a.cpp" "x") = .ok g ∧ g.FindsOnly (∃ t, g.Tangled t) ∧
      ({ name := "Shape", scope := 2 } : TypeUse).candidates g = .ok [1] ∧
      ({ name := "Shape", scope := 9 } : TypeUse).candidates g = .ok [] ∧
      ({ name := "draw", scope := 2, location := default } : Call).candidates g = .ok [2] ∧
      (({ name := "x", scope := 2 } : VariableUse).candidates g).map (·.map Declared.place) = .ok [(true, 2, 0)] := by
  obtain ⟨g, surveyed, tested⟩ := @surveyed_single .cPlusPlus (shapeUnit "a.cpp" "x")
    (fun g => (({ name := "Shape", scope := 2 } : TypeUse).candidates g).toOption == some [1] &&
      (({ name := "Shape", scope := 9 } : TypeUse).candidates g).toOption == some [] &&
      (({ name := "draw", scope := 2, location := default } : Call).candidates g).toOption == some [2] &&
      ((({ name := "x", scope := 2 } : VariableUse).candidates g).map (·.map Declared.place)).toOption == some [(true, 2, 0)])
    (by decide +kernel)
  simp only [Bool.and_eq_true, beq_iff_eq] at tested
  obtain ⟨⟨⟨type, nowhere⟩, method⟩, parameter⟩ := tested
  have reached : g.Reached fun _ => True := .surveyed trivial surveyed
  refine ⟨g, surveyed, searches_find_what_is_named reached, ?_, ?_, ?_, ?_⟩
  · exact ok_of_toOption type
  · exact ok_of_toOption nowhere
  · exact ok_of_toOption method
  · exact ok_of_toOption parameter

end Graph

end ScopeAtlas
