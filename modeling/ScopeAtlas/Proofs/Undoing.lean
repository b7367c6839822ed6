import ScopeAtlas.Proofs.Retraction

namespace ScopeAtlas

def Parameter.unnamed (p : Parameter) : Parameter := { p with name := "" }

def Scope.parameterList (s : Scope) : List Parameter := (s.method?.map (·.parameters)).getD []

-- Two scopes hold the same, wherever they stand: places, variables, calls, parents and parameters.
structure Scope.HoldsSame (s s' : Scope) : Prop where
  name : s'.name = s.name
  locations : s'.locations = s.locations
  declared : s'.declared = s.declared
  calls : s'.calls = s.calls
  parents : s'.parentTable = s.parentTable
  parameters : s'.parameterList.map Parameter.unnamed = s.parameterList.map Parameter.unnamed

section Lists

variable {file : String}

theorem filter_addUnknown {α : Type} {same : α → α → Bool} {keep : α → Bool} {known found : List α}
    (none : ∀ x ∈ found, keep x = false) : (addUnknown same known found).filter keep = known.filter keep := by
  induction found generalizing known with
  | nil => rfl
  | cons first rest ih =>
    have later := @ih (if known.any (same · first) then known else known ++ [first]) fun x member =>
      none x (List.mem_cons_of_mem _ member)
    unfold addUnknown at later ⊢
    rw [List.foldl_cons, later]
    split
    · rfl
    · simp [none first List.mem_cons_self]

theorem Scope.filter_addLocationTo {l : Location} (inside : l.isIn file = true) (known : List Location) :
    (addLocationTo l known).filter (!·.isIn file) = known.filter (!·.isIn file) := by
  induction known with
  | nil => simp [addLocationTo, inside]
  | cons first rest ih =>
    unfold addLocationTo
    split
    · rename_i same
      have equal : first.file = l.file := (Prod.mk.inj (Location.sameNode_iff.mp same)).1
      have gone : first.isIn file = true := by rwa [Location.isIn, equal]
      have gone' : ({ first with isReference := first.isReference && l.isReference } : Location).isIn file = true := gone
      simp [gone, gone']
    · rw [List.filter_cons, List.filter_cons, ih]

namespace VariableTable

variable {table : VariableTable} {v : Variable} {l : Location}

theorem left?_eq_none (only : v.locations = [l]) (inside : l.isIn file = true) : v.left? file = none := by
  simp [Variable.left?, someLeft?, only, inside]

theorem left_uniteInto {group : List Variable} (ones : ∀ w ∈ group, ∃ k, w.locations = [k])
    (only : v.locations = [l]) (inside : l.isIn file = true) :
    (uniteInto v group).filterMap (·.left? file) = group.filterMap (·.left? file) := by
  induction group with
  | nil => simp [uniteInto, left?_eq_none only inside]
  | cons known rest ih =>
    obtain ⟨k, one⟩ := ones known List.mem_cons_self
    unfold uniteInto
    split
    · rename_i shared
      have same : k.sameNode l = true := by simpa [Variable.sharesLocation, one, only] using shared
      have equal : k.file = l.file := (Prod.mk.inj (Location.sameNode_iff.mp same)).1
      have gone : k.isIn file = true := by rwa [Location.isIn, equal]
      rw [List.filterMap_cons_none (left?_eq_none one gone),
        List.filterMap_cons_none (left?_eq_none (Scope.addNew_of_shared one only shared) gone)]
    · rw [List.filterMap_cons, List.filterMap_cons, ih fun w listed => ones w (List.mem_cons_of_mem _ listed)]

theorem withdraw_unite (ones : ∀ entry ∈ table, ∀ w ∈ entry.2, ∃ k, w.locations = [k]) (only : v.locations = [l])
    (inside : l.isIn file = true) : (table.unite v).withdraw file = table.withdraw file := by
  rw [withdraw_eq_left, withdraw_eq_left, unite]
  induction table with
  | nil => simp [alter, uniteInto, left, someLeft?, left?_eq_none only inside]
  | cons first rest ih =>
    have later := ih fun entry listed => ones entry (List.mem_cons_of_mem _ listed)
    unfold left at later ⊢
    unfold alter
    split
    · simp only [List.filterMap_cons, left_uniteInto (ones first List.mem_cons_self) only inside]
    · rw [List.filterMap_cons, List.filterMap_cons, later]

theorem ones_unite (ones : ∀ entry ∈ table, ∀ w ∈ entry.2, ∃ k, w.locations = [k]) (only : v.locations = [l]) :
    ∀ entry ∈ table.unite v, ∀ w ∈ entry.2, ∃ k, w.locations = [k] := by
  refine forall_alter (P := fun _ group => ∀ w ∈ group, ∃ k, w.locations = [k]) ones ?_ ?_
  · intro w member
    rw [List.mem_singleton.mp member]
    exact ⟨l, only⟩
  · intro group each
    refine forall_uniteInto each ⟨l, only⟩ ?_
    intro w member shared
    obtain ⟨k, one⟩ := each w member
    exact ⟨k, Scope.addNew_of_shared one only shared⟩

end VariableTable

namespace ParentTable

variable {seen : String → Prop} {table other : ParentTable} {use : TypeUse} {l : Location}

theorem withdraw_add (placed : ∀ p ∈ table, p.Placed fun _ => True) (stands : use.location = some l)
    (inside : l.isIn file = true) : (table.add use).withdraw file = table.withdraw file := by
  have found : ∀ k ∈ use.location.toList, (!k.isIn file) = false := by simp [stands, inside]
  have added := placed_add placed stands trivial
  induction table with
  | nil =>
    rw [add] at added ⊢
    rw [withdraw, List.filterMap_cons, withdrawOne_of_placed (added _ List.mem_cons_self), List.filter_eq_nil_iff.mpr]
    · rfl
    · simpa using found
  | cons p rest ih =>
    unfold add at added ⊢
    unfold withdraw at ih ⊢
    split at added
    · rename_i same
      rw [if_pos same, List.filterMap_cons, List.filterMap_cons, withdrawOne_of_placed (placed p List.mem_cons_self),
        withdrawOne_of_placed (added _ List.mem_cons_self)]
      simp only [Location.addNew_eq, filter_addUnknown found]
    · rename_i differs
      rw [if_neg differs, List.filterMap_cons, List.filterMap_cons, ih]
      · exact fun p listed => placed p (List.mem_cons_of_mem _ listed)
      · exact fun p listed => added p (List.mem_cons_of_mem _ listed)

theorem withdraw_unite (placed : ∀ p ∈ table, p.Placed seen) (placed' : ∀ p ∈ other, p.Placed (· = file)) :
    (table.unite other).withdraw file = table.withdraw file := by
  have both : (table.unite other).withdraw file = table.withdraw file ∧
      ∀ p ∈ table.unite other, p.Placed fun _ => True := by
    refine List.foldlRecOn _ _ (motive := fun sofar : ParentTable =>
      sofar.withdraw file = table.withdraw file ∧ ∀ p ∈ sofar, p.Placed fun _ => True) ?_ ?_
    · exact ⟨rfl, fun p listed => (placed p listed).mono fun _ _ => trivial⟩
    · rintro sofar ⟨same, each⟩ use member
      obtain ⟨p, listed, written⟩ := List.mem_flatMap.mp member
      rw [usesOf_of_placed (placed' p listed)] at written
      obtain ⟨l, place, rfl⟩ := List.mem_map.mp written
      have inside : l.isIn file = true := beq_iff_eq.mpr ((placed' p listed).within l place)
      exact ⟨(withdraw_add each rfl inside).trans same, placed_add each rfl trivial⟩
  exact both.1

end ParentTable

theorem Parameter.left_uniteAll {mine theirs : List Parameter}
    (inside : ∀ p ∈ theirs, ∀ l ∈ p.locations, l.isIn file = true) :
    ((uniteAll mine theirs).map (·.left file)).map unnamed = (mine.map (·.left file)).map unnamed := by
  induction mine generalizing theirs with
  | nil => cases theirs <;> rfl
  | cons p mine ih =>
    cases theirs with
    | nil => rfl
    | cons q theirs =>
      have later := ih fun p listed => inside p (List.mem_cons_of_mem _ listed)
      have places : (Location.addNew p.locations q.locations).filter (!·.isIn file) = p.locations.filter (!·.isIn file) := by
        refine filter_addUnknown ?_
        intro l member
        simp [inside q List.mem_cons_self l member]
      rw [uniteAll, List.map_cons, List.map_cons, List.map_cons, List.map_cons, later]
      split
      · simp [left, unnamed, unite, places]
      · rfl

end Lists

namespace Scope

variable {s s' s'' mine theirs : Scope} {file : String}

theorem HoldsSame.refl (s : Scope) : s.HoldsSame s := ⟨rfl, rfl, rfl, rfl, rfl, rfl⟩

theorem HoldsSame.trans (first : s.HoldsSame s') (second : s'.HoldsSame s'') : s.HoldsSame s'' where
  name := second.name.trans first.name
  locations := second.locations.trans first.locations
  declared := second.declared.trans first.declared
  calls := second.calls.trans first.calls
  parents := second.parents.trans first.parents
  parameters := second.parameters.trans first.parameters

theorem HoldsSame.linked (same : s.HoldsSame s') (p p' : Option ScopeId) (c c' : List ScopeId) :
    (s.linked p c).HoldsSame (s'.linked p' c') :=
  ⟨same.name, same.locations, same.declared, same.calls, same.parents, same.parameters⟩

def OnlySeenIn (file : String) (s : Scope) : Prop := ∀ other, s.isIn other = true → other = file

theorem OnlySeenIn.isOutside (only : s.OnlySeenIn file) : s.isOutside file = false := by
  rw [Bool.eq_false_iff]
  intro outside
  obtain ⟨l, member, other⟩ := isOutside_iff.mp outside
  exact other (only l.file (isIn_iff.mpr ⟨l, member, rfl⟩))

theorem OnlySeenIn.inside {l : Location} (only : s.OnlySeenIn file) (seen : s.isIn l.file = true) : l.isIn file = true :=
  beq_iff_eq.mpr (only l.file seen)

theorem joins_onlySeenIn (file : String) : Joins fun _ s => s.OnlySeenIn file where
  left only := only
  right only := only
  unite left right _ other seen := (isIn_unite.mp seen).elim (left other) (right other)
  rebind _ only := only

theorem joins_fits : Joins Fits := by
  have joins : Joins (FitsWith fun _ => True) := joins_fitsWith (fun _ _ _ _ => trivial) fun _ _ => trivial
  refine ⟨?_, ?_, ?_, ?_⟩
  · exact fun fits => (joins.left ⟨fits, trivial⟩).1
  · exact fun fits => (joins.right ⟨fits, trivial⟩).1
  · exact fun left right same => (joins.unite ⟨left, trivial⟩ ⟨right, trivial⟩ same).1
  · exact fun f fits => (joins.rebind f ⟨fits, trivial⟩).1

theorem OnlySeenIn.isOutside_unite (only : theirs.OnlySeenIn file) :
    (mine.unite theirs).isOutside file = mine.isOutside file := by
  rw [Bool.eq_iff_iff, isOutside_iff, isOutside_iff]
  constructor
  · rintro ⟨l, member, other⟩
    rcases isIn_unite.mp (isIn_iff.mpr ⟨l, member, rfl⟩) with here | there
    · obtain ⟨k, listed, same⟩ := isIn_iff.mp here
      exact ⟨k, listed, same ▸ other⟩
    · exact absurd (only l.file there) other
  · rintro ⟨l, member, other⟩
    obtain ⟨k, listed, same⟩ := isIn_iff.mp (isIn_unite.mpr (Or.inl (isIn_iff.mpr ⟨l, member, rfl⟩)))
    exact ⟨k, listed, same ▸ other⟩

theorem OnlySeenIn.withdraw_unite (only : theirs.OnlySeenIn file) (left : mine.Sound) (right : theirs.Sound) :
    (mine.withdraw file).HoldsSame ((mine.unite theirs).withdraw file) where
  name := unite_name mine theirs
  locations := by
    change (mine.unite theirs).locations.filter (!·.isIn file) = mine.locations.filter (!·.isIn file)
    rw [unite_locations]
    refine List.foldlRecOn _ _ (motive := fun known : List Location =>
      known.filter (!·.isIn file) = mine.locations.filter (!·.isIn file)) rfl ?_
    intro known same l member
    rw [filter_addLocationTo (only.inside (isIn_iff.mpr ⟨l, member, rfl⟩)), same]
  declared := by
    change (mine.unite theirs).declared.withdraw file = mine.declared.withdraw file
    rw [unite_declared]
    -- Withdrawal undoes the union only where each variable has one place, so that is carried along.
    have both := List.foldlRecOn theirs.declared.toList (fun (table : VariableTable) v => table.unite v)
      (motive := fun table : VariableTable => table.withdraw file = mine.declared.withdraw file ∧
        ∀ entry ∈ table, ∀ w ∈ entry.2, ∃ k, w.locations = [k]) (b := mine.declared)
    refine (both ⟨rfl, ?_⟩ ?_).1
    · intro entry listed v member
      obtain ⟨-, k, one, -⟩ := left.declared entry listed v member
      exact ⟨k, one⟩
    · rintro table ⟨same, ones⟩ v member
      obtain ⟨entry, listed, member⟩ := VariableTable.mem_toList.mp member
      obtain ⟨-, l, one, seen⟩ := right.declared entry listed v member
      exact ⟨(VariableTable.withdraw_unite ones one (only.inside seen)).trans same, VariableTable.ones_unite ones one⟩
  calls := by
    change (mine.unite theirs).calls.filter (!·.location.isIn file) = mine.calls.filter (!·.location.isIn file)
    rw [unite_calls, Call.addNew_eq]
    refine filter_addUnknown ?_
    intro c member
    simp [only.inside (right.calls c member)]
  parents := by
    change parentTable { kind := withdrawKind file (mine.unite theirs).kind } =
      parentTable { kind := withdrawKind file mine.kind }
    rw [unite_kind]
    -- Only two types bring parents together; any other pair of kinds leaves mine as they are.
    cases here : mine.kind with
    | block => rfl
    | space isGlobal => cases theirs.kind <;> rfl
    | method m => cases theirs.kind <;> rfl
    | type t =>
      cases there : theirs.kind with
      | type t' =>
        change TypeDefinition.parents _ = TypeDefinition.parents _
        rw [TypeDefinition.parents_withdraw, TypeDefinition.parents_withdraw, TypeDefinition.parents_unite]
        refine ParentTable.withdraw_unite (left.derived t here) ?_
        exact fun p listed => (right.derived t' there p listed).mono only
      | block => rfl
      | space isGlobal => rfl
      | method m => rfl
  parameters := by
    change (parameterList { kind := withdrawKind file (mine.unite theirs).kind }).map _ =
      (parameterList { kind := withdrawKind file mine.kind }).map _
    rw [unite_kind]
    cases here : mine.kind with
    | block => rfl
    | space isGlobal => cases theirs.kind <;> rfl
    | type t => cases theirs.kind <;> rfl
    | method m =>
      cases there : theirs.kind with
      | method m' =>
        refine Parameter.left_uniteAll ?_
        exact fun p listed l place => only.inside ((right.parameters m' there p listed).2 l place)
      | block => rfl
      | space isGlobal => rfl
      | type t => rfl

end Scope

namespace Forest

inductive HoldsSame : Forest → Forest → Prop
  | nil : HoldsSame nil nil
  | tree {id : ScopeId} {s s' : Scope} {below below' rest rest' : Forest} (here : s.HoldsSame s')
      (under : HoldsSame below below') (beside : HoldsSame rest rest') :
      HoldsSame (tree id s below rest) (tree id s' below' rest')

variable {f f' f'' front front' : Forest} {file : String} {parent : Option ScopeId}

theorem HoldsSame.refl (f : Forest) : f.HoldsSame f := by
  induction f with
  | nil => exact .nil
  | tree id s below rest inner outer => exact .tree (.refl s) inner outer

theorem HoldsSame.trans (first : f.HoldsSame f') (second : f'.HoldsSame f'') : f.HoldsSame f'' := by
  induction first generalizing f'' with
  | nil => exact second
  | tree here under beside inner outer =>
    cases second with
    | tree here' under' beside' => exact .tree (here.trans here') (inner under') (outer beside')

theorem HoldsSame.append (first : front.HoldsSame front') (second : f.HoldsSame f') :
    (front ++ f).HoldsSame (front' ++ f') := by
  induction first with
  | nil => exact second
  | tree here under _ _ outer => exact .tree here under outer

theorem HoldsSame.roots (same : f.HoldsSame f') : f'.roots = f.roots := by
  induction same with
  | nil => rfl
  | tree _ _ _ _ outer => rw [roots_tree, roots_tree, outer]

theorem HoldsSame.ids (same : f.HoldsSame f') : f'.ids = f.ids := by
  induction same with
  | nil => rfl
  | tree _ _ _ inner outer => rw [ids_tree, ids_tree, inner, outer]

theorem HoldsSame.atEntry {entry : Entry} (same : f.HoldsSame f') (listed : entry ∈ f.entries parent) :
    ∃ entry' ∈ f'.entries parent, entry'.id = entry.id ∧ entry'.parent = entry.parent ∧
      entry'.below.roots = entry.below.roots ∧ entry.scope.HoldsSame entry'.scope := by
  induction same generalizing parent with
  | nil => cases listed
  | tree here under _ inner outer =>
    rcases mem_entries_tree.mp listed with rfl | deeper | later
    · exact ⟨_, mem_entries_tree.mpr (Or.inl rfl), rfl, rfl, under.roots, here⟩
    · obtain ⟨entry', listed', alike⟩ := inner deeper
      exact ⟨entry', mem_entries_tree.mpr (Or.inr (Or.inl listed')), alike⟩
    · obtain ⟨entry', listed', alike⟩ := outer later
      exact ⟨entry', mem_entries_tree.mpr (Or.inr (Or.inr listed')), alike⟩

theorem withdraw_append (file : String) (front back : Forest) :
    (front ++ back).withdraw file = front.withdraw file ++ back.withdraw file := by
  induction front with
  | nil => rfl
  | tree id s below rest _ outer =>
    rw [tree_append, withdraw, withdraw, outer]
    split
    · rfl
    · split <;> rfl

variable {above : Scope} {mine theirs : Forest}

-- A tree of the file alone that finds a partner goes into it without a trace, and one that finds none goes again.
theorem holdsSame_withdraw_place (id : ScopeId) {t : Scope} {below : Forest} (nested : mine.Nests Scope.Fits above)
    (here : above.Fits t) (under : below.Nests Scope.Fits t) (only : t.OnlySeenIn file)
    (inner : ∀ {mine : Forest} {above : Scope}, mine.Nests Scope.Fits above → below.Nests Scope.Fits above →
      (mine.withdraw file).HoldsSame ((mine.absorb below).withdraw file)) :
    (mine.withdraw file).HoldsSame ((mine.place id t below).withdraw file) := by
  have placed : (mine.place id t below).Nests Scope.Fits above := nested.place Scope.joins_fits here under
  rcases mine.place_cases id t below with
    ⟨front, known, kept, lower, back, rfl, same, _, united, _⟩ | ⟨_, alone, _⟩
  · rw [united] at placed ⊢
    rw [withdraw_append, withdraw_append]
    refine (HoldsSame.refl _).append ?_
    have old := (nests_append.mp nested).2
    rw [withdraw_tree old, withdraw_tree (nests_append.mp placed).2, only.isOutside_unite]
    split
    · refine .tree (only.withdraw_unite old.1.sound here.sound) ?_ (.refl _)
      exact inner (old.2.1.mono fun _ => Scope.joins_fits.left) (under.mono fun _ => Scope.joins_fits.right)
    · exact .refl _
  · rw [alone] at placed ⊢
    rw [withdraw_append, withdraw_tree (nests_append.mp placed).2, only.isOutside]
    rw [if_neg Bool.false_ne_true, withdraw, append_nil]
    exact .refl _

theorem holdsSame_withdraw_absorb (left : mine.Nests Scope.Fits above) (right : theirs.Nests Scope.Fits above)
    (only : theirs.Nests (fun _ t => t.OnlySeenIn file) above) :
    (mine.withdraw file).HoldsSame ((mine.absorb theirs).withdraw file) := by
  induction theirs generalizing mine above with
  | nil => exact .refl _
  | tree id t below rest inner outer =>
    obtain ⟨here, under, beside⟩ := right
    have first := holdsSame_withdraw_place id left here under only.1 fun left' right' =>
      inner left' right' (only.2.1.mono fun _ only => only)
    rw [absorb_tree]
    exact first.trans (outer (left.place Scope.joins_fits here under) beside only.2.2)

theorem Rooted.holdsSame_absorb {strict : Prop} {root root' : ScopeId} (left : f.Rooted strict root)
    (right : f'.Rooted strict root') (only : f'.Nests (fun _ t => t.OnlySeenIn file) above)
    (unseen : ∀ entry ∈ f.entries none, entry.scope.isIn file = false) :
    f.HoldsSame ((f.absorb f').withdrawBelow file) := by
  cases left with
  | @intro s mine isRoot tidy nested =>
    cases right with
    | @intro t theirs isRoot' tidy' nested' =>
      have fits := nested.imp fun _ _ fits => fits.1
      have fits' := nested'.imp fun _ _ fits => fits.1
      have here : s.isIn file = false := unseen _ (mem_entries_tree.mpr (Or.inl rfl))
      have same := only.1.withdraw_unite isRoot.sound isRoot'.sound
      have lower := holdsSame_withdraw_absorb (fits.mono fun _ => Scope.joins_fits.left)
        (fits'.mono fun _ => Scope.joins_fits.right) (only.2.1.mono fun _ only => only)
      rw [isRoot.sound.withdraw_eq_self here] at same
      rw [withdraw_eq_self (fits.imp fun _ _ fits => fits.within) here] at lower
      rw [(absorb_roots isRoot isRoot').1]
      exact .tree same lower .nil

end Forest

namespace Graph

structure HoldsSame (g g' : Graph) : Prop where
  root : g'.root = g.root
  live : ∀ x, g'.contains x = g.contains x
  scopes : ∀ x s, g.get? x = some s →
    ∃ s', g'.get? x = some s' ∧ s'.parent = s.parent ∧ s'.children = s.children ∧ s.HoldsSame s'

variable {strict : Prop} {admits : Element → Prop} {g b m u r : Graph} {f h : Forest} {file : String}

theorem AtRest.rehomes (rest : g.AtRest strict f) (file : String) :
    ∃ g', g.removeFileAndRehome file = .ok g' ∧ g'.AtRest strict (f.withdrawBelow file) := by
  obtain ⟨g', withdrawn, -, rest'⟩ := rest.withdrawing file
  refine ⟨g', ?_, rest'⟩
  rw [removeFileAndRehome, rehoming, withdrawn]
  rfl

theorem AtRest.holdsSame_merged (left : g.AtRest strict f) (right : b.AtRest strict h) (fresh : ¬ g.Sees file)
    (only : ∀ x t, b.get? x = some t → t.OnlySeenIn file) :
    (f.mapScopes (·.rebind (f.retired (h.shift g.size)).survivor)).HoldsSame ((f.merged g.size h).withdrawBelow file) := by
  have shifted := Forest.relabels_shift g.size
  have rebound := Forest.relabels_rebind (f.retired (h.shift g.size)).survivor
  have joins := Scope.joins_onlySeenIn file
  have inside : ∀ entry ∈ h.entries none, entry.scope.OnlySeenIn file := by
    intro entry listed
    have linked := only _ _ (right.picture.shows.atEntry listed)
    exact linked
  have nested := Forest.nests_of_entries inside .global
  rw [Forest.merged, rebound.absorb]
  refine (rebound.rooted left.rooted).holdsSame_absorb (rebound.rooted (shifted.rooted right.rooted))
    (rebound.nests joins (shifted.nests joins nested)) ?_
  intro entry listed
  rw [Forest.entries_mapScopes] at listed
  obtain ⟨old, member, rfl⟩ := List.mem_map.mp listed
  exact Bool.eq_false_iff.mpr fun seen => fresh ⟨_, _, left.picture.shows.atEntry member, seen⟩

theorem AtRest.holdsSame (left : g.AtRest strict f) (right : b.AtRest strict h) (fresh : ¬ g.Sees file)
    (only : ∀ x t, b.get? x = some t → t.OnlySeenIn file)
    (after : r.AtRest strict ((f.merged g.size h).withdrawBelow file)) : g.HoldsSame r := by
  have same := left.holdsSame_merged right fresh only
  refine ⟨?_, ?_, ?_⟩
  · have roots := same.roots
    rw [Forest.roots_mapScopes, left.rooted.roots, after.rooted.roots] at roots
    exact List.singleton_inj.mp roots
  · intro x
    rw [Bool.eq_iff_iff, ← after.picture.mem_iff, ← left.picture.mem_iff, same.ids, Forest.ids_mapScopes]
  · intro x s found
    obtain ⟨entry, listed, rfl, rfl⟩ := left.picture.exists_entry found
    have renamed := Forest.entries_mapScopes (·.rebind (f.retired (h.shift g.size)).survivor) f none
    obtain ⟨entry', listed', id, parent, roots, holds⟩ := same.atEntry (renamed ▸ List.mem_map_of_mem listed)
    have shown := after.picture.shows.atEntry listed'
    rw [id] at shown
    refine ⟨_, shown, parent, roots.trans (Forest.roots_mapScopes _ _), ?_⟩
    have linked := holds.linked entry.parent entry'.parent entry.below.roots entry'.below.roots
    have fixed := left.rebind_entry right listed entry.parent entry.below.roots
    change ((entry.scope.rebind _).linked _ _).HoldsSame _ at linked
    rwa [fixed] at linked

-- A unit whose file the graph does not know is merged and its file withdrawn: the graph is as before, and no id that
-- came with the unit is left.
theorem removal_undoes_merge {p : Profile} {e : Element} (reached : g.Reached admits) (surveyed : surveyUnit p e = .ok u)
    (fresh : ¬ g.Sees e.fileName) :
    ∃ m r, g.merge u = .ok m ∧ m.removeFileAndRehome e.fileName = .ok r ∧ g.HoldsSame r ∧
      ∀ y, r.contains (y + g.size) = false := by
  obtain ⟨f, rest⟩ := reached.atRest fun _ (never : False) => never.elim
  obtain ⟨h, rest'⟩ := atRest_surveyed False.elim surveyed
  obtain ⟨m, merged, both⟩ := rest.merge rest'
  obtain ⟨r, removed, after⟩ := both.rehomes e.fileName
  have same := rest.holdsSame rest' fresh (fun x t found other => (surveyed_isIn surveyed found other).mp) after
  refine ⟨m, r, merged, removed, same, ?_⟩
  intro y
  rw [same.live, Bool.eq_false_iff]
  intro live
  obtain ⟨s, found⟩ := contains_iff.mp live
  exact absurd (lt_size_of_get? found) (Nat.not_lt.mpr (Nat.le_add_left _ _))

-- A second shape, seen in a class that both files define, is merged and withdrawn again.
theorem shapes_come_and_go :
    ∃ a b m r, surveyUnit .cPlusPlus (shapeUnit "a.cpp" "x") = .ok a ∧
      surveyUnit .cPlusPlus (shapeUnit "b.cpp" "y") = .ok b ∧ ¬ a.Sees "b.cpp" ∧ a.merge b = .ok m ∧
      m.removeFileAndRehome "b.cpp" = .ok r ∧ a.HoldsSame r ∧ ∀ y, r.contains (y + a.size) = false := by
  obtain ⟨a, b, surveyed, surveyed'⟩ := shapeUnit_surveyed
  have fresh : ¬ a.Sees "b.cpp" := by
    intro sees
    have other := surveyed_sees surveyed sees
    rw [shapeUnit_fileName] at other
    exact absurd other (by decide)
  have unknown : ¬ a.Sees (shapeUnit "b.cpp" "y").fileName := by rwa [shapeUnit_fileName]
  obtain ⟨m, r, merged, removed, same, gone⟩ :=
    removal_undoes_merge (.surveyed (shapeUnit_distinct _ _) surveyed) surveyed' unknown
  rw [shapeUnit_fileName] at removed
  exact ⟨a, b, m, r, surveyed, surveyed', fresh, merged, removed, same, gone⟩

end Graph

end ScopeAtlas
