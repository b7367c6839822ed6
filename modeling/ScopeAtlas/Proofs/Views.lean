import ScopeAtlas.Proofs.Entries
import ScopeAtlas.Snapshot

namespace ScopeAtlas

def Scope.parentTable (s : Scope) : ParentTable := (s.type?.map (·.parents)).getD []

theorem Scope.map_use_parentTable (s : Scope) :
    s.parentTable.map (·.use) = (s.type?.map (·.parentColumns.uses)).getD [] := by
  unfold parentTable
  cases s.type? with
  | none => rfl
  | some d => exact d.uses_eq.symm

theorem Scope.render_uses (s : Scope) :
    ((s.type?.map (·.parentColumns.uses)).getD []).map (·.render) = s.parentTable.map (·.use.render) := by
  rw [← map_use_parentTable, List.map_map]
  rfl

theorem Scope.parentTable_rebind (f : ScopeId → ScopeId) (s : Scope) :
    (s.rebind f).parentTable = s.parentTable.rebind f := by
  unfold parentTable type? rebind
  cases s.kind with
  | type d => exact d.parents_rebind f
  | block => rfl
  | space isGlobal => rfl
  | method m => rfl

namespace Snapshot

theorem scopeCountAll_eq (views : List Snapshot) : scopeCountAll views = (views.map scopeCount).sum := by
  induction views with
  | nil => rfl
  | cons v rest ih => rw [scopeCountAll, ih, List.map_cons, List.sum_cons]

theorem scopeCountAll_sort (views : List Snapshot) : scopeCountAll (sort views) = scopeCountAll views := by
  rw [scopeCountAll_eq, scopeCountAll_eq]
  exact ((List.mergeSort_perm views _).map scopeCount).sum_nat

theorem scopeCount_ofScope (s : Scope) (fullName : String) (children : List Snapshot) :
    (ofScope s fullName children).scopeCount = 1 + scopeCountAll children := by
  rw [ofScope, scopeCount, scopeCountAll_sort]

theorem renderVariable_rebind (f : ScopeId → ScopeId) (v : Variable) : renderVariable (v.rebind f) = renderVariable v := by
  cases type : v.declaredType <;> simp [renderVariable, Variable.rebind, type, TypeUse.rebind_render]

theorem renderCall_rebind (f : ScopeId → ScopeId) (c : Call) : renderCall (c.rebind f) = renderCall c := by
  have receivers : (c.rebind f).receivers.reverse.map (·.name ++ ".") = c.receivers.reverse.map (·.name ++ ".") := by
    simp [Call.rebind, NameUse.rebind, ← List.map_reverse, Function.comp_def]
  have arguments : (c.rebind f).arguments.length = c.arguments.length := by simp [Call.rebind]
  unfold renderCall Call.render
  rw [receivers, arguments]
  rfl

theorem signature_rebind (f : ScopeId → ScopeId) (s : Scope) : (s.rebind f).signature = s.signature := by
  have parameters : ∀ p : Parameter, (p.rebind f).render = p.render := by
    intro p
    simp [Parameter.render, Parameter.rebind, TypeUse.rebind_render]
  unfold Scope.signature Scope.rebind
  cases kind : s.kind with
  | method m =>
    cases type : m.returnType <;>
      simp [ScopeKind.rebind, Scope.renderMethod, MethodDefinition.rebind, type, parameters, TypeUse.rebind_render,
        Function.comp_def]
  | type d => rfl
  | space x => rfl
  | block => rfl

theorem ofScope_rebind (f : ScopeId → ScopeId) (s : Scope) (fullName : String) (children : List Snapshot) :
    ofScope (s.rebind f) fullName children = ofScope s fullName children := by
  have parents : (s.rebind f).parentTable.map (·.use.render) = s.parentTable.map (·.use.render) := by
    simp [Scope.parentTable_rebind, ParentTable.rebind, TypeUse.rebind_render]
  have declared : (s.rebind f).declared.toList.map renderVariable = s.declared.toList.map renderVariable := by
    have moved : (s.rebind f).declared.toList = s.declared.toList.map (·.rebind f) := VariableTable.rebind_toList f s.declared
    simp [moved, renderVariable_rebind, Function.comp_def]
  have calls : (s.rebind f).calls.map renderCall = s.calls.map renderCall := by
    simp [Scope.rebind, renderCall_rebind, Function.comp_def]
  unfold ofScope
  rw [signature_rebind, Scope.render_uses, Scope.render_uses, parents, declared, calls]
  rfl

inductive Shows (text : String) : Snapshot → Prop
  | here {v : Snapshot} (same : v.signature = text) : Shows text v
  | deeper {v c : Snapshot} (member : c ∈ v.children) (shows : Shows text c) : Shows text v

theorem shows_ofScope {s : Scope} {fullName text : String} {children : List Snapshot} :
    (ofScope s fullName children).Shows text ↔ s.signature = text ∨ ∃ v ∈ children, v.Shows text := by
  have listed : ∀ v, v ∈ sort children ↔ v ∈ children := fun v => (List.mergeSort_perm children _).mem_iff
  constructor
  · intro shows
    cases shows with
    | here same => exact Or.inl same
    | deeper member shows => exact Or.inr ⟨_, (listed _).mp member, shows⟩
  · rintro (same | ⟨v, member, shows⟩)
    · exact .here same
    · exact .deeper ((listed v).mpr member) shows

end Snapshot

namespace Forest

-- The views of the trees of a forest, below scopes with the names `above`.
def views (above : List String) : Forest → List Snapshot
  | nil => []
  | tree _ s below rest =>
    .ofScope s (".".intercalate (above ++ s.pathName?.toList)) (below.views (above ++ s.pathName?.toList)) ::
      rest.views above

theorem Relabels.views {F : Forest → Forest} {move rename : ScopeId → ScopeId}
    (relabels : Relabels F move rename) (f : Forest) (above : List String) : (F f).views above = f.views above := by
  induction f generalizing above with
  | nil => rw [relabels.nil]
  | tree id s below rest inner outer =>
    have name : (s.rebind rename).pathName? = s.pathName? := by
      unfold Scope.pathName? Scope.isNamed Scope.category Scope.rebind
      cases s.kind <;> rfl
    rw [relabels.tree, Forest.views, Forest.views, name, Snapshot.ofScope_rebind, inner, outer]

theorem shows_views {f : Forest} {parent : Option ScopeId} {above : List String} {text : String} :
    (∃ v ∈ f.views above, v.Shows text) ↔ ∃ entry ∈ f.entries parent, entry.scope.signature = text := by
  induction f generalizing parent above with
  | nil => simp [views, entries]
  | tree id s below rest inner outer =>
    simp only [views, entries, List.mem_cons, List.mem_append, or_and_right, exists_or, exists_eq_left,
      Snapshot.shows_ofScope, or_assoc]
    rw [@inner (some id), @outer parent]

theorem scopeCount_views (f : Forest) (above : List String) : Snapshot.scopeCountAll (f.views above) = f.ids.length := by
  induction f generalizing above with
  | nil => rfl
  | tree id s below rest inner outer =>
    rw [views, Snapshot.scopeCountAll, Snapshot.scopeCount_ofScope, inner, outer]
    simp only [ids_tree, List.length_cons, List.length_append]
    omega

end Forest

namespace Graph

variable {g : Graph} {f : Forest} {parent : Option ScopeId} {up : List ScopeId}

theorem fullName_eq {id : ScopeId} {s : Scope} (found : g.get? id = some s) (above : g.Chain s.parent up)
    (nodup : (id :: up).Nodup) :
    g.fullName id = ".".intercalate ((up.filterMap g.nameOf?).reverse ++ s.pathName?.toList) := by
  have name : g.nameOf? id = s.pathName? := by simp [nameOf?, found]
  rw [fullName, namePath, qualifierNames, ancestors_eq found above nodup, name]

theorem Shows.views {depth : Nat} (shown : g.Shows parent f) (above : g.Chain parent up) (nodup : (up ++ f.ids).Nodup)
    (deep : f.height ≤ depth) :
    f.roots.mapM (Snapshot.ofWithin g depth) = .ok (f.views (up.filterMap g.nameOf?).reverse) := by
  -- A view names the scopes above it, so the induction carries the chain of parents along.
  induction f generalizing parent up depth with
  | nil => rfl
  | tree id s below rest inner outer =>
    obtain ⟨here, under, beside⟩ := shown
    have counted := List.nodup_iff_count_le_one.mp nodup
    simp only [Forest.ids_tree, List.count_append, List.count_cons] at counted
    have nodupUnder : ((id :: up) ++ below.ids).Nodup := by
      rw [List.nodup_iff_count_le_one]
      intro x
      have := counted x
      simp only [List.cons_append, List.count_append, List.count_cons]
      omega
    have nodupBeside : (up ++ rest.ids).Nodup := by
      rw [List.nodup_iff_count_le_one]
      intro x
      have := counted x
      simp only [List.count_append]
      omega
    simp only [Forest.height] at deep
    obtain ⟨depth, rfl⟩ : ∃ d, depth = d + 1 := ⟨depth - 1, by omega⟩
    have name : g.nameOf? id = s.pathName? := by simp [nameOf?, here]; rfl
    have path : ((id :: up).filterMap g.nameOf?).reverse = (up.filterMap g.nameOf?).reverse ++ s.pathName?.toList := by
      rw [List.filterMap_cons, name]
      cases s.pathName? <;> simp
    have chain : g.Chain (some id) (id :: up) := ⟨rfl, _, here, above⟩
    have lower := inner under chain nodupUnder (show below.height ≤ depth by omega)
    have later := outer beside above nodupBeside (show rest.height ≤ depth + 1 by omega)
    have full := fullName_eq here above (List.nodup_append.mp nodupUnder).1
    have view : Snapshot.ofWithin g (depth + 1) id = .ok (.ofScope s
        (".".intercalate ((up.filterMap g.nameOf?).reverse ++ s.pathName?.toList))
        (below.views ((up.filterMap g.nameOf?).reverse ++ s.pathName?.toList))) := by
      rw [path] at lower
      rw [Snapshot.ofWithin, scope, here, full]
      change (below.roots.mapM (Snapshot.ofWithin g depth) >>= _) = _
      rw [lower]
      rfl
    rw [Forest.roots_tree, List.mapM_cons, view, later]
    rfl

theorem AtRest.snapshot {strict : Prop} (rest : g.AtRest strict f) : ∃ v, f.views [] = [v] ∧ g.snapshot = .ok v := by
  have shown := rest.picture.shows
  have nodup := rest.picture.nodup
  have top : g.Chain none [] := rfl
  have all := shown.views top (by simpa using nodup) (shown.height_le_size nodup)
  cases rest.rooted with
  | intro isRoot tidy nested =>
    rw [Forest.roots_tree, List.mapM_cons] at all
    have live : g.snapshot = Snapshot.ofWithin g g.size g.root := by
      rw [Graph.snapshot, Snapshot.of, scope, shown.1]
      rfl
    rw [live]
    cases view : Snapshot.ofWithin g g.size g.root with
    | error fault =>
      rw [view] at all
      cases all
    | ok v =>
      rw [view] at all
      exact ⟨v, (Except.ok.inj all).symm, rfl⟩

theorem mem_scopes {x : ScopeId} {s : Scope} : (x, s) ∈ g.scopes ↔ g.get? x = some s := by
  simp [scopes, get?, List.mem_zipIdx_iff_getElem?, Option.join_eq_some_iff]

theorem nodup_scopes (g : Graph) : (g.scopes.map (·.1)).Nodup := by
  have ids : g.scopes.map (·.1) = (g.slots.toList.zipIdx.filter (·.1.isSome)).map (·.2) := by
    rw [scopes, List.map_filterMap, ← List.filterMap_eq_map, List.filterMap_filter]
    refine List.filterMap_congr ?_
    rintro ⟨slot, id⟩ -
    cases slot <;> rfl
  have sub : ((g.slots.toList.zipIdx.filter (·.1.isSome)).map (·.2)).Sublist (g.slots.toList.zipIdx.map (·.2)) :=
    List.filter_sublist.map _
  rw [ids]
  refine List.Nodup.sublist sub ?_
  rw [List.zipIdx_map_snd]
  exact List.nodup_range'

theorem Pictures.len (picture : g.Pictures f) : g.len = f.ids.length := by
  have same : f.ids.Perm (g.scopes.map (·.1)) := by
    refine (List.perm_ext_iff_of_nodup picture.nodup g.nodup_scopes).mpr ?_
    intro x
    simp [picture.mem_iff, contains_iff, mem_scopes]
  rw [same.length_eq, List.length_map, Graph.len]

theorem AtRest.shows {strict : Prop} {v : Snapshot} {text : String} (rest : g.AtRest strict f) (shown : g.snapshot = .ok v) :
    v.Shows text ↔ text ∈ g.scopes.map (·.2.signature) := by
  obtain ⟨w, views, shown'⟩ := rest.snapshot
  rw [shown] at shown'
  cases shown'
  have visible := @Forest.shows_views f none [] text
  simp only [views, List.mem_singleton, exists_eq_left] at visible
  rw [visible, List.mem_map]
  constructor
  · rintro ⟨entry, listed, same⟩
    exact ⟨(entry.id, _), mem_scopes.mpr (rest.picture.shows.atEntry listed), same⟩
  · rintro ⟨⟨x, s⟩, found, same⟩
    obtain ⟨entry, listed, -, rfl⟩ := rest.picture.exists_entry (mem_scopes.mp found)
    exact ⟨entry, listed, same⟩

end Graph

end ScopeAtlas
