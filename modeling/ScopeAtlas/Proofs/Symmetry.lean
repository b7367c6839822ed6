import ScopeAtlas.Proofs.KeyedUnion
import ScopeAtlas.Proofs.ViewOrder

namespace ScopeAtlas

def Parameter.isAnonymous (p : Parameter) : Bool := (Text.trim p.name).isEmpty

-- Which of the two is met first does not show.
def Parameter.AgreesWith (p q : Parameter) : Prop :=
  p.declaredType.render = q.declaredType.render ∧ (p.name = q.name ∨ p.isAnonymous ≠ q.isAnonymous)

instance (p q : Parameter) : Decidable (p.AgreesWith q) := inferInstanceAs (Decidable (_ ∧ _))

def ParentTable.AgreesWith (mine theirs : ParentTable) : Prop :=
  ∀ p ∈ mine, ∀ q ∈ theirs, p.use.sameQualifiedName q.use = true → p.use.render = q.use.render

instance (mine theirs : ParentTable) : Decidable (mine.AgreesWith theirs) :=
  inferInstanceAs (Decidable (∀ p ∈ mine, ∀ q ∈ theirs, _))

def ScopeKind.AgreesWith : ScopeKind → ScopeKind → Prop
  | .method m, .method m' => List.Forall₂ Parameter.AgreesWith m.parameters m'.parameters
  | .type d, .type d' => d.parents.AgreesWith d'.parents
  | _, _ => True

instance : (k k' : ScopeKind) → Decidable (k.AgreesWith k')
  | .method _, .method _ => inferInstanceAs (Decidable (List.Forall₂ _ _ _))
  | .type d, .type d' => inferInstanceAs (Decidable (d.parents.AgreesWith d'.parents))
  | .method _, .type _ | .method _, .block | .method _, .space _ => isTrue trivial
  | .type _, .method _ | .type _, .block | .type _, .space _ => isTrue trivial
  | .block, _ | .space _, _ => isTrue trivial

def Scope.AgreesWith (s t : Scope) : Prop := s.kind.AgreesWith t.kind

instance (s t : Scope) : Decidable (s.AgreesWith t) := inferInstanceAs (Decidable (s.kind.AgreesWith t.kind))

theorem Parameter.unite_name (p q : Parameter) : (p.unite q).name = if p.isAnonymous then q.name else p.name := by
  by_cases blank : (Text.trim p.name).isEmpty <;> simp [unite, isAnonymous, blank]

theorem Parameter.AgreesWith.render_comm {p q : Parameter} (agree : p.AgreesWith q) : (p.unite q).render = (q.unite p).render := by
  have name : (p.unite q).name = (q.unite p).name := by
    rw [unite_name, unite_name]
    rcases agree.2 with same | differ
    · simp [same]
    · cases here : p.isAnonymous <;> cases there : q.isAnonymous <;> simp_all
  unfold render
  rw [name, unite_declaredType, unite_declaredType, agree.1]

theorem Parameter.render_uniteAll_comm {left right : List Parameter} (agree : List.Forall₂ AgreesWith left right)
    (same : left.map (·.declaredType.name) = right.map (·.declaredType.name)) :
    (uniteAll left right).map render = (uniteAll right left).map render := by
  induction agree with
  | nil => rfl
  | cons first _ ih =>
    obtain ⟨name, rest⟩ := List.cons.inj same
    rw [uniteAll, uniteAll, if_pos name, if_pos name.symm, List.map_cons, List.map_cons, first.render_comm, ih rest]

theorem ParentTable.mem_faces_usesOf {table : ParentTable} {x : (String × List String) × String} :
    x ∈ (table.flatMap usesOf).map TypeUse.face ↔ x ∈ table.faces := by
  have each : ∀ p : ParentType, ∀ u ∈ usesOf p, u.face = p.use.face := by
    intro p u member
    rcases mem_usesOf member with ⟨-, rfl⟩ | ⟨l, -, rfl⟩
    · rfl
    · exact p.use.face_relocate _
  have some : ∀ p : ParentType, ∃ u, u ∈ usesOf p := by
    intro p
    unfold usesOf
    split
    · exact ⟨p.use, by simp⟩
    · rename_i places written
      obtain ⟨l, member⟩ := List.exists_mem_of_ne_nil _ written
      exact ⟨_, List.mem_map.mpr ⟨l, member, rfl⟩⟩
  simp only [List.mem_map, List.mem_flatMap, faces]
  constructor
  · rintro ⟨u, ⟨p, listed, member⟩, rfl⟩
    exact ⟨p, listed, (each p u member).symm⟩
  · rintro ⟨p, listed, rfl⟩
    obtain ⟨u, member⟩ := some p
    exact ⟨u, ⟨p, listed, member⟩, each p u member⟩

theorem ParentTable.mem_faces_unite {mine theirs : ParentTable} (left : (mine.faces.map Prod.fst).Nodup)
    (right : (theirs.faces.map Prod.fst).Nodup)
    (agree : ∀ x ∈ mine.faces, ∀ y ∈ theirs.faces, x.1 = y.1 → x = y) {x : (String × List String) × String} :
    x ∈ (mine.unite theirs).faces ↔ x ∈ mine.faces ∨ x ∈ theirs.faces := by
  rw [unite, faces_foldl_add, mem_addUnknown_iff sameName_iff, mem_faces_usesOf]
  intro y first z second same
  rw [List.mem_append, mem_faces_usesOf] at first second
  rcases first with here | there <;> rcases second with here' | there'
  · exact List.inj_on_of_nodup_map left here here' same
  · exact agree y here z there' same
  · exact (agree z here' y there same.symm).symm
  · exact List.inj_on_of_nodup_map right there there' same

theorem ParentTable.faces_unite_perm {mine theirs : ParentTable} (left : (mine.faces.map Prod.fst).Nodup)
    (right : (theirs.faces.map Prod.fst).Nodup)
    (agree : ∀ x ∈ mine.faces, ∀ y ∈ theirs.faces, x.1 = y.1 → x = y) :
    (mine.unite theirs).faces.Perm (theirs.unite mine).faces := by
  have first : (mine.unite theirs).faces.Nodup := List.Nodup.of_map _ (nodup_foldl_add _ left)
  have second : (theirs.unite mine).faces.Nodup := List.Nodup.of_map _ (nodup_foldl_add _ right)
  refine (List.perm_ext_iff_of_nodup first second).mpr ?_
  intro x
  rw [mem_faces_unite left right agree, mem_faces_unite right left, or_comm]
  exact fun y there z here same => (agree z here y there same.symm).symm

namespace Scope

variable {mine theirs : Scope}

theorem preferred_comm {α : Type} (theirsFirst : Bool) (left right : Option α) :
    preferred theirsFirst left right = preferred (!theirsFirst) right left := by
  cases theirsFirst <;> rfl

theorem access_unite_comm (ranked : theirs.yieldsTo mine = !mine.yieldsTo theirs) :
    (mine.unite theirs).access = (theirs.unite mine).access := by
  rw [unite_access, unite_access, ranked]
  cases mine.yieldsTo theirs <;> by_cases here : mine.access = .unstated <;>
    by_cases there : theirs.access = .unstated <;> simp [here, there]

theorem alike_of_key (same : mine.key = theirs.key) (left : mine.Sound) (right : theirs.Sound) :
    mine.category = theirs.category ∧ mine.name = theirs.name := by
  have entity := (sameEntity_iff left right).mpr same
  unfold sameEntity at entity
  simp only [Bool.and_eq_true, beq_iff_eq] at entity
  exact entity.1

theorem signature_unite_comm (ranked : theirs.yieldsTo mine = !mine.yieldsTo theirs) (same : mine.key = theirs.key)
    (left : mine.Sound) (right : theirs.Sound) (agree : mine.AgreesWith theirs) :
    (mine.unite theirs).signature = (theirs.unite mine).signature := by
  obtain ⟨-, name⟩ := alike_of_key same left right
  have access := access_unite_comm ranked
  unfold key at same
  unfold signature
  rw [unite_kind, unite_kind, ranked]
  cases here : mine.kind with
  | block => cases there : theirs.kind <;> simp_all [ScopeKind.unite]
  | space x => cases there : theirs.kind <;> simp_all [ScopeKind.unite]
  | type d =>
    cases there : theirs.kind with
    | type d' => cases mine.yieldsTo theirs <;> simp [ScopeKind.unite, TypeDefinition.unite, name]
    | block => simp [here, there] at same
    | space x => simp [here, there] at same
    | method m => simp [here, there] at same
  | method m =>
    cases there : theirs.kind with
    | method m' =>
      simp only [here, there, Key.method.injEq] at same
      obtain ⟨-, constructor, destructor, types⟩ := same
      rw [AgreesWith, here, there] at agree
      have parameters := Parameter.render_uniteAll_comm agree types
      simp only [ScopeKind.unite, renderMethod, MethodDefinition.unite, access, unite_name, name, constructor, destructor,
        parameters, preferred_comm (!mine.yieldsTo theirs), Bool.not_not]
    | block => simp [here, there] at same
    | space x => simp [here, there] at same
    | type d => simp [here, there] at same

theorem parents_unite_perm (same : mine.key = theirs.key) (left : mine.Sound) (right : theirs.Sound)
    (agree : mine.AgreesWith theirs) :
    ((mine.unite theirs).parentTable.map (·.use.render)).Perm ((theirs.unite mine).parentTable.map (·.use.render)) := by
  have shown : ∀ table : ParentTable, table.map (·.use.render) = table.faces.map Prod.snd := by
    intro table
    simp [ParentTable.faces, TypeUse.face]
  unfold key at same
  unfold parentTable type?
  rw [unite_kind, unite_kind, shown, shown]
  refine List.Perm.map _ ?_
  cases here : mine.kind with
  | block => cases there : theirs.kind <;> simp_all [ScopeKind.unite]
  | space x => cases there : theirs.kind <;> simp_all [ScopeKind.unite]
  | method m => cases there : theirs.kind <;> simp_all [ScopeKind.unite]
  | type d =>
    cases there : theirs.kind with
    | type d' =>
      rw [AgreesWith, here, there] at agree
      change ((d.unite _ d').parents.faces).Perm (d'.unite _ d).parents.faces
      rw [TypeDefinition.parents_unite, TypeDefinition.parents_unite]
      refine ParentTable.faces_unite_perm (left.parents d here) (right.parents d' there) ?_
      intro x member y member' equal
      obtain ⟨p, listed, rfl⟩ := List.mem_map.mp member
      obtain ⟨q, listed', rfl⟩ := List.mem_map.mp member'
      exact Prod.ext equal (agree p listed q listed' (ParentTable.sameQualifiedName_iff.mpr equal))
    | block => simp [here, there] at same
    | space x => simp [here, there] at same
    | method m => simp [here, there] at same

end Scope

namespace Snapshot

theorem ofScope_congr {s t : Scope} {fullName : String} {children children' : List Snapshot}
    (signature : s.signature = t.signature) (access : s.access = t.access)
    (locations : s.locations.Perm t.locations)
    (parents : (s.parentTable.map (·.use.render)).Perm (t.parentTable.map (·.use.render)))
    (declared : s.declared.toList.Perm t.declared.toList) (calls : s.calls.Perm t.calls)
    (below : children.Perm children') : ofScope s fullName children = ofScope t fullName children' := by
  unfold ofScope
  rw [signature, access, sortTexts_eq_of_perm (locations.map _), Scope.render_uses, Scope.render_uses,
    sortTexts_eq_of_perm parents, sortTexts_eq_of_perm (declared.map _), sortTexts_eq_of_perm (calls.map _),
    sort_eq_of_perm below]

theorem ofScope_unite_comm {mine theirs : Scope} {fullName : String} {children children' : List Snapshot}
    (apart : mine.Apart theirs) (left : mine.Sound) (right : theirs.Sound) (tidy : mine.Tidy) (tidy' : theirs.Tidy)
    (some : mine.locations ≠ []) (some' : theirs.locations ≠ []) (same : mine.key = theirs.key)
    (agree : mine.AgreesWith theirs) (below : children.Perm children') :
    ofScope (mine.unite theirs) fullName children = ofScope (theirs.unite mine) fullName children' := by
  have apart' : theirs.Apart mine := fun file there here => apart file here there
  have ranked : theirs.yieldsTo mine = !mine.yieldsTo theirs := by
    rcases apart.rank_cases some some' with ⟨-, here, there⟩ | ⟨-, here, there⟩
    · rw [here, there]
      rfl
    · rw [here, there]
      rfl
  refine ofScope_congr (Scope.signature_unite_comm ranked same left right agree) (Scope.access_unite_comm ranked) ?_
    (Scope.parents_unite_perm same left right agree) ?_ ?_ below
  · rw [apart.locations right, apart'.locations left]
    exact List.perm_append_comm
  · rw [apart.unite_declared_eq left right tidy', apart'.unite_declared_eq right left tidy]
    refine (VariableTable.toList_foldl_add_perm _ _).trans (List.perm_append_comm.trans ?_)
    exact (VariableTable.toList_foldl_add_perm _ _).symm
  · rw [apart.calls left right tidy', apart'.calls right left tidy]
    exact List.perm_append_comm

end Snapshot

structure Scope.Meets (mine theirs : Scope) : Prop where
  apart : mine.Apart theirs
  left : mine.Sound ∧ mine.Tidy ∧ mine.locations ≠ []
  right : theirs.Sound ∧ theirs.Tidy ∧ theirs.locations ≠ []
  agree : mine.AgreesWith theirs

namespace Forest

variable {f h : Forest} {above : List String}

def viewOf (above : List String) (found : ScopeId × Scope × Forest) : Snapshot :=
  .ofScope found.2.1 (".".intercalate (above ++ found.2.1.pathName?.toList))
    (found.2.2.views (above ++ found.2.1.pathName?.toList))

theorem Distinct.nodup_keys (distinct : f.Distinct) : f.keys.Nodup := by
  induction f with
  | nil => exact List.nodup_nil
  | tree id s below rest _ outer => exact List.nodup_cons.mpr ⟨distinct.1, outer distinct.2.2⟩

theorem Distinct.views_eq (distinct : f.Distinct) (above : List String) :
    f.views above = f.keys.filterMap fun k => (f.find k).map (viewOf above) := by
  induction f with
  | nil => rfl
  | tree id s below rest _ outer =>
    have first : (tree id s below rest).find s.key = some (id, s, below) := by simp [Forest.find]
    have later : ∀ k ∈ rest.keys, (tree id s below rest).find k = rest.find k := by
      intro k member
      have other : ¬ s.key = k := fun same => distinct.1 (same ▸ member)
      rw [Forest.find, if_neg other]
    rw [keys, List.filterMap_cons, first, Forest.views, outer distinct.2.2]
    refine congrArg (List.cons _) (List.filterMap_congr ?_)
    intro k member
    rw [later k member]

theorem Distinct.views_perm (left : f.Distinct) (right : h.Distinct)
    (same : ∀ k, (f.find k).map (viewOf above) = (h.find k).map (viewOf above)) :
    (f.views above).Perm (h.views above) := by
  have keys : f.keys.Perm h.keys := by
    refine (List.perm_ext_iff_of_nodup left.nodup_keys right.nodup_keys).mpr ?_
    intro k
    have both := congrArg Option.isSome (same k)
    rw [Option.isSome_map, Option.isSome_map] at both
    rw [← not_iff_not, ← find_eq_none, ← find_eq_none, ← Option.not_isSome_iff_eq_none, ← Option.not_isSome_iff_eq_none, both]
  rw [left.views_eq, right.views_eq, funext same]
  exact keys.filterMap _

theorem height_of_find {k : Key} {x : ScopeId} {s : Scope} {below : Forest} (found : f.find k = some (x, s, below)) :
    below.height < f.height := by
  induction f with
  | nil => cases found
  | tree id t under rest _ outer =>
    rw [find] at found
    rw [height]
    split at found
    · cases found
      omega
    · have := outer found
      omega

end Forest

theorem Scope.pathName?_unite (mine theirs : Scope) : (mine.unite theirs).pathName? = mine.pathName? := by
  unfold Scope.pathName? Scope.isNamed Scope.category
  rw [unite_name, unite_kind]
  cases mine.kind <;> cases theirs.kind <;> rfl

theorem Scope.pathName?_of_key {s t : Scope} (left : s.Sound) (right : t.Sound) (same : s.key = t.key) :
    s.pathName? = t.pathName? := by
  obtain ⟨category, name⟩ := alike_of_key same left right
  unfold Scope.pathName? Scope.isNamed
  rw [category, name]

namespace Forest

-- Uniting two forests gives the same views either way, where the scopes that meet agree.
theorem views_absorb_comm {f h : Forest} {fits : Scope → Scope → Prop} {upper : Scope} (joins : Joins fits)
    (sound : ∀ {above s : Scope}, fits above s → s.Sound) (left : f.Nests fits upper) (right : h.Nests fits upper)
    (distinct : f.Distinct) (distinct' : h.Distinct)
    (meets : ∀ path x s below y t under, f.at? path = some (x, s, below) → h.at? path = some (y, t, under) → s.Meets t)
    (above : List String) : ((f.absorb h).views above).Perm ((h.absorb f).views above) := by
  -- what is below the scopes that meet is lower
  induction size : f.height using Nat.strong_induction_on generalizing f h upper above with
  | _ size ih =>
    refine (distinct.absorb sound joins left right distinct').views_perm (distinct'.absorb sound joins right left distinct) ?_
    intro k
    rw [find_absorb sound joins left right distinct', find_absorb sound joins right left distinct]
    rcases here : f.find k with _ | ⟨x, s, under⟩ <;> rcases there : h.find k with _ | ⟨y, t, below⟩
    · rfl
    · rfl
    · rfl
    · obtain ⟨fit, nested⟩ := left.find here
      obtain ⟨fit', nested'⟩ := right.find there
      have left' : under.Nests fits (s.unite t) := nested.mono fun _ => joins.left
      have right' : below.Nests fits (s.unite t) := nested'.mono fun _ => joins.right
      have meets' : ∀ path x' s' b y' t' c, under.at? path = some (x', s', b) → below.at? path = some (y', t', c) →
          s'.Meets t' := by
        intro path x' s' b y' t' c first second
        cases path with
        | nil => cases first
        | cons k' path =>
          refine meets (k :: k' :: path) x' s' b y' t' c ?_ ?_
          · rw [at?, here]
            exact first
          · rw [at?, there]
            exact second
      have lower := ih under.height (size ▸ height_of_find here) left' right' (distinct.find here) (distinct'.find there)
        meets' (above ++ s.pathName?.toList) rfl
      have key : s.key = t.key := (key_of_find here).trans (key_of_find there).symm
      have name := Scope.pathName?_of_key (sound fit) (sound fit') key
      have meet := meets [k] x s under y t below here there
      simp only [unites, Option.map_some, viewOf, Scope.pathName?_unite, ← name]
      rw [Snapshot.ofScope_unite_comm meet.apart meet.left.1 meet.right.1 meet.left.2.1 meet.right.2.1 meet.left.2.2
        meet.right.2.2 key meet.agree lower]

def blind : Forest → Forest
  | nil => nil
  | tree _ s below rest => tree 0 (s.rebind fun _ => 0) below.blind rest.blind

theorem relabels_blind : Relabels blind (fun _ => 0) fun _ => 0 :=
  ⟨rfl, fun _ _ _ _ => rfl⟩

theorem blind_shift (offset : Nat) (f : Forest) : (f.shift offset).blind = f.blind := by
  induction f with
  | nil => rfl
  | tree id s below rest inner outer => rw [shift, blind, blind, inner, outer, Scope.rebind_rebind]; rfl

theorem views_merged (offset : Nat) (f h : Forest) (above : List String) :
    (f.merged offset h).views above = (f.blind.absorb h.blind).views above := by
  rw [merged, (relabels_rebind _).views, ← relabels_blind.views, relabels_blind.absorb, blind_shift]

end Forest

theorem Scope.AgreesWith.rebind {s t : Scope} (agree : s.AgreesWith t) (f : ScopeId → ScopeId) :
    (s.rebind f).AgreesWith (t.rebind f) := by
  unfold AgreesWith Scope.rebind at *
  cases here : s.kind <;> cases there : t.kind <;> rw [here, there] at agree <;> try trivial
  case method.method m m' =>
    refine List.forall₂_map_left_iff.mpr (List.forall₂_map_right_iff.mpr (List.Forall₂.imp ?_ agree))
    intro p q both
    refine ⟨?_, both.2⟩
    simp only [Parameter.rebind, TypeUse.rebind_render]
    exact both.1
  case type.type d d' =>
    intro p listed q listed' same
    rw [TypeDefinition.parents_rebind] at listed listed'
    obtain ⟨p', member, rfl⟩ := List.mem_map.mp listed
    obtain ⟨q', member', rfl⟩ := List.mem_map.mp listed'
    rw [ParentTable.sameQualifiedName_iff, TypeUse.face_rebind, TypeUse.face_rebind, ← ParentTable.sameQualifiedName_iff] at same
    simp only [TypeUse.rebind_render]
    exact agree p' member q' member' same

theorem Scope.Meets.rebind {s t : Scope} (meets : s.Meets t) (f : ScopeId → ScopeId) : (s.rebind f).Meets (t.rebind f) where
  apart := meets.apart
  left := ⟨meets.left.1.rebind f, meets.left.2.1.rebind f, meets.left.2.2⟩
  right := ⟨meets.right.1.rebind f, meets.right.2.1.rebind f, meets.right.2.2⟩
  agree := meets.agree.rebind f

namespace Graph

variable {a b m m' : Graph} {f h : Forest}

theorem AtRest.views_merged_perm (left : a.AtRest True f) (right : b.AtRest True h)
    (meets : ∀ path x s below y t under, f.at? path = some (x, s, below) → h.at? path = some (y, t, under) → s.Meets t) :
    ((f.merged a.size h).views []).Perm ((h.merged b.size f).views []) := by
  rw [Forest.views_merged, Forest.views_merged]
  have blind := Forest.relabels_blind
  refine Forest.views_absorb_comm Scope.joins_sound (fun sound => sound) ((blind.rooted left.rooted).sound .global)
    ((blind.rooted right.rooted).sound .global) (blind.distinct left.distinct) (blind.distinct right.distinct) ?_ []
  intro path x s below y t under here there
  rw [blind.at?] at here there
  obtain ⟨⟨x', s', below'⟩, found, same⟩ := Option.map_eq_some_iff.mp here
  obtain ⟨⟨y', t', under'⟩, found', same'⟩ := Option.map_eq_some_iff.mp there
  cases same
  cases same'
  exact (meets path x' s' below' y' t' under' found found').rebind _

def AgreesWith (a b : Graph) : Prop :=
  ∀ x y s t, a.get? x = some s → b.get? y = some t → a.keyPath x = b.keyPath y → s.AgreesWith t

instance (a b : Graph) : Decidable (a.AgreesWith b) :=
  decidable_of_iff (∀ x ∈ a.scopes, ∀ y ∈ b.scopes, a.keyPath x.1 = b.keyPath y.1 → x.2.AgreesWith y.2) <| by
    simp only [AgreesWith, Prod.forall, mem_scopes]
    exact ⟨fun all x y s t here there => all x s here y t there, fun all x s here y t there => all x y s t here there⟩

theorem surveyed_locations {p : Profile} {e : Element} {g : Graph} {x : ScopeId} {s : Scope} (surveyed : surveyUnit p e = .ok g)
    (found : g.get? x = some s) : s.locations ≠ [] := by
  have inside := (surveyed_isIn surveyed found e.fileName).mpr rfl
  intro empty
  rw [Scope.isIn, empty] at inside
  cases inside

-- Units of two files, each with distinct positions: the graphs may be merged either way, if they agree.
theorem merge_symmetric_of_agreeing {p p' : Profile} {e e' : Element} (first : surveyUnit p e = .ok a)
    (second : surveyUnit p' e' = .ok b) (differ : e.fileName ≠ e'.fileName) (distinct : e.Distinct) (distinct' : e'.Distinct)
    (agree : a.AgreesWith b) :
    ∃ m m' v, a.merge b = .ok m ∧ b.merge a = .ok m' ∧ m.snapshot = .ok v ∧ m'.snapshot = .ok v := by
  obtain ⟨f, left⟩ := atRest_surveyed (fun _ : True => distinct) first
  obtain ⟨h, right⟩ := atRest_surveyed (fun _ : True => distinct') second
  obtain ⟨m, merged, rest⟩ := left.merge right
  obtain ⟨m', merged', rest'⟩ := right.merge left
  obtain ⟨v, views, shown⟩ := rest.snapshot
  obtain ⟨v', views', shown'⟩ := rest'.snapshot
  have same := left.views_merged_perm right (by
    intro path x s below y t under here there
    obtain ⟨found, path_x⟩ := left.of_at? here
    obtain ⟨found', path_y⟩ := right.of_at? there
    obtain ⟨sound, tidy, -⟩ := left.sound_of_at? here
    obtain ⟨sound', tidy', -⟩ := right.sound_of_at? there
    have agreed := agree x y _ _ found found' (path_x.trans path_y.symm)
    have seen := surveyed_locations first found
    have seen' := surveyed_locations second found'
    refine ⟨?_, ⟨sound, tidy trivial, seen⟩, ⟨sound', tidy' trivial, seen'⟩, agreed⟩
    intro file inside inside'
    have inFirst := (surveyed_isIn first found file).mp inside
    have inSecond := (surveyed_isIn second found' file).mp inside'
    exact differ (inFirst.symm.trans inSecond))
  rw [views, views', List.perm_singleton] at same
  cases same
  exact ⟨m, m', v, merged, merged', shown, shown'⟩

theorem shapes_merge_either_way :
    ∃ a b m m' v, surveyUnit .cPlusPlus (shapeUnit "a.cpp" "x") = .ok a ∧
      surveyUnit .cPlusPlus (shapeUnit "b.cpp" "x") = .ok b ∧ a.AgreesWith b ∧
      a.merge b = .ok m ∧ b.merge a = .ok m' ∧ m.snapshot = .ok v ∧ m'.snapshot = .ok v := by
  obtain ⟨a, b, surveyed, surveyed', agree⟩ := @surveyed_pair .cPlusPlus (shapeUnit "a.cpp" "x") (shapeUnit "b.cpp" "x")
    (fun a b => decide (a.AgreesWith b)) (by decide +kernel)
  have differ : (shapeUnit "a.cpp" "x").fileName ≠ (shapeUnit "b.cpp" "x").fileName := by
    rw [shapeUnit_fileName, shapeUnit_fileName]
    decide
  have agree := of_decide_eq_true agree
  obtain ⟨m, m', v, merged⟩ := merge_symmetric_of_agreeing surveyed surveyed' differ (shapeUnit_distinct _ _)
    (shapeUnit_distinct _ _) agree
  exact ⟨a, b, m, m', v, surveyed, surveyed', agree, merged⟩

-- The parameter of a method is named by the first graph that names it, so with two names the order shows.
theorem shapes_merge_order_shows :
    ∃ a b m m' v v', surveyUnit .cPlusPlus (shapeUnit "a.cpp" "x") = .ok a ∧
      surveyUnit .cPlusPlus (shapeUnit "b.cpp" "y") = .ok b ∧
      (shapeUnit "a.cpp" "x").fileName ≠ (shapeUnit "b.cpp" "y").fileName ∧
      a.merge b = .ok m ∧ b.merge a = .ok m' ∧ m.snapshot = .ok v ∧ m'.snapshot = .ok v' ∧ v ≠ v' := by
  obtain ⟨a, b, surveyed, surveyed', passed⟩ := @surveyed_pair .cPlusPlus (shapeUnit "a.cpp" "x") (shapeUnit "b.cpp" "y")
    (fun a b => match a.merge b, b.merge a with
      | .ok m, .ok m' =>
        decide ("Method: void draw(int x)" ∈ m.scopes.map (·.2.signature) ∧
          "Method: void draw(int x)" ∉ m'.scopes.map (·.2.signature))
      | _, _ => false) (by decide +kernel)
  obtain ⟨f, left⟩ := @atRest_surveyed False _ _ _ nofun surveyed
  obtain ⟨h, right⟩ := @atRest_surveyed False _ _ _ nofun surveyed'
  obtain ⟨m, merged, rest⟩ := left.merge right
  obtain ⟨m', merged', rest'⟩ := right.merge left
  obtain ⟨v, -, shown⟩ := rest.snapshot
  obtain ⟨v', -, shown'⟩ := rest'.snapshot
  rw [merged, merged'] at passed
  obtain ⟨listed, missing⟩ := of_decide_eq_true passed
  have differ : (shapeUnit "a.cpp" "x").fileName ≠ (shapeUnit "b.cpp" "y").fileName := by
    rw [shapeUnit_fileName, shapeUnit_fileName]
    decide
  refine ⟨a, b, m, m', v, v', surveyed, surveyed', differ, merged, merged', shown, shown', ?_⟩
  rintro rfl
  exact missing ((rest'.shows shown').mp ((rest.shows shown).mpr listed))

end Graph

end ScopeAtlas
