import ScopeAtlas.Proofs.Keys
import ScopeAtlas.Proofs.Surveying

namespace ScopeAtlas

inductive Graph.Reached (admits : Element → Prop) : Graph → Prop
  | empty : Reached admits .empty
  | surveyed {p : Profile} {e : Element} {g : Graph} (allowed : admits e) (done : surveyUnit p e = .ok g) :
      Reached admits g
  | merged {a b m : Graph} (left : Reached admits a) (right : Reached admits b) (done : a.merge b = .ok m) :
      Reached admits m
  | withdrawn {g g' : Graph} {file : String} (before : Reached admits g) (done : g.removeFileAndRehome file = .ok g') :
      Reached admits g'

-- A unit no two of whose elements have one position.
def Element.Distinct (e : Element) : Prop := e.content.positions.Nodup

namespace Scope

variable {strict : Prop} {mine theirs s : Scope}

-- In a strict history no scope holds two variables of one name, or two calls, at one node.
def TidyIf (strict : Prop) (s : Scope) : Prop := strict → s.Tidy

theorem joins_tidy (strict : Prop) : Joins (FitsWith (TidyIf strict)) :=
  joins_fitsWith (fun left right here _ exact => (here exact).unite left right) fun f here exact => (here exact).rebind f

theorem trims_tidy (strict : Prop) : Trims (FitsWith (TidyIf strict)) :=
  trims_fitsWith fun file here exact => (here exact).withdraw file

theorem joins_sound : Joins fun _ s => s.Sound where
  left sound := sound
  right sound := sound
  unite left right same := left.unite right same
  rebind f sound := sound.rebind f

theorem tidy_of_empty (declared : s.declared = []) (calls : s.calls = []) : s.Tidy :=
  ⟨by simp [calls], by simp [declared]⟩

end Scope

namespace Forest

variable {strict : Prop} {root root' : ScopeId} {f h : Forest}

-- One tree below the root of a graph.
inductive Rooted (strict : Prop) (root : ScopeId) : Forest → Prop
  | intro {s : Scope} {f : Forest} (isRoot : s.IsRoot) (tidy : s.TidyIf strict)
      (nested : f.Nests (Scope.FitsWith (Scope.TidyIf strict)) s) : Rooted strict root (.tree root s f .nil)

theorem absorb_roots {s t : Scope} {mine theirs : Forest} (left : s.IsRoot) (right : t.IsRoot) :
    (tree root s mine nil).absorb (tree root' t theirs nil) = tree root (s.unite t) (mine.absorb theirs) nil ∧
      (tree root s mine nil).retired (tree root' t theirs nil) = mine.retired theirs ++ [(root', root)] := by
  have same := left.sameEntity right
  have partner : (tree root s mine nil).partner? t = some (root, mine) := by simp [partner?, same]
  refine ⟨?_, ?_⟩
  · rw [absorb_tree, place, placeWith, if_pos same]
    rfl
  · rw [retired_tree, placeRetired, partner]
    rfl

-- The tree of two trees united, the ids of the second moved up first: a retired id is renamed to the one that took over.
def merged (offset : Nat) (f h : Forest) : Forest :=
  (f.absorb (h.shift offset)).mapScopes (·.rebind (f.retired (h.shift offset)).survivor)

-- The id that a scope of the second tree has afterwards.
def movedTo (offset : Nat) (f h : Forest) (y : ScopeId) : ScopeId := (f.retired (h.shift offset)).survivor (y + offset)

def withdrawBelow (file : String) : Forest → Forest
  | nil => nil
  | tree id s below rest => tree id (s.withdraw file) (below.withdraw file) (rest.withdrawBelow file)

theorem Rooted.sound (rooted : f.Rooted strict root) (above : Scope) : f.Nests (fun _ s => s.Sound) above := by
  cases rooted with
  | intro isRoot tidy nested =>
    exact ⟨isRoot.sound, (nested.imp fun _ _ fits => fits.1.sound), trivial⟩

theorem Relabels.rooted {F : Forest → Forest} {move rename : ScopeId → ScopeId} (relabels : Relabels F move rename)
    (rooted : f.Rooted strict root) : (F f).Rooted strict (move root) := by
  cases rooted with
  | intro isRoot tidy nested =>
    rw [relabels.tree, relabels.nil]
    refine .intro (isRoot.rebind _) (fun exact => (tidy exact).rebind _) ?_
    exact relabels.nests (Scope.joins_tidy strict) nested

theorem Rooted.absorb (left : f.Rooted strict root) (right : h.Rooted strict root') :
    (f.absorb h).Rooted strict root := by
  have joins := Scope.joins_tidy strict
  cases left with
  | intro isRoot tidy nested =>
    cases right with
    | intro isRoot' tidy' nested' =>
      rw [(absorb_roots isRoot isRoot').1]
      refine .intro (isRoot.unite isRoot') (fun exact => (tidy exact).unite isRoot.sound isRoot'.sound) ?_
      exact (nested.mono fun _ => joins.left).absorb joins (nested'.mono fun _ => joins.right)

end Forest

namespace Graph

-- A graph between two operations, and the tree it pictures.
structure AtRest (strict : Prop) (g : Graph) (f : Forest) : Prop where
  picture : g.Pictures f
  rooted : f.Rooted strict g.root
  owned : f.Owned none
  distinct : f.Distinct

variable {strict : Prop} {a b g : Graph} {f h : Forest}

theorem atRest_empty (strict : Prop) : Graph.empty.AtRest strict (.tree Graph.empty.root .global .nil .nil) where
  picture := empty_pictures
  rooted := by
    refine .intro ⟨rfl, rfl, ?_⟩ (fun _ => Scope.tidy_of_empty rfl rfl) trivial
    exact Scope.sound_of_empty rfl rfl rfl (by simp [Scope.global])
  owned := ⟨⟨nofun, nofun, nofun, nofun⟩, trivial, trivial⟩
  distinct := ⟨nofun, trivial, trivial⟩

theorem atRest_surveyed {p : Profile} {e : Element} (exact : strict → e.Distinct) (surveyed : surveyUnit p e = .ok g) :
    ∃ f, g.AtRest strict f := by
  obtain ⟨seen, s, f, few, root, grown, picture⟩ := surveyUnit_grown surveyed
  have recorded : ∀ s : Scope, s.SurveyedIn e.fileName seen → s.TidyIf strict := by
    intro s surveyed distinct
    obtain ⟨fewer, same, sub⟩ := few
    exact surveyed.2.2.2 (same.nodup_iff.mp ((exact distinct).sublist sub))
  obtain ⟨base, nested, -⟩ := grown.stacks
  obtain ⟨stands, owned, -⟩ := grown.owned
  rw [← root] at picture stands
  refine ⟨.tree g.root s f .nil, picture, ?_, ⟨?_, ?_, trivial⟩, ⟨nofun, grown.distinct.1, trivial⟩⟩
  · refine .intro base.1 (recorded s base.2) ?_
    exact nested.imp fun _ s fits => ⟨fits.1, recorded s fits.2⟩
  · exact stands.mono (fun _ held => held) nofun
  · rwa [root]

theorem AtRest.respects (left : a.AtRest strict f) (right : b.AtRest strict h) :
    (∀ x ∈ (f.absorb (h.shift a.size)).ids, (f.retired (h.shift a.size)).survivor x = x) ∧
      ∀ pair ∈ f.retired (h.shift a.size), (f.retired (h.shift a.size)).survivor pair.1 = pair.2 := by
  have permuted := f.absorb_ids_perm (h.shift a.size)
  refine Forwarding.respects (permuted.nodup_iff.mpr (left.picture.nodup_shift right.picture)) ?_
  exact f.retired_target (h.shift a.size)

theorem AtRest.merge (left : a.AtRest strict f) (right : b.AtRest strict h) :
    ∃ m, a.merge b = .ok m ∧ m.AtRest strict (f.merged a.size h) := by
  obtain ⟨fixed, respects⟩ := left.respects right
  have target := f.retired_target (h.shift a.size)
  obtain ⟨m, merged, root, -, picture⟩ : ∃ m, a.merge b = .ok m ∧ m.root = a.root ∧ m.size = a.size + b.size ∧
      m.Pictures (f.merged a.size h) := by
    have first := left.picture
    have second := right.picture
    cases left.rooted with
    | intro isRoot _ _ =>
      cases right.rooted with
      | intro isRoot' _ _ =>
        obtain ⟨absorbed, retired⟩ := Forest.absorb_roots isRoot (isRoot'.rebind _)
        rw [Forest.merged, Forest.shift, Forest.shift, absorbed, retired]
        exact merge_pictures first second
  have shifted := Forest.relabels_shift a.size
  have rebound := Forest.relabels_rebind (f.retired (h.shift a.size)).survivor
  refine ⟨m, merged, picture, root ▸ rebound.rooted (left.rooted.absorb (shifted.rooted right.rooted)), ?_, ?_⟩
  · have both : (f.absorb (h.shift a.size)).OwnedUpTo (f.retired (h.shift a.size)).survivor none := by
      refine (left.owned.upTo _).absorb ((right.owned.shift a.size).upTo _) ?_
      intro pair member
      rw [respects pair member, fixed _ (target pair member)]
    exact both.settle fixed rfl
  · refine rebound.distinct ?_
    exact left.distinct.absorb (fun sound => sound) Scope.joins_sound (left.rooted.sound .global)
      ((shifted.rooted right.rooted).sound _) (shifted.distinct right.distinct)

-- Withdrawing a file leaves no scope without a parent.
theorem AtRest.withdrawing (rest : g.AtRest strict f) (file : String) :
    ∃ g', g.withdrawing file = ([], { graph := g' }) ∧ g'.root = g.root ∧ g'.AtRest strict (f.withdrawBelow file) := by
  obtain ⟨picture, rooted, owned, distinct⟩ := rest
  cases rooted with
  | intro isRoot tidy nested =>
    have within := nested.imp fun _ _ fits => fits.1.within
    obtain ⟨g', withdrawn, root, -, picture'⟩ := withdrawing_pictures picture within file
    rw [isRoot.sound.withdrawRoot_eq isRoot.global] at picture'
    refine ⟨g', withdrawn, root, picture', ?_, ⟨owned.1.withdraw file, owned.2.1.withdraw file, trivial⟩,
      ⟨nofun, ?_, trivial⟩⟩
    · rw [root]
      refine .intro (isRoot.withdraw file) (fun exact => (tidy exact).withdraw file) ?_
      exact nested.withdraw (Scope.trims_tidy strict) file
    · exact distinct.2.1.withdraw (fun fits => fits.1.sound) file nested

theorem AtRest.removeFile (rest : g.AtRest strict f) (file : String) :
    ∃ g' f', g.removeFileAndRehome file = .ok g' ∧ g'.AtRest strict f' := by
  obtain ⟨g', withdrawn, -, rest'⟩ := rest.withdrawing file
  refine ⟨g', _, ?_, rest'⟩
  rw [removeFileAndRehome, rehoming, withdrawn]
  rfl

-- Every graph that is reached is at rest; in a strict history the units have distinct positions.
theorem Reached.atRest {admits : Element → Prop} (reached : g.Reached admits)
    (exact : ∀ e, strict → admits e → e.Distinct) : ∃ f, g.AtRest strict f := by
  induction reached with
  | empty => exact ⟨_, atRest_empty strict⟩
  | surveyed allowed done => exact atRest_surveyed (fun distinct => exact _ distinct allowed) done
  | merged _ _ done left right =>
    obtain ⟨f, left⟩ := left
    obtain ⟨h, right⟩ := right
    obtain ⟨m, merged, rest⟩ := left.merge right
    rw [merged] at done
    cases done
    exact ⟨_, rest⟩
  | withdrawn _ done before =>
    obtain ⟨f, before⟩ := before
    obtain ⟨g', f', withdrawn, rest⟩ := before.removeFile _
    rw [withdrawn] at done
    cases done
    exact ⟨f', rest⟩

end Graph

end ScopeAtlas
