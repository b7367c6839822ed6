import ScopeAtlas.CallGraph
import Mathlib.Algebra.BigOperators.Group.List.Basic
import Mathlib.Data.List.Nodup
import Mathlib.Data.UInt

namespace ScopeAtlas

structure Link where
  source : ScopeId
  target : ScopeId
  kind : EdgeKind
deriving DecidableEq

variable {Count : Type}

namespace Edge

variable {a b e : Edge Count} {l : Link} {known added : List (Edge Count)}

def link (e : Edge Count) : Link := ⟨e.source, e.target, e.kind⟩

theorem sameLink_iff : a.sameLink b = true ↔ a.link = b.link := by
  simp [sameLink, link, and_assoc]

theorem eq_of_link (linked : a.link = b.link) (counted : a.count = b.count) : a = b := by
  cases a
  cases b
  cases linked
  cases counted
  rfl

def total [AddMonoid Count] (edges : List (Edge Count)) (l : Link) : Count :=
  ((edges.filter (·.link = l)).map (·.count)).sum

theorem any_sameLink : known.any (·.sameLink e) = true ↔ e.link ∈ known.map link := by
  simp only [List.any_eq_true, sameLink_iff, List.mem_map]

theorem any_filter (test : Link → Bool) (passes : test e.link = true) :
    (known.filter (test ·.link)).any (·.sameLink e) = known.any (·.sameLink e) := by
  rw [Bool.eq_iff_iff, List.any_eq_true, List.any_eq_true]
  constructor
  · rintro ⟨a, member, same⟩
    exact ⟨a, (List.mem_filter.mp member).1, same⟩
  · rintro ⟨a, member, same⟩
    refine ⟨a, List.mem_filter.mpr ⟨member, ?_⟩, same⟩
    rwa [sameLink_iff.mp same]

section Adding

variable [Add Count]

def addTo (e : Edge Count) (known : List (Edge Count)) : List (Edge Count) :=
  if known.any (·.sameLink e) then e.foldInto known else known ++ [e]

-- Every link once, in the order of its first edge.
def tally (added : List (Edge Count)) : List (Edge Count) := added.foldl (fun known e => e.addTo known) []

theorem links_foldInto : (e.foldInto known).map link = known.map link := by
  induction known with
  | nil => rfl
  | cons first rest ih =>
    rw [foldInto]
    split
    · rfl
    · rw [List.map_cons, List.map_cons, ih]

theorem filter_foldInto (test : Link → Bool) : (e.foldInto known).filter (test ·.link) =
    if test e.link then e.foldInto (known.filter (test ·.link)) else known.filter (test ·.link) := by
  induction known with
  | nil => simp [foldInto]
  | cons first rest ih =>
    rw [foldInto]
    by_cases same : first.sameLink e = true
    · have linked : first.link = e.link := sameLink_iff.mp same
      have joined : ({ first with count := first.count + e.count } : Edge Count).link = e.link := linked
      rw [if_pos same, List.filter_cons, List.filter_cons, joined, linked]
      split
      · rw [foldInto, if_pos same]
      · rfl
    · rw [if_neg same, List.filter_cons, ih, List.filter_cons]
      cases test first.link <;> cases test e.link <;> simp [foldInto, same]

-- A view of a list takes an edge as the list does, if it shows the edge at all.
theorem filter_addTo (test : Link → Bool) : (e.addTo known).filter (test ·.link) =
    if test e.link then e.addTo (known.filter (test ·.link)) else known.filter (test ·.link) := by
  by_cases passes : test e.link = true
  · rw [if_pos passes, addTo, addTo, any_filter test passes]
    split
    · rw [filter_foldInto, if_pos passes]
    · simp [List.filter_append, passes]
  · rw [if_neg passes, addTo]
    split
    · rw [filter_foldInto, if_neg passes]
    · simp [List.filter_append, passes]

theorem mem_links_addTo : l ∈ (e.addTo known).map link ↔ l ∈ known.map link ∨ l = e.link := by
  unfold addTo
  split
  · rename_i found
    rw [links_foldInto]
    refine ⟨Or.inl, fun either => either.elim id ?_⟩
    rintro rfl
    exact any_sameLink.mp found
  · rw [List.map_append, List.mem_append, List.map_singleton, List.mem_singleton]

theorem nodup_addTo (once : (known.map link).Nodup) : ((e.addTo known).map link).Nodup := by
  unfold addTo
  split
  · rwa [links_foldInto]
  · rename_i new
    rw [any_sameLink] at new
    rw [List.map_append, List.map_singleton, ← List.concat_eq_append]
    exact once.concat new

end Adding

section Totals

variable [AddCommMonoid Count]

theorem total_cons : total (a :: known) l = (if a.link = l then a.count else 0) + total known l := by
  unfold total
  rw [List.filter_cons]
  by_cases same : a.link = l <;> simp [same]

theorem total_concat : total (known ++ [e]) l = total known l + if e.link = l then e.count else 0 := by
  induction known with
  | nil => rw [List.nil_append, total_cons, add_comm]
  | cons first rest ih => rw [List.cons_append, total_cons, ih, total_cons, add_assoc]

theorem total_foldInto (found : known.any (·.sameLink e) = true) :
    total (e.foldInto known) l = total known l + if e.link = l then e.count else 0 := by
  induction known with
  | nil => cases found
  | cons first rest ih =>
    rw [foldInto]
    split
    · rename_i same
      have linked : first.link = e.link := sameLink_iff.mp same
      have joined : ({ first with count := first.count + e.count } : Edge Count).link = e.link := linked
      rw [total_cons, total_cons, joined, linked]
      by_cases asked : e.link = l
      · simp only [if_pos asked]
        exact add_right_comm _ _ _
      · simp only [if_neg asked, add_zero]
    · rename_i other
      rw [List.any_cons, Bool.or_eq_true] at found
      rw [total_cons, total_cons, ih (found.resolve_left other), add_assoc]

theorem total_addTo : total (e.addTo known) l = total known l + if e.link = l then e.count else 0 := by
  unfold addTo
  split
  · rename_i found
    exact total_foldInto found
  · exact total_concat

end Totals

section Tallying

variable [Add Count]

-- Each of these goes by induction on what is added, from any list that is there before.

theorem mem_links_foldl :
    l ∈ (added.foldl (fun known e => e.addTo known) known).map link ↔ l ∈ known.map link ∨ l ∈ added.map link := by
  induction added generalizing known with
  | nil => simp
  | cons e added ih => rw [List.foldl_cons, ih, mem_links_addTo, List.map_cons, List.mem_cons, or_assoc]

theorem nodup_foldl (once : (known.map link).Nodup) :
    ((added.foldl (fun known e => e.addTo known) known).map link).Nodup := by
  induction added generalizing known with
  | nil => exact once
  | cons e added ih => exact ih (nodup_addTo once)

theorem mem_links_tally : l ∈ (tally added).map link ↔ l ∈ added.map link := by
  rw [tally, mem_links_foldl]
  simp

theorem nodup_tally (added : List (Edge Count)) : ((tally added).map link).Nodup := nodup_foldl List.nodup_nil

theorem count_tally (test : Link → Bool) : (((tally added).filter (test ·.link)).map link).count l =
    if test l = true ∧ l ∈ added.map link then 1 else 0 := by
  have once : (((tally added).filter (test ·.link)).map link).Nodup :=
    (nodup_tally added).sublist (List.filter_sublist.map link)
  have shown : l ∈ ((tally added).filter (test ·.link)).map link ↔ test l = true ∧ l ∈ added.map link := by
    rw [← @mem_links_tally _ l added _, List.mem_map, List.mem_map]
    constructor
    · rintro ⟨e, member, rfl⟩
      obtain ⟨listed, passes⟩ := List.mem_filter.mp member
      exact ⟨passes, e, listed, rfl⟩
    · rintro ⟨passes, e, listed, rfl⟩
      exact ⟨e, List.mem_filter.mpr ⟨listed, passes⟩, rfl⟩
  rw [once.count]
  simp only [shown]

end Tallying

section Counting

variable [AddCommMonoid Count]

theorem total_foldl :
    total (added.foldl (fun known e => e.addTo known) known) l = total known l + total added l := by
  induction added generalizing known with
  | nil => exact (add_zero _).symm
  | cons e added ih => rw [List.foldl_cons, ih, total_addTo, total_cons, add_assoc]

theorem total_tally : total (tally added) l = total added l := by
  rw [tally, total_foldl]
  exact zero_add _

-- Where no link stands twice, an edge alone makes up the total of its link.
theorem total_of_mem (once : (known.map link).Nodup) (member : e ∈ known) : total known e.link = e.count := by
  induction known with
  | nil => cases member
  | cons first rest ih =>
    rw [List.map_cons, List.nodup_cons] at once
    obtain ⟨new, once⟩ := once
    rw [total_cons]
    rcases List.mem_cons.mp member with rfl | later
    · have none : rest.filter (·.link = e.link) = [] := by
        rw [List.filter_eq_nil_iff]
        intro a listed same
        exact new (List.mem_map.mpr ⟨a, listed, of_decide_eq_true same⟩)
      rw [if_pos rfl, total, none]
      exact add_zero _
    · have other : first.link ≠ e.link := by
        intro same
        rw [same] at new
        exact new (List.mem_map_of_mem later)
      rw [if_neg other, ih once later, zero_add]

theorem mem_tally : e ∈ tally added ↔ e.link ∈ added.map link ∧ e.count = total added e.link := by
  rw [← mem_links_tally, ← total_tally]
  constructor
  · intro member
    exact ⟨List.mem_map_of_mem member, (total_of_mem (nodup_tally added) member).symm⟩
  · rintro ⟨linked, counted⟩
    obtain ⟨known, member, same⟩ := List.mem_map.mp linked
    rw [← same, total_of_mem (nodup_tally added) member] at counted
    rwa [eq_of_link same.symm counted]

end Counting

section Words

-- How often a link is used by all edges together, however great that is.
def uses (edges : List (Edge UInt64)) (l : Link) : Nat := ((edges.filter (·.link = l)).map (·.count.toNat)).sum

theorem toNat_sum (counts : List UInt64) : counts.sum.toNat = (counts.map UInt64.toNat).sum % UInt64.size := by
  induction counts with
  | nil => rfl
  | cons first rest ih =>
    rw [List.sum_cons, UInt64.toNat_add, ih, List.map_cons, List.sum_cons]
    exact Nat.add_mod_mod _ _ _

-- A total in words is exact if it fits a word.
theorem toNat_total {edges : List (Edge UInt64)} (fits : uses edges l < UInt64.size) :
    (total edges l).toNat = uses edges l := by
  rw [total, toNat_sum, List.map_map]
  exact Nat.mod_eq_of_lt fits

end Words

section Recounting

variable {Count' : Type} {f : Count → Count'}

def recount (f : Count → Count') (e : Edge Count) : Edge Count' :=
  { source := e.source, target := e.target, kind := e.kind, count := f e.count }

theorem recount_foldInto [Add Count] [Add Count'] (adds : ∀ a b, f (a + b) = f a + f b) :
    (e.foldInto known).map (·.recount f) = (e.recount f).foldInto (known.map (·.recount f)) := by
  induction known with
  | nil => rfl
  | cons first rest ih =>
    have same : (first.recount f).sameLink (e.recount f) = first.sameLink e := rfl
    rw [foldInto, List.map_cons, foldInto, same]
    split
    · rw [List.map_cons, recount, adds]
      rfl
    · rw [List.map_cons, ih]

end Recounting

end Edge

namespace EdgeIndex

theorem edgesAt_cons (key x : ScopeId) (edges : List (Edge Count)) (rest : EdgeIndex Count) :
    EdgeIndex.edgesAt ((key, edges) :: rest) x = if x = key then edges else rest.edgesAt x := by
  unfold edgesAt
  rw [List.lookup_cons]
  by_cases here : x = key
  · simp [here]
  · simp [here, beq_false_of_ne here]

theorem edgesAt_alter (index : EdgeIndex Count) (id x : ScopeId) (change : List (Edge Count) → List (Edge Count)) :
    (index.alter id change).edgesAt x = if x = id then change (index.edgesAt x) else index.edgesAt x := by
  induction index with
  | nil => rw [alter, edgesAt_cons]; rfl
  | cons entry rest ih =>
    obtain ⟨key, edges⟩ := entry
    rw [alter]
    split
    · rename_i here
      subst here
      rw [edgesAt_cons, edgesAt_cons]
      split <;> rfl
    · rename_i other
      rw [edgesAt_cons, edgesAt_cons, ih]
      by_cases found : x = key
      · simp [found, other]
      · simp [found]

def Views (near : Link → ScopeId) (known : List (Edge Count)) (index : EdgeIndex Count) : Prop :=
  ∀ id, index.edgesAt id = known.filter (near ·.link == id)

variable {near : Link → ScopeId} {known : List (Edge Count)} {index : EdgeIndex Count}

-- The end of an edge has all that decides about it.
theorem Views.any_sameLink (views : index.Views near known) (e : Edge Count) :
    (index.edgesAt (near e.link)).any (·.sameLink e) = known.any (·.sameLink e) := by
  rw [views]
  exact Edge.any_filter (near · == near e.link) (beq_self_eq_true _)

theorem Views.alter [Add Count] (views : index.Views near known) (e : Edge Count) :
    (index.alter (near e.link) (if known.any (·.sameLink e) then e.foldInto else (· ++ [e]))).Views near
      (e.addTo known) := by
  intro id
  rw [edgesAt_alter, Edge.filter_addTo (near · == id), views id]
  by_cases here : id = near e.link
  · subst here
    rw [if_pos rfl, if_pos (beq_self_eq_true _), Edge.addTo, Edge.any_filter (near · == near e.link) (beq_self_eq_true _)]
    split <;> rfl
  · rw [if_neg here, if_neg fun same => here (beq_iff_eq.mp same).symm]

section Recounting

variable {Count' : Type} {f : Count → Count'}

def recount (f : Count → Count') (index : EdgeIndex Count) : EdgeIndex Count' :=
  index.map fun entry => (entry.1, entry.2.map (·.recount f))

theorem edgesAt_recount (index : EdgeIndex Count) (id : ScopeId) :
    (index.recount f).edgesAt id = (index.edgesAt id).map (·.recount f) := by
  induction index with
  | nil => rfl
  | cons entry rest ih =>
    rw [recount, List.map_cons, edgesAt_cons, edgesAt_cons]
    split
    · rfl
    · exact ih

theorem recount_alter {change : List (Edge Count) → List (Edge Count)} {change' : List (Edge Count') → List (Edge Count')}
    (changes : ∀ edges, (change edges).map (·.recount f) = change' (edges.map (·.recount f))) (index : EdgeIndex Count)
    (id : ScopeId) : EdgeIndex.recount f (index.alter id change) = (index.recount f).alter id change' := by
  induction index with
  | nil =>
    rw [alter, recount, List.map_singleton, changes]
    rfl
  | cons entry rest ih =>
    have first : recount f (entry :: rest) = (entry.1, entry.2.map (·.recount f)) :: recount f rest := rfl
    rw [alter, first, alter]
    split
    · rw [recount, List.map_cons, changes]
      rfl
    · rw [← ih]
      rfl

end Recounting

end EdgeIndex

namespace CallGraph

variable {g : CallGraph Count} {known : List (Edge Count)} {kind : EdgeKind}

-- Both indexes are views of one list of edges.
structure Shows (g : CallGraph Count) (known : List (Edge Count)) : Prop where
  outgoing : g.outgoing.Views Link.source known
  incoming : g.incoming.Views Link.target known

variable [Add Count]

theorem Shows.addEdge (shows : g.Shows known) (e : Edge Count) : (g.addEdge e).Shows (e.addTo known) := by
  unfold CallGraph.addEdge
  -- the source decides for both ends as the whole list does, and so would the target
  have decided : (g.edgesFrom e.source).any (·.sameLink e) = known.any (·.sameLink e) := shows.outgoing.any_sameLink e
  rw [decided]
  exact ⟨shows.outgoing.alter e, shows.incoming.alter e⟩

theorem Shows.foldl_addEdge (shows : g.Shows known) (added : List (Edge Count)) :
    (added.foldl CallGraph.addEdge g).Shows (added.foldl (fun known e => e.addTo known) known) := by
  induction added generalizing g known with
  | nil => exact shows
  | cons e added ih => exact ih (shows.addEdge e)

theorem ofEdges_shows (added : List (Edge Count)) : (ofEdges added).Shows (Edge.tally added) :=
  Shows.foldl_addEdge ⟨fun _ => rfl, fun _ => rfl⟩ added

variable {added : List (Edge Count)} {e : Edge Count} {id a b : ScopeId}

theorem mem_edgesFrom : e ∈ (ofEdges added).edgesFrom id ↔ e ∈ Edge.tally added ∧ e.source = id := by
  rw [edgesFrom, (ofEdges_shows added).outgoing, List.mem_filter, beq_iff_eq]
  rfl

theorem mem_edgesTo : e ∈ (ofEdges added).edgesTo id ↔ e ∈ Edge.tally added ∧ e.target = id := by
  rw [edgesTo, (ofEdges_shows added).incoming, List.mem_filter, beq_iff_eq]
  rfl

theorem mem_targets : b ∈ (ofEdges added).targets kind a ↔ ⟨a, b, kind⟩ ∈ added.map Edge.link := by
  unfold targets
  rw [← Edge.mem_links_tally, List.mem_map, List.mem_map]
  simp only [List.mem_filter, mem_edgesFrom, beq_iff_eq]
  constructor
  · rintro ⟨e, ⟨⟨listed, rfl⟩, rfl⟩, rfl⟩
    exact ⟨e, listed, rfl⟩
  · rintro ⟨e, listed, linked⟩
    cases linked
    exact ⟨e, ⟨⟨listed, rfl⟩, rfl⟩, rfl⟩

theorem mem_sources : a ∈ (ofEdges added).sources kind b ↔ ⟨a, b, kind⟩ ∈ added.map Edge.link := by
  unfold sources
  rw [← Edge.mem_links_tally, List.mem_map, List.mem_map]
  simp only [List.mem_filter, mem_edgesTo, beq_iff_eq]
  constructor
  · rintro ⟨e, ⟨⟨listed, rfl⟩, rfl⟩, rfl⟩
    exact ⟨e, listed, rfl⟩
  · rintro ⟨e, listed, linked⟩
    cases linked
    exact ⟨e, ⟨⟨listed, rfl⟩, rfl⟩, rfl⟩

section Recounting

variable {Count' : Type} {f : Count → Count'}

def recount (f : Count → Count') (g : CallGraph Count) : CallGraph Count' where
  outgoing := g.outgoing.recount f
  incoming := g.incoming.recount f

variable [Add Count']

-- A form that keeps sums may be given to the counts before or after the edges are added.
theorem recount_addEdge (adds : ∀ a b, f (a + b) = f a + f b) (g : CallGraph Count) (e : Edge Count) :
    (g.addEdge e).recount f = (g.recount f).addEdge (e.recount f) := by
  have known : ((g.recount f).edgesFrom e.source).any (·.sameLink (e.recount f)) =
      (g.edgesFrom e.source).any (·.sameLink e) := by
    rw [edgesFrom, recount, EdgeIndex.edgesAt_recount, List.any_map]
    rfl
  have changes (edges : List (Edge Count)) :
      ((if (g.edgesFrom e.source).any (·.sameLink e) then e.foldInto else (· ++ [e])) edges).map (·.recount f) =
        (if (g.edgesFrom e.source).any (·.sameLink e) then (e.recount f).foldInto else (· ++ [e.recount f]))
          (edges.map (·.recount f)) := by
    split
    · exact Edge.recount_foldInto adds
    · exact List.map_append
  have outgoing := EdgeIndex.recount_alter changes g.outgoing e.source
  have incoming := EdgeIndex.recount_alter changes g.incoming e.target
  unfold addEdge
  rw [recount, outgoing, incoming]
  change _ = ({ outgoing := _, incoming := _ } : CallGraph Count')
  rw [show (e.recount f).source = e.source from rfl, known]
  rfl

theorem recount_ofEdges (adds : ∀ a b, f (a + b) = f a + f b) (added : List (Edge Count)) :
    (ofEdges added).recount f = ofEdges (added.map (·.recount f)) := by
  have all (g : CallGraph Count) :
      (added.foldl addEdge g).recount f = (added.map (·.recount f)).foldl addEdge (g.recount f) := by
    induction added generalizing g with
    | nil => rfl
    | cons e rest ih => rw [List.foldl_cons, ih, recount_addEdge adds, List.map_cons, List.foldl_cons]
  exact all {}

end Recounting

-- Whatever edges are added in whatever order: both indexes hold every link that was added, once and at its own end only,
-- with the counts of all its edges together. Counts are words, and their sum is exact if it fits one.
theorem indexes_agree (added : List (Edge UInt64)) :
    (∀ e, e ∈ (ofEdges added).edgesFrom e.source ↔ e ∈ (ofEdges added).edgesTo e.target) ∧
      (∀ id l, (((ofEdges added).edgesFrom id).map Edge.link).count l =
        if l.source = id ∧ l ∈ added.map Edge.link then 1 else 0) ∧
      (∀ id l, (((ofEdges added).edgesTo id).map Edge.link).count l =
        if l.target = id ∧ l ∈ added.map Edge.link then 1 else 0) ∧
      (∀ e, e ∈ (ofEdges added).edgesFrom e.source ↔
        e.link ∈ added.map Edge.link ∧ e.count = ((added.filter (·.link = e.link)).map (·.count)).sum) ∧
      (∀ e, e ∈ (ofEdges added).edgesFrom e.source → Edge.uses added e.link < UInt64.size →
        e.count.toNat = Edge.uses added e.link) ∧
      (∀ a b, a ∈ (ofEdges added).callers b ↔ b ∈ (ofEdges added).callees a) ∧
      ∀ a b, a ∈ (ofEdges added).subtypes b ↔ b ∈ (ofEdges added).supertypes a := by
  have shows := ofEdges_shows added
  have counted (e : Edge UInt64) : e ∈ (ofEdges added).edgesFrom e.source ↔
      e.link ∈ added.map Edge.link ∧ e.count = Edge.total added e.link := by
    rw [mem_edgesFrom, and_iff_left rfl]
    exact Edge.mem_tally
  refine ⟨?_, ?_, ?_, counted, ?_, ?_, ?_⟩
  · intro e
    rw [mem_edgesFrom, mem_edgesTo, and_iff_left rfl, and_iff_left rfl]
  · intro id l
    rw [edgesFrom, shows.outgoing, Edge.count_tally (·.source == id)]
    simp only [beq_iff_eq]
  · intro id l
    rw [edgesTo, shows.incoming, Edge.count_tally (·.target == id)]
    simp only [beq_iff_eq]
  · intro e stored fits
    rw [((counted e).mp stored).2, Edge.toNat_total fits]
  · exact fun a b => mem_sources.trans mem_targets.symm
  · exact fun a b => mem_sources.trans mem_targets.symm

end CallGraph

end ScopeAtlas
