import ScopeAtlas.Proofs.Views

namespace ScopeAtlas

theorem mergeSort_eq_of_perm {α : Type} {cmp : α → α → Ordering} [Std.TransCmp cmp] [Std.LawfulEqCmp cmp] {l l' : List α}
    (same : l.Perm l') :
    l.mergeSort (fun a b => (cmp a b).isLE) = l'.mergeSort (fun a b => (cmp a b).isLE) := by
  have trans : ∀ a b c, (cmp a b).isLE = true → (cmp b c).isLE = true → (cmp a c).isLE = true :=
    fun _ _ _ => Std.TransCmp.isLE_trans
  have total : ∀ a b, ((cmp a b).isLE || (cmp b a).isLE) = true := by
    intro a b
    have swapped : cmp b a = (cmp a b).swap := Std.OrientedCmp.eq_swap
    rw [swapped]
    cases cmp a b <;> rfl
  refine List.Perm.eq_of_pairwise ?_ (List.pairwise_mergeSort trans total l) (List.pairwise_mergeSort trans total l') ?_
  · intro a b _ _ below above
    have swapped : cmp b a = (cmp a b).swap := Std.OrientedCmp.eq_swap
    rw [swapped] at above
    have same : cmp a b = .eq := by
      cases order : cmp a b <;> simp_all
    exact Std.LawfulEqCmp.eq_of_compare same
  · exact (List.mergeSort_perm l _).trans (same.trans (List.mergeSort_perm l' _).symm)

namespace Snapshot

def textsCode (texts : List String) : List (Option String) := texts.map some ++ [none]

mutual

def code : Snapshot → List (Option String)
  | ⟨signature, fullName, access, locations, parentTypes, declarations, calls, children⟩ =>
    some signature :: some fullName :: some access :: (textsCode locations ++ (textsCode parentTypes ++
      (textsCode declarations ++ (textsCode calls ++ codeAll children))))

def codeAll : List Snapshot → List (Option String)
  | [] => [none]
  | s :: rest => code s ++ codeAll rest

end

def compareCodes : List (Option String) → List (Option String) → Ordering := List.compareLex Ord.compare

theorem compareCodes_texts (texts texts' : List String) (rest rest' : List (Option String)) :
    compareCodes (textsCode texts ++ rest) (textsCode texts' ++ rest') =
      (List.compareLex Ord.compare texts texts').then (compareCodes rest rest') := by
  unfold compareCodes textsCode
  induction texts generalizing texts' with
  | nil =>
    cases texts' with
    | nil => simp [List.compareLex_cons_cons]; rfl
    | cons text' texts' => rfl
  | cons text texts ih =>
    cases texts' with
    | nil => rfl
    | cons text' texts' =>
      simp only [List.map_cons, List.cons_append, List.compareLex_cons_cons, ih, Ordering.then_assoc]
      rfl

mutual

theorem compareCodes_code : ∀ (a b : Snapshot) (rest rest' : List (Option String)),
    compareCodes (code a ++ rest) (code b ++ rest') = (compare a b).then (compareCodes rest rest')
  | ⟨signature, fullName, access, locations, parentTypes, declarations, calls, children⟩,
    ⟨signature', fullName', access', locations', parentTypes', declarations', calls', children'⟩, rest, rest' => by
    have below := compareCodes_codeAll children children' rest rest'
    have first : ∀ (t t' : String) (l l' : List (Option String)),
        compareCodes (some t :: l) (some t' :: l') = (Ord.compare t t').then (compareCodes l l') := by
      intro t t' l l'
      exact List.compareLex_cons_cons
    simp only [code, compare, List.cons_append, List.append_assoc, first, compareCodes_texts, below, Ordering.then_assoc]

theorem compareCodes_codeAll : ∀ (l l' : List Snapshot) (rest rest' : List (Option String)),
    compareCodes (codeAll l ++ rest) (codeAll l' ++ rest') = (compareAll l l').then (compareCodes rest rest')
  | [], [], rest, rest' => rfl
  | [], b :: l', rest, rest' => by
    cases b
    rfl
  | a :: l, [], rest, rest' => by
    cases a
    rfl
  | a :: l, b :: l', rest, rest' => by
    have head := compareCodes_code a b (codeAll l ++ rest) (codeAll l' ++ rest')
    have tail := compareCodes_codeAll l l' rest rest'
    simp only [codeAll, compareAll, List.append_assoc, head, tail, Ordering.then_assoc]

end

theorem compare_eq (a b : Snapshot) : compare a b = compareCodes (code a) (code b) := by
  have whole := compareCodes_code a b [] []
  rw [List.append_nil, List.append_nil] at whole
  rw [whole]
  cases compare a b <;> rfl

mutual

theorem eq_of_compare : ∀ a b : Snapshot, compare a b = .eq → a = b
  | ⟨signature, fullName, access, locations, parentTypes, declarations, calls, children⟩,
    ⟨signature', fullName', access', locations', parentTypes', declarations', calls', children'⟩, same => by
    simp only [compare, Ordering.then_eq_eq] at same
    obtain ⟨h₁, h₂, h₃, h₄, h₅, h₆, h₇, h₈⟩ := same
    have lists : ∀ l l' : List String, List.compareLex Ord.compare l l' = .eq → l = l' :=
      fun _ _ => Std.LawfulEqCmp.eq_of_compare
    rw [Std.LawfulEqOrd.eq_of_compare h₁, Std.LawfulEqOrd.eq_of_compare h₂, Std.LawfulEqOrd.eq_of_compare h₃,
      lists _ _ h₄, lists _ _ h₅, lists _ _ h₆, lists _ _ h₇, eq_of_compareAll _ _ h₈]

theorem eq_of_compareAll : ∀ l l' : List Snapshot, compareAll l l' = .eq → l = l'
  | [], [], _ => rfl
  | [], b :: l', same => by cases same
  | a :: l, [], same => by cases same
  | a :: l, b :: l', same => by
    rw [compareAll, Ordering.then_eq_eq] at same
    rw [eq_of_compare a b same.1, eq_of_compareAll l l' same.2]

end

instance : Std.TransCmp compareCodes := inferInstanceAs (Std.TransCmp (List.compareLex Ord.compare))

instance : Std.TransCmp compare where
  eq_swap := by
    intro a b
    rw [compare_eq, compare_eq]
    exact Std.OrientedCmp.eq_swap
  isLE_trans := by
    intro a b c
    rw [compare_eq, compare_eq, compare_eq]
    exact Std.TransCmp.isLE_trans

instance : Std.LawfulEqCmp compare where
  compare_self := Std.ReflCmp.compare_self
  eq_of_compare := eq_of_compare _ _

theorem sort_eq_of_perm {l l' : List Snapshot} (same : l.Perm l') : sort l = sort l' :=
  @mergeSort_eq_of_perm _ compare _ _ _ _ same

theorem sortTexts_eq_of_perm {l l' : List String} (same : l.Perm l') : sortTexts l = sortTexts l' :=
  @mergeSort_eq_of_perm _ Ord.compare _ _ _ _ same

end Snapshot

end ScopeAtlas
