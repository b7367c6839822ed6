import Mathlib
import ScopeAtlas.Graph.Withdraw

namespace ScopeAtlas

namespace Graph

variable {g : Graph} {id x : ScopeId} {s : Scope}

theorem lt_size_of_get? (found : g.get? id = some s) : id < g.size := by
  unfold get? at found
  by_contra outside
  have absent : g.slots[id]? = none := Array.getElem?_eq_none (Nat.le_of_not_lt outside)
  simp [absent] at found

theorem get?_eq_none_of_size_le (outside : g.size ≤ id) : g.get? id = none := by
  unfold get?
  have absent : g.slots[id]? = none := Array.getElem?_eq_none outside
  simp [absent]

theorem contains_iff : g.contains id = true ↔ ∃ s, g.get? id = some s := by
  simp [contains, Option.isSome_iff_exists]

theorem contains_of_get? (found : g.get? id = some s) : g.contains id = true := contains_iff.mpr ⟨s, found⟩

@[simp] theorem size_setSlot (slot : Option Scope) : (g.setSlot id slot).size = g.size := by
  simp [size, setSlot]

@[simp] theorem root_setSlot (slot : Option Scope) : (g.setSlot id slot).root = g.root := rfl

@[simp] theorem conflicts_setSlot (slot : Option Scope) : (g.setSlot id slot).conflicts = g.conflicts := rfl

theorem get?_setSlot_of_lt (inside : id < g.size) (slot : Option Scope) :
    (g.setSlot id slot).get? x = if x = id then slot else g.get? x := by
  unfold get? setSlot size at *
  by_cases same : x = id
  · subst same
    simp [inside]
  · have other : id ≠ x := fun equal => same equal.symm
    simp [other, same]

-- An emptied slot answers like one that never was.
theorem get?_setSlot_none : (g.setSlot id none).get? x = if x = id then none else g.get? x := by
  by_cases inside : id < g.size
  · exact get?_setSlot_of_lt inside none
  · have absent := g.get?_eq_none_of_size_le (Nat.le_of_not_lt inside)
    have same : g.setSlot id none = g := by
      unfold setSlot
      rw [Array.setIfInBounds_eq_of_size_le (Nat.le_of_not_lt inside)]
    rw [same]
    split
    · rename_i equal
      rw [equal, absent]
    · rfl

@[simp] theorem size_modify (change : Scope → Scope) : (g.modify id change).size = g.size := by
  unfold modify
  split <;> simp

@[simp] theorem root_modify (change : Scope → Scope) : (g.modify id change).root = g.root := by
  unfold modify
  split <;> rfl

@[simp] theorem conflicts_modify (change : Scope → Scope) : (g.modify id change).conflicts = g.conflicts := by
  unfold modify
  split <;> rfl

theorem get?_modify (change : Scope → Scope) :
    (g.modify id change).get? x = if x = id then (g.get? id).map change else g.get? x := by
  unfold modify
  split
  · rename_i s found
    rw [get?_setSlot_of_lt (lt_size_of_get? found), found, Option.map_some]
  · rename_i absent
    split
    · rename_i equal
      rw [equal, absent, Option.map_none]
    · rfl

theorem get?_insert (s : Scope) : (g.insert s).2.get? x = if x = g.size then some s else g.get? x := by
  unfold insert get? size
  by_cases same : x = g.slots.size
  · subst same
    simp
  · simp only [Array.getElem?_push, same, if_false]

@[simp] theorem size_insert (s : Scope) : (g.insert s).2.size = g.size + 1 := by
  simp [insert, size]

@[simp] theorem root_insert (s : Scope) : (g.insert s).2.root = g.root := rfl

@[simp] theorem size_rebind (rename : ScopeId → ScopeId) : (g.rebind rename).size = g.size := by
  simp [rebind, size]

@[simp] theorem root_rebind (rename : ScopeId → ScopeId) : (g.rebind rename).root = g.root := rfl

theorem get?_rebind (rename : ScopeId → ScopeId) :
    (g.rebind rename).get? x = (g.get? x).map (·.rebind rename) := by
  unfold rebind get?
  rw [Array.getElem?_map]
  rcases g.slots[x]? with _ | _ | s <;> rfl

@[simp] theorem root_absorb (other : Graph) : (g.absorb other).root = g.root := rfl

@[simp] theorem size_absorb (other : Graph) : (g.absorb other).size = g.size + other.size := by
  simp [absorb, size, rebind]

theorem get?_absorb_left (other : Graph) (inside : x < g.size) : (g.absorb other).get? x = g.get? x := by
  unfold absorb get? size at *
  rw [Array.getElem?_append_left inside]

theorem get?_absorb_right (other : Graph) :
    (g.absorb other).get? (x + g.size) = (other.get? x).map (·.rebind (· + g.size)) := by
  rw [← get?_rebind]
  unfold absorb get? size
  rw [Array.getElem?_append_right (Nat.le_add_left _ _), Nat.add_sub_cancel]

theorem get?_detach_root (found : g.get? id = some s)
    (free : s.parent = none) : (g.detach id).get? x = g.get? x := by
  have parent : g.parent? id = none := by simp [parent?, found, free]
  simp only [detach, parent, get?_modify]
  split
  · rename_i equal
    subst equal
    rw [found, Option.map_some, ← free]
  · rfl

@[simp] theorem size_detach : (g.detach id).size = g.size := by
  unfold detach forgetChild
  split <;> simp

@[simp] theorem root_detach : (g.detach id).root = g.root := by
  unfold detach forgetChild
  split <;> simp

theorem get?_detach_child {parent : ScopeId} (found : g.get? id = some s) (owned : s.parent = some parent)
    (apart : parent ≠ id) :
    (g.detach id).get? x =
      if x = id then some { s with parent := none }
      else if x = parent then
        (g.get? parent).map fun p => { p with children := p.children.filter (· != id) }
      else g.get? x := by
  have up : g.parent? id = some parent := by simp [parent?, found, owned]
  simp only [detach, up, forgetChild, get?_modify, if_neg apart.symm, found, Option.map_some]

end Graph

end ScopeAtlas
