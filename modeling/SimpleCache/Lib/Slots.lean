import Mathlib.Algebra.BigOperators.Group.List.Basic
import Mathlib.Algebra.Order.Ring.Nat
import Mathlib.Data.List.Perm.Basic

/-!
# Lib.Slots — one entry of a list replaced

The members of a system are the entries of a list and a step of one member replaces its entry.  A sum over the members
and the list of what they hold change by what that one entry contributes.
-/

namespace SimpleCache.Lib.Slots

variable {α β : Type*} {l : List α} {i : ℕ} {x y : α}

theorem exists_split (h : l[i]? = some x) : ∃ A B, l = A ++ x :: B ∧ ∀ y, l.set i y = A ++ y :: B := by
  obtain ⟨hi, rfl⟩ := List.getElem?_eq_some_iff.mp h
  refine ⟨l.take i, l.drop (i + 1), ?_, fun y => ?_⟩
  · rw [← List.drop_eq_getElem_cons hi, List.take_append_drop]
  · exact List.set_eq_take_append_cons_drop.trans (if_pos hi)

theorem sum_set (f : α → ℕ) (y : α) (h : l[i]? = some x) :
    ((l.set i y).map f).sum + f x = (l.map f).sum + f y := by
  obtain ⟨A, B, hl, hset⟩ := exists_split h
  rw [hset, hl]
  simp only [List.map_append, List.map_cons, List.sum_append, List.sum_cons]
  omega

theorem perm_set [DecidableEq β] (f : α → Option β) (y : α) (h : l[i]? = some x) :
    ((f x).toList ++ (l.set i y).filterMap f).Perm ((f y).toList ++ l.filterMap f) := by
  obtain ⟨A, B, hl, hset⟩ := exists_split h
  have hcons : ∀ (z : α) (l : List α), (z :: l).filterMap f = (f z).toList ++ l.filterMap f := by
    intro z l
    cases hz : f z <;> simp [hz]
  rw [hset, hl, List.filterMap_append, List.filterMap_append, hcons, hcons, List.perm_iff_count]
  intro b
  simp only [List.count_append]
  omega

/-- An entry that was not written was there before. -/
theorem mem_of_mem_set {z : α} (hy : y ≠ z) (h : z ∈ l.set i y) : z ∈ l :=
  (List.mem_or_eq_of_mem_set h).resolve_right (Ne.symm hy)

end SimpleCache.Lib.Slots
