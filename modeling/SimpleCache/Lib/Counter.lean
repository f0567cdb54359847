import Mathlib.Algebra.BigOperators.Group.List.Basic
import Mathlib.Algebra.Order.Ring.Nat
import Mathlib.Data.List.AList
import Mathlib.Data.List.Induction

/-!
# Lib.Counter — maps that count and maps that group

`bump` is `m[k]++` on a map of counts and `groupBy` the loop `m[f(x)] = append(m[f(x)], x)`.  A sum over the values of a
map changes with one entry by the value that is replaced (`sumOver_insert`), so that the counts add up to the number of
bumps and a count over the groups to the count over the list.
-/

namespace SimpleCache.Lib

variable {κ β : Type*} [DecidableEq κ]

/-- The sum of `g` over the values of a map. -/
def sumOver (g : β → ℕ) (m : AList fun _ : κ => β) : ℕ := (m.entries.map fun e => g e.2).sum

theorem sum_kerase (g : β → ℕ) (k : κ) (l : List (Sigma fun _ : κ => β)) :
    ((l.kerase k).map fun e => g e.2).sum + ((l.dlookup k).map g).getD 0 = (l.map fun e => g e.2).sum := by
  induction l with
  | nil => rfl
  | cons e l ih =>
    obtain ⟨k', v⟩ := e
    by_cases hk : k = k'
    · subst hk
      have hfirst : List.kerase k (⟨k, v⟩ :: l) = l := List.kerase_cons_eq rfl
      rw [hfirst, List.dlookup_cons_eq, List.map_cons, List.sum_cons, Option.map_some, Option.getD_some]
      exact Nat.add_comm _ _
    · rw [List.kerase_cons_ne hk, List.dlookup_cons_ne _ _ hk, List.map_cons, List.sum_cons, List.map_cons,
        List.sum_cons]
      omega

theorem sumOver_insert (g : β → ℕ) (k : κ) (v : β) (m : AList fun _ : κ => β) :
    sumOver g (m.insert k v) + ((m.lookup k).map g).getD 0 = sumOver g m + g v := by
  have hsum := sum_kerase g k m.entries
  have hinsert : sumOver g (m.insert k v) = g v + ((m.entries.kerase k).map fun e => g e.2).sum := List.sum_cons
  rw [hinsert]
  unfold sumOver AList.lookup
  omega

/-! ### Counting -/

/-- A map of counts; a missing key counts zero. -/
abbrev Counter (κ : Type*) := AList fun _ : κ => ℕ

namespace Counter

/-- `m[k]`. -/
def get (m : Counter κ) (k : κ) : ℕ := (m.lookup k).getD 0

/-- `m[k]++`. -/
def bump (m : Counter κ) (k : κ) : Counter κ := m.insert k (m.get k + 1)

/-- The sum of the counts. -/
def total (m : Counter κ) : ℕ := sumOver id m

@[simp] theorem get_empty (k : κ) : get (∅ : Counter κ) k = 0 := rfl

omit [DecidableEq κ] in
@[simp] theorem total_empty : total (∅ : Counter κ) = 0 := rfl

theorem get_bump (m : Counter κ) (k k' : κ) : (m.bump k).get k' = m.get k' + if k = k' then 1 else 0 := by
  unfold get bump
  by_cases hk : k = k'
  · subst hk
    simp [get]
  · rw [AList.lookup_insert_ne (Ne.symm hk), if_neg hk, Nat.add_zero]

@[simp] theorem total_bump (m : Counter κ) (k : κ) : (m.bump k).total = m.total + 1 := by
  have := sumOver_insert id k (m.get k + 1) m
  simp only [Option.map_id, id] at this
  unfold total bump get at *
  omega

end Counter

/-! ### Grouping -/

section Groups

variable {α : Type*} (f : α → κ)

/-- `for _, x := range l { m[f(x)] = append(m[f(x)], x) }`. -/
def groupBy (l : List α) : AList fun _ : κ => List α :=
  l.foldl (fun m x => m.insert (f x) ((m.lookup (f x)).getD [] ++ [x])) ∅

theorem groupBy_concat (l : List α) (x : α) :
    groupBy f (l ++ [x]) = (groupBy f l).insert (f x) (((groupBy f l).lookup (f x)).getD [] ++ [x]) :=
  List.foldl_concat ..

theorem getD_groupBy (l : List α) (k : κ) : ((groupBy f l).lookup k).getD [] = l.filter fun x => f x = k := by
  induction l using List.reverseRecOn with
  | nil => rfl
  | append_singleton l x ih =>
    rw [groupBy_concat, List.filter_append]
    by_cases hk : f x = k
    · subst hk
      rw [AList.lookup_insert, Option.getD_some, ih]
      simp
    · rw [AList.lookup_insert_ne (Ne.symm hk), ih]
      simp [hk]

/-- A group is the list of the elements with its key. -/
theorem eq_of_mem_groupBy {l : List α} {e : Sigma fun _ : κ => List α} (h : e ∈ (groupBy f l).entries) :
    e.2 = l.filter fun x => f x = e.1 := by
  rw [← getD_groupBy, AList.mem_lookup_iff.mpr h, Option.getD_some]

/-- A count over the groups is the count over the list. -/
theorem sumOver_groupBy (p : α → Bool) (l : List α) : sumOver (List.countP p) (groupBy f l) = l.countP p := by
  induction l using List.reverseRecOn with
  | nil => rfl
  | append_singleton l x ih =>
    have hsum := sumOver_insert (List.countP p) (f x) (((groupBy f l).lookup (f x)).getD [] ++ [x]) (groupBy f l)
    have hold : (((groupBy f l).lookup (f x)).map (List.countP p)).getD 0 =
        (((groupBy f l).lookup (f x)).getD []).countP p := by
      cases (groupBy f l).lookup (f x) <;> rfl
    rw [hold, ih, List.countP_append] at hsum
    rw [groupBy_concat, List.countP_append]
    omega

end Groups

/-- Counts over the parts of a list by key add up to the count over the list. -/
theorem sum_countP_filter {α : Type*} (f : α → κ) (p : α → Bool) {keys : List κ} (hk : keys.Nodup) {l : List α}
    (hl : ∀ x ∈ l, f x ∈ keys) : (keys.map fun k => (l.filter fun x => f x = k).countP p).sum = l.countP p := by
  induction keys generalizing l with
  | nil =>
    rw [List.eq_nil_iff_forall_not_mem.mpr fun x hx => List.not_mem_nil (hl x hx)]
    rfl
  | cons k keys ih =>
    obtain ⟨hnew, hk⟩ := List.nodup_cons.mp hk
    -- the other keys do not see the elements of `k`
    have hrest : ∀ k' ∈ keys, ((l.filter fun x => f x ≠ k).filter fun x => f x = k') = l.filter fun x => f x = k' := by
      intro k' hk'
      rw [List.filter_filter]
      refine List.filter_congr fun x _ => ?_
      have : f x = k' → f x ≠ k := by
        rintro rfl heq
        exact hnew (heq ▸ hk')
      simpa using this
    have hmem : ∀ x ∈ l.filter (fun x => f x ≠ k), f x ∈ keys := by
      intro x hx
      obtain ⟨hx, hne⟩ := List.mem_filter.mp hx
      exact (List.mem_cons.mp (hl x hx)).resolve_left (by simpa using hne)
    have hsplit := List.countP_eq_countP_filter_add l p fun x => decide (f x = k)
    rw [List.map_cons, List.sum_cons, hsplit, ← List.map_congr_left fun k' hk' => by rw [← hrest k' hk'], ih hk hmem]
    simp

end SimpleCache.Lib
