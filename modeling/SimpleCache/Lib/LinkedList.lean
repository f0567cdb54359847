import Mathlib.Data.List.AList
import Mathlib.Data.List.TakeWhile

/-!
# Lib.LinkedList — a linked list with stable addresses, and a map that indexes it

`LinkedList` is a doubly linked list seen from outside: its elements from front to back, each with the address
that pointers to it hold.  An address is never given out twice.  `Indexes key l m` says that the map `m` holds,
for every key, the address of the one element of `l` with that key.  Each list operation keeps it together with
the matching change of the map.
-/

namespace SimpleCache.Lib

universe u v

/-- The elements from front to back with their addresses; `next` is the next address. -/
structure LinkedList (α : Type u) where
  elems : List (ℕ × α)
  next : ℕ
  nodup : (elems.map Prod.fst).Nodup
  fresh : ∀ e ∈ elems, e.1 < next

namespace LinkedList

variable {α : Type u}

def empty : LinkedList α := ⟨[], 0, List.nodup_nil, by simp⟩

def len (l : LinkedList α) : ℕ := l.elems.length

/-- The value at an address. -/
def get? (l : LinkedList α) (p : ℕ) : Option α := (l.elems.find? fun e => e.1 = p).map Prod.snd

/-- The address of the last element. -/
def back (l : LinkedList α) : Option ℕ := l.elems.getLast?.map Prod.fst

/-- The address of the element before `p`, towards the front. -/
def prev (l : LinkedList α) (p : ℕ) : Option ℕ :=
  if (l.get? p).isSome then (l.elems.takeWhile fun e => e.1 ≠ p).getLast?.map Prod.fst else none

theorem nodup_filter (l : LinkedList α) (f : ℕ × α → Bool) : ((l.elems.filter f).map Prod.fst).Nodup :=
  List.Nodup.sublist (List.filter_sublist.map _) l.nodup

/-- Removes the element at `p`, if it is in the list. -/
def remove (l : LinkedList α) (p : ℕ) : LinkedList α where
  elems := l.elems.filter fun e => e.1 ≠ p
  next := l.next
  nodup := l.nodup_filter _
  fresh e he := l.fresh e (List.mem_of_mem_filter he)

/-- A new element at the front, and its address. -/
def pushFront (l : LinkedList α) (v : α) : ℕ × LinkedList α where
  fst := l.next
  snd := {
    elems := (l.next, v) :: l.elems
    next := l.next + 1
    nodup := by
      rw [List.map_cons, List.nodup_cons]
      refine ⟨fun h => ?_, l.nodup⟩
      obtain ⟨e, he, hp⟩ := List.mem_map.mp h
      exact absurd hp (ne_of_lt (l.fresh e he))
    fresh := by
      intro e he
      rcases List.mem_cons.mp he with rfl | he
      · exact Nat.lt_succ_self _
      · exact Nat.lt_succ_of_lt (l.fresh e he) }

theorem mem_of_get? {l : LinkedList α} {p : ℕ} {v : α} (h : l.get? p = some v) : (p, v) ∈ l.elems := by
  unfold get? at h
  obtain ⟨e, he, rfl⟩ := Option.map_eq_some_iff.mp h
  have hp : e.1 = p := by simpa using List.find?_some he
  rw [← hp]
  exact List.mem_of_find?_eq_some he

/-- Moves the element at `p` to the front, if it is in the list. -/
def moveToFront (l : LinkedList α) (p : ℕ) : LinkedList α :=
  match h : l.get? p with
  | none => l
  | some v =>
    { elems := (p, v) :: l.elems.filter fun e => e.1 ≠ p
      next := l.next
      nodup := by
        rw [List.map_cons, List.nodup_cons]
        exact ⟨by simp, l.nodup_filter _⟩
      fresh := by
        intro e he
        rcases List.mem_cons.mp he with rfl | he
        · exact l.fresh _ (mem_of_get? h)
        · exact l.fresh e (List.mem_of_mem_filter he) }

theorem map_fst_set (es : List (ℕ × α)) (p : ℕ) (v : α) :
    (es.map fun e => if e.1 = p then (p, v) else e).map Prod.fst = es.map Prod.fst := by
  rw [List.map_map]
  refine List.map_congr_left fun e _ => ?_
  simp only [Function.comp_apply]
  split_ifs with h
  · exact h.symm
  · rfl

/-- Writes through the pointer `p`. -/
def set (l : LinkedList α) (p : ℕ) (v : α) : LinkedList α where
  elems := l.elems.map fun e => if e.1 = p then (p, v) else e
  next := l.next
  nodup := by rw [map_fst_set]; exact l.nodup
  fresh := by
    intro e he
    obtain ⟨e', he', rfl⟩ := List.mem_map.mp he
    split_ifs with h
    · exact h ▸ l.fresh e' he'
    · exact l.fresh e' he'

/-! ### Membership -/

/-- An address has one value. -/
theorem eq_of_mem {l : LinkedList α} {p : ℕ} {v w : α} (h : (p, v) ∈ l.elems) (h' : (p, w) ∈ l.elems) :
    v = w :=
  (Prod.ext_iff.mp (List.inj_on_of_nodup_map l.nodup h h' rfl)).2

theorem get?_eq_some {l : LinkedList α} {p : ℕ} {v : α} : l.get? p = some v ↔ (p, v) ∈ l.elems := by
  refine ⟨mem_of_get?, fun h => ?_⟩
  cases hg : l.get? p with
  | some w => rw [eq_of_mem h (mem_of_get? hg)]
  | none =>
    unfold get? at hg
    rw [Option.map_eq_none_iff, List.find?_eq_none] at hg
    exact absurd (decide_eq_true rfl) (hg (p, v) h)

theorem mem_remove {l : LinkedList α} {p : ℕ} {e : ℕ × α} :
    e ∈ (l.remove p).elems ↔ e ∈ l.elems ∧ e.1 ≠ p := by
  simp [remove]

theorem mem_pushFront {l : LinkedList α} {v : α} {e : ℕ × α} :
    e ∈ (l.pushFront v).2.elems ↔ e = (l.next, v) ∨ e ∈ l.elems := by
  simp [pushFront]

theorem elems_moveToFront {l : LinkedList α} {p : ℕ} {v : α} (h : (p, v) ∈ l.elems) :
    (l.moveToFront p).elems = (p, v) :: l.elems.filter fun e => e.1 ≠ p := by
  unfold moveToFront
  split
  · next hn => rw [get?_eq_some.mpr h] at hn; simp at hn
  · next w hw => rw [eq_of_mem h (mem_of_get? hw)]

theorem mem_moveToFront {l : LinkedList α} {p : ℕ} {e : ℕ × α} :
    e ∈ (l.moveToFront p).elems ↔ e ∈ l.elems := by
  cases hg : l.get? p with
  | none =>
    unfold moveToFront
    split
    · exact Iff.rfl
    · next w hw => rw [hg] at hw; simp at hw
  | some v =>
    have hv := mem_of_get? hg
    rw [elems_moveToFront hv, List.mem_cons, List.mem_filter]
    constructor
    · rintro (rfl | h)
      · exact hv
      · exact h.1
    · intro h
      by_cases hp : e.1 = p
      · subst hp
        exact Or.inl (Prod.ext rfl (eq_of_mem h hv))
      · exact Or.inr ⟨h, by simpa using hp⟩

/-- Moving an element reorders the list. -/
theorem moveToFront_perm (l : LinkedList α) (p : ℕ) : (l.moveToFront p).elems.Perm l.elems := by
  have hnd : ∀ l' : LinkedList α, l'.elems.Nodup := fun l' => List.Nodup.of_map _ l'.nodup
  exact (List.perm_ext_iff_of_nodup (hnd _) (hnd _)).mpr fun e => mem_moveToFront

/-- A list is one of its elements and the rest. -/
theorem perm_remove {l : LinkedList α} {p : ℕ} {v : α} (h : (p, v) ∈ l.elems) :
    ((p, v) :: (l.remove p).elems).Perm l.elems := by
  have hperm := l.moveToFront_perm p
  rwa [elems_moveToFront h] at hperm

theorem len_remove {l : LinkedList α} {p : ℕ} {v : α} (h : (p, v) ∈ l.elems) :
    (l.remove p).len + 1 = l.len := (perm_remove h).length_eq

theorem mem_set {l : LinkedList α} {p q : ℕ} {v w : α} :
    (q, w) ∈ (l.set p v).elems ↔
      ((q, w) ∈ l.elems ∧ q ≠ p) ∨ (q = p ∧ w = v ∧ ∃ u, (p, u) ∈ l.elems) := by
  unfold set
  rw [List.mem_map]
  constructor
  · rintro ⟨⟨q', w'⟩, he, h⟩
    simp only at h
    split_ifs at h with hp
    · subst hp
      rw [Prod.mk.injEq] at h
      exact Or.inr ⟨h.1.symm, h.2.symm, w', he⟩
    · rw [Prod.mk.injEq] at h
      rw [← h.1, ← h.2]
      exact Or.inl ⟨he, hp⟩
  · rintro (⟨h, hp⟩ | ⟨rfl, rfl, u, hu⟩)
    · exact ⟨(q, w), h, by simp [hp]⟩
    · exact ⟨(q, u), hu, by simp⟩

/-- The element at `p` moved to the front and overwritten. -/
theorem elems_moveToFront_set {l : LinkedList α} {p : ℕ} {v w : α} (h : (p, v) ∈ l.elems) :
    ((l.moveToFront p).set p w).elems = (p, w) :: l.elems.filter fun e => e.1 ≠ p := by
  show (l.moveToFront p).elems.map (fun e => if e.1 = p then (p, w) else e) = _
  rw [elems_moveToFront h, List.map_cons, if_pos rfl]
  -- no other element has the address
  refine congrArg _ ((List.map_congr_left fun e he => ?_).trans (List.map_id _))
  have hne : e.1 ≠ p := by simpa using (List.mem_filter.mp he).2
  rw [if_neg hne]
  rfl

theorem filter_set (l : LinkedList α) (p : ℕ) (w : α) :
    ((l.set p w).elems.filter fun e => e.1 ≠ p) = l.elems.filter fun e => e.1 ≠ p := by
  show (l.elems.map fun e => if e.1 = p then (p, w) else e).filter (fun e => e.1 ≠ p) = _
  induction l.elems with
  | nil => rfl
  | cons e es ih =>
    by_cases he : e.1 = p
    · rw [List.map_cons, if_pos he, List.filter_cons_of_neg (by simp), List.filter_cons_of_neg (by simpa using he), ih]
    · rw [List.map_cons, if_neg he, List.filter_cons_of_pos (by simpa using he),
        List.filter_cons_of_pos (by simpa using he), ih]

/-- The element at `p` overwritten and moved to the front. -/
theorem elems_set_moveToFront {l : LinkedList α} {p : ℕ} {v w : α} (h : (p, v) ∈ l.elems) :
    ((l.set p w).moveToFront p).elems = (p, w) :: l.elems.filter fun e => e.1 ≠ p := by
  rw [elems_moveToFront (mem_set.mpr (Or.inr ⟨rfl, rfl, v, h⟩)), filter_set]

theorem back_mem {l : LinkedList α} {p : ℕ} (h : l.back = some p) : ∃ v, (p, v) ∈ l.elems := by
  unfold back at h
  obtain ⟨e, he, rfl⟩ := Option.map_eq_some_iff.mp h
  exact ⟨e.2, List.mem_of_getLast? he⟩

theorem prev_mem {l : LinkedList α} {p q : ℕ} (h : l.prev p = some q) : q ≠ p ∧ ∃ v, (q, v) ∈ l.elems := by
  unfold prev at h
  split_ifs at h
  obtain ⟨e, he, rfl⟩ := Option.map_eq_some_iff.mp h
  have hmem := List.mem_of_getLast? he
  exact ⟨by simpa using List.mem_takeWhile_imp hmem, e.2, List.takeWhile_subset _ hmem⟩

/-! ### The list around one element -/

section Split

variable {l : LinkedList α} {p : ℕ} {v : α} {A B : List (ℕ × α)}

theorem ne_of_split (h : l.elems = A ++ (p, v) :: B) : ∀ e ∈ A ++ B, e.1 ≠ p := by
  intro e he hp
  have hnd := l.nodup
  rw [h, List.map_append, List.map_cons, List.nodup_middle, List.nodup_cons, ← List.map_append] at hnd
  exact hnd.1 (List.mem_map.mpr ⟨e, he, hp⟩)

theorem takeWhile_split (h : l.elems = A ++ (p, v) :: B) : (l.elems.takeWhile fun e => e.1 ≠ p) = A := by
  rw [h, List.takeWhile_append_of_pos, List.takeWhile_cons_of_neg (by simp), List.append_nil]
  intro e he
  simpa using ne_of_split h e (List.mem_append_left B he)

theorem prev_split (h : l.elems = A ++ (p, v) :: B) : l.prev p = A.getLast?.map Prod.fst := by
  have hg : l.get? p = some v := get?_eq_some.mpr (by rw [h]; simp)
  unfold prev
  rw [if_pos (by rw [hg]; rfl), takeWhile_split h]

theorem remove_split (h : l.elems = A ++ (p, v) :: B) : (l.remove p).elems = A ++ B := by
  show l.elems.filter (fun e => e.1 ≠ p) = A ++ B
  have hall : (A ++ B).filter (fun e => e.1 ≠ p) = A ++ B :=
    List.filter_eq_self.mpr fun e he => by simpa using ne_of_split h e he
  rw [h, List.filter_append, List.filter_cons_of_neg (by simp), ← List.filter_append, hall]

/-- Removing the last element. -/
theorem remove_back (h : l.back = some p) : (l.remove p).elems = l.elems.dropLast := by
  unfold back at h
  obtain ⟨e, he, rfl⟩ := Option.map_eq_some_iff.mp h
  obtain ⟨A, hA⟩ := List.getLast?_eq_some_iff.mp he
  rw [remove_split (v := e.2) (A := A) (B := []) hA, hA, List.append_nil, List.dropLast_concat]

end Split

end LinkedList

/-! ### Indexes -/

/-- A map from keys to addresses. -/
abbrev Index (κ : Type v) := AList fun _ : κ => ℕ

section Indexes

variable {α : Type u} {κ : Type v} [DecidableEq κ] {key : α → κ} {l : LinkedList α} {m : Index κ}

variable (key l m) in
/-- The map points to the elements of the list, each under its key. -/
def Indexes : Prop := ∀ k p, m.lookup k = some p ↔ ∃ v, (p, v) ∈ l.elems ∧ key v = k

namespace Indexes

theorem empty : Indexes key LinkedList.empty (∅ : Index κ) := by
  intro k p
  simp [LinkedList.empty]

/-- No two elements have one key. -/
theorem unique (h : Indexes key l m) {e e' : ℕ × α} (he : e ∈ l.elems) (he' : e' ∈ l.elems)
    (hk : key e.2 = key e'.2) : e = e' := by
  obtain ⟨p, v⟩ := e
  obtain ⟨q, w⟩ := e'
  have h1 := (h (key v) p).mpr ⟨v, he, rfl⟩
  have h2 := (h (key v) q).mpr ⟨w, he', hk.symm⟩
  rw [h1] at h2
  obtain rfl := Option.some.inj h2
  rw [LinkedList.eq_of_mem he he']

theorem lookup_eq_none (h : Indexes key l m) {k : κ} :
    m.lookup k = none ↔ ∀ e ∈ l.elems, key e.2 ≠ k := by
  constructor
  · intro hn e he hk
    have := (h k e.1).mpr ⟨e.2, he, hk⟩
    rw [hn] at this
    simp at this
  · intro hall
    cases hm : m.lookup k with
    | none => rfl
    | some p =>
      obtain ⟨v, hv, hk⟩ := (h k p).mp hm
      exact absurd hk (hall _ hv)

theorem pushFront (h : Indexes key l m) {v : α} (hk : m.lookup (key v) = none) :
    Indexes key (l.pushFront v).2 (m.insert (key v) (l.pushFront v).1) := by
  intro k p
  have hfst : (l.pushFront v).1 = l.next := rfl
  rw [hfst]
  by_cases hkv : k = key v
  · subst hkv
    rw [AList.lookup_insert]
    constructor
    · intro hp
      exact ⟨v, LinkedList.mem_pushFront.mpr (Or.inl (by rw [Option.some.inj hp])), rfl⟩
    · rintro ⟨w, hw, hkw⟩
      rcases LinkedList.mem_pushFront.mp hw with he | he
      · rw [(Prod.mk.inj he).1]
      · exact absurd hkw (h.lookup_eq_none.mp hk _ he)
  · rw [AList.lookup_insert_ne hkv, h k p]
    constructor
    · rintro ⟨w, hw, hkw⟩
      exact ⟨w, LinkedList.mem_pushFront.mpr (Or.inr hw), hkw⟩
    · rintro ⟨w, hw, hkw⟩
      rcases LinkedList.mem_pushFront.mp hw with he | he
      · rw [(Prod.mk.inj he).2] at hkw
        exact absurd hkw.symm hkv
      · exact ⟨w, he, hkw⟩

theorem remove (h : Indexes key l m) {p : ℕ} {v : α} (hv : (p, v) ∈ l.elems) :
    Indexes key (l.remove p) (m.erase (key v)) := by
  intro k q
  by_cases hkv : k = key v
  · subst hkv
    rw [AList.lookup_erase]
    refine iff_of_false (by simp) ?_
    rintro ⟨w, hw, hkw⟩
    obtain ⟨hw, hq⟩ := LinkedList.mem_remove.mp hw
    exact hq (congrArg Prod.fst (h.unique hw hv hkw))
  · rw [AList.lookup_erase_ne hkv, h k q]
    refine exists_congr fun w => and_congr_left fun hkw => ?_
    rw [LinkedList.mem_remove]
    refine ⟨fun hw => ⟨hw, ?_⟩, And.left⟩
    rintro rfl
    rw [LinkedList.eq_of_mem hw hv] at hkw
    exact hkv hkw.symm

/-- Leaving out an address is leaving out its key. -/
theorem filter_ne (h : Indexes key l m) {p : ℕ} {v : α} (hv : (p, v) ∈ l.elems) :
    (l.elems.filter fun e => e.1 ≠ p) = l.elems.filter fun e => key e.2 ≠ key v := by
  refine List.filter_congr fun e he => ?_
  have hiff : e.1 ≠ p ↔ key e.2 ≠ key v := by
    refine not_congr ⟨fun hp => ?_, fun hk => congrArg Prod.fst (h.unique he hv hk)⟩
    obtain ⟨q, w⟩ := e
    simp only at hp ⊢
    subst hp
    rw [LinkedList.eq_of_mem he hv]
  simp [hiff]

theorem moveToFront (h : Indexes key l m) (p : ℕ) : Indexes key (l.moveToFront p) m := by
  intro k q
  rw [h k q]
  exact exists_congr fun w => by rw [LinkedList.mem_moveToFront]

theorem set (h : Indexes key l m) {p : ℕ} {v w : α} (hv : (p, v) ∈ l.elems) (hk : key w = key v) :
    Indexes key (l.set p w) m := by
  intro k q
  rw [h k q]
  constructor
  · rintro ⟨u, hu, hku⟩
    by_cases hq : q = p
    · subst hq
      rw [LinkedList.eq_of_mem hu hv] at hku
      exact ⟨w, LinkedList.mem_set.mpr (Or.inr ⟨rfl, rfl, v, hv⟩), hk.trans hku⟩
    · exact ⟨u, LinkedList.mem_set.mpr (Or.inl ⟨hu, hq⟩), hku⟩
  · rintro ⟨u, hu, hku⟩
    rcases LinkedList.mem_set.mp hu with ⟨hu, -⟩ | ⟨rfl, rfl, -⟩
    · exact ⟨u, hu, hku⟩
    · exact ⟨v, hv, hk.symm.trans hku⟩

/-- The keys of the list are those of the map, each once. -/
theorem keys_perm (h : Indexes key l m) : (l.elems.map fun e => key e.2).Perm m.keys := by
  have hnd : (l.elems.map fun e => key e.2).Nodup :=
    (List.nodup_map_iff_inj_on (List.Nodup.of_map _ l.nodup)).mpr fun e he e' he' hk => h.unique he he' hk
  rw [List.perm_ext_iff_of_nodup hnd m.keys_nodup]
  intro k
  rw [List.mem_map, ← AList.mem_keys, ← AList.lookup_isSome, Option.isSome_iff_exists]
  constructor
  · rintro ⟨e, he, hk⟩
    exact ⟨e.1, (h k e.1).mpr ⟨e.2, he, hk⟩⟩
  · rintro ⟨p, hp⟩
    obtain ⟨v, hv, hk⟩ := (h k p).mp hp
    exact ⟨(p, v), hv, hk⟩

end Indexes

/-- The element that a map entry points to. -/
def LinkedList.deref (l : LinkedList α) (m : Index κ) (k : κ) : Option α := (m.lookup k).bind l.get?

theorem Indexes.deref_eq_some (h : Indexes key l m) {k : κ} {v : α} :
    l.deref m k = some v ↔ (∃ p, (p, v) ∈ l.elems) ∧ key v = k := by
  unfold LinkedList.deref
  rw [Option.bind_eq_some_iff]
  constructor
  · rintro ⟨p, hp, hv⟩
    have hmem := LinkedList.mem_of_get? hv
    obtain ⟨w, hw, hk⟩ := (h k p).mp hp
    exact ⟨⟨p, hmem⟩, by rw [LinkedList.eq_of_mem hmem hw, hk]⟩
  · rintro ⟨⟨p, hv⟩, hk⟩
    exact ⟨p, (h k p).mpr ⟨v, hv, hk⟩, LinkedList.get?_eq_some.mpr hv⟩

end Indexes

end SimpleCache.Lib
