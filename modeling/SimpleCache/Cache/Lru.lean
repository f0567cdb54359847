import Mathlib.Algebra.Order.BigOperators.Group.List
import Mathlib.Tactic.Positivity
import SimpleCache.Cache.Errors
import SimpleCache.Lib.LinkedList

/-!
# Cache.Lru — the byte-bounded LRU

The package `lru`: a linked list in recency order, a map that indexes it, a byte count and a cursor of the
expiry sweep.  Clock readings are arguments, in the order in which the source takes them.  The calls of the
removal callback are kept as a log.  `WF` is the representation invariant; every operation keeps it.
-/

namespace SimpleCache.Lru

open SimpleCache.Lib

/-- `Value`: what the cache stores reports its logical length. -/
class Value (V : Type) where
  len : V → ℕ

variable {V : Type}

/-- `entry`; no `expireAt` disables expiration. -/
structure Entry (V : Type) where
  key : GoString
  value : V
  expireAt : Option ℤ
  deriving DecidableEq, Repr

def Entry.expired (now : ℤ) (e : Entry V) : Bool :=
  match e.expireAt with
  | none => false
  | some t => !decide (now < t)

/-- `Cache`. -/
structure Cache (V : Type) where
  bytesTotal : ℤ
  byteNow : ℤ
  /-- Front is most recently used. -/
  ll : LinkedList (Entry V)
  cache : Index GoString
  /-- The calls of `onEvicted`, oldest first. -/
  evicted : List (GoString × V)
  expireCursor : Option ℕ

/-- `New`. -/
def new (bytesTotal : ℤ) : Cache V := ⟨bytesTotal, 0, .empty, ∅, [], none⟩

namespace Cache

variable [Value V]

/-- `RemoveElement`.  The cursor leaves the element before it is unlinked. -/
def removeElement (c : Cache V) (ele : ℕ) : Cache V :=
  match c.ll.get? ele with
  | none => c
  | some kv =>
    { c with
      expireCursor := if c.expireCursor = some ele then c.ll.prev ele else c.expireCursor
      ll := c.ll.remove ele
      cache := c.cache.erase kv.key
      byteNow := c.byteNow - (kv.key.length + Value.len kv.value)
      evicted := c.evicted ++ [(kv.key, kv.value)] }

/-- `Peek`: an expired entry is removed. -/
def peek (c : Cache V) (key : GoString) (now : ℤ) : Option V × Cache V :=
  match c.cache.lookup key with
  | none => (none, c)
  | some e =>
    match c.ll.get? e with
    | none => (none, c)
    | some kv => if kv.expired now then (none, c.removeElement e) else (some kv.value, c)

/-- `Get`: a peek, and a hit refreshes recency. -/
def get (c : Cache V) (key : GoString) (now : ℤ) : Option V × Cache V :=
  match c.peek key now with
  | (none, c) => (none, c)
  | (some v, c) =>
    match c.cache.lookup key with
    | none => (some v, c)
    | some e => (some v, { c with ll := c.ll.moveToFront e })

/-- `RemoveOldest`. -/
def removeOldest (c : Cache V) : Cache V :=
  match c.ll.back with
  | none => c
  | some e => c.removeElement e

/-- `Remove`. -/
def remove (c : Cache V) (key : GoString) : Cache V :=
  match c.cache.lookup key with
  | none => c
  | some e => c.removeElement e

/-- The loop of `PruneExpired`; `fuel` is `limit - checked` and `ticks` are the readings of its condition. -/
def pruneLoop (now deadline : ℤ) (ticks : ℕ → ℤ) : ℕ → ℕ → ℕ → Cache V → ℕ × ℕ × Cache V
  | 0, checked, removed, c => (checked, removed, c)
  | fuel + 1, checked, removed, c =>
    if ticks checked < deadline then
      match c.expireCursor.or c.ll.back with
      | none => (checked, removed, { c with expireCursor := none })
      | some current =>
        let c := { c with expireCursor := c.ll.prev current }
        match c.ll.get? current with
        | none => (checked, removed, c)
        | some item =>
          if item.expired now then
            pruneLoop now deadline ticks fuel (checked + 1) (removed + 1) (c.removeElement current)
          else pruneLoop now deadline ticks fuel (checked + 1) removed c
    else (checked, removed, c)

/-- `PruneExpired`, with the reading that starts its budget and the readings of its loop: the numbers of
entries checked and removed, and the cache. -/
def pruneExpired (c : Cache V) (now : ℤ) (limit : ℤ) (budget : ℤ) (start : ℤ) (ticks : ℕ → ℤ) :
    ℕ × ℕ × Cache V :=
  if limit ≤ 0 ∨ budget ≤ 0 then (0, 0, c)
  else pruneLoop now (start + budget) ticks (min limit c.ll.len).toNat 0 0 c

/-- The loop of `AddUntil`: the oldest entries leave until the capacity is met. -/
def evictLoop : ℕ → Cache V → Cache V
  | 0, c => c
  | fuel + 1, c =>
    if c.bytesTotal ≠ 0 ∧ c.byteNow > c.bytesTotal then evictLoop fuel c.removeOldest else c

/-- The first part of `AddUntil`: the entry is updated or inserted, at the front. -/
def insert (c : Cache V) (key : GoString) (value : V) (expireAt : Option ℤ) : Cache V :=
  match c.cache.lookup key with
  | some e =>
    match c.ll.get? e with
    | none => c
    | some kv =>
      { c with
        ll := (c.ll.moveToFront e).set e { kv with value := value, expireAt := expireAt }
        byteNow := c.byteNow - (Value.len kv.value - Value.len value) }
  | none =>
    let r := c.ll.pushFront ⟨key, value, expireAt⟩
    { c with
      ll := r.2
      cache := c.cache.insert key r.1
      byteNow := c.byteNow + (key.length + Value.len value) }

/-- `AddUntil`.  Every round of its loop removes an entry, so there are at most as many as entries. -/
def addUntil (c : Cache V) (key : GoString) (value : V) (expireAt : Option ℤ) : Cache V :=
  let c := c.insert key value expireAt
  evictLoop c.ll.len c

/-! ### The representation invariant -/

def size (e : Entry V) : ℤ := e.key.length + Value.len e.value

/-- The bytes of a list of entries. -/
def bytes (es : List (ℕ × Entry V)) : ℤ := (es.map fun e => size e.2).sum

/-- The index and the list hold the same entries, the byte count is theirs, and the cursor is in the list. -/
structure WF (c : Cache V) : Prop where
  indexed : Indexes Entry.key c.ll c.cache
  bytes_eq : c.byteNow = bytes c.ll.elems
  cursor : ∀ p, c.expireCursor = some p → ∃ e, (p, e) ∈ c.ll.elems

/-- The stored entry of a key, expired or not. -/
def find? (c : Cache V) (key : GoString) : Option (Entry V) := c.ll.deref c.cache key

theorem WF.new (bytesTotal : ℤ) : (Lru.new (V := V) bytesTotal).WF :=
  ⟨.empty, rfl, by simp [Lru.new]⟩

theorem find?_eq_some {c : Cache V} (h : c.WF) {key : GoString} {e : Entry V} :
    c.find? key = some e ↔ (∃ p, (p, e) ∈ c.ll.elems) ∧ e.key = key :=
  h.indexed.deref_eq_some

theorem bytes_nonneg (es : List (ℕ × Entry V)) : 0 ≤ bytes es := by
  refine List.sum_nonneg fun x hx => ?_
  obtain ⟨e, -, rfl⟩ := List.mem_map.mp hx
  unfold size
  positivity

/-- Taking one element out takes its bytes. -/
theorem bytes_filter {l : LinkedList (Entry V)} {p : ℕ} {e : Entry V} (h : (p, e) ∈ l.elems) :
    bytes (l.elems.filter fun x => x.1 ≠ p) = bytes l.elems - size e := by
  obtain ⟨es, n, hnd, hf⟩ := l
  simp only at h ⊢
  clear hf
  induction es with
  | nil => simp at h
  | cons x es ih =>
    rw [List.map_cons, List.nodup_cons] at hnd
    rcases List.mem_cons.mp h with rfl | h
    · -- the element itself: no other has its address
      have hall : es.filter (fun x => x.1 ≠ p) = es := by
        rw [List.filter_eq_self]
        intro x hx
        have : x.1 ≠ p := fun hp => hnd.1 (List.mem_map.mpr ⟨x, hx, hp⟩)
        simpa using this
      rw [List.filter_cons_of_neg (by simp), hall]
      simp [bytes]
    · have hne : x.1 ≠ p := fun hp => hnd.1 (List.mem_map.mpr ⟨(p, e), h, hp.symm⟩)
      rw [List.filter_cons_of_pos (by simpa using hne)]
      have := ih hnd.2 h
      simp only [bytes, List.map_cons, List.sum_cons] at this ⊢
      omega

/-! ### Removal -/

/-- What the removal of a stored entry leaves. -/
theorem removeElement_eq {c : Cache V} {p : ℕ} {e : Entry V} (h : (p, e) ∈ c.ll.elems) :
    c.removeElement p =
      { c with
        expireCursor := if c.expireCursor = some p then c.ll.prev p else c.expireCursor
        ll := c.ll.remove p
        cache := c.cache.erase e.key
        byteNow := c.byteNow - size e
        evicted := c.evicted ++ [(e.key, e.value)] } := by
  unfold removeElement
  rw [LinkedList.get?_eq_some.mpr h]
  rfl

theorem WF.removeElement {c : Cache V} (h : c.WF) (p : ℕ) : (c.removeElement p).WF := by
  cases hg : c.ll.get? p with
  | none =>
    have : c.removeElement p = c := by unfold Cache.removeElement; rw [hg]
    rwa [this]
  | some e =>
    have he := LinkedList.mem_of_get? hg
    rw [removeElement_eq he]
    refine ⟨h.indexed.remove he, ?_, fun q hq => ?_⟩
    · show c.byteNow - size e = bytes (c.ll.elems.filter fun x => x.1 ≠ p)
      rw [bytes_filter he, h.bytes_eq]
    · simp only at hq
      split_ifs at hq with hc
      · obtain ⟨hne, v, hv⟩ := LinkedList.prev_mem hq
        exact ⟨v, LinkedList.mem_remove.mpr ⟨hv, hne⟩⟩
      · obtain ⟨v, hv⟩ := h.cursor q hq
        refine ⟨v, LinkedList.mem_remove.mpr ⟨hv, ?_⟩⟩
        rintro rfl
        exact hc hq

theorem find?_removeElement {c : Cache V} (h : c.WF) {p : ℕ} {e : Entry V} (he : (p, e) ∈ c.ll.elems)
    (key : GoString) : (c.removeElement p).find? key = if key = e.key then none else c.find? key := by
  have hwf := h.removeElement p
  apply Option.ext
  intro x
  rw [Cache.find?_eq_some hwf, removeElement_eq he]
  simp only [LinkedList.mem_remove]
  split_ifs with hk
  · refine iff_of_false ?_ (by simp)
    rintro ⟨⟨q, hx, hq⟩, hxk⟩
    exact hq (congrArg Prod.fst (h.indexed.unique hx he (hxk.trans hk)))
  · rw [Cache.find?_eq_some h]
    refine and_congr_left fun hxk => exists_congr fun q => ⟨And.left, fun hx => ⟨hx, ?_⟩⟩
    rintro rfl
    rw [LinkedList.eq_of_mem hx he] at hxk
    exact hk hxk.symm

/-- A key is not stored, or its map entry leads to its entry. -/
theorem stored_cases {c : Cache V} (h : c.WF) (key : GoString) :
    (c.cache.lookup key = none ∧ c.find? key = none) ∨
    ∃ p e, c.cache.lookup key = some p ∧ c.ll.get? p = some e ∧ (p, e) ∈ c.ll.elems ∧ e.key = key ∧
      c.find? key = some e := by
  cases hl : c.cache.lookup key with
  | none => exact Or.inl ⟨rfl, by unfold find? LinkedList.deref; rw [hl]; rfl⟩
  | some p =>
    obtain ⟨e, he, hk⟩ := (h.indexed key p).mp hl
    exact Or.inr ⟨p, e, rfl, LinkedList.get?_eq_some.mpr he, he, hk, (find?_eq_some h).mpr ⟨⟨p, he⟩, hk⟩⟩

theorem WF.remove {c : Cache V} (h : c.WF) (key : GoString) : (c.remove key).WF := by
  unfold Cache.remove
  split
  · exact h
  · exact h.removeElement _

theorem find?_remove {c : Cache V} (h : c.WF) (key k : GoString) :
    (c.remove key).find? k = if k = key then none else c.find? k := by
  unfold Cache.remove
  rcases stored_cases h key with ⟨hl, hn⟩ | ⟨p, e, hl, -, he, rfl, -⟩
  · rw [hl]
    split_ifs with hk
    · rw [hk]; exact hn
    · rfl
  · rw [hl]
    exact find?_removeElement h he k

theorem peek_eq {c : Cache V} (h : c.WF) (key : GoString) (now : ℤ) :
    c.peek key now =
      match c.find? key with
      | none => (none, c)
      | some e => if e.expired now then (none, c.remove key) else (some e.value, c) := by
  unfold peek Cache.remove
  rcases stored_cases h key with ⟨hl, hn⟩ | ⟨p, e, hl, hg, -, -, hs⟩
  · rw [hl, hn]
  · rw [hl, hs]
    simp only [hg]

/-! ### What the operations leave stored -/

/-- Nothing is stored after that was not stored before. -/
def Shrinks (c c' : Cache V) : Prop := ∀ key e, c'.find? key = some e → c.find? key = some e

omit [Value V] in
theorem Shrinks.refl (c : Cache V) : c.Shrinks c := fun _ _ h => h

omit [Value V] in
theorem Shrinks.trans {a b c : Cache V} (h : a.Shrinks b) (h' : b.Shrinks c) : a.Shrinks c :=
  fun key e he => h key e (h' key e he)

theorem shrinks_removeElement {c : Cache V} (h : c.WF) (p : ℕ) : c.Shrinks (c.removeElement p) := by
  intro key x hx
  cases hg : c.ll.get? p with
  | none =>
    have : c.removeElement p = c := by unfold Cache.removeElement; rw [hg]
    rwa [this] at hx
  | some e =>
    rw [find?_removeElement h (LinkedList.mem_of_get? hg)] at hx
    split_ifs at hx
    exact hx

theorem shrinks_remove {c : Cache V} (h : c.WF) (key : GoString) : c.Shrinks (c.remove key) := by
  intro k e he
  rw [find?_remove h] at he
  split_ifs at he
  exact he

theorem WF.peek {c : Cache V} (h : c.WF) (key : GoString) (now : ℤ) : (c.peek key now).2.WF := by
  rw [peek_eq h]
  split
  · exact h
  · split_ifs
    · exact h.remove key
    · exact h

theorem shrinks_peek {c : Cache V} (h : c.WF) (key : GoString) (now : ℤ) :
    c.Shrinks (c.peek key now).2 := by
  rw [peek_eq h]
  split
  · exact Shrinks.refl c
  · split_ifs
    · exact shrinks_remove h key
    · exact Shrinks.refl c

/-- Moving an element changes no stored entry. -/
theorem WF.moveToFront {c : Cache V} (h : c.WF) (p : ℕ) : WF { c with ll := c.ll.moveToFront p } where
  indexed := h.indexed.moveToFront p
  bytes_eq := by
    show c.byteNow = bytes (c.ll.moveToFront p).elems
    rw [h.bytes_eq]
    cases hg : c.ll.get? p with
    | none =>
      unfold LinkedList.moveToFront
      split
      · rfl
      · next w hw => rw [hg] at hw; simp at hw
    | some e =>
      have he := LinkedList.mem_of_get? hg
      rw [LinkedList.elems_moveToFront he]
      have := bytes_filter he
      simp only [bytes, List.map_cons, List.sum_cons] at this ⊢
      omega
  cursor q hq := by
    obtain ⟨e, he⟩ := h.cursor q hq
    exact ⟨e, LinkedList.mem_moveToFront.mpr he⟩

theorem find?_moveToFront {c : Cache V} (h : c.WF) (p : ℕ) (key : GoString) :
    find? { c with ll := c.ll.moveToFront p } key = c.find? key := by
  apply Option.ext
  intro e
  rw [find?_eq_some (h.moveToFront p), find?_eq_some h]
  simp only [LinkedList.mem_moveToFront]

/-- A get is a peek up to recency. -/
theorem get_eq {c : Cache V} (h : c.WF) (key : GoString) (now : ℤ) :
    (c.get key now).1 = (c.peek key now).1 ∧ (c.get key now).2.WF ∧
      ∀ k, (c.get key now).2.find? k = (c.peek key now).2.find? k := by
  have hw := h.peek key now
  unfold Cache.get
  generalize c.peek key now = r at hw ⊢
  obtain ⟨_ | v, c'⟩ := r
  · exact ⟨rfl, hw, fun _ => rfl⟩
  · simp only
    cases c'.cache.lookup key with
    | none => exact ⟨rfl, hw, fun _ => rfl⟩
    | some e => exact ⟨rfl, hw.moveToFront e, find?_moveToFront hw e⟩

theorem WF.removeOldest {c : Cache V} (h : c.WF) : c.removeOldest.WF := by
  unfold Cache.removeOldest
  split
  · exact h
  · exact h.removeElement _

theorem shrinks_removeOldest {c : Cache V} (h : c.WF) : c.Shrinks c.removeOldest := by
  unfold Cache.removeOldest
  split
  · exact Shrinks.refl c
  · exact shrinks_removeElement h _

theorem evictLoop_spec (n : ℕ) {c : Cache V} (h : c.WF) : (evictLoop n c).WF ∧ c.Shrinks (evictLoop n c) := by
  induction n generalizing c with
  | zero => exact ⟨h, Shrinks.refl c⟩
  | succ n ih =>
    unfold evictLoop
    split_ifs
    · obtain ⟨h1, h2⟩ := ih h.removeOldest
      exact ⟨h1, (shrinks_removeOldest h).trans h2⟩
    · exact ⟨h, Shrinks.refl c⟩

theorem removeOldest_len {c : Cache V} (h : c.ll.elems ≠ []) :
    c.removeOldest.ll.len < c.ll.len ∧ c.removeOldest.bytesTotal = c.bytesTotal := by
  obtain ⟨x, hx⟩ : ∃ x, c.ll.elems.getLast? = some x := by
    cases hl : c.ll.elems.getLast? with
    | none => exact absurd (List.getLast?_eq_none_iff.mp hl) h
    | some x => exact ⟨x, rfl⟩
  have hmem := List.mem_of_getLast? hx
  unfold removeOldest LinkedList.back
  rw [hx]
  simp only [Option.map_some]
  rw [removeElement_eq (e := x.2) hmem]
  refine ⟨?_, rfl⟩
  unfold LinkedList.len LinkedList.remove
  exact List.length_filter_lt_length_iff_exists.mpr ⟨x, hmem, by simp⟩

/-- The loop ends with the capacity met: it needs no more rounds than there are entries. -/
theorem evictLoop_le (n : ℕ) {c : Cache V} (h : c.WF) (hn : c.ll.len ≤ n) (h0 : 0 < c.bytesTotal) :
    (evictLoop n c).byteNow ≤ c.bytesTotal := by
  induction n generalizing c with
  | zero =>
    have hnil : c.ll.elems = [] := List.length_eq_zero_iff.mp (Nat.le_zero.mp hn)
    have hb := h.bytes_eq
    rw [hnil] at hb
    simp only [evictLoop]
    simp only [bytes, List.map_nil, List.sum_nil] at hb
    omega
  | succ n ih =>
    unfold evictLoop
    split_ifs with hc
    · have hne : c.ll.elems ≠ [] := by
        intro hnil
        have hb := h.bytes_eq
        rw [hnil] at hb
        simp only [bytes, List.map_nil, List.sum_nil] at hb
        omega
      obtain ⟨h1, h2⟩ := removeOldest_len hne
      have := ih h.removeOldest (by omega) (by omega)
      omega
    · omega

/-! ### Insertion -/

theorem WF.insert {c : Cache V} (h : c.WF) (key : GoString) (value : V) (expireAt : Option ℤ) :
    (c.insert key value expireAt).WF := by
  unfold Cache.insert
  rcases stored_cases h key with ⟨hl, -⟩ | ⟨p, e, hl, hg, he, hk, -⟩
  · rw [hl]
    refine ⟨h.indexed.pushFront (v := ⟨key, value, expireAt⟩) hl, ?_, fun q hq => ?_⟩
    · simp only [LinkedList.pushFront, bytes, List.map_cons, List.sum_cons, size]
      have := h.bytes_eq
      simp only [bytes, size] at this
      omega
    · obtain ⟨x, hx⟩ := h.cursor q hq
      exact ⟨x, LinkedList.mem_pushFront.mpr (Or.inr hx)⟩
  · rw [hl]
    simp only [hg]
    have he' := LinkedList.mem_moveToFront (p := p).mpr he
    refine ⟨(h.indexed.moveToFront p).set he' rfl, ?_, fun q hq => ?_⟩
    · simp only [LinkedList.elems_moveToFront_set he]
      have h1 := bytes_filter he
      have h2 := h.bytes_eq
      simp only [bytes, List.map_cons, List.sum_cons, size] at h1 h2 ⊢
      omega
    · obtain ⟨x, hx⟩ := h.cursor q hq
      by_cases hqp : q = p
      · exact ⟨_, LinkedList.mem_set.mpr (Or.inr ⟨hqp, rfl, e, he'⟩)⟩
      · exact ⟨x, LinkedList.mem_set.mpr (Or.inl ⟨LinkedList.mem_moveToFront.mpr hx, hqp⟩)⟩

theorem find?_insert {c : Cache V} (h : c.WF) (key : GoString) (value : V) (expireAt : Option ℤ)
    (k : GoString) : (c.insert key value expireAt).find? k =
      if k = key then some ⟨key, value, expireAt⟩ else c.find? k := by
  have hw := h.insert key value expireAt
  apply Option.ext
  intro x
  rw [find?_eq_some hw]
  unfold Cache.insert
  rcases stored_cases h key with ⟨hl, hn⟩ | ⟨p, e, hl, hg, he, hk, -⟩
  · rw [hl]
    simp only [LinkedList.mem_pushFront]
    split_ifs with hkk
    · subst hkk
      constructor
      · rintro ⟨⟨q, hq | hq⟩, hxk⟩
        · rw [(Prod.mk.inj hq).2]
        · rw [(find?_eq_some h).mpr ⟨⟨q, hq⟩, hxk⟩] at hn; simp at hn
      · intro hx
        rw [Option.some.injEq] at hx
        subst hx
        exact ⟨⟨_, Or.inl rfl⟩, rfl⟩
    · rw [find?_eq_some h]
      refine and_congr_left fun hxk => exists_congr fun q => ⟨?_, Or.inr⟩
      rintro (hq | hq)
      · rw [(Prod.mk.inj hq).2] at hxk; exact absurd hxk.symm hkk
      · exact hq
  · rw [hl]
    simp only [hg, LinkedList.mem_set, LinkedList.mem_moveToFront]
    split_ifs with hkk
    · subst hkk
      constructor
      · rintro ⟨⟨q, ⟨hq, hne⟩ | ⟨rfl, rfl, -⟩⟩, hxk⟩
        · exact absurd (congrArg Prod.fst (h.indexed.unique hq he (hxk.trans hk.symm))) hne
        · rw [hk]
      · intro hx
        rw [Option.some.injEq] at hx
        subst hx
        exact ⟨⟨p, Or.inr ⟨rfl, by rw [hk], e, he⟩⟩, rfl⟩
    · rw [find?_eq_some h]
      constructor
      · rintro ⟨⟨q, ⟨hq, -⟩ | ⟨rfl, rfl, -⟩⟩, hxk⟩
        · exact ⟨⟨q, hq⟩, hxk⟩
        · exact absurd (hxk.symm.trans hk) hkk
      · rintro ⟨⟨q, hq⟩, hxk⟩
        refine ⟨⟨q, Or.inl ⟨hq, ?_⟩⟩, hxk⟩
        rintro rfl
        rw [LinkedList.eq_of_mem hq he] at hxk
        exact hkk (hxk.symm.trans hk)

/-- After an insertion, what is stored is the new entry or was stored before under another key. -/
theorem addUntil_spec {c : Cache V} (h : c.WF) (key : GoString) (value : V) (expireAt : Option ℤ) :
    (c.addUntil key value expireAt).WF ∧
    ∀ k e, (c.addUntil key value expireAt).find? k = some e →
      (k = key ∧ e = ⟨key, value, expireAt⟩) ∨ (k ≠ key ∧ c.find? k = some e) := by
  obtain ⟨h1, h2⟩ := evictLoop_spec (c.insert key value expireAt).ll.len (h.insert key value expireAt)
  refine ⟨h1, fun k e he => ?_⟩
  have hi := h2 k e he
  rw [find?_insert h] at hi
  split_ifs at hi with hk
  · exact Or.inl ⟨hk, (Option.some.inj hi).symm⟩
  · exact Or.inr ⟨hk, hi⟩

/-! ### The sweep -/

theorem WF.setCursor {c : Cache V} (h : c.WF) {q : Option ℕ}
    (hq : ∀ p, q = some p → ∃ e, (p, e) ∈ c.ll.elems) : WF { c with expireCursor := q } :=
  ⟨h.indexed, h.bytes_eq, hq⟩

theorem pruneLoop_spec (now deadline : ℤ) (ticks : ℕ → ℤ) (fuel checked removed : ℕ) {c : Cache V}
    (h : c.WF) : (pruneLoop now deadline ticks fuel checked removed c).2.2.WF ∧
      c.Shrinks (pruneLoop now deadline ticks fuel checked removed c).2.2 := by
  induction fuel generalizing checked removed c with
  | zero => exact ⟨h, Shrinks.refl c⟩
  | succ fuel ih =>
    unfold pruneLoop
    split_ifs
    · cases c.expireCursor.or c.ll.back with
      | none => exact ⟨h.setCursor (by simp), Shrinks.refl c⟩
      | some current =>
        have hw : WF { c with expireCursor := c.ll.prev current } :=
          h.setCursor fun p hp => (LinkedList.prev_mem hp).2
        simp only
        cases c.ll.get? current with
        | none => exact ⟨hw, Shrinks.refl c⟩
        | some item =>
          simp only
          split_ifs
          · obtain ⟨h1, h2⟩ := ih (checked + 1) (removed + 1) (hw.removeElement current)
            exact ⟨h1, (shrinks_removeElement hw current).trans h2⟩
          · exact ih (checked + 1) removed hw
    · exact ⟨h, Shrinks.refl c⟩

theorem pruneExpired_spec {c : Cache V} (h : c.WF) (now limit budget start : ℤ) (ticks : ℕ → ℤ) :
    (c.pruneExpired now limit budget start ticks).2.2.WF ∧
      c.Shrinks (c.pruneExpired now limit budget start ticks).2.2 := by
  unfold pruneExpired
  split_ifs
  · exact ⟨h, Shrinks.refl c⟩
  · exact pruneLoop_spec now _ ticks _ 0 0 h

end Cache

end SimpleCache.Lru
