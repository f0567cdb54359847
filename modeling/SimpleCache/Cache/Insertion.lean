import SimpleCache.Cache.Accounting

/-!
# Cache.Insertion — `cache.add` as insertion into a recency list

The abstract cache is the list of its entries in recency order.  Inserting puts the new entry in front of the other
keys and keeps the longest prefix that fits the capacity: `evictLoop_longest` for the loop of `AddUntil`,
`add_refines` for `cache.add` in every state that the methods of the cache can reach.
-/

namespace SimpleCache

/-! ### The longest prefix with a property -/

/-- `p` is the longest prefix of `l` with the property `P`. -/
structure LongestPrefix {α : Type*} (P : List α → Prop) (l p : List α) : Prop where
  isPrefix : p <+: l
  fits : P p
  longest : ∀ q, q <+: l → P q → q <+: p

namespace LongestPrefix

variable {α : Type*} {P : List α → Prop} {l p : List α} {a : α}

theorem refl (h : P l) : LongestPrefix P l l := ⟨List.prefix_refl l, h, fun _ hq _ => hq⟩

/-- A list without the property has the longest prefix of the list without its last element. -/
theorem of_concat (hl : ¬ P (l ++ [a])) (h : LongestPrefix P l p) : LongestPrefix P (l ++ [a]) p where
  isPrefix := h.isPrefix.trans (List.prefix_append l [a])
  fits := h.fits
  longest q hq hP := by
    rcases List.prefix_concat_iff.mp hq with rfl | hq
    · exact absurd hP hl
    · exact h.longest q hq hP

/-- A first element that has the property alone is kept. -/
theorem head_eq (h : LongestPrefix P (a :: l) p) (ha : P [a]) : p.head? = some a := by
  obtain ⟨t, rfl⟩ := h.longest [a] ⟨l, rfl⟩ ha
  rfl

end LongestPrefix

namespace Lru.Cache

open Lib (LinkedList)

variable {V : Type} [Value V]

/-! ### The recency list -/

/-- The entries, most recently used first. -/
def order (c : Cache V) : List (Entry V) := c.ll.elems.map Prod.snd

/-- The bytes of a list of entries. -/
def total (es : List (Entry V)) : ℤ := (es.map size).sum

theorem total_order {c : Cache V} (h : c.WF) : total c.order = c.byteNow := by
  rw [h.bytes_eq, total, order, bytes, List.map_map]
  rfl

theorem total_filter_le (es : List (Entry V)) (key : GoString) :
    total (es.filter fun e => e.key ≠ key) ≤ total es := by
  refine List.Sublist.sum_le_sum (List.filter_sublist.map _) fun x hx => ?_
  obtain ⟨e, -, rfl⟩ := List.mem_map.mp hx
  unfold size
  positivity

omit [Value V] in
/-- The order without one key. -/
theorem order_filter (es : List (ℕ × Entry V)) (key : GoString) :
    (es.filter fun e => e.2.key ≠ key).map Prod.snd = (es.map Prod.snd).filter fun e => e.key ≠ key := by
  rw [List.filter_map]
  rfl

theorem order_absent {c : Cache V} (h : c.WF) {key : GoString} (hl : c.cache.lookup key = none) :
    (c.order.filter fun e => e.key ≠ key) = c.order := by
  rw [List.filter_eq_self]
  intro e he
  obtain ⟨x, hx, rfl⟩ := List.mem_map.mp he
  simpa using h.indexed.lookup_eq_none.mp hl x hx

theorem order_remove {c : Cache V} (h : c.WF) (key : GoString) :
    (c.remove key).order = c.order.filter fun e => e.key ≠ key := by
  unfold Cache.remove
  rcases stored_cases h key with ⟨hl, -⟩ | ⟨p, e, hl, -, he, rfl, -⟩
  · rw [hl]
    exact (order_absent h hl).symm
  · rw [hl]
    simp only [removeElement_eq he]
    show (c.ll.elems.filter fun x => x.1 ≠ p).map Prod.snd = _
    rw [h.indexed.filter_ne he]
    exact order_filter c.ll.elems e.key

theorem order_insert {c : Cache V} (h : c.WF) (key : GoString) (value : V) (expireAt : Option ℤ) :
    (c.insert key value expireAt).order = ⟨key, value, expireAt⟩ :: c.order.filter fun e => e.key ≠ key := by
  unfold Cache.insert
  rcases stored_cases h key with ⟨hl, -⟩ | ⟨p, e, hl, hg, he, rfl, -⟩
  · rw [hl, order_absent h hl]
    rfl
  · rw [hl]
    simp only [hg, order, LinkedList.elems_moveToFront_set he, List.map_cons]
    rw [h.indexed.filter_ne he]
    exact congrArg _ (order_filter c.ll.elems e.key)

theorem order_removeOldest (c : Cache V) : c.removeOldest.order = c.order.dropLast := by
  unfold removeOldest
  cases hb : c.ll.back with
  | none =>
    have hnil : c.ll.elems = [] := by simpa [LinkedList.back] using hb
    simp [order, hnil]
  | some p =>
    obtain ⟨e, he⟩ := LinkedList.back_mem hb
    simp only [removeElement_eq he, order, LinkedList.remove_back hb, List.map_dropLast]

/-! ### The eviction loop -/

/-- **The loop of `AddUntil` keeps the longest prefix that fits**, and stops because its condition fails. -/
theorem evictLoop_longest (n : ℕ) {c : Cache V} (h : c.WF) (hn : c.ll.len ≤ n)
    (h0 : 0 < c.bytesTotal ∨ c.byteNow ≤ c.bytesTotal) :
    LongestPrefix (fun es => total es ≤ c.bytesTotal) c.order (evictLoop n c).order ∧
    (evictLoop n c).byteNow ≤ c.bytesTotal := by
  induction n generalizing c with
  | zero =>
    have hnil : c.ll.elems = [] := List.length_eq_zero_iff.mp (Nat.le_zero.mp hn)
    have hb : c.byteNow = 0 := by rw [h.bytes_eq, hnil]; rfl
    have hle : c.byteNow ≤ c.bytesTotal := by omega
    exact ⟨.refl (by rw [total_order h]; exact hle), hle⟩
  | succ n ih =>
    unfold evictLoop
    split_ifs with hc
    · -- the list does not fit, so it has a last element, and that one leaves
      have hbig : ¬ total c.order ≤ c.bytesTotal := by rw [total_order h]; omega
      rcases List.eq_nil_or_concat c.ll.elems with hnil | ⟨es, x, hes⟩
      · exfalso
        have hb : c.byteNow = 0 := by rw [h.bytes_eq, hnil]; rfl
        omega
      · obtain ⟨hlen, hcap⟩ := removeOldest_len (c := c) (by rw [hes]; simp)
        have hord : c.order = c.removeOldest.order ++ [x.2] := by
          rw [order_removeOldest, order, hes]
          simp
        have hrec := ih h.removeOldest (by omega) (Or.inl (by omega))
        rw [hcap] at hrec
        refine ⟨?_, hrec.2⟩
        rw [hord] at hbig ⊢
        exact .of_concat hbig hrec.1
    · have hle : c.byteNow ≤ c.bytesTotal := by omega
      exact ⟨.refl (by rw [total_order h]; exact hle), hle⟩

end Lru.Cache

namespace Cache.MainCache

open Lib (Run)
open Lru (Entry Value)
open Lru.Cache (Evicts total total_filter_le)

/-! ### The methods of the cache -/

/-- A method with its arguments and its readings of the clock. -/
inductive Op
  | add (key : GoString) (value : ByteView) (ttl now now' : ℤ)
  | get (key : GoString) (now : ℤ)
  | version (key : GoString) (now : ℤ)
  | remove (key : GoString)
  | cleanExpired (limit : ℤ) (busy : Bool) (now start : ℤ) (ticks : ℕ → ℤ)

def apply (c : MainCache) : Op → MainCache
  | .add key value ttl now now' => (c.add key value ttl now now').2
  | .get key now => (c.get key now).2
  | .version key now => (c.version key now).2
  | .remove key => c.remove key
  | .cleanExpired limit busy now start ticks => (c.cleanExpired limit busy now start ticks).2

def step (c : MainCache) (op : Op) : Option (MainCache × Unit) := some (c.apply op, ())

/-- The entries, most recently used first; a cache without an LRU has none. -/
def order (c : MainCache) : List (Entry ByteView) := (c.lru.map Lru.Cache.order).getD []

theorem order_remove {c : MainCache} (h : c.WF) (key : GoString) :
    (c.remove key).order = c.order.filter fun e => e.key ≠ key := by
  obtain ⟨_ | l, n⟩ := c
  · rfl
  · exact Lru.Cache.order_remove (h l rfl) key

/-- The deadline that `cache.add` gives a value: the earlier of the value's own and `ttl` from now. -/
def deadline (value : ByteView) (ttl now : ℤ) : ℤ := (value.expiresAt.map fun t => min t (now + ttl)).getD (now + ttl)

/-- The capacity is handed to the LRU, which keeps to it. -/
structure Bounded (capacity : ℤ) (c : MainCache) : Prop where
  capacity_eq : c.cacheBytes = capacity
  wf : c.WF
  limit : ∀ l, c.lru = some l → l.bytesTotal = capacity
  bytes : ∀ l, c.lru = some l → l.byteNow ≤ capacity

theorem add_eq (c : MainCache) (key : GoString) (value : ByteView) (ttl now now' : ℤ) :
    c.add key value ttl now now' =
      if (key.length + Value.len value : ℤ) > c.cacheBytes then ({ value with expiresAt := none }, c.remove key)
      else if now' < deadline value ttl now then
        ({ value with expiresAt := some (deadline value ttl now) },
          { c with
            lru := some ((c.lru.getD (Lru.new c.cacheBytes)).addUntil key
              { value with expiresAt := some (deadline value ttl now) } (some (deadline value ttl now))) })
      else (value, c.remove key) := by
  unfold add deadline
  cases value.expiresAt with
  | none => rfl
  | some t =>
    have hmin : (if t < now + ttl then t else now + ttl) = min t (now + ttl) := by split_ifs <;> omega
    simp only [hmin, Option.map_some, Option.getD_some]

section Bounded

variable {capacity : ℤ} {c : MainCache}

/-- A method that only takes entries out keeps the bound. -/
theorem Bounded.evicts (h : Bounded capacity c) {f : Lru.Cache ByteView → Lru.Cache ByteView}
    (hw : ∀ l, l.WF → (f l).WF) (hf : ∀ l, ∃ r, Evicts l (f l) r) :
    Bounded capacity { c with lru := c.lru.map f } := by
  have hsome : ∀ l', c.lru.map f = some l' → ∃ l, c.lru = some l ∧ l' = f l := by
    intro l' hl'
    obtain ⟨l, hl, rfl⟩ := Option.map_eq_some_iff.mp hl'
    exact ⟨l, hl, rfl⟩
  refine ⟨h.capacity_eq, fun l' hl' => ?_, fun l' hl' => ?_, fun l' hl' => ?_⟩
  all_goals
    obtain ⟨l, hl, rfl⟩ := hsome l' hl'
    obtain ⟨r, hr⟩ := hf l
  · exact hw l (h.wf l hl)
  · exact hr.capacity.trans (h.limit l hl)
  · exact hr.bytes.trans (h.bytes l hl)

theorem Bounded.remove (h : Bounded capacity c) (key : GoString) : Bounded capacity (c.remove key) :=
  h.evicts (fun _ hl => hl.remove key) fun l => Lru.Cache.evicts_remove l key

/-- The LRU that an insertion works on. -/
theorem Bounded.lru (h : Bounded capacity c) (h0 : 0 ≤ capacity) :
    (c.lru.getD (Lru.new c.cacheBytes)).WF ∧ (c.lru.getD (Lru.new c.cacheBytes)).bytesTotal = capacity ∧
    (c.lru.getD (Lru.new c.cacheBytes)).byteNow ≤ capacity ∧
    (c.lru.getD (Lru.new c.cacheBytes)).order = c.order := by
  unfold order
  cases hl : c.lru with
  | none => exact ⟨.new _, h.capacity_eq, h0, rfl⟩
  | some l => exact ⟨h.wf l hl, h.limit l hl, h.bytes l hl, rfl⟩

/-- An insertion that fits, in terms of the recency list. -/
theorem Bounded.addUntil (h : Bounded capacity c) (key : GoString) (value : ByteView) (expireAt : Option ℤ)
    (hfit : (key.length + Value.len value : ℤ) ≤ capacity) :
    LongestPrefix (fun es => total es ≤ capacity)
      (⟨key, value, expireAt⟩ :: c.order.filter fun e => e.key ≠ key)
      ((c.lru.getD (Lru.new c.cacheBytes)).addUntil key value expireAt).order ∧
    ((c.lru.getD (Lru.new c.cacheBytes)).addUntil key value expireAt).byteNow ≤ capacity ∧
    ((c.lru.getD (Lru.new c.cacheBytes)).addUntil key value expireAt).bytesTotal = capacity := by
  obtain ⟨hw, hcap, hbytes, hord⟩ := h.lru (by omega)
  generalize c.lru.getD (Lru.new c.cacheBytes) = l at hw hcap hbytes hord ⊢
  have hwi := hw.insert key value expireAt
  have hcapi := (Lru.Cache.insert_frame l key value expireAt).2.trans hcap
  have hordi := Lru.Cache.order_insert hw key value expireAt
  -- with capacity zero nothing but an empty entry under an empty key was ever stored
  have h0 : 0 < (l.insert key value expireAt).bytesTotal ∨
      (l.insert key value expireAt).byteNow ≤ (l.insert key value expireAt).bytesTotal := by
    by_cases hpos : 0 < capacity
    · exact Or.inl (by rw [hcapi]; exact hpos)
    · refine Or.inr ?_
      have hrest := total_filter_le l.order key
      rw [← Lru.Cache.total_order hwi, hordi, hcapi]
      rw [Lru.Cache.total_order hw] at hrest
      simp only [total, Lru.Cache.size, List.map_cons, List.sum_cons] at hrest ⊢
      omega
  obtain ⟨h1, h2⟩ := Lru.Cache.evictLoop_longest _ hwi le_rfl h0
  rw [hcapi, hordi, hord] at h1
  rw [hcapi] at h2
  obtain ⟨r, hr⟩ := Lru.Cache.evicts_evictLoop (l.insert key value expireAt).ll.len (l.insert key value expireAt)
  exact ⟨h1, h2, hr.capacity.trans hcapi⟩

theorem Bounded.add (h : Bounded capacity c) (key : GoString) (value : ByteView) (ttl now now' : ℤ) :
    Bounded capacity (c.add key value ttl now now').2 := by
  rw [add_eq]
  split_ifs with hbig
  · exact h.remove key
  · have hfit : (key.length + Value.len value : ℤ) ≤ capacity := by rw [← h.capacity_eq]; omega
    obtain ⟨-, h2, h3⟩ := h.addUntil key { value with expiresAt := some (deadline value ttl now) }
      (some (deadline value ttl now)) hfit
    have hw := (h.lru (by omega)).1
    refine ⟨h.capacity_eq, fun l hl => ?_, fun l hl => ?_, fun l hl => ?_⟩
    all_goals rw [← Option.some.inj hl]
    · exact (Lru.Cache.addUntil_spec hw key _ _).1
    · exact h3
    · exact h2
  · exact h.remove key

theorem Bounded.apply (h : Bounded capacity c) (op : Op) : Bounded capacity (c.apply op) := by
  cases op with
  | add key value ttl now now' => exact h.add key value ttl now now'
  | get key now =>
    have := h.evicts (f := fun l => (l.get key now).2) (fun _ hl => (Lru.Cache.get_eq hl key now).2.1)
      fun l => Lru.Cache.evicts_get l key now
    obtain ⟨_ | l, n⟩ := c
    · exact h
    · exact this
  | version key now =>
    have := h.evicts (f := fun l => (l.peek key now).2) (fun _ hl => hl.peek key now)
      fun l => Lru.Cache.evicts_peek l key now
    obtain ⟨_ | l, n⟩ := c
    · exact h
    · exact this
  | remove key => exact h.remove key
  | cleanExpired limit busy now start ticks =>
    have := h.evicts (f := fun l => (l.pruneExpired now limit cleanupBudget start ticks).2.2)
      (fun _ hl => (Lru.Cache.pruneExpired_spec hl now limit cleanupBudget start ticks).1)
      fun l => Lru.Cache.evicts_pruneExpired l now limit cleanupBudget start ticks
    show Bounded capacity (c.cleanExpired limit busy now start ticks).2
    unfold MainCache.cleanExpired
    split_ifs
    · exact h
    · obtain ⟨_ | l, n⟩ := c
      · exact h
      · exact this

theorem bounded_run {tr : List (Op × Unit)} (h : Run step ⟨none, capacity⟩ tr c) : Bounded capacity c := by
  refine h.inv (I := Bounded capacity) ⟨rfl, ?_, ?_, ?_⟩ fun s op o s' hs hst => ?_
  any_goals exact fun l hl => absurd hl (by simp)
  obtain ⟨rfl, -⟩ := Prod.mk.inj (Option.some.inj hst)
  exact hs.apply op

end Bounded

/-- **`cache.add` is insertion into the recency list.**  Where the entry does not fit, or its deadline has passed when
it is to be stored, exactly the entry of the key leaves.  Otherwise the list becomes the longest prefix of the new
entry and the other keys that fits, with the new entry in front, and the loop has ended with its condition false. -/
theorem add_refines {capacity : ℤ} {tr : List (Op × Unit)} {c : MainCache} (h : Run step ⟨none, capacity⟩ tr c)
    (key : GoString) (value : ByteView) (ttl now now' : ℤ) :
    let c' := (c.add key value ttl now now').2
    let others := c.order.filter fun e => e.key ≠ key
    let fresh : Entry ByteView :=
      ⟨key, { value with expiresAt := some (deadline value ttl now) }, some (deadline value ttl now)⟩
    ((key.length + value.b.length : ℤ) > capacity ∨ deadline value ttl now ≤ now' → c'.order = others) ∧
    ((key.length + value.b.length : ℤ) ≤ capacity → now' < deadline value ttl now →
      LongestPrefix (fun es => total es ≤ capacity) (fresh :: others) c'.order ∧
      c'.order.head? = some fresh ∧
      ∀ l, c'.lru = some l → ¬ (l.bytesTotal ≠ 0 ∧ l.byteNow > l.bytesTotal)) := by
  have hb := bounded_run h
  have hcap := hb.capacity_eq
  intro c' others fresh
  have hc' : c' = (c.add key value ttl now now').2 := rfl
  rw [add_eq] at hc'
  have hlen : (Value.len value : ℤ) = value.b.length := rfl
  constructor
  · intro hout
    have : c' = c.remove key := by
      rw [hc']
      split_ifs with hbig hlive
      · rfl
      · omega
      · rfl
    rw [this]
    exact order_remove hb.wf key
  · intro hfit hlive
    rw [if_neg (by omega), if_pos hlive] at hc'
    obtain ⟨h1, h2, h3⟩ := hb.addUntil key fresh.value fresh.expireAt hfit
    rw [hc']
    refine ⟨h1, h1.head_eq ?_, fun l hl => ?_⟩
    · have hsize : total [fresh] = key.length + value.b.length := add_zero _
      exact hsize.trans_le hfit
    · rw [← Option.some.inj hl]
      exact fun hcond => absurd (h2.trans h3.ge) (not_le.mpr hcond.2)

/-- Four bytes hold two of three entries. -/
theorem add_refines_pressed : ∃ tr c, Run step ⟨none, 4⟩ tr c ∧
    (c.add [99] ⟨[3], none, 1, 0⟩ 5 2 2).2.order.head? = some ⟨[99], ⟨[3], some 7, 1, 0⟩, some 7⟩ ∧
    (c.add [99] ⟨[3], none, 1, 0⟩ 5 2 2).2.order.map Entry.key = [[99], [97]] := by
  have h := Lib.exec_run step [.add [97] ⟨[1], none, 1, 0⟩ 5 0 0, .add [98] ⟨[2], none, 1, 0⟩ 5 0 0, .get [97] 1]
    ⟨none, 4⟩ _ _ rfl
  exact ⟨_, _, h, ((add_refines h [99] ⟨[3], none, 1, 0⟩ 5 2 2).2 (by decide) (by decide)).2.1,
    by decide +kernel⟩

/-- A value that fits, with a positive time to live that runs out between the two readings of the clock, is not
stored, and the key loses its entry. -/
theorem add_expires_at_once : ∃ tr c, Run step ⟨none, 4⟩ tr c ∧
    c.order.map Entry.key = [[97]] ∧ (c.add [97] ⟨[2], none, 2, 0⟩ 1 0 1).2.order = [] := by
  have h := Lib.exec_run step [.add [97] ⟨[1], none, 1, 0⟩ 5 0 0] ⟨none, 4⟩ _ _ rfl
  exact ⟨_, _, h, by decide +kernel, by decide +kernel⟩

end Cache.MainCache

end SimpleCache
