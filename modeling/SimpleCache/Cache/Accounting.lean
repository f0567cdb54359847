import SimpleCache.Cache.Resident
import SimpleCache.Lib.Run

/-!
# Cache.Accounting — the LRU over whole runs

Any sequence of operations of the package `lru`, with any keys, values, deadlines, limits and clock readings.
`Evicts` says what every operation does after its insertion, if it makes one: the entries that leave the list are the
ones reported to `onEvicted`, each once, with its key and its value.  The numbers and the byte bound follow.
-/

namespace SimpleCache.Lru.Cache

open Lib (Run LinkedList Indexes)

variable {V : Type} [Value V]

/-- `Add`; `now` is its reading of the clock. -/
def add (c : Cache V) (key : GoString) (value : V) (ttl now : ℤ) : Cache V :=
  c.addUntil key value (if ttl > 0 then some (now + ttl) else none)

/-- An operation with its arguments and its readings of the clock. -/
inductive Op (V : Type)
  | add (key : GoString) (value : V) (ttl now : ℤ)
  | addUntil (key : GoString) (value : V) (expireAt : Option ℤ)
  | get (key : GoString) (now : ℤ)
  | peek (key : GoString) (now : ℤ)
  | remove (key : GoString)
  | removeOldest
  | pruneExpired (now limit budget start : ℤ) (ticks : ℕ → ℤ)

/-- The cache after an operation. -/
def apply (c : Cache V) : Op V → Cache V
  | .add key value ttl now => c.add key value ttl now
  | .addUntil key value expireAt => c.addUntil key value expireAt
  | .get key now => (c.get key now).2
  | .peek key now => (c.peek key now).2
  | .remove key => c.remove key
  | .removeOldest => c.removeOldest
  | .pruneExpired now limit budget start ticks => (c.pruneExpired now limit budget start ticks).2.2

/-- The cache after the insertion of an operation, before anything leaves. -/
def written (c : Cache V) : Op V → Cache V
  | .add key value ttl now => c.insert key value (if ttl > 0 then some (now + ttl) else none)
  | .addUntil key value expireAt => c.insert key value expireAt
  | _ => c

/-- Whether an operation inserts a new entry. -/
def inserts (c : Cache V) : Op V → Bool
  | .add key _ _ _ => (c.cache.lookup key).isNone
  | .addUntil key _ _ => (c.cache.lookup key).isNone
  | _ => false

/-- One operation; it shows whether it inserted a new entry and the calls of `onEvicted` that it made. -/
def step (c : Cache V) (op : Op V) : Option (Cache V × Bool × List (GoString × V)) :=
  some (c.apply op, c.inserts op, (c.apply op).evicted.drop c.evicted.length)

/-- The keys and values of the list. -/
def stored (c : Cache V) : List (GoString × V) := c.ll.elems.map fun e => (e.2.key, e.2.value)

/-! ### What leaves is what is reported -/

/-- From `c` to `c'` entries leave the list, and the callback is called with each of them. -/
structure Evicts (c c' : Cache V) (reported : List (GoString × V)) : Prop where
  log : c'.evicted = c.evicted ++ reported
  perm : c.stored.Perm (c'.stored ++ reported)
  capacity : c'.bytesTotal = c.bytesTotal
  bytes : c'.byteNow ≤ c.byteNow

omit [Value V] in
theorem Evicts.refl (c : Cache V) : Evicts c c [] := ⟨by simp, by simp, rfl, le_rfl⟩

omit [Value V] in
theorem Evicts.trans {a b c : Cache V} {r r' : List (GoString × V)} (h : Evicts a b r) (h' : Evicts b c r') :
    Evicts a c (r ++ r') where
  log := by rw [h'.log, h.log, List.append_assoc]
  perm := by
    have hp := h.perm.trans (h'.perm.append_right r)
    refine hp.trans ?_
    rw [List.append_assoc]
    exact List.perm_append_comm.append_left c.stored
  capacity := h'.capacity.trans h.capacity
  bytes := h'.bytes.trans h.bytes

omit [Value V] in
/-- A change of the order of the list and of the cursor. -/
theorem evicts_reorder (c : Cache V) {l : LinkedList (Entry V)} (hl : l.elems.Perm c.ll.elems) (cursor : Option ℕ) :
    Evicts c { c with ll := l, expireCursor := cursor } [] :=
  ⟨by simp, by simpa [stored] using (hl.map _).symm, rfl, le_rfl⟩

theorem evicts_removeElement (c : Cache V) (p : ℕ) : ∃ r, Evicts c (c.removeElement p) r := by
  cases hg : c.ll.get? p with
  | none =>
    refine ⟨[], ?_⟩
    have : c.removeElement p = c := by unfold removeElement; rw [hg]
    rw [this]
    exact .refl c
  | some e =>
    have he := LinkedList.mem_of_get? hg
    rw [removeElement_eq he]
    refine ⟨[(e.key, e.value)], rfl, ?_, rfl, ?_⟩
    · have hp := (LinkedList.perm_remove he).map fun e : ℕ × Entry V => (e.2.key, e.2.value)
      exact hp.symm.trans (List.perm_append_singleton _ _).symm
    · have : 0 ≤ size e := by unfold size; positivity
      show c.byteNow - size e ≤ c.byteNow
      omega

theorem evicts_removeOldest (c : Cache V) : ∃ r, Evicts c c.removeOldest r := by
  unfold removeOldest
  split
  · exact ⟨[], .refl c⟩
  · exact evicts_removeElement c _

theorem evicts_remove (c : Cache V) (key : GoString) : ∃ r, Evicts c (c.remove key) r := by
  unfold Cache.remove
  split
  · exact ⟨[], .refl c⟩
  · exact evicts_removeElement c _

theorem evicts_peek (c : Cache V) (key : GoString) (now : ℤ) : ∃ r, Evicts c (c.peek key now).2 r := by
  unfold peek
  repeat' split
  · exact ⟨[], .refl c⟩
  · exact ⟨[], .refl c⟩
  · exact evicts_removeElement c _
  · exact ⟨[], .refl c⟩

theorem evicts_get (c : Cache V) (key : GoString) (now : ℤ) : ∃ r, Evicts c (c.get key now).2 r := by
  obtain ⟨r, hr⟩ := evicts_peek c key now
  unfold Cache.get
  generalize c.peek key now = x at hr ⊢
  obtain ⟨_ | v, c'⟩ := x
  · exact ⟨r, hr⟩
  · simp only
    split
    · exact ⟨r, hr⟩
    · exact ⟨r ++ [], hr.trans (evicts_reorder c' (c'.ll.moveToFront_perm _) c'.expireCursor)⟩

theorem evicts_evictLoop (n : ℕ) (c : Cache V) : ∃ r, Evicts c (evictLoop n c) r := by
  induction n generalizing c with
  | zero => exact ⟨[], .refl c⟩
  | succ n ih =>
    unfold evictLoop
    split_ifs
    · obtain ⟨r, hr⟩ := evicts_removeOldest c
      obtain ⟨r', hr'⟩ := ih c.removeOldest
      exact ⟨r ++ r', hr.trans hr'⟩
    · exact ⟨[], .refl c⟩

theorem evicts_pruneLoop (now deadline : ℤ) (ticks : ℕ → ℤ) (fuel checked removed : ℕ) (c : Cache V) :
    ∃ r, Evicts c (pruneLoop now deadline ticks fuel checked removed c).2.2 r := by
  induction fuel generalizing checked removed c with
  | zero => exact ⟨[], .refl c⟩
  | succ fuel ih =>
    have hcursor : ∀ q, Evicts c { c with expireCursor := q } [] := fun q => evicts_reorder c (List.Perm.refl _) q
    unfold pruneLoop
    split_ifs
    · cases c.expireCursor.or c.ll.back with
      | none => exact ⟨[], hcursor none⟩
      | some current =>
        simp only
        cases c.ll.get? current with
        | none => exact ⟨[], hcursor _⟩
        | some item =>
          simp only
          split_ifs
          · obtain ⟨r, hr⟩ := evicts_removeElement { c with expireCursor := c.ll.prev current } current
            obtain ⟨r', hr'⟩ := ih (checked + 1) (removed + 1)
              ({ c with expireCursor := c.ll.prev current }.removeElement current)
            exact ⟨[] ++ r ++ r', ((hcursor _).trans hr).trans hr'⟩
          · obtain ⟨r, hr⟩ := ih (checked + 1) removed { c with expireCursor := c.ll.prev current }
            exact ⟨[] ++ r, (hcursor _).trans hr⟩
    · exact ⟨[], .refl c⟩

theorem evicts_pruneExpired (c : Cache V) (now limit budget start : ℤ) (ticks : ℕ → ℤ) :
    ∃ r, Evicts c (c.pruneExpired now limit budget start ticks).2.2 r := by
  unfold pruneExpired
  split_ifs
  · exact ⟨[], .refl c⟩
  · exact evicts_pruneLoop now _ ticks _ 0 0 c

/-- **After its insertion, an operation reports exactly what it removes.** -/
theorem evicts_apply (c : Cache V) (op : Op V) : ∃ r, Evicts (c.written op) (c.apply op) r := by
  cases op with
  | add key value ttl now => exact evicts_evictLoop _ _
  | addUntil key value expireAt => exact evicts_evictLoop _ _
  | get key now => exact evicts_get c key now
  | peek key now => exact evicts_peek c key now
  | remove key => exact evicts_remove c key
  | removeOldest => exact evicts_removeOldest c
  | pruneExpired now limit budget start ticks => exact evicts_pruneExpired c now limit budget start ticks

/-! ### The insertion -/

theorem insert_frame (c : Cache V) (key : GoString) (value : V) (expireAt : Option ℤ) :
    (c.insert key value expireAt).evicted = c.evicted ∧ (c.insert key value expireAt).bytesTotal = c.bytesTotal := by
  unfold Cache.insert
  repeat' split
  all_goals exact ⟨rfl, rfl⟩

/-- An insertion makes the list longer exactly when the key was not stored. -/
theorem insert_len {c : Cache V} (h : c.WF) (key : GoString) (value : V) (expireAt : Option ℤ) :
    (c.insert key value expireAt).ll.len = c.ll.len + if (c.cache.lookup key).isNone then 1 else 0 := by
  unfold Cache.insert
  rcases stored_cases h key with ⟨hl, -⟩ | ⟨p, e, hl, hg, he, -, -⟩
  · rw [hl]
    rfl
  · rw [hl]
    simp only [hg, Option.isNone_some, Bool.false_eq_true, if_false, Nat.add_zero]
    unfold LinkedList.len
    rw [LinkedList.elems_moveToFront_set he]
    exact LinkedList.len_remove he

theorem written_frame (c : Cache V) (op : Op V) :
    (c.written op).evicted = c.evicted ∧ (c.written op).bytesTotal = c.bytesTotal := by
  cases op with
  | add key value ttl now => exact insert_frame c key value _
  | addUntil key value expireAt => exact insert_frame c key value expireAt
  | _ => exact ⟨rfl, rfl⟩

theorem written_len {c : Cache V} (h : c.WF) (op : Op V) :
    (c.written op).ll.len = c.ll.len + if c.inserts op then 1 else 0 := by
  cases op with
  | add key value ttl now => exact insert_len h key value _
  | addUntil key value expireAt => exact insert_len h key value expireAt
  | _ => rfl

/-! ### Runs -/

theorem WF.apply {c : Cache V} (h : c.WF) (op : Op V) : (c.apply op).WF := by
  cases op with
  | add key value ttl now => exact (addUntil_spec h key value _).1
  | addUntil key value expireAt => exact (addUntil_spec h key value expireAt).1
  | get key now => exact (get_eq h key now).2.1
  | peek key now => exact h.peek key now
  | remove key => exact h.remove key
  | removeOldest => exact h.removeOldest
  | pruneExpired now limit budget start ticks => exact (pruneExpired_spec h now limit budget start ticks).1

/-- The bytes stay within the capacity. -/
theorem apply_le {c : Cache V} (h : c.WF) (h0 : 0 < c.bytesTotal) (hle : c.byteNow ≤ c.bytesTotal) (op : Op V) :
    (c.apply op).byteNow ≤ c.bytesTotal := by
  have hadd : ∀ key value expireAt, (c.addUntil key value expireAt).byteNow ≤ c.bytesTotal := by
    intro key value expireAt
    have hcap := (insert_frame c key value expireAt).2
    have := evictLoop_le _ (h.insert key value expireAt) le_rfl (by rw [hcap]; exact h0)
    rwa [hcap] at this
  obtain ⟨r, hr⟩ := evicts_apply c op
  cases op with
  | add key value ttl now => exact hadd key value _
  | addUntil key value expireAt => exact hadd key value expireAt
  | _ => exact hr.bytes.trans hle

/-- The number of new entries that a run has inserted. -/
def inserted (tr : List (Op V × Bool × List (GoString × V))) : ℕ := tr.countP fun e => e.2.1

/-- What a run keeps. -/
structure Accounts (total : ℤ) (tr : List (Op V × Bool × List (GoString × V))) (c : Cache V) : Prop where
  wf : c.WF
  capacity : c.bytesTotal = total
  bytes : c.byteNow ≤ total
  log : c.evicted = tr.flatMap fun e => e.2.2
  count : c.evicted.length + c.ll.len = inserted tr

theorem accounts_step {capacity : ℤ} (h0 : 0 < capacity) {tr : List (Op V × Bool × List (GoString × V))}
    {c c' : Cache V} {op : Op V} {o : Bool × List (GoString × V)} (h : Accounts capacity tr c)
    (hst : c.step op = some (c', o)) : Accounts capacity (tr ++ [(op, o)]) c' := by
  simp only [step, Option.some.injEq, Prod.mk.injEq] at hst
  obtain ⟨rfl, rfl⟩ := hst
  obtain ⟨r, hr⟩ := evicts_apply c op
  obtain ⟨hlog, hcap⟩ := written_frame c op
  have hreported : (c.apply op).evicted.drop c.evicted.length = r := by rw [hr.log, hlog, List.drop_left]
  refine ⟨h.wf.apply op, by rw [hr.capacity, hcap, h.capacity], ?_, ?_, ?_⟩
  · have := apply_le h.wf (h.capacity ▸ h0) (h.capacity ▸ h.bytes) op
    rwa [h.capacity] at this
  · rw [List.flatMap_append, ← h.log, List.flatMap_singleton, hreported, hr.log, hlog]
  · have hlen := hr.perm.length_eq
    simp only [stored, List.length_append, List.length_map] at hlen
    have hw := written_len h.wf op
    have hc := h.count
    have hi : inserted (tr ++ [(op, c.inserts op, (c.apply op).evicted.drop c.evicted.length)]) =
        inserted tr + if c.inserts op then 1 else 0 := by
      unfold inserted
      rw [List.countP_append, List.countP_singleton]
    rw [hi, hr.log, hlog, List.length_append]
    simp only [LinkedList.len] at hw hc ⊢
    omega

theorem accounts_run {capacity : ℤ} (h0 : 0 < capacity) {tr : List (Op V × Bool × List (GoString × V))} {c : Cache V}
    (h : Run step (new capacity) tr c) : Accounts capacity tr c :=
  h.rec_inv (I := Accounts capacity) ⟨.new capacity, rfl, h0.le, rfl, rfl⟩
    fun _ _ _ _ _ _ hI hst => accounts_step h0 hI hst

/-- **The LRU over every run.**  The index and the list hold the same entries, with distinct keys; the byte count is
that of the list and within the capacity; the cursor is in the list; there have been as many calls of `onEvicted` as
entries were newly inserted and are no longer stored; and an operation reports each entry that it removes once, with
its key and its value. -/
theorem lru_accounting {capacity : ℤ} (h0 : 0 < capacity) {tr : List (Op V × Bool × List (GoString × V))}
    {c : Cache V} (h : Run step (new capacity) tr c) :
    Indexes Entry.key c.ll c.cache ∧ (c.ll.elems.map fun e => e.2.key).Nodup ∧
    c.byteNow = (c.ll.elems.map fun e => (e.2.key.length + Value.len e.2.value : ℤ)).sum ∧
    0 ≤ c.byteNow ∧ c.byteNow ≤ capacity ∧
    (∀ p, c.expireCursor = some p → ∃ e, (p, e) ∈ c.ll.elems) ∧
    (c.evicted.length : ℤ) = inserted tr - c.ll.len ∧ c.evicted = (tr.flatMap fun e => e.2.2) ∧
    ∀ op c' fresh reported, c.step op = some (c', fresh, reported) →
      (c.written op).stored.Perm (c'.stored ++ reported) := by
  have hI := accounts_run h0 h
  have hnodup : (c.ll.elems.map fun e => e.2.key).Nodup :=
    (hI.wf.indexed.keys_perm.nodup_iff).mpr c.cache.keys_nodup
  refine ⟨hI.wf.indexed, hnodup, hI.wf.bytes_eq, ?_, hI.bytes, hI.wf.cursor, ?_, hI.log, ?_⟩
  · rw [hI.wf.bytes_eq]
    exact bytes_nonneg _
  · have := hI.count
    omega
  · intro op c' fresh reported hst
    simp only [step, Option.some.injEq, Prod.mk.injEq] at hst
    obtain ⟨rfl, -, rfl⟩ := hst
    obtain ⟨r, hr⟩ := evicts_apply c op
    rw [show (c.apply op).evicted.drop c.evicted.length = r by rw [hr.log, (written_frame c op).1, List.drop_left]]
    exact hr.perm

/-- A capacity of three bytes: the second entry drives the first out, and its update keeps within the capacity. -/
theorem lru_accounting_pressed : ∃ tr, ∃ c : Cache Cache.ByteView, Run step (new 3) tr c ∧
    c.evicted = [([97], ⟨[1, 1], none, 1, 0⟩)] ∧ (c.evicted.length : ℤ) = inserted tr - c.ll.len := by
  have h := Lib.exec_run (step (V := Cache.ByteView))
    [.add [97] ⟨[1, 1], none, 1, 0⟩ 5 0, .addUntil [98] ⟨[2], none, 1, 0⟩ none,
      .addUntil [98] ⟨[3, 3], none, 2, 0⟩ none, .get [98] 1] (new 3) _ _ rfl
  exact ⟨_, _, h, rfl, (lru_accounting (by decide) h).2.2.2.2.2.2.1⟩

end SimpleCache.Lru.Cache
