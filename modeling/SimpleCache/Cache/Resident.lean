import SimpleCache.Cache.Lru

/-!
# Cache.Resident — the locked cache of a group

`cache.go`: the values, and a cache that bounds them by bytes and time.  Every method holds the lock of the
cache, so each is one step.  The LRU is created by the first insertion.
-/

namespace SimpleCache.Cache

open SimpleCache.Lru (Entry Value)

/-- `ByteView`; no `expiresAt` is the zero time.  `readAt` is not in the source and nothing branches on it: the
step at which the source call that the value comes from began. -/
structure ByteView where
  b : GoString
  expiresAt : Option ℤ
  version : ℤ
  readAt : ℕ
  deriving DecidableEq, Repr

instance : Value ByteView := ⟨fun v => v.b.length⟩

/-- `cache`.  Its counter `evictions` is the length of the log of removals. -/
structure MainCache where
  lru : Option (Lru.Cache ByteView)
  cacheBytes : ℤ

namespace MainCache

/-- `cache.remove`. -/
def remove (c : MainCache) (key : GoString) : MainCache := { c with lru := c.lru.map fun l => l.remove key }

/-- `cache.add`, with its two readings of the clock: the value as it is returned, and the cache. -/
def add (c : MainCache) (key : GoString) (value : ByteView) (ttl : ℤ) (now now' : ℤ) : ByteView × MainCache :=
  if (key.length + Value.len value : ℤ) > c.cacheBytes then ({ value with expiresAt := none }, c.remove key)
  else
    let deadline := now + ttl
    let deadline :=
      match value.expiresAt with
      | none => deadline
      | some t => if t < deadline then t else deadline
    if now' < deadline then
      let value := { value with expiresAt := some deadline }
      let l := c.lru.getD (Lru.new c.cacheBytes)
      (value, { c with lru := some (l.addUntil key value (some deadline)) })
    else (value, c.remove key)

/-- `cache.get`. -/
def get (c : MainCache) (key : GoString) (now : ℤ) : Option ByteView × MainCache :=
  match c.lru with
  | none => (none, c)
  | some l => ((l.get key now).1, { c with lru := some (l.get key now).2 })

/-- `cache.version`. -/
def version (c : MainCache) (key : GoString) (now : ℤ) : ℤ × MainCache :=
  match c.lru with
  | none => (0, c)
  | some l =>
    let r := l.peek key now
    (match r.1 with | none => 0 | some v => v.version, { c with lru := some r.2 })

/-- `cleanupBudget`, in nanoseconds. -/
def cleanupBudget : ℤ := 2000000

/-- `cache.cleanExpired`: the numbers of entries checked and removed and whether the lock was busy, and the
cache. -/
def cleanExpired (c : MainCache) (limit : ℤ) (busy : Bool) (now start : ℤ) (ticks : ℕ → ℤ) :
    (ℕ × ℕ × Bool) × MainCache :=
  if busy then ((0, 0, true), c)
  else
    match c.lru with
    | none => ((0, 0, false), c)
    | some l =>
      let r := l.pruneExpired now limit cleanupBudget start ticks
      ((r.1, r.2.1, false), { c with lru := some r.2.2 })

/-- The number of removals since the group was made. -/
def evictions (c : MainCache) : ℕ :=
  match c.lru with
  | none => 0
  | some l => l.evicted.length

/-! ### What is stored -/

def WF (c : MainCache) : Prop := ∀ l, c.lru = some l → l.WF

/-- The stored entry of a key, expired or not. -/
def find? (c : MainCache) (key : GoString) : Option (Entry ByteView) := c.lru.bind fun l => l.find? key

def Shrinks (c c' : MainCache) : Prop := ∀ key e, c'.find? key = some e → c.find? key = some e

theorem WF.remove {c : MainCache} (h : c.WF) (key : GoString) : (c.remove key).WF := by
  intro l hl
  obtain ⟨l', hl', rfl⟩ := Option.map_eq_some_iff.mp hl
  exact (h l' hl').remove key

theorem find?_remove {c : MainCache} (h : c.WF) (key k : GoString) :
    (c.remove key).find? k = if k = key then none else c.find? k := by
  obtain ⟨_ | l, n⟩ := c
  · simp [find?, MainCache.remove]
  · exact Lru.Cache.find?_remove (h l rfl) key k

theorem remove_of_absent {c : MainCache} (h : c.WF) {key : GoString} (hf : c.find? key = none) :
    c.remove key = c := by
  obtain ⟨_ | l, n⟩ := c
  · rfl
  · rcases Lru.Cache.stored_cases (h l rfl) key with ⟨hn, -⟩ | ⟨p, e, -, -, -, -, hs⟩
    · simp only [MainCache.remove, Option.map_some, Lru.Cache.remove, hn]
    · exact absurd (hf.symm.trans hs) (by simp)

theorem shrinks_remove {c : MainCache} (h : c.WF) (key : GoString) : c.Shrinks (c.remove key) := by
  intro k e he
  rw [find?_remove h] at he
  split_ifs at he
  exact he

/-- A version is that of the stored entry; an expired one counts as absent and leaves. -/
theorem version_eq {c : MainCache} (h : c.WF) (key : GoString) (now : ℤ) :
    c.version key now =
      match c.find? key with
      | none => (0, c)
      | some e => if e.expired now then (0, c.remove key) else (e.value.version, c) := by
  obtain ⟨_ | l, n⟩ := c
  · rfl
  · have hp := Lru.Cache.peek_eq (h l rfl) key now
    have hf : find? ⟨some l, n⟩ key = l.find? key := rfl
    simp only [version, hf, hp]
    cases l.find? key with
    | none => rfl
    | some e =>
      simp only
      split_ifs <;> rfl

theorem WF.version {c : MainCache} (h : c.WF) (key : GoString) (now : ℤ) : (c.version key now).2.WF := by
  rw [version_eq h]
  split
  · exact h
  · split_ifs
    · exact h.remove key
    · exact h

theorem shrinks_version {c : MainCache} (h : c.WF) (key : GoString) (now : ℤ) :
    c.Shrinks (c.version key now).2 := by
  rw [version_eq h]
  split
  · exact fun _ _ he => he
  · split_ifs
    · exact shrinks_remove h key
    · exact fun _ _ he => he

/-- A version peek touches only its key. -/
theorem find?_version_ne {c : MainCache} (h : c.WF) {key k : GoString} (now : ℤ) (hk : k ≠ key) :
    (c.version key now).2.find? k = c.find? k := by
  rw [version_eq h]
  split
  · rfl
  · split_ifs
    · rw [find?_remove h, if_neg hk]
    · rfl

/-- After a version peek, what is stored has that version. -/
theorem find?_version_self {c : MainCache} (h : c.WF) {key : GoString} {now : ℤ} {e : Entry ByteView}
    (he : (c.version key now).2.find? key = some e) :
    c.find? key = some e ∧ e.expired now = false ∧ (c.version key now).1 = e.value.version := by
  rw [version_eq h] at he ⊢
  cases hf : c.find? key with
  | none => rw [hf] at he; simp only at he; rw [hf] at he; simp at he
  | some e' =>
    rw [hf] at he
    simp only at he ⊢
    split_ifs at he ⊢ with hx
    · rw [find?_remove h, if_pos rfl] at he; simp at he
    · rw [hf, Option.some.injEq] at he
      subst he
      exact ⟨rfl, by simpa using hx, rfl⟩

theorem get_spec {c : MainCache} (h : c.WF) (key : GoString) (now : ℤ) :
    (c.get key now).2.WF ∧ c.Shrinks (c.get key now).2 ∧
    ∀ v, (c.get key now).1 = some v → ∃ e, c.find? key = some e ∧ e.expired now = false ∧ e.value = v := by
  obtain ⟨_ | l, n⟩ := c
  · exact ⟨h, fun _ _ he => he, by simp [get]⟩
  · have hl := h l rfl
    obtain ⟨h1, h2, h3⟩ := Lru.Cache.get_eq hl key now
    refine ⟨fun l' hl' => ?_, fun k e he => ?_, fun v hv => ?_⟩
    · rw [← Option.some.inj hl']
      exact h2
    · exact Lru.Cache.shrinks_peek hl key now k e ((h3 k).symm.trans he)
    · have hv' : (l.peek key now).1 = some v := h1.symm.trans hv
      rw [Lru.Cache.peek_eq hl] at hv'
      cases hf : l.find? key with
      | none => rw [hf] at hv'; simp at hv'
      | some e =>
        rw [hf] at hv'
        simp only at hv'
        split_ifs at hv' with hx
        exact ⟨e, hf, by simpa using hx, Option.some.inj hv'⟩

theorem cleanExpired_spec {c : MainCache} (h : c.WF) (limit : ℤ) (busy : Bool) (now start : ℤ) (ticks : ℕ → ℤ) :
    (c.cleanExpired limit busy now start ticks).2.WF ∧
    c.Shrinks (c.cleanExpired limit busy now start ticks).2 := by
  unfold cleanExpired
  split_ifs
  · exact ⟨h, fun _ _ he => he⟩
  · obtain ⟨_ | l, n⟩ := c
    · exact ⟨h, fun _ _ he => he⟩
    · obtain ⟨h1, h2⟩ := Lru.Cache.pruneExpired_spec (h l rfl) now limit cleanupBudget start ticks
      refine ⟨fun l' hl' => ?_, fun k e he => h2 k e he⟩
      rw [← Option.some.inj hl']
      exact h1

/-- What is stored after `add` is the new value or was stored before under another key; the value returned has
the bytes and the version of the one given. -/
theorem add_spec {c : MainCache} (h : c.WF) (key : GoString) (value : ByteView) (ttl now now' : ℤ) :
    (c.add key value ttl now now').2.WF ∧
    ((c.add key value ttl now now').1.version = value.version ∧
      (c.add key value ttl now now').1.readAt = value.readAt) ∧
    ∀ k e, (c.add key value ttl now now').2.find? k = some e →
      (k = key ∧ e.value = (c.add key value ttl now now').1) ∨ (k ≠ key ∧ c.find? k = some e) := by
  have hrem : ∀ k e, (c.remove key).find? k = some e → k ≠ key ∧ c.find? k = some e := by
    intro k e he
    rw [find?_remove h] at he
    split_ifs at he with hk
    exact ⟨hk, he⟩
  unfold add
  split_ifs with hbig
  · exact ⟨h.remove key, ⟨rfl, rfl⟩, fun k e he => Or.inr (hrem k e he)⟩
  · dsimp only
    generalize (match value.expiresAt with
      | none => now + ttl
      | some t => if t < now + ttl then t else now + ttl) = deadline
    split_ifs
    · have hw : (c.lru.getD (Lru.new c.cacheBytes)).WF := by
        cases hl : c.lru with
        | none => exact Lru.Cache.WF.new _
        | some l => exact h l hl
      have hf : ∀ k, (c.lru.getD (Lru.new c.cacheBytes)).find? k = c.find? k := by
        intro k
        cases hl : c.lru with
        | none => simp only [find?, hl]; rfl
        | some l => simp only [find?, hl]; rfl
      obtain ⟨h1, h2⟩ := Lru.Cache.addUntil_spec hw key { value with expiresAt := some deadline } (some deadline)
      refine ⟨fun l hl => ?_, ⟨rfl, rfl⟩, fun k e he => ?_⟩
      · rw [← Option.some.inj hl]
        exact h1
      · rcases h2 k e he with ⟨hk, rfl⟩ | ⟨hk, hs⟩
        · exact Or.inl ⟨hk, rfl⟩
        · exact Or.inr ⟨hk, (hf k).symm.trans hs⟩
    · exact ⟨h.remove key, ⟨rfl, rfl⟩, fun k e he => Or.inr (hrem k e he)⟩

end MainCache

end SimpleCache.Cache
