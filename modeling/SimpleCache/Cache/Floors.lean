import SimpleCache.Cache.Group

/-!
# Cache.Floors — what the sections under `epochMu` do

The floors are a map and a list that hold the same records.  `Rises` says how they change when a version is
remembered, and `Reads`, `Fills` and `Invalidates` say, once for all later proofs, what each section does to the
floors, the epochs and the stored entries.  All sections keep `Group.WF`: in particular no stored entry is ever
below the floor of its key.
-/

namespace SimpleCache.Cache

open SimpleCache.Lib

/-! ### The floors -/

/-- The map and the list of the floors hold the same records, at most `capacity`, all with positive versions. -/
structure VersionFloors.WF (f : VersionFloors) : Prop where
  indexed : Indexes VersionRecord.key f.advanced f.entries
  pos : ∀ e ∈ f.advanced.elems, 0 < e.2.version
  bounded : f.advanced.elems.length ≤ f.capacity
  capacity_pos : 0 < f.capacity

namespace VersionFloors

/-- The keys of the floors, most recently risen first. -/
def keys (f : VersionFloors) : List GoString := f.advanced.elems.map fun e => e.2.key

/-- The floor of a key, if it is retained. -/
def floor? (f : VersionFloors) (key : GoString) : Option ℤ :=
  (f.advanced.deref f.entries key).map VersionRecord.version

/-- The floor of a key, 0 if none is retained. -/
def floor (f : VersionFloors) (key : GoString) : ℤ := (f.floor? key).getD 0

variable {f : VersionFloors}

theorem floor?_eq_some (h : f.WF) {key : GoString} {v : ℤ} :
    f.floor? key = some v ↔ ∃ p, (p, (⟨key, v⟩ : VersionRecord)) ∈ f.advanced.elems := by
  unfold floor?
  rw [Option.map_eq_some_iff]
  constructor
  · rintro ⟨r, hr, rfl⟩
    obtain ⟨⟨p, hp⟩, rfl⟩ := h.indexed.deref_eq_some.mp hr
    exact ⟨p, hp⟩
  · rintro ⟨p, hp⟩
    exact ⟨⟨key, v⟩, h.indexed.deref_eq_some.mpr ⟨⟨p, hp⟩, rfl⟩, rfl⟩

theorem mem_keys (h : f.WF) {key : GoString} : key ∈ f.keys ↔ (f.floor? key).isSome := by
  rw [Option.isSome_iff_exists]
  constructor
  · intro hk
    obtain ⟨⟨p, k, v⟩, he, rfl⟩ := List.mem_map.mp hk
    exact ⟨v, (floor?_eq_some h).mpr ⟨p, he⟩⟩
  · rintro ⟨v, hv⟩
    obtain ⟨p, hp⟩ := (floor?_eq_some h).mp hv
    exact List.mem_map.mpr ⟨_, hp, rfl⟩

theorem floor?_pos (h : f.WF) {key : GoString} {v : ℤ} (hv : f.floor? key = some v) : 0 < v := by
  obtain ⟨p, hp⟩ := (floor?_eq_some h).mp hv
  exact h.pos _ hp

theorem floor_nonneg (h : f.WF) (key : GoString) : 0 ≤ f.floor key := by
  unfold floor
  cases hv : f.floor? key with
  | none => exact le_rfl
  | some v => exact (floor?_pos h hv).le

theorem floor_of_some {key : GoString} {v : ℤ} (h : f.floor? key = some v) : f.floor key = v := by
  unfold floor
  rw [h]
  rfl

theorem keys_nodup (h : f.WF) : f.keys.Nodup := (h.indexed.keys_perm.nodup_iff).mpr f.entries.keys_nodup

theorem keys_length (h : f.WF) : f.entries.keys.length = f.keys.length := h.indexed.keys_perm.length_eq.symm

/-- The keys without one element. -/
theorem keys_filter (h : f.WF) {p : ℕ} {r : VersionRecord} (hr : (p, r) ∈ f.advanced.elems) :
    ((f.advanced.elems.filter fun e => e.1 ≠ p).map fun e => e.2.key) = f.keys.filter fun k => k ≠ r.key := by
  unfold keys
  rw [h.indexed.filter_ne hr, List.filter_map]
  rfl

/-- The floor of `key` is now `version`, the most recent one, and the floor of `dropped` is gone. -/
structure Rises (f f' : VersionFloors) (key : GoString) (version : ℤ) (dropped : Option GoString) : Prop where
  wf : f'.WF
  capacity : f'.capacity = f.capacity
  keys : f'.keys = key :: f.keys.filter fun k => k ≠ key ∧ dropped ≠ some k
  floor? : ∀ k, f'.floor? k = if k = key then some version else if dropped = some k then none else f.floor? k
  room : dropped = none → key ∈ f.keys ∨ f.keys.length < f.capacity
  full : ∀ old, dropped = some old → key ∉ f.keys ∧ f.keys.length = f.capacity ∧ f.keys.getLast? = some old

/-- The record of a key that is advanced. -/
theorem rises_advance (h : f.WF) {p : ℕ} {r : VersionRecord} {version : ℤ} (hr : (p, r) ∈ f.advanced.elems)
    (hv : 0 < version) :
    f.Rises { f with advanced := (f.advanced.set p { r with version := version }).moveToFront p }
      r.key version none := by
  have hel := LinkedList.elems_set_moveToFront (w := { r with version := version }) hr
  have hwf : WF { f with advanced := (f.advanced.set p { r with version := version }).moveToFront p } := by
    refine ⟨(h.indexed.set (w := { r with version := version }) hr rfl).moveToFront p, fun e he => ?_, ?_, h.capacity_pos⟩
    · rw [LinkedList.mem_moveToFront] at he
      rcases LinkedList.mem_set.mp he with ⟨he, -⟩ | ⟨-, he, -⟩
      · exact h.pos _ he
      · rw [he]; exact hv
    · have hlt : (f.advanced.elems.filter fun e => e.1 ≠ p).length < f.advanced.elems.length :=
        List.length_filter_lt_length_iff_exists.mpr ⟨_, hr, by simp⟩
      simp only [hel, List.length_cons]
      exact le_trans hlt h.bounded
  refine ⟨hwf, rfl, ?_, fun k => ?_, fun _ => Or.inl (List.mem_map.mpr ⟨_, hr, rfl⟩), by simp⟩
  · have hk : VersionFloors.keys
        { f with advanced := (f.advanced.set p { r with version := version }).moveToFront p } =
        r.key :: (f.advanced.elems.filter fun e => e.1 ≠ p).map fun e => e.2.key := by
      show ((f.advanced.set p _).moveToFront p).elems.map _ = _
      rw [hel]
      rfl
    rw [hk, keys_filter h hr]
    simp
  · apply Option.ext
    intro v
    rw [floor?_eq_some hwf]
    simp only [LinkedList.mem_moveToFront, LinkedList.mem_set, reduceCtorEq, if_false]
    split_ifs with hk
    · subst hk
      constructor
      · rintro ⟨q, ⟨hq, hne⟩ | ⟨-, hw, -⟩⟩
        · exact absurd (congrArg Prod.fst (h.indexed.unique hq hr rfl)) hne
        · rw [(VersionRecord.mk.inj hw).2]
      · intro hv'
        rw [Option.some.injEq] at hv'
        subst hv'
        exact ⟨p, Or.inr ⟨rfl, rfl, r, hr⟩⟩
    · rw [floor?_eq_some h]
      refine exists_congr fun q => ⟨?_, fun hq => Or.inl ⟨hq, ?_⟩⟩
      · rintro (⟨hq, -⟩ | ⟨-, hw, -⟩)
        · exact hq
        · exact absurd (VersionRecord.mk.inj hw).1 hk
      · rintro rfl
        exact hk (congrArg VersionRecord.key (LinkedList.eq_of_mem hq hr))

/-- A key that is recorded with room to spare. -/
theorem rises_push (h : f.WF) (key : GoString) (version : ℤ) (hk : f.entries.lookup key = none)
    (hv : 0 < version) (hroom : f.keys.length < f.capacity) :
    f.Rises { f with
      entries := f.entries.insert key (f.advanced.pushFront ⟨key, version⟩).1
      advanced := (f.advanced.pushFront ⟨key, version⟩).2 } key version none := by
  have hne := h.indexed.lookup_eq_none.mp hk
  have hwf : WF { f with
      entries := f.entries.insert key (f.advanced.pushFront ⟨key, version⟩).1
      advanced := (f.advanced.pushFront ⟨key, version⟩).2 } := by
    refine ⟨h.indexed.pushFront (v := ⟨key, version⟩) hk, fun e he => ?_, ?_, h.capacity_pos⟩
    · rcases LinkedList.mem_pushFront.mp he with rfl | he
      · exact hv
      · exact h.pos e he
    · simp only [VersionFloors.keys, List.length_map] at hroom
      exact hroom
  refine ⟨hwf, rfl, ?_, fun k => ?_, fun _ => Or.inr hroom, by simp⟩
  · have hall : f.keys.filter (fun k => k ≠ key) = f.keys := by
      rw [List.filter_eq_self]
      intro k hk'
      obtain ⟨e, he, rfl⟩ := List.mem_map.mp hk'
      simpa using hne e he
    show key :: f.keys = _
    simp only [reduceCtorEq, not_false_eq_true, and_true, ne_eq] at hall ⊢
    rw [hall]
  · apply Option.ext
    intro v
    rw [floor?_eq_some hwf]
    simp only [LinkedList.mem_pushFront, reduceCtorEq, if_false]
    split_ifs with hkk
    · subst hkk
      constructor
      · rintro ⟨q, hq | hq⟩
        · rw [(VersionRecord.mk.inj (Prod.mk.inj hq).2).2]
        · exact absurd rfl (hne _ hq)
      · intro hv'
        rw [Option.some.injEq] at hv'
        subst hv'
        exact ⟨_, Or.inl rfl⟩
    · rw [floor?_eq_some h]
      refine exists_congr fun q => ⟨?_, Or.inr⟩
      rintro (hq | hq)
      · exact absurd (VersionRecord.mk.inj (Prod.mk.inj hq).2).1 hkk
      · exact hq

/-- The floors without their last one. -/
theorem drop_back (h : f.WF) {p : ℕ} {r : VersionRecord} (hr : (p, r) ∈ f.advanced.elems) (n : ℕ) :
    let f' : VersionFloors := ⟨f.capacity, f.entries.erase r.key, f.advanced.remove p, n⟩
    f'.WF ∧ f'.keys = f.keys.filter (fun k => k ≠ r.key) ∧ f'.keys.length < f.keys.length ∧
      ∀ k, f'.floor? k = if k = r.key then none else f.floor? k := by
  intro f'
  have hlt : (f.advanced.elems.filter fun e => e.1 ≠ p).length < f.advanced.elems.length :=
    List.length_filter_lt_length_iff_exists.mpr ⟨_, hr, by simp⟩
  have hkeys : f'.keys = f.keys.filter fun k => k ≠ r.key := keys_filter h hr
  have hwf : f'.WF :=
    ⟨h.indexed.remove hr, fun e he => h.pos e (LinkedList.mem_remove.mp he).1, hlt.le.trans h.bounded,
      h.capacity_pos⟩
  refine ⟨hwf, hkeys, ?_, fun k => ?_⟩
  · simp only [VersionFloors.keys, List.length_map]
    exact hlt
  · apply Option.ext
    intro v
    rw [floor?_eq_some hwf]
    simp only [f', LinkedList.mem_remove]
    split_ifs with hk
    · subst hk
      refine iff_of_false ?_ (by simp)
      rintro ⟨q, hq, hne⟩
      exact hne (congrArg Prod.fst (h.indexed.unique hq hr rfl))
    · rw [floor?_eq_some h]
      refine exists_congr fun q => ⟨And.left, fun hq => ⟨hq, ?_⟩⟩
      rintro rfl
      exact hk (congrArg VersionRecord.key (LinkedList.eq_of_mem hq hr))

end VersionFloors

/-! ### Remembering a version -/

namespace Group

variable {g : Group}

/-- `retire` at capacity: the floor at the back goes, and the epoch of its stripe advances. -/
theorem retire_eq (h : g.floors.WF) (hfull : g.floors.keys.length = g.floors.capacity) :
    ∃ p r, (p, r) ∈ g.floors.advanced.elems ∧ g.floors.keys.getLast? = some r.key ∧
      g.retire = bump { g with
        floors :=
          { g.floors with
            entries := g.floors.entries.erase r.key
            advanced := g.floors.advanced.remove p
            evictions := g.floors.evictions + 1 } } r.key := by
  obtain ⟨x, hx⟩ : ∃ x, g.floors.advanced.elems.getLast? = some x := by
    cases hl : g.floors.advanced.elems.getLast? with
    | some x => exact ⟨x, rfl⟩
    | none =>
      have hnil := List.getLast?_eq_none_iff.mp hl
      have := h.capacity_pos
      simp only [VersionFloors.keys, List.length_map, hnil, List.length_nil] at hfull
      omega
  have hmem := List.mem_of_getLast? hx
  refine ⟨x.1, x.2, hmem, ?_, ?_⟩
  · unfold VersionFloors.keys
    rw [List.getLast?_map, hx]
    rfl
  · unfold retire LinkedList.back
    rw [hx]
    simp only [Option.map_some, LinkedList.get?_eq_some.mpr hmem]

/-- **What `rememberVersionLocked` does**: nothing to a floor that is high enough; otherwise the floor rises, and
at capacity the oldest one is dropped for it. -/
theorem remember_cases (h : g.floors.WF) (key : GoString) (version : ℤ) :
    (version ≤ g.floors.floor key ∧ g.rememberVersionLocked key version = g) ∨
    g.floors.floor key < version ∧ ∃ f' dropped, g.floors.Rises f' key version dropped ∧
      g.rememberVersionLocked key version =
        match dropped with
        | none => { g with floors := f' }
        | some old => bump { g with floors := f' } old := by
  unfold rememberVersionLocked
  by_cases hv : version ≤ 0
  · exact Or.inl ⟨hv.trans (VersionFloors.floor_nonneg h key), if_pos hv⟩
  rw [if_neg hv]
  cases hl : g.floors.entries.lookup key with
  | some p =>
    obtain ⟨r, hr, rfl⟩ := (h.indexed key p).mp hl
    have hfl : g.floors.floor r.key = r.version :=
      VersionFloors.floor_of_some ((VersionFloors.floor?_eq_some h).mpr ⟨p, hr⟩)
    simp only [LinkedList.get?_eq_some.mpr hr]
    by_cases hgt : version > r.version
    · rw [if_pos hgt]
      exact Or.inr ⟨by omega, _, none, VersionFloors.rises_advance h hr (by omega), rfl⟩
    · exact Or.inl ⟨by omega, if_neg hgt⟩
  | none =>
    have hfl : g.floors.floor? key = none := by
      unfold VersionFloors.floor? LinkedList.deref
      rw [hl]
      rfl
    have hkey : key ∉ g.floors.keys := by
      rw [VersionFloors.mem_keys h, hfl]
      simp
    have hlt : g.floors.floor key < version := by
      unfold VersionFloors.floor
      rw [hfl]
      exact not_le.mp hv
    have hlen := VersionFloors.keys_length h
    refine Or.inr ⟨hlt, ?_⟩
    by_cases hfull : g.floors.entries.keys.length = g.floors.capacity
    · -- at capacity: the back leaves first, then the key is recorded with room to spare
      obtain ⟨p, r, hr, hlast, hret⟩ := retire_eq h (hlen.symm.trans hfull)
      obtain ⟨hwf, hks, hless, hfs⟩ := VersionFloors.drop_back h hr (g.floors.evictions + 1)
      have hne : key ≠ r.key := fun e => hkey (e ▸ List.mem_map.mpr ⟨_, hr, rfl⟩)
      have hpush := VersionFloors.rises_push hwf key version
        ((AList.lookup_erase_ne hne).trans hl) (by omega) (hless.trans_eq (hlen.symm.trans hfull))
      simp only [if_pos hfull, hret]
      refine ⟨_, some r.key, ⟨hpush.wf, rfl, ?_, fun k => ?_, by simp, ?_⟩, rfl⟩
      · rw [hpush.keys, hks, List.filter_filter]
        refine congrArg _ (List.filter_congr fun k _ => ?_)
        simp [eq_comm]
      · rw [hpush.floor? k, hfs k]
        simp only [reduceCtorEq, if_false, Option.some.injEq, eq_comm]
      · intro old hold
        rw [Option.some.injEq] at hold
        subst hold
        exact ⟨hkey, hlen.symm.trans hfull, hlast⟩
    · simp only [if_neg hfull]
      have hroom : g.floors.keys.length < g.floors.capacity := by
        have := h.bounded
        simp only [VersionFloors.keys, List.length_map] at hlen ⊢
        omega
      exact ⟨_, none, VersionFloors.rises_push h key version hl (by omega) hroom, rfl⟩

/-! ### The sections -/

/-- The floors and the residents agree: no stored entry is below the floor of its key. -/
structure WF (g : Group) : Prop where
  cache : g.mainCache.WF
  floors : g.floors.WF
  above : ∀ key e, g.mainCache.find? key = some e → g.floors.floor key ≤ e.value.version

/-- The epoch of the stripe of a key. -/
def epoch (g : Group) (key : GoString) : ℕ := g.epochs (g.epochBucket key)

/-- Everything but the cache is kept. -/
theorem knownVersionLocked_eq (g : Group) (key : GoString) (now : ℤ) :
    g.knownVersionLocked key now =
      (max (g.floors.floor key) (g.mainCache.version key now).1,
        { g with mainCache := (g.mainCache.version key now).2 }) := by
  unfold knownVersionLocked VersionFloors.floor VersionFloors.floor? record?
  cases g.floors.advanced.deref g.floors.entries key <;> rfl

/-- A known version is at least the floor and the version of what stays stored. -/
theorem known_ge (h : g.WF) (key : GoString) (now : ℤ) :
    g.floors.floor key ≤ (g.knownVersionLocked key now).1 ∧ 0 ≤ (g.knownVersionLocked key now).1 ∧
    ∀ e, (g.knownVersionLocked key now).2.mainCache.find? key = some e →
      e.value.version ≤ (g.knownVersionLocked key now).1 := by
  have h0 := VersionFloors.floor_nonneg h.floors key
  rw [knownVersionLocked_eq]
  refine ⟨le_max_left _ _, h0.trans (le_max_left _ _), fun e he => ?_⟩
  obtain ⟨-, -, hv⟩ := MainCache.find?_version_self h.cache he
  rw [← hv]
  exact le_max_right _ _

/-- The floor and the entry of a key are not above `b`. -/
def Below (g : Group) (key : GoString) (b : ℤ) : Prop :=
  g.floors.floor key ≤ b ∧ ∀ e, g.mainCache.find? key = some e → e.value.version ≤ b

/-- Then neither is the known version. -/
theorem Below.known_le (h : g.WF) {key : GoString} {b : ℤ} (hb : g.Below key b) (now : ℤ) :
    (g.knownVersionLocked key now).1 ≤ b := by
  have h0 := (VersionFloors.floor_nonneg h.floors key).trans hb.1
  rw [knownVersionLocked_eq]
  refine max_le hb.1 ?_
  rw [MainCache.version_eq h.cache]
  cases hf : g.mainCache.find? key with
  | none => exact h0
  | some e =>
    by_cases he : e.expired now = true
    · simp only [if_pos he]
      exact h0
    · simp only [if_neg he]
      exact hb.2 e hf

theorem WF.setCache (h : g.WF) {c : MainCache} (hw : c.WF) (hs : g.mainCache.Shrinks c) :
    WF { g with mainCache := c } :=
  ⟨hw, h.floors, fun key e he => h.above key e (hs key e he)⟩

theorem WF.known (h : g.WF) (key : GoString) (now : ℤ) : (g.knownVersionLocked key now).2.WF := by
  rw [knownVersionLocked_eq]
  exact h.setCache (h.cache.version key now) (MainCache.shrinks_version h.cache key now)

/-- The sections that only read change no floor and no epoch, and store nothing. -/
structure Reads (g g' : Group) : Prop where
  wf : g'.WF
  eq : g' = { g with mainCache := g'.mainCache }
  shrinks : g.mainCache.Shrinks g'.mainCache

theorem reads_of (h : g.WF) {c : MainCache} (hw : c.WF) (hs : g.mainCache.Shrinks c) :
    g.Reads { g with mainCache := c } :=
  ⟨h.setCache hw hs, rfl, hs⟩

theorem reads_readBarrier (h : g.WF) (key : GoString) (now : ℤ) : g.Reads (g.readBarrier key now).2 := by
  unfold readBarrier
  simp only [knownVersionLocked_eq]
  exact reads_of h (h.cache.version key now) (MainCache.shrinks_version h.cache key now)

/-- The fence holds the epoch of the stripe and a version that is at least the floor. -/
theorem readBarrier_fence (h : g.WF) (key : GoString) (now : ℤ) :
    (g.readBarrier key now).1.epoch = g.epoch key ∧
    g.floors.floor key ≤ (g.readBarrier key now).1.minimum ∧
    ∀ b, g.Below key b → (g.readBarrier key now).1.minimum ≤ b :=
  ⟨rfl, (known_ge h key now).1, fun _ hb => hb.known_le h now⟩

theorem reads_lookup (h : g.WF) (ctx : Option Err) (key : GoString) (now : ℤ) :
    g.Reads (g.lookup ctx key now).2 := by
  obtain ⟨h1, h2, -⟩ := MainCache.get_spec h.cache key now
  unfold lookup
  cases ctx with
  | some e => exact reads_of h h.cache fun _ _ he => he
  | none =>
    simp only
    cases validateKey key with
    | error e => exact reads_of h h.cache fun _ _ he => he
    | ok u =>
      simp only
      cases (g.mainCache.get key now).1 with
      | some v => exact reads_of h h1 h2
      | none =>
        simp only
        split
        · exact reads_of h h1 h2
        · exact reads_of h h1 h2

/-- A hit is a stored value of a valid key. -/
theorem lookup_hit (h : g.WF) {ctx : Option Err} {key : GoString} {now : ℤ} {v : ByteView}
    (hv : (g.lookup ctx key now).1 = .ok (some v)) :
    ValidKey key ∧ ∃ e, g.mainCache.find? key = some e ∧ e.expired now = false ∧ e.value = v := by
  obtain ⟨-, -, h3⟩ := MainCache.get_spec h.cache key now
  unfold lookup at hv
  cases ctx with
  | some e => simp at hv
  | none =>
    simp only [validateKey] at hv
    by_cases hk : ValidKey key
    · rw [if_pos hk] at hv
      simp only at hv
      cases hr : (g.mainCache.get key now).1 with
      | some w =>
        rw [hr] at hv
        simp only [Except.ok.injEq, Option.some.injEq] at hv
        subst hv
        exact ⟨hk, h3 w hr⟩
      | none =>
        rw [hr] at hv
        simp only at hv
        cases hb : g.bloom with
        | none => rw [hb] at hv; simp at hv
        | some bf =>
          rw [hb] at hv
          simp only at hv
          split_ifs at hv
          simp at hv
    · rw [if_neg hk] at hv
      simp at hv

/-- Why a lookup fails: its context, its key, or the Bloom filter. -/
theorem lookup_error {ctx : Option Err} {key : GoString} {now : ℤ} {err : Err}
    (h : (g.lookup ctx key now).1 = .error err) : ctx = some err ∨ ¬ ValidKey key ∨ err = .notFound := by
  unfold lookup at h
  cases ctx with
  | some e =>
    simp only [Except.error.injEq] at h
    exact Or.inl (congrArg some h)
  | none =>
    by_cases hk : ValidKey key
    · simp only [validateKey, if_pos hk] at h
      right; right
      cases hr : (g.mainCache.get key now).1 with
      | some w => rw [hr] at h; simp at h
      | none =>
        rw [hr] at h
        cases hb : g.bloom with
        | none => rw [hb] at h; simp at h
        | some bf =>
          rw [hb] at h
          simp only at h
          split_ifs at h
          simpa using h.symm
    · exact Or.inr (Or.inl hk)

/-- A lookup that does not fail is of a valid key. -/
theorem lookup_valid {ctx : Option Err} {key : GoString} {now : ℤ} {r : Option ByteView}
    (hr : (g.lookup ctx key now).1 = .ok r) : ValidKey key := by
  unfold lookup at hr
  cases ctx with
  | some e => simp at hr
  | none =>
    by_contra hk
    simp only [validateKey, if_neg hk] at hr
    simp at hr

theorem lookupAtLeast_eq (ctx : Option Err) (key : GoString) (minimum now : ℤ) :
    (g.lookupAtLeast ctx key minimum now).2 = (g.lookup ctx key now).2 ∧
    (∀ v, (g.lookupAtLeast ctx key minimum now).1 = .ok (some v) →
      (g.lookup ctx key now).1 = .ok (some v) ∧ minimum ≤ v.version) ∧
    ∀ e, (g.lookupAtLeast ctx key minimum now).1 = .error e → (g.lookup ctx key now).1 = .error e := by
  unfold lookupAtLeast
  generalize g.lookup ctx key now = r
  obtain ⟨e | _ | w, g'⟩ := r
  · exact ⟨rfl, by simp, fun _ h => h⟩
  · exact ⟨rfl, by simp, fun _ h => h⟩
  · refine ⟨rfl, fun v hv => ?_, by simp⟩
    simp only [Except.ok.injEq] at hv
    split_ifs at hv with hlt
    rw [Option.some.injEq] at hv
    subst hv
    exact ⟨rfl, not_lt.mp hlt⟩

theorem reads_cleanExpired (h : g.WF) (busy : Bool) (now start : ℤ) (ticks : ℕ → ℤ) :
    g.Reads (g.cleanExpired busy now start ticks) := by
  obtain ⟨h1, h2⟩ := MainCache.cleanExpired_spec h.cache g.opts.cleanupBatch busy now start ticks
  exact reads_of h h1 h2

/-- **What a fill does**: it changes no floor and no epoch; it stores the value only at the fence's epoch and
only if the value is not below the fence and what is known; and it returns no value below them. -/
structure Fills (g : Group) (key : GoString) (view : ByteView) (fence : ReadFence) (r : Filled) (g' : Group) :
    Prop where
  wf : g'.WF
  eq : g' = { g with mainCache := g'.mainCache }
  stored : ∀ k e, g'.mainCache.find? k = some e → g.mainCache.find? k = some e ∨
    (k = key ∧ r.valid = true ∧ e.value.version = view.version ∧ e.value.readAt = view.readAt)
  valid : r.valid = true →
    fence.epoch = g.epoch key ∧ fence.minimum ≤ view.version ∧ g.floors.floor key ≤ view.version
  ok : ∀ v, r.result = .ok v → v.version = view.version ∧ v.readAt = view.readAt ∧ r.minimum ≤ view.version
  minimum : fence.minimum ≤ r.minimum ∧ g.floors.floor key ≤ r.minimum
  minimum_le : ∀ b, g.Below key b → fence.minimum ≤ b → r.minimum ≤ b
  error : ∀ e, r.result = .error e → e = .staleVersion

/-- A fill gives the value to the cache that the version peek left, or leaves that cache. -/
theorem fill_cases (g : Group) (key : GoString) (view : ByteView) (fence : ReadFence) (now now₁ now₂ : ℤ) :
    let c := (g.mainCache.version key now).2
    let added := c.add key view g.opts.ttl now₁ now₂
    let r := g.fill key view fence now now₁ now₂
    r.1.minimum = max fence.minimum (g.knownVersionLocked key now).1 ∧
    ((r.1.valid = true ∧ fence.epoch = g.epoch key ∧ r.1.minimum ≤ view.version ∧ r.1.result = .ok added.1 ∧
        r.2 = { g with mainCache := added.2 }) ∨
      (r.1.valid = false ∧ (∀ v, r.1.result = .ok v → v = view ∧ r.1.minimum ≤ view.version) ∧
        r.2 = { g with mainCache := c })) := by
  intro c added r
  refine ⟨rfl, ?_⟩
  have hr : r = g.fill key view fence now now₁ now₂ := rfl
  unfold fill at hr
  simp only [knownVersionLocked_eq] at hr
  rw [hr]
  by_cases hstale : view.version < max fence.minimum (max (g.floors.floor key) (g.mainCache.version key now).1)
  · refine Or.inr ⟨by simp [hstale], fun v hv => ?_, by simp [hstale, c]⟩
    simp [hstale] at hv
  · by_cases he : fence.epoch = g.epoch key
    · have he' : fence.epoch =
          g.epochs (epochBucket { g with mainCache := (g.mainCache.version key now).2 } key) := he
      have hm := not_lt.mp hstale
      refine Or.inl ⟨by simp [hstale, ← he'], he, hm, ?_, ?_⟩
      · simp [hstale, ← he', added, c]
      · simp [hstale, ← he', added, c]
    · have he' : ¬ fence.epoch =
          g.epochs (epochBucket { g with mainCache := (g.mainCache.version key now).2 } key) := he
      refine Or.inr ⟨by simp [he'], fun v hv => ?_, by simp [he', c]⟩
      simp only [he', hstale, decide_false, Bool.false_and, Bool.false_eq_true, if_false, Except.ok.injEq] at hv
      exact ⟨hv.symm, not_lt.mp hstale⟩

theorem fill_error {key : GoString} {view : ByteView} {fence : ReadFence} {now now₁ now₂ : ℤ} {e : Err}
    (h : (g.fill key view fence now now₁ now₂).1.result = .error e) : e = .staleVersion := by
  unfold fill at h
  dsimp only at h
  split_ifs at h
  exact (Except.error.inj h).symm

theorem fill_spec (h : g.WF) (key : GoString) (view : ByteView) (fence : ReadFence) (now now₁ now₂ : ℤ) :
    g.Fills key view fence (g.fill key view fence now now₁ now₂).1 (g.fill key view fence now now₁ now₂).2 := by
  obtain ⟨hfl, -, -⟩ := known_ge h key now
  have hc := h.cache.version key now
  have hsh := MainCache.shrinks_version h.cache key now
  obtain ⟨hmin, hcase⟩ := fill_cases g key view fence now now₁ now₂
  have hfm : fence.minimum ≤ (g.fill key view fence now now₁ now₂).1.minimum := by
    rw [hmin]; exact le_max_left _ _
  have hflm : g.floors.floor key ≤ (g.fill key view fence now now₁ now₂).1.minimum := by
    rw [hmin]; exact hfl.trans (le_max_right _ _)
  have hml : ∀ b, g.Below key b → fence.minimum ≤ b → (g.fill key view fence now now₁ now₂).1.minimum ≤ b := by
    intro b hb hf
    rw [hmin]
    exact max_le hf (hb.known_le h now)
  rcases hcase with ⟨hv, he, hle, hres, hg⟩ | ⟨hv, hres, hg⟩
  · obtain ⟨hw, ⟨hver, hra⟩, hst⟩ := MainCache.add_spec hc key view g.opts.ttl now₁ now₂
    have hstored : ∀ k e, (g.fill key view fence now now₁ now₂).2.mainCache.find? k = some e →
        g.mainCache.find? k = some e ∨ (k = key ∧ e.value.version = view.version ∧ e.value.readAt = view.readAt) := by
      intro k e hke
      rw [hg] at hke
      rcases hst k e hke with ⟨hk, hval⟩ | ⟨-, hs⟩
      · exact Or.inr ⟨hk, by rw [hval, hver], by rw [hval, hra]⟩
      · exact Or.inl (hsh k e hs)
    refine ⟨⟨by rw [hg]; exact hw, by rw [hg]; exact h.floors, fun k e hke => ?_⟩, by rw [hg], fun k e hke => ?_,
      fun _ => ⟨he, hfm.trans hle, hflm.trans hle⟩, fun v hres' => ?_, ⟨hfm, hflm⟩, hml, fun _ => fill_error⟩
    · have hfk : (g.fill key view fence now now₁ now₂).2.floors = g.floors := by rw [hg]
      rw [hfk]
      rcases hstored k e hke with hs | ⟨rfl, hval, -⟩
      · exact h.above k e hs
      · rw [hval]; exact hflm.trans hle
    · rcases hstored k e hke with hs | ⟨hk, hval⟩
      · exact Or.inl hs
      · exact Or.inr ⟨hk, hv, hval⟩
    · rw [hres, Except.ok.injEq] at hres'
      subst hres'
      exact ⟨hver, hra, hle⟩
  · have hreads := reads_of h hc hsh
    rw [← hg] at hreads
    refine ⟨hreads.wf, hreads.eq, fun k e hke => Or.inl (hreads.shrinks k e hke), by rw [hv]; simp,
      fun v hres' => ?_, ⟨hfm, hflm⟩, hml, fun _ => fill_error⟩
    obtain ⟨rfl, hle⟩ := hres v hres'
    exact ⟨rfl, rfl, hle⟩

/-- A fill does not replace an entry that its version peek left by one of a smaller version. -/
theorem fill_no_downgrade (h : g.WF) {key : GoString} {view : ByteView} {fence : ReadFence} {now now₁ now₂ : ℤ}
    {e e' : Lru.Entry ByteView} (he : (g.knownVersionLocked key now).2.mainCache.find? key = some e)
    (he' : (g.fill key view fence now now₁ now₂).2.mainCache.find? key = some e') :
    e.value.version ≤ e'.value.version := by
  have hknown := (known_ge h key now).2.2 e he
  rw [knownVersionLocked_eq] at he
  obtain ⟨hmin, ⟨-, -, hle, -, hg⟩ | ⟨-, -, hg⟩⟩ := fill_cases g key view fence now now₁ now₂
  · rw [hg] at he'
    obtain ⟨-, ⟨hver, -⟩, hst⟩ := MainCache.add_spec (h.cache.version key now) key view g.opts.ttl now₁ now₂
    rcases hst key e' he' with ⟨-, hval⟩ | ⟨hne, -⟩
    · rw [hval, hver]
      rw [hmin] at hle
      exact hknown.trans ((le_max_right _ _).trans hle)
    · exact absurd rfl hne
  · rw [hg] at he'
    rw [Option.some.inj (he.symm.trans he')]

theorem bump_epochs (g : Group) (key : GoString) (b : Fin 256) :
    (g.bump key).epochs b = g.epochs b + if b = g.epochBucket key then 1 else 0 := by
  unfold bump
  by_cases hb : b = g.epochBucket key
  · subst hb
    simp
  · simp [hb]

/-- **What `InvalidateVersion` does** with a valid key and version: `known` is the version it finds, `dropped`
the key whose floor it retires. -/
structure Invalidates (g : Group) (key : GoString) (version known : ℤ) (dropped : Option GoString) (g' : Group) :
    Prop where
  wf : g'.WF
  opts : g'.opts = g.opts
  name : g'.name = g.name
  versioned : g'.versioned = g.versioned
  bloom : g'.bloom = g.bloom
  others : ∀ k, k ≠ key → g'.mainCache.find? k = g.mainCache.find? k
  own : ∀ e, g'.mainCache.find? key = some e →
    g.mainCache.find? key = some e ∧ version ≠ 0 ∧ max known version ≤ e.value.version ∧ e.value.version ≤ known
  floors : (max known version ≤ g.floors.floor key ∧ dropped = none ∧ g'.floors = g.floors) ∨
    (g.floors.floor key < max known version ∧ g.floors.Rises g'.floors key (max known version) dropped)
  epochs : ∀ b, g'.epochs b = g.epochs b + (if dropped.map g.epochBucket = some b then 1 else 0) +
    (if (version = 0 ∨ version > known) ∧ b = g.epochBucket key then 1 else 0)

/-- The end of the section: what stays under the key has at least the minimum. -/
theorem evictBelow_spec (h : g.mainCache.WF) (key : GoString) (version minimum now' : ℤ) :
    ∃ c : MainCache, g.evictBelow key version minimum now' = { g with mainCache := c } ∧ c.WF ∧
      (∀ k, k ≠ key → c.find? k = g.mainCache.find? k) ∧
      ∀ e, c.find? key = some e → g.mainCache.find? key = some e ∧ version ≠ 0 ∧ minimum ≤ e.value.version := by
  have hw := h.version key now'
  unfold evictBelow
  split_ifs with h0
  · refine ⟨_, rfl, h.remove key, fun k hk => by rw [MainCache.find?_remove h, if_neg hk], fun e he => ?_⟩
    rw [MainCache.find?_remove h, if_pos rfl] at he
    simp at he
  · refine ⟨_, rfl, ?_⟩
    split_ifs with hlt
    · refine ⟨hw.remove key, fun k hk => ?_, fun e he => ?_⟩
      · rw [MainCache.find?_remove hw, if_neg hk, MainCache.find?_version_ne h now' hk]
      · rw [MainCache.find?_remove hw, if_pos rfl] at he
        simp at he
    · refine ⟨hw, fun k hk => MainCache.find?_version_ne h now' hk, fun e he => ?_⟩
      obtain ⟨h1, -, h2⟩ := MainCache.find?_version_self h he
      exact ⟨h1, h0, by rw [← h2]; exact not_lt.mp hlt⟩

/-- The floors and the epochs of the section. -/
theorem remember_bump (h : g.floors.WF) (key : GoString) (version : ℤ) (applied : Bool) :
    ∃ dropped,
      let g' := if applied = true then (g.rememberVersionLocked key version).bump key
        else g.rememberVersionLocked key version
      g' = { g with floors := g'.floors, epochs := g'.epochs } ∧
      ((version ≤ g.floors.floor key ∧ dropped = none ∧ g'.floors = g.floors) ∨
        (g.floors.floor key < version ∧ g.floors.Rises g'.floors key version dropped)) ∧
      ∀ b, g'.epochs b = g.epochs b + (if dropped.map g.epochBucket = some b then 1 else 0) +
        (if applied = true ∧ b = g.epochBucket key then 1 else 0) := by
  have hep : ∀ (g₁ : Group) (b : Fin 256), g₁.epochBucket key = g.epochBucket key →
      (if applied = true then g₁.bump key else g₁).epochs b =
        g₁.epochs b + if applied = true ∧ b = g.epochBucket key then 1 else 0 := by
    intro g₁ b hb
    cases applied with
    | false => simp
    | true => simp [bump_epochs, hb]
  rcases remember_cases h key version with ⟨hle, he⟩ | ⟨hlt, f', dropped, hr, he⟩
  · refine ⟨none, ?_⟩
    rw [he]
    refine ⟨by cases applied <;> rfl, Or.inl ⟨hle, rfl, by cases applied <;> rfl⟩, fun b => ?_⟩
    rw [hep g b rfl]
    simp
  · refine ⟨dropped, ?_⟩
    rw [he]
    cases dropped with
    | none =>
      refine ⟨by cases applied <;> rfl, Or.inr ⟨hlt, by cases applied <;> exact hr⟩, fun b => ?_⟩
      refine (hep { g with floors := f' } b rfl).trans ?_
      simp
    | some old =>
      refine ⟨by cases applied <;> rfl, Or.inr ⟨hlt, by cases applied <;> exact hr⟩, fun b => ?_⟩
      refine (hep (bump { g with floors := f' } old) b rfl).trans ?_
      rw [bump_epochs]
      simp only [Option.map_some, Option.some.injEq, eq_comm]
      rfl

/-- A refused call changes nothing. -/
theorem invalidate_refused {key : GoString} {version : ℤ} (h : ¬ (ValidKey key ∧ 0 ≤ version)) (now now' : ℤ) :
    (∃ e, (g.invalidateVersion key version now now').1 = .error e) ∧
      (g.invalidateVersion key version now now').2 = g := by
  unfold invalidateVersion validateKey
  by_cases hk : ValidKey key
  · rw [if_pos hk]
    simp only [if_pos (not_le.mp fun hv => h ⟨hk, hv⟩)]
    exact ⟨⟨_, rfl⟩, trivial⟩
  · rw [if_neg hk]
    exact ⟨⟨_, rfl⟩, rfl⟩

theorem invalidate_spec (h : g.WF) {key : GoString} (hk : ValidKey key) {version : ℤ} (hv : 0 ≤ version)
    (now now' : ℤ) :
    (g.invalidateVersion key version now now').1 =
      .ok (decide (version = 0 ∨ version > (g.knownVersionLocked key now).1)) ∧
    ∃ dropped, g.Invalidates key version (g.knownVersionLocked key now).1 dropped
      (g.invalidateVersion key version now now').2 := by
  have hwf₁ := h.known key now
  have hk2 : (g.knownVersionLocked key now).2 = { g with mainCache := (g.mainCache.version key now).2 } := by
    rw [knownVersionLocked_eq]
  have hsh := MainCache.shrinks_version h.cache key now
  obtain ⟨-, -, hkn⟩ := known_ge h key now
  unfold invalidateVersion validateKey
  rw [if_pos hk]
  simp only [if_neg (not_lt.mpr hv)]
  generalize g.knownVersionLocked key now = kn at hwf₁ hk2 hkn ⊢
  obtain ⟨known, g₁⟩ := kn
  simp only at hwf₁ hk2 hkn ⊢
  obtain ⟨dropped, heq, hfl, hep⟩ :=
    remember_bump hwf₁.floors key (max known version) (decide (version = 0 ∨ version > known))
  generalize hg₂ : (if decide (version = 0 ∨ version > known) = true
    then (g₁.rememberVersionLocked key (max known version)).bump key
    else g₁.rememberVersionLocked key (max known version)) = g₂ at heq hfl hep ⊢
  have hcache : g₂.mainCache = (g.mainCache.version key now).2 := by rw [heq, hk2]
  obtain ⟨c, hc, hcw, hco, hcs⟩ :=
    evictBelow_spec (hcache ▸ h.cache.version key now : g₂.mainCache.WF) key version (max known version) now'
  rw [hc]
  subst hk2
  refine ⟨trivial, dropped, ⟨⟨hcw, ?_, fun k e he => ?_⟩, ?_, ?_, ?_, ?_, fun k hkk => ?_, fun e he => ?_, hfl,
    fun b => ?_⟩⟩
  · rcases hfl with ⟨-, -, hf⟩ | ⟨-, hr⟩
    · rw [hf]; exact h.floors
    · exact hr.wf
  · -- the floor rose to the minimum under the key and nowhere else
    by_cases hkk : k = key
    · subst hkk
      obtain ⟨h1, -, h2⟩ := hcs e he
      rw [hcache] at h1
      rcases hfl with ⟨-, -, hf⟩ | ⟨-, hr⟩
      · rw [hf]; exact h.above k e (hsh k e h1)
      · have hf : g₂.floors.floor? k = some (max known version) := by rw [hr.floor? k, if_pos rfl]
        simp only [VersionFloors.floor_of_some hf]
        exact h2
    · have h1 : g.mainCache.find? k = some e := by
        rw [← MainCache.find?_version_ne h.cache now hkk, ← hcache, ← hco k hkk]
        exact he
      have hab := h.above k e h1
      rcases hfl with ⟨-, -, hf⟩ | ⟨-, hr⟩
      · rw [hf]; exact hab
      · refine le_trans ?_ hab
        have h0 := VersionFloors.floor_nonneg h.floors k
        unfold VersionFloors.floor at h0 ⊢
        rw [hr.floor? k, if_neg hkk]
        split_ifs
        · exact h0
        · exact le_rfl
  · rw [heq]
  · rw [heq]
  · rw [heq]
  · rw [heq]
  · exact (hco k hkk).trans (by rw [hcache]; exact MainCache.find?_version_ne h.cache now hkk)
  · obtain ⟨h1, h2, h3⟩ := hcs e he
    rw [hcache] at h1
    exact ⟨hsh key e h1, h2, h3, hkn e h1⟩
  · have := hep b
    simp only [decide_eq_true_eq] at this
    exact this

end Group

end SimpleCache.Cache
