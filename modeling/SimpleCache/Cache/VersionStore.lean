import Mathlib.Data.List.Dedup
import SimpleCache.Cache.Floors
import SimpleCache.Lib.Run

/-!
# Cache.VersionStore — the version store of a group over every sequence of sections

The sections of a group as a state machine.  `version_store` holds in every reachable state: the map and the list
of the floors agree, the order of the list is the order of the last rises, no resident is below its floor, and a
floor is only dropped for a new key at capacity, together with the flights of its stripe.
-/

namespace SimpleCache.Cache

open SimpleCache.Lib

/-- A section with its arguments and its readings of the clock. -/
inductive Section
  | fill (key : GoString) (view : ByteView) (fence : ReadFence) (now now₁ now₂ : ℤ)
  | invalidate (key : GoString) (version : ℤ) (now now' : ℤ)
  | lookup (ctx : Option Err) (key : GoString) (now : ℤ)
  | barrier (key : GoString) (now : ℤ)
  | clean (busy : Bool) (now start : ℤ) (ticks : ℕ → ℤ)

/-- What a section returns; `rose` says whether the floor of the key is higher than before. -/
inductive Outcome
  | filled (r : Group.Filled)
  | invalidated (r : Except Err Bool) (rose : Bool)
  | found (r : Except Err (Option ByteView))
  | fence (f : ReadFence)
  | cleaned

/-- One section. -/
def Group.step (g : Group) (a : Section) : Option (Group × Outcome) :=
  match a with
  | .fill key view fence now now₁ now₂ =>
    let r := g.fill key view fence now now₁ now₂
    some (r.2, .filled r.1)
  | .invalidate key version now now' =>
    let r := g.invalidateVersion key version now now'
    some (r.2, .invalidated r.1 (decide (g.floors.floor key < r.2.floors.floor key)))
  | .lookup ctx key now =>
    let r := g.lookup ctx key now
    some (r.2, .found r.1)
  | .barrier key now =>
    let r := g.readBarrier key now
    some (r.2, .fence r.1)
  | .clean busy now start ticks => some (g.cleanExpired busy now start ticks, .cleaned)

abbrev SectionEvent := Section × Outcome

/-- The key whose floor a section raised. -/
def riseOf : SectionEvent → Option GoString
  | (.invalidate key _ _ _, .invalidated _ true) => some key
  | _ => none

/-- The rises of a history, in order. -/
def rises (tr : List SectionEvent) : List GoString := tr.filterMap riseOf

/-! ### One section -/

/-- What a section can be for the version store: it reads, it fills, it is refused, or it invalidates. -/
theorem Group.step_cases {g g' : Group} {a : Section} {o : Outcome} (h : g.WF) (hst : g.step a = some (g', o)) :
    g'.WF ∧ g'.opts = g.opts ∧
    ((g'.floors = g.floors ∧ g'.epochs = g.epochs ∧ riseOf (a, o) = none ∧
        ∀ key version now now', a = .invalidate key version now now' → g' = g) ∨
      ∃ key version now now' dropped, a = .invalidate key version now now' ∧
        g.Invalidates key version (g.knownVersionLocked key now).1 dropped g' ∧
        riseOf (a, o) = if g.floors.floor key < g'.floors.floor key then some key else none) := by
  cases a with
  | fill key view fence now now₁ now₂ =>
    simp only [step, Option.some.injEq, Prod.mk.injEq] at hst
    obtain ⟨rfl, rfl⟩ := hst
    have hf := fill_spec h key view fence now now₁ now₂
    exact ⟨hf.wf, by rw [hf.eq], Or.inl ⟨by rw [hf.eq], by rw [hf.eq], rfl, by simp⟩⟩
  | invalidate key version now now' =>
    simp only [step, Option.some.injEq, Prod.mk.injEq] at hst
    obtain ⟨rfl, rfl⟩ := hst
    by_cases hok : ValidKey key ∧ 0 ≤ version
    · obtain ⟨-, dropped, hinv⟩ := invalidate_spec h hok.1 hok.2 now now'
      refine ⟨hinv.wf, hinv.opts, Or.inr ⟨key, version, now, now', dropped, rfl, hinv, ?_⟩⟩
      split_ifs with hr
      · rw [decide_eq_true hr]; rfl
      · rw [decide_eq_false hr]; rfl
    · -- refused: nothing changes
      rw [(invalidate_refused hok now now').2]
      exact ⟨h, rfl, Or.inl ⟨rfl, rfl, by simp [riseOf], fun _ _ _ _ _ => rfl⟩⟩
  | lookup ctx key now =>
    simp only [step, Option.some.injEq, Prod.mk.injEq] at hst
    obtain ⟨rfl, rfl⟩ := hst
    have hr := reads_lookup h ctx key now
    exact ⟨hr.wf, by rw [hr.eq], Or.inl ⟨by rw [hr.eq], by rw [hr.eq], rfl, by simp⟩⟩
  | barrier key now =>
    simp only [step, Option.some.injEq, Prod.mk.injEq] at hst
    obtain ⟨rfl, rfl⟩ := hst
    have hr := reads_readBarrier h key now
    exact ⟨hr.wf, by rw [hr.eq], Or.inl ⟨by rw [hr.eq], by rw [hr.eq], rfl, by simp⟩⟩
  | clean busy now start ticks =>
    simp only [step, Option.some.injEq, Prod.mk.injEq] at hst
    obtain ⟨rfl, rfl⟩ := hst
    have hr := reads_cleanExpired h busy now start ticks
    exact ⟨hr.wf, by rw [hr.eq], Or.inl ⟨by rw [hr.eq], by rw [hr.eq], rfl, by simp⟩⟩

/-! ### Histories -/

theorem wf_newGroup {name : GoString} {capacity : ℤ} {versioned : Bool} {bloom : Option BloomFilter}
    {opts : Options} {g : Group} (h : newGroup name capacity versioned bloom opts = some g) :
    g.WF ∧ g.floors.keys = [] := by
  unfold newGroup at h
  split_ifs at h
  obtain ⟨o, -, rfl⟩ := Option.map_eq_some_iff.mp h
  refine ⟨⟨by simp [MainCache.WF], ⟨.empty, by simp [LinkedList.empty], by simp [LinkedList.empty], ?_⟩, ?_⟩, rfl⟩
  · simp [defaultVersionRecords]
  · intro key e he
    simp [MainCache.find?] at he

theorem dedup_snoc {α : Type} [DecidableEq α] (l : List α) (a : α) :
    (l ++ [a]).dedup = l.dedup.filter (fun x => x ≠ a) ++ [a] := by
  induction l with
  | nil => simp
  | cons x l ih =>
    by_cases hx : x ∈ l
    · rw [List.cons_append, List.dedup_cons_of_mem (List.mem_append_left _ hx), List.dedup_cons_of_mem hx, ih]
    · rw [List.dedup_cons_of_notMem hx]
      by_cases hxa : x = a
      · subst hxa
        rw [List.cons_append, List.dedup_cons_of_mem (by simp), List.filter_cons_of_neg (by simp), ih]
      · rw [List.cons_append, List.dedup_cons_of_notMem (by simp [hx, hxa]),
          List.filter_cons_of_pos (by simpa using hxa), ih, List.cons_append]

/-- The state is well formed and the floors stand in the order of their last rises. -/
structure Ordered (tr : List SectionEvent) (g : Group) : Prop where
  wf : g.WF
  order : g.floors.keys.reverse = (rises tr).dedup.filter fun k => k ∈ g.floors.keys

theorem rises_snoc (tr : List SectionEvent) (ev : SectionEvent) :
    rises (tr ++ [ev]) = rises tr ++ (riseOf ev).toList := by
  unfold rises
  rw [List.filterMap_append]
  cases hr : riseOf ev with
  | none => simp [hr]
  | some k => simp [hr]

/-- A rise moves its key to the front and keeps the rest in order. -/
theorem order_rise {f f' : VersionFloors} {key : GoString} {version : ℤ} {dropped : Option GoString}
    {rs : List GoString} (hr : f.Rises f' key version dropped)
    (h : f.keys.reverse = rs.dedup.filter fun k => k ∈ f.keys) :
    f'.keys.reverse = (rs ++ [key]).dedup.filter fun k => k ∈ f'.keys := by
  have hmem : ∀ k, k ∈ f'.keys ↔ k = key ∨ (k ∈ f.keys ∧ k ≠ key ∧ dropped ≠ some k) := by
    intro k
    rw [hr.keys, List.mem_cons, List.mem_filter]
    simp
  rw [dedup_snoc, List.filter_append, List.filter_filter]
  have hlast : [key].filter (fun k => k ∈ f'.keys) = [key] :=
    List.filter_eq_self.mpr fun k hk => decide_eq_true ((hmem k).mpr (Or.inl (List.mem_singleton.mp hk)))
  rw [hlast, hr.keys, List.reverse_cons, ← List.filter_reverse, h, List.filter_filter]
  refine congrArg (· ++ [key]) (List.filter_congr fun k _ => ?_)
  rw [Bool.eq_iff_iff]
  simp only [Bool.and_eq_true, decide_eq_true_eq, List.mem_cons, List.mem_filter]
  tauto

theorem Ordered.step {tr : List SectionEvent} {g g' : Group} {a : Section} {o : Outcome} (h : Ordered tr g)
    (hst : g.step a = some (g', o)) : Ordered (tr ++ [(a, o)]) g' := by
  obtain ⟨hwf, -, ⟨hf, -, hr, -⟩ | ⟨key, version, now, now', dropped, -, hinv, hr⟩⟩ := Group.step_cases h.wf hst
  · refine ⟨hwf, ?_⟩
    rw [rises_snoc, hr, hf]
    simpa using h.order
  · refine ⟨hwf, ?_⟩
    rw [rises_snoc, hr]
    rcases hinv.floors with ⟨-, -, hf⟩ | ⟨hlt, hrise⟩
    · rw [hf]
      simpa using h.order
    · have hfl : g'.floors.floor key = max (g.knownVersionLocked key now).1 version :=
        VersionFloors.floor_of_some (by rw [hrise.floor? key, if_pos rfl])
      rw [hfl, if_pos hlt]
      exact order_rise hrise h.order

theorem ordered_run {name : GoString} {capacity : ℤ} {versioned : Bool} {bloom : Option BloomFilter}
    {opts : Options} {g₀ g : Group} {tr : List SectionEvent}
    (h₀ : newGroup name capacity versioned bloom opts = some g₀) (h : Run Group.step g₀ tr g) : Ordered tr g := by
  obtain ⟨hwf, hk⟩ := wf_newGroup h₀
  refine h.rec_inv (I := Ordered) ⟨hwf, ?_⟩ fun tr g a o g' _ hI hst => hI.step hst
  rw [hk]
  rfl

/-! ### The version store -/

/-- A floor that goes is the oldest, goes for a new key at capacity, and takes the epoch of its stripe along. -/
theorem Group.Invalidates.dropped {g g' : Group} {key k : GoString} {version known : ℤ} {dropped : Option GoString}
    (h : g.Invalidates key version known dropped g') {v : ℤ} (hv : g.floors.floor? k = some v)
    (hn : g'.floors.floor? k = none) :
    g.floors.keys.length = g.floors.capacity ∧ g.floors.keys.getLast? = some k ∧ g.epoch k < g'.epoch k ∧
      key ∉ g.floors.keys ∧ g'.floors.floor? key ≠ none := by
  rcases h.floors with ⟨-, -, hf⟩ | ⟨-, hr⟩
  · rw [hf, hv] at hn; simp at hn
  · have hk := hr.floor? k
    rw [hn] at hk
    split_ifs at hk with hkk hd
    · obtain ⟨hnew, hfull, hlast⟩ := hr.full k hd
      refine ⟨hfull, hlast, ?_, hnew, by rw [hr.floor? key, if_pos rfl]; simp⟩
      have hb : g'.epochBucket k = g.epochBucket k := by simp only [Group.epochBucket, h.opts]
      unfold Group.epoch
      rw [hb, h.epochs, hd]
      simp only [Option.map_some, if_true]
      omega
    · rw [hv] at hk; simp at hk

/-- **The version store.**  In every reachable state the map and the list of the floors hold the same keys, each
once, at most `capacity`, all with positive versions; the list is in the order of the last rises; and no resident
entry is below the floor of its key.  From there, one more section lowers no retained floor; a fill replaces no
entry that its version peek left by one of a smaller version; a floor is dropped only for a new key at capacity,
from the back of the list and with an advance of the epoch of its stripe; and an invalidation touches no resident
entry of another key and no other stripe than that of its key and that of the dropped key. -/
theorem version_store {name : GoString} {capacity : ℤ} {versioned : Bool} {bloom : Option BloomFilter}
    {opts : Options} {g₀ g : Group} {tr : List SectionEvent}
    (h₀ : newGroup name capacity versioned bloom opts = some g₀) (h : Run Group.step g₀ tr g) :
    (g.floors.keys.Nodup ∧ g.floors.keys.Perm g.floors.entries.keys ∧
      g.floors.keys.length ≤ g.floors.capacity ∧ ∀ key v, g.floors.floor? key = some v → 0 < v) ∧
    (g.floors.keys.reverse = (rises tr).dedup.filter fun k => k ∈ g.floors.keys) ∧
    (∀ key e v, g.mainCache.find? key = some e → g.floors.floor? key = some v → v ≤ e.value.version) ∧
    ∀ a o g', g.step a = some (g', o) →
      (∀ key v v', g.floors.floor? key = some v → g'.floors.floor? key = some v' → v ≤ v') ∧
      (∀ key view fence now now₁ now₂, a = .fill key view fence now now₁ now₂ → ∀ e e',
        (g.knownVersionLocked key now).2.mainCache.find? key = some e → g'.mainCache.find? key = some e' →
        e.value.version ≤ e'.value.version) ∧
      (∀ k v, g.floors.floor? k = some v → g'.floors.floor? k = none →
        g.floors.keys.length = g.floors.capacity ∧ g.floors.keys.getLast? = some k ∧ g.epoch k < g'.epoch k ∧
        ∃ key version now now', a = .invalidate key version now now' ∧ key ∉ g.floors.keys ∧
          key ∈ g'.floors.keys) ∧
      (∀ key version now now', a = .invalidate key version now now' →
        (∀ k, k ≠ key → g'.mainCache.find? k = g.mainCache.find? k) ∧
        ∀ b, g'.epochs b ≠ g.epochs b → b = g.epochBucket key ∨
          ∃ old, g.floors.floor? old ≠ none ∧ g'.floors.floor? old = none ∧ b = g.epochBucket old) := by
  have ho := ordered_run h₀ h
  have hf := ho.wf.floors
  refine ⟨⟨VersionFloors.keys_nodup hf, hf.indexed.keys_perm, ?_, fun key v => VersionFloors.floor?_pos hf⟩,
    ho.order, fun key e v he hv => ?_, fun a o g' hst => ?_⟩
  · simp only [VersionFloors.keys, List.length_map]
    exact hf.bounded
  · rw [← VersionFloors.floor_of_some hv]
    exact ho.wf.above key e he
  obtain ⟨hwf', -, hcase⟩ := Group.step_cases ho.wf hst
  refine ⟨fun key v v' hv hv' => ?_, fun key view fence now now₁ now₂ ha e e' he he' => ?_,
    fun k v hv hn => ?_, fun key version now now' ha => ?_⟩
  · rcases hcase with ⟨hfl, -⟩ | ⟨key', version, now, now', dropped, -, hinv, -⟩
    · rw [hfl, hv] at hv'
      exact (Option.some.inj hv').le
    · rcases hinv.floors with ⟨-, -, hfl⟩ | ⟨hlt, hr⟩
      · rw [hfl, hv] at hv'
        exact (Option.some.inj hv').le
      · rw [hr.floor? key] at hv'
        split_ifs at hv' with hk
        · subst hk
          rw [VersionFloors.floor_of_some hv, Option.some.inj hv'] at hlt
          exact hlt.le
        · rw [hv] at hv'
          exact (Option.some.inj hv').le
  · subst ha
    simp only [Group.step, Option.some.injEq, Prod.mk.injEq] at hst
    rw [← hst.1] at he'
    exact Group.fill_no_downgrade ho.wf he he'
  · rcases hcase with ⟨hfl, -⟩ | ⟨key, version, now, now', dropped, ha, hinv, -⟩
    · rw [hfl, hv] at hn; simp at hn
    · obtain ⟨h1, h2, h3, h4, h5⟩ := hinv.dropped hv hn
      exact ⟨h1, h2, h3, key, version, now, now', ha, h4,
        (VersionFloors.mem_keys hwf'.floors).mpr (Option.isSome_iff_ne_none.mpr h5)⟩
  · rcases hcase with ⟨-, -, -, hsame⟩ | ⟨key', version', n, n', dropped, ha', hinv, -⟩
    · rw [hsame key version now now' ha]
      exact ⟨fun _ _ => rfl, fun b hb => absurd rfl hb⟩
    · rw [ha] at ha'
      obtain ⟨rfl, rfl, rfl, rfl⟩ := Section.invalidate.inj ha'
      refine ⟨hinv.others, fun b hb => ?_⟩
      rw [hinv.epochs b] at hb
      by_cases hbk : b = g.epochBucket key
      · exact Or.inl hbk
      · -- not the stripe of the key: it is that of the dropped one
        right
        cases hd : dropped with
        | none => rw [hd] at hb; simp [hbk] at hb
        | some old =>
          rw [hd] at hb
          have hbo : g.epochBucket old = b := by
            by_contra hne
            simp [hne, hbk] at hb
          rcases hinv.floors with ⟨-, hdn, -⟩ | ⟨-, hr⟩
          · rw [hd] at hdn; simp at hdn
          · obtain ⟨hnew, -, hlast⟩ := hr.full old hd
            have hold : old ∈ g.floors.keys := List.mem_of_getLast? hlast
            have hne : old ≠ key := fun e => hnew (e ▸ hold)
            refine ⟨old, ?_, ?_, hbo.symm⟩
            · exact Option.isSome_iff_ne_none.mp ((VersionFloors.mem_keys hf).mp hold)
            · rw [hr.floor? old, if_neg hne, if_pos hd]

/-- A group of a thousand bytes with the default options. -/
def smallGroup : Group := (newGroup [103] 1000 true none ⟨0, 0, 0, 0, 0, 0⟩).get rfl

theorem smallGroup_eq : newGroup [103] 1000 true none ⟨0, 0, 0, 0, 0, 0⟩ = some smallGroup := rfl

/-- A version of each of two keys, and an older one of the first. -/
def replayed : List Section :=
  [.invalidate [97] 5 0 0, .invalidate [98] 3 0 0, .invalidate [97] 4 0 0]

/-- The older version does not move its key to the front. -/
theorem version_store_replayed :
    ∃ g₀ tr g, newGroup [103] 1000 true none ⟨0, 0, 0, 0, 0, 0⟩ = some g₀ ∧ Run Group.step g₀ tr g ∧
      rises tr = [[97], [98]] ∧ g.floors.keys.reverse = [[97], [98]] := by
  have hrun := exec_run Group.step replayed smallGroup _ _ rfl
  exact ⟨_, _, _, smallGroup_eq, hrun, by decide, (version_store smallGroup_eq hrun).2.1.trans (by decide)⟩

end SimpleCache.Cache
