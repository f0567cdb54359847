import SimpleCache.Cache.Moves
import SimpleCache.Cache.VersionStore

/-!
# Cache.Freshness — what a notification guarantees to later Gets

A notification makes itself felt in two ways: through the floor of its key, as long as it is retained, and through
the epoch of its stripe, which advances when the notification is new to the group or the floor is retired.  A
fence that was captured before can only return a value to callers that share its epoch and its minimum, and can
only insert at its own epoch.  `Watch` is what this argument needs, `After` its invariant, and the two results of
this module are two instances: `no_stale_read` for versions over a source that reads its own commits, and
`causal_freshness` for the time at which any source was called.
-/

namespace SimpleCache.Cache

open SimpleCache.Lib

namespace Engine

/-! ### The group across one action -/

namespace GroupStep

variable {s : Engine} {a : Act} {o : Ans} {g' : Group}

theorem wf (h : GroupStep s a o g') : g'.WF := by
  cases h with
  | reads hr _ => exact hr.wf
  | fills _ hf _ => exact hf.wf
  | invalidates _ _ _ hi _ => exact hi.wf

theorem versioned (h : GroupStep s a o g') : g'.versioned = s.group.versioned := by
  cases h with
  | reads hr _ => rw [hr.eq]
  | fills _ hf _ => rw [hf.eq]
  | invalidates _ _ _ hi _ => exact hi.versioned

/-- Epochs never go back. -/
theorem epoch_le (h : GroupStep s a o g') (key : GoString) : s.group.epoch key ≤ g'.epoch key := by
  cases h with
  | reads hr _ => rw [hr.eq]; exact le_rfl
  | fills _ hf _ => rw [hf.eq]; exact le_rfl
  | invalidates _ _ _ hi _ =>
    have hb : g'.epochBucket key = s.group.epochBucket key := by simp only [Group.epochBucket, hi.opts]
    unfold Group.epoch
    rw [hb, hi.epochs]
    omega

/-- A floor only goes back together with an advance of its epoch. -/
theorem floor_le_or (h : GroupStep s a o g') (key : GoString) :
    s.group.floors.floor key ≤ g'.floors.floor key ∨ s.group.epoch key < g'.epoch key := by
  cases h with
  | reads hr _ => rw [hr.eq]; exact Or.inl le_rfl
  | fills _ hf _ => rw [hf.eq]; exact Or.inl le_rfl
  | invalidates _ _ _ hi _ =>
    cases hv : s.group.floors.floor? key with
    | none =>
      have h0 : s.group.floors.floor key = 0 := by unfold VersionFloors.floor; rw [hv]; rfl
      rw [h0]
      exact Or.inl (VersionFloors.floor_nonneg hi.wf.floors key)
    | some v =>
      cases hv' : g'.floors.floor? key with
      | none => exact Or.inr (hi.dropped hv hv').2.2.1
      | some v' =>
        left
        rw [VersionFloors.floor_of_some hv, VersionFloors.floor_of_some hv']
        rcases hi.floors with ⟨-, -, hf⟩ | ⟨hlt, hr⟩
        · rw [hf, hv] at hv'
          exact (Option.some.inj hv').le
        · rw [hr.floor? key] at hv'
          split_ifs at hv' with hk
          · subst hk
            rw [VersionFloors.floor_of_some hv, Option.some.inj hv'] at hlt
            exact hlt.le
          · rw [hv] at hv'
            exact (Option.some.inj hv').le

/-- What is stored after an action was stored before, or was just loaded at the current epoch and above the
floor. -/
theorem stored (h : GroupStep s a o g') {key : GoString} {e : Lru.Entry ByteView}
    (he : g'.mainCache.find? key = some e) : s.group.mainCache.find? key = some e ∨
      ∃ f fl attempt fence view, s.flights f = some fl ∧ fl.key = key ∧ fl.phase = .loaded attempt fence view ∧
        fence.epoch = s.group.epoch key ∧ s.group.floors.floor key ≤ view.version ∧
        e.value.version = view.version ∧ e.value.readAt = view.readAt := by
  cases h with
  | reads hr _ => exact Or.inl (hr.shrinks key e he)
  | fills hfl hf _ =>
    rcases hf.stored key e he with hs | ⟨rfl, hv, h1, h2⟩
    · exact Or.inl hs
    · obtain ⟨h3, -, h4⟩ := hf.valid hv
      exact Or.inr ⟨_, _, _, _, _, hfl, rfl, rfl, h3, h4, h1, h2⟩
  | @invalidates key' version now now' dropped _ _ _ hi _ =>
    by_cases hk : key = key'
    · subst hk
      exact Or.inl (hi.own e he).1
    · rw [hi.others key hk] at he
      exact Or.inl he

end GroupStep

/-! ### The invariant of the engine -/

/-- No fence is ahead of its stripe, and no flight is below the minimum of its name. -/
structure FlightInv (s : Engine) (fl : Flight) : Prop where
  valid : ValidKey fl.key
  epoch : fl.fence.epoch ≤ s.group.epoch fl.key
  captured : fl.captured < s.tick
  current : ∀ fence, fl.phase.fence? = some fence →
    fence.epoch ≤ s.group.epoch fl.key ∧ fl.fence.minimum ≤ fence.minimum
  returned : ∀ v, fl.phase = .returned (.ok v) → fl.fence.minimum ≤ v.version

/-- What is known of a call in each of its states. -/
def CallInv (s : Engine) (call : GetCall) : Prop :=
  call.began < s.tick ∧
  match call.state with
  | .started | .answered => True
  | .missed | .admitted => ValidKey call.key
  | .fenced fence captured => ValidKey call.key ∧ fence.epoch ≤ s.group.epoch call.key ∧ captured < s.tick
  | .waiting f => ValidKey call.key ∧ ∃ fl, s.flights f = some fl ∧ fl.key = call.key

structure Inv (s : Engine) : Prop where
  wf : s.group.WF
  fresh : ∀ f, s.next ≤ f → s.flights f = none
  valid : ∀ key e, s.group.mainCache.find? key = some e → ValidKey key
  flights : ∀ f fl, s.flights f = some fl → FlightInv s fl
  calls : ∀ c call, s.calls c = some call → CallInv s call

theorem inv_init {name : GoString} {capacity : ℤ} {versioned : Bool} {bloom : Option BloomFilter} {opts : Options}
    {g : Group} (h : newGroup name capacity versioned bloom opts = some g) : Inv (init g) := by
  refine ⟨(wf_newGroup h).1, fun _ _ => rfl, fun key e he => ?_, by simp [init], by simp [init]⟩
  unfold newGroup at h
  split_ifs at h
  obtain ⟨o, -, rfl⟩ := Option.map_eq_some_iff.mp h
  simp [init, MainCache.find?] at he

section Step

variable {s s' : Engine} {a : Act} {o : Ans}

theorem FlightInv.mono (h : Moves s a o s') {fl : Flight} (hfl : FlightInv s fl) : FlightInv s' fl where
  valid := hfl.valid
  epoch := hfl.epoch.trans (h.group.epoch_le _)
  captured := by have := hfl.captured; have := h.tick; omega
  current fence hf := ⟨(hfl.current fence hf).1.trans (h.group.epoch_le _), (hfl.current fence hf).2⟩
  returned := hfl.returned

/-- A transition of a flight. -/
theorem FlightInv.step (h : Moves s a o s') {fl fl' : Flight} (hfl : FlightInv s fl)
    {f : ℕ} (hst : FlightStep s a f fl fl') : FlightInv s' fl' := by
  have hep := h.group.epoch_le fl.key
  have htick := h.tick
  have hm := hfl.mono h
  cases hst with
  | hit he hmin =>
    refine ⟨hm.valid, hm.epoch, hm.captured, by simp [Phase.fence?], fun v hv => ?_⟩
    simp only [Phase.returned.injEq, Except.ok.injEq] at hv
    subst hv
    exact (hfl.current _ rfl).2.trans hmin
  | miss => exact ⟨hm.valid, hm.epoch, hm.captured, fun f hf => hm.current f hf, by simp⟩
  | call => exact ⟨hm.valid, hm.epoch, hm.captured, fun f hf => hm.current f hf, by simp⟩
  | read _ _ => exact ⟨hm.valid, hm.epoch, hm.captured, fun f hf => hm.current f hf, by simp⟩
  | filled hv _ hmin =>
    refine ⟨hm.valid, hm.epoch, hm.captured, by simp [Phase.fence?], fun w hw => ?_⟩
    simp only [Phase.returned.injEq, Except.ok.injEq] at hw
    subst hw
    rw [hv]
    exact (hfl.current _ rfl).2.trans hmin
  | failed _ => exact ⟨hm.valid, hm.epoch, hm.captured, by simp [Phase.fence?], by simp⟩
  | rejected hp _ =>
    refine ⟨hm.valid, hm.epoch, hm.captured, fun f hf => ?_, by simp⟩
    simp only [Phase.fence?, Option.some.injEq] at hf
    subst hf
    exact ⟨(hm.current _ hp).1, (hm.current _ hp).2.trans (le_max_left _ _)⟩
  | retried he hmin _ =>
    refine ⟨hm.valid, hm.epoch, by simp only; omega, fun f hf => ?_, by simp⟩
    simp only [Phase.fence?, Option.some.injEq] at hf
    subst hf
    exact ⟨he.le.trans hep, (hm.current _ rfl).2.trans (le_max_right _ _)⟩
  | delivered => exact ⟨hm.valid, hm.epoch, hm.captured, by simp [Phase.fence?], hm.returned⟩

theorem CallInv.mono (h : Moves s a o s') {call : GetCall} (hc : CallInv s call) : CallInv s' call := by
  have htick := h.tick
  obtain ⟨hb, hst⟩ := hc
  refine ⟨by omega, ?_⟩
  cases hs : call.state with
  | started => trivial
  | answered => trivial
  | missed => rw [hs] at hst; exact hst
  | admitted => rw [hs] at hst; exact hst
  | fenced fence captured =>
    rw [hs] at hst
    exact ⟨hst.1, hst.2.1.trans (h.group.epoch_le _), by have := hst.2.2; omega⟩
  | waiting f =>
    rw [hs] at hst
    obtain ⟨hk, fl, hfl, hkey⟩ := hst
    obtain ⟨fl', hfl', hkey', -⟩ := h.persist f fl hfl
    exact ⟨hk, fl', hfl', hkey'.trans hkey⟩

/-- **Every action keeps the invariant.** -/
theorem Inv.step (hI : Inv s) (h : Moves s a o s') : Inv s' := by
  have htick := h.tick
  refine ⟨h.group.wf, h.fresh, fun key e he => ?_, fun f fl' hfl' => ?_, fun c call' hc' => ?_⟩
  · rcases h.group.stored he with hs | ⟨f, fl, attempt, fence, view, hfl, rfl, -⟩
    · exact hI.valid key e hs
    · exact (hI.flights f fl hfl).valid
  · rcases h.flights f fl' hfl' with hfl | ⟨fl, hfl, hst⟩ | ⟨-, c, key, began, fence, captured, hc, rfl⟩
    · exact (hI.flights f fl' hfl).mono h
    · exact (hI.flights f fl hfl).step h hst
    · -- a new flight takes the fence of its caller
      obtain ⟨-, hk, he, hcap⟩ := hI.calls c _ hc
      refine ⟨hk, he.trans (h.group.epoch_le key), by simp only; omega, fun f' hf' => ?_, by simp⟩
      simp only [Phase.fence?, Option.some.injEq] at hf'
      subst hf'
      exact ⟨he.trans (h.group.epoch_le key), le_rfl⟩
  · rcases h.calls c call' hc' with hc | hst
    · exact (hI.calls c call' hc).mono h
    · have hold := fun call hc => hI.calls c call hc
      generalize s.calls c = old at hst hold
      cases hst with
      | begin => exact ⟨by simp only; omega, trivial⟩
      | miss hk => exact ⟨by have := (hold _ rfl).1; simp only at this ⊢; omega, hk⟩
      | admitWaiter => exact ⟨by have := (hold _ rfl).1; simp only at this ⊢; omega, (hold _ rfl).2⟩
      | @fence key began fence he _ _ =>
        exact ⟨by have := (hold _ rfl).1; simp only at this ⊢; omega, (hold _ rfl).2,
          he.le.trans (h.group.epoch_le key), by omega⟩
      | join hfl hk _ =>
        exact ⟨by have := (hold _ rfl).1; simp only at this ⊢; omega, (hold _ rfl).2.1, _, hfl, hk⟩
      | answer => exact ⟨by have := (hold _ rfl).1; simp only at this ⊢; omega, trivial⟩

end Step

/-! ### What is watched after a notification -/

/-- The key of a notification and what it protects: a fence is good if its epoch is at least `epoch` or its minimum
is enough; a source call is begun after the notification, and a value with a version and a time of reading is
fresh, in the sense of the two results below. -/
structure Watch where
  key : GoString
  since : ℕ
  epoch : ℕ
  Enough : ℤ → Prop
  Begun : ℕ → ℤ → Prop
  Fresh : ℤ → ℕ → Prop
  enough_mono : ∀ {m m' : ℤ}, m ≤ m' → Enough m → Enough m'
  enough_fresh : ∀ {m v : ℤ} {r : ℕ}, Enough m → m ≤ v → Fresh v r
  begun_mono : ∀ {b b' : ℕ} {n n' : ℤ}, b ≤ b' → n ≤ n' → Begun b n → Begun b' n'

namespace Watch

variable (w : Watch)

def Good (fence : ReadFence) : Prop := w.epoch ≤ fence.epoch ∨ w.Enough fence.minimum

/-- A flight of the key: with a good name it has a good fence and a fresh result; at a late enough epoch it reads
fresh values; and a fence that was captured before is at an earlier epoch. -/
structure FlightOk (fl : Flight) : Prop where
  good : w.Good fl.fence → ∀ fence, fl.phase.fence? = some fence → w.Good fence
  reading : ∀ attempt fence began seen, fl.phase = .reading attempt fence began seen → w.epoch ≤ fence.epoch →
    w.Begun began seen
  loaded : ∀ attempt fence view, fl.phase = .loaded attempt fence view → w.epoch ≤ fence.epoch →
    w.Fresh view.version view.readAt
  returned : w.Good fl.fence → ∀ v, fl.phase = .returned (.ok v) → w.Fresh v.version v.readAt
  old : fl.captured < w.since → ∀ fence, fl.phase.fence? = some fence → fence.epoch < w.epoch

/-- A call of the key. -/
def CallOk (s : Engine) (call : GetCall) : Prop :=
  match call.state with
  | .fenced fence captured =>
    (captured < w.since → fence.epoch < w.epoch) ∧ (w.since ≤ call.began → w.Good fence)
  | .waiting f => w.since ≤ call.began → ∃ fl, s.flights f = some fl ∧ fl.key = w.key ∧ w.Good fl.fence
  | _ => True

/-- **The invariant after a notification.** -/
structure After (s : Engine) : Prop where
  tick : w.since ≤ s.tick
  begins : w.Begun s.tick (s.committed w.key)
  resident : ∀ e, s.group.mainCache.find? w.key = some e → w.Fresh e.value.version e.value.readAt
  epoch : w.epoch ≤ s.group.epoch w.key + 1
  guard : w.Enough (s.group.floors.floor w.key) ∨ w.epoch ≤ s.group.epoch w.key
  flights : ∀ f fl, s.flights f = some fl → fl.key = w.key → w.FlightOk fl
  calls : ∀ c call, s.calls c = some call → call.key = w.key → w.CallOk s call

variable {w}

/-- What a begun call reads is fresh. -/
def SourceOk (w : Watch) (s : Engine) (a : Act) : Prop :=
  ∀ f fl attempt fence began seen value raw work work' work'' version, s.flights f = some fl →
    fl.phase = .reading attempt fence began seen → a = .readSource f (.ok (value, raw)) work work' work'' →
    (s.group.versioned = true → version = raw) → w.Begun began seen → w.Fresh version began

theorem Good.withMinimum {fence : ReadFence} (h : w.Good fence) (m : ℤ) : w.Good (fence.withMinimum m) :=
  h.imp id (w.enough_mono (le_max_left _ _))

section Step

variable {s s' : Engine} {a : Act} {o : Ans}

/-- A fence captured now is good. -/
theorem After.good (h : w.After s) {fence : ReadFence} (he : fence.epoch = s.group.epoch w.key)
    (hm : s.group.floors.floor w.key ≤ fence.minimum) : w.Good fence :=
  h.guard.elim (fun hg => Or.inr (w.enough_mono hm hg)) fun hg => Or.inl (hg.trans_eq he.symm)

/-- A transition of a flight of the key. -/
theorem FlightOk.step (h : w.After s) {f : ℕ} {fl fl' : Flight} (hfl : s.flights f = some fl) (hk : fl.key = w.key)
    (hok : w.FlightOk fl) (hst : FlightStep s a f fl fl') (hsrc : w.SourceOk s a) : w.FlightOk fl' := by
  cases hst with
  | hit he _ =>
    simp only at hk
    subst hk
    refine ⟨by simp [Phase.fence?], by simp, by simp, fun _ v hv => ?_, by simp [Phase.fence?]⟩
    simp only [Phase.returned.injEq, Except.ok.injEq] at hv
    subst hv
    exact h.resident _ he
  | miss => exact ⟨fun hg f hf => hok.good hg f hf, by simp, by simp, by simp, fun hc f hf => hok.old hc f hf⟩
  | call =>
    simp only at hk
    subst hk
    refine ⟨fun hg f hf => hok.good hg f hf, fun attempt fence began seen hp _ => ?_, by simp, by simp,
      fun hc f hf => hok.old hc f hf⟩
    simp only [Phase.reading.injEq] at hp
    obtain ⟨-, -, rfl, rfl⟩ := hp
    exact h.begins
  | read ha hv =>
    refine ⟨fun hg f hf => hok.good hg f hf, by simp, fun attempt fence view hp he => ?_, by simp,
      fun hc f hf => hok.old hc f hf⟩
    simp only [Phase.loaded.injEq] at hp
    obtain ⟨-, rfl, rfl⟩ := hp
    exact hsrc f _ _ _ _ _ _ _ _ _ _ _ hfl rfl ha hv (hok.reading _ _ _ _ rfl he)
  | filled hv hr hmin =>
    refine ⟨by simp [Phase.fence?], by simp, by simp, fun hg v hv' => ?_, by simp [Phase.fence?]⟩
    simp only [Phase.returned.injEq, Except.ok.injEq] at hv'
    subst hv'
    rw [hv, hr]
    rcases hok.good hg _ rfl with he | hm
    · exact hok.loaded _ _ _ rfl he
    · exact w.enough_fresh hm hmin
  | failed _ => exact ⟨by simp [Phase.fence?], by simp, by simp, by simp, by simp [Phase.fence?]⟩
  | rejected hp _ =>
    refine ⟨fun hg f hf => ?_, by simp, by simp, by simp, fun hc f hf => ?_⟩
    · simp only [Phase.fence?, Option.some.injEq] at hf
      subst hf
      exact (hok.good hg _ hp).withMinimum _
    · simp only [Phase.fence?, Option.some.injEq] at hf
      subst hf
      have hlt := hok.old hc _ hp
      exact hlt
  | retried he hm _ =>
    simp only at hk
    subst hk
    refine ⟨fun _ f hf => ?_, by simp, by simp, by simp, fun hc => absurd h.tick (not_le.mpr hc)⟩
    simp only [Phase.fence?, Option.some.injEq] at hf
    subst hf
    exact (h.good he hm).withMinimum _
  | delivered => exact ⟨by simp [Phase.fence?], by simp, by simp, hok.returned, by simp [Phase.fence?]⟩

theorem CallOk.mono (h : Moves s a o s') {call : GetCall} (hc : w.CallOk s call) : w.CallOk s' call := by
  unfold CallOk at hc ⊢
  cases hs : call.state with
  | waiting f =>
    rw [hs] at hc
    intro hb
    obtain ⟨fl, hfl, hk, hg⟩ := hc hb
    obtain ⟨fl', hfl', hk', hn⟩ := h.persist f fl hfl
    exact ⟨fl', hfl', hk'.trans hk, by rw [hn]; exact hg⟩
  | fenced fence captured => rw [hs] at hc; exact hc
  | started => trivial
  | missed => trivial
  | admitted => trivial
  | answered => trivial

/-- **Every action keeps it.** -/
theorem After.step (hA : w.After s) (h : Moves s a o s')
    (hsrc : w.SourceOk s a) : w.After s' := by
  have htick := h.tick
  have hep := h.group.epoch_le w.key
  have hguard : w.Enough (s'.group.floors.floor w.key) ∨ w.epoch ≤ s'.group.epoch w.key := by
    rcases hA.guard with hg | hg
    · rcases h.group.floor_le_or w.key with hf | he
      · exact Or.inl (w.enough_mono hf hg)
      · exact Or.inr (hA.epoch.trans he)
    · exact Or.inr (hg.trans hep)
  refine ⟨by have := hA.tick; omega, w.begun_mono (by omega) (h.committed w.key) hA.begins, fun e he => ?_,
    hA.epoch.trans (by omega), hguard, fun f fl' hfl' hk => ?_, fun c call' hc' hk => ?_⟩
  · rcases h.group.stored he with hs | ⟨f, fl, attempt, fence, view, hfl, hk, hp, hfe, hfl', hv, hr⟩
    · exact hA.resident e hs
    · -- inserted at the current epoch and above the floor
      rw [hv, hr]
      rcases hA.guard with hg | hg
      · exact w.enough_fresh hg hfl'
      · exact (hA.flights f fl hfl hk).loaded _ _ _ hp (hg.trans_eq hfe.symm)
  · rcases h.flights f fl' hfl' with hfl | ⟨fl, hfl, hst⟩ | ⟨-, c, key, began, fence, captured, hc, rfl⟩
    · exact hA.flights f fl' hfl hk
    · have hkey : fl.key = w.key := hst.key_eq.1.symm.trans hk
      exact (hA.flights f fl hfl hkey).step hA hfl hkey hst hsrc
    · have hcall := hA.calls c _ hc hk
      refine ⟨fun hg f' hf' => ?_, by simp, by simp, by simp, fun hcap f' hf' => ?_⟩
      · simp only [Phase.fence?, Option.some.injEq] at hf'
        exact hf' ▸ hg
      · simp only [Phase.fence?, Option.some.injEq] at hf'
        exact hf' ▸ hcall.1 hcap
  · rcases h.calls c call' hc' with hc | hst
    · exact (hA.calls c call' hc hk).mono h
    · have hold := fun call hc => hA.calls c call hc
      generalize s.calls c = old at hst hold
      cases hst with
      | begin => trivial
      | miss _ => trivial
      | admitWaiter => trivial
      | fence he hm _ =>
        simp only at hk
        subst hk
        exact ⟨fun hcap => absurd hA.tick (not_le.mpr hcap), fun _ => hA.good he hm⟩
      | join hfl hkey hfence =>
        intro hb
        exact ⟨_, hfl, hkey.trans hk, by rw [hfence]; exact (hold _ rfl hk).2 hb⟩
      | answer => trivial

/-- What a call that began after the notification returns is fresh. -/
theorem After.answered (hI : Inv s) (hA : w.After s) (h : Moves s a o s') {c : ℕ} {v : ByteView}
    (ho : o = .returned c (.ok v)) {call : GetCall} (hc : s.calls c = some call) (hk : call.key = w.key)
    (hb : w.since ≤ call.began) : ValidKey w.key ∧ w.Fresh v.version v.readAt := by
  obtain ⟨call', hc', hsrc⟩ := h.answered c v ho
  rw [hc, Option.some.injEq] at hc'
  subst hc'
  rw [← hk]
  cases hsrc with
  | hit hval he hv =>
    refine ⟨hval, ?_⟩
    rw [hk] at he
    rw [← hv]
    exact hA.resident _ he
  | flight hw hfl hp =>
    have hcall := hA.calls c call hc hk
    have hinv := (hI.calls c call hc).2
    unfold CallOk at hcall
    rw [hw] at hcall hinv
    refine ⟨hinv.1, ?_⟩
    obtain ⟨fl, hfl', hkey, hg⟩ := hcall hb
    rw [hfl, Option.some.injEq] at hfl'
    subst hfl'
    exact (hA.flights _ _ hfl hkey).returned hg v hp

end Step

/-! ### Runs after a notification -/

/-- A value that a later Get returns is one of a valid key, and fresh. -/
def Answers (w : Watch) (r : Except Err ByteView) : Prop :=
  ∀ v, r = .ok v → ValidKey w.key ∧ w.Fresh v.version v.readAt

/-- What a history `tr` from `s₁` shows of the watched key; `A` holds of what a later Get returns. -/
structure Since (w : Watch) (A : Except Err ByteView → Prop) (s₁ : Engine) (tr : List Event) (s : Engine) :
    Prop where
  inv : Inv s
  after : w.After s
  versioned : s.group.versioned = s₁.group.versioned
  kept : ∀ c, s₁.calls c ≠ none → s.calls c ≠ none
  older : ∀ c call, s.calls c = some call → s₁.calls c ≠ none ∨ w.since ≤ call.began
  begun : ∀ c key o, (.get c key, o) ∈ tr → s₁.calls c = none ∧ ∃ call, s.calls c = some call ∧ call.key = key
  known : ∀ a c r, (a, .returned c r) ∈ tr → s.calls c ≠ none
  answers : ∀ c o a r, (.get c w.key, o) ∈ tr → (a, .returned c r) ∈ tr → A r
  fills : (∀ m, ¬ w.Enough m) → ∀ a captured, (a, .filled w.key captured true) ∈ tr → w.since ≤ captured

/-- A call keeps the action at which it began. -/
theorem began_of_step {s s' : Engine} {old : Option GetCall} {call' : GetCall} (h : CallStep s s' old call') :
    (old = none ∧ call'.began = s.tick) ∨ ∃ call, old = some call ∧ call'.began = call.began := by
  cases h with
  | begin => exact Or.inl ⟨rfl, rfl⟩
  | miss _ => exact Or.inr ⟨_, rfl, rfl⟩
  | admitWaiter => exact Or.inr ⟨_, rfl, rfl⟩
  | fence _ _ => exact Or.inr ⟨_, rfl, rfl⟩
  | join _ _ _ => exact Or.inr ⟨_, rfl, rfl⟩
  | answer => exact Or.inr ⟨_, rfl, rfl⟩

/-- A fence that was captured before inserts nothing under the key, once the epoch has advanced for good. -/
theorem After.no_old_fill {s s' : Engine} {a : Act} {captured : ℕ} (hA : w.After s)
    (h : Moves s a (.filled w.key captured true) s') (hno : ∀ m, ¬ w.Enough m) : w.since ≤ captured := by
  have hge : w.epoch ≤ s.group.epoch w.key := hA.guard.resolve_left (hno _)
  cases h.group with
  | reads _ hne => exact absurd rfl (hne _ _ _)
  | invalidates _ _ _ _ ho => simp at ho
  | fills hfl hf ho =>
    simp only [Ans.filled.injEq] at ho
    obtain ⟨hk, rfl, hv⟩ := ho
    obtain ⟨he, -⟩ := hf.valid hv.symm
    rw [← hk] at he
    by_contra hlt
    have := (hA.flights _ _ hfl hk.symm).old (not_le.mp hlt) _ rfl
    omega

/-- The call that an action answers. -/
theorem call_of_returned {s s' : Engine} {a : Act} {o : Ans} (h : Moves s a o s') {c : ℕ} {r : Except Err ByteView}
    (ho : o = .returned c r) : ∃ call, s.calls c = some call := by
  cases r with
  | ok v =>
    obtain ⟨call, hc, -⟩ := h.answered c v ho
    exact ⟨call, hc⟩
  | error e =>
    obtain ⟨call, hc, -⟩ := h.refused c e ho
    exact ⟨call, hc⟩

theorem Since.step {A : Except Err ByteView → Prop} {s₁ s s' : Engine} {tr : List Event} {a : Act} {o : Ans}
    (hS : Since w A s₁ tr s) (h : Moves s a o s') (hsrc : w.SourceOk s a)
    (hans : ∀ c r call, o = .returned c r → s.calls c = some call → call.key = w.key → w.since ≤ call.began → A r) :
    Since w A s₁ (tr ++ [(a, o)]) s' := by
  have hkeep : ∀ c, s.calls c ≠ none → s'.calls c ≠ none := by
    intro c hc
    obtain ⟨call, hcall⟩ := Option.ne_none_iff_exists'.mp hc
    obtain ⟨call', hcall', -⟩ := h.keep c call hcall
    rw [hcall']
    simp
  have holder : ∀ c call, s'.calls c = some call → s₁.calls c ≠ none ∨ w.since ≤ call.began := by
    intro c call' hc'
    rcases h.calls c call' hc' with hc | hst
    · exact hS.older c call' hc
    · rcases began_of_step hst with ⟨-, hb⟩ | ⟨call, hc, hb⟩
      · exact Or.inr (hb ▸ hS.after.tick)
      · exact hb ▸ hS.older c call hc
  refine ⟨hS.inv.step h, hS.after.step h hsrc, h.group.versioned.trans hS.versioned,
    fun c hc => hkeep c (hS.kept c hc), holder, ?_, ?_, ?_, ?_⟩
  · intro c key o' hmem
    rcases List.mem_append.mp hmem with hmem | hmem
    · obtain ⟨h1, call, h2, h3⟩ := hS.begun c key o' hmem
      obtain ⟨call', h4, h5, -⟩ := h.keep c call h2
      exact ⟨h1, call', h4, h5.trans h3⟩
    · obtain ⟨rfl, rfl⟩ := Prod.mk.inj (List.mem_singleton.mp hmem)
      obtain ⟨hnone, hcall'⟩ := h.begun c key rfl
      -- a call of the start would still be there
      exact ⟨by_contra fun hne => hS.kept c hne hnone, hcall'⟩
  · intro a' c r hmem
    rcases List.mem_append.mp hmem with hmem | hmem
    · exact hkeep c (hS.known a' c r hmem)
    · obtain ⟨rfl, rfl⟩ := Prod.mk.inj (List.mem_singleton.mp hmem)
      obtain ⟨call, hc⟩ := call_of_returned h rfl
      exact hkeep c (by rw [hc]; simp)
  · intro c o' a' r hget hret
    rcases List.mem_append.mp hret with hold | hnew
    · rcases List.mem_append.mp hget with hget | hget
      · exact hS.answers c o' a' r hget hold
      · -- the caller has returned before, so it cannot begin now
        obtain ⟨rfl, rfl⟩ := Prod.mk.inj (List.mem_singleton.mp hget)
        exact absurd (h.begun c w.key rfl).1 (hS.known a' c r hold)
    · obtain ⟨rfl, rfl⟩ := Prod.mk.inj (List.mem_singleton.mp hnew)
      rcases List.mem_append.mp hget with hget | hget
      · obtain ⟨hnone, call, hc, hk⟩ := hS.begun c w.key o' hget
        have hb := (hS.older c call hc).resolve_left (fun hne => hne hnone)
        exact hans c r call rfl hc hk hb
      · obtain ⟨rfl, rfl⟩ := Prod.mk.inj (List.mem_singleton.mp hget)
        obtain ⟨call, hc⟩ := call_of_returned h rfl
        rw [(h.begun c w.key rfl).1] at hc
        simp at hc
  · intro hno a' captured hmem
    rcases List.mem_append.mp hmem with hmem | hmem
    · exact hS.fills hno a' captured hmem
    · obtain ⟨rfl, rfl⟩ := Prod.mk.inj (List.mem_singleton.mp hmem)
      exact hS.after.no_old_fill h hno

theorem Since.start {A : Except Err ByteView → Prop} {s₁ : Engine} (hI : Inv s₁) (hA : w.After s₁) :
    Since w A s₁ [] s₁ :=
  ⟨hI, hA, rfl, fun _ => id, fun c call hc => Or.inl (by rw [hc]; simp), by simp, by simp, by simp, by simp⟩

/-- The history after a notification, for actions of which each is one of the engine. -/
theorem since_run {stp : Engine → Act → Option (Engine × Ans)} {s₁ s : Engine} {tr : List Event} (hI : Inv s₁)
    (hA : w.After s₁)
    (hstp : ∀ s a r, s.group.versioned = s₁.group.versioned → stp s a = some r → s.step a = some r ∧ w.SourceOk s a)
    (h : Run stp s₁ tr s) : Since w w.Answers s₁ tr s := by
  refine h.rec_inv (I := Since w w.Answers s₁) (.start hI hA) fun tr s a o s' _ hS hst => ?_
  obtain ⟨h1, h2⟩ := hstp s a (s', o) hS.versioned hst
  have hm := moves hS.inv.wf hS.inv.fresh h1
  exact hS.step hm h2 fun c r call ho hc hk hb v hv => hS.after.answered hS.inv hm (by rw [ho, hv]) hc hk hb

end Watch

theorem tick_run {s₀ s : Engine} {tr : List Event} (h : Run step s₀ tr s) : s.tick = s₀.tick + tr.length := by
  refine h.rec_inv (I := fun tr s => s.tick = s₀.tick + tr.length) (by simp) fun tr s a o s' _ hI hst => ?_
  obtain ⟨⟨s₁, o₁⟩, -, he⟩ := Option.map_eq_some_iff.mp hst
  obtain ⟨rfl, rfl⟩ := Prod.mk.inj he
  simp only [List.length_append, List.length_singleton]
  omega

theorem inv_run {s₀ s : Engine} {tr : List Event} (h₀ : Inv s₀) (h : Run step s₀ tr s) : Inv s :=
  h.inv (I := Inv) h₀ fun _ _ _ _ hI hst => hI.step (moves hI.wf hI.fresh hst)

theorem honestStep_eq {s : Engine} {a : Act} {r : Engine × Ans} (h : s.honestStep a = some r) :
    s.Honest a ∧ s.step a = some r := by
  unfold honestStep at h
  split_ifs at h with hh
  exact ⟨hh, h⟩

theorem honest_run {s₀ s : Engine} {tr : List Event} (h : Run honestStep s₀ tr s) : Run step s₀ tr s := by
  induction h with
  | nil => exact .nil
  | snoc _ hst ih => exact .snoc ih (honestStep_eq hst).2

theorem newGroup_versioned {name : GoString} {capacity : ℤ} {versioned : Bool} {bloom : Option BloomFilter}
    {opts : Options} {g : Group} (h : newGroup name capacity versioned bloom opts = some g) :
    g.versioned = versioned := by
  unfold newGroup at h
  split_ifs at h
  obtain ⟨o, -, rfl⟩ := Option.map_eq_some_iff.mp h
  rfl

theorem versioned_run {s₀ s : Engine} {tr : List Event} (h₀ : Inv s₀) (h : Run step s₀ tr s) :
    s.group.versioned = s₀.group.versioned :=
  (h.inv (I := fun s => Inv s ∧ s.group.versioned = s₀.group.versioned) ⟨h₀, rfl⟩ fun _ _ _ _ hI hst =>
    have hm := moves hI.1.wf hI.1.fresh hst
    ⟨hI.1.step hm, hm.group.versioned.trans hI.2⟩).2

/-! ### Forced and new notifications -/

/-- What is watched after an applied notification: the times at which source calls began. -/
def timeWatch (key : GoString) (s₁ : Engine) : Watch where
  key := key
  since := s₁.tick
  epoch := s₁.group.epoch key
  Enough _ := False
  Begun b _ := s₁.tick ≤ b
  Fresh _ r := s₁.tick ≤ r
  enough_mono _ h := h
  enough_fresh h _ := h.elim
  begun_mono hb _ h := h.trans hb

/-- The section of a notification, with an accepted key and version or with a refused one. -/
theorem invalidate_step {s₀ s₁ : Engine} {key : GoString} {version now now' : ℤ} {o : Ans} (hI : Inv s₀)
    (hst : s₀.step (.invalidate key version now now') = some (s₁, o)) :
    s₁.calls = s₀.calls ∧ s₁.flights = s₀.flights ∧ s₁.tick = s₀.tick + 1 ∧ s₁.committed = s₀.committed ∧
    (ValidKey key ∧ 0 ≤ version →
      o = .invalidated (.ok (decide (version = 0 ∨ version > (s₀.group.knownVersionLocked key now).1))) ∧
      ∃ dropped, s₀.group.Invalidates key version (s₀.group.knownVersionLocked key now).1 dropped s₁.group) := by
  simp only [step, act, Option.map_some, Option.some.injEq, Prod.mk.injEq] at hst
  obtain ⟨rfl, rfl⟩ := hst
  refine ⟨rfl, rfl, rfl, rfl, fun hok => ?_⟩
  obtain ⟨hr, hinv⟩ := Group.invalidate_spec hI.wf hok.1 hok.2 now now'
  exact ⟨by rw [hr], hinv⟩

/-- Calls and flights of the start began before the notification, and so did the fences they captured. -/
theorem callOk_before {s₀ s₁ : Engine} {w : Watch} (hI : Inv s₀) (hcalls : s₁.calls = s₀.calls)
    (hsince : s₀.tick ≤ w.since) (hlt : s₀.group.epoch w.key < w.epoch) (c : ℕ) (call : GetCall)
    (hc : s₁.calls c = some call) (hkey : call.key = w.key) : w.CallOk s₁ call := by
  rw [hcalls] at hc
  obtain ⟨hb, hst⟩ := hI.calls c call hc
  have hnb : ¬ w.since ≤ call.began := by omega
  unfold Watch.CallOk
  cases hs : call.state with
  | fenced fence captured =>
    rw [hs] at hst
    have hle := hst.2.1
    rw [hkey] at hle
    exact ⟨fun _ => lt_of_le_of_lt hle hlt, fun h => absurd h hnb⟩
  | waiting f => exact fun h => absurd h hnb
  | started => trivial
  | missed => trivial
  | admitted => trivial
  | answered => trivial

/-- A flight of the start: its fences are at epochs before the watched one, so that only an ample minimum makes one
good. -/
theorem flightOk_before {s₀ : Engine} {w : Watch} (hI : Inv s₀) (hlt : s₀.group.epoch w.key < w.epoch) (f : ℕ)
    (fl : Flight) (hfl : s₀.flights f = some fl) (hkey : fl.key = w.key) : w.FlightOk fl := by
  have hF := hI.flights f fl hfl
  have hno : ∀ fence : ReadFence, fence.epoch ≤ s₀.group.epoch fl.key → ¬ w.epoch ≤ fence.epoch := by
    intro fence hle
    rw [hkey] at hle
    omega
  have hname : w.Good fl.fence → w.Enough fl.fence.minimum := fun hg => hg.resolve_left (hno _ hF.epoch)
  refine ⟨fun hg fence hp => Or.inr (w.enough_mono (hF.current fence hp).2 (hname hg)),
    fun attempt fence began seen hp he => ?_, fun attempt fence view hp he => ?_,
    fun hg v hv => w.enough_fresh (hname hg) (hF.returned v hv),
    fun _ fence hp => not_le.mp (hno _ (hF.current fence hp).1)⟩
  · exact absurd he (hno _ (hF.current fence (by rw [hp]; rfl)).1)
  · exact absurd he (hno _ (hF.current fence (by rw [hp]; rfl)).1)

/-- An applied notification removes the entry and advances the epoch beyond every captured fence. -/
theorem after_applied {s₀ s₁ : Engine} {key : GoString} {version now now' : ℤ} {o : Ans} (hI : Inv s₀)
    (hk : ValidKey key) (happ : version = 0 ∨ version > (s₀.group.knownVersionLocked key now).1)
    (hst : s₀.step (.invalidate key version now now') = some (s₁, o)) :
    o = .invalidated (.ok true) ∧ (timeWatch key s₁).After s₁ := by
  have hv : 0 ≤ version := by
    have := (Group.known_ge hI.wf key now).2.1
    omega
  obtain ⟨hcalls, hflights, htick, -, hacc⟩ := invalidate_step hI hst
  obtain ⟨ho, dropped, hinv⟩ := hacc ⟨hk, hv⟩
  have hlt : s₀.group.epoch key < s₁.group.epoch key := by
    have hb : s₁.group.epochBucket key = s₀.group.epochBucket key := by simp only [Group.epochBucket, hinv.opts]
    unfold Group.epoch
    rw [hb, hinv.epochs, if_pos (c := _ ∧ _) ⟨happ, rfl⟩]
    omega
  refine ⟨by rw [ho, decide_eq_true happ], le_rfl, le_rfl, fun e he => ?_, Nat.le_succ _, Or.inr le_rfl,
    fun f fl hfl => flightOk_before hI hlt f fl (hflights ▸ hfl), callOk_before hI hcalls ?_ hlt⟩
  · -- what stays has at least the version, and no more than the known one
    obtain ⟨-, hne, hmax, hle⟩ := hinv.own e he
    have hv' := (le_max_right _ _).trans hmax
    omega
  · show s₀.tick ≤ s₁.tick
    omega

/-- **Causal freshness**: once the critical section of a forced invalidation, or of a version above the known one,
has executed, every value that a later Get of the key returns, and every entry under the key, was read by a source
call that began after it; and a fence that was captured before inserts nothing under the key again. -/
theorem causal_freshness {name : GoString} {capacity : ℤ} {versioned : Bool} {bloom : Option BloomFilter}
    {opts : Options} {g₀ : Group} (h₀ : newGroup name capacity versioned bloom opts = some g₀) {key : GoString}
    {version now now' : ℤ} {o : Ans} {tr₁ tr₂ : List Event} {s₀ s : Engine} (h₁ : Run step (init g₀) tr₁ s₀)
    (h₂ : Run step s₀ ((.invalidate key version now now', o) :: tr₂) s) (hk : ValidKey key)
    (happ : version = 0 ∨ version > (s₀.group.knownVersionLocked key now).1) :
    o = .invalidated (.ok true) ∧
    (∀ e, s.group.mainCache.find? key = some e → tr₁.length < e.value.readAt) ∧
    (∀ c o' a view, (.get c key, o') ∈ tr₂ → (a, .returned c (.ok view)) ∈ tr₂ → tr₁.length < view.readAt) ∧
    ∀ a captured, (a, .filled key captured true) ∈ tr₂ → tr₁.length < captured := by
  have hI := inv_run (inv_init h₀) h₁
  rw [← List.nil_append (_ :: tr₂)] at h₂
  obtain ⟨_, s₁, h3, hst, h4⟩ := h₂.cut
  obtain rfl := h3.nil_inv
  obtain ⟨ho, hA⟩ := after_applied hI hk happ hst
  have htick : s₁.tick = tr₁.length + 1 := by
    rw [tick_run (Run.snoc h₁ hst), List.length_append, List.length_singleton]
    exact Nat.zero_add _
  have hS := Watch.since_run (hI.step (moves hI.wf hI.fresh hst)) hA
    (fun s a r _ hr => ⟨hr, fun _ _ _ _ _ _ _ _ _ _ _ _ _ _ _ _ hb => hb⟩) h4
  have hle : ∀ n, (timeWatch key s₁).since ≤ n → tr₁.length < n := fun n hn => by
    have : s₁.tick ≤ n := hn
    omega
  exact ⟨ho, fun e he => hle _ (hS.after.resident e he), fun c o' a view hg hr => hle _ (hS.answers c o' a _ hg hr view rfl).2,
    fun a captured hf => hle _ (hS.fills (fun _ => id) a captured hf)⟩

/-- A Get up to its source call. -/
def loading (c f : ℕ) (key : GoString) : List Act :=
  [.get c key, .lookup c none 0, .admitWaiter c, .barrier c 0, .join c, .flightLookup f none 0, .callSource f none none]

/-- The answer of the source, up to the return of the Get. -/
def answering (c f : ℕ) (value : GoString) (version : ℤ) : List Act :=
  [.readSource f (.ok (value, version)) none none none, .fill f 0 0 0 none, .deliver f, .await c none]

/-- The source is being read, and a newer version is committed. -/
def overtaken : Engine :=
  ((exec honestStep (init smallGroup) (.commit [97] 1 :: loading 0 0 [97] ++ [.commit [97] 2])).get rfl).1

/-- A flight is overtaken by a forced invalidation and inserts nothing; a later Get loads again. -/
theorem causal_freshness_overtaken : ∃ tr₁ tr₂ s view, Run step (init smallGroup) tr₁ overtaken ∧
    Run step overtaken ((.invalidate [97] 0 0 0, .invalidated (.ok true)) :: tr₂) s ∧
    (.fill 0 0 0 0 none, .filled [97] 4 false) ∈ tr₂ ∧ (.get 1 [97], .quiet) ∈ tr₂ ∧
    (.await 1 none, .returned 1 (.ok view)) ∈ tr₂ ∧ tr₁.length = 9 ∧ tr₁.length < view.readAt := by
  have h₁ := exec_run step (.commit [97] 1 :: loading 0 0 [97] ++ [.commit [97] 2]) (init smallGroup)
    overtaken _ rfl
  have h₂ := exec_run step
    (.invalidate [97] 0 0 0 :: (answering 0 0 [1] 1 ++ loading 1 1 [97] ++ answering 1 1 [2] 1)) overtaken _ _ rfl
  exact ⟨_, _, _, _, h₁, h₂, List.mem_of_getElem? (i := 1) rfl, List.mem_of_getElem? (i := 4) rfl,
    List.mem_of_getElem? (i := 14) rfl, rfl,
    (causal_freshness smallGroup_eq h₁ h₂ (by decide) (Or.inl rfl)).2.2.1 1 _ _ _
      (List.mem_of_getElem? (i := 4) rfl) (List.mem_of_getElem? (i := 14) rfl)⟩

/-! ### Committed versions -/

/-- What is watched after a notification of version `v`: versions of at least `v`.  A notification that is not new
does not advance the epoch, so the watched epoch is the next one; until then the floor holds the version. -/
def versionWatch (key : GoString) (v : ℤ) (s₁ : Engine) : Watch where
  key := key
  since := s₁.tick
  epoch := s₁.group.epoch key + 1
  Enough m := v ≤ m
  Begun _ seen := v ≤ seen
  Fresh version _ := v ≤ version
  enough_mono hm h := h.trans hm
  enough_fresh h hv := h.trans hv
  begun_mono _ hn h := h.trans hn

/-- For a key that is refused nothing is asked of a value. -/
def anyWatch (key : GoString) : Watch where
  key := key
  since := 0
  epoch := 0
  Enough _ := True
  Begun _ _ := True
  Fresh _ _ := True
  enough_mono _ _ := trivial
  enough_fresh _ _ := trivial
  begun_mono _ _ _ := trivial

theorem after_any {s : Engine} (key : GoString) (hI : Inv s) : (anyWatch key).After s where
  tick := Nat.zero_le _
  begins := trivial
  resident _ _ := trivial
  epoch := Nat.zero_le _
  guard := Or.inl trivial
  flights _ _ _ _ := ⟨fun _ _ _ => Or.inr trivial, by simp [anyWatch], by simp [anyWatch], by simp [anyWatch],
    by simp [anyWatch]⟩
  calls c call hc hk := by
    have hinv := (hI.calls c call hc).2
    unfold Watch.CallOk
    cases hs : call.state with
    | waiting f =>
      rw [hs] at hinv
      obtain ⟨-, fl, hfl, hkey⟩ := hinv
      exact fun _ => ⟨fl, hfl, hkey.trans hk, Or.inr trivial⟩
    | fenced fence captured => exact ⟨fun h => absurd h (Nat.not_lt_zero _), fun _ => Or.inr trivial⟩
    | started => trivial
    | missed => trivial
    | admitted => trivial
    | answered => trivial

/-- An accepted notification of a committed version. -/
theorem after_notified {s₀ s₁ : Engine} {key : GoString} {v now now' : ℤ} {o : Ans} (hI : Inv s₀)
    (hk : ValidKey key) (hv : 0 < v) (hcom : v ≤ s₀.committed key)
    (hst : s₀.step (.invalidate key v now now') = some (s₁, o)) : (versionWatch key v s₁).After s₁ := by
  obtain ⟨hcalls, hflights, htick, hcomm, hacc⟩ := invalidate_step hI hst
  obtain ⟨-, dropped, hinv⟩ := hacc ⟨hk, hv.le⟩
  have hlt : s₀.group.epoch key < (versionWatch key v s₁).epoch :=
    Nat.lt_succ_of_le ((moves hI.wf hI.fresh hst).group.epoch_le key)
  refine ⟨le_rfl, ?_, fun e he => ?_, le_rfl, Or.inl ?_,
    fun f fl hfl => flightOk_before hI hlt f fl (hflights ▸ hfl), callOk_before hI hcalls ?_ hlt⟩
  · show v ≤ s₁.committed key
    rw [hcomm]
    exact hcom
  · exact (le_max_right _ _).trans (hinv.own e he).2.2.1
  · show v ≤ s₁.group.floors.floor key
    rcases hinv.floors with ⟨hle, -, hf⟩ | ⟨-, hr⟩
    · rw [hf]
      exact (le_max_right _ _).trans hle
    · have hfl : s₁.group.floors.floor? key = _ := (hr.floor? key).trans (if_pos rfl)
      rw [VersionFloors.floor_of_some hfl]
      exact le_max_right _ _
  · show s₀.tick ≤ s₁.tick
    omega

/-- Over a truthful versioned source a call that began after the commit of `v` reads at least `v`. -/
theorem sourceOk_version {s s₁ : Engine} {a : Act} {key : GoString} {v : ℤ} (hver : s.group.versioned = true)
    (htrue : s.Truthful a) : (versionWatch key v s₁).SourceOk s a := by
  intro f fl attempt fence began seen value raw work work' work'' version hfl hp ha hraw hb
  obtain ⟨k, name, captured, phase, j⟩ := fl
  simp only at hp
  subst hp ha
  simp only [Truthful, hfl] at htrue
  rw [show version = raw from hraw hver]
  exact le_trans hb htrue

/-- A history that begins with a notification of a committed version, over a truthful versioned source. -/
theorem notified_run {stp : Engine → Act → Option (Engine × Ans)}
    (hstp : ∀ s a r, stp s a = some r → s.step a = some r ∧ s.Truthful a) {s₀ s₁ s : Engine} {key : GoString}
    {v now now' : ℤ} {o : Ans} {tr : List Event} (hI : Inv s₀) (hver : s₀.group.versioned = true) (hv : 0 < v)
    (hcom : v ≤ s₀.committed key) (hst : s₀.step (.invalidate key v now now') = some (s₁, o))
    (h : Run stp s₁ tr s) :
    (∀ e, s.group.mainCache.find? key = some e → v ≤ e.value.version) ∧
    ∀ c o' a view, (.get c key, o') ∈ tr → (a, .returned c (.ok view)) ∈ tr → v ≤ view.version := by
  have hm := moves hI.wf hI.fresh hst
  have hI₁ := hI.step hm
  have hver₁ := hm.group.versioned.trans hver
  by_cases hk : ValidKey key
  · have hS := Watch.since_run hI₁ (after_notified hI hk hv hcom hst)
      (fun s a r hs hr => ⟨(hstp s a r hr).1, sourceOk_version (hs.trans hver₁) (hstp s a r hr).2⟩) h
    exact ⟨hS.after.resident, fun c o' a view hg hr => (hS.answers c o' a _ hg hr view rfl).2⟩
  · -- no entry and no answer has a refused key
    have hS := Watch.since_run hI₁ (after_any key hI₁)
      (fun s a r _ hr => ⟨(hstp s a r hr).1, fun _ _ _ _ _ _ _ _ _ _ _ _ _ _ _ _ _ => trivial⟩) h
    exact ⟨fun e he => absurd (hS.inv.valid key e he) hk,
      fun c o' a view hg hr => absurd (hS.answers c o' a _ hg hr view rfl).1 hk⟩

/-- **No stale read after a processed notification**: over a versioned source that reads its own commits, and with
notifications of committed versions only, once `InvalidateVersion(key, v)` has returned no later state holds an
older entry for the key, and every Get that starts later and returns a value returns one of at least that
version. -/
theorem no_stale_read {name : GoString} {capacity : ℤ} {bloom : Option BloomFilter} {opts : Options} {g₀ : Group}
    (h₀ : newGroup name capacity true bloom opts = some g₀) {key : GoString} {v now now' : ℤ} {o : Ans}
    {tr₁ tr₂ : List Event} {s : Engine} (hv : 0 < v)
    (h : Run honestStep (init g₀) (tr₁ ++ (.invalidate key v now now', o) :: tr₂) s) :
    (∀ e, s.group.mainCache.find? key = some e → v ≤ e.value.version) ∧
    ∀ c o' a view, (.get c key, o') ∈ tr₂ → (a, .returned c (.ok view)) ∈ tr₂ → v ≤ view.version := by
  obtain ⟨s₀, s₁, h1, hst, h2⟩ := h.cut
  obtain ⟨⟨-, hcom⟩, hst⟩ := honestStep_eq hst
  have hI := inv_run (inv_init h₀) (honest_run h1)
  have hver := (versioned_run (inv_init h₀) (honest_run h1)).trans (newGroup_versioned h₀)
  exact notified_run (fun s a r hr => ⟨(honestStep_eq hr).2, (honestStep_eq hr).1.1⟩) hI hver hv hcom hst h2

/-- The overtaken flight reads the old version, is refused, retries, and inserts what a later Get hits. -/
def retrying : List Act :=
  [.readSource 0 (.ok ([1], 1)) none none none, .fill 0 0 0 0 none, .retryBarrier 0 0, .flightLookup 0 none 0,
    .callSource 0 none none] ++ answering 0 0 [2] 2 ++ [.get 1 [97], .lookup 1 none 0]

theorem no_stale_read_overtaken : ∃ tr₁ tr₂ s view,
    Run honestStep (init smallGroup) (tr₁ ++ (.invalidate [97] 2 0 0, .invalidated (.ok true)) :: tr₂) s ∧
    (.get 1 [97], .quiet) ∈ tr₂ ∧ (.lookup 1 none 0, .returned 1 (.ok view)) ∈ tr₂ ∧ 2 ≤ view.version := by
  have h₁ := exec_run honestStep (.commit [97] 1 :: loading 0 0 [97] ++ [.commit [97] 2])
    (init smallGroup) overtaken _ rfl
  have h₂ := exec_run honestStep (.invalidate [97] 2 0 0 :: retrying) overtaken _ _ rfl
  exact ⟨_, _, _, _, h₁.append h₂, List.mem_of_getElem? (i := 9) rfl, List.mem_of_getElem? (i := 10) rfl,
    (no_stale_read smallGroup_eq (by decide) (h₁.append h₂)).2 1 _ _ _
      (List.mem_of_getElem? (i := 9) rfl) (List.mem_of_getElem? (i := 10) rfl)⟩

end Engine

end SimpleCache.Cache
