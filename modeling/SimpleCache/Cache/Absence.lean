import SimpleCache.Cache.Freshness

/-!
# Cache.Absence — a deleted key, seen through one group

Over a source that answers with the newest committed version or not at all, no version in the group is ahead of
the source (`Bounded`).  So when a deletion is committed as version `v`, no flight that exists already bears `v` in
its name, and a Get that starts after `v` was notified waits for a flight that was created after the deletion
(`Gone`): such a flight reads nothing, and what it returns is the source's error (`absent_run`).
-/

namespace SimpleCache.Cache

open SimpleCache.Lib

namespace Engine

/-! ### The versions of the values in a group -/

/-- Every value, stored, loaded or returned by a flight, has a version that satisfies `P`. -/
structure Views (P : GoString → ℤ → Prop) (s : Engine) : Prop where
  resident : ∀ key e, s.group.mainCache.find? key = some e → P key e.value.version
  loaded : ∀ f fl attempt fence view, s.flights f = some fl → fl.phase = .loaded attempt fence view →
    P fl.key view.version
  returned : ∀ f fl v, s.flights f = some fl → fl.phase = .returned (.ok v) → P fl.key v.version

/-- What a source answers satisfies `P`. -/
def Yields (P : GoString → ℤ → Prop) (s : Engine) (a : Act) : Prop :=
  ∀ f fl attempt fence began seen value raw work work' work'', s.flights f = some fl →
    fl.phase = .reading attempt fence began seen → a = .readSource f (.ok (value, raw)) work work' work'' →
    P fl.key raw

section Step

variable {s s' : Engine} {a : Act} {o : Ans}

theorem Views.mono {P P' : GoString → ℤ → Prop} (h : Views P s) (hP : ∀ key v, P key v → P' key v) : Views P' s :=
  ⟨fun key e he => hP _ _ (h.resident key e he), fun f fl _ _ _ hfl hp => hP _ _ (h.loaded f fl _ _ _ hfl hp),
    fun f fl v hfl hp => hP _ _ (h.returned f fl v hfl hp)⟩

theorem Views.step {P : GoString → ℤ → Prop} (hV : Views P s) (h : Moves s a o s') (hver : s.group.versioned = true)
    (hsrc : s.Yields P a) : Views P s' := by
  refine ⟨fun key e he => ?_, fun f fl' attempt fence view hfl' hp => ?_, fun f fl' v hfl' hp => ?_⟩
  · rcases h.group.stored he with hs | ⟨f, fl, attempt, fence, view, hfl, rfl, hp, -, -, hv, -⟩
    · exact hV.resident key e hs
    · rw [hv]
      exact hV.loaded f fl _ _ _ hfl hp
  · rcases h.flights f fl' hfl' with hfl | ⟨fl, hfl, hst⟩ | ⟨-, c, key, began, fence, captured, -, rfl⟩
    · exact hV.loaded f fl' _ _ _ hfl hp
    · cases hst with
      | read ha hraw =>
        simp only [Phase.loaded.injEq] at hp
        obtain ⟨-, -, rfl⟩ := hp
        simp only [hraw hver]
        exact hsrc f _ _ _ _ _ _ _ _ _ _ hfl rfl ha
      | _ => simp at hp
    · simp at hp
  · rcases h.flights f fl' hfl' with hfl | ⟨fl, hfl, hst⟩ | ⟨-, c, key, began, fence, captured, -, rfl⟩
    · exact hV.returned f fl' v hfl hp
    · cases hst with
      | hit he _ =>
        simp only [Phase.returned.injEq, Except.ok.injEq] at hp
        subst hp
        exact hV.resident _ _ he
      | filled hv _ _ =>
        simp only [Phase.returned.injEq, Except.ok.injEq] at hp
        subst hp
        simp only [hv]
        exact hV.loaded f _ _ _ _ hfl rfl
      | delivered =>
        have hold := hV.returned f _ v hfl hp
        exact hold
      | _ => simp at hp
    · simp at hp

/-- What a call returns. -/
theorem Views.answered {P : GoString → ℤ → Prop} (hV : Views P s) (hI : Inv s) (h : Moves s a o s') {c : ℕ}
    {v : ByteView} (ho : o = .returned c (.ok v)) {call : GetCall} (hc : s.calls c = some call) :
    P call.key v.version := by
  obtain ⟨call', hc', hsrc⟩ := h.answered c v ho
  rw [hc, Option.some.injEq] at hc'
  subst hc'
  cases hsrc with
  | hit _ he hv =>
    rw [← hv]
    exact hV.resident _ _ he
  | flight hw hfl hp =>
    have hinv := (hI.calls c call hc).2
    rw [hw] at hinv
    obtain ⟨-, fl, hfl', hkey⟩ := hinv
    rw [hfl, Option.some.injEq] at hfl'
    subst hfl'
    rw [← hkey]
    exact hV.returned _ _ v hfl hp

/-! ### Nothing is ahead of the source -/

/-- Every version in the group, its floors and its fences is committed. -/
structure Bounded (s : Engine) : Prop where
  views : Views (fun key v => v ≤ s.committed key) s
  floors : ∀ key, s.group.floors.floor key ≤ s.committed key
  calls : ∀ c key began fence captured, s.calls c = some ⟨key, began, .fenced fence captured⟩ →
    fence.minimum ≤ s.committed key
  names : ∀ f fl, s.flights f = some fl → fl.fence.minimum ≤ s.committed fl.key
  fences : ∀ f fl fence, s.flights f = some fl → fl.phase.fence? = some fence →
    fence.minimum ≤ s.committed fl.key
  reads : ∀ f fl attempt fence began seen, s.flights f = some fl → fl.phase = .reading attempt fence began seen →
    seen ≤ s.committed fl.key

theorem Bounded.below (hB : Bounded s) (key : GoString) : s.group.Below key (s.committed key) :=
  ⟨hB.floors key, hB.views.resident key⟩

theorem bounded_init {name : GoString} {capacity : ℤ} {versioned : Bool} {bloom : Option BloomFilter} {opts : Options}
    {g : Group} (h : newGroup name capacity versioned bloom opts = some g) : Bounded (init g) := by
  unfold newGroup at h
  split_ifs at h
  obtain ⟨o, -, rfl⟩ := Option.map_eq_some_iff.mp h
  exact ⟨⟨by simp [init, MainCache.find?], by simp [init], by simp [init]⟩, fun _ => le_rfl, by simp [init],
    by simp [init], by simp [init], by simp [init]⟩

/-- The floors after an action. -/
theorem Bounded.floors_step (hB : Bounded s) (hI : Inv s) (h : Moves s a o s') (hnot : s.Notifies a)
    (key : GoString) : s'.group.floors.floor key ≤ s.committed key := by
  cases h.group with
  | reads hr _ => rw [hr.eq]; exact hB.floors key
  | fills _ hf _ => rw [hf.eq]; exact hB.floors key
  | @invalidates k version now now' dropped ha _ _ hi _ =>
    rcases hi.floors with ⟨-, -, hf⟩ | ⟨-, hr⟩
    · rw [hf]
      exact hB.floors key
    · unfold VersionFloors.floor
      rw [hr.floor? key]
      by_cases hk : key = k
      · subst hk
        subst ha
        rw [if_pos rfl]
        exact max_le ((hB.below key).known_le hI.wf now) hnot
      · rw [if_neg hk]
        split_ifs
        · exact (VersionFloors.floor_nonneg hI.wf.floors key).trans (hB.floors key)
        · exact hB.floors key

/-- A current fence after an action. -/
theorem Bounded.fences_step (hB : Bounded s) {f : ℕ} {fl fl' : Flight} (hfl : s.flights f = some fl)
    (hst : FlightStep s a f fl fl') {fence : ReadFence} (hp : fl'.phase.fence? = some fence) :
    fence.minimum ≤ s.committed fl'.key := by
  have hold := fun fence hp => hB.fences f fl fence hfl hp
  cases hst with
  | hit _ _ => simp [Phase.fence?] at hp
  | miss => exact hold _ hp
  | call => exact hold _ hp
  | read _ _ => exact hold _ hp
  | filled _ _ _ => simp [Phase.fence?] at hp
  | failed _ => simp [Phase.fence?] at hp
  | rejected hfe hm =>
    simp only [Phase.fence?, Option.some.injEq] at hp
    subst hp
    exact max_le (hold _ hfe) (hm _ (hB.below _) (hold _ hfe))
  | retried _ _ hm =>
    simp only [Phase.fence?, Option.some.injEq] at hp
    subst hp
    exact max_le (hm _ (hB.below _)) (hold _ rfl)
  | delivered => simp [Phase.fence?] at hp

/-- **Every action keeps it**, over a source that answers with committed versions. -/
theorem Bounded.step (hB : Bounded s) (hI : Inv s) (h : Moves s a o s') (hver : s.group.versioned = true)
    (hsrc : s.Yields (fun key v => v ≤ s.committed key) a) (hnot : s.Notifies a) : Bounded s' := by
  have hcom := h.committed
  refine ⟨(hB.views.step h hver hsrc).mono fun key v hv => hv.trans (hcom key),
    fun key => (hB.floors_step hI h hnot key).trans (hcom key), fun c key began fence captured hc' => ?_,
    fun f fl' hfl' => ?_, fun f fl' fence hfl' hp => ?_, fun f fl' attempt fence began seen hfl' hp => ?_⟩
  · rcases h.calls c _ hc' with hc | hst
    · exact (hB.calls c _ _ _ _ hc).trans (hcom key)
    · generalize s.calls c = old at hst
      cases hst with
      | fence _ _ hm => exact (hm _ (hB.below key)).trans (hcom key)
  · rcases h.flights f fl' hfl' with hfl | ⟨fl, hfl, hst⟩ | ⟨-, c, key, began, fence, captured, hc, rfl⟩
    · exact (hB.names f fl' hfl).trans (hcom _)
    · rw [hst.key_eq.1, hst.key_eq.2]
      exact (hB.names f fl hfl).trans (hcom _)
    · exact (hB.calls c _ _ _ _ hc).trans (hcom key)
  · rcases h.flights f fl' hfl' with hfl | ⟨fl, hfl, hst⟩ | ⟨-, c, key, began, fence, captured, hc, rfl⟩
    · exact (hB.fences f fl' fence hfl hp).trans (hcom _)
    · exact (hB.fences_step hfl hst hp).trans (hcom _)
    · simp only [Phase.fence?, Option.some.injEq] at hp
      subst hp
      exact (hB.calls c _ _ _ _ hc).trans (hcom key)
  · rcases h.flights f fl' hfl' with hfl | ⟨fl, hfl, hst⟩ | ⟨-, c, key, began, fence, captured, -, rfl⟩
    · exact (hB.reads f fl' _ _ _ _ hfl hp).trans (hcom _)
    · cases hst with
      | call =>
        simp only [Phase.reading.injEq] at hp
        rw [← hp.2.2.2]
        exact hcom _
      | _ => simp at hp
    · simp at hp

/-! ### Flights of a deleted key -/

/-- After the commit of a deletion as version `v`, when there were `n` flights and the epoch was `epoch`: an earlier
flight does not bear `v` in its name, and a later one has read nothing. -/
structure Gone (key : GoString) (v : ℤ) (epoch n : ℕ) (F : Err → Prop) (s : Engine) : Prop where
  next : n ≤ s.next
  older : ∀ f fl, s.flights f = some fl → fl.key = key → f < n → fl.fence.minimum < v ∧ fl.fence.epoch ≤ epoch
  unread : ∀ f fl, s.flights f = some fl → fl.key = key → n ≤ f → ∀ attempt fence view,
    fl.phase ≠ .loaded attempt fence view
  failed : ∀ f fl, s.flights f = some fl → fl.key = key → n ≤ f → ∀ e, fl.phase = .returned (.error e) → F e

/-- The source and the surroundings of a deleted key fail with `F` only. -/
def Denies (s : Engine) (key : GoString) (F : Err → Prop) (a : Act) : Prop :=
  (∀ e ∈ a.faults, F e) ∧ ∀ f answer work work' work'' fl, a = .readSource f answer work work' work'' →
    s.flights f = some fl → fl.key = key → ∃ e, answer = .error e ∧ F e

theorem Gone.step {key : GoString} {v : ℤ} {epoch n : ℕ} {F : Err → Prop} (hG : Gone key v epoch n F s)
    (hF : F .notFound) (hI : Inv s) (h : Moves s a o s') (hden : s.Denies key F a) : Gone key v epoch n F s' := by
  refine ⟨hG.next.trans h.next, fun f fl' hfl' hk hn => ?_, fun f fl' hfl' hk hn attempt fence view hp => ?_,
    fun f fl' hfl' hk hn e hp => ?_⟩
  · rcases h.flights f fl' hfl' with hfl | ⟨fl, hfl, hst⟩ | ⟨rfl, -⟩
    · exact hG.older f fl' hfl hk hn
    · rw [hst.key_eq.2]
      exact hG.older f fl hfl (hst.key_eq.1.symm.trans hk) hn
    · exact absurd hG.next (not_le.mpr hn)
  · rcases h.flights f fl' hfl' with hfl | ⟨fl, hfl, hst⟩ | ⟨-, c, key, began, fence, captured, -, rfl⟩
    · exact hG.unread f fl' hfl hk hn _ _ _ hp
    · cases hst with
      | read ha _ =>
        obtain ⟨e, he, -⟩ := hden.2 f _ _ _ _ _ ha hfl hk
        simp at he
      | _ => simp at hp
    · simp at hp
  · rcases h.flights f fl' hfl' with hfl | ⟨fl, hfl, hst⟩ | ⟨-, c, key, began, fence, captured, -, rfl⟩
    · exact hG.failed f fl' hfl hk hn e hp
    · cases hst with
      | failed hf =>
        simp only [Phase.returned.injEq, Except.error.injEq] at hp
        subst hp
        cases hf with
        | fault he => exact hden.1 _ he
        | absent => exact hF
        | refused hno => exact absurd (hI.flights f _ hfl).valid hno
        | source ha =>
          obtain ⟨e', he, hFe⟩ := hden.2 f _ _ _ _ _ ha hfl hk
          rwa [Except.error.inj he]
        | unusable ha =>
          obtain ⟨e', he, -⟩ := hden.2 f _ _ _ _ _ ha hfl hk
          simp at he
        | stale => exact absurd rfl (hG.unread f _ hfl hk hn _ _ _)
      | delivered =>
        have hold := hG.failed f _ hfl hk hn e hp
        exact hold
      | _ => simp at hp
    · simp at hp

/-- A Get that began after the notification fails with `F` only. -/
theorem Gone.refused {key : GoString} {v : ℤ} {epoch n : ℕ} {F : Err → Prop} {s₁ : Engine}
    (hG : Gone key v epoch n F s) (hF : F .notFound) (hF' : F .overloaded) (hk : ValidKey key)
    (hep : epoch ≤ s₁.group.epoch key) (hA : (versionWatch key v s₁).After s) (h : Moves s a o s')
    (hden : s.Denies key F a) {c : ℕ} {e : Err} (ho : o = .returned c (.error e)) {call : GetCall}
    (hc : s.calls c = some call) (hkey : call.key = key) (hb : s₁.tick ≤ call.began) : F e := by
  obtain ⟨call', hc', href⟩ := h.refused c e ho
  rw [hc, Option.some.injEq] at hc'
  subst hc'
  cases href with
  | fault he => exact hden.1 e he
  | absent he => exact he ▸ hF
  | invalid hno => exact absurd (hkey ▸ hk) hno
  | overloaded he => exact he ▸ hF'
  | @flight f fl hw hfl hp =>
    have hcall := hA.calls c call hc hkey
    unfold Watch.CallOk at hcall
    rw [hw] at hcall
    obtain ⟨fl', hfl', hkey', hgood⟩ := hcall hb
    rw [hfl, Option.some.injEq] at hfl'
    subst hfl'
    refine hG.failed f fl hfl hkey' ?_ e hp
    -- an older flight has neither the version nor a later epoch in its name
    by_contra hlt
    obtain ⟨h1, h2⟩ := hG.older f fl hfl hkey' (not_le.mp hlt)
    rcases hgood with he | hm
    · have : s₁.group.epoch key + 1 ≤ fl.fence.epoch := he
      omega
    · exact absurd hm (not_le.mpr h1)

end Step

/-- **After a deletion**: `sc` is the state in which it was committed as version `v`, when every value and every
flight was older, and `s₁` one in which `v` was notified.  As long as the source has nothing else for the key, a Get
that starts after the notification returns an error, and none but `F`. -/
theorem absent_run {stp : Engine → Act → Option (Engine × Ans)} {key : GoString} {v : ℤ} {F : Err → Prop}
    (hF : F .notFound) (hF' : F .overloaded) (hk : ValidKey key) (hv : 0 < v)
    (hstp : ∀ s a r, stp s a = some r → s.step a = some r ∧ s.Truthful a ∧ s.Denies key F a) {sc s₀ s₁ s : Engine}
    {now now' : ℤ} {o : Ans} {tr₁ tr₂ : List Event} (hI : Inv sc) (hver : sc.group.versioned = true)
    (hold : ∀ f fl, sc.flights f = some fl → fl.key = key → fl.fence.minimum < v)
    (hviews : Views (fun k w => k = key → w < v) sc) (h₁ : Run stp sc tr₁ s₀)
    (hcom : v ≤ s₀.committed key) (hst : stp s₀ (.invalidate key v now now') = some (s₁, o))
    (h₂ : Run stp s₁ tr₂ s) :
    ∀ c o' a r, (.get c key, o') ∈ tr₂ → (a, .returned c r) ∈ tr₂ → ∃ e, r = .error e ∧ F e := by
  let G := fun s => Gone key v (sc.group.epoch key) sc.next F s ∧ Views (fun k w => k = key → w < v) s
  have hstep : ∀ s a o s', Inv s → s.group.versioned = true → G s → stp s a = some (s', o) →
      Inv s' ∧ s'.group.versioned = true ∧ G s' := by
    intro s a o s' hI hver hG hst
    obtain ⟨h1, -, h3⟩ := hstp s a _ hst
    have hm := moves hI.wf hI.fresh h1
    refine ⟨hI.step hm, hm.group.versioned.trans hver, hG.1.step hF hI hm h3, hG.2.step hm hver ?_⟩
    intro f fl attempt fence began seen value raw work work' work'' hfl _ ha hkey
    obtain ⟨e, he, -⟩ := h3.2 f _ _ _ _ fl ha hfl hkey
    simp at he
  -- the names that exist at the commit
  have hG : G sc := by
    refine ⟨⟨le_rfl, fun f fl hfl hkey _ => ⟨hold f fl hfl hkey, hkey ▸ (hI.flights f fl hfl).epoch⟩,
      fun f fl hfl _ hn => ?_, fun f fl hfl _ hn => ?_⟩, hviews⟩
    all_goals
      rw [hI.fresh f hn] at hfl
      simp at hfl
  obtain ⟨hI₀, hver₀, hG₀, hep₀⟩ := h₁.inv (I := fun s => Inv s ∧ s.group.versioned = true ∧ G s ∧
    sc.group.epoch key ≤ s.group.epoch key) ⟨hI, hver, hG, le_rfl⟩ fun s a o s' ⟨h1, h2, h3, h4⟩ hst => by
      have hm := moves h1.wf h1.fresh (hstp s a _ hst).1
      obtain ⟨h5, h6, h7⟩ := hstep s a o s' h1 h2 h3 hst
      exact ⟨h5, h6, h7, h4.trans (hm.group.epoch_le key)⟩
  have hst' := (hstp s₀ _ _ hst).1
  have hm₁ := moves hI₀.wf hI₀.fresh hst'
  obtain ⟨hI₁, hver₁, hG₁⟩ := hstep s₀ _ o s₁ hI₀ hver₀ hG₀ hst
  have hS := (h₂.rec_inv (I := fun tr s => (versionWatch key v s₁).Since (fun r => ∃ e, r = .error e ∧ F e) s₁ tr s ∧
    G s) ⟨.start hI₁ (after_notified hI₀ hk hv hcom hst'), hG₁⟩ fun tr s a o s' _ ⟨hS, hG⟩ hst => by
      obtain ⟨h1, h2, h3⟩ := hstp s a _ hst
      have hm := moves hS.inv.wf hS.inv.fresh h1
      have hverS := hS.versioned.trans hver₁
      refine ⟨hS.step hm (sourceOk_version hverS h2) fun c r call ho hc hkey hb => ?_,
        (hstep s a o s' hS.inv hverS hG hst).2.2⟩
      cases r with
      | error e =>
        exact ⟨e, rfl, hG.1.refused hF hF' hk (hep₀.trans (hm₁.group.epoch_le key)) hS.after hm h3 ho hc hkey hb⟩
      | ok view =>
        -- a value would be at least as new as the deletion, and is not
        have hnew : v ≤ view.version := (hS.after.answered hS.inv hm ho hc hkey hb).2
        have hold := hG.2.answered hS.inv hm ho hc hkey
        omega).1
  exact fun c o' a r hg hr => hS.answers c o' a r hg hr

end Engine

end SimpleCache.Cache
