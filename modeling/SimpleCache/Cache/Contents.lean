import SimpleCache.Cache.Lifetime
import SimpleCache.Cache.Retry

/-!
# Cache.Contents — the bytes and the version of a value stay together

`Views` speaks about the versions in a group.  `Contents P` speaks about whole values: what is stored, loaded or
returned by a flight under a key, with its bytes and its version, satisfies `P`.  Only the source brings new contents
in (`Supplies`), and a value passes through fills, hits and flights as it is, so that `P` holds of everything that a Get
returns (`Contents.answered`).
-/

namespace SimpleCache.Cache

open SimpleCache.Lib

/-! ### Sections that carry a value -/

theorem MainCache.add_b (c : MainCache) (key : GoString) (value : ByteView) (ttl now now' : ℤ) :
    (c.add key value ttl now now').1.b = value.b := by
  unfold add
  split_ifs
  · rfl
  · dsimp only
    split_ifs <;> rfl

/-- A fill returns the value that was loaded. -/
theorem Group.fill_b {g : Group} {key : GoString} {view v : ByteView} {fence : ReadFence} {now now₁ now₂ : ℤ}
    (h : (g.fill key view fence now now₁ now₂).1.result = .ok v) : v.b = view.b := by
  obtain ⟨-, ⟨-, -, -, hres, -⟩ | ⟨-, hres, -⟩⟩ := g.fill_cases key view fence now now₁ now₂
  · rw [hres, Except.ok.injEq] at h
    rw [← h]
    exact MainCache.add_b _ _ _ _ _ _
  · rw [(hres v h).1]

/-- What is stored after a fill was stored before, or is the value that was loaded. -/
theorem Group.fill_entry {g : Group} (hwf : g.WF) {key k : GoString} {view : ByteView} {fence : ReadFence}
    {now now₁ now₂ : ℤ} {e : Lru.Entry ByteView}
    (he : (g.fill key view fence now now₁ now₂).2.mainCache.find? k = some e) :
    g.mainCache.find? k = some e ∨ (k = key ∧ e.value.b = view.b ∧ e.value.version = view.version) := by
  have hshr := MainCache.shrinks_version hwf.cache key now
  obtain ⟨-, ⟨-, -, -, -, heq⟩ | ⟨-, -, heq⟩⟩ := g.fill_cases key view fence now now₁ now₂
  · rw [heq] at he
    rcases MainCache.add_entry (hwf.cache.version key now) he with ⟨rfl, rfl⟩ | ⟨-, hs⟩
    · exact Or.inr ⟨rfl, rfl, rfl⟩
    · exact Or.inl (hshr k e hs)
  · rw [heq] at he
    exact Or.inl (hshr k e he)

namespace Engine

/-- Every value, stored, loaded or returned by a flight, satisfies `P` together with its key. -/
structure Contents (P : GoString → GoString → ℤ → Prop) (s : Engine) : Prop where
  resident : ∀ key e, s.group.mainCache.find? key = some e → P key e.value.b e.value.version
  loaded : ∀ f fl attempt fence view, s.flights f = some fl → fl.phase = .loaded attempt fence view →
    P fl.key view.b view.version
  returned : ∀ f fl v, s.flights f = some fl → fl.phase = .returned (.ok v) → P fl.key v.b v.version

/-- What the source answers in an action satisfies `P`. -/
def Supplies (P : GoString → GoString → ℤ → Prop) (s : Engine) (a : Act) : Prop :=
  ∀ f fl attempt fence began seen value raw work work' work'', s.flights f = some fl →
    fl.phase = .reading attempt fence began seen → a = .readSource f (.ok (value, raw)) work work' work'' →
    P fl.key value raw

section Step

variable {P : GoString → GoString → ℤ → Prop} {s s' : Engine} {a : Act} {o : Ans}

theorem Contents.mono {P' : GoString → GoString → ℤ → Prop} (h : Contents P s)
    (hP : ∀ key value v, P key value v → P' key value v) : Contents P' s where
  resident key e he := hP _ _ _ (h.resident key e he)
  loaded f fl attempt fence view hfl hp := hP _ _ _ (h.loaded f fl attempt fence view hfl hp)
  returned f fl v hfl hp := hP _ _ _ (h.returned f fl v hfl hp)

theorem contents_init {name : GoString} {capacity : ℤ} {versioned : Bool} {bloom : Option BloomFilter}
    {opts : Options} {g : Group} (h : newGroup name capacity versioned bloom opts = some g) :
    Contents P (init g) := by
  unfold newGroup at h
  split_ifs at h
  obtain ⟨o, -, rfl⟩ := Option.map_eq_some_iff.mp h
  exact ⟨by simp [init, MainCache.find?], by simp [init], by simp [init]⟩

/-- Only the critical section of `loadSource` shows a fill. -/
theorem fill_of_filled {key : GoString} {captured : ℕ} {valid : Bool}
    (h : s.step a = some (s', .filled key captured valid)) : ∃ f now now₁ now₂ work, a = .fill f now now₁ now₂ work := by
  obtain ⟨⟨s₁, o₁⟩, hact, he⟩ := Option.map_eq_some_iff.mp h
  obtain ⟨-, rfl⟩ := Prod.mk.inj he
  cases a with
  | fill f now now₁ now₂ work => exact ⟨f, now, now₁, now₂, work, rfl⟩
  | _ =>
    exfalso
    simp only [act, answer] at hact
    repeat' split at hact
    all_goals simp at hact

/-- What a fill does to the flight that makes it and to the group. -/
theorem fill_step {f : ℕ} {now now₁ now₂ : ℤ} {work : Option Err}
    (h : s.step (.fill f now now₁ now₂ work) = some (s', o)) :
    ∃ key name captured attempt fence view j,
      s.flights f = some ⟨key, name, captured, .loaded attempt fence view, j⟩ ∧
      s'.group = (s.group.fill key view fence now now₁ now₂).2 := by
  obtain ⟨⟨s₁, o₁⟩, hact, he⟩ := Option.map_eq_some_iff.mp h
  obtain ⟨rfl, -⟩ := Prod.mk.inj he
  simp only [act] at hact
  split at hact
  · next key name captured attempt fence view j hfl =>
    simp only [Option.some.injEq, Prod.mk.injEq] at hact
    obtain ⟨rfl, -⟩ := hact
    exact ⟨key, name, captured, attempt, fence, view, j, hfl, rfl⟩
  · simp at hact

/-- What is stored after an action. -/
theorem Contents.resident_step (hC : Contents P s) (hwf : s.group.WF) (h : Moves s a o s')
    (hst : s.step a = some (s', o)) {key : GoString} {e : Lru.Entry ByteView}
    (he : s'.group.mainCache.find? key = some e) : P key e.value.b e.value.version := by
  cases h.group with
  | reads hr _ => exact hC.resident key e (hr.shrinks key e he)
  | @invalidates k version now now' dropped _ _ _ hi _ =>
    by_cases hk : key = k
    · subst hk
      exact hC.resident key e (hi.own e he).1
    · rw [hi.others key hk] at he
      exact hC.resident key e he
  | fills _ _ ho =>
    subst ho
    obtain ⟨f, now, now₁, now₂, work, rfl⟩ := fill_of_filled hst
    obtain ⟨k, name, captured, attempt, fence, view, j, hfl, hg⟩ := fill_step hst
    rw [hg] at he
    rcases Group.fill_entry hwf he with hold | ⟨rfl, hb, hv⟩
    · exact hC.resident key e hold
    · rw [hb, hv]
      exact hC.loaded f _ _ _ _ hfl rfl

/-- A value that a flight returns after a load is the one it has loaded. -/
theorem filled_b (hfresh : ∀ f, s.next ≤ f → s.flights f = none) (hst : s.step a = some (s', o)) {f : ℕ}
    {key : GoString} {name : ReadFence} {captured attempt : ℕ} {fence : ReadFence} {view v : ByteView} {j : Bool}
    (hfl : s.flights f = some ⟨key, name, captured, .loaded attempt fence view, j⟩)
    (hfl' : s'.flights f = some ⟨key, name, captured, .returned (.ok v), j⟩) : v.b = view.b := by
  cases flightMove hst f with
  | same hsame _ _ =>
    rw [hsame, hfl] at hfl'
    simp at hfl'
  | start _ hnext _ _ =>
    rw [hfresh f hnext.ge] at hfl
    simp at hfl
  | advance h h' hadv _ =>
    rw [hfl, Option.some.injEq] at h
    rw [hfl', Option.some.injEq] at h'
    subst h h'
    generalize hphase : Phase.returned (.ok v) = phase at hadv
    cases hadv with
    | fill =>
      -- the loop ends here only with the result of the fill
      unfold conclude at hphase
      split at hphase
      · split_ifs at hphase
        · simp at hphase
      · exact Group.fill_b (Phase.returned.inj hphase).symm

/-- **Contents are kept by every action**, as long as the source supplies them. -/
theorem Contents.step (hC : Contents P s) (hI : Inv s) (hver : s.group.versioned = true)
    (hst : s.step a = some (s', o)) (hsrc : s.Supplies P a) : Contents P s' := by
  have h := moves hI.wf hI.fresh hst
  refine ⟨fun key e he => hC.resident_step hI.wf h hst he, fun f fl' attempt fence view hfl' hp => ?_,
    fun f fl' v hfl' hp => ?_⟩
  · rcases h.flights f fl' hfl' with hfl | ⟨fl, hfl, hmove⟩ | ⟨-, c, key, began, fence, captured, -, rfl⟩
    · exact hC.loaded f fl' _ _ _ hfl hp
    · cases hmove with
      | read ha hraw =>
        simp only [Phase.loaded.injEq] at hp
        obtain ⟨-, -, rfl⟩ := hp
        simp only [hraw hver]
        exact hsrc f _ _ _ _ _ _ _ _ _ _ hfl rfl ha
      | _ => simp at hp
    · simp at hp
  · rcases h.flights f fl' hfl' with hfl | ⟨fl, hfl, hmove⟩ | ⟨-, c, key, began, fence, captured, -, rfl⟩
    · exact hC.returned f fl' v hfl hp
    · cases hmove with
      | hit he _ =>
        simp only [Phase.returned.injEq, Except.ok.injEq] at hp
        subst hp
        exact hC.resident _ _ he
      | filled hv _ _ =>
        simp only [Phase.returned.injEq, Except.ok.injEq] at hp
        subst hp
        simp only [hv, filled_b hI.fresh hst hfl hfl']
        exact hC.loaded f _ _ _ _ hfl rfl
      | delivered =>
        have hold := hC.returned f _ v hfl hp
        exact hold
      | _ => simp at hp
    · simp at hp

/-- What a Get returns. -/
theorem Contents.answered (hC : Contents P s) (hI : Inv s) (h : Moves s a o s') {c : ℕ} {v : ByteView}
    (ho : o = .returned c (.ok v)) : ∃ call, s.calls c = some call ∧ P call.key v.b v.version := by
  obtain ⟨call, hc, hsrc⟩ := h.answered c v ho
  refine ⟨call, hc, ?_⟩
  cases hsrc with
  | hit _ he hv =>
    rw [← hv]
    exact hC.resident _ _ he
  | flight hw hfl hp =>
    have hinv := (hI.calls c call hc).2
    rw [hw] at hinv
    obtain ⟨-, fl, hfl', hkey⟩ := hinv
    rw [hfl, Option.some.injEq] at hfl'
    subst hfl'
    rw [← hkey]
    exact hC.returned _ _ v hfl hp

end Step

end Engine

end SimpleCache.Cache
