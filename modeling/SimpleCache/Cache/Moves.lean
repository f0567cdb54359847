import SimpleCache.Cache.Flight

/-!
# Cache.Moves — what one action of the engine can do

`Engine.moves` says once, for all later proofs, what an action does to the group, to the flights and to the
callers: `FlightStep` and `CallStep` list the transitions of one flight and of one call.
-/

namespace SimpleCache.Cache

theorem flightKey_injective {fence fence' : ReadFence} {key key' : GoString}
    (h : flightKey fence key = flightKey fence' key') : fence = fence' ∧ key = key' := by
  have hu : ∀ n : ℕ, Go.formatUint n = Go.formatInt (n : ℤ) := fun _ => rfl
  unfold flightKey at h
  rw [hu, hu] at h
  obtain ⟨he, h⟩ := Go.formatInt_append_inj h
  obtain ⟨hm, hk⟩ := Go.formatInt_append_inj h
  obtain ⟨e, m⟩ := fence
  obtain ⟨e', m'⟩ := fence'
  simp only at he hm
  rw [Nat.cast_inj] at he
  rw [he, hm]
  exact ⟨rfl, hk⟩

/-- The current fence of a flight that has not returned. -/
def Phase.fence? : Phase → Option ReadFence
  | .lookup _ fence | .load _ fence | .reading _ fence _ _ | .loaded _ fence _ | .rejected fence => some fence
  | .returned _ => none

namespace Engine

/-- Why an action makes a flight return an error. -/
inductive Fails (s : Engine) (a : Act) (f : ℕ) (key : GoString) : Phase → Err → Prop
  | fault {phase e} : e ∈ a.faults → Fails s a f key phase e
  | absent {attempt fence} : Fails s a f key (.lookup attempt fence) .notFound
  | refused {attempt fence e} : ¬ ValidKey key → Fails s a f key (.lookup attempt fence) e
  | source {attempt fence began seen e work work' work''} : a = .readSource f (.error e) work work' work'' →
      Fails s a f key (.reading attempt fence began seen) e
  | unusable {attempt fence began seen e r work work' work''} : a = .readSource f (.ok r) work work' work'' →
      Fails s a f key (.reading attempt fence began seen) e
  | stale {attempt fence view e} : Fails s a f key (.loaded attempt fence view) e

/-- A transition of the flight `f` under the action `a`. -/
inductive FlightStep (s : Engine) (a : Act) (f : ℕ) : Flight → Flight → Prop
  | hit {key name captured attempt fence j e} : s.group.mainCache.find? key = some e →
      fence.minimum ≤ e.value.version →
      FlightStep s a f ⟨key, name, captured, .lookup attempt fence, j⟩
        ⟨key, name, captured, .returned (.ok e.value), j⟩
  | miss {key name captured attempt fence j} :
      FlightStep s a f ⟨key, name, captured, .lookup attempt fence, j⟩ ⟨key, name, captured, .load attempt fence, j⟩
  | call {key name captured attempt fence j} :
      FlightStep s a f ⟨key, name, captured, .load attempt fence, j⟩
        ⟨key, name, captured, .reading attempt fence s.tick (s.committed key), j⟩
  | read {key name captured attempt fence began seen j value version raw work work' work''} :
      a = .readSource f (.ok (value, raw)) work work' work'' → (s.group.versioned = true → version = raw) →
      FlightStep s a f ⟨key, name, captured, .reading attempt fence began seen, j⟩
        ⟨key, name, captured, .loaded attempt fence ⟨value, none, version, began⟩, j⟩
  | filled {key name captured attempt fence view j v} : v.version = view.version → v.readAt = view.readAt →
      fence.minimum ≤ view.version →
      FlightStep s a f ⟨key, name, captured, .loaded attempt fence view, j⟩
        ⟨key, name, captured, .returned (.ok v), j⟩
  | failed {key name captured phase j e} : Fails s a f key phase e →
      FlightStep s a f ⟨key, name, captured, phase, j⟩ ⟨key, name, captured, .returned (.error e), j⟩
  | rejected {key name captured phase j fence minimum} : phase.fence? = some fence →
      (∀ b, s.group.Below key b → fence.minimum ≤ b → minimum ≤ b) →
      FlightStep s a f ⟨key, name, captured, phase, j⟩
        ⟨key, name, captured, .rejected (fence.withMinimum minimum), j⟩
  | retried {key name captured fence j} {new : ReadFence} : new.epoch = s.group.epoch key →
      s.group.floors.floor key ≤ new.minimum → (∀ b, s.group.Below key b → new.minimum ≤ b) →
      FlightStep s a f ⟨key, name, captured, .rejected fence, j⟩
        ⟨key, name, s.tick, .lookup 1 (new.withMinimum fence.minimum), j⟩
  | delivered {key name captured r} :
      FlightStep s a f ⟨key, name, captured, .returned r, true⟩ ⟨key, name, captured, .returned r, false⟩

theorem FlightStep.key_eq {s : Engine} {a : Act} {f : ℕ} {fl fl' : Flight} (h : FlightStep s a f fl fl') :
    fl'.key = fl.key ∧ fl'.fence = fl.fence := by
  cases h <;> exact ⟨rfl, rfl⟩

/-- A transition of one call, to the engine `s'`. -/
inductive CallStep (s s' : Engine) : Option GetCall → GetCall → Prop
  | begin {key} : CallStep s s' none ⟨key, s.tick, .started⟩
  | miss {key began} : ValidKey key → CallStep s s' (some ⟨key, began, .started⟩) ⟨key, began, .missed⟩
  | admitWaiter {key began} : CallStep s s' (some ⟨key, began, .missed⟩) ⟨key, began, .admitted⟩
  | fence {key began fence} : fence.epoch = s.group.epoch key → s.group.floors.floor key ≤ fence.minimum →
      (∀ b, s.group.Below key b → fence.minimum ≤ b) →
      CallStep s s' (some ⟨key, began, .admitted⟩) ⟨key, began, .fenced fence s.tick⟩
  | join {key began fence captured f fl} : s'.flights f = some fl → fl.key = key → fl.fence = fence →
      CallStep s s' (some ⟨key, began, .fenced fence captured⟩) ⟨key, began, .waiting f⟩
  | answer (call : GetCall) : CallStep s s' (some call) { call with state := .answered }

/-- What an action does to the group. -/
inductive GroupStep (s : Engine) (a : Act) (o : Ans) (g' : Group) : Prop
  | reads : s.group.Reads g' → (∀ key captured valid, o ≠ .filled key captured valid) → GroupStep s a o g'
  | fills {f key name captured attempt fence view j r} :
      s.flights f = some ⟨key, name, captured, .loaded attempt fence view, j⟩ →
      s.group.Fills key view fence r g' → o = .filled key captured r.valid → GroupStep s a o g'
  | invalidates {key version now now' dropped} : a = .invalidate key version now now' → ValidKey key →
      0 ≤ version → s.group.Invalidates key version (s.group.knownVersionLocked key now).1 dropped g' →
      o = .invalidated (.ok (decide (version = 0 ∨ version > (s.group.knownVersionLocked key now).1))) →
      GroupStep s a o g'

/-- Where a value that `Get` returns comes from. -/
inductive Source (s : Engine) (call : GetCall) (v : ByteView) : Prop
  | hit {e} : ValidKey call.key → s.group.mainCache.find? call.key = some e → e.value = v → Source s call v
  | flight {f fl} : call.state = .waiting f → s.flights f = some fl → fl.phase = .returned (.ok v) →
      Source s call v

/-- Why `Get` returns an error. -/
inductive Refusal (s : Engine) (a : Act) (call : GetCall) (e : Err) : Prop
  | fault : e ∈ a.faults → Refusal s a call e
  | absent : e = .notFound → Refusal s a call e
  | invalid : ¬ ValidKey call.key → Refusal s a call e
  | overloaded : e = .overloaded → Refusal s a call e
  | flight {f fl} : call.state = .waiting f → s.flights f = some fl → fl.phase = .returned (.error e) →
      Refusal s a call e

/-- **What one action does.** -/
structure Moves (s : Engine) (a : Act) (o : Ans) (s' : Engine) : Prop where
  tick : s'.tick = s.tick + 1
  committed : ∀ key, s.committed key ≤ s'.committed key
  uncommitted : (∀ key v, a ≠ .commit key v) → s'.committed = s.committed
  group : GroupStep s a o s'.group
  next : s.next ≤ s'.next
  fresh : ∀ f, s'.next ≤ f → s'.flights f = none
  flights : ∀ f fl', s'.flights f = some fl' → s.flights f = some fl' ∨
    (∃ fl, s.flights f = some fl ∧ FlightStep s a f fl fl') ∨
    f = s.next ∧ ∃ c key began fence captured, s.calls c = some ⟨key, began, .fenced fence captured⟩ ∧
      fl' = ⟨key, fence, captured, .lookup 0 fence, true⟩
  persist : ∀ f fl, s.flights f = some fl → ∃ fl', s'.flights f = some fl' ∧ fl'.key = fl.key ∧ fl'.fence = fl.fence
  calls : ∀ c call', s'.calls c = some call' → s.calls c = some call' ∨ CallStep s s' (s.calls c) call'
  keep : ∀ c call, s.calls c = some call → ∃ call', s'.calls c = some call' ∧ call'.key = call.key ∧
    call'.began = call.began
  begun : ∀ c key, a = .get c key → s.calls c = none ∧ ∃ call', s'.calls c = some call' ∧ call'.key = key
  answered : ∀ c v, o = .returned c (.ok v) → ∃ call, s.calls c = some call ∧ Source s call v
  refused : ∀ c e, o = .returned c (.error e) → ∃ call, s.calls c = some call ∧ Refusal s a call e

/-! ### The three shapes of an action -/

section Shapes

variable {s : Engine} {a : Act} {o : Ans}

theorem reads_self (h : s.group.WF) : s.group.Reads s.group := Group.reads_of h h.cache fun _ _ he => he

/-- An action that touches the group only. -/
theorem moves_group {g' : Group} {committed' : GoString → ℤ} (hn : ∀ f, s.next ≤ f → s.flights f = none)
    (hg : GroupStep s a o g') (hc : ∀ key, s.committed key ≤ committed' key)
    (hu : (∀ key v, a ≠ .commit key v) → committed' = s.committed) (ha : ∀ c key, a ≠ .get c key)
    (ho : ∀ c r, o ≠ .returned c r) :
    Moves s a o { s with group := g', committed := committed', tick := s.tick + 1 } where
  tick := rfl
  committed := hc
  uncommitted := hu
  group := hg
  next := le_rfl
  fresh := hn
  flights _ _ h := Or.inl h
  persist _ fl h := ⟨fl, h, rfl, rfl⟩
  calls _ _ h := Or.inl h
  keep _ call h := ⟨call, h, rfl, rfl⟩
  begun c key h := absurd h (ha c key)
  answered c v h := absurd h (ho c (.ok v))
  refused c e h := absurd h (ho c (.error e))

/-- An action of one caller. -/
theorem moves_call {g' : Group} {c : ℕ} {call' : GetCall} {w : ℤ} (hn : ∀ f, s.next ≤ f → s.flights f = none)
    (hg : s.group.Reads g')
    (hstep : CallStep s ({ s with group := g', apiWaiters := w, tick := s.tick + 1 }.setCall c call') (s.calls c) call')
    (hsame : ∀ call, s.calls c = some call → call'.key = call.key ∧ call'.began = call.began)
    (ha : ∀ c' key, a = .get c' key → c' = c ∧ s.calls c = none ∧ call'.key = key)
    (ho : ∀ c' v, o = .returned c' (.ok v) → ∃ call, s.calls c' = some call ∧ Source s call v)
    (he : ∀ c' e, o = .returned c' (.error e) → ∃ call, s.calls c' = some call ∧ Refusal s a call e)
    (hf : ∀ key captured valid, o ≠ .filled key captured valid) :
    Moves s a o ({ s with group := g', apiWaiters := w, tick := s.tick + 1 }.setCall c call') where
  tick := rfl
  committed _ := le_rfl
  uncommitted _ := rfl
  group := .reads hg hf
  next := le_rfl
  fresh := hn
  flights _ _ h := Or.inl h
  persist _ fl h := ⟨fl, h, rfl, rfl⟩
  calls c' call'' h := by
    by_cases hc : c' = c
    · subst hc
      have : some call' = some call'' := by rw [← h]; exact (Function.update_self (f := s.calls) c' _).symm
      rw [← Option.some.inj this]
      exact Or.inr hstep
    · exact Or.inl (by rw [← h]; exact (Function.update_of_ne hc _ s.calls).symm)
  keep c' call h := by
    by_cases hc : c' = c
    · subst hc
      exact ⟨call', Function.update_self (f := s.calls) c' _, hsame call h⟩
    · exact ⟨call, by rw [← h]; exact Function.update_of_ne hc _ s.calls, rfl, rfl⟩
  begun c' key h := by
    obtain ⟨rfl, h1, h2⟩ := ha c' key h
    exact ⟨h1, call', Function.update_self (f := s.calls) c' _, h2⟩
  answered := ho
  refused := he

/-- An action of one flight. -/
theorem moves_flight {g' : Group} {f : ℕ} {fl fl' : Flight} (hn : ∀ f, s.next ≤ f → s.flights f = none)
    (hfl : s.flights f = some fl) (hg : GroupStep s a o g') (hstep : FlightStep s a f fl fl')
    (ha : ∀ c key, a ≠ .get c key) (ho : ∀ c r, o ≠ .returned c r) :
    Moves s a o ({ s with group := g', tick := s.tick + 1 }.setFlight f fl') where
  tick := rfl
  committed _ := le_rfl
  uncommitted _ := rfl
  group := hg
  next := le_rfl
  fresh f' hf' := by
    have hne : f' ≠ f := by
      rintro rfl
      rw [hn f' hf'] at hfl
      simp at hfl
    exact (Function.update_of_ne hne _ s.flights).trans (hn f' hf')
  flights f' fl'' h := by
    by_cases hc : f' = f
    · subst hc
      have : some fl' = some fl'' := by rw [← h]; exact (Function.update_self (f := s.flights) f' _).symm
      rw [← Option.some.inj this]
      exact Or.inr (Or.inl ⟨fl, hfl, hstep⟩)
    · exact Or.inl (by rw [← h]; exact (Function.update_of_ne hc _ s.flights).symm)
  persist f' fl'' h := by
    by_cases hc : f' = f
    · subst hc
      rw [hfl, Option.some.injEq] at h
      subst h
      exact ⟨fl', Function.update_self (f := s.flights) f' _, hstep.key_eq⟩
    · exact ⟨fl'', by rw [← h]; exact Function.update_of_ne hc _ s.flights, rfl, rfl⟩
  calls _ _ h := Or.inl h
  keep _ call h := ⟨call, h, rfl, rfl⟩
  begun c key h := absurd h (ha c key)
  answered c v h := absurd h (ho c (.ok v))
  refused c e h := absurd h (ho c (.error e))

/-- A caller that starts a flight. -/
theorem moves_start {c : ℕ} {key : GoString} {began : ℕ} {fence : ReadFence} {captured : ℕ}
    (hn : ∀ f, s.next ≤ f → s.flights f = none) (hg : s.group.Reads s.group)
    (hc : s.calls c = some ⟨key, began, .fenced fence captured⟩) :
    Moves s (.join c) .quiet
      { s with
        calls := Function.update s.calls c (some ⟨key, began, .waiting s.next⟩)
        flights := Function.update s.flights s.next (some ⟨key, fence, captured, .lookup 0 fence, true⟩)
        next := s.next + 1
        tick := s.tick + 1 } where
  tick := rfl
  committed _ := le_rfl
  uncommitted _ := rfl
  group := .reads hg (by simp)
  next := Nat.le_succ _
  fresh f hf := by
    have hf' : s.next + 1 ≤ f := hf
    exact (Function.update_of_ne (by omega) _ s.flights).trans (hn f (by omega))
  flights f fl' h := by
    by_cases hf : f = s.next
    · subst hf
      refine Or.inr (Or.inr ⟨rfl, c, key, began, fence, captured, hc, ?_⟩)
      have : some ⟨key, fence, captured, .lookup 0 fence, true⟩ = some fl' := by
        rw [← h]; exact (Function.update_self (f := s.flights) s.next _).symm
      exact (Option.some.inj this).symm
    · exact Or.inl (by rw [← h]; exact (Function.update_of_ne hf _ s.flights).symm)
  persist f fl h := by
    have hf : f ≠ s.next := by
      rintro rfl
      rw [hn s.next le_rfl] at h
      simp at h
    exact ⟨fl, by rw [← h]; exact Function.update_of_ne hf _ s.flights, rfl, rfl⟩
  calls c' call' h := by
    by_cases hcc : c' = c
    · subst hcc
      have : some ⟨key, began, .waiting s.next⟩ = some call' := by
        rw [← h]; exact (Function.update_self (f := s.calls) c' _).symm
      rw [← Option.some.inj this, hc]
      exact Or.inr (.join (Function.update_self (f := s.flights) s.next _) rfl rfl)
    · exact Or.inl (by rw [← h]; exact (Function.update_of_ne hcc _ s.calls).symm)
  keep c' call h := by
    by_cases hcc : c' = c
    · subst hcc
      rw [hc, Option.some.injEq] at h
      subst h
      exact ⟨_, Function.update_self (f := s.calls) c' _, rfl, rfl⟩
    · exact ⟨call, by rw [← h]; exact Function.update_of_ne hcc _ s.calls, rfl, rfl⟩
  begun _ _ h := by simp at h
  answered _ _ h := by simp at h
  refused _ _ h := by simp at h

/-- The end of an attempt: an error that ends the flight, or a rejection. -/
theorem conclude_step {f : ℕ} {key : GoString} {name : ReadFence} {captured attempt : ℕ} {phase : Phase} {j : Bool}
    {fence : ReadFence} (hp : phase.fence? = some fence) {minimum : ℤ} {e : Err} (work : Option Err)
    (hm : ∀ b, s.group.Below key b → fence.minimum ≤ b → minimum ≤ b) (he : Fails s a f key phase e) :
    FlightStep s a f ⟨key, name, captured, phase, j⟩
      ⟨key, name, captured, conclude attempt fence minimum (.error e) work, j⟩ := by
  unfold conclude
  split
  · next heq =>
    rw [Except.error.injEq] at heq
    subst heq
    split_ifs
    · exact .failed he
    · exact .rejected hp hm
  · exact .failed he

end Shapes

/-! ### Every action is a move -/

theorem joinable_spec {s : Engine} {name : GoString} {f : ℕ} (h : s.joinable name = some f) :
    ∃ fl, s.flights f = some fl ∧ flightKey fl.fence fl.key = name := by
  have hf := List.find?_some h
  cases hfl : s.flights f with
  | none => rw [hfl] at hf; simp at hf
  | some fl =>
    rw [hfl] at hf
    simp only [Bool.and_eq_true, decide_eq_true_eq] at hf
    exact ⟨fl, rfl, hf.2⟩

/-- An answer that passes the checks of `loadSource` is one of the source. -/
theorem checkLoaded_ok {versioned : Bool} {answer : Except Err (GoString × ℤ)} {work work' : Option Err}
    {value : GoString} {version : ℤ} (h : checkLoaded versioned answer work work' = .ok (value, version)) :
    ∃ raw, answer = .ok (value, raw) ∧ (versioned = true → version = raw) := by
  unfold checkLoaded at h
  cases answer with
  | error e => simp at h
  | ok r =>
    obtain ⟨value', raw⟩ := r
    simp only at h
    generalize hver : (if versioned = true then raw else 0) = v at h
    by_cases hbad : versioned = true ∧ v ≤ 0
    · rw [if_pos hbad] at h; simp at h
    rw [if_neg hbad] at h
    cases work with
    | some e => simp at h
    | none =>
      by_cases hbig : value'.length > maxValueBytes
      · simp only [if_pos hbig] at h; simp at h
      simp only [if_neg hbig] at h
      cases work' with
      | some e => simp at h
      | none =>
        simp only [Except.ok.injEq, Prod.mk.injEq] at h
        obtain ⟨rfl, rfl⟩ := h
        exact ⟨raw, rfl, fun ht => by rw [← hver, if_pos ht]⟩

/-- **Every action of the engine is a move.** -/
theorem moves {s s' : Engine} {a : Act} {o : Ans} (hwf : s.group.WF) (hn : ∀ f, s.next ≤ f → s.flights f = none)
    (h : s.step a = some (s', o)) : Moves s a o s' := by
  obtain ⟨⟨s₁, o₁⟩, hact, he⟩ := Option.map_eq_some_iff.mp h
  obtain ⟨rfl, rfl⟩ := Prod.mk.inj he
  have hself := reads_self hwf
  clear h he
  cases a with
  | get c key =>
    simp only [act] at hact
    cases hc : s.calls c with
    | some call => rw [hc] at hact; simp at hact
    | none =>
      rw [hc] at hact
      simp only [Option.some.injEq, Prod.mk.injEq] at hact
      obtain ⟨rfl, rfl⟩ := hact
      exact moves_call hn hself (by rw [hc]; exact .begin) (by simp [hc])
        (fun c' key' h => by obtain ⟨rfl, rfl⟩ := Act.get.inj h; exact ⟨rfl, hc, rfl⟩) (by simp)
        (by simp) (by simp)
  | lookup c ctx now =>
    simp only [act] at hact
    have hr := Group.reads_lookup hwf ctx
    split at hact
    · next key began hc =>
      have hr := hr key now
      cases hres : (s.group.lookup ctx key now).1 with
      | error e =>
        rw [hres] at hact
        simp only [answer, Option.some.injEq, Prod.mk.injEq] at hact
        obtain ⟨rfl, rfl⟩ := hact
        refine moves_call hn hr (by rw [hc]; exact .answer ⟨key, began, .started⟩) (by simp [hc]) (by simp)
          (by simp) (fun c' e' h => ?_) (by simp)
        simp only [Ans.returned.injEq, Except.error.injEq] at h
        obtain ⟨rfl, rfl⟩ := h
        refine ⟨_, hc, ?_⟩
        rcases Group.lookup_error hres with hctx | hk | he
        · exact .fault (by rw [hctx]; exact List.mem_singleton_self _)
        · exact .invalid hk
        · exact .absent he
      | ok r =>
        rw [hres] at hact
        cases r with
        | some v =>
          simp only [answer, Option.some.injEq, Prod.mk.injEq] at hact
          obtain ⟨rfl, rfl⟩ := hact
          refine moves_call hn hr (by rw [hc]; exact .answer ⟨key, began, .started⟩) (by simp [hc])
            (by simp) (fun c' v' h => ?_) (by simp) (by simp)
          simp only [Ans.returned.injEq, Except.ok.injEq] at h
          obtain ⟨rfl, rfl⟩ := h
          obtain ⟨hk, e, hf, -, hv⟩ := Group.lookup_hit hwf hres
          exact ⟨_, hc, .hit hk hf hv⟩
        | none =>
          simp only [Option.some.injEq, Prod.mk.injEq] at hact
          obtain ⟨rfl, rfl⟩ := hact
          exact moves_call hn hr (by rw [hc]; exact .miss (Group.lookup_valid hres)) (by simp [hc]) (by simp)
            (by simp) (by simp) (by simp)
    · simp at hact
  | admitWaiter c =>
    simp only [act] at hact
    split at hact
    · next key began hc =>
      split_ifs at hact
      · simp only [Option.some.injEq, Prod.mk.injEq] at hact
        obtain ⟨rfl, rfl⟩ := hact
        exact moves_call hn hself (by rw [hc]; exact .admitWaiter) (by simp [hc]) (by simp) (by simp) (by simp) (by simp)
      · simp only [answer, Option.some.injEq, Prod.mk.injEq] at hact
        obtain ⟨rfl, rfl⟩ := hact
        refine moves_call hn hself (by rw [hc]; exact .answer ⟨key, began, .missed⟩) (by simp [hc])
          (by simp) (by simp) (fun c' e' h => ?_) (by simp)
        simp only [Ans.returned.injEq, Except.error.injEq] at h
        obtain ⟨rfl, rfl⟩ := h
        exact ⟨_, hc, .overloaded rfl⟩
    · simp at hact
  | barrier c now =>
    simp only [act] at hact
    split at hact
    · next key began hc =>
      simp only [Option.some.injEq, Prod.mk.injEq] at hact
      obtain ⟨rfl, rfl⟩ := hact
      obtain ⟨h1, h2, h3⟩ := Group.readBarrier_fence hwf key now
      exact moves_call hn (Group.reads_readBarrier hwf key now) (by rw [hc]; exact .fence h1 h2 h3) (by simp [hc])
        (by simp) (by simp) (by simp) (by simp)
    · simp at hact
  | join c =>
    simp only [act] at hact
    split at hact
    · next key began fence captured hc =>
      cases hj : s.joinable (flightKey fence key) with
      | some f =>
        rw [hj] at hact
        simp only [Option.some.injEq, Prod.mk.injEq] at hact
        obtain ⟨rfl, rfl⟩ := hact
        obtain ⟨fl, hfl, hname⟩ := joinable_spec hj
        obtain ⟨hfe, hke⟩ := flightKey_injective hname
        exact moves_call hn hself (by rw [hc]; exact .join hfl hke hfe) (by simp [hc]) (by simp) (by simp)
          (by simp) (by simp)
      | none =>
        rw [hj] at hact
        simp only [Option.some.injEq, Prod.mk.injEq] at hact
        obtain ⟨rfl, rfl⟩ := hact
        exact moves_start hn hself hc
    · simp at hact
  | await c ctx =>
    simp only [act] at hact
    split at hact
    · next key began f hc =>
      cases ctx with
      | some e =>
        simp only [answer, Option.some.injEq, Prod.mk.injEq] at hact
        obtain ⟨rfl, rfl⟩ := hact
        refine moves_call hn hself (by rw [hc]; exact .answer ⟨key, began, .waiting f⟩) (by simp [hc])
          (by simp) (by simp) (fun c' e' h => ?_) (by simp)
        simp only [Ans.returned.injEq, Except.error.injEq] at h
        obtain ⟨rfl, rfl⟩ := h
        exact ⟨_, hc, .fault (List.mem_singleton_self _)⟩
      | none =>
        simp only at hact
        split at hact
        · next fl r hfl =>
          simp only [answer, Option.some.injEq, Prod.mk.injEq] at hact
          obtain ⟨rfl, rfl⟩ := hact
          refine moves_call hn hself (by rw [hc]; exact .answer ⟨key, began, .waiting f⟩) (by simp [hc])
            (by simp) (fun c' v h => ?_) (fun c' e h => ?_) (by simp)
          · simp only [Ans.returned.injEq] at h
            obtain ⟨rfl, rfl⟩ := h
            exact ⟨_, hc, .flight rfl hfl rfl⟩
          · simp only [Ans.returned.injEq] at h
            obtain ⟨rfl, rfl⟩ := h
            exact ⟨_, hc, .flight rfl hfl rfl⟩
        · simp at hact
    · simp at hact
  | flightLookup f work now =>
    simp only [act] at hact
    split at hact
    · next key name captured attempt fence j hfl =>
      obtain ⟨hl, hhit, herr⟩ := Group.lookupAtLeast_eq (g := s.group) work key fence.minimum now
      have hr : s.group.Reads (s.group.lookupAtLeast work key fence.minimum now).2 := by
        rw [hl]; exact Group.reads_lookup hwf work key now
      cases hres : (s.group.lookupAtLeast work key fence.minimum now).1 with
      | error e =>
        rw [hres] at hact
        simp only [Option.some.injEq, Prod.mk.injEq] at hact
        obtain ⟨rfl, rfl⟩ := hact
        refine moves_flight hn hfl (.reads hr (by simp)) (.failed ?_) (by simp) (by simp)
        rcases Group.lookup_error (herr e hres) with hctx | hk | rfl
        · exact .fault (by rw [hctx]; exact List.mem_singleton_self _)
        · exact .refused hk
        · exact .absent
      | ok r =>
        rw [hres] at hact
        cases r with
        | none =>
          simp only [Option.some.injEq, Prod.mk.injEq] at hact
          obtain ⟨rfl, rfl⟩ := hact
          exact moves_flight hn hfl (.reads hr (by simp)) .miss (by simp) (by simp)
        | some v =>
          simp only [Option.some.injEq, Prod.mk.injEq] at hact
          obtain ⟨rfl, rfl⟩ := hact
          obtain ⟨hlk, hmin⟩ := hhit v hres
          obtain ⟨-, e, hf, -, rfl⟩ := Group.lookup_hit hwf hlk
          exact moves_flight hn hfl (.reads hr (by simp)) (.hit hf hmin) (by simp) (by simp)
    · simp at hact
  | callSource f slot work =>
    simp only [act] at hact
    split at hact
    · next key name captured attempt fence j hfl =>
      simp only [Option.some.injEq, Prod.mk.injEq] at hact
      obtain ⟨rfl, rfl⟩ := hact
      refine moves_flight hn hfl (.reads hself (by simp)) ?_ (by simp) (by simp)
      cases slot with
      | some e => exact conclude_step rfl work (fun _ _ h => h) (.fault (by simp [Act.faults]))
      | none =>
        cases work with
        | some e => exact conclude_step rfl _ (fun _ _ h => h) (.fault (by simp [Act.faults]))
        | none => exact .call
    · simp at hact
  | readSource f answer work work' work'' =>
    simp only [act] at hact
    split at hact
    · next key name captured attempt fence began seen j hfl =>
      simp only [Option.some.injEq, Prod.mk.injEq] at hact
      obtain ⟨rfl, rfl⟩ := hact
      refine moves_flight hn hfl (.reads hself (by simp)) ?_ (by simp) (by simp)
      cases hres : checkLoaded s.group.versioned answer work work' with
      | error e =>
        refine conclude_step rfl work'' (fun _ _ h => h) ?_
        cases answer with
        | error e' =>
          obtain rfl : e' = e := Except.error.inj hres
          exact .source rfl
        | ok r => exact .unusable rfl
      | ok r =>
        obtain ⟨value, version⟩ := r
        obtain ⟨raw, rfl, hraw⟩ := checkLoaded_ok hres
        exact .read rfl hraw
    · simp at hact
  | fill f now now₁ now₂ work =>
    simp only [act] at hact
    split at hact
    · next key name captured attempt fence view j hfl =>
      simp only [Option.some.injEq, Prod.mk.injEq] at hact
      obtain ⟨rfl, rfl⟩ := hact
      have hf := Group.fill_spec hwf key view fence now now₁ now₂
      refine moves_flight hn hfl (.fills hfl hf rfl) ?_ (by simp) (by simp)
      cases hres : (s.group.fill key view fence now now₁ now₂).1.result with
      | error e => exact conclude_step rfl work hf.minimum_le .stale
      | ok v =>
        obtain ⟨h1, h2, h3⟩ := hf.ok v hres
        exact .filled h1 h2 (hf.minimum.1.trans h3)
    · simp at hact
  | retryBarrier f now =>
    simp only [act] at hact
    split at hact
    · next key name captured fence j hfl =>
      simp only [Option.some.injEq, Prod.mk.injEq] at hact
      obtain ⟨rfl, rfl⟩ := hact
      obtain ⟨h1, h2, h3⟩ := Group.readBarrier_fence hwf key now
      exact moves_flight hn hfl (.reads (Group.reads_readBarrier hwf key now) (by simp)) (.retried h1 h2 h3) (by simp)
        (by simp)
    · simp at hact
  | deliver f =>
    simp only [act] at hact
    split at hact
    · next key name captured r hfl =>
      simp only [Option.some.injEq, Prod.mk.injEq] at hact
      obtain ⟨rfl, rfl⟩ := hact
      exact moves_flight hn hfl (.reads hself (by simp)) .delivered (by simp) (by simp)
    · simp at hact
  | invalidate key version now now' =>
    simp only [act, Option.some.injEq, Prod.mk.injEq] at hact
    obtain ⟨rfl, rfl⟩ := hact
    by_cases hok : ValidKey key ∧ 0 ≤ version
    · obtain ⟨hres, dropped, hinv⟩ := Group.invalidate_spec hwf hok.1 hok.2 now now'
      exact moves_group hn (.invalidates rfl hok.1 hok.2 hinv (by rw [hres])) (fun _ => le_rfl) (fun _ => rfl) (by simp) (by simp)
    · have hsame := (Group.invalidate_refused (g := s.group) hok now now').2
      simp only [hsame]
      exact moves_group hn (.reads hself (by simp)) (fun _ => le_rfl) (fun _ => rfl) (by simp) (by simp)
  | clean busy now start ticks =>
    simp only [act, Option.some.injEq, Prod.mk.injEq] at hact
    obtain ⟨rfl, rfl⟩ := hact
    exact moves_group hn (.reads (Group.reads_cleanExpired hwf busy now start ticks) (by simp)) (fun _ => le_rfl)
      (fun _ => rfl) (by simp) (by simp)
  | commit key version =>
    simp only [act, Option.some.injEq, Prod.mk.injEq] at hact
    obtain ⟨rfl, rfl⟩ := hact
    refine moves_group hn (.reads hself (by simp)) (fun k => ?_) (fun hne => absurd rfl (hne key version)) (by simp)
      (by simp)
    dsimp only
    by_cases hk : k = key
    · subst hk
      rw [Function.update_self]
      exact le_max_left _ _
    · rw [Function.update_of_ne hk]

end Engine

end SimpleCache.Cache
