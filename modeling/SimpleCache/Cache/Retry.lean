import SimpleCache.Cache.Freshness

/-!
# Cache.Retry — one source flight, over an arbitrary source

What a flight has observed bounds what it returns and inserts: the minimum of its fence, the minimum at which its first
attempt was rejected, and the barrier it captured again.  Nothing is assumed about the source: its answers are any
values, versions and errors.  The group is one on which notifications, retirements of floors, cleanup and the fills of
other flights go on between any two actions of the flight.

`Advance` lists the transitions of a flight with the action that makes them; `PhaseOk` is what a flight carries from
one to the next.
-/

namespace SimpleCache.Cache.Engine

open Lib (Run Happened happened_snoc not_happened_nil)

/-! ### What a flight observes -/

/-- The action in which a flight calls the source. -/
def callsSource (f : ℕ) : Act → Bool
  | .callSource f' none none => decide (f' = f)
  | _ => false

/-- How often a flight has called the source. -/
def sourceCalls (f : ℕ) (tr : List Event) : ℕ := tr.countP fun e => callsSource f e.1

/-- An attempt of a flight ends in `ErrStaleVersion`, at a minimum, with its deadline not yet passed. -/
inductive Rejects (s : Engine) (f : ℕ) : Act → ℤ → Prop
  | fill {key name captured attempt fence view j now now₁ now₂} :
      s.flights f = some ⟨key, name, captured, .loaded attempt fence view, j⟩ →
      (s.group.fill key view fence now now₁ now₂).1.result = .error .staleVersion →
      Rejects s f (.fill f now now₁ now₂ none) (s.group.fill key view fence now now₁ now₂).1.minimum
  | source {key name captured attempt fence began seen j answer work work'} :
      s.flights f = some ⟨key, name, captured, .reading attempt fence began seen, j⟩ →
      checkLoaded s.group.versioned answer work work' = .error .staleVersion →
      Rejects s f (.readSource f answer work work' none) fence.minimum

/-- A flight captures the barrier again, with this result. -/
inductive Recaptures (s : Engine) (f : ℕ) : Act → ReadFence → Prop
  | barrier {key name captured fence j now} : s.flights f = some ⟨key, name, captured, .rejected fence, j⟩ →
      Recaptures s f (.retryBarrier f now) (s.group.readBarrier key now).1

section Observed

variable (g : Group) (f : ℕ) (tr : List Event)

/-- The flight was rejected at the minimum `m`. -/
def RejectedAt (m : ℤ) : Prop := Happened step (init g) (fun s a => Rejects s f a m) tr

/-- The flight captured the fence `fence` again. -/
def Recaptured (fence : ReadFence) : Prop := Happened step (init g) (fun s a => Recaptures s f a fence) tr

/-- At least as new as everything that a flight which started with the fence `own` has observed. -/
structure AtLeast (own : ReadFence) (version : ℤ) : Prop where
  fence : own.minimum ≤ version
  rejected : ∀ m, RejectedAt g f tr m → m ≤ version
  barrier : ∀ fence, Recaptured g f tr fence → fence.minimum ≤ version

/-- The epoch of the latest fence that the flight has captured. -/
structure LatestEpoch (own : ReadFence) (epoch : ℕ) : Prop where
  first : (∀ fence, ¬ Recaptured g f tr fence) → epoch = own.epoch
  again : ∀ fence, Recaptured g f tr fence → epoch = fence.epoch

end Observed

/-! ### The transitions of a flight -/

/-- The actions of a flight. -/
def touches (f : ℕ) : Act → Bool
  | .flightLookup f' _ _ | .callSource f' _ _ | .readSource f' _ _ _ _ | .fill f' _ _ _ _ | .retryBarrier f' _ |
    .deliver f' => decide (f' = f)
  | _ => false

/-- A transition of the flight `f`, with its action. -/
inductive Advance (s : Engine) (f : ℕ) : Act → Flight → Flight → Prop
  | lookup {key name captured attempt fence j work now phase} :
      (phase = .load attempt fence ∨ (∃ e, phase = .returned (.error e)) ∨
        ∃ v, phase = .returned (.ok v) ∧ fence.minimum ≤ v.version) →
      Advance s f (.flightLookup f work now) ⟨key, name, captured, .lookup attempt fence, j⟩
        ⟨key, name, captured, phase, j⟩
  | call {key name captured attempt fence j began seen} :
      Advance s f (.callSource f none none) ⟨key, name, captured, .load attempt fence, j⟩
        ⟨key, name, captured, .reading attempt fence began seen, j⟩
  | turned {key name captured attempt fence j slot work e} : callsSource f (.callSource f slot work) = false →
      Advance s f (.callSource f slot work) ⟨key, name, captured, .load attempt fence, j⟩
        ⟨key, name, captured, conclude attempt fence fence.minimum (.error e) work, j⟩
  | read {key name captured attempt fence began seen j answer work work' work'' view} :
      (∀ e, checkLoaded s.group.versioned answer work work' ≠ .error e) →
      Advance s f (.readSource f answer work work' work'') ⟨key, name, captured, .reading attempt fence began seen, j⟩
        ⟨key, name, captured, .loaded attempt fence view, j⟩
  | unread {key name captured attempt fence began seen j answer work work' work'' e} :
      checkLoaded s.group.versioned answer work work' = .error e →
      Advance s f (.readSource f answer work work' work'') ⟨key, name, captured, .reading attempt fence began seen, j⟩
        ⟨key, name, captured, conclude attempt fence fence.minimum (.error e) work'', j⟩
  | fill {key name captured attempt fence view j now now₁ now₂ work} :
      Advance s f (.fill f now now₁ now₂ work) ⟨key, name, captured, .loaded attempt fence view, j⟩
        ⟨key, name, captured, conclude attempt fence (s.group.fill key view fence now now₁ now₂).1.minimum
          (s.group.fill key view fence now now₁ now₂).1.result work, j⟩
  | retry {key name captured fence j now} :
      Advance s f (.retryBarrier f now) ⟨key, name, captured, .rejected fence, j⟩
        ⟨key, name, s.tick, .lookup 1 ((s.group.readBarrier key now).1.withMinimum fence.minimum), j⟩
  | deliver {key name captured r} :
      Advance s f (.deliver f) ⟨key, name, captured, .returned r, true⟩ ⟨key, name, captured, .returned r, false⟩

variable {s s' : Engine} {a : Act} {o : Ans} {f : ℕ}

/-- A flight is left alone, is started, or advances. -/
inductive FlightMove (s : Engine) (a : Act) (s' : Engine) (f : ℕ) : Prop
  | same : s'.flights f = s.flights f → touches f a = false → s.next ≤ s'.next → FlightMove s a s' f
  | start {key fence captured} : touches f a = false → f = s.next → s'.next = s.next + 1 →
      s'.flights f = some ⟨key, fence, captured, .lookup 0 fence, true⟩ → FlightMove s a s' f
  | advance {fl fl'} : s.flights f = some fl → s'.flights f = some fl' → Advance s f a fl fl' → s.next ≤ s'.next →
      FlightMove s a s' f

/-- A step of the flight `f'`, as seen by the flight `f`. -/
theorem FlightMove.of_set {f' : ℕ} {fl fl' : Flight} {s₁ : Engine} (hfl : s.flights f' = some fl)
    (hs : s₁.flights = Function.update s.flights f' (some fl')) (ht : touches f a = decide (f' = f))
    (hadv : Advance s f' a fl fl') (hn : s.next ≤ s₁.next) : FlightMove s a s₁ f := by
  by_cases hf : f' = f
  · subst hf
    exact .advance hfl (by rw [hs, Function.update_self]) hadv hn
  · refine .same (by rw [hs, Function.update_of_ne (Ne.symm hf)]) ?_ hn
    rw [ht]
    exact decide_eq_false hf

/-- A hit in a lookup of a flight is at least as new as its minimum. -/
theorem lookupAtLeast_min {g : Group} {work : Option Err} {key : GoString} {minimum now : ℤ} {v : ByteView}
    (h : (g.lookupAtLeast work key minimum now).1 = .ok (some v)) : minimum ≤ v.version := by
  unfold Group.lookupAtLeast at h
  split at h
  · simp only [Except.ok.injEq] at h
    split_ifs at h with hlt
    · exact Option.some.inj h ▸ not_lt.mp hlt
  · next r hr =>
    refine absurd ?_ (hr v (g.lookup work key now).2)
    exact Prod.ext h rfl

/-- **How an action moves a flight.** -/
theorem flightMove (h : s.step a = some (s', o)) (f : ℕ) : FlightMove s a s' f := by
  obtain ⟨⟨s₁, o₁⟩, hact, he⟩ := Option.map_eq_some_iff.mp h
  obtain ⟨rfl, rfl⟩ := Prod.mk.inj he
  clear h he
  cases a with
  | get c key =>
    simp only [act] at hact
    split at hact
    · simp at hact
    · simp only [Option.some.injEq, Prod.mk.injEq] at hact
      obtain ⟨rfl, rfl⟩ := hact
      exact .same rfl rfl le_rfl
  | lookup c ctx now =>
    simp only [act] at hact
    split at hact
    · split at hact <;>
      · simp only [answer, Option.some.injEq, Prod.mk.injEq] at hact
        obtain ⟨rfl, rfl⟩ := hact
        exact .same rfl rfl le_rfl
    · simp at hact
  | admitWaiter c =>
    simp only [act] at hact
    split at hact
    · split_ifs at hact <;>
      · simp only [answer, Option.some.injEq, Prod.mk.injEq] at hact
        obtain ⟨rfl, rfl⟩ := hact
        exact .same rfl rfl le_rfl
    · simp at hact
  | barrier c now =>
    simp only [act] at hact
    split at hact
    · simp only [Option.some.injEq, Prod.mk.injEq] at hact
      obtain ⟨rfl, rfl⟩ := hact
      exact .same rfl rfl le_rfl
    · simp at hact
  | join c =>
    simp only [act] at hact
    split at hact
    · next key began fence captured hc =>
      split at hact
      · simp only [Option.some.injEq, Prod.mk.injEq] at hact
        obtain ⟨rfl, rfl⟩ := hact
        exact .same rfl rfl le_rfl
      · simp only [Option.some.injEq, Prod.mk.injEq] at hact
        obtain ⟨rfl, rfl⟩ := hact
        by_cases hf : f = s.next
        · subst hf
          exact .start rfl rfl rfl (Function.update_self (f := s.flights) s.next _)
        · exact .same (Function.update_of_ne hf _ s.flights) rfl (Nat.le_succ _)
    · simp at hact
  | await c ctx =>
    simp only [act] at hact
    split at hact
    · cases ctx with
      | some e =>
        simp only [answer, Option.some.injEq, Prod.mk.injEq] at hact
        obtain ⟨rfl, rfl⟩ := hact
        exact .same rfl rfl le_rfl
      | none =>
        simp only at hact
        split at hact
        · simp only [answer, Option.some.injEq, Prod.mk.injEq] at hact
          obtain ⟨rfl, rfl⟩ := hact
          exact .same rfl rfl le_rfl
        · simp at hact
    · simp at hact
  | flightLookup f' work now =>
    simp only [act] at hact
    split at hact
    · next key name captured attempt fence j hfl =>
      simp only [Option.some.injEq, Prod.mk.injEq] at hact
      obtain ⟨rfl, rfl⟩ := hact
      refine .of_set hfl rfl rfl (.lookup ?_) le_rfl
      split
      · next e _ => exact Or.inr (Or.inl ⟨e, rfl⟩)
      · next v hv => exact Or.inr (Or.inr ⟨v, rfl, lookupAtLeast_min hv⟩)
      · exact Or.inl rfl
    · simp at hact
  | callSource f' slot work =>
    simp only [act] at hact
    split at hact
    · next key name captured attempt fence j hfl =>
      simp only [Option.some.injEq, Prod.mk.injEq] at hact
      obtain ⟨rfl, rfl⟩ := hact
      refine .of_set hfl rfl rfl ?_ le_rfl
      cases slot with
      | some e => exact .turned rfl
      | none =>
        cases work with
        | some e => exact .turned rfl
        | none => exact .call
    · simp at hact
  | readSource f' answer work work' work'' =>
    simp only [act] at hact
    split at hact
    · next key name captured attempt fence began seen j hfl =>
      simp only [Option.some.injEq, Prod.mk.injEq] at hact
      obtain ⟨rfl, rfl⟩ := hact
      refine .of_set hfl rfl rfl ?_ le_rfl
      cases hres : checkLoaded s.group.versioned answer work work' with
      | error e => exact .unread hres
      | ok r => exact .read (by simp [hres])
    · simp at hact
  | fill f' now now₁ now₂ work =>
    simp only [act] at hact
    split at hact
    · next key name captured attempt fence view j hfl =>
      simp only [Option.some.injEq, Prod.mk.injEq] at hact
      obtain ⟨rfl, rfl⟩ := hact
      exact .of_set hfl rfl rfl .fill le_rfl
    · simp at hact
  | retryBarrier f' now =>
    simp only [act] at hact
    split at hact
    · next key name captured fence j hfl =>
      simp only [Option.some.injEq, Prod.mk.injEq] at hact
      obtain ⟨rfl, rfl⟩ := hact
      exact .of_set hfl rfl rfl .retry le_rfl
    · simp at hact
  | deliver f' =>
    simp only [act] at hact
    split at hact
    · next key name captured r hfl =>
      simp only [Option.some.injEq, Prod.mk.injEq] at hact
      obtain ⟨rfl, rfl⟩ := hact
      exact .of_set hfl rfl rfl .deliver le_rfl
    · simp at hact
  | invalidate key version now now' =>
    simp only [act, Option.some.injEq, Prod.mk.injEq] at hact
    obtain ⟨rfl, rfl⟩ := hact
    exact .same rfl rfl le_rfl
  | clean busy now start ticks =>
    simp only [act, Option.some.injEq, Prod.mk.injEq] at hact
    obtain ⟨rfl, rfl⟩ := hact
    exact .same rfl rfl le_rfl
  | commit key version =>
    simp only [act, Option.some.injEq, Prod.mk.injEq] at hact
    obtain ⟨rfl, rfl⟩ := hact
    exact .same rfl rfl le_rfl

/-! ### What a flight carries -/

section Carried

variable (g : Group) (f : ℕ) (tr : List Event) (own : ReadFence)

/-- In its first attempt a flight has its own fence and has observed nothing since. -/
structure FirstAttempt (fence : ReadFence) : Prop where
  own : fence = own
  unrejected : ∀ m, ¬ RejectedAt g f tr m
  once : ∀ b, ¬ Recaptured g f tr b

/-- In its second attempt the fence of a flight covers what it has observed. -/
structure SecondAttempt (fence : ReadFence) : Prop where
  atLeast : AtLeast g f tr own fence.minimum
  latest : LatestEpoch g f tr own fence.epoch

/-- What a flight carries at a phase, with the number of its source calls. -/
def PhaseOk (calls : ℕ) : Phase → Prop
  | .lookup n fence | .load n fence =>
    (n = 0 ∧ FirstAttempt g f tr own fence ∧ calls = 0) ∨
      (n = 1 ∧ SecondAttempt g f tr own fence ∧ calls ≤ 1 ∧ (calls = 1 → ∃ m, RejectedAt g f tr m))
  | .reading n fence _ _ | .loaded n fence _ =>
    (n = 0 ∧ FirstAttempt g f tr own fence ∧ calls = 1) ∨ (n = 1 ∧ SecondAttempt g f tr own fence ∧ calls ≤ 2)
  | .rejected fence => AtLeast g f tr own fence.minimum ∧ (∀ b, ¬ Recaptured g f tr b) ∧ calls ≤ 1 ∧
      (calls = 1 → ∃ m, RejectedAt g f tr m)
  | .returned r => calls ≤ 2 ∧ ∀ v, r = .ok v → AtLeast g f tr own v.version

/-- What holds of the flight number `f`, started or not. -/
def FlightOk (s : Engine) : Prop :=
  match s.flights f with
  | none => sourceCalls f tr = 0 ∧ (∀ m, ¬ RejectedAt g f tr m) ∧ ∀ b, ¬ Recaptured g f tr b
  | some fl => PhaseOk g f tr fl.fence (sourceCalls f tr) fl.phase

end Carried

/-- What is not below the fence of an attempt is not below anything observed. -/
theorem atLeast_of_attempt {g : Group} {tr : List Event} {own fence : ReadFence} {v : ℤ}
    (h : FirstAttempt g f tr own fence ∨ SecondAttempt g f tr own fence) (hv : fence.minimum ≤ v) :
    AtLeast g f tr own v := by
  rcases h with h | h
  · exact ⟨h.own ▸ hv, fun m hx => absurd hx (h.unrejected m), fun b hx => absurd hx (h.once b)⟩
  · exact ⟨h.atLeast.fence.trans hv, fun m hx => (h.atLeast.rejected m hx).trans hv,
      fun b hx => (h.atLeast.barrier b hx).trans hv⟩

theorem sourceCalls_snoc (f : ℕ) (tr : List Event) (a : Act) (o : Ans) :
    sourceCalls f (tr ++ [(a, o)]) = sourceCalls f tr + if callsSource f a then 1 else 0 := by
  unfold sourceCalls
  rw [List.countP_append, List.countP_singleton]

/-- An action that is not one of the flight shows it nothing. -/
theorem touches_of_calls (h : callsSource f a = true) : touches f a = true := by
  cases a with
  | callSource f' slot work =>
    cases slot with
    | some e => simp [callsSource] at h
    | none =>
      cases work with
      | some e => simp [callsSource] at h
      | none => exact h
  | _ => simp [callsSource] at h

theorem Rejects.touches {m : ℤ} (h : Rejects s f a m) : touches f a = true := by
  cases h <;> simp [Engine.touches]

theorem Recaptures.touches {b : ReadFence} (h : Recaptures s f a b) : touches f a = true := by
  cases h
  simp [Engine.touches]

section Step

variable {g : Group} {tr : List Event} {own : ReadFence} (hr : Run step (init g) tr s)

include hr

theorem rejectedAt_snoc {m : ℤ} : RejectedAt g f (tr ++ [(a, o)]) m ↔ RejectedAt g f tr m ∨ Rejects s f a m :=
  happened_snoc hr

theorem recaptured_snoc {b : ReadFence} :
    Recaptured g f (tr ++ [(a, o)]) b ↔ Recaptured g f tr b ∨ Recaptures s f a b :=
  happened_snoc hr

/-- An action without an observation for the flight. -/
theorem AtLeast.quiet {v : ℤ} (h : AtLeast g f tr own v) (hm : ∀ m, ¬ Rejects s f a m)
    (hb : ∀ b, ¬ Recaptures s f a b) : AtLeast g f (tr ++ [(a, o)]) own v where
  fence := h.fence
  rejected m hx := h.rejected m (((rejectedAt_snoc hr).mp hx).resolve_right (hm m))
  barrier b hx := h.barrier b (((recaptured_snoc hr).mp hx).resolve_right (hb b))

theorem FirstAttempt.quiet {fence : ReadFence} (h : FirstAttempt g f tr own fence) (hm : ∀ m, ¬ Rejects s f a m)
    (hb : ∀ b, ¬ Recaptures s f a b) : FirstAttempt g f (tr ++ [(a, o)]) own fence where
  own := h.own
  unrejected m hx := h.unrejected m (((rejectedAt_snoc hr).mp hx).resolve_right (hm m))
  once b hx := h.once b (((recaptured_snoc hr).mp hx).resolve_right (hb b))

theorem LatestEpoch.quiet {epoch : ℕ} (h : LatestEpoch g f tr own epoch) (hb : ∀ b, ¬ Recaptures s f a b) :
    LatestEpoch g f (tr ++ [(a, o)]) own epoch where
  first hx := h.first fun b hb' => hx b ((recaptured_snoc hr).mpr (Or.inl hb'))
  again b hx := h.again b (((recaptured_snoc hr).mp hx).resolve_right (hb b))

theorem SecondAttempt.quiet {fence : ReadFence} (h : SecondAttempt g f tr own fence) (hm : ∀ m, ¬ Rejects s f a m)
    (hb : ∀ b, ¬ Recaptures s f a b) : SecondAttempt g f (tr ++ [(a, o)]) own fence :=
  ⟨h.atLeast.quiet hr hm hb, h.latest.quiet hr hb⟩

theorem PhaseOk.quiet {calls : ℕ} (phase : Phase) (h : PhaseOk g f tr own calls phase) (hm : ∀ m, ¬ Rejects s f a m)
    (hb : ∀ b, ¬ Recaptures s f a b) : PhaseOk g f (tr ++ [(a, o)]) own calls phase := by
  have hstale : (calls = 1 → ∃ m, RejectedAt g f tr m) → calls = 1 → ∃ m, RejectedAt g f (tr ++ [(a, o)]) m := by
    intro hx hc
    obtain ⟨m, hm'⟩ := hx hc
    exact ⟨m, (rejectedAt_snoc hr).mpr (Or.inl hm')⟩
  cases phase with
  | lookup n fence =>
    exact h.imp (fun ⟨h1, h2, h3⟩ => ⟨h1, h2.quiet hr hm hb, h3⟩)
      fun ⟨h1, h2, h3, h4⟩ => ⟨h1, h2.quiet hr hm hb, h3, hstale h4⟩
  | load n fence =>
    exact h.imp (fun ⟨h1, h2, h3⟩ => ⟨h1, h2.quiet hr hm hb, h3⟩)
      fun ⟨h1, h2, h3, h4⟩ => ⟨h1, h2.quiet hr hm hb, h3, hstale h4⟩
  | reading n fence began seen =>
    exact h.imp (fun ⟨h1, h2, h3⟩ => ⟨h1, h2.quiet hr hm hb, h3⟩) fun ⟨h1, h2, h3⟩ => ⟨h1, h2.quiet hr hm hb, h3⟩
  | loaded n fence view =>
    exact h.imp (fun ⟨h1, h2, h3⟩ => ⟨h1, h2.quiet hr hm hb, h3⟩) fun ⟨h1, h2, h3⟩ => ⟨h1, h2.quiet hr hm hb, h3⟩
  | rejected fence =>
    obtain ⟨h1, h2, h3, h4⟩ := h
    exact ⟨h1.quiet hr hm hb, fun b hx => h2 b (((recaptured_snoc hr).mp hx).resolve_right (hb b)), h3, hstale h4⟩
  | returned r => exact ⟨h.1, fun v hv => (h.2 v hv).quiet hr hm hb⟩

/-- The end of an attempt. -/
theorem phaseOk_conclude {calls attempt : ℕ} {fence : ReadFence} (minimum : ℤ) (result : Except Err ByteView)
    (work : Option Err)
    (h : (attempt = 0 ∧ FirstAttempt g f tr own fence ∧ calls ≤ 1) ∨
      (attempt = 1 ∧ SecondAttempt g f tr own fence ∧ calls ≤ 2))
    (hok : ∀ v, result = .ok v → fence.minimum ≤ v.version)
    (hrej : ∀ m, Rejects s f a m → result = .error .staleVersion ∧ m ≤ max fence.minimum minimum)
    (hstale : attempt = 0 → result = .error .staleVersion → work = none → calls = 1 → ∃ m, Rejects s f a m)
    (hb : ∀ b, ¬ Recaptures s f a b) :
    PhaseOk g f (tr ++ [(a, o)]) own calls (conclude attempt fence minimum result work) := by
  have hcalls : calls ≤ 2 := by rcases h with ⟨-, -, h⟩ | ⟨-, -, h⟩ <;> omega
  have hleast : ∀ v, fence.minimum ≤ v → (∀ m, ¬ Rejects s f a m) → AtLeast g f (tr ++ [(a, o)]) own v := by
    intro v hv hm
    have hold : AtLeast g f tr own v := atLeast_of_attempt (h.imp (fun h => h.2.1) fun h => h.2.1) hv
    exact hold.quiet hr hm hb
  unfold conclude
  split
  · split_ifs with hend
    · exact ⟨hcalls, by simp⟩
    · -- the first attempt, with its deadline not yet passed
      simp only [not_or, not_not] at hend
      rcases h with ⟨h0, hf, h1⟩ | ⟨h1, -⟩
      · refine ⟨⟨?_, fun m hx => ?_, fun b hx => ?_⟩, fun b hx => ?_, h1, fun hc => ?_⟩
        · exact hf.own ▸ le_max_left _ _
        · exact (hrej m (((rejectedAt_snoc hr).mp hx).resolve_left (hf.unrejected m))).2
        · exact absurd (((recaptured_snoc hr).mp hx).resolve_left (hf.once b)) (hb b)
        · exact absurd (((recaptured_snoc hr).mp hx).resolve_left (hf.once b)) (hb b)
        · obtain ⟨m, hm⟩ := hstale h0 rfl hend.2 hc
          exact ⟨m, (rejectedAt_snoc hr).mpr (Or.inr hm)⟩
      · exact absurd h1 hend.1
  · next hne =>
    refine ⟨hcalls, fun v hv => hleast _ (hok v hv) fun m hm => ?_⟩
    have := (hrej m hm).1
    exact hne this

end Step

/-! ### The run of a flight -/

variable {g : Group} {tr : List Event}

/-- **A transition of a flight keeps what it carries.** -/
theorem PhaseOk.advance (hr : Run step (init g) tr s) (hwf : s.group.WF) {fl fl' : Flight}
    (hfl : s.flights f = some fl) (h : PhaseOk g f tr fl.fence (sourceCalls f tr) fl.phase) (hadv : Advance s f a fl fl') :
    PhaseOk g f (tr ++ [(a, o)]) fl'.fence (sourceCalls f (tr ++ [(a, o)])) fl'.phase := by
  rw [sourceCalls_snoc]
  cases hadv with
  | @lookup key name captured attempt fence j work now phase hp =>
    have hm : ∀ m, ¬ Rejects s f (.flightLookup f work now) m := by rintro m ⟨⟩
    have hb : ∀ b, ¬ Recaptures s f (.flightLookup f work now) b := by rintro b ⟨⟩
    simp only [callsSource, Bool.false_eq_true, if_false, Nat.add_zero]
    rcases hp with rfl | ⟨e, rfl⟩ | ⟨v, rfl, hv⟩
    · exact PhaseOk.quiet hr (.load attempt fence) h hm hb
    · have hcalls : sourceCalls f tr ≤ 2 := by rcases h with ⟨-, -, h⟩ | ⟨-, -, h, -⟩ <;> omega
      exact ⟨hcalls, by simp⟩
    · have hc : (attempt = 0 ∧ FirstAttempt g f tr name fence ∧ sourceCalls f tr ≤ 1) ∨
          (attempt = 1 ∧ SecondAttempt g f tr name fence ∧ sourceCalls f tr ≤ 2) :=
        h.imp (fun ⟨h1, h2, h3⟩ => ⟨h1, h2, h3.le.trans (by omega)⟩) fun ⟨h1, h2, h3, _⟩ => ⟨h1, h2, by omega⟩
      exact phaseOk_conclude hr 0 (.ok v) none hc
        (fun v' hv' => Except.ok.inj hv' ▸ hv) (fun m hx => absurd hx (hm m)) (by simp) hb
  | @call key name captured attempt fence j began seen =>
    have hm : ∀ m, ¬ Rejects s f (.callSource f none none) m := by rintro m ⟨⟩
    have hb : ∀ b, ¬ Recaptures s f (.callSource f none none) b := by rintro b ⟨⟩
    simp only [callsSource, decide_true, if_true]
    rcases h with ⟨h1, h2, h3⟩ | ⟨h1, h2, h3, -⟩
    · exact Or.inl ⟨h1, h2.quiet hr hm hb, by omega⟩
    · exact Or.inr ⟨h1, h2.quiet hr hm hb, by omega⟩
  | @turned key name captured attempt fence j slot work e hno =>
    have hm : ∀ m, ¬ Rejects s f (.callSource f slot work) m := by rintro m ⟨⟩
    have hb : ∀ b, ¬ Recaptures s f (.callSource f slot work) b := by rintro b ⟨⟩
    rw [if_neg (by simp [hno]), Nat.add_zero]
    have h0 : attempt = 0 → sourceCalls f tr = 0 := by
      rintro rfl
      rcases h with ⟨-, -, h⟩ | ⟨h, -⟩
      · exact h
      · simp at h
    refine phaseOk_conclude hr _ _ _ ?_ (by simp) (fun m hx => absurd hx (hm m)) (fun ha _ _ hc => ?_) hb
    · exact h.imp (fun ⟨h1, h2, h3⟩ => ⟨h1, h2, by omega⟩) fun ⟨h1, h2, h3, _⟩ => ⟨h1, h2, by omega⟩
    · rw [h0 ha] at hc
      simp at hc
  | @read key name captured attempt fence began seen j answer work work' work'' view hok =>
    have hm : ∀ m, ¬ Rejects s f (.readSource f answer work work' work'') m := by
      rintro m (_ | ⟨hfl', hstale⟩)
      exact hok _ hstale
    have hb : ∀ b, ¬ Recaptures s f (.readSource f answer work work' work'') b := by rintro b ⟨⟩
    exact PhaseOk.quiet hr (.loaded attempt fence view) h hm hb
  | @unread key name captured attempt fence began seen j answer work work' work'' e hres =>
    have hb : ∀ b, ¬ Recaptures s f (.readSource f answer work work' work'') b := by rintro b ⟨⟩
    refine phaseOk_conclude hr _ _ _ ?_ (by simp) ?_ (fun _ hst hwork _ => ?_) hb
    · exact h.imp (fun ⟨h1, h2, h3⟩ => ⟨h1, h2, h3.le⟩) id
    · rintro m (_ | ⟨hfl', hstale⟩)
      rw [hfl, Option.some.injEq] at hfl'
      simp only [Flight.mk.injEq, Phase.reading.injEq] at hfl'
      obtain ⟨-, -, -, ⟨-, rfl, -⟩, -⟩ := hfl'
      rw [hres] at hstale
      exact ⟨congrArg Except.error (Except.error.inj hstale), le_max_left _ _⟩
    · subst hwork
      obtain rfl : e = .staleVersion := Except.error.inj hst
      exact ⟨_, .source hfl hres⟩
  | @fill key name captured attempt fence view j now now₁ now₂ work =>
    have hb : ∀ b, ¬ Recaptures s f (.fill f now now₁ now₂ work) b := by rintro b ⟨⟩
    refine phaseOk_conclude hr _ _ _ ?_ (fun v hv => ?_) ?_ (fun _ hst hwork _ => ?_) hb
    · exact h.imp (fun ⟨h1, h2, h3⟩ => ⟨h1, h2, h3.le⟩) id
    · have hfill := Group.fill_spec hwf key view fence now now₁ now₂
      obtain ⟨h1, -, h2⟩ := hfill.ok v hv
      rw [h1]
      exact hfill.minimum.1.trans h2
    · rintro m (⟨hfl', hstale⟩ | _)
      rw [hfl, Option.some.injEq] at hfl'
      simp only [Flight.mk.injEq, Phase.loaded.injEq] at hfl'
      obtain ⟨rfl, -, -, ⟨-, rfl, rfl⟩, -⟩ := hfl'
      exact ⟨hstale, le_max_right _ _⟩
    · subst hwork
      exact ⟨_, .fill hfl hst⟩
  | @retry key name captured fence j now =>
    have hm : ∀ m, ¬ Rejects s f (.retryBarrier f now) m := by rintro m ⟨⟩
    obtain ⟨hleast, hnot, hcalls, hstale⟩ := h
    have honly : ∀ b, Recaptured g f (tr ++ [(.retryBarrier f now, o)]) b → b = (s.group.readBarrier key now).1 := by
      intro b hx
      obtain ⟨hfl'⟩ := ((recaptured_snoc hr).mp hx).resolve_left (hnot b)
      rw [hfl, Option.some.injEq] at hfl'
      simp only [Flight.mk.injEq] at hfl'
      obtain ⟨rfl, -⟩ := hfl'
      rfl
    have hmax : fence.minimum ≤ ((s.group.readBarrier key now).1.withMinimum fence.minimum).minimum :=
      le_max_right _ _
    refine Or.inr ⟨rfl, ⟨⟨hleast.fence.trans hmax, fun m hx => ?_, fun b hx => ?_⟩, fun hx => ?_, fun b hx => ?_⟩,
      hcalls, fun hc => ?_⟩
    · exact (hleast.rejected m (((rejectedAt_snoc hr).mp hx).resolve_right (hm m))).trans hmax
    · rw [honly b hx]
      exact le_max_left _ _
    · exact absurd ((recaptured_snoc hr).mpr (Or.inr (.barrier hfl))) (hx _)
    · rw [honly b hx]
      rfl
    · obtain ⟨m, hm'⟩ := hstale hc
      exact ⟨m, (rejectedAt_snoc hr).mpr (Or.inl hm')⟩
  | @deliver key name captured r =>
    have hm : ∀ m, ¬ Rejects s f (.deliver f) m := by rintro m ⟨⟩
    have hb : ∀ b, ¬ Recaptures s f (.deliver f) b := by rintro b ⟨⟩
    exact PhaseOk.quiet hr (.returned r) h hm hb

/-- The invariant of a run: what every flight carries, and no flight beyond the last number. -/
structure Carries (g : Group) (tr : List Event) (s : Engine) : Prop where
  wf : s.group.WF
  fresh : ∀ f, s.next ≤ f → s.flights f = none
  flights : ∀ f, FlightOk g f tr s

theorem carries_init (hwf : g.WF) : Carries g [] (init g) where
  wf := hwf
  fresh _ _ := rfl
  flights _ := ⟨rfl, fun _ => not_happened_nil, fun _ => not_happened_nil⟩

theorem carries_step (hr : Run step (init g) tr s) (hc : Carries g tr s) (h : s.step a = some (s', o)) :
    Carries g (tr ++ [(a, o)]) s' := by
  have hquiet : ∀ f, touches f a = false → (∀ m, ¬ Rejects s f a m) ∧ (∀ b, ¬ Recaptures s f a b) ∧
      sourceCalls f (tr ++ [(a, o)]) = sourceCalls f tr := by
    intro f ht
    refine ⟨fun m hx => by rw [hx.touches] at ht; simp at ht, fun b hx => by rw [hx.touches] at ht; simp at ht, ?_⟩
    have hno : callsSource f a ≠ true := fun hx => by rw [touches_of_calls hx] at ht; simp at ht
    rw [sourceCalls_snoc, if_neg hno, Nat.add_zero]
  refine ⟨(moves hc.wf hc.fresh h).group.wf, fun f hf => ?_, fun f => ?_⟩
  · cases flightMove h f with
    | same hsame _ hn => exact hsame.trans (hc.fresh f (hn.trans hf))
    | start _ hnext hn => omega
    | advance hfl _ _ hn => rw [hc.fresh f (hn.trans hf)] at hfl; simp at hfl
  · have hok := hc.flights f
    unfold FlightOk at hok ⊢
    cases flightMove h f with
    | same hsame ht _ =>
      obtain ⟨hm, hb, hcalls⟩ := hquiet f ht
      rw [hsame, hcalls]
      cases hfl : s.flights f with
      | none =>
        rw [hfl] at hok
        exact ⟨hok.1, fun m hx => hok.2.1 m (((rejectedAt_snoc hr).mp hx).resolve_right (hm m)),
          fun b hx => hok.2.2 b (((recaptured_snoc hr).mp hx).resolve_right (hb b))⟩
      | some fl =>
        rw [hfl] at hok
        exact PhaseOk.quiet hr _ hok hm hb
    | start ht hnext _ hfl' =>
      obtain ⟨hm, hb, hcalls⟩ := hquiet f ht
      rw [hc.fresh f hnext.ge] at hok
      rw [hfl', hcalls]
      refine Or.inl ⟨rfl, ⟨rfl, fun m hx => ?_, fun b hx => ?_⟩, hok.1⟩
      · exact hok.2.1 m (((rejectedAt_snoc hr).mp hx).resolve_right (hm m))
      · exact hok.2.2 b (((recaptured_snoc hr).mp hx).resolve_right (hb b))
    | advance hfl hfl' hadv _ =>
      rw [hfl] at hok
      rw [hfl']
      exact PhaseOk.advance hr hc.wf hfl hok hadv

theorem carries_run (hwf : g.WF) (h : Run step (init g) tr s) : Carries g tr s :=
  h.rec_inv (I := Carries g) (carries_init hwf) fun _ _ _ _ _ hr hc hst => carries_step hr hc hst

theorem PhaseOk.calls_le {own : ReadFence} {calls : ℕ} {phase : Phase} (h : PhaseOk g f tr own calls phase) :
    calls ≤ 2 := by
  cases phase with
  | lookup n fence => rcases h with ⟨-, -, h⟩ | ⟨-, -, h, -⟩ <;> omega
  | load n fence => rcases h with ⟨-, -, h⟩ | ⟨-, -, h, -⟩ <;> omega
  | reading n fence began seen => rcases h with ⟨-, -, h⟩ | ⟨-, -, h⟩ <;> omega
  | loaded n fence view => rcases h with ⟨-, -, h⟩ | ⟨-, -, h⟩ <;> omega
  | rejected fence => exact h.2.2.1.trans (by omega)
  | returned r => exact h.1

theorem sourceCalls_le (hc : Carries g tr s) (f : ℕ) : sourceCalls f tr ≤ 2 := by
  have hok := hc.flights f
  unfold FlightOk at hok
  cases hfl : s.flights f with
  | none => rw [hfl] at hok; omega
  | some fl => rw [hfl] at hok; exact hok.calls_le

/-- A second source call follows a rejection. -/
theorem second_call (hc : Carries g tr s) (hst : s.step a = some (s', o)) (hcall : callsSource f a = true)
    (hone : sourceCalls f tr = 1) : ∃ m, RejectedAt g f tr m := by
  have hok := hc.flights f
  unfold FlightOk at hok
  cases flightMove hst f with
  | same _ ht => rw [touches_of_calls hcall] at ht; simp at ht
  | start ht => rw [touches_of_calls hcall] at ht; simp at ht
  | advance hfl _ hadv =>
    rw [hfl] at hok
    cases hadv with
    | call =>
      rcases hok with ⟨-, -, h0⟩ | ⟨-, -, -, hm⟩
      · omega
      · exact hm hone
    | turned hno => rw [hcall] at hno; simp at hno
    | _ => simp [callsSource] at hcall

/-- An entry that an action of a flight leaves in the cache was there before, or is the value that it has loaded. -/
theorem inserted_cases (hc : Carries g tr s) (hst : s.step a = some (s', o)) (ht : touches f a = true) {key : GoString}
    {e : Lru.Entry ByteView} (he : s'.group.mainCache.find? key = some e) :
    s.group.mainCache.find? key = some e ∨
      ∃ name captured attempt fence view j, s.flights f = some ⟨key, name, captured, .loaded attempt fence view, j⟩ ∧
        e.value.version = view.version ∧ fence.epoch = s.group.epoch key ∧ fence.minimum ≤ view.version := by
  have hgroup := (moves hc.wf hc.fresh hst).group
  have hquiet : o = .quiet → s.group.mainCache.find? key = some e := by
    rintro rfl
    cases hgroup with
    | reads hr _ => exact hr.shrinks key e he
    | fills _ _ ho => simp at ho
    | invalidates _ _ _ _ ho => simp at ho
  cases flightMove hst f with
  | same _ ht' => rw [ht] at ht'; simp at ht'
  | start ht' => rw [ht] at ht'; simp at ht'
  | advance hfl _ hadv =>
    cases hadv with
    | @fill key' name captured attempt fence view j now now₁ now₂ work =>
      simp only [step, act, hfl, Option.map_some, Option.some.injEq, Prod.mk.injEq] at hst
      obtain ⟨rfl, -⟩ := hst
      have hfill := Group.fill_spec hc.wf key' view fence now now₁ now₂
      rcases hfill.stored key e he with hold | ⟨rfl, hvalid, hver, -⟩
      · exact Or.inl hold
      · obtain ⟨h1, h2, -⟩ := hfill.valid hvalid
        exact Or.inr ⟨name, captured, attempt, fence, view, j, hfl, hver, h1, h2⟩
    | _ =>
      simp only [step, act, hfl, Option.map_some, Option.some.injEq, Prod.mk.injEq] at hst
      exact Or.inl (hquiet hst.2.symm)

/-- **A flight never goes below anything it observed**, for an arbitrary source.  It makes at most two source calls,
and the second only after an attempt that ended in `ErrStaleVersion` with the deadline not yet passed.  What it
returns is at least as new as the minimum of its fence, the minimum at which it was rejected and the barrier it
captured again.  What it inserts is so too, under the epoch of its latest fence, which is the current one. -/
theorem flight_never_below {name : GoString} {capacity : ℤ} {versioned : Bool} {bloom : Option BloomFilter}
    {opts : Options} {g : Group} (h₀ : newGroup name capacity versioned bloom opts = some g) {tr : List Event}
    {s : Engine} (h : Run step (init g) tr s) (f : ℕ) :
    sourceCalls f tr ≤ 2 ∧
    (∀ tr₁ a o tr₂, tr = tr₁ ++ (a, o) :: tr₂ → callsSource f a = true → sourceCalls f tr₁ = 1 →
      ∃ m, RejectedAt g f tr₁ m) ∧
    (∀ fl v, s.flights f = some fl → fl.phase = .returned (.ok v) → AtLeast g f tr fl.fence v.version) ∧
    ∀ a s' o key e, touches f a = true → s.step a = some (s', o) → s'.group.mainCache.find? key = some e →
      s.group.mainCache.find? key = some e ∨
      ∃ fl attempt fence view, s.flights f = some fl ∧ fl.key = key ∧ fl.phase = .loaded attempt fence view ∧
        e.value.version = view.version ∧ AtLeast g f tr fl.fence e.value.version ∧
        fence.epoch = s.group.epoch key ∧ LatestEpoch g f tr fl.fence fence.epoch := by
  have hwf := (wf_newGroup h₀).1
  have hc := carries_run hwf h
  have hok := hc.flights f
  unfold FlightOk at hok
  refine ⟨sourceCalls_le hc f, ?_, fun fl v hfl hret => ?_, fun a s' o key e ht hst he => ?_⟩
  · rintro tr₁ a o tr₂ rfl hcall hone
    obtain ⟨s₁, s₂, h₁, hst, -⟩ := h.cut
    exact second_call (carries_run hwf h₁) hst hcall hone
  · rw [hfl] at hok
    have hp : PhaseOk g f tr fl.fence (sourceCalls f tr) fl.phase := hok
    rw [hret] at hp
    exact hp.2 v rfl
  · refine (inserted_cases hc hst ht he).imp_right ?_
    rintro ⟨name, captured, attempt, fence, view, j, hfl, hver, hepoch, hmin⟩
    rw [hfl] at hok
    refine ⟨_, attempt, fence, view, hfl, rfl, rfl, hver, hver ▸ atLeast_of_attempt ?_ hmin, hepoch, ?_⟩
    · exact hok.imp (fun h => h.2.1) fun h => h.2.1
    · rcases hok with ⟨-, hf, -⟩ | ⟨-, hf, -⟩
      · exact ⟨fun _ => by rw [hf.own], fun b hx => absurd hx (hf.once b)⟩
      · exact hf.latest

/-- A flight whose first answer is overtaken by version 2, and which then loads version 3. -/
def rejectedOnce : List Act :=
  loading 0 0 [97] ++ [.invalidate [97] 2 0 0, .readSource 0 (.ok ([1], 1)) none none none, .fill 0 0 0 0 none,
    .retryBarrier 0 0, .flightLookup 0 none 0, .callSource 0 none none] ++ answering 0 0 [3] 3

theorem rejectedOnce_isSome : (Lib.exec step (init smallGroup) rejectedOnce).isSome = true := rfl

theorem flight_never_below_rejected : ∃ tr s fl v, Run step (init smallGroup) tr s ∧ sourceCalls 0 tr = 2 ∧
    s.flights 0 = some fl ∧ fl.phase = .returned (.ok v) ∧ AtLeast smallGroup 0 tr fl.fence v.version :=
  ⟨_, _, _, _, Lib.exec_get rejectedOnce_isSome, rfl, rfl, rfl,
    (flight_never_below (g := smallGroup) (Option.some_get _).symm (Lib.exec_get rejectedOnce_isSome) 0).2.2.1 _ _ rfl
      rfl⟩

end SimpleCache.Cache.Engine
