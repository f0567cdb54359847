import SimpleCache.Outbox.Worker
import SimpleCache.Postgres.Lease

/-!
# Outbox.Finish — every claimed event can be finished

The worker computes the retry delay from the attempt of the event it holds, and `Finish` refuses delays above a minute.
The loop of the delay doubles at most six times, so it stays far inside `int64`, and its result is between a second and
a minute for every attempt.  The ids and attempts that `Claim` returns are positive, so no guard of `Finish` can refuse
what the worker passes to it.
-/

namespace SimpleCache.Outbox

open Lib (Run Prog)
open Lib.Prog (Ends)
open Postgres (Store StoreEvent Db Exec OutboxRow Effect second minute)

/-! ### The retry delay -/

/-- The loop with exact numbers, cut off at a minute. -/
theorem min_retryLoop : ∀ (n : ℕ) {delay : ℤ}, 0 < delay →
    min (retryLoop n delay) minute = min (2 ^ n * delay) minute
  | 0, delay, _ => by rw [retryLoop, pow_zero, one_mul]
  | n + 1, delay, h => by
    rw [retryLoop]
    by_cases hlt : delay < minute
    · rw [if_pos hlt, min_retryLoop n (by omega), pow_succ, mul_assoc, mul_comm delay 2]
    · -- the loop ends early, and both sides are a minute
      have hpow : (1 : ℤ) ≤ 2 ^ (n + 1) := one_le_pow₀ (by decide)
      have hle : delay ≤ 2 ^ (n + 1) * delay := le_mul_of_one_le_left h.le hpow
      rw [if_neg hlt, min_eq_right (by omega), min_eq_right (by omega)]

theorem retryDelay_eq (attempt : ℤ) : retryDelay attempt = min minute (2 ^ (attempt - 1).toNat * second) := by
  rw [retryDelay, min_retryLoop _ (by decide), min_comm]

theorem retryDelay_le (attempt : ℤ) : retryDelay attempt ≤ minute := by
  rw [retryDelay_eq]
  exact min_le_left _ _

theorem le_retryDelay (attempt : ℤ) : second ≤ retryDelay attempt := by
  have hpow : (1 : ℤ) ≤ 2 ^ (attempt - 1).toNat := one_le_pow₀ (by decide)
  rw [retryDelay_eq]
  exact le_min (by decide) (le_mul_of_one_le_left (by decide) hpow)

theorem retryDelay_mono {attempt attempt' : ℤ} (h : attempt ≤ attempt') :
    retryDelay attempt ≤ retryDelay attempt' := by
  have hpow : (2 : ℤ) ^ (attempt - 1).toNat ≤ 2 ^ (attempt' - 1).toNat :=
    pow_le_pow_right₀ (by decide) (by omega)
  rw [retryDelay_eq, retryDelay_eq]
  exact min_le_min_left _ (mul_le_mul_of_nonneg_right hpow (by decide))

/-- **The variables of the loop are exact** in each of its rounds, of which there are at most six. -/
theorem retryRounds_eq {attempt : ℤ} (hmax : attempt ≤ Go.maxInt64) :
    ∀ {i : ℕ}, (i : ℤ) ≤ attempt - 1 → i ≤ 6 → retryRounds attempt i = some ((1 : ℤ) + i, 2 ^ i * second)
  | 0, _, _ => by simp [retryRounds]
  | i + 1, hi, h6 => by
    push_cast at hi
    have hpow : (2 : ℤ) ^ i ≤ 2 ^ 5 := pow_le_pow_right₀ (by decide) (by omega)
    have hpos : (0 : ℤ) < 2 ^ i := by positivity
    have hrange : -Go.maxInt64 ≤ (1 : ℤ) + i ∧ -Go.maxInt64 ≤ 2 ^ i * second * 2 ∧
        2 ^ i * second * 2 ≤ Go.maxInt64 ∧ (2 : ℤ) ^ i * second < minute := by
      simp only [Go.maxInt64, second, minute] at hpow ⊢
      omega
    have hround : retryRound attempt (1 + i, 2 ^ i * second) = some ((1 : ℤ) + i + 1, 2 ^ i * second * 2) := by
      unfold retryRound
      rw [if_pos ⟨by omega, hrange.2.2.2⟩, Go.int64_eq (by omega) (by omega), Go.int64_eq (by omega) (by omega)]
    rw [retryRounds, retryRounds_eq hmax (by omega) (by omega), Option.bind_some, hround]
    push_cast
    congr 2
    ring

/-- The loop ends, with the delay that `retryDelay` cuts off. -/
theorem retryRounds_end {attempt : ℤ} (hmin : 1 ≤ attempt) (hmax : attempt ≤ Go.maxInt64) :
    ∃ rounds : ℕ, (rounds : ℤ) < attempt ∧ retryRounds attempt (rounds + 1) = none ∧
      (∀ i ≤ rounds, retryRounds attempt i = some ((1 : ℤ) + i, 2 ^ i * second)) ∧
      retryDelay attempt = min (2 ^ rounds * second) minute := by
  refine ⟨min (attempt - 1).toNat 6, by omega, ?_, fun i hi => retryRounds_eq hmax (by omega) (by omega), ?_⟩
  · rw [retryRounds, retryRounds_eq hmax (by omega) (by omega), Option.bind_some]
    unfold retryRound
    refine if_neg fun hgo => ?_
    by_cases hsmall : attempt - 1 ≤ 6
    · -- the counter has reached the attempt
      omega
    · -- the delay has passed a minute
      have h6 : min (attempt - 1).toNat 6 = 6 := by omega
      rw [h6] at hgo
      exact absurd hgo.2 (by decide)
  · rw [retryDelay_eq, min_comm]
    by_cases hsmall : attempt - 1 ≤ 6
    · rw [min_eq_left (by omega : (attempt - 1).toNat ≤ 6)]
    · have hpow : (2 : ℤ) ^ 6 ≤ 2 ^ (attempt - 1).toNat := pow_le_pow_right₀ (by decide) (by omega)
      rw [min_eq_right (by omega : 6 ≤ (attempt - 1).toNat), min_eq_right, min_eq_right (by decide)]
      simp only [second, minute]
      omega

/-! ### What `Claim` returns -/

/-- The ids of the outbox come from a sequence that starts at 1. -/
structure Positive (db : Db) : Prop where
  next : 0 < db.nextId
  ids : ∀ r ∈ db.outbox, 0 < r.id

theorem Positive.effect {db db' : Db} {e : StoreEvent} (h : Positive db) (he : Effect db e db') : Positive db' := by
  refine ⟨lt_of_lt_of_le h.next he.nextId_le, fun r hr => ?_⟩
  cases he with
  | quiet heq _ _ _ => exact h.ids r (heq ▸ hr)
  | insert key version heq _ _ _ =>
    rw [heq, List.mem_append, List.mem_singleton] at hr
    rcases hr with hr | rfl
    · exact h.ids r hr
    · exact h.next
  | lease c d _ _ _ _ heq _ _ =>
    rw [heq] at hr
    obtain ⟨r₀, hr₀, rfl⟩ := Postgres.mem_mapOutbox.mp hr
    rw [OutboxRow.lease_id]
    exact h.ids r₀ hr₀
  | complete event delivered retry c _ _ _ _ _ heq _ _ =>
    rw [heq] at hr
    obtain ⟨r₀, hr₀, rfl⟩ := Postgres.mem_mapOutbox.mp hr
    rw [OutboxRow.complete_id]
    exact h.ids r₀ hr₀
  | purge retention hsub _ _ _ _ => exact h.ids r (hsub.subset hr)

variable {clock : ℤ} {tr : List StoreEvent} {s : Store}

theorem positive_run (h : Run Store.step (Store.init clock) tr s) : Positive s.db := by
  refine h.rec_inv (I := fun _ s => Positive s.db) ⟨by simp [Store.init, Db.empty], by simp [Store.init, Db.empty]⟩ ?_
  intro tr s a o s' hr hpos hst
  exact hpos.effect (Store.step_effect (Postgres.leaseInv_run hr).keyed hst).2.2.2

/-- **The events of `Claim`** have a positive id and an attempt from 1 to the largest `int64`. -/
theorem claim_event (h : Run Store.step (Store.init clock) tr s) {lease : ℤ} {x : Exec} {event : Event}
    (hc : (s.db.claim lease x).1 = .ok (some event)) :
    0 < event.id ∧ 1 ≤ event.attempt ∧ event.attempt ≤ Go.maxInt64 := by
  have hmax : event.attempt ≤ Go.maxInt64 := by
    unfold Db.claim at hc
    split_ifs at hc
    cases hf : x.fault with
    | some n => simp [hf] at hc
    | none =>
      cases hcand : Postgres.candidate s.db x with
      | none => simp [hf, hcand] at hc
      | some c =>
        simp only [hf, hcand] at hc
        split_ifs at hc with hle
        simp only [Except.ok.injEq, Option.some.injEq] at hc
        rw [← hc]
        exact hle
  rcases s.db.claim_spec lease x with ⟨-, hno⟩ | ⟨c, hmem, -, -, -, heq, -⟩
  · exact absurd hc (hno event)
  · rw [heq, Except.ok.injEq, Option.some.injEq] at hc
    have hnonneg := (Postgres.leaseInv_run h).nonneg c hmem
    subst hc
    exact ⟨(positive_run h).ids c hmem, by simp only; omega, hmax⟩

/-! ### The worker -/

/-- The calls of an execution of the worker, with their replies. -/
abbrev Calls := List (Σ r : Request, r.Reply)

/-- The events sent, with the errors of the sender. -/
def sends (calls : Calls) : List (Event × Option Err) :=
  calls.filterMap fun
    | ⟨.send event, err⟩ => some (event, err)
    | _ => none

/-- The arguments of the calls of `Finish`. -/
def finishes (calls : Calls) : List (Event × Bool × ℤ) :=
  calls.filterMap fun
    | ⟨.finish event delivered retry, _⟩ => some (event, delivered, retry)
    | _ => none

/-- **A cycle that has claimed an event** sends it once and finishes it once, as the sending went. -/
theorem step_finishes {calls : Calls} {result : Bool × Option Err} (h : Ends Worker.step calls result) {event : Event}
    (hc : ⟨.claim leaseDuration, .ok (some event)⟩ ∈ calls) :
    ∃ sendErr, sends calls = [(event, sendErr)] ∧
      finishes calls = [(event, sendErr.isNone, retryDelay event.attempt)] := by
  obtain ⟨claimed, rest, rfl, h₁⟩ := Ends.request_inv h
  cases claimed with
  | error e =>
    obtain ⟨_, rest, rfl, h₂⟩ := Ends.request_inv h₁
    obtain ⟨rfl, -⟩ := h₂.pure_inv
    simp at hc
  | ok claimed =>
    cases claimed with
    | none =>
      obtain ⟨rfl, -⟩ := h₁.pure_inv
      simp at hc
    | some found =>
      obtain ⟨_, rest, rfl, h₂⟩ := Ends.request_inv h₁
      obtain ⟨sendErr, rest, rfl, h₃⟩ := Ends.request_inv h₂
      obtain ⟨finished, rest, rfl, h₄⟩ := Ends.request_inv h₃
      -- one report of the outcome follows, whatever it is
      have hlast : ∃ operation outcome, rest = [⟨.observe operation outcome, ()⟩] := by
        rcases finished with e | _ | _
        all_goals
          obtain ⟨_, rest, rfl, h₅⟩ := Ends.request_inv h₄
          obtain ⟨rfl, -⟩ := h₅.pure_inv
          exact ⟨_, _, rfl⟩
      obtain ⟨operation, outcome, rfl⟩ := hlast
      obtain rfl : event = found := by simpa using hc
      exact ⟨sendErr, rfl, rfl⟩

/-- Arguments that pass the guards of `Finish` are not refused by them. -/
theorem finish_admits {event : Event} {retry : ℤ} (hid : 0 < event.id) (hattempt : 1 ≤ event.attempt) (h0 : 0 ≤ retry)
    (hmax : retry ≤ minute) (db : Db) (delivered : Bool) (x : Exec) :
    (db.finish event delivered retry x).1 ≠ .error (.message "invalid outbox completion") := by
  unfold Db.finish
  rw [if_neg (by omega)]
  cases x.fault with
  | some n => simp
  | none => simp

/-- **Every claimed event can be finished.**  For every attempt the loop of `retryDelay` ends, with no overflow in any of
its rounds, and the delay is the smaller of a minute and `2 ^ (attempt - 1)` seconds.  A cycle of the worker ends
whatever it is answered; and once it has claimed an event that `Claim` can return, it calls `Finish` once, with arguments
that the guards admit, after a failed sending as after a successful one. -/
theorem claimed_event_finishes :
    (∀ attempt : ℤ, 1 ≤ attempt → attempt ≤ Go.maxInt64 →
      (∃ rounds : ℕ, (rounds : ℤ) < attempt ∧ retryRounds attempt (rounds + 1) = none ∧
        (∀ i ≤ rounds, retryRounds attempt i = some ((1 : ℤ) + i, 2 ^ i * second)) ∧
        retryDelay attempt = min (2 ^ rounds * second) minute) ∧
      retryDelay attempt = min minute (2 ^ (attempt - 1).toNat * second) ∧
      second ≤ retryDelay attempt ∧ retryDelay attempt ≤ minute ∧
      ∀ attempt', attempt ≤ attempt' → retryDelay attempt ≤ retryDelay attempt') ∧
    (∀ answer : ∀ r : Request, r.Reply,
      ∃ calls result, Ends Worker.step calls result ∧ ∀ c ∈ calls, c.2 = answer c.1) ∧
    ∀ (clock : ℤ) (tr : List StoreEvent) (s : Store), Run Store.step (Store.init clock) tr s →
      ∀ (lease : ℤ) (x : Exec) (event : Event), (s.db.claim lease x).1 = .ok (some event) →
      ∀ (calls : Calls) (result : Bool × Option Err), Ends Worker.step calls result →
        ⟨.claim leaseDuration, .ok (some event)⟩ ∈ calls →
        ∃ sendErr, sends calls = [(event, sendErr)] ∧
          finishes calls = [(event, sendErr.isNone, retryDelay event.attempt)] ∧
          ∀ (db : Db) (x' : Exec), (db.finish event sendErr.isNone (retryDelay event.attempt) x').1 ≠
            .error (.message "invalid outbox completion") := by
  refine ⟨fun attempt hmin hmax => ?_, fun answer => Prog.exists_ends answer _, ?_⟩
  · exact ⟨retryRounds_end hmin hmax, retryDelay_eq attempt, le_retryDelay attempt, retryDelay_le attempt,
      fun _ => retryDelay_mono⟩
  · intro clock tr s h lease x event hc calls result hends hclaimed
    obtain ⟨hid, hattempt, -⟩ := claim_event h hc
    obtain ⟨sendErr, hsends, hfinishes⟩ := step_finishes hends hclaimed
    have hdelay : 0 ≤ retryDelay event.attempt := le_trans (by decide) (le_retryDelay event.attempt)
    exact ⟨sendErr, hsends, hfinishes, fun db x' => finish_admits hid hattempt hdelay (retryDelay_le _) db _ x'⟩

/-- A clock reading, with no fault and no locked rows. -/
def instant (now : ℤ) : Exec := ⟨now, now, none, none, []⟩

/-- An event is claimed, its sending fails, and it is finished with a delay of one second. -/
theorem claimed_event_finishes_failed : ∃ tr s calls result, Run Store.step (Store.init 0) tr s ∧
    (s.db.claim leaseDuration (instant 5)).1 = .ok (some ⟨1, [97], 1, 1⟩) ∧ Ends Worker.step calls result ∧
    sends calls = [(⟨1, [97], 1, 1⟩, some .canceled)] ∧ finishes calls = [(⟨1, [97], 1, 1⟩, false, second)] ∧
    ∀ (db : Db) (x : Exec), (db.finish ⟨1, [97], 1, 1⟩ false second x).1 ≠
      .error (.message "invalid outbox completion") := by
  have hrun := Lib.exec_run Store.step [(.mutate (.put [97] [1]) false, instant 3)] (Store.init 0) _ _ rfl
  have hends : Ends Worker.step [⟨.claim leaseDuration, .ok (some ⟨1, [97], 1, 1⟩)⟩, ⟨.observe "claim" "ok", ()⟩,
      ⟨.send ⟨1, [97], 1, 1⟩, some .canceled⟩, ⟨.finish ⟨1, [97], 1, 1⟩ false (retryDelay 1), .ok true⟩,
      ⟨.observe "finish" "retry", ()⟩] (true, none) := .call (.call (.call (.call (.call (.pure _)))))
  obtain ⟨sendErr, hsends, -, hadmits⟩ :=
    claimed_event_finishes.2.2 0 _ _ hrun leaseDuration (instant 5) ⟨1, [97], 1, 1⟩ rfl _ _ hends List.mem_cons_self
  obtain rfl : some Err.canceled = sendErr := by simpa [sends] using hsends
  exact ⟨_, _, _, _, hrun, rfl, hends, rfl, rfl, hadmits⟩

end SimpleCache.Outbox
