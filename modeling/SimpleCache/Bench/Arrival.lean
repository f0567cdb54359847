import SimpleCache.Bench.Plan
import SimpleCache.Bench.Request
import SimpleCache.Lib.Channel

/-!
# Bench.Arrival — the run of a plan (`runArrival` in `bench/gateway/arrival.go`)

A dispatcher offers the jobs of the plan at their times to workers over a bounded channel and never waits for room; a
worker requests each job it takes, or marks it as dispatched if the run is canceled.  `step` is the interleaving of the
dispatcher, the workers, the outcomes of the requests and the cancellation; clock readings are part of the actions and
not constrained.

`Move` says once what a step can do to the dispatcher, the channel and the records; everything about runs is proved from
it.
-/

namespace SimpleCache.Bench

open Go (ascii second)
open Lib (Channel Receiver)

/-! ### Drops -/

/-- The reasons of `DropReason`. -/
inductive Drop
  | canceled
  | schedulerLate
  | catchUpLimit
  | clientCapacity
  deriving DecidableEq, Repr

def Drop.text : Drop → GoString
  | .canceled => ascii "canceled"
  | .schedulerLate => ascii "scheduler_late"
  | .catchUpLimit => ascii "catch_up_limit"
  | .clientCapacity => ascii "client_capacity"

/-- `catchUpLimit`. -/
def catchUpLimit (c : Config) : ℤ := if c.maxCatchUp = 0 then 4 else c.maxCatchUp

/-- `arrivalDispatchDrop`; `none` is the empty reason. -/
def arrivalDispatchDrop (lag interval : ℤ) (c : Config) (catchUp : ℤ) : Option Drop :=
  let budget := if 0 < c.maxScheduleLagMillis then c.maxScheduleLagMillis * Go.millisecond else interval
  if budget ≤ lag then some .schedulerLate
  else if catchUpLimit c ≤ catchUp then some .catchUpLimit
  else none

/-! ### The run -/

/-- A job with the time of its dispatch, as it is sent to the workers. -/
structure Ticket where
  job : Job
  dispatched : ℤ
  deriving DecidableEq, Repr

/-- Where the dispatcher stands: before `time.Until(due)`, in the `select` with the timer, before `ctx.Err()`, before the
lag is read, before the send, after the loop, and in `wg.Wait()`. -/
inductive Phase
  | due
  | timer
  | check
  | judge
  | offer
  | closing
  | waiting
  deriving DecidableEq, Repr

/-- The variables of `runArrival`, and whether its context is canceled. -/
structure State where
  records : List Record
  queue : Channel Ticket
  next : ℕ
  phase : Phase
  catchUp : ℤ
  start : ℤ
  canceled : Bool
  deriving DecidableEq, Repr

/-- `c.Stages[k].Name`. -/
def Config.stageName (c : Config) (k : ℕ) : GoString := (c.stages[k]?.map RateStage.name).getD []

/-- `c.Stages[k].Rate`. -/
def Config.stageRate (c : Config) (k : ℕ) : ℤ := (c.stages[k]?.map RateStage.rate).getD 1

/-- The record of a job before the run. -/
def plannedRecord (c : Config) (j : Job) : Record where
  index := j.index
  method := ascii "GET"
  keyIndex := j.key
  stage := c.stageName j.stage
  cohort := j.cohort
  scheduledMS := ms j.offset
  dropReason := Drop.canceled.text

/-- The state after `start = time.Now()`, with every worker before its first receive. -/
def State.begin (c : Config) (jobs : List Job) (start : ℤ) : State where
  records := jobs.foldl (fun records j => records.set j.index (plannedRecord c j)) (List.replicate jobs.length ({} : Record))
  queue := Channel.start c.maxPending.toNat c.workers.toNat
  next := 0
  phase := .due
  catchUp := 0
  start := start
  canceled := false

/-- The record that a worker stores for a request that began and ended at these times. -/
def workerRecord (c : Config) (fx : Fixture) (start : ℤ) (t : Ticket) (began ended : ℤ) (x : Exchange) : Record :=
  let j := t.job
  { requestExpected c fx j.index j.key 1 1 j.missing x with
    dispatched := true
    dispatchMS := ms (t.dispatched - (start + j.offset))
    stage := c.stageName j.stage
    cohort := j.cohort
    scheduledMS := ms j.offset
    queueMS := ms (began - (start + j.offset))
    totalMS := ms (ended - (start + j.offset)) }

/-- The actions of a run.  `due`, `judge` and `offer` carry the readings of the dispatcher's clock; `offer` names the
blocked worker that the job is handed to, if there is one; `reply` is the end of a request. -/
inductive Act
  | due (delay : ℤ)
  | leave
  | fire
  | stop
  | check
  | judge (lag : ℤ)
  | offer (now : ℤ) (w : Option ℕ)
  | close
  | receive (w : ℕ)
  | park (w : ℕ)
  | exit (w : ℕ)
  | skip (w : ℕ)
  | begin (w : ℕ)
  | reply (w : ℕ) (began ended : ℤ) (x : Exchange)
  | cancel

/-- `records[i].DropReason = reason`. -/
def dropRecord (records : List Record) (i : ℕ) (d : Drop) : List Record :=
  records.modify i fun r => { r with dropReason := d.text }

/-- The non-blocking send of `t` to the blocked worker `w`, or into the buffer; `false` if it is refused. -/
def sendTicket (q : Channel Ticket) (t : Ticket) : Option ℕ → Option (Channel Ticket × Bool)
  | some w => (q.step (.handoff w t)).map fun r => (r.1, true)
  | none =>
    match q.step (.enqueue t) with
    | some r => some (r.1, true)
    | none => (q.step (.refuse t)).map fun r => (r.1, false)

section Step

variable (c : Config) (fx : Fixture) (jobs : List Job)

/-- The rest of the loop body of the dispatcher after the lag of job `j` is read. -/
def judgeJob (s : State) (j : Job) (lag : ℤ) : State :=
  let s := { s with records := s.records.modify j.index fun r => { r with dispatchMS := ms lag } }
  match arrivalDispatchDrop lag (second.tdiv (c.stageRate j.stage)) c s.catchUp with
  | some d => { s with records := dropRecord s.records j.index d, next := s.next + 1, phase := .due }
  | none => { s with catchUp := s.catchUp + 1, phase := .offer }

/-- One step of a run. -/
def step (s : State) : Act → Option (State × Unit)
  | .due delay =>
    if s.phase = .due ∧ s.next < jobs.length then
      some (if 0 < delay then { s with catchUp := 0, phase := .timer } else { s with phase := .check }, ())
    else none
  | .leave => if s.phase = .due ∧ s.next = jobs.length then some ({ s with phase := .closing }, ()) else none
  | .fire => if s.phase = .timer then some ({ s with phase := .check }, ()) else none
  | .stop =>
    if (s.phase = .timer ∨ s.phase = .check) ∧ s.canceled = true then some ({ s with phase := .closing }, ()) else none
  | .check => if s.phase = .check ∧ s.canceled = false then some ({ s with phase := .judge }, ()) else none
  | .judge lag =>
    match s.phase, jobs[s.next]? with
    | .judge, some j => some (judgeJob c s j lag, ())
    | _, _ => none
  | .offer now w =>
    match s.phase, jobs[s.next]? with
    | .offer, some j =>
      (sendTicket s.queue ⟨j, now⟩ w).map fun r =>
        ({ s with
            queue := r.1
            records := if r.2 then s.records else dropRecord s.records j.index .clientCapacity
            next := s.next + 1
            phase := .due }, ())
    | _, _ => none
  | .close =>
    if s.phase = .closing then (s.queue.step .close).map fun r => ({ s with queue := r.1, phase := .waiting }, ())
    else none
  | .receive w => (s.queue.step (.receive w)).map fun r => ({ s with queue := r.1 }, ())
  | .park w => (s.queue.step (.park w)).map fun r => ({ s with queue := r.1 }, ())
  | .exit w => (s.queue.step (.exit w)).map fun r => ({ s with queue := r.1 }, ())
  | .skip w =>
    match s.canceled, s.queue.step (.skip w) with
    | true, some (q, some t) =>
      let dispatchMS := ms (t.dispatched - (s.start + t.job.offset))
      some ({ s with
        queue := q
        records := s.records.modify t.job.index fun r => { r with dispatched := true, dispatchMS := dispatchMS } }, ())
    | _, _ => none
  | .begin w =>
    if s.canceled = false then (s.queue.step (.begin w)).map fun r => ({ s with queue := r.1 }, ()) else none
  | .reply w began ended x =>
    match s.queue.step (.done w) with
    | some (q, some t) =>
      some ({ s with
        queue := q
        records := s.records.set t.job.index (workerRecord c fx s.start t began ended x) }, ())
    | _ => none
  | .cancel => if s.canceled = false then some ({ s with canceled := true }, ()) else none

end Step

/-- `wg.Wait()` has returned. -/
def State.finished (s : State) : Prop := s.phase = .waiting ∧ s.queue.drained

instance (s : State) : Decidable s.finished := by unfold State.finished; infer_instance

/-! ### What a step can do -/

/-- The steps that the dispatcher can still take for the current job. -/
def Phase.weight : Phase → ℕ
  | .due => 6
  | .timer => 5
  | .check => 4
  | .judge => 3
  | .offer => 2
  | .closing => 1
  | .waiting => 0

/-- The dispatcher goes on to `p` without a send: it enters the loop body with a job, and it leaves the loop after the
last job or when the run is canceled. -/
structure State.Turns (jobs : List Job) (s : State) (p : Phase) : Prop where
  forward : p.weight < s.phase.weight
  before : s.phase ≠ .closing
  after : p ≠ .waiting
  inside : p ≠ .closing → s.phase = .due → s.next < jobs.length
  outside : p = .closing → s.next = jobs.length ∨ s.canceled = true

/-- The steps, by what they need and what they change. -/
inductive Move (c : Config) (fx : Fixture) (jobs : List Job) (s : State) : State → Prop
  | turn {p : Phase} {n : ℤ} : s.Turns jobs p → Move c fx jobs s { s with phase := p, catchUp := n }
  | drop {j : Job} {lag : ℤ} {d : Drop} : s.phase = .judge → jobs[s.next]? = some j → d ≠ .canceled →
      Move c fx jobs s { s with
        records := dropRecord (s.records.modify j.index fun r => { r with dispatchMS := ms lag }) j.index d
        next := s.next + 1
        phase := .due }
  | pass {j : Job} {lag : ℤ} : s.phase = .judge → jobs[s.next]? = some j →
      Move c fx jobs s { s with
        records := s.records.modify j.index fun r => { r with dispatchMS := ms lag }
        catchUp := s.catchUp + 1
        phase := .offer }
  | send {j : Job} {now : ℤ} {a : Channel.Act Ticket} {q : Channel Ticket} {o : Option Ticket} :
      s.phase = .offer → jobs[s.next]? = some j → s.queue.step a = some (q, o) → a.sent = [⟨j, now⟩] →
      a.settled o = [] → Move c fx jobs s { s with queue := q, next := s.next + 1, phase := .due }
  | refuse {j : Job} : s.phase = .offer → jobs[s.next]? = some j →
      Move c fx jobs s { s with
        records := dropRecord s.records j.index .clientCapacity
        next := s.next + 1
        phase := .due }
  | close {q : Channel Ticket} {o : Option Ticket} : s.phase = .closing → s.queue.step .close = some (q, o) →
      Move c fx jobs s { s with queue := q, phase := .waiting }
  | work {a : Channel.Act Ticket} {q : Channel Ticket} {o : Option Ticket} : s.queue.step a = some (q, o) →
      a.sent = [] → a.settled o = [] → a.offers = false → a ≠ .close → Move c fx jobs s { s with queue := q }
  | skip {w : ℕ} {q : Channel Ticket} {t : Ticket} {lag : ℚ} : s.canceled = true →
      s.queue.step (.skip w) = some (q, some t) →
      Move c fx jobs s { s with
        queue := q
        records := s.records.modify t.job.index fun r => { r with dispatched := true, dispatchMS := lag } }
  | reply {w : ℕ} {q : Channel Ticket} {t : Ticket} {began ended : ℤ} {x : Exchange} :
      s.queue.step (.done w) = some (q, some t) →
      Move c fx jobs s { s with
        queue := q
        records := s.records.set t.job.index (workerRecord c fx s.start t began ended x) }
  | cancel : s.canceled = false → Move c fx jobs s { s with canceled := true }

section Moves

variable {c : Config} {fx : Fixture} {jobs : List Job} {s s' : State}

theorem arrivalDispatchDrop_ne {lag interval catchUp : ℤ} {d : Drop}
    (h : arrivalDispatchDrop lag interval c catchUp = some d) : d ≠ .canceled := by
  unfold arrivalDispatchDrop at h
  grind

theorem judgeJob_move {j : Job} (lag : ℤ) (hp : s.phase = .judge) (hj : jobs[s.next]? = some j) :
    Move c fx jobs s (judgeJob c s j lag) := by
  unfold judgeJob
  cases hd : arrivalDispatchDrop lag (second.tdiv (c.stageRate j.stage)) c s.catchUp with
  | some d =>
    simp only [hd]
    exact .drop hp hj (arrivalDispatchDrop_ne hd)
  | none =>
    simp only [hd]
    exact .pass hp hj

/-- A send is a step of the channel. -/
theorem sendTicket_cases {q : Channel Ticket} {t : Ticket} {w : Option ℕ} {r : Channel Ticket × Bool}
    (h : sendTicket q t w = some r) :
    (r.2 = true ∧ ∃ a o, q.step a = some (r.1, o) ∧ a.sent = [t] ∧ a.settled o = []) ∨ (r.2 = false ∧ r.1 = q) := by
  unfold sendTicket at h
  cases w with
  | some w =>
    obtain ⟨⟨q', o⟩, hst, rfl⟩ := Option.map_eq_some_iff.mp h
    exact Or.inl ⟨rfl, _, o, hst, rfl, rfl⟩
  | none =>
    cases he : q.step (.enqueue t) with
    | some r' =>
      simp only [he, Option.some.injEq] at h
      obtain ⟨q', o⟩ := r'
      subst h
      exact Or.inl ⟨rfl, _, o, he, rfl, rfl⟩
    | none =>
      simp only [he] at h
      obtain ⟨⟨q', o⟩, hst, rfl⟩ := Option.map_eq_some_iff.mp h
      cases Channel.move_of_step hst
      exact Or.inr ⟨rfl, rfl⟩

/-- A step of one worker on the channel that changes no record. -/
theorem work_of_map {a : Channel.Act Ticket} {o : Unit} (ha : ∀ o, a.settled o = []) (hs : a.sent = [])
    (ho : a.offers = false) (hc : a ≠ .close)
    (h : (s.queue.step a).map (fun r => (({ s with queue := r.1 } : State), ())) = some (s', o)) :
    Move c fx jobs s s' := by
  obtain ⟨⟨q, o'⟩, hst, heq⟩ := Option.map_eq_some_iff.mp h
  obtain rfl := (Prod.mk.inj heq).1
  exact .work hst hs (ha o') ho hc

theorem move_of_step {a : Act} {o : Unit} (h : step c fx jobs s a = some (s', o)) : Move c fx jobs s s' := by
  cases a with
  | due delay =>
    simp only [step] at h
    split_ifs at h with hc hd
    all_goals obtain rfl := (Prod.mk.inj (Option.some.inj h)).1
    · exact .turn ⟨by rw [hc.1]; decide, by rw [hc.1]; decide, by decide, fun _ _ => hc.2, by simp⟩
    · exact .turn (n := s.catchUp) ⟨by rw [hc.1]; decide, by rw [hc.1]; decide, by decide, fun _ _ => hc.2, by simp⟩
  | leave =>
    simp only [step] at h
    split_ifs at h with hc
    obtain rfl := (Prod.mk.inj (Option.some.inj h)).1
    exact .turn (n := s.catchUp) ⟨by rw [hc.1]; decide, by rw [hc.1]; decide, by decide, by simp, fun _ => .inl hc.2⟩
  | fire =>
    simp only [step] at h
    split_ifs at h with hc
    obtain rfl := (Prod.mk.inj (Option.some.inj h)).1
    exact .turn (n := s.catchUp) ⟨by rw [hc]; decide, by rw [hc]; decide, by decide, by simp [hc], by simp⟩
  | stop =>
    simp only [step] at h
    split_ifs at h with hc
    obtain rfl := (Prod.mk.inj (Option.some.inj h)).1
    refine .turn (n := s.catchUp) ⟨?_, ?_, by decide, by simp, fun _ => .inr hc.2⟩
    · rcases hc.1 with hp | hp <;> rw [hp] <;> decide
    · rcases hc.1 with hp | hp <;> rw [hp] <;> decide
  | check =>
    simp only [step] at h
    split_ifs at h with hc
    obtain rfl := (Prod.mk.inj (Option.some.inj h)).1
    exact .turn (n := s.catchUp) ⟨by rw [hc.1]; decide, by rw [hc.1]; decide, by decide, by simp [hc.1], by simp⟩
  | judge lag =>
    simp only [step] at h
    cases hp : s.phase <;> cases hj : jobs[s.next]? <;> simp only [hp, hj, reduceCtorEq, Option.some.injEq] at h
    obtain rfl := (Prod.mk.inj h).1
    exact judgeJob_move lag hp hj
  | offer now w =>
    simp only [step] at h
    cases hp : s.phase <;> cases hj : jobs[s.next]? <;> simp only [hp, hj, reduceCtorEq] at h
    obtain ⟨⟨q, accepted⟩, hsend, heq⟩ := Option.map_eq_some_iff.mp h
    obtain rfl := (Prod.mk.inj heq).1
    rcases sendTicket_cases hsend with ⟨rfl, a, o', hst, hsent, hset⟩ | ⟨rfl, rfl⟩
    · exact .send hp hj hst hsent hset
    · exact .refuse hp hj
  | close =>
    simp only [step] at h
    split_ifs at h with hc
    obtain ⟨⟨q, o'⟩, hst, heq⟩ := Option.map_eq_some_iff.mp h
    obtain rfl := (Prod.mk.inj heq).1
    exact .close hc hst
  | receive w => exact work_of_map (fun _ => rfl) rfl rfl (by simp) h
  | park w => exact work_of_map (fun _ => rfl) rfl rfl (by simp) h
  | exit w => exact work_of_map (fun _ => rfl) rfl rfl (by simp) h
  | skip w =>
    simp only [step] at h
    split at h
    · next hc hst =>
      obtain rfl := (Prod.mk.inj (Option.some.inj h)).1
      exact .skip hc hst
    · exact absurd h (by simp)
  | begin w =>
    simp only [step] at h
    split_ifs at h with hc
    exact work_of_map (fun _ => rfl) rfl rfl (by simp) h
  | reply w began ended x =>
    simp only [step] at h
    split at h
    · next hst =>
      obtain rfl := (Prod.mk.inj (Option.some.inj h)).1
      exact .reply hst
    · exact absurd h (by simp)
  | cancel =>
    simp only [step] at h
    split_ifs at h with hc
    obtain rfl := (Prod.mk.inj (Option.some.inj h)).1
    exact .cancel hc

end Moves

end SimpleCache.Bench
