import SimpleCache.Cluster.Broadcast
import SimpleCache.Go.Int64
import SimpleCache.Lib.Prog
import SimpleCache.Postgres.Outbox

/-!
# Outbox.Worker — one relay cycle (`outbox/worker.go`, `app/bootstrap.go`)

`Worker.Step` claims an event, sends it and finishes it with the outcome of the sending.  It is a program over the
queue, the sender and the observer, which answer as they like.  The loop of `retryDelay` is bounded by the delay as well
as by the attempt; `retryLoop` is the loop with exact numbers, `retryRound` one round of it on `int64` variables.
-/

namespace SimpleCache.Outbox

open Cluster (InvalidationReport)
open Lib (Prog)
open Postgres (second minute)

/-- `LeaseDuration`. -/
def leaseDuration : ℤ := 10 * second

/-- The loop of `retryDelay`, with the iterations left until the attempt. -/
def retryLoop : ℕ → ℤ → ℤ
  | 0, delay => delay
  | n + 1, delay => if delay < minute then retryLoop n (delay * 2) else delay

/-- `retryDelay`. -/
def retryDelay (attempt : ℤ) : ℤ := min (retryLoop (attempt - 1).toNat second) minute

/-- One round of the loop of `retryDelay` on its variables `n` and `delay`; `none` is the end of the loop. -/
def retryRound (attempt : ℤ) (l : ℤ × ℤ) : Option (ℤ × ℤ) :=
  if l.1 < attempt ∧ l.2 < minute then some (Go.int64 (l.1 + 1), Go.int64 (l.2 * 2)) else none

/-- The variables after a number of rounds. -/
def retryRounds (attempt : ℤ) : ℕ → Option (ℤ × ℤ)
  | 0 => some (1, second)
  | i + 1 => (retryRounds attempt i).bind (retryRound attempt)

/-! ### A cycle -/

/-- What `Worker.Step` calls. -/
inductive Request
  | claim (lease : ℤ)
  | send (event : Event)
  | finish (event : Event) (delivered : Bool) (retry : ℤ)
  | observe (operation result : String)
  deriving DecidableEq

/-- What a call returns; of a sender, its error. -/
abbrev Request.Reply : Request → Type
  | .claim _ => Except Err (Option Event)
  | .send _ => Option Err
  | .finish _ _ _ => Except Err Bool
  | .observe _ _ => Unit

/-- What a worker does in a cycle. -/
abbrev Cycle := Prog Request Request.Reply Empty

def Queue.claim (lease : ℤ) : Cycle (Except Err (Option Event)) := Prog.request (Request.claim lease)

def Queue.finish (event : Event) (delivered : Bool) (retry : ℤ) : Cycle (Except Err Bool) :=
  Prog.request (Request.finish event delivered retry)

def Worker.send (event : Event) : Cycle (Option Err) := Prog.request (Request.send event)

def Worker.observe (operation result : String) : Cycle Unit := Prog.request (Request.observe operation result)

/-- `Worker.Step`. -/
def Worker.step : Cycle (Bool × Option Err) := do
  match ← Queue.claim leaseDuration with
  | .error e =>
    Worker.observe "claim" "error"
    return (false, some e)
  | .ok none => return (false, none)
  | .ok (some event) =>
    Worker.observe "claim" "ok"
    let sendErr ← Worker.send event
    let result := if sendErr.isSome then "retry" else "delivered"
    match ← Queue.finish event sendErr.isNone (retryDelay event.attempt) with
    | .error e =>
      Worker.observe "finish" "error"
      return (true, some e)
    | .ok false =>
      Worker.observe "finish" "lease_lost"
      return (true, none)
    | .ok true =>
      Worker.observe "finish" result
      return (true, none)

/-- The end of the function that `outboxSender` returns, on the result of the broadcast: whether it returns nil. -/
def delivered : Except Err InvalidationReport → Bool
  | .error _ => false
  | .ok report => report.complete && report.knownMembers ≠ 0

theorem delivered_spec {r : Except Err InvalidationReport} (h : delivered r = true) :
    ∃ report, r = .ok report ∧ report.complete = true ∧ report.knownMembers ≠ 0 := by
  cases r with
  | error e => simp [delivered] at h
  | ok report =>
    simp only [delivered, Bool.and_eq_true, decide_eq_true_eq] at h
    exact ⟨report, rfl, h⟩

end SimpleCache.Outbox
