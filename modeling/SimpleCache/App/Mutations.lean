import SimpleCache.Cluster.Broadcast
import SimpleCache.Postgres.Products

/-!
# App.Mutations — one mutation after its validation (`app/mutations.go`)

`executeMutation` writes to the source, notifies the members and reports both.  The two calls belong to the store
and to the directory, so the function is cut at them: `written` runs from the result of the write to the broadcast,
`broadcast` from the report to the end, and `status` is the code with which `mutate` answers.
-/

namespace SimpleCache.App

open Cluster (InvalidationReport statusOf)
open Postgres (Mutation)

inductive MutationKind
  | notify
  | put
  | delete
  deriving DecidableEq, Repr

structure MutationCommand where
  kind : MutationKind
  key : GoString
  value : GoString
  expected : ℤ
  version : ℤ
  deriving DecidableEq, Repr

/-- The source call of a command. -/
def MutationCommand.call (c : MutationCommand) : Option Mutation :=
  match c.kind with
  | .notify => none
  | .put => some (.putIfVersion c.key c.value c.expected)
  | .delete => some (.deleteIfVersion c.key c.expected)

structure MutationResponse where
  sourceCommitted : Option Bool
  sourceVersion : Option ℤ
  invalidation : Option InvalidationReport
  error : String
  deriving DecidableEq, Repr

structure MutationOutcome where
  response : MutationResponse
  writeErr : Option Err
  broadcastErr : Option Err
  deriving DecidableEq, Repr

namespace MutationOutcome

def empty : MutationOutcome := ⟨⟨none, none, none, ""⟩, none, none⟩

/-- `outcome.writeErr` for the result of the source call. -/
def writeErrOf : Except Err ℤ → Option Err
  | .error e => some e
  | .ok v => if v ≤ 0 then some (.message "source returned an invalid committed version") else none

/-- From the source call to the broadcast; the flag says that a failed precondition ends the mutation here. -/
def written (r : Except Err ℤ) : MutationOutcome × Bool :=
  match r, writeErrOf r with
  | .ok v, none => (⟨⟨some true, some v, none, ""⟩, none, none⟩, false)
  | _, some .preconditionFailed =>
    (⟨⟨some false, none, none, "precondition failed; refresh the value before retrying"⟩,
      some .preconditionFailed, none⟩, true)
  | _, err => (⟨⟨none, none, none, ""⟩, err, none⟩, false)

/-- The version that is broadcast. -/
def version (o : MutationOutcome) (c : MutationCommand) : ℤ := o.response.sourceVersion.getD c.version

/-- From the broadcast to the end. -/
def broadcast (o : MutationOutcome) : Except Err InvalidationReport → MutationOutcome
  | .error e => { o with broadcastErr := some e }
  | .ok report =>
    { o with
      response :=
        { o.response with
          invalidation := some report
          error :=
            if o.writeErr = none then o.response.error
            else "source write failed; commit status is unknown; verify the source before retrying" } }

/-- The status code with which `mutate` answers. -/
def status (o : MutationOutcome) : ℕ :=
  if o.writeErr = some .preconditionFailed then 412
  else
    match o.broadcastErr with
    | some e => statusOf e
    | none =>
      match o.writeErr with
      | some e => statusOf e
      | none => if (o.response.invalidation.map InvalidationReport.complete).getD false then 200 else 202

/-- **Status 200** stands for a write without error and a complete report. -/
theorem status_ok {o : MutationOutcome} (h : o.status = 200) :
    o.writeErr = none ∧ ∃ report, o.response.invalidation = some report ∧ report.complete = true := by
  unfold status at h
  by_cases hp : o.writeErr = some .preconditionFailed
  · rw [if_pos hp] at h
    simp at h
  rw [if_neg hp] at h
  cases hb : o.broadcastErr with
  | some e => rw [hb] at h; exact absurd h (Cluster.statusOf_ne e (by decide))
  | none =>
    rw [hb] at h
    cases hw : o.writeErr with
    | some e => rw [hw] at h; exact absurd h (Cluster.statusOf_ne e (by decide))
    | none =>
      rw [hw] at h
      cases hi : o.response.invalidation with
      | none => rw [hi] at h; simp at h
      | some report =>
        rw [hi] at h
        refine ⟨rfl, report, rfl, ?_⟩
        by_contra hc
        simp [hc] at h

/-- A reported source version is the one the source call returned. -/
theorem written_version {r : Except Err ℤ} {v : ℤ} (h : (written r).1.response.sourceVersion = some v) :
    r = .ok v ∧ 0 < v := by
  unfold written at h
  split at h
  · next v' hw =>
    simp only [Option.some.injEq] at h
    subst h
    simp only [writeErrOf] at hw
    split_ifs at hw with hv
    exact ⟨rfl, not_le.mp hv⟩
  · simp at h
  · simp at h

theorem written_invalidation (r : Except Err ℤ) : (written r).1.response.invalidation = none := by
  unfold written
  split <;> rfl

end MutationOutcome

end SimpleCache.App
