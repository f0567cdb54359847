import SimpleCache.App.Api
import SimpleCache.Cluster.Server
import SimpleCache.Lib.Run

/-!
# App.Exchange — one request through `mutate`, over any source (`app/mutations_http.go`, `app/mutations.go`)

The handling of one request as a machine: the front part of `mutate`, the source call, the local invalidation, the
capture of a snapshot, the fan-out with its workers, and the answer.  The source does anything its interface allows:
it commits and returns a version, positive or not, it refuses, or it fails with or without having committed.  Members
get a notification late, several times or never, and other threads update the directory at any time.

`mutation_outcomes` says that the answer is honest, and that a request that is turned away or refused has changed
nothing.
-/

namespace SimpleCache.App

open Cache (Group ValidKey)
open Cluster (Broadcast Client Directory InvalidationReport Member Snapshot parseInvalidationVersion statusOf)
open Go (ascii)
open Lib (Run)

/-- What the source does with a conditional write. -/
inductive SourceBehaviour
  /-- It commits, and returns the version. -/
  | commit (version : ℤ)
  /-- `ErrPreconditionFailed`, without a change. -/
  | refuse
  /-- Another error, with or without having committed a version. -/
  | fail (e : Err) (committed : Option ℤ)
  deriving DecidableEq, Repr

namespace SourceBehaviour

def result : SourceBehaviour → Except Err ℤ
  | .commit version => .ok version
  | .refuse => .error .preconditionFailed
  | .fail e _ => .error e

/-- The version that the source has committed. -/
def committed : SourceBehaviour → Option ℤ
  | .commit version => some version
  | .refuse => none
  | .fail _ committed => committed

/-- A failed precondition is reported by a refusal only. -/
def Lawful : SourceBehaviour → Prop
  | .fail e _ => e ≠ .preconditionFailed
  | _ => True

instance : DecidablePred Lawful := fun b => by
  unfold Lawful
  split <;> infer_instance

end SourceBehaviour

/-- A notification that a worker has begun to send. -/
structure Attempt where
  member : Member
  client : Client
  key : GoString
  version : ℤ
  deriving DecidableEq, Repr

namespace Exchange

/-- Where the handling stands. -/
inductive Stage
  | received
  /-- In `executeMutation`, before the source call. -/
  | write (c : MutationCommand)
  /-- Before the local `InvalidateVersion`. -/
  | notify (c : MutationCommand) (o : MutationOutcome)
  /-- Before the snapshot is loaded. -/
  | capture (c : MutationCommand) (o : MutationOutcome)
  | fanout (c : MutationCommand) (o : MutationOutcome) (b : Broadcast)
  /-- `executeMutation` has returned. -/
  | executed (c : MutationCommand) (o : MutationOutcome)
  /-- `mutate` has returned; no command: the request was turned away. -/
  | answered (c : Option MutationCommand) (a : Answer)

end Exchange

/-- A request in progress, with all that it can change: the source, the group of its node, and the groups of the
members by their addresses. -/
structure Exchange where
  request : ApiRequest
  invalidateOnly : Bool
  token : GoString
  /-- What the source did, once it was called. -/
  source : Option SourceBehaviour
  group : Group
  remote : GoString → Group
  directory : Directory
  captured : Option Snapshot
  attempts : List Attempt
  stage : Exchange.Stage

/-- The answer of `mutate` to an outcome. -/
def answerOf (method : Cluster.Method) (o : MutationOutcome) : Answer :=
  let json := ("Content-Type", ascii "application/json")
  if o.writeErr = some .preconditionFailed then .json 412 [noStore, json] o.response
  else
    match o.broadcastErr with
    | some e => .text (statusOf e) [noStore] e.text
    | none =>
      .json o.status ([noStore, json] ++
        match o.writeErr, method, o.response.sourceVersion with
        | none, .put, some version => [("ETag", versionETag version)]
        | _, _, _ => []) o.response

namespace Exchange

inductive Action
  /-- The front part of `mutate`; `free`: a write slot is free. -/
  | handle (free : Bool)
  | write (b : SourceBehaviour)
  | invalidate (now now' : ℤ)
  /-- A `Directory.Update` of another thread. -/
  | update (input : List Member)
  | capture
  /-- A worker takes the next request of the fan-out and begins to send it. -/
  | dispatch
  /-- A request ends for its worker. -/
  | finish (i : ℕ) (result : Except Err Unit)
  /-- A notification reaches its member. -/
  | deliver (i : ℕ) (now now' : ℤ)
  | collect
  | respond

/-- One action, where it is enabled. -/
def step (jsonValid : GoString → Bool) (s : Exchange) : Action → Option (Exchange × Unit)
  | .handle free =>
    match s.stage with
    | .received =>
      match front jsonValid s.token s.invalidateOnly s.request free with
      | .error a => some ({ s with stage := .answered none a }, ())
      | .ok c => some ({ s with stage := if c.kind = .notify then .notify c .empty else .write c }, ())
    | _ => none
  | .write b =>
    match s.stage with
    | .write c =>
      if b.Lawful then
        let w := MutationOutcome.written b.result
        some ({ s with source := some b, stage := if w.2 then .executed c w.1 else .notify c w.1 }, ())
      else none
    | _ => none
  | .invalidate now now' =>
    match s.stage with
    | .notify c o =>
      let r := s.group.invalidateVersion c.key (o.version c) now now'
      match r.1 with
      | .error e => some ({ s with group := r.2, stage := .executed c (o.broadcast (.error e)) }, ())
      | .ok _ => some ({ s with group := r.2, stage := .capture c o }, ())
    | _ => none
  | .update input => some ({ s with directory := (s.directory.update input).2 }, ())
  | .capture =>
    match s.stage with
    | .capture c o =>
      some ({ s with
        captured := some s.directory.state
        stage := .fanout c o (.start s.directory c.key (o.version c)) }, ())
    | _ => none
  | .dispatch =>
    match s.stage with
    | .fanout c o b =>
      match b.next with
      | none => none
      | some i =>
        match b.member? i, b.client? i with
        | some m, some client =>
          some ({ s with
            attempts := s.attempts ++ [⟨m, client, b.key, b.version⟩]
            stage := .fanout c o (b.set i (.sent s.attempts.length)) }, ())
        | _, _ => none
    | _ => none
  | .finish i result =>
    match s.stage with
    | .fanout c o b =>
      match b.jobs i with
      | .sent _ => some ({ s with stage := .fanout c o (b.set i (.done (.of result))) }, ())
      | _ => none
    | _ => none
  | .deliver i now now' =>
    match s.attempts[i]? with
    | none => none
    | some a =>
      let r := (s.remote a.client.address).invalidateVersion a.key a.version now now'
      some ({ s with remote := Function.update s.remote a.client.address r.2 }, ())
  | .collect =>
    match s.stage with
    | .fanout c o b =>
      b.report.map fun report => ({ s with stage := .executed c (o.broadcast (.ok report)) }, ())
    | _ => none
  | .respond =>
    match s.stage with
    | .executed c o => some ({ s with stage := .answered (some c) (answerOf s.request.method o) }, ())
    | _ => none

/-- A request that has just arrived. -/
structure Fresh (s : Exchange) : Prop where
  stage : s.stage = .received
  source : s.source = none
  captured : s.captured = none
  attempts : s.attempts = []

/-! ### The invariant -/

/-- What `front` has let through. -/
structure Accepted (s₀ : Exchange) (c : MutationCommand) : Prop where
  key : ValidKey c.key
  header : parseInvalidationVersion s₀.request.header = .ok c.version
  kind : c.kind = .notify ↔ s₀.invalidateOnly = true
  zero : s₀.invalidateOnly = false → c.version = 0

/-- The outcome before the broadcast: of a notification, or of a write that was not refused. -/
def Wrote (s : Exchange) (c : MutationCommand) (o : MutationOutcome) : Prop :=
  (s.source = none ∧ c.kind = .notify ∧ o = .empty) ∨
    ∃ b, s.source = some b ∧ b.Lawful ∧ c.kind ≠ .notify ∧ b ≠ .refuse ∧ o = (MutationOutcome.written b.result).1

/-- The group has been invalidated, once. -/
def Invalidated (s₀ s : Exchange) (key : GoString) (version : ℤ) : Prop :=
  ∃ now now' applied, s₀.group.invalidateVersion key version now now' = (.ok applied, s.group)

/-- The notifications begun so far went to these members, with one key and version. -/
structure Notified (attempts : List Attempt) (key : GoString) (version : ℤ) (receivers : List Member) : Prop where
  members : attempts.map Attempt.member = receivers
  same : ∀ x ∈ attempts, x.key = key ∧ x.version = version ∧ x.client.address = x.member.address

/-- A fan-out that has begun its first `k` requests. -/
structure FanoutOk (id : GoString) (snapshot : Option Snapshot) (attempts : List Attempt) (key₀ : GoString)
    (version₀ : ℤ) (b : Broadcast) (k : ℕ) : Prop where
  captured : snapshot = some b.snapshot
  selfID : b.selfID = id
  key : b.key = key₀
  version : b.version = version₀
  bound : k ≤ b.size
  taken : ∀ i < k, b.jobs i ≠ .queued
  queued : ∀ i, k ≤ i → b.jobs i = .queued
  notified : Notified attempts key₀ version₀ ((Broadcast.others b.selfID b.snapshot).take k)

/-- `executeMutation` has returned: the source refused, or all were notified. -/
def ExecutedOk (s₀ s : Exchange) (c : MutationCommand) (o : MutationOutcome) : Prop :=
  (s.source = some .refuse ∧ o = (MutationOutcome.written SourceBehaviour.refuse.result).1 ∧ s.group = s₀.group ∧
    s.attempts = []) ∨
  ∃ o' report snapshot, Wrote s c o' ∧ o = o'.broadcast (.ok report) ∧ Invalidated s₀ s c.key (o'.version c) ∧
    s.captured = some snapshot ∧
    Notified s.attempts c.key (o'.version c) (Broadcast.others s₀.directory.selfID snapshot)

/-- What holds at a stage. -/
def StageOk (s₀ s : Exchange) : Stage → Prop
  | .received => s.source = none ∧ s.group = s₀.group ∧ s.attempts = []
  | .write c => Accepted s₀ c ∧ c.kind ≠ .notify ∧ s.source = none ∧ s.group = s₀.group ∧ s.attempts = []
  | .notify c o => Accepted s₀ c ∧ Wrote s c o ∧ s.group = s₀.group ∧ s.attempts = []
  | .capture c o => Accepted s₀ c ∧ Wrote s c o ∧ Invalidated s₀ s c.key (o.version c) ∧ s.attempts = []
  | .fanout c o b => Accepted s₀ c ∧ Wrote s c o ∧ Invalidated s₀ s c.key (o.version c) ∧
      ∃ k, FanoutOk s₀.directory.selfID s.captured s.attempts c.key (o.version c) b k
  | .executed c o => Accepted s₀ c ∧ ExecutedOk s₀ s c o
  | .answered none a => s.source = none ∧ s.group = s₀.group ∧ s.attempts = [] ∧ TurnedAway a
  | .answered (some c) a => Accepted s₀ c ∧ ∃ o, a = answerOf s₀.request.method o ∧ ExecutedOk s₀ s c o

/-- The invariant of one exchange that began as `s₀`. -/
structure Inv (s₀ s : Exchange) : Prop where
  request : s.request = s₀.request
  invalidateOnly : s.invalidateOnly = s₀.invalidateOnly
  selfID : s.directory.selfID = s₀.directory.selfID
  /-- Only a notification changes the group of another node. -/
  quiet : s.attempts = [] → s.remote = s₀.remote
  stage : StageOk s₀ s s.stage

theorem inv_fresh {s₀ : Exchange} (h : Fresh s₀) : Inv s₀ s₀ where
  request := rfl
  invalidateOnly := rfl
  selfID := rfl
  quiet _ := rfl
  stage := by
    rw [h.stage]
    exact ⟨h.source, rfl, h.attempts⟩

variable {jsonValid : GoString → Bool} {s₀ s s' : Exchange}

/-! ### The steps -/

theorem Accepted.of_front (hI : Inv s₀ s) {free : Bool} {c : MutationCommand}
    (h : front jsonValid s.token s.invalidateOnly s.request free = .ok c) : Accepted s₀ c := by
  obtain ⟨hkey, hheader, hkind, hzero⟩ := front_ok h
  rw [hI.request] at hheader
  rw [hI.invalidateOnly] at hkind hzero
  refine ⟨hkey, hheader, ?_, hzero⟩
  rw [hkind, mutationKind]
  cases s₀.invalidateOnly
  · by_cases hm : s.request.method = .put <;> simp [hm]
  · simp

theorem version_nonneg {c : MutationCommand} {o : MutationOutcome} (hc : Accepted s₀ c) (hw : Wrote s c o) :
    0 ≤ o.version c := by
  have hc0 : 0 ≤ c.version := by
    rcases Cluster.parseInvalidationVersion_ok hc.header with ⟨h, -⟩ | ⟨h, -⟩ <;> omega
  unfold MutationOutcome.version
  cases hv : o.response.sourceVersion with
  | none => exact hc0
  | some v =>
    rcases hw with ⟨-, -, rfl⟩ | ⟨b, -, -, -, -, rfl⟩
    · simp [MutationOutcome.empty] at hv
    · exact le_of_lt (MutationOutcome.written_version hv).2

/-- The source call ends the mutation exactly when it refuses. -/
theorem written_refused {b : SourceBehaviour} (hb : b.Lawful) :
    (MutationOutcome.written b.result).2 = true ↔ b = .refuse := by
  cases b with
  | commit v =>
    simp only [SourceBehaviour.result, MutationOutcome.written, MutationOutcome.writeErrOf]
    split_ifs <;> simp
  | refuse => simp [SourceBehaviour.result, MutationOutcome.written, MutationOutcome.writeErrOf]
  | fail e committed =>
    have he : e ≠ .preconditionFailed := hb
    simp only [SourceBehaviour.result, MutationOutcome.written, MutationOutcome.writeErrOf]
    cases e <;> first | exact absurd rfl he | simp

section Fanout

variable {id key : GoString} {snapshot : Option Snapshot} {attempts : List Attempt} {version : ℤ} {b : Broadcast} {k : ℕ}

/-- One more request of a fan-out begins. -/
theorem FanoutOk.dispatch {i request : ℕ} {m : Member} {client : Client}
    (h : FanoutOk id snapshot attempts key version b k) (hnext : b.next = some i) (hm : b.member? i = some m)
    (hc : b.client? i = some client) :
    FanoutOk id snapshot (attempts ++ [⟨m, client, b.key, b.version⟩]) key version (b.set i (.sent request))
      (k + 1) := by
  obtain ⟨hi, hq⟩ := Broadcast.next_spec hnext
  have hki : k ≤ i := by
    by_contra hlt
    exact h.taken i (not_le.mp hlt) hq
  -- the dispatcher takes the first request that is queued
  have hik : i = k := by
    by_contra hne
    have hlt : k < i := by omega
    have hfind := hnext
    unfold Broadcast.next at hfind
    split_ifs at hfind
    have hnot := List.find?_range_eq_some.mp hfind
    exact absurd (h.queued k le_rfl) (by simpa using hnot.2.2 k hlt)
  subst hik
  refine ⟨h.captured, h.selfID, h.key, h.version, hi, fun j hj => ?_, fun j hj => ?_, ?_, fun x hx => ?_⟩
  · rw [Broadcast.set_jobs]
    split_ifs with hji
    · simp
    · exact h.taken j (by omega)
  · rw [Broadcast.set_jobs, if_neg (by omega)]
    exact h.queued j (by omega)
  · have htake : (Broadcast.others b.selfID b.snapshot).take (i + 1) =
        (Broadcast.others b.selfID b.snapshot).take i ++ [m] := by
      rw [List.take_add_one]
      unfold Broadcast.member? at hm
      rw [hm]
      rfl
    show (attempts ++ [_]).map Attempt.member = (Broadcast.others b.selfID b.snapshot).take (i + 1)
    rw [htake, List.map_append, h.notified.members]
    rfl
  · rcases List.mem_append.mp hx with hx | hx
    · exact h.notified.same x hx
    · rw [List.mem_singleton] at hx
      subst hx
      exact ⟨h.key, h.version, Broadcast.client?_address hm hc⟩

/-- A request of a fan-out ends. -/
theorem FanoutOk.finish {i request : ℕ} {status : Cluster.MemberStatus}
    (h : FanoutOk id snapshot attempts key version b k) (hi : b.jobs i = .sent request) :
    FanoutOk id snapshot attempts key version (b.set i (.done status)) k := by
  have hik : i < k := by
    by_contra hle
    rw [h.queued i (not_lt.mp hle)] at hi
    simp at hi
  refine ⟨h.captured, h.selfID, h.key, h.version, h.bound, fun j hj => ?_, fun j hj => ?_, h.notified⟩
  · rw [Broadcast.set_jobs]
    split_ifs
    · simp
    · exact h.taken j hj
  · rw [Broadcast.set_jobs, if_neg (by omega)]
    exact h.queued j hj

/-- When all requests have ended, every other member was sent one. -/
theorem FanoutOk.complete {report : InvalidationReport} (h : FanoutOk id snapshot attempts key version b k)
    (hr : b.report = some report) : Notified attempts key version (Broadcast.others id b.snapshot) := by
  have hk : k = b.size := by
    by_contra hne
    have hlt : k < b.size := lt_of_le_of_ne h.bound hne
    unfold Broadcast.report at hr
    obtain ⟨statuses, hs, -⟩ := Option.map_eq_some_iff.mp hr
    obtain ⟨st, -, hj⟩ := Broadcast.mapM_status hs k (List.mem_range.mpr hlt)
    rw [h.queued k le_rfl] at hj
    simp at hj
  have hn := h.notified
  rw [hk, Broadcast.size, List.take_length, h.selfID] at hn
  exact hn

end Fanout

/-- **Every action keeps the invariant.** -/
theorem inv_step (hI : Inv s₀ s) {a : Action} {o : Unit} (h : step jsonValid s a = some (s', o)) : Inv s₀ s' := by
  have hst := hI.stage
  cases a with
  | handle free =>
    simp only [step] at h
    split at h
    · next hs =>
      rw [hs] at hst
      obtain ⟨hsrc, hg, hat⟩ := hst
      split at h
      · next a hf =>
        simp only [Option.some.injEq, Prod.mk.injEq, and_true] at h
        subst h
        exact ⟨hI.request, hI.invalidateOnly, hI.selfID, hI.quiet, hsrc, hg, hat, front_status hf⟩
      · next c hf =>
        simp only [Option.some.injEq, Prod.mk.injEq, and_true] at h
        subst h
        have hacc := Accepted.of_front hI hf
        refine ⟨hI.request, hI.invalidateOnly, hI.selfID, hI.quiet, ?_⟩
        by_cases hk : c.kind = .notify
        · simp only [if_pos hk]
          exact ⟨hacc, Or.inl ⟨hsrc, hk, rfl⟩, hg, hat⟩
        · simp only [if_neg hk]
          exact ⟨hacc, hk, hsrc, hg, hat⟩
    · simp at h
  | write b =>
    simp only [step] at h
    split at h
    · next c hs =>
      rw [hs] at hst
      obtain ⟨hacc, hk, -, hg, hat⟩ := hst
      split_ifs at h with hb hr
      · simp only [Option.some.injEq, Prod.mk.injEq, and_true] at h
        subst h
        obtain rfl := (written_refused hb).mp hr
        exact ⟨hI.request, hI.invalidateOnly, hI.selfID, hI.quiet, hacc, Or.inl ⟨rfl, rfl, hg, hat⟩⟩
      · simp only [Option.some.injEq, Prod.mk.injEq, and_true] at h
        subst h
        exact ⟨hI.request, hI.invalidateOnly, hI.selfID, hI.quiet, hacc,
          Or.inr ⟨b, rfl, hb, hk, mt (written_refused hb).mpr hr, rfl⟩, hg, hat⟩
    · simp at h
  | invalidate now now' =>
    simp only [step] at h
    split at h
    · next c o hs =>
      rw [hs] at hst
      obtain ⟨hacc, hw, hg, hat⟩ := hst
      obtain ⟨applied, happ⟩ := Cluster.invalidateVersion_ok s.group hacc.key (version_nonneg hacc hw) now now'
      rw [happ] at h
      simp only [Option.some.injEq, Prod.mk.injEq, and_true] at h
      subst h
      refine ⟨hI.request, hI.invalidateOnly, hI.selfID, hI.quiet, hacc, hw, ⟨now, now', applied, ?_⟩, hat⟩
      rw [← hg, ← happ]
    · simp at h
  | update input =>
    simp only [step, Option.some.injEq, Prod.mk.injEq, and_true] at h
    subst h
    exact ⟨hI.request, hI.invalidateOnly, (Directory.update_selfID _ _).trans hI.selfID, hI.quiet, hst⟩
  | capture =>
    simp only [step] at h
    split at h
    · next c o hs =>
      rw [hs] at hst
      obtain ⟨hacc, hw, hinv, hat⟩ := hst
      simp only [Option.some.injEq, Prod.mk.injEq, and_true] at h
      subst h
      refine ⟨hI.request, hI.invalidateOnly, hI.selfID, hI.quiet, hacc, hw, hinv, 0, ?_⟩
      exact ⟨rfl, hI.selfID, rfl, rfl, Nat.zero_le _, by simp, fun _ _ => rfl, by simp [hat], by simp [hat]⟩
    · simp at h
  | dispatch =>
    simp only [step] at h
    split at h
    · next c o b hs =>
      rw [hs] at hst
      obtain ⟨hacc, hw, hinv, k, hf⟩ := hst
      split at h
      · simp at h
      · next i hnext =>
        split at h
        · next m client hm hc =>
          simp only [Option.some.injEq, Prod.mk.injEq, and_true] at h
          subst h
          exact ⟨hI.request, hI.invalidateOnly, hI.selfID, by simp, hacc, hw, hinv, k + 1, hf.dispatch hnext hm hc⟩
        · simp at h
    · simp at h
  | finish i result =>
    simp only [step] at h
    split at h
    · next c o b hs =>
      rw [hs] at hst
      obtain ⟨hacc, hw, hinv, k, hf⟩ := hst
      split at h
      · next r hj =>
        simp only [Option.some.injEq, Prod.mk.injEq, and_true] at h
        subst h
        exact ⟨hI.request, hI.invalidateOnly, hI.selfID, hI.quiet, hacc, hw, hinv, k, hf.finish hj⟩
      · simp at h
    · simp at h
  | deliver i now now' =>
    simp only [step] at h
    split at h
    · simp at h
    · next a ha =>
      simp only [Option.some.injEq, Prod.mk.injEq, and_true] at h
      subst h
      refine ⟨hI.request, hI.invalidateOnly, hI.selfID, fun hat => ?_, hst⟩
      rw [show s.attempts = [] from hat] at ha
      simp at ha
  | collect =>
    simp only [step] at h
    split at h
    · next c o b hs =>
      rw [hs] at hst
      obtain ⟨hacc, hw, hinv, k, hf⟩ := hst
      obtain ⟨report, hr, he⟩ := Option.map_eq_some_iff.mp h
      simp only [Prod.mk.injEq, and_true] at he
      subst he
      exact ⟨hI.request, hI.invalidateOnly, hI.selfID, hI.quiet, hacc,
        Or.inr ⟨o, report, b.snapshot, hw, rfl, hinv, hf.captured, hf.complete hr⟩⟩
    · simp at h
  | respond =>
    simp only [step] at h
    split at h
    · next c o hs =>
      rw [hs] at hst
      obtain ⟨hacc, hex⟩ := hst
      simp only [Option.some.injEq, Prod.mk.injEq, and_true] at h
      subst h
      exact ⟨hI.request, hI.invalidateOnly, hI.selfID, hI.quiet, hacc, o, by rw [hI.request], hex⟩
    · simp at h

theorem inv_run (h₀ : Fresh s₀) {tr : List (Action × Unit)} (h : Run (step jsonValid) s₀ tr s) : Inv s₀ s :=
  h.inv (inv_fresh h₀) fun _ _ _ _ hI hst => inv_step hI hst

/-! ### The answer -/

/-- The outcome of a source call that was not refused: the committed version, or an error. -/
theorem written_cases {b : SourceBehaviour} (hb : b.Lawful) (hr : b ≠ .refuse) :
    (∃ v, b = .commit v ∧ (MutationOutcome.written b.result).1 = ⟨⟨some true, some v, none, ""⟩, none, none⟩) ∨
    ∃ e, e ≠ .preconditionFailed ∧ (MutationOutcome.written b.result).1 = ⟨⟨none, none, none, ""⟩, some e, none⟩ := by
  cases b with
  | commit v =>
    simp only [SourceBehaviour.result, MutationOutcome.written, MutationOutcome.writeErrOf]
    split_ifs with hv
    · exact Or.inr ⟨_, by simp, rfl⟩
    · exact Or.inl ⟨v, rfl, rfl⟩
  | refuse => exact absurd rfl hr
  | fail e committed =>
    refine Or.inr ⟨e, hb, ?_⟩
    have he : e ≠ .preconditionFailed := hb
    simp only [SourceBehaviour.result, MutationOutcome.written, MutationOutcome.writeErrOf]
    cases e <;> first | exact absurd rfl he | rfl

/-- The answer after a broadcast: the status tells a write that is known to have committed from all others. -/
theorem answerOf_broadcast {c : MutationCommand} {o : MutationOutcome} (hw : Wrote s c o) (method : Cluster.Method)
    (report : InvalidationReport) : ∃ status header,
      answerOf method (o.broadcast (.ok report)) = .json status header (o.broadcast (.ok report)).response ∧
      status ≠ 412 ∧
      (s.source ≠ none → (o.broadcast (.ok report)).response.sourceCommitted = none → status ≠ 200 ∧ status ≠ 202) := by
  have hdone : ∀ r : MutationResponse, o = ⟨r, none, none⟩ → ∃ status header,
      answerOf method (o.broadcast (.ok report)) = .json status header (o.broadcast (.ok report)).response ∧
      status ≠ 412 := by
    rintro r rfl
    refine ⟨_, _, rfl, ?_⟩
    simp only [MutationOutcome.broadcast, MutationOutcome.status]
    split_ifs <;> simp_all
  rcases hw with ⟨hn, -, rfl⟩ | ⟨b, -, hb, -, hr, rfl⟩
  · obtain ⟨status, header, h1, h2⟩ := hdone _ rfl
    exact ⟨status, header, h1, h2, fun hs => absurd hn hs⟩
  · rcases written_cases hb hr with ⟨v, -, ho⟩ | ⟨e, he, ho⟩
    · rw [ho] at hdone ⊢
      obtain ⟨status, header, h1, h2⟩ := hdone _ rfl
      exact ⟨status, header, h1, h2, fun _ hc => by simp [MutationOutcome.broadcast] at hc⟩
    · rw [ho]
      have hst : (MutationOutcome.broadcast ⟨⟨none, none, none, ""⟩, some e, none⟩ (.ok report)).status = statusOf e := by
        simp [MutationOutcome.broadcast, MutationOutcome.status, he]
      have hans : answerOf method (MutationOutcome.broadcast ⟨⟨none, none, none, ""⟩, some e, none⟩ (.ok report)) =
          .json (statusOf e) [noStore, ("Content-Type", ascii "application/json")]
            (MutationOutcome.broadcast ⟨⟨none, none, none, ""⟩, some e, none⟩ (.ok report)).response := by
        simp only [answerOf, hst]
        simp [MutationOutcome.broadcast, he]
      refine ⟨statusOf e, _, hans, ?_, fun _ _ => ?_⟩
      · exact Cluster.statusOf_ne e (by decide)
      · exact ⟨Cluster.statusOf_ne e (by decide), Cluster.statusOf_ne e (by decide)⟩

section Wrote

variable {c : MutationCommand} {o : MutationOutcome} {report : InvalidationReport} (hw : Wrote s c o)

include hw

theorem Wrote.source_ne : s.source ≠ some .refuse := by
  rcases hw with ⟨hn, -, -⟩ | ⟨b, hs, -, -, hr, -⟩
  · simp [hn]
  · rw [hs]
    exact fun he => hr (Option.some.inj he)

/-- A reported commit is one of the reported version, which is the one that is broadcast. -/
theorem Wrote.commit (hc : (o.broadcast (.ok report)).response.sourceCommitted = some true) :
    ∃ v, s.source = some (.commit v) ∧ (o.broadcast (.ok report)).response.sourceVersion = some v ∧ o.version c = v := by
  rcases hw with ⟨-, -, rfl⟩ | ⟨b, hs, hb, -, hr, rfl⟩
  · simp [MutationOutcome.broadcast, MutationOutcome.empty] at hc
  · rcases written_cases hb hr with ⟨v, rfl, ho⟩ | ⟨e, -, ho⟩
    · rw [ho]
      exact ⟨v, hs, rfl, rfl⟩
    · rw [ho] at hc
      simp [MutationOutcome.broadcast] at hc

/-- A mutation that was broadcast never reports that nothing was committed. -/
theorem Wrote.not_refused : (o.broadcast (.ok report)).response.sourceCommitted ≠ some false := by
  rcases hw with ⟨-, -, rfl⟩ | ⟨b, -, hb, -, hr, rfl⟩
  · simp [MutationOutcome.broadcast, MutationOutcome.empty]
  · rcases written_cases hb hr with ⟨v, -, ho⟩ | ⟨e, -, ho⟩ <;> simp [ho, MutationOutcome.broadcast]

/-- Without a reported commit the version of the command is broadcast. -/
theorem Wrote.version_eq (hc : (o.broadcast (.ok report)).response.sourceCommitted = none) :
    o.version c = c.version := by
  rcases hw with ⟨-, -, rfl⟩ | ⟨b, -, hb, -, hr, rfl⟩
  · rfl
  · rcases written_cases hb hr with ⟨v, -, ho⟩ | ⟨e, -, ho⟩
    · rw [ho] at hc
      simp [MutationOutcome.broadcast] at hc
    · rw [ho]
      rfl

theorem Wrote.version_notify (hk : c.kind = .notify) : o.version c = c.version := by
  rcases hw with ⟨-, -, rfl⟩ | ⟨b, -, -, hne, -, -⟩
  · rfl
  · exact absurd hk hne

end Wrote

/-- **Mutation outcomes are honest and rejections change nothing.**  For a request that has been answered, over every
source:
* turned away before the execution, it has changed neither the source nor a group;
* the answer is 412 exactly when the source refused, and then no group has changed;
* in every other case the group of the node has been invalidated, and exactly one notification begun to every other
  member of the one captured snapshot, all with one version: the committed one when `source_committed` is true, the
  one of the request for POST /invalidate, and 0 when the commit is unknown;
* `source_committed` is true only for a commit of `source_version`, false only if nothing was committed, and a write
  with an unknown commit is not answered with success. -/
theorem mutation_outcomes (h₀ : Fresh s₀) {tr : List (Action × Unit)} (h : Run (step jsonValid) s₀ tr s)
    {c : Option MutationCommand} {a : Answer} (ha : s.stage = .answered c a) :
    (c = none → s.source = none ∧ s.group = s₀.group ∧ s.remote = s₀.remote) ∧
    (a.status = some 412 ↔ s.source = some .refuse) ∧
    (s.source = some .refuse → s.group = s₀.group ∧ s.remote = s₀.remote) ∧
    (∀ command, c = some command → s.source ≠ some .refuse → ∃ status header response snapshot v,
      a = .json status header response ∧ s.captured = some snapshot ∧ Invalidated s₀ s command.key v ∧
      Notified s.attempts command.key v (Broadcast.others s₀.directory.selfID snapshot) ∧
      (response.sourceCommitted = some true → response.sourceVersion = some v) ∧
      (s₀.invalidateOnly = true → parseInvalidationVersion s₀.request.header = .ok v) ∧
      (s₀.invalidateOnly = false → response.sourceCommitted = none → v = 0)) ∧
    ∀ status header response, a = .json status header response →
      (response.sourceCommitted = some true →
        ∃ v, response.sourceVersion = some v ∧ s.source.bind SourceBehaviour.committed = some v) ∧
      (response.sourceCommitted = some false → s.source.bind SourceBehaviour.committed = none) ∧
      (s.source ≠ none → response.sourceCommitted = none → status ≠ 200 ∧ status ≠ 202) := by
  have hI := inv_run h₀ h
  have hst := hI.stage
  rw [ha] at hst
  cases c with
  | none =>
    obtain ⟨hsrc, hg, hat, haway⟩ := hst
    have h412 : a.status ≠ some 412 := by
      cases a with
      | gone => simp [Answer.status]
      | text status header body =>
        rintro he
        obtain rfl : status = 412 := Option.some.inj he
        simp [TurnedAway] at haway
      | json => exact absurd haway id
    refine ⟨fun _ => ⟨hsrc, hg, hI.quiet hat⟩, by simp [hsrc, h412], by simp [hsrc], by simp, ?_⟩
    rintro status header response rfl
    exact absurd haway id
  | some c =>
    obtain ⟨hacc, o, rfl, hex⟩ := hst
    rcases hex with ⟨hsrc, rfl, hg, hat⟩ | ⟨o, report, snapshot, hw, rfl, hinv, hcap, hnot⟩
    · refine ⟨by simp, iff_of_true rfl hsrc, fun _ => ⟨hg, hI.quiet hat⟩, fun _ _ hne => absurd hsrc hne, ?_⟩
      rintro status header response he
      obtain ⟨-, -, rfl⟩ := Answer.json.inj he
      refine ⟨fun hc => ?_, fun _ => by rw [hsrc]; rfl, fun _ hc => ?_⟩
      · simp [SourceBehaviour.result, MutationOutcome.written, MutationOutcome.writeErrOf] at hc
      · simp [SourceBehaviour.result, MutationOutcome.written, MutationOutcome.writeErrOf] at hc
    · have hsrc := hw.source_ne
      obtain ⟨status, header, hans, h412, hfail⟩ := answerOf_broadcast hw s₀.request.method report
      rw [hans]
      refine ⟨by simp, by simp [Answer.status, h412, hsrc], fun hr => absurd hr hsrc, ?_, ?_⟩
      · rintro command hcmd -
        obtain rfl := Option.some.inj hcmd
        refine ⟨status, header, _, snapshot, o.version c, rfl, hcap, hinv, hnot, ?_, ?_, ?_⟩
        · intro hc
          obtain ⟨v, -, hv, he⟩ := hw.commit hc
          rw [he, hv]
        · exact fun hi => (hw.version_notify (hacc.kind.mpr hi)).symm ▸ hacc.header
        · exact fun hi hc => (hw.version_eq hc).trans (hacc.zero hi)
      · rintro status' header' response' he
        obtain ⟨rfl, -, rfl⟩ := Answer.json.inj he
        refine ⟨fun hc => ?_, fun hc => absurd hc hw.not_refused, hfail⟩
        obtain ⟨v, hs, hv, -⟩ := hw.commit hc
        exact ⟨v, hv, by rw [hs]; rfl⟩

/-- A conditional PUT of the key `a` at the node `a`, with one other member. -/
def conditionalPut : Exchange where
  request :=
    { method := .put, path := ascii "/api", rawQuery := ascii "key=a", body := .ok (ascii "1"), ctx := none,
      header := [("Authorization", ascii "Bearer t"), ("If-Match", ascii "\"v1\"")] }
  invalidateOnly := false
  token := [116]
  source := none
  group := Cache.smallGroup
  remote := fun _ => Cache.smallGroup
  directory := ((Cluster.newDirectory [97] [116]).update [⟨[98], ascii "h:1"⟩]).2
  captured := none
  attempts := []
  stage := .received

/-- The PUT commits version 2 and is acknowledged by the other member. -/
def committing : List Action :=
  [.handle true, .write (.commit 2), .invalidate 0 0, .capture, .dispatch, .deliver 0 0 0, .finish 0 (.ok ()),
    .collect, .respond]

theorem committing_isSome : (Lib.exec (step fun _ => true) conditionalPut committing).isSome = true := rfl

theorem mutation_outcomes_put : ∃ status header response snapshot v,
    ((Lib.exec (step fun _ => true) conditionalPut committing).get committing_isSome).1.stage =
      .answered (some ⟨.put, [97], [49], 1, 0⟩) (.json status header response) ∧
    Notified ((Lib.exec (step fun _ => true) conditionalPut committing).get committing_isSome).1.attempts [97] v
      (Broadcast.others [97] snapshot) ∧ (response.sourceCommitted = some true → response.sourceVersion = some v) := by
  obtain ⟨status, header, response, snapshot, v, ha, -, -, hn, hc, -, -⟩ :=
    (mutation_outcomes ⟨rfl, rfl, rfl, rfl⟩ (Lib.exec_get committing_isSome)
      (c := some ⟨.put, [97], [49], 1, 0⟩) rfl).2.2.2.1 _ rfl (by decide)
  exact ⟨status, header, response, snapshot, v, ha ▸ rfl, hn, hc⟩

end Exchange

end SimpleCache.App
