import SimpleCache.Lib.Loop
import SimpleCache.Outbox.Finish

/-!
# Outbox.Loop — the relay worker as it runs (`outbox/worker.go`)

`Worker.Run` is a loop around `Step` with a second loop inside, the purge rounds of `maintain`.  Both are one loop here,
whose heads are the two `for` statements and the cycle.  The queue, the observer, the clock and the context answer as
they like, so a run is any sequence of answers, cut off anywhere.

`Permitted` says what the worker may do after what it has done: no call once it has seen the cancellation; no claim
before the event of the last one is finished, and none straight after an idle or failed cycle; maintenance not before
its interval has passed.  Every run keeps to it (`run_permitted`).
-/

namespace SimpleCache.Outbox

open Lib (Run Prog Loop)
open Lib.Prog (Obeys)
open Postgres (second hour)

/-- `pollInterval`, `maintenanceInterval` and `Retention`. -/
def pollInterval : ℤ := second

def maintenanceInterval : ℤ := 30 * second

def retention : ℤ := 7 * 24 * hour

/-- The rows of one purge round. -/
def purgeLimit : ℕ := 1000

structure Stats where
  purgeEligible : ℤ
  tableBytes : ℤ
  pending : ℤ
  oldestAge : ℤ

/-- What `Worker.Run` calls. -/
inductive RunRequest
  /-- The calls of `Step`, and of the observer. -/
  | cycle (r : Request)
  /-- `ctx.Err() != nil`. -/
  | canceled
  | now
  | stats
  | backlog (pending oldest : ℤ)
  | storage (eligible bytes : ℤ)
  /-- `work.Err() != nil`, for the deadline that the purge rounds share. -/
  | expired
  | purge (retention : ℤ) (limit : ℕ)
  /-- The `select` on `ctx.Done()` and the timer: whether it was the context. -/
  | poll (interval : ℤ)
  deriving DecidableEq

abbrev RunRequest.Reply : RunRequest → Type
  | .cycle r => r.Reply
  | .canceled | .expired | .poll _ => Bool
  | .now => ℤ
  | .stats => Except Err Stats
  | .backlog _ _ | .storage _ _ => Unit
  | .purge _ _ => Except Err ℕ

abbrev Relay := Prog RunRequest RunRequest.Reply Empty

def ask (r : RunRequest) : Relay r.Reply := Prog.request r

/-- The heads of the loops of `Run`, with `nextMaintenance`; none is the zero time, which every reading is after. -/
inductive Head
  | check (next : Option ℤ)
  | purging
  | cycle (next : Option ℤ)

/-- The end of `maintain` and the assignment after it. -/
def Worker.maintained : Relay (Option Head) := do
  let now ← ask .now
  return some (.cycle (some (now + maintenanceInterval)))

/-- `Worker.maintain` up to its purge rounds. -/
def Worker.reportStats : Relay Unit := do
  match ← ask .stats with
  | .error _ => ask (.cycle (.observe "stats" "error"))
  | .ok stats =>
    ask (.backlog stats.pending stats.oldestAge)
    ask (.storage stats.purgeEligible stats.tableBytes)

/-- One round of the purge loop of `Worker.maintain`: whether there is another one. -/
def Worker.purgeRound : Relay Bool := do
  if ← ask .expired then return false
  match ← ask (.purge retention purgeLimit) with
  | .error _ =>
    ask (.cycle (.observe "purge" "error"))
    return false
  | .ok removed =>
    ask (.cycle (.observe "purge" "ok"))
    return decide (purgeLimit ≤ removed)

/-- `Worker.Run`. -/
def Worker.run : Head → Relay (Option Head)
  | .check next => do
    if ← ask .canceled then return none
    let now ← ask .now
    if next.all (· < now) then
      Worker.reportStats
      return some .purging
    return some (.cycle next)
  | .purging => do
    if ← Worker.purgeRound then return some .purging
    Worker.maintained
  | .cycle next => do
    let (worked, err) ← Worker.step.embed .cycle fun _ r => r
    if ← ask .canceled then return none
    if worked && err.isNone then return some (.check next)
    if ← ask (.poll pollInterval) then return none
    return some (.check next)

/-- A call of the worker with its answer. -/
abbrev RunCall := Σ r : RunRequest, r.Reply

/-! ### What the worker may do -/

/-- The worker has seen that its context is canceled. -/
def RunCall.stops : RunCall → Bool
  | ⟨.canceled, b⟩ => b
  | ⟨.poll _, b⟩ => b
  | _ => false

def RunCall.claims : RunCall → Bool
  | ⟨.cycle (.claim _), _⟩ => true
  | _ => false

/-- The events sent, with the errors of the sender. -/
def sent (calls : List RunCall) : List (Event × Option Err) :=
  calls.filterMap fun
    | ⟨.cycle (.send event), err⟩ => some (event, err)
    | _ => none

/-- The calls of `Finish`, with their answers. -/
def finished (calls : List RunCall) : List ((Event × Bool × ℤ) × Except Err Bool) :=
  calls.filterMap fun
    | ⟨.cycle (.finish event delivered retry), r⟩ => some ((event, delivered, retry), r)
    | _ => none

/-- The last claim was answered with `claimed`, and these are the calls since. -/
def LastClaim (h : List RunCall) (claimed : Except Err (Option Event)) (since : List RunCall) : Prop :=
  ∃ before, h = before ++ ⟨.cycle (.claim leaseDuration), claimed⟩ :: since ∧ ∀ x ∈ since, x.claims = false

/-- How a cycle went, by its claim and the calls since. -/
inductive Cycled (since : List RunCall) : Except Err (Option Event) → Bool → Prop
  | failed {e : Err} : sent since = [] → finished since = [] → Cycled since (.error e) false
  | idle : sent since = [] → finished since = [] → Cycled since (.ok none) false
  | worked {event : Event} {err : Option Err} {r : Except Err Bool} : sent since = [(event, err)] →
      finished since = [((event, err.isNone, retryDelay event.attempt), r)] →
      Cycled since (.ok (some event)) r.toOption.isSome

/-- After the last claim: its event was sent and finished once, the context was seen alive, and unless the cycle has
worked the worker has waited. -/
def Rested (h : List RunCall) : Prop :=
  ∀ claimed since, LastClaim h claimed since → ∃ worked, Cycled since claimed worked ∧
    ⟨.canceled, false⟩ ∈ since ∧ (worked = false → ⟨.poll pollInterval, false⟩ ∈ since)

/-- Since every maintenance the clock was read after it, and its interval has passed by the reading made last. -/
def Due (h : List RunCall) : Prop :=
  ∀ before r since, h = before ++ ⟨.stats, r⟩ :: since →
    ∃ s₁ t s₂ t', since = s₁ ++ ⟨.now, t⟩ :: s₂ ++ [⟨.now, t'⟩] ∧ t + maintenanceInterval < t'

/-- What may be called after `h`. -/
def Permitted (h : List RunCall) (x : RunCall) : Prop :=
  (∀ y ∈ h, RunCall.stops y = false) ∧
  match x with
  | ⟨.cycle (.claim lease), _⟩ => lease = leaseDuration ∧ ⟨.canceled, false⟩ ∈ h ∧ Rested h
  | ⟨.cycle (.send event), _⟩ => ∃ since, LastClaim h (.ok (some event)) since ∧ sent since = []
  | ⟨.cycle (.finish event delivered retry), _⟩ => ∃ since err, LastClaim h (.ok (some event)) since ∧
      sent since = [(event, err)] ∧ finished since = [] ∧ delivered = err.isNone ∧ retry = retryDelay event.attempt
  | ⟨.stats, _⟩ => Due h
  | _ => True

/-! ### The invariants of the heads -/

/-- The worker has not seen the cancellation. -/
def Alive (h : List RunCall) : Prop := ∀ y ∈ h, RunCall.stops y = false

/-- `next` is the end of the interval since the last maintenance. -/
def Planned (next : Option ℤ) (h : List RunCall) : Prop :=
  ∀ before r since, h = before ++ ⟨.stats, r⟩ :: since →
    ∃ s₁ t s₂, since = s₁ ++ ⟨.now, t⟩ :: s₂ ∧ next = some (t + maintenanceInterval)

/-- A call that is no part of a cycle and no maintenance. -/
def RunCall.aside : RunCall → Bool
  | ⟨.cycle (.claim _), _⟩ | ⟨.cycle (.send _), _⟩ | ⟨.cycle (.finish _ _ _), _⟩ => false
  | _ => true

section Heads

variable {h since since' : List RunCall} {x : RunCall} {claimed claimed' : Except Err (Option Event)}
  {next : Option ℤ}

theorem Alive.snoc (ha : Alive h) (hx : x.stops = false) : Alive (h ++ [x]) := by
  intro y hy
  rcases List.mem_append.mp hy with hy | hy
  · exact ha y hy
  · rw [List.mem_singleton.mp hy]
    exact hx

/-- The splits of a list with a last element. -/
theorem snoc_split {α : Type*} {l A B : List α} {x y : α} (h : l ++ [x] = A ++ y :: B) :
    (l = A ∧ x = y ∧ B = []) ∨ ∃ C, B = C ++ [x] ∧ l = A ++ y :: C := by
  rcases List.eq_nil_or_concat B with rfl | ⟨C, z, rfl⟩
  · obtain ⟨h1, h2⟩ := List.append_inj' h rfl
    exact Or.inl ⟨h1, List.singleton_inj.mp h2, rfl⟩
  · rw [List.concat_eq_append, ← List.cons_append, ← List.append_assoc] at h
    obtain ⟨h1, h2⟩ := List.append_inj' h rfl
    exact Or.inr ⟨C, by rw [List.concat_eq_append, List.singleton_inj.mp h2], h1⟩

/-- The split of a list at its last element with a property. -/
theorem split_last {α : Type*} {P : α → Bool} {A A' B B' : List α} {y y' : α} (heq : A ++ y :: B = A' ++ y' :: B')
    (hy : P y = true) (hy' : P y' = true) (hB : ∀ x ∈ B, P x = false) (hB' : ∀ x ∈ B', P x = false) :
    y = y' ∧ B = B' := by
  rcases List.append_eq_append_iff.mp heq with ⟨C, rfl, h2⟩ | ⟨C, rfl, h2⟩
  · cases C with
    | nil => exact List.cons.inj h2
    | cons z C =>
      obtain ⟨rfl, rfl⟩ := List.cons.inj h2
      have := hB y' (by simp)
      rw [hy'] at this
      simp at this
  · cases C with
    | nil =>
      obtain ⟨rfl, rfl⟩ := List.cons.inj h2
      exact ⟨rfl, rfl⟩
    | cons z C =>
      obtain ⟨rfl, rfl⟩ := List.cons.inj h2
      have := hB' y (by simp)
      rw [hy] at this
      simp at this

theorem LastClaim.unique (hl : LastClaim h claimed since) (hl' : LastClaim h claimed' since') :
    claimed = claimed' ∧ since = since' := by
  obtain ⟨A, rfl, hB⟩ := hl
  obtain ⟨A', heq, hB'⟩ := hl'
  obtain ⟨hy, hs⟩ := split_last heq (P := RunCall.claims) rfl rfl hB hB'
  exact ⟨eq_of_heq (Sigma.mk.inj hy).2, hs⟩

theorem LastClaim.snoc (hl : LastClaim h claimed since) (hx : x.claims = false) :
    LastClaim (h ++ [x]) claimed (since ++ [x]) := by
  obtain ⟨A, rfl, hB⟩ := hl
  refine ⟨A, by simp, fun y hy => ?_⟩
  rcases List.mem_append.mp hy with hy | hy
  · exact hB y hy
  · rw [List.mem_singleton.mp hy]
    exact hx

theorem lastClaim_new (h : List RunCall) (claimed : Except Err (Option Event)) :
    LastClaim (h ++ [⟨.cycle (.claim leaseDuration), claimed⟩]) claimed [] := ⟨h, rfl, by simp⟩

/-- What is before the last claim is not looked at. -/
theorem LastClaim.back (hl : LastClaim (h ++ [x]) claimed since) (hx : x.claims = false) :
    ∃ since₀, since = since₀ ++ [x] ∧ LastClaim h claimed since₀ := by
  obtain ⟨A, heq, hB⟩ := hl
  rcases snoc_split heq with ⟨-, rfl, -⟩ | ⟨B, rfl, rfl⟩
  · simp [RunCall.claims] at hx
  · exact ⟨B, rfl, A, rfl, fun y hy => hB y (List.mem_append_left _ hy)⟩

theorem Cycled.snoc {worked : Bool} (hc : Cycled since claimed worked) (hx : x.aside = true) :
    Cycled (since ++ [x]) claimed worked := by
  have hs : sent (since ++ [x]) = sent since := by
    unfold sent
    rw [List.filterMap_append]
    unfold RunCall.aside at hx
    split at hx <;> simp_all
  have hf : finished (since ++ [x]) = finished since := by
    unfold finished
    rw [List.filterMap_append]
    unfold RunCall.aside at hx
    split at hx <;> simp_all
  cases hc with
  | failed h1 h2 => exact .failed (hs.trans h1) (hf.trans h2)
  | idle h1 h2 => exact .idle (hs.trans h1) (hf.trans h2)
  | worked h1 h2 => exact .worked (hs.trans h1) (hf.trans h2)

theorem aside_claims (hx : x.aside = true) : x.claims = false := by
  unfold RunCall.aside at hx
  unfold RunCall.claims
  split at hx <;> simp_all

theorem Rested.snoc (hr : Rested h) (hx : x.aside = true) : Rested (h ++ [x]) := by
  intro claimed since hl
  obtain ⟨since₀, rfl, hl₀⟩ := hl.back (aside_claims hx)
  obtain ⟨worked, hc, hcan, hpoll⟩ := hr claimed since₀ hl₀
  exact ⟨worked, hc.snoc hx, List.mem_append_left _ hcan, fun hw => List.mem_append_left _ (hpoll hw)⟩

theorem rested_of {worked : Bool} (hl : LastClaim h claimed since) (hc : Cycled since claimed worked)
    (hcan : ⟨.canceled, false⟩ ∈ since) (hpoll : worked = false → ⟨.poll pollInterval, false⟩ ∈ since) : Rested h := by
  intro claimed' since' hl'
  obtain ⟨rfl, rfl⟩ := hl.unique hl'
  exact ⟨worked, hc, hcan, hpoll⟩

theorem Planned.snoc (hp : Planned next h) (hx : ∀ r, x ≠ ⟨.stats, r⟩) : Planned next (h ++ [x]) := by
  intro before r since heq
  rcases snoc_split heq with ⟨-, he, -⟩ | ⟨B, rfl, rfl⟩
  · exact absurd he (hx r)
  · obtain ⟨s₁, t, s₂, rfl, hnext⟩ := hp before r B rfl
    exact ⟨s₁, t, s₂ ++ [x], by simp, hnext⟩

/-- After maintenance, a reading of the clock plans the next one. -/
theorem planned_now (h : List RunCall) (t : ℤ) : Planned (some (t + maintenanceInterval)) (h ++ [⟨.now, t⟩]) := by
  intro before r since heq
  rcases snoc_split heq with ⟨-, he, -⟩ | ⟨B, rfl, rfl⟩
  · simpa using congrArg Sigma.fst he
  · exact ⟨B, t, [], rfl, rfl⟩

/-- A reading after the planned time. -/
theorem Planned.due (hp : Planned next h) {now : ℤ} (hnext : next.all (· < now) = true) : Due (h ++ [⟨.now, now⟩]) := by
  intro before r since heq
  rcases snoc_split heq with ⟨-, he, -⟩ | ⟨B, rfl, rfl⟩
  · simpa using congrArg Sigma.fst he
  · obtain ⟨s₁, t, s₂, rfl, rfl⟩ := hp before r B rfl
    exact ⟨s₁, t, s₂, now, rfl, by simpa using hnext⟩

/-- The invariant of the heads. -/
def HeadInv : Head → List RunCall → Prop
  | .check next, h => Alive h ∧ Rested h ∧ Planned next h
  | .purging, h => Alive h ∧ Rested h ∧ ⟨.canceled, false⟩ ∈ h
  | .cycle next, h => Alive h ∧ Rested h ∧ ⟨.canceled, false⟩ ∈ h ∧ Planned next h

/-- What a body ends with. -/
def Next (r : Option Head) (h : List RunCall) : Prop :=
  match r with
  | some head => HeadInv head h
  | none => True

/-- The end of a maintenance. -/
theorem obeys_maintained (hI : HeadInv .purging h) : Obeys Permitted Next Worker.maintained h := by
  obtain ⟨ha, hr, hc⟩ := hI
  intro t
  exact ⟨⟨ha, trivial⟩, ha.snoc rfl, hr.snoc rfl, List.mem_append_left _ hc, planned_now h t⟩

/-- The reports at the start of a maintenance. -/
theorem obeys_reportStats (ha : Alive h) (hr : Rested h) (hc : ⟨.canceled, false⟩ ∈ h) (hd : Due h) :
    Obeys Permitted (fun _ h => HeadInv .purging h) Worker.reportStats h := by
  intro stats
  refine ⟨⟨ha, hd⟩, ?_⟩
  have hI : HeadInv .purging (h ++ [⟨.stats, stats⟩]) := ⟨ha.snoc rfl, hr.snoc rfl, List.mem_append_left _ hc⟩
  obtain ⟨ha, hr, hc⟩ := hI
  cases stats with
  | error e => exact fun _ => ⟨⟨ha, trivial⟩, ha.snoc rfl, hr.snoc rfl, List.mem_append_left _ hc⟩
  | ok stats =>
    intro u
    have ha' := ha.snoc (x := ⟨.backlog stats.pending stats.oldestAge, u⟩) rfl
    have hr' := hr.snoc (x := ⟨.backlog stats.pending stats.oldestAge, u⟩) rfl
    refine ⟨⟨ha, trivial⟩, fun _ => ⟨⟨ha', trivial⟩, ha'.snoc rfl, hr'.snoc rfl, ?_⟩⟩
    exact List.mem_append_left _ (List.mem_append_left _ hc)

theorem obeys_check (hI : HeadInv (.check next) h) : Obeys Permitted Next (Worker.run (.check next)) h := by
  obtain ⟨ha, hr, hp⟩ := hI
  intro canceled
  refine ⟨⟨ha, trivial⟩, ?_⟩
  cases canceled with
  | true => trivial
  | false =>
    have ha₁ := ha.snoc (x := ⟨.canceled, false⟩) rfl
    have hr₁ := hr.snoc (x := ⟨.canceled, false⟩) rfl
    have hp₁ := hp.snoc (x := ⟨.canceled, false⟩) (by simp)
    intro now
    refine ⟨⟨ha₁, trivial⟩, ?_⟩
    have ha₂ := ha₁.snoc (x := ⟨.now, now⟩) rfl
    have hr₂ := hr₁.snoc (x := ⟨.now, now⟩) rfl
    have hc₂ : ⟨.canceled, false⟩ ∈ h ++ [⟨.canceled, false⟩] ++ [⟨.now, now⟩] := by simp
    show Obeys Permitted Next (if next.all (· < now) = true then _ else _) _
    by_cases hnext : next.all (· < now) = true
    · rw [if_pos hnext]
      exact Prog.obeys_bind (obeys_reportStats ha₂ hr₂ hc₂ (hp₁.due hnext))
    · rw [if_neg hnext]
      exact ⟨ha₂, hr₂, hc₂, hp₁.snoc (by simp)⟩

theorem HeadInv.purging_snoc (hI : HeadInv .purging h) (hx : x.aside = true) (hs : x.stops = false) :
    HeadInv .purging (h ++ [x]) :=
  ⟨hI.1.snoc hs, hI.2.1.snoc hx, List.mem_append_left _ hI.2.2⟩

theorem obeys_purgeRound (hI : HeadInv .purging h) :
    Obeys Permitted (fun _ h => HeadInv .purging h) Worker.purgeRound h := by
  intro expired
  refine ⟨⟨hI.1, trivial⟩, ?_⟩
  have hI₁ := hI.purging_snoc (x := ⟨.expired, expired⟩) rfl rfl
  cases expired with
  | true => exact hI₁
  | false =>
    intro purged
    refine ⟨⟨hI₁.1, trivial⟩, ?_⟩
    have hI₂ := hI₁.purging_snoc (x := ⟨.purge retention purgeLimit, purged⟩) rfl rfl
    cases purged with
    | error e => exact fun u => ⟨⟨hI₂.1, trivial⟩, hI₂.purging_snoc rfl rfl⟩
    | ok removed => exact fun u => ⟨⟨hI₂.1, trivial⟩, hI₂.purging_snoc rfl rfl⟩

theorem obeys_purging (hI : HeadInv .purging h) : Obeys Permitted Next (Worker.run .purging) h := by
  refine Prog.obeys_bind (Prog.obeys_mono (fun again h hI => ?_) (obeys_purgeRound hI))
  cases again with
  | true => exact hI
  | false => exact obeys_maintained hI

/-- What a cycle of `Step` leaves behind. -/
structure Ended (next : Option ℤ) (result : Bool × Option Err) (h : List RunCall) : Prop where
  alive : Alive h
  planned : Planned next h
  cycled : ∃ claimed since, LastClaim h claimed since ∧ Cycled since claimed (result.1 && result.2.isNone)

theorem obeys_step (hI : HeadInv (.cycle next) h) :
    Obeys Permitted (Ended next) (Worker.step.embed .cycle fun _ r => r : Relay (Bool × Option Err)) h := by
  obtain ⟨ha, hr, hc, hp⟩ := hI
  intro claimed
  refine ⟨⟨ha, rfl, hc, hr⟩, ?_⟩
  have ha₁ := ha.snoc (x := ⟨.cycle (.claim leaseDuration), claimed⟩) rfl
  have hp₁ := hp.snoc (x := ⟨.cycle (.claim leaseDuration), claimed⟩) (by simp)
  have hl₁ := lastClaim_new h claimed
  rcases claimed with e | _ | event
  · exact fun u => ⟨⟨ha₁, trivial⟩, ha₁.snoc rfl, hp₁.snoc (by simp), _, _, hl₁.snoc rfl, .failed rfl rfl⟩
  · exact ⟨ha₁, hp₁, _, _, hl₁, .idle rfl rfl⟩
  · intro u
    refine ⟨⟨ha₁, trivial⟩, ?_⟩
    have ha₂ := ha₁.snoc (x := ⟨.cycle (.observe "claim" "ok"), u⟩) rfl
    have hp₂ := hp₁.snoc (x := ⟨.cycle (.observe "claim" "ok"), u⟩) (by simp)
    have hl₂ := hl₁.snoc (x := ⟨.cycle (.observe "claim" "ok"), u⟩) rfl
    intro err
    refine ⟨⟨ha₂, _, hl₂, rfl⟩, ?_⟩
    have ha₃ := ha₂.snoc (x := ⟨.cycle (.send event), err⟩) rfl
    have hp₃ := hp₂.snoc (x := ⟨.cycle (.send event), err⟩) (by simp)
    have hl₃ := hl₂.snoc (x := ⟨.cycle (.send event), err⟩) rfl
    intro finished
    refine ⟨⟨ha₃, _, err, hl₃, rfl, rfl, rfl, rfl⟩, ?_⟩
    have ha₄ := ha₃.snoc (x := ⟨.cycle (.finish event err.isNone (retryDelay event.attempt)), finished⟩) rfl
    have hp₄ := hp₃.snoc (x := ⟨.cycle (.finish event err.isNone (retryDelay event.attempt)), finished⟩) (by simp)
    have hl₄ := hl₃.snoc (x := ⟨.cycle (.finish event err.isNone (retryDelay event.attempt)), finished⟩) rfl
    rcases finished with e | _ | _ <;> intro v
    · exact ⟨⟨ha₄, trivial⟩, ha₄.snoc rfl, hp₄.snoc (by simp), _, _, hl₄.snoc rfl, .worked (r := .error e) rfl rfl⟩
    · exact ⟨⟨ha₄, trivial⟩, ha₄.snoc rfl, hp₄.snoc (by simp), _, _, hl₄.snoc rfl, .worked (r := .ok false) rfl rfl⟩
    · exact ⟨⟨ha₄, trivial⟩, ha₄.snoc rfl, hp₄.snoc (by simp), _, _, hl₄.snoc rfl, .worked (r := .ok true) rfl rfl⟩

theorem obeys_cycle (hI : HeadInv (.cycle next) h) : Obeys Permitted Next (Worker.run (.cycle next)) h := by
  refine Prog.obeys_bind (Prog.obeys_mono ?_ (obeys_step hI))
  rintro ⟨worked, err⟩ h ⟨ha, hp, claimed, since, hl, hc⟩ canceled
  refine ⟨⟨ha, trivial⟩, ?_⟩
  cases canceled with
  | true => trivial
  | false =>
    have ha₁ := ha.snoc (x := ⟨.canceled, false⟩) rfl
    have hp₁ := hp.snoc (x := ⟨.canceled, false⟩) (by simp)
    have hl₁ := hl.snoc (x := ⟨.canceled, false⟩) rfl
    have hc₁ := hc.snoc (x := ⟨.canceled, false⟩) rfl
    show Obeys Permitted Next (if (worked && err.isNone) = true then _ else _) _
    by_cases hw : (worked && err.isNone) = true
    · rw [if_pos hw]
      exact ⟨ha₁, rested_of hl₁ hc₁ (by simp) (by simp [hw]), hp₁⟩
    · rw [if_neg hw]
      intro stop
      refine ⟨⟨ha₁, trivial⟩, ?_⟩
      cases stop with
      | true => trivial
      | false =>
        exact ⟨ha₁.snoc rfl, rested_of (hl₁.snoc rfl) (hc₁.snoc rfl) (by simp) (by simp), hp₁.snoc (by simp)⟩

end Heads

theorem headInv_start : HeadInv (.check none) [] :=
  ⟨by simp [Alive], fun _ _ ⟨_, h, _⟩ => by simp at h, fun _ _ _ h => by simp at h⟩

/-- **The relay worker keeps to its protocol.**  In every run of `Worker.Run`, with whatever answers and cut off
anywhere, every call is permitted after the calls before it: nothing is called once the cancellation was seen; an event
is sent once and finished once, with the outcome of its sending, before the next claim; between two claims the context
was seen alive, and unless the cycle in between has finished its event the poll interval was waited for; and statistics
and purges are at least the maintenance interval apart by the readings of the clock. -/
theorem run_permitted {tr : List (Loop.Event RunRequest RunRequest.Reply × Unit)}
    {l : Loop Head RunRequest RunRequest.Reply} (hrun : Run (Loop.step Worker.run) (Loop.start Worker.run (.check none)) tr l)
    {before since : List RunCall} {x : RunCall} (hx : Loop.calls tr = before ++ x :: since) : Permitted before x := by
  refine (Loop.obeys (I := HeadInv) (D := fun _ => True) headInv_start (fun head h hI => ?_) hrun).1 before x since hx
  refine Prog.obeys_mono (Q := Next) (fun r h hn => ?_) ?_
  · cases r with
    | none => trivial
    | some head => exact hn
  · cases head with
    | check next => exact obeys_check hI
    | purging => exact obeys_purging hI
    | cycle next => exact obeys_cycle hI

/-- An event in its second attempt. -/
def retried : Event := ⟨1, [107], 1, 2⟩

/-- Maintenance, a cycle whose event cannot be sent, and the next claim. -/
def retryRun : List (Loop.Event RunRequest RunRequest.Reply) :=
  [.called ⟨.canceled, false⟩, .called ⟨.now, 5⟩, .called ⟨.stats, .ok ⟨0, 0, 0, 0⟩⟩, .called ⟨.backlog 0 0, ()⟩,
   .called ⟨.storage 0 0, ()⟩, .back, .called ⟨.expired, true⟩, .called ⟨.now, 6⟩, .back,
   .called ⟨.cycle (.claim leaseDuration), .ok (some retried)⟩, .called ⟨.cycle (.observe "claim" "ok"), ()⟩,
   .called ⟨.cycle (.send retried), some .deadlineExceeded⟩,
   .called ⟨.cycle (.finish retried false (2 * second)), .ok true⟩,
   .called ⟨.cycle (.observe "finish" "retry"), ()⟩, .called ⟨.canceled, false⟩, .back,
   .called ⟨.canceled, false⟩, .called ⟨.now, 7⟩, .back, .called ⟨.cycle (.claim leaseDuration), .ok none⟩]

/-- The calls before the event is finished, and those before the next claim. -/
def retryCalls (n : ℕ) : List RunCall := (Loop.calls (retryRun.zip (List.replicate 20 ()))).take n

theorem retryCalls_finish : Loop.calls (retryRun.zip (List.replicate 20 ())) =
    retryCalls 10 ++ ⟨.cycle (.finish retried false (2 * second)), .ok true⟩ ::
      (Loop.calls (retryRun.zip (List.replicate 20 ()))).drop 11 := rfl

theorem retryCalls_claim : Loop.calls (retryRun.zip (List.replicate 20 ())) =
    retryCalls 15 ++ [⟨.cycle (.claim leaseDuration), .ok none⟩] := rfl

/-- The event was sent once before it is finished as not delivered, with the delay of its attempt; and the next claim
comes after that cycle. -/
theorem run_permitted_retried : ∃ l, Run (Loop.step Worker.run) (Loop.start Worker.run (.check none))
    (retryRun.zip (List.replicate 20 ())) l ∧
    (∃ since err, LastClaim (retryCalls 10) (.ok (some retried)) since ∧ sent since = [(retried, err)] ∧
      finished since = [] ∧ false = err.isNone ∧ 2 * second = retryDelay retried.attempt) ∧ Rested (retryCalls 15) := by
  have hrun := Lib.exec_run (Loop.step Worker.run) retryRun (Loop.start Worker.run (.check none)) _
    (List.replicate 20 ()) rfl
  exact ⟨_, hrun, (run_permitted hrun retryCalls_finish).2, (run_permitted hrun retryCalls_claim).2.2.2⟩

/-! ### The end of the loop -/

/-- What a body of the relay ends with: the end of the loop comes after a stop. -/
def EndsStopped (r : Option Head) (h : List RunCall) : Prop := r = none → ∃ y ∈ h, RunCall.stops y = true

theorem endsStopped_run (head : Head) (h : List RunCall) :
    Obeys (fun _ _ => True) EndsStopped (Worker.run head) h := by
  cases head with
  | check next =>
    intro canceled
    refine ⟨trivial, ?_⟩
    cases canceled with
    | true => exact fun _ => ⟨⟨.canceled, true⟩, by simp, rfl⟩
    | false =>
      intro now
      refine ⟨trivial, ?_⟩
      show Obeys _ _ (if next.all (· < now) = true then _ else _) _
      split_ifs
      · exact Prog.obeys_bind (Prog.obeys_of_forall (fun _ _ => trivial) (fun _ _ => nofun) _ _)
      · nofun
  | purging =>
    refine Prog.obeys_bind (Prog.obeys_of_forall (fun _ _ => trivial) (fun again h => ?_) _ _)
    cases again with
    | true => nofun
    | false => exact fun now => ⟨trivial, nofun⟩
  | cycle next =>
    refine Prog.obeys_bind (Prog.obeys_of_forall (fun _ _ => trivial) (fun result h => ?_) _ _)
    intro canceled
    refine ⟨trivial, ?_⟩
    cases canceled with
    | true => exact fun _ => ⟨⟨.canceled, true⟩, by simp, rfl⟩
    | false =>
      show Obeys _ _ (if (result.1 && result.2.isNone) = true then _ else _) _
      split_ifs
      · nofun
      · intro stop
        refine ⟨trivial, ?_⟩
        cases stop with
        | true => exact fun _ => ⟨⟨.poll pollInterval, true⟩, by simp, rfl⟩
        | false => nofun

/-- The relay returns only after it has seen its context canceled. -/
theorem returned_stops {tr : List (Loop.Event RunRequest RunRequest.Reply × Unit)}
    (h : Run (Loop.step Worker.run) (Loop.start Worker.run (.check none)) tr .returned) :
    ∃ y ∈ Loop.calls tr, RunCall.stops y = true := by
  refine (Loop.obeys (I := fun _ _ => True) (D := fun h => ∃ y ∈ h, RunCall.stops y = true) trivial
    (fun head h _ => Prog.obeys_mono (fun r h hr => ?_) (endsStopped_run head h)) h).2
  cases r with
  | none => exact hr rfl
  | some => trivial

/-- The answers of a context that is canceled; the deadline of the purge rounds is below it. -/
def RunCall.afterCancel : RunCall → Bool
  | ⟨.canceled, b⟩ => b
  | ⟨.expired, b⟩ => b
  | _ => true

theorem run_within (head : Head) : (Worker.run head).Within 7 := by
  have hstats : Worker.reportStats.Within 3 := by
    rintro (_ | _)
    · exact fun _ => trivial
    · exact fun _ _ => trivial
  have hround : Worker.purgeRound.Within 3 := by
    rintro (_ | _)
    · rintro (_ | _)
      · exact fun _ => trivial
      · exact fun _ => trivial
    · trivial
  have hstep : (Worker.step.embed .cycle fun _ r => r : Relay (Bool × Option Err)).Within 5 := by
    rintro (_ | _ | event)
    · exact fun _ => trivial
    · trivial
    · rintro _ err (_ | _ | _) <;> exact fun _ => trivial
  cases head with
  | check next =>
    rintro (_ | _)
    · intro now
      show Prog.Within (if next.all (· < now) = true then _ else _) 5
      split_ifs
      · refine Prog.within_bind (m := 2) (fun _ => ?_) hstats
        trivial
      · trivial
    · trivial
  | purging =>
    refine Prog.within_bind (n := 3) (m := 4) (fun again => ?_) hround
    cases again with
    | true => trivial
    | false => exact fun _ => trivial
  | cycle next =>
    refine Prog.within_bind (n := 5) (m := 2) (fun result => ?_) hstep
    rintro (_ | _)
    · show Prog.Within (if (result.1 && result.2.isNone) = true then _ else _) 1
      split_ifs
      · trivial
      · rintro (_ | _) <;> trivial
    · trivial

/-- With its context canceled, the relay returns within ten events of a head. -/
theorem run_endsIn (head : Head) :
    Loop.EndsIn Worker.run (fun x => RunCall.afterCancel x = true) 10 (Worker.run head) := by
  have hcycle : ∀ next, Loop.EndsIn Worker.run (fun x => RunCall.afterCancel x = true) 7 (Worker.run (.cycle next)) := by
    rintro next (_ | _ | event) _
    · rintro _ _ (_ | _) hc
      · cases hc
      · trivial
    · rintro (_ | _) hc
      · cases hc
      · trivial
    · rintro _ _ err _ (_ | _ | _) _ _ _ (_ | _) hc
      all_goals first | cases hc; done | trivial
  cases head with
  | check next =>
    rintro (_ | _) hc
    · cases hc
    · trivial
  | purging =>
    rintro (_ | _) hc
    · cases hc
    · exact fun _ _ => hcycle _
  | cycle next => exact (hcycle next).succ.succ.succ

/-- Whatever the relay is doing when its context is canceled, it returns within 18 events. -/
theorem canceled_length_le {tr tr' : List (Loop.Event RunRequest RunRequest.Reply × Unit)}
    {l l' : Loop Head RunRequest RunRequest.Reply}
    (h : Run (Loop.step Worker.run) (Loop.start Worker.run (.check none)) tr l) (h' : Run (Loop.step Worker.run) l tr' l')
    (hok : ∀ x, (.called x, ()) ∈ tr' → RunCall.afterCancel x = true) : tr'.length ≤ 18 := by
  cases l with
  | running p => exact (Loop.endsIn_of_within run_endsIn (Loop.within_run run_within h p rfl)).length_le h' hok
  | returned =>
    cases tr' with
    | nil => exact Nat.zero_le _
    | cons e tr' =>
      obtain ⟨_, hst, -⟩ := h'.cons_inv
      cases hst

end SimpleCache.Outbox
