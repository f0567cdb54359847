import SimpleCache.Postgres.Products

/-!
# Postgres.Outbox — the durable event queue (`source/postgres/outbox.go`)

`claim`, `finish` and `purgeDelivered` are the statements of `Store.Claim`, `Store.Finish` and
`Store.PurgeDelivered` with the argument checks made before them.  `eligible`, `accepts` and `purgeable`
are their WHERE clauses.

The spec lemmas (`claim_spec`, `finish_spec`, `purge_spec`) say what each call can do to the rows; the
protocol modules use only them.
-/

namespace SimpleCache

/-- An outbox event as a worker holds it; `attempt` is the lease token. -/
structure Outbox.Event where
  id : ℤ
  key : GoString
  version : ℤ
  attempt : ℤ
  deriving DecidableEq, Repr

namespace Postgres

open Outbox (Event)
open Truth

/-! ### WHERE clauses -/

/-- `delivered_at IS NULL AND available_at<=now AND (leased_until IS NULL OR leased_until<=now)`. -/
def eligible (now : ℤ) (r : OutboxRow) : Bool :=
  holds (and (isNull r.deliveredAt)
    (and (le (some r.availableAt) now) (or (isNull r.leasedUntil) (le r.leasedUntil now))))

/-- `id=$1 AND attempts=$2 AND delivered_at IS NULL AND leased_until>now`. -/
def accepts (now : ℤ) (event : Event) (r : OutboxRow) : Bool :=
  holds (and (eq (some r.id) event.id)
    (and (eq (some r.attempts) event.attempt) (and (isNull r.deliveredAt) (gt r.leasedUntil now))))

/-- `delivered_at<now-retention`. -/
def purgeable (now retention : ℤ) (r : OutboxRow) : Bool :=
  holds (lt r.deliveredAt (now - interval retention))

theorem eligible_iff {now : ℤ} {r : OutboxRow} :
    eligible now r = true ↔ r.deliveredAt = none ∧ r.availableAt ≤ now ∧
      (r.leasedUntil = none ∨ ∃ u, r.leasedUntil = some u ∧ u ≤ now) := by
  simp [eligible]

theorem accepts_iff {now : ℤ} {event : Event} {r : OutboxRow} :
    accepts now event r = true ↔ r.id = event.id ∧ r.attempts = event.attempt ∧
      r.deliveredAt = none ∧ ∃ u, r.leasedUntil = some u ∧ now < u := by
  simp [accepts]

theorem purgeable_iff {now retention : ℤ} {r : OutboxRow} :
    purgeable now retention r = true ↔ ∃ t, r.deliveredAt = some t ∧ t < now - interval retention := by
  simp [purgeable]

/-! ### Claim -/

/-- `ORDER BY available_at,id`. -/
def claimOrder (a b : OutboxRow) : Prop :=
  a.availableAt < b.availableAt ∨ (a.availableAt = b.availableAt ∧ a.id ≤ b.id)

instance : DecidableRel claimOrder := fun a b => by unfold claimOrder; infer_instance

/-- The candidate: the first eligible row that no other session has locked. -/
def candidate (db : Db) (x : Exec) : Option OutboxRow :=
  ((db.outbox.filter fun r => eligible x.now r && !x.locked.contains r.id).insertionSort claimOrder).head?

/-- An UPDATE of the outbox. -/
def Db.mapOutbox (db : Db) (f : OutboxRow → OutboxRow) : Db := { db with outbox := db.outbox.map f }

/-- The UPDATE of a claim on the row `id`: one more attempt and a new lease. -/
def OutboxRow.lease (id leaseEnd : ℤ) (r : OutboxRow) : OutboxRow :=
  if r.id = id then { r with attempts := r.attempts + 1, leasedUntil := some leaseEnd } else r

/-- `Store.Claim`. -/
def Db.claim (db : Db) (lease : ℤ) (x : Exec) : Except Err (Option Event) × Db :=
  if lease ≤ 0 ∨ lease > minute then (.error (.message "invalid outbox lease"), db)
  else match x.fault with
    | some _ => (.error (.message "outbox claim failed"), db)
    | none =>
      match candidate db x with
      | none => (.ok none, db)
      | some c =>
        if c.attempts + 1 ≤ Go.maxInt64 then
          (.ok (some ⟨c.id, c.key, c.version, c.attempts + 1⟩),
            db.mapOutbox (.lease c.id (x.later + interval lease)))
        else (.error (.message "outbox claim failed"), db)

/-! ### Finish -/

/-- The UPDATE of a finish. -/
def OutboxRow.complete (event : Event) (delivered : Bool) (retry now later : ℤ) (r : OutboxRow) :
    OutboxRow :=
  if accepts now event r then
    { r with
      deliveredAt := if delivered then some later else none
      availableAt := if delivered then r.availableAt else later + interval retry
      leasedUntil := none }
  else r

/-- `Store.Finish`; an error stands for the Go result `(false, err)`. -/
def Db.finish (db : Db) (event : Event) (delivered : Bool) (retry : ℤ) (x : Exec) :
    Except Err Bool × Db :=
  if event.id ≤ 0 ∨ event.attempt ≤ 0 ∨ retry < 0 ∨ retry > minute then
    (.error (.message "invalid outbox completion"), db)
  else match x.fault with
    | some _ => (.error (.message "outbox completion failed"), db)
    | none =>
      (.ok (decide ((db.outbox.filter (accepts x.now event)).length = 1)),
        db.mapOutbox (.complete event delivered retry x.now x.later))

/-! ### PurgeDelivered -/

/-- `ORDER BY delivered_at,id`. -/
def purgeOrder (a b : OutboxRow) : Prop :=
  a.deliveredAt.getD 0 < b.deliveredAt.getD 0 ∨
    (a.deliveredAt.getD 0 = b.deliveredAt.getD 0 ∧ a.id ≤ b.id)

instance : DecidableRel purgeOrder := fun a b => by unfold purgeOrder; infer_instance

/-- The rows of one purge batch. -/
def purgeBatch (db : Db) (retention : ℤ) (limit : ℕ) (x : Exec) : List OutboxRow :=
  ((db.outbox.filter fun r => purgeable x.now retention r && !x.locked.contains r.id).insertionSort
    purgeOrder).take limit

/-- `Store.PurgeDelivered`. -/
def Db.purgeDelivered (db : Db) (retention : ℤ) (limit : ℕ) (x : Exec) : Except Err ℕ × Db :=
  if retention < hour ∨ limit < 1 ∨ limit > 1000 then (.error (.message "invalid outbox retention"), db)
  else match x.fault with
    | some _ => (.error (.message "outbox retention failed"), db)
    | none =>
      let ids := (purgeBatch db retention limit x).map OutboxRow.id
      (.ok (db.outbox.filter fun r => ids.contains r.id).length,
        { db with outbox := db.outbox.filter fun r => !ids.contains r.id })

/-! ### What the calls do -/

theorem candidate_spec {db : Db} {x : Exec} {c : OutboxRow} (h : candidate db x = some c) :
    c ∈ db.outbox ∧ eligible x.now c = true := by
  have hm := List.mem_of_head? h
  rw [List.mem_insertionSort, List.mem_filter, Bool.and_eq_true] at hm
  exact ⟨hm.1, hm.2.1⟩

/-- A claim changes nothing, or leases one eligible row and returns its new token. -/
theorem Db.claim_spec (db : Db) (lease : ℤ) (x : Exec) :
    ((db.claim lease x).2 = db ∧ ∀ e, (db.claim lease x).1 ≠ .ok (some e)) ∨
    ∃ c ∈ db.outbox, eligible x.now c = true ∧ 0 < lease ∧ lease ≤ minute ∧
      (db.claim lease x).1 = .ok (some ⟨c.id, c.key, c.version, c.attempts + 1⟩) ∧
      (db.claim lease x).2 = db.mapOutbox (.lease c.id (x.later + interval lease)) := by
  unfold claim
  by_cases hl : lease ≤ 0 ∨ lease > minute
  · exact Or.inl ⟨by rw [if_pos hl], by simp [if_pos hl]⟩
  · rw [if_neg hl]
    cases hf : x.fault with
    | some n => exact Or.inl ⟨rfl, by simp⟩
    | none =>
      cases hc : candidate db x with
      | none => exact Or.inl ⟨rfl, by simp⟩
      | some c =>
        by_cases ha : c.attempts + 1 ≤ Go.maxInt64
        · obtain ⟨h1, h2⟩ := candidate_spec hc
          refine Or.inr ⟨c, h1, h2, by omega, by omega, ?_, ?_⟩ <;> simp only [if_pos ha]
        · simp only [if_neg ha]
          exact Or.inl ⟨trivial, by simp⟩

/-- A finish changes nothing, or runs its UPDATE with arguments that passed the checks. -/
theorem Db.finish_spec (db : Db) (event : Event) (delivered : Bool) (retry : ℤ) (x : Exec) :
    ((db.finish event delivered retry x).2 = db ∧
      (db.finish event delivered retry x).1 ≠ .ok true) ∨
    (0 < event.attempt ∧ 0 ≤ retry ∧ retry ≤ minute ∧
      (db.finish event delivered retry x).1 =
        .ok (decide ((db.outbox.filter (accepts x.now event)).length = 1)) ∧
      (db.finish event delivered retry x).2 =
        db.mapOutbox (.complete event delivered retry x.now x.later)) := by
  unfold finish
  by_cases hg : event.id ≤ 0 ∨ event.attempt ≤ 0 ∨ retry < 0 ∨ retry > minute
  · exact Or.inl ⟨by rw [if_pos hg], by simp [if_pos hg]⟩
  · rw [if_neg hg]
    cases hf : x.fault with
    | some n => exact Or.inl ⟨rfl, by simp⟩
    | none => exact Or.inr ⟨by omega, by omega, by omega, rfl, rfl⟩

/-- A purge only drops rows, and only delivered ones past the retention. -/
theorem Db.purge_spec (db : Db) (retention : ℤ) (limit : ℕ) (x : Exec) :
    (db.purgeDelivered retention limit x).2.products = db.products ∧
    (db.purgeDelivered retention limit x).2.nextId = db.nextId ∧
    (db.purgeDelivered retention limit x).2.outbox.Sublist db.outbox ∧
    ∀ r ∈ db.outbox, r ∉ (db.purgeDelivered retention limit x).2.outbox →
      ∃ r' ∈ db.outbox, r'.id = r.id ∧ purgeable x.now retention r' = true := by
  unfold purgeDelivered
  by_cases hg : retention < hour ∨ limit < 1 ∨ limit > 1000
  · rw [if_pos hg]
    exact ⟨rfl, rfl, List.Sublist.refl _, fun r h1 h2 => absurd h1 h2⟩
  · rw [if_neg hg]
    cases hf : x.fault with
    | some n => exact ⟨rfl, rfl, List.Sublist.refl _, fun r h1 h2 => absurd h1 h2⟩
    | none =>
      refine ⟨rfl, rfl, List.filter_sublist, fun r h1 h2 => ?_⟩
      simp only [List.mem_filter, not_and, Bool.not_eq_true', Bool.not_eq_false] at h2
      have hm := h2 h1
      simp only [List.contains_iff_mem, List.mem_map] at hm
      obtain ⟨r', hr', hid⟩ := hm
      have hb := List.mem_of_mem_take hr'
      rw [List.mem_insertionSort, List.mem_filter, Bool.and_eq_true] at hb
      exact ⟨r', hb.1, hid, hb.2.1⟩

end Postgres

end SimpleCache
