import SimpleCache.Lib.Run
import SimpleCache.Postgres.Outbox

/-!
# Postgres.Store — the shared store as a system

Any number of clients and workers call one `Store`.  Each SQL statement is atomic, so a run is a sequence
of calls; every interleaving of the callers is one such sequence, with any arguments.  A worker that
crashes or misses an answer changes no table: it only changes what it holds (`held`), and `Finish` may be
called with any event at all.

`Effect` says once what a step does to the outbox rows and which lease or completion it answers with;
`step_effect` derives it from the spec lemmas of the calls.
-/

namespace SimpleCache.Postgres

open Outbox (Event)

/-- The database, its clock and the event each worker holds. -/
structure Store where
  db : Db
  clock : ℤ
  held : ℕ → Option Event

/-- Empty tables at some clock time, and no work in progress. -/
def Store.init (clock : ℤ) : Store := ⟨Db.empty, clock, fun _ => none⟩

/-- A call of the store or an event in its surroundings. -/
inductive Call
  /-- `lost`: the statement reaches the database, but its answer does not reach the caller. -/
  | mutate (m : Mutation) (lost : Bool)
  /-- `lost`: the claim is carried out, but its answer does not reach the worker. -/
  | claim (worker : ℕ) (lease : ℤ) (lost : Bool)
  /-- The worker goes on without the event, whether or not the answer reaches it. -/
  | finish (worker : ℕ) (event : Event) (delivered : Bool) (retry : ℤ)
  | purge (retention : ℤ) (limit : ℕ)
  | crash (worker : ℕ)
  | advance
  deriving DecidableEq, Repr

/-- What the caller is answered; the answer to a claim is the one that the database gives. -/
inductive Answer
  | mutated (r : Except Err (Option ℤ))
  | claimed (r : Except Err (Option Event))
  | finished (r : Except Err Bool)
  | purged (r : Except Err ℕ)
  | done

/-- What a worker holds after a claim. -/
def Store.receive (s : Store) (worker : ℕ) (lost : Bool) : Except Err (Option Event) → (ℕ → Option Event)
  | .ok (some e) => if lost then s.held else Function.update s.held worker (some e)
  | _ => s.held

/-- One call; the database clock never goes back. -/
def Store.step (s : Store) (a : Call × Exec) : Option (Store × Answer) :=
  let x := a.2
  if s.clock ≤ x.now ∧ x.now ≤ x.later then
    match a.1 with
    | .mutate m lost => some (⟨(s.db.mutate m x lost).2, x.later, s.held⟩, .mutated (s.db.mutate m x lost).1)
    | .claim w lease lost =>
      some (⟨(s.db.claim lease x).2, x.later, s.receive w lost (s.db.claim lease x).1⟩,
        .claimed (s.db.claim lease x).1)
    | .finish w event delivered retry =>
      some (⟨(s.db.finish event delivered retry x).2, x.later, Function.update s.held w none⟩,
        .finished (s.db.finish event delivered retry x).1)
    | .purge retention limit =>
      some (⟨(s.db.purgeDelivered retention limit x).2, x.later, s.held⟩,
        .purged (s.db.purgeDelivered retention limit x).1)
    | .crash w => some (⟨s.db, x.later, Function.update s.held w none⟩, .done)
    | .advance => some (⟨s.db, x.later, s.held⟩, .done)
  else none

/-- One event of a run. -/
abbrev StoreEvent := (Call × Exec) × Answer

/-! ### Leases and completions of a run -/

/-- A token handed out by a claim, with the end of its lease. -/
structure Lease where
  id : ℤ
  attempt : ℤ
  ends : ℤ
  deriving DecidableEq, Repr

/-- The token a call hands out. -/
def leaseOf : StoreEvent → Option Lease
  | ((.claim _ lease _, x), .claimed (.ok (some e))) => some ⟨e.id, e.attempt, x.later + interval lease⟩
  | _ => none

/-- The completion a call is accepted with: the token and whether the event was delivered. -/
def completionOf : StoreEvent → Option (Event × Bool)
  | ((.finish _ event delivered _, _), .finished (.ok true)) => some (event, delivered)
  | _ => none

/-- The tokens handed out by a run, oldest first. -/
def leases (tr : List StoreEvent) : List Lease := tr.filterMap leaseOf

/-- The accepted completions of a run, oldest first. -/
def completions (tr : List StoreEvent) : List (Event × Bool) := tr.filterMap completionOf

@[simp] theorem leases_nil : leases [] = [] := rfl

@[simp] theorem completions_nil : completions [] = [] := rfl

theorem leases_snoc (tr : List StoreEvent) (e : StoreEvent) :
    leases (tr ++ [e]) = leases tr ++ (leaseOf e).toList := by
  unfold leases
  rw [List.filterMap_append]
  cases h : leaseOf e <;> simp [h]

theorem completions_snoc (tr : List StoreEvent) (e : StoreEvent) :
    completions (tr ++ [e]) = completions tr ++ (completionOf e).toList := by
  unfold completions
  rw [List.filterMap_append]
  cases h : completionOf e <;> simp [h]

/-! ### What a step does to the outbox -/

/-- The primary key of the outbox: ids are distinct and come from the sequence. -/
structure Keyed (db : Db) : Prop where
  nodup : (db.outbox.map OutboxRow.id).Nodup
  lt_next : ∀ r ∈ db.outbox, r.id < db.nextId

theorem Keyed.row_eq {db : Db} (h : Keyed db) {r r' : OutboxRow} (hr : r ∈ db.outbox)
    (hr' : r' ∈ db.outbox) (hid : r.id = r'.id) : r = r' :=
  List.inj_on_of_nodup_map h.nodup hr hr' hid

/-- The effect of one event on the outbox. -/
inductive Effect (db : Db) (e : StoreEvent) (db' : Db) : Prop
  /-- The rows stay as they are. -/
  | quiet : db'.outbox = db.outbox → db.nextId ≤ db'.nextId → leaseOf e = none → completionOf e = none →
      Effect db e db'
  /-- A mutation inserts the event of a new generation. -/
  | insert (key : GoString) (version : ℤ) :
      db'.outbox = db.outbox ++ [⟨db.nextId, key, version, e.1.2.now, none, 0, none⟩] →
      db'.nextId = db.nextId + 1 → leaseOf e = none → completionOf e = none → Effect db e db'
  /-- A claim leases an eligible row. -/
  | lease (c : OutboxRow) (d : ℤ) : c ∈ db.outbox → eligible e.1.2.now c = true → 0 < d → d ≤ minute →
      db' = db.mapOutbox (.lease c.id (e.1.2.later + interval d)) →
      leaseOf e = some ⟨c.id, c.attempts + 1, e.1.2.later + interval d⟩ → completionOf e = none →
      Effect db e db'
  /-- A finish completes the row its token fits. -/
  | complete (event : Event) (delivered : Bool) (retry : ℤ) (r : OutboxRow) : r ∈ db.outbox →
      accepts e.1.2.now event r = true → 0 < event.attempt → 0 ≤ retry → retry ≤ minute →
      db' = db.mapOutbox (.complete event delivered retry e.1.2.now e.1.2.later) →
      leaseOf e = none → completionOf e = some (event, delivered) → Effect db e db'
  /-- A purge drops delivered rows past the retention. -/
  | purge (retention : ℤ) : db'.outbox.Sublist db.outbox → db'.nextId = db.nextId →
      (∀ r ∈ db.outbox, r ∉ db'.outbox → purgeable e.1.2.now retention r = true) →
      leaseOf e = none → completionOf e = none → Effect db e db'

/-- A finish whose token fits no row changes none. -/
theorem mapOutbox_complete_of_none {db : Db} {event : Event} {delivered : Bool} {retry now later : ℤ}
    (h : db.outbox.filter (accepts now event) = []) :
    db.mapOutbox (.complete event delivered retry now later) = db := by
  have hid : ∀ r ∈ db.outbox, OutboxRow.complete event delivered retry now later r = r := by
    intro r hr
    have hn : ¬ accepts now event r = true := by
      intro ha
      have : r ∈ db.outbox.filter (accepts now event) := List.mem_filter.mpr ⟨hr, ha⟩
      rw [h] at this
      simp at this
    rw [OutboxRow.complete, if_neg hn]
  unfold Db.mapOutbox
  rw [List.map_congr_left hid, List.map_id']

/-- A token fits at most one row. -/
theorem filter_accepts_length {db : Db} (hk : Keyed db) (now : ℤ) (event : Event) :
    db.outbox.filter (accepts now event) = [] ∨
    ∃ r ∈ db.outbox, accepts now event r = true ∧
      (db.outbox.filter (accepts now event)).length = 1 := by
  have hnd : (db.outbox.filter (accepts now event)).Nodup := (List.Nodup.of_map _ hk.nodup).filter _
  cases hl : db.outbox.filter (accepts now event) with
  | nil => exact Or.inl rfl
  | cons r l =>
    right
    have hr : r ∈ db.outbox.filter (accepts now event) := by rw [hl]; simp
    obtain ⟨h1, h2⟩ := List.mem_filter.mp hr
    refine ⟨r, h1, h2, ?_⟩
    cases l with
    | nil => rfl
    | cons r' l =>
      -- a second row with the same id would be the same row
      have hr' : r' ∈ db.outbox.filter (accepts now event) := by rw [hl]; simp
      obtain ⟨h3, h4⟩ := List.mem_filter.mp hr'
      have he := hk.row_eq h1 h3 ((accepts_iff.mp h2).1.trans (accepts_iff.mp h4).1.symm)
      rw [hl, he] at hnd
      simp at hnd

/-- **Every step of the store has one of the effects.** -/
theorem Store.step_effect {s s' : Store} {a : Call × Exec} {o : Answer} (hk : Keyed s.db)
    (h : s.step a = some (s', o)) :
    s.clock ≤ a.2.now ∧ a.2.now ≤ a.2.later ∧ s'.clock = a.2.later ∧ Effect s.db (a, o) s'.db := by
  obtain ⟨c, x⟩ := a
  unfold step at h
  dsimp only at h
  split_ifs at h with hx
  refine ⟨hx.1, hx.2, ?_⟩
  cases c with
  | mutate m lost =>
    simp only [Option.some.injEq, Prod.mk.injEq] at h
    obtain ⟨rfl, rfl⟩ := h
    refine ⟨rfl, ?_⟩
    by_cases hc : s.db.Commits m x
    · obtain ⟨h1, -⟩ := Db.mutate_commits hc lost
      exact .insert m.key (m.row (generation (s.db.products m.key) + 1)).version
        (by rw [h1]; rfl) (by rw [h1]; rfl) rfl rfl
    · obtain ⟨-, h1, h2, -⟩ := Db.mutate_not_commits hc lost
      exact .quiet h1 h2 rfl rfl
  | claim w lease lost =>
    simp only [Option.some.injEq, Prod.mk.injEq] at h
    obtain ⟨rfl, rfl⟩ := h
    refine ⟨rfl, ?_⟩
    rcases s.db.claim_spec lease x with ⟨h1, h2⟩ | ⟨c, hc, he, hl, hl', h1, h2⟩
    · have hno : leaseOf ((.claim w lease lost, x), .claimed (s.db.claim lease x).1) = none := by
        cases hr : (s.db.claim lease x).1 with
        | error e => rfl
        | ok r =>
          cases r with
          | none => rfl
          | some e => exact absurd hr (h2 e)
      exact .quiet (by rw [h1]) (by rw [h1]) hno rfl
    · exact .lease c lease hc he hl hl' h2 (by rw [h1]; rfl) rfl
  | finish w event delivered retry =>
    simp only [Option.some.injEq, Prod.mk.injEq] at h
    obtain ⟨rfl, rfl⟩ := h
    refine ⟨rfl, ?_⟩
    rcases s.db.finish_spec event delivered retry x with ⟨h1, h2⟩ | ⟨ha, hr, hr', h1, h2⟩
    · have hno : completionOf ((.finish w event delivered retry, x),
          .finished (s.db.finish event delivered retry x).1) = none := by
        cases hf : (s.db.finish event delivered retry x).1 with
        | error e => rfl
        | ok b =>
          cases b with
          | false => rfl
          | true => exact absurd hf h2
      exact .quiet (by rw [h1]) (by rw [h1]) rfl hno
    · rcases filter_accepts_length hk x.now event with hn | ⟨r, hr1, hr2, hlen⟩
      · rw [mapOutbox_complete_of_none hn] at h2
        refine .quiet (by rw [h2]) (by rw [h2]) rfl ?_
        rw [h1, hn]
        rfl
      · exact .complete event delivered retry r hr1 hr2 ha hr hr' h2 rfl (by rw [h1, hlen]; rfl)
  | purge retention limit =>
    simp only [Option.some.injEq, Prod.mk.injEq] at h
    obtain ⟨rfl, rfl⟩ := h
    refine ⟨rfl, ?_⟩
    obtain ⟨-, h1, h2, h3⟩ := s.db.purge_spec retention limit x
    refine .purge retention h2 h1 (fun r hr hn => ?_) rfl rfl
    obtain ⟨r', hr', hid, hp⟩ := h3 r hr hn
    rwa [hk.row_eq hr' hr hid] at hp
  | crash w =>
    simp only [Option.some.injEq, Prod.mk.injEq] at h
    obtain ⟨rfl, rfl⟩ := h
    exact ⟨rfl, .quiet rfl le_rfl rfl rfl⟩
  | advance =>
    simp only [Option.some.injEq, Prod.mk.injEq] at h
    obtain ⟨rfl, rfl⟩ := h
    exact ⟨rfl, .quiet rfl le_rfl rfl rfl⟩

end SimpleCache.Postgres
