import SimpleCache.Outbox.Loop

/-!
# Outbox.Drain — what the worker does for the queue

Here the calls of the worker are answered by the store (`Healthy`): nobody else calls it, no statement fails, and every
sending and every finish succeeds.  The rows that wait are a queue in the order of `Claim`; a cycle takes its first row
out and leaves the others as they are (`queued_finish`), so a worker that starts a minute after whatever has happened
delivers the waiting events in order, each once, until none is left (`drains_in_order`).  The purge rounds of a
maintenance together do what one unbounded DELETE would do (`purge_rounds`).
-/

namespace SimpleCache.Postgres

open Outbox (Event)

/-! ### The waiting rows as a queue -/

/-- The rows that are not delivered, in the order of `Claim`. -/
def Db.queued (db : Db) : List OutboxRow :=
  (db.outbox.filter fun r => r.deliveredAt.isNone).insertionSort claimOrder

instance : Std.Total claimOrder := ⟨fun a b => by unfold claimOrder; omega⟩

instance : IsTrans OutboxRow claimOrder := ⟨fun a b c => by unfold claimOrder; omega⟩

theorem mem_queued {db : Db} {r : OutboxRow} : r ∈ db.queued ↔ r ∈ db.outbox ∧ r.deliveredAt = none := by
  rw [Db.queued, List.mem_insertionSort, List.mem_filter, Option.isNone_iff_eq_none]

theorem queued_pairwise (db : Db) : db.queued.Pairwise claimOrder := List.pairwise_insertionSort _ _

theorem queued_perm (db : Db) : db.queued.Perm (db.outbox.filter fun r => r.deliveredAt.isNone) :=
  List.perm_insertionSort _ _

/-- A sorted list of the waiting rows is the queue. -/
theorem queued_eq {db : Db} (hk : Keyed db) {l : List OutboxRow} (hs : l.Pairwise claimOrder)
    (hp : l.Perm (db.outbox.filter fun r => r.deliveredAt.isNone)) : db.queued = l := by
  refine List.Perm.eq_of_pairwise (fun a b ha hb h1 h2 => ?_) (queued_pairwise db) hs
    ((queued_perm db).trans hp.symm)
  have hb' : b ∈ db.outbox := (List.mem_filter.mp (hp.subset hb)).1
  refine hk.row_eq (mem_queued.mp ha).1 hb' ?_
  unfold claimOrder at h1 h2
  omega

/-- Every waiting row can be claimed. -/
def Store.Ready (s : Store) : Prop :=
  ∀ r ∈ s.db.outbox, r.deliveredAt = none → r.availableAt ≤ s.clock ∧ ∀ u, r.leasedUntil = some u → u ≤ s.clock

theorem Store.Ready.eligible {s : Store} (h : s.Ready) {r : OutboxRow} (hr : r ∈ s.db.outbox) {now : ℤ}
    (hnow : s.clock ≤ now) : eligible now r = r.deliveredAt.isNone := by
  cases hd : r.deliveredAt with
  | some t =>
    rw [Option.isNone_some, Bool.eq_false_iff]
    intro he
    rw [(eligible_iff.mp he).1] at hd
    simp at hd
  | none =>
    obtain ⟨h1, h2⟩ := h r hr hd
    refine eligible_iff.mpr ⟨hd, h1.trans hnow, ?_⟩
    cases hu : r.leasedUntil with
    | none => exact Or.inl rfl
    | some u => exact Or.inr ⟨u, rfl, (h2 u hu).trans hnow⟩

/-- A claim takes the head of the queue. -/
theorem candidate_queued {s : Store} (h : s.Ready) {x : Exec} (hnow : s.clock ≤ x.now) (hl : x.locked = []) :
    candidate s.db x = s.db.queued.head? := by
  unfold candidate Db.queued
  congr 2
  refine List.filter_congr fun r hr => ?_
  rw [h.eligible hr hnow, hl]
  simp

theorem Keyed.nodup_queued {db : Db} (hk : Keyed db) : (db.queued.map OutboxRow.id).Nodup :=
  ((queued_perm db).map _).nodup_iff.mpr (hk.nodup.sublist (List.filter_sublist.map _))

/-- **A claim and the accepted finish of its event** take the first row out of the queue and leave the others alone. -/
theorem queued_finish {db : Db} (hk : Keyed db) {c : OutboxRow} {rest : List OutboxRow} (hq : db.queued = c :: rest)
    {event : Event} (hid : event.id = c.id) {u now : ℤ} {r₀ : OutboxRow}
    (hr₀ : r₀ ∈ (db.mapOutbox (.lease c.id u)).outbox) (ha : accepts now event r₀ = true) (retry later : ℤ) :
    let db' := (db.mapOutbox (.lease c.id u)).mapOutbox (.complete event true retry now later)
    db'.queued = rest ∧ ∀ r ∈ db'.outbox, r.deliveredAt = none → r ∈ db.outbox := by
  have hk₁ : Keyed (db.mapOutbox (.lease c.id u)) := hk.mapOutbox fun r => by simp
  have hc : c ∈ db.outbox := (mem_queued.mp (by rw [hq]; exact List.mem_cons_self)).1
  set f : OutboxRow → OutboxRow := fun r => .complete event true retry now later (.lease c.id u r) with hf
  -- the other rows stay as they are, and the first one is delivered
  have hother : ∀ r, r.id ≠ c.id → f r = r := by
    intro r hne
    simp only [hf, OutboxRow.lease_of_ne hne]
    refine OutboxRow.complete_of_not (Bool.eq_false_iff.mpr fun h => hne ?_)
    rw [(accepts_iff.mp h).1, hid]
  have hfirst : (f c).deliveredAt = some later := by
    have hr : r₀ = .lease c.id u c :=
      hk₁.row_eq hr₀ (mem_mapOutbox.mpr ⟨c, hc, rfl⟩) (by rw [(accepts_iff.mp ha).1, hid, OutboxRow.lease_id])
    simp only [hf]
    rw [hr] at ha
    rw [OutboxRow.complete_of ha]
    rfl
  have hpending : ∀ r ∈ db.outbox, (f r).deliveredAt.isNone = (r.deliveredAt.isNone && decide (r.id ≠ c.id)) := by
    intro r hr
    by_cases hne : r.id = c.id
    · rw [hk.row_eq hr hc hne, hfirst]
      simp
    · rw [hother r hne]
      simp [hne]
  intro db'
  have hout : db'.outbox = db.outbox.map f := List.map_map
  have hfilter : (db'.outbox.filter fun r => r.deliveredAt.isNone) =
      (db.outbox.filter fun r => r.deliveredAt.isNone).filter fun r => decide (r.id ≠ c.id) := by
    rw [hout, List.filter_map, List.filter_filter]
    rw [List.filter_congr (q := fun r => decide (r.id ≠ c.id) && r.deliveredAt.isNone) fun r hr => by
      simp only [Function.comp_apply]
      rw [hpending r hr, Bool.and_comm]]
    refine (List.map_congr_left fun r hr => ?_).trans (List.map_id _)
    have hne := (List.mem_filter.mp hr).2
    simp only [Bool.and_eq_true, decide_eq_true_eq] at hne
    exact hother r hne.1
  refine ⟨?_, fun r hr hd => ?_⟩
  · have hk' : Keyed db' := hk₁.mapOutbox fun r => by simp
    have hsorted := queued_pairwise db
    have hnodup := hk.nodup_queued
    have hperm := queued_perm db
    rw [hq] at hsorted hnodup hperm
    refine queued_eq hk' (List.Pairwise.of_cons hsorted) ?_
    rw [hfilter]
    refine List.Perm.trans ?_ (hperm.filter _)
    have hrest : rest.filter (fun r => decide (r.id ≠ c.id)) = rest := by
      refine List.filter_eq_self.mpr fun r hr => ?_
      simp only [List.map_cons, List.nodup_cons, List.mem_map, not_exists, not_and] at hnodup
      exact decide_eq_true (hnodup.1 r hr)
    rw [List.filter_cons_of_neg (by simp), hrest]
  · have hmem : r ∈ db'.outbox.filter fun r => r.deliveredAt.isNone := List.mem_filter.mpr ⟨hr, by rw [hd]; rfl⟩
    rw [hfilter] at hmem
    exact (List.mem_filter.mp (List.mem_filter.mp hmem).1).1

/-- A claim that finds nothing: the queue is empty. -/
theorem Store.claim_idle {s s' : Store} {w : ℕ} {x : Exec} (h : s.Ready) (hf : x.fault = none) (hl : x.locked = [])
    (hst : s.step (.claim w Outbox.leaseDuration false, x) = some (s', .claimed (.ok none))) :
    s.db.queued = [] ∧ s'.db = s.db ∧ s.clock ≤ s'.clock := by
  unfold step at hst
  dsimp only at hst
  split_ifs at hst with hx
  obtain ⟨rfl, hans⟩ := Prod.mk.inj (Option.some.inj hst)
  have hclaim : (s.db.claim Outbox.leaseDuration x).1 = .ok none := by simpa using hans
  unfold Db.claim at hclaim ⊢
  rw [if_neg (by decide), hf, candidate_queued h hx.1 hl] at hclaim ⊢
  cases hq : s.db.queued with
  | nil => exact ⟨rfl, rfl, hx.1.trans hx.2⟩
  | cons c rest =>
    rw [hq] at hclaim
    simp only [List.head?_cons] at hclaim
    split_ifs at hclaim
    simp at hclaim

/-- A claim that finds an event: it is the first of the queue. -/
theorem Store.claim_first {s s' : Store} {w : ℕ} {x : Exec} {event : Event} (h : s.Ready) (hf : x.fault = none)
    (hl : x.locked = [])
    (hst : s.step (.claim w Outbox.leaseDuration false, x) = some (s', .claimed (.ok (some event)))) :
    ∃ c rest u, s.db.queued = c :: rest ∧ event = ⟨c.id, c.key, c.version, c.attempts + 1⟩ ∧
      s'.db = s.db.mapOutbox (.lease c.id u) ∧ s.clock ≤ s'.clock := by
  unfold step at hst
  dsimp only at hst
  split_ifs at hst with hx
  obtain ⟨rfl, hans⟩ := Prod.mk.inj (Option.some.inj hst)
  have hclaim : (s.db.claim Outbox.leaseDuration x).1 = .ok (some event) := by simpa using hans
  unfold Db.claim at hclaim ⊢
  rw [if_neg (by decide), hf, candidate_queued h hx.1 hl] at hclaim ⊢
  cases hq : s.db.queued with
  | nil => rw [hq] at hclaim; simp at hclaim
  | cons c rest =>
    rw [hq] at hclaim
    simp only [List.head?_cons] at hclaim ⊢
    split_ifs at hclaim ⊢ with hatt
    simp only [Except.ok.injEq, Option.some.injEq] at hclaim
    exact ⟨c, rest, _, rfl, hclaim.symm, rfl, hx.1.trans hx.2⟩

/-- **A whole cycle**: the first event leaves the queue. -/
theorem Store.cycle_queued {s s₁ s₂ : Store} {w : ℕ} {x x' : Exec} {event : Event} {retry : ℤ} (hk : Keyed s.db)
    (h : s.Ready) (hf : x.fault = none) (hl : x.locked = [])
    (h₁ : s.step (.claim w Outbox.leaseDuration false, x) = some (s₁, .claimed (.ok (some event))))
    (h₂ : s₁.step (.finish w event true retry, x') = some (s₂, .finished (.ok true))) :
    ∃ c, s.db.queued = c :: s₂.db.queued ∧ event = ⟨c.id, c.key, c.version, c.attempts + 1⟩ ∧ Keyed s₂.db ∧
      s₂.Ready := by
  obtain ⟨c, rest, u, hq, rfl, hdb, hclock⟩ := claim_first h hf hl h₁
  have hk₁ : Keyed s₁.db := (step_effect hk h₁).2.2.2.keyed hk
  obtain ⟨hn, hn', hclock', hE⟩ := step_effect hk₁ h₂
  obtain ⟨r₀, hr₀, ha⟩ := hE.completionOf_row (c := (_, true)) rfl
  have hdb₂ : s₂.db = s₁.db.mapOutbox (.complete ⟨c.id, c.key, c.version, c.attempts + 1⟩ true retry x'.now x'.later) := by
    unfold step at h₂
    dsimp only at h₂
    split_ifs at h₂
    obtain ⟨rfl, hans⟩ := Prod.mk.inj (Option.some.inj h₂)
    rcases s₁.db.finish_spec ⟨c.id, c.key, c.version, c.attempts + 1⟩ true retry x' with ⟨-, hno⟩ | ⟨-, -, -, -, hdb'⟩
    · exact absurd (by simpa using hans) hno
    · exact hdb'
  rw [hdb] at hr₀ hdb₂
  obtain ⟨hq', hrows⟩ := queued_finish hk hq rfl hr₀ ha retry x'.later
  rw [← hdb₂] at hq' hrows
  refine ⟨c, by rw [hq, hq'], rfl, hE.keyed hk₁, fun r hr hd => ?_⟩
  obtain ⟨h1, h2⟩ := h r (hrows r hr hd) hd
  simp only at hn hn' hclock'
  rw [hclock']
  exact ⟨by omega, fun u hu => by have := h2 u hu; omega⟩

/-- What a purge keeps: all rows but those of one batch. -/
theorem Db.purge_outbox (db : Db) (retention : ℤ) (limit : ℕ) (x : Exec) :
    ((db.purgeDelivered retention limit x).2 = db ∧ ∃ e, (db.purgeDelivered retention limit x).1 = .error e) ∨
    (db.purgeDelivered retention limit x =
      (.ok (db.outbox.filter fun r => ((purgeBatch db retention limit x).map OutboxRow.id).contains r.id).length,
        { db with
          outbox := db.outbox.filter fun r => !((purgeBatch db retention limit x).map OutboxRow.id).contains r.id })) := by
  unfold purgeDelivered
  by_cases hg : retention < hour ∨ limit < 1 ∨ limit > 1000
  · rw [if_pos hg]
    exact Or.inl ⟨rfl, _, rfl⟩
  · rw [if_neg hg]
    cases hf : x.fault with
    | some n => exact Or.inl ⟨rfl, _, rfl⟩
    | none => exact Or.inr rfl

theorem mem_purgeBatch {db : Db} {retention : ℤ} {limit : ℕ} {x : Exec} {r : OutboxRow}
    (h : r ∈ purgeBatch db retention limit x) : r ∈ db.outbox ∧ purgeable x.now retention r = true := by
  have hb := List.mem_of_mem_take h
  rw [List.mem_insertionSort, List.mem_filter, Bool.and_eq_true] at hb
  exact ⟨hb.1, hb.2.1⟩

/-- A row goes with the batch that it is in, and with no other. -/
theorem Keyed.contains_batch {db : Db} (hk : Keyed db) {retention : ℤ} {limit : ℕ} {x : Exec} {r : OutboxRow}
    (hr : r ∈ db.outbox) : ((purgeBatch db retention limit x).map OutboxRow.id).contains r.id = true ↔
      r ∈ purgeBatch db retention limit x := by
  rw [List.contains_iff_mem, List.mem_map]
  constructor
  · rintro ⟨r', hr', hid⟩
    rwa [← hk.row_eq (mem_purgeBatch hr').1 hr hid]
  · exact fun h => ⟨r, h, rfl⟩

/-- A purge leaves the queue alone. -/
theorem Db.purge_queued {db : Db} (hk : Keyed db) (retention : ℤ) (limit : ℕ) (x : Exec) :
    (db.purgeDelivered retention limit x).2.queued = db.queued := by
  rcases db.purge_outbox retention limit x with ⟨h, -⟩ | h
  · rw [h]
  · rw [h]
    unfold Db.queued
    congr 1
    rw [List.filter_filter]
    refine List.filter_congr fun r hr => ?_
    -- a row of the batch is delivered
    cases hd : r.deliveredAt with
    | some t => rfl
    | none =>
      have hno : ¬ ((purgeBatch db retention limit x).map OutboxRow.id).contains r.id = true := by
        intro hc
        obtain ⟨t, ht, -⟩ := purgeable_iff.mp (mem_purgeBatch ((hk.contains_batch hr).mp hc)).2
        rw [hd] at ht
        simp at ht
      simpa using hno

/-- A purge of the store. -/
theorem Store.purge_queued {s s' : Store} {x : Exec} {retention : ℤ} {limit : ℕ} {r : Except Err ℕ} (hk : Keyed s.db)
    (h : s.Ready) (hst : s.step (.purge retention limit, x) = some (s', .purged r)) :
    s'.db.queued = s.db.queued ∧ Keyed s'.db ∧ s'.Ready := by
  obtain ⟨hn, hn', hclock, hE⟩ := step_effect hk hst
  unfold step at hst
  dsimp only at hst hn hn' hclock
  split_ifs at hst
  obtain ⟨rfl, -⟩ := Prod.mk.inj (Option.some.inj hst)
  refine ⟨Db.purge_queued hk retention limit x, hE.keyed hk, fun r hr hd => ?_⟩
  obtain ⟨h1, h2⟩ := h r ((s.db.purge_spec retention limit x).2.2.1.subset hr) hd
  exact ⟨by simp only; omega, fun u hu => by have := h2 u hu; simp only; omega⟩

/-! ### Purge rounds -/

/-- A filter does not see the elements that were dropped before and that it would drop itself. -/
theorem filter_of_sublist {α : Type*} {p : α → Bool} {l' l : List α} (h : l'.Sublist l) (hn : l.Nodup)
    (hp : ∀ a ∈ l, a ∉ l' → p a = false) : l'.filter p = l.filter p := by
  induction h with
  | slnil => rfl
  | @cons l' l a h ih =>
    obtain ⟨ha, hn⟩ := List.nodup_cons.mp hn
    have hdrop := hp a List.mem_cons_self fun hmem => ha (h.subset hmem)
    rw [List.filter_cons_of_neg (by simp [hdrop])]
    exact ih hn fun b hb hb' => hp b (List.mem_cons_of_mem _ hb) hb'
  | @cons_cons l' l a h ih =>
    obtain ⟨ha, hn⟩ := List.nodup_cons.mp hn
    have hrest := ih hn fun b hb hb' => hp b (List.mem_cons_of_mem _ hb) fun hmem =>
      (List.mem_cons.mp hmem).elim (fun he => ha (he ▸ hb)) hb'
    rw [List.filter_cons, List.filter_cons, hrest]

theorem Keyed.nodup_outbox {db : Db} (hk : Keyed db) : db.outbox.Nodup := hk.nodup.of_map

/-- The rows that a purge drops are its batch. -/
theorem Keyed.batch_perm {db : Db} (hk : Keyed db) (retention : ℤ) (limit : ℕ) (x : Exec) :
    (db.outbox.filter fun r => ((purgeBatch db retention limit x).map OutboxRow.id).contains r.id).Perm
      (purgeBatch db retention limit x) := by
  have hbatch : (purgeBatch db retention limit x).Nodup :=
    (((List.perm_insertionSort _ _).nodup_iff.mpr (hk.nodup_outbox.filter _))).sublist (List.take_sublist _ _)
  refine (List.perm_ext_iff_of_nodup (hk.nodup_outbox.filter _) hbatch).mpr fun r => ?_
  rw [List.mem_filter]
  constructor
  · rintro ⟨hr, hc⟩
    exact (hk.contains_batch hr).mp hc
  · intro hr
    exact ⟨(mem_purgeBatch hr).1, (hk.contains_batch (mem_purgeBatch hr).1).mpr hr⟩

/-- **A purge that does not fill its batch** drops every row past the retention. -/
theorem Db.purge_last {db : Db} (hk : Keyed db) {retention : ℤ} {limit n : ℕ} {x : Exec} (hl : x.locked = [])
    (h : (db.purgeDelivered retention limit x).1 = .ok n) (hn : n < limit) :
    (db.purgeDelivered retention limit x).2.outbox = db.outbox.filter fun r => !purgeable x.now retention r := by
  rcases db.purge_outbox retention limit x with ⟨-, e, he⟩ | heq
  · rw [he] at h
    simp at h
  · rw [heq] at h ⊢
    have hlen := (hk.batch_perm retention limit x).length_eq
    rw [Except.ok.inj h] at hlen
    -- the batch is all of them
    have hall : ∀ r ∈ db.outbox, purgeable x.now retention r = true → r ∈ purgeBatch db retention limit x := by
      intro r hr hp
      unfold purgeBatch at hlen ⊢
      rw [List.length_take] at hlen
      rw [List.take_of_length_le (by omega), List.mem_insertionSort, List.mem_filter]
      exact ⟨hr, by simp [hp, hl]⟩
    refine List.filter_congr fun r hr => ?_
    congr 1
    cases hp : purgeable x.now retention r with
    | true => exact (hk.contains_batch hr).mpr (hall r hr hp)
    | false =>
      refine Bool.eq_false_iff.mpr fun hc => ?_
      rw [(mem_purgeBatch ((hk.contains_batch hr).mp hc)).2] at hp
      simp at hp

/-- A purge drops as many rows as it says. -/
theorem Db.purge_length {db : Db} {retention : ℤ} {limit n : ℕ} {x : Exec}
    (h : (db.purgeDelivered retention limit x).1 = .ok n) :
    n + (db.purgeDelivered retention limit x).2.outbox.length = db.outbox.length := by
  rcases db.purge_outbox retention limit x with ⟨-, e, he⟩ | heq
  · rw [he] at h
    simp at h
  · rw [heq] at h ⊢
    rw [← Except.ok.inj h]
    exact (List.length_eq_length_filter_add _).symm

end SimpleCache.Postgres

namespace SimpleCache.Outbox

open Lib (Run Prog Loop)
open Lib.Loop (Serving Serves)
open Postgres (Store Exec OutboxRow Keyed oneMinute second hour)

/-! ### A healthy relay -/

/-- The store of a worker, the events that the worker has delivered, oldest first, and whether its last claim has found
nothing. -/
structure Relaying where
  store : Store
  delivered : List (ℤ × GoString × ℤ)
  idle : Bool

/-- The calls that are not answered by the queue or the sender. -/
def RunCall.outside : RunCall → Bool
  | ⟨.cycle (.observe _ _), _⟩ | ⟨.canceled, _⟩ | ⟨.now, _⟩ | ⟨.stats, _⟩ | ⟨.backlog _ _, _⟩ | ⟨.storage _ _, _⟩
  | ⟨.expired, _⟩ | ⟨.poll _, _⟩ => true
  | _ => false

/-- The store answers the worker `w` alone and without faults, and everything that is sent arrives before the lease
ends. -/
inductive Healthy (w : ℕ) : Relaying → RunCall → Relaying → Prop
  | claim {g : Relaying} {lease : ℤ} {x : Exec} {r : Option Event} {s : Store} : x.fault = none → x.locked = [] →
      g.store.step (.claim w lease false, x) = some (s, .claimed (.ok r)) →
      Healthy w g ⟨.cycle (.claim lease), .ok r⟩ ⟨s, g.delivered, r.isNone⟩
  | send {g : Relaying} {event : Event} : Healthy w g ⟨.cycle (.send event), none⟩ g
  | finish {g : Relaying} {event : Event} {retry : ℤ} {x : Exec} {s : Store} :
      g.store.step (.finish w event true retry, x) = some (s, .finished (.ok true)) →
      Healthy w g ⟨.cycle (.finish event true retry), .ok true⟩
        ⟨s, g.delivered ++ [(event.id, event.key, event.version)], g.idle⟩
  | purge {g : Relaying} {retention : ℤ} {limit : ℕ} {x : Exec} {r : Except Err ℕ} {s : Store} :
      g.store.step (.purge retention limit, x) = some (s, .purged r) →
      Healthy w g ⟨.purge retention limit, r⟩ ⟨s, g.delivered, g.idle⟩
  | outside {g : Relaying} {x : RunCall} : x.outside = true → Healthy w g x g

/-- What a row is to its receivers. -/
def token (r : OutboxRow) : ℤ × GoString × ℤ := (r.id, r.key, r.version)

/-- What was to be delivered is what is delivered and what waits. -/
structure Draining (all : List (ℤ × GoString × ℤ)) (g : Relaying) : Prop where
  keyed : Keyed g.store.db
  ready : g.store.Ready
  order : g.delivered ++ g.store.db.queued.map token = all
  idle : g.idle = true → g.store.db.queued = []

section Worker

variable {w : ℕ} {all : List (ℤ × GoString × ℤ)} {g g' : Relaying}

/-- A call outside the queue. -/
theorem Healthy.same {x : RunCall} (h : Healthy w g x g') (hx : x.outside = true) : g' = g := by
  cases h with
  | outside _ => rfl
  | claim _ _ _ => simp [RunCall.outside] at hx
  | send => rfl
  | finish _ => simp [RunCall.outside] at hx
  | purge _ => simp [RunCall.outside] at hx

theorem serves_outside {α : Type} {r : RunRequest} {k : r.Reply → Relay α} {Q : α → Relaying → Prop}
    (hx : ∀ a, RunCall.outside ⟨r, a⟩ = true) (h : ∀ a, Serves (Healthy w) Q (k a) g) :
    Serves (Healthy w) Q (ask r >>= k) g := by
  intro a g' hs
  rw [hs.same (hx a)]
  exact h a

theorem serves_maintained (hD : Draining all g) :
    Serves (Healthy w) (fun _ g => Draining all g) Worker.maintained g :=
  serves_outside (fun _ => rfl) fun _ => hD

theorem serves_reportStats (hD : Draining all g) :
    Serves (Healthy w) (fun _ g => Draining all g) Worker.reportStats g := by
  refine serves_outside (fun _ => rfl) fun stats => ?_
  cases stats with
  | error e => exact serves_outside (k := Prog.pure) (fun _ => rfl) fun _ => hD
  | ok stats =>
    exact serves_outside (fun _ => rfl) fun _ => serves_outside (k := Prog.pure) (fun _ => rfl) fun _ => hD

theorem serves_purgeRound (hD : Draining all g) :
    Serves (Healthy w) (fun _ g => Draining all g) Worker.purgeRound g := by
  refine serves_outside (fun _ => rfl) fun expired => ?_
  cases expired with
  | true => exact hD
  | false =>
    intro r g' hs
    have hD' : Draining all g' := by
      cases hs with
      | purge hst =>
        obtain ⟨hq, hk, hr⟩ := Store.purge_queued hD.keyed hD.ready hst
        exact ⟨hk, hr, by rw [hq]; exact hD.order, fun hi => by rw [hq]; exact hD.idle hi⟩
      | outside hx => exact hD
    cases r with
    | error e => exact serves_outside (fun _ => rfl) fun _ => hD'
    | ok removed => exact serves_outside (fun _ => rfl) fun _ => hD'

theorem serves_step (hD : Draining all g) :
    Serves (Healthy w) (fun _ g => Draining all g) (Worker.step.embed .cycle fun _ r => r : Relay (Bool × Option Err))
      g := by
  intro claimed g₁ hs
  cases hs with
  | outside hx => simp [RunCall.outside] at hx
  | @claim _ x r s hf hl hst =>
    cases r with
    | none =>
      obtain ⟨hq, hdb, hclock⟩ := Store.claim_idle hD.ready hf hl hst
      refine ⟨by rw [hdb]; exact hD.keyed, fun r hr hd => ?_, by rw [hdb]; exact hD.order, fun _ => by rw [hdb]; exact hq⟩
      rw [hdb] at hr
      obtain ⟨h1, h2⟩ := hD.ready r hr hd
      exact ⟨h1.trans hclock, fun u hu => (h2 u hu).trans hclock⟩
    | some event =>
      refine serves_outside (r := .cycle (.observe "claim" "ok")) (fun _ => rfl) fun _ => ?_
      intro err g₂ hs₂
      cases hs₂ with
      | outside hx => simp [RunCall.outside] at hx
      | send =>
        intro finished g₃ hs₃
        cases hs₃ with
        | outside hx => simp [RunCall.outside] at hx
        | finish hst' =>
          refine serves_outside (r := .cycle (.observe "finish" _)) (fun _ => rfl) fun _ => ?_
          obtain ⟨c, hq, rfl, hk, hr⟩ := Store.cycle_queued hD.keyed hD.ready hf hl hst hst'
          refine ⟨hk, hr, ?_, fun hi => by simp at hi⟩
          have horder := hD.order
          rw [hq, List.map_cons] at horder
          rw [← horder, List.append_assoc]
          rfl

theorem serves_run (head : Head) (hD : Draining all g) :
    Serves (Healthy w) (fun _ g => Draining all g) (Worker.run head) g := by
  cases head with
  | check next =>
    refine serves_outside (fun _ => rfl) fun canceled => ?_
    cases canceled with
    | true => exact hD
    | false =>
      refine serves_outside (fun _ => rfl) fun now => ?_
      show Serves _ _ (if next.all (· < now) = true then _ else _) g
      split_ifs
      · exact Lib.Loop.serves_bind (serves_reportStats hD)
      · exact hD
  | purging =>
    refine Lib.Loop.serves_bind (Lib.Loop.serves_mono (fun again g hD => ?_) (serves_purgeRound hD))
    cases again with
    | true => exact hD
    | false => exact serves_maintained hD
  | cycle next =>
    refine Lib.Loop.serves_bind (Lib.Loop.serves_mono (fun result g hD => ?_) (serves_step hD))
    refine serves_outside (fun _ => rfl) fun canceled => ?_
    cases canceled with
    | true => exact hD
    | false =>
      show Serves _ _ (if (result.1 && result.2.isNone) = true then _ else _) g
      split_ifs
      · exact hD
      · refine serves_outside (fun _ => rfl) fun stop => ?_
        cases stop with
        | true => exact hD
        | false => exact hD

end Worker

/-- **A healthy worker drains the queue in order.**  After any history of the store and a minute in which nobody called
it, let one worker run alone, with sendings that arrive.  Whenever it comes back to the head of its loop, the events it
has delivered and those that still wait, in the order of `Claim`, are together the events that waited at the start, in
that order; and when a claim has found nothing, all of them are delivered. -/
theorem drains_in_order {clock : ℤ} {tr : List Postgres.StoreEvent} {s₁ s₀ : Store} {x : Exec}
    (h : Run Store.step (.init clock) tr s₁) (hrest : s₁.step (.advance, x) = some (s₀, .done))
    (hlong : s₁.clock + oneMinute ≤ x.later) {w : ℕ} {head : Head} {g : Relaying}
    (hrun : Relation.ReflTransGen (Serving Worker.run (Healthy w)) (Loop.start Worker.run (.check none), ⟨s₀, [], false⟩)
      (.running (.pure (some head)), g)) :
    g.delivered ++ g.store.db.queued.map token = s₀.db.queued.map token ∧
    (g.idle = true → g.store.db.queued = [] ∧ g.delivered = s₀.db.queued.map token) := by
  have hI := Postgres.leaseInv_run h
  have hT := Postgres.timeInv_run h
  have hdb : s₀.db = s₁.db ∧ s₀.clock = x.later := by
    unfold Store.step at hrest
    dsimp only at hrest
    split_ifs at hrest
    obtain ⟨rfl, -⟩ := Prod.mk.inj (Option.some.inj hrest)
    exact ⟨rfl, rfl⟩
  have hD : Draining (s₀.db.queued.map token) ⟨s₀, [], false⟩ := by
    refine ⟨by rw [hdb.1]; exact hI.keyed, fun r hr hd => ?_, rfl, by simp⟩
    rw [hdb.1] at hr
    obtain ⟨h1, h2⟩ := hT r hr hd
    rw [hdb.2]
    exact ⟨h1.trans hlong, fun u hu => (h2 u hu).trans hlong⟩
  have hend := (Serving.heads (I := fun _ g => Draining (s₀.db.queued.map token) g)
    (D := fun g => Draining (s₀.db.queued.map token) g) hD (fun head g hD => Lib.Loop.serves_mono
      (fun r g h => by cases r <;> exact h) (serves_run head hD)) hrun).1 head rfl
  refine ⟨hend.order, fun hidle => ?_⟩
  have hq := hend.idle hidle
  have horder := hend.order
  rw [hq, List.map_nil, List.append_nil] at horder
  exact ⟨hq, horder⟩

/-- A store with one event, and a minute later. -/
def waiting : Store := ((Lib.exec Store.step (.init 0) [(.mutate (.put [107] [118]) false, instant 0)]).get rfl).1

def rested : Store := { waiting with clock := oneMinute }

/-- The store after the event was claimed, and after it was delivered. -/
def claimedOne : Store := ((rested.step (.claim 0 leaseDuration false, instant oneMinute)).get rfl).1

def deliveredOne : Store :=
  ((claimedOne.step (.finish 0 ⟨1, [107], 1, 1⟩ true (retryDelay 1), instant oneMinute)).get rfl).1

/-- Maintenance and one cycle of the worker. -/
theorem oneCycle : ∃ head, Relation.ReflTransGen (Serving Worker.run (Healthy 0))
    (Loop.start Worker.run (.check none), ⟨rested, [], false⟩)
    (.running (.pure (some head)), ⟨deliveredOne, [(1, [107], 1)], false⟩) := by
  refine ⟨.check (some (0 + maintenanceInterval)), ?_⟩
  refine .head (.called (r := false) (.outside rfl)) ?_
  refine .head (.called (r := 0) (.outside rfl)) ?_
  refine .head (.called (r := .error .canceled) (.outside rfl)) ?_
  refine .head (.called (r := ()) (.outside rfl)) (.head .back ?_)
  refine .head (.called (r := true) (.outside rfl)) ?_
  refine .head (.called (r := 0) (.outside rfl)) (.head .back ?_)
  refine .head (.called (r := .ok (some ⟨1, [107], 1, 1⟩)) (.claim (x := instant oneMinute) rfl rfl rfl)) ?_
  refine .head (.called (r := ()) (.outside rfl)) ?_
  refine .head (.called (r := none) .send) ?_
  refine .head (.called (r := .ok true) (.finish (x := instant oneMinute) rfl)) ?_
  refine .head (.called (r := ()) (.outside rfl)) ?_
  exact .head (.called (r := false) (.outside rfl)) .refl

/-- The one event that waited is delivered after one cycle. -/
theorem drains_in_order_one : ∃ tr, Run Store.step (.init 0) tr waiting ∧ rested.db.queued.length = 1 ∧
    deliveredOne.db.queued = [] ∧ [((1 : ℤ), [107], (1 : ℤ))] = rested.db.queued.map token := by
  have hrun : Run Store.step (.init 0) _ waiting :=
    Lib.exec_run Store.step [(.mutate (.put [107] [118]) false, instant 0)] (.init 0) _ _ rfl
  obtain ⟨head, hloop⟩ := oneCycle
  have hall := (drains_in_order (x := ⟨0, oneMinute, none, none, []⟩) hrun rfl (by decide) hloop).1
  have hempty : deliveredOne.db.queued = [] := rfl
  rw [hempty] at hall
  exact ⟨_, hrun, rfl, hempty, hall⟩

/-! ### The purge rounds of a maintenance -/

/-- The purge loop of `Worker.maintain` on its own. -/
def Worker.purge (_ : Unit) : Relay (Option Unit) := do
  if ← Worker.purgeRound then return some ()
  return none

/-- The store during the rounds, the rounds that have filled their batch, and the time of a round that has not. -/
structure Purging where
  store : Store
  full : ℕ
  last : Option ℤ

def Purging.answered (g : Purging) (s : Store) (x : Exec) : Except Err ℕ → Purging
  | .error _ => ⟨s, g.full, g.last⟩
  | .ok n => if n < purgeLimit then ⟨s, g.full, some x.now⟩ else ⟨s, g.full + 1, g.last⟩

/-- The store answers the rounds alone, with no rows locked by others; its statements may fail. -/
inductive Alone : Purging → RunCall → Purging → Prop
  | purge {g : Purging} {x : Exec} {r : Except Err ℕ} {s : Store} : x.locked = [] →
      g.store.step (.purge retention purgeLimit, x) = some (s, .purged r) →
      Alone g ⟨.purge retention purgeLimit, r⟩ (g.answered s x r)
  | outside {g : Purging} {x : RunCall} : x.outside = true → Alone g x g

/-- What is left of the rows. -/
structure Swept (rows : List OutboxRow) (g : Purging) : Prop where
  keyed : Keyed g.store.db
  left : g.store.db.outbox.Sublist rows
  dropped : ∀ r ∈ rows, r ∉ g.store.db.outbox → Postgres.purgeable g.store.clock retention r = true
  full : g.full * purgeLimit + g.store.db.outbox.length ≤ rows.length
  last : ∀ t, g.last = some t → g.store.db.outbox = rows.filter fun r => !Postgres.purgeable t retention r

theorem purgeable_mono {now now' d : ℤ} {r : OutboxRow} (h : now ≤ now') (hp : Postgres.purgeable now d r = true) :
    Postgres.purgeable now' d r = true := by
  obtain ⟨t, ht, hlt⟩ := Postgres.purgeable_iff.mp hp
  exact Postgres.purgeable_iff.mpr ⟨t, ht, by omega⟩

/-- **One round.** -/
theorem Swept.round {rows : List OutboxRow} {g : Purging} (hS : Swept rows g) (hn : rows.Nodup) (hlast : g.last = none)
    {x : Exec} {r : Except Err ℕ} {s : Store} (hl : x.locked = [])
    (hst : g.store.step (.purge retention purgeLimit, x) = some (s, .purged r)) :
    Swept rows (g.answered s x r) ∧ ((g.answered s x r).last = none ∨ ∃ n, r = .ok n ∧ n < purgeLimit) := by
  obtain ⟨h1, h2, h3, hE⟩ := Store.step_effect hS.keyed hst
  have hk := hE.keyed hS.keyed
  unfold Store.step at hst
  dsimp only at hst h1 h2 h3
  split_ifs at hst
  obtain ⟨hs, hr⟩ := Prod.mk.inj (Option.some.inj hst)
  have hdb : s.db = (g.store.db.purgeDelivered retention purgeLimit x).2 := by rw [← hs]
  have hr : (g.store.db.purgeDelivered retention purgeLimit x).1 = r := by simpa using hr
  obtain ⟨-, -, hsub, hdrop⟩ := g.store.db.purge_spec retention purgeLimit x
  rw [← hdb] at hsub hdrop
  have hleft : s.db.outbox.Sublist rows := hsub.trans hS.left
  -- a dropped row was dropped before, or is past the retention now
  have hdropped : ∀ r ∈ rows, r ∉ s.db.outbox → Postgres.purgeable s.clock retention r = true := by
    intro r hr hno
    by_cases hold : r ∈ g.store.db.outbox
    · obtain ⟨r', hr', hid, hp⟩ := hdrop r hold hno
      rw [hS.keyed.row_eq hr' hold hid] at hp
      exact purgeable_mono (by omega) hp
    · exact purgeable_mono (by omega) (hS.dropped r hr hold)
  cases r with
  | error e =>
    have hsame : s.db.outbox.length ≤ g.store.db.outbox.length := hsub.length_le
    refine ⟨⟨hk, hleft, hdropped, ?_, fun t ht => ?_⟩, Or.inl hlast⟩
    · have := hS.full
      simp only [Purging.answered]
      omega
    · simp only [Purging.answered, hlast] at ht
      simp at ht
  | ok n =>
    have hlen := Postgres.Db.purge_length hr
    rw [← hdb] at hlen
    have hfull := hS.full
    simp only [Purging.answered]
    split_ifs with hlt
    · refine ⟨⟨hk, hleft, hdropped, by simp only; omega, fun t ht => ?_⟩, Or.inr ⟨n, rfl, hlt⟩⟩
      obtain rfl := Option.some.inj ht
      show s.db.outbox = _
      rw [hdb, Postgres.Db.purge_last hS.keyed hl hr hlt]
      refine Postgres.filter_of_sublist hS.left hn fun r hr hno => ?_
      rw [purgeable_mono h1 (hS.dropped r hr hno)]
      rfl
    · refine ⟨⟨hk, hleft, hdropped, ?_, fun t ht => ?_⟩, Or.inl hlast⟩
      · simp only [Nat.add_mul]
        omega
      · simp only [hlast] at ht
        simp at ht

theorem Alone.same {g g' : Purging} {x : RunCall} (h : Alone g x g') (hx : x.outside = true) : g' = g := by
  cases h with
  | outside _ => rfl
  | purge _ _ => simp [RunCall.outside] at hx

/-- **Purging in rounds is purging at once.**  After any history of the store, let the purge loop of a maintenance run
alone.  At every point at which it starts another round or has ended, only delivered rows past the retention are gone,
and a thousand of them for every full round, so that there are at most as many full rounds as the table has thousands of
rows.  And if the loop has ended with a round that was not full, what is left is what one unbounded DELETE at the time of
that round would have left. -/
theorem purge_rounds {clock : ℤ} {tr : List Postgres.StoreEvent} {s₀ : Store} (h : Run Store.step (.init clock) tr s₀)
    {l : Loop Unit RunRequest RunRequest.Reply} {g : Purging}
    (hrun : Relation.ReflTransGen (Serving Worker.purge Alone) (Loop.start Worker.purge (), ⟨s₀, 0, none⟩) (l, g))
    (hl : l = .running (.pure (some ())) ∨ l = .returned) :
    (∀ r ∈ s₀.db.outbox, r ∉ g.store.db.outbox → Postgres.purgeable g.store.clock retention r = true) ∧
    g.full * purgeLimit + g.store.db.outbox.length ≤ s₀.db.outbox.length ∧
    ∀ t, g.last = some t →
      g.store.db.outbox = s₀.db.outbox.filter fun r => !Postgres.purgeable t retention r := by
  have hk := (Postgres.leaseInv_run h).keyed
  have hn := hk.nodup_outbox
  have hS : Swept s₀.db.outbox ⟨s₀, 0, none⟩ :=
    ⟨hk, List.Sublist.refl _, fun r hr hno => absurd hr hno, by simp, by simp⟩
  have hends := Serving.heads (I := fun _ g => Swept s₀.db.outbox g ∧ g.last = none) (D := Swept s₀.db.outbox)
    ⟨hS, rfl⟩ (fun _ g ⟨hS, hlast⟩ => ?_) hrun
  · have hend : Swept s₀.db.outbox g := hl.elim (fun hl => (hends.1 () hl).1) hends.2
    exact ⟨hend.dropped, hend.full, hend.last⟩
  · intro expired g₁ hs₁
    rw [hs₁.same rfl]
    cases expired with
    | true => exact hS
    | false =>
      intro purged g₂ hs₂
      cases hs₂ with
      | outside hx => simp [RunCall.outside] at hx
      | purge hlock hst =>
        obtain ⟨hS₂, hlast₂⟩ := hS.round hn hlast hlock hst
        cases purged with
        | error e =>
          intro u g₃ hs₃
          rw [hs₃.same rfl]
          exact hS₂
        | ok removed =>
          intro u g₃ hs₃
          rw [hs₃.same rfl]
          show Serves _ _ (if decide (purgeLimit ≤ removed) = true then _ else _) _
          split_ifs with hfull
          · refine ⟨hS₂, hlast₂.resolve_right ?_⟩
            rintro ⟨n, hr, hlt⟩
            obtain rfl := Except.ok.inj hr
            exact absurd (of_decide_eq_true hfull) (by omega)
          · exact hS₂

/-- An event that was delivered at the start, and the table eight days later. -/
def oldEvent : List (Postgres.Call × Exec) :=
  [(.mutate (.put [107] [118]) false, instant 0), (.claim 0 leaseDuration false, instant 0),
   (.finish 0 ⟨1, [107], 1, 1⟩ true second, instant 0)]

def eightDays : ℤ := Postgres.interval (8 * 24 * hour)

def oldStore : Store := ((Lib.exec Store.step (.init 0) oldEvent).get rfl).1

def purgedStore : Store := ((oldStore.step (.purge retention purgeLimit, instant eightDays)).get rfl).1

theorem oneRound : Relation.ReflTransGen (Serving Worker.purge Alone) (Loop.start Worker.purge (), ⟨oldStore, 0, none⟩)
    (.returned, ⟨purgedStore, 0, some eightDays⟩) := by
  refine .head (.called (r := false) (.outside rfl)) ?_
  refine .head (.called (r := .ok 1) (.purge (x := instant eightDays) rfl rfl)) ?_
  refine .head (.called (r := ()) (.outside rfl)) ?_
  exact .head .ended .refl

/-- The old event is gone after one round. -/
theorem purge_rounds_one : ∃ tr, Run Store.step (.init 0) tr oldStore ∧ oldStore.db.outbox.length = 1 ∧
    purgedStore.db.outbox = oldStore.db.outbox.filter (fun r => !Postgres.purgeable eightDays retention r) ∧
    purgedStore.db.outbox = [] := by
  have hrun : Run Store.step (.init 0) _ oldStore := Lib.exec_run Store.step oldEvent (.init 0) _ _ rfl
  exact ⟨_, hrun, rfl, (purge_rounds hrun oneRound (Or.inr rfl)).2.2 eightDays rfl, rfl⟩

end SimpleCache.Outbox
