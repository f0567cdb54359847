import SimpleCache.Postgres.Store

/-!
# Postgres.Lease — the lease protocol of the outbox over whole runs

`attempts` of a row is the newest token handed out for it, and `leased_until` is the end of that token's
lease (`LeaseInv.leased`).  A finish compares both, so it can only be accepted with the newest token and
before the lease ends (`lease_fencing`).

`TimeInv` bounds both timestamps of a pending row by one minute from now, whatever the workers did
(`no_event_lost`).
-/

namespace SimpleCache.Postgres

open Outbox (Event)
open SimpleCache.Lib

/-! ### Rows under the UPDATEs -/

namespace OutboxRow

@[simp] theorem lease_id (i u : ℤ) (r : OutboxRow) : (lease i u r).id = r.id := by
  unfold lease; split <;> rfl

theorem lease_of_ne {i u : ℤ} {r : OutboxRow} (h : r.id ≠ i) : lease i u r = r := by
  rw [lease, if_neg h]

theorem lease_of_eq {i u : ℤ} {r : OutboxRow} (h : r.id = i) :
    lease i u r = { r with attempts := r.attempts + 1, leasedUntil := some u } := by
  rw [lease, if_pos h]

variable (event : Event) (delivered : Bool) (retry now later : ℤ)

@[simp] theorem complete_id (r : OutboxRow) : (complete event delivered retry now later r).id = r.id := by
  unfold complete; split <;> rfl

variable {event delivered retry now later}

theorem complete_of_not {r : OutboxRow} (h : accepts now event r = false) :
    complete event delivered retry now later r = r := by
  rw [complete, h]; rfl

theorem complete_of {r : OutboxRow} (h : accepts now event r = true) :
    complete event delivered retry now later r =
      { r with
        deliveredAt := if delivered then some later else none
        availableAt := if delivered then r.availableAt else later + interval retry
        leasedUntil := none } := by
  rw [complete, if_pos h]

end OutboxRow

theorem mem_mapOutbox {db : Db} {f : OutboxRow → OutboxRow} {r' : OutboxRow} :
    r' ∈ (db.mapOutbox f).outbox ↔ ∃ r ∈ db.outbox, f r = r' := List.mem_map

theorem Keyed.mapOutbox {db : Db} (h : Keyed db) {f : OutboxRow → OutboxRow} (hf : ∀ r, (f r).id = r.id) :
    Keyed (db.mapOutbox f) := by
  refine ⟨?_, fun r' hr' => ?_⟩
  · have : (OutboxRow.id ∘ f) = OutboxRow.id := funext hf
    simpa [Db.mapOutbox, this] using h.nodup
  · obtain ⟨r, hr, rfl⟩ := mem_mapOutbox.mp hr'
    rw [hf]
    exact h.lt_next r hr

/-- The primary key survives every effect. -/
theorem Effect.keyed {db db' : Db} {e : StoreEvent} (hk : Keyed db) (h : Effect db e db') : Keyed db' := by
  cases h with
  | quiet h1 h2 _ _ =>
    exact ⟨by rw [h1]; exact hk.nodup, fun r hr => lt_of_lt_of_le (hk.lt_next r (h1 ▸ hr)) h2⟩
  | insert key v h1 h2 _ _ =>
    refine ⟨?_, fun r hr => ?_⟩
    · rw [h1, List.map_append, List.nodup_append]
      refine ⟨hk.nodup, by simp, fun i hi j hj => ?_⟩
      obtain ⟨r, hr, rfl⟩ := List.mem_map.mp hi
      simp only [List.map_cons, List.map_nil, List.mem_singleton] at hj
      have := hk.lt_next r hr
      omega
    · rw [h1, List.mem_append, List.mem_singleton] at hr
      rcases hr with hr | rfl
      · have := hk.lt_next r hr; omega
      · simp only [h2]; omega
  | lease c d _ _ _ _ h1 _ _ => rw [h1]; exact hk.mapOutbox (fun r => by simp)
  | complete event delivered retry r _ _ _ _ _ h1 _ _ => rw [h1]; exact hk.mapOutbox (fun r => by simp)
  | purge retention h1 h2 _ _ _ =>
    exact ⟨hk.nodup.sublist (h1.map _), fun r hr => h2 ▸ hk.lt_next r (h1.subset hr)⟩

theorem Effect.nextId_le {db db' : Db} {e : StoreEvent} (h : Effect db e db') : db.nextId ≤ db'.nextId := by
  cases h with
  | quiet _ h _ _ => exact h
  | insert _ _ _ h _ _ => omega
  | lease c d _ _ _ _ h _ _ => rw [h]; exact le_rfl
  | complete event delivered retry r _ _ _ _ _ h _ _ => rw [h]; exact le_rfl
  | purge _ _ h _ _ _ => omega

/-! ### One row across one step -/

/-- What one event does to one row that stays in the table. -/
inductive RowStep (e : StoreEvent) (r r' : OutboxRow) : Prop
  /-- The row is not touched: no token of it is handed out and none is accepted. -/
  | same : r' = r → (∀ l, leaseOf e = some l → l.id ≠ r.id) →
      (∀ c, completionOf e = some c → c.1.id ≠ r.id) → RowStep e r r'
  | lease (d : ℤ) : eligible e.1.2.now r = true → 0 < d → d ≤ minute →
      leaseOf e = some ⟨r.id, r.attempts + 1, e.1.2.later + interval d⟩ → completionOf e = none →
      r' = { r with attempts := r.attempts + 1, leasedUntil := some (e.1.2.later + interval d) } →
      RowStep e r r'
  | complete (event : Event) (delivered : Bool) (retry : ℤ) : accepts e.1.2.now event r = true →
      0 ≤ retry → retry ≤ minute → leaseOf e = none → completionOf e = some (event, delivered) →
      r' = { r with
        deliveredAt := if delivered then some e.1.2.later else none
        availableAt := if delivered then r.availableAt else e.1.2.later + interval retry
        leasedUntil := none } →
      RowStep e r r'

theorem RowStep.id_eq {e : StoreEvent} {r r' : OutboxRow} (h : RowStep e r r') :
    r'.id = r.id ∧ r'.key = r.key ∧ r'.version = r.version := by
  cases h with
  | same h _ _ => rw [h]; exact ⟨rfl, rfl, rfl⟩
  | lease d _ _ _ _ _ h => rw [h]; exact ⟨rfl, rfl, rfl⟩
  | complete event delivered retry _ _ _ _ _ h => rw [h]; exact ⟨rfl, rfl, rfl⟩

theorem RowStep.attempts_le {e : StoreEvent} {r r' : OutboxRow} (h : RowStep e r r') :
    r.attempts ≤ r'.attempts := by
  cases h with
  | same h _ _ => rw [h]
  | lease d _ _ _ _ _ h => rw [h]; simp
  | complete event delivered retry _ _ _ _ _ h => rw [h]

/-- A delivered row is never touched again. -/
theorem RowStep.delivered {e : StoreEvent} {r r' : OutboxRow} (h : RowStep e r r') {t : ℤ}
    (hd : r.deliveredAt = some t) : r' = r ∧ ∀ l, leaseOf e = some l → l.id ≠ r.id := by
  cases h with
  | same h h1 _ => exact ⟨h, h1⟩
  | lease d he _ _ _ _ _ => rw [(eligible_iff.mp he).1] at hd; simp at hd
  | complete event delivered retry ha _ _ _ _ _ => rw [(accepts_iff.mp ha).2.2.1] at hd; simp at hd

theorem rowStep_lease {db : Db} {e : StoreEvent} (hk : Keyed db) {c r : OutboxRow} {d : ℤ}
    (hc : c ∈ db.outbox) (he : eligible e.1.2.now c = true) (h0 : 0 < d) (hd : d ≤ minute)
    (hl : leaseOf e = some ⟨c.id, c.attempts + 1, e.1.2.later + interval d⟩)
    (hn : completionOf e = none) (hr : r ∈ db.outbox) :
    RowStep e r (.lease c.id (e.1.2.later + interval d) r) := by
  by_cases hid : r.id = c.id
  · have hrc := hk.row_eq hr hc hid
    subst hrc
    exact .lease d he h0 hd hl hn (OutboxRow.lease_of_eq rfl)
  · refine .same (OutboxRow.lease_of_ne hid) (fun l hl' => ?_) (by simp [hn])
    rw [hl, Option.some.injEq] at hl'
    rw [← hl']
    exact fun h => hid h.symm

theorem rowStep_complete {db : Db} {e : StoreEvent} (hk : Keyed db) {event : Event} {delivered : Bool}
    {retry : ℤ} {r₀ r : OutboxRow} (hr₀ : r₀ ∈ db.outbox) (ha : accepts e.1.2.now event r₀ = true)
    (h0 : 0 ≤ retry) (h1 : retry ≤ minute) (hl : leaseOf e = none)
    (hc : completionOf e = some (event, delivered)) (hr : r ∈ db.outbox) :
    RowStep e r (.complete event delivered retry e.1.2.now e.1.2.later r) := by
  cases har : accepts e.1.2.now event r with
  | true => exact .complete event delivered retry har h0 h1 hl hc (OutboxRow.complete_of har)
  | false =>
    refine .same (OutboxRow.complete_of_not har) (by simp [hl]) (fun c hc' => ?_)
    rw [hc, Option.some.injEq] at hc'
    rw [← hc']
    intro hid
    have hrr := hk.row_eq hr hr₀ (hid.symm.trans (accepts_iff.mp ha).1.symm)
    rw [hrr, ha] at har
    exact absurd har (by simp)

/-- Every row after a step is the inserted one or comes from a row before it. -/
theorem Effect.row_back {db db' : Db} {e : StoreEvent} (hk : Keyed db) (h : Effect db e db')
    {r' : OutboxRow} (hr' : r' ∈ db'.outbox) :
    (∃ r ∈ db.outbox, RowStep e r r') ∨
    (leaseOf e = none ∧ completionOf e = none ∧
      ∃ key v, r' = ⟨db.nextId, key, v, e.1.2.now, none, 0, none⟩) := by
  cases h with
  | quiet h1 _ hl hc => exact Or.inl ⟨r', h1 ▸ hr', .same rfl (by simp [hl]) (by simp [hc])⟩
  | insert key v h1 _ hl hc =>
    rw [h1, List.mem_append, List.mem_singleton] at hr'
    rcases hr' with hr' | hr'
    · exact Or.inl ⟨r', hr', .same rfl (by simp [hl]) (by simp [hc])⟩
    · exact Or.inr ⟨hl, hc, key, v, hr'⟩
  | lease c d hc he h0 hd h1 hl hn =>
    rw [h1] at hr'
    obtain ⟨r, hr, rfl⟩ := mem_mapOutbox.mp hr'
    exact Or.inl ⟨r, hr, rowStep_lease hk hc he h0 hd hl hn hr⟩
  | complete event delivered retry r₀ hr₀ ha _ h0 h1 h2 hl hc =>
    rw [h2] at hr'
    obtain ⟨r, hr, rfl⟩ := mem_mapOutbox.mp hr'
    exact Or.inl ⟨r, hr, rowStep_complete hk hr₀ ha h0 h1 hl hc hr⟩
  | purge retention h1 _ _ hl hc =>
    exact Or.inl ⟨r', h1.subset hr', .same rfl (by simp [hl]) (by simp [hc])⟩

/-- Every row before a step is purged by it or goes on to a row after it. -/
theorem Effect.row_forth {db db' : Db} {e : StoreEvent} (hk : Keyed db) (h : Effect db e db')
    {r : OutboxRow} (hr : r ∈ db.outbox) :
    (∃ r' ∈ db'.outbox, RowStep e r r') ∨
    ∃ retention, purgeable e.1.2.now retention r = true := by
  cases h with
  | quiet h1 _ hl hc => exact Or.inl ⟨r, h1 ▸ hr, .same rfl (by simp [hl]) (by simp [hc])⟩
  | insert key v h1 _ hl hc =>
    exact Or.inl ⟨r, by rw [h1]; exact List.mem_append_left _ hr, .same rfl (by simp [hl]) (by simp [hc])⟩
  | lease c d hc he h0 hd h1 hl hn =>
    exact Or.inl ⟨_, by rw [h1]; exact mem_mapOutbox.mpr ⟨r, hr, rfl⟩,
      rowStep_lease hk hc he h0 hd hl hn hr⟩
  | complete event delivered retry r₀ hr₀ ha _ h0 h1 h2 hl hc =>
    exact Or.inl ⟨_, by rw [h2]; exact mem_mapOutbox.mpr ⟨r, hr, rfl⟩,
      rowStep_complete hk hr₀ ha h0 h1 hl hc hr⟩
  | purge retention h1 _ h3 hl hc =>
    by_cases hr' : r ∈ db'.outbox
    · exact Or.inl ⟨r, hr', .same rfl (by simp [hl]) (by simp [hc])⟩
    · exact Or.inr ⟨retention, h3 r hr hr'⟩

theorem Effect.leaseOf_row {db db' : Db} {e : StoreEvent} (h : Effect db e db') {l : Lease}
    (hl : leaseOf e = some l) :
    ∃ c ∈ db.outbox, eligible e.1.2.now c = true ∧ l.id = c.id ∧ l.attempt = c.attempts + 1 := by
  cases h with
  | quiet _ _ h _ => rw [h] at hl; simp at hl
  | insert _ _ _ _ h _ => rw [h] at hl; simp at hl
  | lease c d hc he _ _ _ h _ =>
    rw [h, Option.some.injEq] at hl
    exact ⟨c, hc, he, by rw [← hl], by rw [← hl]⟩
  | complete _ _ _ _ _ _ _ _ _ _ h _ => rw [h] at hl; simp at hl
  | purge _ _ _ _ h _ => rw [h] at hl; simp at hl

theorem Effect.completionOf_row {db db' : Db} {e : StoreEvent} (h : Effect db e db') {c : Event × Bool}
    (hc : completionOf e = some c) : ∃ r ∈ db.outbox, accepts e.1.2.now c.1 r = true := by
  cases h with
  | quiet _ _ _ h => rw [h] at hc; simp at hc
  | insert _ _ _ _ _ h => rw [h] at hc; simp at hc
  | lease _ _ _ _ _ _ _ _ h => rw [h] at hc; simp at hc
  | complete event delivered retry r hr ha _ _ _ _ _ h =>
    rw [h, Option.some.injEq] at hc
    exact ⟨r, hr, by rw [← hc]; exact ha⟩
  | purge _ _ _ _ _ h => rw [h] at hc; simp at hc

/-! ### The lease invariant -/

/-- How the rows and the tokens handed out so far hang together. -/
structure LeaseInv (tr : List StoreEvent) (s : Store) : Prop where
  keyed : Keyed s.db
  nonneg : ∀ r ∈ s.db.outbox, 0 ≤ r.attempts
  token_lt : ∀ l ∈ leases tr, l.id < s.db.nextId
  /-- The newest token of a row is its `attempts`. -/
  token_le : ∀ l ∈ leases tr, ∀ r ∈ s.db.outbox, r.id = l.id → l.attempt ≤ r.attempts
  /-- A running lease belongs to the newest token. -/
  leased : ∀ r ∈ s.db.outbox, ∀ u, r.leasedUntil = some u → ⟨r.id, r.attempts, u⟩ ∈ leases tr
  nodup : ((leases tr).map fun l => (l.id, l.attempt)).Nodup
  spent_lt : ∀ c ∈ completions tr, c.1.id < s.db.nextId
  /-- The lease of an accepted token is gone until the next claim. -/
  spent : ∀ c ∈ completions tr, ∀ r ∈ s.db.outbox, r.id = c.1.id →
    c.1.attempt ≤ r.attempts ∧ (r.attempts = c.1.attempt → r.leasedUntil = none)
  /-- Every delivered row was delivered by an accepted completion. -/
  delivered : ∀ r ∈ s.db.outbox, r.deliveredAt ≠ none → ∃ c ∈ completions tr, c.1.id = r.id ∧ c.2 = true

theorem leaseInv_init (clock : ℤ) : LeaseInv [] (.init clock) where
  keyed := ⟨by simp [Store.init, Db.empty], by simp [Store.init, Db.empty]⟩
  nonneg := by simp [Store.init, Db.empty]
  token_lt := by simp
  token_le := by simp
  leased := by simp [Store.init, Db.empty]
  nodup := by simp
  spent_lt := by simp
  spent := by simp
  delivered := by simp [Store.init, Db.empty]

theorem mem_leases_snoc {tr : List StoreEvent} {e : StoreEvent} {l : Lease} :
    l ∈ leases (tr ++ [e]) ↔ l ∈ leases tr ∨ leaseOf e = some l := by
  rw [leases_snoc, List.mem_append, Option.mem_toList]

theorem mem_completions_snoc {tr : List StoreEvent} {e : StoreEvent} {c : Event × Bool} :
    c ∈ completions (tr ++ [e]) ↔ c ∈ completions tr ∨ completionOf e = some c := by
  rw [completions_snoc, List.mem_append, Option.mem_toList]

/-- **The lease invariant is kept by every step.** -/
theorem leaseInv_step {tr : List StoreEvent} {s s' : Store} {a : Call × Exec} {o : Answer}
    (hI : LeaseInv tr s) (h : s.step a = some (s', o)) : LeaseInv (tr ++ [(a, o)]) s' := by
  obtain ⟨-, -, -, hE⟩ := Store.step_effect hI.keyed h
  have hback := fun {r'} (hr' : r' ∈ s'.db.outbox) => hE.row_back hI.keyed hr'
  have hnext := hE.nextId_le
  refine ⟨hE.keyed hI.keyed, fun r' hr' => ?_, fun l hl => ?_, fun l hl r' hr' hid => ?_,
    fun r' hr' u hu => ?_, ?_, fun c hc => ?_, fun c hc r' hr' hid => ?_, fun r' hr' hd => ?_⟩
  · -- attempts stay nonnegative
    rcases hback hr' with ⟨r, hr, hst⟩ | ⟨-, -, key, v, rfl⟩
    · exact le_trans (hI.nonneg r hr) hst.attempts_le
    · simp
  · -- tokens are of inserted rows
    rcases mem_leases_snoc.mp hl with hl | hl
    · exact lt_of_lt_of_le (hI.token_lt l hl) hnext
    · obtain ⟨c, hc, -, hid, -⟩ := hE.leaseOf_row hl
      rw [hid]
      exact lt_of_lt_of_le (hI.keyed.lt_next c hc) hnext
  · -- no token is above `attempts`
    rcases hback hr' with ⟨r, hr, hst⟩ | ⟨hno, -, key, v, rfl⟩
    · rcases mem_leases_snoc.mp hl with hl | hl
      · exact le_trans (hI.token_le l hl r hr (hst.id_eq.1.symm.trans hid)) hst.attempts_le
      · cases hst with
        | same h' hn _ => subst h'; exact absurd hid.symm (hn l hl)
        | lease d _ _ _ hl' _ h' =>
          rw [hl', Option.some.injEq] at hl
          rw [← hl, h']
        | complete event delivered retry _ _ _ hl' _ _ => rw [hl'] at hl; simp at hl
    · rcases mem_leases_snoc.mp hl with hl | hl
      · have := hI.token_lt l hl
        simp only at hid
        omega
      · rw [hno] at hl; simp at hl
  · -- a running lease is the newest token
    rw [mem_leases_snoc]
    rcases hback hr' with ⟨r, hr, hst⟩ | ⟨-, -, key, v, rfl⟩
    · cases hst with
      | same h' _ _ => subst h'; exact Or.inl (hI.leased _ hr u hu)
      | lease d _ _ _ hl' _ h' =>
        subst h'
        simp only [Option.some.injEq] at hu
        subst hu
        exact Or.inr hl'
      | complete event delivered retry _ _ _ _ _ h' => subst h'; simp at hu
    · simp at hu
  · -- a new token is above every token of its row
    rw [leases_snoc, List.map_append, List.nodup_append]
    refine ⟨hI.nodup, ?_, fun t ht t' ht' => ?_⟩
    · cases leaseOf (a, o) <;> simp
    · obtain ⟨l, hl, rfl⟩ := List.mem_map.mp ht
      obtain ⟨l', hl', rfl⟩ := List.mem_map.mp ht'
      obtain ⟨c, hc, -, hid, hatt⟩ := hE.leaseOf_row (Option.mem_toList.mp hl')
      intro heq
      simp only [Prod.mk.injEq] at heq
      have := hI.token_le l hl c hc (by rw [heq.1, hid])
      omega
  · -- accepted tokens are of inserted rows
    rcases mem_completions_snoc.mp hc with hc | hc
    · exact lt_of_lt_of_le (hI.spent_lt c hc) hnext
    · obtain ⟨r, hr, ha⟩ := hE.completionOf_row hc
      rw [← (accepts_iff.mp ha).1]
      exact lt_of_lt_of_le (hI.keyed.lt_next r hr) hnext
  · -- an accepted token has no lease left
    rcases hback hr' with ⟨r, hr, hst⟩ | ⟨-, hno, key, v, rfl⟩
    · rcases mem_completions_snoc.mp hc with hc | hc
      · obtain ⟨h1, h2⟩ := hI.spent c hc r hr (hst.id_eq.1.symm.trans hid)
        refine ⟨le_trans h1 hst.attempts_le, fun hatt => ?_⟩
        cases hst with
        | same h' _ _ => subst h'; exact h2 hatt
        | lease d _ _ _ _ _ h' => subst h'; simp only at hatt; omega
        | complete event delivered retry _ _ _ _ _ h' => subst h'; rfl
      · cases hst with
        | same h' _ hn => subst h'; exact absurd hid.symm (hn c hc)
        | lease d _ _ _ _ hn _ => rw [hn] at hc; simp at hc
        | complete event delivered retry ha _ _ _ hc' h' =>
          rw [hc', Option.some.injEq] at hc
          subst h'
          exact ⟨by rw [← hc, (accepts_iff.mp ha).2.1], fun _ => rfl⟩
    · rcases mem_completions_snoc.mp hc with hc | hc
      · have := hI.spent_lt c hc
        simp only at hid
        omega
      · rw [hno] at hc; simp at hc
  · -- delivered rows were delivered by a completion
    simp only [mem_completions_snoc]
    rcases hback hr' with ⟨r, hr, hst⟩ | ⟨-, -, key, v, rfl⟩
    · have hold : r.deliveredAt ≠ none →
          ∃ c, (c ∈ completions tr ∨ completionOf (a, o) = some c) ∧ c.1.id = r'.id ∧ c.2 = true := by
        intro hd'
        obtain ⟨c, hc, h1, h2⟩ := hI.delivered r hr hd'
        exact ⟨c, Or.inl hc, by rw [h1, hst.id_eq.1], h2⟩
      cases hst with
      | same h' _ _ => subst h'; exact hold hd
      | lease d _ _ _ _ _ h' => subst h'; exact hold hd
      | complete event delivered retry ha _ _ _ hc' h' =>
        subst h'
        cases delivered with
        | false => simp at hd
        | true => exact ⟨_, Or.inr hc', (accepts_iff.mp ha).1.symm, rfl⟩
    · simp at hd

theorem leaseInv_run {clock : ℤ} {tr : List StoreEvent} {s : Store}
    (h : Run Store.step (.init clock) tr s) : LeaseInv tr s :=
  h.rec_inv (I := LeaseInv) (leaseInv_init clock) (fun _ _ _ _ _ _ hI hst => leaseInv_step hI hst)

/-- What the workers hold was handed out by a claim of the run. -/
theorem held_step {tr : List StoreEvent} {s s' : Store} {a : Call × Exec} {o : Answer}
    (hI : ∀ w e, s.held w = some e → ∃ l ∈ leases tr, l.id = e.id ∧ l.attempt = e.attempt)
    (h : s.step a = some (s', o)) :
    ∀ w e, s'.held w = some e → ∃ l ∈ leases (tr ++ [(a, o)]), l.id = e.id ∧ l.attempt = e.attempt := by
  have hold : ∀ w e, s.held w = some e →
      ∃ l ∈ leases (tr ++ [(a, o)]), l.id = e.id ∧ l.attempt = e.attempt := by
    intro w e he
    obtain ⟨l, hl, h1⟩ := hI w e he
    exact ⟨l, mem_leases_snoc.mpr (Or.inl hl), h1⟩
  have hdrop : ∀ w₀ w e, Function.update s.held w₀ none w = some e →
      ∃ l ∈ leases (tr ++ [(a, o)]), l.id = e.id ∧ l.attempt = e.attempt := by
    intro w₀ w e he
    by_cases hw : w = w₀
    · subst hw; simp at he
    · rw [Function.update_of_ne hw] at he; exact hold w e he
  obtain ⟨c, x⟩ := a
  unfold Store.step at h
  dsimp only at h
  split_ifs at h
  intro w e he
  cases c with
  | mutate m lost => simp only [Option.some.injEq, Prod.mk.injEq] at h; rw [← h.1] at he; exact hold w e he
  | claim w₀ lease lost =>
    simp only [Option.some.injEq, Prod.mk.injEq] at h
    obtain ⟨rfl, rfl⟩ := h
    cases hr : (s.db.claim lease x).1 with
    | error err => simp only [hr, Store.receive] at he; rw [← hr]; exact hold w e he
    | ok r =>
      cases r with
      | none => simp only [hr, Store.receive] at he; rw [← hr]; exact hold w e he
      | some ev =>
        simp only [hr, Store.receive] at he
        rw [hr] at hold
        split_ifs at he
        · exact hold w e he
        · by_cases hw : w = w₀
          · subst hw
            rw [Function.update_self, Option.some.injEq] at he
            subst he
            exact ⟨⟨ev.id, ev.attempt, x.later + interval lease⟩, mem_leases_snoc.mpr (Or.inr rfl), rfl, rfl⟩
          · rw [Function.update_of_ne hw] at he; exact hold w e he
  | finish w₀ event delivered retry =>
    simp only [Option.some.injEq, Prod.mk.injEq] at h; rw [← h.1] at he; exact hdrop w₀ w e he
  | purge retention limit =>
    simp only [Option.some.injEq, Prod.mk.injEq] at h; rw [← h.1] at he; exact hold w e he
  | crash w₀ =>
    simp only [Option.some.injEq, Prod.mk.injEq] at h; rw [← h.1] at he; exact hdrop w₀ w e he
  | advance => simp only [Option.some.injEq, Prod.mk.injEq] at h; rw [← h.1] at he; exact hold w e he

theorem held_run {clock : ℤ} {tr : List StoreEvent} {s : Store} (h : Run Store.step (.init clock) tr s) :
    ∀ w e, s.held w = some e → ∃ l ∈ leases tr, l.id = e.id ∧ l.attempt = e.attempt :=
  h.rec_inv (I := fun tr s => ∀ w e, s.held w = some e →
    ∃ l ∈ leases tr, l.id = e.id ∧ l.attempt = e.attempt) (by simp [Store.init])
    (fun _ _ _ _ _ _ hI hst => held_step hI hst)

/-! ### Fencing -/

/-- The token of `event` is the newest one handed out for it, and its lease is running. -/
def Current (tr : List StoreEvent) (now : ℤ) (event : Event) : Prop :=
  ∃ l ∈ leases tr, l.id = event.id ∧ l.attempt = event.attempt ∧ now < l.ends ∧
    ∀ l' ∈ leases tr, l'.id = event.id → l'.attempt ≤ l.attempt

/-- The boolean of the Go result of `Finish`. -/
def owned : Except Err Bool → Bool
  | .ok b => b
  | .error _ => false

/-- A finish is accepted by one row, or refused with every row unchanged. -/
theorem finish_owned {db : Db} (hk : Keyed db) (event : Event) (delivered : Bool) (retry : ℤ) (x : Exec) :
    (owned (db.finish event delivered retry x).1 = true ∧
      ∃ r ∈ db.outbox, accepts x.now event r = true) ∨
    (owned (db.finish event delivered retry x).1 = false ∧ (db.finish event delivered retry x).2 = db) := by
  rcases db.finish_spec event delivered retry x with ⟨h1, h2⟩ | ⟨-, -, -, h1, h2⟩
  · refine Or.inr ⟨?_, h1⟩
    cases hr : (db.finish event delivered retry x).1 with
    | error e => rfl
    | ok b =>
      cases b with
      | false => rfl
      | true => exact absurd hr h2
  · rcases filter_accepts_length hk x.now event with hn | ⟨r, hr, ha, hlen⟩
    · rw [mapOutbox_complete_of_none hn] at h2
      exact Or.inr ⟨by rw [h1, hn]; rfl, h2⟩
    · exact Or.inl ⟨by rw [h1, hlen]; rfl, r, hr, ha⟩

theorem LeaseInv.current {tr : List StoreEvent} {s : Store} (hI : LeaseInv tr s) {event : Event} {now : ℤ}
    {r : OutboxRow} (hr : r ∈ s.db.outbox) (ha : accepts now event r = true) : Current tr now event := by
  obtain ⟨hid, hatt, -, u, hu, hlt⟩ := accepts_iff.mp ha
  refine ⟨⟨r.id, r.attempts, u⟩, hI.leased r hr u hu, hid, hatt, hlt, fun l' hl' hid' => ?_⟩
  exact hI.token_le l' hl' r hr (hid.trans hid'.symm)

/-- A delivered row stays as it is, and no later claim hands out its event. -/
theorem delivered_run {s₁ s : Store} {tr : List StoreEvent} (hk : Keyed s₁.db) {r : OutboxRow} {t : ℤ}
    (hr : r ∈ s₁.db.outbox) (hd : r.deliveredAt = some t) (h : Run Store.step s₁ tr s) :
    Keyed s.db ∧ s₁.db.nextId ≤ s.db.nextId ∧ (∀ r' ∈ s.db.outbox, r'.id = r.id → r' = r) ∧
      ∀ l ∈ leases tr, l.id ≠ r.id := by
  refine h.rec_inv (I := fun tr s => Keyed s.db ∧ s₁.db.nextId ≤ s.db.nextId ∧
    (∀ r' ∈ s.db.outbox, r'.id = r.id → r' = r) ∧ ∀ l ∈ leases tr, l.id ≠ r.id) ?_ ?_
  · exact ⟨hk, le_rfl, fun r' hr' hid => hk.row_eq hr' hr hid, by simp⟩
  · intro tr s a o s' _ ⟨hks, hn, hrow, hle⟩ hst
    obtain ⟨-, -, -, hE⟩ := Store.step_effect hks hst
    refine ⟨hE.keyed hks, hn.trans hE.nextId_le, fun r' hr' hid => ?_, fun l hl => ?_⟩
    · rcases hE.row_back hks hr' with ⟨r₀, hr₀, hrs⟩ | ⟨-, -, key, v, rfl⟩
      · have h0 := hrow r₀ hr₀ (hrs.id_eq.1.symm.trans hid)
        subst h0
        exact (hrs.delivered hd).1
      · have := hk.lt_next r hr
        simp only at hid
        omega
    · rcases mem_leases_snoc.mp hl with hl | hl
      · exact hle l hl
      · obtain ⟨c, hc, he, hid, -⟩ := hE.leaseOf_row hl
        intro hlr
        have h0 := hrow c hc (hid.symm.trans hlr)
        rw [h0] at he
        rw [(eligible_iff.mp he).1] at hd
        simp at hd

/-- **Lease fencing.**  In every run: no token is handed out twice, also not to workers that miss the
answer; the tokens of one event that a finish could still be accepted with are one token, the newest one,
and only before its lease ends; every other finish, and every repetition of an accepted one, returns
false and leaves every row unchanged; and a delivered event stays delivered at the same time and is never
claimed again. -/
theorem lease_fencing {clock : ℤ} {tr : List StoreEvent} {s : Store}
    (h : Run Store.step (.init clock) tr s) :
    ((leases tr).map fun l => (l.id, l.attempt)).Nodup ∧
    (∀ w event, s.held w = some event → ∃ l ∈ leases tr, l.id = event.id ∧ l.attempt = event.attempt) ∧
    (∀ event event' delivered delivered' retry retry' x x',
      owned (s.db.finish event delivered retry x).1 = true →
      owned (s.db.finish event' delivered' retry' x').1 = true →
      event.id = event'.id → event.attempt = event'.attempt) ∧
    (∀ event delivered retry x, ¬ Current tr x.now event →
      owned (s.db.finish event delivered retry x).1 = false ∧
        (s.db.finish event delivered retry x).2 = s.db) ∧
    (∀ c ∈ completions tr, ∀ event delivered retry x, event.id = c.1.id → event.attempt = c.1.attempt →
      owned (s.db.finish event delivered retry x).1 = false ∧
        (s.db.finish event delivered retry x).2 = s.db) ∧
    (∀ tr₁ tr₂ s₁, tr = tr₁ ++ tr₂ → Run Store.step (.init clock) tr₁ s₁ → Run Store.step s₁ tr₂ s →
      ∀ r ∈ s₁.db.outbox, ∀ t, r.deliveredAt = some t →
        (∀ r' ∈ s.db.outbox, r'.id = r.id → r'.deliveredAt = some t) ∧ ∀ l ∈ leases tr₂, l.id ≠ r.id) := by
  have hI := leaseInv_run h
  refine ⟨hI.nodup, held_run h, ?_, ?_, ?_, ?_⟩
  · intro event event' delivered delivered' retry retry' x x' h1 h2 hid
    rcases finish_owned hI.keyed event delivered retry x with ⟨-, r, hr, ha⟩ | ⟨hf, -⟩
    · rcases finish_owned hI.keyed event' delivered' retry' x' with ⟨-, r', hr', ha'⟩ | ⟨hf, -⟩
      · obtain ⟨h3, h4, -⟩ := accepts_iff.mp ha
        obtain ⟨h5, h6, -⟩ := accepts_iff.mp ha'
        have hrr := hI.keyed.row_eq hr hr' (by rw [h3, h5, hid])
        rw [← h4, ← h6, hrr]
      · rw [hf] at h2; simp at h2
    · rw [hf] at h1; simp at h1
  · intro event delivered retry x hc
    rcases finish_owned hI.keyed event delivered retry x with ⟨-, r, hr, ha⟩ | hf
    · exact absurd (hI.current hr ha) hc
    · exact hf
  · intro c hc event delivered retry x hid hatt
    rcases finish_owned hI.keyed event delivered retry x with ⟨-, r, hr, ha⟩ | hf
    · obtain ⟨h1, h2, -, u, hu, -⟩ := accepts_iff.mp ha
      have hn := (hI.spent c hc r hr (h1.trans hid)).2 (h2.trans hatt)
      rw [hn] at hu
      simp at hu
    · exact hf
  · intro tr₁ tr₂ s₁ _ h1 h2 r hr t hd
    obtain ⟨-, -, h3, h4⟩ := delivered_run (leaseInv_run h1).keyed hr hd h2
    exact ⟨fun r' hr' hid => by rw [h3 r' hr' hid, hd], h4⟩

/-- An event is claimed, its lease of ten seconds runs out, and another worker claims it again. -/
def reclaimed : List (Call × Exec) :=
  [(.mutate (.put [107] [118]) false, ⟨0, 0, none, none, []⟩),
   (.claim 0 (10 * second) false, ⟨0, 0, none, none, []⟩),
   (.claim 1 (10 * second) false, ⟨20000000, 20000000, none, none, []⟩)]

/-- The first worker's token is fenced off by the second claim. -/
theorem lease_fencing_reclaimed :
    ∃ tr s, Run Store.step (.init 0) tr s ∧ leases tr = [⟨1, 1, 10000000⟩, ⟨1, 2, 30000000⟩] ∧
      ∀ delivered retry x, owned (s.db.finish ⟨1, [107], 1, 1⟩ delivered retry x).1 = false := by
  have hrun := exec_run Store.step reclaimed (.init 0) _ _ rfl
  refine ⟨_, _, hrun, by decide, fun delivered retry x => ?_⟩
  refine ((lease_fencing hrun).2.2.2.1 ⟨1, [107], 1, 1⟩ delivered retry x ?_).1
  rintro ⟨l, -, -, hatt, -, hmax⟩
  have := hmax ⟨1, 2, 30000000⟩ (by decide) rfl
  simp only at hatt this
  omega

/-! ### Recovery -/

/-- One minute, the longest lease and the longest retry delay, as database time. -/
def oneMinute : ℤ := interval minute

/-- Both timestamps of every pending row are at most one minute ahead. -/
def TimeInv (s : Store) : Prop :=
  ∀ r ∈ s.db.outbox, r.deliveredAt = none →
    r.availableAt ≤ s.clock + oneMinute ∧ ∀ u, r.leasedUntil = some u → u ≤ s.clock + oneMinute

theorem timeInv_step {s s' : Store} {a : Call × Exec} {o : Answer} (hk : Keyed s.db) (hI : TimeInv s)
    (h : s.step a = some (s', o)) : TimeInv s' := by
  obtain ⟨hn, hl, hc, hE⟩ := Store.step_effect hk h
  have hmin : (0 : ℤ) ≤ oneMinute := by decide
  intro r' hr' hd
  rw [hc]
  rcases hE.row_back hk hr' with ⟨r, hr, hst⟩ | ⟨-, -, key, v, rfl⟩
  · cases hst with
    | same h' _ _ =>
      subst h'
      obtain ⟨h1, h2⟩ := hI _ hr hd
      exact ⟨by omega, fun u hu => by have := h2 u hu; omega⟩
    | lease d _ _ hd' _ _ h' =>
      subst h'
      obtain ⟨h1, -⟩ := hI r hr hd
      refine ⟨by simp only; omega, fun u hu => ?_⟩
      simp only [Option.some.injEq] at hu
      have hle : interval d ≤ oneMinute := interval_mono hd'
      omega
    | complete event delivered retry _ _ hr1 _ _ h' =>
      subst h'
      refine ⟨?_, by simp⟩
      cases delivered with
      | true => simp at hd
      | false =>
        have hle : interval retry ≤ oneMinute := interval_mono hr1
        simp only [Bool.false_eq_true, if_false]
        omega
  · exact ⟨by simp only; omega, by simp⟩

theorem timeInv_run {clock : ℤ} {tr : List StoreEvent} {s : Store}
    (h : Run Store.step (.init clock) tr s) : TimeInv s :=
  h.rec_inv (I := fun _ s => TimeInv s) (by simp [TimeInv, Store.init, Db.empty])
    (fun _ _ _ _ _ hr hI hst => timeInv_step (leaseInv_run hr).keyed hI hst)

/-- A pending row that is neither claimed nor finished stays as it is. -/
theorem untouched_run {s₁ s : Store} {tr : List StoreEvent} (hk : Keyed s₁.db) {r : OutboxRow}
    (hr : r ∈ s₁.db.outbox) (hd : r.deliveredAt = none) (h : Run Store.step s₁ tr s) :
    Keyed s.db ∧ s₁.clock ≤ s.clock ∧
      ((∀ l ∈ leases tr, l.id ≠ r.id) → (∀ c ∈ completions tr, c.1.id ≠ r.id) → r ∈ s.db.outbox) := by
  refine h.rec_inv (I := fun tr s => Keyed s.db ∧ s₁.clock ≤ s.clock ∧
    ((∀ l ∈ leases tr, l.id ≠ r.id) → (∀ c ∈ completions tr, c.1.id ≠ r.id) → r ∈ s.db.outbox))
    ⟨hk, le_rfl, fun _ _ => hr⟩ ?_
  intro tr s a o s' _ ⟨hks, hclk, hkeep⟩ hst
  obtain ⟨h1, h2, h3, hE⟩ := Store.step_effect hks hst
  refine ⟨hE.keyed hks, by omega, fun hl hc => ?_⟩
  have hmem := hkeep (fun l hl' => hl l (mem_leases_snoc.mpr (Or.inl hl')))
    (fun c hc' => hc c (mem_completions_snoc.mpr (Or.inl hc')))
  rcases hE.row_forth hks hmem with ⟨r', hr', hrs⟩ | ⟨retention, hp⟩
  · cases hrs with
    | same h' _ _ => exact h' ▸ hr'
    | lease d _ _ _ hl' _ _ => exact absurd rfl (hl _ (mem_leases_snoc.mpr (Or.inr hl')))
    | complete event delivered retry ha _ _ _ hc' _ =>
      exact absurd (accepts_iff.mp ha).1.symm (hc _ (mem_completions_snoc.mpr (Or.inr hc')))
  · obtain ⟨t, ht, -⟩ := purgeable_iff.mp hp
    rw [hd] at ht
    simp at ht

/-- A row stays in the table until a completion delivered it. -/
theorem kept_run {clock : ℤ} {tr₁ tr₂ : List StoreEvent} {s₁ s : Store}
    (h₁ : Run Store.step (.init clock) tr₁ s₁) (h₂ : Run Store.step s₁ tr₂ s) {r : OutboxRow}
    (hr : r ∈ s₁.db.outbox) :
    (∃ r' ∈ s.db.outbox, r'.id = r.id ∧ r'.key = r.key ∧ r'.version = r.version) ∨
    ∃ c ∈ completions (tr₁ ++ tr₂), c.1.id = r.id ∧ c.2 = true := by
  refine h₂.rec_inv (I := fun tr s =>
    (∃ r' ∈ s.db.outbox, r'.id = r.id ∧ r'.key = r.key ∧ r'.version = r.version) ∨
    ∃ c ∈ completions (tr₁ ++ tr), c.1.id = r.id ∧ c.2 = true) (Or.inl ⟨r, hr, rfl, rfl, rfl⟩) ?_
  intro tr s a o s' hrun hI hst
  have hL := leaseInv_run (h₁.append hrun)
  obtain ⟨-, -, -, hE⟩ := Store.step_effect hL.keyed hst
  have hlater : ∀ i, (∃ c ∈ completions (tr₁ ++ tr), c.1.id = i ∧ c.2 = true) →
      ∃ c ∈ completions (tr₁ ++ (tr ++ [(a, o)])), c.1.id = i ∧ c.2 = true := by
    rintro i ⟨c, hc, h1⟩
    exact ⟨c, by rw [← List.append_assoc]; exact mem_completions_snoc.mpr (Or.inl hc), h1⟩
  rcases hI with ⟨r', hr', h1, h2, h3⟩ | hdone
  · rcases hE.row_forth hL.keyed hr' with ⟨r'', hr'', hrs⟩ | ⟨retention, hp⟩
    · obtain ⟨h4, h5, h6⟩ := hrs.id_eq
      exact Or.inl ⟨r'', hr'', h4.trans h1, h5.trans h2, h6.trans h3⟩
    · obtain ⟨t, ht, -⟩ := purgeable_iff.mp hp
      have hdel := hL.delivered r' hr' (by rw [ht]; simp)
      rw [h1] at hdel
      exact Or.inr (hlater _ hdel)
  · exact Or.inr (hlater _ hdone)

/-- **No event is lost or stuck.**  In every run: an event that was ever in the table is still there
unless an accepted finish delivered it, and a purge drops only rows delivered longer ago than the
retention; a pending row becomes available and loses its lease within a minute of now, and from then on
it can be claimed, unless in between it was claimed again or an accepted finish completed or rescheduled
it. -/
theorem no_event_lost {clock : ℤ} {tr : List StoreEvent} {s : Store}
    (h : Run Store.step (.init clock) tr s) :
    (∀ tr₁ tr₂ s₁, tr = tr₁ ++ tr₂ → Run Store.step (.init clock) tr₁ s₁ → Run Store.step s₁ tr₂ s →
      ∀ r ∈ s₁.db.outbox,
        (∃ r' ∈ s.db.outbox, r'.id = r.id ∧ r'.key = r.key ∧ r'.version = r.version) ∨
        ∃ c ∈ completions tr, c.1.id = r.id ∧ c.2 = true) ∧
    (∀ retention limit x, ∀ r ∈ s.db.outbox, r ∉ (s.db.purgeDelivered retention limit x).2.outbox →
      ∃ t, r.deliveredAt = some t ∧ t < x.now - interval retention) ∧
    (∀ r ∈ s.db.outbox, r.deliveredAt = none → r.availableAt ≤ s.clock + oneMinute ∧
      (r.leasedUntil = none ∨ ∃ u, r.leasedUntil = some u ∧ u ≤ s.clock + oneMinute)) ∧
    (∀ tr' s', Run Store.step s tr' s' → ∀ r ∈ s.db.outbox, r.deliveredAt = none →
      (∀ l ∈ leases tr', l.id ≠ r.id) → (∀ c ∈ completions tr', c.1.id ≠ r.id) →
      r ∈ s'.db.outbox ∧ ∀ now, s.clock + oneMinute ≤ now → eligible now r = true) := by
  have hL := leaseInv_run h
  have hT := timeInv_run h
  have hbound : ∀ r ∈ s.db.outbox, r.deliveredAt = none → r.availableAt ≤ s.clock + oneMinute ∧
      (r.leasedUntil = none ∨ ∃ u, r.leasedUntil = some u ∧ u ≤ s.clock + oneMinute) := by
    intro r hr hd
    obtain ⟨h1, h2⟩ := hT r hr hd
    refine ⟨h1, ?_⟩
    cases hu : r.leasedUntil with
    | none => exact Or.inl rfl
    | some u => exact Or.inr ⟨u, rfl, h2 u hu⟩
  refine ⟨?_, ?_, hbound, ?_⟩
  · rintro tr₁ tr₂ s₁ rfl h1 h2 r hr
    exact kept_run h1 h2 hr
  · intro retention limit x r hr hn
    obtain ⟨-, -, -, h3⟩ := s.db.purge_spec retention limit x
    obtain ⟨r', hr', hid, hp⟩ := h3 r hr hn
    rw [hL.keyed.row_eq hr' hr hid] at hp
    exact purgeable_iff.mp hp
  · intro tr' s' hrun r hr hd hl hc
    refine ⟨(untouched_run hL.keyed hr hd hrun).2.2 hl hc, fun now hnow => ?_⟩
    obtain ⟨h1, h2⟩ := hbound r hr hd
    refine eligible_iff.mpr ⟨hd, by omega, ?_⟩
    rcases h2 with h2 | ⟨u, hu, h2⟩
    · exact Or.inl h2
    · exact Or.inr ⟨u, hu, by omega⟩

/-- The event of `reclaimed` can be claimed a minute after the second claim. -/
theorem no_event_lost_reclaimed :
    ∃ tr s, Run Store.step (.init 0) tr s ∧ s.clock = 20000000 ∧
      ∃ r ∈ s.db.outbox, r.id = 1 ∧ eligible 20000000 r = false ∧ eligible 80000000 r = true := by
  have hrun := exec_run Store.step reclaimed (.init 0) _ _ rfl
  refine ⟨_, _, hrun, rfl, _, List.mem_singleton_self _, rfl, by decide, ?_⟩
  exact ((no_event_lost hrun).2.2.2 [] _ .nil _ (List.mem_singleton_self _) rfl (by simp) (by simp)).2
    80000000 (by decide)

/-- An event is claimed with a lease of ten seconds and given back with a retry delay of one minute
before the lease ends. -/
def givenBack : List (Call × Exec) :=
  [(.finish 0 ⟨1, [107], 1, 1⟩ false minute, ⟨5000000, 5000000, none, none, []⟩),
   (.advance, ⟨60000000, 60000000, none, none, []⟩)]

/-- A finish between two claims postpones a pending event beyond the minute: it is pending when the clock
reads 0, no claim follows, and one minute later it cannot be claimed. -/
theorem finish_postpones :
    ∃ tr s tr' s' r, Run Store.step (.init 0) tr s ∧ s.clock = 0 ∧ r ∈ s.db.outbox ∧
      r.deliveredAt = none ∧ Run Store.step s tr' s' ∧ leases tr' = [] ∧
      s.clock + oneMinute ≤ s'.clock ∧
      ∀ r' ∈ s'.db.outbox, r'.id = r.id → r'.deliveredAt = none ∧ eligible s'.clock r' = false := by
  have hrun := exec_run Store.step (reclaimed.take 2) (.init 0) _ _ rfl
  refine ⟨_, _, _, _, _, hrun, rfl, List.mem_singleton_self _, rfl, exec_run _ givenBack _ _ _ rfl, ?_, ?_, ?_⟩
  · decide
  · decide
  · decide

end SimpleCache.Postgres
