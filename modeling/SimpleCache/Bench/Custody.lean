import SimpleCache.Bench.Arrival

/-!
# Bench.Custody — what every arrival run keeps

The record of a job keeps the plan of the job.  A job is in the channel or with a worker at most once, and its record is
then as it was planned; every other job that the dispatcher has passed has been requested or dropped for a reason,
unless the run is canceled.  `Sound.step` is the step lemma, `sound_run` the run lemma; `run_goes_on` and `work_lt` say
that a run can go on until it is finished and that it ends.
-/

namespace SimpleCache.Bench

open Go (ascii)
open Lib (Channel Receiver Run)

/-- What a record keeps of the plan of its job, and what is never recorded of a job that was not requested. -/
structure Record.Keeps (c : Config) (j : Job) (r : Record) : Prop where
  index : r.index = j.index
  method : r.method = ascii "GET"
  stage : r.stage = c.stageName j.stage
  cohort : r.cohort = j.cohort
  dispatched : r.attempted = true → r.dispatched = true
  clean : r.attempted = false → r.error = [] ∧ r.incorrect = false

/-- Neither the dispatcher nor a worker has decided about the job. -/
def Record.Fresh (r : Record) : Prop :=
  r.attempted = false ∧ r.dispatched = false ∧ r.dropReason = Drop.canceled.text

/-- The job has been requested, or dropped for a reason of the dispatcher. -/
def Record.Settled (r : Record) : Prop := r.attempted = true ∨ ∃ d, d ≠ Drop.canceled ∧ r.dropReason = d.text

/-- The indices of the jobs in the channel and with the workers. -/
def State.pending (s : State) : List ℕ := s.queue.held.map fun t => t.job.index

/-- Where the job `i` stands, by its record `r`. -/
structure State.Accounts (s : State) (i : ℕ) (r : Record) : Prop where
  ahead : s.next ≤ i ∨ i ∈ s.pending → r.Fresh
  behind : i < s.next → i ∉ s.pending → r.Settled ∨ s.canceled = true

/-- The records of a run. -/
structure Ledger (c : Config) (jobs : List Job) (s : State) : Prop where
  length : s.records.length = jobs.length
  records : ∀ i j, jobs[i]? = some j → ∃ r, s.records[i]? = some r ∧ r.Keeps c j ∧ s.Accounts i r

/-- The channel and the workers of a run. -/
structure Desk (c : Config) (jobs : List Job) (s : State) : Prop where
  queue : s.queue.Sound
  workers : s.queue.receivers.length = c.workers.toNat
  tickets : ∀ t ∈ s.queue.held, jobs[t.job.index]? = some t.job ∧ t.job.index < s.next
  once : s.pending.Nodup

/-- The dispatcher of a run. -/
structure Loop (jobs : List Job) (s : State) : Prop where
  next_le : s.next ≤ jobs.length
  inside : s.phase ≠ .due → s.phase ≠ .closing → s.phase ≠ .waiting → s.next < jobs.length
  outside : s.phase = .closing ∨ s.phase = .waiting → s.next = jobs.length ∨ s.canceled = true
  closed : s.queue.closed = true ↔ s.phase = .waiting

/-- What every run keeps. -/
structure Sound (c : Config) (jobs : List Job) (s : State) : Prop where
  ledger : Ledger c jobs s
  desk : Desk c jobs s
  loop : Loop jobs s

section Custody

variable {c : Config} {fx : Fixture} {jobs : List Job} {s s' : State}

/-! ### Records -/

/-- The record at a position is that of the job at the position. -/
theorem Ledger.get (h : Ledger c jobs s) {i : ℕ} {r : Record} (hr : s.records[i]? = some r) :
    ∃ j, jobs[i]? = some j ∧ r.Keeps c j ∧ s.Accounts i r := by
  have hlt : i < jobs.length := by
    rw [← h.length]
    exact (List.getElem?_eq_some_iff.mp hr).1
  obtain ⟨r', hr', hkeeps, hacc⟩ := h.records i _ (List.getElem?_eq_getElem hlt)
  obtain rfl : r' = r := Option.some.inj (hr'.symm.trans hr)
  exact ⟨_, List.getElem?_eq_getElem hlt, hkeeps, hacc⟩

/-- One record changes: the other jobs stand where they stood. -/
theorem Ledger.update (h : Ledger c jobs s) {k : ℕ} {f : Record → Record} (hrec : s'.records = s.records.modify k f)
    (hcan : s.canceled = true → s'.canceled = true)
    (hahead : ∀ i ≠ k, s'.next ≤ i ∨ i ∈ s'.pending → s.next ≤ i ∨ i ∈ s.pending)
    (hbehind : ∀ i ≠ k, i < s'.next → i ∉ s'.pending → i < s.next ∧ i ∉ s.pending)
    (hk : ∀ j r, jobs[k]? = some j → r.Keeps c j → s.Accounts k r → (f r).Keeps c j ∧ s'.Accounts k (f r)) :
    Ledger c jobs s' := by
  refine ⟨by rw [hrec, List.length_modify, h.length], fun i j hj => ?_⟩
  obtain ⟨r, hr, hkeeps, hacc⟩ := h.records i j hj
  have hget : s'.records[i]? = some (if k = i then f r else r) := by
    rw [hrec, List.getElem?_modify, hr]
    rfl
  by_cases hik : k = i
  · subst hik
    rw [if_pos rfl] at hget
    exact ⟨f r, hget, hk j r hj hkeeps hacc⟩
  · rw [if_neg hik] at hget
    refine ⟨r, hget, hkeeps, fun ha => hacc.ahead (hahead i (Ne.symm hik) ha), fun hlt hnot => ?_⟩
    obtain ⟨hlt, hnot⟩ := hbehind i (Ne.symm hik) hlt hnot
    exact (hacc.behind hlt hnot).imp_right hcan

/-- No record changes and no job moves. -/
theorem Ledger.keep (h : Ledger c jobs s) (hrec : s'.records = s.records) (hnext : s'.next = s.next)
    (hpend : ∀ i, i ∈ s'.pending ↔ i ∈ s.pending) (hcan : s.canceled = true → s'.canceled = true) :
    Ledger c jobs s' := by
  refine ⟨by rw [hrec, h.length], fun i j hj => ?_⟩
  obtain ⟨r, hr, hkeeps, hacc⟩ := h.records i j hj
  refine ⟨r, by rw [hrec, hr], hkeeps, fun ha => hacc.ahead ?_, fun hlt hnot => ?_⟩
  · rwa [hnext, hpend] at ha
  · rw [hnext] at hlt
    rw [hpend] at hnot
    exact (hacc.behind hlt hnot).imp_right hcan

theorem Record.Keeps.dispatchMS {j : Job} {r : Record} (h : r.Keeps c j) (lag : ℚ) :
    Record.Keeps c j { r with dispatchMS := lag } :=
  ⟨h.index, h.method, h.stage, h.cohort, h.dispatched, h.clean⟩

theorem Record.Keeps.drop {j : Job} {r : Record} (h : r.Keeps c j) (reason : GoString) :
    Record.Keeps c j { r with dropReason := reason } :=
  ⟨h.index, h.method, h.stage, h.cohort, h.dispatched, h.clean⟩

theorem Record.Keeps.mark {j : Job} {r : Record} (h : r.Keeps c j) (lag : ℚ) :
    Record.Keeps c j { r with dispatched := true, dispatchMS := lag } :=
  ⟨h.index, h.method, h.stage, h.cohort, fun _ => rfl, h.clean⟩

theorem keeps_planned (j : Job) : (plannedRecord c j).Keeps c j :=
  ⟨rfl, rfl, rfl, rfl, fun h => h, fun _ => ⟨rfl, rfl⟩⟩

theorem keeps_worker (start : ℤ) (t : Ticket) (began ended : ℤ) (x : Exchange) :
    (workerRecord c fx start t began ended x).Keeps c t.job := by
  obtain ⟨hindex, hmethod, hattempted⟩ := requestExpected_record c fx t.job.index t.job.key 1 1 t.job.missing x
  refine ⟨hindex, hmethod, rfl, rfl, fun _ => rfl, fun h => ?_⟩
  exact absurd (hattempted.symm.trans h) (by simp)

/-! ### Jobs in the channel -/

/-- What is pending changes by the jobs that are sent or done with. -/
theorem pending_perm {a : Channel.Act Ticket} {q : Channel Ticket} {o : Option Ticket}
    (h : s.queue.step a = some (q, o)) (hq : s'.queue = q) :
    ((a.settled o).map (fun t => t.job.index) ++ s'.pending).Perm (a.sent.map (fun t => t.job.index) ++ s.pending) := by
  have hperm := (Channel.perm_held h).map fun t => t.job.index
  rw [List.map_append, List.map_append] at hperm
  rw [State.pending, hq]
  exact hperm

/-- A step that settles no job adds what it sends. -/
theorem mem_pending {a : Channel.Act Ticket} {q : Channel Ticket} {o : Option Ticket} (h : s.queue.step a = some (q, o))
    (hq : s'.queue = q) (hset : a.settled o = []) (i : ℕ) :
    i ∈ s'.pending ↔ i ∈ a.sent.map (fun t => t.job.index) ∨ i ∈ s.pending := by
  have hperm := pending_perm h hq
  rw [hset] at hperm
  exact hperm.mem_iff.trans List.mem_append

theorem closed_step {a : Channel.Act Ticket} {q : Channel Ticket} {o : Option Ticket}
    (h : s.queue.step a = some (q, o)) (ha : a ≠ .close) : q.closed = s.queue.closed := by
  cases Channel.move_of_step h with
  | close => exact absurd rfl ha
  | _ => rfl

/-! ### Steps -/

/-- The jobs are numbered by their position. -/
def Numbered (jobs : List Job) : Prop := ∀ (i : ℕ) (j : Job), jobs[i]? = some j → j.index = i

theorem lt_of_job {j : Job} (hj : jobs[s.next]? = some j) : s.next < jobs.length :=
  (List.getElem?_eq_some_iff.mp hj).1

theorem Loop.step (h : Loop jobs s) (hm : Move c fx jobs s s') : Loop jobs s' := by
  have hopen : s.phase ≠ .waiting → s.queue.closed ≠ true := fun hp hc => hp (h.closed.mp hc)
  cases hm with
  | @turn p n ht =>
    have hp : s.phase ≠ .waiting := by
      intro hp
      have := ht.forward
      rw [hp] at this
      exact absurd this (Nat.not_lt_zero _)
    refine ⟨h.next_le, fun _ hc _ => ?_, fun ho => ?_, ?_⟩
    · by_cases hdue : s.phase = .due
      · exact ht.inside hc hdue
      · exact h.inside hdue ht.before hp
    · exact ht.outside (ho.resolve_right ht.after)
    · exact iff_of_false (hopen hp) ht.after
  | drop hp hj hd =>
    refine ⟨lt_of_job hj, fun hc => absurd rfl hc, by simp, iff_of_false (hopen (by simp [hp])) (by simp)⟩
  | pass hp hj =>
    exact ⟨h.next_le, fun _ _ _ => lt_of_job hj, by simp, iff_of_false (hopen (by simp [hp])) (by simp)⟩
  | send hp hj hst hsent hset =>
    have hclosed := closed_step hst (by rintro rfl; simp [Channel.Act.sent] at hsent)
    refine ⟨lt_of_job hj, fun hc => absurd rfl hc, by simp, ?_⟩
    rw [hclosed]
    exact iff_of_false (hopen (by simp [hp])) (by simp)
  | refuse hp hj =>
    exact ⟨lt_of_job hj, fun hc => absurd rfl hc, by simp, iff_of_false (hopen (by simp [hp])) (by simp)⟩
  | close hp hst =>
    refine ⟨h.next_le, fun _ _ hc => absurd rfl hc, fun _ => h.outside (Or.inl hp), iff_of_true ?_ rfl⟩
    cases Channel.move_of_step hst
    rfl
  | work hst hsent hset ho hc => exact ⟨h.next_le, h.inside, h.outside, by rw [closed_step hst hc]; exact h.closed⟩
  | skip hc hst => exact ⟨h.next_le, h.inside, h.outside, by rw [closed_step hst (by simp)]; exact h.closed⟩
  | reply hst => exact ⟨h.next_le, h.inside, h.outside, by rw [closed_step hst (by simp)]; exact h.closed⟩
  | cancel hc => exact ⟨h.next_le, h.inside, fun _ => Or.inr rfl, h.closed⟩

/-- A step of the channel. -/
theorem Desk.move (h : Desk c jobs s) {a : Channel.Act Ticket} {q : Channel Ticket} {o : Option Ticket}
    (hst : s.queue.step a = some (q, o)) (hq : s'.queue = q) (hnext : s.next ≤ s'.next)
    (hsent : ∀ t ∈ a.sent, jobs[t.job.index]? = some t.job ∧ t.job.index < s'.next)
    (hnew : (a.sent.map (fun t => t.job.index) ++ s.pending).Nodup) : Desk c jobs s' := by
  refine ⟨hq ▸ h.queue.step hst, by rw [hq, Channel.length_receivers hst, h.workers], fun t ht => ?_, ?_⟩
  · rw [hq] at ht
    rcases List.mem_append.mp ((Channel.perm_held hst).subset (List.mem_append_right _ ht)) with hs | hold
    · exact hsent t hs
    · exact ⟨(h.tickets t hold).1, (h.tickets t hold).2.trans_le hnext⟩
  · exact ((pending_perm hst hq).nodup_iff.mpr hnew).of_append_right

/-- The dispatcher goes on. -/
theorem Desk.next (h : Desk c jobs s) (hq : s'.queue = s.queue) (hnext : s.next ≤ s'.next) : Desk c jobs s' := by
  refine ⟨hq ▸ h.queue, hq ▸ h.workers, fun t ht => ?_, by rw [State.pending, hq]; exact h.once⟩
  rw [hq] at ht
  exact ⟨(h.tickets t ht).1, (h.tickets t ht).2.trans_le hnext⟩

theorem Desk.not_mem_pending (h : Desk c jobs s) : s.next ∉ s.pending := by
  intro hmem
  obtain ⟨t, ht, heq⟩ := List.mem_map.mp hmem
  have := (h.tickets t ht).2
  omega

theorem Desk.step (hnum : Numbered jobs) (h : Desk c jobs s) (hm : Move c fx jobs s s') : Desk c jobs s' := by
  cases hm with
  | turn ht => exact h.next rfl le_rfl
  | drop hp hj hd => exact h.next rfl (Nat.le_succ _)
  | pass hp hj => exact h.next rfl le_rfl
  | @send j now a q o hp hj hst hsent hset =>
    have hindex := hnum _ _ hj
    refine h.move hst rfl (Nat.le_succ _) ?_ ?_
    · rw [hsent, List.forall_mem_singleton]
      show jobs[j.index]? = some j ∧ j.index < s.next + 1
      rw [hindex]
      exact ⟨hj, Nat.lt_succ_self _⟩
    · rw [hsent, List.map_singleton, List.singleton_append, List.nodup_cons, hindex]
      exact ⟨h.not_mem_pending, h.once⟩
  | refuse hp hj => exact h.next rfl (Nat.le_succ _)
  | close hp hst => exact h.move hst rfl le_rfl (by simp [Channel.Act.sent]) h.once
  | work hst hsent hset ho hc => exact h.move hst rfl le_rfl (by simp [hsent]) (by rw [hsent]; exact h.once)
  | skip hc hst => exact h.move hst rfl le_rfl (by simp [Channel.Act.sent]) h.once
  | reply hst => exact h.move hst rfl le_rfl (by simp [Channel.Act.sent]) h.once
  | cancel hc => exact h.next rfl le_rfl

theorem accounts_of_settled {i : ℕ} {r : Record} (hlt : i < s.next) (hnot : i ∉ s.pending)
    (hr : r.Settled ∨ s.canceled = true) : s.Accounts i r :=
  ⟨fun ha => by rcases ha with hle | hmem <;> [omega; exact absurd hmem hnot], fun _ _ => hr⟩

/-- The dispatcher drops its current job. -/
theorem Ledger.dropped (h : Ledger c jobs s) (hd : Desk c jobs s) {f : Record → Record} {d : Drop} (hne : d ≠ .canceled)
    (hrec : s'.records = s.records.modify s.next fun r => { f r with dropReason := d.text })
    (hf : ∀ j r, r.Keeps c j → (f r).Keeps c j) (hq : s'.queue = s.queue) (hnext : s'.next = s.next + 1)
    (hcan : s'.canceled = s.canceled) : Ledger c jobs s' := by
  have hpend : s'.pending = s.pending := by rw [State.pending, hq, State.pending]
  refine h.update hrec (fun hc => by rw [hcan, hc]) (fun i hi => ?_) (fun i hi => ?_) (fun j r hj hk hacc => ?_)
  · rw [hpend, hnext]
    exact Or.imp_left (by omega)
  · rw [hpend, hnext]
    exact fun hlt hnot => ⟨by omega, hnot⟩
  · refine ⟨(hf j r hk).drop _, accounts_of_settled (by omega) ?_ (Or.inl (Or.inr ⟨d, hne, rfl⟩))⟩
    rw [hpend]
    exact hd.not_mem_pending

/-- A worker is done with a job: it was pending once and is so no longer. -/
theorem Ledger.done (h : Ledger c jobs s) (hd : Desk c jobs s) {t : Ticket} {f : Record → Record}
    (hperm : (t.job.index :: s'.pending).Perm s.pending) (hrec : s'.records = s.records.modify t.job.index f)
    (hnext : s'.next = s.next) (hcan : s'.canceled = s.canceled) (ht : t ∈ s.queue.held)
    (hf : ∀ r, r.Keeps c t.job → (f r).Keeps c t.job ∧ ((f r).Settled ∨ s.canceled = true)) : Ledger c jobs s' := by
  obtain ⟨hnot, -⟩ := List.nodup_cons.mp (hperm.nodup_iff.mpr hd.once)
  obtain ⟨hjob, hlt⟩ := hd.tickets t ht
  have hother : ∀ i ≠ t.job.index, (i ∈ s'.pending ↔ i ∈ s.pending) := by
    intro i hi
    rw [← hperm.mem_iff, List.mem_cons, or_iff_right hi]
  refine h.update hrec (fun hc => by rw [hcan, hc]) (fun i hi => ?_) (fun i hi => ?_) (fun j r hj hk hacc => ?_)
  · rw [hother i hi, hnext]
    exact id
  · rw [hother i hi, hnext]
    exact And.intro
  · obtain rfl : t.job = j := Option.some.inj (hjob.symm.trans hj)
    obtain ⟨hkeeps, hsettled⟩ := hf r hk
    exact ⟨hkeeps, accounts_of_settled (by rw [hnext]; exact hlt) hnot (by rw [hcan]; exact hsettled)⟩

theorem held_of_settled {a : Channel.Act Ticket} {q : Channel Ticket} {t : Ticket}
    (h : s.queue.step a = some (q, some t)) (ha : a.settled (some t) = [t]) (hs : a.sent = []) : t ∈ s.queue.held := by
  have hperm := Channel.perm_held h
  rw [ha, hs] at hperm
  exact hperm.subset List.mem_cons_self

theorem Ledger.step (hnum : Numbered jobs) (h : Ledger c jobs s) (hd : Desk c jobs s) (hm : Move c fx jobs s s') :
    Ledger c jobs s' := by
  cases hm with
  | turn ht => exact h.keep rfl rfl (fun _ => Iff.rfl) id
  | @drop j lag d hp hj hne =>
    refine h.dropped hd hne ?_ (fun _ _ hk => hk.dispatchMS (ms lag)) rfl rfl rfl
    rw [dropRecord, List.modify_modify_eq, hnum _ _ hj]
    rfl
  | @pass j lag hp hj =>
    rw [hnum _ _ hj]
    refine h.update rfl id (fun _ _ => id) (fun _ _ => And.intro) fun j' r hj' hk hacc => ⟨hk.dispatchMS _, ?_⟩
    exact ⟨fun ha => hacc.ahead ha, fun hlt => absurd hlt (lt_irrefl _)⟩
  | @send j now a q o hp hj hst hsent hset =>
    have hpend : ∀ i, i ∈ State.pending { s with queue := q, next := s.next + 1, phase := .due } ↔
        i = s.next ∨ i ∈ s.pending := by
      intro i
      rw [mem_pending hst rfl hset, hsent, List.map_singleton, List.mem_singleton, hnum _ _ hj]
    refine h.update (k := s.next) (f := id) (by simp) id (fun i hi ha => ?_) (fun i hi hlt hnot => ?_) ?_
    · rw [hpend, or_iff_right hi] at ha
      exact ha.imp_left (by show s.next + 1 ≤ i → _; omega)
    · rw [hpend, or_iff_right hi] at hnot
      have hlt : i < s.next + 1 := hlt
      exact ⟨by omega, hnot⟩
    · intro j' r hj' hk hacc
      refine ⟨hk, fun _ => hacc.ahead (Or.inl le_rfl), fun _ hnot => ?_⟩
      exact absurd ((hpend _).mpr (Or.inl rfl)) hnot
  | refuse hp hj =>
    refine h.dropped hd (d := .clientCapacity) (f := id) (by simp) ?_ (fun _ _ hk => hk) rfl rfl rfl
    rw [dropRecord, hnum _ _ hj]
    rfl
  | close hp hst =>
    refine h.keep rfl rfl (fun i => (mem_pending hst rfl rfl i).trans ?_) id
    simp [Channel.Act.sent]
  | work hst hsent hset ho hc =>
    refine h.keep rfl rfl (fun i => (mem_pending hst rfl hset i).trans ?_) id
    simp [hsent]
  | @skip w q t lag hc hst =>
    refine h.done hd (pending_perm hst rfl) rfl rfl rfl (held_of_settled hst rfl rfl) fun r hk => ?_
    exact ⟨hk.mark lag, Or.inr hc⟩
  | @reply w q t began ended x hst =>
    refine h.done hd (pending_perm hst rfl) (List.set_eq_modify ..) rfl rfl (held_of_settled hst rfl rfl) fun r hk => ?_
    refine ⟨keeps_worker s.start t began ended x, Or.inl (Or.inl ?_)⟩
    exact (requestExpected_record c fx t.job.index t.job.key 1 1 t.job.missing x).2.2
  | cancel hc => exact h.keep rfl rfl (fun _ => Iff.rfl) fun _ => rfl

theorem Sound.step (hnum : Numbered jobs) (h : Sound c jobs s) (hm : Move c fx jobs s s') : Sound c jobs s' :=
  ⟨h.ledger.step hnum h.desk hm, h.desk.step hnum hm, h.loop.step hm⟩

/-! ### Runs -/

/-- The loop over the jobs from a position on fills in the planned records. -/
theorem foldl_planned (c : Config) {done todo : List Job} (hnum : Numbered (done ++ todo)) :
    todo.foldl (fun records j => records.set j.index (plannedRecord c j))
      (done.map (plannedRecord c) ++ List.replicate todo.length ({} : Record)) = (done ++ todo).map (plannedRecord c) := by
  induction todo generalizing done with
  | nil => simp
  | cons j todo ih =>
    have hindex : j.index = (done.map (plannedRecord c)).length := by
      rw [List.length_map]
      exact hnum done.length j (by simp)
    rw [List.append_cons] at hnum ⊢
    rw [List.foldl_cons, ← ih hnum, hindex, List.set_append_right _ _ le_rfl, Nat.sub_self, List.length_cons,
      List.replicate_succ, List.set_cons_zero, List.map_append, List.append_assoc]
    rfl

theorem records_begin (hnum : Numbered jobs) (start : ℤ) :
    (State.begin c jobs start).records = jobs.map (plannedRecord c) := by
  have hfill := foldl_planned c (show Numbered ([] ++ jobs) from hnum)
  exact hfill

theorem sound_begin (hnum : Numbered jobs) (start : ℤ) : Sound c jobs (State.begin c jobs start) where
  ledger := by
    refine ⟨by rw [records_begin hnum, List.length_map], fun i j hj => ⟨plannedRecord c j, ?_, keeps_planned j, ?_⟩⟩
    · rw [records_begin hnum, List.getElem?_map, hj, Option.map_some]
    · exact ⟨fun _ => ⟨rfl, rfl, rfl⟩, fun hlt => absurd hlt (Nat.not_lt_zero _)⟩
  desk := by
    have hheld : (State.begin c jobs start).queue.held = [] := Channel.held_start ..
    refine ⟨Channel.sound_start .., List.length_replicate, by simp [hheld], ?_⟩
    rw [State.pending, hheld]
    exact List.nodup_nil
  loop := ⟨Nat.zero_le _, fun hp => absurd rfl hp, by simp [State.begin], by simp [State.begin, Channel.start]⟩

theorem sound_run (hnum : Numbered jobs) {start : ℤ} {tr : List (Act × Unit)}
    (hrun : Run (step c fx jobs) (State.begin c jobs start) tr s) : Sound c jobs s :=
  hrun.inv (sound_begin hnum start) fun _ _ _ _ hI hst => hI.step hnum (move_of_step hst)

/-- **Every job of a finished run that was not canceled has been requested or dropped for a reason.** -/
theorem Sound.settled (h : Sound c jobs s) (hw : 1 ≤ c.workers) (hf : s.finished) (hc : s.canceled = false) :
    ∀ r ∈ s.records, r.Settled := by
  have hne : s.queue.receivers ≠ [] := by
    rw [← List.length_pos_iff, h.desk.workers]
    omega
  have hpend : s.pending = [] := by rw [State.pending, h.desk.queue.held_eq_nil hf.2 hne, List.map_nil]
  have hnext : s.next = jobs.length := (h.loop.outside (Or.inr hf.1)).resolve_right (by simp [hc])
  intro r hr
  obtain ⟨i, hi⟩ := List.mem_iff_getElem?.mp hr
  obtain ⟨j, hj, -, hacc⟩ := h.ledger.get hi
  have hlt : i < s.next := by
    rw [hnext]
    exact (List.getElem?_eq_some_iff.mp hj).1
  exact (hacc.behind hlt (by simp [hpend])).resolve_right (by simp [hc])

/-- A bound on the steps to come. -/
def State.work (jobs : List Job) (s : State) : ℕ :=
  s.queue.weight + s.phase.weight + 10 * (jobs.length - s.next) + (!s.canceled).toNat

/-- **Every step lowers the work to come**, so that no run goes on forever. -/
theorem work_lt (hm : Move c fx jobs s s') : s'.work jobs < s.work jobs := by
  unfold State.work
  cases hm with
  | turn ht =>
    have := ht.forward
    simp only
    omega
  | drop hp hj hd =>
    have := lt_of_job hj
    simp only [hp, Phase.weight]
    omega
  | pass hp hj =>
    simp only [hp, Phase.weight]
    omega
  | @send j now a q o hp hj hst hsent hset =>
    have := lt_of_job hj
    have hle : q.weight ≤ s.queue.weight + 3 := by
      have hstep := Channel.weight_step hst
      split_ifs at hstep <;> omega
    simp only [hp, Phase.weight]
    omega
  | refuse hp hj =>
    have := lt_of_job hj
    simp only [hp, Phase.weight]
    omega
  | @close q o hp hst =>
    have hlt : q.weight < s.queue.weight := Channel.weight_step hst
    simp only [hp, Phase.weight]
    omega
  | @work a q o hst hsent hset ho hc =>
    have hlt := Channel.weight_step hst
    rw [ho] at hlt
    have hlt : q.weight < s.queue.weight := hlt
    simp only
    omega
  | @skip w q t lag hc hst =>
    have hlt : q.weight < s.queue.weight := Channel.weight_step hst
    simp only
    omega
  | @reply w q t began ended x hst =>
    have hlt : q.weight < s.queue.weight := Channel.weight_step hst
    simp only
    omega
  | cancel hc => simp [hc]

/-- The send of the current job is always possible: it never waits for a worker. -/
theorem exists_send (q : Channel Ticket) (t : Ticket) (hc : q.closed = false) : ∃ w, (sendTicket q t w).isSome := by
  by_cases hp : .parked ∈ q.receivers
  · obtain ⟨w, hw⟩ := List.mem_iff_getElem?.mp hp
    exact ⟨some w, by simp [sendTicket, Channel.step, hc, hw]⟩
  · refine ⟨none, ?_⟩
    by_cases hl : q.buffer.length < q.capacity
    · simp [sendTicket, Channel.step, hc, hp, hl]
    · simp [sendTicket, Channel.step, hc, hp, hl, Nat.le_of_not_lt hl]

/-- A worker of a closed channel that has not exited can go on. -/
theorem worker_goes_on (h : Sound c jobs s) (hp : s.phase = .waiting) {w : ℕ} {r : Receiver Ticket}
    (hw : s.queue.receivers[w]? = some r) (hr : r ≠ .exited) :
    ∃ a : Act, a ≠ .cancel ∧ (step c fx jobs s a).isSome := by
  obtain ⟨a, ha, hst⟩ := h.desk.queue.progress (h.loop.closed.mpr hp) hw hr
  obtain ⟨⟨q, o⟩, hst⟩ := Option.isSome_iff_exists.mp hst
  simp only [List.mem_cons, List.not_mem_nil, or_false] at ha
  rcases ha with rfl | rfl | rfl | rfl
  · exact ⟨.receive w, by simp, by simp [step, hst]⟩
  · exact ⟨.exit w, by simp, by simp [step, hst]⟩
  · -- the worker looks at the context: it begins the request, or marks the job
    cases hc : s.canceled with
    | false => exact ⟨.begin w, by simp, by simp [step, hc, hst]⟩
    | true =>
      cases Channel.move_of_step hst with
      | @begin _ t ht => exact ⟨.skip w, by simp, by simp [step, hc, Channel.step, ht]⟩
  · cases Channel.move_of_step hst with
    | @done _ t ht => exact ⟨.reply w 0 0 .unbuilt, by simp, by simp [step, Channel.step, ht]⟩

/-- **Progress**: while a run is not finished, the dispatcher or a worker can go on. -/
theorem run_goes_on (h : Sound c jobs s) (hf : ¬ s.finished) :
    ∃ a : Act, a ≠ .cancel ∧ (step c fx jobs s a).isSome := by
  have hopen : s.phase ≠ .waiting → s.queue.closed = false := by
    intro hp
    by_contra hc
    exact hp (h.loop.closed.mp (by simpa using hc))
  have hjob : s.next < jobs.length → ∃ j, jobs[s.next]? = some j := fun hlt => ⟨_, List.getElem?_eq_getElem hlt⟩
  cases hp : s.phase with
  | due =>
    rcases h.loop.next_le.lt_or_eq with hlt | heq
    · exact ⟨.due 0, by simp, by simp [step, hp, hlt]⟩
    · exact ⟨.leave, by simp, by simp [step, hp, heq]⟩
  | timer => exact ⟨.fire, by simp, by simp [step, hp]⟩
  | check =>
    cases hc : s.canceled with
    | false => exact ⟨.check, by simp, by simp [step, hp, hc]⟩
    | true => exact ⟨.stop, by simp, by simp [step, hp, hc]⟩
  | judge =>
    obtain ⟨j, hj⟩ := hjob (h.loop.inside (by simp [hp]) (by simp [hp]) (by simp [hp]))
    exact ⟨.judge 0, by simp, by simp [step, hp, hj]⟩
  | offer =>
    obtain ⟨j, hj⟩ := hjob (h.loop.inside (by simp [hp]) (by simp [hp]) (by simp [hp]))
    obtain ⟨w, hw⟩ := exists_send s.queue ⟨j, 0⟩ (hopen (by simp [hp]))
    exact ⟨.offer 0 w, by simp, by simpa [step, hp, hj] using hw⟩
  | closing => exact ⟨.close, by simp, by simp [step, hp, Channel.step, hopen (by simp [hp])]⟩
  | waiting =>
    have hleft : ∃ r ∈ s.queue.receivers, r ≠ .exited := by
      by_contra hall
      push Not at hall
      exact hf ⟨hp, hall⟩
    obtain ⟨r, hmem, hr⟩ := hleft
    obtain ⟨w, hw⟩ := List.mem_iff_getElem?.mp hmem
    exact worker_goes_on h hp hw hr

theorem numbered_plan {d : Distribution} (h : Schedule c d) (zipf : ℕ → ℕ) : Numbered (arrivalPlan c zipf) := by
  intro i j hj
  rw [getElem?_plan h hj, arrivalJob_index]

end Custody

end SimpleCache.Bench
