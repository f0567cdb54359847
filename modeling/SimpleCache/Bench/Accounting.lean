import SimpleCache.Bench.Evidence

/-!
# Bench.Accounting — the accounting of an arrival run partitions its plan

For every validated arrival workload and every run: the run can go on until it is finished and ends; then the records are
those of the plan, the counts of the run, of its stages and of their cohorts balance and add up, and the Python validator
agrees with the status of the report.
-/

namespace SimpleCache.Bench

open Go (ascii)
open Lib (Run)

/-- **What the accounting of a finished run has to satisfy.** -/
structure Accounted (c : Config) (jobs : List Job) (s : State) (summary : Summary) : Prop where
  /-- There is one record for each planned index, with the stage and the cohort of its job. -/
  length : s.records.length = jobs.length
  record : ∀ (i : ℕ) (j : Job), jobs[i]? = some j → ∃ r, s.records[i]? = some r ∧
    r.index = i ∧ r.stage = c.stageName j.stage ∧ r.cohort = j.cohort
  /-- The report has the stages of the configuration, in order. -/
  names : summary.arrival.stages.map ArrivalStage.name = c.stages.map RateStage.name
  /-- The counts partition the records: all of them, those of a stage and those of a cohort of a stage. -/
  totals : summary.arrival.counts.Balanced s.records
  stages : ∀ st ∈ summary.arrival.stages, st.counts.Balanced (s.records.filter fun r => r.stage = st.name)
  cohorts : ∀ st ∈ summary.arrival.stages, ∀ e ∈ st.cohorts,
    e.2.Balanced (s.records.filter fun r => r.stage = st.name ∧ r.cohort = e.1)
  /-- A stage counts what its schedule plans. -/
  planned : ∀ st ∈ summary.arrival.stages, (st.counts.planned : ℤ) = st.rate * st.seconds
  /-- Cohorts add up to their stage and stages to the totals, in every number. -/
  cohort_sums : ∀ st ∈ summary.arrival.stages, ∀ f : Figure, (st.cohorts.map fun e => f.read e.2).sum = f.read st.counts
  stage_sums : ∀ f : Figure,
    (summary.arrival.stages.map fun st => f.read st.counts).sum = f.read summary.arrival.counts
  /-- Without a cancellation no job is lost: it was requested or dropped for a reason. -/
  settled : s.canceled = false → ∀ r ∈ s.records, r.Settled
  /-- The validator accepts the saved evidence with the same status. -/
  agrees : s.canceled = false → summary.arrival.counts.incorrect = 0 →
    validateEvidence summary.json (s.records.map Record.json) = some summary.arrival.status.text

section Accounting

variable {c : Config} {d : Distribution} {zipf : ℕ → ℕ} {s : State}

/-- The records of a run, one by one. -/
theorem Ledger.of_mem {jobs : List Job} (h : Ledger c jobs s) {r : Record} (hr : r ∈ s.records) :
    ∃ j ∈ jobs, r.Keeps c j := by
  obtain ⟨i, hi⟩ := List.mem_iff_getElem?.mp hr
  obtain ⟨j, hj, hkeeps, -⟩ := h.get hi
  exact ⟨j, List.mem_of_getElem? hj, hkeeps⟩

/-- What the records keep of the plan, as lists. -/
theorem Ledger.map_eq {β : Type} {jobs : List Job} (h : Ledger c jobs s) {f : Record → β} {g : Job → β}
    (hfg : ∀ j r, r.Keeps c j → f r = g j) : s.records.map f = jobs.map g := by
  apply List.ext_getElem?
  intro i
  rw [List.getElem?_map, List.getElem?_map]
  cases hj : jobs[i]? with
  | none =>
    rw [List.getElem?_eq_none_iff.mpr (by rw [h.length]; exact List.getElem?_eq_none_iff.mp hj)]
    rfl
  | some j =>
    obtain ⟨r, hr, hkeeps, -⟩ := h.records i j hj
    rw [hr, Option.map_some, Option.map_some, hfg j r hkeeps]

theorem Ledger.saved {jobs : List Job} (hnum : Numbered jobs) (h : Ledger c jobs s) : Saved s.records where
  index := by
    rw [h.map_eq fun _ _ hk => hk.index, h.length]
    apply List.ext_getElem?
    intro i
    rw [List.getElem?_map]
    cases hj : jobs[i]? with
    | none =>
      rw [Option.map_none, eq_comm, List.getElem?_eq_none_iff, List.length_range]
      exact List.getElem?_eq_none_iff.mp hj
    | some j =>
      rw [Option.map_some, hnum i j hj, List.getElem?_range (List.getElem?_eq_some_iff.mp hj).1]
  method r hr := by
    obtain ⟨j, -, hk⟩ := h.of_mem hr
    exact hk.method
  dispatched r hr := by
    obtain ⟨j, -, hk⟩ := h.of_mem hr
    exact hk.dispatched
  clean r hr := by
    obtain ⟨j, -, hk⟩ := h.of_mem hr
    exact hk.clean

theorem stageName_eq {k : ℕ} {st : RateStage} (hk : c.stages[k]? = some st) : c.stageName k = st.name := by
  rw [Config.stageName, hk]
  rfl

/-- The stage of every record is a stage of the configuration. -/
theorem stage_mem (hs : Schedule c d) (h : Ledger c (arrivalPlan c zipf) s) :
    ∀ r ∈ s.records, r.stage ∈ c.stages.map RateStage.name := by
  intro r hr
  obtain ⟨j, hj, hk⟩ := h.of_mem hr
  obtain ⟨st, hst, -⟩ := window_plan hs hj
  rw [hk.stage, stageName_eq hst]
  exact List.mem_map_of_mem (List.mem_of_getElem? hst)

/-- The records of a stage are those of the jobs of the stage. -/
theorem countP_stage (hs : Schedule c d) (h : Ledger c (arrivalPlan c zipf) s) {k : ℕ} {st : RateStage}
    (hk : c.stages[k]? = some st) : (s.records.countP fun r => r.stage = st.name) = st.requests := by
  have hmap : s.records.map Record.stage = (arrivalPlan c zipf).map fun j => c.stageName j.stage :=
    h.map_eq fun _ _ hk => hk.stage
  -- the names of the stages are different
  have hname : ∀ j ∈ arrivalPlan c zipf, c.stageName j.stage = st.name ↔ j.stage = k := by
    intro j hj
    obtain ⟨st', hst', -⟩ := window_plan hs hj
    refine ⟨fun heq => ?_, fun heq => by rw [heq, stageName_eq hk]⟩
    rw [stageName_eq hst'] at heq
    have hlt : j.stage < (c.stages.map RateStage.name).length := by
      rw [List.length_map]
      exact (List.getElem?_eq_some_iff.mp hst').1
    refine (List.getElem?_inj hlt hs.names).mp ?_
    rw [List.getElem?_map, List.getElem?_map, hst', hk, Option.map_some, Option.map_some, heq]
  calc (s.records.countP fun r => r.stage = st.name)
      = (s.records.map Record.stage).countP fun n => n = st.name := by rw [List.countP_map]; rfl
    _ = (arrivalPlan c zipf).countP fun j => c.stageName j.stage = st.name := by rw [hmap]; exact List.countP_map
    _ = (arrivalPlan c zipf).countP fun j => j.stage = k :=
        List.countP_congr fun j hj => by simpa using hname j hj
    _ = st.requests := countP_stage_plan hs zipf hk

theorem accounted (hs : Schedule c d) (hw : 1 ≤ c.workers) (h : Sound c (arrivalPlan c zipf) s) (hf : s.finished)
    (elapsed : ℤ) : Accounted c (arrivalPlan c zipf) s (summarize c s elapsed) := by
  have hsaved := h.ledger.saved (numbered_plan hs zipf)
  have hbalanced : ∀ p : Record → Bool, (arrivalCounts (s.records.filter p)).Balanced (s.records.filter p) := fun p =>
    balanced_arrivalCounts fun r hr => hsaved.dispatched r (List.mem_of_mem_filter hr)
  constructor
  case length => exact h.ledger.length
  case record =>
    intro i j hj
    obtain ⟨r, hr, hk, -⟩ := h.ledger.records i j hj
    exact ⟨r, hr, hk.index.trans (numbered_plan hs zipf i j hj), hk.stage, hk.cohort⟩
  case names =>
    show List.map _ (List.map _ _) = _
    rw [List.map_map]
    rfl
  case totals => exact balanced_arrivalCounts hsaved.dispatched
  case stages =>
    intro st hst
    obtain ⟨rs, -, rfl⟩ := List.mem_map.mp hst
    exact hbalanced _
  case cohorts =>
    intro st hst e he
    obtain ⟨rs, -, rfl⟩ := List.mem_map.mp hst
    rw [cohort_counts he]
    exact hbalanced _
  case planned =>
    intro st hst
    obtain ⟨rs, hrs, rfl⟩ := List.mem_map.mp hst
    obtain ⟨k, hk⟩ := List.mem_iff_getElem?.mp hrs
    have hsize : (stageReport s.records rs).counts.planned = s.records.countP fun r => r.stage = rs.name := by
      rw [List.countP_eq_length_filter]
      exact (hbalanced _).size
    rw [hsize, countP_stage hs h.ledger hk, (hs.stages rs hrs).requests_eq]
    rfl
  case cohort_sums =>
    intro st hst f
    obtain ⟨rs, -, rfl⟩ := List.mem_map.mp hst
    exact sum_cohorts f s.records rs
  case stage_sums => exact fun f => sum_stages f hs.names (stage_mem hs h.ledger)
  case settled => exact h.settled hw hf
  case agrees => exact validateEvidence_saved c elapsed hsaved

end Accounting

/-- **Arrival accounting partitions the plan and both checkers agree.**  For every validated arrival workload, every
dataset and every run, with any interleaving of the dispatcher, the workers, the outcomes of the requests and a
cancellation: a run that is not finished can go on, every step lowers the work to come, and a finished run is accounted
for. -/
theorem arrival_accounted {c : Config} {endpoint : Bool} {dataset : Except String Unit}
    (h : validate c endpoint dataset = .ok ()) (hs : c.scenario = ascii "arrival") (zipf : ℕ → ℕ) (fx : Fixture)
    {start : ℤ} {tr : List (Act × Unit)} {s : State}
    (hrun : Run (step c fx (arrivalPlan c zipf)) (State.begin c (arrivalPlan c zipf) start) tr s) :
    (¬ s.finished → ∃ a : Act, a ≠ .cancel ∧ (step c fx (arrivalPlan c zipf) s a).isSome) ∧
      (∀ a s' o, step c fx (arrivalPlan c zipf) s a = some (s', o) →
        s'.work (arrivalPlan c zipf) < s.work (arrivalPlan c zipf)) ∧
      (s.finished → ∀ elapsed, Accounted c (arrivalPlan c zipf) s (summarize c s elapsed)) := by
  obtain ⟨harrival, -, hworkers⟩ := validate_arrival h hs
  obtain ⟨d, hschedule⟩ := validateArrival_ok harrival
  have hsound : Sound c (arrivalPlan c zipf) s := sound_run (numbered_plan hschedule zipf) hrun
  refine ⟨run_goes_on hsound, fun a s' o hst => work_lt (move_of_step hst), fun hf elapsed => ?_⟩
  exact accounted hschedule hworkers hsound hf elapsed

/-- A workload of two requests in a second, one worker and room for one job. -/
def pair : Config where
  maxScheduleLagMillis := 0
  maxCatchUp := 0
  distribution := ascii "hit-miss"
  maxPending := 1
  stages := [⟨ascii "baseline", 2, 1⟩]
  host := ascii "cache.test"
  stem := ascii "bench"
  scenario := ascii "arrival"
  keys := 2
  valueBytes := 128
  reads := 1
  workers := 1
  thinkMillis := 0
  windows := 0
  durationSeconds := 0

/-- A dataset without values. -/
def noValues : Fixture := ⟨fun _ => [], fun _ _ => .error (ascii "no value"), fun _ => none⟩

/-- The first job is requested and fails, the second is dispatched too late. -/
def pairActs : List Act :=
  [.due 0, .check, .judge 0, .offer 0 none, .receive 0, .begin 0, .due 1, .fire, .reply 0 0 1 (.failed 1), .check,
    .judge (10 ^ 9), .leave, .close, .exit 0]

theorem pair_runs : (Lib.exec (step pair noValues (arrivalPlan pair fun _ => 0))
    (State.begin pair (arrivalPlan pair fun _ => 0) 0) pairActs).isSome = true := by rfl

/-- The state at the end of that run. -/
def pairEnd : State := ((Lib.exec (step pair noValues (arrivalPlan pair fun _ => 0))
  (State.begin pair (arrivalPlan pair fun _ => 0) 0) pairActs).get pair_runs).1

theorem arrival_accounted_pair : pairEnd.finished ∧
    Accounted pair (arrivalPlan pair fun _ => 0) pairEnd (summarize pair pairEnd 0) ∧
      validateEvidence (summarize pair pairEnd 0).json (pairEnd.records.map Record.json) =
        some (ascii "client-limited") := by
  have hvalid : validate pair true (.ok ()) = .ok () := rfl
  have hf : pairEnd.finished := by decide
  have haccounted := (arrival_accounted hvalid rfl (fun _ => 0) noValues (Lib.exec_get pair_runs)).2.2 hf 0
  exact ⟨hf, haccounted, haccounted.agrees rfl rfl⟩

end SimpleCache.Bench
