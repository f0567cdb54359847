import Mathlib.Algebra.Order.Floor.Ring
import Mathlib.Data.Rat.Floor
import SimpleCache.Bench.Custody
import SimpleCache.Lib.Counter

/-!
# Bench.Counts — the counts of an arrival run and its report (`arrivalCounts`, `runArrival`, `measurement/latency.go`)

Every number of `ArrivalCounts` is the number of records of one kind (`read_arrivalCounts`); partitions and sums over
stages and cohorts are then facts about counting in lists.
-/

namespace SimpleCache.Bench

open Go (ascii)
open Lib (Counter groupBy sumOver)

/-! ### Percentiles -/

/-- `measurement.Percentiles`. -/
structure Percentiles where
  count : ℕ := 0
  p50 : ℚ := 0
  p95 : ℚ := 0
  p99 : ℚ := 0
  deriving DecidableEq, Repr

/-- The nearest rank `int(math.Ceil(p*n)) - 1` among `n` values. -/
def rank (p : ℚ) (n : ℕ) : ℕ := ⌈p * n⌉.toNat - 1

/-- `measurement.Quantiles`. -/
def quantiles (values : List ℚ) : Percentiles :=
  if values.length = 0 then {}
  else
    let sorted := values.mergeSort (· ≤ ·)
    let rankOf := fun p => sorted.getD (rank p sorted.length) 0
    ⟨sorted.length, rankOf (1 / 2), rankOf (95 / 100), rankOf (99 / 100)⟩

/-! ### Counts -/

/-- `ArrivalCounts`. -/
structure ArrivalCounts where
  dispatched : ℕ := 0
  planned : ℕ := 0
  attempted : ℕ := 0
  success : ℕ := 0
  errors : ℕ := 0
  incorrect : ℕ := 0
  dropped : ℕ := 0
  dropReasons : Counter GoString := ∅
  statuses : Counter ℤ := ∅
  dispatch : Percentiles := {}
  queue : Percentiles := {}
  service : Percentiles := {}
  total : Percentiles := {}
  successLatency : Percentiles := {}
  errorLatency : Percentiles := {}

/-- The slices of latencies in `arrivalCounts`. -/
structure Samples where
  dispatch : List ℚ := []
  queue : List ℚ := []
  service : List ℚ := []
  total : List ℚ := []
  good : List ℚ := []
  bad : List ℚ := []

/-- The loop body of `arrivalCounts`. -/
def countRecord (a : ArrivalCounts × Samples) (r : Record) : ArrivalCounts × Samples :=
  let a :=
    if r.dispatched then
      ({ a.1 with dispatched := a.1.dispatched + 1 }, { a.2 with dispatch := a.2.dispatch ++ [r.dispatchMS] })
    else a
  if r.attempted = false then
    ({ a.1 with dropped := a.1.dropped + 1, dropReasons := a.1.dropReasons.bump r.dropReason }, a.2)
  else
    let counts := { a.1 with
      attempted := a.1.attempted + 1
      statuses := a.1.statuses.bump r.status
      incorrect := if r.incorrect then a.1.incorrect + 1 else a.1.incorrect
      errors := if r.error ≠ [] then a.1.errors + 1 else a.1.errors }
    let samples := { a.2 with
      queue := a.2.queue ++ [r.queueMS]
      service := a.2.service ++ [r.elapsedMS]
      total := a.2.total ++ [r.totalMS] }
    if r.error = [] ∧ r.incorrect = false then
      ({ counts with success := counts.success + 1 }, { samples with good := samples.good ++ [r.elapsedMS] })
    else (counts, { samples with bad := samples.bad ++ [r.elapsedMS] })

/-- `arrivalCounts`. -/
def arrivalCounts (records : List Record) : ArrivalCounts :=
  let a := records.foldl countRecord ({ planned := records.length }, {})
  { a.1 with
    dispatch := quantiles a.2.dispatch
    queue := quantiles a.2.queue
    service := quantiles a.2.service
    total := quantiles a.2.total
    successLatency := quantiles a.2.good
    errorLatency := quantiles a.2.bad }

/-- A number of `ArrivalCounts`. -/
inductive Figure
  | planned
  | dispatched
  | attempted
  | success
  | errors
  | incorrect
  | dropped
  | reason (text : GoString)
  | status (code : ℤ)

def Figure.read : Figure → ArrivalCounts → ℕ
  | .planned, c => c.planned
  | .dispatched, c => c.dispatched
  | .attempted, c => c.attempted
  | .success, c => c.success
  | .errors, c => c.errors
  | .incorrect, c => c.incorrect
  | .dropped, c => c.dropped
  | .reason text, c => c.dropReasons.get text
  | .status code, c => c.statuses.get code

/-- An attempted request with neither an error nor an incorrect value. -/
def Record.success (r : Record) : Bool := r.attempted && (r.error = [] && !r.incorrect)

/-- The records that a figure counts. -/
def Figure.counts : Figure → Record → Bool
  | .planned, _ => true
  | .dispatched, r => r.dispatched
  | .attempted, r => r.attempted
  | .success, r => r.success
  | .errors, r => r.attempted && r.error ≠ []
  | .incorrect, r => r.attempted && r.incorrect
  | .dropped, r => !r.attempted
  | .reason text, r => !r.attempted && r.dropReason = text
  | .status code, r => r.attempted && r.status = code

theorem planned_countRecord (a : ArrivalCounts × Samples) (r : Record) :
    (countRecord a r).1.planned = a.1.planned := by
  unfold countRecord
  grind

/-- One record adds one to the figures that count it. -/
theorem read_countRecord {f : Figure} (hf : f ≠ .planned) (a : ArrivalCounts × Samples) (r : Record) :
    f.read (countRecord a r).1 = f.read a.1 + if f.counts r then 1 else 0 := by
  cases f with
  | planned => exact absurd rfl hf
  | dispatched => unfold countRecord Figure.read Figure.counts; grind
  | attempted => unfold countRecord Figure.read Figure.counts; grind
  | success => unfold countRecord Figure.read Figure.counts Record.success; grind
  | errors => unfold countRecord Figure.read Figure.counts; grind
  | incorrect => unfold countRecord Figure.read Figure.counts; grind
  | dropped => unfold countRecord Figure.read Figure.counts; grind
  | reason text => unfold countRecord Figure.read Figure.counts; grind [Counter.get_bump]
  | status code => unfold countRecord Figure.read Figure.counts; grind [Counter.get_bump]

theorem totals_countRecord (a : ArrivalCounts × Samples) (r : Record) :
    (countRecord a r).1.dropReasons.total = a.1.dropReasons.total + (if r.attempted then 0 else 1) ∧
      (countRecord a r).1.statuses.total = a.1.statuses.total + if r.attempted then 1 else 0 := by
  unfold countRecord
  grind [Counter.total_bump]

theorem read_foldl {f : Figure} (hf : f ≠ .planned) (records : List Record) (a : ArrivalCounts × Samples) :
    f.read (records.foldl countRecord a).1 = f.read a.1 + records.countP f.counts := by
  induction records generalizing a with
  | nil => rfl
  | cons r records ih =>
    rw [List.foldl_cons, ih, read_countRecord hf, List.countP_cons]
    omega

/-- **Every figure of the counts is the number of the records of its kind.** -/
theorem read_arrivalCounts (f : Figure) (records : List Record) :
    f.read (arrivalCounts records) = records.countP f.counts := by
  have hstart : ∀ f : Figure, f ≠ .planned → f.read { planned := records.length } = 0 := by
    intro f hf
    cases f <;> first | rfl | exact absurd rfl hf
  by_cases hf : f = .planned
  · subst hf
    have hfold : ∀ (l : List Record) (a : ArrivalCounts × Samples),
        (l.foldl countRecord a).1.planned = a.1.planned := by
      intro l
      induction l with
      | nil => exact fun _ => rfl
      | cons r l ih => exact fun a => (ih _).trans (planned_countRecord a r)
    show (records.foldl countRecord _).1.planned = _
    rw [hfold]
    exact (List.countP_eq_length.mpr fun _ _ => rfl).symm
  · have hread : f.read (arrivalCounts records) =
        f.read (records.foldl countRecord ({ planned := records.length }, {})).1 := by
      cases f <;> rfl
    rw [hread, read_foldl hf, hstart f hf, Nat.zero_add]

/-- The drop reasons add up to the dropped records and the statuses to the attempted ones. -/
theorem totals_arrivalCounts (records : List Record) :
    (arrivalCounts records).dropReasons.total = records.countP (fun r => !r.attempted) ∧
      (arrivalCounts records).statuses.total = records.countP Record.attempted := by
  have hfold : ∀ (l : List Record) (a : ArrivalCounts × Samples),
      (l.foldl countRecord a).1.dropReasons.total = a.1.dropReasons.total + l.countP (fun r => !r.attempted) ∧
        (l.foldl countRecord a).1.statuses.total = a.1.statuses.total + l.countP Record.attempted := by
    intro l
    induction l with
    | nil => exact fun _ => ⟨rfl, rfl⟩
    | cons r l ih =>
      intro a
      obtain ⟨hreasons, hstatuses⟩ := ih (countRecord a r)
      obtain ⟨hreason, hstatus⟩ := totals_countRecord a r
      rw [List.foldl_cons, hreasons, hstatuses, hreason, hstatus, List.countP_cons, List.countP_cons]
      cases r.attempted <;> simp <;> omega
  obtain ⟨hreasons, hstatuses⟩ := hfold records ({ planned := records.length }, {})
  rw [Counter.total_empty, Nat.zero_add] at hreasons hstatuses
  exact ⟨hreasons, hstatuses⟩

/-! ### The counts of a group of records balance -/

/-- The counts partition a group of records. -/
structure ArrivalCounts.Balanced (counts : ArrivalCounts) (group : List Record) : Prop where
  size : counts.planned = group.length
  planned : counts.planned = counts.attempted + counts.dropped
  reasons : counts.dropReasons.total = counts.dropped
  statuses : counts.statuses.total = counts.attempted
  attempted_le : counts.attempted ≤ counts.dispatched
  dispatched_le : counts.dispatched ≤ counts.planned
  success : counts.success = group.countP Record.success

/-- **The counts of every group of records balance**, if what was attempted was dispatched. -/
theorem balanced_arrivalCounts {group : List Record} (h : ∀ r ∈ group, r.attempted = true → r.dispatched = true) :
    (arrivalCounts group).Balanced group := by
  have hplanned : (arrivalCounts group).planned = group.length :=
    (read_arrivalCounts .planned group).trans (List.countP_eq_length.mpr fun _ _ => rfl)
  have hattempted : (arrivalCounts group).attempted = group.countP Record.attempted :=
    read_arrivalCounts .attempted group
  have hdropped : (arrivalCounts group).dropped = group.countP fun r => !r.attempted :=
    read_arrivalCounts .dropped group
  have hdispatched : (arrivalCounts group).dispatched = group.countP Record.dispatched :=
    read_arrivalCounts .dispatched group
  obtain ⟨hreasons, hstatuses⟩ := totals_arrivalCounts group
  refine ⟨hplanned, ?_, by rw [hreasons, hdropped], by rw [hstatuses, hattempted], ?_, ?_,
    read_arrivalCounts .success group⟩
  · rw [hplanned, hattempted, hdropped]
    simpa using List.length_eq_countP_add_countP (l := group) Record.attempted
  · rw [hattempted, hdispatched]
    exact List.countP_mono_left h
  · rw [hdispatched, hplanned]
    exact List.countP_le_length

/-! ### The report -/

/-- `ArrivalStage`; the map of the cohorts is the list of its entries. -/
structure ArrivalStage where
  name : GoString
  rate : ℤ
  seconds : ℤ
  counts : ArrivalCounts
  cohorts : List (GoString × ArrivalCounts)

/-- The status of a report. -/
inductive Status
  | failed
  | clientLimited
  | completedWithErrors
  | passed
  deriving DecidableEq, Repr

def Status.text : Status → GoString
  | .failed => ascii "failed"
  | .clientLimited => ascii "client-limited"
  | .completedWithErrors => ascii "completed-with-errors"
  | .passed => ascii "passed"

/-- `ArrivalReport`, without the wall-clock times. -/
structure ArrivalReport where
  scheduler : GoString
  maxScheduleLagMillis : ℤ
  maxCatchUp : ℤ
  status : Status
  stages : List ArrivalStage
  counts : ArrivalCounts

/-- `Summary`, with the fields that an arrival run computes from its records. -/
structure Summary where
  planned : ℕ
  attempted : ℕ
  skipped : ℕ
  success : ℕ
  errors : ℕ
  incorrect : ℕ
  rejections : ℕ
  elapsedSeconds : ℚ
  successPerSecond : ℚ
  statusCounts : Counter ℤ
  latency : Percentiles
  readLatency : Percentiles
  arrival : ArrivalReport

/-- The loop body over the stages. -/
def stageReport (records : List Record) (s : RateStage) : ArrivalStage :=
  let subset := records.filter fun r => r.stage = s.name
  let groups := groupBy Record.cohort subset
  ⟨s.name, s.rate, s.seconds, arrivalCounts subset, groups.entries.map fun e => (e.1, arrivalCounts e.2)⟩

/-- The status of a run, from its counts and the context. -/
def arrivalStatus (counts : ArrivalCounts) (canceled : Bool) : Status :=
  if 0 < counts.incorrect ∨ canceled = true then .failed
  else if 0 < counts.dropped then .clientLimited
  else if 0 < counts.errors then .completedWithErrors
  else .passed

/-- The part of `runArrival` after `wg.Wait()`: the summary of the records after `elapsed` nanoseconds. -/
def summarize (c : Config) (s : State) (elapsed : ℤ) : Summary :=
  let counts := arrivalCounts s.records
  let report : ArrivalReport :=
    { scheduler := ascii "bounded-catch-up-v2"
      maxScheduleLagMillis := c.maxScheduleLagMillis
      maxCatchUp := catchUpLimit c
      status := arrivalStatus counts s.canceled
      stages := c.stages.map (stageReport s.records)
      counts := counts }
  let seconds : ℚ := elapsed / Go.second
  { planned := counts.planned
    attempted := counts.attempted
    skipped := counts.dropped
    success := counts.success
    errors := counts.errors
    incorrect := counts.incorrect
    rejections := counts.statuses.get 503
    elapsedSeconds := seconds
    successPerSecond := if 0 < seconds then counts.success / seconds else 0
    statusCounts := counts.statuses
    latency := counts.service
    readLatency := counts.service
    arrival := report }

/-- The error that `runArrival` returns with the summary. -/
def Summary.error (s : Summary) : Option GoString :=
  if s.arrival.status = .passed then none
  else some (ascii "arrival outcome: " ++ s.arrival.status.text ++ ascii "; raw evidence retained")

theorem arrivalStatus_eq_passed_iff (counts : ArrivalCounts) (canceled : Bool) :
    arrivalStatus counts canceled = .passed ↔
      canceled = false ∧ counts.incorrect = 0 ∧ counts.dropped = 0 ∧ counts.errors = 0 := by
  unfold arrivalStatus
  grind

/-- **No limited run is reported clean**: `runArrival` returns without an error exactly if the run was not canceled and
every planned request was attempted and answered with the right value. -/
theorem error_eq_none_iff (c : Config) (s : State) (elapsed : ℤ) : (summarize c s elapsed).error = none ↔
    s.canceled = false ∧ ∀ r ∈ s.records, r.success = true := by
  have hstatus : (summarize c s elapsed).error = none ↔ arrivalStatus (arrivalCounts s.records) s.canceled = .passed := by
    show (if arrivalStatus (arrivalCounts s.records) s.canceled = .passed then none else some _) = none ↔ _
    by_cases hp : arrivalStatus (arrivalCounts s.records) s.canceled = .passed <;> simp [hp]
  have hincorrect : (arrivalCounts s.records).incorrect = 0 ↔ _ :=
    (read_arrivalCounts .incorrect s.records).congr_left.trans List.countP_eq_zero
  have hdropped : (arrivalCounts s.records).dropped = 0 ↔ _ :=
    (read_arrivalCounts .dropped s.records).congr_left.trans List.countP_eq_zero
  have herrors : (arrivalCounts s.records).errors = 0 ↔ _ :=
    (read_arrivalCounts .errors s.records).congr_left.trans List.countP_eq_zero
  rw [hstatus, arrivalStatus_eq_passed_iff, hincorrect, hdropped, herrors, ← forall_and, ← forall_and]
  refine and_congr_right fun _ => forall_congr' fun r => ?_
  by_cases hr : r ∈ s.records
  · simp only [hr, true_imp_iff, Figure.counts, Record.success]
    grind
  · simp [hr]

/-- The counts of the cohorts of a stage add up to those of the stage. -/
theorem sum_cohorts (f : Figure) (records : List Record) (s : RateStage) :
    ((stageReport records s).cohorts.map fun e => f.read e.2).sum = f.read (stageReport records s).counts := by
  have hgroups := Lib.sumOver_groupBy Record.cohort f.counts (records.filter fun r => r.stage = s.name)
  show (List.map _ (List.map _ _)).sum = f.read (arrivalCounts _)
  rw [read_arrivalCounts, ← hgroups, sumOver, List.map_map]
  refine congrArg List.sum (List.map_congr_left fun e _ => ?_)
  exact read_arrivalCounts f e.2

/-- The counts of the stages add up to those of the run. -/
theorem sum_stages (f : Figure) {c : Config} {records : List Record} (hnames : (c.stages.map RateStage.name).Nodup)
    (hstage : ∀ r ∈ records, r.stage ∈ c.stages.map RateStage.name) :
    ((c.stages.map (stageReport records)).map fun s => f.read s.counts).sum = f.read (arrivalCounts records) := by
  rw [read_arrivalCounts, ← Lib.sum_countP_filter Record.stage f.counts hnames hstage, List.map_map, List.map_map]
  refine congrArg List.sum (List.map_congr_left fun s _ => ?_)
  exact read_arrivalCounts f _

/-- A cohort counts the records of the stage with its name. -/
theorem cohort_counts {records : List Record} {s : RateStage} {e : GoString × ArrivalCounts}
    (h : e ∈ (stageReport records s).cohorts) :
    e.2 = arrivalCounts (records.filter fun r => r.stage = s.name ∧ r.cohort = e.1) := by
  obtain ⟨g, hg, rfl⟩ := List.mem_map.mp h
  show arrivalCounts g.2 = _
  rw [Lib.eq_of_mem_groupBy Record.cohort hg, List.filter_filter]
  refine congrArg arrivalCounts (List.filter_congr fun r _ => ?_)
  simp [Bool.and_comm]

end SimpleCache.Bench
