import SimpleCache.Go.Int64
import Mathlib.Algebra.Order.BigOperators.Group.List

/-!
# Bench.Config — the options of an arrival workload and their validation (`bench/gateway/config.go`, `arrival.go`)

`validate` is `Validate`, with the outcome of the parse of the endpoint and of the check of the dataset as arguments.
`Schedule` is what `validateArrival` guarantees of an accepted configuration; the plan and the run use only that.
-/

namespace SimpleCache.Bench

open Go (ascii)

/-- `RateStage`. -/
structure RateStage where
  name : GoString
  rate : ℤ
  seconds : ℤ
  deriving DecidableEq, Repr

/-- `Config`, with the options that are validated or that an arrival run reads. -/
structure Config where
  maxScheduleLagMillis : ℤ
  maxCatchUp : ℤ
  distribution : GoString
  maxPending : ℤ
  stages : List RateStage
  host : GoString
  stem : GoString
  scenario : GoString
  keys : ℤ
  valueBytes : ℤ
  reads : ℤ
  workers : ℤ
  thinkMillis : ℤ
  windows : ℤ
  durationSeconds : ℤ
  deriving DecidableEq, Repr

/-- The arrival distributions. -/
inductive Distribution
  | hot
  | scan
  | zipf
  | hotScan
  | hitMiss
  | distinct
  deriving DecidableEq, Repr

def Distribution.name : Distribution → GoString
  | .hot => ascii "hot"
  | .scan => ascii "scan"
  | .zipf => ascii "zipf"
  | .hotScan => ascii "hot-scan"
  | .hitMiss => ascii "hit-miss"
  | .distinct => ascii "distinct"

/-- The case of a `switch` over the distributions that a text selects. -/
def Distribution.parse (s : GoString) : Option Distribution :=
  [.hot, .scan, .zipf, .hotScan, .hitMiss, .distinct].find? fun d => d.name = s

theorem Distribution.parse_name (d : Distribution) : parse d.name = some d := by
  cases d <;> rfl

/-! ### Validation -/

/-- The variables of the loop of `validateArrival` over the stages. -/
structure StageTotals where
  total : ℤ
  seconds : ℤ
  names : List GoString

/-- The loop of `validateArrival` over the stages.  At most 12 stages of at most 120 s at 10000 requests a second reach
it, so that the totals of the source do not wrap. -/
def validateStages : List RateStage → StageTotals → Except String StageTotals
  | [], t => .ok t
  | s :: rest, t =>
    if s.name = [] ∨ 48 < s.name.length ∨ s.name ∈ t.names ∨ s.rate < 1 ∨ 10000 < s.rate ∨ s.seconds < 1 ∨
        120 < s.seconds then
      .error "invalid arrival stage"
    else validateStages rest ⟨t.total + s.rate * s.seconds, t.seconds + s.seconds, s.name :: t.names⟩

/-- `validateArrival`. -/
def validateArrival (c : Config) : Except String Unit :=
  if c.maxScheduleLagMillis < 0 ∨ 50 < c.maxScheduleLagMillis ∨ c.maxCatchUp < 0 ∨ 64 < c.maxCatchUp then
    .error "arrival scheduler requires 0-50ms lag and 0-64 catch-up slots"
  else if c.stages.length = 0 ∨ 12 < c.stages.length ∨ c.maxPending < 0 ∨ 4096 < c.maxPending ∨ c.thinkMillis ≠ 0 ∨
      c.windows ≠ 0 ∨ c.durationSeconds ≠ 0 then
    .error "arrival requires 1-12 stages, 0-4096 pending slots and no closed-loop timing options"
  else
    match validateStages c.stages ⟨0, 0, []⟩ with
    | .error e => .error e
    | .ok t =>
      if 100000 < t.total ∨ 120 < t.seconds then .error "arrival exceeds 100000 requests or 120s schedule"
      else
        match Distribution.parse c.distribution with
        | none => .error "invalid arrival distribution"
        | some d =>
          if (d = .hotScan ∨ d = .hitMiss) ∧ c.keys < 2 then .error "mixed cohorts require at least two keys"
          else if d = .distinct ∧ c.keys < t.total then
            .error "distinct arrivals require at least one key per planned request"
          else .ok ()

/-- `Validate`.  `endpoint` says that the endpoint is the origin of a plain http URL, `dataset` is the outcome of
`validateDataset`. -/
def validate (c : Config) (endpoint : Bool) (dataset : Except String Unit) : Except String Unit :=
  if endpoint = false then .error "invalid endpoint"
  else if c.host = [] ∨ c.stem = [] ∨ 80 < c.stem.length ∨ c.keys < 1 ∨ 50000 < c.keys ∨ c.workers < 1 ∨
      128 < c.workers ∨ c.valueBytes < 128 ∨ 2 ^ 20 < c.valueBytes ∨ c.reads < 1 ∨ 1000000 < c.reads ∨
      c.thinkMillis < 0 ∨ 100 < c.thinkMillis ∨ c.windows < 0 ∨ 10000 < c.windows ∨ c.durationSeconds < 0 ∨
      120 < c.durationSeconds then
    .error "invalid bounded workload options"
  else if c.scenario ∉ ["warm-hot", "capacity", "zipf", "cold-key", "mixed", "ttl", "arrival"].map ascii then
    .error "invalid scenario"
  else if c.scenario = ascii "mixed" ∧ c.windows = 0 then .error "mixed workload requires windows"
  else if c.scenario = ascii "ttl" ∧ c.durationSeconds < 5 then .error "TTL workload requires a duration"
  else
    match
      if c.scenario = ascii "arrival" then validateArrival c
      else if c.distribution ≠ [] ∨ c.maxPending ≠ 0 ∨ c.maxScheduleLagMillis ≠ 0 ∨ c.maxCatchUp ≠ 0 then
        .error "arrival options require arrival scenario"
      else .ok () with
    | .error e => .error e
    | .ok () =>
      match dataset with
      | .error e => .error e
      | .ok () =>
        if c.scenario ≠ ascii "arrival" ∧ c.stages.length ≠ 0 then .error "stages require arrival scenario" else .ok ()

/-! ### What validation guarantees -/

/-- The requests that a list of stages plans. -/
def planned (stages : List RateStage) : ℤ := (stages.map fun s => s.rate * s.seconds).sum

/-- The seconds that a list of stages takes. -/
def duration (stages : List RateStage) : ℤ := (stages.map RateStage.seconds).sum

@[simp] theorem planned_nil : planned [] = 0 := rfl

@[simp] theorem planned_cons (s : RateStage) (rest : List RateStage) :
    planned (s :: rest) = s.rate * s.seconds + planned rest := List.sum_cons

@[simp] theorem duration_nil : duration [] = 0 := rfl

@[simp] theorem duration_cons (s : RateStage) (rest : List RateStage) :
    duration (s :: rest) = s.seconds + duration rest := List.sum_cons

/-- An accepted stage. -/
structure RateStage.Valid (s : RateStage) : Prop where
  rate : 1 ≤ s.rate ∧ s.rate ≤ 10000
  seconds : 1 ≤ s.seconds ∧ s.seconds ≤ 120

theorem duration_nonneg {stages : List RateStage} (h : ∀ s ∈ stages, s.Valid) : 0 ≤ duration stages := by
  refine List.sum_nonneg fun x hx => ?_
  obtain ⟨s, hs, rfl⟩ := List.mem_map.mp hx
  linarith [(h s hs).seconds.1]

/-- What `validateArrival` guarantees. -/
structure Schedule (c : Config) (d : Distribution) : Prop where
  stages : ∀ s ∈ c.stages, s.Valid
  names : (c.stages.map RateStage.name).Nodup
  planned : planned c.stages ≤ 100000
  duration : duration c.stages ≤ 120
  distribution : Distribution.parse c.distribution = some d
  maxPending : 0 ≤ c.maxPending
  mixed : d = .hotScan ∨ d = .hitMiss → 2 ≤ c.keys
  distinct : d = .distinct → Bench.planned c.stages ≤ c.keys

theorem validateStages_ok : ∀ {stages : List RateStage} {t t' : StageTotals}, validateStages stages t = .ok t' →
    (∀ s ∈ stages, s.Valid ∧ s.name ∉ t.names) ∧ (stages.map RateStage.name).Nodup ∧
      t'.total = t.total + planned stages ∧ t'.seconds = t.seconds + duration stages
  | [], t, t', h => by
    obtain rfl := Except.ok.inj h
    simp
  | s :: rest, t, t', h => by
    rw [validateStages] at h
    split_ifs at h with hbad
    simp only [not_or, not_lt] at hbad
    obtain ⟨-, -, hnew, hr1, hr2, hs1, hs2⟩ := hbad
    obtain ⟨hall, hnodup, htotal, hseconds⟩ := validateStages_ok h
    refine ⟨?_, ?_, by rw [htotal, planned_cons, add_assoc], by rw [hseconds, duration_cons, add_assoc]⟩
    · rw [List.forall_mem_cons]
      refine ⟨⟨⟨⟨hr1, hr2⟩, hs1, hs2⟩, hnew⟩, fun s' hs' => ⟨(hall s' hs').1, fun hmem => ?_⟩⟩
      exact (hall s' hs').2 (List.mem_cons_of_mem _ hmem)
    · rw [List.map_cons, List.nodup_cons]
      refine ⟨fun hmem => ?_, hnodup⟩
      obtain ⟨s', hs', hname⟩ := List.mem_map.mp hmem
      exact (hall s' hs').2 (hname ▸ List.mem_cons_self)

/-- **What `validateArrival` accepts.** -/
theorem validateArrival_ok {c : Config} (h : validateArrival c = .ok ()) : ∃ d, Schedule c d := by
  unfold validateArrival at h
  split_ifs at h with hlag hshape
  cases hst : validateStages c.stages ⟨0, 0, []⟩ with
  | error e => simp [hst] at h
  | ok t =>
    obtain ⟨hall, hnodup, htotal, hseconds⟩ := validateStages_ok hst
    rw [hst] at h
    simp only [zero_add] at h htotal hseconds
    split_ifs at h with hsize
    cases hd : Distribution.parse c.distribution with
    | none => simp [hd] at h
    | some d =>
      simp only [hd] at h
      split_ifs at h with hmixed hdistinct
      refine ⟨d, fun s hs => (hall s hs).1, hnodup, by omega, by omega, hd, by omega, fun hm => ?_, fun hm => ?_⟩
      · by_contra hlt
        exact hmixed ⟨hm, by omega⟩
      · by_contra hlt
        exact hdistinct ⟨hm, by omega⟩

/-- A validated arrival workload passes `validateArrival`, with keys and workers. -/
theorem validate_arrival {c : Config} {endpoint : Bool} {dataset : Except String Unit}
    (h : validate c endpoint dataset = .ok ()) (hs : c.scenario = ascii "arrival") :
    validateArrival c = .ok () ∧ 1 ≤ c.keys ∧ 1 ≤ c.workers := by
  have hstages : ¬(c.scenario ≠ ascii "arrival" ∧ c.stages.length ≠ 0) := fun hne => hne.1 hs
  unfold validate at h
  simp only [if_pos hs, if_neg hstages] at h
  split_ifs at h with hendpoint hbounds
  simp only [not_or, not_lt] at hbounds
  refine ⟨?_, hbounds.2.2.2.1, hbounds.2.2.2.2.2.1⟩
  cases ha : validateArrival c with
  | error e => simp [ha] at h
  | ok u => rfl

end SimpleCache.Bench
