import SimpleCache.Bench.Config
import Mathlib.Data.List.Nodup
import Mathlib.Data.List.Range
import Mathlib.Data.Int.ModEq

/-!
# Bench.Plan — the arrival plan (`arrivalPlan` in `bench/gateway/arrival.go`)

`arrivalPlan` computes with wrapping 64-bit durations, `slots` is the schedule in exact arithmetic: for every stage in
turn, request `n` at the start of the stage plus `n / rate` seconds, rounded down to a nanosecond.  `arrivalPlan_eq` says
that for a validated configuration the plan is the list of the slots, numbered.  Times are then read off the slots, and
keys and cohorts off the number of the job alone.
-/

namespace SimpleCache.Bench

open Go (ascii second)

/-- `arrivalJob`, without the time of dispatch, which a run sets. -/
structure Job where
  index : ℕ
  key : ℤ
  stage : ℕ
  offset : ℤ
  cohort : GoString
  missing : Bool
  deriving DecidableEq, Repr

/-- The job that `arrivalPlan` appends at position `i`.  `zipf i` is the value of `z.Uint64()` at job `i`: under the
zipf distribution the generator is asked once for each job. -/
def arrivalJob (c : Config) (zipf : ℕ → ℕ) (i stage : ℕ) (offset : ℤ) : Job :=
  let j : Job := ⟨i, 0, stage, offset, c.distribution, false⟩
  match Distribution.parse c.distribution with
  | some .hot => { j with key := 0 }
  | some .scan => { j with key := (i : ℤ).tmod c.keys }
  | some .distinct => { j with key := (i : ℤ).tmod c.keys }
  | some .zipf => { j with key := Go.int64 (zipf i) }
  | some .hotScan =>
    if i % 2 = 0 then { j with cohort := ascii "hot" }
    else { j with cohort := ascii "scan", key := 1 + ((i / 2 : ℕ) : ℤ).tmod (c.keys - 1) }
  | some .hitMiss =>
    { j with
      key := ((i / 2 : ℕ) : ℤ).tmod c.keys
      missing := i % 2 = 1
      cohort := if i % 2 = 1 then ascii "missing" else ascii "existing" }
  | none => j

/-- The offset of request `n` of a stage, `base + time.Duration(n)*time.Second/time.Duration(s.Rate)`. -/
def stageOffset (base : ℤ) (s : RateStage) (n : ℕ) : ℤ :=
  Go.int64 (base + (Go.int64 (n * second)).tdiv s.rate)

/-- The loop of `arrivalPlan` over the requests of a stage. -/
def planStage (c : Config) (zipf : ℕ → ℕ) (stage : ℕ) (base : ℤ) (s : RateStage) (jobs : List Job) : List Job :=
  (List.range (Go.int64 (s.rate * s.seconds)).toNat).foldl
    (fun jobs n => jobs ++ [arrivalJob c zipf jobs.length stage (stageOffset base s n)]) jobs

/-- The loop of `arrivalPlan` over the stages. -/
def planStages (c : Config) (zipf : ℕ → ℕ) : ℕ → ℤ → List RateStage → List Job → List Job
  | _, _, [], jobs => jobs
  | stage, base, s :: rest, jobs =>
    planStages c zipf (stage + 1) (Go.int64 (base + Go.int64 (s.seconds * second))) rest
      (planStage c zipf stage base s jobs)

/-- `arrivalPlan`. -/
def arrivalPlan (c : Config) (zipf : ℕ → ℕ) : List Job := planStages c zipf 0 0 c.stages []

/-! ### The schedule in exact arithmetic -/

/-- The requests of a stage. -/
def RateStage.requests (s : RateStage) : ℕ := (s.rate * s.seconds).toNat

/-- The exact offset of request `n` of a stage that starts at second `t`. -/
def RateStage.due (s : RateStage) (t : ℤ) (n : ℕ) : ℤ := t * second + n * second / s.rate

/-- The slots of a stage: its number and the offset. -/
def RateStage.slots (s : RateStage) (stage : ℕ) (t : ℤ) : List (ℕ × ℤ) :=
  (List.range s.requests).map fun n => (stage, s.due t n)

/-- The slots of the stages from number `stage` and second `t` on. -/
def slots : ℕ → ℤ → List RateStage → List (ℕ × ℤ)
  | _, _, [] => []
  | stage, t, s :: rest => s.slots stage t ++ slots (stage + 1) (t + s.seconds) rest

namespace RateStage.Valid

variable {s : RateStage}

theorem requests_eq (h : s.Valid) : (s.requests : ℤ) = s.rate * s.seconds :=
  Int.toNat_of_nonneg (mul_nonneg (by linarith [h.rate.1]) (by linarith [h.seconds.1]))

theorem requests_le (h : s.Valid) : (s.requests : ℤ) ≤ 1200000 := by
  rw [h.requests_eq]
  calc s.rate * s.seconds ≤ 10000 * 120 :=
        mul_le_mul h.rate.2 h.seconds.2 (by linarith [h.seconds.1]) (by norm_num)
    _ = 1200000 := by norm_num

/-- Request `n` is due in second `m` of the stage exactly if it is one of the `rate` requests from `m * rate` on. -/
theorem due_mem_iff (h : s.Valid) (t m : ℤ) (n : ℕ) :
    ((t + m) * second ≤ s.due t n ∧ s.due t n < (t + m + 1) * second) ↔
      m * s.rate ≤ n ∧ n < (m + 1) * s.rate := by
  have hr : 0 < s.rate := by linarith [h.rate.1]
  have hsec : 0 < second := by decide
  have hlow : (t + m) * second ≤ s.due t n ↔ m * s.rate ≤ n := by
    rw [RateStage.due, add_mul, add_le_add_iff_left, Int.le_ediv_iff_mul_le hr,
      show m * second * s.rate = m * s.rate * second by ring]
    exact mul_le_mul_iff_left₀ hsec
  have hhigh : s.due t n < (t + m + 1) * second ↔ n < (m + 1) * s.rate := by
    rw [RateStage.due, add_assoc, add_mul, add_lt_add_iff_left, Int.ediv_lt_iff_lt_mul hr,
      show (m + 1) * second * s.rate = (m + 1) * s.rate * second by ring]
    exact mul_lt_mul_iff_left₀ hsec
  rw [hlow, hhigh]

theorem due_mono (h : s.Valid) (t : ℤ) {n n' : ℕ} (hn : n ≤ n') : s.due t n ≤ s.due t n' := by
  have hr : 0 < s.rate := by linarith [h.rate.1]
  refine add_le_add_right (Int.ediv_le_ediv hr ?_) _
  exact mul_le_mul_of_nonneg_right (Int.ofNat_le.mpr hn) (by decide)

theorem le_due (h : s.Valid) (t : ℤ) (n : ℕ) : t * second ≤ s.due t n := by
  have hr : 0 < s.rate := by linarith [h.rate.1]
  have : 0 ≤ (n : ℤ) * second / s.rate := Int.ediv_nonneg (mul_nonneg (by omega) (by decide)) hr.le
  unfold RateStage.due
  omega

/-- Every request of a stage is due before the stage ends. -/
theorem due_lt (h : s.Valid) (t : ℤ) {n : ℕ} (hn : n < s.requests) : s.due t n < (t + s.seconds) * second := by
  have hr : 0 < s.rate := by linarith [h.rate.1]
  have hn' : (n : ℤ) < s.rate * s.seconds := by rw [← h.requests_eq]; exact_mod_cast hn
  rw [RateStage.due, add_mul, add_lt_add_iff_left, Int.ediv_lt_iff_lt_mul hr,
    show s.seconds * second * s.rate = s.rate * s.seconds * second by ring]
  exact mul_lt_mul_of_pos_right hn' (by decide)

/-- A stage that starts in the first 120 seconds computes its offsets without overflow. -/
theorem stageOffset_eq (h : s.Valid) {t : ℤ} (h0 : 0 ≤ t) (ht : t ≤ 120) {n : ℕ} (hn : n < s.requests) :
    stageOffset (t * second) s n = s.due t n := by
  have hle := h.requests_le
  have hlow := h.le_due t n
  have hhigh := h.due_lt t hn
  have hs := h.seconds
  have hmul : Go.int64 (n * second) = n * second := by
    apply Go.int64_eq <;> unfold Go.maxInt64 second <;> omega
  rw [stageOffset, hmul, Int.tdiv_eq_ediv_of_nonneg (mul_nonneg (by omega) (by decide))]
  apply Go.int64_eq <;> unfold RateStage.due at hlow hhigh <;> unfold Go.maxInt64 second at * <;> omega

end RateStage.Valid

/-! ### The plan is the list of the slots -/

/-- Appending jobs numbered by their position is a numbered map. -/
theorem foldl_append_numbered {α β : Type*} (f : ℕ → α → β) (l : List α) (jobs : List β) :
    l.foldl (fun jobs x => jobs ++ [f jobs.length x]) jobs = jobs ++ l.mapIdx fun i x => f (jobs.length + i) x := by
  induction l generalizing jobs with
  | nil => simp
  | cons a l ih =>
    rw [List.foldl_cons, ih, List.mapIdx_cons, List.append_assoc]
    simp [Nat.add_assoc, Nat.add_comm 1]

theorem planStage_eq (c : Config) (zipf : ℕ → ℕ) (stage : ℕ) {s : RateStage} (h : s.Valid) {t : ℤ} (h0 : 0 ≤ t)
    (ht : t ≤ 120) (jobs : List Job) :
    planStage c zipf stage (t * second) s jobs =
      jobs ++ (s.slots stage t).mapIdx fun i x => arrivalJob c zipf (jobs.length + i) x.1 x.2 := by
  have hreq : Go.int64 (s.rate * s.seconds) = s.rate * s.seconds := by
    have := h.requests_le
    rw [← h.requests_eq]
    apply Go.int64_eq <;> unfold Go.maxInt64 <;> omega
  have hslots : (List.range s.requests).map (fun n => (stage, stageOffset (t * second) s n)) = s.slots stage t := by
    refine List.map_congr_left fun n hn => ?_
    rw [h.stageOffset_eq h0 ht (List.mem_range.mp hn)]
  rw [← hslots, ← foldl_append_numbered (fun (i : ℕ) (x : ℕ × ℤ) => arrivalJob c zipf i x.1 x.2), List.foldl_map,
    planStage, hreq]
  rfl

theorem planStages_eq (c : Config) (zipf : ℕ → ℕ) {stages : List RateStage} (h : ∀ s ∈ stages, s.Valid) (stage : ℕ)
    {t : ℤ} (h0 : 0 ≤ t) (ht : t + duration stages ≤ 120) (jobs : List Job) :
    planStages c zipf stage (t * second) stages jobs =
      jobs ++ (slots stage t stages).mapIdx fun i x => arrivalJob c zipf (jobs.length + i) x.1 x.2 := by
  induction stages generalizing stage t jobs with
  | nil => simp [planStages, slots]
  | cons s rest ih =>
    rw [List.forall_mem_cons] at h
    have hs := h.1.seconds
    have hrest := duration_nonneg h.2
    rw [duration_cons] at ht
    have hbase : Go.int64 (t * second + Go.int64 (s.seconds * second)) = (t + s.seconds) * second := by
      rw [Go.int64_eq (x := s.seconds * second), Go.int64_eq, add_mul] <;> unfold Go.maxInt64 second <;> omega
    rw [planStages, hbase, ih h.2 (stage + 1) (by omega) (by omega), planStage_eq c zipf stage h.1 h0 (by omega)]
    rw [slots, List.mapIdx_append, List.append_assoc, List.length_append, List.length_mapIdx]
    have hpos : ∀ i, jobs.length + (s.slots stage t).length + i = jobs.length + (i + (s.slots stage t).length) := by
      intro i
      omega
    simp only [hpos]

/-- **The plan is the schedule**: job `i` is at slot `i`, with the exact offset. -/
theorem arrivalPlan_eq {c : Config} {d : Distribution} (h : Schedule c d) (zipf : ℕ → ℕ) :
    arrivalPlan c zipf = (slots 0 0 c.stages).mapIdx fun i x => arrivalJob c zipf i x.1 x.2 := by
  have heq := planStages_eq c zipf h.stages 0 le_rfl (by have := h.duration; omega) []
  simpa [arrivalPlan] using heq

/-! ### The slots -/

section Slots

variable {stages : List RateStage}

theorem length_slots (h : ∀ s ∈ stages, s.Valid) (stage : ℕ) (t : ℤ) :
    ((slots stage t stages).length : ℤ) = planned stages := by
  induction stages generalizing stage t with
  | nil => rfl
  | cons s rest ih =>
    rw [List.forall_mem_cons] at h
    rw [slots, List.length_append, Nat.cast_add, ih h.2, planned_cons, RateStage.slots, List.length_map,
      List.length_range, h.1.requests_eq]

/-- A slot is that of a request of one of the stages, counted from the start of the stage. -/
theorem mem_slots {stage : ℕ} {t : ℤ} {x : ℕ × ℤ} (hx : x ∈ slots stage t stages) :
    ∃ k s n, stages[k]? = some s ∧ n < s.requests ∧ x = (stage + k, s.due (t + duration (stages.take k)) n) := by
  induction stages generalizing stage t with
  | nil => simp [slots] at hx
  | cons s rest ih =>
    rw [slots, List.mem_append] at hx
    obtain hx | hx := hx
    · obtain ⟨n, hn, rfl⟩ := List.mem_map.mp hx
      exact ⟨0, s, n, rfl, List.mem_range.mp hn, by simp⟩
    · obtain ⟨k, s', n, hk, hn, rfl⟩ := ih hx
      refine ⟨k + 1, s', n, hk, hn, ?_⟩
      rw [List.take_succ_cons, duration_cons, add_assoc t, Nat.add_assoc, Nat.add_comm 1]

theorem stage_le_of_mem_slots {stage : ℕ} {t : ℤ} {x : ℕ × ℤ} (hx : x ∈ slots stage t stages) : stage ≤ x.1 := by
  obtain ⟨k, s, n, -, -, rfl⟩ := mem_slots hx
  exact Nat.le_add_right _ _

/-- The slots with the number of a stage are the slots of that stage. -/
theorem filter_slots {k : ℕ} {s : RateStage} (hk : stages[k]? = some s) (stage : ℕ) (t : ℤ) :
    ((slots stage t stages).filter fun x => x.1 = stage + k) =
      s.slots (stage + k) (t + duration (stages.take k)) := by
  induction stages generalizing k stage t with
  | nil => simp at hk
  | cons s' rest ih =>
    rw [slots, List.filter_append]
    cases k with
    | zero =>
      obtain rfl : s' = s := by simpa using hk
      have hrest : (slots (stage + 1) (t + s'.seconds) rest).filter (fun x => x.1 = stage + 0) = [] := by
        rw [List.filter_eq_nil_iff]
        intro x hx
        have := stage_le_of_mem_slots hx
        simp only [decide_eq_true_eq]
        omega
      rw [hrest, List.append_nil, List.filter_eq_self.mpr]
      · simp
      · intro x hx
        obtain ⟨n, -, rfl⟩ := List.mem_map.mp hx
        simp
    | succ k =>
      have hfirst : (s'.slots stage t).filter (fun x => x.1 = stage + (k + 1)) = [] := by
        rw [List.filter_eq_nil_iff]
        intro x hx
        obtain ⟨n, -, rfl⟩ := List.mem_map.mp hx
        simp
      have hrest := ih (by simpa using hk) (stage + 1) (t + s'.seconds)
      rw [hfirst, List.nil_append, List.take_succ_cons, duration_cons, ← add_assoc t]
      rw [Nat.add_assoc, Nat.add_comm 1] at hrest
      exact hrest

/-- The offsets of the slots do not decrease. -/
theorem sorted_slots (h : ∀ s ∈ stages, s.Valid) (stage : ℕ) (t : ℤ) :
    (slots stage t stages).Pairwise fun x y => x.2 ≤ y.2 := by
  induction stages generalizing stage t with
  | nil => exact List.Pairwise.nil
  | cons s rest ih =>
    rw [List.forall_mem_cons] at h
    rw [slots, List.pairwise_append]
    refine ⟨?_, ih h.2 _ _, fun x hx y hy => ?_⟩
    · rw [RateStage.slots, List.pairwise_map]
      exact List.pairwise_lt_range.imp fun hlt => h.1.due_mono t hlt.le
    · -- a request of a later stage is due after this stage has ended
      obtain ⟨n, hn, rfl⟩ := List.mem_map.mp hx
      obtain ⟨k, s', n', hk, -, rfl⟩ := mem_slots hy
      have hlast := h.1.due_lt t (List.mem_range.mp hn)
      have hlater := (h.2 s' (List.mem_of_getElem? hk)).le_due (t + s.seconds + duration (rest.take k)) n'
      have hpast : 0 ≤ duration (rest.take k) :=
        duration_nonneg fun s'' hs'' => h.2 s'' (List.mem_of_mem_take hs'')
      refine le_trans hlast.le (le_trans ?_ hlater)
      exact mul_le_mul_of_nonneg_right (by omega) (by decide)

end Slots

/-! ### Whole seconds -/

/-- The numbers below `n` that lie in an interval of `b` numbers are `b`. -/
theorem countP_range {a b n : ℕ} (h : a + b ≤ n) : (List.range n).countP (fun i => a ≤ i ∧ i < a + b) = b := by
  obtain ⟨r, rfl⟩ := Nat.exists_eq_add_of_le h
  rw [List.range_add, List.range_add, List.countP_append, List.countP_append, List.countP_map, List.countP_map]
  have hbelow : (List.range a).countP (fun i => a ≤ i ∧ i < a + b) = 0 := by
    rw [List.countP_eq_zero]
    intro i hi
    have := List.mem_range.mp hi
    simp only [decide_eq_true_eq]
    omega
  have hinside : (List.range b).countP ((fun i => decide (a ≤ i ∧ i < a + b)) ∘ (a + ·)) = b := by
    conv_rhs => rw [← List.length_range (n := b)]
    rw [List.countP_eq_length]
    intro i hi
    have := List.mem_range.mp hi
    simp only [Function.comp_apply, decide_eq_true_eq]
    omega
  have habove : (List.range r).countP ((fun i => decide (a ≤ i ∧ i < a + b)) ∘ (a + b + ·)) = 0 := by
    rw [List.countP_eq_zero]
    intro i hi
    simp only [Function.comp_apply, decide_eq_true_eq]
    omega
  rw [hbelow, hinside, habove]
  omega

/-- Exactly `rate` slots of a stage are in each of its whole seconds. -/
theorem RateStage.Valid.countP_slots {s : RateStage} (h : s.Valid) (stage : ℕ) (t : ℤ) {m : ℤ} (h0 : 0 ≤ m)
    (hm : m < s.seconds) :
    ((s.slots stage t).countP fun x => (t + m) * second ≤ x.2 ∧ x.2 < (t + m + 1) * second : ℤ) = s.rate := by
  have hr := h.rate
  obtain ⟨a, ha⟩ := Int.eq_ofNat_of_zero_le (mul_nonneg h0 (by omega : 0 ≤ s.rate))
  obtain ⟨b, hb⟩ := Int.eq_ofNat_of_zero_le (by omega : 0 ≤ s.rate)
  have hnext : (m + 1) * s.rate = a + b := by rw [add_mul, one_mul, ha, hb]
  have hroom : a + b ≤ s.requests := by
    have hle : (m + 1) * s.rate ≤ s.seconds * s.rate := mul_le_mul_of_nonneg_right (by omega) (by omega)
    have hreq := h.requests_eq
    rw [mul_comm] at hreq
    omega
  have hcount := countP_range hroom
  rw [RateStage.slots, List.countP_map, hb, Nat.cast_inj]
  conv_rhs => rw [← hcount]
  refine List.countP_congr fun n _ => ?_
  have hiff := h.due_mem_iff t m n
  rw [ha, hnext] at hiff
  simp only [Function.comp_apply, decide_eq_true_eq, hiff]
  omega

/-! ### The jobs of a plan -/

section Jobs

variable {c : Config} {d : Distribution} {zipf : ℕ → ℕ}

@[simp] theorem arrivalJob_index (i stage : ℕ) (offset : ℤ) : (arrivalJob c zipf i stage offset).index = i := by
  unfold arrivalJob
  grind

@[simp] theorem arrivalJob_stage (i stage : ℕ) (offset : ℤ) : (arrivalJob c zipf i stage offset).stage = stage := by
  unfold arrivalJob
  grind

@[simp] theorem arrivalJob_offset (i stage : ℕ) (offset : ℤ) :
    (arrivalJob c zipf i stage offset).offset = offset := by
  unfold arrivalJob
  grind

/-- Stage and offset of the jobs are those of the slots. -/
theorem map_slot_plan (h : Schedule c d) (zipf : ℕ → ℕ) :
    (arrivalPlan c zipf).map (fun j => (j.stage, j.offset)) = slots 0 0 c.stages := by
  rw [arrivalPlan_eq h]
  apply List.ext_getElem?
  intro i
  cases hx : (slots 0 0 c.stages)[i]? <;> simp [hx]

theorem length_plan (h : Schedule c d) (zipf : ℕ → ℕ) : ((arrivalPlan c zipf).length : ℤ) = planned c.stages := by
  rw [arrivalPlan_eq h, List.length_mapIdx, length_slots h.stages]

/-- Job `i` is `arrivalJob` at `i`. -/
theorem getElem?_plan (h : Schedule c d) {i : ℕ} {j : Job} (hj : (arrivalPlan c zipf)[i]? = some j) :
    j = arrivalJob c zipf i j.stage j.offset := by
  rw [arrivalPlan_eq h, List.getElem?_mapIdx] at hj
  obtain ⟨x, -, rfl⟩ := Option.map_eq_some_iff.mp hj
  simp

theorem mem_plan (h : Schedule c d) {j : Job} (hj : j ∈ arrivalPlan c zipf) :
    j = arrivalJob c zipf j.index j.stage j.offset ∧ (j.index : ℤ) < planned c.stages := by
  obtain ⟨i, hi⟩ := List.mem_iff_getElem?.mp hj
  have hlt := (List.getElem?_eq_some_iff.mp hi).1
  have heq := getElem?_plan h hi
  have hindex : j.index = i := by rw [heq, arrivalJob_index]
  rw [hindex, ← length_plan h zipf]
  exact ⟨heq, by exact_mod_cast hlt⟩

theorem map_index_plan (h : Schedule c d) (zipf : ℕ → ℕ) :
    (arrivalPlan c zipf).map Job.index = List.range (planned c.stages).toNat := by
  have hlen := length_plan h zipf
  apply List.ext_getElem?
  intro i
  rw [List.getElem?_map]
  cases hj : (arrivalPlan c zipf)[i]? with
  | none =>
    have := List.getElem?_eq_none_iff.mp hj
    rw [Option.map_none, eq_comm, List.getElem?_eq_none_iff, List.length_range]
    omega
  | some j =>
    have := (List.getElem?_eq_some_iff.mp hj).1
    rw [getElem?_plan h hj, Option.map_some, arrivalJob_index, List.getElem?_range (by omega)]

/-- Under hot-scan the even jobs read the hot key. -/
theorem arrivalJob_hot (zipf : ℕ → ℕ) (hd : Distribution.parse c.distribution = some .hotScan) (m stage : ℕ) (offset : ℤ) :
    (arrivalJob c zipf (2 * m) stage offset).cohort = ascii "hot" ∧
      (arrivalJob c zipf (2 * m) stage offset).key = 0 := by
  rw [arrivalJob, hd]
  simp

/-- Under hot-scan the odd jobs scan the other keys. -/
theorem arrivalJob_scan (zipf : ℕ → ℕ) (hd : Distribution.parse c.distribution = some .hotScan) (m stage : ℕ) (offset : ℤ) :
    (arrivalJob c zipf (2 * m + 1) stage offset).cohort = ascii "scan" ∧
      (arrivalJob c zipf (2 * m + 1) stage offset).key = 1 + m % (c.keys - 1) := by
  have hhalf : (2 * m + 1) / 2 = m := by omega
  rw [arrivalJob, hd]
  simp [hhalf, Int.tmod_eq_emod_of_nonneg]

/-- Under hit-miss the even jobs read existing keys. -/
theorem arrivalJob_existing (zipf : ℕ → ℕ) (hd : Distribution.parse c.distribution = some .hitMiss) (m stage : ℕ) (offset : ℤ) :
    (arrivalJob c zipf (2 * m) stage offset).cohort = ascii "existing" ∧
      (arrivalJob c zipf (2 * m) stage offset).missing = false ∧
        (arrivalJob c zipf (2 * m) stage offset).key = m % c.keys := by
  rw [arrivalJob, hd]
  simp [Int.tmod_eq_emod_of_nonneg]

/-- Under hit-miss the odd jobs ask for missing keys. -/
theorem arrivalJob_missing (zipf : ℕ → ℕ) (hd : Distribution.parse c.distribution = some .hitMiss) (m stage : ℕ) (offset : ℤ) :
    (arrivalJob c zipf (2 * m + 1) stage offset).cohort = ascii "missing" ∧
      (arrivalJob c zipf (2 * m + 1) stage offset).missing = true ∧
        (arrivalJob c zipf (2 * m + 1) stage offset).key = m % c.keys := by
  have hhalf : (2 * m + 1) / 2 = m := by omega
  rw [arrivalJob, hd]
  simp [hhalf, Int.tmod_eq_emod_of_nonneg]

/-- The key of a job is in range. -/
theorem arrivalJob_key_mem (h : Schedule c d) (hk : 1 ≤ c.keys) (hint : c.keys ≤ Go.maxInt64)
    (hz : ∀ i, (zipf i : ℤ) ≤ c.keys - 1) (i stage : ℕ) (offset : ℤ) :
    0 ≤ (arrivalJob c zipf i stage offset).key ∧ (arrivalJob c zipf i stage offset).key < c.keys := by
  have hpos : 0 < c.keys := by omega
  have hd := h.distribution
  have hmod : ∀ n : ℕ, 0 ≤ (n : ℤ).tmod c.keys ∧ (n : ℤ).tmod c.keys < c.keys := by
    intro n
    exact ⟨Int.tmod_nonneg _ (by omega), Int.tmod_lt_of_pos _ hpos⟩
  cases d with
  | hot => rw [arrivalJob, hd]; exact ⟨le_rfl, hpos⟩
  | scan => rw [arrivalJob, hd]; exact hmod i
  | distinct => rw [arrivalJob, hd]; exact hmod i
  | hitMiss => rw [arrivalJob, hd]; exact hmod (i / 2)
  | zipf =>
    have := hz i
    have hfits : Go.int64 (zipf i) = zipf i := Go.int64_eq (by unfold Go.maxInt64; omega) (by omega)
    rw [arrivalJob, hd]
    simp only [hfits]
    omega
  | hotScan =>
    have htwo := h.mixed (Or.inl rfl)
    obtain ⟨m, rfl | rfl⟩ := Nat.even_or_odd' i
    · rw [(arrivalJob_hot zipf hd m stage offset).2]
      omega
    · rw [(arrivalJob_scan zipf hd m stage offset).2]
      have := Int.emod_nonneg (m : ℤ) (by omega : c.keys - 1 ≠ 0)
      have := Int.emod_lt_of_pos (m : ℤ) (by omega : 0 < c.keys - 1)
      omega

/-- Under distinct every job has the key of its number. -/
theorem arrivalJob_distinct (h : Schedule c .distinct) {i : ℕ} (hi : (i : ℤ) < planned c.stages) (stage : ℕ)
    (offset : ℤ) : (arrivalJob c zipf i stage offset).key = i := by
  have hkeys := h.distinct rfl
  rw [arrivalJob, h.distribution]
  show (i : ℤ).tmod c.keys = i
  rw [Int.tmod_eq_emod_of_nonneg (by omega), Int.emod_eq_of_lt (by omega) (by omega)]

end Jobs

/-- Any `p` consecutive numbers hit a residue exactly once. -/
theorem existsUnique_emod {p r : ℤ} (h0 : 0 ≤ r) (hr : r < p) (a : ℕ) :
    ∃! m : ℕ, a ≤ m ∧ (m : ℤ) < a + p ∧ (m : ℤ) % p = r := by
  have hshift := Int.emod_nonneg (r - a) (by omega : p ≠ 0)
  have hlt := Int.emod_lt_of_pos (r - a) (by omega : 0 < p)
  refine ⟨a + ((r - a) % p).toNat, ⟨by omega, by omega, ?_⟩, ?_⟩
  · rw [Nat.cast_add, Int.toNat_of_nonneg hshift, Int.add_emod_emod, add_sub_cancel, Int.emod_eq_of_lt h0 hr]
  · rintro m ⟨ham, hmp, hm⟩
    have hsame : (r - a) % p = m - a := by
      rw [← hm, Int.emod_sub_emod, Int.emod_eq_of_lt (by omega) (by omega)]
    omega

/-! ### The plan realizes the schedule -/

/-- The second at which stage `k` starts. -/
def Config.start (c : Config) (k : ℕ) : ℤ := duration (c.stages.take k)

/-- **What it means that a plan realizes the schedule of its configuration.** -/
structure Realizes (c : Config) (jobs : List Job) : Prop where
  /-- One job for each planned request, numbered in order. -/
  index : jobs.map Job.index = List.range (planned c.stages).toNat
  /-- The offsets do not decrease. -/
  sorted : (jobs.map Job.offset).Pairwise (· ≤ ·)
  /-- The offsets of a stage are those of exact arithmetic. -/
  exact : ∀ k s, c.stages[k]? = some s →
    (jobs.filter fun j => j.stage = k).map Job.offset = (List.range s.requests).map (s.due (c.start k))
  /-- No value on the way to an offset leaves the range of an `int64`. -/
  range : ∀ k s, c.stages[k]? = some s → ∀ n : ℕ, n < s.requests → (c.start k + s.seconds) * second ≤ Go.maxInt64 ∧
    n * second ≤ Go.maxInt64 ∧ 0 ≤ s.due (c.start k) n ∧ s.due (c.start k) n ≤ Go.maxInt64
  /-- Every job is in the window of its stage. -/
  window : ∀ j ∈ jobs, ∃ s, c.stages[j.stage]? = some s ∧
    c.start j.stage * second ≤ j.offset ∧ j.offset < (c.start j.stage + s.seconds) * second
  /-- In every whole second of a stage there are exactly `rate` jobs of the stage. -/
  rate : ∀ k s, c.stages[k]? = some s → ∀ m, 0 ≤ m → m < s.seconds →
    (((jobs.filter fun j => j.stage = k).countP fun j =>
      (c.start k + m) * second ≤ j.offset ∧ j.offset < (c.start k + m + 1) * second : ℕ) : ℤ) = s.rate
  keys : ∀ j ∈ jobs, 0 ≤ j.key ∧ j.key < c.keys
  distinct : c.distribution = ascii "distinct" → (jobs.map Job.key).Nodup
  /-- The even jobs read the hot key and the odd ones never do; any `keys - 1` odd jobs in a row read every other key
  once. -/
  hotScan : c.distribution = ascii "hot-scan" →
    (∀ m j, jobs[2 * m]? = some j → j.cohort = ascii "hot" ∧ j.key = 0) ∧
    (∀ m j, jobs[2 * m + 1]? = some j → j.cohort = ascii "scan" ∧ j.key ≠ 0) ∧
    ∀ a : ℕ, 2 * (a + (c.keys - 1)) ≤ jobs.length → ∀ key, 1 ≤ key → key < c.keys →
      ∃! m : ℕ, a ≤ m ∧ (m : ℤ) < a + (c.keys - 1) ∧ ∃ j, jobs[2 * m + 1]? = some j ∧ j.key = key
  /-- Requests for an existing and a missing key alternate, each pair on the next key of the cycle. -/
  hitMiss : c.distribution = ascii "hit-miss" →
    (∀ (m : ℕ) (j : Job), jobs[2 * m]? = some j →
      j.cohort = ascii "existing" ∧ j.missing = false ∧ j.key = m % c.keys) ∧
    ∀ (m : ℕ) (j : Job), jobs[2 * m + 1]? = some j →
      j.cohort = ascii "missing" ∧ j.missing = true ∧ j.key = m % c.keys

section Realizes

variable {c : Config} {d : Distribution} {zipf : ℕ → ℕ}

theorem start_nonneg (h : Schedule c d) (k : ℕ) : 0 ≤ c.start k :=
  duration_nonneg fun s hs => h.stages s (List.mem_of_mem_take hs)

/-- Every stage ends within the 120 seconds. -/
theorem stage_end_le (h : Schedule c d) {k : ℕ} {s : RateStage} (hk : c.stages[k]? = some s) :
    c.start k + s.seconds ≤ 120 := by
  have hsplit : c.stages = c.stages.take k ++ s :: c.stages.drop (k + 1) := by
    obtain ⟨hlt, rfl⟩ := List.getElem?_eq_some_iff.mp hk
    rw [List.getElem_cons_drop, List.take_append_drop]
  have hrest : 0 ≤ duration (c.stages.drop (k + 1)) :=
    duration_nonneg fun s' hs' => h.stages s' (List.mem_of_mem_drop hs')
  have htotal : duration c.stages = c.start k + (s.seconds + duration (c.stages.drop (k + 1))) := by
    conv_lhs => rw [hsplit]
    rw [duration, List.map_append, List.sum_append, List.map_cons, List.sum_cons]
    rfl
  have := h.duration
  omega

/-- The jobs of a stage are at the slots of that stage. -/
theorem map_slot_stage (h : Schedule c d) (zipf : ℕ → ℕ) {k : ℕ} {s : RateStage} (hk : c.stages[k]? = some s) :
    ((arrivalPlan c zipf).filter fun j => j.stage = k).map (fun j => (j.stage, j.offset)) =
      s.slots k (c.start k) := by
  have hslots := filter_slots hk 0 0
  rw [← map_slot_plan h zipf, List.filter_map] at hslots
  simpa [Config.start, Function.comp_def] using hslots

/-- Every job belongs to a stage and is due in its window. -/
theorem window_plan (h : Schedule c d) {j : Job} (hj : j ∈ arrivalPlan c zipf) : ∃ s, c.stages[j.stage]? = some s ∧
    c.start j.stage * second ≤ j.offset ∧ j.offset < (c.start j.stage + s.seconds) * second := by
  have hmem : (j.stage, j.offset) ∈ slots 0 0 c.stages := by
    rw [← map_slot_plan h zipf]
    exact List.mem_map_of_mem hj
  obtain ⟨k, s, n, hk, hn, heq⟩ := mem_slots hmem
  rw [zero_add, zero_add, Prod.mk.injEq] at heq
  rw [heq.1, heq.2]
  have hs := h.stages s (List.mem_of_getElem? hk)
  exact ⟨s, hk, hs.le_due _ n, hs.due_lt _ hn⟩

/-- A stage has as many jobs as it plans. -/
theorem countP_stage_plan (h : Schedule c d) (zipf : ℕ → ℕ) {k : ℕ} {s : RateStage} (hk : c.stages[k]? = some s) :
    ((arrivalPlan c zipf).countP fun j => j.stage = k) = s.requests := by
  have hlen := congrArg List.length (map_slot_stage h zipf hk)
  rw [List.length_map, RateStage.slots, List.length_map, List.length_range] at hlen
  rw [List.countP_eq_length_filter, hlen]

/-- The keys of the odd jobs under hot-scan: never the hot one, and all others in turn. -/
theorem scan_cycle (h : Schedule c .hotScan) {a : ℕ} {key : ℤ}
    (hlen : 2 * (a + (c.keys - 1)) ≤ (arrivalPlan c zipf).length) (h1 : 1 ≤ key) (hkey : key < c.keys) :
    ∃! m : ℕ, a ≤ m ∧ (m : ℤ) < a + (c.keys - 1) ∧
      ∃ j, (arrivalPlan c zipf)[2 * m + 1]? = some j ∧ j.key = key := by
  obtain ⟨m, ⟨ham, hmp, hm⟩, huniq⟩ := existsUnique_emod (r := key - 1) (p := c.keys - 1) (by omega) (by omega) a
  have hkey_of : ∀ {m : ℕ} {j : Job}, (arrivalPlan c zipf)[2 * m + 1]? = some j →
      j.key = 1 + m % (c.keys - 1) := by
    intro m j hj
    rw [getElem?_plan h hj]
    exact (arrivalJob_scan zipf h.distribution m j.stage j.offset).2
  refine ⟨m, ⟨ham, hmp, ?_⟩, ?_⟩
  · have hlt : 2 * m + 1 < (arrivalPlan c zipf).length := by omega
    refine ⟨_, List.getElem?_eq_getElem hlt, ?_⟩
    rw [hkey_of (List.getElem?_eq_getElem hlt), hm]
    omega
  · rintro m' ⟨ham', hmp', j, hj, rfl⟩
    exact huniq m' ⟨ham', hmp', by rw [hkey_of hj]; omega⟩

end Realizes

/-- **The arrival plan realizes its schedule.**  For every configuration that `validateArrival` accepts and every Zipf
generator within its bound, `arrivalPlan` returns one job per planned request, at the exact times of the schedule and
with the keys of its distribution.  `hint` says that `Keys` is an `int`. -/
theorem arrivalPlan_realizes {c : Config} (h : validateArrival c = .ok ()) (hk : 1 ≤ c.keys)
    (hint : c.keys ≤ Go.maxInt64) {zipf : ℕ → ℕ} (hz : ∀ i, (zipf i : ℤ) ≤ c.keys - 1) :
    Realizes c (arrivalPlan c zipf) := by
  obtain ⟨d, hs⟩ := validateArrival_ok h
  have hvalid : ∀ {k : ℕ} {s : RateStage}, c.stages[k]? = some s → s.Valid := fun hk =>
    hs.stages _ (List.mem_of_getElem? hk)
  -- the distribution of the text is the one that was validated
  have hdist : ∀ d', c.distribution = Distribution.name d' → d = d' := by
    intro d' hd'
    have hparse := hs.distribution
    rw [hd', Distribution.parse_name, Option.some.injEq] at hparse
    exact hparse.symm
  constructor
  case index => exact map_index_plan hs zipf
  case sorted =>
    have hsorted := sorted_slots hs.stages 0 0
    rw [← map_slot_plan hs zipf, List.pairwise_map] at hsorted
    exact List.pairwise_map.mpr hsorted
  case exact =>
    intro k s hk
    have hslots := congrArg (List.map Prod.snd) (map_slot_stage hs zipf hk)
    simpa [RateStage.slots, Function.comp_def] using hslots
  case range =>
    intro k s hk n hn
    have hstart := start_nonneg hs k
    have hend := stage_end_le hs hk
    have hlow := (hvalid hk).le_due (c.start k) n
    have hhigh := (hvalid hk).due_lt (c.start k) hn
    have hreq := (hvalid hk).requests_le
    unfold Go.maxInt64 second at *
    omega
  case window => exact fun j hj => window_plan hs hj
  case rate =>
    intro k s hk m h0 hm
    have hcount := (hvalid hk).countP_slots k (c.start k) h0 hm
    rw [← map_slot_stage hs zipf hk, List.countP_map] at hcount
    exact hcount
  case keys =>
    intro j hj
    rw [(mem_plan hs hj).1]
    exact arrivalJob_key_mem hs hk hint hz _ _ _
  case distinct =>
    intro hd
    obtain rfl := hdist .distinct hd
    have hkeys : (arrivalPlan c zipf).map Job.key = ((arrivalPlan c zipf).map Job.index).map Nat.cast := by
      rw [List.map_map]
      refine List.map_congr_left fun j hj => ?_
      obtain ⟨heq, hlt⟩ := mem_plan hs hj
      rw [heq, arrivalJob_distinct hs hlt]
      simp
    rw [hkeys, map_index_plan hs zipf]
    exact List.Nodup.map Nat.cast_injective List.nodup_range
  case hotScan =>
    intro hd
    obtain rfl := hdist .hotScan hd
    refine ⟨?_, ?_, fun a hlen key h1 hkey => scan_cycle hs hlen h1 hkey⟩
    · intro m j hj
      rw [getElem?_plan hs hj]
      exact arrivalJob_hot zipf hs.distribution m _ _
    · intro m j hj
      have htwo := hs.mixed (Or.inl rfl)
      have hmod := Int.emod_nonneg (m : ℤ) (by omega : c.keys - 1 ≠ 0)
      rw [getElem?_plan hs hj]
      obtain ⟨hcohort, hkey⟩ := arrivalJob_scan zipf hs.distribution m j.stage j.offset
      exact ⟨hcohort, by omega⟩
  case hitMiss =>
    intro hd
    obtain rfl := hdist .hitMiss hd
    refine ⟨fun m j hj => ?_, fun m j hj => ?_⟩
    · rw [getElem?_plan hs hj]
      exact arrivalJob_existing zipf hs.distribution m _ _
    · rw [getElem?_plan hs hj]
      exact arrivalJob_missing zipf hs.distribution m _ _

/-- A hot-scan workload over three keys, with a rate that does not divide a second. -/
def ramp : Config where
  maxScheduleLagMillis := 0
  maxCatchUp := 0
  distribution := ascii "hot-scan"
  maxPending := 8
  stages := [⟨ascii "ramp", 3, 1⟩, ⟨ascii "hold", 7, 2⟩]
  host := ascii "cache.test"
  stem := ascii "bench"
  scenario := ascii "arrival"
  keys := 3
  valueBytes := 128
  reads := 1
  workers := 2
  thinkMillis := 0
  windows := 0
  durationSeconds := 0

theorem arrivalPlan_realizes_ramp : validateArrival ramp = .ok () ∧ Realizes ramp (arrivalPlan ramp fun _ => 2) :=
  ⟨rfl, arrivalPlan_realizes rfl (by decide) (by decide) fun _ => by decide⟩

end SimpleCache.Bench
