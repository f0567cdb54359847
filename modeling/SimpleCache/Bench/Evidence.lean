import SimpleCache.Bench.Counts
import SimpleCache.Go.Json

/-!
# Bench.Evidence — the saved evidence and its validator (`writeArrival`, `tools/validation/gateway/arrival.py`)

A run is saved as a summary and a list of records, with the keys of the tags of `Record`, `Summary`, `ArrivalReport` and
`ArrivalCounts`; `omitempty` leaves out zero values.  `validateEvidence` is the Python `validate_evidence` over any saved
values: `none` is a failed assertion or an exception.
-/

namespace SimpleCache.Bench

open Go (ascii)
open Lib (Run)

/-! ### Saving -/

/-- An entry with `omitempty`. -/
def optional (present : Bool) (key : String) (v : Json) : List (String × Json) := if present then [(key, v)] else []

/-- The saved form of a record. -/
def Record.json (r : Record) : Json :=
  .obj (optional r.dispatched "dispatched" (.bool r.dispatched) ++
    (optional (r.dispatchMS ≠ 0) "dispatch_lag_ms" (.float r.dispatchMS) ++
    (optional (r.stage ≠ []) "stage" (.str r.stage) ++
    (optional (r.cohort ≠ []) "cohort" (.str r.cohort) ++
    (optional (r.scheduledMS ≠ 0) "scheduled_ms" (.float r.scheduledMS) ++
    (optional (r.queueMS ≠ 0) "queue_ms" (.float r.queueMS) ++
    (optional (r.totalMS ≠ 0) "total_ms" (.float r.totalMS) ++
    (optional (r.dropReason ≠ []) "drop_reason" (.str r.dropReason) ++
    (optional true "index" (.int r.index) ++
    (optional true "method" (.str r.method) ++
    (optional true "key_index" (.int r.keyIndex) ++
    (optional true "attempted" (.bool r.attempted) ++
    (optional true "status" (.int r.status) ++
    (optional true "elapsed_ms" (.float r.elapsedMS) ++
    (optional (r.node ≠ []) "node" (.str r.node) ++
    (optional (r.version ≠ 0) "version" (.int r.version) ++
    (optional (r.committedAtStart ≠ 0) "committed_at_start" (.int r.committedAtStart) ++
    (optional (r.error ≠ []) "error" (.str r.error) ++
    (optional true "incorrect" (.bool r.incorrect) ++
    optional true "stale_at_start" (.bool r.staleAtStart))))))))))))))))))))

/-- The saved form of the counts, without the maps and the percentiles. -/
def ArrivalCounts.json (c : ArrivalCounts) : Json :=
  .obj [("dispatched", .int c.dispatched), ("planned", .int c.planned), ("attempted", .int c.attempted),
    ("success", .int c.success), ("errors", .int c.errors), ("incorrect", .int c.incorrect),
    ("dropped", .int c.dropped)]

/-- The saved form of the report, without the stages. -/
def ArrivalReport.json (r : ArrivalReport) : Json :=
  .obj [("scheduler", .str r.scheduler), ("max_schedule_lag_ms", .int r.maxScheduleLagMillis),
    ("max_catch_up", .int r.maxCatchUp), ("status", .str r.status.text), ("counts", r.counts.json)]

/-- The saved form of the summary. -/
def Summary.json (s : Summary) : Json :=
  .obj [("arrival", s.arrival.json), ("planned", .int s.planned), ("attempted", .int s.attempted),
    ("skipped", .int s.skipped), ("success", .int s.success), ("errors", .int s.errors),
    ("incorrect", .int s.incorrect), ("http_503", .int s.rejections), ("elapsed_seconds", .float s.elapsedSeconds),
    ("success_per_second", .float s.successPerSecond)]

/-! ### The values of Python -/

/-- `v[key]` of a dict. -/
def item (v : Json) (key : String) : Option Json := if v.has key then some (v.field key) else none

/-- The number that a value is in a sum or a comparison of numbers. -/
def number : Json → Option ℚ
  | .bool b => some (if b then 1 else 0)
  | .int n => some n
  | .float x => some x
  | _ => none

/-- `v[key]` as a number. -/
def figure (v : Json) (key : String) : Option ℚ := item v key >>= number

/-- `bool(v)`; a missing key of `get` is `null`. -/
def truthy : Json → Bool
  | .null => false
  | .bool b => b
  | .int n => n ≠ 0
  | .float x => x ≠ 0
  | .str s => s ≠ []
  | .arr xs => !xs.isEmpty
  | .obj es => !es.isEmpty

/-- The numbers that a generator over the records yields. -/
def readAll (read : Json → Option ℚ) : List Json → Option (List ℚ)
  | [] => some []
  | x :: xs => do
    let a ← read x
    let as ← readAll read xs
    return a :: as

/-- `r['attempted'] and not r.get('error') and not r['incorrect']`. -/
def succeeded (r : Json) : Option ℚ := do
  let attempted ← item r "attempted"
  if truthy attempted then
    if truthy (r.field "error") then return 0
    else
      let incorrect ← item r "incorrect"
      return if truthy incorrect then 0 else 1
  else number attempted

/-- The assertions of `validate_evidence` about the status. -/
def checkStatus (status : GoString) (skipped errors : Json) : Option Unit := do
  guard (status ∈ ["passed", "client-limited", "completed-with-errors"].map ascii)
  if truthy skipped then guard (status = ascii "client-limited")
  else if truthy errors then guard (status = ascii "completed-with-errors")
  else guard (status = ascii "passed")

/-- The assertions of `validate_evidence` about the dispatched requests. -/
def checkDispatched (counts : Json) (records : List Json) (attempted planned : ℚ) : Option Unit :=
  if counts.has "dispatched" then do
    let dispatched ← figure counts "dispatched"
    let marks ← readAll (fun r => some (if truthy (r.field "dispatched") then 1 else 0)) records
    guard (dispatched = marks.sum ∧ attempted ≤ dispatched ∧ dispatched ≤ planned)
  else some ()

/-- `validate_evidence`. -/
def validateEvidence (summary : Json) (records : List Json) : Option GoString := do
  let planned ← figure summary "planned"
  guard (planned = records.length)
  let attempted ← figure summary "attempted"
  let skipped ← item summary "skipped"
  let skippedCount ← number skipped
  guard (attempted + skippedCount = planned)
  let attempts ← readAll (fun r => figure r "attempted") records
  guard (attempted = attempts.sum)
  let incorrect ← figure summary "incorrect"
  let wrong ← readAll (fun r => figure r "incorrect") records
  guard (incorrect = wrong.sum ∧ wrong.sum = 0)
  let errors ← item summary "errors"
  let errorCount ← number errors
  let failures ← readAll (fun r => some (if truthy (r.field "error") then 1 else 0)) records
  guard (errorCount = failures.sum)
  let success ← figure summary "success"
  let good ← readAll succeeded records
  guard (success = good.sum)
  guard (∀ r ∈ records, item r "method" = some (.str (ascii "GET")))
  let indices ← readAll (fun r => figure r "index") records
  guard (indices.mergeSort (· ≤ ·) = (List.range records.length).map fun i : ℕ => (i : ℚ))
  let arrival ← item summary "arrival"
  let counts := if arrival.has "counts" then arrival.field "counts" else .obj []
  checkDispatched counts records attempted planned
  let status ← item arrival "status" >>= Json.text
  checkStatus status skipped errors
  return status

/-! ### Reading back what was saved -/

theorem lookup_optional_ne {key key' : String} (h : key' ≠ key) (present : Bool) (v : Json)
    (rest : List (String × Json)) : Json.lookup (optional present key' v ++ rest) key = Json.lookup rest key := by
  cases present
  · rfl
  · exact if_neg h

theorem lookup_optional (present : Bool) (key : String) (v : Json) (rest : List (String × Json)) :
    Json.lookup (optional present key v ++ rest) key = if present then v else Json.lookup rest key := by
  cases present
  · rfl
  · exact if_pos rfl

theorem has_append (key : String) (es es' : List (String × Json)) :
    Json.has (.obj (es ++ es')) key = (Json.has (.obj es) key || Json.has (.obj es') key) := List.any_append

theorem has_optional (key : String) (v : Json) : Json.has (.obj (optional true key v)) key = true := by
  simp [Json.has, optional]

section Read

variable (r : Record)

/-- The entries that are always saved are read back. -/
theorem item_record : item r.json "attempted" = some (.bool r.attempted) ∧
    item r.json "incorrect" = some (.bool r.incorrect) ∧ item r.json "method" = some (.str r.method) ∧
      item r.json "index" = some (.int r.index) := by
  have hhas : Json.has r.json "attempted" = true ∧ Json.has r.json "incorrect" = true ∧
      Json.has r.json "method" = true ∧ Json.has r.json "index" = true := by
    simp only [Record.json, has_append, has_optional, Bool.or_true, Bool.true_or, and_self]
  have hfield : r.json.field "attempted" = .bool r.attempted ∧ r.json.field "incorrect" = .bool r.incorrect ∧
      r.json.field "method" = .str r.method ∧ r.json.field "index" = .int r.index := by
    simp only [Record.json, Json.field, lookup_optional_ne, lookup_optional, ne_eq, String.reduceEq, not_false_eq_true,
      if_true, and_self]
  simp only [item, hhas, hfield, if_true, and_self]

/-- An error is read as true exactly if there is one: the entry is left out otherwise. -/
theorem truthy_error : truthy (r.json.field "error") = decide (r.error ≠ []) := by
  have hfield : r.json.field "error" = if decide (r.error ≠ []) then .str r.error else .null := by
    simp only [Record.json, Json.field, lookup_optional_ne, lookup_optional, ne_eq, String.reduceEq, not_false_eq_true]
    rfl
  rw [hfield]
  by_cases he : r.error = [] <;> simp [he, truthy]

theorem truthy_dispatched : truthy (r.json.field "dispatched") = r.dispatched := by
  have hfield : r.json.field "dispatched" = if r.dispatched then .bool r.dispatched else .null := by
    simp only [Record.json, Json.field, lookup_optional_ne, lookup_optional, ne_eq, String.reduceEq, not_false_eq_true]
    rfl
  rw [hfield]
  cases r.dispatched <;> rfl

@[simp] theorem truthy_bool (b : Bool) : truthy (.bool b) = b := rfl

theorem succeeded_json : succeeded r.json = some (if r.success then 1 else 0) := by
  obtain ⟨hattempted, hincorrect, -⟩ := item_record r
  simp only [succeeded, hattempted, hincorrect, Option.bind_eq_bind, Option.bind_some, truthy_bool, truthy_error,
    Record.success]
  by_cases ha : r.attempted = true
  · by_cases he : r.error = [] <;> by_cases hi : r.incorrect = true <;> simp [ha, he, hi]
  · simp [ha, number]

end Read

/-- A generator that reads every saved record. -/
theorem readAll_json (read : Json → Option ℚ) (g : Record → ℚ) {records : List Record}
    (h : ∀ r ∈ records, read r.json = some (g r)) :
    readAll read (records.map Record.json) = some (records.map g) := by
  induction records with
  | nil => rfl
  | cons r records ih =>
    obtain ⟨hr, h⟩ := List.forall_mem_cons.mp h
    simp [readAll, hr, ih h]

theorem sum_ite_one (p : Record → Bool) (records : List Record) :
    (records.map fun r => if p r then (1 : ℚ) else 0).sum = records.countP p := by
  induction records with
  | nil => rfl
  | cons r records ih =>
    rw [List.map_cons, List.sum_cons, ih, List.countP_cons]
    cases p r <;> simp [add_comm]

/-! ### The validator accepts what was saved -/

/-- What the validator needs of the records of a run. -/
structure Saved (records : List Record) : Prop where
  index : records.map Record.index = List.range records.length
  method : ∀ r ∈ records, r.method = ascii "GET"
  dispatched : ∀ r ∈ records, r.attempted = true → r.dispatched = true
  clean : ∀ r ∈ records, r.attempted = false → r.error = [] ∧ r.incorrect = false

theorem checkStatus_text {counts : ArrivalCounts} (h : counts.incorrect = 0) :
    checkStatus (arrivalStatus counts false).text (.int counts.dropped) (.int counts.errors) = some () := by
  have hnot : ¬(0 < counts.incorrect ∨ false = true) := by simp [h]
  rw [arrivalStatus, if_neg hnot]
  by_cases hd : 0 < counts.dropped
  · rw [if_pos hd]
    have : truthy (.int counts.dropped) = true := by simp [truthy]; omega
    simp only [checkStatus, this]
    rfl
  · rw [if_neg hd]
    obtain hd : counts.dropped = 0 := by omega
    by_cases he : 0 < counts.errors
    · rw [if_pos he]
      have : truthy (.int counts.errors) = true := by simp [truthy]; omega
      simp only [checkStatus, hd, this]
      rfl
    · rw [if_neg he]
      obtain he : counts.errors = 0 := by omega
      rw [hd, he]
      rfl

@[simp] theorem number_nat (n : ℕ) : number (.int n) = some n := congrArg some (Int.cast_natCast n)

theorem guard_bind {β : Type} {p : Prop} [Decidable p] (h : p) (f : Unit → Option β) :
    Option.bind (guard p) f = f () := by
  simp [guard, h]

section Accept

variable {records : List Record}

/-- A sum over the saved records is the number of records that it sees. -/
theorem readAll_count (read : Json → Option ℚ) (p : Record → Bool)
    (h : ∀ r ∈ records, read r.json = some (if p r then 1 else 0)) :
    ∃ l, readAll read (records.map Record.json) = some l ∧ l.sum = records.countP p :=
  ⟨_, readAll_json read _ h, sum_ite_one p records⟩

theorem checkDispatched_saved (h : Saved records) :
    checkDispatched (arrivalCounts records).json (records.map Record.json) (arrivalCounts records).attempted
      (arrivalCounts records).planned = some () := by
  have hbal := balanced_arrivalCounts h.dispatched
  have hread : (arrivalCounts records).dispatched = records.countP Record.dispatched :=
    read_arrivalCounts .dispatched records
  obtain ⟨marks, hmarks, hsum⟩ := readAll_count (fun r => some (if truthy (r.field "dispatched") then 1 else 0))
    Record.dispatched fun r (_ : r ∈ records) => by rw [truthy_dispatched]
  have hfigure : figure (arrivalCounts records).json "dispatched" = some ((arrivalCounts records).dispatched : ℚ) :=
    number_nat _
  have hhas : (arrivalCounts records).json.has "dispatched" = true := rfl
  have hguard : ((arrivalCounts records).dispatched : ℚ) = marks.sum ∧
      ((arrivalCounts records).attempted : ℚ) ≤ (arrivalCounts records).dispatched ∧
        ((arrivalCounts records).dispatched : ℚ) ≤ (arrivalCounts records).planned :=
    ⟨by rw [hsum, hread], Nat.cast_le.mpr hbal.attempted_le, Nat.cast_le.mpr hbal.dispatched_le⟩
  rw [checkDispatched, if_pos hhas, hfigure, hmarks]
  exact if_pos hguard

/-- What was not attempted is not incorrect. -/
theorem Saved.incorrect_eq (h : Saved records) :
    (arrivalCounts records).incorrect = records.countP Record.incorrect := by
  refine (read_arrivalCounts .incorrect records).trans (List.countP_congr fun r hr => ?_)
  have hclean := h.clean r hr
  cases ha : r.attempted <;> simp_all [Figure.counts]

/-- What was not attempted has no error. -/
theorem Saved.errors_eq (h : Saved records) :
    (arrivalCounts records).errors = records.countP fun r => decide (r.error ≠ []) := by
  refine (read_arrivalCounts .errors records).trans (List.countP_congr fun r hr => ?_)
  have hclean := h.clean r hr
  cases ha : r.attempted <;> simp_all [Figure.counts]

theorem Saved.sorted_index (h : Saved records) : (records.map fun r => (r.index : ℚ)).mergeSort (· ≤ ·) =
    (List.range (records.map Record.json).length).map fun i : ℕ => (i : ℚ) := by
  have hcast : (records.map fun r => (r.index : ℚ)) = (List.range records.length).map fun i : ℕ => (i : ℚ) := by
    rw [← h.index, List.map_map]
    rfl
  rw [hcast, List.length_map, List.mergeSort_of_pairwise]
  rw [List.pairwise_map]
  exact List.pairwise_lt_range.imp fun hlt => by simpa using hlt.le

theorem Saved.methods (h : Saved records) :
    ∀ r ∈ records.map Record.json, item r "method" = some (.str (ascii "GET")) := by
  intro v hv
  obtain ⟨r, hr, rfl⟩ := List.mem_map.mp hv
  rw [(item_record r).2.2.1, h.method r hr]

/-- **The validator accepts the saved evidence of a run and returns its status**, if the run was not canceled and nothing
was incorrect. -/
theorem validateEvidence_saved (c : Config) {s : State} (elapsed : ℤ) (h : Saved s.records) (hc : s.canceled = false)
    (hi : (arrivalCounts s.records).incorrect = 0) :
    validateEvidence (summarize c s elapsed).json (s.records.map Record.json) =
      some (summarize c s elapsed).arrival.status.text := by
  have hbal := balanced_arrivalCounts h.dispatched
  obtain ⟨attempts, hattempts, hasum⟩ := readAll_count (fun r => figure r "attempted") Record.attempted
    fun r (_ : r ∈ s.records) => by rw [figure, (item_record r).1]; rfl
  obtain ⟨wrong, hwrong, hwsum⟩ := readAll_count (fun r => figure r "incorrect") Record.incorrect
    fun r (_ : r ∈ s.records) => by rw [figure, (item_record r).2.1]; rfl
  obtain ⟨failures, hfailures, hfsum⟩ := readAll_count (fun r => some (if truthy (r.field "error") then 1 else 0))
    (fun r => r.error ≠ []) fun r (_ : r ∈ s.records) => by rw [truthy_error]
  obtain ⟨good, hgood, hgsum⟩ := readAll_count succeeded Record.success
    fun r (_ : r ∈ s.records) => succeeded_json r
  have hindices := readAll_json (fun r => figure r "index") (fun r => (r.index : ℚ))
    fun r (_ : r ∈ s.records) => by rw [figure, (item_record r).2.2.2]; exact number_nat _
  have hplanned : figure (summarize c s elapsed).json "planned" = some ((arrivalCounts s.records).planned : ℚ) :=
    number_nat _
  have hattempted : figure (summarize c s elapsed).json "attempted" = some ((arrivalCounts s.records).attempted : ℚ) :=
    number_nat _
  have hskipped : item (summarize c s elapsed).json "skipped" = some (.int (arrivalCounts s.records).dropped) := rfl
  have hincorrect : figure (summarize c s elapsed).json "incorrect" = some ((arrivalCounts s.records).incorrect : ℚ) :=
    number_nat _
  have herrors : item (summarize c s elapsed).json "errors" = some (.int (arrivalCounts s.records).errors) := rfl
  have hsuccess : figure (summarize c s elapsed).json "success" = some ((arrivalCounts s.records).success : ℚ) :=
    number_nat _
  simp only [validateEvidence, hplanned, hattempted, hskipped, hincorrect, herrors, hsuccess, hattempts, hwrong,
    hfailures, hgood, hindices, Option.bind_eq_bind, Option.bind_some, Option.pure_def, number_nat]
  have harrival : item (summarize c s elapsed).json "arrival" = some (summarize c s elapsed).arrival.json := rfl
  rw [guard_bind (by rw [List.length_map, hbal.size]), guard_bind (by rw [hbal.planned, Nat.cast_add]),
    guard_bind (by rw [hasum]; exact congrArg _ (read_arrivalCounts .attempted s.records)),
    guard_bind ⟨by rw [hwsum, h.incorrect_eq], by rw [hwsum, ← h.incorrect_eq, hi, Nat.cast_zero]⟩,
    guard_bind (by rw [hfsum, h.errors_eq]), guard_bind (by rw [hgsum, hbal.success]), guard_bind h.methods,
    guard_bind h.sorted_index, harrival, Option.bind_some]
  -- the status is that of the counts, without a cancellation
  have hstatus := checkStatus_text hi
  rw [← hc] at hstatus
  have hcounts : checkDispatched (if (summarize c s elapsed).arrival.json.has "counts" then
      (summarize c s elapsed).arrival.json.field "counts" else .obj []) (s.records.map Record.json)
      (arrivalCounts s.records).attempted (arrivalCounts s.records).planned = some () := checkDispatched_saved h
  have htext : (item (summarize c s elapsed).arrival.json "status").bind Json.text =
    some (arrivalStatus (arrivalCounts s.records) s.canceled).text := rfl
  rw [hcounts, Option.bind_some, htext, Option.bind_some, hstatus]
  rfl

end Accept

end SimpleCache.Bench
