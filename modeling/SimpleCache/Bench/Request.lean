import Mathlib.Data.Rat.Defs
import SimpleCache.Bench.Config

/-!
# Bench.Request — the record of a request (`bench/gateway/records.go`, `client.go`)

`requestExpected` is the function of that name for a GET, the only method of an arrival run.  What the network gives is
an `Exchange`; the dataset that the answer is compared with is a `Fixture`.
-/

namespace SimpleCache.Bench

open Go (ascii)

/-- `float64(d) / float64(time.Millisecond)`, without the rounding of the quotient. -/
def ms (d : ℤ) : ℚ := d / Go.millisecond

/-- `Record`. -/
structure Record where
  dispatched : Bool := false
  dispatchMS : ℚ := 0
  stage : GoString := []
  cohort : GoString := []
  scheduledMS : ℚ := 0
  queueMS : ℚ := 0
  totalMS : ℚ := 0
  dropReason : GoString := []
  index : ℕ := 0
  method : GoString := []
  keyIndex : ℤ := 0
  attempted : Bool := false
  status : ℤ := 0
  elapsedMS : ℚ := 0
  node : GoString := []
  version : ℤ := 0
  committedAtStart : ℤ := 0
  error : GoString := []
  incorrect : Bool := false
  staleAtStart : Bool := false
  deriving DecidableEq, Repr

/-- `Payload`, with the fields that are compared. -/
structure Payload where
  key : GoString
  version : ℤ
  deriving DecidableEq, Repr

/-- The dataset of a configuration: `datasetKey`, `productValue` and the decoding of a body into a `Payload`. -/
structure Fixture where
  datasetKey : ℤ → GoString
  productValue : ℤ → ℤ → Except GoString GoString
  decode : GoString → Option Payload

/-- What a request gives: it cannot be built, `client.Do` fails, the body cannot be read, or it is answered. -/
inductive Exchange
  | unbuilt
  | failed (elapsed : ℤ)
  | cut (elapsed status : ℤ) (node : GoString)
  | answered (elapsed status : ℤ) (node etag data : GoString)
  deriving DecidableEq, Repr

/-- The ETag of a version. -/
def etagOf (version : ℤ) : GoString := ascii "\"v" ++ Go.formatInt version ++ ascii "\""

/-- `requestExpected` for a GET. -/
def requestExpected (c : Config) (fx : Fixture) (index : ℕ) (keyIndex min max : ℤ) (missing : Bool) (x : Exchange) :
    Record :=
  let out : Record :=
    { index := index, keyIndex := keyIndex, method := ascii "GET", attempted := true, committedAtStart := min }
  let key := if missing then c.stem ++ ascii "-missing-" ++ Go.formatInt keyIndex else fx.datasetKey keyIndex
  match x with
  | .unbuilt => { out with error := ascii "request construction failed" }
  | .failed elapsed => { out with elapsedMS := ms elapsed, error := ascii "transport or deadline failure" }
  | .cut elapsed status node =>
    { out with elapsedMS := ms elapsed, status := status, node := node, error := ascii "response read failed" }
  | .answered elapsed status node etag data =>
    let out := { out with elapsedMS := ms elapsed, status := status, node := node }
    if missing ∧ status = 404 then { out with incorrect := node = [] ∨ etag ≠ [] }
    else if missing ∧ status = 200 then { out with incorrect := true }
    else if status ≠ 200 then { out with error := ascii "non-200 response", incorrect := status = 404 }
    else
      match fx.decode data with
      | none => { out with incorrect := true }
      | some value =>
        if value.key ≠ key ∨ value.version < 1 then { out with incorrect := true }
        else
          let out :=
            { out with
              version := value.version
              incorrect := node = [] ∨ etag ≠ etagOf value.version ∨ max < value.version ∨ value.version < min
              staleAtStart := value.version < min }
          match fx.productValue keyIndex value.version with
          | .error e => { out with error := e }
          | .ok wanted => if data ≠ wanted then { out with incorrect := true } else out

/-- Whatever the outcome, the record is that of an attempted GET of its job. -/
theorem requestExpected_record (c : Config) (fx : Fixture) (index : ℕ) (keyIndex min max : ℤ) (missing : Bool)
    (x : Exchange) :
    (requestExpected c fx index keyIndex min max missing x).index = index ∧
      (requestExpected c fx index keyIndex min max missing x).method = ascii "GET" ∧
        (requestExpected c fx index keyIndex min max missing x).attempted = true := by
  cases x with
  | unbuilt => exact ⟨rfl, rfl, rfl⟩
  | failed elapsed => exact ⟨rfl, rfl, rfl⟩
  | cut elapsed status node => exact ⟨rfl, rfl, rfl⟩
  | answered elapsed status node etag data =>
    unfold requestExpected
    dsimp only
    repeat' split
    all_goals exact ⟨rfl, rfl, rfl⟩

end SimpleCache.Bench
