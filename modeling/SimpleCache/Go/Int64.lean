import SimpleCache.Go.Text

/-!
# Go.Int64 — wrapping arithmetic and durations

`int`, `int64` and `time.Duration` are 64-bit two's complement numbers.  An operation of the source is modelled by its
exact result under `int64`; `int64_eq` removes it where the result is in range, and that is what "no overflow" means.
-/

namespace SimpleCache.Go

/-- The number an `int64` holds after an operation with the exact result `x`. -/
def int64 (x : ℤ) : ℤ := x.bmod (2 ^ 64)

/-- An operation whose result is in range does not wrap. -/
theorem int64_eq {x : ℤ} (h : -maxInt64 ≤ x) (h' : x ≤ maxInt64) : int64 x = x := by
  unfold maxInt64 at h h'
  exact Int.bmod_eq_of_le (by omega) (by omega)

/-- `time.Millisecond`. -/
def millisecond : ℤ := 10 ^ 6

/-- `time.Second`. -/
def second : ℤ := 10 ^ 9

end SimpleCache.Go
