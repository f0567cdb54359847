import Mathlib.Data.List.Sort
import SimpleCache.Cache.Errors

/-!
# Postgres.Sql — conditions over NULL, timestamps and the tables of `schema.sql`

A WHERE clause keeps a row only when its condition is true; a comparison with NULL is unknown, which
is not true.  `Truth` has the three values, `holds` is the test a WHERE clause makes.

`Db` holds `simplecache_products` (a function of its primary key), `simplecache_outbox` (rows in
insertion order) and the sequence behind the `bigserial` id.  The columns no modelled statement reads
(`updated_at`, `created_at`) are left out.
-/

namespace SimpleCache.Postgres

/-! ### Three-valued conditions -/

/-- The value of an SQL condition; `none` is unknown. -/
abbrev Truth := Option Bool

namespace Truth

/-- `x IS NULL`. -/
def isNull {α : Type} (x : Option α) : Truth := some x.isNone

/-- `x <= y`, unknown when `x` is NULL. -/
def le (x : Option ℤ) (y : ℤ) : Truth := x.map fun a => decide (a ≤ y)

/-- `x < y`, unknown when `x` is NULL. -/
def lt (x : Option ℤ) (y : ℤ) : Truth := x.map fun a => decide (a < y)

/-- `x > y`, unknown when `x` is NULL. -/
def gt (x : Option ℤ) (y : ℤ) : Truth := x.map fun a => decide (y < a)

/-- `x = y`, unknown when `x` is NULL. -/
def eq (x : Option ℤ) (y : ℤ) : Truth := x.map fun a => decide (a = y)

/-- `a AND b`. -/
def and : Truth → Truth → Truth
  | some false, _ => some false
  | _, some false => some false
  | some true, some true => some true
  | _, _ => none

/-- `a OR b`. -/
def or : Truth → Truth → Truth
  | some true, _ => some true
  | _, some true => some true
  | some false, some false => some false
  | _, _ => none

/-- The test of a WHERE clause. -/
def holds (t : Truth) : Bool := t == some true

@[simp] theorem holds_and (a b : Truth) : holds (and a b) = (holds a && holds b) := by
  rcases a with _ | _ | _ <;> rcases b with _ | _ | _ <;> rfl

@[simp] theorem holds_or (a b : Truth) : holds (or a b) = (holds a || holds b) := by
  rcases a with _ | _ | _ <;> rcases b with _ | _ | _ <;> rfl

@[simp] theorem holds_isNull {α : Type} (x : Option α) : holds (isNull x) = true ↔ x = none := by
  cases x <;> simp [holds, isNull]

@[simp] theorem holds_le (x : Option ℤ) (y : ℤ) : holds (le x y) = true ↔ ∃ a, x = some a ∧ a ≤ y := by
  cases x <;> simp [holds, le]

@[simp] theorem holds_lt (x : Option ℤ) (y : ℤ) : holds (lt x y) = true ↔ ∃ a, x = some a ∧ a < y := by
  cases x <;> simp [holds, lt]

@[simp] theorem holds_gt (x : Option ℤ) (y : ℤ) : holds (gt x y) = true ↔ ∃ a, x = some a ∧ y < a := by
  cases x <;> simp [holds, gt]

@[simp] theorem holds_eq (x : Option ℤ) (y : ℤ) : holds (eq x y) = true ↔ x = some y := by
  cases x <;> simp [holds, eq]

end Truth

/-! ### Time

A `timestamptz` is an integer number of microseconds, a Go `time.Duration` one of nanoseconds. -/

def second : ℤ := 10 ^ 9
def minute : ℤ := 60 * second
def hour : ℤ := 60 * minute

/-- `d.Seconds()*interval '1 second'`: the duration rounded to the nearest microsecond, and to an even one between
two. -/
def interval (d : ℤ) : ℤ :=
  if d % 1000 < 500 ∨ d % 1000 = 500 ∧ d / 1000 % 2 = 0 then d / 1000 else d / 1000 + 1

theorem interval_mono {d d' : ℤ} (h : d ≤ d') : interval d ≤ interval d' := by
  unfold interval
  split_ifs <;> omega

/-! ### Tables -/

/-- A row of `simplecache_products`, without its key. -/
structure Product where
  value : GoString
  version : ℤ
  deleted : Bool
  deriving DecidableEq, Repr

/-- A row of `simplecache_outbox`. -/
structure OutboxRow where
  id : ℤ
  key : GoString
  version : ℤ
  availableAt : ℤ
  leasedUntil : Option ℤ
  attempts : ℤ
  deliveredAt : Option ℤ
  deriving DecidableEq, Repr

/-- The database. -/
structure Db where
  products : GoString → Option Product
  outbox : List OutboxRow
  /-- The next value of the sequence of `simplecache_outbox.id`. -/
  nextId : ℤ

/-- Both tables as created by `schema.sql`. -/
def Db.empty : Db := ⟨fun _ => none, [], 1⟩

end SimpleCache.Postgres
