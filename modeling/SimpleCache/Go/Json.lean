import Mathlib.Data.Rat.Defs
import SimpleCache.Go.Text

/-!
# Go.Json — the values that `encoding/json` produces

A map is the list of its entries, and reading a missing key gives `null`, as reading a missing key of a Go map gives nil.
-/

namespace SimpleCache

/-- A decoded value: nil, `bool`, `int64`, `float64`, `string`, `[]any` or `map[string]any`. -/
inductive Json
  | null
  | bool (b : Bool)
  | int (n : ℤ)
  | float (x : ℚ)
  | str (s : GoString)
  | arr (items : List Json)
  | obj (entries : List (String × Json))

namespace Json

mutual

/-- Equality of two values, entry by entry. -/
def beq : Json → Json → Bool
  | .null, .null => true
  | .bool a, .bool b => a = b
  | .int a, .int b => a = b
  | .float a, .float b => a = b
  | .str a, .str b => a = b
  | .arr a, .arr b => beqItems a b
  | .obj a, .obj b => beqEntries a b
  | _, _ => false

def beqItems : List Json → List Json → Bool
  | [], [] => true
  | x :: xs, y :: ys => beq x y && beqItems xs ys
  | _, _ => false

def beqEntries : List (String × Json) → List (String × Json) → Bool
  | [], [] => true
  | (k, x) :: xs, (l, y) :: ys => k = l && beq x y && beqEntries xs ys
  | _, _ => false

end

mutual

theorem beq_iff : ∀ a b : Json, beq a b = true ↔ a = b
  | .arr a, b => by cases b <;> simp [beq, beqItems_iff a]
  | .obj a, b => by cases b <;> simp [beq, beqEntries_iff a]
  | .null, b => by cases b <;> simp [beq]
  | .bool _, b => by cases b <;> simp [beq]
  | .int _, b => by cases b <;> simp [beq]
  | .float _, b => by cases b <;> simp [beq]
  | .str _, b => by cases b <;> simp [beq]

theorem beqItems_iff : ∀ a b : List Json, beqItems a b = true ↔ a = b
  | [], b => by cases b <;> simp [beqItems]
  | x :: xs, b => by cases b <;> simp [beqItems, beq_iff x, beqItems_iff xs]

theorem beqEntries_iff : ∀ a b : List (String × Json), beqEntries a b = true ↔ a = b
  | [], b => by cases b <;> simp [beqEntries]
  | (k, x) :: xs, b => by
    cases b with
    | nil => simp [beqEntries]
    | cons e ys => simp [beqEntries, beq_iff x, beqEntries_iff xs, Prod.ext_iff]

end

instance : DecidableEq Json := fun a b => decidable_of_iff _ (beq_iff a b)

/-- `m[key]`. -/
def lookup (entries : List (String × Json)) (key : String) : Json :=
  match entries with
  | [] => .null
  | (k, v) :: rest => if k = key then v else lookup rest key

/-- The field of a map, `null` for any other value. -/
def field (v : Json) (key : String) : Json :=
  match v with
  | .obj entries => lookup entries key
  | _ => .null

/-- A map has the key. -/
def has (v : Json) (key : String) : Bool :=
  match v with
  | .obj entries => entries.any fun e => e.1 = key
  | _ => false

/-- The elements of an array, none for any other value. -/
def items : Json → List Json
  | .arr xs => xs
  | _ => []

/-- The text of a string value. -/
def text : Json → Option GoString
  | .str s => some s
  | _ => none

/-- Induction over the values: over the elements of an array and over the entries of a map. -/
theorem induction {motive : Json → Prop} (null : motive .null) (bool : ∀ b, motive (.bool b))
    (int : ∀ n, motive (.int n)) (float : ∀ x, motive (.float x)) (str : ∀ s, motive (.str s))
    (arr : ∀ items, (∀ x ∈ items, motive x) → motive (.arr items))
    (obj : ∀ entries, (∀ e ∈ entries, motive e.2) → motive (.obj entries)) (v : Json) : motive v :=
  @Json.rec motive (fun items => ∀ x ∈ items, motive x) (fun entries => ∀ e ∈ entries, motive e.2)
    (fun e => motive e.2)
    null bool int float str (fun items h => arr items h) (fun entries h => obj entries h)
    (by simp) (fun _ _ hx hxs => List.forall_mem_cons.mpr ⟨hx, hxs⟩)
    (by simp) (fun _ _ he hes => List.forall_mem_cons.mpr ⟨he, hes⟩) (fun _ _ h => h) v

end Json

end SimpleCache
