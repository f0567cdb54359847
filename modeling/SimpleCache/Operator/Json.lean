import SimpleCache.Go.Json

/-!
# Operator.Json — `desiredSubset` (`gateway.go`)

The gateway objects are unstructured: their specs are values of `encoding/json`.
-/

namespace SimpleCache

namespace Json

mutual

/-- `desiredSubset(actual, desired)`. -/
def desiredSubset (actual : Json) : Json → Bool
  | .obj d =>
    match actual with
    | .obj a => subsetEntries a d
    | _ => false
  | .arr d =>
    match actual with
    | .arr a => subsetItems a d
    | _ => false
  | .null => match actual with
    | .null => true
    | _ => false
  | .bool d => match actual with
    | .bool a => a = d
    | _ => false
  | .int d => match actual with
    | .int a => a = d
    | _ => false
  | .float d => match actual with
    | .float a => a = d
    | _ => false
  | .str d => match actual with
    | .str a => a = d
    | _ => false

/-- The loop over a desired map. -/
def subsetEntries (a : List (String × Json)) : List (String × Json) → Bool
  | [] => true
  | (k, v) :: rest => desiredSubset (lookup a k) v && subsetEntries a rest

/-- The loop over a desired array, with the check of the lengths. -/
def subsetItems : List Json → List Json → Bool
  | [], [] => true
  | x :: xs, y :: ys => desiredSubset x y && subsetItems xs ys
  | _, _ => false

end

/-! ### Reading a value that extends another -/

/-- Neither an array nor a map. -/
def leaf : Json → Bool
  | .arr _ | .obj _ => false
  | _ => true

/-- A leaf is compared by `reflect.DeepEqual`. -/
theorem desiredSubset_leaf {actual d : Json} (h : leaf d = true) : desiredSubset actual d = true ↔ actual = d := by
  cases d with
  | arr d => cases h
  | obj d => cases h
  | _ => cases actual <;> simp [desiredSubset]

theorem desiredSubset_obj {actual : Json} {d : List (String × Json)} (h : desiredSubset actual (.obj d) = true) :
    ∃ a, actual = .obj a ∧ subsetEntries a d = true := by
  cases actual with
  | obj a => exact ⟨a, rfl, by simpa [desiredSubset] using h⟩
  | _ => simp [desiredSubset] at h

theorem desiredSubset_arr {actual : Json} {d : List Json} (h : desiredSubset actual (.arr d) = true) :
    ∃ a, actual = .arr a ∧ subsetItems a d = true := by
  cases actual with
  | arr a => exact ⟨a, rfl, by simpa [desiredSubset] using h⟩
  | _ => simp [desiredSubset] at h

theorem desiredSubset_str {actual : Json} {d : GoString} (h : desiredSubset actual (.str d) = true) :
    actual = .str d := by
  cases actual with
  | str a => simpa [desiredSubset] using h
  | _ => simp [desiredSubset] at h

theorem subsetEntries_mem {a : List (String × Json)} {k : String} {v : Json} : ∀ {d : List (String × Json)},
    subsetEntries a d = true → (k, v) ∈ d → desiredSubset (lookup a k) v = true
  | [], _, hmem => by cases hmem
  | (k', v') :: d, h, hmem => by
    rw [subsetEntries, Bool.and_eq_true] at h
    rcases List.mem_cons.mp hmem with heq | hmem
    · cases heq
      exact h.1
    · exact subsetEntries_mem h.2 hmem

/-- A field of the desired value is extended by the same field of the actual one. -/
theorem desiredSubset_field {actual : Json} {d : List (String × Json)} {k : String} {v : Json}
    (h : desiredSubset actual (.obj d) = true) (hmem : (k, v) ∈ d) : desiredSubset (actual.field k) v = true := by
  obtain ⟨a, rfl, ha⟩ := desiredSubset_obj h
  exact subsetEntries_mem ha hmem

/-! ### Transitivity -/

mutual

/-- A value without `null`. -/
def nullFree : Json → Bool
  | .null => false
  | .arr items => nullFreeItems items
  | .obj entries => nullFreeEntries entries
  | _ => true

def nullFreeItems : List Json → Bool
  | [] => true
  | x :: xs => nullFree x && nullFreeItems xs

def nullFreeEntries : List (String × Json) → Bool
  | [] => true
  | (_, v) :: rest => nullFree v && nullFreeEntries rest

end

theorem lookup_mem {entries : List (String × Json)} {k : String} (h : lookup entries k ≠ .null) :
    (k, lookup entries k) ∈ entries := by
  induction entries with
  | nil => exact absurd rfl h
  | cons e rest ih =>
    obtain ⟨k', v⟩ := e
    rw [lookup] at h ⊢
    split_ifs at h ⊢ with hk
    · rw [hk]
      exact List.mem_cons_self
    · exact List.mem_cons_of_mem _ (ih h)

theorem eq_null_of_desiredSubset {d : Json} (h : desiredSubset .null d = true) : d = .null := by
  cases d <;> simp [desiredSubset] at h ⊢

/-- What extends a value without `null` is not `null`. -/
theorem ne_null_of_desiredSubset {b c : Json} (hc : nullFree c = true) (h : desiredSubset b c = true) : b ≠ .null := by
  rintro rfl
  rw [eq_null_of_desiredSubset h] at hc
  cases hc

theorem subsetEntries_iff {a d : List (String × Json)} :
    subsetEntries a d = true ↔ ∀ e ∈ d, desiredSubset (lookup a e.1) e.2 = true := by
  induction d with
  | nil => simp [subsetEntries]
  | cons e d ih => rw [subsetEntries, Bool.and_eq_true, ih, List.forall_mem_cons]

theorem subsetItems_iff : ∀ {a d : List Json},
    subsetItems a d = true ↔ List.Forall₂ (fun x y => desiredSubset x y = true) a d
  | [], [] => by simp [subsetItems]
  | [], y :: ys => iff_of_false (by simp [subsetItems]) nofun
  | x :: xs, [] => iff_of_false (by simp [subsetItems]) nofun
  | x :: xs, y :: ys => by rw [subsetItems, Bool.and_eq_true, List.forall₂_cons, subsetItems_iff]

theorem nullFreeItems_iff {items : List Json} : nullFreeItems items = true ↔ ∀ x ∈ items, nullFree x = true := by
  induction items with
  | nil => simp [nullFreeItems]
  | cons x items ih => rw [nullFreeItems, Bool.and_eq_true, ih, List.forall_mem_cons]

theorem nullFreeEntries_iff {entries : List (String × Json)} :
    nullFreeEntries entries = true ↔ ∀ e ∈ entries, nullFree e.2 = true := by
  induction entries with
  | nil => simp [nullFreeEntries]
  | cons e entries ih => rw [nullFreeEntries, Bool.and_eq_true, ih, List.forall_mem_cons]

/-- **Extension is transitive** over values without `null`.  A missing key reads as `null`, so the key of a desired entry
is present in the value between. -/
theorem desiredSubset_trans {a b c : Json} (hc : nullFree c = true) (hab : desiredSubset a b = true)
    (hbc : desiredSubset b c = true) : desiredSubset a c = true := by
  induction c using Json.induction generalizing a b with
  | null => cases hc
  | obj c ih =>
    obtain ⟨b, rfl, hb⟩ := desiredSubset_obj hbc
    obtain ⟨a, rfl, ha⟩ := desiredSubset_obj hab
    rw [nullFree, nullFreeEntries_iff] at hc
    rw [subsetEntries_iff] at hb
    rw [desiredSubset, subsetEntries_iff]
    intro e he
    have hkey := lookup_mem (ne_null_of_desiredSubset (hc e he) (hb e he))
    exact ih e he (hc e he) (subsetEntries_mem ha hkey) (hb e he)
  | arr c ih =>
    obtain ⟨b, rfl, hb⟩ := desiredSubset_arr hbc
    obtain ⟨a, rfl, ha⟩ := desiredSubset_arr hab
    rw [nullFree, nullFreeItems_iff] at hc
    rw [subsetItems_iff] at ha hb
    rw [desiredSubset, subsetItems_iff]
    clear hab hbc
    induction hb generalizing a with
    | nil => exact ha
    | cons hyz _ ihs =>
      rw [List.forall_mem_cons] at hc ih
      cases ha with
      | cons hxy hxs => exact .cons (ih.1 hc.1 hxy hyz) (ihs ih.2 hc.2 _ hxs)
  | bool c => exact (desiredSubset_leaf rfl).mp hbc ▸ hab
  | int c => exact (desiredSubset_leaf rfl).mp hbc ▸ hab
  | float c => exact (desiredSubset_leaf rfl).mp hbc ▸ hab
  | str c => exact (desiredSubset_leaf rfl).mp hbc ▸ hab

end Json

end SimpleCache
