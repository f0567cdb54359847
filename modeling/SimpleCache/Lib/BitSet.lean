import Mathlib.Data.List.Basic
import Mathlib.Data.Nat.Bitwise

/-!
# Lib.BitSet — bits packed into 64-bit words

Bit `i` of a set is bit `i % 64` of word `i / 64`.  `bit_setBit` and `bit_setBits` say what setting bits changes: those
bits and no others.
-/

namespace SimpleCache.Lib.BitSet

/-- The word with bit `i % 64` only. -/
def mask (i : UInt64) : UInt64 := 1 <<< (i % 64)

/-- `words[i/64] & (1 << (i%64)) != 0`. -/
def bit (words : List UInt64) (i : UInt64) : Bool := (words.getD (i.toNat / 64) 0 &&& mask i) != 0

/-- `words[i/64] |= 1 << (i%64)`. -/
def setBit (words : List UInt64) (i : UInt64) : List UInt64 := words.modify (i.toNat / 64) (· ||| mask i)

theorem mask_toNat (i : UInt64) : (mask i).toNat = 2 ^ (i.toNat % 64) := by
  have hlt : i.toNat % 64 < 64 := Nat.mod_lt _ (by decide)
  have hpow : 2 ^ (i.toNat % 64) < 2 ^ 64 := Nat.pow_lt_pow_right (by decide) hlt
  have hmod : i.toNat % 64 % 64 = i.toNat % 64 := Nat.mod_eq_of_lt hlt
  have hsix : (64 : UInt64).toNat = 64 := rfl
  rw [mask, UInt64.toNat_shiftLeft, UInt64.toNat_mod, hsix, hmod, UInt64.toNat_one, Nat.one_shiftLeft,
    Nat.mod_eq_of_lt hpow]

/-- A masked word is not zero exactly when it has the bit. -/
theorem and_mask (w i : UInt64) : ((w &&& mask i) != 0) = w.toNat.testBit (i.toNat % 64) := by
  have hand : (w &&& mask i).toNat = 2 ^ (i.toNat % 64) * (w.toNat.testBit (i.toNat % 64)).toNat := by
    rw [UInt64.toNat_and, mask_toNat, Nat.and_comm, Nat.two_pow_and]
  have hzero : (w &&& mask i) = 0 ↔ w.toNat.testBit (i.toNat % 64) = false := by
    rw [← UInt64.toNat_inj, hand, UInt64.toNat_zero]
    cases w.toNat.testBit (i.toNat % 64) <;> simp
  cases hbit : w.toNat.testBit (i.toNat % 64) with
  | false => simp [hzero.mpr hbit]
  | true => simp [hzero, hbit]

/-- **Setting a bit** changes this bit and no other. -/
theorem bit_setBit {words : List UInt64} {i : UInt64} (h : i.toNat / 64 < words.length) (j : UInt64) :
    bit (setBit words i) j = (bit words j || decide (j = i)) := by
  unfold bit setBit
  rw [and_mask, and_mask, List.getD_eq_getElem?_getD, List.getD_eq_getElem?_getD, List.getElem?_modify]
  by_cases hword : i.toNat / 64 = j.toNat / 64
  · -- the same word: the bits are equal exactly when their places in it are
    obtain ⟨w, hw⟩ : ∃ w, words[j.toNat / 64]? = some w := ⟨_, List.getElem?_eq_getElem (hword ▸ h)⟩
    have hplace : i.toNat % 64 = j.toNat % 64 ↔ j = i := by
      rw [← UInt64.toNat_inj]
      omega
    simp only [if_pos hword, hw, Option.map_eq_map, Option.map_some]
    rw [Option.getD_some, Option.getD_some, UInt64.toNat_or, mask_toNat,
      Nat.testBit_or, Nat.testBit_two_pow, decide_eq_decide.mpr hplace]
  · have hne : j ≠ i := fun he => hword (by rw [he])
    simp [hword, hne]

/-- Setting the bits of a list. -/
theorem bit_setBits {is : List UInt64} : ∀ {words : List UInt64}, (∀ i ∈ is, i.toNat / 64 < words.length) →
    ∀ j, bit (is.foldl setBit words) j = (bit words j || decide (j ∈ is)) := by
  induction is with
  | nil => simp
  | cons i is ih =>
    intro words h j
    rw [List.forall_mem_cons] at h
    have hlen : (setBit words i).length = words.length := List.length_modify ..
    rw [List.foldl_cons, ih (hlen ▸ h.2), bit_setBit h.1, Bool.or_assoc]
    simp

theorem length_setBits (is : List UInt64) (words : List UInt64) : (is.foldl setBit words).length = words.length := by
  induction is generalizing words with
  | nil => rfl
  | cons i is ih =>
    rw [List.foldl_cons, ih]
    exact List.length_modify ..

end SimpleCache.Lib.BitSet
