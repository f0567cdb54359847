import SimpleCache.Go.Text
import SimpleCache.Lib.BitSet

/-!
# Cache.Bloom — FNV hashes and the Bloom check of known keys (`cache/bloomfilter.go`)

A filter is a bit set: `contains_iff` and `bit_add` say what the two loops read and write, so that after any sequence
of `Add` calls the bits are those probed for the added keys (`bit_adds`).
-/

namespace SimpleCache.Cache

/-- The offset basis and the prime of 64-bit FNV. -/
def fnvOffset : UInt64 := 14695981039346656037
def fnvPrime : UInt64 := 1099511628211

/-- FNV-1a: a byte is mixed in before the multiplication. -/
def fnv64a (key : GoString) : UInt64 := key.foldl (fun h b => (h ^^^ b.toUInt64) * fnvPrime) fnvOffset

/-- FNV-1: a byte is mixed in after the multiplication. -/
def fnv64 (key : GoString) : UInt64 := key.foldl (fun h b => (h * fnvPrime) ^^^ b.toUInt64) fnvOffset

/-- `BloomFilter`, as `NewBloomFilter` shapes it. -/
structure BloomFilter where
  bitset : List UInt64
  size : UInt64
  hashes : ℕ
  size_pos : 0 < size.toNat
  hashes_pos : 0 < hashes
  words : bitset.length = (size.toNat - 1) / 64 + 1

/-- `bloomHashes`. -/
def bloomHashes (key : GoString) : UInt64 × UInt64 := (fnv64a key, fnv64 key ||| 1)

/-- The bit of the `i`-th probe of a key. -/
def BloomFilter.probe (bf : BloomFilter) (key : GoString) (i : ℕ) : UInt64 :=
  ((bloomHashes key).1 + UInt64.ofNat i * (bloomHashes key).2) % bf.size

/-- `Contains`: every probed bit is set. -/
def BloomFilter.contains (bf : BloomFilter) (key : GoString) : Bool :=
  (List.range bf.hashes).all fun i =>
    let idx := bf.probe key i
    (bf.bitset.getD (idx.toNat / 64) 0 &&& (1 <<< (idx % 64))) != 0

namespace BloomFilter

open Lib

/-! ### Construction -/

/-- The number of words, in the arithmetic of the source. -/
theorem words_toNat {size : UInt64} (h : 0 < size.toNat) :
    ((size - 1) / 64 + 1).toNat = (size.toNat - 1) / 64 + 1 := by
  have hone : (1 : UInt64).toNat = 1 := rfl
  have hsix : (64 : UInt64).toNat = 64 := rfl
  have hle : (1 : UInt64) ≤ size := UInt64.le_iff_toNat_le.mpr (by omega)
  have hlt := size.toNat_lt
  rw [UInt64.toNat_add, UInt64.toNat_div, UInt64.toNat_sub_of_le _ _ hle, hone, hsix]
  omega

/-- `NewBloomFilter`; `none` is its panic. -/
def newBloomFilter (size : UInt64) (hashes : ℕ) : Option BloomFilter :=
  if h : 0 < size.toNat ∧ 0 < hashes then
    some ⟨List.replicate ((size - 1) / 64 + 1).toNat 0, size, hashes, h.1, h.2, by simp [words_toNat h.1]⟩
  else none

/-- `Add`: every probed bit is set. -/
def add (bf : BloomFilter) (key : GoString) : BloomFilter :=
  { bf with
    bitset := (List.range bf.hashes).foldl (fun words i => BitSet.setBit words (bf.probe key i)) bf.bitset
    words := by
      rw [← List.foldl_map, BitSet.length_setBits]
      exact bf.words }

/-- The loop of `newBloomForKeys`. -/
def adds (bf : BloomFilter) (keys : List GoString) : BloomFilter := keys.foldl add bf

/-- `newBloomForKeys`.  `estimate n` is `uint64(math.Ceil(-n * math.Log(0.01) / (math.Ln2 * math.Ln2)))` and
`probes bits n` is `math.Round(float64(bits)/n*math.Ln2)`. -/
def newBloomForKeys (estimate : ℕ → UInt64) (probes : UInt64 → ℕ → ℕ) (keys : List GoString) : Option BloomFilter :=
  let n := keys.length
  let bits := if estimate n < 64 then 64 else estimate n
  let hashes := if n > 0 then max 1 (probes bits n) else 1
  (newBloomFilter bits hashes).map fun bf => bf.adds keys

/-! ### The bits -/

/-- The bits probed for a key. -/
def positions (bf : BloomFilter) (key : GoString) : List UInt64 := (List.range bf.hashes).map (bf.probe key)

/-- Every probe is inside the bitset. -/
theorem probe_word_lt (bf : BloomFilter) (key : GoString) (i : ℕ) :
    (bf.probe key i).toNat / 64 < bf.bitset.length := by
  have hlt : (bf.probe key i).toNat < bf.size.toNat := by
    rw [probe, UInt64.toNat_mod]
    exact Nat.mod_lt _ bf.size_pos
  rw [bf.words]
  omega

/-- A probe in the arithmetic of the integers. -/
theorem probe_toNat (bf : BloomFilter) (key : GoString) (i : ℕ) : (bf.probe key i).toNat =
    ((bloomHashes key).1.toNat + i * (bloomHashes key).2.toNat) % 2 ^ 64 % bf.size.toNat := by
  rw [probe, UInt64.toNat_mod, UInt64.toNat_add, UInt64.toNat_mul, UInt64.toNat_ofNat', Nat.add_mod_mod,
    Nat.add_mod, Nat.mod_mul_mod, ← Nat.add_mod]

/-- `Contains` reads the probed bits. -/
theorem contains_iff (bf : BloomFilter) (key : GoString) :
    bf.contains key = true ↔ ∀ j ∈ bf.positions key, BitSet.bit bf.bitset j = true := by
  rw [positions, List.forall_mem_map]
  exact List.all_eq_true

/-- `Add` sets the probed bits and no others. -/
theorem bit_add (bf : BloomFilter) (key : GoString) (j : UInt64) :
    BitSet.bit (bf.add key).bitset j = (BitSet.bit bf.bitset j || decide (j ∈ bf.positions key)) := by
  show BitSet.bit ((List.range bf.hashes).foldl (fun words i => BitSet.setBit words (bf.probe key i)) bf.bitset) j = _
  rw [← List.foldl_map, BitSet.bit_setBits, positions]
  intro i hi
  obtain ⟨n, -, rfl⟩ := List.mem_map.mp hi
  exact bf.probe_word_lt key n

/-- After a sequence of `Add` calls the shape is the same, and the new bits are those probed for the added keys. -/
theorem bit_adds (keys : List GoString) : ∀ bf : BloomFilter, (bf.adds keys).size = bf.size ∧
    (bf.adds keys).hashes = bf.hashes ∧ ∀ j, BitSet.bit (bf.adds keys).bitset j = true ↔
      BitSet.bit bf.bitset j = true ∨ ∃ key ∈ keys, j ∈ bf.positions key := by
  induction keys with
  | nil => simp [adds]
  | cons key keys ih =>
    intro bf
    obtain ⟨hsize, hhashes, hbit⟩ := ih (bf.add key)
    refine ⟨hsize, hhashes, fun j => ?_⟩
    have hpos : (bf.add key).positions = bf.positions := rfl
    rw [show bf.adds (key :: keys) = (bf.add key).adds keys from rfl, hbit, bit_add, hpos]
    simp [or_assoc]

/-- The probes of a filter depend on its shape only. -/
theorem positions_adds (bf : BloomFilter) (keys : List GoString) (key : GoString) :
    (bf.adds keys).positions key = bf.positions key := by
  obtain ⟨hsize, hhashes, -⟩ := bit_adds keys bf
  unfold positions probe
  rw [hsize, hhashes]

/-- **No false negatives.** -/
theorem contains_adds (bf : BloomFilter) {keys : List GoString} {key : GoString} (h : key ∈ keys) :
    (bf.adds keys).contains key = true := by
  rw [contains_iff, positions_adds]
  intro j hj
  exact ((bit_adds keys bf).2.2 j).mpr (.inr ⟨key, h, hj⟩)

/-- More keys take no answer back. -/
theorem contains_adds_of_contains {bf : BloomFilter} {key : GoString} (h : bf.contains key = true)
    (keys : List GoString) : (bf.adds keys).contains key = true := by
  rw [contains_iff] at h ⊢
  rw [positions_adds]
  intro j hj
  exact ((bit_adds keys bf).2.2 j).mpr (.inl (h j hj))

theorem adds_append (bf : BloomFilter) (keys more : List GoString) :
    bf.adds (keys ++ more) = (bf.adds keys).adds more := List.foldl_append

/-- `newBloomForKeys` does not panic. -/
theorem exists_newBloomForKeys (estimate : ℕ → UInt64) (probes : UInt64 → ℕ → ℕ) (keys : List GoString) :
    ∃ bf : BloomFilter, newBloomForKeys estimate probes keys = some (bf.adds keys) := by
  unfold newBloomForKeys newBloomFilter
  dsimp only
  rw [dif_pos]
  · exact ⟨_, rfl⟩
  · constructor
    · split_ifs with hsmall
      · decide
      · rw [UInt64.lt_iff_toNat_lt, not_lt] at hsmall
        exact lt_of_lt_of_le (by decide) hsmall
    · split_ifs <;> omega

end BloomFilter

end SimpleCache.Cache
