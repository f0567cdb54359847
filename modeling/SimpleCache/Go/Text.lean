import Mathlib.Data.Nat.Digits.Defs
import Mathlib.Data.List.TakeWhile

/-!
# Go.Text — Go strings, UTF-8 validity and decimal numbers

A Go string is a sequence of bytes.  `validString` is `utf8.ValidString`, `trimSpace` is `strings.TrimSpace`;
`formatUint` and `formatInt` are `strconv.FormatUint` and `strconv.FormatInt` in base 10, `parseInt` is
`strconv.ParseInt` in base 10 with 64 bits.  The two facts the rest uses: a decimal number is never confused with the text that
follows a separator (`formatInt_append_inj`), and parsing gives back what was printed
(`parseInt_formatInt`).
-/

namespace SimpleCache

/-- A Go `string` (or `[]byte`): a sequence of bytes. -/
abbrev GoString := List UInt8

instance : LawfulBEq GoString := inferInstanceAs (LawfulBEq (List UInt8))

namespace Go

/-- The bytes of an ASCII literal of the source. -/
def ascii (s : String) : GoString := s.toList.map fun c => c.toNat.toUInt8

/-! ### UTF-8 -/

/-- A continuation byte `10xxxxxx`. -/
def isCont (b : UInt8) : Bool := 0x80 ≤ b && b ≤ 0xBF

/-- The admissible second bytes of a three- or four-byte sequence: no overlong forms, no surrogates,
nothing above U+10FFFF. -/
def secondOk (b0 b1 : UInt8) : Bool :=
  if b0 = 0xE0 then 0xA0 ≤ b1 && b1 ≤ 0xBF
  else if b0 = 0xED then 0x80 ≤ b1 && b1 ≤ 0x9F
  else if b0 = 0xF0 then 0x90 ≤ b1 && b1 ≤ 0xBF
  else if b0 = 0xF4 then 0x80 ≤ b1 && b1 ≤ 0x8F
  else isCont b1

/-- `utf8.ValidString`. -/
def validString : GoString → Bool
  | [] => true
  | b0 :: rest =>
    if b0 < 0x80 then validString rest
    else match rest with
      | [] => false
      | b1 :: rest1 =>
        if 0xC2 ≤ b0 && b0 ≤ 0xDF then isCont b1 && validString rest1
        else match rest1 with
          | [] => false
          | b2 :: rest2 =>
            if 0xE0 ≤ b0 && b0 ≤ 0xEF then secondOk b0 b1 && isCont b2 && validString rest2
            else match rest2 with
              | [] => false
              | b3 :: rest3 =>
                (0xF0 ≤ b0 && b0 ≤ 0xF4) && secondOk b0 b1 && isCont b2 && isCont b3 &&
                  validString rest3

/-! ### White space and slices -/

/-- The encodings of the runes for which `unicode.IsSpace` holds. -/
def spaces : List GoString :=
  [[9], [10], [11], [12], [13], [32], [0xC2, 0x85], [0xC2, 0xA0], [0xE1, 0x9A, 0x80], [0xE2, 0x80, 0x80],
    [0xE2, 0x80, 0x81], [0xE2, 0x80, 0x82], [0xE2, 0x80, 0x83], [0xE2, 0x80, 0x84], [0xE2, 0x80, 0x85],
    [0xE2, 0x80, 0x86], [0xE2, 0x80, 0x87], [0xE2, 0x80, 0x88], [0xE2, 0x80, 0x89], [0xE2, 0x80, 0x8A],
    [0xE2, 0x80, 0xA8], [0xE2, 0x80, 0xA9], [0xE2, 0x80, 0xAF], [0xE2, 0x81, 0x9F], [0xE3, 0x80, 0x80]]

/-- The text without the words of a list at its start; a round takes at least one byte. -/
def trimWords (words : List GoString) : ℕ → GoString → GoString
  | 0, s => s
  | fuel + 1, s =>
    match words.find? fun w => w.isPrefixOf s with
    | none => s
    | some w => trimWords words fuel (s.drop w.length)

/-- `strings.TrimSpace`. -/
def trimSpace (s : GoString) : GoString :=
  let t := trimWords spaces s.length s
  (trimWords (spaces.map List.reverse) t.length t.reverse).reverse

/-- `s[i:j]`; `none` is the panic for bounds out of range. -/
def slice (s : GoString) (i j : ℤ) : Option GoString :=
  if 0 ≤ i ∧ i ≤ j ∧ j ≤ s.length then some ((s.take j.toNat).drop i.toNat) else none

/-- A text stays as it is when no word starts with its first byte. -/
theorem trimWords_cons {words : List GoString} {b : UInt8} (h : ∀ w ∈ words, w ≠ [] ∧ w.head? ≠ some b)
    (rest : GoString) : ∀ fuel, trimWords words fuel (b :: rest) = b :: rest
  | 0 => rfl
  | fuel + 1 => by
    have hnone : words.find? (fun w => w.isPrefixOf (b :: rest)) = none := by
      rw [List.find?_eq_none]
      intro w hw
      obtain ⟨hne, hhead⟩ := h w hw
      cases w with
      | nil => exact absurd rfl hne
      | cons x xs =>
        have hx : x ≠ b := fun he => hhead (by rw [he, List.head?_cons])
        simp [hx]
    rw [trimWords, hnone]

/-- A quoted text has no white space around it. -/
theorem trimSpace_quoted (s : GoString) : trimSpace (34 :: (s ++ [34])) = 34 :: (s ++ [34]) := by
  unfold trimSpace
  dsimp only
  rw [trimWords_cons (by decide)]
  have hrev : (34 :: (s ++ [34])).reverse = 34 :: (34 :: s).reverse := by simp
  rw [hrev, trimWords_cons (by decide), List.reverse_cons, List.reverse_reverse, List.cons_append]

/-! ### Decimal numbers -/

/-- `strconv.FormatUint(n, 10)`. -/
def formatUint (n : ℕ) : GoString := (Nat.toDigits 10 n).map fun c => c.toNat.toUInt8

/-- `strconv.FormatInt(n, 10)`. -/
def formatInt : ℤ → GoString
  | .ofNat n => formatUint n
  | .negSucc n => 45 :: formatUint (n + 1)

/-- An ASCII digit. -/
def isDigit (b : UInt8) : Bool := 48 ≤ b && b ≤ 57

/-- The value of a string of digits, `none` for any other byte or the empty string. -/
def parseDigits : GoString → Option ℕ
  | [] => none
  | s => s.foldl (fun acc b => acc.bind fun n => if isDigit b then some (10 * n + (b.toNat - 48)) else none)
      (some 0)

/-- The largest `int64`. -/
def maxInt64 : ℤ := 2 ^ 63 - 1

/-- `strconv.ParseInt(s, 10, 64)`: an optional sign, then digits, inside the `int64` range. -/
def parseInt (s : GoString) : Option ℤ :=
  match s with
  | 45 :: rest => (parseDigits rest).bind fun n => if (n : ℤ) ≤ maxInt64 + 1 then some (-(n : ℤ)) else none
  | 43 :: rest => (parseDigits rest).bind fun n => if (n : ℤ) ≤ maxInt64 then some (n : ℤ) else none
  | _ => (parseDigits s).bind fun n => if (n : ℤ) ≤ maxInt64 then some (n : ℤ) else none

/-- The byte of a digit character. -/
theorem digitByte {c : Char} (hc : c.isDigit = true) :
    isDigit c.toNat.toUInt8 = true ∧ c.toNat.toUInt8.toNat = c.toNat := by
  simp only [Char.isDigit, Bool.and_eq_true, decide_eq_true_eq, UInt32.le_iff_toNat_le] at hc
  have h1 : 48 ≤ c.toNat := hc.1
  have h2 : c.toNat ≤ 57 := hc.2
  have h3 : c.toNat.toUInt8.toNat = c.toNat := by simp; omega
  refine ⟨?_, h3⟩
  simp only [isDigit, Bool.and_eq_true, decide_eq_true_eq, UInt8.le_iff_toNat_le, h3]
  exact ⟨h1, h2⟩

theorem formatUint_isDigit {n : ℕ} {b : UInt8} (h : b ∈ formatUint n) : isDigit b = true := by
  obtain ⟨c, hc, rfl⟩ := List.mem_map.mp h
  exact (digitByte (Nat.isDigit_of_mem_toDigits (by decide) (by decide) hc)).1

theorem formatUint_ne_nil (n : ℕ) : formatUint n ≠ [] := by
  simp [formatUint, Nat.toDigits_ne_nil]

theorem foldl_digits : ∀ (cs : List Char) (acc : ℕ), (∀ c ∈ cs, c.isDigit = true) →
    (cs.map fun c => c.toNat.toUInt8).foldl
      (fun acc b => acc.bind fun n => if isDigit b then some (10 * n + (b.toNat - 48)) else none)
      (some acc) = some (Nat.ofDigitChars 10 cs acc)
  | [], acc, _ => by simp
  | c :: cs, acc, h => by
    obtain ⟨h1, h2⟩ := digitByte (h c (by simp))
    simp only [List.map_cons, List.foldl_cons, Option.bind_some, h1, h2, if_true]
    rw [foldl_digits cs _ (fun c' hc' => h c' (by simp [hc'])), Nat.ofDigitChars_cons]
    rfl

/-- Printing and parsing a natural number. -/
theorem parseDigits_formatUint (n : ℕ) : parseDigits (formatUint n) = some n := by
  have hd : ∀ c ∈ Nat.toDigits 10 n, c.isDigit = true :=
    fun c hc => Nat.isDigit_of_mem_toDigits (by decide) (by decide) hc
  have hf := foldl_digits (Nat.toDigits 10 n) 0 hd
  rw [Nat.ofDigitChars_ten_toDigits] at hf
  unfold parseDigits
  split
  · next he => exact absurd he (formatUint_ne_nil n)
  · exact hf

theorem formatUint_injective : Function.Injective formatUint := by
  intro a b h
  have := congrArg parseDigits h
  simpa [parseDigits_formatUint] using this

theorem formatUint_ne_minus (n m : ℕ) (x : GoString) : formatUint n ≠ 45 :: formatUint m ++ x := by
  intro h
  have h45 : (45 : UInt8) ∈ formatUint n := by rw [h]; simp
  exact absurd (formatUint_isDigit h45) (by decide)

theorem formatInt_injective : Function.Injective formatInt := by
  intro a b h
  cases a with
  | ofNat n =>
    cases b with
    | ofNat m => exact congrArg Int.ofNat (formatUint_injective h)
    | negSucc m => exact absurd h (by simpa [formatInt] using formatUint_ne_minus n (m + 1) [])
  | negSucc n =>
    cases b with
    | ofNat m => exact absurd h.symm (by simpa [formatInt] using formatUint_ne_minus m (n + 1) [])
    | negSucc m =>
      simp only [formatInt, List.cons.injEq, true_and] at h
      have := formatUint_injective h
      congr 1
      omega

/-- The separator `:` does not occur in a decimal number. -/
theorem colon_notMem_formatInt (a : ℤ) : (58 : UInt8) ∉ formatInt a := by
  intro h
  cases a with
  | ofNat n => exact absurd (formatUint_isDigit h) (by decide)
  | negSucc n =>
    rcases List.mem_cons.mp h with h | h
    · exact absurd h (by decide)
    · exact absurd (formatUint_isDigit h) (by decide)

/-- What precedes the first separator is determined. -/
theorem append_sep_inj {c : UInt8} {a b x y : GoString} (ha : c ∉ a) (hb : c ∉ b)
    (h : a ++ c :: x = b ++ c :: y) : a = b ∧ x = y := by
  induction a generalizing b with
  | nil =>
    cases b with
    | nil => simpa using h
    | cons b0 b => simp at h hb; exact absurd h.1 hb.1
  | cons a0 a ih =>
    cases b with
    | nil => simp at h ha; exact absurd h.1.symm ha.1
    | cons b0 b =>
      simp only [List.cons_append, List.cons.injEq] at h
      simp only [List.mem_cons, not_or] at ha hb
      obtain ⟨rfl, rfl⟩ := ih ha.2 hb.2 h.2
      exact ⟨by rw [h.1], rfl⟩

/-- What follows the last separator is determined. -/
theorem append_sep_inj_right {c : UInt8} {a b x y : GoString} (hx : c ∉ x) (hy : c ∉ y)
    (h : a ++ c :: x = b ++ c :: y) : a = b ∧ x = y := by
  have hrev : x.reverse ++ c :: a.reverse = y.reverse ++ c :: b.reverse := by
    have := congrArg List.reverse h
    simpa using this
  obtain ⟨h1, h2⟩ := append_sep_inj (by simpa using hx) (by simpa using hy) hrev
  exact ⟨List.reverse_inj.mp h2, List.reverse_inj.mp h1⟩

/-- **Unique parsing**: a decimal number before a `:` is determined, whatever follows it. -/
theorem formatInt_append_inj {a b : ℤ} {x y : GoString}
    (h : formatInt a ++ 58 :: x = formatInt b ++ 58 :: y) : a = b ∧ x = y := by
  obtain ⟨h1, h2⟩ := append_sep_inj (colon_notMem_formatInt a) (colon_notMem_formatInt b) h
  exact ⟨formatInt_injective h1, h2⟩

/-- A printed natural number starts with a digit, not with a sign. -/
theorem formatUint_eq_cons (n : ℕ) : ∃ b rest, formatUint n = b :: rest ∧ b ≠ 45 ∧ b ≠ 43 := by
  cases hl : formatUint n with
  | nil => exact absurd hl (formatUint_ne_nil n)
  | cons b rest =>
    have hb : isDigit b = true := formatUint_isDigit (n := n) (by rw [hl]; simp)
    refine ⟨b, rest, rfl, ?_, ?_⟩
    · rintro rfl
      exact absurd hb (by decide)
    · rintro rfl
      exact absurd hb (by decide)

theorem formatInt_ne_nil : ∀ v : ℤ, formatInt v ≠ []
  | .ofNat n => formatUint_ne_nil n
  | .negSucc _ => List.cons_ne_nil _ _

/-- Parsing gives back a printed nonnegative `int64`. -/
theorem parseInt_formatInt {v : ℤ} (h0 : 0 ≤ v) (hv : v ≤ maxInt64) : parseInt (formatInt v) = some v := by
  obtain ⟨n, rfl⟩ := Int.eq_ofNat_of_zero_le h0
  have hp := parseDigits_formatUint n
  have hform : formatInt (n : ℤ) = formatUint n := rfl
  obtain ⟨b, rest, hl, h45, h43⟩ := formatUint_eq_cons n
  rw [hform, hl]
  rw [hl] at hp
  simp [parseInt, h45, h43, hp, hv]

theorem parseInt_le {s : GoString} {v : ℤ} (h : parseInt s = some v) : v ≤ maxInt64 := by
  have hmax : 0 ≤ maxInt64 := by decide
  unfold parseInt at h
  split at h
  · obtain ⟨n, -, hn⟩ := Option.bind_eq_some_iff.mp h
    split_ifs at hn with hle
    have hv := Option.some.inj hn
    omega
  · obtain ⟨n, -, hn⟩ := Option.bind_eq_some_iff.mp h
    split_ifs at hn with hle
    exact Option.some.inj hn ▸ hle
  · obtain ⟨n, -, hn⟩ := Option.bind_eq_some_iff.mp h
    split_ifs at hn with hle
    exact Option.some.inj hn ▸ hle

end Go

end SimpleCache
