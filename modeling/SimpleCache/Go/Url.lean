import SimpleCache.Go.Text

/-!
# Go.Url — paths and queries of `net/url`

`escape` and `unescape` in the two modes that paths use, and the two functions through which a path goes on its
way: `setPath`, with which a URL is parsed, and `EscapedPath`, with which it is written on the wire and read by a
handler.  A path that is validly encoded comes through unchanged (`escapedPath_setPath`), and the escape of a
segment is read back and contains no slash.

`QueryEscape` and `ParseQuery` are the same for the query: the escape of a value has no separator in it and is read
back, so a query of one parameter is parsed into that parameter (`parseQuery_single`).
-/

namespace SimpleCache.Go

/-- The encoding modes of a path: as a whole (`encodePath`) and of one segment (`encodePathSegment`). -/
inductive PathMode
  | path
  | segment
  deriving DecidableEq, Repr

/-- `shouldEscape` in the two modes. -/
def shouldEscape (mode : PathMode) (c : UInt8) : Bool :=
  if (97 ≤ c && c ≤ 122) || (65 ≤ c && c ≤ 90) || (48 ≤ c && c ≤ 57) then false
  -- '-', '_', '.', '~'
  else if c = 45 || c = 95 || c = 46 || c = 126 then false
  -- '$', '&', '+', ',', '/', ':', ';', '=', '?', '@'
  else if c = 36 || c = 38 || c = 43 || c = 44 || c = 47 || c = 58 || c = 59 || c = 61 || c = 63 || c = 64 then
    match mode with
    | .path => c = 63
    | .segment => c = 47 || c = 59 || c = 44 || c = 63
  else true

/-- `upperhex[n]`. -/
def upperHex (n : UInt8) : UInt8 := if n < 10 then 48 + n else 55 + n

def isHex (c : UInt8) : Bool := (48 ≤ c && c ≤ 57) || (97 ≤ c && c ≤ 102) || (65 ≤ c && c ≤ 70)

def unhex (c : UInt8) : UInt8 :=
  if 48 ≤ c && c ≤ 57 then c - 48
  else if 97 ≤ c && c ≤ 102 then c - 97 + 10
  else if 65 ≤ c && c ≤ 70 then c - 65 + 10
  else 0

/-- One byte of `escape`. -/
def escapeByte (mode : PathMode) (c : UInt8) : GoString :=
  if shouldEscape mode c then [37, upperHex (c >>> 4), upperHex (c &&& 15)] else [c]

/-- `escape(s, mode)`. -/
def escape (mode : PathMode) (s : GoString) : GoString := s.flatMap (escapeByte mode)

/-- `unescape(s, mode)`; the two modes read alike, and `none` is an `EscapeError`. -/
def unescape : GoString → Option GoString
  | [] => some []
  | 37 :: a :: b :: rest =>
    if isHex a && isHex b then (unescape rest).map fun t => (unhex a <<< 4 ||| unhex b) :: t else none
  | c :: rest => if c = 37 then none else (unescape rest).map (c :: ·)

/-- `url.PathEscape`. -/
def pathEscape (s : GoString) : GoString := escape .segment s

/-- `url.PathUnescape`. -/
def pathUnescape (s : GoString) : Option GoString := unescape s

/-- The path of a `url.URL`. -/
structure Url where
  path : GoString
  rawPath : GoString
  deriving DecidableEq, Repr

/-- `setPath`. -/
def setPath (p : GoString) : Option Url :=
  (unescape p).map fun path => if p = escape .path path then ⟨path, []⟩ else ⟨path, p⟩

/-- `validEncoded(s, encodePath)`. -/
def validEncoded (s : GoString) : Bool :=
  s.all fun c =>
    -- '!', '$', '&', '\'', '(', ')', '*', '+', ',', ';', '=', ':', '@', '[', ']', '%'
    c = 33 || c = 36 || c = 38 || c = 39 || c = 40 || c = 41 || c = 42 || c = 43 || c = 44 || c = 59 || c = 61 ||
      c = 58 || c = 64 || c = 91 || c = 93 || c = 37 || !shouldEscape .path c

/-- `EscapedPath`. -/
def Url.escapedPath (u : Url) : GoString :=
  if u.rawPath ≠ [] ∧ validEncoded u.rawPath = true ∧ unescape u.rawPath = some u.path then u.rawPath
  else if u.path = [42] then [42]
  else escape .path u.path

/-! ### Reading back an escape -/

theorem unescape_cons {c : UInt8} (hc : c ≠ 37) (rest : GoString) :
    unescape (c :: rest) = (unescape rest).map (c :: ·) := by
  rw [unescape, if_neg hc]
  exact fun _ _ _ h => absurd h hc

theorem hex_byte (c : UInt8) : isHex (upperHex (c >>> 4)) = true ∧ isHex (upperHex (c &&& 15)) = true ∧
    (unhex (upperHex (c >>> 4)) <<< 4 ||| unhex (upperHex (c &&& 15))) = c := by
  have h : ∀ n : Fin 256, isHex (upperHex (UInt8.ofFin n >>> 4)) = true ∧
      isHex (upperHex (UInt8.ofFin n &&& 15)) = true ∧
      (unhex (upperHex (UInt8.ofFin n >>> 4)) <<< 4 ||| unhex (upperHex (UInt8.ofFin n &&& 15))) = UInt8.ofFin n := by
    decide +kernel
  exact h c.toFin

theorem unescape_escapeByte (mode : PathMode) (c : UInt8) (rest : GoString) :
    unescape (escapeByte mode c ++ rest) = (unescape rest).map (c :: ·) := by
  unfold escapeByte
  split_ifs with h
  · obtain ⟨h1, h2, h3⟩ := hex_byte c
    show unescape (37 :: _ :: _ :: rest) = _
    rw [unescape, if_pos (by rw [h1, h2]; rfl), h3]
  · refine unescape_cons ?_ rest
    rintro rfl
    cases mode <;> exact h (by decide)

/-- An escaped text is read back in front of anything. -/
theorem unescape_escape_append (mode : PathMode) (s rest : GoString) :
    unescape (escape mode s ++ rest) = (unescape rest).map (s ++ ·) := by
  induction s with
  | nil => simp [escape]
  | cons c s ih =>
    rw [escape, List.flatMap_cons, List.append_assoc, unescape_escapeByte]
    show (unescape (escape mode s ++ rest)).map _ = _
    rw [ih, Option.map_map]
    rfl

/-- **`PathUnescape` inverts `PathEscape`.** -/
theorem pathUnescape_pathEscape (s : GoString) : pathUnescape (pathEscape s) = some s := by
  have h := unescape_escape_append .segment s []
  rw [List.append_nil] at h
  exact h.trans (by simp [unescape])

/-- The bytes of an escape. -/
theorem mem_escape {mode : PathMode} {s : GoString} {b : UInt8} (h : b ∈ escape mode s) :
    b = 37 ∨ (48 ≤ b ∧ b ≤ 57) ∨ (65 ≤ b ∧ b ≤ 70) ∨ shouldEscape mode b = false := by
  obtain ⟨c, -, hb⟩ := List.mem_flatMap.mp h
  unfold escapeByte at hb
  split_ifs at hb with hc
  · have hex : ∀ n : Fin 16, (48 ≤ upperHex (UInt8.ofNat n) ∧ upperHex (UInt8.ofNat n) ≤ 57) ∨
        (65 ≤ upperHex (UInt8.ofNat n) ∧ upperHex (UInt8.ofNat n) ≤ 70) := by decide
    have hhi : ∀ n : Fin 256, (UInt8.ofFin n >>> 4).toNat < 16 ∧ (UInt8.ofFin n &&& 15).toNat < 16 := by
      decide +kernel
    obtain ⟨h1, h2⟩ := hhi c.toFin
    have e1 := hex ⟨(c >>> 4).toNat, h1⟩
    have e2 := hex ⟨(c &&& 15).toNat, h2⟩
    simp only [UInt8.ofNat_toNat] at e1 e2
    simp only [List.mem_cons, List.not_mem_nil, or_false] at hb
    rcases hb with rfl | rfl | rfl
    · exact Or.inl rfl
    · exact Or.inr (e1.imp id Or.inl)
    · exact Or.inr (e2.imp id Or.inl)
  · rw [List.mem_singleton] at hb
    subst hb
    exact Or.inr (Or.inr (Or.inr (by simpa using hc)))

/-- A segment has no slash. -/
theorem slash_notMem_pathEscape (s : GoString) : (47 : UInt8) ∉ pathEscape s := by
  intro h
  rcases mem_escape h with h | h | h | h <;> revert h <;> decide

theorem validEncoded_append (s t : GoString) : validEncoded (s ++ t) = (validEncoded s && validEncoded t) :=
  List.all_append

theorem validEncoded_pathEscape (s : GoString) : validEncoded (pathEscape s) = true := by
  have hall : ∀ n : Fin 256, let b := UInt8.ofFin n
      (b = 37 ∨ (48 ≤ b ∧ b ≤ 57) ∨ (65 ≤ b ∧ b ≤ 70) ∨ shouldEscape .segment b = false) →
        validEncoded [b] = true := by decide +kernel
  unfold validEncoded
  rw [List.all_eq_true]
  intro b hb
  have := hall b.toFin (mem_escape hb)
  simpa [validEncoded] using this

/-- **A validly encoded path comes through parsing and printing unchanged.** -/
theorem escapedPath_setPath {p path : GoString} (hp : unescape p = some path) (hv : validEncoded p = true)
    (hstar : path ≠ [42]) (hne : p ≠ []) : (setPath p).map Url.escapedPath = some p := by
  unfold setPath
  rw [hp, Option.map_some, Option.map_some]
  by_cases he : p = escape .path path
  · rw [if_pos he]
    simp only [Url.escapedPath, ne_eq, not_true_eq_false, false_and, if_false, if_neg hstar]
    rw [← he]
  · rw [if_neg he]
    simp only [Url.escapedPath]
    rw [if_pos ⟨hne, hv, hp⟩]

/-! ### Queries -/

/-- `shouldEscape(c, encodeQueryComponent)`. -/
def queryShouldEscape (c : UInt8) : Bool :=
  if (97 ≤ c && c ≤ 122) || (65 ≤ c && c ≤ 90) || (48 ≤ c && c ≤ 57) then false
  -- '-', '_', '.', '~'
  else if c = 45 || c = 95 || c = 46 || c = 126 then false
  else true

/-- One byte of `QueryEscape`: a space becomes a plus sign. -/
def queryEscapeByte (c : UInt8) : GoString :=
  if c = 32 then [43]
  else if queryShouldEscape c then [37, upperHex (c >>> 4), upperHex (c &&& 15)]
  else [c]

/-- `url.QueryEscape`. -/
def queryEscape (s : GoString) : GoString := s.flatMap queryEscapeByte

/-- `url.QueryUnescape`; `none` is an `EscapeError`. -/
def queryUnescape : GoString → Option GoString
  | [] => some []
  | 37 :: a :: b :: rest =>
    if isHex a && isHex b then (queryUnescape rest).map fun t => (unhex a <<< 4 ||| unhex b) :: t else none
  | c :: rest => if c = 37 then none else (queryUnescape rest).map ((if c = 43 then 32 else c) :: ·)

/-- `strings.ReplaceAll(s, old, new)` for an `old` of one byte. -/
def replaceAll (s : GoString) (old : UInt8) (new : GoString) : GoString :=
  s.flatMap fun c => if c = old then new else [c]

/-- `strings.Cut(s, sep)` for a `sep` of one byte. -/
def cut (s : GoString) (sep : UInt8) : GoString × GoString :=
  (s.takeWhile fun c => c ≠ sep, (s.dropWhile fun c => c ≠ sep).drop 1)

/-- `url.Values`: the names in the order of their first value, each with its values. -/
abbrev Values := List (GoString × List GoString)

/-- `m[key] = append(m[key], value)`. -/
def Values.add (m : Values) (key value : GoString) : Values :=
  match m with
  | [] => [(key, [value])]
  | (k, vs) :: m => if k = key then (k, vs ++ [value]) :: m else (k, vs) :: Values.add m key value

/-- `m[key]`. -/
def Values.get (m : Values) (key : GoString) : List GoString := (m.lookup key).getD []

/-- One round of `ParseQuery` on the text before the next ampersand; the flag is `err != nil`. -/
def parsePair (r : Values × Bool) (pair : GoString) : Values × Bool :=
  if (59 : UInt8) ∈ pair then (r.1, true)
  else if pair = [] then r
  else
    let kv := cut pair 61
    match queryUnescape kv.1 with
    | none => (r.1, true)
    | some key =>
      match queryUnescape kv.2 with
      | none => (r.1, true)
      | some value => (r.1.add key value, r.2)

/-- `url.ParseQuery`.  Its loop ends at the end of the query, where nothing or an empty text is left, and an empty
text adds nothing. -/
def parseQuery (query : GoString) : Values × Bool := (query.splitOn 38).foldl parsePair ([], false)

theorem queryUnescape_cons {c : UInt8} (hc : c ≠ 37) (rest : GoString) :
    queryUnescape (c :: rest) = (queryUnescape rest).map ((if c = 43 then 32 else c) :: ·) := by
  rw [queryUnescape, if_neg hc]
  exact fun _ _ _ h => absurd h hc

/-- The canonical escape: `QueryEscape` with `%20` for a space. -/
def canonicalEscape (s : GoString) : GoString := replaceAll (queryEscape s) 43 (ascii "%20")

/-- One byte of the canonical escape. -/
def canonicalByte (c : UInt8) : GoString :=
  if queryShouldEscape c then [37, upperHex (c >>> 4), upperHex (c &&& 15)] else [c]

theorem canonicalEscape_eq (s : GoString) : canonicalEscape s = s.flatMap canonicalByte := by
  have hbyte : ∀ n : Fin 256, replaceAll (queryEscapeByte (UInt8.ofFin n)) 43 (ascii "%20") =
      canonicalByte (UInt8.ofFin n) := by decide +kernel
  unfold canonicalEscape queryEscape replaceAll
  rw [List.flatMap_assoc]
  exact congrArg (fun f => s.flatMap f) (funext fun c => hbyte c.toFin)

/-- The bytes of a canonical escape are no separators. -/
theorem mem_canonicalEscape {s : GoString} {b : UInt8} (h : b ∈ canonicalEscape s) : b ≠ 38 ∧ b ≠ 59 ∧ b ≠ 61 := by
  have hbyte : ∀ n : Fin 256, ((canonicalByte (UInt8.ofFin n)).all fun b => b ≠ 38 ∧ b ≠ 59 ∧ b ≠ 61) = true := by
    decide +kernel
  rw [canonicalEscape_eq] at h
  obtain ⟨c, -, hb⟩ := List.mem_flatMap.mp h
  exact of_decide_eq_true (List.all_eq_true.mp (hbyte c.toFin) b hb)

theorem queryUnescape_canonicalByte (c : UInt8) (rest : GoString) :
    queryUnescape (canonicalByte c ++ rest) = (queryUnescape rest).map (c :: ·) := by
  unfold canonicalByte
  split_ifs with h
  · obtain ⟨h1, h2, h3⟩ := hex_byte c
    show queryUnescape (37 :: _ :: _ :: rest) = _
    rw [queryUnescape, if_pos (by rw [h1, h2]; rfl), h3]
  · have h37 : c ≠ 37 := by rintro rfl; exact h (by decide)
    have h43 : c ≠ 43 := by rintro rfl; exact h (by decide)
    show queryUnescape (c :: rest) = _
    rw [queryUnescape_cons h37, if_neg h43]

/-- **The canonical escape is read back.** -/
theorem queryUnescape_canonicalEscape (s : GoString) : queryUnescape (canonicalEscape s) = some s := by
  rw [canonicalEscape_eq]
  induction s with
  | nil => rfl
  | cons c s ih => rw [List.flatMap_cons, queryUnescape_canonicalByte, ih, Option.map_some]

theorem cut_append {a : GoString} {sep : UInt8} (h : sep ∉ a) (b : GoString) : cut (a ++ sep :: b) sep = (a, b) := by
  have hall : ∀ x ∈ a, decide (x ≠ sep) = true := fun x hx => decide_eq_true fun he => h (he ▸ hx)
  unfold cut
  rw [List.takeWhile_append_of_pos hall, List.dropWhile_append_of_pos hall]
  simp

/-- **A query of one parameter** in canonical form is parsed into it. -/
theorem parseQuery_single {name : GoString} (hname : queryUnescape name = some name)
    (hsep : (38 : UInt8) ∉ name ∧ (59 : UInt8) ∉ name ∧ (61 : UInt8) ∉ name) (value : GoString) :
    parseQuery (name ++ 61 :: canonicalEscape value) = ([(name, [value])], false) := by
  have hnot : ∀ c, c = 38 ∨ c = 59 → c ∉ name ++ 61 :: canonicalEscape value := by
    intro c hc hmem
    rcases List.mem_append.mp hmem with hm | hm
    · rcases hc with rfl | rfl
      · exact hsep.1 hm
      · exact hsep.2.1 hm
    · rcases List.mem_cons.mp hm with rfl | hm
      · rcases hc with hc | hc <;> exact absurd hc (by decide)
      · obtain ⟨h1, h2, -⟩ := mem_canonicalEscape hm
        rcases hc with rfl | rfl
        · exact h1 rfl
        · exact h2 rfl
  unfold parseQuery
  rw [List.splitOn_eq_singleton (hnot 38 (Or.inl rfl)), List.foldl_cons, List.foldl_nil]
  unfold parsePair
  rw [if_neg (hnot 59 (Or.inr rfl)), if_neg (by simp), cut_append hsep.2.2]
  simp only [hname, queryUnescape_canonicalEscape]
  rfl

end SimpleCache.Go
