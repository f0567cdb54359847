import SimpleCache.Go.Text

/-!
# Go.Net — IP addresses and host-port pairs (`net.ParseIP`, `IP.To4`, `net.JoinHostPort`)

An `IP` from `net.ParseIP` has 16 bytes, an IPv4 address among them behind its prefix.  A zone is refused by `ParseIP`,
so `parseIPv6` has no zone to carry.
-/

namespace SimpleCache.Go

/-- `net.IP` as `net.ParseIP` returns it. -/
abbrev IP := List UInt8

/-- The loop of `parseIPv4Fields` from the fields before the current one, its value and its number of digits. -/
def ipv4Loop (fields : List UInt8) (val digLen : ℕ) : GoString → Option (List UInt8)
  | [] => if fields.length < 3 then none else some (fields ++ [val.toUInt8])
  | c :: rest =>
    if isDigit c then
      -- no leading zero
      if digLen = 1 ∧ val = 0 then none
      else
        let next := val * 10 + (c.toNat - 48)
        if 255 < next then none else ipv4Loop fields next (digLen + 1) rest
    else if c = 46 then
      if digLen = 0 ∨ rest = [] then none
      else if fields.length = 3 then none
      else ipv4Loop (fields ++ [val.toUInt8]) 0 0 rest
    else none

/-- `parseIPv4Fields`. -/
def parseIPv4Fields (s : GoString) : Option (List UInt8) := ipv4Loop [] 0 0 s

/-- The value of a hexadecimal digit. -/
def hexDigit (c : UInt8) : Option ℕ :=
  if isDigit c then some (c.toNat - 48)
  else if 97 ≤ c ∧ c ≤ 102 then some (c.toNat - 97 + 10)
  else if 65 ≤ c ∧ c ≤ 70 then some (c.toNat - 65 + 10)
  else none

/-- The hexadecimal number at the start of a text: its digits, its value and what follows. -/
def hexGroup (off acc : ℕ) : GoString → Option (ℕ × ℕ × GoString)
  | [] => some (off, acc, [])
  | c :: rest =>
    match hexDigit c with
    | none => some (off, acc, c :: rest)
    | some d =>
      let acc := acc * 16 + d
      if 3 < off ∨ 65535 < acc then none else hexGroup (off + 1) acc rest

/-- The loop of `parseIPv6` over the groups: the bytes so far, the place of the ellipsis and the rest of the text.  It
runs while there is room for a group. -/
def ipv6Loop : ℕ → List UInt8 → Option ℕ → GoString → Option (List UInt8 × Option ℕ × GoString)
  | 0, ip, ellipsis, s => some (ip, ellipsis, s)
  | n + 1, ip, ellipsis, s =>
    match hexGroup 0 0 s with
    | none => none
    | some (off, acc, rest) =>
      if off = 0 then none
      else if rest.head? = some 46 then
        -- an embedded IPv4 address is the last four bytes
        if ellipsis = none ∧ ip.length ≠ 12 then none
        else if 16 < ip.length + 4 then none
        else (parseIPv4Fields s).map fun fields => (ip ++ fields, ellipsis, [])
      else
        let ip := ip ++ [(acc / 256).toUInt8, acc.toUInt8]
        match rest with
        | [] => some (ip, ellipsis, [])
        | c :: rest =>
          if c ≠ 58 then none
          else
            match rest with
            | [] => none
            | d :: rest =>
              if d ≠ 58 then ipv6Loop n ip ellipsis (d :: rest)
              else if ellipsis.isSome then none
              else if rest = [] then some (ip, some ip.length, [])
              else ipv6Loop n ip (some ip.length) rest

/-- `netip.parseIPv6` of a text without a zone. -/
def parseIPv6 (s : GoString) : Option IP :=
  let leading := s.take 2 = [58, 58]
  let rest := if leading then s.drop 2 else s
  if leading ∧ rest = [] then some (List.replicate 16 0)
  else
    match ipv6Loop 8 [] (if leading then some 0 else none) rest with
    | none => none
    | some (ip, ellipsis, rest) =>
      if rest ≠ [] then none
      else if ip.length < 16 then
        ellipsis.map fun k => ip.take k ++ List.replicate (16 - ip.length) 0 ++ ip.drop k
      else if ellipsis.isSome then none
      else some ip

/-- The first bytes of an IPv4 address of 16 bytes. -/
def v4InV6Prefix : List UInt8 := List.replicate 10 0 ++ [0xff, 0xff]

/-- `net.ParseIP`; `none` is nil. -/
def parseIP (s : GoString) : Option IP :=
  match s.find? fun c => c = 46 ∨ c = 58 ∨ c = 37 with
  | some c =>
    if c = 46 then (parseIPv4Fields s).map fun fields => v4InV6Prefix ++ fields
    else if c = 58 then if 37 ∈ s then none else parseIPv6 s
    else none
  | none => none

/-- An IPv4 address. -/
structure IPv4 where
  a : UInt8
  b : UInt8
  c : UInt8
  d : UInt8
  deriving DecidableEq, Repr

/-- `IP.To4`. -/
def to4 (ip : IP) : Option IPv4 :=
  match ip.drop 12 with
  | [a, b, c, d] => if ip.take 12 = v4InV6Prefix then some ⟨a, b, c, d⟩ else none
  | _ => none

/-- `IP.String` of an IPv4 address. -/
def IPv4.string (ip : IPv4) : GoString :=
  formatUint ip.a.toNat ++ 46 :: (formatUint ip.b.toNat ++ 46 :: (formatUint ip.c.toNat ++ 46 ::
    formatUint ip.d.toNat))

/-- `net.JoinHostPort`. -/
def joinHostPort (host port : GoString) : GoString :=
  if (58 : UInt8) ∈ host then 91 :: (host ++ [93, 58] ++ port) else host ++ 58 :: port

theorem IPv4.string_ne_nil (ip : IPv4) : ip.string ≠ [] := by
  simp [IPv4.string]

/-- The dotted form has digits and dots only. -/
theorem IPv4.mem_string {ip : IPv4} {x : UInt8} (h : x ∈ ip.string) : isDigit x = true ∨ x = 46 := by
  simp only [IPv4.string, List.mem_append, List.mem_cons] at h
  rcases h with h | rfl | h | rfl | h | rfl | h
  · exact .inl (formatUint_isDigit h)
  · exact .inr rfl
  · exact .inl (formatUint_isDigit h)
  · exact .inr rfl
  · exact .inl (formatUint_isDigit h)
  · exact .inr rfl
  · exact .inl (formatUint_isDigit h)

/-- What is neither a digit nor a dot is not in it. -/
theorem IPv4.notMem_string (ip : IPv4) {x : UInt8} (hd : isDigit x = false) (hx : x ≠ 46) : x ∉ ip.string := by
  intro h
  rcases IPv4.mem_string h with h | h
  · rw [hd] at h
    cases h
  · exact hx h

theorem IPv4.joinHostPort (ip : IPv4) (port : GoString) : joinHostPort ip.string port = ip.string ++ 58 :: port := by
  rw [Go.joinHostPort, if_neg (ip.notMem_string (by decide) (by decide))]

end SimpleCache.Go
