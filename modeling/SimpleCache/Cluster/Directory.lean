import Mathlib.Data.List.Induction
import Mathlib.Data.List.Sort
import SimpleCache.Cluster.Protocol

/-!
# Cluster.Directory — membership snapshots (`cluster/directory.go`)

`Directory.Update` sorts its input, drops repeated identities, and publishes an immutable snapshot, or fails and
publishes nothing.  A `Snapshot` carries what its readers rely on: the client of a member sends to the address of
that member.
-/

namespace SimpleCache.Cluster

structure Member where
  id : GoString
  address : GoString
  deriving DecidableEq, Repr

/-! ### Addresses -/

/-- `net.SplitHostPort`; `none` is an `AddrError`. -/
def splitHostPort (s : GoString) : Option (GoString × GoString) :=
  if (58 : UInt8) ∉ s then none
  else
    -- the port starts after the last colon
    let port := (s.reverse.takeWhile fun c => c ≠ 58).reverse
    let i := s.length - port.length - 1
    let parts : Option (GoString × ℕ × ℕ) :=
      if s.head? = some 91 then
        let stop := s.idxOf 93
        if (93 : UInt8) ∈ s ∧ stop + 1 = i then some ((s.take stop).drop 1, 1, stop + 1) else none
      else if (58 : UInt8) ∈ s.take i then none
      else some (s.take i, 0, 0)
    parts.bind fun (host, j, k) =>
      if (91 : UInt8) ∈ s.drop j ∨ (93 : UInt8) ∈ s.drop k then none else some (host, port)

/-- `validAddress`. -/
def validAddress (address : GoString) : Bool :=
  if (47 : UInt8) ∈ address ∨ (63 : UInt8) ∈ address ∨ (35 : UInt8) ∈ address then false
  else
    match splitHostPort address with
    | none => false
    | some (host, port) =>
      match Go.parseInt port with
      | none => false
      | some number => host ≠ [] && 0 < number && number ≤ 65535

/-- The last colon splits, when there is no bracket and the host has no colon. -/
theorem splitHostPort_append {host port : GoString} (hhost : ∀ c ∈ host, c ≠ 58 ∧ c ≠ 91 ∧ c ≠ 93)
    (hport : ∀ c ∈ port, c ≠ 58 ∧ c ≠ 91 ∧ c ≠ 93) :
    splitHostPort (host ++ 58 :: port) = some (host, port) := by
  have hlast : ((host ++ 58 :: port).reverse.takeWhile fun c => c ≠ 58).reverse = port := by
    rw [List.reverse_append, List.reverse_cons, List.append_assoc, List.takeWhile_append_of_pos]
    · simp
    · intro c hc
      simpa using (hport c (List.mem_reverse.mp hc)).1
  have hlen : (host ++ 58 :: port).length - port.length - 1 = host.length := by
    simp only [List.length_append, List.length_cons]
    omega
  have hbracket : ∀ x : UInt8, x = 91 ∨ x = 93 → x ∉ host ++ 58 :: port := by
    intro x hx hmem
    rcases List.mem_append.mp hmem with h | h
    · rcases hx with rfl | rfl
      · exact (hhost _ h).2.1 rfl
      · exact (hhost _ h).2.2 rfl
    · rcases List.mem_cons.mp h with h | h
      · rcases hx with rfl | rfl <;> exact absurd h (by decide)
      · rcases hx with rfl | rfl
        · exact (hport _ h).2.1 rfl
        · exact (hport _ h).2.2 rfl
  have hhead : (host ++ 58 :: port).head? ≠ some 91 := fun h =>
    hbracket 91 (.inl rfl) (List.mem_of_head? h)
  have hcolon : (58 : UInt8) ∉ host := fun h => (hhost _ h).1 rfl
  unfold splitHostPort
  rw [if_neg (by simp), hlast]
  dsimp only
  rw [hlen, if_neg hhead, List.take_left, if_neg hcolon]
  simp only [Option.bind_some, List.drop_zero]
  rw [if_neg]
  rintro (h | h)
  · exact hbracket 91 (.inl rfl) h
  · exact hbracket 93 (.inr rfl) h

/-- The bytes of an IPv4 host and a port. -/
def hostByte (c : UInt8) : Bool := Go.isDigit c || c = 46

theorem hostByte_ne {c x : UInt8} (hc : hostByte c = true) (hx : hostByte x = false) : c ≠ x := by
  rintro rfl
  rw [hc] at hx
  cases hx

/-- A host of digits and dots and a port number make a valid address. -/
theorem validAddress_append {host : GoString} {port : ℤ} (hne : host ≠ []) (hhost : ∀ c ∈ host, hostByte c = true)
    (h1 : 1 ≤ port) (h2 : port ≤ 65535) : validAddress (host ++ 58 :: Go.formatInt port) = true := by
  have hport : ∀ c ∈ Go.formatInt port, hostByte c = true := by
    intro c hc
    obtain ⟨n, rfl⟩ := Int.eq_ofNat_of_zero_le (show 0 ≤ port by omega)
    simp [hostByte, Go.formatUint_isDigit hc]
  have hplain : ∀ c, hostByte c = true → c ≠ 58 ∧ c ≠ 91 ∧ c ≠ 93 := fun c hc =>
    ⟨hostByte_ne hc rfl, hostByte_ne hc rfl, hostByte_ne hc rfl⟩
  have hnot : ∀ x : UInt8, hostByte x = false → x ≠ 58 → x ∉ host ++ 58 :: Go.formatInt port := by
    intro x hx hcolon hmem
    rcases List.mem_append.mp hmem with h | h
    · exact hostByte_ne (hhost x h) hx rfl
    · rcases List.mem_cons.mp h with h | h
      · exact hcolon h
      · exact hostByte_ne (hport x h) hx rfl
  have hsplit : splitHostPort (host ++ 58 :: Go.formatInt port) = some (host, Go.formatInt port) :=
    splitHostPort_append (fun c hc => hplain c (hhost c hc)) (fun c hc => hplain c (hport c hc))
  have hparse : Go.parseInt (Go.formatInt port) = some port :=
    Go.parseInt_formatInt (by omega) (by unfold Go.maxInt64; omega)
  unfold validAddress
  rw [if_neg, hsplit]
  · dsimp only
    rw [hparse]
    simp only [Bool.and_eq_true, decide_eq_true_eq]
    exact ⟨⟨hne, by omega⟩, h2⟩
  · rintro (h | h | h)
    · exact hnot 47 rfl (by decide) h
    · exact hnot 63 rfl (by decide) h
    · exact hnot 35 rfl (by decide) h

/-! ### Normalization -/

/-- The order of the sort: by identity, then by address. -/
def Member.le (a b : Member) : Prop := a.id < b.id ∨ (a.id = b.id ∧ a.address ≤ b.address)

instance : DecidableRel Member.le := fun a b => by unfold Member.le; infer_instance

instance : Std.Total Member.le where
  total a b := by
    unfold Member.le
    by_cases h : a.id = b.id
    · rcases List.le_total a.address b.address with h' | h'
      · exact Or.inl (Or.inr ⟨h, h'⟩)
      · exact Or.inr (Or.inr ⟨h.symm, h'⟩)
    · by_cases hlt : a.id < b.id
      · exact Or.inl (Or.inl hlt)
      · by_cases hlt' : b.id < a.id
        · exact Or.inr (Or.inl hlt')
        · exact absurd (List.le_antisymm (List.not_lt.mp hlt') (List.not_lt.mp hlt)) h

instance : IsTrans Member Member.le where
  trans a b c hab hbc := by
    unfold Member.le at *
    rcases hab with h | ⟨h, h'⟩
    · rcases hbc with h₂ | ⟨h₂, -⟩
      · exact Or.inl (List.lt_trans h h₂)
      · exact Or.inl (h₂ ▸ h)
    · rcases hbc with h₂ | ⟨h₂, h₂'⟩
      · exact Or.inl (h ▸ h₂)
      · exact Or.inr ⟨h.trans h₂, List.le_trans h' h₂'⟩

instance : Std.Antisymm Member.le where
  antisymm a b hab hba := by
    obtain ⟨ida, addra⟩ := a
    obtain ⟨idb, addrb⟩ := b
    rcases hab with h | ⟨h, h'⟩
    · rcases hba with h₂ | ⟨h₂, -⟩
      · exact absurd h₂ (List.lt_asymm h)
      · exact absurd h (h₂ ▸ List.lt_irrefl _)
    · rcases hba with h₂ | ⟨-, h₂'⟩
      · exact absurd h₂ (h ▸ List.lt_irrefl _)
      · simp only at h h' h₂'
        rw [h, List.le_antisymm h' h₂']

/-- The loop of `Update` over the sorted members; the error names the first invalid one. -/
def normalizeLoop (normalized : List Member) : List Member → Except Member (List Member)
  | [] => .ok normalized
  | m :: ms =>
    if m.id = [] ∨ validAddress m.address = false then .error m
    -- lexical address order breaks the tie between transient duplicates
    else if normalized.getLast?.map Member.id = some m.id then normalizeLoop normalized ms
    else normalizeLoop (normalized ++ [m]) ms

/-- The members that `Update` publishes for an input. -/
def normalize (input : List Member) : Except Member (List Member) :=
  normalizeLoop [] (input.insertionSort Member.le)

theorem Member.le.id_le {a b : Member} (h : a.le b) : a.id ≤ b.id := by
  rcases h with h | ⟨h, -⟩
  · exact List.le_of_lt h
  · exact h ▸ List.le_refl _

/-- An identity that the accumulator has is that of its last member. -/
theorem last_id_iff {acc : List Member} {m : Member} (hacc : acc.Pairwise fun a b => a.id < b.id)
    (hle : ∀ a ∈ acc, a.id ≤ m.id) : acc.getLast?.map Member.id = some m.id ↔ ∃ a ∈ acc, a.id = m.id := by
  constructor
  · intro h
    obtain ⟨a, ha, hid⟩ := Option.map_eq_some_iff.mp h
    exact ⟨a, List.mem_of_getLast? ha, hid⟩
  · rintro ⟨a, ha, hid⟩
    obtain ⟨last, hlast⟩ := List.getLast?_isSome.mpr (List.ne_nil_of_mem ha) |> Option.isSome_iff_exists.mp
    have hal : a.id ≤ last.id := by
      obtain ⟨init, hinit⟩ := List.getLast?_eq_some_iff.mp hlast
      rw [hinit, List.mem_append, List.mem_singleton] at ha
      rcases ha with ha | rfl
      · rw [hinit, List.pairwise_append] at hacc
        exact List.le_of_lt (hacc.2.2 a ha last (by simp))
      · exact List.le_refl _
    rw [hlast, Option.map_some, Option.some.injEq]
    exact List.le_antisymm (hle last (List.mem_of_getLast? hlast)) (hid ▸ hal)

/-- The accumulator of the loop stays in strict order. -/
theorem pairwise_snoc {acc : List Member} {m : Member} (hacc : acc.Pairwise fun a b => a.id < b.id)
    (hle : ∀ a ∈ acc, a.id ≤ m.id) (hdup : ¬ acc.getLast?.map Member.id = some m.id) :
    (acc ++ [m]).Pairwise fun a b => a.id < b.id := by
  rw [List.pairwise_append]
  refine ⟨hacc, List.pairwise_singleton _ _, fun a ha b hb => ?_⟩
  rw [List.mem_singleton.mp hb]
  exact Std.lt_of_le_of_ne (hle a ha) fun heq => hdup ((last_id_iff hacc hle).mpr ⟨a, ha, heq⟩)

/-- The members still to come are not before those of the accumulator. -/
theorem le_snoc {acc ms : List Member} {m : Member} (hms : ∀ x ∈ ms, m.le x)
    (hle : ∀ a ∈ acc, ∀ x ∈ m :: ms, a.id ≤ x.id) : ∀ a ∈ acc ++ [m], ∀ x ∈ ms, a.id ≤ x.id := by
  intro a ha x hx
  rcases List.mem_append.mp ha with ha | ha
  · exact hle a ha x (List.mem_cons_of_mem _ hx)
  · rw [List.mem_singleton.mp ha]
    exact (hms x hx).id_le

/-- The loop keeps the identities in strict order. -/
theorem normalizeLoop_strict : ∀ (ms acc l : List Member), normalizeLoop acc ms = .ok l → ms.Pairwise Member.le →
    acc.Pairwise (fun a b => a.id < b.id) → (∀ a ∈ acc, ∀ m ∈ ms, a.id ≤ m.id) →
    l.Pairwise fun a b => a.id < b.id
  | [], acc, l, h, _, hacc, _ => by
    rw [normalizeLoop, Except.ok.injEq] at h
    exact h ▸ hacc
  | m :: ms, acc, l, h, hms, hacc, hle => by
    rw [normalizeLoop] at h
    rw [List.pairwise_cons] at hms
    split_ifs at h with hbad hdup
    · exact normalizeLoop_strict ms acc l h hms.2 hacc fun a ha x hx => hle a ha x (List.mem_cons_of_mem _ hx)
    · exact normalizeLoop_strict ms (acc ++ [m]) l h hms.2
        (pairwise_snoc hacc (fun a ha => hle a ha m List.mem_cons_self) hdup) (le_snoc hms.1 hle)

theorem nodup_of_strict {l : List Member} (h : l.Pairwise fun a b => a.id < b.id) : (l.map Member.id).Nodup := by
  refine List.pairwise_map.mpr (h.imp fun {a b} hlt he => ?_)
  rw [he] at hlt
  exact List.lt_irrefl _ hlt

theorem normalize_strict {input l : List Member} (h : normalize input = .ok l) :
    l.Pairwise fun a b => a.id < b.id :=
  normalizeLoop_strict _ [] l h (List.pairwise_insertionSort Member.le input) .nil (by simp)

theorem normalize_nodup {input l : List Member} (h : normalize input = .ok l) : (l.map Member.id).Nodup :=
  nodup_of_strict (normalize_strict h)

/-- **The order of the input does not matter.** -/
theorem normalize_perm {l l' : List Member} (h : l.Perm l') : normalize l = normalize l' := by
  have hperm : (l.insertionSort Member.le).Perm (l'.insertionSort Member.le) :=
    (List.perm_insertionSort _ l).trans (h.trans (List.perm_insertionSort _ l').symm)
  have hsorted := hperm.eq_of_pairwise' (List.pairwise_insertionSort Member.le l)
    (List.pairwise_insertionSort Member.le l')
  rw [normalize, normalize, hsorted]

/-- The members that `Update` accepts. -/
def Member.Valid (m : Member) : Prop := m.id ≠ [] ∧ validAddress m.address = true

theorem normalizeLoop_ok : ∀ (ms acc : List Member), (∀ m ∈ ms, m.Valid) → ∃ l, normalizeLoop acc ms = .ok l
  | [], acc, _ => ⟨acc, rfl⟩
  | m :: ms, acc, h => by
    have hm : ¬(m.id = [] ∨ validAddress m.address = false) := by
      rintro (hid | haddr)
      · exact (h m List.mem_cons_self).1 hid
      · exact absurd (h m List.mem_cons_self).2 (by simp [haddr])
    have hms : ∀ x ∈ ms, x.Valid := fun x hx => h x (List.mem_cons_of_mem _ hx)
    rw [normalizeLoop, if_neg hm]
    split_ifs
    · exact normalizeLoop_ok ms acc hms
    · exact normalizeLoop_ok ms (acc ++ [m]) hms

theorem normalize_ok {input : List Member} (h : ∀ m ∈ input, m.Valid) : ∃ l, normalize input = .ok l :=
  normalizeLoop_ok _ [] fun m hm => h m ((List.perm_insertionSort Member.le input).mem_iff.mp hm)

/-! ### Snapshots -/

/-- The clients of a snapshot, by identity. -/
def clientsOf (token : GoString) (members : List Member) : GoString → Option Client :=
  members.foldl (fun clients m => Function.update clients m.id (some ⟨m.address, token⟩)) fun _ => none

theorem clientsOf_mem {token : GoString} {members : List Member} (h : (members.map Member.id).Nodup) {m : Member}
    (hm : m ∈ members) : clientsOf token members m.id = some ⟨m.address, token⟩ := by
  unfold clientsOf
  induction members using List.reverseRecOn with
  | nil => simp at hm
  | append_singleton ms m' ih =>
    rw [List.foldl_append, List.foldl_cons, List.foldl_nil]
    rw [List.map_append, List.map_cons, List.map_nil, List.nodup_append] at h
    rcases List.mem_append.mp hm with hm | hm
    · rw [Function.update_of_ne (h.2.2 _ (List.mem_map_of_mem hm) _ (by simp))]
      exact ih h.1 hm
    · rw [List.mem_singleton] at hm
      subst hm
      exact Function.update_self _ _ _

/-- An immutable `snapshot`; `object` is the identity of the allocation. -/
structure Snapshot where
  object : ℕ
  members : List Member
  clients : GoString → Option Client
  /-- The client of a member sends to its address. -/
  reaches : ∀ m ∈ members, ∃ c, clients m.id = some c ∧ c.address = m.address

/-- A `Directory`; `next` counts the snapshots it has allocated. -/
structure Directory where
  selfID : GoString
  token : GoString
  state : Snapshot
  next : ℕ

/-- `NewDirectory`, whose first `Update(nil)` publishes the empty snapshot. -/
def newDirectory (selfID token : GoString) : Directory where
  selfID := selfID
  token := token
  state := ⟨0, [], fun _ => none, by simp⟩
  next := 1

/-- `Directory.Update`. -/
def Directory.update (d : Directory) (input : List Member) : Except Member Unit × Directory :=
  match h : normalize input with
  | .error m => (.error m, d)
  | .ok normalized =>
    if d.state.members = normalized then (.ok (), d)
    else
      (.ok (), { d with
        state := ⟨d.next, normalized, clientsOf d.token normalized, fun m hm =>
          ⟨⟨m.address, d.token⟩, clientsOf_mem (normalize_nodup h) hm, rfl⟩⟩
        next := d.next + 1 })

theorem Directory.update_selfID (d : Directory) (input : List Member) : (d.update input).2.selfID = d.selfID := by
  unfold Directory.update
  split
  · rfl
  · split_ifs <;> rfl

theorem Directory.update_ok {d : Directory} {input l : List Member} (h : normalize input = .ok l) :
    (d.update input).1 = .ok () ∧ (d.update input).2.state.members = l := by
  unfold Directory.update
  split
  · next heq =>
    rw [h] at heq
    cases heq
  · next heq =>
    rw [h, Except.ok.injEq] at heq
    subst heq
    split_ifs with hsame
    · exact ⟨rfl, hsame⟩
    · exact ⟨rfl, rfl⟩

end SimpleCache.Cluster
