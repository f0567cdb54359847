import SimpleCache.Cluster.Directory
import SimpleCache.Lib.Run

/-!
# Cluster.Canonical — `Directory.Update` publishes a canonical form

The canonical form of a membership has every identity once, with its least address; `Least input` says which members
these are, and `normalize_mem` that the sort and the loop of `Update` find them.  A strictly sorted list is determined
by its members, so inputs with one canonical form are normalized alike.  `update_canonical` says over every sequence of
updates what is published, when the snapshot stays the same object, and that a published object never changes.
-/

namespace SimpleCache.Cluster

open Lib

/-- A member of the input with the least address of its identity. -/
def Least (input : List Member) (m : Member) : Prop :=
  m ∈ input ∧ ∀ x ∈ input, x.id = m.id → m.address ≤ x.address

/-! ### Least members -/

theorem Least.congr {input input' : List Member} (h : ∀ m, m ∈ input' ↔ m ∈ input) (m : Member) :
    Least input' m ↔ Least input m := by
  simp only [Least, h]

/-- Every identity of the input has a least member. -/
theorem exists_least : ∀ (input : List Member), ∀ x ∈ input, ∃ m, Least input m ∧ m.id = x.id
  | [], x, hx => absurd hx List.not_mem_nil
  | y :: ys, x, hx => by
    by_cases hys : ∃ z ∈ ys, z.id = x.id
    · obtain ⟨z, hz, hzx⟩ := hys
      obtain ⟨m, ⟨hm, hmin⟩, hmz⟩ := exists_least ys z hz
      have hmx : m.id = x.id := hmz.trans hzx
      by_cases hy : y.id = m.id ∧ y.address ≤ m.address
      · -- the new member takes the place of the old one
        refine ⟨y, ⟨List.mem_cons_self, fun w hw hwy => ?_⟩, hy.1.trans hmx⟩
        rcases List.mem_cons.mp hw with rfl | hw
        · exact List.le_refl _
        · exact List.le_trans hy.2 (hmin w hw (hwy.trans hy.1))
      · refine ⟨m, ⟨List.mem_cons_of_mem _ hm, fun w hw hwm => ?_⟩, hmx⟩
        rcases List.mem_cons.mp hw with rfl | hw
        · exact (List.le_total m.address w.address).resolve_right fun h => hy ⟨hwm, h⟩
        · exact hmin w hw hwm
    · -- no other member has this identity
      rcases List.mem_cons.mp hx with rfl | hx
      · refine ⟨x, ⟨List.mem_cons_self, fun w hw hwx => ?_⟩, rfl⟩
        rcases List.mem_cons.mp hw with rfl | hw
        · exact List.le_refl _
        · exact absurd ⟨w, hw, hwx⟩ hys
      · exact absurd ⟨x, hx, rfl⟩ hys

/-- A strictly sorted list is its own canonical form. -/
theorem least_of_strict {l : List Member} (h : l.Pairwise fun a b => a.id < b.id) (m : Member) :
    Least l m ↔ m ∈ l := by
  refine ⟨And.left, fun hm => ⟨hm, fun x hx hid => ?_⟩⟩
  rw [List.inj_on_of_nodup_map (nodup_of_strict h) hx hm hid]
  exact List.le_refl _

/-- A strictly sorted list is determined by its members. -/
theorem eq_of_strict {l l' : List Member} (h : l.Pairwise fun a b => a.id < b.id)
    (h' : l'.Pairwise fun a b => a.id < b.id) (hmem : ∀ m, m ∈ l ↔ m ∈ l') : l = l' := by
  have : Std.Irrefl fun a b : Member => a.id < b.id := ⟨fun a => List.lt_irrefl a.id⟩
  have : Std.Antisymm fun a b : Member => a.id < b.id := ⟨fun a b hab hba => absurd hba (List.lt_asymm hab)⟩
  exact h.eq_of_mem_iff h' hmem

/-! ### The loop finds them -/

theorem Member.le.address_le {a b : Member} (h : a.le b) (hid : b.id = a.id) : a.address ≤ b.address := by
  rcases h with h | ⟨-, h⟩
  · exact absurd (hid ▸ h) (List.lt_irrefl _)
  · exact h

/-- The first member of a sorted list is the least of its identity. -/
theorem least_cons {x m : Member} {ms : List Member} (hms : ∀ y ∈ ms, x.le y) :
    Least (x :: ms) m ↔ m = x ∨ (Least ms m ∧ x.id ≠ m.id) := by
  constructor
  · rintro ⟨hm, hmin⟩
    by_cases hid : x.id = m.id
    · have hmx : m.address ≤ x.address := hmin x List.mem_cons_self hid
      rcases List.mem_cons.mp hm with rfl | hm
      · exact .inl rfl
      · have hxm : x.address ≤ m.address := (hms m hm).address_le hid.symm
        left
        obtain ⟨mid, maddr⟩ := m
        obtain ⟨xid, xaddr⟩ := x
        simp only at hid hmx hxm
        rw [hid, List.le_antisymm hmx hxm]
    · have hne : m ≠ x := fun h => hid (by rw [h])
      exact .inr ⟨⟨(List.mem_cons.mp hm).resolve_left hne, fun y hy => hmin y (List.mem_cons_of_mem _ hy)⟩, hid⟩
  · rintro (rfl | ⟨⟨hm, hmin⟩, hid⟩)
    · refine ⟨List.mem_cons_self, fun y hy hym => ?_⟩
      rcases List.mem_cons.mp hy with rfl | hy
      · exact List.le_refl _
      · exact (hms y hy).address_le hym
    · refine ⟨List.mem_cons_of_mem _ hm, fun y hy hym => ?_⟩
      rcases List.mem_cons.mp hy with rfl | hy
      · exact absurd hym hid
      · exact hmin y hy hym

/-- The loop keeps of every new identity the least member. -/
theorem normalizeLoop_mem : ∀ (ms acc l : List Member), normalizeLoop acc ms = .ok l → ms.Pairwise Member.le →
    acc.Pairwise (fun a b => a.id < b.id) → (∀ a ∈ acc, ∀ m ∈ ms, a.id ≤ m.id) →
    ∀ m, m ∈ l ↔ m ∈ acc ∨ (Least ms m ∧ ∀ a ∈ acc, a.id ≠ m.id)
  | [], acc, l, h, _, _, _, m => by
    rw [normalizeLoop, Except.ok.injEq] at h
    simp [← h, Least]
  | x :: ms, acc, l, h, hms, hacc, hle, m => by
    rw [normalizeLoop] at h
    rw [List.pairwise_cons] at hms
    have hlex : ∀ a ∈ acc, a.id ≤ x.id := fun a ha => hle a ha x List.mem_cons_self
    rw [least_cons hms.1]
    split_ifs at h with hbad hdup
    · -- the accumulator has the identity of `x`
      obtain ⟨a, ha, hax⟩ := (last_id_iff hacc hlex).mp hdup
      rw [normalizeLoop_mem ms acc l h hms.2 hacc fun a ha y hy => hle a ha y (List.mem_cons_of_mem _ hy)]
      refine or_congr_right (and_congr_left fun hnew => ?_)
      have hne : x.id ≠ m.id := fun hxm => hnew a ha (hax.trans hxm)
      have hmx : m ≠ x := fun hmx => hne (by rw [hmx])
      simp [hmx, hne]
    · have hnew : ∀ a ∈ acc, a.id ≠ x.id := fun a ha hid => hdup ((last_id_iff hacc hlex).mpr ⟨a, ha, hid⟩)
      rw [normalizeLoop_mem ms (acc ++ [x]) l h hms.2 (pairwise_snoc hacc hlex hdup) (le_snoc hms.1 hle)]
      simp only [List.mem_append, List.mem_singleton, or_imp, forall_and, forall_eq]
      constructor
      · rintro ((hm | rfl) | ⟨hm, ha, hid⟩)
        · exact .inl hm
        · exact .inr ⟨.inl rfl, hnew⟩
        · exact .inr ⟨.inr ⟨hm, hid⟩, ha⟩
      · rintro (hm | ⟨rfl | ⟨hm, hid⟩, ha⟩)
        · exact .inl (.inl hm)
        · exact .inl (.inr rfl)
        · exact .inr ⟨hm, ha, hid⟩

/-- The loop looks at every member: it fails with an invalid one, or all are valid. -/
theorem normalizeLoop_valid : ∀ (ms acc : List Member),
    (∃ m ∈ ms, ¬ m.Valid ∧ normalizeLoop acc ms = .error m) ∨ (∀ m ∈ ms, m.Valid)
  | [], _ => .inr fun m hm => absurd hm List.not_mem_nil
  | x :: ms, acc => by
    rw [normalizeLoop]
    by_cases hbad : x.id = [] ∨ validAddress x.address = false
    · refine .inl ⟨x, List.mem_cons_self, fun hx => ?_, if_pos hbad⟩
      rcases hbad with hid | haddr
      · exact hx.1 hid
      · exact absurd hx.2 (by simp [haddr])
    · have hx : x.Valid := by
        rw [not_or, Bool.not_eq_false] at hbad
        exact hbad
      rw [if_neg hbad, ← apply_ite (normalizeLoop · ms)]
      rcases normalizeLoop_valid ms _ with ⟨m, hm, hbad⟩ | hok
      · exact .inl ⟨m, List.mem_cons_of_mem _ hm, hbad⟩
      · exact .inr (List.forall_mem_cons.mpr ⟨hx, hok⟩)

/-- An input is normalized exactly when all its members are valid. -/
theorem normalize_cases (input : List Member) :
    (∃ m ∈ input, ¬ m.Valid ∧ normalize input = .error m) ∨
      ((∀ m ∈ input, m.Valid) ∧ ∃ l, normalize input = .ok l) := by
  have hmem : ∀ m, m ∈ input.insertionSort Member.le ↔ m ∈ input := fun m =>
    (List.perm_insertionSort Member.le input).mem_iff
  rcases normalizeLoop_valid (input.insertionSort Member.le) [] with ⟨m, hm, hbad⟩ | hok
  · exact .inl ⟨m, (hmem m).mp hm, hbad⟩
  · have hvalid : ∀ m ∈ input, m.Valid := fun m hm => hok m ((hmem m).mpr hm)
    exact .inr ⟨hvalid, normalize_ok hvalid⟩

theorem normalize_valid {input l : List Member} (h : normalize input = .ok l) : ∀ m ∈ input, m.Valid := by
  obtain ⟨x, -, -, hn⟩ | ⟨hvalid, -⟩ := normalize_cases input
  · rw [hn] at h
    cases h
  · exact hvalid

/-- **The normalized members are the least ones.** -/
theorem normalize_mem {input l : List Member} (h : normalize input = .ok l) (m : Member) : m ∈ l ↔ Least input m := by
  rw [normalizeLoop_mem _ [] l h (List.pairwise_insertionSort Member.le input) .nil (by simp),
    Least.congr fun m => (List.perm_insertionSort Member.le input).mem_iff]
  simp

/-- Inputs with one canonical form are normalized alike. -/
theorem normalize_congr {input input' l : List Member} (h : normalize input = .ok l)
    (hvalid : ∀ m ∈ input', m.Valid) (hleast : ∀ m, Least input' m ↔ Least input m) : normalize input' = .ok l := by
  obtain ⟨l', h'⟩ := normalize_ok hvalid
  have heq : l' = l := by
    refine eq_of_strict (normalize_strict h') (normalize_strict h) fun m => ?_
    rw [normalize_mem h', normalize_mem h, hleast]
  rw [h', heq]

/-! ### Snapshots -/

/-- **The canonical snapshot of an input**: the members in strict order, each identity of the input once with its least
address, and a client for each of them and for nothing else. -/
structure Canonical (token : GoString) (input : List Member) (s : Snapshot) : Prop where
  strict : s.members.Pairwise fun a b => a.id < b.id
  once : ∀ x ∈ input, ∃! m, m ∈ s.members ∧ m.id = x.id
  least : ∀ m, m ∈ s.members ↔ Least input m
  clients : ∀ id c, s.clients id = some c ↔ ∃ m ∈ s.members, m.id = id ∧ c = ⟨m.address, token⟩

/-- A client is that of a member. -/
theorem clientsOf_some {token : GoString} {members : List Member} {id : GoString} {c : Client}
    (h : clientsOf token members id = some c) : ∃ m ∈ members, m.id = id ∧ c = ⟨m.address, token⟩ := by
  unfold clientsOf at h
  induction members using List.reverseRecOn with
  | nil => cases h
  | append_singleton ms x ih =>
    rw [List.foldl_append, List.foldl_cons, List.foldl_nil] at h
    by_cases hid : id = x.id
    · rw [hid, Function.update_self, Option.some.injEq] at h
      exact ⟨x, by simp, hid.symm, h.symm⟩
    · rw [Function.update_of_ne hid] at h
      obtain ⟨m, hm, hc⟩ := ih h
      exact ⟨m, List.mem_append_left _ hm, hc⟩

namespace Directory

/-- One call of `Update`, under `updateMu`. -/
def step (d : Directory) (input : List Member) : Option (Directory × Except Member Unit) :=
  some ((d.update input).2, (d.update input).1)

/-- What a call of `Update` does. -/
inductive UpdateMove (d : Directory) (input : List Member) : Except Member Unit × Directory → Prop
  | refuse {m : Member} (hm : m ∈ input) (hbad : ¬ m.Valid) : UpdateMove d input (.error m, d)
  | keep (hn : normalize input = .ok d.state.members) : UpdateMove d input (.ok (), d)
  | publish {d' : Directory} (hn : normalize input = .ok d'.state.members) (htoken : d'.token = d.token)
      (hclients : d'.state.clients = clientsOf d.token d'.state.members) (hobject : d'.state.object = d.next)
      (hnext : d'.next = d.next + 1) : UpdateMove d input (.ok (), d')

theorem update_move (d : Directory) (input : List Member) : UpdateMove d input (d.update input) := by
  unfold update
  split
  · next m heq =>
    obtain ⟨x, hx, hbad, hn⟩ | ⟨-, l, hn⟩ := normalize_cases input
    · rw [hn, Except.error.injEq] at heq
      exact .refuse (heq ▸ hx) (heq ▸ hbad)
    · rw [hn] at heq
      cases heq
  · next l heq =>
    split_ifs with hsame
    · exact .keep (hsame ▸ heq)
    · exact .publish heq rfl rfl rfl rfl

/-- What every published snapshot satisfies, and that the next allocation is a new object. -/
structure Published (token : GoString) (d : Directory) : Prop where
  secret : d.token = token
  strict : d.state.members.Pairwise fun a b => a.id < b.id
  valid : ∀ m ∈ d.state.members, m.Valid
  clients : ∀ id c, d.state.clients id = some c ↔ ∃ m ∈ d.state.members, m.id = id ∧ c = ⟨m.address, token⟩
  fresh : d.state.object < d.next

theorem Published.update {token : GoString} {d : Directory} (h : Published token d) (input : List Member) :
    Published token (d.update input).2 := by
  generalize hu : d.update input = u
  cases hu ▸ update_move d input with
  | refuse => exact h
  | keep => exact h
  | @publish d' hn htoken hclients hobject hnext =>
    refine ⟨htoken.trans h.secret, normalize_strict hn, ?_, fun id c => ?_, ?_⟩
    · exact fun m hm => normalize_valid hn m ((normalize_mem hn m).mp hm).1
    · rw [hclients, h.secret]
      constructor
      · exact clientsOf_some
      · rintro ⟨m, hm, rfl, rfl⟩
        exact clientsOf_mem (normalize_nodup hn) hm
    · show d'.state.object < d'.next
      omega

theorem published_run {selfID token : GoString} {tr : List (List Member × Except Member Unit)} {d : Directory}
    (hrun : Run step (newDirectory selfID token) tr d) : Published token d := by
  refine hrun.inv ⟨rfl, .nil, by simp [newDirectory], by simp [newDirectory], Nat.zero_lt_one⟩ ?_
  intro s input o s' hs hst
  obtain ⟨rfl, -⟩ := Prod.ext_iff.mp (Option.some.inj hst)
  exact hs.update input

/-- The members of a snapshot are their own canonical form. -/
theorem Published.normalize {token : GoString} {d : Directory} (h : Published token d) :
    normalize d.state.members = .ok d.state.members := by
  obtain ⟨l, hl⟩ := normalize_ok h.valid
  rw [hl, eq_of_strict (normalize_strict hl) h.strict fun m => by rw [normalize_mem hl, least_of_strict h.strict]]

/-- An input with the canonical form of the snapshot changes nothing. -/
theorem update_same {d : Directory} {input : List Member} (h : Cluster.normalize input = .ok d.state.members) :
    d.update input = (.ok (), d) := by
  unfold update
  split
  · next heq =>
    rw [h] at heq
    cases heq
  · next heq =>
    rw [h, Except.ok.injEq] at heq
    rw [if_pos heq]

/-- A valid input leaves its canonical snapshot, whether it was there already or is new. -/
theorem Published.canonical {token : GoString} {d : Directory} (h : Published token d) {input l : List Member}
    (hn : Cluster.normalize input = .ok l) : Canonical token input (d.update input).2.state := by
  have hpub := h.update input
  have hleast : ∀ m, m ∈ (d.update input).2.state.members ↔ Least input m := by
    intro m
    rw [(update_ok hn).2, normalize_mem hn]
  refine ⟨hpub.strict, fun x hx => ?_, hleast, hpub.clients⟩
  obtain ⟨m, hm, hid⟩ := exists_least input x hx
  refine ⟨m, ⟨(hleast m).mpr hm, hid⟩, fun y hy => ?_⟩
  exact List.inj_on_of_nodup_map (nodup_of_strict hpub.strict) hy.1 ((hleast m).mpr hm) (hy.2.trans hid.symm)

/-- A later snapshot is the captured one or a newer object. -/
theorem later_run {tr : List (List Member × Except Member Unit)} {d d' : Directory} (hrun : Run step d tr d') :
    d.next ≤ d'.next ∧ (d'.state = d.state ∨ d.next ≤ d'.state.object) := by
  refine hrun.inv (I := fun s => d.next ≤ s.next ∧ (s.state = d.state ∨ d.next ≤ s.state.object))
    ⟨Nat.le_refl _, .inl rfl⟩ ?_
  intro s input o s' hs hst
  obtain ⟨rfl, -⟩ := Prod.ext_iff.mp (Option.some.inj hst)
  generalize hu : s.update input = u
  cases hu ▸ update_move s input with
  | refuse => exact hs
  | keep => exact hs
  | @publish s' hn htoken hclients hobject hnext =>
    show d.next ≤ s'.next ∧ (s'.state = d.state ∨ d.next ≤ s'.state.object)
    exact ⟨by omega, .inr (by omega)⟩

/-- **`Update` publishes the canonical snapshot or changes nothing.**  From every state that updates reach: an input with
an invalid member is refused and the directory is as before.  Otherwise the canonical snapshot of the input is published;
its members depend on nothing but which members the input has; and the published members, or any valid input with the
same least members, keep the snapshot object.  A captured object has the same contents at every later time. -/
theorem update_canonical {selfID token : GoString} {tr : List (List Member × Except Member Unit)} {d : Directory}
    (hrun : Run step (newDirectory selfID token) tr d) :
    (∀ input, (∃ m ∈ input, ¬ m.Valid) → ∃ m ∈ input, ¬ m.Valid ∧ d.update input = (.error m, d)) ∧
    (∀ input, (∀ m ∈ input, m.Valid) →
      (d.update input).1 = .ok () ∧ Canonical token input (d.update input).2.state ∧
      (∀ input', (∀ m, m ∈ input' ↔ m ∈ input) → ∀ d' : Directory,
        (d'.update input').2.state.members = (d.update input).2.state.members) ∧
      (d.update input).2.update (d.update input).2.state.members = (.ok (), (d.update input).2) ∧
      ∀ input', (∀ m ∈ input', m.Valid) → (∀ m, Least input' m ↔ Least input m) →
        (d.update input).2.update input' = (.ok (), (d.update input).2)) ∧
    ∀ tr' d', Run step d tr' d' → d'.state.object = d.state.object → d'.state = d.state := by
  have hpub := published_run hrun
  refine ⟨fun input hbad => ?_, fun input hvalid => ?_, fun tr' d' hlater hobject => ?_⟩
  · generalize hu : d.update input = u
    cases hu ▸ update_move d input with
    | @refuse m hm hinvalid => exact ⟨m, hm, hinvalid, rfl⟩
    | keep hn =>
      obtain ⟨m, hm, hinvalid⟩ := hbad
      exact absurd (normalize_valid hn m hm) hinvalid
    | publish hn =>
      obtain ⟨m, hm, hinvalid⟩ := hbad
      exact absurd (normalize_valid hn m hm) hinvalid
  · obtain ⟨l, hl⟩ := normalize_ok hvalid
    obtain ⟨hok, hmembers⟩ := update_ok (d := d) hl
    refine ⟨hok, hpub.canonical hl, fun input' hsame d' => ?_, update_same (hpub.update input).normalize,
      fun input' hvalid' hleast => update_same ?_⟩
    · have hvalid' : ∀ m ∈ input', m.Valid := fun m hm => hvalid m ((hsame m).mp hm)
      rw [hmembers, (update_ok (normalize_congr hl hvalid' (Least.congr hsame))).2]
    · rw [hmembers]
      exact normalize_congr hl hvalid' hleast
  · obtain ⟨-, hstate | hnew⟩ := later_run hlater
    · exact hstate
    · exact absurd hpub.fresh (by omega)

/-- After an update with `b` at `h:2`, an input with a shadowed address is canonicalized and one without identity is
refused. -/
theorem update_canonical_shadowed :
    Canonical [] [⟨[98], [104, 58, 50]⟩, ⟨[98], [104, 58, 49]⟩]
      (((newDirectory [97] []).update [⟨[98], [104, 58, 50]⟩]).2.update
        [⟨[98], [104, 58, 50]⟩, ⟨[98], [104, 58, 49]⟩]).2.state ∧
    ∃ m ∈ [(⟨[], [104, 58, 49]⟩ : Member)], ¬ m.Valid ∧
      ((newDirectory [97] []).update [⟨[98], [104, 58, 50]⟩]).2.update [⟨[], [104, 58, 49]⟩] =
        (.error m, ((newDirectory [97] []).update [⟨[98], [104, 58, 50]⟩]).2) :=
  have hrun := update_canonical
    (Run.single (show step (newDirectory [97] []) [⟨[98], [104, 58, 50]⟩] = some _ from rfl))
  have hvalid : ∀ m ∈ [(⟨[98], [104, 58, 50]⟩ : Member), ⟨[98], [104, 58, 49]⟩], m.Valid :=
    List.forall_mem_cons.mpr ⟨⟨by decide, by decide⟩, List.forall_mem_singleton.mpr ⟨by decide, by decide⟩⟩
  ⟨(hrun.2.1 _ hvalid).2.1, hrun.1 _ ⟨_, List.mem_singleton_self _, fun h => h.1 rfl⟩⟩

end Directory

end SimpleCache.Cluster
