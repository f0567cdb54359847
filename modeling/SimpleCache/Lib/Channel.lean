import SimpleCache.Lib.Run
import SimpleCache.Lib.Slots

/-!
# Lib.Channel — a bounded channel with a sender that never blocks

A sender offers items to receivers over a channel with a buffer and closes it at the end.  An offer is handed to a
receiver that is blocked in its receive, else it is appended to the buffer if there is room, else it is refused.  A
receiver takes an item, skips it or works on it, and receives again; at the end of a closed and empty channel it exits.

`perm_held`: what the channel and its receivers hold changes by the item that is sent or done with, so that no item is
lost or seen twice.  `Sound.held_eq_nil`: when all receivers have exited nothing is held.  `Sound.progress` and
`weight_step`: a closed channel with a receiver left has a step, and every step but an offer lowers the work to come.
-/

namespace SimpleCache.Lib

/-- Where a receiver stands. -/
inductive Receiver (α : Type*)
  | idle
  | parked
  | taken (x : α)
  | working (x : α)
  | exited
  deriving DecidableEq, Repr

/-- The item that a receiver holds. -/
def Receiver.item? {α : Type*} : Receiver α → Option α
  | .taken x => some x
  | .working x => some x
  | _ => none

/-- The steps that a receiver can still take on its own. -/
def Receiver.weight {α : Type*} : Receiver α → ℕ
  | .idle => 2
  | .parked => 1
  | .taken _ => 4
  | .working _ => 3
  | .exited => 0

structure Channel (α : Type*) where
  capacity : ℕ
  buffer : List α
  closed : Bool
  receivers : List (Receiver α)
  deriving DecidableEq, Repr

namespace Channel

variable {α : Type*} [DecidableEq α]

def start (capacity receivers : ℕ) : Channel α := ⟨capacity, [], false, List.replicate receivers .idle⟩

/-- A step of the sender or of the receiver `w`. -/
inductive Act (α : Type*)
  | handoff (w : ℕ) (x : α)
  | enqueue (x : α)
  | refuse (x : α)
  | close
  | receive (w : ℕ)
  | park (w : ℕ)
  | skip (w : ℕ)
  | begin (w : ℕ)
  | done (w : ℕ)
  | exit (w : ℕ)

/-- The channel with receiver `w` at `r`. -/
def seat (q : Channel α) (w : ℕ) (r : Receiver α) : Channel α := { q with receivers := q.receivers.set w r }

/-- One step; the answer is the item that the receiver begins to work on, skips or has done. -/
def step (q : Channel α) : Act α → Option (Channel α × Option α)
  | .handoff w x => if q.closed = false ∧ q.receivers[w]? = some .parked then some (q.seat w (.taken x), none) else none
  | .enqueue x =>
    if q.closed = false ∧ .parked ∉ q.receivers ∧ q.buffer.length < q.capacity then
      some ({ q with buffer := q.buffer ++ [x] }, none)
    else none
  | .refuse _ =>
    if q.closed = false ∧ .parked ∉ q.receivers ∧ q.capacity ≤ q.buffer.length then some (q, none) else none
  | .close => if q.closed = false then some ({ q with closed := true }, none) else none
  | .receive w =>
    match q.receivers[w]?, q.buffer with
    | some .idle, x :: rest => some ({ q.seat w (.taken x) with buffer := rest }, none)
    | _, _ => none
  | .park w =>
    if q.closed = false ∧ q.buffer = [] ∧ q.receivers[w]? = some .idle then some (q.seat w .parked, none) else none
  | .skip w =>
    match q.receivers[w]? with
    | some (.taken x) => some (q.seat w .idle, some x)
    | _ => none
  | .begin w =>
    match q.receivers[w]? with
    | some (.taken x) => some (q.seat w (.working x), some x)
    | _ => none
  | .done w =>
    match q.receivers[w]? with
    | some (.working x) => some (q.seat w .idle, some x)
    | _ => none
  | .exit w =>
    if q.closed = true ∧ q.buffer = [] ∧ (q.receivers[w]? = some .idle ∨ q.receivers[w]? = some .parked) then
      some (q.seat w .exited, none)
    else none

/-- The steps, by what they need. -/
inductive Move (q : Channel α) : Act α → Channel α → Option α → Prop
  | handoff {w : ℕ} {x : α} : q.closed = false → q.receivers[w]? = some .parked →
      Move q (.handoff w x) (q.seat w (.taken x)) none
  | enqueue {x : α} : q.closed = false → .parked ∉ q.receivers → q.buffer.length < q.capacity →
      Move q (.enqueue x) { q with buffer := q.buffer ++ [x] } none
  | refuse {x : α} : q.closed = false → .parked ∉ q.receivers → q.capacity ≤ q.buffer.length →
      Move q (.refuse x) q none
  | close : q.closed = false → Move q .close { q with closed := true } none
  | receive {w : ℕ} {x : α} {rest : List α} : q.receivers[w]? = some .idle → q.buffer = x :: rest →
      Move q (.receive w) { q.seat w (.taken x) with buffer := rest } none
  | park {w : ℕ} : q.closed = false → q.buffer = [] → q.receivers[w]? = some .idle →
      Move q (.park w) (q.seat w .parked) none
  | skip {w : ℕ} {x : α} : q.receivers[w]? = some (.taken x) → Move q (.skip w) (q.seat w .idle) (some x)
  | begin {w : ℕ} {x : α} : q.receivers[w]? = some (.taken x) → Move q (.begin w) (q.seat w (.working x)) (some x)
  | done {w : ℕ} {x : α} : q.receivers[w]? = some (.working x) → Move q (.done w) (q.seat w .idle) (some x)
  | exit {w : ℕ} {r : Receiver α} : q.closed = true → q.buffer = [] → q.receivers[w]? = some r →
      r = .idle ∨ r = .parked → Move q (.exit w) (q.seat w .exited) none

theorem move_of_step {q q' : Channel α} {a : Act α} {o : Option α} (h : q.step a = some (q', o)) : Move q a q' o := by
  cases a with
  | handoff w x =>
    simp only [step] at h
    split_ifs at h with hc
    obtain ⟨rfl, rfl⟩ := Prod.mk.inj (Option.some.inj h)
    exact .handoff hc.1 hc.2
  | enqueue x =>
    simp only [step] at h
    split_ifs at h with hc
    obtain ⟨rfl, rfl⟩ := Prod.mk.inj (Option.some.inj h)
    exact .enqueue hc.1 hc.2.1 hc.2.2
  | refuse x =>
    simp only [step] at h
    split_ifs at h with hc
    obtain ⟨rfl, rfl⟩ := Prod.mk.inj (Option.some.inj h)
    exact .refuse hc.1 hc.2.1 hc.2.2
  | close =>
    simp only [step] at h
    split_ifs at h with hc
    obtain ⟨rfl, rfl⟩ := Prod.mk.inj (Option.some.inj h)
    exact .close hc
  | receive w =>
    simp only [step] at h
    split at h
    · next hw hb =>
      obtain ⟨rfl, rfl⟩ := Prod.mk.inj (Option.some.inj h)
      exact .receive hw hb
    · exact absurd h (by simp)
  | park w =>
    simp only [step] at h
    split_ifs at h with hc
    obtain ⟨rfl, rfl⟩ := Prod.mk.inj (Option.some.inj h)
    exact .park hc.1 hc.2.1 hc.2.2
  | skip w =>
    simp only [step] at h
    split at h
    · next hw =>
      obtain ⟨rfl, rfl⟩ := Prod.mk.inj (Option.some.inj h)
      exact .skip hw
    · exact absurd h (by simp)
  | begin w =>
    simp only [step] at h
    split at h
    · next hw =>
      obtain ⟨rfl, rfl⟩ := Prod.mk.inj (Option.some.inj h)
      exact .begin hw
    · exact absurd h (by simp)
  | done w =>
    simp only [step] at h
    split at h
    · next hw =>
      obtain ⟨rfl, rfl⟩ := Prod.mk.inj (Option.some.inj h)
      exact .done hw
    · exact absurd h (by simp)
  | exit w =>
    simp only [step] at h
    split_ifs at h with hc
    obtain ⟨rfl, rfl⟩ := Prod.mk.inj (Option.some.inj h)
    rcases hc.2.2 with hw | hw
    · exact .exit hc.1 hc.2.1 hw (Or.inl rfl)
    · exact .exit hc.1 hc.2.1 hw (Or.inr rfl)

/-! ### What is held -/

/-- The items in the channel and with its receivers. -/
def held (q : Channel α) : List α := q.buffer ++ q.receivers.filterMap Receiver.item?

omit [DecidableEq α] in
@[simp] theorem held_start (capacity receivers : ℕ) : (start capacity receivers : Channel α).held = [] := by
  rw [held, start, List.nil_append, List.filterMap_eq_nil_iff]
  intro r hr
  rw [List.eq_of_mem_replicate hr]
  rfl

/-- The items that an action sends. -/
def Act.sent : Act α → List α
  | .handoff _ x => [x]
  | .enqueue x => [x]
  | _ => []

/-- The items that are done with after an action with answer `o`. -/
def Act.settled (a : Act α) (o : Option α) : List α :=
  match a with
  | .skip _ => o.toList
  | .done _ => o.toList
  | _ => []

theorem held_seat {q : Channel α} {w : ℕ} {r : Receiver α} (r' : Receiver α) (h : q.receivers[w]? = some r) :
    (r.item?.toList ++ (q.seat w r').held).Perm (r'.item?.toList ++ q.held) := by
  have hperm := List.perm_iff_count.mp (Slots.perm_set Receiver.item? r' h)
  rw [List.perm_iff_count]
  intro x
  have := hperm x
  simp only [held, seat, List.count_append] at this ⊢
  omega

/-- **No item is lost or seen twice**: a step adds what it sends and removes what is done with. -/
theorem perm_held {q q' : Channel α} {a : Act α} {o : Option α} (h : q.step a = some (q', o)) :
    (a.settled o ++ q'.held).Perm (a.sent ++ q.held) := by
  cases move_of_step h with
  | handoff hc hw => exact held_seat (.taken _) hw
  | enqueue hc hp hl =>
    rw [List.perm_iff_count]
    intro y
    simp only [Act.settled, Act.sent, held, List.count_append, List.nil_append]
    omega
  | refuse => exact List.Perm.refl _
  | close => exact List.Perm.refl _
  | @receive w x rest hw hb =>
    -- the item moves from the buffer to the receiver
    have hperm := List.perm_iff_count.mp (Slots.perm_set Receiver.item? (.taken x) hw)
    rw [List.perm_iff_count]
    intro y
    have := hperm y
    simp only [Act.settled, Act.sent, held, seat, hb, Receiver.item?, Option.toList_none, Option.toList_some,
      List.count_append, List.count_cons, List.count_nil, List.nil_append] at this ⊢
    omega
  | park hc hb hw => exact held_seat .parked hw
  | skip hw => exact held_seat .idle hw
  | begin hw => exact (List.perm_append_left_iff [_]).mp (held_seat (.working _) hw)
  | done hw => exact held_seat .idle hw
  | exit hc hb hw hr =>
    rcases hr with rfl | rfl
    · exact held_seat .exited hw
    · exact held_seat .exited hw

/-! ### Runs -/

/-- What every run of a channel keeps. -/
structure Sound (q : Channel α) : Prop where
  parked : .parked ∈ q.receivers → q.buffer = []
  exited : .exited ∈ q.receivers → q.closed = true ∧ q.buffer = []
  bounded : q.buffer.length ≤ q.capacity

omit [DecidableEq α] in
theorem sound_start (capacity receivers : ℕ) : (start capacity receivers : Channel α).Sound where
  parked _ := rfl
  exited h := absurd (List.eq_of_mem_replicate h) (by simp)
  bounded := Nat.zero_le _

theorem Sound.step {q q' : Channel α} {a : Act α} {o : Option α} (h : q.Sound) (hst : q.step a = some (q', o)) :
    q'.Sound := by
  have hparked : ∀ w r, r ≠ .parked → .parked ∈ q.receivers.set w r → q.buffer = [] := fun w r hr hm =>
    h.parked (Slots.mem_of_mem_set hr hm)
  have hexited : ∀ w r, r ≠ .exited → .exited ∈ q.receivers.set w r → q.closed = true ∧ q.buffer = [] :=
    fun w r hr hm => h.exited (Slots.mem_of_mem_set hr hm)
  cases move_of_step hst with
  | handoff hc hw => exact ⟨hparked _ _ (by simp), hexited _ _ (by simp), h.bounded⟩
  | enqueue hc hp hl =>
    refine ⟨fun hm => absurd hm hp, fun hm => ?_, by rw [List.length_append]; exact hl⟩
    rw [(h.exited hm).1] at hc
    exact absurd hc (by simp)
  | refuse => exact h
  | close => exact ⟨h.parked, fun hm => ⟨rfl, (h.exited hm).2⟩, h.bounded⟩
  | receive hw hb =>
    have hle := h.bounded
    rw [hb, List.length_cons] at hle
    refine ⟨fun hm => ?_, fun hm => ?_, Nat.le_of_succ_le hle⟩
    · exact absurd ((hparked _ _ (by simp) hm).symm.trans hb) (by simp)
    · exact absurd ((hexited _ _ (by simp) hm).2.symm.trans hb) (by simp)
  | park hc hb hw => exact ⟨fun _ => hb, hexited _ _ (by simp), h.bounded⟩
  | skip hw => exact ⟨hparked _ _ (by simp), hexited _ _ (by simp), h.bounded⟩
  | begin hw => exact ⟨hparked _ _ (by simp), hexited _ _ (by simp), h.bounded⟩
  | done hw => exact ⟨hparked _ _ (by simp), hexited _ _ (by simp), h.bounded⟩
  | exit hc hb hw hr => exact ⟨fun _ => hb, fun _ => ⟨hc, hb⟩, h.bounded⟩

theorem length_receivers {q q' : Channel α} {a : Act α} {o : Option α} (h : q.step a = some (q', o)) :
    q'.receivers.length = q.receivers.length := by
  cases move_of_step h <;> simp [seat]

/-- All receivers have exited. -/
def drained (q : Channel α) : Prop := ∀ r ∈ q.receivers, r = .exited

instance (q : Channel α) : Decidable q.drained := by unfold drained; infer_instance

omit [DecidableEq α] in
/-- When the receivers have exited, nothing is left in the channel or with them. -/
theorem Sound.held_eq_nil {q : Channel α} (h : q.Sound) (hd : q.drained) (hne : q.receivers ≠ []) : q.held = [] := by
  obtain ⟨r, hr⟩ := List.exists_mem_of_ne_nil _ hne
  have hbuffer := (h.exited (hd r hr ▸ hr)).2
  rw [held, hbuffer, List.nil_append, List.filterMap_eq_nil_iff]
  intro r' hr'
  rw [hd r' hr']
  rfl

/-- **Progress**: a receiver of a closed channel that has not exited can go on. -/
theorem Sound.progress {q : Channel α} {w : ℕ} {r : Receiver α} (h : q.Sound) (hc : q.closed = true)
    (hw : q.receivers[w]? = some r) (hr : r ≠ .exited) :
    ∃ a ∈ [Act.receive w, .exit w, .begin w, .done w], (q.step a).isSome := by
  cases r with
  | idle =>
    cases hb : q.buffer with
    | nil => exact ⟨.exit w, by simp, by simp [Channel.step, hc, hb, hw]⟩
    | cons x rest => exact ⟨.receive w, by simp, by simp [Channel.step, hb, hw]⟩
  | parked =>
    have hb := h.parked (List.mem_of_getElem? hw)
    exact ⟨.exit w, by simp, by simp [Channel.step, hc, hb, hw]⟩
  | taken x => exact ⟨.begin w, by simp, by simp [Channel.step, hw]⟩
  | working x => exact ⟨.done w, by simp, by simp [Channel.step, hw]⟩
  | exited => exact absurd rfl hr

/-- The action is an offer of the sender. -/
def Act.offers : Act α → Bool
  | .handoff _ _ => true
  | .enqueue _ => true
  | .refuse _ => true
  | _ => false

/-- A bound on the steps to come without another offer. -/
def weight (q : Channel α) : ℕ :=
  3 * q.buffer.length + (q.receivers.map Receiver.weight).sum + (!q.closed).toNat

omit [DecidableEq α] in
theorem weight_seat {q : Channel α} {w : ℕ} {r : Receiver α} (r' : Receiver α) (h : q.receivers[w]? = some r) :
    (q.seat w r').weight + r.weight = q.weight + r'.weight := by
  have := Slots.sum_set Receiver.weight r' h
  simp only [weight, seat]
  omega

/-- **Every step but an offer lowers the work to come**, and an offer adds at most three steps. -/
theorem weight_step {q q' : Channel α} {a : Act α} {o : Option α} (h : q.step a = some (q', o)) :
    if a.offers then q'.weight ≤ q.weight + 3 else q'.weight < q.weight := by
  cases move_of_step h with
  | @handoff w x hc hw =>
    have hseat := weight_seat (.taken x) hw
    show _ ≤ _
    simp only [Receiver.weight] at hseat
    omega
  | enqueue hc hp hl =>
    show _ ≤ _
    simp only [weight, List.length_append, List.length_singleton]
    omega
  | refuse => exact Nat.le_add_right _ _
  | close hc =>
    show _ < _
    simp [weight, hc]
  | @receive w x rest hw hb =>
    have hseat := Slots.sum_set Receiver.weight (.taken x) hw
    show _ < _
    simp only [weight, seat, hb, List.length_cons, Receiver.weight] at hseat ⊢
    omega
  | park hc hb hw =>
    have hseat := weight_seat .parked hw
    show _ < _
    simp only [Receiver.weight] at hseat
    omega
  | skip hw =>
    have hseat := weight_seat .idle hw
    show _ < _
    simp only [Receiver.weight] at hseat
    omega
  | @begin w x hw =>
    have hseat := weight_seat (.working x) hw
    show _ < _
    simp only [Receiver.weight] at hseat
    omega
  | done hw =>
    have hseat := weight_seat .idle hw
    show _ < _
    simp only [Receiver.weight] at hseat
    omega
  | exit hc hb hw hr =>
    have hseat := weight_seat .exited hw
    show _ < _
    rcases hr with rfl | rfl <;> simp only [Receiver.weight] at hseat <;> omega

end Channel

end SimpleCache.Lib
