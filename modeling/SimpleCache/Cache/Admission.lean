import SimpleCache.Cache.Errors
import SimpleCache.Lib.Run

/-!
# Cache.Admission — the source limiter and the loads that share it (`cache/admission.go`, `cache/load.go`)

A `SourceLimiter` is two buffered channels of tokens, so each is the number of tokens in it.  Any number of calls of
`loadSource`, from any groups and of any attempts, run over one limiter; every channel operation, every reading of
`work.Err()` and the two ends of the source call are actions of their own, and a context is done at any point.

`Load.holdsSlot` and `Load.holdsQueue` say where a load owns a token.  `source_admission` says that the channels hold
these tokens and no others.
-/

namespace SimpleCache.Cache

open Lib (Run Happened happened_snoc not_happened_nil)

/-- `SourceLimiter`: the capacities of its channels and their tokens. -/
structure SourceLimiter where
  limit : ℕ
  maxPending : ℕ
  slots : ℕ
  waiting : ℕ
  deriving DecidableEq, Repr

/-- `NewSourceLimiterWithQueue`; `none` is its panic. -/
def newSourceLimiterWithQueue (limit maxPending : ℤ) : Option SourceLimiter :=
  if limit ≤ 0 ∨ maxPending < 0 then none else some ⟨limit.toNat, maxPending.toNat, 0, 0⟩

theorem newSourceLimiterWithQueue_eq {limit maxPending : ℤ} {l : SourceLimiter}
    (h : newSourceLimiterWithQueue limit maxPending = some l) :
    (l.limit : ℤ) = limit ∧ (l.maxPending : ℤ) = maxPending ∧ l.slots = 0 ∧ l.waiting = 0 := by
  unfold newSourceLimiterWithQueue at h
  split_ifs at h with hbad
  cases h
  exact ⟨Int.toNat_of_nonneg (by omega), Int.toNat_of_nonneg (by omega), rfl, rfl⟩

/-- What `Err` of a context that is done returns. -/
abbrev Done := { e : Err // e = .canceled ∨ e = .deadlineExceeded }

/-- Where a call of `loadSource` stands. -/
inductive Spot
  /-- Before `ctx.Err()` in `acquire`. -/
  | start
  /-- Before the select for a free slot. -/
  | fast
  /-- Before the select for a place in the queue. -/
  | queue
  /-- In the select that waits for a slot or the end of the context. -/
  | wait
  /-- The wait has ended with a slot or an error; the deferred receive from `waiting` is next. -/
  | leave (err : Option Done)
  /-- `acquire` has returned an error. -/
  | refused (err : Err)
  /-- `acquire` has returned nil; `work.Err()` is next. -/
  | acquired
  /-- The source call. -/
  | executing
  /-- The deferred `release` is next. -/
  | release
  | returned
  deriving DecidableEq, Repr

/-- A call of `loadSource` with `work.Err()`. -/
structure Load where
  ctx : Option Done
  spot : Spot
  deriving DecidableEq, Repr

namespace Load

/-- The load owns a token of `slots`. -/
def holdsSlot (l : Load) : Bool :=
  match l.spot with
  | .leave none | .acquired | .executing | .release => true
  | _ => false

/-- The load owns a token of `waiting`. -/
def holdsQueue (l : Load) : Bool :=
  match l.spot with
  | .wait | .leave _ => true
  | _ => false

/-- The load waits in the queue. -/
def waits (l : Load) : Bool := l.spot = .wait

def executes (l : Load) : Bool := l.spot = .executing

/-- The load is not over. -/
def active (l : Load) : Bool :=
  match l.spot with
  | .refused _ | .returned => false
  | _ => true

end Load

/-- A limiter with the loads that use it. -/
structure Admission where
  limiter : SourceLimiter
  loads : List Load
  deriving DecidableEq, Repr

namespace Admission

inductive Action
  | begin
  /-- The context of a load is canceled or its deadline passes. -/
  | expire (i : ℕ) (e : Done)
  | check (i : ℕ)
  | trySlot (i : ℕ)
  | tryQueue (i : ℕ)
  /-- The wait ends with a slot. -/
  | grant (i : ℕ)
  /-- The wait ends with the context. -/
  | giveUp (i : ℕ)
  | leave (i : ℕ)
  | call (i : ℕ)
  /-- The source call succeeds, fails or times out, and the rest of `loadSource` runs. -/
  | finish (i : ℕ)
  | release (i : ℕ)
  deriving DecidableEq, Repr

/-- What an action shows. -/
inductive Output
  | quiet
  /-- `acquire` of a load returned. -/
  | acquired (i : ℕ) (err : Option Err)
  deriving DecidableEq, Repr

def put (s : Admission) (i : ℕ) (l : Load) : Admission := { s with loads := s.loads.set i l }

/-- One action, where it is enabled. -/
def step (s : Admission) : Action → Option (Admission × Output)
  | .begin => some ({ s with loads := s.loads ++ [⟨none, .start⟩] }, .quiet)
  | .expire i e =>
    match s.loads[i]? with
    | some ⟨none, spot⟩ => some (s.put i ⟨some e, spot⟩, .quiet)
    | _ => none
  | .check i =>
    match s.loads[i]? with
    | some ⟨some e, .start⟩ => some (s.put i ⟨some e, .refused e.1⟩, .acquired i (some e.1))
    | some ⟨none, .start⟩ => some (s.put i ⟨none, .fast⟩, .quiet)
    | _ => none
  | .trySlot i =>
    match s.loads[i]? with
    | some ⟨ctx, .fast⟩ =>
      if s.limiter.slots < s.limiter.limit then
        some ({ s with limiter := { s.limiter with slots := s.limiter.slots + 1 } }.put i ⟨ctx, .acquired⟩,
          .acquired i none)
      else some (s.put i ⟨ctx, .queue⟩, .quiet)
    | _ => none
  | .tryQueue i =>
    match s.loads[i]? with
    | some ⟨ctx, .queue⟩ =>
      if s.limiter.waiting < s.limiter.maxPending then
        some ({ s with limiter := { s.limiter with waiting := s.limiter.waiting + 1 } }.put i ⟨ctx, .wait⟩, .quiet)
      else some (s.put i ⟨ctx, .refused .overloaded⟩, .acquired i (some .overloaded))
    | _ => none
  | .grant i =>
    match s.loads[i]? with
    | some ⟨ctx, .wait⟩ =>
      if s.limiter.slots < s.limiter.limit then
        some ({ s with limiter := { s.limiter with slots := s.limiter.slots + 1 } }.put i ⟨ctx, .leave none⟩, .quiet)
      else none
    | _ => none
  | .giveUp i =>
    match s.loads[i]? with
    | some ⟨some e, .wait⟩ => some (s.put i ⟨some e, .leave (some e)⟩, .quiet)
    | _ => none
  | .leave i =>
    match s.loads[i]? with
    | some ⟨ctx, .leave err⟩ =>
      -- a receive from an empty channel blocks
      if 0 < s.limiter.waiting then
        let spot := match err with
          | none => .acquired
          | some e => .refused e.1
        some ({ s with limiter := { s.limiter with waiting := s.limiter.waiting - 1 } }.put i ⟨ctx, spot⟩,
          .acquired i (err.map (·.1)))
      else none
    | _ => none
  | .call i =>
    match s.loads[i]? with
    | some ⟨ctx, .acquired⟩ => some (s.put i ⟨ctx, if ctx = none then .executing else .release⟩, .quiet)
    | _ => none
  | .finish i =>
    match s.loads[i]? with
    | some ⟨ctx, .executing⟩ => some (s.put i ⟨ctx, .release⟩, .quiet)
    | _ => none
  | .release i =>
    match s.loads[i]? with
    | some ⟨ctx, .release⟩ =>
      if 0 < s.limiter.slots then
        some ({ s with limiter := { s.limiter with slots := s.limiter.slots - 1 } }.put i ⟨ctx, .returned⟩, .quiet)
      else none
    | _ => none

/-- A limiter that nobody uses yet. -/
def init (l : SourceLimiter) : Admission := ⟨l, []⟩

/-! ### The tokens -/

/-- The channels hold the tokens of the loads, within their capacities. -/
structure Inv (l₀ : SourceLimiter) (s : Admission) : Prop where
  limit : s.limiter.limit = l₀.limit
  maxPending : s.limiter.maxPending = l₀.maxPending
  slots : s.limiter.slots = s.loads.countP Load.holdsSlot
  waiting : s.limiter.waiting = s.loads.countP Load.holdsQueue
  slots_le : s.limiter.slots ≤ l₀.limit
  waiting_le : s.limiter.waiting ≤ l₀.maxPending

/-- A load moves, and the count of a property with it. -/
theorem countP_put (p : Load → Bool) {loads : List Load} {i : ℕ} {l : Load} (l' : Load)
    (h : loads[i]? = some l) :
    (loads.set i l').countP p + (if p l then 1 else 0) = loads.countP p + if p l' then 1 else 0 := by
  obtain ⟨hi, rfl⟩ := List.getElem?_eq_some_iff.mp h
  rw [List.countP_set hi]
  have hle : (if p loads[i] then 1 else 0) ≤ loads.countP p := by
    split_ifs with hp
    · exact List.countP_pos_iff.mpr ⟨_, List.getElem_mem hi, hp⟩
    · exact Nat.zero_le _
  omega

/-- What an action does.  One load moves and the channels change by the tokens it takes and gives back.  A load gets to
the queue from the select that finds no free slot; `acquire` that returns an error leaves its load refused, and it
returns `ErrOverloaded` from the select that finds the queue full. -/
inductive Moves (s : Admission) (a : Action) (o : Output) (s' : Admission) : Prop
  | begin : s' = { s with loads := s.loads ++ [⟨none, .start⟩] } → o = .quiet → Moves s a o s'
  | move {i : ℕ} {l l' : Load} : s.loads[i]? = some l → s'.loads = s.loads.set i l' →
      s'.limiter.limit = s.limiter.limit → s'.limiter.maxPending = s.limiter.maxPending →
      s'.limiter.slots + (if l.holdsSlot then 1 else 0) = s.limiter.slots + (if l'.holdsSlot then 1 else 0) →
      s'.limiter.waiting + (if l.holdsQueue then 1 else 0) = s.limiter.waiting + (if l'.holdsQueue then 1 else 0) →
      (s'.limiter.slots ≤ s.limiter.slots ∨ s'.limiter.slots ≤ s.limiter.limit) →
      (s'.limiter.waiting ≤ s.limiter.waiting ∨ s'.limiter.waiting ≤ s.limiter.maxPending) →
      (l'.spot = .queue → l.spot = .queue ∨ a = .trySlot i ∧ s.limiter.limit ≤ s.limiter.slots) →
      (∀ e, l.spot = .refused e → l'.spot = .refused e) →
      (∀ j e, o = .acquired j (some e) → j = i ∧ l'.spot = .refused e ∧
        (e = .overloaded → a = .tryQueue i ∧ l.spot = .queue ∧ s.limiter.maxPending ≤ s.limiter.waiting)) →
      Moves s a o s'

theorem Done.ne_overloaded (e : Done) : e.1 ≠ .overloaded := by
  rcases e.2 with h | h <;> simp [h]

/-- An acquire that ends with its context is not overloaded. -/
theorem refused_done {P : Prop} {i : ℕ} {l' : Load} {e : Done} (hl : l'.spot = .refused e.1) :
    ∀ j e', Output.acquired i (some e.1) = .acquired j (some e') →
      j = i ∧ l'.spot = .refused e' ∧ (e' = .overloaded → P) := by
  intro j e' ho
  cases ho
  exact ⟨rfl, hl, fun h => absurd h (Done.ne_overloaded e)⟩

theorem step_moves {s s' : Admission} {a : Action} {o : Output} (h : step s a = some (s', o)) : Moves s a o s' := by
  cases a with
  | begin =>
    obtain ⟨rfl, rfl⟩ := by simpa [step] using h
    exact .begin rfl rfl
  | expire i e =>
    simp only [step] at h
    split at h
    · rename_i spot hl
      cases h
      exact .move hl rfl rfl rfl rfl rfl (.inl le_rfl) (.inl le_rfl) .inl (fun _ hr => hr) nofun
    · cases h
  | check i =>
    simp only [step] at h
    split at h
    · rename_i hl
      cases h
      exact .move hl rfl rfl rfl rfl rfl (.inl le_rfl) (.inl le_rfl) nofun nofun (refused_done rfl)
    · rename_i hl
      cases h
      exact .move hl rfl rfl rfl rfl rfl (.inl le_rfl) (.inl le_rfl) nofun nofun nofun
    · cases h
  | trySlot i =>
    simp only [step] at h
    split at h
    · rename_i hl
      split_ifs at h with hfree
      · cases h
        exact .move hl rfl rfl rfl rfl rfl (.inr hfree) (.inl le_rfl) nofun nofun nofun
      · cases h
        exact .move hl rfl rfl rfl rfl rfl (.inl le_rfl) (.inl le_rfl)
          (fun _ => .inr ⟨rfl, not_lt.mp hfree⟩) nofun nofun
    · cases h
  | tryQueue i =>
    simp only [step] at h
    split at h
    · rename_i hl
      split_ifs at h with hfree
      · cases h
        exact .move hl rfl rfl rfl rfl rfl (.inl le_rfl) (.inr hfree) nofun nofun nofun
      · cases h
        exact .move hl rfl rfl rfl rfl rfl (.inl le_rfl) (.inl le_rfl) nofun nofun fun _ _ ho => by
            cases ho
            exact ⟨rfl, rfl, fun _ => ⟨rfl, rfl, not_lt.mp hfree⟩⟩
    · cases h
  | grant i =>
    simp only [step] at h
    split at h
    · rename_i hl
      split_ifs at h with hfree
      cases h
      exact .move hl rfl rfl rfl rfl rfl (.inr hfree) (.inl le_rfl) nofun nofun nofun
    · cases h
  | giveUp i =>
    simp only [step] at h
    split at h
    · rename_i hl
      cases h
      exact .move hl rfl rfl rfl rfl rfl (.inl le_rfl) (.inl le_rfl) nofun nofun nofun
    · cases h
  | leave i =>
    simp only [step] at h
    split at h
    · rename_i ctx err hl
      split_ifs at h with hpos
      have hback : s.limiter.waiting - 1 + 1 = s.limiter.waiting := by omega
      cases err with
      | none =>
        cases h
        exact .move hl rfl rfl rfl rfl hback (.inl le_rfl) (.inl (Nat.sub_le _ _)) nofun nofun nofun
      | some e =>
        cases h
        exact .move hl rfl rfl rfl rfl hback (.inl le_rfl) (.inl (Nat.sub_le _ _)) nofun nofun
          (refused_done rfl)
    · cases h
  | call i =>
    simp only [step] at h
    split at h
    · rename_i ctx hl
      cases h
      cases ctx with
      | none => exact .move hl rfl rfl rfl rfl rfl (.inl le_rfl) (.inl le_rfl) nofun nofun nofun
      | some e => exact .move hl rfl rfl rfl rfl rfl (.inl le_rfl) (.inl le_rfl) nofun nofun nofun
    · cases h
  | finish i =>
    simp only [step] at h
    split at h
    · rename_i hl
      cases h
      exact .move hl rfl rfl rfl rfl rfl (.inl le_rfl) (.inl le_rfl) nofun nofun nofun
    · cases h
  | release i =>
    simp only [step] at h
    split at h
    · rename_i hl
      split_ifs at h with hpos
      cases h
      have hback : s.limiter.slots - 1 + 1 = s.limiter.slots := by omega
      exact .move hl rfl rfl rfl hback rfl (.inl (Nat.sub_le _ _)) (.inl le_rfl) nofun nofun nofun
    · cases h

theorem inv_init {l : SourceLimiter} (hs : l.slots = 0) (hw : l.waiting = 0) : Inv l (init l) where
  limit := rfl
  maxPending := rfl
  slots := hs
  waiting := hw
  slots_le := by simp [init, hs]
  waiting_le := by simp [init, hw]

theorem inv_step {l₀ : SourceLimiter} {s s' : Admission} {a : Action} {o : Output} (hi : Inv l₀ s)
    (h : step s a = some (s', o)) : Inv l₀ s' := by
  cases step_moves h with
  | begin heq _ =>
    subst heq
    refine ⟨hi.limit, hi.maxPending, ?_, ?_, hi.slots_le, hi.waiting_le⟩
    · simpa [Load.holdsSlot] using hi.slots
    · simpa [Load.holdsQueue] using hi.waiting
  | @move i l l' hl hloads hlim hmax hslots hwait hsle hwle _ _ _ =>
    have h₁ := countP_put Load.holdsSlot l' hl
    have h₂ := countP_put Load.holdsQueue l' hl
    have hs := hi.slots
    have hw := hi.waiting
    have hs₀ := hi.slots_le
    have hw₀ := hi.waiting_le
    have hl₀ := hi.limit
    have hm₀ := hi.maxPending
    refine ⟨hlim.trans hi.limit, hmax.trans hi.maxPending, ?_, ?_, ?_, ?_⟩
    · rw [hloads]
      omega
    · rw [hloads]
      omega
    · omega
    · omega

theorem inv_run {l : SourceLimiter} (hs : l.slots = 0) (hw : l.waiting = 0) {tr : List (Action × Output)}
    {s : Admission} (h : Run step (init l) tr s) : Inv l s :=
  h.inv (inv_init hs hw) fun _ _ _ _ hi ha => inv_step hi ha

/-! ### Overload -/

/-- The select for a free slot of load `i` finds all slots taken. -/
def FindsFull (i : ℕ) (s : Admission) (a : Action) : Prop := a = .trySlot i ∧ s.limiter.slots = s.limiter.limit

/-- A load that turns to the queue has found all slots taken. -/
theorem queue_after_full {l : SourceLimiter} (hs : l.slots = 0) (hw : l.waiting = 0) {tr : List (Action × Output)}
    {s : Admission} (h : Run step (init l) tr s) :
    ∀ i x, s.loads[i]? = some x → x.spot = .queue → Happened step (init l) (FindsFull i) tr := by
  refine h.rec_inv (I := fun tr s => ∀ i x, s.loads[i]? = some x → x.spot = .queue →
    Happened step (init l) (FindsFull i) tr) ?_ ?_
  · intro i x hx
    simp [init] at hx
  · intro tr s a o s' hr ih hst i x hx hq
    rw [happened_snoc hr]
    cases step_moves hst with
    | begin heq _ =>
      subst heq
      rw [List.getElem?_append] at hx
      split_ifs at hx with hlt
      · exact .inl (ih i x hx hq)
      · -- the new load is at its start
        rw [List.mem_singleton.mp (List.mem_of_getElem? hx)] at hq
        cases hq
    | @move j y y' hy hloads _ _ _ _ _ _ hqueue _ _ =>
      rw [hloads, List.getElem?_set] at hx
      split_ifs at hx with hij hlt
      · cases hx
        subst hij
        rcases hqueue hq with hold | ⟨ha, hfull⟩
        · exact .inl (ih j y hy hold)
        · have hinv := inv_run hs hw hr
          have hle : s.limiter.slots ≤ s.limiter.limit := hinv.limit ▸ hinv.slots_le
          exact .inr ⟨ha, le_antisymm hle hfull⟩
      · exact .inl (ih i x hx hq)

theorem executes_le (loads : List Load) : loads.countP Load.executes ≤ loads.countP Load.holdsSlot := by
  apply List.countP_mono_left
  intro l _ he
  simp only [Load.executes, decide_eq_true_eq] at he
  simp [Load.holdsSlot, he]

theorem waits_le (loads : List Load) : loads.countP Load.waits ≤ loads.countP Load.holdsQueue := by
  apply List.countP_mono_left
  intro l _ hw
  simp only [Load.waits, decide_eq_true_eq] at hw
  simp [Load.holdsQueue, hw]

theorem not_active {l : Load} (h : l.active = false) : l.holdsSlot = false ∧ l.holdsQueue = false := by
  obtain ⟨ctx, spot⟩ := l
  cases spot <;> first | exact ⟨rfl, rfl⟩ | cases h

/-- A load that was refused stays so. -/
def RefusedAt (i : ℕ) (e : Err) (s : Admission) : Prop := ∃ x, s.loads[i]? = some x ∧ x.spot = .refused e

theorem refusedAt_step {i : ℕ} {e : Err} {s s' : Admission} {a : Action} {o : Output} (hr : RefusedAt i e s)
    (h : step s a = some (s', o)) : RefusedAt i e s' := by
  obtain ⟨x, hx, hspot⟩ := hr
  cases step_moves h with
  | begin heq _ =>
    subst heq
    exact ⟨x, by rw [List.getElem?_append_left (List.getElem?_eq_some_iff.mp hx).1, hx], hspot⟩
  | @move j y y' hy hloads _ _ _ _ _ _ _ hstay _ =>
    rw [RefusedAt, hloads]
    by_cases hij : j = i
    · subst hij
      obtain rfl : y = x := Option.some.inj (hy.symm.trans hx)
      exact ⟨y', List.getElem?_set_self (List.getElem?_eq_some_iff.mp hx).1, hstay e hspot⟩
    · exact ⟨x, by rw [List.getElem?_set_ne hij, hx], hspot⟩

/-- What holds where `acquire` returns an error. -/
theorem acquire_error {s s' : Admission} {a : Action} {i : ℕ} {e : Err}
    (h : step s a = some (s', .acquired i (some e))) :
    RefusedAt i e s' ∧ (e = .overloaded → a = .tryQueue i ∧ s.limiter.maxPending ≤ s.limiter.waiting ∧
      ∃ x, s.loads[i]? = some x ∧ x.spot = .queue) := by
  cases step_moves h with
  | begin _ ho => cases ho
  | @move j y y' hy hloads _ _ _ _ _ _ _ _ hout =>
    obtain ⟨rfl, hspot, hover⟩ := hout i e rfl
    refine ⟨⟨y', ?_, hspot⟩, fun he => ?_⟩
    · rw [hloads, List.getElem?_set_self (List.getElem?_eq_some_iff.mp hy).1]
    · obtain ⟨ha, hq, hfull⟩ := hover he
      exact ⟨ha, hfull, y, hy, hq⟩

/-- **Source admission is bounded and leak free.**  Over one limiter, for any loads and any interleaving of their
actions with the ends of their contexts: at most `limit` source calls execute and at most `maxPending` loads wait; the
channels hold exactly the tokens of the loads between a successful acquire and its release and of the queued loads; a
load whose acquire returned an error holds none from then on; `ErrOverloaded` comes only after the load found all slots
taken and then the queue full; and with no load active both channels are empty. -/
theorem source_admission {limit maxPending : ℤ} {l : SourceLimiter}
    (hl : newSourceLimiterWithQueue limit maxPending = some l) {tr : List (Action × Output)} {s : Admission}
    (h : Run step (init l) tr s) :
    (s.loads.countP Load.executes : ℤ) ≤ limit ∧ (s.loads.countP Load.waits : ℤ) ≤ maxPending ∧
    s.limiter.slots = s.loads.countP Load.holdsSlot ∧ s.limiter.waiting = s.loads.countP Load.holdsQueue ∧
    (∀ a i e, (a, .acquired i (some e)) ∈ tr →
      ∃ x, s.loads[i]? = some x ∧ x.holdsSlot = false ∧ x.holdsQueue = false) ∧
    (∀ tr₁ a i tr₂, tr = tr₁ ++ (a, .acquired i (some .overloaded)) :: tr₂ →
      Happened step (init l) (FindsFull i) tr₁ ∧
      ∃ s₁, Run step (init l) tr₁ s₁ ∧ a = .tryQueue i ∧ s₁.limiter.waiting = s₁.limiter.maxPending) ∧
    ((∀ x ∈ s.loads, x.active = false) → s.limiter.slots = 0 ∧ s.limiter.waiting = 0) := by
  obtain ⟨hlim, hmax, hs, hw⟩ := newSourceLimiterWithQueue_eq hl
  have hi := inv_run hs hw h
  have hexec := executes_le s.loads
  have hwait := waits_le s.loads
  have hle := hi.slots ▸ hi.slots_le
  have hle' := hi.waiting ▸ hi.waiting_le
  refine ⟨by omega, by omega, hi.slots, hi.waiting, fun a i e hmem => ?_, fun tr₁ a i tr₂ htr => ?_, fun hidle => ?_⟩
  · -- refused at the event, refused at the end
    obtain ⟨tr₁, tr₂, rfl⟩ := List.append_of_mem hmem
    obtain ⟨s₁, s₂, -, hst, hrest⟩ := h.cut
    obtain ⟨x, hx, hspot⟩ :=
      hrest.inv (I := RefusedAt i e) (acquire_error hst).1 fun _ _ _ _ hr ha => refusedAt_step hr ha
    exact ⟨x, hx, by simp [Load.holdsSlot, hspot], by simp [Load.holdsQueue, hspot]⟩
  · subst htr
    obtain ⟨s₁, s₂, h₁, hst, -⟩ := h.cut
    obtain ⟨ha, hfull, x, hx, hq⟩ := (acquire_error hst).2 rfl
    have hi₁ := inv_run hs hw h₁
    have hle₁ : s₁.limiter.waiting ≤ s₁.limiter.maxPending := hi₁.maxPending ▸ hi₁.waiting_le
    exact ⟨queue_after_full hs hw h₁ i x hx hq, s₁, h₁, ha, le_antisymm hle₁ hfull⟩
  · rw [hi.slots, hi.waiting, List.countP_eq_zero, List.countP_eq_zero]
    exact ⟨fun x hx => by simp [(not_active (hidle x hx)).1], fun x hx => by simp [(not_active (hidle x hx)).2]⟩

/-- A limiter of one slot and one place: the second load waits, the third is turned away, the first ends and the second
gets its slot. -/
theorem source_admission_full : ∃ s : Admission, s.limiter.slots = 1 ∧ s.loads.length = 3 ∧
    (s.loads.countP Load.executes : ℤ) ≤ 1 ∧ s.loads[2]? = some ⟨none, .refused .overloaded⟩ := by
  have hrun := Lib.exec_run step
    [.begin, .begin, .begin, .check 0, .check 1, .check 2, .trySlot 0, .trySlot 1, .trySlot 2, .call 0, .tryQueue 1,
      .tryQueue 2, .finish 0, .release 0, .grant 1, .leave 1, .call 1] (init ⟨1, 1, 0, 0⟩) _ _ rfl
  have hnew : newSourceLimiterWithQueue 1 1 = some ⟨1, 1, 0, 0⟩ := rfl
  exact ⟨_, rfl, rfl, (source_admission hnew hrun).1, rfl⟩

end Admission

end SimpleCache.Cache
