import Mathlib.Algebra.Order.BigOperators.Group.List
import Mathlib.Algebra.Order.Ring.Nat
import Mathlib.Data.List.Nodup
import Mathlib.Data.List.Perm.Basic
import Mathlib.Data.List.Range
import SimpleCache.Lib.Run
import SimpleCache.Lib.Slots

/-!
# Lib.Pool — a dispatcher and its workers over an unbuffered channel

A dispatcher hands the indices `0, …, size - 1` in order to workers that wait on an unbuffered channel, closes the
channel and waits until all workers have exited.  A worker that has received an index runs until its job ends, with
some outcome, and waits on the channel again.

`Sound.jobs`: at every moment the indices handed out are those whose job is running or has ended, each once.
`Sound.progress` and `work_lt`: while no job runs and the wait is not over some step is enabled, and every step lowers
the work to come.
-/

namespace SimpleCache.Lib

/-- Where a worker stands. -/
inductive Worker
  | receiving
  | running (i : ℕ)
  | exited
  deriving DecidableEq, Repr

/-- The index that a worker has received. -/
def Worker.job? : Worker → Option ℕ
  | .running i => some i
  | _ => none

/-- The steps that a worker can still take on its own. -/
def Worker.weight : Worker → ℕ
  | .receiving => 1
  | .running _ => 2
  | .exited => 0

/-- A dispatcher that hands out the index `next`, and its workers. -/
structure Pool where
  size : ℕ
  workers : List Worker
  next : ℕ
  closed : Bool
  deriving DecidableEq, Repr

namespace Pool

variable {ρ : Type*}

def start (size workers : ℕ) : Pool := ⟨size, List.replicate workers .receiving, 0, false⟩

/-- A step of the dispatcher and the worker `w`, or of one of them; `r` is the outcome of a job. -/
inductive Act (ρ : Type*)
  | handoff (w : ℕ)
  | finish (w : ℕ) (r : ρ)
  | close
  | exit (w : ℕ)

/-- What a step shows. -/
inductive Event (ρ : Type*)
  | started (i : ℕ)
  | ended (i : ℕ) (r : ρ)
  | quiet

def step (p : Pool) : Act ρ → Option (Pool × Event ρ)
  | .handoff w =>
    if p.next < p.size ∧ p.workers[w]? = some .receiving then
      some ({ p with workers := p.workers.set w (.running p.next), next := p.next + 1 }, .started p.next)
    else none
  | .finish w r =>
    match p.workers[w]? with
    | some (.running i) => some ({ p with workers := p.workers.set w .receiving }, .ended i r)
    | _ => none
  | .close => if p.next = p.size ∧ p.closed = false then some ({ p with closed := true }, .quiet) else none
  | .exit w =>
    if p.closed = true ∧ p.workers[w]? = some .receiving then
      some ({ p with workers := p.workers.set w .exited }, .quiet)
    else none

/-- The steps, by what they need. -/
inductive Move (p : Pool) : Act ρ → Pool → Event ρ → Prop
  | handoff {w : ℕ} : p.next < p.size → p.workers[w]? = some .receiving →
      Move p (.handoff w) { p with workers := p.workers.set w (.running p.next), next := p.next + 1 } (.started p.next)
  | finish {w i : ℕ} {r : ρ} : p.workers[w]? = some (.running i) →
      Move p (.finish w r) { p with workers := p.workers.set w .receiving } (.ended i r)
  | close : p.next = p.size → p.closed = false → Move p .close { p with closed := true } .quiet
  | exit {w : ℕ} : p.closed = true → p.workers[w]? = some .receiving →
      Move p (.exit w) { p with workers := p.workers.set w .exited } .quiet

theorem move_of_step {p p' : Pool} {a : Act ρ} {o : Event ρ} (h : p.step a = some (p', o)) : Move p a p' o := by
  cases a with
  | handoff w =>
    simp only [step] at h
    split_ifs at h with hc
    obtain ⟨rfl, rfl⟩ := Prod.mk.inj (Option.some.inj h)
    exact .handoff hc.1 hc.2
  | finish w r =>
    simp only [step] at h
    cases hw : p.workers[w]? with
    | none => simp [hw] at h
    | some x =>
      cases x with
      | running i =>
        rw [hw] at h
        obtain ⟨rfl, rfl⟩ := Prod.mk.inj (Option.some.inj h)
        exact .finish hw
      | receiving => simp [hw] at h
      | exited => simp [hw] at h
  | close =>
    simp only [step] at h
    split_ifs at h with hc
    obtain ⟨rfl, rfl⟩ := Prod.mk.inj (Option.some.inj h)
    exact .close hc.1 hc.2
  | exit w =>
    simp only [step] at h
    split_ifs at h with hc
    obtain ⟨rfl, rfl⟩ := Prod.mk.inj (Option.some.inj h)
    exact .exit hc.1 hc.2

/-- The dispatcher's wait is over. -/
def finished (p : Pool) : Prop := p.closed = true ∧ ∀ w ∈ p.workers, w = .exited

instance (p : Pool) : Decidable p.finished := by unfold finished; infer_instance

/-- The indices whose job is running. -/
def busy (p : Pool) : List ℕ := p.workers.filterMap Worker.job?

/-- The jobs that have ended on a trace, with their outcomes. -/
def ended (tr : List (Act ρ × Event ρ)) : List (ℕ × ρ) :=
  tr.filterMap fun ev =>
    match ev.2 with
    | .ended i r => some (i, r)
    | _ => none

/-- The indices that have been handed out on a trace, in order. -/
def started (tr : List (Act ρ × Event ρ)) : List ℕ :=
  tr.filterMap fun ev =>
    match ev.2 with
    | .started i => some i
    | _ => none

/-- A bound on the steps to come. -/
def work (p : Pool) : ℕ :=
  2 * (p.size - p.next) + (p.workers.map Worker.weight).sum + if p.closed then 0 else 1

/-! ### Runs -/

/-- What every run of a pool keeps. -/
structure Sound (size workers : ℕ) (tr : List (Act ρ × Event ρ)) (p : Pool) : Prop where
  size_eq : p.size = size
  workers_eq : p.workers.length = workers
  next_le : p.next ≤ p.size
  closed : p.closed = true → p.next = p.size
  exited : .exited ∈ p.workers → p.closed = true
  handed : started tr = List.range p.next
  jobs : (p.busy ++ (ended tr).map Prod.fst).Perm (List.range p.next)

section Sound

variable {size workers : ℕ} {tr : List (Act ρ × Event ρ)} {p p' : Pool} {a : Act ρ} {o : Event ρ}

theorem sound_start (size workers : ℕ) :
    Sound size workers ([] : List (Act ρ × Event ρ)) (start size workers) where
  size_eq := rfl
  workers_eq := List.length_replicate
  next_le := Nat.zero_le _
  closed h := absurd h (by simp [start])
  exited h := absurd (List.eq_of_mem_replicate h) (by simp)
  handed := rfl
  jobs := by
    have : (start size workers).busy = [] := by
      rw [busy, List.filterMap_eq_nil_iff]
      intro w hw
      rw [List.eq_of_mem_replicate hw]
      rfl
    rw [this]
    exact List.Perm.refl _

theorem ended_snoc (tr : List (Act ρ × Event ρ)) (a : Act ρ) (o : Event ρ) :
    ended (tr ++ [(a, o)]) = ended tr ++ match o with
      | .ended i r => [(i, r)]
      | _ => [] := by
  unfold ended
  rw [List.filterMap_append]
  cases o <;> rfl

theorem Sound.step (h : Sound size workers tr p) (hst : p.step a = some (p', o)) :
    Sound size workers (tr ++ [(a, o)]) p' := by
  have hlen : ∀ w y, (p.workers.set w y).length = workers := fun w y => List.length_set.trans h.workers_eq
  cases move_of_step hst with
  | @handoff w hlt hw =>
    have hbusy : (busy { p with workers := p.workers.set w (.running p.next), next := p.next + 1 }).Perm
        (p.next :: p.busy) := Slots.perm_set Worker.job? (.running p.next) hw
    refine ⟨h.size_eq, hlen _ _, hlt, fun hc => absurd (h.closed hc) hlt.ne,
      fun he => h.exited (Slots.mem_of_mem_set (by simp) he), ?_, ?_⟩
    · simp [started, List.range_succ, ← h.handed]
    · rw [ended_snoc, List.append_nil, List.range_succ]
      exact (hbusy.append_right _).trans ((h.jobs.cons p.next).trans (List.perm_append_singleton _ _).symm)
  | @finish w i r hw =>
    have hbusy : (i :: busy { p with workers := p.workers.set w .receiving }).Perm p.busy :=
      Slots.perm_set Worker.job? .receiving hw
    refine ⟨h.size_eq, hlen _ _, h.next_le, h.closed, fun he => h.exited (Slots.mem_of_mem_set (by simp) he), ?_, ?_⟩
    · simp [started, ← h.handed]
    · rw [ended_snoc, List.map_append, ← List.append_assoc]
      exact (List.perm_append_singleton _ _).trans ((hbusy.append_right _).trans h.jobs)
  | close heq hc =>
    refine ⟨h.size_eq, h.workers_eq, h.next_le, fun _ => heq, fun _ => rfl, ?_, ?_⟩
    · simp [started, ← h.handed]
    · rw [ended_snoc, List.append_nil]
      exact h.jobs
  | @exit w hc hw =>
    have hbusy : (busy { p with workers := p.workers.set w .exited }).Perm p.busy := Slots.perm_set Worker.job? .exited hw
    refine ⟨h.size_eq, hlen _ _, h.next_le, h.closed, fun _ => hc, ?_, ?_⟩
    · simp [started, ← h.handed]
    · rw [ended_snoc, List.append_nil]
      exact (hbusy.append_right _).trans h.jobs

theorem sound_run (hrun : Run Pool.step (start size workers) tr p) : Sound size workers tr p :=
  hrun.rec_inv (I := Sound size workers) (sound_start size workers) fun _ _ _ _ _ _ hI hst => hI.step hst

/-- **Every job has ended once** when the dispatcher's wait is over. -/
theorem Sound.all_ended (h : Sound size workers tr p) (hf : p.finished) :
    started tr = List.range size ∧ ((ended tr).map Prod.fst).Perm (List.range size) := by
  have hnext : p.next = size := (h.closed hf.1).trans h.size_eq
  have hbusy : p.busy = [] := by
    rw [busy, List.filterMap_eq_nil_iff]
    intro w hw
    rw [hf.2 w hw]
    rfl
  have hj := h.jobs
  rw [hbusy, List.nil_append, hnext] at hj
  exact ⟨by rw [h.handed, hnext], hj⟩

/-- The outcomes in the order of the indices. -/
theorem exists_outcomes {n : ℕ} {l : List (ℕ × ρ)} (h : (l.map Prod.fst).Perm (List.range n)) :
    ∃ outcomes : List ρ, outcomes.length = n ∧ ∀ i r, (i, r) ∈ l ↔ outcomes[i]? = some r := by
  have hall : ∀ i : Fin n, ∃ r, ((i : ℕ), r) ∈ l := by
    intro i
    obtain ⟨⟨j, r⟩, hmem, hj⟩ := List.mem_map.mp (h.mem_iff.mpr (List.mem_range.mpr i.2))
    exact ⟨r, by rw [← hj]; exact hmem⟩
  choose f hf using hall
  have hnd : (l.map Prod.fst).Nodup := h.nodup_iff.mpr List.nodup_range
  refine ⟨List.ofFn f, List.length_ofFn, fun i r => ⟨fun hmem => ?_, fun hget => ?_⟩⟩
  · have hi : i < n := List.mem_range.mp (h.mem_iff.mp (List.mem_map_of_mem hmem))
    have heq : (i, r) = (i, f ⟨i, hi⟩) := List.inj_on_of_nodup_map hnd hmem (hf ⟨i, hi⟩) rfl
    rw [(Prod.mk.inj heq).2]
    simp [hi]
  · obtain ⟨hi, rfl⟩ := List.getElem?_eq_some_iff.mp hget
    rw [List.length_ofFn] at hi
    simpa using hf ⟨i, hi⟩

/-- **Progress**: while no job is running and the wait is not over, the dispatcher or a worker can go on. -/
theorem Sound.progress (h : Sound size workers tr p) (hw : size ≠ 0 → workers ≠ 0) (hb : p.busy = [])
    (hf : ¬ p.finished) : ∃ a : Act ρ, (∀ w r, a ≠ .finish w r) ∧ (p.step a).isSome := by
  have hjob : ∀ x ∈ p.workers, x = .receiving ∨ x = .exited := by
    intro x hx
    cases x with
    | running i =>
      have : i ∈ p.busy := List.mem_filterMap.mpr ⟨_, hx, rfl⟩
      rw [hb] at this
      exact absurd this (by simp)
    | receiving => exact Or.inl rfl
    | exited => exact Or.inr rfl
  cases hc : p.closed with
  | true =>
    -- a worker that has not exited is at the closed channel
    obtain ⟨x, hx, hne⟩ : ∃ x ∈ p.workers, x ≠ .exited := by
      by_contra hall
      push Not at hall
      exact hf ⟨hc, hall⟩
    obtain rfl := (hjob x hx).resolve_right hne
    obtain ⟨w, hwx⟩ := List.mem_iff_getElem?.mp hx
    exact ⟨.exit w, by simp, by simp [Pool.step, hc, hwx]⟩
  | false =>
    rcases h.next_le.lt_or_eq with hlt | heq
    · -- no worker exits before the channel is closed
      have hne : p.workers ≠ [] := by
        rw [← List.length_pos_iff, h.workers_eq]
        have := h.size_eq
        exact Nat.pos_of_ne_zero (hw (by omega))
      obtain ⟨x, hx⟩ := List.exists_mem_of_ne_nil _ hne
      have hrec : x = .receiving := (hjob x hx).resolve_right fun he => by
        rw [h.exited (he ▸ hx)] at hc
        exact absurd hc (by simp)
      subst hrec
      obtain ⟨w, hwx⟩ := List.mem_iff_getElem?.mp hx
      exact ⟨.handoff w, by simp, by simp [Pool.step, hlt, hwx]⟩
    · exact ⟨.close, by simp, by simp [Pool.step, heq, hc]⟩

end Sound

/-- **Every step lowers the work to come.** -/
theorem work_lt {p p' : Pool} {a : Act ρ} {o : Event ρ} (hst : p.step a = some (p', o)) : p'.work < p.work := by
  unfold work
  cases move_of_step hst with
  | handoff hlt hw =>
    have := Slots.sum_set Worker.weight (.running p.next) hw
    simp only [Worker.weight] at this ⊢
    omega
  | finish hw =>
    have := Slots.sum_set Worker.weight .receiving hw
    simp only [Worker.weight] at this ⊢
    omega
  | close heq hc => simp [hc]
  | exit hc hw =>
    have := Slots.sum_set Worker.weight .exited hw
    simp only [Worker.weight] at this ⊢
    omega

end Pool

end SimpleCache.Lib
