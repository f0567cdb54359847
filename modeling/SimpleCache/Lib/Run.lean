import Mathlib.Data.List.Induction

/-!
# Lib.Run — runs of a partial step function and their traces

A system is a step function `step : σ → α → Option (σ × ω)`: in state `s` the action `a` is either
impossible (`none`) or leads to one next state and one answer.  All nondeterminism (schedules,
clock readings, faults) is in the actions, so a run is determined by its actions.

`Run step s₀ tr s`: the events `tr` (actions with their answers, oldest first) lead from `s₀` to `s`.
`Run.rec_inv` is the invariant rule over the whole history, `Run.inv` its form for states;
`Run.split` cuts a run at any point, which is how "once …, then from then on …" is stated; `Run.project` is the run
of one component inside the run of the whole; `Happened` looks back from a state over its history.
-/

namespace SimpleCache.Lib

variable {σ α ω : Type*} {step : σ → α → Option (σ × ω)}

/-- The events `tr`, oldest first, lead from `s₀` to `s`. -/
inductive Run (step : σ → α → Option (σ × ω)) (s₀ : σ) : List (α × ω) → σ → Prop
  | nil : Run step s₀ [] s₀
  | snoc {tr : List (α × ω)} {s s' : σ} {a : α} {o : ω} :
      Run step s₀ tr s → step s a = some (s', o) → Run step s₀ (tr ++ [(a, o)]) s'

namespace Run

variable {s₀ s s' s₁ : σ} {tr tr₁ tr₂ : List (α × ω)}

theorem nil_inv (h : Run step s₀ [] s) : s = s₀ := by
  generalize htr : ([] : List (α × ω)) = tr at h
  cases h with
  | nil => rfl
  | snoc _ _ => simp at htr

theorem snoc_inv {a : α} {o : ω} (h : Run step s₀ (tr ++ [(a, o)]) s') :
    ∃ s, Run step s₀ tr s ∧ step s a = some (s', o) := by
  generalize htr : tr ++ [(a, o)] = tr' at h
  cases h with
  | nil => simp at htr
  | snoc h1 h2 =>
    obtain ⟨rfl, he⟩ := List.append_inj' htr rfl
    simp only [List.cons.injEq, Prod.mk.injEq, and_true] at he
    obtain ⟨rfl, rfl⟩ := he
    exact ⟨_, h1, h2⟩

theorem single {a : α} {o : ω} (h : step s₀ a = some (s, o)) : Run step s₀ [(a, o)] s := by
  simpa using Run.snoc .nil h

/-- The invariant rule: `I` may speak about the whole history. -/
theorem rec_inv {I : List (α × ω) → σ → Prop} (h0 : I [] s₀)
    (hs : ∀ tr s a o s', Run step s₀ tr s → I tr s → step s a = some (s', o) →
      I (tr ++ [(a, o)]) s') (h : Run step s₀ tr s) : I tr s := by
  induction h with
  | nil => exact h0
  | snoc hr hst ih => exact hs _ _ _ _ _ hr ih hst

/-- The invariant rule for states. -/
theorem inv {I : σ → Prop} (h0 : I s₀)
    (hs : ∀ s a o s', I s → step s a = some (s', o) → I s') (h : Run step s₀ tr s) : I s :=
  rec_inv (I := fun _ s => I s) h0 (fun _ _ _ _ _ _ => hs _ _ _ _) h

/-- A relation between the ends of a run, from one that holds of every step. -/
theorem rel {R : σ → σ → Prop} (hrefl : ∀ s, R s s) (htrans : ∀ a b c, R a b → R b c → R a c)
    (hs : ∀ s a o s', step s a = some (s', o) → R s s') (h : Run step s₀ tr s) : R s₀ s :=
  inv (I := R s₀) (hrefl s₀) (fun _ _ _ _ hI hst => htrans _ _ _ hI (hs _ _ _ _ hst)) h

theorem append (h₁ : Run step s₀ tr₁ s₁) (h₂ : Run step s₁ tr₂ s) :
    Run step s₀ (tr₁ ++ tr₂) s := by
  induction h₂ with
  | nil => simpa using h₁
  | snoc _ hst ih => rw [← List.append_assoc]; exact .snoc ih hst

/-- A run can be cut at every point of its trace. -/
theorem split (h : Run step s₀ (tr₁ ++ tr₂) s) :
    ∃ s₁, Run step s₀ tr₁ s₁ ∧ Run step s₁ tr₂ s := by
  induction tr₂ using List.reverseRecOn generalizing s with
  | nil => exact ⟨s, by simpa using h, .nil⟩
  | append_singleton tr₂ e ih =>
    rw [← List.append_assoc] at h
    obtain ⟨s', h1, h2⟩ := snoc_inv h
    obtain ⟨s₁, h3, h4⟩ := ih h1
    exact ⟨s₁, h3, .snoc h4 h2⟩

/-- A run cut around one of its events. -/
theorem cut {a : α} {o : ω} (h : Run step s₀ (tr₁ ++ (a, o) :: tr₂) s) :
    ∃ s₁ s₂, Run step s₀ tr₁ s₁ ∧ step s₁ a = some (s₂, o) ∧ Run step s₂ tr₂ s := by
  rw [List.append_cons] at h
  obtain ⟨s₂, h1, h2⟩ := split h
  obtain ⟨s₁, h3, h4⟩ := snoc_inv h1
  exact ⟨s₁, s₂, h3, h4, h2⟩

/-- The run of a part: every step is either one of the part, which `π` shows, or leaves it alone. -/
theorem project {σ' α' ω' : Type*} {step' : σ' → α' → Option (σ' × ω')} {f : σ → σ'} {π : α × ω → List (α' × ω')}
    (h : Run step s₀ tr s)
    (hs : ∀ tr₁ s₁ a o s₂ tr₂, tr = tr₁ ++ (a, o) :: tr₂ → Run step s₀ tr₁ s₁ → step s₁ a = some (s₂, o) →
      Run step s₂ tr₂ s → (f s₂ = f s₁ ∧ π (a, o) = []) ∨
        ∃ e, π (a, o) = [e] ∧ step' (f s₁) e.1 = some (f s₂, e.2)) :
    Run step' (f s₀) (tr.flatMap π) (f s) := by
  induction h with
  | nil => exact .nil
  | @snoc tr s s' a o hr hst ih =>
    have hrun := ih fun tr₁ s₁ a₁ o₁ s₂ tr₂ heq h₁ h₂ h₃ =>
      hs tr₁ s₁ a₁ o₁ s₂ (tr₂ ++ [(a, o)]) (by simp [heq]) h₁ h₂ (.snoc h₃ hst)
    rw [List.flatMap_append, List.flatMap_singleton]
    rcases hs tr s a o s' [] rfl hr hst .nil with ⟨hf, hπ⟩ | ⟨e, hπ, hst'⟩
    · rwa [hπ, List.append_nil, hf]
    · rw [hπ]
      exact .snoc hrun hst'

/-- A potential that no step raises and that the steps with `c` lower bounds the number of these. -/
theorem potential {f : σ → ℕ} {c : α → Bool}
    (hs : ∀ tr s a o s', Run step s₀ tr s → step s a = some (s', o) → f s' + (c a).toNat ≤ f s)
    (h : Run step s₀ tr s) : f s + tr.countP (fun e => c e.1) ≤ f s₀ := by
  induction h with
  | nil => simp
  | @snoc tr s s' a o hr hst ih =>
    have := hs tr s a o s' hr hst
    rw [List.countP_append, List.countP_singleton]
    cases hc : c a <;> simp only [hc, Bool.toNat_true, Bool.toNat_false] at this ⊢ <;> simp <;> omega

/-- A run that is not empty begins with a step. -/
theorem cons_inv {a : α} {o : ω} (h : Run step s₀ ((a, o) :: tr) s) :
    ∃ s₁, step s₀ a = some (s₁, o) ∧ Run step s₁ tr s := by
  rw [← List.nil_append ((a, o) :: tr)] at h
  obtain ⟨s₁, s₂, h₁, hst, h₂⟩ := h.cut
  obtain rfl := h₁.nil_inv
  exact ⟨s₂, hst, h₂⟩

/-- A run on which a property comes to hold has a step at which it begins to. -/
theorem crossing {P : σ → Prop} (h : Run step s₀ tr s) (h0 : ¬ P s₀) (hP : P s) :
    ∃ tr₁ s₁ a o s₂ tr₂, tr = tr₁ ++ (a, o) :: tr₂ ∧ Run step s₀ tr₁ s₁ ∧ step s₁ a = some (s₂, o) ∧
      Run step s₂ tr₂ s ∧ ¬ P s₁ ∧ P s₂ := by
  induction h with
  | nil => exact absurd hP h0
  | @snoc tr s s' a o hr hst ih =>
    by_cases hs : P s
    · obtain ⟨tr₁, s₁, a₁, o₁, s₂, tr₂, rfl, h₁, h₂, h₃, h₄⟩ := ih hs
      exact ⟨tr₁, s₁, a₁, o₁, s₂, tr₂ ++ [(a, o)], by simp, h₁, h₂, .snoc h₃ hst, h₄⟩
    · exact ⟨tr, s, a, o, s', [], rfl, hr, hst, .nil, hs, hP⟩

end Run

/-! ### What has happened on a run -/

/-- An action with the property `P`, which may speak about the state before it, is on the trace of a run. -/
def Happened (step : σ → α → Option (σ × ω)) (s₀ : σ) (P : σ → α → Prop) (tr : List (α × ω)) : Prop :=
  ∃ tr₁ s₁ a o tr₂, tr = tr₁ ++ (a, o) :: tr₂ ∧ Run step s₀ tr₁ s₁ ∧ P s₁ a

section Happened

variable {s₀ s s' : σ} {tr : List (α × ω)} {P : σ → α → Prop}

/-- The trace of a run determines its end. -/
theorem Run.det (h : Run step s₀ tr s) (h' : Run step s₀ tr s') : s = s' := by
  induction h generalizing s' with
  | nil => exact h'.nil_inv.symm
  | snoc _ hst ih =>
    obtain ⟨s₁, hr, hst'⟩ := h'.snoc_inv
    obtain rfl := ih hr
    rw [hst, Option.some.injEq] at hst'
    exact (Prod.mk.inj hst').1

/-- Two points of one run: the run goes on from one of them to the other. -/
theorem Run.comparable {tr₁ tr₂ tr₁' tr₂' : List (α × ω)} (h : Run step s₀ tr₁ s) (h' : Run step s₀ tr₁' s')
    (heq : tr₁ ++ tr₂ = tr₁' ++ tr₂') : (∃ q, Run step s q s') ∨ ∃ q, Run step s' q s := by
  rcases List.append_eq_append_iff.mp heq with ⟨q, rfl, -⟩ | ⟨q, rfl, -⟩
  · obtain ⟨s₁, h₁, h₂⟩ := h'.split
    obtain rfl := h.det h₁
    exact Or.inl ⟨q, h₂⟩
  · obtain ⟨s₁, h₁, h₂⟩ := h.split
    obtain rfl := h'.det h₁
    exact Or.inr ⟨q, h₂⟩

/-- An event and a later point of a run at which another event begins: it is the same event, or comes after it. -/
theorem Run.event_before {tr₁ tr₂ tr₂' q : List (α × ω)} {a a' : α} {o o' : ω} {t t' : σ}
    (h : Run step s₀ tr₁ s) (hst : step s a = some (t, o)) (h' : Run step s₀ (tr₁ ++ q) s')
    (hst' : step s' a' = some (t', o')) (hq : (a, o) :: tr₂ = q ++ (a', o') :: tr₂') :
    (q = [] ∧ s = s' ∧ t = t' ∧ a = a' ∧ o = o') ∨ ∃ q, Run step t q s' := by
  cases q with
  | nil =>
    simp only [List.nil_append, List.cons.injEq, Prod.mk.injEq] at hq
    obtain ⟨⟨rfl, rfl⟩, -⟩ := hq
    rw [List.append_nil] at h'
    obtain rfl := h.det h'
    rw [hst, Option.some.injEq] at hst'
    exact Or.inl ⟨rfl, rfl, (Prod.mk.inj hst').1, rfl, rfl⟩
  | cons e q =>
    rw [List.cons_append, List.cons.injEq] at hq
    obtain ⟨rfl, -⟩ := hq
    rw [List.append_cons] at h'
    obtain ⟨s₁, h₁, h₂⟩ := h'.split
    obtain rfl := (Run.snoc h hst).det h₁
    exact Or.inr ⟨q, h₂⟩

/-- Two events of one run are the same event, or the run goes on from the end of one to the start of the other. -/
theorem Run.events_comparable {tr₁ tr₂ tr₁' tr₂' : List (α × ω)} {a a' : α} {o o' : ω} {t t' : σ}
    (h : Run step s₀ tr₁ s) (hst : step s a = some (t, o)) (h' : Run step s₀ tr₁' s')
    (hst' : step s' a' = some (t', o')) (heq : tr₁ ++ (a, o) :: tr₂ = tr₁' ++ (a', o') :: tr₂') :
    (tr₁ = tr₁' ∧ s = s' ∧ t = t' ∧ a = a' ∧ o = o') ∨ (∃ q, Run step t q s') ∨ ∃ q, Run step t' q s := by
  rcases List.append_eq_append_iff.mp heq with ⟨q, rfl, hq⟩ | ⟨q, rfl, hq⟩
  · rcases Run.event_before h hst h' hst' hq with ⟨rfl, hsame⟩ | hlater
    · exact Or.inl ⟨(List.append_nil _).symm, hsame⟩
    · exact Or.inr (Or.inl hlater)
  · rcases Run.event_before h' hst' h hst hq with ⟨rfl, rfl, rfl, rfl, rfl⟩ | hlater
    · exact Or.inl ⟨List.append_nil _, rfl, rfl, rfl, rfl⟩
    · exact Or.inr (Or.inr hlater)

theorem not_happened_nil : ¬ Happened step s₀ P [] := by
  rintro ⟨tr₁, s₁, a, o, tr₂, h, -⟩
  simp at h

/-- One more action: it has the property, or an earlier one has. -/
theorem happened_snoc {a : α} {o : ω} (h : Run step s₀ tr s) :
    Happened step s₀ P (tr ++ [(a, o)]) ↔ Happened step s₀ P tr ∨ P s a := by
  constructor
  · rintro ⟨tr₁, s₁, a₁, o₁, tr₂, heq, hr, hP⟩
    rcases List.eq_nil_or_concat tr₂ with rfl | ⟨tr₂, e, rfl⟩
    · obtain ⟨rfl, he⟩ := List.append_inj' heq rfl
      simp only [List.cons.injEq, Prod.mk.injEq, and_true] at he
      obtain ⟨rfl, rfl⟩ := he
      exact Or.inr (h.det hr ▸ hP)
    · rw [List.concat_eq_append, ← List.cons_append, ← List.append_assoc] at heq
      exact Or.inl ⟨tr₁, s₁, a₁, o₁, tr₂, (List.append_inj' heq rfl).1, hr, hP⟩
  · rintro (⟨tr₁, s₁, a₁, o₁, tr₂, rfl, hr, hP⟩ | hP)
    · exact ⟨tr₁, s₁, a₁, o₁, tr₂ ++ [(a, o)], by simp, hr, hP⟩
    · exact ⟨tr, s, a, o, [], rfl, h, hP⟩

end Happened

/-! ### Running a list of actions -/

/-- The run of a list of actions, with the answers. -/
def exec (step : σ → α → Option (σ × ω)) : σ → List α → Option (σ × List ω)
  | s, [] => some (s, [])
  | s, a :: as =>
    match step s a with
    | none => none
    | some (s', o) => (exec step s' as).map fun r => (r.1, o :: r.2)

theorem exec_run (step : σ → α → Option (σ × ω)) : ∀ (as : List α) (s s' : σ) (os : List ω),
    exec step s as = some (s', os) →
    Run step s (as.zip os) s'
  | [], s, s', os, h => by
    simp only [exec, Option.some.injEq, Prod.mk.injEq] at h
    obtain ⟨rfl, rfl⟩ := h
    exact .nil
  | a :: as, s, s', os, h => by
    simp only [exec] at h
    cases hst : step s a with
    | none => simp [hst] at h
    | some r =>
      obtain ⟨s₁, o⟩ := r
      simp only [hst, Option.map_eq_some_iff, Prod.mk.injEq, Prod.exists] at h
      obtain ⟨s₂, os', h1, rfl, rfl⟩ := h
      exact (Run.single hst).append (exec_run step as s₁ s₂ os' h1)

/-- The run of a list of actions that are all possible, with its end and its trace as closed terms. -/
theorem exec_get {as : List α} {s : σ} (h : (exec step s as).isSome = true) :
    Run step s (as.zip ((exec step s as).get h).2) ((exec step s as).get h).1 :=
  exec_run step as s _ _ (Option.some_get h).symm

end SimpleCache.Lib
