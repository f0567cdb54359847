import Mathlib.Logic.Relation
import SimpleCache.Lib.Prog
import SimpleCache.Lib.Run

/-!
# Lib.Loop — loops of programs, and what they may call when

A loop is given by its body, a program for each state of the loop that ends with the next state or with the end of the
loop.  Nested loops are one loop whose states name the loop that is at its head.  `Loop.step` is the loop as a system: an
event is a call with its response, or the way back to the head; a run may stop anywhere, in the middle of a body too.

`Obeys ok Q p h`: after the calls `h`, whatever responses it gets, every call that the program makes is allowed by `ok`,
which sees the calls before it, and it ends with `Q`.  `Loop.obeys` is the rule for loops: a body that obeys `ok` and
keeps an invariant of the heads gives a loop that obeys `ok` in every run.

`Serving` is a loop whose calls are answered by a server with a state of its own, and `Serving.heads` its invariant rule.
-/

namespace SimpleCache.Lib

namespace Prog

variable {C : Type} {R : C → Type} {ε α β : Type}

/-- A program inside one with more calls. -/
def embed {C' : Type} {R' : C' → Type} (f : C → C') (g : ∀ c, R' (f c) → R c) :
    Prog C R ε α → Prog C' R' ε α
  | .pure a => .pure a
  | .throw e => .throw e
  | .call c k => .call (f c) fun r => (k (g c r)).embed f g

/-- Every call is allowed after the calls before it. -/
def Obeys (ok : List (Σ c, R c) → (Σ c, R c) → Prop) (Q : α → List (Σ c, R c) → Prop) :
    Prog C R ε α → List (Σ c, R c) → Prop
  | .pure a, h => Q a h
  | .throw _, _ => True
  | .call c k, h => ∀ r, ok h ⟨c, r⟩ ∧ Obeys ok Q (k r) (h ++ [⟨c, r⟩])

variable {ok : List (Σ c, R c) → (Σ c, R c) → Prop} {h : List (Σ c, R c)}

theorem obeys_bind {f : α → Prog C R ε β} {Q : β → List (Σ c, R c) → Prop} :
    ∀ {p : Prog C R ε α} {h : List (Σ c, R c)}, Obeys ok (fun a h => Obeys ok Q (f a) h) p h → Obeys ok Q (p >>= f) h
  | .pure _, _, hp => hp
  | .throw _, _, _ => trivial
  | .call _ _, _, hp => fun r => ⟨(hp r).1, obeys_bind (hp r).2⟩

theorem obeys_mono {Q Q' : α → List (Σ c, R c) → Prop} (hQ : ∀ a h, Q a h → Q' a h) :
    ∀ {p : Prog C R ε α} {h : List (Σ c, R c)}, Obeys ok Q p h → Obeys ok Q' p h
  | .pure a, h, hp => hQ a h hp
  | .throw _, _, _ => trivial
  | .call _ _, _, hp => fun r => ⟨(hp r).1, obeys_mono hQ (hp r).2⟩

theorem obeys_of_forall {Q : α → List (Σ c, R c) → Prop} (hok : ∀ h x, ok h x) (hQ : ∀ a h, Q a h) :
    ∀ (p : Prog C R ε α) (h : List (Σ c, R c)), Obeys ok Q p h
  | .pure a, h => hQ a h
  | .throw _, _ => trivial
  | .call _ k, h => fun r => ⟨hok h _, obeys_of_forall hok hQ (k r) _⟩

/-- The program makes at most `n` calls, whatever the responses. -/
def Within : Prog C R ε α → ℕ → Prop
  | .pure _, _ => True
  | .throw _, _ => True
  | .call _ _, 0 => False
  | .call _ k, n + 1 => ∀ r, (k r).Within n

theorem Within.mono : ∀ {p : Prog C R ε α} {n m : ℕ}, p.Within n → n ≤ m → p.Within m
  | .pure _, _, _, _, _ => trivial
  | .throw _, _, _, _, _ => trivial
  | .call _ _, _ + 1, _ + 1, hp, hle => fun r => Within.mono (hp r) (Nat.le_of_succ_le_succ hle)

theorem within_bind {f : α → Prog C R ε β} {m : ℕ} (hf : ∀ a, (f a).Within m) :
    ∀ {p : Prog C R ε α} {n : ℕ}, p.Within n → (p >>= f).Within (n + m)
  | .pure a, n, _ => (hf a).mono (Nat.le_add_left m n)
  | .throw _, _, _ => trivial
  | .call _ _, n + 1, hp => Nat.succ_add n m ▸ fun r => within_bind hf (hp r)

end Prog

/-! ### Loops -/

/-- A loop in the middle of its body, or after its end. -/
inductive Loop (S C : Type) (R : C → Type)
  | running (rest : Prog C R Empty (Option S))
  | returned

namespace Loop

variable {S C : Type} {R : C → Type}

/-- The loop at its head. -/
def start (body : S → Prog C R Empty (Option S)) (s : S) : Loop S C R := .running (body s)

/-- The next call with its response, or the way back to the head. -/
inductive Event (C : Type) (R : C → Type)
  | called (x : Σ c, R c)
  | back

variable [DecidableEq C]

/-- One event of a loop. -/
def step (body : S → Prog C R Empty (Option S)) : Loop S C R → Event C R → Option (Loop S C R × Unit)
  | .running (.call c k), .called ⟨c', r⟩ => if h : c' = c then some (.running (k (h ▸ r)), ()) else none
  | .running (.pure (some s)), .back => some (start body s, ())
  | .running (.pure none), .back => some (.returned, ())
  | _, _ => none

/-- The calls of a run, oldest first. -/
def calls (tr : List (Event C R × Unit)) : List (Σ c, R c) :=
  tr.filterMap fun
    | (.called x, _) => some x
    | (.back, _) => none

omit [DecidableEq C] in
theorem calls_snoc_called (tr : List (Event C R × Unit)) (x : Σ c, R c) :
    calls (tr ++ [(.called x, ())]) = calls tr ++ [x] := by simp [calls]

omit [DecidableEq C] in
theorem calls_snoc_back (tr : List (Event C R × Unit)) : calls (tr ++ [(.back, ())]) = calls tr := by simp [calls]

/-- **What an event of a loop is.** -/
theorem step_cases {body : S → Prog C R Empty (Option S)} {l l' : Loop S C R} {e : Event C R} {u : Unit}
    (h : step body l e = some (l', u)) :
    (∃ c k r, l = .running (.call c k) ∧ e = .called ⟨c, r⟩ ∧ l' = .running (k r)) ∨
    (∃ s, l = .running (.pure (some s)) ∧ e = .back ∧ l' = start body s) ∨
    (l = .running (.pure none) ∧ e = .back ∧ l' = .returned) := by
  unfold step at h
  split at h
  · next c k c' r =>
    split_ifs at h with hc
    subst hc
    exact Or.inl ⟨_, k, r, rfl, rfl, ((Prod.mk.inj (Option.some.inj h)).1).symm⟩
  · next s => exact Or.inr (Or.inl ⟨s, rfl, rfl, ((Prod.mk.inj (Option.some.inj h)).1).symm⟩)
  · exact Or.inr (Or.inr ⟨rfl, rfl, ((Prod.mk.inj (Option.some.inj h)).1).symm⟩)
  · simp at h

/-- A point of a run: the rest of the body obeys, and what it ends with keeps the invariant of the heads. -/
def Fits (ok : List (Σ c, R c) → (Σ c, R c) → Prop) (I : S → List (Σ c, R c) → Prop) (D : List (Σ c, R c) → Prop)
    (h : List (Σ c, R c)) : Loop S C R → Prop
  | .running p => p.Obeys ok (fun r h => match r with | some s => I s h | none => D h) h
  | .returned => D h

/-- **The rule of loops.**  `I` holds at the heads, and `D` when the loop has ended. -/
theorem obeys {body : S → Prog C R Empty (Option S)} {ok : List (Σ c, R c) → (Σ c, R c) → Prop}
    {I : S → List (Σ c, R c) → Prop} {D : List (Σ c, R c) → Prop} {s₀ : S} (h0 : I s₀ [])
    (hbody : ∀ s h, I s h → (body s).Obeys ok (fun r h => match r with | some s => I s h | none => D h) h)
    {tr : List (Event C R × Unit)} {l : Loop S C R} (hrun : Run (step body) (start body s₀) tr l) :
    (∀ A x B, calls tr = A ++ x :: B → ok A x) ∧ Fits ok I D (calls tr) l := by
  have hstart : Fits ok I D [] (start body s₀) := hbody s₀ [] h0
  refine hrun.rec_inv (I := fun tr l => (∀ A x B, calls tr = A ++ x :: B → ok A x) ∧ Fits ok I D (calls tr) l)
    ⟨by simp [calls], hstart⟩ ?_
  intro tr l e u l' _ ⟨hok, hfit⟩ hst
  rcases step_cases hst with ⟨c, k, r, rfl, rfl, rfl⟩ | ⟨s, rfl, rfl, rfl⟩ | ⟨rfl, rfl, rfl⟩
  · obtain ⟨hcall, hrest⟩ := hfit r
    rw [calls_snoc_called]
    refine ⟨fun A x B heq => ?_, hrest⟩
    -- the new call is the last one, and the others were there before
    rcases List.eq_nil_or_concat B with rfl | ⟨B, y, rfl⟩
    · obtain ⟨rfl, hx⟩ := List.append_inj' heq rfl
      obtain rfl := List.singleton_inj.mp hx
      exact hcall
    · rw [List.concat_eq_append, ← List.cons_append, ← List.append_assoc] at heq
      exact hok A x B (List.append_inj' heq rfl).1
  · rw [calls_snoc_back]
    exact ⟨hok, hbody s _ hfit⟩
  · rw [calls_snoc_back]
    exact ⟨hok, hfit⟩

/-! ### Loops that come to their end -/

section Bounded

variable {body : S → Prog C R Empty (Option S)} {ok : (Σ c, R c) → Prop}

/-- With responses that `ok` allows, the loop returns within `n` events. -/
def EndsIn (body : S → Prog C R Empty (Option S)) (ok : (Σ c, R c) → Prop) : ℕ → Prog C R Empty (Option S) → Prop
  | 0, _ => False
  | _ + 1, .pure none => True
  | n + 1, .pure (some s) => EndsIn body ok n (body s)
  | n + 1, .call c k => ∀ r, ok ⟨c, r⟩ → EndsIn body ok n (k r)
  | _ + 1, .throw e => e.elim

omit [DecidableEq C] in
theorem EndsIn.succ : ∀ {n : ℕ} {p : Prog C R Empty (Option S)}, EndsIn body ok n p → EndsIn body ok (n + 1) p
  | _ + 1, .pure none, _ => trivial
  | n + 1, .pure (some _), h => EndsIn.succ (n := n) h
  | n + 1, .call _ _, h => fun r hr => EndsIn.succ (n := n) (h r hr)

omit [DecidableEq C] in
/-- The rest of a body and then a head. -/
theorem endsIn_of_within {m : ℕ} (hbody : ∀ s, EndsIn body ok m (body s)) :
    ∀ {d : ℕ} {p : Prog C R Empty (Option S)}, p.Within d → EndsIn body ok (d + m + 1) p
  | _, .pure none, _ => trivial
  | 0, .pure (some s), _ => (Nat.zero_add m).symm ▸ hbody s
  | d + 1, .pure (some s), _ =>
    have h : EndsIn body ok (d + m + 1) (.pure (some s)) := endsIn_of_within hbody (d := d) trivial
    Nat.succ_add d m ▸ h.succ
  | d + 1, .call _ _, hp => fun r _ => Nat.succ_add d m ▸ endsIn_of_within hbody (d := d) (hp r)

/-- A run of events that `ok` allows is no longer than the bound. -/
theorem EndsIn.length_le : ∀ {n : ℕ} {p : Prog C R Empty (Option S)} {tr : List (Event C R × Unit)} {l : Loop S C R},
    EndsIn body ok n p → Run (step body) (.running p) tr l → (∀ x, (.called x, ()) ∈ tr → ok x) → tr.length ≤ n
  | _, _, [], _, _, _, _ => Nat.zero_le _
  | n + 1, p, (e, u) :: tr, l, h, hrun, hok => by
    obtain ⟨l₁, hst, hrest⟩ := hrun.cons_inv
    have hok' : ∀ x, (.called x, ()) ∈ tr → ok x := fun x hx => hok x (List.mem_cons_of_mem _ hx)
    rw [List.length_cons, Nat.add_le_add_iff_right]
    rcases step_cases hst with ⟨c, k, r, hl, rfl, rfl⟩ | ⟨s, hl, rfl, rfl⟩ | ⟨hl, rfl, rfl⟩
    · cases hl
      exact EndsIn.length_le (h r (hok _ List.mem_cons_self)) hrest hok'
    · cases hl
      exact EndsIn.length_le h hrest hok'
    · -- nothing comes after the end
      cases tr with
      | nil => exact Nat.zero_le _
      | cons e tr =>
        obtain ⟨l₂, hst₂, -⟩ := hrest.cons_inv
        cases hst₂

/-- In the middle of a body there are at most as many calls left as the body makes. -/
theorem within_run {d : ℕ} (hbody : ∀ s, (body s).Within d) {s₀ : S} {tr : List (Event C R × Unit)} {l : Loop S C R}
    (hrun : Run (step body) (start body s₀) tr l) : ∀ p, l = .running p → p.Within d := by
  refine hrun.inv (I := fun l => ∀ p, l = .running p → p.Within d) (fun p hp => ?_) fun l e u l' hI hst p hp => ?_
  · cases hp
    exact hbody s₀
  · rcases step_cases hst with ⟨c, k, r, rfl, rfl, rfl⟩ | ⟨s, rfl, rfl, rfl⟩ | ⟨rfl, rfl, rfl⟩
    · cases hp
      cases d with
      | zero => exact (hI _ rfl).elim
      | succ d => exact Prog.Within.mono (hI _ rfl r) (Nat.le_succ d)
    · cases hp
      exact hbody s
    · cases hp

end Bounded

/-! ### Loops with a server -/

section Served

variable {σ : Type} {body : S → Prog C R Empty (Option S)} {serves : σ → (Σ c, R c) → σ → Prop}

/-- One event of a loop whose calls are answered by a server. -/
inductive Serving (body : S → Prog C R Empty (Option S)) (serves : σ → (Σ c, R c) → σ → Prop) :
    Loop S C R × σ → Loop S C R × σ → Prop
  | called {c : C} {k : R c → Prog C R Empty (Option S)} {r : R c} {s s' : σ} :
      serves s ⟨c, r⟩ s' → Serving body serves (.running (.call c k), s) (.running (k r), s')
  | back {head : S} {s : σ} : Serving body serves (.running (.pure (some head)), s) (start body head, s)
  | ended {s : σ} : Serving body serves (.running (.pure none), s) (.returned, s)

/-- The program ends with `Q`, whatever the server answers. -/
def Serves (serves : σ → (Σ c, R c) → σ → Prop) {α : Type} (Q : α → σ → Prop) : Prog C R Empty α → σ → Prop
  | .pure a, s => Q a s
  | .throw _, _ => True
  | .call c k, s => ∀ r s', serves s ⟨c, r⟩ s' → Serves serves Q (k r) s'

omit [DecidableEq C] in
theorem serves_bind {α β : Type} {f : α → Prog C R Empty β} {Q : β → σ → Prop} :
    ∀ {p : Prog C R Empty α} {s : σ}, Serves serves (fun a s => Serves serves Q (f a) s) p s →
      Serves serves Q (p >>= f) s
  | .pure _, _, hp => hp
  | .throw _, _, _ => trivial
  | .call _ _, _, hp => fun r s' hs => serves_bind (hp r s' hs)

omit [DecidableEq C] in
theorem serves_mono {α : Type} {Q Q' : α → σ → Prop} (hQ : ∀ a s, Q a s → Q' a s) :
    ∀ {p : Prog C R Empty α} {s : σ}, Serves serves Q p s → Serves serves Q' p s
  | .pure a, s, hp => hQ a s hp
  | .throw _, _, _ => trivial
  | .call _ _, _, hp => fun r s' hs => serves_mono hQ (hp r s' hs)

omit [DecidableEq C] in
/-- **The rule of served loops**: `I` holds whenever a head is reached, and `D` when the loop has ended. -/
theorem Serving.heads {I : S → σ → Prop} {D : σ → Prop} {s₀ : S} {t₀ : σ} (h0 : I s₀ t₀)
    (hbody : ∀ s t, I s t → Serves serves (fun r t => match r with | some s => I s t | none => D t) (body s) t)
    {l : Loop S C R} {t : σ} (h : Relation.ReflTransGen (Serving body serves) (start body s₀, t₀) (l, t)) :
    (∀ s, l = .running (.pure (some s)) → I s t) ∧ (l = .returned → D t) := by
  have hpoint : ∀ p : Loop S C R × σ, Relation.ReflTransGen (Serving body serves) (start body s₀, t₀) p →
      match p.1 with
      | .running q => Serves serves (fun r t => match r with | some s => I s t | none => D t) q p.2
      | .returned => D p.2 := by
    intro p hp
    induction hp with
    | refl => exact hbody s₀ t₀ h0
    | tail _ hst ih =>
      cases hst with
      | called hs => exact ih _ _ hs
      | back => exact hbody _ _ ih
      | ended => exact ih
  have hend := hpoint _ h
  exact ⟨fun s hl => by subst hl; exact hend, fun hl => by subst hl; exact hend⟩

end Served

end Loop

end SimpleCache.Lib
