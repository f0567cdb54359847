import Mathlib.Logic.Basic

/-!
# Lib.Prog — programs that call a server, with interference

A `Prog` is what a client of a server does: it ends with a result or an error, or makes a call and goes on with the
response.  Other clients act between any two calls (`rely`), and the server answers a call in one of several ways
(`serves`), failures included.

`wp rely serves G Q p s` says of a program from the state `s`: every call it makes changes the state by a step in `G`,
and if it ends without an error then in a state with `Q`.  Nothing is asked of a program that ends with an error, or that
is cut off, beyond the steps it made.  The rules are consequence, sequencing, error handling, a call with a stable
assertion, and the frame rule; `Keeps` has the same rules for an assertion that holds before and after.  `Ends` follows
one complete execution, with whatever responses.
-/

namespace SimpleCache.Lib

/-- A program over calls `C` with responses `R`. -/
inductive Prog (C : Type) (R : C → Type) (ε α : Type)
  | pure (a : α)
  | throw (e : ε)
  | call (c : C) (k : R c → Prog C R ε α)

namespace Prog

variable {C : Type} {R : C → Type} {ε α β : Type}

/-- One call. -/
def request (c : C) : Prog C R ε (R c) := .call c .pure

def bind : Prog C R ε α → (α → Prog C R ε β) → Prog C R ε β
  | .pure a, f => f a
  | .throw e, _ => .throw e
  | .call c k, f => .call c fun r => (k r).bind f

/-- Goes on with `f` after an error. -/
def handle : Prog C R ε α → (ε → Prog C R ε α) → Prog C R ε α
  | .pure a, _ => .pure a
  | .throw e, f => f e
  | .call c k, f => .call c fun r => (k r).handle f

instance : Monad (Prog C R ε) where
  pure := .pure
  bind := Prog.bind

/-- A result that is already there. -/
def ofExcept : Except ε α → Prog C R ε α
  | .ok a => .pure a
  | .error e => .throw e

/-- The program makes these calls with these responses, and ends with this result. -/
inductive Ends : Prog C R ε α → List (Σ c, R c) → α → Prop
  | pure (a : α) : Ends (.pure a) [] a
  | call {c : C} {k : R c → Prog C R ε α} {r : R c} {calls : List (Σ c, R c)} {a : α} :
      Ends (k r) calls a → Ends (.call c k) (⟨c, r⟩ :: calls) a

theorem Ends.pure_inv {calls : List (Σ c, R c)} {a b : α} (h : Ends (.pure a : Prog C R ε α) calls b) :
    calls = [] ∧ b = a := by
  cases h
  exact ⟨rfl, rfl⟩

theorem Ends.request_inv {c : C} {f : R c → Prog C R ε α} {calls : List (Σ c, R c)} {a : α}
    (h : Ends (request c >>= f) calls a) : ∃ r rest, calls = ⟨c, r⟩ :: rest ∧ Ends (f r) rest a := by
  cases h with
  | call h => exact ⟨_, _, rfl, h⟩

/-- A program that cannot fail ends, however its calls are answered. -/
theorem exists_ends (answer : ∀ c, R c) : ∀ p : Prog C R Empty α,
    ∃ calls a, Ends p calls a ∧ ∀ x ∈ calls, x.2 = answer x.1
  | .pure a => ⟨[], a, .pure a, by simp⟩
  | .call c k => by
    obtain ⟨calls, a, h, hcalls⟩ := exists_ends answer (k (answer c))
    refine ⟨⟨c, answer c⟩ :: calls, a, .call h, fun x hx => ?_⟩
    rcases List.mem_cons.mp hx with rfl | hx
    · rfl
    · exact hcalls x hx

section

variable {σ : Type} (rely : σ → σ → Prop) (serves : σ → (c : C) → R c → σ → Prop)

/-- The weakest precondition of a program under interference. -/
def wp (G : σ → σ → Prop) (Q : α → σ → Prop) : Prog C R ε α → σ → Prop
  | .pure a, s => Q a s
  | .throw _, _ => True
  | .call c k, s => ∀ s₁, rely s s₁ → ∀ r s₂, serves s₁ c r s₂ → G s₁ s₂ ∧ wp G Q (k r) s₂

variable {rely serves} {G G' : σ → σ → Prop} {Q : α → σ → Prop} {s : σ}

theorem wp_mono {Q' : α → σ → Prop} (hQ : ∀ a s, Q a s → Q' a s) :
    ∀ {p : Prog C R ε α} {s : σ}, wp rely serves G Q p s → wp rely serves G Q' p s
  | .pure a, s, h => hQ a s h
  | .throw _, _, _ => trivial
  | .call _ _, _, h => fun s₁ hs r s₂ hr => ⟨(h s₁ hs r s₂ hr).1, wp_mono hQ (h s₁ hs r s₂ hr).2⟩

/-- Two facts about a program together. -/
theorem wp_and {Q' : α → σ → Prop} : ∀ {p : Prog C R ε α} {s : σ}, wp rely serves G Q p s → wp rely serves G' Q' p s →
    wp rely serves (fun s s' => G s s' ∧ G' s s') (fun a s => Q a s ∧ Q' a s) p s
  | .pure _, _, h, h' => ⟨h, h'⟩
  | .throw _, _, _, _ => trivial
  | .call _ _, _, h, h' => fun s₁ hs r s₂ hr =>
    ⟨⟨(h s₁ hs r s₂ hr).1, (h' s₁ hs r s₂ hr).1⟩, wp_and (h s₁ hs r s₂ hr).2 (h' s₁ hs r s₂ hr).2⟩

theorem wp_bind {f : α → Prog C R ε β} {Q : β → σ → Prop} :
    ∀ {p : Prog C R ε α} {s : σ}, wp rely serves G (fun a s => wp rely serves G Q (f a) s) p s →
      wp rely serves G Q (p >>= f) s
  | .pure _, _, h => h
  | .throw _, _, _ => trivial
  | .call _ _, _, h => fun s₁ hs r s₂ hr => ⟨(h s₁ hs r s₂ hr).1, wp_bind (h s₁ hs r s₂ hr).2⟩

/-- An error handler starts in a state of which only the steps before it are known. -/
theorem wp_handle {f : ε → Prog C R ε α} (hf : ∀ e s, wp rely serves G Q (f e) s) :
    ∀ {p : Prog C R ε α} {s : σ}, wp rely serves G Q p s → wp rely serves G Q (p.handle f) s
  | .pure _, _, h => h
  | .throw e, s, _ => hf e s
  | .call _ _, _, h => fun s₁ hs r s₂ hr => ⟨(h s₁ hs r s₂ hr).1, wp_handle hf (h s₁ hs r s₂ hr).2⟩

theorem wp_ofExcept {x : Except ε α} (h : ∀ a, x = .ok a → Q a s) : wp rely serves G Q (ofExcept x) s := by
  cases x with
  | ok a => exact h a rfl
  | error e => trivial

/-- A call under an assertion that the others keep. -/
theorem wp_request {c : C} {Q : R c → σ → Prop} {P : σ → Prop} (hstable : ∀ s s', P s → rely s s' → P s') (hP : P s)
    (h : ∀ s₁ r s₂, P s₁ → serves s₁ c r s₂ → G s₁ s₂ ∧ Q r s₂) :
    wp rely serves G Q (request c : Prog C R ε (R c)) s :=
  fun s₁ hs r s₂ hr => h s₁ r s₂ (hstable s s₁ hP hs) hr

/-- **The frame rule.**  An assertion that the others keep, and that the steps in `G` keep, holds at the end; and under it
the steps in `G` may be weakened to `G'`. -/
theorem wp_frame {J : σ → Prop} (hrely : ∀ s s', J s → rely s s' → J s')
    (hstep : ∀ s s', J s → G s s' → G' s s' ∧ J s') :
    ∀ {p : Prog C R ε α} {s : σ}, J s → wp rely serves G Q p s → wp rely serves G' (fun a s => Q a s ∧ J s) p s
  | .pure _, _, hJ, h => ⟨h, hJ⟩
  | .throw _, _, _, _ => trivial
  | .call _ _, s, hJ, h => fun s₁ hs r s₂ hr =>
    have hnext := hstep s₁ s₂ (hrely s s₁ hJ hs) (h s₁ hs r s₂ hr).1
    ⟨hnext.1, wp_frame hrely hstep hnext.2 (h s₁ hs r s₂ hr).2⟩

theorem wp_weaken (hG : ∀ s s', G s s' → G' s s') {p : Prog C R ε α} (h : wp rely serves G Q p s) :
    wp rely serves G' Q p s :=
  wp_mono (fun _ _ h => h.1) (wp_frame (J := fun _ => True) (fun _ _ _ _ => trivial)
    (fun s s' _ hs => ⟨hG s s' hs, trivial⟩) trivial h)

/-- Others that do less. -/
theorem wp_rely {rely' : σ → σ → Prop} (h : ∀ s s', rely' s s' → rely s s') :
    ∀ {p : Prog C R ε α} {s : σ}, wp rely serves G Q p s → wp rely' serves G Q p s
  | .pure _, _, hp => hp
  | .throw _, _, _ => trivial
  | .call _ _, s, hp => fun s₁ hs r s₂ hr =>
    have hnext := hp s₁ (h s s₁ hs) r s₂ hr
    ⟨hnext.1, wp_rely h hnext.2⟩

/-! ### Programs that keep an assertion -/

variable (rely serves) in
/-- From a state with `I` the program makes steps in `G` only, and where it ends `I` holds again, and `Q` of the
result. -/
def Keeps (G : σ → σ → Prop) (I : σ → Prop) (Q : α → Prop) (p : Prog C R ε α) : Prop :=
  ∀ s, I s → wp rely serves G (fun a s => I s ∧ Q a) p s

section Keeps

variable {I : σ → Prop} {Q : α → Prop}

theorem Keeps.pure {a : α} (h : Q a) : Keeps rely serves G I Q (.pure a : Prog C R ε α) := fun _ hs => ⟨hs, h⟩

theorem Keeps.throw {e : ε} : Keeps rely serves G I Q (.throw e : Prog C R ε α) := fun _ _ => trivial

theorem Keeps.bind {p : Prog C R ε α} {f : α → Prog C R ε β} {Q' : β → Prop} (hp : Keeps rely serves G I Q p)
    (hf : ∀ a, Q a → Keeps rely serves G I Q' (f a)) : Keeps rely serves G I Q' (p >>= f) :=
  fun s hs => wp_bind (wp_mono (fun a s' h => hf a h.2 s' h.1) (hp s hs))

/-- The handler starts in any state. -/
theorem Keeps.handle {p : Prog C R ε α} {f : ε → Prog C R ε α} (hp : Keeps rely serves G I Q p)
    (hf : ∀ e s, wp rely serves G (fun a s => I s ∧ Q a) (f e) s) : Keeps rely serves G I Q (p.handle f) :=
  fun s hs => wp_handle hf (hp s hs)

theorem Keeps.request {c : C} {Q : R c → Prop} (hstable : ∀ s s', I s → rely s s' → I s')
    (h : ∀ s r s', I s → serves s c r s' → G s s' ∧ I s' ∧ Q r) :
    Keeps rely serves G I Q (request c : Prog C R ε (R c)) :=
  fun _ hs => wp_request hstable hs fun s₁ r s₂ h₁ hr => h s₁ r s₂ h₁ hr

end Keeps

/-! ### A program while it runs -/

variable (rely serves) in
/-- What is known of a program that others have acted on since its last call. -/
def Runs (G : σ → σ → Prop) (Q : α → σ → Prop) (p : Prog C R ε α) (s : σ) : Prop :=
  ∃ s₀, rely s₀ s ∧ wp rely serves G Q p s₀

theorem Runs.interfere {p : Prog C R ε α} {s' : σ} (htrans : ∀ a b c, rely a b → rely b c → rely a c)
    (h : Runs rely serves G Q p s) (hs : rely s s') : Runs rely serves G Q p s' := by
  obtain ⟨s₀, h₀, hp⟩ := h
  exact ⟨s₀, htrans _ _ _ h₀ hs, hp⟩

/-- The next call of a running program. -/
theorem Runs.call {c : C} {k : R c → Prog C R ε α} {r : R c} {s' : σ} (h : Runs rely serves G Q (.call c k) s)
    (hs : serves s c r s') : G s s' ∧ wp rely serves G Q (k r) s' := by
  obtain ⟨s₀, h₀, hp⟩ := h
  exact hp s h₀ r s' hs

/-- A program with nothing asked of it. -/
theorem wp_true : ∀ (p : Prog C R ε α) (s : σ), wp rely serves (fun _ _ => True) (fun _ _ => True) p s
  | .pure _, _ => trivial
  | .throw _, _ => trivial
  | .call _ k, _ => fun _ _ r s₂ _ => ⟨trivial, wp_true (k r) s₂⟩

end

end Prog

end SimpleCache.Lib
