import SimpleCache.Cache.Freshness

/-!
# Cache.Sharing — who shares a source flight

`Get` names a flight by the decimal epoch and minimum of its fence and the key, with a colon after each number.  The name
is parsed uniquely whatever bytes the key has, and a flight keeps the fence and the key it was started with; so the
callers that meet on one flight captured the same fence for the same key.
-/

namespace SimpleCache.Cache.Engine

open Lib (Run Happened happened_snoc not_happened_nil)

/-- The caller `c`, which captured `fence` for `key`, joins or starts the flight `f`. -/
inductive Joins (s : Engine) (c f : ℕ) (fence : ReadFence) (key : GoString) : Act → Prop
  | join {began captured s' o} : s.calls c = some ⟨key, began, .fenced fence captured⟩ →
      s.step (.join c) = some (s', o) → s'.calls c = some ⟨key, began, .waiting f⟩ → Joins s c f fence key (.join c)

/-- The caller `c`, which captured `fence` for `key`, has joined the flight `f`. -/
def Joined (g : Group) (c f : ℕ) (fence : ReadFence) (key : GoString) (tr : List Event) : Prop :=
  Happened step (init g) (fun s a => Joins s c f fence key a) tr

/-- A flight is running, or has run, under this fence and this key. -/
def Named (s : Engine) (f : ℕ) (fence : ReadFence) (key : GoString) : Prop :=
  ∃ fl, s.flights f = some fl ∧ fl.fence = fence ∧ fl.key = key

variable {g : Group} {s s' : Engine} {tr : List Event} {a : Act} {o : Ans} {c f : ℕ} {fence : ReadFence}
  {key : GoString}

theorem Named.unique {fence' : ReadFence} {key' : GoString} (h : Named s f fence key) (h' : Named s f fence' key') :
    fence = fence' ∧ key = key' := by
  obtain ⟨fl, hfl, rfl, rfl⟩ := h
  obtain ⟨fl', hfl', rfl, rfl⟩ := h'
  obtain rfl : fl = fl' := Option.some.inj (hfl.symm.trans hfl')
  exact ⟨rfl, rfl⟩

theorem Named.step (h : Named s f fence key) (hm : Moves s a o s') : Named s' f fence key := by
  obtain ⟨fl, hfl, rfl, rfl⟩ := h
  obtain ⟨fl', hfl', hk, hf⟩ := hm.persist f fl hfl
  exact ⟨fl', hfl', hf, hk⟩

/-- A caller joins a flight with its own fence and key only. -/
theorem Joins.named (h : Joins s c f fence key a) (hI : Inv s) (hst : s.step a = some (s', o)) :
    Named s' f fence key := by
  obtain ⟨hcall, hjoin, hwait⟩ := h
  rw [hjoin] at hst
  obtain ⟨rfl, rfl⟩ := Prod.mk.inj (Option.some.inj hst)
  rcases (moves hI.wf hI.fresh hjoin).calls c _ hwait with hsame | hnew
  · rw [hcall] at hsame
    simp at hsame
  · rw [hcall] at hnew
    cases hnew with
    | join hfl hk hf => exact ⟨_, hfl, hf, hk⟩

theorem named_of_joined (hI : Inv (init g)) (h : Run step (init g) tr s) (hj : Joined g c f fence key tr) :
    Named s f fence key := by
  revert hj
  refine h.rec_inv (I := fun tr s => Joined g c f fence key tr → Named s f fence key)
    (fun hj => absurd hj not_happened_nil) fun tr s a o s' hr ih hst hj => ?_
  have hs := inv_run hI hr
  rcases (happened_snoc hr).mp hj with hold | hnow
  · exact (ih hold).step (moves hs.wf hs.fresh hst)
  · exact hnow.named hs hst

/-- **`flightKey` is injective**, over all epochs, minimums and keys; and on every run the callers that joined one flight
captured the same fence for the same key. -/
theorem flights_keep_fences_apart {name : GoString} {capacity : ℤ} {versioned : Bool} {bloom : Option BloomFilter}
    {opts : Options} {g : Group} (h₀ : newGroup name capacity versioned bloom opts = some g) :
    (∀ (fence fence' : ReadFence) (key key' : GoString), flightKey fence key = flightKey fence' key' →
      fence = fence' ∧ key = key') ∧
    ∀ (tr : List Event) (s : Engine), Run step (init g) tr s →
      ∀ (c c' f : ℕ) (fence fence' : ReadFence) (key key' : GoString),
        Joined g c f fence key tr → Joined g c' f fence' key' tr → fence = fence' ∧ key = key' := by
  refine ⟨fun _ _ _ _ => flightKey_injective, fun tr s h c c' f fence fence' key key' hj hj' => ?_⟩
  have hI := inv_init h₀
  exact (named_of_joined hI h hj).unique (named_of_joined hI h hj')

/-- Two callers of one key, up to their fences. -/
def approaching : List Act :=
  [.get 0 [58], .lookup 0 none 0, .admitWaiter 0, .barrier 0 0, .get 1 [58], .lookup 1 none 0, .admitWaiter 1,
    .barrier 1 0]

/-- The second caller joins the flight that the first one starts. -/
theorem flights_keep_fences_apart_met : ∃ tr s fence fence', Run step (init smallGroup) tr s ∧
    Joined smallGroup 0 0 fence [58] tr ∧ Joined smallGroup 1 0 fence' [58] tr ∧ fence = fence' := by
  have h := Lib.exec_run step (approaching ++ [.join 0, .join 1]) (init smallGroup) _ _ rfl
  have h₁ := Lib.exec_run step approaching (init smallGroup) _ _ rfl
  have h₂ := Lib.exec_run step (approaching ++ [.join 0]) (init smallGroup) _ _ rfl
  have hj : Joined smallGroup 0 0 ⟨0, 0⟩ [58] _ :=
    ⟨_, _, .join 0, .quiet, [(.join 1, .quiet)], rfl, h₁, .join rfl rfl rfl⟩
  have hj' : Joined smallGroup 1 0 ⟨0, 0⟩ [58] _ := ⟨_, _, .join 1, .quiet, [], rfl, h₂, .join rfl rfl rfl⟩
  exact ⟨_, _, _, _, h, hj, hj', ((flights_keep_fences_apart smallGroup_eq).2 _ _ h 0 1 0 _ _ _ _ hj hj').1⟩

end SimpleCache.Cache.Engine
