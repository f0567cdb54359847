import Mathlib.Algebra.BigOperators.Intervals
import SimpleCache.Cluster.Nodes
import SimpleCache.Outbox.Finish

/-!
# Cluster.Backoff — how often an event is tried

A relay claims with a lease of ten seconds and hands a failed event back with the delay of its attempt.  So between two
claims of one event, whichever workers make them and whether or not they learn of it, either the lease of the first has
ended or its retry delay has passed (`Spaced`).  Summed up over the attempts this bounds the number of tries in a span
of time (`attempts_spaced`): no crash, lost answer or race makes the relays hammer at an event.
-/

namespace SimpleCache.Postgres

open SimpleCache.Lib
open Outbox (Event leaseDuration retryDelay)

/-- The calls of a relay, with the lease and the delays that it passes. -/
def Call.Relays : Call → Prop
  | .claim _ lease _ => lease = leaseDuration
  | .finish _ event _ retry => retry = retryDelay event.attempt
  | _ => True

/-- The least time from attempt `k` to the next one. -/
def spacing (k : ℕ) : ℤ := interval (min leaseDuration (retryDelay k))

/-- The spacings before attempt `n`. -/
def waited (n : ℕ) : ℤ := ∑ k ∈ Finset.range n, spacing k

theorem waited_succ (n : ℕ) : waited (n + 1) = waited n + spacing n := Finset.sum_range_succ _ _

theorem spacing_le_lease (k : ℕ) : spacing k ≤ interval leaseDuration := interval_mono (min_le_left _ _)

theorem spacing_le_delay (k : ℕ) : spacing k ≤ interval (retryDelay k) := interval_mono (min_le_right _ _)

/-- From the fifth attempt on the lease is the shorter of the two. -/
theorem spacing_of_le {k : ℕ} (hk : 5 ≤ k) : spacing k = interval leaseDuration := by
  have h16 : leaseDuration ≤ retryDelay 5 := by decide
  rw [spacing, min_eq_left (h16.trans (Outbox.retryDelay_mono (by omega)))]

/-- The first four spacings are one, two, four and eight seconds. -/
theorem waited_add (n : ℕ) : waited (n + 5) = waited 1 + interval (15 * second) + n * interval leaseDuration := by
  induction n with
  | zero => decide
  | succ n ih =>
    rw [show n + 1 + 5 = n + 5 + 1 by omega, waited_succ, ih, spacing_of_le (by omega)]
    push_cast
    ring

/-- What a call of a relay does to a row: a claim opens the next attempt, a finish ends the current one. -/
inductive RelayRow (x : Exec) (r r' : OutboxRow) : Prop
  | same : r' = r → RelayRow x r r'
  | lease : eligible x.now r = true → r'.attempts = r.attempts + 1 →
      r'.leasedUntil = some (x.later + interval leaseDuration) → RelayRow x r r'
  | complete : r'.attempts = r.attempts →
      r'.deliveredAt ≠ none ∨ r'.availableAt = x.later + interval (retryDelay r.attempts) → RelayRow x r r'

/-- Every row after a call of a relay is the inserted one or comes from a row before it. -/
theorem relay_row {s s' : Store} {a : Call × Exec} {o : Answer} (hk : Keyed s.db) (hst : s.step a = some (s', o))
    (hrel : a.1.Relays) {r' : OutboxRow} (hr' : r' ∈ s'.db.outbox) :
    (∃ r ∈ s.db.outbox, r'.id = r.id ∧ RelayRow a.2 r r') ∨ r'.id = s.db.nextId := by
  obtain ⟨-, -, -, hE⟩ := Store.step_effect hk hst
  obtain ⟨c, x⟩ := a
  -- a call that neither claims nor finishes touches no row
  have hquiet : leaseOf ((c, x), o) = none → completionOf ((c, x), o) = none →
      (∃ r ∈ s.db.outbox, r'.id = r.id ∧ RelayRow x r r') ∨ r'.id = s.db.nextId := by
    intro hl hc
    rcases hE.row_back hk hr' with ⟨r, hr, hrs⟩ | ⟨-, -, key, v, rfl⟩
    · cases hrs with
      | same he _ _ => exact Or.inl ⟨r, hr, by rw [he], .same he⟩
      | lease d _ _ _ hl' _ _ => rw [hl] at hl'; simp at hl'
      | complete event delivered retry _ _ _ _ hc' _ => rw [hc] at hc'; simp at hc'
    · exact Or.inr rfl
  unfold Store.step at hst
  dsimp only at hst
  split_ifs at hst
  cases c with
  | claim w lease lost =>
    obtain rfl : lease = leaseDuration := hrel
    obtain ⟨rfl, rfl⟩ := Prod.mk.inj (Option.some.inj hst)
    rcases s.db.claim_spec leaseDuration x with ⟨h1, -⟩ | ⟨c, hc, he, -, -, -, h1⟩
    · simp only [h1] at hr'
      exact Or.inl ⟨r', hr', rfl, .same rfl⟩
    · simp only [h1] at hr'
      obtain ⟨r, hr, rfl⟩ := mem_mapOutbox.mp hr'
      refine Or.inl ⟨r, hr, by simp, ?_⟩
      by_cases hid : r.id = c.id
      · obtain rfl := hk.row_eq hr hc hid
        rw [OutboxRow.lease_of_eq rfl]
        exact .lease he rfl rfl
      · exact .same (OutboxRow.lease_of_ne hid)
  | finish w event delivered retry =>
    obtain rfl : retry = retryDelay event.attempt := hrel
    obtain ⟨rfl, rfl⟩ := Prod.mk.inj (Option.some.inj hst)
    rcases s.db.finish_spec event delivered (retryDelay event.attempt) x with ⟨h1, -⟩ | ⟨-, -, -, -, h1⟩
    · simp only [h1] at hr'
      exact Or.inl ⟨r', hr', rfl, .same rfl⟩
    · simp only [h1] at hr'
      obtain ⟨r, hr, rfl⟩ := mem_mapOutbox.mp hr'
      refine Or.inl ⟨r, hr, by simp, ?_⟩
      cases ha : accepts x.now event r with
      | false => exact .same (OutboxRow.complete_of_not ha)
      | true =>
        rw [OutboxRow.complete_of ha, ← (accepts_iff.mp ha).2.1]
        refine .complete rfl ?_
        cases delivered with
        | false => exact Or.inr rfl
        | true => exact Or.inl (by simp)
  | mutate m lost =>
    obtain ⟨-, rfl⟩ := Prod.mk.inj (Option.some.inj hst)
    exact hquiet rfl rfl
  | purge retention limit =>
    obtain ⟨-, rfl⟩ := Prod.mk.inj (Option.some.inj hst)
    exact hquiet rfl rfl
  | crash w =>
    obtain ⟨-, rfl⟩ := Prod.mk.inj (Option.some.inj hst)
    exact hquiet rfl rfl
  | advance =>
    obtain ⟨-, rfl⟩ := Prod.mk.inj (Option.some.inj hst)
    exact hquiet rfl rfl

/-- Attempt `k` of the row is not claimed before `base + waited k`: the current one has begun, and the next has to
wait. -/
structure RowSpaced (first base clock : ℤ) (r : OutboxRow) : Prop where
  pos : 0 ≤ first
  grown : first ≤ r.attempts
  begun : base + waited r.attempts.toNat ≤ clock
  waits : ∀ now, eligible now r = true → base + waited (r.attempts.toNat + 1) ≤ now

/-- The same of the event `id`, while it is in the outbox. -/
structure Spaced (id first base : ℤ) (s : Store) : Prop where
  keyed : Keyed s.db
  known : id < s.db.nextId
  rows : ∀ r ∈ s.db.outbox, r.id = id → RowSpaced first base s.clock r

theorem RowSpaced.step {first base clock clock' : ℤ} {x : Exec} {r r' : OutboxRow} (h : RowSpaced first base clock r)
    (hx : clock ≤ x.now ∧ x.now ≤ x.later ∧ clock' = x.later) (hst : RelayRow x r r') :
    RowSpaced first base clock' r' := by
  obtain ⟨h1, h2, h3⟩ := hx
  have hgrown := h.grown
  have hpos := h.pos
  have hbegun := h.begun
  cases hst with
  | same he =>
    subst he
    exact ⟨hpos, hgrown, by omega, h.waits⟩
  | lease he hatt hl =>
    have hnow := h.waits _ he
    have hnat : r'.attempts.toNat = r.attempts.toNat + 1 := by omega
    refine ⟨hpos, by omega, by rw [hnat]; omega, fun now he' => ?_⟩
    -- the next claim is after the end of the lease
    obtain ⟨-, -, hu | ⟨u, hu, hle⟩⟩ := eligible_iff.mp he'
    · rw [hl] at hu
      simp at hu
    · rw [hl, Option.some.injEq] at hu
      have hsp := spacing_le_lease r'.attempts.toNat
      rw [waited_succ, hnat]
      rw [hnat] at hsp
      omega
  | complete hatt hd =>
    refine ⟨hpos, by omega, by rw [hatt]; omega, fun now he' => ?_⟩
    obtain ⟨hnone, hav, -⟩ := eligible_iff.mp he'
    rcases hd with hd | hd
    · exact absurd hnone hd
    · -- or after the delay of the attempt
      have hsp := spacing_le_delay r.attempts.toNat
      rw [Int.toNat_of_nonneg (hpos.trans hgrown)] at hsp
      rw [waited_succ, hatt]
      omega

theorem Spaced.step {id first base : ℤ} {s s' : Store} {a : Call × Exec} {o : Answer} (hS : Spaced id first base s)
    (hst : s.step a = some (s', o)) (hrel : a.1.Relays) : Spaced id first base s' := by
  obtain ⟨h1, h2, h3, hE⟩ := Store.step_effect hS.keyed hst
  refine ⟨hE.keyed hS.keyed, hS.known.trans_le hE.nextId_le, fun r' hr' hid => ?_⟩
  rcases relay_row hS.keyed hst hrel hr' with ⟨r, hr, hrid, hrow⟩ | hnew
  · exact (hS.rows r hr (hrid.symm.trans hid)).step ⟨h1, h2, h3⟩ hrow
  · have := hS.known
    omega

theorem leaseOf_ends {e : StoreEvent} {l : Lease} (hrel : e.1.1.Relays) (hl : leaseOf e = some l) :
    l.ends = e.1.2.later + interval leaseDuration := by
  unfold leaseOf at hl
  split at hl
  · obtain rfl : _ = leaseDuration := hrel
    rw [← Option.some.inj hl]
  · simp at hl

/-- A claim starts the count for its event. -/
theorem spaced_of_claim {s s' : Store} {e : StoreEvent} {l : Lease} (hk : Keyed s.db)
    (hnonneg : ∀ r ∈ s.db.outbox, 0 ≤ r.attempts) (hst : s.step e.1 = some (s', e.2)) (hrel : e.1.1.Relays)
    (hl : leaseOf e = some l) : Spaced l.id l.attempt (e.1.2.later - waited l.attempt.toNat) s' := by
  obtain ⟨-, -, hclock, hE⟩ := Store.step_effect hk hst
  obtain ⟨c, hc, -, hid, hatt⟩ := hE.leaseOf_row hl
  have hpos := hnonneg c hc
  refine ⟨hE.keyed hk, hid ▸ (hk.lt_next c hc).trans_le hE.nextId_le, fun r' hr' hrid => ?_⟩
  rcases hE.row_back hk hr' with ⟨r, hr, hrs⟩ | ⟨-, -, key, v, rfl⟩
  · cases hrs with
    | same he hno _ => exact absurd (he ▸ hrid.symm) (hno l hl)
    | lease d _ _ _ hl' _ he =>
      have hends := leaseOf_ends hrel hl
      rw [hl, Option.some.injEq] at hl'
      subst hl' he
      refine ⟨by omega, le_rfl, by simp only; omega, fun now he' => ?_⟩
      obtain ⟨-, -, hu | ⟨u, hu, hle⟩⟩ := eligible_iff.mp he'
      · simp at hu
      · simp only [Option.some.injEq] at hu hends
        have hsp := spacing_le_lease (r.attempts + 1).toNat
        simp only [waited_succ]
        omega
    | complete event delivered retry _ _ _ hl' _ _ => rw [hl'] at hl; simp at hl
  · have := hk.lt_next c hc
    simp only at hrid
    omega

/-- **Two claims of one event.** -/
theorem claims_spaced {clock : ℤ} {tr₁ tr₂ tr₃ : List StoreEvent} {s : Store} {e e' : StoreEvent} {l l' : Lease}
    (h : Run Store.step (.init clock) (tr₁ ++ e :: tr₂ ++ e' :: tr₃) s)
    (hrel : ∀ x ∈ tr₁ ++ e :: tr₂ ++ e' :: tr₃, x.1.1.Relays) (hl : leaseOf e = some l) (hl' : leaseOf e' = some l')
    (hid : l.id = l'.id) : 0 < l.attempt ∧ l.attempt < l'.attempt ∧
      e.1.2.later + (waited l'.attempt.toNat - waited l.attempt.toNat) ≤ e'.1.2.now := by
  rw [List.append_assoc, List.cons_append] at h
  obtain ⟨s₁, s₂, h₁, hst, h₂⟩ := h.cut
  obtain ⟨s₃, s₄, h₃, hst', -⟩ := h₂.cut
  have hI := leaseInv_run h₁
  have hS := spaced_of_claim hI.keyed hI.nonneg hst (hrel e (by simp)) hl
  have hS₃ : Spaced l.id l.attempt (e.1.2.later - waited l.attempt.toNat) s₃ := by
    refine (h₃.rec_inv (I := fun tr s => tr ⊆ tr₂ → Spaced l.id l.attempt (e.1.2.later - waited l.attempt.toNat) s)
      (fun _ => hS) fun tr s a o s' _ ih hst hsub => ?_) (List.Subset.refl _)
    have hmem : (a, o) ∈ tr₂ := hsub (by simp)
    exact (ih fun x hx => hsub (List.mem_append_left _ hx)).step hst (hrel (a, o) (by simp [hmem]))
  obtain ⟨-, -, -, hE⟩ := Store.step_effect hI.keyed hst
  obtain ⟨-, -, -, hE'⟩ := Store.step_effect hS₃.keyed hst'
  obtain ⟨c₀, hc₀, -, -, hatt₀⟩ := hE.leaseOf_row hl
  obtain ⟨c, hc, he, hcid, hatt⟩ := hE'.leaseOf_row hl'
  have hrow := hS₃.rows c hc (hcid.symm.trans hid.symm)
  have hwait := hrow.waits e'.1.2.now he
  have hgrown := hrow.grown
  have hpos := hI.nonneg c₀ hc₀
  have hnat : l'.attempt.toNat = c.attempts.toNat + 1 := by omega
  refine ⟨by omega, by omega, ?_⟩
  rw [hnat]
  omega

end SimpleCache.Postgres

namespace SimpleCache.Cluster

open SimpleCache.Lib
open Outbox (leaseDuration retryDelay)
open Postgres (Store StoreEvent Lease leaseOf interval second)

namespace System

variable {ι : Type} [DecidableEq ι] {listener : GoString → Option ι}

/-- The tasks of the system are relays. -/
theorem stored_relays {s s' : System ι} {a : Action ι} {o : Output ι} (hst : s.step listener a = some (s', o))
    {e : StoreEvent} (he : e ∈ o.stored) : e.1.1.Relays := by
  cases o with
  | store e' commit =>
    obtain rfl := List.mem_singleton.mp he
    cases a with
    | store c x =>
      simp only [step] at hst
      split_ifs at hst with hc
      obtain ⟨r, -, hr⟩ := Option.map_eq_some_iff.mp hst
      obtain ⟨-, ho⟩ := Prod.mk.inj hr
      rw [← (Output.store.inj ho).1]
      cases c <;> trivial
    | write p x lost =>
      simp only [step] at hst
      split at hst
      · split at hst
        · simp at hst
        · obtain ⟨r, -, hr⟩ := Option.map_eq_some_iff.mp hst
          rw [← (Output.store.inj (Prod.mk.inj hr).2).1]
          trivial
      · simp at hst
    | claim p n x lost =>
      simp only [step] at hst
      split_ifs at hst
      obtain ⟨r, -, hr⟩ := Option.map_eq_some_iff.mp hst
      split at hr <;>
      · rw [← (Output.store.inj (Prod.mk.inj hr).2).1]
        rfl
    | finish p x =>
      simp only [step] at hst
      split at hst
      · obtain ⟨r, -, hr⟩ := Option.map_eq_some_iff.mp hst
        rw [← (Output.store.inj (Prod.mk.inj hr).2).1]
        rfl
      · simp at hst
    | invalidate p now now' =>
      exfalso
      simp only [step] at hst
      split at hst
      · obtain ⟨r, -, hr⟩ := Option.map_eq_some_iff.mp hst
        split at hr <;> simp at hr
      · simp at hst
    | _ =>
      -- the other actions show something else
      exfalso
      simp only [step, job] at hst
      repeat' split at hst
      all_goals simp [Option.map_eq_some_iff] at hst
  | _ => simp [Output.stored] at he

theorem relays_run {tr : List (SystemEvent ι)} {s₀ s : System ι} (h : Run (System.step listener) s₀ tr s) :
    ∀ e ∈ stored tr, e.1.1.Relays := by
  intro e he
  obtain ⟨⟨a, o⟩, hmem, ho⟩ := List.mem_flatMap.mp he
  obtain ⟨tr₁, tr₂, rfl⟩ := List.append_of_mem hmem
  obtain ⟨s₁, s₂, -, hst, -⟩ := h.cut
  exact stored_relays hst ho

/-- **Attempts are spaced.**  In every run, between two claims of one event, by whatever workers, with answers that
arrive or are lost, the attempt has grown, and for every attempt from the first claim to the second either the lease of
ten seconds or the retry delay of that attempt has passed.  In particular the tries of an event after its first follow
after 1, 2, 4 and 8 seconds at the least, and from the fifth on after ten seconds each. -/
theorem attempts_spaced {clock : ℤ} {groups : ι → Cache.Group} {selfID token : ι → GoString}
    {tr₁ tr₂ tr₃ : List (SystemEvent ι)} {s : System ι} {a a' : Action ι} {e e' : StoreEvent}
    {commit commit' : Option (GoString × ℤ)} {l l' : Lease}
    (h : Run (System.step listener) (init clock groups selfID token)
      (tr₁ ++ (a, .store e commit) :: tr₂ ++ (a', .store e' commit') :: tr₃) s)
    (hl : leaseOf e = some l) (hl' : leaseOf e' = some l') (hid : l.id = l'.id) :
    0 < l.attempt ∧ l.attempt < l'.attempt ∧
    e.1.2.later + ∑ k ∈ Finset.Ico l.attempt.toNat l'.attempt.toNat, interval (min leaseDuration (retryDelay k)) ≤
      e'.1.2.now ∧
    (l.attempt = 1 → 5 ≤ l'.attempt →
      e.1.2.later + interval (15 * second) + (l'.attempt - 5) * interval leaseDuration ≤ e'.1.2.now) := by
  have hrel := relays_run h
  have hrun := store_run h
  have hsplit : stored (tr₁ ++ (a, .store e commit) :: tr₂ ++ (a', .store e' commit') :: tr₃) =
      stored tr₁ ++ e :: stored tr₂ ++ e' :: stored tr₃ := by
    simp [stored, Output.stored]
  rw [hsplit] at hrel hrun
  obtain ⟨hpos, hlt, hle⟩ := Postgres.claims_spaced hrun hrel hl hl' hid
  refine ⟨hpos, hlt, ?_, fun h1 h5 => ?_⟩
  · rw [Finset.sum_Ico_eq_sub _ (by omega)]
    exact hle
  · obtain ⟨n, hn⟩ := Int.eq_ofNat_of_zero_le (show 0 ≤ l'.attempt - 5 by omega)
    have hnat : l'.attempt.toNat = n + 5 := by omega
    rw [hnat, h1, Postgres.waited_add] at hle
    rw [hn]
    have hone : Postgres.waited (Int.toNat 1) = Postgres.waited 1 := rfl
    omega

/-- The claims of an event by a worker that misses the answer, and by another one ten seconds later. -/
def lostClaim : StoreEvent :=
  ((.claim 0 leaseDuration true, Outbox.instant 0), .claimed (.ok (some ⟨1, [107], 1, 1⟩)))

def secondClaim : StoreEvent :=
  ((.claim 1 leaseDuration false, Outbox.instant 10000000), .claimed (.ok (some ⟨1, [107], 1, 2⟩)))

def reclaims : List (Action Unit) :=
  [.store (.mutate (.put [107] [118]) false) (Outbox.instant 0), .claim 0 () (Outbox.instant 0) true,
   .claim 1 () (Outbox.instant 10000000) false]

theorem reclaimed_run : ∃ s o, Run (System.step fun _ => none)
    (init 0 (fun _ => Cache.smallGroup) (fun _ => [97]) fun _ => [116])
    ([(.store (.mutate (.put [107] [118]) false) (Outbox.instant 0), o)] ++
      (.claim 0 () (Outbox.instant 0) true, .store lostClaim none) :: [] ++
      (.claim 1 () (Outbox.instant 10000000) false, .store secondClaim none) :: []) s := by
  have hrun := exec_run (System.step fun _ => none) reclaims
    (init 0 (fun _ => Cache.smallGroup) (fun _ => [97]) fun _ => [116]) _ [_, .store lostClaim none, .store secondClaim none]
    rfl
  exact ⟨_, _, hrun⟩

/-- The second claim comes when the lease of the first has ended. -/
theorem attempts_spaced_reclaimed : leaseOf lostClaim = some ⟨1, 1, 10000000⟩ ∧
    leaseOf secondClaim = some ⟨1, 2, 20000000⟩ ∧
    (0 : ℤ) + ∑ k ∈ Finset.Ico (1 : ℕ) 2, interval (min leaseDuration (retryDelay k)) ≤ 10000000 := by
  obtain ⟨s, o, hrun⟩ := reclaimed_run
  have hfirst : leaseOf lostClaim = some ⟨1, 1, 10000000⟩ := rfl
  have hsecond : leaseOf secondClaim = some ⟨1, 2, 20000000⟩ := rfl
  exact ⟨hfirst, hsecond, (attempts_spaced hrun hfirst hsecond rfl).2.2.1⟩

end System

end SimpleCache.Cluster
