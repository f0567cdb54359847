import Mathlib.Data.List.Nodup
import Mathlib.Data.List.Perm.Subperm
import SimpleCache.Go.Int64

/-!
# Report.Performance — the check of the performance evidence (`validation/report/performance.go`)

`collectPerformance` reads the summary that a diagnostics run has saved and adds a failure to its stage for whatever is
wrong with it.  It never asks whether a trial is missing.  It counts the trials, refuses an ID that it has seen before,
and refuses one that it does not expect; over as many expected IDs as trials, nothing is missing then.
-/

namespace SimpleCache.Report

open Go (ascii formatInt int64)

/-! ### The evidence -/

/-- `diagnostics.Trial`, with the fields that the check reads. -/
structure Trial where
  id : GoString
  scenario : GoString
  repetition : ℤ
  profiled : Bool
  serverPID : ℤ
  clientPID : ℤ
  requests : ℤ
  errors : ℤ
  incorrect : ℤ
  failure : GoString
  deriving DecidableEq, Repr

/-- `diagnostics.Summary`, with the fields that the check reads. -/
structure Summary where
  status : GoString
  failure : GoString
  seconds : ℤ
  repeats : ℤ
  workers : ℤ
  thinkMS : ℤ
  sourceDelayMS : ℤ
  serverGOMAXPROCS : ℤ
  quick : Bool
  trials : List Trial
  serverSHA256 : GoString
  deriving DecidableEq, Repr

/-- `report.Stage`, with the fields that the check writes. -/
structure Stage where
  failures : List GoString
  passed : Option ℕ
  failed : Option ℕ
  skipped : Option ℕ
  pending : Option ℕ
  countSource : GoString
  deriving DecidableEq, Repr

/-- What `performance.json` gives: no file, a file that is not a summary, or a summary. -/
inductive Evidence
  | missing (err : GoString)
  | invalid (err : GoString)
  | decoded (summary : Summary)

/-! ### `collectPerformance` -/

def scenarios : List GoString := [ascii "warm-hot", ascii "distinct-keys", ascii "capacity-pressure"]

/-- The phase of a trial. -/
def phase (profiled : Bool) : GoString := if profiled then ascii "profile" else ascii "baseline"

/-- `fmt.Sprintf("%s-%s-%d", phase, scenario, repeat)`. -/
def identity (profiled : Bool) (scenario : GoString) (repetition : ℤ) : GoString :=
  phase profiled ++ 45 :: (scenario ++ 45 :: formatInt repetition)

/-- The trials of a run with `n` repeats: phase, scenario and repeat. -/
def wanted (n : ℕ) : List (Bool × GoString × ℤ) :=
  scenarios.flatMap fun scenario =>
    (List.range n).map (fun i : ℕ => (false, scenario, (i : ℤ) + 1)) ++ [(true, scenario, 1)]

/-- The keys of the map `expected`; the loop over the repeats stops at 5. -/
def expected (repeats : ℤ) : List GoString := (wanted (min repeats 5).toNat).map fun w => identity w.1 w.2.1 w.2.2

/-- The variables of the loop over the trials. -/
structure Tally where
  seen : List GoString
  passed : ℕ
  failed : ℕ
  failures : List GoString

/-- The condition under which the loop fails a trial. -/
def refuses (expected seen : List GoString) (trial : Trial) : Bool :=
  trial.serverPID ≤ 0 ∨ trial.clientPID ≤ 0 ∨ trial.serverPID = trial.clientPID ∨ trial.requests = 0 ∨
    trial.errors ≠ 0 ∨ trial.incorrect ≠ 0 ∨ trial.failure ≠ [] ∨ trial.id ∈ seen ∨ trial.id ∉ expected ∨
    identity trial.profiled trial.scenario trial.repetition ≠ trial.id

/-- One round of the loop over the trials. -/
def Tally.add (expected : List GoString) (t : Tally) (trial : Trial) : Tally :=
  if refuses expected t.seen trial then
    { seen := trial.id :: t.seen
      passed := t.passed
      failed := t.failed + 1
      failures := t.failures ++ [ascii "performance trial failed: " ++ trial.id ++ ascii " " ++ trial.failure] }
  else { t with seen := trial.id :: t.seen, passed := t.passed + 1 }

/-- The condition of the failure of an incomplete run. -/
def incomplete (s : Summary) : Bool :=
  s.status ≠ ascii "passed" ∨ s.failure ≠ [] ∨ (s.trials.length : ℤ) ≠ int64 (int64 (3 * s.repeats) + 3) ∨
    s.repeats < 1 ∨ (s.quick = false ∧ s.repeats < 3)

/-- The condition of the failure of the configuration. -/
def misconfigured (s : Summary) : Bool :=
  s.seconds < 1 ∨ 30 < s.seconds ∨ (s.quick = false ∧ s.seconds < 10) ∨ s.workers < 1 ∨ 32 < s.workers ∨
    5 < s.repeats ∨ s.sourceDelayMS ≠ 100 ∨ s.serverGOMAXPROCS ≠ 2 ∨ s.thinkMS ≠ 1 ∨ s.serverSHA256.length ≠ 64

/-- `collectPerformance`: the stage after the check, and the summary if there is one. -/
def collectPerformance (stage : Stage) : Evidence → Stage × Option Summary
  | .missing err => ({ stage with failures := stage.failures ++ [ascii "missing performance evidence: " ++ err] }, none)
  | .invalid err => ({ stage with failures := stage.failures ++ [ascii "invalid performance evidence: " ++ err] }, none)
  | .decoded s =>
    let t := s.trials.foldl (Tally.add (expected s.repeats)) ⟨[], 0, 0, stage.failures⟩
    let failures :=
      if incomplete s then t.failures ++ [ascii "incomplete or failed performance run: " ++ s.failure] else t.failures
    let failures :=
      if misconfigured s then failures ++ [ascii "invalid performance configuration metadata"] else failures
    ({ failures := failures
       passed := some t.passed
       failed := some t.failed
       skipped := some 0
       pending := some 0
       countSource := ascii "diagnostic-trials" }, some s)

/-! ### Identities -/

theorem phase_inj {p p' : Bool} (h : phase p = phase p') : p = p' := by
  revert p p'
  decide

theorem minus_notMem_phase (p : Bool) : (45 : UInt8) ∉ phase p := by
  revert p
  decide

theorem minus_notMem_formatUint (n : ℕ) : (45 : UInt8) ∉ Go.formatUint n :=
  fun h => absurd (Go.formatUint_isDigit h) (by decide)

/-- A scenario does not end in a separator. -/
theorem scenarios_last : ∀ scenario ∈ scenarios, scenario.getLast? ≠ some 45 := by decide

/-- **An identity is parsed uniquely**, however the phase, the scenario and the repeat of the trial were forged. -/
theorem identity_inj {p p' : Bool} {scenario scenario' : GoString} {n : ℤ} {n' : ℕ} (hs : scenario' ∈ scenarios)
    (h : identity p scenario n = identity p' scenario' n') : p = p' ∧ scenario = scenario' ∧ n = n' := by
  obtain ⟨hp, h⟩ := Go.append_sep_inj (minus_notMem_phase p) (minus_notMem_phase p') h
  refine ⟨phase_inj hp, ?_⟩
  have hn' := minus_notMem_formatUint n'
  cases n with
  | ofNat n =>
    obtain ⟨hscenario, hn⟩ := Go.append_sep_inj_right (minus_notMem_formatUint n) hn' h
    exact ⟨hscenario, congrArg Int.ofNat (Go.formatUint_injective hn)⟩
  | negSucc n =>
    -- the sign would be the separator, and the scenario would end in one
    have h' : (scenario ++ [45]) ++ 45 :: Go.formatUint (n + 1) = scenario' ++ 45 :: Go.formatUint n' := by
      rw [List.append_assoc]
      exact h
    obtain ⟨hscenario, -⟩ := Go.append_sep_inj_right (minus_notMem_formatUint (n + 1)) hn' h'
    exact absurd (hscenario ▸ List.getLast?_concat) (scenarios_last scenario' hs)

theorem mem_wanted {n : ℕ} {w : Bool × GoString × ℤ} (h : w ∈ wanted n) : w.2.1 ∈ scenarios ∧ 0 ≤ w.2.2 := by
  obtain ⟨scenario, hs, hw⟩ := List.mem_flatMap.mp h
  rcases List.mem_append.mp hw with hw | hw
  · obtain ⟨i, -, rfl⟩ := List.mem_map.mp hw
    exact ⟨hs, by simp only; omega⟩
  · rw [List.mem_singleton] at hw
    subst hw
    exact ⟨hs, Int.one_nonneg⟩

/-- A trial with a wanted identity is a wanted trial. -/
theorem mem_wanted_of_identity {n : ℕ} {p : Bool} {scenario : GoString} {k : ℤ}
    (h : identity p scenario k ∈ (wanted n).map fun w => identity w.1 w.2.1 w.2.2) : (p, scenario, k) ∈ wanted n := by
  obtain ⟨w, hw, heq⟩ := List.mem_map.mp h
  obtain ⟨hs, hk⟩ := mem_wanted hw
  obtain ⟨m, hm⟩ := Int.eq_ofNat_of_zero_le hk
  rw [hm] at heq
  obtain ⟨hp, hscenario, hk⟩ := identity_inj hs heq.symm
  have hw' : w = (p, scenario, k) := Prod.ext hp.symm (Prod.ext hscenario.symm (hm.trans hk.symm))
  exact hw' ▸ hw

theorem length_wanted (n : ℕ) : (wanted n).length = 3 * n + 3 := by
  simp only [wanted, scenarios, List.flatMap_cons, List.flatMap_nil, List.append_nil, List.length_append,
    List.length_map, List.length_range, List.length_singleton]
  omega

theorem nodup_wanted (n : ℕ) : (wanted n).Nodup := by
  refine List.nodup_flatMap.mpr ⟨fun scenario _ => ?_, ?_⟩
  · refine List.nodup_append.mpr ⟨List.nodup_range.map fun i j hij => ?_, List.nodup_singleton _, ?_⟩
    · simp only [Prod.mk.injEq, true_and] at hij
      omega
    · intro x hx y hy
      obtain ⟨i, -, rfl⟩ := List.mem_map.mp hx
      rw [List.mem_singleton] at hy
      subst hy
      simp
  · have hdistinct : scenarios.Pairwise (· ≠ ·) := by decide
    refine hdistinct.imp fun hne x hx hx' => ?_
    have hscenario : ∀ scenario, x ∈ (List.range n).map (fun i : ℕ => (false, scenario, (i : ℤ) + 1)) ++
        [(true, scenario, 1)] → x.2.1 = scenario := by
      intro scenario hx
      rcases List.mem_append.mp hx with hx | hx
      · obtain ⟨i, -, rfl⟩ := List.mem_map.mp hx
        rfl
      · rw [List.mem_singleton.mp hx]
    exact hne ((hscenario _ hx).symm.trans (hscenario _ hx'))

/-! ### The loop over the trials -/

/-- What is asked of a trial by itself; `enough` is said of its number of requests. -/
structure Sound (enough : ℤ → Prop) (t : Trial) : Prop where
  processes : 0 < t.serverPID ∧ 0 < t.clientPID ∧ t.serverPID ≠ t.clientPID
  requests : enough t.requests
  clean : t.errors = 0 ∧ t.incorrect = 0 ∧ t.failure = []
  named : t.id = identity t.profiled t.scenario t.repetition

theorem refuses_eq_false {expected seen : List GoString} {t : Trial} :
    refuses expected seen t = false ↔ Sound (· ≠ 0) t ∧ t.id ∈ expected ∧ t.id ∉ seen := by
  simp only [refuses, decide_eq_false_iff_not, not_or, not_le, not_not, ne_eq]
  constructor
  · rintro ⟨h1, h2, h3, h4, h5, h6, h7, h8, h9, h10⟩
    exact ⟨⟨⟨h1, h2, h3⟩, h4, ⟨h5, h6, h7⟩, h10.symm⟩, h9, h8⟩
  · rintro ⟨⟨⟨h1, h2, h3⟩, h4, ⟨h5, h6, h7⟩, h10⟩, h9, h8⟩
    exact ⟨h1, h2, h3, h4, h5, h6, h7, h8, h9, h10.symm⟩

section Loop

variable (expected : List GoString)

/-- Every trial is counted once. -/
theorem count_trials : ∀ (trials : List Trial) (t : Tally),
    (trials.foldl (Tally.add expected) t).passed + (trials.foldl (Tally.add expected) t).failed =
      t.passed + t.failed + trials.length
  | [], _ => rfl
  | trial :: trials, t => by
    have hround : (t.add expected trial).passed + (t.add expected trial).failed = t.passed + t.failed + 1 := by
      unfold Tally.add
      split_ifs
      · exact (Nat.add_assoc ..).symm
      · exact Nat.add_right_comm ..
    rw [List.foldl_cons, count_trials trials, hround, List.length_cons]
    omega

theorem failures_length_le : ∀ (trials : List Trial) (t : Tally),
    t.failures.length ≤ (trials.foldl (Tally.add expected) t).failures.length
  | [], _ => le_rfl
  | trial :: trials, t => by
    refine le_trans ?_ (failures_length_le trials (t.add expected trial))
    unfold Tally.add
    split_ifs
    · simp
    · exact le_rfl

/-- **The loop adds no failure** exactly when every trial is sound and expected, and no ID comes twice. -/
theorem failures_eq_iff : ∀ (trials : List Trial) (t : Tally),
    (trials.foldl (Tally.add expected) t).failures = t.failures ↔
      (∀ x ∈ trials, Sound (· ≠ 0) x ∧ x.id ∈ expected ∧ x.id ∉ t.seen) ∧ (trials.map Trial.id).Nodup
  | [], _ => by simp
  | trial :: trials, t => by
    rw [List.foldl_cons, List.forall_mem_cons, List.map_cons, List.nodup_cons]
    cases hbad : refuses expected t.seen trial with
    | true =>
      -- a failure that has been added stays
      have hgrown : (t.add expected trial).failures.length = t.failures.length + 1 := by
        rw [Tally.add, if_pos hbad, List.length_append, List.length_singleton]
      have hle := failures_length_le expected trials (t.add expected trial)
      constructor
      · intro heq
        rw [heq, hgrown] at hle
        omega
      · rintro ⟨⟨hgood, -⟩, -⟩
        rw [refuses_eq_false.mpr hgood] at hbad
        simp at hbad
    | false =>
      have hadd : t.add expected trial = { t with seen := trial.id :: t.seen, passed := t.passed + 1 } := by
        rw [Tally.add, hbad]
        rfl
      rw [hadd, failures_eq_iff trials]
      have hgood := refuses_eq_false.mp hbad
      constructor
      · rintro ⟨hall, hnodup⟩
        refine ⟨⟨hgood, fun x hx => ?_⟩, ⟨fun hmem => ?_, hnodup⟩⟩
        · obtain ⟨h1, h2, h3⟩ := hall x hx
          exact ⟨h1, h2, fun hseen => h3 (List.mem_cons_of_mem _ hseen)⟩
        · obtain ⟨x, hx, hid⟩ := List.mem_map.mp hmem
          exact (hall x hx).2.2 (hid ▸ List.mem_cons_self)
      · rintro ⟨⟨-, hall⟩, ⟨hnew, hnodup⟩⟩
        refine ⟨fun x hx => ?_, hnodup⟩
        obtain ⟨h1, h2, h3⟩ := hall x hx
        refine ⟨h1, h2, fun hseen => ?_⟩
        rcases List.mem_cons.mp hseen with hid | hseen
        · exact hnew (hid ▸ List.mem_map_of_mem hx)
        · exact h3 hseen

end Loop

/-! ### Complete evidence -/

/-- The phase, the scenario and the repeat of a trial. -/
def Trial.key (t : Trial) : Bool × GoString × ℤ := (t.profiled, t.scenario, t.repetition)

/-- Complete evidence: the run has passed, its configuration is in range, and its trials are, in some order, the baseline
trials of each scenario for the repeats 1 to `repeats` and one profile trial of each, all of them sound. -/
structure Complete (enough : ℤ → Prop) (s : Summary) : Prop where
  status : s.status = ascii "passed" ∧ s.failure = []
  seconds : 1 ≤ s.seconds ∧ s.seconds ≤ 30 ∧ (s.quick = false → 10 ≤ s.seconds)
  repeats : 1 ≤ s.repeats ∧ s.repeats ≤ 5 ∧ (s.quick = false → 3 ≤ s.repeats)
  workers : 1 ≤ s.workers ∧ s.workers ≤ 32
  fixed : s.sourceDelayMS = 100 ∧ s.serverGOMAXPROCS = 2 ∧ s.thinkMS = 1 ∧ s.serverSHA256.length = 64
  trials : (s.trials.map Trial.key).Perm (wanted s.repeats.toNat)
  sound : ∀ t ∈ s.trials, Sound enough t

section Pigeonhole

variable {trials : List Trial} {n : ℕ}

theorem ids_of_sound {enough : ℤ → Prop} (h : ∀ t ∈ trials, Sound enough t) :
    trials.map Trial.id = (trials.map Trial.key).map fun w => identity w.1 w.2.1 w.2.2 := by
  rw [List.map_map]
  exact List.map_congr_left fun t ht => (h t ht).named

/-- **Nothing is missing**: as many trials as there are wanted, no two with one ID, and none with an ID that is not
wanted. -/
theorem perm_wanted {enough : ℤ → Prop} (hsound : ∀ t ∈ trials, Sound enough t)
    (hmem : ∀ t ∈ trials, t.id ∈ (wanted n).map fun w => identity w.1 w.2.1 w.2.2)
    (hnodup : (trials.map Trial.id).Nodup) (hlen : trials.length = 3 * n + 3) :
    (trials.map Trial.key).Perm (wanted n) := by
  rw [ids_of_sound hsound] at hnodup
  have hsub : trials.map Trial.key ⊆ wanted n := by
    intro w hw
    obtain ⟨t, ht, rfl⟩ := List.mem_map.mp hw
    exact mem_wanted_of_identity ((hsound t ht).named ▸ hmem t ht)
  refine (List.subperm_of_subset hnodup.of_map hsub).perm_of_length_le ?_
  rw [List.length_map, hlen, length_wanted]

/-- The wanted trials have the wanted IDs, each once. -/
theorem ids_of_perm {enough : ℤ → Prop} (hsound : ∀ t ∈ trials, Sound enough t)
    (h : (trials.map Trial.key).Perm (wanted n)) :
    (∀ t ∈ trials, t.id ∈ (wanted n).map fun w => identity w.1 w.2.1 w.2.2) ∧ (trials.map Trial.id).Nodup ∧
      trials.length = 3 * n + 3 := by
  have hids := h.map fun w => identity w.1 w.2.1 w.2.2
  rw [← ids_of_sound hsound] at hids
  refine ⟨fun t ht => hids.subset (List.mem_map_of_mem ht), hids.nodup_iff.mpr ?_, ?_⟩
  · refine List.Nodup.map_on (fun w hw w' hw' heq => ?_) (nodup_wanted n)
    obtain ⟨hs, hk⟩ := mem_wanted hw'
    obtain ⟨m, hm⟩ := Int.eq_ofNat_of_zero_le hk
    rw [hm] at heq
    obtain ⟨h1, h2, h3⟩ := identity_inj hs heq
    exact Prod.ext h1 (Prod.ext h2 (h3.trans hm.symm))
  · rw [← length_wanted n, ← h.length_eq, List.length_map]

end Pigeonhole

theorem append_singleton_if {α : Type*} (c : Bool) (l : List α) (x : α) :
    (if c then l ++ [x] else l).length = l.length + if c then 1 else 0 := by
  cases c <;> simp

/-- The check adds no failure exactly when none of its three parts does. -/
theorem failures_collect_iff (stage : Stage) (s : Summary) :
    (collectPerformance stage (.decoded s)).1.failures = stage.failures ↔
      (s.trials.foldl (Tally.add (expected s.repeats)) ⟨[], 0, 0, stage.failures⟩).failures = stage.failures ∧
        incomplete s = false ∧ misconfigured s = false := by
  have hle : stage.failures.length ≤ _ :=
    failures_length_le (expected s.repeats) s.trials ⟨[], 0, 0, stage.failures⟩
  simp only [collectPerformance]
  constructor
  · intro heq
    have hlen := congrArg List.length heq
    rw [append_singleton_if, append_singleton_if] at hlen
    cases hi : incomplete s with
    | true =>
      rw [hi] at hlen
      simp only [if_true] at hlen
      omega
    | false =>
      cases hm : misconfigured s with
      | true =>
        rw [hm] at hlen
        simp only [if_true] at hlen
        omega
      | false =>
        rw [hi, hm] at heq
        exact ⟨heq, rfl, rfl⟩
  · rintro ⟨heq, hi, hm⟩
    rw [hi, hm]
    exact heq

/-- With between 1 and 5 repeats the loop over the repeats is not cut off, and the count of the trials does not wrap. -/
theorem repeats_in_range {s : Summary} (h1 : 1 ≤ s.repeats) (h5 : s.repeats ≤ 5) :
    min s.repeats 5 = s.repeats ∧ int64 (int64 (3 * s.repeats) + 3) = 3 * s.repeats + 3 := by
  have hmax : (18 : ℤ) ≤ Go.maxInt64 := by decide
  refine ⟨min_eq_left h5, ?_⟩
  rw [Go.int64_eq (x := 3 * s.repeats) (by omega) (by omega), Go.int64_eq (by omega) (by omega)]

/-- **What the check accepts**: complete evidence, where any number of requests but 0 is enough. -/
theorem accepted_iff (stage : Stage) (s : Summary) :
    (collectPerformance stage (.decoded s)).1.failures = stage.failures ↔ Complete (· ≠ 0) s := by
  rw [failures_collect_iff, failures_eq_iff]
  simp only [incomplete, misconfigured, decide_eq_false_iff_not, not_or, not_and, not_lt, not_not, ne_eq]
  constructor
  · rintro ⟨⟨hall, hnodup⟩, ⟨hstatus, hfailure, hlen, hr1, hr3⟩, hs1, hs30, hs10, hw1, hw32, hr5, hdelay, hprocs,
      hthink, hsha⟩
    have hsound : ∀ t ∈ s.trials, Sound (· ≠ 0) t := fun t ht => (hall t ht).1
    obtain ⟨hmin, hcount⟩ := repeats_in_range hr1 hr5
    have hmem := fun t ht => (hall t ht).2.1
    rw [expected, hmin] at hmem
    rw [hcount] at hlen
    exact ⟨⟨hstatus, hfailure⟩, ⟨hs1, hs30, hs10⟩, ⟨hr1, hr5, hr3⟩, ⟨hw1, hw32⟩, ⟨hdelay, hprocs, hthink, hsha⟩,
      perm_wanted hsound hmem hnodup (by omega), hsound⟩
  · rintro ⟨⟨hstatus, hfailure⟩, ⟨hs1, hs30, hs10⟩, ⟨hr1, hr5, hr3⟩, ⟨hw1, hw32⟩, ⟨hdelay, hprocs, hthink, hsha⟩,
      hperm, hsound⟩
    obtain ⟨hmin, hcount⟩ := repeats_in_range hr1 hr5
    obtain ⟨hmem, hnodup, hlen⟩ := ids_of_perm hsound hperm
    refine ⟨⟨fun t ht => ⟨hsound t ht, ?_, List.not_mem_nil⟩, hnodup⟩, ⟨hstatus, hfailure, ?_, hr1, hr3⟩, hs1, hs30, hs10,
      hw1, hw32, hr5, hdelay, hprocs, hthink, hsha⟩
    · rw [expected, hmin]
      exact hmem t ht
    · rw [hcount, hlen]
      omega

theorem Complete.mono {enough enough' : ℤ → Prop} {s : Summary} (h : Complete enough s)
    (himp : ∀ t ∈ s.trials, enough t.requests → enough' t.requests) : Complete enough' s :=
  { h with
    sound := fun t ht =>
      { h.sound t ht with requests := himp t ht (h.sound t ht).requests } }

/-- **Performance evidence passes only when complete**, but for negative counts.  The check adds no failure exactly for
complete evidence, with at least one request in each trial, and its counts sum to the number of trials; this holds of a
summary if and only if no trial of it has a negative number of requests, or something else is wrong with it. -/
theorem evidence_complete_iff (stage : Stage) (s : Summary) :
    (((collectPerformance stage (.decoded s)).1.failures = stage.failures ↔ Complete (1 ≤ ·) s) ∧
      ∃ passed failed, (collectPerformance stage (.decoded s)).1.passed = some passed ∧
        (collectPerformance stage (.decoded s)).1.failed = some failed ∧ passed + failed = s.trials.length) ↔
    (Complete (· ≠ 0) s → ∀ t ∈ s.trials, 0 ≤ t.requests) := by
  rw [accepted_iff]
  constructor
  · rintro ⟨hiff, -⟩ hcomplete t ht
    have hone := ((hiff.mp hcomplete).sound t ht).requests
    omega
  · intro hpos
    refine ⟨⟨fun h => ?_, fun h => h.mono fun t _ hone => ?_⟩, _, _, rfl, rfl, ?_⟩
    · refine h.mono fun t ht hne => ?_
      have h0 := hpos h t ht
      omega
    · omega
    · have hcount := count_trials (expected s.repeats) s.trials ⟨[], 0, 0, stage.failures⟩
      simpa using hcount

/-- A stage without failures. -/
def freshStage : Stage := ⟨[], none, none, none, none, []⟩

/-- The summary of a quick run with one repeat, each of whose trials has this number of requests. -/
def quickRun (requests : ℤ) : Summary where
  status := ascii "passed"
  failure := []
  seconds := 1
  repeats := 1
  workers := 8
  thinkMS := 1
  sourceDelayMS := 100
  serverGOMAXPROCS := 2
  quick := true
  trials := (wanted 1).map fun w => ⟨identity w.1 w.2.1 w.2.2, w.2.1, w.2.2, w.1, 2, 1, requests, 0, 0, []⟩
  serverSHA256 := List.replicate 64 97

theorem evidence_complete_iff_quick :
    (collectPerformance freshStage (.decoded (quickRun 10))).1.failures = [] ∧ Complete (1 ≤ ·) (quickRun 10) := by
  have haccepted : (collectPerformance freshStage (.decoded (quickRun 10))).1.failures = [] := by decide +kernel
  have hpos : ∀ t ∈ (quickRun 10).trials, 0 ≤ t.requests := by decide
  exact ⟨haccepted, ((evidence_complete_iff freshStage (quickRun 10)).mpr fun _ => hpos).1.mp haccepted⟩

/-- Trials with `-1` requests pass the check. -/
theorem evidence_negative_requests :
    ¬ ((collectPerformance freshStage (.decoded (quickRun (-1)))).1.failures = freshStage.failures ↔
      Complete (1 ≤ ·) (quickRun (-1))) := by
  intro hiff
  have hcomplete := hiff.mp (by decide +kernel)
  have hone := (hcomplete.sound _ List.mem_cons_self).requests
  exact absurd hone (by decide)

end SimpleCache.Report
