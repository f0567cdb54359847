import SimpleCache.Postgres.Lease

/-!
# Postgres.Generation — source versions over whole histories

The version of a product row is a generation counter: every committed mutation advances it by exactly one
and emits exactly one event with the new value, and nothing ever resets it (rows are tombstoned, not
removed).  So an expected version matches at most once in the history of a key (`conditional_writes`), and
the events of a key are its generations in order (`one_event_per_generation`).
-/

namespace SimpleCache.Postgres

open SimpleCache.Cache
open Outbox (Event)
open SimpleCache.Lib

/-! ### Products across one step -/

theorem commit_generation (db : Db) (m : Mutation) (key : GoString) (v now : ℤ) :
    generation ((db.commit m.key (m.row v) now).products key) =
      if key = m.key then v else generation (db.products key) := by
  have hp : (db.commit m.key (m.row v) now).products = Function.update db.products m.key (some (m.row v)) := rfl
  rw [hp]
  by_cases hk : key = m.key
  · subst hk
    rw [if_pos rfl, Function.update_self]
    cases m <;> rfl
  · rw [if_neg hk, Function.update_of_ne hk]

/-- What the outbox says about the source: the key and the version of each event, in insertion order. -/
def Db.events (db : Db) : List (GoString × ℤ) := db.outbox.map fun r => (r.key, r.version)

theorem events_mapOutbox (db : Db) {f : OutboxRow → OutboxRow}
    (hf : ∀ r, (f r).key = r.key ∧ (f r).version = r.version) : (db.mapOutbox f).events = db.events := by
  unfold Db.events Db.mapOutbox
  rw [List.map_map]
  exact List.map_congr_left fun r _ => Prod.ext (hf r).1 (hf r).2

theorem lease_keeps (id ends : ℤ) (r : OutboxRow) :
    (OutboxRow.lease id ends r).key = r.key ∧ (OutboxRow.lease id ends r).version = r.version := by
  unfold OutboxRow.lease
  split_ifs <;> exact ⟨rfl, rfl⟩

theorem complete_keeps (event : Event) (delivered : Bool) (retry now later : ℤ) (r : OutboxRow) :
    (OutboxRow.complete event delivered retry now later r).key = r.key ∧
    (OutboxRow.complete event delivered retry now later r).version = r.version := by
  unfold OutboxRow.complete
  split_ifs <;> exact ⟨rfl, rfl⟩

def Call.isPurge : Call → Bool
  | .purge _ _ => true
  | _ => false

/-- A step commits one mutation, or leaves the products alone and returns no version; only a purge drops
events. -/
theorem Store.step_products {s s' : Store} {a : Call × Exec} {o : Answer} (h : s.step a = some (s', o)) :
    (∃ m lost, a.1 = .mutate m lost ∧ s.db.Commits m a.2 ∧
      s'.db = s.db.commit m.key (m.row (generation (s.db.products m.key) + 1)) a.2.now ∧
      o = .mutated (if lost then .error (writeError a.2)
        else .ok (m.expected.map fun _ => generation (s.db.products m.key) + 1))) ∨
    (s'.db.products = s.db.products ∧ (∀ v, o ≠ .mutated (.ok (some v))) ∧
      (a.1.isPurge = false → s'.db.events = s.db.events)) := by
  obtain ⟨c, x⟩ := a
  unfold step at h
  dsimp only at h
  split_ifs at h
  cases c with
  | mutate m lost =>
    simp only [Option.some.injEq, Prod.mk.injEq] at h
    obtain ⟨rfl, rfl⟩ := h
    by_cases hc : s.db.Commits m x
    · obtain ⟨h1, h2⟩ := Db.mutate_commits hc lost
      exact Or.inl ⟨m, lost, rfl, hc, h1, by rw [h2]⟩
    · obtain ⟨h1, h3, -, h2⟩ := Db.mutate_not_commits hc lost
      refine Or.inr ⟨h1, fun v hv => ?_, fun _ => by unfold Db.events; rw [h3]⟩
      rw [Answer.mutated.injEq] at hv
      rcases h2 with ⟨e, he⟩ | ⟨he, -⟩
      · rw [he] at hv; simp at hv
      · rw [he] at hv; simp at hv
  | claim w lease lost =>
    simp only [Option.some.injEq, Prod.mk.injEq] at h
    obtain ⟨rfl, rfl⟩ := h
    rcases s.db.claim_spec lease x with ⟨h1, -⟩ | ⟨c, -, -, -, -, -, h1⟩
    · exact Or.inr ⟨by rw [h1], by simp, fun _ => by rw [h1]⟩
    · exact Or.inr ⟨by rw [h1]; rfl, by simp, fun _ => by
        rw [h1]; exact events_mapOutbox _ (lease_keeps _ _)⟩
  | finish w event delivered retry =>
    simp only [Option.some.injEq, Prod.mk.injEq] at h
    obtain ⟨rfl, rfl⟩ := h
    rcases s.db.finish_spec event delivered retry x with ⟨h1, -⟩ | ⟨-, -, -, -, h1⟩
    · exact Or.inr ⟨by rw [h1], by simp, fun _ => by rw [h1]⟩
    · exact Or.inr ⟨by rw [h1]; rfl, by simp, fun _ => by
        rw [h1]; exact events_mapOutbox _ (complete_keeps _ _ _ _ _)⟩
  | purge retention limit =>
    simp only [Option.some.injEq, Prod.mk.injEq] at h
    obtain ⟨rfl, rfl⟩ := h
    exact Or.inr ⟨(s.db.purge_spec retention limit x).1, by simp, by simp [Call.isPurge]⟩
  | crash w =>
    simp only [Option.some.injEq, Prod.mk.injEq] at h
    obtain ⟨rfl, rfl⟩ := h
    exact Or.inr ⟨rfl, by simp, fun _ => rfl⟩
  | advance =>
    simp only [Option.some.injEq, Prod.mk.injEq] at h
    obtain ⟨rfl, rfl⟩ := h
    exact Or.inr ⟨rfl, by simp, fun _ => rfl⟩

/-- A call that returns a version has committed it. -/
theorem Store.step_version {s s' : Store} {m : Mutation} {lost : Bool} {x : Exec} {v : ℤ}
    (h : s.step (.mutate m lost, x) = some (s', .mutated (.ok (some v)))) :
    s.db.Commits m x ∧ generation (s.db.products m.key) + 1 = v ∧ s'.db.products m.key = some (m.row v) := by
  rcases Store.step_products h with ⟨m', lost', hm, hc, hdb, ho⟩ | ⟨-, hno, -⟩
  · obtain ⟨rfl, rfl⟩ := Call.mutate.inj hm
    have hgen : generation (s.db.products m.key) + 1 = v := by
      cases lost with
      | true => simp at ho
      | false =>
        cases he : m.expected with
        | none => rw [he] at ho; simp at ho
        | some e => rw [he] at ho; simpa using ho.symm
    refine ⟨hc, hgen, ?_⟩
    rw [hdb, hgen]
    exact Function.update_self _ _ _
  · exact absurd rfl (hno v)

/-- A row changes only together with its generation. -/
theorem Store.step_row {s s' : Store} {a : Call × Exec} {o : Answer} (h : s.step a = some (s', o)) (key : GoString) :
    s'.db.products key = s.db.products key ∨ generation (s.db.products key) < generation (s'.db.products key) := by
  rcases Store.step_products h with ⟨m, _, -, -, h1, -⟩ | ⟨h1, -, -⟩
  · by_cases hk : key = m.key
    · right
      rw [h1, commit_generation, if_pos hk, hk]
      omega
    · left
      rw [h1]
      exact Function.update_of_ne hk _ _
  · exact Or.inl (congrFun h1 key)

/-- Generations never go back. -/
theorem generation_le_step {s s' : Store} {a : Call × Exec} {o : Answer} (h : s.step a = some (s', o))
    (key : GoString) : generation (s.db.products key) ≤ generation (s'.db.products key) :=
  (Store.step_row h key).elim (fun he => by rw [he]) le_of_lt

theorem generation_le_run {s s' : Store} {tr : List StoreEvent} (h : Run Store.step s tr s')
    (key : GoString) : generation (s.db.products key) ≤ generation (s'.db.products key) :=
  h.rel (R := fun s s' => generation (s.db.products key) ≤ generation (s'.db.products key))
    (fun _ => le_rfl) (fun _ _ _ => le_trans) (fun _ _ _ _ hst => generation_le_step hst key)

/-- Rows are tombstoned, never removed. -/
theorem rows_stay_run {s s' : Store} {tr : List StoreEvent} (h : Run Store.step s tr s') (key : GoString) :
    s.db.products key ≠ none → s'.db.products key ≠ none := by
  refine h.rel (R := fun s s' : Store => s.db.products key ≠ none → s'.db.products key ≠ none)
    (fun _ => id) (fun _ _ _ h1 h2 h3 => h2 (h1 h3)) (fun s a o s' hst hne => ?_)
  rcases Store.step_products hst with ⟨m, _, -, -, h1, -⟩ | ⟨h1, -, -⟩
  · rw [h1]
    show Function.update s.db.products m.key _ key ≠ none
    by_cases hk : key = m.key
    · rw [hk, Function.update_self]; simp
    · rwa [Function.update_of_ne hk]
  · rwa [h1]

/-! ### Conditional writes -/

/-- The event is a conditional call on `key` with expected version `e` that returned a version. -/
def succeeded (key : GoString) (e : ℤ) : StoreEvent → Bool
  | ((.mutate m _, _), .mutated (.ok (some _))) => decide (m.key = key ∧ m.expected = some e)
  | _ => false

theorem live_generation {row : Option Product} {e : ℤ} (h : Live row e) : generation row = e := by
  obtain ⟨p, rfl, -, rfl⟩ := h
  rfl

/-- A conditional call is accepted exactly at the generation it expects. -/
theorem accepts_generation {m : Mutation} {row : Option Product} {e : ℤ} (h : m.Accepts row)
    (he : m.expected = some e) (h0 : 0 < e) : generation row = e := by
  cases m with
  | put key value => simp [Mutation.expected] at he
  | putIfVersion key value e' =>
    simp only [Mutation.expected, Option.some.injEq] at he
    subst he
    simp only [Mutation.Accepts, if_neg (ne_of_gt h0)] at h
    exact live_generation h
  | delete key => simp [Mutation.expected] at he
  | deleteIfVersion key e' =>
    simp only [Mutation.expected, Option.some.injEq] at he
    subst he
    exact live_generation h

/-- After a success with expected version `e` the generation is beyond `e`, so there is no second one. -/
theorem succeeded_run {s₀ s : Store} {tr : List StoreEvent} (h : Run Store.step s₀ tr s) (key : GoString)
    {e : ℤ} (h0 : 0 < e) :
    (∀ ev ∈ tr, succeeded key e ev = true → e < generation (s.db.products key)) ∧
    (tr.filter (succeeded key e)).length ≤ 1 := by
  refine h.rec_inv (I := fun tr s =>
    (∀ ev ∈ tr, succeeded key e ev = true → e < generation (s.db.products key)) ∧
    (tr.filter (succeeded key e)).length ≤ 1) ⟨by simp, by simp⟩ ?_
  intro tr s a o s' _ ⟨hI, hlen⟩ hst
  have hmono := generation_le_step hst key
  cases hsuc : succeeded key e (a, o) with
  | false =>
    refine ⟨fun ev hev hs => ?_, by simpa [List.filter_append, hsuc] using hlen⟩
    rcases List.mem_append.mp hev with hev | hev
    · exact lt_of_lt_of_le (hI ev hev hs) hmono
    · rw [List.mem_singleton.mp hev, hsuc] at hs; simp at hs
  | true =>
    rcases Store.step_products hst with ⟨m, lost, ha, hc, h1, ho⟩ | ⟨-, ho, -⟩
    · obtain ⟨c, x⟩ := a
      simp only at ha
      subst ha
      subst ho
      have hm : m.key = key ∧ m.expected = some e := by
        cases lost with
        | true => simp [succeeded] at hsuc
        | false =>
          cases hm : m.expected with
          | none => rw [hm] at hsuc; simp [succeeded] at hsuc
          | some e' => rw [hm] at hsuc; simpa [succeeded, hm] using hsuc
      have hgen : generation (s.db.products key) = e := by
        rw [← hm.1]; exact accepts_generation hc.2.2.1 hm.2 h0
      have hgen' : generation (s'.db.products key) = e + 1 := by
        rw [h1, commit_generation, if_pos hm.1.symm, hm.1, hgen]
      refine ⟨fun _ _ _ => by omega, ?_⟩
      -- an earlier success would have moved the generation beyond `e`
      have hnone : tr.filter (succeeded key e) = [] := by
        rw [List.filter_eq_nil_iff]
        intro ev hev hs
        have := hI ev hev hs
        omega
      simp [List.filter_append, hnone, hsuc]
    · exfalso
      obtain ⟨c, x⟩ := a
      cases c <;> cases o <;> simp [succeeded] at hsuc
      next m lost r =>
        rcases r with err | _ | v
        · simp at hsuc
        · simp at hsuc
        · exact ho v rfl

/-- A call with an expected version returns a version exactly when it commits and is answered. -/
theorem mutate_ok_iff (db : Db) {m : Mutation} (x : Exec) (lost : Bool) {e : ℤ} (he : m.expected = some e) :
    ((∃ v, (db.mutate m x lost).1 = .ok v) ↔ lost = false ∧ db.Commits m x) ∧
    ∀ v, (db.mutate m x lost).1 = .ok v → v = some (generation (db.products m.key) + 1) := by
  by_cases hc : db.Commits m x
  · obtain ⟨-, h1⟩ := Db.mutate_commits hc lost
    rw [he] at h1
    cases lost with
    | true => simp [h1]
    | false =>
      refine ⟨iff_of_true ⟨_, h1⟩ ⟨rfl, hc⟩, fun v hv => ?_⟩
      rw [h1] at hv
      simpa using hv.symm
  · obtain ⟨-, -, -, h1⟩ := Db.mutate_not_commits hc lost
    have hno : ∀ v, (db.mutate m x lost).1 ≠ .ok v := by
      intro v hv
      rcases h1 with ⟨err, h1⟩ | ⟨-, key, rfl, -⟩
      · rw [h1] at hv; simp at hv
      · simp [Mutation.expected] at he
    exact ⟨iff_of_false (fun hex => hex.elim hno) fun hl => hc hl.2, fun v hv => absurd hv (hno v)⟩

/-- A mutation changes a row only to the next generation of its own key. -/
theorem mutate_generation (db : Db) (m : Mutation) (x : Exec) (lost : Bool) (key : GoString) :
    (db.mutate m x lost).2.products key = db.products key ∨
    key = m.key ∧ generation ((db.mutate m x lost).2.products key) = generation (db.products key) + 1 := by
  by_cases hc : db.Commits m x
  · obtain ⟨h1, -⟩ := Db.mutate_commits hc lost
    by_cases hk : key = m.key
    · exact Or.inr ⟨hk, by rw [h1, commit_generation, if_pos hk, hk]⟩
    · left
      rw [h1]
      exact Function.update_of_ne hk _ _
  · exact Or.inl (congrFun (Db.mutate_not_commits hc lost).1 key)

/-- A call that returns an error changes neither table, unless the answer of a statement that commits is lost: then
the tables are as after the call that returns the version. -/
theorem mutate_error {db : Db} {m : Mutation} {x : Exec} {lost : Bool} {err : Err}
    (h : (db.mutate m x lost).1 = .error err) :
    ((db.mutate m x lost).2.products = db.products ∧ (db.mutate m x lost).2.outbox = db.outbox) ∨
    (lost = true ∧ db.Commits m x ∧ err = writeError x ∧ (db.mutate m x lost).2 = (db.mutate m x false).2) := by
  by_cases hc : db.Commits m x
  · obtain ⟨h1, h2⟩ := Db.mutate_commits hc lost
    rw [h2] at h
    cases lost with
    | false => simp at h
    | true => exact Or.inr ⟨rfl, hc, (Except.error.inj h).symm, h1.trans (Db.mutate_commits hc false).1.symm⟩
  · obtain ⟨h1, h2, -⟩ := Db.mutate_not_commits hc lost
    exact Or.inl ⟨h1, h2⟩

/-- **No lost update and no ABA.**  In every history a call with expected version `e > 0` succeeds exactly when
its answer arrives, its arguments pass the guards, the statement does not fail in the database, the row is live with
version `e` and `e + 1` is a `bigint`; with expected version 0 it takes the place of a live row that there is none.
Versions advance by one with every change and rows never vanish, so no expected version is matched twice.  A call that
fails leaves the rows alone, unless it was carried out and its answer was lost. -/
theorem conditional_writes {s₀ s : Store} {tr : List StoreEvent} (h : Run Store.step s₀ tr s) :
    (∀ m e x lost, m.expected = some e → 0 < e →
      ((∃ v, (s.db.mutate m x lost).1 = .ok v) ↔
        lost = false ∧ m.Guarded ∧ x.fault = none ∧ Live (s.db.products m.key) e ∧ e < Go.maxInt64) ∧
      ∀ v, (s.db.mutate m x lost).1 = .ok v → v = some (e + 1)) ∧
    (∀ key value x lost,
      ((∃ v, (s.db.mutate (.putIfVersion key value 0) x lost).1 = .ok v) ↔
        lost = false ∧ (Mutation.putIfVersion key value 0).Guarded ∧ x.fault = none ∧
          Absent (s.db.products key) ∧ generation (s.db.products key) < Go.maxInt64) ∧
      ∀ v, (s.db.mutate (.putIfVersion key value 0) x lost).1 = .ok v →
        v = some (generation (s.db.products key) + 1)) ∧
    (∀ m x lost key, (s.db.mutate m x lost).2.products key ≠ s.db.products key →
      key = m.key ∧ generation ((s.db.mutate m x lost).2.products key) = generation (s.db.products key) + 1) ∧
    (∀ key, generation (s₀.db.products key) ≤ generation (s.db.products key) ∧
      (s₀.db.products key ≠ none → s.db.products key ≠ none)) ∧
    (∀ key e, 0 < e → (tr.filter (succeeded key e)).length ≤ 1) ∧
    (∀ m x lost err, (s.db.mutate m x lost).1 = .error err →
      (s.db.mutate m x lost).2.products = s.db.products ∨
      (lost = true ∧ s.db.Commits m x ∧ err = writeError x ∧
        (s.db.mutate m x lost).2 = (s.db.mutate m x false).2)) := by
  refine ⟨fun m e x lost he h0 => ?_, fun key value x lost => ?_, fun m x lost key hne => ?_, fun key => ?_,
    fun key e h0 => (succeeded_run h key h0).2, fun m x lost err herr => (mutate_error herr).imp_left And.left⟩
  · obtain ⟨h1, h2⟩ := mutate_ok_iff s.db x lost he
    have hlive : m.Accepts (s.db.products m.key) ↔ Live (s.db.products m.key) e := by
      cases m with
      | put key value => simp [Mutation.expected] at he
      | delete key => simp [Mutation.expected] at he
      | putIfVersion key value e' =>
        simp only [Mutation.expected, Option.some.injEq] at he
        subst he
        simp only [Mutation.Accepts, if_neg (ne_of_gt h0)]
      | deleteIfVersion key e' =>
        simp only [Mutation.expected, Option.some.injEq] at he
        subst he
        exact Iff.rfl
    have hc : s.db.Commits m x ↔
        m.Guarded ∧ x.fault = none ∧ Live (s.db.products m.key) e ∧ e < Go.maxInt64 := by
      unfold Db.Commits
      rw [hlive]
      refine and_congr_right fun _ => and_congr_right fun _ => and_congr_right fun hl => ?_
      rw [live_generation hl]
    refine ⟨h1.trans (and_congr_right fun _ => hc), fun v hv => ?_⟩
    have hl := (hc.mp (h1.mp ⟨v, hv⟩).2).2.2.1
    rw [h2 v hv, live_generation hl]
  · obtain ⟨h1, h2⟩ := mutate_ok_iff s.db (m := .putIfVersion key value 0) x lost rfl
    refine ⟨h1.trans (and_congr_right fun _ => ?_), h2⟩
    simp only [Db.Commits, Mutation.Accepts, if_true, Mutation.key]
  · rcases mutate_generation s.db m x lost key with h1 | h1
    · exact absurd h1 hne
    · exact h1
  · exact ⟨generation_le_run h key, rows_stay_run h key⟩

/-- A key is created, deleted and created again, each time on the version the client has seen. -/
def recreated : List (Call × Exec) :=
  [(.mutate (.putIfVersion [107] [97] 0) false, ⟨0, 0, none, none, []⟩),
   (.mutate (.deleteIfVersion [107] 1) false, ⟨0, 0, none, none, []⟩),
   (.mutate (.putIfVersion [107] [98] 0) false, ⟨0, 0, none, none, []⟩),
   (.mutate (.deleteIfVersion [107] 1) false, ⟨0, 0, none, none, []⟩)]

/-- The recreated row has version 3, and the old version 1 is not matched again. -/
theorem conditional_writes_recreated :
    ∃ tr s, Run Store.step (.init 0) tr s ∧ Live (s.db.products [107]) 3 ∧
      (tr.filter (succeeded [107] 1)).length = 1 ∧
      ∀ x lost v, (s.db.mutate (.deleteIfVersion [107] 1) x lost).1 ≠ .ok v := by
  have hrun := exec_run Store.step recreated (.init 0) _ _ rfl
  refine ⟨_, _, hrun, ⟨⟨[98], 3, false⟩, rfl, rfl, rfl⟩, by decide, fun x lost v hv => ?_⟩
  have hlive := (((conditional_writes hrun).1 (.deleteIfVersion [107] 1) 1 x lost rfl (by decide)).1.mp
    ⟨v, hv⟩).2.2.2.1
  exact absurd (live_generation hlive) (by decide)

/-- `Put`s of one key, each at time 0. -/
theorem puts_reach (n : ℕ) (hn : (n : ℤ) + 1 ≤ Go.maxInt64) :
    ∃ tr s, Run Store.step (.init 0) tr s ∧ s.clock = 0 ∧ Live (s.db.products [107]) (n + 1) := by
  let x : Exec := ⟨0, 0, none, none, []⟩
  have hput : ∀ s : Store, s.clock = 0 → generation (s.db.products [107]) < Go.maxInt64 →
      ∃ o s', s.step (.mutate (.put [107] []) false, x) = some (s', o) ∧ s'.clock = 0 ∧
        Live (s'.db.products [107]) (generation (s.db.products [107]) + 1) := by
    intro s hs hg
    have hc : s.db.Commits (.put [107] []) x := ⟨⟨by decide, by decide⟩, rfl, trivial, hg⟩
    refine ⟨_, _, by rw [Store.step, if_pos ⟨le_of_eq hs, le_rfl⟩], rfl, ?_⟩
    rw [(Db.mutate_commits hc false).1]
    exact ⟨⟨[], generation (s.db.products [107]) + 1, false⟩,
      Function.update_self (f := s.db.products) [107] _, rfl, rfl⟩
  induction n with
  | zero =>
    obtain ⟨o, s', h1, h2, h3⟩ := hput (.init 0) rfl (by decide)
    exact ⟨_, s', Run.single h1, h2, h3⟩
  | succ n ih =>
    obtain ⟨tr, s, h1, h2, h3⟩ := ih (by push_cast at hn; omega)
    have hg := live_generation h3
    obtain ⟨o, s', h4, h5, h6⟩ := hput s h2 (by rw [hg]; push_cast at hn; omega)
    rw [hg] at h6
    exact ⟨_, s', .snoc h1 h4, h5, by push_cast; exact h6⟩

theorem putIfVersion_tooLarge {db : Db} {key value : GoString} {e : ℤ} {x : Exec} {lost : Bool} (hk : ValidKey key)
    (hv : maxValueBytes < value.length) :
    (db.mutate (.putIfVersion key value e) x lost).1 = .error .valueTooLarge := by
  have hval : validateValue key value = .error .valueTooLarge := by
    unfold validateValue
    rw [if_pos hk, if_pos hv]
  simp only [Db.mutate, Db.putIfVersion, hval, Except.map]

/-- A live row whose version is the expected one is not replaced by an oversized value, and not by any value
when its version is the largest `bigint`.  It is replaced by a call that fails, when the answer is lost. -/
theorem conditional_write_refused :
    (∃ tr s, Run Store.step (.init 0) tr s ∧ Live (s.db.products [107]) 1 ∧
      (s.db.mutate (.putIfVersion [107] (List.replicate (maxValueBytes + 1) 0) 1) ⟨0, 0, none, none, []⟩ false).1 =
        .error .valueTooLarge) ∧
    (∃ tr s, Run Store.step (.init 0) tr s ∧ Live (s.db.products [107]) Go.maxInt64 ∧
      ∀ v, (s.db.mutate (.putIfVersion [107] [] Go.maxInt64) ⟨0, 0, none, none, []⟩ false).1 ≠ .ok v) ∧
    (∃ tr s, Run Store.step (.init 0) tr s ∧ Live (s.db.products [107]) 1 ∧
      ∃ err, (s.db.mutate (.putIfVersion [107] [98] 1) ⟨0, 0, none, none, []⟩ true).1 = .error err ∧
        (s.db.mutate (.putIfVersion [107] [98] 1) ⟨0, 0, none, none, []⟩ true).2.products [107] =
          some ⟨[98], 2, false⟩) := by
  refine ⟨?_, ?_, ?_⟩
  · obtain ⟨tr, s, h1, -, h2⟩ := puts_reach 0 (by decide)
    exact ⟨tr, s, h1, h2, putIfVersion_tooLarge (by decide) (by rw [List.length_replicate]; exact Nat.lt_succ_self _)⟩
  · obtain ⟨n, hn⟩ : ∃ n : ℕ, (n : ℤ) + 1 = Go.maxInt64 := ⟨2 ^ 63 - 2, by decide⟩
    obtain ⟨tr, s, h1, -, h2⟩ := puts_reach n hn.le
    rw [hn] at h2
    refine ⟨tr, s, h1, h2, fun v hv => ?_⟩
    have hc := ((mutate_ok_iff _ _ false (e := Go.maxInt64) rfl).1.mp ⟨v, hv⟩).2
    have hlt := hc.2.2.2
    rw [Mutation.key, live_generation h2] at hlt
    exact absurd hlt (lt_irrefl _)
  · refine ⟨_, _, exec_run Store.step [(.mutate (.put [107] [97]) false, ⟨0, 0, none, none, []⟩)] (.init 0) _ _ rfl,
      ⟨⟨[97], 1, false⟩, rfl, rfl, rfl⟩, _, rfl, rfl⟩

/-! ### The events of a key -/

/-- The versions of the events of `key`, in insertion order. -/
def Db.versions (db : Db) (key : GoString) : List ℤ :=
  (db.events.filter fun e => e.1 = key).map Prod.snd

/-- The generations `1, …, n`. -/
def generations (n : ℕ) : List ℤ := (List.range n).map fun (i : ℕ) => (i : ℤ) + 1

theorem generations_succ (n : ℕ) : generations (n + 1) = generations n ++ [(n : ℤ) + 1] := by
  unfold generations
  rw [List.range_succ, List.map_append]
  rfl

/-- One event per generation, for every key, and every row has a generation. -/
structure Emitted (db : Db) : Prop where
  nonneg : ∀ key, 0 ≤ generation (db.products key)
  pos : ∀ key p, db.products key = some p → 0 < p.version
  versions : ∀ key, db.versions key = generations (generation (db.products key)).toNat

theorem Emitted.of_eq {db db' : Db} (h : Emitted db) (hp : db'.products = db.products)
    (he : db'.events = db.events) : Emitted db' where
  nonneg := by rw [hp]; exact h.nonneg
  pos := by rw [hp]; exact h.pos
  versions key := by
    have : db'.versions key = db.versions key := by unfold Db.versions; rw [he]
    rw [this, hp, h.versions key]

theorem events_commit (db : Db) (key : GoString) (p : Product) (now : ℤ) :
    (db.commit key p now).events = db.events ++ [(key, p.version)] := by
  unfold Db.events
  exact List.map_append

/-- A commit appends the event of the new generation of its key. -/
theorem Emitted.commit {db : Db} (h : Emitted db) (m : Mutation) (now : ℤ) :
    Emitted (db.commit m.key (m.row (generation (db.products m.key) + 1)) now) := by
  have hver : (m.row (generation (db.products m.key) + 1)).version = generation (db.products m.key) + 1 := by
    cases m <;> rfl
  have h0 := h.nonneg m.key
  refine ⟨fun key => ?_, fun key p hp => ?_, fun key => ?_⟩
  · rw [commit_generation]
    split_ifs with hk
    · omega
    · exact h.nonneg key
  · by_cases hk : key = m.key
    · subst hk
      have hp' : some (m.row (generation (db.products m.key) + 1)) = some p := by
        rw [← hp]; exact (Function.update_self (f := db.products) m.key _).symm
      rw [← Option.some.inj hp', hver]
      omega
    · have hp' : db.products key = some p := by
        rw [← hp]; exact (Function.update_of_ne hk _ _).symm
      exact h.pos key p hp'
  · rw [commit_generation]
    unfold Db.versions
    rw [events_commit, List.filter_append, List.map_append]
    by_cases hk : key = m.key
    · subst hk
      rw [if_pos rfl]
      have hn : (generation (db.products m.key) + 1).toNat = (generation (db.products m.key)).toNat + 1 := by
        omega
      rw [hn, generations_succ, ← h.versions m.key, Int.toNat_of_nonneg h0, hver]
      simp [Db.versions]
    · have hk' : ¬ m.key = key := fun e => hk e.symm
      rw [if_neg hk, ← h.versions key]
      simp [Db.versions, hk']

theorem emitted_run {clock : ℤ} {s : Store} {tr : List StoreEvent} (h : Run Store.step (.init clock) tr s)
    (hp : ∀ ev ∈ tr, ev.1.1.isPurge = false) : Emitted s.db := by
  refine h.rec_inv (I := fun tr s =>
    (∀ ev ∈ tr, ev.1.1.isPurge = false) → Emitted s.db) ?_ ?_ hp
  · exact fun _ => ⟨fun _ => le_rfl, fun _ _ hp => by simp [Store.init, Db.empty] at hp, fun _ => rfl⟩
  · intro tr s a o s' _ ih hst hp
    have hs := ih fun ev hev => hp ev (List.mem_append_left _ hev)
    rcases Store.step_products hst with ⟨m, _, -, -, h1, -⟩ | ⟨h1, -, h2⟩
    · rw [h1]
      exact hs.commit m a.2.now
    · exact hs.of_eq h1 (h2 (hp (a, o) (by simp)))

/-- **Exactly one event per committed generation.**  From empty tables and without purges, whatever calls are
made: a key without a row has no event, the events of any other key carry `1, …, version` in insertion order,
and a call whose own answer is an error, or that deletes what is not there, changes neither table, whether that answer
arrives or is lost. -/
theorem one_event_per_generation {clock : ℤ} {s : Store} {tr : List StoreEvent}
    (h : Run Store.step (.init clock) tr s)
    (hp : ∀ ev ∈ tr, ev.1.1.isPurge = false) :
    (∀ key p, s.db.products key = some p →
      0 < p.version ∧ s.db.versions key = generations p.version.toNat) ∧
    (∀ key, s.db.products key = none → ∀ r ∈ s.db.outbox, r.key ≠ key) ∧
    (∀ m x lost, ((∃ err, (s.db.mutate m x false).1 = .error err) ∨
        (∃ key, m = .delete key ∧ Absent (s.db.products key))) →
      (s.db.mutate m x lost).2.products = s.db.products ∧ (s.db.mutate m x lost).2.outbox = s.db.outbox) := by
  have hs := emitted_run h hp
  refine ⟨fun key p hrow => ⟨hs.pos key p hrow, ?_⟩, fun key hrow r hr hk => ?_, fun m x lost hm => ?_⟩
  · rw [hs.versions key, hrow]
    rfl
  · have hnil : s.db.versions key = [] := by rw [hs.versions key, hrow]; rfl
    have hmem : r.version ∈ s.db.versions key :=
      List.mem_map.mpr ⟨(r.key, r.version),
        List.mem_filter.mpr ⟨List.mem_map.mpr ⟨r, hr, rfl⟩, by simpa using hk⟩, rfl⟩
    rw [hnil] at hmem
    simp at hmem
  · have hc : ¬ s.db.Commits m x := by
      intro hc
      rcases hm with ⟨err, herr⟩ | ⟨key, rfl, ha⟩
      · rw [(Db.mutate_commits hc false).2] at herr
        simp at herr
      · exact hc.2.2.1 ha
    obtain ⟨h1, h2, -⟩ := Db.mutate_not_commits hc lost
    exact ⟨h1, h2⟩

/-- The recreated key of `recreated` has the events 1, 2, 3: the refused deletion emitted none. -/
theorem one_event_per_generation_recreated :
    ∃ tr s, Run Store.step (.init 0) tr s ∧ s.db.versions [107] = [1, 2, 3] := by
  have hrun := exec_run Store.step recreated (.init 0) _ _ rfl
  refine ⟨_, _, hrun, ?_⟩
  exact ((one_event_per_generation hrun (by decide)).1 [107] ⟨[98], 3, false⟩ rfl).2.trans (by decide)

/-! ### Claimed events and their rows -/

/-- The event that a call hands to a worker. -/
def claimedOf : StoreEvent → Option Event
  | ((.claim _ _ _, _), .claimed (.ok (some event))) => some event
  | _ => none

/-- What an event says is committed, and stays what its row says. -/
structure EventInv (tr : List StoreEvent) (s : Store) : Prop where
  keyed : Keyed s.db
  nonneg : ∀ key, 0 ≤ generation (s.db.products key)
  rows : ∀ r ∈ s.db.outbox, 0 < r.version ∧ r.version ≤ generation (s.db.products r.key)
  claimed : ∀ e ∈ tr, ∀ event, claimedOf e = some event → event.id < s.db.nextId ∧ 0 < event.version ∧
    event.version ≤ generation (s.db.products event.key) ∧
    ∀ r ∈ s.db.outbox, r.id = event.id → r.key = event.key ∧ r.version = event.version

theorem eventInv_init (clock : ℤ) : EventInv [] (.init clock) where
  keyed := (leaseInv_init clock).keyed
  nonneg _ := le_rfl
  rows := by simp [Store.init, Db.empty]
  claimed := by simp

/-- The rows after a step are the old ones or the one of a new generation. -/
theorem Store.step_rows {s s' : Store} {a : Call × Exec} {o : Answer} (h : s.step a = some (s', o)) {r' : OutboxRow}
    (hr' : r' ∈ s'.db.outbox) : (∃ r ∈ s.db.outbox, r.key = r'.key ∧ r.version = r'.version) ∨
      r'.version = generation (s.db.products r'.key) + 1 ∧ r'.version = generation (s'.db.products r'.key) := by
  rcases Store.step_products h with ⟨m, _, -, -, hdb, -⟩ | ⟨-, -, hev⟩
  · rw [hdb] at hr' ⊢
    rcases List.mem_append.mp hr' with hold | hnew
    · exact Or.inl ⟨r', hold, rfl, rfl⟩
    · have hver : ∀ v, (m.row v).version = v := fun v => by cases m <;> rfl
      rw [List.mem_singleton.mp hnew]
      simp only [commit_generation, hver, if_true, and_self, or_true]
  · left
    cases hp : a.1.isPurge with
    | false =>
      have hmem : (r'.key, r'.version) ∈ s.db.events := by
        rw [← hev hp]
        exact List.mem_map.mpr ⟨r', hr', rfl⟩
      obtain ⟨r, hr, he⟩ := List.mem_map.mp hmem
      exact ⟨r, hr, (Prod.mk.inj he).1, (Prod.mk.inj he).2⟩
    | true =>
      obtain ⟨c, x⟩ := a
      cases c with
      | purge retention limit =>
        unfold step at h
        dsimp only at h
        split_ifs at h
        obtain ⟨rfl, -⟩ := Prod.mk.inj (Option.some.inj h)
        exact ⟨r', (s.db.purge_spec retention limit x).2.2.1.subset hr', rfl, rfl⟩
      | _ => simp [Call.isPurge] at hp

/-- A claimed event is its row. -/
theorem Store.step_claimed {s s' : Store} {a : Call × Exec} {o : Answer} (h : s.step a = some (s', o)) {event : Event}
    (he : claimedOf (a, o) = some event) : ∃ c ∈ s.db.outbox, c.id = event.id ∧ c.key = event.key ∧
      c.version = event.version := by
  obtain ⟨c, x⟩ := a
  cases c with
  | claim w lease lost =>
    unfold step at h
    dsimp only at h
    split_ifs at h
    obtain ⟨-, rfl⟩ := Prod.mk.inj (Option.some.inj h)
    rcases s.db.claim_spec lease x with ⟨-, hno⟩ | ⟨c, hc, -, -, -, hans, -⟩
    · cases hr : (s.db.claim lease x).1 with
      | error e => rw [hr] at he; simp [claimedOf] at he
      | ok r =>
        cases r with
        | none => rw [hr] at he; simp [claimedOf] at he
        | some e => exact absurd hr (hno e)
    · rw [hans] at he
      obtain rfl := Option.some.inj he
      exact ⟨c, hc, rfl, rfl, rfl⟩
  | _ => simp [claimedOf] at he

theorem EventInv.step {tr : List StoreEvent} {s s' : Store} {a : Call × Exec} {o : Answer} (hI : EventInv tr s)
    (h : s.step a = some (s', o)) : EventInv (tr ++ [(a, o)]) s' := by
  obtain ⟨-, -, -, hE⟩ := Store.step_effect hI.keyed h
  have hgen := generation_le_step h
  have hnext := hE.nextId_le
  -- a row of the same id has the same key and version
  have hsame : ∀ id key version, id < s.db.nextId →
      (∀ r ∈ s.db.outbox, r.id = id → r.key = key ∧ r.version = version) →
      ∀ r' ∈ s'.db.outbox, r'.id = id → r'.key = key ∧ r'.version = version := by
    intro id key version hlt hold r' hr' hid
    rcases hE.row_back hI.keyed hr' with ⟨r, hr, hst⟩ | ⟨-, -, k, v, rfl⟩
    · obtain ⟨h1, h2, h3⟩ := hst.id_eq
      rw [h2, h3]
      exact hold r hr (h1.symm.trans hid)
    · simp only at hid
      omega
  refine ⟨hE.keyed hI.keyed, fun key => (hI.nonneg key).trans (hgen key), fun r' hr' => ?_, fun e he event hcl => ?_⟩
  · rcases Store.step_rows h hr' with ⟨r, hr, hk, hv⟩ | ⟨hv, hv'⟩
    · rw [← hk, ← hv]
      exact ⟨(hI.rows r hr).1, (hI.rows r hr).2.trans (hgen _)⟩
    · have := hI.nonneg r'.key
      omega
  · rcases List.mem_append.mp he with hold | hnew
    · obtain ⟨h1, h2, h3, h4⟩ := hI.claimed e hold event hcl
      exact ⟨h1.trans_le hnext, h2, h3.trans (hgen _), hsame _ _ _ h1 h4⟩
    · rw [List.mem_singleton.mp hnew] at hcl
      obtain ⟨c, hc, hid, hkey, hver⟩ := Store.step_claimed h hcl
      have hlt : event.id < s.db.nextId := hid ▸ hI.keyed.lt_next c hc
      refine ⟨hlt.trans_le hnext, hver ▸ (hI.rows c hc).1, ?_, hsame _ _ _ hlt fun r hr hr' => ?_⟩
      · rw [← hver, ← hkey]
        exact (hI.rows c hc).2.trans (hgen _)
      · rw [hI.keyed.row_eq hr hc (hr'.trans hid.symm)]
        exact ⟨hkey, hver⟩

end SimpleCache.Postgres
