import SimpleCache.Cluster.System
import SimpleCache.Postgres.Generation

/-!
# Cluster.Effects — what one action of the system can do

`System.effects` reads an action of the system once: which call of the store and which action of each engine it is
made of, how a task advances, which request is sent and which reply is added.
-/

namespace SimpleCache.Cluster

open Cache.Engine (Act)
open Postgres (Call Exec Answer StoreEvent Mutation generation)
open App (MutationCommand MutationOutcome)

variable {ι : Type} [DecidableEq ι]

/-- The engine action of a node that an action shows. -/
def Output.engine (n : ι) : Output ι → List Cache.Engine.Event
  | .node n' e => if n' = n then [e] else []
  | .served _ n' (some e) _ => if n' = n then [e] else []
  | .store _ (some (key, v)) => [(.commit key v, .quiet)]
  | _ => []

/-- The call of the store that an action shows. -/
def Output.stored : Output ι → List StoreEvent
  | .store e _ => [e]
  | _ => []

/-- The errors that an action brings in from outside at a node. -/
def Action.faults (n : ι) : Action ι → List Err
  | .node n' a => if n' = n then a.faults else []
  | .select n' _ fault work work' _ => if n' = n then fault.toList ++ (work.toList ++ work'.toList) else []
  | _ => []

namespace System

/-- Why an engine of the system acts: a SELECT answers from the store, a notification is the one of a task or of a
request, and a commit is what the store has committed. -/
def Permits (s : System ι) (a : Action ι) (s' : System ι) (n : ι) (act : Act) : Prop :=
  (∀ e ∈ act.faults, e ∈ a.faults n) ∧
  match act with
  | .readSource f answer _ _ _ => s'.store = s.store ∧ ∃ fl, (s.nodes n).engine.flights f = some fl ∧
      ((∃ e ∈ a.faults n, answer = .error e) ∨ answer = s.store.db.getVersioned fl.key)
  | .invalidate key version _ _ => s'.store = s.store ∧
      ((∃ p t, s.tasks p = some t ∧ t.stage = .notify ∧ key = t.origin.key ∧ version = t.origin.version) ∨
        ∃ request sent group, s.sent request = some sent ∧
          (s.nodes n).handler.route sent.request = .ok (group, key, version))
  | .commit key v => v = generation (s'.store.db.products key) ∧
      ∀ k, k ≠ key → s'.store.db.products k = s.store.db.products k
  | _ => s'.store = s.store

/-- A transition of the task `p`. -/
inductive TaskStep (s : System ι) (a : Action ι) (o : Output ι) (s' : System ι) (p : ℕ) :
    Option (Task ι) → Task ι → Prop
  | begin {n command stage} : (stage = .notify ∧ 0 ≤ command.version ∧
        command.version ≤ generation (s.store.db.products command.key)) ∨ (stage = .write ∧ command.version = 0) →
      TaskStep s a o s' p none ⟨n, .mutation command .empty, stage, none⟩
  | write {n command outcome snap m lost x ans commit stage} : command.call = some m →
      o = .store ((.mutate m lost, x), ans) commit →
      (stage = .notify ∨ (stage = .answer ∧ (MutationOutcome.written (writeResult ans)).2 = true)) →
      TaskStep s a o s' p (some ⟨n, .mutation command outcome, .write, snap⟩)
        ⟨n, .mutation command (MutationOutcome.written (writeResult ans)).1, stage, snap⟩
  | claim {n x event} : a = .claim p n x false →
      o = .store ((.claim p Outbox.leaseDuration false, x), .claimed (.ok (some event))) none →
      TaskStep s a o s' p none ⟨n, .relay event, .ready, none⟩
  | ready {n origin snap} : TaskStep s a o s' p (some ⟨n, origin, .ready, snap⟩) ⟨n, origin, .notify, snap⟩
  | unready {n origin snap} : TaskStep s a o s' p (some ⟨n, origin, .ready, snap⟩) ⟨n, origin, .finish false, snap⟩
  | notified {n origin snap now now' applied} :
      o = .node n (.invalidate origin.key origin.version now now', .invalidated (.ok applied)) →
      TaskStep s a o s' p (some ⟨n, origin, .notify, snap⟩) ⟨n, origin, .capture, snap⟩
  | refused {n origin snap e} :
      TaskStep s a o s' p (some ⟨n, origin, .notify, snap⟩) (Task.reported ⟨n, origin, .notify, snap⟩ (.error e))
  | captured {n origin snap} : o = .captured p n (s.nodes n).directory.state →
      TaskStep s a o s' p (some ⟨n, origin, .capture, snap⟩)
        ⟨n, origin, .fanout (.start (s.nodes n).directory origin.key origin.version),
          some (s.nodes n).directory.state⟩
  | sent {n origin snap b i c sent} : b.client? i = some c → s'.sent s.next = some sent → sent.client = c →
      sent.key = b.key → sent.version = b.version →
      TaskStep s a o s' p (some ⟨n, origin, .fanout b, snap⟩) ⟨n, origin, .fanout (b.set i (.sent s.next)), snap⟩
  | failed {n origin snap b i e} : TaskStep s a o s' p (some ⟨n, origin, .fanout b, snap⟩)
      ⟨n, origin, .fanout (b.set i (.done (.of (.error e)))), snap⟩
  | received {n origin snap b i request r} : b.jobs i = .sent request → (request, r) ∈ s.replies →
      TaskStep s a o s' p (some ⟨n, origin, .fanout b, snap⟩)
        ⟨n, origin, .fanout (b.set i (.done (.of (check b.version r)))), snap⟩
  | collected {n origin snap b report} : b.report = some report →
      TaskStep s a o s' p (some ⟨n, origin, .fanout b, snap⟩)
        (Task.reported ⟨n, origin, .fanout b, snap⟩ (.ok report))
  | closed {n origin stage snap} : TaskStep s a o s' p (some ⟨n, origin, stage, snap⟩) ⟨n, origin, .closed, snap⟩

/-- Where a reply comes from. -/
inductive ReplyStep (listener : GoString → Option ι) (s : System ι) (o : Output ι) (sent : Sent) (r : Response) : Prop
  | refused {n} : listener sent.client.address = some n → (s.nodes n).handler.route sent.request = .error r →
      ReplyStep listener s o sent r
  | served {n group key version now now' result} : listener sent.client.address = some n →
      (s.nodes n).handler.route sent.request = .ok (group, key, version) →
      o.engine n = [(.invalidate key version now now', .invalidated result)] →
      r = Handler.reply version result → ReplyStep listener s o sent r
  | foreign : listener sent.client.address = none → o = .replied sent.client.address sent.request r →
      ReplyStep listener s o sent r

/-- **What one action does.** -/
structure Effects (listener : GoString → Option ι) (s : System ι) (a : Action ι) (o : Output ι) (s' : System ι) :
    Prop where
  store : (s'.store = s.store ∧ o.stored = []) ∨ ∃ e, o.stored = [e] ∧ s.store.step e.1 = some (s'.store, e.2)
  engines : ∀ n, ((s'.nodes n).engine = (s.nodes n).engine ∧ o.engine n = [] ∧
      s'.store.db.products = s.store.db.products) ∨
    ∃ e, o.engine n = [e] ∧ (s.nodes n).engine.step e.1 = some ((s'.nodes n).engine, e.2) ∧ s.Permits a s' n e.1
  selfID : ∀ n, (s'.nodes n).directory.selfID = (s.nodes n).directory.selfID
  tasks : s'.tasks = s.tasks ∨ ∃ p t, s'.tasks = Function.update s.tasks p (some t) ∧
    TaskStep s a o s' p (s.tasks p) t
  captured : ∀ p n snap, o = .captured p n snap → a = .capture p ∧ ∃ t, s.tasks p = some t ∧ t.stage = .capture ∧
    ∃ t', s'.tasks p = some t' ∧ t'.node = n ∧ t'.captured = some snap
  responded : ∀ p n command status response, o = .responded p n command status response → ∃ outcome snap,
    s.tasks p = some ⟨n, .mutation command outcome, .answer, snap⟩ ∧ status = outcome.status ∧
      response = outcome.response
  finished : ∀ p event delivered retry x ans commit, o = .store ((.finish p event delivered retry, x), ans) commit →
    ∃ n snap, s.tasks p = some ⟨n, .relay event, .finish delivered, snap⟩
  sent : (s'.sent = s.sent ∧ s'.next = s.next) ∨ ∃ sent p n origin b snap,
    s'.sent = Function.update s.sent s.next (some sent) ∧ s'.next = s.next + 1 ∧
      s.tasks p = some ⟨n, origin, .fanout b, snap⟩ ∧ sent.key = b.key ∧ sent.version = b.version
  replies : s'.replies = s.replies ∨ ∃ request r sent, s'.replies = (request, r) :: s.replies ∧
    s.sent request = some sent ∧ ReplyStep listener s o sent r

/-! ### The shapes of an action -/

section Shapes

variable {listener : GoString → Option ι} {s : System ι} {a : Action ι} {o : Output ι}

/-- Nothing but a task moves, and no request is sent. -/
theorem effects_task {p : ℕ} {t : Task ι} (hst : TaskStep s a o (s.setTask p t) p (s.tasks p) t)
    (hs : o.stored = []) (he : ∀ n, o.engine n = [])
    (hc : ∀ p' n snap, o = .captured p' n snap → a = .capture p' ∧ ∃ t₀, s.tasks p' = some t₀ ∧ t₀.stage = .capture ∧
      p' = p ∧ t.node = n ∧ t.captured = some snap)
    (hr : ∀ p n command status response, o = .responded p n command status response → ∃ outcome snap,
      s.tasks p = some ⟨n, .mutation command outcome, .answer, snap⟩ ∧ status = outcome.status ∧
        response = outcome.response) :
    Effects listener s a o (s.setTask p t) where
  store := Or.inl ⟨rfl, hs⟩
  engines n := Or.inl ⟨rfl, he n, rfl⟩
  selfID _ := rfl
  tasks := Or.inr ⟨p, t, rfl, hst⟩
  captured p' n snap h := by
    obtain ⟨h1, t₀, h2, h3, rfl, h4, h5⟩ := hc p' n snap h
    exact ⟨h1, t₀, h2, h3, t, Function.update_self (f := s.tasks) p' _, h4, h5⟩
  responded := hr
  finished p event delivered retry x ans commit h := by
    rw [h] at hs
    simp [Output.stored] at hs
  sent := Or.inl ⟨rfl, rfl⟩
  replies := Or.inl rfl

theorem setEngine_engine (n n' : ι) (e : Cache.Engine) :
    ((s.setEngine n e).nodes n').engine = if n' = n then e else (s.nodes n').engine := by
  simp only [setEngine, Function.update_apply, apply_ite Node.engine]

theorem setEngine_selfID (n n' : ι) (e : Cache.Engine) :
    ((s.setEngine n e).nodes n').directory.selfID = (s.nodes n').directory.selfID := by
  simp only [setEngine, Function.update_apply]
  split_ifs with h
  · rw [h]
  · rfl

/-- The engines when one node acts. -/
theorem engines_setEngine {s' : System ι} {n : ι} {act : Act} {e : Cache.Engine} {ans : Cache.Engine.Ans}
    (hst : (s.nodes n).engine.step act = some (e, ans)) (hn : s'.nodes = (s.setEngine n e).nodes)
    (hs : s'.store = s.store) (ho : ∀ n', o.engine n' = if n = n' then [(act, ans)] else [])
    (hp : s.Permits a s' n act) (n' : ι) :
    ((s'.nodes n').engine = (s.nodes n').engine ∧ o.engine n' = [] ∧
      s'.store.db.products = s.store.db.products) ∨
    ∃ ev, o.engine n' = [ev] ∧ (s.nodes n').engine.step ev.1 = some ((s'.nodes n').engine, ev.2) ∧
      s.Permits a s' n' ev.1 := by
  rw [hn, setEngine_engine]
  by_cases h : n = n'
  · subst h
    rw [if_pos rfl]
    exact Or.inr ⟨(act, ans), by rw [ho, if_pos rfl], hst, hp⟩
  · rw [if_neg (Ne.symm h)]
    exact Or.inl ⟨rfl, by rw [ho, if_neg h], by rw [hs]⟩

/-- An action of one engine. -/
theorem effects_node {n : ι} {act : Act} {e : Cache.Engine} {ans : Cache.Engine.Ans}
    (hst : (s.nodes n).engine.step act = some (e, ans)) (hp : s.Permits a (s.setEngine n e) n act) :
    Effects listener s a (.node n (act, ans)) (s.setEngine n e) where
  store := Or.inl ⟨rfl, rfl⟩
  engines := engines_setEngine hst rfl rfl (fun _ => rfl) hp
  selfID n' := setEngine_selfID n n' e
  tasks := Or.inl rfl
  captured _ _ _ h := by simp at h
  responded _ _ _ _ _ h := by simp at h
  finished _ _ _ _ _ _ _ h := by simp at h
  sent := Or.inl ⟨rfl, rfl⟩
  replies := Or.inl rfl

/-- An action of one engine for a task. -/
theorem effects_node_task {n : ι} {act : Act} {e : Cache.Engine} {ans : Cache.Engine.Ans} {p : ℕ} {t : Task ι}
    (hst : (s.nodes n).engine.step act = some (e, ans)) (hp : s.Permits a ((s.setEngine n e).setTask p t) n act)
    (ht : TaskStep s a (.node n (act, ans)) ((s.setEngine n e).setTask p t) p (s.tasks p) t) :
    Effects listener s a (.node n (act, ans)) ((s.setEngine n e).setTask p t) where
  store := Or.inl ⟨rfl, rfl⟩
  engines := engines_setEngine hst rfl rfl (fun _ => rfl) hp
  selfID n' := setEngine_selfID n n' e
  tasks := Or.inr ⟨p, t, rfl, ht⟩
  captured _ _ _ h := by simp at h
  responded _ _ _ _ _ h := by simp at h
  finished _ _ _ _ _ _ _ h := by simp at h
  sent := Or.inl ⟨rfl, rfl⟩
  replies := Or.inl rfl

omit [DecidableEq ι] in
/-- What a call of the store leaves as it is, and what the nodes see of it. -/
theorem call_spec {c : Call} {x : Exec} {s₁ : System ι} {ans : Answer} {commit : Option (GoString × ℤ)}
    (h : s.call c x = some (s₁, ans, commit)) :
    s.store.step (c, x) = some (s₁.store, ans) ∧ s₁.tasks = s.tasks ∧ s₁.sent = s.sent ∧ s₁.next = s.next ∧
    s₁.replies = s.replies ∧ (∀ n, (s₁.nodes n).directory = (s.nodes n).directory) ∧
    ((commit = none ∧ s₁.nodes = s.nodes ∧ s₁.store.db.products = s.store.db.products) ∨
      ∃ m lost, c = .mutate m lost ∧ commit = some (m.key, generation (s₁.store.db.products m.key)) ∧
        (∀ k, k ≠ m.key → s₁.store.db.products k = s.store.db.products k) ∧
        ∀ n, (s.nodes n).engine.step (.commit m.key (generation (s₁.store.db.products m.key))) =
          some ((s₁.nodes n).engine, .quiet)) := by
  unfold call at h
  obtain ⟨⟨st, ans'⟩, hst, he⟩ := Option.map_eq_some_iff.mp h
  cases c with
  | mutate m lost =>
    simp only [Prod.mk.injEq] at he
    obtain ⟨rfl, rfl, rfl⟩ := he
    refine ⟨hst, rfl, rfl, rfl, rfl, fun _ => rfl, Or.inr ⟨m, lost, rfl, rfl, fun k hk => ?_, fun n => rfl⟩⟩
    rcases Postgres.Store.step_products hst with ⟨m', lost', hm, -, hdb, -⟩ | ⟨hdb, -, -⟩
    · obtain ⟨rfl, rfl⟩ := Call.mutate.inj hm
      show st.db.products k = _
      rw [hdb]
      exact Function.update_of_ne hk _ _
    · exact congrFun hdb k
  | _ =>
    simp only [Prod.mk.injEq] at he
    obtain ⟨rfl, rfl, rfl⟩ := he
    refine ⟨hst, rfl, rfl, rfl, rfl, fun _ => rfl, Or.inl ⟨rfl, rfl, ?_⟩⟩
    rcases Postgres.Store.step_products hst with ⟨m', lost', hm, -, -, -⟩ | ⟨hdb, -, -⟩
    · simp at hm
    · exact hdb

/-- A call of the store, with or without a move of a task. -/
theorem effects_call {c : Call} {x : Exec} {s₁ s' : System ι} {ans : Answer} {commit : Option (GoString × ℤ)}
    (h : s.call c x = some (s₁, ans, commit)) (hs : s'.store = s₁.store) (hn : s'.nodes = s₁.nodes)
    (hsent : s'.sent = s₁.sent) (hnext : s'.next = s₁.next) (hrep : s'.replies = s₁.replies)
    (ht : s'.tasks = s.tasks ∨ ∃ p t, s'.tasks = Function.update s.tasks p (some t) ∧
      TaskStep s a (.store ((c, x), ans) commit) s' p (s.tasks p) t)
    (hf : ∀ p event delivered retry, c = .finish p event delivered retry →
      ∃ n snap, s.tasks p = some ⟨n, .relay event, .finish delivered, snap⟩) :
    Effects listener s a (.store ((c, x), ans) commit) s' := by
  obtain ⟨h1, -, h3, h4, h5, h6, h7⟩ := call_spec h
  refine ⟨Or.inr ⟨_, rfl, by rw [hs]; exact h1⟩, fun n => ?_, fun n => by rw [hn, h6], ht, by simp, by simp,
    fun p event delivered retry x' ans' commit' ho => ?_, Or.inl ⟨hsent.trans h3, hnext.trans h4⟩,
    Or.inl (hrep.trans h5)⟩
  · rw [hn, hs]
    rcases h7 with ⟨rfl, hnodes, hprod⟩ | ⟨m, _, -, rfl, hother, hcommit⟩
    · exact Or.inl ⟨by rw [hnodes], rfl, hprod⟩
    · exact Or.inr ⟨_, rfl, hcommit n, by simp [Act.faults], by rw [hs], fun k hk => by rw [hs]; exact hother k hk⟩
  · simp only [Output.store.injEq, Prod.mk.injEq] at ho
    exact hf p event delivered retry ho.1.1.1

omit [DecidableEq ι] in
theorem job_spec {p : ℕ} {f : Task ι → Broadcast → Option (System ι × Broadcast)} {s' : System ι}
    (h : s.job p f = some (s', o)) : ∃ n origin b snap r, s.tasks p = some ⟨n, origin, .fanout b, snap⟩ ∧
      f ⟨n, origin, .fanout b, snap⟩ b = some r ∧ s' = r.1.setTask p ⟨n, origin, .fanout r.2, snap⟩ ∧ o = .quiet := by
  unfold job at h
  split at h
  · rename_i n origin b snap ht
    obtain ⟨r, hr, he⟩ := Option.map_eq_some_iff.mp h
    obtain ⟨rfl, rfl⟩ := Prod.mk.inj he
    exact ⟨n, origin, b, snap, r, ht, hr, rfl, rfl⟩
  · exact (Option.some_ne_none _ h.symm).elim

/-- A transition of a task that shows nothing. -/
theorem effects_quiet {p : ℕ} {t : Task ι} (hst : TaskStep s a .quiet (s.setTask p t) p (s.tasks p) t) :
    Effects listener s a .quiet (s.setTask p t) :=
  effects_task hst rfl (fun _ => rfl) (by simp) (by simp)

end Shapes

/-! ### Every action -/

section Actions

variable {listener : GoString → Option ι} {s s' : System ι} {o : Output ι}

/-- An engine acts. -/
theorem onNode_spec {n : ι} {act : Act} {ans : Cache.Engine.Ans} (h : s.onNode n act = some (s', ans)) :
    ∃ e, (s.nodes n).engine.step act = some (e, ans) ∧ s' = s.setEngine n e := by
  obtain ⟨⟨e, ans'⟩, hst, he⟩ := Option.map_eq_some_iff.mp h
  obtain ⟨rfl, rfl⟩ := Prod.mk.inj he
  exact ⟨e, hst, rfl⟩

theorem effects_local {n : ι} {act : Act} (h : s.step listener (.node n act) = some (s', o)) :
    Effects listener s (.node n act) o s' := by
  simp only [step] at h
  split_ifs at h with hl
  obtain ⟨⟨s₁, ans⟩, hn, he⟩ := Option.map_eq_some_iff.mp h
  obtain ⟨rfl, rfl⟩ := Prod.mk.inj he
  obtain ⟨e, hst, rfl⟩ := onNode_spec hn
  refine effects_node hst ⟨fun e he => by simpa [Action.faults] using he, ?_⟩
  cases act <;> first | rfl | simp [localAct] at hl

theorem effects_select {n : ι} {f : ℕ} {fault work work' work'' : Option Err}
    (h : s.step listener (.select n f fault work work' work'') = some (s', o)) :
    Effects listener s (.select n f fault work work' work'') o s' := by
  simp only [step] at h
  split at h
  · simp at h
  · rename_i fl hf
    obtain ⟨⟨s₁, ans⟩, hn, he⟩ := Option.map_eq_some_iff.mp h
    obtain ⟨rfl, rfl⟩ := Prod.mk.inj he
    obtain ⟨e, hst, rfl⟩ := onNode_spec hn
    refine effects_node hst ⟨fun e he => ?_, rfl, fl, hf, ?_⟩
    · cases fault <;> simp [Act.faults, Action.faults] at he ⊢ <;> grind
    · cases fault with
      | none => exact Or.inr rfl
      | some e => exact Or.inl ⟨e, by simp [Action.faults], rfl⟩

theorem effects_write {p : ℕ} {x : Exec} {lost : Bool}
    (h : s.step listener (.write p x lost) = some (s', o)) : Effects listener s (.write p x lost) o s' := by
  simp only [step] at h
  split at h
  · rename_i n command outcome snap ht
    split at h
    · simp at h
    · rename_i m hm
      obtain ⟨⟨s₁, ans, commit⟩, hc, he⟩ := Option.map_eq_some_iff.mp h
      obtain ⟨rfl, rfl⟩ := Prod.mk.inj he
      obtain ⟨-, htasks, -⟩ := call_spec hc
      refine effects_call hc rfl rfl rfl rfl rfl (Or.inr ⟨p, _, congrArg (Function.update · p _) htasks, ?_⟩) (by simp)
      rw [ht]
      refine .write hm rfl ?_
      split_ifs with hw
      · exact Or.inr ⟨rfl, hw⟩
      · exact Or.inl rfl
  · simp at h

theorem effects_claim {p : ℕ} {n : ι} {x : Exec} {lost : Bool}
    (h : s.step listener (.claim p n x lost) = some (s', o)) : Effects listener s (.claim p n x lost) o s' := by
  simp only [step] at h
  split_ifs at h with ht
  obtain ⟨⟨s₁, ans, commit⟩, hc, he⟩ := Option.map_eq_some_iff.mp h
  obtain ⟨-, htasks, -, -, -, -, hcommit⟩ := call_spec hc
  have hnone : commit = none := by
    rcases hcommit with ⟨hcm, -⟩ | ⟨m, _, hm, -⟩
    · exact hcm
    · simp at hm
  subst hnone
  dsimp only at he
  split at he
  · obtain ⟨rfl, rfl⟩ := Prod.mk.inj he
    refine effects_call hc rfl rfl rfl rfl rfl (Or.inr ⟨p, _, congrArg (Function.update · p _) htasks, ?_⟩) (by simp)
    rw [Option.isNone_iff_eq_none.mp ht]
    exact .claim rfl rfl
  · obtain ⟨rfl, rfl⟩ := Prod.mk.inj he
    exact effects_call hc rfl rfl rfl rfl rfl (Or.inl htasks) (by simp)

theorem effects_invalidate {p : ℕ} {now now' : ℤ} (h : s.step listener (.invalidate p now now') = some (s', o)) :
    Effects listener s (.invalidate p now now') o s' := by
  simp only [step] at h
  split at h
  · rename_i n origin snap ht
    obtain ⟨⟨s₁, ans⟩, hn, he⟩ := Option.map_eq_some_iff.mp h
    obtain ⟨e, hst, rfl⟩ := onNode_spec hn
    have hwhy : ∃ p t, s.tasks p = some t ∧ t.stage = .notify ∧ origin.key = t.origin.key ∧
        origin.version = t.origin.version := ⟨p, _, ht, rfl, rfl, rfl⟩
    dsimp only at he
    split at he <;> obtain ⟨rfl, rfl⟩ := Prod.mk.inj he
    · refine effects_node_task hst ⟨by simp [Act.faults], rfl, Or.inl hwhy⟩ ?_
      rw [ht]
      exact .notified rfl
    · refine effects_node_task hst ⟨by simp [Act.faults], rfl, Or.inl hwhy⟩ ?_
      rw [ht]
      exact .refused
    · exact effects_node hst ⟨by simp [Act.faults], rfl, Or.inl hwhy⟩
  · simp at h

theorem effects_dispatch {p : ℕ} {err : Option Err} (h : s.step listener (.dispatch p err) = some (s', o)) :
    Effects listener s (.dispatch p err) o s' := by
  simp only [step] at h
  obtain ⟨n, origin, b, snap, r, ht, hr, rfl, rfl⟩ := job_spec h
  split at hr
  · simp at hr
  · rename_i i hi
    split at hr
    · obtain rfl := (Option.some.inj hr).symm
      refine effects_quiet ?_
      rw [ht]
      exact .failed
    · split at hr
      · simp at hr
      · rename_i c hc
        split at hr
        · simp at hr
        · rename_i request hreq
          obtain rfl := (Option.some.inj hr).symm
          refine ⟨Or.inl ⟨rfl, rfl⟩, fun n => Or.inl ⟨rfl, rfl, rfl⟩, fun _ => rfl, Or.inr ⟨p, _, rfl, ?_⟩, by simp,
            by simp, by simp, Or.inr ⟨_, p, n, origin, b, snap, rfl, rfl, ht, rfl, rfl⟩, Or.inl rfl⟩
          rw [ht]
          exact .sent hc (Function.update_self (f := s.sent) s.next _) rfl rfl rfl

theorem effects_serve {request : ℕ} {now now' : ℤ} (h : s.step listener (.serve request now now') = some (s', o)) :
    Effects listener s (.serve request now now') o s' := by
  simp only [step] at h
  split at h
  · simp at h
  · rename_i sent hs
    split at h
    · simp at h
    · rename_i n hl
      split at h
      · rename_i r hr
        obtain ⟨rfl, rfl⟩ := Prod.mk.inj (Option.some.inj h)
        exact ⟨Or.inl ⟨rfl, rfl⟩, fun n => Or.inl ⟨rfl, rfl, rfl⟩, fun _ => rfl, Or.inl rfl, by simp, by simp, by simp,
          Or.inl ⟨rfl, rfl⟩, Or.inr ⟨request, r, sent, rfl, hs, .refused hl hr⟩⟩
      · rename_i group key version hr
        obtain ⟨⟨s₁, ans⟩, hn, he⟩ := Option.map_eq_some_iff.mp h
        obtain ⟨rfl, rfl⟩ := Prod.mk.inj he
        obtain ⟨e, hst, rfl⟩ := onNode_spec hn
        obtain ⟨result, hres⟩ : ∃ result, ans = .invalidated result := by
          obtain ⟨r, hr, he⟩ := Option.map_eq_some_iff.mp hst
          simp only [Cache.Engine.act, Option.some.injEq] at hr
          exact ⟨_, by rw [← (Prod.mk.inj he).2, ← hr]⟩
        subst hres
        exact ⟨Or.inl ⟨rfl, rfl⟩, engines_setEngine hst rfl rfl (fun _ => rfl)
          ⟨by simp [Act.faults], rfl, Or.inr ⟨request, sent, group, hs, hr⟩⟩, fun n' => setEngine_selfID n n' e,
          Or.inl rfl, by simp, by simp, by simp, Or.inl ⟨rfl, rfl⟩, Or.inr ⟨request, _, sent, rfl, hs,
            .served hl hr (if_pos rfl) rfl⟩⟩

/-- **Every action of the system is one of these.** -/
theorem effects {a : Action ι} (h : s.step listener a = some (s', o)) : Effects listener s a o s' := by
  cases a with
  | node n act => exact effects_local h
  | select n f fault work work' work'' => exact effects_select h
  | update n input =>
    simp only [step, Option.some.injEq, Prod.mk.injEq] at h
    obtain ⟨rfl, rfl⟩ := h
    refine ⟨Or.inl ⟨rfl, rfl⟩, fun n' => Or.inl ⟨?_, rfl, rfl⟩, fun n' => ?_, Or.inl rfl, by simp, by simp, by simp,
      Or.inl ⟨rfl, rfl⟩, Or.inl rfl⟩
    · by_cases hn : n' = n <;> simp [hn]
    · by_cases hn : n' = n <;> simp [hn, Directory.update_selfID]
  | store c x =>
    simp only [step] at h
    split_ifs at h with ho
    obtain ⟨⟨s₁, ans, commit⟩, hc, he⟩ := Option.map_eq_some_iff.mp h
    obtain ⟨rfl, rfl⟩ := Prod.mk.inj he
    obtain ⟨-, htasks, -⟩ := call_spec hc
    refine effects_call hc rfl rfl rfl rfl rfl (Or.inl htasks) (fun p event delivered retry hf => ?_)
    subst hf
    simp [otherCall] at ho
  | begin p n command =>
    simp only [step] at h
    obtain ⟨⟨hnone, hv⟩, he⟩ := Option.ite_none_right_eq_some.mp h
    obtain ⟨rfl, rfl⟩ := Prod.mk.inj (Option.some.inj he)
    refine effects_quiet ?_
    rw [Option.isNone_iff_eq_none.mp hnone]
    refine .begin ?_
    by_cases hk : command.kind = .notify
    · rw [if_pos hk] at hv ⊢
      exact Or.inl ⟨rfl, hv⟩
    · rw [if_neg hk] at hv ⊢
      exact Or.inr ⟨rfl, hv⟩
  | write p x lost => exact effects_write h
  | claim p n x lost => exact effects_claim h
  | ready p ready =>
    simp only [step] at h
    split at h
    · rename_i n origin snap ht
      obtain ⟨rfl, rfl⟩ := Prod.mk.inj (Option.some.inj h)
      refine effects_quiet ?_
      rw [ht]
      cases ready with
      | true => exact .ready
      | false => exact .unready
    · simp at h
  | invalidate p now now' => exact effects_invalidate h
  | capture p =>
    simp only [step] at h
    split at h
    · rename_i n origin snap ht
      obtain ⟨rfl, rfl⟩ := Prod.mk.inj (Option.some.inj h)
      refine effects_task ?_ rfl (fun _ => rfl) (fun p' n' snap' ho => ?_) (by simp)
      · rw [ht]
        exact .captured rfl
      · obtain ⟨rfl, rfl, rfl⟩ := Output.captured.inj ho
        exact ⟨rfl, _, ht, rfl, rfl, rfl, rfl⟩
    · simp at h
  | dispatch p err => exact effects_dispatch h
  | abort p i e =>
    simp only [step] at h
    obtain ⟨n, origin, b, snap, r, ht, hr, rfl, rfl⟩ := job_spec h
    split at hr
    · obtain rfl := (Option.some.inj hr).symm
      refine effects_quiet ?_
      rw [ht]
      exact .failed
    · simp at hr
  | receive p i r =>
    simp only [step] at h
    obtain ⟨n, origin, b, snap, res, ht, hr, rfl, rfl⟩ := job_spec h
    split at hr
    · rename_i request hj
      split_ifs at hr with hmem
      obtain rfl := (Option.some.inj hr).symm
      refine effects_quiet ?_
      rw [ht]
      exact .received hj hmem
    · simp at hr
  | collect p =>
    simp only [step] at h
    split at h
    · rename_i n origin b snap ht
      obtain ⟨report, hr, he⟩ := Option.map_eq_some_iff.mp h
      obtain ⟨rfl, rfl⟩ := Prod.mk.inj he
      refine effects_quiet ?_
      rw [ht]
      exact .collected hr
    · simp at h
  | respond p =>
    simp only [step] at h
    split at h
    · rename_i n command outcome snap ht
      obtain ⟨rfl, rfl⟩ := Prod.mk.inj (Option.some.inj h)
      refine effects_task ?_ rfl (fun _ => rfl) (by simp) (fun p' n' command' status response ho => ?_)
      · rw [ht]
        exact .closed
      · obtain ⟨rfl, rfl, rfl, rfl, rfl⟩ := Output.responded.inj ho
        exact ⟨outcome, snap, ht, rfl, rfl⟩
    · simp at h
  | finish p x =>
    simp only [step] at h
    split at h
    · rename_i n event delivered snap ht
      obtain ⟨⟨s₁, ans, commit⟩, hc, he⟩ := Option.map_eq_some_iff.mp h
      obtain ⟨rfl, rfl⟩ := Prod.mk.inj he
      obtain ⟨-, htasks, -⟩ := call_spec hc
      refine effects_call hc rfl rfl rfl rfl rfl (Or.inr ⟨p, _, congrArg (Function.update · p _) htasks, ?_⟩) ?_
      · rw [ht]
        exact .closed
      · intro p' event' delivered' retry hf
        obtain ⟨rfl, rfl, rfl, -⟩ := Call.finish.inj hf
        exact ⟨n, snap, ht⟩
    · simp at h
  | serve request now now' => exact effects_serve h
  | foreign request r =>
    simp only [step] at h
    split at h
    · simp at h
    · rename_i sent hs
      split at h
      · simp at h
      · rename_i hl
        obtain ⟨rfl, rfl⟩ := Prod.mk.inj (Option.some.inj h)
        exact ⟨Or.inl ⟨rfl, rfl⟩, fun n => Or.inl ⟨rfl, rfl, rfl⟩, fun _ => rfl, Or.inl rfl, by simp, by simp, by simp,
          Or.inl ⟨rfl, rfl⟩, Or.inr ⟨request, r, sent, rfl, hs, .foreign hl rfl⟩⟩

end Actions

end System

end SimpleCache.Cluster
