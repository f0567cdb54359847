import SimpleCache.Cache.Absence
import SimpleCache.Cluster.Effects

/-!
# Cluster.Nodes — every node runs over an honest source

In a run of the system the versions that tasks and requests carry are committed, so that the engine of every node
makes a run of its own in which notifications are of committed versions and the source reads its own commits
(`engine_run`).  The store makes its own run as well (`store_run`).
-/

namespace SimpleCache.Cluster

open SimpleCache.Lib
open Cache.Engine (Act Bounded Moves)
open Postgres (Store Call Exec Answer StoreEvent EventInv claimedOf generation)
open App (MutationCommand MutationOutcome)

variable {ι : Type}

/-- One event of a run. -/
abbrev SystemEvent (ι : Type) := Action ι × Output ι

/-- The calls of the store in a history. -/
def stored (tr : List (SystemEvent ι)) : List StoreEvent := tr.flatMap fun e => e.2.stored

/-- The actions of the engine of a node in a history. -/
def engineOf [DecidableEq ι] (n : ι) (tr : List (SystemEvent ι)) : List Cache.Engine.Event :=
  tr.flatMap fun e => e.2.engine n

theorem stored_snoc (tr : List (SystemEvent ι)) (e : SystemEvent ι) : stored (tr ++ [e]) = stored tr ++ e.2.stored := by
  simp [stored]

theorem engineOf_append [DecidableEq ι] (n : ι) (tr₁ tr₂ : List (SystemEvent ι)) :
    engineOf n (tr₁ ++ tr₂) = engineOf n tr₁ ++ engineOf n tr₂ := List.flatMap_append

theorem engineOf_cons [DecidableEq ι] (n : ι) (e : SystemEvent ι) (tr : List (SystemEvent ι)) :
    engineOf n (e :: tr) = e.2.engine n ++ engineOf n tr := List.flatMap_cons

/-! ### Committed versions -/

/-- What the origin of a task says is committed; the version of a mutation is still its own row, or overwritten. -/
def Origin.Committed (s : Store) : Origin → Prop
  | .mutation command outcome =>
    (0 ≤ command.version ∧ command.version ≤ generation (s.db.products command.key)) ∧
    ∀ v, outcome.response.sourceVersion = some v → 0 < v ∧ v ≤ generation (s.db.products command.key) ∧
      (generation (s.db.products command.key) = v → ∃ m, command.call = some m ∧
        s.db.products command.key = some (m.row v))
  | .relay event => 0 < event.version ∧ event.version ≤ generation (s.db.products event.key)

theorem Origin.Committed.version {s : Store} {o : Origin} (h : o.Committed s) :
    0 ≤ o.version ∧ o.version ≤ generation (s.db.products o.key) := by
  cases o with
  | mutation command outcome =>
    cases hv : outcome.response.sourceVersion with
    | none =>
      rw [show Origin.version (.mutation command outcome) = command.version by
        simp [Origin.version, MutationOutcome.version, hv]]
      exact h.1
    | some v =>
      rw [show Origin.version (.mutation command outcome) = v by
        simp [Origin.version, MutationOutcome.version, hv]]
      exact ⟨(h.2 v hv).1.le, (h.2 v hv).2.1⟩
  | relay event => exact ⟨h.1.le, h.2⟩

/-- Rows change only together with their generation. -/
def Advances (s s' : Store) : Prop := ∀ key, s'.db.products key = s.db.products key ∨
  generation (s.db.products key) < generation (s'.db.products key)

theorem Advances.le {s s' : Store} (h : Advances s s') (key : GoString) :
    generation (s.db.products key) ≤ generation (s'.db.products key) :=
  (h key).elim (fun he => by rw [he]) le_of_lt

theorem Origin.Committed.mono {s s' : Store} {o : Origin} (h : o.Committed s) (hadv : Advances s s') :
    o.Committed s' := by
  cases o with
  | mutation command outcome =>
    refine ⟨⟨h.1.1, h.1.2.trans (hadv.le _)⟩, fun v hv => ?_⟩
    obtain ⟨h1, h2, h3⟩ := h.2 v hv
    refine ⟨h1, h2.trans (hadv.le _), fun hgen => ?_⟩
    rcases hadv command.key with he | hlt
    · rw [he] at hgen ⊢
      exact h3 hgen
    · omega
  | relay event => exact ⟨h.1, h.2.trans (hadv.le _)⟩

theorem Task.reported_origin (t : Task ι) (r : Except Err InvalidationReport) :
    (t.reported r).node = t.node ∧ (t.reported r).captured = t.captured ∧
    (t.reported r).origin.key = t.origin.key ∧ (t.reported r).origin.version = t.origin.version ∧
    (∀ s, t.origin.Committed s → (t.reported r).origin.Committed s) ∧ ∀ b, (t.reported r).stage ≠ .fanout b := by
  obtain ⟨n, origin, stage, snap⟩ := t
  cases origin with
  | relay event => exact ⟨rfl, rfl, rfl, rfl, fun _ => id, by simp [Task.reported]⟩
  | mutation command outcome =>
    cases r with
    | error e => exact ⟨rfl, rfl, rfl, rfl, fun _ => id, by simp [Task.reported]⟩
    | ok report => exact ⟨rfl, rfl, rfl, rfl, fun _ => id, by simp [Task.reported]⟩

/-- A version that reaches the outcome of a mutation is the answer of the store. -/
theorem written_answer {ans : Answer} {v : ℤ}
    (hv : (MutationOutcome.written (writeResult ans)).1.response.sourceVersion = some v) :
    ans = .mutated (.ok (some v)) := by
  obtain ⟨hw, hpos⟩ := App.MutationOutcome.written_version hv
  unfold writeResult at hw
  split at hw
  · rw [Except.ok.inj hw]
  · simp at hw
  · have := Except.ok.inj hw
    omega

theorem call_key {command : MutationCommand} {m : Postgres.Mutation} (h : command.call = some m) :
    m.key = command.key ∧ m.expected = some command.expected := by
  unfold MutationCommand.call at h
  split at h
  · simp at h
  · rw [← Option.some.inj h]
    exact ⟨rfl, rfl⟩
  · rw [← Option.some.inj h]
    exact ⟨rfl, rfl⟩

/-- A version that a conditional write returns is the one it has committed. -/
theorem written_committed {s s' : Store} {command : MutationCommand} {m : Postgres.Mutation} {lost : Bool} {x : Exec}
    {ans : Answer} (hm : command.call = some m) (hst : s.step (.mutate m lost, x) = some (s', ans)) {v : ℤ}
    (hv : (MutationOutcome.written (writeResult ans)).1.response.sourceVersion = some v) :
    0 < v ∧ generation (s'.db.products command.key) = v ∧ s'.db.products command.key = some (m.row v) := by
  obtain rfl := written_answer hv
  obtain ⟨-, -, hrow⟩ := Store.step_version hst
  have hver : (m.row v).version = v := by cases m <;> rfl
  rw [(call_key hm).1] at hrow
  exact ⟨(App.MutationOutcome.written_version hv).2, by rw [hrow]; exact hver, hrow⟩

/-! ### The invariant of the system -/

namespace System

variable [DecidableEq ι] {listener : GoString → Option ι} {s s' : System ι} {a : Action ι} {o : Output ι}

/-- The store as the parts of the system see it. -/
structure Inv (tr : List (SystemEvent ι)) (s : System ι) : Prop where
  events : EventInv (stored tr) s.store
  engine : ∀ n, (s.nodes n).engine.Inv
  bounded : ∀ n, (s.nodes n).engine.Bounded
  versioned : ∀ n, (s.nodes n).engine.group.versioned = true
  committed : ∀ n key, (s.nodes n).engine.committed key = generation (s.store.db.products key)
  tasks : ∀ p t, s.tasks p = some t → t.origin.Committed s.store
  fanouts : ∀ p t b, s.tasks p = some t → t.stage = .fanout b →
    b.key = t.origin.key ∧ b.version = t.origin.version
  sent : ∀ request m, s.sent request = some m → 0 ≤ m.version ∧ m.version ≤ generation (s.store.db.products m.key)

theorem Effects.advances (h : Effects listener s a o s') : Advances s.store s'.store := by
  intro key
  rcases h.store with ⟨hs, -⟩ | ⟨e, -, hst⟩
  · exact Or.inl (by rw [hs])
  · exact Store.step_row hst key

/-- What a SELECT returns is the newest committed version. -/
theorem getVersioned_ok {db : Postgres.Db} {key value : GoString} {version : ℤ}
    (h : db.getVersioned key = .ok (value, version)) : version = generation (db.products key) ∧
      ∃ p, db.products key = some p ∧ p.deleted = false := by
  unfold Postgres.Db.getVersioned at h
  split_ifs at h
  cases hp : db.products key with
  | none => rw [hp] at h; simp at h
  | some p =>
    rw [hp] at h
    dsimp only at h
    cases hd : p.deleted with
    | true => rw [hd] at h; simp at h
    | false =>
      rw [hd] at h
      exact ⟨(Prod.mk.inj (Except.ok.inj h)).2.symm, p, rfl, hd⟩

/-- What a source answers to a flight of the system. -/
theorem Inv.yields {tr : List (SystemEvent ι)} (hI : Inv tr s) {n : ι} {act : Act} (hp : s.Permits a s' n act) :
    (s.nodes n).engine.Yields (fun key v => v = (s.nodes n).engine.committed key) act := by
  rintro f fl attempt fence began seen value raw work work' work'' hfl - rfl
  obtain ⟨-, -, fl', hfl', hans⟩ := hp
  rw [hfl, Option.some.injEq] at hfl'
  subst hfl'
  rcases hans with ⟨e, -, he⟩ | hans
  · simp at he
  · rw [hI.committed]
    exact (getVersioned_ok hans.symm).1

/-- **The source of a node is honest.** -/
theorem Inv.honest {tr : List (SystemEvent ι)} (hI : Inv tr s) {n : ι} {act : Act} (hp : s.Permits a s' n act) :
    (s.nodes n).engine.Honest act := by
  refine ⟨?_, ?_⟩
  · unfold Cache.Engine.Truthful
    split
    · rename_i f value version work work' work''
      split
      · rename_i key name captured attempt fence began seen j hfl
        have hv := hI.yields hp f _ _ _ _ _ _ _ _ _ _ hfl rfl rfl
        rw [hv]
        exact (hI.bounded n).reads f _ _ _ _ _ hfl rfl
      · trivial
    · trivial
  · unfold Cache.Engine.Notifies
    split
    · rename_i key version now now'
      rw [hI.committed]
      obtain ⟨-, -, ⟨p, t, ht, -, rfl, rfl⟩ | ⟨request, sent, group, hs, hr⟩⟩ := hp
      · exact (hI.tasks p t ht).version.2
      · obtain ⟨h0, hle⟩ := hI.sent request sent hs
        rcases route_request (h := (s.nodes n).handler) sent.made h0 with ⟨hok, -⟩ | ⟨resp, herr, -⟩
        · rw [hr] at hok
          simp only [Except.ok.injEq, Prod.mk.injEq] at hok
          rw [hok.2.1, hok.2.2]
          exact hle
        · rw [hr] at herr
          simp at herr
    · trivial

/-- What an engine of the system does is an honest action of its own. -/
theorem Inv.engine_step {tr : List (SystemEvent ι)} (hI : Inv tr s) (hE : Effects listener s a o s') (n : ι) :
    ((s'.nodes n).engine = (s.nodes n).engine ∧ o.engine n = [] ∧
      s'.store.db.products = s.store.db.products) ∨
    ∃ e, o.engine n = [e] ∧ (s.nodes n).engine.honestStep e.1 = some ((s'.nodes n).engine, e.2) ∧
      Moves (s.nodes n).engine e.1 e.2 (s'.nodes n).engine ∧ s.Permits a s' n e.1 := by
  rcases hE.engines n with hno | ⟨e, ho, hst, hp⟩
  · exact Or.inl hno
  · refine Or.inr ⟨e, ho, ?_, Cache.Engine.moves (hI.engine n).wf (hI.engine n).fresh hst, hp⟩
    unfold Cache.Engine.honestStep
    rw [if_pos (hI.honest hp)]
    exact hst

/-- The nodes see the commits of the store. -/
theorem Inv.committed_step {tr : List (SystemEvent ι)} (hI : Inv tr s) (hE : Effects listener s a o s') (n : ι)
    (key : GoString) : (s'.nodes n).engine.committed key = generation (s'.store.db.products key) := by
  have hle := hE.advances.le
  rcases hI.engine_step hE n with ⟨he, -, hprod⟩ | ⟨⟨act, ans⟩, -, hst, hm, hp⟩
  · rw [he, hprod]
    exact hI.committed n key
  · cases act with
    | commit k v =>
      obtain ⟨-, hv, hother⟩ := hp
      have hcom : (s'.nodes n).engine.committed =
          Function.update (s.nodes n).engine.committed k (max ((s.nodes n).engine.committed k) v) := by
        have he := (Cache.Engine.honestStep_eq hst).2
        simp only [Cache.Engine.step, Cache.Engine.act, Option.map_some, Option.some.injEq, Prod.mk.injEq] at he
        rw [← he.1]
      rw [hcom]
      by_cases hk : key = k
      · subst hk
        rw [Function.update_self, hI.committed, hv]
        exact max_eq_right (hle key)
      · rw [Function.update_of_ne hk, hI.committed, hother key hk]
    | invalidate k v now now' => rw [hm.uncommitted (by simp), hI.committed, hp.2.1]
    | readSource f answer work work' work'' => rw [hm.uncommitted (by simp), hI.committed, hp.2.1]
    | _ => rw [hm.uncommitted (by simp), hI.committed, hp.2]

/-- The origin of a task across a transition. -/
theorem Inv.committed_task {tr : List (SystemEvent ι)} (hI : Inv tr s) (hE : Effects listener s a o s') {p : ℕ}
    {t : Task ι} (hst : TaskStep s a o s' p (s.tasks p) t) : t.origin.Committed s'.store := by
  have hadv := hE.advances
  have hold : ∀ n origin stage snap, s.tasks p = some ⟨n, origin, stage, snap⟩ → origin.Committed s'.store :=
    fun _ _ _ _ ht => (hI.tasks p _ ht).mono hadv
  generalize s.tasks p = old at hst hold
  cases hst with
  | begin h =>
    refine ⟨?_, by simp [MutationOutcome.empty]⟩
    rcases h with ⟨-, h0, hle⟩ | ⟨-, h0⟩
    · exact ⟨h0, hle.trans (hadv.le _)⟩
    · rw [h0]
      exact ⟨le_rfl, (hI.events.nonneg _).trans (hadv.le _)⟩
  | write hm ho _ =>
    refine ⟨(hold _ _ _ _ rfl).1, fun v hv => ?_⟩
    rcases hE.store with ⟨-, hnone⟩ | ⟨e, he, hst⟩
    · rw [ho] at hnone
      simp [Output.stored] at hnone
    · rw [ho] at he
      obtain rfl := (List.cons.inj he).1
      obtain ⟨h1, h2, h3⟩ := written_committed hm hst hv
      exact ⟨h1, h2.ge, fun _ => ⟨_, hm, h3⟩⟩
  | @claim n x event _ ho =>
    rcases hE.store with ⟨-, hnone⟩ | ⟨e, he, hst⟩
    · rw [ho] at hnone
      simp [Output.stored] at hnone
    · rw [ho] at he
      obtain rfl := (List.cons.inj he).1
      obtain ⟨-, h1, h2, -⟩ := (hI.events.step hst).claimed _ (List.mem_append_right _ (List.mem_singleton_self _))
        event rfl
      exact ⟨h1, h2⟩
  | ready => exact hold _ _ _ _ rfl
  | unready => exact hold _ _ _ _ rfl
  | notified _ => exact hold _ _ _ _ rfl
  | refused => exact (Task.reported_origin _ _).2.2.2.2.1 _ (hold _ _ _ _ rfl)
  | captured _ => exact hold _ _ _ _ rfl
  | sent _ _ _ _ _ => exact hold _ _ _ _ rfl
  | failed => exact hold _ _ _ _ rfl
  | received _ _ => exact hold _ _ _ _ rfl
  | collected _ => exact (Task.reported_origin _ _).2.2.2.2.1 _ (hold _ _ _ _ rfl)
  | closed => exact hold _ _ _ _ rfl

omit [DecidableEq ι] in
/-- A fan-out is one of its task's key and version. -/
theorem Inv.fanouts_task {tr : List (SystemEvent ι)} (hI : Inv tr s) {p : ℕ} {t : Task ι} {b : Broadcast}
    (hst : TaskStep s a o s' p (s.tasks p) t) (hb : t.stage = .fanout b) :
    b.key = t.origin.key ∧ b.version = t.origin.version := by
  have hold : ∀ n origin b₀ snap, s.tasks p = some ⟨n, origin, .fanout b₀, snap⟩ → ∀ i job,
      (b₀.set i job).key = origin.key ∧ (b₀.set i job).version = origin.version :=
    fun n origin b₀ snap ht _ _ => (hI.fanouts p ⟨n, origin, .fanout b₀, snap⟩ b₀ ht rfl :)
  generalize s.tasks p = old at hst hold
  cases hst with
  | begin h => rcases h with ⟨rfl, -⟩ | ⟨rfl, -⟩ <;> simp at hb
  | write _ _ h => rcases h with rfl | ⟨rfl, -⟩ <;> simp at hb
  | refused => exact absurd hb ((Task.reported_origin _ _).2.2.2.2.2 b)
  | collected _ => exact absurd hb ((Task.reported_origin _ _).2.2.2.2.2 b)
  | captured _ => obtain rfl := Stage.fanout.inj hb; exact ⟨rfl, rfl⟩
  | sent _ _ _ _ _ => obtain rfl := Stage.fanout.inj hb; exact hold _ _ _ _ rfl _ _
  | failed => obtain rfl := Stage.fanout.inj hb; exact hold _ _ _ _ rfl _ _
  | received _ _ => obtain rfl := Stage.fanout.inj hb; exact hold _ _ _ _ rfl _ _
  | _ => simp at hb

/-- A task after an action is one from before, or has just made a transition. -/
theorem Effects.task_cases (hE : Effects listener s a o s') {p : ℕ} {t : Task ι} (ht : s'.tasks p = some t) :
    s.tasks p = some t ∨ TaskStep s a o s' p (s.tasks p) t := by
  rcases hE.tasks with hsame | ⟨p', t', hupd, hst⟩
  · exact Or.inl (hsame ▸ ht)
  · rw [hupd] at ht
    by_cases hp : p = p'
    · subst hp
      rw [Function.update_self, Option.some.injEq] at ht
      exact Or.inr (ht ▸ hst)
    · rw [Function.update_of_ne hp] at ht
      exact Or.inl ht

/-- **Every action keeps the invariant.** -/
theorem Inv.step {tr : List (SystemEvent ι)} (hI : Inv tr s) (hE : Effects listener s a o s') :
    Inv (tr ++ [(a, o)]) s' := by
  have hadv := hE.advances
  refine ⟨?_, fun n => ?_, fun n => ?_, fun n => ?_, hI.committed_step hE, fun p t ht => ?_, fun p t b ht hb => ?_,
    fun request m hm => ?_⟩
  · rw [stored_snoc]
    rcases hE.store with ⟨hs, ho⟩ | ⟨e, ho, hst⟩
    · rw [ho, List.append_nil, hs]
      exact hI.events
    · rw [ho]
      exact hI.events.step hst
  · rcases hI.engine_step hE n with ⟨he, -⟩ | ⟨e, -, -, hm, -⟩
    · rw [he]
      exact hI.engine n
    · exact (hI.engine n).step hm
  · rcases hI.engine_step hE n with ⟨he, -⟩ | ⟨e, -, hst, hm, hp⟩
    · rw [he]
      exact hI.bounded n
    · exact (hI.bounded n).step (hI.engine n) hm (hI.versioned n)
        (fun f fl attempt fence began seen value raw work work' work'' h1 h2 h3 =>
          (hI.yields hp f fl attempt fence began seen value raw work work' work'' h1 h2 h3).le)
        (Cache.Engine.honestStep_eq hst).1.2
  · rcases hI.engine_step hE n with ⟨he, -⟩ | ⟨e, -, -, hm, -⟩
    · rw [he]
      exact hI.versioned n
    · exact hm.group.versioned.trans (hI.versioned n)
  · rcases hE.task_cases ht with hold | hst
    · exact (hI.tasks p t hold).mono hadv
    · exact hI.committed_task hE hst
  · rcases hE.task_cases ht with hold | hst
    · exact hI.fanouts p t b hold hb
    · exact hI.fanouts_task hst hb
  · rcases hE.sent with ⟨hs, -⟩ | ⟨sent, p, n, origin, b, snap, hs, -, ht, hk, hv⟩
    · rw [hs] at hm
      obtain ⟨h0, hle⟩ := hI.sent request m hm
      exact ⟨h0, hle.trans (hadv.le _)⟩
    · rw [hs] at hm
      by_cases hr : request = s.next
      · subst hr
        rw [Function.update_self, Option.some.injEq] at hm
        subst hm
        obtain ⟨hbk, hbv⟩ := hI.fanouts p _ b ht rfl
        obtain ⟨h0, hle⟩ := (hI.tasks p _ ht).version
        rw [hv, hk, hbk, hbv]
        exact ⟨h0, hle.trans (hadv.le _)⟩
      · rw [Function.update_of_ne hr] at hm
        obtain ⟨h0, hle⟩ := hI.sent request m hm
        exact ⟨h0, hle.trans (hadv.le _)⟩

/-! ### Runs of the system, of the nodes and of the store -/

/-- Groups as `NewGroup` makes them over a versioned source. -/
def Groups (groups : ι → Cache.Group) : Prop :=
  ∀ n, ∃ name capacity bloom opts, Cache.newGroup name capacity true bloom opts = some (groups n)

omit [DecidableEq ι] in
theorem inv_init {clock : ℤ} {groups : ι → Cache.Group} {selfID token : ι → GoString} (hg : Groups groups) :
    Inv [] (init clock groups selfID token) where
  events := Postgres.eventInv_init clock
  engine n := by
    obtain ⟨name, capacity, bloom, opts, h⟩ := hg n
    exact Cache.Engine.inv_init h
  bounded n := by
    obtain ⟨name, capacity, bloom, opts, h⟩ := hg n
    exact Cache.Engine.bounded_init h
  versioned n := by
    obtain ⟨name, capacity, bloom, opts, h⟩ := hg n
    exact Cache.Engine.newGroup_versioned h
  committed _ _ := rfl
  tasks := by simp [init]
  fanouts := by simp [init]
  sent := by simp [init]

theorem inv_run {tr₀ tr : List (SystemEvent ι)} {s₀ : System ι} (hI : Inv tr₀ s₀) (h : Run (step listener) s₀ tr s) :
    Inv (tr₀ ++ tr) s := by
  refine h.rec_inv (I := fun tr s => Inv (tr₀ ++ tr) s) (by simpa using hI) fun tr s a o s' _ ih hst => ?_
  rw [← List.append_assoc]
  exact ih.step (effects hst)

/-- The run of the store. -/
theorem store_run {tr : List (SystemEvent ι)} {s₀ : System ι} (h : Run (step listener) s₀ tr s) :
    Run Store.step s₀.store (stored tr) s.store :=
  h.project (f := System.store) fun _ _ _ _ _ _ _ _ hst _ => (effects hst).store

/-- **The run of a node.** -/
theorem engine_run {tr₀ tr : List (SystemEvent ι)} {s₀ : System ι} (hI : Inv tr₀ s₀)
    (h : Run (step listener) s₀ tr s) (n : ι) :
    Run Cache.Engine.honestStep (s₀.nodes n).engine (engineOf n tr) (s.nodes n).engine := by
  refine h.project (f := fun s => (s.nodes n).engine) fun tr₁ s₁ a o s₂ tr₂ _ hr hst _ => ?_
  rcases (inv_run hI hr).engine_step (effects hst) n with ⟨he, ho, -⟩ | ⟨e, ho, hst', -⟩
  · exact Or.inl ⟨he, ho⟩
  · exact Or.inr ⟨e, ho, hst'⟩

end System

end SimpleCache.Cluster
