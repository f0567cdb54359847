import SimpleCache.Cache.Contents
import SimpleCache.Cluster.Reads

/-!
# Cluster.Contents — every value that is read was written, once

A value in a group comes from a SELECT, which reads a row that the store holds.  Rows change only together with their
generation, so a version names one row, and that row was committed by one mutation (`commitsAt_unique`).  Whatever
node a Get goes to and however its value got there, the bytes it returns under a version are those of the mutation that
committed the version (`reads_trace_to_writes`), and a version with which a mutation is acknowledged stands for the body
of that request and of no other (`acknowledged_version`).
-/

namespace SimpleCache.Cluster

open SimpleCache.Lib
open Cache.Engine (Act Contents Moves)
open Postgres (Store Call Exec Answer StoreEvent Mutation Product generation)
open App (MutationCommand MutationOutcome MutationKind MutationResponse)

namespace System

variable {ι : Type} [DecidableEq ι]

/-! ### Rows and the mutations that wrote them -/

/-- The store has held `row` under the key. -/
def Held (listener : GoString → Option ι) (s₀ : System ι) (tr : List (SystemEvent ι)) (key : GoString)
    (row : Product) : Prop :=
  ∃ tr₁ tr₂ s₁, tr = tr₁ ++ tr₂ ∧ Run (step listener) s₀ tr₁ s₁ ∧ s₁.store.db.products key = some row

/-- An action of the system that commits `m` as version `v` of its key. -/
structure Commits (s : System ι) (o : Output ι) (s' : System ι) (m : Mutation) (v : ℤ) : Prop where
  call : ∃ lost x ans, o.stored = [((.mutate m lost, x), ans)]
  accepts : m.Accepts (s.store.db.products m.key)
  before : generation (s.store.db.products m.key) + 1 = v
  row : s'.store.db.products m.key = some (m.row v)

/-- The event `e` after the run `tr₁` commits `m` as version `v` of its key. -/
def CommitsAt (listener : GoString → Option ι) (s₀ : System ι) (tr₁ : List (SystemEvent ι)) (e : SystemEvent ι)
    (m : Mutation) (v : ℤ) : Prop :=
  ∃ s₁ s₂, Run (step listener) s₀ tr₁ s₁ ∧ s₁.step listener e.1 = some (s₂, e.2) ∧ Commits s₁ e.2 s₂ m v

/-- The mutation `m` was committed as version `v` of its key. -/
def CommittedAs (listener : GoString → Option ι) (s₀ : System ι) (tr : List (SystemEvent ι)) (m : Mutation) (v : ℤ) :
    Prop :=
  ∃ tr₁ e tr₂, tr = tr₁ ++ e :: tr₂ ∧ CommitsAt listener s₀ tr₁ e m v

section Rows

variable {listener : GoString → Option ι} {s₀ s s' : System ι} {tr : List (SystemEvent ι)} {a : Action ι}
  {o : Output ι} {key : GoString} {row row' : Product} {m m' : Mutation} {v : ℤ}

theorem Held.mono (h : Held listener s₀ tr key row) (tr' : List (SystemEvent ι)) :
    Held listener s₀ (tr ++ tr') key row := by
  obtain ⟨tr₁, tr₂, s₁, rfl, hr, hrow⟩ := h
  exact ⟨tr₁, tr₂ ++ tr', s₁, List.append_assoc _ _ _, hr, hrow⟩

theorem held_now (h : Run (step listener) s₀ tr s) (hrow : s.store.db.products key = some row) :
    Held listener s₀ tr key row :=
  ⟨tr, [], s, (List.append_nil _).symm, h, hrow⟩

/-- A row that was held is not newer than the row there is now. -/
theorem Held.version_le (h : Held listener s₀ tr key row) (hr : Run (step listener) s₀ tr s)
    (hrow : s.store.db.products key = some row') : row.version ≤ row'.version := by
  obtain ⟨tr₁, tr₂, s₁, rfl, hr₁, hrow₁⟩ := h
  obtain ⟨s₁', hr₁', hr₂⟩ := hr.split
  obtain rfl := hr₁.det hr₁'
  have hle := (advances_run hr₂).le key
  rwa [hrow₁, hrow] at hle

/-- Rows of one key and one version are one row. -/
theorem Held.unique (h : Held listener s₀ tr key row) (h' : Held listener s₀ tr key row')
    (hv : row.version = row'.version) : row = row' := by
  obtain ⟨tr₁, tr₂, s₁, rfl, hr, hrow⟩ := h
  obtain ⟨tr₁', tr₂', s₁', heq, hr', hrow'⟩ := h'
  have hgen : generation (s₁.store.db.products key) = generation (s₁'.store.db.products key) := by
    rw [hrow, hrow']
    exact hv
  have hsame : s₁.store.db.products key = s₁'.store.db.products key := by
    rcases hr.comparable hr' heq with ⟨q, hq⟩ | ⟨q, hq⟩
    · rcases advances_run hq key with he | hlt
      · exact he.symm
      · omega
    · rcases advances_run hq key with he | hlt
      · exact he
      · omega
  rw [hrow, hrow', Option.some.injEq] at hsame
  exact hsame

theorem CommittedAs.mono (h : CommittedAs listener s₀ tr m v) (tr' : List (SystemEvent ι)) :
    CommittedAs listener s₀ (tr ++ tr') m v := by
  obtain ⟨tr₁, e, tr₂, rfl, hc⟩ := h
  exact ⟨tr₁, e, tr₂ ++ tr', by simp, hc⟩

/-- A step that changes a row commits a mutation of its key. -/
theorem commits_of_change (hst : s.step listener a = some (s', o)) (hrow : s'.store.db.products key = some row)
    (hne : s.store.db.products key ≠ some row) : ∃ m, Commits s o s' m row.version ∧ m.key = key ∧
      m.row row.version = row := by
  rcases (effects hst).store with ⟨hs, -⟩ | ⟨⟨⟨c, x⟩, ans⟩, ho, hstore⟩
  · rw [hs] at hrow
    exact absurd hrow hne
  rcases Store.step_products hstore with ⟨m, lost, hm, hcom, hdb, -⟩ | ⟨hprod, -⟩
  · simp only at hm
    subst hm
    by_cases hk : key = m.key
    · subst hk
      have hnew : s'.store.db.products m.key = some (m.row (generation (s.store.db.products m.key) + 1)) := by
        rw [hdb]
        exact Function.update_self _ _ _
      rw [hrow, Option.some.injEq] at hnew
      have hver : ∀ v, (m.row v).version = v := fun v => by cases m <;> rfl
      have hgen : row.version = generation (s.store.db.products m.key) + 1 := by rw [hnew, hver]
      refine ⟨m, ⟨⟨lost, x, ans, ho⟩, hcom.2.2.1, hgen.symm, ?_⟩, rfl, ?_⟩
      · rw [hgen, hrow, hnew]
      · rw [hgen]
        exact hnew.symm
    · have hold : s'.store.db.products key = s.store.db.products key := by
        rw [hdb]
        exact Function.update_of_ne hk _ _
      rw [hold] at hrow
      exact absurd hrow hne
  · rw [hprod] at hrow
    exact absurd hrow hne

/-- A row that was held was committed by a mutation. -/
theorem Held.written (h0 : s₀.store.db.products key = none) (h : Held listener s₀ tr key row) :
    ∃ m, CommittedAs listener s₀ tr m row.version ∧ m.key = key ∧ m.row row.version = row := by
  obtain ⟨tr₁, tr₂, s₁, rfl, hr, hrow⟩ := h
  obtain ⟨q₁, t, a, o, t', q₂, rfl, hr₁, hst, -, hne, hnew⟩ :=
    hr.crossing (P := fun s => s.store.db.products key = some row) (by rw [h0]; simp) hrow
  obtain ⟨m, hc, hk, hm⟩ := commits_of_change hst hnew hne
  exact ⟨m, CommittedAs.mono ⟨q₁, (a, o), q₂, rfl, t, t', hr₁, hst, hc⟩ tr₂, hk, hm⟩

omit [DecidableEq ι] in
/-- The generation after a commit. -/
theorem Commits.after (h : Commits s o s' m v) : generation (s'.store.db.products m.key) = v := by
  rw [h.row]
  cases m <;> rfl

/-- Two commits of one version of a key on a run are one event. -/
theorem commits_once {tr₁ tr₂ tr₁' tr₂' : List (SystemEvent ι)} {a' : Action ι} {o' : Output ι} {t t' : System ι}
    (h : Run (step listener) s₀ tr₁ s) (hst : s.step listener a = some (t, o)) (hc : Commits s o t m v)
    (h' : Run (step listener) s₀ tr₁' s') (hst' : s'.step listener a' = some (t', o')) (hc' : Commits s' o' t' m' v)
    (hkey : m.key = m'.key) (heq : tr₁ ++ (a, o) :: tr₂ = tr₁' ++ (a', o') :: tr₂') :
    tr₁ = tr₁' ∧ s = s' ∧ t = t' ∧ a = a' ∧ o = o' := by
  rcases h.events_comparable hst h' hst' heq with hsame | ⟨q, hq⟩ | ⟨q, hq⟩
  · exact hsame
  · have hle := (advances_run hq).le m.key
    rw [hc.after] at hle
    have := hc'.before
    rw [← hkey] at this
    omega
  · have hle := (advances_run hq).le m'.key
    rw [hc'.after] at hle
    have := hc.before
    rw [hkey] at this
    omega

/-- **A version of a key is committed once**, by one mutation and in one event. -/
theorem commitsAt_unique {tr₁ tr₂ tr₁' tr₂' : List (SystemEvent ι)} {e e' : SystemEvent ι}
    (h : CommitsAt listener s₀ tr₁ e m v) (h' : CommitsAt listener s₀ tr₁' e' m' v) (hkey : m.key = m'.key)
    (heq : tr₁ ++ e :: tr₂ = tr₁' ++ e' :: tr₂') : m = m' ∧ tr₁ = tr₁' := by
  obtain ⟨s₁, s₂, hr, hst, hc⟩ := h
  obtain ⟨s₁', s₂', hr', hst', hc'⟩ := h'
  obtain ⟨htr, -, -, -, ho⟩ := commits_once hr hst hc hr' hst' hc' hkey heq
  obtain ⟨lost, x, ans, hcall⟩ := hc.call
  obtain ⟨lost', x', ans', hcall'⟩ := hc'.call
  rw [ho, hcall'] at hcall
  simp only [List.cons.injEq, Prod.mk.injEq, Call.mutate.injEq, and_true] at hcall
  exact ⟨hcall.1.1.1.symm, htr⟩

theorem committedAs_unique (h : CommittedAs listener s₀ tr m v) (h' : CommittedAs listener s₀ tr m' v)
    (hkey : m.key = m'.key) : m = m' := by
  obtain ⟨tr₁, e, tr₂, rfl, hc⟩ := h
  obtain ⟨tr₁', e', tr₂', heq, hc'⟩ := h'
  exact (commitsAt_unique hc hc' hkey heq).1

end Rows

/-! ### What the nodes hold and return -/

/-- What a SELECT answers is a live row. -/
theorem getVersioned_row {db : Postgres.Db} {key value : GoString} {version : ℤ}
    (h : db.getVersioned key = .ok (value, version)) : db.products key = some ⟨value, version, false⟩ := by
  unfold Postgres.Db.getVersioned at h
  split_ifs at h
  cases hp : db.products key with
  | none => rw [hp] at h; simp at h
  | some p =>
    rw [hp] at h
    dsimp only at h
    cases hd : p.deleted with
    | true => rw [hd] at h; simp at h
    | false =>
      rw [hd] at h
      obtain ⟨rfl, rfl⟩ := Prod.mk.inj (Except.ok.inj h)
      rw [← hd]

/-- The bytes and the version are those of a live row that the store has held under the key. -/
def Read (listener : GoString → Option ι) (s₀ : System ι) (tr : List (SystemEvent ι)) (key value : GoString) (v : ℤ) :
    Prop :=
  Held listener s₀ tr key ⟨value, v, false⟩

/-- Everything that the nodes hold and return was read. -/
structure Traced (listener : GoString → Option ι) (s₀ : System ι) (tr : List (SystemEvent ι)) (s : System ι) :
    Prop where
  contents : ∀ n, Contents (Read listener s₀ tr) (s.nodes n).engine
  gets : ∀ n c key o, (.get c key, o) ∈ engineOf n tr →
    ∃ call, (s.nodes n).engine.calls c = some call ∧ call.key = key
  returns : ∀ n c a view, (a, .returned c (.ok view)) ∈ engineOf n tr →
    ∃ call, (s.nodes n).engine.calls c = some call ∧ Read listener s₀ tr call.key view.b view.version

section Trace

variable {listener : GoString → Option ι} {s₀ s s' : System ι} {tr : List (SystemEvent ι)} {a : Action ι}
  {o : Output ι}

/-- What a source answers to a flight of the system is a row that it holds. -/
theorem supplies (hr : Run (step listener) s₀ tr s) {n : ι} {act : Act} (hp : s.Permits a s' n act) :
    (s.nodes n).engine.Supplies (Read listener s₀ tr) act := by
  rintro f fl attempt fence began seen value raw work work' work'' hfl - rfl
  obtain ⟨-, -, fl', hfl', hans⟩ := hp
  rw [hfl, Option.some.injEq] at hfl'
  subst hfl'
  rcases hans with ⟨e, -, he⟩ | hans
  · simp at he
  · exact held_now hr (getVersioned_row hans.symm)

theorem Traced.step (hT : Traced listener s₀ tr s) (hI : Inv tr s) (hr : Run (System.step listener) s₀ tr s)
    (hst : s.step listener a = some (s', o)) : Traced listener s₀ (tr ++ [(a, o)]) s' := by
  have hmono : ∀ key value v, Read listener s₀ tr key value v → Read listener s₀ (tr ++ [(a, o)]) key value v :=
    fun _ _ _ h => Held.mono h _
  have hsnoc : ∀ n, engineOf n (tr ++ [(a, o)]) = engineOf n tr ++ o.engine n := fun n => by
    rw [engineOf_append, engineOf_cons]
    simp [engineOf]
  -- one node at a time: it is left alone, or its engine makes one move
  have hnode : ∀ n, ((s'.nodes n).engine = (s.nodes n).engine ∧ o.engine n = []) ∨
      ∃ e, o.engine n = [e] ∧ (s.nodes n).engine.step e.1 = some ((s'.nodes n).engine, e.2) ∧
        Moves (s.nodes n).engine e.1 e.2 (s'.nodes n).engine ∧ s.Permits a s' n e.1 := by
    intro n
    rcases hI.engine_step (effects hst) n with ⟨h1, h2, -⟩ | ⟨e, h1, h2, h3, h4⟩
    · exact Or.inl ⟨h1, h2⟩
    · exact Or.inr ⟨e, h1, (Cache.Engine.honestStep_eq h2).2, h3, h4⟩
  -- a call keeps its key
  have hkeep : ∀ n c call, (s.nodes n).engine.calls c = some call →
      ∃ call', (s'.nodes n).engine.calls c = some call' ∧ call'.key = call.key := by
    intro n c call hc
    rcases hnode n with ⟨he, -⟩ | ⟨e, -, -, hm, -⟩
    · exact ⟨call, by rw [he]; exact hc, rfl⟩
    · obtain ⟨call', h1, h2, -⟩ := hm.keep c call hc
      exact ⟨call', h1, h2⟩
  refine ⟨fun n => ?_, fun n c key ans hget => ?_, fun n c act view hret => ?_⟩
  · rcases hnode n with ⟨he, -⟩ | ⟨e, -, hst', -, hp⟩
    · rw [he]
      exact (hT.contents n).mono hmono
    · exact ((hT.contents n).step (hI.engine n) (hI.versioned n) hst' (supplies hr hp)).mono hmono
  · rw [hsnoc] at hget
    rcases List.mem_append.mp hget with hold | hnew
    · obtain ⟨call, hc, rfl⟩ := hT.gets n c key ans hold
      exact hkeep n c call hc
    · rcases hnode n with ⟨-, ho⟩ | ⟨e, ho, -, hm, -⟩
      · rw [ho] at hnew
        simp at hnew
      · rw [ho, List.mem_singleton] at hnew
        subst hnew
        exact (hm.begun c key rfl).2
  · rw [hsnoc] at hret
    rcases List.mem_append.mp hret with hold | hnew
    · obtain ⟨call, hc, hread⟩ := hT.returns n c act view hold
      obtain ⟨call', hc', hk⟩ := hkeep n c call hc
      exact ⟨call', hc', by rw [hk]; exact hmono _ _ _ hread⟩
    · rcases hnode n with ⟨-, ho⟩ | ⟨e, ho, -, hm, -⟩
      · rw [ho] at hnew
        simp at hnew
      · rw [ho, List.mem_singleton] at hnew
        subst hnew
        obtain ⟨call, hc, hread⟩ := (hT.contents n).answered (hI.engine n) hm rfl
        obtain ⟨call', hc', hk⟩ := hkeep n c call hc
        exact ⟨call', hc', by rw [hk]; exact hmono _ _ _ hread⟩

theorem traced_run {clock : ℤ} {groups : ι → Cache.Group} {selfID token : ι → GoString} (hg : Groups groups)
    (h : Run (System.step listener) (init clock groups selfID token) tr s) :
    Traced listener (init clock groups selfID token) tr s := by
  refine (h.rec_inv (I := fun tr s => Inv tr s ∧ Traced listener (init clock groups selfID token) tr s)
    ⟨inv_init hg, fun n => ?_, by simp [engineOf], by simp [engineOf]⟩
    fun tr s a o s' hr ⟨hI, hT⟩ hst => ⟨hI.step (effects hst), hT.step hI hr hst⟩).2
  obtain ⟨name, capacity, bloom, opts, hn⟩ := hg n
  exact Cache.Engine.contents_init hn

/-- What a Get of `key` returned was read under `key`. -/
theorem Traced.get (hT : Traced listener s₀ tr s) {n : ι} {c : ℕ} {key : GoString} {ans : Cache.Engine.Ans} {act : Act}
    {view : Cache.ByteView} (hget : (.get c key, ans) ∈ engineOf n tr)
    (hret : (act, .returned c (.ok view)) ∈ engineOf n tr) : Read listener s₀ tr key view.b view.version := by
  obtain ⟨call, hc, rfl⟩ := hT.gets n c key ans hget
  obtain ⟨call', hc', hread⟩ := hT.returns n c act view hret
  rw [hc, Option.some.injEq] at hc'
  rwa [hc']

end Trace

/-- **Reads trace to writes.**  In every run, whatever value a Get of `key` returns at a node, its version was committed
by one mutation of the key and in one event of the run, and the bytes are the ones that mutation wrote.  So a Get that
returns the same version, at whatever node, returns the same bytes: an ETag stands for one content. -/
theorem reads_trace_to_writes {listener : GoString → Option ι} {clock : ℤ} {groups : ι → Cache.Group}
    {selfID token : ι → GoString} (hg : Groups groups) {tr : List (SystemEvent ι)} {s : System ι}
    (h : Run (System.step listener) (init clock groups selfID token) tr s) {n : ι} {c : ℕ} {key : GoString}
    {ans : Cache.Engine.Ans} {act : Act} {view : Cache.ByteView} (hget : (.get c key, ans) ∈ engineOf n tr)
    (hret : (act, .returned c (.ok view)) ∈ engineOf n tr) :
    (∃ m tr₁ e tr₂, tr = tr₁ ++ e :: tr₂ ∧
      CommitsAt listener (init clock groups selfID token) tr₁ e m view.version ∧ m.key = key ∧
      m.row view.version = ⟨view.b, view.version, false⟩ ∧
      ∀ m' tr₁' e' tr₂', tr = tr₁' ++ e' :: tr₂' →
        CommitsAt listener (init clock groups selfID token) tr₁' e' m' view.version → m'.key = key →
        m' = m ∧ tr₁' = tr₁) ∧
    ∀ n' c' ans' act' view', (.get c' key, ans') ∈ engineOf n' tr → (act', .returned c' (.ok view')) ∈ engineOf n' tr →
      view'.version = view.version → view'.b = view.b := by
  have hT := traced_run hg h
  have hread := hT.get hget hret
  refine ⟨?_, fun n' c' ans' act' view' hget' hret' hv => ?_⟩
  · obtain ⟨m, ⟨tr₁, e, tr₂, heq, hc⟩, hk, hrow⟩ := Held.written (by rfl) hread
    exact ⟨m, tr₁, e, tr₂, heq, hc, hk, hrow, fun m' tr₁' e' tr₂' heq' hc' hk' =>
      commitsAt_unique hc' hc (hk'.trans hk.symm) (heq'.symm.trans heq)⟩
  · exact congrArg Product.value ((hT.get hget' hret').unique hread hv)

theorem acknowledged_gets : (.get 0 [107], .quiet) ∈ engineOf true acknowledgedTrace ∧
    (.await 0 none, .returned 0 (.ok ⟨[118], some 60000000000, 1, 8⟩)) ∈ engineOf true acknowledgedTrace :=
  ⟨List.mem_of_getElem? (i := 2) rfl, List.mem_of_getElem? (i := 12) rfl⟩

/-- The value that the second node returns is the one of the PUT at the first. -/
theorem reads_trace_to_writes_acknowledged : ∃ s view, Run (System.step listening) twoNodes acknowledgedTrace s ∧
    (.await 0 none, .returned 0 (.ok view)) ∈ engineOf true acknowledgedTrace ∧
    ∃ m tr₁ e tr₂, acknowledgedTrace = tr₁ ++ e :: tr₂ ∧ CommitsAt listening twoNodes tr₁ e m 1 ∧ m.key = [107] ∧
      m.row 1 = ⟨[118], 1, false⟩ := by
  have hrun : Run (System.step listening) twoNodes acknowledgedTrace _ := exec_get acknowledged_isSome
  obtain ⟨⟨m, tr₁, e, tr₂, heq, hc, hk, hrow, -⟩, -⟩ :=
    reads_trace_to_writes groups_twoNodes hrun acknowledged_gets.1 acknowledged_gets.2
  exact ⟨_, _, hrun, acknowledged_gets.2, m, tr₁, e, tr₂, heq, hc, hk, hrow⟩

/-! ### Acknowledged versions -/

end System

/-- The command of a mutation with the version that its write has returned. -/
def Origin.wrote : Origin → Option (MutationCommand × ℤ)
  | .mutation command outcome => outcome.response.sourceVersion.map fun v => (command, v)
  | .relay _ => none

theorem Task.reported_wrote {ι : Type} (t : Task ι) (r : Except Err InvalidationReport) :
    (t.reported r).origin.wrote = t.origin.wrote := by
  obtain ⟨n, origin, stage, snap⟩ := t
  cases origin with
  | relay event => rfl
  | mutation command outcome => cases r <;> rfl

namespace System

variable {ι : Type} [DecidableEq ι]

/-- The write of the task `p` committed version `v` for its command. -/
def WroteAs (listener : GoString → Option ι) (s₀ : System ι) (tr : List (SystemEvent ι)) (p : ℕ)
    (command : MutationCommand) (v : ℤ) : Prop :=
  ∃ tr₁ a o tr₂ s₁ s₂ m, tr = tr₁ ++ (a, o) :: tr₂ ∧ Run (step listener) s₀ tr₁ s₁ ∧
    s₁.step listener a = some (s₂, o) ∧ Commits s₁ o s₂ m v ∧ command.call = some m ∧ s₂.tasks p ≠ s₁.tasks p

section Tasks

variable {listener : GoString → Option ι} {s₀ s s' : System ι} {tr : List (SystemEvent ι)} {a : Action ι}
  {o : Output ι} {p : ℕ} {command : MutationCommand} {v : ℤ}

theorem WroteAs.mono (h : WroteAs listener s₀ tr p command v) (tr' : List (SystemEvent ι)) :
    WroteAs listener s₀ (tr ++ tr') p command v := by
  obtain ⟨tr₁, a, o, tr₂, s₁, s₂, m, rfl, hrest⟩ := h
  exact ⟨tr₁, a, o, tr₂ ++ tr', s₁, s₂, m, by simp, hrest⟩

theorem WroteAs.committed (h : WroteAs listener s₀ tr p command v) :
    ∃ m, CommittedAs listener s₀ tr m v ∧ command.call = some m := by
  obtain ⟨tr₁, a, o, tr₂, s₁, s₂, m, heq, hr, hst, hc, hm, -⟩ := h
  exact ⟨m, ⟨tr₁, (a, o), tr₂, heq, s₁, s₂, hr, hst, hc⟩, hm⟩

omit [DecidableEq ι] in
/-- Where the version in an outcome comes from: it was there, or the write has just returned it. -/
theorem TaskStep.wrote {old : Option (Task ι)} {t : Task ι} (hst : TaskStep s a o s' p old t)
    (hw : t.origin.wrote = some (command, v)) :
    (∃ t₀, old = some t₀ ∧ t₀.origin.wrote = some (command, v)) ∨
    (old ≠ some t ∧ ∃ m lost x commit, command.call = some m ∧
      o = .store ((.mutate m lost, x), .mutated (.ok (some v))) commit) := by
  cases hst with
  | begin _ => simp [Origin.wrote, MutationOutcome.empty] at hw
  | @write n command' outcome snap m lost x ans commit stage hm ho hstage =>
    obtain ⟨v', hv, he⟩ := Option.map_eq_some_iff.mp hw
    obtain ⟨rfl, rfl⟩ := Prod.mk.inj he
    obtain rfl := written_answer hv
    refine Or.inr ⟨fun hsame => ?_, m, lost, x, commit, hm, ho⟩
    have := congrArg Task.stage (Option.some.inj hsame)
    rcases hstage with rfl | ⟨rfl, -⟩ <;> simp at this
  | claim _ _ => simp [Origin.wrote] at hw
  | refused => exact Or.inl ⟨_, rfl, (Task.reported_wrote _ _).symm.trans hw⟩
  | collected _ => exact Or.inl ⟨_, rfl, (Task.reported_wrote _ _).symm.trans hw⟩
  | ready => exact Or.inl ⟨_, rfl, hw⟩
  | unready => exact Or.inl ⟨_, rfl, hw⟩
  | notified _ => exact Or.inl ⟨_, rfl, hw⟩
  | captured _ => exact Or.inl ⟨_, rfl, hw⟩
  | sent _ _ _ _ _ => exact Or.inl ⟨_, rfl, hw⟩
  | failed => exact Or.inl ⟨_, rfl, hw⟩
  | received _ _ => exact Or.inl ⟨_, rfl, hw⟩
  | closed => exact Or.inl ⟨_, rfl, hw⟩

/-- A store call that returns a version commits it. -/
theorem commits_of_answer (hst : s.step listener a = some (s', o)) {m : Mutation}
    {lost : Bool} {x : Exec} {commit : Option (GoString × ℤ)}
    (ho : o = .store ((.mutate m lost, x), .mutated (.ok (some v))) commit) :
    Commits s o s' m v := by
  rcases (effects hst).store with ⟨-, hnone⟩ | ⟨e, he, hstore⟩
  · rw [ho] at hnone
    simp [Output.stored] at hnone
  have hcall : o.stored = [((.mutate m lost, x), .mutated (.ok (some v)))] := by rw [ho]; rfl
  rw [hcall] at he
  obtain rfl := (List.cons.inj he).1
  obtain ⟨hcom, hgen, hrow⟩ := Store.step_version hstore
  exact ⟨⟨lost, x, _, hcall⟩, hcom.2.2.1, hgen, hrow⟩

/-- Every version in the outcome of a mutation was committed by its own write. -/
theorem wroteAs_run (h : Run (System.step listener) s₀ tr s) (h0 : ∀ p, s₀.tasks p = none) :
    ∀ p t command v, s.tasks p = some t → t.origin.wrote = some (command, v) →
      WroteAs listener s₀ tr p command v := by
  refine h.rec_inv (I := fun tr s => ∀ p t command v, s.tasks p = some t → t.origin.wrote = some (command, v) →
    WroteAs listener s₀ tr p command v) (fun p t _ _ ht => by rw [h0] at ht; simp at ht) ?_
  intro tr s a o s' hr ih hst p t command v ht hw
  rcases (effects hst).task_cases ht with hold | hstep
  · exact (ih p t command v hold hw).mono _
  · rcases hstep.wrote hw with ⟨t₀, h₀, hw₀⟩ | ⟨hne, m, lost, x, commit, hm, ho⟩
    · exact (ih p t₀ command v h₀ hw₀).mono _
    · exact ⟨tr, a, o, [], s, s', m, rfl, hr, hst, commits_of_answer hst ho, hm, by rw [ht]; exact hne.symm⟩

/-- The version that a mutation is answered with was committed before, by its own write. -/
theorem wroteAs_answer (h : Run (System.step listener) s₀ tr s) (h0 : ∀ p, s₀.tasks p = none) {n : ι} {status : ℕ}
    {response : MutationResponse} (hst : s.step listener a = some (s', .responded p n command status response))
    (hv : response.sourceVersion = some v) : WroteAs listener s₀ tr p command v := by
  obtain ⟨outcome, snap, ht, -, rfl⟩ := (effects hst).responded _ _ _ _ _ rfl
  exact wroteAs_run h h0 p _ command v ht (by simp [Origin.wrote, hv])

theorem wroteAs_responded (h : Run (System.step listener) s₀ tr s) (h0 : ∀ p, s₀.tasks p = none) {n : ι} {status : ℕ}
    {response : MutationResponse} (hmem : (a, .responded p n command status response) ∈ tr)
    (hv : response.sourceVersion = some v) : WroteAs listener s₀ tr p command v := by
  obtain ⟨tr₁, tr₂, rfl⟩ := List.append_of_mem hmem
  obtain ⟨s₁, s₂, h₁, hst, -⟩ := h.cut
  exact (wroteAs_answer h₁ h0 hst hv).mono _

/-- One version of a key is written by one task. -/
theorem WroteAs.unique {p' : ℕ} {command' : MutationCommand} (h : WroteAs listener s₀ tr p command v)
    (h' : WroteAs listener s₀ tr p' command' v) (hkey : command.key = command'.key) : p = p' := by
  obtain ⟨tr₁, a, o, tr₂, s₁, s₂, m, rfl, hr, hst, hc, hm, hp⟩ := h
  obtain ⟨tr₁', a', o', tr₂', s₁', s₂', m', heq, hr', hst', hc', hm', hp'⟩ := h'
  obtain ⟨-, rfl, rfl, rfl, rfl⟩ := commits_once hr hst hc hr' hst' hc'
    (by rw [(call_key hm).1, (call_key hm').1, hkey]) heq
  -- the one event moves one task
  rcases (effects hst).tasks with hsame | ⟨q, t, hupd, -⟩
  · exact absurd (congrFun hsame p) hp
  · have heq : ∀ p, s₂.tasks p ≠ s₁.tasks p → p = q := by
      intro p hne
      by_contra hpq
      rw [hupd, Function.update_of_ne hpq] at hne
      exact hne rfl
    exact (heq p hp).trans (heq p' hp').symm

end Tasks

/-- **An acknowledged version belongs to one request.**  Whenever a mutation is answered with a source version `v`, on
any run: a conditional write on version `e > 0` got `v = e + 1`; no other request on the key was ever answered with
`v`, so of any number of requests that expect the same version at most one is acknowledged; a Get that returns version
`v` of the key, at whatever node, before or after the answer, returns the body of this request; and if the request was
a DELETE, no Get returns version `v` at all. -/
theorem acknowledged_version {listener : GoString → Option ι} {clock : ℤ} {groups : ι → Cache.Group}
    {selfID token : ι → GoString} (hg : Groups groups) {tr : List (SystemEvent ι)} {s : System ι}
    (h : Run (System.step listener) (init clock groups selfID token) tr s) {a : Action ι} {p : ℕ} {n : ι}
    {command : MutationCommand} {status : ℕ} {response : MutationResponse} {v : ℤ}
    (hmem : (a, .responded p n command status response) ∈ tr) (hv : response.sourceVersion = some v) :
    (0 < command.expected → v = command.expected + 1) ∧
    (∀ a' p' n' command' status' response', (a', .responded p' n' command' status' response') ∈ tr →
      response'.sourceVersion = some v → command'.key = command.key → p' = p) ∧
    ∀ n' c ans act view, (.get c command.key, ans) ∈ engineOf n' tr → (act, .returned c (.ok view)) ∈ engineOf n' tr →
      view.version = v → command.kind = .put ∧ view.b = command.value := by
  have hown := wroteAs_responded h (fun _ => rfl) hmem hv
  obtain ⟨m, hc, hm⟩ := hown.committed
  obtain ⟨hkey, hexp⟩ := call_key hm
  refine ⟨fun hpos => ?_, fun a' p' n' command' status' response' hmem' hv' hk => ?_, ?_⟩
  · obtain ⟨tr₁, e, tr₂, -, s₁, s₂, -, -, hcom⟩ := hc
    rw [← hcom.before, Postgres.accepts_generation hcom.accepts hexp hpos]
  · exact (wroteAs_responded h (fun _ => rfl) hmem' hv').unique hown hk
  · rintro n' c ans act view hget hret rfl
    obtain ⟨m', hc', hk', hrow⟩ := Held.written (by rfl) ((traced_run hg h).get hget hret)
    obtain rfl := committedAs_unique hc' hc (hk'.trans hkey.symm)
    unfold MutationCommand.call at hm
    split at hm
    · simp at hm
    · next hkind =>
      rw [← Option.some.inj hm] at hrow
      exact ⟨hkind, (congrArg Product.value hrow).symm⟩
    · rw [← Option.some.inj hm] at hrow
      exact absurd (congrArg Product.deleted hrow) (by simp [Mutation.row])

/-- The DELETE that expects version 1 is answered with version 2, which no Get returns; version 1 is the body of the
PUT. -/
theorem acknowledged_version_delete : ∃ s view, Run (System.step listening) twoNodes acknowledgedTrace s ∧
    (.respond 1, .responded 1 false ⟨.delete, [107], [], 1, 0⟩ 200 (acknowledgement 2)) ∈ acknowledgedTrace ∧
    (.await 0 none, .returned 0 (.ok view)) ∈ engineOf true acknowledgedTrace ∧ view.b = [118] ∧
    ∀ n c ans act view', (.get c [107], ans) ∈ engineOf n acknowledgedTrace →
      (act, .returned c (.ok view')) ∈ engineOf n acknowledgedTrace → view'.version ≠ 2 := by
  have hrun : Run (System.step listening) twoNodes acknowledgedTrace _ := exec_get acknowledged_isSome
  have hput := List.mem_of_getElem? acknowledged_put
  have hdelete := List.mem_of_mem_drop (List.mem_of_getElem? acknowledged_delete)
  have hgone := (acknowledged_version (v := 2) groups_twoNodes hrun hdelete rfl).2.2
  have hbody := (acknowledged_version (v := 1) groups_twoNodes hrun hput rfl).2.2 true 0 _ _ _ acknowledged_gets.1
    acknowledged_gets.2 rfl
  refine ⟨_, _, hrun, hdelete, acknowledged_gets.2, hbody.2, fun n c ans act view' hget hret hv => ?_⟩
  cases (hgone n c ans act view' hget hret hv).1

end System

end SimpleCache.Cluster
