import SimpleCache.App.Versions
import SimpleCache.Cluster.Contents

/-!
# Cluster.Updates — conditional writes make an atomic update

A client that GETs a value and then PUTs what it made of it, or DELETEs it, with the ETag it was given in If-Match has
made one atomic update, whichever nodes served the two requests and whatever their caches held.  `Submits` is that
client; `atomically` is the register it wants, on which a request takes effect at once; `Linear` relates a run of the
system to the requests that have taken effect, in the order of their commits.  No update is lost (`updates_linearize`):
the row of the key is the one the register holds after all of them, and a request that was answered with a version is
one of them.
-/

namespace SimpleCache.App

open Cluster (Header)

/-- What the command of a PUT or DELETE takes from its request. -/
theorem front_payload {jsonValid : GoString → Bool} {token : GoString} {free : Bool} {r : ApiRequest}
    {c : MutationCommand} (h : front jsonValid token false r free = .ok c) :
    mutationPrecondition r.method r.header = .ok c.expected ∧ readBody jsonValid r = .ok c.value := by
  unfold front at h
  cases hv : validateMutation token false r with
  | error a => rw [hv] at h; simp at h
  | ok kv =>
    rw [hv] at h
    dsimp only at h
    split_ifs at h
    cases hb : readBody jsonValid r with
    | error a => rw [hb] at h; simp at h
    | ok value =>
      cases hc : r.ctx with
      | some e => rw [hb, hc] at h; simp at h
      | none =>
        cases hp : mutationPrecondition r.method r.header with
        | error e => rw [hb, hc] at h; simp [expectedVersion, hp] at h
        | ok expected =>
          rw [hb, hc] at h
          simp only [expectedVersion, hp, Bool.false_eq_true, if_false, Except.ok.injEq] at h
          subst h
          exact ⟨rfl, rfl⟩

theorem readBody_put {jsonValid : GoString → Bool} {r : ApiRequest} {value body : GoString}
    (h : readBody jsonValid r = .ok value) (hput : r.method = .put) (hbody : r.body = .ok body) : value = body := by
  unfold readBody at h
  rw [if_pos hput, hbody] at h
  dsimp only at h
  split_ifs at h
  exact (Except.ok.inj h).symm

/-- Without If-Match, only a PUT passes, and it creates. -/
theorem expected_create {r : ApiRequest} {e : ℤ} (h : mutationPrecondition r.method r.header = .ok e)
    (hm : r.header.values "If-Match" = []) : e = 0 ∧ r.method = .put := by
  have hexact := precondition_exact r.method r.header
  have hvalues := (precondition_values h).1
  have hnonneg := hexact.nonneg e h
  rw [hm] at hvalues
  split_ifs at hvalues with hpos
  · simp at hvalues
  · obtain rfl : e = 0 := by omega
    exact ⟨rfl, (hexact.create.mp h).1⟩

/-- The version of a GET comes back from its entity tag. -/
theorem expected_etag {r : ApiRequest} {e : ℤ} {view : Cache.ByteView} {etag : GoString}
    (h : mutationPrecondition r.method r.header = .ok e) (hm : r.header.values "If-Match" = [etag])
    (hetag : etag ∈ (readHeader (.ok view)).values "ETag") : e = view.version ∧ 0 < view.version := by
  obtain ⟨value, hview, hpos, rfl⟩ := readHeader_etag hetag
  obtain rfl := Except.ok.inj hview
  have hvalues := (precondition_values h).1
  rw [hm] at hvalues
  split_ifs at hvalues
  · rw [List.map_singleton, trimSpace_versionETag, List.singleton_inj] at hvalues
    exact ⟨(versionETag_injective hvalues).symm, hpos⟩
  · simp at hvalues

end SimpleCache.App

namespace SimpleCache.Cluster

open SimpleCache.Lib
open Cache.Engine (Act)
open Postgres (Call Exec Answer Mutation Product generation)
open App (MutationCommand MutationResponse ApiRequest front readHeader)

/-! ### The register -/

/-- The value of a row, if it is not a tombstone. -/
def liveValue (row : Option Product) : Option GoString := row.bind fun q => if q.deleted then none else some q.value

/-- A value or a tombstone. -/
def written : Option GoString → ℤ → Product
  | some value, v => ⟨value, v, false⟩
  | none, v => ⟨[], v, true⟩

/-- The request `p` replaces what is there by what it makes of it, at once; `none` is no value. -/
def atomically (update : ℕ → Option GoString → Option GoString) (row : Option Product) (p : ℕ) : Option Product :=
  some (written (update p (liveValue row)) (generation row + 1))

/-- The register after the requests `ps`, one after the other. -/
def register (update : ℕ → Option GoString → Option GoString) (ps : List ℕ) : Option Product :=
  ps.foldl (atomically update) none

section

variable (update : ℕ → Option GoString → Option GoString)

theorem register_snoc (ps : List ℕ) (p : ℕ) :
    register update (ps ++ [p]) = atomically update (register update ps) p := by
  rw [register, List.foldl_append]
  rfl

theorem atomically_generation (row : Option Product) (p : ℕ) :
    generation (atomically update row p) = generation row + 1 := by
  unfold atomically
  cases update p (liveValue row) <;> rfl

theorem register_generation (ps : List ℕ) : generation (register update ps) = ps.length := by
  induction ps using List.reverseRecOn with
  | nil => rfl
  | append_singleton ps p ih => rw [register_snoc, atomically_generation, ih, List.length_append]; rfl

end

/-! ### Where a mutation comes from -/

def Origin.command? : Origin → Option MutationCommand
  | .mutation command _ => some command
  | .relay _ => none

theorem Task.reported_command {ι : Type} (t : Task ι) (r : Except Err InvalidationReport) :
    (t.reported r).origin.command? = t.origin.command? ∧ (t.reported r).stage ≠ .write := by
  obtain ⟨n, origin, stage, snap⟩ := t
  cases origin <;> exact ⟨rfl, nofun⟩

namespace System

variable {ι : Type} [DecidableEq ι]

section Sources

variable {listener : GoString → Option ι} {s s' : System ι} {tr : List (SystemEvent ι)} {a : Action ι} {o : Output ι}
  {p : ℕ} {m : Mutation} {x : Exec} {ans : Answer}

/-- The write of the task `p` calls the store with `m`. -/
structure Writes (s s' : System ι) (p : ℕ) (command : MutationCommand) (m : Mutation) : Prop where
  before : ∃ n outcome snap, s.tasks p = some ⟨n, .mutation command outcome, .write, snap⟩
  call : command.call = some m
  after : ∃ t, s'.tasks = Function.update s.tasks p (some t) ∧ t.stage ≠ .write

/-- How an action comes by a mutation of the store, and by a task. -/
inductive Source (s : System ι) (a : Action ι) (o : Output ι) (s' : System ι) : Prop
  | none : (∀ e ∈ o.stored, ∀ m lost, e.1.1 ≠ .mutate m lost) → (∀ p, s.tasks p = none → s'.tasks p = none) →
      Source s a o s'
  | begin (p : ℕ) (n : ι) (command : MutationCommand) (stage : Stage) : a = .begin p n command → o.stored = [] →
      s' = s.setTask p ⟨n, .mutation command .empty, stage, none⟩ → Source s a o s'
  | other (c : Call) (x : Exec) (ans : Answer) : a = .store c x → o.stored = [((c, x), ans)] → s'.tasks = s.tasks →
      Source s a o s'
  | write (p : ℕ) (command : MutationCommand) (m : Mutation) (x : Exec) (lost : Bool) (ans : Answer) :
      o.stored = [((.mutate m lost, x), ans)] → Writes s s' p command m → Source s a o s'
  | claim (p : ℕ) (n : ι) (event : Outbox.Event) : (∀ e ∈ o.stored, ∀ m lost, e.1.1 ≠ .mutate m lost) →
      s'.tasks = Function.update s.tasks p (some ⟨n, .relay event, .ready, none⟩) → Source s a o s'

omit [DecidableEq ι] in
/-- A move of a task that there is. -/
theorem Source.move {t t₀ : Task ι} (ht : s.tasks p = some t₀) (ho : ∀ e ∈ o.stored, ∀ m lost, e.1.1 ≠ .mutate m lost)
    (hs : s'.tasks = Function.update s.tasks p (some t)) : Source s a o s' := by
  refine .none ho fun q hq => ?_
  have hne : q ≠ p := by
    rintro rfl
    rw [ht] at hq
    simp at hq
  rw [hs, Function.update_of_ne hne, hq]

omit [DecidableEq ι] in
theorem Source.job {f : Task ι → Broadcast → Option (System ι × Broadcast)} (h : s.job p f = some (s', o))
    (hf : ∀ t b r, f t b = some r → r.1.tasks = s.tasks) : Source s a o s' := by
  obtain ⟨n, origin, b, snap, r, ht, hr, rfl, rfl⟩ := job_spec h
  exact .move ht (by simp [Output.stored]) (congrArg (Function.update · p _) (hf _ _ _ hr))

theorem step_source (hst : s.step listener a = some (s', o)) : Source s a o s' := by
  cases a with
  | node n act =>
    simp only [step] at hst
    split_ifs at hst
    obtain ⟨⟨s₁, ans⟩, hn, he⟩ := Option.map_eq_some_iff.mp hst
    obtain ⟨rfl, rfl⟩ := Prod.mk.inj he
    obtain ⟨e, -, rfl⟩ := onNode_spec hn
    exact .none (by simp [Output.stored]) fun _ => id
  | select n f fault work work' work'' =>
    simp only [step] at hst
    split at hst
    · simp at hst
    · obtain ⟨⟨s₁, ans⟩, hn, he⟩ := Option.map_eq_some_iff.mp hst
      obtain ⟨rfl, rfl⟩ := Prod.mk.inj he
      obtain ⟨e, -, rfl⟩ := onNode_spec hn
      exact .none (by simp [Output.stored]) fun _ => id
  | update n input =>
    obtain ⟨rfl, rfl⟩ := Prod.mk.inj (Option.some.inj hst)
    exact .none (by simp [Output.stored]) fun _ => id
  | store c x =>
    simp only [step] at hst
    split_ifs at hst
    obtain ⟨⟨s₁, ans, commit⟩, hc, he⟩ := Option.map_eq_some_iff.mp hst
    obtain ⟨rfl, rfl⟩ := Prod.mk.inj he
    exact .other c x ans rfl rfl (call_spec hc).2.1
  | begin p n command =>
    simp only [step] at hst
    split_ifs at hst
    all_goals
      obtain ⟨rfl, rfl⟩ := Prod.mk.inj (Option.some.inj hst)
      exact .begin p n command _ rfl rfl rfl
  | write p x lost =>
    simp only [step] at hst
    split at hst
    · rename_i n command outcome snap ht
      split at hst
      · simp at hst
      · rename_i m hm
        obtain ⟨⟨s₁, ans, commit⟩, hc, he⟩ := Option.map_eq_some_iff.mp hst
        obtain ⟨rfl, rfl⟩ := Prod.mk.inj he
        refine .write p command m x lost ans rfl ⟨⟨n, outcome, snap, ht⟩, hm, _,
          congrArg (Function.update · p _) (call_spec hc).2.1, ?_⟩
        dsimp only
        split_ifs <;> simp
    · simp at hst
  | claim p n x lost =>
    simp only [step] at hst
    split_ifs at hst with ht
    obtain ⟨⟨s₁, ans, commit⟩, hc, he⟩ := Option.map_eq_some_iff.mp hst
    have htasks := (call_spec hc).2.1
    dsimp only at he
    split at he <;> obtain ⟨rfl, rfl⟩ := Prod.mk.inj he
    · exact .claim p n _ (by simp [Output.stored]) (congrArg (Function.update · p _) htasks)
    · exact .none (by simp [Output.stored]) fun q hq => by rw [htasks, hq]
  | ready p ready =>
    simp only [step] at hst
    split at hst
    · rename_i ht
      obtain ⟨rfl, rfl⟩ := Prod.mk.inj (Option.some.inj hst)
      exact .move ht (by simp [Output.stored]) rfl
    · simp at hst
  | invalidate p now now' =>
    simp only [step] at hst
    split at hst
    · rename_i n origin snap ht
      obtain ⟨⟨s₁, ans⟩, hn, he⟩ := Option.map_eq_some_iff.mp hst
      obtain ⟨e, -, rfl⟩ := onNode_spec hn
      dsimp only at he
      split at he <;> obtain ⟨rfl, rfl⟩ := Prod.mk.inj he
      · exact .move ht (by simp [Output.stored]) rfl
      · exact .move ht (by simp [Output.stored]) rfl
      · exact .none (by simp [Output.stored]) fun _ => id
    · simp at hst
  | capture p =>
    simp only [step] at hst
    split at hst
    · rename_i ht
      obtain ⟨rfl, rfl⟩ := Prod.mk.inj (Option.some.inj hst)
      exact .move ht (by simp [Output.stored]) rfl
    · simp at hst
  | dispatch p err =>
    simp only [step] at hst
    refine .job hst fun t b r hr => ?_
    repeat' split at hr
    all_goals first
      | (obtain rfl := (Option.some.inj hr).symm; rfl)
      | simp at hr
  | abort p i e =>
    simp only [step] at hst
    refine .job hst fun t b r hr => ?_
    split at hr
    · obtain rfl := (Option.some.inj hr).symm
      rfl
    · simp at hr
  | receive p i r =>
    simp only [step] at hst
    refine .job hst fun t b r' hr => ?_
    split at hr
    · split_ifs at hr
      obtain rfl := (Option.some.inj hr).symm
      rfl
    · simp at hr
  | collect p =>
    simp only [step] at hst
    split at hst
    · rename_i ht
      obtain ⟨report, -, he⟩ := Option.map_eq_some_iff.mp hst
      obtain ⟨rfl, rfl⟩ := Prod.mk.inj he
      exact .move ht (by simp [Output.stored]) rfl
    · simp at hst
  | respond p =>
    simp only [step] at hst
    split at hst
    · rename_i ht
      obtain ⟨rfl, rfl⟩ := Prod.mk.inj (Option.some.inj hst)
      exact .move ht (by simp [Output.stored]) rfl
    · simp at hst
  | finish p x =>
    simp only [step] at hst
    split at hst
    · rename_i ht
      obtain ⟨⟨s₁, ans, commit⟩, hc, he⟩ := Option.map_eq_some_iff.mp hst
      obtain ⟨rfl, rfl⟩ := Prod.mk.inj he
      exact .move ht (by simp [Output.stored]) (congrArg (Function.update · p _) (call_spec hc).2.1)
    · simp at hst
  | serve request now now' =>
    simp only [step] at hst
    repeat' split at hst
    · simp at hst
    · simp at hst
    · obtain ⟨rfl, rfl⟩ := Prod.mk.inj (Option.some.inj hst)
      exact .none (by simp [Output.stored]) fun _ => id
    · obtain ⟨⟨s₁, ans⟩, hn, he⟩ := Option.map_eq_some_iff.mp hst
      obtain ⟨rfl, rfl⟩ := Prod.mk.inj he
      obtain ⟨e, -, rfl⟩ := onNode_spec hn
      exact .none (by simp [Output.stored]) fun _ => id
  | foreign request r =>
    simp only [step] at hst
    repeat' split at hst
    · simp at hst
    · simp at hst
    · obtain ⟨rfl, rfl⟩ := Prod.mk.inj (Option.some.inj hst)
      exact .none (by simp [Output.stored]) fun _ => id

/-- A mutation is the write of a task, or someone else's. -/
theorem mutate_source (hst : s.step listener a = some (s', o)) (ho : o.stored = [((.mutate m lost, x), ans)]) :
    a = .store (.mutate m lost) x ∨ ∃ p command, Writes s s' p command m := by
  have hno : ¬∀ e ∈ o.stored, ∀ m lost, e.1.1 ≠ .mutate m lost :=
    fun h => h _ (by rw [ho]; exact List.mem_singleton_self _) m lost rfl
  cases step_source hst with
  | none h _ => exact absurd h hno
  | claim _ _ _ h _ => exact absurd h hno
  | begin _ _ _ _ _ h _ => rw [h] at ho; simp at ho
  | other c y b ha h _ =>
    rw [h] at ho
    simp only [List.cons.injEq, Prod.mk.injEq, and_true] at ho
    obtain ⟨⟨rfl, rfl⟩, -⟩ := ho
    exact .inl ha
  | write p command m' y l b h hw =>
    rw [h] at ho
    simp only [List.cons.injEq, Prod.mk.injEq, Call.mutate.injEq, and_true] at ho
    obtain ⟨⟨⟨rfl, -⟩, -⟩, -⟩ := ho
    exact .inr ⟨p, command, hw⟩

omit [DecidableEq ι] in
/-- A task keeps its command, and does not write twice. -/
theorem TaskStep.command {t₀ t : Task ι} (h : TaskStep s a o s' p (some t₀) t) :
    t.origin.command? = t₀.origin.command? ∧ t.stage ≠ .write := by
  cases h with
  | write _ _ hstage =>
    rcases hstage with rfl | ⟨rfl, -⟩
    · exact ⟨rfl, nofun⟩
    · exact ⟨rfl, nofun⟩
  | refused => exact Task.reported_command _ _
  | collected _ => exact Task.reported_command _ _
  | ready => exact ⟨rfl, nofun⟩
  | unready => exact ⟨rfl, nofun⟩
  | notified _ => exact ⟨rfl, nofun⟩
  | captured _ => exact ⟨rfl, nofun⟩
  | sent _ _ _ _ _ => exact ⟨rfl, nofun⟩
  | failed => exact ⟨rfl, nofun⟩
  | received _ _ => exact ⟨rfl, nofun⟩
  | closed => exact ⟨rfl, nofun⟩

/-- A new task of a mutation was begun. -/
theorem begin_of_new (hst : s.step listener a = some (s', o)) (hp : s.tasks p = none) {t : Task ι}
    (ht : s'.tasks p = some t) {command : MutationCommand} (hc : t.origin.command? = some command) :
    ∃ n, a = .begin p n command := by
  -- the task that the action sets
  have hset : ∀ {q t'}, s'.tasks = Function.update s.tasks q (some t') → p = q ∧ t = t' := by
    intro q t' hs
    rw [hs] at ht
    by_cases hq : p = q
    · subst hq
      rw [Function.update_self, Option.some.injEq] at ht
      exact ⟨rfl, ht.symm⟩
    · rw [Function.update_of_ne hq, hp] at ht
      simp at ht
  cases step_source hst with
  | none _ hnone => rw [hnone p hp] at ht; simp at ht
  | other _ _ _ _ _ hsame => rw [hsame, hp] at ht; simp at ht
  | begin q n command' stage ha _ hs =>
    obtain ⟨rfl, rfl⟩ := hset (congrArg System.tasks hs)
    exact ⟨n, ha.trans (by rw [Option.some.inj hc])⟩
  | write q command' m x lost ans _ hw =>
    obtain ⟨n, outcome, snap, hq⟩ := hw.before
    obtain ⟨t', hs, -⟩ := hw.after
    obtain ⟨rfl, -⟩ := hset hs
    rw [hp] at hq
    simp at hq
  | claim q n event _ hs =>
    obtain ⟨-, rfl⟩ := hset hs
    simp [Origin.command?] at hc

/-- Every task of a mutation was begun with its command. -/
theorem begun_run {s₀ : System ι} (h : Run (step listener) s₀ tr s) (h0 : ∀ p, s₀.tasks p = none) :
    ∀ p t command, s.tasks p = some t → t.origin.command? = some command → ∃ n o, (.begin p n command, o) ∈ tr := by
  refine h.rec_inv (I := fun tr s => ∀ p t command, s.tasks p = some t → t.origin.command? = some command →
    ∃ n o, (.begin p n command, o) ∈ tr) (fun p t _ ht => by rw [h0] at ht; simp at ht) ?_
  intro tr s a o s' _ ih hst p t command ht hc
  have hold : ∀ t₀, s.tasks p = some t₀ → t₀.origin.command? = some command →
      ∃ n o', (.begin p n command, o') ∈ tr ++ [(a, o)] := by
    intro t₀ h₀ hc₀
    obtain ⟨n, o', hmem⟩ := ih p t₀ command h₀ hc₀
    exact ⟨n, o', List.mem_append_left _ hmem⟩
  cases hp : s.tasks p with
  | none =>
    obtain ⟨n, rfl⟩ := begin_of_new hst hp ht hc
    exact ⟨n, o, List.mem_append_right _ (List.mem_singleton_self _)⟩
  | some t₀ =>
    rcases (effects hst).task_cases ht with hsame | hstep
    · exact hold t hsame hc
    · rw [hp] at hstep
      exact hold t₀ hp (hstep.command.1.symm.trans hc)

/-- A task that has left its write does not come back to it. -/
theorem written_step (hst : s.step listener a = some (s', o)) {t : Task ι} (ht : s.tasks p = some t)
    (hstage : t.stage ≠ .write) : ∃ t', s'.tasks p = some t' ∧ t'.stage ≠ .write := by
  rcases (effects hst).tasks with hsame | ⟨q, t', hupd, hstep⟩
  · exact ⟨t, by rw [hsame, ht], hstage⟩
  · by_cases hq : p = q
    · subst hq
      rw [ht] at hstep
      exact ⟨t', by rw [hupd, Function.update_self], hstep.command.2⟩
    · exact ⟨t, by rw [hupd, Function.update_of_ne hq, ht], hstage⟩

end Sources

/-! ### Clients that update -/

/-- The request stores the value, or deletes the key. -/
def Sends (r : ApiRequest) : Option GoString → Prop
  | some body => r.method = .put ∧ r.body = .ok body
  | none => r.method = .delete

/-- The conditional write of a value, or of a tombstone. -/
def conditional (key : GoString) (expected : ℤ) : Option GoString → Mutation
  | some body => .putIfVersion key body expected
  | none => .deleteIfVersion key expected

/-- The request `p` of a client that wants to update `key`.  Without If-Match it asks for `update p none`; or it has read
`b` with a GET at some node and asks for `update p (some b)`, under the ETag it was given. -/
inductive Submits (tr : List (SystemEvent ι)) (update : ℕ → Option GoString → Option GoString) (key : GoString) (p : ℕ)
    (command : MutationCommand) : Prop
  | create {jsonValid : GoString → Bool} {token : GoString} {free : Bool} {r : ApiRequest} :
      front jsonValid token false r free = .ok command → r.header.values "If-Match" = [] → Sends r (update p none) →
      Submits tr update key p command
  | replace {jsonValid : GoString → Bool} {token : GoString} {free : Bool} {r : ApiRequest} {n : ι} {c : ℕ}
      {ans : Cache.Engine.Ans} {act : Act} {view : Cache.ByteView} {etag : GoString} :
      (.get c key, ans) ∈ engineOf n tr → (act, .returned c (.ok view)) ∈ engineOf n tr →
      etag ∈ (readHeader (.ok view)).values "ETag" →
      front jsonValid token false r free = .ok command → r.header.values "If-Match" = [etag] →
      Sends r (update p (some view.b)) → Submits tr update key p command

/-- All writes of the key are such updates. -/
structure Clients (tr : List (SystemEvent ι)) (update : ℕ → Option GoString → Option GoString) (key : GoString) : Prop where
  submits : ∀ p n command o, (.begin p n command, o) ∈ tr → command.key = key → command.kind ≠ .notify →
    Submits tr update key p command
  others : ∀ m lost x o, (.store (.mutate m lost) x, o) ∈ tr → m.key ≠ key

/-- The request `p` was under way when the key had the generation `i`. -/
def Took (listener : GoString → Option ι) (s₀ : System ι) (tr : List (SystemEvent ι)) (key : GoString) (p i : ℕ) :
    Prop :=
  ∃ tr₁ tr₂ s₁ t command, tr = tr₁ ++ tr₂ ∧ Run (step listener) s₀ tr₁ s₁ ∧ s₁.tasks p = some t ∧
    t.origin.command? = some command ∧ command.key = key ∧ generation (s₁.store.db.products key) = i

/-- The requests `ps` have taken effect on the key, in this order. -/
structure Linear (listener : GoString → Option ι) (s₀ : System ι) (update : ℕ → Option GoString → Option GoString)
    (key : GoString) (ps : List ℕ) (tr : List (SystemEvent ι)) (s : System ι) : Prop where
  now : s.store.db.products key = register update ps
  once : ps.Nodup
  written : ∀ p ∈ ps, ∃ t, s.tasks p = some t ∧ t.stage ≠ .write
  held : ∀ row, Held listener s₀ tr key row → ∃ k ≤ ps.length, row.version = k ∧ register update (ps.take k) = some row
  wrote : ∀ p command v, WroteAs listener s₀ tr p command v → command.key = key → ∃ i : ℕ, v = i + 1 ∧ ps[i]? = some p
  took : ∀ i p, ps[i]? = some p → Took listener s₀ tr key p i

section Updates

variable {listener : GoString → Option ι} {s₀ s s' sₑ : System ι} {tr trₑ : List (SystemEvent ι)} {a : Action ι}
  {o : Output ι} {update : ℕ → Option GoString → Option GoString} {key : GoString} {p : ℕ} {command : MutationCommand}
  {m : Mutation} {ps : List ℕ}

/-- The mutation of a request, with the version that it expects. -/
theorem Sends.mutation {jsonValid : GoString → Bool} {token : GoString} {free : Bool} {r : ApiRequest}
    {next : Option GoString} (h : Sends r next) (hfront : front jsonValid token false r free = .ok command)
    (hm : command.call = some m) :
    m = conditional command.key command.expected next := by
  obtain ⟨-, -, hkind, -⟩ := App.front_ok hfront
  obtain ⟨-, hread⟩ := App.front_payload hfront
  unfold MutationCommand.call at hm
  cases next with
  | some body =>
    rw [h.1] at hkind
    rw [hkind] at hm
    rw [← App.readBody_put hread h.1 h.2]
    exact (Option.some.inj hm).symm
  | none =>
    rw [show r.method = .delete from h] at hkind
    rw [hkind] at hm
    exact (Option.some.inj hm).symm

/-- The row that an accepted update writes is the one the register gets from it: what the client has read under the
expected version is the row that is replaced. -/
theorem Submits.row (h : Submits tr update key p command) (hT : Traced listener s₀ tr s)
    (hm : command.call = some m) {row : Option Product} (hacc : m.Accepts row)
    (hheld : ∀ q, row = some q → Held listener s₀ tr key q) :
    some (m.row (generation row + 1)) = atomically update row p := by
  cases h with
  | create hfront hmatch hsends =>
    obtain ⟨he, hput⟩ := App.expected_create (App.front_payload hfront).1 hmatch
    obtain rfl := hsends.mutation hfront hm
    rw [he] at hacc
    cases hnext : update p none with
    | none =>
      rw [hnext] at hsends
      exact absurd (hput.symm.trans hsends) (by simp)
    | some body =>
      rw [hnext, conditional, Mutation.Accepts, if_pos rfl] at hacc
      have hvalue : liveValue row = none := by
        cases row with
        | none => rfl
        | some q => simp [liveValue, hacc q rfl]
      rw [atomically, hvalue, hnext]
      rfl
  | @replace _ _ _ _ _ _ _ _ view _ hget hret hetag hfront hmatch hsends =>
    obtain ⟨he, hpos⟩ := App.expected_etag (App.front_payload hfront).1 hmatch hetag
    obtain rfl := hsends.mutation hfront hm
    have hlive : Postgres.Live row view.version := by
      rw [he] at hacc
      cases hnext : update p (some view.b) with
      | none => rw [hnext] at hacc; exact hacc
      | some body => rw [hnext, conditional, Mutation.Accepts, if_neg hpos.ne'] at hacc; exact hacc
    obtain ⟨q, rfl, -, hv⟩ := hlive
    obtain rfl := (hheld q rfl).unique (hT.get hget hret) hv
    unfold atomically
    have hvalue : liveValue (some (⟨view.b, view.version, false⟩ : Product)) = some view.b := rfl
    rw [hvalue]
    cases update p (some view.b) <;> rfl

theorem Took.mono {i : ℕ} (h : Took listener s₀ tr key p i) (tr' : List (SystemEvent ι)) :
    Took listener s₀ (tr ++ tr') key p i := by
  obtain ⟨tr₁, tr₂, s₁, t, command, rfl, hrest⟩ := h
  exact ⟨tr₁, tr₂ ++ tr', s₁, t, command, List.append_assoc _ _ _, hrest⟩

theorem held_snoc (hr : Run (step listener) s₀ tr s) (hst : s.step listener a = some (s', o)) {row : Product}
    (h : Held listener s₀ (tr ++ [(a, o)]) key row) :
    Held listener s₀ tr key row ∨ s'.store.db.products key = some row := by
  obtain ⟨tr₁, tr₂, s₁, heq, hr₁, hrow⟩ := h
  rcases List.eq_nil_or_concat tr₂ with rfl | ⟨tr₂, e, rfl⟩
  · rw [List.append_nil] at heq
    subst heq
    obtain ⟨t, h₁, h₂⟩ := hr₁.snoc_inv
    obtain rfl := hr.det h₁
    rw [hst] at h₂
    rw [(Prod.mk.inj (Option.some.inj h₂)).1]
    exact .inr hrow
  · rw [List.concat_eq_append, ← List.append_assoc] at heq
    obtain ⟨rfl, -⟩ := List.append_inj' heq rfl
    exact .inl ⟨tr₁, tr₂, s₁, rfl, hr₁, hrow⟩

theorem wroteAs_snoc (hr : Run (step listener) s₀ tr s) (hst : s.step listener a = some (s', o)) {v : ℤ}
    (h : WroteAs listener s₀ (tr ++ [(a, o)]) p command v) :
    WroteAs listener s₀ tr p command v ∨
      ∃ m, Commits s o s' m v ∧ command.call = some m ∧ s'.tasks p ≠ s.tasks p := by
  obtain ⟨tr₁, b, o', tr₂, s₁, s₂, m, heq, hr₁, hst₁, hc, hm, hp⟩ := h
  rcases List.eq_nil_or_concat tr₂ with rfl | ⟨tr₂, e, rfl⟩
  · obtain ⟨rfl, he⟩ := List.append_inj' heq rfl
    obtain ⟨rfl, rfl⟩ := Prod.mk.inj (List.cons.inj he).1
    obtain rfl := hr.det hr₁
    rw [hst] at hst₁
    obtain rfl := (Prod.mk.inj (Option.some.inj hst₁)).1
    exact .inr ⟨m, hc, hm, hp⟩
  · rw [List.concat_eq_append, ← List.cons_append, ← List.append_assoc] at heq
    obtain ⟨rfl, -⟩ := List.append_inj' heq rfl
    exact .inl ⟨tr₁, b, o', tr₂, s₁, s₂, m, rfl, hr₁, hst₁, hc, hm, hp⟩

/-- An action that leaves the row. -/
theorem Linear.same (hL : Linear listener s₀ update key ps tr s) (hr : Run (step listener) s₀ tr s)
    (hst : s.step listener a = some (s', o)) (hsame : s'.store.db.products key = s.store.db.products key) :
    Linear listener s₀ update key ps (tr ++ [(a, o)]) s' where
  now := hsame.trans hL.now
  once := hL.once
  written p hp := by
    obtain ⟨t, ht, hstage⟩ := hL.written p hp
    exact written_step hst ht hstage
  held row hrow := by
    rcases held_snoc hr hst hrow with hold | hnew
    · exact hL.held row hold
    · exact hL.held row (held_now hr (hsame ▸ hnew))
  wrote p command v hw hkey := by
    rcases wroteAs_snoc hr hst hw with hold | ⟨m, hc, hm, -⟩
    · exact hL.wrote p command v hold hkey
    · have hk : m.key = key := (call_key hm).1.trans hkey
      have hafter := hc.after
      have hbefore := hc.before
      rw [hk] at hafter hbefore
      rw [hsame] at hafter
      omega
  took i p hi := (hL.took i p hi).mono _

/-- An action that writes the row for the request `p`. -/
theorem Linear.snoc (hL : Linear listener s₀ update key ps tr s) (hr : Run (step listener) s₀ tr s)
    (hst : s.step listener a = some (s', o)) (hw : Writes s s' p command m) (hkey : command.key = key)
    (hrow : s'.store.db.products key = atomically update (s.store.db.products key) p) :
    Linear listener s₀ update key (ps ++ [p]) (tr ++ [(a, o)]) s' := by
  obtain ⟨n, outcome, snap, hbefore⟩ := hw.before
  obtain ⟨t, hafter, hstage⟩ := hw.after
  have hnow : s'.store.db.products key = register update (ps ++ [p]) := by rw [register_snoc, ← hL.now, hrow]
  have hgen : generation (s.store.db.products key) = ps.length := by rw [hL.now, register_generation]
  refine ⟨hnow, ?_, fun q hq => ?_, fun row hheld => ?_, fun q command' v hwrote hkey' => ?_, fun i q hi => ?_⟩
  · -- the request has not written before
    refine List.nodup_append.mpr ⟨hL.once, List.nodup_singleton p, fun q hq r hr => ?_⟩
    rw [List.mem_singleton] at hr
    rintro rfl
    obtain ⟨t', ht', hne⟩ := hL.written q hq
    rw [hr, hbefore, Option.some.injEq] at ht'
    exact hne (ht' ▸ rfl)
  · rcases List.mem_append.mp hq with hold | hnew
    · obtain ⟨t', ht', hne⟩ := hL.written q hold
      exact written_step hst ht' hne
    · rw [List.mem_singleton.mp hnew]
      exact ⟨t, by rw [hafter, Function.update_self], hstage⟩
  · rcases held_snoc hr hst hheld with hold | hnew
    · obtain ⟨k, hk, hv, hreg⟩ := hL.held row hold
      exact ⟨k, by rw [List.length_append]; omega, hv, by rw [List.take_append_of_le_length hk, hreg]⟩
    · refine ⟨(ps ++ [p]).length, le_rfl, ?_, by rw [List.take_length, ← hnow, hnew]⟩
      rw [← register_generation update, ← hnow, hnew]
      rfl
  · rcases wroteAs_snoc hr hst hwrote with hold | ⟨m', hc, hm, hq⟩
    · obtain ⟨i, hv, hi⟩ := hL.wrote q command' v hold hkey'
      exact ⟨i, hv, by rw [List.getElem?_append_left (List.getElem?_eq_some_iff.mp hi).1, hi]⟩
    · -- the action moves one task
      have hqp : q = p := by
        by_contra hne
        rw [hafter, Function.update_of_ne hne] at hq
        exact hq rfl
      have hv := hc.before
      rw [(call_key hm).1, hkey', hgen] at hv
      exact ⟨ps.length, hv.symm, by rw [hqp, List.getElem?_concat_length]⟩
  · rcases lt_or_ge i ps.length with hlt | hge
    · rw [List.getElem?_append_left hlt] at hi
      exact (hL.took i q hi).mono _
    · obtain ⟨hi', rfl⟩ := List.getElem?_eq_some_iff.mp hi
      obtain rfl : i = ps.length := by
        rw [List.length_append, List.length_singleton] at hi'
        omega
      rw [List.getElem_concat_length rfl]
      exact ⟨tr, [(a, o)], s, _, command, rfl, hr, hbefore, rfl, hkey, hgen⟩

/-- **One action of the system is at most one update of the register.** -/
theorem Linear.step (hL : Linear listener s₀ update key ps tr s) (h0 : ∀ p, s₀.tasks p = none)
    (hr : Run (System.step listener) s₀ tr s) (hst : s.step listener a = some (s', o))
    (hT : Traced listener s₀ trₑ sₑ) (hC : Clients trₑ update key) (hsub : ∃ q, trₑ = tr ++ (a, o) :: q) :
    ∃ ps', Linear listener s₀ update key ps' (tr ++ [(a, o)]) s' := by
  by_cases hsame : s'.store.db.products key = s.store.db.products key
  · exact ⟨ps, hL.same hr hst hsame⟩
  obtain ⟨q, rfl⟩ := hsub
  -- the row is new, so the action has committed a mutation of the key
  obtain ⟨row, hrow⟩ : ∃ row, s'.store.db.products key = some row := by
    rcases advances_run (Run.single hst) key with he | hlt
    · exact absurd he hsame
    · rw [hL.now, register_generation] at hlt
      cases hp : s'.store.db.products key with
      | none =>
        rw [hp] at hlt
        exact absurd hlt (not_lt.mpr (Int.natCast_nonneg _))
      | some row => exact ⟨row, rfl⟩
  obtain ⟨m, hc, rfl, hmrow⟩ := commits_of_change hst hrow fun h => hsame (hrow.trans h.symm)
  obtain ⟨lost, x, ans, hcall⟩ := hc.call
  rcases mutate_source hst hcall with rfl | ⟨p, command, hw⟩
  · exact absurd rfl (hC.others m lost x o (by simp))
  · obtain ⟨n, outcome, snap, ht⟩ := hw.before
    obtain ⟨n', o', hbegin⟩ := begun_run hr h0 p _ command ht rfl
    have hkind : command.kind ≠ .notify := by
      intro hk
      have := hw.call
      unfold MutationCommand.call at this
      rw [hk] at this
      simp at this
    have hkey := (call_key hw.call).1.symm
    have hsubmits := hC.submits p n' command o' (List.mem_append_left _ hbegin) hkey hkind
    refine ⟨ps ++ [p], hL.snoc hr hst hw hkey ?_⟩
    rw [← hsubmits.row hT hw.call hc.accepts fun q hq => (held_now hr hq).mono _, hrow, hc.before, hmrow]

/-- The requests that have taken effect in a run. -/
theorem linear_run {clock : ℤ} {groups : ι → Cache.Group} {selfID token : ι → GoString} (hg : Groups groups)
    (h : Run (System.step listener) (init clock groups selfID token) trₑ sₑ) (hC : Clients trₑ update key) :
    ∃ ps, Linear listener (init clock groups selfID token) update key ps trₑ sₑ := by
  have hT := traced_run hg h
  refine h.rec_inv (I := fun tr s => ∀ q, trₑ = tr ++ q →
    ∃ ps, Linear listener (init clock groups selfID token) update key ps tr s) (fun q _ => ⟨[], ?_⟩)
    (fun tr s a o s' hr ih hst q hq => ?_) [] (List.append_nil _).symm
  · refine ⟨rfl, List.nodup_nil, nofun, ?_, ?_, by simp⟩
    · rintro row ⟨tr₁, tr₂, s₁, heq, hr, hrow⟩
      obtain ⟨rfl, -⟩ := List.append_eq_nil_iff.mp heq.symm
      obtain rfl := hr.nil_inv
      cases (show none = some row from hrow)
    · rintro p command v ⟨tr₁, a, o, tr₂, s₁, s₂, m, heq, -⟩
      simp at heq
  · rw [List.append_assoc] at hq
    obtain ⟨ps, hL⟩ := ih _ hq
    exact hL.step (fun _ => rfl) hr hst hT hC ⟨q, hq⟩

/-- A task stays. -/
theorem task_stays (h : Run (System.step listener) s tr s') (hp : s.tasks p ≠ none) : s'.tasks p ≠ none := by
  refine h.inv (I := fun s => s.tasks p ≠ none) hp fun s a o s' hp hst => ?_
  rcases (effects hst).tasks with hsame | ⟨q, t, hupd, -⟩
  · rwa [hsame]
  · rw [hupd]
    by_cases hq : p = q
    · subst hq
      rw [Function.update_self]
      simp
    · rwa [Function.update_of_ne hq]

/-- A request that has been under way at generation `i`, but begins only after generation `v` was reached. -/
theorem Took.after {tr₁ tr₂ : List (SystemEvent ι)} {i : ℕ} {n : ι} {command : MutationCommand} {o : Output ι} {v : ℤ}
    (h : Took listener s₀ (tr₁ ++ tr₂) key p i) (hr : Run (System.step listener) s₀ (tr₁ ++ tr₂) s')
    (hr₁ : Run (System.step listener) s₀ tr₁ s) (hv : v ≤ generation (s.store.db.products key))
    (hbegin : (.begin p n command, o) ∈ tr₂) : v ≤ i := by
  obtain ⟨q₁, q₂, rfl⟩ := List.append_of_mem hbegin
  obtain ⟨t₁, t₂, s₁, t, command', heq, hrun, ht, -, -, hgen⟩ := h
  obtain ⟨s'', hr₁', hr₂⟩ := hr.split
  obtain rfl := hr₁.det hr₁'
  obtain ⟨sb, sb', hq₁, hst, -⟩ := hr₂.cut
  have hnew : sb.tasks p = none := by
    by_contra hne
    simp [System.step, hne] at hst
  rw [← List.append_assoc] at heq
  rcases (hr₁.append hq₁).comparable hrun heq with ⟨u, hu⟩ | ⟨u, hu⟩
  · have h1 := (advances_run hq₁).le key
    have h2 := (advances_run hu).le key
    omega
  · exact absurd hnew (task_stays hu (by rw [ht]; simp))

theorem WroteAs.generation_le {v : ℤ} (h : WroteAs listener s₀ tr p command v) (hr : Run (System.step listener) s₀ tr s) :
    v ≤ generation (s.store.db.products command.key) := by
  obtain ⟨tr₁, a, o, tr₂, s₁, s₂, m, rfl, hr₁, hst, hc, hm, -⟩ := h
  obtain ⟨t₁, t₂, hr₁', hst', hr₂⟩ := hr.cut
  obtain rfl := hr₁.det hr₁'
  rw [hst] at hst'
  obtain rfl := (Prod.mk.inj (Option.some.inj hst')).1
  rw [← hc.after, (call_key hm).1]
  exact (advances_run hr₂).le command.key

/-- **Conditional writes are atomic updates.**  In every run in which all writes of `key` come from clients that create it,
or GET it at whatever node and then PUT what they made of the value, or DELETE it, with the ETag of that GET in If-Match,
there is an order of requests, each at most once, such that the row of the key is what they make of it one after the
other.  Every value that a Get returns is that of the register after some of them, and a request that was answered with
version `v` is the `v`-th of them.  A request that begins after another was answered comes after it. -/
theorem updates_linearize {clock : ℤ} {groups : ι → Cache.Group} {selfID token : ι → GoString} (hg : Groups groups)
    (h : Run (System.step listener) (init clock groups selfID token) tr s) (hC : Clients tr update key) :
    ∃ ps : List ℕ, ps.Nodup ∧ (∀ p ∈ ps, ∃ n command o, (.begin p n command, o) ∈ tr ∧ command.key = key) ∧
      s.store.db.products key = register update ps ∧
      (∀ n c ans act view, (.get c key, ans) ∈ engineOf n tr → (act, .returned c (.ok view)) ∈ engineOf n tr →
        ∃ k ≤ ps.length, register update (ps.take k) = some ⟨view.b, view.version, false⟩) ∧
      ∀ tr₁ a p n command status response (v : ℤ) tr₂, tr = tr₁ ++ (a, .responded p n command status response) :: tr₂ →
        response.sourceVersion = some v → command.key = key → ∃ i : ℕ, v = i + 1 ∧ ps[i]? = some p ∧
          ∀ q j, ps[j]? = some q → (∃ n' command' o', (.begin q n' command', o') ∈ tr₂) → i < j := by
  obtain ⟨ps, hL⟩ := linear_run hg h hC
  have hT := traced_run hg h
  refine ⟨ps, hL.once, fun p hp => ?_, hL.now, fun n c ans act view hget hret => ?_, ?_⟩
  · obtain ⟨i, hi⟩ := List.mem_iff_getElem?.mp hp
    obtain ⟨tr₁, tr₂, s₁, t, command, rfl, hr₁, ht, hc, hkey, -⟩ := hL.took i p hi
    obtain ⟨n, o, hmem⟩ := begun_run hr₁ (fun _ => rfl) p t command ht hc
    exact ⟨n, command, o, List.mem_append_left _ hmem, hkey⟩
  · obtain ⟨k, hk, -, hreg⟩ := hL.held _ (hT.get hget hret)
    exact ⟨k, hk, hreg⟩
  · rintro tr₁ a p n command status response v tr₂ rfl hv rfl
    obtain ⟨s₁, s₂, h₁, hst, -⟩ := h.cut
    have hwrote := wroteAs_answer h₁ (fun _ => rfl) hst hv
    obtain ⟨i, hi, hp⟩ := hL.wrote p command v (hwrote.mono _) rfl
    refine ⟨i, hi, hp, fun q j hj ⟨n', command', o', hbegin⟩ => ?_⟩
    have := (hL.took j q hj).after h h₁ (hwrote.generation_le h₁) (List.mem_cons_of_mem _ hbegin)
    omega

end Updates

/-! ### An update and a deletion -/

/-- A request for `k`. -/
def requestFor (method : Method) (body : GoString) (precondition : String × GoString) : ApiRequest :=
  { method := method, path := Go.ascii "/api", rawQuery := Go.ascii "key=k", body := .ok body, ctx := none,
    header := [("Authorization", Go.ascii "Bearer t"), precondition] }

/-- A client creates the value, and another takes it away. -/
def taking (_ : ℕ) : Option GoString → Option GoString
  | none => some [118]
  | some _ => none

theorem front_create : front (fun _ => true) [116] false (requestFor .put [118] ("If-None-Match", Go.ascii "*")) true =
    .ok ⟨.put, [107], [118], 0, 0⟩ := by decide

theorem front_delete : front (fun _ => true) [116] false (requestFor .delete [] ("If-Match", App.versionETag 1)) true =
    .ok ⟨.delete, [107], [], 1, 0⟩ := by decide

theorem acknowledged_clients : Clients acknowledgedTrace taking [107] where
  submits p n command o hmem _ _ := by
    have hact := (List.of_mem_zip hmem).1
    simp only [acknowledged, notifying, reading, List.mem_append, List.mem_cons, List.not_mem_nil, or_false, false_or,
      reduceCtorEq, Action.begin.injEq] at hact
    rcases hact with ⟨rfl, rfl, rfl⟩ | ⟨rfl, rfl, rfl⟩
    · exact .create front_create (by decide) ⟨rfl, rfl⟩
    · exact .replace acknowledged_gets.1 acknowledged_gets.2 (List.mem_singleton_self _) front_delete (by decide) rfl
  others m lost x o hmem := by
    have hact := (List.of_mem_zip hmem).1
    simp [acknowledged, notifying, reading] at hact

/-- The PUT is the first update and the DELETE, under the ETag that the second node has returned, the second. -/
theorem updates_linearize_deleted : ∃ s ps, Run (System.step listening) twoNodes acknowledgedTrace s ∧
    s.store.db.products [107] = register taking ps ∧ ps[0]? = some 0 ∧ ps[1]? = some 1 := by
  have hrun : Run (System.step listening) twoNodes acknowledgedTrace _ := exec_get acknowledged_isSome
  obtain ⟨ps, -, -, hnow, -, hanswered⟩ := updates_linearize groups_twoNodes hrun acknowledged_clients
  obtain ⟨i, hi, hput, -⟩ := hanswered _ _ _ _ _ _ _ 1 _ (split_at acknowledged_put) rfl rfl
  have hlast := acknowledged_delete
  rw [List.getElem?_drop] at hlast
  obtain ⟨j, hj, hdelete, -⟩ := hanswered _ _ _ _ _ _ _ 2 _ (split_at hlast) rfl rfl
  obtain rfl : i = 0 := by omega
  obtain rfl : j = 1 := by omega
  exact ⟨_, ps, hrun, hnow, hput, hdelete⟩

end System

end SimpleCache.Cluster
