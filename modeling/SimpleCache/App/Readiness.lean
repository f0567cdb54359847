import SimpleCache.App.Lifecycle

/-!
# App.Readiness — what a process keeps to while it runs and while it stops (`app/bootstrap.go`)

What the main goroutine expects of a server is its stage (`Main.stage`).  The moves of a server keep it in its stage
(`Stage.Allows.moved`), and the steps of the main goroutine take every server to its next one (`staged_step`).  The flags
follow the place of the main goroutine (`Controlled`), and the relay and the watcher inside the process are runs of
their own machines (`Relayed`, `Watched`).

`ready_serves` says what readiness means to those who ask for it, and `shutdown_order` in which order a process takes
itself apart.
-/

namespace SimpleCache.App

open Lib (Run Loop)
open Discovery (Watcher)
open Outbox (Head RunRequest RunCall)
open Outbox.Worker (run)

/-! ### What the main goroutine expects of a server -/

inductive Stage
  | unbound
  | bound
  | up
  | stopping
  /-- `Shutdown` has returned. -/
  | stopped (result : Option Failure)
  /-- After `serve`, or after a failed `bindServers`. -/
  | down (result : Option Failure)

/-- A server that is done with: a connection is left only if the grace period was over, and then the result says so. -/
def Server.Stopped (expired : Bool) (result : Option Failure) (x : Server) : Prop :=
  (x.goroutine = .started ∨ x.goroutine = .returned) ∧ x.inShutdown = true ∧
    (x.active = 0 ∨ expired = true ∧ result ≠ none)

def Stage.Allows (expired : Bool) : Stage → Server → Prop
  | .unbound, x => x.goroutine = .notStarted ∧ x.listener = .unbound
  | .bound, x => x.goroutine = .notStarted ∧ x.listener = .bound
  | .up, x => x.goroutine ≠ .notStarted ∧ x.inShutdown = false
  | .stopping, x => x.goroutine ≠ .notStarted ∧ x.inShutdown = true
  | .stopped result, x => x.Stopped expired result
  | .down result, x =>
    if result = some .listen then x.goroutine = .notStarted ∧ x.listener ≠ .bound else x.Stopped expired result

/-- The stage of server `i`. -/
def Main.stage (i : ℕ) : Main → Stage
  | .bind k => if i < k then .bound else .unbound
  | .spawn k => if i < k then .up else .bound
  | .select | .unready _ => .up
  | .shutdown k result => if i < k then .stopped result else .up
  | .drain k result => if i < k then .stopped result else if i = k then .stopping else .up
  | .join result | .closeRouter result | .cancel result | .closeSource result | .returned result => .down result

/-- The loop index is in its range, and `serve` has no error of `net.Listen`. -/
def Main.Sound (n : ℕ) : Main → Prop
  | .bind k | .spawn k => k ≤ n
  | .unready result | .join result => result ≠ some .listen
  | .shutdown k result => k ≤ n ∧ result ≠ some .listen
  | .drain k result => k < n ∧ result ≠ some .listen
  | _ => True

section Stages

variable {x x' : Server} {m : Server.Move} {e : Option ServeError} {expired : Bool} {result result' : Option Failure}

theorem Server.Stopped.mono (h : x.Stopped expired result) (hr : result' = none → result = none) :
    x.Stopped expired result' := by
  obtain ⟨hg, hs, ha⟩ := h
  refine ⟨hg, hs, ha.imp_right fun ⟨he, hne⟩ => ⟨he, fun h => hne (hr h)⟩⟩

theorem Server.Stopped.expire (h : x.Stopped expired result) : x.Stopped true result := by
  obtain ⟨hg, hs, ha⟩ := h
  exact ⟨hg, hs, ha.imp_right fun ⟨_, hne⟩ => ⟨rfl, hne⟩⟩

/-- The handlers of a stopped server only come to their end. -/
theorem Server.Stopped.moved (h : x.Stopped expired result) (hm : Server.Moved x m x' e) : x'.Stopped expired result := by
  obtain ⟨hg, hs, ha⟩ := h
  cases hm with
  | enter _ hs' => simp [hs] at hs'
  | accept hg' => simp [hg'] at hg
  | finish hpos => exact ⟨hg, hs, ha.imp_left fun h0 => absurd h0 hpos.ne'⟩
  | fail hg' => simp [hg'] at hg
  | late | leave => exact ⟨.inr rfl, hs, ha⟩

/-- A server that is not started makes no move. -/
theorem Server.Wf.not_moved (hw : x.Wf) (hg : x.goroutine = .notStarted) (hm : Server.Moved x m x' e) : False := by
  cases hm with
  | finish hpos => exact absurd (hw.notStarted hg).1 hpos.ne'
  | enter h | late h | accept h | fail h | leave h =>
    rw [hg] at h
    cases h

/-- A move of a started server keeps it started and is no `Shutdown`. -/
theorem Server.Moved.kept (hm : Server.Moved x m x' e) (hg : x.goroutine ≠ .notStarted) :
    x'.goroutine ≠ .notStarted ∧ x'.inShutdown = x.inShutdown := by
  cases hm with
  | enter | late | fail | leave => exact ⟨nofun, rfl⟩
  | accept | finish => exact ⟨hg, rfl⟩

/-- **The moves of a server keep it in its stage.** -/
theorem Stage.Allows.moved {stage : Stage} (h : stage.Allows expired x) (hw : x.Wf) (hm : Server.Moved x m x' e) :
    stage.Allows expired x' := by
  cases stage with
  | unbound | bound => exact (hw.not_moved h.1 hm).elim
  | up | stopping =>
    obtain ⟨hg, hs⟩ := hm.kept h.1
    exact ⟨hg, hs.trans h.2⟩
  | stopped result => exact Server.Stopped.moved h hm
  | down result =>
    simp only [Stage.Allows] at h ⊢
    split_ifs at h ⊢
    · exact (hw.not_moved h.1 hm).elim
    · exact h.moved hm

theorem Stage.Allows.expire {stage : Stage} (h : stage.Allows expired x) : stage.Allows true x := by
  cases stage with
  | unbound | bound | up | stopping => exact h
  | stopped result => exact Server.Stopped.expire h
  | down result =>
    simp only [Stage.Allows] at h ⊢
    split_ifs at h ⊢
    · exact h
    · exact h.expire

end Stages

/-! ### The invariants -/

namespace Process

/-- Every server is in the stage that the main goroutine has brought it to. -/
structure Staged (s : Process) : Prop where
  sound : s.main.Sound s.servers.length
  server : ∀ i x, s.servers[i]? = some x → x.Wf ∧ (s.main.stage i).Allows s.expired x

section Staged

variable {s : Process} {i : ℕ} {x y : Server} {main : Main}

/-- The main goroutine goes on and brings every server to its next stage. -/
theorem Staged.goOn (h : s.Staged) {s' : Process} (hmain : s'.main = main) (hservers : s'.servers = s.servers)
    (hexpired : s'.expired = s.expired) (hi : main.Sound s.servers.length)
    (hs : ∀ i x, s.servers[i]? = some x → x.Wf → (s.main.stage i).Allows s.expired x →
      (main.stage i).Allows s.expired x) : s'.Staged where
  sound := by rwa [hmain, hservers]
  server := by
    intro i x hx
    rw [hservers] at hx
    obtain ⟨hw, ha⟩ := h.server i x hx
    rw [hmain, hexpired]
    exact ⟨hw, hs i x hx hw ha⟩

/-- The main goroutine goes on and leaves every server in its stage. -/
theorem Staged.pass (h : s.Staged) {s' : Process} (hmain : s'.main = main) (hservers : s'.servers = s.servers)
    (hexpired : s'.expired = s.expired) (hi : main.Sound s.servers.length) (hs : ∀ i, main.stage i = s.main.stage i) :
    s'.Staged :=
  h.goOn hmain hservers hexpired hi fun i _ _ _ ha => (hs i).symm ▸ ha

/-- The main goroutine changes server `i` and goes on; the others stay in their stages. -/
theorem Staged.set (h : s.Staged) {s' : Process} (hmain : s'.main = main)
    (hservers : s'.servers = s.servers.set i y) (hexpired : s'.expired = s.expired) (hx : s.servers[i]? = some x)
    (hi : main.Sound s.servers.length)
    (hy : x.Wf → (s.main.stage i).Allows s.expired x → y.Wf ∧ (main.stage i).Allows s.expired y)
    (hs : ∀ j, j ≠ i → main.stage j = s.main.stage j) : s'.Staged where
  sound := by rw [hmain, hservers, List.length_set]; exact hi
  server := by
    intro j z hz
    rw [hservers, List.getElem?_set] at hz
    rw [hmain, hexpired]
    split_ifs at hz with hij hlt
    · cases hz
      subst hij
      exact hy (h.server i x hx).1 (h.server i x hx).2
    · obtain ⟨hw, ha⟩ := h.server j z hz
      exact ⟨hw, by rw [hs j (Ne.symm hij)]; exact ha⟩

theorem lt_of_get (hx : s.servers[i]? = some x) : i < s.servers.length := (List.getElem?_eq_some_iff.mp hx).1

theorem stage_succ_ne {k j : ℕ} {st st' : Stage} (hj : j ≠ k) :
    (if j < k + 1 then st else st') = if j < k then st else st' := by
  have : j < k + 1 ↔ j < k := by omega
  simp only [this]

/-- `Shutdown` returns, in either way. -/
theorem Staged.finish {result result' : Option Failure} (h : s.Staged) (hmain : s.main = .drain i result)
    (hx : s.servers[i]? = some x) (hg : x.goroutine ≠ .accepting) (hr : result' = none → result = none)
    (hl : result' = some .listen → result = some .listen) (ha : x.active = 0 ∨ s.expired = true ∧ result' ≠ none)
    {s' : Process} (hmain' : s'.main = .shutdown (i + 1) result') (hservers : s'.servers = s.servers)
    (hexpired : s'.expired = s.expired) : s'.Staged := by
  have hs := h.sound
  rw [hmain] at hs
  refine h.goOn hmain' hservers hexpired ⟨lt_of_get hx, mt hl hs.2⟩ fun j y hy _ hstage => ?_
  rw [hmain, Main.stage] at hstage
  rw [Main.stage]
  rcases lt_trichotomy j i with hj | rfl | hj
  · rw [if_pos hj] at hstage
    rw [if_pos (hj.trans (lt_add_one i))]
    exact Server.Stopped.mono hstage hr
  · rw [if_neg (lt_irrefl j), if_pos rfl] at hstage
    rw [if_pos (lt_add_one j)]
    obtain rfl := Option.some.inj (hy.symm.trans hx)
    refine ⟨?_, hstage.2, ha⟩
    cases hy' : y.goroutine with
    | notStarted => exact absurd hy' hstage.1
    | accepting => exact absurd hy' hg
    | started => exact .inl rfl
    | returned => exact .inr rfl
  · rw [if_neg hj.not_gt, if_neg hj.ne'] at hstage
    rw [if_neg (by omega)]
    exact hstage

theorem staged_step {s' : Process} {a : Action} {o : Option Watcher.Output} (h : s.Staged) (hst : Stepped s a s' o) :
    s'.Staged := by
  cases hst with
  | @listen i x hmain hx =>
    refine h.set rfl rfl rfl hx (lt_of_get hx) (fun hw ha => ?_) fun j hj => ?_
    · rw [hmain, Main.stage, if_neg (lt_irrefl i)] at ha
      rw [Main.stage, if_pos (lt_add_one i)]
      exact ⟨hw.listener ha.1 .bound, ha.1, rfl⟩
    · rw [hmain]
      exact stage_succ_ne hj
  | @listenFailed i hmain =>
    refine ⟨trivial, fun j y hy => ?_⟩
    rw [List.getElem?_map] at hy
    obtain ⟨x, hx, rfl⟩ := Option.map_eq_some_iff.mp hy
    obtain ⟨hw, ha⟩ := h.server j x hx
    have hg : x.goroutine = .notStarted := by
      rw [hmain, Main.stage] at ha
      split_ifs at ha <;> exact ha.1
    refine ⟨hw.listener hg _, ?_⟩
    rw [Main.stage, Stage.Allows, if_pos rfl]
    refine ⟨hg, ?_⟩
    by_cases hl : x.listener = .bound <;> simp [closeListener, hl]
  | launch hmain =>
    refine h.goOn rfl rfl rfl (Nat.zero_le _) fun i x hx _ ha => ?_
    rw [hmain, Main.stage, if_pos (lt_of_get hx)] at ha
    exact ha
  | @spawn i x hmain hx =>
    refine h.set rfl rfl rfl hx (lt_of_get hx) (fun hw ha => ?_) fun j hj => ?_
    · rw [hmain, Main.stage, if_neg (lt_irrefl i)] at ha
      rw [Main.stage, if_pos (lt_add_one i)]
      exact ⟨hw.start ha.1 ha.2, nofun, (hw.notStarted ha.1).2⟩
    · rw [hmain]
      exact stage_succ_ne hj
  | storeServing hmain =>
    refine h.goOn rfl rfl rfl trivial fun i x hx _ ha => ?_
    rw [hmain, Main.stage, if_pos (lt_of_get hx)] at ha
    exact ha
  | wakeSignal hmain => exact h.pass rfl rfl rfl nofun fun _ => by rw [hmain]; rfl
  | wakeError hmain =>
    refine h.pass rfl rfl rfl ?_ fun _ => by rw [hmain]; rfl
    rw [Main.Sound]
    split_ifs <;> nofun
  | @storeUnready result hmain =>
    have hs := h.sound
    rw [hmain] at hs
    exact h.pass rfl rfl rfl ⟨Nat.zero_le _, hs⟩ fun _ => by simp [Main.stage, hmain]
  | @shutdown i result x hmain hx =>
    have hs := h.sound
    rw [hmain] at hs
    refine h.set rfl rfl rfl hx ⟨lt_of_get hx, hs.2⟩ (fun hw ha => ?_) fun j hj => ?_
    · rw [hmain, Main.stage, if_neg (lt_irrefl i)] at ha
      rw [Main.stage, if_neg (lt_irrefl i), if_pos rfl]
      exact ⟨hw.shutdown ha.1, ha.1, rfl⟩
    · rw [hmain, Main.stage, Main.stage, if_neg hj]
  | drained hmain hx hg hr hl ha => exact h.finish hmain hx hg hr hl (.inl ha) rfl rfl rfl
  | timeout hmain hx hg hr hl ha => exact h.finish hmain hx hg hr hl (.inr ha) rfl rfl rfl
  | @noRelay result hmain =>
    have hs := h.sound
    rw [hmain] at hs
    refine h.goOn rfl rfl rfl trivial fun i x hx _ ha => ?_
    rw [hmain, Main.stage, if_pos (lt_of_get hx)] at ha
    rw [Main.stage, Stage.Allows, if_neg hs.2]
    exact ha
  | @stopRelay result hmain =>
    have hs := h.sound
    rw [hmain] at hs
    refine h.goOn rfl rfl rfl hs.2 fun i x hx _ ha => ?_
    rw [hmain, Main.stage, if_pos (lt_of_get hx)] at ha
    rw [Main.stage, Stage.Allows, if_neg hs.2]
    exact ha
  | join hmain => exact h.pass rfl rfl rfl trivial fun _ => by rw [hmain]; rfl
  | closeRouter hmain => exact h.pass rfl rfl rfl trivial fun _ => by rw [hmain]; rfl
  | cancel hmain => exact h.pass rfl rfl rfl trivial fun _ => by rw [hmain]; rfl
  | closeSource hmain => exact h.pass rfl rfl rfl trivial fun _ => by rw [hmain]; rfl
  | signal => exact ⟨h.sound, h.server⟩
  | expire => exact ⟨h.sound, fun i x hx => ⟨(h.server i x hx).1, (h.server i x hx).2.expire⟩⟩
  | server hx hm =>
    exact h.set rfl rfl rfl hx h.sound (fun hw ha => ⟨hw.moved hm, ha.moved hw hm⟩) fun _ _ => rfl
  | watch => exact ⟨h.sound, h.server⟩
  | relay => exact ⟨h.sound, h.server⟩

end Staged

theorem staged_init (c : Config) (queue : Bool) (router : Cluster.Directory) : (init c queue router).Staged where
  sound := Nat.zero_le _
  server := by
    intro i x hx
    obtain rfl := List.eq_of_mem_replicate (List.mem_of_getElem? hx)
    exact ⟨Server.wf_new, by simp [init, Main.stage, Stage.Allows, Server.new]⟩

end Process

/-- Between the two stores of `serving`. -/
def Main.serves : Main → Bool
  | .select | .unready _ => true
  | _ => false

/-- The goroutines beside the servers are started, and `serve` has not returned. -/
def Main.launched : Main → Bool
  | .spawn _ | .select | .unready _ | .shutdown _ _ | .drain _ _ => true
  | _ => false

/-- No server is shut down yet. -/
def Main.early : Main → Bool
  | .bind _ | .spawn _ | .select => true
  | _ => false

/-- `serving.Store(false)` has been reached. -/
def Main.passed : Main → Bool
  | .bind _ | .spawn _ | .select | .unready _ => false
  | _ => true

/-- `serve` has returned, or `bindServers` has failed. -/
def Main.left : Main → Bool
  | .join _ | .closeRouter _ | .cancel _ | .closeSource _ | .returned _ => true
  | _ => false

/-- After the join of the relay. -/
def Main.joined : Main → Bool
  | .closeRouter _ | .cancel _ | .closeSource _ | .returned _ => true
  | _ => false

/-- Which of the router, the shared work and the source are closed. -/
def Main.effects : Main → Bool × Bool × Bool
  | .cancel _ => (true, false, false)
  | .closeSource _ => (true, true, false)
  | .returned _ => (true, true, true)
  | _ => (false, false, false)

/-- The result, once the select has returned. -/
def Main.result? : Main → Option (Option Failure)
  | .bind _ | .spawn _ | .select => none
  | .unready result | .shutdown _ result | .drain _ result | .join result | .closeRouter result | .cancel result
  | .closeSource result | .returned result => some result

namespace Process

/-- The flags are those of the place where the main goroutine stands. -/
structure Controlled (s : Process) : Prop where
  serving : s.serving = s.main.serves
  effects : (s.routerClosed, s.canceled, s.sourceClosed) = s.main.effects
  errors : s.main.early = true → ∀ e ∈ s.errorsC, e = .accept
  signaled : s.main.result? = some none → s.signaled = true

section Controlled

variable {s s' : Process} {a : Action} {o : Option Watcher.Output}

/-- Before the first `Shutdown`, a server that stops serving has failed. -/
theorem Staged.failed (h : s.Staged) (hearly : s.main.early = true) {i : ℕ} {x x' : Server} {m : Server.Move}
    {e : ServeError} (hx : s.servers[i]? = some x) (hm : Server.Moved x m x' (some e)) : e = .accept := by
  obtain ⟨hw, ha⟩ := h.server i x hx
  have hs : x.inShutdown = false := by
    cases hmain : s.main with
    | bind k =>
      rw [hmain, Main.stage] at ha
      split_ifs at ha <;> exact (hw.notStarted ha.1).2
    | spawn k =>
      rw [hmain, Main.stage] at ha
      split_ifs at ha
      · exact ha.2
      · exact (hw.notStarted ha.1).2
    | select =>
      rw [hmain] at ha
      exact ha.2
    | _ =>
      rw [hmain] at hearly
      cases hearly
  cases hm with
  | fail => rfl
  | late _ hs' | leave _ hs' => simp [hs] at hs'

theorem controlled_step (h : s.Controlled) (hstaged : s.Staged) (hst : Stepped s a s' o) : s'.Controlled := by
  obtain ⟨hserving, heffects, herrors, hsignaled⟩ := h
  cases hst with
  | listen hmain | spawn hmain | shutdown hmain =>
    rw [hmain] at hserving heffects herrors hsignaled
    exact ⟨hserving, heffects, herrors, hsignaled⟩
  | listenFailed hmain =>
    rw [hmain] at hserving heffects
    exact ⟨hserving, heffects, nofun, nofun⟩
  | launch hmain =>
    rw [hmain] at hserving heffects herrors
    exact ⟨hserving, heffects, herrors, nofun⟩
  | storeServing hmain =>
    rw [hmain] at heffects herrors
    exact ⟨rfl, heffects, herrors, nofun⟩
  | wakeSignal hmain hs =>
    rw [hmain] at hserving heffects
    exact ⟨hserving, heffects, nofun, fun _ => hs⟩
  | @wakeError e rest hmain he =>
    have haccept : e = .accept := by
      refine herrors (by rw [hmain]; rfl) e ?_
      rw [he]
      exact List.mem_cons_self
    rw [hmain] at hserving heffects
    exact ⟨hserving, heffects, nofun, by simp [Main.result?, haccept]⟩
  | storeUnready hmain =>
    rw [hmain] at heffects hsignaled
    exact ⟨rfl, heffects, nofun, hsignaled⟩
  | drained hmain _ _ hr | timeout hmain _ _ hr =>
    rw [hmain] at hserving heffects hsignaled
    exact ⟨hserving, heffects, nofun, fun hnone => hsignaled (congrArg some (hr (Option.some.inj hnone)))⟩
  | noRelay hmain | stopRelay hmain | join hmain =>
    rw [hmain] at hserving heffects hsignaled
    exact ⟨hserving, heffects, nofun, hsignaled⟩
  | closeRouter hmain | cancel hmain | closeSource hmain =>
    rw [hmain] at hserving heffects hsignaled
    simp only [Main.effects, Prod.mk.injEq] at heffects
    exact ⟨hserving, by simp [Main.effects, heffects], nofun, hsignaled⟩
  | signal => exact ⟨hserving, heffects, herrors, fun _ => rfl⟩
  | expire | watch | relay => exact ⟨hserving, heffects, herrors, hsignaled⟩
  | @server i m x x' e hx hm =>
    refine ⟨hserving, heffects, fun hearly e' he' => ?_, hsignaled⟩
    rcases List.mem_append.mp he' with he' | he'
    · exact herrors hearly e' he'
    · obtain rfl := Option.mem_toList.mp he'
      exact hstaged.failed hearly hx hm

theorem passed_step (h : s.main.passed = true) (hst : Stepped s a s' o) : s'.main.passed = true := by
  cases hst with
  | listen hmain | listenFailed hmain | launch hmain | spawn hmain | storeServing hmain | wakeSignal hmain
  | wakeError hmain | storeUnready hmain =>
    rw [hmain] at h
    cases h
  | shutdown | drained | timeout | noRelay | stopRelay | join | closeRouter | cancel | closeSource => rfl
  | signal | expire | server | watch | relay => exact h

end Controlled

/-! ### The relay and the watcher as they run inside -/

abbrev Trace := List (Action × Option Watcher.Output)

def Action.relay? : Action → Option (Loop.Event RunRequest RunRequest.Reply)
  | .relay e => some e
  | _ => none

/-- The events of the relay. -/
def relayEvents (tr : Trace) : List (Loop.Event RunRequest RunRequest.Reply × Unit) :=
  tr.filterMap fun x => x.1.relay?.map fun e => (e, ())

/-- The events of the watcher. -/
def watchEvents (tr : Trace) : List (Watcher.Action × Watcher.Output) :=
  tr.filterMap fun
    | (.watch a, some o) => some (a, o)
    | _ => none

/-- What the relay is to the main goroutine: a run of `Worker.Run` that has seen its context canceled only after
`stopRelay`, and that is over at the join. -/
structure Relayed (tr : Trace) (s : Process) : Prop where
  bound : ∀ i, s.main = .bind i → s.relay = none
  absent : s.relay = none → relayEvents tr = []
  started : s.main.launched = true → s.relay.isSome = s.relayed
  run : ∀ l, s.relay = some l → Run (Loop.step run) (Loop.start run (.check none)) (relayEvents tr) l
  stops : ∀ y ∈ Loop.calls (relayEvents tr), RunCall.stops y = true → s.relayStopped = true
  stopped : s.relayStopped = true → s.main.left = true
  failed : s.main.result? = some (some .listen) → s.relay = none
  waiting : ∀ result, s.main = .join result → s.relay.isSome = true ∧ s.relayStopped = true
  joined : s.main.joined = true → ∀ l, s.relay = some l → l = .returned

section Relayed

variable {s s' : Process} {tr : Trace} {a : Action} {o : Option Watcher.Output}

theorem relayEvents_snoc (tr : Trace) (ha : a.relay? = none) : relayEvents (tr ++ [(a, o)]) = relayEvents tr := by
  simp [relayEvents, ha]

theorem relayEvents_relay (tr : Trace) (e : Loop.Event RunRequest RunRequest.Reply) :
    relayEvents (tr ++ [(.relay e, o)]) = relayEvents tr ++ [(e, ())] := by
  simp [relayEvents, Action.relay?]

/-- A step of the others that leaves the relay alone. -/
theorem Relayed.other (h : Relayed tr s) (ha : a.relay? = none) (hrelay : s'.relay = s.relay)
    (hrelayed : s'.relayed = s.relayed) (hstopped : s.relayStopped = true → s'.relayStopped = true)
    (hbound : ∀ i, s'.main = .bind i → s.relay = none)
    (hlaunched : s'.main.launched = true → s.relay.isSome = s.relayed)
    (hleft : s'.relayStopped = true → s'.main.left = true)
    (hfailed : s'.main.result? = some (some .listen) → s.relay = none)
    (hwaiting : ∀ result, s'.main = .join result → s.relay.isSome = true ∧ s'.relayStopped = true)
    (hjoined : s'.main.joined = true → ∀ l, s.relay = some l → l = .returned) : Relayed (tr ++ [(a, o)]) s' := by
  obtain ⟨-, habsent, -, hrun, hstops, -, -, -, -⟩ := h
  rw [← hrelay] at hbound habsent hlaunched hfailed hwaiting hjoined
  refine ⟨hbound, ?_, hrelayed ▸ hlaunched, ?_, ?_, hleft, hfailed, hwaiting, hjoined⟩
  · rw [relayEvents_snoc tr ha]
    exact habsent
  · rw [relayEvents_snoc tr ha, hrelay]
    exact hrun
  · rw [relayEvents_snoc tr ha]
    exact fun y hy hs => hstopped (hstops y hy hs)

/-- A canceled context is one that was stopped. -/
theorem stops_truthful {stopped : Bool} {y : RunCall} (h : Truthful stopped (.called y) = true) (hs : y.stops = true) :
    stopped = true := by
  obtain ⟨r, b⟩ := y
  cases r with
  | canceled =>
    have hb : b = true := hs
    subst hb
    simpa [Truthful] using h
  | poll _ =>
    have hb : b = true := hs
    subst hb
    simpa [Truthful] using h
  | _ => cases hs

theorem relayed_step (h : Relayed tr s) (hst : Stepped s a s' o) : Relayed (tr ++ [(a, o)]) s' := by
  have hstopped : ∀ {main : Main}, s.main = main → main.left = false → ¬ s.relayStopped = true := by
    intro main hmain hleft hs
    rw [← hmain, h.stopped hs] at hleft
    cases hleft
  have hfailed : ∀ {main : Main}, s.main = main → main.result? = some (some .listen) → s.relay = none := by
    intro main hmain
    rw [← hmain]
    exact h.failed
  cases hst with
  | listen hmain =>
    exact h.other rfl rfl rfl id (fun _ _ => h.bound _ hmain) nofun (fun hs => absurd hs (hstopped hmain rfl)) nofun nofun nofun
  | listenFailed hmain =>
    have hnone := h.bound _ hmain
    exact h.other rfl rfl rfl id nofun nofun (fun _ => rfl) (fun _ => hnone) nofun (by simp [hnone])
  | launch hmain =>
    have hnone := h.bound _ hmain
    have hevents : relayEvents (tr ++ [(Action.launch, none)]) = [] := by
      rw [relayEvents_snoc tr rfl, h.absent hnone]
    refine ⟨nofun, fun _ => hevents, fun _ => ?_, fun l hl => ?_, fun y hy => ?_,
      fun hs => absurd hs (hstopped hmain rfl), nofun, nofun, nofun⟩
    · by_cases hr : s.relayed = true <;> simp [hr]
    · split_ifs at hl
      cases hl
      rw [hevents]
      exact .nil
    · rw [hevents] at hy
      cases hy
  | spawn hmain | storeServing hmain | wakeSignal hmain =>
    have hstarted := h.started (by rw [hmain]; rfl)
    exact h.other rfl rfl rfl id nofun (fun _ => hstarted) (fun hs => absurd hs (hstopped hmain rfl)) nofun nofun nofun
  | wakeError hmain =>
    have hstarted := h.started (by rw [hmain]; rfl)
    refine h.other rfl rfl rfl id nofun (fun _ => hstarted) (fun hs => absurd hs (hstopped hmain rfl)) ?_ nofun nofun
    simp only [Main.result?]
    split_ifs <;> nofun
  | storeUnready hmain | shutdown hmain =>
    have hstarted := h.started (by rw [hmain]; rfl)
    exact h.other rfl rfl rfl id nofun (fun _ => hstarted) (fun hs => absurd hs (hstopped hmain rfl))
      (fun hr => hfailed hmain hr) nofun nofun
  | drained hmain _ _ _ hl | timeout hmain _ _ _ hl =>
    have hstarted := h.started (by rw [hmain]; rfl)
    exact h.other rfl rfl rfl id nofun (fun _ => hstarted) (fun hs => absurd hs (hstopped hmain rfl))
      (fun hr => hfailed hmain (congrArg some (hl (Option.some.inj hr)))) nofun nofun
  | noRelay hmain hnone => exact h.other rfl rfl rfl id nofun nofun (fun _ => rfl) (fun _ => hnone) nofun (by simp [hnone])
  | stopRelay hmain hsome =>
    exact h.other rfl rfl rfl (fun _ => rfl) nofun nofun (fun _ => rfl) (fun hr => hfailed hmain hr)
      (fun _ _ => ⟨hsome, rfl⟩) nofun
  | join hmain hreturned =>
    exact h.other rfl rfl rfl id nofun nofun (fun _ => rfl) (fun hr => hfailed hmain hr) nofun (by simp [hreturned])
  | closeRouter hmain | cancel hmain | closeSource hmain =>
    have hjoined := h.joined (by rw [hmain]; rfl)
    exact h.other rfl rfl rfl id nofun nofun (fun _ => rfl) (fun hr => hfailed hmain hr) nofun fun _ => hjoined
  | signal | expire | server | watch =>
    exact h.other rfl rfl rfl id h.bound h.started h.stopped h.failed h.waiting h.joined
  | @relay e l l' u hl htruth hstep =>
    refine ⟨fun i hmain => ?_, nofun, fun hm => ?_, fun l₁ hl₁ => ?_, fun y hy hs => ?_, h.stopped, fun hm => ?_,
      fun result hm => ⟨rfl, (h.waiting result hm).2⟩, fun hm l₁ hl₁ => ?_⟩
    · rw [h.bound i hmain] at hl
      cases hl
    · rw [← h.started hm, hl]
      rfl
    · cases hl₁
      rw [relayEvents_relay]
      exact .snoc (h.run l hl) hstep
    · rw [relayEvents_relay] at hy
      cases e with
      | back =>
        rw [Loop.calls_snoc_back] at hy
        exact h.stops y hy hs
      | called x =>
        rw [Loop.calls_snoc_called] at hy
        rcases List.mem_append.mp hy with hy | hy
        · exact h.stops y hy hs
        · obtain rfl := List.mem_singleton.mp hy
          exact stops_truthful htruth hs
    · rw [h.failed hm] at hl
      cases hl
    · rw [h.joined hm l hl] at hstep
      cases hstep

theorem relayed_init (c : Config) (queue : Bool) (router : Cluster.Directory) : Relayed [] (init c queue router) :=
  ⟨fun _ _ => rfl, fun _ => rfl, nofun, nofun, nofun, nofun, nofun, nofun, nofun⟩

end Relayed

section Watched

variable {s s' : Process} {tr : Trace} {a : Action} {o : Option Watcher.Output} {router : Cluster.Directory}

/-- The watcher inside is a run of the watcher. -/
def Watched (router : Cluster.Directory) (tr : Trace) (s : Process) : Prop :=
  ∀ w, s.watcher = some w → Run Watcher.step (Watcher.new router) (watchEvents tr) w

theorem watchEvents_append (tr tr' : Trace) : watchEvents (tr ++ tr') = watchEvents tr ++ watchEvents tr' :=
  List.filterMap_append

theorem watched_step (h : Watched router tr s) (hst : Stepped s a s' o) : Watched router (tr ++ [(a, o)]) s' := by
  intro w hw
  rw [watchEvents_append]
  cases hst with
  | watch hw₀ _ _ hstep =>
    cases hw
    exact .snoc (h _ hw₀) hstep
  | _ => exact (List.append_nil (watchEvents tr)).symm ▸ h w hw

theorem watched_init (c : Config) (queue : Bool) (router : Cluster.Directory) :
    Watched router [] (init c queue router) := by
  intro w hw
  simp only [init] at hw
  split_ifs at hw
  cases hw
  exact .nil

end Watched

/-- The invariants of a process along its run. -/
structure Inv (router : Cluster.Directory) (tr : Trace) (s : Process) : Prop where
  staged : s.Staged
  controlled : s.Controlled
  relayed : Relayed tr s
  watched : Watched router tr s
  /-- `serving.Store(false)` is behind. -/
  passed : (.storeUnready, none) ∈ tr → s.main.passed = true

theorem inv_run {c : Config} {queue : Bool} {router : Cluster.Directory} {tr : Trace} {s : Process}
    (h : Run step (init c queue router) tr s) : Inv router tr s := by
  refine h.rec_inv (I := Inv router) ?_ fun tr s a o s' _ hI hst => ?_
  · exact ⟨staged_init c queue router, ⟨rfl, rfl, nofun, nofun⟩, relayed_init c queue router,
      watched_init c queue router, nofun⟩
  · obtain ⟨hstaged, hcontrolled, hrelayed, hwatched, hpassed⟩ := hI
    have hst := stepped_of_step hst
    refine ⟨staged_step hstaged hst, controlled_step hcontrolled hstaged hst, relayed_step hrelayed hst,
      watched_step hwatched hst, fun hmem => ?_⟩
    rcases List.mem_append.mp hmem with hmem | hmem
    · exact passed_step (hpassed hmem) hst
    · rw [List.mem_singleton, Prod.mk.injEq] at hmem
      obtain ⟨rfl, rfl⟩ := hmem
      cases hst
      rfl

/-- **What readiness means.**  In every reachable state of a process, whatever signals, failing listeners, requests,
changes of the endpoints and answers to the relay came before: when `ready` answers true, every server has been started on
a listener that was bound and is still open unless `Serve` has failed, and none is shutting down; with discovery, the
directory shows what the informer's store held at some time of this run; the relay, if there is one, is running; and
nothing shared is closed.  Once readiness was taken back it does not return. -/
theorem ready_serves {c : Config} {queue : Bool} {router : Cluster.Directory} {tr : Trace} {s : Process}
    (hrun : Run step (init c queue router) tr s) :
    (s.ready = true →
      (∀ x ∈ s.servers, x.goroutine ≠ .notStarted ∧ x.inShutdown = false ∧
        (x.listener = .bound ∨ x.goroutine = .returned)) ∧
      (∀ w, s.watcher = some w → ∃ store, Watcher.Held (watchEvents tr) store ∧ Watcher.Shows w.router store) ∧
      (s.relayed = true → ∃ l, s.relay = some l ∧ l ≠ .returned) ∧
      s.routerClosed = false ∧ s.canceled = false ∧ s.sourceClosed = false) ∧
    ((.storeUnready, none) ∈ tr → s.ready = false) := by
  obtain ⟨hstaged, hcontrolled, hrelayed, hwatched, hpassed⟩ := inv_run hrun
  refine ⟨fun hready => ?_, fun hmem => ?_⟩
  · obtain ⟨hserving, hwatch⟩ := Bool.and_eq_true_iff.mp hready
    have hserves : s.main.serves = true := hcontrolled.serving ▸ hserving
    have hup : ∀ i, s.main.stage i = .up ∧ s.main.effects = (false, false, false) ∧ s.main.launched = true ∧
        s.main.left = false := by
      intro i
      cases hmain : s.main with
      | select | unready => exact ⟨rfl, rfl, rfl, rfl⟩
      | _ =>
        rw [hmain] at hserves
        cases hserves
    refine ⟨fun x hx => ?_, fun w hw => ?_, fun hr => ?_, ?_⟩
    · obtain ⟨i, hi⟩ := List.mem_iff_getElem?.mp hx
      obtain ⟨hw, ha⟩ := hstaged.server i x hi
      rw [(hup i).1] at ha
      refine ⟨ha.1, ha.2, ?_⟩
      cases hg : x.goroutine with
      | notStarted => exact absurd hg ha.1
      | started => exact .inl (hw.started hg).2
      | accepting => exact .inl (by simpa [ha.2] using hw.accepting hg)
      | returned => exact .inr rfl
    · rw [hw] at hwatch
      exact (Watcher.sourced_run (hwatched w hw)).ready hwatch
    · have hsome := hrelayed.started (hup 0).2.2.1
      rw [hr, Option.isSome_iff_exists] at hsome
      obtain ⟨l, hl⟩ := hsome
      refine ⟨l, hl, ?_⟩
      rintro rfl
      -- a relay that has returned was stopped, and then readiness is over
      obtain ⟨y, hy, hstops⟩ := Outbox.returned_stops (hrelayed.run _ hl)
      have := hrelayed.stopped (hrelayed.stops y hy hstops)
      rw [(hup 0).2.2.2] at this
      cases this
    · have heff := hcontrolled.effects
      rw [(hup 0).2.1] at heff
      simpa using heff
  · have hserves : s.main.serves = false := by
      have := hpassed hmem
      cases hmain : s.main with
      | select | unready =>
        rw [hmain] at this
        cases this
      | _ => rfl
    rw [ready, hcontrolled.serving, hserves]
    rfl

/-- A Pod with the API, the discovery and the relay. -/
def podConfig : Config :=
  { baseConfig 8001 true (fun _ => []) with
    discoveryMode := Go.ascii "kubernetes"
    adminToken := Go.ascii "token" }

/-- The process of the Pod. -/
def pod : Process := init podConfig true (Cluster.newDirectory (Go.ascii "shop/cache-0") (Go.ascii "token"))

/-- From the first listener to the first published members. -/
def startup : List Action :=
  [.listen true, .listen true, .launch, .spawn, .spawn, .storeServing, .server 0 .enter, .server 1 .enter, .watch .sync,
   .watch (.list []), .watch .publish]

theorem startup_isSome : (Lib.exec step pod startup).isSome = true := by decide +kernel

/-- The Pod becomes ready, with its relay running. -/
theorem ready_serves_startup : ∃ tr s, Run step pod tr s ∧ s.ready = true ∧ s.servers.length = 2 ∧
    (∀ x ∈ s.servers, x.listener = .bound ∨ x.goroutine = .returned) ∧ ∃ l, s.relay = some l ∧ l ≠ .returned := by
  have hrun := Lib.exec_get startup_isSome
  have hready : ready ((Lib.exec step pod startup).get startup_isSome).1 = true := by decide +kernel
  obtain ⟨hservers, -, hrelay, -⟩ := (ready_serves hrun).1 hready
  exact ⟨_, _, hrun, hready, by decide +kernel, fun x hx => (hservers x hx).2.2, hrelay (by decide +kernel)⟩

/-- A server after `serve` has returned or `bindServers` has failed. -/
theorem Staged.left {s : Process} (h : s.Staged) (hleft : s.main.left = true) {x : Server} (hx : x ∈ s.servers) :
    x.Wf ∧ ∃ result, s.main.result? = some result ∧
      if result = some .listen then x.goroutine = .notStarted ∧ x.listener ≠ .bound else x.Stopped s.expired result := by
  obtain ⟨i, hi⟩ := List.mem_iff_getElem?.mp hx
  obtain ⟨hw, ha⟩ := h.server i x hi
  refine ⟨hw, ?_⟩
  cases hmain : s.main with
  | join result | closeRouter result | cancel result | closeSource result | returned result =>
    rw [hmain] at ha
    exact ⟨result, rfl, ha⟩
  | _ =>
    rw [hmain] at hleft
    cases hleft

/-- **The order in which a process takes itself apart.**  In every reachable state: the relay is told to stop only when
no server accepts any more, with a connection left only if the grace period was over; the router is closed only after the
relay has returned, the shared work canceled only after that, and the source closed last.  When the process returns: after
a failed `net.Listen` nothing was started and no listener is left open; otherwise every server is shut down, and one whose
goroutine has not run yet will close its listener; and a nil result means that a signal came and that every active
connection has ended. -/
theorem shutdown_order {c : Config} {queue : Bool} {router : Cluster.Directory} {tr : Trace} {s : Process}
    (hrun : Run step (init c queue router) tr s) :
    (s.relayStopped = true → ∀ x ∈ s.servers, x.goroutine ≠ .accepting ∧ (0 < x.active → s.expired = true)) ∧
    (s.routerClosed = true → ∀ l, s.relay = some l → l = .returned) ∧
    (s.canceled = true → s.routerClosed = true) ∧ (s.sourceClosed = true → s.canceled = true) ∧
    ∀ result, s.main = .returned result →
      (result = some .listen → s.relay = none ∧
        ∀ x ∈ s.servers, x.goroutine = .notStarted ∧ x.listener ≠ .bound) ∧
      (result ≠ some .listen → ∀ x ∈ s.servers, x.inShutdown = true ∧
        (x.goroutine = .returned ∧ x.listener = .closed ∨ x.goroutine = .started)) ∧
      (result = none → s.signaled = true ∧ ∀ x ∈ s.servers, x.active = 0) := by
  obtain ⟨hstaged, hcontrolled, hrelayed, -, -⟩ := inv_run hrun
  have heffects := hcontrolled.effects
  refine ⟨fun hstop x hx => ?_, fun hclosed => hrelayed.joined ?_, fun hcancel => ?_, fun hsource => ?_, ?_⟩
  · obtain ⟨hw, result, -, ha⟩ := hstaged.left (hrelayed.stopped hstop) hx
    split_ifs at ha
    · exact ⟨by simp [ha.1], fun hpos => absurd (hw.notStarted ha.1).1 hpos.ne'⟩
    · obtain ⟨hg, -, hactive⟩ := ha
      refine ⟨fun h => by simp [h] at hg, fun hpos => ?_⟩
      exact (hactive.resolve_left hpos.ne').1
  · cases hmain : s.main with
    | closeRouter | cancel | closeSource | returned => rfl
    | _ => simp [hmain, hclosed, Main.effects] at heffects
  · cases hmain : s.main with
    | _ => simp_all [Main.effects]
  · cases hmain : s.main with
    | _ => simp_all [Main.effects]
  · intro result hmain
    have hleft : s.main.left = true := by rw [hmain]; rfl
    have hserver : ∀ x ∈ s.servers, x.Wf ∧ if result = some .listen then x.goroutine = .notStarted ∧ x.listener ≠ .bound
        else x.Stopped s.expired result := by
      intro x hx
      obtain ⟨hw, result', hr, ha⟩ := hstaged.left hleft hx
      rw [hmain] at hr
      obtain rfl := Option.some.inj hr
      exact ⟨hw, ha⟩
    refine ⟨fun hr => ⟨hrelayed.failed (by rw [hmain, hr]; rfl), fun x hx => ?_⟩, fun hr x hx => ?_, fun hr => ⟨?_, ?_⟩⟩
    · simpa [hr] using (hserver x hx).2
    · obtain ⟨hw, ha⟩ := hserver x hx
      rw [if_neg hr] at ha
      exact ⟨ha.2.1, ha.1.symm.imp_left fun hg => ⟨hg, hw.returned hg⟩⟩
    · exact hcontrolled.signaled (by rw [hmain, hr]; rfl)
    · intro x hx
      have ha := (hserver x hx).2
      rw [hr, if_neg (by simp)] at ha
      exact ha.2.2.resolve_right fun h => h.2 rfl

/-- A signal comes while a request is handled; the request ends, and so does the relay. -/
def stopping : List Action :=
  startup ++ [.server 1 .accept, .signal, .wakeSignal, .storeUnready, .shutdown, .server 0 .leave, .drained true,
   .shutdown, .server 1 .leave, .server 1 .finish, .drained true, .stopRelay, .relay (.called ⟨.canceled, true⟩),
   .relay .back, .join, .closeRouter, .cancel, .closeSource]

theorem stopping_isSome : (Lib.exec step pod stopping).isSome = true := by decide +kernel

/-- The Pod returns without an error, and nothing is left of the request. -/
theorem shutdown_order_stopping : ∃ tr s, Run step pod tr s ∧ s.main = .returned none ∧ s.sourceClosed = true ∧
    s.routerClosed = true ∧ ∀ x ∈ s.servers, x.active = 0 ∧ x.inShutdown = true := by
  have hrun := Lib.exec_get stopping_isSome
  have hmain : ((Lib.exec step pod stopping).get stopping_isSome).1.main = .returned none := by decide +kernel
  have hsource : ((Lib.exec step pod stopping).get stopping_isSome).1.sourceClosed = true := by decide +kernel
  obtain ⟨-, -, hcancel, hclosed, hreturned⟩ := shutdown_order hrun
  obtain ⟨-, hshut, hnil⟩ := hreturned none hmain
  exact ⟨_, _, hrun, hmain, hsource, hcancel (hclosed hsource),
    fun x hx => ⟨(hnil rfl).2 x hx, (hshut (by decide) x hx).1⟩⟩

end Process

end SimpleCache.App
