import SimpleCache.App.Config
import SimpleCache.Discovery.Endpoints
import SimpleCache.Outbox.Loop

/-!
# App.Lifecycle — one process from its first listener to its last deferred call (`app/bootstrap.go`)

The main goroutine is `RunWithSource` from `bindServers` on, with `serve` and the deferred calls; `Main` says where it
stands.  Beside it run the goroutine of each `http.Server` with its connections, the `Watcher` of the discovery and the
relay, which are the machines of the modules about them.  Signals, failing listeners, requests and the end of the grace
period come at any point.

`Shutdown` of an `http.Server` closes the listener that `Serve` accepts on, waits until `Serve` has left its loop, and
then until no connection is active.  A goroutine that has not called `Serve` yet closes its listener when it does.

`Stepped` is what a step can do, with its guards.
-/

namespace SimpleCache.App

open Lib (Run Loop)
open Discovery (Watcher)
open Outbox (Head RunRequest)
open Outbox.Worker (run)

/-! ### One server -/

inductive Listener
  | unbound
  | bound
  | closed
  deriving DecidableEq, Repr

/-- The goroutine that `serve` starts for a server. -/
inductive Serving
  | notStarted
  /-- It has not called `Serve` yet. -/
  | started
  /-- In the loop of `Serve`, which tracks its listener. -/
  | accepting
  | returned
  deriving DecidableEq, Repr

/-- What `Serve` returns: `http.ErrServerClosed`, or the error of `Accept`. -/
inductive ServeError
  | serverClosed
  | accept
  deriving DecidableEq, Repr

/-- An `http.Server` with its listener. -/
structure Server where
  listener : Listener
  goroutine : Serving
  /-- The connections that are not idle. -/
  active : ℕ
  inShutdown : Bool
  deriving DecidableEq, Repr

namespace Server

def new : Server := ⟨.unbound, .notStarted, 0, false⟩

/-- What a server does beside the main goroutine. -/
inductive Move
  /-- The goroutine calls `Serve`. -/
  | enter
  | accept
  /-- A connection becomes idle or ends. -/
  | finish
  /-- `Accept` fails for good. -/
  | fail
  /-- `Accept` fails after `Shutdown` has closed the listener. -/
  | leave
  deriving DecidableEq, Repr

/-- `Serve` returns, closing its listener. -/
def quit (x : Server) : Server := { x with listener := .closed, goroutine := .returned }

/-- A move, with what `Serve` returned by it. -/
def move (x : Server) : Move → Option (Server × Option ServeError)
  | .enter =>
    if x.goroutine = .started then
      if x.inShutdown then some (x.quit, some .serverClosed) else some ({ x with goroutine := .accepting }, none)
    else none
  -- a connection that was accepted before the listener was closed may still come
  | .accept => if x.goroutine = .accepting then some ({ x with active := x.active + 1 }, none) else none
  | .finish => if 0 < x.active then some ({ x with active := x.active - 1 }, none) else none
  | .fail => if x.goroutine = .accepting ∧ x.inShutdown = false then some (x.quit, some .accept) else none
  | .leave => if x.goroutine = .accepting ∧ x.inShutdown = true then some (x.quit, some .serverClosed) else none

/-- The start of `Shutdown`: only a listener that `Serve` tracks is closed. -/
def shutdown (x : Server) : Server :=
  { x with inShutdown := true, listener := if x.goroutine = .accepting then .closed else x.listener }

/-- How the parts of a server belong together. -/
structure Wf (x : Server) : Prop where
  notStarted : x.goroutine = .notStarted → x.active = 0 ∧ x.inShutdown = false
  started : x.goroutine = .started → x.active = 0 ∧ x.listener = .bound
  accepting : x.goroutine = .accepting → x.listener = if x.inShutdown then .closed else .bound
  returned : x.goroutine = .returned → x.listener = .closed

/-- **What a move does.** -/
inductive Moved (x : Server) : Move → Server → Option ServeError → Prop
  | enter : x.goroutine = .started → x.inShutdown = false → Moved x .enter { x with goroutine := .accepting } none
  | late : x.goroutine = .started → x.inShutdown = true → Moved x .enter x.quit (some .serverClosed)
  | accept : x.goroutine = .accepting → Moved x .accept { x with active := x.active + 1 } none
  | finish : 0 < x.active → Moved x .finish { x with active := x.active - 1 } none
  | fail : x.goroutine = .accepting → x.inShutdown = false → Moved x .fail x.quit (some .accept)
  | leave : x.goroutine = .accepting → x.inShutdown = true → Moved x .leave x.quit (some .serverClosed)

theorem moved_of_move {x x' : Server} {m : Move} {e : Option ServeError} (h : x.move m = some (x', e)) :
    Moved x m x' e := by
  cases m with
  | enter =>
    simp only [move] at h
    split_ifs at h with hg hs <;> cases h
    · exact .late hg hs
    · exact .enter hg (by simpa using hs)
  | accept =>
    simp only [move] at h
    split_ifs at h with hg
    cases h
    exact .accept hg
  | finish =>
    simp only [move] at h
    split_ifs at h with hg
    cases h
    exact .finish hg
  | fail =>
    simp only [move] at h
    split_ifs at h with hg
    cases h
    exact .fail hg.1 hg.2
  | leave =>
    simp only [move] at h
    split_ifs at h with hg
    cases h
    exact .leave hg.1 hg.2

theorem wf_new : new.Wf := ⟨by decide, by decide, by decide, by decide⟩

theorem Wf.quit {x : Server} : x.quit.Wf := ⟨nofun, nofun, nofun, fun _ => rfl⟩

theorem Wf.moved {x x' : Server} {m : Move} {e : Option ServeError} (hw : x.Wf) (h : Moved x m x' e) : x'.Wf := by
  cases h with
  | enter hg hs => exact ⟨nofun, nofun, fun _ => by simp [hs, (hw.started hg).2], nofun⟩
  | accept hg =>
    refine ⟨fun h => ?_, fun h => ?_, hw.accepting, hw.returned⟩ <;>
    · rw [hg] at h
      cases h
  | finish ha =>
    refine ⟨fun h => ?_, fun h => ?_, hw.accepting, hw.returned⟩
    · exact absurd (hw.notStarted h).1 ha.ne'
    · exact absurd (hw.started h).1 ha.ne'
  | late | fail | leave => exact Wf.quit

/-- The listener of a server that is not started may change. -/
theorem Wf.listener {x : Server} (hw : x.Wf) (hg : x.goroutine = .notStarted) (l : Listener) :
    Wf { x with listener := l } := by
  obtain ⟨_, goroutine, active, inShutdown⟩ := x
  cases hg
  exact ⟨hw.notStarted, nofun, nofun, nofun⟩

theorem Wf.start {x : Server} (hw : x.Wf) (hg : x.goroutine = .notStarted) (hl : x.listener = .bound) :
    Wf { x with goroutine := .started } :=
  ⟨nofun, fun _ => ⟨(hw.notStarted hg).1, hl⟩, nofun, nofun⟩

theorem Wf.shutdown {x : Server} (hw : x.Wf) (hg : x.goroutine ≠ .notStarted) : x.shutdown.Wf := by
  obtain ⟨listener, goroutine, active, inShutdown⟩ := x
  cases goroutine with
  | notStarted => exact absurd rfl hg
  | started => exact ⟨nofun, fun _ => hw.started rfl, nofun, nofun⟩
  | accepting => exact ⟨nofun, nofun, fun _ => rfl, nofun⟩
  | returned => exact ⟨nofun, nofun, nofun, fun _ => hw.returned rfl⟩

end Server

/-! ### The process -/

/-- The errors that `RunWithSource` returns from `bindServers` on. -/
inductive Failure
  | listen
  | serve
  /-- `Shutdown` could not close a listener. -/
  | closeListener
  /-- The grace period was over. -/
  | deadline
  deriving DecidableEq, Repr

/-- Where the main goroutine stands, with the index of its loop and the result so far. -/
inductive Main
  | bind (i : ℕ)
  | spawn (i : ℕ)
  | select
  /-- Before `serving.Store(false)`. -/
  | unready (result : Option Failure)
  | shutdown (i : ℕ) (result : Option Failure)
  /-- In `Shutdown` of a server whose listener is closed. -/
  | drain (i : ℕ) (result : Option Failure)
  /-- The deferred calls: `<-relayDone`, `router.Close`, `cancel`, and the `source.Close` of `Run`. -/
  | join (result : Option Failure)
  | closeRouter (result : Option Failure)
  | cancel (result : Option Failure)
  | closeSource (result : Option Failure)
  | returned (result : Option Failure)
  deriving DecidableEq, Repr

/-- A relay worker as it runs. -/
abbrev RelayLoop := Loop Head RunRequest RunRequest.Reply

structure Process where
  main : Main
  servers : List Server
  /-- The channel that the goroutines of the servers send to. -/
  errorsC : List ServeError
  serving : Bool
  watcher : Option Watcher
  /-- The source is a queue and there is a token. -/
  relayed : Bool
  relay : Option RelayLoop
  /-- The goroutines of the watcher and the relay are started. -/
  launched : Bool
  /-- The context of the signal is done. -/
  signaled : Bool
  /-- The grace period is over. -/
  expired : Bool
  relayStopped : Bool
  routerClosed : Bool
  /-- The context of the shared work is canceled. -/
  canceled : Bool
  sourceClosed : Bool

namespace Process

/-- The process of a configuration before `bindServers`; `queue` says whether its source is an `outbox.Queue`. -/
def init (c : Config) (queue : Bool) (router : Cluster.Directory) : Process where
  main := .bind 0
  servers := List.replicate (1 + (if c.api then 1 else 0) + if c.debugAddr ≠ [] then 1 else 0) .new
  errorsC := []
  serving := false
  watcher := if c.discoveryMode = Go.ascii "kubernetes" then some (Watcher.new router) else none
  relayed := queue && c.adminToken ≠ []
  relay := none
  launched := false
  signaled := false
  expired := false
  relayStopped := false
  routerClosed := false
  canceled := false
  sourceClosed := false

/-- The `ready` of `RunWithSource`. -/
def ready (s : Process) : Bool := s.serving && s.watcher.all Watcher.ready

inductive Action
  /-- `net.Listen` for the next server. -/
  | listen (ok : Bool)
  /-- The goroutines beside the servers are started. -/
  | launch
  /-- The goroutine of the next server is started. -/
  | spawn
  | storeServing
  /-- The select of `serve`. -/
  | wakeSignal
  | wakeError
  | storeUnready
  | shutdown
  /-- `Shutdown` returns after the last active connection; `ok` is whether it could close the listener. -/
  | drained (ok : Bool)
  /-- `Shutdown` returns because the grace period is over, and `Close` follows. -/
  | timeout
  /-- `serve` returns, and the first deferred call stops the relay. -/
  | stopRelay
  | join
  | closeRouter
  | cancel
  | closeSource
  | signal
  | expire
  | server (i : ℕ) (m : Server.Move)
  | watch (a : Watcher.Action)
  | relay (e : Loop.Event RunRequest RunRequest.Reply)

/-- The answers that a context gives: `stopped` is whether it is canceled. -/
def Truthful (stopped : Bool) : Loop.Event RunRequest RunRequest.Reply → Bool
  | .called ⟨.canceled, b⟩ => b == stopped
  | .called ⟨.poll _, b⟩ => !b || stopped
  -- the deadline of the purge rounds is below the context
  | .called ⟨.expired, b⟩ => !stopped || b
  | _ => true

/-- A move of a server.  The channel has a place for every server, and a full one would block the goroutine. -/
def serverMove (s : Process) (i : ℕ) (m : Server.Move) : Option Process :=
  match s.servers[i]? with
  | none => none
  | some x =>
    match x.move m with
    | none => none
    | some (x', none) => some { s with servers := s.servers.set i x' }
    | some (x', some e) =>
      if s.errorsC.length < s.servers.length then
        some { s with servers := s.servers.set i x', errorsC := s.errorsC ++ [e] }
      else none

/-- The cleanup of `bindServers`. -/
def closeListener (x : Server) : Server :=
  { x with listener := if x.listener = .bound then .closed else x.listener }

/-- A step of the main goroutine. -/
def mainStep (s : Process) : Action → Option Process
  | .listen ok =>
    match s.main with
    | .bind i =>
      match s.servers[i]? with
      | none => none
      | some x =>
        if ok then some { s with servers := s.servers.set i { x with listener := .bound }, main := .bind (i + 1) }
        else some { s with servers := s.servers.map closeListener, main := .closeRouter (some .listen) }
    | _ => none
  | .launch =>
    if s.main = .bind s.servers.length then
      some { s with
        main := .spawn 0
        launched := true
        relay := if s.relayed then some (Loop.start run (.check none)) else none }
    else none
  | .spawn =>
    match s.main with
    | .spawn i =>
      match s.servers[i]? with
      | none => none
      | some x => some { s with servers := s.servers.set i { x with goroutine := .started }, main := .spawn (i + 1) }
    | _ => none
  | .storeServing =>
    if s.main = .spawn s.servers.length then some { s with main := .select, serving := true } else none
  | .wakeSignal =>
    if s.main = .select ∧ s.signaled = true then some { s with main := .unready none } else none
  | .wakeError =>
    match s.main, s.errorsC with
    | .select, e :: rest =>
      some { s with main := .unready (if e = .serverClosed then none else some .serve), errorsC := rest }
    | _, _ => none
  | .storeUnready =>
    match s.main with
    | .unready result => some { s with main := .shutdown 0 result, serving := false }
    | _ => none
  | .shutdown =>
    match s.main with
    | .shutdown i result =>
      match s.servers[i]? with
      | none => none
      | some x => some { s with servers := s.servers.set i x.shutdown, main := .drain i result }
    | _ => none
  | .drained ok =>
    match s.main with
    | .drain i result =>
      match s.servers[i]? with
      | none => none
      | some x =>
        if x.goroutine ≠ .accepting ∧ x.active = 0 then
          some { s with main := .shutdown (i + 1) (if ok then result else result <|> some .closeListener) }
        else none
    | _ => none
  | .timeout =>
    match s.main with
    | .drain i result =>
      match s.servers[i]? with
      | none => none
      | some x =>
        -- `Close` ends the connections; their handlers run on
        if x.goroutine ≠ .accepting ∧ s.expired = true then
          some { s with main := .shutdown (i + 1) (result <|> some .deadline) }
        else none
    | _ => none
  | .stopRelay =>
    match s.main with
    | .shutdown i result =>
      if i = s.servers.length then
        match s.relay with
        | none => some { s with main := .closeRouter result }
        | some _ => some { s with main := .join result, relayStopped := true }
      else none
    | _ => none
  | .join =>
    match s.main, s.relay with
    | .join result, some .returned => some { s with main := .closeRouter result }
    | _, _ => none
  | .closeRouter =>
    match s.main with
    | .closeRouter result => some { s with main := .cancel result, routerClosed := true }
    | _ => none
  | .cancel =>
    match s.main with
    | .cancel result => some { s with main := .closeSource result, canceled := true }
    | _ => none
  | .closeSource =>
    match s.main with
    | .closeSource result => some { s with main := .returned result, sourceClosed := true }
    | _ => none
  | _ => none

/-- The grace period has begun, and `serve` has not returned. -/
def inGrace (s : Process) : Bool :=
  match s.main with
  | .shutdown _ _ | .drain _ _ => true
  | _ => false

/-- One step of the process; the answer is what the watcher shows. -/
def step (s : Process) : Action → Option (Process × Option Watcher.Output)
  | .signal => some ({ s with signaled := true }, none)
  | .expire => if s.inGrace = true ∧ s.expired = false then some ({ s with expired := true }, none) else none
  | .server i m => (s.serverMove i m).map fun s' => (s', none)
  | .watch a =>
    match s.watcher with
    | none => none
    | some w =>
      -- the context of the watcher is that of the shared work
      if s.launched = true ∧ (a = .done → s.canceled = true) then
        (Watcher.step w a).map fun (w', o) => ({ s with watcher := some w' }, some o)
      else none
  | .relay e =>
    match s.relay with
    | none => none
    | some l =>
      if Truthful s.relayStopped e then
        (Loop.step run l e).map fun (l', _) => ({ s with relay := some l' }, none)
      else none
  | a => (s.mainStep a).map fun s' => (s', none)

/-! ### What a step is -/

/-- **What a step does**, with its guards. -/
inductive Stepped (s : Process) : Action → Process → Option Watcher.Output → Prop
  | listen {i : ℕ} {x : Server} : s.main = .bind i → s.servers[i]? = some x → Stepped s (.listen true)
      { s with servers := s.servers.set i { x with listener := .bound }, main := .bind (i + 1) } none
  | listenFailed {i : ℕ} : s.main = .bind i → Stepped s (.listen false)
      { s with servers := s.servers.map closeListener, main := .closeRouter (some .listen) } none
  | launch : s.main = .bind s.servers.length → Stepped s .launch
      { s with
        main := .spawn 0
        launched := true
        relay := if s.relayed then some (Loop.start run (.check none)) else none } none
  | spawn {i : ℕ} {x : Server} : s.main = .spawn i → s.servers[i]? = some x → Stepped s .spawn
      { s with servers := s.servers.set i { x with goroutine := .started }, main := .spawn (i + 1) } none
  | storeServing : s.main = .spawn s.servers.length → Stepped s .storeServing
      { s with main := .select, serving := true } none
  | wakeSignal : s.main = .select → s.signaled = true → Stepped s .wakeSignal { s with main := .unready none } none
  | wakeError {e : ServeError} {rest : List ServeError} : s.main = .select → s.errorsC = e :: rest →
      Stepped s .wakeError
        { s with main := .unready (if e = .serverClosed then none else some .serve), errorsC := rest } none
  | storeUnready {result : Option Failure} : s.main = .unready result → Stepped s .storeUnready
      { s with main := .shutdown 0 result, serving := false } none
  | shutdown {i : ℕ} {result : Option Failure} {x : Server} : s.main = .shutdown i result → s.servers[i]? = some x →
      Stepped s .shutdown { s with servers := s.servers.set i x.shutdown, main := .drain i result } none
  | drained {ok : Bool} {i : ℕ} {result result' : Option Failure} {x : Server} : s.main = .drain i result →
      s.servers[i]? = some x → x.goroutine ≠ .accepting → (result' = none → result = none) →
      (result' = some .listen → result = some .listen) → x.active = 0 →
      Stepped s (.drained ok) { s with main := .shutdown (i + 1) result' } none
  | timeout {i : ℕ} {result result' : Option Failure} {x : Server} : s.main = .drain i result →
      s.servers[i]? = some x → x.goroutine ≠ .accepting → (result' = none → result = none) →
      (result' = some .listen → result = some .listen) → s.expired = true ∧ result' ≠ none →
      Stepped s .timeout { s with main := .shutdown (i + 1) result' } none
  | noRelay {result : Option Failure} : s.main = .shutdown s.servers.length result → s.relay = none →
      Stepped s .stopRelay { s with main := .closeRouter result } none
  | stopRelay {result : Option Failure} : s.main = .shutdown s.servers.length result → s.relay.isSome = true →
      Stepped s .stopRelay { s with main := .join result, relayStopped := true } none
  | join {result : Option Failure} : s.main = .join result → s.relay = some .returned → Stepped s .join
      { s with main := .closeRouter result } none
  | closeRouter {result : Option Failure} : s.main = .closeRouter result → Stepped s .closeRouter
      { s with main := .cancel result, routerClosed := true } none
  | cancel {result : Option Failure} : s.main = .cancel result → Stepped s .cancel
      { s with main := .closeSource result, canceled := true } none
  | closeSource {result : Option Failure} : s.main = .closeSource result → Stepped s .closeSource
      { s with main := .returned result, sourceClosed := true } none
  | signal : Stepped s .signal { s with signaled := true } none
  | expire : s.inGrace = true → s.expired = false → Stepped s .expire { s with expired := true } none
  | server {i : ℕ} {m : Server.Move} {x x' : Server} {e : Option ServeError} : s.servers[i]? = some x →
      Server.Moved x m x' e → Stepped s (.server i m)
        { s with servers := s.servers.set i x', errorsC := s.errorsC ++ e.toList } none
  | watch {a : Watcher.Action} {w w' : Watcher} {o : Watcher.Output} : s.watcher = some w → s.launched = true →
      (a = .done → s.canceled = true) → Watcher.step w a = some (w', o) → Stepped s (.watch a)
        { s with watcher := some w' } (some o)
  | relay {e : Loop.Event RunRequest RunRequest.Reply} {l l' : RelayLoop} {u : Unit} : s.relay = some l →
      Truthful s.relayStopped e = true → Loop.step run l e = some (l', u) → Stepped s (.relay e)
        { s with relay := some l' } none

theorem serverMove_stepped {s s' : Process} {i : ℕ} {m : Server.Move} (h : s.serverMove i m = some s') :
    Stepped s (.server i m) s' none := by
  simp only [serverMove] at h
  split at h
  · cases h
  · rename_i x hx
    split at h
    · cases h
    · rename_i x' hm
      cases h
      simpa using Stepped.server hx (Server.moved_of_move hm)
    · rename_i x' e hm
      split_ifs at h
      cases h
      exact .server hx (Server.moved_of_move hm)

theorem mainStep_stepped {s s' : Process} {a : Action} (h : s.mainStep a = some s') : Stepped s a s' none := by
  cases a with
  | listen ok =>
    simp only [mainStep] at h
    split at h
    · rename_i i hmain
      split at h
      · cases h
      · rename_i x hx
        split_ifs at h with hok <;> cases h
        · rw [hok]
          exact .listen hmain hx
        · rw [Bool.not_eq_true] at hok
          rw [hok]
          exact .listenFailed hmain
    · cases h
  | launch =>
    simp only [mainStep] at h
    split_ifs at h with hmain hrelayed
    all_goals cases h
    · simpa [hrelayed] using Stepped.launch hmain
    · simpa [hrelayed] using Stepped.launch hmain
  | spawn =>
    simp only [mainStep] at h
    split at h
    · rename_i i hmain
      split at h
      · cases h
      · cases h
        exact .spawn hmain ‹_›
    · cases h
  | storeServing =>
    simp only [mainStep] at h
    split_ifs at h with hmain
    cases h
    exact .storeServing hmain
  | wakeSignal =>
    simp only [mainStep] at h
    split_ifs at h with hmain
    cases h
    exact .wakeSignal hmain.1 hmain.2
  | wakeError =>
    simp only [mainStep] at h
    split at h
    · cases h
      exact .wakeError ‹_› ‹_›
    · cases h
  | storeUnready =>
    simp only [mainStep] at h
    split at h
    · cases h
      exact .storeUnready ‹_›
    · cases h
  | shutdown =>
    simp only [mainStep] at h
    split at h
    · split at h
      · cases h
      · cases h
        exact .shutdown ‹_› ‹_›
    · cases h
  | drained ok =>
    simp only [mainStep] at h
    split at h
    · rename_i i result hmain
      split at h
      · cases h
      · rename_i x hx
        split at h
        · rename_i hg
          cases h
          refine .drained hmain hx hg.1 ?_ ?_ hg.2 <;> cases ok <;> cases result <;> simp
        · cases h
    · cases h
  | timeout =>
    simp only [mainStep] at h
    split at h
    · rename_i i result hmain
      split at h
      · cases h
      · rename_i x hx
        split_ifs at h with hg
        cases h
        refine .timeout hmain hx hg.1 ?_ ?_ ⟨hg.2, ?_⟩ <;> cases result <;> simp
    · cases h
  | stopRelay =>
    simp only [mainStep] at h
    split at h
    · rename_i i result hmain
      split_ifs at h with hi
      subst hi
      split at h <;> cases h
      · exact .noRelay hmain ‹_›
      · exact .stopRelay hmain (by simp [*])
    · cases h
  | join =>
    simp only [mainStep] at h
    split at h
    · cases h
      exact .join ‹_› ‹_›
    · cases h
  | closeRouter =>
    simp only [mainStep] at h
    split at h
    · cases h
      exact .closeRouter ‹_›
    · cases h
  | cancel =>
    simp only [mainStep] at h
    split at h
    · cases h
      exact .cancel ‹_›
    · cases h
  | closeSource =>
    simp only [mainStep] at h
    split at h
    · cases h
      exact .closeSource ‹_›
    · cases h
  | signal | expire | server | watch | relay => cases h

theorem stepped_of_step {s s' : Process} {a : Action} {o : Option Watcher.Output} (h : s.step a = some (s', o)) :
    Stepped s a s' o := by
  have hmain : (s.mainStep a).map (fun s' => (s', none)) = some (s', o) → Stepped s a s' o := by
    intro h
    obtain ⟨s₁, h₁, h₂⟩ := Option.map_eq_some_iff.mp h
    cases h₂
    exact mainStep_stepped h₁
  cases a with
  | signal =>
    cases h
    exact .signal
  | expire =>
    simp only [step] at h
    split_ifs at h with hg
    cases h
    exact .expire hg.1 hg.2
  | server i m =>
    obtain ⟨s₁, h₁, h₂⟩ := Option.map_eq_some_iff.mp h
    cases h₂
    exact serverMove_stepped h₁
  | watch a =>
    simp only [step] at h
    split at h
    · cases h
    · rename_i w hw
      split_ifs at h with hg
      obtain ⟨⟨w', o'⟩, h₁, h₂⟩ := Option.map_eq_some_iff.mp h
      cases h₂
      exact .watch hw hg.1 hg.2 h₁
  | relay e =>
    simp only [step] at h
    split at h
    · cases h
    · rename_i l hl
      split_ifs at h with hg
      obtain ⟨⟨l', u⟩, h₁, h₂⟩ := Option.map_eq_some_iff.mp h
      cases h₂
      exact .relay hl hg h₁
  | _ => exact hmain h

end Process

end SimpleCache.App
