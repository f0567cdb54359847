import SimpleCache.App.Readiness
import SimpleCache.Lib.Slots

/-!
# App.Shutdown — a process that is told to stop does stop (`app/bootstrap.go`)

The steps that bring a process to its end are those of the main goroutine, of the loops of `Serve`, and of the grace
period.  Every one of them lowers `effort`, which nothing raises, so a process makes only so many of them; the relay makes
at most 18 more once it is stopped.  And as long as the process has not returned, one of these steps can be made: no
handler has to end for it, and no goroutine is stuck in the channel of the errors.
-/

namespace SimpleCache.App

open Lib (Run Loop)
open Discovery (Watcher)
open Outbox (Head RunRequest RunCall)
open Outbox.Worker (run)

/-- The steps that the main goroutine has left, with `n` servers. -/
def Main.effort (n : ℕ) : Main → ℕ
  | .bind k => (n - k) + 3 * n + 9
  | .spawn k => (n - k) + 2 * n + 8
  | .select => 2 * n + 7
  | .unready _ => 2 * n + 6
  | .shutdown k _ => 2 * (n - k) + 5
  | .drain k _ => 2 * (n - k) + 4
  | .join _ => 4
  | .closeRouter _ => 3
  | .cancel _ => 2
  | .closeSource _ => 1
  | .returned _ => 0

/-- The steps that the goroutine of a server has left. -/
def Serving.effort : Serving → ℕ
  | .notStarted | .started => 2
  | .accepting => 1
  | .returned => 0

/-- `Serve` has not returned, and so has not sent to the channel. -/
def Serving.pending : Serving → ℕ
  | .returned => 0
  | _ => 1

namespace Process

/-- The steps towards the end of the process. -/
def Action.closes : Action → Bool
  | .signal | .watch _ | .relay _ | .server _ .accept | .server _ .finish => false
  | _ => true

/-- What the goroutines of the servers add up to. -/
def total (f : Serving → ℕ) (s : Process) : ℕ := (s.servers.map fun x => f x.goroutine).sum

/-- The steps towards the end that are left. -/
def effort (s : Process) : ℕ :=
  s.main.effort s.servers.length + s.total Serving.effort + if s.expired then 0 else 1

/-- The channel has a place left for every server that has not sent yet. -/
def Roomy (s : Process) : Prop := s.errorsC.length + s.total Serving.pending ≤ s.servers.length

section Effort

variable {s s' : Process} {a : Action} {o : Option Watcher.Output} {i : ℕ} {x x' : Server}

/-- A step that leaves what the goroutine of one server counts. -/
theorem total_same {f : Serving → ℕ} (hservers : s'.servers = s.servers.set i x') (hx : s.servers[i]? = some x)
    (hg : f x'.goroutine = f x.goroutine) : s'.total f = s.total f := by
  have h := Lib.Slots.sum_set (fun x : Server => f x.goroutine) x' hx
  simp only [hg] at h
  rw [total, hservers]
  exact Nat.add_right_cancel h

/-- A step of the main goroutine. -/
theorem effort_main (hlen : s'.servers.length = s.servers.length) (htotal : s'.total Serving.effort = s.total Serving.effort)
    (hexpired : s'.expired = s.expired)
    (hmain : s'.main.effort s.servers.length + 1 ≤ s.main.effort s.servers.length) : s'.effort + 1 ≤ s.effort := by
  rw [effort, effort, hlen, htotal, hexpired]
  omega

/-- The server that is started next. -/
theorem Staged.unspawned (h : s.Staged) (hmain : s.main = .spawn i) (hx : s.servers[i]? = some x) :
    x.goroutine = .notStarted := by
  have ha := (h.server i x hx).2
  rw [hmain, Main.stage, if_neg (lt_irrefl i)] at ha
  exact ha.1

/-- A move towards the end is one of the steps that the goroutine has left. -/
theorem moved_effort {m : Server.Move} {e : Option ServeError} (h : Server.Moved x m x' e) (i : ℕ) :
    x'.goroutine.effort + (Action.server i m).closes.toNat ≤ x.goroutine.effort := by
  cases h with
  | enter hg | late hg | fail hg | leave hg => simp [hg, Serving.effort, Server.quit, Action.closes]
  | accept | finish => exact Nat.le_refl _

theorem effort_step (hstaged : s.Staged) (hst : Stepped s a s' o) : s'.effort + a.closes.toNat ≤ s.effort := by
  cases hst with
  | @listen i x hmain hx =>
    refine effort_main (List.length_set ..) (total_same rfl hx rfl) rfl ?_
    have := lt_of_get hx
    simp only [hmain, Main.effort]
    omega
  | listenFailed hmain =>
    refine effort_main (List.length_map ..) ?_ rfl ?_
    · rw [total, List.map_map]
      rfl
    · simp only [hmain, Main.effort]
      omega
  | launch hmain =>
    refine effort_main rfl rfl rfl ?_
    simp only [hmain, Main.effort]
    omega
  | @spawn i x hmain hx =>
    -- the goroutine is new, and so has all its steps left
    have hg := hstaged.unspawned hmain hx
    refine effort_main (List.length_set ..) (total_same rfl hx (by rw [hg]; rfl)) rfl ?_
    have := lt_of_get hx
    simp only [hmain, Main.effort]
    omega
  | storeServing hmain =>
    refine effort_main rfl rfl rfl ?_
    simp only [hmain, Main.effort]
    omega
  | wakeSignal hmain | wakeError hmain | storeUnready hmain | closeRouter hmain | cancel hmain | closeSource hmain
  | join hmain =>
    refine effort_main rfl rfl rfl ?_
    simp [hmain, Main.effort]
  | noRelay hmain | stopRelay hmain =>
    refine effort_main rfl rfl rfl ?_
    simp [hmain, Main.effort]
  | @shutdown i result x hmain hx =>
    refine effort_main (List.length_set ..) (total_same rfl hx rfl) rfl ?_
    simp [hmain, Main.effort]
  | drained hmain hx | timeout hmain hx =>
    refine effort_main rfl rfl rfl ?_
    have := lt_of_get hx
    simp only [hmain, Main.effort]
    omega
  | signal | watch | relay => exact Nat.le_refl _
  | expire hg he => simp [effort, he, total, Action.closes]
  | @server i m x x' e hx hm =>
    have htotal := Lib.Slots.sum_set (fun x : Server => x.goroutine.effort) x' hx
    have heffort := moved_effort hm i
    simp only [effort, total, List.length_set]
    omega

/-- What `Serve` returns is sent once. -/
theorem moved_sent {m : Server.Move} {e : Option ServeError} (h : Server.Moved x m x' e) :
    e.toList.length + x'.goroutine.pending ≤ x.goroutine.pending := by
  cases h with
  | enter hg | late hg | fail hg | leave hg => simp [hg, Serving.pending, Server.quit]
  | accept | finish => exact Nat.le_of_eq (Nat.zero_add _)

theorem Roomy.same (h : s.Roomy) (hlen : s'.servers.length = s.servers.length) (htotal : s'.total Serving.pending = s.total Serving.pending)
    (herrors : s'.errorsC.length ≤ s.errorsC.length) : s'.Roomy := by
  unfold Roomy at h ⊢
  rw [hlen, htotal]
  omega

theorem roomy_step (h : s.Roomy) (hstaged : s.Staged) (hst : Stepped s a s' o) : s'.Roomy := by
  cases hst with
  | listen hmain hx => exact h.same (List.length_set ..) (total_same rfl hx rfl) (Nat.le_refl _)
  | shutdown hmain hx => exact h.same (List.length_set ..) (total_same rfl hx rfl) (Nat.le_refl _)
  | listenFailed =>
    refine h.same (List.length_map ..) ?_ (Nat.le_refl _)
    rw [total, List.map_map]
    rfl
  | @spawn i x hmain hx =>
    have hg := hstaged.unspawned hmain hx
    exact h.same (List.length_set ..) (total_same rfl hx (by rw [hg]; rfl)) (Nat.le_refl _)
  | wakeError hmain he =>
    refine h.same rfl rfl ?_
    rw [he]
    exact Nat.le_succ _
  | @server i m x x' e hx hm =>
    have htotal := Lib.Slots.sum_set (fun x : Server => x.goroutine.pending) x' hx
    have hsent := moved_sent hm
    simp only [Roomy, total, List.length_append, List.length_set] at h ⊢
    omega
  | _ => exact h

end Effort

/-! ### The relay after the stop -/

section Stopped

variable {s s' : Process} {a : Action} {o : Option Watcher.Output}

/-- The context of the relay is canceled, or the relay is behind. -/
def RelayEnds (s : Process) : Prop := s.relayStopped = true ∨ s.main.joined = true

theorem relayEnds_step (h : s.RelayEnds) (hst : Stepped s a s' o) : s'.RelayEnds := by
  rcases h with h | h
  · cases hst with
    | stopRelay => exact .inl rfl
    | _ => exact .inl h
  · cases hst with
    | listen hmain | listenFailed hmain | launch hmain | spawn hmain | storeServing hmain | wakeSignal hmain
    | wakeError hmain | storeUnready hmain | shutdown hmain | drained hmain | timeout hmain | noRelay hmain
    | stopRelay hmain | join hmain =>
      rw [hmain] at h
      cases h
    | closeRouter | cancel | closeSource => exact .inr rfl
    | signal | expire | server | watch | relay => exact .inr h

theorem afterCancel_of_truthful {y : RunCall} (h : Truthful true (.called y) = true) : y.afterCancel = true := by
  obtain ⟨r, b⟩ := y
  cases r with
  | canceled | expired => simpa [Truthful, RunCall.afterCancel] using h
  | _ => rfl

/-- Once the relay is stopped, its calls get the answers of a canceled context. -/
theorem relay_after_stop {c : Config} {queue : Bool} {router : Cluster.Directory} {tr₁ tr₂ : Trace} {s : Process}
    (hrun : Run step (init c queue router) (tr₁ ++ (.stopRelay, none) :: tr₂) s) :
    ∀ y, (.called y, ()) ∈ relayEvents tr₂ → RunCall.afterCancel y = true := by
  intro y hy
  obtain ⟨⟨a, o⟩, hmem, ha⟩ := List.mem_filterMap.mp hy
  obtain ⟨A, B, rfl⟩ := List.append_of_mem hmem
  obtain ⟨e, hae, he⟩ := Option.map_eq_some_iff.mp ha
  cases he
  cases a with
  | relay e =>
    cases hae
    obtain ⟨s₁, s₂, h₁, hstop, h₂⟩ := hrun.cut
    obtain ⟨s₃, s₄, h₃, hst, -⟩ := h₂.cut
    have hends : s₂.RelayEnds := by
      cases stepped_of_step hstop with
      | noRelay => exact .inr rfl
      | stopRelay => exact .inl rfl
    have hends₃ : s₃.RelayEnds :=
      h₃.inv (I := RelayEnds) hends fun _ _ _ _ hI hst => relayEnds_step hI (stepped_of_step hst)
    have hrelayed := (inv_run ((h₁.snoc hstop).append h₃)).relayed
    cases stepped_of_step hst with
    | relay hl htruth hstep =>
      rcases hends₃ with hs | hj
      · rw [hs] at htruth
        exact afterCancel_of_truthful htruth
      · rw [hrelayed.joined hj _ hl] at hstep
        cases hstep
  | _ => cases hae

theorem relay_stops {c : Config} {queue : Bool} {router : Cluster.Directory} {tr₁ tr₂ : Trace} {s : Process}
    (hrun : Run step (init c queue router) (tr₁ ++ (.stopRelay, none) :: tr₂) s) : (relayEvents tr₂).length ≤ 18 := by
  have hrelayed := (inv_run hrun).relayed
  have hsplit : relayEvents (tr₁ ++ (.stopRelay, none) :: tr₂) = relayEvents tr₁ ++ relayEvents tr₂ := by
    simp [relayEvents, Action.relay?]
  cases hl : s.relay with
  | none =>
    have hnone := hrelayed.absent hl
    rw [hsplit, List.append_eq_nil_iff] at hnone
    simp [hnone.2]
  | some l =>
    have hloop := hrelayed.run l hl
    rw [hsplit] at hloop
    obtain ⟨l₁, h₁, h₂⟩ := hloop.split
    exact Outbox.canceled_length_le h₁ h₂ (relay_after_stop hrun)

end Stopped

/-! ### Nothing is stuck -/

/-- A canceled context has an answer to every call. -/
theorem exists_truthful (r : RunRequest) : ∃ b : r.Reply, Truthful true (.called ⟨r, b⟩) = true := by
  cases r with
  | cycle r =>
    cases r with
    | claim => exact ⟨(.ok none : Except Err (Option Outbox.Event)), rfl⟩
    | send => exact ⟨(none : Option Err), rfl⟩
    | finish => exact ⟨(.ok true : Except Err Bool), rfl⟩
    | observe => exact ⟨(), rfl⟩
  | canceled | expired | poll => exact ⟨true, rfl⟩
  | now => exact ⟨(0 : ℤ), rfl⟩
  | stats => exact ⟨(.ok ⟨0, 0, 0, 0⟩ : Except Err Outbox.Stats), rfl⟩
  | backlog | storage => exact ⟨(), rfl⟩
  | purge => exact ⟨(.ok 0 : Except Err ℕ), rfl⟩

/-- A loop that runs has a next event. -/
theorem exists_event (p : Lib.Prog RunRequest RunRequest.Reply Empty (Option Head)) :
    ∃ e l, Truthful true e = true ∧ Loop.step run (.running p) e = some (l, ()) := by
  cases p with
  | pure r =>
    cases r with
    | none => exact ⟨.back, _, rfl, rfl⟩
    | some head => exact ⟨.back, _, rfl, rfl⟩
  | throw e => exact e.elim
  | call r k =>
    obtain ⟨b, hb⟩ := exists_truthful r
    exact ⟨.called ⟨r, b⟩, _, hb, by rw [Loop.step, dif_pos rfl]⟩

/-- A step towards the end, or an event of the relay that is stopped. -/
def Action.Ends (s : Process) (a : Action) : Prop :=
  a.closes = true ∨ a.relay?.isSome = true ∧ s.relayStopped = true

/-- A step of the main goroutine that can be made. -/
theorem ends_main {s s' : Process} {a : Action} (hc : a.closes = true) (h : s.step a = some (s', none)) :
    ∃ a s' o, Action.Ends s a ∧ s.step a = some (s', o) :=
  ⟨a, s', none, .inl hc, h⟩

theorem get_of_lt {s : Process} {i : ℕ} (hi : i < s.servers.length) : ∃ x, s.servers[i]? = some x :=
  ⟨_, List.getElem?_eq_getElem hi⟩

/-- Before the process has returned, there is a step towards its end. -/
theorem exists_ends {s : Process} (hstaged : s.Staged) {tr : Trace} (hrelayed : Relayed tr s) (hroom : s.Roomy)
    (hwake : s.main = .select → s.signaled = true ∨ s.errorsC ≠ []) (hreturned : ∀ result, s.main ≠ .returned result) :
    ∃ a s' o, Action.Ends s a ∧ s.step a = some (s', o) := by
  have hsound := hstaged.sound
  cases hmain : s.main with
  | bind k =>
    rw [hmain] at hsound
    rcases hsound.lt_or_eq with hk | rfl
    · obtain ⟨x, hx⟩ := get_of_lt hk
      exact ends_main (a := .listen true) rfl (by simp [step, mainStep, hmain, hx]; rfl)
    · exact ends_main (a := .launch) rfl (by simp [step, mainStep, hmain]; rfl)
  | spawn k =>
    rw [hmain] at hsound
    rcases hsound.lt_or_eq with hk | rfl
    · obtain ⟨x, hx⟩ := get_of_lt hk
      exact ends_main (a := .spawn) rfl (by simp [step, mainStep, hmain, hx]; rfl)
    · exact ends_main (a := .storeServing) rfl (by simp [step, mainStep, hmain]; rfl)
  | select =>
    rcases hwake hmain with hs | he
    · exact ends_main (a := .wakeSignal) rfl (by simp [step, mainStep, hmain, hs]; rfl)
    · obtain ⟨e, rest, he⟩ := List.exists_cons_of_ne_nil he
      exact ends_main (a := .wakeError) rfl (by simp [step, mainStep, hmain, he]; rfl)
  | unready result => exact ends_main (a := .storeUnready) rfl (by simp [step, mainStep, hmain]; rfl)
  | shutdown k result =>
    rw [hmain] at hsound
    rcases hsound.1.lt_or_eq with hk | rfl
    · obtain ⟨x, hx⟩ := get_of_lt hk
      exact ends_main (a := .shutdown) rfl (by simp [step, mainStep, hmain, hx]; rfl)
    · cases hl : s.relay with
      | none => exact ends_main (a := .stopRelay) rfl (by simp [step, mainStep, hmain, hl]; rfl)
      | some l => exact ends_main (a := .stopRelay) rfl (by simp [step, mainStep, hmain, hl]; rfl)
  | drain k result =>
    rw [hmain] at hsound
    obtain ⟨x, hx⟩ := get_of_lt hsound.1
    have hstage := (hstaged.server k x hx).2
    rw [hmain, Main.stage, if_neg (lt_irrefl k), if_pos rfl] at hstage
    by_cases hg : x.goroutine = .accepting
    · -- the goroutine leaves its loop, and the channel has a place for it
      have hlt : s.errorsC.length < s.servers.length := by
        have htotal := Lib.Slots.sum_set (fun x : Server => x.goroutine.pending) x.quit hx
        have hpending : x.goroutine.pending = 1 := by rw [hg]; rfl
        have hsent : x.quit.goroutine.pending = 0 := rfl
        simp only [Roomy, total] at hroom
        omega
      exact ends_main (a := .server k .leave) rfl
        (by simp [step, serverMove, hx, Server.move, hg, hstage.2, hlt]; rfl)
    · by_cases ha : x.active = 0
      · exact ends_main (a := .drained true) rfl (by simp [step, mainStep, hmain, hx, hg, ha]; rfl)
      · cases he : s.expired with
        | true => exact ends_main (a := .timeout) rfl (by simp [step, mainStep, hmain, hx, hg, he]; rfl)
        | false => exact ends_main (a := .expire) rfl (by simp [step, inGrace, hmain, he]; rfl)
  | join result =>
    obtain ⟨hsome, hstopped⟩ := hrelayed.waiting result hmain
    obtain ⟨l, hl⟩ := Option.isSome_iff_exists.mp hsome
    cases l with
    | returned => exact ends_main (a := .join) rfl (by simp [step, mainStep, hmain, hl]; rfl)
    | running p =>
      obtain ⟨e, l', htruth, hstep⟩ := exists_event p
      exact ⟨.relay e, _, none, .inr ⟨rfl, hstopped⟩, by simp [step, hl, hstopped, htruth, hstep]; rfl⟩
  | closeRouter result => exact ends_main (a := .closeRouter) rfl (by simp [step, mainStep, hmain]; rfl)
  | cancel result => exact ends_main (a := .cancel) rfl (by simp [step, mainStep, hmain]; rfl)
  | closeSource result => exact ends_main (a := .closeSource) rfl (by simp [step, mainStep, hmain]; rfl)
  | returned result => exact absurd hmain (hreturned result)

theorem total_init (c : Config) (queue : Bool) (router : Cluster.Directory) (f : Serving → ℕ) :
    (init c queue router).total f = (init c queue router).servers.length * f .notStarted := by
  simp [total, init, Server.new]

theorem effort_init (c : Config) (queue : Bool) (router : Cluster.Directory) :
    (init c queue router).effort = 6 * (init c queue router).servers.length + 10 := by
  have hmain : (init c queue router).main = .bind 0 := rfl
  have hexpired : (init c queue router).expired = false := rfl
  rw [effort, total_init, hmain, hexpired]
  simp only [Main.effort, Serving.effort, Bool.false_eq_true, if_false]
  omega

theorem roomy_run {c : Config} {queue : Bool} {router : Cluster.Directory} {tr : Trace} {s : Process}
    (hrun : Run step (init c queue router) tr s) : s.Roomy := by
  refine hrun.rec_inv (I := fun _ s => s.Roomy) ?_ fun tr s a o s' hr hI hst => ?_
  · rw [Roomy, total_init]
    simp [init, Serving.pending]
  · exact roomy_step hI (inv_run hr).staged (stepped_of_step hst)

/-- **Shutdown comes to its end.**  In every run of a process: the main goroutine, the loops of its servers and the grace
period make only a bounded number of steps, and the relay at most 18 once it is stopped.  And in every reachable state in
which a signal or a failed server has ended the wait, as long as the process has not returned, one of these steps can be
made.  So a process that is told to stop returns, whether its handlers end or not. -/
theorem shutdown_completes {c : Config} {queue : Bool} {router : Cluster.Directory} {tr : Trace} {s : Process}
    (hrun : Run step (init c queue router) tr s) :
    tr.countP (fun e => e.1.closes) ≤ 6 * (init c queue router).servers.length + 10 ∧
    (∀ tr₁ tr₂, tr = tr₁ ++ (.stopRelay, none) :: tr₂ → (relayEvents tr₂).length ≤ 18) ∧
    ((s.main = .select → s.signaled = true ∨ s.errorsC ≠ []) → (∀ result, s.main ≠ .returned result) →
      ∃ a s' o, Action.Ends s a ∧ s.step a = some (s', o)) := by
  refine ⟨?_, ?_, fun hwake hreturned => ?_⟩
  · have h := hrun.potential (f := effort) (c := Action.closes) fun tr s a o s' hr hst =>
      effort_step (inv_run hr).staged (stepped_of_step hst)
    rw [effort_init] at h
    omega
  · rintro tr₁ tr₂ rfl
    exact relay_stops hrun
  · exact exists_ends (inv_run hrun).staged (inv_run hrun).relayed (roomy_run hrun) hwake hreturned

/-- A signal comes while a request is handled that does not end. -/
def hanging : List Action :=
  startup ++ [.server 1 .accept, .signal, .wakeSignal, .storeUnready, .shutdown, .server 0 .leave, .drained true,
   .shutdown, .server 1 .leave]

theorem hanging_isSome : (Lib.exec step pod hanging).isSome = true := by decide +kernel

/-- The Pod goes on towards its end with the request still active. -/
theorem shutdown_completes_hanging : ∃ tr s, Run step pod tr s ∧ s.main = .drain 1 none ∧
    (∃ x ∈ s.servers, 0 < x.active) ∧ ∃ a s' o, Action.Ends s a ∧ s.step a = some (s', o) := by
  have hrun := Lib.exec_get hanging_isSome
  have hmain : ((Lib.exec step pod hanging).get hanging_isSome).1.main = .drain 1 none := by decide +kernel
  refine ⟨_, _, hrun, hmain, by decide +kernel, (shutdown_completes hrun).2.2 ?_ ?_⟩
  · rw [hmain]
    nofun
  · rw [hmain]
    nofun

end Process

end SimpleCache.App
