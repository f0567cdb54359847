import SimpleCache.Cluster.Nodes

/-!
# Cluster.Delivery — what an acknowledgement stands for

`History` follows a notification from the local call through the captured snapshot, the requests, the handlers and
the replies to the report: a request that ends with status ok was processed by the node that listens at the member's
address, or was answered 204 with the version echoed by someone else.  A report that is complete therefore covers the
snapshot, and so does an event that is marked delivered (`delivered_everywhere`).
-/

namespace SimpleCache.Cluster

open SimpleCache.Lib
open Cache.Engine (Act)
open Postgres (Store Exec OutboxRow StoreEvent claimedOf completionOf)
open App (MutationCommand MutationOutcome)

variable {ι : Type} [DecidableEq ι]

/-! ### Acknowledgements -/

/-- The node has completed `InvalidateVersion(key, version)`. -/
def Processed (tr : List (SystemEvent ι)) (n : ι) (key : GoString) (version : ℤ) : Prop :=
  ∃ now now' applied, (.invalidate key version now now', .invalidated (.ok applied)) ∈ engineOf n tr

/-- A client's request for the version was answered 204 from an address, with exactly that version echoed. -/
def Echoed (tr : List (SystemEvent ι)) (address key : GoString) (version : ℤ) : Prop :=
  ∃ a request r, (a, .replied address request r) ∈ tr ∧
    (∃ client group, Client.request client group key version = some request) ∧
    r.status = 204 ∧ r.header.values invalidationVersionHeader = [Go.formatInt version]

/-- What an accepted reply from an address stands for. -/
def Acked (listener : GoString → Option ι) (tr : List (SystemEvent ι)) (address key : GoString) (version : ℤ) : Prop :=
  match listener address with
  | some n => Processed tr n key version
  | none => 0 < version → Echoed tr address key version

/-- The node `n`, whose ID is `id`, and every other member of the snapshot have acknowledged. -/
structure Covered (listener : GoString → Option ι) (tr : List (SystemEvent ι)) (n : ι) (id : GoString)
    (snapshot : Snapshot) (key : GoString) (version : ℤ) : Prop where
  own : Processed tr n key version
  others : ∀ m ∈ snapshot.members, m.id ≠ id → Acked listener tr m.address key version

section Mono

variable {listener : GoString → Option ι} {tr : List (SystemEvent ι)} {key : GoString} {version : ℤ}

theorem Processed.mono {n : ι} (h : Processed tr n key version) (tr' : List (SystemEvent ι)) :
    Processed (tr ++ tr') n key version := by
  obtain ⟨now, now', applied, hmem⟩ := h
  exact ⟨now, now', applied, by rw [engineOf_append]; exact List.mem_append_left _ hmem⟩

omit [DecidableEq ι] in
theorem Echoed.mono {address : GoString} (h : Echoed tr address key version) (tr' : List (SystemEvent ι)) :
    Echoed (tr ++ tr') address key version := by
  obtain ⟨a, request, r, hmem, hrest⟩ := h
  exact ⟨a, request, r, List.mem_append_left _ hmem, hrest⟩

theorem Acked.mono {address : GoString} (h : Acked listener tr address key version) (tr' : List (SystemEvent ι)) :
    Acked listener (tr ++ tr') address key version := by
  unfold Acked at h ⊢
  cases hl : listener address with
  | none => rw [hl] at h; exact fun hv => (h hv).mono tr'
  | some n => rw [hl] at h; exact h.mono tr'

theorem Covered.mono {n : ι} {id : GoString} {snapshot : Snapshot}
    (h : Covered listener tr n id snapshot key version) (tr' : List (SystemEvent ι)) :
    Covered listener (tr ++ tr') n id snapshot key version :=
  ⟨h.own.mono tr', fun m hm hid => (h.others m hm hid).mono tr'⟩

end Mono

namespace System

/-! ### The history of a task -/

/-- The requests of a fan-out: one that is on its way was sent to the address of its member, and one that has ended
with status ok was acknowledged. -/
structure FanoutOk (listener : GoString → Option ι) (tr : List (SystemEvent ι)) (s : System ι) (b : Broadcast) :
    Prop where
  sent : ∀ i request, b.jobs i = .sent request → ∃ m sent, b.member? i = some m ∧ s.sent request = some sent ∧
    sent.client.address = m.address ∧ sent.key = b.key ∧ sent.version = b.version
  done : ∀ i m, b.jobs i = .done .ok → b.member? i = some m → Acked listener tr m.address b.key b.version

/-- What is known of a task in each of its stages. -/
def StageOk (listener : GoString → Option ι) (selfID : ι → GoString) (tr : List (SystemEvent ι)) (s : System ι)
    (t : Task ι) : Prop :=
  match t.stage with
  | .write | .ready | .notify => t.captured = none
  | .capture => t.captured = none ∧ Processed tr t.node t.origin.key t.origin.version
  | .fanout b => t.captured = some b.snapshot ∧ b.selfID = selfID t.node ∧
      Processed tr t.node t.origin.key t.origin.version ∧ FanoutOk listener tr s b
  | .finish delivered => delivered = true → ∃ snapshot, t.captured = some snapshot ∧ snapshot.members ≠ [] ∧
      Covered listener tr t.node (selfID t.node) snapshot t.origin.key t.origin.version
  | .answer | .closed => True

/-- A reported completion covers what the mutation has captured. -/
def AnsweredOk (listener : GoString → Option ι) (selfID : ι → GoString) (tr : List (SystemEvent ι)) (t : Task ι) :
    Prop :=
  ∀ command outcome report, t.origin = .mutation command outcome → outcome.response.invalidation = some report →
    report.complete = true → ∃ snapshot, t.captured = some snapshot ∧
      Covered listener tr t.node (selfID t.node) snapshot t.origin.key t.origin.version

/-- The claim of an event by the worker `p`. -/
def claimEvent (p : ℕ) (n : ι) (x : Exec) (event : Outbox.Event) : SystemEvent ι :=
  (.claim p n x false, .store ((.claim p Outbox.leaseDuration false, x), .claimed (.ok (some event))) none)

/-- The task `p` and the history of the system. -/
structure TaskOk (listener : GoString → Option ι) (selfID : ι → GoString) (tr : List (SystemEvent ι)) (s : System ι)
    (p : ℕ) (t : Task ι) : Prop where
  captures : ∀ a n snapshot, (a, .captured p n snapshot) ∈ tr → n = t.node ∧ t.captured = some snapshot
  captured : ∀ snapshot, t.captured = some snapshot → (.capture p, .captured p t.node snapshot) ∈ tr
  stage : StageOk listener selfID tr s t
  answered : AnsweredOk listener selfID tr t
  claimed : ∀ event, t.origin = .relay event → ∃ tr₁ tr₂ x, tr = tr₁ ++ claimEvent p t.node x event :: tr₂ ∧
    ∀ a n snapshot, (a, .captured p n snapshot) ∉ tr₁

/-- **The invariant of histories.** -/
structure History (listener : GoString → Option ι) (selfID : ι → GoString) (tr : List (SystemEvent ι))
    (s : System ι) : Prop where
  ids : ∀ n, (s.nodes n).directory.selfID = selfID n
  fresh : ∀ request, s.next ≤ request → s.sent request = none
  replies : ∀ request r, (request, r) ∈ s.replies → ∃ sent, s.sent request = some sent ∧
    (check sent.version r = .ok () → Acked listener tr sent.client.address sent.key sent.version)
  unknown : ∀ p, s.tasks p = none → ∀ a n snapshot, (a, .captured p n snapshot) ∉ tr
  tasks : ∀ p t, s.tasks p = some t → TaskOk listener selfID tr s p t

section Step

variable {listener : GoString → Option ι} {selfID : ι → GoString} {tr : List (SystemEvent ι)} {s s' : System ι}
  {a : Action ι} {o : Output ι}

/-- What was sent stays as it was. -/
theorem History.grows (hH : History listener selfID tr s) (hE : Effects listener s a o s') {request : ℕ} {m : Sent}
    (hm : s.sent request = some m) : s'.sent request = some m := by
  rcases hE.sent with ⟨hs, -⟩ | ⟨sent, p, n, origin, b, snap, hs, -⟩
  · rw [hs]
    exact hm
  · have hne : request ≠ s.next := by
      rintro rfl
      rw [hH.fresh _ le_rfl] at hm
      simp at hm
    rw [hs, Function.update_of_ne hne]
    exact hm

theorem FanoutOk.mono {b : Broadcast} (h : FanoutOk listener tr s b)
    (hs : ∀ request m, s.sent request = some m → s'.sent request = some m) (tr' : List (SystemEvent ι)) :
    FanoutOk listener (tr ++ tr') s' b := by
  refine ⟨fun i request hj => ?_, fun i m hj hm => (h.done i m hj hm).mono tr'⟩
  obtain ⟨m, sent, h1, h2, h3⟩ := h.sent i request hj
  exact ⟨m, sent, h1, hs _ _ h2, h3⟩

theorem StageOk.mono {t : Task ι} (h : StageOk listener selfID tr s t)
    (hs : ∀ request m, s.sent request = some m → s'.sent request = some m) (tr' : List (SystemEvent ι)) :
    StageOk listener selfID (tr ++ tr') s' t := by
  unfold StageOk at h ⊢
  split <;> rename_i heq <;> rw [heq] at h
  · exact h
  · exact h
  · exact h
  · exact ⟨h.1, h.2.mono tr'⟩
  · exact ⟨h.1, h.2.1, h.2.2.1.mono tr', h.2.2.2.mono hs tr'⟩
  · intro hd
    obtain ⟨snapshot, h1, h2, h3⟩ := h hd
    exact ⟨snapshot, h1, h2, h3.mono tr'⟩
  · trivial
  · trivial

/-- **An accepted reply**: where it comes from, the version was processed or echoed. -/
theorem Inv.acked_reply (hI : Inv tr s) {request : ℕ} {sent : Sent} {r : Response} (hs : s.sent request = some sent)
    (hr : ReplyStep listener s o sent r) (hc : check sent.version r = .ok ()) :
    Acked listener (tr ++ [(a, o)]) sent.client.address sent.key sent.version := by
  have h0 := (hI.sent request sent hs).1
  cases hr with
  | @refused n hl hroute =>
    -- the handler turns requests away with other codes
    rcases route_request (h := (s.nodes n).handler) sent.made h0 with ⟨hok, -⟩ | ⟨resp, herr, hne⟩
    · rw [hroute] at hok
      simp at hok
    · rw [hroute, Except.error.injEq] at herr
      subst herr
      exact absurd (check_ok hc).1 hne
  | @served n group key version now now' result hl hroute ho hrep =>
    rcases route_request (h := (s.nodes n).handler) sent.made h0 with ⟨hok, -⟩ | ⟨resp, herr, -⟩
    · rw [hroute] at hok
      simp only [Except.ok.injEq, Prod.mk.injEq] at hok
      obtain ⟨-, rfl, rfl⟩ := hok
      subst hrep
      obtain ⟨applied, rfl⟩ := check_reply hc
      unfold Acked
      rw [hl]
      refine ⟨now, now', applied, ?_⟩
      rw [engineOf_append]
      exact List.mem_append_right _ (by simp [engineOf, ho])
    · rw [hroute] at herr
      simp at herr
  | foreign hl ho =>
    unfold Acked
    rw [hl]
    intro hv
    obtain ⟨hst, hval⟩ := check_ok hc
    exact ⟨a, sent.request, r, List.mem_append_right _ (by simp [ho]), ⟨sent.client, sent.group, sent.made⟩, hst,
      hval hv⟩

/-- **A complete report covers the snapshot.** -/
theorem FanoutOk.covered {b : Broadcast} {n : ι} {report : InvalidationReport} (h : FanoutOk listener tr s b)
    (hp : Processed tr n b.key b.version) (hr : b.report = some report) (hc : report.complete = true) :
    Covered listener tr n b.selfID b.snapshot b.key b.version := by
  obtain ⟨hdone, -⟩ := Broadcast.report_complete hr hc
  refine ⟨hp, fun m hm hid => ?_⟩
  obtain ⟨i, hi, hmem⟩ := Broadcast.exists_member? hm hid
  exact h.done i m (hdone i hi) hmem

/-- A request is sent. -/
theorem FanoutOk.set_sent {b : Broadcast} {i request : ℕ} {c : Client} {sent : Sent} (h : FanoutOk listener tr s b)
    (hc : b.client? i = some c) (hs : s.sent request = some sent) (hcl : sent.client = c) (hk : sent.key = b.key)
    (hv : sent.version = b.version) : FanoutOk listener tr s (b.set i (.sent request)) := by
  refine ⟨fun j request' hj => ?_, fun j m hj hm => ?_⟩ <;> rw [Broadcast.set_jobs] at hj
  · by_cases hji : j = i
    · subst hji
      rw [if_pos rfl, Job.sent.injEq] at hj
      subst hj
      obtain ⟨m, hm, -⟩ := Option.bind_eq_some_iff.mp hc
      exact ⟨m, sent, hm, hs, by rw [hcl]; exact Broadcast.client?_address hm hc, hk, hv⟩
    · rw [if_neg hji] at hj
      exact h.sent j request' hj
  · by_cases hji : j = i
    · rw [if_pos hji] at hj
      simp at hj
    · rw [if_neg hji] at hj
      exact h.done j m hj hm

/-- A request ends. -/
theorem FanoutOk.set_done {b : Broadcast} {i : ℕ} {r : Except Err Unit} (h : FanoutOk listener tr s b)
    (hr : r = .ok () → ∀ m, b.member? i = some m → Acked listener tr m.address b.key b.version) :
    FanoutOk listener tr s (b.set i (.done (.of r))) := by
  refine ⟨fun j request hj => ?_, fun j m hj hm => ?_⟩ <;> rw [Broadcast.set_jobs] at hj
  · by_cases hji : j = i
    · rw [if_pos hji] at hj
      simp at hj
    · rw [if_neg hji] at hj
      exact h.sent j request hj
  · by_cases hji : j = i
    · subst hji
      rw [if_pos rfl, Job.done.injEq] at hj
      exact hr (MemberStatus.of_eq_ok hj) m hm
    · rw [if_neg hji] at hj
      exact h.done j m hj hm

/-- The end of a request whose reply has arrived. -/
theorem FanoutOk.set_received {b : Broadcast} {i request : ℕ} {r : Response} (h : FanoutOk listener tr s b)
    (hH : History listener selfID tr s) (hj : b.jobs i = .sent request) (hr : (request, r) ∈ s.replies) :
    FanoutOk listener tr s (b.set i (.done (.of (check b.version r)))) := by
  obtain ⟨m, sent, hm, hs, haddr, hk, hv⟩ := h.sent i request hj
  refine h.set_done fun hc m' hm' => ?_
  obtain ⟨sent', hs', hack⟩ := hH.replies request r hr
  rw [hs, Option.some.injEq] at hs'
  subst hs'
  rw [hm, Option.some.injEq] at hm'
  subst hm'
  rw [hk, hv, haddr] at hack
  exact hack hc

/-- What is known after a report, of the relay and of the mutation that it belongs to. -/
theorem reported_ok {n : ι} {origin : Origin} {b : Broadcast} {report : InvalidationReport}
    (hst : StageOk listener selfID tr s ⟨n, origin, .fanout b, some b.snapshot⟩)
    (hb : b.key = origin.key ∧ b.version = origin.version) (hr : b.report = some report)
    (hc : report.complete = true) : Covered listener tr n (selfID n) b.snapshot origin.key origin.version := by
  obtain ⟨-, hid, hp, hf⟩ := hst
  have hcov := hf.covered (n := n) (by rw [hb.1, hb.2]; exact hp) hr hc
  rwa [hb.1, hb.2, hid] at hcov

/-- **The stage of a task after a transition.** -/
theorem History.stage_step (hH : History listener selfID tr s) (hI : Inv tr s) (hE : Effects listener s a o s')
    {p : ℕ} {t : Task ι} (hst : TaskStep s a o s' p (s.tasks p) t) :
    StageOk listener selfID (tr ++ [(a, o)]) s' t := by
  have hgrows : ∀ request m, s.sent request = some m → s'.sent request = some m := fun _ _ hm => hH.grows hE hm
  have hold : ∀ t, s.tasks p = some t → StageOk listener selfID (tr ++ [(a, o)]) s' t :=
    fun t ht => (hH.tasks p t ht).stage.mono hgrows _
  have hfan : ∀ n origin b snap, s.tasks p = some ⟨n, origin, .fanout b, snap⟩ →
      b.key = origin.key ∧ b.version = origin.version := fun _ _ _ _ ht => hI.fanouts p _ _ ht rfl
  have hfan₀ : ∀ n origin b snap, s.tasks p = some ⟨n, origin, .fanout b, snap⟩ → FanoutOk listener tr s b :=
    fun _ _ _ _ ht => (hH.tasks p _ ht).stage.2.2.2
  generalize s.tasks p = old at hst hold hfan hfan₀
  cases hst with
  | begin h => rcases h with ⟨rfl, -⟩ | ⟨rfl, -⟩ <;> rfl
  | write _ _ h =>
    have hnone := hold _ rfl
    rcases h with rfl | ⟨rfl, -⟩
    · exact hnone
    · trivial
  | claim _ _ => rfl
  | ready => have hnone := hold _ rfl; exact hnone
  | unready => exact fun h => absurd h (by simp)
  | @notified n origin snap now now' applied ho =>
    have hnone := hold _ rfl
    refine ⟨hnone, now, now', applied, ?_⟩
    rw [engineOf_append]
    exact List.mem_append_right _ (by simp [engineOf, ho, Output.engine])
  | @refused n origin snap e =>
    cases origin with
    | mutation command outcome => trivial
    | relay event => exact fun h => absurd h (by simp [Outbox.delivered])
  | @captured n origin snap ho =>
    exact ⟨rfl, hH.ids n, (hold _ rfl).2, fun i request hj => absurd hj (by simp [Broadcast.start]),
      fun i m hj => absurd hj (by simp [Broadcast.start])⟩
  | sent hc hs hcl hk hv =>
    obtain ⟨h1, h2, h3, h4⟩ := hold _ rfl
    exact ⟨h1, h2, h3, h4.set_sent hc hs hcl hk hv⟩
  | failed =>
    obtain ⟨h1, h2, h3, h4⟩ := hold _ rfl
    exact ⟨h1, h2, h3, h4.set_done (by simp)⟩
  | received hj hr =>
    obtain ⟨h1, h2, h3, -⟩ := hold _ rfl
    exact ⟨h1, h2, h3, ((hfan₀ _ _ _ _ rfl).set_received hH hj hr).mono hgrows _⟩
  | @collected n origin snap b report hr =>
    cases origin with
    | mutation command outcome => trivial
    | relay event =>
      intro hd
      obtain ⟨report', he, hc, hne⟩ := Outbox.delivered_spec hd
      obtain rfl := Except.ok.inj he
      have hcap := (hold _ rfl).1
      simp only at hcap
      subst hcap
      refine ⟨b.snapshot, rfl, fun hnil => hne ?_, reported_ok (hold _ rfl) (hfan _ _ _ _ rfl) hr hc⟩
      rw [(Broadcast.report_complete hr hc).2, hnil]
      rfl
  | closed => trivial

theorem History.answered_step (hH : History listener selfID tr s) (hI : Inv tr s) {p : ℕ} {t : Task ι}
    (hst : TaskStep s a o s' p (s.tasks p) t) : AnsweredOk listener selfID (tr ++ [(a, o)]) t := by
  have hold : ∀ n origin stage snap, s.tasks p = some ⟨n, origin, stage, snap⟩ → ∀ stage',
      AnsweredOk listener selfID (tr ++ [(a, o)]) ⟨n, origin, stage', snap⟩ := by
    intro n origin stage snap ht stage' command outcome report h1 h2 h3
    obtain ⟨snapshot, h4, h5⟩ := (hH.tasks p _ ht).answered command outcome report h1 h2 h3
    exact ⟨snapshot, h4, h5.mono _⟩
  have hstage := fun t ht => (hH.tasks p t ht).stage
  have hfan : ∀ n origin b snap, s.tasks p = some ⟨n, origin, .fanout b, snap⟩ →
      b.key = origin.key ∧ b.version = origin.version := fun _ _ _ _ ht => hI.fanouts p _ _ ht rfl
  generalize s.tasks p = old at hst hold hstage hfan
  cases hst with
  | begin _ =>
    intro command outcome report h1 h2
    rw [← (Origin.mutation.inj h1).2] at h2
    simp [MutationOutcome.empty] at h2
  | write _ _ _ =>
    intro command outcome report h1 h2
    rw [← (Origin.mutation.inj h1).2, MutationOutcome.written_invalidation] at h2
    simp at h2
  | claim _ _ => intro command outcome report h1; simp at h1
  | @refused n origin snap e =>
    cases origin with
    | relay event => intro command outcome report h1; simp [Task.reported] at h1
    | mutation command outcome =>
      -- the response is not touched
      intro command' outcome' report h1 h2 h3
      obtain ⟨rfl, rfl⟩ := Origin.mutation.inj h1
      exact hold _ _ _ _ rfl .answer command outcome report rfl h2 h3
  | @captured n origin snap _ =>
    intro command outcome report h1 h2 h3
    obtain ⟨snapshot, h4, -⟩ := hold _ _ _ _ rfl .closed command outcome report h1 h2 h3
    have hnone := (hstage _ rfl).1
    rw [h4] at hnone
    simp at hnone
  | @collected n origin snap b report hr =>
    cases origin with
    | relay event => intro command outcome report h1; simp [Task.reported] at h1
    | mutation command outcome =>
      intro command' outcome' report' h1 h2 h3
      obtain ⟨rfl, rfl⟩ := Origin.mutation.inj h1
      simp only [MutationOutcome.broadcast, Option.some.injEq] at h2
      subst h2
      have hcap := (hstage _ rfl).1
      simp only at hcap
      subst hcap
      exact ⟨b.snapshot, rfl, (reported_ok (hstage _ rfl) (hfan _ _ _ _ rfl) hr h3).mono _⟩
  | ready => exact hold _ _ _ _ rfl _
  | unready => exact hold _ _ _ _ rfl _
  | notified _ => exact hold _ _ _ _ rfl _
  | sent _ _ _ _ _ => exact hold _ _ _ _ rfl _
  | failed => exact hold _ _ _ _ rfl _
  | received _ _ => exact hold _ _ _ _ rfl _
  | closed => exact hold _ _ _ _ rfl _

omit [DecidableEq ι] in
/-- A task stays at its node, keeps what it has captured, and a relay keeps its event. -/
theorem TaskStep.keeps {p : ℕ} {t t' : Task ι} (hst : TaskStep s a o s' p (some t) t') :
    t'.node = t.node ∧ (t'.captured = t.captured ∨ t.stage = .capture ∧ o = .captured p t'.node
      (s.nodes t'.node).directory.state ∧ t'.captured = some (s.nodes t'.node).directory.state) ∧
    ∀ event, t'.origin = .relay event → t.origin = .relay event := by
  cases hst with
  | @refused n origin snap e =>
    obtain ⟨h1, h2, -⟩ := Task.reported_origin ⟨n, origin, .notify, snap⟩ (.error e)
    refine ⟨h1, Or.inl h2, ?_⟩
    cases origin with
    | mutation command outcome => intro event h; simp [Task.reported] at h
    | relay event => exact fun _ h => h
  | @collected n origin snap b report hr =>
    obtain ⟨h1, h2, -⟩ := Task.reported_origin ⟨n, origin, .fanout b, snap⟩ (.ok report)
    refine ⟨h1, Or.inl h2, ?_⟩
    cases origin with
    | mutation command outcome => intro event h; simp [Task.reported] at h
    | relay event => exact fun _ h => h
  | captured ho => exact ⟨rfl, Or.inr ⟨rfl, ho, rfl⟩, fun _ h => h⟩
  | write _ _ _ => exact ⟨rfl, Or.inl rfl, fun _ h => by simp at h⟩
  | ready => exact ⟨rfl, Or.inl rfl, fun _ h => h⟩
  | unready => exact ⟨rfl, Or.inl rfl, fun _ h => h⟩
  | notified _ => exact ⟨rfl, Or.inl rfl, fun _ h => h⟩
  | sent _ _ _ _ _ => exact ⟨rfl, Or.inl rfl, fun _ h => h⟩
  | failed => exact ⟨rfl, Or.inl rfl, fun _ h => h⟩
  | received _ _ => exact ⟨rfl, Or.inl rfl, fun _ h => h⟩
  | closed => exact ⟨rfl, Or.inl rfl, fun _ h => h⟩

omit [DecidableEq ι] in
/-- A new task has captured nothing, and a new relay has just claimed its event. -/
theorem TaskStep.starts {p : ℕ} {t : Task ι} (hst : TaskStep s a o s' p none t) :
    t.captured = none ∧ ∀ event, t.origin = .relay event → ∃ x, (a, o) = claimEvent p t.node x event := by
  cases hst with
  | begin _ => exact ⟨rfl, fun event h => by simp at h⟩
  | @claim n x event ha ho =>
    refine ⟨rfl, fun event' h => ⟨x, ?_⟩⟩
    rw [ha, ho, ← Origin.relay.inj h]
    rfl

/-- Nothing is captured for a task before it begins. -/
theorem History.unknown_step (hH : History listener selfID tr s) (hE : Effects listener s a o s') {p : ℕ}
    (hp : s'.tasks p = none) (a' : Action ι) (n : ι) (snapshot : Snapshot) :
    (a', .captured p n snapshot) ∉ tr ++ [(a, o)] := by
  intro hmem
  rcases List.mem_append.mp hmem with hold | hnew
  · refine hH.unknown p ?_ a' n snapshot hold
    rcases hE.tasks with hsame | ⟨p', t', hupd, -⟩
    · rwa [hsame] at hp
    · by_cases hpp : p = p'
      · rw [hupd, hpp, Function.update_self] at hp
        simp at hp
      · rwa [hupd, Function.update_of_ne hpp] at hp
  · obtain ⟨-, -, -, -, t', ht', -⟩ := hE.captured p n snapshot (Prod.mk.inj (List.mem_singleton.mp hnew)).2.symm
    rw [hp] at ht'
    simp at ht'

/-- A task captures once. -/
theorem History.captures_step (hH : History listener selfID tr s) (hE : Effects listener s a o s') {p : ℕ}
    {t : Task ι} (ht : s'.tasks p = some t) {a' : Action ι} {n : ι} {snapshot : Snapshot}
    (hmem : (a', .captured p n snapshot) ∈ tr ++ [(a, o)]) : n = t.node ∧ t.captured = some snapshot := by
  rcases List.mem_append.mp hmem with hold | hnew
  · cases ht₀ : s.tasks p with
    | none => exact absurd hold (hH.unknown p ht₀ a' n snapshot)
    | some t₀ =>
      obtain ⟨hn, hcap⟩ := (hH.tasks p t₀ ht₀).captures a' n snapshot hold
      rcases hE.task_cases ht with hsame | hst
      · rw [ht₀, Option.some.injEq] at hsame
        exact hsame ▸ ⟨hn, hcap⟩
      · rw [ht₀] at hst
        obtain ⟨h1, h2, -⟩ := hst.keeps
        rcases h2 with h2 | ⟨hstage, -⟩
        · exact ⟨hn.trans h1.symm, h2.trans hcap⟩
        · -- before the capture there is none
          have hnone := (hH.tasks p t₀ ht₀).stage
          unfold StageOk at hnone
          rw [hstage] at hnone
          rw [hnone.1] at hcap
          simp at hcap
  · obtain ⟨-, -, -, -, t', ht', h1, h2⟩ := hE.captured p n snapshot (Prod.mk.inj (List.mem_singleton.mp hnew)).2.symm
    rw [ht, Option.some.injEq] at ht'
    subst ht'
    exact ⟨h1.symm, h2⟩

/-- **A task after an action.** -/
theorem History.task_step (hH : History listener selfID tr s) (hI : Inv tr s) (hE : Effects listener s a o s') {p : ℕ}
    {t : Task ι} (ht : s'.tasks p = some t) : TaskOk listener selfID (tr ++ [(a, o)]) s' p t := by
  have hgrows : ∀ request m, s.sent request = some m → s'.sent request = some m := fun _ _ hm => hH.grows hE hm
  have hcaps : ∀ a' n snapshot, (a', .captured p n snapshot) ∈ tr ++ [(a, o)] →
      n = t.node ∧ t.captured = some snapshot := fun _ _ _ hmem => hH.captures_step hE ht hmem
  rcases hE.task_cases ht with hold | hst
  · have hok := hH.tasks p t hold
    refine ⟨hcaps, fun snapshot hs => List.mem_append_left _ (hok.captured snapshot hs), hok.stage.mono hgrows _,
      fun command outcome report h1 h2 h3 => ?_, fun event he => ?_⟩
    · obtain ⟨snapshot, h4, h5⟩ := hok.answered command outcome report h1 h2 h3
      exact ⟨snapshot, h4, h5.mono _⟩
    · obtain ⟨tr₁, tr₂, x, heq, hno⟩ := hok.claimed event he
      exact ⟨tr₁, tr₂ ++ [(a, o)], x, by rw [heq]; simp, hno⟩
  · refine ⟨hcaps, fun snapshot hs => ?_, hH.stage_step hI hE hst, hH.answered_step hI hst, fun event he => ?_⟩
    · cases ht₀ : s.tasks p with
      | none =>
        rw [ht₀] at hst
        rw [hst.starts.1] at hs
        simp at hs
      | some t₀ =>
        rw [ht₀] at hst
        obtain ⟨h1, h2 | ⟨-, ho, hcap⟩, -⟩ := hst.keeps
        · rw [h1]
          exact List.mem_append_left _ ((hH.tasks p t₀ ht₀).captured snapshot (h2.symm.trans hs))
        · rw [hs, Option.some.injEq] at hcap
          subst hcap
          exact List.mem_append_right _ (by rw [(hE.captured _ _ _ ho).1, ho]; exact List.mem_singleton_self _)
    · cases ht₀ : s.tasks p with
      | none =>
        rw [ht₀] at hst
        obtain ⟨x, hx⟩ := hst.starts.2 event he
        exact ⟨tr, [], x, by rw [hx], hH.unknown p ht₀⟩
      | some t₀ =>
        rw [ht₀] at hst
        obtain ⟨h1, -, h2⟩ := hst.keeps
        obtain ⟨tr₁, tr₂, x, heq, hno⟩ := (hH.tasks p t₀ ht₀).claimed event (h2 event he)
        exact ⟨tr₁, tr₂ ++ [(a, o)], x, by rw [heq, h1]; simp, hno⟩

/-- **Every action keeps the invariant of histories.** -/
theorem History.step (hH : History listener selfID tr s) (hI : Inv tr s) (hE : Effects listener s a o s') :
    History listener selfID (tr ++ [(a, o)]) s' := by
  refine ⟨fun n => (hE.selfID n).trans (hH.ids n), fun request hle => ?_, fun request r hr => ?_,
    fun p hp => hH.unknown_step hE hp, fun p t ht => hH.task_step hI hE ht⟩
  · rcases hE.sent with ⟨hs, hn⟩ | ⟨sent, p, n, origin, b, snap, hs, hn, -⟩
    · rw [hs]
      exact hH.fresh request (hn ▸ hle)
    · rw [hs, Function.update_of_ne (by omega)]
      exact hH.fresh request (by omega)
  · have hold : (request, r) ∈ s.replies → ∃ sent, s'.sent request = some sent ∧
        (check sent.version r = .ok () →
          Acked listener (tr ++ [(a, o)]) sent.client.address sent.key sent.version) := fun hmem => by
      obtain ⟨sent, hs, hack⟩ := hH.replies request r hmem
      exact ⟨sent, hH.grows hE hs, fun hc => (hack hc).mono _⟩
    rcases hE.replies with hsame | ⟨request', r', sent, hrep, hs, hstep⟩
    · exact hold (hsame ▸ hr)
    · rw [hrep] at hr
      rcases List.mem_cons.mp hr with hnew | hmem
      · obtain ⟨rfl, rfl⟩ := Prod.mk.inj hnew
        exact ⟨sent, hH.grows hE hs, hI.acked_reply hs hstep⟩
      · exact hold hmem

end Step

theorem history_run {listener : GoString → Option ι} {clock : ℤ} {groups : ι → Cache.Group}
    {selfID token : ι → GoString} (hg : Groups groups) {tr : List (SystemEvent ι)} {s : System ι}
    (h : Run (step listener) (init clock groups selfID token) tr s) :
    Inv tr s ∧ History listener selfID tr s := by
  refine h.rec_inv (I := fun tr s => Inv tr s ∧ History listener selfID tr s) ⟨inv_init hg, ?_⟩
    fun tr s a o s' _ ⟨hI, hH⟩ hst => ⟨hI.step (effects hst), hH.step hI (effects hst)⟩
  exact ⟨fun _ => rfl, fun _ _ => rfl, by simp [init], by simp, by simp [init]⟩

/-! ### Delivered events -/

omit [DecidableEq ι] in
theorem mem_stored {tr : List (SystemEvent ι)} {e : StoreEvent} (h : e ∈ stored tr) :
    ∃ a commit, (a, .store e commit) ∈ tr := by
  obtain ⟨⟨a, o⟩, hmem, he⟩ := List.mem_flatMap.mp h
  cases o with
  | store e' commit =>
    obtain rfl := List.mem_singleton.mp he
    exact ⟨a, commit, hmem⟩
  | _ => simp [Output.stored] at he

theorem completionOf_eq {e : StoreEvent} {c : Outbox.Event × Bool} (h : completionOf e = some c) :
    ∃ p retry x, e = ((.finish p c.1 c.2 retry, x), .finished (.ok true)) := by
  unfold completionOf at h
  split at h
  · obtain rfl := Option.some.inj h
    exact ⟨_, _, _, rfl⟩
  · simp at h

/-- **Delivered means processed everywhere in a captured snapshot.**  Whatever the requests and replies go through,
whatever members answer and however the membership changes: if the row of an event is marked delivered, then a relay
has claimed the event, captured a nonempty snapshot after the claim, and finished the event with the token of that
claim; and before the finish the relaying node and every other member of the snapshot at whose address a node listens
had completed `InvalidateVersion` for the key and the version of the row, while every member at another address had
replied 204 and echoed the version.  The member with the relaying node's own ID is that node. -/
theorem delivered_everywhere {listener : GoString → Option ι} {clock : ℤ} {groups : ι → Cache.Group}
    {selfID token : ι → GoString} (hg : Groups groups) {tr : List (SystemEvent ι)} {s : System ι}
    (h : Run (step listener) (init clock groups selfID token) tr s) {r : OutboxRow} (hr : r ∈ s.store.db.outbox)
    (hd : r.deliveredAt ≠ none) :
    ∃ tr₁ tr₂ tr₃ p n x event snapshot a retry x' commit,
      tr = tr₁ ++ claimEvent p n x event :: tr₂ ++
        (a, .store ((.finish p event true retry, x'), .finished (.ok true)) commit) :: tr₃ ∧
      event.id = r.id ∧ event.key = r.key ∧ event.version = r.version ∧
      (.capture p, .captured p n snapshot) ∈ tr₂ ∧ snapshot.members ≠ [] ∧
      Processed (tr₁ ++ claimEvent p n x event :: tr₂) n r.key r.version ∧
      ∀ m ∈ snapshot.members, m.id ≠ selfID n →
        match listener m.address with
        | some n' => Processed (tr₁ ++ claimEvent p n x event :: tr₂) n' r.key r.version
        | none => Echoed (tr₁ ++ claimEvent p n x event :: tr₂) m.address r.key r.version := by
  obtain ⟨hI, -⟩ := history_run hg h
  -- the accepted completion of the row, and the task that made it
  obtain ⟨⟨event, delivered⟩, hc, hid, rfl⟩ := (Postgres.leaseInv_run (store_run h)).delivered r hr hd
  obtain ⟨e, he, hce⟩ := List.mem_filterMap.mp hc
  obtain ⟨p, retry, x', rfl⟩ := completionOf_eq hce
  obtain ⟨a, commit, hmem⟩ := mem_stored he
  obtain ⟨tr₀, tr₃, rfl⟩ := List.append_of_mem hmem
  obtain ⟨s₁, s₂, h₁, hst, -⟩ := h.cut
  obtain ⟨-, hH⟩ := history_run hg h₁
  obtain ⟨n, snap, ht⟩ := (effects hst).finished p event true retry x' _ commit rfl
  have hok := hH.tasks p _ ht
  obtain ⟨snapshot, hsnap, hne, hcov⟩ := hok.stage rfl
  simp only at hsnap
  subst hsnap
  obtain ⟨tr₁, tr₂, x, rfl, hbefore⟩ := hok.claimed event rfl
  -- the row is the one that was claimed
  have hclaim : ((.claim p Outbox.leaseDuration false, x), .claimed (.ok (some event))) ∈
      stored (tr₁ ++ claimEvent p n x event :: tr₂ ++
        (a, .store ((.finish p event true retry, x'), .finished (.ok true)) commit) :: tr₃) :=
    List.mem_flatMap.mpr ⟨claimEvent p n x event, by simp, List.mem_singleton_self _⟩
  obtain ⟨-, hpos, -, hrow⟩ := hI.events.claimed _ hclaim event rfl
  obtain ⟨hkey, hver⟩ := hrow r hr hid.symm
  have hcap : (.capture p, .captured p n snapshot) ∈ tr₂ := by
    rcases List.mem_append.mp (hok.captured snapshot rfl) with hm | hm
    · exact absurd hm (hbefore _ _ _)
    · rcases List.mem_cons.mp hm with hm | hm
      · simp [claimEvent] at hm
      · exact hm
  refine ⟨tr₁, tr₂, tr₃, p, n, x, event, snapshot, a, retry, x', commit, rfl, hid, hkey.symm, hver.symm, hcap, hne,
    by rw [hkey, hver]; exact hcov.own, fun m hm hself => ?_⟩
  have hack := hcov.others m hm hself
  unfold Acked at hack
  rw [hkey, hver]
  cases hl : listener m.address with
  | some n' => rw [hl] at hack; exact hack
  | none => rw [hl] at hack; exact hack hpos

/-- Three members, and nodes that listen at the addresses of the first two. -/
def members : List Member := [⟨[97], [97, 58, 49]⟩, ⟨[98], [98, 58, 49]⟩, ⟨[99], [99, 58, 49]⟩]

def listening (address : GoString) : Option Bool :=
  if address = [97, 58, 49] then some false else if address = [98, 58, 49] then some true else none

def twoNodes : System Bool := init 0 (fun _ => Cache.smallGroup) (fun n => if n then [98] else [97]) fun _ => [116]

theorem groups_twoNodes : Groups fun _ : Bool => Cache.smallGroup := fun _ => ⟨_, _, _, _, Cache.smallGroup_eq⟩

/-- A statement that does not fail, at time 0. -/
def calm : Exec := ⟨0, 0, none, none, []⟩

/-- The reply of the third member. -/
def echo (version : ℤ) : Response := ⟨204, [(invalidationVersionHeader, Go.formatInt version)], ""⟩

/-- The notification of the three members by the task `p`, with `request` as the first free request number. -/
def notifying (p request : ℕ) (version : ℤ) : List (Action Bool) :=
  [.invalidate p 0 0, .capture p, .dispatch p none, .dispatch p none, .foreign (request + 1) (echo version),
   .serve request 0 0, .receive p 1 (echo version), .receive p 0 (echo version), .collect p]

/-- An event is relayed. -/
def relayed : List (Action Bool) :=
  [.update false members, .store (.mutate (.put [107] [118]) false) calm, .claim 0 false calm false, .ready 0 true] ++
    notifying 0 0 1 ++ [.finish 0 calm]

theorem relayed_isSome : (exec (step listening) twoNodes relayed).isSome = true := rfl

theorem relayed_outbox : ((exec (step listening) twoNodes relayed).get relayed_isSome).1.store.db.outbox =
    [⟨1, [107], 1, 0, none, 1, some 0⟩] := rfl

/-- The relayed event is marked delivered, and was processed by the relaying node before. -/
theorem delivered_everywhere_relayed : ∃ tr s r, Run (step listening) twoNodes tr s ∧ r ∈ s.store.db.outbox ∧
    r.deliveredAt = some 0 ∧ r.key = [107] ∧ r.version = 1 ∧ ∃ tr₁ tr₂ tr₃ p n snapshot, tr = tr₁ ++ tr₂ ++ tr₃ ∧
      (.capture p, .captured p n snapshot) ∈ tr₂ ∧ snapshot.members ≠ [] ∧ Processed (tr₁ ++ tr₂) n [107] 1 := by
  have hrun := exec_get relayed_isSome
  have hmem : (⟨1, [107], 1, 0, none, 1, some 0⟩ : OutboxRow) ∈
      ((exec (step listening) twoNodes relayed).get relayed_isSome).1.store.db.outbox := by
    rw [relayed_outbox]
    exact List.mem_singleton_self _
  refine ⟨_, _, _, hrun, hmem, rfl, rfl, rfl, ?_⟩
  obtain ⟨tr₁, tr₂, tr₃, p, n, x, event, snapshot, a, retry, x', commit, heq, -, -, -, hcap, hne, hp, -⟩ :=
    delivered_everywhere groups_twoNodes hrun hmem (by simp)
  exact ⟨tr₁, claimEvent p n x event :: tr₂, _, p, n, snapshot, heq, List.mem_cons_of_mem _ hcap, hne, hp⟩

end System

end SimpleCache.Cluster
