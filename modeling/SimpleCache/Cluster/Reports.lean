import Mathlib.Data.Prod.Lex
import SimpleCache.Cluster.Fanout

/-!
# Cluster.Reports — what `Directory.InvalidateVersion` reports

A fan-out whose workers have exited has an exact report: a result for every other member of the captured snapshot, with
the status of its own attempt.  `fanout_exact` says so of every run, together with what the attempts have sent, and that
the call returns once they have ended.
-/

namespace SimpleCache.Cluster

open Cache (Group ValidKey)
open Lib (Pool Run)

namespace Fanout

variable {parses : GoString → Bool}

/-! ### The report -/

/-- **An exact report**: one attempt for every other member of the snapshot, in its order and at its address; every
attempt has ended once; the results are those of the members with the statuses of their own attempts. -/
structure Exact (selfID : GoString) (version : ℤ) (tr : List (Act × Event)) (snapshot : Snapshot)
    (report : InvalidationReport) : Prop where
  addresses : (attempts tr).map Client.address = (Broadcast.others selfID snapshot).map Member.address
  members : report.knownMembers = snapshot.members.length
  version_eq : report.version = version
  scope : report.scope = "known_members_snapshot"
  outcomes : ∃ outcomes : List Outcome, outcomes.length = (Broadcast.others selfID snapshot).length ∧
    (ended tr).length = outcomes.length ∧ (∀ i outcome, (i, outcome) ∈ ended tr ↔ outcomes[i]? = some outcome) ∧
    report.results = ⟨selfID, .ok⟩ :: List.zipWith
      (fun m outcome => ⟨m.id, MemberStatus.of (receive version outcome)⟩) (Broadcast.others selfID snapshot) outcomes ∧
    (report.complete = true ↔ ∀ outcome ∈ outcomes, Acknowledged version outcome)

theorem mapM_resultOf (l : List InvalidationResult) :
    ((l.map fun y => (y.node, some y.status)).mapM resultOf) = some l := by
  induction l with
  | nil => rfl
  | cons y l ih =>
    rw [List.map_cons, List.mapM_cons, ih]
    rfl

section Report

variable {selfID name key : GoString} {version : ℤ} {tr : List (Act × Event)} {r : Running}

/-- The attempts are at the first of the other members, in order. -/
theorem Going.addresses (h : Going selfID name key version tr r) : (attempts tr).map Client.address =
    ((Broadcast.others selfID r.snapshot).take r.pool.next).map Member.address := by
  have hlen : r.clients.length = size selfID r.snapshot := by rw [h.clients, List.length_map]; rfl
  have hcount : (attempts tr).length = min r.pool.next (size selfID r.snapshot) := by
    rw [← hlen, ← List.length_take, ← h.attempted, List.length_map]
  refine List.ext_getElem? fun i => ?_
  rw [List.getElem?_map, List.getElem?_map]
  by_cases hi : i < r.pool.next ∧ i < size selfID r.snapshot
  · obtain ⟨m, c, hm, hc, ha⟩ := h.client hi.2
    rw [List.getElem?_take_of_lt hi.1, h.attempt_of_lt hi.1 hc, hm, Option.map_some, Option.map_some, ha]
  · have hsize : (Broadcast.others selfID r.snapshot).length = size selfID r.snapshot := rfl
    rw [List.getElem?_eq_none (by rw [hcount]; omega), List.getElem?_eq_none (by rw [List.length_take]; omega)]
    rfl

/-- The results of the other members, with the outcomes of their attempts. -/
def memberResults (version : ℤ) (others : List Member) (outcomes : List Outcome) : List InvalidationResult :=
  List.zipWith (fun m outcome => ⟨m.id, MemberStatus.of (receive version outcome)⟩) others outcomes

theorem status_memberResults {others : List Member} {outcomes : List Outcome} (hlen : outcomes.length = others.length) :
    (memberResults version others outcomes).map InvalidationResult.status =
      outcomes.map fun outcome => MemberStatus.of (receive version outcome) := by
  have hzip : (others.zip outcomes).map Prod.snd = outcomes := List.map_snd_zip hlen.le
  unfold memberResults
  rw [List.map_zipWith, ← List.map_uncurry_zip_eq_zipWith]
  conv_rhs => rw [← hzip]
  rw [List.map_map]
  rfl

/-- Once every attempt has ended, each worker has written the result of its member. -/
theorem Going.results_eq (h : Going selfID name key version tr r) {outcomes : List Outcome}
    (hlen : outcomes.length = size selfID r.snapshot)
    (hout : ∀ i outcome, (i, outcome) ∈ ended tr ↔ outcomes[i]? = some outcome) :
    r.results = (⟨selfID, .ok⟩ :: memberResults version (Broadcast.others selfID r.snapshot) outcomes).map
      fun y => (y.node, some y.status) := by
  refine List.ext_getElem? fun i => ?_
  cases i with
  | zero => exact h.self
  | succ i =>
    show r.results[i + 1]? = ((List.zipWith _ _ _).map _)[i]?
    rw [List.getElem?_map, List.getElem?_zipWith]
    by_cases hi : i < size selfID r.snapshot
    · have hm := List.getElem?_eq_getElem hi
      have ho := List.getElem?_eq_getElem (l := outcomes) (i := i) (by omega)
      rw [hm, ho, h.written i _ _ ((hout i _).mpr ho) hm]
      rfl
    · rw [List.getElem?_eq_none (by rw [h.length]; omega), List.getElem?_eq_none (l := outcomes) (by omega)]
      cases (Broadcast.others selfID r.snapshot)[i]? <;> rfl

/-- The report is complete exactly if every attempt was acknowledged. -/
theorem complete_iff (h0 : 0 ≤ version) (hv : version ≤ Go.maxInt64) {others : List Member} {outcomes : List Outcome}
    (hlen : outcomes.length = others.length) :
    (((⟨selfID, .ok⟩ :: memberResults version others outcomes).map fun y => (y.node, some y.status)).all
      fun x => x.2 = some .ok) = true ↔ ∀ outcome ∈ outcomes, Acknowledged version outcome := by
  have hall : (((⟨selfID, .ok⟩ :: memberResults version others outcomes).map fun y => (y.node, some y.status)).all
      fun x => x.2 = some .ok) =
        ((memberResults version others outcomes).map InvalidationResult.status).all (· = .ok) := by
    rw [List.all_map, List.all_map]
    simp [Function.comp_def]
  rw [hall, status_memberResults hlen, List.all_map, List.all_eq_true]
  refine forall_congr' fun outcome => imp_congr_right fun _ => ?_
  rw [← status_ok_iff h0 hv]
  simp

/-- The report of a fan-out whose workers have exited exists and is exact. -/
theorem Going.report (h : Going selfID name key version tr r) (h0 : 0 ≤ version) (hv : version ≤ Go.maxInt64)
    (hf : r.pool.finished) : ∃ report, r.report version = some report ∧
      Exact selfID version tr r.snapshot report := by
  obtain ⟨ptr, hsound, hend⟩ := h.sound
  obtain ⟨-, hperm⟩ := hsound.all_ended hf
  have hn : r.pool.next = size selfID r.snapshot := (hsound.closed hf.1).trans hsound.size_eq
  rw [hend] at hperm
  obtain ⟨outcomes, hlen, hout⟩ := Pool.exists_outcomes hperm
  have hres := h.results_eq hlen hout
  have hcomplete : (r.results.all fun x => x.2 = some .ok) = true ↔
      ∀ outcome ∈ outcomes, Acknowledged version outcome := by
    rw [hres]
    exact complete_iff h0 hv hlen
  refine ⟨⟨r.snapshot.members.length, version, "known_members_snapshot", _,
    ⟨selfID, .ok⟩ :: memberResults version (Broadcast.others selfID r.snapshot) outcomes⟩, ?_, ?_, rfl, rfl, rfl,
    outcomes, hlen, ?_, hout, rfl, hcomplete⟩
  · unfold Running.report
    rw [hres, mapM_resultOf]
    rfl
  · rw [h.addresses, hn]
    exact congrArg _ List.take_length
  · rw [hlen, ← List.length_map (f := Prod.fst), hperm.length_eq, List.length_range]

end Report

/-! ### Runs -/

/-- The snapshot was the published one when it was captured. -/
def Captured (parses : GoString → Bool) (s₀ : Fanout) (tr : List (Act × Event)) (snapshot : Snapshot) : Prop :=
  ∃ tr₁ s₁ tr₂, tr = tr₁ ++ (.capture, .captured snapshot) :: tr₂ ∧ Run (step parses) s₀ tr₁ s₁ ∧
    s₁.directory.state = snapshot

theorem Captured.snoc {s₀ : Fanout} {tr : List (Act × Event)} {snapshot : Snapshot}
    (h : Captured parses s₀ tr snapshot) (ev : Act × Event) : Captured parses s₀ (tr ++ [ev]) snapshot := by
  obtain ⟨tr₁, s₁, tr₂, rfl, h1, h2⟩ := h
  exact ⟨tr₁, s₁, tr₂ ++ [ev], by simp, h1, h2⟩

/-- The key and the version that `group.InvalidateVersion` accepts. -/
def Admitted (s : Fanout) : Prop := ValidKey s.key ∧ 0 ≤ s.version

/-- No client has been called yet. -/
structure Untouched (tr : List (Act × Event)) : Prop where
  attempts : attempts tr = []
  requests : requests tr = []
  ended : ended tr = []

/-- A step before the fan-out calls no client. -/
theorem Untouched.snoc {tr : List (Act × Event)} (h : Untouched tr) (a : Act) {o : Event}
    (ho : o = .quiet ∨ ∃ snapshot, o = .captured snapshot) : Untouched (tr ++ [(a, o)]) := by
  rcases ho with rfl | ⟨snapshot, rfl⟩ <;>
    exact ⟨by rw [attempts_snoc, h.attempts]; rfl, by rw [requests_snoc, h.requests]; rfl,
      by rw [ended_snoc, h.ended]; rfl⟩

/-- What holds in each phase of a call that began in `s₀`. -/
def Stands (parses : GoString → Bool) (s₀ : Fanout) (tr : List (Act × Event)) (group : Group) : FanoutPhase → Prop
  | .called => group = s₀.group ∧ Untouched tr
  | .invalidated => s₀.Admitted ∧ Untouched tr
  | .running r => s₀.Admitted ∧ Captured parses s₀ tr r.snapshot ∧
      Going s₀.directory.selfID s₀.group.name s₀.key s₀.version tr r
  | .returned (.error _) => ¬ s₀.Admitted ∧ group = s₀.group ∧ Untouched tr
  | .returned (.ok report) => s₀.Admitted ∧ Sent s₀.group.name s₀.key s₀.version tr ∧
      ∃ snapshot, Captured parses s₀ tr snapshot ∧ Exact s₀.directory.selfID s₀.version tr snapshot report

structure Inv (parses : GoString → Bool) (s₀ : Fanout) (tr : List (Act × Event)) (s : Fanout) : Prop where
  key : s.key = s₀.key
  version : s.version = s₀.version
  selfID : s.directory.selfID = s₀.directory.selfID
  name : s.group.name = s₀.group.name
  directory : s.directory = (updates tr).foldl (fun d input => (d.update input).2) s₀.directory
  phase : Stands parses s₀ tr s.group s.phase

theorem Stands.sent {s₀ : Fanout} {tr : List (Act × Event)} {group : Group} {phase : FanoutPhase}
    (h : Stands parses s₀ tr group phase) : Sent s₀.group.name s₀.key s₀.version tr :=
  match phase, h with
  | .called, h => sent_nil h.2.requests h.2.ended
  | .invalidated, h => sent_nil h.2.requests h.2.ended
  | .running _, h => h.2.2.sent
  | .returned (.error _), h => sent_nil h.2.2.requests h.2.2.ended
  | .returned (.ok _), h => h.2.1

/-- An event that shows nothing of the call. -/
theorem Stands.update {s₀ : Fanout} {tr : List (Act × Event)} {group : Group} {phase : FanoutPhase}
    (h : Stands parses s₀ tr group phase) (a : Act) : Stands parses s₀ (tr ++ [(a, .quiet)]) group phase := by
  match phase, h with
  | .called, h => exact ⟨h.1, h.2.snoc a (.inl rfl)⟩
  | .invalidated, h => exact ⟨h.1, h.2.snoc a (.inl rfl)⟩
  | .running r, ⟨h1, h2, h3⟩ => exact ⟨h1, h2.snoc _, h3.quiet a r.expired rfl h3.pool⟩
  | .returned (.error _), h => exact ⟨h.1, h.2.1, h.2.2.snoc a (.inl rfl)⟩
  | .returned (.ok _), ⟨h1, hs, snapshot, h2, h3⟩ =>
    refine ⟨h1, hs.quiet a, snapshot, h2.snoc _, ?_, h3.members, h3.version_eq, h3.scope, ?_⟩
    · rw [attempts_snoc, List.append_nil]
      exact h3.addresses
    · rw [ended_snoc, List.append_nil]
      exact h3.outcomes

theorem inv_start (s₀ : Fanout) (h : s₀.phase = .called) : Inv parses s₀ [] s₀ :=
  ⟨rfl, rfl, rfl, rfl, rfl, by rw [h]; exact ⟨rfl, rfl, rfl, rfl⟩⟩

theorem updates_snoc_of_ne (tr : List (Act × Event)) {a : Act} (ha : ∀ input, a ≠ .update input) (o : Event) :
    updates (tr ++ [(a, o)]) = updates tr := by
  rw [updates_snoc]
  cases a with
  | update input => exact absurd rfl (ha input)
  | _ => exact List.append_nil _

/-- A step of the call itself leaves the directory to `Directory.Update`. -/
theorem Inv.directory_snoc {s₀ s : Fanout} {tr : List (Act × Event)} {a : Act} (h : Inv parses s₀ tr s)
    (ha : ∀ input, a ≠ .update input) (o : Event) :
    s.directory = (updates (tr ++ [(a, o)])).foldl (fun d input => (d.update input).2) s₀.directory := by
  rw [updates_snoc_of_ne tr ha]
  exact h.directory

/-- A step within the fan-out. -/
theorem Inv.going {s₀ s : Fanout} {tr : List (Act × Event)} {a : Act} {o : Event} {r r' : Running}
    (h : Inv parses s₀ tr s) (hp : s.phase = .running r) (ha : ∀ input, a ≠ .update input)
    (hsnap : r'.snapshot = r.snapshot)
    (hgo : Going s₀.directory.selfID s₀.group.name s₀.key s₀.version (tr ++ [(a, o)]) r') :
    Inv parses s₀ (tr ++ [(a, o)]) { s with phase := .running r' } := by
  have hphase := h.phase
  rw [hp] at hphase
  refine ⟨h.key, h.version, h.selfID, h.name, h.directory_snoc ha o, hphase.1, ?_, hgo⟩
  rw [hsnap]
  exact hphase.2.1.snoc _

theorem Inv.step {s₀ s s' : Fanout} {tr : List (Act × Event)} {a : Act} {o : Event} (hg : s₀.group.WF)
    (hv : s₀.version ≤ Go.maxInt64) (hrun : Run (step parses) s₀ tr s) (h : Inv parses s₀ tr s)
    (hst : s.step parses a = some (s', o)) : Inv parses s₀ (tr ++ [(a, o)]) s' := by
  have hphase := h.phase
  have hadm : s₀.Admitted ↔ ValidKey s.key ∧ 0 ≤ s.version := by rw [h.key, h.version]; rfl
  cases move_of_step hst with
  | @refused now now' e hp hres =>
    rw [hp] at hphase
    have hno : ¬ (ValidKey s.key ∧ 0 ≤ s.version) := by
      intro hok
      rw [(Cache.Group.invalidate_spec (hphase.1 ▸ hg) hok.1 hok.2 now now').1] at hres
      simp at hres
    have hsame := (Cache.Group.invalidate_refused (g := s.group) hno now now').2
    refine ⟨h.key, h.version, h.selfID, ?_, h.directory_snoc (by simp) _, mt hadm.mp hno, hsame.trans hphase.1,
      hphase.2.snoc _ (.inl rfl)⟩
    rw [hsame]
    exact h.name
  | @invalidated now now' applied hp hres =>
    rw [hp] at hphase
    have hok : ValidKey s.key ∧ 0 ≤ s.version := by
      by_contra hno
      obtain ⟨e, he⟩ := (Cache.Group.invalidate_refused (g := s.group) hno now now').1
      rw [he] at hres
      simp at hres
    obtain ⟨-, dropped, hinv⟩ := Cache.Group.invalidate_spec (hphase.1 ▸ hg) hok.1 hok.2 now now'
    exact ⟨h.key, h.version, h.selfID, hinv.name.trans h.name, h.directory_snoc (by simp) _, hadm.mpr hok,
      hphase.2.snoc _ (.inl rfl)⟩
  | captured hp =>
    rw [hp] at hphase
    have hnone := hphase.2.snoc .capture (.inr ⟨s.directory.state, rfl⟩)
    refine ⟨h.key, h.version, h.selfID, h.name, h.directory_snoc (by simp) _, hphase.1, ⟨tr, s, [], rfl, hrun, rfl⟩, ?_⟩
    rw [h.selfID]
    exact going_start hnone.attempts hnone.requests hnone.ended _
  | @attempted r pa pool i c hp hps hc =>
    rw [hp] at hphase
    obtain ⟨c', hc', hgo⟩ := hphase.2.2.step hps (.pool pa)
    rw [hc, Option.some.injEq, Option.some.injEq] at hc'
    subst hc'
    exact h.going hp (by simp) rfl hgo
  | @sent r i c q hp hc hbusy hflag _ _ hq =>
    rw [hp] at hphase
    rw [h.name, h.key, h.version] at hq
    exact h.going hp (by simp) rfl (hphase.2.2.send (.send i) hc hbusy hflag hq)
  | @expired r hp _ =>
    rw [hp] at hphase
    exact h.going hp (by simp) rfl (hphase.2.2.quiet .expire true rfl hphase.2.2.pool)
  | @ended r pa pool i outcome hp hps hmay =>
    rw [hp] at hphase
    refine h.going hp (by simp) rfl ?_
    rw [h.version]
    exact hphase.2.2.step hps (.pool pa) hmay
  | @quiet r pa pool hp hps =>
    rw [hp] at hphase
    exact h.going hp (by simp) rfl (hphase.2.2.step hps (.pool pa))
  | @reported r report hp hf hrep =>
    rw [hp] at hphase
    obtain ⟨report', hrep', hexact⟩ := hphase.2.2.report hphase.1.2 hv hf
    rw [h.version, hrep', Option.some.injEq] at hrep
    subst hrep
    have hstands : Stands parses s₀ tr s.group (.returned (.ok report')) :=
      ⟨hphase.1, hphase.2.2.sent, r.snapshot, hphase.2.1, hexact⟩
    exact ⟨h.key, h.version, h.selfID, h.name, h.directory_snoc (by simp) _, hstands.update .finish⟩
  | @updated input =>
    refine ⟨h.key, h.version, (Directory.update_selfID s.directory input).trans h.selfID, h.name, ?_, h.phase.update _⟩
    rw [updates_snoc, List.foldl_append, ← h.directory]
    rfl

theorem inv_run {s₀ s : Fanout} {tr : List (Act × Event)} (hcalled : s₀.phase = .called) (hg : s₀.group.WF)
    (hv : s₀.version ≤ Go.maxInt64) (hrun : Run (step parses) s₀ tr s) : Inv parses s₀ tr s :=
  hrun.rec_inv (I := Inv parses s₀) (inv_start s₀ hcalled) fun _ _ _ _ _ hr hI hst => hI.step hg hv hr hst

/-! ### The context -/

/-- The context of the fan-out is done, or the fan-out itself. -/
def Expired (s : Fanout) : Prop :=
  match s.phase with
  | .running r => r.expired = true
  | .returned _ => True
  | _ => False

/-- Once the context is done it stays so, and no request leaves. -/
theorem Expired.step {s s' : Fanout} {a : Act} {o : Event} (h : s.Expired) (hst : s.step parses a = some (s', o)) :
    s'.Expired ∧ ∀ i c q, o ≠ .request i c q := by
  unfold Expired at h ⊢
  cases move_of_step hst with
  | refused hp _ => rw [hp] at h; exact h.elim
  | invalidated hp _ => rw [hp] at h; exact h.elim
  | captured hp => rw [hp] at h; exact h.elim
  | attempted hp _ _ => rw [hp] at h; exact ⟨h, by simp⟩
  | sent hp _ _ _ hlive _ _ =>
    rw [hp] at h
    exact absurd (h.symm.trans hlive) (by simp)
  | expired _ _ => exact ⟨rfl, by simp⟩
  | ended hp _ _ => rw [hp] at h; exact ⟨h, by simp⟩
  | quiet hp _ => rw [hp] at h; exact ⟨h, by simp⟩
  | reported _ _ _ => exact ⟨trivial, by simp⟩
  | updated => exact ⟨h, by simp⟩

theorem requests_of_expired {s s' : Fanout} {tr : List (Act × Event)} (h : s.Expired)
    (hrun : Run (step parses) s tr s') : requests tr = [] := by
  refine (hrun.rec_inv (I := fun tr s' => s'.Expired ∧ requests tr = []) ⟨h, rfl⟩ ?_).2
  intro tr s₁ a o s₂ _ ⟨hex, hnone⟩ hst
  obtain ⟨hex', hno⟩ := hex.step hst
  refine ⟨hex', ?_⟩
  rw [requests_snoc, hnone]
  cases o with
  | request i c q => exact absurd rfl (hno i c q)
  | _ => rfl

/-- No request leaves after the context is done. -/
theorem requests_after_expire {s₀ s : Fanout} {tr₁ tr₂ : List (Act × Event)} {o : Event}
    (hrun : Run (step parses) s₀ (tr₁ ++ (.expire, o) :: tr₂) s) : requests tr₂ = [] := by
  obtain ⟨s₁, s₂, -, hst, h₂⟩ := hrun.cut
  refine requests_of_expired ?_ h₂
  cases move_of_step hst with
  | expired _ _ => rfl

/-! ### Termination -/

/-- What the fan-out still has to do: the work of the pool, the requests that have not left, and the deadline. -/
def runningWork (r : Running) : ℕ :=
  r.pool.work + (r.sent.map fun left => if left then 0 else 1).sum + if r.expired then 0 else 1

/-- What the call still has to do: its phases, and within the fan-out its work. -/
def work (s : Fanout) : ℕ ×ₗ ℕ :=
  match s.phase with
  | .called => toLex (3, 0)
  | .invalidated => toLex (2, 0)
  | .running r => toLex (1, runningWork r)
  | .returned _ => toLex (0, 0)

/-- A fan-out that goes on has less to do. -/
theorem work_lt_of_running {s s' : Fanout} {r r' : Running} (hp : s.phase = .running r) (hp' : s'.phase = .running r')
    (h : runningWork r' < runningWork r) : s'.work < s.work := by
  unfold work
  rw [hp, hp']
  exact Prod.Lex.toLex_lt_toLex.mpr (Or.inr ⟨rfl, h⟩)

theorem work_lt_of_pool {r : Running} {a : Pool.Act Outcome} {pool : Pool} {ev : Pool.Event Outcome}
    (h : r.pool.step a = some (pool, ev)) (results : List (GoString × Option MemberStatus)) :
    runningWork { r with pool := pool, results := results } < runningWork r := by
  have := Pool.work_lt h
  unfold runningWork
  dsimp only
  omega

/-- Every step of the call lowers its work. -/
theorem work_lt {s s' : Fanout} {a : Act} {o : Event} (hst : s.step parses a = some (s', o))
    (ha : ∀ input, a ≠ .update input) : s'.work < s.work := by
  cases move_of_step hst with
  | refused hp _ => unfold work; rw [hp]; exact Prod.Lex.toLex_lt_toLex.mpr (Or.inl (Nat.zero_lt_succ 2))
  | invalidated hp _ => unfold work; rw [hp]; exact Prod.Lex.toLex_lt_toLex.mpr (Or.inl (Nat.lt_succ_self 2))
  | captured hp => unfold work; rw [hp]; exact Prod.Lex.toLex_lt_toLex.mpr (Or.inl (Nat.lt_succ_self 1))
  | attempted hp hps _ => exact work_lt_of_running hp rfl (work_lt_of_pool hps _)
  | ended hp hps _ => exact work_lt_of_running hp rfl (work_lt_of_pool hps _)
  | quiet hp hps => exact work_lt_of_running hp rfl (work_lt_of_pool hps _)
  | sent hp _ _ hflag _ _ _ =>
    refine work_lt_of_running hp rfl ?_
    have := Lib.Slots.sum_set (fun left => if left then 0 else 1) true hflag
    unfold runningWork
    simp only [Bool.false_eq_true, if_false, if_true] at this ⊢
    omega
  | expired hp hlive =>
    refine work_lt_of_running hp rfl ?_
    simp [runningWork, hlive]
  | reported hp _ _ => unfold work; rw [hp]; exact Prod.Lex.toLex_lt_toLex.mpr (Or.inl Nat.zero_lt_one)
  | @updated input => exact absurd rfl (ha input)

/-- A step that the dispatcher and the workers take by themselves: nothing outside has to happen for it. -/
def Act.own : Act → Bool
  | .invalidate .. | .capture | .finish | .pool (.handoff _) | .pool .close | .pool (.exit _) => true
  | .pool (.finish ..) | .send _ | .expire | .update _ => false

/-- While no attempt is running and the call has not returned, it can go on by itself. -/
theorem Inv.progress {s₀ s : Fanout} {tr : List (Act × Event)} (hv : s₀.version ≤ Go.maxInt64)
    (h : Inv parses s₀ tr s) (hret : ∀ result, s.phase ≠ .returned result)
    (hidle : ∀ r, s.phase = .running r → r.pool.busy = []) :
    ∃ a, a.own = true ∧ (s.step parses a).isSome := by
  have hphase := h.phase
  cases hp : s.phase with
  | called =>
    refine ⟨.invalidate 0 0, rfl, ?_⟩
    simp only [Fanout.step, hp]
    split <;> rfl
  | invalidated => exact ⟨.capture, rfl, by simp [Fanout.step, hp]⟩
  | running r =>
    rw [hp] at hphase
    obtain ⟨hadm, -, hgo⟩ := hphase
    by_cases hf : r.pool.finished
    · obtain ⟨report, hrep, -⟩ := hgo.report hadm.2 hv hf
      exact ⟨.finish, rfl, by simp [Fanout.step, hp, hf, h.version, hrep]⟩
    · obtain ⟨ptr, hsound, -⟩ := hgo.sound
      obtain ⟨pa, hpa, hsome⟩ := hsound.progress (by omega) (hidle r hp) hf
      obtain ⟨⟨pool, ev⟩, hps⟩ := Option.isSome_iff_exists.mp hsome
      have hstep := hgo.step hps (.pool pa)
      refine ⟨.pool pa, ?_, ?_⟩
      · cases pa with
        | finish w outcome => exact absurd rfl (hpa w outcome)
        | _ => rfl
      · cases Pool.move_of_step hps with
        | handoff _ _ =>
          obtain ⟨c, hc, -⟩ := hstep
          simp [Fanout.step, hp, hps, hc]
        | finish _ => exact absurd rfl (hpa _ _)
        | close _ _ => simp [Fanout.step, hp, hps]
        | exit _ _ => simp [Fanout.step, hp, hps]
  | returned result => exact absurd hp (hret result)

/-- A running attempt whose request has not left can send it while the context is live, if its URL parses. -/
theorem Inv.send {s₀ s : Fanout} {tr : List (Act × Event)} (h : Inv parses s₀ tr s) {r : Running}
    (hp : s.phase = .running r) {i : ℕ} {c : Client} (hbusy : i ∈ r.pool.busy)
    (hnew : i ∉ (requests tr).map Prod.fst) (hlive : r.expired = false) (hc : (attempts tr)[i]? = some c)
    (hparse : parses c.address = true) :
    ∃ s' q, s.step parses (.send i) = some (s', .request i c q) := by
  have hphase := h.phase
  rw [hp] at hphase
  have hgo := hphase.2.2
  have hlt := hgo.busy_lt hbusy
  obtain ⟨ptr, hsound, -⟩ := hgo.sound
  have hi : i < size s₀.directory.selfID r.snapshot := by
    have := hsound.next_le
    have := hsound.size_eq
    omega
  obtain ⟨m, c', -, hc', -⟩ := hgo.client hi
  obtain rfl : c' = c := Option.some.inj ((hgo.attempt_of_lt hlt hc').symm.trans hc)
  have hflag : r.sent[i]? = some false := by
    have hlen : i < r.sent.length := hi.trans_eq hgo.flags.symm
    have hget := List.getElem?_eq_getElem hlen
    cases hx : r.sent[i] with
    | false => rw [hget, hx]
    | true => exact absurd ((hgo.left i).mp (by rw [hget, hx])) hnew
  obtain ⟨q, hq, -⟩ := request_isSome c' s.group.name s.key s.version
  refine ⟨{ s with phase := .running { r with sent := r.sent.set i true } }, q, ?_⟩
  simp only [Fanout.step, hp, hc', hq]
  rw [if_pos ⟨hbusy, hflag, hlive, hparse⟩]
  rfl

/-- **Fan-out reports are exact under every schedule**, of the dispatcher, the workers, the requests, the deadline and
the membership updates.  A refused key or version calls no client, changes nothing and returns an error.  Otherwise,
while the fan-out runs, attempts have been made at the first of the other members of the one snapshot that was captured;
when it returns, the report is exact.  An attempt sends at most one request, with the group, the key and the version of
the call, and none after the context is done; until then it can, if its URL parses.  The directory changes by the
updates only.  While no attempt is running the call can go on until it returns, and each of its steps lowers what is
left to do. -/
theorem fanout_exact {d : Directory} {g : Group} (hg : g.WF) {key : GoString} {version : ℤ}
    (hv : version ≤ Go.maxInt64) {tr : List (Act × Event)} {s : Fanout}
    (hrun : Run (step parses) (start d g key version) tr s) :
    (¬ (ValidKey key ∧ 0 ≤ version) → attempts tr = [] ∧ requests tr = [] ∧ s.group = g ∧
      ∀ result, s.phase = .returned result → ∃ e, result = .error e) ∧
    s.directory = (updates tr).foldl (fun d input => (d.update input).2) d ∧
    (Sent g.name key version tr ∧ ∀ tr₁ o tr₂, tr = tr₁ ++ (.expire, o) :: tr₂ → requests tr₂ = []) ∧
    (∀ r, s.phase = .running r → Captured parses (start d g key version) tr r.snapshot ∧
      (attempts tr).map Client.address =
        ((Broadcast.others d.selfID r.snapshot).take r.pool.next).map Member.address ∧
      ∀ i c, i ∈ r.pool.busy → i ∉ (requests tr).map Prod.fst → r.expired = false → (attempts tr)[i]? = some c →
        parses c.address = true → ∃ s' q, s.step parses (.send i) = some (s', .request i c q)) ∧
    (ValidKey key ∧ 0 ≤ version → ∀ result, s.phase = .returned result → ∃ report snapshot, result = .ok report ∧
      Captured parses (start d g key version) tr snapshot ∧ Exact d.selfID version tr snapshot report) ∧
    ((∀ result, s.phase ≠ .returned result) → (∀ r, s.phase = .running r → r.pool.busy = []) →
      ∃ a, a.own = true ∧ (s.step parses a).isSome) ∧
    ∀ a s' o, s.step parses a = some (s', o) → (∀ input, a ≠ .update input) → s'.work < s.work := by
  have h := inv_run rfl hg hv hrun
  have hphase := h.phase
  refine ⟨fun hno => ?_, h.directory, ⟨hphase.sent, fun tr₁ o tr₂ htr => requests_after_expire (htr ▸ hrun)⟩,
    fun r hr => ?_, fun hok result hres => ?_, h.progress hv, fun a s' o => work_lt⟩
  · cases hp : s.phase with
    | called => rw [hp] at hphase; exact ⟨hphase.2.attempts, hphase.2.requests, hphase.1, by simp⟩
    | invalidated => rw [hp] at hphase; exact absurd hphase.1 hno
    | running r => rw [hp] at hphase; exact absurd hphase.1 hno
    | returned result =>
      rw [hp] at hphase
      cases result with
      | error e =>
        exact ⟨hphase.2.2.attempts, hphase.2.2.requests, hphase.2.1,
          fun r hr => ⟨e, (FanoutPhase.returned.inj hr).symm⟩⟩
      | ok report => exact absurd hphase.1 hno
  · have hsend := fun i c => h.send hr (i := i) (c := c)
    rw [hr] at hphase
    exact ⟨hphase.2.1, hphase.2.2.addresses, hsend⟩
  · rw [hres] at hphase
    cases result with
    | error e => exact absurd hok hphase.1
    | ok report =>
      obtain ⟨-, -, snapshot, hcap, hexact⟩ := hphase
      exact ⟨report, snapshot, rfl, hcap, hexact⟩

/-- A directory with one other member. -/
def pair : Directory :=
  ⟨[97], [116], ⟨1, [⟨[97], [120]⟩, ⟨[98], [121]⟩],
    fun id => if id = [97] then some ⟨[120], [116]⟩ else some ⟨[121], [116]⟩, by simp⟩, 2⟩

/-- One request, acknowledged with its version while the membership changes. -/
theorem fanout_exact_pair : ∃ tr s report snapshot, Run (step fun _ => true) (start pair Cache.smallGroup [107] 3) tr s ∧
    s.phase = .returned (.ok report) ∧ report.results = [⟨[97], .ok⟩, ⟨[98], .ok⟩] ∧ report.complete = true ∧
    (requests tr).map Prod.fst = [0] ∧ Sent Cache.smallGroup.name [107] 3 tr ∧ Exact [97] 3 tr snapshot report := by
  have h := Lib.exec_run (step fun _ => true)
    [.invalidate 0 0, .capture, .pool (.handoff 0), .update [], .send 0,
      .pool (.finish 0 (.ok ⟨204, [(invalidationVersionHeader, [51])], ""⟩)), .pool .close, .pool (.exit 0), .finish]
    (start pair Cache.smallGroup [107] 3) _ _ rfl
  have hwf := (Cache.wf_newGroup Cache.smallGroup_eq).1
  have hexact := fanout_exact hwf (by decide) h
  obtain ⟨report, snapshot, heq, -, hreport⟩ := hexact.2.2.2.2.1 ⟨by decide +kernel, by decide⟩ _ rfl
  obtain rfl := Except.ok.inj heq
  exact ⟨_, _, _, snapshot, h, rfl, rfl, rfl, rfl, hexact.2.2.1.1, hreport⟩

/-- The context is done before the request leaves: the member gets none, and the call returns. -/
theorem fanout_expired : ValidKey [107] ∧
    ∃ tr s report, Run (step fun _ => true) (start pair Cache.smallGroup [107] 3) tr s ∧
      s.phase = .returned (.ok report) ∧ (Broadcast.others [97] pair.state).map Member.address = [[121]] ∧
      (attempts tr).map Client.address = [[121]] ∧ requests tr = [] ∧
      report.results = [⟨[97], .ok⟩, ⟨[98], .timeout⟩] := by
  have h := Lib.exec_run (step fun _ => true)
    [.invalidate 0 0, .capture, .pool (.handoff 0), .expire, .pool (.finish 0 (.error .deadlineExceeded)), .pool .close,
      .pool (.exit 0), .finish]
    (start pair Cache.smallGroup [107] 3) _ _ rfl
  exact ⟨by decide +kernel, _, _, _, h, rfl, rfl, rfl, rfl, rfl⟩

end Fanout

end SimpleCache.Cluster
