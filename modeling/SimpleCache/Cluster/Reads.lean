import SimpleCache.Cluster.Delivery

/-!
# Cluster.Reads — Gets after an acknowledged mutation

A mutation is answered 200 when its report is complete, so that its version was processed at the node and at every
member of the captured snapshot.  From then on the engine of each of them gives later Gets that version or a newer
one.  If the version is a deletion and still the newest, there is no such value: no flight that began before the
commit answers such a Get, and a later one reads nothing.
-/

namespace SimpleCache.Cluster

open SimpleCache.Lib
open Cache (ValidKey)
open Cache.Engine (Act Moves Views honestStep)
open Postgres (Store generation)
open App (MutationCommand MutationOutcome MutationKind MutationResponse)

variable {ι : Type} [DecidableEq ι]

namespace System

variable {listener : GoString → Option ι} {selfID : ι → GoString} {s s' : System ι}

/-- `n'` is the node of the task `p`, or listens at the address of a member of the snapshot that `p` has captured. -/
def Involved (listener : GoString → Option ι) (selfID : ι → GoString) (tr : List (SystemEvent ι)) (p : ℕ) (n n' : ι) :
    Prop :=
  n' = n ∨ ∃ a snapshot m, (a, .captured p n snapshot) ∈ tr ∧ m ∈ snapshot.members ∧ m.id ≠ selfID n ∧
    listener m.address = some n'

/-- **Status 200** stands for a committed version that every involved node has processed. -/
theorem responded_ok {tr : List (SystemEvent ι)} {a : Action ι} {p : ℕ} {n n' : ι} {command : MutationCommand}
    {response : MutationResponse} {v : ℤ} (hI : Inv tr s) (hH : History listener selfID tr s)
    (hst : s.step listener a = some (s', .responded p n command 200 response))
    (hv : response.sourceVersion = some v) (hn : Involved listener selfID tr p n n') :
    Processed tr n' command.key v ∧ 0 < v ∧ v ≤ generation (s.store.db.products command.key) ∧
    (generation (s.store.db.products command.key) = v → ∃ m, command.call = some m ∧
      s.store.db.products command.key = some (m.row v)) := by
  obtain ⟨outcome, snap, ht, hstatus, rfl⟩ := (effects hst).responded _ _ _ _ _ rfl
  obtain ⟨-, report, hrep, hc⟩ := App.MutationOutcome.status_ok hstatus.symm
  have hok := hH.tasks p _ ht
  obtain ⟨snapshot, hsnap, hcov⟩ := hok.answered command outcome report rfl hrep hc
  simp only [Origin.key, Origin.version, MutationOutcome.version, hv, Option.getD_some] at hcov
  refine ⟨?_, (hI.tasks p _ ht).2 v hv⟩
  rcases hn with rfl | ⟨a', snapshot', m, hcap, hm, hid, hl⟩
  · exact hcov.own
  · obtain ⟨-, hsnap'⟩ := hok.captures a' n snapshot' hcap
    rw [hsnap, Option.some.injEq] at hsnap'
    subst hsnap'
    have hack := hcov.others m hm hid
    unfold Acked at hack
    rwa [hl] at hack

/-- What a node holds and what later Gets return after it has processed a committed version. -/
theorem processed_run {tr₁ tr₂ : List (SystemEvent ι)} {s₀ : System ι} {n : ι} {key : GoString} {v : ℤ}
    (hI : Inv [] s₀) (h : Run (step listener) s₀ (tr₁ ++ tr₂) s) (hp : Processed tr₁ n key v) (hv : 0 < v) :
    (∀ e, (s.nodes n).engine.group.mainCache.find? key = some e → v ≤ e.value.version) ∧
    ∀ c o a view, (.get c key, o) ∈ engineOf n tr₂ → (a, .returned c (.ok view)) ∈ engineOf n tr₂ →
      v ≤ view.version := by
  obtain ⟨now, now', applied, hmem⟩ := hp
  obtain ⟨q₁, q₂, hq⟩ := List.append_of_mem hmem
  have hrun := engine_run hI h n
  rw [engineOf_append, hq, List.append_assoc, List.cons_append] at hrun
  obtain ⟨e₀, e₁, h1, hst, h2⟩ := hrun.cut
  obtain ⟨⟨-, hcom⟩, hst⟩ := Cache.Engine.honestStep_eq hst
  have hrun₁ := Cache.Engine.honest_run h1
  obtain ⟨hres, hgets⟩ := Cache.Engine.notified_run (fun s a r hr => ⟨(Cache.Engine.honestStep_eq hr).2,
    (Cache.Engine.honestStep_eq hr).1.1⟩) (Cache.Engine.inv_run (hI.engine n) hrun₁)
    ((Cache.Engine.versioned_run (hI.engine n) hrun₁).trans (hI.versioned n)) hv hcom hst h2
  exact ⟨hres, fun c o a view hget hret =>
    hgets c o a view (List.mem_append_right _ hget) (List.mem_append_right _ hret)⟩

/-- A Get that starts after a node has processed a committed version. -/
theorem processed_reads {tr₁ tr₂ : List (SystemEvent ι)} {s₀ : System ι} {n : ι} {key : GoString} {v : ℤ}
    (hI : Inv [] s₀) (h : Run (step listener) s₀ (tr₁ ++ tr₂) s) (hp : Processed tr₁ n key v) (hv : 0 < v) {c : ℕ}
    {o : Cache.Engine.Ans} {a : Act} {view : Cache.ByteView} (hget : (.get c key, o) ∈ engineOf n tr₂)
    (hret : (a, .returned c (.ok view)) ∈ engineOf n tr₂) : v ≤ view.version :=
  (processed_run hI h hp hv).2 c o a view hget hret

/-! ### The commit of a deletion -/

theorem advances_run {tr : List (SystemEvent ι)} (h : Run (step listener) s tr s') : Advances s.store s'.store := by
  refine h.rel (R := fun s s' => Advances s.store s'.store) (fun _ _ => Or.inl rfl) (fun a b c h1 h2 key => ?_)
    fun _ _ _ _ hst => (effects hst).advances
  rcases h1 key with he | hlt
  · rw [← he]
    exact h2 key
  · exact Or.inr (hlt.trans_le (h2.le key))

/-- An accepted notification has a valid key. -/
theorem valid_of_processed {e e' : Cache.Engine} {key : GoString} {version now now' : ℤ} {applied : Bool}
    (hst : e.step (.invalidate key version now now') = some (e', .invalidated (.ok applied))) : ValidKey key := by
  by_contra hk
  obtain ⟨⟨err, herr⟩, -⟩ := Cache.Group.invalidate_refused (g := e.group)
    (fun hok : ValidKey key ∧ 0 ≤ version => hk hok.1) now now'
  simp only [Cache.Engine.step, Cache.Engine.act, Option.map_some, Option.some.injEq, Prod.mk.injEq,
    Cache.Engine.Ans.invalidated.injEq] at hst
  rw [herr] at hst
  simp at hst

/-- When a version is committed, what the engines hold is older, and none of them is notified of it. -/
theorem Inv.commit_old {tr : List (SystemEvent ι)} {a : Action ι} {o : Output ι} {key : GoString} {v : ℤ}
    (hI : Inv tr s) (hst : s.step listener a = some (s', o)) (hlt : ¬ v ≤ generation (s.store.db.products key))
    (hle : v ≤ generation (s'.store.db.products key)) (n : ι) :
    (∀ f fl, (s'.nodes n).engine.flights f = some fl → fl.key = key → fl.fence.minimum < v) ∧
    Views (fun k w => k = key → w < v) (s'.nodes n).engine ∧
    ∀ now now' ans, (.invalidate key v now now', ans) ∉ o.engine n := by
  have hchanged : s'.store.db.products ≠ s.store.db.products := by
    intro he
    rw [he] at hle
    exact hlt hle
  have hstore : s'.store ≠ s.store := fun he => hchanged (by rw [he])
  rcases hI.engine_step (effects hst) n with ⟨-, -, hprod⟩ | ⟨⟨act, ans⟩, ho, hst', -, hp⟩
  · exact absurd hprod hchanged
  · cases act with
    | commit k w =>
      have he := (Cache.Engine.honestStep_eq hst').2
      simp only [Cache.Engine.step, Cache.Engine.act, Option.map_some, Option.some.injEq, Prod.mk.injEq] at he
      rw [← he.1]
      have hB := hI.bounded n
      have hsmall : ∀ k w, w ≤ (s.nodes n).engine.committed k → k = key → w < v := by
        rintro k w hw rfl
        rw [hI.committed] at hw
        omega
      refine ⟨fun f fl hfl hkey => hsmall _ _ (hB.names f fl hfl) hkey,
        ⟨fun k e hf => hsmall _ _ (hB.views.resident k e hf),
          fun f fl _ _ view hfl hph => hsmall _ _ (hB.views.loaded f fl _ _ view hfl hph),
          fun f fl w hfl hph => hsmall _ _ (hB.views.returned f fl w hfl hph)⟩, ?_⟩
      rw [ho]
      simp
    | invalidate k w now now' => exact absurd hp.2.1 hstore
    | readSource f answer work work' work'' => exact absurd hp.2.1 hstore
    | _ => exact absurd hp.2 hstore

/-- The source has nothing for a deleted key. -/
theorem denies_deleted {a : Action ι} {n : ι} {act : Act} {key : GoString} {row : Postgres.Product} {F : Err → Prop}
    (hp : s.Permits a s' n act) (hk : ValidKey key) (hrow : s.store.db.products key = some row)
    (hdel : row.deleted = true) (hF : F .notFound) (hfault : ∀ e ∈ a.faults n, F e) :
    (s.nodes n).engine.Denies key F act := by
  refine ⟨fun e he => hfault e (hp.1 e he), ?_⟩
  rintro f answer work work' work'' fl rfl hfl hkey
  obtain ⟨-, -, fl', hfl', hans⟩ := hp
  rw [hfl, Option.some.injEq] at hfl'
  subst hfl'
  rcases hans with ⟨e, he, hans⟩ | hans
  · exact ⟨e, hans, hfault e he⟩
  · refine ⟨.notFound, ?_, hF⟩
    rw [hans, hkey, Postgres.Db.getVersioned, if_pos hk, hrow]
    simp [hdel]

theorem committed_le_run {e e' : Cache.Engine} {q : List Cache.Engine.Event} (hI : e.Inv)
    (h : Run honestStep e q e') (key : GoString) : e.committed key ≤ e'.committed key := by
  refine (h.inv (I := fun e' => e'.Inv ∧ e.committed key ≤ e'.committed key) ⟨hI, le_rfl⟩
    fun e₁ a o e₂ ⟨h1, h2⟩ hst => ?_).2
  have hm := Cache.Engine.moves h1.wf h1.fresh (Cache.Engine.honestStep_eq hst).2
  exact ⟨h1.step hm, h2.trans (hm.committed key)⟩

/-- A node is notified of a version only after its commit. -/
theorem not_processed_before {tr : List (SystemEvent ι)} {s₀ : System ι} {n : ι} {key : GoString} {v : ℤ}
    (hI : Inv [] s₀) (h : Run (step listener) s₀ tr s) (hlt : ¬ v ≤ generation (s.store.db.products key))
    (now now' : ℤ) (ans : Cache.Engine.Ans) : (.invalidate key v now now', ans) ∉ engineOf n tr := by
  intro hmem
  obtain ⟨q₁, q₂, hq⟩ := List.append_of_mem hmem
  have hrun := engine_run hI h n
  rw [hq] at hrun
  obtain ⟨e₀, e₁, h1, hst, h2⟩ := hrun.cut
  have hI₀ := Cache.Engine.inv_run (hI.engine n) (Cache.Engine.honest_run h1)
  have hcom : v ≤ e₀.committed key := (Cache.Engine.honestStep_eq hst).1.2
  have hle := committed_le_run hI₀ ((Run.single hst).append h2) key
  rw [(inv_run hI h).committed] at hle
  exact hlt (hcom.trans hle)

/-- What a Get at a node can fail with, in a history: not found, no room for another waiter, or an error that its
surroundings have brought in at that node. -/
def Failure (tr : List (SystemEvent ι)) (n : ι) (e : Err) : Prop :=
  e = .notFound ∨ e = .overloaded ∨ ∃ ev ∈ tr, e ∈ ev.1.faults n

/-- The engine of a node while the key is deleted. -/
theorem deleted_run {tr₀ tr : List (SystemEvent ι)} (all : List (SystemEvent ι)) {sc : System ι} {n : ι} {key : GoString} {v : ℤ}
    {row : Postgres.Product} {stp : Cache.Engine → Act → Option (Cache.Engine × Cache.Engine.Ans)}
    (hstp : ∀ e act, e.Honest act → e.Denies key (Failure all n) act → stp e act = e.step act) (hI : Inv tr₀ sc)
    (h : Run (step listener) sc tr s) (hall : tr ⊆ all) (hk : ValidKey key) (hrow : sc.store.db.products key = some row)
    (hdel : row.deleted = true) (hgen : generation (sc.store.db.products key) = v)
    (hend : generation (s.store.db.products key) = v) :
    Run stp (sc.nodes n).engine (engineOf n tr) (s.nodes n).engine := by
  refine h.project (f := fun s => (s.nodes n).engine) fun tr₁ s₁ a o s₂ tr₂ heq h₁ hst h₂ => ?_
  have hI₁ := inv_run hI h₁
  -- the generation has not moved, so neither has the row
  have hrow₁ : s₁.store.db.products key = some row := by
    rcases advances_run h₁ key with he | hlt
    · exact he.trans hrow
    · have hle := (advances_run ((Run.single hst).append h₂)).le key
      omega
  rcases hI₁.engine_step (effects hst) n with ⟨he, ho, -⟩ | ⟨e, ho, hst', -, hp⟩
  · exact Or.inl ⟨he, ho⟩
  · obtain ⟨hhon, hst''⟩ := Cache.Engine.honestStep_eq hst'
    refine Or.inr ⟨e, ho, (hstp _ _ hhon (denies_deleted hp hk hrow₁ hdel (Or.inl rfl) fun err herr => ?_)).trans hst''⟩
    exact Or.inr (Or.inr ⟨(a, o), hall (by rw [heq]; simp), herr⟩)

/-- **A Get that starts after a node has processed a deletion** that is still the newest version. -/
theorem deleted_reads {tr₁ tr₂ : List (SystemEvent ι)} {s₀ s₁ : System ι} {n : ι} {key : GoString} {v : ℤ}
    {row : Postgres.Product} (hI : Inv [] s₀) (h₁ : Run (step listener) s₀ tr₁ s₁) (h₂ : Run (step listener) s₁ tr₂ s)
    (hp : Processed tr₁ n key v) (hv : 0 < v) (h0 : ¬ v ≤ generation (s₀.store.db.products key))
    (hgen : generation (s₁.store.db.products key) = v) (hrow : s₁.store.db.products key = some row)
    (hdel : row.deleted = true) (hend : generation (s.store.db.products key) = v) {c : ℕ} {o : Cache.Engine.Ans}
    {a : Act} {r : Except Err Cache.ByteView} (hget : (.get c key, o) ∈ engineOf n tr₂)
    (hret : (a, .returned c r) ∈ engineOf n tr₂) : ∃ e, r = .error e ∧ Failure (tr₁ ++ tr₂) n e := by
  classical
  -- the step that commits the version
  obtain ⟨tra, sa, b, o', sc, trb, rfl, ha, hst, hb, hlt, hle⟩ :=
    h₁.crossing (P := fun s => v ≤ generation (s.store.db.products key)) h0 hgen.ge
  have hIa : Inv tra sa := inv_run hI ha
  have hIc := hIa.step (effects hst)
  obtain ⟨hold, hviews, hno⟩ := hIa.commit_old hst hlt hle n
  -- the notification comes after it
  obtain ⟨now, now', applied, hmem⟩ := hp
  have hmemb : (.invalidate key v now now', .invalidated (.ok applied)) ∈ engineOf n trb := by
    rw [engineOf_append, engineOf_cons] at hmem
    rcases List.mem_append.mp hmem with hmem | hmem
    · exact absurd hmem (not_processed_before hI ha hlt _ _ _)
    · rcases List.mem_append.mp hmem with hmem | hmem
      · exact absurd hmem (hno _ _ _)
      · exact hmem
  obtain ⟨q₁, q₂, hq⟩ := List.append_of_mem hmemb
  have hgenc : generation (sc.store.db.products key) = v := by
    have := (advances_run hb).le key
    omega
  have hrowc : sc.store.db.products key = some row := by
    rcases advances_run hb key with he | hlt'
    · exact he.symm.trans hrow
    · omega
  let all := tra ++ (b, o') :: trb ++ tr₂
  let stp := fun (e : Cache.Engine) act => if e.Honest act ∧ e.Denies key (Failure all n) act then e.step act else none
  have hstp : ∀ e act r, stp e act = some r → e.Honest act ∧ e.Denies key (Failure all n) act ∧ e.step act = some r := by
    intro e act r hr
    simp only [stp] at hr
    split_ifs at hr with hc
    exact ⟨hc.1, hc.2, hr⟩
  have hk : ValidKey key := by
    have hrun := engine_run hIc hb n
    rw [hq] at hrun
    obtain ⟨e₀, e₁, -, hst', -⟩ := hrun.cut
    exact valid_of_processed (Cache.Engine.honestStep_eq hst').2
  have hrun : Run stp (sc.nodes n).engine (engineOf n (trb ++ tr₂)) (s.nodes n).engine :=
    deleted_run all (fun e act h1 h2 => if_pos ⟨h1, h2⟩) hIc (hb.append h₂) (fun x hx => by
      simp only [all, List.append_assoc, List.cons_append, List.mem_append, List.mem_cons] at hx ⊢
      exact Or.inr (Or.inr hx)) hk hrowc hdel hgenc hend
  rw [engineOf_append, hq, List.append_assoc, List.cons_append] at hrun
  obtain ⟨e₀, e₁, hr₁, hst', hr₂⟩ := hrun.cut
  exact Cache.Engine.absent_run (Or.inl rfl) (Or.inr (Or.inl rfl)) hk hv
    (fun e act r hr => ⟨(hstp e act r hr).2.2, (hstp e act r hr).1.1, (hstp e act r hr).2.1⟩) (hIc.engine n)
    (hIc.versioned n) hold hviews hr₁ (hstp _ _ _ hst').1.2 hst' hr₂ c o a r (List.mem_append_right _ hget)
    (List.mem_append_right _ hret)

/-- **Reads after an acknowledged write.**  In every run of the system, whenever a mutation is answered 200 with
committed version `v`, every Get of its key that starts afterwards, at the initiating node or at a member of the
snapshot that the mutation captured, and returns a value returns one of version at least `v`.  If `v` is a deletion and
nothing was committed later, it returns no value at all, but not found (unless no waiter is admitted or its
surroundings fail). -/
theorem reads_after_write {clock : ℤ} {groups : ι → Cache.Group} {token : ι → GoString} (hg : Groups groups)
    {tr₁ tr₂ : List (SystemEvent ι)} {b : Action ι} {p : ℕ} {n n' : ι} {command : MutationCommand}
    {response : MutationResponse} {v : ℤ}
    (h : Run (step listener) (init clock groups selfID token)
      (tr₁ ++ (b, .responded p n command 200 response) :: tr₂) s)
    (hv : response.sourceVersion = some v) (hn : Involved listener selfID tr₁ p n n') :
    (∀ c o a view, (.get c command.key, o) ∈ engineOf n' tr₂ → (a, .returned c (.ok view)) ∈ engineOf n' tr₂ →
      v ≤ view.version) ∧
    (command.kind = .delete → generation (s.store.db.products command.key) = v →
      ∀ c o a r, (.get c command.key, o) ∈ engineOf n' tr₂ → (a, .returned c r) ∈ engineOf n' tr₂ →
        ∃ e, r = .error e ∧ (e = .notFound ∨ e = .overloaded ∨
          ∃ ev ∈ tr₁ ++ (b, .responded p n command 200 response) :: tr₂, e ∈ ev.1.faults n')) := by
  obtain ⟨s₁, s₂, h₁, hst, h₂⟩ := h.cut
  obtain ⟨hI, hH⟩ := history_run hg h₁
  obtain ⟨hp, hpos, hle, hrow⟩ := responded_ok hI hH hst hv hn
  have hI₀ : Inv [] (init clock groups selfID token) := inv_init hg
  have hquiet : engineOf n' ((b, .responded p n command 200 response) :: tr₂) = engineOf n' tr₂ := rfl
  refine ⟨fun c o a view hget hret => ?_, fun hkind hend c o a r hget hret => ?_⟩
  · rw [← hquiet] at hget hret
    exact processed_reads hI₀ h hp hpos hget hret
  · have hgen : generation (s₁.store.db.products command.key) = v := by
      have := (advances_run ((Run.single hst).append h₂)).le command.key
      omega
    obtain ⟨m, hm, hrow⟩ := hrow hgen
    have hdel : (m.row v).deleted = true := by
      unfold MutationCommand.call at hm
      rw [hkind] at hm
      rw [← Option.some.inj hm]
      rfl
    rw [← hquiet] at hget hret
    exact deleted_reads hI₀ h₁ ((Run.single hst).append h₂) hp hpos (by show ¬ v ≤ 0; omega) hgen hrow hdel hend
      hget hret

/-- A Get at the second node, up to the answer of the source. -/
def reading (c f : ℕ) : List (Action Bool) :=
  [.node true (.get c [107]), .node true (.lookup c none 0), .node true (.admitWaiter c), .node true (.barrier c 0),
   .node true (.join c), .node true (.flightLookup f none 0), .node true (.callSource f none none),
   .select true f none none none none]

/-- A PUT at the first node and a Get at the second, then a DELETE and another Get. -/
def acknowledged : List (Action Bool) :=
  [.update false members, .begin 0 false ⟨.put, [107], [118], 0, 0⟩, .write 0 calm false] ++ notifying 0 0 1 ++
    .respond 0 :: reading 0 0 ++
    [.node true (.fill 0 0 0 0 none), .node true (.deliver 0), .node true (.await 0 none),
     .begin 1 false ⟨.delete, [107], [], 1, 0⟩, .write 1 calm false] ++ notifying 1 2 2 ++
    .respond 1 :: reading 1 1 ++ [.node true (.deliver 1), .node true (.await 1 none)]

theorem acknowledged_isSome : (exec (step listening) twoNodes acknowledged).isSome = true := (rfl)

def acknowledgedTrace : List (SystemEvent Bool) :=
  acknowledged.zip ((exec (step listening) twoNodes acknowledged).get acknowledged_isSome).2

/-- The trace around one of its events. -/
theorem split_at {α : Type} {l : List α} {i : ℕ} {x : α} (h : l[i]? = some x) :
    l = l.take i ++ x :: l.drop (i + 1) := by
  obtain ⟨hi, rfl⟩ := List.getElem?_eq_some_iff.mp h
  simp

/-- The trace between the two responses, and after the second. -/
def afterPut : List (SystemEvent Bool) := (acknowledgedTrace.drop 13).take 22

def afterDelete : List (SystemEvent Bool) := acknowledgedTrace.drop 36

def acknowledgement (version : ℤ) : MutationResponse :=
  ⟨some true, some version, some ⟨3, version, "known_members_snapshot", true,
    [⟨[97], .ok⟩, ⟨[98], .ok⟩, ⟨[99], .ok⟩]⟩, ""⟩

theorem acknowledged_put : acknowledgedTrace[12]? =
    some (.respond 0, .responded 0 false ⟨.put, [107], [118], 0, 0⟩ 200 (acknowledgement 1)) := (rfl)

theorem acknowledged_delete : (acknowledgedTrace.drop 13)[22]? =
    some (.respond 1, .responded 1 false ⟨.delete, [107], [], 1, 0⟩ 200 (acknowledgement 2)) := (rfl)

theorem afterPut_gets : (.get 0 [107], .quiet) ∈ engineOf true afterPut ∧
    (.await 0 none, .returned 0 (.ok ⟨[118], some 60000000000, 1, 8⟩)) ∈ engineOf true afterPut :=
  ⟨List.mem_of_getElem? (i := 0) rfl, List.mem_of_getElem? (i := 10) rfl⟩

theorem afterDelete_gets : (.get 1 [107], .quiet) ∈ engineOf true afterDelete ∧
    (.await 1 none, .returned 1 (.error .notFound)) ∈ engineOf true afterDelete :=
  ⟨List.mem_of_getElem? (i := 0) rfl, List.mem_of_getElem? (i := 9) rfl⟩

theorem involved_member {tr : List (SystemEvent Bool)} {p : ℕ} {a : Action Bool} {snapshot : Snapshot}
    (h : (a, .captured p false snapshot) ∈ tr) (hm : snapshot.members = members) :
    Involved listening (fun n => if n then [98] else [97]) tr p false true :=
  Or.inr ⟨a, snapshot, ⟨[98], [98, 58, 49]⟩, h, by rw [hm]; decide, by decide, rfl⟩

theorem put_captured : ∃ snapshot, (.capture 0, .captured 0 false snapshot) ∈ acknowledgedTrace.take 12 ∧
    snapshot.members = members := ⟨_, List.mem_of_getElem? (i := 4) rfl, rfl⟩

theorem delete_captured : ∃ snapshot, (.capture 1, .captured 1 false snapshot) ∈ afterPut ∧
    snapshot.members = members := ⟨_, List.mem_of_getElem? (i := 14) rfl, rfl⟩

theorem acknowledged_generation :
    generation (((exec (step listening) twoNodes acknowledged).get acknowledged_isSome).1.store.db.products [107]) = 2 :=
  (rfl)

/-- After the PUT the second node returns version 1, and after the DELETE it returns not found. -/
theorem reads_after_write_acknowledged : ∃ tr s view r,
    Run (step listening) twoNodes
      (tr ++ (.respond 0, .responded 0 false ⟨.put, [107], [118], 0, 0⟩ 200 (acknowledgement 1)) ::
        (afterPut ++ (.respond 1, .responded 1 false ⟨.delete, [107], [], 1, 0⟩ 200 (acknowledgement 2)) ::
          afterDelete)) s ∧
    (.await 0 none, .returned 0 (.ok view)) ∈ engineOf true afterPut ∧ 1 ≤ view.version ∧
    (.await 1 none, .returned 1 r) ∈ engineOf true afterDelete ∧ ∃ e, r = .error e := by
  have hrun := exec_get acknowledged_isSome
  change Run _ _ acknowledgedTrace _ at hrun
  rw [split_at acknowledged_put, split_at acknowledged_delete] at hrun
  have hafter : (acknowledgedTrace.drop 13).drop 23 = afterDelete := List.drop_drop
  rw [hafter] at hrun
  obtain ⟨snapshot, hcap, hm⟩ := put_captured
  obtain ⟨snapshot', hcap', hm'⟩ := delete_captured
  have hput := (reads_after_write (v := 1) groups_twoNodes hrun rfl (involved_member hcap hm)).1 0 .quiet
    (.await 0 none) _ (by rw [engineOf_append]; exact List.mem_append_left _ afterPut_gets.1)
    (by rw [engineOf_append]; exact List.mem_append_left _ afterPut_gets.2)
  have hrun' := hrun
  rw [← List.cons_append, ← List.append_assoc] at hrun'
  obtain ⟨e, he, -⟩ := (reads_after_write (v := 2) groups_twoNodes hrun' rfl (involved_member
    (List.mem_append_right _ (List.mem_cons_of_mem _ hcap')) hm')).2 rfl acknowledged_generation 1 .quiet
    (.await 1 none) _ afterDelete_gets.1 afterDelete_gets.2
  exact ⟨_, _, _, _, hrun, afterPut_gets.2, hput, afterDelete_gets.2, e, he⟩

end System

end SimpleCache.Cluster
