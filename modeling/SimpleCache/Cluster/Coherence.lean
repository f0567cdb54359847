import SimpleCache.Cluster.Contents

/-!
# Cluster.Coherence — a drained outbox means coherent caches

Every committed version of a key either waits in the outbox or was processed everywhere in a snapshot that a relay has
captured (`settled_run`): a claim and a failed finish keep the event waiting, a purge takes only delivered events, and an
event becomes delivered only by a relay that has covered its snapshot.  When nothing waits for a key, the newest version
was processed, so what the notified nodes hold is not older than the row, not newer either, and therefore the row itself
(`drained_coherent`).
-/

namespace SimpleCache.Postgres

open SimpleCache.Lib
open Outbox (Event)

/-! ### Events that wait -/

/-- An event for version `v` of the key waits in the outbox. -/
def Store.Pending (s : Store) (key : GoString) (v : ℤ) : Prop :=
  ∃ r ∈ s.db.outbox, r.key = key ∧ r.version = v ∧ r.deliveredAt = none

/-- An event that waits goes on waiting, unless a delivery of it is accepted. -/
theorem Effect.pending {db db' : Db} {e : StoreEvent} (hk : Keyed db) (h : Effect db e db') {r : OutboxRow}
    (hr : r ∈ db.outbox) (hd : r.deliveredAt = none) :
    (∃ r' ∈ db'.outbox, r'.key = r.key ∧ r'.version = r.version ∧ r'.deliveredAt = none) ∨
    ∃ event, completionOf e = some (event, true) ∧ event.id = r.id := by
  rcases h.row_forth hk hr with ⟨r', hr', hst⟩ | ⟨retention, hp⟩
  · obtain ⟨-, hkey, hver⟩ := hst.id_eq
    cases hst with
    | same he _ _ => exact Or.inl ⟨r', hr', hkey, hver, by rw [he]; exact hd⟩
    | lease d _ _ _ _ _ he => exact Or.inl ⟨r', hr', hkey, hver, by rw [he]; exact hd⟩
    | complete event delivered retry ha _ _ _ hc he =>
      cases delivered with
      | false => exact Or.inl ⟨r', hr', hkey, hver, by rw [he]; rfl⟩
      | true => exact Or.inr ⟨event, hc, (accepts_iff.mp ha).1.symm⟩
  · -- only delivered rows are purged
    obtain ⟨t, ht, -⟩ := purgeable_iff.mp hp
    rw [hd] at ht
    simp at ht

/-- A new version starts with an event that waits. -/
theorem Store.pending_new {s s' : Store} {a : Call × Exec} {o : Answer} (h : s.step a = some (s', o)) {key : GoString}
    {v : ℤ} (hlt : ¬ v ≤ generation (s.db.products key)) (hle : v ≤ generation (s'.db.products key)) :
    s'.Pending key v := by
  rcases Store.step_products h with ⟨m, _, -, -, hdb, -⟩ | ⟨hprod, -⟩
  · have hver : ∀ v, (m.row v).version = v := fun v => by cases m <;> rfl
    rw [hdb, commit_generation] at hle
    split_ifs at hle with hkey
    · rw [hkey] at hlt
      refine ⟨⟨s.db.nextId, m.key, generation (s.db.products m.key) + 1, a.2.now, none, 0, none⟩, ?_, hkey.symm, ?_,
        rfl⟩
      · rw [hdb]
        refine List.mem_append_right _ ?_
        rw [hver]
        exact List.mem_singleton_self _
      · simp only
        omega
    · exact absurd hle hlt
  · rw [hprod] at hle
    exact absurd hle hlt

end SimpleCache.Postgres

namespace SimpleCache.Cluster

open SimpleCache.Lib
open Cache.Engine (Act)
open Postgres (Store Product generation completionOf)

namespace System

variable {ι : Type} [DecidableEq ι]

/-! ### Versions that were delivered -/

/-- `n'` is the node itself or listens at the address of another member of the snapshot. -/
def Reached (listener : GoString → Option ι) (id : GoString) (snapshot : Snapshot) (n n' : ι) : Prop :=
  n' = n ∨ ∃ m ∈ snapshot.members, m.id ≠ id ∧ listener m.address = some n'

theorem processed_of_reached {listener : GoString → Option ι} {tr : List (SystemEvent ι)} {n n' : ι} {id key : GoString}
    {snapshot : Snapshot} {v : ℤ} (h : Covered listener tr n id snapshot key v)
    (hn : Reached listener id snapshot n n') : Processed tr n' key v := by
  rcases hn with rfl | ⟨m, hm, hid, hl⟩
  · exact h.own
  · have hack := h.others m hm hid
    unfold Acked at hack
    rwa [hl] at hack

/-- The accepted finish of a delivered event by the worker `p`. -/
def finishEvent (a : Action ι) (p : ℕ) (event : Outbox.Event) (retry : ℤ) (x : Postgres.Exec)
    (commit : Option (GoString × ℤ)) : SystemEvent ι :=
  (a, .store ((.finish p event true retry, x), .finished (.ok true)) commit)

/-- An event for version `v` of the key was marked delivered by the worker `p` of `n` at the end of `tr₁`, after it was
processed everywhere in the snapshot that `p` had captured. -/
structure DeliveredAt (listener : GoString → Option ι) (selfID : ι → GoString) (tr₁ tr₂ : List (SystemEvent ι))
    (p : ℕ) (n : ι) (snapshot : Snapshot) (key : GoString) (v : ℤ) : Prop where
  finish : ∃ a event retry x commit q, tr₂ = finishEvent a p event retry x commit :: q ∧ event.key = key ∧
    event.version = v
  captured : (.capture p, .captured p n snapshot) ∈ tr₁
  nonempty : snapshot.members ≠ []
  covered : Covered listener tr₁ n (selfID n) snapshot key v

/-- An event for version `v` of the key was marked delivered. -/
def Delivered (listener : GoString → Option ι) (selfID : ι → GoString) (tr : List (SystemEvent ι)) (key : GoString)
    (v : ℤ) : Prop :=
  ∃ tr₁ tr₂ p n snapshot, tr = tr₁ ++ tr₂ ∧ DeliveredAt listener selfID tr₁ tr₂ p n snapshot key v

section Settled

variable {listener : GoString → Option ι} {selfID : ι → GoString} {tr : List (SystemEvent ι)} {s s' : System ι}
  {a : Action ι} {o : Output ι} {key : GoString} {v : ℤ}

theorem Delivered.mono (h : Delivered listener selfID tr key v) (tr' : List (SystemEvent ι)) :
    Delivered listener selfID (tr ++ tr') key v := by
  obtain ⟨tr₁, tr₂, p, n, snapshot, rfl, hd⟩ := h
  obtain ⟨a, event, retry, x, commit, q, rfl, hev⟩ := hd.finish
  exact ⟨tr₁, _, p, n, snapshot, List.append_assoc _ _ _, ⟨a, event, retry, x, commit, q ++ tr', rfl, hev⟩,
    hd.captured, hd.nonempty, hd.covered⟩

/-- An accepted delivery comes from a relay that has covered its snapshot, with the event of the row. -/
theorem delivered_of_finish (hI : Inv tr s) (hH : History listener selfID tr s)
    (hst : s.step listener a = some (s', o)) {e : Postgres.StoreEvent} (he : o.stored = [e]) {event : Outbox.Event}
    (hc : completionOf e = some (event, true)) {r : Postgres.OutboxRow} (hr : r ∈ s.store.db.outbox)
    (hid : event.id = r.id) : Delivered listener selfID (tr ++ [(a, o)]) r.key r.version := by
  obtain ⟨p, retry, x, rfl⟩ := completionOf_eq hc
  obtain ⟨commit, rfl⟩ : ∃ commit, o = .store ((.finish p event true retry, x), .finished (.ok true)) commit := by
    cases o with
    | store e' commit => exact ⟨commit, by rw [List.singleton_inj.mp he]⟩
    | _ => simp [Output.stored] at he
  obtain ⟨n, snap, ht⟩ := (effects hst).finished p event true retry x _ commit rfl
  have hok := hH.tasks p _ ht
  obtain ⟨snapshot, hsnap, hne, hcov⟩ := hok.stage rfl
  have hcap := hok.captured snapshot hsnap
  obtain ⟨tr₁, tr₂, x', rfl, -⟩ := hok.claimed event rfl
  -- the row is the one that was claimed
  have hclaim : ((.claim p Outbox.leaseDuration false, x'), .claimed (.ok (some event))) ∈
      stored (tr₁ ++ claimEvent p n x' event :: tr₂) :=
    List.mem_flatMap.mpr ⟨claimEvent p n x' event, by simp, List.mem_singleton_self _⟩
  obtain ⟨-, -, -, hrow⟩ := hI.events.claimed _ hclaim event rfl
  obtain ⟨hkey, hver⟩ := hrow r hr hid.symm
  rw [hkey, hver]
  exact ⟨_, _, p, n, snapshot, rfl, ⟨a, event, retry, x, commit, [], rfl, rfl, rfl⟩, hcap, hne, hcov⟩

/-- **No version is forgotten.**  Every committed version of a key waits in the outbox or was delivered. -/
theorem settled_run {clock : ℤ} {groups : ι → Cache.Group} {token : ι → GoString} (hg : Groups groups)
    (h : Run (System.step listener) (init clock groups selfID token) tr s) : ∀ key v, 0 < v →
      v ≤ generation (s.store.db.products key) → s.store.Pending key v ∨ Delivered listener selfID tr key v := by
  refine h.rec_inv (I := fun tr s => ∀ key v, 0 < v → v ≤ generation (s.store.db.products key) →
    s.store.Pending key v ∨ Delivered listener selfID tr key v) (fun key v h0 hv => ?_) ?_
  · have : v ≤ 0 := hv
    omega
  intro tr s a o s' hr ih hst key v h0 hv
  obtain ⟨hI, hH⟩ := history_run hg hr
  rcases (effects hst).store with ⟨hs, -⟩ | ⟨e, he, hstore⟩
  · rw [hs] at hv ⊢
    exact (ih key v h0 hv).imp_right fun hn => hn.mono _
  by_cases hold : v ≤ generation (s.store.db.products key)
  · rcases ih key v h0 hold with ⟨r, hr', rfl, rfl, hd⟩ | hn
    · obtain ⟨-, -, -, hE⟩ := Store.step_effect hI.events.keyed hstore
      rcases hE.pending hI.events.keyed hr' hd with hp | ⟨event, hc, hid⟩
      · exact Or.inl hp
      · exact Or.inr (delivered_of_finish hI hH hst he hc hr' hid)
    · exact Or.inr (hn.mono _)
  · exact Or.inl (Store.pending_new hstore hold hv)

end Settled

/-- A row of a reachable store has a positive version. -/
theorem version_pos {listener : GoString → Option ι} {clock : ℤ} {groups : ι → Cache.Group} {selfID token : ι → GoString}
    (hg : Groups groups) {tr : List (SystemEvent ι)} {s : System ι}
    (h : Run (System.step listener) (init clock groups selfID token) tr s) {key : GoString} {row : Product}
    (hrow : s.store.db.products key = some row) : 0 < row.version := by
  obtain ⟨m, ⟨tr₁, e, tr₂, -, s₁, s₂, hr, -, hc⟩, -⟩ := Held.written (by rfl) (held_now h hrow)
  have hnonneg := (history_run hg hr).1.events.nonneg m.key
  have := hc.before
  omega

/-- A node that has processed the newest version of a key holds nothing else, and later Gets return nothing else. -/
theorem newest_only {listener : GoString → Option ι} {clock : ℤ} {groups : ι → Cache.Group} {selfID token : ι → GoString}
    (hg : Groups groups) {tr₁ tr₂ : List (SystemEvent ι)} {s : System ι}
    (h : Run (System.step listener) (init clock groups selfID token) (tr₁ ++ tr₂) s) {key : GoString} {row : Product}
    (hrow : s.store.db.products key = some row) {n : ι} (hp : Processed tr₁ n key row.version) :
    (∀ e, (s.nodes n).engine.group.mainCache.find? key = some e → row = ⟨e.value.b, e.value.version, false⟩) ∧
    ∀ c o a view, (.get c key, o) ∈ engineOf n tr₂ → (a, .returned c (.ok view)) ∈ engineOf n tr₂ →
      row = ⟨view.b, view.version, false⟩ := by
  have hpos := version_pos hg h hrow
  obtain ⟨hres, hgets⟩ := processed_run (inv_init hg) h hp hpos
  have hT := traced_run hg h
  have hI := (history_run hg h).1
  have hnow := held_now h hrow
  refine ⟨fun e he => ?_, fun c o a view hget hret => ?_⟩
  · -- not newer than the row, and not older since it was processed
    have hle := (hI.bounded n).views.resident key e he
    rw [hI.committed, hrow] at hle
    have hge := hres e he
    exact hnow.unique ((hT.contents n).resident key e he) (le_antisymm hge hle)
  · have hread := hT.get (by rw [engineOf_append]; exact List.mem_append_right _ hget)
      (by rw [engineOf_append]; exact List.mem_append_right _ hret)
    have hge := hgets c o a view hget hret
    exact hnow.unique hread (le_antisymm hge (Held.version_le hread h hrow))

/-- **A drained outbox means coherent caches.**  In every reachable state, whatever was lost, repeated, purged or
crashed before: if no event of a key that has a row waits in the outbox, then the event of its newest version was marked
delivered by a worker that had captured a nonempty snapshot.  The worker's node and every node at the address of another
member of the snapshot now hold of the key only the row that the database has, nothing if the row is deleted, and a Get
that started at one of them after the event was marked has returned no other value. -/
theorem drained_coherent {listener : GoString → Option ι} {clock : ℤ} {groups : ι → Cache.Group}
    {selfID token : ι → GoString} (hg : Groups groups) {tr : List (SystemEvent ι)} {s : System ι}
    (h : Run (System.step listener) (init clock groups selfID token) tr s) {key : GoString} {row : Product}
    (hrow : s.store.db.products key = some row)
    (hd : ∀ r ∈ s.store.db.outbox, r.key = key → r.deliveredAt ≠ none) :
    ∃ tr₁ tr₂ p n snapshot, tr = tr₁ ++ tr₂ ∧ DeliveredAt listener selfID tr₁ tr₂ p n snapshot key row.version ∧
      ∀ n', Reached listener (selfID n) snapshot n n' →
        (∀ e, (s.nodes n').engine.group.mainCache.find? key = some e → row = ⟨e.value.b, e.value.version, false⟩) ∧
        (row.deleted = true → (s.nodes n').engine.group.mainCache.find? key = none) ∧
        ∀ c o a view, (.get c key, o) ∈ engineOf n' tr₂ → (a, .returned c (.ok view)) ∈ engineOf n' tr₂ →
          row = ⟨view.b, view.version, false⟩ := by
  have hgen : row.version ≤ generation (s.store.db.products key) := by rw [hrow]; exact le_rfl
  rcases settled_run hg h key row.version (version_pos hg h hrow) hgen with
    ⟨r, hr, hk, -, hnone⟩ | ⟨tr₁, tr₂, p, n, snapshot, rfl, hdel⟩
  · exact absurd hnone (hd r hr hk)
  · refine ⟨tr₁, tr₂, p, n, snapshot, rfl, hdel, fun n' hn' => ?_⟩
    obtain ⟨hres, hgets⟩ := newest_only hg h hrow (processed_of_reached hdel.covered hn')
    refine ⟨hres, fun hdead => ?_, hgets⟩
    cases hf : (s.nodes n').engine.group.mainCache.find? key with
    | none => rfl
    | some e =>
      rw [hres e hf] at hdead
      simp at hdead

/-- An event is relayed to the second node, which then loads the key. -/
def relayedRead : List (Action Bool) :=
  relayed ++ reading 0 0 ++ [.node true (.fill 0 0 0 0 none), .node true (.deliver 0), .node true (.await 0 none)]

theorem relayedRead_isSome : (exec (step listening) twoNodes relayedRead).isSome = true := rfl

theorem relayedRead_store : ((exec (step listening) twoNodes relayedRead).get relayedRead_isSome).1.store.db.products
    [107] = some ⟨[118], 1, false⟩ ∧
    ((exec (step listening) twoNodes relayedRead).get relayedRead_isSome).1.store.db.outbox =
      [⟨1, [107], 1, 0, none, 1, some 0⟩] := ⟨rfl, rfl⟩

/-- The outbox is drained, and the relaying node holds nothing but the row. -/
theorem drained_coherent_relayed : ∃ tr s, Run (step listening) twoNodes tr s ∧
    (∀ r ∈ s.store.db.outbox, r.deliveredAt ≠ none) ∧ ∃ tr₁ tr₂ p n snapshot,
      tr = tr₁ ++ tr₂ ∧ (.capture p, .captured p n snapshot) ∈ tr₁ ∧
      ∀ e, (s.nodes n).engine.group.mainCache.find? [107] = some e → e.value.b = [118] := by
  have hrun := exec_get relayedRead_isSome
  obtain ⟨hrow, hout⟩ := relayedRead_store
  have hdone : ∀ r ∈ ((exec (step listening) twoNodes relayedRead).get relayedRead_isSome).1.store.db.outbox,
      r.deliveredAt ≠ none := by
    rw [hout]
    simp
  obtain ⟨tr₁, tr₂, p, n, snapshot, heq, hdel, hall⟩ :=
    drained_coherent groups_twoNodes hrun hrow fun r hr _ => hdone r hr
  refine ⟨_, _, hrun, hdone, tr₁, tr₂, p, n, snapshot, heq, hdel.captured, fun e he => ?_⟩
  exact (congrArg Product.value ((hall n (Or.inl rfl)).1 e he)).symm

end System

end SimpleCache.Cluster
