import SimpleCache.Operator.Shards

/-!
# Operator.Pass — the programs of a Reconcile pass, verified

Every program is verified against `Guar` under `Rely`, from the inside out, each loop by recursion over its list.

* `verifies_shardAddresses` — the loop over the shards returns the addresses of shards that are there.
* `verifies_ensureAll` — the loop over wanted objects, with an assertion that its steps keep.
* `verifies_removeShardServices` — afterwards no controlled Service is surplus; routes lead to kept shards throughout.
* `verifies_removeKinds` — the controlled gateway objects are gone.
* `verifies_reconcileGateway`, `verifies_removeGateway`, `verifies_reconcile`.
-/

namespace SimpleCache.Operator

open Lib (Prog)
open Lib.Prog (wp wp_bind wp_mono wp_request wp_ofExcept wp_frame wp_handle)

variable {cr : SimpleCacheResource} {s s' : Server} {α : Type}

/-- A program of a pass for `cr` keeps to the guarantee, and ends with `Q` if it ends without an error. -/
abbrev Verifies (cr : SimpleCacheResource) (Q : α → Server → Prop) (p : M α) (s : Server) : Prop :=
  wp (Rely cr.uid) Server.Serves (Guar cr.name cr.uid) Q p s

/-- An assertion that the others keep. -/
def Stable (cr : SimpleCacheResource) (J : Server → Prop) : Prop := ∀ s s', J s → Rely cr.uid s s' → J s'

theorem Stable.and {J K : Server → Prop} (hJ : Stable cr J) (hK : Stable cr K) : Stable cr fun s => J s ∧ K s :=
  fun s s' h hr => ⟨hJ s s' h.1 hr, hK s s' h.2 hr⟩

theorem stable_has {k : Key} {P : Object → Prop} (hP : ∀ o o', o.drifts o' = true → P o → P o') :
    Stable cr fun s => s.Has cr.uid k P :=
  fun _ _ h hr => h.rely hP hr

theorem stable_lacks {k : Key} : Stable cr fun s => s.Lacks cr.uid k := fun _ _ h hr => h.rely hr

theorem stable_addressed {is : List ℤ} {ips : List GoString} : Stable cr fun s => Addressed cr s is ips :=
  fun _ _ h hr => h.rely hr

theorem stable_fits {wanted : Object} : Stable cr fun s => s.Has cr.uid wanted.key (Fits wanted) :=
  stable_has fun _ _ hd hf => hf.drifts hd

/-! ### Single calls -/

theorem verifies_get {k : Key} {Q : Object → Server → Prop} {J : Server → Prop} (hstable : Stable cr J) (hJ : J s)
    (h : ∀ s o, J s → s.get k = some o → Q o s) : Verifies cr Q (api (.get k)) s := by
  refine wp_api hstable hJ fun s₁ r s₂ hJ₁ hr => ?_
  obtain ⟨rfl, hok, -⟩ := Server.serves_get hr
  exact ⟨guar_refl _, fun o ho => h s₂ o hJ₁ (hok o ho)⟩

/-- `deleteObject`, of an object whose deletion keeps the guarantee. -/
theorem verifies_deleteObject {k : Key} {Q : Unit → Server → Prop} {J : Server → Prop} (hstable : Stable cr J) (hJ : J s)
    (hguar : ∀ s, J s → Guar cr.name cr.uid s (s.remove k))
    (h : ∀ s s', J s → s' = s ∨ s' = s.remove k → s'.get k = none → Q () s') : Verifies cr Q (deleteObject k) s := by
  apply wp_bind
  refine wp_request hstable hJ fun s₁ r s₂ hJ₁ hr => ?_
  obtain ⟨hcases, hgone⟩ := Server.serves_delete hr
  have hG : Guar cr.name cr.uid s₁ s₂ := by
    rcases hcases with rfl | rfl
    · exact guar_refl _
    · exact hguar s₁ hJ₁
  refine ⟨hG, ?_⟩
  cases r with
  | ok _ => exact h s₁ s₂ hJ₁ hcases (hgone (.inl rfl))
  | error e =>
    cases e with
    | notFound => exact h s₁ s₂ hJ₁ hcases (hgone (.inr rfl))
    | alreadyExists | conflict | other => trivial

/-! ### The loops that create -/

/-- `ensure` with an assertion that its steps keep. -/
theorem verifies_ensure {owner : SimpleCacheResource} {wanted : Object} {J : Server → Prop} (howner : owner.uid = cr.uid)
    (hstable : Stable cr J) (hJ : J s)
    (hstep : ∀ s s', J s → EnsureStep owner wanted s s' → Guar cr.name cr.uid s s' ∧ J s') :
    Verifies cr (fun _ s => s.Has cr.uid wanted.key (Fits wanted) ∧ J s) (ensure owner wanted) s := by
  have hens := wp_ensure owner wanted s
  rw [howner] at hens
  exact wp_frame hstable hstep hJ hens

/-- The loop that ensures a list of objects: at the end all are there. -/
theorem verifies_ensureAll {owner : SimpleCacheResource} (howner : owner.uid = cr.uid) :
    ∀ {objs : List Object} {J : Server → Prop} {s : Server}, (objs.map Object.key).Nodup → Stable cr J → J s →
      (∀ w ∈ objs, ∀ s s', J s → EnsureStep owner w s s' → Guar cr.name cr.uid s s' ∧ J s') →
      Verifies cr (fun _ s => J s ∧ ∀ w ∈ objs, s.Has cr.uid w.key (Fits w)) (ensureAll owner objs) s
  | [], J, s, _, _, hJ, _ => ⟨hJ, nofun⟩
  | w :: rest, J, s, hnodup, hstable, hJ, hstep => by
    rw [List.map_cons, List.nodup_cons] at hnodup
    apply wp_bind
    refine wp_mono (fun _ s₁ h₁ => ?_) (verifies_ensure howner hstable hJ (hstep w List.mem_cons_self))
    -- the rest of the list keeps what is there, for its keys differ
    have hrest : ∀ w' ∈ rest, ∀ s s', J s ∧ s.Has cr.uid w.key (Fits w) → EnsureStep owner w' s s' →
        Guar cr.name cr.uid s s' ∧ J s' ∧ s'.Has cr.uid w.key (Fits w) := by
      intro w' hmem s s' h hs
      obtain ⟨hG, hJ'⟩ := hstep w' (List.mem_cons_of_mem _ hmem) s s' h.1 hs
      have hne : w.key ≠ w'.key := fun heq => hnodup.1 (heq ▸ List.mem_map_of_mem hmem)
      exact ⟨hG, hJ', h.2.same (hs.get_ne hne)⟩
    refine wp_mono (fun _ s₂ h₂ => ?_)
      (verifies_ensureAll howner hnodup.2 (hstable.and stable_fits) ⟨h₁.2, h₁.1⟩ hrest)
    refine ⟨h₂.1.1, fun w' hmem => ?_⟩
    rcases List.mem_cons.mp hmem with rfl | hmem
    · exact h₂.1.2
    · exact h₂.2 w' hmem

/-- The loop over the shards: what it returns are the addresses of shards that are there. -/
theorem verifies_shardAddresses : ∀ {rest done : List ℤ} {ips : List GoString} {s : Server},
    (∀ i ∈ rest, 0 ≤ i ∧ i < 10) → Addressed cr s done ips →
      Verifies cr (fun r s => ∀ ips', r = some ips' → Addressed cr s (done ++ rest) ips') (shardAddresses cr rest ips) s
  | [], done, ips, s, _, h => by
    rintro ips' ⟨⟩
    rw [List.append_nil]
    exact h
  | i :: rest, done, ips, s, hrange, h => by
    have hi := hrange i List.mem_cons_self
    apply wp_bind
    refine wp_mono (fun _ s₁ h₁ => ?_) (verifies_ensure rfl stable_addressed h fun s s' hJ hs =>
      ⟨guar_of_ensureStep hs (.shard hi.1 hi.2) (safe_ensure_shard hs), hJ.ensure hs⟩)
    apply wp_bind
    refine verifies_get (stable_fits.and stable_addressed) h₁ fun s₂ svc h₂ hget => ?_
    by_cases hip : svc.clusterIP = []
    · rw [if_pos hip]
      exact nofun
    · rw [if_neg hip]
      have hshard : ShardAt cr s₂ i svc.clusterIP := by
        obtain ⟨o, ho, hfits⟩ := h₂.1
        obtain rfl := Option.some.inj (hget.symm.trans ho.1)
        exact ⟨hip, svc, ho, rfl, hfits.selector⟩
      have hnext := verifies_shardAddresses (fun j hj => hrange j (List.mem_cons_of_mem _ hj)) (h₂.2.snoc hshard)
      rw [List.append_assoc] at hnext
      exact hnext

/-! ### The loops that delete -/

/-- The name of a shard Service from the ordinal `keep` on. -/
def surplusName (cr : SimpleCacheResource) (keep : ℤ) (name : GoString) : Bool :=
  (shardStem cr).isPrefixOf name && (Go.parseInt (name.drop (shardStem cr).length)).any fun ordinal => keep ≤ ordinal

/-- The key of a surplus shard Service. -/
def Surplus (cr : SimpleCacheResource) (keep : ℤ) (k : Key) : Prop :=
  k.kind = .service ∧ surplusName cr keep k.name = true

theorem obsolete_iff {keep : ℤ} {svc : Object} :
    obsolete cr keep svc = true ↔ svc.controller = some cr.uid ∧ surplusName cr keep svc.name = true := by
  simp [obsolete, surplusName, Object.controlledBy, and_assoc]

theorem surplus_shardKey {keep i : ℤ} (h0 : 0 ≤ i) (hi : i < 10) :
    Surplus cr keep (shardKey cr.name i) ↔ keep ≤ i := by
  have hprefix : (shardStem cr).isPrefixOf (shardStem cr ++ Go.formatInt i) = true := by
    rw [List.isPrefixOf_iff_prefix]
    exact List.prefix_append _ _
  have hparse : Go.parseInt (Go.formatInt i) = some i := Go.parseInt_formatInt h0 (by unfold Go.maxInt64; omega)
  show (Kind.service = .service ∧ surplusName cr keep (shardStem cr ++ Go.formatInt i) = true) ↔ keep ≤ i
  rw [surplusName, hprefix, List.drop_left, hparse]
  simp

/-- The keys that are still to be deleted are those of the controlled surplus Services. -/
structure Todo (cr : SimpleCacheResource) (keep : ℤ) (ks : List Key) (s : Server) : Prop where
  nodup : ks.Nodup
  mem : ∀ k, k ∈ ks ↔ Surplus cr keep k ∧ ¬s.Lacks cr.uid k

theorem lacks_rely_iff {k : Key} (hr : Rely cr.uid s s') : s'.Lacks cr.uid k ↔ s.Lacks cr.uid k := by
  refine ⟨fun h o ho => ?_, fun h => h.rely hr⟩
  obtain ⟨o', ho', -⟩ := hr.kept k o ho
  exact h o' ho'

theorem stable_todo {keep : ℤ} {ks : List Key} : Stable cr fun s => Todo cr keep ks s := fun s s' h hr =>
  ⟨h.nodup, fun k => by rw [h.mem, lacks_rely_iff hr]⟩

/-- Deleting the first of them leaves the others. -/
theorem Todo.tail {keep : ℤ} {k : Key} {ks : List Key} (h : Todo cr keep (k :: ks) s) (hs : s' = s ∨ s' = s.remove k)
    (hgone : s'.get k = none) : Todo cr keep ks s' := by
  have hnodup := List.nodup_cons.mp h.nodup
  refine ⟨hnodup.2, fun k' => ?_⟩
  by_cases hk : k' = k
  · subst hk
    refine iff_of_false hnodup.1 fun h' => h'.2 fun o ho => ?_
    cases hgone.symm.trans ho.1
  · have hget : s'.get k' = s.get k' := by
      rcases hs with rfl | rfl
      · rfl
      · exact Server.get_remove_ne hk
    have hlacks : s'.Lacks cr.uid k' ↔ s.Lacks cr.uid k' := ⟨fun hl => hl.same hget.symm, fun hl => hl.same hget⟩
    rw [hlacks, ← h.mem k', List.mem_cons]
    simp [hk]

/-- The loop of `removeShardServices`, with an assertion that a deletion keeps. -/
theorem verifies_removeObsolete {keep : ℤ} {J : Server → Prop} (hstable : Stable cr J)
    (hguar : ∀ s k, J s → Surplus cr keep k → s.Has cr.uid k (fun _ => True) → Guar cr.name cr.uid s (s.remove k))
    (hkeep : ∀ s k, J s → Surplus cr keep k → J (s.remove k)) :
    ∀ {items : List Object} {s : Server}, J s → Todo cr keep ((items.filter (obsolete cr keep)).map Object.key) s →
      Verifies cr (fun _ s => J s ∧ Todo cr keep [] s) (removeObsolete cr keep items) s
  | [], _, hJ, htodo => ⟨hJ, htodo⟩
  | svc :: items, s, hJ, htodo => by
    rw [removeObsolete]
    by_cases hobs : obsolete cr keep svc = true
    · rw [if_pos hobs]
      apply wp_bind
      rw [List.filter_cons_of_pos hobs, List.map_cons] at htodo
      have hsurplus := ((htodo.mem svc.key).mp List.mem_cons_self).1
      refine verifies_deleteObject (hstable.and stable_todo) ⟨hJ, htodo⟩ (fun s₁ h₁ => ?_)
        fun s₁ s₂ h₁ hs hgone => ?_
      · have howned := ((h₁.2.mem svc.key).mp List.mem_cons_self).2
        unfold Server.Lacks at howned
        push Not at howned
        obtain ⟨o, ho⟩ := howned
        exact hguar s₁ svc.key h₁.1 hsurplus ⟨o, ho, trivial⟩
      · have hJ₂ : J s₂ := by
          rcases hs with rfl | rfl
          · exact h₁.1
          · exact hkeep s₁ svc.key h₁.1 hsurplus
        exact verifies_removeObsolete hstable hguar hkeep hJ₂ (h₁.2.tail hs hgone)
    · rw [if_neg hobs]
      rw [List.filter_cons_of_neg hobs] at htodo
      exact verifies_removeObsolete hstable hguar hkeep hJ htodo

/-- What a list of the Services has to delete. -/
theorem todo_listed {keep : ℤ} {items : List Object} (h : (items : Multiset Object) = s.store.services) :
    Todo cr keep ((items.filter (obsolete cr keep)).map Object.key) s := by
  have hmem : ∀ o, o ∈ items ↔ s.get o.key = some o ∧ o.body.kind = .service := by
    intro o
    rw [← Multiset.mem_coe, h]
    exact Store.mem_services
  constructor
  · have hall : (items.map Object.key).Nodup := by
      have hnodup := s.store.nodup_services
      rw [← h] at hnodup
      exact hnodup
    exact hall.sublist (List.filter_sublist.map _)
  · intro k
    simp only [List.mem_map, List.mem_filter, obsolete_iff, hmem]
    constructor
    · rintro ⟨o, ⟨⟨hget, hkind⟩, hc, hname⟩, rfl⟩
      exact ⟨⟨hkind, hname⟩, fun hl => hl o ⟨hget, hc⟩⟩
    · rintro ⟨⟨hkind, hname⟩, howned⟩
      unfold Server.Lacks at howned
      push Not at howned
      obtain ⟨o, hget, hc⟩ := howned
      obtain rfl := Store.get_key hget
      exact ⟨o, ⟨⟨hget, hkind⟩, hc, hname⟩, rfl⟩

/-- **`removeShardServices`.**  Where the routes lead to kept shards only, the surplus ones are deleted and the routes stay
safe throughout. -/
theorem verifies_removeShardServices {keep : ℤ} {J : Server → Prop} (hstable : Stable cr J) (hJ : J s)
    (hroutes : ∀ s, J s → RoutesTo cr.name cr.uid (fun i => 0 ≤ i ∧ i < 10 ∧ i < keep) s)
    (hkeep : ∀ s k, J s → Surplus cr keep k → J (s.remove k)) :
    Verifies cr (fun _ s => J s ∧ ∀ k, Surplus cr keep k → s.Lacks cr.uid k) (removeShardServices cr keep) s := by
  apply wp_bind
  refine wp_api hstable hJ fun s₁ r s₂ hJ₁ hr => ?_
  obtain ⟨rfl, hitems⟩ := Server.serves_listServices hr
  refine ⟨guar_refl _, fun items hok => ?_⟩
  have hguar : ∀ s k, J s → Surplus cr keep k → s.Has cr.uid k (fun _ => True) →
      Guar cr.name cr.uid s (s.remove k) := by
    intro s k hs hk hhas
    refine guar_remove hhas fun _ => ?_
    have hne : k ≠ backendKey cr.name := by
      rintro rfl
      cases hk.1
    refine ((hroutes s hs).same (Server.get_remove_ne hne.symm) fun i hi => ?_).imp fun i hi => hi.1
    refine Server.get_remove_ne fun heq => ?_
    have hle := (surplus_shardKey hi.1 hi.2.1).mp (heq ▸ hk)
    omega
  refine wp_mono (fun _ s₃ h₃ => ⟨h₃.1, fun k hk => ?_⟩)
    (verifies_removeObsolete hstable hguar hkeep hJ₁ (todo_listed (hitems items hok)))
  by_contra hl
  exact absurd ((h₃.2.mem k).mpr ⟨hk, hl⟩) List.not_mem_nil

/-- The loop of `removeGateway`. -/
theorem verifies_removeKinds : ∀ {kinds : List GatewayKind} {J : Server → Prop} {s : Server}, Stable cr J → J s →
    (∀ s kind, J s → J (s.remove ⟨.gateway kind, cr.name⟩)) →
      Verifies cr (fun _ s => J s ∧ ∀ kind ∈ kinds, s.Lacks cr.uid ⟨.gateway kind, cr.name⟩) (removeKinds cr kinds) s
  | [], J, s, _, hJ, _ => ⟨hJ, nofun⟩
  | kind :: rest, J, s, hstable, hJ, hkeep => by
    -- once the first is gone, the rest of the list keeps it so
    have hrest : ∀ {s}, J s ∧ s.Lacks cr.uid ⟨.gateway kind, cr.name⟩ → Verifies cr
        (fun _ s => J s ∧ ∀ kind' ∈ kind :: rest, s.Lacks cr.uid ⟨.gateway kind', cr.name⟩) (removeKinds cr rest) s := by
      intro s h
      refine wp_mono (fun _ s₁ h₁ => ?_)
        (verifies_removeKinds (hstable.and stable_lacks) h fun s kind' hs => ⟨hkeep s kind' hs.1, ?_⟩)
      · refine ⟨h₁.1.1, fun kind' hmem => ?_⟩
        rcases List.mem_cons.mp hmem with rfl | hmem
        · exact h₁.1.2
        · exact h₁.2 kind' hmem
      · by_cases hk : kind' = kind
        · subst hk
          exact fun o ho => by cases (s.store.get_remove _).symm.trans ho.1
        · exact hs.2.same (Server.get_remove_ne (by simpa using Ne.symm hk))
    apply wp_bind
    refine wp_request hstable hJ fun s₁ r s₂ hJ₁ hr => ?_
    obtain ⟨rfl, hok, hnone⟩ := Server.serves_get hr
    refine ⟨guar_refl _, ?_⟩
    cases r with
    | error e =>
      cases e with
      | notFound => exact hrest ⟨hJ₁, fun o ho => by cases (hnone rfl).symm.trans ho.1⟩
      | alreadyExists | conflict | other => trivial
    | ok o =>
      have hget := hok o rfl
      by_cases hc : o.controlledBy cr = true
      · simp only [if_pos hc]
        apply wp_bind
        have hhas : s₂.Has cr.uid ⟨.gateway kind, cr.name⟩ fun _ => True := ⟨o, ⟨hget, of_decide_eq_true hc⟩, trivial⟩
        refine verifies_deleteObject (hstable.and (stable_has fun _ _ _ _ => trivial)) ⟨hJ₁, hhas⟩ (fun s h => ?_)
          fun s s' h hs hgone => ?_
        · refine guar_remove h.2 fun hsafe => ?_
          by_cases hk : kind = .backend
          · subst hk
            exact routesTo_of_lacks fun o ho => by cases (s.store.get_remove _).symm.trans ho.1
          · exact RoutesTo.same hsafe (Server.get_remove_ne (by simpa [backendKey] using Ne.symm hk))
              fun i _ => Server.get_remove_ne nofun
        · refine hrest ⟨?_, fun o ho => by cases hgone.symm.trans ho.1⟩
          rcases hs with rfl | rfl
          · exact h.1
          · exact hkeep s kind h.1
      · simp only [if_neg hc]
        refine hrest ⟨hJ₁, fun o' ho' => hc ?_⟩
        obtain rfl := Option.some.inj (hget.symm.trans ho'.1)
        exact decide_eq_true ho'.2

/-! ### `reconcileGateway` and `removeGateway` -/

/-- The shards are there with the addresses, and the Backend lists these. -/
structure Routed (cr : SimpleCacheResource) (ips : List GoString) (s : Server) : Prop where
  shards : Addressed cr s (ordinals cr.spec.size) ips
  backend : s.Has cr.uid (backendKey cr.name) fun b => backendAddresses b.spec = ips

theorem stable_routed {ips : List GoString} : Stable cr (Routed cr ips) := fun _ _ h hr =>
  ⟨h.shards.rely hr, h.backend.rely (fun _ _ hd hb => by rw [Object.drifts_spec hd]; exact hb) hr⟩

theorem Routed.routesTo {ips : List GoString} (h : Routed cr ips s) {I : ℤ → Prop}
    (hI : ∀ i, 0 ≤ i → i < cr.spec.size → I i) : RoutesTo cr.name cr.uid I s := by
  refine h.shards.routesTo (fun i hi => hI i (mem_ordinals.mp hi).1 (mem_ordinals.mp hi).2) fun b hb => ?_
  obtain ⟨b', hb', heq⟩ := h.backend
  rw [hb.unique hb']
  exact heq

/-- Deleting surplus shards keeps the routes. -/
theorem Routed.remove {ips : List GoString} {k : Key} (hsize : cr.spec.size ≤ 10) (h : Routed cr ips s)
    (hk : Surplus cr cr.spec.size k) : Routed cr ips (s.remove k) := by
  refine ⟨h.shards.same fun i hi => Server.get_remove_ne ?_, h.backend.same (Server.get_remove_ne ?_)⟩
  · rintro rfl
    obtain ⟨h0, hlt⟩ := mem_ordinals.mp hi
    have hle := (surplus_shardKey h0 (by omega)).mp hk
    omega
  · rintro rfl
    cases hk.1

theorem key_gatewayResource (kind : GatewayKind) (spec : Json) :
    (gatewayResource cr kind spec).key = ⟨.gateway kind, cr.name⟩ := rfl

theorem mem_gatewayResources {g : GatewaySpec} {ips : List GoString} {w : Object} (h : w ∈ gatewayResources cr g ips) :
    ∃ kind spec, w = gatewayResource cr kind spec ∧ (kind = .backend → spec = backendSpec ips) := by
  simp only [gatewayResources, List.mem_cons, List.not_mem_nil, or_false] at h
  rcases h with rfl | rfl | rfl | rfl | rfl
  · exact ⟨_, _, rfl, nofun⟩
  · exact ⟨_, _, rfl, fun _ => rfl⟩
  · exact ⟨_, _, rfl, nofun⟩
  · exact ⟨_, _, rfl, nofun⟩
  · exact ⟨_, _, rfl, nofun⟩

/-- Ensuring a gateway object keeps the guarantee while the shards of its addresses are there. -/
theorem guar_ensure_gateway {kind : GatewayKind} {spec : Json} {is : List ℤ} {ips : List GoString}
    (hs : EnsureStep cr (gatewayResource cr kind spec) s s') (hspec : kind = .backend → spec = backendSpec ips)
    (his : ∀ i ∈ is, 0 ≤ i) (h : Addressed cr s is ips) : Guar cr.name cr.uid s s' ∧ Addressed cr s' is ips := by
  have hshards : ∀ i, s'.get (shardKey cr.name i) = s.get (shardKey cr.name i) := fun i => hs.get_ne nofun
  have haddr : Addressed cr s' is ips := h.same fun i _ => hshards i
  refine ⟨guar_of_ensureStep hs (.gateway kind) fun hsafe => ?_, haddr⟩
  by_cases hk : kind = .backend
  · subst hk
    rcases hs.cases_put with rfl | ⟨st, rfl, hkey, hc, hfits, -⟩
    · exact hsafe
    · refine haddr.routesTo his fun b hb => ?_
      rw [Option.some.inj (hb.1.symm.trans (s.store.get_put_of_eq hkey))]
      rw [hspec rfl] at hfits
      exact hfits.addresses
  · refine RoutesTo.same hsafe (hs.get_ne ?_) fun i _ => hshards i
    rw [key_gatewayResource, backendKey]
    simpa using Ne.symm hk

theorem verifies_gatewayMessage {J : Server → Prop} (hstable : Stable cr J) :
    ∀ {kinds : List GatewayKind} {s : Server}, J s → Verifies cr (fun _ s => J s) (gatewayMessage cr kinds) s
  | [], _, hJ => hJ
  | kind :: rest, s, hJ => by
    apply wp_bind
    refine verifies_get hstable hJ fun s₁ o hJ₁ _ => ?_
    by_cases hready : gatewayReady cr kind o = true
    · rw [if_pos hready]
      exact verifies_gatewayMessage hstable hJ₁
    · rw [if_neg hready]
      exact hJ₁

/-- The shards of the resource are exactly those that the Backend lists. -/
def Sharded (cr : SimpleCacheResource) (s : Server) : Prop :=
  (∃ ips, Routed cr ips s) ∧ ∀ k, Surplus cr cr.spec.size k → s.Lacks cr.uid k

theorem stable_sharded : Stable cr (Sharded cr) := by
  rintro s s' ⟨⟨ips, h⟩, hl⟩ hr
  exact ⟨⟨ips, stable_routed s s' h hr⟩, fun k hk => (hl k hk).rely hr⟩

/-- **`reconcileGateway`.**  Unless it stops at the wait for an address, its end finds the shards and the Backend as the
spec wants them. -/
theorem verifies_reconcileGateway {g : GatewaySpec} (hsize : cr.spec.size ≤ 10) :
    Verifies cr (fun message s => message ≠ waitingForAddresses → Sharded cr s) (reconcileGateway cr g) s := by
  apply wp_bind
  have hrange : ∀ i ∈ ordinals cr.spec.size, 0 ≤ i ∧ i < 10 := by
    intro i hi
    obtain ⟨h0, hlt⟩ := mem_ordinals.mp hi
    omega
  have hnone : Addressed cr s [] [] := .nil
  refine wp_mono (fun r s₁ h₁ => ?_) (verifies_shardAddresses hrange hnone)
  cases r with
  | none => exact fun hne => absurd rfl hne
  | some ips =>
    have haddr : Addressed cr s₁ (ordinals cr.spec.size) ips := h₁ ips rfl
    apply wp_bind
    have hnodup : ((gatewayResources cr g ips).map Object.key).Nodup := by
      simp [gatewayResources, key_gatewayResource]
    refine wp_mono (fun _ s₂ h₂ => ?_) (verifies_ensureAll rfl hnodup stable_addressed haddr fun w hw s s' hJ hs => ?_)
    · have hbackend := h₂.2 (gatewayResource cr .backend (backendSpec ips)) (by simp [gatewayResources])
      have hrouted : Routed cr ips s₂ := ⟨h₂.1, hbackend.imp fun _ hf => hf.addresses⟩
      apply wp_bind
      refine wp_mono (fun _ s₃ h₃ => ?_) (verifies_removeShardServices stable_routed hrouted
        (fun s h => h.routesTo fun i h0 hi => ⟨h0, by omega, hi⟩) fun s k h hk => h.remove hsize hk)
      have hsharded : Sharded cr s₃ := ⟨⟨ips, h₃.1⟩, h₃.2⟩
      refine wp_mono (fun _ s₄ h₄ => ?_) (verifies_gatewayMessage stable_sharded hsharded)
      exact fun _ => h₄
    · obtain ⟨kind, spec, rfl, hspec⟩ := mem_gatewayResources hw
      exact guar_ensure_gateway hs hspec (fun i hi => (hrange i hi).1) hJ

/-- Nothing of the gateway is left under the names of the controller. -/
def Bare (cr : SimpleCacheResource) (s : Server) : Prop :=
  (∀ kind, s.Lacks cr.uid ⟨.gateway kind, cr.name⟩) ∧ ∀ k, Surplus cr 0 k → s.Lacks cr.uid k

theorem stable_bare : Stable cr (Bare cr) := fun _ _ h hr =>
  ⟨fun kind => (h.1 kind).rely hr, fun k hk => (h.2 k hk).rely hr⟩

theorem mem_gatewayKinds (kind : GatewayKind) : kind ∈ gatewayKinds := by
  cases kind <;> simp [gatewayKinds]

/-- **`removeGateway`.** -/
theorem verifies_removeGateway : Verifies cr (fun _ s => Bare cr s) (removeGateway true cr) s := by
  rw [removeGateway, if_pos rfl]
  apply wp_bind
  refine wp_mono (fun _ s₁ h₁ => ?_)
    (verifies_removeKinds (J := fun _ => True) (fun _ _ _ _ => trivial) trivial fun _ _ _ => trivial)
  have hgone : ∀ kind, s₁.Lacks cr.uid ⟨.gateway kind, cr.name⟩ := fun kind => h₁.2 kind (mem_gatewayKinds kind)
  refine verifies_removeShardServices (J := fun s => ∀ kind, s.Lacks cr.uid ⟨.gateway kind, cr.name⟩)
    (fun s s' h hr kind => (h kind).rely hr) hgone (fun s h => routesTo_of_lacks (h .backend)) fun s k h hk kind => ?_
  refine (h kind).same (Server.get_remove_ne ?_)
  rintro rfl
  cases hk.1

/-! ### `Reconcile` -/

/-- An assertion about the objects. -/
def AboutStore (J : Server → Prop) : Prop := ∀ s s' : Server, s'.store = s.store → J s → J s'

theorem aboutStore_sharded : AboutStore (Sharded cr) := by
  rintro s s' hstore ⟨⟨ips, h⟩, hl⟩
  have hget : ∀ k, s'.get k = s.get k := fun k => congrArg (Store.get · k) hstore
  exact ⟨⟨ips, h.shards.same fun _ _ => hget _, h.backend.same (hget _)⟩, fun k hk => (hl k hk).same (hget k)⟩

theorem aboutStore_bare : AboutStore (Bare cr) := by
  intro s s' hstore h
  have hget : ∀ k, s'.get k = s.get k := fun k => congrArg (Store.get · k) hstore
  exact ⟨fun kind => (h.1 kind).same (hget _), fun k hk => (h.2 k hk).same (hget k)⟩

/-- `setStatus` leaves the objects. -/
theorem verifies_setStatus {r : StoredResource} {ready : ℤ} {status : Bool} {reason : String} {text : GoString}
    {J : Server → Prop} (hstable : Stable cr J) (hstore : AboutStore J) (hJ : J s) :
    Verifies cr (fun _ s => J s) (setStatus r ready status reason text) s := by
  unfold setStatus
  dsimp only
  split_ifs with heq
  · exact hJ
  · refine wp_api hstable hJ fun s₁ r s₂ hJ₁ hr => ?_
    rcases Server.serves_patchStatus hr with rfl | ⟨x, hx, rfl⟩
    · exact ⟨guar_refl _, fun _ _ => hJ₁⟩
    · exact ⟨guar_of_store rfl rfl (by rw [hx]; rfl), fun _ _ => hstore s₁ _ rfl hJ₁⟩

/-- What ends with an error keeps to the guarantee from any state. -/
theorem verifies_failWith {r : StoredResource} {reason : OpErr → String} {e : OpErr} {Q : α → Server → Prop} :
    Verifies cr Q (failWith r reason e) s := by
  apply wp_bind
  refine wp_mono (fun _ _ _ => ?_)
    (verifies_setStatus (J := fun _ => True) (fun _ _ _ _ => trivial) (fun _ _ _ _ => trivial) trivial)
  trivial

theorem verifies_reportStatus {r : StoredResource} {desired : SimpleCacheResource} {message : String}
    {J : Server → Prop} (hstable : Stable cr J) (hstore : AboutStore J) (hJ : J s) :
    Verifies cr (fun _ s => J s) (reportStatus r desired message) s := by
  apply wp_bind
  refine verifies_get hstable hJ fun s₁ sts hJ₁ _ => ?_
  split_ifs
  · exact verifies_setStatus hstable hstore hJ₁
  · exact verifies_setStatus hstable hstore hJ₁
  · exact verifies_setStatus hstable hstore hJ₁

/-- The base objects are none of the routes. -/
theorem mem_baseObjects {w : Object} (h : w ∈ baseObjects cr) :
    OwnKey cr.name w.key ∧ w.key ≠ backendKey cr.name ∧ ∀ i, w.key ≠ shardKey cr.name i := by
  simp only [baseObjects, List.mem_cons, List.not_mem_nil, or_false] at h
  rcases h with rfl | rfl | rfl | rfl | rfl | rfl
  · exact ⟨.account, nofun, nofun⟩
  · exact ⟨.role, nofun, nofun⟩
  · exact ⟨.binding, nofun, nofun⟩
  · exact ⟨.cluster, nofun, shardKey_ne (by decide)⟩
  · exact ⟨.api, nofun, shardKey_ne (by decide)⟩
  · exact ⟨.statefulSet, nofun, nofun⟩

theorem nodup_baseObjects : ((baseObjects cr).map Object.key).Nodup := by
  have hne : cr.name ++ Go.ascii "-svc" ≠ cr.name ++ Go.ascii "-api" :=
    fun h => absurd (List.append_cancel_left h) (by decide)
  have hkeys : (baseObjects cr).map Object.key = [⟨.serviceAccount, cr.name ++ Go.ascii "-cache"⟩,
      ⟨.role, cr.name ++ Go.ascii "-discovery"⟩, ⟨.roleBinding, cr.name ++ Go.ascii "-discovery"⟩,
      ⟨.service, cr.name ++ Go.ascii "-svc"⟩, ⟨.service, cr.name ++ Go.ascii "-api"⟩, ⟨.statefulSet, cr.name⟩] := rfl
  simp only [hkeys, List.nodup_cons, List.mem_cons, Key.mk.injEq, reduceCtorEq, hne, List.not_mem_nil, false_and, and_false,
    or_false, not_false_eq_true, List.nodup_nil, and_true]

theorem verifies_baseObjects {owner : SimpleCacheResource} (howner : owner.uid = cr.uid) :
    Verifies cr (fun _ _ => True) (ensureAll owner (baseObjects cr)) s := by
  refine wp_mono (fun _ _ _ => trivial) (verifies_ensureAll howner nodup_baseObjects (J := fun _ => True)
    (fun _ _ _ _ => trivial) trivial fun w hw s s' _ hs => ⟨?_, trivial⟩)
  obtain ⟨hkey, hb, hshards⟩ := mem_baseObjects hw
  have hG : Guar cr.name owner.uid s s' := guar_of_ensureStep hs hkey fun hsafe =>
    RoutesTo.same hsafe (hs.get_ne hb.symm) fun i _ => hs.get_ne (hshards i).symm
  rw [howner] at hG
  exact hG

/-- What a pass that got to its end with the message has reached: the shards of the spec, or nothing of a gateway. -/
structure Reached (enableGateway : Bool) (desired : SimpleCacheResource) (message : String) (s : Server) : Prop where
  sharded : desired.spec.gateway ≠ none → message ≠ waitingForAddresses → Sharded desired s
  bare : desired.spec.gateway = none → enableGateway = true → Bare desired s

section

variable {names : NameChecks} {enableGateway : Bool} {r : StoredResource}

theorem stable_reached {message : String} : Stable cr (Reached enableGateway cr message) := fun s s' h hr =>
  ⟨fun hg hm => stable_sharded s s' (h.sharded hg hm) hr, fun hg he => stable_bare s s' (h.bare hg he) hr⟩

theorem aboutStore_reached {message : String} : AboutStore (Reached enableGateway cr message) := fun s s' hs h =>
  ⟨fun hg hm => aboutStore_sharded s s' hs (h.sharded hg hm), fun hg he => aboutStore_bare s s' hs (h.bare hg he)⟩

theorem verifies_gatewayPart (hsize : cr.spec.size ≤ 10) :
    Verifies cr (fun message s => Reached enableGateway cr message s) (gatewayPart enableGateway r cr) s := by
  unfold gatewayPart
  cases hg : cr.spec.gateway with
  | some g =>
    refine wp_handle (fun e s => verifies_failWith) (wp_mono (fun message s₁ h => ?_) (verifies_reconcileGateway hsize))
    exact ⟨fun _ hm => h hm, fun hnone => absurd (hg.symm.trans hnone) nofun⟩
  | none =>
    apply wp_bind
    cases enableGateway with
    | true =>
      refine wp_mono (fun _ s₁ h => ?_) verifies_removeGateway
      exact ⟨fun hsome => absurd hg hsome, fun _ _ => h⟩
    | false => exact ⟨fun hsome => absurd hg hsome, nofun⟩

/-- What is known of the outcome of a pass that read `r`. -/
def Settled (enableGateway : Bool) (r : StoredResource) (o : Outcome) (s : Server) : Prop :=
  ∀ desired message, o = .settled desired message → desired = defaults r.cr ∧ Reached enableGateway desired message s

theorem verifies_reconcileObjects (hsize : (defaults r.cr).spec.size ≤ 10) :
    Verifies (defaults r.cr) (Settled enableGateway r) (reconcileObjects enableGateway r (defaults r.cr)) s := by
  apply wp_bind
  refine wp_handle (fun e s => verifies_failWith) (wp_mono (fun _ s₁ _ => ?_) (verifies_baseObjects rfl))
  apply wp_bind
  refine wp_mono (fun message s₂ h₂ => ?_) (verifies_gatewayPart hsize)
  apply wp_bind
  refine wp_mono (fun _ s₃ h₃ => ?_) (verifies_reportStatus stable_reached aboutStore_reached h₂)
  rintro desired message' ⟨⟩
  exact ⟨rfl, h₃⟩

/-- A pass reads the GatewayClass and leaves everything. -/
theorem verifies_checkClass : Verifies cr (fun _ _ => True) (checkClass enableGateway cr) s := by
  unfold checkClass
  cases cr.spec.gateway with
  | none => trivial
  | some g =>
    show Verifies cr _ (checkGatewayClass enableGateway g) s
    unfold checkGatewayClass
    split_ifs with he
    · trivial
    · apply wp_bind
      refine wp_request (P := fun _ => True) (fun _ _ _ _ => trivial) trivial fun s₁ r s₂ _ hr => ?_
      obtain rfl := Server.serves_getClass hr
      refine ⟨guar_refl _, ?_⟩
      cases r with
      | error e => trivial
      | ok c =>
        dsimp only
        split_ifs <;> trivial

/-- A status is set and the pass ends. -/
theorem verifies_status {ready : ℤ} {status : Bool} {reason : String} {text : GoString} {o : Outcome}
    (h : ∀ desired message, o ≠ .settled desired message) :
    Verifies cr (Settled enableGateway r) (do setStatus r ready status reason text; return o) s := by
  apply wp_bind
  refine wp_mono (fun _ _ _ => ?_)
    (verifies_setStatus (J := fun _ => True) (fun _ _ _ _ => trivial) (fun _ _ _ _ => trivial) trivial)
  exact fun desired message heq => absurd heq (h desired message)

/-- **A pass, with the resource it has read.** -/
theorem verifies_reconcileResource :
    Verifies r.cr (Settled enableGateway r) (reconcileResource names enableGateway r) s := by
  unfold reconcileResource
  split_ifs with hdel
  · exact fun _ _ => nofun
  · cases hvalid : validateSpec names (defaults r.cr) with
    | error text => exact verifies_status fun _ _ => nofun
    | ok _ =>
      apply wp_bind
      have hclass : Verifies (defaults r.cr) _ (checkClass enableGateway (defaults r.cr)) s := verifies_checkClass
      refine wp_mono (fun refusal s₁ _ => ?_) hclass
      cases refusal with
      | some text => exact verifies_status fun _ _ => nofun
      | none => exact verifies_reconcileObjects (validateSpec_ok hvalid).2.2.2.size.2

/-- The resource, if it is there, is the one of that name and identity. -/
def Identity (n u : GoString) (s : Server) : Prop := ∀ r, s.resource = some r → r.cr.name = n ∧ r.cr.uid = u

theorem Identity.rely {n u : GoString} (h : Identity n u s) (hr : Rely u s s') : Identity n u s' := by
  intro r' hr'
  obtain ⟨r, hres, hname, huid⟩ := hr.identity r' hr'
  obtain ⟨hn, hu⟩ := h r hres
  exact ⟨hname.trans hn, huid.trans hu⟩

/-- A status does not change the identity. -/
theorem Identity.same_resource {n u : GoString} (h : Identity n u s)
    (hsame : s'.resource.map StoredResource.sansStatus = s.resource.map StoredResource.sansStatus) : Identity n u s' := by
  intro r' hr'
  rw [hr', Option.map_some, eq_comm, Option.map_eq_some_iff] at hsame
  obtain ⟨r, hres, heq⟩ := hsame
  have hcr : r.cr = r'.cr := congrArg Prod.fst heq
  rw [← hcr]
  exact h r hres

/-- **`Reconcile` keeps to the guarantee.** -/
theorem wp_reconcile {n u : GoString} (h : Identity n u s) :
    wp (Rely u) Server.Serves (Guar n u) (fun _ _ => True) (reconcile names enableGateway) s := by
  apply wp_bind
  refine wp_request (P := Identity n u) (fun _ _ h hr => h.rely hr) h fun s₁ x s₂ h₁ hx => ?_
  obtain ⟨rfl, hok⟩ := Server.serves_getResource hx
  refine ⟨guar_refl _, ?_⟩
  cases x with
  | error e => cases e <;> trivial
  | ok r =>
    obtain ⟨rfl, rfl⟩ := h₁ r (hok r rfl)
    exact wp_mono (fun _ _ _ => trivial) verifies_reconcileResource

end

end SimpleCache.Operator
