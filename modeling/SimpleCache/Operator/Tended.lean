import SimpleCache.Operator.Convergence
import SimpleCache.Operator.Steady

/-!
# Operator.Tended — what a pass that settles leaves

A pass that settles the current spec leaves every object as it is wanted: the base objects, the shards with their
addresses, the resources of the gateway, and nothing that it should have removed (`Tended`).  The gateway touches its own
keys only, so the base objects are still there when it is done (`Leaves`), and other components keep all of it.
-/

namespace SimpleCache.Operator

open Lib.Prog (wp wp_bind wp_mono wp_request wp_frame wp_handle wp_true wp_weaken)

variable {cr : SimpleCacheResource} {s s' : Server} {α : Type}

/-! ### What a settled pass leaves -/

/-- The shards of the ordinals suit, with these addresses. -/
def ShardsSuit (cr : SimpleCacheResource) (s : Server) (is : List ℤ) (ips : List GoString) : Prop :=
  Addressed cr s is ips ∧ ∀ i ∈ is, s.Has cr.uid (shardService cr i).key (Suits (shardService cr i))

/-- Every object of the resource is as it is wanted; `ips` are the addresses of the shards. -/
structure Tended (enableGateway : Bool) (cr : SimpleCacheResource) (ips : List GoString) (s : Server) : Prop where
  base : ∀ w ∈ baseObjects cr, s.Has cr.uid w.key (Suits w)
  shards : cr.spec.gateway ≠ none → ShardsSuit cr s (ordinals cr.spec.size) ips
  gateway : ∀ g, cr.spec.gateway = some g → ∀ w ∈ gatewayResources cr g ips, s.Has cr.uid w.key (Suits w)
  surplus : cr.spec.gateway ≠ none → ∀ k, Surplus cr cr.spec.size k → s.Lacks cr.uid k
  bare : cr.spec.gateway = none → enableGateway = true → Bare cr s

theorem stable_suits {w : Object} : Stable cr fun s => s.Has cr.uid w.key (Suits w) :=
  stable_has fun _ _ hd hs => hs.drifts hd

theorem stable_shardsSuit {is : List ℤ} {ips : List GoString} : Stable cr fun s => ShardsSuit cr s is ips :=
  fun s s' h hr => ⟨h.1.rely hr, fun i hi => stable_suits s s' (h.2 i hi) hr⟩

/-- The same Services, the same shards. -/
theorem ShardsSuit.same {is : List ℤ} {ips : List GoString} (h : ShardsSuit cr s is ips)
    (heq : ∀ i ∈ is, s'.get (shardKey cr.name i) = s.get (shardKey cr.name i)) : ShardsSuit cr s' is ips :=
  ⟨h.1.same heq, fun i hi => (h.2 i hi).same (heq i hi)⟩

theorem stable_tended {enableGateway : Bool} {ips : List GoString} : Stable cr (Tended enableGateway cr ips) :=
  fun s s' h hr => ⟨fun w hw => stable_suits s s' (h.base w hw) hr, fun hg => stable_shardsSuit s s' (h.shards hg) hr,
    fun g hg w hw => stable_suits s s' (h.gateway g hg w hw) hr, fun hg k hk => (h.surplus hg k hk).rely hr,
    fun hg he => stable_bare s s' (h.bare hg he) hr⟩

/-! ### Which keys a program touches -/

/-- Only objects under these keys change. -/
def Touches (K : Key → Prop) (s s' : Server) : Prop := ∀ k, ¬K k → s'.get k = s.get k

theorem touches_refl {K : Key → Prop} (s : Server) : Touches K s s := fun _ _ => rfl

/-- The keys of the gateway. -/
def GatewayKey (cr : SimpleCacheResource) (k : Key) : Prop :=
  (∃ kind, k = ⟨.gateway kind, cr.name⟩) ∨ k.kind = .service ∧ shardStem cr <+: k.name

theorem gatewayKey_shard (i : ℤ) : GatewayKey cr (shardKey cr.name i) := .inr ⟨rfl, List.prefix_append _ _⟩

theorem gatewayKey_surplus {keep : ℤ} {k : Key} (h : Surplus cr keep k) : GatewayKey cr k := by
  obtain ⟨hkind, hname⟩ := h
  rw [surplusName, Bool.and_eq_true, List.isPrefixOf_iff_prefix] at hname
  exact .inr ⟨hkind, hname.1⟩

/-- The base objects are not the gateway's. -/
theorem not_gatewayKey_base {w : Object} (h : w ∈ baseObjects cr) : ¬GatewayKey cr w.key := by
  have hno : ∀ suffix : GoString, suffix.take 4 ≠ Go.ascii "-sha" → ¬shardStem cr <+: cr.name ++ suffix := by
    intro suffix hne hpre
    rw [shardStem, List.prefix_append_right_inj] at hpre
    obtain ⟨rest, rfl⟩ := hpre
    exact hne rfl
  simp only [baseObjects, List.mem_cons, List.not_mem_nil, or_false] at h
  rcases h with rfl | rfl | rfl | rfl | rfl | rfl <;> rintro (⟨kind, hk⟩ | ⟨hk, hstem⟩)
  · cases hk
  · cases hk
  · cases hk
  · cases hk
  · cases hk
  · cases hk
  · cases hk
  · exact hno _ (by decide) hstem
  · cases hk
  · exact hno _ (by decide) hstem
  · cases hk
  · cases hk

/-! ### The settled pass -/

section

variable {G : Server → Server → Prop} {J : Server → Prop}

/-- A read. -/
theorem wp_get {k : Key} {Q : Object → Server → Prop} (hG : ∀ s, G s s) (hstable : Stable cr J) (hJ : J s)
    (h : ∀ s o, J s → s.get k = some o → Q o s) : wp (Rely cr.uid) Server.Serves G Q (api (.get k)) s := by
  refine wp_api hstable hJ fun s₁ r s₂ hJ₁ hr => ?_
  obtain ⟨rfl, hok, -⟩ := Server.serves_get hr
  exact ⟨hG _, fun o ho => h s₂ o hJ₁ (hok o ho)⟩

/-- The loop that ensures a list of objects: at the end all suit. -/
theorem wp_ensureAll_suits {owner : SimpleCacheResource} (howner : owner.uid = cr.uid) :
    ∀ {objs : List Object} {J : Server → Prop} {s : Server}, (objs.map Object.key).Nodup → (∀ w ∈ objs, Wanted cr w) →
      Stable cr J → J s → (∀ w ∈ objs, ∀ s s', J s → EnsureStep owner w s s' → G s s' ∧ J s') →
      wp (Rely cr.uid) Server.Serves G (fun _ s => J s ∧ ∀ w ∈ objs, s.Has cr.uid w.key (Suits w))
        (ensureAll owner objs) s
  | [], J, s, _, _, _, hJ, _ => ⟨hJ, nofun⟩
  | w :: rest, J, s, hnodup, hwanted, hstable, hJ, hstep => by
    rw [List.map_cons, List.nodup_cons] at hnodup
    have hens := wp_ensure_suits owner (hwanted w List.mem_cons_self) s
    rw [howner] at hens
    apply wp_bind
    refine wp_mono (fun _ s₁ h₁ => ?_) (wp_frame hstable (hstep w List.mem_cons_self) hJ hens)
    -- the rest of the list keeps what is there, for its keys differ
    have hrest : ∀ w' ∈ rest, ∀ s s', J s ∧ s.Has cr.uid w.key (Suits w) → EnsureStep owner w' s s' →
        G s s' ∧ J s' ∧ s'.Has cr.uid w.key (Suits w) := by
      intro w' hmem s s' h hs
      obtain ⟨hG, hJ'⟩ := hstep w' (List.mem_cons_of_mem _ hmem) s s' h.1 hs
      have hne : w.key ≠ w'.key := fun heq => hnodup.1 (heq ▸ List.mem_map_of_mem hmem)
      exact ⟨hG, hJ', h.2.same (hs.get_ne hne)⟩
    refine wp_mono (fun _ s₂ h₂ => ?_) (wp_ensureAll_suits howner hnodup.2
      (fun w' hw' => hwanted w' (List.mem_cons_of_mem _ hw')) (hstable.and stable_suits) ⟨h₁.2, h₁.1⟩ hrest)
    refine ⟨h₂.1.1, fun w' hmem => ?_⟩
    rcases List.mem_cons.mp hmem with rfl | hmem
    · exact h₂.1.2
    · exact h₂.2 w' hmem

end

/-- A program of the gateway. -/
abbrev Leaves (cr : SimpleCacheResource) (Q : α → Server → Prop) (p : M α) (s : Server) : Prop :=
  wp (Rely cr.uid) Server.Serves (Touches (GatewayKey cr)) Q p s

theorem EnsureStep.touches {owner : SimpleCacheResource} {w : Object} {K : Key → Prop} (h : EnsureStep owner w s s')
    (hk : K w.key) : Touches K s s' :=
  fun _ hne => h.get_ne fun heq => hne (heq ▸ hk)

/-- Ensuring an object again keeps it as it is wanted. -/
theorem EnsureStep.suits {owner : SimpleCacheResource} {w : Object} (h : EnsureStep owner w s s') (hw : Wanted cr w)
    (hs : s.Has owner.uid w.key (Suits w)) : s'.Has owner.uid w.key (Suits w) := by
  cases h with
  | same heq => exact heq ▸ hs
  | @put o st hm ha heq =>
    have hread : ∀ e, s.get w.key = some e → e.key = w.key := fun e he => Store.get_key he
    have hkey := (Object.admits_key ha).trans (mutate_key hread hm)
    exact heq ▸ ⟨st, ⟨s.store.get_put_of_eq hkey, (Object.admits_iff.mp ha).2.1.trans (mutate_controller hm)⟩,
      Suits.stored (suits_of_mutate hw hread hm) ha⟩

theorem shardService_key_inj {i j : ℤ} (h : (shardService cr i).key = (shardService cr j).key) : i = j :=
  Go.formatInt_injective (List.append_cancel_left (congrArg Key.name h))

/-- Ensuring a shard keeps the shards that are there. -/
theorem ShardsSuit.ensure {is : List ℤ} {ips : List GoString} {j : ℤ} (h : ShardsSuit cr s is ips)
    (hs : EnsureStep cr (shardService cr j) s s') : ShardsSuit cr s' is ips := by
  refine ⟨h.1.ensure hs, fun i hi => ?_⟩
  by_cases hk : (shardService cr i).key = (shardService cr j).key
  · obtain rfl := shardService_key_inj hk
    exact hs.suits (.shard i) (h.2 i hi)
  · exact (h.2 i hi).same (hs.get_ne hk)

theorem selector_of_suits {w o : Object} {spec : ServiceSpec} (h : Suits w o) (hw : w.body = .service spec) :
    o.selector = spec.selector := by
  unfold Suits at h
  rw [hw] at h
  generalize hb : o.body = b at h
  cases h with
  | service h =>
    rw [Object.selector, hb]
    exact (mutateService_ok h).1

theorem ShardsSuit.snoc {is : List ℤ} {ips : List GoString} {i : ℤ} {svc : Object} (h : ShardsSuit cr s is ips)
    (ho : s.Owned cr.uid (shardService cr i).key svc) (hs : Suits (shardService cr i) svc) (hip : svc.clusterIP ≠ []) :
    ShardsSuit cr s (is ++ [i]) (ips ++ [svc.clusterIP]) := by
  refine ⟨h.1.snoc ⟨hip, svc, ho, rfl, selector_of_suits hs rfl⟩, fun j hj => ?_⟩
  rcases List.mem_append.mp hj with hj | hj
  · exact h.2 j hj
  · rw [List.mem_singleton.mp hj]
    exact ⟨svc, ho, hs⟩

/-- The loop over the shards. -/
theorem leaves_shardAddresses : ∀ {rest done : List ℤ} {ips : List GoString} {s : Server}, ShardsSuit cr s done ips →
    Leaves cr (fun r s => ∀ ips', r = some ips' → ShardsSuit cr s (done ++ rest) ips') (shardAddresses cr rest ips) s
  | [], done, ips, s, h => by
    rintro ips' ⟨⟩
    rw [List.append_nil]
    exact h
  | i :: rest, done, ips, s, h => by
    apply wp_bind
    refine wp_mono (fun _ s₁ h₁ => ?_) (wp_frame stable_shardsSuit (fun s s' hJ hs => ⟨hs.touches (gatewayKey_shard i),
      ShardsSuit.ensure hJ hs⟩) h (wp_ensure_suits cr (.shard i) s))
    apply wp_bind
    refine wp_get touches_refl (stable_suits.and stable_shardsSuit) h₁ fun s₂ svc h₂ hget => ?_
    by_cases hip : svc.clusterIP = []
    · rw [if_pos hip]
      exact nofun
    · rw [if_neg hip]
      obtain ⟨o, ho, hsuits⟩ := h₂.1
      obtain rfl := Option.some.inj (hget.symm.trans ho.1)
      have hnext : Leaves cr _ (shardAddresses cr rest (ips ++ [svc.clusterIP])) s₂ :=
        leaves_shardAddresses (h₂.2.snoc ho hsuits hip)
      rw [List.append_assoc] at hnext
      exact hnext

theorem touches_remove {K : Key → Prop} {k : Key} (hk : K k) (h : s' = s ∨ s' = s.remove k) : Touches K s s' := by
  rcases h with rfl | rfl
  · exact touches_refl _
  · exact fun k' hne => Server.get_remove_ne fun heq => hne (heq ▸ hk)

/-- `deleteObject` for a key of the gateway. -/
theorem leaves_deleteObject {k : Key} {J : Server → Prop} (hk : GatewayKey cr k) (hstable : Stable cr J) (hJ : J s)
    (hkeep : ∀ s, J s → J (s.remove k)) : Leaves cr (fun _ s => J s) (deleteObject k) s := by
  apply wp_bind
  refine wp_request hstable hJ fun s₁ r s₂ hJ₁ hr => ?_
  obtain ⟨hcases, -⟩ := Server.serves_delete hr
  have hJ₂ : J s₂ := by
    rcases hcases with rfl | rfl
    · exact hJ₁
    · exact hkeep s₁ hJ₁
  refine ⟨touches_remove hk hcases, ?_⟩
  cases r with
  | ok _ => exact hJ₂
  | error e =>
    cases e with
    | notFound => exact hJ₂
    | alreadyExists | conflict | other => trivial

/-- The loop of `removeShardServices` deletes surplus Services only. -/
theorem leaves_removeObsolete {keep : ℤ} {J : Server → Prop} (hstable : Stable cr J)
    (hkeep : ∀ s k, J s → Surplus cr keep k → J (s.remove k)) :
    ∀ {items : List Object} {s : Server}, (∀ svc ∈ items, svc.body.kind = .service) → J s →
      Leaves cr (fun _ s => J s) (removeObsolete cr keep items) s
  | [], _, _, hJ => hJ
  | svc :: items, s, hkind, hJ => by
    have hrest : ∀ {s}, J s → Leaves cr (fun _ s => J s) (removeObsolete cr keep items) s := fun hJ =>
      leaves_removeObsolete hstable hkeep (fun svc' hmem => hkind svc' (List.mem_cons_of_mem _ hmem)) hJ
    rw [removeObsolete]
    by_cases hobs : obsolete cr keep svc = true
    · rw [if_pos hobs]
      have hsurplus : Surplus cr keep svc.key := ⟨hkind svc List.mem_cons_self, (obsolete_iff.mp hobs).2⟩
      apply wp_bind
      exact wp_mono (fun _ _ => hrest)
        (leaves_deleteObject (gatewayKey_surplus hsurplus) hstable hJ fun s hs => hkeep s _ hs hsurplus)
    · rw [if_neg hobs]
      exact hrest hJ

theorem leaves_removeShardServices {keep : ℤ} {J : Server → Prop} (hstable : Stable cr J) (hJ : J s)
    (hkeep : ∀ s k, J s → Surplus cr keep k → J (s.remove k)) :
    Leaves cr (fun _ s => J s) (removeShardServices cr keep) s := by
  apply wp_bind
  refine wp_api hstable hJ fun s₁ r s₂ hJ₁ hr => ?_
  obtain ⟨rfl, hitems⟩ := Server.serves_listServices hr
  refine ⟨touches_refl _, fun items hok => leaves_removeObsolete hstable hkeep (fun svc hmem => ?_) hJ₁⟩
  rw [← Multiset.mem_coe, hitems items hok] at hmem
  exact (Store.mem_services.mp hmem).2

/-- The loop of `removeGateway`. -/
theorem leaves_removeKinds : ∀ {kinds : List GatewayKind} {s : Server},
    Leaves cr (fun _ _ => True) (removeKinds cr kinds) s
  | [], _ => trivial
  | kind :: rest, s => by
    apply wp_bind
    refine wp_request (P := fun _ => True) (fun _ _ _ _ => trivial) trivial fun s₁ r s₂ _ hr => ?_
    obtain ⟨rfl, -, -⟩ := Server.serves_get hr
    refine ⟨touches_refl _, ?_⟩
    cases r with
    | error e =>
      cases e with
      | notFound => exact leaves_removeKinds
      | alreadyExists | conflict | other => trivial
    | ok o =>
      by_cases hc : o.controlledBy cr = true
      · simp only [if_pos hc]
        apply wp_bind
        exact wp_mono (fun _ _ _ => leaves_removeKinds) (leaves_deleteObject (J := fun _ => True) (.inl ⟨kind, rfl⟩)
          (fun _ _ _ _ => trivial) trivial fun _ _ => trivial)
      · simp only [if_neg hc]
        exact leaves_removeKinds

theorem leaves_removeGateway {enableGateway : Bool} : Leaves cr (fun _ _ => True) (removeGateway enableGateway cr) s := by
  unfold removeGateway
  cases enableGateway with
  | false => trivial
  | true =>
    apply wp_bind
    exact wp_mono (fun _ _ _ => leaves_removeShardServices (J := fun _ => True) (fun _ _ _ _ => trivial) trivial
      fun _ _ _ _ => trivial) leaves_removeKinds

theorem leaves_gatewayMessage {J : Server → Prop} (hstable : Stable cr J) :
    ∀ {kinds : List GatewayKind} {s : Server}, J s → Leaves cr (fun _ s => J s) (gatewayMessage cr kinds) s
  | [], _, hJ => hJ
  | kind :: rest, s, hJ => by
    apply wp_bind
    refine wp_get touches_refl hstable hJ fun s₁ o hJ₁ _ => ?_
    by_cases hready : gatewayReady cr kind o = true
    · rw [if_pos hready]
      exact leaves_gatewayMessage hstable hJ₁
    · rw [if_neg hready]
      exact hJ₁

/-- The gateway of the spec, with the addresses of its shards. -/
def GatewaySuits (cr : SimpleCacheResource) (g : GatewaySpec) (ips : List GoString) (s : Server) : Prop :=
  ShardsSuit cr s (ordinals cr.spec.size) ips ∧ ∀ w ∈ gatewayResources cr g ips, s.Has cr.uid w.key (Suits w)

theorem stable_gatewaySuits {g : GatewaySpec} {ips : List GoString} : Stable cr (GatewaySuits cr g ips) :=
  fun s s' h hr => ⟨stable_shardsSuit s s' h.1 hr, fun w hw => stable_suits s s' (h.2 w hw) hr⟩

theorem GatewaySuits.remove {g : GatewaySpec} {ips : List GoString} {k : Key} (hsize : cr.spec.size ≤ 10)
    (h : GatewaySuits cr g ips s) (hk : Surplus cr cr.spec.size k) : GatewaySuits cr g ips (s.remove k) := by
  refine ⟨h.1.same fun i hi => Server.get_remove_ne ?_, fun w hw => (h.2 w hw).same (Server.get_remove_ne ?_)⟩
  · rintro rfl
    obtain ⟨h0, hlt⟩ := mem_ordinals.mp hi
    have hle := (surplus_shardKey h0 (by omega)).mp hk
    omega
  · obtain ⟨kind, spec, rfl, -⟩ := mem_gatewayResources hw
    rintro rfl
    cases hk.1

/-- `reconcileGateway`, past the wait for an address. -/
theorem leaves_reconcileGateway {g : GatewaySpec} (hsize : cr.spec.size ≤ 10) :
    Leaves cr (fun message s => message ≠ waitingForAddresses → ∃ ips, GatewaySuits cr g ips s)
      (reconcileGateway cr g) s := by
  apply wp_bind
  refine wp_mono (fun r s₁ h₁ => ?_) (leaves_shardAddresses ⟨.nil, by simp⟩)
  cases r with
  | none => exact fun hne => absurd rfl hne
  | some ips =>
    have hshards : ShardsSuit cr s₁ (ordinals cr.spec.size) ips := h₁ ips rfl
    have hnodup : ((gatewayResources cr g ips).map Object.key).Nodup := by
      simp [gatewayResources, key_gatewayResource]
    apply wp_bind
    refine wp_mono (fun _ s₂ h₂ => ?_) (wp_ensureAll_suits rfl hnodup (fun w hw => .gateway g ips hw) stable_shardsSuit
      hshards fun w hw s s' hJ hs => ?_)
    · apply wp_bind
      refine wp_mono (fun _ s₃ h₃ => ?_) (leaves_removeShardServices stable_gatewaySuits h₂
        fun s k h hk => GatewaySuits.remove hsize h hk)
      exact wp_mono (fun _ s₄ h₄ _ => ⟨ips, h₄⟩) (leaves_gatewayMessage stable_gatewaySuits h₃)
    · obtain ⟨kind, spec, rfl, -⟩ := mem_gatewayResources hw
      exact ⟨hs.touches (.inl ⟨kind, rfl⟩), hJ.same fun i _ => hs.get_ne (by rintro ⟨⟩)⟩

/-- A status that is set touches no object. -/
theorem leaves_failWith {r : StoredResource} {reason : OpErr → String} {e : OpErr} {Q : α → Server → Prop} :
    Leaves cr Q (failWith r reason e) s := by
  apply wp_bind
  unfold setStatus
  dsimp only
  split_ifs
  · trivial
  · refine wp_api (P := fun _ => True) (fun _ _ _ _ => trivial) trivial fun s₁ x s₂ _ hx => ⟨?_, fun _ _ => trivial⟩
    rcases Server.serves_patchStatus hx with rfl | ⟨y, -, rfl⟩
    · exact touches_refl _
    · exact fun _ _ => rfl

theorem leaves_gatewayPart {enableGateway : Bool} {r : StoredResource} (hsize : cr.spec.size ≤ 10) :
    Leaves cr (fun message s => ∀ g, cr.spec.gateway = some g → message ≠ waitingForAddresses →
      ∃ ips, GatewaySuits cr g ips s) (gatewayPart enableGateway r cr) s := by
  unfold gatewayPart
  cases hg : cr.spec.gateway with
  | some g =>
    refine wp_handle (fun e s => leaves_failWith) (wp_mono (fun message s₁ h => ?_) (leaves_reconcileGateway hsize))
    rintro g' ⟨⟩
    exact h
  | none =>
    apply wp_bind
    exact wp_mono (fun _ _ _ => nofun) leaves_removeGateway

theorem aboutStore_has {k : Key} {P : Object → Prop} : AboutStore fun s => s.Has cr.uid k P :=
  fun _ _ hs h => h.same (congrArg (Store.get · k) hs)

theorem aboutStore_gatewaySuits {g : GatewaySpec} {ips : List GoString} : AboutStore (GatewaySuits cr g ips) :=
  fun s s' hs h => ⟨h.1.same fun _ _ => congrArg (Store.get · _) hs, fun w hw => aboutStore_has s s' hs (h.2 w hw)⟩

theorem aboutStore_tended {enableGateway : Bool} {ips : List GoString} : AboutStore (Tended enableGateway cr ips) :=
  fun s s' hs h => ⟨fun w hw => aboutStore_has s s' hs (h.base w hw),
    fun hg => (h.shards hg).same fun _ _ => congrArg (Store.get · _) hs,
    fun g hg w hw => aboutStore_has s s' hs (h.gateway g hg w hw),
    fun hg k hk => (h.surplus hg k hk).same (congrArg (Store.get · k) hs),
    fun hg he => aboutStore_bare s s' hs (h.bare hg he)⟩

/-- What a pass that gets to its end leaves. -/
def Left (cr : SimpleCacheResource) (message : String) (s : Server) : Prop :=
  (∀ w ∈ baseObjects cr, s.Has cr.uid w.key (Suits w)) ∧
    ∀ g, cr.spec.gateway = some g → message ≠ waitingForAddresses → ∃ ips, GatewaySuits cr g ips s

theorem stable_left {message : String} : Stable cr (Left cr message) := fun s s' h hr =>
  ⟨fun w hw => stable_suits s s' (h.1 w hw) hr, fun g hg hm => by
    obtain ⟨ips, hips⟩ := h.2 g hg hm
    exact ⟨ips, stable_gatewaySuits s s' hips hr⟩⟩

theorem aboutStore_left {message : String} : AboutStore (Left cr message) := fun s s' hs h =>
  ⟨fun w hw => aboutStore_has s s' hs (h.1 w hw), fun g hg hm => by
    obtain ⟨ips, hips⟩ := h.2 g hg hm
    exact ⟨ips, aboutStore_gatewaySuits s s' hs hips⟩⟩

theorem wp_reconcileObjects_left {enableGateway : Bool} {r : StoredResource} (hsize : (defaults r.cr).spec.size ≤ 10) :
    wp (Rely r.cr.uid) Server.Serves (fun _ _ => True)
      (fun o s => ∀ desired message, o = .settled desired message → Left desired message s)
      (reconcileObjects enableGateway r (defaults r.cr)) s := by
  apply wp_bind
  have hbase : wp (Rely (defaults r.cr).uid) Server.Serves (fun _ _ => True)
      (fun _ s => True ∧ ∀ w ∈ baseObjects (defaults r.cr), s.Has (defaults r.cr).uid w.key (Suits w))
      (ensureAll r.cr (baseObjects (defaults r.cr))) s :=
    wp_ensureAll_suits (J := fun _ => True) rfl nodup_baseObjects (fun _ hw => .base hw) (fun _ _ _ _ => trivial) trivial
      fun _ _ _ _ _ _ => ⟨trivial, trivial⟩
  refine wp_handle (fun e s => ?_) (wp_mono (fun _ s₁ h₁ => ?_) hbase)
  · exact wp_weaken (fun _ _ _ => trivial) (leaves_failWith : Leaves (defaults r.cr) _ _ _)
  · apply wp_bind
    have hgateway : Leaves (defaults r.cr) _ (gatewayPart enableGateway r (defaults r.cr)) s₁ :=
      leaves_gatewayPart hsize
    -- the gateway leaves the base objects
    have hframe := wp_frame (J := fun s => ∀ w ∈ baseObjects (defaults r.cr), s.Has (defaults r.cr).uid w.key (Suits w))
      (fun s s' h hr w hw => stable_suits s s' (h w hw) hr)
      (fun s s' h ht => ⟨trivial, fun w hw => (h w hw).same (ht w.key (not_gatewayKey_base hw))⟩) h₁.2 hgateway
    refine wp_mono (fun message s₂ h₂ => ?_) hframe
    apply wp_bind
    refine wp_mono (fun _ s₃ h₃ => ?_) (wp_weaken (fun _ _ _ => trivial)
      (verifies_reportStatus stable_left aboutStore_left (J := Left (defaults r.cr) message) ⟨h₂.2, h₂.1⟩))
    rintro desired message' ⟨⟩
    exact h₃

theorem wp_reconcileResource_left {names : NameChecks} {enableGateway : Bool} {r : StoredResource} :
    wp (Rely r.cr.uid) Server.Serves (fun _ _ => True)
      (fun o s => ∀ desired message, o = .settled desired message → Left desired message s)
      (reconcileResource names enableGateway r) s := by
  unfold reconcileResource
  split_ifs
  · rintro desired message ⟨⟩
  · cases hvalid : validateSpec names (defaults r.cr) with
    | error text =>
      apply wp_bind
      refine wp_mono (fun _ _ _ => ?_) (wp_true _ _)
      rintro desired message ⟨⟩
    | ok _ =>
      apply wp_bind
      refine wp_mono (fun refusal s₁ _ => ?_) (wp_true _ _)
      cases refusal with
      | some text =>
        apply wp_bind
        refine wp_mono (fun _ _ _ => ?_) (wp_true _ _)
        rintro desired message ⟨⟩
      | none => exact wp_reconcileObjects_left (validateSpec_ok hvalid).2.2.2.size.2

/-- What a pass has left and what it has reached, together. -/
theorem Left.tended {message : String} (hleft : Left cr message s) (hreached : Reached true cr message s)
    (hmessage : message ≠ waitingForAddresses) : ∃ ips, Tended true cr ips s := by
  cases hg : cr.spec.gateway with
  | none =>
    have hno : ¬cr.spec.gateway ≠ none := not_not.mpr hg
    exact ⟨[], hleft.1, fun h => absurd h hno, fun g h => absurd (hg.symm.trans h) nofun, fun h => absurd h hno,
      fun _ _ => hreached.bare hg rfl⟩
  | some g =>
    obtain ⟨ips, hshards, hgateway⟩ := hleft.2 g hg hmessage
    refine ⟨ips, hleft.1, fun _ => hshards, fun g' hg' => ?_, fun h => (hreached.sharded h hmessage).2,
      fun h => absurd (hg.symm.trans h) nofun⟩
    obtain rfl := Option.some.inj (hg.symm.trans hg')
    exact hgateway

end SimpleCache.Operator
