import SimpleCache.Operator.Ownership
import SimpleCache.Operator.Reconcile

/-!
# Operator.Shards — no route to a deleted shard

`Guar` is what every call of a pass keeps: foreign objects, the resource but for its status, that controlled objects have
the names of the controller, and `Safe`: every address of the controlled Backend is the ClusterIP of a controlled shard
Service.  The programs of a pass are verified from the inside out; a deletion is where `Safe` is at stake, and the
assertion there is that the Backend names only shards that are kept, or that there is no Backend.
-/

namespace SimpleCache.Operator

open Lib (Prog Run)
open Lib.Prog (wp wp_bind wp_mono wp_request wp_ofExcept wp_frame wp_handle)

/-! ### Names -/

/-- The key of a shard Service. -/
def shardKey (n : GoString) (i : ℤ) : Key := ⟨.service, n ++ Go.ascii "-shard-" ++ Go.formatInt i⟩

def backendKey (n : GoString) : Key := ⟨.gateway .backend, n⟩

theorem shardKey_inj {n : GoString} {i j : ℤ} (h : shardKey n i = shardKey n j) : i = j :=
  Go.formatInt_injective (List.append_cancel_left (congrArg Key.name h))

/-- The keys of the objects that the controller creates for the resource `n`. -/
inductive OwnKey (n : GoString) : Key → Prop
  | account : OwnKey n ⟨.serviceAccount, n ++ Go.ascii "-cache"⟩
  | role : OwnKey n ⟨.role, n ++ Go.ascii "-discovery"⟩
  | binding : OwnKey n ⟨.roleBinding, n ++ Go.ascii "-discovery"⟩
  | cluster : OwnKey n ⟨.service, n ++ Go.ascii "-svc"⟩
  | api : OwnKey n ⟨.service, n ++ Go.ascii "-api"⟩
  | statefulSet : OwnKey n ⟨.statefulSet, n⟩
  | shard {i : ℤ} : 0 ≤ i → i < 10 → OwnKey n (shardKey n i)
  | gateway (kind : GatewayKind) : OwnKey n ⟨.gateway kind, n⟩

/-- A suffix that is not a shard's gives another key. -/
theorem shardKey_ne {n : GoString} {suffix : GoString} (h : suffix.take 4 ≠ Go.ascii "-sha") (i : ℤ) :
    (⟨.service, n ++ suffix⟩ : Key) ≠ shardKey n i := by
  intro heq
  have hname : n ++ suffix = n ++ (Go.ascii "-shard-" ++ Go.formatInt i) := by
    rw [← List.append_assoc]
    exact congrArg Key.name heq
  apply h
  rw [List.append_cancel_left hname]
  rfl

/-! ### The addresses of a Backend -/

/-- The address of an endpoint. -/
def endpointAddress (e : Json) : Option GoString := ((e.field "ip").field "address").text

/-- The addresses of the endpoints of a Backend spec. -/
def backendAddresses (spec : Json) : List GoString := (spec.field "endpoints").items.filterMap endpointAddress

theorem backendAddresses_backendSpec (ips : List GoString) : backendAddresses (backendSpec ips) = ips := by
  simp [backendAddresses, endpointAddress, backendSpec, Json.field, Json.lookup, Json.items, List.filterMap_map,
    Function.comp_def, Json.text]

theorem addresses_of_subset : ∀ (ips : List GoString) (items : List Json), Json.subsetItems items
      (ips.map fun ip => .obj [("ip", .obj [("address", .str ip), ("port", .int 9999)])]) = true →
    items.filterMap endpointAddress = ips
  | [], [], _ => rfl
  | [], _ :: _, h => by simp [Json.subsetItems] at h
  | _ :: _, [], h => by simp [Json.subsetItems] at h
  | ip :: ips, e :: items, h => by
    rw [List.map_cons, Json.subsetItems, Bool.and_eq_true] at h
    have hip := Json.desiredSubset_field h.1 (k := "ip") List.mem_cons_self
    have haddress := Json.desiredSubset_field hip (k := "address") List.mem_cons_self
    have htext : endpointAddress e = some ip := by
      rw [endpointAddress, Json.desiredSubset_str haddress]
      rfl
    rw [List.filterMap_cons_some htext, addresses_of_subset ips items h.2]

/-- Whatever extends the spec of a Backend has exactly its addresses, for arrays are compared exactly. -/
theorem backendAddresses_of_subset {spec : Json} {ips : List GoString}
    (h : Json.desiredSubset spec (backendSpec ips) = true) : backendAddresses spec = ips := by
  have hend := Json.desiredSubset_field h (k := "endpoints") List.mem_cons_self
  obtain ⟨items, hitems, hsub⟩ := Json.desiredSubset_arr hend
  rw [backendAddresses, hitems]
  exact addresses_of_subset ips items hsub

theorem nullFree_backendSpec (ips : List GoString) : Json.nullFree (backendSpec ips) = true := by
  have hitems : Json.nullFreeItems
      (ips.map fun ip => .obj [("ip", .obj [("address", .str ip), ("port", .int 9999)])]) = true := by
    induction ips with
    | nil => rfl
    | cons ip ips ih =>
      rw [List.map_cons, Json.nullFreeItems, ih]
      rfl
  simp [backendSpec, Json.nullFree, Json.nullFreeEntries, hitems]

/-- What fits the wanted Backend has its addresses. -/
theorem Fits.addresses {cr : SimpleCacheResource} {ips : List GoString} {o : Object}
    (h : Fits (gatewayResource cr .backend (backendSpec ips)) o) : backendAddresses o.spec = ips := by
  rcases h.spec _ _ _ rfl (nullFree_backendSpec ips) with heq | hsub
  · rw [heq, backendAddresses_backendSpec]
  · exact backendAddresses_of_subset hsub

/-! ### The guarantee -/

/-- The controlled objects have the names of the controller. -/
def Created (n u : GoString) (s : Server) : Prop := ∀ k o, s.Owned u k o → OwnKey n k

/-- Every address of the controlled Backend is the ClusterIP of a controlled shard Service with an ordinal in `I`. -/
def RoutesTo (n u : GoString) (I : ℤ → Prop) (s : Server) : Prop := ∀ b, s.Owned u (backendKey n) b →
  ∀ ip ∈ backendAddresses b.spec, ip ≠ [] ∧ ∃ i, I i ∧ s.Has u (shardKey n i) fun svc => svc.clusterIP = ip

/-- Every address of the controlled Backend is the ClusterIP of a controlled shard Service. -/
def Safe (n u : GoString) (s : Server) : Prop := RoutesTo n u (0 ≤ ·) s

/-- What every call of a pass keeps. -/
structure Guar (n u : GoString) (s s' : Server) : Prop where
  foreign : ∀ k o, s.get k = some o → o.controller ≠ some u → s'.get k = some o
  resource : s'.resource.map StoredResource.sansStatus = s.resource.map StoredResource.sansStatus
  classes : s'.classes = s.classes
  created : Created n u s → Created n u s'
  safe : Safe n u s → Safe n u s'

section

variable {n u : GoString} {s s' : Server}

theorem clusterIP_stable {ip : GoString} (hip : ip ≠ []) (o o' : Object) (hd : o.drifts o' = true)
    (h : o.clusterIP = ip) : o'.clusterIP = ip := by
  subst h
  exact Object.drifts_clusterIP hd hip

theorem Created.rely (h : Created n u s) (hr : Rely u s s') : Created n u s' := by
  intro k o' ho'
  obtain ⟨o, ho⟩ := hr.none_new k o' ho'
  exact h k o ho

theorem RoutesTo.rely {I : ℤ → Prop} (h : RoutesTo n u I s) (hr : Rely u s s') : RoutesTo n u I s' := by
  intro b' hb' ip hmem
  obtain ⟨b, hb⟩ := hr.none_new _ b' hb'
  obtain ⟨b'', hb'', hd⟩ := hr.kept _ b hb
  obtain rfl := hb'.unique hb''
  rw [Object.drifts_spec hd] at hmem
  obtain ⟨hip, i, hI, hi⟩ := h b hb ip hmem
  exact ⟨hip, i, hI, hi.rely (clusterIP_stable hip) hr⟩

theorem RoutesTo.imp {I I' : ℤ → Prop} (h : RoutesTo n u I s) (hI : ∀ i, I i → I' i) : RoutesTo n u I' s := by
  intro b hb ip hmem
  obtain ⟨hip, i, hi, hsvc⟩ := h b hb ip hmem
  exact ⟨hip, i, hI i hi, hsvc⟩

/-- The routes depend on the Backend and on the shards they lead to. -/
theorem RoutesTo.same {I : ℤ → Prop} (h : RoutesTo n u I s) (hb : s'.get (backendKey n) = s.get (backendKey n))
    (hs : ∀ i, I i → s'.get (shardKey n i) = s.get (shardKey n i)) : RoutesTo n u I s' := by
  intro b hb' ip hmem
  obtain ⟨hip, i, hI, hi⟩ := h b ⟨hb.symm.trans hb'.1, hb'.2⟩ ip hmem
  exact ⟨hip, i, hI, hi.same (hs i hI)⟩

/-- Without a Backend there are no routes. -/
theorem routesTo_of_lacks {I : ℤ → Prop} (h : s.Lacks u (backendKey n)) : RoutesTo n u I s :=
  fun b hb => absurd hb (h b)

/-- A call that leaves the objects keeps everything. -/
theorem guar_of_store (hstore : s'.store = s.store) (hclasses : s'.classes = s.classes)
    (hres : s'.resource.map StoredResource.sansStatus = s.resource.map StoredResource.sansStatus) : Guar n u s s' := by
  have hget : ∀ k, s'.get k = s.get k := fun k => congrArg (Store.get · k) hstore
  have howned : ∀ {k o}, s'.Owned u k o ↔ s.Owned u k o := by
    intro k o
    rw [Server.Owned, Server.Owned, hget]
  exact ⟨fun k o ho _ => (hget k).trans ho, hres, hclasses, fun h k o ho => h k o (howned.mp ho),
    fun h => h.same (hget _) fun _ _ => hget _⟩

theorem guar_refl (s : Server) : Guar n u s s := guar_of_store rfl rfl rfl

/-- A step of `ensure` under a key of the controller keeps everything, if it keeps the routes safe. -/
theorem guar_of_ensureStep {owner : SimpleCacheResource} {wanted : Object} (h : EnsureStep owner wanted s s')
    (hkey : OwnKey n wanted.key) (hsafe : Safe n owner.uid s → Safe n owner.uid s') : Guar n owner.uid s s' where
  foreign _ _ ho hc := h.foreign ho hc
  resource := by rw [h.resource.1]
  classes := h.resource.2
  created hcr k o ho := by
    by_cases hk : k = wanted.key
    · exact hk ▸ hkey
    · exact hcr k o ⟨(h.get_ne hk).symm.trans ho.1, ho.2⟩
  safe := hsafe

/-- The deletion of a controlled object keeps everything, if it keeps the routes safe. -/
theorem guar_remove {k : Key} (h : s.Has u k fun _ => True) (hsafe : Safe n u s → Safe n u (s.remove k)) :
    Guar n u s (s.remove k) where
  foreign k' o ho hc := by
    obtain ⟨o', ho', -⟩ := h
    have hne : k' ≠ k := by
      rintro rfl
      rw [Option.some.inj (ho.symm.trans ho'.1)] at hc
      exact hc ho'.2
    rw [Server.get_remove_ne hne, ho]
  resource := rfl
  classes := rfl
  created hcr k' o ho := by
    by_cases hk : k' = k
    · subst hk
      cases (s.store.get_remove k').symm.trans ho.1
    · exact hcr k' o ⟨(Server.get_remove_ne hk).symm.trans ho.1, ho.2⟩
  safe := hsafe

end

/-! ### Shards and their addresses -/

section

variable {cr : SimpleCacheResource} {s s' : Server}

/-- The shard `i` is there with the address `ip` and selects its Pod. -/
def ShardAt (cr : SimpleCacheResource) (s : Server) (i : ℤ) (ip : GoString) : Prop :=
  ip ≠ [] ∧ s.Has cr.uid (shardKey cr.name i) fun svc => svc.clusterIP = ip ∧ svc.selector = shardSelector cr i

theorem ShardAt.rely {i : ℤ} {ip : GoString} (h : ShardAt cr s i ip) (hr : Rely cr.uid s s') : ShardAt cr s' i ip := by
  refine ⟨h.1, h.2.rely (fun o o' hd ho => ?_) hr⟩
  exact ⟨clusterIP_stable h.1 o o' hd ho.1, (Object.drifts_selector hd).trans ho.2⟩

theorem ShardAt.same {i : ℤ} {ip : GoString} (h : ShardAt cr s i ip)
    (heq : s'.get (shardKey cr.name i) = s.get (shardKey cr.name i)) : ShardAt cr s' i ip :=
  ⟨h.1, h.2.same heq⟩

theorem EnsureStep.shard_ip {i : ℤ} {ip : GoString} (h : EnsureStep cr (shardService cr i) s s') (hip : ip ≠ [])
    (hs : s.Has cr.uid (shardKey cr.name i) fun svc => svc.clusterIP = ip) :
    s'.Has cr.uid (shardKey cr.name i) fun svc => svc.clusterIP = ip := by
  obtain ⟨e, he, rfl⟩ := hs
  have hnone : (apiServiceSpec cr).clusterIP ≠ Go.ascii "None" := nofun
  obtain ⟨st, hst, hsame⟩ := h.clusterIP rfl hnone he.1 hip
  refine ⟨st, ⟨hst, ?_⟩, hsame⟩
  rcases h.cases_put with rfl | ⟨st', rfl, hkey, hc, -⟩
  · rw [Option.some.inj (hst.symm.trans he.1)]
    exact he.2
  · rw [Option.some.inj (hst.symm.trans (s.store.get_put_of_eq hkey))]
    exact hc

/-- Ensuring a shard keeps the addresses of all. -/
theorem ShardAt.ensure {i j : ℤ} {ip : GoString} (h : ShardAt cr s i ip) (hs : EnsureStep cr (shardService cr j) s s') :
    ShardAt cr s' i ip := by
  by_cases hij : i = j
  · subst hij
    obtain ⟨svc, hsvc, hip⟩ := hs.shard_ip h.1 (h.2.imp fun _ ho => ho.1)
    refine ⟨h.1, svc, hsvc, hip, ?_⟩
    rcases hs.cases_put with rfl | ⟨st, rfl, hkey, -, hfits, -⟩
    · obtain ⟨o, ho, -, hsel⟩ := h.2
      rw [hsvc.unique ho]
      exact hsel
    · rw [Option.some.inj (hsvc.1.symm.trans (s.store.get_put_of_eq hkey))]
      exact hfits.selector
  · exact h.same (hs.get_ne fun hk => hij (shardKey_inj hk))

/-- Ensuring a shard keeps the routes safe. -/
theorem safe_ensure_shard {i : ℤ} (hs : EnsureStep cr (shardService cr i) s s') (h : Safe cr.name cr.uid s) :
    Safe cr.name cr.uid s' := by
  have hb : s'.get (backendKey cr.name) = s.get (backendKey cr.name) := hs.get_ne nofun
  intro b hb' ip hmem
  obtain ⟨hip, j, h0, hj⟩ := h b ⟨hb.symm.trans hb'.1, hb'.2⟩ ip hmem
  refine ⟨hip, j, h0, ?_⟩
  by_cases hij : j = i
  · subst hij
    exact hs.shard_ip hip hj
  · exact hj.same (hs.get_ne fun hk => hij (shardKey_inj hk))

/-- The shards of the ordinals are there with the addresses. -/
def Addressed (cr : SimpleCacheResource) (s : Server) (is : List ℤ) (ips : List GoString) : Prop :=
  List.Forall₂ (fun i ip => ShardAt cr s i ip) is ips

theorem Addressed.rely {is : List ℤ} {ips : List GoString} (h : Addressed cr s is ips) (hr : Rely cr.uid s s') :
    Addressed cr s' is ips :=
  h.imp fun _ _ hi => hi.rely hr

theorem Addressed.same {is : List ℤ} {ips : List GoString} (h : Addressed cr s is ips)
    (heq : ∀ i ∈ is, s'.get (shardKey cr.name i) = s.get (shardKey cr.name i)) : Addressed cr s' is ips := by
  induction h with
  | nil => exact .nil
  | cons hi _ ih =>
    exact .cons (hi.same (heq _ List.mem_cons_self)) (ih fun i hmem => heq i (List.mem_cons_of_mem _ hmem))

theorem Addressed.ensure {is : List ℤ} {ips : List GoString} {j : ℤ} (h : Addressed cr s is ips)
    (hs : EnsureStep cr (shardService cr j) s s') : Addressed cr s' is ips :=
  h.imp fun _ _ hi => hi.ensure hs

theorem Addressed.snoc {is : List ℤ} {ips : List GoString} {i : ℤ} {ip : GoString} (h : Addressed cr s is ips)
    (hi : ShardAt cr s i ip) : Addressed cr s (is ++ [i]) (ips ++ [ip]) :=
  List.rel_append h (.cons hi .nil)

/-- Every address is one of a shard. -/
theorem Addressed.exists_of_mem {is : List ℤ} {ips : List GoString} (h : Addressed cr s is ips) :
    ∀ ip ∈ ips, ∃ i ∈ is, ShardAt cr s i ip := by
  induction h with
  | nil => exact nofun
  | cons hi _ ih =>
    rintro ip (_ | ⟨_, hmem⟩)
    · exact ⟨_, List.mem_cons_self, hi⟩
    · obtain ⟨i, hi', hip⟩ := ih ip hmem
      exact ⟨i, List.mem_cons_of_mem _ hi', hip⟩

/-- Every shard has an address. -/
theorem Addressed.exists_of_mem_left {is : List ℤ} {ips : List GoString} (h : Addressed cr s is ips) :
    ∀ i ∈ is, ∃ ip ∈ ips, ShardAt cr s i ip := by
  induction h with
  | nil => exact nofun
  | cons hi _ ih =>
    rintro i (_ | ⟨_, hmem⟩)
    · exact ⟨_, List.mem_cons_self, hi⟩
    · obtain ⟨ip, hip, hi'⟩ := ih i hmem
      exact ⟨ip, List.mem_cons_of_mem _ hip, hi'⟩

/-- A Backend with the addresses of the shards routes to them. -/
theorem Addressed.routesTo {is : List ℤ} {ips : List GoString} (h : Addressed cr s is ips) {I : ℤ → Prop}
    (hI : ∀ i ∈ is, I i) (hb : ∀ b, s.Owned cr.uid (backendKey cr.name) b → backendAddresses b.spec = ips) :
    RoutesTo cr.name cr.uid I s := by
  intro b hown ip hmem
  rw [hb b hown] at hmem
  obtain ⟨i, hi, hip⟩ := h.exists_of_mem ip hmem
  exact ⟨hip.1, i, hI i hi, hip.2.imp fun _ ho => ho.1⟩

end

end SimpleCache.Operator
