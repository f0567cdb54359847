import SimpleCache.Operator.Extension
import SimpleCache.Operator.Reconcile

/-!
# Operator.Idempotence — what `ensure` changes in an existing object (`simplecache_controller.go`, `template.go`)

The mutation of `ensure` is a merge per kind.  Each merge is idempotent, and `ServiceFrame` and `StatefulSetFrame` say
which fields it leaves alone; `ensure_mutation` is both for every object that `Reconcile` wants.
-/

namespace SimpleCache.Operator

/-- The objects that `Reconcile` wants for a resource. -/
inductive Wanted (cr : SimpleCacheResource) : Object → Prop
  | base {o : Object} (h : o ∈ baseObjects cr) : Wanted cr o
  | shard (ordinal : ℤ) : Wanted cr (shardService cr ordinal)
  | gateway {o : Object} (g : GatewaySpec) (ips : List GoString) (h : o ∈ gatewayResources cr g ips) : Wanted cr o

/-! ### The merge of the template -/

/-- A container with all that `mergeTemplate` sets. -/
def Container.Carries (c wanted : Container) : Prop := c = { wanted with rest := c.rest }

section Containers

variable (wanted : Container)

theorem mergeContainers_idem : ∀ cs : List Container,
    mergeContainers wanted (mergeContainers wanted cs) = mergeContainers wanted cs
  | [] => by simp [mergeContainers]
  | c :: cs => by
    by_cases hname : c.name = wanted.name
    · simp [mergeContainers, hname]
    · simp only [mergeContainers, if_neg hname]
      rw [mergeContainers_idem cs]

/-- The other containers stay, in their order. -/
theorem mergeContainers_filter : ∀ cs : List Container,
    (mergeContainers wanted cs).filter (fun c => c.name ≠ wanted.name) = cs.filter fun c => c.name ≠ wanted.name
  | [] => by simp [mergeContainers]
  | c :: cs => by
    by_cases hname : c.name = wanted.name
    · simp [mergeContainers, hname]
    · rw [mergeContainers, if_neg hname, List.filter_cons, List.filter_cons, mergeContainers_filter cs]

/-- The container with the wanted name has what is wanted. -/
theorem mergeContainers_find : ∀ cs : List Container,
    ∃ c, (mergeContainers wanted cs).find? (fun c => c.name = wanted.name) = some c ∧ c.Carries wanted
  | [] => ⟨wanted, by simp [mergeContainers], rfl⟩
  | c :: cs => by
    by_cases hname : c.name = wanted.name
    · refine ⟨{ wanted with rest := c.rest }, ?_, rfl⟩
      rw [mergeContainers, if_pos hname, List.find?_cons_of_pos (by simpa using hname), hname]
    · obtain ⟨c', hfind, hcarries⟩ := mergeContainers_find cs
      refine ⟨c', ?_, hcarries⟩
      rw [mergeContainers, if_neg hname, List.find?_cons_of_neg (by simpa using hname), hfind]

theorem mergeContainers_names : ∀ cs : List Container, (mergeContainers wanted cs).map Container.name =
    if wanted.name ∈ cs.map Container.name then cs.map Container.name else cs.map Container.name ++ [wanted.name]
  | [] => by simp [mergeContainers]
  | c :: cs => by
    by_cases hname : c.name = wanted.name
    · simp [mergeContainers, hname]
    · have hne : wanted.name ≠ c.name := fun h => hname h.symm
      rw [mergeContainers, if_neg hname, List.map_cons, mergeContainers_names cs]
      simp only [List.map_cons, List.mem_cons, hne, false_or]
      split_ifs <;> rfl

end Containers

/-- Setting the same labels twice is setting them once. -/
theorem union_union_self (wanted current : Labels) : wanted ∪ (wanted ∪ current) = wanted ∪ current := by
  refine Finmap.ext_lookup fun k => ?_
  by_cases hk : k ∈ wanted
  · rw [Finmap.lookup_union_left hk, Finmap.lookup_union_left hk]
  · rw [Finmap.lookup_union_right hk]

theorem union_self (labels : Labels) : labels ∪ labels = labels := by
  have h := union_union_self labels ∅
  rwa [Finmap.union_empty] at h

theorem mergeTemplate_idem (current desired : PodTemplateSpec) :
    mergeTemplate (mergeTemplate current desired) desired = mergeTemplate current desired := by
  simp only [mergeTemplate, union_union_self]
  cases desired.spec.containers with
  | nil => rfl
  | cons wanted _ => simp only [mergeContainers_idem]

/-! ### The merge of each kind -/

/-- What the merge leaves of a Service: all but the owned fields, and the ClusterIP unless it is empty and a headless
Service is wanted. -/
structure ServiceFrame (wanted current result : ServiceSpec) : Prop where
  owned : result = { current with
    clusterIP := result.clusterIP
    selector := wanted.selector
    ports := wanted.ports
    type := wanted.type
    publishNotReadyAddresses := false }
  allocated : current.clusterIP ≠ [] → result.clusterIP = current.clusterIP
  unallocated : current.clusterIP = [] →
    result.clusterIP = if wanted.clusterIP = Go.ascii "None" then Go.ascii "None" else []

theorem mutateService_frame {wanted current result : ServiceSpec} (h : mutateService wanted current = .ok result) :
    ServiceFrame wanted current result := by
  unfold mutateService at h
  rw [ite_eq_iff] at h
  rcases h with ⟨-, h⟩ | ⟨hhead, h⟩
  · cases h
  · cases h
    refine ⟨rfl, fun hip => ?_, fun hip => ?_⟩
    · -- an allocated address of a headless Service is None
      show (if wanted.clusterIP = Go.ascii "None" then Go.ascii "None" else current.clusterIP) = current.clusterIP
      split_ifs with hnone
      · by_contra hne
        exact hhead ⟨hnone, hip, fun heq => hne heq.symm⟩
      · rfl
    · show (if wanted.clusterIP = Go.ascii "None" then Go.ascii "None" else current.clusterIP) = _
      rw [hip]

theorem mutateService_idem {wanted current result : ServiceSpec} (h : mutateService wanted current = .ok result) :
    mutateService wanted result = .ok result := by
  unfold mutateService at h
  rw [ite_eq_iff] at h
  rcases h with ⟨-, h⟩ | ⟨-, h⟩
  · cases h
  · cases h
    unfold mutateService
    by_cases hnone : wanted.clusterIP = Go.ascii "None"
    · simp [hnone]
    · simp [hnone]

/-- What the merge leaves of a StatefulSet, and what its cache container has then. -/
structure StatefulSetFrame (wanted current result : StatefulSetSpec) (cache : Container) : Prop where
  replicas : result.replicas = wanted.replicas
  serviceName : result.serviceName = current.serviceName
  selector : result.selector = current.selector
  podManagementPolicy : result.podManagementPolicy = current.podManagementPolicy
  rest : result.rest = current.rest
  labels : ∀ k, k ∉ wanted.template.labels → result.template.labels.lookup k = current.template.labels.lookup k
  annotations : ∀ k, k ∉ wanted.template.annotations →
    result.template.annotations.lookup k = current.template.annotations.lookup k
  pod : result.template.spec = { current.template.spec with
    serviceAccountName := wanted.template.spec.serviceAccountName
    deprecatedServiceAccount := wanted.template.spec.serviceAccountName
    terminationGracePeriodSeconds := wanted.template.spec.terminationGracePeriodSeconds
    containers := result.template.spec.containers }
  others : result.template.spec.containers.filter (fun c => c.name ≠ cache.name) =
    current.template.spec.containers.filter fun c => c.name ≠ cache.name
  carries : ∃ c, result.template.spec.containers.find? (fun c => c.name = cache.name) = some c ∧ c.Carries cache
  distinct : (current.template.spec.containers.map Container.name).Nodup →
    (result.template.spec.containers.map Container.name).Nodup

theorem mutateStatefulSet_some {wanted current result : StatefulSetSpec}
    (h : mutateStatefulSet true wanted current = .ok result) :
    current.serviceName = wanted.serviceName ∧ current.selector = wanted.selector ∧
      result = { current with
        replicas := wanted.replicas
        template := mergeTemplate current.template wanted.template } := by
  unfold mutateStatefulSet at h
  rw [if_neg Bool.noConfusion] at h
  split_ifs at h with hid
  rw [not_or, not_not, not_not] at hid
  exact ⟨hid.1, hid.2, (Except.ok.inj h).symm⟩

theorem mutateStatefulSet_idem {wanted current result : StatefulSetSpec}
    (h : mutateStatefulSet true wanted current = .ok result) : mutateStatefulSet true wanted result = .ok result := by
  obtain ⟨hname, hselector, rfl⟩ := mutateStatefulSet_some h
  unfold mutateStatefulSet
  rw [if_neg Bool.noConfusion, if_neg, mergeTemplate_idem]
  rintro (hne | hne)
  · exact hne hname
  · exact hne hselector

theorem mutateStatefulSet_frame {wanted current result : StatefulSetSpec} {cache : Container}
    (h : mutateStatefulSet true wanted current = .ok result) (hcache : wanted.template.spec.containers = [cache]) :
    StatefulSetFrame wanted current result cache := by
  obtain ⟨-, -, rfl⟩ := mutateStatefulSet_some h
  have hcontainers : (mergeTemplate current.template wanted.template).spec.containers =
      mergeContainers cache current.template.spec.containers := by
    simp only [mergeTemplate, hcache]
  refine ⟨rfl, rfl, rfl, rfl, rfl, fun k hk => Finmap.lookup_union_right hk, fun k hk => Finmap.lookup_union_right hk,
    rfl, ?_, ?_, fun hnodup => ?_⟩
  · rw [hcontainers, mergeContainers_filter]
  · rw [hcontainers]
    exact mergeContainers_find cache _
  · rw [hcontainers, mergeContainers_names]
    split_ifs with hmem
    · exact hnodup
    · exact List.nodup_append.mpr ⟨hnodup, List.nodup_singleton _, fun a ha b hb heq =>
        hmem (List.mem_singleton.mp hb ▸ heq ▸ ha)⟩

/-- **The switch of `ensure` is idempotent** on an existing object, where the spec of a wanted gateway object has distinct
keys. -/
theorem mutateBody_idem {wanted current result : Body}
    (hspec : ∀ kind spec status, wanted = .gateway kind spec status → Json.wellFormed spec = true)
    (h : mutateBody true wanted current = .ok result) : mutateBody true wanted result = .ok result := by
  unfold mutateBody at h
  split at h
  · next desired _ kind spec status =>
    cases h
    have hsub : Json.desiredSubset (if Json.desiredSubset spec desired then spec else desired) desired = true := by
      split_ifs with hs
      · exact hs
      · exact Json.desiredSubset_refl (hspec _ _ _ rfl)
    rw [mutateBody, if_pos hsub]
  · obtain ⟨spec, hs, rfl⟩ := map_eq_ok h
    rw [mutateBody, mutateService_idem hs]
    rfl
  · cases h
    rfl
  · split_ifs at h
    cases h
    rw [mutateBody, if_neg fun hne => hne.2 rfl]
  · obtain ⟨spec, hs, rfl⟩ := map_eq_ok h
    rw [mutateBody, mutateStatefulSet_idem hs]
    rfl
  · next hgateway hservice hrole hbinding hstateful =>
    cases h
    unfold mutateBody
    split
    · exact (hgateway _ _ _ _ _ _ rfl rfl).elim
    · exact (hservice _ _ rfl rfl).elim
    · exact (hrole _ _ rfl rfl).elim
    · exact (hbinding _ _ _ _ rfl rfl).elim
    · exact (hstateful _ _ _ _ rfl rfl).elim
    · rfl

/-! ### The wanted objects -/

theorem wellFormed_backendSpec (ips : List GoString) : Json.wellFormed (backendSpec ips) = true := by
  have hitems : Json.wellFormedItems
      (ips.map fun ip => .obj [("ip", .obj [("address", .str ip), ("port", .int 9999)])]) = true := by
    rw [Json.wellFormedItems_iff]
    intro x hx
    obtain ⟨ip, -, rfl⟩ := List.mem_map.mp hx
    rfl
  simp [backendSpec, Json.wellFormed, Json.wellFormedEntries, hitems]

/-- The spec of a wanted gateway object has distinct keys. -/
theorem Wanted.wellFormed {cr : SimpleCacheResource} {o : Object} (h : Wanted cr o) {kind : GatewayKind}
    {spec status : Json} (hbody : o.body = .gateway kind spec status) : Json.wellFormed spec = true := by
  cases h with
  | base h =>
    simp only [baseObjects, List.mem_cons, List.not_mem_nil, or_false] at h
    rcases h with rfl | rfl | rfl | rfl | rfl | rfl <;> cases hbody
  | shard ordinal => cases hbody
  | gateway g ips h =>
    simp only [gatewayResources, List.mem_cons, List.not_mem_nil, or_false] at h
    rcases h with rfl | rfl | rfl | rfl | rfl <;> cases hbody
    · rfl
    · exact wellFormed_backendSpec ips
    · rfl
    · rfl
    · rfl

/-- The template of a wanted StatefulSet has the cache container only. -/
theorem Wanted.containers {cr : SimpleCacheResource} {o : Object} (h : Wanted cr o) {spec : StatefulSetSpec}
    {status : StatefulSetStatus} (hbody : o.body = .statefulSet spec status) :
    spec.template.spec.containers = [cacheContainer cr] := by
  cases h with
  | base h =>
    simp only [baseObjects, List.mem_cons, List.not_mem_nil, or_false] at h
    rcases h with rfl | rfl | rfl | rfl | rfl | rfl <;> cases hbody
    rfl
  | shard ordinal => cases hbody
  | gateway g ips h =>
    simp only [gatewayResources, List.mem_cons, List.not_mem_nil, or_false] at h
    rcases h with rfl | rfl | rfl | rfl | rfl <;> cases hbody

/-! ### `ensure` on an existing object -/

/-- The program of `ensure` after it has read an object: an error of the mutation ends it, and so does an object that
comes out as it was; neither writes. -/
theorem ensure_found (cr : SimpleCacheResource) (wanted e : Object) :
    ∃ next, ensure cr wanted = .call (.get wanted.key) next ∧
      (∀ err, mutate cr wanted (some e) = .error err → next (.ok e) = .throw err) ∧
      (mutate cr wanted (some e) = .ok e → next (.ok e) = .pure ()) := by
  refine ⟨_, rfl, fun err h => ?_, fun h => ?_⟩
  · show (Lib.Prog.ofExcept (mutate cr wanted (some e)) >>= _) = _
    rw [h]
    rfl
  · show (Lib.Prog.ofExcept (mutate cr wanted (some e)) >>= _) = _
    rw [h]
    exact if_pos rfl

/-- **Reconciling an existing object is idempotent and touches only owned fields.**  For every wanted object and every
existing object under its key, the mutation fails, and then nothing is written, which it does for every object that the
resource does not control; or its result comes out of the mutation unchanged, has the metadata of the existing object
and keeps what `ServiceFrame` and `StatefulSetFrame` say. -/
theorem ensure_mutation {cr : SimpleCacheResource} {wanted e : Object} (hw : Wanted cr wanted)
    (hkey : e.key = wanted.key) :
    (∃ next, ensure cr wanted = .call (.get wanted.key) next ∧
      (∀ err, mutate cr wanted (some e) = .error err → next (.ok e) = .throw err) ∧
      (mutate cr wanted (some e) = .ok e → next (.ok e) = .pure ())) ∧
    (e.controlledBy cr = false → ∃ err, mutate cr wanted (some e) = .error err) ∧
    ∀ o, mutate cr wanted (some e) = .ok o →
      mutate cr wanted (some o) = .ok o ∧ o = { e with body := o.body } ∧ o.body.kind = wanted.body.kind ∧
      (∀ spec current, wanted.body = .service spec → e.body = .service current →
        ∃ result, o.body = .service result ∧ ServiceFrame spec current result) ∧
      ∀ spec status current status', wanted.body = .statefulSet spec status → e.body = .statefulSet current status' →
        ∃ result, o.body = .statefulSet result status' ∧ StatefulSetFrame spec current result (cacheContainer cr) := by
  refine ⟨ensure_found cr wanted e, fun hforeign => ⟨conflictError e, ?_⟩, fun o ho => ?_⟩
  · unfold mutate
    exact if_pos ⟨rfl, hforeign⟩
  · obtain ⟨howned, body, hbody, rfl⟩ := mutate_some ho
    have hcontroller : e.controller = some cr.uid := of_decide_eq_true howned
    refine ⟨?_, by rw [hcontroller], ?_, fun spec current hs hc => ?_, fun spec status current status' hs hc => ?_⟩
    · have hagain := mutateBody_idem (fun _ _ _ => hw.wellFormed) hbody
      unfold mutate
      simp only [Option.getD_some, Option.isSome_some, true_and]
      rw [if_neg (by simp [Object.controlledBy]), hagain]
      rfl
    · exact (mutateBody_kind hbody).trans (congrArg Key.kind hkey)
    · rw [hs, hc, mutateBody] at hbody
      obtain ⟨result, hresult, rfl⟩ := map_eq_ok hbody
      exact ⟨result, rfl, mutateService_frame hresult⟩
    · rw [hs, hc, mutateBody] at hbody
      obtain ⟨result, hresult, rfl⟩ := map_eq_ok hbody
      exact ⟨result, rfl, mutateStatefulSet_frame hresult (hw.containers hs)⟩

/-- A StatefulSet of the resource with a sidecar in front of an old cache container. -/
def sidecarSet : Object :=
  ⟨queueless.name, some queueless.uid, 1, .statefulSet { statefulSetSpec queueless with
    template := { (statefulSetSpec queueless).template with
      spec := { (statefulSetSpec queueless).template.spec with
        containers :=
          [{ cacheContainer queueless with name := "sidecar" }, { cacheContainer queueless with image := [] }] } } }
    ⟨0, 0, 0, [], []⟩⟩

/-- The sidecar stays, and a second run changes nothing. -/
theorem ensure_mutation_sidecar : ∃ o, mutate queueless (statefulSet queueless) (some sidecarSet) = .ok o ∧
    mutate queueless (statefulSet queueless) (some o) = .ok o ∧
    ∃ result status, o.body = .statefulSet result status ∧
      result.template.spec.containers.filter (fun c => c.name ≠ "cache") =
        [{ cacheContainer queueless with name := "sidecar" }] := by
  have hmutation := @ensure_mutation queueless (statefulSet queueless) sidecarSet (.base (by simp [baseObjects])) rfl
  obtain ⟨o, ho⟩ : ∃ o, mutate queueless (statefulSet queueless) (some sidecarSet) = .ok o := ⟨_, rfl⟩
  obtain ⟨hagain, -, -, -, hset⟩ := hmutation.2.2 o ho
  obtain ⟨result, hresult, hframe⟩ := hset _ _ _ _ rfl rfl
  refine ⟨o, ho, hagain, result, _, hresult, hframe.others.trans ?_⟩
  rfl

/-- A Service of the resource that was edited to have no ClusterIP. -/
def externalService : Object :=
  ⟨(clusterService queueless).name, some queueless.uid, 1,
    .service { apiServiceSpec queueless with type := .externalName }⟩

/-- The ClusterIP of an existing Service that has none is set to None. -/
theorem ensure_sets_clusterIP : validateSpec .documented (defaults queueless) = .ok () ∧
    externalService.controlledBy (defaults queueless) = true ∧
    ∃ o current result,
      mutate (defaults queueless) (clusterService (defaults queueless)) (some externalService) = .ok o ∧
      externalService.body = .service current ∧ o.body = .service result ∧
      current.clusterIP = [] ∧ result.clusterIP = Go.ascii "None" := by
  refine ⟨by decide +kernel, by decide +kernel, _, _, _, rfl, rfl, rfl, rfl, rfl⟩

end SimpleCache.Operator
