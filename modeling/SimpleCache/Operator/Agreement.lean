import SimpleCache.App.Config
import SimpleCache.Operator.Objects

/-!
# Operator.Agreement — the environment of the StatefulSet is a configuration of the engine

The operator prints the spec into the environment of its container; `FromEnv` of the engine reads it back.  The kubelet
fills the field and secret references, so a container's environment is `containerEnv` of what it fills in.
-/

namespace SimpleCache.Operator

open App (Env Config fromEnv bindInt_unset bindInt_formatInt bindTTL_formatInt)

/-- The value the kubelet gives a variable, from the name and namespace of the Pod and the data of the secrets. -/
def EnvSource.resolve (pod ns : GoString) (secret : GoString → String → GoString) : EnvSource → GoString
  | .value v => v
  | .fieldRef path => if path = "metadata.name" then pod else if path = "metadata.namespace" then ns else []
  | .secretKeyRef name key => secret name key

/-- The environment of a container; a variable that is not listed is empty. -/
def containerEnv (pod ns : GoString) (secret : GoString → String → GoString) (vars : List EnvVar) : Env := fun name =>
  match vars.find? fun v => v.name = name with
  | some v => v.source.resolve pod ns secret
  | none => []

/-- The variables that `FromEnv` reads. -/
def engineVariables : List String :=
  App.removedVariables ++
    ["DISCOVERY_MODE", "POD_NAMESPACE", "CLUSTER_SERVICE", "SOURCE_MODE", "DATABASE_URL", "CACHE_ADMIN_TOKEN",
      "DEBUG_ADDR", "API_ADDR", "CACHE_BYTES", "TTL_SECONDS", "SOURCE_MAX_CONCURRENCY", "SOURCE_MAX_PENDING",
      "MAX_MISS_WAITERS", "WRITE_MAX_CONCURRENCY", "POD_NAME", "SELF_ADDR", "MEMBERS"]

/-- What an environment says, variable by variable, when it is the one of the container of `cr`. -/
structure Printed (env : Env) (cr : SimpleCacheResource) (pod ns : GoString) : Prop where
  removed : ∀ old ∈ App.removedVariables, env old = []
  mode : env "DISCOVERY_MODE" = Go.ascii "kubernetes"
  podNamespace : env "POD_NAMESPACE" = ns
  clusterService : env "CLUSTER_SERVICE" = cr.name ++ Go.ascii "-svc"
  debugAddr : env "DEBUG_ADDR" = []
  apiAddr : env "API_ADDR" = []
  cacheBytes : env "CACHE_BYTES" = Go.formatInt cr.spec.cacheBytes
  ttlSeconds : env "TTL_SECONDS" = Go.formatInt cr.spec.ttlSeconds
  sourceConcurrency : env "SOURCE_MAX_CONCURRENCY" = []
  sourcePending : env "SOURCE_MAX_PENDING" = Go.formatInt (pending cr.spec)
  missWaiters : env "MAX_MISS_WAITERS" = Go.formatInt cr.spec.maxMissWaiters
  writeConcurrency : env "WRITE_MAX_CONCURRENCY" = Go.formatInt cr.spec.maxConcurrentWrites
  podName : env "POD_NAME" = pod
  sourceMode : env "SOURCE_MODE" = if cr.spec.sourceSecret = [] then [] else Go.ascii "postgres"

theorem printed {env : Env} {cr : SimpleCacheResource} {pod ns : GoString} {secret : GoString → String → GoString}
    (henv : ∀ name ∈ engineVariables, env name = containerEnv pod ns secret (cacheEnv cr) name) :
    Printed env cr pod ns := by
  have hread : ∀ name ∈ engineVariables, ∀ v, containerEnv pod ns secret (cacheEnv cr) name = v → env name = v :=
    fun name hn v hv => (henv name hn).trans hv
  have hremoved : ∀ old ∈ App.removedVariables, env old = [] := by
    intro old hold
    apply hread old (List.mem_append_left _ hold)
    simp only [App.removedVariables, List.mem_cons, List.not_mem_nil, or_false] at hold
    rcases hold with rfl | rfl | rfl | rfl <;>
      by_cases hs : cr.spec.sourceSecret = [] <;> simp [containerEnv, cacheEnv, hs]
  refine ⟨hremoved, ?_, ?_, ?_, ?_, ?_, ?_, ?_, ?_, ?_, ?_, ?_, ?_, ?_⟩
  all_goals
    apply hread _ (by decide)
    by_cases hs : cr.spec.sourceSecret = [] <;> simp [containerEnv, cacheEnv, EnvSource.resolve, hs]

/-- The configuration that `FromEnv` makes of it. -/
def printedConfig (env : Env) (cr : SimpleCacheResource) (pod ns : GoString) : Config :=
  { App.baseConfig 8001 true env with
    cacheBytes := cr.spec.cacheBytes
    ttl := cr.spec.ttlSeconds * 10 ^ 9
    sourceMaxPending := pending cr.spec
    maxMissWaiters := cr.spec.maxMissWaiters
    writeConcurrency := cr.spec.maxConcurrentWrites
    selfID := ns ++ 47 :: pod }

section

variable {env : Env} {cr : SimpleCacheResource} {pod ns : GoString}

theorem pending_bounds (hb : Budgets cr.spec) : 0 ≤ pending cr.spec ∧ pending cr.spec ≤ 4096 := by
  unfold pending
  cases hp : cr.spec.sourceMaxPending with
  | none => decide
  | some n => exact hb.sourceMaxPending n hp

theorem printedConfig_discoveryMode (h : Printed env cr pod ns) :
    (printedConfig env cr pod ns).discoveryMode = Go.ascii "kubernetes" := by
  simp only [printedConfig, App.baseConfig, h.mode]
  decide +kernel

theorem printedConfig_valid (parseURL : GoString → Option App.ParsedURL) (toLower : GoString → GoString)
    (h : Printed env cr pod ns) (hb : Budgets cr.spec) (hpod : pod ≠ [] ∧ (47 : UInt8) ∉ pod)
    (hns : ns ≠ [] ∧ (47 : UInt8) ∉ ns) : (printedConfig env cr pod ns).validate parseURL toLower = .ok () := by
  have hnamespace : (printedConfig env cr pod ns).ns = ns := h.podNamespace
  have hservice : (printedConfig env cr pod ns).clusterService ≠ [] := by
    rw [show (printedConfig env cr pod ns).clusterService = _ from h.clusterService]
    exact List.append_ne_nil_of_right_ne_nil _ (by decide +kernel)
  have hapi : (printedConfig env cr pod ns).apiAddr = Go.ascii "0.0.0.0:9999" := by
    simp [printedConfig, App.baseConfig, h.apiAddr]
  obtain ⟨hpending, hpending'⟩ := pending_bounds hb
  have hwaiters := hb.maxMissWaiters
  have hwrites := hb.maxConcurrentWrites
  have httl := hb.ttlSeconds
  have hlisten : App.validListenAddr (Go.ascii "0.0.0.0:" ++ Go.formatInt 8001) = true := by decide +kernel
  refine App.Config.validate_ok parseURL toLower hlisten
    (by rw [hapi]; decide +kernel) (by simp [printedConfig]) h.debugAddr rfl hb.cacheBytes ?_ ?_ ⟨hpending, hpending'⟩
    ?_ ?_ ?_ rfl
  · show 0 ≤ cr.spec.ttlSeconds * 10 ^ 9 ∧ cr.spec.ttlSeconds * 10 ^ 9 ≤ 3600 * 10 ^ 9
    omega
  · show (1 : ℤ) ≤ 32 ∧ (32 : ℤ) ≤ 1024
    decide
  · show 0 ≤ cr.spec.maxMissWaiters ∧ cr.spec.maxMissWaiters ≤ 4096
    omega
  · show 0 ≤ cr.spec.maxConcurrentWrites ∧ cr.spec.maxConcurrentWrites ≤ 256
    omega
  · have hself : (printedConfig env cr pod ns).selfID = (printedConfig env cr pod ns).ns ++ 47 :: pod := by
      rw [hnamespace]
      rfl
    exact App.Config.validateDiscovery_kubernetes (printedConfig_discoveryMode h) hself (hnamespace ▸ hns.1)
      (hnamespace ▸ hns.2) hpod.1 hpod.2 hservice

theorem printedConfig_sourceMode (h : Printed env cr pod ns) : (printedConfig env cr pod ns).sourceMode =
    if cr.spec.sourceSecret = [] then Go.ascii "demo" else Go.ascii "postgres" := by
  simp only [printedConfig, App.baseConfig, h.sourceMode]
  by_cases hs : cr.spec.sourceSecret = []
  · simp [hs]
  · simp only [hs, if_false]
    decide +kernel

theorem printedConfig_source (h : Printed env cr pod ns)
    (hsecret : cr.spec.sourceSecret ≠ [] → env "DATABASE_URL" ≠ [] ∧ env "CACHE_ADMIN_TOKEN" ≠ []) :
    (printedConfig env cr pod ns).validateSourceConfig = .ok () := by
  have hdemo : Go.ascii "demo" ≠ Go.ascii "postgres" := by decide +kernel
  rw [App.Config.validateSourceConfig, printedConfig_sourceMode h]
  by_cases hs : cr.spec.sourceSecret = []
  · rw [if_pos hs, if_neg (by simp), if_neg (by simp [hdemo])]
  · rw [if_neg hs, if_neg (by simp), if_neg]
    rintro ⟨-, hurl | htoken⟩
    · exact (hsecret hs).1 hurl
    · exact (hsecret hs).2 htoken

theorem fromEnv_printed (parseURL : GoString → Option App.ParsedURL) (toLower : GoString → GoString)
    (h : Printed env cr pod ns) (hb : Budgets cr.spec) (hpod : pod ≠ [] ∧ (47 : UInt8) ∉ pod)
    (hns : ns ≠ [] ∧ (47 : UInt8) ∉ ns)
    (hsecret : cr.spec.sourceSecret ≠ [] → env "DATABASE_URL" ≠ [] ∧ env "CACHE_ADMIN_TOKEN" ≠ []) :
    fromEnv parseURL toLower 8001 true env = .ok (printedConfig env cr pod ns) := by
  have hfind : (App.removedVariables.find? fun old => env old ≠ []) = none := by
    rw [List.find?_eq_none]
    intro old hold
    simp [h.removed old hold]
  obtain ⟨hpending, hpending'⟩ := pending_bounds hb
  have hmax : Go.maxInt64 = 9223372036854775807 := by decide
  have hbytes := hb.cacheBytes
  have hwaiters := hb.maxMissWaiters
  have hwrites := hb.maxConcurrentWrites
  have hdiscovery : ∀ c : Config, c.discoveryMode = Go.ascii "kubernetes" → c.ns = ns →
      App.bindDiscovery parseURL toLower 8001 env c = .ok { c with selfID := ns ++ 47 :: pod } := by
    intro c hmode hnamespace
    rw [App.bindDiscovery, if_pos hmode, h.podName]
    dsimp only
    rw [if_neg hpod.1, hnamespace]
  have hcache : ∀ value, App.bindInt env "CACHE_BYTES" false value = .ok cr.spec.cacheBytes :=
    bindInt_formatInt h.cacheBytes (by omega) (by omega) nofun
  have hqueue : ∀ value, App.bindInt env "SOURCE_MAX_PENDING" false value = .ok (pending cr.spec) :=
    bindInt_formatInt h.sourcePending hpending (by omega) nofun
  have hmiss : ∀ value, App.bindInt env "MAX_MISS_WAITERS" true value = .ok cr.spec.maxMissWaiters :=
    bindInt_formatInt h.missWaiters (by omega) (by omega) fun _ => by omega
  have hwrite : ∀ value, App.bindInt env "WRITE_MAX_CONCURRENCY" true value = .ok cr.spec.maxConcurrentWrites :=
    bindInt_formatInt h.writeConcurrency (by omega) (by omega) fun _ => by omega
  rw [fromEnv, hfind]
  dsimp only
  rw [if_neg (by decide), hcache, bindTTL_formatInt h.ttlSeconds hb.ttlSeconds.1 hb.ttlSeconds.2,
    bindInt_unset h.sourceConcurrency, hqueue, hmiss, hwrite]
  simp only [bind, Except.bind, pure, Except.pure]
  rw [hdiscovery]
  · have hvalid := printedConfig_valid parseURL toLower h hb hpod hns
    have hsource := printedConfig_source h hsecret
    unfold printedConfig at hvalid hsource ⊢
    dsimp only
    rw [hvalid]
    dsimp only
    rw [hsource]
  · exact printedConfig_discoveryMode h
  · exact h.podNamespace

end

/-- **Operator and engine agree on the configuration.**  For every resource that passes defaulting and validation, the
environment that `statefulSet` gives its container, with the Pod's name and namespace and the secret's data filled in and
no other variable of the engine set, is accepted by `FromEnv(8001, true)`, and the configuration carries the numbers of
the spec, an explicit queue bound of zero among them, the identity `namespace/pod`, the headless Service, and the
postgres mode exactly when a secret is named. -/
theorem environment_accepted (parseURL : GoString → Option App.ParsedURL) (toLower : GoString → GoString)
    {names : NameChecks} {cr : SimpleCacheResource} (hcr : validateSpec names (defaults cr) = .ok ())
    {container : Container} (hcontainer : container ∈ (statefulSetSpec (defaults cr)).template.spec.containers) {pod ns : GoString}
    (hpod : pod ≠ [] ∧ (47 : UInt8) ∉ pod) (hns : ns ≠ [] ∧ (47 : UInt8) ∉ ns) {secret : GoString → String → GoString}
    (hsecret : cr.spec.sourceSecret ≠ [] →
      secret cr.spec.sourceSecret "DATABASE_URL" ≠ [] ∧ secret cr.spec.sourceSecret "CACHE_ADMIN_TOKEN" ≠ [])
    {env : Env} (henv : ∀ name ∈ engineVariables, env name = containerEnv pod ns secret container.env name) :
    ∃ c, fromEnv parseURL toLower 8001 true env = .ok c ∧
      c.cacheBytes = (defaults cr).spec.cacheBytes ∧ c.ttl = (defaults cr).spec.ttlSeconds * 10 ^ 9 ∧
      c.maxMissWaiters = (defaults cr).spec.maxMissWaiters ∧
      some c.sourceMaxPending = (defaults cr).spec.sourceMaxPending ∧
      (∀ n, cr.spec.sourceMaxPending = some n → c.sourceMaxPending = n) ∧
      c.writeConcurrency = (defaults cr).spec.maxConcurrentWrites ∧ c.selfID = ns ++ 47 :: pod ∧
      c.clusterService = (clusterService cr).name ∧
      (c.sourceMode = Go.ascii "postgres" ↔ cr.spec.sourceSecret ≠ []) := by
  obtain rfl := List.mem_singleton.mp hcontainer
  obtain ⟨-, -, -, hb⟩ := validateSpec_ok hcr
  have hprinted : Printed env (defaults cr) pod ns := printed henv
  have hdata : (defaults cr).spec.sourceSecret ≠ [] → env "DATABASE_URL" ≠ [] ∧ env "CACHE_ADMIN_TOKEN" ≠ [] := by
    intro hs
    have hs' : ¬(defaults cr).spec.sourceSecret = [] := hs
    have hfilled : secret (defaults cr).spec.sourceSecret "DATABASE_URL" ≠ [] ∧
        secret (defaults cr).spec.sourceSecret "CACHE_ADMIN_TOKEN" ≠ [] := hsecret hs
    rw [henv _ (by decide), henv _ (by decide)]
    simpa [containerEnv, cacheContainer, cacheEnv, EnvSource.resolve, hs'] using hfilled
  refine ⟨_, fromEnv_printed parseURL toLower hprinted hb hpod hns hdata, rfl, rfl, rfl, rfl, ?_, rfl, rfl,
    hprinted.clusterService, ?_⟩
  · intro n hn
    show pending (defaults cr).spec = n
    simp [pending, defaults, SimpleCacheSpec.defaults, hn]
  · rw [printedConfig_sourceMode hprinted]
    have hdemo : Go.ascii "demo" ≠ Go.ascii "postgres" := by decide +kernel
    show (if cr.spec.sourceSecret = [] then _ else _) = _ ↔ _
    by_cases hs : cr.spec.sourceSecret = []
    · simp [hs, hdemo]
    · simp [hs]

/-- A resource with a secret and no queue. -/
def queueless : SimpleCacheResource where
  name := Go.ascii "cache"
  ns := Go.ascii "shop"
  uid := Go.ascii "u-1"
  spec :=
    { gateway := none
      size := 0
      image := Go.ascii "cache:1"
      sourceSecret := Go.ascii "db"
      cacheBytes := 0
      ttlSeconds := 90
      maxMissWaiters := 0
      sourceMaxPending := some 0
      maxConcurrentWrites := 0
      resources := ⟨∅, ∅⟩ }

theorem environment_accepted_secret : ∃ c, fromEnv (fun _ => none) id 8001 true (containerEnv (Go.ascii "cache-0")
    (Go.ascii "shop") (fun _ _ => Go.ascii "x") (cacheContainer (defaults queueless)).env) = .ok c ∧
    c.sourceMaxPending = 0 ∧ c.sourceMode = Go.ascii "postgres" := by
  have hvalid : validateSpec .documented (defaults queueless) = .ok () := by decide +kernel
  have hpod : Go.ascii "cache-0" ≠ [] ∧ (47 : UInt8) ∉ Go.ascii "cache-0" := by decide +kernel
  have hns : Go.ascii "shop" ≠ [] ∧ (47 : UInt8) ∉ Go.ascii "shop" := by decide +kernel
  obtain ⟨c, hc, -, -, -, -, hpending, -, -, -, hmode⟩ := @environment_accepted (fun _ => none) id .documented queueless
    hvalid _ List.mem_cons_self _ _ hpod hns (fun _ _ => Go.ascii "x") (fun _ => by decide +kernel) _ fun _ _ => rfl
  exact ⟨c, hc, hpending 0 rfl, hmode.mpr (by decide +kernel)⟩

end SimpleCache.Operator
