import SimpleCache.Lib.Prog
import SimpleCache.Operator.Server

/-!
# Operator.Gateway — shard Services and gateway objects (`gateway.go`, `ensure`)

The functions of the controller as programs over the API calls, call by call.  A loop of the source is a recursion over
its list.
-/

namespace SimpleCache.Operator

open Lib (Prog)

/-- A program of the controller. -/
abbrev M := Prog Call Resp OpErr

/-- A call whose error ends the function. -/
def api (c : Call) : M (Val c) := do
  let r ← Prog.request c
  Prog.ofExcept (r.mapError .api)

/-- `client.IgnoreNotFound(r.Delete(...))`. -/
def deleteObject (k : Key) : M Unit := do
  match ← Prog.request (.delete k) with
  | .ok _ => return ()
  | .error .notFound => return ()
  | .error e => .throw (.api e)

/-- `ensure`, with `CreateOrUpdate`: read, mutate, then create or update. -/
def ensure (owner : SimpleCacheResource) (wanted : Object) : M Unit := do
  match ← Prog.request (.get wanted.key) with
  | .error .notFound =>
    let o ← Prog.ofExcept (mutate owner wanted none)
    api (.create o)
  | .error e => .throw (.api e)
  | .ok read =>
    let o ← Prog.ofExcept (mutate owner wanted (some read))
    if o = read then return () else api (.update read o)

/-! ### The wanted objects -/

/-- The name of a shard Service. -/
def shardName (cr : SimpleCacheResource) (ordinal : ℤ) : GoString :=
  cr.name ++ Go.ascii "-shard-" ++ Go.formatInt ordinal

/-- The selector of a shard Service: the labels of the cache and the name of one Pod. -/
def shardSelector (cr : SimpleCacheResource) (ordinal : ℤ) : Labels :=
  (labels cr).insert "statefulset.kubernetes.io/pod-name" (cr.name ++ 45 :: Go.formatInt ordinal)

/-- `shardService`. -/
def shardService (cr : SimpleCacheResource) (ordinal : ℤ) : Object :=
  metadata (shardName cr ordinal) (.service { apiServiceSpec cr with selector := shardSelector cr ordinal })

/-- `gatewayResource`. -/
def gatewayResource (cr : SimpleCacheResource) (kind : GatewayKind) (spec : Json) : Object :=
  metadata cr.name (.gateway kind spec .null)

def jstr (s : String) : Json := .str (Go.ascii s)

/-- The spec of the Backend for the addresses of the shards. -/
def backendSpec (ips : List GoString) : Json :=
  .obj [("endpoints", .arr (ips.map fun ip => .obj [("ip", .obj [("address", .str ip), ("port", .int 9999)])]))]

def envoyProxySpec (replicas : ℤ) : Json :=
  .obj [("provider", .obj [("type", jstr "Kubernetes"), ("kubernetes", .obj [
    ("envoyDeployment", .obj [("replicas", .int replicas)]),
    ("envoyService", .obj [("type", jstr "ClusterIP")])])])]

def gatewaySpec (cr : SimpleCacheResource) (className : GoString) : Json :=
  .obj [("gatewayClassName", .str className),
    ("infrastructure", .obj [("parametersRef", .obj [("group", jstr "gateway.envoyproxy.io"), ("kind", jstr "EnvoyProxy"),
      ("name", .str cr.name)])]),
    ("listeners", .arr [.obj [("name", jstr "http"), ("protocol", jstr "HTTP"), ("port", .int 80),
      ("allowedRoutes", .obj [("namespaces", .obj [("from", jstr "Same")])])]])]

def httpRouteSpec (cr : SimpleCacheResource) : Json :=
  .obj [("parentRefs", .arr [.obj [("name", .str cr.name), ("sectionName", jstr "http")]]),
    ("rules", .arr [.obj [
      ("matches", .arr [.obj [("path", .obj [("type", jstr "Exact"), ("value", jstr "/api")])],
        .obj [("path", .obj [("type", jstr "Exact"), ("value", jstr "/invalidate")])]]),
      ("backendRefs", .arr [.obj [("group", jstr "gateway.envoyproxy.io"), ("kind", jstr "Backend"),
        ("name", .str cr.name)]])]])]

def policySpec (cr : SimpleCacheResource) : Json :=
  .obj [("targetRefs", .arr [.obj [("group", jstr "gateway.networking.k8s.io"), ("kind", jstr "HTTPRoute"),
      ("name", .str cr.name)]]),
    ("loadBalancer", .obj [("type", jstr "ConsistentHash"), ("consistentHash", .obj [("type", jstr "QueryParams"),
      ("queryParams", .arr [.obj [("name", jstr "key")]]), ("tableSize", .int 65537)])]),
    ("healthCheck", .obj [("active", .obj [("type", jstr "HTTP"), ("interval", jstr "2s"), ("timeout", jstr "1s"),
      ("healthyThreshold", .int 1), ("unhealthyThreshold", .int 1), ("http", .obj [("path", jstr "/readyz"),
        ("method", jstr "GET"), ("expectedStatuses", .arr [.int 200])])])])]

/-- `gatewayResources`. -/
def gatewayResources (cr : SimpleCacheResource) (g : GatewaySpec) (ips : List GoString) : List Object :=
  [gatewayResource cr .envoyProxy (envoyProxySpec g.replicas),
    gatewayResource cr .backend (backendSpec ips),
    gatewayResource cr .gateway (gatewaySpec cr g.className),
    gatewayResource cr .httpRoute (httpRouteSpec cr),
    gatewayResource cr .backendTrafficPolicy (policySpec cr)]

/-! ### Readiness -/

/-- The ClusterIP of a Service. -/
def Object.clusterIP (o : Object) : GoString :=
  match o.body with
  | .service spec => spec.clusterIP
  | _ => []

/-- The status of a gateway object. -/
def Object.status (o : Object) : Json :=
  match o.body with
  | .gateway _ _ status => status
  | _ => .null

/-- `conditionTrue` on a list of conditions. -/
def conditionTrue (conditions : Json) (kind : String) (generation : ℤ) : Bool :=
  conditions.items.any fun c =>
    c.field "type" = jstr kind && c.field "status" = jstr "True" && c.field "observedGeneration" = .int generation

def gatewayController : GoString := Go.ascii "gateway.envoyproxy.io/gatewayclass-controller"

/-- One parent or ancestor of `parentConditionsTrue`. -/
def parentReady (cr : SimpleCacheResource) (generation : ℤ) (refField : String) (resolved : Bool) (p : Json) : Bool :=
  let ref := p.field refField
  p.field "controllerName" = .str gatewayController && ref.field "name" = .str cr.name &&
    (!ref.has "namespace" || ref.field "namespace" = .str cr.ns) &&
    conditionTrue (p.field "conditions") "Accepted" generation &&
    (!resolved || conditionTrue (p.field "conditions") "ResolvedRefs" generation)

/-- The check of `reconcileGateway` on an object that it has read again. -/
def gatewayReady (cr : SimpleCacheResource) (kind : GatewayKind) (o : Object) : Bool :=
  let conditions := o.status.field "conditions"
  match kind with
  | .gateway => conditionTrue conditions "Accepted" o.generation && conditionTrue conditions "Programmed" o.generation
  | .backend => conditionTrue conditions "Accepted" o.generation
  | .httpRoute => (o.status.field "parents").items.any (parentReady cr o.generation "parentRef" true)
  | .backendTrafficPolicy => (o.status.field "ancestors").items.any (parentReady cr o.generation "ancestorRef" false)
  | .envoyProxy => true

def GatewayKind.name : GatewayKind → String
  | .gateway => "Gateway"
  | .httpRoute => "HTTPRoute"
  | .envoyProxy => "EnvoyProxy"
  | .backend => "Backend"
  | .backendTrafficPolicy => "BackendTrafficPolicy"

/-! ### `reconcileGateway` and `removeGateway` -/

/-- The ordinals of the shards. -/
def ordinals (size : ℤ) : List ℤ := (List.range size.toNat).map Int.ofNat

theorem mem_ordinals {size i : ℤ} : i ∈ ordinals size ↔ 0 ≤ i ∧ i < size := by
  simp only [ordinals, List.mem_map, List.mem_range, Int.ofNat_eq_natCast]
  constructor
  · rintro ⟨k, hk, rfl⟩
    omega
  · rintro ⟨h0, hi⟩
    exact ⟨i.toNat, by omega, by omega⟩

/-- The loop over the shards; `none` when an address is missing. -/
def shardAddresses (cr : SimpleCacheResource) : List ℤ → List GoString → M (Option (List GoString))
  | [], ips => return some ips
  | i :: rest, ips => do
    ensure cr (shardService cr i)
    let svc ← api (.get (shardService cr i).key)
    if svc.clusterIP = [] then return none
    else shardAddresses cr rest (ips ++ [svc.clusterIP])

/-- The loop that ensures a list of objects. -/
def ensureAll (cr : SimpleCacheResource) : List Object → M Unit
  | [] => return ()
  | o :: rest => do
    ensure cr o
    ensureAll cr rest

/-- The prefix of the names of the shard Services. -/
def shardStem (cr : SimpleCacheResource) : GoString := cr.name ++ Go.ascii "-shard-"

/-- The test of `removeShardServices`: a controlled shard Service from the ordinal `keep` on. -/
def obsolete (cr : SimpleCacheResource) (keep : ℤ) (svc : Object) : Bool :=
  svc.controlledBy cr && (shardStem cr).isPrefixOf svc.name &&
    (Go.parseInt (svc.name.drop (shardStem cr).length)).any fun ordinal => keep ≤ ordinal

/-- The loop of `removeShardServices`. -/
def removeObsolete (cr : SimpleCacheResource) (keep : ℤ) : List Object → M Unit
  | [] => return ()
  | svc :: rest => do
    if obsolete cr keep svc then deleteObject svc.key
    removeObsolete cr keep rest

/-- `removeShardServices`. -/
def removeShardServices (cr : SimpleCacheResource) (keep : ℤ) : M Unit := do
  let items ← api .listServices
  removeObsolete cr keep items

/-- The loop of `reconcileGateway` over the objects it has ensured; the message is empty when all are ready. -/
def gatewayMessage (cr : SimpleCacheResource) : List GatewayKind → M String
  | [] => return ""
  | kind :: rest => do
    let o ← api (.get ⟨.gateway kind, cr.name⟩)
    if gatewayReady cr kind o then gatewayMessage cr rest
    else return "Waiting for " ++ kind.name ++ " acceptance/programming"

/-- The message while a shard Service has no address. -/
def waitingForAddresses : String := "Waiting for shard Service addresses"

/-- `reconcileGateway`. -/
def reconcileGateway (cr : SimpleCacheResource) (g : GatewaySpec) : M String := do
  match ← shardAddresses cr (ordinals cr.spec.size) [] with
  | none => return waitingForAddresses
  | some ips =>
    ensureAll cr (gatewayResources cr g ips)
    removeShardServices cr cr.spec.size
    gatewayMessage cr [.envoyProxy, .backend, .gateway, .httpRoute, .backendTrafficPolicy]

/-- `gatewayKinds`. -/
def gatewayKinds : List GatewayKind := [.gateway, .httpRoute, .envoyProxy, .backend, .backendTrafficPolicy]

/-- The loop of `removeGateway`. -/
def removeKinds (cr : SimpleCacheResource) : List GatewayKind → M Unit
  | [] => return ()
  | kind :: rest => do
    match ← Prog.request (Call.get ⟨.gateway kind, cr.name⟩) with
    | .error .notFound => removeKinds cr rest
    | .error e => .throw (.api e)
    | .ok o =>
      if o.controlledBy cr then deleteObject ⟨.gateway kind, cr.name⟩
      removeKinds cr rest

/-- `removeGateway`. -/
def removeGateway (enableGateway : Bool) (cr : SimpleCacheResource) : M Unit := do
  if enableGateway then
    removeKinds cr gatewayKinds
    removeShardServices cr 0
  else return ()

end SimpleCache.Operator
