import Mathlib.Data.Finmap
import SimpleCache.Operator.Json
import SimpleCache.Operator.Spec

/-!
# Operator.Objects — the objects the controller builds (`resources.go`, `gateway.go`)

The Kubernetes types keep the fields the controller sets or reads; `rest` stands for all the others, which an API server
or another client may fill.  An object belongs to the namespace of its resource, and `controller` is the UID of its
controller reference.
-/

namespace SimpleCache.Operator

/-- A `map[string]string`. -/
abbrev Labels := Finmap fun _ : String => GoString

/-- The fields of an object that the controller neither sets nor reads. -/
abbrev Fields := List (String × Json)

/-! ### Kubernetes types -/

inductive PortProtocol
  | tcp
  | udp
  | sctp
  deriving DecidableEq

inductive ServiceType
  | clusterIP
  | nodePort
  | loadBalancer
  | externalName
  deriving DecidableEq

/-- `corev1.ServicePort`. -/
structure ServicePort where
  name : String
  port : ℤ
  targetPort : ℤ
  protocol : PortProtocol
  deriving DecidableEq

/-- `corev1.ServiceSpec`. -/
structure ServiceSpec where
  type : ServiceType
  clusterIP : GoString
  selector : Labels
  ports : List ServicePort
  publishNotReadyAddresses : Bool
  rest : Fields
  deriving DecidableEq

/-- `rbacv1.PolicyRule`. -/
structure PolicyRule where
  apiGroups : List String
  resources : List String
  verbs : List String
  deriving DecidableEq

/-- `rbacv1.RoleRef`. -/
structure RoleRef where
  apiGroup : String
  kind : String
  name : GoString
  deriving DecidableEq

/-- `rbacv1.Subject`. -/
structure Subject where
  kind : String
  name : GoString
  ns : GoString
  deriving DecidableEq

/-- Where the value of an environment variable comes from. -/
inductive EnvSource
  | value (v : GoString)
  | fieldRef (path : String)
  | secretKeyRef (secret : GoString) (key : String)
  deriving DecidableEq

/-- `corev1.EnvVar`. -/
structure EnvVar where
  name : String
  source : EnvSource
  deriving DecidableEq

/-- `corev1.Probe` with an HTTP handler. -/
structure Probe where
  path : String
  port : ℤ
  periodSeconds : ℤ
  timeoutSeconds : ℤ
  failureThreshold : ℤ
  successThreshold : ℤ
  deriving DecidableEq

inductive PullPolicy
  | always
  | never
  | ifNotPresent
  deriving DecidableEq

/-- `corev1.ContainerPort`. -/
structure ContainerPort where
  name : String
  containerPort : ℤ
  protocol : PortProtocol
  deriving DecidableEq

/-- `corev1.Container`. -/
structure Container where
  name : String
  image : GoString
  imagePullPolicy : PullPolicy
  command : List String
  args : List String
  env : List EnvVar
  ports : List ContainerPort
  resources : ResourceRequirements
  startupProbe : Option Probe
  livenessProbe : Option Probe
  readinessProbe : Option Probe
  rest : Fields
  deriving DecidableEq

/-- `corev1.PodSpec`. -/
structure PodSpec where
  serviceAccountName : GoString
  deprecatedServiceAccount : GoString
  terminationGracePeriodSeconds : Option ℤ
  containers : List Container
  rest : Fields
  deriving DecidableEq

/-- `corev1.PodTemplateSpec`. -/
structure PodTemplateSpec where
  labels : Labels
  annotations : Labels
  spec : PodSpec
  deriving DecidableEq

inductive PodManagementPolicy
  | orderedReady
  | parallel
  deriving DecidableEq

/-- `appsv1.StatefulSetSpec`. -/
structure StatefulSetSpec where
  replicas : ℤ
  serviceName : GoString
  podManagementPolicy : PodManagementPolicy
  selector : Labels
  template : PodTemplateSpec
  rest : Fields
  deriving DecidableEq

/-- The fields of `appsv1.StatefulSetStatus` that the controller reads. -/
structure StatefulSetStatus where
  observedGeneration : ℤ
  readyReplicas : ℤ
  updatedReplicas : ℤ
  currentRevision : GoString
  updateRevision : GoString
  deriving DecidableEq

/-- The kinds of `gatewayKinds`. -/
inductive GatewayKind
  | gateway
  | httpRoute
  | envoyProxy
  | backend
  | backendTrafficPolicy
  deriving DecidableEq, Repr

/-- The kinds of the namespaced objects. -/
inductive Kind
  | service
  | serviceAccount
  | role
  | roleBinding
  | statefulSet
  | gateway (kind : GatewayKind)
  deriving DecidableEq, Repr

/-- What an object holds, by its kind. -/
inductive Body
  | service (spec : ServiceSpec)
  | serviceAccount (rest : Fields)
  | role (rules : List PolicyRule)
  | roleBinding (roleRef : RoleRef) (subjects : List Subject)
  | statefulSet (spec : StatefulSetSpec) (status : StatefulSetStatus)
  | gateway (kind : GatewayKind) (spec status : Json)
  deriving DecidableEq

def Body.kind : Body → Kind
  | .service _ => .service
  | .serviceAccount _ => .serviceAccount
  | .role _ => .role
  | .roleBinding _ _ => .roleBinding
  | .statefulSet _ _ => .statefulSet
  | .gateway kind _ _ => .gateway kind

/-- An object of the namespace. -/
structure Object where
  name : GoString
  controller : Option GoString
  generation : ℤ
  body : Body
  deriving DecidableEq

/-- What names an object of the namespace. -/
structure Key where
  kind : Kind
  name : GoString
  deriving DecidableEq

def Object.key (o : Object) : Key := ⟨o.body.kind, o.name⟩

/-- `metav1.IsControlledBy`. -/
def Object.controlledBy (o : Object) (cr : SimpleCacheResource) : Bool := o.controller = some cr.uid

/-! ### `resources.go` -/

/-- `labels`. -/
def labels (cr : SimpleCacheResource) : Labels := Finmap.singleton "app" cr.name

/-- An object with the metadata of `metadata`. -/
def metadata (name : GoString) (body : Body) : Object := ⟨name, none, 0, body⟩

/-- `clusterService`. -/
def clusterService (cr : SimpleCacheResource) : Object :=
  metadata (cr.name ++ Go.ascii "-svc") (.service {
    type := .clusterIP
    clusterIP := Go.ascii "None"
    selector := labels cr
    ports := [⟨"cluster", 8001, 8001, .tcp⟩]
    publishNotReadyAddresses := false
    rest := [] })

/-- The spec of `apiService`. -/
def apiServiceSpec (cr : SimpleCacheResource) : ServiceSpec where
  type := .clusterIP
  clusterIP := []
  selector := labels cr
  ports := [⟨"api", 9999, 9999, .tcp⟩]
  publishNotReadyAddresses := false
  rest := []

/-- `apiService`. -/
def apiService (cr : SimpleCacheResource) : Object :=
  metadata (cr.name ++ Go.ascii "-api") (.service (apiServiceSpec cr))

/-- `account`. -/
def account (cr : SimpleCacheResource) : Object := metadata (cr.name ++ Go.ascii "-cache") (.serviceAccount [])

/-- `discoveryRole`. -/
def discoveryRole (cr : SimpleCacheResource) : Object :=
  metadata (cr.name ++ Go.ascii "-discovery")
    (.role [⟨["discovery.k8s.io"], ["endpointslices"], ["get", "list", "watch"]⟩])

/-- `discoveryBinding`. -/
def discoveryBinding (cr : SimpleCacheResource) : Object :=
  metadata (cr.name ++ Go.ascii "-discovery") (.roleBinding
    ⟨"rbac.authorization.k8s.io", "Role", cr.name ++ Go.ascii "-discovery"⟩
    [⟨"ServiceAccount", cr.name ++ Go.ascii "-cache", cr.ns⟩])

/-- The request of `resourceDefaults` for one resource that has none. -/
def defaultRequest (limits : ResourceList) (name : String) (q : ℚ) : ℚ :=
  match limits.lookup name with
  | some limit => if limit < q then limit else q
  | none => q

/-- One round of the loop of `resourceDefaults`. -/
def addRequest (limits : ResourceList) (requests : ResourceList) (name : String) (q : ℚ) : ResourceList :=
  if name ∈ requests then requests else requests.insert name (defaultRequest limits name q)

/-- `resourceDefaults`: 100m of CPU and 128Mi of memory are requested, and 256Mi of memory are the limit. -/
def resourceDefaults (input : ResourceRequirements) : ResourceRequirements :=
  let requests := addRequest input.limits (addRequest input.limits input.requests "cpu" (1 / 10)) "memory" (128 * 2 ^ 20)
  let memory : ℚ := 256 * 2 ^ 20
  { requests := requests
    limits :=
      if "memory" ∈ input.limits then input.limits
      else
        -- the request is present, for the loop has added it
        let request := (requests.lookup "memory").getD 0
        input.limits.insert "memory" (if memory < request then request else memory) }

/-- The queue bound of a spec. -/
def pending (spec : SimpleCacheSpec) : ℤ := spec.sourceMaxPending.getD 128

/-- The environment of the container of `statefulSet`. -/
def cacheEnv (cr : SimpleCacheResource) : List EnvVar :=
  [⟨"POD_NAME", .fieldRef "metadata.name"⟩,
    ⟨"POD_NAMESPACE", .fieldRef "metadata.namespace"⟩,
    ⟨"DISCOVERY_MODE", .value (Go.ascii "kubernetes")⟩,
    ⟨"CLUSTER_SERVICE", .value (cr.name ++ Go.ascii "-svc")⟩,
    ⟨"CACHE_BYTES", .value (Go.formatInt cr.spec.cacheBytes)⟩,
    ⟨"TTL_SECONDS", .value (Go.formatInt cr.spec.ttlSeconds)⟩,
    ⟨"MAX_MISS_WAITERS", .value (Go.formatInt cr.spec.maxMissWaiters)⟩,
    ⟨"SOURCE_MAX_PENDING", .value (Go.formatInt (pending cr.spec))⟩,
    ⟨"WRITE_MAX_CONCURRENCY", .value (Go.formatInt cr.spec.maxConcurrentWrites)⟩] ++
  if cr.spec.sourceSecret = [] then []
  else
    [⟨"SOURCE_MODE", .value (Go.ascii "postgres")⟩,
      ⟨"DATABASE_URL", .secretKeyRef cr.spec.sourceSecret "DATABASE_URL"⟩,
      ⟨"CACHE_ADMIN_TOKEN", .secretKeyRef cr.spec.sourceSecret "CACHE_ADMIN_TOKEN"⟩]

/-- The probes of `statefulSet`. -/
def probe (path : String) : Probe := ⟨path, 9999, 2, 1, 3, 1⟩

/-- The container of `statefulSet`. -/
def cacheContainer (cr : SimpleCacheResource) : Container where
  name := "cache"
  image := cr.spec.image
  imagePullPolicy := .ifNotPresent
  command := ["./geecache-server", "-port=8001", "-api=true"]
  args := []
  env := cacheEnv cr
  ports := [⟨"cluster", 8001, .tcp⟩, ⟨"api", 9999, .tcp⟩]
  resources := resourceDefaults cr.spec.resources
  startupProbe := some { probe "/healthz" with failureThreshold := 30 }
  livenessProbe := some (probe "/healthz")
  readinessProbe := some (probe "/readyz")
  rest := []

/-- The spec of `statefulSet`. -/
def statefulSetSpec (cr : SimpleCacheResource) : StatefulSetSpec where
  replicas := cr.spec.size
  serviceName := cr.name ++ Go.ascii "-svc"
  podManagementPolicy := .parallel
  selector := labels cr
  template :=
    { labels := labels cr
      annotations := ((Finmap.singleton "prometheus.io/scrape" (Go.ascii "true")).insert
        "prometheus.io/port" (Go.ascii "9999")).insert "prometheus.io/path" (Go.ascii "/metrics")
      spec :=
        { serviceAccountName := cr.name ++ Go.ascii "-cache"
          deprecatedServiceAccount := []
          terminationGracePeriodSeconds := some 10
          containers := [cacheContainer cr]
          rest := [] } }
  rest := []

/-- `statefulSet`. -/
def statefulSet (cr : SimpleCacheResource) : Object :=
  metadata cr.name (.statefulSet (statefulSetSpec cr) ⟨0, 0, 0, [], []⟩)

end SimpleCache.Operator
