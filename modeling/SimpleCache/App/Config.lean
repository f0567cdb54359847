import SimpleCache.Cluster.Directory
import SimpleCache.Go.Net
import SimpleCache.Go.Url

/-!
# App.Config — the configuration of the engine (`app/config.go`)

`fromEnv` reads the environment as a function from names to values, where an unset variable is empty.  Its errors are
their texts.  `url.Parse` and `strings.ToLower` are parameters of `staticAddress`: they are only used for the members of
the static mode.
-/

namespace SimpleCache.App

open Cluster (Member splitHostPort)

/-- `Config`; durations are nanoseconds. -/
structure Config where
  clusterAddr : GoString
  apiAddr : GoString
  selfID : GoString
  discoveryMode : GoString
  ns : GoString
  clusterService : GoString
  api : Bool
  cacheBytes : ℤ
  ttl : ℤ
  sourceConcurrency : ℤ
  sourceMaxPending : ℤ
  maxMissWaiters : ℤ
  writeConcurrency : ℤ
  members : List Member
  debugAddr : GoString
  profileContention : Bool
  sourceMode : GoString
  databaseURL : GoString
  adminToken : GoString
  deriving DecidableEq, Repr

/-- The environment as `os.Getenv` shows it. -/
abbrev Env := String → GoString

/-! ### Addresses -/

/-- `validateListenAddr` returns nil. -/
def validListenAddr (address : GoString) : Bool :=
  match splitHostPort address with
  | none => false
  | some (_, port) =>
    match Go.parseInt port with
    | none => false
    | some n => 0 ≤ n && n ≤ 65535

/-- `IP.IsLoopback`. -/
def isLoopback (ip : Go.IP) : Bool :=
  match Go.to4 ip with
  | some v4 => v4.a = 127
  | none => ip = List.replicate 15 0 ++ [1]

/-- `validateDebugAddr` returns nil: no address, or a literal loopback address. -/
def validDebugAddr (address : GoString) : Bool :=
  if address = [] then true
  else
    match splitHostPort address with
    | none => false
    | some (host, port) =>
      match Go.parseInt port, Go.parseIP host with
      | some number, some ip => 0 ≤ number && number ≤ 65535 && isLoopback ip
      | _, _ => false

/-- The fields of a `url.URL` that `staticAddress` reads. -/
structure ParsedURL where
  scheme : GoString
  host : GoString
  hasUser : Bool
  rawQuery : GoString
  fragment : GoString
  path : GoString

section

variable (parseURL : GoString → Option ParsedURL) (toLower : GoString → GoString)

/-- `staticAddress`. -/
def staticAddress (raw : GoString) : Except String GoString :=
  match parseURL raw with
  | none => .error "invalid static member address"
  | some u =>
    if u.scheme ≠ Go.ascii "http" ∨ u.host = [] ∨ u.hasUser ∨ u.rawQuery ≠ [] ∨ u.fragment ≠ [] ∨
        (u.path ≠ [] ∧ u.path ≠ Go.ascii "/") then .error "invalid static member address"
    else
      match splitHostPort u.host with
      | none => .error "invalid static member address"
      | some (host, port) =>
        match Go.parseInt port with
        | none => .error "invalid static member address"
        | some number =>
          if host = [] ∨ number < 1 ∨ 65535 < number then .error "invalid static member address"
          else .ok (Go.joinHostPort (toLower host) (Go.formatInt number))

/-! ### `Validate` -/

/-- The loop of `Validate` over the members. -/
def validateMembers : List Member → Except String Unit
  | [] => .ok ()
  | member :: rest =>
    if member.id = [] ∨ (47 : UInt8) ∈ member.address ∨ (63 : UInt8) ∈ member.address ∨ (35 : UInt8) ∈ member.address
    then .error "invalid member"
    else
      match staticAddress parseURL toLower (Go.ascii "http://" ++ member.address) with
      | .error _ => .error "invalid member address"
      | .ok _ => validateMembers rest

/-- The switch of `Validate` over the discovery mode. -/
def Config.validateDiscovery (c : Config) : Except String Unit :=
  if c.discoveryMode = Go.ascii "static" then .ok ()
  else if c.discoveryMode = Go.ascii "kubernetes" then
    let (ns, pod) := Go.cut c.selfID 47
    if c.ns = [] ∨ c.clusterService = [] ∨ (47 : UInt8) ∉ c.selfID ∨ ns ≠ c.ns ∨ pod = [] ∨ (47 : UInt8) ∈ pod then
      .error "Kubernetes discovery requires namespace/pod SelfID, POD_NAMESPACE and CLUSTER_SERVICE"
    else .ok ()
  else .error "unsupported DISCOVERY_MODE"

/-- `Config.Validate`. -/
def Config.validate (c : Config) : Except String Unit :=
  if validListenAddr c.clusterAddr = false then .error "invalid ClusterAddr"
  else if (c.api ∨ c.apiAddr ≠ []) ∧ validListenAddr c.apiAddr = false then .error "invalid API_ADDR"
  else if c.selfID = [] then .error "SelfID is required"
  else if validDebugAddr c.debugAddr = false then .error "DEBUG_ADDR requires a literal loopback IP and port"
  else if c.profileContention ∧ c.debugAddr = [] then .error "contention profiling requires DEBUG_ADDR"
  else if c.cacheBytes < 2 ^ 20 ∨ 128 * 2 ^ 20 < c.cacheBytes then .error "invalid CACHE_BYTES"
  else if c.ttl < 0 ∨ 3600 * 10 ^ 9 < c.ttl then .error "invalid TTL_SECONDS"
  else if c.sourceConcurrency < 1 ∨ 1024 < c.sourceConcurrency then .error "invalid SOURCE_MAX_CONCURRENCY"
  else if c.sourceMaxPending < 0 ∨ 4096 < c.sourceMaxPending then .error "invalid SOURCE_MAX_PENDING"
  else if c.maxMissWaiters < 0 ∨ 4096 < c.maxMissWaiters then .error "invalid MAX_MISS_WAITERS"
  else if c.writeConcurrency < 0 ∨ 256 < c.writeConcurrency then .error "invalid WRITE_MAX_CONCURRENCY"
  else do
    c.validateDiscovery
    validateMembers parseURL toLower c.members

/-- `Config.validateSourceConfig`. -/
def Config.validateSourceConfig (c : Config) : Except String Unit :=
  if c.sourceMode ≠ [] ∧ c.sourceMode ≠ Go.ascii "demo" ∧ c.sourceMode ≠ Go.ascii "postgres" then
    .error "unsupported SOURCE_MODE"
  else if c.sourceMode = Go.ascii "postgres" ∧ (c.databaseURL = [] ∨ c.adminToken = []) then
    .error "postgres mode requires DATABASE_URL and CACHE_ADMIN_TOKEN"
  else .ok ()

/-! ### `FromEnv` -/

/-- The variables that `FromEnv` refuses. -/
def removedVariables : List String := ["READ_ROUTING_MODE", "HOT_CACHE_BYTES", "PEERS", "PEER_SERVICE"]

/-- The configuration before the numbers and the identity are read. -/
def baseConfig (port : ℤ) (api : Bool) (env : Env) : Config where
  clusterAddr := Go.ascii "0.0.0.0:" ++ Go.formatInt port
  apiAddr := if env "API_ADDR" = [] then Go.ascii "0.0.0.0:9999" else env "API_ADDR"
  selfID := []
  discoveryMode := if env "DISCOVERY_MODE" = [] then Go.ascii "static" else env "DISCOVERY_MODE"
  ns := env "POD_NAMESPACE"
  clusterService := env "CLUSTER_SERVICE"
  api := api
  cacheBytes := 64 * 2 ^ 20
  ttl := 60 * 10 ^ 9
  sourceConcurrency := 32
  sourceMaxPending := 128
  maxMissWaiters := 128
  writeConcurrency := 16
  members := []
  debugAddr := env "DEBUG_ADDR"
  profileContention := false
  sourceMode := if env "SOURCE_MODE" = [] then Go.ascii "demo" else env "SOURCE_MODE"
  databaseURL := env "DATABASE_URL"
  adminToken := env "CACHE_ADMIN_TOKEN"

/-- A number of the environment, or its default; `zeroDefault` refuses an explicit zero. -/
def bindInt (env : Env) (name : String) (zeroDefault : Bool) (value : ℤ) : Except String ℤ :=
  if env name = [] then .ok value
  else
    match Go.parseInt (env name) with
    | none => .error ("invalid " ++ name)
    | some n => if n = 0 ∧ zeroDefault then .error ("invalid " ++ name) else .ok n

/-- `time.ParseDuration(raw + "s")` of a text that `ParseInt` accepts: an optional sign and digits. -/
def parseSeconds (raw : GoString) : Option ℤ :=
  let (neg, digits) : Bool × GoString :=
    match raw with
    | 45 :: rest => (true, rest)
    | 43 :: rest => (false, rest)
    | _ => (false, raw)
  (Go.parseDigits digits).bind fun v =>
    -- the conversion to nanoseconds must not overflow
    if 2 ^ 63 / 10 ^ 9 < v then none
    else if neg then some (-(v * 10 ^ 9 : ℤ))
    else some (v * 10 ^ 9)

/-- `TTL_SECONDS`. -/
def bindTTL (env : Env) (value : ℤ) : Except String ℤ :=
  if env "TTL_SECONDS" = [] then .ok value
  else
    match Go.parseInt (env "TTL_SECONDS"), parseSeconds (env "TTL_SECONDS") with
    | some _, some duration => if duration = 0 then .error "invalid TTL_SECONDS" else .ok duration
    | _, _ => .error "invalid TTL_SECONDS"

/-- The members of the static mode. -/
def staticMembers : List GoString → Except String (List Member)
  | [] => .ok []
  | raw :: rest => do
    let address ← staticAddress parseURL toLower (Go.trimSpace raw)
    let members ← staticMembers rest
    return ⟨address, address⟩ :: members

/-- The switch of `FromEnv` over the discovery mode. -/
def bindDiscovery (port : ℤ) (env : Env) (c : Config) : Except String Config :=
  if c.discoveryMode = Go.ascii "kubernetes" then
    let pod := env "POD_NAME"
    if pod = [] then .error "Kubernetes discovery requires POD_NAME, POD_NAMESPACE and CLUSTER_SERVICE"
    else .ok { c with selfID := c.ns ++ 47 :: pod }
  else if c.discoveryMode = Go.ascii "static" then do
    let self := if env "SELF_ADDR" = [] then Go.ascii "http://localhost:" ++ Go.formatInt port else env "SELF_ADDR"
    let address ← staticAddress parseURL toLower self
    let members := if env "MEMBERS" = [] then self else env "MEMBERS"
    let members ← staticMembers parseURL toLower (members.splitOn 44)
    return { c with selfID := address, members := members }
  else .ok c

/-- `FromEnv`. -/
def fromEnv (port : ℤ) (api : Bool) (env : Env) : Except String Config :=
  match removedVariables.find? fun old => env old ≠ [] with
  | some old =>
    .error (old ++ " was removed; use Gateway routing and MEMBERS/CLUSTER_SERVICE for invalidation discovery")
  | none =>
    if port < 1 ∨ 65535 < port then .error "invalid notification port"
    else do
      let c := baseConfig port api env
      let cacheBytes ← bindInt env "CACHE_BYTES" false c.cacheBytes
      let ttl ← bindTTL env c.ttl
      let sourceConcurrency ← bindInt env "SOURCE_MAX_CONCURRENCY" false c.sourceConcurrency
      let sourceMaxPending ← bindInt env "SOURCE_MAX_PENDING" false c.sourceMaxPending
      let maxMissWaiters ← bindInt env "MAX_MISS_WAITERS" true c.maxMissWaiters
      let writeConcurrency ← bindInt env "WRITE_MAX_CONCURRENCY" true c.writeConcurrency
      let c ← bindDiscovery parseURL toLower port env { c with
        cacheBytes := cacheBytes
        ttl := ttl
        sourceConcurrency := sourceConcurrency
        sourceMaxPending := sourceMaxPending
        maxMissWaiters := maxMissWaiters
        writeConcurrency := writeConcurrency }
      c.validate parseURL toLower
      c.validateSourceConfig
      return c

end

/-! ### Reading back what was printed -/

theorem bindInt_unset {env : Env} {name : String} (he : env name = []) (zeroDefault : Bool) (value : ℤ) :
    bindInt env name zeroDefault value = .ok value := by
  rw [bindInt, if_pos he]

theorem bindInt_formatInt {env : Env} {name : String} {zeroDefault : Bool} {v : ℤ} (he : env name = Go.formatInt v)
    (h0 : 0 ≤ v) (hv : v ≤ Go.maxInt64) (hz : zeroDefault = true → v ≠ 0) (value : ℤ) :
    bindInt env name zeroDefault value = .ok v := by
  rw [bindInt, he, if_neg (Go.formatInt_ne_nil v), Go.parseInt_formatInt h0 hv]
  dsimp only
  rw [if_neg fun h => hz h.2 h.1]

theorem bindTTL_formatInt {env : Env} {v : ℤ} (he : env "TTL_SECONDS" = Go.formatInt v) (h1 : 1 ≤ v) (h2 : v ≤ 3600)
    (value : ℤ) : bindTTL env value = .ok (v * 10 ^ 9) := by
  obtain ⟨n, rfl⟩ := Int.eq_ofNat_of_zero_le (show 0 ≤ v by omega)
  have hparse : Go.parseInt (Go.formatInt n) = some (n : ℤ) :=
    Go.parseInt_formatInt (by omega) (by unfold Go.maxInt64; omega)
  have hseconds : parseSeconds (Go.formatInt n) = some ((n : ℤ) * 10 ^ 9) := by
    have hp := Go.parseDigits_formatUint n
    have hform : Go.formatInt (n : ℤ) = Go.formatUint n := rfl
    obtain ⟨b, rest, hl, h45, h43⟩ := Go.formatUint_eq_cons n
    rw [hform, hl]
    rw [hl] at hp
    simp [parseSeconds, h45, h43, hp]
    omega
  rw [bindTTL, he, if_neg (Go.formatInt_ne_nil _), hparse, hseconds]
  dsimp only
  rw [if_neg (by omega)]

/-! ### Kubernetes mode -/

theorem Config.validateDiscovery_kubernetes {c : Config} {pod : GoString} (hmode : c.discoveryMode = Go.ascii "kubernetes")
    (hself : c.selfID = c.ns ++ 47 :: pod) (hns : c.ns ≠ []) (hns' : (47 : UInt8) ∉ c.ns) (hpod : pod ≠ [])
    (hpod' : (47 : UInt8) ∉ pod) (hservice : c.clusterService ≠ []) : c.validateDiscovery = .ok () := by
  have hcut : Go.cut c.selfID 47 = (c.ns, pod) := by rw [hself, Go.cut_append hns']
  have hslash : (47 : UInt8) ∈ c.selfID := by simp [hself]
  have hstatic : ¬c.discoveryMode = Go.ascii "static" := by
    rw [hmode]
    decide +kernel
  rw [validateDiscovery, if_neg hstatic, if_pos hmode, hcut]
  dsimp only
  rw [if_neg]
  rintro (h | h | h | h | h | h)
  · exact hns h
  · exact hservice h
  · exact h hslash
  · exact h rfl
  · exact hpod h
  · exact hpod' h

/-- `Validate` accepts a configuration whose identity and budgets are in order. -/
theorem Config.validate_ok (parseURL : GoString → Option ParsedURL) (toLower : GoString → GoString) {c : Config}
    (hcluster : validListenAddr c.clusterAddr = true) (hapi : validListenAddr c.apiAddr = true) (hself : c.selfID ≠ [])
    (hdebug : c.debugAddr = []) (hprofile : c.profileContention = false)
    (hbytes : 2 ^ 20 ≤ c.cacheBytes ∧ c.cacheBytes ≤ 128 * 2 ^ 20) (httl : 0 ≤ c.ttl ∧ c.ttl ≤ 3600 * 10 ^ 9)
    (hconc : 1 ≤ c.sourceConcurrency ∧ c.sourceConcurrency ≤ 1024)
    (hpending : 0 ≤ c.sourceMaxPending ∧ c.sourceMaxPending ≤ 4096)
    (hwaiters : 0 ≤ c.maxMissWaiters ∧ c.maxMissWaiters ≤ 4096)
    (hwrites : 0 ≤ c.writeConcurrency ∧ c.writeConcurrency ≤ 256) (hdiscovery : c.validateDiscovery = .ok ())
    (hmembers : c.members = []) : c.validate parseURL toLower = .ok () := by
  rw [validate, if_neg (by simp [hcluster]), if_neg (by simp [hapi]), if_neg hself,
    if_neg (by simp [hdebug, validDebugAddr]), if_neg (by simp [hprofile]), if_neg (by omega), if_neg (by omega),
    if_neg (by omega), if_neg (by omega), if_neg (by omega), if_neg (by omega), hdiscovery, hmembers]
  rfl

end SimpleCache.App
