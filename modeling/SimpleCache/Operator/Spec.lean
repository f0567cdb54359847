import Mathlib.Data.List.AList
import Mathlib.Data.Rat.Defs
import SimpleCache.Go.Text

/-!
# Operator.Spec — the SimpleCache resource, its defaults and its validation (`resources.go`, `validation.go`)

The checks of names are a library's, and so a parameter, with what the library documents as a hypothesis where it is
needed.  A quantity is a rational number.  A `ResourceList` is a map with the order in which one iteration visits it, so a
statement over all of them covers every order.  The errors of `validateSpec` are their texts.
-/

namespace SimpleCache.Operator

/-! ### Names -/

/-- `[a-z]`. -/
def isLower (c : UInt8) : Bool := 97 ≤ c && c ≤ 122

/-- `[a-z0-9]`. -/
def isAlnum (c : UInt8) : Bool := isLower c || Go.isDigit c

/-- The expression `[a-z0-9]([-a-z0-9]*[a-z0-9])?`. -/
def labelFmt (s : GoString) : Bool :=
  s.head?.any isAlnum && s.getLast?.any isAlnum && s.all fun c => isAlnum c || c = 45

/-- The checks of names of `k8s.io/apimachinery`; each says whether the check finds nothing. -/
structure NameChecks where
  isDNS1123Label : GoString → Bool
  isDNS1035Label : GoString → Bool
  isDNS1123Subdomain : GoString → Bool

namespace NameChecks

/-- The checks are what their package documents. -/
structure Documented (names : NameChecks) : Prop where
  dns1123Label : ∀ s, names.isDNS1123Label s = (s.length ≤ 63 && labelFmt s)
  dns1035Label : ∀ s, names.isDNS1035Label s = (s.length ≤ 63 && labelFmt s && s.head?.any isLower)
  dns1123Subdomain : ∀ s, names.isDNS1123Subdomain s = (s.length ≤ 253 && (s.splitOn 46).all labelFmt)

/-- The documented checks. -/
def documented : NameChecks where
  isDNS1123Label s := s.length ≤ 63 && labelFmt s
  isDNS1035Label s := s.length ≤ 63 && labelFmt s && s.head?.any isLower
  isDNS1123Subdomain s := s.length ≤ 253 && (s.splitOn 46).all labelFmt

theorem documented_documented : documented.Documented := ⟨fun _ => rfl, fun _ => rfl, fun _ => rfl⟩

end NameChecks

/-! ### The resource -/

/-- `corev1.ResourceList`. -/
abbrev ResourceList := AList fun _ : String => ℚ

-- the library's instance rewrites a proposition, and so does not evaluate
instance : DecidableEq ResourceList := fun a b => decidable_of_iff (a.entries = b.entries) AList.ext_iff.symm

/-- `corev1.ResourceRequirements`. -/
structure ResourceRequirements where
  requests : ResourceList
  limits : ResourceList
  deriving DecidableEq

/-- `GatewaySpec`. -/
structure GatewaySpec where
  className : GoString
  replicas : ℤ
  deriving DecidableEq

/-- `SimpleCacheSpec`. -/
structure SimpleCacheSpec where
  gateway : Option GatewaySpec
  size : ℤ
  image : GoString
  sourceSecret : GoString
  cacheBytes : ℤ
  ttlSeconds : ℤ
  maxMissWaiters : ℤ
  sourceMaxPending : Option ℤ
  maxConcurrentWrites : ℤ
  resources : ResourceRequirements
  deriving DecidableEq

/-- The name, the namespace and the identity of a `SimpleCache`, and its spec. -/
structure SimpleCacheResource where
  name : GoString
  ns : GoString
  uid : GoString
  spec : SimpleCacheSpec
  deriving DecidableEq

/-- The defaults of a gateway. -/
def GatewaySpec.defaults (g : GatewaySpec) : GatewaySpec where
  className := if g.className = [] then Go.ascii "eg" else g.className
  replicas := if g.replicas = 0 then 2 else g.replicas

/-- The defaults of a spec. -/
def SimpleCacheSpec.defaults (s : SimpleCacheSpec) : SimpleCacheSpec :=
  { s with
    gateway := s.gateway.map GatewaySpec.defaults
    size := if s.size = 0 then 3 else s.size
    cacheBytes := if s.cacheBytes = 0 then 64 * 2 ^ 20 else s.cacheBytes
    ttlSeconds := if s.ttlSeconds = 0 then 60 else s.ttlSeconds
    maxMissWaiters := if s.maxMissWaiters = 0 then 128 else s.maxMissWaiters
    sourceMaxPending := some (s.sourceMaxPending.getD 128)
    maxConcurrentWrites := if s.maxConcurrentWrites = 0 then 16 else s.maxConcurrentWrites }

/-- `defaults`. -/
def defaults (cr : SimpleCacheResource) : SimpleCacheResource := { cr with spec := cr.spec.defaults }

/-! ### Validation -/

/-- `validateGateway`. -/
def validateGateway (names : NameChecks) (cr : SimpleCacheResource) : Except String Unit :=
  match cr.spec.gateway with
  | none => .ok ()
  | some g =>
    if names.isDNS1123Subdomain g.className = false ∨ g.replicas < 1 ∨ 8 < g.replicas then
      .error "gateway className or replica count is invalid"
    else if 55 < cr.name.length ∨ names.isDNS1123Label cr.name = false then
      .error "gateway mode requires a DNS label name of at most 55 characters"
    else .ok ()

/-- The longest name that leaves room for the suffixes of the derived Services. -/
def maxName (spec : SimpleCacheSpec) : ℕ := if spec.gateway.isSome then 55 else 59

/-- The loop of `validateSpec` over the requests. -/
def validateRequests (limits : ResourceList) : List (Sigma fun _ : String => ℚ) → Except String Unit
  | [] => .ok ()
  | ⟨name, q⟩ :: rest =>
    if q < 0 then .error ("negative request for " ++ name)
    else if (limits.lookup name).any fun limit => limit < q then .error ("request exceeds limit for " ++ name)
    else validateRequests limits rest

/-- The loop of `validateSpec` over the limits. -/
def validateLimits : List (Sigma fun _ : String => ℚ) → Except String Unit
  | [] => .ok ()
  | ⟨name, q⟩ :: rest => if q < 0 then .error ("negative limit for " ++ name) else validateLimits rest

/-- The checks of the numbers of a spec. -/
def validateBudgets (names : NameChecks) (s : SimpleCacheSpec) : Except String Unit :=
  if s.sourceSecret ≠ [] ∧ names.isDNS1123Subdomain s.sourceSecret = false then
    .error "sourceSecret must be a valid Secret name"
  else if Go.trimSpace s.image = [] ∨ s.size < 1 ∨ 10 < s.size ∨ s.cacheBytes < 2 ^ 20 ∨ 128 * 2 ^ 20 < s.cacheBytes ∨
      s.ttlSeconds < 1 ∨ 3600 < s.ttlSeconds then
    .error "image, replica count, cache capacity or TTL is invalid"
  else if s.maxMissWaiters < 1 ∨ 4096 < s.maxMissWaiters ∨ s.maxConcurrentWrites < 1 ∨ 256 < s.maxConcurrentWrites then
    .error "miss waiter or write concurrency budget is invalid"
  else if s.sourceMaxPending.any fun n => n < 0 ∨ 4096 < n then
    .error "sourceMaxPending must be between 0 and 4096"
  else .ok ()

/-- `validateSpec`. -/
def validateSpec (names : NameChecks) (cr : SimpleCacheResource) : Except String Unit :=
  if maxName cr.spec < cr.name.length ∨ names.isDNS1035Label cr.name = false then
    .error ("name must be a DNS label starting with a letter, at most " ++ toString (maxName cr.spec) ++ " characters")
  else do
    validateGateway names cr
    validateBudgets names cr.spec
    validateRequests cr.spec.resources.limits cr.spec.resources.requests.entries
    validateLimits cr.spec.resources.limits.entries

/-- What `validateSpec` guarantees of the numbers of a spec. -/
structure Budgets (s : SimpleCacheSpec) : Prop where
  size : 1 ≤ s.size ∧ s.size ≤ 10
  cacheBytes : 2 ^ 20 ≤ s.cacheBytes ∧ s.cacheBytes ≤ 128 * 2 ^ 20
  ttlSeconds : 1 ≤ s.ttlSeconds ∧ s.ttlSeconds ≤ 3600
  maxMissWaiters : 1 ≤ s.maxMissWaiters ∧ s.maxMissWaiters ≤ 4096
  maxConcurrentWrites : 1 ≤ s.maxConcurrentWrites ∧ s.maxConcurrentWrites ≤ 256
  sourceMaxPending : ∀ n, s.sourceMaxPending = some n → 0 ≤ n ∧ n ≤ 4096

theorem validateBudgets_ok {names : NameChecks} {s : SimpleCacheSpec} (h : validateBudgets names s = .ok ()) :
    Budgets s := by
  unfold validateBudgets at h
  split_ifs at h with hsecret hsize hwaiters hpending
  refine ⟨by omega, by omega, by omega, by omega, by omega, fun n hn => ?_⟩
  simp only [hn, Option.any_some, decide_eq_true_eq] at hpending
  omega

theorem bind_eq_ok {ε α β : Type} {x : Except ε α} {f : α → Except ε β} {b : β} (h : x >>= f = .ok b) :
    ∃ a, x = .ok a ∧ f a = .ok b := by
  cases x with
  | error e => cases h
  | ok a => exact ⟨a, rfl, h⟩

theorem validateSpec_ok {names : NameChecks} {cr : SimpleCacheResource} (h : validateSpec names cr = .ok ()) :
    names.isDNS1035Label cr.name = true ∧ cr.name.length ≤ maxName cr.spec ∧ validateGateway names cr = .ok () ∧
      Budgets cr.spec := by
  unfold validateSpec at h
  split_ifs at h with hname
  obtain ⟨_, hgateway, h⟩ := bind_eq_ok h
  obtain ⟨_, hbudgets, _⟩ := bind_eq_ok h
  rw [not_or, not_lt, Bool.not_eq_false] at hname
  exact ⟨hname.2, hname.1, hgateway, validateBudgets_ok hbudgets⟩

end SimpleCache.Operator
