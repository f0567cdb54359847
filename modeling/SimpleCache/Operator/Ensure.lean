import SimpleCache.Operator.Objects

/-!
# Operator.Ensure — the mutation that `ensure` applies (`simplecache_controller.go`, `template.go`)

`mutate` is the closure that `ensure` gives to `CreateOrUpdate`: it starts from the object that was read, or from the
wanted one when there is none, and sets the fields the controller owns.
-/

namespace SimpleCache.Operator

/-- The answers of the API server that are errors. -/
inductive ApiErr
  | notFound
  | alreadyExists
  | conflict
  | other (text : String)
  deriving DecidableEq, Repr

/-- The errors of the controller. -/
inductive OpErr
  | api (e : ApiErr)
  | ownershipConflict (message : GoString)
  | message (text : String)
  deriving DecidableEq, Repr

/-- What `%T` prints for an object of a kind. -/
def Kind.typeName : Kind → String
  | .service => "*v1.Service"
  | .serviceAccount => "*v1.ServiceAccount"
  | .role => "*v1.Role"
  | .roleBinding => "*v1.RoleBinding"
  | .statefulSet => "*v1.StatefulSet"
  | .gateway _ => "*unstructured.Unstructured"

/-- The conflict with an object that another owner holds. -/
def conflictError (o : Object) : OpErr :=
  .ownershipConflict (Go.ascii o.body.kind.typeName ++ 32 :: (o.name ++ Go.ascii " is not owned by this SimpleCache"))

/-- The loop of `mergeTemplate` over the containers. -/
def mergeContainers (wanted : Container) : List Container → List Container
  | [] => [wanted]
  | c :: cs =>
    if c.name = wanted.name then
      { c with
        image := wanted.image
        imagePullPolicy := wanted.imagePullPolicy
        command := wanted.command
        args := wanted.args
        env := wanted.env
        ports := wanted.ports
        resources := wanted.resources
        startupProbe := wanted.startupProbe
        livenessProbe := wanted.livenessProbe
        readinessProbe := wanted.readinessProbe } :: cs
    else c :: mergeContainers wanted cs

/-- `mergeTemplate`. -/
def mergeTemplate (current desired : PodTemplateSpec) : PodTemplateSpec where
  labels := desired.labels ∪ current.labels
  annotations := desired.annotations ∪ current.annotations
  spec :=
    { current.spec with
      serviceAccountName := desired.spec.serviceAccountName
      deprecatedServiceAccount := desired.spec.serviceAccountName
      terminationGracePeriodSeconds := desired.spec.terminationGracePeriodSeconds
      containers :=
        match desired.spec.containers with
        | [] => current.spec.containers
        | wanted :: _ => mergeContainers wanted current.spec.containers }

/-- The case of `ensure` for a Service. -/
def mutateService (wanted current : ServiceSpec) : Except OpErr ServiceSpec :=
  if wanted.clusterIP = Go.ascii "None" ∧ current.clusterIP ≠ [] ∧ current.clusterIP ≠ Go.ascii "None" then
    .error (.message "existing Service is not headless")
  else
    .ok { current with
      clusterIP := if wanted.clusterIP = Go.ascii "None" then Go.ascii "None" else current.clusterIP
      selector := wanted.selector
      ports := wanted.ports
      type := wanted.type
      publishNotReadyAddresses := false }

/-- The case of `ensure` for a StatefulSet; the immutable fields of an existing one are kept. -/
def mutateStatefulSet (existing : Bool) (wanted current : StatefulSetSpec) : Except OpErr StatefulSetSpec :=
  if existing = false then .ok wanted
  else if current.serviceName ≠ wanted.serviceName ∨ current.selector ≠ wanted.selector then
    .error (.message "StatefulSet immutable identity does not match")
  else .ok { current with
    replicas := wanted.replicas
    template := mergeTemplate current.template wanted.template }

/-- The switch of `ensure` over the kinds. -/
def mutateBody (existing : Bool) : Body → Body → Except OpErr Body
  | .gateway _ wanted _, .gateway kind spec status =>
    .ok (.gateway kind (if Json.desiredSubset spec wanted then spec else wanted) status)
  | .service wanted, .service current => (mutateService wanted current).map .service
  | .role wanted, .role _ => .ok (.role wanted)
  | .roleBinding roleRef subjects, .roleBinding current _ =>
    if existing ∧ current ≠ roleRef then .error (.message "RoleBinding roleRef is immutable")
    else .ok (.roleBinding roleRef subjects)
  | .statefulSet wanted _, .statefulSet current status =>
    (mutateStatefulSet existing wanted current).map fun spec => .statefulSet spec status
  | _, current => .ok current

/-- The closure of `ensure` on the object that was read, if any. -/
def mutate (owner : SimpleCacheResource) (wanted : Object) (read : Option Object) : Except OpErr Object :=
  let current := read.getD wanted
  if read.isSome ∧ current.controlledBy owner = false then .error (conflictError current)
  else (mutateBody read.isSome wanted.body current.body).map fun body =>
    { current with controller := some owner.uid, body := body }

/-! ### What it keeps -/

theorem map_eq_ok {ε α β : Type} {f : α → β} {x : Except ε α} {b : β} (h : x.map f = .ok b) :
    ∃ a, x = .ok a ∧ f a = b := by
  cases x with
  | error e => cases h
  | ok a => exact ⟨a, rfl, Except.ok.inj h⟩

theorem mutateBody_kind {existing : Bool} {wanted current body : Body} (h : mutateBody existing wanted current = .ok body) :
    body.kind = current.kind := by
  unfold mutateBody at h
  split at h
  · cases h
    rfl
  · obtain ⟨_, _, rfl⟩ := map_eq_ok h
    rfl
  · cases h
    rfl
  · split_ifs at h
    cases h
    rfl
  · obtain ⟨_, _, rfl⟩ := map_eq_ok h
    rfl
  · cases h
    rfl

/-- The selector is set, and an allocated ClusterIP is kept. -/
theorem mutateService_ok {wanted current spec : ServiceSpec} (h : mutateService wanted current = .ok spec) :
    spec.selector = wanted.selector ∧ (wanted.clusterIP ≠ Go.ascii "None" → spec.clusterIP = current.clusterIP) := by
  unfold mutateService at h
  rw [ite_eq_iff] at h
  rcases h with ⟨-, h⟩ | ⟨-, h⟩
  · cases h
  · cases h
    exact ⟨rfl, fun hw => if_neg hw⟩

section

variable {owner : SimpleCacheResource} {wanted o : Object}

/-- Where there was nothing, the wanted object is created under the owner. -/
theorem mutate_none (h : mutate owner wanted none = .ok o) :
    ∃ body, mutateBody false wanted.body wanted.body = .ok body ∧
      o = { wanted with controller := some owner.uid, body := body } := by
  simp only [mutate, Option.isSome_none, Bool.false_eq_true, false_and, if_false, Option.getD_none] at h
  obtain ⟨body, hbody, rfl⟩ := map_eq_ok h
  exact ⟨body, hbody, rfl⟩

/-- An object that was read is controlled by the owner, and keeps what the switch does not set. -/
theorem mutate_some {e : Object} (h : mutate owner wanted (some e) = .ok o) :
    e.controlledBy owner = true ∧ ∃ body, mutateBody true wanted.body e.body = .ok body ∧
      o = { e with controller := some owner.uid, body := body } := by
  simp only [mutate, Option.isSome_some, true_and, Option.getD_some] at h
  split_ifs at h with howned
  obtain ⟨body, hbody, rfl⟩ := map_eq_ok h
  rw [Bool.not_eq_false] at howned
  exact ⟨howned, body, hbody, rfl⟩

end

end SimpleCache.Operator
