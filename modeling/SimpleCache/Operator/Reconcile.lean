import SimpleCache.Lib.Run
import SimpleCache.Operator.Gateway

/-!
# Operator.Reconcile — a Reconcile pass, and the system it runs in (`simplecache_controller.go`)

`reconcile` is one pass.  The `System` is the API server with its earlier states and the pass that is under way, if any.
Between any two calls of a pass the spec of the resource is edited, a ClusterIP is assigned, a status is reported, and
foreign objects come, go and change; a call may fail, a typed read may show an earlier state, and the controller may crash
and start a new pass.  Nobody else creates, deletes or edits the objects that the resource controls.
-/

namespace SimpleCache.Operator

open Lib (Prog)

/-! ### `Reconcile` -/

/-- The text of an error, as a condition shows it. -/
def ApiErr.text : ApiErr → GoString
  | .notFound => Go.ascii "not found"
  | .alreadyExists => Go.ascii "already exists"
  | .conflict => Go.ascii "the object has been modified"
  | .other text => Go.ascii text

def OpErr.text : OpErr → GoString
  | .api e => e.text
  | .ownershipConflict text => text
  | .message text => Go.ascii text

/-- `setStatus`. -/
def setStatus (r : StoredResource) (ready : ℤ) (status : Bool) (reason : String) (message : GoString) : M Unit :=
  let new : SimpleCacheStatus := ⟨r.generation, ready, some ⟨status, reason, message, r.generation⟩⟩
  if new = r.status then return () else api (.patchStatus new)

/-- `checkGatewayClass`; `some` is its error. -/
def checkGatewayClass (enableGateway : Bool) (g : GatewaySpec) : M (Option GoString) := do
  if enableGateway = false then
    return some (Go.ascii "enable --enable-gateway after installing Envoy Gateway v1.9.2 and its CRDs")
  else
    match ← Prog.request (Call.getClass g.className) with
    | .error e => return some (Go.ascii "read GatewayClass: " ++ e.text)
    | .ok c =>
      if c.controllerName ≠ gatewayController then return some (Go.ascii "GatewayClass must use " ++ gatewayController)
      else if conditionTrue (c.status.field "conditions") "Accepted" c.generation = false then
        return some (Go.ascii "GatewayClass is not accepted yet")
      else return none

/-- The objects of every cache. -/
def baseObjects (cr : SimpleCacheResource) : List Object :=
  [account cr, discoveryRole cr, discoveryBinding cr, clusterService cr, apiService cr, statefulSet cr]

/-- How a pass without an error ends. -/
inductive Outcome
  /-- The resource is gone or being deleted. -/
  | absent
  | invalidSpec
  /-- The GatewayClass is not there or not accepted. -/
  | unavailable
  /-- The pass got to its end for this resource; the message says what the gateway waits for. -/
  | settled (desired : SimpleCacheResource) (message : String)

/-- The reason of a condition for an error of `ensure`. -/
def ensureReason : OpErr → String
  | .ownershipConflict _ => "ResourceConflict"
  | _ => "ReconcileFailed"

/-- The rollout of the StatefulSet is complete. -/
def rolledOut (size : ℤ) (sts : Object) : Bool :=
  match sts.body with
  | .statefulSet _ status =>
    sts.generation ≤ status.observedGeneration && status.readyReplicas = size && status.updatedReplicas = size &&
      status.currentRevision = status.updateRevision
  | _ => false

/-- The ready replicas of a StatefulSet. -/
def readyReplicas (sts : Object) : ℤ :=
  match sts.body with
  | .statefulSet _ status => status.readyReplicas
  | _ => 0

/-- The last `setStatus` of a pass. -/
def reportStatus (r : StoredResource) (desired : SimpleCacheResource) (message : String) : M Unit := do
  let sts ← api (.get ⟨.statefulSet, r.cr.name⟩)
  if message ≠ "" then setStatus r (readyReplicas sts) false "GatewayPending" (Go.ascii message)
  else if rolledOut desired.spec.size sts then
    setStatus r (readyReplicas sts) true "Ready" (Go.ascii "All desired cache replicas are ready")
  else setStatus r (readyReplicas sts) false "Reconciling" (Go.ascii "Waiting for StatefulSet rollout")

/-- Sets a status for an error, and ends with it. -/
def failWith (r : StoredResource) (reason : OpErr → String) (e : OpErr) {α : Type} : M α := do
  setStatus r 0 false (reason e) e.text
  .throw e

/-- The gateway of a pass: reconciled, or removed when the spec has none. -/
def gatewayPart (enableGateway : Bool) (r : StoredResource) (desired : SimpleCacheResource) : M String :=
  match desired.spec.gateway with
  | some g => (reconcileGateway desired g).handle fun e => failWith r (fun _ => "GatewayReconcileFailed") e
  | none => do
    removeGateway enableGateway desired
    return ""

/-- The part of a pass for a valid resource with an accepted GatewayClass. -/
def reconcileObjects (enableGateway : Bool) (r : StoredResource) (desired : SimpleCacheResource) : M Outcome := do
  (ensureAll r.cr (baseObjects desired)).handle fun e => failWith r ensureReason e
  let message ← gatewayPart enableGateway r desired
  reportStatus r desired message
  return .settled desired message

/-- The check of the GatewayClass, when the spec has a gateway. -/
def checkClass (enableGateway : Bool) (desired : SimpleCacheResource) : M (Option GoString) :=
  match desired.spec.gateway with
  | some g => checkGatewayClass enableGateway g
  | none => return none

/-- `Reconcile` with the resource it has read. -/
def reconcileResource (names : NameChecks) (enableGateway : Bool) (r : StoredResource) : M Outcome :=
  if r.deleting then return .absent
  else
    match validateSpec names (defaults r.cr) with
    | .error text => do
      setStatus r 0 false "InvalidSpec" (Go.ascii text)
      return .invalidSpec
    | .ok _ => do
      match ← checkClass enableGateway (defaults r.cr) with
      | some text =>
        setStatus r 0 false "GatewayUnavailable" text
        return .unavailable
      | none => reconcileObjects enableGateway r (defaults r.cr)

/-- `Reconcile`. -/
def reconcile (names : NameChecks) (enableGateway : Bool) : M Outcome := do
  match ← Prog.request Call.getResource with
  | .error .notFound => return .absent
  | .error e => .throw (.api e)
  | .ok r => reconcileResource names enableGateway r

/-! ### The system -/

/-- The API server and the pass that is under way. -/
structure System where
  server : Server
  /-- The earlier states of the server, the latest first. -/
  past : List Server
  running : Option (M Outcome)

namespace System

inductive Action
  /-- The spec of the resource is edited. -/
  | edit (spec : SimpleCacheSpec)
  /-- Another component reports a status, assigns a ClusterIP or sets a field outside the controller's. -/
  | drift (new : Object)
  /-- A foreign object is created or changed. -/
  | putForeign (o : Object)
  | removeForeign (k : Key)
  | setClass (name : GoString) (c : Option GatewayClass)
  /-- A pass begins. -/
  | start
  /-- The server deals with the next call of the pass. -/
  | call (ch : Choice)
  /-- The controller crashes. -/
  | crash

/-- What an action shows. -/
inductive Output
  | quiet
  /-- The pass ends. -/
  | ended (result : Except OpErr Outcome)

/-- The pass goes on, or ends. -/
def advance (s : Server) (past : List Server) : M Outcome → System × Output
  | .pure a => (⟨s, past, none⟩, .ended (.ok a))
  | .throw e => (⟨s, past, none⟩, .ended (.error e))
  | .call c k => (⟨s, past, some (.call c k)⟩, .quiet)

/-- An action of another client or component. -/
def interfere (uid : GoString) (s : Server) : Action → Option Server
  | .edit spec => s.resource.map fun r =>
      { s with resource := some { r with cr := { r.cr with spec := spec }, generation := r.generation + 1 } }
  | .drift new =>
    match s.get new.key with
    | some old => if old.drifts new then some (s.put new) else none
    | none => none
  | .putForeign o =>
    if o.controller ≠ some uid ∧ (s.get o.key).all fun old => old.controller ≠ some uid then some (s.put o) else none
  | .removeForeign k =>
    if (s.get k).all fun old => old.controller ≠ some uid then some (s.remove k) else none
  | .setClass name c => some { s with classes := Function.update s.classes name c }
  | _ => none

/-- The state that the client's cache shows when it lags behind by `age` states. -/
def seen (s : System) (age : ℕ) : Option Server := (s.server :: s.past)[age]?

/-- One action, where it is enabled; `uid` is the identity of the resource. -/
def step (names : NameChecks) (enableGateway : Bool) (uid : GoString) (s : System) : Action → Option (System × Output)
  | .start => if s.running.isNone then some (advance s.server s.past (reconcile names enableGateway)) else none
  | .call ch =>
    match s.running, s.seen ch.age with
    | some (.call c k), some shown =>
      (s.server.serve shown c ch).map fun x => advance x.2 (s.server :: s.past) (k x.1)
    | _, _ => none
  | .crash => some (⟨s.server, s.past, none⟩, .quiet)
  | a => (interfere uid s.server a).map fun server => (⟨server, s.server :: s.past, s.running⟩, .quiet)

/-- The action reads no earlier state: a call finds the client's cache up to date. -/
def Action.current : Action → Prop
  | .call ch => ch.age = 0
  | _ => True

/-- **Typed reads are current**: along the run the client's cache shows what the server holds. -/
def Current (tr : List (Action × Output)) : Prop := ∀ e ∈ tr, e.1.current

end System

end SimpleCache.Operator
