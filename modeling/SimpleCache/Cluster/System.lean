import SimpleCache.App.Mutations
import SimpleCache.Cache.Flight
import SimpleCache.Outbox.Worker
import SimpleCache.Postgres.Store

/-!
# Cluster.System — nodes, store and network together

Any number of nodes, each a group with its directory and its notification handler, over one shared store.  Mutations
and relay cycles are tasks of a node; a task advances one visible action at a time, interleaved in any way with the
other tasks, the Gets at every node, membership updates and the network.  The network keeps every request and every
reply: it can deliver a request late, twice or never, and hand any of its replies to the waiting client.  A request
to an address at which none of the nodes listens may get any reply at all.  A POST /invalidate names a version that was
committed: the code does not check it, and a client that makes one up is outside this model.

A commit is seen by every node at once, in the ghost field `committed` of its engine, so that a read of the source
can be compared with what was committed when it began.
-/

namespace SimpleCache.Cluster

open Cache (Group ReadFence)
open Cache.Engine (Act)
open Postgres (Store Call Exec Answer StoreEvent Mutation generation)
open App (MutationCommand MutationOutcome MutationKind MutationResponse)

/-- A server process: one group with its callers and flights, and its directory.  The directory's token is also the
one of its handler. -/
structure Node where
  engine : Cache.Engine
  directory : Directory

/-- The handler of a node, which serves its one group. -/
def Node.handler (n : Node) : Handler := ⟨[n.engine.group.name], n.directory.token⟩

/-- A request that a client has sent, with what it was made from. -/
structure Sent where
  client : Client
  group : GoString
  key : GoString
  version : ℤ
  request : Request
  made : client.request group key version = some request

/-- Why a node notifies. -/
inductive Origin
  | mutation (command : MutationCommand) (outcome : MutationOutcome)
  | relay (event : Outbox.Event)

namespace Origin

def key : Origin → GoString
  | .mutation command _ => command.key
  | .relay event => event.key

def version : Origin → ℤ
  | .mutation command outcome => outcome.version command
  | .relay event => event.version

end Origin

/-- Where a task stands. -/
inductive Stage
  /-- A mutation before its source call. -/
  | write
  /-- A relay before the readiness check. -/
  | ready
  /-- Before the local `InvalidateVersion`. -/
  | notify
  /-- Before the snapshot is loaded. -/
  | capture
  | fanout (b : Broadcast)
  /-- `executeMutation` has returned. -/
  | answer
  /-- The sender has returned, with or without an error. -/
  | finish (delivered : Bool)
  | closed

/-- A mutation or a relay cycle of a node, and the snapshot it has captured. -/
structure Task (ι : Type) where
  node : ι
  origin : Origin
  stage : Stage
  captured : Option Snapshot

/-- `Directory.InvalidateVersion` returns `r`. -/
def Task.reported {ι : Type} (t : Task ι) (r : Except Err InvalidationReport) : Task ι :=
  match t.origin with
  | .mutation command outcome => { t with origin := .mutation command (outcome.broadcast r), stage := .answer }
  | .relay _ => { t with stage := .finish (Outbox.delivered r) }

structure System (ι : Type) where
  store : Store
  nodes : ι → Node
  tasks : ℕ → Option (Task ι)
  sent : ℕ → Option Sent
  next : ℕ
  replies : List (ℕ × Response)

/-- An action of the system with its arguments: readings of the clocks and contexts, faults of the source, of the
driver and of the network. -/
inductive Action (ι : Type)
  /-- An action of a node on its own. -/
  | node (n : ι) (a : Act)
  /-- The SELECT of a flight, whose answer may be lost to a fault. -/
  | select (n : ι) (f : ℕ) (fault work work' work'' : Option Err)
  | update (n : ι) (input : List Member)
  /-- A call of the store by someone else. -/
  | store (c : Call) (x : Exec)
  | begin (p : ℕ) (n : ι) (command : MutationCommand)
  /-- `lost`: the statement is carried out, but the driver reports an error. -/
  | write (p : ℕ) (x : Exec) (lost : Bool)
  | claim (p : ℕ) (n : ι) (x : Exec) (lost : Bool)
  | ready (p : ℕ) (ready : Bool)
  | invalidate (p : ℕ) (now now' : ℤ)
  | capture (p : ℕ)
  /-- A worker takes the next request of a fan-out; `err`: it fails before it is sent. -/
  | dispatch (p : ℕ) (err : Option Err)
  /-- The client gives a request up. -/
  | abort (p : ℕ) (i : ℕ) (e : Err)
  | receive (p : ℕ) (i : ℕ) (r : Response)
  | collect (p : ℕ)
  | respond (p : ℕ)
  | finish (p : ℕ) (x : Exec)
  /-- A request reaches the handler at its address. -/
  | serve (request : ℕ) (now now' : ℤ)
  /-- A request reaches an address at which none of the nodes listens. -/
  | foreign (request : ℕ) (r : Response)

/-- What an action shows. -/
inductive Output (ι : Type)
  | quiet
  | node (n : ι) (e : Cache.Engine.Event)
  /-- A call of the store, with the key and the version that it leaves committed. -/
  | store (e : StoreEvent) (commit : Option (GoString × ℤ))
  | captured (p : ℕ) (n : ι) (snapshot : Snapshot)
  | responded (p : ℕ) (n : ι) (command : MutationCommand) (status : ℕ) (response : MutationResponse)
  | served (request : ℕ) (n : ι) (e : Option Cache.Engine.Event) (r : Response)
  | replied (address : GoString) (request : Request) (r : Response)

/-- The actions in which a node needs neither the store nor the network. -/
def localAct : Act → Bool
  | .readSource .. | .invalidate .. | .commit .. => false
  | _ => true

/-- The calls of the store that are not made by tasks. -/
def otherCall : Call → Bool
  | .mutate .. | .purge .. | .advance => true
  | _ => false

/-- What a conditional write returns to `executeMutation`. -/
def writeResult : Answer → Except Err ℤ
  | .mutated (.ok (some v)) => .ok v
  | .mutated (.error e) => .error e
  | _ => .ok 0

namespace System

variable {ι : Type} [DecidableEq ι]

/-- Nodes that have just started, over an empty store. -/
def init (clock : ℤ) (groups : ι → Group) (selfID token : ι → GoString) : System ι where
  store := .init clock
  nodes n := ⟨.init (groups n), newDirectory (selfID n) (token n)⟩
  tasks _ := none
  sent _ := none
  next := 0
  replies := []

def setTask (s : System ι) (p : ℕ) (t : Task ι) : System ι := { s with tasks := Function.update s.tasks p (some t) }

def setEngine (s : System ι) (n : ι) (e : Cache.Engine) : System ι :=
  { s with nodes := Function.update s.nodes n { s.nodes n with engine := e } }

/-- An action of the engine of a node. -/
def onNode (s : System ι) (n : ι) (a : Act) : Option (System ι × Cache.Engine.Ans) :=
  ((s.nodes n).engine.step a).map fun r => (s.setEngine n r.1, r.2)

/-- A call of the store; after a mutation every node sees the committed version. -/
def call (s : System ι) (c : Call) (x : Exec) : Option (System ι × Answer × Option (GoString × ℤ)) :=
  (s.store.step (c, x)).map fun r =>
    match c with
    | .mutate m _ =>
      let v := generation (r.1.db.products m.key)
      let see := fun e : Cache.Engine => { e with
        committed := Function.update e.committed m.key (max (e.committed m.key) v), tick := e.tick + 1 }
      ({ s with store := r.1, nodes := fun n => { s.nodes n with engine := see (s.nodes n).engine } }, r.2,
        some (m.key, v))
    | _ => ({ s with store := r.1 }, r.2, none)

/-- The requests of a fan-out. -/
def job (s : System ι) (p : ℕ) (f : Task ι → Broadcast → Option (System ι × Broadcast)) :
    Option (System ι × Output ι) :=
  match s.tasks p with
  | some ⟨n, o, .fanout b, snap⟩ =>
    (f ⟨n, o, .fanout b, snap⟩ b).map fun r => (r.1.setTask p ⟨n, o, .fanout r.2, snap⟩, .quiet)
  | _ => none

/-- One action, where it is enabled; `listener` is the node whose handler listens at an address. -/
def step (listener : GoString → Option ι) (s : System ι) : Action ι → Option (System ι × Output ι)
  | .node n a => if localAct a then (s.onNode n a).map fun r => (r.1, .node n (a, r.2)) else none
  | .select n f fault work work' work'' =>
    match (s.nodes n).engine.flights f with
    | none => none
    | some fl =>
      let answer :=
        match fault with
        | some e => .error e
        | none => s.store.db.getVersioned fl.key
      (s.onNode n (.readSource f answer work work' work'')).map fun r =>
        (r.1, .node n (.readSource f answer work work' work'', r.2))
  | .update n input =>
    let d := ((s.nodes n).directory.update input).2
    some ({ s with nodes := Function.update s.nodes n { s.nodes n with directory := d } }, .quiet)
  | .store c x => if otherCall c then (s.call c x).map fun r => (r.1, .store ((c, x), r.2.1) r.2.2) else none
  | .begin p n command =>
    -- `mutate` has refused a version in a PUT or DELETE; that a POST names a committed version is up to its client
    if (s.tasks p).isNone ∧ (if command.kind = .notify then
        0 ≤ command.version ∧ command.version ≤ generation (s.store.db.products command.key)
        else command.version = 0) then
      some (s.setTask p ⟨n, .mutation command .empty, if command.kind = .notify then .notify else .write, none⟩, .quiet)
    else none
  | .write p x lost =>
    match s.tasks p with
    | some ⟨n, .mutation command _, .write, snap⟩ =>
      match command.call with
      | none => none
      | some m =>
        (s.call (.mutate m lost) x).map fun r =>
          let w := MutationOutcome.written (writeResult r.2.1)
          (r.1.setTask p ⟨n, .mutation command w.1, if w.2 then .answer else .notify, snap⟩,
            .store ((.mutate m lost, x), r.2.1) r.2.2)
    | _ => none
  | .claim p n x lost =>
    if (s.tasks p).isNone then
      (s.call (.claim p Outbox.leaseDuration lost) x).map fun r =>
        let out := .store ((.claim p Outbox.leaseDuration lost, x), r.2.1) r.2.2
        match lost, r.2.1 with
        | false, .claimed (.ok (some event)) => (r.1.setTask p ⟨n, .relay event, .ready, none⟩, out)
        | _, _ => (r.1, out)
    else none
  | .ready p ready =>
    match s.tasks p with
    | some ⟨n, o, .ready, snap⟩ => some (s.setTask p ⟨n, o, if ready then .notify else .finish false, snap⟩, .quiet)
    | _ => none
  | .invalidate p now now' =>
    match s.tasks p with
    | some ⟨n, o, .notify, snap⟩ =>
      (s.onNode n (.invalidate o.key o.version now now')).map fun r =>
        let t : Task ι := ⟨n, o, .notify, snap⟩
        let out := .node n (.invalidate o.key o.version now now', r.2)
        match r.2 with
        | .invalidated (.ok _) => (r.1.setTask p { t with stage := .capture }, out)
        | .invalidated (.error e) => (r.1.setTask p (t.reported (.error e)), out)
        | _ => (r.1, out)
    | _ => none
  | .capture p =>
    match s.tasks p with
    | some ⟨n, o, .capture, _⟩ =>
      let d := (s.nodes n).directory
      some (s.setTask p ⟨n, o, .fanout (.start d o.key o.version), some d.state⟩, .captured p n d.state)
    | _ => none
  | .dispatch p err =>
    s.job p fun t b =>
      match b.next with
      | none => none
      | some i =>
        match err with
        | some e => some (s, b.set i (.done (.of (.error e))))
        | none =>
          match b.client? i with
          | none => none
          | some c =>
            let group := (s.nodes t.node).engine.group.name
            match h : c.request group b.key b.version with
            | none => none
            | some request =>
              some ({ s with
                sent := Function.update s.sent s.next (some ⟨c, group, b.key, b.version, request, h⟩)
                next := s.next + 1 }, b.set i (.sent s.next))
  | .abort p i e =>
    s.job p fun _ b =>
      match b.jobs i with
      | .sent _ => some (s, b.set i (.done (.of (.error e))))
      | _ => none
  | .receive p i r =>
    s.job p fun _ b =>
      match b.jobs i with
      | .sent request => if (request, r) ∈ s.replies then some (s, b.set i (.done (.of (check b.version r)))) else none
      | _ => none
  | .collect p =>
    match s.tasks p with
    | some ⟨n, o, .fanout b, snap⟩ =>
      b.report.map fun report => (s.setTask p (Task.reported ⟨n, o, .fanout b, snap⟩ (.ok report)), .quiet)
    | _ => none
  | .respond p =>
    match s.tasks p with
    | some ⟨n, .mutation command outcome, .answer, snap⟩ =>
      some (s.setTask p ⟨n, .mutation command outcome, .closed, snap⟩,
        .responded p n command outcome.status outcome.response)
    | _ => none
  | .finish p x =>
    match s.tasks p with
    | some ⟨n, .relay event, .finish delivered, snap⟩ =>
      (s.call (.finish p event delivered (Outbox.retryDelay event.attempt)) x).map fun r =>
        (r.1.setTask p ⟨n, .relay event, .closed, snap⟩,
          .store ((.finish p event delivered (Outbox.retryDelay event.attempt), x), r.2.1) r.2.2)
    | _ => none
  | .serve request now now' =>
    match s.sent request with
    | none => none
    | some sent =>
      match listener sent.client.address with
      | none => none
      | some n =>
        match (s.nodes n).handler.route sent.request with
        | .error r => some ({ s with replies := (request, r) :: s.replies }, .served request n none r)
        | .ok (_, key, version) =>
          (s.onNode n (.invalidate key version now now')).map fun r =>
            let reply :=
              match r.2 with
              | .invalidated result => Handler.reply version result
              | _ => Handler.reply version (.ok ())
            ({ r.1 with replies := (request, reply) :: r.1.replies },
              .served request n (some (.invalidate key version now now', r.2)) reply)
  | .foreign request r =>
    match s.sent request with
    | none => none
    | some sent =>
      match listener sent.client.address with
      | some _ => none
      | none =>
        some ({ s with replies := (request, r) :: s.replies }, .replied sent.client.address sent.request r)

end System

end SimpleCache.Cluster
