import SimpleCache.Cluster.Broadcast
import SimpleCache.Cluster.Server
import SimpleCache.Lib.Pool

/-!
# Cluster.Fanout — `Directory.InvalidateVersion` with its dispatcher and workers

`Cluster.Broadcast` looks at a fan-out from outside.  Here it is a machine: the local call, the capture of the
snapshot, a dispatcher that hands out indices over a channel to at most eight workers, and membership updates at any
moment.  A worker that has received an index calls the client of its member.  That attempt sends its request, unless the
URL does not parse or the context that all attempts share is done by then, and it may end without a response.
`Going` is what holds while the fan-out runs; `Sent` is what is known of its requests.
-/

namespace SimpleCache.Cluster

open Cache (Group ValidKey)
open Lib (Pool Run)

/-- How an attempt ends: an error before or instead of a response, or a response. -/
abbrev Outcome := Except Err Response

/-- What `Client.InvalidateVersion` returns for the end of an attempt. -/
def receive (version : ℤ) : Outcome → Except Err Unit
  | .error e => .error e
  | .ok response => check version response

/-- The variables of `InvalidateVersion` after the capture; a result without a status has the empty one.  `sent`: the
requests that have left, by index.  `expired`: the context of the call is done. -/
structure Running where
  snapshot : Snapshot
  clients : List (Option Client)
  results : List (GoString × Option MemberStatus)
  pool : Pool
  sent : List Bool
  expired : Bool

/-- The two slices filled by the loop over the members, and the channel with its workers. -/
def Running.start (selfID : GoString) (snapshot : Snapshot) : Running :=
  let others := Broadcast.others selfID snapshot
  ⟨snapshot, others.map fun m => snapshot.clients m.id, (selfID, some .ok) :: others.map fun m => (m.id, none),
    .start others.length (min 8 others.length), List.replicate others.length false, false⟩

/-- An attempt ends with a response only if its request has left. -/
def Running.mayEnd (r : Running) (i : ℕ) : Outcome → Bool
  | .error _ => true
  | .ok _ => r.sent[i]? = some true

/-- A result with its status, if that is not empty. -/
def resultOf (x : GoString × Option MemberStatus) : Option InvalidationResult := x.2.map fun status => ⟨x.1, status⟩

/-- The report; a status that is still empty has no place in it. -/
def Running.report (version : ℤ) (r : Running) : Option InvalidationReport :=
  (r.results.mapM resultOf).map fun results =>
    ⟨r.snapshot.members.length, version, "known_members_snapshot", r.results.all fun x => x.2 = some .ok, results⟩

/-- Where a call of `InvalidateVersion` stands. -/
inductive FanoutPhase
  | called
  | invalidated
  | running (r : Running)
  | returned (result : Except Err InvalidationReport)

/-- A call of `InvalidateVersion`, with the directory and the group that it works on. -/
structure Fanout where
  directory : Directory
  group : Group
  key : GoString
  version : ℤ
  phase : FanoutPhase

namespace Fanout

def start (directory : Directory) (group : Group) (key : GoString) (version : ℤ) : Fanout :=
  ⟨directory, group, key, version, .called⟩

/-- A step of the call, or a concurrent `Directory.Update`. -/
inductive Act
  | invalidate (now now' : ℤ)
  | capture
  | pool (a : Pool.Act Outcome)
  /-- The attempt of index `i` sends its request. -/
  | send (i : ℕ)
  /-- The context is done: its second is over, or the caller's is done. -/
  | expire
  | finish
  | update (input : List Member)

/-- What a step shows. -/
inductive Event
  | quiet
  | captured (snapshot : Snapshot)
  /-- A worker calls the client of index `i`. -/
  | attempt (i : ℕ) (c : Client)
  /-- The client of index `i` sends the request `q`. -/
  | request (i : ℕ) (c : Client) (q : Request)
  /-- The attempt of index `i` has ended, and its status is written. -/
  | ended (i : ℕ) (outcome : Outcome)

/-- One step, where it is enabled; `parses`: `url.Parse` takes the address for a host. -/
def step (parses : GoString → Bool) (s : Fanout) : Act → Option (Fanout × Event)
  | .invalidate now now' =>
    match s.phase with
    | .called =>
      let r := s.group.invalidateVersion s.key s.version now now'
      match r.1 with
      | .error e => some ({ s with group := r.2, phase := .returned (.error e) }, .quiet)
      | .ok _ => some ({ s with group := r.2, phase := .invalidated }, .quiet)
    | _ => none
  | .capture =>
    match s.phase with
    | .invalidated =>
      some ({ s with phase := .running (.start s.directory.selfID s.directory.state) }, .captured s.directory.state)
    | _ => none
  | .pool a =>
    match s.phase with
    | .running r =>
      match r.pool.step a with
      | some (pool, .started i) =>
        match r.clients[i]? with
        | some (some c) => some ({ s with phase := .running { r with pool := pool } }, .attempt i c)
        -- a call through a nil client
        | _ => none
      | some (pool, .ended i outcome) =>
        if r.mayEnd i outcome then
          let status := MemberStatus.of (receive s.version outcome)
          let results := r.results.modify (i + 1) fun x => (x.1, some status)
          some ({ s with phase := .running { r with pool := pool, results := results } }, .ended i outcome)
        else none
      | some (pool, .quiet) => some ({ s with phase := .running { r with pool := pool } }, .quiet)
      | none => none
    | _ => none
  | .send i =>
    match s.phase with
    | .running r =>
      match r.clients[i]? with
      | some (some c) =>
        if i ∈ r.pool.busy ∧ r.sent[i]? = some false ∧ r.expired = false ∧ parses c.address = true then
          (c.request s.group.name s.key s.version).map fun q =>
            ({ s with phase := .running { r with sent := r.sent.set i true } }, .request i c q)
        else none
      | _ => none
    | _ => none
  | .expire =>
    match s.phase with
    | .running r =>
      if r.expired = false then some ({ s with phase := .running { r with expired := true } }, .quiet) else none
    | _ => none
  | .finish =>
    match s.phase with
    | .running r =>
      if r.pool.finished then
        (r.report s.version).map fun report => ({ s with phase := .returned (.ok report) }, .quiet)
      else none
    | _ => none
  | .update input => some ({ s with directory := (s.directory.update input).2 }, .quiet)

variable {parses : GoString → Bool}

/-- The steps, by what they need. -/
inductive Move (parses : GoString → Bool) (s : Fanout) : Act → Fanout → Event → Prop
  | refused {now now' : ℤ} {e : Err} : s.phase = .called →
      (s.group.invalidateVersion s.key s.version now now').1 = .error e →
      Move parses s (.invalidate now now') { s with
        group := (s.group.invalidateVersion s.key s.version now now').2
        phase := .returned (.error e) } .quiet
  | invalidated {now now' : ℤ} {applied : Bool} : s.phase = .called →
      (s.group.invalidateVersion s.key s.version now now').1 = .ok applied →
      Move parses s (.invalidate now now') { s with
        group := (s.group.invalidateVersion s.key s.version now now').2
        phase := .invalidated } .quiet
  | captured : s.phase = .invalidated →
      Move parses s .capture { s with phase := .running (.start s.directory.selfID s.directory.state) }
        (.captured s.directory.state)
  | attempted {r : Running} {a : Pool.Act Outcome} {pool : Pool} {i : ℕ} {c : Client} : s.phase = .running r →
      r.pool.step a = some (pool, .started i) → r.clients[i]? = some (some c) →
      Move parses s (.pool a) { s with phase := .running { r with pool := pool } } (.attempt i c)
  | sent {r : Running} {i : ℕ} {c : Client} {q : Request} : s.phase = .running r → r.clients[i]? = some (some c) →
      i ∈ r.pool.busy → r.sent[i]? = some false → r.expired = false → parses c.address = true →
      c.request s.group.name s.key s.version = some q →
      Move parses s (.send i) { s with phase := .running { r with sent := r.sent.set i true } } (.request i c q)
  | expired {r : Running} : s.phase = .running r → r.expired = false →
      Move parses s .expire { s with phase := .running { r with expired := true } } .quiet
  | ended {r : Running} {a : Pool.Act Outcome} {pool : Pool} {i : ℕ} {outcome : Outcome} : s.phase = .running r →
      r.pool.step a = some (pool, .ended i outcome) → r.mayEnd i outcome = true →
      Move parses s (.pool a) { s with phase := .running { r with
        pool := pool
        results := r.results.modify (i + 1) fun x =>
          (x.1, some (MemberStatus.of (receive s.version outcome))) } } (.ended i outcome)
  | quiet {r : Running} {a : Pool.Act Outcome} {pool : Pool} : s.phase = .running r →
      r.pool.step a = some (pool, .quiet) →
      Move parses s (.pool a) { s with phase := .running { r with pool := pool } } .quiet
  | reported {r : Running} {report : InvalidationReport} : s.phase = .running r → r.pool.finished →
      r.report s.version = some report → Move parses s .finish { s with phase := .returned (.ok report) } .quiet
  | updated {input : List Member} :
      Move parses s (.update input) { s with directory := (s.directory.update input).2 } .quiet

theorem move_of_step {s s' : Fanout} {a : Act} {o : Event} (h : s.step parses a = some (s', o)) :
    Move parses s a s' o := by
  unfold step at h
  cases a with
  | invalidate now now' =>
    cases hp : s.phase with
    | called =>
      simp only [hp] at h
      split at h <;> obtain ⟨rfl, rfl⟩ := Prod.mk.inj (Option.some.inj h)
      · next hr => exact .refused hp hr
      · next hr => exact .invalidated hp hr
    | _ => simp [hp] at h
  | capture =>
    cases hp : s.phase with
    | invalidated =>
      simp only [hp] at h
      obtain ⟨rfl, rfl⟩ := Prod.mk.inj (Option.some.inj h)
      exact .captured hp
    | _ => simp [hp] at h
  | pool a =>
    cases hp : s.phase with
    | running r =>
      simp only [hp] at h
      split at h
      · next hst =>
        split at h
        · next hc =>
          obtain ⟨rfl, rfl⟩ := Prod.mk.inj (Option.some.inj h)
          exact .attempted hp hst hc
        · simp at h
      · next hst =>
        split_ifs at h with hend
        obtain ⟨rfl, rfl⟩ := Prod.mk.inj (Option.some.inj h)
        exact .ended hp hst hend
      · next hst =>
        obtain ⟨rfl, rfl⟩ := Prod.mk.inj (Option.some.inj h)
        exact .quiet hp hst
      · simp at h
    | _ => simp [hp] at h
  | send i =>
    cases hp : s.phase with
    | running r =>
      simp only [hp] at h
      split at h
      · next hc =>
        split_ifs at h with hcond
        obtain ⟨q, hq, heq⟩ := Option.map_eq_some_iff.mp h
        obtain ⟨rfl, rfl⟩ := Prod.mk.inj heq
        exact .sent hp hc hcond.1 hcond.2.1 hcond.2.2.1 hcond.2.2.2 hq
      · simp at h
    | _ => simp [hp] at h
  | expire =>
    cases hp : s.phase with
    | running r =>
      simp only [hp] at h
      split_ifs at h with he
      obtain ⟨rfl, rfl⟩ := Prod.mk.inj (Option.some.inj h)
      exact .expired hp he
    | _ => simp [hp] at h
  | finish =>
    cases hp : s.phase with
    | running r =>
      simp only [hp] at h
      split_ifs at h with hf
      obtain ⟨report, hr, heq⟩ := Option.map_eq_some_iff.mp h
      obtain ⟨rfl, rfl⟩ := Prod.mk.inj heq
      exact .reported hp hf hr
    | _ => simp [hp] at h
  | update input =>
    obtain ⟨rfl, rfl⟩ := Prod.mk.inj (Option.some.inj h)
    exact .updated

/-- The clients that the workers have called on a trace, in order. -/
def attempts (tr : List (Act × Event)) : List Client :=
  tr.filterMap fun ev =>
    match ev.2 with
    | .attempt _ c => some c
    | _ => none

/-- The requests of a trace, each with its index and its client, in the order in which they left. -/
def requests (tr : List (Act × Event)) : List (ℕ × Client × Request) :=
  tr.filterMap fun ev =>
    match ev.2 with
    | .request i c q => some (i, c, q)
    | _ => none

/-- The attempts that have ended on a trace. -/
def ended (tr : List (Act × Event)) : List (ℕ × Outcome) :=
  tr.filterMap fun ev =>
    match ev.2 with
    | .ended i outcome => some (i, outcome)
    | _ => none

/-- The inputs of the membership updates of a trace. -/
def updates (tr : List (Act × Event)) : List (List Member) :=
  tr.filterMap fun ev =>
    match ev.1 with
    | .update input => some input
    | _ => none

/-- What a client asks for in a request. -/
structure Asks (name key : GoString) (version : ℤ) (c : Client) (q : Request) : Prop where
  method : q.method = .delete
  path : q.path = target name key
  version_eq : q.header.values invalidationVersionHeader = if 0 < version then [Go.formatInt version] else []
  authorization : q.header.get "Authorization" = Go.ascii "Bearer " ++ c.token

/-- **The requests of a trace**: an attempt sends at most one, from its own client, for the group, the key and the
version of the call; and an attempt that ends with a response has sent one. -/
structure Sent (name key : GoString) (version : ℤ) (tr : List (Act × Event)) : Prop where
  once : ((requests tr).map Prod.fst).Nodup
  attempted : ∀ i c q, (i, c, q) ∈ requests tr → (attempts tr)[i]? = some c
  asked : ∀ i c q, (i, c, q) ∈ requests tr → Asks name key version c q
  answered : ∀ i response, (i, .ok response) ∈ ended tr → i ∈ (requests tr).map Prod.fst

/-- The request was acknowledged, with the version if there is one. -/
def Acknowledged (version : ℤ) (outcome : Outcome) : Prop :=
  ∃ response, outcome = .ok response ∧ response.status = 204 ∧
    (0 < version → response.header.values invalidationVersionHeader = [Go.formatInt version])

/-! ### Replies -/

/-- The client returns nil exactly for an acknowledged request. -/
theorem receive_ok_iff {version : ℤ} (h0 : 0 ≤ version) (hv : version ≤ Go.maxInt64) (outcome : Outcome) :
    receive version outcome = .ok () ↔ Acknowledged version outcome := by
  constructor
  · intro h
    cases outcome with
    | error e => simp [receive] at h
    | ok response => exact ⟨response, rfl, check_ok h⟩
  · rintro ⟨response, rfl, hs, hecho⟩
    show check version response = .ok ()
    unfold check
    rw [if_neg (not_not.mpr hs)]
    split_ifs with hpos
    · rw [parseInvalidationVersion_formatInt h0 hv (by rw [hecho hpos, if_pos hpos])]
      simp
    · rfl

theorem status_ok_iff {version : ℤ} (h0 : 0 ≤ version) (hv : version ≤ Go.maxInt64) (outcome : Outcome) :
    MemberStatus.of (receive version outcome) = .ok ↔ Acknowledged version outcome := by
  rw [← receive_ok_iff h0 hv]
  constructor
  · exact MemberStatus.of_eq_ok
  · intro h
    rw [h]
    rfl

/-! ### The fan-out while it runs -/

section Going

variable {selfID name key : GoString} {version : ℤ} {tr : List (Act × Event)} {r : Running}

/-- The number of requests. -/
def size (selfID : GoString) (snapshot : Snapshot) : ℕ := (Broadcast.others selfID snapshot).length

variable (selfID name key version tr r) in
/-- What holds between the capture and the report. -/
structure Going : Prop where
  clients : r.clients = (Broadcast.others selfID r.snapshot).map fun m => r.snapshot.clients m.id
  pool : ∃ ptr, Run Pool.step (.start (size selfID r.snapshot) (min 8 (size selfID r.snapshot))) ptr r.pool ∧
    Pool.ended ptr = ended tr
  attempted : (attempts tr).map some = r.clients.take r.pool.next
  flags : r.sent.length = size selfID r.snapshot
  left : ∀ i, r.sent[i]? = some true ↔ i ∈ (requests tr).map Prod.fst
  sent : Sent name key version tr
  length : r.results.length = size selfID r.snapshot + 1
  self : r.results[0]? = some (selfID, some .ok)
  named : ∀ i m, (Broadcast.others selfID r.snapshot)[i]? = some m → i ∉ (ended tr).map Prod.fst →
    r.results[i + 1]? = some (m.id, none)
  written : ∀ i outcome m, (i, outcome) ∈ ended tr → (Broadcast.others selfID r.snapshot)[i]? = some m →
    r.results[i + 1]? = some (m.id, some (MemberStatus.of (receive version outcome)))

theorem attempts_snoc (tr : List (Act × Event)) (a : Act) (o : Event) :
    attempts (tr ++ [(a, o)]) = attempts tr ++ match o with
      | .attempt _ c => [c]
      | _ => [] := by
  unfold attempts
  rw [List.filterMap_append]
  cases o <;> rfl

theorem requests_snoc (tr : List (Act × Event)) (a : Act) (o : Event) :
    requests (tr ++ [(a, o)]) = requests tr ++ match o with
      | .request i c q => [(i, c, q)]
      | _ => [] := by
  unfold requests
  rw [List.filterMap_append]
  cases o <;> rfl

theorem ended_snoc (tr : List (Act × Event)) (a : Act) (o : Event) :
    ended (tr ++ [(a, o)]) = ended tr ++ match o with
      | .ended i outcome => [(i, outcome)]
      | _ => [] := by
  unfold ended
  rw [List.filterMap_append]
  cases o <;> rfl

theorem updates_snoc (tr : List (Act × Event)) (a : Act) (o : Event) :
    updates (tr ++ [(a, o)]) = updates tr ++ match a with
      | .update input => [input]
      | _ => [] := by
  unfold updates
  rw [List.filterMap_append]
  cases a <;> rfl

/-- The request that a client makes. -/
theorem asks_of_request {c : Client} {q : Request} (h : c.request name key version = some q) :
    Asks name key version c q := by
  obtain ⟨hpath, hversion⟩ := request_header h
  obtain ⟨q', hq', hmethod, hauth⟩ := request_isSome c name key version
  obtain rfl := Option.some.inj (h.symm.trans hq')
  exact ⟨hmethod, hpath, hversion, hauth⟩

theorem sent_nil (hreq : requests tr = []) (hend : ended tr = []) : Sent name key version tr where
  once := by simp [hreq]
  attempted := by simp [hreq]
  asked := by simp [hreq]
  answered := by simp [hend]

theorem Sent.of_eq {tr' : List (Act × Event)} (h : Sent name key version tr) (ha : attempts tr' = attempts tr)
    (hq : requests tr' = requests tr) (he : ended tr' = ended tr) : Sent name key version tr' where
  once := by rw [hq]; exact h.once
  attempted := by rw [ha, hq]; exact h.attempted
  asked := by rw [hq]; exact h.asked
  answered := by rw [hq, he]; exact h.answered

/-- The trace grows by a step that shows nothing. -/
theorem Sent.quiet (h : Sent name key version tr) (a : Act) : Sent name key version (tr ++ [(a, .quiet)]) :=
  h.of_eq (by rw [attempts_snoc, List.append_nil]) (by rw [requests_snoc, List.append_nil])
    (by rw [ended_snoc, List.append_nil])

/-- A client is called. -/
theorem Sent.attempt (h : Sent name key version tr) (a : Act) (i : ℕ) (c : Client) :
    Sent name key version (tr ++ [(a, .attempt i c)]) := by
  have hq : requests (tr ++ [(a, .attempt i c)]) = requests tr := by rw [requests_snoc, List.append_nil]
  have he : ended (tr ++ [(a, .attempt i c)]) = ended tr := by rw [ended_snoc, List.append_nil]
  refine ⟨by rw [hq]; exact h.once, fun j c' q hj => ?_, by rw [hq]; exact h.asked, by rw [hq, he]; exact h.answered⟩
  rw [hq] at hj
  have hold := h.attempted j c' q hj
  rw [attempts_snoc, List.getElem?_append_left (List.getElem?_eq_some_iff.mp hold).1, hold]

/-- A request leaves that had not left before. -/
theorem Sent.request (h : Sent name key version tr) (a : Act) {i : ℕ} {c : Client} {q : Request}
    (hnew : i ∉ (requests tr).map Prod.fst) (hatt : (attempts tr)[i]? = some c) (hask : Asks name key version c q) :
    Sent name key version (tr ++ [(a, .request i c q)]) := by
  have ha : attempts (tr ++ [(a, .request i c q)]) = attempts tr := by rw [attempts_snoc, List.append_nil]
  have he : ended (tr ++ [(a, .request i c q)]) = ended tr := by rw [ended_snoc, List.append_nil]
  have hq : requests (tr ++ [(a, .request i c q)]) = requests tr ++ [(i, c, q)] := requests_snoc ..
  have hmem : ∀ {j c' q'}, (j, c', q') ∈ requests tr ++ [(i, c, q)] →
      (j, c', q') ∈ requests tr ∨ j = i ∧ c' = c ∧ q' = q := by
    intro j c' q' hj
    simpa using hj
  refine ⟨?_, fun j c' q' hj => ?_, fun j c' q' hj => ?_, fun j response hj => ?_⟩
  · rw [hq, List.map_append]
    refine List.nodup_append.mpr ⟨h.once, List.nodup_singleton _, fun x hx y hy hxy => hnew ?_⟩
    obtain rfl : y = i := List.mem_singleton.mp hy
    exact hxy ▸ hx
  · rw [ha]
    rcases hmem (hq ▸ hj) with hold | ⟨rfl, rfl, rfl⟩
    · exact h.attempted j c' q' hold
    · exact hatt
  · rcases hmem (hq ▸ hj) with hold | ⟨rfl, rfl, rfl⟩
    · exact h.asked j c' q' hold
    · exact hask
  · rw [he] at hj
    rw [hq, List.map_append]
    exact List.mem_append_left _ (h.answered j response hj)

/-- An attempt ends; if with a response, its request had left. -/
theorem Sent.ended (h : Sent name key version tr) (a : Act) {i : ℕ} {outcome : Outcome}
    (hleft : ∀ response, outcome = .ok response → i ∈ (requests tr).map Prod.fst) :
    Sent name key version (tr ++ [(a, .ended i outcome)]) := by
  have ha : attempts (tr ++ [(a, .ended i outcome)]) = attempts tr := by rw [attempts_snoc, List.append_nil]
  have hq : requests (tr ++ [(a, .ended i outcome)]) = requests tr := by rw [requests_snoc, List.append_nil]
  refine ⟨by rw [hq]; exact h.once, by rw [ha, hq]; exact h.attempted, by rw [hq]; exact h.asked,
    fun j response hj => ?_⟩
  rw [hq]
  rcases List.mem_append.mp (ended_snoc tr a _ ▸ hj) with hold | hnew
  · exact h.answered j response hold
  · obtain ⟨rfl, rfl⟩ := Prod.mk.inj (List.mem_singleton.mp hnew)
    exact hleft response rfl

theorem going_start (hatt : attempts tr = []) (hreq : requests tr = []) (hend : ended tr = []) (snapshot : Snapshot) :
    Going selfID name key version tr (.start selfID snapshot) where
  clients := rfl
  pool := ⟨[], .nil, by rw [hend]; rfl⟩
  attempted := by rw [hatt]; rfl
  flags := by simp [Running.start, size]
  left i := by simp [Running.start, hreq, List.getElem?_replicate]
  sent := sent_nil hreq hend
  length := by simp [Running.start, size]
  self := rfl
  named i m hm _ := by
    show ((Broadcast.others selfID snapshot).map fun m => (m.id, (none : Option MemberStatus)))[i]? = _
    have hm : (Broadcast.others selfID snapshot)[i]? = some m := hm
    rw [List.getElem?_map, hm]
    rfl
  written i outcome m h := by simp [hend] at h

theorem Going.sound (h : Going selfID name key version tr r) : ∃ ptr,
    Pool.Sound (size selfID r.snapshot) (min 8 (size selfID r.snapshot)) ptr r.pool ∧ Pool.ended ptr = ended tr := by
  obtain ⟨ptr, hrun, he⟩ := h.pool
  exact ⟨ptr, Pool.sound_run hrun, he⟩

/-- The client of an index sends to the address of its member. -/
theorem Going.client (h : Going selfID name key version tr r) {i : ℕ} (hi : i < size selfID r.snapshot) :
    ∃ m c, (Broadcast.others selfID r.snapshot)[i]? = some m ∧ r.clients[i]? = some (some c) ∧
      c.address = m.address := by
  have hm : (Broadcast.others selfID r.snapshot)[i]? = some (Broadcast.others selfID r.snapshot)[i] :=
    List.getElem?_eq_getElem hi
  obtain ⟨c, hc, ha⟩ := r.snapshot.reaches _ (List.mem_filter.mp (List.mem_of_getElem? hm)).1
  refine ⟨_, c, hm, ?_, ha⟩
  rw [h.clients, List.getElem?_map, hm, Option.map_some, hc]

/-- The attempt of an index that has been handed out is with its client. -/
theorem Going.attempt_of_lt (h : Going selfID name key version tr r) {i : ℕ} {c : Client} (hi : i < r.pool.next)
    (hc : r.clients[i]? = some (some c)) : (attempts tr)[i]? = some c := by
  have hget : ((attempts tr)[i]?).map some = (r.clients.take r.pool.next)[i]? := by
    rw [← h.attempted, List.getElem?_map]
  rw [List.getElem?_take_of_lt hi, hc] at hget
  obtain ⟨c', hc', heq⟩ := Option.map_eq_some_iff.mp hget
  rw [hc', Option.some.inj heq]

theorem Going.busy_lt (h : Going selfID name key version tr r) {i : ℕ} (hi : i ∈ r.pool.busy) : i < r.pool.next := by
  obtain ⟨ptr, hsound, -⟩ := h.sound
  exact List.mem_range.mp (hsound.jobs.mem_iff.mp (List.mem_append_left _ hi))

/-- A step that shows nothing. -/
theorem Going.quiet (h : Going selfID name key version tr r) (a : Act) (expired : Bool) {pool : Pool}
    (hn : pool.next = r.pool.next)
    (hp : ∃ ptr, Run Pool.step (.start (size selfID r.snapshot) (min 8 (size selfID r.snapshot))) ptr pool ∧
      Pool.ended ptr = ended tr) :
    Going selfID name key version (tr ++ [(a, .quiet)]) { r with pool := pool, expired := expired } := by
  have ha : attempts (tr ++ [(a, .quiet)]) = attempts tr := by rw [attempts_snoc, List.append_nil]
  have hq : requests (tr ++ [(a, .quiet)]) = requests tr := by rw [requests_snoc, List.append_nil]
  have he : ended (tr ++ [(a, .quiet)]) = ended tr := by rw [ended_snoc, List.append_nil]
  refine ⟨h.clients, ?_, ?_, h.flags, ?_, h.sent.quiet a, h.length, h.self, ?_, ?_⟩
  · rwa [he]
  · rw [ha, h.attempted]
    exact congrArg (fun n => r.clients.take n) hn.symm
  · rw [hq]
    exact h.left
  · rw [he]
    exact h.named
  · rw [he]
    exact h.written

/-- The dispatcher hands out the next index, and its worker calls the client. -/
theorem Going.handoff (h : Going selfID name key version tr r) (a : Act) {pool : Pool} {c : Client}
    (hc : r.clients[r.pool.next]? = some (some c)) (hn : pool.next = r.pool.next + 1)
    (hp : ∃ ptr, Run Pool.step (.start (size selfID r.snapshot) (min 8 (size selfID r.snapshot))) ptr pool ∧
      Pool.ended ptr = ended tr) :
    Going selfID name key version (tr ++ [(a, .attempt r.pool.next c)]) { r with pool := pool } := by
  have hq : requests (tr ++ [(a, .attempt r.pool.next c)]) = requests tr := by rw [requests_snoc, List.append_nil]
  have he : ended (tr ++ [(a, .attempt r.pool.next c)]) = ended tr := by rw [ended_snoc, List.append_nil]
  refine ⟨h.clients, ?_, ?_, h.flags, ?_, h.sent.attempt a _ c, h.length, h.self, ?_, ?_⟩
  · rwa [he]
  · rw [attempts_snoc, List.map_append, h.attempted]
    show _ = r.clients.take pool.next
    rw [hn, List.take_add_one, hc]
    rfl
  · rw [hq]
    exact h.left
  · rw [he]
    exact h.named
  · rw [he]
    exact h.written

/-- A running attempt sends its request. -/
theorem Going.send (h : Going selfID name key version tr r) (a : Act) {i : ℕ} {c : Client} {q : Request}
    (hc : r.clients[i]? = some (some c)) (hbusy : i ∈ r.pool.busy) (hflag : r.sent[i]? = some false)
    (hq : c.request name key version = some q) :
    Going selfID name key version (tr ++ [(a, .request i c q)]) { r with sent := r.sent.set i true } := by
  have hnew : i ∉ (requests tr).map Prod.fst := fun hi => by
    rw [(h.left i).mpr hi] at hflag
    simp at hflag
  have hatt := h.attempt_of_lt (h.busy_lt hbusy) hc
  have he : ended (tr ++ [(a, .request i c q)]) = ended tr := by rw [ended_snoc, List.append_nil]
  refine ⟨h.clients, ?_, ?_, List.length_set.trans h.flags, fun j => ?_,
    h.sent.request a hnew hatt (asks_of_request hq), h.length, h.self, ?_, ?_⟩
  · rw [he]
    exact h.pool
  · rw [attempts_snoc, List.append_nil]
    exact h.attempted
  · show (r.sent.set i true)[j]? = some true ↔ _
    rw [requests_snoc, List.map_append, List.mem_append, ← h.left j]
    by_cases hj : j = i
    · subst hj
      simp [List.getElem?_set_self (List.getElem?_eq_some_iff.mp hflag).1]
    · simp [List.getElem?_set_ne (Ne.symm hj), hj]
  · rw [he]
    exact h.named
  · rw [he]
    exact h.written

/-- An attempt that had not ended ends, and its worker writes the result. -/
theorem Going.finish (h : Going selfID name key version tr r) (a : Act) {pool : Pool} {i : ℕ} {outcome : Outcome}
    (hnew : i ∉ (ended tr).map Prod.fst) (hmay : r.mayEnd i outcome = true) (hn : pool.next = r.pool.next)
    (hp : ∃ ptr, Run Pool.step (.start (size selfID r.snapshot) (min 8 (size selfID r.snapshot))) ptr pool ∧
      Pool.ended ptr = ended tr ++ [(i, outcome)]) :
    Going selfID name key version (tr ++ [(a, .ended i outcome)])
      { r with
        pool := pool
        results := r.results.modify (i + 1) fun x => (x.1, some (MemberStatus.of (receive version outcome))) } := by
  have he : ended (tr ++ [(a, .ended i outcome)]) = ended tr ++ [(i, outcome)] := ended_snoc ..
  have hleft : ∀ response, outcome = .ok response → i ∈ (requests tr).map Prod.fst := by
    rintro response rfl
    exact (h.left i).mp (of_decide_eq_true hmay)
  refine ⟨h.clients, ?_, ?_, h.flags, ?_, h.sent.ended a hleft, ?_, ?_, ?_, ?_⟩
  · rwa [he]
  · rw [attempts_snoc, List.append_nil, h.attempted]
    exact congrArg (fun n => r.clients.take n) hn.symm
  · rw [requests_snoc, List.append_nil]
    exact h.left
  · exact (List.length_modify ..).trans h.length
  · show (r.results.modify (i + 1) _)[0]? = _
    rw [List.getElem?_modify_ne _ _ (by omega), h.self]
  · intro j m hm hj
    rw [he, List.map_append] at hj
    have hji : j ≠ i := fun hji => hj (by simp [hji])
    show (r.results.modify (i + 1) _)[j + 1]? = _
    rw [List.getElem?_modify_ne _ _ (by omega), h.named j m hm fun hj' => hj (List.mem_append_left _ hj')]
  · intro j out m hj hm
    show (r.results.modify (i + 1) _)[j + 1]? = _
    rw [he] at hj
    rcases List.mem_append.mp hj with hj | hj
    · have hji : j ≠ i := fun hji => hnew (hji ▸ List.mem_map_of_mem hj)
      rw [List.getElem?_modify_ne _ _ (by omega), h.written j out m hj hm]
    · obtain ⟨rfl, rfl⟩ := Prod.mk.inj (List.mem_singleton.mp hj)
      rw [List.getElem?_modify_eq, h.named j m hm hnew]
      rfl

/-- A step of the pool. -/
theorem Going.step (h : Going selfID name key version tr r) {pa : Pool.Act Outcome} {pool : Pool}
    {ev : Pool.Event Outcome} (hst : r.pool.step pa = some (pool, ev)) (a : Act) :
    match ev with
    | .started i => ∃ c, r.clients[i]? = some (some c) ∧
        Going selfID name key version (tr ++ [(a, .attempt i c)]) { r with pool := pool }
    | .ended i outcome => r.mayEnd i outcome = true → Going selfID name key version (tr ++ [(a, .ended i outcome)])
        { r with
          pool := pool
          results := r.results.modify (i + 1) fun x => (x.1, some (MemberStatus.of (receive version outcome))) }
    | .quiet => Going selfID name key version (tr ++ [(a, .quiet)]) { r with pool := pool } := by
  obtain ⟨ptr, hrun, hend⟩ := h.pool
  have hsound := Pool.sound_run hrun
  have hrun' := hrun.snoc hst
  cases Pool.move_of_step hst with
  | @handoff w hlt hw =>
    rw [hsound.size_eq] at hlt
    obtain ⟨m, c, hm, hc, -⟩ := h.client hlt
    exact ⟨c, hc, h.handoff a hc rfl ⟨_, hrun', by rw [Pool.ended_snoc, List.append_nil, hend]⟩⟩
  | @finish w i outcome hw =>
    -- the job was running, so it has not ended before
    have hnew : i ∉ (ended tr).map Prod.fst := by
      have hnd := hsound.jobs.nodup_iff.mpr List.nodup_range
      rw [← hend]
      exact fun hi => (List.nodup_append.mp hnd).2.2 i
        (List.mem_filterMap.mpr ⟨_, List.mem_of_getElem? hw, rfl⟩) i hi rfl
    exact fun hmay => h.finish a hnew hmay rfl ⟨_, hrun', by rw [Pool.ended_snoc, hend]⟩
  | close heq hc =>
    exact h.quiet a r.expired rfl ⟨_, hrun', by rw [Pool.ended_snoc, List.append_nil, hend]⟩
  | @exit w hc hw =>
    exact h.quiet a r.expired rfl ⟨_, hrun', by rw [Pool.ended_snoc, List.append_nil, hend]⟩

end Going

end Fanout

end SimpleCache.Cluster
