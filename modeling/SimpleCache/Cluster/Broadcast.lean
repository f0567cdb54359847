import SimpleCache.Cluster.Directory

/-!
# Cluster.Broadcast — one fan-out (`Directory.InvalidateVersion`)

After the local call, `Directory.InvalidateVersion` captures one snapshot and sends one request to every other member
of it.  The dispatcher hands out the indices in order to at most eight workers; each request ends on its own, with a
reply or an error.  `Broadcast` is the state between the capture and the report, and `report_complete` says what a
complete report stands for.
-/

namespace SimpleCache.Cluster

/-- The status of a member in a report. -/
inductive MemberStatus
  | ok
  | failed
  | unversioned
  | timeout
  deriving DecidableEq, Repr

/-- The status for the result of `Client.InvalidateVersion`. -/
def MemberStatus.of : Except Err Unit → MemberStatus
  | .ok _ => .ok
  | .error e =>
    if e = .deadlineExceeded ∨ e = .canceled then .timeout
    else if e = errUnversionedInvalidation then .unversioned
    else .failed

theorem MemberStatus.of_eq_ok {r : Except Err Unit} (h : MemberStatus.of r = .ok) : r = .ok () := by
  cases r with
  | ok u => rfl
  | error e =>
    unfold MemberStatus.of at h
    dsimp only at h
    split_ifs at h

structure InvalidationResult where
  node : GoString
  status : MemberStatus
  deriving DecidableEq, Repr

structure InvalidationReport where
  knownMembers : ℕ
  version : ℤ
  scope : String
  complete : Bool
  results : List InvalidationResult
  deriving DecidableEq, Repr

/-- One request of a fan-out: not taken yet, on its way under a request number, or ended. -/
inductive Job
  | queued
  | sent (request : ℕ)
  | done (status : MemberStatus)
  deriving DecidableEq, Repr

def Job.running : Job → Bool
  | .sent _ => true
  | _ => false

def Job.status? : Job → Option MemberStatus
  | .done status => some status
  | _ => none

/-- A fan-out in progress. -/
structure Broadcast where
  selfID : GoString
  key : GoString
  version : ℤ
  snapshot : Snapshot
  jobs : ℕ → Job

namespace Broadcast

/-- The members of a snapshot that are sent a request, in its order. -/
def others (selfID : GoString) (snapshot : Snapshot) : List Member :=
  snapshot.members.filter fun m => m.id ≠ selfID

/-- The capture of the snapshot. -/
def start (d : Directory) (key : GoString) (version : ℤ) : Broadcast :=
  ⟨d.selfID, key, version, d.state, fun _ => .queued⟩

/-- The member of a request. -/
def member? (b : Broadcast) (i : ℕ) : Option Member := (others b.selfID b.snapshot)[i]?

/-- The client of a request; the snapshot has one for every member. -/
def client? (b : Broadcast) (i : ℕ) : Option Client := (b.member? i).bind fun m => b.snapshot.clients m.id

def size (b : Broadcast) : ℕ := (others b.selfID b.snapshot).length

/-- The index that the dispatcher hands to a free worker. -/
def next (b : Broadcast) : Option ℕ :=
  if ((List.range b.size).countP fun i => (b.jobs i).running) < min 8 b.size then
    (List.range b.size).find? fun i => decide (b.jobs i = .queued)
  else none

def set (b : Broadcast) (i : ℕ) (job : Job) : Broadcast := { b with jobs := Function.update b.jobs i job }

/-- The report, when all requests have ended. -/
def report (b : Broadcast) : Option InvalidationReport :=
  ((List.range b.size).mapM fun i => (b.jobs i).status?).map fun statuses =>
    ⟨b.snapshot.members.length, b.version, "known_members_snapshot", statuses.all fun s => s = .ok,
      ⟨b.selfID, .ok⟩ :: ((others b.selfID b.snapshot).zip statuses).map fun r => ⟨r.1.id, r.2⟩⟩

theorem set_jobs (b : Broadcast) (i : ℕ) (job : Job) (j : ℕ) :
    (b.set i job).jobs j = if j = i then job else b.jobs j := Function.update_apply b.jobs i job j

/-- The client of a request sends to the address of its member. -/
theorem client?_address {b : Broadcast} {i : ℕ} {m : Member} {c : Client} (hm : b.member? i = some m)
    (hc : b.client? i = some c) : c.address = m.address := by
  unfold client? at hc
  rw [hm, Option.bind_some] at hc
  have hmem := (List.mem_filter.mp (List.mem_of_getElem? hm)).1
  obtain ⟨c', hc', ha⟩ := b.snapshot.reaches m hmem
  rw [hc, Option.some.injEq] at hc'
  exact hc' ▸ ha

/-- The index of a member. -/
theorem exists_member? {b : Broadcast} {m : Member} (hm : m ∈ b.snapshot.members) (hid : m.id ≠ b.selfID) :
    ∃ i < b.size, b.member? i = some m := by
  have hmem : m ∈ others b.selfID b.snapshot := List.mem_filter.mpr ⟨hm, decide_eq_true hid⟩
  obtain ⟨i, hi, he⟩ := List.getElem_of_mem hmem
  exact ⟨i, hi, by unfold member?; rw [List.getElem?_eq_getElem hi, he]⟩

theorem next_spec {b : Broadcast} {i : ℕ} (h : b.next = some i) : i < b.size ∧ b.jobs i = .queued := by
  unfold next at h
  split_ifs at h
  have hq := List.find?_some h
  exact ⟨List.mem_range.mp (List.mem_of_find?_eq_some h), of_decide_eq_true hq⟩

theorem mapM_status {b : Broadcast} {statuses : List MemberStatus} : ∀ {l : List ℕ},
    (l.mapM fun i => (b.jobs i).status?) = some statuses → ∀ i ∈ l, ∃ s ∈ statuses, b.jobs i = .done s := by
  intro l
  induction l generalizing statuses with
  | nil => simp
  | cons j l ih =>
    intro h i hi
    rw [List.mapM_cons] at h
    simp only [Option.bind_eq_bind, Option.pure_def, Option.bind_eq_some_iff, Option.some.injEq] at h
    obtain ⟨s, hs, ss, hss, rfl⟩ := h
    rcases List.mem_cons.mp hi with rfl | hi
    · refine ⟨s, List.mem_cons_self, ?_⟩
      cases hj : b.jobs i with
      | done s' =>
        rw [hj] at hs
        exact congrArg Job.done (Option.some.inj hs)
      | queued => rw [hj] at hs; simp [Job.status?] at hs
      | sent r => rw [hj] at hs; simp [Job.status?] at hs
    · obtain ⟨s', hs', hj⟩ := ih hss i hi
      exact ⟨s', List.mem_cons_of_mem _ hs', hj⟩

/-- **A complete report**: every request ended with status ok. -/
theorem report_complete {b : Broadcast} {r : InvalidationReport} (h : b.report = some r) (hc : r.complete = true) :
    (∀ i < b.size, b.jobs i = .done .ok) ∧ r.knownMembers = b.snapshot.members.length := by
  unfold report at h
  obtain ⟨statuses, hs, rfl⟩ := Option.map_eq_some_iff.mp h
  refine ⟨fun i hi => ?_, rfl⟩
  obtain ⟨s, hmem, hj⟩ := mapM_status hs i (List.mem_range.mpr hi)
  rw [hj, of_decide_eq_true (List.all_eq_true.mp hc s hmem)]

end Broadcast

end SimpleCache.Cluster
