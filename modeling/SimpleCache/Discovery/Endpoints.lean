import Mathlib.Data.Multiset.Basic
import SimpleCache.Cluster.Directory
import SimpleCache.Go.Net
import SimpleCache.Lib.Run

/-!
# Discovery.Endpoints — from EndpointSlices to the directory (`discovery/endpoints.go`)

`members` selects the usable IPv4 Pod endpoints of a list of slices.  The `Watcher` is the machine of `New` and `Run`:
the informer changes its store and calls `signal` at later points of its own, the one-slot channel coalesces the
signals, and `Run` lists the store and publishes what it listed as two separate actions.

The store has no order, and `GetStore().List()` returns its slices in any.  `publication_loses_no_change` says that
nothing is lost between the store and the directory.
-/

namespace SimpleCache.Discovery

open Cluster (Member Directory newDirectory normalize)
open Lib (Run)

/-! ### `Members` -/

inductive AddressType
  | ipv4
  | ipv6
  | fqdn
  deriving DecidableEq, Repr

inductive Protocol
  | tcp
  | udp
  | sctp
  deriving DecidableEq, Repr

/-- `discoveryv1.EndpointPort`. -/
structure EndpointPort where
  name : Option GoString
  port : Option ℤ
  protocol : Option Protocol
  deriving DecidableEq, Repr

/-- The fields of `corev1.ObjectReference` that `Members` reads. -/
structure TargetRef where
  kind : GoString
  name : GoString
  ns : GoString
  deriving DecidableEq, Repr

/-- `discoveryv1.Endpoint` with its conditions. -/
structure Endpoint where
  ready : Option Bool
  terminating : Option Bool
  targetRef : Option TargetRef
  addresses : List GoString
  deriving DecidableEq, Repr

/-- `discoveryv1.EndpointSlice`; `ns` is its namespace. -/
structure EndpointSlice where
  ns : GoString
  addressType : AddressType
  ports : List EndpointPort
  endpoints : List Endpoint
  deriving DecidableEq, Repr

/-- The loop over the ports: the first TCP port named `cluster`, or zero. -/
def clusterPort (ports : List EndpointPort) : ℤ :=
  match ports.find? fun p => p.name = some (Go.ascii "cluster") && p.port.isSome &&
      (p.protocol = none || p.protocol = some .tcp) with
  | some p => p.port.getD 0
  | none => 0

/-- The member of one address. -/
def addressMember (id : GoString) (port : ℤ) (address : GoString) : Option Member :=
  ((Go.parseIP address).bind Go.to4).map fun ip => ⟨id, Go.joinHostPort ip.string (Go.formatInt port)⟩

/-- The loop over the addresses of an endpoint, for an endpoint that is usable. -/
def endpointMembers (sliceNs : GoString) (port : ℤ) (e : Endpoint) : List Member :=
  if e.ready = some false then []
  else if e.terminating = some true then []
  else
    match e.targetRef with
    | none => []
    | some ref =>
      if ref.kind ≠ Go.ascii "Pod" ∨ ref.name = [] then []
      else
        let ns := if ref.ns = [] then sliceNs else ref.ns
        if ns = [] ∨ ns ≠ sliceNs then []
        else e.addresses.filterMap (addressMember (ns ++ 47 :: ref.name) port)

/-- The members of one slice. -/
def sliceMembers (s : EndpointSlice) : List Member :=
  if s.addressType ≠ .ipv4 then []
  else
    let port := clusterPort s.ports
    if port < 1 ∨ 65535 < port then [] else s.endpoints.flatMap (endpointMembers s.ns port)

/-- `Members`. -/
def members (slices : List EndpointSlice) : List Member := slices.flatMap sliceMembers

theorem addressMember_valid {id address : GoString} {port : ℤ} {m : Member} (hid : id ≠ []) (h1 : 1 ≤ port)
    (h2 : port ≤ 65535) (h : addressMember id port address = some m) : m.Valid := by
  obtain ⟨ip, -, rfl⟩ := Option.map_eq_some_iff.mp h
  refine ⟨hid, ?_⟩
  rw [ip.joinHostPort]
  refine Cluster.validAddress_append ip.string_ne_nil (fun c hc => ?_) h1 h2
  rcases Go.IPv4.mem_string hc with hd | rfl
  · simp [Cluster.hostByte, hd]
  · rfl

theorem endpointMembers_valid {ns : GoString} {port : ℤ} {e : Endpoint} {m : Member} (h1 : 1 ≤ port)
    (h2 : port ≤ 65535) (h : m ∈ endpointMembers ns port e) : m.Valid := by
  unfold endpointMembers at h
  split_ifs at h with hready hterm
  · cases h
  · cases h
  · cases href : e.targetRef with
    | none => simp [href] at h
    | some ref =>
      simp only [href] at h
      split_ifs at h
      · cases h
      · cases h
      · obtain ⟨address, -, haddr⟩ := List.mem_filterMap.mp h
        exact addressMember_valid (by simp) h1 h2 haddr
      · cases h
      · obtain ⟨address, -, haddr⟩ := List.mem_filterMap.mp h
        exact addressMember_valid (by simp) h1 h2 haddr

/-- **Every member that `Members` produces passes the validation of `Update`.** -/
theorem members_valid {slices : List EndpointSlice} {m : Member} (h : m ∈ members slices) : m.Valid := by
  obtain ⟨s, -, hs⟩ := List.mem_flatMap.mp h
  unfold sliceMembers at hs
  dsimp only at hs
  split_ifs at hs with htype hport
  · cases hs
  · cases hs
  · obtain ⟨e, -, he⟩ := List.mem_flatMap.mp hs
    exact endpointMembers_valid (by omega) (by omega) he

theorem members_perm {l l' : List EndpointSlice} (h : l.Perm l') : (members l).Perm (members l') :=
  h.flatMap_right sliceMembers

/-- The members of any listing of a store normalize to one list. -/
theorem normalize_members (l : List EndpointSlice) : ∃ ms, ∀ l' : List EndpointSlice, l'.Perm l →
    normalize (members l') = .ok ms := by
  obtain ⟨ms, hms⟩ := Cluster.normalize_ok fun m (hm : m ∈ members l) => members_valid hm
  exact ⟨ms, fun l' hl => (Cluster.normalize_perm (members_perm hl)).trans hms⟩

/-! ### The watcher -/

/-- Where `Run` stands. -/
inductive Phase
  /-- In `WaitForCacheSync`. -/
  | syncing
  /-- `rebuild` has begun; `GetStore().List()` is next. -/
  | rebuild
  /-- `rebuild` has listed the store; `Update` is next. -/
  | listed (slices : List EndpointSlice)
  /-- In the select. -/
  | select
  | stopped
  deriving DecidableEq, Repr

/-- The informer's store, and a `Watcher` with its channel and its directory. -/
structure Watcher where
  store : Multiset EndpointSlice
  /-- The one-slot channel holds a value. -/
  changes : Bool
  router : Directory
  ready : Bool
  phase : Phase

namespace Watcher

inductive Action
  /-- The informer adds, updates, deletes or replaces slices. -/
  | change (store : Multiset EndpointSlice)
  /-- An event handler of the informer calls `signal`. -/
  | signal
  | sync
  | list (slices : List EndpointSlice)
  | publish
  | receive
  /-- The context is done. -/
  | done
  deriving DecidableEq

/-- What an action shows. -/
inductive Output
  | quiet
  /-- `rebuild` returned true after `Report(count, changed)`. -/
  | report (count : ℕ) (changed : Bool)
  /-- `rebuild` returned false. -/
  | failed
  deriving DecidableEq, Repr

/-- One action, where it is enabled. -/
def step (w : Watcher) : Action → Option (Watcher × Output)
  | .change store => some ({ w with store := store }, .quiet)
  | .signal => some ({ w with changes := true }, .quiet)
  | .sync =>
    match w.phase with
    | .syncing => some ({ w with phase := .rebuild }, .quiet)
    | _ => none
  | .list slices =>
    match w.phase with
    | .rebuild =>
      if (slices : Multiset EndpointSlice) = w.store then some ({ w with phase := .listed slices }, .quiet) else none
    | _ => none
  | .publish =>
    match w.phase with
    | .listed slices =>
      match w.router.update (members slices) with
      | (.error _, router) => some ({ w with router := router, phase := .select }, .failed)
      | (.ok _, router) =>
        some ({ w with router := router, ready := true, phase := .select },
          .report router.state.members.length (w.router.state.members ≠ router.state.members))
    | _ => none
  | .receive =>
    match w.phase with
    | .select => if w.changes then some ({ w with changes := false, phase := .rebuild }, .quiet) else none
    | _ => none
  | .done =>
    match w.phase with
    | .syncing => some ({ w with phase := .stopped }, .quiet)
    | .select => some ({ w with ready := false, phase := .stopped }, .quiet)
    | _ => none

/-- `New`, with the informer's store still empty. -/
def new (router : Directory) : Watcher := ⟨0, false, router, false, .syncing⟩

/-- Every change has been followed by a signal. -/
def Signalled (tr : List (Action × Output)) : Prop :=
  ∀ tr₁ store o tr₂, tr = tr₁ ++ (.change store, o) :: tr₂ → ∃ o', (.signal, o') ∈ tr₂

theorem signalled_of_snoc {tr : List (Action × Output)} {a : Action} {o : Output} (ha : a ≠ .signal)
    (h : Signalled (tr ++ [(a, o)])) : Signalled tr := by
  rintro tr₁ store o' tr₂ rfl
  obtain ⟨o'', hmem⟩ := h tr₁ store o' (tr₂ ++ [(a, o)]) (by simp)
  rcases List.mem_append.mp hmem with hmem | hmem
  · exact ⟨o'', hmem⟩
  · simp only [List.mem_singleton, Prod.mk.injEq] at hmem
    exact absurd hmem.1.symm ha

theorem not_signalled_change {tr : List (Action × Output)} {store : Multiset EndpointSlice} {o : Output} :
    ¬Signalled (tr ++ [(.change store, o)]) := by
  intro h
  obtain ⟨_, hmem⟩ := h tr store o [] rfl
  cases hmem

/-- The directory shows the store, however it is listed. -/
def Shows (router : Directory) (store : Multiset EndpointSlice) : Prop :=
  ∀ slices : List EndpointSlice, (slices : Multiset EndpointSlice) = store →
    normalize (members slices) = .ok router.state.members

/-- What `Run` has seen, once no signal is outstanding: the list it works on is the store, and in the select the
directory shows it.  Before the store is listed there is nothing to say. -/
def UpToDate (store : Multiset EndpointSlice) (router : Directory) : Phase → Prop
  | .listed slices => (slices : Multiset EndpointSlice) = store
  | .select => Shows router store
  | _ => True

/-- `Update` of a listing never fails and publishes its members. -/
theorem update_members (router : Directory) (slices : List EndpointSlice) :
    (router.update (members slices)).1 = .ok () ∧ Shows (router.update (members slices)).2 slices := by
  obtain ⟨ms, hms⟩ := normalize_members slices
  obtain ⟨hok, hmem⟩ := Cluster.Directory.update_ok (d := router) (hms slices (List.Perm.refl _))
  exact ⟨hok, fun l hl => by rw [hmem, hms l (Multiset.coe_eq_coe.mp hl)]⟩

theorem step_publish {w w' : Watcher} {o : Output} (h : step w .publish = some (w', o)) :
    ∃ slices, w.phase = .listed slices ∧ o ≠ .failed ∧ w'.store = w.store ∧ w'.changes = w.changes ∧
      w'.phase = .select ∧ Shows w'.router slices := by
  simp only [step] at h
  split at h
  · rename_i slices hphase
    obtain ⟨hok, hshows⟩ := update_members w.router slices
    split at h
    · rename_i m router heq
      rw [heq] at hok
      cases hok
    · rename_i router heq
      rw [heq] at hshows
      cases h
      exact ⟨slices, hphase, nofun, rfl, rfl, rfl, hshows⟩
  · cases h

/-- A rebuild never fails. -/
theorem step_ne_failed {w w' : Watcher} {a : Action} {o : Output} (h : step w a = some (w', o)) : o ≠ .failed := by
  cases a with
  | publish =>
    obtain ⟨_, _, ho, _⟩ := step_publish h
    exact ho
  | change | signal =>
    cases h
    nofun
  | sync | list | receive | done =>
    simp only [step] at h
    split at h
    all_goals first | cases h; done | (cases h; nofun) | (split_ifs at h; cases h; nofun)

/-- The step lemma.  A change leaves a signal outstanding and a signal fills the channel, so only the actions of `Run`
have something to keep. -/
theorem upToDate_step {tr : List (Action × Output)} {w w' : Watcher} {a : Action} {o : Output}
    (ih : Signalled tr → w.changes = false → UpToDate w.store w.router w.phase) (h : step w a = some (w', o)) :
    Signalled (tr ++ [(a, o)]) → w'.changes = false → UpToDate w'.store w'.router w'.phase := by
  intro hsig hempty
  cases a with
  | change store => exact absurd hsig not_signalled_change
  | signal =>
    cases h
    cases hempty
  | publish =>
    obtain ⟨slices, hphase, -, hstore, hchanges, hphase', hshows⟩ := step_publish h
    have hlisted := ih (signalled_of_snoc (a := .publish) nofun hsig) (hchanges ▸ hempty)
    rw [hphase] at hlisted
    rw [hphase', hstore]
    exact hlisted ▸ hshows
  | sync =>
    simp only [step] at h
    split at h
    · cases h
      trivial
    · cases h
  | list slices =>
    simp only [step] at h
    split at h
    · split_ifs at h with hlist
      cases h
      exact hlist
    · cases h
  | receive =>
    simp only [step] at h
    split at h
    · split_ifs at h
      cases h
      trivial
    · cases h
  | done =>
    simp only [step] at h
    split at h
    · cases h
      trivial
    · cases h
      trivial
    · cases h

theorem upToDate_run {router : Directory} {tr : List (Action × Output)} {w : Watcher}
    (h : Run step (new router) tr w) : Signalled tr → w.changes = false → UpToDate w.store w.router w.phase := by
  refine h.rec_inv (I := fun tr w => Signalled tr → w.changes = false → UpToDate w.store w.router w.phase) ?_ ?_
  · intro _ _
    trivial
  · intro tr w a o w' _ ih hst
    exact upToDate_step ih hst

theorem run_ne_failed {router : Directory} {tr : List (Action × Output)} {w : Watcher}
    (h : Run step (new router) tr w) : ∀ a, (a, Output.failed) ∉ tr := by
  intro a hmem
  obtain ⟨tr₁, tr₂, rfl⟩ := List.append_of_mem hmem
  obtain ⟨s₁, s₂, -, hst, -⟩ := h.cut
  exact step_ne_failed hst rfl

/-- **Membership publication loses no change.**  In every interleaving of store changes, signals and the steps of
`Run`: whenever every change has been signalled, the channel is empty and `Run` is in its select, the directory shows the
members of the current store, in whatever order it is listed; and no rebuild fails, since every member that `Members`
produces is valid. -/
theorem publication_loses_no_change {router : Directory} {tr : List (Action × Output)} {w : Watcher}
    (h : Run step (new router) tr w) :
    (Signalled tr → w.changes = false → w.phase = .select →
      ∀ slices : List EndpointSlice, (slices : Multiset EndpointSlice) = w.store →
        normalize (members slices) = .ok w.router.state.members) ∧
    (∀ a, (a, .failed) ∉ tr) ∧
    ∀ (slices : List EndpointSlice), ∀ m ∈ members slices, m.id ≠ [] ∧ Cluster.validAddress m.address = true := by
  refine ⟨fun hsig hempty hphase => ?_, run_ne_failed h, fun slices m hm => members_valid hm⟩
  have hup := upToDate_run h hsig hempty
  rw [hphase] at hup
  exact hup

/-- A slice of two ready Pods and one that terminates. -/
def slice₀ : EndpointSlice where
  ns := Go.ascii "shop"
  addressType := .ipv4
  ports := [⟨some (Go.ascii "cluster"), some 8001, none⟩]
  endpoints :=
    [⟨some true, none, some ⟨Go.ascii "Pod", Go.ascii "cache-1", []⟩, [Go.ascii "10.0.0.2"]⟩,
      ⟨none, none, some ⟨Go.ascii "Pod", Go.ascii "cache-0", Go.ascii "shop"⟩, [Go.ascii "::ffff:10.0.0.1"]⟩,
      ⟨some true, some true, some ⟨Go.ascii "Pod", Go.ascii "cache-2", []⟩, [Go.ascii "10.0.0.3"]⟩]

/-- Changes before a signal, and none after it. -/
theorem signalled_append {tr₁ tr₂ : List (Action × Output)} {o : Output}
    (h : ∀ e ∈ tr₂, ∀ store, e.1 ≠ .change store) : Signalled (tr₁ ++ (.signal, o) :: tr₂) := by
  intro t₁ store o' t₂ heq
  rcases List.append_eq_append_iff.mp heq with ⟨mid, -, hmid⟩ | ⟨mid, -, hmid⟩
  · cases mid with
    | nil => cases hmid
    | cons e mid =>
      obtain ⟨-, rfl⟩ := List.cons.inj hmid
      exact absurd rfl (h _ (List.mem_append_right _ List.mem_cons_self) store)
  · cases mid with
    | nil => cases hmid
    | cons e mid =>
      obtain ⟨-, rfl⟩ := List.cons.inj hmid
      exact ⟨o, by simp⟩

/-- The store changes while `Run` holds an older list. -/
def changing : List Action :=
  [.change 0, .signal, .sync, .list [], .change {slice₀}, .publish, .signal, .receive, .list [slice₀], .publish]

theorem changing_isSome : (Lib.exec step (new (newDirectory (Go.ascii "shop/cache-0") [])) changing).isSome = true := by
  decide +kernel

/-- The late change reaches the directory, sorted and without the Pod that terminates. -/
theorem publication_loses_no_change_late : ∃ w : Watcher, w.store = {slice₀} ∧
    normalize (members [slice₀]) = .ok w.router.state.members ∧
    w.router.state.members = [⟨Go.ascii "shop/cache-0", Go.ascii "10.0.0.1:8001"⟩,
      ⟨Go.ascii "shop/cache-1", Go.ascii "10.0.0.2:8001"⟩] := by
  have hrun := Lib.exec_get changing_isSome
  refine ⟨_, ?_, (publication_loses_no_change hrun).1 ?_ ?_ ?_ [slice₀] ?_, ?_⟩
  · decide +kernel
  · rw [show changing.zip _ = [(.change 0, .quiet), (.signal, .quiet), (.sync, .quiet), (.list [], .quiet),
      (.change {slice₀}, .quiet), (.publish, .report 0 false)] ++ (.signal, .quiet) ::
      [(.receive, .quiet), (.list [slice₀], .quiet), (.publish, .report 2 true)] by decide +kernel]
    apply signalled_append
    simp
  · decide +kernel
  · decide +kernel
  · decide +kernel
  · decide +kernel

/-! ### Where the members come from -/

/-- The store of the informer has held these slices. -/
def Held (tr : List (Action × Output)) (store : Multiset EndpointSlice) : Prop :=
  store = 0 ∨ ∃ o, (.change store, o) ∈ tr

/-- What the watcher works on and what it has published are contents of the store. -/
structure Sourced (tr : List (Action × Output)) (w : Watcher) : Prop where
  store : Held tr w.store
  listed : ∀ slices, w.phase = .listed slices → Held tr slices
  ready : w.ready = true → ∃ store, Held tr store ∧ Shows w.router store

theorem Held.snoc {tr : List (Action × Output)} {store : Multiset EndpointSlice} (h : Held tr store)
    (e : Action × Output) : Held (tr ++ [e]) store :=
  h.imp_right fun ⟨o, ho⟩ => ⟨o, List.mem_append_left _ ho⟩

theorem sourced_step {tr : List (Action × Output)} {w w' : Watcher} {a : Action} {o : Output} (h : Sourced tr w)
    (hst : step w a = some (w', o)) : Sourced (tr ++ [(a, o)]) w' := by
  obtain ⟨hstore, hlisted, hready⟩ := h
  have hready' : w.ready = true → ∃ store, Held (tr ++ [(a, o)]) store ∧ Shows w.router store := fun hr => by
    obtain ⟨store, hh, hs⟩ := hready hr
    exact ⟨store, hh.snoc _, hs⟩
  cases a with
  | change store =>
    cases hst
    exact ⟨.inr ⟨.quiet, by simp⟩, fun slices hp => (hlisted slices hp).snoc _, hready'⟩
  | signal =>
    cases hst
    exact ⟨hstore.snoc _, fun slices hp => (hlisted slices hp).snoc _, hready'⟩
  | publish =>
    obtain ⟨slices, hp, -, hsame, -, hphase, hshows⟩ := step_publish hst
    refine ⟨hsame ▸ hstore.snoc _, fun slices' hp' => ?_, fun _ => ⟨slices, (hlisted slices hp).snoc _, hshows⟩⟩
    rw [hphase] at hp'
    cases hp'
  | sync =>
    simp only [step] at hst
    split at hst <;> cases hst
    exact ⟨hstore.snoc _, nofun, hready'⟩
  | list slices =>
    simp only [step] at hst
    split at hst
    · split_ifs at hst with heq
      cases hst
      refine ⟨hstore.snoc _, fun slices' hp => ?_, hready'⟩
      cases hp
      exact heq ▸ hstore.snoc _
    · cases hst
  | receive =>
    simp only [step] at hst
    split at hst
    · split_ifs at hst
      cases hst
      exact ⟨hstore.snoc _, nofun, hready'⟩
    · cases hst
  | done =>
    simp only [step] at hst
    split at hst <;> cases hst
    · exact ⟨hstore.snoc _, nofun, hready'⟩
    · exact ⟨hstore.snoc _, nofun, nofun⟩

/-- A ready watcher has published what the store held at some time. -/
theorem sourced_run {router : Directory} {tr : List (Action × Output)} {w : Watcher}
    (h : Run step (new router) tr w) : Sourced tr w :=
  h.rec_inv (I := Sourced) ⟨.inl rfl, by simp [new], by simp [new]⟩ fun _ _ _ _ _ _ hI hst => sourced_step hI hst

end Watcher

end SimpleCache.Discovery
