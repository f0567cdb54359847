import SimpleCache.Operator.Stale

/-!
# Operator.Runs — whole runs of the system, and the routes to the shards

A run interleaves spec edits, the doings of other components, Reconcile passes with failing calls, and crashes.  What the
others do is in `Rely`, and what a pass with current reads does is in `Guar`, so an assertion that both keep holds along
the run (`Sound.along`); what a pass with any reads does is in `Names` (`WellNamed.along`).  That no route leads to a
deleted shard is such an assertion, and a stale read breaks it (`stale_route`).
-/

namespace SimpleCache.Operator

open Lib (Run)
open Lib.Prog (wp wp_mono Runs)

namespace System

variable {names : NameChecks} {enableGateway : Bool} {n u : GoString} {s s' : Server} {earlier : List Server}
  {t t' : System} {a : Action} {out : Output}

/-! ### Interference -/

theorem rely_of_store (hstore : s'.store = s.store)
    (hres : ∀ r', s'.resource = some r' → ∃ r, s.resource = some r ∧ r'.cr.name = r.cr.name ∧ r'.cr.uid = r.cr.uid) :
    Rely u s s' := by
  have howned : ∀ {k o}, s'.Owned u k o ↔ s.Owned u k o := by
    intro k o
    rw [Server.Owned, Server.Owned, Server.get, hstore]
    rfl
  exact ⟨fun k o ho => ⟨o, howned.mpr ho, o.drifts_refl⟩, fun k o ho => ⟨o, howned.mp ho⟩, hres⟩

/-- A change under one key that leaves a controlled object controlled, and makes none. -/
theorem rely_of_key {k : Key} (hne : ∀ k', k' ≠ k → s'.get k' = s.get k') (hres : s'.resource = s.resource)
    (hkept : ∀ o, s.Owned u k o → ∃ o', s'.Owned u k o' ∧ o.drifts o' = true)
    (hnew : ∀ o', s'.Owned u k o' → ∃ o, s.Owned u k o) : Rely u s s' where
  kept k' o ho := by
    by_cases hk : k' = k
    · subst hk
      exact hkept o ho
    · exact ⟨o, ⟨(hne k' hk).trans ho.1, ho.2⟩, o.drifts_refl⟩
  none_new k' o ho := by
    by_cases hk : k' = k
    · subst hk
      exact hnew o ho
    · exact ⟨o, (hne k' hk).symm.trans ho.1, ho.2⟩
  identity r hr := ⟨r, hres ▸ hr, rfl, rfl⟩

theorem not_owned_of_all {k : Key} (h : ((s.get k).all fun old => old.controller ≠ some u) = true) :
    s.Lacks u k := by
  rintro o ⟨hget, hc⟩
  rw [hget, Option.all_some, decide_eq_true_eq] at h
  exact h hc

/-- What the others do, the controller may rely on. -/
theorem interfere_rely (h : interfere u s a = some s') : Rely u s s' := by
  cases a with
  | edit spec =>
    obtain ⟨r, hr, rfl⟩ := Option.map_eq_some_iff.mp h
    exact rely_of_store rfl fun r' hr' => ⟨r, hr, by cases hr'; exact ⟨rfl, rfl⟩⟩
  | drift new =>
    simp only [interfere] at h
    split at h
    · rename_i old hget
      split_ifs at h with hd
      cases h
      refine rely_of_key (fun k hk => Server.get_put_ne hk) rfl (fun o ho => ?_) fun o' ho' => ?_
      · obtain rfl := Option.some.inj (hget.symm.trans ho.1)
        exact ⟨new, ⟨s.store.get_put new, (Object.drifts_iff.mp hd).2.1.trans ho.2⟩, hd⟩
      · obtain rfl := Option.some.inj ((s.store.get_put new).symm.trans ho'.1)
        exact ⟨old, hget, (Object.drifts_iff.mp hd).2.1.symm.trans ho'.2⟩
    · cases h
  | putForeign o =>
    simp only [interfere] at h
    split_ifs at h with hc
    cases h
    refine rely_of_key (fun k hk => Server.get_put_ne hk) rfl (fun o' ho' => ?_) fun o' ho' => ?_
    · exact absurd ho' (not_owned_of_all hc.2 o')
    · obtain rfl := Option.some.inj ((s.store.get_put o).symm.trans ho'.1)
      exact absurd ho'.2 hc.1
  | removeForeign k =>
    simp only [interfere] at h
    split_ifs at h with hc
    cases h
    refine rely_of_key (fun k' hk => Server.get_remove_ne hk) rfl (fun o' ho' => ?_) fun o' ho' => ?_
    · exact absurd ho' (not_owned_of_all hc o')
    · cases (s.store.get_remove k).symm.trans ho'.1
  | setClass name c =>
    cases h
    exact rely_of_store rfl fun r hr => ⟨r, hr, rfl, rfl⟩
  | start | call | crash => cases h

/-- What an action of another leaves of the resource and of the GatewayClasses. -/
theorem interfere_keeps (h : interfere u s a = some s') :
    ((∀ spec, a ≠ .edit spec) → s'.resource = s.resource) ∧
      ((∀ name c, a ≠ .setClass name c) → s'.classes = s.classes) := by
  cases a with
  | edit spec =>
    obtain ⟨r, -, rfl⟩ := Option.map_eq_some_iff.mp h
    exact ⟨fun ha => absurd rfl (ha spec), fun _ => rfl⟩
  | drift new =>
    simp only [interfere] at h
    split at h
    · split_ifs at h
      cases h
      exact ⟨fun _ => rfl, fun _ => rfl⟩
    · cases h
  | putForeign o =>
    simp only [interfere] at h
    split_ifs at h
    cases h
    exact ⟨fun _ => rfl, fun _ => rfl⟩
  | removeForeign k =>
    simp only [interfere] at h
    split_ifs at h
    cases h
    exact ⟨fun _ => rfl, fun _ => rfl⟩
  | setClass name c =>
    cases h
    exact ⟨fun _ => rfl, fun ha => absurd rfl (ha name c)⟩
  | start | call | crash => cases h

/-! ### Steps -/

/-- What a step is: interference, the begin of a pass, one of its calls, or a crash. -/
theorem step_cases (h : step names enableGateway u t a = some (t', out)) :
    (∃ server, interfere u t.server a = some server ∧ t' = ⟨server, t.server :: t.past, t.running⟩ ∧ out = .quiet) ∨
    (a = .start ∧ t.running = none ∧ advance t.server t.past (reconcile names enableGateway) = (t', out)) ∨
    (∃ ch c k shown r server, a = .call ch ∧ t.running = some (.call c k) ∧ t.seen ch.age = some shown ∧
      t.server.serve shown c ch = some (r, server) ∧ advance server (t.server :: t.past) (k r) = (t', out)) ∨
    (a = .crash ∧ t' = ⟨t.server, t.past, none⟩ ∧ out = .quiet) := by
  cases a with
  | start =>
    simp only [step, Option.isNone_iff_eq_none] at h
    split_ifs at h with hnone
    exact .inr (.inl ⟨rfl, hnone, Option.some.inj h⟩)
  | call ch =>
    simp only [step] at h
    split at h
    · rename_i c k shown hrun hseen
      obtain ⟨⟨r, server⟩, hserve, hadv⟩ := Option.map_eq_some_iff.mp h
      exact .inr (.inr (.inl ⟨ch, c, k, shown, r, server, rfl, hrun, hseen, hserve, hadv⟩))
    · cases h
  | crash =>
    cases h
    exact .inr (.inr (.inr ⟨rfl, rfl, rfl⟩))
  | setClass =>
    cases h
    exact .inl ⟨_, rfl, rfl, rfl⟩
  | edit | drift | putForeign | removeForeign =>
    obtain ⟨server, hs, heq⟩ := Option.map_eq_some_iff.mp h
    cases heq
    exact .inl ⟨server, hs, rfl, rfl⟩

/-- A call with a current read is served from the current state. -/
theorem serves_of_current {ch : Choice} {c : Call} {shown : Server} {r : Resp c} {server : Server} (hcur : ch.age = 0)
    (hseen : t.seen ch.age = some shown) (h : t.server.serve shown c ch = some (r, server)) :
    t.server.Serves c r server := by
  rw [hcur] at hseen
  obtain rfl := Option.some.inj hseen
  exact ⟨ch, h⟩

theorem mem_of_seen {age : ℕ} {shown : Server} (h : t.seen age = some shown) : shown ∈ t.server :: t.past :=
  List.mem_of_getElem? h

theorem advance_server {p : M Outcome} (h : advance s earlier p = (t', out)) :
    t'.server = s ∧ t'.past = earlier := by
  cases p <;> cases h <;> exact ⟨rfl, rfl⟩

/-- A pass that goes on keeps what is known of it, and one that ends shows its postcondition. -/
theorem advance_runs {rely G : Server → Server → Prop} {serves : Server → (c : Call) → Resp c → Server → Prop}
    {Q : Outcome → Server → Prop} {p : M Outcome} (hrefl : ∀ s, rely s s) (hp : wp rely serves G Q p s)
    (h : advance s earlier p = (t', out)) : t'.server = s ∧ (∀ p', t'.running = some p' → Runs rely serves G Q p' s) ∧
      ∀ o, out = .ended (.ok o) → Q o s := by
  cases p with
  | pure a =>
    cases h
    refine ⟨rfl, nofun, ?_⟩
    rintro o ⟨⟩
    exact hp
  | throw e =>
    cases h
    exact ⟨rfl, nofun, fun _ => nofun⟩
  | call c k =>
    cases h
    refine ⟨rfl, ?_, fun _ => nofun⟩
    rintro p' ⟨⟩
    exact ⟨s, hrefl s, hp⟩

/-- The resource is the one that the controller looks after, and the pass under way keeps to the guarantee. -/
structure Sound (n u : GoString) (t : System) : Prop where
  identity : Identity n u t.server
  running : ∀ p, t.running = some p → Runs (Rely u) Server.Serves (Guar n u) (fun _ _ => True) p t.server

/-- One step with a current read: what the others do is in `Rely`, and what the pass does is in `Guar`. -/
theorem Sound.next (h : Sound n u t) (hcur : a.current) (hs : step names enableGateway u t a = some (t', out)) :
    Sound n u t' ∧ ((Rely u t.server t'.server ∧ ∀ ch, a ≠ .call ch) ∨ Guar n u t.server t'.server) := by
  rcases step_cases hs with ⟨server, hi, rfl, -⟩ | ⟨rfl, -, hadv⟩ |
    ⟨ch, c, k, shown, r, server, rfl, hrun, hseen, hserve, hadv⟩ | ⟨rfl, rfl, -⟩
  · have hr := interfere_rely hi
    refine ⟨⟨h.identity.rely hr, fun p hp => (h.running p hp).interfere (fun _ _ _ => Rely.trans) hr⟩, .inl ⟨hr, ?_⟩⟩
    rintro ch rfl
    cases hi
  · obtain ⟨hserver, hruns, -⟩ := advance_runs Rely.refl (wp_reconcile h.identity) hadv
    rw [hserver]
    exact ⟨⟨hserver ▸ h.identity, hserver ▸ hruns⟩, .inr (guar_refl _)⟩
  · obtain ⟨hG, hwp⟩ := (h.running _ hrun).call (serves_of_current hcur hseen hserve)
    obtain ⟨rfl, hruns, -⟩ := advance_runs Rely.refl hwp hadv
    exact ⟨⟨h.identity.same_resource hG.resource, hruns⟩, .inr hG⟩
  · exact ⟨⟨h.identity, nofun⟩, .inr (guar_refl _)⟩

/-- **Along every run with current reads**, whatever the others and the passes keep holds. -/
theorem Sound.along {K : Server → Prop} (hrely : ∀ s s', K s → Rely u s s' → K s')
    (hguar : ∀ s s', K s → Guar n u s s' → K s') {tr : List (Action × Output)} (hidle : t.running = none)
    (hid : Identity n u t.server) (hK : K t.server) (h : Run (step names enableGateway u) t tr t') (hcur : Current tr) :
    Sound n u t' ∧ K t'.server := by
  induction h with
  | nil =>
    refine ⟨⟨hid, ?_⟩, hK⟩
    rw [hidle]
    exact nofun
  | @snoc tr t₁ t₂ a out _ hs ih =>
    obtain ⟨hsound, hK₁⟩ := ih fun e he => hcur e (List.mem_append_left _ he)
    obtain ⟨hsound', hr | hG⟩ := hsound.next (hcur (a, out) (List.mem_append_right _ List.mem_cons_self)) hs
    · exact ⟨hsound', hrely _ _ hK₁ hr.1⟩
    · exact ⟨hsound', hguar _ _ hK₁ hG⟩

/-- The resource is the same one in every state that the cache may show, the controlled objects have the names of the
controller, and the pass under way keeps both. -/
structure WellNamed (n u : GoString) (t : System) : Prop where
  identity : ∀ x ∈ t.server :: t.past, Identity n u x
  created : Created n u t.server
  running : ∀ p, t.running = some p → Runs (fun _ _ => True) (Sees n u) (Names n u) (fun _ _ => True) p t.server

theorem WellNamed.next (h : WellNamed n u t) (hs : step names enableGateway u t a = some (t', out)) :
    WellNamed n u t' := by
  have hpush : ∀ {server}, Identity n u server → ∀ x ∈ server :: t.server :: t.past, Identity n u x :=
    fun hid x hx => (List.mem_cons.mp hx).elim (fun heq => heq ▸ hid) (h.identity x)
  have hnow : Identity n u t.server := h.identity _ List.mem_cons_self
  rcases step_cases hs with ⟨server, hi, rfl, -⟩ | ⟨rfl, -, hadv⟩ |
    ⟨ch, c, k, shown, r, server, rfl, hrun, hseen, hserve, hadv⟩ | ⟨rfl, rfl, -⟩
  · have hr := interfere_rely hi
    refine ⟨hpush (hnow.rely hr), h.created.rely hr, fun p hp => (h.running p hp).interfere (fun _ _ _ _ _ => trivial) ?_⟩
    trivial
  · have hnamed : Named n u (fun _ => True) (reconcile names enableGateway) := named_reconcile
    have hwp := wp_mono (fun _ _ _ => trivial) (hnamed t.server trivial)
    obtain ⟨-, hruns, -⟩ := advance_runs (fun _ => trivial) hwp hadv
    obtain ⟨hserver, hpast⟩ := advance_server hadv
    exact ⟨by rw [hserver, hpast]; exact h.identity, hserver ▸ h.created, hserver ▸ hruns⟩
  · obtain ⟨hnames, hwp⟩ := (h.running _ hrun).call ⟨shown, h.identity _ (mem_of_seen hseen), ch, hserve⟩
    obtain ⟨-, hruns, -⟩ := advance_runs (fun _ => trivial) hwp hadv
    obtain ⟨rfl, hpast⟩ := advance_server hadv
    exact ⟨by rw [hpast]; exact hpush (hnow.names hnames), hnames.created h.created, hruns⟩
  · exact ⟨h.identity, h.created, nofun⟩

/-- **Along every run, whatever the cache shows.** -/
theorem WellNamed.along {tr : List (Action × Output)} (hidle : t.running = none)
    (hid : ∀ x ∈ t.server :: t.past, Identity n u x) (hcreated : Created n u t.server)
    (h : Run (step names enableGateway u) t tr t') : WellNamed n u t' := by
  refine h.inv ⟨hid, hcreated, ?_⟩ fun t a out t' hI hs => hI.next hs
  rw [hidle]
  exact nofun

/-! ### A prompt server

A run for every resource: the server stores what it is given, assigns an address to a Service at once, and never fails.
-/

/-- What the server stores of an object: a Service gets an address, for which its name serves, and a StatefulSet is
filled in. -/
def completed (o : Object) : Object :=
  match o.body with
  | .service spec => if spec.clusterIP = [] then { o with body := .service { spec with clusterIP := o.name } } else o
  | .statefulSet spec status => { o with body := .statefulSet spec.filled status }
  | _ => o

/-- How a call is dealt with when the cache lags behind by `age` states and shows `shown`; the Services that are listed
are those that a controller of `cr` may have created. -/
def prompt (cr : SimpleCacheResource) (age : ℕ) (shown : Server) : Call → Choice
  | .create o => ⟨some (completed o), [], none, false, age⟩
  | .update _ o => ⟨some (completed o), [], none, false, age⟩
  | .listServices =>
    let keys := (clusterService cr).key :: (apiService cr).key :: (ordinals 10).map (shardKey cr.name)
    ⟨none, keys.filterMap shown.get, none, false, age⟩
  | _ => ⟨none, [], none, false, age⟩

/-- How the next call is dealt with; `lag` says how far the cache is behind. -/
def promptCall (cr : SimpleCacheResource) (lag : System → Call → ℕ) (t : System) (c : Call) : Choice :=
  prompt cr (lag t c) ((t.seen (lag t c)).getD t.server) c

/-- A cache that does not lag. -/
def upToDate : System → Call → ℕ := fun _ _ => 0

/-- The events of the pass under way up to its end, at most `fuel` calls, and the state after them. -/
def promptPass (cr : SimpleCacheResource) (lag : System → Call → ℕ) : ℕ → System → List (Action × Output) × System
  | 0, t => ([], t)
  | fuel + 1, t =>
    match t.running with
    | some (.call c _) =>
      match step .documented true cr.uid t (.call (promptCall cr lag t c)) with
      | some (t', out) =>
        let rest := promptPass cr lag fuel t'
        ((.call (promptCall cr lag t c), out) :: rest.1, rest.2)
      | none => ([], t)
    | _ => ([], t)

theorem promptCall_eq (cr : SimpleCacheResource) (lag : System → Call → ℕ) (t : System) (c : Call) :
    (promptCall cr lag t c).failure = none ∧ (promptCall cr lag t c).age = lag t c := by
  cases c <;> exact ⟨rfl, rfl⟩

/-- These are events of the system, and calls that succeed. -/
theorem promptPass_run (cr : SimpleCacheResource) (lag : System → Call → ℕ) : ∀ (fuel : ℕ) (t : System),
    Run (step .documented true cr.uid) t (promptPass cr lag fuel t).1 (promptPass cr lag fuel t).2 ∧
      ∀ e ∈ (promptPass cr lag fuel t).1, ∃ ch, e.1 = .call ch ∧ ch.failure = none ∧ ∃ t c, ch.age = lag t c
  | 0, t => ⟨.nil, List.forall_mem_nil _⟩
  | fuel + 1, t => by
    rw [promptPass]
    split
    · rename_i c k hrun
      split
      · rename_i t' out hs
        obtain ⟨hrest, hcalls⟩ := promptPass_run cr lag fuel t'
        refine ⟨(Run.single hs).append hrest, fun e he => ?_⟩
        rcases List.mem_cons.mp he with rfl | he
        · obtain ⟨hfail, hage⟩ := promptCall_eq cr lag t c
          exact ⟨_, rfl, hfail, t, c, hage⟩
        · exact hcalls e he
      · exact ⟨.nil, List.forall_mem_nil _⟩
    · exact ⟨.nil, List.forall_mem_nil _⟩

theorem current_promptPass (cr : SimpleCacheResource) (fuel : ℕ) (t : System) :
    Current (promptPass cr upToDate fuel t).1 := by
  intro e he
  obtain ⟨ch, heq, -, _, _, hage⟩ := (promptPass_run cr upToDate fuel t).2 e he
  rw [heq]
  exact hage

/-- A resource with one shard and a gateway. -/
def single : StoredResource where
  cr :=
    { name := Go.ascii "cache"
      ns := Go.ascii "shop"
      uid := Go.ascii "u-1"
      spec :=
        { gateway := some ⟨[], 0⟩
          size := 1
          image := Go.ascii "cache:1"
          sourceSecret := []
          cacheBytes := 0
          ttlSeconds := 0
          maxMissWaiters := 0
          sourceMaxPending := none
          maxConcurrentWrites := 0
          resources := ⟨∅, ∅⟩ } }
  generation := 1
  deleting := false
  status := ⟨0, 0, none⟩

/-- An accepted GatewayClass. -/
def envoyClass : GatewayClass where
  controllerName := gatewayController
  generation := 1
  status := .obj [("conditions", .arr [.obj [("type", jstr "Accepted"), ("status", jstr "True"),
    ("observedGeneration", .int 1)]])]

def emptyStore : Store := ⟨∅, fun _ _ h => by rw [Finmap.lookup_empty] at h; cases h⟩

theorem get_emptyStore (k : Key) : emptyStore.get k = none := Finmap.lookup_empty k

/-- The resource and the GatewayClass with some objects. -/
def serverWith (store : Store) : Server := ⟨some single, fun _ => some envoyClass, store⟩

/-- Nothing is under way, and there are no earlier states. -/
def idle (store : Store) : System := ⟨serverWith store, [], none⟩

/-- A pass has begun. -/
def begun (store : Store) : System := ⟨serverWith store, [], some (reconcile .documented true)⟩

theorem start_run (store : Store) (u : GoString) :
    Run (step .documented true u) (idle store) [(.start, .quiet)] (begun store) :=
  Run.single rfl

theorem current_start : Current [(.start, .quiet)] := by
  intro e he
  rw [List.mem_singleton.mp he]
  exact trivial

theorem identity_serverWith (store : Store) : Identity single.cr.name single.cr.uid (serverWith store) := by
  rintro r ⟨⟩
  exact ⟨rfl, rfl⟩

theorem identity_idle (store : Store) :
    ∀ x ∈ (idle store).server :: (idle store).past, Identity single.cr.name single.cr.uid x := by
  intro x hx
  rw [List.mem_singleton.mp hx]
  exact identity_serverWith store

theorem lacks_empty (u : GoString) (k : Key) : (serverWith emptyStore).Lacks u k := by
  rintro o ⟨hget, -⟩
  cases (get_emptyStore k).symm.trans hget

/-! ### No route to a deleted shard -/

/-- **In every state of every run with current typed reads**, with passes cut by failing calls and crashes at any point,
each address of the controlled Backend is the ClusterIP of a shard Service that is there and controlled by the same
resource. -/
theorem no_route_to_deleted_shard {tr : List (Action × Output)} (hidle : t.running = none)
    (hid : Identity n u t.server) (hsafe : Safe n u t.server) (h : Run (step names enableGateway u) t tr t')
    (hcur : Current tr) :
    ∀ b, t'.server.Owned u (backendKey n) b → ∀ ip ∈ backendAddresses b.spec,
      ∃ i, 0 ≤ i ∧ t'.server.Has u (shardKey n i) fun svc => svc.clusterIP = ip := by
  intro b hb ip hmem
  have hsafe' : Safe n u t'.server :=
    (Sound.along (fun _ _ hs hr => RoutesTo.rely hs hr) (fun _ _ hs hG => hG.safe hs) hidle hid hsafe h hcur).2
  obtain ⟨-, i, h0, hi⟩ := hsafe' b hb ip hmem
  exact ⟨i, h0, hi⟩

/-- The first pass is cut right after the Backend is stored. -/
def cutPass : List (Action × Output) × System := promptPass single.cr upToDate 21 (begun emptyStore)

theorem cutPass_backend : ((cutPass.2.server.get (backendKey single.cr.name)).any fun b =>
    b.controller = some single.cr.uid && backendAddresses b.spec ≠ []) = true := by decide +kernel

theorem no_route_to_deleted_shard_cut : ∃ tr t b ip, Run (step .documented true single.cr.uid) (idle emptyStore) tr t ∧
    Current tr ∧ t.running = none ∧ t.server.Owned single.cr.uid (backendKey single.cr.name) b ∧
    ip ∈ backendAddresses b.spec ∧
    ∃ i, 0 ≤ i ∧ t.server.Has single.cr.uid (shardKey single.cr.name i) fun svc => svc.clusterIP = ip := by
  have hpass : Run (step .documented true single.cr.uid) (begun emptyStore) cutPass.1 cutPass.2 :=
    (promptPass_run _ _ _ _).1
  have hcrash : step .documented true single.cr.uid cutPass.2 .crash =
      some (⟨cutPass.2.server, cutPass.2.past, none⟩, .quiet) := rfl
  have hcut := ((start_run emptyStore single.cr.uid).append hpass).snoc hcrash
  have hcur : Current (([(.start, .quiet)] ++ cutPass.1) ++ [(.crash, .quiet)]) :=
    List.forall_mem_append.mpr ⟨List.forall_mem_append.mpr ⟨current_start, current_promptPass _ _ _⟩,
      List.forall_mem_singleton.mpr trivial⟩
  obtain ⟨b, hb, hprop⟩ := (Option.any_eq_true _ _).mp cutPass_backend
  rw [Bool.and_eq_true, decide_eq_true_eq, decide_eq_true_eq] at hprop
  obtain ⟨ip, hip⟩ := List.exists_mem_of_ne_nil _ hprop.2
  exact ⟨_, _, b, ip, hcut, hcur, rfl, ⟨hb, hprop.1⟩, hip, no_route_to_deleted_shard rfl (identity_serverWith _)
    (routesTo_of_lacks (lacks_empty _ _)) hcut hcur b ⟨hb, hprop.1⟩ ip hip⟩

/-! A route to a deleted shard, with a cache that has not seen the deletion. -/

/-- The cache shows the Services as they were when the shard 1 was last there. -/
def unseenDeletion (t : System) : Call → ℕ
  | .get ⟨.service, _⟩ | .listServices =>
    (t.server :: t.past).findIdx fun s => (s.get (shardKey single.cr.name 1)).isSome
  | _ => 0

/-- The size is edited, and a pass begins and goes to its end. -/
def resize (size : ℤ) (lag : System → Call → ℕ) (t : System) : List (Action × Output) × System :=
  match step .documented true single.cr.uid t (.edit { single.cr.spec with size := size }) with
  | some (t₁, out₁) =>
    match step .documented true single.cr.uid t₁ .start with
    | some (t₂, out₂) =>
      let pass := promptPass single.cr lag 60 t₂
      ((.edit { single.cr.spec with size := size }, out₁) :: (.start, out₂) :: pass.1, pass.2)
    | none => ([], t)
  | none => ([], t)

theorem resize_run (size : ℤ) (lag : System → Call → ℕ) (t : System) :
    Run (step .documented true single.cr.uid) t (resize size lag t).1 (resize size lag t).2 ∧
      ∀ e ∈ (resize size lag t).1, e.1 ≠ .crash ∧ ∀ ch, e.1 = .call ch → ch.failure = none := by
  unfold resize
  split
  · rename_i t₁ out₁ hedit
    split
    · rename_i t₂ out₂ hstart
      obtain ⟨hpass, hcalls⟩ := promptPass_run single.cr lag 60 t₂
      refine ⟨((Run.single hedit).snoc hstart).append hpass, ?_⟩
      refine List.forall_mem_cons.mpr ⟨by simp, List.forall_mem_cons.mpr ⟨by simp, fun e he => ?_⟩⟩
      obtain ⟨ch, heq, hfail, -⟩ := hcalls e he
      rw [heq]
      refine ⟨by simp, ?_⟩
      rintro ch' ⟨⟩
      exact hfail
    · exact ⟨.nil, List.forall_mem_nil _⟩
  · exact ⟨.nil, List.forall_mem_nil _⟩

/-- Two shards. -/
def grown : List (Action × Output) × System := resize 2 upToDate (idle emptyStore)

/-- One shard: the shard 1 is deleted. -/
def shrunk : List (Action × Output) × System := resize 1 upToDate grown.2

/-- Two shards again, with a cache that still shows the deleted one. -/
def regrown : List (Action × Output) × System := resize 2 unseenDeletion shrunk.2

/-- Only a Service has an address. -/
theorem kind_of_clusterIP {o : Object} (h : o.clusterIP ≠ []) : o.body.kind = .service := by
  unfold Object.clusterIP at h
  cases hbody : o.body with
  | service => rfl
  | _ => rw [hbody] at h; exact absurd rfl h

/-- The controlled Backend lists an address that no Service has. -/
def dangling (s : Server) : Bool :=
  (s.get (backendKey single.cr.name)).any fun b => b.controller = some single.cr.uid &&
    (backendAddresses b.spec).any fun ip => ip ≠ [] && s.store.services.countP (fun svc => svc.clusterIP = ip) = 0

theorem regrown_dangling : (regrown.2.running.isNone && dangling regrown.2.server) = true := by decide +kernel

/-- **A stale read makes a route to a deleted shard.**  The size goes from 2 to 1 and back to 2; every call succeeds and
nothing crashes, but in the last pass the reads of Services do not show yet that the shard 1 is deleted.  So it is not
created again, and the Backend gets its old address, which no Service has. -/
theorem stale_route : Identity single.cr.name single.cr.uid (serverWith emptyStore) ∧
    Safe single.cr.name single.cr.uid (serverWith emptyStore) ∧
    ∃ tr t b ip, Run (step .documented true single.cr.uid) (idle emptyStore) tr t ∧
      (∀ e ∈ tr, e.1 ≠ .crash ∧ ∀ ch, e.1 = .call ch → ch.failure = none) ∧ t.running = none ∧
      t.server.Owned single.cr.uid (backendKey single.cr.name) b ∧ ip ∈ backendAddresses b.spec ∧
      ∀ k svc, t.server.get k = some svc → svc.clusterIP ≠ ip := by
  refine ⟨identity_serverWith _, routesTo_of_lacks (lacks_empty _ _), ?_⟩
  obtain ⟨hgrow, hgrow'⟩ := resize_run 2 upToDate (idle emptyStore)
  obtain ⟨hshrink, hshrink'⟩ := resize_run 1 upToDate grown.2
  obtain ⟨hregrow, hregrow'⟩ := resize_run 2 unseenDeletion shrunk.2
  have hdangling := regrown_dangling
  rw [Bool.and_eq_true, Option.isNone_iff_eq_none] at hdangling
  obtain ⟨hidle, hdangling⟩ := hdangling
  obtain ⟨b, hb, hprop⟩ := (Option.any_eq_true _ _).mp hdangling
  rw [Bool.and_eq_true, decide_eq_true_eq, List.any_eq_true] at hprop
  obtain ⟨hc, ip, hip, hnone⟩ := hprop
  rw [Bool.and_eq_true, decide_eq_true_eq, decide_eq_true_eq, Multiset.countP_eq_zero] at hnone
  have hcalls := List.forall_mem_append.mpr ⟨List.forall_mem_append.mpr ⟨hgrow', hshrink'⟩, hregrow'⟩
  refine ⟨_, _, b, ip, (hgrow.append hshrink).append hregrow, hcalls, hidle, ⟨hb, hc⟩, hip, fun k svc hsvc heq => ?_⟩
  have hkind := kind_of_clusterIP (o := svc) (heq ▸ hnone.1)
  exact hnone.2 svc (Store.mem_services.mpr ⟨Store.get_key hsvc ▸ hsvc, hkind⟩) heq

end System

end SimpleCache.Operator
