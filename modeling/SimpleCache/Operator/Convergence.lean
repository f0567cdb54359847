import SimpleCache.Operator.Runs

/-!
# Operator.Convergence — what a pass that ends leaves of the gateway

A pass with current reads that is followed to its end shows its postcondition (`runs_of_run`), from whatever state the
run before it has left: exactly the shards of its spec with a Backend that lists them, or nothing of the gateway.
-/

namespace SimpleCache.Operator

open Lib (Prog Run)
open Lib.Prog (wp wp_bind wp_mono wp_request wp_true Runs)

/-! ### Convergence -/

section

variable {s : Server} {cr : SimpleCacheResource}

/-- A selector selects the Pods whose labels contain it. -/
def Selects (selector podLabels : Labels) : Prop :=
  ∀ k v, selector.lookup k = some v → podLabels.lookup k = some v

/-- The labels of the Pod `i` of the StatefulSet: those of the template, and its own name. -/
def podLabels (cr : SimpleCacheResource) (i : ℤ) : Labels :=
  (statefulSetSpec cr).template.labels.insert "statefulset.kubernetes.io/pod-name" (cr.name ++ 45 :: Go.formatInt i)

/-- The selector of a shard selects its own Pod and no other. -/
theorem selects_shardSelector {i j : ℤ} :
    Selects (shardSelector cr i) (podLabels cr j) ↔ j = i := by
  constructor
  · intro h
    have hname := h "statefulset.kubernetes.io/pod-name" _ (Finmap.lookup_insert _)
    rw [podLabels, Finmap.lookup_insert, Option.some.injEq] at hname
    exact Go.formatInt_injective (List.cons.inj (List.append_cancel_left hname)).2
  · rintro rfl k v hk
    exact hk

/-- The gateway of the resource is as its spec wants it. -/
structure Converged (cr : SimpleCacheResource) (s : Server) : Prop where
  /-- The controlled Services with a shard name are exactly those of the ordinals below the size. -/
  shards : ∀ k : Key, k.kind = .service → shardStem cr <+: k.name →
    ((∃ o, s.Owned cr.uid k o) ↔ ∃ i, 0 ≤ i ∧ i < cr.spec.size ∧ k = shardKey cr.name i)
  /-- Each selects exactly its own Pod. -/
  selects : ∀ i svc, 0 ≤ i → i < cr.spec.size → s.Owned cr.uid (shardKey cr.name i) svc →
    ∀ j, Selects svc.selector (podLabels cr j) ↔ j = i
  /-- The addresses of the Backend are their ClusterIPs, in the order of the ordinals. -/
  backend : ∃ b, s.Owned cr.uid (backendKey cr.name) b ∧
    List.Forall₂ (fun i ip => ip ≠ [] ∧ ∃ svc, s.Owned cr.uid (shardKey cr.name i) svc ∧ svc.clusterIP = ip)
      (ordinals cr.spec.size) (backendAddresses b.spec)

/-- No gateway object and no shard Service of the resource is there. -/
structure Cleared (cr : SimpleCacheResource) (s : Server) : Prop where
  gateway : ∀ kind name, s.Lacks cr.uid ⟨.gateway kind, name⟩
  shards : ∀ k : Key, k.kind = .service → shardStem cr <+: k.name → s.Lacks cr.uid k

theorem OwnKey.shard_of_stem {k : Key} (h : OwnKey cr.name k) (hkind : k.kind = .service)
    (hstem : shardStem cr <+: k.name) : ∃ i, 0 ≤ i ∧ i < 10 ∧ k = shardKey cr.name i := by
  have hno : ∀ suffix : GoString, suffix.take 4 ≠ Go.ascii "-sha" → ¬shardStem cr <+: cr.name ++ suffix := by
    intro suffix hne hpre
    rw [shardStem, List.prefix_append_right_inj] at hpre
    obtain ⟨rest, rfl⟩ := hpre
    exact hne rfl
  cases h with
  | shard h0 hi => exact ⟨_, h0, hi, rfl⟩
  | cluster => exact absurd hstem (hno _ (by decide))
  | api => exact absurd hstem (hno _ (by decide))
  | account | role | binding | statefulSet | gateway => cases hkind

theorem Sharded.converged (h : Sharded cr s) (hc : Created cr.name cr.uid s) :
    Converged cr s := by
  obtain ⟨⟨ips, hrouted⟩, hsurplus⟩ := h
  have hshard : ∀ i ∈ ordinals cr.spec.size, ∃ ip, ShardAt cr s i ip := by
    intro i hi
    obtain ⟨ip, -, hip⟩ := hrouted.shards.exists_of_mem_left i hi
    exact ⟨ip, hip⟩
  refine ⟨fun k hkind hstem => ⟨?_, ?_⟩, fun i svc h0 hi hsvc j => ?_, ?_⟩
  · rintro ⟨o, ho⟩
    obtain ⟨i, h0, hi, rfl⟩ := (hc k o ho).shard_of_stem hkind hstem
    refine ⟨i, h0, ?_, rfl⟩
    by_contra hge
    exact hsurplus _ ((surplus_shardKey h0 hi).mpr (not_lt.mp hge)) o ho
  · rintro ⟨i, h0, hi, rfl⟩
    obtain ⟨ip, -, o, ho, -⟩ := hshard i (mem_ordinals.mpr ⟨h0, hi⟩)
    exact ⟨o, ho⟩
  · obtain ⟨ip, -, o, ho, -, hsel⟩ := hshard i (mem_ordinals.mpr ⟨h0, hi⟩)
    rw [hsvc.unique ho, hsel]
    exact selects_shardSelector
  · obtain ⟨b, hb, haddr⟩ := hrouted.backend
    refine ⟨b, hb, haddr ▸ hrouted.shards.imp fun i ip hip => ⟨hip.1, ?_⟩⟩
    obtain ⟨svc, hsvc, hcluster, -⟩ := hip.2
    exact ⟨svc, hsvc, hcluster⟩

theorem Bare.cleared (h : Bare cr s) (hc : Created cr.name cr.uid s) : Cleared cr s := by
  refine ⟨fun kind name o ho => ?_, fun k hkind hstem o ho => ?_⟩
  · have hkey := hc _ o ho
    cases hkey with
    | gateway => exact h.1 kind o ho
  · obtain ⟨i, h0, hi, rfl⟩ := (hc k o ho).shard_of_stem hkind hstem
    exact h.2 _ ((surplus_shardKey h0 hi).mpr h0) o ho

end

/-- The GatewayClass is there, is the controller's and is accepted. -/
def Accepted (c : Option GatewayClass) : Prop :=
  ∃ x, c = some x ∧ x.controllerName = gatewayController ∧
    conditionTrue (x.status.field "conditions") "Accepted" x.generation = true

namespace System

variable {names : NameChecks} {enableGateway : Bool} {n u : GoString} {s s' : Server} {earlier : List Server}
  {t t' : System} {a : Action} {out : Output}

/-! ### A pass to its end -/

/-- A pass with current reads that is followed without the begin of another: what was known of it is known where it
ends. -/
theorem runs_of_run {rely G : Server → Server → Prop} {serves : Server → (c : Call) → Resp c → Server → Prop}
    {Q : Outcome → Server → Prop} {tr : List (Action × Output)} (hrefl : ∀ s, rely s s)
    (htrans : ∀ a b c, rely a b → rely b c → rely a c) (h : Run (step names enableGateway u) t tr t')
    (hcur : Current tr) (hstart : ∀ e ∈ tr, e.1 ≠ .start)
    (hinterfere : ∀ e ∈ tr, ∀ s s', interfere u s e.1 = some s' → rely s s')
    (hserves : ∀ e ∈ tr, ∀ ch, e.1 = .call ch → ∀ s c r s', s.serve s c ch = some (r, s') → serves s c r s')
    (h0 : ∀ p, t.running = some p → Runs rely serves G Q p t.server) :
    (∀ p, t'.running = some p → Runs rely serves G Q p t'.server) ∧
      ∀ a o, tr.getLast? = some (a, .ended (.ok o)) → Q o t'.server := by
  induction h with
  | nil => exact ⟨h0, fun _ _ hlast => by cases hlast⟩
  | @snoc tr t₁ t₂ a out hr hs ih =>
    have hsub : ∀ e ∈ tr, e ∈ tr ++ [(a, out)] := fun e he => List.mem_append_left _ he
    have hlast : (a, out) ∈ tr ++ [(a, out)] := List.mem_append_right _ List.mem_cons_self
    obtain ⟨hruns, -⟩ := ih (fun e he => hcur e (hsub e he)) (fun e he => hstart e (hsub e he))
      (fun e he => hinterfere e (hsub e he)) fun e he => hserves e (hsub e he)
    simp only [List.getLast?_append, List.getLast?_singleton, Option.some_or, Option.some.injEq, Prod.mk.injEq]
    rcases step_cases hs with ⟨server, hi, rfl, rfl⟩ | ⟨rfl, -⟩ |
      ⟨ch, c, k, shown, r, server, rfl, hrun, hseen, hserve, hadv⟩ | ⟨rfl, rfl, rfl⟩
    · exact ⟨fun p hp => (hruns p hp).interfere htrans (hinterfere _ hlast _ _ hi), fun _ _ ho => by cases ho.2⟩
    · exact absurd rfl (hstart _ hlast)
    · have hage : ch.age = 0 := hcur _ hlast
      rw [hage] at hseen
      obtain rfl := Option.some.inj hseen
      obtain ⟨-, hwp⟩ := (hruns _ hrun).call (hserves _ hlast ch rfl _ _ _ _ hserve)
      obtain ⟨rfl, hruns', hend⟩ := advance_runs hrefl hwp hadv
      exact ⟨hruns', fun _ o ho => hend o ho.2⟩
    · refine ⟨?_, fun _ _ ho => by cases ho.2⟩
      rintro p ⟨⟩

/-- A call that succeeds. -/
def Answers (s : Server) (c : Call) (r : Resp c) (s' : Server) : Prop := ∃ ch, s.answer s ch c = some (r, s')

/-- With a valid spec and an accepted GatewayClass, a pass whose calls succeed goes on to the objects. -/
theorem wp_settles {r : StoredResource} (hdel : r.deleting = false)
    (hvalid : validateSpec names (defaults r.cr) = .ok ())
    (hclass : ∀ g, (defaults r.cr).spec.gateway = some g → Accepted (s.classes g.className)) :
    wp (fun s s' => s'.classes = s.classes) Answers (fun _ _ => True)
      (fun o _ => ∃ message, o = .settled (defaults r.cr) message) (reconcileResource names true r) s := by
  have hchecked : wp (fun s s' => s'.classes = s.classes) Answers (fun _ _ => True) (fun refusal _ => refusal = none)
      (checkClass true (defaults r.cr)) s := by
    unfold checkClass
    cases hg : (defaults r.cr).spec.gateway with
    | none => exact rfl
    | some g =>
      apply wp_bind
      refine wp_request (P := fun s : Server => Accepted (s.classes g.className))
        (fun s s' h heq => by rw [heq]; exact h) (hclass g hg) fun s₁ x s₂ h₁ hx => ⟨trivial, ?_⟩
      obtain ⟨c, hc, hcontroller, haccepted⟩ := h₁
      obtain ⟨ch, hans⟩ := hx
      have hfound : s₁.answer s₁ ch (.getClass g.className) = some (.ok c, s₁) := by simp only [Server.answer, hc, found]
      obtain ⟨rfl, -⟩ := Prod.mk.inj (Option.some.inj (hfound.symm.trans hans))
      simp only [hcontroller, haccepted, ne_eq, not_true_eq_false, if_false, Bool.true_eq_false]
      exact rfl
  unfold reconcileResource
  rw [if_neg (by simp [hdel]), hvalid]
  apply wp_bind
  refine wp_mono (fun refusal s₁ h₁ => ?_) hchecked
  subst h₁
  apply wp_bind
  refine wp_mono (fun _ s₂ _ => ?_) (wp_true _ _)
  apply wp_bind
  refine wp_mono (fun message s₃ _ => ?_) (wp_true _ _)
  apply wp_bind
  refine wp_mono (fun _ s₄ _ => ?_) (wp_true _ _)
  exact ⟨message, rfl⟩

/-! ### Passes -/

/-- A pass from its first call on: it reads the resource `r`, which is valid and has an accepted GatewayClass, its calls
succeed, its typed reads are current, and nobody changes the GatewayClasses. -/
structure Pass (names : NameChecks) (u : GoString) (r : StoredResource) (t : System) (tr : List (Action × Output))
    (t' : System) : Prop where
  begun : t.running = some (reconcile names true)
  resource : t.server.resource = some r
  live : r.deleting = false
  valid : validateSpec names (defaults r.cr) = .ok ()
  accepted : ∀ g, (defaults r.cr).spec.gateway = some g → Accepted (t.server.classes g.className)
  first : ∃ ch out rest, tr = (.call ch, out) :: rest
  run : Run (step names true u) t tr t'
  current : Current tr
  one : ∀ e ∈ tr, e.1 ≠ .start
  succeeds : ∀ e ∈ tr, ∀ ch, e.1 = .call ch → ch.failure = none
  classes : ∀ e ∈ tr, ∀ name c, e.1 ≠ .setClass name c

/-- Nothing but what the resource controls has changed, the status of the resource apart. -/
structure Spares (u : GoString) (s s' : Server) : Prop where
  foreign : ∀ k o, s.get k = some o → o.controller ≠ some u → s'.get k = some o
  resource : s'.resource.map StoredResource.sansStatus = s.resource.map StoredResource.sansStatus
  classes : s'.classes = s.classes

/-- The first call of a pass reads the resource. -/
theorem Pass.after_read {r : StoredResource} {tr : List (Action × Output)} (h : Pass names u r t tr t') :
    ∃ e rest t₁, tr = e :: rest ∧ advance t.server (t.server :: t.past) (reconcileResource names true r) = (t₁, e.2) ∧
      Run (step names true u) t₁ rest t' := by
  obtain ⟨ch, out, rest, rfl⟩ := h.first
  have hrun : Run (step names true u) t ([] ++ (.call ch, out) :: rest) t' := h.run
  obtain ⟨t₀, t₁, h₀, hs, hrest⟩ := hrun.cut
  obtain rfl := h₀.nil_inv
  refine ⟨_, rest, t₁, rfl, ?_, hrest⟩
  have hfail := h.succeeds _ List.mem_cons_self ch rfl
  have hage : ch.age = 0 := h.current _ List.mem_cons_self
  have hserve : t₀.server.serve t₀.server .getResource ch = some (.ok r, t₀.server) := by
    simp only [Server.serve, hfail, Server.answer, h.resource, found]
  rcases step_cases hs with ⟨server, hi, -⟩ | ⟨ha, -⟩ |
    ⟨ch', c, k, shown, x, server, ha, hrunning, hseen, hserved, hadv⟩ | ⟨ha, -⟩
  · cases hi
  · cases ha
  · cases ha
    rw [hage] at hseen
    obtain rfl := Option.some.inj hseen
    have hprog : (Prog.call .getResource _ : M Outcome) = .call c k := Option.some.inj (h.begun.symm.trans hrunning)
    cases hprog
    cases Option.some.inj (hserve.symm.trans hserved)
    exact hadv
  · cases ha

/-- A postcondition of a pass holds where the pass ends. -/
theorem Pass.post {r : StoredResource} {tr : List (Action × Output)} {outcome : Outcome} {rely G : Server → Server → Prop}
    {serves : Server → (c : Call) → Resp c → Server → Prop} {Q : Outcome → Server → Prop} (h : Pass names u r t tr t')
    (hlast : tr.getLast? = some (a, .ended (.ok outcome)))
    (hwp : wp rely serves G Q (reconcileResource names true r) t.server) (hrefl : ∀ s, rely s s)
    (htrans : ∀ a b c, rely a b → rely b c → rely a c)
    (hinterfere : ∀ x ∈ tr, ∀ s s', interfere u s x.1 = some s' → rely s s')
    (hserves : ∀ x ∈ tr, ∀ ch, x.1 = .call ch → ∀ s c y s', s.serve s c ch = some (y, s') → serves s c y s') :
    Q outcome t'.server := by
  obtain ⟨e, rest, t₁, rfl, hadv, hrest⟩ := h.after_read
  have hsub : ∀ x ∈ rest, x ∈ e :: rest := fun x hx => List.mem_cons_of_mem _ hx
  obtain ⟨hserver, hruns, hout⟩ := advance_runs hrefl hwp hadv
  obtain ⟨-, hq⟩ := runs_of_run hrefl htrans hrest (fun x hx => h.current x (hsub x hx))
    (fun x hx => h.one x (hsub x hx)) (fun x hx => hinterfere x (hsub x hx)) (fun x hx => hserves x (hsub x hx))
    (hserver ▸ hruns)
  rcases List.eq_nil_or_concat rest with rfl | ⟨front, x, rfl⟩
  · -- the pass ends with its first call
    obtain rfl := hrest.nil_inv
    rw [List.getLast?_singleton, Option.some.injEq] at hlast
    rw [hserver]
    exact hout outcome (by rw [hlast])
  · refine hq a outcome ?_
    rw [List.concat_eq_append, List.getLast?_append, List.getLast?_singleton, Option.some_or]
    rw [List.concat_eq_append, ← List.cons_append, List.getLast?_append, List.getLast?_singleton,
      Option.some_or] at hlast
    exact hlast

/-- Where a pass ends without an error, it has reached what its spec asks for. -/
theorem Pass.reached {r : StoredResource} {tr : List (Action × Output)} {outcome : Outcome} (h : Pass names u r t tr t')
    (huid : r.cr.uid = u) (hlast : tr.getLast? = some (a, .ended (.ok outcome))) :
    ∃ message, outcome = .settled (defaults r.cr) message ∧ Reached true (defaults r.cr) message t'.server := by
  subst huid
  have hsettles : ∃ message, outcome = .settled (defaults r.cr) message := by
    refine h.post hlast (wp_settles h.live h.valid h.accepted) (fun _ => rfl) (fun _ _ _ hab hbc => hbc.trans hab)
      (fun x hx s s' hi => (interfere_keeps hi).2 (h.classes x hx)) fun x hx ch hch s c y s' hs => ?_
    have hfail := h.succeeds x hx ch hch
    simp only [Server.serve, hfail] at hs
    exact ⟨ch, hs⟩
  obtain ⟨message, rfl⟩ := hsettles
  have hreached := h.post hlast verifies_reconcileResource Rely.refl (fun _ _ _ => Rely.trans)
    (fun x _ s s' hi => interfere_rely hi) fun x _ ch _ s c y s' hs => ⟨ch, hs⟩
  exact ⟨message, rfl, (hreached _ _ rfl).2⟩

/-- **Convergence and ownership.**  From any state whose controlled objects have the names of the controller, after any
run of edits, passes, failing calls and crashes, whatever the caches of the passes showed: a pass with current typed
reads that ends without an error and did not stop at the wait for an address leaves exactly the shards of its spec with a
Backend that lists them, or with the gateway absent nothing of it.  And along a run with current typed reads no call of a
pass touches what the resource does not control. -/
theorem gateway_convergence {s t : System} {tr : List (Action × Output)} (hidle : s.running = none)
    (hid : ∀ x ∈ s.server :: s.past, Identity n u x) (hcreated : Created n u s.server)
    (h : Run (step names true u) s tr t) :
    (Current tr → ∀ ch t' out, ch.age = 0 → step names true u t (.call ch) = some (t', out) →
      Spares u t.server t'.server) ∧
    ∀ r tr' t' a outcome, Pass names u r t tr' t' → tr'.getLast? = some (a, .ended (.ok outcome)) →
      ∃ message, outcome = .settled (defaults r.cr) message ∧
        ((defaults r.cr).spec.gateway ≠ none → message ≠ waitingForAddresses → Converged (defaults r.cr) t'.server) ∧
        ((defaults r.cr).spec.gateway = none → Cleared (defaults r.cr) t'.server) := by
  refine ⟨fun hcur ch t' out hage hs => ?_, fun r tr' t' a outcome hpass hlast => ?_⟩
  · have hsound : Sound n u t := (Sound.along (K := fun _ => True) (fun _ _ _ _ => trivial) (fun _ _ _ _ => trivial) hidle
      (hid _ List.mem_cons_self) trivial h hcur).1
    rcases (hsound.next (show Action.current (.call ch) from hage) hs).2 with ⟨-, hne⟩ | hG
    · exact absurd rfl (hne ch)
    · exact ⟨hG.foreign, hG.resource, hG.classes⟩
  · have hnamed := WellNamed.along hidle hid hcreated h
    obtain ⟨rfl, rfl⟩ := hnamed.identity _ List.mem_cons_self r hpass.resource
    obtain ⟨message, rfl, hreached⟩ := hpass.reached rfl hlast
    have hcreated' : Created (defaults r.cr).name (defaults r.cr).uid t'.server :=
      (WellNamed.along hidle hid hcreated (h.append hpass.run)).created
    exact ⟨message, rfl, fun hg hm => (hreached.sharded hg hm).converged hcreated',
      fun hg => (hreached.bare hg rfl).cleared hcreated'⟩

/-- A pass of the prompt server is one that the theorem is about. -/
theorem promptPass_pass {store : Store} {fuel : ℕ} (hfirst : (promptPass single.cr upToDate fuel (begun store)).1 ≠ []) :
    Pass .documented single.cr.uid single (begun store) (promptPass single.cr upToDate fuel (begun store)).1
      (promptPass single.cr upToDate fuel (begun store)).2 := by
  obtain ⟨hrun, hcalls⟩ := promptPass_run single.cr upToDate fuel (begun store)
  constructor
  · rfl
  · rfl
  · rfl
  · rfl
  · exact fun g _ => ⟨envoyClass, rfl, rfl, by decide +kernel⟩
  · obtain ⟨⟨a, out⟩, rest, heq⟩ := List.exists_cons_of_ne_nil hfirst
    obtain ⟨ch, rfl, -⟩ := hcalls (a, out) (heq ▸ List.mem_cons_self)
    exact ⟨ch, out, rest, heq⟩
  · exact hrun
  · exact current_promptPass _ _ _
  · intro e he
    obtain ⟨ch, heq, -⟩ := hcalls e he
    rw [heq]
    exact nofun
  · intro e he ch hch
    obtain ⟨ch', heq, hfail, -⟩ := hcalls e he
    rw [heq, Action.call.injEq] at hch
    exact hch ▸ hfail
  · intro e he name c
    obtain ⟨ch, heq, -⟩ := hcalls e he
    rw [heq]
    exact nofun

/-- The pass ends past the wait for an address. -/
def Output.past : Output → Bool
  | .ended (.ok (.settled _ message)) => message ≠ waitingForAddresses
  | _ => false

theorem wholePass_past :
    ((promptPass single.cr upToDate 40 (begun emptyStore)).1.getLast?.any fun e => e.2.past) = true := by decide +kernel

theorem gateway_convergence_single : ∃ tr t', Pass .documented single.cr.uid single (begun emptyStore) tr t' ∧
    (tr.getLast?.any fun e => e.2.past) = true ∧ Converged (defaults single.cr) t'.server := by
  have hpast := wholePass_past
  obtain ⟨⟨a, out⟩, hlast, hout⟩ := (Option.any_eq_true _ _).mp hpast
  have hne : (promptPass single.cr upToDate 40 (begun emptyStore)).1 ≠ [] := by
    intro hnil
    rw [hnil] at hlast
    cases hlast
  have hpass := promptPass_pass hne
  obtain ⟨outcome, rfl⟩ : ∃ outcome, out = .ended (.ok outcome) := by
    cases out with
    | quiet => cases hout
    | ended result =>
      cases result with
      | ok outcome => exact ⟨outcome, rfl⟩
      | error e => cases hout
  obtain ⟨message, rfl, hconv, -⟩ := (gateway_convergence rfl (identity_idle _)
    (fun k o ho => absurd ho (lacks_empty _ k o)) (start_run emptyStore single.cr.uid)).2 _ _ _ a outcome hpass hlast
  exact ⟨_, _, hpass, hpast, hconv nofun (of_decide_eq_true hout)⟩

/-- An EnvoyProxy of that name belongs to another owner. -/
def takenStore : Store :=
  emptyStore.put { gatewayResource single.cr .envoyProxy .null with controller := some (Go.ascii "u-2") }

/-- The pass ends with an ownership conflict. -/
def Output.conflict : Output → Bool
  | .ended (.error (.ownershipConflict _)) => true
  | _ => false

/-- The pass that meets it. -/
def takenPass : List (Action × Output) × System := promptPass single.cr upToDate 40 (begun takenStore)

theorem takenPass_ends : ((takenPass.1.getLast?.any fun e => e.2.conflict) &&
    ((takenPass.2.server.get (shardKey single.cr.name 0)).any fun svc =>
      svc.controller = some single.cr.uid && svc.clusterIP ≠ []) &&
    (takenPass.2.server.get (backendKey single.cr.name)).isNone) = true := by decide +kernel

/-- **A pass that meets an object of another owner** has the address of its only shard and still no Backend: past the wait
it ends with an error, though every call succeeded. -/
theorem gateway_convergence_conflict : Identity single.cr.name single.cr.uid (serverWith takenStore) ∧
    Created single.cr.name single.cr.uid (serverWith takenStore) ∧
    Run (step .documented true single.cr.uid) (idle takenStore) [(.start, .quiet)] (begun takenStore) ∧
    (defaults single.cr).spec.gateway ≠ none ∧ (defaults single.cr).spec.size = 1 ∧
    ∃ tr t', Pass .documented single.cr.uid single (begun takenStore) tr t' ∧
      (tr.getLast?.any fun e => e.2.conflict) = true ∧
      t'.server.Has single.cr.uid (shardKey single.cr.name 0) (fun svc => svc.clusterIP ≠ []) ∧
      ¬Converged (defaults single.cr) t'.server := by
  have hends := takenPass_ends
  rw [Bool.and_eq_true, Bool.and_eq_true] at hends
  obtain ⟨⟨hlast, hshard⟩, hbackend⟩ := hends
  obtain ⟨svc, hget, hsvc⟩ := (Option.any_eq_true _ _).mp hshard
  rw [Bool.and_eq_true, decide_eq_true_eq, decide_eq_true_eq] at hsvc
  have hne : takenPass.1 ≠ [] := by
    intro hnil
    rw [hnil] at hlast
    cases hlast
  refine ⟨identity_serverWith _, ?_, start_run _ _, nofun, rfl, _, _, promptPass_pass hne, hlast,
    ⟨svc, ⟨hget, hsvc.1⟩, hsvc.2⟩, fun hconv => ?_⟩
  · rintro k o ⟨hget, hc⟩
    by_cases hk : k = ⟨.gateway .envoyProxy, single.cr.name⟩
    · subst hk
      cases Option.some.inj ((emptyStore.get_put _).symm.trans hget)
      exact absurd hc (by decide)
    · have hnone : takenStore.get k = none := (emptyStore.get_put_ne hk).trans (get_emptyStore k)
      cases hnone.symm.trans hget
  · obtain ⟨b, hb, -⟩ := hconv.backend
    have hnone := Option.isNone_iff_eq_none.mp hbackend
    cases hnone.symm.trans hb.1

end System

end SimpleCache.Operator
