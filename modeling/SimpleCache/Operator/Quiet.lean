import SimpleCache.Operator.Tended

/-!
# Operator.Quiet — once settled, quiet until the next edit

A pass that starts where every object is as it is wanted has nothing to write.  `Rests` says so of a program whose typed
reads show states that were at rest too: from there it makes calm calls only, and is there again when it ends; its rules
follow the code.  So once the client's cache has caught up with the end of the pass that settled the spec, and until the
spec is edited again, the passes do not touch the objects, whatever fails, crashes, drifts or lags (`settled_quiet`):
there is no loop of updates.
-/

namespace SimpleCache.Operator

open Lib (Prog Run)
open Lib.Prog (Keeps wp wp_and wp_frame wp_bind wp_mono wp_request wp_ofExcept wp_rely Runs)

variable {cr : SimpleCacheResource} {s s' : Server} {ips : List GoString} {α β : Type}

/-! ### Programs that rest -/

/-- What the others do while nobody edits the spec. -/
def Unedited (u : GoString) (s s' : Server) : Prop := Rely u s s' ∧ s'.resource = s.resource

/-- The objects stay, and the resource stays but for its status. -/
structure Calm (s s' : Server) : Prop where
  store : s'.store = s.store
  resource : s'.resource.map StoredResource.cr = s.resource.map StoredResource.cr

theorem calm_refl (s : Server) : Calm s s := ⟨rfl, rfl⟩

theorem calm_patchStatus {seen : Server} {status : SimpleCacheStatus} {x : Resp (.patchStatus status)}
    (h : s.ServesFrom seen (.patchStatus status) x s') : Calm s s' := by
  rcases Server.serves_patchStatus h with rfl | ⟨r, hr, rfl⟩
  · exact calm_refl _
  · exact ⟨rfl, by rw [hr]; rfl⟩

/-- Every object is as the current spec wants it; `ips` are the addresses of the shards. -/
structure Rest (cr : SimpleCacheResource) (ips : List GoString) (s : Server) : Prop where
  tended : Tended true (defaults cr) ips s
  resource : ∀ r, s.resource = some r → r.cr = cr

theorem Rest.unedited (h : Rest cr ips s) (hu : Unedited cr.uid s s') : Rest cr ips s' :=
  ⟨stable_tended s s' h.tended hu.1, fun r hr => h.resource r (hu.2 ▸ hr)⟩

theorem Rest.calm (h : Rest cr ips s) (hc : Calm s s') : Rest cr ips s' := by
  refine ⟨aboutStore_tended s s' hc.store h.tended, fun r hr => ?_⟩
  have hsame := hc.resource
  rw [hr] at hsame
  obtain ⟨r', hr', heq⟩ := Option.map_eq_some_iff.mp hsame.symm
  exact heq.symm.trans (h.resource r' hr')

/-- A call is served, with the cache showing a state at rest. -/
def SeesRest (cr : SimpleCacheResource) (ips : List GoString) (s : Server) (c : Call) (r : Resp c) (s' : Server) : Prop :=
  ∃ seen, Rest cr ips seen ∧ s.ServesFrom seen c r s'

/-- From rest the program makes calm calls only, and `Q` holds of what it returns. -/
abbrev Rests (cr : SimpleCacheResource) (ips : List GoString) (Q : α → Prop) (p : M α) : Prop :=
  Keeps (Unedited cr.uid) (SeesRest cr ips) Calm (Rest cr ips) Q p

section Rules

theorem rests_request {c : Call} {Q : Resp c → Prop}
    (h : ∀ (s seen : Server) x s', Rest cr ips s → Rest cr ips seen → s.ServesFrom seen c x s' → Calm s s' ∧ Q x) :
    Rests cr ips Q (Prog.request c) := by
  refine Keeps.request (fun _ _ h hu => h.unedited hu) fun s x s' hs hx => ?_
  obtain ⟨seen, hseen, hx⟩ := hx
  obtain ⟨hcalm, hQ⟩ := h s seen x s' hs hseen hx
  exact ⟨hcalm, hs.calm hcalm, hQ⟩

theorem rests_api {c : Call} {Q : Val c → Prop}
    (h : ∀ (s seen : Server) x s', Rest cr ips s → Rest cr ips seen → s.ServesFrom seen c x s' →
      Calm s s' ∧ ∀ a, x = .ok a → Q a) : Rests cr ips Q (api c) := by
  refine (rests_request h).bind fun x hx => ?_
  cases x with
  | error e => exact .throw
  | ok a => exact .pure (hx a rfl)

/-- A read is answered from a state at rest. -/
theorem rests_read {k : Key} : Rests cr ips (fun x : Resp (.get k) => ∃ s, Rest cr ips s ∧
    (∀ o, x = .ok o → s.get k = some o) ∧ (x = .error .notFound → s.get k = none)) (Prog.request (Call.get k)) := by
  refine rests_request fun s seen x s' hs hseen hx => ?_
  obtain ⟨rfl, hok, hnone⟩ := Server.servesFrom_get hx
  refine ⟨calm_refl _, _, ?_, hok, hnone⟩
  split_ifs
  · exact hseen
  · exact hs

theorem rests_get {k : Key} : Rests cr ips (fun o => ∃ s, Rest cr ips s ∧ s.get k = some o) (api (.get k)) := by
  refine rests_read.bind fun x hx => ?_
  obtain ⟨s, hs, hok, -⟩ := hx
  cases x with
  | error e => exact .throw
  | ok o => exact .pure ⟨s, hs, hok o rfl⟩

end Rules

/-! ### The programs of a pass -/

theorem rests_setStatus {r : StoredResource} {ready : ℤ} {status : Bool} {reason : String} {text : GoString} :
    Rests cr ips (fun _ => True) (setStatus r ready status reason text) := by
  unfold setStatus
  dsimp only
  split_ifs
  · exact .pure trivial
  · exact rests_api fun s seen x s' _ _ hx => ⟨calm_patchStatus hx, fun _ _ => trivial⟩

/-- What ends with an error is calm from any state. -/
theorem calm_failWith {r : StoredResource} {reason : OpErr → String} {e : OpErr} {Q : α → Server → Prop} :
    wp (Unedited cr.uid) (SeesRest cr ips) Calm Q (failWith r reason e) s := by
  apply wp_bind
  unfold setStatus
  dsimp only
  split_ifs
  · trivial
  · apply wp_bind
    refine wp_request (P := fun _ => True) (fun _ _ _ _ => trivial) trivial fun s₁ x s₂ _ hx => ?_
    obtain ⟨seen, -, hx⟩ := hx
    exact ⟨calm_patchStatus hx, wp_ofExcept fun _ _ => trivial⟩

/-- **`ensure` for an object that is there as it is wanted**: it reads the object, and has nothing to write. -/
theorem rests_ensure {owner : SimpleCacheResource} {w : Object} (howner : owner.uid = cr.uid)
    (hsuits : ∀ s, Rest cr ips s → s.Has cr.uid w.key (Suits w)) : Rests cr ips (fun _ => True) (ensure owner w) := by
  refine rests_read.bind fun x hx => ?_
  obtain ⟨s, hs, hok, hnone⟩ := hx
  obtain ⟨o, ho, hso⟩ := hsuits s hs
  cases x with
  | error e =>
    cases e with
    | notFound => exact absurd ((hnone rfl).symm.trans ho.1) (by simp)
    | alreadyExists | conflict | other => exact .throw
  | ok read =>
    obtain rfl := Option.some.inj ((hok read rfl).symm.trans ho.1)
    dsimp only
    rw [mutate_of_suits hso (ho.2.trans (congrArg some howner.symm))]
    show Rests cr ips _ (if _ then _ else _)
    rw [if_pos rfl]
    exact .pure trivial

theorem rests_ensureAll {owner : SimpleCacheResource} (howner : owner.uid = cr.uid) : ∀ {objs : List Object},
    (∀ w ∈ objs, ∀ s, Rest cr ips s → s.Has cr.uid w.key (Suits w)) →
    Rests cr ips (fun _ => True) (ensureAll owner objs)
  | [], _ => .pure trivial
  | w :: _, h => (rests_ensure howner (h w List.mem_cons_self)).bind fun _ _ =>
    rests_ensureAll howner fun w' hw' => h w' (List.mem_cons_of_mem _ hw')

/-- The loop over the shards: their addresses are those that are known. -/
theorem rests_shardAddresses : ∀ {is : List ℤ} {known found : List GoString},
    (∀ s, Rest cr ips s → ShardsSuit (defaults cr) s is known) →
    Rests cr ips (fun x => x = some (found ++ known)) (shardAddresses (defaults cr) is found)
  | [], known, found, h => fun s hs => by
    obtain rfl : known = [] := List.forall₂_nil_left_iff.mp (h s hs).1
    exact ⟨hs, by rw [List.append_nil]⟩
  | i :: is, known, found, h => fun s hs => by
    obtain ⟨ip, known', -, -, rfl⟩ := List.forall₂_cons_left_iff.mp (h s hs).1
    have hcons : ∀ s, Rest cr ips s → ShardAt (defaults cr) s i ip ∧ Addressed (defaults cr) s is known' :=
      fun s hs => List.forall₂_cons.mp (h s hs).1
    have htail : ∀ s, Rest cr ips s → ShardsSuit (defaults cr) s is known' := fun s hs =>
      ⟨(hcons s hs).2, fun j hj => (h s hs).2 j (List.mem_cons_of_mem _ hj)⟩
    refine Keeps.bind (rests_ensure rfl fun s hs => (h s hs).2 i List.mem_cons_self) (fun _ _ => ?_) s hs
    refine rests_get.bind fun svc hsvc => ?_
    obtain ⟨s₁, hs₁, hget⟩ := hsvc
    obtain ⟨hip, o, ho, hclusterIP, -⟩ := (hcons s₁ hs₁).1
    obtain rfl := Option.some.inj (hget.symm.trans ho.1)
    rw [hclusterIP, if_neg hip]
    have hrest : Rests cr ips _ (shardAddresses (defaults cr) is (found ++ [ip])) := rests_shardAddresses htail
    rw [List.append_assoc] at hrest
    exact hrest

theorem rests_removeObsolete {keep : ℤ} : ∀ {items : List Object},
    (∀ svc ∈ items, obsolete (defaults cr) keep svc = false) →
    Rests cr ips (fun _ => True) (removeObsolete (defaults cr) keep items)
  | [], _ => .pure trivial
  | svc :: items, h => by
    rw [removeObsolete, h svc List.mem_cons_self]
    exact rests_removeObsolete fun svc' hmem => h svc' (List.mem_cons_of_mem _ hmem)

/-- With no Service to remove. -/
theorem rests_removeShardServices {keep : ℤ}
    (hlacks : ∀ s, Rest cr ips s → ∀ k, Surplus (defaults cr) keep k → s.Lacks cr.uid k) :
    Rests cr ips (fun _ => True) (removeShardServices (defaults cr) keep) := by
  have hlist : Rests cr ips (fun items : List Object => ∀ svc ∈ items, obsolete (defaults cr) keep svc = false)
      (api .listServices) := by
    refine rests_api fun s seen x s' _ hseen hx => ?_
    obtain ⟨rfl, hitems⟩ := Server.serves_listServices hx
    refine ⟨calm_refl _, fun items hok svc hmem => ?_⟩
    rw [← Multiset.mem_coe, hitems items hok] at hmem
    obtain ⟨hget, hkind⟩ := Store.mem_services.mp hmem
    rw [Bool.eq_false_iff, ne_eq, obsolete_iff]
    rintro ⟨hc, hname⟩
    exact hlacks _ hseen svc.key ⟨hkind, hname⟩ svc ⟨hget, hc⟩
  exact hlist.bind fun _ hitems => rests_removeObsolete hitems

/-- With no object of the gateway to remove. -/
theorem rests_removeKinds (hlacks : ∀ s, Rest cr ips s → ∀ kind, s.Lacks cr.uid ⟨.gateway kind, cr.name⟩) :
    ∀ {kinds : List GatewayKind}, Rests cr ips (fun _ => True) (removeKinds (defaults cr) kinds)
  | [] => .pure trivial
  | kind :: kinds => by
    refine rests_read.bind fun x hx => ?_
    obtain ⟨s, hs, hok, -⟩ := hx
    cases x with
    | error e =>
      cases e with
      | notFound => exact rests_removeKinds hlacks
      | alreadyExists | conflict | other => exact .throw
    | ok o =>
      have hforeign : o.controlledBy (defaults cr) = false := by
        rw [Bool.eq_false_iff]
        exact fun hc => hlacks s hs kind o ⟨hok o rfl, of_decide_eq_true hc⟩
      dsimp only
      rw [hforeign]
      exact rests_removeKinds hlacks

theorem rests_gatewayMessage : ∀ {kinds : List GatewayKind},
    Rests cr ips (fun _ => True) (gatewayMessage (defaults cr) kinds)
  | [] => .pure trivial
  | kind :: kinds => by
    refine rests_get.bind fun o _ => ?_
    split_ifs
    · exact rests_gatewayMessage
    · exact .pure trivial

theorem rests_reconcileGateway {g : GatewaySpec} (hg : (defaults cr).spec.gateway = some g) :
    Rests cr ips (fun _ => True) (reconcileGateway (defaults cr) g) := by
  have hne : (defaults cr).spec.gateway ≠ none := by
    rw [hg]
    exact nofun
  have haddresses : Rests cr ips (fun x => x = some ([] ++ ips))
      (shardAddresses (defaults cr) (ordinals (defaults cr).spec.size) []) :=
    rests_shardAddresses fun s hs => hs.tended.shards hne
  refine haddresses.bind fun x hx => ?_
  obtain rfl : x = some ips := hx
  refine (rests_ensureAll rfl fun w hw s hs => hs.tended.gateway g hg w hw).bind fun _ _ => ?_
  exact (rests_removeShardServices fun s hs => hs.tended.surplus hne).bind fun _ _ => rests_gatewayMessage

theorem rests_gatewayPart {r : StoredResource} :
    Rests cr ips (fun _ => True) (gatewayPart true r (defaults cr)) := by
  unfold gatewayPart
  cases hg : (defaults cr).spec.gateway with
  | some g => exact (rests_reconcileGateway hg).handle fun _ _ => calm_failWith
  | none =>
    have hremove : Rests cr ips (fun _ => True) (removeGateway true (defaults cr)) :=
      (rests_removeKinds fun s hs => (hs.tended.bare hg rfl).1).bind fun _ _ =>
        rests_removeShardServices fun s hs => (hs.tended.bare hg rfl).2
    exact hremove.bind fun _ _ => .pure trivial

theorem rests_reportStatus {r : StoredResource} {message : String} :
    Rests cr ips (fun _ => True) (reportStatus r (defaults cr) message) := by
  refine rests_get.bind fun sts _ => ?_
  split_ifs
  · exact rests_setStatus
  · exact rests_setStatus
  · exact rests_setStatus

theorem rests_checkClass : Rests cr ips (fun _ => True) (checkClass true (defaults cr)) := by
  unfold checkClass
  cases (defaults cr).spec.gateway with
  | none => exact .pure trivial
  | some g =>
    have hread : Rests cr ips (fun _ => True) (Prog.request (Call.getClass g.className)) := by
      refine rests_request fun s seen x s' _ _ hx => ?_
      obtain rfl := Server.serves_getClass hx
      exact ⟨calm_refl _, trivial⟩
    refine hread.bind fun x _ => ?_
    cases x with
    | error e => exact .pure trivial
    | ok c =>
      dsimp only
      split_ifs
      · exact .pure trivial
      · exact .pure trivial
      · exact .pure trivial

theorem rests_reconcileObjects {r : StoredResource} (hr : r.cr = cr) :
    Rests cr ips (fun _ => True) (reconcileObjects true r (defaults cr)) := by
  have hbase : Rests cr ips (fun _ => True) (ensureAll r.cr (baseObjects (defaults cr))) :=
    rests_ensureAll (by rw [hr]) fun w hw s hs => hs.tended.base w hw
  refine (hbase.handle fun _ _ => calm_failWith).bind fun _ _ => rests_gatewayPart.bind fun message _ => ?_
  exact rests_reportStatus.bind fun _ _ => .pure trivial

/-- **A pass from rest.** -/
theorem rests_reconcile {names : NameChecks} : Rests cr ips (fun _ => True) (reconcile names true) := by
  have hread : Rests cr ips (fun x : Resp .getResource => ∀ r, x = .ok r → r.cr = cr)
      (Prog.request Call.getResource) := by
    refine rests_request fun s seen x s' _ hseen hx => ?_
    obtain ⟨rfl, hok⟩ := Server.serves_getResource hx
    exact ⟨calm_refl _, fun r hr => hseen.resource r (hok r hr)⟩
  refine hread.bind fun x hx => ?_
  cases x with
  | error e =>
    cases e with
    | notFound => exact .pure trivial
    | alreadyExists | conflict | other => exact .throw
  | ok r =>
    have hr := hx r rfl
    show Rests cr ips _ (reconcileResource names true r)
    unfold reconcileResource
    split_ifs
    · exact .pure trivial
    · rw [hr]
      cases validateSpec names (defaults cr) with
      | error text => exact rests_setStatus.bind fun _ _ => .pure trivial
      | ok _ =>
        refine rests_checkClass.bind fun refusal _ => ?_
        cases refusal with
        | some text => exact rests_setStatus.bind fun _ _ => .pure trivial
        | none => exact rests_reconcileObjects hr

/-! ### The pass that settles -/

/-- The calls of a pass leave the spec. -/
theorem Guar.spec {n u : GoString} (h : Guar n u s s') :
    s'.resource.map StoredResource.cr = s.resource.map StoredResource.cr := by
  have hfst := congrArg (Option.map Prod.fst) h.resource
  rw [Option.map_map, Option.map_map] at hfst
  exact hfst

/-- **A pass that settles the current spec leaves it at rest.** -/
theorem wp_reconcileResource_rest {names : NameChecks} {r : StoredResource} (hr : s.resource = some r) :
    wp (Unedited r.cr.uid) Server.Serves (Guar r.cr.name r.cr.uid)
      (fun o s => ∀ desired message, o = .settled desired message → message ≠ waitingForAddresses →
        desired = defaults r.cr ∧ ∃ ips, Rest r.cr ips s) (reconcileResource names true r) s := by
  have hreached : Verifies r.cr (Settled true r) (reconcileResource names true r) s := verifies_reconcileResource
  have hboth := wp_rely (fun s s' (h : Unedited r.cr.uid s s') => h.1) (wp_and hreached wp_reconcileResource_left)
  -- without an edit the resource is the one that was read
  have hframe := wp_frame (J := fun s : Server => s.resource.map StoredResource.cr = some r.cr)
    (fun s s' h hu => by rw [hu.2]; exact h) (fun s s' h hG => ⟨hG.1, hG.1.spec.trans h⟩) (by rw [hr]; rfl) hboth
  refine wp_mono (fun o s' h desired message ho hmessage => ?_) hframe
  obtain ⟨rfl, hreached⟩ := h.1.1 desired message ho
  obtain ⟨ips, htended⟩ := (h.1.2 _ message ho).tended hreached hmessage
  refine ⟨rfl, ips, htended, fun r' hr' => ?_⟩
  have hcr := h.2
  rw [hr'] at hcr
  exact Option.some.inj hcr

/-! ### Runs without an edit -/

namespace System

variable {names : NameChecks} {u : GoString} {t t' : System} {a : Action} {out : Output} {tr : List (Action × Output)}

/-- Nobody edits the spec. -/
def NoEdit (tr : List (Action × Output)) : Prop := ∀ e ∈ tr, ∀ spec, e.1 ≠ .edit spec

theorem unedited_refl (s : Server) : Unedited u s s := ⟨Rely.refl s, rfl⟩

theorem unedited_trans {a b c : Server} (hab : Unedited u a b) (hbc : Unedited u b c) : Unedited u a c :=
  ⟨hab.1.trans hbc.1, hbc.2.trans hab.2⟩

theorem interfere_unedited (h : interfere u s a = some s') (ha : ∀ spec, a ≠ .edit spec) : Unedited u s s' :=
  ⟨interfere_rely h, (interfere_keeps h).1 ha⟩

/-- The client's cache has caught up: typed reads show no state before this one any more.  They may still lag behind the
states that follow. -/
def caughtUp (t : System) : System := { t with past := [] }

/-- The objects are as they are wanted, in every state that the cache may show, and the pass under way makes calm calls
only. -/
structure AtRest (cr : SimpleCacheResource) (ips : List GoString) (t : System) : Prop where
  rest : ∀ x ∈ t.server :: t.past, Rest cr ips x
  running : ∀ p, t.running = some p → Runs (Unedited cr.uid) (SeesRest cr ips) Calm (fun _ _ => True) p t.server

/-- One step without an edit; a call is calm. -/
theorem AtRest.next (h : AtRest cr ips t) (ha : ∀ spec, a ≠ .edit spec)
    (hs : step names true cr.uid t a = some (t', out)) :
    AtRest cr ips t' ∧ ∀ ch, a = .call ch → Calm t.server t'.server := by
  have hnow : Rest cr ips t.server := h.rest _ List.mem_cons_self
  have hpush : ∀ {server}, Rest cr ips server → ∀ x ∈ server :: t.server :: t.past, Rest cr ips x :=
    fun hrest x hx => (List.mem_cons.mp hx).elim (fun heq => heq ▸ hrest) (h.rest x)
  rcases step_cases hs with ⟨server, hi, rfl, -⟩ | ⟨rfl, -, hadv⟩ |
    ⟨ch, c, k, shown, r, server, rfl, hrun, hseen, hserve, hadv⟩ | ⟨rfl, rfl, -⟩
  · have hu := interfere_unedited hi ha
    refine ⟨⟨hpush (hnow.unedited hu), fun p hp => (h.running p hp).interfere (fun _ _ _ => unedited_trans) hu⟩, ?_⟩
    rintro ch rfl
    cases hi
  · have hrests : Rests cr ips (fun _ => True) (reconcile names true) := rests_reconcile
    have hwp := wp_mono (fun _ _ _ => trivial) (hrests t.server hnow)
    obtain ⟨-, hruns, -⟩ := advance_runs unedited_refl hwp hadv
    obtain ⟨hserver, hpast⟩ := advance_server hadv
    exact ⟨⟨by rw [hserver, hpast]; exact h.rest, hserver ▸ hruns⟩, by rintro ch ⟨⟩⟩
  · obtain ⟨hcalm, hwp⟩ := (h.running _ hrun).call ⟨shown, h.rest _ (mem_of_seen hseen), ch, hserve⟩
    obtain ⟨-, hruns, -⟩ := advance_runs unedited_refl hwp hadv
    obtain ⟨rfl, hpast⟩ := advance_server hadv
    exact ⟨⟨by rw [hpast]; exact hpush (hnow.calm hcalm), hruns⟩, fun _ _ => hcalm⟩
  · exact ⟨⟨h.rest, nofun⟩, by rintro ch ⟨⟩⟩

/-- **Along every run without an edit.** -/
theorem AtRest.along (hrun : Run (step names true cr.uid) t tr t') (hedit : NoEdit tr) (h : AtRest cr ips t) :
    AtRest cr ips t' := by
  induction hrun with
  | nil => exact h
  | @snoc tr t₁ t₂ a out _ hs ih =>
    have h₁ := ih fun e he => hedit e (List.mem_append_left _ he)
    exact (h₁.next (hedit (a, out) (List.mem_append_right _ List.mem_cons_self)) hs).1

theorem advance_ended {p : M Outcome} {earlier : List Server} {result : Except OpErr Outcome}
    (h : advance s earlier p = (t', .ended result)) :
    t'.running = none := by
  cases p with
  | pure _ | throw _ =>
    cases h
    rfl
  | call _ _ => cases h

theorem idle_of_ended {enableGateway : Bool} {result : Except OpErr Outcome}
    (h : Run (step names enableGateway u) t tr t')
    (hlast : tr.getLast? = some (a, .ended result)) : t'.running = none := by
  cases h with
  | nil => cases hlast
  | snoc _ hs =>
    rw [List.getLast?_append, List.getLast?_singleton, Option.some_or, Option.some.injEq] at hlast
    cases hlast
    rcases step_cases hs with ⟨_, -, -, hout⟩ | ⟨-, -, hadv⟩ | ⟨_, _, _, _, _, _, -, -, -, -, hadv⟩ | ⟨-, -, hout⟩
    · cases hout
    · exact advance_ended hadv
    · exact advance_ended hadv
    · cases hout

theorem Pass.rest {r : StoredResource} {desired : SimpleCacheResource} {message : String}
    (h : Pass names r.cr.uid r t tr t') (hlast : tr.getLast? = some (a, .ended (.ok (.settled desired message))))
    (hmessage : message ≠ waitingForAddresses) (hedit : NoEdit tr) :
    desired = defaults r.cr ∧ ∃ ips, AtRest r.cr ips t'.caughtUp := by
  obtain ⟨hdesired, ips, hrest⟩ := h.post hlast (wp_reconcileResource_rest h.resource) unedited_refl
    (fun _ _ _ => unedited_trans) (fun x hx s s' hi => interfere_unedited hi (hedit x hx))
    (fun x _ ch _ s c y s' hs => ⟨ch, hs⟩) desired message rfl hmessage
  refine ⟨hdesired, ips, fun x hx => ?_, fun p hp => ?_⟩
  · rw [List.mem_singleton.mp hx]
    exact hrest
  · cases (idle_of_ended h.run hlast).symm.trans hp

/-- **Once settled, quiet until the next edit.**  After a pass with current typed reads that settled the spec, once the
client's cache has caught up with the end of that pass, and as long as nobody edits the spec: every object of the resource
stays as it is wanted, whatever passes begin, fail, crash or read late and whatever other components do; and no call of a
pass changes an object. -/
theorem settled_quiet {r : StoredResource} {desired : SimpleCacheResource} {message : String}
    (hpass : Pass names r.cr.uid r t tr t') (hlast : tr.getLast? = some (a, .ended (.ok (.settled desired message))))
    (hmessage : message ≠ waitingForAddresses) (hedit : NoEdit tr) :
    ∃ ips, ∀ tr₁ t₁, Run (step names true r.cr.uid) t'.caughtUp tr₁ t₁ → NoEdit tr₁ →
      Tended true desired ips t₁.server ∧
      ∀ ch t₂ out, step names true r.cr.uid t₁ (.call ch) = some (t₂, out) → t₂.server.store = t₁.server.store := by
  obtain ⟨rfl, ips, hrest⟩ := hpass.rest hlast hmessage hedit
  refine ⟨ips, fun tr₁ t₁ hrun hedit₁ => ?_⟩
  have hrest₁ := hrest.along hrun hedit₁
  refine ⟨(hrest₁.rest _ List.mem_cons_self).tended, fun ch t₂ out hs => ?_⟩
  exact ((hrest₁.next (by rintro spec ⟨⟩) hs).2 ch rfl).store

theorem noEdit_promptPass (cr : SimpleCacheResource) (lag : System → Call → ℕ) (fuel : ℕ) (t : System) :
    NoEdit (promptPass cr lag fuel t).1 := by
  intro e he spec
  obtain ⟨ch, heq, -⟩ := (promptPass_run cr lag fuel t).2 e he
  rw [heq]
  rintro ⟨⟩

theorem Output.settled_of_past (h : out.past = true) :
    ∃ desired message, out = .ended (.ok (.settled desired message)) ∧ message ≠ waitingForAddresses := by
  cases out with
  | quiet => cases h
  | ended result =>
    cases result with
    | error e => cases h
    | ok outcome =>
      cases outcome with
      | settled desired message => exact ⟨desired, message, rfl, of_decide_eq_true h⟩
      | absent | invalidSpec | unavailable => cases h

/-- The first pass of the prompt server. -/
def firstPass : List (Action × Output) × System := promptPass single.cr upToDate 40 (begun emptyStore)

/-- A cache that does not move on. -/
def frozen (t : System) (_ : Call) : ℕ := t.past.length

/-- The next pass, up to its read of the StatefulSet, with such a cache. -/
def nextPass : List (Action × Output) × System :=
  promptPass single.cr frozen 6 ⟨firstPass.2.server, [], some (reconcile .documented true)⟩

/-- How the call of the pass under way is dealt with. -/
def nextChoice (t : System) : Choice :=
  match t.running with
  | some (.call c _) => promptCall single.cr frozen t c
  | _ => ⟨none, [], none, false, 0⟩

theorem nextPass_reads : (decide (0 < (nextChoice nextPass.2).age) &&
    (step .documented true single.cr.uid nextPass.2 (.call (nextChoice nextPass.2))).isSome) = true := by
  decide +kernel

theorem settled_quiet_frozen : ∃ tr t' tr₁ t₁ ch t₂ out, Pass .documented single.cr.uid single (begun emptyStore) tr t' ∧
    Run (step .documented true single.cr.uid) t'.caughtUp tr₁ t₁ ∧ 0 < ch.age ∧
    step .documented true single.cr.uid t₁ (.call ch) = some (t₂, out) ∧ t₂.server.store = t₁.server.store := by
  obtain ⟨⟨a, out⟩, hlast, hout⟩ := (Option.any_eq_true _ _).mp wholePass_past
  have hne : firstPass.1 ≠ [] := by
    intro hnil
    rw [firstPass] at hnil
    rw [hnil] at hlast
    cases hlast
  have hpass : Pass .documented single.cr.uid single (begun emptyStore) firstPass.1 firstPass.2 := promptPass_pass hne
  obtain ⟨desired, message, rfl, hmessage⟩ := Output.settled_of_past hout
  have hidle : firstPass.2.running = none := idle_of_ended hpass.run hlast
  have hstart : step .documented true single.cr.uid firstPass.2.caughtUp .start =
      some (⟨firstPass.2.server, [], some (reconcile .documented true)⟩, .quiet) := by
    rw [step, caughtUp, hidle]
    rfl
  have hreads := nextPass_reads
  rw [Bool.and_eq_true, decide_eq_true_eq] at hreads
  obtain ⟨⟨t₂, out₂⟩, hs⟩ := Option.isSome_iff_exists.mp hreads.2
  have hrun := (Run.single hstart).append (promptPass_run single.cr frozen 6
    ⟨firstPass.2.server, [], some (reconcile .documented true)⟩).1
  have hedit : NoEdit ([(.start, .quiet)] ++ nextPass.1) :=
    List.forall_mem_append.mpr ⟨List.forall_mem_singleton.mpr (by rintro spec ⟨⟩), noEdit_promptPass _ _ _ _⟩
  obtain ⟨ips, hquiet⟩ := settled_quiet hpass hlast hmessage (noEdit_promptPass _ _ _ _)
  exact ⟨_, _, _, _, _, _, _, hpass, hrun, hreads.1, hs, (hquiet _ _ hrun hedit).2 _ _ _ hs⟩

end System

end SimpleCache.Operator
