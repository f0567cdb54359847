import SimpleCache.Operator.Pass

/-!
# Operator.Stale — what a pass keeps whatever its cache shows

The guarantee of a pass rests on current reads.  Two things do not: what a pass stores has the names of the controller,
and the resource stays the one it is (`Names`).  `Named` says so of a program whose typed reads are answered from any
state in which the resource has the same identity; its rules follow the code.
-/

namespace SimpleCache.Operator

open Lib (Prog)
open Lib.Prog (Keeps wp)

variable {n u : GoString} {s s' : Server} {α β : Type}

/-! ### Calls -/

/-- What a call keeps, whatever was read before it. -/
structure Names (n u : GoString) (s s' : Server) : Prop where
  created : Created n u s → Created n u s'
  resource : s'.resource.map StoredResource.sansStatus = s.resource.map StoredResource.sansStatus

theorem names_refl (s : Server) : Names n u s s := ⟨id, rfl⟩

theorem names_put {o : Object} (h : OwnKey n o.key) : Names n u s (s.put o) := by
  refine ⟨fun hc k o' ho' => ?_, rfl⟩
  by_cases hk : k = o.key
  · exact hk ▸ h
  · exact hc k o' ⟨(Server.get_put_ne hk).symm.trans ho'.1, ho'.2⟩

theorem names_remove (k : Key) : Names n u s (s.remove k) := by
  refine ⟨fun hc k' o ho => ?_, rfl⟩
  by_cases hk : k' = k
  · subst hk
    cases (s.store.get_remove k').symm.trans ho.1
  · exact hc k' o ⟨(Server.get_remove_ne hk).symm.trans ho.1, ho.2⟩

/-- What the call stores, if anything, has a name of the controller. -/
def Call.names (n : GoString) : Call → Prop
  | .create o => OwnKey n o.key
  | .update _ new => OwnKey n new.key
  | _ => True

/-- **A call whose object has a name of the controller keeps the names**, with any state in the cache. -/
theorem names_serves {seen : Server} {c : Call} {r : Resp c} (hc : c.names n) (h : s.ServesFrom seen c r s') :
    Names n u s s' := by
  cases c with
  | getResource => exact (Server.serves_getResource h).1 ▸ names_refl _
  | getClass => exact Server.serves_getClass h ▸ names_refl _
  | get => exact (Server.servesFrom_get h).1 ▸ names_refl _
  | listServices => exact (Server.serves_listServices h).1 ▸ names_refl _
  | create o =>
    rcases Server.serves_create h with ⟨rfl, -⟩ | ⟨-, st, ha, rfl⟩
    · exact names_refl _
    · exact names_put ((Object.admits_key ha).symm ▸ hc)
  | update read new =>
    rcases Server.serves_update h with ⟨rfl, -⟩ | ⟨-, st, ha, rfl⟩
    · exact names_refl _
    · exact names_put ((Object.admits_key ha).symm ▸ hc)
  | delete k =>
    rcases (Server.serves_delete h).1 with rfl | rfl
    · exact names_refl _
    · exact names_remove k
  | patchStatus =>
    rcases Server.serves_patchStatus h with rfl | ⟨x, hx, rfl⟩
    · exact names_refl _
    · exact ⟨id, by rw [hx]; rfl⟩

theorem Identity.names (h : Identity n u s) (hs : Names n u s s') : Identity n u s' :=
  h.same_resource hs.resource

/-! ### Programs -/

/-- A call is served, with the cache showing any state in which the resource has this identity. -/
def Sees (n u : GoString) (s : Server) (c : Call) (r : Resp c) (s' : Server) : Prop :=
  ∃ seen, Identity n u seen ∧ s.ServesFrom seen c r s'

/-- Whatever the cache shows and the others do, the calls of the program keep the names, and `Q` holds of its result. -/
abbrev Named (n u : GoString) (Q : α → Prop) (p : M α) : Prop :=
  Keeps (fun _ _ => True) (Sees n u) (Names n u) (fun _ => True) Q p

theorem named_request {c : Call} {Q : Resp c → Prop} (hc : c.names n)
    (h : ∀ (s seen : Server) x s', Identity n u seen → s.ServesFrom seen c x s' → Q x) :
    Named n u Q (Prog.request c) := by
  refine Keeps.request (fun _ _ _ _ => trivial) fun s x s' _ hx => ?_
  obtain ⟨seen, hid, hx⟩ := hx
  exact ⟨names_serves hc hx, trivial, h s seen x s' hid hx⟩

/-- A call whose answer does not matter. -/
theorem named_call (c : Call) (hc : c.names n) : Named n u (fun _ => True) (Prog.request c) :=
  named_request hc fun _ _ _ _ _ _ => trivial

theorem named_api (c : Call) (hc : c.names n) : Named n u (fun _ => True) (api c) := by
  refine (named_call c hc).bind fun x _ => ?_
  cases x with
  | error e => exact .throw
  | ok a => exact .pure trivial

theorem named_ensure {owner : SimpleCacheResource} {wanted : Object} (hkey : OwnKey n wanted.key) :
    Named n u (fun _ => True) (ensure owner wanted) := by
  have hread : Named n u (fun x : Resp (.get wanted.key) => ∀ o, x = .ok o → o.key = wanted.key)
      (Prog.request (Call.get wanted.key)) := by
    refine named_request trivial fun s seen x s' _ hx o ho => ?_
    subst ho
    exact Server.servesFrom_get_key hx
  refine hread.bind fun x hx => ?_
  cases x with
  | error e =>
    cases e with
    | notFound =>
      have hnone : ∀ e, (none : Option Object) = some e → e.key = wanted.key := by
        rintro e ⟨⟩
      dsimp only
      cases hm : mutate owner wanted none with
      | error e => exact .throw
      | ok o =>
        have ho : OwnKey n o.key := (mutate_key hnone hm).symm ▸ hkey
        exact named_api (.create o) ho
    | alreadyExists | conflict | other => exact .throw
  | ok read =>
    dsimp only
    cases hm : mutate owner wanted (some read) with
    | error e => exact .throw
    | ok o =>
      have hsame : ∀ e, some read = some e → e.key = wanted.key := by
        rintro e ⟨⟩
        exact hx read rfl
      have ho : OwnKey n o.key := (mutate_key hsame hm).symm ▸ hkey
      show Named n u _ (if _ then _ else _)
      split_ifs
      · exact .pure trivial
      · exact named_api (.update read o) ho

theorem named_ensureAll {owner : SimpleCacheResource} : ∀ {objs : List Object}, (∀ w ∈ objs, OwnKey n w.key) →
    Named n u (fun _ => True) (ensureAll owner objs)
  | [], _ => .pure trivial
  | w :: _, h => (named_ensure (h w List.mem_cons_self)).bind fun _ _ =>
    named_ensureAll fun w' hw' => h w' (List.mem_cons_of_mem _ hw')

theorem named_deleteObject {k : Key} : Named n u (fun _ => True) (deleteObject k) := by
  refine (named_call (.delete k) trivial).bind fun x _ => ?_
  cases x with
  | ok _ => exact .pure trivial
  | error e =>
    cases e with
    | notFound => exact .pure trivial
    | alreadyExists | conflict | other => exact .throw

theorem named_removeObsolete {cr : SimpleCacheResource} {keep : ℤ} : ∀ {items : List Object},
    Named n u (fun _ => True) (removeObsolete cr keep items)
  | [] => .pure trivial
  | svc :: items => by
    rw [removeObsolete]
    split_ifs
    · exact named_deleteObject.bind fun _ _ => named_removeObsolete
    · exact named_removeObsolete

theorem named_removeShardServices {cr : SimpleCacheResource} {keep : ℤ} :
    Named n u (fun _ => True) (removeShardServices cr keep) :=
  (named_api .listServices trivial).bind fun _ _ => named_removeObsolete

theorem named_gatewayMessage {cr : SimpleCacheResource} : ∀ {kinds : List GatewayKind},
    Named n u (fun _ => True) (gatewayMessage cr kinds)
  | [] => .pure trivial
  | kind :: kinds => by
    refine (named_api (.get ⟨.gateway kind, cr.name⟩) trivial).bind fun o _ => ?_
    split_ifs
    · exact named_gatewayMessage
    · exact .pure trivial

theorem named_removeKinds {cr : SimpleCacheResource} : ∀ {kinds : List GatewayKind},
    Named n u (fun _ => True) (removeKinds cr kinds)
  | [] => .pure trivial
  | kind :: kinds => by
    refine (named_call (.get ⟨.gateway kind, cr.name⟩) trivial).bind fun x _ => ?_
    cases x with
    | error e =>
      cases e with
      | notFound => exact named_removeKinds
      | alreadyExists | conflict | other => exact .throw
    | ok o =>
      dsimp only
      split_ifs
      · exact named_deleteObject.bind fun _ _ => named_removeKinds
      · exact named_removeKinds

theorem named_removeGateway {enableGateway : Bool} {cr : SimpleCacheResource} :
    Named n u (fun _ => True) (removeGateway enableGateway cr) := by
  unfold removeGateway
  split_ifs
  · exact named_removeKinds.bind fun _ _ => named_removeShardServices
  · exact .pure trivial

theorem named_setStatus {r : StoredResource} {ready : ℤ} {status : Bool} {reason : String} {text : GoString} :
    Named n u (fun _ => True) (setStatus r ready status reason text) := by
  unfold setStatus
  dsimp only
  split_ifs
  · exact .pure trivial
  · exact named_api (.patchStatus _) trivial

theorem named_failWith {r : StoredResource} {reason : OpErr → String} {e : OpErr} {Q : α → Prop} :
    Named n u Q (failWith r reason e) :=
  named_setStatus.bind fun _ _ => .throw

theorem named_reportStatus {r : StoredResource} {desired : SimpleCacheResource} {message : String} :
    Named n u (fun _ => True) (reportStatus r desired message) := by
  refine (named_api (.get ⟨.statefulSet, r.cr.name⟩) trivial).bind fun sts _ => ?_
  split_ifs
  · exact named_setStatus
  · exact named_setStatus
  · exact named_setStatus

theorem named_checkClass {enableGateway : Bool} {desired : SimpleCacheResource} :
    Named n u (fun _ => True) (checkClass enableGateway desired) := by
  unfold checkClass checkGatewayClass
  cases desired.spec.gateway with
  | none => exact .pure trivial
  | some g =>
    dsimp only
    split_ifs
    · exact .pure trivial
    · refine (named_call (.getClass g.className) trivial).bind fun x _ => ?_
      cases x with
      | error e => exact .pure trivial
      | ok c =>
        dsimp only
        split_ifs
        · exact .pure trivial
        · exact .pure trivial
        · exact .pure trivial

/-! ### A pass -/

section

variable {cr : SimpleCacheResource}

theorem named_shardAddresses : ∀ {is : List ℤ} {ips : List GoString}, (∀ i ∈ is, 0 ≤ i ∧ i < 10) →
    Named cr.name u (fun _ => True) (shardAddresses cr is ips)
  | [], _, _ => .pure trivial
  | i :: is, ips, h => by
    obtain ⟨h0, hi⟩ := h i List.mem_cons_self
    refine (named_ensure (.shard h0 hi)).bind fun _ _ => ?_
    refine (named_api (.get (shardService cr i).key) trivial).bind fun svc _ => ?_
    split_ifs
    · exact .pure trivial
    · exact named_shardAddresses fun j hj => h j (List.mem_cons_of_mem _ hj)

theorem named_reconcileGateway {g : GatewaySpec} (hsize : cr.spec.size ≤ 10) :
    Named cr.name u (fun _ => True) (reconcileGateway cr g) := by
  have hrange : ∀ i ∈ ordinals cr.spec.size, 0 ≤ i ∧ i < 10 := by
    intro i hi
    obtain ⟨h0, hlt⟩ := mem_ordinals.mp hi
    exact ⟨h0, by omega⟩
  refine (named_shardAddresses hrange).bind fun x _ => ?_
  cases x with
  | none => exact .pure trivial
  | some ips =>
    have hkeys : ∀ w ∈ gatewayResources cr g ips, OwnKey cr.name w.key := by
      intro w hw
      obtain ⟨kind, spec, rfl, -⟩ := mem_gatewayResources hw
      exact .gateway kind
    exact (named_ensureAll hkeys).bind fun _ _ => named_removeShardServices.bind fun _ _ => named_gatewayMessage

theorem named_gatewayPart {enableGateway : Bool} {r : StoredResource} (hsize : cr.spec.size ≤ 10) :
    Named cr.name u (fun _ => True) (gatewayPart enableGateway r cr) := by
  unfold gatewayPart
  cases cr.spec.gateway with
  | some g => exact (named_reconcileGateway hsize).handle fun _ s => named_failWith s trivial
  | none => exact named_removeGateway.bind fun _ _ => .pure trivial

/-- **A pass that has read the resource**, from whatever state. -/
theorem named_reconcileResource {names : NameChecks} {enableGateway : Bool} {r : StoredResource} :
    Named r.cr.name u (fun _ => True) (reconcileResource names enableGateway r) := by
  unfold reconcileResource
  split_ifs
  · exact .pure trivial
  · cases hvalid : validateSpec names (defaults r.cr) with
    | error text => exact named_setStatus.bind fun _ _ => .pure trivial
    | ok _ =>
      refine named_checkClass.bind fun refusal _ => ?_
      cases refusal with
      | some text => exact named_setStatus.bind fun _ _ => .pure trivial
      | none =>
        have hbase : Named r.cr.name u (fun _ => True) (ensureAll r.cr (baseObjects (defaults r.cr))) :=
          named_ensureAll fun w hw => (mem_baseObjects hw).1
        have hgateway : Named (defaults r.cr).name u (fun _ => True) (gatewayPart enableGateway r (defaults r.cr)) :=
          named_gatewayPart (validateSpec_ok hvalid).2.2.2.size.2
        refine (hbase.handle fun _ s => named_failWith s trivial).bind fun _ _ => hgateway.bind fun message _ => ?_
        exact named_reportStatus.bind fun _ _ => .pure trivial

/-- **A pass keeps the names, whatever its cache shows.** -/
theorem named_reconcile {names : NameChecks} {enableGateway : Bool} :
    Named n u (fun _ => True) (reconcile names enableGateway) := by
  have hread : Named n u (fun x : Resp .getResource => ∀ r, x = .ok r → r.cr.name = n)
      (Prog.request Call.getResource) :=
    named_request trivial fun s seen x s' hid hx r hr => (hid r ((Server.serves_getResource hx).2 r hr)).1
  refine hread.bind fun x hx => ?_
  cases x with
  | error e =>
    cases e with
    | notFound => exact .pure trivial
    | alreadyExists | conflict | other => exact .throw
  | ok r => exact hx r rfl ▸ named_reconcileResource

end

end SimpleCache.Operator
