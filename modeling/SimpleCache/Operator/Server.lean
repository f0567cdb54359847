import SimpleCache.Operator.Ensure

/-!
# Operator.Server — the API server as the controller sees it

The server holds the resource with its status, the GatewayClasses, and the objects of the resource's namespace by kind
and name.  The controller has the client of its manager, which reads typed objects from a cache that may lag: such a read
is answered from a state that was seen, and the reads of unstructured objects and all writes from the current one.  What
the server adds to an object it stores is a choice: a Service may get its ClusterIP, a gateway spec may be extended by
defaults, and fields outside the controller's may take any value.  A call may also fail, before or after it took effect.

`Update` carries the object that was read, for the server compares its resource version.
-/

namespace SimpleCache.Operator

/-! ### State -/

/-- The `Ready` condition of a status. -/
structure Condition where
  status : Bool
  reason : String
  message : GoString
  observedGeneration : ℤ
  deriving DecidableEq

/-- `SimpleCacheStatus`; the controller sets one condition. -/
structure SimpleCacheStatus where
  observedGeneration : ℤ
  readyReplicas : ℤ
  condition : Option Condition
  deriving DecidableEq

/-- The resource as it is stored. -/
structure StoredResource where
  cr : SimpleCacheResource
  generation : ℤ
  deleting : Bool
  status : SimpleCacheStatus
  deriving DecidableEq

/-- Everything but the status. -/
def StoredResource.sansStatus (r : StoredResource) : SimpleCacheResource × ℤ × Bool := (r.cr, r.generation, r.deleting)

/-- What the controller reads of a GatewayClass. -/
structure GatewayClass where
  controllerName : GoString
  generation : ℤ
  status : Json

/-- The objects of the namespace. -/
structure Store where
  map : Finmap fun _ : Key => Object
  /-- An object is stored under its own key. -/
  keyed : ∀ k o, map.lookup k = some o → o.key = k

namespace Store

def get (s : Store) (k : Key) : Option Object := s.map.lookup k

/-- Stores an object under its key. -/
def put (s : Store) (o : Object) : Store where
  map := s.map.insert o.key o
  keyed k o' h := by
    by_cases hk : k = o.key
    · subst hk
      rw [Finmap.lookup_insert, Option.some.injEq] at h
      rw [h]
    · rw [Finmap.lookup_insert_of_ne _ hk] at h
      exact s.keyed k o' h

def remove (s : Store) (k : Key) : Store where
  map := s.map.erase k
  keyed k' o h := by
    by_cases hk : k' = k
    · subst hk
      rw [Finmap.lookup_erase] at h
      cases h
    · rw [Finmap.lookup_erase_ne hk] at h
      exact s.keyed k' o h

/-- The Services, in no order. -/
def services (s : Store) : Multiset Object := (s.map.entries.map fun e => e.2).filter fun o => o.body.kind = .service

variable (s : Store)

theorem get_put (o : Object) : (s.put o).get o.key = some o := Finmap.lookup_insert _

theorem get_put_of_eq {o : Object} {k : Key} (h : o.key = k) : (s.put o).get k = some o := h ▸ s.get_put o

theorem get_put_ne {o : Object} {k : Key} (h : k ≠ o.key) : (s.put o).get k = s.get k := Finmap.lookup_insert_of_ne _ h

theorem get_remove (k : Key) : (s.remove k).get k = none := Finmap.lookup_erase _ _

theorem get_remove_ne {k k' : Key} (h : k' ≠ k) : (s.remove k).get k' = s.get k' := Finmap.lookup_erase_ne h

variable {s}

theorem get_key {k : Key} {o : Object} (h : s.get k = some o) : o.key = k := s.keyed k o h

theorem mem_services {o : Object} : o ∈ s.services ↔ s.get o.key = some o ∧ o.body.kind = .service := by
  rw [services, Multiset.mem_filter, Multiset.mem_map]
  constructor
  · rintro ⟨⟨⟨k, o'⟩, hmem, rfl⟩, hkind⟩
    have hget : s.get k = some o' := Finmap.lookup_eq_some_iff.mpr hmem
    exact ⟨get_key hget ▸ hget, hkind⟩
  · rintro ⟨hget, hkind⟩
    exact ⟨⟨⟨o.key, o⟩, Finmap.lookup_eq_some_iff.mp hget, rfl⟩, hkind⟩

theorem nodup_services : (s.services.map Object.key).Nodup := by
  have hkeys : (s.map.entries.map fun e => e.2).map Object.key = s.map.entries.map Sigma.fst := by
    rw [Multiset.map_map]
    exact Multiset.map_congr rfl fun e he => s.keyed e.1 e.2 (Finmap.lookup_eq_some_iff.mpr he)
  have hall : ((s.map.entries.map fun e => e.2).map Object.key).Nodup := by
    rw [hkeys]
    exact Multiset.nodup_keys.mpr s.map.nodupKeys
  exact Multiset.nodup_of_le (Multiset.map_le_map (Multiset.filter_le _ _)) hall

end Store

/-- The API server. -/
structure Server where
  resource : Option StoredResource
  classes : GoString → Option GatewayClass
  store : Store

namespace Server

def get (s : Server) (k : Key) : Option Object := s.store.get k

def put (s : Server) (o : Object) : Server := { s with store := s.store.put o }

def remove (s : Server) (k : Key) : Server := { s with store := s.store.remove k }

end Server

/-! ### What the server stores, and what others change -/

/-- A StatefulSet spec without the fields outside the controller's. -/
def StatefulSetSpec.core (s : StatefulSetSpec) : StatefulSetSpec :=
  { s with
    rest := []
    template :=
      { s.template with
        spec :=
          { s.template.spec with
            rest := []
            containers := s.template.spec.containers.map fun c => { c with rest := [] } } } }

/-- The deprecated name of the service account is filled in. -/
def StatefulSetSpec.filled (s : StatefulSetSpec) : StatefulSetSpec :=
  { s with template := { s.template with spec :=
    { s.template.spec with deprecatedServiceAccount := s.template.spec.serviceAccountName } } }

/-- The server may store `stored` when it is given `wanted`. -/
def Body.admits : Body → Body → Bool
  | .service wanted, .service stored =>
    stored.type = wanted.type && stored.selector = wanted.selector && stored.ports = wanted.ports &&
      stored.publishNotReadyAddresses = wanted.publishNotReadyAddresses &&
      (wanted.clusterIP = [] || stored.clusterIP = wanted.clusterIP)
  | .serviceAccount _, .serviceAccount _ => true
  | .role wanted, .role stored => stored = wanted
  | .roleBinding roleRef subjects, .roleBinding roleRef' subjects' => roleRef' = roleRef && subjects' = subjects
  | .statefulSet wanted _, .statefulSet stored _ => stored.core = wanted.filled.core
  | .gateway kind wanted _, .gateway kind' stored _ => kind' = kind && Json.desiredSubset stored wanted
  | _, _ => false

def Object.admits (wanted stored : Object) : Bool :=
  stored.name = wanted.name && stored.controller = wanted.controller && wanted.body.admits stored.body

/-- Other components change `old` to `new`: statuses, the fields outside the controller's, and a ClusterIP once. -/
def Body.drifts : Body → Body → Bool
  | .service old, .service new =>
    new.type = old.type && new.selector = old.selector && new.ports = old.ports &&
      new.publishNotReadyAddresses = old.publishNotReadyAddresses &&
      (old.clusterIP = [] || new.clusterIP = old.clusterIP)
  | .statefulSet old _, .statefulSet new _ => new = old
  | .gateway kind old _, .gateway kind' new _ => kind' = kind && new = old
  | old, new => new = old

def Object.drifts (old new : Object) : Bool :=
  new.name = old.name && new.controller = old.controller && old.body.drifts new.body

/-! ### Calls -/

/-- The API calls of the controller. -/
inductive Call
  | getResource
  | getClass (name : GoString)
  | get (k : Key)
  | create (o : Object)
  | update (read new : Object)
  | delete (k : Key)
  | listServices
  | patchStatus (status : SimpleCacheStatus)

/-- What a successful call returns. -/
abbrev Val : Call → Type
  | .getResource => StoredResource
  | .getClass _ => GatewayClass
  | .get _ => Object
  | .listServices => List Object
  | .create _ | .update _ _ | .delete _ | .patchStatus _ => Unit

abbrev Resp (c : Call) : Type := Except ApiErr (Val c)

/-- How a call is dealt with: the object the server stores, the order in which Services are listed, whether the call
fails, and then whether it took effect, and how many states the cache lags behind.  A failure is not an answer that
something is absent. -/
structure Choice where
  stored : Option Object
  items : List Object
  failure : Option { e : ApiErr // e ≠ .notFound }
  effect : Bool
  age : ℕ

/-- The client reads the objects of a kind from its cache; those of a gateway are unstructured, and are not cached. -/
def Kind.cached : Kind → Bool
  | .gateway _ => false
  | _ => true

/-- An answer to a read. -/
def found {α : Type} : Option α → Except ApiErr α
  | some a => .ok a
  | none => .error .notFound

namespace Server

/-- The server stores an object it was given. -/
def store? (s : Server) (wanted : Object) (stored : Option Object) : Option (Except ApiErr Unit × Server) :=
  match stored with
  | some o => if wanted.admits o then some (.ok (), s.put o) else none
  | none => none

/-- The answer to a call that does not fail, with the cache showing the state `seen`. -/
def answer (s seen : Server) (ch : Choice) : (c : Call) → Option (Resp c × Server)
  | .getResource => some (found seen.resource, s)
  | .getClass name => some (found (s.classes name), s)
  | .get k => some (found ((if k.kind.cached then seen else s).get k), s)
  | .create o =>
    match s.get o.key with
    | some _ => some (.error .alreadyExists, s)
    | none => s.store? o ch.stored
  | .update read new =>
    match s.get read.key with
    | none => some (.error .notFound, s)
    | some current => if current = read then s.store? new ch.stored else some (.error .conflict, s)
  | .delete k =>
    match s.get k with
    | none => some (.error .notFound, s)
    | some _ => some (.ok (), s.remove k)
  | .listServices => if (ch.items : Multiset Object) = seen.store.services then some (.ok ch.items, s) else none
  | .patchStatus status =>
    match s.resource with
    | none => some (.error .notFound, s)
    | some r => some (.ok (), { s with resource := some { r with status := status } })

/-- The answer to a call, or its failure. -/
def serve (s seen : Server) (c : Call) (ch : Choice) : Option (Resp c × Server) :=
  match ch.failure with
  | none => s.answer seen ch c
  | some e => if ch.effect then (s.answer seen ch c).map fun x => (.error e.1, x.2) else some (.error e.1, s)

/-- Some way of serving a call when the cache shows the state `seen`. -/
def ServesFrom (s seen : Server) (c : Call) (r : Resp c) (s' : Server) : Prop := ∃ ch, s.serve seen c ch = some (r, s')

/-- Some way of serving a call when the cache shows the current state. -/
def Serves (s : Server) (c : Call) (r : Resp c) (s' : Server) : Prop := s.ServesFrom s c r s'

/-! ### What a call can do -/

section

variable {s seen s' : Server}

theorem serves_cases {c : Call} {r : Resp c} (h : s.ServesFrom seen c r s') :
    (∃ ch, s.answer seen ch c = some (r, s')) ∨
      (∃ e, e ≠ .notFound ∧ r = .error e) ∧ (s' = s ∨ ∃ ch r', s.answer seen ch c = some (r', s')) := by
  obtain ⟨ch, h⟩ := h
  unfold serve at h
  split at h
  · exact .inl ⟨ch, h⟩
  · rename_i e _
    split_ifs at h
    · obtain ⟨⟨r', s₁⟩, hans, heq⟩ := Option.map_eq_some_iff.mp h
      cases heq
      exact .inr ⟨⟨e.1, e.2, rfl⟩, .inr ⟨ch, r', hans⟩⟩
    · cases h
      exact .inr ⟨⟨e.1, e.2, rfl⟩, .inl rfl⟩

/-- A read leaves the state, and its answer is that of the state it is from. -/
theorem serves_read {c : Call} {x : Option (Val c)} {r : Resp c} (hans : ∀ ch, s.answer seen ch c = some (found x, s))
    (h : s.ServesFrom seen c r s') : s' = s ∧ (∀ a, r = .ok a → x = some a) ∧ (r = .error .notFound → x = none) := by
  rcases serves_cases h with ⟨ch, h⟩ | ⟨⟨e, he, rfl⟩, heffect⟩
  · rw [hans] at h
    obtain ⟨rfl, rfl⟩ := Prod.mk.inj (Option.some.inj h)
    cases x with
    | none => exact ⟨rfl, nofun, fun _ => rfl⟩
    | some b => exact ⟨rfl, fun a ha => congrArg some (Except.ok.inj ha), nofun⟩
  · refine ⟨?_, nofun, fun hn => absurd (Except.error.inj hn) he⟩
    rcases heffect with rfl | ⟨ch, r', h⟩
    · rfl
    · rw [hans] at h
      exact (Prod.mk.inj (Option.some.inj h)).2.symm

theorem servesFrom_get {k : Key} {r : Resp (.get k)} (h : s.ServesFrom seen (.get k) r s') :
    s' = s ∧ (∀ o, r = .ok o → (if k.kind.cached then seen else s).get k = some o) ∧
      (r = .error .notFound → (if k.kind.cached then seen else s).get k = none) :=
  serves_read (c := .get k) (fun _ => rfl) h

theorem serves_get {k : Key} {r : Resp (.get k)} (h : s.Serves (.get k) r s') :
    s' = s ∧ (∀ o, r = .ok o → s.get k = some o) ∧ (r = .error .notFound → s.get k = none) := by
  simpa only [ite_self] using servesFrom_get h

/-- Whatever the cache shows, an object is stored under its own key. -/
theorem servesFrom_get_key {k : Key} {o : Object} (h : s.ServesFrom seen (.get k) (.ok o) s') : o.key = k := by
  have hget := (servesFrom_get h).2.1 o rfl
  exact Store.get_key hget

theorem serves_getResource {r : Resp .getResource} (h : s.ServesFrom seen .getResource r s') :
    s' = s ∧ ∀ x, r = .ok x → seen.resource = some x := by
  obtain ⟨h₁, h₂, -⟩ := serves_read (c := .getResource) (fun _ => rfl) h
  exact ⟨h₁, h₂⟩

theorem serves_getClass {name : GoString} {r : Resp (.getClass name)} (h : s.ServesFrom seen (.getClass name) r s') :
    s' = s :=
  (serves_read (c := .getClass name) (fun _ => rfl) h).1

theorem store?_cases {wanted : Object} {stored : Option Object} {r : Except ApiErr Unit}
    (h : s.store? wanted stored = some (r, s')) : ∃ o, wanted.admits o = true ∧ s' = s.put o := by
  unfold store? at h
  split at h
  · rename_i o
    split_ifs at h with hadmits
    cases h
    exact ⟨o, hadmits, rfl⟩
  · cases h

theorem answer_create {ch : Choice} {o : Object} {r : Resp (.create o)}
    (h : s.answer seen ch (.create o) = some (r, s')) :
    (s' = s ∧ r ≠ .ok ()) ∨ (s.get o.key = none ∧ ∃ st, o.admits st = true ∧ s' = s.put st) := by
  simp only [answer] at h
  split at h
  · cases h
    exact .inl ⟨rfl, nofun⟩
  · rename_i hnone
    exact .inr ⟨hnone, store?_cases h⟩

/-- `Create` stores an object where there is none. -/
theorem serves_create {o : Object} {r : Resp (.create o)} (h : s.ServesFrom seen (.create o) r s') :
    (s' = s ∧ r ≠ .ok ()) ∨ (s.get o.key = none ∧ ∃ st, o.admits st = true ∧ s' = s.put st) := by
  rcases serves_cases h with ⟨ch, h⟩ | ⟨⟨e, he, rfl⟩, rfl | ⟨ch, r', h⟩⟩
  · exact answer_create h
  · exact .inl ⟨rfl, nofun⟩
  · rcases answer_create h with ⟨rfl, -⟩ | hput
    · exact .inl ⟨rfl, nofun⟩
    · exact .inr hput

theorem answer_update {ch : Choice} {read new : Object} {r : Resp (.update read new)}
    (h : s.answer seen ch (.update read new) = some (r, s')) :
    (s' = s ∧ r ≠ .ok ()) ∨ (s.get read.key = some read ∧ ∃ st, new.admits st = true ∧ s' = s.put st) := by
  simp only [answer] at h
  split at h
  · cases h
    exact .inl ⟨rfl, nofun⟩
  · rename_i current hget
    split_ifs at h with heq
    · subst heq
      exact .inr ⟨hget, store?_cases h⟩
    · cases h
      exact .inl ⟨rfl, nofun⟩

/-- `Update` replaces the object that was read, if it is still the one stored. -/
theorem serves_update {read new : Object} {r : Resp (.update read new)} (h : s.ServesFrom seen (.update read new) r s') :
    (s' = s ∧ r ≠ .ok ()) ∨ (s.get read.key = some read ∧ ∃ st, new.admits st = true ∧ s' = s.put st) := by
  rcases serves_cases h with ⟨ch, h⟩ | ⟨⟨e, he, rfl⟩, rfl | ⟨ch, r', h⟩⟩
  · exact answer_update h
  · exact .inl ⟨rfl, nofun⟩
  · rcases answer_update h with ⟨rfl, -⟩ | hput
    · exact .inl ⟨rfl, nofun⟩
    · exact .inr hput

theorem answer_delete {ch : Choice} {k : Key} {r : Resp (.delete k)}
    (h : s.answer seen ch (.delete k) = some (r, s')) :
    (s' = s ∧ r = .error .notFound ∧ s.get k = none) ∨ (s' = s.remove k ∧ r ≠ .error .notFound) := by
  simp only [answer] at h
  split at h
  · rename_i hnone
    cases h
    exact .inl ⟨rfl, rfl, hnone⟩
  · cases h
    exact .inr ⟨rfl, nofun⟩

/-- After `Delete`, unless it failed, there is no object; and nothing else changed. -/
theorem serves_delete {k : Key} {r : Resp (.delete k)} (h : s.ServesFrom seen (.delete k) r s') :
    (s' = s ∨ s' = s.remove k) ∧ (r = .ok () ∨ r = .error .notFound → s'.get k = none) := by
  rcases serves_cases h with ⟨ch, h⟩ | ⟨⟨e, he, rfl⟩, heffect⟩
  · rcases answer_delete h with ⟨rfl, -, hnone⟩ | ⟨rfl, -⟩
    · exact ⟨.inl rfl, fun _ => hnone⟩
    · exact ⟨.inr rfl, fun _ => s.store.get_remove k⟩
  · constructor
    · rcases heffect with rfl | ⟨ch, r', h⟩
      · exact .inl rfl
      · rcases answer_delete h with ⟨rfl, -⟩ | ⟨rfl, -⟩
        · exact .inl rfl
        · exact .inr rfl
    · rintro (hr | hr)
      · cases hr
      · exact absurd (Except.error.inj hr) he

theorem serves_listServices {r : Resp .listServices} (h : s.ServesFrom seen .listServices r s') :
    s' = s ∧ ∀ items, r = .ok items → (items : Multiset Object) = seen.store.services := by
  have hans : ∀ {ch : Choice} {r' : Resp .listServices} {s₁ : Server},
      s.answer seen ch .listServices = some (r', s₁) →
      s₁ = s ∧ ∀ items, r' = .ok items → (items : Multiset Object) = seen.store.services := by
    intro ch r' s₁ h
    simp only [answer] at h
    split_ifs at h with hitems
    cases h
    refine ⟨rfl, fun items hr => ?_⟩
    cases hr
    exact hitems
  rcases serves_cases h with ⟨ch, h⟩ | ⟨⟨e, he, rfl⟩, rfl | ⟨ch, r', h⟩⟩
  · exact hans h
  · exact ⟨rfl, nofun⟩
  · exact ⟨(hans h).1, nofun⟩

/-- A patch of the status leaves everything else. -/
theorem serves_patchStatus {status : SimpleCacheStatus} {r : Resp (.patchStatus status)}
    (h : s.ServesFrom seen (.patchStatus status) r s') :
    s' = s ∨ ∃ x, s.resource = some x ∧ s' = { s with resource := some { x with status := status } } := by
  have hans : ∀ {ch : Choice} {r' : Resp (.patchStatus status)} {s₁ : Server},
      s.answer seen ch (.patchStatus status) = some (r', s₁) →
      s₁ = s ∨ ∃ x, s.resource = some x ∧ s₁ = { s with resource := some { x with status := status } } := by
    intro ch r' s₁ h
    simp only [answer] at h
    split at h
    · cases h
      exact .inl rfl
    · rename_i x hx
      cases h
      exact .inr ⟨x, hx, rfl⟩
  rcases serves_cases h with ⟨ch, h⟩ | ⟨-, rfl | ⟨ch, r', h⟩⟩
  · exact hans h
  · exact .inl rfl
  · exact hans h

end

end Server

end SimpleCache.Operator
