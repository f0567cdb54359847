import SimpleCache.Operator.Idempotence
import SimpleCache.Operator.Shards

/-!
# Operator.Steady — objects that `ensure` leaves as they are

An object suits a wanted one when the mutation of `ensure` leaves it.  `mergeTemplate` writes the deprecated name of the
service account, which `statefulSet` does not set; the server fills it in, so a StatefulSet that was created suits too.
What `ensure` stores suits (`wp_ensure_suits`), whatever the server adds to it, and other components keep it so.
-/

namespace SimpleCache.Operator

open Lib (Prog)
open Lib.Prog (wp wp_bind wp_request wp_ofExcept)

/-- The body as the server fills it in. -/
def Body.filled : Body → Body
  | .statefulSet spec status => .statefulSet spec.filled status
  | b => b

/-! ### The merges on what they have made -/

/-- What makes a StatefulSet tidy. -/
structure StatefulSetTidy (wanted s : StatefulSetSpec) : Prop where
  serviceName : s.serviceName = wanted.serviceName
  selector : s.selector = wanted.selector
  replicas : s.replicas = wanted.replicas
  labels : wanted.template.labels ∪ s.template.labels = s.template.labels
  annotations : wanted.template.annotations ∪ s.template.annotations = s.template.annotations
  account : s.template.spec.serviceAccountName = wanted.template.spec.serviceAccountName
  deprecated : s.template.spec.deprecatedServiceAccount = s.template.spec.serviceAccountName
  grace : s.template.spec.terminationGracePeriodSeconds = wanted.template.spec.terminationGracePeriodSeconds
  containers : ∀ cache, wanted.template.spec.containers = [cache] →
    ∃ c, s.template.spec.containers.find? (fun c => c.name = cache.name) = some c ∧ c.Carries cache

/-- The merge of the containers leaves a list whose cache container is as wanted. -/
theorem mergeContainers_same (wanted : Container) : ∀ {cs : List Container} {c : Container},
    cs.find? (fun c => c.name = wanted.name) = some c → c.Carries wanted → mergeContainers wanted cs = cs
  | [], _, hfind, _ => by cases hfind
  | c :: cs, c', hfind, hcarries => by
    by_cases hname : c.name = wanted.name
    · rw [List.find?_cons_of_pos (by simpa using hname), Option.some.injEq] at hfind
      subst hfind
      rw [mergeContainers, if_pos hname]
      unfold Container.Carries at hcarries
      rw [hcarries]
    · rw [List.find?_cons_of_neg (by simpa using hname)] at hfind
      rw [mergeContainers, if_neg hname, mergeContainers_same wanted hfind hcarries]

theorem StatefulSetTidy.filled {wanted s : StatefulSetSpec} (h : StatefulSetTidy wanted s) : s.filled = s := by
  unfold StatefulSetSpec.filled
  rw [← h.deprecated]

theorem StatefulSetTidy.mutate {wanted s : StatefulSetSpec} {cache : Container} (h : StatefulSetTidy wanted s)
    (hcache : wanted.template.spec.containers = [cache]) : mutateStatefulSet true wanted s = .ok s := by
  obtain ⟨c, hfind, hcarries⟩ := h.containers cache hcache
  unfold mutateStatefulSet
  rw [if_neg Bool.noConfusion, if_neg (by rw [h.serviceName, h.selector]; simp)]
  simp only [mergeTemplate, hcache, mergeContainers_same cache hfind hcarries, h.labels, h.annotations, ← h.replicas,
    ← h.account, ← h.grace]
  exact congrArg Except.ok h.filled

/-- Containers that differ in the fields outside the controller's only. -/
theorem find_core {cs cs' : List Container} {cache : Container}
    (h : cs'.map (fun c => { c with rest := [] }) = cs.map fun c => { c with rest := [] })
    (hc : ∃ c, cs.find? (fun c => c.name = cache.name) = some c ∧ c.Carries cache) :
    ∃ c, cs'.find? (fun c => c.name = cache.name) = some c ∧ c.Carries cache := by
  induction cs generalizing cs' with
  | nil => obtain ⟨c, hfind, -⟩ := hc; cases hfind
  | cons c cs ih =>
    cases cs' with
    | nil => cases h
    | cons c' cs' =>
      rw [List.map_cons, List.map_cons, List.cons.injEq] at h
      have hcore := h.1
      have hname : c'.name = c.name := (Container.mk.inj hcore).1
      by_cases hn : c.name = cache.name
      · obtain ⟨d, hfind, hcarries⟩ := hc
        rw [List.find?_cons_of_pos (by simpa using hn), Option.some.injEq] at hfind
        subst hfind
        refine ⟨c', by rw [List.find?_cons_of_pos (by simpa [hname] using hn)], ?_⟩
        unfold Container.Carries at hcarries ⊢
        rw [hcarries] at hcore
        exact congrArg (fun x : Container => { x with rest := c'.rest }) hcore
      · obtain ⟨d, hfind, hcarries⟩ := hc
        rw [List.find?_cons_of_neg (by simpa using hn)] at hfind
        rw [List.find?_cons_of_neg (by simpa [hname] using hn)]
        exact ih h.2 ⟨d, hfind, hcarries⟩

/-- The fields outside the controller's do not matter. -/
theorem StatefulSetTidy.core {wanted s s' : StatefulSetSpec} (h : StatefulSetTidy wanted s) (hs : s'.core = s.core) :
    StatefulSetTidy wanted s' where
  serviceName := (congrArg StatefulSetSpec.serviceName hs).trans h.serviceName
  selector := (congrArg StatefulSetSpec.selector hs).trans h.selector
  replicas := (congrArg StatefulSetSpec.replicas hs).trans h.replicas
  labels := by
    have heq : s'.template.labels = s.template.labels := congrArg (fun x => x.template.labels) hs
    rw [heq, h.labels]
  annotations := by
    have heq : s'.template.annotations = s.template.annotations := congrArg (fun x => x.template.annotations) hs
    rw [heq, h.annotations]
  account := (congrArg (fun x => x.template.spec.serviceAccountName) hs).trans h.account
  deprecated := by
    have haccount : s'.template.spec.serviceAccountName = s.template.spec.serviceAccountName :=
      congrArg (fun x => x.template.spec.serviceAccountName) hs
    rw [haccount, ← h.deprecated]
    exact congrArg (fun x => x.template.spec.deprecatedServiceAccount) hs
  grace := (congrArg (fun x => x.template.spec.terminationGracePeriodSeconds) hs).trans h.grace
  containers cache hcache := find_core (congrArg (fun x => x.template.spec.containers) hs) (h.containers cache hcache)

/-- A StatefulSet as it was wanted is tidy once it is filled in. -/
theorem StatefulSetTidy.wanted (s : StatefulSetSpec) : StatefulSetTidy s s.filled where
  serviceName := rfl
  selector := rfl
  replicas := rfl
  labels := union_self s.template.labels
  annotations := union_self s.template.annotations
  account := rfl
  deprecated := rfl
  grace := rfl
  containers cache hcache := ⟨cache, by simp [StatefulSetSpec.filled, hcache], rfl⟩

/-- So is one that the merge has made. -/
theorem StatefulSetTidy.merged {wanted s s' : StatefulSetSpec} (h : mutateStatefulSet true wanted s = .ok s') :
    StatefulSetTidy wanted s' := by
  obtain ⟨hname, hselector, rfl⟩ := mutateStatefulSet_some h
  refine ⟨hname, hselector, rfl, union_union_self _ _, union_union_self _ _, rfl, rfl, rfl, fun cache hcache => ?_⟩
  simp only [mergeTemplate, hcache]
  exact mergeContainers_find cache _

/-- A Service that was merged, as the server stores it. -/
theorem mutateService_stored {wanted current spec stored : ServiceSpec} (h : mutateService wanted current = .ok spec)
    (ha : (Body.service spec).admits (.service stored) = true) : mutateService wanted stored = .ok stored := by
  simp only [Body.admits, Bool.and_eq_true, Bool.or_eq_true, decide_eq_true_eq] at ha
  obtain ⟨⟨⟨⟨htype, hselector⟩, hports⟩, hready⟩, hip⟩ := ha
  unfold mutateService at h
  rw [ite_eq_iff] at h
  rcases h with ⟨-, h⟩ | ⟨-, h⟩
  · cases h
  · cases h
    dsimp only at htype hselector hports hready hip
    unfold mutateService
    by_cases hnone : wanted.clusterIP = Go.ascii "None"
    · rw [if_pos hnone] at hip
      have hstored : stored.clusterIP = Go.ascii "None" := hip.resolve_left (by decide)
      simp only [hnone, hstored, ne_eq, not_true_eq_false, and_false, if_false, if_true, ← htype, ← hselector, ← hports,
        ← hready]
      rw [← hstored]
    · simp [hnone, ← htype, ← hselector, ← hports, ← hready]

/-! ### Objects that have what is wanted -/

/-- A body has what is wanted of it. -/
inductive Body.Suits : Body → Body → Prop
  | service {wanted s : ServiceSpec} (h : mutateService wanted s = .ok s) : Suits (.service wanted) (.service s)
  | account {wanted rest : Fields} : Suits (.serviceAccount wanted) (.serviceAccount rest)
  | role {rules : List PolicyRule} : Suits (.role rules) (.role rules)
  | binding {roleRef : RoleRef} {subjects : List Subject} :
      Suits (.roleBinding roleRef subjects) (.roleBinding roleRef subjects)
  | statefulSet {wanted s : StatefulSetSpec} {status status' : StatefulSetStatus} {cache : Container}
      (hcache : wanted.template.spec.containers = [cache]) (h : StatefulSetTidy wanted s) :
      Suits (.statefulSet wanted status) (.statefulSet s status')
  | gateway {kind : GatewayKind} {wanted spec status status' : Json} (hnull : Json.nullFree wanted = true)
      (h : Json.desiredSubset spec wanted = true) : Suits (.gateway kind wanted status) (.gateway kind spec status')

namespace Body.Suits

variable {w b b' : Body}

theorem kind (h : Suits w b) : b.kind = w.kind := by
  cases h <;> rfl

/-- The mutation of `ensure` leaves the body. -/
theorem mutate (h : Suits w b) : mutateBody true w b = .ok b := by
  cases h with
  | service h => rw [mutateBody, h]; rfl
  | account => rfl
  | role => rfl
  | binding => rw [mutateBody, if_neg fun hne => hne.2 rfl]
  | statefulSet hcache h => rw [mutateBody, h.mutate hcache]; rfl
  | gateway _ h => rw [mutateBody, if_pos h]

/-- There is nothing to fill in. -/
theorem filled (h : Suits w b) : b.filled = b := by
  cases h with
  | statefulSet _ h => exact congrArg (Body.statefulSet · _) h.filled
  | service | account | role | binding | gateway => rfl

/-- What the server stores of it still has what is wanted. -/
theorem admits (h : Suits w b) (ha : b.admits b' = true) : Suits w b' := by
  cases h with
  | service h =>
    cases b' with
    | service s' => exact .service (mutateService_stored h ha)
    | _ => simp [Body.admits] at ha
  | account =>
    cases b' with
    | serviceAccount rest => exact .account
    | _ => simp [Body.admits] at ha
  | role =>
    cases b' with
    | role rules =>
      obtain rfl := of_decide_eq_true ha
      exact .role
    | _ => simp [Body.admits] at ha
  | binding =>
    cases b' with
    | roleBinding roleRef subjects =>
      simp only [Body.admits, Bool.and_eq_true, decide_eq_true_eq] at ha
      obtain ⟨rfl, rfl⟩ := ha
      exact .binding
    | _ => simp [Body.admits] at ha
  | statefulSet hcache h =>
    cases b' with
    | statefulSet s' status =>
      have hcore := of_decide_eq_true ha
      rw [h.filled] at hcore
      exact .statefulSet hcache (h.core hcore)
    | _ => simp [Body.admits] at ha
  | gateway hnull h =>
    cases b' with
    | gateway kind spec status =>
      simp only [Body.admits, Bool.and_eq_true, decide_eq_true_eq] at ha
      obtain ⟨rfl, hsub⟩ := ha
      exact .gateway hnull (Json.desiredSubset_trans hnull hsub h)
    | _ => simp [Body.admits] at ha

/-- A Service with an address, if it had none. -/
theorem drifts (h : Suits w b) (hd : b.drifts b' = true) : Suits w b' := by
  cases h with
  | service h =>
    cases b' with
    | service s' => exact .service (mutateService_stored h hd)
    | _ => simp [Body.drifts] at hd
  | account =>
    obtain rfl := of_decide_eq_true hd
    exact .account
  | role =>
    obtain rfl := of_decide_eq_true hd
    exact .role
  | binding =>
    obtain rfl := of_decide_eq_true hd
    exact .binding
  | statefulSet hcache h =>
    cases b' with
    | statefulSet s' status =>
      obtain rfl := of_decide_eq_true hd
      exact .statefulSet hcache h
    | _ => simp [Body.drifts] at hd
  | gateway hnull h =>
    cases b' with
    | gateway kind spec status =>
      simp only [Body.drifts, Bool.and_eq_true, decide_eq_true_eq] at hd
      obtain ⟨rfl, rfl⟩ := hd
      exact .gateway hnull h
    | _ => simp [Body.drifts] at hd

end Body.Suits

/-- The spec of a wanted gateway object has no null leaves. -/
theorem Wanted.nullFree {cr : SimpleCacheResource} {o : Object} (h : Wanted cr o) {kind : GatewayKind}
    {spec status : Json} (hbody : o.body = .gateway kind spec status) : Json.nullFree spec = true := by
  cases h with
  | base h =>
    simp only [baseObjects, List.mem_cons, List.not_mem_nil, or_false] at h
    rcases h with rfl | rfl | rfl | rfl | rfl | rfl <;> cases hbody
  | shard ordinal => cases hbody
  | gateway g ips h =>
    simp only [gatewayResources, List.mem_cons, List.not_mem_nil, or_false] at h
    rcases h with rfl | rfl | rfl | rfl | rfl <;> cases hbody
    · rfl
    · exact nullFree_backendSpec ips
    · rfl
    · rfl
    · rfl

section

variable {cr : SimpleCacheResource} {wanted : Object} {existing : Bool} {current body : Body}

/-- What the switch of `ensure` makes of an object, or of the wanted one when there is none; the server fills it in. -/
theorem suits_of_mutateBody (hw : Wanted cr wanted) (hkind : current.kind = wanted.body.kind)
    (h : mutateBody existing wanted.body current = .ok body) : wanted.body.Suits body.filled := by
  cases hb : wanted.body with
  | service spec =>
    rw [hb] at h hkind
    cases current with
    | service s =>
      obtain ⟨result, hresult, rfl⟩ := map_eq_ok h
      exact .service (mutateService_idem hresult)
    | _ => cases hkind
  | serviceAccount rest =>
    rw [hb] at h hkind
    cases current with
    | serviceAccount rest' => cases h; exact .account
    | _ => cases hkind
  | role rules =>
    rw [hb] at h hkind
    cases current with
    | role rules' => cases h; exact .role
    | _ => cases hkind
  | roleBinding roleRef subjects =>
    rw [hb] at h hkind
    cases current with
    | roleBinding roleRef' subjects' =>
      rw [mutateBody] at h
      split_ifs at h
      cases h
      exact .binding
    | _ => cases hkind
  | statefulSet spec status =>
    have hcache := hw.containers hb
    rw [hb] at h hkind
    cases current with
    | statefulSet s status' =>
      rw [mutateBody] at h
      obtain ⟨result, hresult, rfl⟩ := map_eq_ok h
      cases existing with
      | true =>
        have htidy := StatefulSetTidy.merged hresult
        exact .statefulSet hcache (htidy.filled.symm ▸ htidy)
      | false =>
        obtain rfl : spec = result := Except.ok.inj hresult
        exact .statefulSet hcache (.wanted spec)
    | _ => cases hkind
  | gateway kind spec status =>
    have hnull := hw.nullFree hb
    have hrefl := Json.desiredSubset_refl (hw.wellFormed hb)
    rw [hb] at h hkind
    cases current with
    | gateway kind' spec' status' =>
      cases h
      cases hkind
      refine .gateway hnull ?_
      split_ifs with hsub
      · exact hsub
      · exact hrefl
    | _ => cases hkind

/-- A merge fills in by itself. -/
theorem filled_of_mutateBody (hkind : current.kind = wanted.body.kind)
    (h : mutateBody true wanted.body current = .ok body) : body.filled = body := by
  have hbody : body.kind = wanted.body.kind := (mutateBody_kind h).trans hkind
  cases hb : wanted.body with
  | statefulSet spec status =>
    rw [hb] at h hkind
    cases current with
    | statefulSet s status' =>
      obtain ⟨result, hresult, rfl⟩ := map_eq_ok h
      exact congrArg (Body.statefulSet · _) (StatefulSetTidy.merged hresult).filled
    | _ => cases hkind
  | service | serviceAccount | role | roleBinding | gateway =>
    rw [hb] at hbody
    cases body with
    | statefulSet s status => cases hbody
    | service | serviceAccount | role | roleBinding | gateway => rfl

end

/-! ### `ensure` -/

/-- The object has what is wanted of it. -/
def Suits (wanted o : Object) : Prop := wanted.body.Suits o.body

theorem Suits.drifts {wanted o o' : Object} (h : Suits wanted o) (hd : o.drifts o' = true) : Suits wanted o' :=
  Body.Suits.drifts h (Object.drifts_iff.mp hd).2.2

/-- The server stores the same whether it is given a body or the body filled in. -/
theorem Body.filled_admits (b b' : Body) : b.filled.admits b' = b.admits b' := by
  cases b with
  | statefulSet => cases b' <;> rfl
  | service | serviceAccount | role | roleBinding | gateway => rfl

theorem Suits.stored {wanted o st : Object} (h : wanted.body.Suits o.body.filled) (ha : o.admits st = true) :
    Suits wanted st :=
  Body.Suits.admits h ((Body.filled_admits _ _).trans (Object.admits_iff.mp ha).2.2)

section

variable {cr owner : SimpleCacheResource} {wanted o : Object}

/-- What the closure of `ensure` makes suits once it is filled in. -/
theorem suits_of_mutate {read : Option Object} (hw : Wanted cr wanted)
    (hread : ∀ e, read = some e → e.key = wanted.key) (h : mutate owner wanted read = .ok o) :
    wanted.body.Suits o.body.filled := by
  cases read with
  | none =>
    obtain ⟨body, hbody, rfl⟩ := mutate_none h
    exact suits_of_mutateBody hw rfl hbody
  | some e =>
    obtain ⟨-, body, hbody, rfl⟩ := mutate_some h
    exact suits_of_mutateBody hw (congrArg Key.kind (hread e rfl)) hbody

/-- What was there before and is merged suits by itself. -/
theorem suits_of_merge {read : Object} (hw : Wanted cr wanted) (hread : read.key = wanted.key)
    (h : mutate owner wanted (some read) = .ok o) : Suits wanted o := by
  obtain ⟨-, body, hbody, rfl⟩ := mutate_some h
  have hkind : read.body.kind = wanted.body.kind := congrArg Key.kind hread
  have hsuits := suits_of_mutateBody hw hkind hbody
  rw [filled_of_mutateBody hkind hbody] at hsuits
  exact hsuits

theorem mutate_of_suits (h : Suits wanted o) (hc : o.controller = some owner.uid) :
    mutate owner wanted (some o) = .ok o := by
  unfold mutate
  simp only [Option.getD_some, Option.isSome_some, true_and]
  rw [if_neg (by simp [Object.controlledBy, hc]), h.mutate]
  exact congrArg Except.ok (by rw [← hc])

/-- What the closure has made suits where it is stored. -/
theorem has_of_put {read : Option Object} {st : Object} (hw : Wanted cr wanted)
    (hread : ∀ e, read = some e → e.key = wanted.key) (ho : mutate owner wanted read = .ok o)
    (ha : o.admits st = true) (s : Server) :
    ({ s with store := s.store.put st } : Server).Has owner.uid wanted.key (Suits wanted) := by
  have hkey : st.key = wanted.key := (Object.admits_key ha).trans (mutate_key hread ho)
  have hcontroller : st.controller = some owner.uid := (Object.admits_iff.mp ha).2.1.trans (mutate_controller ho)
  exact ⟨st, ⟨s.store.get_put_of_eq hkey, hcontroller⟩, Suits.stored (suits_of_mutate hw hread ho) ha⟩

/-- **What `ensure` leaves has what is wanted.** -/
theorem wp_ensure_suits (owner : SimpleCacheResource) (hw : Wanted cr wanted) (s : Server) :
    wp (Rely owner.uid) Server.Serves (EnsureStep owner wanted) (fun _ s => s.Has owner.uid wanted.key (Suits wanted))
      (ensure owner wanted) s := by
  have hany : ∀ s s' : Server, True → Rely owner.uid s s' → True := fun _ _ _ _ => trivial
  apply wp_bind
  refine wp_request hany trivial fun s₁ r s₂ _ hr => ?_
  obtain ⟨rfl, hok, -⟩ := Server.serves_get hr
  refine ⟨.same rfl, ?_⟩
  cases r with
  | error e =>
    cases e with
    | notFound =>
      apply wp_bind
      refine wp_ofExcept fun o ho => ?_
      have hread : ∀ e, (none : Option Object) = some e → e.key = wanted.key := fun _ => nofun
      have hkey : o.key = wanted.key := mutate_key hread ho
      refine wp_api hany trivial fun s₃ r s₄ _ hr => ?_
      rcases Server.serves_create hr with ⟨rfl, hne⟩ | ⟨hget, st, ha, rfl⟩
      · exact ⟨.same rfl, fun a ha => absurd ha hne⟩
      · exact ⟨.put (by rw [← hkey, hget]; exact ho) ha rfl, fun _ _ => has_of_put hw hread ho ha s₃⟩
    | alreadyExists | conflict | other => trivial
  | ok read =>
    have hget := hok read rfl
    have hread : ∀ e, some read = some e → e.key = wanted.key := by
      rintro e ⟨⟩
      exact Store.get_key hget
    apply wp_bind
    refine wp_ofExcept fun o ho => ?_
    by_cases heq : o = read
    · rw [if_pos heq]
      subst heq
      exact ⟨o, ⟨hget, mutate_controller ho⟩, suits_of_merge hw (hread o rfl) ho⟩
    · rw [if_neg heq]
      refine wp_api hany trivial fun s₃ r s₄ _ hr => ?_
      rcases Server.serves_update hr with ⟨rfl, hne⟩ | ⟨hget', st, ha, rfl⟩
      · exact ⟨.same rfl, fun a ha => absurd ha hne⟩
      · exact ⟨.put (by rw [← hread read rfl, hget']; exact ho) ha rfl, fun _ _ => has_of_put hw hread ho ha s₃⟩

end

end SimpleCache.Operator
