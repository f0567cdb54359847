import SimpleCache.Operator.Gateway

/-!
# Operator.Ownership — what others may do, and what `ensure` does

`Rely` is what the other clients and components keep: an object that the resource controls is neither deleted nor edited
by others, only drifts, and no object becomes controlled by others' doing.  Assertions about controlled objects that
survive a drift are then stable.  `EnsureStep` is everything that a call of `ensure` can do to the server, and
`wp_ensure` is its specification.
-/

namespace SimpleCache.Operator

open Lib (Prog)
open Lib.Prog (wp wp_bind wp_mono wp_request wp_ofExcept)

/-- The selector of a Service. -/
def Object.selector (o : Object) : Labels :=
  match o.body with
  | .service spec => spec.selector
  | _ => ∅

/-- The spec of a gateway object. -/
def Object.spec (o : Object) : Json :=
  match o.body with
  | .gateway _ spec _ => spec
  | _ => .null

/-! ### Drift -/

theorem Body.drifts_refl (b : Body) : b.drifts b = true := by
  cases b <;> simp [Body.drifts]

theorem Body.drifts_trans {a b c : Body} (hab : a.drifts b = true) (hbc : b.drifts c = true) : a.drifts c = true := by
  cases a <;> cases b <;> simp [Body.drifts] at hab <;> cases c <;> simp [Body.drifts] at hbc ⊢ <;> grind

namespace Object

theorem drifts_refl (o : Object) : o.drifts o = true := by
  simp [drifts, Body.drifts_refl]

theorem drifts_iff {o o' : Object} : o.drifts o' = true ↔
    o'.name = o.name ∧ o'.controller = o.controller ∧ o.body.drifts o'.body = true := by
  simp [drifts, and_assoc]

theorem drifts_trans {a b c : Object} (hab : a.drifts b = true) (hbc : b.drifts c = true) : a.drifts c = true := by
  rw [drifts_iff] at hab hbc ⊢
  exact ⟨hbc.1.trans hab.1, hbc.2.1.trans hab.2.1, Body.drifts_trans hab.2.2 hbc.2.2⟩

theorem drifts_selector {o o' : Object} (h : o.drifts o' = true) : o'.selector = o.selector := by
  rw [drifts_iff] at h
  obtain ⟨-, -, h⟩ := h
  unfold selector
  cases hb : o.body <;> cases hb' : o'.body <;> simp [hb, hb', Body.drifts] at h ⊢
  exact h.1.1.1.2

theorem drifts_spec {o o' : Object} (h : o.drifts o' = true) : o'.spec = o.spec := by
  rw [drifts_iff] at h
  obtain ⟨-, -, h⟩ := h
  unfold spec
  cases hb : o.body <;> cases hb' : o'.body <;> simp [hb, hb', Body.drifts] at h ⊢
  exact h.2

/-- A ClusterIP is assigned once. -/
theorem drifts_clusterIP {o o' : Object} (h : o.drifts o' = true) (hip : o.clusterIP ≠ []) :
    o'.clusterIP = o.clusterIP := by
  rw [drifts_iff] at h
  obtain ⟨-, -, h⟩ := h
  unfold clusterIP at hip ⊢
  cases hb : o.body <;> cases hb' : o'.body <;> simp [hb, hb', Body.drifts] at h hip ⊢
  exact h.2.resolve_left hip

end Object

/-! ### Admission -/

namespace Object

theorem admits_iff {o st : Object} : o.admits st = true ↔
    st.name = o.name ∧ st.controller = o.controller ∧ o.body.admits st.body = true := by
  simp [admits, and_assoc]

theorem admits_key {o st : Object} (h : o.admits st = true) : st.key = o.key := by
  rw [admits_iff] at h
  obtain ⟨hname, -, h⟩ := h
  have hkind : st.body.kind = o.body.kind := by
    cases hb : o.body <;> cases hb' : st.body <;> simp [hb, hb', Body.admits, Body.kind] at h ⊢
    exact h.1
  rw [key, key, hname, hkind]

theorem admits_selector {o st : Object} (h : o.admits st = true) : st.selector = o.selector := by
  rw [admits_iff] at h
  obtain ⟨-, -, h⟩ := h
  unfold selector
  cases hb : o.body <;> cases hb' : st.body <;> simp [hb, hb', Body.admits] at h ⊢
  exact h.1.1.1.2

theorem admits_clusterIP {o st : Object} (h : o.admits st = true) (hip : o.clusterIP ≠ []) :
    st.clusterIP = o.clusterIP := by
  rw [admits_iff] at h
  obtain ⟨-, -, h⟩ := h
  unfold clusterIP at hip ⊢
  cases hb : o.body <;> cases hb' : st.body <;> simp [hb, hb', Body.admits] at h hip ⊢
  exact h.2.resolve_left hip

/-- A stored gateway spec extends the one that was sent. -/
theorem admits_spec {o st : Object} (h : o.admits st = true) {kind : GatewayKind} {spec status : Json}
    (ho : o.body = .gateway kind spec status) : Json.desiredSubset st.spec spec = true := by
  rw [admits_iff] at h
  obtain ⟨-, -, h⟩ := h
  unfold Object.spec
  cases hb' : st.body <;> simp [ho, hb', Body.admits] at h ⊢
  exact h.2

end Object

/-! ### Controlled objects -/

/-- The object under a key, controlled by the resource `u`. -/
def Server.Owned (s : Server) (u : GoString) (k : Key) (o : Object) : Prop := s.get k = some o ∧ o.controller = some u

/-- Some controlled object under the key has the property. -/
def Server.Has (s : Server) (u : GoString) (k : Key) (P : Object → Prop) : Prop := ∃ o, s.Owned u k o ∧ P o

/-- There is no controlled object under the key. -/
def Server.Lacks (s : Server) (u : GoString) (k : Key) : Prop := ∀ o, ¬s.Owned u k o

/-- What the other clients and components keep. -/
structure Rely (u : GoString) (s s' : Server) : Prop where
  kept : ∀ k o, s.Owned u k o → ∃ o', s'.Owned u k o' ∧ o.drifts o' = true
  none_new : ∀ k o', s'.Owned u k o' → ∃ o, s.Owned u k o
  identity : ∀ r', s'.resource = some r' → ∃ r, s.resource = some r ∧ r'.cr.name = r.cr.name ∧ r'.cr.uid = r.cr.uid

section

variable {u : GoString} {s s' : Server} {k : Key}

theorem Rely.refl (s : Server) : Rely u s s where
  kept _ o h := ⟨o, h, o.drifts_refl⟩
  none_new _ o h := ⟨o, h⟩
  identity r h := ⟨r, h, rfl, rfl⟩

theorem Rely.trans {a b c : Server} (hab : Rely u a b) (hbc : Rely u b c) : Rely u a c where
  kept k o h := by
    obtain ⟨o₁, h₁, hd₁⟩ := hab.kept k o h
    obtain ⟨o₂, h₂, hd₂⟩ := hbc.kept k o₁ h₁
    exact ⟨o₂, h₂, Object.drifts_trans hd₁ hd₂⟩
  none_new k o h := by
    obtain ⟨o₁, h₁⟩ := hbc.none_new k o h
    exact hab.none_new k o₁ h₁
  identity r h := by
    obtain ⟨r₁, h₁, hn₁, hu₁⟩ := hbc.identity r h
    obtain ⟨r₂, h₂, hn₂, hu₂⟩ := hab.identity r₁ h₁
    exact ⟨r₂, h₂, hn₁.trans hn₂, hu₁.trans hu₂⟩

theorem Server.Owned.unique {o o' : Object} (h : s.Owned u k o) (h' : s.Owned u k o') : o = o' :=
  Option.some.inj (h.1.symm.trans h'.1)

theorem Server.Has.imp {P Q : Object → Prop} (h : s.Has u k P) (hPQ : ∀ o, P o → Q o) : s.Has u k Q := by
  obtain ⟨o, ho, hP⟩ := h
  exact ⟨o, ho, hPQ o hP⟩

/-- A property that survives a drift is stable. -/
theorem Server.Has.rely {P : Object → Prop} (hP : ∀ o o', o.drifts o' = true → P o → P o') (h : s.Has u k P)
    (hr : Rely u s s') : s'.Has u k P := by
  obtain ⟨o, ho, hPo⟩ := h
  obtain ⟨o', ho', hd⟩ := hr.kept k o ho
  exact ⟨o', ho', hP o o' hd hPo⟩

theorem Server.Lacks.rely (h : s.Lacks u k) (hr : Rely u s s') : s'.Lacks u k := by
  intro o' ho'
  obtain ⟨o, ho⟩ := hr.none_new k o' ho'
  exact h o ho

/-- Under a key that did not change, nothing changed. -/
theorem Server.Has.same {P : Object → Prop} (h : s.Has u k P) (heq : s'.get k = s.get k) : s'.Has u k P := by
  obtain ⟨o, ho, hP⟩ := h
  exact ⟨o, ⟨heq.trans ho.1, ho.2⟩, hP⟩

theorem Server.Lacks.same (h : s.Lacks u k) (heq : s'.get k = s.get k) : s'.Lacks u k :=
  fun o ho => h o ⟨heq.symm.trans ho.1, ho.2⟩

theorem Server.get_put_ne {o : Object} (h : k ≠ o.key) : (s.put o).get k = s.get k := s.store.get_put_ne h

theorem Server.get_remove_ne {k' : Key} (h : k' ≠ k) : (s.remove k).get k' = s.get k' := s.store.get_remove_ne h

end

/-! ### `ensure` -/

/-- What `ensure` establishes of the object it wants: the selector of a Service, and a gateway spec that is the wanted one
or extends it. -/
structure Fits (wanted o : Object) : Prop where
  selector : o.selector = wanted.selector
  spec : ∀ kind spec status, wanted.body = .gateway kind spec status → Json.nullFree spec = true →
    o.spec = spec ∨ Json.desiredSubset o.spec spec = true

theorem Fits.drifts {wanted o o' : Object} (h : Fits wanted o) (hd : o.drifts o' = true) : Fits wanted o' where
  selector := (Object.drifts_selector hd).trans h.selector
  spec := by
    rw [Object.drifts_spec hd]
    exact h.spec

theorem Fits.admits {wanted o st : Object} (h : Fits wanted o) (hkind : o.body.kind = wanted.body.kind)
    (ha : o.admits st = true) : Fits wanted st where
  selector := (Object.admits_selector ha).trans h.selector
  spec kind spec status hw hn := by
    rw [hw] at hkind
    obtain ⟨kind', spec', status', hb⟩ : ∃ kind' spec' status', o.body = .gateway kind' spec' status' := by
      cases hb : o.body <;> simp [hb, Body.kind] at hkind
      exact ⟨_, _, _, rfl⟩
    have hst := Object.admits_spec ha hb
    have hspec : o.spec = spec' := by simp [Object.spec, hb]
    right
    rcases h.spec kind spec status hw hn with heq | hsub
    · rw [← heq, hspec]
      exact hst
    · rw [hspec] at hsub
      exact Json.desiredSubset_trans hn hst hsub

theorem mutateBody_fits {existing : Bool} {w b b' : Body} (hkind : b.kind = w.kind)
    (h : mutateBody existing w b = .ok b') (n n' : GoString) (c c' : Option GoString) (g g' : ℤ) :
    Fits ⟨n, c, g, w⟩ ⟨n', c', g', b'⟩ := by
  cases w with
  | service wanted =>
    obtain ⟨current, rfl⟩ : ∃ current, b = .service current := by
      cases b <;> simp [Body.kind] at hkind
      exact ⟨_, rfl⟩
    obtain ⟨spec, hspec, rfl⟩ := map_eq_ok h
    exact ⟨(mutateService_ok hspec).1, nofun⟩
  | gateway kind wanted status =>
    obtain ⟨kind', spec, status', rfl⟩ : ∃ kind' spec status', b = .gateway kind' spec status' := by
      cases b <;> simp [Body.kind] at hkind
      exact ⟨_, _, _, rfl⟩
    cases h
    refine ⟨rfl, fun _ _ _ hw _ => ?_⟩
    cases hw
    simp only [Object.spec]
    split_ifs with hsub
    · exact .inr hsub
    · exact .inl rfl
  | serviceAccount | role | roleBinding | statefulSet =>
    have hkind' := (mutateBody_kind h).trans hkind
    refine ⟨?_, nofun⟩
    cases b' <;> simp [Body.kind] at hkind'
    rfl

section

variable {owner : SimpleCacheResource} {wanted o : Object}

theorem mutate_controller {read : Option Object} (h : mutate owner wanted read = .ok o) :
    o.controller = some owner.uid := by
  cases read with
  | none =>
    obtain ⟨_, -, rfl⟩ := mutate_none h
    rfl
  | some e =>
    obtain ⟨-, _, -, rfl⟩ := mutate_some h
    rfl

theorem mutate_key {read : Option Object} (hread : ∀ e, read = some e → e.key = wanted.key)
    (h : mutate owner wanted read = .ok o) : o.key = wanted.key := by
  cases read with
  | none =>
    obtain ⟨body, hbody, rfl⟩ := mutate_none h
    exact congrArg (Key.mk · wanted.name) (mutateBody_kind hbody)
  | some e =>
    obtain ⟨-, body, hbody, rfl⟩ := mutate_some h
    rw [← hread e rfl]
    exact congrArg (Key.mk · e.name) (mutateBody_kind hbody)

theorem mutate_fits {read : Option Object} (hread : ∀ e, read = some e → e.key = wanted.key)
    (h : mutate owner wanted read = .ok o) : Fits wanted o := by
  cases read with
  | none =>
    obtain ⟨body, hbody, rfl⟩ := mutate_none h
    exact mutateBody_fits rfl hbody _ _ _ _ _ _
  | some e =>
    obtain ⟨-, body, hbody, rfl⟩ := mutate_some h
    exact mutateBody_fits (congrArg Key.kind (hread e rfl)) hbody _ _ _ _ _ _

end

/-- Everything that a call of `ensure` can do: nothing, or store what the mutation of the object under the key admits. -/
inductive EnsureStep (owner : SimpleCacheResource) (wanted : Object) (s s' : Server) : Prop
  | same : s' = s → EnsureStep owner wanted s s'
  | put {o st : Object} : mutate owner wanted (s.get wanted.key) = .ok o → o.admits st = true → s' = s.put st →
      EnsureStep owner wanted s s'

section

variable {owner : SimpleCacheResource} {wanted : Object} {s s' : Server}

/-- What is stored, and where. -/
theorem EnsureStep.cases_put (h : EnsureStep owner wanted s s') : s' = s ∨ ∃ st, s' = s.put st ∧ st.key = wanted.key ∧
    st.controller = some owner.uid ∧ Fits wanted st ∧ ∀ e, s.get wanted.key = some e → e.controller = some owner.uid := by
  cases h with
  | same h => exact .inl h
  | @put o st hm ha hs =>
    have hread : ∀ e, s.get wanted.key = some e → e.key = wanted.key := fun e he => Store.get_key he
    have hkey := mutate_key hread hm
    refine .inr ⟨st, hs, (Object.admits_key ha).trans hkey, ?_, ?_, fun e he => ?_⟩
    · exact (Object.admits_iff.mp ha).2.1.trans (mutate_controller hm)
    · exact (mutate_fits hread hm).admits (congrArg Key.kind hkey) ha
    · rw [he] at hm
      exact of_decide_eq_true (mutate_some hm).1

theorem EnsureStep.get_ne (h : EnsureStep owner wanted s s') {k : Key} (hk : k ≠ wanted.key) : s'.get k = s.get k := by
  rcases h.cases_put with rfl | ⟨st, rfl, hkey, -⟩
  · rfl
  · exact Server.get_put_ne (hkey ▸ hk)

theorem EnsureStep.resource (h : EnsureStep owner wanted s s') :
    s'.resource = s.resource ∧ s'.classes = s.classes := by
  rcases h.cases_put with rfl | ⟨st, rfl, -⟩
  · exact ⟨rfl, rfl⟩
  · exact ⟨rfl, rfl⟩

/-- **`ensure` never touches an object of another owner.** -/
theorem EnsureStep.foreign (h : EnsureStep owner wanted s s') {k : Key} {o : Object} (ho : s.get k = some o)
    (hc : o.controller ≠ some owner.uid) : s'.get k = some o := by
  by_cases hk : k = wanted.key
  · subst hk
    rcases h.cases_put with rfl | ⟨st, -, -, -, -, howned⟩
    · exact ho
    · exact absurd (howned o ho) hc
  · rw [h.get_ne hk, ho]

/-- `ensure` keeps the ClusterIP that a Service has. -/
theorem EnsureStep.clusterIP (h : EnsureStep owner wanted s s') {spec : ServiceSpec} (hw : wanted.body = .service spec)
    (hnone : spec.clusterIP ≠ Go.ascii "None") {e : Object} (he : s.get wanted.key = some e) (hip : e.clusterIP ≠ []) :
    ∃ st, s'.get wanted.key = some st ∧ st.clusterIP = e.clusterIP := by
  cases h with
  | same h => exact ⟨e, h ▸ he, rfl⟩
  | @put o st hm ha hs =>
    have hread : ∀ x, s.get wanted.key = some x → x.key = wanted.key := fun x hx => Store.get_key hx
    have hkey := (Object.admits_key ha).trans (mutate_key hread hm)
    rw [he] at hm
    obtain ⟨-, body, hbody, rfl⟩ := mutate_some hm
    obtain ⟨current, hcurrent⟩ : ∃ current, e.body = .service current := by
      have hkind : e.body.kind = wanted.body.kind := congrArg Key.kind (hread e he)
      rw [hw] at hkind
      cases hb : e.body <;> simp [hb, Body.kind] at hkind
      exact ⟨_, rfl⟩
    have heip : e.clusterIP = current.clusterIP := by simp [Object.clusterIP, hcurrent]
    rw [hw, hcurrent] at hbody
    obtain ⟨spec', hspec', rfl⟩ := map_eq_ok hbody
    have hkept : spec'.clusterIP = e.clusterIP := ((mutateService_ok hspec').2 hnone).trans heip.symm
    refine ⟨st, by rw [hs]; exact s.store.get_put_of_eq hkey, ?_⟩
    exact (Object.admits_clusterIP ha (by simpa [Object.clusterIP, hkept] using hip)).trans hkept

/-- The object that `ensure` wanted is there. -/
theorem has_put {st : Object} (hkey : st.key = wanted.key) (hc : st.controller = some owner.uid) (hf : Fits wanted st) :
    (s.put st).Has owner.uid wanted.key (Fits wanted) :=
  ⟨st, ⟨hkey ▸ s.store.get_put st, hc⟩, hf⟩

/-- A call whose error ends the function. -/
theorem wp_api {u : GoString} {c : Call} {G : Server → Server → Prop} {Q : Val c → Server → Prop} {P : Server → Prop}
    (hstable : ∀ s s', P s → Rely u s s' → P s') (hP : P s)
    (h : ∀ s₁ r s₂, P s₁ → s₁.Serves c r s₂ → G s₁ s₂ ∧ ∀ a, r = .ok a → Q a s₂) :
    wp (Rely u) Server.Serves G Q (api c) s := by
  apply wp_bind
  refine wp_request hstable hP fun s₁ r s₂ hP₁ hr => ?_
  obtain ⟨hg, hq⟩ := h s₁ r s₂ hP₁ hr
  refine ⟨hg, wp_ofExcept fun a ha => ?_⟩
  cases r with
  | error e => cases ha
  | ok b =>
    cases ha
    exact hq a rfl

/-- **The specification of `ensure`.**  It stores the wanted object under its key, if that is free or controlled by the
owner; and where it ends without an error, the object is there. -/
theorem wp_ensure (owner : SimpleCacheResource) (wanted : Object) (s : Server) :
    wp (Rely owner.uid) Server.Serves (EnsureStep owner wanted) (fun _ s => s.Has owner.uid wanted.key (Fits wanted))
      (ensure owner wanted) s := by
  have hany : ∀ s s' : Server, True → Rely owner.uid s s' → True := fun _ _ _ _ => trivial
  apply wp_bind
  refine wp_request hany trivial fun s₁ r s₂ _ hr => ?_
  obtain ⟨rfl, hok, hnone⟩ := Server.serves_get hr
  refine ⟨.same rfl, ?_⟩
  cases r with
  | error e =>
    cases e with
    | notFound =>
      apply wp_bind
      refine wp_ofExcept fun o ho => ?_
      have hread : ∀ e, (none : Option Object) = some e → e.key = wanted.key := fun _ => nofun
      have hkey : o.key = wanted.key := mutate_key hread ho
      refine wp_api hany trivial fun s₃ r s₄ _ hr => ?_
      rcases Server.serves_create hr with ⟨rfl, hne⟩ | ⟨hget, st, ha, rfl⟩
      · exact ⟨.same rfl, fun a ha => absurd ha hne⟩
      · have hstep : EnsureStep owner wanted s₃ (s₃.put st) := .put (by rw [← hkey, hget]; exact ho) ha rfl
        exact ⟨hstep, fun _ _ => has_put ((Object.admits_key ha).trans hkey)
          ((Object.admits_iff.mp ha).2.1.trans (mutate_controller ho))
          ((mutate_fits hread ho).admits (congrArg Key.kind hkey) ha)⟩
    | alreadyExists | conflict | other => trivial
  | ok read =>
    have hget := hok read rfl
    have hread : ∀ e, some read = some e → e.key = wanted.key := by
      rintro e ⟨⟩
      exact Store.get_key hget
    apply wp_bind
    refine wp_ofExcept fun o ho => ?_
    have hkey : o.key = wanted.key := mutate_key hread ho
    by_cases heq : o = read
    · -- nothing to write: the object that was read fits
      rw [if_pos heq]
      subst heq
      exact ⟨o, ⟨hget, mutate_controller ho⟩, mutate_fits hread ho⟩
    · rw [if_neg heq]
      refine wp_api hany trivial fun s₃ r s₄ _ hr => ?_
      rcases Server.serves_update hr with ⟨rfl, hne⟩ | ⟨hget', st, ha, rfl⟩
      · exact ⟨.same rfl, fun a ha => absurd ha hne⟩
      · have hstep : EnsureStep owner wanted s₃ (s₃.put st) :=
          .put (by rw [← hread read rfl, hget']; exact ho) ha rfl
        exact ⟨hstep, fun _ _ => has_put ((Object.admits_key ha).trans hkey)
          ((Object.admits_iff.mp ha).2.1.trans (mutate_controller ho))
          ((mutate_fits hread ho).admits (congrArg Key.kind hkey) ha)⟩

end

end SimpleCache.Operator
