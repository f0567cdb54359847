import SimpleCache.Cache.VersionStore
import SimpleCache.Cluster.Protocol

/-!
# Cluster.Server — a client and a handler end to end (`cluster/invalidation.go`, `server.go`)

The two halves of the handler put together over the groups it holds, and the client's call over a transport.  A
notification that is delivered reaches the group, the key and the version it was made for, and its reply is accepted
(`notification_round_trip`).
-/

namespace SimpleCache.Cluster

open Cache (Group ValidKey)
open Go (ascii formatInt parseInt)

/-- `Handler.ServeHTTP` on the groups of the handler: the response, the call of `InvalidateVersion` that it makes, and
the groups afterwards. -/
def Handler.serveHTTP (h : Handler) (held : GoString → Group) (r : Request) (now now' : ℤ) :
    Response × Option (GoString × GoString × ℤ) × (GoString → Group) :=
  match h.route r with
  | .error response => (response, none, held)
  | .ok (group, key, version) =>
    let result := (held group).invalidateVersion key version now now'
    (Handler.reply version result.1, some (group, key, version), Function.update held group result.2)

/-- `Client.InvalidateVersion`; `transport` is `c.http.Do`. -/
def Client.invalidateVersion (c : Client) (group key : GoString) (version : ℤ)
    (transport : Request → Except Err Response) : Except Err Unit :=
  if version < 0 then .error .invalidVersion
  else
    match c.request group key version with
    | none => .error (.message "invalid URL escape")
    | some request =>
      match transport request with
      | .error e => .error e
      | .ok response => check version response

/-- The reply to a call that returned nil is accepted. -/
theorem check_reply_ok {α : Type} {version : ℤ} (hv : 0 ≤ version) (hmax : version ≤ Go.maxInt64) (x : α) :
    check version (Handler.reply version (.ok x)) = .ok () := by
  have hparse : parseInvalidationVersion
      (if version > 0 then [(invalidationVersionHeader, formatInt version)] else []) = .ok version := by
    apply parseInvalidationVersion_formatInt hv hmax
    split_ifs <;> simp [Header.values]
  simp only [check, Handler.reply, ne_eq, not_true_eq_false, if_false, hparse]
  split_ifs <;> rfl

/-! ### The request -/

theorem request_isSome (c : Client) (group key : GoString) (version : ℤ) :
    ∃ r, c.request group key version = some r ∧ r.method = .delete ∧
      r.header.get "Authorization" = ascii "Bearer " ++ c.token := by
  obtain ⟨url, hurl, -⟩ := Option.map_eq_some_iff.mp (target_wire group key)
  unfold Client.request
  rw [hurl]
  exact ⟨_, rfl, rfl, by simp [Header.get, Header.values]⟩

/-- A handler with the client's token and group lets its request through. -/
theorem route_request_ok {h : Handler} {c : Client} {group key : GoString} {version : ℤ} {r : Request}
    (hr : c.request group key version = some r) (hg : group ∈ h.groups) (htoken : h.token ≠ [])
    (hc : c.token = h.token) (hv : 0 ≤ version) (hmax : version ≤ Go.maxInt64) :
    h.route r = .ok (group, key, version) := by
  obtain ⟨hpath, hvals⟩ := request_header hr
  obtain ⟨r', hr', hmethod, hauth⟩ := request_isSome c group key version
  rw [hr, Option.some.injEq] at hr'
  subst hr'
  have hw := target_wire group key
  rw [← hpath] at hw
  obtain ⟨url, hurl, hesc⟩ := Option.map_eq_some_iff.mp hw
  have htarget : url.escapedPath = basePath ++ (Go.pathEscape group ++ 47 :: Go.pathEscape key) := by
    rw [hesc, hpath, target, List.append_assoc]
  have hprefix : basePath.isPrefixOf url.escapedPath = true := by
    rw [htarget, List.isPrefixOf_iff_prefix]
    exact List.prefix_append _ _
  have hparts : splitSlash (url.escapedPath.drop basePath.length) = [Go.pathEscape group, Go.pathEscape key] := by
    rw [htarget, List.drop_left, splitSlash_append _ _ (Go.slash_notMem_pathEscape group)]
  have hok : authorized r h.token = true := by simp [authorized, hauth, hc, htoken]
  unfold Handler.route
  rw [hurl]
  simp only [hmethod, htoken, hok, hprefix, hparts, Go.pathUnescape_pathEscape, hg,
    parseInvalidationVersion_formatInt hv hmax hvals]
  simp

/-- The path of a request determines its group and key. -/
theorem target_inj {group key group' key' : GoString} (h : target group key = target group' key') :
    group = group' ∧ key = key' := by
  unfold target at h
  rw [List.append_assoc, List.append_assoc, List.append_cancel_left_eq] at h
  obtain ⟨hg, hk⟩ := Go.append_sep_inj (Go.slash_notMem_pathEscape group) (Go.slash_notMem_pathEscape group') h
  have hread : ∀ {a b : GoString}, Go.pathEscape a = Go.pathEscape b → a = b := by
    intro a b hab
    have := congrArg Go.pathUnescape hab
    rwa [Go.pathUnescape_pathEscape, Go.pathUnescape_pathEscape, Option.some.injEq] at this
  exact ⟨hread hg, hread hk⟩

/-- A group takes the invalidation of a valid key. -/
theorem invalidateVersion_ok (g : Group) {key : GoString} {version : ℤ} (hkey : ValidKey key) (hv : 0 ≤ version)
    (now now' : ℤ) : ∃ applied, (g.invalidateVersion key version now now').1 = .ok applied := by
  unfold Group.invalidateVersion Cache.validateKey
  rw [if_pos hkey]
  simp only [not_lt.mpr hv, if_false]
  exact ⟨_, rfl⟩

/-- **Notification round trip.**  A delivered request makes the handler call `InvalidateVersion` on the group, the
key and the version of the client and on nothing else, and the client accepts its reply; and the path of a request
belongs to one group and key. -/
theorem notification_round_trip (c : Client) (h : Handler) (held : GoString → Group) (group key : GoString)
    (version now now' : ℤ) (hg : group ∈ h.groups) (htoken : h.token ≠ []) (hc : c.token = h.token)
    (hkey : ValidKey key) (hv : 0 ≤ version) (hmax : version ≤ Go.maxInt64) :
    (∃ r, c.request group key version = some r ∧
      (h.serveHTTP held r now now').2 = (some (group, key, version),
        Function.update held group ((held group).invalidateVersion key version now now').2)) ∧
    c.invalidateVersion group key version (fun r => .ok (h.serveHTTP held r now now').1) = .ok () ∧
    ∀ (c' : Client) (group' key' : GoString) (version' : ℤ) (r r' : Request),
      c.request group key version = some r → c'.request group' key' version' = some r' → r.path = r'.path →
        group = group' ∧ key = key' := by
  obtain ⟨r, hr, -, -⟩ := request_isSome c group key version
  have hroute := route_request_ok hr hg htoken hc hv hmax
  refine ⟨⟨r, hr, by simp only [Handler.serveHTTP, hroute]⟩, ?_, fun c' group' key' version' r₁ r₂ h₁ h₂ hp => ?_⟩
  · obtain ⟨applied, happ⟩ := invalidateVersion_ok (held group) hkey hv now now'
    simp only [Client.invalidateVersion, not_lt.mpr hv, if_false, hr, Handler.serveHTTP, hroute, happ]
    exact check_reply_ok hv hmax applied
  · rw [(request_header h₁).1, (request_header h₂).1] at hp
    exact target_inj hp

/-- The key `a/../%` of the group `g`, whose path has an escape of every kind. -/
theorem notification_round_trip_dotted :
    (⟨[104], [116]⟩ : Client).invalidateVersion [103] (ascii "a/../%") 7
      (fun r => .ok ((⟨[[103]], [116]⟩ : Handler).serveHTTP (fun _ => Cache.smallGroup) r 0 0).1) = .ok () :=
  (notification_round_trip ⟨[104], [116]⟩ ⟨[[103]], [116]⟩ (fun _ => Cache.smallGroup) [103] (ascii "a/../%") 7 0 0
    (by decide) (by decide) rfl (by decide +kernel) (by decide) (by decide)).2.1

end SimpleCache.Cluster
