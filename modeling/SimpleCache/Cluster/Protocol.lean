import SimpleCache.Cache.Errors
import SimpleCache.Go.Url

/-!
# Cluster.Protocol — one notification on the wire (`cluster/protocol.go`, `invalidation.go`, `server.go`)

A client asks a member to invalidate one key: a DELETE of the escaped group and key, with the version in a header.
The handler reads them back, calls `InvalidateVersion` and echoes the version.  The call itself belongs to the
group, so the handler is cut in two: `route` runs up to the call and `reply` answers with its result.

Whatever the handler is, it never reads another key or version out of a client's request than the client put in
(`route_request`), and a reply that the client accepts says that the call returned nil (`check_reply`).
-/

namespace SimpleCache.Cluster

open Go (ascii formatInt parseInt setPath pathEscape pathUnescape)

/-- An `http.Header`: canonical names with their values, in order. -/
abbrev Header := List (String × GoString)

/-- `header.Values(name)`. -/
def Header.values (h : Header) (name : String) : List GoString := (h.filter fun p => p.1 = name).map Prod.snd

/-- `header.Get(name)`. -/
def Header.get (h : Header) (name : String) : GoString := (h.values name).headD []

inductive Method
  | get
  | put
  | post
  | delete
  | other
  deriving DecidableEq, Repr

/-- A request as its line and headers are sent; `path` is the path of the request line. -/
structure Request where
  method : Method
  path : GoString
  header : Header
  deriving DecidableEq, Repr

structure Response where
  status : ℕ
  header : Header
  body : String
  deriving DecidableEq, Repr

/-- `BasePath`. -/
def basePath : GoString := ascii "/_simplecache/invalidate/"

/-- `InvalidationVersionHeader`. -/
def invalidationVersionHeader : String := "X-SimpleCache-Invalidation-Version"

/-- `ErrUnversionedInvalidation`. -/
def errUnversionedInvalidation : Err := .message "member did not acknowledge version-aware invalidation"

/-- `ParseInvalidationVersion`. -/
def parseInvalidationVersion (header : Header) : Except Err ℤ :=
  match header.values invalidationVersionHeader with
  | [] => .ok 0
  | [value] =>
    match parseInt value with
    | none => .error .invalidVersion
    | some version => if version ≤ 0 ∨ formatInt version ≠ value then .error .invalidVersion else .ok version
  | _ => .error .invalidVersion

/-- `Authorized`. -/
def authorized (r : Request) (token : GoString) : Bool :=
  token ≠ [] && r.header.get "Authorization" = ascii "Bearer " ++ token

/-- `Status`. -/
def statusOf : Err → ℕ
  | .notFound => 404
  | .invalidKey | .invalidVersion => 400
  | .deadlineExceeded | .canceled => 504
  | _ => 503

/-! ### The client -/

/-- A `Client`: where it sends to, and its token. -/
structure Client where
  address : GoString
  token : GoString
  deriving DecidableEq, Repr

/-- The path of the request URL. -/
def target (group key : GoString) : GoString := basePath ++ pathEscape group ++ 47 :: pathEscape key

/-- The request that `Client.InvalidateVersion` sends, if the URL takes the address for a host and the context is live:
the URL is parsed and its escaped path written on the request line. -/
def Client.request (c : Client) (group key : GoString) (version : ℤ) : Option Request :=
  (setPath (target group key)).map fun url =>
    ⟨.delete, url.escapedPath, ("Authorization", ascii "Bearer " ++ c.token) ::
      if version > 0 then [(invalidationVersionHeader, formatInt version)] else []⟩

/-- How `Client.InvalidateVersion` reads the response. -/
def check (version : ℤ) (r : Response) : Except Err Unit :=
  if r.status ≠ 204 then .error (.message "member did not acknowledge invalidation")
  else if version > 0 then
    match parseInvalidationVersion r.header with
    | .error _ => .error errUnversionedInvalidation
    | .ok ack => if ack ≠ version then .error errUnversionedInvalidation else .ok ()
  else .ok ()

/-! ### The handler -/

/-- A `Handler`: the names of its groups, and its token. -/
structure Handler where
  groups : List GoString
  token : GoString

/-- `strings.SplitN(s, "/", 2)`. -/
def splitSlash (s : GoString) : List GoString :=
  match s.dropWhile fun c => c ≠ 47 with
  | [] => [s]
  | _ :: b => [s.takeWhile fun c => c ≠ 47, b]

/-- `Handler.ServeHTTP` up to the call of `InvalidateVersion`: the response of a request that is turned away, or the
group, the key and the version. -/
def Handler.route (h : Handler) (r : Request) : Except Response (GoString × GoString × ℤ) :=
  match setPath r.path with
  -- net/http turns a malformed request line away itself
  | none => .error ⟨400, [], "400 Bad Request"⟩
  | some url =>
    if r.method ≠ .delete ∨ h.token = [] then .error ⟨405, [("Allow", ascii "DELETE")], "method not allowed"⟩
    else if authorized r h.token = false then .error ⟨401, [], "unauthorized"⟩
    else if basePath.isPrefixOf url.escapedPath = false then .error ⟨404, [], "404 page not found"⟩
    else
      match splitSlash (url.escapedPath.drop basePath.length) with
      | [part₀, part₁] =>
        match pathUnescape part₀, pathUnescape part₁ with
        | some group, some key =>
          if group ∉ h.groups then .error ⟨404, [], "group not found"⟩
          else
            match parseInvalidationVersion r.header with
            | .error e => .error ⟨statusOf e, [], e.text⟩
            | .ok version => .ok (group, key, version)
        | _, _ => .error ⟨400, [], "bad encoding"⟩
      | _ => .error ⟨400, [], "bad member path"⟩

/-- The end of `Handler.ServeHTTP`, on the result of `InvalidateVersion`. -/
def Handler.reply {α : Type} (version : ℤ) : Except Err α → Response
  | .error e => ⟨statusOf e, [], e.text⟩
  | .ok _ => ⟨204, if version > 0 then [(invalidationVersionHeader, formatInt version)] else [], ""⟩

/-! ### What goes through -/

/-- A parsed version is the one that was printed. -/
theorem parseInvalidationVersion_ok {header : Header} {version : ℤ}
    (h : parseInvalidationVersion header = .ok version) :
    (version = 0 ∧ header.values invalidationVersionHeader = []) ∨
    (0 < version ∧ header.values invalidationVersionHeader = [formatInt version]) := by
  unfold parseInvalidationVersion at h
  split at h
  · next hv => exact Or.inl ⟨(Except.ok.inj h).symm, hv⟩
  · next value hv =>
    cases hp : parseInt value with
    | none => rw [hp] at h; simp at h
    | some v =>
      rw [hp] at h
      simp only at h
      split_ifs at h with hbad
      obtain rfl := Except.ok.inj h
      simp only [not_or, not_le, not_not] at hbad
      exact Or.inr ⟨hbad.1, by rw [hv, hbad.2]⟩
  · simp at h

/-- A header with one printed version is read back. -/
theorem parseInvalidationVersion_formatInt {header : Header} {version : ℤ} (hv : 0 ≤ version)
    (hmax : version ≤ Go.maxInt64)
    (h : header.values invalidationVersionHeader = if version > 0 then [formatInt version] else []) :
    parseInvalidationVersion header = .ok version := by
  unfold parseInvalidationVersion
  rw [h]
  by_cases h0 : version > 0
  · simp only [if_pos h0, Go.parseInt_formatInt hv hmax]
    rw [if_neg (by simp; omega)]
  · have hz : version = 0 := by omega
    simp [hz]

/-- What an accepted reply says: 204, with the version echoed. -/
theorem check_ok {version : ℤ} {r : Response} (h : check version r = .ok ()) :
    r.status = 204 ∧ (0 < version → r.header.values invalidationVersionHeader = [formatInt version]) := by
  unfold check at h
  by_cases hs : r.status ≠ 204
  · rw [if_pos hs] at h
    simp at h
  rw [if_neg hs] at h
  refine ⟨not_not.mp hs, fun hv => ?_⟩
  rw [if_pos hv] at h
  cases hp : parseInvalidationVersion r.header with
  | error e => rw [hp] at h; simp at h
  | ok ack =>
    rw [hp] at h
    simp only at h
    split_ifs at h with hne
    rw [not_not] at hne
    subst hne
    rcases parseInvalidationVersion_ok hp with ⟨h0, -⟩ | ⟨-, hvals⟩
    · omega
    · exact hvals

/-- The status of an error is one of four. -/
theorem statusOf_mem (e : Err) : statusOf e ∈ [400, 404, 503, 504] := by
  cases e <;> simp [statusOf]

theorem statusOf_ne (e : Err) {status : ℕ} (h : status ∉ [400, 404, 503, 504]) : statusOf e ≠ status :=
  fun heq => h (heq ▸ statusOf_mem e)

/-- **An accepted reply of the handler says that the call returned nil.** -/
theorem check_reply {α : Type} {version v : ℤ} {r : Except Err α} (h : check version (Handler.reply v r) = .ok ()) :
    ∃ x, r = .ok x := by
  cases r with
  | error e => exact absurd (check_ok h).1 (statusOf_ne e (by decide))
  | ok x => exact ⟨x, rfl⟩

theorem splitSlash_append (a b : GoString) (h : (47 : UInt8) ∉ a) : splitSlash (a ++ 47 :: b) = [a, b] := by
  have hall : ∀ x ∈ a, decide (x ≠ 47) = true := fun x hx => decide_eq_true (fun he => h (he ▸ hx))
  unfold splitSlash
  rw [List.dropWhile_append_of_pos hall, List.takeWhile_append_of_pos hall]
  simp

/-- The path of a client's request is parsed and printed unchanged, on both sides. -/
theorem target_wire (group key : GoString) :
    (setPath (target group key)).map Go.Url.escapedPath = some (target group key) := by
  have hbase : ∀ rest, Go.unescape (basePath ++ rest) = (Go.unescape rest).map (basePath ++ ·) := by
    have he : basePath = Go.escape .path basePath := by decide
    intro rest
    conv_lhs => rw [he]
    exact Go.unescape_escape_append .path basePath rest
  have hpath : Go.unescape (target group key) = some (basePath ++ (group ++ 47 :: key)) := by
    unfold target
    rw [List.append_assoc, hbase, show pathEscape group = Go.escape .segment group from rfl,
      Go.unescape_escape_append, Go.unescape_cons (by decide)]
    rw [show Go.unescape (pathEscape key) = some key from Go.pathUnescape_pathEscape key]
    rfl
  refine Go.escapedPath_setPath hpath ?_ (by simp [basePath, ascii]) (by simp [target, basePath, ascii])
  unfold target
  rw [Go.validEncoded_append, Go.validEncoded_append, Go.validEncoded_pathEscape,
    show (47 : UInt8) :: pathEscape key = [47] ++ pathEscape key from rfl, Go.validEncoded_append,
    Go.validEncoded_pathEscape]
  decide

/-- The values of the version header of a client's request. -/
theorem request_header {c : Client} {group key : GoString} {version : ℤ} {r : Request}
    (h : c.request group key version = some r) :
    r.path = target group key ∧ r.header.values invalidationVersionHeader =
      if version > 0 then [formatInt version] else [] := by
  unfold Client.request at h
  obtain ⟨url, hurl, rfl⟩ := Option.map_eq_some_iff.mp h
  have hw := target_wire group key
  rw [hurl, Option.map_some, Option.some.injEq] at hw
  refine ⟨hw, ?_⟩
  simp only [Header.values, invalidationVersionHeader]
  split_ifs with hv
  · simp
  · simp

/-- **A handler reads the client's key and version out of its request, or turns it away.** -/
theorem route_request {h : Handler} {c : Client} {group key : GoString} {version : ℤ} {r : Request}
    (hr : c.request group key version = some r) (hv : 0 ≤ version) :
    (h.route r = .ok (group, key, version) ∧ group ∈ h.groups) ∨
      ∃ resp, h.route r = .error resp ∧ resp.status ≠ 204 := by
  obtain ⟨hpath, hvals⟩ := request_header hr
  have hw := target_wire group key
  rw [← hpath] at hw
  obtain ⟨url, hurl, hesc⟩ := Option.map_eq_some_iff.mp hw
  have hparts : splitSlash (url.escapedPath.drop basePath.length) = [pathEscape group, pathEscape key] := by
    rw [hesc, hpath, target, List.append_assoc, List.drop_left,
      splitSlash_append _ _ (Go.slash_notMem_pathEscape group)]
  unfold Handler.route
  rw [hurl]
  simp only [hparts, Go.pathUnescape_pathEscape]
  split_ifs with _ _ _ hg
  · exact Or.inr ⟨_, rfl, by decide⟩
  · exact Or.inr ⟨_, rfl, by decide⟩
  · exact Or.inr ⟨_, rfl, by decide⟩
  · cases hp : parseInvalidationVersion r.header with
    | error e => exact Or.inr ⟨_, rfl, statusOf_ne e (by decide)⟩
    | ok v =>
      refine Or.inl ⟨?_, hg⟩
      have : v = version := by
        rcases parseInvalidationVersion_ok hp with ⟨rfl, hnil⟩ | ⟨hpos, hone⟩
        · rw [hvals] at hnil
          split_ifs at hnil with h0
          · omega
        · rw [hvals] at hone
          split_ifs at hone with h0
          · exact (Go.formatInt_injective (List.cons.inj hone).1).symm
      rw [this]
  · exact Or.inr ⟨_, rfl, by decide⟩

end SimpleCache.Cluster
