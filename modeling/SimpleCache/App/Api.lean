import SimpleCache.App.Mutations

/-!
# App.Api — the public API up to the execution of a request (`app/api.go`, `app/mutations_http.go`)

`requestKey` accepts one spelling of every key (`one_wire_form`).  `front` is the part of `mutate` before
`executeMutation`: it turns a request away with an answer, or makes a command of it; `front_ok` says what a command
has passed.
-/

namespace SimpleCache.App

open Cache (ValidKey validateKey maxValueBytes)
open Cluster (Header Request Method authorized parseInvalidationVersion)
open Go (ascii canonicalEscape formatInt parseInt parseQuery trimSpace)

/-! ### The key of a request -/

/-- The error of `requestKey` for a query that is not canonical. -/
def badQuery : Err :=
  .message "requires one canonical key query: percent-encoded UTF-8, uppercase escapes, %20 for spaces"

/-- `requestKey`, on `r.URL.RawQuery`. -/
def requestKey (rawQuery : GoString) : Except Err GoString :=
  let q := parseQuery rawQuery
  if q.2 = true ∨ q.1.length ≠ 1 then .error badQuery
  else
    match q.1.get (ascii "key") with
    | [key] =>
      if Go.validString key = false then .error badQuery
      else
        match validateKey key with
        | .error e => .error e
        | .ok _ => if rawQuery ≠ ascii "key=" ++ canonicalEscape key then .error badQuery else .ok key
    | _ => .error badQuery

theorem validateKey_ok {key : GoString} : validateKey key = .ok () ↔ ValidKey key := by
  unfold validateKey
  split_ifs with h <;> simp [h]

/-- An accepted query is the canonical one of a valid key. -/
theorem requestKey_canonical {q key : GoString} (h : requestKey q = .ok key) :
    ValidKey key ∧ q = ascii "key=" ++ canonicalEscape key := by
  unfold requestKey at h
  dsimp only at h
  split_ifs at h
  split at h
  · next key' _ =>
    cases hvalid : validateKey key' with
    | error e =>
      rw [hvalid] at h
      split_ifs at h
    | ok u =>
      rw [hvalid] at h
      split_ifs at h with _ hwire
      rw [Except.ok.injEq] at h
      subst h
      exact ⟨validateKey_ok.mp hvalid, not_not.mp hwire⟩
  · simp at h

/-- The canonical query of a valid key is accepted. -/
theorem requestKey_of_valid {key : GoString} (h : ValidKey key) :
    requestKey (ascii "key=" ++ canonicalEscape key) = .ok key := by
  have hparse : parseQuery (ascii "key=" ++ canonicalEscape key) = ([(ascii "key", [key])], false) :=
    Go.parseQuery_single (show Go.queryUnescape (ascii "key") = _ by decide) (by decide) key
  unfold requestKey
  simp only [hparse, Go.Values.get]
  simp [h.2.2.1, validateKey_ok.mpr h]

/-- **One wire form per key.**  A query is accepted exactly when it is the canonical query of a valid key, which it
then returns, so accepted queries and valid keys correspond one to one. -/
theorem one_wire_form :
    (∀ q key, requestKey q = .ok key ↔ ValidKey key ∧ q = ascii "key=" ++ canonicalEscape key) ∧
    ∃ decode : { q // ∃ key, requestKey q = .ok key } → { key // ValidKey key },
      Function.Bijective decode ∧ ∀ q, requestKey q.1 = .ok (decode q).1 := by
  have hiff : ∀ q key, requestKey q = .ok key ↔ ValidKey key ∧ q = ascii "key=" ++ canonicalEscape key := by
    refine fun q key => ⟨requestKey_canonical, ?_⟩
    rintro ⟨hkey, rfl⟩
    exact requestKey_of_valid hkey
  refine ⟨hiff, fun q => ⟨q.2.choose, (requestKey_canonical q.2.choose_spec).1⟩, ⟨?_, ?_⟩, fun q => q.2.choose_spec⟩
  · -- two queries of one key are both its canonical query
    rintro ⟨q, hq⟩ ⟨q', hq'⟩ he
    rw [Subtype.mk.injEq] at he ⊢
    rw [(requestKey_canonical hq.choose_spec).2, (requestKey_canonical hq'.choose_spec).2, he]
  · rintro ⟨key, hkey⟩
    have hacc : ∃ k, requestKey (ascii "key=" ++ canonicalEscape key) = .ok k := ⟨key, requestKey_of_valid hkey⟩
    refine ⟨⟨_, hacc⟩, Subtype.ext ?_⟩
    have := hacc.choose_spec.symm.trans (requestKey_of_valid hkey)
    exact Except.ok.inj this

/-! ### Preconditions -/

/-- `versionETag`. -/
def versionETag (version : ℤ) : GoString := ascii "\"v" ++ formatInt version ++ ascii "\""

/-- `mutationPrecondition`: the expected version, or the status and the error of the refusal. -/
def mutationPrecondition (method : Method) (header : Header) : Except (ℕ × Err) ℤ :=
  let matches' := header.values "If-Match"
  let absent := header.values "If-None-Match"
  let bad : Err := .message "require one exact If-Match ETag, or PUT with If-None-Match: *; do not combine them"
  if matches'.length = 0 ∧ absent.length = 0 then
    .error (428, .message "use If-Match with the GET ETag, or If-None-Match: * to create")
  else if matches'.length = 0 ∧ absent.length = 1 ∧ method = .put ∧ trimSpace (absent.headD []) = ascii "*" then .ok 0
  else if matches'.length ≠ 1 ∨ absent.length ≠ 0 then .error (400, bad)
  else
    let raw := trimSpace (matches'.headD [])
    if raw.length < 4 ∨ (ascii "\"v").isPrefixOf raw = false ∨ (ascii "\"").isSuffixOf raw = false then
      .error (400, bad)
    else
      match parseInt ((raw.take (raw.length - 1)).drop 2) with
      | none => .error (400, bad)
      | some version => if version ≤ 0 ∨ raw ≠ versionETag version then .error (400, bad) else .ok version

theorem mutationPrecondition_status {method : Method} {header : Header} {status : ℕ} {e : Err}
    (h : mutationPrecondition method header = .error (status, e)) : status = 400 ∨ status = 428 := by
  unfold mutationPrecondition at h
  dsimp only at h
  split_ifs at h
  · simp only [Except.error.injEq, Prod.mk.injEq] at h
    omega
  · simp only [Except.error.injEq, Prod.mk.injEq] at h
    omega
  · simp only [Except.error.injEq, Prod.mk.injEq] at h
    omega
  · split at h
    · simp only [Except.error.injEq, Prod.mk.injEq] at h
      omega
    · split_ifs at h
      simp only [Except.error.injEq, Prod.mk.injEq] at h
      omega

/-! ### `mutate` before the execution -/

/-- A request of the API. -/
structure ApiRequest extends Request where
  rawQuery : GoString
  /-- What reading the whole body gives. -/
  body : Except Unit GoString
  /-- `r.Context().Err()` after the body has been read. -/
  ctx : Option Err

/-- What `mutate` writes. -/
inductive Answer
  /-- Nothing: the client has gone. -/
  | gone
  /-- `http.Error`. -/
  | text (status : ℕ) (header : Header) (body : String)
  | json (status : ℕ) (header : Header) (response : MutationResponse)
  deriving DecidableEq, Repr

def Answer.status : Answer → Option ℕ
  | .gone => none
  | .text status _ _ => some status
  | .json status _ _ => some status

def Answer.header : Answer → Header
  | .gone => []
  | .text _ header _ => header
  | .json _ header _ => header

/-- `Cache-Control: no-store`. -/
def noStore : String × GoString := ("Cache-Control", ascii "no-store")

/-- The body of a PUT, read under `MaxBytesReader`; `jsonValid` is `json.Valid`. -/
def readBody (jsonValid : GoString → Bool) (r : ApiRequest) : Except Answer GoString :=
  if r.method = .put then
    match r.body with
    | .error _ => .error (.text 413 [] "invalid or oversized request body")
    | .ok value =>
      if value.length > maxValueBytes then .error (.text 413 [] "invalid or oversized request body")
      else if jsonValid value = false then .error (.text 400 [] "product detail must be valid JSON")
      else .ok value
  else .ok []

/-- `mutate` up to the admission by a write slot: the key and the version of the request. -/
def validateMutation (token : GoString) (invalidateOnly : Bool) (r : ApiRequest) : Except Answer (GoString × ℤ) :=
  if authorized r.toRequest token = false then .error (.text 401 [] "unauthorized")
  else
    match requestKey r.rawQuery with
    | .error e => .error (.text 400 [] e.text)
    | .ok key =>
      match validateKey key with
      | .error e => .error (.text 400 [] e.text)
      | .ok _ =>
        match parseInvalidationVersion r.header with
        | .error e => .error (.text 400 [] e.text)
        | .ok version =>
          if invalidateOnly = false ∧ version ≠ 0 then
            .error (.text 400 [] "invalidation version is only accepted on POST /invalidate")
          else .ok (key, version)

/-- The expected version of a PUT or DELETE. -/
def expectedVersion (invalidateOnly : Bool) (r : ApiRequest) : Except Answer ℤ :=
  if invalidateOnly then .ok 0
  else
    match mutationPrecondition r.method r.header with
    | .error (status, e) => .error (.text status [noStore] e.text)
    | .ok expected => .ok expected

/-- The kind of the command of a request. -/
def mutationKind (invalidateOnly : Bool) (method : Method) : MutationKind :=
  if invalidateOnly then .notify else if method = .put then .put else .delete

/-- `mutate` up to the call of `executeMutation`: the answer to a request that is turned away, or its command.
`free` says whether a write slot is free. -/
def front (jsonValid : GoString → Bool) (token : GoString) (invalidateOnly : Bool) (r : ApiRequest) (free : Bool) :
    Except Answer MutationCommand :=
  match validateMutation token invalidateOnly r with
  | .error a => .error a
  | .ok (key, version) =>
    if free = false then .error (.text 503 [("Retry-After", ascii "1"), noStore] Err.overloaded.text)
    else
      match readBody jsonValid r with
      | .error a => .error a
      | .ok value =>
        match r.ctx with
        | some _ => .error .gone
        | none =>
          match expectedVersion invalidateOnly r with
          | .error a => .error a
          | .ok expected => .ok ⟨mutationKind invalidateOnly r.method, key, value, expected, version⟩

section Front

variable {jsonValid : GoString → Bool} {token : GoString} {invalidateOnly free : Bool} {r : ApiRequest}

theorem validateMutation_ok {key : GoString} {version : ℤ}
    (h : validateMutation token invalidateOnly r = .ok (key, version)) :
    ValidKey key ∧ parseInvalidationVersion r.header = .ok version ∧ (invalidateOnly = false → version = 0) := by
  unfold validateMutation at h
  split_ifs at h
  cases hq : requestKey r.rawQuery with
  | error e => rw [hq] at h; simp at h
  | ok key' =>
    rw [hq] at h
    simp only [validateKey_ok.mpr (requestKey_canonical hq).1] at h
    cases hp : parseInvalidationVersion r.header with
    | error e => rw [hp] at h; simp at h
    | ok version' =>
      rw [hp] at h
      simp only at h
      split_ifs at h with hbad
      simp only [Except.ok.injEq, Prod.mk.injEq] at h
      obtain ⟨rfl, rfl⟩ := h
      exact ⟨(requestKey_canonical hq).1, rfl, fun hi => by_contra fun hv => hbad ⟨hi, hv⟩⟩

/-- **What a command has passed.** -/
theorem front_ok {c : MutationCommand} (h : front jsonValid token invalidateOnly r free = .ok c) :
    ValidKey c.key ∧ parseInvalidationVersion r.header = .ok c.version ∧
      c.kind = mutationKind invalidateOnly r.method ∧ (invalidateOnly = false → c.version = 0) := by
  unfold front at h
  cases hv : validateMutation token invalidateOnly r with
  | error a => rw [hv] at h; simp at h
  | ok kv =>
    obtain ⟨hkey, hparse, hzero⟩ := validateMutation_ok hv
    rw [hv] at h
    simp only at h
    split_ifs at h
    cases hb : readBody jsonValid r with
    | error a => rw [hb] at h; simp at h
    | ok value =>
      cases hc : r.ctx with
      | some e => rw [hb, hc] at h; simp at h
      | none =>
        cases he : expectedVersion invalidateOnly r with
        | error a => rw [hb, hc, he] at h; simp at h
        | ok expected =>
          rw [hb, hc, he] at h
          rw [Except.ok.injEq] at h
          subst h
          exact ⟨hkey, hparse, rfl, hzero⟩

/-- The answers to requests that are turned away. -/
def TurnedAway : Answer → Prop
  | .gone => True
  | .text status _ _ => status ∈ [400, 401, 413, 428, 503]
  | .json .. => False

/-- A refusal by `http.Error` with the headers that were set before. -/
def Refusal (header : Header) (a : Answer) : Prop :=
  ∃ status body, a = .text status header body ∧ status ∈ [400, 401, 413, 428, 503]

theorem Refusal.turnedAway {header : Header} {a : Answer} (h : Refusal header a) : TurnedAway a := by
  obtain ⟨status, body, rfl, hs⟩ := h
  exact hs

theorem Refusal.header_eq {header : Header} {a : Answer} (h : Refusal header a) : a.header = header := by
  obtain ⟨status, body, rfl, -⟩ := h
  rfl

theorem readBody_error {a : Answer} (h : readBody jsonValid r = .error a) : Refusal [] a := by
  unfold readBody at h
  repeat' split at h
  all_goals first
    | exact ⟨_, _, (Except.error.inj h).symm, by simp⟩
    | cases h

theorem validateMutation_error {a : Answer} (h : validateMutation token invalidateOnly r = .error a) :
    Refusal [] a := by
  unfold validateMutation at h
  repeat' split at h
  all_goals first
    | exact ⟨_, _, (Except.error.inj h).symm, by simp⟩
    | cases h

theorem expectedVersion_error {a : Answer} (h : expectedVersion invalidateOnly r = .error a) :
    Refusal [noStore] a := by
  unfold expectedVersion at h
  split_ifs at h
  split at h
  · next status e hp =>
    refine ⟨_, _, (Except.error.inj h).symm, ?_⟩
    rcases mutationPrecondition_status hp with rfl | rfl <;> simp
  · cases h

/-- **A request that is turned away** is one of a client that has gone, or is refused without an entity tag. -/
theorem front_error {a : Answer} (h : front jsonValid token invalidateOnly r free = .error a) :
    a = .gone ∨ ∃ header, Refusal header a ∧ header.values "ETag" = [] := by
  unfold front at h
  split at h
  · next hv => exact .inr ⟨[], Except.error.inj h ▸ validateMutation_error hv, rfl⟩
  split_ifs at h
  · exact .inr ⟨_, ⟨_, _, (Except.error.inj h).symm, by simp⟩, by decide⟩
  split at h
  · next hb => exact .inr ⟨[], Except.error.inj h ▸ readBody_error hb, rfl⟩
  split at h
  · exact .inl (Except.error.inj h).symm
  split at h
  · next he => exact .inr ⟨[noStore], Except.error.inj h ▸ expectedVersion_error he, by decide⟩
  · cases h

theorem front_status {a : Answer} (h : front jsonValid token invalidateOnly r free = .error a) : TurnedAway a := by
  rcases front_error h with rfl | ⟨header, hrefusal, -⟩
  · trivial
  · exact hrefusal.turnedAway

end Front

end SimpleCache.App
