import SimpleCache.App.Exchange

/-!
# App.Versions — the version headers (`app/mutations_http.go`, `cluster/protocol.go`)

`mutationPrecondition` and `ParseInvalidationVersion` accept one spelling of every version.  `Verdict` says what
`mutationPrecondition` answers to which header values, `checkedPrecondition` is the function with the index and slice
expressions of Go, which can panic, and `version_headers_exact` puts them together with the ETags that the API sends.
-/

namespace SimpleCache.App

open Cluster (Header Method parseInvalidationVersion)
open Go (ascii formatInt maxInt64 parseInt trimSpace)

theorem versionETag_eq (v : ℤ) : versionETag v = 34 :: ((118 :: formatInt v) ++ [34]) := rfl

theorem trimSpace_versionETag (v : ℤ) : trimSpace (versionETag v) = versionETag v := by
  rw [versionETag_eq, Go.trimSpace_quoted]

theorem versionETag_injective : Function.Injective versionETag := by
  intro v w h
  simp only [versionETag_eq, List.cons.injEq, true_and, List.cons_append] at h
  exact Go.formatInt_injective (List.append_inj_left' h rfl)

/-! ### Preconditions -/

/-- The text of the entity tag, with the checks of `mutationPrecondition` around it. -/
theorem etag_checks (v : ℤ) : ¬((versionETag v).length < 4 ∨ (ascii "\"v").isPrefixOf (versionETag v) = false ∨
      (ascii "\"").isSuffixOf (versionETag v) = false) ∧
    ((versionETag v).take ((versionETag v).length - 1)).drop 2 = formatInt v := by
  have hpos : 0 < (formatInt v).length := List.length_pos_iff.mpr (Go.formatInt_ne_nil v)
  have hlen : (versionETag v).length = (formatInt v).length + 3 := by simp [versionETag_eq]
  have hfront : ascii "\"v" = [34, 118] := by decide
  have hback : ascii "\"" = [34] := by decide
  constructor
  · rw [hfront, hback, hlen]
    rintro (h | h | h)
    · omega
    · simp [versionETag_eq] at h
    · rw [← Bool.not_eq_true, List.isSuffixOf_iff_suffix] at h
      exact h ⟨34 :: 118 :: formatInt v, by simp [versionETag_eq]⟩
  · have hsplit : versionETag v = (34 :: 118 :: formatInt v) ++ [34] := by simp [versionETag_eq]
    rw [hsplit, List.length_append, List.length_singleton, Nat.add_sub_cancel, List.take_left]
    rfl

/-- What `mutationPrecondition` answers to a list of If-Match and a list of If-None-Match values. -/
inductive Verdict (method : Method) : List GoString → List GoString → Except (ℕ × Err) ℤ → Prop
  | required {e : Err} : Verdict method [] [] (.error (428, e))
  | create {value : GoString} (hput : method = .put) (hstar : trimSpace value = ascii "*") :
      Verdict method [] [value] (.ok 0)
  | replace {value : GoString} {v : ℤ} (hetag : trimSpace value = versionETag v) (hpos : 0 < v) (hmax : v ≤ maxInt64) :
      Verdict method [value] [] (.ok v)
  | bad {matches' absent : List GoString} {e : Err} (hsome : matches' ≠ [] ∨ absent ≠ [])
      (hcreate : ∀ value, matches' = [] → absent = [value] → method = .put → trimSpace value ≠ ascii "*")
      (hreplace : ∀ value v, matches' = [value] → absent = [] → 0 < v → v ≤ maxInt64 →
        trimSpace value ≠ versionETag v) : Verdict method matches' absent (.error (400, e))

theorem Verdict.single {method : Method} {value : GoString} {e : Err}
    (h : ∀ v, 0 < v → v ≤ maxInt64 → trimSpace value ≠ versionETag v) :
    Verdict method [value] [] (.error (400, e)) := by
  refine .bad (.inl (List.cons_ne_nil _ _)) nofun ?_
  rintro value' v hv - hpos hmax
  exact List.singleton_inj.mp hv ▸ h v hpos hmax

theorem mutationPrecondition_verdict (method : Method) (header : Header) :
    Verdict method (header.values "If-Match") (header.values "If-None-Match") (mutationPrecondition method header) := by
  unfold mutationPrecondition
  dsimp only
  generalize header.values "If-Match" = matches'
  generalize header.values "If-None-Match" = absent
  split_ifs with hnone hcreate hmany hshape
  · obtain ⟨hm, ha⟩ := hnone
    rw [List.length_eq_zero_iff.mp hm, List.length_eq_zero_iff.mp ha]
    exact .required
  · obtain ⟨hm, ha, hput, hstar⟩ := hcreate
    obtain ⟨value, rfl⟩ := List.length_eq_one_iff.mp ha
    rw [List.length_eq_zero_iff.mp hm]
    exact .create hput hstar
  · refine .bad ?_ ?_ ?_
    · rw [← not_and_or]
      rintro ⟨rfl, rfl⟩
      exact hnone ⟨rfl, rfl⟩
    · rintro value rfl rfl hput hstar
      exact hcreate ⟨rfl, rfl, hput, hstar⟩
    · rintro value v rfl rfl
      simp at hmany
  · -- one If-Match value that is too short or not quoted
    rw [not_or, not_not, not_not] at hmany
    obtain ⟨value, rfl⟩ := List.length_eq_one_iff.mp hmany.1
    obtain rfl := List.length_eq_zero_iff.mp hmany.2
    refine .single fun v _ _ hetag => ?_
    rw [List.headD_cons, hetag] at hshape
    exact (etag_checks v).1 hshape
  · rw [not_or, not_not, not_not] at hmany
    obtain ⟨value, rfl⟩ := List.length_eq_one_iff.mp hmany.1
    obtain rfl := List.length_eq_zero_iff.mp hmany.2
    rw [List.headD_cons]
    generalize hraw : trimSpace value = raw
    have hback : ∀ v, 0 < v → v ≤ maxInt64 → raw = versionETag v →
        parseInt ((raw.take (raw.length - 1)).drop 2) = some v := by
      rintro v hpos hmax rfl
      rw [(etag_checks v).2, Go.parseInt_formatInt hpos.le hmax]
    cases hp : parseInt ((raw.take (raw.length - 1)).drop 2) with
    | none =>
      refine .single fun v hpos hmax hetag => ?_
      rw [hback v hpos hmax (hraw.symm.trans hetag)] at hp
      cases hp
    | some version =>
      dsimp only
      split_ifs with hwrong
      · refine .single fun v hpos hmax hetag => ?_
        have hetag' := hraw.symm.trans hetag
        rw [hback v hpos hmax hetag', Option.some.injEq] at hp
        rcases hwrong with hle | hne
        · omega
        · exact hne (hp ▸ hetag')
      · rw [not_or, not_le, not_not] at hwrong
        exact .replace (hraw.trans hwrong.2) hwrong.1 (Go.parseInt_le hp)

/-- `mutationPrecondition` with the index and slice expressions that Go checks when it runs; `none` is a panic. -/
def checkedPrecondition (method : Method) (header : Header) : Option (Except (ℕ × Err) ℤ) :=
  let matches' := header.values "If-Match"
  let absent := header.values "If-None-Match"
  let bad : Err := .message "require one exact If-Match ETag, or PUT with If-None-Match: *; do not combine them"
  if matches'.length = 0 ∧ absent.length = 0 then
    some (.error (428, .message "use If-Match with the GET ETag, or If-None-Match: * to create"))
  else
    -- the last operand of the conjunction is evaluated only if the others hold
    (if matches'.length = 0 ∧ absent.length = 1 ∧ method = .put then
      absent[0]?.map fun value => decide (trimSpace value = ascii "*")
    else some false).bind fun create =>
      if create = true then some (.ok 0)
      else if matches'.length ≠ 1 ∨ absent.length ≠ 0 then some (.error (400, bad))
      else
        matches'[0]?.bind fun value =>
          let raw := trimSpace value
          if raw.length < 4 ∨ (ascii "\"v").isPrefixOf raw = false ∨ (ascii "\"").isSuffixOf raw = false then
            some (.error (400, bad))
          else
            (Go.slice raw 2 (raw.length - 1)).map fun digits =>
              match parseInt digits with
              | none => .error (400, bad)
              | some version => if version ≤ 0 ∨ raw ≠ versionETag version then .error (400, bad) else .ok version

/-- **No index and no slice is out of range.** -/
theorem checkedPrecondition_eq (method : Method) (header : Header) :
    checkedPrecondition method header = some (mutationPrecondition method header) := by
  unfold checkedPrecondition mutationPrecondition
  dsimp only
  generalize header.values "If-Match" = matches'
  generalize header.values "If-None-Match" = absent
  by_cases hnone : matches'.length = 0 ∧ absent.length = 0
  · rw [if_pos hnone, if_pos hnone]
  rw [if_neg hnone, if_neg hnone]
  by_cases hone : matches'.length = 0 ∧ absent.length = 1 ∧ method = .put
  · obtain ⟨hm, ha, hput⟩ := hone
    obtain ⟨value, rfl⟩ := List.length_eq_one_iff.mp ha
    by_cases hstar : trimSpace value = ascii "*" <;> simp [hm, hput, hstar]
  · have hcreate : ¬(matches'.length = 0 ∧ absent.length = 1 ∧ method = .put ∧
        trimSpace (absent.headD []) = ascii "*") := fun h => hone ⟨h.1, h.2.1, h.2.2.1⟩
    rw [if_neg hone, Option.bind_some, if_neg Bool.false_ne_true, if_neg hcreate]
    by_cases hmany : matches'.length ≠ 1 ∨ absent.length ≠ 0
    · rw [if_pos hmany, if_pos hmany]
    rw [if_neg hmany, if_neg hmany]
    rw [not_or, not_not, not_not] at hmany
    obtain ⟨value, rfl⟩ := List.length_eq_one_iff.mp hmany.1
    rw [List.getElem?_cons_zero, Option.bind_some, List.headD_cons]
    generalize trimSpace value = raw
    by_cases hshape : raw.length < 4 ∨ (ascii "\"v").isPrefixOf raw = false ∨ (ascii "\"").isSuffixOf raw = false
    · rw [if_pos hshape, if_pos hshape]
    rw [if_neg hshape, if_neg hshape]
    have hlen : 4 ≤ raw.length := not_lt.mp fun h => hshape (.inl h)
    have hbounds : (0 : ℤ) ≤ 2 ∧ (2 : ℤ) ≤ (raw.length : ℤ) - 1 ∧ (raw.length : ℤ) - 1 ≤ raw.length := by omega
    have hstop : ((raw.length : ℤ) - 1).toNat = raw.length - 1 := by omega
    rw [Go.slice, if_pos hbounds, hstop, Option.map_some]
    rfl

/-! ### The entity tags that the API sends -/

/-- The headers that a GET sets for the result of `Group.Get`. -/
def readHeader : Except Err Cache.ByteView → Header
  | .error e => if e = .overloaded then [("Retry-After", ascii "1")] else []
  | .ok value =>
    ("Content-Type", ascii "application/octet-stream") ::
      if value.version > 0 then [("ETag", versionETag value.version)] else []

theorem readHeader_etag {result : Except Err Cache.ByteView} {etag : GoString}
    (h : etag ∈ (readHeader result).values "ETag") :
    ∃ value, result = .ok value ∧ 0 < value.version ∧ etag = versionETag value.version := by
  cases result with
  | error e =>
    rw [readHeader] at h
    split_ifs at h <;> simp [Header.values] at h
  | ok value =>
    rw [readHeader] at h
    split_ifs at h with hv
    · exact ⟨value, rfl, hv, by simpa [Header.values] using h⟩
    · simp [Header.values] at h

/-- The entity tag of a mutation is that of the version it has written. -/
theorem answerOf_etag {method : Method} {o : MutationOutcome} {etag : GoString}
    (h : etag ∈ (answerOf method o).header.values "ETag") :
    ∃ v, o.response.sourceVersion = some v ∧ etag = versionETag v := by
  unfold answerOf at h
  dsimp only at h
  split_ifs at h
  · simp [Answer.header, noStore, Header.values] at h
  · cases hb : o.broadcastErr with
    | some e => simp [hb, Answer.header, noStore, Header.values] at h
    | none =>
      rw [hb] at h
      dsimp only [Answer.header] at h
      split at h
      · next v _ hv =>
        exact ⟨v, hv, by simpa [noStore, Header.values] using h⟩
      · simp [noStore, Header.values] at h

/-- A request that is turned away gets no entity tag. -/
theorem front_etag {jsonValid : GoString → Bool} {token : GoString} {invalidateOnly free : Bool} {r : ApiRequest}
    {a : Answer} (h : front jsonValid token invalidateOnly r free = .error a) : a.header.values "ETag" = [] := by
  rcases front_error h with rfl | ⟨header, hrefusal, hetag⟩
  · rfl
  · rw [hrefusal.header_eq, hetag]

/-- The entity tag of an executed mutation is that of the version that the source has committed. -/
theorem exchange_etag {jsonValid : GoString → Bool} {s₀ s : Exchange} (h₀ : Exchange.Fresh s₀)
    {tr : List (Exchange.Action × Unit)} (h : Lib.Run (Exchange.step jsonValid) s₀ tr s) {c : MutationCommand}
    {a : Answer} (ha : s.stage = .answered (some c) a) {etag : GoString} (he : etag ∈ a.header.values "ETag") :
    ∃ v, s.source = some (.commit v) ∧ 0 < v ∧ etag = versionETag v := by
  have hst := (Exchange.inv_run h₀ h).stage
  rw [ha] at hst
  obtain ⟨-, o, rfl, hex⟩ := hst
  obtain ⟨v, hv, rfl⟩ := answerOf_etag he
  -- only a source call that returned a version leaves one in the response
  have hres : ∀ b : SourceBehaviour, (MutationOutcome.written b.result).1.response.sourceVersion = some v →
      b = .commit v ∧ 0 < v := by
    intro b hb
    obtain ⟨hok, hpos⟩ := MutationOutcome.written_version hb
    cases b with
    | commit w => exact ⟨by rw [Except.ok.inj hok], hpos⟩
    | refuse => cases hok
    | fail e w => cases hok
  rcases hex with ⟨hsrc, rfl, -⟩ | ⟨o, report, snapshot, hw, rfl, -⟩
  · exact absurd (hres _ hv).1 (by simp)
  · rcases hw with ⟨-, -, rfl⟩ | ⟨b, hsrc, -, -, -, rfl⟩
    · cases hv
    · obtain ⟨rfl, hpos⟩ := hres b hv
      exact ⟨v, hsrc, hpos, rfl⟩

/-! ### The headers are parsed exactly -/

/-- `mutationPrecondition` on one request. -/
structure PreconditionExact (method : Method) (header : Header) : Prop where
  version : ∀ v, 0 < v → (mutationPrecondition method header = .ok v ↔
    header.values "If-None-Match" = [] ∧ ∃ value, header.values "If-Match" = [value] ∧
      trimSpace value = versionETag v ∧ v ≤ maxInt64)
  create : mutationPrecondition method header = .ok 0 ↔
    method = .put ∧ header.values "If-Match" = [] ∧
      ∃ value, header.values "If-None-Match" = [value] ∧ trimSpace value = ascii "*"
  nonneg : ∀ v, mutationPrecondition method header = .ok v → 0 ≤ v
  required : (∃ e, mutationPrecondition method header = .error (428, e)) ↔
    header.values "If-Match" = [] ∧ header.values "If-None-Match" = []
  refused : ∀ status e, mutationPrecondition method header = .error (status, e) → status = 428 ∨ status = 400
  bounds : checkedPrecondition method header = some (mutationPrecondition method header)

theorem precondition_exact (method : Method) (header : Header) : PreconditionExact method header := by
  have hverdict := mutationPrecondition_verdict method header
  have hbounds := checkedPrecondition_eq method header
  generalize hm : header.values "If-Match" = matches' at hverdict
  generalize ha : header.values "If-None-Match" = absent at hverdict
  generalize hr : mutationPrecondition method header = result at hverdict hbounds
  cases hverdict with
  | required =>
    refine ⟨fun v hv => ?_, ?_, fun v hv => ?_, ?_, fun status e he => ?_, hr ▸ hbounds⟩
    all_goals simp_all
  | @create value hput hstar =>
    refine ⟨fun v hv => ?_, ?_, fun v hv => ?_, ?_, fun status e he => ?_, hr ▸ hbounds⟩
    · simp only [hr, hm, ha, Except.ok.injEq]
      exact ⟨fun h => by omega, fun h => absurd h.1 (List.cons_ne_nil _ _)⟩
    · exact iff_of_true hr ⟨hput, hm, value, ha, hstar⟩
    · rw [hr, Except.ok.injEq] at hv
      omega
    · simp [hr, ha]
    · simp [hr] at he
  | @replace value v hetag hpos hmax =>
    refine ⟨fun w hw => ?_, ?_, fun w hw => ?_, ?_, fun status e he => ?_, hr ▸ hbounds⟩
    · rw [hr, hm, ha, Except.ok.injEq]
      constructor
      · rintro rfl
        exact ⟨rfl, value, rfl, hetag, hmax⟩
      · rintro ⟨-, value', hv, hetag', -⟩
        obtain rfl := List.singleton_inj.mp hv
        exact versionETag_injective (hetag.symm.trans hetag')
    · simp only [hr, hm, Except.ok.injEq]
      exact ⟨fun h => by omega, fun h => absurd h.2.1 (List.cons_ne_nil _ _)⟩
    · rw [hr, Except.ok.injEq] at hw
      omega
    · simp [hr, hm]
    · simp [hr] at he
  | bad hsome hcreate hreplace =>
    refine ⟨fun v hv => ?_, ?_, fun v hv => ?_, ?_, fun status e he => ?_, hr ▸ hbounds⟩
    · rw [hr, hm, ha]
      refine iff_of_false nofun ?_
      rintro ⟨hnil, value, hone, hetag, hmax⟩
      exact hreplace value v hone hnil hv hmax hetag
    · rw [hr, hm, ha]
      refine iff_of_false nofun ?_
      rintro ⟨hput, hnil, value, hone, hstar⟩
      exact hcreate value hnil hone hput hstar
    · rw [hr] at hv
      cases hv
    · rw [hr, hm, ha]
      refine iff_of_false (by simp) ?_
      rintro ⟨hnil, hnil'⟩
      exact hsome.elim (· hnil) (· hnil')
    · rw [hr] at he
      right
      exact (congrArg Prod.fst (Except.error.inj he)).symm

/-- `ParseInvalidationVersion` on one header. -/
structure InvalidationVersionExact (header : Header) : Prop where
  version : ∀ v, 0 < v → (parseInvalidationVersion header = .ok v ↔
    header.values Cluster.invalidationVersionHeader = [formatInt v] ∧ v ≤ maxInt64)
  absent : parseInvalidationVersion header = .ok 0 ↔ header.values Cluster.invalidationVersionHeader = []
  nonneg : ∀ v, parseInvalidationVersion header = .ok v → 0 ≤ v

theorem invalidationVersion_exact (header : Header) : InvalidationVersionExact header where
  version v hv := by
    constructor
    · intro h
      rcases Cluster.parseInvalidationVersion_ok h with ⟨h0, -⟩ | ⟨-, hone⟩
      · omega
      · refine ⟨hone, ?_⟩
        unfold parseInvalidationVersion at h
        rw [hone] at h
        dsimp only at h
        split at h
        · cases h
        · next hp =>
          split_ifs at h
          exact Except.ok.inj h ▸ Go.parseInt_le hp
    · rintro ⟨hone, hmax⟩
      exact Cluster.parseInvalidationVersion_formatInt hv.le hmax (by rw [hone, if_pos hv])
  absent := by
    constructor
    · intro h
      rcases Cluster.parseInvalidationVersion_ok h with ⟨-, hnil⟩ | ⟨h0, -⟩
      · exact hnil
      · omega
    · intro hnil
      unfold parseInvalidationVersion
      rw [hnil]
  nonneg v h := by
    rcases Cluster.parseInvalidationVersion_ok h with ⟨h0, -⟩ | ⟨h0, -⟩ <;> omega

/-- `etag` in If-Match is read as `v`. -/
def AcceptedAs (etag : GoString) (v : ℤ) : Prop :=
  ∀ method header, header.values "If-Match" = [etag] → header.values "If-None-Match" = [] →
    mutationPrecondition method header = .ok v

theorem acceptedAs_versionETag {v : ℤ} (hpos : 0 < v) (hmax : v ≤ maxInt64) : AcceptedAs (versionETag v) v :=
  fun method header hm ha =>
    ((precondition_exact method header).version v hpos).mpr ⟨ha, _, hm, trimSpace_versionETag v, hmax⟩

/-- The trimmed values behind a version are determined by it. -/
theorem precondition_values {method : Method} {header : Header} {v : ℤ}
    (h : mutationPrecondition method header = .ok v) :
    (header.values "If-Match").map trimSpace = (if 0 < v then [versionETag v] else []) ∧
      (header.values "If-None-Match").map trimSpace = if 0 < v then [] else [ascii "*"] := by
  have hexact := precondition_exact method header
  by_cases hpos : 0 < v
  · obtain ⟨ha, value, hm, hetag, -⟩ := (hexact.version v hpos).mp h
    simp [hpos, ha, hm, hetag]
  · have hzero : v = 0 := le_antisymm (not_lt.mp hpos) (hexact.nonneg v h)
    obtain ⟨-, hm, value, ha, hstar⟩ := hexact.create.mp (hzero ▸ h)
    simp [hpos, ha, hm, hstar]

/-- **Version headers are parsed exactly.**  `mutationPrecondition` and `ParseInvalidationVersion` accept what
`PreconditionExact` and `InvalidationVersionExact` say.  The entity tags of reads and of mutations are accepted back as
the versions they stand for, and no request that is turned away gets one.  The header values, trimmed for
`mutationPrecondition`, are determined by the version that is read from them. -/
theorem version_headers_exact :
    (∀ method header, PreconditionExact method header) ∧
    (∀ header, InvalidationVersionExact header) ∧
    (∀ result etag, etag ∈ (readHeader result).values "ETag" →
      ∃ value, result = .ok value ∧ (value.version ≤ maxInt64 → AcceptedAs etag value.version)) ∧
    (∀ jsonValid token invalidateOnly r free a, front jsonValid token invalidateOnly r free = .error a →
      a.header.values "ETag" = []) ∧
    (∀ jsonValid s₀ tr s c a, Exchange.Fresh s₀ → Lib.Run (Exchange.step jsonValid) s₀ tr s →
      s.stage = .answered (some c) a → ∀ etag ∈ a.header.values "ETag",
        ∃ v, s.source = some (.commit v) ∧ (v ≤ maxInt64 → AcceptedAs etag v)) ∧
    (∀ method header method' header' v, mutationPrecondition method header = .ok v →
      mutationPrecondition method' header' = .ok v →
      (header.values "If-Match").map trimSpace = (header'.values "If-Match").map trimSpace ∧
      (header.values "If-None-Match").map trimSpace = (header'.values "If-None-Match").map trimSpace) ∧
    ∀ header header' v, parseInvalidationVersion header = .ok v → parseInvalidationVersion header' = .ok v →
      header.values Cluster.invalidationVersionHeader = header'.values Cluster.invalidationVersionHeader := by
  refine ⟨precondition_exact, invalidationVersion_exact, fun result etag he => ?_, fun _ _ _ _ _ _ => front_etag,
    fun jsonValid s₀ tr s c a h₀ hrun ha etag he => ?_, fun method header method' header' v h h' => ?_,
    fun header header' v h h' => ?_⟩
  · obtain ⟨value, hvalue, hpos, rfl⟩ := readHeader_etag he
    exact ⟨value, hvalue, acceptedAs_versionETag hpos⟩
  · obtain ⟨v, hsrc, hpos, rfl⟩ := exchange_etag h₀ hrun ha he
    exact ⟨v, hsrc, acceptedAs_versionETag hpos⟩
  · obtain ⟨hm, ha⟩ := precondition_values h
    obtain ⟨hm', ha'⟩ := precondition_values h'
    exact ⟨hm.trans hm'.symm, ha.trans ha'.symm⟩
  · rcases Cluster.parseInvalidationVersion_ok h with ⟨h0, hv⟩ | ⟨h0, hv⟩
    · rcases Cluster.parseInvalidationVersion_ok h' with ⟨-, hv'⟩ | ⟨h0', -⟩
      · rw [hv, hv']
      · omega
    · rcases Cluster.parseInvalidationVersion_ok h' with ⟨h0', -⟩ | ⟨-, hv'⟩
      · omega
      · rw [hv, hv']

/-- The entity tag of version 7 with white space around it is read as 7. -/
theorem version_headers_exact_spaced :
    mutationPrecondition .delete [("If-Match", ascii " \"v7\"\t")] = .ok 7 :=
  ((version_headers_exact.1 _ _).version 7 (by decide)).mpr
    ⟨by decide, ascii " \"v7\"\t", by decide, by decide, by decide⟩

end SimpleCache.App
