import SimpleCache.Operator.Objects

/-!
# Operator.Resources — the resource defaults are schedulable

`resourceDefaults` fills requests from limits, and then the memory limit from the memory request.  What each round does to
a lookup is one equation.
-/

namespace SimpleCache.Operator

/-! ### What validation accepts -/

theorem validateRequests_ok {limits : ResourceList} : ∀ {entries : List (Sigma fun _ : String => ℚ)},
    validateRequests limits entries = .ok () → ∀ e ∈ entries, ∀ limit, limits.lookup e.1 = some limit → e.2 ≤ limit
  | [], _, _, he => absurd he List.not_mem_nil
  | ⟨name, q⟩ :: rest, h, e, he => by
    rw [validateRequests] at h
    split_ifs at h with hneg hover
    rcases List.mem_cons.mp he with rfl | he
    · intro limit hl
      simpa [hl] using hover
    · exact validateRequests_ok h e he

/-- An accepted request does not exceed its limit. -/
theorem validateSpec_resources {names : NameChecks} {cr : SimpleCacheResource} (h : validateSpec names cr = .ok ())
    {name : String} {q limit : ℚ} (hq : cr.spec.resources.requests.lookup name = some q)
    (hl : cr.spec.resources.limits.lookup name = some limit) : q ≤ limit := by
  unfold validateSpec at h
  split_ifs at h with hname
  obtain ⟨_, -, h⟩ := bind_eq_ok h
  obtain ⟨_, -, h⟩ := bind_eq_ok h
  obtain ⟨_, hrequests, -⟩ := bind_eq_ok h
  exact validateRequests_ok hrequests ⟨name, q⟩ (AList.mem_lookup_iff.mp hq) limit hl

/-! ### What the defaults add -/

section Rounds

variable (limits requests : ResourceList)

theorem lookup_addRequest (name : String) (q : ℚ) (other : String) :
    (addRequest limits requests name q).lookup other =
      if other = name then some ((requests.lookup name).getD (defaultRequest limits name q))
      else requests.lookup other := by
  unfold addRequest
  by_cases ho : other = name
  · subst ho
    rw [if_pos rfl]
    split_ifs with hin
    · obtain ⟨r, hr⟩ := Option.isSome_iff_exists.mp (AList.lookup_isSome.mpr hin)
      rw [hr, Option.getD_some]
    · rw [AList.lookup_insert, AList.lookup_eq_none.mpr hin, Option.getD_none]
  · rw [if_neg ho]
    split_ifs
    · rfl
    · rw [AList.lookup_insert_ne ho]

theorem mem_addRequest (name : String) (q : ℚ) : name ∈ addRequest limits requests name q := by
  rw [← AList.lookup_isSome, lookup_addRequest, if_pos rfl, Option.isSome_some]

variable {limits}

theorem defaultRequest_le {name : String} {q limit : ℚ} (h : limits.lookup name = some limit) :
    defaultRequest limits name q ≤ limit := by
  simp only [defaultRequest, h]
  split_ifs with hlt
  · exact le_rfl
  · exact not_lt.mp hlt

/-- A round keeps the requests within the limits. -/
theorem addRequest_le {requests : ResourceList}
    (h : ∀ name q limit, requests.lookup name = some q → limits.lookup name = some limit → q ≤ limit)
    (name : String) (q : ℚ) : ∀ other r limit, (addRequest limits requests name q).lookup other = some r →
      limits.lookup other = some limit → r ≤ limit := by
  intro other r limit hr hl
  rw [lookup_addRequest] at hr
  split_ifs at hr with ho
  · subst ho
    cases hin : requests.lookup other with
    | some r₀ =>
      rw [hin, Option.getD_some, Option.some.injEq] at hr
      exact h other r limit (hr ▸ hin) hl
    | none =>
      rw [hin, Option.getD_none, Option.some.injEq] at hr
      exact hr ▸ defaultRequest_le hl
  · exact h other r limit hr hl

end Rounds

/-! ### The whole function -/

section Defaults

variable (input : ResourceRequirements)

theorem cpu_mem_requests : "cpu" ∈ (resourceDefaults input).requests := by
  rw [← AList.lookup_isSome]
  simp only [resourceDefaults]
  rw [lookup_addRequest, if_neg (by decide), AList.lookup_isSome]
  exact mem_addRequest _ _ _ _

theorem memory_mem_requests : "memory" ∈ (resourceDefaults input).requests := mem_addRequest _ _ _ _

theorem memory_mem_limits : "memory" ∈ (resourceDefaults input).limits := by
  by_cases hin : "memory" ∈ input.limits
  · simp only [resourceDefaults, if_pos hin]
    exact hin
  · simp only [resourceDefaults, if_neg hin]
    exact (AList.mem_insert _).mpr (Or.inl rfl)

variable {input}

theorem requests_kept {name : String} {q : ℚ} (h : input.requests.lookup name = some q) :
    (resourceDefaults input).requests.lookup name = some q := by
  have hround : ∀ (requests : ResourceList) (name' : String) (q' : ℚ), requests.lookup name = some q →
      (addRequest input.limits requests name' q').lookup name = some q := by
    intro requests name' q' hr
    rw [lookup_addRequest]
    split_ifs with hn
    · rw [← hn, hr, Option.getD_some]
    · exact hr
  exact hround _ _ _ (hround _ _ _ h)

/-- A limit of the result is one of the input, or the memory limit that covers the memory request. -/
theorem limits_cases {name : String} {limit : ℚ} (h : (resourceDefaults input).limits.lookup name = some limit) :
    input.limits.lookup name = some limit ∨
      ∀ r, (resourceDefaults input).requests.lookup name = some r → r ≤ limit := by
  by_cases hin : "memory" ∈ input.limits
  · refine Or.inl ?_
    simp only [resourceDefaults, if_pos hin] at h
    exact h
  · by_cases hn : name = "memory"
    · subst hn
      refine Or.inr fun r hr => ?_
      simp only [resourceDefaults, if_neg hin, AList.lookup_insert, Option.some.injEq] at h hr
      rw [hr, Option.getD_some] at h
      subst h
      split_ifs with hlt
      · exact le_rfl
      · exact not_lt.mp hlt
    · refine Or.inl ?_
      simp only [resourceDefaults, if_neg hin] at h
      rwa [AList.lookup_insert_ne hn] at h

theorem limits_kept {name : String} {q : ℚ} (h : input.limits.lookup name = some q) :
    (resourceDefaults input).limits.lookup name = some q := by
  by_cases hin : "memory" ∈ input.limits
  · simp only [resourceDefaults, if_pos hin]
    exact h
  · have hn : name ≠ "memory" := by
      rintro rfl
      exact hin (AList.lookup_isSome.mp (by rw [h, Option.isSome_some]))
    simp only [resourceDefaults, if_neg hin]
    rw [AList.lookup_insert_ne hn, h]

/-- Nothing is added where the three entries are there. -/
theorem resourceDefaults_of_mem (hcpu : "cpu" ∈ input.requests) (hmemory : "memory" ∈ input.requests)
    (hlimit : "memory" ∈ input.limits) : resourceDefaults input = input := by
  simp only [resourceDefaults, addRequest, if_pos hcpu, if_pos hmemory, if_pos hlimit]

end Defaults

/-- **Resource defaults are always schedulable.**  For every resource that `validateSpec` accepts, `resourceDefaults` keeps
the entries of the input, the CPU and memory requests and the memory limit are there, no request exceeds the limit of its
name, and a second application changes nothing. -/
theorem resourceDefaults_schedulable {names : NameChecks} {cr : SimpleCacheResource}
    (h : validateSpec names cr = .ok ()) :
    (∀ name q, cr.spec.resources.requests.lookup name = some q →
      (resourceDefaults cr.spec.resources).requests.lookup name = some q) ∧
    (∀ name q, cr.spec.resources.limits.lookup name = some q →
      (resourceDefaults cr.spec.resources).limits.lookup name = some q) ∧
    "cpu" ∈ (resourceDefaults cr.spec.resources).requests ∧
    "memory" ∈ (resourceDefaults cr.spec.resources).requests ∧
    "memory" ∈ (resourceDefaults cr.spec.resources).limits ∧
    (∀ name request limit, (resourceDefaults cr.spec.resources).requests.lookup name = some request →
      (resourceDefaults cr.spec.resources).limits.lookup name = some limit → request ≤ limit) ∧
    resourceDefaults (resourceDefaults cr.spec.resources) = resourceDefaults cr.spec.resources := by
  have hcpu := cpu_mem_requests cr.spec.resources
  have hmemory := memory_mem_requests cr.spec.resources
  have hlimit := memory_mem_limits cr.spec.resources
  refine ⟨fun _ _ => requests_kept, fun _ _ => limits_kept, hcpu, hmemory, hlimit, fun name request limit hr hl => ?_,
    resourceDefaults_of_mem hcpu hmemory hlimit⟩
  rcases limits_cases hl with hold | hcovers
  · have hvalid : ∀ (name : String) (q limit : ℚ), cr.spec.resources.requests.lookup name = some q →
        cr.spec.resources.limits.lookup name = some limit → q ≤ limit := fun _ _ _ => validateSpec_resources h
    exact addRequest_le (addRequest_le hvalid "cpu" _) "memory" _ name request limit hr hold
  · exact hcovers request hr

/-- A resource whose only budget is a memory limit of 64Mi, below the default request. -/
def smallMemory : SimpleCacheResource where
  name := Go.ascii "cache"
  ns := Go.ascii "shop"
  uid := Go.ascii "u-1"
  spec :=
    { gateway := none
      size := 3
      image := Go.ascii "cache:1"
      sourceSecret := []
      cacheBytes := 2 ^ 26
      ttlSeconds := 60
      maxMissWaiters := 128
      sourceMaxPending := none
      maxConcurrentWrites := 16
      resources := ⟨∅, AList.singleton "memory" (64 * 2 ^ 20)⟩ }

theorem resourceDefaults_schedulable_small : validateSpec .documented smallMemory = .ok () ∧
    (resourceDefaults smallMemory.spec.resources).requests.lookup "memory" = some (64 * 2 ^ 20) ∧
    ∀ name request limit, (resourceDefaults smallMemory.spec.resources).requests.lookup name = some request →
      (resourceDefaults smallMemory.spec.resources).limits.lookup name = some limit → request ≤ limit := by
  have hvalid : validateSpec .documented smallMemory = .ok () := by decide +kernel
  exact ⟨hvalid, by decide +kernel, (resourceDefaults_schedulable hvalid).2.2.2.2.2.1⟩

end SimpleCache.Operator
