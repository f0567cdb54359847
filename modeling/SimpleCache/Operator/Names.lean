import SimpleCache.Operator.Gateway

/-!
# Operator.Names — the names of the derived Services

A derived Service is named by its resource and one of twelve suffixes; a size is at most 10, so an ordinal is one digit.
The resource's name is free: it may itself end in `-api` or in `-shard-3`.  No suffix is the end of another one, so the end
of a name tells the suffix, and with it the resource.
-/

namespace SimpleCache.Operator

/-- The Services of a resource: the headless one, the API and, with a gateway, one for each shard. -/
def derivedServices (cr : SimpleCacheResource) : List Object :=
  clusterService cr :: apiService cr ::
    if cr.spec.gateway.isSome then (ordinals cr.spec.size).map (shardService cr) else []

/-! ### The suffixes -/

/-- What follows the name of the resource in the name of the shard Service `i`. -/
def shardSuffix (i : ℤ) : GoString := Go.ascii "-shard-" ++ Go.formatInt i

/-- The suffixes of all derived Services, of resources of any accepted size. -/
def suffixes : List GoString := Go.ascii "-svc" :: Go.ascii "-api" :: (ordinals 10).map shardSuffix

/-- The end of a text tells which of a list of words it is, if none of them is the end of another. -/
theorem append_inj_of_suffixes {α : Type*} {words : List (List α)} (h : ∀ v ∈ words, ∀ w ∈ words, v <:+ w → v = w)
    {a b v w : List α} (hv : v ∈ words) (hw : w ∈ words) (heq : a ++ v = b ++ w) : a = b ∧ v = w := by
  have hvw : v = w := by
    have hw' : w <:+ a ++ v := heq ▸ List.suffix_append b w
    rcases List.suffix_or_suffix_of_suffix (List.suffix_append a v) hw' with hs | hs
    · exact h v hv w hw hs
    · exact (h w hw v hv hs).symm
  subst hvw
  exact ⟨List.append_cancel_right heq, rfl⟩

/-- No suffix is the end of another. -/
theorem suffixes_free : ∀ v ∈ suffixes, ∀ w ∈ suffixes, v <:+ w → v = w := by decide

/-- A suffix continues a label, and is at most eight bytes long. -/
theorem suffixes_label : ∀ v ∈ suffixes, v ≠ [] ∧ v.getLast?.any isAlnum = true ∧
    (v.all fun c => isAlnum c || c = 45) = true ∧ v.length ≤ 8 := by decide

/-- A derived Service is named by a suffix, which fits after the longest accepted name. -/
theorem derived_suffix {names : NameChecks} {cr : SimpleCacheResource} (h : validateSpec names cr = .ok ())
    {svc : Object} (hs : svc ∈ derivedServices cr) :
    ∃ v ∈ suffixes, svc.name = cr.name ++ v ∧ cr.name.length + v.length ≤ 63 := by
  obtain ⟨-, hlen, -, hbudgets⟩ := validateSpec_ok h
  have hmax : maxName cr.spec ≤ 59 := by
    unfold maxName
    split_ifs <;> omega
  unfold derivedServices at hs
  rcases List.mem_cons.mp hs with rfl | hs
  · have h4 : (Go.ascii "-svc").length = 4 := rfl
    exact ⟨Go.ascii "-svc", by decide, rfl, by omega⟩
  rcases List.mem_cons.mp hs with rfl | hs
  · have h4 : (Go.ascii "-api").length = 4 := rfl
    exact ⟨Go.ascii "-api", by decide, rfl, by omega⟩
  split_ifs at hs with hg
  · obtain ⟨i, hi, rfl⟩ := List.mem_map.mp hs
    obtain ⟨h0, hlt⟩ := mem_ordinals.mp hi
    have hsize := hbudgets.size.2
    have hmem : shardSuffix i ∈ suffixes :=
      List.mem_cons_of_mem _ (List.mem_cons_of_mem _ (List.mem_map_of_mem (mem_ordinals.mpr ⟨h0, by omega⟩)))
    have h8 := (suffixes_label _ hmem).2.2.2
    rw [maxName, if_pos hg] at hlen
    exact ⟨shardSuffix i, hmem, List.append_assoc _ _ _, by omega⟩
  · simp at hs

/-! ### Labels -/

/-- A label followed by a text of its bytes that ends in a letter or a digit. -/
theorem isDNS1035Label_append {names : NameChecks} (hnames : names.Documented) {name v : GoString}
    (h : names.isDNS1035Label name = true) (hv : v ≠ []) (hlast : v.getLast?.any isAlnum = true)
    (hall : (v.all fun c => isAlnum c || c = 45) = true) (hlen : name.length + v.length ≤ 63) :
    names.isDNS1035Label (name ++ v) = true := by
  rw [hnames.dns1035Label] at h ⊢
  simp only [labelFmt, Bool.and_eq_true, decide_eq_true_eq] at h ⊢
  obtain ⟨⟨-, ⟨hhead, -⟩, hbytes⟩, hletter⟩ := h
  have hne : name ≠ [] := by
    rintro rfl
    simp at hletter
  rw [List.head?_append_of_ne_nil _ hne, List.getLast?_append_of_ne_nil _ hv, List.all_append, Bool.and_eq_true,
    List.length_append]
  exact ⟨⟨hlen, ⟨hhead, hlast⟩, hbytes, hall⟩, hletter⟩

/-! ### Collisions -/

/-- The names of the Services of one resource are distinct. -/
theorem derived_nodup {names : NameChecks} {cr : SimpleCacheResource} (h : validateSpec names cr = .ok ()) :
    ((derivedServices cr).map Object.name).Nodup := by
  have hsize := (validateSpec_ok h).2.2.2.size.2
  have hnames : (derivedServices cr).map Object.name = (Go.ascii "-svc" :: Go.ascii "-api" ::
      if cr.spec.gateway.isSome then (ordinals cr.spec.size).map shardSuffix else []).map (cr.name ++ ·) := by
    unfold derivedServices
    split_ifs
    · simp only [List.map_cons, List.map_map]
      congr 2
      exact List.map_congr_left fun i _ => List.append_assoc _ _ _
    · rfl
  rw [hnames]
  refine List.Nodup.map (List.append_right_injective cr.name) ?_
  -- the suffixes of this resource are some of all the suffixes
  have hsub : (Go.ascii "-svc" :: Go.ascii "-api" ::
      if cr.spec.gateway.isSome then (ordinals cr.spec.size).map shardSuffix else []).Sublist suffixes := by
    refine ((List.Sublist.cons_cons _ ?_)).cons_cons _
    split_ifs
    · exact ((List.range_sublist.mpr (by omega)).map _).map _
    · exact List.nil_sublist _
  exact List.Nodup.sublist hsub (by decide)

/-- **Derived Service names are valid and collision free.**  The Services of an accepted resource have DNS-1035 labels of at
most 63 bytes as names, pairwise distinct; and no Service of another accepted resource of the namespace, whatever its name,
its size and its gateway, has one of these names. -/
theorem derived_names_separate {names : NameChecks} (hnames : names.Documented) {cr : SimpleCacheResource}
    (h : validateSpec names cr = .ok ()) :
    (∀ svc ∈ derivedServices cr, names.isDNS1035Label svc.name = true ∧ svc.name.length ≤ 63) ∧
    ((derivedServices cr).map Object.name).Nodup ∧
    ∀ cr' : SimpleCacheResource, validateSpec names cr' = .ok () → cr'.ns = cr.ns → cr'.name ≠ cr.name →
      ∀ svc ∈ derivedServices cr, ∀ svc' ∈ derivedServices cr', svc'.name ≠ svc.name := by
  refine ⟨fun svc hs => ?_, derived_nodup h, fun cr' h' _ hne svc hs svc' hs' heq => ?_⟩
  · obtain ⟨v, hv, hname, hlen⟩ := derived_suffix h hs
    obtain ⟨hnil, hlast, hall, -⟩ := suffixes_label v hv
    rw [hname, List.length_append]
    exact ⟨isDNS1035Label_append hnames (validateSpec_ok h).1 hnil hlast hall hlen, hlen⟩
  · obtain ⟨v, hv, hname, -⟩ := derived_suffix h hs
    obtain ⟨v', hv', hname', -⟩ := derived_suffix h' hs'
    rw [hname, hname'] at heq
    exact hne (append_inj_of_suffixes suffixes_free hv' hv heq).1

/-- Two resources with gateways, the name of one of which extends the other's by `-shard-3`. -/
def extended (name : String) : SimpleCacheResource where
  name := Go.ascii name
  ns := Go.ascii "shop"
  uid := Go.ascii name
  spec :=
    { gateway := some ⟨Go.ascii "eg", 2⟩
      size := 10
      image := Go.ascii "cache:1"
      sourceSecret := []
      cacheBytes := 2 ^ 26
      ttlSeconds := 60
      maxMissWaiters := 128
      sourceMaxPending := none
      maxConcurrentWrites := 16
      resources := ⟨∅, ∅⟩ }

theorem derived_names_separate_extended : (derivedServices (extended "cache")).length = 12 ∧
    ∀ svc ∈ derivedServices (extended "cache"), ∀ svc' ∈ derivedServices (extended "cache-shard-3"),
      svc'.name ≠ svc.name := by
  have h : validateSpec .documented (extended "cache") = .ok () := by decide +kernel
  have h' : validateSpec .documented (extended "cache-shard-3") = .ok () := by decide +kernel
  exact ⟨rfl, (derived_names_separate NameChecks.documented_documented h).2.2 _ h' rfl (by decide)⟩

end SimpleCache.Operator
