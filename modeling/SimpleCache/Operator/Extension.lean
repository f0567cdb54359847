import SimpleCache.Operator.Agreement
import SimpleCache.Operator.Ensure

/-!
# Operator.Extension — what `desiredSubset` decides (`gateway.go`)

`Extends` says what it is for a value to extend a desired one, by itself and not by the code; `wellFormed` says that the
keys of a map are distinct, as those of a Go map are.  `desiredSubset_extension` puts the two side by side and draws the
consequences: extension is a preorder, arrays are exact at every depth, and `ensure` is stable on the gateway objects.
-/

namespace SimpleCache

namespace Json

mutual

/-- The keys of every map are distinct. -/
def wellFormed : Json → Bool
  | .arr items => wellFormedItems items
  | .obj entries => (entries.map Prod.fst).Nodup && wellFormedEntries entries
  | _ => true

def wellFormedItems : List Json → Bool
  | [] => true
  | x :: xs => wellFormed x && wellFormedItems xs

def wellFormedEntries : List (String × Json) → Bool
  | [] => true
  | (_, v) :: rest => wellFormed v && wellFormedEntries rest

end

/-- **A value extends a desired one**: leaves are equal, arrays have one length and extend element by element, and every
key of a desired map is present with a value that extends. -/
inductive Extends : Json → Json → Prop
  | leaf {d : Json} (h : leaf d = true) : Extends d d
  | arr {xs ys : List Json} (hlen : xs.length = ys.length)
      (helem : ∀ i (hx : i < xs.length) (hy : i < ys.length), Extends xs[i] ys[i]) : Extends (.arr xs) (.arr ys)
  | obj {a d : List (String × Json)} (value : String → Json) (hpresent : ∀ e ∈ d, (e.1, value e.1) ∈ a)
      (hvalue : ∀ e ∈ d, Extends (value e.1) e.2) : Extends (.obj a) (.obj d)

theorem wellFormedItems_iff {items : List Json} : wellFormedItems items = true ↔ ∀ x ∈ items, wellFormed x = true := by
  induction items with
  | nil => simp [wellFormedItems]
  | cons x items ih => rw [wellFormedItems, Bool.and_eq_true, ih, List.forall_mem_cons]

theorem wellFormedEntries_iff {entries : List (String × Json)} :
    wellFormedEntries entries = true ↔ ∀ e ∈ entries, wellFormed e.2 = true := by
  induction entries with
  | nil => simp [wellFormedEntries]
  | cons e entries ih => rw [wellFormedEntries, Bool.and_eq_true, ih, List.forall_mem_cons]

theorem wellFormed_obj {entries : List (String × Json)} : wellFormed (.obj entries) = true ↔
    (entries.map Prod.fst).Nodup ∧ ∀ e ∈ entries, wellFormed e.2 = true := by
  rw [wellFormed, Bool.and_eq_true, decide_eq_true_iff, wellFormedEntries_iff]

/-- With distinct keys a map reads every entry. -/
theorem lookup_eq {entries : List (String × Json)} (h : (entries.map Prod.fst).Nodup) {e : String × Json}
    (he : e ∈ entries) : lookup entries e.1 = e.2 := by
  induction entries with
  | nil => cases he
  | cons e' rest ih =>
    rw [List.map_cons, List.nodup_cons] at h
    rw [lookup]
    rcases List.mem_cons.mp he with rfl | he
    · exact if_pos rfl
    · have hne : e'.1 ≠ e.1 := fun heq => h.1 (heq ▸ List.mem_map_of_mem he)
      rw [if_neg hne]
      exact ih h.2 he

/-! ### The decision -/

theorem extends_leaf {a d : Json} (hd : leaf d = true) : Extends a d ↔ a = d := by
  constructor
  · intro h
    cases h with
    | leaf => rfl
    | arr => cases hd
    | obj => cases hd
  · rintro rfl
    exact .leaf hd

/-- **`desiredSubset` decides extension.** -/
theorem desiredSubset_iff {a d : Json} (ha : wellFormed a = true) (hd : nullFree d = true) :
    desiredSubset a d = true ↔ Extends a d := by
  induction d using Json.induction generalizing a with
  | null => cases hd
  | arr ys ih =>
    rw [nullFree, nullFreeItems_iff] at hd
    constructor
    · intro h
      obtain ⟨xs, rfl, hxs⟩ := desiredSubset_arr h
      rw [wellFormed, wellFormedItems_iff] at ha
      obtain ⟨hlen, helem⟩ := List.forall₂_iff_get.mp (subsetItems_iff.mp hxs)
      refine .arr hlen fun i hx hy => ?_
      exact (ih _ (List.getElem_mem hy) (ha _ (List.getElem_mem hx)) (hd _ (List.getElem_mem hy))).mp (helem i hx hy)
    · intro h
      cases h with
      | leaf hleaf => cases hleaf
      | @arr xs _ hlen helem =>
        rw [wellFormed, wellFormedItems_iff] at ha
        rw [desiredSubset, subsetItems_iff, List.forall₂_iff_get]
        refine ⟨hlen, fun i hx hy => ?_⟩
        exact (ih _ (List.getElem_mem hy) (ha _ (List.getElem_mem hx)) (hd _ (List.getElem_mem hy))).mpr
          (helem i hx hy)
  | obj d ih =>
    rw [nullFree, nullFreeEntries_iff] at hd
    constructor
    · intro h
      obtain ⟨a, rfl, hsub⟩ := desiredSubset_obj h
      rw [subsetEntries_iff] at hsub
      -- a missing key reads as `null`, which extends nothing desired
      have hpresent : ∀ e ∈ d, (e.1, lookup a e.1) ∈ a := fun e he =>
        lookup_mem (ne_null_of_desiredSubset (hd e he) (hsub e he))
      refine .obj (lookup a) hpresent fun e he => ?_
      exact (ih e he ((wellFormed_obj.mp ha).2 _ (hpresent e he)) (hd e he)).mp (hsub e he)
    · intro h
      cases h with
      | leaf hleaf => cases hleaf
      | @obj a _ value hpresent hvalue =>
        rw [desiredSubset, subsetEntries_iff]
        intro e he
        rw [lookup_eq (wellFormed_obj.mp ha).1 (hpresent e he)]
        exact (ih e he ((wellFormed_obj.mp ha).2 _ (hpresent e he)) (hd e he)).mpr (hvalue e he)
  | bool d => rw [desiredSubset_leaf rfl, extends_leaf rfl]
  | int d => rw [desiredSubset_leaf rfl, extends_leaf rfl]
  | float d => rw [desiredSubset_leaf rfl, extends_leaf rfl]
  | str d => rw [desiredSubset_leaf rfl, extends_leaf rfl]

/-- **Extension is reflexive.** -/
theorem desiredSubset_refl {d : Json} (h : wellFormed d = true) : desiredSubset d d = true := by
  induction d using Json.induction with
  | arr items ih =>
    rw [wellFormed, wellFormedItems_iff] at h
    rw [desiredSubset, subsetItems_iff, List.forall₂_same]
    exact fun x hx => ih x hx (h x hx)
  | obj entries ih =>
    rw [wellFormed_obj] at h
    rw [desiredSubset, subsetEntries_iff]
    intro e he
    rw [lookup_eq h.1 he]
    exact ih e he (h.2 e he)
  | null => rfl
  | bool d => exact (desiredSubset_leaf rfl).mpr rfl
  | int d => exact (desiredSubset_leaf rfl).mpr rfl
  | float d => exact (desiredSubset_leaf rfl).mpr rfl
  | str d => exact (desiredSubset_leaf rfl).mpr rfl

/-! ### Arrays at every depth -/

/-- A step into a value: to an entry of a map or an element of an array. -/
inductive Step
  | key (k : String)
  | index (i : ℕ)

/-- The value that a step leads to. -/
def child : Json → Step → Option Json
  | .obj entries, .key k => if entries.any (fun e => e.1 = k) then some (lookup entries k) else none
  | .arr items, .index i => items[i]?
  | _, _ => none

/-- The value at the end of a path. -/
def descend (v : Json) : List Step → Option Json
  | [] => some v
  | s :: path => (v.child s).bind fun w => w.descend path

theorem lookup_ne_null {entries : List (String × Json)} {k : String} (h : lookup entries k ≠ .null) :
    entries.any (fun e => e.1 = k) = true :=
  List.any_eq_true.mpr ⟨_, lookup_mem h, decide_eq_true rfl⟩

/-- A step that leads to a value of the desired one leads to a value that extends it. -/
theorem desiredSubset_child {a d w : Json} (h : desiredSubset a d = true) {s : Step} (hs : d.child s = some w)
    (hw : w ≠ .null) : ∃ v, a.child s = some v ∧ desiredSubset v w = true := by
  unfold child at hs
  split at hs
  · next d k =>
    split_ifs at hs
    obtain rfl := Option.some.inj hs
    obtain ⟨a, rfl, hsub⟩ := desiredSubset_obj h
    have hlookup : desiredSubset (lookup a k) (lookup d k) = true := subsetEntries_mem hsub (lookup_mem hw)
    have hne : lookup a k ≠ .null := fun hnull => hw (eq_null_of_desiredSubset (hnull ▸ hlookup))
    exact ⟨lookup a k, if_pos (lookup_ne_null hne), hlookup⟩
  · next ys i =>
    obtain ⟨xs, rfl, hxs⟩ := desiredSubset_arr h
    obtain ⟨hlen, helem⟩ := List.forall₂_iff_get.mp (subsetItems_iff.mp hxs)
    obtain ⟨hi, rfl⟩ := List.getElem?_eq_some_iff.mp hs
    exact ⟨_, List.getElem?_eq_getElem (hlen ▸ hi), helem i (hlen ▸ hi) hi⟩
  · cases hs

/-- **Arrays are exact at every depth**: where the desired value has an array, the actual one has an array of the same
length whose elements extend the desired ones, place by place. -/
theorem desiredSubset_array {path : List Step} {ys : List Json} : ∀ {a d : Json}, desiredSubset a d = true →
    d.descend path = some (.arr ys) → ∃ xs, a.descend path = some (.arr xs) ∧ xs.length = ys.length ∧
      ∀ (i : ℕ) x, xs[i]? = some x → ∃ y, ys[i]? = some y ∧ desiredSubset x y = true := by
  induction path with
  | nil =>
    intro a d h hd
    obtain rfl := Option.some.inj hd
    obtain ⟨xs, rfl, hxs⟩ := desiredSubset_arr h
    obtain ⟨hlen, helem⟩ := List.forall₂_iff_get.mp (subsetItems_iff.mp hxs)
    refine ⟨xs, rfl, hlen, fun i x hx => ?_⟩
    obtain ⟨hi, rfl⟩ := List.getElem?_eq_some_iff.mp hx
    exact ⟨_, List.getElem?_eq_getElem (hlen ▸ hi), helem i hi (hlen ▸ hi)⟩
  | cons s path ih =>
    intro a d h hd
    obtain ⟨w, hw, hdescend⟩ := Option.bind_eq_some_iff.mp hd
    have hne : w ≠ .null := by
      rintro rfl
      cases path <;> simp [descend, child] at hdescend
    obtain ⟨v, hv, hsub⟩ := desiredSubset_child h hw hne
    obtain ⟨xs, hxs, hrest⟩ := ih hsub hdescend
    refine ⟨xs, ?_, hrest⟩
    rw [descend, hv]
    exact hxs

end Json

namespace Operator

open Json

/-! ### Gateway objects -/

section Gateway

variable {owner : SimpleCacheResource} {wanted e : Object} {kind k : GatewayKind}
  {desired desiredStatus spec status : Json}

/-- `ensure` on a gateway object of the owner. -/
theorem mutate_gateway (hw : wanted.body = .gateway kind desired desiredStatus) (he : e.body = .gateway k spec status)
    (howned : e.controlledBy owner = true) :
    mutate owner wanted (some e) = .ok { e with
      body := .gateway k (if desiredSubset spec desired then spec else desired) status } := by
  have hcontroller : e.controller = some owner.uid := of_decide_eq_true howned
  unfold mutate
  simp only [Option.getD_some, Option.isSome_some, true_and]
  rw [if_neg (by rw [howned]; decide), hw, he]
  show Except.ok _ = _
  rw [hcontroller]

/-- An object that passes the check is left as it is. -/
theorem mutate_gateway_same (hw : wanted.body = .gateway kind desired desiredStatus)
    (he : e.body = .gateway k spec status) (howned : e.controlledBy owner = true)
    (hsub : desiredSubset spec desired = true) : mutate owner wanted (some e) = .ok e := by
  rw [mutate_gateway hw he howned, if_pos hsub, ← he]

end Gateway

/-- **`desiredSubset` decides extension.**  For a value with distinct keys and a desired one without `null` it holds
exactly when the first extends the second.  So it is reflexive and transitive; an array never keeps an element that the desired
value has dropped, at any depth; and once `ensure` has run on a gateway object of the owner the check holds, so that a
second run leaves the object unchanged, also after the API server has filled in more of the spec. -/
theorem desiredSubset_extension :
    (∀ a d, wellFormed a = true → nullFree d = true → (desiredSubset a d = true ↔ Extends a d)) ∧
    (∀ d, wellFormed d = true → desiredSubset d d = true) ∧
    (∀ a b c, nullFree c = true → desiredSubset a b = true → desiredSubset b c = true → desiredSubset a c = true) ∧
    (∀ a d, desiredSubset a d = true → ∀ path ys, d.descend path = some (.arr ys) →
      ∃ xs, a.descend path = some (.arr xs) ∧ xs.length = ys.length ∧
        ∀ (i : ℕ) x, xs[i]? = some x → ∃ y, ys[i]? = some y ∧ desiredSubset x y = true) ∧
    ∀ owner (wanted e : Object) kind desired desiredStatus k spec status,
      wanted.body = .gateway kind desired desiredStatus → wellFormed desired = true → nullFree desired = true →
      e.body = .gateway k spec status → e.controlledBy owner = true →
      ∃ o spec', mutate owner wanted (some e) = .ok o ∧ o.body = .gateway k spec' status ∧
        desiredSubset spec' desired = true ∧ mutate owner wanted (some o) = .ok o ∧
        ∀ (stored : Object) filled status', stored.body = .gateway k filled status' →
          stored.controlledBy owner = true → desiredSubset filled spec' = true →
          mutate owner wanted (some stored) = .ok stored := by
  refine ⟨fun a d => desiredSubset_iff, fun d => desiredSubset_refl, fun a b c => desiredSubset_trans,
    fun a d h path ys => desiredSubset_array h, ?_⟩
  intro owner wanted e kind desired desiredStatus k spec status hw hwf hnull he howned
  have hsub : desiredSubset (if desiredSubset spec desired then spec else desired) desired = true := by
    split_ifs with h
    · exact h
    · exact desiredSubset_refl hwf
  refine ⟨_, _, mutate_gateway hw he howned, rfl, hsub, mutate_gateway_same hw rfl howned hsub, ?_⟩
  intro stored filled status' hstored hcontrolled hfilled
  exact mutate_gateway_same hw hstored hcontrolled (desiredSubset_trans hnull hfilled hsub)

/-- A filled-in map extends the desired one, and an array with one element more does not; so a Backend with an endpoint
too many is replaced once. -/
theorem desiredSubset_extension_filled :
    Extends (.obj [("hosts", .arr [.str [97]]), ("port", .null)]) (.obj [("hosts", .arr [.str [97]])]) ∧
    ¬ Extends (.obj [("hosts", .arr [.str [97], .str [98]])]) (.obj [("hosts", .arr [.str [97]])]) ∧
    ∃ o spec', mutate queueless (metadata [98] (.gateway .backend (.obj [("endpoints", .arr [])]) .null))
        (some ⟨[98], some queueless.uid, 1, .gateway .backend (.obj [("endpoints", .arr [.int 1])]) .null⟩) = .ok o ∧
      o.body = .gateway .backend spec' .null ∧ desiredSubset spec' (.obj [("endpoints", .arr [])]) = true ∧
      mutate queueless (metadata [98] (.gateway .backend (.obj [("endpoints", .arr [])]) .null)) (some o) = .ok o :=
  have ⟨o, spec', h, hbody, hsub, hagain, _⟩ := desiredSubset_extension.2.2.2.2 queueless
    (metadata [98] (.gateway .backend (.obj [("endpoints", .arr [])]) .null))
    ⟨[98], some queueless.uid, 1, .gateway .backend (.obj [("endpoints", .arr [.int 1])]) .null⟩ _ _ _ _ _ _ rfl
    (by decide) (by decide) rfl (decide_eq_true rfl)
  ⟨(desiredSubset_extension.1 _ _ (by decide) (by decide)).mp (by decide),
    mt (desiredSubset_extension.1 _ _ (by decide) (by decide)).mpr (by decide), o, spec', h, hbody, hsub, hagain⟩

end Operator

end SimpleCache
