import Mathlib.Data.Finset.Card
import SimpleCache.Cache.Insertion
import SimpleCache.Cache.VersionStore

/-!
# Cache.Commute — duplicated and reordered notifications

Delivery is at least once and unordered.  At a fixed time, and as long as no floor has to be retired, what a
sequence of notifications leaves behind is a function of the set of its (key, version) pairs: `Notified` gives the
floors, the stored entries and the removals in terms of that set, and `notifications_commute` compares two
sequences with the same set.
-/

namespace SimpleCache.Cache

open SimpleCache.Lib
open SimpleCache.Lru (Entry)

/-! ### The stored entries in recency order -/

namespace MainCache

/-- `Stats.Bytes`. -/
def bytes (c : MainCache) : ℤ :=
  match c.lru with
  | none => 0
  | some l => l.byteNow

theorem bytes_eq {c : MainCache} (h : c.WF) : c.bytes = (c.order.map Lru.Cache.size).sum := by
  obtain ⟨_ | l, n⟩ := c
  · rfl
  · exact (Lru.Cache.total_order (h l rfl)).symm

theorem find?_eq_some {c : MainCache} (h : c.WF) {key : GoString} {e : Entry ByteView} :
    c.find? key = some e ↔ e ∈ c.order ∧ e.key = key := by
  obtain ⟨_ | l, n⟩ := c
  · simp [find?, order]
  · refine (Lru.Cache.find?_eq_some (h l rfl)).trans (and_congr_left fun _ => ?_)
    simp [order, Lru.Cache.order]

/-- A removal counts the entry that it takes out. -/
theorem evictions_remove {c : MainCache} (h : c.WF) (key : GoString) :
    (c.remove key).evictions + (c.remove key).order.length = c.evictions + c.order.length := by
  obtain ⟨_ | l, n⟩ := c
  · rfl
  rcases Lru.Cache.stored_cases (h l rfl) key with ⟨hnone, hfind⟩ | ⟨p, e, hsome, -, he, rfl, -⟩
  · have hrem : l.remove key = l := by unfold Lru.Cache.remove; rw [hnone]
    simp only [remove, Option.map_some, hrem]
  · have hrem : l.remove e.key = l.removeElement p := by unfold Lru.Cache.remove; rw [hsome]
    have hlen := LinkedList.len_remove he
    unfold LinkedList.len at hlen
    simp only [order, Lru.Cache.order, evictions, remove, Option.map_some, Option.getD_some, hrem,
      Lru.Cache.removeElement_eq he, List.length_map, List.length_append, List.length_singleton]
    omega

end MainCache

/-! ### One notification -/

namespace Group

variable {g : Group}

/-- A call of `InvalidateVersion` at time `now`. -/
def notify (g : Group) (now : ℤ) (n : GoString × ℤ) : Group := (g.invalidateVersion n.1 n.2 now now).2

def notifyAll (g : Group) (now : ℤ) (ns : List (GoString × ℤ)) : Group := ns.foldl (fun g n => g.notify now n) g

/-- The version of the unexpired entry of a key, 0 without one. -/
def resident (g : Group) (now : ℤ) (key : GoString) : ℤ := (g.mainCache.version key now).1

theorem resident_eq (h : g.WF) (now : ℤ) (key : GoString) :
    g.resident now key =
      match g.mainCache.find? key with
      | none => 0
      | some e => if e.expired now then 0 else e.value.version := by
  unfold resident
  rw [MainCache.version_eq h.cache]
  cases g.mainCache.find? key with
  | none => rfl
  | some e =>
    simp only
    split_ifs <;> rfl

/-- An entry that a notification of version `v` for its key removes. -/
def outdated (now v : ℤ) (e : Entry ByteView) : Bool := e.expired now || decide (e.value.version < v)

theorem invalidate_mainCache (h : g.WF) {key : GoString} (hk : ValidKey key) {version : ℤ} (hv : 0 < version)
    (now : ℤ) :
    (g.invalidateVersion key version now now).2.mainCache =
      let c := (g.mainCache.version key now).2
      if (c.version key now).1 < max (g.knownVersionLocked key now).1 version
      then (c.version key now).2.remove key else (c.version key now).2 := by
  unfold invalidateVersion validateKey
  rw [if_pos hk]
  simp only [if_neg (not_lt.mpr hv.le), knownVersionLocked_eq]
  obtain ⟨dropped, heq, -⟩ := remember_bump (g := { g with mainCache := (g.mainCache.version key now).2 }) h.floors
    key (max (max (g.floors.floor key) (g.mainCache.version key now).1) version)
    (decide (version = 0 ∨ version > max (g.floors.floor key) (g.mainCache.version key now).1))
  generalize (if decide (version = 0 ∨ version > max (g.floors.floor key) (g.mainCache.version key now).1) = true
    then _ else _) = g₂ at heq ⊢
  have hc : g₂.mainCache = (g.mainCache.version key now).2 := by rw [heq]
  unfold evictBelow
  rw [if_neg (ne_of_gt hv)]
  simp only [hc]

/-- **What a notification removes** is the entry of its key if it is expired or older. -/
theorem notify_cache (h : g.WF) {key : GoString} (hk : ValidKey key) {version : ℤ} (hv : 0 < version) (now : ℤ) :
    (g.notify now (key, version)).mainCache =
      match g.mainCache.find? key with
      | none => g.mainCache
      | some e => if outdated now version e then g.mainCache.remove key else g.mainCache := by
  unfold notify
  rw [invalidate_mainCache h hk hv, knownVersionLocked_eq]
  have hver := MainCache.version_eq h.cache key now
  cases hf : g.mainCache.find? key with
  | none =>
    rw [hf] at hver
    simp only [hver]
    rw [if_pos (lt_of_lt_of_le hv (le_max_right _ _)), MainCache.remove_of_absent h.cache hf]
  | some e =>
    rw [hf] at hver
    simp only at hver ⊢
    by_cases hx : e.expired now = true
    · -- expired: the first peek removes it, and there is nothing left for the second
      rw [if_pos hx] at hver
      have hw := h.cache.remove key
      have habs : (g.mainCache.remove key).find? key = none := by rw [MainCache.find?_remove h.cache, if_pos rfl]
      have hver₂ := MainCache.version_eq hw key now
      rw [habs] at hver₂
      simp only [hver, hver₂]
      rw [if_pos (lt_of_lt_of_le hv (le_max_right _ _)), MainCache.remove_of_absent hw habs]
      simp [outdated, hx]
    · rw [if_neg hx] at hver
      have hab := h.above key e hf
      simp only [hver, max_eq_right hab]
      have hiff : e.value.version < max e.value.version version ↔ e.value.version < version := by
        rw [lt_max_iff]; simp
      simp [hiff, outdated, hx]

/-- In recency order. -/
theorem notify_entries (h : g.WF) {key : GoString} (hk : ValidKey key) {version : ℤ} (hv : 0 < version) (now : ℤ) :
    (g.notify now (key, version)).mainCache.order =
      g.mainCache.order.filter (fun e => ¬ (e.key = key ∧ outdated now version e = true)) ∧
    (g.notify now (key, version)).mainCache.evictions + (g.notify now (key, version)).mainCache.order.length =
      g.mainCache.evictions + g.mainCache.order.length := by
  rw [notify_cache h hk hv]
  have hkeep : (∀ e ∈ g.mainCache.order, e.key = key → outdated now version e = false) →
      g.mainCache.order = g.mainCache.order.filter (fun e => ¬ (e.key = key ∧ outdated now version e = true)) := by
    intro hall
    symm
    rw [List.filter_eq_self]
    intro e he
    simp only [not_and, decide_eq_true_eq]
    intro hek
    rw [hall e he hek]
    simp
  cases hf : g.mainCache.find? key with
  | none =>
    refine ⟨hkeep fun e he hek => ?_, rfl⟩
    rw [(MainCache.find?_eq_some h.cache).mpr ⟨he, hek⟩] at hf
    simp at hf
  | some x =>
    simp only
    -- the entry of the key is `x`
    have huniq : ∀ e ∈ g.mainCache.order, e.key = key → e = x := by
      intro e he hek
      rw [(MainCache.find?_eq_some h.cache).mpr ⟨he, hek⟩] at hf
      exact Option.some.inj hf
    split_ifs with ho
    · refine ⟨(MainCache.order_remove h.cache key).trans (List.filter_congr fun e he => ?_),
        MainCache.evictions_remove h.cache key⟩
      by_cases hek : e.key = key
      · simp [huniq e he hek, ho]
      · simp [hek]
    · refine ⟨hkeep fun e he hek => ?_, rfl⟩
      rw [huniq e he hek]
      simpa using ho

/-- **The floor a notification leaves**, when there is room for it. -/
theorem notify_floor? (h : g.WF) {key : GoString} (hk : ValidKey key) {version : ℤ} (hv : 0 < version) (now : ℤ)
    (hroom : key ∈ g.floors.keys ∨ g.floors.keys.length < g.floors.capacity) :
    (g.notify now (key, version)).WF ∧
    (g.notify now (key, version)).floors.capacity = g.floors.capacity ∧
    ∀ k, (g.notify now (key, version)).floors.floor? k =
      if k = key then some (max (max (g.floors.floor key) (g.resident now key)) version)
      else g.floors.floor? k := by
  have hknown : (g.knownVersionLocked key now).1 = max (g.floors.floor key) (g.resident now key) := by
    rw [knownVersionLocked_eq]; rfl
  obtain ⟨-, dropped, hinv⟩ := invalidate_spec h hk hv.le now now
  rw [hknown] at hinv
  refine ⟨hinv.wf, ?_⟩
  unfold notify
  rcases hinv.floors with ⟨hle, -, hf⟩ | ⟨-, hr⟩
  · rw [hf]
    refine ⟨rfl, fun k => ?_⟩
    split_ifs with hkk
    · -- the floor was already that high
      subst hkk
      have hfl : g.floors.floor k = max (max (g.floors.floor k) (g.resident now k)) version :=
        le_antisymm (le_trans (le_max_left _ _) (le_max_left _ _)) hle
      cases hs : g.floors.floor? k with
      | none =>
        have : g.floors.floor k = 0 := by unfold VersionFloors.floor; rw [hs]; rfl
        have := (le_max_right (max (g.floors.floor k) (g.resident now k)) version).trans hle
        omega
      | some v => rw [← hfl, VersionFloors.floor_of_some hs]
    · rfl
  · have hd : dropped = none := by
      cases hd : dropped with
      | none => rfl
      | some old =>
        obtain ⟨h1, h2, -⟩ := hr.full old hd
        rcases hroom with hin | hlt
        · exact absurd hin h1
        · omega
    refine ⟨hr.capacity, fun k => ?_⟩
    rw [hr.floor? k, hd]
    simp

theorem notify_invalid {key : GoString} (hk : ¬ ValidKey key) (version now : ℤ) :
    g.notify now (key, version) = g := by
  unfold notify invalidateVersion validateKey
  rw [if_neg hk]

end Group

/-! ### Sequences of notifications -/

/-- The largest version notified for a key, 0 without one. -/
def peak (ns : List (GoString × ℤ)) (key : GoString) : ℤ :=
  ((ns.filter fun n => n.1 = key).map Prod.snd).foldl max 0

theorem peak_snoc (ns : List (GoString × ℤ)) (n : GoString × ℤ) (key : GoString) :
    peak (ns ++ [n]) key = if n.1 = key then max (peak ns key) n.2 else peak ns key := by
  unfold peak
  rw [List.filter_append, List.map_append, List.foldl_append]
  by_cases hk : n.1 = key
  · simp [hk]
  · simp [hk]

/-- The peak of a notified key is one of its versions and bounds them all. -/
theorem peak_spec {ns : List (GoString × ℤ)} (hpos : ∀ n ∈ ns, 0 < n.2) (key : GoString) :
    0 ≤ peak ns key ∧ (∀ v, (key, v) ∈ ns → v ≤ peak ns key) ∧
    (key ∈ ns.map Prod.fst → (key, peak ns key) ∈ ns) := by
  induction ns using List.reverseRecOn with
  | nil => exact ⟨le_rfl, by simp, by simp⟩
  | append_singleton ns n ih =>
    obtain ⟨h0, hle, hmem⟩ := ih fun m hm => hpos m (List.mem_append_left _ hm)
    obtain ⟨k, w⟩ := n
    have hw : 0 < w := hpos (k, w) (by simp)
    rw [peak_snoc]
    simp only
    split_ifs with hk
    · subst hk
      refine ⟨h0.trans (le_max_left _ _), fun v hv => ?_, fun _ => ?_⟩
      · rcases List.mem_append.mp hv with hv | hv
        · exact (hle v hv).trans (le_max_left _ _)
        · simp only [List.mem_singleton, Prod.mk.injEq, true_and] at hv
          exact hv ▸ le_max_right _ _
      · rcases le_total (peak ns k) w with hpw | hpw
        · rw [max_eq_right hpw]; simp
        · rw [max_eq_left hpw]
          refine List.mem_append_left _ (hmem ?_)
          -- a peak that is at least `w > 0` comes from a notification
          by_contra hno
          have hnil : ns.filter (fun n => n.1 = k) = [] := by
            rw [List.filter_eq_nil_iff]
            intro n hn hnk
            exact hno (List.mem_map.mpr ⟨n, hn, by simpa using hnk⟩)
          have : peak ns k = 0 := by unfold peak; rw [hnil]; rfl
          omega
    · refine ⟨h0, fun v hv => ?_, fun hin => ?_⟩
      · rcases List.mem_append.mp hv with hv | hv
        · exact hle v hv
        · simp only [List.mem_singleton, Prod.mk.injEq] at hv
          exact absurd hv.1.symm hk
      · refine List.mem_append_left _ (hmem ?_)
        simp only [List.map_append, List.map_cons, List.map_nil, List.mem_append, List.mem_singleton] at hin
        rcases hin with hin | hin
        · exact hin
        · exact absurd hin.symm hk

/-- The notifications that are accepted for a key. -/
def Mentioned (ns : List (GoString × ℤ)) (key : GoString) : Prop := ValidKey key ∧ key ∈ ns.map Prod.fst

instance (ns : List (GoString × ℤ)) : DecidablePred (Mentioned ns) := fun key => by
  unfold Mentioned; infer_instance

/-- The entry stays: every accepted notification for its key finds it unexpired and at least as new. -/
def Survives (now : ℤ) (ns : List (GoString × ℤ)) (e : Entry ByteView) : Prop :=
  ∀ n ∈ ns, ValidKey n.1 → e.key = n.1 → Group.outdated now n.2 e = false

instance (now : ℤ) (ns : List (GoString × ℤ)) : DecidablePred (Survives now ns) := fun e => by
  unfold Survives; infer_instance

/-- What a sequence of notifications leaves of a group, in terms of the set of its pairs. -/
structure Notified (g₀ : Group) (now : ℤ) (ns : List (GoString × ℤ)) (g : Group) : Prop where
  wf : g.WF
  capacity : g.floors.capacity = g₀.floors.capacity
  entries : g.mainCache.order = g₀.mainCache.order.filter fun e => Survives now ns e
  evictions : g.mainCache.evictions + g.mainCache.order.length =
    g₀.mainCache.evictions + g₀.mainCache.order.length
  floor? : ∀ key, g.floors.floor? key =
    if Mentioned ns key then some (max (max (g₀.floors.floor key) (g₀.resident now key)) (peak ns key))
    else g₀.floors.floor? key

theorem survives_snoc {now : ℤ} {ns : List (GoString × ℤ)} {n : GoString × ℤ} {e : Entry ByteView} :
    Survives now (ns ++ [n]) e ↔ Survives now ns e ∧ (ValidKey n.1 → e.key = n.1 → Group.outdated now n.2 e = false) := by
  unfold Survives
  simp only [List.mem_append, List.mem_singleton]
  exact ⟨fun h => ⟨fun m hm => h m (Or.inl hm), h n (Or.inr rfl)⟩,
    fun h m hm => hm.elim (h.1 m) fun hm => hm ▸ h.2⟩

theorem mentioned_snoc {ns : List (GoString × ℤ)} {n : GoString × ℤ} {key : GoString} :
    Mentioned (ns ++ [n]) key ↔ Mentioned ns key ∨ (ValidKey n.1 ∧ key = n.1) := by
  unfold Mentioned
  simp only [List.map_append, List.map_cons, List.map_nil, List.mem_append, List.mem_singleton]
  constructor
  · rintro ⟨hv, hin | rfl⟩
    · exact Or.inl ⟨hv, hin⟩
    · exact Or.inr ⟨hv, rfl⟩
  · rintro (⟨hv, hin⟩ | ⟨hv, rfl⟩)
    · exact ⟨hv, Or.inl hin⟩
    · exact ⟨hv, Or.inr rfl⟩

namespace Notified

variable {g₀ g : Group} {now : ℤ} {ns : List (GoString × ℤ)}

/-- An entry that survives is resident as before; one that does not counts for nothing. -/
theorem resident_le (h : Notified g₀ now ns g) (h₀ : g₀.WF) (key : GoString) :
    0 ≤ g₀.resident now key ∧ g.resident now key ≤ g₀.resident now key ∧
    (¬ Mentioned ns key → ValidKey key → g.resident now key = g₀.resident now key) := by
  have hmem : ∀ e, g.mainCache.find? key = some e ↔ g₀.mainCache.find? key = some e ∧ Survives now ns e := by
    intro e
    rw [MainCache.find?_eq_some h.wf.cache, MainCache.find?_eq_some h₀.cache, h.entries, List.mem_filter]
    simp only [decide_eq_true_eq]
    tauto
  rw [Group.resident_eq h.wf, Group.resident_eq h₀]
  cases hf : g₀.mainCache.find? key with
  | none =>
    have hn : g.mainCache.find? key = none := by
      cases hg : g.mainCache.find? key with
      | none => rfl
      | some e => exact absurd (hf.symm.trans ((hmem e).mp hg).1) (by simp)
    rw [hn]
    exact ⟨le_rfl, le_rfl, fun _ _ => rfl⟩
  | some e =>
    have h0 : 0 ≤ e.value.version := (VersionFloors.floor_nonneg h₀.floors key).trans (h₀.above key e hf)
    by_cases hs : Survives now ns e
    · rw [(hmem e).mpr ⟨hf, hs⟩]
      refine ⟨?_, le_rfl, fun _ _ => rfl⟩
      simp only
      split_ifs
      · exact le_rfl
      · exact h0
    · have hn : g.mainCache.find? key = none := by
        cases hg : g.mainCache.find? key with
        | none => rfl
        | some e' =>
          obtain ⟨h1, h2⟩ := (hmem e').mp hg
          rw [hf, Option.some.injEq] at h1
          exact absurd (h1 ▸ h2) hs
      rw [hn]
      have hR : 0 ≤ if e.expired now = true then 0 else e.value.version := by
        split_ifs
        · exact le_rfl
        · exact h0
      refine ⟨hR, hR, fun hno hval => absurd ?_ hs⟩
      -- a key that is not mentioned keeps its entry
      intro n hn _ hek
      have hkey : e.key = key := ((MainCache.find?_eq_some h₀.cache).mp hf).2
      exact absurd ⟨hval, List.mem_map.mpr ⟨n, hn, hek.symm.trans hkey⟩⟩ hno

/-- A key that is not among the floors finds room, if all the recorded keys together do. -/
theorem room (h : Notified g₀ now ns g) (h₀ : g₀.WF) {key : GoString} (hk : ValidKey key) {all : List (GoString × ℤ)}
    (hsub : ∀ n ∈ ns, n ∈ all) (hin : key ∈ all.map Prod.fst)
    (hroom : (g₀.floors.keys.toFinset ∪ (all.map Prod.fst).toFinset.filter ValidKey).card ≤ g₀.floors.capacity) :
    key ∈ g.floors.keys ∨ g.floors.keys.length < g.floors.capacity := by
  by_cases hkey : key ∈ g.floors.keys
  · exact Or.inl hkey
  right
  have hss : insert key g.floors.keys.toFinset ⊆
      g₀.floors.keys.toFinset ∪ (all.map Prod.fst).toFinset.filter ValidKey := by
    intro k hk'
    rw [Finset.mem_union, List.mem_toFinset, Finset.mem_filter, List.mem_toFinset]
    rcases Finset.mem_insert.mp hk' with rfl | hk'
    · exact Or.inr ⟨hin, hk⟩
    · have hs := (VersionFloors.mem_keys h.wf.floors).mp (List.mem_toFinset.mp hk')
      rw [h.floor? k] at hs
      split_ifs at hs with hm
      · obtain ⟨hval, hmem⟩ := hm
        obtain ⟨n, hn, rfl⟩ := List.mem_map.mp hmem
        exact Or.inr ⟨List.mem_map.mpr ⟨n, hsub n hn, rfl⟩, hval⟩
      · exact Or.inl ((VersionFloors.mem_keys h₀.floors).mpr hs)
  have hcard := (Finset.card_le_card hss).trans hroom
  rw [Finset.card_insert_of_notMem (by simpa using hkey),
    List.toFinset_card_of_nodup (VersionFloors.keys_nodup h.wf.floors)] at hcard
  rw [h.capacity]
  omega

/-- One more notification. -/
theorem snoc (h : Notified g₀ now ns g) (h₀ : g₀.WF) {key : GoString} {version : ℤ} (hv : 0 < version)
    (hroom : ValidKey key → key ∈ g.floors.keys ∨ g.floors.keys.length < g.floors.capacity) :
    Notified g₀ now (ns ++ [(key, version)]) (g.notify now (key, version)) := by
  by_cases hk : ValidKey key
  · obtain ⟨hwf, hcap, hfl⟩ := Group.notify_floor? h.wf hk hv now (hroom hk)
    obtain ⟨hent, hev⟩ := Group.notify_entries h.wf hk hv now
    refine ⟨hwf, hcap.trans h.capacity, ?_, hev.trans h.evictions, fun k => ?_⟩
    · rw [hent, h.entries, List.filter_filter]
      refine List.filter_congr fun e _ => ?_
      rw [Bool.eq_iff_iff]
      simp only [Bool.and_eq_true, decide_eq_true_eq, survives_snoc]
      simp only [hk, true_implies, not_and, Bool.not_eq_true]
      tauto
    · rw [hfl k, peak_snoc]
      obtain ⟨hR0, hRle, hReq⟩ := h.resident_le h₀ k
      by_cases hkk : k = key
      · subst hkk
        rw [if_pos rfl, if_pos (mentioned_snoc.mpr (Or.inr ⟨hk, rfl⟩)), if_pos rfl, Option.some.injEq]
        have hfk := h.floor? k
        by_cases hm : Mentioned ns k
        · -- a floor that is there already covers what was resident
          rw [if_pos hm] at hfk
          rw [VersionFloors.floor_of_some hfk]
          omega
        · rw [if_neg hm] at hfk
          have hfeq : g.floors.floor k = g₀.floors.floor k := by unfold VersionFloors.floor; rw [hfk]
          have hpk : peak ns k = 0 := by
            have hnil : ns.filter (fun n => n.1 = k) = [] := by
              rw [List.filter_eq_nil_iff]
              intro n hn hnk
              exact hm ⟨hk, List.mem_map.mpr ⟨n, hn, by simpa using hnk⟩⟩
            unfold peak
            rw [hnil]
            rfl
          rw [hfeq, hReq hm hk, hpk]
          simp only
          omega
      · have hkk' : ¬ key = k := fun e => hkk e.symm
        rw [if_neg hkk, h.floor? k]
        simp only [hkk', if_false]
        refine if_congr ?_ rfl rfl
        rw [mentioned_snoc]
        simp [hkk]
  · rw [Group.notify_invalid hk]
    refine ⟨h.wf, h.capacity, ?_, h.evictions, fun k => ?_⟩
    · rw [h.entries]
      refine List.filter_congr fun e _ => ?_
      rw [Bool.eq_iff_iff]
      simp only [decide_eq_true_eq, survives_snoc, hk, false_implies, and_true]
    · rw [h.floor? k]
      have hiff : Mentioned (ns ++ [(key, version)]) k ↔ Mentioned ns k := by
        rw [mentioned_snoc]; simp [hk]
      by_cases hm : Mentioned ns k
      · have hne : ¬ key = k := fun e => hk (e ▸ hm.1)
        rw [if_pos hm, if_pos (hiff.mpr hm), peak_snoc]
        simp [hne]
      · rw [if_neg hm, if_neg (hiff.not.mpr hm)]

end Notified

theorem notified_all {g₀ : Group} (h₀ : g₀.WF) (now : ℤ) (ns all : List (GoString × ℤ)) (hsub : ∀ n ∈ ns, n ∈ all)
    (hpos : ∀ n ∈ ns, 0 < n.2)
    (hroom : (g₀.floors.keys.toFinset ∪ (all.map Prod.fst).toFinset.filter ValidKey).card ≤ g₀.floors.capacity) :
    Notified g₀ now ns (g₀.notifyAll now ns) := by
  induction ns using List.reverseRecOn with
  | nil =>
    refine ⟨h₀, rfl, ?_, rfl, fun key => ?_⟩
    · exact (List.filter_eq_self.mpr (by simp [Survives])).symm
    · simp [Mentioned, Group.notifyAll]
  | append_singleton ns n ih =>
    have hsub' : ∀ m ∈ ns, m ∈ all := fun m hm => hsub m (List.mem_append_left _ hm)
    have hN := ih hsub' fun m hm => hpos m (List.mem_append_left _ hm)
    have hstep : g₀.notifyAll now (ns ++ [n]) = (g₀.notifyAll now ns).notify now (n.1, n.2) := by
      unfold Group.notifyAll
      rw [List.foldl_append]
      rfl
    rw [hstep]
    exact hN.snoc h₀ (hpos n (by simp)) fun hk =>
      hN.room h₀ hk hsub' (List.mem_map.mpr ⟨n, hsub n (by simp), rfl⟩) hroom

/-- The floors and the entries depend on the set of the pairs only. -/
theorem Notified.eq {g₀ a b : Group} {now : ℤ} {ns ns' : List (GoString × ℤ)} (ha : Notified g₀ now ns a)
    (hb : Notified g₀ now ns' b) (hpos : ∀ n ∈ ns, 0 < n.2) (hset : ∀ n, n ∈ ns ↔ n ∈ ns') :
    (∀ key, a.floors.floor? key = b.floors.floor? key) ∧ a.mainCache.order = b.mainCache.order := by
  have hment : ∀ key, Mentioned ns key ↔ Mentioned ns' key := fun key => by
    unfold Mentioned
    simp only [List.mem_map, hset]
  refine ⟨fun key => ?_, ?_⟩
  · rw [ha.floor? key, hb.floor? key]
    by_cases hm : Mentioned ns key
    · rw [if_pos hm, if_pos ((hment key).mp hm)]
      obtain ⟨-, hle, hmem⟩ := peak_spec hpos key
      obtain ⟨-, hle', hmem'⟩ := peak_spec (fun n hn => hpos n ((hset n).mpr hn)) key
      -- each peak is one of the other's versions
      have h1 := hle' _ ((hset _).mp (hmem hm.2))
      have h2 := hle _ ((hset _).mpr (hmem' ((hment key).mp hm).2))
      rw [le_antisymm h1 h2]
    · rw [if_neg hm, if_neg fun hm' => hm ((hment key).mpr hm')]
  · rw [ha.entries, hb.entries]
    refine List.filter_congr fun e _ => ?_
    unfold Survives
    simp only [hset]

/-- **Duplicated and reordered notifications commute.**  From every reachable state, at a fixed time, two sequences
of notifications with the same set of (key, version) pairs, and room for the keys they record, leave the same
floors and the same stored entries in the same order, with the same byte count and the same number of removals.
The floor of a notified key is the largest of its floor, the version of its unexpired entry and its notified
versions, and the other floors stay.  A stored entry stays exactly if every notification accepted for its key
finds it unexpired and at least as new. -/
theorem notifications_commute {name : GoString} {capacity : ℤ} {versioned : Bool} {bloom : Option BloomFilter}
    {opts : Options} {g₀ g : Group} {tr : List SectionEvent}
    (h₀ : newGroup name capacity versioned bloom opts = some g₀) (h : Run Group.step g₀ tr g) (now : ℤ)
    (ns ns' : List (GoString × ℤ)) (hpos : ∀ n ∈ ns, 0 < n.2) (hset : ∀ n, n ∈ ns ↔ n ∈ ns')
    (hroom : (g.floors.keys.toFinset ∪ (ns.map Prod.fst).toFinset.filter ValidKey).card ≤ g.floors.capacity) :
    (∀ key, (g.notifyAll now ns).floors.floor? key = (g.notifyAll now ns').floors.floor? key) ∧
    (∀ key, Mentioned ns key → ∃ m, (g.notifyAll now ns).floors.floor? key = some m ∧
      IsGreatest ({g.floors.floor key, g.resident now key} ∪ {v | (key, v) ∈ ns}) m) ∧
    (∀ key, ¬ Mentioned ns key → (g.notifyAll now ns).floors.floor? key = g.floors.floor? key) ∧
    (g.notifyAll now ns).mainCache.order = (g.notifyAll now ns').mainCache.order ∧
    (g.notifyAll now ns).mainCache.bytes = (g.notifyAll now ns').mainCache.bytes ∧
    (g.notifyAll now ns).mainCache.evictions = (g.notifyAll now ns').mainCache.evictions ∧
    (∀ e, e ∈ (g.notifyAll now ns).mainCache.order ↔ e ∈ g.mainCache.order ∧
      ∀ v, ValidKey e.key → (e.key, v) ∈ ns → e.expired now = false ∧ v ≤ e.value.version) := by
  have hwf := (ordered_run h₀ h).wf
  have ha := notified_all hwf now ns ns (fun _ hn => hn) hpos hroom
  have hb := notified_all hwf now ns' ns (fun n hn => (hset n).mpr hn) (fun n hn => hpos n ((hset n).mpr hn)) hroom
  obtain ⟨hfl, hent⟩ := ha.eq hb hpos hset
  refine ⟨hfl, fun key hm => ?_, fun key hm => by rw [ha.floor? key, if_neg hm], hent, ?_, ?_, fun e => ?_⟩
  · obtain ⟨-, hle, hmem⟩ := peak_spec hpos key
    refine ⟨_, by rw [ha.floor? key, if_pos hm], ?_, ?_⟩
    · simp only [Set.mem_union, Set.mem_insert_iff, Set.mem_singleton_iff, Set.mem_ofPred_eq]
      rcases le_total (max (g.floors.floor key) (g.resident now key)) (peak ns key) with hp | hp
      · rw [max_eq_right hp]
        exact Or.inr (hmem hm.2)
      · rw [max_eq_left hp]
        exact Or.inl (max_choice _ _)
    · rintro v (hv | hv)
      · rcases hv with rfl | rfl
        · exact (le_max_left _ _).trans (le_max_left _ _)
        · exact (le_max_right _ _).trans (le_max_left _ _)
      · exact (hle v hv).trans (le_max_right _ _)
  · rw [MainCache.bytes_eq ha.wf.cache, MainCache.bytes_eq hb.wf.cache, hent]
  · have h1 := ha.evictions
    have h2 := hb.evictions
    rw [hent] at h1
    omega
  · rw [ha.entries, List.mem_filter, decide_eq_true_eq]
    refine and_congr_right fun _ => ⟨fun hs v hk hv => ?_, fun hs n hn hk hek => ?_⟩
    · have ho := hs _ hv hk rfl
      simp only [Group.outdated, Bool.or_eq_false_iff, decide_eq_false_iff_not, not_lt] at ho
      exact ho
    · obtain ⟨h1, h2⟩ := hs n.2 (hek ▸ hk) (by rw [hek]; exact hn)
      simp [Group.outdated, h1, h2]

/-- A value of version 5 is loaded for one key. -/
def loaded : List Section := [.fill [98] ⟨[118], none, 5, 0⟩ ⟨0, 0⟩ 0 0 0]

/-- Two notifications of that key and one of another, reordered and repeated, leave the same. -/
theorem notifications_commute_loaded :
    ∃ tr g, Run Group.step smallGroup tr g ∧ g.mainCache.order.length = 1 ∧
      (g.notifyAll 0 [([98], 4), ([98], 6), ([97], 7)]).mainCache.order =
        (g.notifyAll 0 [([97], 7), ([98], 6), ([98], 4), ([98], 6)]).mainCache.order := by
  have hrun := exec_run Group.step loaded smallGroup _ _ rfl
  refine ⟨_, _, hrun, by decide, ?_⟩
  refine (notifications_commute smallGroup_eq hrun 0 _ _ (by decide) (fun n => ?_) ?_).2.2.2.1
  · simp only [List.mem_cons, List.not_mem_nil, or_false]
    tauto
  · decide

/-- A key that is not notified keeps no floor although a version of it is resident, and an expired entry goes
although its version is the notified one. -/
theorem unnotified_floor_absent :
    ∃ tr g, Run Group.step smallGroup tr g ∧ g.resident 0 [98] = 5 ∧
      (g.notifyAll 0 [([97], 7)]).floors.floor? [98] = none ∧
      (∃ e ∈ g.mainCache.order, e.key = [98] ∧ e.value.version = 5) ∧
      (g.notifyAll 60000000000 [([98], 5)]).mainCache.order = [] := by
  have hrun := exec_run Group.step loaded smallGroup _ _ rfl
  refine ⟨_, _, hrun, by decide, by decide, ?_, ?_⟩
  · decide
  · decide

end SimpleCache.Cache
