import SimpleCache.Cache.VersionStore

/-!
# Cache.KnownKeys — the Bloom check of a group (`cache/group.go`, `read.go`)

A group that is built with `KnownKeys` asks its filter before it goes to the source.  No section writes the filter, so
what `contains_adds` says about the new filter holds in every reachable state: a known key is never rejected.
-/

namespace SimpleCache.Cache

open Lib BloomFilter

/-- `NewGroup` with `opts.KnownKeys`; no keys is the nil slice, for which there is no filter. -/
def newGroupForKeys (estimate : ℕ → UInt64) (probes : UInt64 → ℕ → ℕ) (name : GoString) (capacity : ℤ)
    (versioned : Bool) (knownKeys : Option (List GoString)) (opts : Options) : Option Group :=
  newGroup name capacity versioned (knownKeys.bind (newBloomForKeys estimate probes)) opts

theorem newGroup_bloom {name : GoString} {capacity : ℤ} {versioned : Bool} {bloom : Option BloomFilter}
    {opts : Options} {g : Group} (h : newGroup name capacity versioned bloom opts = some g) : g.bloom = bloom := by
  unfold newGroup at h
  split_ifs at h
  obtain ⟨o, -, rfl⟩ := Option.map_eq_some_iff.mp h
  rfl

namespace Group

/-! ### No section writes the filter -/

theorem step_bloom {g g' : Group} {a : Section} {o : Outcome} (h : g.WF) (hst : g.step a = some (g', o)) :
    g'.WF ∧ g'.bloom = g.bloom := by
  refine ⟨(step_cases h hst).1, ?_⟩
  cases a with
  | fill key view fence now now₁ now₂ =>
    obtain ⟨rfl, -⟩ := Prod.mk.inj (Option.some.inj hst)
    rw [(fill_spec h key view fence now now₁ now₂).eq]
  | invalidate key version now now' =>
    obtain ⟨rfl, -⟩ := Prod.mk.inj (Option.some.inj hst)
    by_cases hok : ValidKey key ∧ 0 ≤ version
    · obtain ⟨-, dropped, hinv⟩ := invalidate_spec h hok.1 hok.2 now now'
      exact hinv.bloom
    · rw [(invalidate_refused hok now now').2]
  | lookup ctx key now =>
    obtain ⟨rfl, -⟩ := Prod.mk.inj (Option.some.inj hst)
    rw [(reads_lookup h ctx key now).eq]
  | barrier key now =>
    obtain ⟨rfl, -⟩ := Prod.mk.inj (Option.some.inj hst)
    rw [(reads_readBarrier h key now).eq]
  | clean busy now start ticks =>
    obtain ⟨rfl, -⟩ := Prod.mk.inj (Option.some.inj hst)
    rw [(reads_cleanExpired h busy now start ticks).eq]

theorem run_bloom {g g' : Group} {tr : List SectionEvent} (hg : g.WF) (h : Run Group.step g tr g') :
    g'.bloom = g.bloom := by
  refine (h.inv (I := fun s => s.WF ∧ s.bloom = g.bloom) ⟨hg, rfl⟩ fun s a o s' hs hst => ?_).2
  obtain ⟨hwf, hbloom⟩ := step_bloom hs.1 hst
  exact ⟨hwf, hbloom.trans hs.2⟩

/-- A lookup finds nothing only on the word of the filter. -/
theorem lookup_notFound {g : Group} {ctx : Option Err} {key : GoString} {now : ℤ}
    (h : (g.lookup ctx key now).1 = .error .notFound) (hctx : ctx ≠ some .notFound) :
    ∃ bf, g.bloom = some bf ∧ bf.contains key = false := by
  unfold lookup at h
  split at h
  · next e =>
    exact absurd (congrArg some (Except.error.inj h)) hctx
  · split at h
    · next e he =>
      unfold validateKey at he
      split_ifs at he
      rw [Except.error.inj h] at he
      cases he
    · dsimp only at h
      split at h
      · cases h
      · split at h
        · cases h
        · next bf hbf =>
          dsimp only at h
          split_ifs at h with hcontains
          exact ⟨bf, hbf, Bool.not_eq_true _ ▸ hcontains⟩

/-- **The Bloom check has no false negatives.**  A filter of every size and every number of probes contains all keys
that were added to it and whatever it contained before more were added; the probes are computed modulo 2^64 and fall
into the bitset.  A group that is built with known keys never rejects one of them, in any state that its sections
reach. -/
theorem bloom_no_false_negatives :
    (∀ (size : UInt64) (hashes : ℕ), 0 < size.toNat → 0 < hashes →
      ∃ bf, newBloomFilter size hashes = some bf ∧ ∀ keys : List GoString,
        (∀ key ∈ keys, (bf.adds keys).contains key = true) ∧
        (∀ more key, (bf.adds keys).contains key = true → (bf.adds (keys ++ more)).contains key = true) ∧
        ∀ key i, ((bf.adds keys).probe key i).toNat =
            ((bloomHashes key).1.toNat + i * (bloomHashes key).2.toNat) % 2 ^ 64 % size.toNat ∧
          ((bf.adds keys).probe key i).toNat / 64 < (bf.adds keys).bitset.length) ∧
    ∀ estimate probes name capacity versioned keys opts g₀ tr g,
      newGroupForKeys estimate probes name capacity versioned (some keys) opts = some g₀ → Run Group.step g₀ tr g →
      ∀ key ∈ keys, ∀ ctx now minimum, ctx ≠ some .notFound →
        (g.lookup ctx key now).1 ≠ .error .notFound ∧ (g.lookupAtLeast ctx key minimum now).1 ≠ .error .notFound := by
  constructor
  · intro size hashes hsize hhashes
    refine ⟨_, dif_pos ⟨hsize, hhashes⟩, fun keys => ⟨fun key => contains_adds _, fun more key hkey => ?_, ?_⟩⟩
    · rw [adds_append]
      exact contains_adds_of_contains hkey more
    · intro key i
      refine ⟨?_, probe_word_lt _ key i⟩
      rw [probe_toNat, (bit_adds keys _).1]
  · intro estimate probes name capacity versioned keys opts g₀ tr g h₀ hrun key hkey ctx now minimum hctx
    obtain ⟨bf, hbf⟩ := exists_newBloomForKeys estimate probes keys
    have hbloom : g.bloom = some (bf.adds keys) := by
      rw [run_bloom (wf_newGroup h₀).1 hrun, newGroup_bloom h₀, Option.bind_some, hbf]
    have hfound : (g.lookup ctx key now).1 ≠ .error .notFound := by
      intro h
      obtain ⟨bf', hbf', hnot⟩ := lookup_notFound h hctx
      rw [hbloom, Option.some.injEq] at hbf'
      rw [← hbf', contains_adds bf hkey] at hnot
      cases hnot
    exact ⟨hfound, fun h => hfound ((g.lookupAtLeast_eq ctx key minimum now).2.2 _ h)⟩

/-- One known key, in a filter of 64 bits with 3 probes and in a group. -/
theorem bloom_no_false_negatives_single :
    (∃ bf, newBloomFilter 64 3 = some bf ∧ (bf.adds [[97]]).contains [97] = true) ∧
    ∃ g₀, newGroupForKeys (fun _ => 10) (fun _ _ => 7) [103] 1000 true (some [[97]]) ⟨0, 0, 0, 0, 0, 0⟩ = some g₀ ∧
      (g₀.lookup none [97] 0).1 ≠ .error .notFound :=
  have ⟨bf, hbf, hkeys⟩ := bloom_no_false_negatives.1 64 3 (by decide) (by decide)
  have ⟨g₀, hg₀⟩ : ∃ g₀, newGroupForKeys (fun _ => 10) (fun _ _ => 7) [103] 1000 true (some [[97]])
      ⟨0, 0, 0, 0, 0, 0⟩ = some g₀ := Option.isSome_iff_exists.mp rfl
  ⟨⟨bf, hbf, (hkeys [[97]]).1 [97] (List.mem_singleton_self _)⟩, g₀, hg₀,
    (bloom_no_false_negatives.2 _ _ _ _ _ [[97]] _ g₀ [] g₀ hg₀ .nil [97] (List.mem_singleton_self _) none 0 0
      nofun).1⟩

end Group

end SimpleCache.Cache
