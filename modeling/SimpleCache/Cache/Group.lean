import Mathlib.Logic.Function.Basic
import SimpleCache.Cache.Bloom
import SimpleCache.Cache.Resident

/-!
# Cache.Group — version floors, epochs and the sections under `epochMu`

`group.go`, `versions.go` and the part of `load.go` that checks and inserts a loaded value.  Floors and epochs
are only touched under `epochMu`, so each of `invalidateVersion`, `readBarrier` and `fill` is one step.  The
readings of the clock that such a section makes are arguments, in order.  Epochs are unbounded naturals.
-/

namespace SimpleCache.Cache

open SimpleCache.Lib

/-! ### Options and state -/

/-- `Options`: the fields the modelled functions read; durations in nanoseconds. -/
structure Options where
  ttl : ℤ
  sourceTimeout : ℤ
  epochBuckets : ℤ
  maxMissWaiters : ℤ
  cleanupInterval : ℤ
  cleanupBatch : ℤ
  deriving DecidableEq, Repr

/-- What `normalizeOptions` returns. -/
structure Options.Normal (o : Options) : Prop where
  ttl : 0 < o.ttl
  sourceTimeout : 0 < o.sourceTimeout
  buckets : 1 ≤ o.epochBuckets ∧ o.epochBuckets ≤ 256
  power : o.epochBuckets.toNat &&& (o.epochBuckets.toNat - 1) = 0
  waiters : 1 ≤ o.maxMissWaiters
  interval : 0 < o.cleanupInterval
  batch : 1 ≤ o.cleanupBatch

/-- The zero fields of the options take their defaults. -/
def Options.defaults (o : Options) : Options where
  ttl := if o.ttl = 0 then 60000000000 else o.ttl
  sourceTimeout := if o.sourceTimeout = 0 then 800000000 else o.sourceTimeout
  epochBuckets := if o.epochBuckets = 0 then 256 else o.epochBuckets
  maxMissWaiters := if o.maxMissWaiters = 0 then 128 else o.maxMissWaiters
  cleanupInterval := if o.cleanupInterval = 0 then 1000000000 else o.cleanupInterval
  cleanupBatch := if o.cleanupBatch = 0 then 128 else o.cleanupBatch

/-- The conditions under which `normalizeOptions` does not panic, given `d = o.defaults`. -/
def Options.ok (o d : Options) : Bool :=
  !(o.ttl < 0 || o.sourceTimeout < 0) &&
  !(d.epochBuckets < 1 || d.epochBuckets > 256 ||
    d.epochBuckets.toNat &&& (d.epochBuckets.toNat - 1) != 0) &&
  !(d.maxMissWaiters < 1 || d.cleanupInterval < 0 || d.cleanupBatch < 1)

theorem Options.normal_of_ok {o : Options} (h : o.ok o.defaults = true) : o.defaults.Normal := by
  simp only [ok, Bool.and_eq_true, Bool.not_eq_true', Bool.or_eq_false_iff, decide_eq_false_iff_not,
    not_lt, bne_eq_false_iff_eq] at h
  obtain ⟨⟨⟨h1, h2⟩, ⟨h3, h4⟩, h5⟩, ⟨h6, h7⟩, h8⟩ := h
  refine ⟨?_, ?_, ⟨h3, by simpa using h4⟩, h5, h6, ?_, h8⟩
  · simp only [defaults]; split_ifs <;> omega
  · simp only [defaults]; split_ifs <;> omega
  · simp only [defaults] at h7 ⊢; split_ifs at h7 ⊢ <;> omega

/-- `normalizeOptions`; `none` is its panic. -/
def normalizeOptions (o : Options) : Option { d : Options // d.Normal } :=
  if h : o.ok o.defaults = true then some ⟨o.defaults, o.normal_of_ok h⟩ else none

/-- `versionRecord`. -/
structure VersionRecord where
  key : GoString
  version : ℤ
  deriving DecidableEq, Repr

/-- `versionFloors`. -/
structure VersionFloors where
  capacity : ℕ
  entries : Index GoString
  /-- Front is most recently inserted or advanced. -/
  advanced : LinkedList VersionRecord
  evictions : ℕ

/-- `DefaultVersionRecords`. -/
def defaultVersionRecords : ℕ := 1024

/-- `Group`; `versioned` says whether its getter is a `VersionedGetter`. -/
structure Group where
  name : GoString
  versioned : Bool
  mainCache : MainCache
  bloom : Option BloomFilter
  floors : VersionFloors
  epochs : Fin 256 → ℕ
  opts : Options
  normal : opts.Normal

/-- `NewGroup`; `none` is its panic. -/
def newGroup (name : GoString) (capacity : ℤ) (versioned : Bool) (bloom : Option BloomFilter) (opts : Options) :
    Option Group :=
  if name = [] ∨ capacity ≤ 0 then none
  else (normalizeOptions opts).map fun o => {
    name := name
    versioned := versioned
    mainCache := ⟨none, capacity⟩
    bloom := bloom
    floors := ⟨defaultVersionRecords, ∅, .empty, 0⟩
    epochs := fun _ => 0
    opts := o.1
    normal := o.2 }

/-- `readFence`. -/
structure ReadFence where
  epoch : ℕ
  minimum : ℤ
  deriving DecidableEq, Repr

def ReadFence.withMinimum (f : ReadFence) (minimum : ℤ) : ReadFence :=
  { f with minimum := max f.minimum minimum }

namespace Group

/-! ### The sections -/

theorem bucket_lt {n : ℤ} (h : 1 ≤ n ∧ n ≤ 256) (x : ℕ) : x &&& (n.toNat - 1) < 256 := by
  have := Nat.and_le_right (n := x) (m := n.toNat - 1)
  omega

/-- `epochBucket`: the stripe of a key. -/
def epochBucket (g : Group) (key : GoString) : Fin 256 :=
  ⟨(fnv64a key).toNat &&& (g.opts.epochBuckets.toNat - 1), bucket_lt g.normal.buckets _⟩

/-- `g.epochs[g.epochBucket(key)]++`. -/
def bump (g : Group) (key : GoString) : Group :=
  { g with epochs := Function.update g.epochs (g.epochBucket key) (g.epochs (g.epochBucket key) + 1) }

/-- The record that the map holds for a key. -/
def record? (g : Group) (key : GoString) : Option VersionRecord := g.floors.advanced.deref g.floors.entries key

/-- `knownVersionLocked`.  The version peek may remove an expired entry. -/
def knownVersionLocked (g : Group) (key : GoString) (now : ℤ) : ℤ × Group :=
  let version :=
    match g.record? key with
    | none => 0
    | some r => r.version
  let peek := g.mainCache.version key now
  (max version peek.1, { g with mainCache := peek.2 })

/-- The floor at the back of the list is retired with the flights of its stripe. -/
def retire (g : Group) : Group :=
  match g.floors.advanced.back with
  | none => g
  | some old =>
    match g.floors.advanced.get? old with
    | none => g
    | some forgotten =>
      bump { g with
        floors :=
          { g.floors with
            entries := g.floors.entries.erase forgotten.key
            advanced := g.floors.advanced.remove old
            evictions := g.floors.evictions + 1 } } forgotten.key

/-- `rememberVersionLocked`. -/
def rememberVersionLocked (g : Group) (key : GoString) (version : ℤ) : Group :=
  if version ≤ 0 then g
  else
    match g.floors.entries.lookup key with
    | some e =>
      match g.floors.advanced.get? e with
      | none => g
      | some record =>
        if version > record.version then
          { g with
            floors :=
              { g.floors with
                advanced := (g.floors.advanced.set e { record with version := version }).moveToFront e } }
        else g
    | none =>
      let g := if g.floors.entries.keys.length = g.floors.capacity then g.retire else g
      let r := g.floors.advanced.pushFront ⟨key, version⟩
      { g with
        floors :=
          { g.floors with
            entries := g.floors.entries.insert key r.1
            advanced := r.2 } }

/-- The end of `InvalidateVersion`: `if version == 0 || g.mainCache.version(key) < minimum` the local copy goes. -/
def evictBelow (g : Group) (key : GoString) (version minimum now' : ℤ) : Group :=
  -- a forced invalidation does not look at the version
  if version = 0 then { g with mainCache := g.mainCache.remove key }
  else
    let peek := g.mainCache.version key now'
    { g with mainCache := if peek.1 < minimum then peek.2.remove key else peek.2 }

/-- `InvalidateVersion`; `true` is "applied", `false` is "ignored". -/
def invalidateVersion (g : Group) (key : GoString) (version : ℤ) (now now' : ℤ) : Except Err Bool × Group :=
  match validateKey key with
  | .error e => (.error e, g)
  | .ok _ =>
    if version < 0 then (.error .invalidVersion, g)
    else
      let k := g.knownVersionLocked key now
      let known := k.1
      let g := k.2.rememberVersionLocked key (max known version)
      let applied := decide (version = 0 ∨ version > known)
      let g := if applied then g.bump key else g
      (.ok applied, g.evictBelow key version (max known version) now')

/-- `readBarrier`. -/
def readBarrier (g : Group) (key : GoString) (now : ℤ) : ReadFence × Group :=
  let k := g.knownVersionLocked key now
  (⟨g.epochs (g.epochBucket key), k.1⟩, k.2)

/-- The outcome of the check of a loaded value: `ErrStaleVersion` or the value, with the minimum it was checked
against, and whether the value was given to the cache. -/
structure Filled where
  result : Except Err ByteView
  minimum : ℤ
  valid : Bool

/-- The end of `loadSource`: the value is checked and inserted under `epochMu`. -/
def fill (g : Group) (key : GoString) (view : ByteView) (fence : ReadFence) (now now₁ now₂ : ℤ) :
    Filled × Group :=
  let k := g.knownVersionLocked key now
  let g := k.2
  let minimum := max fence.minimum k.1
  let stale := decide (view.version < minimum)
  let valid := decide (fence.epoch = g.epochs (g.epochBucket key)) && !stale
  let r := if valid then g.mainCache.add key view g.opts.ttl now₁ now₂ else (view, g.mainCache)
  (⟨if stale then .error .staleVersion else .ok r.1, minimum, valid⟩, { g with mainCache := r.2 })

/-- `lookup`; `ctx` is `ctx.Err()`. -/
def lookup (g : Group) (ctx : Option Err) (key : GoString) (now : ℤ) : Except Err (Option ByteView) × Group :=
  match ctx with
  | some e => (.error e, g)
  | none =>
    match validateKey key with
    | .error e => (.error e, g)
    | .ok _ =>
      let r := g.mainCache.get key now
      let g := { g with mainCache := r.2 }
      match r.1 with
      | some v => (.ok (some v), g)
      | none =>
        match g.bloom with
        | none => (.ok none, g)
        | some bf => (if bf.contains key then .ok none else .error .notFound, g)

/-- `lookupAtLeast`: a hit below the minimum is a miss. -/
def lookupAtLeast (g : Group) (ctx : Option Err) (key : GoString) (minimum : ℤ) (now : ℤ) :
    Except Err (Option ByteView) × Group :=
  match g.lookup ctx key now with
  | (.ok (some v), g) => (.ok (if v.version < minimum then none else some v), g)
  | r => r

/-- `CleanExpired`. -/
def cleanExpired (g : Group) (busy : Bool) (now start : ℤ) (ticks : ℕ → ℤ) : Group :=
  { g with mainCache := (g.mainCache.cleanExpired g.opts.cleanupBatch busy now start ticks).2 }

end Group

end SimpleCache.Cache
