import SimpleCache.Postgres.Sql

/-!
# Postgres.Products — reads and mutations of the product table (`source/postgres/postgres.go`)

Every mutation is one statement `WITH changed AS (…) INSERT INTO simplecache_outbox … SELECT … FROM
changed`.  `upsert` and `update` compute what the first part returns, `Db.emit` is the second part; the
four mutations differ in the first part and in how they report the outcome.  The answer of a statement that was carried
out may be lost on its way; the call then returns an error (`heard`).

`Db.mutate_commits` and `Db.mutate_not_commits` say once what a mutation can do: one more generation of
its key with one event, or nothing.
-/

namespace SimpleCache.Postgres

open SimpleCache.Cache

/-- `ctx.Err()` of a context that is done. -/
inductive CtxErr
  | canceled
  | deadlineExceeded
  deriving DecidableEq, Repr

def CtxErr.err : CtxErr → Err
  | .canceled => .canceled
  | .deadlineExceeded => .deadlineExceeded

/-- What surrounds the execution of one statement. -/
structure Exec where
  /-- `clock_timestamp()` as read by the WHERE clause and the column defaults. -/
  now : ℤ
  /-- `clock_timestamp()` as read by the SET clause, which runs after the WHERE clause. -/
  later : ℤ
  /-- `ctx.Err()` when the statement has returned. -/
  ctx : Option CtxErr
  /-- `some n`: the statement fails inside the database, with `n` sequence values already drawn
  (`nextval` is not rolled back). -/
  fault : Option ℕ
  /-- Outbox rows that other sessions have locked. -/
  locked : List ℤ
  deriving DecidableEq, Repr

/-- `writeError` of a driver error. -/
def writeError (x : Exec) : Err :=
  match x.ctx with
  | some c => c.err
  | none => .message "PostgreSQL write failed"

/-- The generation of a key: the version of its row, 0 without one. -/
def generation : Option Product → ℤ
  | none => 0
  | some p => p.version

/-- `SELECT value, version … WHERE key = $1 AND NOT deleted`. -/
def Db.getVersioned (db : Db) (key : GoString) : Except Err (GoString × ℤ) :=
  if ValidKey key then
    match db.products key with
    | some p => if p.deleted then .error .notFound else .ok (p.value, p.version)
    | none => .error .notFound
  else .error .invalidKey

/-! ### The two parts of a mutation statement -/

/-- `version + 1` in a `bigint` column; out of range is an error of the statement. -/
def nextVersion (p : Product) : Except Unit ℤ :=
  if p.version + 1 ≤ Go.maxInt64 then .ok (p.version + 1) else .error ()

/-- `INSERT … ON CONFLICT (key) DO UPDATE SET value = EXCLUDED.value, version = version + 1,
deleted = false WHERE cond RETURNING key, version`. -/
def upsert (row : Option Product) (value : GoString) (cond : Product → Bool) :
    Except Unit (Option Product) :=
  match row with
  | none => .ok (some ⟨value, 1, false⟩)
  | some p =>
    if cond p then (nextVersion p).map fun v => some ⟨value, v, false⟩ else .ok none

/-- `UPDATE … SET value = …, version = version + 1, deleted = … WHERE cond RETURNING key, version`. -/
def update (row : Option Product) (cond : Product → Bool) (value : GoString) (deleted : Bool) :
    Except Unit (Option Product) :=
  match row with
  | none => .ok none
  | some p =>
    if cond p then (nextVersion p).map fun v => some ⟨value, v, deleted⟩ else .ok none

/-- The whole statement: store the changed row and insert its event, or fail with both tables as they
were. -/
def Db.emit (db : Db) (key : GoString) (changed : Except Unit (Option Product)) (x : Exec) :
    Except Unit (Option ℤ) × Db :=
  match x.fault with
  | some n => (.error (), { db with nextId := db.nextId + n })
  | none =>
    match changed with
    | .error _ => (.error (), db)
    | .ok none => (.ok none, db)
    | .ok (some p) =>
      (.ok (some p.version),
        { products := Function.update db.products key (some p)
          outbox := db.outbox ++ [⟨db.nextId, key, p.version, x.now, none, 0, none⟩]
          nextId := db.nextId + 1 })

/-- What the driver reports of a statement.  `lost`: the connection breaks or the deadline passes before its answer
arrives, and the driver cannot tell whether it was carried out. -/
def heard {α : Type} (lost : Bool) (r : Except Unit α) : Except Unit α := if lost then .error () else r

/-- `mutationResult`: no row returned is a failed precondition. -/
def mutationResult (x : Exec) : Except Unit (Option ℤ) → Except Err ℤ
  | .error _ => .error (writeError x)
  | .ok none => .error .preconditionFailed
  | .ok (some v) => .ok v

/-- `validateValue`. -/
def validateValue (key value : GoString) : Except Err Unit :=
  if ValidKey key then
    if value.length > maxValueBytes then .error .valueTooLarge else .ok ()
  else .error .invalidKey

/-! ### The mutations -/

/-- `Store.Put`. -/
def Db.put (db : Db) (key value : GoString) (x : Exec) (lost : Bool) : Except Err Unit × Db :=
  match validateValue key value with
  | .error e => (.error e, db)
  | .ok _ =>
    let r := db.emit key (upsert (db.products key) value fun _ => true) x
    (match heard lost r.1 with | .error _ => .error (writeError x) | .ok _ => .ok (), r.2)

/-- `Store.PutIfVersion`. -/
def Db.putIfVersion (db : Db) (key value : GoString) (expected : ℤ) (x : Exec) (lost : Bool) : Except Err ℤ × Db :=
  match validateValue key value with
  | .error e => (.error e, db)
  | .ok _ =>
    if expected < 0 then (.error (.message "invalid expected version"), db)
    else
      let changed :=
        if expected = 0 then upsert (db.products key) value Product.deleted
        else update (db.products key) (fun p => p.version = expected && !p.deleted) value false
      let r := db.emit key changed x
      (mutationResult x (heard lost r.1), r.2)

/-- `Store.Delete`. -/
def Db.delete (db : Db) (key : GoString) (x : Exec) (lost : Bool) : Except Err Unit × Db :=
  match validateKey key with
  | .error e => (.error e, db)
  | .ok _ =>
    let r := db.emit key (update (db.products key) (fun p => !p.deleted) [] true) x
    (match heard lost r.1 with | .error _ => .error (writeError x) | .ok _ => .ok (), r.2)

/-- `Store.DeleteIfVersion`. -/
def Db.deleteIfVersion (db : Db) (key : GoString) (expected : ℤ) (x : Exec) (lost : Bool) : Except Err ℤ × Db :=
  match validateKey key with
  | .error e => (.error e, db)
  | .ok _ =>
    if expected ≤ 0 then (.error (.message "invalid expected version"), db)
    else
      let r := db.emit key
        (update (db.products key) (fun p => p.version = expected && !p.deleted) [] true) x
      (mutationResult x (heard lost r.1), r.2)

/-- A mutation call with its arguments. -/
inductive Mutation
  | put (key value : GoString)
  | putIfVersion (key value : GoString) (expected : ℤ)
  | delete (key : GoString)
  | deleteIfVersion (key : GoString) (expected : ℤ)
  deriving DecidableEq, Repr

def Mutation.key : Mutation → GoString
  | .put key _ | .putIfVersion key _ _ | .delete key | .deleteIfVersion key _ => key

/-- The expected version of a conditional call. -/
def Mutation.expected : Mutation → Option ℤ
  | .putIfVersion _ _ e | .deleteIfVersion _ e => some e
  | .put _ _ | .delete _ => none

/-- The call of a mutation; `some v` is a returned version. -/
def Db.mutate (db : Db) (m : Mutation) (x : Exec) (lost : Bool) : Except Err (Option ℤ) × Db :=
  match m with
  | .put key value => ((db.put key value x lost).1.map fun _ => none, (db.put key value x lost).2)
  | .putIfVersion key value e =>
    ((db.putIfVersion key value e x lost).1.map some, (db.putIfVersion key value e x lost).2)
  | .delete key => ((db.delete key x lost).1.map fun _ => none, (db.delete key x lost).2)
  | .deleteIfVersion key e =>
    ((db.deleteIfVersion key e x lost).1.map some, (db.deleteIfVersion key e x lost).2)

/-! ### What a mutation does

`Guarded` are the checks made before the statement, `Accepts` is the precondition of the statement on
the row of the key, `row` the row it writes. -/

/-- The row is live with version `e`. -/
def Live (row : Option Product) (e : ℤ) : Prop := ∃ p, row = some p ∧ p.deleted = false ∧ p.version = e

/-- There is no row, or a tombstone. -/
def Absent (row : Option Product) : Prop := ∀ p, row = some p → p.deleted = true

namespace Mutation

/-- The arguments pass the checks of the call. -/
def Guarded : Mutation → Prop
  | .put key value => ValidKey key ∧ value.length ≤ maxValueBytes
  | .putIfVersion key value e => (ValidKey key ∧ value.length ≤ maxValueBytes) ∧ 0 ≤ e
  | .delete key => ValidKey key
  | .deleteIfVersion key e => ValidKey key ∧ 0 < e

/-- The precondition of the statement. -/
def Accepts (row : Option Product) : Mutation → Prop
  | .put _ _ => True
  | .putIfVersion _ _ e => if e = 0 then Absent row else Live row e
  | .delete _ => ¬ Absent row
  | .deleteIfVersion _ e => Live row e

/-- The row a mutation writes at version `v`. -/
def row (m : Mutation) (v : ℤ) : Product :=
  match m with
  | .put _ value | .putIfVersion _ value _ => ⟨value, v, false⟩
  | .delete _ | .deleteIfVersion _ _ => ⟨[], v, true⟩

/-- The first part of the statement. -/
def changed (m : Mutation) (row : Option Product) : Except Unit (Option Product) :=
  match m with
  | .put _ value => upsert row value fun _ => true
  | .putIfVersion _ value e =>
    if e = 0 then upsert row value Product.deleted
    else update row (fun p => p.version = e && !p.deleted) value false
  | .delete _ => update row (fun p => !p.deleted) [] true
  | .deleteIfVersion _ e => update row (fun p => p.version = e && !p.deleted) [] true

end Mutation

/-- One more generation of `key`: the row and its event. -/
def Db.commit (db : Db) (key : GoString) (p : Product) (now : ℤ) : Db where
  products := Function.update db.products key (some p)
  outbox := db.outbox ++ [⟨db.nextId, key, p.version, now, none, 0, none⟩]
  nextId := db.nextId + 1

theorem validateValue_eq (key value : GoString) :
    (∃ u, validateValue key value = .ok u) ↔ ValidKey key ∧ value.length ≤ maxValueBytes := by
  unfold validateValue
  by_cases hk : ValidKey key
  · by_cases hv : value.length > maxValueBytes
    · simp [hk, hv]
    · simp [hk, hv]; omega
  · simp [hk]

/-- A guarded call runs its statement, any other call stops before it. -/
theorem Db.mutate_eq_emit (db : Db) (m : Mutation) (x : Exec) (lost : Bool) (hg : m.Guarded) :
    (db.mutate m x lost).2 = (db.emit m.key (m.changed (db.products m.key)) x).2 ∧
    (db.mutate m x lost).1 =
      match m.expected with
      | some _ => (mutationResult x (heard lost (db.emit m.key (m.changed (db.products m.key)) x).1)).map some
      | none => match heard lost (db.emit m.key (m.changed (db.products m.key)) x).1 with
        | .error _ => .error (writeError x)
        | .ok _ => .ok none := by
  cases m with
  | put key value =>
    obtain ⟨u, hu⟩ := (validateValue_eq key value).mpr hg
    simp only [mutate, put, hu, Mutation.key, Mutation.changed, Mutation.expected, true_and]
    cases heard lost (db.emit key (upsert (db.products key) value fun _ => true) x).1 <;> rfl
  | putIfVersion key value e =>
    obtain ⟨u, hu⟩ := (validateValue_eq key value).mpr hg.1
    have he : ¬ e < 0 := not_lt.mpr hg.2
    simp only [mutate, putIfVersion, hu, if_neg he, Mutation.key, Mutation.changed, Mutation.expected,
      true_and]
  | delete key =>
    have hk : ValidKey key := hg
    simp only [mutate, delete, validateKey, if_pos hk, Mutation.key, Mutation.changed,
      Mutation.expected, true_and]
    cases heard lost (db.emit key (update (db.products key) (fun p => !p.deleted) [] true) x).1 <;> rfl
  | deleteIfVersion key e =>
    have hk : ValidKey key := hg.1
    have he : ¬ e ≤ 0 := not_le.mpr hg.2
    simp only [mutate, deleteIfVersion, validateKey, if_pos hk, if_neg he, Mutation.key,
      Mutation.changed, Mutation.expected, true_and]

theorem Db.mutate_unguarded (db : Db) (m : Mutation) (x : Exec) (lost : Bool) (hg : ¬ m.Guarded) :
    (db.mutate m x lost).2 = db ∧ ∃ e, (db.mutate m x lost).1 = .error e := by
  cases m with
  | put key value =>
    cases hv : validateValue key value with
    | ok u => exact absurd ((validateValue_eq key value).mp ⟨u, hv⟩) hg
    | error e => exact ⟨by simp [mutate, put, hv], e, by simp [mutate, put, hv, Except.map]⟩
  | putIfVersion key value e =>
    cases hv : validateValue key value with
    | ok u =>
      have he : e < 0 := by
        by_contra he
        exact hg ⟨(validateValue_eq key value).mp ⟨u, hv⟩, not_lt.mp he⟩
      exact ⟨by simp [mutate, putIfVersion, hv, he], _,
        by simp only [mutate, putIfVersion, hv, if_pos he]; rfl⟩
    | error e' =>
      exact ⟨by simp [mutate, putIfVersion, hv], e', by simp [mutate, putIfVersion, hv, Except.map]⟩
  | delete key =>
    have hk : ¬ ValidKey key := hg
    exact ⟨by simp [mutate, delete, validateKey, hk], .invalidKey,
      by simp [mutate, delete, validateKey, hk, Except.map]⟩
  | deleteIfVersion key e =>
    by_cases hk : ValidKey key
    · have he : e ≤ 0 := by
        by_contra he
        exact hg ⟨hk, not_le.mp he⟩
      exact ⟨by simp [mutate, deleteIfVersion, validateKey, hk, he], _,
        by simp only [mutate, deleteIfVersion, validateKey, if_pos hk, if_pos he]; rfl⟩
    · exact ⟨by simp [mutate, deleteIfVersion, validateKey, hk], .invalidKey,
        by simp [mutate, deleteIfVersion, validateKey, hk, Except.map]⟩

/-- The next version of a row fits its `bigint` column below the largest one. -/
theorem nextVersion_map {α : Type} (p : Product) (f : ℤ → α) :
    (nextVersion p).map f = if p.version < Go.maxInt64 then .ok (f (p.version + 1)) else .error () := by
  unfold nextVersion
  by_cases h : p.version < Go.maxInt64
  · rw [if_pos h, if_pos (by omega)]; rfl
  · rw [if_neg h, if_neg (by omega)]; rfl

theorem upsert_of {row : Option Product} {value : GoString} {cond : Product → Bool}
    (h : ∀ p, row = some p → cond p = true) :
    upsert row value cond =
      if generation row < Go.maxInt64 then
        .ok (some ⟨value, generation row + 1, false⟩) else .error () := by
  cases row with
  | none => simp [upsert, generation, Go.maxInt64]
  | some p =>
    simp only [upsert, h p rfl, if_true]
    exact nextVersion_map p _

theorem update_of {p : Product} (cond : Product → Bool) {value : GoString} {deleted : Bool}
    (h : cond p = true) :
    update (some p) cond value deleted =
      if p.version < Go.maxInt64 then .ok (some ⟨value, p.version + 1, deleted⟩) else .error () := by
  simp only [update, h, if_true]
  exact nextVersion_map p _

theorem update_of_not {row : Option Product} {cond : Product → Bool} {value : GoString} {deleted : Bool}
    (h : ∀ p, row = some p → cond p = false) : update row cond value deleted = .ok none := by
  cases row with
  | none => rfl
  | some p => simp [update, h p rfl]

/-- An accepted mutation returns the next generation, while it fits a `bigint`. -/
theorem Mutation.changed_of_accepts {m : Mutation} {row : Option Product} (h : m.Accepts row) :
    m.changed row =
      if generation row < Go.maxInt64 then
        .ok (some (m.row (generation row + 1))) else .error () := by
  cases m with
  | put key value => exact upsert_of (fun _ _ => rfl)
  | putIfVersion key value e =>
    by_cases he : e = 0
    · simp only [Accepts, if_pos he] at h
      simp only [changed, if_pos he]
      exact upsert_of h
    · simp only [Accepts, if_neg he] at h
      obtain ⟨p, rfl, hd, hv⟩ := h
      simp only [changed, if_neg he]
      exact update_of _ (by simp [hd, hv])
  | delete key =>
    simp only [Accepts, Absent, not_forall] at h
    obtain ⟨p, rfl, hd⟩ := h
    have hc : (!p.deleted) = true := by simpa using hd
    exact update_of (fun p => !p.deleted) hc
  | deleteIfVersion key e =>
    obtain ⟨p, rfl, hd, hv⟩ := h
    exact update_of (fun p => p.version = e && !p.deleted) (by simp [hd, hv])

/-- A mutation whose precondition fails returns no row. -/
theorem Mutation.changed_of_not_accepts {m : Mutation} {row : Option Product} (h : ¬ m.Accepts row) :
    m.changed row = .ok none := by
  cases m with
  | put key value => exact absurd trivial h
  | putIfVersion key value e =>
    by_cases he : e = 0
    · simp only [Accepts, if_pos he, Absent, not_forall] at h
      obtain ⟨p, rfl, hd⟩ := h
      simp only [changed, if_pos he, upsert, if_neg hd]
    · simp only [Accepts, if_neg he] at h
      simp only [changed, if_neg he]
      refine update_of_not (fun p hp => ?_)
      by_contra hc
      simp only [Bool.not_eq_false, Bool.and_eq_true, decide_eq_true_eq, Bool.not_eq_true'] at hc
      exact h ⟨p, hp, hc.2, hc.1⟩
  | delete key =>
    simp only [Accepts, not_not] at h
    exact update_of_not (fun p hp => by simp [h p hp])
  | deleteIfVersion key e =>
    refine update_of_not (fun p hp => ?_)
    by_contra hc
    simp only [Bool.not_eq_false, Bool.and_eq_true, decide_eq_true_eq, Bool.not_eq_true'] at hc
    exact h ⟨p, hp, hc.2, hc.1⟩

/-- The statement runs to its end and writes a new generation. -/
def Db.Commits (db : Db) (m : Mutation) (x : Exec) : Prop :=
  m.Guarded ∧ x.fault = none ∧ m.Accepts (db.products m.key) ∧ generation (db.products m.key) < Go.maxInt64

/-- **A committing mutation** advances the generation of its key by one and emits one event; if its answer is lost, the
caller gets an error all the same. -/
theorem Db.mutate_commits {db : Db} {m : Mutation} {x : Exec} (h : db.Commits m x) (lost : Bool) :
    (db.mutate m x lost).2 = db.commit m.key (m.row (generation (db.products m.key) + 1)) x.now ∧
    (db.mutate m x lost).1 =
      if lost then .error (writeError x) else .ok (m.expected.map fun _ => generation (db.products m.key) + 1) := by
  obtain ⟨hg, hf, ha, hv⟩ := h
  obtain ⟨h1, h2⟩ := db.mutate_eq_emit m x lost hg
  have hc := Mutation.changed_of_accepts ha
  rw [if_pos hv] at hc
  have hem : db.emit m.key (m.changed (db.products m.key)) x =
      (.ok (some (m.row (generation (db.products m.key) + 1)).version),
        db.commit m.key (m.row (generation (db.products m.key) + 1)) x.now) := by
    simp only [emit, hf, hc]
    rfl
  have hrow : (m.row (generation (db.products m.key) + 1)).version = generation (db.products m.key) + 1 := by
    cases m <;> rfl
  rw [hem] at h1 h2
  refine ⟨h1, ?_⟩
  rw [h2]
  cases lost with
  | true => cases m.expected <;> rfl
  | false =>
    cases m.expected with
    | none => rfl
    | some e => simp [heard, mutationResult, Except.map, hrow]

/-- **Any other mutation** changes neither table; it is an error, or the `Delete` of a key that is
already absent. -/
theorem Db.mutate_not_commits {db : Db} {m : Mutation} {x : Exec} (h : ¬ db.Commits m x) (lost : Bool) :
    (db.mutate m x lost).2.products = db.products ∧ (db.mutate m x lost).2.outbox = db.outbox ∧
    db.nextId ≤ (db.mutate m x lost).2.nextId ∧
    ((∃ e, (db.mutate m x lost).1 = .error e) ∨
      ((db.mutate m x lost).1 = .ok none ∧ ∃ key, m = .delete key ∧ Absent (db.products key))) := by
  by_cases hg : m.Guarded
  case neg =>
    obtain ⟨h1, h2⟩ := db.mutate_unguarded m x lost hg
    rw [h1]
    exact ⟨rfl, rfl, le_rfl, Or.inl h2⟩
  obtain ⟨h1, h2⟩ := db.mutate_eq_emit m x lost hg
  -- the driver reports an error
  have hfail : heard lost (db.emit m.key (m.changed (db.products m.key)) x).1 = .error () →
      ∃ e, (db.mutate m x lost).1 = .error e := by
    intro he
    rw [he] at h2
    cases hm : m.expected with
    | none => rw [hm] at h2; exact ⟨_, h2⟩
    | some e => rw [hm] at h2; exact ⟨writeError x, h2⟩
  have herror : heard lost (.error () : Except Unit (Option ℤ)) = .error () := by cases lost <;> rfl
  cases hf : x.fault with
  | some n =>
    have he : db.emit m.key (m.changed (db.products m.key)) x =
        (.error (), { db with nextId := db.nextId + n }) := by simp [emit, hf]
    rw [h1, he]
    exact ⟨rfl, rfl, by simp, Or.inl (hfail (by rw [he]; exact herror))⟩
  | none =>
    by_cases ha : m.Accepts (db.products m.key)
    · have hv : ¬ generation (db.products m.key) < Go.maxInt64 := fun hv => h ⟨hg, hf, ha, hv⟩
      have hc := Mutation.changed_of_accepts ha
      rw [if_neg hv] at hc
      have he : db.emit m.key (m.changed (db.products m.key)) x = (.error (), db) := by
        simp only [emit, hf, hc]
      rw [h1, he]
      exact ⟨rfl, rfl, le_rfl, Or.inl (hfail (by rw [he]; exact herror))⟩
    · have he : db.emit m.key (m.changed (db.products m.key)) x = (.ok none, db) := by
        simp only [emit, hf, Mutation.changed_of_not_accepts ha]
      rw [h1, he]
      refine ⟨rfl, rfl, le_rfl, ?_⟩
      cases lost with
      | true => exact Or.inl (hfail rfl)
      | false =>
        rw [he] at h2
        cases m with
        | put key value => exact absurd trivial ha
        | putIfVersion key value e => exact Or.inl ⟨.preconditionFailed, h2⟩
        | delete key => exact Or.inr ⟨h2, key, rfl, not_not.mp ha⟩
        | deleteIfVersion key e => exact Or.inl ⟨.preconditionFailed, h2⟩

end SimpleCache.Postgres
