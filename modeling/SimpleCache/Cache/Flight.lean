import SimpleCache.Cache.Floors
import SimpleCache.Lib.Run

/-!
# Cache.Flight — Gets, source flights and notifications in one group

`read.go` and `load.go` as a machine.  The callers of `Get` and the functions of the source flights advance one
visible action at a time, in any order, together with notifications, cleanup and commits at the source.  What an
action does to the group is one section of `Cache.Group`.  A flight runs at most once per flight key, and a caller
that finds its key joins it: the contract of `singleflight`.

Three fields are not in the source and nothing branches on them: `tick` counts the actions, `captured` is the
action that captured a fence, and `committed` is the newest version of each key that the source has committed.
-/

namespace SimpleCache.Cache

/-- `flightKey`. -/
def flightKey (fence : ReadFence) (key : GoString) : GoString :=
  Go.formatUint fence.epoch ++ 58 :: (Go.formatInt fence.minimum ++ 58 :: key)

/-- What `loadSource` makes of the source's answer, up to its critical section.  `work` and `work'` are its
readings of `work.Err()`. -/
def checkLoaded (versioned : Bool) (answer : Except Err (GoString × ℤ)) (work work' : Option Err) :
    Except Err (GoString × ℤ) :=
  match answer with
  | .error e => .error e
  | .ok (value, version) =>
    -- an unversioned getter has no version
    let version := if versioned then version else 0
    if versioned ∧ version ≤ 0 then .error (.message "invalid source version")
    else
      match work with
      | some e => .error e
      | none =>
        if value.length > maxValueBytes then .error .valueTooLarge
        else
          match work' with
          | some e => .error e
          | none => .ok (value, version)

/-- Where the function of a flight stands; `attempt` is its loop counter and `fence` its `retryFence`. -/
inductive Phase
  /-- Before `lookupAtLeast`. -/
  | lookup (attempt : ℕ) (fence : ReadFence)
  /-- In `loadSource`, before the source is called. -/
  | load (attempt : ℕ) (fence : ReadFence)
  /-- The source was called at action `began`, when `seen` was the newest committed version. -/
  | reading (attempt : ℕ) (fence : ReadFence) (began : ℕ) (seen : ℤ)
  /-- Before the critical section of `loadSource`. -/
  | loaded (attempt : ℕ) (fence : ReadFence) (view : ByteView)
  /-- After `ErrStaleVersion` on the first attempt, before the new barrier. -/
  | rejected (fence : ReadFence)
  | returned (result : Except Err ByteView)

/-- A source flight: the key and the fence its function captured, and whether its name is still taken. -/
structure Flight where
  key : GoString
  fence : ReadFence
  captured : ℕ
  phase : Phase
  joinable : Bool

/-- Where a caller of `Get` stands. -/
inductive Caller
  | started
  | missed
  | admitted
  | fenced (fence : ReadFence) (captured : ℕ)
  | waiting (flight : ℕ)
  | answered

/-- A call of `Get` and the action at which it began. -/
structure GetCall where
  key : GoString
  began : ℕ
  state : Caller

/-- A group with its callers and flights. -/
structure Engine where
  group : Group
  calls : ℕ → Option GetCall
  flights : ℕ → Option Flight
  next : ℕ
  apiWaiters : ℤ
  tick : ℕ
  committed : GoString → ℤ

namespace Engine

def init (g : Group) : Engine := ⟨g, fun _ => none, fun _ => none, 0, 0, 0, fun _ => 0⟩

def setCall (s : Engine) (c : ℕ) (call : GetCall) : Engine := { s with calls := Function.update s.calls c (some call) }

def setFlight (s : Engine) (f : ℕ) (fl : Flight) : Engine :=
  { s with flights := Function.update s.flights f (some fl) }

/-- The flight whose name is `name`, if one is running. -/
def joinable (s : Engine) (name : GoString) : Option ℕ :=
  (List.range s.next).find? fun f =>
    match s.flights f with
    | none => false
    | some fl => fl.joinable && decide (flightKey fl.fence fl.key = name)

/-- The condition of the retry loop after an attempt: `loaded` is what `loadSource` returned, `minimum` the floor
it observed. -/
def conclude (attempt : ℕ) (fence : ReadFence) (minimum : ℤ) (loaded : Except Err ByteView) (work : Option Err) :
    Phase :=
  match loaded with
  | .error .staleVersion =>
    if attempt = 1 ∨ work ≠ none then .returned (.error .staleVersion) else .rejected (fence.withMinimum minimum)
  | r => .returned r

/-- An action with its arguments: the readings of the clock, of `ctx.Err()` and `work.Err()`, the outcome of taking
a source slot and the answer of the source. -/
inductive Act
  | get (c : ℕ) (key : GoString)
  | lookup (c : ℕ) (ctx : Option Err) (now : ℤ)
  | admitWaiter (c : ℕ)
  | barrier (c : ℕ) (now : ℤ)
  | join (c : ℕ)
  | await (c : ℕ) (ctx : Option Err)
  | flightLookup (f : ℕ) (work : Option Err) (now : ℤ)
  | callSource (f : ℕ) (slot work : Option Err)
  | readSource (f : ℕ) (answer : Except Err (GoString × ℤ)) (work work' work'' : Option Err)
  | fill (f : ℕ) (now now₁ now₂ : ℤ) (work : Option Err)
  | retryBarrier (f : ℕ) (now : ℤ)
  | deliver (f : ℕ)
  | invalidate (key : GoString) (version : ℤ) (now now' : ℤ)
  | clean (busy : Bool) (now start : ℤ) (ticks : ℕ → ℤ)
  | commit (key : GoString) (version : ℤ)

/-- The errors that an action brings in from outside: of a context, or of the source limiter. -/
def Act.faults : Act → List Err
  | .lookup _ ctx _ | .await _ ctx => ctx.toList
  | .flightLookup _ work _ => work.toList
  | .callSource _ slot work => slot.toList ++ work.toList
  | .readSource _ _ work work' _ => work.toList ++ work'.toList
  | _ => []

/-- What an action shows. -/
inductive Ans
  | quiet
  /-- `Get` of caller `c` returned. -/
  | returned (c : ℕ) (result : Except Err ByteView)
  | invalidated (result : Except Err Bool)
  /-- The critical section of `loadSource` on a fence captured at action `captured`; `valid` says that the value
  was given to the cache. -/
  | filled (key : GoString) (captured : ℕ) (valid : Bool)

/-- The caller returns. -/
def answer (s : Engine) (c : ℕ) (call : GetCall) (result : Except Err ByteView) : Engine × Ans :=
  (s.setCall c { call with state := .answered }, .returned c result)

/-- One action, where it is enabled. -/
def act (s : Engine) : Act → Option (Engine × Ans)
  | .get c key =>
    match s.calls c with
    | some _ => none
    | none => some (s.setCall c ⟨key, s.tick, .started⟩, .quiet)
  | .lookup c ctx now =>
    match s.calls c with
    | some ⟨key, began, .started⟩ =>
      let r := s.group.lookup ctx key now
      let s := { s with group := r.2 }
      match r.1 with
      | .error e => some (s.answer c ⟨key, began, .started⟩ (.error e))
      | .ok (some v) => some (s.answer c ⟨key, began, .started⟩ (.ok v))
      | .ok none => some (s.setCall c ⟨key, began, .missed⟩, .quiet)
    | _ => none
  | .admitWaiter c =>
    match s.calls c with
    | some ⟨key, began, .missed⟩ =>
      if s.apiWaiters < s.group.opts.maxMissWaiters then
        some ({ s with apiWaiters := s.apiWaiters + 1 }.setCall c ⟨key, began, .admitted⟩, .quiet)
      else some (s.answer c ⟨key, began, .missed⟩ (.error .overloaded))
    | _ => none
  | .barrier c now =>
    match s.calls c with
    | some ⟨key, began, .admitted⟩ =>
      let r := s.group.readBarrier key now
      some ({ s with group := r.2 }.setCall c ⟨key, began, .fenced r.1 s.tick⟩, .quiet)
    | _ => none
  | .join c =>
    match s.calls c with
    | some ⟨key, began, .fenced fence captured⟩ =>
      match s.joinable (flightKey fence key) with
      | some f => some (s.setCall c ⟨key, began, .waiting f⟩, .quiet)
      | none =>
        let s' := s.setFlight s.next ⟨key, fence, captured, .lookup 0 fence, true⟩
        some ({ s' with next := s.next + 1 }.setCall c ⟨key, began, .waiting s.next⟩, .quiet)
    | _ => none
  | .await c ctx =>
    match s.calls c with
    | some ⟨key, began, .waiting f⟩ =>
      let s' := { s with apiWaiters := s.apiWaiters - 1 }
      match ctx with
      | some e => some (s'.answer c ⟨key, began, .waiting f⟩ (.error e))
      | none =>
        match s.flights f with
        | some ⟨_, _, _, .returned r, false⟩ => some (s'.answer c ⟨key, began, .waiting f⟩ r)
        | _ => none
    | _ => none
  | .flightLookup f work now =>
    match s.flights f with
    | some ⟨key, name, captured, .lookup attempt fence, j⟩ =>
      let r := s.group.lookupAtLeast work key fence.minimum now
      let phase :=
        match r.1 with
        | .error e => .returned (.error e)
        | .ok (some v) => .returned (.ok v)
        | .ok none => .load attempt fence
      some ({ s with group := r.2 }.setFlight f ⟨key, name, captured, phase, j⟩, .quiet)
    | _ => none
  | .callSource f slot work =>
    match s.flights f with
    | some ⟨key, name, captured, .load attempt fence, j⟩ =>
      let phase :=
        match slot, work with
        | some e, _ => conclude attempt fence fence.minimum (.error e) work
        | none, some e => conclude attempt fence fence.minimum (.error e) work
        | none, none => .reading attempt fence s.tick (s.committed key)
      some (s.setFlight f ⟨key, name, captured, phase, j⟩, .quiet)
    | _ => none
  | .readSource f answer work work' work'' =>
    match s.flights f with
    | some ⟨key, name, captured, .reading attempt fence began _, j⟩ =>
      let phase :=
        match checkLoaded s.group.versioned answer work work' with
        | .error e => conclude attempt fence fence.minimum (.error e) work''
        | .ok (value, version) => .loaded attempt fence ⟨value, none, version, began⟩
      some (s.setFlight f ⟨key, name, captured, phase, j⟩, .quiet)
    | _ => none
  | .fill f now now₁ now₂ work =>
    match s.flights f with
    | some ⟨key, name, captured, .loaded attempt fence view, j⟩ =>
      let r := s.group.fill key view fence now now₁ now₂
      let phase := conclude attempt fence r.1.minimum r.1.result work
      some ({ s with group := r.2 }.setFlight f ⟨key, name, captured, phase, j⟩, .filled key captured r.1.valid)
    | _ => none
  | .retryBarrier f now =>
    match s.flights f with
    | some ⟨key, name, _, .rejected fence, j⟩ =>
      let r := s.group.readBarrier key now
      let phase := .lookup 1 (r.1.withMinimum fence.minimum)
      some ({ s with group := r.2 }.setFlight f ⟨key, name, s.tick, phase, j⟩, .quiet)
    | _ => none
  | .deliver f =>
    match s.flights f with
    | some ⟨key, name, captured, .returned r, true⟩ =>
      some (s.setFlight f ⟨key, name, captured, .returned r, false⟩, .quiet)
    | _ => none
  | .invalidate key version now now' =>
    let r := s.group.invalidateVersion key version now now'
    some ({ s with group := r.2 }, .invalidated r.1)
  | .clean busy now start ticks => some ({ s with group := s.group.cleanExpired busy now start ticks }, .quiet)
  | .commit key version =>
    some ({ s with committed := Function.update s.committed key (max (s.committed key) version) }, .quiet)

/-- One counted action. -/
def step (s : Engine) (a : Act) : Option (Engine × Ans) :=
  (s.act a).map fun r => ({ r.1 with tick := s.tick + 1 }, r.2)

/-- A versioned source reads its own commits: an answer is at least as new as what was committed when the source
was called. -/
def Truthful (s : Engine) : Act → Prop
  | .readSource f (.ok (_, version)) _ _ _ =>
    match s.flights f with
    | some ⟨_, _, _, .reading _ _ _ seen, _⟩ => seen ≤ version
    | _ => True
  | _ => True

instance (s : Engine) : DecidablePred s.Truthful := fun a => by
  unfold Truthful
  repeat' split
  all_goals infer_instance

/-- A notification is of a committed version. -/
def Notifies (s : Engine) : Act → Prop
  | .invalidate key version _ _ => version ≤ s.committed key
  | _ => True

instance (s : Engine) : DecidablePred s.Notifies := fun a => by
  unfold Notifies
  split <;> infer_instance

def Honest (s : Engine) (a : Act) : Prop := s.Truthful a ∧ s.Notifies a

instance (s : Engine) : DecidablePred s.Honest := fun a => by unfold Honest; infer_instance

/-- An action over an honest source. -/
def honestStep (s : Engine) (a : Act) : Option (Engine × Ans) := if s.Honest a then s.step a else none

abbrev Event := Act × Ans

end Engine

end SimpleCache.Cache
