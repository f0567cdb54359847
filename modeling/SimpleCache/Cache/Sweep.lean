import SimpleCache.Cache.Accounting

/-!
# Cache.Sweep — the cursor of the expiry sweep

`PruneExpired` walks the list from back to front with a cursor that stays in the list between passes.  `check` is one
round of its loop; a pass whose time budget is not exhausted is a sequence of rounds (`pruneExpired_rounds`).

`ahead` and `behind` are the entries in the order in which the rounds come to them: a round takes the first entry of
`ahead ++ behind` and puts it back at the end, or removes it (`check_spec`).
-/

namespace SimpleCache.Lru.Cache

open Lib (Run LinkedList Indexes)

variable {V : Type} [Value V]

/-! ### One round -/

/-- One round of the loop of `PruneExpired`: the element that it examines, and the cache. -/
def check (c : Cache V) (now : ℤ) : Option (ℕ × Cache V) :=
  match c.expireCursor.or c.ll.back with
  | none => none
  | some current =>
    let c := { c with expireCursor := c.ll.prev current }
    match c.ll.get? current with
    | none => none
    | some item => some (current, if item.expired now then c.removeElement current else c)

/-- The entries that the cursor has not reached on its way to the front, its own first.  Without a cursor the walk
begins at the back. -/
def ahead (c : Cache V) : List (ℕ × Entry V) :=
  match c.expireCursor with
  | none => c.ll.elems.reverse
  | some p => c.ll.elems.reverse.dropWhile fun e => e.1 ≠ p

/-- The entries that the cursor has passed. -/
def behind (c : Cache V) : List (ℕ × Entry V) :=
  match c.expireCursor with
  | none => []
  | some p => c.ll.elems.reverse.takeWhile fun e => e.1 ≠ p

omit [Value V] in
theorem behind_append_ahead (c : Cache V) : c.behind ++ c.ahead = c.ll.elems.reverse := by
  unfold behind ahead
  cases c.expireCursor with
  | none => rfl
  | some p => exact List.takeWhile_append_dropWhile

omit [Value V] in
theorem queue_perm (c : Cache V) : (c.ahead ++ c.behind).Perm c.ll.elems := by
  refine List.perm_append_comm.trans ?_
  rw [behind_append_ahead]
  exact List.reverse_perm _

section Split

variable {c : Cache V} {p : ℕ} {e : Entry V} {A B : List (ℕ × Entry V)}

omit [Value V] in
/-- A cursor divides the list. -/
theorem ahead_split (hs : c.ll.elems = A ++ (p, e) :: B) (hc : c.expireCursor = some p) :
    c.ahead = (p, e) :: A.reverse ∧ c.behind = B.reverse := by
  have hne : ∀ x ∈ B.reverse, (decide (x.1 ≠ p)) = true := by
    intro x hx
    simpa using LinkedList.ne_of_split hs x (List.mem_append_right A (List.mem_reverse.mp hx))
  have hrev : c.ll.elems.reverse = B.reverse ++ (p, e) :: A.reverse := by rw [hs]; simp
  unfold ahead behind
  rw [hc]
  simp only [hrev]
  refine ⟨?_, ?_⟩
  · rw [List.dropWhile_append_of_pos hne, List.dropWhile_cons_of_neg (by simp)]
  · rw [List.takeWhile_append_of_pos hne, List.takeWhile_cons_of_neg (by simp), List.append_nil]

omit [Value V] in
/-- What the cursor set to the element before `p` divides the list into. -/
theorem ahead_prev (hs : c.ll.elems = A ++ B) (hc : c.expireCursor = A.getLast?.map Prod.fst) :
    (A = [] → c.ahead = B.reverse ∧ c.behind = []) ∧ (A ≠ [] → c.ahead = A.reverse ∧ c.behind = B.reverse) := by
  rcases List.eq_nil_or_concat A with rfl | ⟨A', x, rfl⟩
  · refine ⟨fun _ => ?_, fun h => absurd rfl h⟩
    unfold ahead behind
    rw [hc, hs]
    exact ⟨rfl, rfl⟩
  · refine ⟨fun h => absurd h (by simp), fun _ => ?_⟩
    have hs' : c.ll.elems = A' ++ (x.1, x.2) :: B := by rw [hs]; simp
    have hc' : c.expireCursor = some x.1 := by rw [hc]; simp
    obtain ⟨h1, h2⟩ := ahead_split hs' hc'
    exact ⟨by rw [h1]; simp, h2⟩

end Split

/-- What a round does: it examines the first entry ahead, `(p, e)`, moves the cursor to the entry before it, and
removes `(p, e)` if it is expired. -/
structure Checked (now : ℤ) (c : Cache V) (p : ℕ) (e : Entry V) (A B : List (ℕ × Entry V)) (c' : Cache V) : Prop where
  split : c.ll.elems = A ++ (p, e) :: B
  cursor : c.expireCursor = some p ∨ c.expireCursor = none ∧ B = []
  cursor' : c'.expireCursor = A.getLast?.map Prod.fst
  next : c'.ll.next = c.ll.next
  kept : e.expired now = false → c'.ll.elems = A ++ (p, e) :: B ∧ c'.evicted = c.evicted
  gone : e.expired now = true → c'.ll.elems = A ++ B ∧ c'.evicted = c.evicted ++ [(e.key, e.value)]

theorem exists_checked {c : Cache V} (h : c.WF) (now : ℤ) (hne : c.ll.elems ≠ []) :
    ∃ p e A B c', c.check now = some (p, c') ∧ Checked now c p e A B c' ∧ c'.WF := by
  -- the element under the cursor, or the last one
  obtain ⟨p, e, A, B, hs, hcur, hor⟩ : ∃ p e A B, c.ll.elems = A ++ (p, e) :: B ∧
      (c.expireCursor = some p ∨ c.expireCursor = none ∧ B = []) ∧ c.expireCursor.or c.ll.back = some p := by
    cases hc : c.expireCursor with
    | some p =>
      obtain ⟨e, he⟩ := h.cursor p hc
      obtain ⟨A, B, hs⟩ := List.append_of_mem he
      exact ⟨p, e, A, B, hs, Or.inl rfl, rfl⟩
    | none =>
      rcases List.eq_nil_or_concat' c.ll.elems with hnil | ⟨A, x, hs⟩
      · exact absurd hnil hne
      · refine ⟨x.1, x.2, A, [], hs, Or.inr ⟨rfl, rfl⟩, ?_⟩
        simp [LinkedList.back, hs]
  have he : (p, e) ∈ c.ll.elems := by rw [hs]; simp
  have hprev := LinkedList.prev_split hs
  have hw : WF { c with expireCursor := c.ll.prev p } := h.setCursor fun q hq => (LinkedList.prev_mem hq).2
  have hcheck : c.check now = some (p, if e.expired now then { c with expireCursor := c.ll.prev p }.removeElement p
      else { c with expireCursor := c.ll.prev p }) := by
    unfold check
    rw [hor]
    simp only [LinkedList.get?_eq_some.mpr he]
  cases hx : e.expired now with
  | false =>
    refine ⟨p, e, A, B, { c with expireCursor := c.ll.prev p }, hcheck.trans (by rw [hx]; rfl),
      ⟨hs, hcur, hprev, rfl, fun _ => ⟨hs, rfl⟩, fun h => ?_⟩, hw⟩
    rw [hx] at h
    exact absurd h (by simp)
  | true =>
    refine ⟨p, e, A, B, _, hcheck.trans (by rw [hx]; rfl), ?_, hw.removeElement p⟩
    rw [removeElement_eq (c := { c with expireCursor := c.ll.prev p }) he]
    refine ⟨hs, hcur, ?_, rfl, fun h => ?_, fun _ => ⟨LinkedList.remove_split hs, rfl⟩⟩
    · -- the cursor has left the element already
      have hne : c.ll.prev p ≠ some p := fun h => (LinkedList.prev_mem h).1 rfl
      simp only [if_neg hne]
      exact hprev
    · rw [hx] at h
      exact absurd h (by simp)

/-- A round on an empty list ends the loop. -/
theorem check_empty {c : Cache V} (h : c.WF) (now : ℤ) (hnil : c.ll.elems = []) :
    c.check now = none ∧ { c with expireCursor := none } = c := by
  have hcur : c.expireCursor = none := by
    cases hc : c.expireCursor with
    | none => rfl
    | some p =>
      obtain ⟨e, he⟩ := h.cursor p hc
      rw [hnil] at he
      exact absurd he (by simp)
  refine ⟨?_, by rw [← hcur]⟩
  simp [check, hcur, LinkedList.back, hnil]

theorem checked_of_check {c : Cache V} (h : c.WF) {now : ℤ} {p : ℕ} {c' : Cache V} (hc : c.check now = some (p, c')) :
    ∃ e A B, Checked now c p e A B c' ∧ c'.WF := by
  by_cases hne : c.ll.elems = []
  · rw [(check_empty h now hne).1] at hc
    exact absurd hc (by simp)
  · obtain ⟨q, e, A, B, d, hq, hd, hw⟩ := exists_checked h now hne
    rw [hq, Option.some.injEq, Prod.mk.injEq] at hc
    obtain ⟨rfl, rfl⟩ := hc
    exact ⟨e, A, B, hd, hw⟩

/-! ### Passes are rounds -/

/-- A round of a pass, or a call between two passes. -/
inductive Act (V : Type)
  | check (now : ℤ)
  | get (key : GoString) (now : ℤ)
  | addUntil (key : GoString) (value : V) (expireAt : Option ℤ)
  | remove (key : GoString)
  | removeOldest

/-- One action; it shows the element that a round examines. -/
def round (c : Cache V) : Act V → Option (Cache V × Option ℕ)
  | .check now => (c.check now).map fun r => (r.2, some r.1)
  | .get key now => some ((c.get key now).2, none)
  | .addUntil key value expireAt => some (c.addUntil key value expireAt, none)
  | .remove key => some (c.remove key, none)
  | .removeOldest => some (c.removeOldest, none)

/-- The run consists of `n` rounds at time `now`. -/
def Rounds (now : ℤ) (n : ℕ) (c : Cache V) (tr : List (Act V × Option ℕ)) (c' : Cache V) : Prop :=
  Run round c tr c' ∧ tr.length = n ∧ ∀ ev ∈ tr, ev.1 = .check now

theorem Rounds.append {now : ℤ} {m n : ℕ} {a b c : Cache V} {tr tr' : List (Act V × Option ℕ)}
    (h : Rounds now m a tr b) (h' : Rounds now n b tr' c) : Rounds now (m + n) a (tr ++ tr') c := by
  refine ⟨h.1.append h'.1, by rw [List.length_append, h.2.1, h'.2.1], fun ev hev => ?_⟩
  rcases List.mem_append.mp hev with hev | hev
  · exact h.2.2 ev hev
  · exact h'.2.2 ev hev

/-- A round of the loop, by what it adds to the log of removals. -/
theorem pruneLoop_succ {now deadline : ℤ} {ticks : ℕ → ℤ} {fuel checked removed : ℕ} {c c' : Cache V} {p : ℕ}
    (hb : ticks checked < deadline) (hc : c.check now = some (p, c')) :
    pruneLoop now deadline ticks (fuel + 1) checked removed c =
      pruneLoop now deadline ticks fuel (checked + 1) (removed + (c'.evicted.length - c.evicted.length)) c' := by
  rw [pruneLoop, if_pos hb]
  unfold check at hc
  cases hp : c.expireCursor.or c.ll.back with
  | none =>
    rw [hp] at hc
    exact absurd hc (by simp)
  | some current =>
    rw [hp] at hc
    simp only at hc ⊢
    cases hg : c.ll.get? current with
    | none =>
      rw [hg] at hc
      exact absurd hc (by simp)
    | some item =>
      simp only [hg, Option.some.injEq, Prod.mk.injEq] at hc
      obtain ⟨-, rfl⟩ := hc
      simp only
      split_ifs with hx
      · have hlog := congrArg (fun d => List.length d.evicted)
          (removeElement_eq (c := { c with expireCursor := c.ll.prev current }) (LinkedList.mem_of_get? hg))
        simp only [List.length_append, List.length_singleton] at hlog
        rw [hlog, Nat.add_sub_cancel_left]
      · simp only [Nat.sub_self, Nat.add_zero]

/-- The loop with an unexhausted budget: as many rounds as it has fuel. -/
theorem pruneLoop_rounds {now deadline : ℤ} {ticks : ℕ → ℤ} (hb : ∀ i, ticks i < deadline) (fuel checked removed : ℕ)
    {c : Cache V} (h : c.WF) (hf : fuel ≤ c.ll.len) :
    ∃ tr, Rounds now fuel c tr (pruneLoop now deadline ticks fuel checked removed c).2.2 ∧
      (pruneLoop now deadline ticks fuel checked removed c).1 = checked + fuel ∧
      (pruneLoop now deadline ticks fuel checked removed c).2.2.evicted.length + removed =
        c.evicted.length + (pruneLoop now deadline ticks fuel checked removed c).2.1 := by
  induction fuel generalizing checked removed c with
  | zero => exact ⟨[], ⟨.nil, rfl, by simp⟩, rfl, rfl⟩
  | succ fuel ih =>
    have hne : c.ll.elems ≠ [] := fun hnil => by
      simp [LinkedList.len, hnil] at hf
    obtain ⟨p, e, A, B, c₁, hcheck, hd, hw⟩ := exists_checked h now hne
    have hlen : fuel ≤ c₁.ll.len ∧ c.evicted.length ≤ c₁.evicted.length := by
      have hl := congrArg List.length hd.split
      simp only [LinkedList.len, List.length_append, List.length_cons] at hf hl ⊢
      cases hx : e.expired now with
      | false =>
        obtain ⟨h1, h2⟩ := hd.kept hx
        rw [h1, h2]
        simp only [List.length_append, List.length_cons]
        omega
      | true =>
        obtain ⟨h1, h2⟩ := hd.gone hx
        rw [h1, h2]
        simp only [List.length_append, List.length_singleton]
        omega
    rw [pruneLoop_succ (hb checked) hcheck]
    obtain ⟨tr, h1, h2, h3⟩ := ih (checked + 1) (removed + (c₁.evicted.length - c.evicted.length)) hw hlen.1
    have hround : round c (.check now) = some (c₁, some p) := by simp [round, hcheck]
    have hfirst : Rounds now 1 c [(.check now, some p)] c₁ := ⟨.single hround, rfl, by simp⟩
    refine ⟨[(.check now, some p)] ++ tr, ?_, by omega, by omega⟩
    have := hfirst.append h1
    rwa [Nat.add_comm] at this

/-- **A pass whose budget is not exhausted** is as many rounds as the entries it checks: the limit, or all. -/
theorem pruneExpired_rounds {c : Cache V} (h : c.WF) (now : ℤ) {limit budget start : ℤ} {ticks : ℕ → ℤ}
    (hl : 0 < limit) (hb : 0 < budget) (ht : ∀ i, ticks i < start + budget) :
    ∃ tr, Rounds now (c.pruneExpired now limit budget start ticks).1 c tr
        (c.pruneExpired now limit budget start ticks).2.2 ∧
      ((c.pruneExpired now limit budget start ticks).1 : ℤ) = min limit c.ll.len ∧
      (c.pruneExpired now limit budget start ticks).2.2.evicted.length =
        c.evicted.length + (c.pruneExpired now limit budget start ticks).2.1 := by
  unfold pruneExpired
  rw [if_neg (by omega)]
  obtain ⟨tr, h1, h2, h3⟩ := @pruneLoop_rounds V _ now _ _ ht (min limit c.ll.len).toNat 0 0 c h (by omega)
  rw [Nat.zero_add] at h2
  refine ⟨tr, by rwa [h2], ?_, h3⟩
  rw [h2]
  omega

/-! ### Rounds without calls in between -/

section Queue

variable {now : ℤ} {c c' : Cache V} {p : ℕ} {e : Entry V} {A B : List (ℕ × Entry V)}

omit [Value V] in
/-- A round takes the first entry of the queue and puts it back at its end, unless it is expired. -/
theorem Checked.queue (h : Checked now c p e A B c') :
    c.ahead ++ c.behind = (p, e) :: (A.reverse ++ B.reverse) ∧
    c'.ahead ++ c'.behind = A.reverse ++ B.reverse ++ if e.expired now then [] else [(p, e)] := by
  constructor
  · rcases h.cursor with hc | ⟨hc, rfl⟩
    · obtain ⟨h1, h2⟩ := ahead_split h.split hc
      rw [h1, h2, List.cons_append]
    · unfold ahead behind
      rw [hc, h.split]
      simp
  · have hpassed : ∀ B', c'.ll.elems = A ++ B' → c'.ahead ++ c'.behind = A.reverse ++ B'.reverse := by
      intro B' hB'
      obtain ⟨h1, h2⟩ := ahead_prev hB' h.cursor'
      by_cases hA : A = []
      · rw [(h1 hA).1, (h1 hA).2, hA]
        simp
      · rw [(h2 hA).1, (h2 hA).2]
    cases hx : e.expired now with
    | false =>
      rw [hpassed _ (h.kept hx).1]
      simp
    | true =>
      rw [hpassed _ (h.gone hx).1]
      simp

end Queue

/-- The keys and values of the entries of a list that are expired. -/
def expiredOf (now : ℤ) (es : List (ℕ × Entry V)) : List (GoString × V) :=
  (es.filter fun e => e.2.expired now).map fun e => (e.2.key, e.2.value)

/-- Where a sequence of rounds stands that began at `c₀`: the queue is what it has not come to, and entries that are
not expired. -/
structure Swept (now : ℤ) (c₀ : Cache V) (k : ℕ) (c : Cache V) (todo kept : List (ℕ × Entry V)) : Prop where
  wf : c.WF
  queue : c.ahead ++ c.behind = todo ++ kept
  live : ∀ e ∈ kept, e.2.expired now = false
  length : todo.length = c₀.ll.len - k
  elems : c.ll.elems = c₀.ll.elems.filter fun e => !e.2.expired now || decide (e.1 ∈ todo.map Prod.fst)
  log : ∃ r, c.evicted = c₀.evicted ++ r ∧ (r ++ expiredOf now todo).Perm (expiredOf now c₀.ll.elems)

theorem swept_start (now : ℤ) {c : Cache V} (h : c.WF) : Swept now c 0 c (c.ahead ++ c.behind) [] where
  wf := h
  queue := by simp
  live := by simp
  length := c.queue_perm.length_eq
  elems := by
    symm
    rw [List.filter_eq_self]
    intro e he
    have : e.1 ∈ (c.ahead ++ c.behind).map Prod.fst := List.mem_map_of_mem (c.queue_perm.mem_iff.mpr he)
    simp only [this, decide_true, Bool.or_true]
  log := ⟨[], by simp, (c.queue_perm.filter _).map _⟩

section Swept

variable {now : ℤ} {c₀ c c' : Cache V} {k p : ℕ} {e : Entry V} {todo kept A B : List (ℕ × Entry V)}

/-- Once everything has been examined, a round finds an entry that is not expired. -/
theorem Swept.again (h : Swept now c₀ k c [] kept) (hd : Checked now c p e A B c') (hw : c'.WF) :
    Swept now c₀ (k + 1) c' [] (A.reverse ++ B.reverse ++ [(p, e)]) := by
  obtain ⟨hq, hq'⟩ := hd.queue
  rw [h.queue, List.nil_append] at hq
  have hlen := h.length
  have hx : e.expired now = false := h.live (p, e) (by rw [hq]; simp)
  refine ⟨hw, ?_, fun x hx' => ?_, ?_, ?_, ?_⟩
  · rw [hq', hx]
    simp
  · refine h.live x ?_
    rw [hq]
    simp only [List.mem_append, List.mem_cons] at hx' ⊢
    tauto
  · simp only [List.length_nil] at hlen ⊢
    omega
  · rw [(hd.kept hx).1, ← hd.split]
    exact h.elems
  · rw [(hd.kept hx).2]
    exact h.log

/-- No other entry has the address of the one that is examined. -/
theorem Swept.unique (h : Swept now c₀ k c todo kept) (hd : Checked now c p e A B c') :
    ∀ x ∈ c₀.ll.elems, x.1 = p → x = (p, e) := by
  have hmem : (p, e) ∈ c₀.ll.elems := by
    have : (p, e) ∈ c.ll.elems := by rw [hd.split]; simp
    rw [h.elems] at this
    exact List.mem_of_mem_filter this
  rintro ⟨q, w⟩ hx rfl
  rw [LinkedList.eq_of_mem hx hmem]

/-- The first entry of the queue stays and goes to its end. -/
theorem Swept.keep (h : Swept now c₀ k c ((p, e) :: todo) kept) (hd : Checked now c p e A B c') (hw : c'.WF)
    (hq : todo ++ kept = A.reverse ++ B.reverse) (hx : e.expired now = false) :
    Swept now c₀ (k + 1) c' todo (kept ++ [(p, e)]) := by
  obtain ⟨r, hr, hperm⟩ := h.log
  have hlen := h.length
  refine ⟨hw, ?_, fun x hx' => ?_, ?_, ?_, r, ?_, ?_⟩
  · rw [hd.queue.2, hx, ← List.append_assoc, hq]
    simp
  · rcases List.mem_append.mp hx' with hx' | hx'
    · exact h.live x hx'
    · rw [List.mem_singleton.mp hx']
      exact hx
  · simp only [List.length_cons] at hlen
    omega
  · rw [(hd.kept hx).1, ← hd.split, h.elems]
    refine List.filter_congr fun x hx' => ?_
    by_cases hxp : x.1 = p
    · rw [h.unique hd x hx' hxp, hx]
      rfl
    · simp only [List.map_cons, List.mem_cons, hxp, false_or]
  · rw [(hd.kept hx).2, hr]
  · rwa [expiredOf, List.filter_cons_of_neg (by simp [hx])] at hperm

/-- The first entry of the queue is reclaimed. -/
theorem Swept.drop (h : Swept now c₀ k c ((p, e) :: todo) kept) (hd : Checked now c p e A B c') (hw : c'.WF)
    (hq : todo ++ kept = A.reverse ++ B.reverse) (hx : e.expired now = true) :
    Swept now c₀ (k + 1) c' todo kept := by
  obtain ⟨r, hr, hperm⟩ := h.log
  have hlen := h.length
  have hp : p ∉ todo.map Prod.fst := by
    have hnd := (c.queue_perm.map Prod.fst).nodup_iff.mpr c.ll.nodup
    rw [h.queue, List.cons_append, List.map_cons, List.nodup_cons, List.map_append] at hnd
    exact fun hp => hnd.1 (List.mem_append_left _ hp)
  refine ⟨hw, ?_, h.live, ?_, ?_, r ++ [(e.key, e.value)], ?_, ?_⟩
  · rw [hd.queue.2, hx, hq]
    simp
  · simp only [List.length_cons] at hlen
    omega
  · have hrest : c'.ll.elems = c.ll.elems.filter fun x => x.1 ≠ p := by
      rw [(hd.gone hx).1, ← LinkedList.remove_split hd.split]
      rfl
    rw [hrest, h.elems, List.filter_filter]
    refine List.filter_congr fun x hx' => ?_
    by_cases hxp : x.1 = p
    · rw [h.unique hd x hx' hxp, hx]
      simp [hp]
    · simp only [List.map_cons, List.mem_cons, hxp, false_or, ne_eq, not_false_eq_true, decide_true, Bool.true_and]
  · rw [(hd.gone hx).2, hr, List.append_assoc]
  · rw [expiredOf, List.filter_cons_of_pos (by simp [hx]), List.map_cons] at hperm
    rwa [List.append_assoc, List.singleton_append]

theorem Swept.step (h : Swept now c₀ k c todo kept) (hd : Checked now c p e A B c') (hw : c'.WF) :
    ∃ todo' kept', Swept now c₀ (k + 1) c' todo' kept' := by
  cases todo with
  | nil => exact ⟨_, _, h.again hd hw⟩
  | cons x todo =>
    have hq := hd.queue.1
    rw [h.queue, List.cons_append, List.cons.injEq] at hq
    obtain ⟨rfl, hq⟩ := hq
    cases hx : e.expired now with
    | false => exact ⟨_, _, h.keep hd hw hq hx⟩
    | true => exact ⟨_, _, h.drop hd hw hq hx⟩

end Swept

theorem Rounds.swept {now : ℤ} {n : ℕ} {c c' : Cache V} {tr : List (Act V × Option ℕ)} (h : c.WF)
    (hr : Rounds now n c tr c') : ∃ todo kept, Swept now c n c' todo kept := by
  obtain ⟨hrun, rfl, hall⟩ := hr
  induction hrun with
  | nil => exact ⟨_, _, swept_start now h⟩
  | @snoc tr s s' a o hr hst ih =>
    obtain ⟨todo, kept, hI⟩ := ih fun ev hev => hall ev (List.mem_append_left _ hev)
    obtain rfl : a = .check now := hall (a, o) (by simp)
    obtain ⟨⟨p, d⟩, hc, heq⟩ := Option.map_eq_some_iff.mp hst
    obtain ⟨rfl, -⟩ := Prod.mk.inj heq
    obtain ⟨e, A, B, hd, hw⟩ := checked_of_check hI.wf hc
    rw [List.length_append, List.length_singleton]
    exact hI.step hd hw

/-! ### Passes without calls in between -/

/-- The arguments of a pass and its readings of the clock. -/
structure Pass where
  limit : ℤ
  budget : ℤ
  start : ℤ
  ticks : ℕ → ℤ

/-- The limit is positive and every reading of the clock is within the budget. -/
def Pass.Unexhausted (q : Pass) : Prop := 0 < q.limit ∧ 0 < q.budget ∧ ∀ i, q.ticks i < q.start + q.budget

/-- Passes one after the other: what each returns, and the cache. -/
def passes (now : ℤ) : List Pass → Cache V → List (ℕ × ℕ) × Cache V
  | [], c => ([], c)
  | q :: qs, c =>
    let r := c.pruneExpired now q.limit q.budget q.start q.ticks
    let rest := passes now qs r.2.2
    ((r.1, r.2.1) :: rest.1, rest.2)

theorem passes_rounds (now : ℤ) {qs : List Pass} (hq : ∀ q ∈ qs, q.Unexhausted) {c : Cache V} (h : c.WF) :
    ∃ tr, Rounds now ((passes now qs c).1.map Prod.fst).sum c tr (passes now qs c).2 ∧
      (passes now qs c).2.evicted.length = c.evicted.length + ((passes now qs c).1.map Prod.snd).sum ∧
      List.Forall₂ (fun q r => (r.1 : ℤ) ≤ q.limit) qs (passes now qs c).1 := by
  induction qs generalizing c with
  | nil => exact ⟨[], ⟨.nil, rfl, by simp⟩, rfl, .nil⟩
  | cons q qs ih =>
    obtain ⟨hl, hb, ht⟩ := hq q (by simp)
    obtain ⟨tr, h1, h2, h3⟩ := pruneExpired_rounds h now hl hb ht
    obtain ⟨tr', h4, h5, h6⟩ := ih (fun q hq' => hq q (List.mem_cons_of_mem _ hq'))
      (pruneExpired_spec h now q.limit q.budget q.start q.ticks).1
    simp only [passes, List.map_cons, List.sum_cons]
    refine ⟨tr ++ tr', h1.append h4, by omega, .cons ?_ h6⟩
    simp only [h2]
    omega

/-- **Batched pruning is one filter.**  Passes at time `now` that check at least as many entries as there are leave the
list without the expired entries, in its order, and remove each of those once; no pass checks more than its limit.
Neither the cursor nor the division into passes is in the result. -/
theorem passes_filter {c : Cache V} (h : c.WF) (now : ℤ) {qs : List Pass} (hq : ∀ q ∈ qs, q.Unexhausted)
    (hn : c.ll.len ≤ ((passes now qs c).1.map Prod.fst).sum) :
    (passes now qs c).2.WF ∧
    (passes now qs c).2.ll.elems = (c.ll.elems.filter fun e => !e.2.expired now) ∧
    (∃ r, (passes now qs c).2.evicted = c.evicted ++ r ∧ r.Perm (expiredOf now c.ll.elems)) ∧
    ((passes now qs c).1.map Prod.snd).sum = (c.ll.elems.filter fun e => e.2.expired now).length ∧
    List.Forall₂ (fun q r => (r.1 : ℤ) ≤ q.limit) qs (passes now qs c).1 := by
  obtain ⟨tr, hr, hcount, hlimit⟩ := passes_rounds now hq h
  obtain ⟨todo, kept, hs⟩ := hr.swept h
  obtain rfl : todo = [] := List.length_eq_zero_iff.mp (by rw [hs.length]; omega)
  obtain ⟨r, hlog, hperm⟩ := hs.log
  simp only [expiredOf, List.filter_nil, List.map_nil, List.append_nil] at hperm
  refine ⟨hs.wf, ?_, ⟨r, hlog, hperm⟩, ?_, hlimit⟩
  · rw [hs.elems]
    exact List.filter_congr fun e _ => by simp
  · have hlen := hperm.length_eq
    rw [List.length_map] at hlen
    rw [hlog, List.length_append] at hcount
    omega

/-- Three entries, two of them expired at time 5, with the cursor in the middle: two passes of two checks. -/
theorem passes_filter_two : ∃ c : Cache Cache.ByteView, c.WF ∧ c.expireCursor = some 1 ∧
    ((passes 5 [⟨2, 1, 0, fun _ => 0⟩, ⟨2, 1, 0, fun _ => 0⟩] c).2.ll.elems.map fun e => e.2.key) = [[98]] := by
  have h := Lib.exec_run (step (V := Cache.ByteView))
    [.addUntil [97] ⟨[1], none, 1, 0⟩ (some 4), .addUntil [98] ⟨[2], none, 1, 0⟩ none,
      .addUntil [99] ⟨[3], none, 1, 0⟩ (some 5), .pruneExpired 3 1 1 0 fun _ => 0] (new 100) _ _ rfl
  have hw := (accounts_run (by decide) h).wf
  refine ⟨_, hw, by decide +kernel, ?_⟩
  rw [(passes_filter hw 5 (fun q hq => ?_) (by decide +kernel)).2.1]
  · decide +kernel
  · have hq : q = ⟨2, 1, 0, fun _ => 0⟩ := by simpa using hq
    rw [hq]
    exact ⟨by decide, by decide, fun _ => by norm_num⟩

end SimpleCache.Lru.Cache
