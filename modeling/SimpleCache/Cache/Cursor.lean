import SimpleCache.Cache.Sweep

/-!
# Cache.Cursor — the sweep among other calls

Calls between the rounds of a sweep move, insert and remove entries around the cursor.  `Carries x c c'` says what a
call must not do to an entry `x` that it does not concern: take it to the other side of the cursor.  Every call does
so unless it moves the very element under the cursor to the front (`Spares`): `RemoveElement` steps the cursor back
before it unlinks its element, but a hit and an update take the cursor along, and what was in front of it is skipped
(`sweep_skips_when_moved`).
-/

namespace SimpleCache.Lru.Cache

open Lib (Run LinkedList)

variable {V : Type} [Value V]

/-! ### What is ahead, by address -/

/-- The addresses of the list. -/
def addrs (c : Cache V) : List ℕ := c.ll.elems.map Prod.fst

/-- The addresses that the walk has not reached. -/
def unseen (c : Cache V) : List ℕ := c.ahead.map Prod.fst

section Carries

variable {x p q : ℕ} {c c' c'' : Cache V} {A B : List ℕ}

omit [Value V] in
theorem unseen_eq (c : Cache V) : c.unseen =
    match c.expireCursor with
    | none => c.addrs.reverse
    | some p => c.addrs.reverse.dropWhile fun q => q ≠ p := by
  unfold unseen ahead addrs
  cases c.expireCursor with
  | none => exact List.map_reverse
  | some p =>
    simp only
    rw [← List.map_reverse, List.dropWhile_map]
    rfl

omit [Value V] in
/-- What the cursor has not reached: its own element and those in front of it. -/
theorem mem_unseen (hs : c.addrs = A ++ q :: B) (hc : c.expireCursor = some q) : x ∈ c.unseen ↔ x = q ∨ x ∈ A := by
  have hnd : (A ++ q :: B).Nodup := hs ▸ c.ll.nodup
  have hne : ∀ y ∈ B.reverse, (decide (y ≠ q)) = true := by
    intro y hy
    rw [List.nodup_middle, List.nodup_cons] at hnd
    have : y ≠ q := fun h => hnd.1 (List.mem_append_right A (h ▸ List.mem_reverse.mp hy))
    simpa using this
  have hrev : c.addrs.reverse = B.reverse ++ q :: A.reverse := by rw [hs]; simp
  rw [unseen_eq, hc]
  simp only [hrev]
  rw [List.dropWhile_append_of_pos hne, List.dropWhile_cons_of_neg (by simp), List.mem_cons, List.mem_reverse]

variable (x c c') in
/-- From `c` to `c'` the walk neither passes the element `x` nor loses it from what it has not reached. -/
structure Carries : Prop where
  next : c.ll.next ≤ c'.ll.next
  fresh : x ∉ c.addrs → x ∉ c'.addrs
  start : c.expireCursor = none → c'.expireCursor = none
  off : c.expireCursor ≠ none → c'.expireCursor = none → x ∉ c.unseen
  keeps : c'.expireCursor ≠ none → (x ∈ c'.unseen ↔ x ∈ c.unseen)

omit [Value V] in
theorem Carries.refl (x : ℕ) (c : Cache V) : Carries x c c :=
  ⟨le_rfl, id, id, fun h h' => absurd h' h, fun _ => Iff.rfl⟩

omit [Value V] in
theorem Carries.trans (h : Carries x c c') (h' : Carries x c' c'') : Carries x c c'' where
  next := h.next.trans h'.next
  fresh hx := h'.fresh (h.fresh hx)
  start hc := h'.start (h.start hc)
  off hc hc'' := by
    by_cases hc' : c'.expireCursor = none
    · exact h.off hc hc'
    · exact fun hx => h'.off hc' hc'' ((h.keeps hc').mpr hx)
  keeps hc'' := (h'.keeps hc'').trans (h.keeps fun hc' => hc'' (h'.start hc'))

omit [Value V] in
/-- Without a cursor there is nothing to keep. -/
theorem carries_of_none (hn : c.ll.next ≤ c'.ll.next) (hf : x ∉ c.addrs → x ∉ c'.addrs) (hc : c.expireCursor = none)
    (hc' : c'.expireCursor = none) : Carries x c c' :=
  ⟨hn, hf, fun _ => hc', fun h => absurd hc h, fun h => absurd hc' h⟩

omit [Value V] in
/-- The cursor stays on its element, and `x` on its side of it. -/
theorem carries_of_split {C D : List ℕ} (hn : c.ll.next ≤ c'.ll.next) (hf : x ∉ c.addrs → x ∉ c'.addrs)
    (hs : c.addrs = A ++ q :: B) (hs' : c'.addrs = C ++ q :: D) (hc : c.expireCursor = some q)
    (hc' : c'.expireCursor = some q) (hx : x ∈ C ↔ x ∈ A) : Carries x c c' where
  next := hn
  fresh := hf
  start h := absurd (hc.symm.trans h) (by simp)
  off _ h := absurd (hc'.symm.trans h) (by simp)
  keeps _ := by rw [mem_unseen hs' hc', mem_unseen hs hc, hx]

theorem WF.cursor_split (h : c.WF) (hc : c.expireCursor = some q) : ∃ A B, c.addrs = A ++ q :: B := by
  obtain ⟨e, he⟩ := h.cursor q hc
  exact List.append_of_mem (List.mem_map_of_mem he)

theorem addrs_removeElement (h : p ∈ c.addrs) : (c.removeElement p).addrs = c.addrs.filter fun q => q ≠ p := by
  obtain ⟨⟨p, e⟩, he, rfl⟩ := List.mem_map.mp h
  rw [removeElement_eq he]
  exact (List.filter_map (f := Prod.fst) (p := fun q => q ≠ p)).symm

theorem carries_removeElement (h : c.WF) (hp : p ≠ x) : Carries x c (c.removeElement p) := by
  by_cases hmem : p ∈ c.addrs
  · have ha := addrs_removeElement hmem
    obtain ⟨⟨p, e⟩, he, rfl⟩ := List.mem_map.mp hmem
    simp only at hp ha ⊢
    have hcur := congrArg expireCursor (removeElement_eq he)
    have hnext : c.ll.next ≤ (c.removeElement p).ll.next := by rw [removeElement_eq he]; exact le_rfl
    have hf : x ∉ c.addrs → x ∉ (c.removeElement p).addrs := by
      rw [ha]
      exact fun hx hx' => hx (List.mem_of_mem_filter hx')
    cases hc : c.expireCursor with
    | none => exact carries_of_none hnext hf hc (by rw [hcur]; simp [hc])
    | some q =>
      by_cases hqp : q = p
      · -- the cursor steps back to the element in front, if there is one
        subst hqp
        obtain ⟨A, B, hs⟩ := List.append_of_mem he
        have hsa : c.addrs = A.map Prod.fst ++ q :: B.map Prod.fst := by simp [addrs, hs]
        have hcur' : (c.removeElement q).expireCursor = A.getLast?.map Prod.fst := by
          rw [hcur]
          simp [hc, LinkedList.prev_split hs]
        have hsa' : (c.removeElement q).addrs = A.map Prod.fst ++ B.map Prod.fst := by
          rw [removeElement_eq he]
          simp [addrs, LinkedList.remove_split hs]
        rcases List.eq_nil_or_concat' A with rfl | ⟨A, y, rfl⟩
        · refine ⟨hnext, hf, fun h => absurd (hc.symm.trans h) (by simp), fun _ _ => ?_, fun h => absurd hcur' h⟩
          rw [mem_unseen hsa hc]
          simp [hp.symm]
        · refine ⟨hnext, hf, fun h => absurd (hc.symm.trans h) (by simp), fun _ h => ?_, fun _ => ?_⟩
          · rw [hcur'] at h
            simp at h
          · have hsy : (c.removeElement q).addrs = A.map Prod.fst ++ y.1 :: B.map Prod.fst := by rw [hsa']; simp
            rw [mem_unseen hsy (by rw [hcur']; simp), mem_unseen hsa hc]
            simp only [hp.symm, List.map_append, List.map_cons, List.map_nil, List.mem_append, List.mem_singleton,
              false_or]
            exact or_comm
      · obtain ⟨A, B, hs⟩ := h.cursor_split hc
        refine carries_of_split hnext hf hs (C := A.filter fun q => q ≠ p) (D := B.filter fun q => q ≠ p) ?_ hc ?_ ?_
        · rw [ha, hs, List.filter_append, List.filter_cons_of_pos (by simpa using hqp)]
        · rw [hcur]
          simp [hc, hqp]
        · simp [hp.symm]
  · have : c.removeElement p = c := by
      unfold removeElement
      cases hg : c.ll.get? p with
      | none => rfl
      | some e => exact absurd (List.mem_map_of_mem (LinkedList.mem_of_get? hg)) hmem
    rw [this]
    exact .refl x c

/-- An element other than `x` comes to the front, and the cursor is not taken along. -/
theorem carries_front (h : c.WF) (hn : c.ll.next ≤ c'.ll.next) (hc : c'.expireCursor = c.expireCursor)
    (ha : c'.addrs = p :: c.addrs.filter fun q => q ≠ p) (hp : p ≠ x)
    (hfront : c.expireCursor = some p → c'.addrs = c.addrs) : Carries x c c' := by
  have hf : x ∉ c.addrs → x ∉ c'.addrs := by
    rw [ha, List.mem_cons, not_or]
    exact fun hx => ⟨hp.symm, fun hx' => hx (List.mem_of_mem_filter hx')⟩
  cases hcur : c.expireCursor with
  | none => exact carries_of_none hn hf hcur (hc.trans hcur)
  | some q =>
    obtain ⟨A, B, hs⟩ := h.cursor_split hcur
    by_cases hqp : q = p
    · subst hqp
      exact carries_of_split hn hf hs ((hfront hcur).trans hs) hcur (hc.trans hcur) Iff.rfl
    · refine carries_of_split hn hf hs (C := p :: A.filter fun q => q ≠ p) (D := B.filter fun q => q ≠ p) ?_ hcur
        (hc.trans hcur) ?_
      · rw [ha, hs, List.filter_append, List.filter_cons_of_pos (by simpa using hqp), List.cons_append]
      · simp [hp.symm]

theorem carries_removeOldest (h : c.WF) (hx : x ∈ c.removeOldest.addrs ∨ x ∉ c.addrs) :
    Carries x c c.removeOldest := by
  unfold removeOldest at hx ⊢
  cases hb : c.ll.back with
  | none => exact .refl x c
  | some p =>
    rw [hb] at hx
    have hmem : p ∈ c.addrs := by
      obtain ⟨e, he⟩ := LinkedList.back_mem hb
      exact List.mem_map_of_mem he
    refine carries_removeElement h ?_
    rintro rfl
    rcases hx with hx | hx
    · simp [addrs_removeElement hmem] at hx
    · exact hx hmem

theorem addrs_removeOldest (c : Cache V) : c.removeOldest.addrs.Sublist c.addrs := by
  unfold removeOldest
  cases hb : c.ll.back with
  | none => exact List.Sublist.refl _
  | some p =>
    obtain ⟨e, he⟩ := LinkedList.back_mem hb
    simp only [addrs_removeElement (List.mem_map_of_mem he)]
    exact List.filter_sublist

theorem addrs_evictLoop (n : ℕ) (c : Cache V) : (evictLoop n c).addrs.Sublist c.addrs := by
  induction n generalizing c with
  | zero => exact List.Sublist.refl _
  | succ n ih =>
    unfold evictLoop
    split_ifs
    · exact (ih c.removeOldest).trans (addrs_removeOldest c)
    · exact List.Sublist.refl _

theorem carries_evictLoop (n : ℕ) (h : c.WF) (hx : x ∈ (evictLoop n c).addrs ∨ x ∉ c.addrs) :
    Carries x c (evictLoop n c) := by
  induction n generalizing c with
  | zero => exact .refl x c
  | succ n ih =>
    unfold evictLoop at hx ⊢
    split_ifs at hx ⊢
    · have h1 := carries_removeOldest h (hx.imp_left fun hx => (addrs_evictLoop n c.removeOldest).mem hx)
      exact h1.trans (ih h.removeOldest (hx.imp_right h1.fresh))
    · exact .refl x c

/-! ### The calls that spare the cursor -/

/-- The element that a call moves to the front: the entry of a hit or of an update. -/
def moved (c : Cache V) : Act V → Option ℕ
  | .get key now => if (c.peek key now).1.isSome then c.cache.lookup key else none
  | .addUntil key _ _ => c.cache.lookup key
  | _ => none

/-- A call does not move the element under the cursor, unless that is the first one already. -/
def Spares (c : Cache V) (a : Act V) : Prop :=
  ∀ p, c.moved a = some p → c.expireCursor = some p → c.ll.prev p = none

instance (c : Cache V) (a : Act V) : Decidable (c.Spares a) :=
  decidable_of_iff (∀ p ∈ c.moved a, c.expireCursor = some p → c.ll.prev p = none) Iff.rfl

omit [Value V] in
/-- An element at the front stays where it is. -/
theorem addrs_front {e : Entry V} (he : (p, e) ∈ c.ll.elems) (hprev : c.ll.prev p = none) :
    (p :: c.addrs.filter fun q => q ≠ p) = c.addrs := by
  obtain ⟨A, B, hs⟩ := List.append_of_mem he
  have hrest : (c.addrs.filter fun q => q ≠ p) = (A ++ B).map Prod.fst := by
    rw [← LinkedList.remove_split hs]
    exact List.filter_map
  rw [LinkedList.prev_split hs] at hprev
  obtain rfl : A = [] := by simpa using hprev
  rw [hrest]
  simp [addrs, hs]

/-- What a hit or an update does to the addresses. -/
theorem carries_moved (h : c.WF) {e : Entry V} (he : (p, e) ∈ c.ll.elems) (hp : p ≠ x)
    (hs : c.expireCursor = some p → c.ll.prev p = none) (hn : c'.ll.next = c.ll.next)
    (hc : c'.expireCursor = c.expireCursor) (ha : c'.addrs = p :: c.addrs.filter fun q => q ≠ p) : Carries x c c' :=
  carries_front h hn.ge hc ha hp fun hcur => ha.trans (addrs_front he (hs hcur))

omit [Value V] in
theorem moveToFront_next (l : LinkedList (Entry V)) (p : ℕ) : (l.moveToFront p).next = l.next := by
  unfold LinkedList.moveToFront
  split <;> rfl

theorem carries_get (h : c.WF) {key : GoString} {now : ℤ} (hk : ∀ p, c.cache.lookup key = some p → p ≠ x)
    (hs : c.Spares (.get key now)) : Carries x c (c.get key now).2 := by
  rcases stored_cases h key with ⟨hl, -⟩ | ⟨p, e, hl, hg, he, -, -⟩
  · have hget : (c.get key now).2 = c := by simp [Cache.get, peek, hl]
    rw [hget]
    exact .refl x c
  · by_cases hx : e.expired now
    · have hget : (c.get key now).2 = c.removeElement p := by simp [Cache.get, peek, hl, hg, hx]
      rw [hget]
      exact carries_removeElement h (hk p hl)
    · have hget : (c.get key now).2 = { c with ll := c.ll.moveToFront p } := by simp [Cache.get, peek, hl, hg, hx]
      rw [hget]
      refine carries_moved h he (hk p hl) (hs p ?_) (moveToFront_next c.ll p) rfl ?_
      · simp [moved, peek, hl, hg, hx]
      · simp only [addrs, LinkedList.elems_moveToFront he, List.map_cons]
        exact congrArg _ (List.filter_map (f := Prod.fst) (p := fun q => decide (q ≠ p))).symm

theorem carries_insert (h : c.WF) (hlt : x < c.ll.next) {key : GoString} (value : V) (expireAt : Option ℤ)
    (hk : ∀ p, c.cache.lookup key = some p → p ≠ x) (hs : c.Spares (.addUntil key value expireAt)) :
    Carries x c (c.insert key value expireAt) := by
  unfold Cache.insert
  rcases stored_cases h key with ⟨hl, -⟩ | ⟨p, e, hl, hg, he, -, -⟩
  · rw [hl]
    have hnew : ∀ q ∈ c.addrs, q ≠ c.ll.next := by
      intro q hq
      obtain ⟨y, hy, rfl⟩ := List.mem_map.mp hq
      exact (c.ll.fresh y hy).ne
    refine carries_front h (Nat.le_succ _) rfl (p := c.ll.next) ?_ hlt.ne' fun hc => ?_
    · rw [List.filter_eq_self.mpr fun q hq => by simpa using hnew q hq]
      rfl
    · obtain ⟨e, he⟩ := h.cursor _ hc
      exact absurd rfl (hnew _ (List.mem_map_of_mem he))
  · rw [hl]
    simp only [hg]
    refine carries_moved h he (hk p hl) (hs p hl) (moveToFront_next c.ll p) rfl ?_
    simp only [addrs, LinkedList.elems_moveToFront_set he, List.map_cons]
    exact congrArg _ (List.filter_map (f := Prod.fst) (p := fun q => decide (q ≠ p))).symm

theorem carries_addUntil (h : c.WF) (hlt : x < c.ll.next) {key : GoString} (value : V) (expireAt : Option ℤ)
    (hk : ∀ p, c.cache.lookup key = some p → p ≠ x) (hs : c.Spares (.addUntil key value expireAt))
    (hx : x ∈ (c.addUntil key value expireAt).addrs ∨ x ∉ c.addrs) : Carries x c (c.addUntil key value expireAt) := by
  have h1 := carries_insert h hlt value expireAt hk hs
  exact h1.trans (carries_evictLoop _ (h.insert key value expireAt) (hx.imp_right h1.fresh))

theorem carries_remove (h : c.WF) {key : GoString} (hk : ∀ p, c.cache.lookup key = some p → p ≠ x) :
    Carries x c (c.remove key) := by
  unfold Cache.remove
  cases hl : c.cache.lookup key with
  | none => exact .refl x c
  | some p => exact carries_removeElement h (hk p hl)

end Carries

/-! ### Sweeps -/

/-- The elements that the rounds of a trace examine. -/
def examined (tr : List (Act V × Option ℕ)) : List ℕ := tr.filterMap Prod.snd

/-- The key that a call is about. -/
def Act.key? : Act V → Option GoString
  | .get key _ | .addUntil key _ _ | .remove key => some key
  | _ => none

/-- A call is about another key than that of the entry `e` at `x`, and leaves the entry in the list. -/
def Untouched (x : ℕ) (e : Entry V) (c : Cache V) (a : Act V) (c' : Cache V) : Prop :=
  (∀ now, a ≠ .check now) → a.key? ≠ some e.key ∧ ((x, e) ∈ c.ll.elems → (x, e) ∈ c'.ll.elems)

/-- Actions that all satisfy `ok`, up to the one with which the cursor runs off the front. -/
inductive Until (ok : Cache V → Act V → Cache V → Prop) : Cache V → List (Act V × Option ℕ) → Cache V → Prop
  | off {c c' a o} : c.round a = some (c', o) → ok c a c' → c'.expireCursor = none → Until ok c [(a, o)] c'
  | go {c c₁ c' a o tr} : c.round a = some (c₁, o) → ok c a c₁ → c₁.expireCursor ≠ none → Until ok c₁ tr c' →
      Until ok c ((a, o) :: tr) c'

/-- A sweep: from the round that places the cursor at the back until the cursor runs off the front. -/
structure Sweep (ok : Cache V → Act V → Cache V → Prop) (c : Cache V) (tr : List (Act V × Option ℕ)) (c' : Cache V) :
    Prop where
  start : c.expireCursor = none
  first : ∃ now o rest, tr = (.check now, o) :: rest
  run : Until ok c tr c'

/-- Where a sweep stands with respect to the entry `e` at `x`, which it has examined `n` times; `E` says that the entry
is expired in every round. -/
structure Tracked (E : Prop) (x : ℕ) (e : Entry V) (c : Cache V) (n : ℕ) : Prop where
  wf : c.WF
  lt : x < c.ll.next
  place : (n = 0 ∧ x ∈ c.unseen ∧ (x, e) ∈ c.ll.elems) ∨
    (n = 1 ∧ x ∉ c.unseen ∧ (x ∉ c.addrs ∨ ¬ E ∧ (x, e) ∈ c.ll.elems))

section Tracked

variable {E : Prop} {x n : ℕ} {e : Entry V} {c c' : Cache V} {o : Option ℕ}

/-- The times that an action examines `x`. -/
def times (x : ℕ) (o : Option ℕ) : ℕ := if o = some x then 1 else 0

theorem Tracked.present (h : Tracked E x e c n) : x ∉ c.addrs ∨ (x, e) ∈ c.ll.elems := by
  rcases h.place with ⟨-, -, h⟩ | ⟨-, -, h⟩
  · exact Or.inr h
  · exact h.imp_right And.right

section Checked

variable {now : ℤ} {p : ℕ} {e' : Entry V} {A B : List (ℕ × Entry V)}

omit [Value V] in
/-- The walk comes to the element examined, then to those in front of it. -/
theorem Checked.unseen (h : Checked now c p e' A B c') :
    c.unseen = p :: A.reverse.map Prod.fst ∧ (A ≠ [] → c'.unseen = A.reverse.map Prod.fst) := by
  constructor
  · have hahead : c.ahead = (p, e') :: A.reverse := by
      rcases h.cursor with hc | ⟨hc, rfl⟩
      · exact (ahead_split h.split hc).1
      · unfold ahead
        rw [hc, h.split]
        simp
    rw [Cache.unseen, hahead, List.map_cons]
  · intro hA
    unfold Cache.unseen
    cases hx : e'.expired now with
    | false => rw [((ahead_prev (h.kept hx).1 h.cursor').2 hA).1]
    | true => rw [((ahead_prev (h.gone hx).1 h.cursor').2 hA).1]

omit [Value V] in
theorem Checked.addrs (h : Checked now c p e' A B c') :
    c'.addrs.Sublist c.addrs ∧ (e'.expired now = true → p ∉ c'.addrs) ∧
    ∀ y ∈ c.ll.elems, y.1 ≠ p ∨ e'.expired now = false → y ∈ c'.ll.elems := by
  unfold Cache.addrs
  cases hx : e'.expired now with
  | false =>
    rw [(h.kept hx).1, ← h.split]
    exact ⟨List.Sublist.refl _, by simp, fun _ hy _ => hy⟩
  | true =>
    have hne := LinkedList.ne_of_split h.split
    rw [(h.gone hx).1, h.split]
    refine ⟨((List.sublist_cons_self _ B).append_left A).map _, fun _ hp => ?_, fun y hy hyp => ?_⟩
    · obtain ⟨y, hy, hyp⟩ := List.mem_map.mp hp
      exact hne y hy hyp
    · have hyp : y ≠ (p, e') := fun hy' => by simp [hy'] at hyp
      simpa [hyp] using hy

end Checked

/-- A round. -/
theorem Tracked.check (h : Tracked E x e c n) {now : ℤ} (hE : E → e.expired now)
    (hst : c.round (.check now) = some (c', o)) :
    (c'.expireCursor ≠ none → Tracked E x e c' (n + times x o)) ∧
    (c'.expireCursor = none → n + times x o = 1 ∧ (E → x ∉ c'.addrs)) := by
  obtain ⟨⟨p, d⟩, hc, heq⟩ := Option.map_eq_some_iff.mp hst
  obtain ⟨rfl, rfl⟩ := Prod.mk.inj heq
  obtain ⟨e', A, B, hd, hw⟩ := checked_of_check h.wf hc
  simp only at hd hw ⊢
  obtain ⟨hun, hun'⟩ := hd.unseen
  obtain ⟨hsub, hgone, hstay⟩ := hd.addrs
  have hlt : x < d.ll.next := by rw [hd.next]; exact h.lt
  have hA : d.expireCursor = none ↔ A = [] := by simp [hd.cursor']
  by_cases hxp : p = x
  · -- the round examines the entry: it was not reached before, and it stays only if it is not expired
    subst hxp
    have hpl : n = 0 ∧ (p, e) ∈ c.ll.elems := by
      rcases h.place with ⟨h1, -, h3⟩ | ⟨-, h2, -⟩
      · exact ⟨h1, h3⟩
      · exact absurd (by rw [hun]; simp) h2
    obtain rfl : e' = e := LinkedList.eq_of_mem (by rw [hd.split]; simp) hpl.2
    have hplace : p ∉ d.addrs ∨ ¬ E ∧ (p, e') ∈ d.ll.elems := by
      cases hx : e'.expired now with
      | true => exact Or.inl (hgone hx)
      | false => exact Or.inr ⟨fun hE' => by simp [hE hE'] at hx, hstay _ hpl.2 (Or.inr hx)⟩
    have htimes : n + times p (some p) = 1 := by simp [times, hpl.1]
    rw [htimes]
    refine ⟨fun hc' => ⟨hw, hlt, Or.inr ⟨rfl, ?_, hplace⟩⟩, fun _ => ⟨rfl, fun hE' => ?_⟩⟩
    · rw [hun' (mt hA.mpr hc'), List.map_reverse, List.mem_reverse]
      rintro hp
      obtain ⟨y, hy, hyp⟩ := List.mem_map.mp hp
      exact LinkedList.ne_of_split hd.split y (List.mem_append_left B hy) hyp
    · exact hplace.resolve_right fun h => h.1 hE'
  · have htimes : n + times x (some p) = n := by simp [times, hxp]
    have hmem : x ∈ c.unseen ↔ x ∈ A.reverse.map Prod.fst := by
      rw [hun, List.mem_cons, or_iff_right (Ne.symm hxp)]
    rw [htimes]
    constructor
    · intro hc'
      refine ⟨hw, hlt, ?_⟩
      rw [hun' (mt hA.mpr hc'), ← hmem]
      have hkeep : (x, e) ∈ c.ll.elems → (x, e) ∈ d.ll.elems := fun hx => hstay _ hx (Or.inl (Ne.symm hxp))
      exact h.place.imp (fun h => ⟨h.1, h.2.1, hkeep h.2.2⟩) fun h =>
        ⟨h.1, h.2.1, h.2.2.imp (fun hx hx' => hx (hsub.mem hx')) fun h => ⟨h.1, hkeep h.2⟩⟩
    · intro hc'
      rcases h.place with ⟨-, h2, -⟩ | ⟨h1, -, h3⟩
      · rw [hmem, hA.mp hc'] at h2
        exact absurd h2 (by simp)
      · exact ⟨h1, fun hE' hx => (h3.resolve_right fun h => h.1 hE') (hsub.mem hx)⟩

/-- A call. -/
theorem Tracked.call (h : Tracked E x e c n) {a : Act V} (ha : ∀ now, a ≠ .check now) (hs : c.Spares a)
    (hu : Untouched x e c a c') (hc : c.expireCursor ≠ none) (hst : c.round a = some (c', o)) :
    o = none ∧ (c'.expireCursor ≠ none → Tracked E x e c' n) ∧
    (c'.expireCursor = none → n = 1 ∧ (E → x ∉ c'.addrs)) := by
  obtain ⟨hkey, hstay⟩ := hu ha
  -- a call about another key does not lead to the entry
  have hk : ∀ key p, a.key? = some key → c.cache.lookup key = some p → p ≠ x := by
    rintro key p hak hl rfl
    obtain ⟨e', he', hk'⟩ := (h.wf.indexed key p).mp hl
    rcases h.present with hx | hx
    · exact hx (List.mem_map_of_mem he')
    · rw [LinkedList.eq_of_mem he' hx] at hk'
      exact hkey (by rw [hak, hk'])
  have hx : x ∈ c'.addrs ∨ x ∉ c.addrs := by
    rcases h.present with hx | hx
    · exact Or.inr hx
    · exact Or.inl (List.mem_map_of_mem (hstay hx))
  obtain ⟨ho, hw, hcar⟩ : o = none ∧ c'.WF ∧ Carries x c c' := by
    cases a with
    | check now => exact absurd rfl (ha now)
    | get key now =>
      obtain ⟨rfl, rfl⟩ := Prod.mk.inj (Option.some.inj hst)
      exact ⟨rfl, (get_eq h.wf key now).2.1, carries_get h.wf (hk key · rfl) hs⟩
    | addUntil key value expireAt =>
      obtain ⟨rfl, rfl⟩ := Prod.mk.inj (Option.some.inj hst)
      exact ⟨rfl, (addUntil_spec h.wf key value expireAt).1,
        carries_addUntil h.wf h.lt value expireAt (hk key · rfl) hs hx⟩
    | remove key =>
      obtain ⟨rfl, rfl⟩ := Prod.mk.inj (Option.some.inj hst)
      exact ⟨rfl, h.wf.remove key, carries_remove h.wf (hk key · rfl)⟩
    | removeOldest =>
      obtain ⟨rfl, rfl⟩ := Prod.mk.inj (Option.some.inj hst)
      exact ⟨rfl, h.wf.removeOldest, carries_removeOldest h.wf hx⟩
  refine ⟨ho, fun hc' => ⟨hw, h.lt.trans_le hcar.next, ?_⟩, fun hc' => ?_⟩
  · rw [hcar.keeps hc']
    exact h.place.imp (fun h => ⟨h.1, h.2.1, hstay h.2.2⟩) fun h =>
      ⟨h.1, h.2.1, h.2.2.imp hcar.fresh fun h => ⟨h.1, hstay h.2⟩⟩
  · rcases h.place with ⟨-, h2, -⟩ | ⟨h1, -, h3⟩
    · exact absurd h2 (hcar.off hc hc')
    · exact ⟨h1, fun hE' => hcar.fresh (h3.resolve_right fun h => h.1 hE')⟩

/-- An action of a sweep. -/
theorem Tracked.step (h : Tracked E x e c n) {a : Act V} (hE : E → ∀ now, a = .check now → e.expired now)
    (hok : c.Spares a ∧ Untouched x e c a c') (hc : c.expireCursor ≠ none ∨ ∃ now, a = .check now)
    (hst : c.round a = some (c', o)) :
    (c'.expireCursor ≠ none → Tracked E x e c' (n + times x o)) ∧
    (c'.expireCursor = none → n + times x o = 1 ∧ (E → x ∉ c'.addrs)) := by
  by_cases ha : ∃ now, a = .check now
  · obtain ⟨now, rfl⟩ := ha
    exact h.check (fun hE' => hE hE' now rfl) hst
  · obtain ⟨rfl, h1⟩ := h.call (not_exists.mp ha) hok.1 hok.2 (hc.resolve_right ha) hst
    exact h1

omit [Value V] in
theorem count_examined (a : Act V) (o : Option ℕ) (tr : List (Act V × Option ℕ)) (x : ℕ) :
    (examined ((a, o) :: tr)).count x = times x o + (examined tr).count x := by
  unfold examined times
  cases o with
  | none => simp
  | some p =>
    simp only [List.filterMap_cons, List.count_cons, Option.some.injEq, beq_iff_eq]
    omega

theorem Until.tracked {tr : List (Act V × Option ℕ)}
    (hrun : Until (fun s a s' => s.Spares a ∧ Untouched x e s a s') c tr c')
    (hstart : c.expireCursor ≠ none ∨ ∃ now o rest, tr = (.check now, o) :: rest)
    (hE : E → ∀ now o, (.check now, o) ∈ tr → e.expired now) (h : Tracked E x e c n) :
    n + (examined tr).count x = 1 ∧ (E → x ∉ c'.addrs) := by
  induction hrun generalizing n with
  | @off c c' a o hst hok hoff =>
    have hc : c.expireCursor ≠ none ∨ ∃ now, a = .check now :=
      hstart.imp_right fun ⟨now, o', rest, heq⟩ => ⟨now, (Prod.mk.inj (List.cons.inj heq).1).1⟩
    have hlast := (h.step (fun hE' now ha => hE hE' now o (by simp [ha])) hok hc hst).2 hoff
    rw [count_examined]
    exact hlast
  | @go c c₁ c' a o tr hst hok hon _ ih =>
    have hc : c.expireCursor ≠ none ∨ ∃ now, a = .check now :=
      hstart.imp_right fun ⟨now, o', rest, heq⟩ => ⟨now, (Prod.mk.inj (List.cons.inj heq).1).1⟩
    have hnext := (h.step (fun hE' now ha => hE hE' now o (by simp [ha])) hok hc hst).1 hon
    rw [count_examined, ← Nat.add_assoc]
    exact ih (Or.inl hon) (fun hE' now o' hmem => hE hE' now o' (List.mem_cons_of_mem _ hmem)) hnext

end Tracked

/-- **The sweep skips nothing that its cursor is not carried past.**  A pass whose budget is not exhausted is a
sequence of rounds.  In every sweep made of such rounds and of any calls that leave the element under the cursor where
it is, an entry that the calls neither touch nor remove is examined exactly once; if it is expired in every round, it
is reclaimed. -/
theorem sweep_examines_once {c : Cache V} (h : c.WF) :
    (∀ now limit budget start ticks, 0 < limit → 0 < budget → (∀ i, ticks i < start + budget) →
      ∃ tr, Rounds now (c.pruneExpired now limit budget start ticks).1 c tr
          (c.pruneExpired now limit budget start ticks).2.2 ∧
        ((c.pruneExpired now limit budget start ticks).1 : ℤ) = min limit c.ll.len) ∧
    ∀ x e tr c', (x, e) ∈ c.ll.elems → Sweep (fun s a s' => s.Spares a ∧ Untouched x e s a s') c tr c' →
      (examined tr).count x = 1 ∧
      ((∀ now o, (.check now, o) ∈ tr → e.expired now) → ∀ e', (x, e') ∉ c'.ll.elems) := by
  refine ⟨fun now limit budget start ticks hl hb ht => ?_, fun x e tr c' hx hs => ?_⟩
  · obtain ⟨tr, h1, h2, -⟩ := pruneExpired_rounds h now hl hb ht
    exact ⟨tr, h1, h2⟩
  · have hun : x ∈ c.unseen := by
      rw [unseen_eq, hs.start]
      exact List.mem_reverse.mpr (List.mem_map_of_mem hx)
    have ht : Tracked (∀ now o, (Act.check now, o) ∈ tr → e.expired now) x e c 0 :=
      ⟨h, c.ll.fresh _ hx, Or.inl ⟨rfl, hun, hx⟩⟩
    obtain ⟨h1, h2⟩ := hs.run.tracked (Or.inr hs.first) id ht
    rw [Nat.zero_add] at h1
    exact ⟨h1, fun hE e' he' => h2 hE (List.mem_map_of_mem he')⟩

omit [Value V] in
theorem untouched_check (x : ℕ) (e : Entry V) (c c' : Cache V) (now : ℤ) : Untouched x e c (.check now) c' :=
  fun h => absurd rfl (h now)

/-- Three entries, of which the most recently used one is expired at time 5. -/
def three : Cache Cache.ByteView :=
  (((new 100).addUntil [97] ⟨[1], none, 1, 0⟩ none).addUntil [98] ⟨[2], none, 1, 0⟩ none).addUntil [99] ⟨[3], none, 1, 0⟩
    (some 4)

theorem three_wf : three.WF :=
  (addUntil_spec (addUntil_spec (addUntil_spec (.new 100) _ _ _).1 _ _ _).1 _ _ _).1

/-- A hit on an entry that the cursor has passed: the sweep goes on and comes to the expired entry. -/
theorem sweep_examines_once_hit : ∃ tr c', Sweep (fun s a s' => s.Spares a ∧
      Untouched 2 ⟨[99], ⟨[3], none, 1, 0⟩, some 4⟩ s a s') three tr c' ∧ (examined tr).count 2 = 1 := by
  have hs : ∃ tr c', Sweep (fun s a s' => s.Spares a ∧
      Untouched 2 ⟨[99], ⟨[3], none, 1, 0⟩, some 4⟩ s a s') three tr c' := by
    refine ⟨_, _, rfl, ⟨5, _, _, rfl⟩,
      .go rfl ⟨by decide +kernel, untouched_check _ _ _ _ _⟩ (by decide +kernel)
        (.go (a := .get [97] 5) rfl ⟨by decide +kernel, fun _ => ⟨by decide, fun _ => by decide +kernel⟩⟩
          (by decide +kernel)
          (.go (a := .check 5) rfl ⟨by decide +kernel, untouched_check _ _ _ _ _⟩ (by decide +kernel)
            (.go (a := .check 5) rfl ⟨by decide +kernel, untouched_check _ _ _ _ _⟩ (by decide +kernel)
              (.off (a := .check 5) rfl ⟨by decide +kernel, untouched_check _ _ _ _ _⟩ (by decide +kernel)))))⟩
  obtain ⟨tr, c', h⟩ := hs
  exact ⟨tr, c', h, ((sweep_examines_once three_wf).2 2 _ tr c' (by decide +kernel) h).1⟩

/-- **A hit on the entry under the cursor makes the sweep skip what is in front of it.**  The cursor is on the second
entry when a hit takes it to the front.  The next round examines that entry and runs off the front, although the
third entry was in the list throughout, untouched and expired in every round. -/
theorem sweep_skips_when_moved : ∃ (c c' : Cache Cache.ByteView) (tr : List (Act Cache.ByteView × Option ℕ)) (x : ℕ)
    (e : Entry Cache.ByteView), c.WF ∧ (x, e) ∈ c.ll.elems ∧ Sweep (Untouched x e) c tr c' ∧
    (∀ now o, (.check now, o) ∈ tr → e.expired now) ∧ (examined tr).count x = 0 ∧ (x, e) ∈ c'.ll.elems := by
  refine ⟨three, _, [(.check 5, some 0), (.get [98] 5, none), (.check 5, some 1)], 2,
    ⟨[99], ⟨[3], none, 1, 0⟩, some 4⟩, three_wf, by decide +kernel,
    ⟨rfl, ⟨5, _, _, rfl⟩,
      .go rfl (untouched_check _ _ _ _ _) (by decide +kernel)
        (.go (a := .get [98] 5) rfl (fun _ => ⟨by decide, fun _ => by decide +kernel⟩) (by decide +kernel)
          (.off (a := .check 5) rfl (untouched_check _ _ _ _ _) (by decide +kernel)))⟩, ?_, ?_, ?_⟩
  · intro now o hmem
    obtain rfl : now = 5 := by
      simp only [List.mem_cons, Prod.mk.injEq, Act.check.injEq, reduceCtorEq, false_and, List.not_mem_nil,
        or_false, false_or] at hmem
      exact hmem.elim And.left And.left
    rfl
  · decide +kernel
  · decide +kernel

end SimpleCache.Lru.Cache
