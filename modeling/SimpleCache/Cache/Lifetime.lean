import SimpleCache.Cache.Insertion
import SimpleCache.Cache.VersionStore

/-!
# Cache.Lifetime — a hit does not outlive its fill

Over every sequence of sections of a group: a resident entry is exactly what the last fill of its key stored, deadline
included (`resident_origin`), and a hit returns it only before that deadline (`hits_within_ttl`).
-/

namespace SimpleCache.Cache

open SimpleCache.Lib
open SimpleCache.Lru (Entry)

/-- The readings of the clock that a section compares with deadlines or makes them from, in order. -/
def Section.readings : Section → List ℤ
  | .fill _ _ _ now now₁ now₂ => [now, now₁, now₂]
  | .invalidate _ _ now now' => [now, now']
  | .lookup _ _ now => [now]
  | .barrier _ now => [now]
  | .clean _ now _ _ => [now]

/-- The readings of a history. -/
def clock (tr : List SectionEvent) : List ℤ := tr.flatMap fun ev => ev.1.readings

/-- A fill that gave its value to the cache under `key`. -/
def Stores (key : GoString) (ev : SectionEvent) : Prop :=
  ∃ view fence now now₁ now₂ r, ev = (.fill key view fence now now₁ now₂, .filled r) ∧ r.valid = true

/-- The last fill of a key on a history gave `view` to the cache at time `f`. -/
def LastFill (tr : List SectionEvent) (key : GoString) (view : ByteView) (f : ℤ) : Prop :=
  ∃ tr₁ fence now now₂ r tr₂, tr = tr₁ ++ (.fill key view fence now f now₂, .filled r) :: tr₂ ∧ r.valid = true ∧
    ∀ ev ∈ tr₂, ¬ Stores key ev

/-- The entry that `cache.add` stores. -/
def entryOf (key : GoString) (view : ByteView) (ttl f : ℤ) : Entry ByteView :=
  ⟨key, { view with expiresAt := some (MainCache.deadline view ttl f) }, some (MainCache.deadline view ttl f)⟩

/-! ### One section -/

/-- What is stored after `add` is the new entry or was stored before under another key. -/
theorem MainCache.add_entry {c : MainCache} (h : c.WF) {key k : GoString} {view : ByteView} {ttl now now' : ℤ}
    {e : Entry ByteView} (he : (c.add key view ttl now now').2.find? k = some e) :
    (k = key ∧ e = entryOf key view ttl now) ∨ (k ≠ key ∧ c.find? k = some e) := by
  have hrem : ∀ {k e}, (c.remove key).find? k = some e → k ≠ key ∧ c.find? k = some e := by
    intro k e he
    rw [find?_remove h] at he
    split_ifs at he with hk
    exact ⟨hk, he⟩
  rw [add_eq] at he
  split_ifs at he
  · exact Or.inr (hrem he)
  · have hw : (c.lru.getD (Lru.new c.cacheBytes)).WF := by
      cases hl : c.lru with
      | none => exact .new _
      | some l => exact h l hl
    have hf : (c.lru.getD (Lru.new c.cacheBytes)).find? k = c.find? k := by
      unfold find?
      cases hl : c.lru <;> rfl
    rcases (Lru.Cache.addUntil_spec hw key _ _).2 k e he with ⟨hk, hval⟩ | ⟨hk, hs⟩
    · exact Or.inl ⟨hk, hval⟩
    · exact Or.inr ⟨hk, hf ▸ hs⟩
  · exact Or.inr (hrem he)

/-- A section leaves under a key what was there, unless it is a fill of that key that stores its value. -/
theorem Group.step_entry {g g' : Group} {a : Section} {o : Outcome} (h : g.WF) (hst : g.step a = some (g', o))
    {key : GoString} {e : Entry ByteView} (he : g'.mainCache.find? key = some e) :
    (g.mainCache.find? key = some e ∧ ¬ Stores key (a, o)) ∨
    ∃ view fence now f now₂ r, a = .fill key view fence now f now₂ ∧ o = .filled r ∧ r.valid = true ∧
      e = entryOf key view g.opts.ttl f := by
  cases a with
  | fill k view fence now now₁ now₂ =>
    simp only [step, Option.some.injEq, Prod.mk.injEq] at hst
    obtain ⟨rfl, rfl⟩ := hst
    have hsh := MainCache.shrinks_version h.cache k now
    obtain ⟨-, ⟨hv, -, -, -, hg⟩ | ⟨hv, -, hg⟩⟩ := fill_cases g k view fence now now₁ now₂
    · rw [hg] at he
      rcases MainCache.add_entry (h.cache.version k now) he with ⟨rfl, rfl⟩ | ⟨hk, hs⟩
      · exact Or.inr ⟨view, fence, now, now₁, now₂, _, rfl, rfl, hv, rfl⟩
      · refine Or.inl ⟨hsh key e hs, ?_⟩
        rintro ⟨_, _, _, _, _, _, heq, -⟩
        exact hk (Section.fill.inj (Prod.mk.inj heq).1).1.symm
    · rw [hg] at he
      refine Or.inl ⟨hsh key e he, ?_⟩
      rintro ⟨_, _, _, _, _, r, heq, hr⟩
      rw [← Outcome.filled.inj (Prod.mk.inj heq).2, hv] at hr
      exact absurd hr (by simp)
  | invalidate k version now now' =>
    have hno : ∀ o, ¬ Stores key (.invalidate k version now now', o) := by
      rintro o ⟨_, _, _, _, _, _, heq, -⟩
      cases heq
    simp only [step, Option.some.injEq, Prod.mk.injEq] at hst
    obtain ⟨rfl, rfl⟩ := hst
    by_cases hok : ValidKey k ∧ 0 ≤ version
    · obtain ⟨-, dropped, hinv⟩ := invalidate_spec h hok.1 hok.2 now now'
      by_cases hk : key = k
      · subst hk
        exact Or.inl ⟨(hinv.own e he).1, hno _⟩
      · exact Or.inl ⟨(hinv.others key hk).symm.trans he, hno _⟩
    · rw [(invalidate_refused hok now now').2] at he
      exact Or.inl ⟨he, hno _⟩
  | lookup ctx k now =>
    simp only [step, Option.some.injEq, Prod.mk.injEq] at hst
    obtain ⟨rfl, rfl⟩ := hst
    refine Or.inl ⟨(reads_lookup h ctx k now).shrinks key e he, ?_⟩
    rintro ⟨_, _, _, _, _, _, heq, -⟩
    cases heq
  | barrier k now =>
    simp only [step, Option.some.injEq, Prod.mk.injEq] at hst
    obtain ⟨rfl, rfl⟩ := hst
    refine Or.inl ⟨(reads_readBarrier h k now).shrinks key e he, ?_⟩
    rintro ⟨_, _, _, _, _, _, heq, -⟩
    cases heq
  | clean busy now start ticks =>
    simp only [step, Option.some.injEq, Prod.mk.injEq] at hst
    obtain ⟨rfl, rfl⟩ := hst
    refine Or.inl ⟨(reads_cleanExpired h busy now start ticks).shrinks key e he, ?_⟩
    rintro ⟨_, _, _, _, _, _, heq, -⟩
    cases heq

/-! ### Histories -/

theorem LastFill.snoc {tr : List SectionEvent} {key : GoString} {view : ByteView} {f : ℤ} {ev : SectionEvent}
    (h : LastFill tr key view f) (hev : ¬ Stores key ev) : LastFill (tr ++ [ev]) key view f := by
  obtain ⟨tr₁, fence, now, now₂, r, tr₂, rfl, hr, hall⟩ := h
  refine ⟨tr₁, fence, now, now₂, r, tr₂ ++ [ev], by simp, hr, fun x hx => ?_⟩
  rcases List.mem_append.mp hx with hx | hx
  · exact hall x hx
  · rwa [List.mem_singleton.mp hx]

/-- The time of a fill is a reading of the clock. -/
theorem LastFill.mem_clock {tr : List SectionEvent} {key : GoString} {view : ByteView} {f : ℤ}
    (h : LastFill tr key view f) : f ∈ clock tr := by
  obtain ⟨tr₁, fence, now, now₂, r, tr₂, rfl, -, -⟩ := h
  simp [clock, Section.readings]

/-- **A resident entry is what the last fill of its key stored**, or has been there since the history began. -/
theorem resident_origin {g g' : Group} {tr : List SectionEvent} (h : g.WF) (hrun : Run Group.step g tr g') :
    g'.WF ∧ g'.opts = g.opts ∧ ∀ key e, g'.mainCache.find? key = some e →
      (∃ view f, LastFill tr key view f ∧ e = entryOf key view g.opts.ttl f) ∨
      (g.mainCache.find? key = some e ∧ ∀ ev ∈ tr, ¬ Stores key ev) := by
  induction hrun with
  | nil => exact ⟨h, rfl, fun key e he => Or.inr ⟨he, by simp⟩⟩
  | @snoc tr s s' a o hr hst ih =>
    obtain ⟨hw, hopts, hI⟩ := ih
    obtain ⟨hw', hopts', -⟩ := Group.step_cases hw hst
    refine ⟨hw', hopts'.trans hopts, fun key e he => ?_⟩
    rcases Group.step_entry hw hst he with ⟨hs, hev⟩ | ⟨view, fence, now, f, now₂, r, rfl, rfl, hv, rfl⟩
    · rcases hI key e hs with ⟨view, f, hlast, rfl⟩ | ⟨hs₀, hall⟩
      · exact Or.inl ⟨view, f, hlast.snoc hev, rfl⟩
      · refine Or.inr ⟨hs₀, fun x hx => ?_⟩
        rcases List.mem_append.mp hx with hx | hx
        · exact hall x hx
        · rwa [List.mem_singleton.mp hx]
    · refine Or.inl ⟨view, f, ⟨tr, fence, now, now₂, r, [], rfl, hv, by simp⟩, ?_⟩
      rw [hopts]

theorem deadline_le (view : ByteView) (ttl f : ℤ) : MainCache.deadline view ttl f ≤ f + ttl := by
  unfold MainCache.deadline
  cases view.expiresAt with
  | none => exact le_rfl
  | some t => exact min_le_right _ _

/-- A hit is a resident whose deadline is still to come. -/
theorem Group.step_hit {g g' : Group} (h : g.WF) {ctx : Option Err} {key : GoString} {t : ℤ} {v : ByteView}
    (hst : g.step (.lookup ctx key t) = some (g', .found (.ok (some v)))) :
    ∃ e, g.mainCache.find? key = some e ∧ e.expired t = false ∧ e.value = v := by
  simp only [step, Option.some.injEq, Prod.mk.injEq, Outcome.found.injEq] at hst
  exact (lookup_hit h hst.2).2

/-- **Hits never outlive their fill.**  In every state that sections can reach, a resident entry has exactly the value
and the deadline of the last fill of its key.  A hit at time `t`, on a clock that does not go back, returns what a fill
at some time `f ≤ t < f + ttl` stored, before its deadline.  And once the deadline of an entry has passed, a later hit
on its key comes from a later fill. -/
theorem hits_within_ttl {name : GoString} {capacity : ℤ} {versioned : Bool} {bloom : Option BloomFilter}
    {opts : Options} {g₀ : Group} (h₀ : newGroup name capacity versioned bloom opts = some g₀)
    {tr : List SectionEvent} {g : Group} (hrun : Run Group.step g₀ tr g) :
    0 < g₀.opts.ttl ∧
    (∀ key e, g.mainCache.find? key = some e →
      ∃ view f, LastFill tr key view f ∧ e = entryOf key view g₀.opts.ttl f) ∧
    (∀ ctx key t v g', g.step (.lookup ctx key t) = some (g', .found (.ok (some v))) →
      (clock tr ++ [t]).Pairwise (· ≤ ·) →
      ∃ view f, LastFill tr key view f ∧ v = (entryOf key view g₀.opts.ttl f).value ∧
        f ≤ t ∧ t < MainCache.deadline view g₀.opts.ttl f ∧ t < f + g₀.opts.ttl) ∧
    ∀ key e t, g.mainCache.find? key = some e → e.expired t → ∀ tr' g₁, Run Group.step g tr' g₁ →
      ∀ ctx t' v g', t ≤ t' → g₁.step (.lookup ctx key t') = some (g', .found (.ok (some v))) →
        ∃ view f, LastFill tr' key view f ∧ v = (entryOf key view g₀.opts.ttl f).value := by
  have hw₀ := (wf_newGroup h₀).1
  obtain ⟨hw, hopts, horigin⟩ := resident_origin hw₀ hrun
  have hempty : ∀ key, g₀.mainCache.find? key = none := by
    unfold newGroup at h₀
    split_ifs at h₀
    obtain ⟨o, -, rfl⟩ := Option.map_eq_some_iff.mp h₀
    exact fun _ => rfl
  have hres : ∀ key e, g.mainCache.find? key = some e →
      ∃ view f, LastFill tr key view f ∧ e = entryOf key view g₀.opts.ttl f := by
    intro key e he
    refine (horigin key e he).resolve_right fun h => ?_
    rw [hempty] at h
    exact absurd h.1 (by simp)
  refine ⟨g₀.normal.ttl, hres, fun ctx key t v g' hst hclock => ?_, fun key e t he hx tr' g₁ hrun' => ?_⟩
  · obtain ⟨e, he, hx, rfl⟩ := Group.step_hit hw hst
    obtain ⟨view, f, hlast, rfl⟩ := hres key e he
    have hlive : t < MainCache.deadline view g₀.opts.ttl f := by simpa [Entry.expired, entryOf] using hx
    refine ⟨view, f, hlast, rfl, ?_, hlive, hlive.trans_le (deadline_le view _ f)⟩
    exact (List.pairwise_append.mp hclock).2.2 f hlast.mem_clock t (by simp)
  · intro ctx t' v g' htt' hst
    obtain ⟨hw₁, -, horigin₁⟩ := resident_origin hw hrun'
    obtain ⟨e', he', hx', rfl⟩ := Group.step_hit hw₁ hst
    rcases horigin₁ key e' he' with ⟨view, f, hlast, rfl⟩ | ⟨hsame, -⟩
    · exact ⟨view, f, hlast, by rw [hopts]⟩
    · -- the entry itself has been expired since `t`
      exfalso
      obtain rfl := Option.some.inj (hsame.symm.trans he)
      obtain ⟨view, f, -, rfl⟩ := hres key e' he
      simp only [Entry.expired, entryOf, Bool.not_eq_true', Bool.not_eq_false', decide_eq_true_eq,
        decide_eq_false_iff_not] at hx hx'
      omega

/-- A fill at time 3 and a hit at time 7. -/
theorem hits_within_ttl_hit : ∃ tr g g' v, Run Group.step smallGroup tr g ∧
    g.step (.lookup none [97] 7) = some (g', .found (.ok (some v))) ∧
    ∃ view f, LastFill tr [97] view f ∧ f ≤ 7 ∧ 7 < f + smallGroup.opts.ttl := by
  have h := exec_run Group.step
    [.fill [97] ⟨[118], none, 1, 0⟩ ⟨0, 0⟩ 2 3 3, .invalidate [98] 0 4 4, .barrier [97] 5] smallGroup _ _ rfl
  obtain ⟨view, f, hlast, -, hle, -, hlt⟩ :=
    (hits_within_ttl smallGroup_eq h).2.2.1 none [97] 7 ⟨[118], some 60000000003, 1, 0⟩ _ rfl (by decide +kernel)
  exact ⟨_, _, _, _, h, rfl, view, f, hlast, hle, hlt⟩

end SimpleCache.Cache
