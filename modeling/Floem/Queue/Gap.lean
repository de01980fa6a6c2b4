import Floem.Queue.Fifo
import Floem.Queue.Offset

/-!
# What the gap test reserves

On the CPU the slots that follow one that is free or waits to be cleaned are free as
well, up to the slot at the offset, if entries are released in ring order.  So a call
with a gap that found the slot `gap` ahead free leaves `gap` slots for later calls.

* `Ring.call` — a step of a ring whose `enqueue_alloc` looks at the slot the code
  computes, with the overflow of its `int`.
* `Ring.Reserves` — a successful call leaves `gap` more slots that can be handed out.
* `gap_reserves_iff` — the right slot is looked at, and the slots are reserved, exactly
  if the offset fits an `int` and the slot is not slot `0`.
-/

namespace Floem
namespace Queue

open Lib

namespace Ring

variable {R : Ring} {s t : State}

/-! ## What the gap promises -/

/-- A step, with the entry an `enqueue_alloc` looks at computed in an `int`.  Where C
leaves its value undefined, or the loop does not end, there is no step. -/
def call (R : Ring) (s : State) : Action → Option State
  | .alloc len gap => do
      let check ← GapVar.int.entry s.enq gap
      R.allocAt s len check
  | a => R.step s a

/-- The tickets released so far were released in ring order. -/
def InRingOrder (s : State) : Prop :=
  ∀ j k, j ≤ k → s.released k = true → s.released j = true

/-- After a successful call with this gap, calls with gap `0` succeed until `gap`
further entries are handed out, whatever else is done, so also when nothing more is
released. -/
def Reserves (R : Ring) (s : State) (gap : ℕ) : Prop :=
  InRingOrder s → gap < R.slots →
    ∀ len t, R.call s (.alloc len gap) = some t → t.issued ≠ s.issued →
    ∀ bs u, run R.call t bs = some u → u.issued.length < t.issued.length + gap →
    ∀ len', headerSize ≤ len' → len' ≤ R.entrySize →
      ∃ e v, R.call u (.alloc len' 0) = some v ∧ v.issued = u.issued ++ [e]

/-! ## Runs -/

theorem call_alloc_eq_some {len gap : ℕ} (h : R.call s (.alloc len gap) = some t) :
    ∃ check, GapVar.int.entry s.enq gap = some check ∧ R.allocAt s len check = some t :=
  Option.bind_eq_some_iff.1 h

/-- A call with gap `0` looks at the slot it hands out. -/
theorem call_alloc_zero (hI : R.Inv s) (len : ℕ) :
    R.call s (.alloc len 0) = R.allocAt s len (R.slotOf s.issued.length) := by
  rw [call, GapVar.entry, if_neg (lt_irrefl 0), hI.enq_eq]
  rfl

/-- **Every call keeps the ring invariant.** -/
theorem inv_call (s : State) (a : Action) (t : State) (hI : R.Inv s)
    (h : R.call s a = some t) : R.Inv t := by
  cases a with
  | alloc len gap =>
      obtain ⟨check, -, h⟩ := call_alloc_eq_some h
      exact inv_allocAt hI h
  | produce k i b => exact inv_step s (.produce k i b) t hI h
  | submit k => exact inv_step s (.submit k) t hI h
  | get => exact inv_step s .get t hI h
  | consume k i b => exact inv_step s (.consume k i b) t hI h
  | release k => exact inv_step s (.release k) t hI h

/-- **After every run from zeroed storage the ring invariant holds.** -/
theorem inv_run_call {mem : Mem} (hzero : R.Zeroed mem) {as : List Action}
    (h : run R.call (R.init mem) as = some s) : R.Inv s :=
  run_invariant inv_call (inv_init hzero) h

/-! ## The slots behind it -/

/-- A ticket whose slot is free or waits to be cleaned was released. -/
theorem Inv.released_of_free (hI : R.Inv s) {k : ℕ}
    (h : R.flagOf s k = 0 ∨ R.flagOf s k = FLAG_CLEAN) : s.released k = true := by
  rcases h with h | h
  · exact hI.released_of_flagOf h
  · exact (flagClean_of_flagOf h).2.2

/-- What a call with a gap does to the history. -/
theorem allocAt_cases (hI : R.Inv s) {len check : ℕ} (h : R.allocAt s len check = some t) :
    t.released = s.released ∧ (t.issued = s.issued ∨
      t.issued = s.issued ++ [R.slotOf s.issued.length] ∧ ∃ m calls, R.AllocPre s m calls ∧
        (m.flag check = 0 ∨ m.flag check = FLAG_CLEAN)) := by
  obtain ⟨hN, hlen, hlen'⟩ := allocAt_guard hI h
  obtain ⟨m, calls, hpre, hspec⟩ := allocAt_spec hI hN check hlen hlen'
  rw [hspec, Option.some.injEq] at h
  rw [← h]
  split_ifs with hfree
  · exact ⟨rfl, Or.inr ⟨rfl, m, calls, hpre, hfree.2⟩⟩
  · exact ⟨rfl, Or.inl rfl⟩

/-- What is released stays released. -/
theorem released_of_call {a : Action} (hI : R.Inv s) (h : R.call s a = some t) {k : ℕ}
    (hk : s.released k = true) : t.released k = true := by
  cases a with
  | alloc len gap =>
      obtain ⟨check, -, h⟩ := call_alloc_eq_some h
      rw [(allocAt_cases hI h).1]
      exact hk
  | produce j i b =>
      obtain ⟨e, -, -, -, rfl⟩ := step_produce_eq_some h
      exact hk
  | submit j =>
      simp only [call, step, Option.bind_eq_bind, Option.bind_eq_some_iff] at h
      obtain ⟨e, -, -, -, m, -, h⟩ := h
      rw [← Option.some.inj h]
      exact hk
  | get =>
      simp only [call, step, Option.bind_eq_bind, Option.bind_eq_some_iff] at h
      obtain ⟨r, -, h⟩ := h
      rw [← Option.some.inj h]
      exact hk
  | consume j i b =>
      obtain ⟨g, -, -, -, rfl⟩ := step_consume_eq_some h
      exact hk
  | release j =>
      simp only [call, step, Option.bind_eq_bind, Option.bind_eq_some_iff] at h
      obtain ⟨g, -, -, -, m, -, h⟩ := h
      rw [← Option.some.inj h]
      by_cases hkj : k = j
      · rw [hkj]; exact Function.update_self ..
      · exact (Function.update_of_ne hkj _ _).trans hk

/-- **When a call with gap `0` succeeds.**  A slot is handed out if the ticket that
had it one lap before was released. -/
theorem alloc_of_released (hI : R.Inv s) (hN : 0 < R.slots) {len : ℕ}
    (hlen : headerSize ≤ len) (hlen' : len ≤ R.entrySize)
    (hrel : ∀ k, k + R.slots = s.issued.length → s.released k = true) :
    ∃ t, R.call s (.alloc len 0) = some t ∧
      t.issued = s.issued ++ [R.slotOf s.issued.length] := by
  have hes : 0 < R.entrySize := by rw [headerSize] at hlen; omega
  obtain ⟨m, calls, hpre, hspec⟩ := allocAt_spec hI hN (R.slotOf s.issued.length) hlen hlen'
  have hfree : m.flag (R.slotOf s.issued.length) = 0 := by
    by_cases hflag : s.mem.flag (R.slotOf s.issued.length) = FLAG_CLEAN
    · exact hpre.clean hflag
    · rw [(hpre.same hflag).1]
      rcases Nat.lt_or_ge s.issued.length R.slots with hfirst | hlap
      · exact hI.fresh hes _ hfirst le_rfl
      · -- the ticket one lap before was released, and its slot is not waiting to be cleaned
        have hfl := hI.flag_next hN hlap
        rw [flagOf, if_pos (hrel (s.issued.length - R.slots) (by omega))] at hfl
        split_ifs at hfl with hcl
        · exact hfl
        · rcases R.flagClean_eq with h0 | h0
          · exact hfl.trans h0
          · exact absurd (hfl.trans h0) hflag
  refine ⟨_, (call_alloc_zero hI len).trans hspec, ?_⟩
  rw [if_pos ⟨hfree, Or.inl hfree⟩]
  rfl

/-- **What the free slot says about the slots before it.**  A successful call that
looked at the slot `gap` ahead found the ticket that had it released. -/
theorem released_of_gap (hI : R.Inv s) {len gap : ℕ} (hgap : gap < R.slots)
    (h : R.allocAt s len (R.slotOf (s.issued.length + gap)) = some t)
    (hne : t.issued ≠ s.issued) {k : ℕ} (hk : k + R.slots = s.issued.length + gap) :
    s.released k = true := by
  obtain ⟨-, hsame | ⟨-, m, calls, hpre, hfree⟩⟩ := allocAt_cases hI h
  · exact absurd hsame hne
  · have hslot : R.slotOf (s.issued.length + gap) = R.slotOf k := by
      rw [← hk, slotOf, slotOf, add_lap_mod]
    have hlive := hpre.inv.live k (show k < s.issued.length by omega)
      (show s.issued.length ≤ k + R.slots by omega)
    refine hpre.inv.released_of_free ?_
    rw [← hlive.flag, ← hslot]
    exact hfree

/-- **The reservation.**  If the right slot is looked at, a successful call leaves
`gap` slots that can be handed out. -/
theorem reserves_of_entry (hI : R.Inv s) (hN : 0 < R.slots) {gap : ℕ}
    (hentry : GapVar.int.entry s.enq gap = some (R.slotOf (s.issued.length + gap))) :
    R.Reserves s gap := by
  intro horder hgap len t hstep hne bs u hrun hlt len' hlen hlen'
  have hu : R.Inv u ∧ ∀ k, s.released k = true → u.released k = true := by
    refine run_invariant
      (P := fun v => R.Inv v ∧ ∀ k, s.released k = true → v.released k = true)
      (fun v a v' hv hv' => ⟨inv_call v a v' hv.1 hv', fun k hk => ?_⟩)
      ⟨inv_call s _ t hI hstep, fun k hk => released_of_call hI hstep hk⟩ hrun
    exact released_of_call hv.1 hv' (hv.2 k hk)
  obtain ⟨check, hcheck, halloc⟩ := call_alloc_eq_some hstep
  obtain rfl := Option.some.inj (hcheck.symm.trans hentry)
  have hlength : t.issued.length = s.issued.length + 1 := by
    rcases (allocAt_cases hI halloc).2 with hsame | ⟨hissued, -⟩
    · exact absurd hsame hne
    · rw [hissued, List.length_append, List.length_singleton]
  have hrel : ∀ k, k + R.slots = u.issued.length → u.released k = true := fun k hk => by
    -- the ticket is not after the one whose slot was looked at
    refine hu.2 k (horder k (s.issued.length + gap - R.slots) (by omega) ?_)
    exact released_of_gap hI hgap halloc hne (by omega)
  obtain ⟨v, hv, hissued⟩ := alloc_of_released hu.1 hN hlen hlen' hrel
  exact ⟨_, v, hv, hissued⟩

/-! ## The slot looked at -/

/-- The end of the enqueuer is at a slot. -/
theorem aligned_enq (hI : R.Inv s) (hN : 0 < R.slots) (hes : 0 < R.entrySize) :
    s.enq.Aligned where
  entrySize_pos := by rw [hI.enq_eq]; exact hes
  dvd_len := by rw [hI.enq_eq]; exact Nat.dvd_mul_left _ _
  dvd_offset := by rw [hI.enq_eq]; exact Nat.dvd_mul_left _ _
  offset_lt := by rw [hI.enq_eq]; exact offset_lt hN hes _

/-- The slot looked at is that of the ticket `gap` later when its offset fits. -/
theorem entry_of_fits (hI : R.Inv s) (hN : 0 < R.slots) (hes : 0 < R.entrySize) {gap : ℕ}
    (h : GapVar.int.Fits s.enq gap) :
    GapVar.int.entry s.enq gap = some (R.slotOf (s.issued.length + gap)) := by
  have hslots : s.enq.slots = R.slots := by
    rw [hI.enq_eq]
    exact Nat.mul_div_cancel _ hes
  have hi : s.enq.offset / s.enq.entrySize = s.issued.length % R.slots := by
    rw [hI.enq_eq]
    exact Nat.mul_div_cancel _ hes
  rw [(aligned_enq hI hN hes).entry_eq .int fun _ => h, hslots, hi, Nat.mod_add_mod, hI.enq_eq]
  rfl

/-- **The gap test on the CPU.**  After every run from zeroed storage and for every
gap, the slot looked at is the right one and a successful call reserves what the gap
promises exactly if the offset of that slot fits. -/
theorem gap_reserves_iff (hN : 0 < R.slots) (hsize : headerSize ≤ R.entrySize) {mem : Mem}
    (hzero : R.Zeroed mem) {as : List Action} (h : run R.call (R.init mem) as = some s) {gap : ℕ}
    (hgap : 1 ≤ gap) :
    (s.enq.Consults .int gap ∧ R.Reserves s gap) ↔ GapVar.int.Fits s.enq gap := by
  have hI : R.Inv s := inv_run_call hzero h
  have hes : 0 < R.entrySize := by rw [headerSize] at hsize; omega
  have hconsults := (aligned_enq hI hN hes).consults_iff .int hgap
  constructor
  · intro hc
    exact hconsults.1 hc.1
  · intro hfits
    exact ⟨hconsults.2 hfits, reserves_of_entry hI hN (entry_of_fits hI hN hes hfits)⟩

end Ring
end Queue
end Floem
