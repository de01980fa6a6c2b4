import Mathlib
import Floem.Queue.Circular

/-!
# The slot the gap test looks at

An `enqueue_alloc` with a gap looks at a second slot, `gap` slots ahead of the one
at the offset, and hands out nothing unless that slot is free as well.  The offset
of the slot it looks at is computed in an `int` on the CPU and in a `uint32_t` on
the Cavium, and brought back into the storage by
`while(offset > q->len) offset -= q->len;`.

* `wrapGap_eq` — the loop is a remainder, but for the positive multiples of `len`,
  which it leaves at `len`.
* `GapVar.entry` — the entry looked at; `Consults` says that it is the right one.
* `consults_iff` — it is exactly if the offset fits its variable (`GapVar.Fits`).
-/

namespace Floem
namespace Queue

/-! ## The loop -/

/-- **The loop of the gap test** is a remainder modulo `len`, except that it leaves
a positive multiple of `len` at `len`. -/
theorem wrapGap_eq {len : ℕ} (hlen : 0 < len) (x : ℕ) :
    wrapGap len x = if 0 < x ∧ len ∣ x then len else x % len := by
  fun_induction wrapGap len x with
  | case1 x h ih =>
      have hdvd : len ∣ x - len ↔ len ∣ x :=
        ⟨fun hd => (Nat.dvd_sub_iff_left h.2.le dvd_rfl).1 hd,
          fun hd => Nat.dvd_sub hd dvd_rfl⟩
      rw [ih, ← Nat.mod_eq_sub_mod h.2.le]
      exact if_congr (and_congr (by omega) hdvd) rfl rfl
  | case2 x h =>
      have hle : x ≤ len := not_lt.1 fun hlt => h ⟨hlen, hlt⟩
      split_ifs with hx
      · exact le_antisymm hle (Nat.le_of_dvd hx.1 hx.2)
      · rcases hle.lt_or_eq with hlt | rfl
        · exact (Nat.mod_eq_of_lt hlt).symm
        · exact absurd ⟨hlen, dvd_rfl⟩ hx

/-- Where the loop ends at the remainder. -/
theorem wrapGap_eq_mod_iff {len x r : ℕ} (hlen : 0 < len) (hr : r < len) :
    wrapGap len x = r ↔ x % len = r ∧ ¬ (0 < x ∧ len ∣ x) := by
  rw [wrapGap_eq hlen]
  split_ifs with hx
  · exact iff_of_false (by omega) (fun h => h.2 hx)
  · exact (and_iff_left hx).symm

/-- The loop on an `int` with the bits `u`.  The comparison is one of `size_t`, in
which a negative `offset` is larger than every `len`, and the difference is taken
modulo `2 ^ 32`.  An `int` has `2 ^ 32` values, so the loop ends within so many
rounds or never. -/
def wrapInt (len : ℕ) : ℕ → ℕ → Option ℕ
  | 0, _ => none
  | fuel + 1, u =>
    if u < 2 ^ 31 ∧ u ≤ len then some u
    else wrapInt len fuel ((u + (2 ^ 32 - len % 2 ^ 32)) % 2 ^ 32)

theorem wrapInt_lt {len fuel u x : ℕ} (h : wrapInt len fuel u = some x) : x < 2 ^ 31 := by
  fun_induction wrapInt len fuel u with
  | case1 => cases h
  | case2 fuel u hu =>
      rw [← Option.some.inj h]
      exact hu.1
  | case3 fuel u hu ih => exact ih h

/-- In a storage an `int` can hold the size of, the loop on an `int` is the one on
numbers, though it passes through negative values. -/
theorem wrapInt_eq_wrapGap {len x fuel : ℕ} (hlen : 0 < len) (hlen' : len < 2 ^ 31)
    (hx : x < 2 ^ 32) (hfuel : x < fuel) : wrapInt len fuel x = some (wrapGap len x) := by
  induction fuel generalizing x with
  | zero => exact absurd hfuel (Nat.not_lt_zero x)
  | succ fuel ih =>
      rw [wrapInt, wrapGap]
      by_cases hle : x ≤ len
      · rw [if_pos (by omega), if_neg (by omega)]
      · rw [if_neg (by omega), if_pos (by omega),
          show (x + (2 ^ 32 - len % 2 ^ 32)) % 2 ^ 32 = x - len by omega]
        exact ih (by omega) (by omega)

/-- In a larger storage, the loop on an `int` ends at the remainder of an offset that
was increased by less than `2 ^ 31` if the offset fits an `int`, or if it is behind
the storage and either negative as an `int` or nothing is lost with the high bits of
`len`. -/
theorem wrapInt_eq_mod_iff {len v fuel : ℕ} (hlen : 2 ^ 31 ≤ len) (hv : v < len + 2 ^ 31)
    (hfuel : 2 ≤ fuel) : wrapInt len fuel (v % 2 ^ 32) = some (v % len) ↔
      v < 2 ^ 31 ∨ len ≤ v ∧ (2 ^ 31 ≤ v % 2 ^ 32 ∨ 2 ^ 32 ∣ len) := by
  obtain ⟨fuel, rfl⟩ := Nat.exists_eq_add_of_le' hfuel
  rcases Nat.lt_or_ge v len with hlt | hge
  · rw [Nat.mod_eq_of_lt hlt, or_iff_left (by omega)]
    constructor
    · exact wrapInt_lt
    · intro h
      rw [wrapInt, if_pos (by omega), Nat.mod_eq_of_lt (by omega)]
  · have hmod : v % len = v - len := by
      rw [Nat.mod_eq_sub_mod hge, Nat.mod_eq_of_lt (by omega)]
    rw [hmod, or_iff_right (by omega), and_iff_right hge]
    by_cases hneg : 2 ^ 31 ≤ v % 2 ^ 32
    · -- the first comparison fails, and one subtraction arrives at the remainder
      refine iff_of_true ?_ (Or.inl hneg)
      rw [wrapInt, if_neg (by omega), wrapInt, if_pos (by omega), Option.some.injEq]
      omega
    · rw [or_iff_right hneg, wrapInt, if_pos (by omega), Option.some.injEq]
      omega

/-! ## The slot looked at -/

/-- The variable `offset` of the gap test: an `int` in `queue.h`, a `uint32_t` in
`floem-queue.c`. -/
inductive GapVar
  | int
  | uint32
  deriving DecidableEq, Repr

/-- `q->offset + gap*q->entry_size`, in numbers. -/
def CircularQueue.ahead (q : CircularQueue) (gap : ℕ) : ℕ := q.offset + gap * q.entrySize

namespace GapVar

/-- `offset` after the loop.  In `queue.h` the product is one of `int`, which C
defines below `2 ^ 31` only; in `floem-queue.c` it is one of `uint32_t`. -/
def offset : GapVar → CircularQueue → ℕ → Option ℕ
  | int, q, gap =>
    if gap * q.entrySize < 2 ^ 31 then wrapInt q.len (2 ^ 32) (q.ahead gap % 2 ^ 32) else none
  | uint32, q, gap => some (wrapGap q.len (q.ahead gap % 2 ^ 32))

/-- The entry `check` of an `enqueue_alloc`. -/
def entry (w : GapVar) (q : CircularQueue) (gap : ℕ) : Option ℕ :=
  if 0 < gap then (w.offset q gap).map (q.queue + ·) else some (q.queue + q.offset)

/-- When the slot looked at is the right one.  The remainder must not be reached as a
positive multiple of `len`, and must not be lost with the high bits of the offset. -/
def Fits : GapVar → CircularQueue → ℕ → Prop
  | int, q, gap => gap * q.entrySize < 2 ^ 31 ∧
      if q.len < 2 ^ 31 then ¬ q.len ∣ q.ahead gap
      else q.ahead gap < 2 ^ 31 ∨
        q.len ≤ q.ahead gap ∧ (2 ^ 31 ≤ q.ahead gap % 2 ^ 32 ∨ 2 ^ 32 ∣ q.len)
  | uint32, q, gap => q.ahead gap % 2 ^ 32 % q.len = q.ahead gap % q.len ∧
      ¬ (0 < q.ahead gap % 2 ^ 32 ∧ q.len ∣ q.ahead gap % 2 ^ 32)

/-- On a storage an `int` can hold the size of, what decides is whether the slot looked
at is slot `0`. -/
theorem fits_int_iff {q : CircularQueue} (hlen : q.len < 2 ^ 31) (gap : ℕ) :
    int.Fits q gap ↔ gap * q.entrySize < 2 ^ 31 ∧ ¬ q.len ∣ q.ahead gap := by
  rw [Fits, if_pos hlen]

/-- Where the offset fits a `uint32_t`, so too on the Cavium. -/
theorem fits_uint32_iff {q : CircularQueue} {gap : ℕ} (hpos : 0 < q.ahead gap)
    (hlt : q.ahead gap < 2 ^ 32) : uint32.Fits q gap ↔ ¬ q.len ∣ q.ahead gap := by
  rw [Fits, Nat.mod_eq_of_lt hlt, and_iff_right rfl, and_iff_right hpos]

end GapVar

namespace CircularQueue

/-- An end whose offset is that of a slot of its storage. -/
structure Aligned (q : CircularQueue) : Prop where
  entrySize_pos : 0 < q.entrySize
  dvd_len : q.entrySize ∣ q.len
  dvd_offset : q.entrySize ∣ q.offset
  offset_lt : q.offset < q.len

/-- The number of slots. -/
def slots (q : CircularQueue) : ℕ := q.len / q.entrySize

/-- The slot looked at is slot `(i + gap) mod N`, where slot `i` is at the offset,
and lies inside the storage. -/
def Consults (q : CircularQueue) (w : GapVar) (gap : ℕ) : Prop :=
  ∃ e, w.entry q gap = some e ∧
    e = q.queue + (q.offset / q.entrySize + gap) % q.slots * q.entrySize ∧
    q.queue ≤ e ∧ e + q.entrySize ≤ q.queue + q.len

namespace Aligned

variable {q : CircularQueue} {gap : ℕ}

theorem len_pos (h : q.Aligned) : 0 < q.len := Nat.zero_lt_of_lt h.offset_lt

theorem slots_pos (h : q.Aligned) : 0 < q.slots :=
  Nat.div_pos (Nat.le_of_dvd h.len_pos h.dvd_len) h.entrySize_pos

theorem slots_mul (h : q.Aligned) : q.slots * q.entrySize = q.len :=
  Nat.div_mul_cancel h.dvd_len

/-- The offset of the slot that should be looked at. -/
theorem ahead_mod (h : q.Aligned) (gap : ℕ) : q.ahead gap % q.len =
    (q.offset / q.entrySize + gap) % q.slots * q.entrySize := by
  conv_lhs => rw [← h.slots_mul, ahead, ← Nat.div_mul_cancel h.dvd_offset, ← Nat.add_mul]
  exact Nat.mul_mod_mul_right _ _ _

/-- A slot lies inside the storage. -/
theorem slot_end_le (h : q.Aligned) (k : ℕ) :
    k % q.slots * q.entrySize + q.entrySize ≤ q.len := by
  rw [← Nat.succ_mul, ← h.slots_mul]
  exact Nat.mul_le_mul_right _ (Nat.mod_lt _ h.slots_pos)

/-- Where the loop has to end. -/
theorem offset_eq_iff (h : q.Aligned) (w : GapVar) (gap : ℕ) (hgap : 1 ≤ gap) :
    w.offset q gap = some (q.ahead gap % q.len) ↔ w.Fits q gap := by
  have hlen := h.len_pos
  have hmod := Nat.mod_lt (q.ahead gap) hlen
  cases w with
  | uint32 => rw [GapVar.offset, Option.some.injEq, wrapGap_eq_mod_iff hlen hmod, GapVar.Fits]
  | int =>
      rw [GapVar.offset, GapVar.Fits]
      by_cases hprod : gap * q.entrySize < 2 ^ 31
      · have hahead : q.ahead gap < q.len + 2 ^ 31 := Nat.add_lt_add h.offset_lt hprod
        have hpos : 0 < q.ahead gap :=
          Nat.add_pos_right _ (Nat.mul_pos hgap h.entrySize_pos)
        rw [if_pos hprod, and_iff_right hprod]
        by_cases hint : q.len < 2 ^ 31
        · rw [if_pos hint, Nat.mod_eq_of_lt (by omega),
            wrapInt_eq_wrapGap hlen hint (by omega) (by omega), Option.some.injEq,
            wrapGap_eq_mod_iff hlen hmod, and_iff_right rfl, and_iff_right hpos]
        · rw [if_neg hint]
          exact wrapInt_eq_mod_iff (by omega) hahead (by decide)
      · rw [if_neg hprod]
        exact iff_of_false (fun hn => by cases hn) (fun hf => hprod hf.1)

/-- **The right slot is looked at exactly if the offset fits.** -/
theorem consults_iff (h : q.Aligned) (w : GapVar) (hgap : 1 ≤ gap) :
    q.Consults w gap ↔ w.Fits q gap := by
  have hslot := h.slot_end_le (q.offset / q.entrySize + gap)
  have hmod := h.ahead_mod gap
  rw [← h.offset_eq_iff w gap hgap]
  constructor
  · rintro ⟨e, he, heq, -, -⟩
    rw [GapVar.entry, if_pos (by omega)] at he
    obtain ⟨x, hx, rfl⟩ := Option.map_eq_some_iff.1 he
    rw [hx, hmod]
    exact congrArg some (by omega)
  · intro hx
    refine ⟨q.queue + q.ahead gap % q.len, ?_, by rw [hmod], by omega, by omega⟩
    rw [GapVar.entry, if_pos (by omega), hx]
    rfl

/-- The entry looked at, for every gap. -/
theorem entry_eq (h : q.Aligned) (w : GapVar) (hfits : 1 ≤ gap → w.Fits q gap) :
    w.entry q gap =
      some (q.queue + (q.offset / q.entrySize + gap) % q.slots * q.entrySize) := by
  rcases Nat.eq_zero_or_pos gap with rfl | hgap
  · have hlt : q.offset / q.entrySize < q.slots := by
      rw [slots, Nat.div_lt_div_right h.entrySize_pos.ne' h.dvd_offset h.dvd_len]
      exact h.offset_lt
    rw [GapVar.entry, if_neg (lt_irrefl 0), Nat.add_zero, Nat.mod_eq_of_lt hlt,
      Nat.div_mul_cancel h.dvd_offset]
  · obtain ⟨e, he, heq, -, -⟩ := (h.consults_iff w hgap).2 (hfits hgap)
    rw [he, heq]

end Aligned
end CircularQueue
end Queue
end Floem
