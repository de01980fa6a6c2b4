import Mathlib

/-!
# Windows on a ring

A ring of `n` cells serves an unbounded sequence of tickets `0, 1, 2, …`, ticket
`k` living in cell `k % n`.  Everything a proof about a ring needs from
arithmetic is here: two tickets less than one lap apart live in different cells,
every cell belongs to some ticket of the current lap, and stepping a byte offset
with the test `offset + size > len` is stepping the ticket.
-/

namespace Floem
namespace Lib

/-- Two tickets of one cell that are less than a lap apart are the same. -/
theorem eq_of_mod_eq_of_window {n a b : ℕ} (h : a % n = b % n) (hab : a ≤ b)
    (hlt : b < a + n) : a = b := by
  have hdvd : n ∣ b - a := (Nat.modEq_iff_dvd' hab).1 h
  have hzero : b - a = 0 := Nat.eq_zero_of_dvd_of_lt hdvd (by omega)
  omega

/-- A ticket and the one a lap later share their cell. -/
theorem add_lap_mod (n k : ℕ) : (k + n) % n = k % n := Nat.add_mod_right k n

/-- Different tickets of one lap live in different cells. -/
theorem mod_ne_of_window {n a b : ℕ} (hab : a < b) (hlt : b < a + n) : a % n ≠ b % n :=
  fun h => absurd (eq_of_mod_eq_of_window h hab.le hlt) hab.ne

/-- Every cell below the position reached in the first lap, or any cell at all
from the second lap on, holds a ticket of the last lap. -/
theorem exists_ticket_of_cell {n i e : ℕ} (hi : i < n) (h : i < e) :
    ∃ k, k < e ∧ e ≤ k + n ∧ k % n = i := by
  have hn : 0 < n := by omega
  have hmod : (e - 1 - i) % n < n := Nat.mod_lt _ hn
  refine ⟨e - 1 - (e - 1 - i) % n, by omega, by omega, ?_⟩
  have hle : (e - 1 - i) % n ≤ e - 1 - i := Nat.mod_le _ _
  have hsplit : e - 1 - (e - 1 - i) % n = i + n * ((e - 1 - i) / n) := by
    have := Nat.mod_add_div (e - 1 - i) n
    omega
  rw [hsplit, Nat.add_mul_mod_self_left, Nat.mod_eq_of_lt hi]

/-- The cell after the last one is cell `0`. -/
theorem succ_mod_of_last {n k : ℕ} (h : k % n + 1 = n) : (k + 1) % n = 0 := by
  rw [← Nat.mod_add_mod, h, Nat.mod_self]

/-- Anywhere else the cell index just grows by one. -/
theorem succ_mod_of_lt {n k : ℕ} (h : k % n + 1 < n) : (k + 1) % n = k % n + 1 := by
  rw [← Nat.mod_add_mod, Nat.mod_eq_of_lt h]

/-- **Stepping an offset is stepping a ticket.**  With `n` cells of `size` bytes
each, adding `size` to the offset of a ticket and wrapping to `0` when the next
cell would not fit yields the offset of the next ticket. -/
theorem next_offset {n size k : ℕ} (hn : 0 < n) (hsize : 0 < size) :
    (if k % n * size + size + size > n * size then 0 else k % n * size + size)
      = (k + 1) % n * size := by
  have hlt : k % n < n := Nat.mod_lt _ hn
  have hmul : k % n * size + size + size = (k % n + 2) * size := by ring
  by_cases hlast : k % n + 1 = n
  · rw [succ_mod_of_last hlast, Nat.zero_mul, if_pos]
    rw [hmul]
    exact Nat.mul_lt_mul_of_pos_right (by omega) hsize
  · rw [succ_mod_of_lt (by omega), if_neg]
    · ring
    · rw [hmul, not_lt]
      exact Nat.mul_le_mul_right _ (by omega)

/-- Two positions of a window of less than a lap are in the same cell only if the
window is empty. -/
theorem mod_eq_iff_of_window {n w r : ℕ} (hwr : w ≤ r) (hlt : r < w + n) :
    w % n = r % n ↔ w = r :=
  ⟨fun h => eq_of_mod_eq_of_window h hwr hlt, fun h => by rw [h]⟩

/-- **The cells of a window.**  A window `[w, r)` of less than a lap holds cell
`j` exactly if `j` lies between the cells of its ends, going round the ring. -/
theorem exists_ticket_in_window_iff {n w r j : ℕ} (hwr : w ≤ r) (hlt : r < w + n) (hj : j < n) :
    (∃ k, w ≤ k ∧ k < r ∧ k % n = j) ↔
      w % n ≠ r % n ∧ (w % n < r % n ∧ w % n ≤ j ∧ j < r % n ∨
        r % n < w % n ∧ (w % n ≤ j ∨ j < r % n)) := by
  have hn : 0 < n := by omega
  have hw := Nat.mod_lt w hn
  have hr := Nat.mod_lt r hn
  -- the ticket of cell `j` at or after `w`
  obtain ⟨k, hk, hk', hkj⟩ : ∃ k, w ≤ k ∧ k < w + n ∧ k % n = j := by
    obtain ⟨k, h1, h2, h3⟩ := exists_ticket_of_cell (e := w + n) hj (by omega)
    exact ⟨k, by omega, h1, h3⟩
  have hcell : ∀ x, w ≤ x → x < w + n → x = w + (x - w) ∧
      (w % n + (x - w) < n ∧ x % n = w % n + (x - w) ∨
        n ≤ w % n + (x - w) ∧ x % n + n = w % n + (x - w)) := fun x hx hx' => by
    have hmod : x % n = (w % n + (x - w)) % n := by
      rw [Nat.mod_add_mod, show w + (x - w) = x by omega]
    refine ⟨by omega, ?_⟩
    rcases Nat.lt_or_ge (w % n + (x - w)) n with h | h
    · exact Or.inl ⟨h, hmod.trans (Nat.mod_eq_of_lt h)⟩
    · refine Or.inr ⟨h, ?_⟩
      rw [hmod, Nat.mod_eq_sub_mod h, Nat.mod_eq_of_lt (by omega)]
      omega
  have hkc := (hcell k hk hk').2
  have hrc := (hcell r hwr hlt).2
  constructor
  · rintro ⟨x, hx, hxr, hxj⟩
    have hxc := (hcell x hx (by omega)).2
    omega
  · intro h
    refine ⟨k, hk, ?_, hkj⟩
    omega

/-- The byte ranges of two different cells do not meet. -/
theorem cell_disjoint {i j : ℕ} (size : ℕ) (h : i ≠ j) :
    i * size + size ≤ j * size ∨ j * size + size ≤ i * size := by
  rcases Nat.lt_or_gt_of_ne h with h | h
  · left
    have := Nat.mul_le_mul_right size (show i + 1 ≤ j by omega)
    rwa [Nat.add_mul, Nat.one_mul] at this
  · right
    have := Nat.mul_le_mul_right size (show j + 1 ≤ i by omega)
    rwa [Nat.add_mul, Nat.one_mul] at this

end Lib
end Floem
