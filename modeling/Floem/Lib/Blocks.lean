import Mathlib
import Floem.Lib.Window

/-!
# Rings cut into blocks

A ring of `cells` cells is cut into `n` blocks of `block` cells each, the last
of which may be shorter.  Ticket `k` lives in cell `k % cells`; blocks are
numbered without end as the tickets are, block `a` of the unbounded sequence
being block `a % n` of the ring.

* `blk k` — the block ticket `k` lives in; `first a` — the first ticket of block
  `a`.  They form a Galois connection (`le_blk_iff`).
* `blk_add_cells`, `first_add_n` — one lap further on.
* `succ_cases` — what the next ticket is: the first of the ring, the first of a
  block, or the next cell of the same block.
-/

namespace Floem
namespace Lib

/-- A ring of `cells` cells in `n` blocks of `block` cells, the last block being
the only one that may be shorter. -/
structure Blocks where
  cells : ℕ
  block : ℕ
  n : ℕ
  block_pos : 0 < block
  lower : (n - 1) * block < cells
  upper : cells ≤ n * block

namespace Blocks

variable (B : Blocks) {a b k j : ℕ}

/-- The block ticket `k` lives in, counted over all laps. -/
def blk (k : ℕ) : ℕ := k / B.cells * B.n + k % B.cells / B.block

/-- The first ticket of block `a`, blocks being counted over all laps. -/
def first (a : ℕ) : ℕ := a / B.n * B.cells + a % B.n * B.block

theorem cells_pos : 0 < B.cells := Nat.zero_lt_of_lt B.lower

theorem n_pos : 0 < B.n := by
  by_contra h
  have hn : B.n = 0 := by omega
  have hlt := B.lower.trans_le B.upper
  simp [hn] at hlt

/-- The cells of the ring lie in its `n` blocks. -/
theorem cell_block_lt (h : j < B.cells) : j / B.block < B.n :=
  Nat.div_lt_of_lt_mul (by rw [Nat.mul_comm]; exact h.trans_le B.upper)

/-- The first cell of a block is a cell of the ring. -/
theorem first_cell_lt (h : a < B.n) : a * B.block < B.cells :=
  (Nat.mul_le_mul_right _ (show a ≤ B.n - 1 by omega)).trans_lt B.lower

theorem blk_mod (k : ℕ) : B.blk k % B.n = k % B.cells / B.block := by
  rw [blk, Nat.mul_add_mod_self_right,
    Nat.mod_eq_of_lt (B.cell_block_lt (Nat.mod_lt _ B.cells_pos))]

theorem blk_div (k : ℕ) : B.blk k / B.n = k / B.cells := by
  rw [blk, Nat.mul_comm, Nat.mul_add_div B.n_pos,
    Nat.div_eq_of_lt (B.cell_block_lt (Nat.mod_lt _ B.cells_pos)), Nat.add_zero]

theorem first_mod (a : ℕ) : B.first a % B.cells = a % B.n * B.block := by
  rw [first, Nat.mul_add_mod_self_right,
    Nat.mod_eq_of_lt (B.first_cell_lt (Nat.mod_lt _ B.n_pos))]

theorem first_div (a : ℕ) : B.first a / B.cells = a / B.n := by
  rw [first, Nat.mul_comm, Nat.mul_add_div B.cells_pos,
    Nat.div_eq_of_lt (B.first_cell_lt (Nat.mod_lt _ B.n_pos)), Nat.add_zero]

/-- The first ticket of a block lives in that block. -/
@[simp] theorem blk_first (a : ℕ) : B.blk (B.first a) = a := by
  rw [blk, first_mod, first_div, Nat.mul_div_cancel _ B.block_pos, Nat.mul_comm,
    Nat.div_add_mod]

theorem first_blk_le (k : ℕ) : B.first (B.blk k) ≤ k := by
  rw [first, blk_mod, blk_div]
  calc k / B.cells * B.cells + k % B.cells / B.block * B.block
      ≤ k / B.cells * B.cells + k % B.cells :=
        Nat.add_le_add_left (Nat.div_mul_le_self _ _) _
    _ = k := by rw [Nat.mul_comm, Nat.div_add_mod]

/-- The first ticket of the next block: one block on, or the next lap. -/
theorem first_succ (a : ℕ) : B.first (a + 1) =
    if a % B.n + 1 = B.n then (a / B.n + 1) * B.cells else B.first a + B.block := by
  have hlt : a % B.n < B.n := Nat.mod_lt _ B.n_pos
  have hsplit := Nat.div_add_mod a B.n
  split_ifs with h
  · have hdvd : a + 1 = B.n * (a / B.n + 1) := by rw [Nat.mul_add, Nat.mul_one]; omega
    rw [first, hdvd, Nat.mul_div_cancel_left _ B.n_pos, Nat.mul_mod_right]
    ring
  · have hdiv : (a + 1) / B.n = a / B.n := by
      rw [show a + 1 = B.n * (a / B.n) + (a % B.n + 1) by omega, Nat.mul_add_div B.n_pos,
        Nat.div_eq_of_lt (show a % B.n + 1 < B.n by omega), Nat.add_zero]
    rw [first, first, hdiv, succ_mod_of_lt (by omega)]
    ring

/-- Every ticket comes before the next block. -/
theorem lt_first_succ_blk (k : ℕ) : k < B.first (B.blk k + 1) := by
  rw [first_succ, blk_mod, blk_div]
  have hsplit := Nat.div_add_mod k B.cells
  have hlt : k % B.cells < B.cells := Nat.mod_lt _ B.cells_pos
  split_ifs
  · rw [Nat.add_mul, Nat.one_mul, Nat.mul_comm]
    omega
  · rw [first, blk_mod, blk_div]
    have hcell := Nat.div_add_mod (k % B.cells) B.block
    have hlt' : k % B.cells % B.block < B.block := Nat.mod_lt _ B.block_pos
    rw [Nat.mul_comm (k / B.cells), Nat.mul_comm (_ / B.block)]
    omega

theorem first_lt_succ (a : ℕ) : B.first a < B.first (a + 1) := by
  have := B.lt_first_succ_blk (B.first a)
  rwa [blk_first] at this

theorem first_strictMono : StrictMono B.first := strictMono_nat_of_lt_succ B.first_lt_succ

theorem first_le_first (h : a ≤ b) : B.first a ≤ B.first b := B.first_strictMono.monotone h

/-- **`first` and `blk` form a Galois connection.** -/
theorem le_blk_iff : a ≤ B.blk k ↔ B.first a ≤ k := by
  constructor
  · exact fun h => (B.first_le_first h).trans (B.first_blk_le k)
  · intro h
    by_contra hlt
    exact absurd (B.lt_first_succ_blk k)
      (not_lt.2 ((B.first_le_first (show B.blk k + 1 ≤ a by omega)).trans h))

theorem blk_lt_iff : B.blk k < a ↔ k < B.first a := by
  rw [← not_le, ← not_le, le_blk_iff]

/-- A ticket lives in block `a` exactly if it is one of its tickets. -/
theorem blk_eq_iff : B.blk k = a ↔ B.first a ≤ k ∧ k < B.first (a + 1) := by
  rw [← le_blk_iff, ← blk_lt_iff]
  omega

/-- The ticket after the last one of a block is the first of the next. -/
theorem succ_eq_first (h : B.blk (k + 1) = B.blk k + 1) : k + 1 = B.first (B.blk k + 1) :=
  le_antisymm (B.lt_first_succ_blk k) (B.le_blk_iff.1 h.ge)

theorem blk_mono (h : j ≤ k) : B.blk j ≤ B.blk k :=
  B.le_blk_iff.2 ((B.first_blk_le j).trans h)

/-- A lap is `n` blocks. -/
@[simp] theorem blk_add_cells (k : ℕ) : B.blk (k + B.cells) = B.blk k + B.n := by
  rw [blk, blk, Nat.add_div_right k B.cells_pos, Nat.add_mod_right]
  ring

@[simp] theorem first_add_n (a : ℕ) : B.first (a + B.n) = B.first a + B.cells := by
  rw [first, first, Nat.add_div_right a B.n_pos, Nat.add_mod_right]
  ring

theorem first_zero : B.first 0 = 0 := by simp [first]

/-- The number of tickets of block `a`. -/
theorem first_succ_sub (a : ℕ) :
    B.first (a + 1) - B.first a = min B.block (B.cells - a % B.n * B.block) := by
  have hlt := B.first_cell_lt (Nat.mod_lt a B.n_pos)
  rw [first_succ]
  split_ifs with h
  · have hup := B.upper
    rw [← h, Nat.add_mul, Nat.one_mul] at hup
    rw [first, Nat.add_mul, Nat.one_mul, Nat.min_eq_right (by omega)]
    omega
  · have hcell := B.first_cell_lt (show a % B.n + 1 < B.n by
      have := Nat.mod_lt a B.n_pos
      omega)
    rw [Nat.add_mul, Nat.one_mul] at hcell
    rw [Nat.add_sub_cancel_left, Nat.min_eq_left (by omega)]

/-- The cell of a ticket is that of its block's first ticket, and as far on as the
ticket is. -/
theorem mod_eq (k : ℕ) : k % B.cells = B.blk k % B.n * B.block + (k - B.first (B.blk k)) := by
  have hcell := Nat.div_mul_le_self (k % B.cells) B.block
  have hdm := Nat.div_add_mod k B.cells
  rw [first, blk_mod, blk_div, Nat.mul_comm (k / B.cells)]
  omega

/-- **The ticket after `k`**: the first of a new lap, the first of the next block
of this lap, or the next one of the same block. -/
theorem succ_cases (k : ℕ) :
    (k % B.cells + 1 = B.cells ∧ (k + 1) % B.cells = 0 ∧ B.blk (k + 1) = B.blk k + 1 ∧
      B.blk k % B.n + 1 = B.n) ∨
    (k % B.cells + 1 < B.cells ∧ (k + 1) % B.cells = (B.blk k % B.n + 1) * B.block ∧
      (k + 1) % B.cells = k % B.cells + 1 ∧ B.blk (k + 1) = B.blk k + 1 ∧
      B.blk k % B.n + 1 < B.n) ∨
    (k % B.cells + 1 < B.cells ∧ (k + 1) % B.cells = k % B.cells + 1 ∧
      k % B.cells + 1 < (B.blk k % B.n + 1) * B.block ∧ B.blk (k + 1) = B.blk k) := by
  have hcell : k % B.cells < B.cells := Nat.mod_lt _ B.cells_pos
  have hi : B.blk k % B.n < B.n := Nat.mod_lt _ B.n_pos
  have hlow : B.blk k % B.n * B.block ≤ k % B.cells := by
    rw [blk_mod]; exact Nat.div_mul_le_self _ _
  have hhigh : k % B.cells < (B.blk k % B.n + 1) * B.block := by
    rw [blk_mod, Nat.add_mul, Nat.one_mul]
    exact Nat.lt_div_mul_add B.block_pos
  have hdm := Nat.div_add_mod k B.cells
  by_cases hlast : k % B.cells + 1 = B.cells
  · -- the last cell of the ring is in its last block
    have hn : B.blk k % B.n + 1 = B.n := by
      by_contra hne
      have := B.first_cell_lt (show B.blk k % B.n + 1 < B.n by omega)
      omega
    have hnext : k + 1 = B.first (B.blk k + 1) := by
      rw [first_succ, if_pos hn, blk_div, Nat.add_mul, Nat.one_mul, Nat.mul_comm]
      omega
    refine Or.inl ⟨hlast, succ_mod_of_last hlast, ?_, hn⟩
    rw [hnext, blk_first]
  · have hmod : (k + 1) % B.cells = k % B.cells + 1 := succ_mod_of_lt (by omega)
    have hdiv : (k + 1) / B.cells = k / B.cells := by
      rw [show k + 1 = B.cells * (k / B.cells) + (k % B.cells + 1) by omega,
        Nat.mul_add_div B.cells_pos, Nat.div_eq_of_lt (show k % B.cells + 1 < B.cells by omega),
        Nat.add_zero]
    by_cases hcross : k % B.cells + 1 = (B.blk k % B.n + 1) * B.block
    · have hdb : (k + 1) % B.cells / B.block = B.blk k % B.n + 1 := by
        rw [hmod, hcross, Nat.mul_div_cancel _ B.block_pos]
      refine Or.inr (Or.inl ⟨by omega, by rw [hmod, hcross], hmod, ?_, ?_⟩)
      · rw [blk, hdb, hdiv, blk_mod, blk]; ring
      · rw [← hdb]
        exact B.cell_block_lt (Nat.mod_lt _ B.cells_pos)
    · have hdb : (k + 1) % B.cells / B.block = B.blk k % B.n := by
        rw [hmod]
        exact Nat.div_eq_of_lt_le (by omega) (by omega)
      refine Or.inr (Or.inr ⟨by omega, hmod, by omega, ?_⟩)
      rw [blk, hdb, hdiv, blk_mod, blk]

end Blocks

end Lib
end Floem
