import Floem.Lib.Blocks

/-!
# The layout of a smart queue on the NIC

`create_dma_circular_queue` of `floem/include_cavium/floem-queue-manage.c` cuts the
storage of a queue into segments that one DMA transfer can move.  This file fixes
what it computes once and nothing writes later: the sizes of the queue and the
address range of each segment.

* `Layout` — a storage the function accepts, `slots` entries of `overlap` bytes.
* `segAddr`, `segSize`, `segAddrMax` — the fields `addr`, `size` and `addr_max` of
  segment `i`.
* `pos` — the address of the entry with ticket `k`, entries being numbered
  through all laps; `blocks` connects tickets and segments.
-/

namespace Floem
namespace Nic

open Lib

/-- `BUFF_SIZE`, the longest DMA transfer. -/
def BUFF_SIZE : ℕ := 2048

/-- A storage `create_dma_circular_queue` accepts.  The compiler declares it as an
array of `slots` entries, so its size is a multiple of the entry size. -/
structure Layout where
  addr : ℕ
  /-- The entry size. -/
  overlap : ℕ
  slots : ℕ
  overlap_pos : 0 < overlap
  overlap_le : overlap ≤ BUFF_SIZE
  size_ge : 4 * BUFF_SIZE ≤ slots * overlap

namespace Layout

variable (L : Layout) {i k : ℕ}

/-- `q->size`. -/
def size : ℕ := L.slots * L.overlap

/-- `q->block_size`. -/
def blockSize : ℕ := BUFF_SIZE / L.overlap * L.overlap

/-- `q->n`, the number of segments. -/
def n : ℕ := 1 + (L.size - 1) / L.blockSize

/-- `seg->size` of segment `i`: `MIN(size, q->block_size)`, where `size` has lost a
block for each segment before. -/
def segSize (i : ℕ) : ℕ :=
  if L.size - i * L.blockSize < L.blockSize then L.size - i * L.blockSize else L.blockSize

/-- `seg->addr` of segment `i`. -/
def segAddr (i : ℕ) : ℕ := L.addr + i * L.blockSize

/-- `seg->addr_max` of segment `i`. -/
def segAddrMax (i : ℕ) : ℕ := L.segAddr i + L.segSize i

/-- The address of the entry with ticket `k`. -/
def pos (k : ℕ) : ℕ := L.addr + k % L.slots * L.overlap

/-! ## Entries and segments -/

theorem entries_pos : 0 < BUFF_SIZE / L.overlap := Nat.div_pos L.overlap_le L.overlap_pos

theorem blockSize_pos : 0 < L.blockSize := Nat.mul_pos L.entries_pos L.overlap_pos

theorem blockSize_le : L.blockSize ≤ BUFF_SIZE := Nat.div_mul_le_self _ _

/-- The segments hold the storage, and the last of them begins inside it. -/
theorem segments_cover : (L.n - 1) * L.blockSize < L.size ∧ L.size ≤ L.n * L.blockSize := by
  have hsize : 0 < L.size := by
    have := L.size_ge
    rw [← size, BUFF_SIZE] at this
    omega
  have hlow := Nat.div_mul_le_self (L.size - 1) L.blockSize
  have hhigh := Nat.lt_div_mul_add (a := L.size - 1) L.blockSize_pos
  rw [n, Nat.add_sub_cancel_left, Nat.add_mul, Nat.one_mul]
  omega

/-- **The ring of entries, cut into segments.** -/
def blocks : Blocks where
  cells := L.slots
  block := BUFF_SIZE / L.overlap
  n := L.n
  block_pos := L.entries_pos
  lower := by
    have h := L.segments_cover.1
    rw [blockSize, size, ← Nat.mul_assoc] at h
    exact Nat.lt_of_mul_lt_mul_right h
  upper := by
    have h := L.segments_cover.2
    rw [blockSize, size, ← Nat.mul_assoc] at h
    exact Nat.le_of_mul_le_mul_right h L.overlap_pos

/-- A queue has at least four segments. -/
theorem four_le_n : 4 ≤ L.n := by
  have hcover := L.segments_cover.2
  have hsize := L.size_ge
  rw [← size] at hsize
  have hle : L.n * L.blockSize ≤ L.n * BUFF_SIZE := Nat.mul_le_mul_left _ L.blockSize_le
  exact Nat.le_of_mul_le_mul_right (hsize.trans (hcover.trans hle)) (by decide)

theorem n_pos : 0 < L.n := by have := L.four_le_n; omega

/-- The number of entries of the block `a` of the unbounded sequence. -/
def width (a : ℕ) : ℕ := L.blocks.first (a + 1) - L.blocks.first a

theorem width_pos (a : ℕ) : 0 < L.width a := Nat.sub_pos_of_lt (L.blocks.first_lt_succ a)

/-- A segment holds a whole number of entries. -/
theorem segSize_eq (a : ℕ) : L.segSize (a % L.n) = L.width a * L.overlap := by
  have hw : L.width a = min (BUFF_SIZE / L.overlap)
      (L.slots - a % L.n * (BUFF_SIZE / L.overlap)) := L.blocks.first_succ_sub a
  have hsub : L.size - a % L.n * L.blockSize
      = (L.slots - a % L.n * (BUFF_SIZE / L.overlap)) * L.overlap := by
    rw [Nat.sub_mul, size, blockSize, Nat.mul_assoc]
  rw [segSize, hsub, hw, blockSize]
  by_cases hlt : L.slots - a % L.n * (BUFF_SIZE / L.overlap) < BUFF_SIZE / L.overlap
  · rw [if_pos (Nat.mul_lt_mul_of_pos_right hlt L.overlap_pos), Nat.min_eq_right hlt.le]
  · rw [if_neg (fun h => hlt (Nat.lt_of_mul_lt_mul_right h)), Nat.min_eq_left (not_lt.1 hlt)]

/-- `seg->size/q->overlap` is the number of entries of the segment. -/
theorem segSize_div (a : ℕ) : L.segSize (a % L.n) / L.overlap = L.width a := by
  rw [segSize_eq, Nat.mul_div_cancel _ L.overlap_pos]

theorem segAddrMax_eq (a : ℕ) :
    L.segAddrMax (a % L.n) = L.segAddr (a % L.n) + L.width a * L.overlap := by
  rw [segAddrMax, segSize_eq]

/-- The segments follow each other. -/
theorem segAddrMax_of_lt (h : i + 1 < L.n) : L.segAddrMax i = L.segAddr (i + 1) := by
  have hle : (i + 1) * L.blockSize ≤ L.size :=
    (Nat.mul_le_mul_right _ (show i + 1 ≤ L.n - 1 by omega)).trans L.segments_cover.1.le
  rw [Nat.add_mul, Nat.one_mul] at hle
  rw [segAddrMax, segSize, if_neg (by omega), segAddr, segAddr, Nat.add_mul, Nat.one_mul]
  omega

/-- The address of an entry, from the segment it lies in. -/
theorem pos_eq (k : ℕ) : L.pos k =
    L.segAddr (L.blocks.blk k % L.n) + (k - L.blocks.first (L.blocks.blk k)) * L.overlap := by
  rw [pos, segAddr, show k % L.slots = _ from L.blocks.mod_eq k, Nat.add_mul, blockSize,
    Nat.add_assoc, ← Nat.mul_assoc]
  rfl

theorem pos_first (a : ℕ) : L.pos (L.blocks.first a) = L.segAddr (a % L.n) := by
  rw [pos_eq, Blocks.blk_first, Nat.sub_self, Nat.zero_mul, Nat.add_zero]

/-- An entry lies in its segment. -/
theorem pos_mem (k : ℕ) : L.segAddr (L.blocks.blk k % L.n) ≤ L.pos k ∧
    L.pos k + L.overlap ≤ L.segAddrMax (L.blocks.blk k % L.n) := by
  have hlow := L.blocks.first_blk_le k
  have hhigh := L.blocks.lt_first_succ_blk k
  have hlt : k - L.blocks.first (L.blocks.blk k) + 1 ≤ L.width (L.blocks.blk k) := by
    rw [width]
    omega
  have hmul := Nat.mul_le_mul_right L.overlap hlt
  rw [Nat.add_mul, Nat.one_mul] at hmul
  rw [pos_eq, segAddrMax_eq]
  omega

theorem pos_lt (k : ℕ) : L.pos k < L.addr + L.size := by
  have hcell : k % L.slots < L.slots := Nat.mod_lt _ L.blocks.cells_pos
  have := Nat.mul_lt_mul_of_pos_right hcell L.overlap_pos
  rw [pos, size]
  omega

/-- Entries begin at multiples of the entry size in every segment. -/
theorem overlap_dvd_pos_sub (k i : ℕ) : L.overlap ∣ L.pos k - L.segAddr i := by
  rw [pos, segAddr, blockSize, Nat.add_sub_add_left, ← Nat.mul_assoc, ← Nat.sub_mul]
  exact Dvd.intro_left _ rfl

/-- Entries have the same address exactly if they have the same cell. -/
theorem pos_inj {j : ℕ} : L.pos j = L.pos k ↔ j % L.slots = k % L.slots := by
  constructor
  · intro h
    rw [pos, pos] at h
    exact Nat.eq_of_mul_eq_mul_right L.overlap_pos (by omega)
  · intro h
    rw [pos, pos, h]

/-- An address lies in an entry exactly if the entry has its cell. -/
theorem mem_pos_iff {a : ℕ} (ha : L.addr ≤ a) :
    L.pos k ≤ a ∧ a < L.pos k + L.overlap ↔ k % L.slots = (a - L.addr) / L.overlap := by
  rw [eq_comm, Nat.div_eq_iff L.overlap_pos, pos]
  have := L.overlap_pos
  omega

/-! ## The next entry -/

/-- **What follows an entry**: the wraparound to the start of the storage, the
first entry of the next segment, or the next entry of the same segment. -/
theorem pos_succ_cases (k : ℕ) :
    (L.pos k + L.overlap = L.addr + L.size ∧ L.pos (k + 1) = L.addr ∧
      L.pos k + L.overlap = L.segAddrMax (L.blocks.blk k % L.n) ∧
      L.blocks.blk (k + 1) = L.blocks.blk k + 1 ∧ L.blocks.blk k % L.n + 1 = L.n) ∨
    (L.pos k + L.overlap < L.addr + L.size ∧ L.pos (k + 1) = L.pos k + L.overlap ∧
      L.pos k + L.overlap = L.segAddr (L.blocks.blk k % L.n) + L.blockSize ∧
      L.pos k + L.overlap = L.segAddrMax (L.blocks.blk k % L.n) ∧
      L.blocks.blk (k + 1) = L.blocks.blk k + 1 ∧ L.blocks.blk k % L.n + 1 < L.n) ∨
    (L.pos k + L.overlap < L.addr + L.size ∧ L.pos (k + 1) = L.pos k + L.overlap ∧
      L.pos k + L.overlap < L.segAddr (L.blocks.blk k % L.n) + L.blockSize ∧
      L.pos k + L.overlap < L.segAddrMax (L.blocks.blk k % L.n) ∧
      L.blocks.blk (k + 1) = L.blocks.blk k) := by
  have ho := L.overlap_pos
  have hblock : ∀ i, L.segAddr i + L.blockSize
      = L.addr + (i + 1) * (BUFF_SIZE / L.overlap) * L.overlap := fun i => by
    rw [segAddr, blockSize]; ring
  have hstep : L.pos k + L.overlap = L.addr + (k % L.slots + 1) * L.overlap := by
    rw [pos]; ring
  -- where the block of `k` ends
  have hend : L.blocks.blk (k + 1) = L.blocks.blk k + 1 →
      L.pos k + L.overlap = L.segAddrMax (L.blocks.blk k % L.n) := fun h => by
    have h1 := L.blocks.first_blk_le k
    have h2 := L.blocks.lt_first_succ_blk k
    have h3 := L.blocks.first_blk_le (k + 1)
    rw [h] at h3
    have hw : L.width (L.blocks.blk k) = k - L.blocks.first (L.blocks.blk k) + 1 := by
      rw [width]; omega
    rw [segAddrMax_eq, pos_eq, hw]
    ring
  rcases L.blocks.succ_cases k with ⟨hlast, hmod, hblk, hn⟩ | ⟨hlt, hmod, hmod', hblk, hn⟩ |
    ⟨hlt, hmod, hin, hblk⟩
  · refine Or.inl ⟨?_, ?_, hend hblk, hblk, hn⟩
    · rw [hstep, show k % L.slots + 1 = L.slots from hlast, size]
    · rw [pos, show (k + 1) % L.slots = 0 from hmod, Nat.zero_mul, Nat.add_zero]
  · have hlt' : (k % L.slots + 1) * L.overlap < L.slots * L.overlap :=
      Nat.mul_lt_mul_of_pos_right hlt ho
    refine Or.inr (Or.inl ⟨?_, ?_, ?_, hend hblk, hblk, hn⟩)
    · rw [hstep, size]; omega
    · rw [hstep, pos, show (k + 1) % L.slots = _ from hmod']; rfl
    · rw [hstep, hblock, show k % L.slots + 1 = (L.blocks.blk k % L.n + 1) *
        (BUFF_SIZE / L.overlap) from hmod'.symm.trans hmod]
  · have hlt' : (k % L.slots + 1) * L.overlap < L.slots * L.overlap :=
      Nat.mul_lt_mul_of_pos_right hlt ho
    refine Or.inr (Or.inr ⟨?_, ?_, ?_, ?_, hblk⟩)
    · rw [hstep, size]; omega
    · rw [hstep, pos, show (k + 1) % L.slots = _ from hmod]; rfl
    · rw [hstep, hblock]
      have := Nat.mul_lt_mul_of_pos_right hin ho
      exact Nat.add_lt_add_left this _
    · have hmem := (L.pos_mem (k + 1)).2
      have hpos := L.overlap_pos
      rw [hblk, pos, show (k + 1) % L.slots = k % L.slots + 1 from hmod] at hmem
      rw [hstep]
      omega

end Layout
end Nic
end Floem
