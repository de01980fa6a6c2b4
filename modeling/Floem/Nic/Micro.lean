import Mathlib
import Floem.Nic.Manage

/-!
# What the manager can do, step by step

The loops and recursions of the manager are made of a few small moves.  This file
lists them once (`Micro`) and proves that every call is a sequence of them
(`step_moves` of `Floem.Nic.Calls`), so that a property has to be checked on the moves only.

The moves are stated on tickets: `Cursors` says that `read_ready` and `write_ready`
are the addresses of the entries with tickets `made.length` and `handed.length`,
that the latter is not ahead, and that the former is at most `n - 2` segments
ahead.  It is an invariant of the moves (`Move.cursors`, `HandMove.cursors`).
-/

namespace Floem
namespace Nic

open Lib Relation

section Modify

variable {α : Type} (s : State α) (i : ℕ) (f : Segment → Segment)

@[simp] theorem State.modify_seg_self : (s.modify i f).seg i = f (s.seg i) :=
  Function.update_self ..

theorem State.modify_seg_of_ne {j : ℕ} (h : j ≠ i) : (s.modify i f).seg j = s.seg j :=
  Function.update_of_ne h ..

theorem State.modify_modify (g : Segment → Segment) :
    (s.modify i f).modify i g = s.modify i fun x => g (f x) := by
  simp [State.modify]

end Modify

namespace Device

variable {α : Type} (D : Device α) {s t : State α}

/-! ## Tickets -/

/-- The byte of its segment the entry with ticket `k` begins at. -/
def offset (k : ℕ) : ℕ := (k - D.blocks.first (D.blocks.blk k)) * D.overlap

/-- The local copy of the entry with ticket `k`. -/
def copy (s : State α) (k : ℕ) : α := s.buf (D.blocks.blk k % D.n) (D.offset k)

/-- The fetch the local copy of the entry with ticket `k` comes from. -/
def fetchOf (s : State α) (k : ℕ) : Option (Fetch α) :=
  s.fetched (D.blocks.blk k % D.n) (D.offset k)

/-- The segment of `read_ready`, counted over all laps. -/
def readSeg (s : State α) : ℕ := D.blocks.blk s.made.length

/-- The segment of `write_ready`, counted over all laps. -/
def writeSeg (s : State α) : ℕ := D.blocks.blk s.handed.length

theorem pos_eq_offset (k : ℕ) : D.pos k = D.segAddr (D.blocks.blk k % D.n) + D.offset k :=
  D.pos_eq k

/-- The entries of a segment follow each other. -/
theorem offset_add {k j : ℕ} (h : D.blocks.blk (k + j) = D.blocks.blk k) :
    D.offset (k + j) = D.offset k + j * D.overlap := by
  have := D.blocks.first_blk_le k
  rw [offset, offset, h, ← Nat.add_mul]
  congr 1
  omega

theorem blk_add_slots (k : ℕ) : D.blocks.blk (k + D.slots) = D.blocks.blk k + D.n :=
  D.blocks.blk_add_cells k

/-- Tickets a lap apart are for the same bytes. -/
theorem offset_add_slots (k : ℕ) : D.offset (k + D.slots) = D.offset k := by
  have hfirst : D.blocks.first (D.blocks.blk k + D.n) = D.blocks.first (D.blocks.blk k) + D.slots :=
    D.blocks.first_add_n _
  rw [offset, offset, blk_add_slots, hfirst]
  congr 1
  omega

theorem offset_first (a : ℕ) : D.offset (D.blocks.first a) = 0 := by
  rw [offset, Blocks.blk_first, Nat.sub_self, Nat.zero_mul]

/-! ## The cursors -/

/-- The cursors are where the history says, `write_ready` is not ahead, and
`read_ready` stays two segments short of a full lap. -/
structure Cursors (s : State α) : Prop where
  read_eq : s.readReady = D.pos s.made.length
  readSeg_eq : s.readReadySeg = D.readSeg s % D.n
  write_eq : s.writeReady = D.pos s.handed.length
  writeSeg_eq : s.writeReadySeg = D.writeSeg s % D.n
  handed_le : s.handed.length ≤ s.made.length
  gap : D.readSeg s + 2 ≤ D.writeSeg s + D.n

variable {D}

namespace Cursors

/-- `Cursors` looks at the cursors and the history only. -/
theorem congr (h : D.Cursors s) (h1 : t.readReady = s.readReady)
    (h2 : t.readReadySeg = s.readReadySeg) (h3 : t.writeReady = s.writeReady)
    (h4 : t.writeReadySeg = s.writeReadySeg) (h5 : t.made = s.made) (h6 : t.handed = s.handed) :
    D.Cursors t where
  read_eq := by rw [h1, h5, h.read_eq]
  readSeg_eq := by rw [h2, readSeg, h5, h.readSeg_eq, readSeg]
  write_eq := by rw [h3, h6, h.write_eq]
  writeSeg_eq := by rw [h4, writeSeg, h6, h.writeSeg_eq, writeSeg]
  handed_le := by rw [h5, h6]; exact h.handed_le
  gap := by rw [readSeg, writeSeg, h5, h6]; exact h.gap

theorem modify (h : D.Cursors s) (i : ℕ) (f : Segment → Segment) : D.Cursors (s.modify i f) :=
  h.congr rfl rfl rfl rfl rfl rfl

theorem writeSeg_le (h : D.Cursors s) : D.writeSeg s ≤ D.readSeg s :=
  D.blocks.blk_mono h.handed_le

/-- Less than a lap lies between the cursors. -/
theorem made_lt (h : D.Cursors s) : s.made.length < s.handed.length + D.slots := by
  have hgap := h.gap
  have hn : D.readSeg s < D.blocks.blk (s.handed.length + D.blocks.cells) := by
    rw [Blocks.blk_add_cells]
    show D.readSeg s < D.writeSeg s + D.n
    omega
  by_contra hge
  exact absurd (D.blocks.blk_mono (not_lt.1 hge)) (not_le.2 hn)

/-- The cursors have the same address exactly if no entry lies between them. -/
theorem eq_iff (h : D.Cursors s) :
    s.writeReady = s.readReady ↔ s.handed.length = s.made.length := by
  rw [h.write_eq, h.read_eq, Layout.pos_inj]
  exact mod_eq_iff_of_window h.handed_le h.made_lt

/-- The cursors are in the same segment only in the same lap. -/
theorem seg_eq_iff (h : D.Cursors s) :
    s.readReadySeg = s.writeReadySeg ↔ D.readSeg s = D.writeSeg s := by
  rw [h.readSeg_eq, h.writeSeg_eq, eq_comm (b := D.writeSeg s % D.n), eq_comm (b := D.writeSeg s)]
  have hgap := h.gap
  exact mod_eq_iff_of_window h.writeSeg_le (by omega)

/-- The byte of its segment a cursor stands at. -/
theorem read_offset (h : D.Cursors s) :
    s.readReady - D.segAddr s.readReadySeg = D.offset s.made.length := by
  rw [h.read_eq, h.readSeg_eq, pos_eq_offset, readSeg, Nat.add_sub_cancel_left]

theorem write_offset (h : D.Cursors s) :
    s.writeReady - D.segAddr s.writeReadySeg = D.offset s.handed.length := by
  rw [h.write_eq, h.writeSeg_eq, pos_eq_offset, writeSeg, Nat.add_sub_cancel_left]

/-- Where `read_ready` is in `stop_seg`, it has reached its distance. -/
theorem stopSeg_iff (h : D.Cursors s) :
    s.readReadySeg = D.stopSeg s ↔ D.readSeg s + 2 = D.writeSeg s + D.n := by
  have hn := D.four_le_n
  have hgap := h.gap
  have hle := h.writeSeg_le
  have hstop : D.stopSeg s = (D.writeSeg s + (D.n - 2)) % D.n := by
    have hw : D.writeSeg s % D.n < D.n := Nat.mod_lt _ D.n_pos
    have hmod : (D.writeSeg s + (D.n - 2)) % D.n = (D.writeSeg s % D.n + (D.n - 2)) % D.n :=
      (Nat.mod_add_mod ..).symm
    rw [stopSeg, h.writeSeg_eq, hmod]
    split_ifs with hlt
    · rw [Nat.mod_eq_of_lt (show D.writeSeg s % D.n + (D.n - 2) < D.n by omega)]
      omega
    · rw [Nat.mod_eq_sub_mod (show D.n ≤ D.writeSeg s % D.n + (D.n - 2) by omega),
        Nat.mod_eq_of_lt (show D.writeSeg s % D.n + (D.n - 2) - D.n < D.n by omega)]
      omega
  rw [hstop, h.readSeg_eq]
  constructor
  · intro heq
    have := eq_of_mod_eq_of_window heq (by omega) (by omega)
    omega
  · intro heq
    rw [show D.readSeg s = D.writeSeg s + (D.n - 2) by omega]

/-- `no_read` blocks reading exactly if `read_ready` has reached its distance. -/
theorem noRead_iff (h : D.Cursors s) : D.noRead s ↔ D.readSeg s + 2 = D.writeSeg s + D.n := by
  have hn := D.four_le_n
  have hgap := h.gap
  have hle := h.writeSeg_le
  have hr : D.readSeg s % D.n = s.made.length % D.slots / (BUFF_SIZE / D.overlap) :=
    D.blocks.blk_mod _
  have hw : D.writeSeg s % D.n = s.handed.length % D.slots / (BUFF_SIZE / D.overlap) :=
    D.blocks.blk_mod _
  have hlt : s.readReady < s.writeReady ↔ s.made.length % D.slots < s.handed.length % D.slots := by
    rw [h.read_eq, h.write_eq, Layout.pos, Layout.pos, Nat.add_lt_add_iff_left,
      Nat.mul_lt_mul_right D.overlap_pos]
  -- the segment numbers differ by the distance, or by the distance less a lap
  have hsplit : D.readSeg s % D.n = D.writeSeg s % D.n + (D.readSeg s - D.writeSeg s) ∨
      D.readSeg s % D.n + D.n = D.writeSeg s % D.n + (D.readSeg s - D.writeSeg s) := by
    have hwlt : D.writeSeg s % D.n < D.n := Nat.mod_lt _ D.n_pos
    have hmod : D.readSeg s % D.n =
        (D.writeSeg s % D.n + (D.readSeg s - D.writeSeg s)) % D.n := by
      rw [Nat.mod_add_mod, show D.writeSeg s + (D.readSeg s - D.writeSeg s) = D.readSeg s by omega]
    rcases Nat.lt_or_ge (D.writeSeg s % D.n + (D.readSeg s - D.writeSeg s)) D.n with hc | hc
    · exact Or.inl (hmod.trans (Nat.mod_eq_of_lt hc))
    · right
      rw [hmod, Nat.mod_eq_sub_mod hc, Nat.mod_eq_of_lt (by omega)]
      omega
  rw [noRead, h.readSeg_eq, h.writeSeg_eq]
  rcases hsplit with hs | hs
  · have hnot : ¬ s.readReady < s.writeReady := by
      rw [hlt]
      intro hcell
      rcases Nat.eq_or_lt_of_le hle with heq | hgt
      · -- in the same segment the cells are ordered as the tickets
        have h1 := D.blocks.mod_eq s.made.length
        have h2 := D.blocks.mod_eq s.handed.length
        rw [show D.blocks.blk s.made.length = D.blocks.blk s.handed.length from heq.symm] at h1
        have := h.handed_le
        change s.made.length % D.slots = _ at h1
        change s.handed.length % D.slots = _ at h2
        omega
      · have := Nat.div_le_div_right (c := BUFF_SIZE / D.overlap) hcell.le
        omega
    rw [if_neg hnot, decide_eq_true_iff]
    omega
  · have hlt' : s.readReady < s.writeReady := by
      rw [hlt]
      by_contra hge
      have := Nat.div_le_div_right (c := BUFF_SIZE / D.overlap) (not_lt.1 hge)
      omega
    rw [if_pos hlt', decide_eq_true_iff]
    omega

end Cursors

variable (D)

/-- The cursors of a new queue. -/
theorem cursors_create (buf : ℕ → ℕ → α) (now : ℕ) : D.Cursors (D.create buf now) where
  read_eq := by simp [create, Layout.pos]
  readSeg_eq := by simp [create, readSeg, Blocks.blk]
  write_eq := by simp [create, Layout.pos]
  writeSeg_eq := by simp [create, writeSeg, Blocks.blk]
  handed_le := le_rfl
  gap := by
    have := D.four_le_n
    simp only [create, readSeg, writeSeg, List.length_nil]
    omega

/-! ## The moves -/

/-- `read_ready` passes an entry. -/
def passed (s : State α) : State α :=
  { s with readReady := D.pos (s.made.length + 1),
           readReadySeg := D.blocks.blk (s.made.length + 1) % D.n,
           made := s.made ++ [D.fetchOf s s.made.length] }

/-- `write_ready` passes an entry that is not the last of its segment. -/
def handedOn (s : State α) : State α :=
  let s' := s.modify (D.writeSeg s % D.n) fun g => { g with max := D.pos (s.handed.length + 1) }
  { s' with writeReady := D.pos (s.handed.length + 1), handed := s.handed ++ [true] }

/-- `write_ready` leaves its segment, the remaining entries having the flags
`flags`. -/
def closed (s : State α) (flags : List Bool) : State α :=
  let i := D.writeSeg s % D.n
  let j := (D.writeSeg s + 1) % D.n
  let s' := (s.modify i fun g => { g with count := 0, max := D.segAddrMax i }).modify j
    fun g => { g with min := D.segAddr j }
  { s' with writeReady := D.segAddr j, writeReadySeg := j, handed := s.handed ++ flags }

/-- The write-back of segment `i` is complete to its end. -/
def retired (s : State α) (i : ℕ) : State α :=
  let s' := s.modify i fun g =>
    { g with status := .INVALID, count := 0, min := if s.writeReadySeg = i then s.writeReady else 0,
             max := 0, commitMax := 0, comp := .reset, lap := g.lap + 1 }
  { s' with writeFinishSeg := (i + 1) % D.n }

/-- A part of segment `i` is written back. -/
def partDone (s : State α) (i : ℕ) : State α :=
  s.modify i fun g => { g with status := .INVALID, min := g.commitMax, comp := .reset }

/-- A DMA read of segment `i` is started. -/
def readStarted (s : State α) (i : ℕ) : State α :=
  s.modify i fun g =>
    { g with status := .READING,
             comp := .read (D.readOff s i) (D.segSize i - D.readOff s i) s.backed false }

/-- The DMA read of segment `i` is taken note of. -/
def readTaken (s : State α) (i : ℕ) : State α :=
  s.modify i fun g => { g with status := .RELEASE, comp := .reset }

/-- Segment `i` gets status `st`. -/
def setStatus (s : State α) (i : ℕ) (st : Status) : State α :=
  s.modify i fun g => { g with status := st }

/-- **How `write_ready` moves.** -/
inductive HandMove (s : State α) : State α → Prop
  /-- `write_ready` passes a finished entry. -/
  | hand (hlt : s.handed.length < s.made.length)
      (hin : D.blocks.blk (s.handed.length + 1) = D.writeSeg s)
      (hdone : D.doneScan (D.copy s s.handed.length)) : HandMove s (D.handedOn s)
  /-- `write_ready` passes the last entry of a segment, which is finished. -/
  | closeSlow (hlt : s.handed.length < s.made.length)
      (hend : D.blocks.blk (s.handed.length + 1) = D.writeSeg s + 1)
      (hdone : D.doneScan (D.copy s s.handed.length)) : HandMove s (D.closed s [true])
  /-- `write_ready` passes a segment all of whose entries are counted. -/
  | closeFast (hlt : D.writeSeg s < D.readSeg s)
      (hcount : (s.seg (D.writeSeg s % D.n)).count = D.width (D.writeSeg s)) :
      HandMove s (D.closed s
        ((List.range (D.blocks.first (D.writeSeg s + 1) - s.handed.length)).map fun j =>
          D.doneScan (D.copy s (s.handed.length + j))))

/-- **What else the manager does.** -/
inductive Move (s : State α) : State α → Prop
  /-- `read_ready` passes an entry that is ready, outside of `stop_seg` and of
  segments that are being read. -/
  | pass (hstop : D.readSeg s + 2 ≠ D.writeSeg s + D.n)
      (hst : (s.seg (D.readSeg s % D.n)).status ≠ .READING)
      (hready : D.readyScan (D.copy s s.made.length)) : Move s (D.passed s)
  | retire (i : ℕ) (hi : i = s.writeFinishSeg) (hst : (s.seg i).status = .WRITING)
      (hfin : (s.seg i).comp.complete) (hall : D.segAddrMax i ≤ (s.seg i).commitMax) :
      Move s (D.retired s i)
  | part (i : ℕ) (hi : i = s.writeFinishSeg) (hst : (s.seg i).status = .WRITING)
      (hfin : (s.seg i).comp.complete) (hpart : (s.seg i).commitMax < D.segAddrMax i) :
      Move s (partDone s i)
  | startRead (i : ℕ) (hi : i = s.readReadySeg ∨ i = (s.readReadySeg + 1) % D.n)
      (hst : (s.seg i).status = .INVALID)
      (hmax : (s.seg i).max = 0 ∨ s.readReadySeg = i ∧ (s.seg i).max ≤ s.readReady)
      (hroom : D.readSeg s + 2 ≠ D.writeSeg s + D.n) : Move s (D.readStarted s i)
  | takeRead (i : ℕ) (hi : i = s.readReadySeg) (hst : (s.seg i).status = .READING)
      (hfin : (s.seg i).comp.complete) : Move s (readTaken s i)
  /-- A segment that no transfer is at work on gets a new status: the end of
  `handle_reading`, and the `NULL` case of `smart_dma_read`. -/
  | settle (i : ℕ) (st : Status) (hst : (s.seg i).status = .RELEASE ∨ (s.seg i).status = .VALID)
      (hnew : st = .VALID ∨ st = .INVALID) : Move s (setStatus s i st)
  | startWrite (i : ℕ) (hi : i = s.writeStartSeg) (hmin : (s.seg i).min < (s.seg i).max)
      (hmax : (s.seg i).commitMax < (s.seg i).max)
      (hst : (s.seg i).status = .VALID ∨ (s.seg i).status = .INVALID) : Move s (D.doWrite s i)
  | note (lastRead lastWrite writeGap : ℕ) :
      Move s { s with lastRead := lastRead, lastWrite := lastWrite, writeGap := writeGap }

variable {D}

/-- **The moves keep the cursors.** -/
theorem Move.cursors (h : D.Move s t) (hc : D.Cursors s) : D.Cursors t := by
  cases h with
  | pass hstop hst hready =>
      have hgap := hc.gap
      have hle : D.blocks.blk (s.made.length + 1) ≤ D.readSeg s + 1 := by
        rcases D.blocks.succ_cases s.made.length with ⟨-, -, h, -⟩ | ⟨-, -, -, h, -⟩ | ⟨-, -, -, h⟩
        · exact h.le
        · exact h.le
        · exact h.le.trans (Nat.le_succ _)
      have hlen : (D.passed s).made.length = s.made.length + 1 := by simp [passed]
      exact
        { read_eq := by rw [hlen]; rfl
          readSeg_eq := by rw [readSeg, hlen]; rfl
          write_eq := hc.write_eq
          writeSeg_eq := hc.writeSeg_eq
          handed_le := by rw [hlen]; exact hc.handed_le.trans (Nat.le_succ _)
          gap := by
            rw [readSeg, hlen]
            show _ ≤ D.writeSeg s + D.n
            omega }
  | startWrite i hi hmin hmax hst =>
      refine hc.congr ?_ ?_ ?_ ?_ ?_ ?_ <;> rw [doWrite, if_pos ⟨hmin, hst⟩] <;> dsimp only <;>
        split_ifs <;> rfl
  | _ => exact hc.congr rfl rfl rfl rfl rfl rfl

/-- Moving `write_ready` keeps the cursors. -/
theorem HandMove.cursors (h : D.HandMove s t) (hc : D.Cursors s) : D.Cursors t := by
  cases h with
  | hand hlt hin hdone =>
      have hlen : (D.handedOn s).handed.length = s.handed.length + 1 := by simp [handedOn]
      have hseg : D.writeSeg (D.handedOn s) = D.writeSeg s := by rw [writeSeg, hlen]; exact hin
      exact
        { read_eq := hc.read_eq
          readSeg_eq := hc.readSeg_eq
          write_eq := by rw [hlen]; rfl
          writeSeg_eq := by rw [hseg]; exact hc.writeSeg_eq
          handed_le := by rw [hlen]; exact hlt
          gap := by rw [hseg]; exact hc.gap }
  | closeSlow hlt hend hdone =>
      have hfirst := D.blocks.succ_eq_first hend
      rw [← writeSeg] at hfirst
      have hlen : (D.closed s [true]).handed.length = s.handed.length + 1 := by simp [closed]
      have hseg : D.writeSeg (D.closed s [true]) = D.writeSeg s + 1 := by rw [writeSeg, hlen, hend]
      exact
        { read_eq := hc.read_eq
          readSeg_eq := hc.readSeg_eq
          write_eq := by rw [hlen, hfirst, Layout.pos_first]; rfl
          writeSeg_eq := by rw [hseg]; rfl
          handed_le := by rw [hlen]; exact hlt
          gap := by
            rw [hseg]
            have := hc.gap
            show D.readSeg s + 2 ≤ _
            omega }
  | closeFast hlt hcount =>
      have hle := D.blocks.lt_first_succ_blk s.handed.length
      have hlen : (D.closed s ((List.range (D.blocks.first (D.writeSeg s + 1) - s.handed.length)).map
          fun j => D.doneScan (D.copy s (s.handed.length + j)))).handed.length
            = D.blocks.first (D.writeSeg s + 1) := by
        rw [writeSeg] at *
        simp only [closed, List.length_append, List.length_map, List.length_range]
        omega
      have hseg := congrArg D.blocks.blk hlen
      rw [Blocks.blk_first, ← writeSeg] at hseg
      exact
        { read_eq := hc.read_eq
          readSeg_eq := hc.readSeg_eq
          write_eq := by rw [hlen, Layout.pos_first]; rfl
          writeSeg_eq := by rw [hseg]; rfl
          handed_le := by rw [hlen]; exact D.blocks.le_blk_iff.1 hlt
          gap := by
            rw [hseg]
            have := hc.gap
            show D.readSeg s + 2 ≤ _
            omega }

end Device
end Nic
end Floem
