import Mathlib
import Floem.Nic.Window

/-!
# Creating a queue on the NIC

`create_dma_circular_queue` and `find_segment` of
`floem/include_cavium/floem-queue-manage.c`, statement by statement, and what
`Floem.Nic.Layout` says of their result.

* `createDmaCircularQueue` — the assertions and the loop over the segments, which
  subtracts a block from `size` for each and asserts on what is left.
* `create_eq` — the queue it returns is the one a `Layout` describes.
* `segments_tile` — the segments cut the storage into runs of whole entries, and
  `find_segment` finds the segment of an entry.

`int` variables are integers, since `size` ends below zero; nothing overflows, as
`i * block_size` stays below the `size` passed.  The chunks `cvmx_fpa_alloc` returns
are a parameter, `0` being a null pointer.
-/

namespace Floem
namespace Nic

/-! ## The code -/

/-- `MAX_QUEUES`. -/
def MAX_QUEUES : ℕ := 32

/-- `dma_segment` as it is created. -/
structure DmaSegment where
  id : ℕ
  count : ℕ
  size : ℕ
  buf : ℕ
  addr : ℕ
  addrMax : ℕ
  min : ℕ
  max : ℕ
  commitMax : ℕ
  comp : Comp
  status : Status

/-- `dma_circular_queue` as it is created; the scan functions, the locks and the
clocks are left out. -/
structure DmaCircularQueue where
  id : ℕ
  size : ℕ
  overlap : ℕ
  blockSize : ℕ
  n : ℕ
  segments : List DmaSegment
  addr : ℕ
  readReady : ℕ
  writeReady : ℕ
  readReadySeg : ℕ
  writeReadySeg : ℕ
  writeStartSeg : ℕ
  writeFinishSeg : ℕ
  lastRead : ℕ

/-- The loop over the segments `i`, `i + 1`, …, with `k` of them to come.  Returns
them and what is left of `size`; `none` when a chunk is missing. -/
def createSegments (chunk : ℕ → ℕ) (addr blockSize : ℕ) :
    ℕ → ℕ → ℤ → Option (List DmaSegment × ℤ)
  | 0, _, size => some ([], size)
  | k + 1, i, size => do
    let segSize := ((if size < blockSize then size else blockSize) % 2 ^ 32).toNat
    guard (chunk i ≠ 0)
    let segAddr := addr + i * blockSize
    let seg : DmaSegment :=
      { id := i, count := 0, size := segSize, buf := chunk i, addr := segAddr,
        addrMax := segAddr + segSize, min := 0, max := 0, commitMax := 0, comp := .reset,
        status := .INVALID }
    let (segs, size) ← createSegments chunk addr blockSize k (i + 1) (size - blockSize)
    return (seg :: segs, size)

/-- `create_dma_circular_queue` when `id` queues exist.  A failed assertion is
`none`, and so is a division by an `overlap` of zero. -/
def createDmaCircularQueue (chunk : ℕ → ℕ) (id addr size overlap : ℕ) :
    Option DmaCircularQueue := do
  guard (overlap ≤ BUFF_SIZE)
  guard (4 * BUFF_SIZE ≤ size)
  guard (overlap ≠ 0)
  let blockSize := BUFF_SIZE / overlap * overlap
  let n := 1 + (size - 1) / blockSize
  let (segments, left) ← createSegments chunk addr blockSize n 0 size
  let segments := segments.modify 0 fun g => { g with min := addr }
  guard (left ≤ 0 ∧ left > -(blockSize : ℤ))
  guard (id + 1 ≤ MAX_QUEUES)
  return { id := id, size := size, overlap := overlap, blockSize := blockSize, n := n,
           segments := segments, addr := addr, readReady := addr, writeReady := addr,
           readReadySeg := 0, writeReadySeg := 0, writeStartSeg := 0, writeFinishSeg := 0,
           lastRead := addr }

/-- The segments follow each other from `lo` to `hi` without a gap. -/
def Tiles (hi : ℕ) : ℕ → List DmaSegment → Prop
  | lo, [] => lo = hi
  | lo, g :: gs => g.addr = lo ∧ g.addrMax = g.addr + g.size ∧ Tiles hi g.addrMax gs

/-- `find_segment` with `CHECK` defined. -/
def DmaCircularQueue.findSegment (q : DmaCircularQueue) (addr size : ℕ) : Option ℕ := do
  let off1 := addr - q.addr
  let seg1 := off1 / q.blockSize
  let off2 := off1 + size
  let seg2 := off2 / q.blockSize
  if seg1 < seg2 then
    guard (seg2 = seg1 + 1)
    guard (size ≤ q.overlap)
  return seg1

/-- A range of at most `overlap` bytes that reaches at most into the next block passes
the checks. -/
theorem DmaCircularQueue.findSegment_eq {q : DmaCircularQueue} {addr size : ℕ}
    (hend : (addr - q.addr + size) / q.blockSize ≤ (addr - q.addr) / q.blockSize + 1)
    (hsize : size ≤ q.overlap) :
    q.findSegment addr size = some ((addr - q.addr) / q.blockSize) := by
  rw [findSegment]
  by_cases hlt : (addr - q.addr) / q.blockSize < (addr - q.addr + size) / q.blockSize
  · have heq : (addr - q.addr + size) / q.blockSize = (addr - q.addr) / q.blockSize + 1 := by
      omega
    simp [guard, heq, hsize]
  · simp [hlt]

/-! ## The queue of a layout -/

namespace Layout

variable (L : Layout) {i k a : ℕ}

/-- Segment `i` as it is created. -/
def segment (chunk : ℕ → ℕ) (i : ℕ) : DmaSegment :=
  { id := i, count := 0, size := L.segSize i, buf := chunk i, addr := L.segAddr i,
    addrMax := L.segAddrMax i, min := if i = 0 then L.addr else 0, max := 0, commitMax := 0,
    comp := .reset, status := .INVALID }

/-- The queue as it is created. -/
def queue (chunk : ℕ → ℕ) (id : ℕ) : DmaCircularQueue where
  id := id
  size := L.size
  overlap := L.overlap
  blockSize := L.blockSize
  n := L.n
  segments := (List.range L.n).map (L.segment chunk)
  addr := L.addr
  readReady := L.addr
  writeReady := L.addr
  readReadySeg := 0
  writeReadySeg := 0
  writeStartSeg := 0
  writeFinishSeg := 0
  lastRead := L.addr

/-- A segment begins inside the storage. -/
theorem block_lt_size (hi : i < L.n) : i * L.blockSize < L.size :=
  (Nat.mul_le_mul_right _ (show i ≤ L.n - 1 by omega)).trans_lt L.segments_cover.1

theorem segSize_pos (hi : i < L.n) : 0 < L.segSize i := by
  have hlt := L.block_lt_size hi
  have hpos := L.blockSize_pos
  rw [segSize]
  split_ifs <;> omega

theorem segSize_le (i : ℕ) : L.segSize i ≤ BUFF_SIZE := by
  have hle := L.blockSize_le
  rw [segSize]
  split_ifs <;> omega

/-- **The loop over the segments.**  With `size` having lost a block for each
segment before, the loop makes the segments of the layout. -/
theorem createSegments_eq {chunk : ℕ → ℕ} (hchunk : ∀ i < L.n, chunk i ≠ 0) (k : ℕ) :
    ∀ i, i + k ≤ L.n →
      createSegments chunk L.addr L.blockSize k i (L.size - i * L.blockSize) =
        some ((List.range' i k).map fun j => { L.segment chunk j with min := 0 },
          (L.size - (i + k) * L.blockSize : ℤ)) := by
  induction k with
  | zero => intro i _; simp [createSegments]
  | succ k ih =>
      intro i hi
      have hlt := L.block_lt_size (show i < L.n by omega)
      have hsize : (((if (L.size - i * L.blockSize : ℤ) < L.blockSize
          then (L.size - i * L.blockSize : ℤ) else L.blockSize) % 2 ^ 32)).toNat =
            L.segSize i := by
        have hle := L.blockSize_le
        rw [BUFF_SIZE] at hle
        rw [segSize]
        split_ifs <;> omega
      have hrest := ih (i + 1) (by omega)
      push_cast at hrest
      rw [createSegments]
      simp only [hsize, guard, if_pos (hchunk i (by omega))]
      rw [show (L.size - i * L.blockSize - L.blockSize : ℤ) = L.size - (i + 1) * L.blockSize by
        ring, hrest, List.range'_succ]
      simp only [Option.bind_eq_bind, Option.pure_def, Option.bind_some, List.map_cons]
      congr 2
      push_cast
      ring

/-- **The queue created is the one of the layout.** -/
theorem create_eq {chunk : ℕ → ℕ} (hchunk : ∀ i < L.n, chunk i ≠ 0) {id : ℕ}
    (hid : id < MAX_QUEUES) :
    createDmaCircularQueue chunk id L.addr L.size L.overlap = some (L.queue chunk id) := by
  have hloop := L.createSegments_eq hchunk L.n 0 (by omega)
  have hcover := L.segments_cover
  have hn := L.n_pos
  have hleft : (L.size - (0 + L.n) * L.blockSize : ℤ) ≤ 0 ∧
      (L.size - (0 + L.n) * L.blockSize : ℤ) > -(L.blockSize : ℤ) := by
    have hlast : (L.n - 1) * L.blockSize + L.blockSize = L.n * L.blockSize := by
      rw [← Nat.succ_mul, show (L.n - 1).succ = L.n by omega]
    rw [show ((0 + L.n) * L.blockSize : ℤ) = (L.n * L.blockSize : ℕ) by push_cast; ring]
    omega
  have hfirst : (((List.range' 0 L.n).map fun j => { L.segment chunk j with min := 0 }).modify 0
      fun g => { g with min := L.addr }) = (List.range L.n).map (L.segment chunk) := by
    obtain ⟨m, hm⟩ : ∃ m, L.n = m + 1 := ⟨L.n - 1, by omega⟩
    rw [hm, List.range_eq_range', List.range'_succ, List.map_cons, List.map_cons,
      List.modify_zero_cons]
    refine congrArg₂ List.cons rfl (List.map_congr_left fun j hj => ?_)
    obtain ⟨h1, -⟩ := List.mem_range'_1.1 hj
    simp [segment, show j ≠ 0 by omega]
  have hsize : 4 * BUFF_SIZE ≤ L.size := L.size_ge
  have hoverlap : L.overlap ≠ 0 := L.overlap_pos.ne'
  rw [Nat.cast_zero, zero_mul, sub_zero] at hloop
  rw [createDmaCircularQueue]
  simp only [guard, if_pos L.overlap_le, if_pos hsize, if_pos hoverlap, Option.bind_eq_bind,
    Option.pure_def, Option.bind_some]
  rw [show BUFF_SIZE / L.overlap * L.overlap = L.blockSize from rfl,
    show 1 + (L.size - 1) / L.blockSize = L.n from rfl, hloop]
  simp only [Option.bind_some, if_pos hleft, if_pos (show id + 1 ≤ MAX_QUEUES from hid), hfirst]
  rfl

/-! ## Segments and entries -/

/-- The last segment ends where the storage does. -/
theorem segAddrMax_last : L.segAddrMax (L.n - 1) = L.addr + L.size := by
  have hcover := L.segments_cover
  have hlast : (L.n - 1) * L.blockSize + L.blockSize = L.n * L.blockSize := by
    rw [← Nat.succ_mul, show (L.n - 1).succ = L.n by have := L.n_pos; omega]
  rw [segAddrMax, segAddr, segSize]
  split_ifs <;> omega

/-- **The segments from the `i`-th on tile the rest of the storage.** -/
theorem tiles_segments (chunk : ℕ → ℕ) (k : ℕ) : ∀ i, i + (k + 1) = L.n →
    Tiles (L.addr + L.size) (L.segAddr i) ((List.range' i (k + 1)).map (L.segment chunk)) := by
  induction k with
  | zero =>
      intro i hi
      obtain rfl : i = L.n - 1 := by omega
      exact ⟨rfl, rfl, L.segAddrMax_last⟩
  | succ k ih =>
      intro i hi
      rw [List.range'_succ, List.map_cons]
      refine ⟨rfl, rfl, ?_⟩
      show Tiles _ (L.segAddrMax i) _
      rw [L.segAddrMax_of_lt (by omega)]
      exact ih (i + 1) (by omega)

/-- **The segment of an address** is the one `find_segment` computes. -/
theorem mem_segment_iff (ha : L.addr ≤ a) (ha' : a < L.addr + L.size) (i : ℕ) :
    L.segAddr i ≤ a ∧ a < L.segAddrMax i ↔ i = (a - L.addr) / L.blockSize := by
  rw [eq_comm, Nat.div_eq_iff L.blockSize_pos, segAddrMax, segAddr, segSize]
  have hpos := L.blockSize_pos
  split_ifs <;> omega

/-- An entry lies in the segment its address does, and in no other. -/
theorem entry_segment_iff (k i : ℕ) :
    L.segAddr i ≤ L.pos k ∧ L.pos k + L.overlap ≤ L.segAddrMax i ↔
      i = (L.pos k - L.addr) / L.blockSize := by
  have hlow : L.addr ≤ L.pos k := Nat.le_add_right _ _
  have hmem := L.mem_segment_iff hlow (L.pos_lt k) i
  have hpos := L.overlap_pos
  constructor
  · rintro ⟨h1, h2⟩
    exact hmem.1 ⟨h1, by omega⟩
  · intro h
    have hblk : i = L.blocks.blk k % L.n := by
      obtain ⟨h1, h2⟩ := L.pos_mem k
      rw [h]
      exact ((L.mem_segment_iff hlow (L.pos_lt k) _).1 ⟨h1, by omega⟩).symm
    rw [hblk]
    exact L.pos_mem k

/-- **`find_segment` passes its checks** on an entry. -/
theorem findSegment_pos (chunk : ℕ → ℕ) (id k : ℕ) :
    (L.queue chunk id).findSegment (L.pos k) L.overlap =
      some ((L.pos k - L.addr) / L.blockSize) := by
  have hlow : L.addr ≤ L.pos k := Nat.le_add_right _ _
  -- an entry ends at most where its block does
  have hend : (L.pos k - L.addr + L.overlap) / L.blockSize ≤
      (L.pos k - L.addr) / L.blockSize + 1 := by
    have h := ((L.entry_segment_iff k _).2 rfl).2
    have hsize : L.segSize ((L.pos k - L.addr) / L.blockSize) ≤ L.blockSize := by
      rw [segSize]
      split_ifs <;> omega
    rw [segAddrMax, segAddr] at h
    refine (Nat.div_le_div_right (b := ((L.pos k - L.addr) / L.blockSize + 1) * L.blockSize)
      (by rw [Nat.add_mul]; omega)).trans_eq ?_
    exact Nat.mul_div_cancel _ L.blockSize_pos
  exact DmaCircularQueue.findSegment_eq hend le_rfl

/-- The entries of the first segments. -/
theorem sum_width (k : ℕ) : ((List.range k).map L.width).sum = L.blocks.first k := by
  induction k with
  | zero => simp [Lib.Blocks.first]
  | succ k ih =>
      have hlt := L.blocks.first_lt_succ k
      rw [List.range_succ, List.map_append, List.sum_append, ih, List.map_singleton,
        List.sum_singleton, width]
      omega

/-- **The segments hold all entries.** -/
theorem sum_segSize_div : ((List.range L.n).map fun i => L.segSize i / L.overlap).sum =
    L.slots := by
  have hwidth : ((List.range L.n).map fun i => L.segSize i / L.overlap) =
      (List.range L.n).map L.width := List.map_congr_left fun i hi => by
    rw [← L.segSize_div i, Nat.mod_eq_of_lt (List.mem_range.1 hi)]
  have hlap : L.blocks.first L.n = L.slots := by
    rw [Lib.Blocks.first, show L.blocks.n = L.n from rfl, Nat.div_self L.n_pos, Nat.mod_self]
    simp [blocks]
  rw [hwidth, sum_width, hlap]

end Layout

/-- **Segments tile the queue.**  For every `size` that is a multiple of `overlap`,
with `overlap` from one to a transfer's length and room for four transfers,
`create_dma_circular_queue` passes its assertions, the last one on the remaining size
included, if chunks and a queue number are left, and

* its `n` segments follow each other from `addr` to `addr + size`;
* each is not empty, fits a transfer and holds whole entries;
* every entry lies in one segment, the one `find_segment` returns for its address;
* the entries of the segments are all entries of the queue. -/
theorem segments_tile {chunk : ℕ → ℕ} (hchunk : ∀ i, chunk i ≠ 0) {id : ℕ} (hid : id < MAX_QUEUES)
    (addr : ℕ) {size overlap : ℕ} (hdvd : overlap ∣ size) (hpos : 1 ≤ overlap)
    (hle : overlap ≤ 2048) (hsize : 4 * 2048 ≤ size) :
    ∃ q, createDmaCircularQueue chunk id addr size overlap = some q ∧
      q.segments.length = q.n ∧ Tiles (addr + size) addr q.segments ∧
      (∀ g ∈ q.segments, 0 < g.size ∧ g.size ≤ 2048 ∧ overlap ∣ g.size) ∧
      (∀ k < size / overlap, ∃ i < q.n, q.findSegment (addr + k * overlap) overlap = some i ∧
        ∀ j g, q.segments[j]? = some g →
          (g.addr ≤ addr + k * overlap ∧ addr + k * overlap + overlap ≤ g.addrMax ↔ j = i)) ∧
      (q.segments.map fun g => g.size / overlap).sum = size / overlap := by
  have hslots : size / overlap * overlap = size := Nat.div_mul_cancel hdvd
  let L : Layout := ⟨addr, overlap, size / overlap, hpos, hle, by rw [hslots]; exact hsize⟩
  have hL : L.size = size := hslots
  have hcreate := L.create_eq (fun i _ => hchunk i) hid
  rw [hL] at hcreate
  refine ⟨L.queue chunk id, hcreate, by simp [Layout.queue], ?_, fun g hg => ?_,
    fun k hk => ?_, ?_⟩
  · have htiles := L.tiles_segments chunk (L.n - 1) 0 (by have := L.n_pos; omega)
    rw [show L.n - 1 + 1 = L.n by have := L.n_pos; omega, ← List.range_eq_range', hL] at htiles
    rw [Layout.segAddr, Nat.zero_mul] at htiles
    exact htiles
  · obtain ⟨i, hi, rfl⟩ := List.mem_map.1 hg
    rw [List.mem_range] at hi
    refine ⟨L.segSize_pos hi, L.segSize_le i, ?_⟩
    rw [← Nat.mod_eq_of_lt hi]
    exact Dvd.intro_left _ (L.segSize_eq i).symm
  · have hentry : addr + k * overlap = L.pos k := by
      rw [Layout.pos, show k % L.slots = k from Nat.mod_eq_of_lt hk]
    have hn : (L.pos k - L.addr) / L.blockSize < L.n := by
      rw [Nat.div_lt_iff_lt_mul L.blockSize_pos]
      have := L.pos_lt k
      have := L.segments_cover.2
      have : L.addr ≤ L.pos k := Nat.le_add_right _ _
      omega
    refine ⟨_, hn, by rw [hentry]; exact L.findSegment_pos chunk id k, fun j g hg => ?_⟩
    obtain rfl : L.segment chunk j = g := by
      rw [Layout.queue, List.getElem?_map, Option.map_eq_some_iff] at hg
      obtain ⟨i, hi, rfl⟩ := hg
      obtain ⟨_, rfl⟩ := List.getElem?_eq_some_iff.1 hi
      rw [List.getElem_range]
    rw [hentry]
    exact L.entry_segment_iff k j
  · rw [Layout.queue, List.map_map]
    exact L.sum_segSize_div

/-- A queue of 171 entries of 48 bytes: five segments, the last of three entries. -/
theorem segments_tile_171 :
    (createDmaCircularQueue (fun i => i + 1) 0 4096 8208 48).map
        (fun q => (q.n, q.segments.map fun g => g.size / 48)) = some (5, [42, 42, 42, 42, 3]) ∧
      ∃ q, createDmaCircularQueue (fun i => i + 1) 0 4096 8208 48 = some q ∧
        Tiles (4096 + 8208) 4096 q.segments := by
  refine ⟨by decide +kernel, ?_⟩
  obtain ⟨q, hq, -, htiles, -⟩ := segments_tile (show ∀ i : ℕ, i + 1 ≠ 0 from Nat.succ_ne_zero)
    (show 0 < MAX_QUEUES by decide) 4096 (show 48 ∣ 8208 by decide) (by decide) (by decide)
    (by decide)
  exact ⟨q, hq, htiles⟩

end Nic
end Floem
