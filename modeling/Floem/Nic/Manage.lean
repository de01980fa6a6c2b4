import Mathlib
import Floem.Lib.Run
import Floem.Nic.Layout

/-!
# The queue manager of the NIC

The functions of `floem/include_cavium/floem-queue-manage.c` with `RUNTIME` defined
and `FAST_READ` not, as the repository builds it: one manager thread drives the
segments of a queue while workers call `smart_dma_read` and `smart_dma_write`.

* `State` — the cursors and segments of `dma_circular_queue`, the local copies of
  the entries, and the history of the run.
* `updateReadReady`, `updateWriteReady(Fast)`, `handleWriting`, `handleReading`,
  `prefetchSegment`, `exeWrite` — the manager, function by function.  Loops and
  recursions take fuel and are `none` when it runs out.
* `step` — one call of the manager or of a worker, or the completion of a
  transfer, which may come at any time.

An entry is a value of a type `α` that `ready_scan` and `done_scan` look at; the size
they return is overwritten by `overlap`, so only its being zero matters.  What a DMA
read brings is whatever the other side has stored by then, so it is a parameter of
the completion.
-/

namespace Floem
namespace Nic

open Lib

/-! ## Queues, segments and transfers -/

/-- The arguments of `create_dma_circular_queue`: a storage, and whether the two
scan functions return a size other than zero. -/
structure Device (α : Type) extends Layout where
  readyScan : α → Bool
  doneScan : α → Bool

/-- The `status` of a segment. -/
inductive Status
  | VALID | WRITING | INVALID | READING | RELEASE
  deriving DecidableEq, Repr

/-- The `comp` of a segment: no transfer, or a DMA read or write and whether it is
complete.  A read also remembers which write-backs had completed when it was
started. -/
inductive Comp
  | reset
  | read (off size : ℕ) (backed : ℕ → Bool) (fin : Bool)
  | write (lo hi : ℕ) (fin : Bool)

/-- `dma_complete`. -/
def Comp.complete : Comp → Bool
  | .reset => false
  | .read _ _ _ fin => fin
  | .write _ _ fin => fin

/-- The fields of a `dma_segment` that change.  `lap` is no field of the source: it
counts how often the segment was written back to its end. -/
structure Segment where
  status : Status
  count : ℕ
  min : ℕ
  max : ℕ
  commitMax : ℕ
  comp : Comp
  lap : ℕ

/-- What a DMA read fetched for an entry: its value, and the write-backs that had
completed when the read was started. -/
structure Fetch (α : Type) where
  data : α
  backed : ℕ → Bool

/-- A queue at work: the fields of `dma_circular_queue` that change, the segments
and their local buffers (`buf i off` is the entry at byte `off` of segment `i`), and
the history of the run. -/
structure State (α : Type) where
  readReady : ℕ
  writeReady : ℕ
  readReadySeg : ℕ
  writeReadySeg : ℕ
  writeStartSeg : ℕ
  writeFinishSeg : ℕ
  lastRead : ℕ
  lastWrite : ℕ
  writeGap : ℕ
  seg : ℕ → Segment
  buf : ℕ → ℕ → α
  /-- The fetch each local entry comes from. -/
  fetched : ℕ → ℕ → Option (Fetch α)
  /-- The entries `read_ready` passed, in order: the fetch each came from. -/
  made : List (Option (Fetch α))
  /-- The entries `write_ready` passed, in order: what `done_scan` said of each. -/
  handed : List Bool
  /-- The DMA writes started, in order: lap, first address, end address. -/
  writes : List (ℕ × ℕ × ℕ)
  /-- The tickets whose write-back has completed. -/
  backed : ℕ → Bool

/-- Change segment `i`. -/
def State.modify {α : Type} (s : State α) (i : ℕ) (f : Segment → Segment) : State α :=
  { s with seg := Function.update s.seg i (f (s.seg i)) }

/-- `N_WRITE`, the length of the array `ids`. -/
def N_WRITE : ℕ := 256

/-- `WRITE_WAIT`. -/
def WRITE_WAIT : ℕ := 1000000

namespace Device

variable {α : Type} (D : Device α)

/-- The queue `create_dma_circular_queue` makes at time `now`, with whatever the
buffers hold. -/
def create (buf : ℕ → ℕ → α) (now : ℕ) : State α where
  readReady := D.addr
  writeReady := D.addr
  readReadySeg := 0
  writeReadySeg := 0
  writeStartSeg := 0
  writeFinishSeg := 0
  lastRead := D.addr
  lastWrite := now
  writeGap := 0
  seg i := ⟨.INVALID, 0, if i = 0 then D.addr else 0, 0, 0, .reset, 0⟩
  buf := buf
  fetched _ _ := none
  made := []
  handed := []
  writes := []
  backed _ := false

/-- `find_segment`. -/
def findSegment (a : ℕ) : ℕ := (a - D.addr) / D.blockSize

/-! ## Moving `read_ready` -/

/-- `no_read`. -/
def noRead (s : State α) : Bool :=
  if s.readReady < s.writeReady then s.writeReadySeg ≤ s.readReadySeg + 2
  else D.n + s.writeReadySeg ≤ s.readReadySeg + 2

/-- The `stop_seg` of `update_read_ready`. -/
def stopSeg (s : State α) : ℕ :=
  if s.writeReadySeg < 2 then s.writeReadySeg + D.n - 2 else s.writeReadySeg - 2

/-- The loop of `update_read_ready`; the pointer `buf` is at byte `off` of segment
`seg`. -/
def updateReadReadyLoop : ℕ → State α → ℕ → ℕ → Option (State α)
  | 0, _, _, _ => none
  | fuel + 1, s, seg, off =>
    if D.readyScan (s.buf seg off) then
      let s := { s with readReady := s.readReady + D.overlap,
                        made := s.made ++ [s.fetched seg off] }
      if D.addr + D.size ≤ s.readReady then
        let s := { s with readReady := D.addr, readReadySeg := 0 }
        if s.readReadySeg = D.stopSeg s ∨ (s.seg s.readReadySeg).status = .READING then some s
        else updateReadReadyLoop fuel s s.readReadySeg 0
      else if D.segAddr seg + D.blockSize ≤ s.readReady then
        let s := { s with readReadySeg := s.readReadySeg + 1 }
        if s.readReadySeg = D.stopSeg s ∨ (s.seg s.readReadySeg).status = .READING then some s
        else updateReadReadyLoop fuel s s.readReadySeg 0
      else updateReadReadyLoop fuel s seg (off + D.overlap)
    else some s

/-- `update_read_ready`. -/
def updateReadReady (fuel : ℕ) (s : State α) : Option (State α) :=
  if s.readReadySeg = D.stopSeg s ∨ (s.seg s.readReadySeg).status = .READING then some s
  else updateReadReadyLoop D fuel s s.readReadySeg (s.readReady - D.segAddr s.readReadySeg)

/-! ## Moving `write_ready` -/

/-- What `done_scan` says of the entries from byte `off` of segment `i` to its end. -/
def doneFlags (s : State α) (i off : ℕ) : List Bool :=
  (List.range ((D.segSize i - off) / D.overlap)).map fun j =>
    D.doneScan (s.buf i (off + j * D.overlap))

/-- `update_write_ready_fast`; also returns the length of `ids`, and `ret`. -/
def updateWriteReadyFast : ℕ → State α → ℕ → ℕ → Option (State α × ℕ × ℕ)
  | 0, _, _, _ => none
  | fuel + 1, s, n, ret =>
    if s.readReadySeg ≠ s.writeReadySeg then
      let i := s.writeReadySeg
      if (s.seg i).count = D.segSize i / D.overlap then do
        guard (n + 1 < N_WRITE)
        let s := { s with handed := s.handed ++ D.doneFlags s i (s.writeReady - D.segAddr i) }
        let s := s.modify i fun g => { g with count := 0 }
        let s := if i = D.n - 1 then { s with writeReady := D.addr, writeReadySeg := 0 }
          else { s with writeReady := D.segAddrMax i, writeReadySeg := i + 1 }
        let s := s.modify i fun g => { g with max := D.segAddrMax i }
        let s := s.modify s.writeReadySeg fun g => { g with min := D.segAddr s.writeReadySeg }
        updateWriteReadyFast fuel s (n + 1) 3
      else some (s, n, ret)
    else some (s, n, ret)

/-- The loop of `update_write_ready`; the pointer `buf` is at byte `off` of segment
`seg`. -/
def updateWriteReadyLoop : ℕ → State α → ℕ → ℕ → ℕ → Option (State α)
  | 0, _, _, _, _ => none
  | fuel + 1, s, n, seg, off =>
    if D.doneScan (s.buf seg off) then
      let s := { s with writeReady := s.writeReady + D.overlap,
                        handed := s.handed ++ [D.doneScan (s.buf seg off)] }
      let s := s.modify seg fun g => { g with max := s.writeReady }
      if D.addr + D.size ≤ s.writeReady then do
        let s := s.modify seg fun g => { g with count := 0 }
        guard (n < N_WRITE)
        let s := { s with writeReady := D.addr, writeReadySeg := 0 }
        let s := s.modify s.writeReadySeg fun g => { g with min := D.segAddr s.writeReadySeg }
        let r ← D.updateWriteReadyFast fuel s (n + 1) 3
        return r.1
      else if D.segAddrMax seg ≤ s.writeReady then do
        let s := s.modify seg fun g => { g with count := 0 }
        guard (n < N_WRITE)
        let s := { s with writeReadySeg := s.writeReadySeg + 1 }
        let s := s.modify s.writeReadySeg fun g => { g with min := s.writeReady }
        let r ← D.updateWriteReadyFast fuel s (n + 1) 3
        return r.1
      else if s.writeReady = s.readReady then some s
      else updateWriteReadyLoop fuel s n seg (off + D.overlap)
    else some s

/-- `update_write_ready`. -/
def updateWriteReady (fuel : ℕ) (s : State α) (n : ℕ) : Option (State α) :=
  if s.writeReady = s.readReady then some s
  else updateWriteReadyLoop D fuel s n s.writeReadySeg (s.writeReady - D.segAddr s.writeReadySeg)

/-- `initiate_write`. -/
def initiateWrite (fuel : ℕ) (s : State α) : Option (State α) := do
  let (s, n, ret) ← D.updateWriteReadyFast fuel s 0 0
  if ret = 0 ∧ WRITE_WAIT < s.writeGap then D.updateWriteReady fuel s n else some s

/-! ## Transfers -/

/-- `handle_writing` on segment `i`. -/
def handleWriting : ℕ → State α → ℕ → Option (State α)
  | 0, _, _ => none
  | fuel + 1, s, i =>
    if (s.seg i).status = .WRITING ∧ (s.seg i).comp.complete then
      let s := s.modify i fun g => { g with status := .RELEASE, comp := .reset }
      if D.segAddrMax i ≤ (s.seg i).commitMax then
        let s := s.modify i fun g => { g with min := 0, max := 0, commitMax := 0 }
        let s := if s.writeReadySeg = i then s.modify i fun g => { g with min := s.writeReady }
          else s
        let s := { s with writeFinishSeg := (i + 1) % D.n }
        let s := s.modify i fun g =>
          { g with count := 0, status := .INVALID, lap := g.lap + 1 }
        handleWriting fuel s s.writeFinishSeg
      else
        some (s.modify i fun g => { g with min := g.commitMax, status := .INVALID })
    else some s

/-- `handle_reading` on segment `i`. -/
def handleReading : ℕ → State α → ℕ → Option (State α)
  | 0, _, _ => none
  | fuel + 1, s, i =>
    if (s.seg i).status = .READING ∧ (s.seg i).comp.complete then do
      let s := s.modify i fun g => { g with status := .RELEASE, comp := .reset }
      let s ← D.updateReadReady fuel s
      if s.readReadySeg ≠ i then
        let s := s.modify i fun g => { g with status := .VALID }
        handleReading fuel s s.readReadySeg
      else
        some (s.modify i fun g => { g with status := .INVALID })
    else some s

/-- The byte of segment `i` a DMA read begins at: `q->read_ready - seg->addr`, or `0`
where that unsigned difference is larger than the segment. -/
def readOff (s : State α) (i : ℕ) : ℕ :=
  if s.readReady < D.segAddr i ∨ D.segSize i < s.readReady - D.segAddr i then 0
  else s.readReady - D.segAddr i

/-- `prefetch_segment` on segment `i`. -/
def prefetchSegment (s : State α) (i : ℕ) : State α :=
  if (s.seg i).status = .INVALID ∧
      ((s.seg i).max = 0 ∨ s.readReadySeg = i ∧ (s.seg i).max ≤ s.readReady) ∧ ¬ D.noRead s then
    s.modify i fun g =>
      { g with status := .READING,
               comp := .read (D.readOff s i) (D.segSize i - D.readOff s i) s.backed false }
  else s

/-- `do_write` on segment `i`. -/
def doWrite (s : State α) (i : ℕ) : State α :=
  let g := s.seg i
  if g.min < g.max ∧ (g.status = .VALID ∨ g.status = .INVALID) then
    let s := if g.max = D.segAddrMax i ∧ g.commitMax < g.max
      then { s with writeStartSeg := (i + 1) % D.n } else s
    let s := s.modify i fun g =>
      { g with status := .WRITING, commitMax := g.max, comp := .write g.min g.max false }
    { s with writes := s.writes ++ [(g.lap, g.min, g.max)] }
  else s

/-- `exe_write` on segment `i`. -/
def exeWrite : ℕ → State α → ℕ → Option (State α)
  | 0, _, _ => none
  | fuel + 1, s, i =>
    if (s.seg i).commitMax < (s.seg i).max ∧
        ((s.seg i).status = .VALID ∨ (s.seg i).status = .INVALID) then
      let s := D.doWrite s i
      if i ≠ s.writeStartSeg then exeWrite fuel s s.writeStartSeg else some s
    else some s

/-! ## The manager -/

/-- `manage_read`. -/
def manageRead (fuel : ℕ) (s : State α) : Option (State α) := do
  let s ← D.handleWriting fuel s s.writeFinishSeg
  D.handleReading fuel s s.readReadySeg

/-- `manage_dma_read`. -/
def manageDmaRead (s : State α) : State α :=
  let s := D.prefetchSegment s s.readReadySeg
  D.prefetchSegment s ((s.readReadySeg + 1) % D.n)

/-- `manage_write`. -/
def manageWrite (fuel : ℕ) (s : State α) : Option (State α) := D.initiateWrite fuel s

/-- `manage_dma_write`. -/
def manageDmaWrite (fuel : ℕ) (s : State α) : Option (State α) :=
  D.exeWrite fuel s s.writeStartSeg

/-! ## The workers -/

/-- `is_read_ready`. -/
def isReadReady (s : State α) (a : ℕ) : Bool :=
  if s.writeReady = s.readReady then false
  else if s.writeReady < s.readReady then s.writeReady ≤ a ∧ a < s.readReady
  else s.readReady ≤ a ∧ s.writeReady ≤ a ∨ a < s.readReady ∧ a < s.writeReady

/-- `smart_dma_read`: a pointer into a segment's buffer, or `NULL`. -/
def smartDmaRead (s : State α) (a : ℕ) : State α × Option (ℕ × ℕ) :=
  let s := { s with lastRead := a }
  let sid := D.findSegment a
  if isReadReady s a then (s, some (sid, a - D.segAddr sid))
  else
    (s.modify sid fun g => if g.status = .VALID then { g with status := .INVALID } else g, none)

/-- `smart_dma_write` at time `now`. -/
def smartDmaWrite (s : State α) (a now : ℕ) : State α :=
  let s := { s with writeGap := (now + 2 ^ 64 - s.lastWrite) % 2 ^ 64, lastWrite := now }
  s.modify (D.findSegment a) fun g => { g with count := g.count + 1 }

/-! ## Steps -/

/-- A DMA read completes: it brought `data` to the bytes it was started for. -/
def dmaRead (s : State α) (i : ℕ) (data : ℕ → α) : Option (State α) :=
  match (s.seg i).comp with
  | .read off size backed false =>
    let s := s.modify i fun g => { g with comp := .read off size backed true }
    let buf o := if off ≤ o ∧ o < off + size then data o else s.buf i o
    let fetched o := if off ≤ o ∧ o < off + size then some ⟨data o, backed⟩ else s.fetched i o
    some { s with buf := Function.update s.buf i buf,
                  fetched := Function.update s.fetched i fetched }
  | _ => none

/-- A DMA write completes. -/
def dmaWrite (s : State α) (i : ℕ) : Option (State α) :=
  match (s.seg i).comp with
  | .write lo hi false =>
    let lap := (s.seg i).lap
    let s := s.modify i fun g => { g with comp := .write lo hi true }
    let backed k := s.backed k || decide (k / D.slots = lap ∧ lo ≤ D.pos k ∧ D.pos k < hi)
    some { s with backed := backed }
  | _ => none

end Device

/-- What may happen next. -/
inductive Action (α : Type)
  /-- The first half of `manage_read`. -/
  | handleWriting
  /-- The second half of `manage_read`. -/
  | handleReading
  /-- One half of `manage_dma_read`: on the segment of `read_ready` or the next. -/
  | prefetch (next : Bool)
  /-- `manage_write`. -/
  | initiateWrite
  /-- `manage_dma_write`. -/
  | exeWrite
  | dmaRead (i : ℕ) (data : ℕ → α)
  | dmaWrite (i : ℕ)
  | smartDmaRead (a : ℕ)
  | smartDmaWrite (a now : ℕ)
  /-- A worker stores to the local copy of an entry. -/
  | store (i off : ℕ) (v : α)

namespace Device

variable {α : Type} (D : Device α)

/-- One call of the manager or of a worker, or the completion of a transfer. -/
def step (fuel : ℕ) (s : State α) : Action α → Option (State α)
  | .handleWriting => D.handleWriting fuel s s.writeFinishSeg
  | .handleReading => D.handleReading fuel s s.readReadySeg
  | .prefetch next =>
      some (D.prefetchSegment s (if next then (s.readReadySeg + 1) % D.n else s.readReadySeg))
  | .initiateWrite => D.initiateWrite fuel s
  | .exeWrite => D.exeWrite fuel s s.writeStartSeg
  | .dmaRead i data => dmaRead s i data
  | .dmaWrite i => D.dmaWrite s i
  | .smartDmaRead a => some (D.smartDmaRead s a).1
  | .smartDmaWrite a now => some (D.smartDmaWrite s a now)
  | .store i off v =>
      some { s with buf := Function.update s.buf i (Function.update (s.buf i) off v) }

/-- `manage_read` is its two halves, one after the other. -/
theorem manageRead_eq_run (fuel : ℕ) (s : State α) :
    D.manageRead fuel s = run (D.step fuel) s [.handleWriting, .handleReading] := by
  simp [manageRead, run, step]

/-- `manage_dma_read` is its two halves, one after the other. -/
theorem manageDmaRead_eq_run (fuel : ℕ) (s : State α) :
    some (D.manageDmaRead s) = run (D.step fuel) s [.prefetch false, .prefetch true] := by
  simp [manageDmaRead, run, step]

end Device
end Nic
end Floem
