import Mathlib
import Floem.Lib.Memory

/-!
# The item allocator of the memcached application

`apps/memcached_cpu_only/ialloc.c` puts items one behind the other into segments.  A segment
that is full is read back from the lengths in its items, to move the items that are left, and
is used again when everything in it was freed.

* `Header`, `Allocator`, `State` — `segment_header`, `item_allocator`, and the memory with the
  global variables.
* `segmentAlloc`, `segmentFree`, `segmentItemFree`, `segmentItemAllocPointer` — segments.
* `iallocInitAllocator`, `iallocAlloc`, `iallocFree`, `iallocNicsegmentAlloc`,
  `iallocNicsegmentFull`, `iallocCleanupItem`, `iallocMaintenance` — the calls.

The result `none` is an assertion that fails, or `exit(1)`.  The header of a segment is known by
the number of the segment, and addresses are counted from `seg_base`.
-/

namespace Floem
open Lib

namespace Ialloc

/-! ## Items -/

/-- `sizeof(item)` -/
def itemSize : ℕ := 24

/-- `it->vallen` -/
def vallen (mem : ℕ → UInt8) (it : ℕ) : ℕ := load mem (it + 12) 4

/-- `it->refcount` -/
def refcount (mem : ℕ → UInt8) (it : ℕ) : ℕ := load mem (it + 16) 2

/-- `it->keylen` -/
def keylen (mem : ℕ → UInt8) (it : ℕ) : ℕ := load mem (it + 18) 2

def setVallen (mem : ℕ → UInt8) (it x : ℕ) : ℕ → UInt8 := store mem (it + 12) 4 x

def setRefcount (mem : ℕ → UInt8) (it x : ℕ) : ℕ → UInt8 := store mem (it + 16) 2 x

def setKeylen (mem : ℕ → UInt8) (it x : ℕ) : ℕ → UInt8 := store mem (it + 18) 2 x

def itemTotalsz (mem : ℕ → UInt8) (it : ℕ) : ℕ := itemSize + vallen mem it + keylen mem it

/-- `item_tryref` -/
def itemTryref (mem : ℕ → UInt8) (it : ℕ) : (ℕ → UInt8) × Bool :=
  if refcount mem it = 0 then (mem, false) else (setRefcount mem it (refcount mem it + 1), true)

/-! ## Segments -/

structure Settings where
  segsize : ℕ
  segmaxnum : ℕ
  segcqsize : ℕ

/-- `segment_header`, with a field for each flag. -/
structure Header where
  data : ℕ
  next : Option ℕ
  offset : ℕ
  freed : ℕ
  size : ℕ
  coreId : ℕ
  /-- `SF_INACTIVE` -/
  inactive : Bool
  /-- `SF_NIC` -/
  isNic : Bool
  /-- `SF_CLEANED` -/
  cleaned : Bool

/-- `item_allocator` -/
structure Allocator where
  reserved : Option ℕ
  cleanupQueue : ℕ → Option ℕ
  cur : Option ℕ
  curNic : Option ℕ
  cqHead : ℕ
  cleanupCount : ℕ
  coreId : ℕ
  oldest : Option ℕ
  oldestNic : Option ℕ
  cqTail : ℕ
  cleaning : Option ℕ
  cleanOffset : ℕ
  /-- Not in the code: the offsets at which items were read in the segment that is cleaned. -/
  seen : List ℕ

/-- An allocator after `memset`. -/
def Allocator.zero : Allocator :=
  ⟨none, fun _ => none, none, none, 0, 0, 0, none, none, 0, none, 0, []⟩

/-- What a part of a segment is used for. -/
structure Piece where
  size : ℕ
  filler : Bool
  freed : Bool
  deriving DecidableEq, Repr

/-- The memory and the global variables. -/
structure State where
  header : ℕ → Header
  segHeaders : ℕ → Option ℕ
  segAlloced : ℕ
  freeSegments : Option ℕ
  mem : ℕ → UInt8
  ia : ℕ → Allocator
  /-- The allocators that are initialized. -/
  ready : ℕ → Bool
  /-- Not in the code: what a segment was used for since it was handed out, from its start. -/
  log : ℕ → List Piece
  /-- The offset in a segment that a NIC allocates from. -/
  nic : ℕ → Option ℕ

/-- The start of the program. -/
def State.init (mem : ℕ → UInt8) : State where
  header _ := ⟨0, none, 0, 0, 0, 0, false, false, false⟩
  segHeaders _ := none
  segAlloced := 0
  freeSegments := none
  mem := mem
  ia _ := .zero
  ready _ := false
  log _ := []
  nic _ := none

namespace State

def setHeader (s : State) (h : ℕ) (f : Header → Header) : State :=
  { s with header := Function.update s.header h (f (s.header h)) }

def setIa (s : State) (a : ℕ) (f : Allocator → Allocator) : State :=
  { s with ia := Function.update s.ia a (f (s.ia a)) }

def setLog (s : State) (h : ℕ) (l : List Piece) : State :=
  { s with log := Function.update s.log h l }

def setNic (s : State) (h : ℕ) (off : Option ℕ) : State :=
  { s with nic := Function.update s.nic h off }

variable (s : State) (h g a : ℕ) (f : Header → Header) (f' : Allocator → Allocator)
  (l : List Piece) (off : Option ℕ)

@[simp] theorem setHeader_self : (s.setHeader h f).header h = f (s.header h) :=
  Function.update_self ..

theorem setHeader_of_ne {g h : ℕ} (hg : g ≠ h) : (s.setHeader h f).header g = s.header g :=
  Function.update_of_ne hg ..

@[simp] theorem setHeader_log : (s.setHeader h f).log = s.log := rfl

@[simp] theorem setHeader_mem : (s.setHeader h f).mem = s.mem := rfl

@[simp] theorem setHeader_nic : (s.setHeader h f).nic = s.nic := rfl

@[simp] theorem setHeader_ia : (s.setHeader h f).ia = s.ia := rfl

@[simp] theorem setIa_self : (s.setIa a f').ia a = f' (s.ia a) := Function.update_self ..

theorem setIa_of_ne {a b : ℕ} (hb : b ≠ a) : (s.setIa a f').ia b = s.ia b :=
  Function.update_of_ne hb ..

@[simp] theorem setIa_header : (s.setIa a f').header = s.header := rfl

@[simp] theorem setIa_log : (s.setIa a f').log = s.log := rfl

@[simp] theorem setLog_self : (s.setLog h l).log h = l := Function.update_self ..

theorem setLog_of_ne {g h : ℕ} (hg : g ≠ h) : (s.setLog h l).log g = s.log g :=
  Function.update_of_ne hg ..

@[simp] theorem setLog_header : (s.setLog h l).header = s.header := rfl

@[simp] theorem setLog_ia : (s.setLog h l).ia = s.ia := rfl

@[simp] theorem setNic_self : (s.setNic h off).nic h = off := Function.update_self ..

theorem setNic_of_ne {g h : ℕ} (hg : g ≠ h) : (s.setNic h off).nic g = s.nic g :=
  Function.update_of_ne hg ..

@[simp] theorem setNic_header : (s.setNic h off).header = s.header := rfl

end State

variable (S : Settings)

/-- `init_h:` -/
def initSegment (s : State) (h coreId : ℕ) : State :=
  (s.setHeader h fun x => { x with
    offset := 0, inactive := false, isNic := false, cleaned := false, freed := 0,
    coreId := coreId }).setLog h []

/-- The header of a segment that was never handed out. -/
def newSegment (s : State) (i : ℕ) : State :=
  { s with segHeaders := Function.update s.segHeaders i (some i) }.setHeader i fun x =>
    { x with size := S.segsize % 2 ^ 32, data := S.segsize * i }

/-- `segment_alloc`; `malloc` says whether there is memory for a header. -/
def segmentAlloc (malloc : Bool) (coreId : ℕ) (s : State) : Option (State × Option ℕ) :=
  match s.freeSegments with
  | some h =>
    some (initSegment { s with freeSegments := (s.header h).next } h coreId, some h)
  | none =>
    let i := s.segAlloced
    if S.segmaxnum ≤ i then none
    else
      let s := { s with segAlloced := i + 1 }
      if malloc then some (initSegment (newSegment S s i) i coreId, some i) else some (s, none)

/-- `segment_from_part` -/
def segmentFromPart (s : State) (part : ℕ) : Option ℕ :=
  if S.segsize = 0 then none
  else if part / S.segsize < S.segmaxnum then s.segHeaders (part / S.segsize) else none

/-- `segment_free` -/
def segmentFree (s : State) (h : ℕ) : State :=
  { s.setHeader h fun x => { x with offset := 0, next := s.freeSegments } with
    freeSegments := some h }

/-- `segment_item_free` -/
def segmentItemFree (s : State) (h total : ℕ) : Option State :=
  let freed := ((s.header h).freed + total) % 2 ^ 32
  if (s.header h).size ≠ freed ∧ ¬ freed ≤ (s.header h).size then none
  else some (s.setHeader h fun x => { x with freed := freed })

/-- The dummy item that fills a segment up, where there is room for one. -/
def fillUp (mem : ℕ → UInt8) (it gap : ℕ) : ℕ → UInt8 :=
  if itemSize ≤ gap then setVallen (setKeylen (setRefcount mem it 0) it (gap - itemSize)) it 0
  else mem

/-- `segment_item_alloc_pointer` -/
def segmentItemAllocPointer (s : State) (h total : ℕ) : Option (State × Option ℕ) :=
  let x := s.header h
  let it := x.data + x.offset
  let avail := (x.size + 2 ^ 32 - x.offset) % 2 ^ 32
  if avail = 0 then some (s, none)
  else if avail < total then
    let s := { s with mem := fillUp s.mem it avail }
    (segmentItemFree s h avail).map fun s =>
      ((s.setHeader h fun x => { x with offset := (x.offset + avail) % 2 ^ 32 }).setLog h
        (s.log h ++ [⟨avail, true, true⟩]), none)
  else
    let s := { s with mem := setRefcount s.mem it 1 }
    some ((s.setHeader h fun x => { x with offset := (x.offset + total) % 2 ^ 32 }).setLog h
      (s.log h ++ [⟨total, false, false⟩]), some it)

/-! ## The calls -/

/-- `ialloc_init_allocator`; the core is overwritten by `memset`. -/
def iallocInitAllocator (malloc : Bool) (a : ℕ) (s : State) : Option State := do
  let s := s.setIa a fun _ => .zero
  let (s, h) ← segmentAlloc S malloc 0 s
  let h ← h
  let s := s.setHeader h fun x => { x with next := none }
  return s.setIa a fun x => { x with cur := some h, oldest := some h }

/-- A new segment becomes the current one. -/
def nextSegment (s : State) (a old h : ℕ) : State :=
  let s := s.setHeader old fun x => { x with next := some h }
  let s := s.setHeader h fun x => { x with next := none }
  let s := s.setHeader old fun x => { x with inactive := true }
  s.setIa a fun x => { x with cur := some h }

/-- Where a new segment comes from: for cleanup also from the reserved one. -/
def takeSegment (malloc : Bool) (a : ℕ) (cleanup : Bool) (s : State) :
    Option (State × Option ℕ) := do
  let (s, h) ← segmentAlloc S malloc (s.ia a).coreId s
  match h with
  | some h => return (s, some h)
  | none =>
    if cleanup then return (s.setIa a fun x => { x with reserved := none }, (s.ia a).reserved)
    else return (s, none)

/-- `ialloc_alloc` -/
def iallocAlloc (malloc : Bool) (a total : ℕ) (cleanup : Bool) (s : State) :
    Option (State × Option ℕ) :=
  if S.segsize < total then none
  else if (s.ia a).reserved = none ∧ cleanup = false then some (s, none)
  else do
    let old ← (s.ia a).cur
    let (s, it) ← segmentItemAllocPointer s old total
    match it with
    | some it => return (s, some it)
    | none =>
      let (s, h) ← takeSegment S malloc a cleanup s
      match h with
      | none => return (s, none)
      | some h => segmentItemAllocPointer (nextSegment s a old h) h total

/-- `ialloc_free` -/
def iallocFree (it total : ℕ) (s : State) : Option State := do
  let h ← segmentFromPart S s it
  segmentItemFree s h total

/-- The segment that is reserved, where there is none. -/
def reserve (malloc : Bool) (a : ℕ) (s : State) : Option State :=
  if (s.ia a).reserved = none then do
    let (s, h) ← segmentAlloc S malloc (s.ia a).coreId s
    return s.setIa a fun x => { x with reserved := h }
  else some s

/-- A segment is put behind those of the NIC. -/
def linkNic (s : State) (a h : ℕ) : State :=
  let s := s.setHeader h fun x => { x with isNic := true, next := none }
  let s := match (s.ia a).curNic with
    | none => s.setIa a fun x => { x with oldestNic := some h }
    | some cur => s.setHeader cur fun x => { x with next := some h }
  s.setIa a fun x => { x with curNic := some h }

/-- The part of `ialloc_nicsegment_alloc` with a segment in reserve. -/
def nextNic (malloc : Bool) (a : ℕ) (s : State) : Option (State × Option ℕ) := do
  let (s, h) ← segmentAlloc S malloc (s.ia a).coreId s
  match h with
  | none => return (s, none)
  | some h => return (linkNic s a h, some h)

/-- `ialloc_nicsegment_alloc` -/
def iallocNicsegmentAlloc (malloc malloc' : Bool) (a : ℕ) (s : State) :
    Option (State × Option ℕ) := do
  let s ← reserve S malloc a s
  if (s.ia a).reserved = none then return (s, none) else nextNic S malloc' a s

/-- The rest of the segment `h` from `last` on is filled up. -/
def fillNic (h last : ℕ) (s : State) : Option (State × ℕ) := do
  let x := s.header h
  let off := last - x.data
  let gap := (x.size + 2 ^ 64 - off) % 2 ^ 64
  let mem := if off + itemSize ≤ x.size then fillUp s.mem last gap else s.mem
  let s ← segmentItemFree { s with mem := mem } h gap
  let s := s.setLog h (s.log h ++ if gap = 0 then [] else [⟨gap, true, true⟩])
  return (s.setHeader h fun x => { x with inactive := true }, x.coreId)

/-- `ialloc_nicsegment_full`, with the core that is returned. -/
def iallocNicsegmentFull (last : ℕ) (s : State) : Option (State × ℕ) := do
  let h ← if last < itemSize then none else segmentFromPart S s (last - itemSize)
  fillNic h last s

/-- The item at the head of the queue is taken out. -/
def takeCleanup (a : ℕ) (s : State) : State :=
  let i := (s.ia a).cqHead
  if (s.ia a).cleanupQueue i = none then s
  else s.setIa a fun x => { x with
    cleanupQueue := Function.update x.cleanupQueue i none, cqHead := (i + 1) % S.segcqsize }

/-- `ialloc_cleanup_item`, with the item that is returned. -/
def iallocCleanupItem (malloc : Bool) (a : ℕ) (idle : Bool) (s : State) :
    Option (State × Option ℕ) :=
  if idle = false ∧ 32 ≤ (s.ia a).cleanupCount then some (s, none)
  else
    let s := if idle then s
      else s.setIa a fun x => { x with cleanupCount := x.cleanupCount + 1 }
    (reserve S malloc a (takeCleanup S a s)).map fun t =>
      (t, (s.ia a).cleanupQueue (s.ia a).cqHead)

/-- `ialloc_cleanup_nextrequest` -/
def iallocCleanupNextrequest (a : ℕ) (s : State) : State :=
  s.setIa a fun x => { x with cleanupCount := 0 }

/-! ## Maintenance -/

/-- The head of one of the two lists. -/
def Allocator.oldestOf (x : Allocator) (isNic : Bool) : Option ℕ :=
  if isNic then x.oldestNic else x.oldest

/-- The end of one of the two lists. -/
def Allocator.curOf (x : Allocator) (isNic : Bool) : Option ℕ := if isNic then x.curNic else x.cur

def Allocator.setOldest (x : Allocator) (isNic : Bool) (h : Option ℕ) : Allocator :=
  if isNic then { x with oldestNic := h } else { x with oldest := h }

/-- What the loops over the two lists work on: the candidate is kept with its ratio, freed and
size. -/
structure Sweep where
  state : State
  cand : Option ℕ
  ratio : ℕ × ℕ

/-- A segment that was freed is taken out of its list. -/
def unlinkSegment (s : State) (a : ℕ) (isNic : Bool) (prev : Option ℕ) (h : ℕ) : State :=
  let next := (s.header h).next
  let s := match prev with
    | none => s.setIa a fun x => x.setOldest isNic next
    | some p => s.setHeader p fun x => { x with next := next }
  segmentFree s h

/-- The segment is a better candidate. -/
def Sweep.better (w : Sweep) (h : ℕ) : Bool :=
  let x := w.state.header h
  !x.cleaned && decide (4 * x.size ≤ 5 * x.freed) && decide (w.ratio.1 * x.size < x.freed * w.ratio.2)

/-- The loop over a list, with the segment in front. -/
def sweepLoop (a : ℕ) (isNic : Bool) : ℕ → Option ℕ → Option ℕ → Sweep → Option Sweep
  | 0, _, _, _ => none
  | _ + 1, _, none, w => some w
  | n + 1, prev, some h, w =>
    let x := w.state.header h
    if x.next = none ∨ x.inactive = false then some w
    else if x.freed = x.size then
      sweepLoop a isNic n prev x.next { w with state := unlinkSegment w.state a isNic prev h }
    else if w.better h then
      sweepLoop a isNic n (some h) x.next { w with cand := some h, ratio := (x.freed, x.size) }
    else sweepLoop a isNic n (some h) x.next w

/-- What the loop over the items works on. -/
structure Clean where
  mem : ℕ → UInt8
  cq : ℕ → Option ℕ
  idx : ℕ
  off : ℕ
  seen : List ℕ

/-- The loop over the items of the segment that is cleaned. -/
def cleanLoop (data size : ℕ) : ℕ → Clean → Clean
  | 0, c => c
  | n + 1, c =>
    if c.off < size ∧ c.cq c.idx = none then
      if size - c.off < itemSize then { c with off := size }
      else
        let it := data + c.off
        let (mem, got) := itemTryref c.mem it
        let off := c.off + itemTotalsz mem it
        let seen := c.seen ++ [c.off]
        if got then
          cleanLoop data size n
            ⟨mem, Function.update c.cq c.idx (some it), (c.idx + 1) % S.segcqsize, off, seen⟩
        else cleanLoop data size n ⟨mem, c.cq, c.idx, off, seen⟩
    else c

/-- The candidate is cleaned next. -/
def startCleaning (s : State) (a : ℕ) (cand : Option ℕ) : State :=
  let s := s.setIa a fun x => { x with cleaning := cand, cleanOffset := 0, seen := [] }
  match cand with
  | none => s
  | some h => s.setHeader h fun x => { x with cleaned := true }

/-- Items are enqueued until the queue is full. -/
def cleanSegment (s : State) (a h size : ℕ) : State :=
  let x := s.ia a
  let c := cleanLoop S (s.header h).data size size
    ⟨s.mem, x.cleanupQueue, x.cqTail, x.cleanOffset, x.seen⟩
  { s with mem := c.mem }.setIa a fun x => { x with
    cleanupQueue := c.cq, cqTail := c.idx, cleanOffset := c.off, seen := c.seen }

/-- `ialloc_maintenance` behind the two loops.  The size is the one of the segment that was
cleaned before. -/
def maintainCleaning (a : ℕ) (cand : Option ℕ) (s : State) : State :=
  let size := ((s.ia a).cleaning.map fun h => (s.header h).size).getD 0
  let s := if (s.ia a).cleaning = none ∨ (s.ia a).cleanOffset = size then startCleaning s a cand
    else s
  match (s.ia a).cleaning with
  | none => s
  | some h => cleanSegment S s a h size

/-- `ialloc_maintenance` -/
def iallocMaintenance (a : ℕ) (s : State) : Option State := do
  let fuel := s.segAlloced + 1
  let w ← sweepLoop a false fuel none (s.ia a).oldest ⟨s, none, (0, 1)⟩
  let w ← sweepLoop a true fuel none (w.state.ia a).oldestNic w
  return maintainCleaning S a w.cand w.state

end Ialloc
end Floem
