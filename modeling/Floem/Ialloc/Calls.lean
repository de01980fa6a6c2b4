import Floem.Lib.Run
import Floem.Ialloc.Segment

/-!
# Runs of the item allocator

* `Call`, `step` — the calls of the allocators, one after the other in any order, and what the
  callers do with the items: they write the lengths into a new item before the next call, and
  anything else into their items later, and they free an item once.
* `boundaries` — the offsets at which a segment is to be read.
* `Possible` — the calls that a caller may make, with a segment left for those that need one.
* `WellFormed` — what is expected of the segments.
* `Fits` — the condition on a call under which the code does so.
-/

namespace Floem
open Lib

namespace Ialloc

/-! ## What segments are used for -/

/-- The bytes of some pieces. -/
def total (l : List Piece) : ℕ := (l.map Piece.size).sum

/-- The bytes of the pieces that are freed or filled up. -/
def gone (l : List Piece) : ℕ := (l.map fun p => if p.freed then p.size else 0).sum

/-- The offsets of the items, and of the filler where there is room for one. -/
def boundaries : ℕ → List Piece → List ℕ
  | _, [] => []
  | off, p :: l =>
    if itemSize ≤ p.size then off :: boundaries (off + p.size) l else boundaries (off + p.size) l

/-! ## Calls -/

/-- A call, or what a caller does with an item: the `k`th piece of the segment `h`. -/
inductive Call
  | initAllocator (a : ℕ) (malloc : Bool)
  | alloc (a keylen vallen : ℕ) (cleanup malloc : Bool)
  | nicsegmentAlloc (a : ℕ) (malloc malloc' : Bool)
  /-- `segment_item_alloc`, on the NIC. -/
  | segmentItemAlloc (h keylen vallen : ℕ)
  | nicsegmentFull (h : ℕ)
  | free (h k : ℕ)
  | write (h k j : ℕ) (b : UInt8)
  | cleanupItem (a : ℕ) (idle malloc : Bool)
  | cleanupNextrequest (a : ℕ)
  | maintenance (a : ℕ)

/-- The lengths are written into a new item. -/
def setLengths (keylen vallen : ℕ) (s : State) : Option ℕ → State
  | none => s
  | some it => { s with mem := setVallen (setKeylen s.mem it keylen) it vallen }

/-- `segment_item_alloc`, with the offset of the NIC and the lengths of the item. -/
def nicItemAlloc (h off keylen vallen : ℕ) (s : State) : State :=
  let avail := (s.header h).size - off
  let total := itemSize + keylen + vallen
  if avail = 0 ∨ avail < total then s
  else
    (setLengths keylen vallen s (some ((s.header h).data + off))).setNic h (some (off + total))
      |>.setLog h (s.log h ++ [⟨total, false, false⟩])

/-- The address of the `k`th piece. -/
def State.addr (s : State) (h k : ℕ) : ℕ := (s.header h).data + total ((s.log h).take k)

/-- The `k`th piece, while it is an item that was not freed. -/
def State.live (s : State) (h k : ℕ) : Option Piece :=
  (s.log h)[k]?.bind fun p => if p.filler ∨ p.freed then none else some p

/-- The `k`th piece is freed. -/
def State.setFreed (s : State) (h k : ℕ) : State :=
  s.setLog h ((s.log h).modify k fun p => { p with freed := true })

/-- The bytes of the lengths, within an item. -/
def InLengths (j : ℕ) : Prop := 12 ≤ j ∧ j < 16 ∨ 18 ≤ j ∧ j < 20

instance (j : ℕ) : Decidable (InLengths j) := inferInstanceAs (Decidable (_ ∨ _))

variable (S : Settings)

/-- A call, where it is possible and no assertion fails. -/
def step (s : State) : Call → Option State
  | .initAllocator a malloc =>
    if s.ready a then none
    else (iallocInitAllocator S malloc a s).map fun s =>
      { s with ready := Function.update s.ready a true }
  | .alloc a keylen vallen cleanup malloc =>
    if s.ready a ∧ keylen < 2 ^ 16 ∧ vallen < 2 ^ 32 then
      (iallocAlloc S malloc a (itemSize + keylen + vallen) cleanup s).map fun r =>
        setLengths keylen vallen r.1 r.2
    else none
  | .nicsegmentAlloc a malloc malloc' =>
    if s.ready a then
      (iallocNicsegmentAlloc S malloc malloc' a s).map fun r =>
        (r.2.map fun h => r.1.setNic h (some 0)).getD r.1
    else none
  | .segmentItemAlloc h keylen vallen =>
    if keylen < 2 ^ 16 ∧ vallen < 2 ^ 32 then
      (s.nic h).map fun off => nicItemAlloc h off keylen vallen s
    else none
  | .nicsegmentFull h =>
    (s.nic h).bind fun off =>
      (iallocNicsegmentFull S ((s.header h).data + off) s).map fun r => r.1.setNic h none
  | .free h k =>
    (s.live h k).bind fun p => (iallocFree S (s.addr h k) p.size s).map fun s => s.setFreed h k
  | .write h k j b =>
    (s.live h k).bind fun p =>
      if j < p.size ∧ ¬ InLengths j then
        some { s with mem := Function.update s.mem (s.addr h k + j) b }
      else none
  | .cleanupItem a idle malloc =>
    if s.ready a then (iallocCleanupItem S malloc a idle s).map Prod.fst else none
  | .cleanupNextrequest a => if s.ready a then some (iallocCleanupNextrequest a s) else none
  | .maintenance a => if s.ready a then iallocMaintenance S a s else none

/-- `segment_alloc` has a segment left. -/
def Left (s : State) : Prop := s.freeSegments ≠ none ∨ s.segAlloced < S.segmaxnum

/-- `segment_alloc` has two segments left. -/
def Supplied (s : State) : Prop :=
  s.segAlloced + 1 < S.segmaxnum ∨
    ∃ h, s.freeSegments = some h ∧ ((s.header h).next ≠ none ∨ s.segAlloced < S.segmaxnum)

/-- What a caller sees to before a call: no more than a segment is asked for, and neither
`exit(1)` in `segment_alloc` nor `abort` in `ialloc_init_allocator` is reached. -/
def Possible (s : State) : Call → Prop
  | .initAllocator a malloc => s.ready a = false ∧ malloc = true ∧ Supplied S s
  | .alloc a keylen vallen _ _ => s.ready a = true ∧ keylen < 2 ^ 16 ∧ vallen < 2 ^ 32 ∧
      itemSize + keylen + vallen ≤ S.segsize ∧ Supplied S s
  | .nicsegmentAlloc a _ _ => s.ready a = true ∧ Supplied S s
  | .segmentItemAlloc h keylen vallen => keylen < 2 ^ 16 ∧ vallen < 2 ^ 32 ∧ s.nic h ≠ none
  | .nicsegmentFull h => s.nic h ≠ none
  | .free h k => s.live h k ≠ none
  | .write h k j _ => ∃ p, s.live h k = some p ∧ j < p.size ∧ ¬ InLengths j
  | .cleanupItem a _ _ => s.ready a = true ∧ Supplied S s
  | .cleanupNextrequest a => s.ready a = true
  | .maintenance a => s.ready a = true

/-! ## What is expected -/

/-- The byte `b` of a segment was freed or filled up. -/
def Gone (l : List Piece) (b : ℕ) : Prop :=
  ∃ before p after, l = before ++ p :: after ∧ total before ≤ b ∧ b < total before + p.size ∧
    (p.filler ∨ p.freed)

/-- The segment is on the free list. -/
def OnFreeList (s : State) (h : ℕ) : Prop :=
  ∃ p, s.freeSegments = some p ∧
    Relation.ReflTransGen (fun x y => (s.header x).next = some y) p h

/-- **The log is well formed and accounted.**  A segment that is cleaned is full, and was read
at the boundaries of its items and its filler, one after the other; `freed` counts the bytes that
are freed or filled up; and a segment on the free list is in use nowhere. -/
structure WellFormed (s : State) : Prop where
  scan : ∀ a h, (s.ia a).cleaning = some h → total (s.log h) = (s.header h).size ∧
    ∃ before after, s.log h = before ++ after ∧ (s.ia a).cleanOffset = total before ∧
      (s.ia a).seen = boundaries 0 before
  freed_le : ∀ h, (s.header h).freed ≤ (s.header h).size
  freed_eq : ∀ h, (s.header h).freed = (s.header h).size ↔
    ∀ b < (s.header h).size, Gone (s.log h) b
  free : ∀ h, OnFreeList s h → s.nic h = none ∧ ∀ a, (s.ia a).cur ≠ some h ∧
    (s.ia a).curNic ≠ some h ∧ (s.ia a).oldest ≠ some h ∧ (s.ia a).oldestNic ≠ some h ∧
    (s.ia a).cleaning ≠ some h ∧ (s.ia a).reserved ≠ some h

/-- The room in the current segment. -/
def room (s : State) (h : ℕ) : ℕ := (s.header h).size - (s.header h).offset

/-- The length of a filler fits into `keylen`; a NIC gives a segment back after it put an item
into it; and a segment that is cleaned is not freed as a whole before all of it was read. -/
def Fits (s : State) : Call → Prop
  | .alloc a keylen vallen cleanup _ => ∀ h, (s.ia a).cur = some h →
    ((s.ia a).reserved ≠ none ∨ cleanup = true) → room s h < itemSize + keylen + vallen →
      room s h < itemSize + 2 ^ 16
  | .nicsegmentFull h => ∀ off, s.nic h = some off →
    itemSize ≤ off ∧ (s.header h).size - off < itemSize + 2 ^ 16
  | .maintenance a => ∀ h, (s.ia a).cleaning = some h →
    (s.header h).freed = (s.header h).size → (s.ia a).cleanOffset = (s.header h).size
  | _ => True

instance (s : State) : (c : Call) → Decidable (Fits s c)
  | .initAllocator .. => instDecidableTrue
  | .alloc a keylen vallen cleanup _ => inferInstanceAs (Decidable (∀ h ∈ (s.ia a).cur,
      ((s.ia a).reserved ≠ none ∨ cleanup = true) → room s h < itemSize + keylen + vallen →
        room s h < itemSize + 2 ^ 16))
  | .nicsegmentAlloc .. => instDecidableTrue
  | .segmentItemAlloc .. => instDecidableTrue
  | .nicsegmentFull h => inferInstanceAs (Decidable (∀ off ∈ s.nic h,
      itemSize ≤ off ∧ (s.header h).size - off < itemSize + 2 ^ 16))
  | .free .. => instDecidableTrue
  | .write .. => instDecidableTrue
  | .cleanupItem .. => instDecidableTrue
  | .cleanupNextrequest .. => instDecidableTrue
  | .maintenance a => inferInstanceAs (Decidable (∀ h ∈ (s.ia a).cleaning,
      (s.header h).freed = (s.header h).size → (s.ia a).cleanOffset = (s.header h).size))

end Ialloc
end Floem
