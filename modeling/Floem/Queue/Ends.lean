import Mathlib
import Floem.Lib.Run
import Floem.Lib.Window
import Floem.Queue.Circular

/-!
# The two ends of one ring

`Floem.Queue.Circular` models the functions of `queue.h` one by one.  This file
puts the two ends of a queue to work on one storage: a `Ring` fixes the storage
and what the compiler passes to the functions, a `State` is the memory, the two
ends and the history of the run, and `step` is one atomic call by a client of
either end, or one store a client makes into an entry it holds.

Entries are numbered by *tickets*: ticket `k` is the `k`-th entry
`enqueue_alloc` handed out.  `Ring.flagOf` says which flag ticket `k` should show
by its history, `Ring.SlotOk` that the slot of a ticket shows it and holds what
was submitted, and `Ring.Inv` is the ring invariant: the offsets are those of the
tickets next in line, and the slots of the last lap are as they should be.
-/

namespace Floem
namespace Queue

open Lib

/-- The storage of a queue, and what the generated code passes to the functions
of `queue.h`: the flag its `DequeueRelease` stores, the clean function, and
whether `enqueue_submit` computes a checksum. -/
structure Ring where
  /-- The number of slots. -/
  slots : ℕ
  /-- The size of a slot in bytes. -/
  entrySize : ℕ
  /-- The address of the storage. -/
  queue : ℕ
  /-- The flag a release stores: `0`, or `FLAG_CLEAN` for a queue with a clean
  function. -/
  flagClean : UInt8
  /-- What the clean function does to memory. -/
  cleanFunc : Mem → ℕ → Mem
  /-- The `check` argument of `enqueue_submit`. -/
  check : Bool
  flagClean_eq : flagClean = 0 ∨ flagClean = FLAG_CLEAN
  /-- The clean function works on the content of the entry it is given. -/
  cleanFunc_frame : ∀ m e x, x < e + headerSize ∨ e + entrySize ≤ x → cleanFunc m e x = m x

/-- What a client of either end may do next. -/
inductive Action
  /-- The enqueuer reserves an entry of `len` bytes. -/
  | alloc (len gap : ℕ)
  /-- The enqueuer stores a byte into an entry it reserved. -/
  | produce (k i : ℕ) (b : UInt8)
  /-- The enqueuer submits an entry it reserved. -/
  | submit (k : ℕ)
  /-- The dequeuer asks for an entry. -/
  | get
  /-- The dequeuer stores a byte into an entry it holds. -/
  | consume (k i : ℕ) (b : UInt8)
  /-- The dequeuer gives an entry back. -/
  | release (k : ℕ)
  deriving DecidableEq, Repr

/-- Memory, the two ends, and the history of the run. -/
structure State where
  mem : Mem
  enq : CircularQueue
  deq : CircularQueue
  /-- The entries handed out by `enqueue_alloc`, in order. -/
  issued : List ℕ
  /-- The content a ticket had when it was submitted. -/
  sent : ℕ → Option (UInt8 × List UInt8)
  /-- The entries returned by `dequeue_get` with their content then, in order. -/
  got : List (ℕ × (UInt8 × List UInt8))
  /-- The tickets that were released. -/
  released : ℕ → Bool
  /-- The entries the clean function was called on, in order. -/
  cleaned : List ℕ

namespace Ring

variable (R : Ring)

/-- The address of the slot ticket `k` lives in. -/
def slotOf (k : ℕ) : ℕ := R.queue + k % R.slots * R.entrySize

/-- An end of the ring whose next ticket is `k`, and whose next ticket to clean
is `c`. -/
def endAt (k c : ℕ) : CircularQueue where
  len := R.slots * R.entrySize
  offset := k % R.slots * R.entrySize
  queue := R.queue
  clean := c % R.slots * R.entrySize
  entrySize := R.entrySize

/-- The two ends just created, on zeroed storage. -/
def init (mem : Mem) : State where
  mem := mem
  enq := ⟨R.slots * R.entrySize, 0, R.queue, 0, R.entrySize⟩
  deq := ⟨R.slots * R.entrySize, 0, R.queue, 0, R.entrySize⟩
  issued := []
  sent := fun _ => none
  got := []
  released := fun _ => false
  cleaned := []

/-- The storage is zero. -/
def Zeroed (mem : Mem) : Prop :=
  ∀ x, R.queue ≤ x → x < R.queue + R.slots * R.entrySize → mem x = 0

/-- The bytes of an entry its holder may store to: the `task` byte and those
behind the header. -/
def Writable (i : ℕ) : Prop := i = 1 ∨ headerSize ≤ i ∧ i < R.entrySize

instance (i : ℕ) : Decidable (R.Writable i) := inferInstanceAs (Decidable (_ ∨ _))

/-- Rounds of the clean loop that are enough for one lap. -/
def cleanFuel : ℕ := R.slots + 1

/-- An `enqueue_alloc` that consults the entry `check`. -/
def allocAt (s : State) (len check : ℕ) : Option State := do
  guard (headerSize ≤ len ∧ len ≤ R.entrySize)
  let (m, q, buff, calls) ← enqueueAllocAt R.cleanFunc R.cleanFuel s.mem s.enq len check
  return { s with mem := m, enq := q, issued := s.issued ++ buff.entry.toList,
                  cleaned := s.cleaned ++ calls }

/-- One call, or one store of a holder. -/
def step (s : State) : Action → Option State
  | .alloc len gap => do
      guard (headerSize ≤ len ∧ len ≤ R.entrySize)
      let (m, q, buff, calls) ← enqueueAlloc R.cleanFunc R.cleanFuel s.mem s.enq len gap
      return { s with mem := m, enq := q, issued := s.issued ++ buff.entry.toList,
                      cleaned := s.cleaned ++ calls }
  | .produce k i b => do
      let e ← s.issued[k]?
      guard (s.sent k = none ∧ R.Writable i)
      return { s with mem := s.mem.set (e + i) b }
  | .submit k => do
      let e ← s.issued[k]?
      guard (s.sent k = none)
      let m ← enqueueSubmit s.mem ⟨some e, 0⟩ R.check
      return { s with mem := m,
                      sent := Function.update s.sent k (some (s.mem.content R.entrySize e)) }
  | .get => do
      let (m, q, buff) ← dequeueGet s.mem s.deq
      return { s with mem := m, deq := q,
                      got := s.got ++ buff.entry.toList.map fun e => (e, m.content R.entrySize e) }
  | .consume k i b => do
      let g ← s.got[k]?
      guard (s.released k = false ∧ R.Writable i)
      return { s with mem := s.mem.set (g.1 + i) b }
  | .release k => do
      let g ← s.got[k]?
      guard (s.released k = false)
      let m ← dequeueRelease s.mem ⟨some g.1, 0⟩ R.flagClean
      return { s with mem := m, released := Function.update s.released k true }

/-! ## The ring invariant -/

/-- The flag the slot of ticket `k` should show, by the history of the ticket. -/
def flagOf (s : State) (k : ℕ) : UInt8 :=
  if k < s.cleaned.length then 0
  else if s.released k then R.flagClean
  else if k < s.got.length then 5
  else if (s.sent k).isSome then FLAG_OWN
  else FLAG_INUSE

/-- The slot of ticket `k` shows its flag; while the ticket waits for the
dequeuer its length is not zero, if every length that is rounded up fits the 16-bit
field, and once submitted it holds what was sent. -/
structure SlotOk (s : State) (k : ℕ) : Prop where
  flag : s.mem.flag (R.slotOf k) = R.flagOf s k
  len : R.entrySize ≤ 65528 → s.got.length ≤ k → s.mem.len (R.slotOf k) ≠ 0
  sent : s.got.length ≤ k → ∀ c, s.sent k = some c →
    s.mem.pad (R.slotOf k) = 0xff ∧ s.mem.content R.entrySize (R.slotOf k) = c

/-- The invariant of a ring at work. -/
structure Inv (s : State) : Prop where
  /-- Entries were handed out only if there are slots and they hold a header. -/
  sizes : s.issued ≠ [] → 0 < R.slots ∧ headerSize ≤ R.entrySize
  enq_eq : s.enq = R.endAt s.issued.length s.cleaned.length
  deq_eq : s.deq = R.endAt s.got.length 0
  got_le : s.got.length ≤ s.issued.length
  issued_eq : ∀ k e, s.issued[k]? = some e → e = R.slotOf k
  got_eq : ∀ k g, s.got[k]? = some g → g.1 = R.slotOf k ∧ s.sent k = some g.2
  cleaned_eq : ∀ k e, s.cleaned[k]? = some e → e = R.slotOf k ∧ s.released k = true
  cleaned_flag : R.flagClean = 0 → s.cleaned = []
  released_lt : ∀ k, s.released k = true → k < s.got.length
  sent_lt : ∀ k, (s.sent k).isSome → k < s.issued.length
  /-- A ticket whose slot was handed out again had been freed. -/
  reused : ∀ k, k + R.slots < s.issued.length → R.flagOf s k = 0
  /-- The tickets of the last lap. -/
  live : ∀ k, k < s.issued.length → s.issued.length ≤ k + R.slots → R.SlotOk s k
  /-- The slots no ticket has reached yet. -/
  fresh : 0 < R.entrySize → ∀ k, k < R.slots → s.issued.length ≤ k →
    s.mem.flag (R.slotOf k) = 0

end Ring

end Queue
end Floem
