import Mathlib
import Floem.Lib.Run
import Floem.Lib.Window
import Floem.Queue.Entry

/-!
# Queues with a status field: the generated code

The C code that `queue_custom` of `floem/queue.py` generates for a CPU with
`enq_atomic` and `deq_atomic`, one instruction at a time: each load, store and
compare-and-swap on shared memory is one step of the thread that does it.

* `PC` — where a thread is.  An `Enqueue` and a `Dequeue` take their slot in the same
  way, with different values of the status field (`Side.free`, `Side.lock`): the
  non-blocking code locks the slot and then advances the offset (`tryLock`, `advance`,
  `undo`), the blocking code advances the offset and then waits for the slot (`loop`,
  `check`, `claim`).
* `exec` — the next instruction of a thread.
* `step` — a thread starts a call, goes on with it, releases the entry it dequeued or
  gives it to another thread.

Each thread that advances an offset draws a ticket: the number of times that offset was
advanced before.  Tickets, and what was taken with them, are history and no part of the
code.
-/

namespace Floem
namespace Custom

open Lib Queue

/-- The arguments of `queue_custom`: the number of entries, and the offsets of the
status field and of the checksum field, if there is one. -/
structure Config where
  size : ℕ
  typeOffset : ℕ
  checksum : Option ℕ
  size_pos : 0 < size
  /-- `assert(type_offset > 0)`. -/
  typeOffset_pos : 0 < typeOffset
  checksum_ne : checksum ≠ some typeOffset

/-- The two ends of the queue. -/
inductive Side
  | enq | deq
  deriving DecidableEq, Repr

/-- The status a slot must have to be taken. -/
def Side.free : Side → UInt8
  | .enq => 0
  | .deq => FLAG_OWN

/-- The status a slot gets when it is taken. -/
def Side.lock : Side → UInt8
  | .enq => FLAG_INUSE
  | .deq => FLAG_OWN ||| FLAG_INUSE

/-- What a thread does: enqueue the entry at `x`, byte by byte, or dequeue. -/
inductive Job
  | enq (x : ℕ → UInt8)
  | deq

def Job.side : Job → Side
  | .enq _ => .enq
  | .deq => .deq

/-- The next instruction of a thread; `old` and `x` are its local variables, `k` is its
ticket. -/
inductive PC
  | idle
  /-- `old = p->offset`. -/
  | read (j : Job) (blocking : Bool)
  /-- Non-blocking: the compare-and-swap of the status. -/
  | tryLock (j : Job) (old : ℕ)
  /-- Non-blocking: the compare-and-swap of the offset. -/
  | advance (j : Job) (old : ℕ)
  /-- Non-blocking: the status is set back. -/
  | undo (j : Job) (old : ℕ)
  /-- Blocking: the compare-and-swap of the offset. -/
  | loop (j : Job) (old : ℕ)
  /-- Blocking: the load of the status in the condition of the loop. -/
  | check (j : Job) (old k : ℕ)
  /-- Blocking: the compare-and-swap of the status. -/
  | claim (j : Job) (old k : ℕ)
  /-- `memcpy(content, x, type_offset)`, at byte `i`. -/
  | copy (x : ℕ → UInt8) (old k i : ℕ)
  /-- `content->status = FLAG_OWN`. -/
  | own (old k : ℕ)
  /-- The checksum loop at byte `i`, and the store of the checksum after it. -/
  | sum (old k i : ℕ) (acc : UInt8)
  /-- The entry is dequeued and not yet released. -/
  | hold (old k : ℕ)
  /-- `x->checksum = 0`. -/
  | clearSum (old k : ℕ)
  /-- `x->status = 0`. -/
  | clear (old k : ℕ)

/-- The queue, its threads, and the history. -/
structure State where
  /-- The bytes of each slot. -/
  data : ℕ → ℕ → UInt8
  offset : Side → ℕ
  pc : ℕ → PC
  /-- The entries of the enqueuers, by ticket. -/
  entered : List (ℕ → UInt8)
  /-- How often the dequeue offset was advanced. -/
  left : ℕ
  /-- The slots that were taken by dequeuers, in order: ticket and bytes. -/
  out : List (ℕ × (ℕ → UInt8))
  /-- How often each slot was taken on each side. -/
  claimed : Side → ℕ → ℕ
  /-- How often each slot was released. -/
  released : ℕ → ℕ

namespace State

variable (s : State)

/-- The next ticket of a side. -/
def tickets : Side → ℕ
  | .enq => s.entered.length
  | .deq => s.left

def goto (t : ℕ) (p : PC) : State := { s with pc := Function.update s.pc t p }

/-- Store one byte of slot `x`. -/
def store (x i : ℕ) (v : UInt8) : State :=
  { s with data := Function.update s.data x (Function.update (s.data x) i v) }

/-- A ticket is drawn. -/
def draw (C : Config) (j : Job) : State :=
  { s with
    offset := Function.update s.offset j.side ((s.offset j.side + 1) % C.size)
    entered := match j with
      | .enq x => s.entered ++ [x]
      | .deq => s.entered
    left := match j with
      | .enq _ => s.left
      | .deq => s.left + 1 }

/-- The slot `old` is taken with ticket `k`. -/
def take (j : Job) (old k : ℕ) : State :=
  { s with
    claimed := Function.update s.claimed j.side
      (Function.update (s.claimed j.side) old (s.claimed j.side old + 1))
    out := match j with
      | .enq _ => s.out
      | .deq => s.out ++ [(k, s.data old)] }

@[simp] theorem tickets_draw (C : Config) (j : Job) (sd : Side) :
    (s.draw C j).tickets sd = s.tickets sd + if sd = j.side then 1 else 0 := by
  cases j <;> cases sd <;> simp [tickets, draw, Job.side]

theorem entered_draw (C : Config) (j : Job) (k : ℕ) (c : ℕ → UInt8) (h : s.entered[k]? = some c) :
    (s.draw C j).entered[k]? = some c := by
  cases j with
  | enq x =>
      have hlt : k < s.entered.length := (List.getElem?_eq_some_iff.1 h).1
      simp only [draw]
      rw [List.getElem?_append_left hlt, h]
  | deq => exact h

theorem claimed_take (j : Job) (x k : ℕ) (sd : Side) (y : ℕ) :
    (s.take j x k).claimed sd y = s.claimed sd y + if sd = j.side ∧ y = x then 1 else 0 := by
  by_cases hsd : sd = j.side
  · subst hsd
    by_cases hy : y = x
    · subst hy; simp [take]
    · simp [take, hy]
  · simp [take, hsd]

/-- A store changes one byte. -/
theorem data_store (x i : ℕ) (v : UInt8) (y b : ℕ) :
    (s.store x i v).data y b = if y = x ∧ b = i then v else s.data y b := by
  by_cases hy : y = x
  · subst hy
    by_cases hb : b = i
    · subst hb; simp [store]
    · simp [store, hb]
  · simp [store, hy]

end State

/-- The first instruction after the slot is taken. -/
def Job.begin : Job → ℕ → ℕ → PC
  | .enq x, old, k => .copy x old k 0
  | .deq, old, k => .hold old k

namespace Config

variable (C : Config)

/-- The status field of slot `x`. -/
def status (s : State) (x : ℕ) : UInt8 := s.data x C.typeOffset

/-- The zero-initialised queue. -/
def create : State where
  data _ _ := 0
  offset _ := 0
  pc _ := .idle
  entered := []
  left := 0
  out := []
  claimed _ _ := 0
  released _ := 0

/-- The next instruction of thread `t`. -/
def exec (s : State) (t : ℕ) : Option State :=
  match s.pc t with
  | .idle => none
  | .read j blocking =>
      if blocking then some (s.goto t (.loop j (s.offset j.side)))
      else some (s.goto t (.tryLock j (s.offset j.side)))
  | .tryLock j old =>
      if C.status s old = j.side.free then
        some ((s.store old C.typeOffset j.side.lock).goto t (.advance j old))
      else some (s.goto t .idle)
  | .advance j old =>
      if s.offset j.side = old then
        let k := s.tickets j.side
        some (((s.draw C j).take j old k).goto t (j.begin old k))
      else some (s.goto t (.undo j old))
  | .undo j old => some ((s.store old C.typeOffset j.side.free).goto t .idle)
  | .loop j old =>
      if s.offset j.side = old then
        some ((s.draw C j).goto t (.check j old (s.tickets j.side)))
      else some (s.goto t (.read j true))
  | .check j old k =>
      if C.status s old = j.side.free then some (s.goto t (.claim j old k))
      else some (s.goto t (.check j old k))
  | .claim j old k =>
      if C.status s old = j.side.free then
        some (((s.store old C.typeOffset j.side.lock).take j old k).goto t (j.begin old k))
      else some (s.goto t (.check j old k))
  | .copy x old k i =>
      let s := s.store old i (x i)
      if i + 1 < C.typeOffset then some (s.goto t (.copy x old k (i + 1)))
      else some (s.goto t (.own old k))
  | .own old k =>
      let s := s.store old C.typeOffset FLAG_OWN
      match C.checksum with
      | none => some (s.goto t .idle)
      | some _ => some (s.goto t (.sum old k 0 0))
  | .sum old k i acc =>
      match C.checksum with
      | none => none
      | some n =>
          if i < n then some (s.goto t (.sum old k (i + 1) (acc ^^^ s.data old i)))
          else some ((s.store old n acc).goto t .idle)
  | .hold _ _ => none
  | .clearSum old k =>
      match C.checksum with
      | none => none
      | some n => some ((s.store old n 0).goto t (.clear old k))
  | .clear old _ =>
      let s := { s with released := Function.update s.released old (s.released old + 1) }
      some ((s.store old C.typeOffset 0).goto t .idle)

end Config

/-- What may happen next. -/
inductive Action
  /-- Thread `t` calls `Enqueue` or `Dequeue`. -/
  | start (t : ℕ) (j : Job) (blocking : Bool)
  /-- Thread `t` does its next instruction. -/
  | step (t : ℕ)
  /-- Thread `t` calls `Release` for the entry it has. -/
  | release (t : ℕ)
  /-- Thread `t` gives the entry it has to thread `u`. -/
  | give (t u : ℕ)

namespace Config

variable (C : Config)

def step (s : State) : Action → Option State
  | .start t j blocking =>
      match s.pc t with
      | .idle => some (s.goto t (.read j blocking))
      | _ => none
  | .step t => C.exec s t
  | .release t =>
      match s.pc t, C.checksum with
      | .hold old k, some _ => some (s.goto t (.clearSum old k))
      | .hold old k, none => some (s.goto t (.clear old k))
      | _, _ => none
  | .give t u =>
      match s.pc t, s.pc u with
      | .hold old k, .idle => some ((s.goto t .idle).goto u (.hold old k))
      | _, _ => none

end Config
end Custom
end Floem
