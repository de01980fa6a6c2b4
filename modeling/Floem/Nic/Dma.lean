import Mathlib
import Floem.Lib.Run

/-!
# Completion words of DMA transfers

`dma_read_with_buf`, `dma_write`, their flushes, `dma_complete` and
`dma_release_comp` of `floem/include_cavium/floem-dma.c` with `RUNTIME` defined.
Transfers are collected into batches; a batch has one completion word, which the
hardware clears when the whole batch is done, and one index into `comps` and
`refcount`, which every non-blocking call of the batch returns.

* `State` — the static variables of one core, and the words handed out by
  `cvm_get_dma_comp_ptr`, numbered in the order they were handed out.
* `transfer` — a read or a write; both are the same code on variables of their own.
* `Action` — a call, the completion of a batch, or a client that asks for and then
  releases an index it was given.

Addresses, lengths and buffers play no part in the bookkeeping and are left out, as
are the retries while the hardware takes no command.
-/

namespace Floem
namespace Nic
namespace Dma

open Lib

/-! ## State -/

/-- `MAX_COMP`. -/
def MAX_COMP : ℕ := 1028

/-- `PUSH_CYCLE`. -/
def PUSH_CYCLE : ℕ := 1

/-- The rounds of the loop in which a blocking call waits for its word. -/
def waitRounds : ℕ := 10000

/-- The variables of `dma_read_with_buf` have the suffix `_r`, those of `dma_write` the
suffix `_w`. -/
inductive Side
  | read
  | write
  deriving DecidableEq, Repr

/-- `MAX_READ` and `MAX_WRITE`. -/
def Side.max : Side → ℕ
  | read => 4
  | write => 8

/-- `n_read`, `comp_r` and the static `myindex` of `dma_read_with_buf`, and those of
`dma_write`; `myindex` is `none` for `-1`. -/
structure Chan where
  n : ℕ
  comp : ℕ
  index : Option ℕ
  deriving DecidableEq, Repr

/-- A completion word: the transfers collected for it, the number of them in the
command once that was issued, whether the hardware cleared `comp_byte`, and how often
the word was released. -/
structure Word where
  transfers : ℕ
  sent : Option ℕ
  cleared : Bool
  released : ℕ
  deriving DecidableEq, Repr

/-- The static variables, the words, and for each index the clients that were given
it: those that wait, and those `dma_complete` reported completion to. -/
structure State where
  compId : ℕ
  comps : ℕ → Option ℕ
  refcount : ℕ → ℕ
  chan : Side → Chan
  word : ℕ → Word
  /-- The number of words handed out by `cvm_get_dma_comp_ptr`. -/
  words : ℕ
  waiting : ℕ → ℕ
  reported : ℕ → ℕ

/-- Nothing was called yet. -/
def init : State where
  compId := 0
  comps _ := none
  refcount _ := 0
  chan _ := ⟨0, 0, none⟩
  word _ := ⟨0, none, false, 0⟩
  words := 0
  waiting _ := 0
  reported _ := 0

namespace State

variable (s : State)

def setChan (d : Side) (c : Chan) : State := { s with chan := Function.update s.chan d c }

def modifyWord (w : ℕ) (f : Word → Word) : State :=
  { s with word := Function.update s.word w (f (s.word w)) }

/-! ## The code -/

/-- `do comp_id = (comp_id + 1) % MAX_COMP; while(comps[comp_id]);`, for at most `fuel`
rounds. -/
def findComp : ℕ → ℕ → Option ℕ
  | 0, _ => none
  | fuel + 1, i =>
    let i := (i + 1) % MAX_COMP
    if (s.comps i).isSome then findComp fuel i else some i

/-- What a call does if it finds no batch open: choose an index, unless the call
blocks, and get a word. -/
def openBatch (d : Side) (block : Bool) : Option State := do
  let s ← if block then some s else do
    let i ← s.findComp MAX_COMP s.compId
    pure (({ s with compId := i }).setChan d { s.chan d with index := some i })
  let w := s.words
  let s := { s with words := w + 1, word := Function.update s.word w ⟨0, none, false, 0⟩ }
  let s := s.setChan d { s.chan d with comp := w }
  if block then return s
  let i ← (s.chan d).index
  guard (s.refcount i = 0)
  return { s with comps := Function.update s.comps i (some w) }

/-- `__sync_fetch_and_add32(&refcount[myindex], 1)`. -/
def retain (d : Side) : Option State := do
  let i ← (s.chan d).index
  return { s with refcount := Function.update s.refcount i (s.refcount i + 1) }

/-- Fill in the buffer pointers of the next transfer: `n_read++`. -/
def enlist (d : Side) : State :=
  (s.modifyWord (s.chan d).comp fun w => { w with transfers := w.transfers + 1 }).setChan d
    { s.chan d with n := (s.chan d).n + 1 }

/-- Give the command with all transfers collected to the hardware. -/
def issue (d : Side) : State :=
  (s.modifyWord (s.chan d).comp fun w => { w with sent := some (s.chan d).n }).setChan d
    { s.chan d with n := 0 }

/-- Wait for the word of a command the hardware completes after `delay` rounds, but no
longer than the loop lasts. -/
def await (d : Side) (delay : ℕ) : State :=
  if delay < waitRounds then
    s.modifyWord (s.chan d).comp fun w => { w with cleared := true }
  else s

/-- `cvm_release_dma_comp_ptr`. -/
def releaseWord (w : ℕ) : State :=
  s.modifyWord w fun w => { w with released := w.released + 1 }

/-- The common body of `dma_read_with_buf` and `dma_write`. -/
def transfer (d : Side) (block : Bool) (delay : ℕ) : Option State := do
  let s ← if (s.chan d).n = 0 then s.openBatch d block else some s
  let s ← if block then some s else s.retain d
  let s := s.enlist d
  let s := if block ∨ (s.chan d).n = d.max then s.issue d else s
  return if block then (s.await d delay).releaseWord (s.chan d).comp else s

/-- `dma_read_with_buf`. -/
def dmaReadWithBuf (block : Bool) (delay : ℕ) : Option State := s.transfer .read block delay

/-- `dma_write`. -/
def dmaWrite (block : Bool) (delay : ℕ) : Option State := s.transfer .write block delay

/-- The common body of the flushes, `elapsed` cycles after the batch was opened. -/
def flush (d : Side) (elapsed : ℕ) : State :=
  if (s.chan d).n = 0 then s else if elapsed < PUSH_CYCLE then s else s.issue d

/-- `dma_read_flush`. -/
def dmaReadFlush (elapsed : ℕ) : State := s.flush .read elapsed

/-- `dma_write_flush`. -/
def dmaWriteFlush (elapsed : ℕ) : State := s.flush .write elapsed

/-- `dma_complete` for an index that was returned; `none` if it follows a null
pointer. -/
def dmaComplete (i : ℕ) : Option Bool := (s.comps i).map fun w => (s.word w).cleared

/-- `dma_release_comp`. -/
def dmaReleaseComp (i : ℕ) : Option State := do
  guard (s.refcount i > 0)
  let ref := s.refcount i
  let s := { s with refcount := Function.update s.refcount i (s.refcount i - 1) }
  if ref = 1 then
    let w ← s.comps i
    let s := s.releaseWord w
    return { s with comps := Function.update s.comps i none }
  return s

/-! ## Clients and hardware -/

/-- A non-blocking call returned its index to a client. -/
def hand (d : Side) : Option State := do
  let i ← (s.chan d).index
  return { s with waiting := Function.update s.waiting i (s.waiting i + 1) }

end State

/-- What may happen next. -/
inductive Action
  /-- A call of `dma_read_with_buf`; if it blocks, the hardware completes the batch
  after `delay` rounds of waiting. -/
  | read (block : Bool) (delay : ℕ)
  | write (block : Bool) (delay : ℕ)
  | readFlush (elapsed : ℕ)
  | writeFlush (elapsed : ℕ)
  /-- The hardware completes a command and clears its word. -/
  | complete (w : ℕ)
  /-- A client asks `dma_complete` about an index it was given. -/
  | ask (i : ℕ)
  /-- A client to which completion was reported calls `dma_release_comp`. -/
  | release (i : ℕ)
  deriving DecidableEq, Repr

/-- One call, or one completion. -/
def step (s : State) : Action → Option State
  | .read block delay => do
      let t ← s.dmaReadWithBuf block delay
      if block then return t else t.hand .read
  | .write block delay => do
      let t ← s.dmaWrite block delay
      if block then return t else t.hand .write
  | .readFlush elapsed => some (s.dmaReadFlush elapsed)
  | .writeFlush elapsed => some (s.dmaWriteFlush elapsed)
  | .complete w => do
      guard (w < s.words ∧ (s.word w).sent.isSome ∧ (s.word w).cleared = false)
      return s.modifyWord w fun w => { w with cleared := true }
  | .ask i => do
      guard (0 < s.waiting i)
      let fin ← s.dmaComplete i
      if fin then
        return { s with waiting := Function.update s.waiting i (s.waiting i - 1),
                        reported := Function.update s.reported i (s.reported i + 1) }
      else return s
  | .release i => do
      guard (0 < s.reported i)
      let t ← s.dmaReleaseComp i
      return { t with reported := Function.update t.reported i (t.reported i - 1) }

end Dma
end Nic
end Floem
