import Floem.Queue.Entry
import Floem.Nic.Invariant

/-!
# The scan functions of the queues

What `create_dma_circular_queue` is given as `ready_scan` and `done_scan`: the four
functions of `floem/include_cavium/floem-queue.c` that look at the header of an entry.
The NIC has the opposite byte order, so it reads the two bytes of `len` the other way
round.

For both ends of a queue, no entry is ready and finished at once (`Exclusive`).
-/

namespace Floem
namespace Nic

open Queue

variable (m : Mem) (e : ℕ)

/-- `e->len` on the NIC. -/
def nicLen : ℕ := 256 * (m (e + 2)).toNat + (m (e + 3)).toNat

/-- `nic_htons(e->len)`: the length as the host stored it. -/
def hostLen : ℕ := m.len e

def enqueueReadyVar : ℕ :=
  if m.flag e = 0 ∨ m.flag e = FLAG_CLEAN then
    if nicLen m e ≠ 0 then nicLen m e else BUFF_SIZE / 2
  else 0

def enqueueDoneVar : ℕ := if m.flag e = FLAG_OWN then nicLen m e else 0

def dequeueReadyVar : ℕ := if m.flag e = FLAG_OWN ∧ m.pad e = 0xff then hostLen m e else 0

def dequeueReadyVarChecksum : ℕ :=
  if m.flag e = FLAG_OWN ∧ m.pad e = 0xff then
    if m.xorBytes e (hostLen m e) = 0 then hostLen m e else 0
  else 0

def dequeueDoneVar : ℕ :=
  if m.flag e = 0 ∨ m.flag e = FLAG_CLEAN then hostLen m e else 0

/-- The queue of an enqueuing end on the NIC. -/
def enqueueDevice (L : Layout) : Device Mem :=
  { L with
    readyScan := fun m => enqueueReadyVar m 0 ≠ 0
    doneScan := fun m => enqueueDoneVar m 0 ≠ 0 }

/-- The queue of a dequeuing end on the NIC. -/
def dequeueDevice (L : Layout) (checksum : Bool) : Device Mem :=
  { L with
    readyScan := fun m =>
      (if checksum then dequeueReadyVarChecksum m 0 else dequeueReadyVar m 0) ≠ 0
    doneScan := fun m => dequeueDoneVar m 0 ≠ 0 }

/-- An entry that belongs to the dequeuer is neither empty nor to be cleaned. -/
theorem own_ne {v : UInt8} (h : v = FLAG_OWN) : ¬ (v = 0 ∨ v = FLAG_CLEAN) := by
  rw [h]
  decide

/-- **An entry is not both free for an enqueuer and submitted.** -/
theorem enqueueDevice_exclusive (L : Layout) : (enqueueDevice L).Exclusive := by
  intro m hready hdone
  have hready' : enqueueReadyVar m 0 ≠ 0 := of_decide_eq_true hready
  have hdone' : enqueueDoneVar m 0 ≠ 0 := of_decide_eq_true hdone
  rw [enqueueDoneVar] at hdone'
  split_ifs at hdone' with hown
  · rw [enqueueReadyVar, if_neg (own_ne hown)] at hready'
    exact hready' rfl
  · exact hdone' rfl

/-- **An entry is not both submitted and released.** -/
theorem dequeueDevice_exclusive (L : Layout) (checksum : Bool) :
    (dequeueDevice L checksum).Exclusive := by
  intro m hready hdone
  have hready' : (if checksum then dequeueReadyVarChecksum m 0 else dequeueReadyVar m 0) ≠ 0 :=
    of_decide_eq_true hready
  have hdone' : dequeueDoneVar m 0 ≠ 0 := of_decide_eq_true hdone
  have hown : m.flag 0 = FLAG_OWN := by
    by_contra hne
    refine hready' ?_
    cases checksum
    · exact if_neg (fun h : m.flag 0 = FLAG_OWN ∧ _ => hne h.1)
    · exact if_neg (fun h : m.flag 0 = FLAG_OWN ∧ _ => hne h.1)
  rw [dequeueDoneVar, if_neg (own_ne hown)] at hdone'
  exact hdone' rfl

end Nic
end Floem
