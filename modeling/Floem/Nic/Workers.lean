import Floem.Nic.Window

/-!
# The manager and the workers

`Floem.Nic.Manage` lets any store and any `smart_dma_write` happen at any time.  Here
the workers behave as `enqueue_alloc`, `enqueue_submit`, `dequeue_get` and
`dequeue_release` of `floem-queue.c` do: an entry is obtained once while it is in the
window, is stored to by its worker only, and is finished in two steps, the store of
the flag that makes `done_scan` true and the later `smart_dma_write`.

* `Sys`, `Event`, `sysStep` — the queue with the progress of each entry, and what may
  happen next; entries are named by their tickets.
* `step_of_sysStep` — every event is a step of the queue.
-/

namespace Floem
namespace Nic

open Lib

/-- How far the work on an entry has got. -/
inductive Phase
  /-- No worker has obtained the entry. -/
  | idle
  | working
  /-- Its flag is written, `smart_dma_write` is still to come. -/
  | flagged
  | counted
  deriving DecidableEq, Repr

/-- The queue and the progress of each entry, by ticket. -/
structure Sys (α : Type) where
  q : State α
  phase : ℕ → Phase

/-- What may happen next. -/
inductive Event (α : Type)
  | handleWriting
  | handleReading
  | prefetch (next : Bool)
  | initiateWrite
  | exeWrite
  | dmaRead (i : ℕ) (data : ℕ → α)
  | dmaWrite (i : ℕ)
  /-- A worker asks for an address and takes no entry, as where `smart_dma_read`
  returns `NULL`. -/
  | peek (a : ℕ)
  /-- A worker obtains an entry from `smart_dma_read`. -/
  | obtain (k : ℕ)
  /-- A worker stores to its entry, which stays unfinished. -/
  | store (k : ℕ) (v : α)
  /-- A worker writes the flag that makes `done_scan` true. -/
  | finish (k : ℕ) (v : α)
  /-- A worker calls `smart_dma_write` for an entry it has finished. -/
  | count (k now : ℕ)

namespace Device

variable {α : Type} (D : Device α)

/-- The step of the queue an event is. -/
def actionOf : Event α → Action α
  | .handleWriting => .handleWriting
  | .handleReading => .handleReading
  | .prefetch next => .prefetch next
  | .initiateWrite => .initiateWrite
  | .exeWrite => .exeWrite
  | .dmaRead i data => .dmaRead i data
  | .dmaWrite i => .dmaWrite i
  | .peek a => .smartDmaRead a
  | .obtain k => .smartDmaRead (D.pos k)
  | .store k v => .store (D.blocks.blk k % D.n) (D.offset k) v
  | .finish k v => .store (D.blocks.blk k % D.n) (D.offset k) v
  | .count k now => .smartDmaWrite (D.pos k) now

/-- A worker may do only what its progress allows; an entry is obtained while it is in
the window. -/
def allowed (s : Sys α) : Event α → Bool
  | .obtain k => s.phase k = .idle ∧ s.q.handed.length ≤ k ∧ k < s.q.made.length
  | .store k v => s.phase k = .working ∧ ¬ D.doneScan v
  | .finish k v => s.phase k = .working ∧ D.doneScan v
  | .count k _ => s.phase k = .flagged
  | _ => true

/-- The progress an event makes. -/
def progress (phase : ℕ → Phase) : Event α → ℕ → Phase
  | .obtain k => Function.update phase k .working
  | .finish k _ => Function.update phase k .flagged
  | .count k _ => Function.update phase k .counted
  | _ => phase

/-- One event. -/
def sysStep (fuel : ℕ) (s : Sys α) (e : Event α) : Option (Sys α) := do
  guard (D.allowed s e)
  let q ← D.step fuel s.q (D.actionOf e)
  return ⟨q, progress s.phase e⟩

/-- A new queue and no work done. -/
def sysCreate (buf : ℕ → ℕ → α) (now : ℕ) : Sys α := ⟨D.create buf now, fun _ => .idle⟩

variable {D} {fuel : ℕ} {s t : Sys α} {e : Event α}

/-- An event is allowed, a step of the queue, and the progress it makes. -/
theorem sysStep_eq_some (h : D.sysStep fuel s e = some t) :
    D.allowed s e ∧ D.step fuel s.q (D.actionOf e) = some t.q ∧ t.phase = progress s.phase e := by
  simp only [sysStep, Option.bind_eq_bind, Option.bind_eq_some_iff, Option.guard_eq_some'] at h
  obtain ⟨-, hallowed, q, hq, ht⟩ := h
  cases ht
  exact ⟨hallowed, hq, rfl⟩

/-- **A run of the manager and the workers is a run of the queue.** -/
theorem run_of_sysRun {es : List (Event α)} : ∀ {s : Sys α},
    run (D.sysStep fuel) s es = some t →
      run (D.step fuel) s.q (es.map D.actionOf) = some t.q := by
  induction es with
  | nil => intro s h; cases h; rfl
  | cons e es ih =>
      intro s h
      obtain ⟨u, hu, hrest⟩ := run_cons_eq_some h
      rw [List.map_cons, run_cons, (sysStep_eq_some hu).2.1]
      exact ih hrest

/-- `find_segment` finds the segment of an entry. -/
theorem findSegment_pos (D : Device α) (k : ℕ) :
    D.findSegment (D.pos k) = D.blocks.blk k % D.n := by
  have hmem := D.pos_mem k
  have hsize : D.segAddrMax (D.blocks.blk k % D.n)
      ≤ D.segAddr (D.blocks.blk k % D.n) + D.blockSize := by
    rw [Layout.segAddrMax, Layout.segSize]
    split_ifs <;> omega
  have hpos := D.overlap_pos
  rw [findSegment, Nat.div_eq_iff D.blockSize_pos]
  rw [Layout.segAddr] at hmem hsize
  omega

end Device
end Nic
end Floem
