import Floem.Lib.Run
import Floem.Queue.Entry

/-!
# The circular queue of the CPU

The functions of `floem/include/queue.h`, statement by statement: `enqueue_clean`,
`enqueue_alloc`, `enqueue_submit`, `dequeue_get` and `dequeue_release`, with the
readiness tests and the flag checks they use.

An end of a queue (`CircularQueue`) holds a byte offset into the storage; the
two ends share the storage and nothing else.  A failed assertion, or following a
null pointer, is the value `none`; a null `q_buffer` is one whose `entry` is
`none`.  Sizes and offsets are natural numbers: a queue's storage fits the
address space, so `size_t` arithmetic on it does not wrap.  `clflush` and
`__sync_synchronize` change no byte and are left out.
-/

namespace Floem
namespace Queue

/-- `circular_queue`: one end of a queue.  `clean` is the offset of the next slot
to clean, and is used by the enqueue end only. -/
structure CircularQueue where
  len : ℕ
  offset : ℕ
  queue : ℕ
  clean : ℕ
  entrySize : ℕ
  deriving DecidableEq, Repr

/-- `q_buffer`: the entry an operation hands out, `none` for `NULL`. -/
structure QBuffer where
  entry : Option ℕ
  addr : ℕ
  deriving DecidableEq, Repr

/-- `{ NULL, 0 }`. -/
def QBuffer.null : QBuffer := ⟨none, 0⟩

/-- `ALIGN`. -/
def ALIGN : ℕ := 8

/-- `(len + ALIGN - 1) & ~(ALIGN - 1)`. -/
def alignUp (len : ℕ) : ℕ := (len + (ALIGN - 1)) / ALIGN * ALIGN

/-! ## Tests and checks -/

/-- `dequeue_ready_var`: the recorded length when the entry is ready, else `0`. -/
def dequeueReadyVar (m : Mem) (e : ℕ) : ℕ :=
  if m.pad e ≠ 0xff then 0
  else if m.flag e &&& 0xf0 ≠ 0 then 0
  else if m.flag e = FLAG_OWN then m.len e else 0

/-- `dequeue_ready_var_checksum`: as `dequeue_ready_var`, and the bytes of the
entry must `xor` to zero. -/
def dequeueReadyVarChecksum (m : Mem) (e : ℕ) : ℕ :=
  if m.pad e ≠ 0xff then 0
  else if m.flag e &&& 0xf0 ≠ 0 then 0
  else if m.flag e = FLAG_OWN then (if m.xorBytes e (m.len e) = 0 then m.len e else 0)
  else 0

/-- The assertion of `check_flag`. -/
def checkFlag (m : Mem) (e : ℕ) : Option Unit := guard (m.flag e &&& 0xf0 = 0)

/-- The assertion of `check_flag_val`. -/
def checkFlagVal (m : Mem) (e : ℕ) (val : UInt8) : Option Unit := guard (m.flag e = val)

/-- `x += q->entry_size; if(x + q->entry_size > q->len) x = 0;`, the step of
`q->offset` and of `q->clean`. -/
def CircularQueue.advance (q : CircularQueue) (x : ℕ) : ℕ :=
  if x + q.entrySize + q.entrySize > q.len then 0 else x + q.entrySize

/-! ## Cleaning -/

/-- The loop of `enqueue_clean`: clean slot after slot, from `q->clean` on, until
one is not in state `FLAG_CLEAN`.  Returns the entries handed to `clean_func`, in
order; `none` when the fuel runs out or a check fails. -/
def enqueueCleanLoop (cleanFunc : Mem → ℕ → Mem) :
    ℕ → Mem → CircularQueue → Option (Mem × CircularQueue × List ℕ)
  | 0, _, _ => none
  | fuel + 1, m, q => do
    let eqe := q.queue + q.clean
    checkFlag m eqe
    if m.flag eqe ≠ FLAG_CLEAN then return (m, q, [])
    let m := (cleanFunc m eqe).setFlag eqe 0
    let q := { q with clean := q.advance q.clean }
    let (m, q, calls) ← enqueueCleanLoop cleanFunc fuel m q
    return (m, q, eqe :: calls)

/-- `enqueue_clean`. -/
def enqueueClean (cleanFunc : Mem → ℕ → Mem) (fuel : ℕ) (m : Mem) (q : CircularQueue) :
    Option (Mem × CircularQueue × List ℕ) := do
  guard (q.clean < q.len)
  enqueueCleanLoop cleanFunc fuel m q

/-! ## Enqueueing -/

/-- `while(offset > q->len) offset -= q->len;` -/
def wrapGap (len offset : ℕ) : ℕ :=
  if 0 < len ∧ len < offset then wrapGap len (offset - len) else offset
termination_by offset

/-- The entry `enqueue_alloc` consults besides the one it hands out. -/
def gapEntry (q : CircularQueue) (gap : ℕ) : ℕ :=
  if 0 < gap then q.queue + wrapGap q.len (q.offset + gap * q.entrySize) else q.queue + q.offset

/-- `enqueue_alloc` with the entry `check` that it consults.  Besides memory, the queue
end and the buffer it returns the entries that were cleaned on the way. -/
def enqueueAllocAt (cleanFunc : Mem → ℕ → Mem) (fuel : ℕ) (m : Mem) (q : CircularQueue)
    (len check : ℕ) : Option (Mem × CircularQueue × QBuffer × List ℕ) := do
  guard (q.offset < q.len)
  guard (len ≤ q.entrySize)
  let eqe := q.queue + q.offset
  let len := alignUp len
  let (m, q, calls) ←
    if m.flag eqe = FLAG_CLEAN then enqueueClean cleanFunc fuel m q else some (m, q, [])
  if m.flag eqe = 0 ∧ (m.flag check = 0 ∨ m.flag check = FLAG_CLEAN) then
    let m := ((m.setLen eqe len).setFlag eqe FLAG_INUSE).setTask eqe 0
    return (m, { q with offset := q.advance q.offset }, ⟨some eqe, 0⟩, calls)
  else
    return (m, q, QBuffer.null, calls)

/-- `enqueue_alloc`. -/
def enqueueAlloc (cleanFunc : Mem → ℕ → Mem) (fuel : ℕ) (m : Mem) (q : CircularQueue)
    (len gap : ℕ) : Option (Mem × CircularQueue × QBuffer × List ℕ) :=
  enqueueAllocAt cleanFunc fuel m q len (gapEntry q gap)

/-- `enqueue_submit`. -/
def enqueueSubmit (m : Mem) (buff : QBuffer) (check : Bool) : Option Mem :=
  match buff.entry with
  | none => some m
  | some e => do
    checkFlag m e
    let m := ((m.setFlag e FLAG_OWN).setPad e 0xff).setChecksum e 0
    let checksum := if check then m.xorBytes e (m.len e) else 0
    return m.setChecksum e checksum

/-! ## Dequeueing -/

/-- `dequeue_get`. -/
def dequeueGet (m : Mem) (q : CircularQueue) : Option (Mem × CircularQueue × QBuffer) := do
  guard (q.offset < q.len)
  let eqe := q.queue + q.offset
  if dequeueReadyVar m eqe ≠ 0 then
    checkFlag m eqe
    checkFlagVal m eqe 1
    let m := m.setFlag eqe (m.flag eqe ||| FLAG_INUSE)
    checkFlagVal m eqe 5
    return (m, { q with offset := q.advance q.offset }, ⟨some eqe, 0⟩)
  else
    return (m, q, QBuffer.null)

/-- `dequeue_release`. -/
def dequeueRelease (m : Mem) (buff : QBuffer) (flagClean : UInt8) : Option Mem :=
  match buff.entry with
  | none => none
  | some e => do
    checkFlagVal m e 5
    return ((m.setPad e 0).setChecksum e 0).setFlag e flagClean

/-! ## What the calls do -/

/-- An entry that is ready is marked in use and handed to the dequeuer. -/
theorem dequeueGet_of_ready {m : Mem} {q : CircularQueue} (hoff : q.offset < q.len)
    (hpad : m.pad (q.queue + q.offset) = 0xff) (hflag : m.flag (q.queue + q.offset) = FLAG_OWN)
    (hlen : m.len (q.queue + q.offset) ≠ 0) :
    dequeueGet m q = some (m.setFlag (q.queue + q.offset) 5,
      { q with offset := q.advance q.offset }, ⟨some (q.queue + q.offset), 0⟩) := by
  have hready : dequeueReadyVar m (q.queue + q.offset) ≠ 0 := by
    rw [dequeueReadyVar, if_neg (by simp [hpad]), if_neg (by rw [hflag]; decide), if_pos hflag]
    exact hlen
  have hone : m.flag (q.queue + q.offset) = 1 := hflag
  have hor : (1 : UInt8) ||| FLAG_INUSE = 5 := by decide
  have hand : (1 : UInt8) &&& 240 = 0 := by decide
  simp [dequeueGet, checkFlag, checkFlagVal, hoff, hready, hone, hor, hand]

/-- An entry that does not show `FLAG_OWN` is not handed out, and nothing changes. -/
theorem dequeueGet_of_not_own {m : Mem} {q : CircularQueue} (hoff : q.offset < q.len)
    (hflag : m.flag (q.queue + q.offset) ≠ FLAG_OWN) :
    dequeueGet m q = some (m, q, QBuffer.null) := by
  have hready : dequeueReadyVar m (q.queue + q.offset) = 0 := by
    rw [dequeueReadyVar]
    split_ifs <;> rfl
  simp [dequeueGet, hoff, hready]

/-- Nor is an entry whose recorded length is zero. -/
theorem dequeueGet_of_len_zero {m : Mem} {q : CircularQueue} (hoff : q.offset < q.len)
    (hlen : m.len (q.queue + q.offset) = 0) : dequeueGet m q = some (m, q, QBuffer.null) := by
  have hready : dequeueReadyVar m (q.queue + q.offset) = 0 := by
    rw [dequeueReadyVar, hlen]
    split_ifs <;> rfl
  simp [dequeueGet, hoff, hready]

/-- Submitting an entry marks it as owned by the dequeuer and leaves its length,
its content and every other byte of memory alone. -/
theorem enqueueSubmit_spec {m : Mem} {e size : ℕ} (check : Bool) (hsize : headerSize ≤ size)
    (hflag : m.flag e &&& 0xf0 = 0) :
    ∃ m', enqueueSubmit m ⟨some e, 0⟩ check = some m' ∧ m'.flag e = FLAG_OWN ∧
      m'.pad e = 0xff ∧ m'.len e = m.len e ∧ m'.content size e = m.content size e ∧
      Mem.ChangesOnly size e m m' := by
  set m₁ : Mem := ((m.setFlag e FLAG_OWN).setPad e 0xff).setChecksum e 0 with hm₁
  refine ⟨m₁.setChecksum e (if check then m₁.xorBytes e (m₁.len e) else 0), ?_, ?_, ?_, ?_, ?_, ?_⟩
  · simp [enqueueSubmit, checkFlag, hflag, hm₁]
  · simp [hm₁]
  · simp [hm₁]
  · simp [hm₁]
  · rw [headerSize] at hsize
    refine Prod.ext ?_ (List.map_congr_left fun i _ => ?_)
    · simp only [hm₁, Mem.content, Mem.task, Mem.setChecksum, Mem.setPad, Mem.setFlag]
      rw [Mem.set_of_ne _ _ (by omega), Mem.set_of_ne _ _ (by omega),
        Mem.set_of_ne _ _ (by omega), Mem.set_of_ne _ _ (by omega)]
    · simp only [hm₁, headerSize, Mem.setChecksum, Mem.setPad, Mem.setFlag]
      rw [Mem.set_of_ne _ _ (by omega), Mem.set_of_ne _ _ (by omega),
        Mem.set_of_ne _ _ (by omega), Mem.set_of_ne _ _ (by omega)]
  · rw [headerSize] at hsize
    refine Mem.ChangesOnly.trans ?_ (Mem.changesOnly_set _ _ (by omega) (by omega))
    refine Mem.ChangesOnly.trans ?_ (Mem.changesOnly_set _ _ (by omega) (by omega))
    exact Mem.ChangesOnly.trans (Mem.changesOnly_set _ _ (by omega) (by omega))
      (Mem.changesOnly_set _ _ (by omega) (by omega))

/-- Releasing a held entry stores the release flag and changes its header only. -/
theorem dequeueRelease_spec {m : Mem} {e size : ℕ} (flagClean : UInt8)
    (hsize : headerSize ≤ size) (hflag : m.flag e = 5) :
    ∃ m', dequeueRelease m ⟨some e, 0⟩ flagClean = some m' ∧ m'.flag e = flagClean ∧
      Mem.ChangesOnly size e m m' := by
  refine ⟨((m.setPad e 0).setChecksum e 0).setFlag e flagClean, ?_, ?_, ?_⟩
  · simp [dequeueRelease, checkFlagVal, hflag]
  · simp
  · rw [headerSize] at hsize
    refine Mem.ChangesOnly.trans ?_ (Mem.changesOnly_set _ _ (by omega) (by omega))
    exact Mem.ChangesOnly.trans (Mem.changesOnly_set _ _ (by omega) (by omega))
      (Mem.changesOnly_set _ _ (by omega) (by omega))

/-- A length from the header size up to `65528`, rounded up, is a non-zero
16-bit word. -/
theorem alignUp_bounds {len : ℕ} (h : headerSize ≤ len) (h' : len ≤ 65528) :
    len ≤ alignUp len ∧ alignUp len ≤ 65528 := by
  rw [headerSize] at h
  rw [alignUp, ALIGN]
  omega

end Queue
end Floem
