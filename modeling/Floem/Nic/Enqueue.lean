import Floem.Queue.Gap
import Floem.Nic.Scan
import Floem.Nic.WriteBack

/-!
# What the gap test reserves on the NIC

`enqueue_alloc` of `floem/include_cavium/floem-queue.c`, as it is built with
`DMA_CACHE`: a slot is free when `smart_dma_read` returns a pointer to its local copy,
that is, when it lies in the window the manager keeps.  `read_ready` passes slots in
ring order, so the window holds the slots behind one it holds as well, and a call with
a gap that found the slot `gap` ahead in the window leaves `gap` slots for later calls.
The window does not tell a slot of the next lap from one of this lap, though.

* `enqueueAlloc`, `enqueueStep` — the function, and the manager and the workers of
  `Floem.Nic.Workers` with entries handed out by it.
* `EnqInv` — entries are obtained in the order of their tickets, from the slot at the
  offset.
* `GapReserves` — a successful call leaves `gap` more slots that can be handed out.
* `gap_reserves` — for both variants of the function, the right slot is looked at, and
  the slots are reserved, exactly under the conditions that the overflow of the offset,
  slot `0` and the entries still being worked on set.
-/

namespace Floem
namespace Nic

open Queue Lib

/-! ## `enqueue_alloc` -/

/-- `e->len = v` on the NIC, in the byte order `nicLen` reads. -/
def setNicLen (m : Mem) (e v : ℕ) : Mem :=
  (m.set (e + 2) (UInt8.ofNat (v / 256))).set (e + 3) (UInt8.ofNat v)

/-- The stores of `enqueue_alloc` into the entry it hands out. -/
def claimed (clean : Mem → Mem) (entrySize : ℕ) (m : Mem) : Mem :=
  let m := if m.flag 0 = FLAG_CLEAN then (clean m).setFlag 0 0 else m
  ((setNicLen m 0 entrySize).setFlag 0 FLAG_INUSE).setTask 0 0

@[simp] theorem flag_claimed (clean : Mem → Mem) (entrySize : ℕ) (m : Mem) :
    (claimed clean entrySize m).flag 0 = FLAG_INUSE := by
  simp [claimed]

/-- A worker that has an entry in use has not finished it. -/
theorem not_done_claimed (L : Layout) (clean : Mem → Mem) (entrySize : ℕ) (m : Mem) :
    ¬ (enqueueDevice L).doneScan (claimed clean entrySize m) := by
  show ¬ decide (enqueueDoneVar (claimed clean entrySize m) 0 ≠ 0) = true
  rw [enqueueDoneVar, flag_claimed, if_neg (by decide)]
  decide

namespace Device

/-- The local copy at byte `off` of segment `i` is marked as in use. -/
def claim (clean : Mem → Mem) (entrySize : ℕ) (s : State Mem) (i off : ℕ) : State Mem :=
  { s with
    buf := Function.update s.buf i
      (Function.update (s.buf i) off (claimed clean entrySize (s.buf i off))) }

/-- `enqueue_alloc`: the state of the queue, the end of the enqueuer, and the address of
the entry handed out. -/
def enqueueAlloc (D : Device Mem) (clean : Mem → Mem) (s : State Mem) (q : CircularQueue)
    (len gap : ℕ) : Option (State Mem × CircularQueue × Option ℕ) := do
  guard (q.offset < q.len)
  guard (len ≤ q.entrySize)
  let addr := q.queue + q.offset
  let addrCheck ← GapVar.uint32.entry q gap
  let (s, eqe) := D.smartDmaRead s addr
  let (s, check) := if 0 < gap then D.smartDmaRead s addrCheck else (s, eqe)
  match eqe with
  | none => return (s, q, none)
  | some (i, off) =>
    if check.isSome then
      let s := claim clean q.entrySize s i off
      return (s, { q with offset := q.advance q.offset }, some addr)
    else return (s, q, none)

end Device

/-- The queue, the enqueuer's end of it, and the number of entries handed out. -/
structure Enqueuer where
  sys : Sys Mem
  enq : CircularQueue
  issued : ℕ

/-- What may happen next: an event, in which no entry is obtained, or a call. -/
inductive EnqueueAction
  | event (e : Event Mem)
  | alloc (len gap : ℕ)

/-- Whether a worker obtains an entry. -/
def Event.obtains {α : Type} : Event α → Bool
  | .obtain _ => true
  | _ => false

namespace Device

variable (D : Device Mem)

/-- The end of the enqueuer when its next ticket is `k`. -/
def enqueueEnd (k : ℕ) : CircularQueue where
  len := D.size
  offset := k % D.slots * D.overlap
  queue := D.addr
  clean := 0
  entrySize := D.overlap

/-- One event, or one call. -/
def enqueueStep (clean : Mem → Mem) (fuel : ℕ) (s : Enqueuer) : EnqueueAction → Option Enqueuer
  | .event e => do
      guard (e.obtains = false)
      let sys ← D.sysStep fuel s.sys e
      return { s with sys := sys }
  | .alloc len gap => do
      let (q, enq, addr) ← D.enqueueAlloc clean s.sys.q s.enq len gap
      match addr with
      | none => return ⟨⟨q, s.sys.phase⟩, enq, s.issued⟩
      | some _ =>
        return ⟨⟨q, Function.update s.sys.phase s.issued .working⟩, enq, s.issued + 1⟩

/-- A new queue and its enqueuer. -/
def enqueueCreate (buf : ℕ → ℕ → Mem) (now : ℕ) : Enqueuer :=
  ⟨D.sysCreate buf now, D.enqueueEnd 0, 0⟩

/-- The condition `CountInTime` on the events. -/
def CountsInTime (s : Enqueuer) : EnqueueAction → Prop
  | .event e => D.CountInTime s.sys e
  | .alloc _ _ => True

/-- After a successful call with this gap, calls with gap `0` succeed until `gap` further
entries are handed out, whatever else is done, so also when nothing more is released. -/
def GapReserves (clean : Mem → Mem) (fuel : ℕ) (s : Enqueuer) (gap : ℕ) : Prop :=
  gap < D.slots →
    ∀ len t, D.enqueueStep clean fuel s (.alloc len gap) = some t → t.issued ≠ s.issued →
    ∀ bs u, Meets (D.enqueueStep clean fuel) D.CountsInTime t bs →
      run (D.enqueueStep clean fuel) t bs = some u → u.issued < t.issued + gap →
    ∀ len', len' ≤ D.overlap →
      ∃ v, D.enqueueStep clean fuel u (.alloc len' 0) = some v ∧ v.issued = u.issued + 1

/-- The slot `gap` ahead is in the window for an entry of the lap before that is still
being worked on, while the slot at the offset is free. -/
def Held (s : Enqueuer) (gap : ℕ) : Prop :=
  s.issued < s.sys.q.made.length ∧ s.sys.q.made.length ≤ s.issued + gap ∧
    s.sys.q.handed.length + D.slots ≤ s.issued + gap

/-! ## The calls -/

variable {D} {clean : Mem → Mem} {fuel : ℕ}

/-- What `smart_dma_read` leaves alone, and what it returns. -/
theorem smartDmaRead_spec {α : Type} {D : Device α} (s : State α) (a : ℕ) :
    ((D.smartDmaRead s a).1.made = s.made ∧ (D.smartDmaRead s a).1.handed = s.handed) ∧
    (∀ b, isReadReady (D.smartDmaRead s a).1 b = isReadReady s b) ∧
    (D.smartDmaRead s a).2 =
      if isReadReady s a then some (D.findSegment a, a - D.segAddr (D.findSegment a)) else none := by
  have hready : isReadReady { s with lastRead := a } a = isReadReady s a := rfl
  rw [smartDmaRead, hready]
  by_cases h : isReadReady s a = true
  · rw [if_pos h, if_pos h]
    exact ⟨⟨rfl, rfl⟩, fun _ => rfl, rfl⟩
  · rw [if_neg h, if_neg h]
    exact ⟨⟨rfl, rfl⟩, fun _ => rfl, rfl⟩

variable (clean) in
/-- **What `enqueue_alloc` does.**  It looks at the two slots, and hands out the first of
them if both are in the window. -/
theorem enqueueAlloc_eq {s : State Mem} {q : CircularQueue} {len gap check : ℕ}
    (hoff : q.offset < q.len) (hlen : len ≤ q.entrySize)
    (hcheck : GapVar.uint32.entry q gap = some check) :
    ∃ r, D.Moves s r ∧ r.made = s.made ∧ r.handed = s.handed ∧
      D.enqueueAlloc clean s q len gap = some (
        if isReadReady s (q.queue + q.offset) ∧ isReadReady s check then
          (claim clean q.entrySize r (D.findSegment (q.queue + q.offset))
              (q.queue + q.offset - D.segAddr (D.findSegment (q.queue + q.offset))),
            { q with offset := q.advance q.offset }, some (q.queue + q.offset))
        else (r, q, none)) := by
  have hg1 : (guard (q.offset < q.len) : Option Unit) = some () := if_pos hoff
  have hg2 : (guard (len ≤ q.entrySize) : Option Unit) = some () := if_pos hlen
  obtain ⟨⟨hmade, hhanded⟩, hsame, hfst⟩ := smartDmaRead_spec (D := D) s (q.queue + q.offset)
  set r := (D.smartDmaRead s (q.queue + q.offset)).1 with hr
  rcases Nat.eq_zero_or_pos gap with rfl | hgap
  · rw [GapVar.entry, if_neg (lt_irrefl 0)] at hcheck
    obtain rfl := Option.some.inj hcheck
    refine ⟨r, smartDmaRead_moves _, hmade, hhanded, ?_⟩
    simp only [enqueueAlloc, hg1, hg2, GapVar.entry, if_neg (lt_irrefl 0), hfst, ← hr,
      Option.bind_eq_bind, Option.bind_some, and_self]
    by_cases h : isReadReady s (q.queue + q.offset) = true
    · simp [h]
    · simp [h]
  · obtain ⟨⟨hmade', hhanded'⟩, -, hsnd⟩ := smartDmaRead_spec (D := D) r check
    refine ⟨(D.smartDmaRead r check).1, (smartDmaRead_moves _).trans (smartDmaRead_moves _),
      hmade'.trans hmade, hhanded'.trans hhanded, ?_⟩
    rw [hsame] at hsnd
    simp only [enqueueAlloc, hg1, hg2, hcheck, hfst, if_pos hgap, ← hr, hsnd,
      Option.bind_eq_bind, Option.bind_some]
    by_cases h : isReadReady s (q.queue + q.offset) = true
    · by_cases h' : isReadReady s check = true
      · simp [h, h']
      · simp [h, h']
    · simp [h]

/-- Some slot is looked at, whatever the gap. -/
theorem exists_entry (q : CircularQueue) (gap : ℕ) : ∃ c, GapVar.uint32.entry q gap = some c := by
  rw [GapVar.entry, GapVar.offset]
  split_ifs
  · exact ⟨_, rfl⟩
  · exact ⟨_, rfl⟩

/-- The end of the enqueuer is left alone, or moved by an entry. -/
theorem enqueueAlloc_enq {s r : State Mem} {q q' : CircularQueue} {len gap : ℕ}
    {addr : Option ℕ} (h : D.enqueueAlloc clean s q len gap = some (r, q', addr)) :
    addr = none ∧ q' = q ∨ ∃ a, addr = some a ∧ q' = { q with offset := q.advance q.offset } := by
  obtain ⟨check, hcheck⟩ := exists_entry q gap
  have hguard : q.offset < q.len ∧ len ≤ q.entrySize := by
    simp only [enqueueAlloc, Option.bind_eq_bind, Option.bind_eq_some_iff,
      Option.guard_eq_some'] at h
    obtain ⟨-, hoff, -, hlen, -⟩ := h
    exact ⟨hoff, hlen⟩
  obtain ⟨r', -, -, -, halloc⟩ := enqueueAlloc_eq (D := D) clean (s := s) hguard.1 hguard.2
    hcheck
  rw [halloc] at h
  split_ifs at h
  · cases h
    exact Or.inr ⟨_, rfl, rfl⟩
  · cases h
    exact Or.inl ⟨rfl, rfl⟩

/-! ## The invariant -/

variable (D) in
/-- Entries were obtained in the order of their tickets, and the end of the enqueuer is at
the next. -/
structure EnqInv (s : Enqueuer) : Prop where
  inv : D.Inv s.sys.phase s.sys.q
  enq_eq : s.enq = D.enqueueEnd s.issued
  idle_iff : ∀ k, s.sys.phase k = .idle ↔ s.issued ≤ k

theorem aligned_enqueueEnd (k : ℕ) : (D.enqueueEnd k).Aligned where
  entrySize_pos := D.overlap_pos
  dvd_len := Nat.dvd_mul_left _ _
  dvd_offset := Nat.dvd_mul_left _ _
  offset_lt := Nat.mul_lt_mul_of_pos_right (Nat.mod_lt _ D.blocks.cells_pos) D.overlap_pos

/-- The end moves to the next ticket. -/
theorem advance_enqueueEnd (k : ℕ) :
    { D.enqueueEnd k with offset := (D.enqueueEnd k).advance (D.enqueueEnd k).offset } =
      D.enqueueEnd (k + 1) := by
  have hnext := next_offset (k := k) D.blocks.cells_pos D.overlap_pos
  simp only [enqueueEnd, CircularQueue.advance, CircularQueue.mk.injEq, true_and, and_true]
  exact hnext

/-- The slot looked at is that of the ticket `gap` later when its offset fits. -/
theorem entry_enqueueEnd {k gap : ℕ} (h : 1 ≤ gap → GapVar.uint32.Fits (D.enqueueEnd k) gap) :
    GapVar.uint32.entry (D.enqueueEnd k) gap = some (D.pos (k + gap)) := by
  have hslots : (D.enqueueEnd k).slots = D.slots := Nat.mul_div_cancel _ D.overlap_pos
  have hi : (D.enqueueEnd k).offset / (D.enqueueEnd k).entrySize = k % D.slots :=
    Nat.mul_div_cancel _ D.overlap_pos
  rw [(aligned_enqueueEnd k).entry_eq .uint32 h, hslots, hi, Nat.mod_add_mod]
  rfl

namespace EnqInv

variable {s : Enqueuer}

/-- `write_ready` passes no entry that was not handed out. -/
theorem handed_le (hI : D.EnqInv s) : s.sys.q.handed.length ≤ s.issued := by
  by_contra hlt
  have hidle := (hI.idle_iff s.issued).2 le_rfl
  rcases hI.inv.passed s.issued (not_le.1 hlt) with h | h
  · rw [hidle] at h; cases h
  · rw [hidle] at h; cases h

/-- No entry is handed out before `read_ready` passed it. -/
theorem issued_le (hI : D.EnqInv s) : s.issued ≤ s.sys.q.made.length :=
  (hI.idle_iff _).1 (hI.inv.idle _ le_rfl)

/-- **Which slots are in the window.**  The slot of a ticket of the lap to come is in the
window if `read_ready` passed the ticket, or if the ticket a lap before is in the
window still. -/
theorem isReadReady_iff (hI : D.EnqInv s) {k : ℕ} (hk : s.issued ≤ k)
    (hk' : k < s.issued + D.slots) : isReadReady s.sys.q (D.pos k) = true ↔
      k < s.sys.q.made.length ∨ s.sys.q.handed.length + D.slots ≤ k := by
  have hle := hI.handed_le
  have hge := hI.issued_le
  have hlap := hI.inv.cursors.made_lt
  have haddr : D.addr ≤ D.pos k := Nat.le_add_right _ _
  rw [Device.isReadReady_iff hI.inv.cursors haddr (D.pos_lt k)]
  simp only [D.mem_pos_iff haddr]
  have hcell : (D.pos k - D.addr) / D.overlap = k % D.slots := by
    rw [Layout.pos, Nat.add_sub_cancel_left]
    exact Nat.mul_div_cancel _ D.overlap_pos
  rw [hcell]
  constructor
  · rintro ⟨j, hj, hj', hmod⟩
    by_cases hkm : k < s.sys.q.made.length
    · exact Or.inl hkm
    · -- the tickets of one slot in two laps are a lap apart
      have hlapk : j + D.slots = k := by
        refine eq_of_mod_eq_of_window ((add_lap_mod _ _).trans hmod) ?_ (by omega)
        by_contra hgt
        exact mod_ne_of_window (by omega) (by omega) hmod
      exact Or.inr (by omega)
  · rintro (hlt | hheld)
    · exact ⟨k, by omega, hlt, rfl⟩
    · have hprev : k - D.slots + D.slots = k := by omega
      exact ⟨k - D.slots, by omega, by omega, by rw [← add_lap_mod, hprev]⟩

end EnqInv

/-- The slot at the offset is in the window when `read_ready` passed its ticket. -/
theorem EnqInv.isReadReady_pos_iff {s : Enqueuer} (hI : D.EnqInv s) :
    isReadReady s.sys.q (D.pos s.issued) = true ↔ s.issued < s.sys.q.made.length := by
  have hslots : 0 < D.slots := D.blocks.cells_pos
  have hge := hI.issued_le
  have hlap := hI.inv.cursors.made_lt
  rw [hI.isReadReady_iff le_rfl (by omega), or_iff_left (by omega)]

/-! ## Steps -/

/-- An event is one of the manager and the workers, in which no entry is obtained. -/
theorem enqueueStep_event {s t : Enqueuer} {e : Event Mem}
    (h : D.enqueueStep clean fuel s (.event e) = some t) :
    e.obtains = false ∧ D.sysStep fuel s.sys e = some t.sys ∧ t.enq = s.enq ∧
      t.issued = s.issued := by
  simp only [enqueueStep, Option.bind_eq_bind, Option.bind_eq_some_iff,
    Option.guard_eq_some'] at h
  obtain ⟨-, hobtains, sys, hsys, ht⟩ := h
  cases ht
  exact ⟨hobtains, hsys, rfl, rfl⟩

variable (clean fuel) in
/-- **A call.**  It hands out the entry with the next ticket if its slot and the one
looked at are in the window, and leaves the cursors alone. -/
theorem enqueueStep_alloc {s : Enqueuer} (hnot : ∀ m, ¬ D.doneScan (claimed clean D.overlap m))
    (hex : D.Exclusive) (hI : D.EnqInv s) {len gap check : ℕ} (hlen : len ≤ D.overlap)
    (hcheck : GapVar.uint32.entry s.enq gap = some check) :
    ∃ t, D.enqueueStep clean fuel s (.alloc len gap) = some t ∧ D.EnqInv t ∧
      t.sys.q.made = s.sys.q.made ∧ t.sys.q.handed = s.sys.q.handed ∧
      t.issued = if s.issued < s.sys.q.made.length ∧ isReadReady s.sys.q check
        then s.issued + 1 else s.issued := by
  have haligned := aligned_enqueueEnd (D := D) s.issued
  obtain ⟨r, hmoves, hmade, hhanded, halloc⟩ := enqueueAlloc_eq (D := D) clean (s := s.sys.q)
    (show s.enq.offset < s.enq.len by rw [hI.enq_eq]; exact haligned.offset_lt)
    (show len ≤ s.enq.entrySize by rw [hI.enq_eq]; exact hlen) hcheck
  have haddr : s.enq.queue + s.enq.offset = D.pos s.issued := by rw [hI.enq_eq]; rfl
  have hr : D.Inv s.sys.phase r := inv_moves hex hI.inv hmoves
  rw [haddr] at halloc
  rw [enqueueStep, halloc]
  by_cases hboth : isReadReady s.sys.q (D.pos s.issued) = true ∧ isReadReady s.sys.q check = true
  · rw [if_pos hboth, if_pos ⟨hI.isReadReady_pos_iff.1 hboth.1, hboth.2⟩]
    refine ⟨_, rfl, ⟨?_, ?_, fun k => ?_⟩, hmade, hhanded, rfl⟩
    · -- the entry is obtained, and then stored to
      have hissued := hI.isReadReady_pos_iff.1 hboth.1
      have hobtain := inv_obtain hr ((hI.idle_iff _).2 le_rfl)
        (by rw [hhanded]; exact hI.handed_le) (by rw [hmade]; exact hissued)
      have hput := inv_put hobtain (k := s.issued)
        (v := claimed clean D.overlap (D.copy r s.issued))
        (Function.update_self ..) (Or.inl ⟨rfl, hnot _⟩)
      rw [Function.update_idem] at hput
      have hoff : D.pos s.issued - D.segAddr (D.blocks.blk s.issued % D.n) = D.offset s.issued := by
        rw [pos_eq_offset, Nat.add_sub_cancel_left]
      simp only [claim, findSegment_pos, hoff, hI.enq_eq]
      exact hput
    · exact (congrArg (fun q : CircularQueue => { q with offset := q.advance q.offset })
        hI.enq_eq).trans (advance_enqueueEnd _)
    · show Function.update s.sys.phase s.issued .working k = .idle ↔ s.issued + 1 ≤ k
      by_cases hk : k = s.issued
      · rw [hk, Function.update_self]
        exact iff_of_false (fun h => by cases h) (by omega)
      · rw [Function.update_of_ne hk, hI.idle_iff]
        omega
  · rw [if_neg hboth, if_neg fun h => hboth ⟨hI.isReadReady_pos_iff.2 h.1, h.2⟩]
    exact ⟨_, rfl, ⟨hr, hI.enq_eq, hI.idle_iff⟩, hmade, hhanded, rfl⟩

/-- A move does not take `read_ready` back. -/
theorem Move.made_mono {α : Type} {D : Device α} {s t : State α} (h : D.Move s t) :
    s.made.length ≤ t.made.length := by
  cases h with
  | pass hstop hst hready => simp [passed]
  | startWrite i hi hmin hmax hst => rw [(doWrite_frame s i).1]
  | _ => exact le_rfl

/-- `read_ready` does not go back. -/
theorem made_mono_of_sysStep {α : Type} {D : Device α} {fuel : ℕ} {s t : Sys α} {e : Event α}
    (hc : D.Cursors s.q) (h : D.sysStep fuel s e = some t) :
    s.q.made.length ≤ t.q.made.length := by
  obtain ⟨-, hstep, -⟩ := sysStep_eq_some h
  have hmoves := step_moves hc hstep
  have hmove : ∀ {r : State α}, D.Moves s.q r → s.q.made.length ≤ r.made.length := fun hm => by
    induction hm with
    | refl => exact le_rfl
    | tail _ hlast ih => exact ih.trans hlast.made_mono
  have hhand : ∀ {r : State α}, D.HandMoves s.q r → s.q.made.length ≤ r.made.length := fun hm => by
    induction hm with
    | refl => exact le_rfl
    | tail _ hlast ih => exact ih.trans (by rw [hlast.frame.1])
  cases e with
  | initiateWrite => exact hhand (hmoves.1 rfl)
  | dmaRead i data =>
      obtain ⟨off, size, backed, -, ht⟩ := dmaRead_eq_some hstep
      rw [ht]
      exact le_rfl
  | dmaWrite i =>
      obtain ⟨lo, hi, -, ht⟩ := dmaWrite_eq_some hstep
      rw [ht]
      exact le_rfl
  | store k v => rw [← Option.some.inj hstep]
  | finish k v => rw [← Option.some.inj hstep]
  | count k now => rw [← Option.some.inj hstep]; exact le_rfl
  | _ => exact hmove (hmoves.2 (by simp [actionOf]))

/-- A call that is made is one for a length the entries have room for. -/
theorem enqueueStep_alloc_guard {s t : Enqueuer} (hI : D.EnqInv s) {len gap : ℕ}
    (h : D.enqueueStep clean fuel s (.alloc len gap) = some t) : len ≤ D.overlap := by
  simp only [enqueueStep, enqueueAlloc, Option.bind_eq_bind, Option.bind_eq_some_iff,
    Option.guard_eq_some'] at h
  obtain ⟨-, ⟨-, -, -, hlen, -⟩, -⟩ := h
  rw [hI.enq_eq] at hlen
  exact hlen

/-- The progress of an entry never ends in nobody having obtained it. -/
theorem progress_eq_idle_iff {s : Sys Mem} {e : Event Mem} (hobtains : e.obtains = false)
    (hallowed : D.allowed s e) (k : ℕ) : progress s.phase e k = .idle ↔ s.phase k = .idle := by
  have hupdate : ∀ j p, s.phase j ≠ .idle → p ≠ Phase.idle →
      (Function.update s.phase j p k = .idle ↔ s.phase k = .idle) := fun j p hj hp => by
    by_cases hk : k = j
    · rw [hk, Function.update_self]
      exact iff_of_false hp hj
    · rw [Function.update_of_ne hk]
  cases e with
  | obtain j => cases hobtains
  | finish j v =>
      have hgo : s.phase j = .working ∧ D.doneScan v := by simpa [allowed] using hallowed
      exact hupdate j _ (by rw [hgo.1]; decide) (by decide)
  | count j now =>
      have hgo : s.phase j = .flagged := by simpa [allowed] using hallowed
      exact hupdate j _ (by rw [hgo]; decide) (by decide)
  | _ => exact Iff.rfl

/-- **Every step whose `smart_dma_write` comes in time keeps the invariant**, and
`read_ready` does not go back. -/
theorem enqInv_step (hnot : ∀ m, ¬ D.doneScan (claimed clean D.overlap m)) (hex : D.Exclusive)
    {s t : Enqueuer} {a : EnqueueAction} (hI : D.EnqInv s) (hC : D.CountsInTime s a)
    (h : D.enqueueStep clean fuel s a = some t) :
    D.EnqInv t ∧ s.sys.q.made.length ≤ t.sys.q.made.length := by
  cases a with
  | event e =>
      obtain ⟨hobtains, hsys, henq, hissued⟩ := enqueueStep_event h
      obtain ⟨hallowed, -, hphase⟩ := sysStep_eq_some hsys
      refine ⟨⟨inv_sysStep hex hI.inv hC hsys, by rw [henq, hissued, hI.enq_eq], fun k => ?_⟩,
        made_mono_of_sysStep hI.inv.cursors hsys⟩
      rw [hphase, progress_eq_idle_iff hobtains hallowed, hissued]
      exact hI.idle_iff k
  | alloc len gap =>
      obtain ⟨check, hcheck⟩ := exists_entry s.enq gap
      obtain ⟨t', ht', hI', hmade, -⟩ := enqueueStep_alloc clean fuel hnot hex hI
        (enqueueStep_alloc_guard hI h) hcheck
      obtain rfl := Option.some.inj (h.symm.trans ht')
      exact ⟨hI', by rw [hmade]⟩

/-- **After every run whose `smart_dma_write`s come in time the invariant holds.** -/
theorem enqInv_run (hnot : ∀ m, ¬ D.doneScan (claimed clean D.overlap m)) (hex : D.Exclusive)
    {buf : ℕ → ℕ → Mem} {now : ℕ} {as : List EnqueueAction} {s : Enqueuer}
    (hC : Meets (D.enqueueStep clean fuel) D.CountsInTime (D.enqueueCreate buf now) as)
    (h : run (D.enqueueStep clean fuel) (D.enqueueCreate buf now) as = some s) : D.EnqInv s := by
  refine run_invariant_of_meets (P := D.EnqInv)
    (fun _ _ _ hI hC h => (enqInv_step hnot hex hI hC h).1) ?_ hC h
  exact ⟨inv_sysCreate buf now, rfl, fun k => iff_of_true rfl (Nat.zero_le k)⟩

/-- After every run the end of the enqueuer is at a slot. -/
theorem enq_run {buf : ℕ → ℕ → Mem} {now : ℕ} {as : List EnqueueAction} {s : Enqueuer}
    (h : run (D.enqueueStep clean fuel) (D.enqueueCreate buf now) as = some s) :
    s.enq = D.enqueueEnd s.issued := by
  refine run_invariant (P := fun s => s.enq = D.enqueueEnd s.issued) (fun s a t hs h => ?_) rfl h
  cases a with
  | event e =>
      obtain ⟨-, -, henq, hissued⟩ := enqueueStep_event h
      rw [henq, hissued, hs]
  | alloc len gap =>
      rw [enqueueStep, Option.bind_eq_bind, Option.bind_eq_some_iff] at h
      obtain ⟨⟨q, enq, addr⟩, halloc, h⟩ := h
      rcases enqueueAlloc_enq halloc with ⟨rfl, rfl⟩ | ⟨a, rfl, rfl⟩
      · cases h
        exact hs
      · cases h
        exact (congrArg (fun q : CircularQueue => { q with offset := q.advance q.offset }) hs).trans
          (advance_enqueueEnd _)

/-! ## The reservation -/

/-- **The reservation.**  If the right slot is looked at, and it is not in the window for
an entry of the lap before, a successful call leaves `gap` slots that can be handed
out. -/
theorem gapReserves_of_fits (hnot : ∀ m, ¬ D.doneScan (claimed clean D.overlap m))
    (hex : D.Exclusive) {s : Enqueuer} (hI : D.EnqInv s) {gap : ℕ}
    (hfits : 1 ≤ gap → GapVar.uint32.Fits s.enq gap) (hheld : gap < D.slots → ¬ D.Held s gap) :
    D.GapReserves clean fuel s gap := by
  intro hgap len t hstep hne bs u hC hrun hlt len' hlen'
  have hcheck : GapVar.uint32.entry s.enq gap = some (D.pos (s.issued + gap)) := by
    rw [hI.enq_eq] at hfits ⊢
    exact entry_enqueueEnd hfits
  obtain ⟨t', ht', hIt, hmade, hhanded, hissued⟩ := enqueueStep_alloc clean fuel hnot hex hI
    (enqueueStep_alloc_guard hI hstep) hcheck
  obtain rfl := Option.some.inj (hstep.symm.trans ht')
  -- the slot looked at was passed by `read_ready` in this lap
  have hahead : s.issued + gap < s.sys.q.made.length ∧ t.issued = s.issued + 1 := by
    split_ifs at hissued with hboth
    · refine ⟨?_, hissued⟩
      rcases (hI.isReadReady_iff (by omega) (by omega)).1 hboth.2 with hm | hw
      · exact hm
      · by_contra hge
        exact hheld hgap ⟨hboth.1, not_lt.1 hge, hw⟩
    · exact absurd hissued hne
  have hu : D.EnqInv u ∧ s.sys.q.made.length ≤ u.sys.q.made.length := by
    refine run_invariant_of_meets
      (P := fun v => D.EnqInv v ∧ s.sys.q.made.length ≤ v.sys.q.made.length)
      (fun v a v' hv hC hv' => ?_) ⟨hIt, by rw [hmade]⟩ hC hrun
    obtain ⟨hI', hmono⟩ := enqInv_step hnot hex hv.1 hC hv'
    exact ⟨hI', hv.2.trans hmono⟩
  have hcheck' : GapVar.uint32.entry u.enq 0 = some (D.pos u.issued) := by
    rw [hu.1.enq_eq]
    exact entry_enqueueEnd (fun h => absurd h (by decide))
  obtain ⟨v, hv, -, -, -, hvissued⟩ := enqueueStep_alloc clean fuel hnot hex hu.1 hlen' hcheck'
  have hready : u.issued < u.sys.q.made.length := by omega
  exact ⟨v, hv, by rw [hvissued, if_pos ⟨hready, hu.1.isReadReady_pos_iff.2 hready⟩]⟩

variable (clean fuel) in
/-- Calls with gap `0` hand out the rest of the window. -/
theorem exists_run_alloc (hnot : ∀ m, ¬ D.doneScan (claimed clean D.overlap m))
    (hex : D.Exclusive) (n : ℕ) : ∀ {s : Enqueuer}, D.EnqInv s →
      s.issued + n ≤ s.sys.q.made.length →
      ∃ u, run (D.enqueueStep clean fuel) s (List.replicate n (.alloc 0 0)) = some u ∧
        D.EnqInv u ∧ u.issued = s.issued + n ∧ u.sys.q.made = s.sys.q.made := by
  induction n with
  | zero => exact fun hI _ => ⟨_, rfl, hI, rfl, rfl⟩
  | succ n ih =>
      intro s hI hn
      have hcheck : GapVar.uint32.entry s.enq 0 = some (D.pos s.issued) := by
        rw [hI.enq_eq]
        exact entry_enqueueEnd (fun h => absurd h (by decide))
      obtain ⟨t, ht, hIt, hmade, -, hissued⟩ := enqueueStep_alloc clean fuel hnot hex hI
        (Nat.zero_le _) hcheck
      have hready : s.issued < s.sys.q.made.length := by omega
      rw [if_pos ⟨hready, hI.isReadReady_pos_iff.2 hready⟩] at hissued
      obtain ⟨u, hu, hIu, huissued, humade⟩ := ih hIt (by rw [hmade, hissued]; omega)
      refine ⟨u, ?_, hIu, by omega, humade.trans hmade⟩
      rw [List.replicate_succ, run_cons, ht]
      exact hu

/-- **No reservation where the slot is held.**  The call succeeds, and so do the calls up
to the end of the window, which is too early. -/
theorem not_gapReserves_of_held (hnot : ∀ m, ¬ D.doneScan (claimed clean D.overlap m))
    (hex : D.Exclusive) {s : Enqueuer} (hI : D.EnqInv s) {gap : ℕ}
    (hfits : 1 ≤ gap → GapVar.uint32.Fits s.enq gap) (hgap : gap < D.slots)
    (hheld : D.Held s gap) : ¬ D.GapReserves clean fuel s gap := by
  intro hres
  obtain ⟨hready, hahead, hlap⟩ := hheld
  have hcheck : GapVar.uint32.entry s.enq gap = some (D.pos (s.issued + gap)) := by
    rw [hI.enq_eq] at hfits ⊢
    exact entry_enqueueEnd hfits
  obtain ⟨t, ht, hIt, hmade, -, hissued⟩ := enqueueStep_alloc clean fuel hnot hex hI (Nat.zero_le _) hcheck
  rw [if_pos ⟨hready, (hI.isReadReady_iff (by omega) (by omega)).2 (Or.inr hlap)⟩] at hissued
  obtain ⟨u, hu, hIu, huissued, humade⟩ := exists_run_alloc clean fuel hnot hex (s.sys.q.made.length - t.issued) hIt (by rw [hmade]; omega)
  have hempty : u.issued = u.sys.q.made.length := by rw [humade, hmade]; omega
  obtain ⟨v, hv, hvissued⟩ := hres hgap 0 t ht (by omega) _ u
    (Meets.of_forall_mem (fun a ha _ => by rw [List.eq_of_mem_replicate ha]; trivial) t) hu (by omega) 0 (Nat.zero_le _)
  have hcheck' : GapVar.uint32.entry u.enq 0 = some (D.pos u.issued) := by
    rw [hIu.enq_eq]
    exact entry_enqueueEnd (fun h => absurd h (by decide))
  obtain ⟨v', hv', -, -, -, hv'issued⟩ := enqueueStep_alloc clean fuel hnot hex hIu (Nat.zero_le _) hcheck'
  obtain rfl := Option.some.inj (hv.symm.trans hv')
  rw [if_neg (fun h => by omega)] at hv'issued
  omega

variable (clean) in
/-- **The gap test on the NIC.**  After every run from a new queue the slot looked at is the
right one exactly if its offset fits, and after every run whose `smart_dma_write`s come
in time a successful call reserves what the gap promises besides exactly if that slot is
not held. -/
theorem gapReserves_iff (L : Layout) {buf : ℕ → ℕ → Mem} {now : ℕ} {as : List EnqueueAction}
    {s : Enqueuer} (h : run ((enqueueDevice L).enqueueStep clean fuel)
      ((enqueueDevice L).enqueueCreate buf now) as = some s) {gap : ℕ} (hgap : 1 ≤ gap) :
    (s.enq.Consults .uint32 gap ↔ GapVar.uint32.Fits s.enq gap) ∧
    (Meets ((enqueueDevice L).enqueueStep clean fuel) (enqueueDevice L).CountsInTime
        ((enqueueDevice L).enqueueCreate buf now) as →
      ((s.enq.Consults .uint32 gap ∧ (enqueueDevice L).GapReserves clean fuel s gap) ↔
        GapVar.uint32.Fits s.enq gap ∧ (gap < L.slots → ¬ (enqueueDevice L).Held s gap))) := by
  have hconsults : s.enq.Consults .uint32 gap ↔ GapVar.uint32.Fits s.enq gap := by
    rw [enq_run h]
    exact (aligned_enqueueEnd _).consults_iff .uint32 hgap
  refine ⟨hconsults, fun hC => ?_⟩
  have hnot := not_done_claimed L clean L.overlap
  have hex := enqueueDevice_exclusive L
  have hI := enqInv_run hnot hex hC h
  rw [hconsults]
  refine and_congr_right fun hfits => ⟨fun hres hslots hheld => ?_, fun hheld => ?_⟩
  · exact not_gapReserves_of_held hnot hex hI (fun _ => hfits) hslots hheld hres
  · exact gapReserves_of_fits hnot hex hI (fun _ => hfits) hheld

end Device

/-! ## Both variants -/

/-- **The gap test.**  After every run of a ring of the CPU from zeroed storage and every
run of a queue of the NIC, and for every gap: on the CPU, the slot looked at is the right
one and a successful call reserves what the gap promises exactly if the offset fits; on
the NIC, the slot looked at is the right one exactly if the offset fits, and, where each
`smart_dma_write` comes in time, a successful call reserves what the gap promises as well
exactly if that slot is not held by an entry of the lap before. -/
theorem gap_reserves (R : Ring) (hN : 0 < R.slots) (hsize : headerSize ≤ R.entrySize) {mem : Mem}
    (hzero : R.Zeroed mem) {as : List Queue.Action} {s : Queue.State}
    (h : run R.call (R.init mem) as = some s) (L : Layout) (clean : Mem → Mem)
    (buf : ℕ → ℕ → Mem) (now fuel : ℕ) {es : List EnqueueAction} {u : Enqueuer}
    (hu : run ((enqueueDevice L).enqueueStep clean fuel)
      ((enqueueDevice L).enqueueCreate buf now) es = some u) {gap : ℕ} (hgap : 1 ≤ gap) :
    ((s.enq.Consults .int gap ∧ R.Reserves s gap) ↔ GapVar.int.Fits s.enq gap) ∧
    (u.enq.Consults .uint32 gap ↔ GapVar.uint32.Fits u.enq gap) ∧
    (Meets ((enqueueDevice L).enqueueStep clean fuel) (enqueueDevice L).CountsInTime
        ((enqueueDevice L).enqueueCreate buf now) es →
      ((u.enq.Consults .uint32 gap ∧ (enqueueDevice L).GapReserves clean fuel u gap) ↔
        GapVar.uint32.Fits u.enq gap ∧ (gap < L.slots → ¬ (enqueueDevice L).Held u gap))) :=
  ⟨R.gap_reserves_iff hN hsize hzero h hgap, Device.gapReserves_iff clean L hu hgap⟩

/-- Eight segments of one entry each. -/
def eightSlots : Layout where
  addr := 4096
  overlap := 1536
  slots := 8
  overlap_pos := by decide
  overlap_le := by decide
  size_ge := by decide

/-- The first four entries of `eightSlots` are read, all of them free. -/
def fourFree : List EnqueueAction :=
  let free : ℕ → Mem := fun _ _ => 0
  [.event (.prefetch false), .event (.prefetch true), .event (.dmaRead 0 free),
    .event (.dmaRead 1 free), .event .handleReading, .event (.prefetch false),
    .event (.prefetch true), .event (.dmaRead 2 free), .event (.dmaRead 3 free),
    .event .handleReading]

/-- A run that calls no `smart_dma_write` meets the condition. -/
theorem countsInTime_fourFree (n : ℕ) (s : Enqueuer) :
    Meets ((enqueueDevice eightSlots).enqueueStep id 9) (enqueueDevice eightSlots).CountsInTime s
      (fourFree ++ List.replicate n (.alloc 64 0)) := by
  refine Meets.of_forall_mem (fun a ha t => ?_) s
  rcases List.mem_append.1 ha with ha | ha
  · simp only [fourFree, List.mem_cons, List.not_mem_nil, or_false] at ha
    rcases ha with rfl | rfl | rfl | rfl | rfl | rfl | rfl | rfl | rfl | rfl <;> trivial
  · rw [List.eq_of_mem_replicate ha]
    trivial

/-- In a ring of three slots on the CPU and one of eight on the NIC with one entry handed
out each, the gap `1` leads to slot `2`, and one more entry is reserved. -/
theorem gap_reserves_slot_two :
    let R : Ring := ⟨3, 8, 0, 0, fun m _ => m, true, Or.inl rfl, fun _ _ _ _ => rfl⟩
    let D := enqueueDevice eightSlots
    (∃ s, run R.call (R.init fun _ => 0) [.alloc 8 0] = some s ∧
      s.enq.Consults .int 1 ∧ R.Reserves s 1) ∧
    ∃ u, run (D.enqueueStep id 9) (D.enqueueCreate (fun _ _ _ => 1) 0)
        (fourFree ++ List.replicate 1 (.alloc 64 0)) = some u ∧
      u.enq.Consults .uint32 1 ∧ D.GapReserves id 9 u 1 := by
  intro R D
  obtain ⟨s, hs, henq⟩ := Option.map_eq_some_iff.1 (show (run R.call (R.init fun _ => 0)
    [.alloc 8 0]).map (fun s => s.enq) = some ⟨24, 8, 0, 0, 8⟩ by decide +kernel)
  obtain ⟨u, hu, hobs⟩ := Option.map_eq_some_iff.1 (show (run (D.enqueueStep id 9)
    (D.enqueueCreate (fun _ _ _ => 1) 0) (fourFree ++ List.replicate 1 (.alloc 64 0))).map
      (fun u => (u.enq, u.issued, u.sys.q.made.length, u.sys.q.handed.length)) =
        some (⟨12288, 1536, 4096, 0, 1536⟩, 1, 4, 0) by decide +kernel)
  simp only [Prod.mk.injEq] at hobs
  obtain ⟨huenq, huissued, humade, huhanded⟩ := hobs
  obtain ⟨hcpu, -, hnic⟩ := gap_reserves R (by decide) (by decide) (fun _ _ _ => rfl) hs eightSlots
    id _ 0 9 hu le_rfl
  refine ⟨⟨s, hs, hcpu.2 ?_⟩, u, hu, (hnic (countsInTime_fourFree 1 _)).2 ⟨?_, fun _ hheld => ?_⟩⟩
  · rw [henq, GapVar.fits_int_iff (by decide)]
    decide
  · rw [huenq, GapVar.fits_uint32_iff (by decide) (by decide)]
    decide
  · -- `read_ready` is past the slot looked at
    have := hheld.2.1
    omega

/-- **The gap that ends at the end of the storage.**  In a ring of two slots with one entry
handed out, the gap `1` leads to the bytes behind the storage, so a second entry is
handed out although slot `0` is in use, and the call the gap was to reserve for fails. -/
theorem gap_behind_storage :
    let R : Ring := ⟨2, 8, 0, 0, fun m _ => m, true, Or.inl rfl, fun _ _ _ _ => rfl⟩
    ∃ s, run R.call (R.init fun _ => 0) [.alloc 8 0] = some s ∧
      GapVar.int.entry s.enq 1 = some (R.queue + R.slots * R.entrySize) ∧
      ¬ s.enq.Consults .int 1 ∧ ¬ s.enq.Consults .uint32 1 ∧ ¬ R.Reserves s 1 := by
  intro R
  obtain ⟨s, hs, hproj⟩ := Option.map_eq_some_iff.1 (show (run R.call (R.init fun _ => 0)
    [.alloc 8 0]).map (fun s => (s.enq, s.issued, s.got.length)) =
      some (⟨16, 8, 0, 0, 8⟩, [0], 0) by decide +kernel)
  obtain ⟨t, ht, htissued⟩ := Option.map_eq_some_iff.1 (show (run R.call (R.init fun _ => 0)
    ([.alloc 8 0] ++ [.alloc 8 1])).map (fun t => t.issued) = some [0, 8] by decide +kernel)
  obtain ⟨u, hu, huissued⟩ := Option.map_eq_some_iff.1 (show (run R.call (R.init fun _ => 0)
    ([.alloc 8 0] ++ [.alloc 8 1] ++ [.alloc 8 0])).map (fun u => u.issued) = some [0, 8]
      by decide +kernel)
  simp only [Prod.mk.injEq] at hproj
  obtain ⟨henq, hissued, hgot⟩ := hproj
  rw [run_append, ht, Option.bind_some] at hu
  rw [run_append, hs, Option.bind_some] at ht
  obtain ⟨t', ht, hnil⟩ := run_cons_eq_some ht
  obtain ⟨u', hu, hnil'⟩ := run_cons_eq_some hu
  cases hnil
  cases hnil'
  have hI : R.Inv s := Ring.inv_run_call (fun _ _ _ => rfl) hs
  have haligned : s.enq.Aligned := Ring.aligned_enq hI (by decide) (by decide)
  refine ⟨s, hs, by rw [henq]; decide +kernel, fun hc => ?_, fun hc => ?_, fun hres => ?_⟩
  · rw [haligned.consults_iff .int le_rfl, henq, GapVar.fits_int_iff (by decide)] at hc
    exact absurd hc (by decide)
  · rw [haligned.consults_iff .uint32 le_rfl, henq,
      GapVar.fits_uint32_iff (by decide) (by decide)] at hc
    exact absurd hc (by decide)
  · have horder : Ring.InRingOrder s := fun j k _ hk =>
      absurd (hI.released_lt k hk) (by rw [hgot]; exact Nat.not_lt_zero k)
    obtain ⟨e, v, hv, hvissued⟩ := hres horder (by decide) 8 t ht
      (by rw [htissued, hissued]; decide) [] t rfl
      (by rw [htissued]; decide) 8 (by decide) (by decide)
    rw [hu] at hv
    rw [← Option.some.inj hv, huissued, htissued] at hvissued
    exact absurd hvissued (by simp)

/-- **The gap that leads to a slot of the lap before.**  In a ring of eight slots on the NIC
with two entries handed out and two more ready, the gap `7` leads to slot `1`, which is in
the window because its entry is still being worked on, and the seven entries it was to
reserve are not there. -/
theorem gap_held :
    let D := enqueueDevice eightSlots
    ∃ u, run (D.enqueueStep id 9) (D.enqueueCreate (fun _ _ _ => 1) 0)
        (fourFree ++ List.replicate 2 (.alloc 64 0)) = some u ∧
      u.enq.Consults .uint32 7 ∧ ¬ D.GapReserves id 9 u 7 := by
  intro D
  obtain ⟨u, hu, hobs⟩ := Option.map_eq_some_iff.1 (show (run (D.enqueueStep id 9)
    (D.enqueueCreate (fun _ _ _ => 1) 0) (fourFree ++ List.replicate 2 (.alloc 64 0))).map
      (fun u => (u.enq, u.issued, u.sys.q.made.length, u.sys.q.handed.length)) =
        some (⟨12288, 3072, 4096, 0, 1536⟩, 2, 4, 0) by decide +kernel)
  simp only [Prod.mk.injEq] at hobs
  obtain ⟨huenq, huissued, humade, huhanded⟩ := hobs
  have hfits : GapVar.uint32.Fits u.enq 7 := by
    rw [huenq, GapVar.fits_uint32_iff (by decide) (by decide)]
    decide
  have hD := Device.gapReserves_iff id eightSlots hu (show 1 ≤ 7 by decide)
  refine ⟨u, hu, hD.1.2 hfits, fun hres => ?_⟩
  refine ((hD.2 (countsInTime_fourFree 2 _)).1 ⟨hD.1.2 hfits, hres⟩).2 (by decide) ⟨?_, ?_, ?_⟩
  · omega
  · omega
  · show _ + 8 ≤ _
    omega

end Nic
end Floem
