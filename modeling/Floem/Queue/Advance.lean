import Floem.Queue.Invariant

/-!
# Moving the ends of the ring

The two calls that move an end, and what they find there.

* `get_spec` — `dequeue_get` returns the next ticket exactly when it was
  submitted, with the content it was submitted with.
* `cleanLoop_spec` — the loop of `enqueue_clean` cleans released tickets in order,
  and stops within one lap.
* `alloc_spec` — `enqueue_alloc` hands out the slot of the next ticket only when
  the ticket that had it before was freed, cleaning it first where that is due.
* `inv_step`, `inv_run` — the ring invariant along every run.
-/

namespace Floem
namespace Queue
namespace Ring

open Lib

variable {R : Ring} {s t : State}

/-! ## What a slot shows -/

/-- A slot shows the flag of a ticket of the last lap, or no ticket reached it. -/
theorem Inv.flag_slot (hI : R.Inv s) (hN : 0 < R.slots) (hes : 0 < R.entrySize) (i : ℕ) :
    (∃ k, k < s.issued.length ∧ s.issued.length ≤ k + R.slots ∧ k % R.slots = i % R.slots ∧
      s.mem.flag (R.slotOf i) = R.flagOf s k) ∨ s.mem.flag (R.slotOf i) = 0 := by
  have hcell : R.slotOf (i % R.slots) = R.slotOf i := by rw [slotOf, slotOf, Nat.mod_mod]
  by_cases h : i % R.slots < s.issued.length
  · obtain ⟨k, hk, hk', hki⟩ := exists_ticket_of_cell (Nat.mod_lt i hN) h
    refine Or.inl ⟨k, hk, hk', hki, ?_⟩
    rw [← (hI.live k hk hk').flag, slotOf, slotOf, hki]
  · right
    rw [← hcell]
    exact hI.fresh hes _ (Nat.mod_lt i hN) (not_lt.1 h)

/-- The flag of every slot passes `check_flag`. -/
theorem Inv.flag_slot_and (hI : R.Inv s) (hN : 0 < R.slots) (hes : 0 < R.entrySize) (i : ℕ) :
    s.mem.flag (R.slotOf i) &&& 0xf0 = 0 := by
  rcases hI.flag_slot hN hes i with ⟨k, -, -, -, h⟩ | h
  · rw [h]; exact Inv.flagOf_and s k
  · rw [h]; decide

/-- The slot the next ticket is to get still belongs to the ticket one lap
before. -/
theorem Inv.flag_next (hI : R.Inv s) (hN : 0 < R.slots) (hE : R.slots ≤ s.issued.length) :
    s.mem.flag (R.slotOf s.issued.length) = R.flagOf s (s.issued.length - R.slots) := by
  have hslot : R.slotOf s.issued.length = R.slotOf (s.issued.length - R.slots) := by
    rw [slotOf, slotOf, ← add_lap_mod R.slots (s.issued.length - R.slots),
      Nat.sub_add_cancel hE]
  rw [hslot]
  exact (hI.live _ (by omega) (by omega)).flag

/-- The next ticket of the dequeue end was submitted exactly if its slot shows
`FLAG_OWN`. -/
theorem Inv.flag_head_iff (hI : R.Inv s) (hN : 0 < R.slots) (hes : 0 < R.entrySize) :
    s.mem.flag (R.slotOf s.got.length) = FLAG_OWN ↔ (s.sent s.got.length).isSome := by
  constructor
  · intro hflag
    by_contra hnone
    rw [Option.not_isSome_iff_eq_none] at hnone
    rcases Nat.lt_or_ge s.got.length s.issued.length with hlt | hge
    · have hwin := hI.in_window (k := s.got.length) (by rw [hI.flagOf_reserved hnone]; decide)
      rw [(hI.live _ hlt hwin).flag, hI.flagOf_reserved hnone] at hflag
      exact absurd hflag (by decide)
    · have hE : s.got.length = s.issued.length := le_antisymm hI.got_le hge
      rcases Nat.lt_or_ge s.issued.length R.slots with hfirst | hlap
      · rw [hE, hI.fresh hes _ hfirst le_rfl] at hflag
        exact absurd hflag (by decide)
      · rw [hE, hI.flag_next hN hlap] at hflag
        exact Inv.flagOf_ne_own (by omega) hflag
  · intro hsome
    have hfl := hI.flagOf_ready le_rfl hsome
    rw [(hI.live _ (hI.sent_lt _ hsome) (hI.in_window (by rw [hfl]; decide))).flag, hfl]

/-- The offset of an end steps from ticket to ticket. -/
theorem advance_endAt (hN : 0 < R.slots) (hes : 0 < R.entrySize) (a b k : ℕ) :
    (R.endAt a b).advance (k % R.slots * R.entrySize) = (k + 1) % R.slots * R.entrySize :=
  next_offset hN hes

theorem offset_lt (hN : 0 < R.slots) (hes : 0 < R.entrySize) (k : ℕ) :
    k % R.slots * R.entrySize < R.slots * R.entrySize :=
  Nat.mul_lt_mul_of_pos_right (Nat.mod_lt k hN) hes

/-- Where there is an offset inside the storage there is a slot, and it is not
empty. -/
theorem pos_of_offset_lt {k : ℕ} (h : k % R.slots * R.entrySize < R.slots * R.entrySize) :
    0 < R.slots ∧ 0 < R.entrySize := by
  constructor
  · rcases Nat.eq_zero_or_pos R.slots with h0 | h0
    · rw [h0] at h; simp at h
    · exact h0
  · rcases Nat.eq_zero_or_pos R.entrySize with h0 | h0
    · rw [h0] at h; simp at h
    · exact h0

/-! ## `dequeue_get` -/

/-- The state after `dequeue_get` returned the next ticket, whose content is
`c`. -/
def taken (R : Ring) (s : State) (c : UInt8 × List UInt8) : State :=
  { s with mem := s.mem.setFlag (R.slotOf s.got.length) 5,
           deq := R.endAt (s.got.length + 1) 0,
           got := s.got ++ [(R.slotOf s.got.length, c)] }

/-- **`dequeue_get` follows the tickets.**  If the next ticket was submitted and its
recorded length is not zero, the call returns it with the content it was submitted
with; otherwise it returns `NULL` and changes nothing. -/
theorem get_spec (hI : R.Inv s) (hN : 0 < R.slots) (hes : 0 < R.entrySize) :
    (∀ c, s.sent s.got.length = some c → s.mem.len (R.slotOf s.got.length) ≠ 0 →
      R.step s .get = some (R.taken s c)) ∧
    (s.sent s.got.length = none ∨ s.mem.len (R.slotOf s.got.length) = 0 →
      R.step s .get = some s) := by
  have hoff : s.deq.offset < s.deq.len := by rw [hI.deq_eq]; exact offset_lt hN hes _
  have heqe : s.deq.queue + s.deq.offset = R.slotOf s.got.length := by rw [hI.deq_eq]; rfl
  have hiff := hI.flag_head_iff hN hes
  constructor
  · intro c hc hlen
    have hsome : (s.sent s.got.length).isSome := by rw [hc]; rfl
    have hlt := hI.sent_lt _ hsome
    have hfl := hI.flagOf_ready le_rfl hsome
    have hok := hI.live _ hlt (hI.in_window (by rw [hfl]; decide))
    obtain ⟨hpad, hcont⟩ := hok.sent le_rfl c hc
    have hget := dequeueGet_of_ready hoff (by rwa [heqe]) (by rw [heqe]; exact hiff.2 hsome)
      (by rwa [heqe])
    rw [heqe] at hget
    have hdeq : { s.deq with offset := s.deq.advance s.deq.offset }
        = R.endAt (s.got.length + 1) 0 := by
      rw [hI.deq_eq]
      show CircularQueue.mk _ ((R.endAt s.got.length 0).advance _) _ _ _ = _
      rw [show (R.endAt s.got.length 0).offset = s.got.length % R.slots * R.entrySize from rfl,
        advance_endAt hN hes]
      rfl
    simp [step, hget, hdeq, taken, Mem.content_setFlag, hcont]
  · intro h
    have hget : dequeueGet s.mem s.deq = some (s.mem, s.deq, QBuffer.null) := by
      rcases h with hnone | hlen
      · exact dequeueGet_of_not_own hoff (by rw [heqe, Ne, hiff, hnone]; simp)
      · exact dequeueGet_of_len_zero hoff (by rw [heqe, hlen])
    simp [step, hget, QBuffer.null]

/-- The length recorded for a ticket that waits for the dequeuer is not zero, if every
length that is rounded up fits the 16-bit field. -/
theorem Inv.len_head (hI : R.Inv s) (hword : R.entrySize ≤ 65528)
    (hsome : (s.sent s.got.length).isSome) : s.mem.len (R.slotOf s.got.length) ≠ 0 := by
  have hfl := hI.flagOf_ready le_rfl hsome
  exact (hI.live _ (hI.sent_lt _ hsome) (hI.in_window (by rw [hfl]; decide))).len hword le_rfl

theorem inv_taken (hI : R.Inv s) {c : UInt8 × List UInt8} (hc : s.sent s.got.length = some c) :
    R.Inv (R.taken s c) := by
  have hsome : (s.sent s.got.length).isSome := by rw [hc]; rfl
  have hlt := hI.sent_lt _ hsome
  have hfl := hI.flagOf_ready le_rfl hsome
  have hwin := hI.in_window (k := s.got.length) (by rw [hfl]; decide)
  have hsize := (hI.sizes (List.ne_nil_of_length_pos (by omega))).2
  have hlen : (R.taken s c).got.length = s.got.length + 1 := by simp [taken]
  have hrel : s.released s.got.length ≠ true := fun hr => absurd (hI.released_lt _ hr) (by omega)
  have hcl : ¬ s.got.length < s.cleaned.length := by
    have := hI.cleaned_le
    omega
  have hflag : ∀ k, k ≠ s.got.length → R.flagOf (R.taken s c) k = R.flagOf s k := fun k hk => by
    have hiff : k < (R.taken s c).got.length ↔ k < s.got.length := by rw [hlen]; omega
    rw [flagOf, flagOf, if_congr hiff rfl rfl]
    rfl
  obtain ⟨h1, h2, h3⟩ := hI.slots_of_update (t := R.taken s c) hlt hwin rfl
    (Mem.changesOnly_set s.mem 5 le_rfl (by rw [headerSize] at hsize; omega)) hflag
    (fun _ _ => rfl) (by omega)
    { flag := (Mem.flag_setFlag ..).trans
        ((if_neg hcl).trans ((if_neg hrel).trans (if_pos (by omega)))).symm
      len := fun _ hle => absurd hle (by omega)
      sent := fun hle => absurd hle (by omega) }
  refine { hI with
    deq_eq := by rw [hlen]; rfl
    got_le := by rw [hlen]; exact hlt
    got_eq := fun k g hg => ?_
    released_lt := fun k hk => by rw [hlen]; exact (hI.released_lt k hk).trans (Nat.lt_succ_self _)
    reused := h1, live := h2, fresh := h3 }
  rcases Nat.lt_or_ge k s.got.length with hk | hk
  · exact hI.got_eq k g (by rwa [taken, List.getElem?_append_left hk] at hg)
  · have hk' : k = s.got.length := by
      have := (List.getElem?_eq_some_iff.1 hg).1
      omega
    subst hk'
    rw [taken, List.getElem?_concat_length] at hg
    cases hg
    exact ⟨rfl, hc⟩

theorem step_get_guard {u : State} (hI : R.Inv s) (h : R.step s .get = some u) :
    0 < R.slots ∧ 0 < R.entrySize := by
  simp only [step, dequeueGet, Option.bind_eq_bind, Option.bind_eq_some_iff,
    Option.guard_eq_some'] at h
  obtain ⟨_, ⟨_, hoff, -⟩, -⟩ := h
  rw [hI.deq_eq] at hoff
  exact pos_of_offset_lt hoff

theorem inv_get (hI : R.Inv s) (h : R.step s .get = some t) : R.Inv t := by
  obtain ⟨hN, hes⟩ := step_get_guard hI h
  obtain ⟨hsome, hnone⟩ := get_spec hI hN hes
  by_cases hlen : s.mem.len (R.slotOf s.got.length) = 0
  · rw [hnone (Or.inr hlen)] at h
    exact Option.some.inj h ▸ hI
  cases hc : s.sent s.got.length with
  | none =>
      rw [hnone (Or.inl hc)] at h
      exact Option.some.inj h ▸ hI
  | some c =>
      rw [hsome c hc hlen] at h
      exact Option.some.inj h ▸ inv_taken hI hc

/-! ## `enqueue_clean` -/

/-- The state after one round of the clean loop: the next ticket to clean was
handed to the clean function and its slot is free. -/
def cleanedOne (R : Ring) (s : State) : State :=
  { s with mem := (R.cleanFunc s.mem (R.slotOf s.cleaned.length)).setFlag
             (R.slotOf s.cleaned.length) 0,
           enq := R.endAt s.issued.length (s.cleaned.length + 1),
           cleaned := s.cleaned ++ [R.slotOf s.cleaned.length] }

/-- Slots show `FLAG_CLEAN` only in queues whose releases store it. -/
theorem flagClean_of_flagOf {k : ℕ} (h : R.flagOf s k = FLAG_CLEAN) :
    R.flagClean = FLAG_CLEAN ∧ ¬ k < s.cleaned.length ∧ s.released k = true := by
  rw [flagOf] at h
  split_ifs at h with h1 h2
  · exact absurd h (by decide)
  · exact ⟨h, h1, h2⟩
  all_goals exact absurd h (by decide)

/-- In a queue whose releases store `FLAG_CLEAN`, a ticket whose slot is free was
cleaned. -/
theorem cleaned_of_flagOf {k : ℕ} (hR : R.flagClean = FLAG_CLEAN) (h : R.flagOf s k = 0) :
    k < s.cleaned.length := by
  rw [flagOf, hR] at h
  split_ifs at h with h1
  · exact h1
  all_goals exact absurd h (by decide)

/-- **The clean pointer meets released tickets only.**  When the slot at the clean
pointer is in state `FLAG_CLEAN`, it is the slot of the next ticket to clean, and
that ticket was released. -/
theorem Inv.dirty_head (hI : R.Inv s) (hN : 0 < R.slots) (hes : 0 < R.entrySize)
    (h : s.mem.flag (R.slotOf s.cleaned.length) = FLAG_CLEAN) :
    s.cleaned.length < s.issued.length ∧ s.issued.length ≤ s.cleaned.length + R.slots ∧
      R.flagOf s s.cleaned.length = FLAG_CLEAN := by
  have hmode : R.flagClean = FLAG_CLEAN := by
    rcases hI.flag_slot hN hes s.cleaned.length with ⟨k, -, -, -, hk⟩ | h0
    · exact (flagClean_of_flagOf (hk.symm.trans h)).1
    · exact absurd (h0.symm.trans h) (by decide)
  have hwin : s.issued.length ≤ s.cleaned.length + R.slots := hI.in_window fun h0 =>
    absurd (cleaned_of_flagOf hmode h0) (lt_irrefl _)
  have hlt : s.cleaned.length < s.issued.length := by
    by_contra hge
    have hE : s.cleaned.length = s.issued.length :=
      le_antisymm (hI.cleaned_le.trans hI.got_le) (not_lt.1 hge)
    rcases Nat.lt_or_ge s.issued.length R.slots with hfirst | hlap
    · rw [hE, hI.fresh hes _ hfirst le_rfl] at h
      exact absurd h (by decide)
    · rw [hE, hI.flag_next hN hlap] at h
      exact (flagClean_of_flagOf h).2.1 (by omega)
  exact ⟨hlt, hwin, (hI.live _ hlt hwin).flag.symm.trans h⟩

theorem inv_cleanedOne (hI : R.Inv s) (hN : 0 < R.slots) (hes : 0 < R.entrySize)
    (h : s.mem.flag (R.slotOf s.cleaned.length) = FLAG_CLEAN) : R.Inv (R.cleanedOne s) := by
  obtain ⟨hlt, hwin, hfl⟩ := hI.dirty_head hN hes h
  obtain ⟨hmode, -, hrel⟩ := flagClean_of_flagOf hfl
  have hsize := (hI.sizes (List.ne_nil_of_length_pos (by omega))).2
  have hgot : s.cleaned.length < s.got.length := hI.released_lt _ hrel
  have hlen : (R.cleanedOne s).cleaned.length = s.cleaned.length + 1 := by simp [cleanedOne]
  have hmem : Mem.ChangesOnly R.entrySize (R.slotOf s.cleaned.length) s.mem
      (R.cleanedOne s).mem := by
    have hfunc : Mem.ChangesOnly R.entrySize (R.slotOf s.cleaned.length) s.mem
        (R.cleanFunc s.mem (R.slotOf s.cleaned.length)) := fun x hx =>
      R.cleanFunc_frame s.mem _ x (by omega)
    rw [headerSize] at hsize
    exact hfunc.trans (Mem.changesOnly_set _ _ le_rfl (by omega))
  obtain ⟨h1, h2, h3⟩ := hI.slots_of_update (t := R.cleanedOne s) hlt hwin rfl hmem
    (fun k hk => by
      have hiff : k < (R.cleanedOne s).cleaned.length ↔ k < s.cleaned.length := by
        rw [hlen]; omega
      rw [flagOf, flagOf, if_congr hiff rfl rfl]
      rfl)
    (fun _ _ => rfl) le_rfl
    { flag := (Mem.flag_setFlag ..).trans (if_pos (by omega)).symm
      len := fun _ hle => absurd hgot (not_lt.2 hle)
      sent := fun hle => absurd hgot (not_lt.2 hle) }
  refine { hI with
    enq_eq := by rw [hlen]; rfl
    cleaned_eq := fun k e he => ?_
    cleaned_flag := fun h0 => absurd (h0.symm.trans hmode) (by decide)
    reused := h1, live := h2, fresh := h3 }
  rcases Nat.lt_or_ge k s.cleaned.length with hk | hk
  · exact hI.cleaned_eq k e (by rwa [cleanedOne, List.getElem?_append_left hk] at he)
  · have hk' : k = s.cleaned.length := by
      have := (List.getElem?_eq_some_iff.1 he).1
      omega
    subst hk'
    rw [cleanedOne, List.getElem?_concat_length] at he
    cases he
    exact ⟨rfl, hrel⟩

/-- The state after the clean loop called the clean function on `calls`. -/
def cleanedTo (R : Ring) (s : State) (m : Mem) (calls : List ℕ) : State :=
  { s with mem := m, enq := R.endAt s.issued.length (s.cleaned.length + calls.length),
           cleaned := s.cleaned ++ calls }

/-- What the clean loop leaves behind when it hands `calls` to the clean
function: the invariant, a clean pointer at a slot that is not in state
`FLAG_CLEAN`, and only slots cleaned that were in that state before. -/
structure CleanLoopPost (R : Ring) (s : State) (m : Mem) (calls : List ℕ) : Prop where
  inv : R.Inv (R.cleanedTo s m calls)
  stop : m.flag (R.slotOf (s.cleaned.length + calls.length)) ≠ FLAG_CLEAN
  dirty : ∀ k, s.cleaned.length ≤ k → k < s.cleaned.length + calls.length →
    R.flagOf s k = FLAG_CLEAN
  start : s.mem.flag (R.slotOf s.cleaned.length) = FLAG_CLEAN → 0 < calls.length

/-- **The loop of `enqueue_clean` stops within one lap**, having called the clean
function on released tickets in order. -/
theorem cleanLoop_spec (hN : 0 < R.slots) (hes : 0 < R.entrySize) (fuel : ℕ) :
    ∀ s, R.Inv s → s.issued.length - s.cleaned.length < fuel →
      ∃ m calls, enqueueCleanLoop R.cleanFunc fuel s.mem s.enq =
          some (m, R.endAt s.issued.length (s.cleaned.length + calls.length), calls) ∧
        R.CleanLoopPost s m calls := by
  induction fuel with
  | zero => intro s _ h; omega
  | succ fuel ih =>
      intro s hI hfuel
      have heqe : s.enq.queue + s.enq.clean = R.slotOf s.cleaned.length := by rw [hI.enq_eq]; rfl
      have hcheck : checkFlag s.mem (s.enq.queue + s.enq.clean) = some () := by
        rw [heqe, checkFlag]
        exact if_pos (hI.flag_slot_and hN hes _)
      by_cases hflag : s.mem.flag (R.slotOf s.cleaned.length) = FLAG_CLEAN
      · -- one round, and the rest of the loop from the state after it
        obtain ⟨hlt, -, hfl⟩ := hI.dirty_head hN hes hflag
        have hI₁ := inv_cleanedOne hI hN hes hflag
        have hlen₁ : (R.cleanedOne s).cleaned.length = s.cleaned.length + 1 := by simp [cleanedOne]
        have hiss₁ : (R.cleanedOne s).issued = s.issued := rfl
        obtain ⟨m, calls, hloop, hpost⟩ := ih _ hI₁ (by rw [hlen₁, hiss₁]; omega)
        have hsum : (R.cleanedOne s).cleaned.length + calls.length
            = s.cleaned.length + (R.slotOf s.cleaned.length :: calls).length := by
          rw [hlen₁, List.length_cons]; omega
        have hto : R.cleanedTo (R.cleanedOne s) m calls
            = R.cleanedTo s m (R.slotOf s.cleaned.length :: calls) := by
          rw [cleanedTo, cleanedTo, hsum]
          simp [cleanedOne]
        refine ⟨m, R.slotOf s.cleaned.length :: calls, ?_, ?_, ?_, ?_, fun _ => Nat.succ_pos _⟩
        · have henq : { s.enq with clean := s.enq.advance s.enq.clean }
              = (R.cleanedOne s).enq := by
            rw [hI.enq_eq]
            show CircularQueue.mk _ _ _ ((R.endAt _ _).advance _) _ = _
            rw [show (R.endAt s.issued.length s.cleaned.length).clean
              = s.cleaned.length % R.slots * R.entrySize from rfl, advance_endAt hN hes]
            rfl
          have hstep : enqueueCleanLoop R.cleanFunc (fuel + 1) s.mem s.enq
              = (enqueueCleanLoop R.cleanFunc fuel (R.cleanedOne s).mem (R.cleanedOne s).enq).bind
                fun r => some (r.1, r.2.1, R.slotOf s.cleaned.length :: r.2.2) := by
            rw [enqueueCleanLoop, hcheck, heqe, henq]
            simp [hflag, cleanedOne, Option.bind]
          rw [hstep, hloop, Option.bind_some, ← hsum]
          rfl
        · rw [← hto]; exact hpost.inv
        · rw [← hsum]; exact hpost.stop
        · intro k hk hk'
          rcases Nat.eq_or_lt_of_le hk with heq | hgt
          · rw [← heq]; exact hfl
          · have := hpost.dirty k (by omega) (by rw [hsum]; exact hk')
            have hiff : k < (R.cleanedOne s).cleaned.length ↔ k < s.cleaned.length := by
              rw [hlen₁]; omega
            rw [flagOf, if_congr hiff rfl rfl] at this
            exact this
      · -- the slot at the clean pointer is not in state `FLAG_CLEAN`: stop at once
        refine ⟨s.mem, [], ?_, ?_, hflag, fun k hk hk' => absurd hk' (by simpa using hk),
          fun h => absurd h hflag⟩
        · rw [enqueueCleanLoop, hcheck, heqe]
          simp [hflag, hI.enq_eq]
        · have : R.cleanedTo s s.mem [] = s := by simp [cleanedTo, ← hI.enq_eq]
          rw [this]; exact hI

/-! ## `enqueue_alloc` -/

/-- The state after `enqueue_alloc` handed out the slot of the next ticket. -/
def reserved (R : Ring) (s : State) (len : ℕ) : State :=
  { s with mem := ((s.mem.setLen (R.slotOf s.issued.length) (alignUp len)).setFlag
             (R.slotOf s.issued.length) FLAG_INUSE).setTask (R.slotOf s.issued.length) 0,
           enq := R.endAt (s.issued.length + 1) s.cleaned.length,
           issued := s.issued ++ [R.slotOf s.issued.length] }

/-- Handing out a free slot keeps the invariant. -/
theorem inv_reserved (hI : R.Inv s) (hN : 0 < R.slots) {len : ℕ} (hlen : headerSize ≤ len)
    (hlen' : len ≤ R.entrySize) (hfree : s.mem.flag (R.slotOf s.issued.length) = 0) :
    R.Inv (R.reserved s len) := by
  have hsize : headerSize ≤ R.entrySize := hlen.trans hlen'
  have hE : (R.reserved s len).issued.length = s.issued.length + 1 := by simp [reserved]
  have hnone : s.sent s.issued.length = none := by
    by_contra h
    exact absurd (hI.sent_lt _ (Option.isSome_iff_ne_none.2 h)) (lt_irrefl _)
  have hmem : Mem.ChangesOnly R.entrySize (R.slotOf s.issued.length) s.mem
      (R.reserved s len).mem := by
    have h6 := hsize
    rw [headerSize] at h6
    refine Mem.ChangesOnly.trans ?_ (Mem.changesOnly_set _ _ (by omega) (by omega))
    refine Mem.ChangesOnly.trans ?_ (Mem.changesOnly_set _ _ (by omega) (by omega))
    exact Mem.ChangesOnly.trans (Mem.changesOnly_set _ _ (by omega) (by omega))
      (Mem.changesOnly_set _ _ (by omega) (by omega))
  have hagree : ∀ k, s.issued.length % R.slots ≠ k % R.slots →
      Mem.AgreeOn R.entrySize (R.slotOf k) s.mem (R.reserved s len).mem := fun k hk =>
    hmem.agreeOn (slotOf_disjoint hk).symm
  have hword : R.entrySize ≤ 65528 →
      (R.reserved s len).mem.len (R.slotOf s.issued.length) ≠ 0 := by
    intro hle
    have hb := alignUp_bounds hlen (hlen'.trans hle)
    rw [headerSize] at hlen
    show Mem.len (Mem.setTask _ _ _) _ ≠ 0
    rw [Mem.len_setTask, Mem.len_setFlag, Mem.len_setLen, Nat.mod_eq_of_lt (by omega)]
    omega
  refine { hI with
    sizes := fun _ => ⟨hN, hsize⟩
    enq_eq := by rw [hE]; rfl
    got_le := by rw [hE]; exact hI.got_le.trans (Nat.le_succ _)
    issued_eq := fun k e he => ?_
    sent_lt := fun k hk => by rw [hE]; exact (hI.sent_lt k hk).trans (Nat.lt_succ_self _)
    reused := fun k hk => ?_
    live := fun k hk hk' => ?_
    fresh := fun hes k hk hk' => ?_ }
  · rcases Nat.lt_or_ge k s.issued.length with hk | hk
    · exact hI.issued_eq k e (by rwa [reserved, List.getElem?_append_left hk] at he)
    · have hk' : k = s.issued.length := by
        have := (List.getElem?_eq_some_iff.1 he).1
        omega
      subst hk'
      rw [reserved, List.getElem?_concat_length] at he
      exact (Option.some.inj he).symm
  · -- the ticket that had the slot one lap before shows the flag `0` it was found with
    rw [hE] at hk
    rcases Nat.lt_or_ge (k + R.slots) s.issued.length with h | h
    · exact hI.reused k h
    · have hkE : s.issued.length - R.slots = k := by omega
      have hnext := hI.flag_next hN (by omega)
      rw [hfree, hkE] at hnext
      exact hnext.symm
  · rw [hE] at hk hk'
    by_cases hkE : k = s.issued.length
    · subst hkE
      exact
        { flag := by
            have hfl : R.flagOf (R.reserved s len) s.issued.length = FLAG_INUSE :=
              hI.flagOf_reserved hnone
            rw [hfl]
            simp [reserved]
          len := fun hle _ => hword hle
          sent := fun _ c hc => absurd (hnone.symm.trans hc) (by simp) }
    · have hcell : s.issued.length % R.slots ≠ k % R.slots :=
        (mod_ne_of_window (show k < s.issued.length by omega) (by omega)).symm
      exact (hI.live k (by omega) (by omega)).congr (hagree k hcell) hsize rfl le_rfl rfl
  · rw [hE] at hk'
    have hcell : s.issued.length % R.slots ≠ k % R.slots :=
      mod_ne_of_window (by omega) (by omega)
    rw [(hagree k hcell).flag_eq hsize]
    exact hI.fresh hes k hk (by omega)

/-- What `enqueue_alloc` leaves behind before it looks at the slot it may hand
out: the state after cleaning, where cleaning is due. -/
structure AllocPre (R : Ring) (s : State) (m : Mem) (calls : List ℕ) : Prop where
  inv : R.Inv (R.cleanedTo s m calls)
  /-- A slot in state `FLAG_CLEAN` has been cleaned. -/
  clean : s.mem.flag (R.slotOf s.issued.length) = FLAG_CLEAN →
    m.flag (R.slotOf s.issued.length) = 0
  /-- For any other slot nothing was cleaned. -/
  same : s.mem.flag (R.slotOf s.issued.length) ≠ FLAG_CLEAN → m = s.mem ∧ calls = []
  dirty : ∀ k, s.cleaned.length ≤ k → k < s.cleaned.length + calls.length →
    R.flagOf s k = FLAG_CLEAN

/-- The call once its cleaning is known. -/
theorem allocAt_of_cleaned (hI : R.Inv s) (hN : 0 < R.slots) {len check : ℕ}
    (hlen : headerSize ≤ len) (hlen' : len ≤ R.entrySize) {m : Mem} {calls : List ℕ}
    (hclean : (if s.mem.flag (R.slotOf s.issued.length) = FLAG_CLEAN
        then enqueueClean R.cleanFunc R.cleanFuel s.mem s.enq else some (s.mem, s.enq, [])) =
      some (m, R.endAt s.issued.length (s.cleaned.length + calls.length), calls)) :
    R.allocAt s len check = some
      (if m.flag (R.slotOf s.issued.length) = 0 ∧
          (m.flag check = 0 ∨ m.flag check = FLAG_CLEAN)
        then R.reserved (R.cleanedTo s m calls) len else R.cleanedTo s m calls) := by
  have hes : 0 < R.entrySize := by rw [headerSize] at hlen; omega
  have hg1 : (guard (s.enq.offset < s.enq.len) : Option Unit) = some () :=
    if_pos (by rw [hI.enq_eq]; exact offset_lt hN hes _)
  have hg2 : (guard (len ≤ s.enq.entrySize) : Option Unit) = some () :=
    if_pos (by rw [hI.enq_eq]; exact hlen')
  have hg3 : (guard (headerSize ≤ len ∧ len ≤ R.entrySize) : Option Unit) = some () :=
    if_pos ⟨hlen, hlen'⟩
  have heqe : s.enq.queue + s.enq.offset = R.slotOf s.issued.length := by rw [hI.enq_eq]; rfl
  have hadv : ∀ c, (R.endAt s.issued.length c).advance (R.endAt s.issued.length c).offset
      = (s.issued.length + 1) % R.slots * R.entrySize := fun c => advance_endAt hN hes _ _ _
  -- the state the call is in once its cleaning is done
  have hrest : R.allocAt s len check =
      (if s.mem.flag (R.slotOf s.issued.length) = FLAG_CLEAN
        then enqueueClean R.cleanFunc R.cleanFuel s.mem s.enq else some (s.mem, s.enq, [])).bind
      fun r => some (
        if r.1.flag (R.slotOf s.issued.length) = 0 ∧
            (r.1.flag check = 0 ∨ r.1.flag check = FLAG_CLEAN)
        then { s with mem := ((r.1.setLen (R.slotOf s.issued.length) (alignUp len)).setFlag
                        (R.slotOf s.issued.length) FLAG_INUSE).setTask (R.slotOf s.issued.length) 0,
                      enq := { r.2.1 with offset := r.2.1.advance r.2.1.offset },
                      issued := s.issued ++ [R.slotOf s.issued.length],
                      cleaned := s.cleaned ++ r.2.2 }
        else { s with mem := r.1, enq := r.2.1, cleaned := s.cleaned ++ r.2.2 }) := by
    simp only [allocAt, enqueueAllocAt, hg1, hg2, hg3, heqe, Option.bind_eq_bind, Option.bind_some]
    by_cases hdirty : s.mem.flag (R.slotOf s.issued.length) = FLAG_CLEAN
    · simp only [if_pos hdirty]
      rw [Option.bind_assoc]
      congr 1
      funext r
      by_cases hfree : r.1.flag (R.slotOf s.issued.length) = 0 ∧
          (r.1.flag check = 0 ∨ r.1.flag check = FLAG_CLEAN)
      · simp [hfree]
      · simp [if_neg hfree, QBuffer.null]
    · simp only [if_neg hdirty, Option.bind_some]
      by_cases hfree : s.mem.flag (R.slotOf s.issued.length) = 0 ∧
          (s.mem.flag check = 0 ∨ s.mem.flag check = FLAG_CLEAN)
      · simp [hfree]
      · simp [if_neg hfree, QBuffer.null]
  rw [hrest, hclean, Option.bind_some]
  congr 1
  by_cases hfree : m.flag (R.slotOf s.issued.length) = 0 ∧
      (m.flag check = 0 ∨ m.flag check = FLAG_CLEAN)
  · rw [if_pos hfree, if_pos hfree, hadv]
    simp [reserved, cleanedTo, endAt]
  · rw [if_neg hfree, if_neg hfree]
    rfl

/-- **`enqueue_alloc` follows the tickets.**  After cleaning, the call hands out
the slot of the next ticket if that slot, and the one it consults for the gap,
are free; otherwise it returns `NULL`. -/
theorem allocAt_spec (hI : R.Inv s) (hN : 0 < R.slots) (check : ℕ) {len : ℕ} (hlen : headerSize ≤ len)
    (hlen' : len ≤ R.entrySize) :
    ∃ m calls, R.AllocPre s m calls ∧
      R.allocAt s len check = some
        (if m.flag (R.slotOf s.issued.length) = 0 ∧
            (m.flag check = 0 ∨ m.flag check = FLAG_CLEAN)
          then R.reserved (R.cleanedTo s m calls) len else R.cleanedTo s m calls) := by
  have hes : 0 < R.entrySize := by rw [headerSize] at hlen; omega
  by_cases hflag : s.mem.flag (R.slotOf s.issued.length) = FLAG_CLEAN
  · -- the ticket one lap before was released and not cleaned, so it is next to clean
    have hlap : R.slots ≤ s.issued.length := by
      by_contra hfirst
      rw [hI.fresh hes _ (not_le.1 hfirst) le_rfl] at hflag
      exact absurd hflag (by decide)
    obtain ⟨hmode, hncl, -⟩ := flagClean_of_flagOf ((hI.flag_next hN hlap).symm.trans hflag)
    have hC : s.cleaned.length = s.issued.length - R.slots := by
      by_contra hne
      have := cleaned_of_flagOf hmode (hI.reused s.cleaned.length (by omega))
      omega
    have hslot : R.slotOf s.cleaned.length = R.slotOf s.issued.length := by
      rw [slotOf, slotOf, hC, ← add_lap_mod R.slots (s.issued.length - R.slots),
        Nat.sub_add_cancel hlap]
    obtain ⟨m, calls, hloop, hpost⟩ := cleanLoop_spec hN hes R.cleanFuel s hI
      (by rw [cleanFuel]; omega)
    have hcalls : 0 < calls.length := hpost.start (by rw [hslot]; exact hflag)
    have hfree : m.flag (R.slotOf s.issued.length) = 0 := by
      refine (hpost.inv.flag_next hN hlap).trans (if_pos ?_)
      show s.issued.length - R.slots < (s.cleaned ++ calls).length
      rw [List.length_append]
      omega
    refine ⟨m, calls, ⟨hpost.inv, fun _ => hfree, fun h => absurd hflag h, hpost.dirty⟩,
      allocAt_of_cleaned hI hN hlen hlen' ?_⟩
    have hcl : s.enq.clean < s.enq.len := by rw [hI.enq_eq]; exact offset_lt hN hes _
    rw [if_pos hflag, enqueueClean, show (guard (s.enq.clean < s.enq.len) : Option Unit) =
      some () from if_pos hcl]
    exact hloop
  · have hself : R.cleanedTo s s.mem [] = s := by simp [cleanedTo, ← hI.enq_eq]
    refine ⟨s.mem, [], ⟨by rw [hself]; exact hI, fun h => absurd h hflag,
      fun _ => ⟨rfl, rfl⟩, fun k hk hk' => absurd hk' (by simpa using hk)⟩,
      allocAt_of_cleaned hI hN hlen hlen' ?_⟩
    rw [if_neg hflag, hI.enq_eq]
    simp

theorem allocAt_guard {len check : ℕ} (hI : R.Inv s) (h : R.allocAt s len check = some t) :
    0 < R.slots ∧ headerSize ≤ len ∧ len ≤ R.entrySize := by
  simp only [allocAt, enqueueAllocAt, Option.bind_eq_bind, Option.bind_eq_some_iff,
    Option.guard_eq_some'] at h
  obtain ⟨-, hlen, _, ⟨-, hoff, -⟩, -⟩ := h
  rw [hI.enq_eq] at hoff
  exact ⟨(pos_of_offset_lt hoff).1, hlen⟩

theorem inv_allocAt {len check : ℕ} (hI : R.Inv s) (h : R.allocAt s len check = some t) :
    R.Inv t := by
  obtain ⟨hN, hlen, hlen'⟩ := allocAt_guard hI h
  obtain ⟨m, calls, hpre, hstep⟩ := allocAt_spec hI hN check hlen hlen'
  rw [hstep] at h
  rw [← Option.some.inj h]
  split_ifs with hfree
  · exact inv_reserved hpre.inv hN hlen hlen' hfree.1
  · exact hpre.inv

theorem alloc_spec (hI : R.Inv s) (hN : 0 < R.slots) (gap : ℕ) {len : ℕ} (hlen : headerSize ≤ len)
    (hlen' : len ≤ R.entrySize) :
    ∃ m calls, R.AllocPre s m calls ∧
      R.step s (.alloc len gap) = some
        (if m.flag (R.slotOf s.issued.length) = 0 ∧
            (m.flag (gapEntry s.enq gap) = 0 ∨ m.flag (gapEntry s.enq gap) = FLAG_CLEAN)
          then R.reserved (R.cleanedTo s m calls) len else R.cleanedTo s m calls) :=
  allocAt_spec hI hN (gapEntry s.enq gap) hlen hlen'

theorem step_alloc_guard {len gap : ℕ} (hI : R.Inv s) (h : R.step s (.alloc len gap) = some t) :
    0 < R.slots ∧ headerSize ≤ len ∧ len ≤ R.entrySize := allocAt_guard hI h

theorem inv_alloc {len gap : ℕ} (hI : R.Inv s) (h : R.step s (.alloc len gap) = some t) :
    R.Inv t := inv_allocAt hI h

/-! ## Runs -/

/-- **Every step keeps the ring invariant.** -/
theorem inv_step (s : State) (a : Action) (t : State) (hI : R.Inv s)
    (h : R.step s a = some t) : R.Inv t := by
  cases a with
  | alloc len gap => exact inv_alloc hI h
  | produce k i b => exact inv_produce hI h
  | submit k => exact inv_submit hI h
  | get => exact inv_get hI h
  | consume k i b => exact inv_consume hI h
  | release k => exact inv_release hI h

/-- The invariant holds of a ring on zeroed storage. -/
theorem inv_init {mem : Mem} (hzero : R.Zeroed mem) : R.Inv (R.init mem) where
  sizes h := absurd rfl h
  enq_eq := by simp [init, endAt]
  deq_eq := by simp [init, endAt]
  got_le := le_rfl
  issued_eq k e h := by simp [init] at h
  got_eq k g h := by simp [init] at h
  cleaned_eq k e h := by simp [init] at h
  cleaned_flag _ := rfl
  released_lt k h := by simp [init] at h
  sent_lt k h := by simp [init] at h
  reused k h := by simp [init] at h
  live k h := by simp [init] at h
  fresh hes k hk _ := by
    have hlt := offset_lt (show 0 < R.slots by omega) hes k
    exact hzero _ (by rw [slotOf]; omega) (by rw [slotOf]; omega)

/-- **Every run keeps the ring invariant.** -/
theorem inv_run {mem : Mem} (hzero : R.Zeroed mem) {as : List Action}
    (h : run R.step (R.init mem) as = some s) : R.Inv s :=
  run_invariant inv_step (inv_init hzero) h

end Ring
end Queue
end Floem
