import Floem.Queue.Fifo

/-!
# The recorded length and the checksum

`enqueue_alloc` rounds the length of an entry up to a multiple of eight and records
it in a 16-bit field; `enqueue_submit` and `dequeue_ready_var_checksum` sum as many
bytes as the field says.

* `xorBytes_set` — the sum of some bytes after one of them is stored;
  `xorBytes_submit` — the checksum makes the sum of the whole entry zero.
* `CircularQueue.StaysInSlot` — the recorded length lies between the length asked for
  and the size of a slot, and a submitted entry is accepted as long as the bytes of
  its slot stay as they are.
* `Ring.Summed` — the tickets that wait for the dequeuer have such a length and, once
  submitted, sum to zero; every step of the ring keeps it.
-/

namespace Floem
namespace Queue

open Lib

namespace Mem

/-! ## Sums of bytes -/

@[simp] theorem xorBytes_zero (m : Mem) (e : ℕ) : m.xorBytes e 0 = 0 := rfl

theorem xorBytes_succ (m : Mem) (e n : ℕ) :
    m.xorBytes e (n + 1) = m.xorBytes e n ^^^ m (e + n) := by
  rw [xorBytes, List.range_succ, List.foldl_append]
  rfl

/-- Memories that agree on a slot have the same sums there. -/
theorem AgreeOn.xorBytes_eq {size e : ℕ} {m m' : Mem} (h : AgreeOn size e m m') {n : ℕ}
    (hn : n ≤ size) : m'.xorBytes e n = m.xorBytes e n := by
  induction n with
  | zero => rfl
  | succ n ih => rw [xorBytes_succ, xorBytes_succ, ih (by omega), h _ (by omega) (by omega)]

/-- **A store changes the sum** by the old and the new byte, if the byte is summed. -/
theorem xorBytes_set (m : Mem) (e i : ℕ) (v : UInt8) (n : ℕ) :
    (m.set (e + i) v).xorBytes e n =
      if i < n then m.xorBytes e n ^^^ (m (e + i) ^^^ v) else m.xorBytes e n := by
  induction n with
  | zero => rfl
  | succ n ih =>
      rw [xorBytes_succ, xorBytes_succ, ih]
      rcases Nat.lt_trichotomy i n with hlt | rfl | hgt
      · rw [if_pos hlt, if_pos (by omega), set_of_ne m v (by omega), UInt8.xor_assoc,
          UInt8.xor_comm (m (e + i) ^^^ v), ← UInt8.xor_assoc]
      · rw [if_neg (lt_irrefl i), if_pos (by omega), set_self, UInt8.xor_assoc,
          ← UInt8.xor_assoc (m (e + i)), UInt8.xor_self, UInt8.zero_xor]
      · rw [if_neg (by omega), if_neg (by omega), set_of_ne m v (by omega)]

/-- A checksum byte that was zero and is set to the sum makes the sum zero. -/
theorem xorBytes_setChecksum {m : Mem} {e n : ℕ} (hn : 4 < n) (hzero : m.checksum e = 0) :
    (m.setChecksum e (m.xorBytes e n)).xorBytes e n = 0 := by
  rw [checksum] at hzero
  rw [setChecksum, xorBytes_set, if_pos hn, hzero, UInt8.zero_xor, UInt8.xor_self]

end Mem

/-! ## Submitting with a checksum -/

/-- **A submitted entry sums to zero.** -/
theorem xorBytes_submit {m m' : Mem} {e : ℕ} (hlen : headerSize ≤ m.len e)
    (h : enqueueSubmit m ⟨some e, 0⟩ true = some m') : m'.xorBytes e (m'.len e) = 0 := by
  simp only [enqueueSubmit, Option.bind_eq_bind, Option.bind_eq_some_iff] at h
  obtain ⟨-, -, h⟩ := h
  rw [← Option.some.inj h]
  set m₁ : Mem := ((m.setFlag e FLAG_OWN).setPad e 0xff).setChecksum e 0
  have hlen₁ : m₁.len e = m.len e := by simp [m₁]
  have hzero : m₁.checksum e = 0 := Mem.set_self _ _ _
  clear_value m₁
  rw [if_true, Mem.len_setChecksum]
  rw [headerSize] at hlen
  exact Mem.xorBytes_setChecksum (by omega) hzero

/-- An entry that is ready and sums to zero is accepted with its length. -/
theorem dequeueReadyVarChecksum_eq {m : Mem} {e : ℕ} (hpad : m.pad e = 0xff)
    (hflag : m.flag e = FLAG_OWN) (hsum : m.xorBytes e (m.len e) = 0) :
    dequeueReadyVarChecksum m e = m.len e := by
  rw [dequeueReadyVarChecksum, if_neg (by simp [hpad]), if_neg (by rw [hflag]; decide),
    if_pos hflag, if_pos hsum]

/-! ## One slot -/

/-- The length `enqueue_alloc` records for `len` bytes is at least `len` and at most
the size of a slot; and whatever is written into the entry, once submitted it is
accepted as long as the bytes of its slot stay as they are. -/
def CircularQueue.StaysInSlot (q : CircularQueue) (cleanFunc : Mem → ℕ → Mem) (len : ℕ) : Prop :=
  ∀ fuel m gap m' q' e calls,
    enqueueAlloc cleanFunc fuel m q len gap = some (m', q', ⟨some e, 0⟩, calls) →
    (len ≤ m'.len e ∧ m'.len e ≤ q.entrySize) ∧
    ∀ m₁, m₁.flag e = m'.flag e → m₁.len e = m'.len e →
      ∃ m₂, enqueueSubmit m₁ ⟨some e, 0⟩ true = some m₂ ∧ Mem.ChangesOnly q.entrySize e m₁ m₂ ∧
        ∀ m₃, Mem.AgreeOn q.entrySize e m₂ m₃ → dequeueReadyVarChecksum m₃ e ≠ 0

/-- **What `enqueue_alloc` does to memory**: it cleans, or it does not, and then stores
into the header of the entry it hands out, if it hands out one. -/
theorem enqueueAlloc_cases {cleanFunc : Mem → ℕ → Mem} {fuel : ℕ} {m m' : Mem}
    {q q' : CircularQueue} {len gap : ℕ} {buff : QBuffer} {calls : List ℕ}
    (h : enqueueAlloc cleanFunc fuel m q len gap = some (m', q', buff, calls)) :
    ∃ m₁ : Mem, (m₁ = m ∧ calls = [] ∨
        ∃ q₁, enqueueClean cleanFunc fuel m q = some (m₁, q₁, calls)) ∧
      ((∃ e, buff = ⟨some e, 0⟩ ∧
          m' = ((m₁.setLen e (alignUp len)).setFlag e FLAG_INUSE).setTask e 0) ∨
        buff = QBuffer.null ∧ m' = m₁) := by
  simp only [enqueueAlloc, enqueueAllocAt, Option.bind_eq_bind, Option.bind_eq_some_iff] at h
  obtain ⟨-, -, -, -, h⟩ := h
  by_cases hdirty : m.flag (q.queue + q.offset) = FLAG_CLEAN
  · simp only [if_pos hdirty, Option.bind_eq_some_iff] at h
    obtain ⟨⟨m₁, q₁, calls₁⟩, hclean, h⟩ := h
    split_ifs at h
    · cases h
      exact ⟨m₁, Or.inr ⟨q₁, hclean⟩, Or.inl ⟨_, rfl, rfl⟩⟩
    · cases h
      exact ⟨_, Or.inr ⟨_, hclean⟩, Or.inr ⟨rfl, rfl⟩⟩
  · simp only [if_neg hdirty, Option.bind_some] at h
    split_ifs at h
    · cases h
      exact ⟨m, Or.inl ⟨rfl, rfl⟩, Or.inl ⟨_, rfl, rfl⟩⟩
    · cases h
      exact ⟨_, Or.inl ⟨rfl, rfl⟩, Or.inr ⟨rfl, rfl⟩⟩

/-- On zeroed memory the call succeeds. -/
theorem enqueueAlloc_zero (cleanFunc : Mem → ℕ → Mem) {q : CircularQueue}
    (hoff : q.offset < q.len) {len : ℕ} (hlen : len ≤ q.entrySize) :
    ∃ m' q', enqueueAlloc cleanFunc 0 (fun _ => 0) q len 0 =
      some (m', q', ⟨some (q.queue + q.offset), 0⟩, []) := by
  have hfree : ∀ e, Mem.flag (fun _ => 0) e = 0 := fun _ => rfl
  simp [enqueueAlloc, enqueueAllocAt, guard, hoff, hlen, hfree, FLAG_CLEAN]

/-- The length recorded by a successful call. -/
theorem len_enqueueAlloc {cleanFunc : Mem → ℕ → Mem} {fuel : ℕ} {m m' : Mem}
    {q q' : CircularQueue} {len gap e : ℕ} {calls : List ℕ}
    (h : enqueueAlloc cleanFunc fuel m q len gap = some (m', q', ⟨some e, 0⟩, calls)) :
    m'.len e = alignUp len % 65536 ∧ m'.flag e = FLAG_INUSE := by
  obtain ⟨m₁, -, ⟨e', hbuff, rfl⟩ | ⟨hbuff, -⟩⟩ := enqueueAlloc_cases h
  · obtain rfl : e = e' := by simpa using hbuff
    refine ⟨?_, by simp⟩
    rw [Mem.len_setTask, Mem.len_setFlag, Mem.len_setLen]
  · simp [QBuffer.null] at hbuff

/-- Rounding up adds less than eight bytes. -/
theorem alignUp_le (len : ℕ) : len ≤ alignUp len ∧ alignUp len < len + 8 := by
  rw [alignUp, ALIGN]
  omega

/-- **An entry submitted with a checksum is accepted** as long as its slot stays as
it is, if its length lies in its slot. -/
theorem accepted_of_submit {m m₁ : Mem} {e size : ℕ} (hlen : headerSize ≤ m.len e)
    (hsize : m.len e ≤ size) (h : enqueueSubmit m ⟨some e, 0⟩ true = some m₁)
    {m₂ : Mem} (hagree : Mem.AgreeOn size e m₁ m₂) (hflag : m.flag e &&& 0xf0 = 0) :
    dequeueReadyVarChecksum m₂ e ≠ 0 := by
  have hhead : headerSize ≤ size := hlen.trans hsize
  obtain ⟨m', hm', hown, hpad, hlen', -⟩ := enqueueSubmit_spec true hhead hflag
  obtain rfl : m' = m₁ := Option.some.inj (hm'.symm.trans h)
  have hsum := xorBytes_submit hlen h
  have hlen₂ : m₂.len e = m.len e := (hagree.len_eq hhead).trans hlen'
  rw [dequeueReadyVarChecksum_eq ((hagree.pad_eq hhead).trans hpad)
    ((hagree.flag_eq hhead).trans hown), hlen₂]
  · rw [headerSize] at hlen
    omega
  · rw [hlen₂, hagree.xorBytes_eq hsize, ← hlen', hsum]

/-- **When the length stays in the slot.** -/
theorem staysInSlot_iff (cleanFunc : Mem → ℕ → Mem) {q : CircularQueue} (hoff : q.offset < q.len)
    {len : ℕ} (hlen : headerSize ≤ len) (hlen' : len ≤ q.entrySize) :
    q.StaysInSlot cleanFunc len ↔ alignUp len ≤ q.entrySize ∧ alignUp len < 65536 := by
  have hround := alignUp_le len
  constructor
  · intro h
    obtain ⟨m', q', halloc⟩ := enqueueAlloc_zero cleanFunc hoff hlen'
    obtain ⟨⟨hlow, hhigh⟩, -⟩ := h _ _ _ _ _ _ _ halloc
    rw [(len_enqueueAlloc halloc).1] at hlow hhigh
    omega
  · rintro ⟨hfit, hword⟩ fuel m gap m' q' e calls halloc
    obtain ⟨hrec, hflag⟩ := len_enqueueAlloc halloc
    rw [Nat.mod_eq_of_lt hword] at hrec
    refine ⟨by omega, fun m₁ hflag₁ hlen₁ => ?_⟩
    have hand : m₁.flag e &&& 0xf0 = 0 := by
      rw [hflag₁, hflag]
      decide
    obtain ⟨m₂, hm₂, -, -, -, -, hch⟩ := enqueueSubmit_spec true (hlen.trans hlen') hand
    refine ⟨m₂, hm₂, hch, fun m₃ hagree => ?_⟩
    exact accepted_of_submit (by omega) (by omega) hm₂ hagree hand

/-! ## Over runs of the ring -/

/-- The clean loop changes the entries it cleans and nothing else. -/
theorem enqueueCleanLoop_frame {cleanFunc : Mem → ℕ → Mem} {size : ℕ} (hpos : 0 < size)
    (hframe : ∀ m e x, x < e + headerSize ∨ e + size ≤ x → cleanFunc m e x = m x) (fuel : ℕ) :
    ∀ m q m' q' calls, enqueueCleanLoop cleanFunc fuel m q = some (m', q', calls) →
      ∀ x, (∀ e ∈ calls, x < e ∨ e + size ≤ x) → m' x = m x := by
  induction fuel with
  | zero => intro m q m' q' calls h; exact absurd h (by simp [enqueueCleanLoop])
  | succ fuel ih =>
      intro m q m' q' calls h x hx
      rw [enqueueCleanLoop] at h
      simp only [Option.bind_eq_bind, Option.bind_eq_some_iff] at h
      obtain ⟨-, -, h⟩ := h
      split_ifs at h with hflag
      · cases h
        rfl
      · rw [Option.bind_eq_some_iff] at h
        obtain ⟨r, hr, h⟩ := h
        cases h
        have hhead := hx _ List.mem_cons_self
        rw [ih _ _ _ _ _ hr x fun e he => hx e (List.mem_cons_of_mem _ he), Mem.setFlag,
          Mem.set_of_ne _ _ (by omega)]
        exact hframe _ _ _ (by omega)

/-- `enqueue_alloc` changes the entries it cleans, the one it hands out, and nothing
else. -/
theorem enqueueAlloc_frame {cleanFunc : Mem → ℕ → Mem} {size : ℕ} (hsize : headerSize ≤ size)
    (hframe : ∀ m e x, x < e + headerSize ∨ e + size ≤ x → cleanFunc m e x = m x) {fuel : ℕ}
    {m m' : Mem} {q q' : CircularQueue} {len gap : ℕ} {buff : QBuffer} {calls : List ℕ}
    (h : enqueueAlloc cleanFunc fuel m q len gap = some (m', q', buff, calls)) {x : ℕ}
    (hx : ∀ e ∈ calls ++ buff.entry.toList, x < e ∨ e + size ≤ x) : m' x = m x := by
  obtain ⟨m₁, hclean, hbuff⟩ := enqueueAlloc_cases h
  have hcleaned : m₁ x = m x := by
    rcases hclean with ⟨rfl, -⟩ | ⟨q₁, hclean⟩
    · rfl
    · simp only [enqueueClean, Option.bind_eq_bind, Option.bind_eq_some_iff] at hclean
      obtain ⟨-, -, hloop⟩ := hclean
      refine enqueueCleanLoop_frame (by rw [headerSize] at hsize; omega) hframe _ _ _ _ _ _
        hloop x fun e he => hx e (List.mem_append_left _ he)
  rw [← hcleaned]
  rcases hbuff with ⟨e, rfl, rfl⟩ | ⟨-, rfl⟩
  · have hout := hx e (List.mem_append_right _ (by simp))
    rw [headerSize] at hsize
    rw [Mem.setTask, Mem.setFlag, Mem.setLen, Mem.set_of_ne _ _ (by omega),
      Mem.set_of_ne _ _ (by omega), Mem.set_of_ne _ _ (by omega), Mem.set_of_ne _ _ (by omega)]
  · rfl

namespace Ring

variable {R : Ring} {s t : State}

/-- The length of ticket `k` lies in its slot, and once the ticket is submitted the
bytes of the entry sum to zero. -/
structure Summed (R : Ring) (s : State) (k : ℕ) : Prop where
  low : headerSize ≤ s.mem.len (R.slotOf k)
  high : s.mem.len (R.slotOf k) ≤ R.entrySize
  sum : (s.sent k).isSome → s.mem.xorBytes (R.slotOf k) (s.mem.len (R.slotOf k)) = 0

/-- The tickets the dequeuer did not take yet are as they should be. -/
def AllSummed (R : Ring) (s : State) : Prop :=
  ∀ k, s.got.length ≤ k → k < s.issued.length → R.Summed s k

/-- A ticket that is not taken belongs to the last lap. -/
theorem Inv.in_window_of_got (hI : R.Inv s) {k : ℕ} (h : s.got.length ≤ k) :
    s.issued.length ≤ k + R.slots := by
  refine hI.in_window ?_
  cases hs : s.sent k with
  | none => rw [hI.flagOf_reserved hs]; decide
  | some c => rw [hI.flagOf_ready h (by rw [hs]; rfl)]; decide

theorem Summed.congr {k : ℕ} (h : R.Summed s k) (hsize : headerSize ≤ R.entrySize)
    (hagree : Mem.AgreeOn R.entrySize (R.slotOf k) s.mem t.mem) (hsent : t.sent k = s.sent k) :
    R.Summed t k where
  low := by rw [hagree.len_eq hsize]; exact h.low
  high := by rw [hagree.len_eq hsize]; exact h.high
  sum hk := by
    rw [hagree.len_eq hsize, hagree.xorBytes_eq h.high]
    exact h.sum (hsent ▸ hk)

/-- **A step on one slot** leaves the other tickets as they should be. -/
theorem allSummed_of_update (hI : R.Inv s) (hS : R.AllSummed s) {j : ℕ}
    (hj : j < s.issued.length) (hj' : s.issued.length ≤ j + R.slots)
    (hissued : t.issued = s.issued) (hgot : s.got.length ≤ t.got.length)
    (hmem : Mem.ChangesOnly R.entrySize (R.slotOf j) s.mem t.mem)
    (hsent : ∀ k, k ≠ j → t.sent k = s.sent k) (hok : t.got.length ≤ j → R.Summed t j) :
    R.AllSummed t := by
  intro k hk hk'
  rw [hissued] at hk'
  by_cases hkj : k = j
  · subst hkj
    exact hok hk
  · have hsize := (hI.sizes (List.ne_nil_of_length_pos (by omega))).2
    have hcell := Inv.cell_ne hj hj' hk' (hI.in_window_of_got (hgot.trans hk)) (Ne.symm hkj)
    exact (hS k (hgot.trans hk) hk').congr hsize (hmem.agreeOn (slotOf_disjoint hcell).symm)
      (hsent k hkj)

theorem step_alloc_eq_some {len gap : ℕ} (h : R.step s (.alloc len gap) = some t) :
    ∃ m q buff calls,
      enqueueAlloc R.cleanFunc R.cleanFuel s.mem s.enq len gap = some (m, q, buff, calls) ∧
      t = { s with mem := m, enq := q, issued := s.issued ++ buff.entry.toList,
                   cleaned := s.cleaned ++ calls } := by
  simp only [step, Option.bind_eq_bind, Option.bind_eq_some_iff] at h
  obtain ⟨-, -, ⟨m, q, buff, calls⟩, halloc, h⟩ := h
  exact ⟨m, q, buff, calls, halloc, (Option.some.inj h).symm⟩

/-- **`enqueue_alloc` keeps the lengths in their slots**, if the length asked for is
still in the slot when rounded up. -/
theorem allSummed_alloc {len gap : ℕ} (hI : R.Inv s) (hS : R.AllSummed s)
    (h : R.step s (.alloc len gap) = some t) (hfit : alignUp len ≤ R.entrySize)
    (hword : alignUp len < 65536) : R.AllSummed t := by
  have hIt := inv_alloc hI h
  obtain ⟨-, hlen, hlen'⟩ := step_alloc_guard hI h
  have hsize : headerSize ≤ R.entrySize := hlen.trans hlen'
  obtain ⟨m', q', buff, calls, halloc, rfl⟩ := step_alloc_eq_some h
  intro k (hk : s.got.length ≤ k) (hk' : k < (s.issued ++ buff.entry.toList).length)
  have hwin : (s.issued ++ buff.entry.toList).length ≤ k + R.slots := hIt.in_window_of_got hk
  rcases Nat.lt_or_ge k s.issued.length with hlt | hge
  · -- the entries that are written belong to other tickets
    refine (hS k hk hlt).congr hsize (fun x hx hx' => ?_) rfl
    refine enqueueAlloc_frame hsize R.cleanFunc_frame halloc fun e he => ?_
    obtain ⟨j, rfl, hcell⟩ : ∃ j, e = R.slotOf j ∧ j % R.slots ≠ k % R.slots := by
      rcases List.mem_append.1 he with he | he
      · obtain ⟨i, hi⟩ := List.mem_iff_getElem?.1 he
        have hget : (s.cleaned ++ calls)[s.cleaned.length + i]? = some e := by
          rw [List.getElem?_append_right (by omega), Nat.add_sub_cancel_left, hi]
        obtain ⟨hslot, hj⟩ := hIt.cleaned_eq _ _ hget
        have hmode : R.flagClean ≠ 0 := fun h0 => by
          have hnil : s.cleaned ++ calls = [] := hIt.cleaned_flag h0
          rw [hnil] at hget
          simp at hget
        have hj : s.released (s.cleaned.length + i) = true := hj
        have hflag : R.flagOf s (s.cleaned.length + i) ≠ 0 := by
          rw [flagOf, if_neg (by omega), if_pos hj]
          exact hmode
        have hgot := hI.released_lt _ hj
        have hle := hI.got_le
        exact ⟨_, hslot, Inv.cell_ne (by omega) (hI.in_window hflag) hlt
          (hI.in_window_of_got hk) (by omega)⟩
      · have hissued : (s.issued ++ buff.entry.toList)[s.issued.length]? = some e := by
          rw [Option.mem_toList] at he
          rw [he]
          exact List.getElem?_concat_length
        have hlast := (List.getElem?_eq_some_iff.1 hissued).1
        exact ⟨_, hIt.issued_eq _ _ hissued, (mod_ne_of_window hlt (by omega)).symm⟩
    rcases slotOf_disjoint hcell with hd | hd <;> omega
  · -- the entry handed out has the length recorded for it
    have hnone : s.sent k = none := by
      by_contra hsome
      have := hI.sent_lt k (Option.isSome_iff_ne_none.2 hsome)
      omega
    obtain ⟨-, -, ⟨e, rfl, -⟩ | ⟨rfl, -⟩⟩ := enqueueAlloc_cases halloc
    · have hkE : k = s.issued.length := by
        have : k < s.issued.length + 1 := by simpa using hk'
        omega
      subst hkE
      have he := hIt.issued_eq s.issued.length e List.getElem?_concat_length
      obtain ⟨hrec, -⟩ := len_enqueueAlloc halloc
      have hround := alignUp_le len
      rw [Nat.mod_eq_of_lt hword, he] at hrec
      exact { low := by rw [hrec]; omega, high := by rw [hrec]; exact hfit,
              sum := fun hsome => by simp [hnone] at hsome }
    · exact absurd hk' (by simpa [QBuffer.null] using hge)

/-- **Every step keeps the lengths in their slots and the sums at zero.** -/
theorem allSummed_step (hR : R.check = true) {a : Action} (hI : R.Inv s) (hS : R.AllSummed s)
    (hfit : ∀ len gap, a = .alloc len gap → alignUp len ≤ R.entrySize ∧ alignUp len < 65536)
    (h : R.step s a = some t) : R.AllSummed t := by
  cases a with
  | alloc len gap =>
      obtain ⟨hslot, hword⟩ := hfit len gap rfl
      exact allSummed_alloc hI hS h hslot hword
  | produce k i b =>
      obtain ⟨e, he, hs, hw, rfl⟩ := step_produce_eq_some h
      obtain rfl := hI.issued_eq k e he
      have hk : k < s.issued.length := (List.getElem?_eq_some_iff.1 he).1
      have hwin := hI.in_window (k := k) (by rw [hI.flagOf_reserved hs]; decide)
      have hsize := (hI.sizes (List.ne_nil_of_length_pos (by omega))).2
      obtain ⟨-, hlen⟩ := header_set (m := s.mem) (e := R.slotOf k) b hw
      refine allSummed_of_update hI hS hk hwin rfl le_rfl (changesOnly_set_of_writable b hw hsize)
        (fun _ _ => rfl) fun hgot => ?_
      have hok := hS k hgot hk
      exact { low := by rw [hlen]; exact hok.low, high := by rw [hlen]; exact hok.high,
              sum := fun hsome => by simp [hs] at hsome }
  | submit k =>
      simp only [step, Option.bind_eq_bind, Option.bind_eq_some_iff, Option.guard_eq_some'] at h
      obtain ⟨e, he, -, hs, m', hm', h⟩ := h
      obtain rfl := Option.some.inj h
      obtain rfl := hI.issued_eq k e he
      have hk : k < s.issued.length := (List.getElem?_eq_some_iff.1 he).1
      have hwin := hI.in_window (k := k) (by rw [hI.flagOf_reserved hs]; decide)
      have hsize := (hI.sizes (List.ne_nil_of_length_pos (by omega))).2
      have hflag : s.mem.flag (R.slotOf k) &&& 0xf0 = 0 := by
        rw [(hI.live k hk hwin).flag]
        exact Inv.flagOf_and s k
      obtain ⟨m₁, hm₁, -, -, hlen, -, hch⟩ := enqueueSubmit_spec R.check hsize hflag
      obtain rfl : m₁ = m' := Option.some.inj (hm₁.symm.trans hm')
      refine allSummed_of_update hI hS hk hwin rfl le_rfl hch
        (fun j hj => Function.update_of_ne hj ..) fun hgot => ?_
      have hok := hS k hgot hk
      rw [hR] at hm'
      exact { low := by rw [hlen]; exact hok.low, high := by rw [hlen]; exact hok.high,
              sum := fun _ => xorBytes_submit hok.low hm' }
  | get =>
      obtain ⟨hN, hes⟩ := step_get_guard hI h
      obtain ⟨hsome, hnone⟩ := get_spec hI hN hes
      cases hc : s.sent s.got.length with
      | none =>
          rw [hnone (Or.inl hc)] at h
          exact Option.some.inj h ▸ hS
      | some c =>
          have hlt := hI.sent_lt _ (show (s.sent s.got.length).isSome by rw [hc]; rfl)
          have hlow := (hS s.got.length le_rfl hlt).low
          rw [hsome c hc (by rw [headerSize] at hlow; omega)] at h
          obtain rfl := Option.some.inj h
          refine allSummed_of_update hI hS hlt (hI.in_window_of_got le_rfl) rfl (by simp [taken])
            (Mem.changesOnly_set s.mem 5 le_rfl (by omega)) (fun _ _ => rfl) fun hle => ?_
          simp [taken] at hle
  | consume k i b =>
      obtain ⟨g, hg, hr, hw, rfl⟩ := step_consume_eq_some h
      have hkg : k < s.got.length := (List.getElem?_eq_some_iff.1 hg).1
      have hk : k < s.issued.length := hkg.trans_le hI.got_le
      have hwin := hI.in_window (k := k) (by rw [hI.flagOf_held hkg hr]; decide)
      have hsize := (hI.sizes (List.ne_nil_of_length_pos (by omega))).2
      rw [(hI.got_eq k g hg).1]
      exact allSummed_of_update hI hS hk hwin rfl le_rfl
        (changesOnly_set_of_writable b hw hsize) (fun _ _ => rfl) fun hle => absurd hle (by
          simpa using hkg)
  | release k =>
      simp only [step, Option.bind_eq_bind, Option.bind_eq_some_iff, Option.guard_eq_some'] at h
      obtain ⟨g, hg, -, hr, m', hm', h⟩ := h
      obtain rfl := Option.some.inj h
      have hkg : k < s.got.length := (List.getElem?_eq_some_iff.1 hg).1
      have hk : k < s.issued.length := hkg.trans_le hI.got_le
      have hfl := hI.flagOf_held hkg hr
      have hwin := hI.in_window (k := k) (by rw [hfl]; decide)
      have hsize := (hI.sizes (List.ne_nil_of_length_pos (by omega))).2
      rw [(hI.got_eq k g hg).1] at hm'
      obtain ⟨m₁, hm₁, -, hch⟩ := dequeueRelease_spec R.flagClean hsize
        (m := s.mem) (e := R.slotOf k) (by rw [(hI.live k hk hwin).flag, hfl])
      obtain rfl : m₁ = m' := Option.some.inj (hm₁.symm.trans hm')
      exact allSummed_of_update hI hS hk hwin rfl le_rfl hch (fun _ _ => rfl)
        fun hle => absurd hle (by simpa using hkg)

/-- **Every run keeps the lengths in their slots and the sums at zero.** -/
theorem allSummed_run (hR : R.check = true) {mem : Mem} (hzero : R.Zeroed mem) {as : List Action}
    (hfit : ∀ len gap, .alloc len gap ∈ as → alignUp len ≤ R.entrySize ∧ alignUp len < 65536)
    (h : run R.step (R.init mem) as = some s) : R.AllSummed s := by
  have hall : Meets R.step (fun _ _ => True) (R.init mem) as :=
    Meets.of_forall (fun _ _ => trivial) _ as
  have hC := hall.and_mem
    (D := fun a => ∀ len gap, a = .alloc len gap →
      alignUp len ≤ R.entrySize ∧ alignUp len < 65536)
    fun a ha len gap hlen => hfit len gap (hlen ▸ ha)
  refine (run_invariant_of_meets (P := fun s => R.Inv s ∧ R.AllSummed s)
    (fun s a t hs hfit hstep => ⟨inv_step s a t hs.1 hstep, ?_⟩)
    ⟨inv_init hzero, fun k _ hk => ?_⟩ hC h).2
  · exact allSummed_step hR hs.1 hs.2 hfit.2 hstep
  · exact absurd hk (Nat.not_lt_zero k)

/-- **A submitted entry is accepted until it is taken.** -/
theorem accepted_of_summed (hI : R.Inv s) (hS : R.AllSummed s) {k : ℕ} (hk : s.got.length ≤ k)
    (hsent : (s.sent k).isSome) : dequeueReadyVarChecksum s.mem (R.slotOf k) ≠ 0 := by
  obtain ⟨c, hc⟩ := Option.isSome_iff_exists.1 hsent
  have hlt := hI.sent_lt k hsent
  have hlive := hI.live k hlt (hI.in_window_of_got hk)
  have hok := hS k hk hlt
  rw [dequeueReadyVarChecksum_eq (hlive.sent hk c hc).1
    (hlive.flag.trans (hI.flagOf_ready hk hsent)) (hok.sum hsent)]
  have hlow := hok.low
  rw [headerSize] at hlow
  omega

end Ring

/-- **The recorded length.**  For every slot size and every length from the header
size up to it, the length recorded stays in the slot, and the entry is accepted once
submitted, exactly if the length still fits the slot and the 16-bit field when it is
rounded up.  In a ring whose clients ask for such lengths only, every submitted entry
is accepted until it is taken. -/
theorem recorded_length (cleanFunc : Mem → ℕ → Mem) (q : CircularQueue) (len : ℕ) (R : Ring)
    (mem : Mem) (as : List Action) (s : State) :
    (q.offset < q.len → headerSize ≤ len → len ≤ q.entrySize →
      (q.StaysInSlot cleanFunc len ↔ alignUp len ≤ q.entrySize ∧ alignUp len < 65536)) ∧
    (R.Zeroed mem → R.check = true →
      (∀ len gap, .alloc len gap ∈ as → alignUp len ≤ R.entrySize ∧ alignUp len < 65536) →
        run R.step (R.init mem) as = some s → ∀ k, s.got.length ≤ k → (s.sent k).isSome →
          s.mem.len (R.slotOf k) ≤ R.entrySize ∧
            dequeueReadyVarChecksum s.mem (R.slotOf k) ≠ 0) := by
  refine ⟨fun hoff hlen hlen' => staysInSlot_iff cleanFunc hoff hlen hlen',
    fun hzero hR hfit h k hk hsent => ?_⟩
  have hI := Ring.inv_run hzero h
  have hS := Ring.allSummed_run hR hzero hfit h
  exact ⟨(hS k hk (hI.sent_lt k hsent)).high, Ring.accepted_of_summed hI hS hk hsent⟩

/-- Slots of 16 bytes hold 12, and an entry submitted to a ring of two of them is
accepted while the slot next to it is written. -/
theorem recorded_length_sixteen :
    let R : Ring := ⟨2, 16, 0, 0, fun m _ => m, true, Or.inl rfl, fun _ _ _ _ => rfl⟩
    (⟨32, 0, 0, 0, 16⟩ : CircularQueue).StaysInSlot (fun m _ => m) 12 ∧
    ∃ s, run R.step (R.init fun _ => 0) [.alloc 12 0, .produce 0 7 5, .submit 0, .alloc 12 0,
        .produce 1 9 6] = some s ∧ dequeueReadyVarChecksum s.mem 0 ≠ 0 := by
  intro R
  obtain ⟨s, hs, hproj⟩ := Option.map_eq_some_iff.1 (show (run R.step (R.init fun _ => 0)
    [.alloc 12 0, .produce 0 7 5, .submit 0, .alloc 12 0, .produce 1 9 6]).map
      (fun s => (s.got.length, (s.sent 0).isSome)) = some (0, true) by decide +kernel)
  obtain ⟨hgot, hsent⟩ := Prod.mk.inj hproj
  have hfit : ∀ len gap, Action.alloc len gap ∈ [.alloc 12 0, .produce 0 7 5, .submit 0,
      .alloc 12 0, .produce 1 9 6] → alignUp len ≤ R.entrySize ∧ alignUp len < 65536 := by
    intro len gap hmem
    obtain rfl : len = 12 := by
      simp only [List.mem_cons, Action.alloc.injEq, reduceCtorEq, List.not_mem_nil,
        or_false, false_or] at hmem
      omega
    decide
  obtain ⟨hstays, haccepted⟩ :=
    recorded_length (fun m _ => m) ⟨32, 0, 0, 0, 16⟩ 12 R (fun _ => 0) _ s
  exact ⟨(hstays (by decide) (by decide) (by decide)).2 (by decide), s, hs,
    (haccepted (fun _ _ _ => rfl) rfl hfit hs 0 (by omega) hsent).2⟩

/-- **Twelve bytes in a slot of twelve.**  The length recorded is `16`, beyond the
slot. -/
theorem recorded_length_twelve :
    (∃ m q, enqueueAlloc (fun m _ => m) 0 (fun _ => 0) ⟨24, 0, 0, 0, 12⟩ 12 0 =
        some (m, q, ⟨some 0, 0⟩, []) ∧ m.len 0 = 16) ∧
      ¬ (⟨24, 0, 0, 0, 12⟩ : CircularQueue).StaysInSlot (fun m _ => m) 12 := by
  obtain ⟨m, q, halloc⟩ := enqueueAlloc_zero (fun m _ => m) (q := ⟨24, 0, 0, 0, 12⟩)
    (by decide) (show 12 ≤ 12 from le_rfl)
  have hlen : m.len 0 = 16 := (len_enqueueAlloc halloc).1
  refine ⟨⟨m, q, halloc, hlen⟩, fun h => ?_⟩
  have hhigh := (h _ _ _ _ _ _ _ halloc).1.2
  exact absurd (hlen ▸ hhigh) (by decide)

end Queue
end Floem
