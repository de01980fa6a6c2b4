import Floem.Queue.Ends

/-!
# The ring invariant is kept

Every step of the ring keeps `Ring.Inv`.  Most steps work on the slot of one
ticket, and `Inv.slots_of_update` says once and for all what such a step leaves
intact; the cleaning loop is followed round by round, each round being such a
step on the ticket that is next to clean.
-/

namespace Floem
namespace Queue
namespace Ring

open Lib

variable {R : Ring} {s t : State}

/-! ## Slots -/

/-- The slots of tickets in different cells do not meet. -/
theorem slotOf_disjoint {j k : ℕ} (h : j % R.slots ≠ k % R.slots) :
    R.slotOf j + R.entrySize ≤ R.slotOf k ∨ R.slotOf k + R.entrySize ≤ R.slotOf j := by
  rw [slotOf, slotOf]
  rcases cell_disjoint R.entrySize h with h | h
  · left; omega
  · right; omega

/-- A slot stays as it should be when its bytes and the history of its ticket
do. -/
theorem SlotOk.congr {k : ℕ} (h : R.SlotOk s k)
    (hagree : Mem.AgreeOn R.entrySize (R.slotOf k) s.mem t.mem)
    (hsize : headerSize ≤ R.entrySize) (hflag : R.flagOf t k = R.flagOf s k)
    (hgot : s.got.length ≤ t.got.length) (hsent : t.sent k = s.sent k) : R.SlotOk t k where
  flag := by rw [hagree.flag_eq hsize, h.flag, hflag]
  len hword hk := by
    rw [hagree.len_eq hsize]
    exact h.len hword (hgot.trans hk)
  sent hk c hc := by
    rw [hagree.pad_eq hsize, hagree.content_eq hsize]
    exact h.sent (hgot.trans hk) c (hsent ▸ hc)

/-! ## Reading the invariant -/

namespace Inv

theorem released_of_cleaned (hI : R.Inv s) {k : ℕ} (h : k < s.cleaned.length) :
    s.released k = true :=
  (hI.cleaned_eq k _ (List.getElem?_eq_getElem h)).2

/-- Entries are cleaned behind the dequeue end. -/
theorem cleaned_le (hI : R.Inv s) : s.cleaned.length ≤ s.got.length := by
  by_contra hlt
  have := hI.released_lt _ (hI.released_of_cleaned (show s.cleaned.length - 1 < _ by omega))
  omega

theorem isSome_of_got (hI : R.Inv s) {k : ℕ} (h : k < s.got.length) : (s.sent k).isSome := by
  rw [(hI.got_eq k _ (List.getElem?_eq_getElem h)).2]
  rfl

/-- A ticket that was not submitted is reserved. -/
theorem flagOf_reserved (hI : R.Inv s) {k : ℕ} (h : s.sent k = none) :
    R.flagOf s k = FLAG_INUSE := by
  have hgot : ¬ k < s.got.length := fun hk => by simpa [h] using hI.isSome_of_got hk
  have hrel : s.released k ≠ true := fun hr => hgot (hI.released_lt k hr)
  have hcl : ¬ k < s.cleaned.length := fun hk => hrel (hI.released_of_cleaned hk)
  rw [flagOf, if_neg hcl, if_neg hrel, if_neg hgot, if_neg (by simp [h])]

/-- A ticket that was submitted and not yet taken is owned by the dequeuer. -/
theorem flagOf_ready (hI : R.Inv s) {k : ℕ} (hk : s.got.length ≤ k) (h : (s.sent k).isSome) :
    R.flagOf s k = FLAG_OWN := by
  have hrel : s.released k ≠ true := fun hr => absurd (hI.released_lt k hr) (by omega)
  have hcl : ¬ k < s.cleaned.length := fun hk => hrel (hI.released_of_cleaned hk)
  rw [flagOf, if_neg hcl, if_neg hrel, if_neg (by omega), if_pos h]

/-- A ticket that was taken and not yet released is in use by the dequeuer. -/
theorem flagOf_held (hI : R.Inv s) {k : ℕ} (hk : k < s.got.length) (h : s.released k = false) :
    R.flagOf s k = 5 := by
  have hcl : ¬ k < s.cleaned.length := fun hk => by simpa [h] using hI.released_of_cleaned hk
  rw [flagOf, if_neg hcl, if_neg (by simp [h]), if_pos hk]

/-- A ticket that was taken does not show `FLAG_OWN`. -/
theorem flagOf_ne_own {k : ℕ} (hk : k < s.got.length) : R.flagOf s k ≠ FLAG_OWN := by
  rw [flagOf]
  rcases R.flagClean_eq with h | h <;> split_ifs <;> simp_all [FLAG_OWN, FLAG_CLEAN]

/-- The flag of every ticket passes `check_flag`. -/
theorem flagOf_and (s : State) (k : ℕ) : R.flagOf s k &&& 0xf0 = 0 := by
  rw [flagOf]
  rcases R.flagClean_eq with h | h <;> rw [h] <;> split_ifs <;> decide

/-- A ticket whose slot is not free belongs to the last lap. -/
theorem in_window (hI : R.Inv s) {k : ℕ} (h : R.flagOf s k ≠ 0) :
    s.issued.length ≤ k + R.slots := by
  by_contra hlt
  exact h (hI.reused k (by omega))

/-- Two different tickets of the last lap live in different cells. -/
theorem cell_ne {e j k : ℕ} (hj : j < e) (hj' : e ≤ j + R.slots) (hk : k < e)
    (hk' : e ≤ k + R.slots) (hne : j ≠ k) : j % R.slots ≠ k % R.slots := by
  rcases Nat.lt_or_gt_of_ne hne with h | h
  · exact mod_ne_of_window h (by omega)
  · exact (mod_ne_of_window h (by omega)).symm

/-- **A step on one slot.**  A step that changes the slot and the history of one
ticket of the last lap leaves all other slots as they should be. -/
theorem slots_of_update (hI : R.Inv s) {j : ℕ} (hj : j < s.issued.length)
    (hj' : s.issued.length ≤ j + R.slots) (hissued : t.issued = s.issued)
    (hmem : Mem.ChangesOnly R.entrySize (R.slotOf j) s.mem t.mem)
    (hflag : ∀ k, k ≠ j → R.flagOf t k = R.flagOf s k)
    (hsent : ∀ k, k ≠ j → t.sent k = s.sent k) (hgot : s.got.length ≤ t.got.length)
    (hok : R.SlotOk t j) :
    (∀ k, k + R.slots < t.issued.length → R.flagOf t k = 0) ∧
    (∀ k, k < t.issued.length → t.issued.length ≤ k + R.slots → R.SlotOk t k) ∧
    (0 < R.entrySize → ∀ k, k < R.slots → t.issued.length ≤ k →
      t.mem.flag (R.slotOf k) = 0) := by
  have hsize : headerSize ≤ R.entrySize :=
    (hI.sizes (List.ne_nil_of_length_pos (by omega))).2
  have hagree : ∀ k, j % R.slots ≠ k % R.slots →
      Mem.AgreeOn R.entrySize (R.slotOf k) s.mem t.mem := fun k hk =>
    hmem.agreeOn (slotOf_disjoint hk).symm
  rw [hissued]
  refine ⟨fun k hk => ?_, fun k hk hk' => ?_, fun hes k hk hk' => ?_⟩
  · rw [hflag k (by omega)]
    exact hI.reused k hk
  · by_cases hkj : k = j
    · rw [hkj]; exact hok
    · exact (hI.live k hk hk').congr (hagree k (cell_ne hj hj' hk hk' (Ne.symm hkj))) hsize
        (hflag k hkj) hgot (hsent k hkj)
  · have hcell : j % R.slots ≠ k % R.slots := mod_ne_of_window (by omega) (by omega)
    rw [(hagree k hcell).flag_eq hsize]
    exact hI.fresh hes k hk hk'

end Inv

/-! ## Stores into a held entry -/

/-- A store to a writable byte of an entry leaves its header's flag, length and
pad alone. -/
theorem header_set {m : Mem} {e i : ℕ} (b : UInt8) (hi : R.Writable i) :
    (m.set (e + i) b).flag e = m.flag e ∧ (m.set (e + i) b).len e = m.len e := by
  have hne : i ≠ 0 ∧ i ≠ 2 ∧ i ≠ 3 := by
    rcases hi with h | h
    · omega
    · have := h.1
      rw [headerSize] at this
      omega
  constructor
  · exact Mem.set_of_ne m b (by omega)
  · rw [Mem.len, Mem.len, Mem.set_of_ne m b (by omega), Mem.set_of_ne m b (by omega)]

theorem changesOnly_set_of_writable {m : Mem} {e i : ℕ} (b : UInt8) (hi : R.Writable i)
    (hsize : headerSize ≤ R.entrySize) : Mem.ChangesOnly R.entrySize e m (m.set (e + i) b) := by
  rw [headerSize] at hsize
  refine Mem.changesOnly_set m b (by omega) ?_
  rcases hi with h | h <;> omega

theorem step_produce_eq_some {k i : ℕ} {b : UInt8} (h : R.step s (.produce k i b) = some t) :
    ∃ e, s.issued[k]? = some e ∧ s.sent k = none ∧ R.Writable i ∧
      t = { s with mem := s.mem.set (e + i) b } := by
  simp only [step, Option.bind_eq_bind, Option.bind_eq_some_iff,
    Option.guard_eq_some'] at h
  obtain ⟨e, he, -, ⟨hs, hw⟩, h⟩ := h
  exact ⟨e, he, hs, hw, (Option.some.inj h).symm⟩

theorem inv_produce {k i : ℕ} {b : UInt8} (hI : R.Inv s)
    (h : R.step s (.produce k i b) = some t) : R.Inv t := by
  obtain ⟨e, he, hs, hw, rfl⟩ := step_produce_eq_some h
  have hk : k < s.issued.length := (List.getElem?_eq_some_iff.1 he).1
  have hwin : s.issued.length ≤ k + R.slots :=
    hI.in_window (by rw [hI.flagOf_reserved hs]; decide)
  have hsize := (hI.sizes (List.ne_nil_of_length_pos (by omega))).2
  obtain rfl := hI.issued_eq k e he
  obtain ⟨hflag, hlen⟩ := header_set (m := s.mem) (e := R.slotOf k) b hw
  obtain ⟨h1, h2, h3⟩ := hI.slots_of_update (t := { s with mem := s.mem.set (R.slotOf k + i) b })
    hk hwin rfl (changesOnly_set_of_writable b hw hsize) (fun _ _ => rfl) (fun _ _ => rfl) le_rfl
    { flag := hflag.trans (hI.live k hk hwin).flag
      len := fun hword hg => by rw [hlen]; exact (hI.live k hk hwin).len hword hg
      sent := fun _ c hc => absurd (hs ▸ hc) (by simp) }
  exact { hI with reused := h1, live := h2, fresh := h3 }

theorem step_consume_eq_some {k i : ℕ} {b : UInt8} (h : R.step s (.consume k i b) = some t) :
    ∃ g, s.got[k]? = some g ∧ s.released k = false ∧ R.Writable i ∧
      t = { s with mem := s.mem.set (g.1 + i) b } := by
  simp only [step, Option.bind_eq_bind, Option.bind_eq_some_iff,
    Option.guard_eq_some'] at h
  obtain ⟨g, hg, -, ⟨hr, hw⟩, h⟩ := h
  exact ⟨g, hg, hr, hw, (Option.some.inj h).symm⟩

theorem inv_consume {k i : ℕ} {b : UInt8} (hI : R.Inv s)
    (h : R.step s (.consume k i b) = some t) : R.Inv t := by
  obtain ⟨g, hg, hr, hw, rfl⟩ := step_consume_eq_some h
  have hkg : k < s.got.length := (List.getElem?_eq_some_iff.1 hg).1
  have hk : k < s.issued.length := hkg.trans_le hI.got_le
  have hwin : s.issued.length ≤ k + R.slots :=
    hI.in_window (by rw [hI.flagOf_held hkg hr]; decide)
  have hsize := (hI.sizes (List.ne_nil_of_length_pos (by omega))).2
  rw [(hI.got_eq k g hg).1]
  obtain ⟨hflag, -⟩ := header_set (m := s.mem) (e := R.slotOf k) b hw
  obtain ⟨h1, h2, h3⟩ := hI.slots_of_update (t := { s with mem := s.mem.set (R.slotOf k + i) b })
    hk hwin rfl (changesOnly_set_of_writable b hw hsize) (fun _ _ => rfl) (fun _ _ => rfl) le_rfl
    { flag := hflag.trans (hI.live k hk hwin).flag
      len := fun _ hle => absurd hkg (not_lt.2 hle)
      sent := fun hle => absurd hkg (not_lt.2 hle) }
  exact { hI with reused := h1, live := h2, fresh := h3 }

/-! ## Submitting -/

/-- Submitting a reserved entry succeeds; the entry then shows `FLAG_OWN` and
holds what was written. -/
theorem submit_spec (hI : R.Inv s) {k e : ℕ} (he : s.issued[k]? = some e) (hs : s.sent k = none) :
    ∃ m', enqueueSubmit s.mem ⟨some e, 0⟩ R.check = some m' ∧
      R.step s (.submit k) = some
        { s with mem := m', sent := Function.update s.sent k (some (s.mem.content R.entrySize e)) } ∧
      R.Inv
        { s with mem := m', sent := Function.update s.sent k (some (s.mem.content R.entrySize e)) } := by
  have hk : k < s.issued.length := (List.getElem?_eq_some_iff.1 he).1
  have hfl : R.flagOf s k = FLAG_INUSE := hI.flagOf_reserved hs
  have hwin : s.issued.length ≤ k + R.slots := hI.in_window (by rw [hfl]; decide)
  have hsize := (hI.sizes (List.ne_nil_of_length_pos (by omega))).2
  have hok := hI.live k hk hwin
  obtain rfl := hI.issued_eq k e he
  obtain ⟨m', hm', hflag, hpad, hlen, hcont, hch⟩ := enqueueSubmit_spec R.check hsize
    (m := s.mem) (e := R.slotOf k) (by rw [hok.flag]; exact Inv.flagOf_and s k)
  refine ⟨m', hm', by simp [step, he, hs, hm'], ?_⟩
  set s₁ : State :=
    { s with mem := m',
             sent := Function.update s.sent k (some (s.mem.content R.entrySize (R.slotOf k))) }
    with hs₁
  have hgot : s.got.length ≤ k := by
    by_contra hlt
    have := hI.isSome_of_got (not_le.1 hlt)
    rw [hs] at this
    simp at this
  have hsentk : s₁.sent k = some (s.mem.content R.entrySize (R.slotOf k)) :=
    Function.update_self ..
  have hsent : ∀ j, j ≠ k → s₁.sent j = s.sent j := fun j hj => Function.update_of_ne hj ..
  have hrel : s.released k ≠ true := fun hr => absurd (hI.released_lt k hr) (by omega)
  have hcl : ¬ k < s.cleaned.length := fun hc => hrel (hI.released_of_cleaned hc)
  have hflag' : R.flagOf s₁ k = FLAG_OWN := by
    rw [flagOf, if_neg hcl, if_neg hrel, if_neg (not_lt.2 hgot), if_pos (by rw [hsentk]; rfl)]
  obtain ⟨h1, h2, h3⟩ := hI.slots_of_update (t := s₁) hk hwin rfl hch
    (fun j hj => by rw [flagOf, flagOf, hsent j hj]) hsent le_rfl
    { flag := hflag.trans hflag'.symm
      len := fun hword _ => by
        show m'.len _ ≠ 0
        rw [hlen]
        exact hok.len hword hgot
      sent := fun _ c hc => ⟨hpad, hcont.trans (Option.some.inj (hsentk.symm.trans hc))⟩ }
  refine { hI with
    got_eq := fun j g hg => ?_, sent_lt := fun j hj => ?_, reused := h1, live := h2, fresh := h3 }
  · have hjk : j ≠ k := by
      have hjg : j < s.got.length := (List.getElem?_eq_some_iff.1 hg).1
      omega
    rw [hsent j hjk]
    exact hI.got_eq j g hg
  · by_cases hjk : j = k
    · rw [hjk]; exact hk
    · rw [hsent j hjk] at hj
      exact hI.sent_lt j hj

theorem inv_submit {k : ℕ} (hI : R.Inv s) (h : R.step s (.submit k) = some t) : R.Inv t := by
  have h' := h
  simp only [step, Option.bind_eq_bind, Option.bind_eq_some_iff,
    Option.guard_eq_some'] at h'
  obtain ⟨e, he, -, hs, -⟩ := h'
  obtain ⟨m', -, hstep, hI'⟩ := submit_spec hI he hs
  rw [hstep] at h
  exact Option.some.inj h ▸ hI'

/-! ## Releasing -/

/-- Releasing a held entry succeeds, and the entry then shows the release flag. -/
theorem release_spec (hI : R.Inv s) {k : ℕ} {g : ℕ × (UInt8 × List UInt8)}
    (hg : s.got[k]? = some g) (hr : s.released k = false) :
    ∃ m', R.step s (.release k) =
        some { s with mem := m', released := Function.update s.released k true } ∧
      R.Inv { s with mem := m', released := Function.update s.released k true } := by
  have hkg : k < s.got.length := (List.getElem?_eq_some_iff.1 hg).1
  have hk : k < s.issued.length := hkg.trans_le hI.got_le
  have hfl : R.flagOf s k = 5 := hI.flagOf_held hkg hr
  have hwin : s.issued.length ≤ k + R.slots := hI.in_window (by rw [hfl]; decide)
  have hsize := (hI.sizes (List.ne_nil_of_length_pos (by omega))).2
  have hok := hI.live k hk hwin
  have hslot := (hI.got_eq k g hg).1
  obtain ⟨m', hm', hflag, hch⟩ := dequeueRelease_spec R.flagClean hsize
    (m := s.mem) (e := R.slotOf k) (by rw [hok.flag, hfl])
  refine ⟨m', by simp [step, hg, hr, hslot, hm'], ?_⟩
  set s₁ : State := { s with mem := m', released := Function.update s.released k true } with hs₁
  have hrelk : s₁.released k = true := Function.update_self ..
  have hrel : ∀ j, j ≠ k → s₁.released j = s.released j := fun j hj => Function.update_of_ne hj ..
  have hcl : ¬ k < s.cleaned.length := fun hc => by simpa [hr] using hI.released_of_cleaned hc
  obtain ⟨h1, h2, h3⟩ := hI.slots_of_update (t := s₁) hk hwin rfl hch
    (fun j hj => by rw [flagOf, flagOf, hrel j hj]) (fun _ _ => rfl) le_rfl
    { flag := by
        rw [flagOf, if_neg hcl, if_pos hrelk]
        exact hflag
      len := fun _ hle => absurd hkg (not_lt.2 hle)
      sent := fun hle => absurd hkg (not_lt.2 hle) }
  refine { hI with
    cleaned_eq := fun j e he => ⟨(hI.cleaned_eq j e he).1, ?_⟩, released_lt := fun j hj => ?_,
    reused := h1, live := h2, fresh := h3 }
  · by_cases hjk : j = k
    · rw [hjk]; exact hrelk
    · rw [hrel j hjk]; exact (hI.cleaned_eq j e he).2
  · by_cases hjk : j = k
    · rw [hjk]; exact hkg
    · rw [hrel j hjk] at hj
      exact hI.released_lt j hj

theorem inv_release {k : ℕ} (hI : R.Inv s) (h : R.step s (.release k) = some t) : R.Inv t := by
  have h' := h
  simp only [step, Option.bind_eq_bind, Option.bind_eq_some_iff,
    Option.guard_eq_some'] at h'
  obtain ⟨g, hg, -, hr, -⟩ := h'
  obtain ⟨m', hstep, hI'⟩ := release_spec hI hg hr
  rw [hstep] at h
  exact Option.some.inj h ▸ hI'

end Ring
end Queue
end Floem
