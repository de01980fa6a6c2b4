import Floem.Nic.Invariant

/-!
# Transfers and workers keep the invariant

The moves of the manager other than those of `write_ready`, the completions of
transfers, and the steps of the workers.

* `Inv.change_seg` — a move that changes one segment only has to show `SegOk` for
  it.
* `inv_move` — the moves keep the invariant.
* `inv_dmaRead`, `inv_dmaWrite`, `inv_put`, `inv_count` — and so do the other steps.
  A `smart_dma_write` does only if it comes before its segment is finished.
-/

namespace Floem
namespace Nic
namespace Device

open Lib

variable {α : Type} {D : Device α} {phase : ℕ → Phase} {s t : State α}

/-! ## Moves -/

/-- What a move that changes one segment has to show. -/
theorem Inv.change_seg (hI : D.Inv phase s) {i : ℕ} (hc : D.Cursors t) (hmade : t.made = s.made)
    (hhanded : t.handed = s.handed) (hbuf : t.buf = s.buf) (hbacked : t.backed = s.backed)
    (hfinish : t.writeFinishSeg = s.writeFinishSeg) (hstart : t.writeStartSeg < D.n)
    (hother : ∀ j, j ≠ i → t.seg j = s.seg j) (hlap : (t.seg i).lap = (s.seg i).lap)
    (hin : i < D.n → D.SegOk phase s.handed.length s.made.length s.backed i (t.seg i))
    (hout : D.n ≤ i → (t.seg i).comp = .reset) : D.Inv phase t := by
  have hcur : ∀ j, D.cur t j = D.cur s j := fun j => by
    by_cases hj : j = i
    · rw [hj]; exact cur_congr hlap
    · exact cur_congr (by rw [hother j hj])
  have hF : D.finishSeg t = D.finishSeg s := by rw [finishSeg, finishSeg, hfinish, hcur]
  have hcopy : ∀ k, D.copy t k = D.copy s k := fun k => by rw [copy, copy, hbuf]
  exact
    { cursors := hc
      finish_lt := by rw [hfinish]; exact hI.finish_lt
      start_lt := hstart
      laps := fun j hj => by rw [hF, hcur]; exact hI.laps j hj
      finish_le := by rw [hF, writeSeg, hhanded]; exact hI.finish_le
      read_le := by rw [hF, hmade]; exact hI.read_le
      segs := fun j hj => by
        rw [hhanded, hmade, hbacked]
        by_cases hji : j = i
        · subst hji; exact hin hj
        · rw [hother j hji]; exact hI.segs j hj
      outside := fun j hj => by
        by_cases hji : j = i
        · subst hji; exact hout hj
        · rw [hother j hji]; exact hI.outside j hj
      idle := by rw [hmade]; exact hI.idle
      done_iff := by rw [hhanded, hmade]; simpa only [hcopy] using hI.done_iff
      passed := by rw [hhanded]; exact hI.passed
      handed_true := by rw [hhanded]; exact hI.handed_true
      unread := by rw [hhanded, hmade]; simpa only [hcopy, hcur] using hI.unread
      finished := by rw [hbacked]; simpa only [hcur] using hI.finished }

/-- `read_ready` passes an entry. -/
theorem inv_pass (hex : D.Exclusive) (hI : D.Inv phase s) (hc : D.Cursors (D.passed s))
    (hst : (s.seg (D.readSeg s % D.n)).status ≠ .READING)
    (hready : D.readyScan (D.copy s s.made.length)) : D.Inv phase (D.passed s) := by
  have hlen : (D.passed s).made.length = s.made.length + 1 := by simp [passed]
  have hlap := hI.unread _ le_rfl hI.cursors.made_lt hready
  have hR : D.blocks.blk s.made.length < D.finishSeg s + D.n :=
    hlap.trans_lt (hI.laps _ (Nat.mod_lt _ D.n_pos)).2
  refine { hI with
    cursors := hc
    read_le := by rw [hlen]; exact D.blocks.blk_lt_iff.1 hR
    segs := fun i hi => ?_
    idle := fun k hk => hI.idle k (by omega)
    done_iff := fun k hk hk' => ?_
    unread := fun k hk hk' hr => hI.unread k (by omega) hk' hr }
  · rw [hlen]
    refine (hI.segs i hi).pass fun hread heq => hst ?_
    rw [readSeg, heq, segNo_mod hi]
    exact hread
  · rw [hlen] at hk'
    by_cases hkR : k = s.made.length
    · subst hkR
      have hidle := hI.idle _ le_rfl
      refine iff_of_false (hex _ hready) ?_
      rw [hidle]
      decide
    · exact hI.done_iff k hk (by omega)

/-- A part of a segment is written back. -/
theorem inv_part (hI : D.Inv phase s) {i : ℕ} (hi : i = s.writeFinishSeg)
    (hst : (s.seg i).status = .WRITING) (hfin : (s.seg i).comp.complete)
    (hc : D.Cursors (partDone s i)) : D.Inv phase (partDone s i) := by
  have hlt : i < D.n := hi ▸ hI.finish_lt
  have hold := hI.segs i hlt
  obtain ⟨lo, fin, hcomp, hlo, hhi, -, hback⟩ := hold.writing hst
  have hfin' : fin = true := by rw [hcomp] at hfin; exact hfin
  refine hI.change_seg (i := i) hc rfl rfl rfl rfl rfl hI.start_lt
    (fun j hj => State.modify_seg_of_ne _ _ _ hj) (by simp [partDone]) (fun _ => ?_)
    (fun h => absurd hlt (not_lt.2 h))
  simp only [partDone, State.modify_seg_self]
  exact
    { hold with
      min_ge := fun _ => hlo.trans hhi.le
      min_le := fun _ => Or.inr le_rfl
      committed := fun _ => hback hfin'
      writing := fun h => absurd h (by simp)
      reading := fun h => absurd h (by simp)
      noComp := fun _ _ => rfl }

/-- A segment that was written back to its end begins its next lap. -/
theorem inv_retire (hI : D.Inv phase s) {i : ℕ} (hi : i = s.writeFinishSeg)
    (hst : (s.seg i).status = .WRITING) (hfin : (s.seg i).comp.complete)
    (hall : D.segAddrMax i ≤ (s.seg i).commitMax) (hc : D.Cursors (D.retired s i)) :
    D.Inv phase (D.retired s i) := by
  have hn := D.four_le_n
  have hlt : i < D.n := hi ▸ hI.finish_lt
  have hold := hI.segs i hlt
  have hF : D.finishSeg s = D.segNo i (s.seg i) := by rw [hi]; rfl
  -- `write_ready` is past the segment, `read_ready` not past its next lap
  have hW : D.blocks.first (D.finishSeg s + 1) ≤ s.handed.length := by
    rw [hF]
    exact hold.max_eq_end hlt (hall.trans hold.commit_le)
  have hWR := hI.cursors.handed_le
  have hread := hI.read_le
  have hsegi : (D.retired s i).seg i = { s.seg i with
      status := .INVALID, count := 0, min := if s.writeReadySeg = i then s.writeReady else 0,
      max := 0, commitMax := 0, comp := .reset, lap := (s.seg i).lap + 1 } := by
    simp only [retired, State.modify_seg_self]
  have hsego : ∀ j, j ≠ i → (D.retired s i).seg j = s.seg j := fun j hj => by
    simp only [retired, State.modify_seg_of_ne _ _ _ hj]
  have hno : D.segNo i ((D.retired s i).seg i) = D.finishSeg s + D.n := by
    rw [hsegi, hF, segNo, segNo]
    ring
  have hcuri : D.cur (D.retired s i) i = D.finishSeg s + D.n := hno
  have hcuro : ∀ j, j ≠ i → D.cur (D.retired s i) j = D.cur s j := fun j hj =>
    cur_congr (by rw [hsego j hj])
  -- the segment to be finished next is one further on
  have hnext : (i + 1) % D.n = (D.finishSeg s + 1) % D.n := by
    rw [← Nat.mod_add_mod (D.finishSeg s), hI.finishSeg_mod, hi]
  have hne : (i + 1) % D.n ≠ i := by
    rw [hnext]
    have hmod : D.finishSeg s % D.n = i := by rw [hI.finishSeg_mod, hi]
    rw [← hmod]
    exact (mod_ne_of_window (Nat.lt_succ_self _) (by omega)).symm
  have hF' : D.finishSeg (D.retired s i) = D.finishSeg s + 1 := by
    show D.cur (D.retired s i) ((i + 1) % D.n) = _
    rw [hcuro _ hne, hnext]
    exact hI.cur_eq (by omega) (by omega)
  have hmono := D.blocks.first_le_first (show D.finishSeg s + D.n ≤ D.finishSeg s + 1 + D.n by omega)
  refine
    { cursors := hc
      finish_lt := Nat.mod_lt _ D.n_pos
      start_lt := hI.start_lt
      laps := fun j hj => ?_
      finish_le := ?_
      read_le := by rw [hF']; exact hread.trans hmono
      segs := fun j hj => ?_
      outside := fun j hj => by rw [hsego j (by omega)]; exact hI.outside j hj
      idle := hI.idle
      done_iff := hI.done_iff
      passed := hI.passed
      handed_true := hI.handed_true
      unread := fun k hk hk' hr => ?_
      finished := fun k hk => ?_ }
  · rw [hF']
    by_cases hji : j = i
    · subst hji; rw [hcuri]; omega
    · rw [hcuro j hji]
      have hlaps := hI.laps j hj
      have hneF : D.cur s j ≠ D.finishSeg s := fun heq => hji (by
        rw [← segNo_mod hj (s.seg j), hi, ← hI.finishSeg_mod]
        exact congrArg (· % D.n) heq)
      omega
  · rw [hF']
    exact D.blocks.le_blk_iff.2 hW
  · by_cases hji : j = i
    · subst hji
      have hle : s.handed.length ≤ D.blocks.first (D.finishSeg s + D.n) := hWR.trans hread
      -- where `write_ready` has come round to the segment, it is at its beginning
      have hmin : D.blocks.first (D.finishSeg s + D.n) ≤ s.handed.length →
          s.writeReadySeg = j ∧ s.writeReady = D.segAddr j := fun hge => by
        have heq : s.handed.length = D.blocks.first (D.finishSeg s + D.n) := le_antisymm hle hge
        have hj' : (D.finishSeg s + D.n) % D.n = j := by
          rw [Nat.add_mod_right, hI.finishSeg_mod, hi]
        rw [hI.cursors.writeSeg_eq, hI.cursors.write_eq, writeSeg, heq, Blocks.blk_first,
          Layout.pos_first, hj']
        exact ⟨rfl, rfl⟩
      have hcount : D.countedIn phase (D.finishSeg s + D.n) = 0 := by
        rw [countedIn, Finset.card_eq_zero, Finset.filter_eq_empty_iff]
        intro k hk hcounted
        have hidle := hI.idle k (hread.trans (Finset.mem_Ico.1 hk).1)
        rw [hidle] at hcounted
        exact absurd hcounted (by decide)
      show D.SegOk phase s.handed.length s.made.length s.backed j ((D.retired s j).seg j)
      exact
        { max_eq := by rw [hno, if_pos hle, hsegi]
          commit_le := by rw [hsegi]
          min_ge := fun hge => by
            rw [hno] at hge
            obtain ⟨h1, h2⟩ := hmin hge
            rw [hsegi]
            simp only [h1, if_true, h2, le_refl]
          min_le := fun _ => Or.inl (by
            rw [hsegi]
            by_cases hseg : s.writeReadySeg = j
            · have hWF : D.blocks.first (D.finishSeg s + D.n) ≤ s.handed.length := by
                have hmod : D.writeSeg s % D.n = D.finishSeg s % D.n := by
                  rw [← hI.cursors.writeSeg_eq, hseg, hI.finishSeg_mod, hi]
                have h1 : D.finishSeg s + 1 ≤ D.writeSeg s := D.blocks.le_blk_iff.2 hW
                refine D.blocks.le_blk_iff.1 ?_
                show _ ≤ D.writeSeg s
                by_contra hlt'
                exact mod_ne_of_window h1 (by omega) hmod.symm
              simp only [hseg, if_true, (hmin hWF).2, le_refl]
            · simp only [if_neg hseg, Nat.zero_le])
          count_eq := fun _ => by rw [hno, hcount, hsegi]
          committed := fun _ k _ hk => by rw [hsegi] at hk; exact absurd hk (Nat.not_lt_zero _)
          writing := fun h => by rw [hsegi] at h; exact absurd h (by simp)
          reading := fun h => by rw [hsegi] at h; exact absurd h (by simp)
          noComp := fun _ _ => by rw [hsegi] }
    · rw [hsego j hji]
      exact hI.segs j hj
  · have hold' := hI.unread k hk hk' hr
    by_cases hki : D.blocks.blk k % D.n = i
    · rw [hki, hcuri]
      rw [hki, cur, ← hF] at hold'
      omega
    · rw [hcuro _ hki]
      exact hold'
  · by_cases hki : D.blocks.blk k % D.n = i
    · -- the entries of the finished lap were all covered by completed writes
      rw [hki, hcuri] at hk
      rcases Nat.lt_or_ge (D.blocks.blk k) (D.finishSeg s) with h | h
      · exact hI.finished k (by rw [hki, cur, ← hF]; exact h)
      · have hblk : D.blocks.blk k = D.finishSeg s := by
          have hmod : D.finishSeg s % D.n = D.blocks.blk k % D.n := by
            rw [hki, hI.finishSeg_mod, hi]
          exact (eq_of_mod_eq_of_window hmod h hk).symm
        obtain ⟨lo, fin, hcomp, -, -, -, hback⟩ := hold.writing hst
        have hfin' : fin = true := by rw [hcomp] at hfin; exact hfin
        refine hback hfin' k (by rw [hblk, hF]) ?_
        have := pos_lt_segAddrMax (D := D) k
        rw [hki] at this
        exact this.trans_le hall
    · rw [hcuro _ hki] at hk
      exact hI.finished k hk

/-- A read is started in the segment of `read_ready` or in the one after it. -/
theorem inv_startRead (hI : D.Inv phase s) {i : ℕ}
    (hi : i = s.readReadySeg ∨ i = (s.readReadySeg + 1) % D.n) (hst : (s.seg i).status = .INVALID)
    (hmax : (s.seg i).max = 0 ∨ s.readReadySeg = i ∧ (s.seg i).max ≤ s.readReady)
    (hc : D.Cursors (D.readStarted s i)) : D.Inv phase (D.readStarted s i) := by
  have hn := D.four_le_n
  have hgap := hI.cursors.gap
  have hle := hI.cursors.writeSeg_le
  have hrd : s.readReadySeg = D.readSeg s % D.n := hI.cursors.readSeg_eq
  have hlt : i < D.n := by
    rcases hi with rfl | rfl
    · rw [hrd]; exact Nat.mod_lt _ D.n_pos
    · exact Nat.mod_lt _ D.n_pos
  have hold := hI.segs i hlt
  have hlaps := hI.laps i hlt
  have hreadlap : D.readSeg s ≤ D.finishSeg s + D.n := by
    have := D.blocks.blk_mono hI.read_le
    rwa [Blocks.blk_first] at this
  have hF := hI.finish_le
  -- before `write_ready` has passed an entry of a segment, it is not past it
  have hzero : (s.seg i).max = 0 → D.writeSeg s ≤ D.cur s i := fun h0 => by
    have := D.blocks.blk_mono ((hold.max_eq_zero_iff hlt).1 h0)
    rwa [Blocks.blk_first] at this
  -- the entries the read brings are still ahead of `read_ready`
  have hahead : D.readSeg s ≤ D.cur s i ∧
      ∀ k, D.blocks.blk k = D.cur s i → D.readOff s i ≤ D.offset k → s.made.length ≤ k := by
    have hmodcur : D.cur s i % D.n = i := segNo_mod hlt _
    rcases hi with hi | hi
    · -- the segment of `read_ready`, which is in the lap of `read_ready`
      have hcur : D.cur s i = D.readSeg s := by
        rcases Nat.lt_or_ge (D.readSeg s) (D.finishSeg s + D.n) with h | h
        · rw [hi, hrd]
          exact hI.cur_eq (hF.trans hle) h
        · -- the lap before would not be written back, and `max` at the segment's end
          exfalso
          have hRF : D.readSeg s = D.finishSeg s + D.n := le_antisymm hreadlap h
          have hcurF : D.cur s i = D.finishSeg s := by
            refine (eq_of_mod_eq_of_window ?_ hlaps.1 hlaps.2).symm
            rw [hmodcur, hi, hrd, hRF, Nat.add_mod_right]
          have hfirst : D.blocks.first (D.segNo i (s.seg i) + 1) ≤ s.handed.length := by
            refine D.blocks.le_blk_iff.1 ?_
            show D.cur s i + 1 ≤ D.writeSeg s
            omega
          have hmaxval := hold.max_eq
          have hstep := D.blocks.first_lt_succ (D.segNo i (s.seg i))
          rw [if_neg (by omega), if_neg (by omega)] at hmaxval
          have hpos := pos_lt_segAddrMax (D := D) s.made.length
          rw [← readSeg, ← hrd, ← hi] at hpos
          rcases hmax with h0 | ⟨-, hm⟩
          · omega
          · rw [hI.cursors.read_eq] at hm
            omega
      refine ⟨hcur.ge, fun k hk hoff => ?_⟩
      have hreadoff : D.readOff s i = D.offset s.made.length := by
        have hmem := pos_lt_segAddrMax (D := D) s.made.length
        rw [← readSeg, ← hrd, Layout.segAddrMax] at hmem
        rw [readOff, hi, hI.cursors.read_offset, if_neg]
        · have hpos := (D.pos_mem s.made.length).1
          rw [← readSeg, ← hrd] at hpos
          rw [hI.cursors.read_eq]
          have hoffset := pos_eq_offset D s.made.length
          rw [← readSeg, ← hrd] at hoffset
          omega
      rw [hreadoff, offset, offset] at hoff
      have hblk : D.blocks.blk k = D.blocks.blk s.made.length := hk.trans hcur
      rw [hblk] at hoff
      have h1 := Nat.le_of_mul_le_mul_right hoff D.overlap_pos
      have h2 := D.blocks.first_blk_le s.made.length
      have h3 := D.blocks.first_blk_le k
      rw [hblk] at h3
      omega
    · -- the segment after it
      have hne : s.readReadySeg ≠ i := by
        rw [hi, hrd, Nat.mod_add_mod]
        exact mod_ne_of_window (Nat.lt_succ_self _) (by omega)
      have h0 : (s.seg i).max = 0 := hmax.resolve_right fun h => hne h.1
      have hcurW := hzero h0
      have hcur : D.cur s i = D.readSeg s + 1 := by
        have hmod : D.cur s i % D.n = (D.readSeg s + 1) % D.n := by
          rw [hmodcur, hi, hrd, Nat.mod_add_mod]
        rcases Nat.le_total (D.cur s i) (D.readSeg s + 1) with h | h
        · exact eq_of_mod_eq_of_window hmod h (by omega)
        · exact (eq_of_mod_eq_of_window hmod.symm h (by omega)).symm
      refine ⟨by omega, fun k hk _ => ?_⟩
      have hfirst := D.blocks.first_blk_le k
      have hR := D.blocks.lt_first_succ_blk s.made.length
      rw [hk, hcur] at hfirst
      exact (hR.trans_le hfirst).le
  refine hI.change_seg (i := i) hc rfl rfl rfl rfl rfl hI.start_lt
    (fun j hj => State.modify_seg_of_ne _ _ _ hj) (by simp [readStarted]) (fun _ => ?_)
    (fun h => absurd hlt (not_lt.2 h))
  simp only [readStarted, State.modify_seg_self]
  have hne : (s.seg i).status ≠ .WRITING := by rw [hst]; decide
  have hdvd : D.overlap ∣ D.readOff s i := by
    rw [readOff, hI.cursors.read_eq]
    split_ifs
    · exact dvd_zero _
    · exact D.overlap_dvd_pos_sub _ _
  exact
    { hold with
      min_le := fun _ => hold.min_le hne
      committed := fun _ => hold.committed hne
      writing := fun h => absurd h (by simp)
      reading := fun _ => ⟨_, _, _, rfl, hdvd, hahead.1, fun k hk hoff =>
        ⟨hahead.2 k hk hoff, fun hslots => by
          -- the lap before is finished, so its entries are written back
          have hblk : D.blocks.blk (k - D.slots) + D.n = D.blocks.blk k := by
            rw [← blk_add_slots, Nat.sub_add_cancel hslots]
          have hki : D.blocks.blk (k - D.slots) % D.n = i := by
            rw [← Nat.add_mod_right, hblk, show D.blocks.blk k = D.cur s i from hk]
            exact segNo_mod hlt _
          refine hI.finished (k - D.slots) ?_
          rw [hki]
          have : D.blocks.blk k = D.cur s i := hk
          omega⟩⟩
      noComp := fun _ h => absurd rfl h }

/-- The manager takes note of a read. -/
theorem inv_takeRead (hI : D.Inv phase s) {i : ℕ} (hi : i = s.readReadySeg)
    (hst : (s.seg i).status = .READING) (hc : D.Cursors (readTaken s i)) :
    D.Inv phase (readTaken s i) := by
  have hlt : i < D.n := by
    rw [hi, hI.cursors.readSeg_eq]
    exact Nat.mod_lt _ D.n_pos
  have hold := hI.segs i hlt
  have hne : (s.seg i).status ≠ .WRITING := by rw [hst]; decide
  refine hI.change_seg (i := i) hc rfl rfl rfl rfl rfl hI.start_lt
    (fun j hj => State.modify_seg_of_ne _ _ _ hj) (by simp [readTaken]) (fun _ => ?_)
    (fun h => absurd hlt (not_lt.2 h))
  simp only [readTaken, State.modify_seg_self]
  exact
    { hold with
      min_le := fun _ => hold.min_le hne
      committed := fun _ => hold.committed hne
      writing := fun h => absurd h (by simp)
      reading := fun h => absurd h (by simp)
      noComp := fun _ _ => rfl }

/-- A segment no transfer is at work on gets a new status. -/
theorem inv_settle (hI : D.Inv phase s) {i : ℕ} {st : Status}
    (hst : (s.seg i).status = .RELEASE ∨ (s.seg i).status = .VALID)
    (hnew : st = .VALID ∨ st = .INVALID) (hc : D.Cursors (setStatus s i st)) :
    D.Inv phase (setStatus s i st) := by
  have hne : (s.seg i).status ≠ .WRITING ∧ (s.seg i).status ≠ .READING := by
    rcases hst with h | h <;> rw [h] <;> decide
  have hnew' : st ≠ .WRITING ∧ st ≠ .READING := by
    rcases hnew with h | h <;> rw [h] <;> decide
  refine hI.change_seg (i := i) hc rfl rfl rfl rfl rfl hI.start_lt
    (fun j hj => State.modify_seg_of_ne _ _ _ hj) (by simp [setStatus]) (fun hlt => ?_)
    (fun h => ?_)
  · have hold := hI.segs i hlt
    simp only [setStatus, State.modify_seg_self]
    exact
      { hold with
        min_le := fun _ => hold.min_le hne.1
        committed := fun _ => hold.committed hne.1
        writing := fun h => absurd h hnew'.1
        reading := fun h => absurd h hnew'.2
        noComp := fun _ _ => hold.noComp hne.1 hne.2 }
  · simp only [setStatus, State.modify_seg_self]
    exact hI.outside i h

/-- The fields of the segment a write is started in. -/
theorem doWrite_seg {i : ℕ} (hmin : (s.seg i).min < (s.seg i).max)
    (hst : (s.seg i).status = .VALID ∨ (s.seg i).status = .INVALID) :
    (D.doWrite s i).seg i = { s.seg i with
      status := .WRITING, commitMax := (s.seg i).max,
      comp := .write (s.seg i).min (s.seg i).max false } ∧
    (∀ j, j ≠ i → (D.doWrite s i).seg j = s.seg j) ∧
    (D.doWrite s i).writes = s.writes ++ [((s.seg i).lap, (s.seg i).min, (s.seg i).max)] ∧
    ((D.doWrite s i).writeStartSeg = s.writeStartSeg ∨
      (D.doWrite s i).writeStartSeg = (i + 1) % D.n) := by
  rw [doWrite, if_pos ⟨hmin, hst⟩]
  dsimp only
  split_ifs
  · exact ⟨by simp, fun j hj => State.modify_seg_of_ne _ _ _ hj, rfl, Or.inr rfl⟩
  · exact ⟨by simp, fun j hj => State.modify_seg_of_ne _ _ _ hj, rfl, Or.inl rfl⟩

theorem doWrite_frame (s : State α) (i : ℕ) :
    (D.doWrite s i).made = s.made ∧ (D.doWrite s i).handed = s.handed ∧
    (D.doWrite s i).buf = s.buf ∧ (D.doWrite s i).fetched = s.fetched ∧
    (D.doWrite s i).backed = s.backed ∧ (D.doWrite s i).writeFinishSeg = s.writeFinishSeg := by
  rw [doWrite]
  dsimp only
  split_ifs <;> exact ⟨rfl, rfl, rfl, rfl, rfl, rfl⟩

/-- A write is started. -/
theorem inv_startWrite (hI : D.Inv phase s) {i : ℕ} (hi : i = s.writeStartSeg)
    (hmin : (s.seg i).min < (s.seg i).max)
    (hst : (s.seg i).status = .VALID ∨ (s.seg i).status = .INVALID)
    (hc : D.Cursors (D.doWrite s i)) : D.Inv phase (D.doWrite s i) := by
  have hlt : i < D.n := hi ▸ hI.start_lt
  have hold := hI.segs i hlt
  have hne : (s.seg i).status ≠ .WRITING := by rcases hst with h | h <;> rw [h] <;> decide
  obtain ⟨hsegi, hsego, -, hstart⟩ := doWrite_seg (D := D) hmin hst
  obtain ⟨h1, h2, h3, -, h4, h5⟩ := doWrite_frame (D := D) s i
  refine hI.change_seg (i := i) hc h1 h2 h3 h4 h5 ?_ hsego (by rw [hsegi]) (fun _ => ?_)
    (fun h => absurd hlt (not_lt.2 h))
  · rcases hstart with h | h
    · rw [h]; exact hI.start_lt
    · rw [h]; exact Nat.mod_lt _ D.n_pos
  · -- something was handed back, so the segment has been entered
    have hentered : D.blocks.first (D.segNo i (s.seg i)) ≤ s.handed.length := by
      by_contra h
      have := (hold.max_eq_zero_iff hlt).2 (not_le.1 h).le
      omega
    have hlow := hold.min_ge hentered
    rw [hsegi]
    exact
      { hold with
        commit_le := le_rfl
        min_le := fun h => absurd rfl h
        committed := fun h => absurd rfl h
        writing := fun _ => ⟨_, false, rfl, hlow, hmin, fun k hk hpos => by
          refine hold.committed hne k hk ?_
          rcases hold.min_le hne with h | h
          · have hk' : D.blocks.blk k % D.n = i := by
              rw [show D.blocks.blk k = D.segNo i (s.seg i) from hk]
              exact segNo_mod hlt _
            have := (D.pos_mem k).1
            rw [hk'] at this
            omega
          · omega, fun h => absurd h (by decide)⟩
        reading := fun h => absurd h (by simp)
        noComp := fun h => absurd rfl h }

/-- **The moves of the manager keep the invariant.** -/
theorem inv_move (hex : D.Exclusive) (hI : D.Inv phase s) (h : D.Move s t) : D.Inv phase t := by
  have hc := h.cursors hI.cursors
  cases h with
  | pass hstop hst hready => exact inv_pass hex hI hc hst hready
  | retire i hi hst hfin hall => exact inv_retire hI hi hst hfin hall hc
  | part i hi hst hfin hpart => exact inv_part hI hi hst hfin hc
  | startRead i hi hst hmax hroom => exact inv_startRead hI hi hst hmax hc
  | takeRead i hi hst hfin => exact inv_takeRead hI hi hst hc
  | settle i st hst hnew => exact inv_settle hI hst hnew hc
  | startWrite i hi hmin hmax hst => exact inv_startWrite hI hi hmin hst hc
  | note a b c => exact { hI with cursors := hc }

theorem inv_moves (hex : D.Exclusive) (hI : D.Inv phase s) (h : D.Moves s t) :
    D.Inv phase t := by
  induction h with
  | refl => exact hI
  | tail _ hstep ih => exact inv_move hex ih hstep

theorem inv_handMoves (hex : D.Exclusive) (hI : D.Inv phase s) (h : D.HandMoves s t) :
    D.Inv phase t := by
  induction h with
  | refl => exact hI
  | tail _ hstep ih => exact inv_handMove hex ih hstep

/-! ## Completions -/

/-- The segment a transfer is under way in is one of the queue, and its status is
that of the transfer. -/
theorem Inv.status_of_comp (hI : D.Inv phase s) {i : ℕ} :
    (∀ off size snap fin, (s.seg i).comp = .read off size snap fin →
      i < D.n ∧ (s.seg i).status = .READING) ∧
    (∀ lo hi fin, (s.seg i).comp = .write lo hi fin →
      i < D.n ∧ (s.seg i).status = .WRITING) := by
  have hlt : (s.seg i).comp ≠ .reset → i < D.n := fun hne => by
    by_contra h
    exact hne (hI.outside i (not_lt.1 h))
  refine ⟨fun off size snap fin hcomp => ?_, fun lo hi fin hcomp => ?_⟩
  · have hi := hlt (by rw [hcomp]; simp)
    refine ⟨hi, ?_⟩
    by_contra hst
    by_cases hw : (s.seg i).status = .WRITING
    · obtain ⟨_, _, h, -⟩ := (hI.segs i hi).writing hw
      rw [hcomp] at h
      cases h
    · have h := (hI.segs i hi).noComp hw hst
      rw [hcomp] at h
      cases h
  · have hi := hlt (by rw [hcomp]; simp)
    refine ⟨hi, ?_⟩
    by_contra hst
    by_cases hr : (s.seg i).status = .READING
    · obtain ⟨_, _, _, h, -⟩ := (hI.segs i hi).reading hr
      rw [hcomp] at h
      cases h
    · have h := (hI.segs i hi).noComp hst hr
      rw [hcomp] at h
      cases h

/-- The entry in which a read lands: of the tickets of the next lap at most, it is the
one the read was started for. -/
theorem Inv.blk_of_landing (hI : D.Inv phase s) {i off size : ℕ} {snap : ℕ → Bool} {fin : Bool}
    (hcomp : (s.seg i).comp = .read off size snap fin) {k : ℕ} (hki : D.blocks.blk k % D.n = i)
    (hoff : off ≤ D.offset k) (hk : s.handed.length ≤ k) (hk' : k < s.handed.length + D.slots) :
    s.made.length ≤ k ∧ D.blocks.blk k = D.cur s i ∧ (D.slots ≤ k → snap (k - D.slots)) := by
  obtain ⟨hi, hst⟩ := (hI.status_of_comp (i := i)).1 _ _ _ _ hcomp
  obtain ⟨off', snap', fin', hcomp', -, hle, hahead⟩ := (hI.segs i hi).reading hst
  rw [hcomp] at hcomp'
  cases hcomp'
  have hn := D.n_pos
  have hlaps := hI.laps i hi
  have hF := hI.finish_le
  have hWR := hI.cursors.writeSeg_le
  have hlow : D.writeSeg s ≤ D.blocks.blk k := D.blocks.blk_mono hk
  have hhigh : D.blocks.blk k ≤ D.writeSeg s + D.n := by
    have := D.blocks.blk_mono hk'.le
    rwa [show s.handed.length + D.slots = s.handed.length + D.blocks.cells from rfl,
      Blocks.blk_add_cells] at this
  have hmod : D.cur s i % D.n = D.blocks.blk k % D.n := by rw [hki]; exact segNo_mod hi _
  have hR : D.readSeg s ≤ D.cur s i := hle
  have hblk : D.blocks.blk k = D.cur s i := by
    rcases Nat.lt_or_ge (D.blocks.blk k) (D.cur s i + D.n) with h | h
    · rcases Nat.le_total (D.cur s i) (D.blocks.blk k) with h' | h'
      · exact (eq_of_mod_eq_of_window hmod h' h).symm
      · exact eq_of_mod_eq_of_window hmod.symm h' (by omega)
    · -- a lap further on the ticket of this lap would have been handed back already
      exfalso
      have hkc : D.blocks.blk k = D.cur s i + D.n := by omega
      have hslots : D.slots ≤ k := by
        have := D.blocks.le_blk_iff.1 (show D.n ≤ D.blocks.blk k by omega)
        have h0 := D.blocks.first_add_n 0
        rw [Nat.zero_add, D.blocks.first_zero, Nat.zero_add] at h0
        exact (show D.blocks.first D.n = D.slots from h0) ▸ this
      obtain ⟨j, rfl⟩ : ∃ j, k = j + D.slots := ⟨k - D.slots, by omega⟩
      rw [blk_add_slots] at hkc
      rw [offset_add_slots] at hoff
      have hj := (hahead j (show D.blocks.blk j = D.cur s i by omega) hoff).1
      have := hI.cursors.handed_le
      omega
  exact ⟨(hahead k hblk hoff).1, hblk, (hahead k hblk hoff).2⟩

/-- What a step has to show that changes the local copies, or the progress of the
workers but not what was counted. -/
theorem Inv.change_copies (hI : D.Inv phase s) {phase' : ℕ → Phase} (b : ℕ → ℕ → α)
    (f : ℕ → ℕ → Option (Fetch α)) (hcount : ∀ c, D.countedIn phase' c = D.countedIn phase c)
    (hidle : ∀ k, s.made.length ≤ k → phase' k = .idle)
    (hpassed : ∀ k, k < s.handed.length → phase' k = .flagged ∨ phase' k = .counted)
    (hdone : ∀ k, s.handed.length ≤ k → k < s.made.length →
      (D.doneScan (b (D.blocks.blk k % D.n) (D.offset k)) = true ↔
        phase' k = .flagged ∨ phase' k = .counted))
    (hunread : ∀ k, s.made.length ≤ k → k < s.handed.length + D.slots →
      D.readyScan (b (D.blocks.blk k % D.n) (D.offset k)) →
        D.blocks.blk k ≤ D.cur s (D.blocks.blk k % D.n)) :
    D.Inv phase' { s with buf := b, fetched := f } where
  cursors := hI.cursors.congr rfl rfl rfl rfl rfl rfl
  finish_lt := hI.finish_lt
  start_lt := hI.start_lt
  laps := hI.laps
  finish_le := hI.finish_le
  read_le := hI.read_le
  segs i hi := { hI.segs i hi with
    count_eq := fun hlt => by rw [hcount]; exact (hI.segs i hi).count_eq hlt }
  outside := hI.outside
  idle := hidle
  done_iff := hdone
  passed := hpassed
  handed_true := hI.handed_true
  unread := hunread
  finished := hI.finished

/-- What the local copies hold after a read has landed. -/
theorem copy_landed (s : State α) (i off size : ℕ) (data : ℕ → α) (k : ℕ) :
    (Function.update s.buf i fun o => if off ≤ o ∧ o < off + size then data o else s.buf i o)
      (D.blocks.blk k % D.n) (D.offset k) =
    if D.blocks.blk k % D.n = i ∧ off ≤ D.offset k ∧ D.offset k < off + size
    then data (D.offset k) else D.copy s k := by
  by_cases hki : D.blocks.blk k % D.n = i
  · rw [hki, Function.update_self]
    by_cases hin : off ≤ D.offset k ∧ D.offset k < off + size
    · rw [if_pos hin, if_pos ⟨rfl, hin⟩]
    · rw [if_neg hin, if_neg (fun h => hin h.2), copy, hki]
  · rw [Function.update_of_ne hki, if_neg (fun h => hki h.1), copy]

/-- A DMA read completes. -/
theorem inv_dmaRead (hI : D.Inv phase s) {i : ℕ} {data : ℕ → α} (h : dmaRead s i data = some t) :
    D.Inv phase t := by
  obtain ⟨off, size, snap, hcomp, rfl⟩ := dmaRead_eq_some h
  obtain ⟨hi, hst⟩ := (hI.status_of_comp (i := i)).1 _ _ _ _ hcomp
  have hold := hI.segs i hi
  -- the same state without the new copies
  have hI' : D.Inv phase (s.modify i fun g => { g with comp := .read off size snap true }) := by
    refine hI.change_seg (i := i) (hI.cursors.modify _ _) rfl rfl rfl rfl rfl hI.start_lt
      (fun j hj => State.modify_seg_of_ne _ _ _ hj) (by simp) (fun _ => ?_)
      (fun h => absurd hi (not_lt.2 h))
    simp only [State.modify_seg_self]
    exact
      { hold with
        writing := fun h => absurd (hst.symm.trans h) (by decide)
        reading := fun _ => by
          obtain ⟨off', snap', fin', h1, h2⟩ := hold.reading hst
          rw [hcomp] at h1
          cases h1
          exact ⟨_, _, _, rfl, h2⟩
        noComp := fun _ h => absurd hst h }
  refine hI'.change_copies _ _ (fun _ => rfl) hI.idle hI.passed (fun k hk hk' => ?_)
    (fun k hk hk' hready => ?_)
  · have hout : ¬ (D.blocks.blk k % D.n = i ∧ off ≤ D.offset k ∧ D.offset k < off + size) :=
      fun hin => by
        have hwin := hI.cursors.made_lt
        have := (hI.blk_of_landing hcomp hin.1 hin.2.1 hk (hk'.trans hwin)).1
        exact absurd hk' (not_lt.2 this)
    rw [copy_landed s i off size data k, if_neg hout]
    exact hI.done_iff k hk hk'
  · rw [copy_landed s i off size data k] at hready
    by_cases hin : D.blocks.blk k % D.n = i ∧ off ≤ D.offset k ∧ D.offset k < off + size
    · have hblk := (hI.blk_of_landing hcomp hin.1 hin.2.1 (hI.cursors.handed_le.trans hk) hk').2.1
      rw [hin.1, hblk]
      exact (cur_congr (by simp)).ge
    · rw [if_neg hin] at hready
      exact hI'.unread k hk hk' hready

/-- More write-backs complete. -/
theorem Inv.grow_backed (hI : D.Inv phase s) {b : ℕ → Bool} (hb : ∀ k, s.backed k → b k) :
    D.Inv phase { s with backed := b } where
  cursors := hI.cursors.congr rfl rfl rfl rfl rfl rfl
  finish_lt := hI.finish_lt
  start_lt := hI.start_lt
  laps := hI.laps
  finish_le := hI.finish_le
  read_le := hI.read_le
  segs i hi := (hI.segs i hi).mono hb
  outside := hI.outside
  idle := hI.idle
  done_iff := hI.done_iff
  passed := hI.passed
  handed_true := hI.handed_true
  unread := hI.unread
  finished k hk := hb k (hI.finished k hk)

/-- A DMA write completes. -/
theorem inv_dmaWrite (hI : D.Inv phase s) {i : ℕ} (h : D.dmaWrite s i = some t) :
    D.Inv phase t := by
  obtain ⟨lo, hi, hcomp, rfl⟩ := dmaWrite_eq_some h
  obtain ⟨hlt, hst⟩ := (hI.status_of_comp (i := i)).2 _ _ _ hcomp
  have hgrow := hI.grow_backed (b := fun k => s.backed k ||
    decide (k / D.slots = (s.seg i).lap ∧ lo ≤ D.pos k ∧ D.pos k < hi)) fun k hk => by rw [hk]; rfl
  have hold := hgrow.segs i hlt
  refine hgrow.change_seg (i := i) (hI.cursors.congr rfl rfl rfl rfl rfl rfl) rfl rfl rfl rfl rfl
    hI.start_lt (fun j hj => Function.update_of_ne hj _ _) (by simp) (fun _ => ?_)
    (fun h => absurd hlt (not_lt.2 h))
  simp only [State.modify_seg_self]
  exact
    { hold with
      writing := fun _ => by
        obtain ⟨lo', fin', h1, h2, h3, h4, -⟩ := hold.writing hst
        have h1' : (s.seg i).comp = .write lo' (s.seg i).commitMax fin' := h1
        rw [hcomp] at h1'
        cases h1'
        refine ⟨_, _, rfl, h2, h3, h4, fun _ k hk hpos => ?_⟩
        rcases Nat.lt_or_ge (D.pos k) lo with hlo | hlo
        · exact h4 k hk hlo
        · -- the entry is one of those the write covers
          have hdiv : k / D.slots = (s.seg i).lap := by
            have hdiv' : D.blocks.blk k / D.n = k / D.slots := D.blocks.blk_div k
            rw [← hdiv', show D.blocks.blk k = (s.seg i).lap * D.n + i from hk, Nat.mul_comm,
              Nat.mul_add_div D.n_pos, Nat.div_eq_of_lt hlt, Nat.add_zero]
          have hcover : k / D.slots = (s.seg i).lap ∧ lo ≤ D.pos k ∧ D.pos k < (s.seg i).commitMax :=
            ⟨hdiv, hlo, hpos⟩
          simp only [hcover, and_self, decide_true, Bool.or_true]
      reading := fun h => absurd (hst.symm.trans h) (by decide)
      noComp := fun h => absurd hst h }

/-! ## Workers -/

/-- What the local copies hold after a store to the entry with ticket `k`. -/
theorem copy_put (s : State α) (k : ℕ) (v : α) (j : ℕ) :
    Function.update s.buf (D.blocks.blk k % D.n)
      (Function.update (s.buf (D.blocks.blk k % D.n)) (D.offset k) v)
      (D.blocks.blk j % D.n) (D.offset j) =
    if j % D.slots = k % D.slots then v else D.copy s j := by
  have hcell : j % D.slots = k % D.slots ↔
      D.blocks.blk j % D.n = D.blocks.blk k % D.n ∧ D.offset j = D.offset k := by
    constructor
    · intro h
      have hseg : D.blocks.blk j % D.n = D.blocks.blk k % D.n := by
        have hj : D.blocks.blk j % D.n = j % D.slots / (BUFF_SIZE / D.overlap) := D.blocks.blk_mod j
        have hk : D.blocks.blk k % D.n = k % D.slots / (BUFF_SIZE / D.overlap) := D.blocks.blk_mod k
        rw [hj, hk, h]
      have hpos := D.pos_inj.2 h
      rw [pos_eq_offset, pos_eq_offset, hseg] at hpos
      exact ⟨hseg, by omega⟩
    · rintro ⟨h1, h2⟩
      rw [← Layout.pos_inj, pos_eq_offset, pos_eq_offset, h1, h2]
  by_cases hseg : D.blocks.blk j % D.n = D.blocks.blk k % D.n
  · rw [hseg, Function.update_self]
    by_cases hoff : D.offset j = D.offset k
    · rw [hoff, Function.update_self, if_pos (hcell.2 ⟨hseg, hoff⟩)]
    · rw [Function.update_of_ne hoff, if_neg (fun h => hoff (hcell.1 h).2), copy, hseg]
  · rw [Function.update_of_ne hseg, if_neg (fun h => hseg (hcell.1 h).1), copy]

/-- Progress short of counting changes no count. -/
theorem countedIn_update {k : ℕ} {p : Phase} (hk : phase k ≠ .counted) (hp : p ≠ .counted)
    (c : ℕ) : D.countedIn (Function.update phase k p) c = D.countedIn phase c := by
  rw [countedIn, countedIn]
  congr 1
  refine Finset.filter_congr fun j _ => ?_
  by_cases hj : j = k
  · subst hj
    rw [Function.update_self]
    exact iff_of_false hp hk
  · rw [Function.update_of_ne hj]

/-- An entry a worker has is in the window. -/
theorem Inv.mem_window (hI : D.Inv phase s) {k : ℕ} (hk : phase k = .working) :
    s.handed.length ≤ k ∧ k < s.made.length := by
  constructor
  · by_contra h
    rcases hI.passed k (not_le.1 h) with h' | h' <;> rw [hk] at h' <;> cases h'
  · by_contra h
    have h' := hI.idle k (not_lt.1 h)
    rw [hk] at h'
    cases h'

/-- A worker stores to its entry, finishing it or not. -/
theorem inv_put (hI : D.Inv phase s) {k : ℕ} {v : α} {p : Phase} (hk : phase k = .working)
    (hp : p = .working ∧ ¬ D.doneScan v ∨ p = .flagged ∧ D.doneScan v) :
    D.Inv (Function.update phase k p) { s with
      buf := Function.update s.buf (D.blocks.blk k % D.n)
        (Function.update (s.buf (D.blocks.blk k % D.n)) (D.offset k) v) } := by
  obtain ⟨hlo, hhi⟩ := hI.mem_window hk
  have hlap := hI.cursors.made_lt
  have hne : ∀ j, s.handed.length ≤ j → j < s.handed.length + D.slots → j ≠ k →
      ¬ j % D.slots = k % D.slots := fun j hj hj' hjk => by
    rcases Nat.lt_or_gt_of_ne hjk with h | h
    · exact mod_ne_of_window h (by omega)
    · exact (mod_ne_of_window h (by omega)).symm
  refine hI.change_copies _ s.fetched (countedIn_update (by rw [hk]; decide) ?_)
    (fun j hj => ?_) (fun j hj => ?_) (fun j hj hj' => ?_) (fun j hj hj' hready => ?_)
  · rcases hp with ⟨rfl, -⟩ | ⟨rfl, -⟩ <;> decide
  · rw [Function.update_of_ne (by omega)]
    exact hI.idle j hj
  · rw [Function.update_of_ne (by omega)]
    exact hI.passed j hj
  · rw [copy_put]
    by_cases hjk : j = k
    · subst hjk
      rw [if_pos rfl, Function.update_self]
      rcases hp with ⟨rfl, hv⟩ | ⟨rfl, hv⟩
      · simp [hv]
      · simp [hv]
    · rw [if_neg (hne j hj (by omega) hjk), Function.update_of_ne hjk]
      exact hI.done_iff j hj hj'
  · rw [copy_put, if_neg (hne j (hI.cursors.handed_le.trans hj) hj' (by omega))] at hready
    exact hI.unread j hj hj' hready

/-- A worker obtains an entry of the window. -/
theorem inv_obtain (hI : D.Inv phase s) {k : ℕ} (hk : phase k = .idle)
    (hlo : s.handed.length ≤ k) (hhi : k < s.made.length) :
    D.Inv (Function.update phase k .working) s := by
  refine hI.change_copies s.buf s.fetched (countedIn_update (by rw [hk]; decide) (by decide))
    (fun j hj => ?_) (fun j hj => ?_) (fun j hj hj' => ?_) hI.unread
  · rw [Function.update_of_ne (by omega)]
    exact hI.idle j hj
  · rw [Function.update_of_ne (by omega)]
    exact hI.passed j hj
  · by_cases hjk : j = k
    · subst hjk
      rw [Function.update_self]
      have h := hI.done_iff j hj hj'
      rw [hk] at h
      simpa [copy] using h
    · rw [Function.update_of_ne hjk]
      exact hI.done_iff j hj hj'

/-- A worker calls `smart_dma_write` for a finished entry whose segment is not
finished. -/
theorem inv_count (hI : D.Inv phase s) {k now : ℕ} (hk : phase k = .flagged)
    (hlap : (s.seg (D.blocks.blk k % D.n)).lap ≤ k / D.slots) :
    D.Inv (Function.update phase k .counted) (D.smartDmaWrite s (D.pos k) now) := by
  have hhi : k < s.made.length := by
    by_contra h
    have h' := hI.idle k (not_lt.1 h)
    rw [hk] at h'
    cases h'
  have hi : D.blocks.blk k % D.n < D.n := Nat.mod_lt _ D.n_pos
  have hdiv : D.blocks.blk k / D.n = k / D.slots := D.blocks.blk_div k
  -- the segment is in the lap of the entry
  have hcur : D.cur s (D.blocks.blk k % D.n) = D.blocks.blk k := by
    have hle : D.cur s (D.blocks.blk k % D.n) ≤ D.blocks.blk k := by
      have := Nat.div_add_mod (D.blocks.blk k) D.n
      have hmul := Nat.mul_le_mul_left D.n hlap
      rw [← hdiv] at hmul
      rw [cur, segNo, Nat.mul_comm]
      omega
    exact hI.cur_eq ((hI.laps _ hi).1.trans hle) (hI.blk_lt hhi)
  have hseg : ∀ j, j ≠ D.blocks.blk k % D.n → (D.smartDmaWrite s (D.pos k) now).seg j = s.seg j :=
    fun j hj => by
      simp only [smartDmaWrite, findSegment_pos, State.modify_seg_of_ne _ _ _ hj]
  have hsegi : (D.smartDmaWrite s (D.pos k) now).seg (D.blocks.blk k % D.n) =
      { s.seg (D.blocks.blk k % D.n) with count := (s.seg (D.blocks.blk k % D.n)).count + 1 } := by
    simp only [smartDmaWrite, findSegment_pos, State.modify_seg_self]
  have hsame : ∀ j, D.cur (D.smartDmaWrite s (D.pos k) now) j = D.cur s j := fun j => by
    by_cases hj : j = D.blocks.blk k % D.n
    · subst hj; exact cur_congr (by rw [hsegi])
    · exact cur_congr (by rw [hseg j hj])
  have hupd : ∀ j, (Function.update phase k .counted j = .flagged ∨
      Function.update phase k .counted j = .counted) ↔ (phase j = .flagged ∨ phase j = .counted) :=
    fun j => by
      by_cases hj : j = k
      · subst hj; simp [hk]
      · rw [Function.update_of_ne hj]
  refine
    { cursors := hI.cursors.congr rfl rfl rfl rfl rfl rfl
      finish_lt := hI.finish_lt
      start_lt := hI.start_lt
      laps := fun j hj => by rw [hsame, finishSeg, hsame]; exact hI.laps j hj
      finish_le := by rw [finishSeg, hsame]; exact hI.finish_le
      read_le := by rw [finishSeg, hsame]; exact hI.read_le
      segs := fun j hj => ?_
      outside := fun j hj => by rw [hseg j (by omega)]; exact hI.outside j hj
      idle := fun j hj => by
        rw [Function.update_of_ne (by have : s.made.length ≤ j := hj; omega)]
        exact hI.idle j hj
      done_iff := fun j hj hj' => (hI.done_iff j hj hj').trans (hupd j).symm
      passed := fun j hj => (hupd j).2 (hI.passed j hj)
      handed_true := hI.handed_true
      unread := fun j hj hj' hr => by rw [hsame]; exact hI.unread j hj hj' hr
      finished := fun j hj => by rw [hsame] at hj; exact hI.finished j hj }
  show D.SegOk _ s.handed.length s.made.length s.backed j _
  by_cases hji : j = D.blocks.blk k % D.n
  · subst hji
    have hold := hI.segs _ hi
    rw [hsegi]
    refine { hold with count_eq := fun hlt => ?_ }
    show (s.seg _).count + 1 = D.countedIn _ (D.cur s _)
    rw [hold.count_eq hlt]
    show D.countedIn phase (D.cur s _) + 1 = _
    rw [hcur, countedIn, countedIn]
    -- one more entry of the segment is counted
    have hmem : k ∈ Finset.Ico (D.blocks.first (D.blocks.blk k))
        (D.blocks.first (D.blocks.blk k + 1)) :=
      Finset.mem_Ico.2 ⟨D.blocks.first_blk_le k, D.blocks.lt_first_succ_blk k⟩
    have hinsert : (Finset.Ico (D.blocks.first (D.blocks.blk k))
        (D.blocks.first (D.blocks.blk k + 1))).filter
          (fun j => Function.update phase k .counted j = .counted) =
        insert k ((Finset.Ico (D.blocks.first (D.blocks.blk k))
          (D.blocks.first (D.blocks.blk k + 1))).filter fun j => phase j = .counted) := by
      ext j
      by_cases hjk : j = k
      · subst hjk; simp [Finset.mem_Ico.1 hmem]
      · simp [hjk]
    rw [hinsert, Finset.card_insert_of_notMem (by simp [hk])]
  · rw [hseg j hji]
    have hold := hI.segs j hj
    refine { hold with count_eq := fun hlt => (hold.count_eq hlt).trans ?_ }
    -- the entry is of another segment
    rw [countedIn, countedIn]
    congr 1
    refine Finset.filter_congr fun x hx => ?_
    have hxk : x ≠ k := fun hxk => hji (by
      have := D.blocks.blk_eq_iff.2 (Finset.mem_Ico.1 hx)
      rw [← hxk, this, segNo_mod hj])
    rw [Function.update_of_ne hxk]

/-! ## Runs -/

/-- The condition on a `smart_dma_write`: the segment of the entry has not been
finished, that is, `handle_writing` has not reset its `count` for the lap of the
entry. -/
def CountInTime (D : Device α) (s : Sys α) : Event α → Prop
  | .count k _ => (s.q.seg (D.blocks.blk k % D.n)).lap ≤ k / D.slots
  | _ => True

/-- **Every event whose `smart_dma_write` comes in time keeps the invariant.** -/
theorem inv_sysStep (hex : D.Exclusive) {fuel : ℕ} {s t : Sys α} {e : Event α}
    (hI : D.Inv s.phase s.q) (hC : D.CountInTime s e) (h : D.sysStep fuel s e = some t) :
    D.Inv t.phase t.q := by
  obtain ⟨hallowed, hstep, hphase⟩ := sysStep_eq_some h
  rw [hphase]
  have hmoves := step_moves hI.cursors hstep
  cases e with
  | initiateWrite => exact inv_handMoves hex hI (hmoves.1 rfl)
  | dmaRead i data => exact inv_dmaRead hI hstep
  | dmaWrite i => exact inv_dmaWrite hI hstep
  | obtain k =>
      have hgo : s.phase k = .idle ∧ s.q.handed.length ≤ k ∧ k < s.q.made.length := by
        simpa [allowed] using hallowed
      exact inv_moves hex (inv_obtain hI hgo.1 hgo.2.1 hgo.2.2)
        (hmoves.2 (by simp [actionOf]))
  | store k v =>
      have hgo : s.phase k = .working ∧ ¬ D.doneScan v := by simpa [allowed] using hallowed
      have hput := inv_put hI hgo.1 (Or.inl ⟨rfl, hgo.2⟩)
      rw [← hgo.1, Function.update_eq_self] at hput
      rw [← Option.some.inj hstep]
      exact hput
  | finish k v =>
      have hgo : s.phase k = .working ∧ D.doneScan v := by simpa [allowed] using hallowed
      have hput := inv_put hI hgo.1 (Or.inr ⟨rfl, hgo.2⟩)
      rw [← Option.some.inj hstep]
      exact hput
  | count k now =>
      have hgo : s.phase k = .flagged := by simpa [allowed] using hallowed
      rw [← Option.some.inj hstep]
      exact inv_count hI hgo hC
  | _ => exact inv_moves hex hI (hmoves.2 (by simp [actionOf]))

/-- The invariant of a new queue. -/
theorem inv_sysCreate (buf : ℕ → ℕ → α) (now : ℕ) :
    D.Inv (D.sysCreate buf now).phase (D.sysCreate buf now).q := by
  have hcur : ∀ i, D.cur (D.create buf now) i = i := fun i => by simp [cur, segNo, create]
  have hF : D.finishSeg (D.create buf now) = 0 := hcur _
  exact
    { cursors := D.cursors_create buf now
      finish_lt := D.n_pos
      start_lt := D.n_pos
      laps := fun i hi => by
        show D.finishSeg (D.create buf now) ≤ D.cur (D.create buf now) i ∧
          D.cur (D.create buf now) i < D.finishSeg (D.create buf now) + D.n
        rw [hF, hcur]
        omega
      finish_le := by
        show D.finishSeg (D.create buf now) ≤ _
        rw [hF]
        exact Nat.zero_le _
      read_le := Nat.zero_le _
      segs := fun i hi =>
        { max_eq := (if_pos (Nat.zero_le _)).symm
          commit_le := le_rfl
          min_ge := fun hle => by
            have hi0 : i = 0 := by
              have hno : D.segNo i ((D.create buf now).seg i) = i := hcur i
              have hle' : D.blocks.first (D.segNo i ((D.create buf now).seg i)) ≤ 0 := hle
              rw [hno] at hle'
              by_contra hne
              have := D.blocks.first_strictMono (Nat.pos_of_ne_zero hne)
              omega
            subst hi0
            simp [sysCreate, create, Layout.segAddr]
          min_le := fun _ => Or.inl (by
            show (if i = 0 then D.addr else 0) ≤ D.segAddr i
            rw [Layout.segAddr]
            split_ifs <;> omega)
          count_eq := fun _ => by
            show 0 = D.countedIn (fun _ => .idle) _
            rw [countedIn, eq_comm, Finset.card_eq_zero, Finset.filter_eq_empty_iff]
            exact fun _ _ h => absurd h (by decide)
          committed := fun _ k _ h => absurd h (Nat.not_lt_zero _)
          writing := fun h => absurd h (by simp [sysCreate, create])
          reading := fun h => absurd h (by simp [sysCreate, create])
          noComp := fun _ _ => rfl }
      outside := fun _ _ => rfl
      idle := fun _ _ => rfl
      done_iff := fun k hk hk' => absurd hk' (Nat.not_lt_zero _)
      passed := fun k hk => absurd hk (Nat.not_lt_zero _)
      handed_true := fun b hb => absurd hb List.not_mem_nil
      unread := fun k _ hk _ => by
        show _ ≤ D.cur (D.create buf now) _
        have hk' : k < D.slots := by simpa [sysCreate, create] using hk
        rw [hcur, Nat.mod_eq_of_lt]
        refine D.blocks.blk_lt_iff.2 ?_
        have h0 := D.blocks.first_add_n 0
        rw [Nat.zero_add, D.blocks.first_zero, Nat.zero_add] at h0
        exact hk'.trans_eq h0.symm
      finished := fun k hk => by
        have hk' : D.blocks.blk k < D.cur (D.create buf now) (D.blocks.blk k % D.n) := hk
        rw [hcur] at hk'
        have := Nat.mod_le (D.blocks.blk k) D.n
        omega }

end Device
end Nic
end Floem
