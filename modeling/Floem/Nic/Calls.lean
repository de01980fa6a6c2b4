import Floem.Nic.Micro

/-!
# The manager's calls as sequences of moves

Each function of `Floem.Nic.Manage`, started where `Cursors` holds, is a sequence of
the moves of `Floem.Nic.Micro`.  A loop is unfolded once (`updateReadReadyLoop_succ`
and its siblings), which says which move one round is, and the rest is induction on
the fuel.

* `step_moves` — every call of the manager and every `smart_dma_read` is a sequence
  of moves, `initiate_write` of those of `write_ready`.
* `cursors_run` — the cursors along every run.
-/

namespace Floem
namespace Nic
namespace Device

open Lib Relation

variable {α : Type} {D : Device α} {s t : State α} {fuel : ℕ}

/-- A sequence of moves. -/
abbrev Moves (D : Device α) : State α → State α → Prop := ReflTransGen D.Move

/-- A sequence of moves of `write_ready`. -/
abbrev HandMoves (D : Device α) : State α → State α → Prop := ReflTransGen D.HandMove

/-- Sequences of moves keep the cursors. -/
theorem Cursors.of_moves (hc : D.Cursors s) (h : D.Moves s t) : D.Cursors t := by
  induction h with
  | refl => exact hc
  | tail _ hstep ih => exact hstep.cursors ih

theorem Cursors.of_handMoves (hc : D.Cursors s) (h : D.HandMoves s t) : D.Cursors t := by
  induction h with
  | refl => exact hc
  | tail _ hstep ih => exact hstep.cursors ih

/-! ## `update_read_ready` -/

/-- One round of the loop of `update_read_ready`. -/
theorem updateReadReadyLoop_succ (hc : D.Cursors s)
    (hready : D.readyScan (D.copy s s.made.length)) :
    D.updateReadReadyLoop (fuel + 1) s s.readReadySeg (D.offset s.made.length) =
      if D.blocks.blk (s.made.length + 1) ≠ D.readSeg s ∧
          ((D.passed s).readReadySeg = D.stopSeg (D.passed s) ∨
            (s.seg (D.passed s).readReadySeg).status = .READING)
      then some (D.passed s)
      else D.updateReadReadyLoop fuel (D.passed s) (D.passed s).readReadySeg
        (D.offset (s.made.length + 1)) := by
  rw [copy, ← readSeg, ← hc.readSeg_eq] at hready
  have hrd : s.readReady + D.overlap = D.pos s.made.length + D.overlap := by rw [hc.read_eq]
  have hfetch : s.fetched s.readReadySeg (D.offset s.made.length)
      = D.fetchOf s s.made.length := by rw [fetchOf, hc.readSeg_eq]; rfl
  rw [updateReadReadyLoop, if_pos hready]
  dsimp only
  rw [hfetch]
  rcases D.pos_succ_cases s.made.length with ⟨hend, hpos, -, hblk, hn⟩ |
    ⟨hlt, hpos, hblock, -, hblk, hn⟩ | ⟨hlt, hpos, hblock, -, hblk⟩
  · -- the wraparound to the start of the storage
    have hseg : D.blocks.blk (s.made.length + 1) % D.n = 0 := by
      rw [hblk]; exact succ_mod_of_last hn
    have hpass : D.passed s =
        { s with readReady := D.addr, readReadySeg := 0,
                 made := s.made ++ [D.fetchOf s s.made.length] } := by rw [passed, hpos, hseg]
    have hoff : D.offset (s.made.length + 1) = 0 := by
      rw [D.blocks.succ_eq_first hblk, offset_first]
    have hne : D.blocks.blk (s.made.length + 1) ≠ D.readSeg s := by rw [hblk, readSeg]; omega
    rw [if_pos (by rw [hrd]; omega), hoff, hpass]
    exact if_congr (and_iff_right hne).symm rfl rfl
  · -- the first entry of the next segment
    have hseg : D.blocks.blk (s.made.length + 1) % D.n = s.readReadySeg + 1 := by
      rw [hblk, hc.readSeg_eq]; exact succ_mod_of_lt hn
    have hpass : D.passed s =
        { s with readReady := s.readReady + D.overlap, readReadySeg := s.readReadySeg + 1,
                 made := s.made ++ [D.fetchOf s s.made.length] } := by
      rw [passed, hpos, hseg, hrd]
    have hoff : D.offset (s.made.length + 1) = 0 := by
      rw [D.blocks.succ_eq_first hblk, offset_first]
    have hne : D.blocks.blk (s.made.length + 1) ≠ D.readSeg s := by rw [hblk, readSeg]; omega
    rw [if_neg (by rw [hrd]; omega), if_pos (by rw [hrd, hblock, hc.readSeg_eq]; rfl), hoff,
      hpass]
    exact if_congr (and_iff_right hne).symm rfl rfl
  · -- the next entry of the same segment
    have hseg : D.blocks.blk (s.made.length + 1) % D.n = s.readReadySeg := by
      rw [hblk, hc.readSeg_eq]; rfl
    have hpass : D.passed s =
        { s with readReady := s.readReady + D.overlap,
                 made := s.made ++ [D.fetchOf s s.made.length] } := by
      rw [passed, hpos, hseg, hrd]
    have hoff : D.offset (s.made.length + 1) = D.offset s.made.length + D.overlap := by
      rw [offset_add D hblk, Nat.one_mul]
    rw [if_neg (by rw [hrd]; omega), if_neg (by rw [hrd, hc.readSeg_eq, readSeg]; omega),
      if_neg (fun h => h.1 hblk), hoff, hpass]

theorem updateReadReadyLoop_moves : ∀ fuel s, D.Cursors s →
    D.readSeg s + 2 ≠ D.writeSeg s + D.n → (s.seg s.readReadySeg).status ≠ .READING →
    D.updateReadReadyLoop fuel s s.readReadySeg (D.offset s.made.length) = some t →
      D.Moves s t ∧ t.seg = s.seg := by
  intro fuel
  induction fuel with
  | zero => intro s _ _ _ h; simp [updateReadReadyLoop] at h
  | succ fuel ih =>
      intro s hc hstop hst h
      by_cases hready : D.readyScan (D.copy s s.made.length)
      · have hmove : D.Move s (D.passed s) :=
          .pass hstop (by rw [← hc.readSeg_eq]; exact hst) hready
        have hc' := hmove.cursors hc
        have hlen : (D.passed s).made.length = s.made.length + 1 := by simp [passed]
        rw [updateReadReadyLoop_succ hc hready] at h
        split_ifs at h with hexit
        · cases h
          exact ⟨.single hmove, rfl⟩
        · -- the loop goes on only where the guards of the move hold again
          have hguard : D.readSeg (D.passed s) + 2 ≠ D.writeSeg (D.passed s) + D.n ∧
              ((D.passed s).seg (D.passed s).readReadySeg).status ≠ .READING := by
            by_cases hblk : D.blocks.blk (s.made.length + 1) = D.readSeg s
            · have hsame : D.readSeg (D.passed s) = D.readSeg s := by rw [readSeg, hlen, hblk]
              rw [hc'.readSeg_eq, hsame, ← hc.readSeg_eq]
              exact ⟨hstop, hst⟩
            · rw [Ne, ← hc'.stopSeg_iff]
              exact ⟨fun hs => hexit ⟨hblk, Or.inl hs⟩, fun hs => hexit ⟨hblk, Or.inr hs⟩⟩
          rw [← hlen] at h
          obtain ⟨hmoves, hseg⟩ := ih _ hc' hguard.1 hguard.2 h
          exact ⟨.head hmove hmoves, hseg⟩
      · rw [copy, ← readSeg, ← hc.readSeg_eq] at hready
        rw [updateReadReadyLoop, if_neg hready] at h
        cases h
        exact ⟨.refl, rfl⟩

theorem updateReadReady_moves (hc : D.Cursors s) (h : D.updateReadReady fuel s = some t) :
    D.Moves s t ∧ t.seg = s.seg := by
  rw [updateReadReady] at h
  split_ifs at h with hexit
  · cases h
    exact ⟨.refl, rfl⟩
  · rw [not_or, hc.stopSeg_iff] at hexit
    rw [hc.read_offset] at h
    exact updateReadReadyLoop_moves fuel s hc hexit.1 hexit.2 h

/-! ## `update_write_ready` -/

/-- The flags `update_write_ready_fast` passes are those of the remaining entries of
the segment. -/
theorem doneFlags_eq (hc : D.Cursors s) :
    D.doneFlags s s.writeReadySeg (s.writeReady - D.segAddr s.writeReadySeg) =
      (List.range (D.blocks.first (D.writeSeg s + 1) - s.handed.length)).map fun j =>
        D.doneScan (D.copy s (s.handed.length + j)) := by
  have hlow := D.blocks.first_blk_le s.handed.length
  have hhigh := D.blocks.lt_first_succ_blk s.handed.length
  have hcount : (D.segSize s.writeReadySeg - D.offset s.handed.length) / D.overlap
      = D.blocks.first (D.writeSeg s + 1) - s.handed.length := by
    rw [hc.writeSeg_eq, Layout.segSize_eq, offset, ← Nat.sub_mul,
      Nat.mul_div_cancel _ D.overlap_pos, Layout.width, writeSeg]
    omega
  rw [doneFlags, hc.write_offset, hcount]
  refine List.map_congr_left fun j hj => ?_
  have hlt := List.mem_range.1 hj
  have hblk : D.blocks.blk (s.handed.length + j) = D.blocks.blk s.handed.length := by
    rw [D.blocks.blk_eq_iff]
    rw [writeSeg] at hlt
    omega
  rw [copy, hblk, offset_add D hblk, hc.writeSeg_eq, writeSeg]

/-- Leaving a segment by the fast path or by the slow path is the move `closed`. -/
theorem closed_eq (hc : D.Cursors s) (flags : List Bool) :
    D.closed s flags =
      let i := s.writeReadySeg
      let j := if i = D.n - 1 then 0 else i + 1
      let u := (s.modify i fun g => { g with count := 0, max := D.segAddrMax i }).modify j
        fun g => { g with min := D.segAddr j }
      { u with writeReady := if i = D.n - 1 then D.addr else D.segAddrMax i,
               writeReadySeg := j, handed := s.handed ++ flags } := by
  have hlt : D.writeSeg s % D.n < D.n := Nat.mod_lt _ D.n_pos
  have hnext : (D.writeSeg s + 1) % D.n
      = if s.writeReadySeg = D.n - 1 then 0 else s.writeReadySeg + 1 := by
    rw [hc.writeSeg_eq]
    split_ifs with h
    · exact succ_mod_of_last (by omega)
    · exact succ_mod_of_lt (by omega)
  have haddr : D.segAddr (if s.writeReadySeg = D.n - 1 then 0 else s.writeReadySeg + 1)
      = if s.writeReadySeg = D.n - 1 then D.addr else D.segAddrMax s.writeReadySeg := by
    rw [hc.writeSeg_eq]
    split_ifs with h
    · simp [Layout.segAddr]
    · exact (D.segAddrMax_of_lt (by omega)).symm
  simp only [closed, hnext, haddr, ← hc.writeSeg_eq]

theorem updateWriteReadyFast_moves : ∀ fuel s n ret r, D.Cursors s →
    D.updateWriteReadyFast fuel s n ret = some r → D.HandMoves s r.1 := by
  intro fuel
  induction fuel with
  | zero => intro s n ret r _ h; simp [updateWriteReadyFast] at h
  | succ fuel ih =>
      intro s n ret r hc h
      rw [updateWriteReadyFast] at h
      by_cases hseg : s.readReadySeg ≠ s.writeReadySeg
      · by_cases hcount : (s.seg s.writeReadySeg).count
            = D.segSize s.writeReadySeg / D.overlap
        · simp only [if_pos hseg, if_pos hcount, Option.bind_eq_bind, Option.bind_eq_some_iff] at h
          obtain ⟨-, -, h⟩ := h
          have hmove : D.HandMove s (D.closed s (D.doneFlags s s.writeReadySeg
              (s.writeReady - D.segAddr s.writeReadySeg))) := by
            rw [doneFlags_eq hc]
            refine .closeFast ?_ ?_
            · have hne : D.readSeg s ≠ D.writeSeg s := fun he => hseg (hc.seg_eq_iff.2 he)
              exact lt_of_le_of_ne hc.writeSeg_le hne.symm
            · rw [← hc.writeSeg_eq, hcount, hc.writeSeg_eq, Layout.segSize_div]
          refine .head hmove (ih _ (n + 1) 3 _ (hmove.cursors hc) ?_)
          rw [closed_eq hc]
          by_cases hlast : s.writeReadySeg = D.n - 1
          · simpa only [if_pos hlast, State.modify, Function.update_self, Function.update_idem]
              using h
          · simpa only [if_neg hlast, State.modify, Function.update_self, Function.update_idem]
              using h
        · rw [if_pos hseg, if_neg hcount] at h
          cases h
          exact .refl
      · rw [if_neg hseg] at h
        cases h
        exact .refl

/-- One round of the loop of `update_write_ready` at a finished entry. -/
theorem updateWriteReadyLoop_succ (hc : D.Cursors s) {n : ℕ}
    (hdone : D.doneScan (D.copy s s.handed.length)) :
    D.updateWriteReadyLoop (fuel + 1) s n s.writeReadySeg (D.offset s.handed.length) =
      if D.blocks.blk (s.handed.length + 1) ≠ D.writeSeg s then
        (guard (n < N_WRITE) : Option Unit).bind fun _ =>
          (D.updateWriteReadyFast fuel (D.closed s [true]) (n + 1) 3).map Prod.fst
      else if (D.handedOn s).writeReady = s.readReady then some (D.handedOn s)
      else D.updateWriteReadyLoop fuel (D.handedOn s) n (D.handedOn s).writeReadySeg
        (D.offset (s.handed.length + 1)) := by
  have hdone' : D.doneScan (s.buf s.writeReadySeg (D.offset s.handed.length)) = true := by
    rw [copy, ← writeSeg, ← hc.writeSeg_eq] at hdone
    exact hdone
  have hwr : s.writeReady + D.overlap = D.pos s.handed.length + D.overlap := by rw [hc.write_eq]
  have hmax : D.segAddrMax s.writeReadySeg
      = D.segAddrMax (D.blocks.blk s.handed.length % D.n) := by rw [hc.writeSeg_eq]; rfl
  rw [updateWriteReadyLoop, if_pos hdone', hdone']
  dsimp only
  rcases D.pos_succ_cases s.handed.length with ⟨hend, hpos, hm, hblk, hn⟩ |
    ⟨hlt, hpos, -, hm, hblk, hn⟩ | ⟨hlt, hpos, -, hm, hblk⟩
  · -- the wraparound to the start of the storage
    have hlast : s.writeReadySeg = D.n - 1 := by rw [hc.writeSeg_eq, writeSeg]; omega
    rw [if_pos (show D.blocks.blk (s.handed.length + 1) ≠ D.writeSeg s by
        rw [hblk, writeSeg]; omega), closed_eq hc]
    simp only [if_pos hlast]
    rw [if_pos (by show _ ≤ s.writeReady + _; rw [hwr]; omega)]
    simp only [State.modify, Function.update_self, Function.update_idem, hwr, hm, hmax]
    simp [Option.map_eq_bind]
  · -- the first entry of the next segment
    have hlast : s.writeReadySeg ≠ D.n - 1 := by rw [hc.writeSeg_eq, writeSeg]; omega
    have hnext : D.segAddr (s.writeReadySeg + 1) = D.segAddrMax s.writeReadySeg := by
      rw [D.segAddrMax_of_lt (by rw [hc.writeSeg_eq]; exact hn)]
    rw [if_pos (show D.blocks.blk (s.handed.length + 1) ≠ D.writeSeg s by
        rw [hblk, writeSeg]; omega), closed_eq hc]
    simp only [if_neg hlast]
    rw [if_neg (by show ¬ _ ≤ s.writeReady + _; rw [hwr]; omega),
      if_pos (by show _ ≤ s.writeReady + _; rw [hwr, hmax, hm])]
    simp only [State.modify, Function.update_self, Function.update_idem, hwr, hm, ← hmax, hnext]
    simp [Option.map_eq_bind]
  · -- the next entry of the same segment
    have hoff : D.offset (s.handed.length + 1) = D.offset s.handed.length + D.overlap := by
      rw [offset_add D hblk, Nat.one_mul]
    have hpass : D.handedOn s =
        let u := s.modify s.writeReadySeg fun g => { g with max := s.writeReady + D.overlap }
        { u with writeReady := s.writeReady + D.overlap, handed := s.handed ++ [true] } := by
      simp only [handedOn, hpos, hwr, ← hc.writeSeg_eq]
    rw [if_neg (by show ¬ _ ≤ s.writeReady + _; rw [hwr]; omega),
      if_neg (by show ¬ _ ≤ s.writeReady + _; rw [hwr, hmax]; omega),
      if_neg (show ¬ D.blocks.blk (s.handed.length + 1) ≠ D.writeSeg s from not_not_intro hblk),
      hoff, hpass]
    rfl

theorem updateWriteReadyLoop_moves : ∀ fuel s n, D.Cursors s → s.writeReady ≠ s.readReady →
    D.updateWriteReadyLoop fuel s n s.writeReadySeg (D.offset s.handed.length) = some t →
      D.HandMoves s t := by
  intro fuel
  induction fuel with
  | zero => intro s n _ _ h; simp [updateWriteReadyLoop] at h
  | succ fuel ih =>
      intro s n hc hne h
      have hlt : s.handed.length < s.made.length :=
        lt_of_le_of_ne hc.handed_le fun he => hne (hc.eq_iff.2 he)
      by_cases hdone : D.doneScan (D.copy s s.handed.length)
      · rw [updateWriteReadyLoop_succ hc hdone] at h
        split_ifs at h with hend hstop
        · have hblk : D.blocks.blk (s.handed.length + 1) = D.writeSeg s + 1 := by
            rcases D.blocks.succ_cases s.handed.length with ⟨-, -, h, -⟩ | ⟨-, -, -, h, -⟩ |
              ⟨-, -, -, h⟩
            · exact h
            · exact h
            · exact absurd h hend
          have hmove : D.HandMove s (D.closed s [true]) := .closeSlow hlt hblk hdone
          simp only [Option.bind_eq_some_iff, Option.map_eq_some_iff] at h
          obtain ⟨-, -, r, hr, rfl⟩ := h
          exact .head hmove (updateWriteReadyFast_moves _ _ _ _ _ (hmove.cursors hc) hr)
        · cases h
          exact .single (.hand hlt (not_not.1 hend) hdone)
        · have hmove : D.HandMove s (D.handedOn s) := .hand hlt (not_not.1 hend) hdone
          have hlen : (D.handedOn s).handed.length = s.handed.length + 1 := by simp [handedOn]
          rw [← hlen] at h
          exact .head hmove (ih _ _ (hmove.cursors hc) hstop h)
      · have hdone' : ¬ D.doneScan (s.buf s.writeReadySeg (D.offset s.handed.length)) = true := by
          rw [copy, ← writeSeg, ← hc.writeSeg_eq] at hdone
          exact hdone
        rw [updateWriteReadyLoop, if_neg hdone'] at h
        cases h
        exact .refl

theorem updateWriteReady_moves (hc : D.Cursors s) {n : ℕ}
    (h : D.updateWriteReady fuel s n = some t) : D.HandMoves s t := by
  rw [updateWriteReady] at h
  split_ifs at h with hexit
  · cases h
    exact .refl
  · rw [hc.write_offset] at h
    exact updateWriteReadyLoop_moves fuel s n hc hexit h

theorem initiateWrite_moves (hc : D.Cursors s) (h : D.initiateWrite fuel s = some t) :
    D.HandMoves s t := by
  simp only [initiateWrite, Option.bind_eq_bind, Option.bind_eq_some_iff] at h
  obtain ⟨⟨u, n, ret⟩, hfast, h⟩ := h
  have hmoves := updateWriteReadyFast_moves _ _ _ _ _ hc hfast
  split_ifs at h
  · exact hmoves.trans (updateWriteReady_moves (hc.of_handMoves hmoves) h)
  · cases h
    exact hmoves

/-! ## Transfers -/

theorem handleWriting_moves : ∀ fuel s, D.Cursors s →
    D.handleWriting fuel s s.writeFinishSeg = some t → D.Moves s t := by
  intro fuel
  induction fuel with
  | zero => intro s _ h; simp [handleWriting] at h
  | succ fuel ih =>
      intro s hc h
      rw [handleWriting] at h
      by_cases hcomp : (s.seg s.writeFinishSeg).status = .WRITING ∧
          (s.seg s.writeFinishSeg).comp.complete
      · simp only [if_pos hcomp, State.modify_seg_self] at h
        by_cases hall : D.segAddrMax s.writeFinishSeg ≤ (s.seg s.writeFinishSeg).commitMax
        · have hmove : D.Move s (D.retired s s.writeFinishSeg) :=
            .retire _ rfl hcomp.1 hcomp.2 hall
          refine .head hmove (ih _ (hmove.cursors hc) ?_)
          rw [if_pos hall] at h
          by_cases hw : s.writeReadySeg = s.writeFinishSeg
          · simpa only [retired, State.modify, Function.update_self, Function.update_idem, if_pos hw]
              using h
          · simpa only [retired, State.modify, Function.update_self, Function.update_idem, if_neg hw]
              using h
        · have hmove : D.Move s (partDone s s.writeFinishSeg) :=
            .part _ rfl hcomp.1 hcomp.2 (not_le.1 hall)
          rw [if_neg hall, State.modify_modify] at h
          cases h
          exact .single hmove
      · rw [if_neg hcomp] at h
        cases h
        exact .refl

theorem handleReading_moves : ∀ fuel s, D.Cursors s →
    D.handleReading fuel s s.readReadySeg = some t → D.Moves s t := by
  intro fuel
  induction fuel with
  | zero => intro s _ h; simp [handleReading] at h
  | succ fuel ih =>
      intro s hc h
      rw [handleReading] at h
      by_cases hcomp : (s.seg s.readReadySeg).status = .READING ∧
          (s.seg s.readReadySeg).comp.complete
      · have htake : D.Move s (readTaken s s.readReadySeg) := .takeRead _ rfl hcomp.1 hcomp.2
        have hc₁ := htake.cursors hc
        simp only [if_pos hcomp, Option.bind_eq_bind, Option.bind_eq_some_iff] at h
        obtain ⟨u, hu, h⟩ := h
        obtain ⟨hmoves, hseg⟩ := updateReadReady_moves hc₁ hu
        have hrel : (u.seg s.readReadySeg).status = .RELEASE := by
          rw [hseg, readTaken, State.modify_seg_self]
        have hc₂ := hc₁.of_moves hmoves
        split_ifs at h with hleft
        · have hset : D.Move u (setStatus u s.readReadySeg .VALID) :=
            .settle _ _ (Or.inl hrel) (Or.inl rfl)
          exact .head htake (hmoves.trans (.head hset (ih _ (hset.cursors hc₂) h)))
        · have hset : D.Move u (setStatus u s.readReadySeg .INVALID) :=
            .settle _ _ (Or.inl hrel) (Or.inr rfl)
          cases h
          exact .head htake (hmoves.trans (.single hset))
      · rw [if_neg hcomp] at h
        cases h
        exact .refl

theorem prefetchSegment_moves (hc : D.Cursors s) {i : ℕ}
    (hi : i = s.readReadySeg ∨ i = (s.readReadySeg + 1) % D.n) :
    D.Moves s (D.prefetchSegment s i) := by
  rw [prefetchSegment]
  split_ifs with h
  · refine .single (.startRead i hi h.1 h.2.1 fun heq => h.2.2 (hc.noRead_iff.2 heq))
  · exact .refl

theorem exeWrite_moves : ∀ fuel s, D.Cursors s →
    D.exeWrite fuel s s.writeStartSeg = some t → D.Moves s t := by
  intro fuel
  induction fuel with
  | zero => intro s _ h; simp [exeWrite] at h
  | succ fuel ih =>
      intro s hc h
      rw [exeWrite] at h
      by_cases hgo : (s.seg s.writeStartSeg).commitMax < (s.seg s.writeStartSeg).max ∧
          ((s.seg s.writeStartSeg).status = .VALID ∨ (s.seg s.writeStartSeg).status = .INVALID)
      · rw [if_pos hgo] at h
        by_cases hmin : (s.seg s.writeStartSeg).min < (s.seg s.writeStartSeg).max
        · have hmove : D.Move s (D.doWrite s s.writeStartSeg) :=
            .startWrite _ rfl hmin hgo.1 hgo.2
          dsimp only at h
          split_ifs at h
          · exact .head hmove (ih _ (hmove.cursors hc) h)
          · cases h
            exact .single hmove
        · -- nothing to write: `do_write` does nothing, and the recursion ends
          have hsame : D.doWrite s s.writeStartSeg = s := by
            rw [doWrite]
            exact if_neg fun hw => hmin hw.1
          rw [hsame] at h
          dsimp only at h
          rw [if_neg (fun hne => hne rfl)] at h
          cases h
          exact .refl
      · rw [if_neg hgo] at h
        cases h
        exact .refl

theorem smartDmaRead_moves (a : ℕ) : D.Moves s (D.smartDmaRead s a).1 := by
  have hnote : D.Move s { s with lastRead := a } := .note a s.lastWrite s.writeGap
  rw [smartDmaRead]
  split_ifs
  · exact .single hnote
  · by_cases hst : (s.seg (D.findSegment a)).status = .VALID
    · refine .head hnote (.single ?_)
      have hset : D.Move { s with lastRead := a }
          (setStatus { s with lastRead := a } (D.findSegment a) .INVALID) :=
        .settle _ _ (Or.inr hst) (Or.inr rfl)
      simpa only [setStatus, State.modify, if_pos hst] using hset
    · have hsame : ({ s with lastRead := a } : State α).modify (D.findSegment a)
          (fun g => if g.status = .VALID then { g with status := .INVALID } else g)
            = { s with lastRead := a } := by
        simp [State.modify, hst]
      rw [hsame]
      exact .single hnote

/-! ## Every step -/

/-- **Every call is a sequence of moves**: those of `write_ready` for
`initiate_write`, the others for the rest of the manager and `smart_dma_read`. -/
theorem step_moves (hc : D.Cursors s) {a : Action α} (h : D.step fuel s a = some t) :
    (a = .initiateWrite → D.HandMoves s t) ∧
    (a = .handleWriting ∨ a = .handleReading ∨ (∃ next, a = .prefetch next) ∨ a = .exeWrite ∨
      (∃ x, a = .smartDmaRead x) → D.Moves s t) := by
  refine ⟨fun ha => ?_, fun ha => ?_⟩
  · subst ha
    exact initiateWrite_moves hc h
  · rcases ha with rfl | rfl | ⟨next, rfl⟩ | rfl | ⟨x, rfl⟩
    · exact handleWriting_moves _ _ hc h
    · exact handleReading_moves _ _ hc h
    · cases h
      cases next
      · exact prefetchSegment_moves hc (Or.inl rfl)
      · exact prefetchSegment_moves hc (Or.inr rfl)
    · exact exeWrite_moves _ _ hc h
    · cases h
      exact smartDmaRead_moves x

/-- The completion of a DMA read changes the local copies and the completion word. -/
theorem dmaRead_eq_some {i : ℕ} {data : ℕ → α} (h : dmaRead s i data = some t) :
    ∃ off size backed, (s.seg i).comp = .read off size backed false ∧
      t = { s.modify i (fun g => { g with comp := .read off size backed true }) with
        buf := Function.update s.buf i fun o =>
          if off ≤ o ∧ o < off + size then data o else s.buf i o,
        fetched := Function.update s.fetched i fun o =>
          if off ≤ o ∧ o < off + size then some ⟨data o, backed⟩ else s.fetched i o } := by
  rw [dmaRead] at h
  split at h
  · next off size backed hcomp => exact ⟨off, size, backed, hcomp, (Option.some.inj h).symm⟩
  · cases h

/-- The completion of a DMA write is recorded for the entries it covers. -/
theorem dmaWrite_eq_some {i : ℕ} (h : D.dmaWrite s i = some t) :
    ∃ lo hi, (s.seg i).comp = .write lo hi false ∧
      t = { s.modify i (fun g => { g with comp := .write lo hi true }) with
        backed := fun k => s.backed k ||
          decide (k / D.slots = (s.seg i).lap ∧ lo ≤ D.pos k ∧ D.pos k < hi) } := by
  rw [dmaWrite] at h
  split at h
  · next lo hi hcomp => exact ⟨lo, hi, hcomp, (Option.some.inj h).symm⟩
  · cases h

/-- **Every step keeps the cursors.** -/
theorem cursors_step (s : State α) (a : Action α) (t : State α) (hc : D.Cursors s)
    (h : D.step fuel s a = some t) : D.Cursors t := by
  have hmoves := step_moves hc h
  cases a with
  | initiateWrite => exact hc.of_handMoves (hmoves.1 rfl)
  | dmaRead i data =>
      obtain ⟨_, _, _, -, rfl⟩ := dmaRead_eq_some h
      exact hc.congr rfl rfl rfl rfl rfl rfl
  | dmaWrite i =>
      obtain ⟨_, _, -, rfl⟩ := dmaWrite_eq_some h
      exact hc.congr rfl rfl rfl rfl rfl rfl
  | smartDmaWrite a now => cases h; exact hc.congr rfl rfl rfl rfl rfl rfl
  | store i off v => cases h; exact hc.congr rfl rfl rfl rfl rfl rfl
  | _ => exact hc.of_moves (hmoves.2 (by simp))

/-- **The cursors along every run.** -/
theorem cursors_run {buf : ℕ → ℕ → α} {now : ℕ} {as : List (Action α)}
    (h : run (D.step fuel) (D.create buf now) as = some s) : D.Cursors s :=
  run_invariant cursors_step (D.cursors_create buf now) h

end Device
end Nic
end Floem
