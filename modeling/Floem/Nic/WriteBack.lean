import Mathlib
import Floem.Nic.Transfers

/-!
# Every entry is handed back once

`write_ready` passes finished entries only, and the write-backs of one lap cover each
byte of a segment once.  Two orders of events break this, and each gets its own
condition:

* a `smart_dma_write` that comes after `handle_writing` finished the lap of its
  segment leaves a stale `count` for the next lap (`CountInTime`);
* an `initiate_write` that moves `write_ready` into a segment of which only a part
  has been written back sets `min` back to the start of the segment (`Reenters`).

`handed_back_once` is the property for all runs that avoid both, and
`handed_back_twice` a run for each of them in which it fails.
-/

namespace Floem
namespace Nic
namespace Device

open Lib

variable {α : Type} {D : Device α} {phase : ℕ → Phase} {s t : State α}

/-! ## Coverage -/

/-- How many of the write-backs started in lap `lap` of their segment cover the byte
at address `a`. -/
def covers (s : State α) (lap a : ℕ) : ℕ :=
  s.writes.countP fun w => w.1 = lap ∧ w.2.1 ≤ a ∧ a < w.2.2

variable (D) in
/-- `write_ready` can move up to the segment of `read_ready`, of which an earlier part
is written back and the rest is not. -/
def Reenters (s : State α) : Prop :=
  s.readReadySeg ≠ s.writeReadySeg ∧ 0 < (s.seg s.readReadySeg).commitMax ∧
    (s.seg s.readReadySeg).status ≠ .WRITING ∧
    ∀ k, s.handed.length ≤ k → k < s.made.length → D.doneScan (D.copy s k)

variable (D) in
/-- Up to `commit_max`, the lap of a segment is covered once, and `min` is where the
next write-back has to begin. -/
structure Once (s : State α) : Prop where
  covers_eq : ∀ i < D.n, ∀ lap a, D.segAddr i ≤ a → a < D.segAddrMax i → covers s lap a =
    if lap < (s.seg i).lap ∨ lap = (s.seg i).lap ∧ a < (s.seg i).commitMax then 1 else 0
  min_eq : ∀ i < D.n, (s.seg i).status ≠ .WRITING → D.blocks.first (D.cur s i) ≤ s.handed.length →
    (s.seg i).min = if (s.seg i).commitMax = 0 then D.segAddr i else (s.seg i).commitMax

/-- Different segments do not meet. -/
theorem segment_unique {i j a : ℕ} (hi : D.segAddr i ≤ a) (hi' : a < D.segAddrMax i)
    (hj : D.segAddr j ≤ a) (hj' : a < D.segAddrMax j) : i = j := by
  have hsize : ∀ m, D.segAddrMax m ≤ D.addr + (m + 1) * D.blockSize := fun m => by
    rw [Layout.segAddrMax, Layout.segAddr, Layout.segSize, Nat.add_mul, Nat.one_mul]
    split_ifs <;> omega
  have hbelow : ∀ m l, D.segAddr m ≤ a → a < D.segAddrMax l → m ≤ l := fun m l hm hl => by
    have hlt := hl.trans_le (hsize l)
    rw [Layout.segAddr] at hm
    have hmul : m * D.blockSize < (l + 1) * D.blockSize := by omega
    exact Nat.lt_succ_iff.1 (Nat.lt_of_mul_lt_mul_right hmul)
  exact le_antisymm (hbelow _ _ hi hj') (hbelow _ _ hj hi')

/-- A step that starts no write, moves no cursor `write_ready` and leaves the fields of
`Once` alone keeps it. -/
theorem Once.congr (hO : D.Once s) (hwrites : t.writes = s.writes) (hhanded : t.handed = s.handed)
    (hseg : ∀ i, (t.seg i).lap = (s.seg i).lap ∧ (t.seg i).commitMax = (s.seg i).commitMax ∧
      (t.seg i).min = (s.seg i).min ∧
      ((t.seg i).status ≠ .WRITING → (s.seg i).status ≠ .WRITING)) : D.Once t where
  covers_eq i hi lap a ha ha' := by
    obtain ⟨hlap, hcommit, -, -⟩ := hseg i
    rw [covers, hwrites, hlap, hcommit]
    exact hO.covers_eq i hi lap a ha ha'
  min_eq i hi hst hle := by
    obtain ⟨hlap, hcommit, hmin, hst'⟩ := hseg i
    rw [cur_congr hlap, hhanded] at hle
    rw [hmin, hcommit]
    exact hO.min_eq i hi (hst' hst) hle

/-- `Once.congr` for a step that changes one segment. -/
theorem Once.congr_seg (hO : D.Once s) {i : ℕ} {f : Segment → Segment}
    (hwrites : t.writes = s.writes) (hhanded : t.handed = s.handed)
    (hseg : t.seg = (s.modify i f).seg)
    (hf : (f (s.seg i)).lap = (s.seg i).lap ∧ (f (s.seg i)).commitMax = (s.seg i).commitMax ∧
      (f (s.seg i)).min = (s.seg i).min ∧
      ((f (s.seg i)).status ≠ .WRITING → (s.seg i).status ≠ .WRITING)) : D.Once t := by
  refine hO.congr hwrites hhanded fun j => ?_
  rw [hseg]
  by_cases hj : j = i
  · subst hj
    rw [State.modify_seg_self]
    exact hf
  · rw [State.modify_seg_of_ne _ _ _ hj]
    exact ⟨rfl, rfl, rfl, id⟩

/-! ## Transfers -/

/-- A write-back is started: from where the last one ended. -/
theorem once_startWrite (hI : D.Inv phase s) (hO : D.Once s) {i : ℕ} (hi : i = s.writeStartSeg)
    (hmin : (s.seg i).min < (s.seg i).max)
    (hst : (s.seg i).status = .VALID ∨ (s.seg i).status = .INVALID) : D.Once (D.doWrite s i) := by
  have hlt : i < D.n := hi ▸ hI.start_lt
  have hold := hI.segs i hlt
  have hne : (s.seg i).status ≠ .WRITING := by rcases hst with h | h <;> rw [h] <;> decide
  have hentered : D.blocks.first (D.cur s i) ≤ s.handed.length := by
    by_contra h
    have := (hold.max_eq_zero_iff hlt).2 (not_le.1 h).le
    omega
  have hmineq := hO.min_eq i hlt hne hentered
  have hlow := hold.min_ge hentered
  have hhigh := hold.max_le hlt
  have hcommit := hold.commit_le
  obtain ⟨hsegi, hsego, hwrites, -⟩ := doWrite_seg (D := D) hmin hst
  obtain ⟨-, hhanded, -⟩ := doWrite_frame (D := D) s i
  have hcovers : ∀ lap a, covers (D.doWrite s i) lap a = covers s lap a +
      if (s.seg i).lap = lap ∧ (s.seg i).min ≤ a ∧ a < (s.seg i).max then 1 else 0 :=
    fun lap a => by
      rw [covers, hwrites, List.countP_append, List.countP_singleton]
      simp only [covers, decide_eq_true_eq]
  constructor
  · intro j hj lap a ha ha'
    rw [hcovers, hO.covers_eq j hj lap a ha ha']
    by_cases hji : j = i
    · subst hji
      rw [hsegi]
      dsimp only
      split_ifs at hmineq <;> split_ifs <;> omega
    · rw [hsego j hji, if_neg (fun h : (s.seg i).lap = lap ∧ _ ∧ _ => hji
        (segment_unique ha ha' (hlow.trans h.2.1) (h.2.2.trans_le hhigh))), Nat.add_zero]
  · intro j hj hst' hle
    by_cases hji : j = i
    · subst hji
      rw [hsegi] at hst'
      exact absurd rfl hst'
    · have hcur : D.cur (D.doWrite s i) j = D.cur s j := cur_congr (by rw [hsego j hji])
      rw [hcur, hhanded] at hle
      rw [hsego j hji] at hst' ⊢
      exact hO.min_eq j hj hst' hle

/-- A part of a segment is written back: the next write-back begins where it ended. -/
theorem once_part (hI : D.Inv phase s) (hO : D.Once s) {i : ℕ} (hi : i = s.writeFinishSeg)
    (hst : (s.seg i).status = .WRITING) : D.Once (partDone s i) := by
  have hlt : i < D.n := hi ▸ hI.finish_lt
  obtain ⟨lo, -, -, -, hcommit, -⟩ := (hI.segs i hlt).writing hst
  have hseg : ∀ j, ((partDone s i).seg j).lap = (s.seg j).lap ∧
      ((partDone s i).seg j).commitMax = (s.seg j).commitMax := fun j => by
    by_cases hji : j = i
    · subst hji; simp [partDone]
    · simp [partDone, State.modify_seg_of_ne _ _ _ hji]
  constructor
  · intro j hj lap a ha ha'
    rw [(hseg j).1, (hseg j).2]
    exact hO.covers_eq j hj lap a ha ha'
  · intro j hj hst' hle
    rw [cur_congr (hseg j).1] at hle
    by_cases hji : j = i
    · subst hji
      simp only [partDone, State.modify_seg_self]
      rw [if_neg (by omega)]
    · simp only [partDone, State.modify_seg_of_ne _ _ _ hji] at hst' ⊢
      exact hO.min_eq j hj hst' hle

/-- A segment that was written back to its end begins its next lap: everything is
covered, and nothing of the new lap. -/
theorem once_retire (hI : D.Inv phase s) (hO : D.Once s) {i : ℕ} (hi : i = s.writeFinishSeg)
    (hall : D.segAddrMax i ≤ (s.seg i).commitMax) : D.Once (D.retired s i) := by
  have hlt : i < D.n := hi ▸ hI.finish_lt
  have hF : D.finishSeg s = D.cur s i := by rw [hi]; rfl
  have hsegi : (D.retired s i).seg i = { s.seg i with
      status := .INVALID, count := 0, min := if s.writeReadySeg = i then s.writeReady else 0,
      max := 0, commitMax := 0, comp := .reset, lap := (s.seg i).lap + 1 } := by
    simp only [retired, State.modify_seg_self]
  have hsego : ∀ j, j ≠ i → (D.retired s i).seg j = s.seg j := fun j hj => by
    simp only [retired, State.modify_seg_of_ne _ _ _ hj]
  constructor
  · intro j hj lap a ha ha'
    have hcov : covers (D.retired s i) lap a = covers s lap a := rfl
    rw [hcov, hO.covers_eq j hj lap a ha ha']
    by_cases hji : j = i
    · subst hji
      rw [hsegi]
      dsimp only
      split_ifs <;> omega
    · rw [hsego j hji]
  · intro j hj hst hle
    by_cases hji : j = i
    · subst hji
      have hcur : D.cur (D.retired s j) j = D.finishSeg s + D.n := by
        rw [cur, hsegi, hF, cur, segNo, segNo]
        ring
      rw [hcur] at hle
      -- `write_ready` has come round to the segment and is at its beginning
      have heq : s.handed.length = D.blocks.first (D.finishSeg s + D.n) :=
        le_antisymm (hI.cursors.handed_le.trans hI.read_le) hle
      have hmod : (D.finishSeg s + D.n) % D.n = j := by
        rw [Nat.add_mod_right, hI.finishSeg_mod, hi]
      have hseg : s.writeReadySeg = j := by
        rw [hI.cursors.writeSeg_eq, writeSeg, heq, Blocks.blk_first, hmod]
      rw [hsegi]
      dsimp only
      rw [if_pos hseg, if_pos rfl, hI.cursors.write_eq, heq, Layout.pos_first, hmod]
    · have hcur : D.cur (D.retired s i) j = D.cur s j := cur_congr (by rw [hsego j hji])
      rw [hcur] at hle
      rw [hsego j hji] at hst ⊢
      exact hO.min_eq j hj hst hle

/-- **The moves of the manager cover nothing twice.** -/
theorem once_move (hI : D.Inv phase s) (hO : D.Once s) (h : D.Move s t) : D.Once t := by
  cases h with
  | pass hstop hst hready => exact hO.congr rfl rfl fun _ => ⟨rfl, rfl, rfl, id⟩
  | retire i hi hst hfin hall => exact once_retire hI hO hi hall
  | part i hi hst hfin hpart => exact once_part hI hO hi hst
  | startRead i hi hst hmax hroom =>
      exact hO.congr_seg rfl rfl rfl ⟨rfl, rfl, rfl, fun _ => by rw [hst]; decide⟩
  | takeRead i hi hst hfin =>
      exact hO.congr_seg rfl rfl rfl ⟨rfl, rfl, rfl, fun _ => by rw [hst]; decide⟩
  | settle i st hst hnew =>
      exact hO.congr_seg rfl rfl rfl ⟨rfl, rfl, rfl, fun _ => by
        rcases hst with h | h <;> rw [h] <;> decide⟩
  | startWrite i hi hmin hmax hst => exact once_startWrite hI hO hi hmin hst
  | note a b c => exact hO.congr rfl rfl fun _ => ⟨rfl, rfl, rfl, id⟩

theorem once_moves (hex : D.Exclusive) (hI : D.Inv phase s) (hO : D.Once s) (h : D.Moves s t) :
    D.Once t := by
  induction h with
  | refl => exact hO
  | tail hfirst hstep ih => exact once_move (inv_moves hex hI hfirst) ih hstep

/-! ## Moving `write_ready` -/

/-- What moving `write_ready` leaves alone. -/
theorem HandMove.frame (h : D.HandMove s t) :
    t.made = s.made ∧ t.buf = s.buf ∧ t.readReadySeg = s.readReadySeg ∧ t.writes = s.writes ∧
    ∀ i, (t.seg i).lap = (s.seg i).lap ∧ (t.seg i).commitMax = (s.seg i).commitMax ∧
      (t.seg i).status = (s.seg i).status := by
  have hclosed : ∀ flags i, ((D.closed s flags).seg i).lap = (s.seg i).lap ∧
      ((D.closed s flags).seg i).commitMax = (s.seg i).commitMax ∧
      ((D.closed s flags).seg i).status = (s.seg i).status := fun flags i => by
    simp only [closed, State.modify]
    by_cases h2 : i = (D.writeSeg s + 1) % D.n
    · rw [h2, Function.update_self]
      by_cases h1 : (D.writeSeg s + 1) % D.n = D.writeSeg s % D.n
      · rw [h1, Function.update_self]; exact ⟨rfl, rfl, rfl⟩
      · rw [Function.update_of_ne h1]; exact ⟨rfl, rfl, rfl⟩
    · rw [Function.update_of_ne h2]
      by_cases h1 : i = D.writeSeg s % D.n
      · rw [h1, Function.update_self]; exact ⟨rfl, rfl, rfl⟩
      · rw [Function.update_of_ne h1]; exact ⟨rfl, rfl, rfl⟩
  cases h with
  | hand hlt hin hdone =>
      refine ⟨rfl, rfl, rfl, rfl, fun i => ?_⟩
      by_cases hi : i = D.writeSeg s % D.n
      · subst hi; simp [handedOn]
      · simp [handedOn, State.modify_seg_of_ne _ _ _ hi]
  | closeSlow hlt hend hdone => exact ⟨rfl, rfl, rfl, rfl, hclosed _⟩
  | closeFast hlt hcount => exact ⟨rfl, rfl, rfl, rfl, hclosed _⟩

/-- `write_ready` passes finished entries. -/
theorem HandMove.done (hex : D.Exclusive) (hI : D.Inv phase s) (h : D.HandMove s t) {k : ℕ}
    (hk : s.handed.length ≤ k) (hk' : k < t.handed.length) : D.doneScan (D.copy s k) := by
  have htrue := (inv_handMove hex hI h).handed_true
  cases h with
  | hand hlt hin hdone =>
      obtain rfl : k = s.handed.length := by simp [handedOn] at hk'; omega
      exact hdone
  | closeSlow hlt hend hdone =>
      obtain rfl : k = s.handed.length := by simp [closed] at hk'; omega
      exact hdone
  | closeFast hlt hcount =>
      simp only [closed, List.length_append, List.length_map, List.length_range] at hk'
      refine htrue _ (List.mem_append_right _ (List.mem_map.2
        ⟨k - s.handed.length, List.mem_range.2 (by omega), ?_⟩))
      rw [Nat.add_sub_cancel' hk]

theorem HandMove.handed_mono (h : D.HandMove s t) : s.handed.length ≤ t.handed.length := by
  cases h <;> simp [handedOn, closed]

/-- A segment is not entered again while moving `write_ready`, unless it could be at the
start. -/
theorem HandMove.not_reenters (hex : D.Exclusive) (hI : D.Inv phase s) (h : D.HandMove s t)
    (hR : ¬ D.Reenters s) : ¬ D.Reenters t := by
  obtain ⟨hmade, hbuf, hseg, -, hsegs⟩ := h.frame
  have hc' := h.cursors hI.cursors
  have hmono := h.handed_mono
  rintro ⟨h1, h2, h3, h4⟩
  rw [hseg, (hsegs _).2.1] at h2
  rw [hseg, (hsegs _).2.2] at h3
  refine hR ⟨fun heq => h1 ?_, h2, h3, fun k hk hk' => ?_⟩
  · -- where there is no segment to enter, there is none afterwards
    have hsame := hI.cursors.seg_eq_iff.1 heq
    have hle := hc'.writeSeg_le
    have hge : D.writeSeg s ≤ D.writeSeg t := D.blocks.blk_mono hmono
    have hread : D.readSeg t = D.readSeg s := by rw [readSeg, hmade, readSeg]
    exact hc'.seg_eq_iff.2 (by omega)
  · rcases Nat.lt_or_ge k t.handed.length with hlt | hge
    · exact h.done hex hI hk hlt
    · have := h4 k hge (by rw [hmade]; exact hk')
      rwa [copy, hbuf] at this

/-- Leaving a segment for one that can be entered. -/
theorem once_closed (hI : D.Inv phase s) (hO : D.Once s) (hR : ¬ D.Reenters s) {flags : List Bool}
    (hlen : (D.closed s flags).handed.length = D.blocks.first (D.writeSeg s + 1))
    (hle : D.blocks.first (D.writeSeg s + 1) ≤ s.made.length)
    (hdone : ∀ k, s.handed.length ≤ k → k < D.blocks.first (D.writeSeg s + 1) →
      D.doneScan (D.copy s k))
    (hsegs : ∀ i, ((D.closed s flags).seg i).lap = (s.seg i).lap ∧
      ((D.closed s flags).seg i).commitMax = (s.seg i).commitMax ∧
      ((D.closed s flags).seg i).status = (s.seg i).status) : D.Once (D.closed s flags) := by
  have hn := D.four_le_n
  have hhigh : s.handed.length < D.blocks.first (D.writeSeg s + 1) :=
    D.blocks.lt_first_succ_blk _
  constructor
  · intro i hi lap a ha ha'
    rw [(hsegs i).1, (hsegs i).2.1]
    exact hO.covers_eq i hi lap a ha ha'
  · intro i hi hst hentered
    rw [cur_congr (hsegs i).1, hlen] at hentered
    rw [(hsegs i).2.2] at hst
    rw [(hsegs i).2.1]
    have hmodi : D.cur s i % D.n = i := segNo_mod hi _
    by_cases h2 : i = (D.writeSeg s + 1) % D.n
    · -- the segment that is entered has nothing committed
      have hmin : ((D.closed s flags).seg i).min = D.segAddr i := by
        rw [h2]
        simp only [closed, State.modify_seg_self]
      have hzero : (s.seg i).commitMax = 0 := by
        by_contra hne
        have hmax : (s.seg i).max ≠ 0 := by have := (hI.segs i hi).commit_le; omega
        have hpast : D.blocks.first (D.cur s i) < s.handed.length :=
          not_le.1 fun h => hmax (((hI.segs i hi).max_eq_zero_iff hi).2 h)
        -- so it is a lap behind, next to be finished, and the segment of `read_ready`
        have hcur : D.cur s i < D.writeSeg s + 1 :=
          D.blocks.first_strictMono.lt_iff_lt.1 (hpast.trans hhigh)
        have hlap : D.cur s i + D.n ≤ D.writeSeg s + 1 := by
          by_contra hlt
          exact mod_ne_of_window hcur (not_le.1 hlt) (by rw [hmodi, h2])
        have hF := (hI.laps i hi).1
        have hread : D.writeSeg s + 1 ≤ D.finishSeg s + D.n :=
          D.blocks.first_strictMono.le_iff_le.1 (hle.trans hI.read_le)
        have hmade : s.made.length = D.blocks.first (D.writeSeg s + 1) := by
          refine le_antisymm (hI.read_le.trans (D.blocks.first_le_first ?_)) hle
          omega
        have hreadSeg : D.readSeg s = D.writeSeg s + 1 := by
          rw [readSeg, hmade, Blocks.blk_first]
        have hseg : s.readReadySeg = i := by rw [hI.cursors.readSeg_eq, hreadSeg, h2]
        refine hR ⟨fun heq => ?_, by rw [hseg]; omega, by rw [hseg]; exact hst, fun k hk hk' => ?_⟩
        · have := hI.cursors.seg_eq_iff.1 heq
          omega
        · exact hdone k hk (by rwa [hmade] at hk')
      rw [hmin, if_pos hzero]
    · have hmin : ((D.closed s flags).seg i).min = (s.seg i).min := by
        simp only [closed, State.modify_seg_of_ne _ _ _ h2]
        by_cases h1 : i = D.writeSeg s % D.n
        · subst h1; simp
        · rw [State.modify_seg_of_ne _ _ _ h1]
      rw [hmin]
      refine hO.min_eq i hi hst ?_
      -- the entry `write_ready` gets to is in the segment that is entered
      have hne : D.cur s i ≠ D.writeSeg s + 1 := fun he => h2 (by rw [← he, hmodi])
      have hlt := D.blocks.first_strictMono.le_iff_le.1 hentered
      exact D.blocks.le_blk_iff.1 (show D.cur s i ≤ D.writeSeg s by omega)

/-- **Moving `write_ready` sets no `min` back**, if no segment is entered that is written
back in part. -/
theorem once_handMove (hex : D.Exclusive) (hI : D.Inv phase s) (hO : D.Once s)
    (hR : ¬ D.Reenters s) (h : D.HandMove s t) : D.Once t := by
  obtain ⟨-, -, -, -, hsegs⟩ := h.frame
  have hdone := fun k hk hk' => h.done hex hI (k := k) hk hk'
  cases h with
  | hand hlt hin _ =>
      have hlen : (D.handedOn s).handed.length = s.handed.length + 1 := by simp [handedOn]
      constructor
      · intro i hi lap a ha ha'
        rw [(hsegs i).1, (hsegs i).2.1]
        exact hO.covers_eq i hi lap a ha ha'
      · intro i hi hst hle
        rw [cur_congr (hsegs i).1, hlen] at hle
        rw [(hsegs i).2.2] at hst
        rw [(hsegs i).2.1]
        have hmin : ((D.handedOn s).seg i).min = (s.seg i).min := by
          by_cases h1 : i = D.writeSeg s % D.n
          · subst h1; simp [handedOn]
          · simp [handedOn, State.modify_seg_of_ne _ _ _ h1]
        rw [hmin]
        refine hO.min_eq i hi hst (D.blocks.le_blk_iff.1 ?_)
        show _ ≤ D.writeSeg s
        rw [← hin]
        exact D.blocks.le_blk_iff.2 hle
  | closeSlow hlt hend _ =>
      have hfirst := D.blocks.succ_eq_first hend
      rw [← writeSeg] at hfirst
      have hlen : (D.closed s [true]).handed.length = D.blocks.first (D.writeSeg s + 1) := by
        rw [← hfirst]
        simp [closed]
      rw [hlen] at hdone
      exact once_closed hI hO hR hlen (hfirst.symm.trans_le hlt) hdone hsegs
  | closeFast hlt hcount =>
      have hhigh : s.handed.length < D.blocks.first (D.writeSeg s + 1) :=
        D.blocks.lt_first_succ_blk _
      have hlen : (D.closed s ((List.range (D.blocks.first (D.writeSeg s + 1) - s.handed.length)).map
          fun j => D.doneScan (D.copy s (s.handed.length + j)))).handed.length =
            D.blocks.first (D.writeSeg s + 1) := by
        simp only [closed, List.length_append, List.length_map, List.length_range]
        omega
      rw [hlen] at hdone
      exact once_closed hI hO hR hlen (D.blocks.le_blk_iff.1 hlt) hdone hsegs

theorem once_handMoves (hex : D.Exclusive) (hI : D.Inv phase s) (hO : D.Once s)
    (hR : ¬ D.Reenters s) (h : D.HandMoves s t) : D.Once t ∧ ¬ D.Reenters t := by
  induction h with
  | refl => exact ⟨hO, hR⟩
  | tail hfirst hstep ih =>
      have hI' := inv_handMoves hex hI hfirst
      exact ⟨once_handMove hex hI' ih.1 ih.2 hstep, hstep.not_reenters hex hI' ih.2⟩

/-! ## Runs -/

/-- The condition on an event: a `smart_dma_write` comes before its segment is finished,
and an `initiate_write` not where a segment could be entered that is written back in
part. -/
def InTime (D : Device α) (s : Sys α) (e : Event α) : Prop :=
  D.CountInTime s e ∧ (e = .initiateWrite → ¬ D.Reenters s.q)

/-- Every event that comes in time covers nothing twice. -/
theorem once_sysStep (hex : D.Exclusive) {fuel : ℕ} {s t : Sys α} {e : Event α}
    (hI : D.Inv s.phase s.q) (hO : D.Once s.q) (hC : D.InTime s e)
    (h : D.sysStep fuel s e = some t) : D.Once t.q := by
  obtain ⟨-, hstep, -⟩ := sysStep_eq_some h
  have hmoves := step_moves hI.cursors hstep
  cases e with
  | initiateWrite => exact (once_handMoves hex hI hO (hC.2 rfl) (hmoves.1 rfl)).1
  | dmaRead i data =>
      obtain ⟨off, size, backed, -, ht⟩ := dmaRead_eq_some hstep
      rw [ht]
      exact hO.congr_seg (i := i) (f := fun g => { g with comp := .read off size backed true })
        rfl rfl rfl ⟨rfl, rfl, rfl, id⟩
  | dmaWrite i =>
      obtain ⟨lo, hi, -, ht⟩ := dmaWrite_eq_some hstep
      rw [ht]
      exact hO.congr_seg (i := i) (f := fun g => { g with comp := .write lo hi true })
        rfl rfl rfl ⟨rfl, rfl, rfl, id⟩
  | store k v =>
      rw [← Option.some.inj hstep]
      exact hO.congr rfl rfl fun _ => ⟨rfl, rfl, rfl, id⟩
  | finish k v =>
      rw [← Option.some.inj hstep]
      exact hO.congr rfl rfl fun _ => ⟨rfl, rfl, rfl, id⟩
  | count k now =>
      rw [← Option.some.inj hstep]
      exact hO.congr_seg (i := D.findSegment (D.pos k))
        (f := fun g => { g with count := g.count + 1 }) rfl rfl rfl ⟨rfl, rfl, rfl, id⟩
  | _ => exact once_moves hex hI hO (hmoves.2 (by simp [actionOf]))

/-- Nothing of a new queue is covered. -/
theorem once_create (buf : ℕ → ℕ → α) (now : ℕ) : D.Once (D.create buf now) where
  covers_eq i hi lap a ha ha' := by simp [covers, create]
  min_eq i hi hst hle := by
    have hcur : D.cur (D.create buf now) i = i := by simp [cur, segNo, create]
    rw [hcur] at hle
    have hi0 : i = 0 := by
      by_contra hne
      have := D.blocks.first_strictMono (Nat.pos_of_ne_zero hne)
      have hle' : D.blocks.first i ≤ 0 := hle
      omega
    subst hi0
    simp [create, Layout.segAddr]

/-- **Entries are handed back finished, and written back once.**  After every run in
which each `smart_dma_write` comes before its segment is finished and no
`initiate_write` can enter a segment that is written back in part:

* every entry `write_ready` has passed was finished when it was passed;
* in every lap each byte of each entry is covered by at most one write-back, and by
  one if its segment has been finished in that lap. -/
theorem handed_back_once (D : Device α) (hex : D.Exclusive) (buf : ℕ → ℕ → α) (now fuel : ℕ)
    (es : List (Event α)) (s : Sys α)
    (hC : Meets (D.sysStep fuel) D.InTime (D.sysCreate buf now) es)
    (h : run (D.sysStep fuel) (D.sysCreate buf now) es = some s) :
    (∀ b ∈ s.q.handed, b = true) ∧
    ∀ k d, d < D.overlap → covers s.q (k / D.slots) (D.pos k + d) ≤ 1 ∧
      (k / D.slots < (s.q.seg (D.blocks.blk k % D.n)).lap →
        covers s.q (k / D.slots) (D.pos k + d) = 1) := by
  obtain ⟨hI, hO⟩ := run_invariant_of_meets (P := fun s => D.Inv s.phase s.q ∧ D.Once s.q)
    (fun _ _ _ hIO hC h => ⟨inv_sysStep hex hIO.1 hC.1 h, once_sysStep hex hIO.1 hIO.2 hC h⟩)
    ⟨inv_sysCreate buf now, once_create buf now⟩ hC h
  refine ⟨hI.handed_true, fun k d hd => ?_⟩
  have hmem := D.pos_mem k
  rw [hO.covers_eq (D.blocks.blk k % D.n) (Nat.mod_lt _ D.n_pos) _ _ (by omega) (by omega)]
  constructor
  · split_ifs <;> omega
  · intro hlap
    rw [if_pos (Or.inl hlap)]

/-- A test for `InTime` that looks at no entry. -/
def inTime (D : Device α) (s : Sys α) : Event α → Bool
  | .count k _ => (s.q.seg (D.blocks.blk k % D.n)).lap ≤ k / D.slots
  | .initiateWrite => s.q.readReadySeg = s.q.writeReadySeg ∨
      (s.q.seg s.q.readReadySeg).commitMax = 0 ∨ (s.q.seg s.q.readReadySeg).status = .WRITING
  | _ => true

theorem InTime.of_inTime {s : Sys α} {e : Event α} (h : D.inTime s e) : D.InTime s e := by
  cases e with
  | count k now => exact ⟨show (s.q.seg (D.blocks.blk k % D.n)).lap ≤ k / D.slots from of_decide_eq_true h,
        fun h => by cases h⟩
  | initiateWrite =>
      refine ⟨trivial, fun _ hR => ?_⟩
      rcases of_decide_eq_true h with h | h | h
      · exact hR.1 h
      · exact absurd h hR.2.1.ne'
      · exact hR.2.2.1 h
  | _ => exact ⟨trivial, fun h => by cases h⟩

end Device

/-! ## Runs of small queues -/

theorem fourEntries_exclusive : fourEntries.Exclusive := fun v => by
  cases v <;> decide

/-- Four segments of two entries each. -/
def eightEntries : Device Mark where
  addr := 4096
  overlap := 1024
  slots := 8
  overlap_pos := by decide
  overlap_le := by decide
  size_ge := by decide
  readyScan m := m = .READY
  doneScan m := m = .DONE

namespace Device

open Lib

/-- One entry goes through its whole lap: it is made ready, worked on, handed back and
written back. -/
theorem handed_back_once_fourEntries :
    ∃ s, run (fourEntries.sysStep 4) (fourEntries.sysCreate (fun _ _ => .BUSY) 0)
        [.prefetch false, .prefetch true, .dmaRead 0 fun _ => .READY,
          .dmaRead 1 fun _ => .READY, .handleReading, .obtain 0, .finish 0 .DONE, .count 0 1,
          .initiateWrite, .exeWrite, .dmaWrite 0, .handleWriting] = some s ∧
      s.q.handed = [true] ∧ (s.q.seg 0).lap = 1 ∧ covers s.q 0 4096 = 1 := by
  obtain ⟨s, hs, hobs⟩ := Option.map_eq_some_iff.1 (show (run (fourEntries.sysStep 4)
    (fourEntries.sysCreate (fun _ _ => .BUSY) 0)
    [.prefetch false, .prefetch true, .dmaRead 0 fun _ => .READY,
      .dmaRead 1 fun _ => .READY, .handleReading, .obtain 0, .finish 0 .DONE, .count 0 1,
      .initiateWrite, .exeWrite, .dmaWrite 0, .handleWriting]).map
        (fun s => (s.q.handed, (s.q.seg 0).lap)) = some ([true], 1) by decide +kernel)
  obtain ⟨hhanded, hlap⟩ := Prod.mk.inj hobs
  have honce := handed_back_once fourEntries fourEntries_exclusive _ 0 4 _ s
    (Meets.of_meets (fun _ _ => InTime.of_inTime) (by decide +kernel)) hs
  refine ⟨s, hs, hhanded, hlap, (honce.2 0 0 (by decide)).2 ?_⟩
  show 0 < (s.q.seg 0).lap
  omega

/-- The count of entry `0` comes late, and its segment is left a lap later with its
entry unfinished. -/
def lateCount : List (Event Mark) :=
  let R : ℕ → Mark := fun _ => .READY
  [.prefetch false, .prefetch true, .dmaRead 0 R, .dmaRead 1 R, .handleReading,
    .obtain 0, .obtain 1, .finish 0 .DONE, .finish 1 .DONE, .count 1 2000000,
    .initiateWrite, .exeWrite, .dmaWrite 0, .handleWriting, .count 0 2000001,
    .prefetch false, .prefetch true, .dmaRead 2 R, .dmaRead 3 R, .handleReading,
    .obtain 2, .finish 2 .DONE, .count 2 2000002, .initiateWrite,
    .prefetch false, .dmaRead 0 R, .handleReading,
    .obtain 3, .finish 3 .DONE, .count 3 2000003, .initiateWrite]

/-- `write_ready` comes back to the first segment while its second entry is not yet
written back. -/
def earlyEntry : List (Event Mark) :=
  let R : ℕ → Mark := fun _ => .READY
  [.prefetch false, .prefetch true, .dmaRead 0 R, .dmaRead 1 R, .handleReading,
    .obtain 0, .finish 0 .DONE, .count 0 2000000, .initiateWrite, .exeWrite,
    .obtain 1, .finish 1 .DONE, .count 1 4000000, .obtain 2, .finish 2 .DONE, .count 2 6000000,
    .obtain 3, .finish 3 .DONE, .count 3 8000000, .initiateWrite,
    .prefetch false, .prefetch true, .dmaRead 2 R, .dmaRead 3 R, .handleReading,
    .obtain 4, .finish 4 .DONE, .count 4 10000000, .obtain 5, .finish 5 .DONE, .count 5 12000000,
    .obtain 6, .finish 6 .DONE, .count 6 14000000, .obtain 7, .finish 7 .DONE, .count 7 16000000,
    .dmaWrite 0, .handleWriting, .initiateWrite, .exeWrite]

/-- **Entries can be handed back unfinished, and written back twice.**  A late
`smart_dma_write` makes `write_ready` pass an entry that is not finished; a
`write_ready` that comes round early makes a byte be covered by two write-backs of one
lap. -/
theorem handed_back_twice :
    (∃ s, run (fourEntries.sysStep 20) (fourEntries.sysCreate (fun _ _ => .BUSY) 0) lateCount
      = some s ∧ false ∈ s.q.handed) ∧
    ∃ s, run (eightEntries.sysStep 20) (eightEntries.sysCreate (fun _ _ => .BUSY) 0) earlyEntry
      = some s ∧ covers s.q 0 4096 = 2 := by
  constructor
  · obtain ⟨s, hs, hobs⟩ := Option.map_eq_some_iff.1 (show (run (fourEntries.sysStep 20)
      (fourEntries.sysCreate (fun _ _ => .BUSY) 0) lateCount).map (fun s => s.q.handed)
        = some [true, true, true, true, false] by decide +kernel)
    exact ⟨s, hs, by rw [hobs]; simp⟩
  · obtain ⟨s, hs, hobs⟩ := Option.map_eq_some_iff.1 (show (run (eightEntries.sysStep 20)
      (eightEntries.sysCreate (fun _ _ => .BUSY) 0) earlyEntry).map (fun s => covers s.q 0 4096)
        = some 2 by decide +kernel)
    exact ⟨s, hs, hobs⟩

end Device
end Nic
end Floem
