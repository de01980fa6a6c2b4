import Mathlib
import Floem.Nic.Workers

/-!
# The invariant of a queue at work

A segment is in one lap of its life at a time: it is filled, worked on, passed by
`write_ready`, written back and finished.  `SegOk` says what its fields are in
terms of that lap and of how far the cursors are, `Inv` adds what holds between
the segments and what the entries hold.

* `Inv.cur_eq` — the laps of the segments differ by at most one, so the segment of
  `write_ready` is in the lap `write_ready` is in.
* `SegOk.advance` — a segment `write_ready` does not move in stays as it is.
* `inv_handMove`, `inv_move` — the moves of the manager keep the invariant, provided
  `ready_scan` and `done_scan` are never both true.
-/

namespace Floem
namespace Nic
namespace Device

open Lib

variable {α : Type} (D : Device α)

/-- `ready_scan` and `done_scan` are never both true of one entry. -/
def Exclusive : Prop := ∀ v, D.readyScan v → ¬ D.doneScan v

/-- The number of a segment counted over all laps, from the lap it is in. -/
def segNo (i : ℕ) (g : Segment) : ℕ := g.lap * D.n + i

/-- The segment `i` is at present, counted over all laps. -/
def cur (s : State α) (i : ℕ) : ℕ := D.segNo i (s.seg i)

/-- The segment that is to be finished next, counted over all laps. -/
def finishSeg (s : State α) : ℕ := D.cur s s.writeFinishSeg

/-- The number of entries of segment `c` that were counted. -/
def countedIn (phase : ℕ → Phase) (c : ℕ) : ℕ :=
  ((Finset.Ico (D.blocks.first c) (D.blocks.first (c + 1))).filter
    fun k => phase k = .counted).card

/-- The fields of segment `i` with `write_ready` at ticket `W` and `read_ready` at
ticket `R`. -/
structure SegOk (phase : ℕ → Phase) (W R : ℕ) (backed : ℕ → Bool) (i : ℕ) (g : Segment) :
    Prop where
  /-- `max` follows `write_ready` through the segment and stays at its end. -/
  max_eq : g.max = if W ≤ D.blocks.first (D.segNo i g) then 0
    else if W < D.blocks.first (D.segNo i g + 1) then D.pos W else D.segAddrMax i
  commit_le : g.commitMax ≤ g.max
  min_ge : D.blocks.first (D.segNo i g) ≤ W → D.segAddr i ≤ g.min
  /-- What was not committed is not skipped. -/
  min_le : g.status ≠ .WRITING → g.min ≤ D.segAddr i ∨ g.min ≤ g.commitMax
  /-- Until `write_ready` leaves the segment, `count` is the number of entries
  counted. -/
  count_eq : W < D.blocks.first (D.segNo i g + 1) → g.count = D.countedIn phase (D.segNo i g)
  /-- With no write under way, what was committed is written back. -/
  committed : g.status ≠ .WRITING →
    ∀ k, D.blocks.blk k = D.segNo i g → D.pos k < g.commitMax → backed k
  writing : g.status = .WRITING → ∃ lo fin, g.comp = .write lo g.commitMax fin ∧
    D.segAddr i ≤ lo ∧ lo < g.commitMax ∧
    (∀ k, D.blocks.blk k = D.segNo i g → D.pos k < lo → backed k) ∧
    (fin → ∀ k, D.blocks.blk k = D.segNo i g → D.pos k < g.commitMax → backed k)
  /-- A read brings entries `read_ready` has not passed, whose write-back of the lap
  before had completed when it was started. -/
  reading : g.status = .READING → ∃ off snap fin,
    g.comp = .read off (D.segSize i - off) snap fin ∧ D.overlap ∣ off ∧
    D.blocks.blk R ≤ D.segNo i g ∧
    ∀ k, D.blocks.blk k = D.segNo i g → off ≤ D.offset k → R ≤ k ∧
      (D.slots ≤ k → snap (k - D.slots))
  noComp : g.status ≠ .WRITING → g.status ≠ .READING → g.comp = .reset

/-- The invariant of the manager and the workers. -/
structure Inv (phase : ℕ → Phase) (s : State α) : Prop where
  cursors : D.Cursors s
  finish_lt : s.writeFinishSeg < D.n
  start_lt : s.writeStartSeg < D.n
  /-- The laps of the segments differ by at most one. -/
  laps : ∀ i < D.n, D.finishSeg s ≤ D.cur s i ∧ D.cur s i < D.finishSeg s + D.n
  finish_le : D.finishSeg s ≤ D.writeSeg s
  /-- `read_ready` does not enter a segment before it is finished. -/
  read_le : s.made.length ≤ D.blocks.first (D.finishSeg s + D.n)
  segs : ∀ i < D.n, D.SegOk phase s.handed.length s.made.length s.backed i (s.seg i)
  outside : ∀ i, D.n ≤ i → (s.seg i).comp = .reset
  idle : ∀ k, s.made.length ≤ k → phase k = .idle
  /-- In the window, an entry is finished exactly if its worker finished it. -/
  done_iff : ∀ k, s.handed.length ≤ k → k < s.made.length →
    (D.doneScan (D.copy s k) = true ↔ phase k = .flagged ∨ phase k = .counted)
  passed : ∀ k, k < s.handed.length → phase k = .flagged ∨ phase k = .counted
  handed_true : ∀ b ∈ s.handed, b = true
  /-- A local copy that is ready and was not passed is of the lap its segment is in. -/
  unread : ∀ k, s.made.length ≤ k → k < s.handed.length + D.slots →
    D.readyScan (D.copy s k) → D.blocks.blk k ≤ D.cur s (D.blocks.blk k % D.n)
  /-- The entries of finished laps are written back. -/
  finished : ∀ k, D.blocks.blk k < D.cur s (D.blocks.blk k % D.n) → s.backed k

variable {D} {phase : ℕ → Phase} {s t : State α}

/-! ## Segments -/

theorem segNo_mod {i : ℕ} (hi : i < D.n) (g : Segment) : D.segNo i g % D.n = i := by
  rw [segNo, Nat.mul_add_mod_self_right, Nat.mod_eq_of_lt hi]

/-- The end of an entry before the end of its segment's next entries. -/
theorem pos_lt_segAddrMax (k : ℕ) : D.pos k < D.segAddrMax (D.blocks.blk k % D.n) := by
  have := (D.pos_mem k).2
  have := D.overlap_pos
  omega

/-- Tickets of one segment are ordered as their addresses. -/
theorem pos_lt_pos_iff {j k : ℕ} (h : D.blocks.blk j = D.blocks.blk k) :
    D.pos j < D.pos k ↔ j < k := by
  have hj := D.blocks.first_blk_le j
  have hk := D.blocks.first_blk_le k
  rw [pos_eq_offset, pos_eq_offset, h, Nat.add_lt_add_iff_left, offset, offset,
    Nat.mul_lt_mul_right D.overlap_pos, h]
  rw [h] at hj
  omega

namespace SegOk

variable {W R : ℕ} {backed : ℕ → Bool} {i : ℕ} {g : Segment}

/-- More write-backs may complete. -/
theorem mono (h : D.SegOk phase W R backed i g) {backed' : ℕ → Bool}
    (hb : ∀ k, backed k → backed' k) : D.SegOk phase W R backed' i g where
  max_eq := h.max_eq
  commit_le := h.commit_le
  min_ge := h.min_ge
  min_le := h.min_le
  count_eq := h.count_eq
  committed hst k hk hpos := hb k (h.committed hst k hk hpos)
  writing hst := by
    obtain ⟨lo, fin, h1, h2, h3, h4, h5⟩ := h.writing hst
    exact ⟨lo, fin, h1, h2, h3, fun k hk hp => hb k (h4 k hk hp),
      fun hf k hk hp => hb k (h5 hf k hk hp)⟩
  reading := h.reading
  noComp := h.noComp

/-- Once `write_ready` is past a segment, and only then, `max` is its end. -/
theorem max_eq_end (h : D.SegOk phase W R backed i g) (hi : i < D.n)
    (hm : D.segAddrMax i ≤ g.max) : D.blocks.first (D.segNo i g + 1) ≤ W := by
  have hmax := h.max_eq
  have hseg : D.segAddr i < D.segAddrMax i := by
    have hw := D.segAddrMax_eq (D.segNo i g)
    have hpos := Nat.mul_pos (D.width_pos (D.segNo i g)) D.overlap_pos
    rw [segNo_mod hi] at hw
    omega
  split_ifs at hmax with h1 h2
  · omega
  · -- strictly inside the segment `max` is before its end
    have hblk : D.blocks.blk W = D.segNo i g := D.blocks.blk_eq_iff.2 ⟨(not_le.1 h1).le, h2⟩
    have hlt := pos_lt_segAddrMax (D := D) W
    rw [hblk, segNo_mod hi] at hlt
    omega
  · exact not_lt.1 h2

theorem max_le (h : D.SegOk phase W R backed i g) (hi : i < D.n) : g.max ≤ D.segAddrMax i := by
  rw [h.max_eq]
  split_ifs with h1 h2
  · exact Nat.zero_le _
  · have hblk : D.blocks.blk W = D.segNo i g := D.blocks.blk_eq_iff.2 ⟨(not_le.1 h1).le, h2⟩
    have hlt := pos_lt_segAddrMax (D := D) W
    rw [hblk, segNo_mod hi] at hlt
    exact hlt.le
  · exact le_rfl

/-- `max` is zero exactly while `write_ready` has passed no entry of the segment. -/
theorem max_eq_zero_iff (h : D.SegOk phase W R backed i g) (hi : i < D.n) :
    g.max = 0 ↔ W ≤ D.blocks.first (D.segNo i g) := by
  have hmax := h.max_eq
  constructor
  · intro h0
    by_contra h1
    rw [if_neg h1] at hmax
    split_ifs at hmax with h2
    · have hblk : D.blocks.blk W = D.segNo i g := D.blocks.blk_eq_iff.2 ⟨(not_le.1 h1).le, h2⟩
      have hlt := (pos_lt_pos_iff (D := D) ((D.blocks.blk_first _).trans hblk.symm)).2
        (not_le.1 h1)
      omega
    · have := pos_lt_segAddrMax (D := D) (D.blocks.first (D.segNo i g))
      rw [Blocks.blk_first, segNo_mod hi] at this
      omega
  · intro h1
    rw [hmax, if_pos h1]

/-- A segment `write_ready` does not move in stays as it is. -/
theorem advance (h : D.SegOk phase W R backed i g) {V : ℕ} (hWV : W ≤ V)
    (hV : V ≤ D.blocks.first (D.blocks.blk W + 1)) (hne : D.segNo i g ≠ D.blocks.blk W)
    (henter : D.segNo i g = D.blocks.blk W + 1 → V = D.blocks.first (D.blocks.blk W + 1) →
      D.segAddr i ≤ g.min) :
    D.SegOk phase V R backed i g := by
  have hlow := D.blocks.first_blk_le W
  have hhigh := D.blocks.lt_first_succ_blk W
  -- the segment lies before or behind the one `write_ready` moves in
  have hside : D.blocks.first (D.segNo i g + 1) ≤ D.blocks.first (D.blocks.blk W) ∨
      D.blocks.first (D.blocks.blk W + 1) ≤ D.blocks.first (D.segNo i g) := by
    rcases Nat.lt_or_gt_of_ne hne with hlt | hgt
    · exact Or.inl (D.blocks.first_le_first hlt)
    · exact Or.inr (D.blocks.first_le_first hgt)
  have hfirst := D.blocks.first_lt_succ (D.segNo i g)
  exact { h with
    max_eq := by
      rw [h.max_eq]
      rcases hside with hs | hs
      · rw [if_neg (by omega), if_neg (by omega), if_neg (by omega), if_neg (by omega)]
      · rw [if_pos (by omega), if_pos (by omega)]
    min_ge := fun hle => by
      rcases hside with hs | hs
      · exact h.min_ge (by omega)
      · refine henter (le_antisymm ?_ ?_) (by omega)
        · exact (D.blocks.first_strictMono.le_iff_le).1 (by omega)
        · exact (D.blocks.first_strictMono.le_iff_le).1 hs
    count_eq := fun hlt => h.count_eq (by omega) }

/-- `read_ready` may pass an entry of another segment, or of one not being read. -/
theorem pass (h : D.SegOk phase W R backed i g)
    (hR : g.status = .READING → D.blocks.blk R ≠ D.segNo i g) :
    D.SegOk phase W (R + 1) backed i g :=
  { h with
    reading := fun hst => by
      obtain ⟨off, snap, fin, h1, h2, h3, h4⟩ := h.reading hst
      have hne := hR hst
      have hle : D.blocks.blk (R + 1) ≤ D.blocks.blk R + 1 := by
        rcases D.blocks.succ_cases R with ⟨-, -, h, -⟩ | ⟨-, -, -, h, -⟩ | ⟨-, -, -, h⟩ <;> omega
      refine ⟨off, snap, fin, h1, h2, by omega, fun k hk hoff => ?_⟩
      obtain ⟨hRk, hsnap⟩ := h4 k hk hoff
      have hkR : k ≠ R := fun heq => hne (heq ▸ hk)
      exact ⟨by omega, hsnap⟩ }

end SegOk

/-! ## Reading the invariant -/

namespace Inv

/-- Within a lap of the segment to be finished, segments are in the lap of their
number. -/
theorem cur_eq (h : D.Inv phase s) {a : ℕ} (ha : D.finishSeg s ≤ a)
    (ha' : a < D.finishSeg s + D.n) : D.cur s (a % D.n) = a := by
  have hi : a % D.n < D.n := Nat.mod_lt _ D.n_pos
  obtain ⟨h1, h2⟩ := h.laps _ hi
  have hmod : D.cur s (a % D.n) % D.n = a % D.n := segNo_mod hi _
  rcases Nat.le_total (D.cur s (a % D.n)) a with hle | hle
  · exact eq_of_mod_eq_of_window hmod hle (by omega)
  · exact (eq_of_mod_eq_of_window hmod.symm hle (by omega)).symm

theorem finishSeg_mod (h : D.Inv phase s) : D.finishSeg s % D.n = s.writeFinishSeg :=
  segNo_mod h.finish_lt _

/-- An entry that was passed by `read_ready` is of the lap its segment is in, or of
an earlier one. -/
theorem blk_lt (h : D.Inv phase s) {k : ℕ} (hk : k < s.made.length) :
    D.blocks.blk k < D.finishSeg s + D.n :=
  D.blocks.blk_lt_iff.2 (hk.trans_le h.read_le)

/-- While there are entries in the window, the segment of `write_ready` is in the lap
of `write_ready`. -/
theorem cur_writeSeg (h : D.Inv phase s) (hlt : s.handed.length < s.made.length) :
    D.cur s (D.writeSeg s % D.n) = D.writeSeg s :=
  h.cur_eq h.finish_le (h.blk_lt hlt)

theorem seg_writeSeg (h : D.Inv phase s) :
    D.SegOk phase s.handed.length s.made.length s.backed (D.writeSeg s % D.n)
      (s.seg (D.writeSeg s % D.n)) := h.segs _ (Nat.mod_lt _ D.n_pos)

/-- A finished entry is not ready. -/
theorem not_ready_of_done (hex : D.Exclusive) {v : α} (h : D.doneScan v) : ¬ D.readyScan v :=
  fun hr => hex v hr h

/-- The copies of tickets a lap apart are the same. -/
theorem copy_add_slots (s : State α) (k : ℕ) : D.copy s (k + D.slots) = D.copy s k := by
  rw [copy, copy, blk_add_slots, offset_add_slots, Nat.add_mod_right]

end Inv

/-! ## Moving `write_ready` -/

theorem cur_congr {i : ℕ} (h : (t.seg i).lap = (s.seg i).lap) : D.cur t i = D.cur s i := by
  rw [cur, cur, segNo, segNo, h]

/-- What a move of `write_ready` over finished entries has to show: the fields of the
segments. -/
theorem Inv.handed_over (hI : D.Inv phase s) (hex : D.Exclusive) (hc : D.Cursors t)
    (flags : List Bool) (hmade : t.made = s.made) (hbuf : t.buf = s.buf)
    (hbacked : t.backed = s.backed) (hfinish : t.writeFinishSeg = s.writeFinishSeg)
    (hstart : t.writeStartSeg = s.writeStartSeg) (hlap : ∀ i, (t.seg i).lap = (s.seg i).lap)
    (hcomp : ∀ i, (t.seg i).comp = (s.seg i).comp) (hhanded : t.handed = s.handed ++ flags)
    (hflags : ∀ b ∈ flags, b = true) (hle : t.handed.length ≤ s.made.length)
    (hdone : ∀ k, s.handed.length ≤ k → k < t.handed.length → D.doneScan (D.copy s k))
    (hsegs : ∀ i < D.n,
      D.SegOk phase t.handed.length s.made.length s.backed i (t.seg i)) : D.Inv phase t := by
  have hcur : ∀ i, D.cur t i = D.cur s i := fun i => cur_congr (hlap i)
  have hF : D.finishSeg t = D.finishSeg s := by rw [finishSeg, finishSeg, hfinish, hcur]
  have hgrow : s.handed.length ≤ t.handed.length := by rw [hhanded, List.length_append]; omega
  have hcopy : ∀ k, D.copy t k = D.copy s k := fun k => by rw [copy, copy, hbuf]
  have hworked : ∀ k, s.handed.length ≤ k → k < t.handed.length →
      phase k = .flagged ∨ phase k = .counted := fun k hk hk' =>
    (hI.done_iff k hk (hk'.trans_le hle)).1 (hdone k hk hk')
  exact
    { cursors := hc
      finish_lt := by rw [hfinish]; exact hI.finish_lt
      start_lt := by rw [hstart]; exact hI.start_lt
      laps := fun i hi => by rw [hF, hcur]; exact hI.laps i hi
      finish_le := by
        rw [hF]
        exact hI.finish_le.trans (D.blocks.blk_mono hgrow)
      read_le := by rw [hF, hmade]; exact hI.read_le
      segs := fun i hi => by rw [hmade, hbacked]; exact hsegs i hi
      outside := fun i hi => by rw [hcomp]; exact hI.outside i hi
      idle := fun k hk => hI.idle k (by rw [hmade] at hk; exact hk)
      done_iff := fun k hk hk' => by
        rw [hcopy]
        exact hI.done_iff k (hgrow.trans hk) (by rw [hmade] at hk'; exact hk')
      passed := fun k hk => by
        rcases Nat.lt_or_ge k s.handed.length with h | h
        · exact hI.passed k h
        · exact hworked k h hk
      handed_true := fun b hb => by
        rw [hhanded, List.mem_append] at hb
        exact hb.elim (hI.handed_true b) (hflags b)
      unread := fun k hk hk' hready => by
        rw [hcopy] at hready
        rw [hcur]
        rw [hmade] at hk
        rcases Nat.lt_or_ge k (s.handed.length + D.slots) with h | h
        · exact hI.unread k hk h hready
        · -- the copy is that of an entry just handed back, which is finished
          obtain ⟨j, rfl⟩ : ∃ j, k = j + D.slots := ⟨k - D.slots, by omega⟩
          rw [Inv.copy_add_slots] at hready
          exact absurd hready (Inv.not_ready_of_done hex (hdone j (by omega) (by omega)))
      finished := fun k hk => by
        rw [hcur] at hk
        rw [hbacked]
        exact hI.finished k hk }

/-- `write_ready` leaves its segment over finished entries. -/
theorem Inv.closed_over (hI : D.Inv phase s) (hex : D.Exclusive) {flags : List Bool}
    (hc : D.Cursors (D.closed s flags)) (hflags : ∀ b ∈ flags, b = true)
    (hlen : s.handed.length + flags.length = D.blocks.first (D.writeSeg s + 1))
    (hle : D.blocks.first (D.writeSeg s + 1) ≤ s.made.length)
    (hdone : ∀ k, s.handed.length ≤ k → k < D.blocks.first (D.writeSeg s + 1) →
      D.doneScan (D.copy s k)) : D.Inv phase (D.closed s flags) := by
  have hn := D.four_le_n
  have hhigh := D.blocks.lt_first_succ_blk s.handed.length
  have hlt : s.handed.length < s.made.length := hhigh.trans_le hle
  have hcur := hI.cur_writeSeg hlt
  have hij : (D.writeSeg s + 1) % D.n ≠ D.writeSeg s % D.n :=
    (mod_ne_of_window (Nat.lt_succ_self _) (by omega)).symm
  have hhanded : (D.closed s flags).handed.length = D.blocks.first (D.writeSeg s + 1) := by
    simp only [closed, List.length_append]
    exact hlen
  -- the segments after the move
  have hsegi : (D.closed s flags).seg (D.writeSeg s % D.n) = { s.seg (D.writeSeg s % D.n) with
      count := 0, max := D.segAddrMax (D.writeSeg s % D.n) } := by
    simp only [closed, State.modify_seg_of_ne _ _ _ hij.symm, State.modify_seg_self]
  have hsegj : (D.closed s flags).seg ((D.writeSeg s + 1) % D.n) =
      { s.seg ((D.writeSeg s + 1) % D.n) with min := D.segAddr ((D.writeSeg s + 1) % D.n) } := by
    simp only [closed, State.modify_seg_of_ne _ _ _ hij, State.modify_seg_self]
  have hsego : ∀ m, m ≠ D.writeSeg s % D.n → m ≠ (D.writeSeg s + 1) % D.n →
      (D.closed s flags).seg m = s.seg m := fun m h1 h2 => by
    simp only [closed, State.modify_seg_of_ne _ _ _ h1, State.modify_seg_of_ne _ _ _ h2]
  have hsame : ∀ m, ((D.closed s flags).seg m).lap = (s.seg m).lap ∧
      ((D.closed s flags).seg m).comp = (s.seg m).comp := fun m => by
    by_cases h1 : m = D.writeSeg s % D.n
    · rw [h1, hsegi]; exact ⟨rfl, rfl⟩
    · by_cases h2 : m = (D.writeSeg s + 1) % D.n
      · rw [h2, hsegj]; exact ⟨rfl, rfl⟩
      · rw [hsego m h1 h2]; exact ⟨rfl, rfl⟩
  refine hI.handed_over hex hc flags rfl rfl rfl rfl rfl (fun m => (hsame m).1) (fun m => (hsame m).2)
    rfl hflags (by rw [hhanded]; exact hle) (fun k hk hk' => hdone k hk (by rwa [hhanded] at hk'))
    fun m hm => ?_
  rw [hhanded]
  by_cases h1 : m = D.writeSeg s % D.n
  · -- the segment that is left
    subst h1
    have hold := hI.seg_writeSeg
    rw [hsegi]
    have hno : D.segNo (D.writeSeg s % D.n) (s.seg (D.writeSeg s % D.n)) = D.writeSeg s := hcur
    have hfirst := D.blocks.first_lt_succ (D.writeSeg s)
    exact { hold with
      max_eq := by
        show _ = if _ ≤ D.blocks.first (D.segNo _ (s.seg _)) then _ else
          if _ < D.blocks.first (D.segNo _ (s.seg _) + 1) then _ else _
        rw [hno, if_neg (by omega), if_neg (lt_irrefl _)]
      commit_le := hold.commit_le.trans (hold.max_le hm)
      min_ge := fun _ => hold.min_ge (by rw [hno]; exact D.blocks.first_blk_le _)
      count_eq := fun hlt => by
        have hlt' : D.blocks.first (D.writeSeg s + 1) <
            D.blocks.first (D.segNo (D.writeSeg s % D.n) (s.seg (D.writeSeg s % D.n)) + 1) := hlt
        rw [hno] at hlt'
        exact absurd hlt' (lt_irrefl _) }
  · have hne : D.segNo m (s.seg m) ≠ D.blocks.blk s.handed.length := fun he =>
      h1 (by rw [← segNo_mod hm (s.seg m), he]; rfl)
    have hold := hI.segs m hm
    by_cases h2 : m = (D.writeSeg s + 1) % D.n
    · -- the segment that is entered
      subst h2
      rw [hsegj]
      have henter : D.SegOk phase s.handed.length s.made.length s.backed
          ((D.writeSeg s + 1) % D.n)
          { s.seg ((D.writeSeg s + 1) % D.n) with min := D.segAddr ((D.writeSeg s + 1) % D.n) } :=
        { hold with min_ge := fun _ => le_rfl, min_le := fun _ => Or.inl le_rfl }
      exact henter.advance hhigh.le le_rfl hne fun _ _ => le_rfl
    · rw [hsego m h1 h2]
      refine hold.advance hhigh.le le_rfl hne fun he _ => absurd ?_ h2
      rw [← segNo_mod hm (s.seg m), he]
      rfl

/-- **Moving `write_ready` keeps the invariant.** -/
theorem inv_handMove (hex : D.Exclusive) (hI : D.Inv phase s) (h : D.HandMove s t) :
    D.Inv phase t := by
  have hc := h.cursors hI.cursors
  cases h with
  | hand hlt hin hdone =>
      have hcur := hI.cur_writeSeg hlt
      have hlen : (D.handedOn s).handed.length = s.handed.length + 1 := by simp [handedOn]
      have hno : D.segNo (D.writeSeg s % D.n) (s.seg (D.writeSeg s % D.n)) = D.writeSeg s := hcur
      have hsame : ∀ m, ((D.handedOn s).seg m).lap = (s.seg m).lap ∧
          ((D.handedOn s).seg m).comp = (s.seg m).comp := fun m => by
        by_cases h1 : m = D.writeSeg s % D.n
        · subst h1; simp [handedOn]
        · simp [handedOn, State.modify_seg_of_ne _ _ _ h1]
      refine hI.handed_over hex hc [true] rfl rfl rfl rfl rfl (fun m => (hsame m).1)
        (fun m => (hsame m).2) rfl (by simp) (by rw [hlen]; exact hlt)
        (fun k hk hk' => ?_) fun m hm => ?_
      · rw [hlen] at hk'
        obtain rfl : k = s.handed.length := by omega
        exact hdone
      · rw [hlen]
        have hold := hI.segs m hm
        have hin' : s.handed.length + 1 < D.blocks.first (D.writeSeg s + 1) :=
          (D.blocks.blk_eq_iff.1 hin).2
        by_cases h1 : m = D.writeSeg s % D.n
        · subst h1
          have hlow := D.blocks.first_blk_le s.handed.length
          have hmax : (s.seg (D.writeSeg s % D.n)).max ≤ D.pos (s.handed.length + 1) := by
            rw [hold.max_eq, hno]
            split_ifs
            · exact Nat.zero_le _
            · exact ((pos_lt_pos_iff hin.symm).2 (Nat.lt_succ_self _)).le
            · omega
          simp only [handedOn, State.modify_seg_self]
          exact { hold with
            max_eq := by
              show _ = if _ ≤ D.blocks.first (D.segNo _ (s.seg _)) then _ else
                if _ < D.blocks.first (D.segNo _ (s.seg _) + 1) then _ else _
              rw [hno, if_neg (by rw [writeSeg]; omega), if_pos hin']
            commit_le := hold.commit_le.trans hmax
            min_ge := fun _ => hold.min_ge (by rw [hno]; exact hlow)
            count_eq := fun hlt' => hold.count_eq (by rw [hno]; omega) }
        · have hne : D.segNo m (s.seg m) ≠ D.blocks.blk s.handed.length := fun he =>
            h1 (by rw [← segNo_mod hm (s.seg m), he]; rfl)
          simp only [handedOn, State.modify_seg_of_ne _ _ _ h1]
          exact hold.advance (Nat.le_succ _) (by rw [← writeSeg]; exact hin'.le) hne
            fun _ hV => absurd hV hin'.ne
  | closeSlow hlt hend hdone =>
      have hfirst := D.blocks.succ_eq_first hend
      rw [← writeSeg] at hfirst
      refine hI.closed_over hex hc (by simp) (by simpa using hfirst) (by rw [← hfirst]; exact hlt)
        fun k hk hk' => ?_
      obtain rfl : k = s.handed.length := by omega
      exact hdone
  | closeFast hlt hcount =>
      have hle : D.blocks.first (D.writeSeg s + 1) ≤ s.made.length := D.blocks.le_blk_iff.1 hlt
      have hhigh : s.handed.length < D.blocks.first (D.writeSeg s + 1) :=
        D.blocks.lt_first_succ_blk _
      have hno : D.segNo (D.writeSeg s % D.n) (s.seg (D.writeSeg s % D.n)) = D.writeSeg s :=
        hI.cur_writeSeg (hhigh.trans_le hle)
      -- the count says that every entry of the segment was counted
      have hall := hI.seg_writeSeg.count_eq (by rw [hno]; exact hhigh)
      rw [hcount, hno, countedIn, Layout.width, ← Nat.card_Ico, eq_comm,
        Finset.card_filter_eq_iff] at hall
      have hdone : ∀ k, s.handed.length ≤ k → k < D.blocks.first (D.writeSeg s + 1) →
          D.doneScan (D.copy s k) := fun k hk hk' =>
        (hI.done_iff k hk (hk'.trans_le hle)).2 (Or.inr (hall k (Finset.mem_Ico.2
          ⟨(D.blocks.first_blk_le s.handed.length).trans hk, hk'⟩)))
      refine hI.closed_over hex hc (fun b hb => ?_) ?_ hle hdone
      · obtain ⟨j, hj, rfl⟩ := List.mem_map.1 hb
        exact hdone _ (Nat.le_add_right _ _) (by have := List.mem_range.1 hj; omega)
      · rw [List.length_map, List.length_range]
        omega

end Device
end Nic
end Floem
