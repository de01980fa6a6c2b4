import Floem.Nic.WriteBack

/-!
# What a DMA read may touch, and what it brought

A read started by `prefetch_segment` lands in local copies nobody uses, and an entry
enters the window only as a read brought it after the write-back of the lap before.

* `Inv.read_disjoint` — the bytes of a read under way are in no entry of the window
  and wait for no write-back.
* `Fresh` — a local copy that is ready and not yet passed comes from a read of its own
  lap.
* `prefetch_safe` — both, for every run in which each `smart_dma_write` comes before
  its segment is finished; `prefetch_stale` is a run in which one does not.
-/

namespace Floem
namespace Nic
namespace Device

open Lib

variable {α : Type} {D : Device α} {phase : ℕ → Phase} {s t : State α}

/-! ## What a read may touch -/

/-- A byte of an entry lies behind a multiple of the entry size only if the entry
does. -/
theorem offset_ge_of_byte {k off d : ℕ} (hdvd : D.overlap ∣ off) (hd : d < D.overlap)
    (h : off ≤ D.offset k + d) : off ≤ D.offset k := by
  obtain ⟨m, rfl⟩ := hdvd
  rw [offset, Nat.mul_comm] at h ⊢
  have hlt : m * D.overlap < (k - D.blocks.first (D.blocks.blk k) + 1) * D.overlap := by
    rw [Nat.add_mul, Nat.one_mul]
    omega
  exact Nat.mul_le_mul_right _ (Nat.lt_succ_iff.1 (Nat.lt_of_mul_lt_mul_right hlt))

/-- **A read under way touches no entry of the window and nothing that waits for its
write-back.** -/
theorem Inv.read_disjoint (hI : D.Inv phase s) {i off size : ℕ} {snap : ℕ → Bool} {fin : Bool}
    (hcomp : (s.seg i).comp = .read off size snap fin) {a : ℕ} (ha : D.segAddr i + off ≤ a)
    (ha' : a < D.segAddr i + off + size) :
    (∀ k, s.handed.length ≤ k → k < s.made.length → ¬ (D.pos k ≤ a ∧ a < D.pos k + D.overlap)) ∧
    ∀ j < D.n, ¬ ((s.seg j).min ≤ a ∧ a < (s.seg j).max) := by
  obtain ⟨hi, hst⟩ := (hI.status_of_comp (i := i)).1 _ _ _ _ hcomp
  obtain ⟨off', snap', fin', hcomp', hdvd, hread, hahead⟩ := (hI.segs i hi).reading hst
  rw [hcomp] at hcomp'
  cases hcomp'
  have hi' : D.segAddr i ≤ a ∧ a < D.segAddrMax i := by
    rw [Layout.segAddrMax]
    omega
  have hWR := hI.cursors.handed_le
  constructor
  · rintro k hk hk' ⟨hpos, hpos'⟩
    -- the entry would lie in the segment, behind the first byte that is read
    have hmem := D.pos_mem k
    have hki : D.blocks.blk k % D.n = i :=
      segment_unique (D := D) (by omega) (by omega) hi'.1 hi'.2
    have hoffset := pos_eq_offset D k
    rw [hki] at hoffset
    have hoff : off ≤ D.offset k :=
      offset_ge_of_byte (d := a - D.pos k) hdvd (by omega) (by omega)
    have := (hI.blk_of_landing hcomp hki hoff hk (hk'.trans hI.cursors.made_lt)).1
    omega
  · rintro j hj ⟨hmin, hmax⟩
    have hold := hI.segs j hj
    have hentered : D.blocks.first (D.segNo j (s.seg j)) < s.handed.length := by
      by_contra h
      have := (hold.max_eq_zero_iff hj).2 (not_lt.1 h)
      omega
    have hlow := hold.min_ge hentered.le
    have hhigh := hold.max_le hj
    obtain rfl : j = i := segment_unique (D := D) (by omega) (by omega) hi'.1 hi'.2
    -- `write_ready` is in the segment, `max` is its address
    have hmaxeq := hold.max_eq
    rw [if_neg (by omega)] at hmaxeq
    split_ifs at hmaxeq with hin
    · have hblk : D.blocks.blk s.handed.length = D.segNo j (s.seg j) :=
        D.blocks.blk_eq_iff.2 ⟨hentered.le, hin⟩
      have hposW := pos_eq_offset D s.handed.length
      rw [hblk, segNo_mod hi] at hposW
      obtain ⟨m, rfl⟩ := hdvd
      have hmW : m < s.handed.length - D.blocks.first (D.segNo j (s.seg j)) := by
        have hlt : D.overlap * m < D.offset s.handed.length := by omega
        rw [offset, hblk, Nat.mul_comm] at hlt
        exact Nat.lt_of_mul_lt_mul_right hlt
      -- the entry at the first byte that is read was handed back
      have hkblk : D.blocks.blk (D.blocks.first (D.segNo j (s.seg j)) + m)
          = D.segNo j (s.seg j) :=
        D.blocks.blk_eq_iff.2 ⟨Nat.le_add_right _ _, by omega⟩
      have hkoff : D.offset (D.blocks.first (D.segNo j (s.seg j)) + m) = D.overlap * m := by
        rw [offset, hkblk, Nat.add_sub_cancel_left, Nat.mul_comm]
      have := (hahead _ hkblk hkoff.ge).1
      omega
    · -- `write_ready` is past the segment, `read_ready` is not
      have : D.segNo j (s.seg j) + 1 ≤ D.blocks.blk s.made.length :=
        D.blocks.le_blk_iff.2 ((not_lt.1 hin).trans hWR)
      omega

/-! ## What it brought -/

variable (D) in
/-- A fetch is good for the entry with ticket `k`: when it was started, the write-back
of the lap before had completed. -/
def GoodFor (k : ℕ) (f : Fetch α) : Prop := D.slots ≤ k → f.backed (k - D.slots)

variable (D) in
/-- Ready copies come from reads of their own lap, and so did the entries that were
passed. -/
structure Fresh (s : State α) : Prop where
  copies : ∀ k, s.made.length ≤ k → k < s.handed.length + D.slots → D.readyScan (D.copy s k) →
    ∃ f, D.fetchOf s k = some f ∧ f.data = D.copy s k ∧ D.GoodFor k f
  made : ∀ k r, s.made[k]? = some r → ∃ f, r = some f ∧ D.readyScan f.data ∧ D.GoodFor k f

/-- What neither moves a cursor nor touches a local copy keeps `Fresh`. -/
theorem Fresh.congr (hF : D.Fresh s) (hmade : t.made = s.made) (hhanded : t.handed = s.handed)
    (hbuf : t.buf = s.buf) (hfetched : t.fetched = s.fetched) : D.Fresh t where
  copies k hk hk' hr := by
    rw [hmade] at hk
    rw [hhanded] at hk'
    rw [copy, hbuf] at hr ⊢
    rw [fetchOf, hfetched]
    exact hF.copies k hk hk' hr
  made k r hr := by
    rw [hmade] at hr
    exact hF.made k r hr

/-- `read_ready` passes an entry a read brought in time. -/
theorem fresh_pass (hI : D.Inv phase s) (hF : D.Fresh s)
    (hready : D.readyScan (D.copy s s.made.length)) : D.Fresh (D.passed s) where
  copies k hk hk' hr := by
    have hlen : (D.passed s).made.length = s.made.length + 1 := by simp [passed]
    exact hF.copies k (by omega) hk' hr
  made k r hr := by
    obtain ⟨f, hf, hdata, hgood⟩ := hF.copies _ le_rfl hI.cursors.made_lt hready
    have hr' : (s.made ++ [D.fetchOf s s.made.length])[k]? = some r := hr
    rw [List.getElem?_append] at hr'
    split_ifs at hr' with hlt
    · exact hF.made k r hr'
    · rw [List.getElem?_singleton] at hr'
      split_ifs at hr' with h0
      obtain rfl : k = s.made.length := by omega
      exact ⟨f, (Option.some.inj hr').symm.trans hf, by rwa [hdata], hgood⟩

theorem fresh_move (hI : D.Inv phase s) (hF : D.Fresh s) (h : D.Move s t) : D.Fresh t := by
  cases h with
  | pass hstop hst hready => exact fresh_pass hI hF hready
  | startWrite i hi hmin hmax hst =>
      obtain ⟨h1, h2, h3, h4, -⟩ := doWrite_frame (D := D) s i
      exact hF.congr h1 h2 h3 h4
  | _ => exact hF.congr rfl rfl rfl rfl

theorem fresh_moves (hex : D.Exclusive) (hI : D.Inv phase s) (hF : D.Fresh s)
    (h : D.Moves s t) : D.Fresh t := by
  induction h with
  | refl => exact hF
  | tail hfirst hstep ih => exact fresh_move (inv_moves hex hI hfirst) ih hstep

/-- The copies of the entries `write_ready` passes are finished, so they are not ready
for the next lap. -/
theorem fresh_handMove (hex : D.Exclusive) (hI : D.Inv phase s) (hF : D.Fresh s)
    (h : D.HandMove s t) : D.Fresh t := by
  obtain ⟨hmade, hbuf, -, -, -⟩ := h.frame
  have hfetched : t.fetched = s.fetched := by cases h <;> rfl
  constructor
  · intro k hk hk' hr
    rw [hmade] at hk
    rw [copy, hbuf] at hr ⊢
    rw [fetchOf, hfetched]
    rcases Nat.lt_or_ge k (s.handed.length + D.slots) with hlt | hge
    · exact hF.copies k hk hlt hr
    · obtain ⟨j, rfl⟩ : ∃ j, k = j + D.slots := ⟨k - D.slots, by omega⟩
      have hdone := h.done hex hI (k := j) (by omega) (by omega)
      rw [← copy, Inv.copy_add_slots] at hr
      exact absurd hdone (hex _ hr)
  · intro k r hr
    rw [hmade] at hr
    exact hF.made k r hr

theorem fresh_handMoves (hex : D.Exclusive) (hI : D.Inv phase s) (hF : D.Fresh s)
    (h : D.HandMoves s t) : D.Fresh t := by
  induction h with
  | refl => exact hF
  | tail hfirst hstep ih => exact fresh_handMove hex (inv_handMoves hex hI hfirst) ih hstep

/-- A read lands in copies of the lap it was started for. -/
theorem fresh_dmaRead (hI : D.Inv phase s) (hF : D.Fresh s) {i : ℕ} {data : ℕ → α}
    (h : dmaRead s i data = some t) : D.Fresh t := by
  obtain ⟨off, size, snap, hcomp, ht⟩ := dmaRead_eq_some h
  have hmade : t.made = s.made := by rw [ht]; rfl
  have hhanded : t.handed = s.handed := by rw [ht]; rfl
  have hcopy : ∀ k, D.copy t k = if D.blocks.blk k % D.n = i ∧ off ≤ D.offset k ∧
      D.offset k < off + size then data (D.offset k) else D.copy s k := fun k => by
    rw [← copy_landed s i off size data k, ht]
    rfl
  have hfetch : ∀ k, D.fetchOf t k = if D.blocks.blk k % D.n = i ∧ off ≤ D.offset k ∧
      D.offset k < off + size then some ⟨data (D.offset k), snap⟩ else D.fetchOf s k := fun k => by
    rw [ht, fetchOf, fetchOf]
    by_cases hki : D.blocks.blk k % D.n = i
    · simp only [hki, Function.update_self, true_and]
    · simp only [Function.update_of_ne hki, hki, false_and, if_false]
  constructor
  · intro k hk hk' hr
    rw [hmade] at hk
    rw [hhanded] at hk'
    rw [hcopy] at hr ⊢
    rw [hfetch]
    by_cases hin : D.blocks.blk k % D.n = i ∧ off ≤ D.offset k ∧ D.offset k < off + size
    · rw [if_pos hin, if_pos hin]
      exact ⟨_, rfl, rfl,
        (hI.blk_of_landing hcomp hin.1 hin.2.1 (hI.cursors.handed_le.trans hk) hk').2.2⟩
    · rw [if_neg hin] at hr ⊢
      rw [if_neg hin]
      exact hF.copies k hk hk' hr
  · rw [hmade]
    exact hF.made

/-- A worker stores to an entry of the window, so to no copy that was not passed. -/
theorem fresh_put (hI : D.Inv phase s) (hF : D.Fresh s) {k : ℕ} {v : α} (hk : phase k = .working) :
    D.Fresh { s with
      buf := Function.update s.buf (D.blocks.blk k % D.n)
        (Function.update (s.buf (D.blocks.blk k % D.n)) (D.offset k) v) } := by
  obtain ⟨hlo, hhi⟩ := hI.mem_window hk
  refine ⟨fun j hj hj' hr => ?_, hF.made⟩
  have hj₁ : s.made.length ≤ j := hj
  have hj₂ : j < s.handed.length + D.slots := hj'
  have hcopy := copy_put (D := D) s k v j
  rw [if_neg (mod_ne_of_window (by omega) (by omega)).symm] at hcopy
  have hready : D.readyScan (D.copy s j) := by
    rw [← hcopy]
    exact hr
  obtain ⟨f, hf, hdata, hgood⟩ := hF.copies j hj₁ hj₂ hready
  exact ⟨f, hf, hdata.trans hcopy.symm, hgood⟩

/-- Every event brings entries into the window only as they were read. -/
theorem fresh_sysStep (hex : D.Exclusive) {fuel : ℕ} {s t : Sys α} {e : Event α}
    (hI : D.Inv s.phase s.q) (hF : D.Fresh s.q) (h : D.sysStep fuel s e = some t) :
    D.Fresh t.q := by
  obtain ⟨hallowed, hstep, -⟩ := sysStep_eq_some h
  have hmoves := step_moves hI.cursors hstep
  cases e with
  | initiateWrite => exact fresh_handMoves hex hI hF (hmoves.1 rfl)
  | dmaRead i data => exact fresh_dmaRead hI hF hstep
  | dmaWrite i =>
      obtain ⟨lo, hi, -, ht⟩ := dmaWrite_eq_some hstep
      rw [ht]
      exact hF.congr rfl rfl rfl rfl
  | store k v =>
      have hgo : s.phase k = .working ∧ ¬ D.doneScan v := by simpa [allowed] using hallowed
      rw [← Option.some.inj hstep]
      exact fresh_put hI hF hgo.1
  | finish k v =>
      have hgo : s.phase k = .working ∧ D.doneScan v := by simpa [allowed] using hallowed
      rw [← Option.some.inj hstep]
      exact fresh_put hI hF hgo.1
  | count k now =>
      rw [← Option.some.inj hstep]
      exact hF.congr rfl rfl rfl rfl
  | _ => exact fresh_moves hex hI hF (hmoves.2 (by simp [actionOf]))

/-- **Prefetching destroys nothing and misreports nothing.**  After every run from
buffers with no ready entry in which each `smart_dma_write` comes before its segment
is finished:

* no byte of a read under way is in an entry of the window, or between the `min` and
  `max` of a segment;
* every entry that entered the window was ready in data a read brought, and when that
  read was started, the write-back of the entry's lap before had completed. -/
theorem prefetch_safe (D : Device α) (hex : D.Exclusive) (buf : ℕ → ℕ → α)
    (hbuf : ∀ i off, ¬ D.readyScan (buf i off)) (now fuel : ℕ) (es : List (Event α)) (s : Sys α)
    (hC : Meets (D.sysStep fuel) D.CountInTime (D.sysCreate buf now) es)
    (h : run (D.sysStep fuel) (D.sysCreate buf now) es = some s) :
    (∀ i off size snap, (s.q.seg i).comp = .read off size snap false →
      ∀ a, D.segAddr i + off ≤ a → a < D.segAddr i + off + size →
        (∀ k, s.q.handed.length ≤ k → k < s.q.made.length →
          ¬ (D.pos k ≤ a ∧ a < D.pos k + D.overlap)) ∧
        ∀ j < D.n, ¬ ((s.q.seg j).min ≤ a ∧ a < (s.q.seg j).max)) ∧
    ∀ k r, s.q.made[k]? = some r →
      ∃ f, r = some f ∧ D.readyScan f.data ∧ (D.slots ≤ k → f.backed (k - D.slots)) := by
  have hcreate : D.Fresh (D.create buf now) :=
    ⟨fun k _ _ hr => absurd hr (hbuf _ _), fun k r hr => by simp [create] at hr⟩
  obtain ⟨hI, hF⟩ := run_invariant_of_meets (P := fun s => D.Inv s.phase s.q ∧ D.Fresh s.q)
    (fun _ _ _ hIF hC h => ⟨inv_sysStep hex hIF.1 hC h, fresh_sysStep hex hIF.1 hIF.2 h⟩)
    ⟨inv_sysCreate buf now, hcreate⟩ hC h
  exact ⟨fun i off size snap hcomp a ha ha' => hI.read_disjoint hcomp ha ha', hF.made⟩

/-! ## Runs of small queues -/

/-- The fetch of a segment from its start is under way. -/
def readsFirst : Comp → Bool
  | .read 0 2048 _ false => true
  | _ => false

/-- Four entries are worked on and handed back, and the first segment is read again after
it was written back; then the second segment is being read. -/
def nextLap : List (Event Mark) :=
  let R : ℕ → Mark := fun _ => .READY
  [.prefetch false, .prefetch true, .dmaRead 0 R, .dmaRead 1 R, .handleReading,
    .obtain 0, .finish 0 .DONE, .count 0 1, .obtain 1, .finish 1 .DONE, .count 1 2,
    .initiateWrite, .exeWrite, .dmaWrite 0, .dmaWrite 1, .handleWriting, .prefetch false,
    .prefetch true, .dmaRead 2 R, .dmaRead 3 R, .handleReading, .obtain 2, .finish 2 .DONE,
    .count 2 3, .initiateWrite, .prefetch false, .dmaRead 0 R, .handleReading,
    .obtain 3, .finish 3 .DONE, .count 3 4, .initiateWrite, .prefetch false]

/-- In the second lap, while the second segment is read, the fifth entry is in the window and
none of its bytes are touched, and the write-back of the first entry, which lies at the same
address, had completed when the fifth was read. -/
theorem prefetch_safe_fourEntries :
    ∃ s, run (fourEntries.sysStep 6) (fourEntries.sysCreate (fun _ _ => .BUSY) 0) nextLap = some s ∧
      s.q.made.length = 5 ∧ s.q.handed.length = 4 ∧
      (∀ k, 4 ≤ k → k < 5 → ¬ (fourEntries.pos k ≤ 6144 ∧ 6144 < fourEntries.pos k + 2048)) ∧
      ∃ f, s.q.made[4]? = some (some f) ∧ f.data = .READY ∧ f.backed 0 = true := by
  obtain ⟨s, hs, hobs⟩ := Option.map_eq_some_iff.1 (show (run (fourEntries.sysStep 6)
    (fourEntries.sysCreate (fun _ _ => .BUSY) 0) nextLap).map
        (fun s => (s.q.made.length, s.q.handed.length, readsFirst (s.q.seg 1).comp)) =
          some (5, 4, true) by decide +kernel)
  obtain ⟨hmade, hobs⟩ := Prod.mk.inj hobs
  obtain ⟨hhanded, hread⟩ := Prod.mk.inj hobs
  have hsafe := prefetch_safe fourEntries fourEntries_exclusive (fun _ _ => .BUSY)
    (fun _ _ => by decide) 0 6 _ s
    (Meets.of_meets (fun _ _ h => (InTime.of_inTime h).1) (by decide +kernel)) hs
  rw [hmade, hhanded] at hsafe
  obtain ⟨r, hr⟩ : ∃ r, s.q.made[4]? = some r := by
    rw [List.getElem?_eq_getElem (by omega)]
    exact ⟨_, rfl⟩
  obtain ⟨f, rfl, hf, hbacked⟩ := hsafe.2 4 r hr
  refine ⟨s, hs, hmade, hhanded, ?_, f, hr, of_decide_eq_true hf, hbacked (by decide)⟩
  unfold readsFirst at hread
  split at hread
  · next snap hcomp => exact (hsafe.1 1 _ _ _ hcomp 6144 (by decide) (by decide)).1
  · cases hread

/-- The run `lateCount`, after which the fifth entry was passed unfinished, goes on until
that entry's place is passed again. -/
def staleEntry : List (Event Mark) :=
  let R : ℕ → Mark := fun _ => .READY
  lateCount ++
    [.dmaWrite 1, .handleWriting, .exeWrite, .dmaWrite 2, .dmaWrite 3, .handleWriting,
      .prefetch false, .prefetch true, .dmaRead 1 R, .dmaRead 2 R, .handleReading,
      .obtain 5, .finish 5 .DONE, .count 5 2000005, .obtain 6, .finish 6 .DONE, .count 6 2000006,
      .initiateWrite, .prefetch false, .dmaRead 3 R, .handleReading]

/-- Whether the fifth entry was written back when a fetch was started. -/
def backedFifth : Option (Option (Fetch Mark)) → Option Bool
  | some (some f) => some (f.backed 4)
  | _ => none

/-- **An entry can enter the window as a stale local copy.**  After a late
`smart_dma_write` the ninth entry was passed on a fetch that was started before the
fifth, which lies at the same address, was written back. -/
theorem prefetch_stale :
    ∃ s, run (fourEntries.sysStep 20) (fourEntries.sysCreate (fun _ _ => .BUSY) 0) staleEntry
      = some s ∧ ∃ f, s.q.made[8]? = some (some f) ∧ f.backed 4 = false := by
  obtain ⟨s, hs, hobs⟩ := Option.map_eq_some_iff.1 (show (run (fourEntries.sysStep 20)
    (fourEntries.sysCreate (fun _ _ => .BUSY) 0) staleEntry).map
      (fun s => backedFifth s.q.made[8]?) = some (some false) by decide +kernel)
  refine ⟨s, hs, ?_⟩
  unfold backedFifth at hobs
  split at hobs
  · next f hf => exact ⟨f, hf, Option.some.inj hobs⟩
  · cases hobs

end Device
end Nic
end Floem
