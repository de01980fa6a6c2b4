import Floem.Nic.Calls

/-!
# The window between the cursors

What the workers can rely on when they ask for an entry: `smart_dma_read` answers
with a pointer exactly for the addresses of the entries that were made ready and not
yet handed back.

* `isReadReady_iff` — the three comparisons of `is_read_ready` describe the window.
* `cursor_window` — the cursors and the window after every run.
-/

namespace Floem
namespace Nic
namespace Device

open Lib

variable {α : Type} {D : Device α} {s : State α} {a : ℕ}

/-- **`is_read_ready` is the window.**  For an address of the storage it says whether
the entry there was made ready and not handed back. -/
theorem isReadReady_iff (hc : D.Cursors s) (ha : D.addr ≤ a) (ha' : a < D.addr + D.size) :
    isReadReady s a ↔ ∃ k, s.handed.length ≤ k ∧ k < s.made.length ∧
      D.pos k ≤ a ∧ a < D.pos k + D.overlap := by
  have hj : (a - D.addr) / D.overlap < D.slots := by
    rw [Nat.div_lt_iff_lt_mul D.overlap_pos]
    have : D.size = D.slots * D.overlap := rfl
    omega
  -- addresses compare as the cells do
  have hle : ∀ k, D.pos k ≤ a ↔ k % D.slots ≤ (a - D.addr) / D.overlap := fun k => by
    rw [Nat.le_div_iff_mul_le D.overlap_pos, Layout.pos]
    omega
  have hlt : ∀ k, a < D.pos k ↔ (a - D.addr) / D.overlap < k % D.slots := fun k => by
    rw [← not_le, hle, not_le]
  have hpos : ∀ j k, D.pos j < D.pos k ↔ j % D.slots < k % D.slots := fun j k => by
    rw [Layout.pos, Layout.pos, Nat.add_lt_add_iff_left, Nat.mul_lt_mul_right D.overlap_pos]
  have hwin := exists_ticket_in_window_iff hc.handed_le hc.made_lt hj
  simp only [D.mem_pos_iff ha]
  rw [hwin, isReadReady, hc.write_eq, hc.read_eq]
  have heq : D.pos s.handed.length = D.pos s.made.length ↔ _ := D.pos_inj
  by_cases h1 : s.handed.length % D.slots = s.made.length % D.slots
  · rw [if_pos (heq.2 h1)]
    simp [h1]
  · rw [if_neg (fun h => h1 (heq.1 h))]
    by_cases h2 : s.handed.length % D.slots < s.made.length % D.slots
    · rw [if_pos ((hpos _ _).2 h2), decide_eq_true_iff, hle, hlt]
      omega
    · rw [if_neg (fun h => h2 ((hpos _ _).1 h)), decide_eq_true_iff, hle, hle, hlt, hlt]
      omega

/-- `find_segment` finds the segment an address lies in. -/
theorem findSegment_spec (ha : D.addr ≤ a) (ha' : a < D.addr + D.size) :
    D.findSegment a < D.n ∧ D.segAddr (D.findSegment a) ≤ a ∧
      a < D.segAddrMax (D.findSegment a) := by
  have hlow := Nat.div_mul_le_self (a - D.addr) D.blockSize
  have hhigh := Nat.lt_div_mul_add (a := a - D.addr) D.blockSize_pos
  have hcover := D.segments_cover.2
  refine ⟨?_, ?_, ?_⟩
  · rw [findSegment, Nat.div_lt_iff_lt_mul D.blockSize_pos]
    omega
  · rw [findSegment, Layout.segAddr]
    omega
  · rw [findSegment, Layout.segAddrMax, Layout.segAddr, Layout.segSize]
    split_ifs <;> omega

/-- **The cursors and their window.**  After every run of the manager and the
workers, whatever the entries hold and whenever transfers complete, with `R` entries
made ready and `W` handed back:

* each cursor is the address of the entry `R` or `W` and lies, with that entry, in
  the segment of its index;
* `W ≤ R` and `R` is less than a lap ahead, so neither cursor overtakes the other,
  and the cursors are equal only if no entry lies between them;
* `smart_dma_read` returns a pointer exactly for the addresses inside the entries
  from `W` up to `R`, and the pointer is to that address's byte of its segment. -/
theorem cursor_window (D : Device α) (buf : ℕ → ℕ → α) (now fuel : ℕ) (as : List (Action α))
    (s : State α) (h : run (D.step fuel) (D.create buf now) as = some s) :
    (s.readReady = D.addr + s.made.length % D.slots * D.overlap ∧ s.readReadySeg < D.n ∧
      D.segAddr s.readReadySeg ≤ s.readReady ∧
      s.readReady + D.overlap ≤ D.segAddrMax s.readReadySeg) ∧
    (s.writeReady = D.addr + s.handed.length % D.slots * D.overlap ∧ s.writeReadySeg < D.n ∧
      D.segAddr s.writeReadySeg ≤ s.writeReady ∧
      s.writeReady + D.overlap ≤ D.segAddrMax s.writeReadySeg) ∧
    (s.handed.length ≤ s.made.length ∧ s.made.length < s.handed.length + D.slots ∧
      (s.writeReady = s.readReady ↔ s.handed.length = s.made.length)) ∧
    ∀ a, D.addr ≤ a → a < D.addr + D.size →
      ((D.smartDmaRead s a).2 ≠ none ↔ ∃ k, s.handed.length ≤ k ∧ k < s.made.length ∧
        D.pos k ≤ a ∧ a < D.pos k + D.overlap) ∧
      ∀ p, (D.smartDmaRead s a).2 = some p →
        p.1 < D.n ∧ D.segAddr p.1 + p.2 = a ∧ a < D.segAddrMax p.1 := by
  have hc := cursors_run h
  have hread := D.pos_mem s.made.length
  have hwrite := D.pos_mem s.handed.length
  have hsome : ∀ a, (D.smartDmaRead s a).2 =
      if isReadReady s a then some (D.findSegment a, a - D.segAddr (D.findSegment a))
      else none := fun a => by
    rw [smartDmaRead]
    by_cases hr : isReadReady s a
    · rw [if_pos hr]
      exact congrArg Prod.snd (if_pos hr)
    · rw [if_neg hr]
      exact congrArg Prod.snd (if_neg hr)
  refine ⟨⟨hc.read_eq, ?_, ?_, ?_⟩, ⟨hc.write_eq, ?_, ?_, ?_⟩,
    ⟨hc.handed_le, hc.made_lt, hc.eq_iff⟩, fun a ha ha' => ⟨?_, fun p hp => ?_⟩⟩
  · rw [hc.readSeg_eq]; exact Nat.mod_lt _ D.n_pos
  · rw [hc.readSeg_eq, hc.read_eq]; exact hread.1
  · rw [hc.readSeg_eq, hc.read_eq]; exact hread.2
  · rw [hc.writeSeg_eq]; exact Nat.mod_lt _ D.n_pos
  · rw [hc.writeSeg_eq, hc.write_eq]; exact hwrite.1
  · rw [hc.writeSeg_eq, hc.write_eq]; exact hwrite.2
  · rw [← isReadReady_iff hc ha ha', hsome a]
    by_cases hr : isReadReady s a <;> simp [hr]
  · obtain ⟨h1, h2, h3⟩ := findSegment_spec ha ha'
    rw [hsome a] at hp
    split_ifs at hp
    obtain rfl := Option.some.inj hp
    exact ⟨h1, by dsimp only; omega, h3⟩

end Device

/-! ## A queue of four entries -/

/-- What the scan functions tell apart in an entry: ready for a worker, being worked
on, finished. -/
inductive Mark
  | READY | BUSY | DONE
  deriving DecidableEq, Repr

/-- The smallest queue: four segments of one entry each. -/
def fourEntries : Device Mark where
  addr := 4096
  overlap := 2048
  slots := 4
  overlap_pos := by decide
  overlap_le := by decide
  size_ge := by decide
  readyScan m := m = .READY
  doneScan m := m = .DONE

namespace Device

/-- Four entries are made ready and three of them handed back; then the first segment is
written back and read again. -/
def secondLap : List (Action Mark) :=
  let R : ℕ → Mark := fun _ => .READY
  [.prefetch false, .prefetch true, .dmaRead 0 R, .dmaRead 1 R, .handleReading,
    .store 0 0 .DONE, .smartDmaWrite 4096 1, .store 1 0 .DONE, .smartDmaWrite 6144 2,
    .initiateWrite, .exeWrite, .dmaWrite 0, .dmaWrite 1, .handleWriting, .prefetch false,
    .prefetch true, .dmaRead 2 R, .dmaRead 3 R, .handleReading, .store 2 0 .DONE,
    .smartDmaWrite 8192 3, .initiateWrite, .prefetch false, .dmaRead 0 R, .handleReading]

/-- In the second lap, the first address is in the window again, for the fifth entry, and
the second is not. -/
theorem cursor_window_fourEntries :
    ∃ s, Lib.run (fourEntries.step 6) (fourEntries.create (fun _ _ => .BUSY) 0) secondLap = some s ∧
      s.made.length = 5 ∧ s.handed.length = 3 ∧
      s.readReady = 6144 ∧ s.writeReady = 10240 ∧
      ((fourEntries.smartDmaRead s 4096).2 ≠ none ↔ ∃ k, 3 ≤ k ∧ k < 5 ∧
        fourEntries.pos k ≤ 4096 ∧ 4096 < fourEntries.pos k + 2048) ∧
      ((fourEntries.smartDmaRead s 6144).2 ≠ none ↔ ∃ k, 3 ≤ k ∧ k < 5 ∧
        fourEntries.pos k ≤ 6144 ∧ 6144 < fourEntries.pos k + 2048) := by
  obtain ⟨s, hs, hlen⟩ := Option.map_eq_some_iff.1 (show (Lib.run (fourEntries.step 6)
    (fourEntries.create (fun _ _ => .BUSY) 0) secondLap).map
      (fun s => (s.made.length, s.handed.length)) = some (5, 3) by decide +kernel)
  obtain ⟨hmade, hhanded⟩ := Prod.mk.inj hlen
  obtain ⟨⟨hread, -⟩, ⟨hwrite, -⟩, -, hwin⟩ := cursor_window fourEntries _ 0 6 _ s hs
  rw [hmade] at hread
  rw [hhanded] at hwrite
  rw [hmade, hhanded] at hwin
  exact ⟨s, hs, hmade, hhanded, hread, hwrite, (hwin 4096 (by decide) (by decide)).1,
    (hwin 6144 (by decide) (by decide)).1⟩

end Device
end Nic
end Floem
