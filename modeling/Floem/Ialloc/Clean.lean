import Floem.Ialloc.Sweep

/-!
# The segment that is cleaned

* `cleanLoop_spec` — the loop over the items reads them one after the other.
* `startCleaning_spec`, `cleanSegment_spec` — another segment, and the next items of a segment.
* `maintenance_spec` — `ialloc_maintenance` comes to an end and keeps the invariant.
-/

namespace Floem
open Lib

namespace Ialloc

variable {S : Settings} {s : State} {members : Place → List ℕ} {h a : ℕ} {l : List Piece}

/-! ## The loop over the items -/

/-- `item_tryref` leaves the lengths alone. -/
theorem tryref_outside {mem : ℕ → UInt8} {it b : ℕ} (hb : b ≠ it + 16 ∧ b ≠ it + 17) :
    (itemTryref mem it).1 b = mem b := by
  rw [itemTryref]
  split_ifs
  · rfl
  · exact store_of_notMem (by omega)

/-- How far a segment was read. -/
structure Progress (size base : ℕ) (l : List Piece) (mem : ℕ → UInt8) (c : Clean) : Prop where
  reads : Reads size c.mem base 0 l
  outside : ∀ b, b < base ∨ base + size ≤ b → c.mem b = mem b
  read : ∃ before after, l = before ++ after ∧ c.off = total before ∧ c.seen = boundaries 0 before

/-- The next item, or a filler with room for one. -/
theorem Progress.next {size base : ℕ} {mem : ℕ → UInt8} {c : Clean} (hl : total l = size)
    (hc : Progress size base l mem c) (hroom : c.off < size) (hitem : itemSize ≤ size - c.off)
    (cq : ℕ → Option ℕ) (idx : ℕ) : Progress size base l mem
      ⟨(itemTryref c.mem (base + c.off)).1, cq, idx,
        c.off + itemTotalsz (itemTryref c.mem (base + c.off)).1 (base + c.off),
        c.seen ++ [c.off]⟩ := by
  obtain ⟨before, after, rfl, hoff, hseen⟩ := hc.read
  rw [total_append] at hl
  obtain ⟨p, after, rfl⟩ : ∃ p after', after = p :: after' := by
    cases after with
    | nil =>
        rw [total_nil] at hl
        omega
    | cons p after => exact ⟨p, after, rfl⟩
  have hat := hc.reads.at rfl
  have hle := total_le_of_mem (l := before ++ p :: after) rfl
  rw [total_append] at hle
  have hp : itemSize ≤ p.size := by
    cases hfill : p.filler with
    | false => exact hat.item hfill
    | true =>
        have hlast := (hat.last hfill).1
        omega
  have hmem : ∀ b, b ≠ base + c.off + 16 ∧ b ≠ base + c.off + 17 →
      (itemTryref c.mem (base + c.off)).1 b = c.mem b := fun b hb => tryref_outside hb
  have hreads : Reads size (itemTryref c.mem (base + c.off)).1 base 0 (before ++ p :: after) := by
    simp only [itemSize] at hp
    refine hc.reads.write rfl fun b hb => hmem b ?_
    have h16 := hb 16 (by omega) (by decide)
    have h17 := hb 17 (by omega) (by decide)
    rw [hoff]
    exact ⟨h16, h17⟩
  have hlengths := (hreads.at rfl).lengths hp
  rw [Nat.zero_add, ← hoff] at hlengths
  refine ⟨hreads, fun b hb => (hmem b ?_).trans (hc.outside b hb), before ++ [p], after,
    by rw [List.append_assoc]; rfl, ?_, ?_⟩
  · simp only [itemSize] at hitem
    omega
  · rw [hlengths, total_append, total_cons, total_nil, Nat.add_zero, hoff]
  · rw [hseen, boundaries_append, Nat.zero_add, ← hoff, boundaries, if_pos hp, boundaries]

/-- **The loop over the items** stays at their boundaries. -/
theorem cleanLoop_spec {size base n : ℕ} {mem : ℕ → UInt8} {c : Clean} (hl : total l = size)
    (hc : Progress size base l mem c) : Progress size base l mem (cleanLoop S base size n c) := by
  induction n generalizing c with
  | zero => exact hc
  | succ n ih =>
      rw [cleanLoop]
      by_cases hroom : c.off < size ∧ c.cq c.idx = none
      · rw [if_pos hroom]
        by_cases hrest : size - c.off < itemSize
        · -- no room for an item: what is left is a filler, which is not read
          rw [if_pos hrest]
          obtain ⟨before, after, rfl, hoff, hseen⟩ := hc.read
          rw [total_append] at hl
          have hsmall : ∀ p ∈ after, p.size < itemSize := by
            intro p hp
            obtain ⟨l', r', rfl⟩ := List.append_of_mem hp
            have hle := total_le_of_mem (l := l' ++ p :: r') rfl
            omega
          refine ⟨hc.reads, hc.outside, before ++ after, [], by rw [List.append_nil], ?_, ?_⟩
          · rw [total_append]
            exact hl.symm
          · rw [hseen, boundaries_append, boundaries_eq_nil hsmall, List.append_nil]
        · rw [if_neg hrest]
          dsimp only
          split_ifs
          · exact ih (hc.next hl hroom.1 (Nat.not_lt.1 hrest) _ _)
          · exact ih (hc.next hl hroom.1 (Nat.not_lt.1 hrest) _ _)
      · rw [if_neg hroom]
        exact hc

/-! ## Maintenance -/

/-- What changes when another segment is cleaned. -/
theorem startCleaning_same (cand : Option ℕ) : ∃ header : ℕ → Header,
    startCleaning s a cand = { s with
      header := header
      ia := Function.update s.ia a
        { s.ia a with cleaning := cand, cleanOffset := 0, seen := [] } } ∧
    ∀ g, ∃ flag, header g = { s.header g with cleaned := flag } := by
  cases cand with
  | none => exact ⟨s.header, rfl, fun g => ⟨_, rfl⟩⟩
  | some h =>
      refine ⟨Function.update s.header h { s.header h with cleaned := true }, rfl, fun g => ?_⟩
      by_cases hg : g = h
      · rw [hg, Function.update_self]
        exact ⟨true, rfl⟩
      · rw [Function.update_of_ne hg]
        exact ⟨_, rfl⟩

/-- **Another segment** is cleaned. -/
theorem startCleaning_spec (hI : Inv S s members) (hothers : ∀ b, b ≠ a → Cleans s members b)
    (hready : s.ready a = true) {cand : Option ℕ}
    (hcand : ∀ c, cand = some c → Candidate s members a true c) :
    Sound S (startCleaning s a cand) members := by
  obtain ⟨header, hsame, hheader⟩ := startCleaning_same (s := s) (a := a) cand
  rw [hsame]
  generalize ht : ({ s with
    header := header
    ia := Function.update s.ia a
      { s.ia a with cleaning := cand, cleanOffset := 0, seen := [] } } : State) = t
  have hself : t.ia a = { s.ia a with cleaning := cand, cleanOffset := 0, seen := [] } := by
    rw [← ht]
    exact Function.update_self ..
  have hother : ∀ b, b ≠ a → t.ia b = s.ia b := by
    intro b hb
    rw [← ht]
    exact Function.update_of_ne hb ..
  have hia : ∀ b, (∀ k, (t.ia b).oldestOf k = (s.ia b).oldestOf k ∧
      (t.ia b).curOf k = (s.ia b).curOf k) ∧ (t.ia b).reserved = (s.ia b).reserved := by
    intro b
    by_cases hba : b = a
    · rw [hba, hself]
      exact ⟨fun _ => ⟨rfl, rfl⟩, rfl⟩
    · rw [hother b hba]
      exact ⟨fun _ => ⟨rfl, rfl⟩, rfl⟩
  have htheader : t.header = header := by rw [← ht]
  have halike : Alike s t members := by
    refine ⟨fun g => ?_, fun g _ => ?_, by rw [← ht], by rw [← ht], by rw [← ht], by rw [← ht],
      by rw [← ht]⟩
    · obtain ⟨flag, hg⟩ := hheader g
      rw [htheader, hg]
      exact ⟨rfl, rfl, rfl, rfl⟩
    · obtain ⟨flag, hg⟩ := hheader g
      rw [htheader, hg]
  have hnext : ∀ g, t.next g = s.next g := by
    intro g
    obtain ⟨flag, hg⟩ := hheader g
    rw [State.next, htheader, hg]
    rfl
  have hready' : t.ready = s.ready := by rw [← ht]
  refine ⟨hI.relink halike (hI.lists.congr (fun _ g _ => hnext g) fun i => ?_)
    (fun b k => ((hia b).1 k).2.trans (hI.cur b k)) hI.known ?_ ?_ (fun _ _ hg => .inl hg)
    (fun _ _ _ _ hg => hg) ?_ ?_, fun b => ?_⟩
  · cases i with
    | none => rw [← ht]; rfl
    | some l => exact ((hia l.1).1 l.2).1
  · intro b g hg
    rw [(hia b).2] at hg
    exact hI.reserved b g hg
  · intro b c g hb hc
    rw [(hia b).2] at hb
    rw [(hia c).2] at hc
    exact hI.one_reserve b c g hb hc
  · intro b hb
    rw [hready'] at hb
    exact ⟨(hia b).2.trans (hI.idle b hb).1, (hI.idle b hb).2⟩
  · rw [hready']
    exact hI.started
  · by_cases hba : b = a
    · subst hba
      intro c hc
      rw [hself] at hc
      obtain ⟨hinactive, k, -, hk⟩ := hcand c hc
      refine ⟨⟨(halike.header c).2.2.2.trans hinactive, [], t.log c, rfl, ?_, ?_⟩, ?_, k, hk⟩
      · rw [hself]
        rfl
      · rw [hself]
        rfl
      · rw [hready']
        exact hready
    · exact (hothers b hba).relink halike (by rw [hready']; exact id)
        (by rw [hother b hba]; exact ⟨rfl, rfl, rfl⟩) fun _ _ _ hg => hg

/-- **The next items** of the segment that is cleaned. -/
theorem cleanSegment_spec (hS : Sound S s members) (hc : (s.ia a).cleaning = some h) {size : ℕ}
    (hsize : size = 0 ∨ size = S.segsize) : Sound S (cleanSegment S s a h size) members := by
  obtain ⟨⟨hinactive, hread⟩, hready, k, hk⟩ := hS.cleans a h hc
  have hknown := hS.inv.known _ h hk
  have hheld := hS.inv.held h hknown
  have hfull := hS.inv.full _ h hk hinactive
  have hstart : Progress S.segsize (S.segsize * h) (s.log h) s.mem
      ⟨s.mem, (s.ia a).cleanupQueue, (s.ia a).cqTail, (s.ia a).cleanOffset, (s.ia a).seen⟩ :=
    ⟨hheld.reads, fun _ _ => rfl, hread⟩
  have hend : Progress S.segsize (S.segsize * h) (s.log h) s.mem
      (cleanLoop S (S.segsize * h) size size
        ⟨s.mem, (s.ia a).cleanupQueue, (s.ia a).cqTail, (s.ia a).cleanOffset, (s.ia a).seen⟩) := by
    rcases hsize with rfl | rfl
    · exact hstart
    · exact cleanLoop_spec hfull hstart
  rw [cleanSegment, hheld.data]
  generalize cleanLoop S (S.segsize * h) size size _ = c at hend
  obtain ⟨hreads, houtside, before, after, hlog, hoff, hseen⟩ := hend
  -- the counts of references, in memory
  have honly : Only s { s with mem := c.mem } h :=
    ⟨fun _ _ => rfl, fun _ _ => rfl, fun _ _ => rfl, rfl, rfl, rfl, rfl, rfl, rfl⟩
  have hmem : Sound S { s with mem := c.mem } members := by
    refine ⟨hS.inv.change honly (fun g hg j hj => houtside _ ?_) hknown
      ⟨hheld.data, hheld.size, hheld.fits, hheld.freed, hreads⟩
      (fun b hb => absurd hk ((hS.inv.reserved b h hb).2.2 _))
      (fun m hm hi => hS.inv.full m h hm hi) (fun b hb => hS.inv.offset b h hb)
      (fun off hoff => hS.inv.nic h off hoff), fun b =>
        (hS.cleans b).change honly fun hb => ⟨(hS.cleans b h hb).1.inactive, rfl⟩⟩
    by_contra hin
    exact segments_apart (h := h) hj (j := S.segsize * g + j - S.segsize * h) (by omega) hg (by omega)
  refine hmem.setIa (fun _ => ⟨rfl, rfl⟩) (.inr ⟨rfl, .inr fun g hg => ?_⟩) (.inr (.inl rfl))
  obtain rfl := Option.some.inj (hc.symm.trans hg)
  exact ⟨before, after, hlog, hoff, hseen⟩

/-- What comes behind the two loops. -/
theorem maintainCleaning_spec (hw : Swept S a s members) {cand : Option ℕ}
    (hcand : ∀ c, cand = some c → Candidate s members a true c) :
    Sound S (maintainCleaning S a cand s) members := by
  have hstart := startCleaning_spec hw.inv hw.others hw.ready hcand
  have hsize : ∀ h, (s.ia a).cleaning = some h → (s.header h).size = S.segsize := by
    intro h hh
    rcases hw.own with hc | ⟨g, hg, hknown, -⟩
    · obtain ⟨-, -, k, hk⟩ := hc h hh
      exact (hw.inv.held h (hw.inv.known _ h hk)).size
    · obtain rfl := Option.some.inj (hg.symm.trans hh)
      exact (hw.inv.held g hknown).size
  obtain ⟨size, hdef⟩ : ∃ size, ((s.ia a).cleaning.map fun h => (s.header h).size).getD 0 = size :=
    ⟨_, rfl⟩
  have hcases : size = 0 ∨ size = S.segsize := by
    rw [← hdef]
    cases hc : (s.ia a).cleaning with
    | none => exact .inl rfl
    | some h => exact .inr (hsize h hc)
  have hclean : ∀ t, Sound S t members → Sound S (((t.ia a).cleaning.map fun h =>
      cleanSegment S t a h size).getD t) members := by
    intro t ht
    cases hc : (t.ia a).cleaning with
    | none => exact ht
    | some h => exact cleanSegment_spec ht hc hcases
  have hsound : Sound S (if (s.ia a).cleaning = none ∨ (s.ia a).cleanOffset = size then
      startCleaning s a cand else s) members := by
    split_ifs with hnew
    · exact hstart
    · refine ⟨hw.inv, fun b => ?_⟩
      by_cases hba : b = a
      · -- it was not read to its end, so it is still there
        rcases hw.own with hc | ⟨h, hh, -, hoff⟩
        · exact hba ▸ hc
        · refine absurd (.inr ?_) hnew
          rw [hoff, ← hdef, hh, Option.map_some, Option.getD_some, hsize h hh]
      · exact hw.others b hba
  have hend := hclean _ hsound
  rw [maintainCleaning]
  simp only [hdef]
  generalize (if (s.ia a).cleaning = none ∨ (s.ia a).cleanOffset = size then
      startCleaning s a cand else s) = t at hend ⊢
  cases hc : (t.ia a).cleaning with
  | none =>
      rw [hc] at hend
      exact hend
  | some h =>
      rw [hc] at hend
      exact hend

/-- There are fewer members than segments. -/
theorem Inv.length_lt (hI : Inv S s members) (i : Place) :
    (members i).length < s.segAlloced + 1 := by
  have hsub : members i ⊆ List.range s.segAlloced := by
    intro g hg
    exact List.mem_range.2 (hI.headers g g (hI.known i g hg)).2
  have hle := (List.subperm_of_subset (hI.lists.nodup i) hsub).length_le
  rw [List.length_range] at hle
  exact Nat.lt_succ_of_le hle

/-- **`ialloc_maintenance`** comes to an end and keeps the invariant. -/
theorem maintenance_spec (hS : Sound S s members) (hready : s.ready a = true)
    (hfits : ∀ h, (s.ia a).cleaning = some h → (s.header h).freed = (s.header h).size →
      (s.ia a).cleanOffset = (s.header h).size) :
    ∃ s' members', iallocMaintenance S a s = some s' ∧ Sound S s' members' := by
  have hw : Swept S a s members := ⟨hS.inv, fun b _ => hS.cleans b, hready, .inl (hS.cleans a), hfits⟩
  obtain ⟨w, mid, hloop, hmid, hsame, hcand⟩ := sweepLoop_spec false []
    (w := ⟨s, none, (0, 1)⟩) (n := s.segAlloced + 1) hw rfl (hS.inv.length_lt _)
    fun c hc => (by cases hc)
  obtain ⟨w', last, hloop', hlast, -, hcand'⟩ := sweepLoop_spec true []
    (w := w) (n := s.segAlloced + 1) hmid rfl (by rw [← hsame]; exact hmid.inv.length_lt _)
    fun c hc => by
      -- the candidate of the first loop is in the other list
      obtain ⟨hinactive, k, hk, hmem⟩ := hcand c hc
      refine ⟨⟨hinactive, k, hk.trans (Bool.false_le _), hmem⟩, fun hother => ?_⟩
      have heq := hmid.inv.lists.apart _ _ c hmem hother
      obtain rfl : k = true := (Prod.mk.inj (Option.some.inj heq)).2
      cases hk rfl
  have hheads : ∀ {t : State} {m : Place → List ℕ}, Inv S t m → ∀ k,
      (m (some (a, k))).head? = (t.ia a).oldestOf k := fun hI k => (hI.lists.head_eq _).symm
  rw [List.getLast?_nil, hheads hS.inv] at hloop
  rw [List.getLast?_nil, hheads hmid.inv] at hloop'
  refine ⟨_, last, ?_, maintainCleaning_spec hlast hcand'⟩
  rw [iallocMaintenance]
  show (sweepLoop a false (s.segAlloced + 1) none ((s.ia a).oldestOf false) ⟨s, none, (0, 1)⟩).bind _ = _
  rw [hloop, Option.bind_some]
  show (sweepLoop a true (s.segAlloced + 1) none ((w.state.ia a).oldestOf true) w).bind _ = _
  rw [hloop']
  rfl

end Ialloc
end Floem
