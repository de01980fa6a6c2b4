import Floem.Ialloc.Clean

/-!
# Calls return

* `segmentAlloc_of_left` — `segment_alloc` returns while there is a segment left.
* `cleanLoop_stops` — the loop over the items ends because its condition fails.
* `step_isSome` — no assertion fails in a possible call that fits, and its loops end.
-/

namespace Floem
open Lib

namespace Ialloc

variable {S : Settings} {s s' : State} {members : Place → List ℕ} {a : ℕ}

/-! ## Segments that are left -/

theorem Supplied.left (h : Supplied S s) : Left S s := by
  rcases h with hlt | ⟨h, hfree, -⟩
  · exact .inr (by omega)
  · exact .inl (by rw [hfree]; simp)

/-- Only the free list and the number of segments matter. -/
theorem Supplied.congr (h : Supplied S s) (hfree : s'.freeSegments = s.freeSegments)
    (halloc : s'.segAlloced = s.segAlloced) (hnext : s'.next = s.next) : Supplied S s' := by
  rw [Supplied, hfree, halloc]
  refine h.imp_right fun ⟨h, hh, hmore⟩ => ⟨h, hh, hmore.imp_left fun hne => ?_⟩
  rwa [show (s'.header h).next = (s.header h).next from congrFun hnext h]

/-- **`segment_alloc`** returns while there is a segment left, and leaves one of two. -/
theorem segmentAlloc_of_left (hleft : Left S s) (malloc : Bool) (core : ℕ) :
    ∃ s' r, segmentAlloc S malloc core s = some (s', r) ∧ (malloc = true → r ≠ none) ∧
      (Supplied S s → Left S s') := by
  rw [segmentAlloc]
  cases hfree : s.freeSegments with
  | some h =>
      refine ⟨_, _, rfl, fun _ => Option.some_ne_none h, fun hsupplied => ?_⟩
      rcases hsupplied with hlt | ⟨g, hg, hmore⟩
      · exact .inr (Nat.lt_of_succ_lt hlt)
      · obtain rfl := Option.some.inj (hfree.symm.trans hg)
        exact hmore
  | none =>
      have hlt : s.segAlloced < S.segmaxnum := hleft.resolve_left fun hne => hne hfree
      have hmore : Supplied S s → s.segAlloced + 1 < S.segmaxnum := by
        rintro (hlt | ⟨g, hg, -⟩)
        · exact hlt
        · rw [hfree] at hg
          cases hg
      dsimp only
      rw [if_neg (Nat.not_le.2 hlt)]
      cases malloc with
      | true => exact ⟨_, _, rfl, fun _ => Option.some_ne_none _, fun h => .inr (hmore h)⟩
      | false => exact ⟨_, _, rfl, fun hfalse => (by cases hfalse), fun h => .inr (hmore h)⟩

/-- The reserve of an allocator is filled, and a segment is left. -/
theorem reserve_of_supplied (hsupplied : Supplied S s) (malloc : Bool) :
    ∃ s', reserve S malloc a s = some s' ∧ Left S s' := by
  rw [reserve]
  split_ifs
  · obtain ⟨t, r, ht, -, hmore⟩ := segmentAlloc_of_left hsupplied.left malloc (s.ia a).coreId
    exact ⟨t.setIa a fun x => { x with reserved := r }, by rw [ht]; rfl, hmore hsupplied⟩
  · exact ⟨s, rfl, hsupplied.left⟩

theorem takeSegment_of_left (hleft : Left S s) (malloc cleanup : Bool) :
    ∃ r, takeSegment S malloc a cleanup s = some r := by
  obtain ⟨t, r, ht, -, -⟩ := segmentAlloc_of_left hleft malloc (s.ia a).coreId
  rw [takeSegment, ht]
  cases r with
  | some h => exact ⟨_, rfl⟩
  | none => cases cleanup <;> exact ⟨_, rfl⟩

/-! ## The loop over the items -/

/-- **The loop over the items** ends because its condition fails: every round reads on by an
item. -/
theorem cleanLoop_stops {data size n : ℕ} {c : Clean} (hn : size - c.off ≤ n) :
    ¬ ((cleanLoop S data size n c).off < size ∧
      (cleanLoop S data size n c).cq (cleanLoop S data size n c).idx = none) := by
  induction n generalizing c with
  | zero =>
      rw [cleanLoop]
      omega
  | succ n ih =>
      have hitem : ∀ mem it, 0 < itemTotalsz mem it := fun mem it => by
        rw [itemTotalsz, itemSize]
        omega
      have hpos := hitem (itemTryref c.mem (data + c.off)).1 (data + c.off)
      rw [cleanLoop]
      dsimp only
      split_ifs with hroom hrest hgot
      · exact fun h => absurd h.1 (Nat.lt_irrefl _)
      · exact ih (by dsimp only; omega)
      · exact ih (by dsimp only; omega)
      · exact hroom

/-! ## The calls -/

/-- **`ialloc_alloc`** returns. -/
theorem alloc_isSome (hS : Sound S s members) (hsize : S.segsize < 2 ^ 32)
    (hready : s.ready a = true) {kl vl : ℕ} {cleanup malloc : Bool}
    (hfits : Fits s (.alloc a kl vl cleanup malloc))
    (hle : itemSize + kl + vl ≤ S.segsize) (hleft : Left S s) :
    (iallocAlloc S malloc a (itemSize + kl + vl) cleanup s).isSome := by
  rw [iallocAlloc, if_neg (Nat.not_lt.2 hle)]
  split_ifs with hreserve
  · rfl
  · obtain ⟨old, hcur⟩ : ∃ old, (s.ia a).cur = some old := by
      refine Option.ne_none_iff_exists'.1 fun hnone => ?_
      refine hS.inv.started a hready (List.getLast?_eq_none_iff.1 ?_)
      rw [← hS.inv.cur]
      exact hnone
    have hold := hS.inv.mem_of_cur (k := false) hcur
    obtain ⟨⟨t, q⟩, ht⟩ := Option.isSome_iff_exists.1
      (itemAlloc_isSome hS hsize hold (itemSize + kl + vl))
    rw [hcur, Option.bind_eq_bind, Option.bind_some, Option.bind_eq_bind, ht, Option.bind_some]
    cases q with
    | some it => rfl
    | none =>
        obtain ⟨hia, hready', hfree, halloc⟩ := itemAlloc_same ht
        have hgap : room s old < itemSize + kl + vl → room s old < itemSize + 2 ^ 16 :=
          hfits old hcur (by
            cases hc : cleanup with
            | true => exact .inr rfl
            | false => exact .inl fun hnone => hreserve ⟨hnone, hc⟩)
        obtain ⟨hT, hfull⟩ := (itemAlloc_spec hS hsize hold (by omega) hgap ht).none rfl
        have hleft' : Left S t := by
          rw [Left, hfree, halloc]
          exact hleft
        obtain ⟨⟨u, q⟩, hu⟩ := takeSegment_of_left (a := a) hleft' malloc cleanup
        dsimp only
        rw [hu, Option.bind_some]
        cases q with
        | none => rfl
        | some h =>
            obtain ⟨members', hnext, hmem, -⟩ := takeSegment_next hT hsize
              (by rw [hready', hready]) (by rw [hia]; exact hcur) hfull hu
            exact itemAlloc_isSome hnext hsize hmem _

/-- **`ialloc_nicsegment_alloc`** returns. -/
theorem nicsegmentAlloc_isSome (hsupplied : Supplied S s) (malloc malloc' : Bool) :
    (iallocNicsegmentAlloc S malloc malloc' a s).isSome := by
  obtain ⟨t, ht, hleft⟩ := reserve_of_supplied (a := a) hsupplied malloc
  rw [iallocNicsegmentAlloc, ht, Option.bind_eq_bind, Option.bind_some]
  split_ifs
  · rfl
  · obtain ⟨u, r, hu, -, -⟩ := segmentAlloc_of_left hleft malloc' (t.ia a).coreId
    rw [nextNic, hu]
    cases r <;> rfl

/-- **`ialloc_cleanup_item`** returns. -/
theorem cleanupItem_isSome (hsupplied : Supplied S s) (malloc idle : Bool) :
    (iallocCleanupItem S malloc a idle s).isSome := by
  rw [iallocCleanupItem]
  by_cases hlimit : idle = false ∧ 32 ≤ (s.ia a).cleanupCount
  · rw [if_pos hlimit]
    rfl
  · rw [if_neg hlimit, Option.isSome_map]
    -- counting and taking an item leave the segments alone
    refine Option.isSome_iff_exists.2 ?_
    obtain ⟨t, ht, -⟩ := reserve_of_supplied (a := a)
      (s := takeCleanup S a (if idle then s
        else s.setIa a fun x => { x with cleanupCount := x.cleanupCount + 1 }))
      (hsupplied.congr (by rw [takeCleanup]; split_ifs <;> rfl)
        (by rw [takeCleanup]; split_ifs <;> rfl) (by rw [takeCleanup]; split_ifs <;> rfl)) malloc
    exact ⟨t, ht⟩

/-- **No assertion fails** in a possible call that fits, and its loops end. -/
theorem step_isSome (hS : Sound S s members) (hsize : S.segsize < 2 ^ 32) {c : Call}
    (hpossible : Possible S s c) (hfits : Fits s c) : (step S s c).isSome := by
  cases c with
  | initAllocator a malloc =>
      obtain ⟨hready, rfl, hsupplied⟩ := hpossible
      have hzero : Supplied S (s.setIa a fun _ => .zero) := hsupplied.congr rfl rfl rfl
      obtain ⟨t, r, ht, hr, -⟩ := segmentAlloc_of_left hzero.left true 0
      obtain ⟨h, rfl⟩ := Option.ne_none_iff_exists'.1 (hr rfl)
      rw [step, if_neg (by rw [hready]; simp), iallocInitAllocator, ht]
      rfl
  | alloc a kl vl cleanup malloc =>
      obtain ⟨hready, hkl, hvl, hle, hsupplied⟩ := hpossible
      rw [step, if_pos ⟨hready, hkl, hvl⟩, Option.isSome_map]
      exact alloc_isSome hS hsize hready hfits hle hsupplied.left
  | nicsegmentAlloc a malloc malloc' =>
      rw [step, if_pos hpossible.1, Option.isSome_map]
      exact nicsegmentAlloc_isSome hpossible.2 malloc malloc'
  | segmentItemAlloc h kl vl =>
      obtain ⟨hkl, hvl, hnic⟩ := hpossible
      rw [step, if_pos ⟨hkl, hvl⟩, Option.isSome_map]
      exact Option.isSome_iff_ne_none.2 hnic
  | nicsegmentFull h =>
      obtain ⟨off, hoff⟩ := Option.ne_none_iff_exists'.1 hpossible
      obtain ⟨hend, -, b, hh⟩ := hS.inv.nic h off hoff
      have hfill := (hS.inv.held h (hS.inv.known _ h hh)).fits
      rw [step, hoff, Option.bind_some, nicsegmentFull_eq hS hsize hoff (hfits off hoff).1
        (show off + (S.segsize - off) = S.segsize by omega)]
      rfl
  | free h k =>
      obtain ⟨p, hp⟩ := Option.ne_none_iff_exists'.1 hpossible
      rw [step, hp, Option.bind_some, iallocFree_eq hS hsize hp]
      rfl
  | write h k j b =>
      obtain ⟨p, hp, hj⟩ := hpossible
      rw [step, hp, Option.bind_some, if_pos hj]
      rfl
  | cleanupItem a idle malloc =>
      rw [step, if_pos hpossible.1, Option.isSome_map]
      exact cleanupItem_isSome hpossible.2 malloc idle
  | cleanupNextrequest a =>
      have hready : s.ready a = true := hpossible
      rw [step, if_pos hready]
      rfl
  | maintenance a =>
      have hready : s.ready a = true := hpossible
      obtain ⟨t, -, ht, -⟩ := maintenance_spec hS hready hfits
      rw [step, if_pos hready, ht]
      rfl

end Ialloc
end Floem
