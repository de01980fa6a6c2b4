import Floem.Ialloc.Links

/-!
# The loops over the segments

* `unlinked`, `unlinkSegment_spec` — a segment that is taken out of its list comes to the free
  list.
* `Swept`, `sweepLoop_spec` — what a loop keeps, and that it comes to an end.
-/

namespace Floem
open Lib

namespace Ialloc

variable {S : Settings} {s s' : State} {members : Place → List ℕ} {x y a : ℕ} {isNic : Bool}
  {kept rest : List ℕ}

/-! ## One segment -/

/-- The members after a segment was taken out and put on the free list. -/
def unlinked (members : Place → List ℕ) (a : ℕ) (isNic : Bool) (left : List ℕ) (x : ℕ) :
    Place → List ℕ :=
  Function.update (Function.update members (some (a, isNic)) left) none (x :: members none)

theorem unlinked_none {left : List ℕ} :
    unlinked members a isNic left x none = x :: members none := Function.update_self ..

theorem unlinked_self {left : List ℕ} :
    unlinked members a isNic left x (some (a, isNic)) = left := by
  rw [unlinked, Function.update_of_ne (by simp), Function.update_self]

theorem unlinked_of_ne {left : List ℕ} {l : ℕ × Bool} (hl : l ≠ (a, isNic)) :
    unlinked members a isNic left x (some l) = members (some l) := by
  rw [unlinked, Function.update_of_ne (by simp),
    Function.update_of_ne fun heq => hl (Option.some.inj heq)]

/-- What changes when a segment is taken out of its list. -/
structure Unlinks (s s' : State) (a : ℕ) (isNic : Bool) (prev : Option ℕ) (x : ℕ) : Prop where
  header : ∀ g, (s'.header g).data = (s.header g).data ∧ (s'.header g).size = (s.header g).size ∧
    (s'.header g).freed = (s.header g).freed ∧ (s'.header g).inactive = (s.header g).inactive
  offset : ∀ g, g ≠ x → (s'.header g).offset = (s.header g).offset
  next : ∀ g, g ≠ x → s'.next g = if prev = some g then s.next x else s.next g
  next_self : s'.next x = s.freeSegments
  same : s' = { s with header := s'.header, ia := s'.ia, freeSegments := some x }
  other : ∀ b, b ≠ a → s'.ia b = s.ia b
  ia : s'.ia a = if prev = none then (s.ia a).setOldest isNic (s.next x) else s.ia a

theorem unlinkSegment_unlinks {prev : Option ℕ} (hne : prev ≠ some x) :
    Unlinks s (unlinkSegment s a isNic prev x) a isNic prev x := by
  cases prev with
  | none =>
      rw [show unlinkSegment s a isNic none x =
        segmentFree (s.setIa a fun z => z.setOldest isNic (s.next x)) x from rfl]
      refine ⟨fun g => ?_, fun g hg => ?_, fun g hg => ?_, ?_, rfl, fun b hb => Function.update_of_ne hb ..,
        (Function.update_self ..).trans (if_pos rfl).symm⟩
      · by_cases hg : g = x
        · simp [segmentFree, hg]
        · simp [segmentFree, State.setHeader_of_ne _ _ hg]
      · simp [segmentFree, State.setHeader_of_ne _ _ hg]
      · simp [segmentFree, State.next, State.setHeader_of_ne _ _ hg]
      · simp [segmentFree, State.next, State.setIa]
  | some p =>
      have hpx : x ≠ p := fun heq => hne (by rw [heq])
      rw [show unlinkSegment s a isNic (some p) x =
        segmentFree (s.setHeader p fun z => { z with next := s.next x }) x from rfl]
      refine ⟨fun g => ?_, fun g hg => ?_, fun g hg => ?_, ?_, rfl, fun b hb => rfl, rfl⟩
      · by_cases hg : g = x
        · simp [segmentFree, hg, State.setHeader_of_ne _ _ hpx]
        · by_cases hgp : g = p
          · simp [segmentFree, hgp, State.setHeader_of_ne _ _ hpx.symm]
          · simp [segmentFree, State.setHeader_of_ne _ _ hg, State.setHeader_of_ne _ _ hgp]
      · by_cases hgp : g = p
        · simp [segmentFree, hgp, State.setHeader_of_ne _ _ hpx.symm]
        · simp [segmentFree, State.setHeader_of_ne _ _ hg, State.setHeader_of_ne _ _ hgp]
      · by_cases hgp : g = p
        · simp [segmentFree, hgp, State.next, State.setHeader_of_ne _ _ hpx.symm]
        · simp [segmentFree, Ne.symm hgp, State.next, State.setHeader_of_ne _ _ hg,
            State.setHeader_of_ne _ _ hgp]
      · simp [segmentFree, State.next, State.setHeader]

/-- The links after a segment was taken out of its list. -/
theorem Unlinks.lists (hu : Unlinks s s' a isNic kept.getLast? x) (hI : Inv S s members)
    (hlist : members (some (a, isNic)) = kept ++ x :: y :: rest) :
    Lists s'.next s'.head (unlinked members a isNic (kept ++ y :: rest) x) := by
  have hfree : s'.freeSegments = some x := by rw [hu.same]
  rcases List.eq_nil_or_concat kept with rfl | ⟨l, p, hp⟩
  · -- the first segment of its list
    rw [List.getLast?_nil] at hu
    have hpop := hI.lists.pop hlist
    have hpush := hpop.push (i := none) (hI.lists.notMem_pop hlist)
    rw [Function.update_of_ne (by simp), Function.update_of_ne (by simp)] at hpush
    refine hpush.congr (fun i g hg => ?_) fun i => ?_
    · by_cases hgx : g = x
      · rw [hgx, Function.update_self]
        exact hu.next_self
      · rw [Function.update_of_ne hgx, hu.next g hgx]
        exact if_neg (by simp)
    · cases i with
      | none => rw [Function.update_self]; exact hfree
      | some l =>
          rw [Function.update_of_ne (by simp)]
          by_cases hl : l = (a, isNic)
          · rw [hl, Function.update_self, State.head, hu.ia, if_pos rfl]
            cases isNic <;> rfl
          · rw [Function.update_of_ne fun heq => hl (Option.some.inj heq)]
            by_cases hla : l.1 = a
            · obtain ⟨b, k⟩ := l
              obtain rfl : b = a := hla
              rw [State.head, State.head, hu.ia, if_pos rfl]
              cases k <;> cases isNic <;> first | rfl | exact absurd rfl hl
            · rw [State.head, State.head, hu.other _ hla]
  · rw [List.concat_eq_append] at hp
    subst hp
    have hlist' : members (some (a, isNic)) = l ++ p :: x :: y :: rest := by
      rw [hlist, List.append_assoc]
      rfl
    have hlast : (l ++ [p]).getLast? = some p := by
      rw [List.getLast?_append_of_ne_nil _ (by simp), List.getLast?_singleton]
    rw [hlast] at hu
    have hunlink := hI.lists.unlink hlist'
    have hpush := hunlink.push (i := none) (hI.lists.notMem_unlink hlist')
    rw [Function.update_of_ne (by simp)] at hpush
    rw [unlinked, List.append_assoc]
    refine hpush.congr (fun i g hg => ?_) fun i => ?_
    · by_cases hgx : g = x
      · rw [hgx, Function.update_self]
        exact hu.next_self
      · rw [Function.update_of_ne hgx, hu.next g hgx]
        by_cases hgp : g = p
        · rw [hgp, Function.update_self, if_pos rfl]
        · rw [Function.update_of_ne hgp, if_neg fun heq => hgp (Option.some.inj heq).symm]
    · cases i with
      | none => rw [Function.update_self]; exact hfree
      | some l =>
          rw [Function.update_of_ne (by simp)]
          by_cases hla : l.1 = a
          · rw [State.head, State.head, hla, hu.ia, if_neg (by simp)]
          · rw [State.head, State.head, hu.other _ hla]

theorem mem_of_mem_unlinked (hlist : members (some (a, isNic)) = kept ++ x :: y :: rest)
    {l : ℕ × Bool} {g : ℕ} (hg : g ∈ unlinked members a isNic (kept ++ y :: rest) x (some l)) :
    g ∈ members (some l) := by
  by_cases hl : l = (a, isNic)
  · subst hl
    rw [unlinked_self] at hg
    rw [hlist]
    simp only [List.mem_append, List.mem_cons] at hg ⊢
    tauto
  · rwa [unlinked_of_ne hl] at hg

theorem mem_unlinked_of_mem (hlist : members (some (a, isNic)) = kept ++ x :: y :: rest)
    {l : ℕ × Bool} {g : ℕ} (hg : g ∈ members (some l)) (hgx : g ≠ x) :
    g ∈ unlinked members a isNic (kept ++ y :: rest) x (some l) := by
  by_cases hl : l = (a, isNic)
  · subst hl
    rw [hlist] at hg
    rw [unlinked_self]
    simp only [List.mem_append, List.mem_cons] at hg ⊢
    tauto
  · rwa [unlinked_of_ne hl]

/-! ## What a loop keeps -/

/-- **What the loops keep.**  The segment that the allocator cleans may be gone once it is read to
its end. -/
structure Swept (S : Settings) (a : ℕ) (s : State) (members : Place → List ℕ) : Prop where
  inv : Inv S s members
  others : ∀ b, b ≠ a → Cleans s members b
  ready : s.ready a = true
  own : Cleans s members a ∨ ∃ h, (s.ia a).cleaning = some h ∧ s.segHeaders h = some h ∧
    (s.ia a).cleanOffset = S.segsize
  fits : ∀ h, (s.ia a).cleaning = some h → (s.header h).freed = (s.header h).size →
    (s.ia a).cleanOffset = (s.header h).size

/-- A segment that may be cleaned next, in the list of a loop or in the one before. -/
def Candidate (s : State) (members : Place → List ℕ) (a : ℕ) (isNic : Bool) (c : ℕ) : Prop :=
  (s.header c).inactive = true ∧ ∃ k ≤ isNic, c ∈ members (some (a, k))

/-- The allocators after a segment was taken out of its list. -/
theorem Unlinks.ia_same {prev : Option ℕ} (hu : Unlinks s s' a isNic prev x) (b : ℕ) :
    (s'.ia b).reserved = (s.ia b).reserved ∧ (∀ k, (s'.ia b).curOf k = (s.ia b).curOf k) ∧
      (s'.ia b).cleaning = (s.ia b).cleaning ∧ (s'.ia b).cleanOffset = (s.ia b).cleanOffset ∧
      (s'.ia b).seen = (s.ia b).seen := by
  by_cases hba : b = a
  · rw [hba, hu.ia]
    split_ifs
    · rw [Allocator.setOldest]
      split_ifs <;> exact ⟨rfl, fun k => by cases k <;> rfl, rfl, rfl, rfl⟩
    · exact ⟨rfl, fun _ => rfl, rfl, rfl, rfl⟩
  · rw [hu.other b hba]
    exact ⟨rfl, fun _ => rfl, rfl, rfl, rfl⟩

/-- **A segment that was freed** comes to the free list. -/
theorem Swept.unlink (hw : Swept S a s members)
    (hlist : members (some (a, isNic)) = kept ++ x :: y :: rest)
    (hinactive : (s.header x).inactive = true) (hfreed : (s.header x).freed = (s.header x).size)
    (hu : Unlinks s s' a isNic kept.getLast? x) :
    Swept S a s' (unlinked members a isNic (kept ++ y :: rest) x) := by
  have hx : x ∈ members (some (a, isNic)) := by rw [hlist]; simp
  have hsame := hu.ia_same
  have hready : s'.ready = s.ready := by rw [hu.same]
  have halike : Alike s s' (unlinked members a isNic (kept ++ y :: rest) x) := by
    refine ⟨hu.header, fun g hg => hu.offset g ?_, by rw [hu.same], by rw [hu.same], by rw [hu.same],
      by rw [hu.same], by rw [hu.same]⟩
    rintro rfl
    rw [unlinked_none] at hg
    exact hg List.mem_cons_self
  have hsub : ∀ i, ∀ g ∈ unlinked members a isNic (kept ++ y :: rest) x i, ∃ j, g ∈ members j := by
    intro i g hg
    cases i with
    | none =>
        rw [unlinked_none] at hg
        rcases List.mem_cons.1 hg with rfl | hg
        · exact ⟨_, hx⟩
        · exact ⟨_, hg⟩
    | some l => exact ⟨_, mem_of_mem_unlinked hlist hg⟩
  refine ⟨hw.inv.relink halike (hu.lists hw.inv hlist) ?_ ?_ ?_ ?_
    (fun _ _ hg => .inl (mem_of_mem_unlinked hlist hg)) ?_ ?_ ?_, fun b hb => ?_, ?_, ?_, ?_⟩
  · intro b k
    rw [(hsame b).2.1, hw.inv.cur]
    by_cases hbk : (b, k) = (a, isNic)
    · rw [hbk, unlinked_self, hlist]
      simp
    · rw [unlinked_of_ne hbk]
  · intro i g hg
    obtain ⟨j, hj⟩ := hsub i g hg
    exact hw.inv.known j g hj
  · intro b g hg
    rw [(hsame b).1] at hg
    obtain ⟨hknown, hfresh, hloose⟩ := hw.inv.reserved b g hg
    refine ⟨hknown, hfresh, fun i hi => ?_⟩
    obtain ⟨j, hj⟩ := hsub i g hi
    exact hloose j hj
  · intro b c g hb hc
    rw [(hsame b).1] at hb
    rw [(hsame c).1] at hc
    exact hw.inv.one_reserve b c g hb hc
  · intro b g off hoff hg
    refine mem_unlinked_of_mem hlist hg fun hgx => ?_
    have hactive := (hw.inv.nic g off hoff).2.1
    rw [hgx, hinactive] at hactive
    cases hactive
  · intro b hb
    rw [hready] at hb
    have hba : b ≠ a := by
      rintro rfl
      rw [hw.ready] at hb
      cases hb
    obtain ⟨hnone, hempty⟩ := hw.inv.idle b hb
    exact ⟨(hsame b).1.trans hnone, fun k => by
      rw [unlinked_of_ne fun heq => hba (Prod.mk.inj heq).1, hempty]⟩
  · intro b hb
    by_cases hbk : (b, false) = (a, isNic)
    · rw [hbk, unlinked_self]
      simp
    · rw [unlinked_of_ne hbk]
      exact hw.inv.started b (hready ▸ hb)
  · refine (hw.others b hb).relink halike (by rw [hready]; exact id) (hsame b).2.2 fun g k _ hg => ?_
    rwa [unlinked_of_ne fun heq => hb (Prod.mk.inj heq).1]
  · rw [hready]
    exact hw.ready
  · obtain ⟨-, -, hcleaning, hoff, -⟩ := hsame a
    rw [hcleaning, hoff, halike.segHeaders]
    by_cases hxc : (s.ia a).cleaning = some x
    · -- it was read to its end
      refine .inr ⟨x, hxc, hw.inv.known _ x hx, ?_⟩
      rw [hw.fits x hxc hfreed, (hw.inv.held x (hw.inv.known _ x hx)).size]
    · refine hw.own.imp_left fun hc => hc.relink halike (by rw [hready]; exact id) (hsame a).2.2
        fun g k hg hmem => mem_unlinked_of_mem hlist hmem ?_
      rintro rfl
      exact hxc hg
  · intro g hg hgone
    obtain ⟨-, -, hcleaning, hoff, -⟩ := hsame a
    obtain ⟨-, hsize, hfreedg, -⟩ := hu.header g
    rw [hcleaning] at hg
    rw [hsize, hfreedg] at hgone
    rw [hoff, hsize]
    exact hw.fits g hg hgone

variable (isNic kept) in
/-- **A loop** comes to an end, and the candidate is in one of the lists. -/
theorem sweepLoop_spec {n : ℕ} {w : Sweep} (hw : Swept S a w.state members)
    (hlist : members (some (a, isNic)) = kept ++ rest) (hn : rest.length < n)
    (hcand : ∀ c, w.cand = some c → Candidate w.state members a isNic c ∧ c ∉ rest) :
    ∃ w' members', sweepLoop a isNic n kept.getLast? rest.head? w = some w' ∧
      Swept S a w'.state members' ∧ w'.state.segAlloced = w.state.segAlloced ∧
      ∀ c, w'.cand = some c → Candidate w'.state members' a isNic c := by
  induction n generalizing w members kept rest with
  | zero => exact absurd hn (Nat.not_lt_zero _)
  | succ n ih =>
      cases rest with
      | nil => exact ⟨w, members, rfl, hw, rfl, fun c hc => (hcand c hc).1⟩
      | cons x rest =>
          rw [List.head?_cons, sweepLoop]
          cases rest with
          | nil =>
              have hlast : (w.state.header x).next = none := hw.inv.lists.next_last hlist
              rw [if_pos (.inl hlast)]
              exact ⟨w, members, rfl, hw, rfl, fun c hc => (hcand c hc).1⟩
          | cons y rest =>
              have hnext : (w.state.header x).next = some y := hw.inv.lists.next_eq hlist
              have hlast : (kept ++ [x]).getLast? = some x := by simp
              have hsplit : members (some (a, isNic)) = (kept ++ [x]) ++ y :: rest := by
                rw [hlist, List.append_assoc]
                rfl
              have hnodup : (kept ++ x :: y :: rest).Nodup := hlist ▸ hw.inv.lists.nodup _
              have hx : x ∉ y :: rest :=
                (List.nodup_cons.1 (List.nodup_append.1 hnodup).2.1).1
              have hxmem : x ∈ members (some (a, isNic)) := by rw [hlist]; simp
              have hlen : (y :: rest).length < n := Nat.lt_of_succ_lt_succ hn
              rw [hnext]
              simp only [reduceCtorEq, false_or]
              split_ifs with hstop hfree hbetter
              · exact ⟨w, members, rfl, hw, rfl, fun c hc => (hcand c hc).1⟩
              · -- the segment was freed
                have hprev : kept.getLast? ≠ some x := fun heq =>
                  (List.nodup_append.1 hnodup).2.2 x (List.mem_of_getLast? heq) x
                    List.mem_cons_self rfl
                have hunlinks : Unlinks w.state (unlinkSegment w.state a isNic kept.getLast? x) a isNic
                    kept.getLast? x := unlinkSegment_unlinks hprev
                have hsame : (unlinkSegment w.state a isNic kept.getLast? x).segAlloced =
                    w.state.segAlloced := by rw [hunlinks.same]
                rw [← hsame]
                refine ih kept (hw.unlink hlist (by simpa using hstop) hfree hunlinks) unlinked_self hlen
                  fun c hc => ?_
                obtain ⟨⟨hci, k, hle, hk⟩, hnot⟩ := hcand c hc
                refine ⟨⟨(hunlinks.header c).2.2.2.trans hci, k, hle,
                  mem_unlinked_of_mem hlist hk ?_⟩, fun hmem => hnot (List.mem_cons_of_mem x hmem)⟩
                rintro rfl
                exact hnot List.mem_cons_self
              · -- the segment is the candidate
                have hrest := ih (kept ++ [x]) (w := { w with
                  cand := some x
                  ratio := ((w.state.header x).freed, (w.state.header x).size) }) hw hsplit hlen
                  fun c hc => by
                    obtain rfl := Option.some.inj hc
                    exact ⟨⟨by simpa using hstop, isNic, le_refl _, hxmem⟩, hx⟩
                rwa [hlast] at hrest
              · have hrest := ih (kept ++ [x]) hw hsplit hlen fun c hc =>
                  ⟨(hcand c hc).1, fun hmem => (hcand c hc).2 (List.mem_cons_of_mem x hmem)⟩
                rwa [hlast] at hrest

end Ialloc
end Floem
