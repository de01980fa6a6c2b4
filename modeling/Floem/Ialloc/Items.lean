import Floem.Ialloc.Invariant

/-!
# Items and fillers

* `Sound.push` — a piece is put behind those of a segment.
* `itemAlloc_spec`, `nicItemAlloc_spec`, `nicsegmentFull_spec` — the calls that do so.
* `free_spec`, `write_spec` — what the callers do with the items.
-/

namespace Floem
open Lib

namespace Ialloc

variable {S : Settings} {s s' : State} {members : Place → List ℕ} {h a : ℕ} {l : ℕ × Bool}
  {p : Piece} {mem : ℕ → UInt8}

/-! ## Lengths in memory -/

theorem setLengths_totalsz {it kl vl : ℕ} (hkl : kl < 2 ^ 16) (hvl : vl < 2 ^ 32) :
    itemTotalsz (setVallen (setKeylen mem it kl) it vl) it = itemSize + kl + vl := by
  have hvallen : vallen (setVallen (setKeylen mem it kl) it vl) it = vl := by
    rw [vallen, setVallen, load_store_self]
    exact Nat.mod_eq_of_lt hvl
  have hkeylen : keylen (setVallen (setKeylen mem it kl) it vl) it = kl := by
    rw [keylen, setVallen, load_store_of_disjoint (by omega), setKeylen, load_store_self]
    exact Nat.mod_eq_of_lt hkl
  rw [itemTotalsz, hvallen, hkeylen]
  omega

theorem setLengths_outside {it kl vl b : ℕ} (hb : b < it ∨ it + itemSize ≤ b) :
    setVallen (setKeylen mem it kl) it vl b = mem b := by
  simp only [itemSize] at hb
  rw [setVallen, store_of_notMem (by omega), setKeylen, store_of_notMem (by omega)]

theorem setRefcount_outside {it x b : ℕ} (hb : b < it ∨ it + itemSize ≤ b) :
    setRefcount mem it x b = mem b := by
  simp only [itemSize] at hb
  rw [setRefcount, store_of_notMem (by omega)]

/-- The lengths of a filler are right as long as they fit. -/
theorem fillUp_totalsz {it gap : ℕ} (hgap : itemSize ≤ gap) (hlt : gap < itemSize + 2 ^ 16) :
    itemTotalsz (fillUp mem it gap) it = gap := by
  have hkeylen : keylen (fillUp mem it gap) it = gap - itemSize := by
    rw [fillUp, if_pos hgap, keylen, setVallen, load_store_of_disjoint (by omega), setKeylen,
      load_store_self]
    exact Nat.mod_eq_of_lt (by omega)
  have hvallen : vallen (fillUp mem it gap) it = 0 := by
    rw [fillUp, if_pos hgap, vallen, setVallen, load_store_self]
    rfl
  rw [itemTotalsz, hkeylen, hvallen]
  omega

theorem fillUp_outside {it gap b : ℕ} (hb : b < it ∨ it + gap ≤ b) :
    fillUp mem it gap b = mem b := by
  rw [fillUp]
  split_ifs with hgap
  · have hb' : b < it ∨ it + itemSize ≤ b := by omega
    simp only [itemSize] at hb'
    rw [setVallen, store_of_notMem (by omega), setKeylen, store_of_notMem (by omega)]
    exact setRefcount_outside (by simp only [itemSize]; omega)
  · rfl

/-! ## A new piece -/

/-- What a new piece changes. -/
structure Pushes (S : Settings) (s s' : State) (h : ℕ) (l : ℕ × Bool) (p : Piece) : Prop where
  only : Only s s' h
  log : s'.log h = s.log h ++ [p]
  fits : total (s.log h) + p.size ≤ S.segsize
  data : (s'.header h).data = (s.header h).data
  size : (s'.header h).size = (s.header h).size
  freed : (s'.header h).freed = (s.header h).freed + if p.freed then p.size else 0
  offset : l.2 = false → (s'.header h).offset = (s.header h).offset + p.size
  at_end : p.At S.segsize s'.mem (S.segsize * h) (total (s.log h))
  mem : ∀ b, b < S.segsize * h + total (s.log h) ∨
    S.segsize * h + total (s.log h) + p.size ≤ b → s'.mem b = s.mem b
  full : (s'.header h).inactive = true → total (s.log h) + p.size = S.segsize
  nic : ∀ off, s'.nic h = some off →
    off = total (s.log h) + p.size ∧ (s'.header h).inactive = false ∧ l.2 = true

/-- A segment with room is not cleaned. -/
theorem Sound.not_cleaning (hS : Sound S s members) (hh : h ∈ members (some l))
    (hroom : total (s.log h) < S.segsize) : ∀ b, (s.ia b).cleaning ≠ some h := by
  intro b hb
  have := hS.inv.full l h hh (hS.cleans b h hb).1.inactive
  omega

/-- **A new piece** keeps the invariant. -/
theorem Sound.push (hS : Sound S s members) (hh : h ∈ members (some l))
    (hp : Pushes S s s' h l p) : Sound S s' members := by
  have hheld := hS.inv.held h (hS.inv.known _ h hh)
  have hfits := hp.fits
  have hpos := hp.at_end.pos
  have htotal : total (s'.log h) = total (s.log h) + p.size := by
    rw [hp.log, total_append, total_cons, total_nil, Nat.add_zero]
  refine ⟨hS.inv.change hp.only (fun g hg k hk => hp.mem _ ?_) (hS.inv.known _ h hh) ?_
    (fun b hb => absurd hh ((hS.inv.reserved b h hb).2.2 _)) ?_ ?_ ?_, fun b => ?_⟩
  · -- the byte of another segment is not in the new piece
    by_contra hin
    refine segments_apart (h := h) hk
      (j := S.segsize * g + k - S.segsize * h) (by omega) hg (by omega)
  · refine ⟨hp.data.trans hheld.data, hp.size.trans hheld.size, by omega, ?_, ?_⟩
    · rw [hp.freed, hp.log, gone_append, hheld.freed, gone_cons, gone_nil, Nat.add_zero]
    · rw [hp.log]
      exact hheld.reads.concat hp.at_end fun b _ hb => hp.mem b (.inl hb)
  · intro _ _ hinactive
    rw [htotal]
    exact hp.full hinactive
  · intro b hb
    obtain rfl := Option.some.inj (hS.inv.lists.apart _ _ h hb hh)
    rw [htotal, hp.offset rfl, hS.inv.offset b h hh]
  · intro off hoff
    obtain ⟨hoff, hactive, hl⟩ := hp.nic off hoff
    obtain ⟨b, isNic⟩ := l
    obtain rfl : isNic = true := hl
    exact ⟨by rw [htotal]; exact hoff, hactive, b, hh⟩
  · exact (hS.cleans b).change hp.only fun hb =>
      absurd hb (hS.not_cleaning hh (by omega) b)

/-- The bytes that are freed with a piece fit into the segment. -/
theorem segmentItemFree_eq (hS : Sound S s members) (hsize : S.segsize < 2 ^ 32) {n : ℕ}
    (hknown : s.segHeaders h = some h) (hn : gone (s.log h) + n ≤ S.segsize) {t : State}
    (hheader : t.header h = s.header h) : segmentItemFree t h n =
      some (t.setHeader h fun x => { x with freed := gone (s.log h) + n }) := by
  have hheld := hS.inv.held h hknown
  have hfreed : ((t.header h).freed + n) % 2 ^ 32 = gone (s.log h) + n := by
    rw [hheader, hheld.freed]
    exact Nat.mod_eq_of_lt (by omega)
  rw [segmentItemFree]
  simp only [hfreed]
  rw [if_neg]
  rintro ⟨-, hle⟩
  exact hle (by rw [hheader, hheld.size]; exact hn)

theorem itemAlloc_same {n : ℕ} {r : Option ℕ} (hs : segmentItemAllocPointer s h n = some (s', r)) :
    s'.ia = s.ia ∧ s'.ready = s.ready ∧ s'.freeSegments = s.freeSegments ∧
      s'.segAlloced = s.segAlloced := by
  rw [segmentItemAllocPointer] at hs
  dsimp only at hs
  split_ifs at hs
  · obtain ⟨rfl, -⟩ := Prod.mk.inj (Option.some.inj hs)
    exact ⟨rfl, rfl, rfl, rfl⟩
  · obtain ⟨t, ht, hs⟩ := Option.map_eq_some_iff.1 hs
    obtain ⟨rfl, -⟩ := Prod.mk.inj hs
    rw [segmentItemFree] at ht
    dsimp only at ht
    split_ifs at ht
    obtain rfl := Option.some.inj ht
    exact ⟨rfl, rfl, rfl, rfl⟩
  · obtain ⟨rfl, -⟩ := Prod.mk.inj (Option.some.inj hs)
    exact ⟨rfl, rfl, rfl, rfl⟩

/-- The room in a segment of the CPU. -/
theorem avail_eq (hS : Sound S s members) (hsize : S.segsize < 2 ^ 32)
    (hh : h ∈ members (some (a, false))) : room s h = S.segsize - total (s.log h) ∧
      ((s.header h).size + 2 ^ 32 - (s.header h).offset) % 2 ^ 32 = room s h := by
  have hheld := hS.inv.held h (hS.inv.known _ h hh)
  have hoffset := hS.inv.offset a h hh
  have hfits := hheld.fits
  have hsz := hheld.size
  rw [room]
  omega

/-- **`segment_item_alloc_pointer`** returns. -/
theorem itemAlloc_isSome (hS : Sound S s members) (hsize : S.segsize < 2 ^ 32)
    (hh : h ∈ members (some (a, false))) (n : ℕ) : (segmentItemAllocPointer s h n).isSome := by
  obtain ⟨hroom, havail⟩ := avail_eq hS hsize hh
  have hknown := hS.inv.known _ h hh
  have hfits := (hS.inv.held h hknown).fits
  have hgone := gone_le (l := s.log h)
  rw [segmentItemAllocPointer]
  simp only [havail]
  split_ifs
  · rfl
  · rw [segmentItemFree_eq hS hsize hknown (n := room s h) (by omega)
      (t := { s with mem := fillUp s.mem ((s.header h).data + (s.header h).offset) (room s h) }) rfl]
    rfl
  · rfl

/-- What the item allocation of a segment leads to. -/
structure ItemAlloc (S : Settings) (s s' : State) (members : Place → List ℕ) (h n : ℕ)
    (r : Option ℕ) : Prop where
  some : ∀ it, r = some it → ∀ kl vl, n = itemSize + kl + vl → kl < 2 ^ 16 → vl < 2 ^ 32 →
    Sound S (setLengths kl vl s' (some it)) members
  none : r = none → Sound S s' members ∧ total (s'.log h) = S.segsize

/-- **`segment_item_alloc_pointer`** for a segment of the CPU. -/
theorem itemAlloc_spec (hS : Sound S s members) (hsize : S.segsize < 2 ^ 32)
    (hh : h ∈ members (some (a, false))) {n : ℕ} (hn : itemSize ≤ n)
    (hgap : room s h < n → room s h < itemSize + 2 ^ 16) {r : Option ℕ}
    (hs : segmentItemAllocPointer s h n = some (s', r)) : ItemAlloc S s s' members h n r := by
  have hknown := hS.inv.known _ h hh
  have hheld := hS.inv.held h hknown
  have hoffset := hS.inv.offset a h hh
  have hnic := hS.inv.nic_cpu hh
  have hfits := hheld.fits
  have hgone := gone_le (l := s.log h)
  obtain ⟨hroom, havail⟩ := avail_eq hS hsize hh
  have hactive : room s h ≠ 0 → (s.header h).inactive = false := by
    intro hne
    by_contra hinactive
    have := hS.inv.full _ h hh (by simpa using hinactive)
    omega
  rw [segmentItemAllocPointer] at hs
  simp only [havail] at hs
  split_ifs at hs with hzero hlt
  · obtain ⟨rfl, rfl⟩ := Prod.mk.inj (Option.some.inj hs)
    exact ⟨fun it hit => (by cases hit), fun _ => ⟨hS, by omega⟩⟩
  · have hfree := segmentItemFree_eq hS hsize hknown (n := room s h) (by omega)
      (t := { s with mem := fillUp s.mem ((s.header h).data + (s.header h).offset) (room s h) }) rfl
    rw [hfree, Option.map_some] at hs
    obtain ⟨hs', rfl⟩ := Prod.mk.inj (Option.some.inj hs)
    refine ⟨fun it hit => (by cases hit), fun _ => ?_⟩
    have hq : Pushes S s s' h (a, false) ⟨room s h, true, true⟩ := by
      subst hs'
      exact {
        only := ⟨fun g hg => (Function.update_of_ne hg ..).trans (Function.update_of_ne hg ..),
          fun g hg => Function.update_of_ne hg .., fun _ _ => rfl, by
            rw [State.setLog_header, State.setHeader_self, State.setHeader_self],
          rfl, rfl, rfl, rfl, rfl⟩
        log := State.setLog_self ..
        fits := show total (s.log h) + room s h ≤ S.segsize by omega
        data := by rw [State.setLog_header, State.setHeader_self, State.setHeader_self]
        size := by rw [State.setLog_header, State.setHeader_self, State.setHeader_self]
        freed := by
          rw [State.setLog_header, State.setHeader_self, State.setHeader_self, hheld.freed]
          rfl
        offset := fun _ => by
          rw [State.setLog_header, State.setHeader_self, State.setHeader_self]
          exact Nat.mod_eq_of_lt (show (s.header h).offset + room s h < 2 ^ 32 by omega)
        at_end :=
          { pos := Nat.pos_of_ne_zero hzero
            item := fun hfill => by cases hfill
            last := fun _ => ⟨show total (s.log h) + room s h = S.segsize by omega, rfl⟩
            lengths := fun hle => by
              have haddr : S.segsize * h + total (s.log h) =
                  (s.header h).data + (s.header h).offset := by rw [hheld.data, hoffset]
              rw [haddr]
              exact fillUp_totalsz hle (hgap hlt) }
        mem := fun b hb => by
          refine fillUp_outside ?_
          rwa [hheld.data, hoffset]
        full := fun _ => show total (s.log h) + room s h = S.segsize by omega
        nic := fun off hoff => by
          have hsome : s.nic h = some off := hoff
          rw [hnic] at hsome
          cases hsome }
    refine ⟨hS.push hh hq, ?_⟩
    rw [hq.log, total_append, total_cons, total_nil]
    show total (s.log h) + (room s h + 0) = S.segsize
    omega
  · obtain ⟨rfl, rfl⟩ := Prod.mk.inj (Option.some.inj hs)
    refine ⟨fun it hit kl vl hlen hkl hvl => ?_, fun hnone => by cases hnone⟩
    obtain rfl := Option.some.inj hit
    have haddr : (s.header h).data + (s.header h).offset = S.segsize * h + total (s.log h) := by
      rw [hheld.data, hoffset]
    refine hS.push (p := ⟨n, false, false⟩) hh
      { only := ⟨fun g hg => Function.update_of_ne hg ..,
          fun g hg => Function.update_of_ne hg .., fun _ _ => rfl, ?_, rfl, rfl, rfl, rfl, rfl⟩
        log := State.setLog_self ..
        fits := ?_
        data := ?_
        size := ?_
        freed := ?_
        offset := fun _ => ?_
        at_end := ⟨?_, fun _ => hn, fun hfill => (by cases hfill), fun _ => ?_⟩
        mem := fun b hb => ?_
        full := fun hinactive => ?_
        nic := fun off hoff => ?_ }
    · rw [setLengths, State.setLog_header, State.setHeader_self]
    · show total (s.log h) + n ≤ S.segsize
      omega
    · rw [setLengths, State.setLog_header, State.setHeader_self]
    · rw [setLengths, State.setLog_header, State.setHeader_self]
    · rw [setLengths, State.setLog_header, State.setHeader_self]
      rfl
    · rw [setLengths, State.setLog_header, State.setHeader_self]
      exact Nat.mod_eq_of_lt (show (s.header h).offset + n < 2 ^ 32 by omega)
    · exact Nat.lt_of_lt_of_le (by decide) hn
    · rw [← haddr, setLengths]
      exact (setLengths_totalsz hkl hvl).trans hlen.symm
    · have hb' : b < (s.header h).data + (s.header h).offset ∨
          (s.header h).data + (s.header h).offset + itemSize ≤ b := by
        rw [haddr]
        exact hb.imp_right fun hle => le_trans (Nat.add_le_add_left hn _) hle
      exact (setLengths_outside hb').trans (setRefcount_outside hb')
    · have hsame : (s.header h).inactive = true := by
        rw [setLengths, State.setLog_header, State.setHeader_self] at hinactive
        exact hinactive
      rw [hactive hzero] at hsame
      cases hsame
    · have hsome : s.nic h = some off := hoff
      rw [hnic] at hsome
      cases hsome

/-- **The NIC** puts an item into its segment. -/
theorem nicItemAlloc_spec (hS : Sound S s members) {off kl vl : ℕ} (hoff : s.nic h = some off)
    (hkl : kl < 2 ^ 16) (hvl : vl < 2 ^ 32) : Sound S (nicItemAlloc h off kl vl s) members := by
  obtain ⟨rfl, hactive, b, hh⟩ := hS.inv.nic h off hoff
  have hheld := hS.inv.held h (hS.inv.known _ h hh)
  have hsz := hheld.size
  rw [nicItemAlloc]
  split_ifs with hroom
  · exact hS
  · have haddr : (s.header h).data + total (s.log h) = S.segsize * h + total (s.log h) := by
      rw [hheld.data]
    refine hS.push (p := ⟨itemSize + kl + vl, false, false⟩) hh
      { only := ⟨fun _ _ => rfl, fun g hg => Function.update_of_ne hg ..,
          fun g hg => Function.update_of_ne hg .., rfl, rfl, rfl, rfl, rfl, rfl⟩
        log := State.setLog_self ..
        fits := show total (s.log h) + (itemSize + kl + vl) ≤ S.segsize by omega
        data := rfl
        size := rfl
        freed := rfl
        offset := fun hfalse => by cases hfalse
        at_end := ⟨?_, fun _ => ?_, fun hfill => (by cases hfill), fun _ => ?_⟩
        mem := fun c hc => ?_
        full := fun hinactive => ?_
        nic := fun off hoff => ?_ }
    · show 0 < itemSize + kl + vl
      simp only [itemSize]
      omega
    · show itemSize ≤ itemSize + kl + vl
      omega
    · rw [← haddr]
      exact setLengths_totalsz hkl hvl
    · rw [← haddr] at hc
      exact setLengths_outside (hc.imp_right fun hle => by
        have hle' : (s.header h).data + total (s.log h) + (itemSize + kl + vl) ≤ c := hle
        omega)
    · have hsame : (s.header h).inactive = true := hinactive
      rw [hactive] at hsame
      cases hsame
    · have hnew : some (total (s.log h) + (itemSize + kl + vl)) = some off :=
        (State.setNic_self ..).symm.trans hoff
      exact ⟨(Option.some.inj hnew).symm, hactive, rfl⟩

/-- The segment of an address. -/
theorem segmentFromPart_eq {k : ℕ} (hk : k < S.segsize) (hI : Inv S s members)
    (hknown : s.segHeaders h = some h) : segmentFromPart S s (S.segsize * h + k) = some h := by
  have hdiv : (S.segsize * h + k) / S.segsize = h := by
    rw [Nat.mul_add_div (by omega), Nat.div_eq_of_lt hk, Nat.add_zero]
  rw [segmentFromPart, if_neg (by omega), hdiv, if_pos (hI.within h hknown), hknown]

/-- The segment after `ialloc_nicsegment_full`, with `gap` bytes behind the items. -/
def nicFilled (s : State) (h off gap : ℕ) : State :=
  { s with mem := fillUp s.mem ((s.header h).data + off) gap }
    |>.setHeader h (fun x => { x with freed := gone (s.log h) + gap })
    |>.setLog h (s.log h ++ if gap = 0 then [] else [(⟨gap, true, true⟩ : Piece)])
    |>.setHeader h (fun x => { x with inactive := true })

/-- **`ialloc_nicsegment_full`** returns, when an item was put into the segment. -/
theorem nicsegmentFull_eq (hS : Sound S s members) (hsize : S.segsize < 2 ^ 32) {off gap : ℕ}
    (hoff : s.nic h = some off) (hitem : itemSize ≤ off) (hgap : off + gap = S.segsize) :
    iallocNicsegmentFull S ((s.header h).data + off) s =
      some (nicFilled s h off gap, (s.header h).coreId) := by
  obtain ⟨rfl, -, b, hh⟩ := hS.inv.nic h off hoff
  have hknown := hS.inv.known _ h hh
  have hheld := hS.inv.held h hknown
  have hsz := hheld.size
  have hgone := gone_le (l := s.log h)
  have hpos : 0 < itemSize := by decide
  -- the part before the end is in the segment
  have hpart : segmentFromPart S s ((s.header h).data + total (s.log h) - itemSize) = some h := by
    rw [hheld.data, Nat.add_sub_assoc hitem]
    exact segmentFromPart_eq (by omega) hS.inv hknown
  have hlast : (s.header h).data + total (s.log h) - (s.header h).data = total (s.log h) := by omega
  have hrest : (S.segsize + 2 ^ 64 - total (s.log h)) % 2 ^ 64 = gap := by omega
  have hmem : (if total (s.log h) + itemSize ≤ S.segsize then
      fillUp s.mem ((s.header h).data + total (s.log h)) gap else s.mem) =
      fillUp s.mem ((s.header h).data + total (s.log h)) gap := by
    split_ifs with hle
    · rfl
    · rw [fillUp, if_neg (by omega)]
  have hfree := segmentItemFree_eq hS hsize hknown (n := gap) (by omega)
    (t := { s with mem := fillUp s.mem ((s.header h).data + total (s.log h)) gap }) rfl
  rw [iallocNicsegmentFull, if_neg (by omega), hpart]
  show fillNic h _ s = _
  rw [fillNic]
  simp only [hlast, hsz, hrest, hmem, hfree, Option.pure_def, Option.bind_eq_bind, Option.bind_some]
  rfl

/-- **`ialloc_nicsegment_full`**, at the end of the items. -/
theorem nicsegmentFull_spec (hS : Sound S s members) (hsize : S.segsize < 2 ^ 32) {off : ℕ}
    (hoff : s.nic h = some off) (hitem : itemSize ≤ off)
    (hgap : (s.header h).size - off < itemSize + 2 ^ 16) {r : State × ℕ}
    (hs : iallocNicsegmentFull S ((s.header h).data + off) s = some r) :
    Sound S (r.1.setNic h none) members := by
  obtain ⟨hend, hactive, b, hh⟩ := hS.inv.nic h off hoff
  have hknown := hS.inv.known _ h hh
  have hheld := hS.inv.held h hknown
  have hfits := hheld.fits
  have hsz := hheld.size
  rw [hsz] at hgap
  obtain ⟨gap, hle⟩ : ∃ gap, off + gap = S.segsize := ⟨S.segsize - off, by omega⟩
  obtain rfl := Option.some.inj ((nicsegmentFull_eq hS hsize hoff hitem hle).symm.trans hs)
  subst hend
  rw [show S.segsize - total (s.log h) = gap by omega] at hgap
  have haddr : (s.header h).data + total (s.log h) = S.segsize * h + total (s.log h) := by
    rw [hheld.data]
  obtain ⟨t, ht⟩ : ∃ t, (nicFilled s h (total (s.log h)) gap).setNic h none = t := ⟨_, rfl⟩
  rw [ht]
  have hone : Only s t h ∧ t.header h = { s.header h with
      freed := gone (s.log h) + gap, inactive := true } ∧
      t.log h = s.log h ++ (if gap = 0 then [] else [⟨gap, true, true⟩]) ∧
      t.mem = fillUp s.mem ((s.header h).data + total (s.log h)) gap ∧ t.nic h = none := by
    rw [← ht, nicFilled]
    refine ⟨⟨fun k hk => (Function.update_of_ne hk ..).trans (Function.update_of_ne hk ..),
      fun k hk => Function.update_of_ne hk .., fun k hk => Function.update_of_ne hk .., ?_, rfl, rfl,
      rfl, rfl, rfl⟩, ?_, State.setLog_self .., rfl, Function.update_self ..⟩
    · simp only [State.setNic_header, State.setHeader_self, State.setLog_header]
    · simp only [State.setNic_header, State.setHeader_self, State.setLog_header]
  obtain ⟨honly, hheader, hlog, hmemt, hnic⟩ := hone
  rcases Nat.eq_zero_or_pos gap with rfl | hposgap
  · rw [if_pos rfl, List.append_nil] at hlog
    rw [fillUp, if_neg (by decide)] at hmemt
    have hroom : (t.header h).inactive = true → total (t.log h) = S.segsize := fun _ => by
      rw [hlog]
      omega
    refine ⟨hS.inv.change honly (fun _ _ _ _ => by rw [hmemt]) hknown ?_
      (fun b' hb => absurd hh ((hS.inv.reserved b' h hb).2.2 _)) (fun _ _ => hroom)
      (fun b' hb => ?_) (fun off hoff => ?_), fun b' => (hS.cleans b').change honly fun _ =>
        ⟨by rw [hheader], by rw [hlog]⟩⟩
    · refine hheld.congr ⟨by rw [hheader], by rw [hheader], ?_⟩ hlog fun _ _ => by rw [hmemt]
      rw [hheader, hheld.freed]
      rfl
    · cases hS.inv.lists.apart _ _ h hb hh
    · rw [hnic] at hoff
      cases hoff
  · rw [if_neg (by omega)] at hlog
    exact hS.push (p := ⟨gap, true, true⟩) hh
      { only := honly
        log := hlog
        fits := show total (s.log h) + gap ≤ S.segsize by omega
        data := by rw [hheader]
        size := by rw [hheader]
        freed := by
          rw [hheader, hheld.freed]
          rfl
        offset := fun hfalse => by cases hfalse
        at_end := ⟨hposgap, fun hfill => (by cases hfill), fun _ => ⟨hle, rfl⟩, fun hfit => by
          rw [← haddr, hmemt]
          exact fillUp_totalsz hfit hgap⟩
        mem := fun c hc => by
          rw [← haddr] at hc
          rw [hmemt]
          exact fillUp_outside hc
        full := fun _ => hle
        nic := fun off hoff => by
          rw [hnic] at hoff
          cases hoff }

/-! ## Items that are there -/

theorem Inv.known_of_log (hI : Inv S s members) (hp : p ∈ s.log h) : s.segHeaders h = some h := by
  cases hh : s.segHeaders h with
  | none =>
      rw [(hI.absent h hh).2.2] at hp
      cases hp
  | some g => rw [(hI.headers h g hh).1]

theorem live_iff {k : ℕ} : s.live h k = some p ↔
    (s.log h)[k]? = some p ∧ p.filler = false ∧ p.freed = false := by
  rw [State.live, Option.bind_eq_some_iff]
  constructor
  · rintro ⟨q, hq, hlive⟩
    split_ifs at hlive with hgone
    obtain rfl := Option.some.inj hlive
    simp only [not_or, Bool.not_eq_true] at hgone
    exact ⟨hq, hgone⟩
  · rintro ⟨hp, hfill, hfreed⟩
    exact ⟨p, hp, by rw [hfill, hfreed]; rfl⟩

/-- A piece that a segment has is not in a reserved one. -/
theorem Inv.not_reserved_of_log (hI : Inv S s members) (hp : p ∈ s.log h) (b : ℕ) :
    (s.ia b).reserved ≠ some h := by
  intro hb
  rw [(hI.reserved b h hb).2.1.log] at hp
  cases hp

/-- **`ialloc_free`** returns, for an item that was not freed. -/
theorem iallocFree_eq (hS : Sound S s members) (hsize : S.segsize < 2 ^ 32) {k : ℕ}
    (hlive : s.live h k = some p) : iallocFree S (s.addr h k) p.size s =
      some (s.setHeader h fun x => { x with freed := gone (s.log h) + p.size }) := by
  obtain ⟨hk, -, hfreed⟩ := live_iff.1 hlive
  have hknown := hS.inv.known_of_log (List.mem_of_getElem? hk)
  have hheld := hS.inv.held h hknown
  have hfits := hheld.fits
  have hsplit := split_at hk
  have hpos := (hheld.reads.at hsplit).pos
  have hle := total_le_of_mem hsplit
  have hsizes : ((s.log h).modify k fun p => { p with freed := true }).map Piece.size =
      (s.log h).map Piece.size := map_size_modify
  have hgone := gone_modify hk hfreed
  have hgonele : gone ((s.log h).modify k fun p => { p with freed := true }) ≤ total (s.log h) :=
    gone_le.trans_eq (total_congr hsizes)
  have hpart : segmentFromPart S s (s.addr h k) = some h := by
    rw [State.addr, hheld.data]
    exact segmentFromPart_eq (by omega) hS.inv hknown
  rw [iallocFree, hpart, Option.bind_eq_bind, Option.bind_some]
  exact segmentItemFree_eq hS hsize hknown (by omega) rfl

/-- **`ialloc_free`**, of an item that was not freed. -/
theorem free_spec (hS : Sound S s members) (hsize : S.segsize < 2 ^ 32) {k : ℕ}
    (hlive : s.live h k = some p) (hs : iallocFree S (s.addr h k) p.size s = some s') :
    Sound S (s'.setFreed h k) members := by
  obtain ⟨hk, -, hfreed⟩ := live_iff.1 hlive
  have hp : p ∈ s.log h := List.mem_of_getElem? hk
  have hknown := hS.inv.known_of_log hp
  have hheld := hS.inv.held h hknown
  have hfits := hheld.fits
  have hsizes : ((s.log h).modify k fun p => { p with freed := true }).map Piece.size =
      (s.log h).map Piece.size := map_size_modify
  have hgone := gone_modify hk hfreed
  rw [iallocFree_eq hS hsize hlive] at hs
  obtain ⟨t, ht⟩ : ∃ t, s'.setFreed h k = t := ⟨_, rfl⟩
  rw [ht]
  have hone : Only s t h ∧
      t.header h = { s.header h with freed := gone (s.log h) + p.size } ∧
      t.log h = (s.log h).modify k (fun p => { p with freed := true }) ∧ t.mem = s.mem ∧
      t.nic h = s.nic h := by
    rw [← ht, ← Option.some.inj hs]
    exact ⟨⟨fun j hj => Function.update_of_ne hj .., fun j hj => Function.update_of_ne hj ..,
      fun _ _ => rfl, by rw [State.setFreed, State.setLog_header, State.setHeader_self], rfl, rfl,
      rfl, rfl, rfl⟩, by rw [State.setFreed, State.setLog_header, State.setHeader_self],
      State.setLog_self .., rfl, rfl⟩
  obtain ⟨honly, hheader, hlog, hmem, hnic⟩ := hone
  have htotal : total (t.log h) = total (s.log h) := by rw [hlog, total_congr hsizes]
  have hinactive : (t.header h).inactive = (s.header h).inactive := by rw [hheader]
  refine ⟨hS.inv.change honly (fun _ _ _ _ => by rw [hmem]) hknown ?_
    (fun b hb => absurd hb (hS.inv.not_reserved_of_log hp b)) ?_ ?_ ?_, fun b =>
      (hS.cleans b).change honly fun hb => ⟨?_, by rw [hlog, hsizes]⟩⟩
  · refine ⟨by rw [hheader, hheld.data], by rw [hheader, hheld.size], by rw [htotal]; exact hfits, ?_, ?_⟩
    · rw [hheader, hlog, hgone]
    · rw [hmem, hlog]
      exact hheld.reads.modify
  · intro m hm hi
    rw [htotal]
    exact hS.inv.full m h hm (hinactive ▸ hi)
  · intro b hb
    rw [htotal, hheader]
    exact hS.inv.offset b h hb
  · intro off hoff
    rw [hnic] at hoff
    rw [htotal, hinactive]
    exact hS.inv.nic h off hoff
  · rw [hinactive]
    exact (hS.cleans b h hb).1.inactive

/-- **A write** to an item, not to its lengths. -/
theorem write_spec (hS : Sound S s members) {k j : ℕ} (hlive : s.live h k = some p)
    (hj : j < p.size) (hlengths : ¬ InLengths j) (b : UInt8) :
    Sound S { s with mem := Function.update s.mem (s.addr h k + j) b } members := by
  obtain ⟨hk, -, -⟩ := live_iff.1 hlive
  have hp : p ∈ s.log h := List.mem_of_getElem? hk
  have hknown := hS.inv.known_of_log hp
  have hheld := hS.inv.held h hknown
  have hfits := hheld.fits
  have hsplit := split_at hk
  have hle := total_le_of_mem hsplit
  have haddr : s.addr h k = S.segsize * h + total ((s.log h).take k) := by
    rw [State.addr, hheld.data]
  have honly : Only s { s with mem := Function.update s.mem (s.addr h k + j) b } h :=
    ⟨fun _ _ => rfl, fun _ _ => rfl, fun _ _ => rfl, rfl, rfl, rfl, rfl, rfl, rfl⟩
  refine ⟨hS.inv.change honly (fun g hg c hc => ?_) hknown ?_
    (fun b hb => absurd hb (hS.inv.not_reserved_of_log hp b)) (fun m hm hi => hS.inv.full m h hm hi)
    (fun b hb => hS.inv.offset b h hb) (fun off hoff => hS.inv.nic h off hoff), fun b =>
      (hS.cleans b).change honly fun hb => ⟨(hS.cleans b h hb).1.inactive, rfl⟩⟩
  · refine Function.update_of_ne ?_ ..
    rw [haddr, Nat.add_assoc]
    exact segments_apart hc (by omega) hg
  · refine ⟨hheld.data, hheld.size, hfits, hheld.freed, ?_⟩
    refine hheld.reads.write hsplit fun c hc => Function.update_of_ne ?_ ..
    rw [haddr]
    exact hc j hj hlengths

end Ialloc
end Floem
