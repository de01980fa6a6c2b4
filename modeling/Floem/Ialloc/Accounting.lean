import Floem.Ialloc.Returns

/-!
# The log of items is well formed and accounted

* `step_sound` — every call that fits keeps the invariant.
* `Sound.wellFormed` — what the invariant says about scans, `freed` and the free list.
* `wellFormed_of_meets` — the log is well formed in every run whose calls fit, and no assertion
  fails in a call that does.
-/

namespace Floem
open Lib

namespace Ialloc

variable {S : Settings} {s s' : State} {members : Place → List ℕ} {a : ℕ}

/-! ## Every call -/

/-- **`ialloc_alloc`**, with the lengths that the caller writes. -/
theorem alloc_spec (hS : Sound S s members) (hsize : S.segsize < 2 ^ 32) (hready : s.ready a = true)
    {kl vl : ℕ} {cleanup malloc : Bool} (hfits : Fits s (.alloc a kl vl cleanup malloc))
    (hkl : kl < 2 ^ 16) (hvl : vl < 2 ^ 32) {r : Option ℕ}
    (hs : iallocAlloc S malloc a (itemSize + kl + vl) cleanup s = some (s', r)) :
    ∃ members', Sound S (setLengths kl vl s' r) members' := by
  have hn : itemSize ≤ itemSize + kl + vl := by omega
  have hdone : ∀ {t : State} {m : Place → List ℕ} {h : ℕ},
      ItemAlloc S t s' m h (itemSize + kl + vl) r → Sound S (setLengths kl vl s' r) m := by
    intro t m h hi
    cases r with
    | some it => exact hi.some it rfl kl vl rfl hkl hvl
    | none => exact (hi.none rfl).1
  rw [iallocAlloc] at hs
  split_ifs at hs with hlarge hreserve
  · obtain ⟨rfl, rfl⟩ := Prod.mk.inj (Option.some.inj hs)
    exact ⟨members, hS⟩
  · obtain ⟨old, hcur, hs⟩ := Option.bind_eq_some_iff.1 hs
    obtain ⟨⟨t, q⟩, ht, hs⟩ := Option.bind_eq_some_iff.1 hs
    have hold := hS.inv.mem_of_cur (k := false) hcur
    have hgap : room s old < itemSize + kl + vl → room s old < itemSize + 2 ^ 16 :=
      hfits old hcur (by
        cases hc : cleanup with
        | true => exact .inr rfl
        | false => exact .inl fun hnone => hreserve ⟨hnone, hc⟩)
    have hitem := itemAlloc_spec hS hsize hold hn hgap ht
    cases q with
    | some it =>
        obtain ⟨rfl, rfl⟩ := Prod.mk.inj (Option.some.inj hs)
        exact ⟨members, hdone hitem⟩
    | none =>
        -- the segment is full, and another one is taken
        obtain ⟨hT, hfull⟩ := hitem.none rfl
        obtain ⟨⟨u, q⟩, hu, hs⟩ := Option.bind_eq_some_iff.1 hs
        cases q with
        | none =>
            obtain ⟨rfl, rfl⟩ := Prod.mk.inj (Option.some.inj hs)
            obtain ⟨members', htaken⟩ := takeSegment_spec hT hsize hu
            exact ⟨members', htaken.sound⟩
        | some h =>
            obtain ⟨hia, hready', -⟩ := itemAlloc_same ht
            obtain ⟨members', hnext, hmem, hroom⟩ := takeSegment_next hT hsize
              (by rw [hready', hready]) (by rw [hia]; exact hcur) hfull hu
            exact ⟨_, hdone (itemAlloc_spec hnext hsize hmem hn (fun hlt => by omega) hs)⟩

/-- **`ialloc_nicsegment_alloc`** -/
theorem nicsegmentAlloc_spec (hS : Sound S s members) (hsize : S.segsize < 2 ^ 32)
    (hready : s.ready a = true) {malloc malloc' : Bool} {r : Option ℕ}
    (hs : iallocNicsegmentAlloc S malloc malloc' a s = some (s', r)) :
    ∃ members', Sound S ((r.map fun h => s'.setNic h (some 0)).getD s') members' := by
  obtain ⟨t, ht, hs⟩ := Option.bind_eq_some_iff.1 hs
  obtain ⟨mid, hT, hready'⟩ := reserve_spec hS hsize hready ht
  split_ifs at hs
  · obtain ⟨rfl, rfl⟩ := Prod.mk.inj (Option.some.inj hs)
    exact ⟨mid, hT⟩
  · obtain ⟨⟨u, q⟩, hu, hs⟩ := Option.bind_eq_some_iff.1 hs
    obtain ⟨members', hh⟩ := segmentAlloc_spec hT.inv hsize hu
    cases q with
    | none =>
        obtain ⟨rfl, rfl⟩ := Prod.mk.inj (Option.some.inj hs)
        exact ⟨members', hT.handOut hh⟩
    | some h =>
        obtain ⟨rfl, rfl⟩ := Prod.mk.inj (Option.some.inj hs)
        exact ⟨_, linkNic_spec (hT.handOut hh) (by rw [hh.ready, hready', hready]) (hh.spare h rfl)⟩

theorem takeCleanup_spec (hS : Sound S s members) :
    Sound S (takeCleanup S a s) members ∧ (takeCleanup S a s).ready = s.ready := by
  rw [takeCleanup]
  split_ifs
  · exact ⟨hS, rfl⟩
  · exact ⟨hS.setIa (fun _ => ⟨rfl, rfl⟩) (.inr ⟨rfl, .inl ⟨rfl, rfl⟩⟩) (.inr (.inl rfl)), rfl⟩

/-- **`ialloc_cleanup_item`** -/
theorem cleanupItem_spec (hS : Sound S s members) (hsize : S.segsize < 2 ^ 32)
    (hready : s.ready a = true) {idle malloc : Bool} {r : Option ℕ}
    (hs : iallocCleanupItem S malloc a idle s = some (s', r)) : ∃ members', Sound S s' members' := by
  rw [iallocCleanupItem] at hs
  by_cases hlimit : idle = false ∧ 32 ≤ (s.ia a).cleanupCount
  · rw [if_pos hlimit] at hs
    obtain ⟨rfl, rfl⟩ := Prod.mk.inj (Option.some.inj hs)
    exact ⟨members, hS⟩
  · rw [if_neg hlimit] at hs
    obtain ⟨t, ht, hs⟩ := Option.map_eq_some_iff.1 hs
    obtain ⟨rfl, -⟩ := Prod.mk.inj hs
    have hcount : ∀ u : State, u = (if idle then s else
        s.setIa a fun x => { x with cleanupCount := x.cleanupCount + 1 }) →
          Sound S u members ∧ u.ready = s.ready := by
      rintro u rfl
      split_ifs
      · exact ⟨hS, rfl⟩
      · exact ⟨hS.setIa (fun _ => ⟨rfl, rfl⟩) (.inr ⟨rfl, .inl ⟨rfl, rfl⟩⟩) (.inr (.inl rfl)), rfl⟩
    obtain ⟨hu, hready'⟩ := hcount _ rfl
    obtain ⟨htake, hready''⟩ := takeCleanup_spec (a := a) hu
    obtain ⟨members', h, -⟩ := reserve_spec htake hsize (by rw [hready'', hready', hready]) ht
    exact ⟨members', h⟩

/-- **Every call that fits** keeps the invariant. -/
theorem step_sound (hsize : S.segsize < 2 ^ 32) (hS : Sound S s members) {c : Call}
    (hfits : Fits s c) (hs : step S s c = some s') : ∃ members', Sound S s' members' := by
  cases c with
  | initAllocator a malloc =>
      rw [step] at hs
      split_ifs at hs with hready
      obtain ⟨t, ht, rfl⟩ := Option.map_eq_some_iff.1 hs
      exact initAllocator_spec hS hsize (by simpa using hready) ht
  | alloc a kl vl cleanup malloc =>
      rw [step] at hs
      split_ifs at hs with hready
      obtain ⟨⟨t, r⟩, ht, rfl⟩ := Option.map_eq_some_iff.1 hs
      exact alloc_spec hS hsize hready.1 hfits hready.2.1 hready.2.2 ht
  | nicsegmentAlloc a malloc malloc' =>
      rw [step] at hs
      split_ifs at hs with hready
      obtain ⟨⟨t, r⟩, ht, rfl⟩ := Option.map_eq_some_iff.1 hs
      exact nicsegmentAlloc_spec hS hsize hready ht
  | segmentItemAlloc h kl vl =>
      rw [step] at hs
      split_ifs at hs with hlengths
      obtain ⟨off, hoff, rfl⟩ := Option.map_eq_some_iff.1 hs
      exact ⟨members, nicItemAlloc_spec hS hoff hlengths.1 hlengths.2⟩
  | nicsegmentFull h =>
      obtain ⟨off, hoff, hs⟩ := Option.bind_eq_some_iff.1 hs
      obtain ⟨r, hr, rfl⟩ := Option.map_eq_some_iff.1 hs
      obtain ⟨hitem, hgap⟩ := hfits off hoff
      exact ⟨members, nicsegmentFull_spec hS hsize hoff hitem hgap hr⟩
  | free h k =>
      obtain ⟨p, hp, hs⟩ := Option.bind_eq_some_iff.1 hs
      obtain ⟨t, ht, rfl⟩ := Option.map_eq_some_iff.1 hs
      exact ⟨members, free_spec hS hsize hp ht⟩
  | write h k j b =>
      obtain ⟨p, hp, hs⟩ := Option.bind_eq_some_iff.1 hs
      split_ifs at hs with hj
      obtain rfl := Option.some.inj hs
      exact ⟨members, write_spec hS hp hj.1 hj.2 b⟩
  | cleanupItem a idle malloc =>
      rw [step] at hs
      split_ifs at hs with hready
      obtain ⟨⟨t, r⟩, ht, rfl⟩ := Option.map_eq_some_iff.1 hs
      exact cleanupItem_spec hS hsize hready ht
  | cleanupNextrequest a =>
      rw [step] at hs
      split_ifs at hs
      obtain rfl := Option.some.inj hs
      exact ⟨members, hS.setIa (fun _ => ⟨rfl, rfl⟩) (.inr ⟨rfl, .inl ⟨rfl, rfl⟩⟩) (.inr (.inl rfl))⟩
  | maintenance a =>
      rw [step] at hs
      split_ifs at hs with hready
      obtain ⟨t, members', ht, hT⟩ := maintenance_spec hS hready hfits
      obtain rfl := Option.some.inj (ht.symm.trans hs)
      exact ⟨members', hT⟩

/-- **The start of the program.** -/
theorem sound_init (mem : ℕ → UInt8) : Sound S (State.init mem) fun _ => [] where
  inv :=
    { lists := ⟨fun i => by cases i with
        | none => rfl
        | some l => obtain ⟨b, k⟩ := l; cases k <;> rfl, fun _ => List.nodup_nil, fun _ _ _ h => by cases h⟩
      cur := fun _ k => by cases k <;> rfl
      known := fun _ _ h => by cases h
      reserved := fun _ _ h => by cases h
      one_reserve := fun _ _ _ h => by cases h
      headers := fun _ _ h => by cases h
      held := fun _ h => by cases h
      full := fun _ _ h => by cases h
      offset := fun _ _ h => by cases h
      nic := fun _ _ h => by cases h
      idle := fun _ _ => ⟨rfl, fun _ => rfl⟩
      absent := fun _ _ => ⟨rfl, rfl, rfl⟩
      within := fun _ h => by cases h
      started := fun _ h => by cases h }
  cleans _ _ h := by cases h

/-! ## What the invariant says -/

/-- **A sound state is well formed.** -/
theorem Sound.wellFormed (hS : Sound S s members) : WellFormed s where
  scan a h hh := by
    obtain ⟨⟨hinactive, hread⟩, -, k, hk⟩ := hS.cleans a h hh
    exact ⟨(hS.inv.full _ h hk hinactive).trans (hS.inv.held h (hS.inv.known _ h hk)).size.symm, hread⟩
  freed_le h := by
    cases hknown : s.segHeaders h with
    | none =>
        obtain ⟨hsize, hfreed, -⟩ := hS.inv.absent h hknown
        rw [hsize, hfreed]
    | some g =>
        obtain rfl := (hS.inv.headers h g hknown).1
        have hheld := hS.inv.held g hknown
        rw [hheld.freed, hheld.size]
        exact gone_le.trans hheld.fits
  freed_eq h := by
    cases hknown : s.segHeaders h with
    | none =>
        obtain ⟨hsize, hfreed, -⟩ := hS.inv.absent h hknown
        rw [hsize, hfreed]
        exact ⟨fun _ b hb => absurd hb (Nat.not_lt_zero b), fun _ => rfl⟩
    | some g =>
        obtain rfl := (hS.inv.headers h g hknown).1
        have hheld := hS.inv.held g hknown
        rw [hheld.freed, hheld.size]
        exact gone_eq_iff hheld.reads hheld.fits
  free h hfree := by
    obtain ⟨p, hp, hreach⟩ := hfree
    have hmem : h ∈ members none := hS.inv.lists.mem_of_reach (i := none) hp hreach
    have hother : ∀ l, h ∉ members (some l) := fun l hl => by
      cases hS.inv.lists.apart _ _ h hmem hl
    have hcur : ∀ b k, (s.ia b).curOf k ≠ some h := fun b k heq =>
      hother _ (hS.inv.mem_of_cur heq)
    have hold : ∀ b k, (s.ia b).oldestOf k ≠ some h := fun b k heq =>
      hother (b, k) (List.mem_of_head? ((hS.inv.lists.head_eq (some (b, k))).symm.trans heq))
    exact ⟨hS.inv.nic_none fun b => hother _, fun b => ⟨hcur b false, hcur b true, hold b false,
      hold b true, fun heq => (hS.cleans b h heq).2.2.elim fun k hk => hother _ hk,
      fun heq => (hS.inv.reserved b h heq).2.2 none hmem⟩⟩

/-! ## Every run -/

/-- **Every run whose calls fit** leads to a sound state. -/
theorem run_sound (hsize : S.segsize < 2 ^ 32) {mem : ℕ → UInt8} {calls : List Call}
    (hfits : Meets (step S) Fits (State.init mem) calls)
    (hrun : run (step S) (State.init mem) calls = some s) : ∃ members, Sound S s members :=
  run_invariant_of_meets (P := fun s => ∃ members, Sound S s members)
    (fun _ _ _ ⟨_, hS⟩ hc hs => step_sound hsize hS hc hs) ⟨_, sound_init mem⟩ hfits hrun

/-- Three items in segments of 256 bytes: the second one is freed, and the segment of the first
one is cleaned. -/
def shortCalls : List Call :=
  [.initAllocator 0 true, .cleanupItem 0 true true, .alloc 0 4 0 false true,
    .alloc 0 0 176 false true, .alloc 0 0 76 false true, .free 0 1, .maintenance 0, .maintenance 0]

/-- A segment is used a second time, for a small item, and is filled up because the next item does
not fit.  The length of the filler does not fit into `keylen`. -/
def largeGap : List Call :=
  [.initAllocator 0 true, .cleanupItem 0 true true, .alloc 0 0 131048 false true] ++
  ([12, 13, 14, 15, 18, 19].map fun j => .write 0 0 (65536 + j) 255) ++
  [.alloc 0 0 131048 false true, .free 0 0, .maintenance 0, .alloc 0 0 76 false true,
    .alloc 0 0 131048 false true, .maintenance 0, .maintenance 0]

end Ialloc
end Floem
