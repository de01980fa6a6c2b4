import Floem.Lib.Chains
import Floem.Ialloc.Pieces

/-!
# The invariant of the segments

* `Held` — what a segment and its header hold.
* `Inv` — the segments are in the free list, in the lists of the allocators, or in reserve, each
  in one place.
* `Cleans`, `Sound` — with the segments that the allocators clean.
* `Inv.change` — what changes one segment only.
-/

namespace Floem
open Lib

namespace Ialloc

/-- `next`, of all headers. -/
def State.next (s : State) (h : ℕ) : Option ℕ := (s.header h).next

/-- The free list, or one of the two lists of an allocator. -/
abbrev Place := Option (ℕ × Bool)

def State.head (s : State) : Place → Option ℕ
  | none => s.freeSegments
  | some (a, isNic) => (s.ia a).oldestOf isNic

variable (S : Settings) (s : State)

/-- What a segment and its header hold. -/
structure Held (h : ℕ) : Prop where
  data : (s.header h).data = S.segsize * h
  size : (s.header h).size = S.segsize
  fits : total (s.log h) ≤ S.segsize
  freed : (s.header h).freed = gone (s.log h)
  reads : Reads S.segsize s.mem (S.segsize * h) 0 (s.log h)

/-- A segment that was not used yet. -/
structure Fresh (h : ℕ) : Prop where
  log : s.log h = []
  offset : (s.header h).offset = 0
  active : (s.header h).inactive = false

/-- Every segment is in one place, and the lists are linked. -/
structure Inv (members : Place → List ℕ) : Prop where
  lists : Lists s.next s.head members
  cur : ∀ a isNic, (s.ia a).curOf isNic = (members (some (a, isNic))).getLast?
  known : ∀ i, ∀ h ∈ members i, s.segHeaders h = some h
  reserved : ∀ a h, (s.ia a).reserved = some h →
    s.segHeaders h = some h ∧ Fresh s h ∧ ∀ i, h ∉ members i
  one_reserve : ∀ a b h, (s.ia a).reserved = some h → (s.ia b).reserved = some h → a = b
  headers : ∀ i h, s.segHeaders i = some h → h = i ∧ i < s.segAlloced
  held : ∀ h, s.segHeaders h = some h → Held S s h
  full : ∀ l, ∀ h ∈ members (some l), (s.header h).inactive = true → total (s.log h) = S.segsize
  offset : ∀ a, ∀ h ∈ members (some (a, false)), (s.header h).offset = total (s.log h)
  nic : ∀ h off, s.nic h = some off → off = total (s.log h) ∧ (s.header h).inactive = false ∧
    ∃ a, h ∈ members (some (a, true))
  idle : ∀ a, s.ready a = false →
    (s.ia a).reserved = none ∧ ∀ isNic, members (some (a, isNic)) = []
  absent : ∀ h, s.segHeaders h = none →
    (s.header h).size = 0 ∧ (s.header h).freed = 0 ∧ s.log h = []
  within : ∀ h, s.segHeaders h = some h → h < S.segmaxnum
  started : ∀ a, s.ready a = true → members (some (a, false)) ≠ []

/-- The segment that an allocator cleans is full, and the part of it that was read was read at
the boundaries. -/
structure Scanned (a h : ℕ) : Prop where
  inactive : (s.header h).inactive = true
  read : ∃ before after, s.log h = before ++ after ∧ (s.ia a).cleanOffset = total before ∧
    (s.ia a).seen = boundaries 0 before

/-- What an allocator cleans is in one of its lists. -/
def Cleans (members : Place → List ℕ) (a : ℕ) : Prop :=
  ∀ h, (s.ia a).cleaning = some h →
    Scanned s a h ∧ s.ready a = true ∧ ∃ isNic, h ∈ members (some (a, isNic))

/-- **The invariant of the allocators.** -/
structure Sound (members : Place → List ℕ) : Prop where
  inv : Inv S s members
  cleans : ∀ b, Cleans s members b

/-- A segment that is nowhere, as `segment_alloc` returns it. -/
structure Spare (members : Place → List ℕ) (h : ℕ) : Prop where
  known : s.segHeaders h = some h
  fresh : Fresh s h
  loose : ∀ i, h ∉ members i
  unreserved : ∀ a, (s.ia a).reserved ≠ some h

variable {S s} {s' : State} {members : Place → List ℕ} {h a : ℕ}

/-- A segment in a list is not given to a NIC by a list of items of the CPU. -/
theorem Inv.nic_cpu (hI : Inv S s members) (hh : h ∈ members (some (a, false))) :
    s.nic h = none := by
  cases hnic : s.nic h with
  | none => rfl
  | some off =>
      obtain ⟨-, -, b, hb⟩ := hI.nic h off hnic
      cases hI.lists.apart _ _ h hh hb

/-- A segment that is in no list of an allocator is not given to a NIC. -/
theorem Inv.nic_none (hI : Inv S s members) (hh : ∀ a, h ∉ members (some (a, true))) :
    s.nic h = none := by
  cases hnic : s.nic h with
  | none => rfl
  | some off =>
      obtain ⟨-, -, b, hb⟩ := hI.nic h off hnic
      exact absurd hb (hh b)

/-- Memory outside a segment does not matter to it. -/
theorem Held.congr (hh : Held S s h) (hheader : (s'.header h).data = (s.header h).data ∧
    (s'.header h).size = (s.header h).size ∧ (s'.header h).freed = (s.header h).freed)
    (hlog : s'.log h = s.log h)
    (hmem : ∀ k < S.segsize, s'.mem (S.segsize * h + k) = s.mem (S.segsize * h + k)) :
    Held S s' h where
  data := hheader.1.trans hh.data
  size := hheader.2.1.trans hh.size
  fits := by
    rw [hlog]
    exact hh.fits
  freed := by
    rw [hlog]
    exact hheader.2.2.trans hh.freed
  reads := by
    rw [hlog]
    refine hh.reads.congr_outside fun b hlow hhigh => ?_
    have hfits := hh.fits
    have hb := hmem (b - S.segsize * h) (by omega)
    rwa [show S.segsize * h + (b - S.segsize * h) = b by omega] at hb

/-- The segments have no byte in common. -/
theorem segments_apart {size g k j : ℕ} (hk : k < size) (hj : j < size) (hg : g ≠ h) :
    size * g + k ≠ size * h + j := by
  intro heq
  have hdiv := congrArg (· / size) heq
  simp only [Nat.mul_add_div (Nat.pos_of_ne_zero (by omega : size ≠ 0)), Nat.div_eq_of_lt hk,
    Nat.div_eq_of_lt hj, Nat.add_zero] at hdiv
  exact hg hdiv

/-- What stays the same when one segment is changed. -/
structure Only (s s' : State) (h : ℕ) : Prop where
  header : ∀ g, g ≠ h → s'.header g = s.header g
  log : ∀ g, g ≠ h → s'.log g = s.log g
  nic : ∀ g, g ≠ h → s'.nic g = s.nic g
  next : (s'.header h).next = (s.header h).next
  segHeaders : s'.segHeaders = s.segHeaders
  segAlloced : s'.segAlloced = s.segAlloced
  freeSegments : s'.freeSegments = s.freeSegments
  ia : s'.ia = s.ia
  ready : s'.ready = s.ready

/-- **A change of one segment** keeps the invariant, if it does so there and leaves the memory
of the others alone. -/
theorem Inv.change (hI : Inv S s members) (ho : Only s s' h)
    (hmem : ∀ g, g ≠ h → ∀ k < S.segsize, s'.mem (S.segsize * g + k) = s.mem (S.segsize * g + k))
    (hknown : s.segHeaders h = some h) (hheld : Held S s' h)
    (hreserved : ∀ a, (s.ia a).reserved = some h → Fresh s' h)
    (hfull : ∀ l, h ∈ members (some l) → (s'.header h).inactive = true →
      total (s'.log h) = S.segsize)
    (hoffset : ∀ a, h ∈ members (some (a, false)) → (s'.header h).offset = total (s'.log h))
    (hnic : ∀ off, s'.nic h = some off → off = total (s'.log h) ∧
      (s'.header h).inactive = false ∧ ∃ a, h ∈ members (some (a, true))) :
    Inv S s' members := by
  have hnext : ∀ g, s'.next g = s.next g := by
    intro g
    by_cases hg : g = h
    · rw [hg]
      exact ho.next
    · rw [State.next, ho.header g hg]
      rfl
  refine ⟨hI.lists.congr (fun _ g _ => hnext g) fun i => ?_, ?_, ?_, ?_, ?_, ?_, ?_, ?_, ?_, ?_, ?_,
    ?_, ?_, ?_⟩
  · cases i with
    | none => exact ho.freeSegments
    | some l => rw [State.head, State.head, ho.ia]
  · rw [ho.ia]
    exact hI.cur
  · rw [ho.segHeaders]
    exact hI.known
  · intro a g hg
    rw [ho.ia] at hg
    obtain ⟨hg', hfresh, hloose⟩ := hI.reserved a g hg
    refine ⟨by rw [ho.segHeaders]; exact hg', ?_, hloose⟩
    by_cases hgh : g = h
    · rw [hgh] at hg ⊢
      exact hreserved a hg
    · refine ⟨?_, ?_, ?_⟩
      · rw [ho.log g hgh]
        exact hfresh.log
      · rw [ho.header g hgh]
        exact hfresh.offset
      · rw [ho.header g hgh]
        exact hfresh.active
  · rw [ho.ia]
    exact hI.one_reserve
  · rw [ho.segHeaders, ho.segAlloced]
    exact hI.headers
  · intro g hg
    by_cases hgh : g = h
    · rw [hgh]
      exact hheld
    · rw [ho.segHeaders] at hg
      have hheader := ho.header g hgh
      exact (hI.held g hg).congr (by rw [hheader]; exact ⟨rfl, rfl, rfl⟩) (ho.log g hgh)
        (hmem g hgh)
  · intro m g hg hinactive
    by_cases hgh : g = h
    · rw [hgh] at hg hinactive ⊢
      exact hfull m hg hinactive
    · rw [ho.header g hgh] at hinactive
      rw [ho.log g hgh]
      exact hI.full m g hg hinactive
  · intro a g hg
    by_cases hgh : g = h
    · rw [hgh] at hg ⊢
      exact hoffset a hg
    · rw [ho.header g hgh, ho.log g hgh]
      exact hI.offset a g hg
  · intro g off hg
    by_cases hgh : g = h
    · rw [hgh] at hg ⊢
      exact hnic off hg
    · rw [ho.nic g hgh] at hg
      rw [ho.header g hgh, ho.log g hgh]
      exact hI.nic g off hg
  · rw [ho.ia, ho.ready]
    exact hI.idle
  · intro g hg
    rw [ho.segHeaders] at hg
    have hgh : g ≠ h := by
      intro heq
      rw [heq, hknown] at hg
      cases hg
    rw [ho.header g hgh, ho.log g hgh]
    exact hI.absent g hg
  · rw [ho.segHeaders]
    exact hI.within
  · rw [ho.ready]
    exact hI.started

/-- What is cleaned stays so, if the changed segment is not cleaned or keeps its sizes. -/
theorem Cleans.change {b : ℕ} (hc : Cleans s members b) (ho : Only s s' h)
    (hsame : (s.ia b).cleaning = some h → (s'.header h).inactive = true ∧
      (s'.log h).map Piece.size = (s.log h).map Piece.size) : Cleans s' members b := by
  intro g hg
  rw [ho.ia] at hg
  obtain ⟨⟨hinactive, before, after, hlog, hoff, hseen⟩, hready, hmem⟩ := hc g hg
  rw [ho.ready]
  refine ⟨?_, hready, hmem⟩
  by_cases hgh : g = h
  · rw [hgh] at hg ⊢
    obtain ⟨hinactive', hsizes⟩ := hsame hg
    rw [hgh] at hlog
    rw [hlog, List.map_append] at hsizes
    obtain ⟨before', after', hlog', hbefore, -⟩ := List.map_eq_append_iff.1 hsizes
    refine ⟨hinactive', before', after', hlog', ?_, ?_⟩
    · rw [ho.ia, hoff, total_congr hbefore]
    · rw [ho.ia, hseen, boundaries_congr hbefore]
  · refine ⟨by rw [ho.header g hgh]; exact hinactive, before, after, ?_, ?_, ?_⟩
    · rw [ho.log g hgh, hlog]
    · rw [ho.ia, hoff]
    · rw [ho.ia, hseen]

/-! ## Changes of the links -/

/-- What stays the same when only links, allocators and flags are changed; a segment that comes
to the free list loses its offset. -/
structure Alike (s s' : State) (members' : Place → List ℕ) : Prop where
  header : ∀ g, (s'.header g).data = (s.header g).data ∧ (s'.header g).size = (s.header g).size ∧
    (s'.header g).freed = (s.header g).freed ∧ (s'.header g).inactive = (s.header g).inactive
  offset : ∀ g, g ∉ members' none → (s'.header g).offset = (s.header g).offset
  log : s'.log = s.log
  mem : s'.mem = s.mem
  nic : s'.nic = s.nic
  segHeaders : s'.segHeaders = s.segHeaders
  segAlloced : s'.segAlloced = s.segAlloced

theorem Fresh.alike {members' : Place → List ℕ} (hf : Fresh s h) (ho : Alike s s' members')
    (hh : h ∉ members' none) : Fresh s' h where
  log := by
    rw [ho.log]
    exact hf.log
  offset := (ho.offset h hh).trans hf.offset
  active := (ho.header h).2.2.2.trans hf.active

/-- **New links** keep the invariant, if the lists get fresh segments only and a segment that a
NIC has stays in its list. -/
theorem Inv.relink {members' : Place → List ℕ} (hI : Inv S s members)
    (ho : Alike s s' members') (hlists : Lists s'.next s'.head members')
    (hcur : ∀ a isNic, (s'.ia a).curOf isNic = (members' (some (a, isNic))).getLast?)
    (hknown : ∀ i, ∀ h ∈ members' i, s.segHeaders h = some h)
    (hreserved : ∀ a h, (s'.ia a).reserved = some h →
      s.segHeaders h = some h ∧ Fresh s h ∧ ∀ i, h ∉ members' i)
    (hone : ∀ a b h, (s'.ia a).reserved = some h → (s'.ia b).reserved = some h → a = b)
    (hnew : ∀ l, ∀ h ∈ members' (some l), h ∈ members (some l) ∨ Fresh s h)
    (hkept : ∀ a h off, s.nic h = some off → h ∈ members (some (a, true)) →
      h ∈ members' (some (a, true)))
    (hidle : ∀ a, s'.ready a = false →
      (s'.ia a).reserved = none ∧ ∀ isNic, members' (some (a, isNic)) = [])
    (hstarted : ∀ a, s'.ready a = true → members' (some (a, false)) ≠ []) :
    Inv S s' members' := by
  have hfree : ∀ l, ∀ h ∈ members' (some l), h ∉ members' none := by
    intro l h hh hnone
    cases hlists.apart _ _ h hh hnone
  refine ⟨hlists, hcur, ?_, ?_, hone, ?_, ?_, ?_, ?_, ?_, hidle, ?_, ?_, hstarted⟩
  · rw [ho.segHeaders]
    exact hknown
  · intro a h hh
    obtain ⟨hh, hfresh, hloose⟩ := hreserved a h hh
    refine ⟨by rw [ho.segHeaders]; exact hh, hfresh.alike ho (hloose none), hloose⟩
  · rw [ho.segHeaders, ho.segAlloced]
    exact hI.headers
  · intro h hh
    rw [ho.segHeaders] at hh
    obtain ⟨hdata, hsize, hfreed, -⟩ := ho.header h
    exact (hI.held h hh).congr ⟨hdata, hsize, hfreed⟩ (by rw [ho.log]) fun k _ => by rw [ho.mem]
  · intro l h hh hinactive
    rw [(ho.header h).2.2.2] at hinactive
    rw [ho.log]
    rcases hnew l h hh with hold | hfresh
    · exact hI.full l h hold hinactive
    · rw [hfresh.active] at hinactive
      cases hinactive
  · intro a h hh
    rw [ho.offset h (hfree _ h hh), ho.log]
    rcases hnew _ h hh with hold | hfresh
    · exact hI.offset a h hold
    · rw [hfresh.offset, hfresh.log, total_nil]
  · intro h off hh
    rw [ho.nic] at hh
    obtain ⟨hoff, hactive, a, ha⟩ := hI.nic h off hh
    refine ⟨by rw [ho.log]; exact hoff, (ho.header h).2.2.2.trans hactive, a, hkept a h off hh ha⟩
  · intro h hh
    rw [ho.segHeaders] at hh
    obtain ⟨-, hsize, hfreed, -⟩ := ho.header h
    rw [hsize, hfreed, ho.log]
    exact hI.absent h hh
  · rw [ho.segHeaders]
    exact hI.within

/-- What is cleaned stays so, if it stays in its list. -/
theorem Cleans.relink {members' : Place → List ℕ} {b : ℕ} (hc : Cleans s members b)
    (ho : Alike s s' members') (hready : s.ready b = true → s'.ready b = true)
    (hia : (s'.ia b).cleaning = (s.ia b).cleaning ∧
      (s'.ia b).cleanOffset = (s.ia b).cleanOffset ∧ (s'.ia b).seen = (s.ia b).seen)
    (hkept : ∀ h isNic, (s.ia b).cleaning = some h → h ∈ members (some (b, isNic)) →
      h ∈ members' (some (b, isNic))) : Cleans s' members' b := by
  intro h hh
  rw [hia.1] at hh
  obtain ⟨⟨hinactive, before, after, hlog, hoff, hseen⟩, hr, isNic, hmem⟩ := hc h hh
  refine ⟨⟨(ho.header h).2.2.2.trans hinactive, before, after, ?_, hia.2.1.trans hoff,
    hia.2.2.trans hseen⟩, hready hr, isNic, hkept h isNic hh hmem⟩
  rw [ho.log]
  exact hlog

end Ialloc
end Floem
