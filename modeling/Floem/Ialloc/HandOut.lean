import Floem.Ialloc.Invariant

/-!
# Segments that are handed out

* `HandedOut`, `segmentAlloc_spec` — what `segment_alloc` returns is in no other place.


-/

namespace Floem
open Lib

namespace Ialloc

variable {S : Settings} {s s' : State} {members members' : Place → List ℕ} {h a : ℕ}

/-- A segment is prepared that is in no list. -/
structure Prepares (s s' : State) (h : ℕ) : Prop where
  header : ∀ g, g ≠ h → s'.header g = s.header g
  log : ∀ g, g ≠ h → s'.log g = s.log g
  mem : s'.mem = s.mem
  nic : s'.nic = s.nic
  ia : s'.ia = s.ia
  ready : s'.ready = s.ready
  segHeaders : s'.segHeaders = Function.update s.segHeaders h (some h)
  segAlloced : s.segAlloced ≤ s'.segAlloced
  lt : h < s'.segAlloced

theorem Inv.prepare (hI : Inv S s members) (hp : Prepares s s' h)
    (hlists : Lists s'.next s'.head members') (hsome : ∀ l, members' (some l) = members (some l))
    (hsub : ∀ g ∈ members' none, g ∈ members none) (hloose : ∀ i, h ∉ members' i)
    (hres : ∀ a, (s.ia a).reserved ≠ some h) (hheld : Held S s' h) (hmax : h < S.segmaxnum) :
    Inv S s' members' := by
  have hsub : ∀ i, ∀ g ∈ members' i, g ∈ members i := by
    intro i g hg
    cases i with
    | none => exact hsub g hg
    | some l => rwa [← hsome l]
  have hne : ∀ i, ∀ g ∈ members' i, g ≠ h := fun i g hg heq => hloose i (heq ▸ hg)
  have hknown : ∀ g, s.segHeaders g = some g → s'.segHeaders g = some g := by
    intro g hg
    rw [hp.segHeaders]
    by_cases hgh : g = h
    · rw [hgh, Function.update_self]
    · rw [Function.update_of_ne hgh, hg]
  refine ⟨hlists, ?_, fun i g hg => hknown g (hI.known i g (hsub i g hg)), ?_, ?_, ?_, ?_, ?_, ?_,
    ?_, ?_, ?_, ?_, ?_⟩
  · intro a isNic
    rw [hp.ia, hsome]
    exact hI.cur a isNic
  · intro a g hg
    rw [hp.ia] at hg
    obtain ⟨hg', hfresh, hl⟩ := hI.reserved a g hg
    have hgh : g ≠ h := fun heq => hres a (heq ▸ hg)
    refine ⟨hknown g hg', ⟨?_, ?_, ?_⟩, fun i hi => hl i (hsub i g hi)⟩
    · rw [hp.log g hgh]
      exact hfresh.log
    · rw [hp.header g hgh]
      exact hfresh.offset
    · rw [hp.header g hgh]
      exact hfresh.active
  · rw [hp.ia]
    exact hI.one_reserve
  · intro i g hg
    rw [hp.segHeaders] at hg
    by_cases hih : i = h
    · rw [hih, Function.update_self] at hg
      obtain rfl := Option.some.inj hg
      exact ⟨hih.symm, hih ▸ hp.lt⟩
    · rw [Function.update_of_ne hih] at hg
      exact (hI.headers i g hg).imp_right fun hlt => hlt.trans_le hp.segAlloced
  · intro g hg
    by_cases hgh : g = h
    · rw [hgh]
      exact hheld
    · rw [hp.segHeaders, Function.update_of_ne hgh] at hg
      exact (hI.held g hg).congr (by rw [hp.header g hgh]; exact ⟨rfl, rfl, rfl⟩) (hp.log g hgh)
        fun k _ => by rw [hp.mem]
  · intro l g hg hinactive
    have hgh := hne _ g hg
    rw [hp.header g hgh] at hinactive
    rw [hp.log g hgh]
    exact hI.full l g (hsub _ g hg) hinactive
  · intro a g hg
    have hgh := hne _ g hg
    rw [hp.header g hgh, hp.log g hgh]
    exact hI.offset a g (hsub _ g hg)
  · intro g off hg
    rw [hp.nic] at hg
    obtain ⟨hoff, hactive, a, ha⟩ := hI.nic g off hg
    rw [← hsome] at ha
    have hgh := hne _ g ha
    rw [hp.header g hgh, hp.log g hgh]
    exact ⟨hoff, hactive, a, ha⟩
  · intro a ha
    rw [hp.ready] at ha
    rw [hp.ia]
    exact ⟨(hI.idle a ha).1, fun isNic => (hsome _).trans ((hI.idle a ha).2 isNic)⟩
  · intro g hg
    rw [hp.segHeaders] at hg
    by_cases hgh : g = h
    · rw [hgh, Function.update_self] at hg
      cases hg
    · rw [Function.update_of_ne hgh] at hg
      rw [hp.header g hgh, hp.log g hgh]
      exact hI.absent g hg
  · intro g hg
    by_cases hgh : g = h
    · rwa [hgh]
    · rw [hp.segHeaders, Function.update_of_ne hgh] at hg
      exact hI.within g hg
  · intro a ha
    rw [hp.ready] at ha
    rw [hsome]
    exact hI.started a ha

/-- **What `segment_alloc` does**: the lists of the allocators stay, and a segment that is
returned is nowhere. -/
structure HandedOut (S : Settings) (s s' : State) (members members' : Place → List ℕ)
    (r : Option ℕ) : Prop where
  inv : Inv S s' members'
  same : ∀ l, members' (some l) = members (some l)
  ia : s'.ia = s.ia
  ready : s'.ready = s.ready
  nic : s'.nic = s.nic
  listed : ∀ l, ∀ g ∈ members (some l), s'.header g = s.header g ∧ s'.log g = s.log g
  spare : ∀ h, r = some h → Spare s' members' h

theorem HandedOut.of_prepares (hinv : Inv S s' members') (hp : Prepares s s' h)
    (hsome : ∀ l, members' (some l) = members (some l)) (hloose : ∀ i, h ∉ members' i)
    (hres : ∀ a, (s.ia a).reserved ≠ some h) (hfresh : Fresh s' h) :
    HandedOut S s s' members members' (some h) where
  inv := hinv
  same := hsome
  ia := hp.ia
  ready := hp.ready
  nic := hp.nic
  listed l g hg := by
    have hgh : g ≠ h := fun heq => hloose (some l) (by rw [hsome, ← heq]; exact hg)
    exact ⟨hp.header g hgh, hp.log g hgh⟩
  spare g hg := by
    obtain rfl := Option.some.inj hg
    exact ⟨by rw [hp.segHeaders, Function.update_self], hfresh, hloose, by
      rw [hp.ia]
      exact hres⟩

/-- A segment after `init_h:`. -/
theorem prepares_initSegment (core : ℕ) (halloc : h < s.segAlloced)
    (hknown : s.segHeaders h = some h) : Prepares s (initSegment s h core) h where
  header _ hg := Function.update_of_ne hg ..
  log _ hg := State.setLog_of_ne _ _ hg
  mem := rfl
  nic := rfl
  ia := rfl
  ready := rfl
  segHeaders := (Function.update_eq_self_iff.2 hknown.symm).symm
  segAlloced := Nat.le_refl _
  lt := halloc

theorem fresh_initSegment (core : ℕ) : Fresh (initSegment s h core) h where
  log := State.setLog_self ..
  offset := by rw [initSegment, State.setLog_header, State.setHeader_self]
  active := by rw [initSegment, State.setLog_header, State.setHeader_self]

theorem held_initSegment (core : ℕ) (hdata : (s.header h).data = S.segsize * h)
    (hsize : (s.header h).size = S.segsize) : Held S (initSegment s h core) h := by
  have hlog : (initSegment s h core).log h = [] := (fresh_initSegment core).log
  refine ⟨?_, ?_, by rw [hlog]; exact Nat.zero_le _, ?_, by rw [hlog]; trivial⟩
  · rw [initSegment, State.setLog_header, State.setHeader_self]
    exact hdata
  · rw [initSegment, State.setLog_header, State.setHeader_self]
    exact hsize
  · rw [hlog, initSegment, State.setLog_header, State.setHeader_self]
    rfl

theorem next_initSegment (core : ℕ) (g : ℕ) : (initSegment s h core).next g = s.next g := by
  by_cases hg : g = h
  · rw [hg, State.next, initSegment, State.setLog_header, State.setHeader_self]
    rfl
  · rw [State.next, show (initSegment s h core).header g = s.header g from Function.update_of_ne hg ..]
    rfl

/-- **`segment_alloc`** -/
theorem segmentAlloc_spec (hI : Inv S s members) (hsize : S.segsize < 2 ^ 32) {malloc : Bool}
    {core : ℕ} {r : Option ℕ} (hs : segmentAlloc S malloc core s = some (s', r)) :
    ∃ members', HandedOut S s s' members members' r := by
  rw [segmentAlloc] at hs
  split at hs
  · next h hfree =>
      obtain ⟨rfl, rfl⟩ := Prod.mk.inj (Option.some.inj hs)
      obtain ⟨l, hl⟩ : ∃ l, members none = h :: l := by
        have hhead := hI.lists.head_eq none
        rw [State.head, hfree] at hhead
        cases hmem : members none with
        | nil =>
            rw [hmem] at hhead
            cases hhead
        | cons x l =>
            rw [hmem] at hhead
            obtain rfl := Option.some.inj hhead
            exact ⟨l, rfl⟩
      have hmem : h ∈ members none := by rw [hl]; exact List.mem_cons_self
      have hknown := hI.known none h hmem
      have hheld := hI.held h hknown
      have hloose := hI.lists.notMem_pop hl
      have hres : ∀ a, (s.ia a).reserved ≠ some h := fun a ha => (hI.reserved a h ha).2.2 none hmem
      have hsome : ∀ m, Function.update members none l (some m) = members (some m) := fun m =>
        Function.update_of_ne (by simp) ..
      have hp : Prepares s (initSegment { s with freeSegments := (s.header h).next } h core) h :=
        let hp := prepares_initSegment (s := { s with freeSegments := (s.header h).next }) core
          (hI.headers h h hknown).2 hknown
        ⟨hp.header, hp.log, rfl, rfl, rfl, rfl, hp.segHeaders, hp.segAlloced, hp.lt⟩
      refine ⟨Function.update members none l, .of_prepares ?_ hp hsome hloose hres
        (fresh_initSegment core)⟩
      refine hI.prepare hp ?_ hsome (fun g hg => ?_) hloose hres
        (held_initSegment core hheld.data hheld.size) (hI.within h hknown)
      · refine (hI.lists.pop hl).congr (fun i g _ => next_initSegment core g) fun i => ?_
        cases i with
        | none => rw [Function.update_self]; rfl
        | some m => rw [Function.update_of_ne (by simp)]; rfl
      · rw [Function.update_self] at hg
        rw [hl]
        exact List.mem_cons_of_mem h hg
  · dsimp only at hs
    split_ifs at hs with hmax
    · obtain ⟨rfl, rfl⟩ := Prod.mk.inj (Option.some.inj hs)
      have hfresh : ∀ g, s.segHeaders g = some g → g ≠ s.segAlloced := fun g hg heq =>
        Nat.lt_irrefl _ (heq ▸ (hI.headers g g hg).2)
      have hloose : ∀ i, s.segAlloced ∉ members i := fun i hi =>
        hfresh _ (hI.known i _ hi) rfl
      have hres : ∀ a, (s.ia a).reserved ≠ some s.segAlloced := fun a ha =>
        hfresh _ (hI.reserved a _ ha).1 rfl
      have hp : Prepares s (initSegment (newSegment S { s with segAlloced := s.segAlloced + 1 }
          s.segAlloced) s.segAlloced core) s.segAlloced := by
        have hp := prepares_initSegment (s := newSegment S
          { s with segAlloced := s.segAlloced + 1 } s.segAlloced) core (Nat.lt_succ_self _)
          (Function.update_self ..)
        refine ⟨fun g hg => (hp.header g hg).trans (Function.update_of_ne hg ..), hp.log, rfl, rfl,
          rfl, rfl, rfl, Nat.le_succ _, Nat.lt_succ_self _⟩
      refine ⟨members, .of_prepares ?_ hp (fun _ => rfl) hloose hres (fresh_initSegment core)⟩
      refine hI.prepare hp ?_ (fun _ => rfl) (fun g hg => hg) hloose hres
        (held_initSegment core ?_ ?_) (Nat.not_le.1 hmax)
      · refine hI.lists.congr (fun i g hg => ?_) fun i => ?_
        · have hne : g ≠ s.segAlloced := fun heq => hloose i (heq ▸ hg)
          rw [State.next, hp.header g hne]
          rfl
        · cases i <;> rfl
      · rw [newSegment, State.setHeader_self]
      · rw [newSegment, State.setHeader_self]
        exact Nat.mod_eq_of_lt hsize
    · obtain ⟨rfl, rfl⟩ := Prod.mk.inj (Option.some.inj hs)
      refine ⟨members, ?_, fun _ => rfl, rfl, rfl, rfl, fun _ _ _ => ⟨rfl, rfl⟩, fun _ h => by cases h⟩
      exact ⟨hI.lists.congr (fun _ _ _ => rfl) fun i => by cases i <;> rfl, hI.cur, hI.known,
        fun a g hg => let hr := hI.reserved a g hg
          ⟨hr.1, ⟨hr.2.1.log, hr.2.1.offset, hr.2.1.active⟩, hr.2.2⟩,
        hI.one_reserve, fun i g hg => (hI.headers i g hg).imp_right Nat.lt_succ_of_lt,
        fun g hg => (hI.held g hg).congr ⟨rfl, rfl, rfl⟩ rfl fun _ _ => rfl,
        hI.full, hI.offset, hI.nic, hI.idle, hI.absent, hI.within, hI.started⟩

end Ialloc
end Floem
