import Floem.Ialloc.HandOut
import Floem.Ialloc.Items

/-!
# Segments that come into place

* `Sound.setIa` — what an allocator keeps besides its lists; a segment is put in reserve.
* `Appends`, `Sound.append` — a segment is put behind those of a list.
* `reserve_spec`, `takeSegment_spec`, `nextSegment_spec`, `linkNic_spec`,
  `initAllocator_spec` — the calls that do so.
-/

namespace Floem
open Lib

namespace Ialloc

variable {S : Settings} {s s' : State} {members members' : Place → List ℕ} {h a : ℕ}

/-! ## What an allocator keeps besides its lists -/

/-- The links of the lists, where only the other fields of an allocator change. -/
theorem head_setIa {f : Allocator → Allocator}
    (hf : ∀ isNic, (f (s.ia a)).oldestOf isNic = (s.ia a).oldestOf isNic) (i : Place) :
    (s.setIa a f).head i = s.head i := by
  cases i with
  | none => rfl
  | some l =>
      by_cases hl : l.1 = a
      · rw [State.head, State.head, hl, State.setIa_self]
        exact hf l.2
      · rw [State.head, State.head, State.setIa_of_ne _ _ hl]

/-- **A change of an allocator** that keeps its lists, with at most a new segment in reserve. -/
theorem Sound.setIa (hS : Sound S s members) {f : Allocator → Allocator}
    (hlists : ∀ isNic, (f (s.ia a)).oldestOf isNic = (s.ia a).oldestOf isNic ∧
      (f (s.ia a)).curOf isNic = (s.ia a).curOf isNic)
    (hclean : (f (s.ia a)).cleaning = none ∨ (f (s.ia a)).cleaning = (s.ia a).cleaning ∧
      ((f (s.ia a)).cleanOffset = (s.ia a).cleanOffset ∧ (f (s.ia a)).seen = (s.ia a).seen ∨
        ∀ h, (s.ia a).cleaning = some h → ∃ before after, s.log h = before ++ after ∧
          (f (s.ia a)).cleanOffset = total before ∧ (f (s.ia a)).seen = boundaries 0 before))
    (hreserved : (f (s.ia a)).reserved = none ∨
      (f (s.ia a)).reserved = (s.ia a).reserved ∨
      s.ready a = true ∧ ∀ h, (f (s.ia a)).reserved = some h → Spare s members h) :
    Sound S (s.setIa a f) members := by
  have hother : ∀ b, b ≠ a → (s.setIa a f).ia b = s.ia b := fun b hb => State.setIa_of_ne _ _ hb
  have halike : Alike s (s.setIa a f) members :=
    ⟨fun _ => ⟨rfl, rfl, rfl, rfl⟩, fun _ _ => rfl, rfl, rfl, rfl, rfl, rfl⟩
  have hres : ∀ b h, ((s.setIa a f).ia b).reserved = some h → (s.ia b).reserved = some h ∨
      b = a ∧ s.ready a = true ∧ Spare s members h := by
    intro b h hb
    by_cases hba : b = a
    · rw [hba, State.setIa_self] at hb
      rcases hreserved with hnone | hsame | ⟨hready, hspare⟩
      · rw [hnone] at hb
        cases hb
      · rw [hba, ← hsame]
        exact .inl hb
      · exact .inr ⟨hba, hready, hspare h hb⟩
    · rw [hother b hba] at hb
      exact .inl hb
  refine ⟨hS.inv.relink halike ?_ ?_ hS.inv.known ?_ ?_ (fun _ _ hh => .inl hh)
    (fun _ _ _ _ hh => hh) ?_ hS.inv.started, fun b => ?_⟩
  · exact hS.inv.lists.congr (fun _ _ _ => rfl) (head_setIa fun isNic => (hlists isNic).1)
  · intro b isNic
    by_cases hba : b = a
    · rw [hba, State.setIa_self, (hlists isNic).2]
      exact hS.inv.cur a isNic
    · rw [hother b hba]
      exact hS.inv.cur b isNic
  · intro b h hb
    rcases hres b h hb with hold | ⟨-, -, hspare⟩
    · exact hS.inv.reserved b h hold
    · exact ⟨hspare.known, hspare.fresh, hspare.loose⟩
  · intro b c h hb hc
    rcases hres b h hb with hb | ⟨hb, -, hspare⟩
    · rcases hres c h hc with hc | ⟨-, -, hspare⟩
      · exact hS.inv.one_reserve b c h hb hc
      · exact absurd hb (hspare.unreserved b)
    · rcases hres c h hc with hc | ⟨hc, -, -⟩
      · exact absurd hc (hspare.unreserved c)
      · rw [hb, hc]
  · intro b hb
    obtain ⟨hnone, hempty⟩ := hS.inv.idle b hb
    refine ⟨?_, hempty⟩
    cases hr : ((s.setIa a f).ia b).reserved with
    | none => rfl
    | some h =>
        rcases hres b h hr with hold | ⟨rfl, hready, -⟩
        · rw [hnone] at hold
          cases hold
        · rw [show s.ready b = false from hb] at hready
          cases hready
  · by_cases hba : b = a
    · subst hba
      rcases hclean with hnone | ⟨hcleaning, hsame | hread⟩
      · intro h hh
        rw [State.setIa_self, hnone] at hh
        cases hh
      · exact (hS.cleans b).relink halike id (by rw [State.setIa_self]; exact ⟨hcleaning, hsame⟩)
          fun _ _ _ hh => hh
      · intro h hh
        rw [State.setIa_self, hcleaning] at hh
        obtain ⟨hscanned, hplace⟩ := hS.cleans b h hh
        exact ⟨⟨hscanned.inactive, by rw [State.setIa_self]; exact hread h hh⟩, hplace⟩
    · exact (hS.cleans b).relink halike id (by rw [hother b hba]; exact ⟨rfl, rfl, rfl⟩)
        fun _ _ _ hh => hh

/-! ## Segments that are handed out -/

/-- A segment that is handed out leaves the segments that are cleaned alone. -/
theorem Sound.handOut (hS : Sound S s members) {r : Option ℕ}
    (hh : HandedOut S s s' members members' r) : Sound S s' members' where
  inv := hh.inv
  cleans b g hg := by
    rw [hh.ia] at hg
    obtain ⟨⟨hinactive, before, after, hlog, hoff, hseen⟩, hready, isNic, hmem⟩ := hS.cleans b g hg
    obtain ⟨hheader, hsame⟩ := hh.listed _ g hmem
    refine ⟨⟨by rw [hheader]; exact hinactive, before, after, by rw [hsame, hlog], ?_, ?_⟩, ?_,
      isNic, by rw [hh.same]; exact hmem⟩
    · rw [hh.ia]
      exact hoff
    · rw [hh.ia]
      exact hseen
    · rw [hh.ready]
      exact hready

/-- **The reserve** of an allocator is filled. -/
theorem reserve_spec (hS : Sound S s members) (hsize : S.segsize < 2 ^ 32)
    (hready : s.ready a = true) {malloc : Bool} (hs : reserve S malloc a s = some s') :
    ∃ members', Sound S s' members' ∧ s'.ready = s.ready := by
  rw [reserve] at hs
  split_ifs at hs with hnone
  · obtain ⟨⟨t, r⟩, ht, hs⟩ := Option.bind_eq_some_iff.1 hs
    obtain rfl := Option.some.inj hs
    obtain ⟨members', hh⟩ := segmentAlloc_spec hS.inv hsize ht
    refine ⟨members', (hS.handOut hh).setIa (fun _ => ⟨rfl, rfl⟩) (.inr ⟨rfl, .inl ⟨rfl, rfl⟩⟩)
      (.inr (.inr ⟨by rw [hh.ready]; exact hready, hh.spare⟩)), hh.ready⟩
  · obtain rfl := Option.some.inj hs
    exact ⟨members, hS, rfl⟩

/-- What a segment that is taken leaves. -/
structure Taken (S : Settings) (s s' : State) (members members' : Place → List ℕ)
    (r : Option ℕ) : Prop where
  sound : Sound S s' members'
  same : ∀ l, members' (some l) = members (some l)
  ready : s'.ready = s.ready
  log : ∀ l, ∀ g ∈ members (some l), s'.log g = s.log g
  spare : ∀ h, r = some h → Spare s' members' h

/-- The segment is a new one, or comes from the reserve. -/
theorem takeSegment_spec (hS : Sound S s members) (hsize : S.segsize < 2 ^ 32) {malloc cleanup : Bool}
    {r : Option ℕ} (hs : takeSegment S malloc a cleanup s = some (s', r)) :
    ∃ members', Taken S s s' members members' r := by
  obtain ⟨⟨t, q⟩, ht, hs⟩ := Option.bind_eq_some_iff.1 hs
  obtain ⟨members', hh⟩ := segmentAlloc_spec hS.inv hsize ht
  have hT := hS.handOut hh
  cases q with
  | some h =>
      obtain ⟨rfl, rfl⟩ := Prod.mk.inj (Option.some.inj hs)
      exact ⟨members', hT, hh.same, hh.ready, fun l g hg => (hh.listed l g hg).2, hh.spare⟩
  | none =>
      dsimp only at hs
      split_ifs at hs
      · obtain ⟨rfl, rfl⟩ := Prod.mk.inj (Option.some.inj hs)
        refine ⟨members', hT.setIa (fun _ => ⟨rfl, rfl⟩) (.inr ⟨rfl, .inl ⟨rfl, rfl⟩⟩) (.inl rfl), hh.same,
          hh.ready, fun l g hg => (hh.listed l g hg).2, fun h hr => ?_⟩
        obtain ⟨hknown, hfresh, hloose⟩ := hT.inv.reserved a h hr
        refine ⟨hknown, ⟨hfresh.log, hfresh.offset, hfresh.active⟩, hloose, fun b hb => ?_⟩
        by_cases hba : b = a
        · rw [hba, State.setIa_self] at hb
          cases hb
        · rw [State.setIa_of_ne _ _ hba] at hb
          exact hba (hT.inv.one_reserve b a h hb hr)
      · obtain ⟨rfl, rfl⟩ := Prod.mk.inj (Option.some.inj hs)
        exact ⟨members', hT, hh.same, hh.ready, fun l g hg => (hh.listed l g hg).2,
          fun _ hr => (by cases hr)⟩

/-! ## A new last segment -/

/-- What changes when a segment is put behind those of a list. -/
structure Appends (s s' : State) (a : ℕ) (isNic : Bool) (h : ℕ) : Prop where
  header : ∀ g, (s'.header g).data = (s.header g).data ∧ (s'.header g).size = (s.header g).size ∧
    (s'.header g).freed = (s.header g).freed ∧ (s'.header g).inactive = (s.header g).inactive ∧
    (s'.header g).offset = (s.header g).offset
  next : ∀ g, g ≠ h → s'.next g = if (s.ia a).curOf isNic = some g then some h else s.next g
  next_self : s'.next h = none
  log : s'.log = s.log
  mem : s'.mem = s.mem
  nic : s'.nic = s.nic
  segHeaders : s'.segHeaders = s.segHeaders
  segAlloced : s'.segAlloced = s.segAlloced
  freeSegments : s'.freeSegments = s.freeSegments
  ready : ∀ b, b ≠ a → s'.ready b = s.ready b
  now_ready : s'.ready a = true
  ia : ∀ b, b ≠ a → s'.ia b = s.ia b
  oldest : (s'.ia a).oldestOf isNic =
    if (s.ia a).curOf isNic = none then some h else (s.ia a).oldestOf isNic
  cur : (s'.ia a).curOf isNic = some h
  other : (s'.ia a).oldestOf (!isNic) = (s.ia a).oldestOf (!isNic) ∧
    (s'.ia a).curOf (!isNic) = (s.ia a).curOf (!isNic)
  reserved : (s'.ia a).reserved = (s.ia a).reserved
  clean : (s'.ia a).cleaning = (s.ia a).cleaning ∧
    (s'.ia a).cleanOffset = (s.ia a).cleanOffset ∧ (s'.ia a).seen = (s.ia a).seen

/-- The members after a segment is put behind those of a list. -/
def appended (members : Place → List ℕ) (a : ℕ) (isNic : Bool) (h : ℕ) : Place → List ℕ :=
  Function.update members (some (a, isNic)) (members (some (a, isNic)) ++ [h])

variable {isNic : Bool}

theorem appended_of_ne {i : Place} (hi : i ≠ some (a, isNic)) :
    appended members a isNic h i = members i := Function.update_of_ne hi ..

theorem appended_self :
    appended members a isNic h (some (a, isNic)) = members (some (a, isNic)) ++ [h] :=
  Function.update_self ..

theorem mem_appended {i : Place} {g : ℕ} (hg : g ∈ appended members a isNic h i) :
    g ∈ members i ∨ g = h ∧ i = some (a, isNic) := by
  by_cases hi : i = some (a, isNic)
  · subst hi
    rw [appended_self, List.mem_append, List.mem_singleton] at hg
    exact hg.imp_right fun hgh => ⟨hgh, rfl⟩
  · rw [appended_of_ne hi] at hg
    exact .inl hg

theorem mem_appended_of_mem {i : Place} {g : ℕ} (hg : g ∈ members i) :
    g ∈ appended members a isNic h i := by
  by_cases hi : i = some (a, isNic)
  · subst hi
    rw [appended_self]
    exact List.mem_append_left _ hg
  · rwa [appended_of_ne hi]

/-- The head of any place but the one that is extended. -/
theorem Appends.head_of_ne (ha : Appends s s' a isNic h) {i : Place} (hi : i ≠ some (a, isNic)) :
    s'.head i = s.head i := by
  cases i with
  | none => exact ha.freeSegments
  | some l =>
      by_cases hl : l.1 = a
      · obtain ⟨b, k⟩ := l
        obtain rfl : b = a := hl
        have hk : k = !isNic := by
          cases k <;> cases isNic <;> first | rfl | exact absurd rfl hi
        rw [hk]
        exact ha.other.1
      · rw [State.head, State.head, ha.ia _ hl]

/-- The links after a segment is put behind those of a list. -/
theorem Appends.lists (ha : Appends s s' a isNic h) (hI : Inv S s members)
    (hloose : ∀ i, h ∉ members i) : Lists s'.next s'.head (appended members a isNic h) := by
  have hcur := hI.cur a isNic
  have hold : s.head (some (a, isNic)) = (members (some (a, isNic))).head? := hI.lists.head_eq _
  rcases List.eq_nil_or_concat (members (some (a, isNic))) with hempty | ⟨l, old, hlast⟩
  · -- the only segment of its list
    rw [hempty] at hcur hold
    have hsingle := hI.lists.single (i := some (a, isNic)) hempty hloose
    rw [appended, hempty]
    refine hsingle.congr (fun i g hg => ?_) fun i => ?_
    · by_cases hgh : g = h
      · rw [hgh, Function.update_self]
        exact ha.next_self
      · rw [Function.update_of_ne hgh, ha.next g hgh, hcur, if_neg (by simp)]
    · by_cases hi : i = some (a, isNic)
      · rw [hi, Function.update_self]
        exact ha.oldest.trans (if_pos hcur)
      · rw [Function.update_of_ne hi]
        exact ha.head_of_ne hi
  · rw [List.concat_eq_append] at hlast
    rw [hlast, List.getLast?_append_of_ne_nil _ (by simp), List.getLast?_singleton] at hcur
    have hconcat := hI.lists.concat hlast hloose
    rw [appended, hlast, List.append_assoc]
    refine hconcat.congr (fun i g hg => ?_) fun i => ?_
    · by_cases hgh : g = h
      · rw [hgh, Function.update_self]
        exact ha.next_self
      · rw [Function.update_of_ne hgh, ha.next g hgh, hcur]
        by_cases hgo : g = old
        · rw [hgo, if_pos rfl, Function.update_self]
        · rw [if_neg fun heq => hgo (Option.some.inj heq).symm, Function.update_of_ne hgo]
    · by_cases hi : i = some (a, isNic)
      · rw [hi]
        exact ha.oldest.trans (if_neg (by rw [hcur]; simp))
      · exact ha.head_of_ne hi

/-- **A new last segment** keeps the invariant. -/
theorem Sound.append (hS : Sound S s members) (hspare : Spare s members h)
    (hstarted : isNic = true → members (some (a, false)) ≠ []) (ha : Appends s s' a isNic h) :
    Sound S s' (appended members a isNic h) := by
  have halike : Alike s s' (appended members a isNic h) :=
    ⟨fun g => ⟨(ha.header g).1, (ha.header g).2.1, (ha.header g).2.2.1, (ha.header g).2.2.2.1⟩,
      fun g _ => (ha.header g).2.2.2.2, ha.log, ha.mem, ha.nic, ha.segHeaders, ha.segAlloced⟩
  have hres : ∀ b, (s'.ia b).reserved = (s.ia b).reserved := by
    intro b
    by_cases hba : b = a
    · rw [hba]
      exact ha.reserved
    · rw [ha.ia b hba]
  refine ⟨hS.inv.relink halike (ha.lists hS.inv hspare.loose) ?_ ?_ ?_ ?_ ?_
    (fun _ _ _ _ hh => mem_appended_of_mem hh) ?_ ?_, fun b => ?_⟩
  · intro b k
    by_cases hbk : some (b, k) = some (a, isNic)
    · obtain ⟨rfl, rfl⟩ := Prod.mk.inj (Option.some.inj hbk)
      rw [appended_self, List.getLast?_append_of_ne_nil _ (by simp), List.getLast?_singleton]
      exact ha.cur
    · rw [appended_of_ne hbk, ← hS.inv.cur b k]
      by_cases hba : b = a
      · subst hba
        have hk : k = !isNic := by
          cases k <;> cases isNic <;> first | rfl | exact absurd rfl hbk
        rw [hk]
        exact ha.other.2
      · rw [ha.ia b hba]
  · intro i g hg
    rcases mem_appended hg with hold | ⟨rfl, -⟩
    · exact hS.inv.known i g hold
    · exact hspare.known
  · intro b g hg
    rw [hres] at hg
    obtain ⟨hknown, hfresh, hloose⟩ := hS.inv.reserved b g hg
    refine ⟨hknown, hfresh, fun i hi => ?_⟩
    rcases mem_appended hi with hold | ⟨rfl, -⟩
    · exact hloose i hold
    · exact hspare.unreserved b hg
  · intro b c g hb hc
    rw [hres] at hb hc
    exact hS.inv.one_reserve b c g hb hc
  · intro l g hg
    rcases mem_appended hg with hold | ⟨rfl, -⟩
    · exact .inl hold
    · exact .inr hspare.fresh
  · intro b hb
    have hba : b ≠ a := by
      rintro rfl
      rw [ha.now_ready] at hb
      cases hb
    rw [ha.ready b hba] at hb
    obtain ⟨hnone, hempty⟩ := hS.inv.idle b hb
    exact ⟨(hres b).trans hnone, fun k => by
      rw [appended_of_ne fun heq => hba (Prod.mk.inj (Option.some.inj heq)).1, hempty]⟩
  · intro b hb
    by_cases hbk : some (b, false) = some (a, isNic)
    · rw [hbk, appended_self]
      simp
    · rw [appended_of_ne hbk]
      by_cases hba : b = a
      · subst hba
        exact hstarted (by cases isNic <;> first | rfl | exact absurd rfl hbk)
      · rw [ha.ready b hba] at hb
        exact hS.inv.started b hb
  · refine (hS.cleans b).relink halike ?_ ?_ fun _ _ _ hh => mem_appended_of_mem hh
    · by_cases hba : b = a
      · exact fun _ => hba ▸ ha.now_ready
      · exact fun hr => (ha.ready b hba).trans hr
    · by_cases hba : b = a
      · rw [hba]
        exact ha.clean
      · rw [ha.ia b hba]
        exact ⟨rfl, rfl, rfl⟩

/-! ## The calls that put a segment behind the others -/

/-- The current segment is the last one of its list. -/
theorem Inv.mem_of_cur (hI : Inv S s members) {k : Bool} (hcur : (s.ia a).curOf k = some h) :
    h ∈ members (some (a, k)) := by
  rw [hI.cur] at hcur
  exact List.mem_of_getLast? hcur

variable {old : ℕ}

/-- A segment without room becomes inactive. -/
theorem Sound.setInactive (hS : Sound S s members) (hh : h ∈ members (some (a, false)))
    (hfull : total (s.log h) = S.segsize) :
    Sound S (s.setHeader h fun x => { x with inactive := true }) members := by
  have hknown := hS.inv.known _ h hh
  have hheld := hS.inv.held h hknown
  have honly : Only s (s.setHeader h fun x => { x with inactive := true }) h :=
    ⟨fun g hg => State.setHeader_of_ne _ _ hg, fun _ _ => rfl, fun _ _ => rfl, by
      rw [State.setHeader_self], rfl, rfl, rfl, rfl, rfl⟩
  refine ⟨hS.inv.change honly (fun _ _ _ _ => rfl) hknown ?_
    (fun b hb => absurd hh ((hS.inv.reserved b h hb).2.2 _)) (fun _ _ _ => hfull) (fun b hb => ?_)
    (fun off hoff => ?_), fun b => (hS.cleans b).change honly fun _ =>
      ⟨by rw [State.setHeader_self], rfl⟩⟩
  · refine hheld.congr ?_ rfl fun _ _ => rfl
    rw [State.setHeader_self]
    exact ⟨rfl, rfl, rfl⟩
  · rw [State.setHeader_self]
    exact hS.inv.offset b h hb
  · rw [State.setHeader_nic, hS.inv.nic_cpu hh] at hoff
    cases hoff

/-- The headers after a new segment became the current one. -/
theorem nextSegment_header (hne : h ≠ old) (g : ℕ) : (nextSegment s a old h).header g =
    { (s.setHeader old fun x => { x with inactive := true }).header g with
      next := if g = h then none else if g = old then some h else (s.header g).next } := by
  rw [nextSegment, State.setIa_header]
  by_cases hgo : g = old
  · rw [hgo, State.setHeader_self, State.setHeader_of_ne _ _ hne.symm, State.setHeader_self,
      State.setHeader_self, if_neg hne.symm, if_pos rfl]
  · rw [State.setHeader_of_ne _ _ hgo, State.setHeader_of_ne _ _ hgo, if_neg hgo]
    by_cases hgh : g = h
    · rw [hgh, State.setHeader_self, State.setHeader_of_ne _ _ hne, if_pos rfl]
    · rw [State.setHeader_of_ne _ _ hgh, State.setHeader_of_ne _ _ hgo, if_neg hgh]

/-- **The next segment** of an allocator. -/
theorem nextSegment_spec (hS : Sound S s members) (hready : s.ready a = true)
    (hcur : (s.ia a).cur = some old) (hfull : total (s.log old) = S.segsize)
    (hspare : Spare s members h) :
    Sound S (nextSegment s a old h) (appended members a false h) := by
  have hold := hS.inv.mem_of_cur (k := false) hcur
  have hne : h ≠ old := fun heq => hspare.loose _ (heq ▸ hold)
  have hheader := nextSegment_header (s := s) (a := a) hne
  refine (hS.setInactive hold hfull).append (h := h) ?_ (fun hfalse => by cases hfalse) ?_
  · refine ⟨hspare.known, ⟨hspare.fresh.log, ?_, ?_⟩, hspare.loose, hspare.unreserved⟩
    · rw [State.setHeader_of_ne _ _ hne]
      exact hspare.fresh.offset
    · rw [State.setHeader_of_ne _ _ hne]
      exact hspare.fresh.active
  · refine ⟨fun g => by rw [hheader]; exact ⟨rfl, rfl, rfl, rfl, rfl⟩, fun g hg => ?_, ?_, rfl, rfl, rfl,
      rfl, rfl, rfl, fun _ _ => rfl, hready, fun b hb => Function.update_of_ne hb .., ?_, ?_, ?_, ?_, ?_⟩
    · rw [State.next, hheader]
      show (if g = h then none else if g = old then some h else (s.header g).next) = _
      rw [if_neg hg, State.setHeader_ia, show (s.ia a).curOf false = some old from hcur]
      by_cases hgo : g = old
      · rw [if_pos hgo, hgo, if_pos rfl]
      · rw [if_neg hgo, if_neg fun heq => hgo (Option.some.inj heq).symm, State.next,
          State.setHeader_of_ne _ _ hgo]
    · rw [State.next, hheader]
      exact if_pos rfl
    · have hsome : (s.ia a).curOf false ≠ none := by
        rw [show (s.ia a).curOf false = some old from hcur]
        simp
      rw [nextSegment, State.setIa_self]
      exact (if_neg hsome).symm
    · rw [nextSegment, State.setIa_self]
      rfl
    · rw [nextSegment, State.setIa_self]
      exact ⟨rfl, rfl⟩
    · rw [nextSegment, State.setIa_self]
      rfl
    · rw [nextSegment, State.setIa_self]
      exact ⟨rfl, rfl, rfl⟩

/-- A segment that is taken becomes the current one, and has room. -/
theorem takeSegment_next (hS : Sound S s members) (hsize : S.segsize < 2 ^ 32)
    (hready : s.ready a = true) (hcur : (s.ia a).cur = some old)
    (hfull : total (s.log old) = S.segsize) {malloc cleanup : Bool}
    (hs : takeSegment S malloc a cleanup s = some (s', some h)) :
    ∃ members', Sound S (nextSegment s' a old h) members' ∧ h ∈ members' (some (a, false)) ∧
      room (nextSegment s' a old h) h = S.segsize := by
  obtain ⟨members', htaken⟩ := takeSegment_spec hS hsize hs
  have hold := hS.inv.mem_of_cur (k := false) hcur
  have hcur' : (s'.ia a).curOf false = some old := by
    rw [htaken.sound.inv.cur, htaken.same, ← hS.inv.cur]
    exact hcur
  have hnext := nextSegment_spec htaken.sound (by rw [htaken.ready, hready]) hcur'
    (by rw [htaken.log _ old hold]; exact hfull) (htaken.spare h rfl)
  have hmem : h ∈ appended members' a false h (some (a, false)) := by
    rw [appended_self]
    exact List.mem_append_right _ List.mem_cons_self
  have hlog : (nextSegment s' a old h).log h = [] := (htaken.spare h rfl).fresh.log
  have hsz := (hnext.inv.held h (hnext.inv.known _ h hmem)).size
  have hoffset := hnext.inv.offset a h hmem
  rw [hlog, total_nil] at hoffset
  exact ⟨_, hnext, hmem, by rw [room, hsz, hoffset, Nat.sub_zero]⟩

/-- **The first segment** of an allocator. -/
theorem initAllocator_spec (hS : Sound S s members) (hsize : S.segsize < 2 ^ 32)
    (hready : s.ready a = false) {malloc : Bool}
    (hs : iallocInitAllocator S malloc a s = some s') :
    ∃ members', Sound S { s' with ready := Function.update s'.ready a true } members' := by
  obtain ⟨hnone, hempty⟩ := hS.inv.idle a hready
  have hheads : ∀ isNic, (s.ia a).oldestOf isNic = none ∧ (s.ia a).curOf isNic = none := by
    intro isNic
    have hhead := hS.inv.lists.head_eq (some (a, isNic))
    have hcur := hS.inv.cur a isNic
    rw [hempty isNic] at hhead hcur
    exact ⟨hhead, hcur⟩
  have hzero : Sound S (s.setIa a fun _ => .zero) members :=
    hS.setIa (fun isNic => by
      rw [(hheads isNic).1, (hheads isNic).2]
      cases isNic <;> exact ⟨rfl, rfl⟩) (.inl rfl) (.inl rfl)
  obtain ⟨⟨t, r⟩, ht, hs⟩ := Option.bind_eq_some_iff.1 hs
  obtain ⟨h, rfl, hs⟩ := Option.bind_eq_some_iff.1 hs
  obtain rfl := Option.some.inj hs
  obtain ⟨members', hh⟩ := segmentAlloc_spec hzero.inv hsize ht
  have hia : t.ia a = .zero := by rw [hh.ia, State.setIa_self]
  have hheader : ∀ g, (t.setHeader h fun x => { x with next := none }).header g =
      { t.header g with next := if g = h then none else (t.header g).next } := by
    intro g
    by_cases hgh : g = h
    · rw [hgh, State.setHeader_self, if_pos rfl]
    · rw [State.setHeader_of_ne _ _ hgh, if_neg hgh]
  refine ⟨appended members' a false h, (hzero.handOut hh).append (hh.spare h rfl)
    (fun hfalse => by cases hfalse) ?_⟩
  generalize hu : State.setIa _ a _ = u
  have hnew : u.ia a = { Allocator.zero with cur := some h, oldest := some h } := by
    rw [← hu, State.setIa_self, State.setHeader_ia, hia]
  have hnext : ∀ g, u.next g = if g = h then none else t.next g := by
    intro g
    rw [State.next, ← hu, State.setIa_header, hheader]
    rfl
  refine ⟨fun g => ?_, fun g hg => ?_, (hnext h).trans (if_pos rfl), by rw [← hu]; rfl, by rw [← hu]; rfl,
    by rw [← hu]; rfl, by rw [← hu]; rfl, by rw [← hu]; rfl, by rw [← hu]; rfl,
    fun b hb => ?_, Function.update_self .., fun b hb => ?_, ?_, ?_, ?_, ?_, ?_⟩
  · rw [← hu, State.setIa_header, hheader]
    exact ⟨rfl, rfl, rfl, rfl, rfl⟩
  · rw [hia]
    exact (hnext g).trans (if_neg hg)
  · rw [← hu]
    exact Function.update_of_ne hb ..
  · show u.ia b = t.ia b
    rw [← hu]
    exact State.setIa_of_ne _ _ hb
  · rw [hia, hnew]
    rfl
  · rw [hnew]
    rfl
  · rw [hnew, hia]
    exact ⟨rfl, rfl⟩
  · rw [hnew, hia]
  · rw [hnew, hia]
    exact ⟨rfl, rfl, rfl⟩

/-- The headers after a segment was put behind those of the NIC. -/
theorem linkNic_header (hne : (s.ia a).curNic ≠ some h) (g : ℕ) : (linkNic s a h).header g =
    { s.header g with
      next := if g = h then none else if (s.ia a).curNic = some g then some h else (s.header g).next
      isNic := (s.header g).isNic || decide (g = h) } := by
  rw [linkNic, State.setHeader_ia]
  cases hcur : (s.ia a).curNic with
  | none =>
      by_cases hgh : g = h
      · simp [hgh]
      · simp [hgh, State.setHeader_of_ne]
  | some cur =>
      have hhc : h ≠ cur := fun heq => hne (by rw [hcur, heq])
      by_cases hgh : g = h
      · simp [hgh, State.setHeader_of_ne _ _ hhc]
      · by_cases hgc : g = cur
        · simp [hgc, hhc.symm, State.setHeader_of_ne]
        · simp [hgh, hgc, Ne.symm hgc, State.setHeader_of_ne]

/-- What is not in the headers, after a segment was put behind those of the NIC. -/
theorem linkNic_ia : (linkNic s a h).ia a =
    { s.ia a with
      curNic := some h
      oldestNic := if (s.ia a).curNic = none then some h else (s.ia a).oldestNic } := by
  rw [linkNic, State.setHeader_ia]
  cases hcur : (s.ia a).curNic <;> simp

theorem linkNic_same : ∃ header ia, linkNic s a h = { s with header := header, ia := ia } ∧
    ∀ b, b ≠ a → ia b = s.ia b := by
  rw [linkNic, State.setHeader_ia]
  cases hcur : (s.ia a).curNic with
  | none =>
      refine ⟨_, _, rfl, fun b hb => ?_⟩
      exact (Function.update_of_ne hb ..).trans (Function.update_of_ne hb ..)
  | some cur => exact ⟨_, _, rfl, fun b hb => Function.update_of_ne hb ..⟩

/-- **A segment for the NIC**, from which it may allocate. -/
theorem linkNic_spec (hS : Sound S s members) (hready : s.ready a = true)
    (hspare : Spare s members h) :
    Sound S ((linkNic s a h).setNic h (some 0)) (appended members a true h) := by
  have hne : (s.ia a).curNic ≠ some h := fun hcur =>
    hspare.loose _ (hS.inv.mem_of_cur (k := true) hcur)
  have hheader := linkNic_header (s := s) (a := a) hne
  obtain ⟨header, ia, hsame, hia⟩ := linkNic_same (s := s) (a := a) (h := h)
  have hself := linkNic_ia (s := s) (a := a) (h := h)
  generalize hu : linkNic s a h = u at *
  have happ : Sound S u (appended members a true h) := by
    refine hS.append hspare (fun _ => hS.inv.started a hready)
      ⟨fun g => by rw [hheader]; exact ⟨rfl, rfl, rfl, rfl, rfl⟩, fun g hg => ?_, ?_,
      by rw [hsame], by rw [hsame], by rw [hsame], by rw [hsame], by rw [hsame], by rw [hsame],
      fun b _ => by rw [hsame], by rw [hsame]; exact hready, fun b hb => ?_, ?_, ?_, ?_, ?_, ?_⟩
    · rw [State.next, hheader]
      exact if_neg hg
    · rw [State.next, hheader]
      exact if_pos rfl
    · rw [hsame]
      exact hia b hb
    · rw [hself]
      rfl
    · rw [hself]
      rfl
    · rw [hself]
      exact ⟨rfl, rfl⟩
    · rw [hself]
    · rw [hself]
      exact ⟨rfl, rfl, rfl⟩
  have hh : h ∈ appended members a true h (some (a, true)) := by
    rw [appended_self]
    exact List.mem_append_right _ List.mem_cons_self
  have hlog : u.log h = [] := by
    rw [hsame]
    exact hspare.fresh.log
  have hactive : (u.header h).inactive = false := by
    rw [hheader]
    exact hspare.fresh.active
  have hknown := happ.inv.known _ h hh
  have honly : Only u (u.setNic h (some 0)) h :=
    ⟨fun _ _ => rfl, fun _ _ => rfl, fun g hg => State.setNic_of_ne _ _ hg, rfl, rfl, rfl, rfl, rfl, rfl⟩
  refine ⟨happ.inv.change honly (fun _ _ _ _ => rfl) hknown
    ((happ.inv.held h hknown).congr ⟨rfl, rfl, rfl⟩ rfl fun _ _ => rfl)
    (fun b hb => absurd hh ((happ.inv.reserved b h hb).2.2 _)) (fun m hm hi => happ.inv.full m h hm hi)
    (fun b hb => happ.inv.offset b h hb) (fun off hoff => ?_), fun b =>
      (happ.cleans b).change honly fun hb => ⟨(happ.cleans b h hb).1.inactive, rfl⟩⟩
  rw [State.setNic_self] at hoff
  obtain rfl := Option.some.inj hoff
  exact ⟨by show 0 = total (u.log h); rw [hlog]; rfl, hactive, a, hh⟩

end Ialloc
end Floem
