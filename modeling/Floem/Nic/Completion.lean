import Floem.Nic.Dma

/-!
# Completion words are released once, when their batch is done

What holds of the completion words of one core over every run of the calls, the
hardware and the clients of `Floem.Nic.Dma`.

* `Correct` — a word is released once and not before its batch is done, `comps` points
  to no released word, and `refcount` counts the clients an index was given to.
* `Alone` — a blocking call finds no batch open, and its word is cleared before the
  loop that waits for it ends.
* `Inv` — every word is released or belongs to one index, which counts its clients.
* `transfer_nonblocking`, `transfer_blocking`, `release_spec` — the calls as single
  changes of the state, each of which keeps the invariant.
-/

namespace Floem
namespace Nic
namespace Dma

open Lib

/-! ## The bookkeeping -/

/-- What the clients of a state rely on: the words, the indexes and the counts fit
together. -/
structure Correct (s : State) : Prop where
  /-- A word was released once, or not yet and a client of its index is still there. -/
  once : ∀ w < s.words, (s.word w).released = 1 ∨
    (s.word w).released = 0 ∧ ∃ i, s.comps i = some w ∧ 0 < s.waiting i + s.reported i
  /-- A word that was released is cleared, and its command had all its transfers. -/
  complete : ∀ w, 0 < (s.word w).released →
    (s.word w).cleared = true ∧ (s.word w).sent = some (s.word w).transfers
  /-- `comps` points to no released word. -/
  live : ∀ i w, s.comps i = some w → (s.word w).released = 0
  counts : ∀ i, s.refcount i = s.waiting i + s.reported i
  /-- The assertion of a call that opens a batch. -/
  fresh : ∀ i, s.findComp MAX_COMP s.compId = some i → s.refcount i = 0
  /-- The assertion of `dma_release_comp`. -/
  release : ∀ i, 0 < s.reported i → (s.dmaReleaseComp i).isSome

/-- A blocking call finds no batch open, and its word is cleared before the loop that
waits for it ends. -/
def Alone (s : State) : Action → Prop
  | .read true delay => (s.chan .read).n = 0 ∧ delay < waitRounds
  | .write true delay => (s.chan .write).n = 0 ∧ delay < waitRounds
  | _ => True

instance (s : State) : (a : Action) → Decidable (Alone s a)
  | .read true _ => inferInstanceAs (Decidable (_ ∧ _))
  | .write true _ => inferInstanceAs (Decidable (_ ∧ _))
  | .read false _ | .write false _ | .readFlush _ | .writeFlush _ | .complete _ | .ask _
  | .release _ => .isTrue trivial

/-- **The invariant.** -/
structure Inv (s : State) : Prop where
  bound : ∀ i w, s.comps i = some w → w < s.words
  inj : ∀ i j w, s.comps i = some w → s.comps j = some w → i = j
  live : ∀ i w, s.comps i = some w → (s.word w).released = 0
  counts : ∀ i, s.refcount i = s.waiting i + s.reported i
  used : ∀ i, s.comps i = none ↔ s.refcount i = 0
  ready : ∀ i, 0 < s.reported i → ∃ w, s.comps i = some w ∧ (s.word w).cleared = true
  owned : ∀ w < s.words, (s.word w).released = 1 ∧ (s.word w).cleared = true ∨
    ∃ i, s.comps i = some w
  later : ∀ w, s.words ≤ w → (s.word w).released = 0
  sent : ∀ w < s.words, ∀ k, (s.word w).sent = some k → k = (s.word w).transfers
  cleared : ∀ w < s.words, (s.word w).cleared = true → (s.word w).sent.isSome
  /-- The word of an open batch. -/
  opened : ∀ d, 0 < (s.chan d).n → ∃ i, (s.chan d).index = some i ∧
    s.comps i = some (s.chan d).comp ∧ (s.word (s.chan d).comp).sent = none ∧
    (s.word (s.chan d).comp).transfers = (s.chan d).n
  apart : ∀ d d', 0 < (s.chan d).n → 0 < (s.chan d').n →
    (s.chan d).comp = (s.chan d').comp → d = d'

/-! ## What the calls do -/

variable {s t : State} {d : Side}

/-- The search for an index ends at one that is not in use. -/
theorem comps_of_findComp {fuel c i : ℕ} (h : s.findComp fuel c = some i) : s.comps i = none := by
  induction fuel generalizing c with
  | zero => exact absurd h (by simp [State.findComp])
  | succ fuel ih =>
      rw [State.findComp] at h
      split_ifs at h with hused
      · exact ih h
      · rw [← Option.some.inj h, ← Option.not_isSome_iff_eq_none]
        exact hused

/-- The state after a non-blocking call opened a batch with index `i`, put its transfer
into it and returned the index. -/
def State.opened (s : State) (d : Side) (i : ℕ) : State where
  compId := i
  comps := Function.update s.comps i (some s.words)
  refcount := Function.update s.refcount i (s.refcount i + 1)
  chan := Function.update s.chan d ⟨1, s.words, some i⟩
  word := Function.update s.word s.words ⟨1, none, false, 0⟩
  words := s.words + 1
  waiting := Function.update s.waiting i (s.waiting i + 1)
  reported := s.reported

/-- The state after a non-blocking call put its transfer into the open batch, whose
index is `i`, and returned the index. -/
def State.joined (s : State) (d : Side) (i : ℕ) : State :=
  { s with
    refcount := Function.update s.refcount i (s.refcount i + 1)
    chan := Function.update s.chan d { s.chan d with n := (s.chan d).n + 1 }
    word := Function.update s.word (s.chan d).comp { s.word (s.chan d).comp with
      transfers := (s.word (s.chan d).comp).transfers + 1 }
    waiting := Function.update s.waiting i (s.waiting i + 1) }

/-- The state after a blocking call that found no batch open and waited until its word
was cleared. -/
def State.blocked (s : State) (d : Side) : State :=
  { s with
    chan := Function.update s.chan d ⟨0, s.words, (s.chan d).index⟩
    word := Function.update s.word s.words ⟨1, some 1, true, 1⟩
    words := s.words + 1 }

theorem openBatch_nonblocking (h : s.openBatch d false = some t) :
    ∃ i, s.comps i = none ∧ s.refcount i = 0 ∧
      t = { s with
        compId := i
        comps := Function.update s.comps i (some s.words)
        chan := Function.update s.chan d { s.chan d with comp := s.words, index := some i }
        word := Function.update s.word s.words ⟨0, none, false, 0⟩
        words := s.words + 1 } := by
  simp only [State.openBatch, Bool.false_eq_true, if_false, Option.bind_eq_bind,
    Option.bind_eq_some_iff, Option.pure_def] at h
  obtain ⟨i, hi, u, hu, j, hj, _, hguard, h⟩ := h
  obtain rfl := Option.some.inj hu
  obtain rfl : i = j := by simpa [State.setChan] using hj
  refine ⟨i, comps_of_findComp hi, ?_, ?_⟩
  · simpa [State.setChan, guard] using hguard
  · rw [← Option.some.inj h]
    simp [State.setChan]

/-- **A non-blocking call** opens a batch or joins the open one, and issues the batch
when it is full. -/
theorem transfer_nonblocking {delay : ℕ}
    (h : (do let t ← s.transfer d false delay; t.hand d) = some t) :
    ∃ u, ((s.chan d).n = 0 ∧ (∃ i, s.comps i = none ∧ s.refcount i = 0 ∧ u = s.opened d i) ∨
        0 < (s.chan d).n ∧ ∃ i, (s.chan d).index = some i ∧ u = s.joined d i) ∧
      (t = u ∨ 0 < (u.chan d).n ∧ t = u.issue d) := by
  by_cases hn : (s.chan d).n = 0
  · simp only [State.transfer, hn, if_true, Bool.false_eq_true, if_false, Option.bind_eq_bind,
      Option.bind_eq_some_iff, Option.pure_def, Option.some.injEq, false_or] at h
    obtain ⟨_, ⟨u, hu, v, hv, rfl⟩, h⟩ := h
    obtain ⟨i, hi, href, rfl⟩ := openBatch_nonblocking hu
    have hv : _ = some v := hv
    simp only [State.retain, Function.update_self, Option.bind_eq_bind, Option.bind_some,
      Option.pure_def, Option.some.injEq] at hv
    subst hv
    refine ⟨s.opened d i, Or.inl ⟨hn, i, hi, href, rfl⟩, ?_⟩
    split_ifs at h with hfull
    · refine Or.inr ⟨by simp [State.opened], ?_⟩
      simp only [State.hand, State.issue, State.enlist, State.modifyWord, State.setChan,
        Function.update_self, Function.update_idem, Option.bind_eq_bind, Option.bind_some,
        Option.pure_def, Option.some.injEq] at h
      rw [← h]
      simp [State.opened, State.issue, State.modifyWord, State.setChan, hn]
    · left
      simp only [State.hand, State.enlist, State.modifyWord, State.setChan,
        Function.update_self, Function.update_idem, Option.bind_eq_bind, Option.bind_some,
        Option.pure_def, Option.some.injEq] at h
      rw [← h]
      simp [State.opened, hn]
  · simp only [State.transfer, hn, Bool.false_eq_true, if_false, Option.bind_eq_bind,
      Option.bind_eq_some_iff, Option.pure_def, Option.some.injEq, false_or] at h
    obtain ⟨_, ⟨u, rfl, v, hv, rfl⟩, h⟩ := h
    simp only [State.retain, Option.bind_eq_bind, Option.bind_eq_some_iff, Option.pure_def,
      Option.some.injEq] at hv
    obtain ⟨i, hi, rfl⟩ := hv
    refine ⟨s.joined d i, Or.inr ⟨Nat.pos_of_ne_zero hn, i, hi, rfl⟩, ?_⟩
    split_ifs at h with hfull
    · refine Or.inr ⟨by simp [State.joined], ?_⟩
      simp only [State.hand, State.issue, State.enlist, State.modifyWord, State.setChan,
        Function.update_self, Function.update_idem, hi, Option.bind_eq_bind, Option.bind_some,
        Option.pure_def, Option.some.injEq] at h
      rw [← h]
      simp [State.joined, State.issue, State.modifyWord, State.setChan, hi]
    · left
      simp only [State.hand, State.enlist, State.modifyWord, State.setChan,
        Function.update_self, hi, Option.bind_eq_bind, Option.bind_some, Option.pure_def,
        Option.some.injEq] at h
      rw [← h]
      simp [State.joined, hi]

/-- **A blocking call** that finds no batch open leaves a word behind that is cleared
and released. -/
theorem transfer_blocking {delay : ℕ} (hn : (s.chan d).n = 0) (hdelay : delay < waitRounds) :
    s.transfer d true delay = some (s.blocked d) := by
  simp [State.transfer, hn, State.openBatch, State.blocked, State.enlist, State.issue,
    State.await, hdelay, State.releaseWord, State.modifyWord, State.setChan]

/-! ## The invariant is kept -/

namespace Inv

theorem word_lt (hI : Inv s) (hn : 0 < (s.chan d).n) : (s.chan d).comp < s.words := by
  obtain ⟨i, -, hi, -⟩ := hI.opened d hn
  exact hI.bound i _ hi

/-- The word a call gets is no word in use. -/
theorem comps_ne_words (hI : Inv s) (i : ℕ) : s.comps i ≠ some s.words :=
  fun h => lt_irrefl _ (hI.bound i _ h)

theorem opened_ne (hI : Inv s) (hn : 0 < (s.chan d).n) : (s.chan d).comp ≠ s.words :=
  (hI.word_lt hn).ne

end Inv

theorem inv_opened (hI : Inv s) (hn : (s.chan d).n = 0) {i : ℕ} (hi : s.comps i = none)
    (href : s.refcount i = 0) : Inv (s.opened d i) where
  bound j w hj := by
    simp only [State.opened, Function.update_apply] at hj ⊢
    split_ifs at hj with hji
    · rw [← Option.some.inj hj]
      exact Nat.lt_succ_self _
    · exact (hI.bound j w hj).trans (Nat.lt_succ_self _)
  inj j k w hj hk := by
    simp only [State.opened, Function.update_apply] at hj hk
    split_ifs at hj hk with hji hki hki
    · rw [hji, hki]
    · exact absurd (hk.trans hj.symm) (hI.comps_ne_words k)
    · exact absurd (hj.trans hk.symm) (hI.comps_ne_words j)
    · exact hI.inj j k w hj hk
  live j w hj := by
    simp only [State.opened, Function.update_apply] at hj ⊢
    split_ifs at hj with hji
    · rw [if_pos (Option.some.inj hj).symm]
    · rw [if_neg (hI.bound j w hj).ne]
      exact hI.live j w hj
  counts j := by
    simp only [State.opened, Function.update_apply]
    have := hI.counts j
    split_ifs with hji
    · subst hji
      omega
    · exact this
  used j := by
    simp only [State.opened, Function.update_apply]
    split_ifs with hji
    · simp
    · exact hI.used j
  ready j hj := by
    obtain ⟨w, hw, hcl⟩ := hI.ready j hj
    have hji : j ≠ i := fun h => by rw [h, hi] at hw; cases hw
    refine ⟨w, (Function.update_of_ne hji ..).trans hw, ?_⟩
    show (Function.update s.word s.words _ w).cleared = true
    rw [Function.update_of_ne (hI.bound j w hw).ne]
    exact hcl
  owned w hw := by
    rcases Nat.lt_succ_iff_lt_or_eq.1 hw with hlt | rfl
    · have hword : (s.opened d i).word w = s.word w := Function.update_of_ne hlt.ne ..
      rw [hword]
      refine (hI.owned w hlt).imp_right fun ⟨j, hj⟩ => ⟨j, ?_⟩
      have hji : j ≠ i := fun h => by rw [h, hi] at hj; cases hj
      exact (Function.update_of_ne hji ..).trans hj
    · exact Or.inr ⟨i, Function.update_self ..⟩
  later w hw := by
    have hw : s.words + 1 ≤ w := hw
    have hword : (s.opened d i).word w = s.word w := Function.update_of_ne (by omega) ..
    rw [hword]
    exact hI.later w (by omega)
  sent w hw k hk := by
    rcases Nat.lt_succ_iff_lt_or_eq.1 hw with hlt | rfl
    · have hword : (s.opened d i).word w = s.word w := Function.update_of_ne hlt.ne ..
      rw [hword] at hk ⊢
      exact hI.sent w hlt k hk
    · simp [State.opened] at hk
  cleared w hw hk := by
    rcases Nat.lt_succ_iff_lt_or_eq.1 hw with hlt | rfl
    · have hword : (s.opened d i).word w = s.word w := Function.update_of_ne hlt.ne ..
      rw [hword] at hk ⊢
      exact hI.cleared w hlt hk
    · simp [State.opened] at hk
  opened e he := by
    by_cases hed : e = d
    · subst hed
      exact ⟨i, by simp [State.opened]⟩
    · have hchan : (s.opened d i).chan e = s.chan e := Function.update_of_ne hed ..
      rw [hchan] at he ⊢
      obtain ⟨j, hj, hcomp, hword⟩ := hI.opened e he
      have hji : j ≠ i := fun h => by rw [h, hi] at hcomp; cases hcomp
      refine ⟨j, hj, (Function.update_of_ne hji ..).trans hcomp, ?_⟩
      have hsame : (s.opened d i).word (s.chan e).comp = s.word (s.chan e).comp :=
        Function.update_of_ne (hI.opened_ne he) ..
      rw [hsame]
      exact hword
  apart e e' he he' hcomp := by
    simp only [State.opened, Function.update_apply] at he he' hcomp
    split_ifs at he he' hcomp with hed hed' hed'
    · rw [hed, hed']
    · exact absurd hcomp.symm (hI.opened_ne he')
    · exact absurd hcomp (hI.opened_ne he)
    · exact hI.apart e e' he he' hcomp

theorem inv_joined (hI : Inv s) (hn : 0 < (s.chan d).n) {i : ℕ}
    (hi : (s.chan d).index = some i) : Inv (s.joined d i) := by
  obtain ⟨j, hj, hcomp, hsent, htransfers⟩ := hI.opened d hn
  obtain rfl : i = j := Option.some.inj (hi.symm.trans hj)
  have hword : ∀ w, ((s.joined d i).word w).released = (s.word w).released ∧
      ((s.joined d i).word w).cleared = (s.word w).cleared ∧
      ((s.joined d i).word w).sent = (s.word w).sent := fun w => by
    simp only [State.joined, Function.update_apply]
    split_ifs with hw
    · rw [hw]
      exact ⟨rfl, rfl, rfl⟩
    · exact ⟨rfl, rfl, rfl⟩
  have hother : ∀ w, w ≠ (s.chan d).comp → (s.joined d i).word w = s.word w := fun w hw =>
    Function.update_of_ne hw ..
  have hchan : ∀ e, ((s.joined d i).chan e).comp = (s.chan e).comp ∧
      ((s.joined d i).chan e).index = (s.chan e).index ∧
      (0 < ((s.joined d i).chan e).n → 0 < (s.chan e).n) := fun e => by
    simp only [State.joined, Function.update_apply]
    split_ifs with he
    · rw [he]
      exact ⟨rfl, rfl, fun _ => hn⟩
    · exact ⟨rfl, rfl, id⟩
  refine { hI with
    live := fun k w hk => (hword w).1.trans (hI.live k w hk)
    counts := fun k => ?_, used := fun k => ?_, ready := fun k hk => ?_, owned := fun w hw => ?_
    later := fun w hw => (hword w).1.trans (hI.later w hw)
    sent := fun w hw k hk => ?_
    cleared := fun w hw hcl => ?_, opened := fun e he => ?_, apart := fun e e' he he' h => ?_ }
  · have := hI.counts k
    simp only [State.joined, Function.update_apply]
    split_ifs with hk
    · subst hk
      omega
    · exact this
  · simp only [State.joined, Function.update_apply]
    split_ifs with hk
    · subst hk
      simp [hcomp]
    · exact hI.used k
  · obtain ⟨w, hw, hcl⟩ := hI.ready k hk
    exact ⟨w, hw, (hword w).2.1.trans hcl⟩
  · rw [(hword w).1, (hword w).2.1]
    exact hI.owned w hw
  · rw [(hword w).2.2] at hk
    by_cases hwc : w = (s.chan d).comp
    · rw [hwc, hsent] at hk
      cases hk
    · rw [hother w hwc]
      exact hI.sent w hw k hk
  · rw [(hword w).2.1] at hcl
    rw [(hword w).2.2]
    exact hI.cleared w hw hcl
  · obtain ⟨k, hk, hkcomp, hksent, hkt⟩ := hI.opened e ((hchan e).2.2 he)
    rw [(hchan e).1, (hchan e).2.1, (hword _).2.2]
    refine ⟨k, hk, hkcomp, hksent, ?_⟩
    by_cases hed : e = d
    · subst hed
      simp [State.joined, htransfers]
    · have hne : (s.chan e).comp ≠ (s.chan d).comp := fun h =>
        hed (hI.apart e d ((hchan e).2.2 he) hn h)
      rw [hother _ hne, hkt]
      simp [State.joined, hed]
  · rw [(hchan e).1, (hchan e').1] at h
    exact hI.apart e e' ((hchan e).2.2 he) ((hchan e').2.2 he') h

theorem inv_issue (hI : Inv s) (hn : 0 < (s.chan d).n) : Inv (s.issue d) := by
  obtain ⟨i, hi, hcomp, hsent, htransfers⟩ := hI.opened d hn
  have hword : ∀ w, ((s.issue d).word w).released = (s.word w).released ∧
      ((s.issue d).word w).cleared = (s.word w).cleared ∧
      ((s.issue d).word w).transfers = (s.word w).transfers := fun w => by
    simp only [State.issue, State.modifyWord, State.setChan, Function.update_apply]
    split_ifs with hw
    · rw [hw]
      exact ⟨rfl, rfl, rfl⟩
    · exact ⟨rfl, rfl, rfl⟩
  have hother : ∀ w, w ≠ (s.chan d).comp → (s.issue d).word w = s.word w := fun w hw =>
    Function.update_of_ne hw ..
  have hself : ((s.issue d).word (s.chan d).comp).sent = some (s.chan d).n := by
    simp [State.issue, State.modifyWord, State.setChan]
  have hchan : ∀ e, 0 < ((s.issue d).chan e).n → e ≠ d ∧ (s.issue d).chan e = s.chan e :=
    fun e he => by
      by_cases hed : e = d
      · subst hed
        simp [State.issue, State.setChan] at he
      · exact ⟨hed, Function.update_of_ne hed ..⟩
  refine { hI with
    live := fun k w hk => (hword w).1.trans (hI.live k w hk)
    ready := fun k hk => ?_, owned := fun w hw => ?_
    later := fun w hw => (hword w).1.trans (hI.later w hw)
    sent := fun w hw k hk => ?_
    cleared := fun w hw hcl => ?_, opened := fun e he => ?_, apart := fun e e' he he' h => ?_ }
  · obtain ⟨w, hw, hcl⟩ := hI.ready k hk
    exact ⟨w, hw, (hword w).2.1.trans hcl⟩
  · rw [(hword w).1, (hword w).2.1]
    exact hI.owned w hw
  · rw [(hword w).2.2]
    by_cases hwc : w = (s.chan d).comp
    · subst hwc
      rw [htransfers]
      exact (Option.some.inj (hself.symm.trans hk)).symm
    · rw [hother w hwc] at hk
      exact hI.sent w hw k hk
  · rw [(hword w).2.1] at hcl
    by_cases hwc : w = (s.chan d).comp
    · rw [hwc, hself]
      rfl
    · rw [hother w hwc]
      exact hI.cleared w hw hcl
  · obtain ⟨hed, hsame⟩ := hchan e he
    rw [hsame] at he ⊢
    have hne : (s.chan e).comp ≠ (s.chan d).comp := fun h => hed (hI.apart e d he hn h)
    rw [hother _ hne]
    exact hI.opened e he
  · obtain ⟨-, hsame⟩ := hchan e he
    obtain ⟨-, hsame'⟩ := hchan e' he'
    rw [hsame] at he h
    rw [hsame'] at he' h
    exact hI.apart e e' he he' h

theorem inv_blocked (hI : Inv s) (hn : (s.chan d).n = 0) : Inv (s.blocked d) := by
  have hother : ∀ w, w ≠ s.words → (s.blocked d).word w = s.word w := fun w hw =>
    Function.update_of_ne hw ..
  have hnew : (s.blocked d).word s.words = ⟨1, some 1, true, 1⟩ := Function.update_self ..
  have hchan : ∀ e, 0 < ((s.blocked d).chan e).n → (s.blocked d).chan e = s.chan e :=
    fun e he => by
      by_cases hed : e = d
      · subst hed
        simp [State.blocked] at he
      · exact Function.update_of_ne hed ..
  refine { hI with
    bound := fun k w hk => (hI.bound k w hk).trans (Nat.lt_succ_self _)
    live := fun k w hk => ?_, ready := fun k hk => ?_, owned := fun w hw => ?_
    later := fun w hw => ?_, sent := fun w hw k hk => ?_
    cleared := fun w hw hcl => ?_, opened := fun e he => ?_, apart := fun e e' he he' h => ?_ }
  · rw [hother w (hI.bound k w hk).ne]
    exact hI.live k w hk
  · obtain ⟨w, hw, hcl⟩ := hI.ready k hk
    refine ⟨w, hw, ?_⟩
    rw [hother w (hI.bound k w hw).ne]
    exact hcl
  · rcases Nat.lt_succ_iff_lt_or_eq.1 hw with hlt | rfl
    · rw [hother w hlt.ne]
      exact hI.owned w hlt
    · rw [hnew]
      exact Or.inl ⟨rfl, rfl⟩
  · have hw : s.words + 1 ≤ w := hw
    rw [hother w (by omega)]
    exact hI.later w (by omega)
  · rcases Nat.lt_succ_iff_lt_or_eq.1 hw with hlt | rfl
    · rw [hother w hlt.ne] at hk ⊢
      exact hI.sent w hlt k hk
    · rw [hnew] at hk ⊢
      exact (Option.some.inj hk).symm
  · rcases Nat.lt_succ_iff_lt_or_eq.1 hw with hlt | rfl
    · rw [hother w hlt.ne] at hcl ⊢
      exact hI.cleared w hlt hcl
    · rw [hnew]
      rfl
  · have hsame := hchan e he
    rw [hsame] at he ⊢
    rw [hother _ (hI.opened_ne he)]
    exact hI.opened e he
  · have hsame := hchan e he
    have hsame' := hchan e' he'
    rw [hsame] at he h
    rw [hsame'] at he' h
    exact hI.apart e e' he he' h

/-- The hardware clears a word whose command was issued. -/
theorem inv_complete (hI : Inv s) {w : ℕ} (hsent : (s.word w).sent.isSome) :
    Inv (s.modifyWord w fun g => { g with cleared := true }) := by
  set t := s.modifyWord w fun g => { g with cleared := true } with ht
  have hword : ∀ v, (t.word v).released = (s.word v).released ∧
      (t.word v).transfers = (s.word v).transfers ∧ (t.word v).sent = (s.word v).sent ∧
      ((s.word v).cleared = true → (t.word v).cleared = true) := fun v => by
    simp only [ht, State.modifyWord, Function.update_apply]
    split_ifs with hv
    · rw [hv]
      exact ⟨rfl, rfl, rfl, fun _ => rfl⟩
    · exact ⟨rfl, rfl, rfl, id⟩
  refine { hI with
    live := fun k v hk => (hword v).1.trans (hI.live k v hk)
    ready := fun k hk => ?_, owned := fun v hv => ?_
    later := fun v hv => (hword v).1.trans (hI.later v hv)
    sent := fun v hv k hk => ?_, cleared := fun v hv hcl => ?_, opened := fun e he => ?_ }
  · obtain ⟨v, hv, hcl⟩ := hI.ready k hk
    exact ⟨v, hv, (hword v).2.2.2 hcl⟩
  · exact (hI.owned v hv).imp_left fun h => ⟨(hword v).1.trans h.1, (hword v).2.2.2 h.2⟩
  · rw [(hword v).2.1]
    exact hI.sent v hv k ((hword v).2.2.1.symm.trans hk)
  · rw [(hword v).2.2.1]
    by_cases hvw : v = w
    · rw [hvw]
      exact hsent
    · have hsame : t.word v = s.word v := Function.update_of_ne hvw ..
      rw [hsame] at hcl
      exact hI.cleared v hv hcl
  · obtain ⟨k, hk, hcomp, hnone, htransfers⟩ := hI.opened e he
    exact ⟨k, hk, hcomp, (hword _).2.2.1.trans hnone, (hword _).2.1.trans htransfers⟩

/-- Completion is reported to a client. -/
theorem inv_ask (hI : Inv s) {i w : ℕ} (hi : 0 < s.waiting i) (hw : s.comps i = some w)
    (hcl : (s.word w).cleared = true) :
    Inv { s with waiting := Function.update s.waiting i (s.waiting i - 1),
                 reported := Function.update s.reported i (s.reported i + 1) } := by
  refine { hI with counts := fun k => ?_, ready := fun k hk => ?_ }
  · have := hI.counts k
    simp only [Function.update_apply]
    split_ifs with hki
    · subst hki
      omega
    · exact this
  · by_cases hki : k = i
    · rw [hki]
      exact ⟨w, hw, hcl⟩
    · refine hI.ready k ?_
      have hsame : Function.update s.reported i (s.reported i + 1) k = s.reported k :=
        Function.update_of_ne hki ..
      exact hsame ▸ hk

/-- The state after a client of index `i` called `dma_release_comp`, and its word `w`
was released if the client was the last. -/
def State.letGo (s : State) (i w : ℕ) : State :=
  if s.refcount i = 1 then
    { s with
      refcount := Function.update s.refcount i 0
      comps := Function.update s.comps i none
      word := Function.update s.word w { s.word w with released := (s.word w).released + 1 }
      reported := Function.update s.reported i (s.reported i - 1) }
  else
    { s with
      refcount := Function.update s.refcount i (s.refcount i - 1)
      reported := Function.update s.reported i (s.reported i - 1) }

/-- **A release.**  Its assertion holds if the client was given the index. -/
theorem release_spec (hI : Inv s) {i : ℕ} (hi : 0 < s.reported i) :
    ∃ w, s.comps i = some w ∧ (s.word w).cleared = true ∧ (s.dmaReleaseComp i).isSome ∧
      step s (.release i) = some (s.letGo i w) := by
  obtain ⟨w, hw, hcl⟩ := hI.ready i hi
  have href : 0 < s.refcount i := by
    have := hI.counts i
    omega
  by_cases hlast : s.refcount i = 1
  · refine ⟨w, hw, hcl, ?_, ?_⟩
    · simp [State.dmaReleaseComp, hlast, hw]
    · simp [step, hi, State.dmaReleaseComp, hlast, hw, State.letGo, State.releaseWord,
        State.modifyWord, guard]
  · refine ⟨w, hw, hcl, ?_, ?_⟩
    · simp [State.dmaReleaseComp, hlast, href]
    · simp [step, hi, State.dmaReleaseComp, hlast, href, State.letGo, guard]

theorem inv_letGo (hI : Inv s) {i w : ℕ} (hi : 0 < s.reported i) (hw : s.comps i = some w)
    (hcl : (s.word w).cleared = true) : Inv (s.letGo i w) := by
  have hcount := hI.counts i
  rw [State.letGo]
  split_ifs with hlast
  · have hother : ∀ v, v ≠ w → Function.update s.word w
        { s.word w with released := (s.word w).released + 1 } v = s.word v := fun v hv =>
      Function.update_of_ne hv ..
    have hcomps : ∀ k v, Function.update s.comps i none k = some v → k ≠ i ∧ v ≠ w ∧
        s.comps k = some v := fun k v hk => by
      rw [Function.update_apply] at hk
      split_ifs at hk with hki
      exact ⟨hki, fun hvw => hki (hI.inj k i w (hvw ▸ hk) hw), hk⟩
    -- the word is cleared, so it is not the one of an open batch
    have hclosed : ∀ e, 0 < (s.chan e).n → (s.chan e).comp ≠ w := fun e he h => by
      obtain ⟨-, -, -, hnone, -⟩ := hI.opened e he
      have hsome := hI.cleared w (hI.bound i w hw) hcl
      rw [← h, hnone] at hsome
      cases hsome
    refine { hI with
      bound := fun k v hk => hI.bound k v (hcomps k v hk).2.2
      inj := fun j k v hj hk => hI.inj j k v (hcomps j v hj).2.2 (hcomps k v hk).2.2
      live := fun k v hk => ?_, counts := fun k => ?_, used := fun k => ?_
      ready := fun k hk => ?_, owned := fun v hv => ?_, later := fun v hv => ?_
      sent := fun v hv k hk => ?_, cleared := fun v hv hv' => ?_, opened := fun e he => ?_ }
    · obtain ⟨-, hvw, hk⟩ := hcomps k v hk
      show (Function.update s.word w _ v).released = 0
      rw [hother v hvw]
      exact hI.live k v hk
    · have := hI.counts k
      simp only [Function.update_apply]
      split_ifs with hki
      · subst hki
        omega
      · exact this
    · simp only [Function.update_apply]
      split_ifs with hki
      · simp
      · exact hI.used k
    · have hki : k ≠ i := fun h => by
        have hk : 0 < Function.update s.reported i (s.reported i - 1) k := hk
        rw [h, Function.update_self] at hk
        omega
      have hsame : Function.update s.reported i (s.reported i - 1) k = s.reported k :=
        Function.update_of_ne hki ..
      have hk : 0 < s.reported k := hsame ▸ hk
      obtain ⟨v, hv, hvcl⟩ := hI.ready k hk
      have hvw : v ≠ w := fun h => hki (hI.inj k i w (h ▸ hv) hw)
      refine ⟨v, (Function.update_of_ne hki ..).trans hv, ?_⟩
      show (Function.update s.word w _ v).cleared = true
      rw [hother v hvw]
      exact hvcl
    · by_cases hvw : v = w
      · subst hvw
        left
        show (Function.update s.word v _ v).released = 1 ∧ (Function.update s.word v _ v).cleared =
          true
        rw [Function.update_self]
        exact ⟨congrArg (· + 1) (hI.live i v hw), hcl⟩
      · show (Function.update s.word w _ v).released = 1 ∧ (Function.update s.word w _ v).cleared =
          true ∨ _
        rw [hother v hvw]
        refine (hI.owned v hv).imp_right fun ⟨k, hk⟩ => ⟨k, ?_⟩
        have hki : k ≠ i := fun h => hvw (Option.some.inj ((h ▸ hk).symm.trans hw))
        exact (Function.update_of_ne hki ..).trans hk
    · have hvw : v ≠ w := fun h => absurd (hI.bound i w hw) (not_lt.2 (h ▸ hv))
      show (Function.update s.word w _ v).released = 0
      rw [hother v hvw]
      exact hI.later v hv
    · by_cases hvw : v = w
      · subst hvw
        simp only [Function.update_self] at hk ⊢
        exact hI.sent v hv k hk
      · simp only [hother v hvw] at hk ⊢
        exact hI.sent v hv k hk
    · by_cases hvw : v = w
      · subst hvw
        simp only [Function.update_self]
        exact hI.cleared v hv hcl
      · simp only [hother v hvw] at hv' ⊢
        exact hI.cleared v hv hv'
    · obtain ⟨k, hk, hcomp, hrest⟩ := hI.opened e he
      have hki : k ≠ i := fun h => hclosed e he (Option.some.inj (hcomp.symm.trans (h ▸ hw)))
      refine ⟨k, hk, (Function.update_of_ne hki ..).trans hcomp, ?_⟩
      simp only [hother _ (hclosed e he)]
      exact hrest
  · refine { hI with counts := fun k => ?_, used := fun k => ?_, ready := fun k hk => ?_ }
    · have := hI.counts k
      simp only [Function.update_apply]
      split_ifs with hki
      · subst hki
        omega
      · exact this
    · simp only [Function.update_apply]
      split_ifs with hki
      · subst hki
        rw [hw]
        simp only [reduceCtorEq, false_iff]
        omega
      · exact hI.used k
    · by_cases hki : k = i
      · rw [hki]
        exact ⟨w, hw, hcl⟩
      · have hsame : Function.update s.reported i (s.reported i - 1) k = s.reported k :=
          Function.update_of_ne hki ..
        exact hI.ready k (hsame ▸ hk)

/-! ## Runs -/

/-- A call keeps the invariant, on either side. -/
theorem inv_call {block : Bool} {delay : ℕ} (hI : Inv s)
    (halone : block = true → (s.chan d).n = 0 ∧ delay < waitRounds)
    (h : (do let t ← s.transfer d block delay; if block then return t else t.hand d) = some t) :
    Inv t := by
  cases block with
  | true =>
      obtain ⟨hn, hdelay⟩ := halone rfl
      rw [transfer_blocking hn hdelay] at h
      obtain rfl := Option.some.inj h
      exact inv_blocked hI hn
  | false =>
      obtain ⟨u, hu, ht⟩ := transfer_nonblocking h
      have hIu : Inv u := by
        rcases hu with ⟨hn, i, hi, href, rfl⟩ | ⟨hn, i, hi, rfl⟩
        · exact inv_opened hI hn hi href
        · exact inv_joined hI hn hi
      rcases ht with rfl | ⟨hn, rfl⟩
      · exact hIu
      · exact inv_issue hIu hn

theorem inv_flush (hI : Inv s) (elapsed : ℕ) : Inv (s.flush d elapsed) := by
  rw [State.flush]
  split_ifs with hn
  · exact hI
  · exact hI
  · exact inv_issue hI (Nat.pos_of_ne_zero hn)

/-- **Every step keeps the invariant**, if blocking calls are alone in their batch. -/
theorem inv_step (s : State) (a : Action) (t : State) (hI : Inv s) (ha : Alone s a)
    (h : step s a = some t) : Inv t := by
  cases a with
  | read block delay =>
      exact inv_call hI (fun hb => by subst hb; exact ha) h
  | write block delay =>
      exact inv_call hI (fun hb => by subst hb; exact ha) h
  | readFlush elapsed => exact Option.some.inj h ▸ inv_flush hI elapsed
  | writeFlush elapsed => exact Option.some.inj h ▸ inv_flush hI elapsed
  | complete w =>
      simp only [step, Option.bind_eq_bind, Option.bind_eq_some_iff, Option.guard_eq_some'] at h
      obtain ⟨-, ⟨-, hsent, -⟩, h⟩ := h
      exact Option.some.inj h ▸ inv_complete hI hsent
  | ask i =>
      simp only [step, Option.bind_eq_bind, Option.bind_eq_some_iff, Option.guard_eq_some'] at h
      obtain ⟨-, hi, fin, hfin, h⟩ := h
      obtain ⟨w, hw, rfl⟩ := Option.map_eq_some_iff.1 hfin
      split_ifs at h with hcl
      · exact Option.some.inj h ▸ inv_ask hI hi hw hcl
      · exact Option.some.inj h ▸ hI
  | release i =>
      have hi : 0 < s.reported i := by
        simp only [step, Option.bind_eq_bind, Option.bind_eq_some_iff,
          Option.guard_eq_some'] at h
        exact h.choose_spec.1
      obtain ⟨w, hw, hcl, -, hstep⟩ := release_spec hI hi
      rw [hstep] at h
      exact Option.some.inj h ▸ inv_letGo hI hi hw hcl

theorem inv_init : Inv init where
  bound i w h := by cases h
  inj i j w h := by cases h
  live i w h := by cases h
  counts i := rfl
  used i := by simp [init]
  ready i h := absurd h (lt_irrefl 0)
  owned w h := absurd h (Nat.not_lt_zero w)
  later w _ := rfl
  sent w h := absurd h (Nat.not_lt_zero w)
  cleared w h := absurd h (Nat.not_lt_zero w)
  opened d h := absurd h (lt_irrefl 0)
  apart d d' h := absurd h (lt_irrefl 0)

/-- **The invariant makes the bookkeeping right.** -/
theorem Inv.correct (hI : Inv s) : Correct s where
  once w hw := by
    rcases hI.owned w hw with ⟨h, -⟩ | ⟨i, hi⟩
    · exact Or.inl h
    · refine Or.inr ⟨hI.live i w hi, i, hi, ?_⟩
      rw [← hI.counts i]
      refine Nat.pos_of_ne_zero fun h0 => ?_
      rw [(hI.used i).2 h0] at hi
      cases hi
  complete w hw := by
    have hlt : w < s.words := by
      by_contra h
      rw [hI.later w (not_lt.1 h)] at hw
      exact lt_irrefl 0 hw
    rcases hI.owned w hlt with ⟨-, hcl⟩ | ⟨i, hi⟩
    · refine ⟨hcl, ?_⟩
      obtain ⟨k, hk⟩ := Option.isSome_iff_exists.1 (hI.cleared w hlt hcl)
      rw [hk, hI.sent w hlt k hk]
    · rw [hI.live i w hi] at hw
      exact absurd hw (lt_irrefl 0)
  live := hI.live
  counts := hI.counts
  fresh i h := (hI.used i).1 (comps_of_findComp h)
  release i h := (release_spec hI h).choose_spec.2.2.1

/-- **Completion words are managed correctly** in every run in which each blocking call
finds no batch open and its word is cleared before it stops waiting. -/
theorem correct_run {as : List Action} (hC : Meets step Alone init as)
    (h : run step init as = some s) : Correct s :=
  (run_invariant_of_meets inv_step inv_init hC h).correct

/-- Two reads of one batch and a blocking write between them. -/
theorem correct_run_mixed :
    ∃ s, run step init [.read false 0, .read false 0, .readFlush 1, .write true 5, .complete 0,
        .ask 1, .release 1, .ask 1, .release 1] = some s ∧
      (s.word 0).released = 1 ∧ (s.word 1).released = 1 ∧ Correct s := by
  obtain ⟨s, hs, hwords⟩ := Option.map_eq_some_iff.1 (show (run step init
    [.read false 0, .read false 0, .readFlush 1, .write true 5, .complete 0, .ask 1, .release 1,
      .ask 1, .release 1]).map (fun s => ((s.word 0).released, (s.word 1).released))
        = some (1, 1) by decide +kernel)
  have hC : Meets step Alone init [.read false 0, .read false 0, .readFlush 1, .write true 5,
      .complete 0, .ask 1, .release 1, .ask 1, .release 1] :=
    Meets.of_meets (c := fun s a => decide (Alone s a)) (fun _ _ h => of_decide_eq_true h)
      (by decide +kernel)
  exact ⟨s, hs, (Prod.mk.inj hwords).1, (Prod.mk.inj hwords).2, correct_run hC hs⟩

/-- **A blocking call that joins an open batch.**  Its word is released while the index
of the batch still points to it; the client of the index then releases it again.  And a
word that is not cleared in time is released all the same. -/
theorem blocking_call_joins :
    (∃ s, run step init [.read false 0, .read true 0] = some s ∧ s.comps 1 = some 0 ∧
      (s.word 0).released = 1 ∧ ¬ Correct s) ∧
    (∃ s, run step init [.read false 0, .read true 0, .ask 1, .release 1] = some s ∧
      (s.word 0).released = 2 ∧ ¬ Correct s) ∧
    ∃ s, run step init [.write true 10000] = some s ∧
      s.word 0 = ⟨1, some 1, false, 1⟩ ∧ ¬ Correct s := by
  refine ⟨?_, ?_, ?_⟩
  · obtain ⟨s, hs, hword⟩ := Option.map_eq_some_iff.1 (show (run step init
      [.read false 0, .read true 0]).map (fun s => (s.comps 1, (s.word 0).released))
        = some (some 0, 1) by decide +kernel)
    obtain ⟨hcomp, hrel⟩ := Prod.mk.inj hword
    refine ⟨s, hs, hcomp, hrel, fun h => ?_⟩
    rw [h.live 1 0 hcomp] at hrel
    cases hrel
  · obtain ⟨s, hs, hword⟩ := Option.map_eq_some_iff.1 (show (run step init
      [.read false 0, .read true 0, .ask 1, .release 1]).map
        (fun s => (s.words, (s.word 0).released)) = some (1, 2) by decide +kernel)
    obtain ⟨hwords, hrel⟩ := Prod.mk.inj hword
    refine ⟨s, hs, hrel, fun h => ?_⟩
    rcases h.once 0 (by omega) with h1 | ⟨h0, -⟩ <;> omega
  · obtain ⟨s, hs, hword⟩ := Option.map_eq_some_iff.1 (show (run step init
      [.write true 10000]).map (fun s => s.word 0) = some ⟨1, some 1, false, 1⟩
        by decide +kernel)
    refine ⟨s, hs, hword, fun h => ?_⟩
    have hcl := (h.complete 0 (by rw [hword]; decide)).1
    rw [hword] at hcl
    cases hcl

end Dma
end Nic
end Floem
