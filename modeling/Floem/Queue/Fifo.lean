import Floem.Queue.Advance

/-!
# The ring is a lossless FIFO, and its clean protocol

What the clients of a ring can rely on, over every run from zeroed storage.

* `lossless_fifo` — entries come out in the order their slots were handed out,
  each once and with the content it was submitted with; a slot is handed out
  again only after a release; a submitted entry at the dequeue end is returned.
* `clean_protocol` — with `FLAG_CLEAN`, every released entry is cleaned once, in
  ring order, before its slot is used again.
-/

namespace Floem
namespace Queue
namespace Ring

open Lib

variable {R : Ring} {s t : State}

/-! ## Handing out a slot -/

/-- An `enqueue_alloc` that hands out an entry, step by step: what was cleaned on
the way, and which slot it is. -/
theorem alloc_issued (hI : R.Inv s) {len gap a : ℕ} (h : R.step s (.alloc len gap) = some t)
    (ha : t.issued = s.issued ++ [a]) :
    a = R.slotOf s.issued.length ∧ ∃ m calls, R.AllocPre s m calls ∧
      m.flag (R.slotOf s.issued.length) = 0 ∧ t = R.reserved (R.cleanedTo s m calls) len := by
  obtain ⟨hN, hlen, hlen'⟩ := step_alloc_guard hI h
  obtain ⟨m, calls, hpre, hstep⟩ := alloc_spec hI hN gap hlen hlen'
  rw [hstep, Option.some.injEq] at h
  by_cases hfree : m.flag (R.slotOf s.issued.length) = 0 ∧
      (m.flag (gapEntry s.enq gap) = 0 ∨ m.flag (gapEntry s.enq gap) = FLAG_CLEAN)
  · rw [if_pos hfree] at h
    refine ⟨?_, m, calls, hpre, hfree.1, h.symm⟩
    rw [← h] at ha
    exact (List.singleton_inj.1 (List.append_cancel_left ha)).symm
  · rw [if_neg hfree] at h
    rw [← h] at ha
    exact absurd ha (by simp [cleanedTo])

/-- A ticket whose slot is the one handed out next is a lap or more behind. -/
theorem lap_behind (hI : R.Inv s) (hes : 0 < R.entrySize) {k : ℕ}
    (hk : s.issued[k]? = some (R.slotOf s.issued.length)) : k + R.slots ≤ s.issued.length := by
  have hlt : k < s.issued.length := (List.getElem?_eq_some_iff.1 hk).1
  have hslot := hI.issued_eq k _ hk
  have hmod : s.issued.length % R.slots = k % R.slots := by
    rw [slotOf, slotOf] at hslot
    exact Nat.eq_of_mul_eq_mul_right hes (by omega)
  by_contra hgt
  exact mod_ne_of_window hlt (by omega) hmod.symm

/-- A slot is handed out only when every ticket that lived in it shows a free
slot. -/
theorem flagOf_of_alloc (hI : R.Inv s) {len gap a : ℕ} (h : R.step s (.alloc len gap) = some t)
    (ha : t.issued = s.issued ++ [a]) {k : ℕ} (hk : s.issued[k]? = some a) :
    R.flagOf t k = 0 := by
  obtain ⟨-, hlen, hlen'⟩ := step_alloc_guard hI h
  have hes : 0 < R.entrySize := by rw [headerSize] at hlen; omega
  obtain ⟨rfl, -⟩ := alloc_issued hI h ha
  have hlap := lap_behind hI hes hk
  refine (inv_alloc hI h).reused k ?_
  rw [ha, List.length_append, List.length_singleton]
  omega

/-- The slot of a ticket is free only after the ticket was released. -/
theorem Inv.released_of_flagOf (hI : R.Inv s) {k : ℕ} (h : R.flagOf s k = 0) :
    s.released k = true := by
  rw [flagOf] at h
  split_ifs at h with h1 h2
  · exact hI.released_of_cleaned h1
  · exact h2
  all_goals exact absurd h (by decide)

/-- `enqueue_alloc` releases nothing. -/
theorem released_of_step_alloc (hI : R.Inv s) {len gap : ℕ}
    (h : R.step s (.alloc len gap) = some t) : t.released = s.released := by
  obtain ⟨hN, hlen, hlen'⟩ := step_alloc_guard hI h
  obtain ⟨m, calls, -, hstep⟩ := alloc_spec hI hN gap hlen hlen'
  rw [hstep, Option.some.injEq] at h
  rw [← h]
  split_ifs <;> rfl

/-! ## Draining -/

/-- As long as the next tickets are submitted, the dequeuer gets them one call
after the other. -/
theorem run_get (hword : R.entrySize ≤ 65528) (n : ℕ) : ∀ s, R.Inv s → (∀ k < n, (s.sent (s.got.length + k)).isSome) →
    ∃ u, run R.step s (List.replicate n .get) = some u ∧
      u.got.length = s.got.length + n ∧ s.got <+: u.got := by
  induction n with
  | zero => intro s _ _; exact ⟨s, rfl, rfl, List.prefix_rfl⟩
  | succ n ih =>
      intro s hI hsent
      obtain ⟨c, hc⟩ := Option.isSome_iff_exists.1 (hsent 0 (Nat.succ_pos n))
      have hlt := hI.sent_lt _ (hsent 0 (Nat.succ_pos n))
      obtain ⟨hN, hsize⟩ := hI.sizes (List.ne_nil_of_length_pos (by omega))
      have hstep := (get_spec hI hN (by rw [headerSize] at hsize; omega)).1 c hc
        (hI.len_head hword (hsent 0 (Nat.succ_pos n)))
      have hlen : (R.taken s c).got.length = s.got.length + 1 := by simp [taken]
      obtain ⟨u, hu, hulen, hpre⟩ := ih _ (inv_taken hI hc) fun k hk => by
        rw [hlen, show s.got.length + 1 + k = s.got.length + (k + 1) by omega]
        exact hsent (k + 1) (Nat.succ_lt_succ hk)
      refine ⟨u, ?_, by omega, (List.prefix_append _ _).trans hpre⟩
      rw [List.replicate_succ, run_cons, hstep]
      exact hu

/-! ## The contract of the queue -/

/-- **The ring is a lossless FIFO.**  After every run of the two ends from zeroed
storage, whatever the order of submits and releases:

* the `k`-th entry `dequeue_get` returned is the `k`-th one `enqueue_alloc` handed
  out, and its content is what was submitted;
* a slot that is handed out has been released by every ticket that had it;
* if no length outgrows its 16-bit field when it is rounded up, a submitted entry at
  the dequeue offset is returned by the next call, and as many entries as are
  submitted from there on by as many calls;
* no call that a client may make fails an assertion. -/
theorem lossless_fifo (R : Ring) {mem : Mem} (hzero : R.Zeroed mem) {as : List Action} {s : State}
    (h : run R.step (R.init mem) as = some s) :
    (∀ k g, s.got[k]? = some g → s.issued[k]? = some g.1 ∧ s.sent k = some g.2) ∧
    (∀ len gap t (a : ℕ), R.step s (.alloc len gap) = some t → t.issued = s.issued ++ [a] →
      ∀ k, s.issued[k]? = some a → s.released k = true) ∧
    (R.entrySize ≤ 65528 → ∀ c, s.sent s.got.length = some c →
      ∃ e t, s.issued[s.got.length]? = some e ∧
        R.step s .get = some t ∧ t.got = s.got ++ [(e, c)]) ∧
    (R.entrySize ≤ 65528 → ∀ n, (∀ k < n, (s.sent (s.got.length + k)).isSome) →
      ∃ t, run R.step s (List.replicate n .get) = some t ∧ t.got.length = s.got.length + n) ∧
    ((∀ len gap, 0 < R.slots → headerSize ≤ len → len ≤ R.entrySize →
        (R.step s (.alloc len gap)).isSome) ∧
      (∀ k, k < s.issued.length → s.sent k = none → (R.step s (.submit k)).isSome) ∧
      (0 < R.slots → 0 < R.entrySize → (R.step s .get).isSome) ∧
      (∀ k, k < s.got.length → s.released k = false → (R.step s (.release k)).isSome)) := by
  have hI : R.Inv s := inv_run hzero h
  refine ⟨fun k g hg => ?_, fun len gap t a hstep ha k hk => ?_, fun hword c hc => ?_,
    fun hword n hn => ?_, fun len gap hN hlen hlen' => ?_, fun k hk hs => ?_, fun hN hes => ?_,
    fun k hk hr => ?_⟩
  · obtain ⟨hslot, hsent⟩ := hI.got_eq k g hg
    have hk : k < s.issued.length := (List.getElem?_eq_some_iff.1 hg).1.trans_le hI.got_le
    have hget := List.getElem?_eq_getElem hk
    exact ⟨by rw [hget, hslot, ← hI.issued_eq k _ hget], hsent⟩
  · rw [← released_of_step_alloc hI hstep]
    exact (inv_alloc hI hstep).released_of_flagOf (flagOf_of_alloc hI hstep ha hk)
  · have hsome : (s.sent s.got.length).isSome := by rw [hc]; rfl
    have hlt := hI.sent_lt _ hsome
    obtain ⟨hN, hsize⟩ := hI.sizes (List.ne_nil_of_length_pos (by omega))
    have hget := List.getElem?_eq_getElem hlt
    have hstep := (get_spec hI hN (by rw [headerSize] at hsize; omega)).1 c hc
      (hI.len_head hword hsome)
    refine ⟨_, _, hget, hstep, ?_⟩
    rw [taken, hI.issued_eq _ _ hget]
  · obtain ⟨t, ht, hlen, -⟩ := run_get hword n s hI hn
    exact ⟨t, ht, hlen⟩
  · obtain ⟨m, calls, -, hstep⟩ := alloc_spec hI hN gap hlen hlen'
    rw [hstep]; rfl
  · obtain ⟨m, -, hstep, -⟩ := submit_spec hI (List.getElem?_eq_getElem hk) hs
    rw [hstep]; rfl
  · obtain ⟨hsome, hnone⟩ := get_spec hI hN hes
    by_cases hlen : s.mem.len (R.slotOf s.got.length) = 0
    · rw [hnone (Or.inr hlen)]; rfl
    · cases hc : s.sent s.got.length with
      | none => rw [hnone (Or.inl hc)]; rfl
      | some c => rw [hsome c hc hlen]; rfl
  · obtain ⟨m, hstep, -⟩ := release_spec hI (List.getElem?_eq_getElem hk) hr
    rw [hstep]; rfl

/-- A ring of one slot, used twice: the second entry is handed out when the first
was released, and both come out as they went in. -/
theorem lossless_fifo_one_slot :
    let R : Ring := ⟨1, 8, 0, 0, fun m _ => m, true, Or.inl rfl, fun _ _ _ _ => rfl⟩
    ∃ s, run R.step (R.init fun _ => 0) [.alloc 8 0, .produce 0 6 7, .submit 0, .alloc 8 0, .get,
        .consume 0 6 9, .release 0, .alloc 8 0, .produce 1 7 5, .submit 1, .get] = some s ∧
      s.issued = [0, 0] ∧ s.got = [(0, (0, [7, 0])), (0, (0, [9, 5]))] ∧
      ∀ k g, s.got[k]? = some g → s.issued[k]? = some g.1 ∧ s.sent k = some g.2 := by
  intro R
  obtain ⟨s, hs, hlists⟩ := Option.map_eq_some_iff.1 (show (run R.step (R.init fun _ => 0)
    [.alloc 8 0, .produce 0 6 7, .submit 0, .alloc 8 0, .get, .consume 0 6 9, .release 0,
      .alloc 8 0, .produce 1 7 5, .submit 1, .get]).map (fun s => (s.issued, s.got))
        = some ([0, 0], [(0, (0, [7, 0])), (0, (0, [9, 5]))]) by decide +kernel)
  exact ⟨s, hs, (Prod.mk.inj hlists).1, (Prod.mk.inj hlists).2,
    (lossless_fifo R (fun _ _ _ => rfl) hs).1⟩

/-! ## The clean protocol -/

/-- More fuel does not change what the clean loop returns. -/
theorem enqueueCleanLoop_mono (cleanFunc : Mem → ℕ → Mem) (fuel : ℕ) :
    ∀ fuel₁ m q r, enqueueCleanLoop cleanFunc fuel m q = some r → fuel ≤ fuel₁ →
      enqueueCleanLoop cleanFunc fuel₁ m q = some r := by
  induction fuel with
  | zero => intro fuel₁ m q r h; exact absurd h (by simp [enqueueCleanLoop])
  | succ fuel ih =>
      intro fuel₁ m q r h hle
      obtain ⟨fuel₂, rfl⟩ : ∃ n, fuel₁ = n + 1 := ⟨fuel₁ - 1, by omega⟩
      rw [enqueueCleanLoop] at h ⊢
      simp only [Option.bind_eq_bind, Option.bind_eq_some_iff] at h ⊢
      obtain ⟨_, hcheck, h⟩ := h
      refine ⟨_, hcheck, ?_⟩
      by_cases hflag : m.flag (q.queue + q.clean) = FLAG_CLEAN
      · simp only [hflag, ne_eq, not_true_eq_false, if_false, Option.bind_eq_some_iff] at h ⊢
        obtain ⟨r₁, hr₁, h⟩ := h
        exact ⟨r₁, ih _ _ _ _ hr₁ (by omega), h⟩
      · simpa only [hflag, ne_eq, not_false_eq_true, if_true] using h

/-- In a queue whose releases store `FLAG_CLEAN`, at most one lap of tickets
waits to be cleaned. -/
theorem Inv.dirty_le (hI : R.Inv s) (hR : R.flagClean = FLAG_CLEAN) :
    s.issued.length ≤ s.cleaned.length + R.slots := by
  by_contra hlt
  exact absurd (cleaned_of_flagOf hR (hI.reused s.cleaned.length (by omega))) (lt_irrefl _)

/-- **The clean protocol.**  In a queue whose releases store `FLAG_CLEAN`, after
every run from zeroed storage:

* the clean function was called on the entries in the order of their tickets,
  each released before;
* a slot that is handed out has been cleaned for every ticket that had it;
* an `enqueue_alloc` calls the clean function on slots in state `FLAG_CLEAN` only;
* if the slot at the enqueue offset is in state `FLAG_CLEAN`, the call cleans it
  and hands it out, and so it does if the entry in it was released;
* the loop of `enqueue_clean` terminates. -/
theorem clean_protocol (R : Ring) (hR : R.flagClean = FLAG_CLEAN) {mem : Mem}
    (hzero : R.Zeroed mem) {as : List Action} {s : State}
    (h : run R.step (R.init mem) as = some s) :
    (∀ k e, s.cleaned[k]? = some e → s.issued[k]? = some e ∧ s.released k = true) ∧
    (∀ len gap t (a : ℕ), R.step s (.alloc len gap) = some t → t.issued = s.issued ++ [a] →
      ∀ k : ℕ, s.issued[k]? = some a → t.cleaned[k]? = some a) ∧
    (∀ len gap t, R.step s (.alloc len gap) = some t → s.cleaned <+: t.cleaned ∧
      ∀ k e, s.cleaned.length ≤ k → t.cleaned[k]? = some e → s.mem.flag e = FLAG_CLEAN) ∧
    (∀ len, headerSize ≤ len → len ≤ R.entrySize →
      (s.mem.flag (s.enq.queue + s.enq.offset) = FLAG_CLEAN ∨
        ∃ k, k + R.slots = s.issued.length ∧ s.released k = true) → 0 < R.slots →
      ∃ t, R.step s (.alloc len 0) = some t ∧
        t.issued = s.issued ++ [s.enq.queue + s.enq.offset]) ∧
    (0 < R.slots → 0 < R.entrySize → ∃ r, ∀ fuel, R.slots < fuel →
      enqueueClean R.cleanFunc fuel s.mem s.enq = some r) := by
  have hI : R.Inv s := inv_run hzero h
  have heqe : s.enq.queue + s.enq.offset = R.slotOf s.issued.length := by rw [hI.enq_eq]; rfl
  refine ⟨fun k e he => ?_, fun len gap t a hstep ha k hk => ?_, fun len gap t hstep => ?_,
    fun len hlen hlen' hdirty hN => ?_, fun hN hes => ?_⟩
  · obtain ⟨rfl, hrel⟩ := hI.cleaned_eq k e he
    have hk : k < s.issued.length := (hI.released_lt k hrel).trans_le hI.got_le
    have hget := List.getElem?_eq_getElem hk
    exact ⟨by rw [hget, ← hI.issued_eq k _ hget], hrel⟩
  · have hIt := inv_alloc hI hstep
    have hcl := cleaned_of_flagOf hR (flagOf_of_alloc hI hstep ha hk)
    have hget := List.getElem?_eq_getElem hcl
    rw [hget, (hIt.cleaned_eq k _ hget).1, hI.issued_eq k a hk]
  · obtain ⟨hN, hlen, hlen'⟩ := step_alloc_guard hI hstep
    obtain ⟨m, calls, hpre, hspec⟩ := alloc_spec hI hN gap hlen hlen'
    have hcl : t.cleaned = s.cleaned ++ calls := by
      rw [hspec, Option.some.injEq] at hstep
      rw [← hstep]
      split_ifs <;> rfl
    refine ⟨hcl ▸ List.prefix_append _ _, fun k e hk he => ?_⟩
    have hlt : k < s.cleaned.length + calls.length := by
      have := (List.getElem?_eq_some_iff.1 he).1
      rwa [hcl, List.length_append] at this
    have hfl := hpre.dirty k hk hlt
    have hrel := (flagClean_of_flagOf hfl).2.2
    have hslot : e = R.slotOf k := (hpre.inv.cleaned_eq k e (by rw [hcl] at he; exact he)).1
    rw [hslot, (hI.live k ((hI.released_lt k hrel).trans_le hI.got_le)
      (hI.in_window (by rw [hfl]; decide))).flag, hfl]
  · have hes : 0 < R.entrySize := by rw [headerSize] at hlen; omega
    obtain ⟨m, calls, hpre, hspec⟩ := alloc_spec hI hN 0 hlen hlen'
    have hfree : m.flag (R.slotOf s.issued.length) = 0 := by
      by_cases hflag : s.mem.flag (R.slotOf s.issued.length) = FLAG_CLEAN
      · exact hpre.clean hflag
      · rcases hdirty with hd | ⟨k, hk, hrel⟩
        · exact absurd (heqe ▸ hd) hflag
        · -- released and not in state `FLAG_CLEAN`, so it was cleaned already
          have hfl := hI.flag_next hN (by omega)
          rw [show s.issued.length - R.slots = k by omega, flagOf, if_pos hrel, hR] at hfl
          rw [(hpre.same hflag).1, hfl]
          split_ifs with hc
          · rfl
          · rw [if_neg hc] at hfl
            exact absurd hfl hflag
    have hgap : gapEntry s.enq 0 = R.slotOf s.issued.length := by
      rw [gapEntry, if_neg (lt_irrefl 0), heqe]
    refine ⟨_, hspec, ?_⟩
    rw [hgap, if_pos ⟨hfree, Or.inl hfree⟩, heqe]
    rfl
  · obtain ⟨m, calls, hloop, -⟩ := cleanLoop_spec hN hes R.cleanFuel s hI (by
      have := hI.dirty_le hR
      rw [cleanFuel]
      omega)
    refine ⟨(m, R.endAt s.issued.length (s.cleaned.length + calls.length), calls),
      fun fuel hfuel => ?_⟩
    rw [enqueueClean, show (guard (s.enq.clean < s.enq.len) : Option Unit) = some () from
      if_pos (by rw [hI.enq_eq]; exact offset_lt hN hes _)]
    exact enqueueCleanLoop_mono _ _ _ _ _ _ hloop hfuel

/-- Two slots released out of order: the third entry is handed out after both were
cleaned in ring order. -/
theorem clean_protocol_two_slots :
    let R : Ring := ⟨2, 8, 0, FLAG_CLEAN, fun m _ => m, false, Or.inr rfl, fun _ _ _ _ => rfl⟩
    ∃ s, run R.step (R.init fun _ => 0) [.alloc 8 0, .alloc 8 0, .submit 1, .submit 0, .get, .get,
        .release 1, .alloc 8 0, .release 0, .alloc 8 0] = some s ∧
      s.issued = [0, 8, 0] ∧ s.cleaned = [0, 8] ∧
      ∀ k e, s.cleaned[k]? = some e → s.issued[k]? = some e ∧ s.released k = true := by
  intro R
  obtain ⟨s, hs, hlists⟩ := Option.map_eq_some_iff.1 (show (run R.step (R.init fun _ => 0)
    [.alloc 8 0, .alloc 8 0, .submit 1, .submit 0, .get, .get, .release 1, .alloc 8 0, .release 0,
      .alloc 8 0]).map (fun s => (s.issued, s.cleaned)) = some ([0, 8, 0], [0, 8])
        by decide +kernel)
  exact ⟨s, hs, (Prod.mk.inj hlists).1, (Prod.mk.inj hlists).2,
    (clean_protocol R rfl (fun _ _ _ => rfl) hs).1⟩

end Ring
end Queue
end Floem
