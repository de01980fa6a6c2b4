import Floem.Custom.Invariant

/-!
# The instructions keep the invariant

* `TicketsOk.draw`, `TicketsOk.take` — a thread draws a ticket and waits; the first of
  the waiting threads takes the slot.  The non-blocking code does both at once.
* `OutOk.take` — what a dequeuer takes is the entry of its ticket.
* `inv_tryLock`, …, `inv_clear` — one lemma for each instruction that changes
  something; `Floem.Custom.Fifo` goes through the instructions.
-/

namespace Floem
namespace Custom
namespace Config

open Lib Queue

variable {C : Config} {s s' : State}

/-! ## Drawing tickets and taking slots -/

/-- A thread draws a ticket and waits for the slot of the offset. -/
theorem TicketsOk.draw (h : C.TicketsOk s) {t : ℕ} {j : Job} {p : PC}
    (ht : (s.pc t).waits = none) (hpc : s'.pc = Function.update s.pc t p)
    (hoffset : s'.offset = (s.draw C j).offset)
    (htickets : ∀ sd, s'.tickets sd = s.tickets sd + if sd = j.side then 1 else 0)
    (hcl : s'.claimed = s.claimed)
    (hp : p.waits = some (j.side, s.offset j.side, s.tickets j.side)) : C.TicketsOk s' := by
  have hnext : ∀ sd x, C.nextTicket s' sd x = C.nextTicket s sd x := fun sd x => by
    rw [nextTicket, hcl, nextTicket]
  have hwaits : ∀ u w, (s'.pc u).waits = some w ↔
      u = t ∧ w = (j.side, s.offset j.side, s.tickets j.side) ∨
        u ≠ t ∧ (s.pc u).waits = some w := fun u w => by
    rw [hpc]
    by_cases hu : u = t
    · subst hu; simp [hp, eq_comm]
    · simp [hu]
  constructor
  · intro sd
    rw [hoffset, htickets]
    by_cases hsd : sd = j.side
    · subst hsd
      simp only [State.draw, Function.update_self, if_true]
      rw [h.offset_eq, Nat.mod_add_mod]
    · simp only [State.draw, Function.update_of_ne hsd, if_neg hsd, Nat.add_zero]
      exact h.offset_eq sd
  · intro sd x hx
    rw [hnext, htickets]
    have := h.issued sd x hx
    split_ifs <;> omega
  · intro u sd x k hu
    rw [hnext, htickets]
    rcases (hwaits u _).1 hu with ⟨-, heq⟩ | ⟨-, hu⟩
    · cases heq
      have hmod : s.tickets j.side % C.size = s.offset j.side := (h.offset_eq _).symm
      refine ⟨hmod, ?_, by simp⟩
      -- the slot is not to be taken with a later ticket
      have hlt := h.issued j.side _ (offset_lt h j.side)
      by_contra hgt
      refine mod_ne_of_window (not_le.1 hgt) hlt ?_
      rw [nextTicket, Nat.add_mul_mod_self_left, h.offset_eq, Nat.mod_mod]
    · obtain ⟨h1, h2, h3⟩ := h.waiting u sd x k hu
      exact ⟨h1, h2, by omega⟩
  · intro u v w hu hv
    rcases (hwaits u w).1 hu with ⟨rfl, rfl⟩ | ⟨-, hu⟩
    · rcases (hwaits v _).1 hv with ⟨rfl, -⟩ | ⟨-, hv⟩
      · rfl
      · exact absurd (h.waiting v _ _ _ hv).2.2 (lt_irrefl _)
    · rcases (hwaits v w).1 hv with ⟨rfl, rfl⟩ | ⟨-, hv⟩
      · exact absurd (h.waiting u _ _ _ hu).2.2 (lt_irrefl _)
      · exact h.waiting_inj u v w hu hv
  · intro sd x k hk hlo hhi
    rw [hnext] at hlo
    rw [htickets] at hhi
    rcases Nat.lt_or_ge k (s.tickets sd) with hlt | hge
    · obtain ⟨u, hu⟩ := h.waited sd x k hk hlo hlt
      refine ⟨u, (hwaits u _).2 (Or.inr ⟨fun hut => ?_, hu⟩)⟩
      rw [hut, ht] at hu
      cases hu
    · by_cases hsd : sd = j.side
      · subst hsd
        rw [if_pos rfl] at hhi
        obtain rfl : k = s.tickets j.side := by omega
        exact ⟨t, (hwaits t _).2 (Or.inl ⟨rfl, by rw [← hk, h.offset_eq]⟩)⟩
      · rw [if_neg hsd] at hhi
        omega

/-- The thread that waits for a slot with the earliest ticket takes it. -/
theorem TicketsOk.take (h : C.TicketsOk s) {t x k : ℕ} {j : Job} {p : PC}
    (ht : (s.pc t).waits = some (j.side, x, k)) (hnext : C.nextTicket s j.side x = k)
    (hpc : s'.pc = Function.update s.pc t p) (hoffset : s'.offset = s.offset)
    (htickets : ∀ sd, s'.tickets sd = s.tickets sd)
    (hcl : ∀ sd y, s'.claimed sd y = s.claimed sd y + if sd = j.side ∧ y = x then 1 else 0)
    (hp : p.waits = none) : C.TicketsOk s' := by
  have hnext' : ∀ sd y, C.nextTicket s' sd y =
      C.nextTicket s sd y + if sd = j.side ∧ y = x then C.size else 0 := fun sd y => by
    rw [nextTicket, hcl, nextTicket]
    split_ifs
    · rw [Nat.mul_add, Nat.mul_one, Nat.add_assoc]
    · rfl
  have hwaits : ∀ u w, (s'.pc u).waits = some w ↔ u ≠ t ∧ (s.pc u).waits = some w :=
    fun u w => by
      rw [hpc]
      by_cases hu : u = t
      · subst hu; simp [hp]
      · simp [hu]
  have hk := h.waiting t _ _ _ ht
  constructor
  · intro sd
    rw [hoffset, htickets]
    exact h.offset_eq sd
  · intro sd y hy
    rw [hnext', htickets]
    have := h.issued sd y hy
    split_ifs with hx
    · obtain ⟨rfl, rfl⟩ := hx
      omega
    · omega
  · intro u sd y k' hu
    obtain ⟨hut, hu⟩ := (hwaits u _).1 hu
    obtain ⟨h1, h2, h3⟩ := h.waiting u sd y k' hu
    rw [hnext', htickets]
    refine ⟨h1, ?_, h3⟩
    split_ifs with hx
    · -- another thread waits for the slot with another ticket, so with a later one
      obtain ⟨rfl, rfl⟩ := hx
      have hne : k' ≠ k := fun heq => hut (h.waiting_inj u t _ (heq ▸ hu) ht)
      by_contra hlt
      exact mod_ne_of_window (show k < k' by omega) (by omega) (hk.1.trans h1.symm)
    · exact h2
  · intro u v w hu hv
    exact h.waiting_inj u v w ((hwaits u w).1 hu).2 ((hwaits v w).1 hv).2
  · intro sd y k' hk' hlo hhi
    rw [hnext'] at hlo
    rw [htickets] at hhi
    obtain ⟨u, hu⟩ := h.waited sd y k' hk' (by omega) hhi
    refine ⟨u, (hwaits u _).2 ⟨fun hut => ?_, hu⟩⟩
    subst hut
    rw [ht] at hu
    cases hu
    rw [if_pos ⟨rfl, rfl⟩] at hlo
    have := C.size_pos
    omega

/-! ## What was dequeued -/

theorem OutOk.congr (h : C.OutOk s) (hout : s'.out = s.out)
    (hent : ∀ (k : ℕ) (c : ℕ → UInt8), s.entered[k]? = some c → s'.entered[k]? = some c)
    (hcl : ∀ x, s'.claimed .deq x = s.claimed .deq x) : C.OutOk s' where
  taken k := by
    rw [hout, nextTicket, hcl]
    exact h.taken k
  content p hp := by
    rw [hout] at hp
    obtain ⟨c, hc, hb⟩ := h.content p hp
    exact ⟨c, hent _ _ hc, hb⟩
  nodup := by rw [hout]; exact h.nodup

/-- A dequeuer takes the entry with its ticket. -/
theorem OutOk.take (h : C.OutOk s) {x k : ℕ} {d : ℕ → UInt8} (hx : k % C.size = x)
    (hnext : C.nextTicket s .deq x = k) (hout : s'.out = s.out ++ [(k, d)])
    (hent : ∀ (k : ℕ) (c : ℕ → UInt8), s.entered[k]? = some c → s'.entered[k]? = some c)
    (hcl : ∀ y, s'.claimed .deq y = s.claimed .deq y + if y = x then 1 else 0)
    (hd : ∃ c, s'.entered[k]? = some c ∧
      ∀ b < C.typeOffset, C.checksum ≠ some b → d b = c b) : C.OutOk s' := by
  have hnext' : ∀ y, C.nextTicket s' .deq y =
      C.nextTicket s .deq y + if y = x then C.size else 0 := fun y => by
    rw [nextTicket, hcl, nextTicket]
    split_ifs
    · rw [Nat.mul_add, Nat.mul_one, Nat.add_assoc]
    · rfl
  have hnot : k ∉ s.out.map Prod.fst := fun hk => by
    have hlt := (h.taken k).1 hk
    rw [hx, hnext] at hlt
    exact absurd hlt (lt_irrefl _)
  constructor
  · intro k'
    rw [hout, List.map_append, List.mem_append, h.taken k', hnext']
    simp only [List.map_cons, List.map_nil, List.mem_singleton]
    split_ifs with hk'
    · rw [hk', hnext]
      constructor
      · have := C.size_pos
        omega
      · -- the ticket is the only one of slot `x` that is new
        intro hlt
        by_cases hless : k' < k
        · exact Or.inl hless
        · exact Or.inr
            (eq_of_mod_eq_of_window (hx.trans hk'.symm) (not_lt.1 hless) hlt).symm
    · rw [Nat.add_zero]
      refine or_iff_left fun heq => hk' ?_
      rw [heq, hx]
  · intro p hp
    rw [hout, List.mem_append, List.mem_singleton] at hp
    rcases hp with hp | rfl
    · obtain ⟨c, hc, hb⟩ := h.content p hp
      exact ⟨c, hent _ _ hc, hb⟩
    · exact hd
  · rw [hout, List.map_append, List.nodup_append]
    refine ⟨h.nodup, by simp, fun a ha b hb heq => hnot ?_⟩
    simp only [List.map_cons, List.map_nil, List.mem_singleton] at hb
    rw [← hb, ← heq]
    exact ha

/-! ## The instructions -/

theorem status_store (x : ℕ) (v : UInt8) (y : ℕ) :
    C.status (s.store x C.typeOffset v) y = if y = x then v else C.status s y := by
  simp [status, State.data_store]

/-- A store to the status field leaves the entry alone. -/
theorem Intact.store_status {x k : ℕ} (h : C.Intact s x k) {y : ℕ} {v : UInt8}
    (hdata : s'.data = (s.store y C.typeOffset v).data)
    (hent : ∀ (k : ℕ) (c : ℕ → UInt8), s.entered[k]? = some c → s'.entered[k]? = some c) :
    C.Intact s' x k := by
  obtain ⟨c, hc, hb⟩ := h
  refine ⟨c, hent _ _ hc, fun b hlt hne => ?_⟩
  rw [hdata, State.data_store, if_neg (fun h => hlt.ne h.2)]
  exact hb b hlt hne

/-- The lock on an unclaimed slot and on one that is claimed is of different sides. -/
theorem lock_cases (sd : Side) : sd = .enq ∧ sd.lock = FLAG_INUSE ∧ sd.free = 0 ∨
    sd = .deq ∧ sd.lock = FLAG_OWN ||| FLAG_INUSE ∧ sd.free = FLAG_OWN := by
  cases sd
  · exact Or.inl ⟨rfl, rfl, rfl⟩
  · exact Or.inr ⟨rfl, rfl, rfl⟩

/-- A thread goes on and changes nothing. -/
theorem inv_goto (hI : C.Inv s) {t : ℕ} {p : PC} (hwaits : p.waits = (s.pc t).waits)
    (hp : C.ThreadOk s p) (hslot : p.slot = none ∨ p.slot = (s.pc t).slot) :
    C.Inv (s.goto t p) where
  tickets := hI.tickets.congr rfl rfl rfl rfl rfl hwaits
  slots := hI.slots.goto rfl (fun _ => .of_eq rfl) rfl rfl (fun _ _ h => h)
    (hp.congr (fun _ _ => ⟨.of_eq rfl, rfl, fun _ => rfl⟩) fun _ _ h => h) hslot
  out := hI.out.congr rfl (fun _ _ h => h) fun _ => rfl

/-- A free slot is locked, and counted as taken (`m = 1`) or not yet (`m = 0`). -/
theorem SlotsOk.lock (h : C.SlotsOk s) {t x m : ℕ} {j : Job} {p : PC} (hm : m ≤ 1)
    (hst : C.status s x = j.side.free) (hpc : s'.pc = Function.update s.pc t p)
    (hdata : s'.data = (s.store x C.typeOffset j.side.lock).data)
    (hrel : s'.released = s.released)
    (hcl : ∀ sd y, s'.claimed sd y = s.claimed sd y + if sd = j.side ∧ y = x then m else 0)
    (hent : ∀ (k : ℕ) (c : ℕ → UInt8), s.entered[k]? = some c → s'.entered[k]? = some c)
    (hsum : m = 1 → j.side = .deq → ∀ u, (s.pc u).sums ≠ some x)
    (hp : C.ThreadOk s' p) (hslot : p.slot = none ∨ p.slot = some x) : C.SlotsOk s' := by
  obtain ⟨hdeq, hfree, hfull⟩ := h.claimed_of_free hst
  have hst' : C.status s' x = j.side.lock := by
    rw [status, hdata, ← status, status_store, if_pos rfl]
  refine h.change hpc (fun y hy => ⟨?_, by rw [hrel], fun sd => ?_⟩) hent
    (fun u _ => h.not_locked hst u) (fun u _ hu => ?_) ?_ hp hslot
  · rw [hdata]
    exact Function.update_of_ne hy _ _
  · rw [hcl, if_neg (fun h => hy h.2), Nat.add_zero]
  · -- a checksum still to be stored: only the trial of a dequeuer is possible
    obtain ⟨hown, -⟩ := (h.thread u).of_sums hu
    rcases lock_cases j.side with ⟨-, -, hfree'⟩ | ⟨hside, hlock, -⟩
    · rw [hst, hfree'] at hown
      exact absurd hown (by decide)
    · have hm0 : m = 0 := by
        by_contra hne
        exact hsum (by omega) hside u hu
      subst hm0
      refine ⟨Or.inr (hst'.trans hlock), ?_⟩
      rw [hcl, ite_self, Nat.add_zero, hrel]
      exact hdeq
  · rcases lock_cases j.side with ⟨hside, hlock, -⟩ | ⟨hside, hlock, -⟩
    · rw [hside] at hcl hfree
      refine .filling (hst'.trans hlock) ?_ ?_
      · rw [hcl, if_neg (by simp), Nat.add_zero, hrel]
        exact hdeq
      · rw [hcl, if_pos ⟨rfl, rfl⟩, hrel]
        omega
    · obtain ⟨henq, hin⟩ := hfull hside
      rw [hside] at hcl
      refine .leaving (hst'.trans hlock) ?_ ?_ ?_
      · rw [hcl, if_neg (by simp), Nat.add_zero, hrel]
        exact henq
      · rw [hcl, if_pos ⟨rfl, rfl⟩, hrel]
        omega
      · rw [lapTicket, hrel]
        exact hin.store_status hdata hent

/-- The non-blocking code locks the slot. -/
theorem inv_tryLock (hI : C.Inv s) {t old : ℕ} {j : Job} (ht : s.pc t = .tryLock j old)
    (hst : C.status s old = j.side.free) :
    C.Inv ((s.store old C.typeOffset j.side.lock).goto t (.advance j old)) where
  tickets := hI.tickets.congr rfl rfl rfl rfl rfl (by rw [ht]; rfl)
  slots := by
    refine hI.slots.lock (m := 0) (Nat.zero_le _) hst rfl rfl rfl
      (fun _ _ => by simp [State.goto, State.store]) (fun _ _ h => h) (by simp)
      ⟨?_, (hI.slots.claimed_of_free hst).2.1⟩ (Or.inr rfl)
    exact (status_store old _ old).trans (if_pos rfl)
  out := hI.out.congr rfl (fun _ _ h => h) fun _ => rfl

/-- The non-blocking code sets the status back. -/
theorem inv_undo (hI : C.Inv s) {t old : ℕ} {j : Job} (ht : s.pc t = .undo j old) :
    C.Inv ((s.store old C.typeOffset j.side.free).goto t .idle) where
  tickets := hI.tickets.congr rfl rfl rfl rfl rfl (by rw [ht]; rfl)
  slots := by
    have hthread := hI.slots.thread t
    rw [ht] at hthread
    obtain ⟨hlock, hcl⟩ := hthread
    have hst' : C.status ((s.store old C.typeOffset j.side.free).goto t .idle) old
        = j.side.free := (status_store old _ old).trans (if_pos rfl)
    have hmine : (s.pc t).slot = some old := by rw [ht]; rfl
    refine hI.slots.change (x := old) (p := .idle) rfl
      (fun y hy => ⟨Function.update_of_ne hy _ _, rfl, fun _ => rfl⟩) (fun _ _ h => h)
      (fun u hu hslot => hu (hI.slots.excl u t old hslot hmine)) (fun u _ hu => ?_) ?_ trivial
      (Or.inl rfl)
    · obtain ⟨hown, hdeq⟩ := (hI.slots.thread u).of_sums hu
      rcases lock_cases j.side with ⟨-, hlock', -⟩ | ⟨-, -, hfree⟩
      · rw [hlock, hlock'] at hown
        exact absurd hown (by decide)
      · exact ⟨Or.inl (hst'.trans hfree), hdeq⟩
    · rcases lock_cases j.side with ⟨hside, hlock', hfree⟩ | ⟨hside, hlock', hfree⟩
      · rw [hside] at hcl
        refine .empty (hst'.trans hfree) hcl ((hI.slots.slot old).deq_eq ?_)
        rw [hlock, hlock']
        decide
      · rw [hside] at hcl
        obtain ⟨henq, hin⟩ := (hI.slots.slot old).of_own (Or.inr (hlock.trans hlock'))
        exact .full (hst'.trans hfree) henq hcl (hin.store_status rfl fun _ _ h => h)
  out := hI.out.congr rfl (fun _ _ h => h) fun _ => rfl

/-- The entry a dequeuer takes with its ticket is the one that was enqueued with it. -/
theorem OutOk.take_job (h : C.OutOk s) {j : Job} {x k : ℕ} (hx : k % C.size = x)
    (hnext : C.nextTicket s j.side x = k)
    (hin : j.side = .deq → C.Intact s x k) {u : State} (hout : u.out = s.out)
    (hdata : ∀ b < C.typeOffset, u.data x b = s.data x b) (hcl : u.claimed = s.claimed)
    (hent : ∀ (k : ℕ) (c : ℕ → UInt8), s.entered[k]? = some c → u.entered[k]? = some c)
    (t : ℕ) (p : PC) : C.OutOk ((u.take j x k).goto t p) := by
  have htake : ∀ y, ((u.take j x k).goto t p).claimed .deq y
      = s.claimed .deq y + if .deq = j.side ∧ y = x then 1 else 0 := fun y => by
    rw [← hcl]
    exact u.claimed_take j x k .deq y
  cases j with
  | enq c =>
      refine h.congr hout hent fun y => ?_
      rw [htake, if_neg (by simp [Job.side]), Nat.add_zero]
  | deq =>
      obtain ⟨c, hc, hb⟩ := hin rfl
      refine h.take (d := u.data x) hx hnext ?_ hent (fun y => ?_) ⟨c, hent _ _ hc, fun b hlt hne => ?_⟩
      · show u.out ++ _ = _
        rw [hout]
      · rw [htake]
        simp [Job.side]
      · rw [hdata b hlt]
        exact hb b hlt hne

/-- The first thing the thread knows that took a slot. -/
theorem threadOk_begin {j : Job} {x k : ℕ} (hlock : C.status s x = j.side.lock)
    (hcl : s.claimed j.side x = s.released x + 1) (hk : k = C.lapTicket s x)
    (hent : ∀ c, j = .enq c → s.entered[k]? = some c) : C.ThreadOk s (j.begin x k) := by
  cases j with
  | enq c =>
      exact ⟨hlock, hcl, hk, hent c rfl, C.typeOffset_pos, fun b hb => absurd hb (Nat.not_lt_zero _)⟩
  | deq => exact ⟨hlock, hcl, hk⟩

@[simp] theorem slot_begin (j : Job) (x k : ℕ) : (j.begin x k).slot = some x := by cases j <;> rfl

@[simp] theorem waits_begin (j : Job) (x k : ℕ) : (j.begin x k).waits = none := by cases j <;> rfl

/-- The non-blocking code advances the offset and has taken the slot. -/
theorem inv_advance (hI : C.Inv s) {t old : ℕ} {j : Job} (ht : s.pc t = .advance j old)
    (hoff : s.offset j.side = old)
    (hwait : ∀ u k, (s.pc u).waits ≠ some (j.side, old, k))
    (hsum : j.side = .deq → ∀ u, (s.pc u).sums ≠ some old) :
    C.Inv (((s.draw C j).take j old (s.tickets j.side)).goto t
      (j.begin old (s.tickets j.side))) := by
  have hthread := hI.slots.thread t
  rw [ht] at hthread
  obtain ⟨hlock, hcl⟩ := hthread
  have hmine : (s.pc t).slot = some old := by rw [ht]; rfl
  have hnext : C.nextTicket s j.side old = s.tickets j.side := by
    rw [← hoff] at hwait ⊢
    exact hI.tickets.nextTicket_eq hwait
  have hlap : s.tickets j.side = C.lapTicket s old := by
    rw [← hnext, nextTicket, hcl, lapTicket]
  have hmod : s.tickets j.side % C.size = old := by rw [← hI.tickets.offset_eq, hoff]
  have htake := (s.draw C j).claimed_take j old (s.tickets j.side)
  constructor
  · -- the ticket is drawn by a thread that waits for the slot, and takes it
    have hdraw : C.TicketsOk ((s.draw C j).goto t (.check j old (s.tickets j.side))) :=
      hI.tickets.draw (by rw [ht]; rfl) rfl rfl (fun sd => s.tickets_draw C j sd) rfl
        (by rw [hoff]; rfl)
    exact hdraw.take (t := t) (j := j) (x := old) (k := s.tickets j.side)
      (p := j.begin old (s.tickets j.side)) (by simp [State.goto, PC.waits]) hnext
      (by simp [State.goto, State.take]) rfl (fun sd => by cases sd <;> rfl) htake
      (waits_begin ..)
  · refine hI.slots.change (x := old) rfl (fun y hy => ⟨rfl, rfl, fun sd => ?_⟩)
      (s.entered_draw C j) (fun u hu hslot => hu (hI.slots.excl u t old hslot hmine))
      (fun u hu hsums => ?_) ?_ ?_ (Or.inr (slot_begin ..))
    · refine (htake sd y).trans ?_
      rw [if_neg (fun h => hy h.2), Nat.add_zero]
      rfl
    · exfalso
      rcases lock_cases j.side with ⟨-, hlock', -⟩ | ⟨hside, -, -⟩
      · have hown := ((hI.slots.thread u).of_sums hsums).1
        rw [hlock, hlock'] at hown
        exact absurd hown (by decide)
      · exact hsum hside u hsums
    · have hst : C.status (((s.draw C j).take j old (s.tickets j.side)).goto t
          (j.begin old (s.tickets j.side))) old = j.side.lock := hlock
      rcases lock_cases j.side with ⟨hside, hlock', -⟩ | ⟨hside, hlock', -⟩
      · rw [hside] at htake hcl
        refine .filling (hst.trans hlock') ((htake .deq old).trans ?_) (Or.inr ?_)
        · rw [if_neg (by simp)]
          refine (hI.slots.slot old).deq_eq ?_
          rw [hlock, hlock']
          decide
        · refine (htake .enq old).trans ?_
          rw [if_pos ⟨rfl, rfl⟩]
          show s.claimed .enq old + 1 = s.released old + 1
          rw [hcl]
      · obtain ⟨henq, hin⟩ := (hI.slots.slot old).of_own (Or.inr (hlock.trans hlock'))
        rw [hside] at htake hcl
        refine .leaving (hst.trans hlock') ((htake .enq old).trans ?_) (Or.inr ?_)
          (hin.congr (.of_eq rfl) (s.entered_draw C j))
        · rw [if_neg (by simp)]
          exact henq
        · refine (htake .deq old).trans ?_
          rw [if_pos ⟨rfl, rfl⟩]
          show s.claimed .deq old + 1 = s.released old + 1
          rw [hcl]
    · refine threadOk_begin hlock ?_ hlap fun c hc => ?_
      · refine (htake j.side old).trans ?_
        rw [if_pos ⟨rfl, rfl⟩]
        show s.claimed j.side old + 1 = s.released old + 1
        rw [hcl]
      · subst hc
        show (s.entered ++ [c])[s.entered.length]? = some c
        simp
  · refine hI.out.take_job (u := s.draw C j) hmod hnext (fun hside => ?_) rfl (fun _ _ => rfl) rfl
      (s.entered_draw C j) t _
    rcases lock_cases j.side with ⟨h, -, -⟩ | ⟨-, hlock', -⟩
    · rw [h] at hside
      cases hside
    · rw [hlap]
      exact ((hI.slots.slot old).of_own (Or.inr (hlock.trans hlock'))).2

/-- The blocking code advances the offset. -/
theorem inv_loop (hI : C.Inv s) {t old : ℕ} {j : Job} (ht : s.pc t = .loop j old)
    (hoff : s.offset j.side = old) :
    C.Inv ((s.draw C j).goto t (.check j old (s.tickets j.side))) where
  tickets := hI.tickets.draw (by rw [ht]; rfl) rfl rfl (fun sd => s.tickets_draw C j sd) rfl
    (by rw [hoff]; rfl)
  slots := by
    refine hI.slots.goto rfl (fun _ => .of_eq rfl) rfl rfl (s.entered_draw C j) ?_ (Or.inl rfl)
    cases j with
    | enq c =>
        show (s.entered ++ [c])[s.entered.length]? = some c
        simp
    | deq => trivial
  out := hI.out.congr rfl (s.entered_draw C j) fun _ => rfl

/-- The blocking code takes its slot. -/
theorem inv_claim (hI : C.Inv s) {t old k : ℕ} {j : Job} (ht : s.pc t = .claim j old k)
    (hst : C.status s old = j.side.free)
    (hfirst : ∀ u k', (s.pc u).waits = some (j.side, old, k') → k ≤ k')
    (hsum : j.side = .deq → ∀ u, (s.pc u).sums ≠ some old) :
    C.Inv (((s.store old C.typeOffset j.side.lock).take j old k).goto t (j.begin old k)) := by
  have hwaits : (s.pc t).waits = some (j.side, old, k) := by rw [ht]; rfl
  have hmod := (hI.tickets.waiting t _ _ _ hwaits).1
  have hnext := hI.tickets.nextTicket_of_first hwaits hfirst
  obtain ⟨hdeq, hfree, hfull⟩ := hI.slots.claimed_of_free hst
  have hlap : k = C.lapTicket s old := by rw [← hnext, nextTicket, hfree, lapTicket]
  have htake := (s.store old C.typeOffset j.side.lock).claimed_take j old k
  constructor
  · exact hI.tickets.take hwaits hnext rfl rfl (fun sd => by cases sd <;> rfl) htake
      (waits_begin ..)
  · refine hI.slots.lock (m := 1) le_rfl hst rfl rfl rfl htake (fun _ _ h => h) (fun _ => hsum)
      (threadOk_begin ?_ ?_ hlap fun c hc => ?_) (Or.inr (slot_begin ..))
    · exact (status_store old _ old).trans (if_pos rfl)
    · refine (htake j.side old).trans ?_
      rw [if_pos ⟨rfl, rfl⟩]
      show s.claimed j.side old + 1 = s.released old + 1
      rw [hfree]
    · have hthread := hI.slots.thread t
      rw [ht, hc] at hthread
      exact hthread
  · refine hI.out.take_job (u := s.store old C.typeOffset j.side.lock) hmod hnext
      (fun hside => ?_) rfl (fun b hb => ?_) rfl (fun _ _ h => h) t _
    · rw [hlap]
      exact (hfull hside).2
    · rw [State.data_store, if_neg (fun h => hb.ne h.2)]

/-- One byte of an entry is copied. -/
theorem inv_copy (hI : C.Inv s) {t old k i : ℕ} {x : ℕ → UInt8} (ht : s.pc t = .copy x old k i)
    {p : PC} (hp : i + 1 < C.typeOffset ∧ p = .copy x old k (i + 1) ∨
      ¬ i + 1 < C.typeOffset ∧ p = .own old k) :
    C.Inv ((s.store old i (x i)).goto t p) := by
  have hthread := hI.slots.thread t
  rw [ht] at hthread
  obtain ⟨hst, hcl, hk, hent, hi, hbytes⟩ := hthread
  have hmine : (s.pc t).slot = some old := by rw [ht]; rfl
  have hst' : C.status ((s.store old i (x i)).goto t p) old = FLAG_INUSE := by
    rw [← hst]
    exact (s.data_store old i _ old C.typeOffset).trans (if_neg fun h => hi.ne h.2.symm)
  -- the bytes up to `i` are copied now
  have hbytes' : ∀ b < i + 1, C.checksum ≠ some b → (s.store old i (x i)).data old b = x b :=
    fun b hb hne => by
      rw [State.data_store]
      split_ifs with hbi
      · rw [hbi.2]
      · exact hbytes b (by have := fun h => hbi ⟨rfl, h⟩; omega) hne
  refine ⟨hI.tickets.congr rfl rfl rfl rfl rfl (by rw [ht]; rcases hp with ⟨-, rfl⟩ | ⟨-, rfl⟩ <;> rfl),
    ?_, hI.out.congr rfl (fun _ _ h => h) fun _ => rfl⟩
  refine hI.slots.change (x := old) rfl
    (fun y hy => ⟨Function.update_of_ne hy _ _, rfl, fun _ => rfl⟩) (fun _ _ h => h)
    (fun u hu hslot => hu (hI.slots.excl u t old hslot hmine)) (fun u hu hsums => ?_)
    (.filling hst' ((hI.slots.slot old).deq_eq (by rw [hst]; decide)) (Or.inr hcl)) ?_ ?_
  · have hown := ((hI.slots.thread u).of_sums hsums).1
    rw [hst] at hown
    exact absurd hown (by decide)
  · rcases hp with ⟨hlt, rfl⟩ | ⟨hge, rfl⟩
    · exact ⟨hst', hcl, hk, hent, hlt, hbytes'⟩
    · exact ⟨hst', hcl, hk, x, hent, fun b hb hne => hbytes' b (by omega) hne⟩
  · rcases hp with ⟨-, rfl⟩ | ⟨-, rfl⟩ <;> exact Or.inr rfl

/-- The entry is handed over to the dequeuers. -/
theorem inv_own (hI : C.Inv s) {t old k : ℕ} (ht : s.pc t = .own old k) {p : PC}
    (hp : p = .idle ∨ p = .sum old k 0 0) :
    C.Inv ((s.store old C.typeOffset FLAG_OWN).goto t p) := by
  have hthread := hI.slots.thread t
  rw [ht] at hthread
  obtain ⟨hst, hcl, hk, hin⟩ := hthread
  have hmine : (s.pc t).slot = some old := by rw [ht]; rfl
  have hst' : C.status ((s.store old C.typeOffset FLAG_OWN).goto t p) old = FLAG_OWN :=
    (status_store old _ old).trans (if_pos rfl)
  have hdeq := (hI.slots.slot old).deq_eq (by rw [hst]; decide)
  refine ⟨hI.tickets.congr rfl rfl rfl rfl rfl (by rw [ht]; rcases hp with rfl | rfl <;> rfl), ?_,
    hI.out.congr rfl (fun _ _ h => h) fun _ => rfl⟩
  refine hI.slots.change (x := old) rfl
    (fun y hy => ⟨Function.update_of_ne hy _ _, rfl, fun _ => rfl⟩) (fun _ _ h => h)
    (fun u hu hslot => hu (hI.slots.excl u t old hslot hmine)) (fun u hu hsums => ?_)
    (.full hst' hcl hdeq ?_) ?_ ?_
  · have hown := ((hI.slots.thread u).of_sums hsums).1
    rw [hst] at hown
    exact absurd hown (by decide)
  · rw [hk] at hin
    exact hin.store_status rfl fun _ _ h => h
  · rcases hp with rfl | rfl
    · trivial
    · exact ⟨Or.inl hst', hdeq⟩
  · rcases hp with rfl | rfl <;> exact Or.inl rfl

/-- A checksum is stored or cleared. -/
theorem inv_store_checksum (hI : C.Inv s) {t old n : ℕ} (hn : C.checksum = some n) (v : UInt8)
    {p : PC} (hwaits : p.waits = (s.pc t).waits) (hp : C.ThreadOk s p)
    (hslot : p.slot = none ∨ p.slot = (s.pc t).slot) : C.Inv ((s.store old n v).goto t p) := by
  have hsame : ∀ x, C.Same s ((s.store old n v).goto t p) x := fun x => by
    refine ⟨(s.data_store old n v x C.typeOffset).trans (if_neg fun h => ?_), fun b hb hne =>
      (s.data_store old n v x b).trans (if_neg fun h => hne (by rw [hn, h.2]))⟩
    exact C.checksum_ne (by rw [hn, h.2])
  exact
    { tickets := hI.tickets.congr rfl rfl rfl rfl rfl hwaits
      slots := hI.slots.goto rfl hsame rfl rfl (fun _ _ h => h)
        (hp.congr (fun x _ => ⟨hsame x, rfl, fun _ => rfl⟩) fun _ _ h => h) hslot
      out := hI.out.congr rfl (fun _ _ h => h) fun _ => rfl }

/-- An entry is released. -/
theorem inv_clear (hI : C.Inv s) {t old k : ℕ} (ht : s.pc t = .clear old k) :
    C.Inv ((({ s with released := Function.update s.released old (s.released old + 1) } :
      State).store old C.typeOffset 0).goto t .idle) := by
  have hthread := hI.slots.thread t
  rw [ht] at hthread
  obtain ⟨hst, hcl, -⟩ := hthread
  have hmine : (s.pc t).slot = some old := by rw [ht]; rfl
  refine ⟨hI.tickets.congr rfl rfl rfl rfl rfl (by rw [ht]; rfl), ?_,
    hI.out.congr rfl (fun _ _ h => h) fun _ => rfl⟩
  refine hI.slots.change (x := old) (p := .idle) rfl
    (fun y hy => ⟨Function.update_of_ne hy _ _, Function.update_of_ne hy _ _, fun _ => rfl⟩)
    (fun _ _ h => h) (fun u hu hslot => hu (hI.slots.excl u t old hslot hmine))
    (fun u hu hsums => ?_) ?_ trivial (Or.inl rfl)
  · have hdeq := ((hI.slots.thread u).of_sums hsums).2
    omega
  · have hrel : Function.update s.released old (s.released old + 1) old = s.released old + 1 :=
      Function.update_self ..
    refine .empty ((status_store old _ old).trans (if_pos rfl)) ?_ ?_
    · exact (((hI.slots.slot old).of_own (Or.inr hst)).1).trans hrel.symm
    · exact hcl.trans hrel.symm

end Config
end Custom
end Floem
