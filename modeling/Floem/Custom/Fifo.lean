import Floem.Custom.Steps

/-!
# The generated queue is first-in, first-out

* `InTurn` — the condition on a step: a slot is taken by the thread that waits for it
  with the earliest ticket, and no entry is dequeued whose checksum is still to be
  stored.
* `inv_exec`, `inv_step` — a step in turn keeps the invariant.
* `Correct` — what a queue with many enqueuers and many dequeuers promises.
* `fifo_in_turn` — **the main theorem**: the promise holds after every run whose steps
  are all in turn.
* `undisturbed_inTurn`, `nonblocking_inTurn` — without a checksum all steps are in turn
  if there are no blocking calls, or those of one thread whose slots nobody else takes.
* `fifo_overtaken`, `sum_after_dequeue` — runs that break the promise.
-/

namespace Floem
namespace Custom

open Lib Queue

/-- The slot a thread copies into, or holds until it is released. -/
def PC.busy : PC → Option ℕ
  | .copy _ old _ _ => some old
  | .own old _ => some old
  | .hold old _ => some old
  | .clearSum old _ => some old
  | .clear old _ => some old
  | _ => none

namespace Config

variable {C : Config} {s s' : State}

/-! ## Steps in turn -/

/-- Nobody waits for slot `x` with a ticket before `k`, and a dequeuer that takes it
finds its checksum stored. -/
def First (s : State) (sd : Side) (x k : ℕ) : Prop :=
  (∀ u k', (s.pc u).waits = some (sd, x, k') → k ≤ k') ∧
    (sd = .deq → ∀ u, (s.pc u).sums ≠ some x)

/-- The compare-and-swap that takes a slot — of the offset in the non-blocking code, of
the status in the blocking code — is done only by the thread whose turn it is. -/
def InTurn (C : Config) (s : State) : Action → Prop
  | .step t =>
      match s.pc t with
      | .advance j old => s.offset j.side = old → First s j.side old (s.tickets j.side)
      | .claim j old k => C.status s old = j.side.free → First s j.side old k
      | _ => True
  | _ => True

/-! ## The invariant along a run -/

theorem inv_create : C.Inv create where
  tickets :=
    { offset_eq := fun sd => by cases sd <;> simp [create, State.tickets]
      issued := fun sd x hx => by simpa [create, nextTicket] using Nat.lt_add_left _ hx
      waiting := fun t sd x k h => by cases h
      waiting_inj := fun t u w h => by cases h
      waited := fun sd x k _ _ h => by cases sd <;> simp [create, State.tickets] at h }
  slots :=
    { slot := fun x => .empty rfl rfl rfl
      thread := fun t => trivial
      excl := fun t u x h => by cases h }
  out :=
    { taken := fun k => by simpa [create, nextTicket] using Nat.mod_le k C.size
      content := fun p hp => by simp [create] at hp
      nodup := by simp [create] }

/-- **One instruction.** -/
theorem inv_exec (hI : C.Inv s) {t : ℕ} (hturn : C.InTurn s (.step t))
    (h : C.exec s t = some s') : C.Inv s' := by
  have hthread := hI.slots.thread t
  unfold exec at h
  unfold InTurn at hturn
  cases hpc : s.pc t with
  | idle => simp [hpc] at h
  | hold old k => simp [hpc] at h
  | read j blocking =>
      have hgo (p : PC) (hw : p.waits = none) (hs : p.slot = none) (hp : C.ThreadOk s p) :
          C.Inv (s.goto t p) := inv_goto hI (by rw [hpc, hw]; rfl) hp (Or.inl hs)
      cases blocking
      · obtain rfl : _ = s' := by simpa [hpc] using h
        exact hgo _ rfl rfl trivial
      · obtain rfl : _ = s' := by simpa [hpc] using h
        exact hgo _ rfl rfl trivial
  | tryLock j old =>
      simp only [hpc] at h
      split at h <;> obtain rfl := Option.some.inj h
      · exact inv_tryLock hI hpc ‹_›
      · exact inv_goto hI (by rw [hpc]; rfl) trivial (Or.inl rfl)
  | advance j old =>
      simp only [hpc] at h hturn
      split at h <;> obtain rfl := Option.some.inj h
      · next hoff =>
          obtain ⟨hfirst, hsum⟩ := hturn hoff
          refine inv_advance hI hpc hoff (fun u k hu => ?_) hsum
          exact absurd (hI.tickets.waiting u _ _ _ hu).2.2 (not_lt.2 (hfirst u k hu))
      · rw [hpc] at hthread
        exact inv_goto hI (by rw [hpc]; rfl) hthread (Or.inr (by rw [hpc]; rfl))
  | undo j old =>
      obtain rfl : _ = s' := by simpa [hpc] using h
      exact inv_undo hI hpc
  | loop j old =>
      simp only [hpc] at h
      split at h <;> obtain rfl := Option.some.inj h
      · exact inv_loop hI hpc ‹_›
      · exact inv_goto hI (by rw [hpc]; rfl) trivial (Or.inl rfl)
  | check j old k =>
      rw [hpc] at hthread
      simp only [hpc] at h
      split at h <;> obtain rfl := Option.some.inj h
      · exact inv_goto hI (by rw [hpc]; rfl) (by cases j <;> exact hthread) (Or.inl rfl)
      · exact inv_goto hI (by rw [hpc]) hthread (Or.inl rfl)
  | claim j old k =>
      rw [hpc] at hthread
      simp only [hpc] at h hturn
      split at h <;> obtain rfl := Option.some.inj h
      · next hst =>
          obtain ⟨hfirst, hsum⟩ := hturn hst
          exact inv_claim hI hpc hst hfirst hsum
      · exact inv_goto hI (by rw [hpc]; rfl) (by cases j <;> exact hthread) (Or.inl rfl)
  | copy x old k i =>
      simp only [hpc] at h
      split at h <;> obtain rfl := Option.some.inj h
      · exact inv_copy hI hpc (Or.inl ⟨‹_›, rfl⟩)
      · exact inv_copy hI hpc (Or.inr ⟨‹_›, rfl⟩)
  | own old k =>
      simp only [hpc] at h
      split at h <;> obtain rfl := Option.some.inj h
      · exact inv_own hI hpc (Or.inl rfl)
      · exact inv_own hI hpc (Or.inr rfl)
  | sum old k i acc =>
      rw [hpc] at hthread
      simp only [hpc] at h
      split at h
      · cases h
      · next n hn =>
          split at h <;> obtain rfl := Option.some.inj h
          · exact inv_goto hI (by rw [hpc]; rfl) hthread (Or.inl rfl)
          · exact inv_store_checksum hI hn acc (by rw [hpc]; rfl) trivial (Or.inl rfl)
  | clearSum old k =>
      rw [hpc] at hthread
      simp only [hpc] at h
      split at h
      · cases h
      · next n hn =>
          obtain rfl := Option.some.inj h
          exact inv_store_checksum hI hn 0 (by rw [hpc]; rfl) hthread (Or.inr (by rw [hpc]; rfl))
  | clear old k =>
      obtain rfl : _ = s' := by simpa [hpc] using h
      exact inv_clear hI hpc

/-- An entry changes hands. -/
theorem inv_give (hI : C.Inv s) {t u old k : ℕ} (ht : s.pc t = .hold old k)
    (hu : s.pc u = .idle) : C.Inv ((s.goto t .idle).goto u (.hold old k)) := by
  have hthread := hI.slots.thread t
  rw [ht] at hthread
  obtain ⟨hst, hcl, hk⟩ := hthread
  have hmine : (s.pc t).slot = some old := by rw [ht]; rfl
  have hidle : C.Inv (s.goto t .idle) :=
    inv_goto hI (by rw [ht]; rfl) trivial (Or.inl rfl)
  have hpcu : (s.goto t .idle).pc u = .idle := by
    by_cases h : u = t
    · subst h; simp [State.goto]
    · simp [State.goto, h, hu]
  refine ⟨hidle.tickets.congr rfl rfl rfl rfl rfl (by rw [hpcu]; rfl), ?_,
    hidle.out.congr rfl (fun _ _ h => h) fun _ => rfl⟩
  refine hidle.slots.change (x := old) (p := .hold old k) rfl (fun y _ => ⟨rfl, rfl, fun _ => rfl⟩)
    (fun _ _ h => h) (fun w _ hw => ?_) (fun w _ hw => ?_) ((hI.slots.slot old).congr (.of_eq rfl)
      rfl (fun _ => rfl) fun _ _ h => h) ⟨hst, hcl, hk⟩ (Or.inr rfl)
  · by_cases hwt : w = t
    · subst hwt
      simp [State.goto, PC.slot] at hw
    · simp only [State.goto, Function.update_of_ne hwt] at hw
      exact hwt (hI.slots.excl w t old hw hmine)
  · have hdeq := ((hidle.slots.thread w).of_sums hw).2
    have hcl' : (s.goto t .idle).claimed .deq old = (s.goto t .idle).released old + 1 := hcl
    omega

/-- **One step.** -/
theorem inv_step (a : Action) (hI : C.Inv s) (hturn : C.InTurn s a)
    (h : C.step s a = some s') : C.Inv s' := by
  cases a with
  | start t j blocking =>
      simp only [step] at h
      split at h
      · next hpc =>
          obtain rfl := Option.some.inj h
          exact inv_goto hI (by rw [hpc]; rfl) trivial (Or.inl rfl)
      · cases h
  | step t => exact inv_exec hI hturn h
  | release t =>
      have hthread := hI.slots.thread t
      simp only [step] at h
      split at h
      · next hpc _ =>
          obtain rfl := Option.some.inj h
          rw [hpc] at hthread
          exact inv_goto hI (by rw [hpc]; rfl) hthread (Or.inr (by rw [hpc]; rfl))
      · next hpc _ =>
          obtain rfl := Option.some.inj h
          rw [hpc] at hthread
          exact inv_goto hI (by rw [hpc]; rfl) hthread (Or.inr (by rw [hpc]; rfl))
      · cases h
  | give t u =>
      simp only [step] at h
      split at h
      · next ht hu =>
          obtain rfl := Option.some.inj h
          exact inv_give hI ht hu
      · cases h

/-! ## What the queue promises -/

/-- The promise of a queue with many enqueuers and many dequeuers. -/
structure Correct (C : Config) (s : State) : Prop where
  /-- No entry is dequeued twice. -/
  once : (s.out.map Prod.fst).Nodup
  /-- The thread that advanced the dequeue offset as the `k`-th dequeues the entry whose
  enqueuer advanced the enqueue offset as the `k`-th, as it was copied. -/
  content : ∀ k d, (k, d) ∈ s.out → ∃ c, s.entered[k]? = some c ∧
    ∀ b < C.typeOffset, C.checksum ≠ some b → d b = c b
  /-- It waits for that entry as long as it does not have it. -/
  order : ∀ k < s.left, k ∈ s.out.map Prod.fst ∨
    ∃ t, (s.pc t).waits = some (.deq, k % C.size, k)
  /-- An entry in the ring is not overwritten. -/
  kept : ∀ x, C.status s x = FLAG_OWN ∨ C.status s x = FLAG_OWN ||| FLAG_INUSE →
    C.Intact s x (C.lapTicket s x)
  /-- A dequeued entry stays as it is until it is released. -/
  held : ∀ t x k, s.pc t = .hold x k → k = C.lapTicket s x ∧ C.Intact s x k
  /-- A slot is taken by an enqueuer, then by a dequeuer, and then released. -/
  laps : ∀ x, s.released x ≤ s.claimed .deq x ∧ s.claimed .deq x ≤ s.claimed .enq x ∧
    s.claimed .enq x ≤ s.released x + 1
  /-- No thread writes a slot another one copies into or holds. -/
  exclusive : ∀ t u x s', u ≠ t → (s.pc u).busy = some x → C.exec s t = some s' →
    s'.data x = s.data x

theorem ThreadOk.of_busy {p : PC} (h : C.ThreadOk s p) {x : ℕ} (hx : p.busy = some x) :
    p.slot = some x ∧ (C.status s x = FLAG_INUSE ∨ s.claimed .deq x = s.released x + 1) := by
  cases p with
  | copy y old k i => obtain rfl := Option.some.inj hx; exact ⟨rfl, Or.inl h.1⟩
  | own old k => obtain rfl := Option.some.inj hx; exact ⟨rfl, Or.inl h.1⟩
  | hold old k => obtain rfl := Option.some.inj hx; exact ⟨rfl, Or.inr h.2.1⟩
  | clearSum old k => obtain rfl := Option.some.inj hx; exact ⟨rfl, Or.inr h.2.1⟩
  | clear old k => obtain rfl := Option.some.inj hx; exact ⟨rfl, Or.inr h.2.1⟩
  | _ => cases hx

/-- Where a thread may write: in the slot it has locked, in one nobody has locked, and
the checksum of an entry that is not dequeued. -/
theorem exec_data {t : ℕ} (h : C.exec s t = some s') : s'.data = s.data ∨
    ∃ x i v, s'.data = (s.store x i v).data ∧ ((s.pc t).slot = some x ∨
      (s.pc t).sums = some x ∨ ∃ sd : Side, C.status s x = sd.free) := by
  unfold exec at h
  cases hpc : s.pc t with
  | idle => simp [hpc] at h
  | hold old k => simp [hpc] at h
  | read j blocking =>
      cases blocking <;> simp only [hpc] at h <;> obtain rfl := Option.some.inj h <;> exact Or.inl rfl
  | tryLock j old =>
      simp only [hpc] at h
      split at h <;> obtain rfl := Option.some.inj h
      · exact Or.inr ⟨old, _, _, rfl, Or.inr (Or.inr ⟨j.side, ‹_›⟩)⟩
      · exact Or.inl rfl
  | advance j old =>
      simp only [hpc] at h
      split at h <;> obtain rfl := Option.some.inj h <;> exact Or.inl rfl
  | undo j old =>
      obtain rfl : _ = s' := by simpa [hpc] using h
      exact Or.inr ⟨old, _, _, rfl, Or.inl rfl⟩
  | loop j old =>
      simp only [hpc] at h
      split at h <;> obtain rfl := Option.some.inj h <;> exact Or.inl rfl
  | check j old k =>
      simp only [hpc] at h
      split at h <;> obtain rfl := Option.some.inj h <;> exact Or.inl rfl
  | claim j old k =>
      simp only [hpc] at h
      split at h <;> obtain rfl := Option.some.inj h
      · exact Or.inr ⟨old, _, _, rfl, Or.inr (Or.inr ⟨j.side, ‹_›⟩)⟩
      · exact Or.inl rfl
  | copy x old k i =>
      simp only [hpc] at h
      split at h <;> obtain rfl := Option.some.inj h <;> exact Or.inr ⟨old, _, _, rfl, Or.inl rfl⟩
  | own old k =>
      simp only [hpc] at h
      split at h <;> obtain rfl := Option.some.inj h <;> exact Or.inr ⟨old, _, _, rfl, Or.inl rfl⟩
  | sum old k i acc =>
      simp only [hpc] at h
      split at h
      · cases h
      · split at h <;> obtain rfl := Option.some.inj h
        · exact Or.inl rfl
        · exact Or.inr ⟨old, _, _, rfl, Or.inr (Or.inl rfl)⟩
  | clearSum old k =>
      simp only [hpc] at h
      split at h
      · cases h
      · obtain rfl := Option.some.inj h
        exact Or.inr ⟨old, _, _, rfl, Or.inl rfl⟩
  | clear old k =>
      obtain rfl : _ = s' := by simpa [hpc] using h
      exact Or.inr ⟨old, _, _, rfl, Or.inl rfl⟩

/-- **No thread writes a slot another one copies into or holds.** -/
theorem Inv.exclusive (hI : C.Inv s) {t u x : ℕ} (hut : u ≠ t) (hu : (s.pc u).busy = some x)
    (h : C.exec s t = some s') : s'.data x = s.data x := by
  obtain ⟨hslot, hbusy⟩ := (hI.slots.thread u).of_busy hu
  rcases exec_data h with heq | ⟨y, i, v, heq, hy⟩
  · rw [heq]
  · rw [heq]
    refine Function.update_of_ne (fun hxy => ?_) _ _
    subst hxy
    rcases hy with hy | hy | ⟨sd, hfree⟩
    · exact hut (hI.slots.excl u t x hslot hy)
    · obtain ⟨hown, hdeq⟩ := (hI.slots.thread t).of_sums hy
      rcases hbusy with hst | hcl
      · rw [hst] at hown
        exact absurd hown (by decide)
      · omega
    · exact hI.slots.not_locked hfree u hslot

/-- **The invariant is what the promise rests on.** -/
theorem Inv.correct (hI : C.Inv s) : C.Correct s where
  once := hI.out.nodup
  content k d hp := hI.out.content (k, d) hp
  order k hk := by
    rcases Nat.lt_or_ge k (C.nextTicket s .deq (k % C.size)) with hlt | hge
    · exact Or.inl ((hI.out.taken k).2 hlt)
    · exact Or.inr (hI.tickets.waited .deq _ k rfl hge hk)
  kept x hst := ((hI.slots.slot x).of_own hst).2
  held t x k ht := by
    have hthread := hI.slots.thread t
    rw [ht] at hthread
    obtain ⟨hst, -, hk⟩ := hthread
    refine ⟨hk, ?_⟩
    rw [hk]
    exact ((hI.slots.slot x).of_own (Or.inr hst)).2
  laps x := (hI.slots.slot x).counts
  exclusive _ _ _ _ hut hu h := hI.exclusive hut hu h

/-- **First-in, first-out.**  In every run whose steps are in turn, of any number of
threads on a ring of any size, the queue keeps its promise. -/
theorem fifo_in_turn (C : Config) (as : List Action) (s : State)
    (hturn : Meets C.step C.InTurn create as) (hrun : run C.step create as = some s) :
    C.Correct s :=
  (run_invariant_of_meets (P := C.Inv) (fun _ a _ hI hc h => inv_step a hI hc h) inv_create
    hturn hrun).correct

/-! ## A queue on which every step is in turn -/

/-- A thread neither waits for a slot nor stores a checksum, and is in no call that may. -/
def Plain : PC → Prop
  | .read _ blocking => blocking = false
  | .loop _ _ => False
  | .check _ _ _ => False
  | .claim _ _ _ => False
  | .sum _ _ _ _ => False
  | _ => True

theorem Plain.waits_none {p : PC} (h : Plain p) : p.waits = none := by
  cases p <;> first | rfl | exact h.elim

/-- No thread stores a checksum, and the threads other than `w` are in no call that waits. -/
def PlainBut (w : Option ℕ) (s : State) : Prop :=
  ∀ u, (s.pc u).sums = none ∧ (w ≠ some u → Plain (s.pc u))

theorem PlainBut.goto {w : Option ℕ} {t : ℕ} {p : PC} (hpc : PlainBut w s)
    (h : s'.pc = Function.update s.pc t p) (hsums : p.sums = none) (hp : w ≠ some t → Plain p) :
    PlainBut w s' := by
  intro u
  rw [h]
  by_cases hut : u = t
  · subst hut
    rw [Function.update_self]
    exact ⟨hsums, hp⟩
  · rw [Function.update_of_ne hut]
    exact hpc u

/-- An instruction moves its thread only, and does not make it wait if it is in no call that
may. -/
theorem exec_pc (hsum : C.checksum = none) {t : ℕ} (h : C.exec s t = some s') :
    ∃ p, s'.pc = Function.update s.pc t p ∧ p.sums = none ∧ (Plain (s.pc t) → Plain p) := by
  unfold exec at h
  cases hpct : s.pc t with
  | idle => simp [hpct] at h
  | hold old k => simp [hpct] at h
  | read j blocking =>
      simp only [hpct] at h
      split at h <;> obtain rfl := Option.some.inj h
      · next hb => exact ⟨_, rfl, rfl, fun ht => absurd (hb.symm.trans ht) (by decide)⟩
      · exact ⟨_, rfl, rfl, fun _ => trivial⟩
  | tryLock j old =>
      simp only [hpct] at h
      split at h <;> obtain rfl := Option.some.inj h <;> exact ⟨_, rfl, rfl, fun _ => trivial⟩
  | advance j old =>
      simp only [hpct] at h
      split at h <;> obtain rfl := Option.some.inj h
      · exact ⟨_, rfl, by cases j <;> rfl, fun _ => by cases j <;> trivial⟩
      · exact ⟨_, rfl, rfl, fun _ => trivial⟩
  | loop j old =>
      simp only [hpct] at h
      split at h <;> obtain rfl := Option.some.inj h <;> exact ⟨_, rfl, rfl, fun ht => ht.elim⟩
  | check j old k =>
      simp only [hpct] at h
      split at h <;> obtain rfl := Option.some.inj h <;> exact ⟨_, rfl, rfl, fun ht => ht.elim⟩
  | claim j old k =>
      simp only [hpct] at h
      split at h <;> obtain rfl := Option.some.inj h
      · exact ⟨_, rfl, by cases j <;> rfl, fun ht => ht.elim⟩
      · exact ⟨_, rfl, rfl, fun ht => ht.elim⟩
  | copy x old k i =>
      simp only [hpct] at h
      split at h <;> obtain rfl := Option.some.inj h <;> exact ⟨_, rfl, rfl, fun _ => trivial⟩
  | undo j old =>
      simp only [hpct] at h
      obtain rfl := Option.some.inj h
      exact ⟨_, rfl, rfl, fun _ => trivial⟩
  | clear old k =>
      simp only [hpct] at h
      obtain rfl := Option.some.inj h
      exact ⟨_, rfl, rfl, fun _ => trivial⟩
  | own old k =>
      simp only [hpct, hsum] at h
      obtain rfl := Option.some.inj h
      exact ⟨_, rfl, rfl, fun _ => trivial⟩
  | clearSum old k => simp [hpct, hsum] at h
  | sum old k i acc => simp [hpct, hsum] at h

/-- The call is not a blocking one, or one of thread `w`. -/
def NonblockingBut (w : Option ℕ) : Action → Prop
  | .start t _ blocking => w = some t ∨ blocking = false
  | _ => True

theorem plainBut_step (hsum : C.checksum = none) {w : Option ℕ} (a : Action)
    (ha : NonblockingBut w a) (hpc : PlainBut w s) (h : C.step s a = some s') : PlainBut w s' := by
  cases a with
  | start t j blocking =>
      simp only [step] at h
      split at h
      · obtain rfl := Option.some.inj h
        exact hpc.goto rfl rfl fun hne => ha.resolve_left hne
      · cases h
  | step t =>
      obtain ⟨p, hp, hsums, hplain⟩ := exec_pc hsum h
      exact hpc.goto hp hsums fun hne => hplain ((hpc t).2 hne)
  | release t =>
      simp only [step, hsum] at h
      split at h
      · next hn => cases hn
      · obtain rfl := Option.some.inj h
        exact hpc.goto rfl rfl fun _ => trivial
      · cases h
  | give t u =>
      simp only [step] at h
      split at h
      · obtain rfl := Option.some.inj h
        exact PlainBut.goto (s := s.goto t .idle) (hpc.goto rfl rfl fun _ => trivial) rfl rfl
          fun _ => trivial
      · cases h

/-- No other thread takes the slot thread `w` waits for. -/
def Undisturbed (w : Option ℕ) (s : State) : Action → Bool
  | .step t =>
      match s.pc t with
      | .advance j old => w.all fun u => t = u ∨
          (s.pc u).waits.all fun x => ¬ (x.1 = j.side ∧ x.2.1 = old)
      | _ => true
  | _ => true

/-- Where only thread `w` may wait, a step is in turn if it does not take the slot that thread
waits for. -/
theorem inTurn_of_undisturbed {w : Option ℕ} (hpc : PlainBut w s) {a : Action}
    (ha : Undisturbed w s a = true) : C.InTurn s a := by
  have hfirst : ∀ sd x k, (∀ u k', w = some u → (s.pc u).waits = some (sd, x, k') → k ≤ k') →
      First s sd x k := by
    intro sd x k hk
    refine ⟨fun u k' hu => ?_, fun _ u hu => ?_⟩
    · by_cases hwu : w = some u
      · exact hk u k' hwu hu
      · rw [((hpc u).2 hwu).waits_none] at hu
        cases hu
    · rw [(hpc u).1] at hu
      cases hu
  cases a with
  | step t =>
      simp only [InTurn]
      split
      · next j old hpct =>
          refine fun _ => hfirst _ _ _ fun u k' hwu hu => ?_
          simp only [Undisturbed, hpct, hwu, Option.all_some, decide_eq_true_eq] at ha
          rcases ha with rfl | ha
          · rw [hpct] at hu
            cases hu
          · simp [hu] at ha
      · next j old k hpct =>
          refine fun _ => hfirst _ _ _ fun u k' hwu hu => ?_
          by_cases hut : u = t
          · rw [hut, hpct] at hu
            cases hu
            exact le_rfl
          · -- a thread that claims a slot waits for it, and only one may
            have hplain := (hpc t).2 fun h => hut (Option.some.inj (hwu.symm.trans h))
            rw [hpct] at hplain
            exact hplain.elim
      · trivial
  | _ => trivial

/-- **With blocking calls of one thread at most and without a checksum every step is in
turn**, as long as no other thread takes the slot that one waits for. -/
theorem undisturbed_inTurn (hsum : C.checksum = none) {w : Option ℕ} (as : List Action)
    (has : ∀ a ∈ as, NonblockingBut w a) (hpc : PlainBut w s)
    (h : Meets C.step (fun s a => Undisturbed w s a = true) s as) : Meets C.step C.InTurn s as := by
  induction as generalizing s with
  | nil => trivial
  | cons a as ih =>
      refine ⟨inTurn_of_undisturbed hpc h.1, fun u hu => ?_⟩
      exact ih (fun b hb => has b (List.mem_cons_of_mem _ hb))
        (plainBut_step hsum a (has a List.mem_cons_self) hpc hu) (h.2 u hu)

/-- **Without blocking calls and without a checksum every step is in turn**, so that the
queue keeps its promise in every interleaving. -/
theorem nonblocking_inTurn (hsum : C.checksum = none) (as : List Action)
    (has : ∀ a ∈ as, NonblockingBut none a) (hpc : PlainBut none s) :
    Meets C.step C.InTurn s as := by
  refine undisturbed_inTurn hsum as has hpc (Meets.of_forall (fun s a => ?_) s as)
  cases a with
  | step t =>
      rw [Undisturbed]
      split <;> rfl
  | _ => rfl

/-- A ring of two slots with entries of one byte. -/
def twoSlots : Config where
  size := 2
  typeOffset := 1
  checksum := none
  size_pos := by decide
  typeOffset_pos := by decide
  checksum_ne := by decide

/-- Thread `0` makes blocking calls.  Its second one waits for slot `0`, which thread `2`
dequeues and releases meanwhile; between the two, thread `1` enqueues without waiting. -/
def waitsOnce : List Action :=
  [.start 0 (.enq fun _ => 10) true, .step 0, .step 0, .start 1 (.enq fun _ => 11) false, .step 0,
    .step 0, .step 1, .step 1, .step 1, .step 0, .step 0, .step 1, .step 1,
    .start 0 (.enq fun _ => 12) true, .step 0, .step 0, .step 0, .start 2 .deq false, .step 2,
    .step 2, .step 2, .step 0, .release 2, .step 2, .step 0, .step 0, .step 0, .step 0,
    .start 2 .deq false, .step 2, .step 2, .step 2]

/-- The entry of the call that waited gets its ticket before it gets its slot. -/
theorem fifo_in_turn_twoSlots :
    ∃ s, run twoSlots.step create waitsOnce = some s ∧
      s.entered.map (· 0) = [10, 11, 12] ∧
      s.out.map (fun p => (p.1, p.2 0)) = [(0, 10), (1, 11)] ∧ twoSlots.Correct s := by
  obtain ⟨s, hs, hobs⟩ := Option.map_eq_some_iff.1 (show (run twoSlots.step create waitsOnce).map
        (fun s => (s.entered.map (· 0), s.out.map fun p => (p.1, p.2 0)))
          = some ([10, 11, 12], [(0, 10), (1, 11)]) by decide +kernel)
  obtain ⟨hent, hout⟩ := Prod.mk.inj hobs
  refine ⟨s, hs, hent, hout, fifo_in_turn twoSlots _ s (undisturbed_inTurn (w := some 0) rfl _
    ?_ (fun _ => ⟨rfl, fun _ => trivial⟩) (Meets.of_meets (fun _ _ h => h) ?_)) hs⟩
  · simp [waitsOnce, NonblockingBut]
  · decide +kernel

/-! ## Steps out of turn -/

/-- A ring of one slot with entries of one byte. -/
def oneSlot : Config where
  size := 1
  typeOffset := 1
  checksum := none
  size_pos := by decide
  typeOffset_pos := by decide
  checksum_ne := by decide

/-- **A blocked enqueuer can be overtaken.**  Two enqueuers wait for one slot, and the
second takes it; the first dequeuer then gets the second entry. -/
theorem fifo_overtaken :
    ∃ s, run oneSlot.step create
      [.start 0 (.enq fun _ => 10) true, .start 1 (.enq fun _ => 11) true, .step 0, .step 0,
        .step 1, .step 1, .step 1, .step 1, .step 1, .step 1, .start 2 .deq false, .step 2,
        .step 2, .step 2] = some s ∧
      s.entered.map (· 0) = [10, 11] ∧ s.out.map (fun p => (p.1, p.2 0)) = [(0, 11)] ∧
      ¬ oneSlot.Correct s := by
  obtain ⟨s, hs, hobs⟩ := Option.map_eq_some_iff.1 (show (run oneSlot.step create
    [.start 0 (.enq fun _ => 10) true, .start 1 (.enq fun _ => 11) true, .step 0, .step 0,
      .step 1, .step 1, .step 1, .step 1, .step 1, .step 1, .start 2 .deq false, .step 2,
      .step 2, .step 2]).map
        (fun s => (s.entered.map (· 0), s.out.map fun p => (p.1, p.2 0)))
          = some ([10, 11], [(0, 11)]) by decide +kernel)
  obtain ⟨hent, hout⟩ := Prod.mk.inj hobs
  refine ⟨s, hs, hent, hout, fun hcorrect => ?_⟩
  obtain ⟨⟨k, d⟩, hp, heq⟩ : ∃ p ∈ s.out, (p.1, p.2 0) = (0, 11) := by
    rw [← List.mem_map, hout]
    exact List.mem_singleton.2 rfl
  obtain ⟨rfl, hd⟩ := Prod.mk.inj heq
  obtain ⟨c, hc, hbytes⟩ := hcorrect.content 0 d hp
  have hfirst : (s.entered.map (· 0))[0]? = some (c 0) := by rw [List.getElem?_map, hc]; rfl
  rw [hent] at hfirst
  have h10 : 10 = c 0 := Option.some.inj hfirst
  have h11 : d 0 = c 0 := hbytes 0 (by decide) (by decide)
  have : (11 : UInt8) = 10 := hd.symm.trans (h11.trans h10.symm)
  exact absurd this (by decide)

/-- A ring of one slot with entries of two bytes, the second of which is the checksum. -/
def summed : Config where
  size := 1
  typeOffset := 2
  checksum := some 1
  size_pos := by decide
  typeOffset_pos := by decide
  checksum_ne := by decide

/-- **A checksum can be stored late.**  The entry is handed over before its checksum is
stored; the store then changes an entry that a dequeuer holds. -/
theorem sum_after_dequeue :
    ∃ s, run summed.step create
      [.start 0 (.enq fun i => if i = 0 then 10 else 0) false, .step 0, .step 0, .step 0, .step 0,
        .step 0, .step 0, .step 0, .start 1 .deq false, .step 1, .step 1, .step 1] = some s ∧
      (s.pc 1).busy = some 0 ∧
      ∃ s', summed.exec s 0 = some s' ∧ s.data 0 1 = 0 ∧ s'.data 0 1 = 10 := by
  obtain ⟨s, hs, hobs⟩ := Option.map_eq_some_iff.1 (show (run summed.step create
    [.start 0 (.enq fun i => if i = 0 then 10 else 0) false, .step 0, .step 0, .step 0, .step 0,
      .step 0, .step 0, .step 0, .start 1 .deq false, .step 1, .step 1, .step 1]).map
        (fun s => ((s.pc 1).busy, s.data 0 1, (summed.exec s 0).map fun s' => s'.data 0 1))
          = some (some 0, 0, some 10) by decide +kernel)
  obtain ⟨hbusy, hrest⟩ := Prod.mk.inj hobs
  obtain ⟨hold, hnew⟩ := Prod.mk.inj hrest
  obtain ⟨s', hs', hdata⟩ := Option.map_eq_some_iff.1 hnew
  exact ⟨s, hs, hbusy, s', hs', hold, hdata⟩

end Config
end Custom
end Floem
