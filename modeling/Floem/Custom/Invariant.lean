import Floem.Custom.Code

/-!
# The invariant of a queue with a status field

* `TicketsOk` — the threads that drew a ticket and wait for their slot: each slot is
  still to be taken with exactly the tickets drawn for it from `nextTicket` on.
* `SlotsOk` — what the status of a slot says about it, and what each thread knows about
  the slot it has locked; no two threads have locked one slot.
* `OutOk` — what was dequeued is what was enqueued with the same ticket.

For each of the three there are rules for the steps of a thread, by what they change;
`Floem.Custom.Steps` applies them to the instructions.
-/

namespace Floem
namespace Custom

open Lib Queue

/-! ## Where threads are -/

/-- The side, slot and ticket of a thread that waits for its slot. -/
def PC.waits : PC → Option (Side × ℕ × ℕ)
  | .check j old k => some (j.side, old, k)
  | .claim j old k => some (j.side, old, k)
  | _ => none

/-- The slot a thread has locked. -/
def PC.slot : PC → Option ℕ
  | .advance _ old => some old
  | .undo _ old => some old
  | .copy _ old _ _ => some old
  | .own old _ => some old
  | .hold old _ => some old
  | .clearSum old _ => some old
  | .clear old _ => some old
  | _ => none

/-- The slot for which a thread is still to store the checksum. -/
def PC.sums : PC → Option ℕ
  | .sum old _ _ _ => some old
  | _ => none

namespace Config

variable (C : Config)

/-- The ticket with which slot `x` is to be taken next. -/
def nextTicket (s : State) (sd : Side) (x : ℕ) : ℕ := x + C.size * s.claimed sd x

/-- Slot `x` holds the entry with ticket `k`. -/
def Intact (s : State) (x k : ℕ) : Prop :=
  ∃ c, s.entered[k]? = some c ∧
    ∀ b < C.typeOffset, C.checksum ≠ some b → s.data x b = c b

/-- The ticket of the lap slot `x` is in. -/
def lapTicket (s : State) (x : ℕ) : ℕ := x + C.size * s.released x

/-- What the status of a slot says. -/
inductive SlotOk (s : State) (x : ℕ) : Prop
  | empty (hst : C.status s x = 0) (henq : s.claimed .enq x = s.released x)
      (hdeq : s.claimed .deq x = s.released x)
  | filling (hst : C.status s x = FLAG_INUSE) (hdeq : s.claimed .deq x = s.released x)
      (henq : s.claimed .enq x = s.released x ∨ s.claimed .enq x = s.released x + 1)
  | full (hst : C.status s x = FLAG_OWN) (henq : s.claimed .enq x = s.released x + 1)
      (hdeq : s.claimed .deq x = s.released x) (hin : C.Intact s x (C.lapTicket s x))
  | leaving (hst : C.status s x = FLAG_OWN ||| FLAG_INUSE)
      (henq : s.claimed .enq x = s.released x + 1)
      (hdeq : s.claimed .deq x = s.released x ∨ s.claimed .deq x = s.released x + 1)
      (hin : C.Intact s x (C.lapTicket s x))

/-- What a thread knows. -/
def ThreadOk (s : State) : PC → Prop
  | .advance j old => C.status s old = j.side.lock ∧ s.claimed j.side old = s.released old
  | .undo j old => C.status s old = j.side.lock ∧ s.claimed j.side old = s.released old
  | .check (.enq x) _ k => s.entered[k]? = some x
  | .claim (.enq x) _ k => s.entered[k]? = some x
  | .copy x old k i => C.status s old = FLAG_INUSE ∧ s.claimed .enq old = s.released old + 1 ∧
      k = C.lapTicket s old ∧ s.entered[k]? = some x ∧ i < C.typeOffset ∧
      ∀ b < i, C.checksum ≠ some b → s.data old b = x b
  | .own old k => C.status s old = FLAG_INUSE ∧ s.claimed .enq old = s.released old + 1 ∧
      k = C.lapTicket s old ∧ C.Intact s old k
  | .sum old _ _ _ => (C.status s old = FLAG_OWN ∨ C.status s old = FLAG_OWN ||| FLAG_INUSE) ∧
      s.claimed .deq old = s.released old
  | .hold old k => C.status s old = FLAG_OWN ||| FLAG_INUSE ∧
      s.claimed .deq old = s.released old + 1 ∧ k = C.lapTicket s old
  | .clearSum old k => C.status s old = FLAG_OWN ||| FLAG_INUSE ∧
      s.claimed .deq old = s.released old + 1 ∧ k = C.lapTicket s old
  | .clear old k => C.status s old = FLAG_OWN ||| FLAG_INUSE ∧
      s.claimed .deq old = s.released old + 1 ∧ k = C.lapTicket s old
  | _ => True

/-- Offsets, tickets and waiting threads. -/
structure TicketsOk (s : State) : Prop where
  offset_eq : ∀ sd, s.offset sd = s.tickets sd % C.size
  issued : ∀ sd, ∀ x < C.size, C.nextTicket s sd x < s.tickets sd + C.size
  waiting : ∀ t sd x k, (s.pc t).waits = some (sd, x, k) →
    k % C.size = x ∧ C.nextTicket s sd x ≤ k ∧ k < s.tickets sd
  waiting_inj : ∀ t u w, (s.pc t).waits = some w → (s.pc u).waits = some w → t = u
  waited : ∀ sd x k, k % C.size = x → C.nextTicket s sd x ≤ k → k < s.tickets sd →
    ∃ t, (s.pc t).waits = some (sd, x, k)

/-- Slots and the threads that have locked them. -/
structure SlotsOk (s : State) : Prop where
  slot : ∀ x, C.SlotOk s x
  thread : ∀ t, C.ThreadOk s (s.pc t)
  excl : ∀ t u x, (s.pc t).slot = some x → (s.pc u).slot = some x → t = u

/-- What was dequeued. -/
structure OutOk (s : State) : Prop where
  taken : ∀ k, k ∈ s.out.map Prod.fst ↔ k < C.nextTicket s .deq (k % C.size)
  content : ∀ p ∈ s.out, ∃ c, s.entered[p.1]? = some c ∧
    ∀ b < C.typeOffset, C.checksum ≠ some b → p.2 b = c b
  nodup : (s.out.map Prod.fst).Nodup

/-- The invariant. -/
structure Inv (s : State) : Prop where
  tickets : C.TicketsOk s
  slots : C.SlotsOk s
  out : C.OutOk s

variable {C} {s s' : State}

/-! ## Reading the invariant -/

/-- A locked slot has the status of a lock. -/
theorem ThreadOk.status_of_slot {p : PC} (h : C.ThreadOk s p) {x : ℕ} (hx : p.slot = some x) :
    C.status s x = FLAG_INUSE ∨ C.status s x = FLAG_OWN ||| FLAG_INUSE := by
  cases p with
  | advance j old =>
      obtain rfl := Option.some.inj hx
      cases j
      · exact Or.inl h.1
      · exact Or.inr h.1
  | undo j old =>
      obtain rfl := Option.some.inj hx
      cases j
      · exact Or.inl h.1
      · exact Or.inr h.1
  | copy x old k i => obtain rfl := Option.some.inj hx; exact Or.inl h.1
  | own old k => obtain rfl := Option.some.inj hx; exact Or.inl h.1
  | hold old k => obtain rfl := Option.some.inj hx; exact Or.inr h.1
  | clearSum old k => obtain rfl := Option.some.inj hx; exact Or.inr h.1
  | clear old k => obtain rfl := Option.some.inj hx; exact Or.inr h.1
  | _ => cases hx

/-- A slot whose checksum is still to be stored has its entry, which is not dequeued. -/
theorem ThreadOk.of_sums {p : PC} (h : C.ThreadOk s p) {x : ℕ} (hx : p.sums = some x) :
    (C.status s x = FLAG_OWN ∨ C.status s x = FLAG_OWN ||| FLAG_INUSE) ∧
      s.claimed .deq x = s.released x := by
  cases p with
  | sum old k i acc => obtain rfl := Option.some.inj hx; exact h
  | _ => cases hx

/-- A slot that no dequeuer has locked was taken by as many dequeuers as released it. -/
theorem SlotOk.deq_eq {x : ℕ} (h : C.SlotOk s x) (hst : C.status s x ≠ FLAG_OWN ||| FLAG_INUSE) :
    s.claimed .deq x = s.released x := by
  cases h with
  | empty h1 h2 h3 => exact h3
  | filling h1 h2 h3 => exact h2
  | full h1 h2 h3 h4 => exact h3
  | leaving h1 h2 h3 h4 => exact absurd h1 hst

/-- A slot that can be taken is locked by nobody. -/
theorem SlotsOk.not_locked (h : C.SlotsOk s) {sd : Side} {x : ℕ} (hst : C.status s x = sd.free)
    (u : ℕ) : (s.pc u).slot ≠ some x := fun hu => by
  have hlock := (h.thread u).status_of_slot hu
  rw [hst] at hlock
  cases sd <;> revert hlock <;> decide

/-- A slot that can be taken. -/
theorem SlotsOk.claimed_of_free (h : C.SlotsOk s) {sd : Side} {x : ℕ}
    (hst : C.status s x = sd.free) : s.claimed .deq x = s.released x ∧
      s.claimed sd x = s.released x ∧
      (sd = .deq → s.claimed .enq x = s.released x + 1 ∧ C.Intact s x (C.lapTicket s x)) := by
  cases h.slot x with
  | empty hst' henq hdeq =>
      rw [hst] at hst'
      cases sd
      · exact ⟨hdeq, henq, fun h => by cases h⟩
      · exact absurd hst' (by decide)
  | filling hst' hdeq henq => rw [hst] at hst'; cases sd <;> exact absurd hst' (by decide)
  | full hst' henq hdeq hin =>
      rw [hst] at hst'
      cases sd
      · exact absurd hst' (by decide)
      · exact ⟨hdeq, hdeq, fun _ => ⟨henq, hin⟩⟩
  | leaving hst' henq hdeq hin => rw [hst] at hst'; cases sd <;> exact absurd hst' (by decide)

/-- A slot whose status says that it has an entry has the entry of its lap. -/
theorem SlotOk.of_own (h : C.SlotOk s x)
    (hst : C.status s x = FLAG_OWN ∨ C.status s x = FLAG_OWN ||| FLAG_INUSE) :
    s.claimed .enq x = s.released x + 1 ∧ C.Intact s x (C.lapTicket s x) := by
  cases h with
  | empty hst' henq hdeq => rw [hst'] at hst; exact absurd hst (by decide)
  | filling hst' hdeq henq => rw [hst'] at hst; exact absurd hst (by decide)
  | full hst' henq hdeq hin => exact ⟨henq, hin⟩
  | leaving hst' henq hdeq hin => exact ⟨henq, hin⟩

/-- A slot is taken by a dequeuer only after an enqueuer took it, and again by an
enqueuer only after it was released. -/
theorem SlotOk.counts {x : ℕ} (h : C.SlotOk s x) : s.released x ≤ s.claimed .deq x ∧
    s.claimed .deq x ≤ s.claimed .enq x ∧ s.claimed .enq x ≤ s.released x + 1 := by
  cases h <;> omega

/-! ## Steps that change no slot -/

variable (C) in
/-- The status and the copied bytes of slot `x` stay the same. -/
def Same (s s' : State) (x : ℕ) : Prop :=
  C.status s' x = C.status s x ∧
    ∀ b < C.typeOffset, C.checksum ≠ some b → s'.data x b = s.data x b

theorem Same.of_eq {x : ℕ} (h : s'.data x = s.data x) : C.Same s s' x :=
  ⟨by rw [status, h, status], fun b _ _ => by rw [h]⟩

theorem Intact.congr {x k : ℕ} (h : C.Intact s x k) (hdata : C.Same s s' x)
    (hent : ∀ (k : ℕ) (c : ℕ → UInt8), s.entered[k]? = some c → s'.entered[k]? = some c) :
    C.Intact s' x k := by
  obtain ⟨c, hc, hb⟩ := h
  exact ⟨c, hent _ _ hc, fun b hlt hne => (hdata.2 b hlt hne).trans (hb b hlt hne)⟩

/-- Nothing is known about a slot but its status, its copied bytes, its counters and its
entry. -/
theorem SlotOk.congr {x : ℕ} (h : C.SlotOk s x) (hdata : C.Same s s' x)
    (hrel : s'.released x = s.released x) (hcl : ∀ sd, s'.claimed sd x = s.claimed sd x)
    (hent : ∀ (k : ℕ) (c : ℕ → UInt8), s.entered[k]? = some c → s'.entered[k]? = some c) :
    C.SlotOk s' x := by
  have hin : C.Intact s x (C.lapTicket s x) → C.Intact s' x (C.lapTicket s' x) := fun h => by
    rw [lapTicket, hrel]
    exact h.congr hdata hent
  have hst := hdata.1
  cases h with
  | empty h1 h2 h3 => exact .empty (by rw [hst, h1]) (by rw [hcl, hrel, h2]) (by rw [hcl, hrel, h3])
  | filling h1 h2 h3 =>
      exact .filling (by rw [hst, h1]) (by rw [hcl, hrel, h2]) (by rw [hcl, hrel]; exact h3)
  | full h1 h2 h3 h4 =>
      exact .full (by rw [hst, h1]) (by rw [hcl, hrel, h2]) (by rw [hcl, hrel, h3]) (hin h4)
  | leaving h1 h2 h3 h4 =>
      exact .leaving (by rw [hst, h1]) (by rw [hcl, hrel, h2]) (by rw [hcl, hrel]; exact h3) (hin h4)

/-- What a thread knows is about the slot it has locked or sums. -/
theorem ThreadOk.congr {p : PC} (h : C.ThreadOk s p)
    (hslot : ∀ x, p.slot = some x ∨ p.sums = some x → C.Same s s' x ∧
      s'.released x = s.released x ∧ ∀ sd, s'.claimed sd x = s.claimed sd x)
    (hent : ∀ (k : ℕ) (c : ℕ → UInt8), s.entered[k]? = some c → s'.entered[k]? = some c) :
    C.ThreadOk s' p := by
  cases p with
  | advance j old =>
      obtain ⟨⟨hst, -⟩, hrel, hcl⟩ := hslot old (Or.inl rfl)
      simpa only [ThreadOk, hst, hrel, hcl] using h
  | undo j old =>
      obtain ⟨⟨hst, -⟩, hrel, hcl⟩ := hslot old (Or.inl rfl)
      simpa only [ThreadOk, hst, hrel, hcl] using h
  | check j old k =>
      cases j with
      | enq x => exact hent _ _ h
      | deq => trivial
  | claim j old k =>
      cases j with
      | enq x => exact hent _ _ h
      | deq => trivial
  | copy x old k i =>
      obtain ⟨⟨hst, hdata⟩, hrel, hcl⟩ := hslot old (Or.inl rfl)
      obtain ⟨h1, h2, h3, h4, h5, h6⟩ := h
      exact ⟨by rw [hst]; exact h1, by rw [hcl, hrel]; exact h2, by rw [lapTicket, hrel]; exact h3,
        hent _ _ h4, h5, fun b hb hne => (hdata b (hb.trans h5) hne).trans (h6 b hb hne)⟩
  | own old k =>
      obtain ⟨hdata, hrel, hcl⟩ := hslot old (Or.inl rfl)
      obtain ⟨h1, h2, h3, h4⟩ := h
      exact ⟨by rw [hdata.1]; exact h1, by rw [hcl, hrel]; exact h2,
        by rw [lapTicket, hrel]; exact h3, h4.congr hdata hent⟩
  | sum old k i acc =>
      obtain ⟨⟨hst, -⟩, hrel, hcl⟩ := hslot old (Or.inr rfl)
      simpa only [ThreadOk, hst, hrel, hcl] using h
  | hold old k =>
      obtain ⟨⟨hst, -⟩, hrel, hcl⟩ := hslot old (Or.inl rfl)
      simpa only [ThreadOk, lapTicket, hst, hrel, hcl] using h
  | clearSum old k =>
      obtain ⟨⟨hst, -⟩, hrel, hcl⟩ := hslot old (Or.inl rfl)
      simpa only [ThreadOk, lapTicket, hst, hrel, hcl] using h
  | clear old k =>
      obtain ⟨⟨hst, -⟩, hrel, hcl⟩ := hslot old (Or.inl rfl)
      simpa only [ThreadOk, lapTicket, hst, hrel, hcl] using h
  | _ => trivial

/-- A thread goes on and changes no slot but for a checksum; it may only lose its
lock. -/
theorem SlotsOk.goto (h : C.SlotsOk s) {t : ℕ} {p : PC} (hpc : s'.pc = Function.update s.pc t p)
    (hdata : ∀ x, C.Same s s' x) (hrel : s'.released = s.released) (hcl : s'.claimed = s.claimed)
    (hent : ∀ (k : ℕ) (c : ℕ → UInt8), s.entered[k]? = some c → s'.entered[k]? = some c)
    (hp : C.ThreadOk s' p) (hslot : p.slot = none ∨ p.slot = (s.pc t).slot) : C.SlotsOk s' where
  slot x := (h.slot x).congr (hdata x) (by rw [hrel]) (fun sd => by rw [hcl]) hent
  thread u := by
    rw [hpc]
    by_cases hu : u = t
    · subst hu
      rw [Function.update_self]
      exact hp
    · rw [Function.update_of_ne hu]
      exact (h.thread u).congr (fun x _ => ⟨hdata x, by rw [hrel], fun sd => by rw [hcl]⟩) hent
  excl u v x hu hv := by
    -- whoever has a lock now had it before
    have hold : ∀ w, (s'.pc w).slot = some x → (s.pc w).slot = some x := fun w hw => by
      rw [hpc] at hw
      by_cases hwt : w = t
      · subst hwt
        rw [Function.update_self] at hw
        rcases hslot with hp | hp
        · rw [hp] at hw; cases hw
        · rw [← hp]; exact hw
      · rwa [Function.update_of_ne hwt] at hw
    exact h.excl u v x (hold u hu) (hold v hv)

/-! ## Steps that change one slot -/

/-- A thread goes on and changes slot `x`, which no other thread has locked. -/
theorem SlotsOk.change (h : C.SlotsOk s) {t x : ℕ} {p : PC}
    (hpc : s'.pc = Function.update s.pc t p)
    (honly : ∀ y, y ≠ x → s'.data y = s.data y ∧ s'.released y = s.released y ∧
      ∀ sd, s'.claimed sd y = s.claimed sd y)
    (hent : ∀ (k : ℕ) (c : ℕ → UInt8),
      s.entered[k]? = some c → s'.entered[k]? = some c)
    (hfree : ∀ u, u ≠ t → (s.pc u).slot ≠ some x)
    (hsum : ∀ u, u ≠ t → (s.pc u).sums = some x →
      (C.status s' x = FLAG_OWN ∨ C.status s' x = FLAG_OWN ||| FLAG_INUSE) ∧
        s'.claimed .deq x = s'.released x)
    (hx : C.SlotOk s' x) (hp : C.ThreadOk s' p) (hslot : p.slot = none ∨ p.slot = some x) :
    C.SlotsOk s' where
  slot y := by
    by_cases hy : y = x
    · subst hy; exact hx
    · obtain ⟨h1, h2, h3⟩ := honly y hy
      exact (h.slot y).congr (.of_eq h1) h2 h3 hent
  thread u := by
    rw [hpc]
    by_cases hu : u = t
    · subst hu
      rw [Function.update_self]
      exact hp
    · rw [Function.update_of_ne hu]
      by_cases hux : (s.pc u).sums = some x
      · -- only the checksum is still to be stored
        have hs := hsum u hu hux
        cases hpu : s.pc u with
        | sum old k i acc => rw [hpu] at hux; obtain rfl := Option.some.inj hux; exact hs
        | _ => rw [hpu] at hux; cases hux
      · refine (h.thread u).congr (fun y hy => ?_) hent
        obtain ⟨h1, h2, h3⟩ := honly y fun hyx => by
          subst hyx
          exact hy.elim (hfree u hu) hux
        exact ⟨.of_eq h1, h2, h3⟩
  excl u v y hu hv := by
    have hback : ∀ w, (s'.pc w).slot = some y → w = t ∧ y = x ∨ w ≠ t ∧ (s.pc w).slot = some y :=
      fun w hw => by
        rw [hpc] at hw
        by_cases hwt : w = t
        · subst hwt
          rw [Function.update_self] at hw
          rcases hslot with hp | hp
          · rw [hp] at hw; cases hw
          · rw [hp] at hw; exact Or.inl ⟨rfl, (Option.some.inj hw).symm⟩
        · rw [Function.update_of_ne hwt] at hw
          exact Or.inr ⟨hwt, hw⟩
    rcases hback u hu with ⟨rfl, rfl⟩ | ⟨hut, hu'⟩
    · rcases hback v hv with ⟨rfl, -⟩ | ⟨hvt, hv'⟩
      · rfl
      · exact absurd hv' (hfree v hvt)
    · rcases hback v hv with ⟨rfl, rfl⟩ | ⟨hvt, hv'⟩
      · exact absurd hu' (hfree u hut)
      · exact h.excl u v y hu' hv'

/-! ## Tickets -/

/-- A step that draws no ticket and takes no slot, of a thread that goes on waiting or
does not wait. -/
theorem TicketsOk.congr (h : C.TicketsOk s) {t : ℕ} {p : PC}
    (hpc : s'.pc = Function.update s.pc t p) (hoffset : s'.offset = s.offset)
    (hent : s'.entered = s.entered) (hleft : s'.left = s.left) (hcl : s'.claimed = s.claimed)
    (hp : p.waits = (s.pc t).waits) : C.TicketsOk s' := by
  have htickets : ∀ sd, s'.tickets sd = s.tickets sd := fun sd => by
    cases sd
    · rw [State.tickets, hent, State.tickets]
    · rw [State.tickets, hleft, State.tickets]
  have hnext : ∀ sd x, C.nextTicket s' sd x = C.nextTicket s sd x := fun sd x => by
    rw [nextTicket, hcl, nextTicket]
  have hwaits : ∀ u, (s'.pc u).waits = (s.pc u).waits := fun u => by
    rw [hpc]
    by_cases hu : u = t
    · subst hu; rw [Function.update_self, hp]
    · rw [Function.update_of_ne hu]
  exact
    { offset_eq := fun sd => by rw [hoffset, htickets]; exact h.offset_eq sd
      issued := fun sd x hx => by rw [hnext, htickets]; exact h.issued sd x hx
      waiting := fun u sd x k hu => by
        rw [hwaits] at hu
        rw [hnext, htickets]
        exact h.waiting u sd x k hu
      waiting_inj := fun u v w hu hv => by
        rw [hwaits] at hu hv
        exact h.waiting_inj u v w hu hv
      waited := fun sd x k hk hlo hhi => by
        rw [hnext] at hlo
        rw [htickets] at hhi
        obtain ⟨u, hu⟩ := h.waited sd x k hk hlo hhi
        exact ⟨u, by rw [hwaits]; exact hu⟩ }

theorem offset_lt (h : C.TicketsOk s) (sd : Side) : s.offset sd < C.size := by
  rw [h.offset_eq]
  exact Nat.mod_lt _ C.size_pos

/-- The slot of the offset is to be taken with the next ticket, if nobody waits for
it. -/
theorem TicketsOk.nextTicket_eq (h : C.TicketsOk s) {sd : Side}
    (hno : ∀ t k, (s.pc t).waits ≠ some (sd, s.offset sd, k)) :
    C.nextTicket s sd (s.offset sd) = s.tickets sd := by
  have hmod : C.nextTicket s sd (s.offset sd) % C.size = s.tickets sd % C.size := by
    rw [nextTicket, Nat.add_mul_mod_self_left, h.offset_eq, Nat.mod_mod]
  have hlt := h.issued sd _ (offset_lt h sd)
  rcases Nat.lt_or_ge (C.nextTicket s sd (s.offset sd)) (s.tickets sd) with hless | hge
  · -- otherwise somebody waits for it with a ticket drawn before
    exfalso
    obtain ⟨t, ht⟩ := h.waited sd (s.offset sd) _ (by rw [hmod, h.offset_eq]) le_rfl hless
    exact hno t _ ht
  · exact (eq_of_mod_eq_of_window hmod.symm hge hlt).symm

/-- The slot of a waiting thread is to be taken with its ticket, if nobody waits for it
with an earlier one. -/
theorem TicketsOk.nextTicket_of_first (h : C.TicketsOk s) {t x k : ℕ} {sd : Side}
    (ht : (s.pc t).waits = some (sd, x, k))
    (hfirst : ∀ u k', (s.pc u).waits = some (sd, x, k') → k ≤ k') : C.nextTicket s sd x = k := by
  obtain ⟨hmod, hle, hlt⟩ := h.waiting t sd x k ht
  have hx : x < C.size := by rw [← hmod]; exact Nat.mod_lt _ C.size_pos
  have hnext : C.nextTicket s sd x % C.size = x := by
    rw [nextTicket, Nat.add_mul_mod_self_left, Nat.mod_eq_of_lt hx]
  obtain ⟨u, hu⟩ := h.waited sd x _ hnext le_rfl (hle.trans_lt hlt)
  exact le_antisymm hle (hfirst u _ hu)

end Config
end Custom
end Floem
