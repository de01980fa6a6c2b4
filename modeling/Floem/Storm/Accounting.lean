import Floem.Storm.Dccp

/-!
# What the sender accounts for

* `Accounted` — `pipe` is the number of packets in flight, `lastack` the last one that was
  acknowledged, and the window was not halved.
* `Orderly` — the condition on a step: no timeout, and fewer than `2 ^ 23` packets in flight.
* `Inv` — what every orderly run keeps.
* `accounted_iff` — the first acknowledgement is not accounted for, and nothing else goes wrong.
-/

namespace Floem
namespace Storm

open Lib

/-! ## The statement -/

/-- **The sender's account is right.** -/
structure Accounted (n : Net) : Prop where
  pipe : n.conn.pipe = n.sent - n.acked
  lastack : n.acked ≠ 0 → n.conn.lastack ≡ n.acked - 1 [ZMOD 2 ^ 24]
  window : n.shrunk = false

/-- No timeout, and not too many packets in flight. -/
def Orderly (n : Net) : Action → Prop
  | .check timeout => timeout = false
  | .send => n.sent + 1 < n.acked + 2 ^ 23
  | _ => True

instance (n : Net) (a : Action) : Decidable (Orderly n a) := by
  cases a <;> unfold Orderly <;> infer_instance

/-! ## The invariant -/

/-- The header of the packet with this number. -/
def headerOf (k : ℕ) : Header := ⟨k / 2 ^ 16 % 2 ^ 8, htons (k % 2 ^ 16)⟩

/-- Its acknowledgement. -/
def ackOf (k : ℕ) : ℕ := htonl (k % 2 ^ 24)

theorem seqTime_header (c : Connection) {k : ℕ} (h : c.seq = i32 k) :
    (seqTime c).2 = headerOf k := by
  have hseq : u32 c.seq = k % 2 ^ 32 := by
    rw [h, u32_i32, u32]
    omega
  have hlow : k % 2 ^ 32 &&& 0xffff = k % 2 ^ 16 := by
    rw [show (0xffff : ℕ) = 2 ^ 16 - 1 from rfl, Nat.and_two_pow_sub_one_eq_mod,
      Nat.mod_mod_of_dvd k (show 2 ^ 16 ∣ 2 ^ 32 from Nat.pow_dvd_pow 2 (by decide))]
  have hhigh : k % 2 ^ 32 / 2 ^ 16 % 2 ^ 8 = k / 2 ^ 16 % 2 ^ 8 := by omega
  rw [seqTime, headerOf, hseq, hlow, Nat.shiftRight_eq_div_pow, hhigh]

theorem seqTime_eq {c : Connection} {k : ℕ} (h : c.seq = i32 k) : seqTime c =
    ({ c with seq := i32 ((k + 1 : ℕ) : ℤ), pipe := i32 (c.pipe + 1) }, headerOf k) := by
  refine Prod.ext ?_ (seqTime_header c h)
  rw [seqTime, h, i32_add_one]
  simp

theorem sendAck_headerOf (k : ℕ) : sendAck (headerOf k) = ackOf k := by
  have hlow : ntohs (htons (k % 2 ^ 16)) = k % 2 ^ 16 := ntohs_htons (Nat.mod_lt _ (by decide))
  have hjoin : k / 2 ^ 16 % 2 ^ 8 * 2 ^ 16 + k % 2 ^ 16 = k % 2 ^ 24 := by omega
  rw [sendAck, headerOf, hlow, ← Nat.shiftLeft_add_eq_or_of_lt (Nat.mod_lt _ (by decide)),
    Nat.shiftLeft_eq, hjoin, ackOf]

/-- What is on its way: the packets and the acknowledgements from one number to another. -/
structure Inv (n : Net) : Prop where
  received : n.received ≤ n.sent
  acked : n.acked ≤ n.received
  flight : n.sent < n.acked + 2 ^ 23
  seq : n.conn.seq = i32 n.sent
  packets : n.packets = (List.range' n.received (n.sent - n.received)).map headerOf
  acknowledgements : n.acknowledgements =
    (List.range' n.acked (n.received - n.acked)).map ackOf
  pipe : n.conn.pipe = n.sent - n.acked + if n.acked = 0 then 0 else 1
  lastack : n.conn.lastack = if n.acked = 0 then 0 else ((n.acked : ℤ) - 1) % 2 ^ 24
  shrunk : n.shrunk = false

theorem i32_of_small {x : ℤ} (h : -2 ^ 31 ≤ x) (h' : x < 2 ^ 31) : i32 x = x :=
  Int.bmod_eq_of_le h h'

theorem inv_start (cwnd : ℤ) : Inv (start cwnd) where
  received := Nat.le_refl 0
  acked := Nat.le_refl 0
  flight := by simp [start]
  seq := by
    rw [i32_of_small] <;> simp [start]
  packets := rfl
  acknowledgements := rfl
  pipe := rfl
  lastack := rfl
  shrunk := rfl

/-- **An acknowledgement.**  From the second one on, the packet is taken off `pipe`. -/
theorem recvAck_ackOf {n : Net} (h : Inv n) (hmore : n.acked < n.received) :
    ∃ cwnd, recvAck n.conn (ackOf n.acked) = some
      (⟨cwnd, n.sent - n.acked, n.conn.seq, (n.acked : ℤ) % 2 ^ 24, n.conn.acks + 1⟩, false) := by
  have hack : ntohl (ackOf n.acked) = n.acked % 2 ^ 24 := ntohl_htonl (by omega)
  have hlt : n.acked % 2 ^ 24 < 2 ^ 24 := Nat.mod_lt _ (by decide)
  have hcast : ((n.acked % 2 ^ 24 : ℕ) : ℤ) = (n.acked : ℤ) % 2 ^ 24 := by omega
  have hpipe := h.pipe
  have hlastack := h.lastack
  have hflight := h.flight
  have hsent := h.received
  simp only [recvAck, hack, hlt, guard_true, hcast, Option.bind_eq_bind]
  by_cases hfirst : n.acked = 0
  · -- the number of the first packet is what `lastack` begins with
    have hzero : (n.acked : ℤ) % 2 ^ 24 = 0 := by omega
    rw [if_pos hfirst] at hpipe hlastack
    have hlast : wraparound n.conn 0 = 0 := by simp [wraparound, hlastack]
    refine ⟨i32 (n.conn.cwnd + 1), ?_⟩
    rw [hzero, hlast, hpipe]
    simp
  · rw [if_neg hfirst] at hpipe hlastack
    -- the number that was expected, also behind the wrap
    have hlast : wraparound n.conn ((n.acked : ℤ) % 2 ^ 24) = (n.acked : ℤ) % 2 ^ 24 - 1 := by
      rw [wraparound, hlastack, hpipe]
      split_ifs <;> omega
    have htaken : i32 (n.conn.pipe - 1) = n.sent - n.acked := by
      rw [hpipe, i32_of_small] <;> omega
    refine ⟨i32 (n.conn.cwnd + 1), ?_⟩
    rw [hlast]
    simp only [sub_lt_self_iff, zero_lt_one, if_true, sub_sub_cancel, htaken, sub_add_cancel,
      gt_iff_lt, lt_self_iff_false, decide_false, Bool.false_eq_true, if_false, Option.pure_def,
      Option.bind_some, Option.some.injEq, Prod.mk.injEq, and_true]
    congr 1
    · omega
    · omega

theorem range'_split {a b : ℕ} (h : a < b) :
    List.range' a (b - a) = a :: List.range' (a + 1) (b - (a + 1)) := by
  obtain ⟨m, rfl⟩ := Nat.exists_eq_add_of_lt h
  rw [show a + m + 1 - a = m + 1 by omega, show a + m + 1 - (a + 1) = m by omega,
    List.range'_succ]

theorem range'_snoc {a b : ℕ} (h : a ≤ b) :
    List.range' a (b + 1 - a) = List.range' a (b - a) ++ [b] := by
  rw [show b + 1 - a = b - a + 1 by omega, List.range'_concat]
  congr 2
  omega

theorem inv_step {n t : Net} {a : Action} (h : Inv n) (ha : Orderly n a)
    (hstep : step n a = some t) : Inv t := by
  cases a with
  | check timeout =>
      obtain rfl : timeout = false := ha
      obtain rfl := Option.some.inj hstep
      exact ⟨h.received, h.acked, h.flight, h.seq, h.packets, h.acknowledgements, h.pipe,
        h.lastack, h.shrunk⟩
  | send =>
      have hroom : n.sent + 1 < n.acked + 2 ^ 23 := ha
      have hreceived := h.received
      have hacked := h.acked
      rw [step, seqTime_eq h.seq] at hstep
      simp only at hstep
      split at hstep
      · cases hstep
      obtain rfl := Option.some.inj hstep
      refine ⟨Nat.le_succ_of_le hreceived, hacked, hroom, ?_, ?_, h.acknowledgements, ?_,
        h.lastack, h.shrunk⟩
      · simp
      · simp only [h.packets, range'_snoc hreceived, List.map_append]
        rfl
      · have hpipe := h.pipe
        simp only [Nat.cast_add, Nat.cast_one]
        rw [hpipe, i32_of_small] <;> split_ifs <;> omega
  | receive =>
      rw [step] at hstep
      cases hpackets : n.packets with
      | nil =>
          rw [hpackets] at hstep
          cases hstep
      | cons header packets =>
          rw [hpackets] at hstep
          obtain rfl := Option.some.inj hstep
          have hmore : n.received < n.sent := by
            by_contra hno
            have hnil := h.packets
            rw [show n.sent - n.received = 0 by omega, hpackets] at hnil
            cases hnil
          have hsplit := h.packets
          rw [hpackets, range'_split hmore, List.map_cons, List.cons.injEq] at hsplit
          obtain ⟨rfl, hrest⟩ := hsplit
          refine ⟨hmore, Nat.le_succ_of_le h.acked, h.flight, h.seq, hrest, ?_, h.pipe, h.lastack,
            h.shrunk⟩
          simp only [h.acknowledgements, range'_snoc h.acked, List.map_append, sendAck_headerOf]
          rfl
  | acknowledge =>
      rw [step] at hstep
      cases hacks : n.acknowledgements with
      | nil =>
          rw [hacks] at hstep
          cases hstep
      | cons ack acknowledgements =>
          have hmore : n.acked < n.received := by
            by_contra hno
            have hnil := h.acknowledgements
            rw [show n.received - n.acked = 0 by omega, hacks] at hnil
            cases hnil
          have hsplit := h.acknowledgements
          rw [hacks, range'_split hmore, List.map_cons, List.cons.injEq] at hsplit
          obtain ⟨rfl, hrest⟩ := hsplit
          obtain ⟨cwnd, hrecv⟩ := recvAck_ackOf h hmore
          rw [hacks] at hstep
          simp only [hrecv, Option.bind_eq_bind, Option.bind_some] at hstep
          obtain rfl := Option.some.inj hstep
          have hflight := h.flight
          refine ⟨h.received, hmore, by simp only; omega, h.seq, h.packets, hrest, ?_, ?_, ?_⟩
          · simp only [Nat.add_eq_zero_iff, one_ne_zero, and_false, if_false, Nat.cast_add,
              Nat.cast_one]
            omega
          · simp
          · simp [h.shrunk]

/-- In every orderly run, an acknowledged packet stays in `pipe`; `lastack` and the window are
as they should be. -/
theorem account_of_run {cwnd : ℤ} {as : List Action} {n : Net}
    (hrun : run step (start cwnd) as = some n) (horder : Meets step Orderly (start cwnd) as) :
    n.conn.pipe = n.sent - n.acked + (if n.acked = 0 then 0 else 1) ∧
      (n.acked ≠ 0 → n.conn.lastack ≡ n.acked - 1 [ZMOD 2 ^ 24]) ∧ n.shrunk = false := by
  have hinv : Inv n := run_invariant_of_meets (fun _ _ _ h hC => inv_step h hC) (inv_start cwnd)
    horder hrun
  refine ⟨hinv.pipe, fun hfirst => ?_, hinv.shrunk⟩
  rw [hinv.lastack, if_neg hfirst]
  exact Int.mod_modEq _ _

/-- **The main theorem.**  In every orderly run everything is accounted for but the first
packet: its acknowledgement leaves it in `pipe` for ever. -/
theorem accounted_iff (cwnd : ℤ) (as : List Action) (n : Net)
    (hrun : run step (start cwnd) as = some n) (horder : Meets step Orderly (start cwnd) as) :
    (Accounted n ↔ n.acked = 0) ∧
      (n.acked ≠ 0 → n.conn.pipe = n.sent - n.acked + 1) ∧
      (n.acked ≠ 0 → n.conn.lastack ≡ n.acked - 1 [ZMOD 2 ^ 24]) ∧ n.shrunk = false := by
  obtain ⟨hpipe, hlastack, hshrunk⟩ := account_of_run hrun horder
  refine ⟨⟨fun h => ?_, fun hfirst => ?_⟩, fun hfirst => ?_, hlastack, hshrunk⟩
  · by_contra hfirst
    rw [if_neg hfirst, h.pipe] at hpipe
    omega
  · refine ⟨?_, fun hno => absurd hfirst hno, hshrunk⟩
    rw [hpipe, if_pos hfirst, add_zero]
  · rw [hpipe, if_neg hfirst]

/-- Three packets are sent; two of them are acknowledged before the third is received. -/
def threePackets : List Action :=
  [.check false, .check false, .send, .send, .receive, .check false, .send, .acknowledge, .receive,
    .acknowledge, .receive, .acknowledge]

/-- What is left when they are: nothing is in flight. -/
def afterThree : Net where
  conn := ⟨7, 1, 3, 2, 3⟩
  passed := 0
  packets := []
  acknowledgements := []
  sent := 3
  received := 3
  acked := 3
  shrunk := false

/-- The second and the third acknowledgement lower `pipe` and advance `lastack`. -/
theorem accounted_threePackets : run step (start 4) threePackets = some afterThree ∧
    (Accounted afterThree ↔ afterThree.acked = 0) ∧
      (afterThree.acked ≠ 0 → afterThree.conn.pipe = afterThree.sent - afterThree.acked + 1) ∧
      (afterThree.acked ≠ 0 → afterThree.conn.lastack ≡ afterThree.acked - 1 [ZMOD 2 ^ 24]) ∧
      afterThree.shrunk = false := by
  have hrun : run step (start 4) threePackets = some afterThree := by decide
  refine ⟨hrun, accounted_iff 4 threePackets afterThree hrun ?_⟩
  exact .of_meets (c := fun n a => decide (Orderly n a)) (fun _ _ h => of_decide_eq_true h)
    (by decide)

/-- One packet is sent and acknowledged. -/
def onePacket : List Action := [.check false, .send, .receive, .acknowledge]

/-- What is left when it is: nothing is in flight. -/
def afterOne : Net where
  conn := ⟨5, 1, 1, 0, 1⟩
  passed := 0
  packets := []
  acknowledgements := []
  sent := 1
  received := 1
  acked := 1
  shrunk := false

theorem run_onePacket : run step (start 4) onePacket = some afterOne := by decide

theorem orderly_onePacket : Meets step Orderly (start 4) onePacket :=
  .of_meets (c := fun n a => decide (Orderly n a)) (fun _ _ h => of_decide_eq_true h) (by decide)

theorem first_stays_in_pipe :
    ¬ ∀ cwnd as n, run step (start cwnd) as = some n → Meets step Orderly (start cwnd) as →
      Accounted n := by
  intro h
  have hpipe := (h 4 onePacket afterOne run_onePacket orderly_onePacket).pipe
  revert hpipe
  decide

end Storm
end Floem
