import Mathlib
import Floem.Lib.Run

/-!
# The DCCP sender of the storm application

Congestion control over one connection (`DccpCheckCongestion`, `DccpSeqTime`, `DccpSendAck`
and `DccpRecvAck` of `main_dccp.py`).  Numbers of type `int32_t` are integers that are
reduced where the code lets them wrap.

* `Connection`, `Header` — the fields that the elements read and write.
* `checkCongestion`, `seqTime`, `sendAck`, `recvAck` — the elements.
* `Net`, `step` — the connection with its packets and acknowledgements on their way, which
  are delivered in order.
-/

namespace Floem
namespace Storm

/-! ## Numbers -/

/-- A value as an `int32_t`. -/
def i32 (x : ℤ) : ℤ := x.bmod (2 ^ 32)

/-- A value as a `uint32_t`. -/
def u32 (x : ℤ) : ℕ := (x % 2 ^ 32).toNat

def htons (x : ℕ) : ℕ := x % 256 * 256 + x / 256 % 256

def htonl (x : ℕ) : ℕ := htons (x % 65536) * 65536 + htons (x / 65536)

abbrev ntohs := htons

abbrev ntohl := htonl

theorem ntohs_htons {x : ℕ} (h : x < 65536) : ntohs (htons x) = x := by
  have hswap : htons x = x % 256 * 256 + x / 256 := by
    unfold htons
    omega
  have hlow : htons x % 256 = x / 256 := by omega
  have hhigh : htons x / 256 = x % 256 := by omega
  rw [ntohs, htons, hlow, hhigh]
  omega

theorem htons_lt (x : ℕ) : htons x < 65536 := by
  unfold htons
  omega

theorem ntohl_htonl {x : ℕ} (h : x < 2 ^ 32) : ntohl (htonl x) = x := by
  have hlow : htons (htons (x % 65536)) = x % 65536 := ntohs_htons (Nat.mod_lt _ (by decide))
  have hhigh : htons (htons (x / 65536)) = x / 65536 := ntohs_htons (by omega)
  have hlt := htons_lt (x / 65536)
  have hmod : htonl x % 65536 = htons (x / 65536) := by
    unfold htonl
    omega
  have hdiv : htonl x / 65536 = htons (x % 65536) := by
    unfold htonl
    omega
  rw [ntohl, htonl, hmod, hdiv, hlow, hhigh]
  omega

theorem u32_i32 (x : ℤ) : u32 (i32 x) = u32 x := by
  rw [u32, u32, i32]
  exact congrArg Int.toNat (Int.bmod_emod (m := 2 ^ 32))

theorem i32_add_one (x : ℤ) : i32 (i32 x + 1) = i32 (x + 1) := Int.bmod_add_bmod

/-! ## The elements -/

structure Connection where
  cwnd : ℤ
  pipe : ℤ
  seq : ℤ
  lastack : ℤ
  acks : ℕ
  deriving DecidableEq, Repr

/-- The sequence number in the header of a packet. -/
structure Header where
  seqHigh : ℕ
  seqLow : ℕ
  deriving DecidableEq, Repr

/-- `DccpCheckCongestion`: the connection, and whether the packet may be sent. -/
def checkCongestion (timeout : Bool) (c : Connection) : Connection × Bool :=
  let c := if timeout then { c with pipe := 0 } else c
  (c, decide (c.pipe < c.cwnd))

/-- `DccpSeqTime`. -/
def seqTime (c : Connection) : Connection × Header :=
  let seq := u32 c.seq
  ({ c with seq := i32 (c.seq + 1), pipe := i32 (c.pipe + 1) },
    ⟨seq >>> 16 % 2 ^ 8, htons (seq &&& 0xffff)⟩)

/-- `DccpSendAck`: the acknowledgement that the receiver sends. -/
def sendAck (header : Header) : ℕ := htonl (header.seqHigh <<< 16 ||| ntohs header.seqLow)

/-- Where an acknowledgement of a number behind the wrap comes, `lastack` is made negative. -/
def wraparound (c : Connection) (ack : ℤ) : ℤ :=
  if ack < c.lastack ∧ c.lastack - ack > c.pipe ∧ c.lastack > 2 ^ 23 then -(2 ^ 24 - c.lastack)
  else c.lastack

/-- `DccpRecvAck`: the connection, and whether there was a congestion event; `none` where the
assertion fails. -/
def recvAck (c : Connection) (ackOnWire : ℕ) : Option (Connection × Bool) := do
  let ack : ℤ := ntohl ackOnWire
  guard (ntohl ackOnWire < 2 ^ 24)
  let lastack := wraparound c ack
  let pipe := if lastack < ack then max 0 (i32 (c.pipe - (ack - lastack))) else c.pipe
  let congestion := decide (ack > lastack + 1)
  let cwnd := if congestion then
      if 2 ≤ u32 c.cwnd then i32 (u32 c.cwnd / 2 : ℕ) else c.cwnd
    else i32 (c.cwnd + 1)
  return (⟨cwnd, pipe, c.seq, max lastack ack, c.acks + 1⟩, congestion)

/-! ## The network -/

/-- The connection and what is on its way, in the order in which it is delivered. -/
structure Net where
  conn : Connection
  /-- The threads that passed the check and have not sent yet. -/
  passed : ℕ
  packets : List Header
  acknowledgements : List ℕ
  sent : ℕ
  received : ℕ
  acked : ℕ
  /-- There was a congestion event. -/
  shrunk : Bool
  deriving DecidableEq, Repr

inductive Action
  | check (timeout : Bool)
  | send
  | receive
  | acknowledge
  deriving DecidableEq, Repr

def step (n : Net) : Action → Option Net
  | .check timeout =>
    let (conn, pass) := checkCongestion timeout n.conn
    some { n with conn, passed := n.passed + pass.toNat }
  | .send =>
    let (conn, header) := seqTime n.conn
    if n.passed = 0 then none
    else some { n with conn, passed := n.passed - 1, packets := n.packets ++ [header],
                       sent := n.sent + 1 }
  | .receive =>
    match n.packets with
    | [] => none
    | header :: packets => some { n with packets, received := n.received + 1,
                                         acknowledgements := n.acknowledgements ++ [sendAck header] }
  | .acknowledge =>
    match n.acknowledgements with
    | [] => none
    | ack :: acknowledgements => do
      let (conn, congestion) ← recvAck n.conn ack
      return { n with conn, acknowledgements, acked := n.acked + 1,
                      shrunk := n.shrunk || congestion }

/-- Nothing is in flight. -/
def start (cwnd : ℤ) : Net where
  conn := ⟨cwnd, 0, 0, 0, 0⟩
  passed := 0
  packets := []
  acknowledgements := []
  sent := 0
  received := 0
  acked := 0
  shrunk := false

end Storm
end Floem
