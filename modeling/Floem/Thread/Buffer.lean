import Mathlib
import Floem.Lib.Run

/-!
# Buffers between threads

An input port that is fed from another thread gets a buffer: a flag and one word for
each argument (`create_buffer_read_element` and `create_buffer_write_element` of
`floem/thread_allocation.py`).  The write element of each port runs on the thread of its
producer, the read element copies all ports and then clears all flags.

* `Reader`, `Writer` — where the threads are, one load or store at a time.
* `step` — any thread may go on.
* `Inv` — what the flag of a port says, whatever the other ports are doing.
* `activation` — **the main theorem**: the `n`-th activation of the reader gets the
  arguments of the `n`-th activation of each writer.
-/

namespace Floem
namespace Thread

open Lib

/-- The ports with a buffer: how many there are, and how many arguments each has. -/
structure Ports where
  count : ℕ
  args : ℕ → ℕ

/-- The next instruction of the read element. -/
inductive Reader
  | idle
  /-- The condition of the loop, at the flag of port `j`. -/
  | wait (j : ℕ)
  /-- `<type> <buffer> = this-><buffer>;` for argument `i` of port `p` -/
  | copy (p i : ℕ)
  /-- `this-><port>_avail = false;` -/
  | clear (p : ℕ)

/-- The next instruction of a write element with the arguments `v`. -/
inductive Writer (V : Type*)
  | idle
  /-- The condition of the loop. -/
  | wait (v : ℕ → V)
  /-- `this-><buffer> = <buffer>;` -/
  | store (v : ℕ → V) (i : ℕ)
  /-- `this-><port>_avail = true;` -/
  | set (v : ℕ → V)

/-- The state struct, the threads, and the history. -/
structure State (V : Type*) where
  avail : ℕ → Bool
  buffer : ℕ → ℕ → V
  reader : Reader
  writer : ℕ → Writer V
  /-- The variables of the read element. -/
  copied : ℕ → ℕ → V
  /-- The activations of each writer. -/
  sent : ℕ → List (ℕ → V)
  /-- The activations of the instance. -/
  received : List (ℕ → ℕ → V)

inductive Action (V : Type*)
  /-- The read element is called. -/
  | activate
  /-- The read element does its next instruction. -/
  | read
  /-- The write element of port `p` is called. -/
  | send (p : ℕ) (v : ℕ → V)
  /-- The write element of port `p` does its next instruction. -/
  | write (p : ℕ)

namespace Ports

variable {V : Type*} (B : Ports)

/-- The zero-initialised buffers. -/
def create (zero : V) : State V where
  avail _ := false
  buffer _ _ := zero
  reader := .idle
  writer _ := .idle
  copied _ _ := zero
  sent _ := []
  received := []

/-- The next instruction of the read element. -/
def read (s : State V) : Option (State V) :=
  match s.reader with
  | .idle => none
  | .wait j =>
      if j < B.count then
        if s.avail j then some { s with reader := .wait (j + 1) }
        else some { s with reader := .wait 0 }
      else some { s with reader := .copy 0 0 }
  | .copy p i =>
      if p < B.count then
        if i < B.args p then
          some
            { s with
              copied := Function.update s.copied p
                (Function.update (s.copied p) i (s.buffer p i))
              reader := .copy p (i + 1) }
        else some { s with reader := .copy (p + 1) 0 }
      else some { s with reader := .clear 0 }
  | .clear p =>
      if p < B.count then
        some { s with avail := Function.update s.avail p false, reader := .clear (p + 1) }
      else
        -- `output { out(…); }`
        some { s with received := s.received ++ [s.copied], reader := .idle }

/-- The next instruction of the write element of port `p`. -/
def write (s : State V) (p : ℕ) : Option (State V) :=
  match s.writer p with
  | .idle => none
  | .wait v =>
      if s.avail p then some s
      else some { s with writer := Function.update s.writer p (.store v 0) }
  | .store v i =>
      if i < B.args p then
        some
          { s with
            buffer := Function.update s.buffer p (Function.update (s.buffer p) i (v i))
            writer := Function.update s.writer p (.store v (i + 1)) }
      else some { s with writer := Function.update s.writer p (.set v) }
  | .set _ =>
      some
        { s with
          avail := Function.update s.avail p true
          writer := Function.update s.writer p .idle }

def step (s : State V) : Action V → Option (State V)
  | .activate =>
      match s.reader with
      | .idle => some { s with reader := .wait 0 }
      | _ => none
  | .read => B.read s
  | .send p v =>
      match s.writer p with
      | .idle =>
          if p < B.count then
            some
              { s with
                writer := Function.update s.writer p (.wait v)
                sent := Function.update s.sent p (s.sent p ++ [v]) }
          else none
      | _ => none
  | .write p => if p < B.count then B.write s p else none

/-! ## The invariant -/

/-- How many activations of the writer of port `p` were taken out of its buffer. -/
def taken (s : State V) (p : ℕ) : ℕ :=
  s.received.length +
    match s.reader with
    | .clear q => if p < q then 1 else 0
    | _ => 0

/-- The writer of port `p`: what it was called with last is not in the buffer yet. -/
def WriterOk (s : State V) (p : ℕ) : Prop :=
  match s.writer p with
  | .idle => (s.sent p).length = taken s p + if s.avail p then 1 else 0
  | .wait v => (s.sent p).length = taken s p + (if s.avail p then 1 else 0) + 1 ∧
      (s.sent p).getLast? = some v
  | .store v i => s.avail p = false ∧ (s.sent p).length = taken s p + 1 ∧
      (s.sent p).getLast? = some v ∧ ∀ b < i, b < B.args p → s.buffer p b = v b
  | .set v => s.avail p = false ∧ (s.sent p).length = taken s p + 1 ∧
      (s.sent p).getLast? = some v ∧ ∀ b < B.args p, s.buffer p b = v b

/-- What is copied of port `p` is what its writer was called with for this activation. -/
def CopiedOk (s : State V) (p : ℕ) (b : ℕ) : Prop :=
  ∃ v, (s.sent p)[s.received.length]? = some v ∧ s.copied p b = v b

/-- The reader. -/
def ReaderOk (s : State V) : Prop :=
  match s.reader with
  | .idle => True
  | .wait j => ∀ p < j, p < B.count → s.avail p = true
  | .copy p i => (∀ q < B.count, s.avail q = true) ∧
      ∀ q < B.count, ∀ b < B.args q, q < p ∨ q = p ∧ b < i → CopiedOk s q b
  | .clear p => (∀ q < B.count, p ≤ q → s.avail q = true) ∧
      ∀ q < B.count, ∀ b < B.args q, CopiedOk s q b

/-- The invariant. -/
structure Inv (s : State V) : Prop where
  writer : ∀ p < B.count, B.WriterOk s p
  /-- A flag says that the buffer has the arguments of the next activation. -/
  full : ∀ p < B.count, s.avail p = true → ∃ v : ℕ → V, (s.sent p)[taken s p]? = some v ∧
    ∀ b < B.args p, s.buffer p b = v b
  reader : B.ReaderOk s
  received : ∀ (n : ℕ) (d : ℕ → ℕ → V), s.received[n]? = some d → ∀ p < B.count,
    ∃ v : ℕ → V, (s.sent p)[n]? = some v ∧ ∀ b < B.args p, d p b = v b

variable {B} {s s' : State V}

/-- The writer of a port is not concerned by what happens at the other ports. -/
theorem WriterOk.congr {p : ℕ} (h : B.WriterOk s p) (havail : s'.avail p = s.avail p)
    (hbuffer : s'.buffer p = s.buffer p) (hwriter : s'.writer p = s.writer p)
    (hsent : s'.sent p = s.sent p) (htaken : taken s' p = taken s p) : B.WriterOk s' p := by
  unfold WriterOk at h ⊢
  rw [hwriter]
  cases hw : s.writer p <;> simp only [hw] at h ⊢ <;>
    simpa only [havail, hbuffer, hsent, htaken] using h

/-- No more is taken out of a buffer than was sent. -/
theorem WriterOk.taken_le {p : ℕ} (h : B.WriterOk s p) : taken s p ≤ (s.sent p).length := by
  unfold WriterOk at h
  cases hw : s.writer p <;> simp only [hw] at h
  · omega
  · omega
  · omega
  · omega

/-- What was copied stays what the writers were called with. -/
theorem CopiedOk.congr {p b : ℕ} (h : CopiedOk s p b) (hcopied : s'.copied p b = s.copied p b)
    (hlength : s'.received.length = s.received.length)
    (hsent : ∀ (n : ℕ) (v : ℕ → V), (s.sent p)[n]? = some v → (s'.sent p)[n]? = some v) :
    CopiedOk s' p b := by
  obtain ⟨v, hv, hb⟩ := h
  refine ⟨v, ?_, hcopied.trans hb⟩
  rw [hlength]
  exact hsent _ _ hv

/-- The reader is not concerned by a flag that is set. -/
theorem ReaderOk.congr (h : B.ReaderOk s)
    (havail : ∀ p, s.avail p = true → s'.avail p = true) (hreader : s'.reader = s.reader)
    (hcopied : s'.copied = s.copied) (hlength : s'.received.length = s.received.length)
    (hsent : ∀ p (n : ℕ) (v : ℕ → V), (s.sent p)[n]? = some v → (s'.sent p)[n]? = some v) :
    B.ReaderOk s' := by
  have hcongr : ∀ q b, CopiedOk s q b → CopiedOk s' q b := fun q b hq =>
    hq.congr (by rw [hcopied]) hlength (hsent q)
  unfold ReaderOk at h ⊢
  rw [hreader]
  cases hr : s.reader with
  | idle => trivial
  | wait j =>
      simp only [hr] at h ⊢
      exact fun p hp hlt => havail p (h p hp hlt)
  | copy p i =>
      simp only [hr] at h ⊢
      exact ⟨fun q hq => havail q (h.1 q hq), fun q hq b hb hc => hcongr q b (h.2 q hq b hb hc)⟩
  | clear p =>
      simp only [hr] at h ⊢
      exact ⟨fun q hq hle => havail q (h.1 q hq hle), fun q hq b hb => hcongr q b (h.2 q hq b hb)⟩

/-! ## The read element -/

/-- A step of the read element that clears no flag. -/
theorem inv_reader (hI : B.Inv s) (havail : s'.avail = s.avail) (hbuffer : s'.buffer = s.buffer)
    (hwriter : s'.writer = s.writer) (hsent : s'.sent = s.sent)
    (hreceived : s'.received = s.received) (htaken : ∀ p, taken s' p = taken s p)
    (hreader : B.ReaderOk s') : B.Inv s' where
  writer p hp := (hI.writer p hp).congr (by rw [havail]) (by rw [hbuffer]) (by rw [hwriter])
    (by rw [hsent]) (htaken p)
  full p hp h := by
    rw [havail] at h
    rw [hsent, hbuffer, htaken]
    exact hI.full p hp h
  reader := hreader
  received := by
    rw [hreceived, hsent]
    exact hI.received

/-- The flag of a port is cleared. -/
theorem inv_clear (hI : B.Inv s) {p : ℕ} (hr : s.reader = .clear p) (hp : p < B.count) :
    B.Inv { s with avail := Function.update s.avail p false, reader := .clear (p + 1) } := by
  have hreader := hI.reader
  simp only [ReaderOk, hr] at hreader
  obtain ⟨hflags, hcopied⟩ := hreader
  have htaken : ∀ q, taken s q = s.received.length + if q < p then 1 else 0 := fun q => by
    simp [taken, hr]
  have htaken' : ∀ q, taken { s with
      avail := Function.update s.avail p false, reader := .clear (p + 1) } q
        = s.received.length + if q < p + 1 then 1 else 0 := fun q => by simp [taken]
  have hother : ∀ q, q ≠ p → taken { s with
      avail := Function.update s.avail p false, reader := .clear (p + 1) } q = taken s q :=
    fun q hq => by
      rw [htaken', htaken]
      split_ifs <;> omega
  have hset := hflags p hp (Nat.le_refl p)
  constructor
  · intro q hq
    by_cases hqp : q = p
    · subst hqp
      have hwriter := hI.writer q hq
      unfold WriterOk at hwriter ⊢
      cases hw : s.writer q <;> simp only [hw, htaken, htaken', hset] at hwriter ⊢
      · simp at hwriter ⊢; omega
      · simp at hwriter ⊢; exact ⟨by omega, hwriter.2⟩
      · cases hwriter.1
      · cases hwriter.1
    · exact (hI.writer q hq).congr (Function.update_of_ne hqp _ _) rfl rfl rfl (hother q hqp)
  · intro q hq havail
    have hqp : q ≠ p := fun h => by subst h; simp at havail
    rw [hother q hqp]
    exact hI.full q hq (by simpa [hqp] using havail)
  · refine ⟨fun q hq hle => ?_, hcopied⟩
    have hqp : q ≠ p := by omega
    simpa [hqp] using hflags q hq (by omega)
  · exact hI.received

/-- The instance is called with what was copied. -/
theorem inv_deliver (hI : B.Inv s) {p : ℕ} (hr : s.reader = .clear p) (hp : B.count ≤ p) :
    B.Inv { s with received := s.received ++ [s.copied], reader := .idle } := by
  have hreader := hI.reader
  simp only [ReaderOk, hr] at hreader
  obtain ⟨-, hcopied⟩ := hreader
  have htaken : ∀ q < B.count, taken { s with
      received := s.received ++ [s.copied], reader := .idle } q = taken s q := fun q hq => by
    simp [taken, hr, Nat.lt_of_lt_of_le hq hp]
  constructor
  · exact fun q hq => (hI.writer q hq).congr rfl rfl rfl rfl (htaken q hq)
  · intro q hq havail
    rw [htaken q hq]
    exact hI.full q hq havail
  · trivial
  · intro n d hd q hq
    rcases Nat.lt_or_ge n s.received.length with hlt | hge
    · rw [List.getElem?_append_left hlt] at hd
      exact hI.received n d hd q hq
    · -- the activation that is just made
      rw [List.getElem?_append_right hge] at hd
      have hn := (List.getElem?_eq_some_iff.1 hd).1
      simp only [List.length_singleton] at hn
      obtain rfl : n = s.received.length := by omega
      rw [Nat.sub_self] at hd
      obtain rfl : s.copied = d := Option.some.inj hd
      have hsent := (hI.writer q hq).taken_le
      have hlt : s.received.length < (s.sent q).length := by
        simp only [taken, hr, if_pos (Nat.lt_of_lt_of_le hq hp)] at hsent
        omega
      refine ⟨(s.sent q)[s.received.length], List.getElem?_eq_getElem hlt, fun b hb => ?_⟩
      obtain ⟨v, hv, hword⟩ := hcopied q hq b hb
      rw [List.getElem?_eq_getElem hlt] at hv
      rw [Option.some.inj hv]
      exact hword

theorem inv_read (hI : B.Inv s) (h : B.read s = some s') : B.Inv s' := by
  have hreader := hI.reader
  unfold read at h
  unfold ReaderOk at hreader
  cases hr : s.reader with
  | idle => simp [hr] at h
  | wait j =>
      simp only [hr] at h hreader
      have htaken : ∀ p, taken s p = s.received.length := fun p => by simp [taken, hr]
      split_ifs at h with hj hflag <;> obtain rfl := Option.some.inj h
      · refine inv_reader hI rfl rfl rfl rfl rfl (fun p => by rw [htaken]; rfl) ?_
        intro p hp hlt
        rcases Nat.lt_succ_iff_lt_or_eq.1 hp with hp | rfl
        · exact hreader p hp hlt
        · exact hflag
      · refine inv_reader hI rfl rfl rfl rfl rfl (fun p => by rw [htaken]; rfl) ?_
        exact fun p hp => absurd hp (Nat.not_lt_zero _)
      · refine inv_reader hI rfl rfl rfl rfl rfl (fun p => by rw [htaken]; rfl) ?_
        refine ⟨fun q hq => hreader q (by omega) hq, fun q hq b hb hcopied => ?_⟩
        omega
  | copy p i =>
      simp only [hr] at h hreader
      obtain ⟨hflags, hcopied⟩ := hreader
      have htaken : ∀ p, taken s p = s.received.length := fun p => by simp [taken, hr]
      split_ifs at h with hp hi <;> obtain rfl := Option.some.inj h
      · -- one word is copied
        obtain ⟨v, hv, hword⟩ := hI.full p hp (hflags p hp)
        rw [htaken] at hv
        refine inv_reader hI rfl rfl rfl rfl rfl (fun p => by rw [htaken]; rfl) ⟨hflags, ?_⟩
        intro q hq b hb hqb
        by_cases hnew : q = p ∧ b = i
        · obtain ⟨rfl, rfl⟩ := hnew
          exact ⟨v, hv, by simpa using hword b hb⟩
        · refine (hcopied q hq b hb (by omega)).congr ?_ rfl fun _ _ h => h
          by_cases hqp : q = p
          · subst hqp
            have hbi : b ≠ i := fun h => hnew ⟨rfl, h⟩
            simp [hbi]
          · simp [hqp]
      · refine inv_reader hI rfl rfl rfl rfl rfl (fun p => by rw [htaken]; rfl) ⟨hflags, ?_⟩
        intro q hq b hb hqb
        refine hcopied q hq b hb ?_
        by_cases hqp : q = p
        · subst hqp; omega
        · omega
      · refine inv_reader hI rfl rfl rfl rfl rfl (fun p => by rw [htaken]; simp [taken]) ?_
        exact ⟨fun q hq _ => hflags q hq, fun q hq b hb => hcopied q hq b hb (by omega)⟩
  | clear p =>
      simp only [hr] at h hreader
      obtain ⟨hflags, hcopied⟩ := hreader
      split_ifs at h with hp <;> obtain rfl := Option.some.inj h
      · exact inv_clear hI hr hp
      · exact inv_deliver hI hr (Nat.not_lt.1 hp)

/-! ## The write elements -/

/-- A step of the write element of port `p`. -/
theorem inv_writer (hI : B.Inv s) {p : ℕ}
    (havail : ∀ q, q ≠ p → s'.avail q = s.avail q) (hset : s.avail p = true → s'.avail p = true)
    (hbuffer : ∀ q, q ≠ p → s'.buffer q = s.buffer q)
    (hwriter : ∀ q, q ≠ p → s'.writer q = s.writer q)
    (hother : ∀ q, q ≠ p → s'.sent q = s.sent q)
    (hsent : ∀ q (n : ℕ) (v : ℕ → V), (s.sent q)[n]? = some v → (s'.sent q)[n]? = some v)
    (hreader : s'.reader = s.reader) (hcopied : s'.copied = s.copied)
    (hreceived : s'.received = s.received) (hp : B.WriterOk s' p)
    (hfull : s'.avail p = true → ∃ v : ℕ → V, (s'.sent p)[taken s p]? = some v ∧
      ∀ b < B.args p, s'.buffer p b = v b) : B.Inv s' := by
  have htaken : ∀ q, taken s' q = taken s q := fun q => by
    rw [taken, hreceived, hreader, taken]
  constructor
  · intro q hq
    by_cases hqp : q = p
    · subst hqp; exact hp
    · exact (hI.writer q hq).congr (havail q hqp) (hbuffer q hqp) (hwriter q hqp) (hother q hqp)
        (htaken q)
  · intro q hq hav
    rw [htaken]
    by_cases hqp : q = p
    · subst hqp; exact hfull hav
    · rw [hbuffer q hqp, hother q hqp]
      exact hI.full q hq (by rw [← havail q hqp]; exact hav)
  · refine hI.reader.congr (fun q hq => ?_) hreader hcopied (by rw [hreceived]) hsent
    by_cases hqp : q = p
    · subst hqp; exact hset hq
    · rw [havail q hqp]; exact hq
  · intro n d hd q hq
    rw [hreceived] at hd
    obtain ⟨v, hv, hword⟩ := hI.received n d hd q hq
    exact ⟨v, hsent q n v hv, hword⟩

theorem inv_write (hI : B.Inv s) {p : ℕ} (hp : p < B.count) (h : B.write s p = some s') :
    B.Inv s' := by
  have hwriter := hI.writer p hp
  unfold write at h
  unfold WriterOk at hwriter
  cases hw : s.writer p with
  | idle => simp [hw] at h
  | wait v =>
      simp only [hw] at h hwriter
      split_ifs at h with hav <;> obtain rfl := Option.some.inj h
      · exact hI
      · obtain ⟨hlen, hlast⟩ := hwriter
        rw [if_neg hav] at hlen
        refine inv_writer hI (p := p) (fun _ _ => rfl) id (fun _ _ => rfl)
          (fun q hq => Function.update_of_ne hq _ _) (fun _ _ => rfl) (fun _ _ _ h => h) rfl rfl rfl
          ?_ (fun hset => absurd hset hav)
        simp only [WriterOk, Function.update_self]
        exact ⟨by simpa using hav, hlen, hlast, fun b hb => absurd hb (Nat.not_lt_zero b)⟩
  | store v i =>
      simp only [hw] at h hwriter
      obtain ⟨hav, hlen, hlast, hwords⟩ := hwriter
      split_ifs at h with hi <;> obtain rfl := Option.some.inj h
      · refine inv_writer hI (p := p) (fun _ _ => rfl) id
          (fun q hq => Function.update_of_ne hq _ _) (fun q hq => Function.update_of_ne hq _ _)
          (fun _ _ => rfl) (fun _ _ _ h => h) rfl rfl rfl ?_
          (fun hset => absurd hset (by simp [hav]))
        simp only [WriterOk, Function.update_self]
        refine ⟨hav, hlen, hlast, fun b hb hlt => ?_⟩
        by_cases hbi : b = i
        · subst hbi; simp
        · rw [Function.update_of_ne hbi]
          exact hwords b (by omega) hlt
      · refine inv_writer hI (p := p) (fun _ _ => rfl) id (fun _ _ => rfl)
          (fun q hq => Function.update_of_ne hq _ _) (fun _ _ => rfl) (fun _ _ _ h => h) rfl rfl rfl
          ?_ (fun hset => absurd hset (by simp [hav]))
        simp only [WriterOk, Function.update_self]
        exact ⟨hav, hlen, hlast, fun b hb => hwords b (by omega) hb⟩
  | set v =>
      simp only [hw] at h hwriter
      obtain ⟨hav, hlen, hlast, hwords⟩ := hwriter
      obtain rfl := Option.some.inj h
      refine inv_writer hI (p := p) (fun q hq => Function.update_of_ne hq _ _)
        (fun _ => Function.update_self ..) (fun _ _ => rfl)
        (fun q hq => Function.update_of_ne hq _ _) (fun _ _ => rfl) (fun _ _ _ h => h) rfl rfl rfl
        ?_ (fun _ => ⟨v, ?_, hwords⟩)
      · simp only [WriterOk, Function.update_self]
        exact hlen
      · -- the last activation is the one the buffer has now
        rw [List.getLast?_eq_getElem?, hlen, Nat.add_sub_cancel] at hlast
        exact hlast

/-- A write element is called. -/
theorem inv_send (hI : B.Inv s) {p : ℕ} (hw : s.writer p = .idle) (hp : p < B.count) (v : ℕ → V) :
    B.Inv { s with
      writer := Function.update s.writer p (.wait v)
      sent := Function.update s.sent p (s.sent p ++ [v]) } := by
  have hwriter := hI.writer p hp
  simp only [WriterOk, hw] at hwriter
  have hsent : ∀ q (n : ℕ) (w : ℕ → V), (s.sent q)[n]? = some w →
      (Function.update s.sent p (s.sent p ++ [v]) q)[n]? = some w := fun q n w h => by
    by_cases hqp : q = p
    · subst hqp
      rw [Function.update_self, List.getElem?_append_left (List.getElem?_eq_some_iff.1 h).1, h]
    · rw [Function.update_of_ne hqp]
      exact h
  refine inv_writer hI (p := p) (fun _ _ => rfl) id (fun _ _ => rfl)
    (fun q hq => Function.update_of_ne hq _ _) (fun q hq => Function.update_of_ne hq _ _) hsent
    rfl rfl rfl ?_ (fun hset => ?_)
  · simp only [WriterOk, Function.update_self, List.length_append, List.length_singleton]
    refine ⟨?_, by simp⟩
    rw [hwriter]
    rfl
  · obtain ⟨w, hw, hwords⟩ := hI.full p hp hset
    exact ⟨w, hsent p _ w hw, hwords⟩

/-! ## Runs -/

theorem inv_step (a : Action V) (hI : B.Inv s) (h : B.step s a = some s') : B.Inv s' := by
  cases a with
  | activate =>
      simp only [step] at h
      split at h
      · next hr =>
          obtain rfl := Option.some.inj h
          refine inv_reader hI rfl rfl rfl rfl rfl (fun p => by simp [taken, hr]) ?_
          exact fun p hp => absurd hp (Nat.not_lt_zero p)
      · cases h
  | read => exact inv_read hI h
  | send p v =>
      simp only [step] at h
      split at h
      · next hw =>
          split_ifs at h with hp
          obtain rfl := Option.some.inj h
          exact inv_send hI hw hp v
      · cases h
  | write p =>
      simp only [step] at h
      split_ifs at h with hp
      exact inv_write hI hp h

theorem inv_create (zero : V) : B.Inv (create zero) where
  writer p _ := by simp [WriterOk, create, taken]
  full p _ h := by simp [create] at h
  reader := trivial
  received n d h := by simp [create] at h

/-- **The reader gets what the writers were called with.**  In every interleaving the
`n`-th activation of the instance has, at every port, the arguments of the `n`-th
activation of the writer of that port. -/
theorem activation (B : Ports) (zero : V) (as : List (Action V)) (s : State V)
    (hrun : run B.step (create zero) as = some s) (n : ℕ) (d : ℕ → ℕ → V)
    (hd : s.received[n]? = some d) (p : ℕ) (hp : p < B.count) :
    ∃ v : ℕ → V, (s.sent p)[n]? = some v ∧ ∀ b < B.args p, d p b = v b :=
  (run_invariant (P := B.Inv) (fun _ a _ hI h => inv_step a hI h) (inv_create zero) hrun).received
    n d hd p hp

/-- Two ports, with two arguments and with one. -/
def twoPorts : Ports := ⟨2, fun p => 2 - p⟩

/-- The first writer runs ahead of the reader, and waits. -/
theorem activation_twoPorts :
    ∃ s d, run twoPorts.step (create 0)
      ([.send 0 fun i => 10 + i] ++ List.replicate 5 (.write 0) ++
        [.send 0 fun i => 20 + i, .write 0, .activate, .read, .send 1 fun i => 30 + i] ++
        List.replicate 4 (.write 1) ++ List.replicate 11 .read ++ [.write 0]) = some s ∧
      s.received[0]? = some d ∧ (d 0 0, d 0 1, d 1 0) = (10, 11, 30) ∧
      ∃ v, (s.sent 0)[0]? = some v ∧ ∀ b < 2, d 0 b = v b := by
  obtain ⟨s, hs, hobs⟩ := Option.map_eq_some_iff.1 (show (run twoPorts.step (create 0)
    ([.send 0 fun i => 10 + i] ++ List.replicate 5 (.write 0) ++
      [.send 0 fun i => 20 + i, .write 0, .activate, .read, .send 1 fun i => 30 + i] ++
      List.replicate 4 (.write 1) ++ List.replicate 11 .read ++ [.write 0])).map
        (fun s => s.received.map fun d => (d 0 0, d 0 1, d 1 0)) = some [(10, 11, 30)]
          by decide +kernel)
  have hd : (s.received[0]?).map (fun d => (d 0 0, d 0 1, d 1 0)) = some (10, 11, 30) := by
    rw [← List.getElem?_map, hobs]
    rfl
  obtain ⟨d, hd, hwords⟩ := Option.map_eq_some_iff.1 hd
  exact ⟨s, d, hs, hd, hwords, activation twoPorts 0 _ s hs 0 d hd 0 (by decide)⟩

end Ports
end Thread
end Floem
