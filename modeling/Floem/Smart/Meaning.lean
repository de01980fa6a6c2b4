import Mathlib
import Floem.Lib.Run
import Floem.Smart.Code

/-!
# What the generated code does

* `Producer`, `Entry`, `Consumer` — the state before the queue, the entry, and the state
  after the queue.  Members are kept as their bytes in memory, in the order of the device
  that stored them.
* `FillStmt.exec`, `SaveStmt.exec` — the statements; `none` where C leaves a conversion
  undefined, and where a reference was replaced by another one.
* `Consumer.Holds`, `Consumer.read` — a live path has its value again, and what a length
  reads there.
* `classify` — the element after the dequeue.
* `Channel.Evaluates` — a live path has after the queue the value it had before it.
-/

namespace Floem
namespace Smart

open Lib

/-! ## States -/

/-- The state at the producer. -/
structure Producer where
  /-- The values of the access paths. -/
  value : Path → List UInt8
  /-- The bytes a pointer points to. -/
  data : Path → ℕ → UInt8
  /-- The addresses of the shared regions. -/
  region : String → ℕ

/-- An entry of the queue. -/
structure Entry where
  members : String → List UInt8
  content : ℕ → UInt8

def Entry.set (e : Entry) (m : String) (bytes : List UInt8) : Entry :=
  { e with members := Function.update e.members m bytes }

/-- The value of a pointer at the consumer. -/
inductive Pointer
  | address (a : ℕ)
  /-- `state.entry->_content + offset` -/
  | content (offset : ℕ)

/-- The state at the consumer: the entry it points to, and the special fields. -/
structure Consumer where
  entry : Entry
  fields : String → Option Pointer

/-- The difference of two addresses. -/
def offset (a base : ℕ) : ℕ := (a + (2 ^ 64 - base % 2 ^ 64)) % 2 ^ 64

/-- **An offset added to another base** is that offset. -/
theorem offset_add (base n : ℕ) (h : n < 2 ^ 64) :
    offset ((base + n) % 2 ^ 64) base = n := by
  have := Nat.mod_lt base (show 0 < 2 ^ 64 by decide)
  unfold offset
  omega

theorem offset_lt (a base : ℕ) : offset a base < 2 ^ 64 := Nat.mod_lt _ (by decide)

/-- The sum of lengths. -/
def total (f : Path → List UInt8) (ls : List Length) : ℕ := (ls.map fun l => l.eval f).sum

@[simp] theorem total_nil (f : Path → List UInt8) : total f [] = 0 := rfl

@[simp] theorem total_append (f : Path → List UInt8) (ls ls' : List Length) :
    total f (ls ++ ls') = total f ls + total f ls' := by
  simp [total]

@[simp] theorem total_singleton (f : Path → List UInt8) (l : Length) :
    total f [l] = l.eval f := by
  simp [total]

theorem total_congr {f g : Path → List UInt8} {ls : List Length}
    (h : ∀ l ∈ ls, ∀ p ∈ l.paths, f p = g p) : total f ls = total g ls := by
  unfold total
  congr 1
  exact List.map_congr_left fun l hl => l.local_eval f g (h l hl)

/-! ## Statements -/

/-- A statement of `fill`, at device `d`. -/
def FillStmt.exec (d : Device) (P : Producer) (e : Entry) : FillStmt → Option Entry
  | .assign m conv v =>
      (conv.apply v.type (P.value v.path)).map fun b => e.set m (d.order b)
  | .shared m conv v region =>
      (conv.apply .uint64 (leBytes 8 (offset (leNat (P.value v.path)) (P.region region)))).map
        fun b => e.set m (d.order b)
  | .copy before v l =>
      let off := total P.value before
      some
        { e with
          content := fun a =>
            if off ≤ a ∧ a < off + l.eval P.value then P.data v.path (a - off) else e.content a }
  | .task n => some (e.set "task" [UInt8.ofNat n])

/-- With the annotation and the pointer, a live path has the value it had at the producer. -/
def Consumer.Has (d : Device) (region : String → ℕ) (P : Producer) (c : Consumer) (v : Var) :
    Annotation → Option Pointer → Prop
  | .plain, _ => d.order (c.entry.members v.path.last) = P.value v.path
  | .shared r, some (.address a) =>
      offset a (region r) = offset (leNat (P.value v.path)) (P.region r)
  | .shared _, _ => False
  | .copysize l, some (.content off) =>
      ∀ b < l.eval P.value, c.entry.content (off + b) = P.data v.path b
  | .copysize _, _ => False

instance Consumer.decidableHas (d : Device) (region : String → ℕ) (P : Producer) (c : Consumer)
    (v : Var) : (a : Annotation) → (p : Option Pointer) → Decidable (c.Has d region P v a p)
  | .plain, _ => inferInstanceAs (Decidable (_ = _))
  | .shared _, some (.address _) => inferInstanceAs (Decidable (_ = _))
  | .shared _, some (.content _) => inferInstanceAs (Decidable False)
  | .shared _, none => inferInstanceAs (Decidable False)
  | .copysize _, some (.content _) => inferInstanceAs (Decidable (∀ _ < _, _))
  | .copysize _, some (.address _) => inferInstanceAs (Decidable False)
  | .copysize _, none => inferInstanceAs (Decidable False)

/-- **A live path has the value it had at the producer**: a pointer with `@copysize` points to
equal bytes, one with `@shared` to the same offset in the region. -/
def Consumer.Holds (d : Device) (region : String → ℕ) (P : Producer) (c : Consumer)
    (v : Var) : Prop :=
  c.Has d region P v v.annotation (c.fields v.path.last)

instance Consumer.decidableHolds (d : Device) (region : String → ℕ) (P : Producer)
    (c : Consumer) (v : Var) : Decidable (c.Holds d region P v) :=
  Consumer.decidableHas d region P c v v.annotation (c.fields v.path.last)

/-- What `replace_states` makes of a reference to a live path. -/
def Var.rule (v : Var) : Rule Char := if v.special then stateRule v.path else entryRule v.path

namespace Channel

variable (Q : Channel)

/-- The live path that a path begins with, and the accesses that follow it. -/
def source (p : Path) : Option (Var × List Char) :=
  (Q.vars.find? fun v => v.path = p ∨ v.path.text <+: p.text ∧
      letters.ends (p.text.drop v.path.text.length) = true).map
    fun v => (v, p.text.drop v.path.text.length)

end Channel

/-- The value of a path in a length, in an element that is rewritten or not.  Two CPUs have
their memory in common: behind a pointer that has come over they find the same, where
`@copysize` is the size of all that lies behind it.  `none` where the path is read from
something that has not come over. -/
def Consumer.read (Q : Channel) (d : Device) (renamed : Bool) (region : String → ℕ)
    (P : Producer) (c : Consumer) (p : Path) : Option (List UInt8) :=
  (Q.source p).bind fun found =>
    if Q.refer renamed (p.text ++ [' ']) = some (found.1.rule.new ++ (found.2 ++ [' '])) then
      if found.2 = [] then
        if found.1.special then none else some (d.order (c.entry.members found.1.path.last))
      else if Q.producer = .cpu ∧ d = .cpu ∧ c.Holds d region P found.1 then some (P.value p)
      else none
    else none

/-- A statement of `save`, at device `d`, in an element that is rewritten or not; `region` are
the addresses of the shared regions there, and `P` is the producer. -/
def SaveStmt.exec (Q : Channel) (d : Device) (renamed : Bool) (region : String → ℕ)
    (P : Producer) (c : Consumer) : SaveStmt → Option Consumer
  | .qid =>
      if ∃ m ∈ pipelineMembers Q.vars Q.extras,
          Q.refer renamed ((Path.field "qid").text ++ [' ']) = some (m.toList ++ [' ']) then
        some c
      else none
  | .buffer => if Q.Stays renamed (.field "buffer") then some c else none
  | .entry _ => if Q.Stays renamed (.field "entry") then some c else none
  | .convert conv v =>
      if Q.refer renamed (v.path.text ++ [' ']) = some (v.rule.new ++ [' ']) then
        (conv.apply v.type (d.order (c.entry.members v.path.last))).map fun b =>
          { c with entry := c.entry.set v.path.last (d.order b) }
      else none
  | .shared name _ reg conv =>
      if Q.Stays renamed (.field name) ∧ Q.Stays renamed (.inEntry name) then
        (conv.apply .uint64 (d.order (c.entry.members name))).map fun b =>
          { c with
            fields := Function.update c.fields name
              (some (.address ((region reg + leNat b) % 2 ^ 64))) }
      else none
  | .copy name _ before =>
      -- the lengths in front are computed once more
      if Q.Stays renamed (.field name) ∧ Q.Stays renamed (.inEntry "_content") ∧
          ∀ l ∈ before, ∀ p ∈ l.paths, (c.read Q d renamed region P p).isSome then
        some
          { c with
            fields := Function.update c.fields name
              (some (.content
                (total (fun p => (c.read Q d renamed region P p).getD []) before))) }
      else none

/-- The element that follows the dequeue: the output port of an entry with this task. -/
def classify (channels : ℕ) (e : Entry) : Option ℕ :=
  (List.range channels).find? fun i => leNat (e.members "task") = i + 1

namespace Channel

variable (Q : Channel)

/-- `fill<i>` on the entry `e`. -/
def fill (i : ℕ) (P : Producer) (e : Entry) : Option Entry :=
  if Q.Compiles then run (FillStmt.exec Q.producer P) e (Q.fillSrc i) else none

/-- `save<i>`, where the shared regions have the addresses `region`, of an entry that was
filled at `P`. -/
def save (region : String → ℕ) (P : Producer) (e : Entry) : Option Consumer :=
  if Q.Compiles then
    run (SaveStmt.exec Q Q.consumer Q.renames region P) ⟨e, fun _ => none⟩ Q.saveSrc
  else none

/-- The values of live paths have the sizes of their types. -/
def Sized (P : Producer) : Prop := ∀ v ∈ Q.vars, (P.value v.path).length = v.type.cSize

/-- Behind the queue, a reference to the path becomes one to its member, whatever follows the
path there. -/
def Refers (v : Var) : Prop :=
  ∀ t, letters.ends t = true → Q.refer true (v.path.text ++ t) = some (v.rule.new ++ t)

/-- **The round trip of channel `i` of a queue.** -/
structure RoundTrips (channels i : ℕ) : Prop where
  /-- Members of the entry are distinct from each other and from those of the header. -/
  distinct : (entryMembers Q.vars).Nodup
  /-- Every entry that `fill<i>` fills comes to `save<i>`, and then every live path evaluates to
  what it was at the producer. -/
  arrives : ∀ P region e₀, Q.Sized P → ∃ e c, Q.fill i P e₀ = some e ∧
    classify channels e = some i ∧ Q.save region P e = some c ∧
      ∀ v ∈ Q.vars, Q.Refers v ∧ c.Holds Q.consumer region P v

end Channel
end Smart
end Floem
