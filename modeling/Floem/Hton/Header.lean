import Floem.Compress.State
import Floem.Lib.Run
import Floem.Lib.Text

/-!
# Byte order of packet headers

The pass of `floem/hton.py` writes the code of the elements that convert a packet header
between the byte orders of the network and the CPU.  It collects the fields of the header
from the state types of the graph and converts those whose size it knows.

* `Scalar`, `Program`, `Header` — the types a header is built from.
* `sizeof`, `getAllTypesFields`, `htonInstance`, `htonPass` — the code.
* `leaves` — the scalars in a header and where they are.
* `exec` — what a statement of the generated code does to the memory.
* `Header.Converts` — what it is for.
-/

namespace Floem
namespace Hton

open Lib
open Compress hiding Field

/-! ## Types -/

/-- The bits of `Uint` and `Sint`. -/
inductive Width
  | w8 | w16 | w32 | w64
  deriving DecidableEq, Repr

def Width.digits : Width → List Char
  | w8 => ['8']
  | w16 => ['1', '6']
  | w32 => ['3', '2']
  | w64 => ['6', '4']

def Width.bytes : Width → ℕ
  | w8 => 1
  | w16 => 2
  | w32 => 4
  | w64 => 8

/-- The scalar types. -/
inductive Scalar
  | char
  | int
  | sizeT
  | uint (w : Width)
  | sint (w : Width)
  deriving DecidableEq, Repr

namespace Scalar

def text : Scalar → List Char
  | char => "char".toList
  | int => "int".toList
  | sizeT => "size_t".toList
  | uint w => "uint".toList ++ w.digits ++ "_t".toList
  | sint w => "int".toList ++ w.digits ++ "_t".toList

/-- The bytes a value of the type has. -/
def bytes : Scalar → ℕ
  | char => 1
  | int => 4
  | sizeT => 8
  | uint w => w.bytes
  | sint w => w.bytes

/-- A `char` is signed on the CPU. -/
def signed : Scalar → Bool
  | char => true
  | int => true
  | sizeT => false
  | uint _ => false
  | sint _ => true

def all : List Scalar :=
  [char, int, sizeT, uint .w8, uint .w16, uint .w32, uint .w64, sint .w8, sint .w16, sint .w32,
    sint .w64]

/-- The type with that text. -/
def named (t : List Char) : Option Scalar := all.find? fun s => s.text = t

end Scalar

variable {ι : Type}

/-- The classes of the states of a program, the last declared first. -/
structure Program (ι : Type) where
  states : List (List Char × Declared ι)
  nodup : (states.map Prod.fst).Nodup
  typed : ∀ name ∈ states.map Prod.fst, Scalar.named name = none

/-- The type is built from scalar types, arrays, and states that are declared before. -/
def Built : List (List Char × Declared ι) → List Char → Prop
  | [], t => (Scalar.named t).isSome
  | (name, d) :: states, t =>
    if t = name then ∀ f ∈ d.fields, Built states f.type else Built states t

/-- A packed state type for packet headers, in its program. -/
structure Header (ι : Type) extends Program ι where
  type : List Char
  declared : type ∈ states.map Prod.fst
  built : Built states type

/-- `g.states`. -/
def Program.dict (P : Program ι) : List (List Char × State ι) :=
  P.states.map fun s => (s.1, declare s.2)

/-! ## The code -/

/-- `sizeof_dict`. -/
def sizeofDict : List (List Char × ℕ) :=
  [("int".toList, 4), ("char".toList, 4), ("uint8_t".toList, 1), ("uint16_t".toList, 2),
    ("uint32_t".toList, 4), ("uint64_t".toList, 8), ("size_t".toList, 8),
    ("uintptr_t".toList, 8), ("float".toList, 4), ("double".toList, 8)]

/-- `sizeof`; `none` when an exception is raised. -/
def sizeof (t : List Char) : Option ℕ :=
  if t.getLast? = some '*' then some 8 else sizeofDict.lookup t

/-- `get_all_types_fields`: the types and the texts of the fields.  The fuel is for the
nesting. -/
def getAllTypesFields (states : List (List Char × State ι)) :
    ℕ → List Char → List Char → Option (List (List Char × List Char))
  | 0, _, _ => none
  | n + 1, stateName, pre =>
    match states.lookup stateName with
    | some state =>
      (state.fields.mapM fun field =>
        match state.mapping.lookup field with
        | some t => getAllTypesFields states n t (pre ++ field ++ ['.'])
        | none => some []).map List.flatten
    | none => some [(stateName, pre.dropLast)]

/-- What the loop over the fields adds for one of them. -/
def fieldTypes (states : List (List Char × State ι)) (n : ℕ) (pre : List Char)
    (mapping : List (List Char × List Char)) (field : List Char) :
    Option (List (List Char × List Char)) :=
  match mapping.lookup field with
  | some t => getAllTypesFields states n t (pre ++ field ++ ['.'])
  | none => some []

theorem getAllTypesFields_state {states : List (List Char × State ι)} {stateName : List Char}
    {state : State ι} (h : states.lookup stateName = some state) (n : ℕ) (pre : List Char) :
    getAllTypesFields states (n + 1) stateName pre =
      (state.fields.mapM (fieldTypes states n pre state.mapping)).map List.flatten := by
  rw [getAllTypesFields, h]
  rfl

/-- The functions that are called. -/
inductive Fn
  | htons | htonl | htonp
  deriving DecidableEq, Repr

def Fn.text : Fn → List Char
  | htons => "htons".toList
  | htonl => "htonl".toList
  | htonp => "htonp".toList

/-- `size2convert`, where it is used. -/
def size2convert : ℕ → Option Fn
  | 2 => some .htons
  | 4 => some .htonl
  | 8 => some .htonp
  | _ => none

/-- A statement of the generated code, `field = fn(field);`. -/
structure Stmt where
  field : List Char
  fn : Fn
  deriving DecidableEq, Repr

def Stmt.text (s : Stmt) : List Char :=
  "  ".toList ++ s.field ++ " = ".toList ++ s.fn.text ++ "(".toList ++ s.field ++ ");\n".toList

/-- The body of the loop: nothing is written when the size is not known. -/
def convert (type field : List Char) : Option Stmt := do
  let size ← sizeof type
  let fn ← size2convert size
  return ⟨field, fn⟩

/-- The code of an element: written by the user, or generated for a header. -/
inductive Code
  | text (s : List Char)
  | hton (stateName : List Char) (stmts : List Stmt)

def Code.source : Code → List Char
  | text s => s
  | hton stateName stmts =>
    "  (size_t size, void* pkt, void* buf) = inp();\n  ".toList ++ stateName ++ "* p = (".toList
      ++ stateName ++ "*) pkt;\n".toList ++ stmts.flatMap Stmt.text

/-- An element, with the state it is special for if it is an `HTON`. -/
structure Element where
  name : List Char
  special : Option (List Char)
  code : Code

inductive Device
  | cpu | cavium
  deriving DecidableEq, Repr

structure Instance where
  element : Element
  thread : Option (List Char)

structure Graph (ι : Type) where
  instances : List (List Char × Instance)
  states : List (List Char × State ι)
  thread2device : List (List Char × Device)

/-- `is_on_CPU`. -/
def isOnCPU (g : Graph ι) (inst : Instance) : Bool :=
  match inst.thread.bind fun t => g.thread2device.lookup t with
  | some d => decide (d = .cpu)
  | none => true

/-- `hton_instance`. -/
def htonInstance (g : Graph ι) (inst : Instance) (stateName : List Char) : Option Instance := do
  let typesFields ← getAllTypesFields g.states (g.states.length + 1) stateName "p->".toList
  let stmts := typesFields.filterMap fun tf => convert tf.1 tf.2
  let element := inst.element
  return { inst with element :=
    { element with name := element.name ++ '_' :: stateName, code := .hton stateName stmts } }

/-- The body of the loop of `hton_pass`. -/
def visit (g : Graph ι) (inst : Instance) : Option Instance :=
  match inst.element.special with
  | some stateName => if isOnCPU g inst then htonInstance g inst stateName else some inst
  | none => some inst

/-- `hton_pass`. -/
def htonPass (g : Graph ι) : Option (Graph ι) := do
  let instances ← g.instances.mapM fun i => (visit g i.2).map (i.1, ·)
  return { g with instances }

/-! ## Headers in memory -/

section Layout

-- The values of the constants in the sizes of arrays.
variable (const : List Char → ℕ)

/-- The members of an array.  One without a size has none that belong to the struct. -/
def members : Size → ℕ
  | .unknown => 0
  | .number n => n
  | .named text _ => const text
  | .dims d ds => (d :: ds).prod

/-- How often the type of a field is there. -/
def count (f : Compress.Field ι) : ℕ := f.size.elim 1 (members const)

/-- The bytes of a type.  Structs are packed. -/
def bytesOf : List (List Char × Declared ι) → List Char → ℕ
  | [], t => (Scalar.named t).elim 0 Scalar.bytes
  | (name, d) :: states, t =>
    if t = name then (d.fields.map fun f => count const f * bytesOf states f.type).sum
    else bytesOf states t

/-- A scalar in a header: the names of the fields that lead to it, unless it is in an array,
and where it is. -/
structure Leaf where
  path : Option (List (List Char))
  offset : ℕ
  scalar : Scalar
  deriving DecidableEq

def Leaf.bytes (l : Leaf) : ℕ := l.scalar.bytes

/-- The leaf of a field that is behind other bytes. -/
def Leaf.inField (name : List Char) (off : ℕ) (l : Leaf) : Leaf :=
  { l with path := l.path.map (name :: ·), offset := off + l.offset }

/-- The leaf of a member of an array. -/
def Leaf.inArray (off : ℕ) (l : Leaf) : Leaf :=
  { l with path := none, offset := off + l.offset }

/-- The leaves of one field. -/
def fieldLeaves (leaves : List Char → List Leaf) (size : List Char → ℕ) (off : ℕ)
    (f : Compress.Field ι) : List Leaf :=
  match f.size with
  | none => (leaves f.type).map (Leaf.inField f.name off)
  | some n => (List.range (members const n)).flatMap fun i =>
      (leaves f.type).map (Leaf.inArray (off + i * size f.type))

/-- The leaves of the fields from an offset on. -/
def fieldsLeaves (leaves : List Char → List Leaf) (size : List Char → ℕ) :
    ℕ → List (Compress.Field ι) → List Leaf
  | _, [] => []
  | off, f :: fs => fieldLeaves const leaves size off f ++
      fieldsLeaves leaves size (off + count const f * size f.type) fs

/-- The leaves of a type. -/
def leaves : List (List Char × Declared ι) → List Char → List Leaf
  | [], t => (Scalar.named t).elim [] fun s => [⟨some [], 0, s⟩]
  | (name, d) :: states, t =>
    if t = name then fieldsLeaves const (leaves states) (bytesOf const states) 0 d.fields
    else leaves states t

/-! ## What the generated code does -/

/-- The member of a struct with that name, and where it is; no array can be assigned to. -/
def member (size : List Char → ℕ) (name : List Char) :
    ℕ → List (Compress.Field ι) → Option (ℕ × Compress.Field ι)
  | _, [] => none
  | off, f :: fs =>
    if f.name = name then (if f.size.isSome then none else some (off, f))
    else member size name (off + count const f * size f.type) fs

/-- The scalar that the names lead to. -/
def locate : List (List Char × Declared ι) → List Char → List (List Char) →
    Option (ℕ × Scalar)
  | [], t, path => if path = [] then (Scalar.named t).map (0, ·) else none
  | (name, d) :: states, t, path =>
    if t = name then do
      let x ← path.head?
      let (off, f) ← member const (bytesOf const states) x 0 d.fields
      let (inner, s) ← locate states f.type path.tail
      return (off + inner, s)
    else locate states t path

/-- The names in an expression `p->a.b.c`. -/
def names (field : List Char) : Option (List (List Char)) :=
  (literal "p->".toList field).map (List.splitOn '.')

/-- A value in another number of bytes, the least significant first. -/
def resize (k : ℕ) (signed : Bool) (value : List UInt8) : List UInt8 :=
  let negative := signed && value.getLast?.any (128 ≤ ·)
  value.take k ++ List.replicate (k - value.length) (if negative then 255 else 0)

/-- The bytes of the argument and of the result. -/
def Fn.bytes : Fn → ℕ
  | htons => 2
  | htonl => 4
  | htonp => 8

/-- What the functions return; the least significant byte is the first in memory. -/
def Fn.call : Fn → List UInt8 → List UInt8
  | htons, value => value.reverse
  | htonl, value => value.reverse
  | htonp, value => value.reverse

/-- The value that is assigned to a variable of the type. -/
def assigned (fn : Fn) (s : Scalar) (value : List UInt8) : List UInt8 :=
  resize s.bytes false (fn.call (resize fn.bytes s.signed value))

/-- The bytes at an address. -/
def load (m : ℕ → UInt8) (addr n : ℕ) : List UInt8 := (List.range n).map fun i => m (addr + i)

/-- Write bytes to an address. -/
def store (m : ℕ → UInt8) (addr : ℕ) (value : List UInt8) : ℕ → UInt8 :=
  fun a => if addr ≤ a then (value[a - addr]?).getD (m a) else m a

/-- One statement, where `p` points to the header; `none` if it means nothing. -/
def exec (states : List (List Char × Declared ι)) (type : List Char) (p : ℕ) (m : ℕ → UInt8)
    (stmt : Stmt) : Option (ℕ → UInt8) := do
  let path ← names stmt.field
  let (off, s) ← locate const states type path
  return store m (p + off) (assigned stmt.fn s (load m (p + off) s.bytes))

end Layout

/-! ## What it is for -/

namespace Header

variable (h : Header ι) (const : List Char → ℕ)

/-- The scalars in the header. -/
def leaves : List Leaf := Hton.leaves const h.states h.type

/-- The bytes of the header. -/
def size : ℕ := bytesOf const h.states h.type

/-- The bytes of every scalar are in the other order, and the bytes around the header are what
they were. -/
def Reversed (p : ℕ) (m m' : ℕ → UInt8) : Prop :=
  (∀ l ∈ h.leaves const, ∀ i < l.bytes,
    m' (p + l.offset + i) = m (p + l.offset + (l.bytes - 1 - i))) ∧
  ∀ a, a < p ∨ p + h.size const ≤ a → m' a = m a

/-- **The conversion is complete and its own inverse**: the pass gives an element on the CPU
code that, wherever the header is, reverses the bytes of its scalars and nothing else, and
restores the memory when it runs once more. -/
def Converts : Prop :=
  ∀ (g : Graph ι) (inst : Instance), g.states = h.dict → inst.element.special = some h.type →
    isOnCPU g inst = true → ∃ inst' stmts, visit g inst = some inst' ∧
      inst'.element.code = .hton h.type stmts ∧
      ∀ p m, ∃ m', run (exec const h.states h.type p) m stmts = some m' ∧ h.Reversed const p m m' ∧
        run (exec const h.states h.type p) m' stmts = some m

/-- What the pass can convert: outside arrays there is no `char`, and no signed integer of
two bytes or more but `int`; in the arrays there are only single bytes. -/
def Plain : Prop :=
  ∀ l ∈ h.leaves const,
    if l.path.isSome then l.scalar ∉ [.char, .sint .w16, .sint .w32, .sint .w64]
    else l.bytes = 1

instance : Decidable (h.Plain const) :=
  inferInstanceAs (Decidable (∀ l ∈ h.leaves const, _))

end Header

end Hton
end Floem
