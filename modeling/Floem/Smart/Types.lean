import Floem.Lib.Words

/-!
# Types and byte order

* `CType` — the types of fields; `sizeof` is the function of `floem/common.py`, `cSize`
  is the size the C compiler gives a scalar type.
* `Conv` — the functions `nic_htons`, `nic_htonl` and `nic_htonp`, applied to a value of
  any type with C's implicit conversions of the argument and of the result.
* `Device` — the NIC stores a value with the opposite byte order.
-/

namespace Floem
namespace Smart

open Lib

/-- The types of the fields of a state. -/
inductive CType
  | int | char | unsignedInt | sizeT | uint8 | uint16 | uint32 | uint64 | uintptr | bool
  | float | double
  | void
  | state (name : String)
  | pointer (t : CType)
  deriving DecidableEq

namespace CType

/-- `current_type.rstrip('*')` -/
def strip : CType → CType
  | .pointer t => strip t
  | t => t

/-- `sizeof` of `floem/common.py`: 8 for pointers, else a look-up in `sizeof_dict`;
`none` is `UnkownType`. -/
def sizeof : CType → Option ℕ
  | .pointer _ => some 8
  | .int => some 4
  | .char => some 4
  | .uint8 => some 1
  | .uint16 => some 2
  | .uint32 => some 4
  | .uint64 => some 8
  | .sizeT => some 8
  | .uintptr => some 8
  | .float => some 4
  | .double => some 8
  | _ => none

/-- The size of a value in C. -/
def cSize : CType → ℕ
  | .int => 4
  | .unsignedInt => 4
  | .uint32 => 4
  | .float => 4
  | .uint16 => 2
  | .sizeT => 8
  | .uint64 => 8
  | .uintptr => 8
  | .double => 8
  | .pointer _ => 8
  | _ => 1

/-- The name of the type. -/
def text : CType → List Char
  | .int => "int".toList
  | .char => "char".toList
  | .unsignedInt => "unsigned int".toList
  | .sizeT => "size_t".toList
  | .uint8 => "uint8_t".toList
  | .uint16 => "uint16_t".toList
  | .uint32 => "uint32_t".toList
  | .uint64 => "uint64_t".toList
  | .uintptr => "uintptr_t".toList
  | .bool => "bool".toList
  | .float => "float".toList
  | .double => "double".toList
  | .void => "void".toList
  | .state name => name.toList
  | .pointer t => t.text ++ ['*']

/-- `common.is_pointer` -/
def isPointer : CType → Bool
  | .pointer _ => true
  | _ => false

/-- The scalar and pointer types. -/
def IsScalar : CType → Prop
  | .void => False
  | .state _ => False
  | _ => True

/-- The conversion of a value to an unsigned integer of `n` bytes; `none` where C leaves
it undefined. -/
def toUnsigned (n : ℕ) (t : CType) (v : List UInt8) : Option (List UInt8) :=
  match t with
  | .float => (binary32.toUnsigned (8 * n) (leNat v)).map (leBytes n)
  | .double => (binary64.toUnsigned (8 * n) (leNat v)).map (leBytes n)
  | .int => some (resize n true v)
  | .char => some (resize n true v)
  | _ => some (resize n false v)

/-- The conversion of an unsigned integer to a value of the type. -/
def ofUnsigned (t : CType) (w : List UInt8) : List UInt8 :=
  match t with
  | .float => leBytes 4 (binary32.ofUnsigned (leNat w))
  | .double => leBytes 8 (binary64.ofUnsigned (leNat w))
  | .bool => [if leNat w = 0 then 0 else 1]
  | t => resize t.cSize false w

end CType

/-- The conversion a value gets: nothing, or one of the functions of `floem-util.c`. -/
inductive Conv
  | plain | htons | htonl | htonp
  deriving DecidableEq

/-- The size of the argument of a function that turns the bytes of its argument round. -/
def Conv.width : Conv → Option ℕ
  | .plain => none
  | .htons => some 2
  | .htonl => some 4
  | .htonp => some 8

/-- The conversion of a value of type `t`. -/
def Conv.apply (conv : Conv) (t : CType) (v : List UInt8) : Option (List UInt8) :=
  match conv.width with
  | none => some v
  | some n => (t.toUnsigned n v).map fun w => t.ofUnsigned w.reverse

def Conv.text : Conv → List Char
  | .plain => []
  | .htons => "nic_htons".toList
  | .htonl => "nic_htonl".toList
  | .htonp => "nic_htonp".toList

@[simp] theorem Conv.apply_plain (t : CType) (v : List UInt8) :
    Conv.plain.apply t v = some v := rfl

/-- `size2convert[sizeof(t)]`, and nothing for an unknown type. -/
def CType.convert (reverse : Bool) (t : CType) : Conv :=
  if reverse then
    match t.sizeof with
    | some 2 => .htons
    | some 4 => .htonl
    | some 8 => .htonp
    | _ => .plain
  else .plain

@[simp] theorem CType.convert_false (t : CType) : t.convert false = .plain := rfl

/-! ## Byte order -/

inductive Device
  | cpu | nic
  deriving DecidableEq

theorem Device.cpu_to_nic : ¬ (Device.cpu = .nic ∧ Device.nic = .nic) := by decide

theorem Device.eq_cpu {d : Device} (h : d ≠ .nic) : d = .cpu := by
  cases d
  · rfl
  · exact absurd rfl h

/-- The bytes in memory of a value, and the value of bytes in memory. -/
def Device.order : Device → List UInt8 → List UInt8
  | .cpu, v => v
  | .nic, v => v.reverse

@[simp] theorem Device.order_order (d : Device) (v : List UInt8) : d.order (d.order v) = v := by
  cases d
  · rfl
  · exact v.reverse_reverse

/-! ## Values that a change of byte order keeps -/

/-- The types for which the function `sizeof` chooses turns round all bytes of the value:
`char` has one byte and is taken for four, the value of a floating-point number is
converted to an integer, and `unsigned int` is unknown. -/
def CType.Swaps : CType → Prop
  | .char => False
  | .unsignedInt => False
  | .float => False
  | .double => False
  | t => t.IsScalar

/-- **The functions turn round the bytes of a value**, for these types. -/
theorem CType.Swaps.apply {t : CType} (h : t.Swaps) {v : List UInt8} (hv : v.length = t.cSize) :
    (t.convert true).apply t v = some v.reverse := by
  have hrev : v.reverse.length = t.cSize := by rw [List.length_reverse, hv]
  cases t with
  | char => exact h.elim
  | unsignedInt => exact h.elim
  | float => exact h.elim
  | double => exact h.elim
  | void => exact h.elim
  | state name => exact h.elim
  | uint8 =>
      obtain ⟨b, rfl⟩ := List.length_eq_one_iff.1 hv
      rfl
  | bool =>
      obtain ⟨b, rfl⟩ := List.length_eq_one_iff.1 hv
      rfl
  | _ =>
      simp only [cSize] at hv hrev
      simp [convert, sizeof, cSize, Conv.apply, Conv.width, toUnsigned, ofUnsigned,
        resize_of_length hv, resize_of_length hrev]

/-- **No other scalar type is kept**, neither when the producer turns the value round
nor when the consumer does. -/
theorem CType.exists_not_swapped {t : CType} (hscalar : t.IsScalar) (h : ¬ t.Swaps) :
    ∃ v : List UInt8, v.length = t.cSize ∧
      ((t.convert true).apply t v).map List.reverse ≠ some v ∧
      (t.convert true).apply t v.reverse ≠ some v := by
  cases t with
  | char => exact ⟨[1], rfl, by decide +kernel, by decide +kernel⟩
  | unsignedInt => exact ⟨[1, 0, 0, 0], rfl, by decide +kernel, by decide +kernel⟩
  | float => exact ⟨[0, 0, 128, 63], rfl, by decide +kernel, by decide +kernel⟩
  | double => exact ⟨[0, 0, 0, 0, 0, 0, 240, 63], rfl, by decide +kernel, by decide +kernel⟩
  | void => exact hscalar.elim
  | state name => exact hscalar.elim
  | _ => exact absurd trivial h

end Smart
end Floem
