import Mathlib

/-!
# Queue entries in memory

The header `q_entry` of `floem/include/queue.h`, laid out in byte-addressed
memory: `flag`, `task`, a 16-bit `len`, `checksum` and `pad`, packed into the
first six bytes of a slot, with the content behind it.

* `Mem` — memory as a function from addresses to bytes, `Mem.set` one store.
* `Mem.flag`, `Mem.setFlag`, … — the accessors of the header fields.
* `Mem.content` — what an enqueuer hands to a dequeuer: the `task` byte and the
  bytes behind the header, up to the end of the slot.
* `frame` lemmas — a header store changes no byte outside the header it is for,
  so the headers and contents of other slots stay as they are.
-/

namespace Floem
namespace Queue

/-! ## Flags -/

/-- `FLAG_INUSE`: an end of the queue is working on the entry. -/
def FLAG_INUSE : UInt8 := 4

/-- `FLAG_CLEAN`: the entry was released and waits for the clean function. -/
def FLAG_CLEAN : UInt8 := 2

/-- `FLAG_OWN`: the entry was submitted and belongs to the dequeuer. -/
def FLAG_OWN : UInt8 := 1

/-- `sizeof(q_entry)`, the packed header. -/
def headerSize : ℕ := 6

/-! ## Memory -/

/-- Byte-addressed memory. -/
abbrev Mem := ℕ → UInt8

namespace Mem

/-- Store one byte. -/
def set (m : Mem) (a : ℕ) (b : UInt8) : Mem := fun x => if x = a then b else m x

@[simp] theorem set_self (m : Mem) (a : ℕ) (b : UInt8) : m.set a b a = b := if_pos rfl

theorem set_of_ne (m : Mem) {a x : ℕ} (b : UInt8) (h : x ≠ a) : m.set a b x = m x := if_neg h

/-! ## Header fields -/

/-- `e->flag`. -/
def flag (m : Mem) (e : ℕ) : UInt8 := m e

/-- `e->task`. -/
def task (m : Mem) (e : ℕ) : UInt8 := m (e + 1)

/-- `e->len`, a little-endian 16-bit word. -/
def len (m : Mem) (e : ℕ) : ℕ := (m (e + 2)).toNat + 256 * (m (e + 3)).toNat

/-- `e->checksum`. -/
def checksum (m : Mem) (e : ℕ) : UInt8 := m (e + 4)

/-- `e->pad`. -/
def pad (m : Mem) (e : ℕ) : UInt8 := m (e + 5)

def setFlag (m : Mem) (e : ℕ) (v : UInt8) : Mem := m.set e v

def setTask (m : Mem) (e : ℕ) (v : UInt8) : Mem := m.set (e + 1) v

/-- `e->len = n`: the assignment to a `uint16_t` keeps `n` modulo `2^16`. -/
def setLen (m : Mem) (e n : ℕ) : Mem :=
  (m.set (e + 2) (UInt8.ofNat n)).set (e + 3) (UInt8.ofNat (n / 256))

def setChecksum (m : Mem) (e : ℕ) (v : UInt8) : Mem := m.set (e + 4) v

def setPad (m : Mem) (e : ℕ) (v : UInt8) : Mem := m.set (e + 5) v

/-- The content of the slot at `e`: the `task` byte and the bytes behind the
header, in a slot of `size` bytes. -/
def content (m : Mem) (size e : ℕ) : UInt8 × List UInt8 :=
  (m.task e, (List.range (size - headerSize)).map fun i => m (e + headerSize + i))

/-- The `xor` of the `n` bytes from `e` on, as the checksum loops compute it. -/
def xorBytes (m : Mem) (e n : ℕ) : UInt8 :=
  (List.range n).foldl (fun c i => c ^^^ m (e + i)) 0

/-! ## What a store reads back as -/

@[simp] theorem flag_setFlag (m : Mem) (e : ℕ) (v : UInt8) : (m.setFlag e v).flag e = v :=
  set_self m e v

@[simp] theorem pad_setPad (m : Mem) (e : ℕ) (v : UInt8) : (m.setPad e v).pad e = v :=
  set_self m (e + 5) v

/-- **The length word is read back modulo `2^16`.** -/
theorem len_setLen (m : Mem) (e n : ℕ) : (m.setLen e n).len e = n % 65536 := by
  have h2 : m.setLen e n (e + 2) = UInt8.ofNat n := by
    rw [setLen, set_of_ne _ _ (by omega), set_self]
  have h3 : m.setLen e n (e + 3) = UInt8.ofNat (n / 256) := set_self _ _ _
  rw [len, h2, h3, UInt8.toNat_ofNat', UInt8.toNat_ofNat']
  omega

@[simp] theorem flag_setTask (m : Mem) (e : ℕ) (v : UInt8) : (m.setTask e v).flag e = m.flag e :=
  set_of_ne m v (by omega)

@[simp] theorem flag_setLen (m : Mem) (e n : ℕ) : (m.setLen e n).flag e = m.flag e := by
  rw [flag, setLen, set_of_ne _ _ (by omega), set_of_ne _ _ (by omega), flag]

@[simp] theorem flag_setChecksum (m : Mem) (e : ℕ) (v : UInt8) :
    (m.setChecksum e v).flag e = m.flag e := set_of_ne m v (by omega)

@[simp] theorem flag_setPad (m : Mem) (e : ℕ) (v : UInt8) : (m.setPad e v).flag e = m.flag e :=
  set_of_ne m v (by omega)

@[simp] theorem pad_setChecksum (m : Mem) (e : ℕ) (v : UInt8) :
    (m.setChecksum e v).pad e = m.pad e := set_of_ne m v (by omega)

@[simp] theorem pad_setFlag (m : Mem) (e : ℕ) (v : UInt8) : (m.setFlag e v).pad e = m.pad e :=
  set_of_ne m v (by omega)

@[simp] theorem len_setFlag (m : Mem) (e : ℕ) (v : UInt8) : (m.setFlag e v).len e = m.len e := by
  rw [len, setFlag, set_of_ne _ _ (by omega), set_of_ne _ _ (by omega), len]

@[simp] theorem len_setTask (m : Mem) (e : ℕ) (v : UInt8) : (m.setTask e v).len e = m.len e := by
  rw [len, setTask, set_of_ne _ _ (by omega), set_of_ne _ _ (by omega), len]

@[simp] theorem len_setChecksum (m : Mem) (e : ℕ) (v : UInt8) :
    (m.setChecksum e v).len e = m.len e := by
  rw [len, setChecksum, set_of_ne _ _ (by omega), set_of_ne _ _ (by omega), len]

@[simp] theorem len_setPad (m : Mem) (e : ℕ) (v : UInt8) : (m.setPad e v).len e = m.len e := by
  rw [len, setPad, set_of_ne _ _ (by omega), set_of_ne _ _ (by omega), len]

/-- The flag is no part of the content. -/
@[simp] theorem content_setFlag (m : Mem) (size e : ℕ) (v : UInt8) :
    (m.setFlag e v).content size e = m.content size e := by
  refine Prod.ext (set_of_ne m v (by omega)) (List.map_congr_left fun i _ => ?_)
  exact set_of_ne m v (by rw [headerSize]; omega)

/-! ## Frames -/

/-- Two memories agree on the slot of `size` bytes at `e`. -/
def AgreeOn (size e : ℕ) (m m' : Mem) : Prop := ∀ x, e ≤ x → x < e + size → m' x = m x

theorem AgreeOn.refl (size e : ℕ) (m : Mem) : AgreeOn size e m m := fun _ _ _ => rfl

theorem AgreeOn.trans {size e : ℕ} {m₁ m₂ m₃ : Mem} (h₁ : AgreeOn size e m₁ m₂)
    (h₂ : AgreeOn size e m₂ m₃) : AgreeOn size e m₁ m₃ :=
  fun x hx hx' => (h₂ x hx hx').trans (h₁ x hx hx')

/-- A memory change that stays inside the slot of `size` bytes at `a`. -/
def ChangesOnly (size a : ℕ) (m m' : Mem) : Prop := ∀ x, x < a ∨ a + size ≤ x → m' x = m x

theorem ChangesOnly.refl (size a : ℕ) (m : Mem) : ChangesOnly size a m m := fun _ _ => rfl

theorem ChangesOnly.trans {size a : ℕ} {m₁ m₂ m₃ : Mem} (h₁ : ChangesOnly size a m₁ m₂)
    (h₂ : ChangesOnly size a m₂ m₃) : ChangesOnly size a m₁ m₃ :=
  fun x hx => (h₂ x hx).trans (h₁ x hx)

theorem changesOnly_set {size a x : ℕ} (m : Mem) (b : UInt8) (h : a ≤ x) (h' : x < a + size) :
    ChangesOnly size a m (m.set x b) := fun y hy => set_of_ne m b (by omega)

/-- A change inside one slot is invisible in a slot that does not meet it. -/
theorem ChangesOnly.agreeOn {size e a : ℕ} {m m' : Mem} (h : ChangesOnly size a m m')
    (hdisj : e + size ≤ a ∨ a + size ≤ e) : AgreeOn size e m m' :=
  fun x hx hx' => h x (by omega)

section Agree

variable {size e : ℕ} {m m' : Mem}

/-- Memories that agree on a slot show the same flag there. -/
theorem AgreeOn.flag_eq (h : AgreeOn size e m m') (hsize : headerSize ≤ size) :
    m'.flag e = m.flag e := by
  rw [headerSize] at hsize
  exact h e (by omega) (by omega)

theorem AgreeOn.pad_eq (h : AgreeOn size e m m') (hsize : headerSize ≤ size) :
    m'.pad e = m.pad e := by
  rw [headerSize] at hsize
  exact h (e + 5) (by omega) (by omega)

theorem AgreeOn.len_eq (h : AgreeOn size e m m') (hsize : headerSize ≤ size) :
    m'.len e = m.len e := by
  rw [headerSize] at hsize
  rw [len, len, h (e + 2) (by omega) (by omega), h (e + 3) (by omega) (by omega)]

theorem AgreeOn.content_eq (h : AgreeOn size e m m') (hsize : headerSize ≤ size) :
    m'.content size e = m.content size e := by
  rw [headerSize] at hsize
  refine Prod.ext (h (e + 1) (by omega) (by omega)) (List.map_congr_left fun i hi => ?_)
  rw [List.mem_range, headerSize] at hi
  exact h _ (by rw [headerSize]; omega) (by rw [headerSize]; omega)

end Agree

end Mem

end Queue
end Floem
