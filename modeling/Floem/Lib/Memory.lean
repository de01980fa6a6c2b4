import Mathlib
import Floem.Lib.Words

/-!
# Words in a memory of bytes

* `load`, `store` — the word of `n` bytes at an address, the least significant byte first.
* `load_store_self`, `load_store_of_disjoint` — a word that was stored is loaded again, and
  words at other places stay.
-/

namespace Floem
namespace Lib

/-- The word of `n` bytes at `a`. -/
def load (mem : ℕ → UInt8) (a n : ℕ) : ℕ := leNat ((List.range n).map fun i => mem (a + i))

/-- What of `x` fits into `n` bytes, stored at `a`. -/
def store (mem : ℕ → UInt8) (a n x : ℕ) : ℕ → UInt8 := fun b =>
  if a ≤ b then (leBytes n x)[b - a]?.getD (mem b) else mem b

variable {mem mem' : ℕ → UInt8} {a b n m x : ℕ}

theorem load_congr (h : ∀ i < n, mem' (a + i) = mem (a + i)) : load mem' a n = load mem a n := by
  rw [load, load]
  congr 1
  exact List.map_congr_left fun i hi => h i (List.mem_range.1 hi)

theorem store_of_notMem (h : b < a ∨ a + n ≤ b) : store mem a n x b = mem b := by
  rw [store]
  split_ifs with hab
  · have hnone : (leBytes n x)[b - a]? = none := by
      rw [List.getElem?_eq_none_iff, length_leBytes]
      omega
    rw [hnone, Option.getD_none]
  · rfl

theorem load_store_self : load (store mem a n x) a n = x % 256 ^ n := by
  have hbytes : (List.range n).map (fun i => store mem a n x (a + i)) = leBytes n x := by
    refine List.ext_getElem (by simp) fun i hi hi' => ?_
    rw [List.getElem_map, List.getElem_range, store, if_pos (Nat.le_add_right a i),
      Nat.add_sub_cancel_left, List.getElem?_eq_getElem hi', Option.getD_some]
  rw [load, hbytes, leNat_leBytes]

theorem load_store_of_disjoint (h : b + m ≤ a ∨ a + n ≤ b) :
    load (store mem a n x) b m = load mem b m :=
  load_congr fun i hi => store_of_notMem (by omega)

end Lib
end Floem
