import Mathlib

/-!
# Pieces one behind the other

A list of pieces of memory, each with a start and a length, that covers an interval without
gaps.

* `Tiles` — the list covers the interval, in order.
* `LocalUpdate` — a change of one piece that looks at nothing but that piece.
* `foldl_inside`, `foldl_outside` — changes of all pieces, one after the other, are made
  as if each were alone.
-/

namespace Floem
namespace Lib

variable {β γ V : Type*}

/-- The pieces lie one behind the other from `a` to `b`. -/
def Tiles (start len : β → ℕ) : ℕ → List β → ℕ → Prop
  | a, [], b => a = b
  | a, x :: l, b => start x = a ∧ Tiles start len (a + len x) l b

namespace Tiles

variable {start len : β → ℕ} {a b c : ℕ} {l l' : List β}

theorem append (h : Tiles start len a l b) (h' : Tiles start len b l' c) :
    Tiles start len a (l ++ l') c := by
  induction l generalizing a with
  | nil =>
      obtain rfl : a = b := h
      exact h'
  | cons x l ih => exact ⟨h.1, ih h.2⟩

/-- The same pieces somewhere else. -/
theorem map {start' len' : γ → ℕ} {f : β → γ} {k : ℕ} (hstart : ∀ x, start' (f x) = k + start x)
    (hlen : ∀ x, len' (f x) = len x) (h : Tiles start len a l b) :
    Tiles start' len' (k + a) (l.map f) (k + b) := by
  induction l generalizing a with
  | nil => exact congrArg (k + ·) h
  | cons x l ih =>
      refine ⟨by rw [hstart, h.1], ?_⟩
      rw [hlen, Nat.add_assoc]
      exact ih h.2

theorem shift (k : ℕ) (h : Tiles start len a l b) :
    Tiles (fun x => k + start x) len (k + a) l (k + b) := by
  rw [← List.map_id l]
  exact h.map (fun _ => rfl) fun _ => rfl

/-- Several copies. -/
theorem flatMap_range {f : ℕ → List β} {size : ℕ} (n : ℕ)
    (h : ∀ i < n, Tiles start len (a + i * size) (f i) (a + i * size + size)) :
    Tiles start len a ((List.range n).flatMap f) (a + n * size) := by
  induction n with
  | zero => exact (Nat.add_eq_left.2 (Nat.zero_mul size)).symm
  | succ n ih =>
      rw [List.range_succ, List.flatMap_append, List.flatMap_singleton, Nat.succ_mul,
        ← Nat.add_assoc]
      exact (ih fun i hi => h i (Nat.lt_succ_of_lt hi)).append (h n (Nat.lt_succ_self n))

theorem le (h : Tiles start len a l b) : a ≤ b := by
  induction l generalizing a with
  | nil => exact Nat.le_of_eq h
  | cons x l ih => exact Nat.le_trans (Nat.le_add_right a (len x)) (ih h.2)

theorem mem (h : Tiles start len a l b) {x : β} (hx : x ∈ l) :
    a ≤ start x ∧ start x + len x ≤ b := by
  induction l generalizing a with
  | nil => cases hx
  | cons y l ih =>
      obtain ⟨rfl, htail⟩ := h
      rcases List.mem_cons.1 hx with rfl | hx
      · exact ⟨Nat.le_refl _, htail.le⟩
      · exact ⟨Nat.le_trans (Nat.le_add_right _ _) (ih htail hx).1, (ih htail hx).2⟩

/-- Every place is in one of the pieces. -/
theorem cover (h : Tiles start len a l b) {y : ℕ} (hay : a ≤ y) (hyb : y < b) :
    ∃ x ∈ l, start x ≤ y ∧ y < start x + len x := by
  induction l generalizing a with
  | nil =>
      obtain rfl : a = b := h
      omega
  | cons x l ih =>
      obtain ⟨rfl, htail⟩ := h
      by_cases hy : y < start x + len x
      · exact ⟨x, List.mem_cons_self, hay, hy⟩
      · obtain ⟨z, hz, hin⟩ := ih htail (Nat.le_of_not_lt hy)
        exact ⟨z, List.mem_cons_of_mem x hz, hin⟩

end Tiles

/-- A change of the piece `x` that depends on what is in the piece. -/
structure LocalUpdate (start len : β → ℕ) (f : β → (ℕ → V) → ℕ → V) : Prop where
  outside : ∀ x m y, y < start x ∨ start x + len x ≤ y → f x m y = m y
  inside : ∀ x m m' y, (∀ z, start x ≤ z → z < start x + len x → m z = m' z) →
    start x ≤ y → y < start x + len x → f x m y = f x m' y

namespace LocalUpdate

variable {start len : β → ℕ} {f : β → (ℕ → V) → ℕ → V} (hf : LocalUpdate start len f)
  {a b : ℕ} {l : List β} (h : Tiles start len a l b) (m : ℕ → V) {y : ℕ}

include hf h

theorem foldl_outside (hy : y < a ∨ b ≤ y) : l.foldl (fun m x => f x m) m y = m y := by
  induction l generalizing a m with
  | nil => rfl
  | cons x l ih =>
      obtain ⟨rfl, htail⟩ := h
      have hle := htail.le
      rw [List.foldl_cons, ih htail (f x m) (by omega)]
      exact hf.outside x m y (by omega)

/-- **Every piece is changed as if it were alone.** -/
theorem foldl_inside {x : β} (hx : x ∈ l) (hstart : start x ≤ y) (hend : y < start x + len x) :
    l.foldl (fun m x => f x m) m y = f x m y := by
  induction l generalizing a m with
  | nil => cases hx
  | cons z l ih =>
      obtain ⟨rfl, htail⟩ := h
      rw [List.foldl_cons]
      rcases List.mem_cons.1 hx with rfl | hx
      · exact hf.foldl_outside htail (f x m) (Or.inl hend)
      · have hbehind := (htail.mem hx).1
        rw [ih htail (f z m) hx]
        refine hf.inside x _ _ y (fun w hw _ => ?_) hstart hend
        exact hf.outside z m w (Or.inr (Nat.le_trans hbehind hw))

end LocalUpdate

end Lib
end Floem
