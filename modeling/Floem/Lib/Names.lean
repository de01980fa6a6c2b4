import Mathlib

/-!
# Numbered names

* `numbered_inj`, `numbered_ne` — names that end in a number.
* `numbered_inside_inj` — names with a number between two fixed parts; the front may differ.
* `numbered_front_inj` — names with a number behind a fixed beginning.
* `append_ne_self` — a name that goes on is another one.
-/

namespace Floem
namespace Lib

theorem append_ne_self (s : String) {t : String} (ht : t.toList ≠ []) : s ++ t ≠ s := by
  intro h
  have h' := congrArg String.toList h
  rw [String.toList_append] at h'
  exact ht (List.append_right_eq_self.1 h')

theorem numbered_inj (s : String) {i j : ℕ} (h : s ++ toString i = s ++ toString j) : i = j := by
  have hrepr : i.repr = j.repr := (String.append_right_inj s).1 h
  have hdigits : Nat.toDigits 10 i = Nat.toDigits 10 j := by
    rw [← Nat.toList_repr, ← Nat.toList_repr, hrepr]
  rw [← Nat.ofDigitChars_ten_toDigits (n := i), hdigits, Nat.ofDigitChars_ten_toDigits]

theorem numbered_ne (s : String) (i : ℕ) : s ++ toString i ≠ s := by
  refine append_ne_self s fun hnil => ?_
  have hrepr : i.repr.toList = [] := hnil
  rw [Nat.toList_repr] at hrepr
  exact Nat.toDigits_ne_nil hrepr

/-- What is behind the last occurrence of a character. -/
theorem tail_inj {α : Type*} {c : α} {a b s t : List α} (hs : c ∉ s) (ht : c ∉ t)
    (h : a ++ c :: s = b ++ c :: t) : s = t := by
  obtain ⟨u, _, hu⟩ | ⟨u, _, hu⟩ := List.append_eq_append_iff.1 h
  · cases u with
    | nil => exact (List.cons.inj hu).2
    | cons d u =>
        obtain ⟨_, rfl⟩ := List.cons.inj hu
        exact absurd (List.mem_append_right u List.mem_cons_self) hs
  · cases u with
    | nil => exact (List.cons.inj hu).2.symm
    | cons d u =>
        obtain ⟨_, rfl⟩ := List.cons.inj hu
        exact absurd (List.mem_append_right u List.mem_cons_self) ht

/-- The number is read off from behind: no digit is the character in front of it. -/
theorem numbered_inside_inj {a b mid post : String} {front : List Char} {c : Char}
    (hmid : mid.toList = front ++ [c]) (hc : c.isDigit = false) {i j : ℕ}
    (h : a ++ mid ++ toString i ++ post = b ++ mid ++ toString j ++ post) : i = j := by
  have hdigits : ∀ n : ℕ, c ∉ Nat.toDigits 10 n := fun n hmem => by
    rw [Nat.isDigit_of_mem_toDigits (by decide) (by decide) hmem] at hc
    cases hc
  have hlist : ∀ n : ℕ, (toString n).toList = Nat.toDigits 10 n := fun n => Nat.toList_repr
  have h' := congrArg String.toList ((String.append_left_inj post).1 h)
  simp only [String.toList_append, hmid, hlist, List.append_assoc, List.singleton_append] at h'
  rw [← List.append_assoc, ← List.append_assoc b.toList] at h'
  have hsame := tail_inj (hdigits i) (hdigits j) h'
  rw [← Nat.ofDigitChars_ten_toDigits (n := i), hsame, Nat.ofDigitChars_ten_toDigits]

/-- What is in front of the first occurrence of a character. -/
theorem head_inj {α : Type*} {c : α} {a b s t : List α} (hs : c ∉ s) (ht : c ∉ t)
    (h : s ++ c :: a = t ++ c :: b) : s = t ∧ a = b := by
  obtain ⟨u, rfl, hu⟩ | ⟨u, rfl, hu⟩ := List.append_eq_append_iff.1 h
  · cases u with
    | nil => exact ⟨(List.append_nil s).symm, (List.cons.inj hu).2⟩
    | cons d u =>
        obtain ⟨rfl, _⟩ := List.cons.inj hu
        exact absurd (List.mem_append_right s List.mem_cons_self) ht
  · cases u with
    | nil => exact ⟨List.append_nil t, (List.cons.inj hu).2.symm⟩
    | cons d u =>
        obtain ⟨rfl, _⟩ := List.cons.inj hu
        exact absurd (List.mem_append_right t List.mem_cons_self) hs

/-- The number is read off from the front: no digit is the character behind it. -/
theorem numbered_front_inj {pre mid : String} {rest : List Char} {c : Char}
    (hmid : mid.toList = c :: rest) (hc : c.isDigit = false) {i j : ℕ} {s t : String}
    (h : pre ++ toString i ++ mid ++ s = pre ++ toString j ++ mid ++ t) : i = j ∧ s = t := by
  have hdigits : ∀ n : ℕ, c ∉ Nat.toDigits 10 n := fun n hmem => by
    rw [Nat.isDigit_of_mem_toDigits (by decide) (by decide) hmem] at hc
    cases hc
  have hlist : ∀ n : ℕ, (toString n).toList = Nat.toDigits 10 n := fun n => Nat.toList_repr
  have h' := congrArg String.toList h
  simp only [String.toList_append, hmid, hlist, List.append_assoc, List.cons_append] at h'
  obtain ⟨hsame, hrest⟩ := head_inj (hdigits i) (hdigits j) (List.append_cancel_left h')
  refine ⟨?_, String.toList_inj.1 (List.append_cancel_left hrest)⟩
  rw [← Nat.ofDigitChars_ten_toDigits (n := i), hsame, Nat.ofDigitChars_ten_toDigits]

end Lib
end Floem
