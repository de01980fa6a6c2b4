import Mathlib
import Floem.Lib.Run

/-!
# Searching a text

A pattern is a function that matches at the front of a text and says what it found there.

* `search` — the leftmost match, with the text before it.
* `search_append` — text in which nothing matches is passed over.
* `literal` — the pattern that is a fixed word; `literal_append_eq_none` — no such word
  begins in one text and ends in the next, unless the first text ends in a part of it.
-/

namespace Floem
namespace Lib

variable {α β : Type*}

/-- The leftmost match of a pattern, and the text before it. -/
def search (pattern : List α → Option β) : List α → Option (List α × β)
  | [] => (pattern []).map ([], ·)
  | c :: text =>
    match pattern (c :: text) with
    | some found => some ([], found)
    | none => (search pattern text).map fun found => (c :: found.1, found.2)

theorem search_eq_none {pattern : List α → Option β} {text : List α} :
    search pattern text = none ↔ ∀ rest, rest <:+ text → pattern rest = none := by
  induction text with
  | nil => simp [search]
  | cons c text ih =>
      rw [search]
      constructor
      · intro h rest hrest
        cases hpattern : pattern (c :: text) with
        | some found => simp [hpattern] at h
        | none =>
            obtain rfl | hrest := List.suffix_cons_iff.1 hrest
            · exact hpattern
            · simp only [hpattern, Option.map_eq_none_iff] at h
              exact ih.1 h rest hrest
      · intro h
        rw [h _ List.suffix_rfl]
        exact Option.map_eq_none_iff.2
          (ih.2 fun rest hrest => h rest (hrest.trans (List.suffix_cons c text)))

/-- **Text in which nothing matches is passed over.** -/
theorem search_append {pattern : List α → Option β} {before after : List α}
    (h : ∀ rest, rest <:+ before → rest ≠ [] → pattern (rest ++ after) = none) :
    search pattern (before ++ after) =
      (search pattern after).map fun found => (before ++ found.1, found.2) := by
  induction before with
  | nil => simp
  | cons c before ih =>
      have hrest := ih fun rest hrest => h rest (hrest.trans (List.suffix_cons c before))
      have hhere := h (c :: before) List.suffix_rfl (List.cons_ne_nil c before)
      rw [List.cons_append] at hhere ⊢
      rw [search, hhere, hrest, Option.map_map]
      rfl

theorem search_of_front {pattern : List α → Option β} {text : List α} {found : β}
    (h : pattern text = some found) : search pattern text = some ([], found) := by
  cases text with
  | nil => simp [search, h]
  | cons c text => simp [search, h]

/-- What is found is found somewhere in the text. -/
theorem search_sound {pattern : List α → Option β} {text before : List α} {found : β}
    (h : search pattern text = some (before, found)) :
    ∃ rest, text = before ++ rest ∧ pattern rest = some found := by
  induction text generalizing before with
  | nil =>
      obtain ⟨found, hfound, hpair⟩ := Option.map_eq_some_iff.1 h
      obtain ⟨rfl, rfl⟩ := Prod.mk.inj hpair
      exact ⟨[], rfl, hfound⟩
  | cons c text ih =>
      rw [search] at h
      cases hhere : pattern (c :: text) with
      | some found =>
          rw [hhere] at h
          obtain ⟨rfl, rfl⟩ := Prod.mk.inj (Option.some.inj h)
          exact ⟨c :: text, rfl, hhere⟩
      | none =>
          rw [hhere] at h
          obtain ⟨⟨front, found⟩, hlater, hpair⟩ := Option.map_eq_some_iff.1 h
          obtain ⟨rfl, rfl⟩ := Prod.mk.inj hpair
          obtain ⟨rest, rfl, hrest⟩ := ih hlater
          exact ⟨rest, rfl, hrest⟩

/-- In front of the leftmost match is none, if a match stays one when the text goes on. -/
theorem search_before {pattern : List α → Option β} (hnil : pattern [] = none)
    (hmono : ∀ s t, pattern s ≠ none → pattern (s ++ t) ≠ none) {text before : List α} {found : β}
    (h : search pattern text = some (before, found)) : search pattern before = none := by
  induction text generalizing before with
  | nil =>
      rw [search, hnil] at h
      cases h
  | cons c text ih =>
      rw [search] at h
      cases hhere : pattern (c :: text) with
      | some found =>
          rw [hhere] at h
          obtain ⟨rfl, -⟩ := Prod.mk.inj (Option.some.inj h)
          rw [search, hnil]
          rfl
      | none =>
          rw [hhere] at h
          obtain ⟨⟨front, found⟩, hlater, hpair⟩ := Option.map_eq_some_iff.1 h
          obtain ⟨rfl, rfl⟩ := Prod.mk.inj hpair
          obtain ⟨rest, rfl, -⟩ := search_sound hlater
          have hfront : pattern (c :: front) = none := by
            by_contra hmatch
            exact hmono (c :: front) rest hmatch hhere
          rw [search, hfront, ih hlater]
          rfl

section Literal

variable [BEq α] [LawfulBEq α]

/-- The pattern that is a fixed word; what it finds is the text behind the word. -/
def literal (word text : List α) : Option (List α) := text.dropPrefix? word

theorem literal_eq_some {word text rest : List α} :
    literal word text = some rest ↔ text = word ++ rest := by
  simp [literal, List.dropPrefix?_eq_some_iff]

theorem literal_eq_none {word text : List α} : literal word text = none ↔ ¬ word <+: text := by
  rw [Option.eq_none_iff_forall_ne_some]
  constructor
  · rintro h ⟨rest, hrest⟩
    exact h rest (literal_eq_some.2 hrest.symm)
  · intro h rest hrest
    exact h ⟨rest, (literal_eq_some.1 hrest).symm⟩

/-- A word that is not in the first text does not begin there either, unless the first text
is a part of the word. -/
theorem literal_append_eq_none {word before after : List α} (hno : literal word before = none)
    (hpart : before <+: word → ¬ word <+: before ++ after) :
    literal word (before ++ after) = none := by
  rw [literal_eq_none] at hno ⊢
  intro hword
  obtain hpre | hpre := List.prefix_or_prefix_of_prefix hword (List.prefix_append before after)
  · exact hno hpre
  · exact hpart hpre hword

end Literal

end Lib
end Floem
