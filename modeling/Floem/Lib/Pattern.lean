import Mathlib
import Floem.Lib.Text

/-!
# Patterns with backtracking

Regular expressions as a backtracking matcher reads them: all ways to match the beginning
of a text, in the order in which the matcher tries them.

* `Pattern`, `runs` — the patterns, and the ways.
* `first` — the way the matcher takes: the marked part and the rest of the text.
* `first_seq`, `first_star_chars`, … — the way is found part by part.
-/

namespace Floem
namespace Lib

variable {α : Type*}

/-- Patterns.  `opt` and `star` prefer the longer way, and `mark` is the group that is asked
for. -/
inductive Pattern (α : Type*)
  | word (w : List α)
  | chars (set : α → Bool)
  | seq (a b : Pattern α)
  | opt (a : Pattern α)
  | star (a : Pattern α)
  | mark (a : Pattern α)

/-- The text of the marked group, if there is one, and the rest of the text. -/
abbrev Way (α : Type*) := Option (List α) × List α

namespace Pattern

/-- The ways of a repetition of at most `n` rounds, each of which takes something. -/
def starRuns (run : List α → List (Way α)) : ℕ → List α → List (Way α)
  | 0, s => [(none, s)]
  | n + 1, s => ((run s).flatMap fun way =>
      if way.2.length < s.length then
        (starRuns run n way.2).map fun more => (more.1.or way.1, more.2)
      else []) ++ [(none, s)]

/-- The ways to match the beginning of a text. -/
def runs [DecidableEq α] : Pattern α → List α → List (Way α)
  | word w, s => ((literal w s).map fun rest => (none, rest)).toList
  | chars _, [] => []
  | chars set, x :: s => if set x then [(none, s)] else []
  | seq a b, s => (a.runs s).flatMap fun way =>
      (b.runs way.2).map fun more => (more.1.or way.1, more.2)
  | opt a, s => a.runs s ++ [(none, s)]
  | star a, s => starRuns a.runs s.length s
  | mark a, s => (a.runs s).map fun way => (some (s.take (s.length - way.2.length)), way.2)

section First

variable [DecidableEq α]

/-- The way the matcher takes. -/
def first (p : Pattern α) (s : List α) : Option (Way α) := (p.runs s).head?

/-- At least one of `set`. -/
def some1 (set : α → Bool) : Pattern α := seq (chars set) (star (chars set))

variable {a b : Pattern α} {s t u : List α} {m m' : Option (List α)}

theorem first_eq_some : a.first s = some (m, t) ↔ ∃ ways, a.runs s = (m, t) :: ways := by
  rw [first, List.head?_eq_some_iff]

theorem first_seq (ha : a.first s = some (m, t)) (hb : b.first t = some (m', u)) :
    (seq a b).first s = some (m'.or m, u) := by
  obtain ⟨ways, ha⟩ := first_eq_some.1 ha
  obtain ⟨more, hb⟩ := first_eq_some.1 hb
  rw [first, runs, ha, List.flatMap_cons, hb]
  rfl

theorem first_opt_of_none (h : a.runs s = []) : (opt a).first s = some (none, s) := by
  rw [first, runs, h]
  rfl

theorem first_mark (h : a.first s = some (m, t)) :
    (mark a).first s = some (some (s.take (s.length - t.length)), t) := by
  obtain ⟨ways, h⟩ := first_eq_some.1 h
  rw [first, runs, h]
  rfl

theorem first_chars {set : α → Bool} {x : α} (hx : set x) :
    (chars set).first (x :: s) = some (none, s) := by
  rw [first, runs, if_pos hx]
  rfl

/-- A repetition of characters first takes all there are. -/
theorem first_star_chars (set : α → Bool) (s : List α) :
    (star (chars set)).first s = some (none, s.dropWhile set) := by
  have hrun : ∀ n (s : List α), s.length ≤ n →
      (starRuns (chars set).runs n s).head? = some (none, s.dropWhile set) := by
    intro n
    induction n with
    | zero =>
        intro s hs
        rw [List.length_eq_zero_iff.1 (Nat.le_zero.1 hs)]
        rfl
    | succ n ih =>
        intro s hs
        cases s with
        | nil => rfl
        | cons x s =>
            rw [starRuns, runs]
            by_cases hx : set x
            · have hrest := ih s (Nat.le_of_succ_le_succ hs)
              rw [if_pos hx, List.flatMap_singleton, if_pos (by simp), List.dropWhile_cons_of_pos hx]
              cases hways : starRuns (chars set).runs n s with
              | nil => rw [hways] at hrest; cases hrest
              | cons way ways =>
                  rw [hways, List.head?_cons, Option.some.injEq] at hrest
                  rw [hrest]
                  rfl
            · rw [if_neg hx, List.flatMap_nil, List.dropWhile_cons_of_neg hx]
              rfl
  exact hrun s.length s (Nat.le_refl _)

/-- A repetition that cannot begin takes nothing. -/
theorem first_star_of_none (h : a.runs s = []) : (star a).first s = some (none, s) := by
  rw [first, runs]
  cases hs : s.length with
  | zero => rfl
  | succ n => rw [starRuns, h]; rfl

theorem first_some1 {set : α → Bool} {x : α} (hx : set x) :
    (some1 set).first (x :: s) = some (none, s.dropWhile set) :=
  first_seq (first_chars hx) (first_star_chars set s)

end First
end Pattern
end Lib
end Floem
