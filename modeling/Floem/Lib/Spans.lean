import Mathlib

/-!
# Words and gaps

A text is cut into words, the longest runs of letters, and the gaps between them.

* `spans`, `render` — a text as a gap and words with the gaps behind them, and back.
* `Proper` — no word is empty, no gap between two words is.
* `render_spans`, `spans_render` — the two are inverse to each other.
-/

namespace Floem
namespace Lib

variable {α : Type*} {letter : α → Bool}

/-- Words with the gaps behind them. -/
abbrev Words (α : Type*) := List (List α × List α)

def renderWords (l : Words α) : List α := l.flatMap fun s => s.1 ++ s.2

/-- The text of a gap and what is behind it. -/
def render (r : List α × Words α) : List α := r.1 ++ renderWords r.2

/-- The gap in front of the text, and the words. -/
def spans (letter : α → Bool) : List α → List α × Words α
  | [] => ([], [])
  | c :: text =>
    match spans letter text with
    | (g, l) =>
      if letter c then
        match g, l with
        | [], (w, g') :: l' => ([], (c :: w, g') :: l')
        | g, l => ([], ([c], g) :: l)
      else (c :: g, l)

def ProperWords (letter : α → Bool) : Words α → Prop
  | [] => True
  | (w, g) :: l =>
    (w ≠ [] ∧ ∀ c ∈ w, letter c = true) ∧ (∀ c ∈ g, letter c = false) ∧ (l ≠ [] → g ≠ []) ∧
      ProperWords letter l

/-- Words of letters, with gaps between them. -/
structure Proper (letter : α → Bool) (r : List α × Words α) : Prop where
  gap : ∀ c ∈ r.1, letter c = false
  words : ProperWords letter r.2

@[simp] theorem renderWords_nil : renderWords ([] : Words α) = [] := rfl

@[simp] theorem renderWords_cons (s : List α × List α) (l : Words α) :
    renderWords (s :: l) = s.1 ++ (s.2 ++ renderWords l) := by
  rw [renderWords, List.flatMap_cons, List.append_assoc]
  rfl

/-! ## From the text to the words and back -/

theorem render_spans (text : List α) : render (spans letter text) = text := by
  induction text with
  | nil => rfl
  | cons c text ih =>
      rw [spans]
      cases hspans : spans letter text with
      | mk g l =>
          rw [hspans] at ih
          simp only
          split
          · split
            · rw [render, List.nil_append, renderWords_cons, List.cons_append, ← ih, render]
              simp
            · rw [render, List.nil_append, renderWords_cons, ← ih, render]
              simp
          · rw [render, List.cons_append, ← ih]
            rfl

theorem spans_proper (text : List α) : Proper letter (spans letter text) := by
  induction text with
  | nil => exact ⟨fun _ hc => absurd hc List.not_mem_nil, trivial⟩
  | cons c text ih =>
      rw [spans]
      cases hspans : spans letter text with
      | mk g l =>
          rw [hspans] at ih
          simp only
          split
          · rename_i hc
            split
            · obtain ⟨hword, hrest⟩ := ih.words
              refine ⟨fun _ hc => absurd hc List.not_mem_nil, ⟨List.cons_ne_nil _ _, ?_⟩, hrest⟩
              exact List.forall_mem_cons.2 ⟨hc, hword.2⟩
            · rename_i hno
              refine ⟨fun _ hc => absurd hc List.not_mem_nil,
                ⟨List.cons_ne_nil _ _, List.forall_mem_singleton.2 hc⟩, ih.gap, ?_, ih.words⟩
              rintro hl rfl
              cases l with
              | nil => exact hl rfl
              | cons s l => exact hno s.1 s.2 l rfl rfl
          · rename_i hc
            exact ⟨List.forall_mem_cons.2 ⟨by simpa using hc, ih.gap⟩, ih.words⟩

theorem spans_gap {g : List α} (hg : ∀ c ∈ g, letter c = false) (text : List α) :
    spans letter (g ++ text) = (g ++ (spans letter text).1, (spans letter text).2) := by
  induction g with
  | nil => rfl
  | cons c g ih =>
      rw [List.cons_append, spans, ih fun d hd => hg d (List.mem_cons_of_mem c hd)]
      simp [hg c List.mem_cons_self]

theorem spans_word {w : List α} (hne : w ≠ []) (hw : ∀ c ∈ w, letter c = true)
    {text g : List α} {l : Words α} (h : spans letter text = (g, l)) (hg : l ≠ [] → g ≠ []) :
    spans letter (w ++ text) = ([], (w, g) :: l) := by
  induction w with
  | nil => exact absurd rfl hne
  | cons c w ih =>
      rw [List.cons_append, spans]
      cases w with
      | nil =>
          rw [List.nil_append, h]
          simp only [hw c List.mem_cons_self, if_true]
          split
          · exact absurd rfl (hg (List.cons_ne_nil _ _))
          · rfl
      | cons d w =>
          rw [ih (List.cons_ne_nil d w) fun e he => hw e (List.mem_cons_of_mem c he)]
          simp only [hw c List.mem_cons_self, if_true]

theorem spans_renderWords {l : Words α} (h : ProperWords letter l) :
    spans letter (renderWords l) = ([], l) := by
  induction l with
  | nil => rfl
  | cons s l ih =>
      obtain ⟨⟨hne, hw⟩, hg, hgap, hl⟩ := h
      rw [renderWords_cons]
      refine spans_word hne hw ?_ hgap
      rw [spans_gap hg, ih hl, List.append_nil]

theorem spans_render {r : List α × Words α} (h : Proper letter r) :
    spans letter (render r) = r := by
  rw [render, spans_gap h.gap, spans_renderWords h.words, List.append_nil]

/-- What is around a word: a gap on each side, unless the text ends there. -/
theorem around_word {l : Words α} (hl : ProperWords letter l) {w g : List α} (h : (w, g) ∈ l) :
    ∃ front back, renderWords l = front ++ (w ++ (g ++ back)) ∧ w ≠ [] ∧
      (∀ c ∈ w, letter c = true) ∧ (∀ c ∈ g, letter c = false) ∧
      (front = [] ∨ ∃ f c, front = f ++ [c] ∧ letter c = false) := by
  induction l with
  | nil => cases h
  | cons s l ih =>
      obtain ⟨⟨hne, hw⟩, hgap, hnext, hl⟩ := hl
      rcases List.mem_cons.1 h with rfl | h
      · exact ⟨[], renderWords l, renderWords_cons _ l, hne, hw, hgap, .inl rfl⟩
      · obtain ⟨front, back, hrender, hword⟩ := ih hl h
        refine ⟨s.1 ++ (s.2 ++ front), back, ?_, hword.1, hword.2.1, hword.2.2.1, .inr ?_⟩
        · rw [renderWords_cons, hrender]
          simp
        · rcases hword.2.2.2 with rfl | ⟨f, c, rfl, hc⟩
          · obtain hnil | ⟨f, c, hs⟩ := List.eq_nil_or_concat' s.2
            · exact absurd hnil (hnext (List.ne_nil_of_mem h))
            · exact ⟨s.1 ++ f, c, by rw [hs]; simp, hgap c (by rw [hs]; simp)⟩
          · exact ⟨s.1 ++ (s.2 ++ f), c, by simp, hc⟩

/-- **A text has one reading.** -/
theorem render_inj {r r' : List α × Words α} (h : Proper letter r) (h' : Proper letter r')
    (heq : render r = render r') : r = r' := by
  rw [← spans_render h, ← spans_render h', heq]

end Lib
end Floem
