import Mathlib

/-!
# Longest tokens

A text is cut into tokens from the left: a token goes on as long as it takes the next symbol,
and blanks end it.

* `munch` — the tokens.
* `current` — the token that is open at the end of a text.
* `munch_filter` — blanks may be left out just where the token in front of each does not take
  the symbol behind it.
-/

namespace Floem
namespace Lib

variable {σ : Type*}

/-- What is a blank, and which symbols a token goes on with. -/
structure Munch (σ : Type*) where
  blank : σ → Bool
  takes : List σ → σ → Bool

namespace Munch

variable (M : Munch σ)

/-- A token that was begun. -/
def emit (open_ : List σ) : List (List σ) := if open_.isEmpty then [] else [open_]

/-- The token goes on with the next symbol; there is none where nothing was begun. -/
def goesOn (tok : List σ) (s : σ) : Bool := !tok.isEmpty && !M.blank s && M.takes tok s

/-- The tokens, the first of which has begun. -/
def munch (tok : List σ) : List σ → List (List σ)
  | [] => emit tok
  | s :: text =>
    if M.blank s then emit tok ++ munch [] text
    else if M.goesOn tok s then munch (tok ++ [s]) text
    else emit tok ++ munch [s] text

/-- The token that is open at the end. -/
def current (tok : List σ) : List σ → List σ
  | [] => tok
  | s :: text =>
    if M.blank s then current [] text
    else if M.goesOn tok s then current (tok ++ [s]) text
    else current [s] text

/-- The token does not go on into the text. -/
def stops (tok : List σ) (text : List σ) : Bool := text.head?.all fun s => !M.goesOn tok s

variable {M}

@[simp] theorem goesOn_nil (s : σ) : M.goesOn [] s = false := rfl

@[simp] theorem stops_nil_left (text : List σ) : M.stops [] text = true := by
  cases text <;> rfl

/-- A token that does not go on is complete. -/
theorem munch_of_stops {tok text : List σ} (h : M.stops tok text = true) :
    M.munch tok text = emit tok ++ M.munch [] text := by
  cases text with
  | nil => simp [munch, emit]
  | cons s text =>
      have hs : M.goesOn tok s = false := by simpa [stops] using h
      rw [munch, munch, hs]
      by_cases hblank : M.blank s = true
      · simp [hblank, emit]
      · simp [hblank, emit]

/-- Where nothing goes on, the token that was begun does not matter for what is open later. -/
theorem current_of_stops {tok text : List σ} (h : M.stops tok text = true) (hne : text ≠ []) :
    M.current tok text = M.current [] text := by
  cases text with
  | nil => exact absurd rfl hne
  | cons s text =>
      have hs : M.goesOn tok s = false := by simpa [stops] using h
      simp [current, hs]

/-- The token that was begun is the first one, or the beginning of it. -/
theorem munch_eq_cons {tok : List σ} (htok : tok ≠ []) (text : List σ) :
    ∃ more rest, M.munch tok text = (tok ++ more) :: rest := by
  have hemit : emit tok = [tok] := by simp [emit, htok]
  induction text generalizing tok with
  | nil => exact ⟨[], [], by rw [munch, hemit, List.append_nil]⟩
  | cons s text ih =>
      rw [munch]
      split_ifs with hblank hgoes
      · exact ⟨[], M.munch [] text, by rw [hemit, List.append_nil]; rfl⟩
      · have hnext : tok ++ [s] ≠ [] := by simp
        obtain ⟨more, rest, hrest⟩ := ih hnext (by simp [emit])
        exact ⟨s :: more, rest, by rw [hrest, List.append_assoc]; rfl⟩
      · exact ⟨[], M.munch [s] text, by rw [hemit, List.append_nil]; rfl⟩

/-- A token that goes on is not the token that ends here. -/
theorem stops_of_munch_eq {tok text : List σ} {rest : List (List σ)}
    (h : M.munch tok text = emit tok ++ rest) : M.stops tok text = true := by
  cases text with
  | nil => rfl
  | cons s text =>
      by_contra hstops
      have hgoes : M.goesOn tok s = true := by simpa [stops] using hstops
      have htok : tok ≠ [] := by
        rintro rfl
        cases hgoes
      have hblank : M.blank s = false := by
        simp only [goesOn, Bool.and_eq_true, Bool.not_eq_true'] at hgoes
        exact hgoes.1.2
      obtain ⟨more, later, hlater⟩ :=
        munch_eq_cons (M := M) (List.append_ne_nil_of_right_ne_nil tok (List.cons_ne_nil s [])) text
      rw [munch, hblank, if_neg Bool.false_ne_true, if_pos hgoes, hlater, emit,
        if_neg (by simpa using htok)] at h
      have hlength := congrArg List.length (List.cons.inj h).1
      simp at hlength

variable {keep : σ → Bool} (hdrop : ∀ s, keep s = false → M.blank s = true)

/-- The blanks that are left out stand where nothing goes on. -/
def Parts (M : Munch σ) (keep : σ → Bool) (tok text : List σ) : Prop :=
  ∀ before s after, text = before ++ s :: after → keep s = false →
    M.stops (M.current tok (before.filter keep)) (after.filter keep) = true

/-- Behind a blank that is left out. -/
theorem parts_cons_drop {tok text : List σ} {s : σ} (hs : keep s = false) :
    M.Parts keep tok (s :: text) ↔
      M.stops tok (text.filter keep) = true ∧ M.Parts keep [] text := by
  have hcons : ∀ l : List σ, (s :: l).filter keep = l.filter keep := fun l =>
    List.filter_cons_of_neg (by simp [hs])
  -- nothing goes on from the token into the symbols that stay
  have hcurrent : ∀ before p after, text = before ++ p :: after → keep p = false →
      M.stops tok (text.filter keep) = true → before.filter keep ≠ [] →
      M.current tok (before.filter keep) = M.current [] (before.filter keep) := by
    intro before p after htext hp hstops hne
    refine current_of_stops ?_ hne
    rw [htext, List.filter_append] at hstops
    cases hfilter : before.filter keep with
    | nil => exact absurd hfilter hne
    | cons q front => simpa [stops, hfilter] using hstops
  constructor
  · intro h
    have hstops : M.stops tok (text.filter keep) = true := by
      simpa [current] using h [] s text rfl hs
    refine ⟨hstops, fun before p after htext hp => ?_⟩
    have hthere := h (s :: before) p after (by rw [htext, List.cons_append]) hp
    rw [hcons] at hthere
    by_cases hempty : before.filter keep = []
    · rw [hempty, current, stops_nil_left]
    · rwa [hcurrent before p after htext hp hstops hempty] at hthere
  · rintro ⟨hstops, h⟩ before p after htext hp
    cases before with
    | nil =>
        obtain ⟨rfl, rfl⟩ := List.cons.inj htext
        exact hstops
    | cons q before =>
        rw [List.cons_append, List.cons.injEq] at htext
        obtain ⟨rfl, rfl⟩ := htext
        rw [hcons]
        by_cases hempty : before.filter keep = []
        · rw [hempty, current]
          rwa [List.filter_append, hempty, List.nil_append,
            List.filter_cons_of_neg (by simp [hp])] at hstops
        · rw [hcurrent before p after rfl hp hstops hempty]
          exact h before p after rfl hp

/-- Behind a symbol that stays. -/
theorem parts_cons_keep {tok tok' text : List σ} {s : σ} (hs : keep s = true)
    (hcur : ∀ l, M.current tok (s :: l) = M.current tok' l) :
    M.Parts keep tok (s :: text) ↔ M.Parts keep tok' text := by
  constructor
  · intro h before p after htext hp
    have hthere := h (s :: before) p after (by rw [htext, List.cons_append]) hp
    rwa [List.filter_cons_of_pos hs, hcur] at hthere
  · intro h before p after htext hp
    cases before with
    | nil =>
        obtain ⟨rfl, -⟩ := List.cons.inj htext
        cases hs.symm.trans hp
    | cons q before =>
        obtain ⟨rfl, rfl⟩ := List.cons.inj htext
        rw [List.filter_cons_of_pos hs, hcur]
        exact h before p after rfl hp

include hdrop in
/-- **Blanks that part nothing.**  Leaving blanks out changes no token just if the token in
front of each does not go on behind it, in the text that is left. -/
theorem munch_filter {tok text : List σ} :
    M.munch tok (text.filter keep) = M.munch tok text ↔ M.Parts keep tok text := by
  induction text generalizing tok with
  | nil => simp [Parts]
  | cons s text ih =>
      cases hs : keep s with
      | false =>
          rw [parts_cons_drop hs, ← ih, List.filter_cons_of_neg (by simp [hs]), munch,
            if_pos (hdrop s hs)]
          constructor
          · intro h
            have hstops := stops_of_munch_eq h
            rw [munch_of_stops hstops] at h
            exact ⟨hstops, List.append_cancel_left h⟩
          · rintro ⟨hstops, h⟩
            rw [munch_of_stops hstops, h]
      | true =>
          rw [List.filter_cons_of_pos hs, munch, munch]
          by_cases hblank : M.blank s = true
          · rw [if_pos hblank, if_pos hblank, List.append_cancel_left_eq, ih,
              parts_cons_keep hs fun l => by rw [current, if_pos hblank]]
          · rw [if_neg hblank, if_neg hblank]
            by_cases hgoes : M.goesOn tok s = true
            · rw [if_pos hgoes, if_pos hgoes, ih, parts_cons_keep hs fun l => by
                rw [current, if_neg hblank, if_pos hgoes]]
            · rw [if_neg hgoes, if_neg hgoes, List.append_cancel_left_eq, ih,
                parts_cons_keep hs fun l => by rw [current, if_neg hblank, if_neg hgoes]]

end Munch

end Lib
end Floem
