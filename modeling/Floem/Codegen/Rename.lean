import Floem.DefUse.Scan
import Floem.Lib.Spans

/-!
# Renaming states

The local state names of an element are replaced by the names of the state instances
(`rename_state` of `codegen.py`).

* `occurrence`, `renameLoop`, `renameState` — the code.
* `renameWords` — what the loop does word by word.
* `renameLoop_eq` — so it does.
-/

namespace Floem
namespace Codegen

open Lib DefUse

/-! ## The code -/

/-- The pattern `[^a-zA-Z0-9_\.](old)[^a-zA-Z0-9_]`; it finds the text behind the name. -/
def occurrence (old : List Char) : List Char → Option (List Char)
  | [] => none
  | c :: text =>
    if identChar c || c == '.' then none
    else
      match literal old text with
      | some (d :: rest) => if identChar d then none else some (d :: rest)
      | _ => none

/-- The `while` loop.  Every round goes past one occurrence, so fuel of the length of the text
is enough. -/
def renameLoop (old new : List Char) : ℕ → ℕ → List Char → List Char
  | 0, _, src => src
  | n + 1, index, src =>
    match search (occurrence old) (src.drop index) with
    | none => src
    | some (before, _) =>
      let start := index + before.length + 1
      if 2 ≤ start ∧ src[start - 2]? = some '-' ∧ src[start - 1]? = some '>' then
        renameLoop old new n (start + old.length) src
      else
        renameLoop old new n (start + old.length)
          (src.take start ++ new ++ src.drop (start + old.length))

/-- `rename_state`. -/
def renameState (rename : List (List Char × List Char)) (src : List Char) : List Char :=
  rename.foldl (fun src p => renameLoop p.1 p.2 (src.length + 1) 0 src) src

/-! ## Word by word -/

/-- The text ends in `->`. -/
def endsArrow (gap : List Char) : Bool := ['-', '>'].isSuffixOf gap

/-- The pattern matches at the end of this gap, if `k` letters of it have been passed and the
name is behind it, with this gap next. -/
def meets (k : ℕ) (gap next : List Char) : Bool :=
  !next.isEmpty && decide (k < gap.length) && decide (gap.getLast? ≠ some '.')

/-- What the loop makes of the words behind a gap; it has passed `k` letters. -/
def renameWords (old new : List Char) : ℕ → List Char → Words Char → Words Char
  | _, _, [] => []
  | k, gap, (w, g) :: l =>
    if w = old ∧ meets k gap g then
      if endsArrow gap then (w, g) :: renameWords old new 0 g l
      else (new, g) :: renameWords old new (old.length - new.length) g l
    else (w, g) :: renameWords old new (k - gap.length - w.length) g l

/-- A name: at least one letter, digit or underscore. -/
def IsName (w : List Char) : Prop := w ≠ [] ∧ ∀ c ∈ w, identChar c = true

section Loop

variable {old new : List Char} (hold : IsName old) (hnew : IsName new)

/-- Only a match counts. -/
theorem renameLoop_skip {src : List Char} {i j : ℕ} (hij : i ≤ j)
    (h : ∀ m, i ≤ m → m < j → occurrence old (src.drop m) = none) (n : ℕ) :
    renameLoop old new n i src = renameLoop old new n j src := by
  cases n with
  | zero => rfl
  | succ n =>
      have hdrop : src.drop i = (src.drop i).take (j - i) ++ src.drop j := by
        have hj : (src.drop i).drop (j - i) = src.drop j := by
          rw [List.drop_drop, Nat.add_sub_cancel' hij]
        rw [← hj, List.take_append_drop]
      have hsearch : search (occurrence old) (src.drop i) =
          (search (occurrence old) (src.drop j)).map fun found =>
            ((src.drop i).take (j - i) ++ found.1, found.2) := by
        conv_lhs => rw [hdrop]
        refine search_append fun rest hrest hne => ?_
        obtain ⟨front, hfront⟩ := hrest
        have hlength : front.length + rest.length ≤ j - i := by
          rw [← List.length_append, hfront, List.length_take]
          exact Nat.min_le_left ..
        have hpos : 0 < rest.length := List.length_pos_iff.2 hne
        have hplace : rest ++ src.drop j = src.drop (i + front.length) := by
          rw [← List.drop_drop, hdrop, ← hfront, List.append_assoc, List.drop_left]
        rw [hplace]
        exact h _ (Nat.le_add_right ..) (by omega)
      rw [renameLoop, renameLoop, hsearch]
      cases hfound : search (occurrence old) (src.drop j) with
      | none => rfl
      | some found =>
          have hj : j ≤ src.length := by
            by_contra hlong
            rw [List.drop_eq_nil_of_le (Nat.le_of_not_le hlong)] at hfound
            cases hfound
          have hlength : ((src.drop i).take (j - i)).length = j - i := by
            rw [List.length_take, List.length_drop]
            omega
          have hstart : i + ((src.drop i).take (j - i) ++ found.1).length + 1 =
              j + found.1.length + 1 := by
            rw [List.length_append, hlength]
            omega
          simp only [Option.map_some, hstart]

include hold in
theorem literal_of_not_letter {d : Char} {text : List Char} (hd : identChar d = false) :
    literal old (d :: text) = none := by
  obtain ⟨hne, hletters⟩ := hold
  cases old with
  | nil => exact absurd rfl hne
  | cons e old =>
      rw [literal_eq_none]
      intro hprefix
      obtain ⟨rfl, _⟩ := List.cons_prefix_cons.1 hprefix
      rw [hletters e List.mem_cons_self] at hd
      cases hd

theorem occurrence_of_letter {c : Char} (hc : identChar c = true) (text : List Char) :
    occurrence old (c :: text) = none := by
  rw [occurrence, hc]
  rfl

include hold in
theorem occurrence_in_gap {c d : Char} {text : List Char} (hd : identChar d = false) :
    occurrence old (c :: d :: text) = none := by
  rw [occurrence, literal_of_not_letter hold hd]
  split <;> rfl

theorem takeWhile_name {w text : List Char} (hw : IsName w)
    (htext : ∀ d, text.head? = some d → identChar d = false) :
    (w ++ text).takeWhile identChar = w := by
  rw [List.takeWhile_append_of_pos hw.2]
  cases text with
  | nil => exact List.append_nil w
  | cons d text => rw [List.takeWhile_cons_of_neg (by simp [htext d rfl]), List.append_nil]

include hold in
/-- The pattern at the end of a gap finds the name if it is the next word. -/
theorem occurrence_at_gap {c : Char} {w g rest : List Char} (hc : identChar c = false)
    (hw : IsName w) (hg : ∀ d ∈ g, identChar d = false) (hrest : rest ≠ [] → g ≠ []) :
    occurrence old (c :: (w ++ (g ++ rest))) =
      if w = old ∧ g ≠ [] ∧ c ≠ '.' then some (g ++ rest) else none := by
  have hhead : ∀ d, (g ++ rest).head? = some d → identChar d = false := by
    intro d hd
    cases g with
    | nil =>
        cases rest with
        | nil => cases hd
        | cons e rest => exact absurd rfl (hrest (List.cons_ne_nil e rest))
    | cons e g =>
        obtain rfl := Option.some.inj hd
        exact hg e List.mem_cons_self
  rw [occurrence, hc, Bool.false_or]
  by_cases hdot : c = '.'
  · simp [hdot]
  · rw [if_neg (by simpa using hdot)]
    by_cases hsame : w = old
    · subst hsame
      rw [literal_eq_some.2 rfl]
      cases g with
      | nil =>
          obtain rfl : rest = [] := by
            by_contra hne
            exact hrest hne rfl
          simp
      | cons d g => simp [hg d List.mem_cons_self, hdot]
    · rw [if_neg (fun h => hsame h.1)]
      cases hliteral : literal old (w ++ (g ++ rest)) with
      | none => rfl
      | some behind =>
          cases behind with
          | nil => rfl
          | cons d behind =>
              by_cases hd : identChar d = true
              · simp [hd]
              · have hread : (old ++ d :: behind).takeWhile identChar = old :=
                  takeWhile_name hold fun e he => by
                    obtain rfl := Option.some.inj he
                    simpa using hd
                rw [← literal_eq_some.1 hliteral, takeWhile_name hw hhead] at hread
                exact absurd hread hsame

include hold in
/-- There is no match in front of the next gap but at the end of this one. -/
theorem occurrence_before {gap w g rest : List Char} (hgap : ∀ c ∈ gap, identChar c = false)
    (hw : IsName w) (hg : ∀ d ∈ g, identChar d = false) (hrest : rest ≠ [] → g ≠ []) {m : ℕ}
    (hm : m < gap.length + w.length)
    (hno : m + 1 = gap.length → ¬ (w = old ∧ g ≠ [] ∧ gap.getLast? ≠ some '.')) :
    occurrence old ((gap ++ (w ++ (g ++ rest))).drop m) = none := by
  induction gap generalizing m with
  | nil =>
      rw [List.length_nil, Nat.zero_add] at hm
      rw [List.nil_append, List.drop_append_of_le_length (Nat.le_of_lt hm),
        List.drop_eq_getElem_cons hm, List.cons_append]
      exact occurrence_of_letter (hw.2 _ (List.getElem_mem hm)) _
  | cons c gap ih =>
      have hc := hgap c List.mem_cons_self
      have htail : ∀ d ∈ gap, identChar d = false := fun d hd => hgap d (List.mem_cons_of_mem c hd)
      cases m with
      | zero =>
          cases gap with
          | nil =>
              have hno := hno rfl
              rw [List.drop_zero, List.cons_append, List.nil_append,
                occurrence_at_gap hold hc hw hg hrest, if_neg (by simpa using hno)]
          | cons d gap => exact occurrence_in_gap hold (htail d List.mem_cons_self)
      | succ m =>
          rw [List.cons_append, List.drop_succ_cons]
          refine ih htail (by simp at hm; omega) fun hlast => ?_
          cases gap with
          | nil => cases hlast
          | cons d gap => simpa using hno (by simp at hlast ⊢; omega)

/-- The two letters in front of the name. -/
theorem endsArrow_iff {done gap : List Char} (behind : List Char)
    (hdone : ∀ c, done.getLast? = some c → identChar c = true) (hne : gap ≠ []) :
    (2 ≤ (done ++ gap).length ∧
      (done ++ (gap ++ behind))[(done ++ gap).length - 2]? = some '-' ∧
      (done ++ (gap ++ behind))[(done ++ gap).length - 1]? = some '>') ↔
      endsArrow gap = true := by
  rw [← List.append_assoc]
  obtain rfl | ⟨front, c, rfl⟩ := List.eq_nil_or_concat' gap
  · exact absurd rfl hne
  obtain rfl | ⟨front, b, rfl⟩ := List.eq_nil_or_concat' front
  · -- in front of a gap of one letter there is a word, or nothing
    have harrow : endsArrow ([] ++ [c]) = false := by
      simp [endsArrow, List.isSuffixOf, List.isPrefixOf]
    rw [harrow]
    refine iff_of_false ?_ Bool.false_ne_true
    rintro ⟨hlength, hfirst, _⟩
    obtain rfl | ⟨front, d, rfl⟩ := List.eq_nil_or_concat' done
    · simp at hlength
    · have hd := hdone d (by simp)
      obtain rfl : d = '-' := by simpa using hfirst
      exact absurd hd (by decide)
  · have hplace : ∀ i, i < (done ++ (front ++ [b] ++ [c])).length →
        (done ++ (front ++ [b] ++ [c]) ++ behind)[i]? = (done ++ (front ++ [b] ++ [c]))[i]? :=
      fun i hi => List.getElem?_append_left hi
    have hlength : (done ++ (front ++ [b] ++ [c])).length = done.length + front.length + 2 := by
      simp
      omega
    rw [hplace _ (by omega), hplace _ (by omega), hlength]
    have hfirst : (done ++ (front ++ [b] ++ [c]))[done.length + front.length + 2 - 2]? =
        some b := by simp
    have hsecond : (done ++ (front ++ [b] ++ [c]))[done.length + front.length + 2 - 1]? =
        some c := by
      have hsplit : done ++ (front ++ [b] ++ [c]) = done ++ (front ++ [b]) ++ [c] := by simp
      have hlast : done.length + front.length + 2 - 1 = (done ++ (front ++ [b])).length := by
        simp
        omega
      rw [hsplit, hlast, List.getElem?_concat_length]
    rw [hfirst, hsecond]
    simp [endsArrow, List.isSuffixOf]
    tauto

/-- The last letter of a word. -/
theorem letter_of_getLast? {done w : List Char} (hw : IsName w) (c : Char)
    (h : (done ++ w).getLast? = some c) : identChar c = true := by
  obtain rfl | ⟨front, d, rfl⟩ := List.eq_nil_or_concat' w
  · exact absurd rfl hw.1
  · rw [← List.append_assoc, List.getLast?_concat] at h
    obtain rfl := Option.some.inj h
    exact hw.2 d (List.mem_concat_self ..)

include hold in
/-- Behind the last word there is no match. -/
theorem search_gap {gap : List Char} (h : ∀ c ∈ gap, identChar c = false) :
    search (occurrence old) gap = none := by
  rw [search_eq_none]
  intro rest hrest
  have hgap : ∀ c ∈ rest, identChar c = false := fun c hc => h c (hrest.subset hc)
  cases rest with
  | nil => rfl
  | cons c rest =>
      cases rest with
      | nil =>
          have hnil : literal old [] = none := by
            rw [literal_eq_none, List.prefix_nil]
            exact hold.1
          rw [occurrence, hnil]
          split <;> rfl
      | cons d rest => exact occurrence_in_gap hold (hgap d (by simp))

include hold hnew in
/-- **The loop goes word by word.** -/
theorem renameLoop_eq {l : Words Char} {gap : List Char} (done : List Char) (k n : ℕ)
    (hdone : ∀ c, done.getLast? = some c → identChar c = true)
    (h : Proper identChar (gap, l)) (hn : l.length < n) :
    renameLoop old new n (done.length + k) (done ++ render (gap, l)) =
      done ++ render (gap, renameWords old new k gap l) := by
  induction l generalizing done gap k n with
  | nil =>
      obtain ⟨n, rfl⟩ : ∃ m, n = m + 1 := ⟨n - 1, by simp at hn; omega⟩
      have hdrop : (done ++ render (gap, [])).drop (done.length + k) = gap.drop k := by
        simp [render, List.drop_append]
      rw [renameLoop, hdrop, search_gap hold fun c hc => h.gap c (List.mem_of_mem_drop hc)]
      rfl
  | cons s l ih =>
      obtain ⟨w, g⟩ := s
      obtain ⟨hgap, ⟨hw, hg, hrest, hl⟩⟩ := h
      simp only at hgap
      have hrest' : renderWords l ≠ [] → g ≠ [] := fun hne =>
        hrest fun hnil => hne (by rw [hnil]; rfl)
      have hnext : Proper identChar (g, l) := ⟨hg, hl⟩
      rw [List.length_cons] at hn
      rw [render, renderWords_cons]
      simp only
      have hplace : ∀ m, (done ++ (gap ++ (w ++ (g ++ renderWords l)))).drop (done.length + m) =
          (gap ++ (w ++ (g ++ renderWords l))).drop m := fun m => by
        rw [← List.drop_drop, List.drop_left]
      by_cases hmeets : w = old ∧ meets k gap g = true
      · rw [renameWords, if_pos hmeets]
        obtain ⟨rfl, hmeets⟩ := hmeets
        simp only [meets, Bool.and_eq_true, Bool.not_eq_true', List.isEmpty_eq_false_iff,
          decide_eq_true_eq] at hmeets
        obtain ⟨⟨hg', hk⟩, hdot⟩ := hmeets
        obtain rfl | ⟨front, c, rfl⟩ := List.eq_nil_or_concat' gap
        · simp at hk
        rw [List.length_append, List.length_singleton] at hk
        rw [renameLoop_skip (j := done.length + front.length) (by omega)]
        · obtain ⟨n, rfl⟩ : ∃ m, n = m + 1 := ⟨n - 1, by omega⟩
          have hc : identChar c = false := hgap c (List.mem_concat_self ..)
          have hmatch : occurrence w (c :: (w ++ (g ++ renderWords l))) =
              some (g ++ renderWords l) := by
            rw [occurrence_at_gap hold hc hw hg hrest', if_pos]
            exact ⟨rfl, hg', by simpa using hdot⟩
          rw [renameLoop, hplace, List.append_assoc, List.drop_left, List.singleton_append,
            search_of_front hmatch]
          have hstart : done.length + front.length + ([] : List Char).length + 1 =
              (done ++ (front ++ [c])).length := by
            simp
            omega
          have harrow := endsArrow_iff (w ++ (g ++ renderWords l)) hdone
            (List.append_ne_nil_of_right_ne_nil front (List.cons_ne_nil c []))
          rw [List.append_assoc, List.singleton_append] at harrow
          simp only [hstart, harrow]
          split
          · have hih := ih (done ++ (front ++ [c]) ++ w) 0 n (letter_of_getLast? hw) hnext (by omega)
            have hlength : (done ++ (front ++ [c]) ++ w).length =
                (done ++ (front ++ [c])).length + w.length := List.length_append
            rw [Nat.add_zero, hlength] at hih
            simpa [render, List.append_assoc] using hih
          · have hsrc : done ++ (front ++ c :: (w ++ (g ++ renderWords l))) =
                done ++ (front ++ [c]) ++ (w ++ (g ++ renderWords l)) := by simp
            have hih := ih (done ++ (front ++ [c]) ++ new) (w.length - new.length) n
              (letter_of_getLast? hnew) hnext (by omega)
            have hlength : (done ++ (front ++ [c]) ++ new).length =
                (done ++ (front ++ [c])).length + new.length := List.length_append
            rw [hsrc, List.take_left, ← List.drop_drop, List.drop_left, List.drop_left]
            rw [renameLoop_skip (j := (done ++ (front ++ [c]) ++ new).length +
              (w.length - new.length)) (by rw [hlength]; omega)]
            · simpa [render, List.append_assoc] using hih
            · -- the rest of a longer name is passed over
              intro m hm hlt
              rw [hlength] at hlt
              obtain ⟨m, rfl⟩ := Nat.exists_eq_add_of_le (Nat.le_of_add_right_le hm)
              have hm' : m < new.length := by omega
              rw [List.append_assoc, ← List.drop_drop, List.drop_left,
                List.drop_append_of_le_length (Nat.le_of_lt hm'), List.drop_eq_getElem_cons hm']
              exact occurrence_of_letter (hnew.2 _ (List.getElem_mem hm')) _
        · intro m hm hlt
          obtain ⟨m, rfl⟩ := Nat.exists_eq_add_of_le (Nat.le_of_add_right_le hm)
          rw [hplace]
          refine occurrence_before hold hgap hw hg hrest' (by simp; omega) fun hm' => ?_
          rw [List.length_append, List.length_singleton] at hm'
          omega
      · rw [renameWords, if_neg hmeets]
        have hih := ih (done ++ gap ++ w) (k - gap.length - w.length) n (letter_of_getLast? hw)
          hnext (by omega)
        rw [renameLoop_skip (j := (done ++ gap ++ w).length + (k - gap.length - w.length))
          (by simp; omega)]
        · simpa [render, List.append_assoc] using hih
        · intro m hm hlt
          obtain ⟨m, rfl⟩ := Nat.exists_eq_add_of_le (Nat.le_of_add_right_le hm)
          rw [hplace]
          rw [List.length_append, List.length_append] at hlt
          refine occurrence_before hold hgap hw hg hrest' (by omega) ?_
          rintro hm' ⟨rfl, hg', hdot⟩
          refine hmeets ⟨rfl, ?_⟩
          simp only [meets, Bool.and_eq_true, Bool.not_eq_true', List.isEmpty_eq_false_iff,
            decide_eq_true_eq]
          exact ⟨⟨hg', by omega⟩, hdot⟩

end Loop

end Codegen
end Floem
