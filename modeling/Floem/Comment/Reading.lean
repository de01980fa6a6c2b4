import Mathlib
import Floem.Lib.Run

/-!
# Reading C

What a C compiler reads in a text first: literals, comments and the letters in between.

* `Piece`, `cut` — the pieces of a text; a text that cannot be cut is no C.
* `Reads`, `reads_of_cut`, `cut_render` — the lists of pieces that are read from their own
  text.
-/

namespace Floem
namespace Comment

/-! ## Pieces -/

inductive Piece
  | code (c : Char)
  /-- A line that goes on behind its end. -/
  | splice
  /-- With its quotes. -/
  | literal (text : List Char)
  /-- The text behind `//`, without the line end. -/
  | line (text : List Char)
  /-- A line comment that the end of the text ends. -/
  | unended (text : List Char)
  /-- The text between the ends of the comment. -/
  | block (text : List Char)
  deriving DecidableEq, Repr

namespace Piece

def text : Piece → List Char
  | code c => [c]
  | splice => ['\\', '\n']
  | literal text => text
  | line text => "//".toList ++ text ++ ['\n']
  | unended text => "//".toList ++ text
  | block text => ['/', '*'] ++ text ++ ['*', '/']

def isComment : Piece → Bool
  | line _ | unended _ | block _ => true
  | _ => false

def isLine : Piece → Bool
  | line _ => true
  | _ => false

end Piece

def render (ps : List Piece) : List Char := ps.flatMap Piece.text

@[simp] theorem render_nil : render [] = [] := rfl

@[simp] theorem render_cons (p : Piece) (ps : List Piece) :
    render (p :: ps) = p.text ++ render ps := List.flatMap_cons

@[simp] theorem render_append (ps qs : List Piece) :
    render (ps ++ qs) = render ps ++ render qs := List.flatMap_append

@[simp] theorem render_map_code (text : List Char) : render (text.map .code) = text := by
  induction text with
  | nil => rfl
  | cons c text ih =>
      rw [List.map_cons, render_cons, ih]
      rfl

/-- Where in a piece the reader is, and what it has read of it. -/
inductive Mode
  | code
  /-- Behind a backslash the next letter is no quote. -/
  | literal (quote : Char) (escaped : Bool) (read : List Char)
  | line (read : List Char)
  | block (read : List Char)

/-- The pieces; a literal that its line ends and a comment that nothing ends are errors. -/
def cut : Mode → List Char → Option (List Piece)
  | .code, [] => some []
  | .code, '/' :: '/' :: text => cut (.line []) text
  | .code, '/' :: '*' :: text => cut (.block []) text
  | .code, '\\' :: '\n' :: text => (cut .code text).map (.splice :: ·)
  | .code, c :: text =>
    if c = '"' ∨ c = '\'' then cut (.literal c false [c]) text
    else (cut .code text).map (.code c :: ·)
  | .literal _ _ _, [] => none
  | .literal quote escaped read, '\\' :: '\n' :: text =>
    cut (.literal quote escaped (read ++ ['\\', '\n'])) text
  | .literal quote escaped read, c :: text =>
    if c = '\n' then none
    else if c = quote ∧ escaped = false then (cut .code text).map (.literal (read ++ [c]) :: ·)
    else cut (.literal quote (c = '\\' && !escaped) (read ++ [c])) text
  | .line read, [] => some [.unended read]
  | .line read, '\\' :: '\n' :: text => cut (.line (read ++ ['\\', '\n'])) text
  | .line read, '\n' :: text => (cut .code text).map (.line read :: ·)
  | .line read, c :: text => cut (.line (read ++ [c])) text
  | .block _, [] => none
  | .block read, '*' :: '/' :: text => (cut .code text).map (.block read :: ·)
  | .block read, c :: text => cut (.block (read ++ [c])) text

/-! ## What is read from its own text -/

/-- The text behind a quote ends in that quote, and nowhere before. -/
def closes (quote : Char) : Bool → List Char → Bool
  | _, [] => false
  | escaped, '\\' :: '\n' :: text => closes quote escaped text
  | escaped, c :: text =>
    if c = '\n' then false
    else if c = quote ∧ escaped = false then text.isEmpty
    else closes quote (c = '\\' && !escaped) text

/-- A piece of code that is read in front of a text. -/
def Fits (rest : List Char) : Piece → Prop
  | .code c => (c ≠ '"' ∧ c ≠ '\'') ∧ (c = '/' → rest.head? ≠ some '/' ∧ rest.head? ≠ some '*') ∧
      (c = '\\' → rest.head? ≠ some '\n')
  | .literal text => ∃ quote body, (quote = '"' ∨ quote = '\'') ∧ text = quote :: body ∧
      closes quote false body = true
  | .unended _ => rest = []
  | _ => True

def Reads : List Piece → Prop
  | [] => True
  | p :: ps => Fits (render ps) p ∧ Reads ps

theorem Reads.of_append {ps qs : List Piece} (h : Reads (ps ++ qs)) : Reads qs := by
  induction ps with
  | nil => exact h
  | cons p ps ih => exact ih h.2

theorem Reads.fits {ps qs : List Piece} {p : Piece} (h : Reads (ps ++ p :: qs)) :
    Fits (render qs) p := h.of_append.1

/-- What the modes have read. -/
def Mode.front : Mode → List Char
  | code => []
  | literal _ _ read => read
  | line read => "//".toList ++ read
  | block read => ['/', '*'] ++ read

/-- What was read of a literal in front of a text closes nothing. -/
def Mode.Opens (text : List Char) : Mode → Prop
  | literal quote escaped read => (quote = '"' ∨ quote = '\'') ∧ ∃ body, read = quote :: body ∧
      ∀ front, front <+: text → front ≠ [] →
        closes quote false (body ++ front) = closes quote escaped front
  | _ => True

theorem closes_cons {quote c : Char} {escaped : Bool} {text : List Char}
    (hsplice : ∀ rest, c = '\\' → text ≠ '\n' :: rest) :
    closes quote escaped (c :: text) = if c = '\n' then false
      else if c = quote ∧ escaped = false then text.isEmpty
      else closes quote (c = '\\' && !escaped) text := by
  rw [closes]
  exact hsplice

/-- The pieces have the text they were cut from. -/
theorem render_of_cut {mode : Mode} {text : List Char} {ps : List Piece}
    (h : cut mode text = some ps) : render ps = mode.front ++ text := by
  fun_induction cut mode text generalizing ps with
  | case1 => simp_all [Mode.front]
  | case2 text ih | case3 text ih => simpa [Mode.front] using ih h
  | case4 text ih =>
      obtain ⟨qs, hqs, rfl⟩ := Option.map_eq_some_iff.1 h
      simp [ih hqs, Mode.front, Piece.text]
  | case5 c text _ _ _ _ ih => simpa [Mode.front] using ih h
  | case6 c text _ _ _ _ ih =>
      obtain ⟨qs, hqs, rfl⟩ := Option.map_eq_some_iff.1 h
      simp [ih hqs, Mode.front, Piece.text]
  | case7 | case9 | case16 => cases h
  | case8 quote escaped read text ih => simpa [Mode.front] using ih h
  | case10 quote escaped read c text _ _ _ ih =>
      obtain ⟨qs, hqs, rfl⟩ := Option.map_eq_some_iff.1 h
      simp [ih hqs, Mode.front, Piece.text]
  | case11 quote escaped read c text _ _ _ ih => simpa [Mode.front] using ih h
  | case12 read =>
      obtain rfl := Option.some.inj h
      simp [Mode.front, Piece.text]
  | case13 read text ih => simpa [Mode.front] using ih h
  | case14 read text ih =>
      obtain ⟨qs, hqs, rfl⟩ := Option.map_eq_some_iff.1 h
      simp [ih hqs, Mode.front, Piece.text]
  | case15 read c text _ _ ih => simpa [Mode.front] using ih h
  | case17 read text ih =>
      obtain ⟨qs, hqs, rfl⟩ := Option.map_eq_some_iff.1 h
      simp [ih hqs, Mode.front, Piece.text]
  | case18 read c text _ ih => simpa [Mode.front] using ih h

/-- Each piece is one that is read there. -/
theorem reads_of_cut {mode : Mode} {text : List Char} {ps : List Piece} (hmode : mode.Opens text)
    (h : cut mode text = some ps) : Reads ps := by
  fun_induction cut mode text generalizing ps with
  | case1 =>
      obtain rfl := Option.some.inj h
      trivial
  | case2 text ih | case3 text ih => exact ih trivial h
  | case4 text ih =>
      obtain ⟨qs, hqs, rfl⟩ := Option.map_eq_some_iff.1 h
      exact ⟨trivial, ih trivial hqs⟩
  | case5 c text _ _ _ hquote ih => exact ih ⟨hquote, [], rfl, fun _ _ _ => rfl⟩ h
  | case6 c text hline hblock hsplice hquote ih =>
      obtain ⟨qs, hqs, rfl⟩ := Option.map_eq_some_iff.1 h
      have hrest : render qs = text := render_of_cut hqs
      refine ⟨⟨not_or.1 hquote, fun hc => ⟨?_, ?_⟩, fun hc => ?_⟩, ih trivial hqs⟩
      · rw [hrest, ne_eq, List.head?_eq_some_iff]
        rintro ⟨rest, htext⟩
        exact hline rest hc htext
      · rw [hrest, ne_eq, List.head?_eq_some_iff]
        rintro ⟨rest, htext⟩
        exact hblock rest hc htext
      · rw [hrest, ne_eq, List.head?_eq_some_iff]
        rintro ⟨rest, htext⟩
        exact hsplice rest hc htext
  | case7 | case9 | case16 => cases h
  | case8 quote escaped read text ih =>
      obtain ⟨hquote, body, rfl, hopen⟩ := hmode
      refine ih ⟨hquote, body ++ ['\\', '\n'], rfl, fun front hfront hne => ?_⟩ h
      rw [List.append_assoc, hopen]
      · rfl
      · exact (List.prefix_append_right_inj ['\\', '\n']).2 hfront
      · exact List.cons_ne_nil _ _
  | case10 quote escaped read c text hsplice hline hclose ih =>
      obtain ⟨qs, hqs, rfl⟩ := Option.map_eq_some_iff.1 h
      obtain ⟨hquote, body, rfl, hopen⟩ := hmode
      refine ⟨⟨quote, body ++ [c], hquote, rfl, ?_⟩, ih trivial hqs⟩
      rw [hopen, closes_cons (fun rest _ htext => by cases htext), if_neg hline, if_pos hclose]
      · rfl
      · exact ⟨text, rfl⟩
      · exact List.cons_ne_nil _ _
  | case11 quote escaped read c text hsplice hline hclose ih =>
      obtain ⟨hquote, body, rfl, hopen⟩ := hmode
      refine ih ⟨hquote, body ++ [c], rfl, fun front hfront hne => ?_⟩ h
      rw [List.append_assoc, hopen, List.singleton_append, closes_cons, if_neg hline, if_neg hclose]
      · rintro rest hc rfl
        obtain ⟨back, hback⟩ := hfront
        exact hsplice _ hc hback.symm
      · exact (List.prefix_append_right_inj [c]).2 hfront
      · exact List.cons_ne_nil _ _
  | case12 read =>
      obtain rfl := Option.some.inj h
      exact ⟨rfl, trivial⟩
  | case13 read text ih => exact ih trivial h
  | case14 read text ih | case17 read text ih =>
      obtain ⟨qs, hqs, rfl⟩ := Option.map_eq_some_iff.1 h
      exact ⟨trivial, ih trivial hqs⟩
  | case15 read c text _ _ ih | case18 read c text _ ih => exact ih trivial h

/-- A literal is read up to the quote that closes it. -/
theorem cut_literal {quote : Char} (hquote : quote ≠ '\\') {escaped : Bool} {body : List Char}
    (h : closes quote escaped body = true) (read rest : List Char) :
    cut (.literal quote escaped read) (body ++ rest) =
      (cut .code rest).map (.literal (read ++ body) :: ·) := by
  fun_induction closes quote escaped body generalizing read with
  | case1 | case3 => cases h
  | case2 escaped text ih =>
      rw [List.cons_append, List.cons_append, cut, ih h]
      simp
  | case4 escaped c text hsplice hline hclose =>
      obtain rfl := List.isEmpty_iff.1 h
      rw [List.singleton_append, cut, if_neg hline, if_pos hclose]
      exact fun _ hc _ => hquote (hclose.1.symm.trans hc)
  | case5 escaped c text hsplice hline hclose ih =>
      rw [List.cons_append, cut, if_neg hline, if_neg hclose, ih h]
      · simp
      · intro back hc hback
        cases text with
        | nil => cases h
        | cons d text =>
            obtain ⟨rfl, -⟩ := List.cons.inj hback
            exact hsplice text hc rfl

/-- **Without comments a text is cut into the pieces it was put together from.** -/
theorem cut_render {ps : List Piece} (h : Reads ps) (hps : ∀ p ∈ ps, p.isComment = false) :
    cut .code (render ps) = some ps := by
  induction ps with
  | nil => rfl
  | cons p ps ih =>
      have hrest := ih h.2 fun q hq => hps q (List.mem_cons_of_mem p hq)
      have hp := hps p List.mem_cons_self
      cases p with
      | code c =>
          obtain ⟨hquote, hslash, hback⟩ := h.1
          rw [render_cons, Piece.text, List.singleton_append, cut, if_neg (not_or.2 hquote), hrest]
          · rfl
          · rintro rest rfl htext
            exact (hslash rfl).1 (by rw [htext, List.head?_cons])
          · rintro rest rfl htext
            exact (hslash rfl).2 (by rw [htext, List.head?_cons])
          · rintro rest rfl htext
            exact hback rfl (by rw [htext, List.head?_cons])
      | splice =>
          rw [render_cons, Piece.text, List.cons_append, List.singleton_append, cut, hrest]
          rfl
      | literal text =>
          obtain ⟨quote, body, hquote, rfl, hbody⟩ := h.1
          have hback : quote ≠ '\\' := by
            rcases hquote with rfl | rfl <;> decide
          have hcut := cut_literal hback hbody [quote] (render ps)
          rw [hrest] at hcut
          rw [render_cons, Piece.text, List.cons_append, cut, if_pos hquote, hcut]
          · rfl
          all_goals rintro rest rfl
          all_goals rcases hquote with hquote | hquote <;> cases hquote
      | line text | unended text | block text => cases hp

end Comment
end Floem
