import Floem.Comment.Tokens
import Floem.DefUse.Element
import Floem.Lib.Spans

/-!
# Calls

The calls that are written in a piece of C, and the calls that an execution of it makes.

* `pieces`, `callsIn` — the names in front of a parenthesis, outside of literals and comments.
* `Makes` — an execution makes some of the calls, and always the one a text begins with.
* `callsIn_call` — what is called by a text that begins with a call.
* `count_of_calls` — where a name is called, `count_occurrence` counts it.
-/

namespace Floem
namespace Fire

open Lib DefUse
open Comment (Piece cut lexing)

/-! ## Calls in a text -/

/-- The pieces of a text; a text that cannot be cut is letters only. -/
def pieces (text : List Char) : List Piece := (cut .code text).getD (text.map .code)

/-- The letters of names. -/
def letter : Piece → Bool
  | .code c => identChar c
  | _ => false

/-- A parenthesis opens behind the name. -/
def isCall (s : List Piece × List Piece) : Bool :=
  (s.2.dropWhile lexing.blank).head? == some (.code '(')

/-- The names that are called, in the order in which they are written. -/
def callsIn (text : List Char) : List (List Char) :=
  ((spans letter (pieces text)).2.filter isCall).map fun s => Comment.render s.1

/-- The text begins with a call. -/
def begins (text : List Char) : Bool :=
  match spans letter (pieces text) with
  | ([], s :: _) => isCall s
  | _ => false

/-- A letter twice, side by side. -/
def twice (c : Char) (ps : List Piece) : Bool :=
  (ps.zip ps.tail).any fun pair => pair.1 == .code c && pair.2 == .code c

/-- The operators behind which not all of an expression need be evaluated. -/
def conditional (text : List Char) : Bool :=
  .code '?' ∈ pieces text || twice '&' (pieces text) || twice '|' (pieces text)

/-- The number of calls that every execution makes: all, or the one the text begins with. -/
def sure (text : List Char) : ℕ :=
  if conditional text then (begins text).toNat else (callsIn text).length

/-- The calls of one execution of a text. -/
def Makes (text : List Char) (made : List (List Char)) : Prop :=
  ∃ some, some.Sublist ((callsIn text).drop (sure text)) ∧
    made = (callsIn text).take (sure text) ++ some

theorem makes_most (text : List Char) : Makes text (callsIn text) :=
  ⟨(callsIn text).drop (sure text), .refl _, (List.take_append_drop _ _).symm⟩

theorem makes_least (text : List Char) : Makes text ((callsIn text).take (sure text)) :=
  ⟨[], List.nil_sublist _, (List.append_nil _).symm⟩

theorem Makes.le_most {text : List Char} {made : List (List Char)} (h : Makes text made) :
    made.Sublist (callsIn text) := by
  obtain ⟨some, hsome, rfl⟩ := h
  have hall := List.Sublist.append_left hsome ((callsIn text).take (sure text))
  rwa [List.take_append_drop] at hall

theorem Makes.least_le {text : List Char} {made : List (List Char)} (h : Makes text made) :
    ((callsIn text).take (sure text)).Sublist made := by
  obtain ⟨some, -, rfl⟩ := h
  exact List.sublist_append_left _ _

/-! ## A text that begins with a call -/

/-- A letter that begins no literal, comment or line end. -/
def Ordinary (c : Char) : Prop := c ≠ '/' ∧ c ≠ '\\' ∧ c ≠ '"' ∧ c ≠ '\''

theorem ordinary_of_ident {c : Char} (h : identChar c = true) : Ordinary c := by
  refine ⟨?_, ?_, ?_, ?_⟩ <;> rintro rfl <;> revert h <;> decide

theorem cut_ordinary {c : Char} (h : Ordinary c) (text : List Char) :
    cut .code (c :: text) = (cut .code text).map (.code c :: ·) := by
  obtain ⟨hslash, hback, hquote⟩ := h
  rw [cut, if_neg (not_or.2 hquote)]
  · exact fun _ hc => absurd hc hslash
  · exact fun _ hc => absurd hc hslash
  · exact fun _ hc => absurd hc hback

theorem pieces_ordinary {front : List Char} (h : ∀ c ∈ front, Ordinary c) (text : List Char) :
    pieces (front ++ text) = front.map .code ++ pieces text := by
  induction front with
  | nil => rfl
  | cons c front ih =>
      have hrest := ih fun d hd => h d (List.mem_cons_of_mem c hd)
      rw [List.map_cons, List.cons_append, List.cons_append, ← hrest, pieces, pieces,
        cut_ordinary (h c List.mem_cons_self)]
      cases cut .code (front ++ text) <;> rfl

theorem render_pieces (text : List Char) : Comment.render (pieces text) = text := by
  rw [pieces]
  cases hcut : cut .code text with
  | some ps => exact Comment.render_of_cut hcut
  | none => exact Comment.render_map_code text

/-- **A call and what is called behind it.** -/
theorem callsIn_call {name spaces : List Char} (hne : name ≠ [])
    (hname : ∀ c ∈ name, identChar c = true) (hspaces : ∀ c ∈ spaces, c = ' ')
    (text : List Char) :
    begins (name ++ spaces ++ '(' :: text) = true ∧
      ∃ rest, callsIn (name ++ spaces ++ '(' :: text) = name :: rest := by
  have hfront : ∀ c ∈ name ++ spaces ++ ['('], Ordinary c := by
    intro c hc
    rw [List.mem_append, List.mem_append, List.mem_singleton] at hc
    rcases hc with (hc | hc) | rfl
    · exact ordinary_of_ident (hname c hc)
    · rw [hspaces c hc]
      unfold Ordinary
      decide
    · unfold Ordinary
      decide
  obtain ⟨g, l, hrest⟩ : ∃ g l, spans letter (pieces text) = (g, l) := ⟨_, _, rfl⟩
  have hgap : ∀ p ∈ spaces.map Piece.code ++ [.code '('], letter p = false := by
    intro p hp
    rcases List.mem_append.1 hp with hp | hp
    · obtain ⟨c, hc, rfl⟩ := List.mem_map.1 hp
      rw [hspaces c hc]
      rfl
    · rw [List.mem_singleton.1 hp]
      rfl
  have hbehind := spans_gap hgap (pieces text)
  rw [hrest] at hbehind
  have hword := spans_word (show name.map Piece.code ≠ [] by simpa using hne)
    (fun p hp => by
      obtain ⟨c, hc, rfl⟩ := List.mem_map.1 hp
      exact hname c hc) hbehind (fun _ => by simp)
  have hpieces : pieces (name ++ spaces ++ '(' :: text) =
      name.map .code ++ (spaces.map .code ++ [.code '('] ++ pieces text) := by
    have hcut := pieces_ordinary hfront text
    simpa using hcut
  have hcall : isCall (name.map .code, spaces.map .code ++ [.code '('] ++ g) = true := by
    have hblank : ∀ p ∈ spaces.map Piece.code, lexing.blank p = true := by
      intro p hp
      obtain ⟨c, hc, rfl⟩ := List.mem_map.1 hp
      rw [hspaces c hc]
      rfl
    rw [isCall, List.append_assoc, List.dropWhile_append_of_pos hblank]
    rfl
  rw [begins, callsIn, hpieces, hword]
  refine ⟨hcall, (l.filter isCall).map fun s => Comment.render s.1, ?_⟩
  rw [List.filter_cons_of_pos hcall, List.map_cons, Comment.render_map_code]

/-! ## Names that are counted -/

theorem closes_last {quote : Char} {escaped : Bool} {body : List Char}
    (h : Comment.closes quote escaped body = true) : ∃ before, body = before ++ [quote] := by
  fun_induction Comment.closes quote escaped body with
  | case1 | case3 => cases h
  | case2 escaped text ih =>
      obtain ⟨before, rfl⟩ := ih h
      exact ⟨'\\' :: '\n' :: before, rfl⟩
  | case4 escaped c text _ _ hclose =>
      obtain rfl := List.isEmpty_iff.1 h
      exact ⟨[], congrArg (· :: []) hclose.1⟩
  | case5 escaped c text _ _ _ ih =>
      obtain ⟨before, rfl⟩ := ih h
      exact ⟨c :: before, rfl⟩

/-- What is no letter begins and ends with no letter. -/
theorem text_first {rest : List Char} {p : Piece} (h : Comment.Fits rest p)
    (hp : letter p = false) : ∃ d after, p.text = d :: after ∧ identChar d = false := by
  cases p with
  | code c => exact ⟨c, [], rfl, hp⟩
  | splice => exact ⟨'\\', ['\n'], rfl, by decide⟩
  | literal text =>
      obtain ⟨quote, body, hquote, rfl, -⟩ := h
      refine ⟨quote, body, rfl, ?_⟩
      rcases hquote with rfl | rfl <;> decide
  | line text => exact ⟨'/', '/' :: text ++ ['\n'], rfl, by decide⟩
  | unended text => exact ⟨'/', '/' :: text, rfl, by decide⟩
  | block text => exact ⟨'/', '*' :: text ++ ['*', '/'], rfl, by decide⟩

theorem text_last {rest : List Char} {p : Piece} (h : Comment.Fits rest p) (hrest : rest ≠ [])
    (hp : letter p = false) : ∃ before d, p.text = before ++ [d] ∧ identChar d = false := by
  cases p with
  | code c => exact ⟨[], c, rfl, hp⟩
  | splice => exact ⟨['\\'], '\n', rfl, by decide⟩
  | literal text =>
      obtain ⟨quote, body, hquote, rfl, hbody⟩ := h
      obtain ⟨before, rfl⟩ := closes_last hbody
      refine ⟨quote :: before, quote, rfl, ?_⟩
      rcases hquote with rfl | rfl <;> decide
  | line text => exact ⟨'/' :: '/' :: text, '\n', rfl, by decide⟩
  | unended text => exact absurd h hrest
  | block text => exact ⟨'/' :: '*' :: text ++ ['*'], '/', by simp [Piece.text], by decide⟩

/-- What the pieces say about the text around them, whether it could be cut or not. -/
theorem fits_pieces {text : List Char} {front back : List Piece} {p : Piece}
    (h : pieces text = front ++ p :: back) :
    Comment.Fits (Comment.render back) p ∨ ∃ c, p = .code c := by
  rw [pieces] at h
  cases hcut : cut .code text with
  | some ps =>
      rw [hcut, Option.getD_some] at h
      subst h
      exact .inl (Comment.reads_of_cut (show Comment.Mode.code.Opens text from trivial) hcut).fits
  | none =>
      rw [hcut, Option.getD_none] at h
      have hmem : p ∈ text.map Piece.code := h ▸ by simp
      obtain ⟨c, -, rfl⟩ := List.mem_map.1 hmem
      exact .inr ⟨c, rfl⟩

theorem word_eq_map {w : List Piece} (hw : ∀ p ∈ w, letter p = true) :
    w = (Comment.render w).map .code := by
  induction w with
  | nil => rfl
  | cons p w ih =>
      have hrest := ih fun q hq => hw q (List.mem_cons_of_mem p hq)
      have hp := hw p List.mem_cons_self
      cases p with
      | code c =>
          rw [Comment.render_cons, List.map_append, ← hrest]
          rfl
      | _ => cases hp

/-- A name that is called stands between what is no letter. -/
theorem called_in_pieces {name text : List Char} (h : name ∈ callsIn text) :
    ∃ front q rest, pieces text = front ++ (name.map .code ++ q :: rest) ∧ name ≠ [] ∧
      (∀ c ∈ name, identChar c = true) ∧ letter q = false ∧
      (front = [] ∨ ∃ f p, front = f ++ [p] ∧ letter p = false) := by
  obtain ⟨⟨w, gap⟩, hmem, rfl⟩ := List.mem_map.1 h
  obtain ⟨hmem, hcall⟩ := List.mem_filter.1 hmem
  have hproper : Proper letter (spans letter (pieces text)) := spans_proper (pieces text)
  have hrender : Lib.render (spans letter (pieces text)) = pieces text := render_spans (pieces text)
  obtain ⟨front, back, haround, hne, hw, hgap, hfront⟩ := around_word hproper.words hmem
  rw [Lib.render, haround] at hrender
  have hname := word_eq_map hw
  -- behind the name is a gap, because a parenthesis opens there
  cases gap with
  | nil => cases hcall
  | cons q gap =>
      refine ⟨(spans letter (pieces text)).1 ++ front, q, gap ++ back, ?_, fun hnil => hne ?_,
        fun c hc => ?_, hgap q List.mem_cons_self, ?_⟩
      · rw [← hname, List.append_assoc]
        exact hrender.symm
      · rw [hname, hnil]
        rfl
      · have hmem : Piece.code c ∈ w := by
          rw [hname]
          exact List.mem_map_of_mem hc
        exact hw _ hmem
      · rcases hfront with rfl | ⟨f, p, rfl, hp⟩
        · obtain hnil | ⟨f, p, hgap⟩ := List.eq_nil_or_concat' (spans letter (pieces text)).1
          · exact .inl (by rw [hnil]; rfl)
          · have hp := hproper.gap p (by rw [hgap]; simp)
            exact .inr ⟨f, p, by rw [hgap, List.append_nil], hp⟩
        · exact .inr ⟨(spans letter (pieces text)).1 ++ f, p, by simp, hp⟩

/-- **Where a name is called, `count_occurrence` counts it**, if the text begins with no name. -/
theorem search_of_called {name text : List Char} (hfirst : ∀ c ∈ text.head?, identChar c = false)
    (h : name ∈ callsIn text) : search (wholeNameAt name) text ≠ none := by
  obtain ⟨front, q, rest, hpieces, hne, hname, hq, hfront⟩ := called_in_pieces h
  have htext : text = Comment.render front ++ (name ++ Comment.render (q :: rest)) := by
    rw [← render_pieces text, hpieces]
    simp
  obtain ⟨e, after, hbehind, he⟩ : ∃ e after,
      Comment.render (q :: rest) = e :: after ∧ identChar e = false := by
    have hsplit : pieces text = front ++ name.map .code ++ q :: rest := by
      rw [hpieces, List.append_assoc]
    obtain ⟨e, after, hq, he⟩ : ∃ e after, q.text = e :: after ∧ identChar e = false := by
      rcases fits_pieces hsplit with hfits | ⟨c, rfl⟩
      · exact text_first hfits hq
      · exact ⟨c, [], rfl, hq⟩
    exact ⟨e, after ++ Comment.render rest, by simp [hq], he⟩
  obtain ⟨before, d, hlast, hd⟩ : ∃ before d,
      Comment.render front = before ++ [d] ∧ identChar d = false := by
    rcases hfront with rfl | ⟨f, p, rfl, hp⟩
    · cases name with
      | nil => exact absurd rfl hne
      | cons c name =>
          have hc := hfirst c (by rw [htext]; rfl)
          rw [hname c List.mem_cons_self] at hc
          cases hc
    · have hsplit : pieces text = f ++ p :: (name.map .code ++ q :: rest) := by
        rw [hpieces, List.append_assoc]
        rfl
      have hrest : Comment.render (name.map Piece.code ++ q :: rest) ≠ [] := by
        simp [hne]
      obtain ⟨before, d, hlast, hd⟩ : ∃ before d, p.text = before ++ [d] ∧ identChar d = false := by
        rcases fits_pieces hsplit with hfits | ⟨c, rfl⟩
        · exact text_last hfits hrest hp
        · exact ⟨[], c, rfl, hp⟩
      exact ⟨Comment.render f ++ before, d, by simp [hlast], hd⟩
  intro hnone
  have hhere := search_eq_none.1 hnone (d :: (name ++ e :: after))
    ⟨before, by rw [htext, hlast, hbehind]; simp⟩
  have hmatch : wholeNameAt name (d :: (name ++ e :: after)) = some after := by
    rw [wholeNameAt, nameAt, hd, if_neg Bool.false_ne_true, literal_eq_some.2 rfl,
      Option.bind_eq_bind, Option.bind_some]
    simp [he]
  cases hhere.symm.trans hmatch

end Fire
end Floem
