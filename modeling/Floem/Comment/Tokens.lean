import Floem.Comment.Reading
import Floem.DefUse.Scan
import Floem.Lib.Munch

/-!
# Tokens

The tokens of a C text, and which of them are directives: `#` begins one where it begins a line,
and the line end ends it.  A comment is a blank, and a line comment ends its line.

* `tokens`, `directives` — what the pieces of a text say to the compiler.
* `withoutComments` — the pieces that are left when the comments go, each with its line end.
* `Parted` — what is in front of each comment and what is behind it can do without it.
* `parted_iff` — just then nothing is lost.
-/

namespace Floem
namespace Comment

open Lib DefUse

/-! ## Tokens -/

/-- The punctuators of more than one letter, and what they begin with. -/
def punctuators : List (List Char) :=
  ["->", "++", "--", "<<", ">>", "<=", ">=", "==", "!=", "&&", "||", "*=", "/=", "%=", "+=",
    "-=", "<<=", ">>=", "&=", "^=", "|=", "..", "...", "##", "<:", ":>", "<%", "%>", "%:",
    "%:%", "%:%:"].map String.toList

/-- A number: a digit, or a dot and a digit. -/
def beginsNumber : List Char → Bool
  | '.' :: c :: _ => c.isDigit
  | c :: _ => c.isDigit
  | [] => false

/-- A blank of C. -/
def isBlank (c : Char) : Bool := c ∈ [' ', '\t', '\n', '\r', '\x0b', '\x0c']

/-- Tokens are as long as they can be. -/
def lexing : Munch Piece where
  blank
    | .code c => isBlank c
    | .literal _ => false
    | _ => true
  takes tok
    | .code c =>
      let word := render tok
      if beginsNumber word then
        identChar c || c == '.' ||
          (c == '+' || c == '-') && word.getLast?.any (· ∈ ['e', 'E', 'p', 'P'])
      else if word.all identChar then identChar c
      else word ++ [c] ∈ punctuators || word == ['.'] && c.isDigit
    | .literal _ => render tok ∈ ["L", "u", "U", "u8"].map String.toList
    | _ => false

/-- The tokens; a line that goes on behind its end is one line. -/
def tokens (ps : List Piece) : List (List Piece) := lexing.munch [] (ps.filter (· ≠ .splice))

/-! ## Directives -/

/-- What has been read of a line. -/
inductive Line
  | start
  /-- It is a directive. -/
  | directive
  | code
  deriving DecidableEq, Repr

/-- The line behind a piece that is neither blank nor a comment. -/
def Line.word (line : Line) (p : Piece) : Line :=
  if line = .start then if p = .code '#' then .directive else .code else line

/-- What a piece is in its line: the `#` that begins a directive, in a directive, or code. -/
def Line.mark (line : Line) (p : Piece) : Line :=
  if line = .start then if p = .code '#' then .start else .code else line

/-- Blanks and block comments. -/
def Piece.isBlank : Piece → Bool
  | .code c => Comment.isBlank c && c ≠ '\n'
  | .literal _ | .line _ => false
  | _ => true

/-- The line ends. -/
def Piece.endsLine : Piece → Bool
  | .code c => c = '\n'
  | .line _ => true
  | _ => false

/-- The line behind a piece. -/
def Line.next (line : Line) (p : Piece) : Line :=
  if p.endsLine then .start else if p.isBlank then line else line.word p

/-- The line behind these pieces. -/
def Line.behind (line : Line) (ps : List Piece) : Line := ps.foldl Line.next line

/-- What the pieces are in their lines. -/
def directives (line : Line) : List Piece → List Line
  | [] => []
  | p :: ps =>
    (if p.endsLine || p.isBlank then [] else [line.mark p]) ++ directives (line.next p) ps

/-- What comes next in the line. -/
def word : List Piece → Option Piece
  | [] => none
  | p :: ps => if p.endsLine then none else if p.isBlank then word ps else some p

/-- A line of this kind can go on with this piece as if it began there. -/
def Line.Joins (line : Line) (next : Option Piece) : Prop :=
  ∀ p, next = some p → line.mark p = Line.mark .start p

theorem Line.word_of_mark {line : Line} {p : Piece} (h : line.mark p = Line.mark .start p) :
    line.word p = Line.word .start p := by
  cases line with
  | start => rfl
  | directive =>
      have hno : Line.mark .directive p = .directive := if_neg (by decide)
      rw [hno, Line.mark, if_pos rfl] at h
      split_ifs at h
  | code =>
      have hcode : Line.mark .code p = .code := if_neg (by decide)
      rw [hcode, Line.mark, if_pos rfl] at h
      split_ifs at h with hp
      rw [Line.word, Line.word, if_neg (by decide), if_pos rfl, if_neg hp]

/-- The line in front does not matter just if the pieces can begin one. -/
theorem directives_eq_iff {line : Line} {ps : List Piece} :
    directives line ps = directives .start ps ↔ line.Joins (word ps) := by
  induction ps with
  | nil => exact iff_of_true rfl fun p hp => (by cases hp)
  | cons p ps ih =>
      rw [directives, directives, word]
      cases hend : p.endsLine with
      | true =>
          rw [Line.next, Line.next, hend, if_pos rfl, if_pos rfl]
          exact iff_of_true rfl fun p hp => (by cases hp)
      | false =>
          rw [Line.next, Line.next, hend, if_neg Bool.false_ne_true, if_neg Bool.false_ne_true,
            Bool.false_or]
          cases hblank : p.isBlank with
          | true =>
              simp only [if_true, Bool.false_eq_true, if_false, List.nil_append]
              exact ih
          | false =>
              simp only [Bool.false_eq_true, if_false, List.singleton_append, List.cons.injEq]
              constructor
              · rintro ⟨hmark, -⟩ q hq
                obtain rfl := Option.some.inj hq
                exact hmark
              · intro h
                exact ⟨h p rfl, by rw [Line.word_of_mark (h p rfl)]⟩

/-- The line behind pieces, from the middle of a line and from its beginning: the same, or they
are all blank. -/
theorem behind_or {line : Line} {ps qs : List Piece} (h : line.Joins (word (ps ++ qs))) :
    line.behind ps = Line.behind .start ps ∨
      line.behind ps = line ∧ Line.behind .start ps = .start ∧ word (ps ++ qs) = word qs := by
  induction ps with
  | nil => exact .inr ⟨rfl, rfl, rfl⟩
  | cons p ps ih =>
      have hcons : ∀ line : Line, line.behind (p :: ps) = (line.next p).behind ps := fun _ => rfl
      rw [List.cons_append, word] at h ⊢
      rw [hcons, hcons, Line.next, Line.next]
      cases hend : p.endsLine with
      | true => exact .inl rfl
      | false =>
          rw [hend] at h
          cases hblank : p.isBlank with
          | true =>
              rw [hblank] at h
              exact ih h
          | false =>
              rw [hblank] at h
              simp only [Bool.false_eq_true, if_false]
              exact .inl (by rw [Line.word_of_mark (h p rfl)])

/-! ## Without comments -/

def withoutComments (ps : List Piece) : List Piece := ps.filter fun p => !p.isComment

@[simp] theorem withoutComments_nil : withoutComments [] = [] := rfl

@[simp] theorem withoutComments_append (ps qs : List Piece) :
    withoutComments (ps ++ qs) = withoutComments ps ++ withoutComments qs :=
  List.filter_append _ _

theorem withoutComments_cons_code {p : Piece} (hp : p.isComment = false) (ps : List Piece) :
    withoutComments (p :: ps) = p :: withoutComments ps :=
  List.filter_cons_of_pos (by simp [hp])

theorem withoutComments_cons_comment {p : Piece} (hp : p.isComment = true) (ps : List Piece) :
    withoutComments (p :: ps) = withoutComments ps :=
  List.filter_cons_of_neg (by simp [hp])

theorem withoutComments_of_none {ps : List Piece} (h : ∀ p ∈ ps, p.isComment = false) :
    withoutComments ps = ps := List.filter_eq_self.2 fun p hp => by simp [h p hp]

/-- No token goes on from the front into the back. -/
def Apart (front back : List Piece) : Prop :=
  lexing.stops (lexing.current [] (front.filter (· ≠ .splice))) (back.filter (· ≠ .splice)) = true

/-- **The comments can go.**  What is in front of each and what is behind it are apart, and
where a line comment goes with its line end, what is behind it can go on the line in front:
behind a directive nothing comes in the next line, and behind other code no `#`. -/
def Parted (ps : List Piece) : Prop :=
  ∀ front p back, ps = front ++ p :: back → p.isComment = true →
    Apart (withoutComments front) (withoutComments back) ∧
    (p.isLine = true →
      (Line.behind .start (withoutComments front)).Joins (word (withoutComments back)))

theorem filter_withoutComments (ps : List Piece) : (withoutComments ps).filter (· ≠ .splice) =
    (ps.filter (· ≠ .splice)).filter fun p => !p.isComment := by
  rw [withoutComments, List.filter_filter, List.filter_filter]
  exact List.filter_congr fun p _ => Bool.and_comm _ _

theorem tokens_withoutComments {ps : List Piece} :
    tokens (withoutComments ps) = tokens ps ↔
      ∀ front p back, ps = front ++ p :: back → p.isComment = true →
        Apart (withoutComments front) (withoutComments back) := by
  rw [tokens, filter_withoutComments]
  refine (Munch.munch_filter fun p hp => ?_).trans ?_
  · cases p with
    | code c | splice | literal text => cases hp
    | line text | unended text | block text => rfl
  constructor
  · rintro h front p back rfl hp
    have hp' : p ≠ .splice := by
      rintro rfl
      cases hp
    rw [Apart, filter_withoutComments, filter_withoutComments]
    refine h _ p _ ?_ (by simp [hp])
    rw [List.filter_append, List.filter_cons_of_pos (by simpa using hp')]
  · intro h before p after hsplit hp
    rw [Bool.not_eq_false'] at hp
    obtain ⟨front, rest, rfl, rfl, hrest⟩ := List.filter_eq_append_iff.1 hsplit
    obtain ⟨skipped, back, rfl, hskipped, hkeep, rfl⟩ := List.filter_eq_cons_iff.1 hrest
    have hapart := h (front ++ skipped) p back (by simp) hp
    have hskip : skipped.filter (· ≠ .splice) = [] :=
      List.filter_eq_nil_iff.2 hskipped
    rwa [Apart, filter_withoutComments, filter_withoutComments, List.filter_append, hskip,
      List.append_nil] at hapart

/-- What comes next in a line without comments comes first with them too, where a line
begins. -/
theorem directives_of_word {ps : List Piece} {p : Piece} (h : word (withoutComments ps) = some p)
    (line : Line) : (∃ rest, directives line (withoutComments ps) = line.mark p :: rest) ∧
      ∃ rest, directives .start ps = Line.mark .start p :: rest := by
  induction ps with
  | nil => cases h
  | cons q ps ih =>
      cases hq : q.isComment with
      | true =>
          rw [withoutComments_cons_comment hq] at h ⊢
          obtain ⟨hfront, rest, hrest⟩ := ih h
          refine ⟨hfront, rest, ?_⟩
          cases q with
          | code c | splice | literal text => cases hq
          | line text | unended text | block text => exact hrest
      | false =>
          rw [withoutComments_cons_code hq] at h ⊢
          rw [word] at h
          rw [directives, directives, Line.next, Line.next]
          cases hend : q.endsLine with
          | true =>
              rw [hend] at h
              cases h
          | false =>
              cases hblank : q.isBlank with
              | true =>
                  rw [hend, hblank] at h
                  simp only [Bool.or_true, if_true, Bool.false_eq_true, if_false, List.nil_append]
                  exact ih h
              | false =>
                  rw [hend, hblank] at h
                  obtain rfl := Option.some.inj h
                  simp

/-- Where the line comments go with their line ends, behind this line. -/
def LinesPart (line : Line) (ps : List Piece) : Prop :=
  ∀ front text back, ps = front ++ .line text :: back →
    (line.behind (withoutComments front)).Joins (word (withoutComments back))

theorem linesPart_cons {p : Piece} (hp : p.isLine = false) (line : Line) (ps : List Piece) :
    LinesPart line (p :: ps) ↔ LinesPart (line.next p) ps := by
  have hbehind : ∀ front, line.behind (withoutComments (p :: front)) =
      (line.next p).behind (withoutComments front) := by
    intro front
    cases hcomment : p.isComment with
    | true =>
        rw [withoutComments_cons_comment hcomment]
        cases p with
        | code c | splice | literal text => cases hcomment
        | line text => cases hp
        | unended text | block text => rfl
    | false => rw [withoutComments_cons_code hcomment]; rfl
  constructor
  · intro h front text back hsplit
    rw [← hbehind]
    exact h (p :: front) text back (by rw [hsplit]; rfl)
  · intro h front text back hsplit
    cases front with
    | nil =>
        obtain ⟨rfl, -⟩ := List.cons.inj hsplit
        cases hp
    | cons q front =>
        rw [List.cons_append, List.cons.injEq] at hsplit
        obtain ⟨rfl, hsplit⟩ := hsplit
        rw [hbehind]
        exact h front text back hsplit

theorem linesPart_cons_line (line : Line) (text : List Char) (ps : List Piece) :
    LinesPart line (.line text :: ps) ↔
      line.Joins (word (withoutComments ps)) ∧ LinesPart .start ps := by
  have hsplits : ∀ {front t back}, ps = front ++ .line t :: back → withoutComments ps =
      withoutComments front ++ withoutComments back := by
    rintro front t back rfl
    rw [withoutComments_append, withoutComments_cons_comment rfl]
  constructor
  · intro h
    have hhere := h [] text ps rfl
    refine ⟨hhere, fun front t back hsplit => ?_⟩
    rcases behind_or (hsplits hsplit ▸ hhere) with hsame | ⟨-, hstart, -⟩
    · rw [← hsame]
      exact h (.line text :: front) t back (by rw [hsplit]; rfl)
    · rw [hstart]
      exact fun p _ => rfl
  · rintro ⟨hhere, h⟩ front t back hsplit
    cases front with
    | nil =>
        obtain ⟨-, rfl⟩ := List.cons.inj hsplit
        exact hhere
    | cons q front =>
        rw [List.cons_append, List.cons.injEq] at hsplit
        obtain ⟨rfl, hsplit⟩ := hsplit
        rw [withoutComments_cons_comment rfl]
        rw [hsplits hsplit] at hhere
        rcases behind_or hhere with hsame | ⟨hline, -, hword⟩
        · rw [hsame]
          exact h front t back hsplit
        · rw [hline, ← hword]
          exact hhere

theorem directives_withoutComments {ps : List Piece} (line : Line) :
    directives line (withoutComments ps) = directives line ps ↔ LinesPart line ps := by
  induction ps generalizing line with
  | nil => exact ⟨fun _ front text back hsplit => by simp at hsplit, fun _ => rfl⟩
  | cons p ps ih =>
      cases hp : p.isComment with
      | false =>
          have hline : p.isLine = false := by
            cases p with
            | line text => cases hp
            | _ => rfl
          rw [withoutComments_cons_code hp, directives, directives, List.append_cancel_left_eq, ih,
            linesPart_cons hline]
      | true =>
          rw [withoutComments_cons_comment hp]
          cases p with
          | code c | splice | literal text => cases hp
          | unended text | block text =>
              rw [linesPart_cons rfl]
              exact ih line
          | line text =>
              have hbegin : directives line (.line text :: ps) = directives .start ps := rfl
              rw [linesPart_cons_line, ← ih, hbegin, ← directives_eq_iff]
              constructor
              · intro h
                have hjoins : directives line (withoutComments ps) =
                    directives .start (withoutComments ps) := by
                  rw [directives_eq_iff]
                  intro p hp
                  obtain ⟨⟨rest, hrest⟩, rest', hrest'⟩ := directives_of_word hp line
                  rw [hrest, hrest'] at h
                  exact (List.cons.inj h).1
                exact ⟨hjoins, hjoins.symm.trans h⟩
              · rintro ⟨hjoins, h⟩
                exact hjoins.trans h

/-- **Nothing is lost** just where the comments can go. -/
theorem parted_iff {ps : List Piece} : Parted ps ↔ tokens (withoutComments ps) = tokens ps ∧
    directives .start (withoutComments ps) = directives .start ps := by
  rw [tokens_withoutComments, directives_withoutComments]
  constructor
  · intro h
    exact ⟨fun front p back hsplit hp => (h front p back hsplit hp).1,
      fun front text back hsplit => (h front (.line text) back hsplit rfl).2 rfl⟩
  · rintro ⟨happart, hlines⟩ front p back hsplit hp
    refine ⟨happart front p back hsplit hp, fun hline => ?_⟩
    cases p with
    | line text => exact hlines front text back hsplit
    | _ => cases hline

end Comment
end Floem
