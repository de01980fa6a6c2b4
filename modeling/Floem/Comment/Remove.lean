import Floem.Comment.Tokens
import Floem.DefUse.Element

/-!
# Removing comments

`remove_comment` of `graph_ir.py` on C texts.

* `Preserves` — the text that is left has the same tokens and directives, and no comment.
* `Seen`, `Found` — the two patterns match where comments begin, and find their ends.
* `removeComment_of_le` — the recursion ends.
* `removeComment_preserves` — where the comments are found, the program is preserved just if
  what stands around them can do without them.
-/

namespace Floem
namespace Comment

open Lib DefUse

/-! ## The statement -/

/-- **`remove_comment` preserves the program** with these pieces. -/
def Preserves (code : List Char) (ps : List Piece) : Prop :=
  ∃ qs, cut .code (removeComment code.length code) = some qs ∧ tokens qs = tokens ps ∧
    directives .start qs = directives .start ps ∧ ∀ q ∈ qs, q.isComment = false

/-- A pattern matches nowhere in a piece of text. -/
def Quiet (pattern : List Char → Option (List Char)) (text rest : List Char) : Prop :=
  ∀ s, s <:+ text → s ≠ [] → pattern (s ++ rest) = none

def withoutLines (ps : List Piece) : List Piece := ps.filter fun p => !p.isLine

theorem withoutLines_append (ps qs : List Piece) :
    withoutLines (ps ++ qs) = withoutLines ps ++ withoutLines qs := List.filter_append _ _

theorem withoutLines_cons_line {p : Piece} (hp : p.isLine = true) (ps : List Piece) :
    withoutLines (p :: ps) = withoutLines ps := List.filter_cons_of_neg (by simp [hp])

theorem withoutLines_of_none {ps : List Piece} (h : ∀ p ∈ ps, p.isLine = false) :
    withoutLines ps = ps := List.filter_eq_self.2 fun p hp => by simp [h p hp]

theorem isLine_of_not_comment {p : Piece} (h : p.isComment = false) : p.isLine = false := by
  cases p with
  | line text => cases h
  | _ => rfl

/-- The patterns match at the beginning of a comment and nowhere else, and they find its end:
in a literal they match neither before nor after the comments behind it go, one by one. -/
def Seen (back : List Piece) : Piece → Prop
  | .literal text => Quiet lineComment text (render back) ∧ ∀ done left, back = done ++ left →
      Quiet blockComment text (render (withoutComments done ++ withoutLines left))
  | .line text => '\n' ∉ text
  | .unended _ => False
  | .block text => '*' ∉ text ∧ Quiet lineComment (Piece.block text).text (render back)
  | _ => True

/-- **The code sees the comments** as they are. -/
structure Found (ps : List Piece) : Prop where
  seen : ∀ front p back, ps = front ++ p :: back → Seen back p
  /-- No line end stands in the middle of what begins a comment: neither pattern matches there,
  and the pieces do not show that comment. -/
  whole : ∀ front n p back,
    ps = front ++ .code '/' :: (List.replicate (n + 1) .splice ++ p :: back) →
      p.text.head? ≠ some '/' ∧ p.text.head? ≠ some '*'
  /-- No backslash in front of a comment comes to stand in front of a line end. -/
  unspliced : ∀ front p back, ps = front ++ p :: back → p.isComment = true →
    (withoutComments front).getLast? = some (.code '\\') →
    (withoutComments back).head? ≠ some (.code '\n')

/-! ## The patterns -/

theorem dropWhile_stop {c : Char} {text rest : List Char} (h : c ∉ text) :
    (text ++ c :: rest).dropWhile (· ≠ c) = c :: rest := by
  have hpos : ∀ d ∈ text, decide (d ≠ c) = true := fun d hd =>
    decide_eq_true (ne_of_mem_of_not_mem hd h)
  rw [List.dropWhile_append_of_pos hpos]
  exact List.dropWhile_cons_of_neg (by simp)

theorem lineComment_line {text : List Char} (h : '\n' ∉ text) (rest : List Char) :
    lineComment ((Piece.line text).text ++ rest) = some rest := by
  have htext : (Piece.line text).text ++ rest = "//".toList ++ (text ++ '\n' :: rest) := by
    simp [Piece.text]
  rw [htext, lineComment, literal_eq_some.2 rfl, Option.bind_eq_bind, Option.bind_some,
    dropWhile_stop h]
  exact literal_eq_some.2 rfl

theorem blockComment_block {text : List Char} (h : '*' ∉ text) (rest : List Char) :
    blockComment ((Piece.block text).text ++ rest) = some rest := by
  have htext : (Piece.block text).text ++ rest = ['/', '*'] ++ (text ++ '*' :: '/' :: rest) := by
    simp [Piece.text]
  rw [htext, blockComment, literal_eq_some.2 rfl, Option.bind_eq_bind, Option.bind_some,
    dropWhile_stop h]
  exact literal_eq_some.2 rfl

theorem lineComment_eq_none {text : List Char} :
    lineComment text = none ↔ ∀ body, text = '/' :: '/' :: body → '\n' ∉ body := by
  constructor
  · rintro h body rfl hbody
    obtain ⟨line, rest, rfl, hline⟩ := List.eq_append_cons_of_mem hbody
    have hfound := lineComment_line hline rest
    rw [show (Piece.line line).text ++ rest = '/' :: '/' :: (line ++ '\n' :: rest) by
      simp [Piece.text]] at hfound
    cases h.symm.trans hfound
  · intro h
    rw [Option.eq_none_iff_forall_ne_some]
    intro rest hrest
    obtain ⟨body, hbody, hend⟩ := Option.bind_eq_some_iff.1 hrest
    have hmem : '\n' ∈ body.dropWhile (· ≠ '\n') := by
      rw [literal_eq_some.1 hend]
      exact List.mem_cons_self
    exact h body (literal_eq_some.1 hbody) (List.dropWhile_subset _ hmem)

/-- A match stays where a comment comes in between. -/
theorem lineComment_insert {s comment back : List Char} (hs : s ≠ [])
    (hcomment : comment.head? = some '/') (h : lineComment (s ++ (comment ++ back)) = none) :
    lineComment (s ++ back) = none := by
  rw [lineComment_eq_none] at h ⊢
  intro body hbody hline
  obtain ⟨comment, rfl⟩ := List.head?_eq_some_iff.1 hcomment
  match s, hs with
  | [c], _ =>
      -- the second slash of the match would be the first letter of the comment
      obtain ⟨rfl, rfl⟩ := List.cons.inj hbody
      exact h (comment ++ '/' :: body) rfl (by simp [hline])
  | c :: d :: s, _ =>
      simp only [List.cons_append, List.cons.injEq] at hbody
      obtain ⟨rfl, rfl, rfl⟩ := hbody
      refine h (s ++ ('/' :: comment ++ back)) rfl ?_
      rcases List.mem_append.1 hline with hline | hline <;> simp [hline]

/-! ## Taking one comment out -/

theorem Piece.text_ne_nil {rest : List Char} {p : Piece} (h : Fits rest p) : p.text ≠ [] := by
  cases p with
  | literal text =>
      obtain ⟨quote, body, -, rfl, -⟩ := h
      exact List.cons_ne_nil quote body
  | _ => simp [Piece.text]

theorem Piece.head_comment {p : Piece} (hp : p.isComment = true) : p.text.head? = some '/' := by
  cases p with
  | code c | splice | literal text => cases hp
  | line text | unended text | block text => rfl

/-- What fits in front of a comment fits in front of what is behind it, unless a backslash
comes in front of a line end. -/
theorem Fits.remove {p : Piece} {front back comment : List Char}
    (hcomment : comment.head? = some '/') (hback : front = [] → p = .code '\\' →
      back.head? ≠ some '\n') (h : Fits (front ++ (comment ++ back)) p) :
    Fits (front ++ back) p := by
  obtain ⟨comment, rfl⟩ := List.head?_eq_some_iff.1 hcomment
  cases p with
  | code c =>
      obtain ⟨hquote, hslash, hsplice⟩ := h
      cases front with
      | nil => exact ⟨hquote, fun hc => absurd rfl (hslash hc).1, fun hc => hback rfl (hc ▸ rfl)⟩
      | cons d front => exact ⟨hquote, hslash, hsplice⟩
  | unended text =>
      have hnil : front ++ ('/' :: comment ++ back) = [] := h
      simp at hnil
  | splice | literal text | line text | block text => exact h

theorem Reads.remove {front back : List Piece} {c : Piece} (hc : c.isComment = true)
    (hback : front.getLast? = some (.code '\\') → (render back).head? ≠ some '\n')
    (h : Reads (front ++ c :: back)) : Reads (front ++ back) := by
  induction front with
  | nil => exact h.2
  | cons p front ih =>
      have hrest : Reads (front ++ c :: back) := h.2
      refine ⟨?_, ih (fun hlast => hback ?_) hrest⟩
      · change Fits (render (front ++ back)) p
        rw [render_append]
        refine Fits.remove (Piece.head_comment hc) (fun hfront hp => ?_) (by simpa using h.1)
        have hnil : front = [] := by
          cases front with
          | nil => rfl
          | cons q front =>
              rw [render_cons, List.append_eq_nil_iff] at hfront
              exact absurd hfront.1 (Piece.text_ne_nil hrest.1)
        exact hback (by rw [hnil, hp]; rfl)
      · rw [List.getLast?_cons, hlast]
        rfl

theorem Quiet.remove {text front back : List Char} {comment : List Char}
    (hcomment : comment.head? = some '/')
    (h : Quiet lineComment text (front ++ (comment ++ back))) :
    Quiet lineComment text (front ++ back) := by
  intro s hs hne
  have hthere := h s hs hne
  rw [← List.append_assoc] at hthere ⊢
  exact lineComment_insert (by simp [hne]) hcomment hthere

theorem head_render {c : Char} (hc : c ≠ '/' ∧ c ≠ '\\' ∧ c ≠ '"' ∧ c ≠ '\'') {ps : List Piece}
    (hps : Reads ps) (h : (render ps).head? = some c) : ps.head? = some (.code c) := by
  cases ps with
  | nil => cases h
  | cons p ps =>
      cases p with
      | code d =>
          obtain rfl := Option.some.inj h
          rfl
      | splice => exact absurd (Option.some.inj h).symm hc.2.1
      | literal text =>
          obtain ⟨quote, body, hquote, rfl, -⟩ := hps.1
          obtain rfl := Option.some.inj h
          exact (hquote.elim hc.2.2.1 hc.2.2.2).elim
      | line text | unended text | block text => exact absurd (Option.some.inj h).symm hc.1

/-- What the run keeps. -/
structure Clear (ps : List Piece) : Prop where
  reads : Reads ps
  seen : ∀ front p back, ps = front ++ p :: back → Seen back p
  unspliced : ∀ front p back, ps = front ++ p :: back → p.isComment = true →
    (withoutComments front).getLast? = some (.code '\\') →
    (withoutComments back).head? ≠ some (.code '\n')

/-- Where a piece stands, in front or behind. -/
theorem split_append {front back f b : List Piece} {p : Piece}
    (h : front ++ back = f ++ p :: b) :
    (∃ x, front = f ++ p :: x ∧ b = x ++ back) ∨ ∃ y, f = front ++ y ∧ back = y ++ p :: b := by
  obtain ⟨y, rfl, hy⟩ | ⟨x, rfl, hx⟩ := List.append_eq_append_iff.1 h
  · exact .inr ⟨y, rfl, hy⟩
  · cases x with
    | nil => exact .inr ⟨[], by simp, hx.symm⟩
    | cons q x =>
        obtain ⟨rfl, rfl⟩ := List.cons.inj hx
        exact .inl ⟨x, rfl, rfl⟩

/-- The patterns still see no more than they should: the comments go from left to right, line
comments first. -/
theorem Seen.remove {p c : Piece} {front back : List Piece} (hc : c.isComment = true)
    (horder : c.isLine = true ∨ ∀ q ∈ front, q.isComment = false)
    (h : Seen (front ++ c :: back) p) : Seen (front ++ back) p := by
  have hquiet : ∀ text, Quiet lineComment text (render (front ++ c :: back)) →
      Quiet lineComment text (render (front ++ back)) := by
    intro text hthere
    rw [render_append, render_cons] at hthere
    rw [render_append]
    exact hthere.remove (Piece.head_comment hc)
  cases p with
  | literal text =>
      refine ⟨hquiet text h.1, fun done left hsplit => ?_⟩
      obtain ⟨y, rfl, rfl⟩ | ⟨x, rfl, rfl⟩ := List.append_eq_append_iff.1 hsplit
      · have hthere := h.2 (front ++ c :: y) left (by simp)
        rwa [withoutComments_append, withoutComments_cons_comment hc,
          ← withoutComments_append] at hthere
      · rcases horder with hline | hfront
        · have hthere := h.2 done (x ++ c :: back) (by simp)
          rwa [withoutLines_append, withoutLines_cons_line hline, ← withoutLines_append] at hthere
        · have hthere := h.2 (done ++ x ++ [c]) back (by simp)
          have hdone : withoutComments (done ++ x) = done ++ x := withoutComments_of_none hfront
          have hx : withoutLines x = x := withoutLines_of_none fun q hq =>
            isLine_of_not_comment (hfront q (List.mem_append_right done hq))
          rw [withoutComments_append, hdone, withoutComments_cons_comment hc,
            withoutComments_nil, List.append_nil] at hthere
          rwa [withoutLines_append, hx, ← List.append_assoc,
            withoutComments_of_none fun q hq => hfront q (List.mem_append_left x hq)]
  | block text => exact ⟨h.1, hquiet _ h.2⟩
  | code c | splice | line text => exact h
  | unended text => exact h

theorem Clear.remove {front back : List Piece} {c : Piece} (hc : c.isComment = true)
    (horder : c.isLine = true ∨ ∀ q ∈ front, q.isComment = false)
    (h : Clear (front ++ c :: back)) : Clear (front ++ back) where
  reads := by
    refine h.reads.remove hc fun hlast hhead => ?_
    obtain ⟨f, rfl⟩ := List.getLast?_eq_some_iff.1 hlast
    obtain ⟨b, rfl⟩ := List.head?_eq_some_iff.1
      (head_render (by decide) h.reads.of_append.2 hhead)
    refine h.unspliced _ c _ rfl hc ?_ ?_
    · rw [withoutComments_append]
      exact List.getLast?_concat
    · rw [withoutComments_cons_code rfl]
      rfl
  seen f p b hsplit := by
    obtain ⟨x, rfl, rfl⟩ | ⟨y, rfl, rfl⟩ := split_append hsplit
    · refine Seen.remove hc ?_ (h.seen f p (x ++ c :: back) (by simp))
      exact horder.imp_right fun hfront q hq => hfront q (by simp [hq])
    · exact h.seen (front ++ c :: y) p b (by simp)
  unspliced f p b hsplit hp := by
    have hremove : ∀ l l' : List Piece, withoutComments (l ++ c :: l') =
        withoutComments (l ++ l') := by
      intro l l'
      rw [withoutComments_append, withoutComments_cons_comment hc, withoutComments_append]
    obtain ⟨x, rfl, rfl⟩ | ⟨y, rfl, rfl⟩ := split_append hsplit
    · rw [← hremove x back]
      exact h.unspliced f p (x ++ c :: back) (by simp) hp
    · rw [← hremove front y]
      exact h.unspliced (front ++ c :: y) p b (by simp) hp

/-! ## The run -/

theorem Clear.tail {p : Piece} {ps : List Piece} (h : Clear (p :: ps)) : Reads ps ∧
    ∀ front q back, ps = front ++ q :: back → Seen back q :=
  ⟨h.reads.2, fun front q back hsplit => h.seen (p :: front) q back (by rw [hsplit]; rfl)⟩

theorem Quiet.nil {pattern : List Char → Option (List Char)} (rest : List Char) :
    Quiet pattern [] rest := fun _ hs hne => absurd (List.suffix_nil.1 hs) hne

theorem Quiet.cons {pattern : List Char → Option (List Char)} {c : Char} {text rest : List Char}
    (hhere : pattern (c :: (text ++ rest)) = none) (h : Quiet pattern text rest) :
    Quiet pattern (c :: text) rest := by
  intro s hs hne
  obtain rfl | hs := List.suffix_cons_iff.1 hs
  · exact hhere
  · exact h s hs hne

/-- The patterns begin with a slash. -/
theorem lineComment_cons {c : Char} (hc : c ≠ '/') (text : List Char) :
    lineComment (c :: text) = none := by
  rw [lineComment_eq_none]
  intro body hbody
  exact absurd (List.cons.inj hbody).1 hc

theorem blockComment_eq_none {text : List Char}
    (h : ∀ body, text ≠ '/' :: '*' :: body) : blockComment text = none := by
  have hno : literal ['/', '*'] text = none := literal_eq_none.2 fun ⟨body, hbody⟩ =>
    h body hbody.symm
  rw [blockComment, hno]
  rfl

/-- Only line comments are taken for line comments. -/
theorem quiet_lineComment {p : Piece} {ps : List Piece} (hreads : Fits (render ps) p)
    (hseen : Seen ps p) (hp : p.isLine = false) : Quiet lineComment p.text (render ps) := by
  cases p with
  | code c =>
      refine Quiet.cons ?_ (Quiet.nil _)
      rw [lineComment_eq_none]
      rintro body hbody -
      obtain ⟨rfl, hrest⟩ := List.cons.inj hbody
      exact (hreads.2.1 rfl).1 (List.head?_eq_some_iff.2 ⟨body, hrest⟩)
  | splice => exact .cons (lineComment_cons (by decide) _) (.cons (lineComment_cons (by decide) _)
      (.nil _))
  | literal text => exact hseen.1
  | line text => cases hp
  | unended text => cases hseen
  | block text => exact hseen.2

/-- And where no line comments are left, only block comments for block comments. -/
theorem quiet_blockComment {p : Piece} {ps : List Piece} (hreads : Fits (render ps) p)
    (hseen : Seen ps p) (hp : p.isComment = false) (hps : ∀ q ∈ ps, q.isLine = false) :
    Quiet blockComment p.text (render ps) := by
  cases p with
  | code c =>
      refine Quiet.cons (blockComment_eq_none fun body hbody => ?_) (Quiet.nil _)
      obtain ⟨rfl, hrest⟩ := List.cons.inj hbody
      exact (hreads.2.1 rfl).2 (List.head?_eq_some_iff.2 ⟨body, hrest⟩)
  | splice =>
      refine .cons (blockComment_eq_none fun body hbody => ?_)
        (.cons (blockComment_eq_none fun body hbody => ?_) (.nil _))
      · exact absurd (List.cons.inj hbody).1 (by decide)
      · exact absurd (List.cons.inj hbody).1 (by decide)
  | literal text =>
      have hleft := hseen.2 [] ps rfl
      rwa [withoutComments_nil, List.nil_append, withoutLines_of_none hps] at hleft
  | line text | unended text | block text => cases hp

/-- Pieces in which a pattern matches nowhere are passed over. -/
theorem search_pieces {pattern : List Char → Option (List Char)} (front : List Piece)
    (rest : List Char)
    (h : ∀ f p b, front = f ++ p :: b → Quiet pattern p.text (render b ++ rest)) :
    search pattern (render front ++ rest) =
      (search pattern rest).map fun found => (render front ++ found.1, found.2) := by
  induction front with
  | nil => simp
  | cons p front ih =>
      have hfront := ih fun f q b hsplit => h (p :: f) q b (by rw [hsplit]; rfl)
      rw [render_cons, List.append_assoc, search_append (h [] p front rfl), hfront,
        Option.map_map]
      exact congrArg (Option.map · _) (funext fun found => by simp)

theorem search_pieces_none {pattern : List Char → Option (List Char)} {ps : List Piece}
    (hnil : pattern [] = none)
    (h : ∀ f p b, ps = f ++ p :: b → Quiet pattern p.text (render b)) :
    search pattern (render ps) = none := by
  have hskip := search_pieces ps [] fun f p b hsplit => by
    rw [List.append_nil]
    exact h f p b hsplit
  simpa [search, hnil] using hskip

theorem search_pieces_some {pattern : List Char → Option (List Char)} (front : List Piece)
    {c : Piece} {back : List Piece} (hc : pattern (c.text ++ render back) = some (render back))
    (h : ∀ f p b, front = f ++ p :: b → Quiet pattern p.text (render (b ++ c :: back))) :
    search pattern (render (front ++ c :: back)) = some (render front, render back) := by
  rw [render_append, search_pieces front _ fun f p b hsplit => by simpa using h f p b hsplit,
    render_cons, search_of_front hc]
  simp

/-- The first comment of a kind. -/
theorem split_first (kind : Piece → Bool) (ps : List Piece) :
    (∀ p ∈ ps, kind p = false) ∨ ∃ front c back, ps = front ++ c :: back ∧ kind c = true ∧
      ∀ p ∈ front, kind p = false := by
  cases h : ps.find? kind with
  | none => exact .inl fun p hp => by simpa using List.find?_eq_none.1 h p hp
  | some c =>
      obtain ⟨hc, front, back, hsplit, hfront⟩ := List.find?_eq_some_iff_append.1 h
      exact .inr ⟨front, c, back, hsplit, hc, fun p hp => by simpa using hfront p hp⟩

/-- **One round.**  Comments are taken out one by one, line comments first. -/
theorem Clear.round {ps : List Piece} (h : Clear ps) (n : ℕ) :
    (removeComment (n + 1) (render ps) = render ps ∧ ∀ p ∈ ps, p.isComment = false) ∨
    ∃ front c back, ps = front ++ c :: back ∧ c.isComment = true ∧ Clear (front ++ back) ∧
      removeComment (n + 1) (render ps) = removeComment n (render (front ++ back)) := by
  have hline : ∀ f p b, ps = f ++ p :: b → p.isLine = false →
      Quiet lineComment p.text (render b) := by
    rintro f p b rfl hp
    exact quiet_lineComment h.reads.fits (h.seen f p b rfl) hp
  rcases split_first Piece.isLine ps with hnone | ⟨front, c, back, rfl, hc, hfront⟩
  · -- no line comment is left
    have hno : search lineComment (render ps) = none :=
      search_pieces_none rfl fun f p b hsplit =>
        hline f p b hsplit (hnone p (by rw [hsplit]; simp))
    have hblock : ∀ f p b, ps = f ++ p :: b → p.isComment = false →
        Quiet blockComment p.text (render b) := by
      rintro f p b rfl hp
      exact quiet_blockComment h.reads.fits (h.seen f p b rfl) hp fun q hq =>
        hnone q (by simp [hq])
    rcases split_first Piece.isComment ps with hclean | ⟨front, c, back, rfl, hc, hfront⟩
    · refine .inl ⟨?_, hclean⟩
      rw [removeComment, hno, search_pieces_none rfl fun f p b hsplit =>
        hblock f p b hsplit (hclean p (by rw [hsplit]; simp))]
    · have hmatch : blockComment (c.text ++ render back) = some (render back) := by
        have hseen := h.seen front c back rfl
        cases c with
        | code c | splice | literal text => cases hc
        | line text => cases hnone (.line text) (by simp)
        | unended text => cases hseen
        | block text => exact blockComment_block hseen.1 (render back)
      have hfound := search_pieces_some front hmatch fun f p b hsplit =>
        hblock f p (b ++ c :: back) (by rw [hsplit]; simp) (hfront p (by rw [hsplit]; simp))
      refine .inr ⟨front, c, back, rfl, hc, h.remove hc (.inr hfront), ?_⟩
      rw [removeComment, hno, hfound]
      simp only [render_append]
  · have hmatch : lineComment (c.text ++ render back) = some (render back) := by
      have hseen := h.seen front c back rfl
      cases c with
      | line text => exact lineComment_line hseen (render back)
      | _ => cases hc
    have hfound := search_pieces_some front hmatch fun f p b hsplit =>
      hline f p (b ++ c :: back) (by rw [hsplit]; simp) (hfront p (by rw [hsplit]; simp))
    have hcomment : c.isComment = true := by
      cases c with
      | line text => rfl
      | _ => cases hc
    refine .inr ⟨front, c, back, rfl, hcomment, h.remove hcomment (.inl hc), ?_⟩
    rw [removeComment, hfound]
    simp only [render_append]

/-- **The run.**  All comments go, and nothing else, and what is left can be read. -/
theorem Clear.run {n : ℕ} {ps : List Piece} (h : Clear ps) (hn : ps.countP Piece.isComment ≤ n) :
    removeComment n (render ps) = render (withoutComments ps) ∧ Reads (withoutComments ps) := by
  induction n generalizing ps with
  | zero =>
      have hnone : ∀ p ∈ ps, p.isComment = false := by
        simpa using List.countP_eq_zero.1 (Nat.le_zero.1 hn)
      rw [removeComment, withoutComments_of_none hnone]
      exact ⟨rfl, h.reads⟩
  | succ n ih =>
      rcases h.round n with ⟨hround, hnone⟩ | ⟨front, c, back, rfl, hc, hclear, hround⟩
      · rw [hround, withoutComments_of_none hnone]
        exact ⟨rfl, h.reads⟩
      · have hcount : (front ++ back).countP Piece.isComment ≤ n := by
          rw [List.countP_append, List.countP_cons_of_pos hc] at hn
          rw [List.countP_append]
          omega
        rw [hround, withoutComments_append, withoutComments_cons_comment hc,
          ← withoutComments_append]
        exact ih hclear hcount

/-! ## The recursion ends -/

/-- What a match leaves is shorter. -/
theorem shorter {pattern : List Char → Option (List Char)}
    (hpattern : ∀ text rest, pattern text = some rest → rest.length < text.length)
    {text before after : List Char} (h : search pattern text = some (before, after)) :
    (before ++ after).length < text.length := by
  obtain ⟨found, rfl, hfound⟩ := search_sound h
  have hless := hpattern found after hfound
  rw [List.length_append, List.length_append]
  omega

theorem length_of_literal {word text rest : List Char} (h : literal word text = some rest) :
    text.length = word.length + rest.length := by
  rw [literal_eq_some.1 h, List.length_append]

theorem lineComment_shorter (text rest : List Char) (h : lineComment text = some rest) :
    rest.length < text.length := by
  obtain ⟨body, hbody, hend⟩ := Option.bind_eq_some_iff.1 h
  have hfront := length_of_literal hbody
  have hback := length_of_literal hend
  have hdrop := (List.dropWhile_suffix (l := body) fun c => decide (c ≠ '\n')).length_le
  simp only [List.length_cons, List.length_nil] at hback
  omega

theorem blockComment_shorter (text rest : List Char) (h : blockComment text = some rest) :
    rest.length < text.length := by
  obtain ⟨body, hbody, hend⟩ := Option.bind_eq_some_iff.1 h
  have hfront := length_of_literal hbody
  have hback := length_of_literal hend
  have hdrop := (List.dropWhile_suffix (l := body) fun c => decide (c ≠ '*')).length_le
  simp only [List.length_cons, List.length_nil] at hback
  omega

/-- **The recursion ends**: fuel over the length of the text changes nothing. -/
theorem removeComment_of_le {n m : ℕ} {code : List Char} (hn : code.length ≤ n)
    (hm : code.length ≤ m) : removeComment n code = removeComment m code := by
  induction n generalizing m code with
  | zero =>
      obtain rfl := List.length_eq_zero_iff.1 (Nat.le_zero.1 hn)
      cases m <;> rfl
  | succ n ih =>
      cases m with
      | zero =>
          obtain rfl := List.length_eq_zero_iff.1 (Nat.le_zero.1 hm)
          rfl
      | succ m =>
          rw [removeComment, removeComment]
          cases hline : search lineComment code with
          | some found =>
              have hless := shorter lineComment_shorter hline
              exact ih (by omega) (by omega)
          | none =>
              cases hblock : search blockComment code with
              | some found =>
                  have hless := shorter blockComment_shorter hblock
                  exact ih (by omega) (by omega)
              | none => rfl

/-! ## The condition is enough -/

theorem countP_le_length {ps : List Piece} (h : Reads ps) :
    ps.countP Piece.isComment ≤ (render ps).length := by
  induction ps with
  | nil => exact Nat.le_refl 0
  | cons p ps ih =>
      have hrest := ih h.2
      have htext := List.length_pos_of_ne_nil (Piece.text_ne_nil h.1)
      rw [render_cons, List.length_append, List.countP_cons]
      split <;> omega

theorem mem_withoutComments {p : Piece} {ps : List Piece} (h : p ∈ withoutComments ps) :
    p.isComment = false := by
  simpa using (List.mem_filter.1 h).2

/-- **The recursion ends for every text; where the code sees the comments as they are, the
program is preserved if and only if the comments can go.** -/
theorem removeComment_preserves (code : List Char) :
    (∀ n, code.length ≤ n → removeComment n code = removeComment code.length code) ∧
    ∀ ps, cut .code code = some ps → Found ps → (Preserves code ps ↔ Parted ps) := by
  refine ⟨fun n hn => removeComment_of_le hn (Nat.le_refl _), fun ps hps hfound => ?_⟩
  have hreads : Reads ps := reads_of_cut (show Mode.code.Opens code from trivial) hps
  have hclear : Clear ps := ⟨hreads, hfound.seen, hfound.unspliced⟩
  obtain ⟨hrun, hleft⟩ := hclear.run (countP_le_length hreads)
  have hcode : code = render ps := (render_of_cut hps).symm
  have hcut : cut .code (removeComment code.length code) = some (withoutComments ps) := by
    rw [hcode, hrun]
    exact cut_render hleft fun q hq => mem_withoutComments hq
  rw [parted_iff]
  constructor
  · rintro ⟨qs, hqs, htokens, hdirectives, -⟩
    obtain rfl := Option.some.inj (hcut.symm.trans hqs)
    exact ⟨htokens, hdirectives⟩
  · rintro ⟨htokens, hdirectives⟩
    exact ⟨withoutComments ps, hcut, htokens, hdirectives, fun q hq => mem_withoutComments hq⟩

/-- The line comment goes with its line end, and two words become one. -/
theorem words_run_together :
    ¬ ∀ code ps, cut .code code = some ps → Preserves code ps := by
  intro h
  have hread : cut .code "return// n\nx;".toList = some
      [.code 'r', .code 'e', .code 't', .code 'u', .code 'r', .code 'n', .line " n".toList,
        .code 'x', .code ';'] := by decide
  obtain ⟨qs, hqs, htokens, -⟩ := h _ _ hread
  have hleft : cut .code (removeComment 13 "return// n\nx;".toList) = some
      [.code 'r', .code 'e', .code 't', .code 'u', .code 'r', .code 'n', .code 'x', .code ';'] := by
    decide
  obtain rfl := Option.some.inj (hqs.symm.trans hleft)
  revert htokens
  decide

end Comment
end Floem
