import Floem.DefUse.Scan

/-!
# The C code of an element

Of the C code of an element matters what it does with the per-packet state and how control
moves; everything else is text.

* `Expr`, `Stmt` — expressions and statements with the accesses in them.  Keywords, brackets
  and operators stand in them as text, laid out in any way.
* `Tok`, `render` — the text of a program.
* `Spelled` — the text around the accesses is what C makes it: an access is not part of a
  longer name, and what is read does not look assigned.
* `marks`, `scan_spelled` — **the scan finds the accesses of the program**, each with what
  the pattern behind it says.
-/

namespace Floem
namespace DefUse

/-- A C expression, or any other text that is run straight. -/
inductive Expr
  | text (s : List Char)
  | read (sep : Sep) (path : List Char)
  /-- `state.path gap rhs`; the gap ends in `=`. -/
  | assign (sep : Sep) (path gap : List Char) (rhs : Expr)
  /-- `state.path index gap rhs`: one entry of an array, or of arrays in arrays. -/
  | store (sep : Sep) (path : List Char) (index : Expr) (gap : List Char) (rhs : Expr)
  /-- A compound assignment or an increment: `pre state.path op rhs`. -/
  | update (pre : List Char) (sep : Sep) (path op : List Char) (rhs : Expr)
  | cat (e f : Expr)
  /-- What may be left out, such as the right side of `&&`. -/
  | opt (e : Expr)
  /-- One of the two, such as behind `?`. -/
  | alt (e : Expr) (mid : List Char) (f : Expr)
  deriving DecidableEq, Repr

/-- How a statement ends. -/
inductive Outcome
  | normal
  | brk
  | cont
  | ret
  deriving DecidableEq, Repr

/-- C statements.  The text of a condition is an expression in front of `alt`. -/
inductive Stmt
  | expr (e : Expr)
  /-- `break;`, `continue;` or the end of a `return`. -/
  | jump (o : Outcome) (s : List Char)
  | seq (s t : Stmt)
  | alt (s : Stmt) (mid : List Char) (t : Stmt)
  /-- The condition, the step and the body of a `for` or a `while`. -/
  | loop (c : Expr) (mid : List Char) (step : Expr) (mid' : List Char) (body : Stmt)
  /-- The body and the condition of a `do`. -/
  | doLoop (body : Stmt) (mid : List Char) (c : Expr)
  deriving DecidableEq, Repr

/-! ## Text -/

/-- A piece of the text.  The target of an assignment is `written`. -/
inductive Tok
  | text (s : List Char)
  | access (written : Bool) (sep : Sep) (path : List Char)
  deriving DecidableEq, Repr

def Tok.render : Tok → List Char
  | .text s => s
  | .access _ sep path => accessText sep path

/-- The text of a program. -/
def render (toks : List Tok) : List Char := toks.flatMap Tok.render

@[simp] theorem render_nil : render [] = [] := rfl

@[simp] theorem render_cons (tok : Tok) (toks : List Tok) :
    render (tok :: toks) = tok.render ++ render toks := List.flatMap_cons

namespace Expr

def toks : Expr → List Tok
  | text s => [.text s]
  | read sep path => [.access false sep path]
  | assign sep path gap rhs => .access true sep path :: .text gap :: rhs.toks
  | store sep path index gap rhs =>
    .access true sep path :: (index.toks ++ .text gap :: rhs.toks)
  | update pre sep path op rhs => .text pre :: .access false sep path :: .text op :: rhs.toks
  | cat e f => e.toks ++ f.toks
  | opt e => e.toks
  | alt e mid f => e.toks ++ .text mid :: f.toks

end Expr

namespace Stmt

def toks : Stmt → List Tok
  | expr e => e.toks
  | jump _ s => [.text s]
  | seq s t => s.toks ++ t.toks
  | alt s mid t => s.toks ++ .text mid :: t.toks
  | loop c mid step mid' body => c.toks ++ .text mid :: (step.toks ++ .text mid' :: body.toks)
  | doLoop body mid c => body.toks ++ .text mid :: c.toks

end Stmt

/-- The paths that are read, in the order of the text. -/
def reads (toks : List Tok) : List (List Char) := toks.filterMap fun
  | .access false _ path => some path
  | _ => none

theorem mem_reads {toks : List Tok} {p : List Char} :
    p ∈ reads toks ↔ ∃ sep, .access false sep p ∈ toks := by
  rw [reads, List.mem_filterMap]
  constructor
  · rintro ⟨tok, htok, h⟩
    split at h
    · rename_i sep path
      obtain rfl := Option.some.inj h
      exact ⟨sep, htok⟩
    · cases h
  · rintro ⟨sep, htok⟩
    exact ⟨_, htok, rfl⟩

/-! ## What the scan finds -/

/-- The text around the accesses, where `before` stands between the last access and these
pieces. -/
def Spelled (before : List Char) : List Tok → Prop
  | [] => Clean before
  | .text s :: toks => Spelled (before ++ s) toks
  | .access written _ path :: toks =>
    (Clean before ∧ EndsOutside before) ∧ (IsPath path ∧ path ≠ []) ∧
      (delimited (render toks) ∧ ((useAfter (render toks)).isSome ∧
        (useAfter (render toks) = some true ∨ written))) ∧ Spelled [] toks

instance : ∀ before toks, Decidable (Spelled before toks)
  | before, [] => inferInstanceAs (Decidable (Clean before))
  | before, .text s :: toks => instDecidableSpelled (before ++ s) toks
  | _, .access _ _ _ :: toks =>
    have := instDecidableSpelled [] toks
    inferInstanceAs (Decidable (_ ∧ _ ∧ (_ ∧ (_ ∧ (_ ∨ _))) ∧ _))

/-- The accesses of a program, each with whether it looks like a use. -/
def marks : List Tok → List (List Char × Bool)
  | [] => []
  | .text _ :: toks => marks toks
  | .access _ _ path :: toks => (path, useAfter (render toks) = some true) :: marks toks

theorem scan_cons {c : Char} {code : List Char} {n : ℕ} (hn : (c :: code).length ≤ n) :
    scan n (c :: code) = (findNextDefUse (c :: code)).bind fun next =>
      match next with
      | none => some []
      | some (found, rest) => (scan (n - 1) rest).bind fun others =>
        some (if found.src = [] then others else found :: others) := by
  obtain ⟨n, rfl⟩ : ∃ m, n = m + 1 := ⟨n - 1, by simp at hn; omega⟩
  rw [scan]
  rfl

/-- **The scan finds the accesses of the program.** -/
theorem scan_spelled {toks : List Tok} : ∀ {before : List Char}, Spelled before toks →
    ∀ {n : ℕ}, (before ++ render toks).length ≤ n → ∃ found,
      scan n (before ++ render toks) = some found ∧
        (found.map fun f => (f.src, f.use)) = marks toks := by
  induction toks with
  | nil =>
      intro before h n hn
      rw [render_nil, List.append_nil] at hn ⊢
      cases before with
      | nil => exact ⟨[], by simp [scan, marks]⟩
      | cons c before =>
          refine ⟨[], ?_, rfl⟩
          rw [scan_cons hn, findNextDefUse_clean h]
          rfl
  | cons tok toks ih =>
      intro before h n hn
      cases tok with
      | text s =>
          rw [render_cons, Tok.render, ← List.append_assoc] at hn ⊢
          exact ih h hn
      | access written sep p =>
          obtain ⟨⟨hclean, hend⟩, ⟨hp, hne⟩, ⟨hrest, huse, _⟩, htoks⟩ := h
          obtain ⟨use, huse⟩ := Option.isSome_iff_exists.1 huse
          obtain ⟨fields, hnext⟩ := findNextDefUse_access hclean hend sep hp hrest huse
          rw [render_cons, Tok.render] at hn ⊢
          have hlength : (render toks).length ≤ n - 1 := by
            have haccess : 1 ≤ (accessText sep p).length := by simp [accessText]
            simp only [List.length_append] at hn
            omega
          obtain ⟨found, hscan, hfound⟩ := ih htoks hlength
          refine ⟨⟨p, fields, use⟩ :: found, ?_, ?_⟩
          · obtain ⟨c, code, hcode⟩ : ∃ c code,
                before ++ (accessText sep p ++ render toks) = c :: code := by
              cases before with
              | nil => exact ⟨_, _, rfl⟩
              | cons c before => exact ⟨c, _, rfl⟩
            rw [hcode] at hn hnext ⊢
            rw [scan_cons hn, hnext, Option.bind_some]
            simp only [List.nil_append] at hscan
            simp [hscan, hne]
          · cases use <;> simp [marks, huse, hfound]

theorem use_of_mem_reads {toks : List Tok} : ∀ {before : List Char}, Spelled before toks →
    ∀ {p : List Char}, p ∈ reads toks → (p, true) ∈ marks toks := by
  induction toks with
  | nil => simp [reads]
  | cons tok toks ih =>
      intro before h p hp
      cases tok with
      | text s => exact ih h (by simpa [reads] using hp)
      | access written sep q =>
          obtain ⟨_, _, ⟨_, _, hread⟩, htoks⟩ := h
          rw [mem_reads] at hp
          obtain ⟨sep', hp⟩ := hp
          obtain heq | hmem := List.mem_cons.1 hp
          · obtain ⟨rfl, rfl, rfl⟩ : written = false ∧ sep = sep' ∧ q = p := by
              simpa [eq_comm] using heq
            simp only [Bool.false_eq_true, or_false] at hread
            simp [marks, hread]
          · exact List.mem_cons_of_mem _ (ih htoks (mem_reads.2 ⟨sep', hmem⟩))

end DefUse
end Floem
