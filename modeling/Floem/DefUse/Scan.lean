import Mathlib
import Floem.Lib.Text

/-!
# Scanning the code of an element

The fields of the per-packet state that an element reads and writes are extracted from the
text of its code (`find_all_fields`, `find_next_def_use` and `collect_defs_uses` of
`pipeline_state.py`).  Python exceptions are `none`.

* `findAllFields`, `useAfter`, `findNextDefUse`, `scan` — the scan.
* `IsPath`, `delimited` — the text of an access path, and what ends it.
* `Clean` — text between two accesses.
* `findNextDefUse_access`, `findNextDefUse_clean` — what the scan does at the next access,
  and where there is none.
-/

namespace Floem
namespace DefUse

open Lib

/-- `[a-zA-Z0-9_]`. -/
def identChar (c : Char) : Bool := c.isAlphanum || c == '_'

/-! ## The scan -/

/-- The loop of `find_all_fields`: the fields read so far with their separators, and the
letters of the next field. -/
def fieldsLoop (src field : List Char) (fields : List (List Char)) :
    List Char → Option (List Char × List (List Char) × List Char)
  | [] => none
  | c :: code =>
    if identChar c then fieldsLoop src (field ++ [c]) fields code
    else if c = '.' then fieldsLoop (src ++ field ++ ['.']) [] (fields ++ [field]) code
    else if c = '-' then
      match code with
      | [] => none
      | '>' :: code => fieldsLoop (src ++ field ++ ['-', '>']) [] (fields ++ [field]) code
      | next :: code => some (src ++ field, fields ++ [field], c :: next :: code)
    else some (src ++ field, fields ++ [field], c :: code)

/-- `find_all_fields`. -/
def findAllFields (code : List Char) : Option (List Char × List (List Char) × List Char) :=
  fieldsLoop [] [] [] code

/-- The pattern `[^a-zA-Z0-9_]state(\.|->)`; it finds the code behind it. -/
def stateAt : List Char → Option (List Char)
  | [] => none
  | c :: code =>
    if identChar c then none
    else (literal "state.".toList code).or (literal "state->".toList code)

/-- The pattern `\[[^\]]+\]`. -/
def indexAt : List Char → Option (List Char)
  | '[' :: code =>
    match code.dropWhile (· ≠ ']') with
    | ']' :: rest => if code.head? = some ']' then none else some rest
    | _ => none
  | _ => none

/-- The pattern `(\[[^\]]+\])*`. -/
def dropIndices : ℕ → List Char → List Char
  | 0, code => code
  | n + 1, code =>
    match indexAt code with
    | some rest => dropIndices n rest
    | none => code

/-- The pattern `(\[[^\]]+\])*[ ]*=[^=]`. -/
def assignAt (code : List Char) : Bool :=
  match (dropIndices code.length code).dropWhile (· = ' ') with
  | '=' :: c :: _ => c ≠ '='
  | _ => false

/-- Whether `find_next_def_use` takes the path in front of this code for a use. -/
def useAfter (code : List Char) : Option Bool :=
  match code.dropWhile (· = ' ') with
  | [] => none
  | ['='] => none
  | '=' :: c :: _ => some (c = '=')
  | c :: code => some (!assignAt (c :: code))

/-- A path the scan has found: its text, its fields, and whether it is a use. -/
structure Found where
  src : List Char
  fields : List (List Char)
  use : Bool
  deriving DecidableEq, Repr

/-- `find_next_def_use`; the inner `none` is the end of the accesses. -/
def findNextDefUse (code : List Char) : Option (Option (Found × List Char)) :=
  match search stateAt code with
  | none => some none
  | some (_, code) => do
    let (src, fields, code) ← findAllFields code
    let use ← useAfter code
    return some (⟨src, fields, use⟩, code)

/-- The `while` loop of `collect_defs_uses`.  The code gets shorter in every round, so
fuel of the length of the code is enough. -/
def scan : ℕ → List Char → Option (List Found)
  | _, [] => some []
  | 0, _ :: _ => none
  | n + 1, c :: code => do
    match ← findNextDefUse (c :: code) with
    | none => return []
    | some (found, rest) =>
      let others ← scan n rest
      return if found.src = [] then others else found :: others

/-! ## Access paths -/

/-- The text of an access path: names with `.` and `->` between them. -/
def IsPath : List Char → Bool
  | [] => true
  | '-' :: '>' :: p => IsPath p
  | c :: p => (identChar c || c == '.') && IsPath p

/-- What may stand behind an access path: neither more of a name nor another field. -/
def delimited : List Char → Bool
  | [] => false
  | ['-'] => false
  | '-' :: c :: _ => c ≠ '>'
  | c :: _ => !identChar c && c != '.'

section Loop

variable (src field : List Char) (fields : List (List Char))

theorem fieldsLoop_ident {c : Char} (h : identChar c) (code : List Char) :
    fieldsLoop src field fields (c :: code) = fieldsLoop src (field ++ [c]) fields code := by
  rw [fieldsLoop.eq_def]
  exact if_pos h

theorem fieldsLoop_dot (code : List Char) : fieldsLoop src field fields ('.' :: code) =
    fieldsLoop (src ++ field ++ ['.']) [] (fields ++ [field]) code := by
  rw [fieldsLoop.eq_def]
  rfl

theorem fieldsLoop_arrow (code : List Char) : fieldsLoop src field fields ('-' :: '>' :: code) =
    fieldsLoop (src ++ field ++ ['-', '>']) [] (fields ++ [field]) code := by
  rw [fieldsLoop.eq_def]
  rfl

theorem fieldsLoop_delimited {code : List Char} (h : delimited code) :
    fieldsLoop src field fields code = some (src ++ field, fields ++ [field], code) := by
  rw [fieldsLoop.eq_def]
  unfold delimited at h
  split at h
  · cases h
  · cases h
  · rename_i c code
    have hident : identChar '-' = false := by decide
    have hc : c ≠ '>' := by simpa using h
    simp [hident]
  · rename_i c code hlast hdash
    have hsep : identChar c = false ∧ c ≠ '.' := by simpa using h
    have hc : c ≠ '-' := by
      rintro rfl
      cases code with
      | nil => exact hlast rfl rfl
      | cons next code => exact hdash next code rfl rfl
    simp [hsep.1, hsep.2, hc]

end Loop

theorem fieldsLoop_path {p code : List Char} (hp : IsPath p) (h : delimited code) :
    ∀ (src field : List Char) (fields : List (List Char)), ∃ fields',
      fieldsLoop src field fields (p ++ code) = some (src ++ field ++ p, fields', code) := by
  fun_induction IsPath p with
  | case1 =>
      intro src field fields
      exact ⟨_, by rw [List.nil_append, fieldsLoop_delimited _ _ _ h, List.append_nil]⟩
  | case2 p ih =>
      intro src field fields
      obtain ⟨fields', hloop⟩ := ih hp (src ++ field ++ ['-', '>']) [] (fields ++ [field])
      refine ⟨fields', ?_⟩
      rw [List.cons_append, List.cons_append, fieldsLoop_arrow, hloop]
      simp
  | case3 c p hne ih =>
      intro src field fields
      obtain ⟨hc, hp⟩ := (Bool.and_eq_true ..).mp hp
      rw [List.cons_append]
      obtain hident | hdot := (Bool.or_eq_true ..).mp hc
      · obtain ⟨fields', hloop⟩ := ih hp src (field ++ [c]) fields
        refine ⟨fields', ?_⟩
        rw [fieldsLoop_ident _ _ _ hident, hloop]
        simp
      · obtain rfl := beq_iff_eq.1 hdot
        obtain ⟨fields', hloop⟩ := ih hp (src ++ field ++ ['.']) [] (fields ++ [field])
        refine ⟨fields', ?_⟩
        rw [fieldsLoop_dot, hloop]
        simp

theorem findAllFields_path {p code : List Char} (hp : IsPath p) (h : delimited code) :
    ∃ fields, findAllFields (p ++ code) = some (p, fields, code) := fieldsLoop_path hp h [] [] []

/-! ## Text between two accesses -/

/-- The separator between `state` and a path. -/
inductive Sep
  | dot
  | arrow
  deriving DecidableEq, Repr

def Sep.text : Sep → List Char
  | .dot => ".".toList
  | .arrow => "->".toList

/-- The text of an access. -/
def accessText (sep : Sep) (p : List Char) : List Char := "state".toList ++ sep.text ++ p

/-- No access begins in this text. -/
def Clean (text : List Char) : Prop := search stateAt text = none

instance (text : List Char) : Decidable (Clean text) := inferInstanceAs (Decidable (_ = _))

/-- The last character is not part of a name. -/
def EndsOutside (text : List Char) : Bool := text.getLast?.any fun c => !identChar c

theorem endsOutside_iff {text : List Char} :
    EndsOutside text ↔ ∃ before d, text = before ++ [d] ∧ identChar d = false := by
  constructor
  · intro h
    obtain rfl | ⟨before, d, rfl⟩ := List.eq_nil_or_concat text
    · simp [EndsOutside] at h
    · exact ⟨before, d, List.concat_eq_append .., by simpa [EndsOutside] using h⟩
  · rintro ⟨before, d, rfl, hd⟩
    simp [EndsOutside, hd]

theorem stateAt_cons {c : Char} (hc : identChar c = false) (code : List Char) :
    stateAt (c :: code) =
      (literal "state.".toList code).or (literal "state->".toList code) := by
  rw [stateAt, hc]
  rfl

theorem stateAt_ident {c : Char} (hc : identChar c) (code : List Char) :
    stateAt (c :: code) = none := if_pos hc

theorem stateAt_access {c : Char} (hc : identChar c = false) (sep : Sep) (p rest : List Char) :
    stateAt (c :: (accessText sep p ++ rest)) = some (p ++ rest) := by
  rw [stateAt_cons hc]
  cases sep with
  | dot =>
      have hdot : literal "state.".toList (accessText .dot p ++ rest) = some (p ++ rest) :=
        literal_eq_some.2 (by simp [accessText, Sep.text])
      rw [hdot, Option.some_or]
  | arrow =>
      have hdot : literal "state.".toList (accessText .arrow p ++ rest) = none :=
        literal_eq_none.2 (by simp [accessText, Sep.text])
      have harrow : literal "state->".toList (accessText .arrow p ++ rest) = some (p ++ rest) :=
        literal_eq_some.2 (by simp [accessText, Sep.text])
      rw [hdot, harrow, Option.none_or]

/-- Where `state.` and `state->` can be cut so that the first part ends outside names. -/
theorem cut_state (sep : Sep) : ∀ part ∈ ("state".toList ++ sep.text).inits, EndsOutside part →
    part = "state".toList ++ sep.text ∨ sep = .arrow ∧ part = "state-".toList := by
  cases sep <;> decide

/-- Neither `state.` nor `state->` reaches over the end of a text that ends outside names. -/
theorem literal_over_end {text : List Char} (hend : EndsOutside text) (sep sep' : Sep)
    (p : List Char) (hno : literal ("state".toList ++ sep.text) text = none) :
    literal ("state".toList ++ sep.text) (text ++ accessText sep' p) = none := by
  refine literal_append_eq_none hno fun hpart hword => ?_
  obtain rfl | ⟨rfl, rfl⟩ := cut_state sep text ((List.mem_inits _ _).2 hpart) hend
  · exact literal_eq_none.1 hno List.prefix_rfl
  · simp [Sep.text, accessText] at hword

theorem stateAt_over_end {text : List Char} {c : Char} (hend : EndsOutside text) (sep : Sep)
    (p : List Char) (hno : stateAt (c :: text) = none) :
    stateAt (c :: text ++ accessText sep p) = none := by
  cases hc : identChar c with
  | true => exact stateAt_ident hc _
  | false =>
      rw [stateAt_cons hc, Option.or_eq_none_iff] at hno
      rw [List.cons_append, stateAt_cons hc, Option.or_eq_none_iff]
      exact ⟨literal_over_end hend .dot sep p hno.1, literal_over_end hend .arrow sep p hno.2⟩

/-- **The search finds the next access.** -/
theorem search_access {text : List Char} (hclean : Clean text) (hend : EndsOutside text)
    (sep : Sep) (p rest : List Char) :
    ∃ before, search stateAt (text ++ (accessText sep p ++ rest)) = some (before, p ++ rest) := by
  obtain ⟨before, d, rfl, hd⟩ := endsOutside_iff.1 hend
  have hfront : stateAt (d :: (accessText sep p ++ rest)) = some (p ++ rest) :=
    stateAt_access hd sep p rest
  refine ⟨before, ?_⟩
  rw [List.append_assoc, List.singleton_append, search_append, search_of_front hfront]
  · simp
  · intro part hpart hne
    obtain ⟨c, part, rfl⟩ := List.exists_cons_of_ne_nil hne
    have hsuffix : c :: (part ++ [d]) <:+ before ++ [d] := by
      obtain ⟨front, rfl⟩ := hpart
      exact ⟨front, by simp⟩
    have hpart_end : EndsOutside (part ++ [d]) := endsOutside_iff.2 ⟨part, d, rfl, hd⟩
    have hover := stateAt_over_end hpart_end sep (p ++ rest) (search_eq_none.1 hclean _ hsuffix)
    simpa [accessText] using hover

/-! ## One step of the scan -/

theorem findNextDefUse_clean {text : List Char} (hclean : Clean text) :
    findNextDefUse text = some none := by
  rw [findNextDefUse, hclean]

theorem findNextDefUse_access {text p rest : List Char} {use : Bool} (hclean : Clean text)
    (hend : EndsOutside text) (sep : Sep) (hp : IsPath p) (hrest : delimited rest)
    (huse : useAfter rest = some use) : ∃ fields,
    findNextDefUse (text ++ (accessText sep p ++ rest)) = some (some (⟨p, fields, use⟩, rest)) := by
  obtain ⟨before, hsearch⟩ := search_access hclean hend sep p rest
  obtain ⟨fields, hfields⟩ := findAllFields_path hp hrest
  refine ⟨fields, ?_⟩
  rw [findNextDefUse, hsearch]
  simp [hfields, huse]

end DefUse
end Floem
