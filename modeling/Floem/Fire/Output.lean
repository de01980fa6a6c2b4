import Mathlib
import Floem.Fire.Calls

/-!
# Output code

What the output code of an element executes, and how often it calls the ports.

* `Statement`, `statement` — the statements that `get_output_code` prints.
* `getOutputCode_eq` — so it does.
* `Branches`, `Statement.Runs` — which texts are evaluated.
* `Fires` — `output_fire` says how often the ports are called.
-/

namespace Floem
namespace Fire

open Lib DefUse

/-! ## Statements -/

/-- The condition of a case, and the call behind it. -/
abbrev Case := List Char × List Char

inductive Statement
  /-- One call after the other. -/
  | calls (texts : List (List Char))
  /-- `if`, `else if` and `else`. -/
  | choose (case : Case) (cases : List Case) (other : Option (List Char))

namespace Statement

def print : Statement → List Char
  | .calls texts => texts.flatMap fun call => "  ".toList ++ call ++ ";\n".toList
  | .choose case cases other =>
    branch "  if(".toList case ++ cases.flatMap (branch "  else if(".toList) ++
      (other.map fun call => "  else \x7b ".toList ++ call ++ "; \x7d\n".toList).getD []
where
  branch (word : List Char) (case : Case) : List Char :=
    word ++ case.1 ++ ") \x7b ".toList ++ case.2 ++ "; \x7d\n".toList

end Statement

/-- `if` needs a condition. -/
def chooseFrom (other : Option (List Char)) : List Case → Option Statement
  | [] => none
  | case :: cases => some (.choose case cases other)

/-- What `get_output_code_internal` prints. -/
def statement (fire : OutputFire) (outports order : List (List Char)) :
    OutputCode → Option Statement
  | .calls name2call =>
    match fire with
    | .multi => some (.calls [])
    | .all => do
      guard (order = [] ∨ order.length = outports.length)
      return .calls (← (if order = [] then outports else order).mapM (name2call.lookup ·))
    | _ => none
  | .cases casesExprs =>
    match fire with
    | .one => do chooseFrom (some (← casesExprs.getLast?).2) casesExprs.dropLast
    | .zeroOrOne => chooseFrom none casesExprs
    | _ => none

theorem generateNestedIf_eq (cases : List Case) (other : Option (List Char)) :
    Element.generateNestedIf cases other = (chooseFrom other cases).map Statement.print := by
  cases cases <;> rfl

variable (e : Element)

theorem getOutputCodeInternal_eq (order : List (List Char)) (outputCode : OutputCode) :
    e.getOutputCodeInternal order outputCode =
      (statement e.outputFire e.outports order outputCode).map Statement.print := by
  cases outputCode with
  | calls name2call =>
      cases hfire : e.outputFire with
      | all =>
          simp only [Element.getOutputCodeInternal, statement, hfire, Option.bind_eq_bind]
          by_cases horder : order = [] ∨ order.length = e.outports.length
          · simp only [horder, guard_true]
            cases (if order = [] then e.outports else order).mapM (name2call.lookup ·) <;> rfl
          · simp only [horder, guard_false]
            rfl
      | one | zeroOrOne | multi =>
          simp only [Element.getOutputCodeInternal, statement, hfire]
          rfl
  | cases casesExprs =>
      cases hfire : e.outputFire with
      | one =>
          simp only [Element.getOutputCodeInternal, statement, hfire]
          cases casesExprs.getLast? with
          | none => rfl
          | some elseExpr => exact generateNestedIf_eq casesExprs.dropLast (some elseExpr.2)
      | zeroOrOne =>
          simp only [Element.getOutputCodeInternal, statement, hfire]
          exact generateNestedIf_eq casesExprs none
      | all | multi =>
          simp only [Element.getOutputCodeInternal, statement, hfire]
          rfl

/-- The output code for a device. -/
def outputOf : Device → OutputCode
  | .cpu => e.outputCode
  | .cavium => (e.outputCodeCavium.filter Element.nonempty).getD e.outputCode

theorem getOutputCode_eq (order : List (List Char)) (device : Device) :
    e.getOutputCode order device =
      (statement e.outputFire e.outports order (outputOf e device)).map Statement.print := by
  cases device with
  | cpu => exact getOutputCodeInternal_eq e order _
  | cavium => exact getOutputCodeInternal_eq e order _

/-! ## Executions -/

/-- The texts that are evaluated: conditions until one holds, and the call behind it. -/
inductive Branches : List Case → Option (List Char) → List (List Char) → Prop
  | taken (case : Case) (cases : List Case) (other : Option (List Char)) :
    Branches (case :: cases) other [case.1, case.2]
  | skipped (case : Case) {cases : List Case} {other : Option (List Char)}
    {texts : List (List Char)} (h : Branches cases other texts) :
    Branches (case :: cases) other (case.1 :: texts)
  | last (other : Option (List Char)) : Branches [] other other.toList

def Statement.Runs : Statement → List (List Char) → Prop
  | .calls all, texts => texts = all
  | .choose case cases other, texts => Branches (case :: cases) other texts

/-- The calls of an execution are those that `output_fire` promises. -/
def CallsRight (outports calls : List (List Char)) : OutputFire → Prop
  | .all => ∀ port ∈ outports, calls.count port = 1
  | .one => calls.countP (· ∈ outports) = 1
  | .zeroOrOne => calls.countP (· ∈ outports) ≤ 1
  | .multi => True

/-- **The ports are called as often as `output_fire` says**, by every execution of the code
that is printed, in whatever order the ports are called. -/
def Fires (fire : OutputFire) (outports : List (List Char)) (outputCode : OutputCode) : Prop :=
  ∀ order s, order = [] ∨ order.Perm outports →
    statement fire outports order outputCode = some s → ∀ texts, s.Runs texts →
      ∀ made, List.Forall₂ Makes texts made → CallsRight outports made.flatten fire

/-! ## How often -/

/-- The port calls that are written. -/
def most (outports : List (List Char)) (texts : List (List Char)) : ℕ :=
  (texts.flatMap callsIn).countP (· ∈ outports)

/-- The port calls that are always made. -/
def least (outports : List (List Char)) (texts : List (List Char)) : ℕ :=
  (texts.flatMap fun text => (callsIn text).take (sure text)).countP (· ∈ outports)

theorem forall₂_most (texts : List (List Char)) :
    List.Forall₂ Makes texts (texts.map callsIn) := by
  induction texts with
  | nil => exact .nil
  | cons text texts ih => exact .cons (makes_most text) ih

theorem forall₂_least (texts : List (List Char)) :
    List.Forall₂ Makes texts (texts.map fun text => (callsIn text).take (sure text)) := by
  induction texts with
  | nil => exact .nil
  | cons text texts ih => exact .cons (makes_least text) ih

theorem sublist_most {texts : List (List Char)} {made : List (List (List Char))}
    (h : List.Forall₂ Makes texts made) : made.flatten.Sublist (texts.flatMap callsIn) := by
  induction h with
  | nil => exact .refl _
  | cons hmade _ ih =>
      rw [List.flatten_cons, List.flatMap_cons]
      exact hmade.le_most.append ih

theorem sublist_least {texts : List (List Char)} {made : List (List (List Char))}
    (h : List.Forall₂ Makes texts made) :
    (texts.flatMap fun text => (callsIn text).take (sure text)).Sublist made.flatten := by
  induction h with
  | nil => exact .refl _
  | cons hmade _ ih =>
      rw [List.flatten_cons, List.flatMap_cons]
      exact hmade.least_le.append ih

/-- **At most one call.** -/
theorem countP_le_iff (outports texts : List (List Char)) (n : ℕ) :
    (∀ made, List.Forall₂ Makes texts made → made.flatten.countP (· ∈ outports) ≤ n) ↔
      most outports texts ≤ n := by
  constructor
  · intro h
    have hmost := h _ (forall₂_most texts)
    rwa [← List.flatMap_def] at hmost
  · intro h made hmade
    exact ((sublist_most hmade).countP_le).trans h

/-- **At least one call.** -/
theorem le_countP_iff (outports texts : List (List Char)) (n : ℕ) :
    (∀ made, List.Forall₂ Makes texts made → n ≤ made.flatten.countP (· ∈ outports)) ↔
      n ≤ least outports texts := by
  constructor
  · intro h
    have hleast := h _ (forall₂_least texts)
    rwa [← List.flatMap_def] at hleast
  · intro h made hmade
    exact h.trans (sublist_least hmade).countP_le

end Fire
end Floem
