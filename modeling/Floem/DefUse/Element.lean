import Mathlib
import Floem.DefUse.Scan

/-!
# Elements

The constructor of an element takes the output block off its code and analyses it
(`Element.__init__`, `analyze_output_type` of `graph_ir.py`); the code that runs is put
together from both again (`get_code`, `get_output_code`).  `None` and exceptions of Python are
`none`; ports are their names, which are plain names.

* `Element.make` — the constructor.
* `Element.getCode`, `Element.getOutputCode` — the code that runs on a device.
* `collectDefsUses` — the uses and the definitions of the elements.
-/

namespace Floem
namespace DefUse

open Lib

/-! ## Comments -/

/-- The pattern `//[^\n]*\n`. -/
def lineComment (code : List Char) : Option (List Char) := do
  let rest ← literal "//".toList code
  literal ['\n'] (rest.dropWhile (· ≠ '\n'))

/-- The pattern that matches a comment without stars between its ends. -/
def blockComment (code : List Char) : Option (List Char) := do
  let rest ← literal ['/', '*'] code
  literal ['*', '/'] (rest.dropWhile (· ≠ '*'))

/-- `remove_comment`; the code gets shorter with every comment. -/
def removeComment : ℕ → List Char → List Char
  | 0, code => code
  | n + 1, code =>
    match search lineComment code with
    | some (before, after) => removeComment n (before ++ after)
    | none =>
      match search blockComment code with
      | some (before, after) => removeComment n (before ++ after)
      | none => code

/-! ## The output block -/

/-- `output_fire`. -/
inductive OutputFire
  | all
  | one
  | zeroOrOne
  | multi
  deriving DecidableEq, Repr

/-- `output_code`. -/
inductive OutputCode
  /-- The call at each port. -/
  | calls (name2call : List (List Char × List Char))
  /-- The conditions with the calls behind them. -/
  | cases (casesExprs : List (List Char × List Char))
  deriving DecidableEq, Repr

def dropSpaces (code : List Char) : List Char := code.dropWhile (· = ' ')

/-- `[ \n]*`. -/
def dropBlanks (code : List Char) : List Char := code.dropWhile fun c => c = ' ' ∨ c = '\n'

/-- `{([^}]*)}`, and the group in it. -/
def braces (code : List Char) : Option (List Char) := do
  let rest ← literal ['{'] code
  guard ('}' ∈ rest)
  return rest.takeWhile (· ≠ '}')

/-- The pattern `output[ ]*\{([^}]*)}`. -/
def outputBlock (code : List Char) : Option (List Char) := do
  let rest ← literal "output".toList code
  braces (dropSpaces rest)

/-- `output[ ]+` and a word. -/
def outputWord (word code : List Char) : Option (List Char) := do
  let rest ← literal "output".toList code
  guard (rest.head? = some ' ')
  return dropSpaces (← literal word (dropSpaces rest))

/-- The pattern `output[ ]+switch[ ]*\{([^}]*)}`. -/
def outputSwitch (code : List Char) : Option (List Char) := do
  braces (← outputWord "switch".toList code)

/-- The pattern `output[ ]+multiple[ ]*;`. -/
def outputMultiple (code : List Char) : Option (List Char) := do
  literal [';'] (← outputWord "multiple".toList code)

/-- The pattern `[^a-zA-Z0-9_]name`. -/
def nameAt (name : List Char) : List Char → Option (List Char)
  | [] => none
  | c :: code => if identChar c then none else literal name code

/-- The pattern `[^a-zA-Z0-9_]name[^a-zA-Z0-9_]`. -/
def wholeNameAt (name code : List Char) : Option (List Char) := do
  match ← nameAt name code with
  | [] => none
  | c :: rest => if identChar c then none else some rest

/-- `count_occurrence`. -/
def countOccurrence (name : List Char) : ℕ → List Char → ℕ
  | 0, _ => 0
  | n + 1, code =>
    match search (wholeNameAt name) code with
    | some (_, rest) => 1 + countOccurrence name n rest
    | none => 0

/-- The pattern `[^a-zA-Z0-9_](name[ ]*\([^;]*)`, and the group in it. -/
def callAt (name code : List Char) : Option (List Char) := do
  let rest ← nameAt name code
  guard ((dropSpaces rest).head? = some '(')
  return name ++ rest.takeWhile (· ≠ ';')

/-- `[a-zA-Z0-9_]+`, and what is behind it. -/
def wordAt (code : List Char) : Option (List Char × List Char) := do
  guard (code.takeWhile identChar ≠ [])
  return (code.takeWhile identChar, code.dropWhile identChar)

/-- `$`. -/
def atEnd (code : List Char) : Prop := code = [] ∨ code = ['\n']

instance (code : List Char) : Decidable (atEnd code) := inferInstanceAs (Decidable (_ ∨ _))

/-- The pattern `^[ \n]*else[ ]*:[ ]*([a-zA-Z0-9_]+)(\([^)]*\))[ ]*$`: the port and the call. -/
def elseCase (case : List Char) : Option (List Char × List Char) := do
  let rest ← literal "else".toList (dropBlanks case)
  let rest ← literal [':'] (dropSpaces rest)
  let (port, rest) ← wordAt (dropSpaces rest)
  let args ← literal ['('] rest
  let rest ← literal [')'] (args.dropWhile (· ≠ ')'))
  guard (atEnd (dropSpaces rest))
  return (port, port ++ '(' :: args.takeWhile (· ≠ ')') ++ [')'])

/-- The pattern `^[ \n]*case([^:]+):[ ]*([a-zA-Z0-9_]+)(\(.+)$`: the condition, the port and
the call. -/
def caseAt (case : List Char) : Option (List Char × List Char × List Char) := do
  let rest ← literal "case".toList (dropBlanks case)
  let cond := rest.takeWhile (· ≠ ':')
  guard (cond ≠ [])
  let rest ← literal [':'] (rest.dropWhile (· ≠ ':'))
  let (port, rest) ← wordAt (dropSpaces rest)
  let args ← literal ['('] rest
  let line := args.takeWhile (· ≠ '\n')
  guard (line ≠ [] ∧ atEnd (args.dropWhile (· ≠ '\n')))
  return (cond, port, port ++ '(' :: line)

/-- The loop over the cases, with the ports they fire so far. -/
def casesLoop (count : List (List Char)) :
    List (List Char) → Option (List (List Char) × List (List Char × List Char))
  | [] => some (count, [])
  | case :: cases => do
    let (cond, port, call) ← caseAt case
    -- The source looks the condition up here, not the port.
    guard (cond ∈ count → port ∈ count)
    let (count, casesExprs) ← casesLoop (port :: count) cases
    return (count, (cond, call) :: casesExprs)

/-- `output switch { ... }`. -/
def analyzeSwitch (outports : List (List Char)) (outCode : List Char) :
    Option (OutputCode × OutputFire) := do
  let cases := outCode.splitOn ';'
  guard (dropBlanks (cases.getLast?.getD []) = [])
  let cases := cases.dropLast
  let last ← cases.getLast?
  let elseExpr := elseCase last
  let count := (elseExpr.map Prod.fst).toList
  let (count, casesExprs) ← casesLoop count (if elseExpr.isSome then cases.dropLast else cases)
  guard (∀ port ∈ outports, port ∈ count)
  return match elseExpr with
    | some (_, call) => (.cases (casesExprs ++ [("else".toList, call)]), .one)
    | none => (.cases casesExprs, .zeroOrOne)

/-- `output { ... }`: a call at each port. -/
def analyzeAll (outports : List (List Char)) (group : List Char) : Option OutputCode := do
  let outCode := ' ' :: group
  guard (∀ port ∈ outports, countOccurrence port outCode.length outCode = 1)
  let name2call ← outports.mapM fun port => do
    let (_, call) ← search (callAt port) outCode
    return (port, call)
  return .calls name2call

/-- The code in front of the output block, and what the block says; `selfCode` is the code
the element has at that time. -/
def splitOutput (outports : List (List Char)) (selfCode code : List Char) :
    Option (List Char × OutputCode × OutputFire) :=
  match search outputBlock code with
  | some (programCode, group) =>
    (analyzeAll outports group).map fun outputCode => (programCode, outputCode, .all)
  | none =>
    match search outputSwitch code with
    | some (programCode, outCode) =>
      (analyzeSwitch outports outCode).map fun output => (programCode, output)
    | none =>
      match search outputMultiple selfCode with
      | some (programCode, _) =>
        if outports.length = 1 then some (programCode, .calls [], .multi) else none
      | none => if outports = [] then some (code, .calls [], .all) else none

/-- `analyze_output_type_internal`. -/
def analyzeOutputTypeInternal (outports : List (List Char)) (selfCode code : List Char) :
    Option (List Char × OutputCode × OutputFire) := do
  let (programCode, outputCode, outputFire) ← splitOutput outports selfCode code
  guard (outputFire ≠ .multi →
    ∀ port ∈ outports, countOccurrence port programCode.length programCode = 0)
  return (programCode, outputCode, outputFire)

/-! ## Elements -/

inductive Device
  | cpu
  | cavium
  deriving DecidableEq, Repr

structure Element where
  name : List Char
  outports : List (List Char)
  code : List Char
  codeCavium : Option (List Char)
  outputFire : OutputFire
  outputCode : OutputCode
  outputCodeCavium : Option OutputCode
  defs : Finset (List Char)
  uses : Finset (List Char)
  deriving DecidableEq

/-- The code with two blanks in front and without comments. -/
def prepare (code : List Char) : List Char := "  ".toList ++ removeComment code.length code

namespace Element

/-- `__init__` with the analysis of the output block. -/
def make (name : List Char) (inports outports : List (List Char)) (code : List Char)
    (codeCavium : Option (List Char)) : Option Element := do
  let selfCode := prepare code
  let selfCavium := codeCavium.map fun code => if code = [] then [] else prepare code
  guard (inports ++ outports).Nodup
  let (code, outputCode, outputFire) ← analyzeOutputTypeInternal outports selfCode selfCode
  let cavium ← selfCavium.mapM fun selfCavium => analyzeOutputTypeInternal outports code selfCavium
  guard (∀ analysis ∈ cavium, analysis.2.2 = outputFire)
  return ⟨name, outports, code, cavium.map fun analysis => analysis.1, outputFire, outputCode,
    cavium.map fun analysis => analysis.2.1, ∅, ∅⟩

variable (e : Element)

/-- `get_code`. -/
def getCode : Device → List Char
  | .cpu => e.code
  | .cavium => e.codeCavium.getD e.code

/-- `generate_nested_if`. -/
def generateNestedIf (cases : List (List Char × List Char)) (elseExpr : Option (List Char)) :
    Option (List Char) := do
  let branch := fun (word : List Char) (case : List Char × List Char) =>
    word ++ case.1 ++ ") \x7b ".toList ++ case.2 ++ "; \x7d\n".toList
  match cases with
  | [] => none
  | case :: cases => some (branch "  if(".toList case ++
      cases.flatMap (branch "  else if(".toList) ++
      (elseExpr.map fun call => "  else \x7b ".toList ++ call ++ "; \x7d\n".toList).getD [])

/-- `get_output_code_internal`; the order lists ports, or is empty. -/
def getOutputCodeInternal (order : List (List Char)) : OutputCode → Option (List Char)
  | .calls name2call =>
    match e.outputFire with
    | .multi => some []
    | .all => do
      guard (order = [] ∨ order.length = e.outports.length)
      let calls ← (if order = [] then e.outports else order).mapM fun port => name2call.lookup port
      return calls.flatMap fun call => "  ".toList ++ call ++ ";\n".toList
    | _ => none
  | .cases casesExprs =>
    match e.outputFire with
    | .one => do
      let elseExpr ← casesExprs.getLast?
      generateNestedIf casesExprs.dropLast (some elseExpr.2)
    | .zeroOrOne => generateNestedIf casesExprs none
    | _ => none

/-- The empty output codes count as false. -/
def nonempty : OutputCode → Bool
  | .calls name2call => !name2call.isEmpty
  | .cases casesExprs => !casesExprs.isEmpty

/-- `get_output_code`. -/
def getOutputCode (order : List (List Char)) : Device → Option (List Char)
  | .cpu => e.getOutputCodeInternal order e.outputCode
  | .cavium => e.getOutputCodeInternal order
      ((e.outputCodeCavium.filter nonempty).getD e.outputCode)

/-! ## Uses and definitions -/

/-- What the loop does with a path it has found. -/
def record (e : Element) (found : Found) : Element :=
  if found.use then { e with uses := insert found.src e.uses }
  else { e with defs := insert found.src e.defs }

/-- The rounds of `collect_defs_uses` for one element. -/
def collect : Option (Element × List Found) := do
  let found ← scan e.code.length e.code
  return (found.foldl record e, found)

theorem mem_uses_record (found : List Found) (e : Element) (p : List Char) :
    p ∈ (found.foldl record e).uses ↔ p ∈ e.uses ∨ (p, true) ∈ found.map fun f => (f.src, f.use) := by
  induction found generalizing e with
  | nil => simp
  | cons f found ih =>
      rw [List.foldl_cons, ih, List.map_cons, List.mem_cons]
      cases h : f.use
      · simp [record, h]
      · simp [record, h]
        tauto

theorem mem_defs_record (found : List Found) (e : Element) (p : List Char) :
    p ∈ (found.foldl record e).defs ↔ p ∈ e.defs ∨ (p, false) ∈ found.map fun f => (f.src, f.use) := by
  induction found generalizing e with
  | nil => simp
  | cons f found ih =>
      rw [List.foldl_cons, ih, List.map_cons, List.mem_cons]
      cases h : f.use
      · simp [record, h]
        tauto
      · simp [record, h]

end Element

/-- `collect_defs_uses`: the elements with their uses and definitions, and the entries of
`src2fields` in the order in which they are set. -/
def collectDefsUses (elements : List Element) :
    Option (List Element × List (List Char × List (List Char))) := do
  let collected ← elements.mapM Element.collect
  return (collected.map Prod.fst,
    collected.flatMap fun each => each.2.map fun found => (found.src, found.fields))

end DefUse
end Floem
