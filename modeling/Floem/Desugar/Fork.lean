import Mathlib
import Floem.Lib.Run

/-!
# Forks

An output port that is connected more than once gets a fork element behind it
(`insert_fork_program` and `insert_fork_other` of `desugaring.py`, `Fork_multi_values` of
`standard_elements.py`).  Python exceptions are `none`.

* `Stmt` — the statements of a program, with blocks in them.
* `Iteration` — the order in which a dictionary is gone through.
* `forkStep`, `forkLoop` — the loop over the connected ports of one block.
* `insertForkProgram`, `insertFork` — all blocks.

The lists of the resource orders are not cloned; `insertFork` also says what the program that
was given looks like afterwards.
-/

namespace Floem
namespace Desugar

/-! ## Programs -/

structure Port where
  name : String
  argtypes : List String
  deriving DecidableEq, Repr

/-- `Element`. -/
structure Element where
  name : String
  inports : List Port
  outports : List Port
  code : String
  deriving DecidableEq, Repr

/-- The left side of a resource order. -/
inductive Names
  | single (a : String)
  | several (as : List String)
  deriving DecidableEq, Repr

/-- The kind of a block. -/
inductive Kind
  | program
  | spec
  | impl
  | composite (name : String)
  deriving DecidableEq, Repr

/-- The statements of a program; `other` stands for the ones that forks do not look at. -/
inductive Stmt
  | element (x : Element)
  | elementInstance (element name : String) (args : List String)
  | connect (ele1 ele2 : String) (out1 in2 : Option String)
  | resourceMap (resource inst : String)
  | resourceOrder (a : Names) (b : String)
  | block (kind : Kind) (statements : List Stmt)
  | other (text : String)
  deriving Repr

/-- An instance and an output port of it. -/
abbrev Key := String × Option String

namespace Names

def toList : Names → List String
  | single a => [a]
  | several as => as

/-- `x.a = fork_inst.name`, or the same in the list. -/
def adjust (inst fork : String) : Names → Names
  | single _ => single fork
  | several as => several (as.replace inst fork)

end Names

namespace Stmt

/-- The port that a connection comes from. -/
def key? : Stmt → Option Key
  | connect ele1 _ out1 _ => some (ele1, out1)
  | _ => none

/-- The names on the left side of an order. -/
def firsts : Stmt → List String
  | resourceOrder a _ => a.toList
  | _ => []

/-- The connection comes from the fork instead. -/
def redirect (fork : String) (i : ℕ) : Stmt → Stmt
  | connect _ ele2 _ in2 => connect fork ele2 (some ("out" ++ toString i)) in2
  | st => st

/-- The order names the fork instead. -/
def adjust (inst fork : String) : Stmt → Stmt
  | resourceOrder a b => resourceOrder (a.adjust inst fork) b
  | st => st

end Stmt

/-! ## The maps of a block -/

section Maps

variable (s : List Stmt)

/-- The keys of `connect_map`. -/
def keys : List Key := (s.filterMap Stmt.key?).dedup

/-- The number of connections of a port. -/
def fanout (k : Key) : ℕ := (s.filterMap Stmt.key?).count k

/-- `instance_map`: the element of an instance. -/
def instanceMap (inst : String) : Option String :=
  s.reverse.findSome? fun
    | .elementInstance element name _ => if name = inst then some element else none
    | _ => none

/-- `element_map`. -/
def elementMap (name : String) : Option Element :=
  s.reverse.findSome? fun
    | .element x => if x.name = name then some x else none
    | _ => none

/-- `resource_map`. -/
def resourceMap (inst : String) : Option String :=
  s.reverse.findSome? fun
    | .resourceMap resource name => if name = inst then some resource else none
    | _ => none

/-- `resource_order`: the place of the last order with the instance on its left side. -/
def resourceOrder (inst : String) : Option ℕ :=
  (List.range s.length).reverse.find? fun j => (s[j]?.map Stmt.firsts).any (inst ∈ ·)

/-- The port that is to be forked. -/
def portOf (k : Key) : Option Port := do
  let element ← elementMap s (← instanceMap s k.1)
  element.outports.find? fun port => some port.name = k.2

end Maps

/-! ## The fork element -/

/-- `Fork_multi_values`. -/
def forkMultiValues (name : String) (n : ℕ) (types : List String) : Element :=
  let args := (List.range types.length).map fun i => "_arg" ++ toString i
  let typesArgs := List.zipWith (fun type arg => type ++ " " ++ arg) types args
  let argsStr := ",".intercalate args
  let outs := (List.range n).map fun i => "out" ++ toString (i + 1)
  let calls := " ".intercalate (outs.map fun out => out ++ "(" ++ argsStr ++ ");")
  let output := "output \x7b " ++ calls ++ " \x7d"
  let src := if types = [] then output
    else "(" ++ ",".intercalate typesArgs ++ ") = in(); " ++ output
  ⟨name, [⟨"in", types⟩], outs.map fun out => ⟨out, types⟩, src⟩

def forkName (inst port : String) (forkId : ℕ) : String :=
  inst ++ "_" ++ port ++ "_fork" ++ toString forkId

/-! ## One block -/

/-- The connections of one port come from the fork; the first list has the statements as
they were, which the map points to. -/
def redirectKey (k : Key) (fork : String) : ℕ → List Stmt → List Stmt → List Stmt
  | i, o :: os, st :: sts =>
    if o.key? = some k then st.redirect fork i :: redirectKey k fork (i + 1) os sts
    else st :: redirectKey k fork i os sts
  | _, _, sts => sts

/-- The statements in front of those that were there, these, and the ones behind them.  The
variable `x` is the program until an order has been adjusted, and then that order. -/
structure Loop where
  front : List Stmt
  body : List Stmt
  back : List Stmt
  forkId : ℕ
  isProgram : Bool

/-- One round of the loop over `connect_map`. -/
def forkStep (s : List Stmt) (l : Loop) (k : Key) : Option Loop := do
  if 1 < fanout s k then
    let port ← portOf s k
    let fork := forkMultiValues (forkName k.1 port.name l.forkId) (fanout s k) port.argtypes
    let forkInst := fork.name ++ "_inst"
    -- An order has no `statements`.
    guard l.isProgram
    let mapped := (resourceMap s k.1).toList.map fun resource => .resourceMap resource forkInst
    let order := resourceOrder s k.1
    let adjusted := match order with
      | some j => l.body.modify j (Stmt.adjust k.1 forkInst)
      | none => l.body
    return {
      front := .element fork :: .elementInstance fork.name forkInst [] :: l.front
      body := redirectKey k forkInst 1 s adjusted
      back := l.back ++ .connect k.1 forkInst (some port.name) (some "in") :: mapped
      forkId := l.forkId + 1
      isProgram := order.isNone }
  else return l

/-- An order in which the keys of a dictionary are gone through. -/
structure Iteration where
  order : List Key → List Key
  perm : ∀ l, (order l).Perm l

/-- The loop over `connect_map`; `body` has the blocks of the statements done already. -/
def forkLoop (it : Iteration) (s body : List Stmt) (forkId : ℕ) : Option Loop :=
  (it.order (keys s)).foldlM (forkStep s) ⟨[], body, [], forkId, true⟩

namespace Loop

/-- The statements of the block. -/
def statements (l : Loop) : List Stmt := l.front ++ l.body ++ l.back

end Loop

/-! ## All blocks -/

/-- A statement that was cloned, after the clone has changed: only a list on the left side of
an order is the same object. -/
def shared : Stmt → Stmt → Stmt
  | .resourceOrder (.several _) b, .resourceOrder a _ => .resourceOrder a b
  | st, _ => st

/-- What a block has become, and what the block that was given has become. -/
structure Forked (α : Type) where
  clone : α
  given : α
  forkId : ℕ

/-- The end of a block whose inner blocks are done. -/
def finishBlock (it : Iteration) (s : List Stmt) (inner : Forked (List Stmt)) :
    Option (Forked (List Stmt)) := do
  let l ← forkLoop it s inner.clone inner.forkId
  return ⟨l.statements, List.zipWith shared inner.given l.body, l.forkId⟩

mutual

/-- `insert_fork_other`, as far as it goes into blocks. -/
def insertForkOther (it : Iteration) : Stmt → ℕ → Option (Forked Stmt)
  | .block kind s, forkId => do
    let inner ← insertForkOthers it s forkId
    let r ← finishBlock it s inner
    return ⟨.block kind r.clone, .block kind r.given, r.forkId⟩
  | st, forkId => some ⟨st, st, forkId⟩

/-- The loop over the statements. -/
def insertForkOthers (it : Iteration) : List Stmt → ℕ → Option (Forked (List Stmt))
  | [], forkId => some ⟨[], [], forkId⟩
  | st :: sts, forkId => do
    let r ← insertForkOther it st forkId
    let rs ← insertForkOthers it sts r.forkId
    return ⟨r.clone :: rs.clone, r.given :: rs.given, rs.forkId⟩

end

/-- `insert_fork`: the new program, and the given one. -/
def insertFork (it : Iteration) (s : List Stmt) (forkId : ℕ) : Option (Forked (List Stmt)) := do
  finishBlock it s (← insertForkOthers it s forkId)

end Desugar
end Floem
