import Mathlib
import Floem.Lib.Run

/-!
# Flow collections

The pieces of data that fire a join node (`InstancePart` and `FlowCollection` of
`api_handling.py`).  Exceptions are `none`.

* `InstancePart` — a set of input ports of a join node.
* `Data` — a piece of data, or the name of the join node for all of it.
* `add`, `union` — the methods.
-/

namespace Floem
namespace Join

/-! ## Parts -/

/-- `InstancePart`. -/
structure InstancePart where
  inst : String
  ports : Finset ℕ
  total : ℕ
  deriving DecidableEq

namespace InstancePart

/-- `__eq__` does not look at the total. -/
def same (x y : InstancePart) : Bool := x.inst = y.inst ∧ x.ports = y.ports

/-- `union`: the name of the instance when it is complete. -/
def union (x y : InstancePart) : Option (String ⊕ InstancePart) :=
  if x.inst = y.inst then
    if (x.ports ∪ y.ports).card = x.total then some (.inl x.inst)
    else some (.inr ⟨x.inst, x.ports ∪ y.ports, x.total⟩)
  else none

/-- `intersection`. -/
def intersection (x y : InstancePart) : Option InstancePart :=
  if x.inst = y.inst ∧ 0 < (x.ports ∩ y.ports).card then
    some ⟨x.inst, x.ports ∩ y.ports, x.total⟩
  else none

end InstancePart

/-! ## Collections -/

/-- A member of a collection. -/
inductive Data
  | name (s : String)
  | parts (l : List InstancePart)
  deriving DecidableEq

def sameParts (x y : List InstancePart) : Bool := x.isEqv y InstancePart.same

namespace Data

def same : Data → Data → Bool
  | name s, name s' => s = s'
  | parts x, parts y => sameParts x y
  | _, _ => false

end Data

/-- How the loop of `add` ends. -/
inductive Outcome
  | raises
  | merged (x new : Data)
  | append

/-- The loop of `add`. -/
def scan (target : String) (y : List InstancePart) : List Data → Outcome
  | [] => .append
  | .name _ :: c => scan target y c
  | .parts x :: c =>
    if sameParts x y then .raises
    else if sameParts x.dropLast y.dropLast then
      match x.getLast?, y.getLast? with
      | some a, some b =>
        if (a.intersection b).isSome then .raises
        else
          match a.union b with
          | none => scan target y c
          | some (.inl _) =>
            .merged (.parts x) (if x.dropLast = [] then .name target else .parts x.dropLast)
          | some (.inr part) => .merged (.parts x) (.parts (x.dropLast ++ [part]))
      | _, _ => .raises
    else scan target y c

/-- `add`; each call of itself has one member less. -/
def addN (target : String) : ℕ → List Data → Data → Option (List Data)
  | _, c, .name s => if c = [] then some [.name s] else none
  | n, c, .parts y =>
    match scan target y c with
    | .raises => none
    | .append => some (c ++ [.parts y])
    | .merged x new =>
      match n with
      | 0 => none
      | n + 1 => addN target n (c.eraseP (·.same x)) new

def add (target : String) (c : List Data) (y : Data) : Option (List Data) :=
  addN target c.length c y

/-- The data of a `FlowCollection`. -/
structure Flow where
  collection : List Data
  goal : Bool

/-- `union`. -/
def union (target : String) (c d : Flow) : Option Flow := do
  let l ← d.collection.foldlM (add target) c.collection
  return ⟨l, c.goal || d.goal⟩

end Join
end Floem
