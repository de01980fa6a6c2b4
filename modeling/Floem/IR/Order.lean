import Floem.IR.Basic
import Floem.Lib.Search

/-!
# Constraints on the order of execution

`insert_resource_order` of `floem/thread_allocation.py` turns every constraint that one
instance runs before another on its thread into an edge between empty ports.

* `findSubgraphSameThread` — what an instance points to on its thread.
* `collectPorts` — the ports that the pairs of instances need.
* `insertPorts`, `mergeAsNoJoin` — new ports and their edges, at one instance or from all
  instances of a list.
* `insertResourceOrder` — the pass.
-/

namespace Floem
namespace IR

open Lib

/-- An element of `threads_order`: `a` before `b`, or any instance of a list before `b`. -/
inductive Constraint
  | before (a b : String)
  | anyBefore (froms : List String) (target : String)
  deriving DecidableEq, Repr

namespace Element

/-- `clone`. -/
def clone (e : Element) (newName : String) : Element := { e with name := newName }

/-- `add_empty_outports`. -/
def addEmptyOutports (e : Element) (portNames : List String) : Option Element := do
  guard (e.outputFire = .all)
  return { e with outports := e.outports ++ portNames.map fun name => ⟨name, [], false⟩ }

/-- `add_empty_inports`. -/
def addEmptyInports (e : Element) (portNames : List String) : Element :=
  { e with inports := e.inports ++ portNames.map fun name => ⟨name, [], false⟩ }

end Element

/-- `"_out" + str(i)` and `"_in" + str(i)` -/
def outName (i : ℕ) : String := "_out" ++ toString i

def inName (i : ℕ) : String := "_in" ++ toString i

/-- The extra ports of each instance: what the other end of port `i` is, and the number of
the port there. -/
abbrev Extra := Dict (List (String × ℕ))

/-- `extra[inst]`, or the empty list that is stored there first. -/
def Extra.at (extra : Extra) (inst : String) : List (String × ℕ) := (extra.lookup inst).getD []

namespace Graph

variable (g : Graph)

/-- The instances an instance leads to. -/
def nextInstances (name : String) : Option (List String) :=
  (g.instances.lookup name).map fun inst => inst.output2ele.entries.map fun out => out.2.1

/-- `find_subgraph_same_thread` from an instance, on its thread.  No path has more
instances than the graph. -/
def findSubgraphSameThread (root : String) : Option (List String) := do
  let inst ← g.instances.lookup root
  dfs g.nextInstances (fun name => (g.instances.lookup name).map Node.thread = some inst.thread)
    (g.instances.entries.length + 1) root []

/-- The second loop of `insert_resource_order`, at the pair `a`, `b`. -/
def collectPorts (extra : Extra × Extra) (pair : String × String) : Option (Extra × Extra) := do
  let (a, b) := pair
  let pointsToA ← g.findSubgraphSameThread a
  let pointsToB ← g.findSubgraphSameThread b
  guard (a ∉ pointsToB)
  if b ∈ pointsToA then some extra
  else
    let outs := extra.1.at a
    let ins := extra.2.at b
    some (extra.1.insert a (outs ++ [(b, ins.length)]), extra.2.insert b (ins ++ [(a, outs.length)]))

/-- `insert_ports`. -/
def insertPorts (extra : Extra × Extra) (name : String) : Option Graph := do
  let extraOut := extra.1.at name
  let extraIn := extra.2.at name
  let inst ← g.instances.lookup name
  let suffixIn := if extraIn = [] then "" else "_i" ++ toString extraIn.length
  let suffixOut := if extraOut = [] then "" else "_o" ++ toString extraOut.length
  let element := inst.element.clone (inst.element.name ++ "_clone" ++ suffixIn ++ suffixOut)
  let element ← (if extraOut = [] then some element
    else element.addEmptyOutports ((List.range extraOut.length).map outName))
  let element := element.addEmptyInports ((List.range extraIn.length).map inName)
  let output2ele := extraOut.zipIdx.foldl
    (fun d next => d.insert (outName next.2) (next.1.1, .one (inName next.1.2))) inst.output2ele
  let input2ele := extraIn.zipIdx.foldl
    (fun d prev => d.insert (inName prev.2) [(prev.1.1, outName prev.1.2)]) inst.input2ele
  let (g, _) ← g.addElement element
  return g.setInstance name
    { inst with element := element, output2ele := output2ele, input2ele := input2ele }

/-- The loop of `merge_as_no_join`, at one instance of the list. -/
def mergeOutput (target f : String) : Option Graph := do
  let inst ← g.instances.lookup f
  let element ← (inst.element.clone (inst.element.name ++ "_clone_o")).addEmptyOutports ["_out"]
  let (g, _) ← g.addElement element
  return g.setInstance f
    { inst with element := element, output2ele := inst.output2ele.insert "_out" (target, .one "_in") }

/-- `merge_as_no_join`. -/
def mergeAsNoJoin (froms : List String) (target : String) : Option Graph := do
  let g ← froms.foldlM (fun g f => g.mergeOutput target f) g
  let inst ← g.instances.lookup target
  let element := (inst.element.clone (inst.element.name ++ "_clone_i")).addEmptyInports ["_in"]
  let (g, _) ← g.addElement element
  return g.setInstance target
    { inst with
      element := element
      input2ele := inst.input2ele.insert "_in" (froms.map fun f => (f, "_out")) }

/-- The pairs among the constraints. -/
def pairs (order : List Constraint) : List (String × String) :=
  order.filterMap fun
    | .before a b => some (a, b)
    | .anyBefore _ _ => none

/-- The lists among the constraints. -/
def lists (order : List Constraint) : List (List String × String) :=
  order.filterMap fun
    | .before _ _ => none
    | .anyBefore froms target => some (froms, target)

/-- `insert_resource_order`.  The instances with extra ports are a `set`: `insts` is the
order in which it is iterated. -/
def insertResourceOrder (order : List Constraint) (insts : List String) : Option Graph := do
  let extra ← (pairs order).foldlM g.collectPorts (∅, ∅)
  guard (insts.Perm (extra.1.keys ++ extra.2.keys).dedup)
  let g ← insts.foldlM (fun g name => g.insertPorts extra name) g
  (lists order).foldlM (fun g list => g.mergeAsNoJoin list.1 list.2) g

end Graph
end IR
end Floem
