import Mathlib
import Floem.Lib.Run

/-!
# Element graphs

The graph of element instances of `floem/graph_ir.py` and `floem/graph.py`, and the
operations of `Graph` that change its edges, statement by statement.

* `Element`, `Node`, `Graph` — the fields these operations and the passes built on
  them read.  A `dict` is an `AList`; `instances` maps the name of an instance to the
  object.
* `Dest` — the value of `output2ele` at a port: the next instance with one input port,
  or with the list of all its input ports.
* `connect`, `disconnect`, `deleteInstance`, … — `none` when an exception is raised.

Code is text nobody reads here, so `Code` keeps what it is generated from.  The links
between a smart queue and its instances are no edges and are left out.
-/

namespace Floem
namespace IR

/-- A `dict` with names as keys. -/
abbrev Dict (α : Type) := AList fun _ : String => α

namespace Dict

variable {α : Type} (d : Dict α) (a b : String) (x : α)

theorem lookup_insert : AList.lookup b (d.insert a x) = if b = a then some x else d.lookup b := by
  split_ifs with hb
  · rw [hb, AList.lookup_insert]
  · exact AList.lookup_insert_ne hb

theorem lookup_erase : AList.lookup b (d.erase a) = if b = a then none else d.lookup b := by
  split_ifs with hb
  · rw [hb, AList.lookup_erase]
  · exact AList.lookup_erase_ne hb

theorem mem_iff : a ∈ d ↔ ∃ x, d.lookup a = some x := by
  rw [← AList.lookup_isSome, Option.isSome_iff_exists]

/-- A key that a loop of assignments writes has one of the values it writes there. -/
theorem lookup_foldl_insert {β : Type} (key : β → String) (val : β → α) {l : List β} {y : β}
    (hy : y ∈ l) : ∃ z ∈ l, key z = key y ∧
      (l.foldl (fun d z => d.insert (key z) (val z)) d).lookup (key y) = some (val z) := by
  induction l using List.reverseRecOn with
  | nil => cases hy
  | append_singleton l x ih =>
      rw [List.foldl_append, List.foldl_cons, List.foldl_nil]
      by_cases hx : key x = key y
      · exact ⟨x, by simp, hx, by rw [lookup_insert, if_pos hx.symm]⟩
      · rcases List.mem_append.1 hy with hy | hy
        · obtain ⟨z, hz, hkey, hlookup⟩ := ih hy
          refine ⟨z, List.mem_append_left _ hz, hkey, ?_⟩
          rw [lookup_insert, if_neg (Ne.symm hx), hlookup]
        · exact absurd (List.mem_singleton.1 hy ▸ rfl) hx

end Dict

/-! ## Elements and instances -/

/-- `Port`. -/
structure Port where
  name : String
  argtypes : List String
  pipeline : Bool
  deriving DecidableEq, Repr

/-- What `Port.__eq__` compares of a list of ports. -/
def sig (ports : List Port) : List (String × List String) :=
  ports.map fun port => (port.name, port.argtypes)

/-- The code of an element: written by the user, or generated for a buffer. -/
inductive Code
  | text (s : String)
  | bufferRead (needBuffer noBuffer inports : List (String × List String))
  | bufferWrite (argtypes : List String) (pipeline : Bool) (nextPort : String)
  deriving DecidableEq, Repr

/-- `output_fire`. -/
inductive Fire
  | none
  | all
  | one
  | zeroOrOne
  | multi
  deriving DecidableEq, Repr

/-- `Element`.  Its constructor checks that the ports have different names. -/
structure Element where
  name : String
  inports : List Port
  outports : List Port
  code : Code
  stateParams : List (String × String)
  outputFire : Fire
  /-- `special == 'clean'`. -/
  clean : Bool
  deriving DecidableEq, Repr

/-- The input ports an output port leads to. -/
inductive Dest
  | one (port : String)
  | all (ports : List String)
  deriving DecidableEq, Repr

def Dest.ports : Dest → List String
  | one p => [p]
  | all ps => ps

/-- An empty argument counts as `None`. -/
def Dest.given : Dest → Bool
  | one p => p ≠ ""
  | all ps => ps ≠ []

/-- `ElementNode`, without its name, which is the key it is stored under. -/
structure Node where
  element : Element
  stateArgs : List String
  output2ele : Dict (String × Dest)
  input2ele : Dict (List (String × String))
  coreId : Bool
  thread : Option String

/-- `State`.  The content is a list of types and fields. -/
structure StateDecl where
  name : String
  content : List (String × String)
  fields : List String
  init : Option (List String)
  /-- The types of the fields, for a state that the user declares. -/
  mapping : Option (List (String × String))
  deriving DecidableEq, Repr

/-- `State.__eq__`. -/
def StateDecl.same (s t : StateDecl) : Bool :=
  s.name = t.name ∧ s.content = t.content ∧ s.init = t.init

/-- `StateNode`. -/
structure StateNode where
  state : String
  init : Option (List String)
  deriving DecidableEq, Repr

/-- An API or an internal trigger. -/
structure Trigger where
  name : String
  callInstance : Option String
  deriving DecidableEq, Repr

/-- `Graph`. -/
structure Graph where
  elements : Dict Element
  instances : Dict Node
  states : Dict StateDecl
  stateInstances : Dict StateNode
  threadsAPI : List Trigger
  threadsInternal : List Trigger
  threadsRoots : List String
  defaultProcess : String
  masterProcess : Option String

namespace Element

/-- `__eq__`. -/
def same (e f : Element) : Bool :=
  e.name = f.name ∧ sig e.inports = sig f.inports ∧ sig e.outports = sig f.outports ∧
    e.code = f.code ∧ e.stateParams = f.stateParams

/-- `check_ports`. -/
def checkPorts (e : Element) : Option Unit :=
  guard ((e.inports ++ e.outports).map Port.name).Nodup

/-- The output port `connect` takes when it is asked for `out1`; the empty name asks for
none. -/
def outPort (e : Element) (out1 : Option String) : Option String :=
  match out1.filter (· ≠ "") with
  | some p => if p ∈ e.outports.map Port.name then some p else none
  | none => match e.outports with
    | [port] => some port.name
    | _ => none

/-- The input ports `connect` takes when it is asked for `in2`. -/
def inPort (e : Element) (in2 : Option String) : Option Dest :=
  match in2.filter (· ≠ "") with
  | some p => if p ∈ e.inports.map Port.name then some (.one p) else none
  | none => match e.inports with
    | [port] => some (.one port.name)
    | ports => some (.all (ports.map Port.name))

end Element

namespace Node

variable (n : Node)

/-- `connect_output_port`. -/
def connectOutputPort (port f : String) (fport : Dest) (overwrite : Bool) : Option Node := do
  guard (overwrite ∨ port ∉ n.output2ele)
  return { n with output2ele := n.output2ele.insert port (f, fport) }

/-- `connect_input_port`. -/
def connectInputPort (port f fport : String) : Node :=
  match n.input2ele.lookup port with
  | some l => { n with input2ele := n.input2ele.insert port (l ++ [(f, fport)]) }
  | none => { n with input2ele := n.input2ele.insert port [(f, fport)] }

/-- `l` as the new list of an input port, whose key goes when the list is empty. -/
def storeInput (port : String) (l : List (String × String)) : Node :=
  if l.length = 0 then { n with input2ele := n.input2ele.erase port }
  else { n with input2ele := n.input2ele.insert port l }

/-- `unused`. -/
def unused : Bool :=
  if n.coreId then false
  else if n.element.clean then false
  else if 0 < n.element.inports.length then n.input2ele.keys.length = 0
  else 0 < n.element.outports.length ∧ n.output2ele.keys.length = 0

end Node

namespace Graph

variable (g : Graph)

/-- The graph with `n` as the instance `name`: the object is stored once, and every
change of it is seen by all. -/
def setInstance (name : String) (n : Node) : Graph :=
  { g with instances := g.instances.insert name n }

/-- `del self.instances[name]`. -/
def eraseInstance (name : String) : Graph :=
  { g with instances := g.instances.erase name }

/-! ## The operations -/

/-- `Graph.__init__` without an original. -/
def empty : Graph where
  elements := ∅
  instances := ∅
  states := ∅
  stateInstances := ∅
  threadsAPI := []
  threadsInternal := []
  threadsRoots := []
  defaultProcess := "tmp"
  masterProcess := none

/-- `addElement`: the graph, and whether the element is new. -/
def addElement (element : Element) : Option (Graph × Bool) :=
  match g.elements.lookup element.name with
  | some old => if old.same element then some (g, false) else none
  | none => some ({ g with elements := g.elements.insert element.name element }, true)

/-- `addState`. -/
def addState (state : StateDecl) : Option Graph :=
  match g.states.lookup state.name with
  | some old => if old.same state then some g else none
  | none => some { g with states := g.states.insert state.name state }

/-- `newStateInstance`. -/
def newStateInstance (state name : String) (init : Option (List String)) : Graph :=
  { g with stateInstances := g.stateInstances.insert name ⟨state, init⟩ }

/-- The state arguments have the types of the state parameters. -/
def checkStates (e : Element) (stateArgs : List String) : Option Unit := do
  guard (stateArgs.length = e.stateParams.length)
  (e.stateParams.zip stateArgs).forM fun (param, arg) => do
    let inst ← g.stateInstances.lookup arg
    guard (inst.state = param.1)

/-- `newElementInstance`. -/
def newElementInstance (element name : String) (stateArgs : List String) : Option Graph := do
  let e ← g.elements.lookup element
  let g := g.setInstance name ⟨e, stateArgs, ∅, ∅, false, none⟩
  g.checkStates e stateArgs
  return g

/-- `deleteElementInstance` without `force`. -/
def deleteElementInstance (name : String) : Option Graph := do
  let inst ← g.instances.lookup name
  guard (∀ l ∈ inst.input2ele.entries, l.2.length = 0)
  guard (inst.output2ele.entries = [])
  return g.eraseInstance name

/-- `connect`. -/
def connect (name1 name2 : String) (out1 in2 : Option String) (overwrite : Bool) :
    Option Graph := do
  let i1 ← g.instances.lookup name1
  let e2 := (← g.instances.lookup name2).element
  let out1 ← i1.element.outPort out1
  let in2 ← e2.inPort in2
  let i1 ← i1.connectOutputPort out1 name2 in2 overwrite
  let g := g.setInstance name1 i1
  let i2 ← g.instances.lookup name2
  return g.setInstance name2
    (in2.ports.foldl (fun i2 port => i2.connectInputPort port name1 out1) i2)

/-- `disconnect`.  A list of ports is no key of a `dict`. -/
def disconnect (name1 name2 out1 : String) (in2 : Option Dest) : Option Graph := do
  let i1 ← g.instances.lookup name1
  let _ ← g.instances.lookup name2
  let (inName, inPort) ← i1.output2ele.lookup out1
  let g := g.setInstance name1 { i1 with output2ele := i1.output2ele.erase out1 }
  guard (name2 = inName)
  guard (∀ d ∈ in2.filter Dest.given, d = inPort)
  match inPort with
  | .all _ => none
  | .one port =>
    let i2 ← g.instances.lookup name2
    let l ← i2.input2ele.lookup port
    guard ((name1, out1) ∈ l)
    return g.setInstance name2 (i2.storeInput port (l.erase (name1, out1)))

/-- The first loop of `delete_instance`, at one predecessor. -/
def forgetOutput (name : String) (pred : String × String) : Option Graph := do
  let other ← g.instances.lookup pred.1
  let (thisName, _) ← other.output2ele.lookup pred.2
  if thisName = name then
    return g.setInstance pred.1 { other with output2ele := other.output2ele.erase pred.2 }
  else return g

/-- The second loop of `delete_instance`, at one output port. -/
def forgetInput (name : String) (out : Σ _ : String, String × Dest) : Option Graph := do
  let other ← g.instances.lookup out.2.1
  match out.2.2 with
  | .all _ => none
  | .one nextPort =>
    let l ← other.input2ele.lookup nextPort
    let newL := l.filter fun this => ¬ (this.1 = name ∧ this.2 = out.1)
    return g.setInstance out.2.1 (other.storeInput nextPort newL)

/-- `delete_instance`. -/
def deleteInstance (name : String) : Option Graph := do
  let inst ← g.instances.lookup name
  let g := g.eraseInstance name
  let g ← (inst.input2ele.entries.flatMap fun entry => entry.2).foldlM
    (fun g pred => g.forgetOutput name pred) g
  inst.output2ele.entries.foldlM (fun g out => g.forgetInput name out) g

/-- The instances `remove_unused_elements` deletes. -/
def unusedInstances : List String :=
  (g.instances.entries.filter fun entry =>
    entry.2.unused ∧ some entry.1 ∉ g.threadsAPI.map Trigger.callInstance).map Sigma.fst

/-- `self.threads_roots.remove(name)` for each name. -/
def removeRoots : List String → List String → Option (List String)
  | roots, [] => some roots
  | roots, name :: names => if name ∈ roots then removeRoots (roots.erase name) names else none

/-- The roots without the deleted instances, if there are roots yet. -/
def rootsWithout (delete : List String) : Option (List String) :=
  if 0 < g.threadsRoots.length then removeRoots g.threadsRoots delete else some g.threadsRoots

/-- `remove_unused_elements`. -/
def removeUnusedElements (resource : Bool) : Option Graph := do
  let delete := g.unusedInstances
  let g := delete.foldl eraseInstance g
  let roots ← g.rootsWithout delete
  let g := { g with threadsRoots := roots }
  guard (resource = false ∨ ∀ entry ∈ g.instances.entries, entry.2.thread.isSome)
  return g

end Graph
end IR
end Floem
