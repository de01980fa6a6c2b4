import Floem.IR.Basic

/-!
# Buffers between threads, in the graph

The pass of `floem/thread_allocation.py` that puts a read element in front of an
instance with input from another thread, and a write element behind each output port
that leads to another thread.

* `createBufferReadElement`, `insertBufferReadElement` — the state, the read element and
  its edges.
* `createBufferWriteElement`, `insertBufferWriteElement` — a write element for each port.

What the generated elements do when they run is in `Floem.Thread.Buffer`.
-/

namespace Floem
namespace IR
namespace Graph

variable (g : Graph)

/-! ## The read element -/

/-- The content of the state: a flag for each port and a word for each argument. -/
def bufferContent (needBuffer : List Port) : List (String × String) :=
  needBuffer.map (fun port => ("bool", port.name ++ "_avail")) ++
    needBuffer.flatMap fun port =>
      port.argtypes.mapIdx fun i type => (type, port.name ++ "_arg" ++ toString i)

/-- `create_buffer_read_element`. -/
def createBufferReadElement (name : String) (needBuffer noBuffer : List Port) :
    Option (Graph × String) := do
  let inst ← g.instances.lookup name
  let stName := name ++ "_buffer"
  let content := bufferContent needBuffer
  let g ← g.addState ⟨stName, content, content.map Prod.snd, some (content.map fun _ => "0"), none⟩
  let g := g.newStateInstance stName ("_" ++ stName) none
  let allTypes := inst.element.inports.flatMap Port.argtypes
  let ele : Element :=
    { name := stName ++ "_read", inports := noBuffer, outports := [⟨"out", allTypes, false⟩]
      code := .bufferRead (sig needBuffer) (sig noBuffer) (sig inst.element.inports)
      stateParams := [(stName, "this")], outputFire := .all, clean := false }
  ele.checkPorts
  let (g, _) ← g.addElement ele
  let g ← g.newElementInstance ele.name ele.name ["_" ++ stName]
  let newInstance ← g.instances.lookup ele.name
  return (g.setInstance ele.name { newInstance with thread := inst.thread }, ele.name)

/-- The first loop of `insert_buffer_read_element`, at one input port. -/
def sortInport (inst : Node) (sorted : List Port × List Port) (port : Port) :
    Option (List Port × List Port) :=
  match inst.input2ele.lookup port.name with
  | some portList => do
    let instList ← portList.mapM fun prev => g.instances.lookup prev.1
    let threadList := instList.map Node.thread
    guard (threadList.dedup.length ≤ 1)
    let thread ← threadList.head?
    if thread = inst.thread then pure (sorted.1, sorted.2 ++ [port])
    else pure (sorted.1 ++ [port], sorted.2)
  | none => some (sorted.1, sorted.2 ++ [port])

/-- `api.call_instance = new_name` where it was the instance. -/
def retarget (name newName : String) (trigger : Trigger) : Trigger :=
  if trigger.callInstance = some name then { trigger with callInstance := some newName }
  else trigger

/-- `insert_buffer_read_element`. -/
def insertBufferReadElement (name : String) : Option Graph := do
  let inst ← g.instances.lookup name
  let (needBuffer, noBuffer) ← inst.element.inports.foldlM (g.sortInport inst) ([], [])
  if 0 < needBuffer.length then
    let (g, newName) ← g.createBufferReadElement name needBuffer noBuffer
    let g ← noBuffer.foldlM (fun g port => do
      let prevs ← inst.input2ele.lookup port.name
      prevs.foldlM (fun g prev => g.connect prev.1 newName (some prev.2) (some port.name) true)
        g) g
    let inst ← g.instances.lookup name
    let g := g.setInstance name { inst with input2ele := ∅ }
    let g ← g.connect newName name (some "out") none false
    pure
      { g with threadsAPI := g.threadsAPI.map (retarget name newName)
               threadsInternal := g.threadsInternal.map (retarget name newName) }
  else pure g

/-! ## The write elements -/

/-- `create_buffer_write_element`.  Adding a list of ports to a text, and a reference to
the last argument of a port without any, raise an exception. -/
def createBufferWriteElement (inst : Node) (port : Port) (nextName : String) :
    Dest → Option (Graph × String)
  | .all _ => none
  | .one nextPort => do
    guard (port.pipeline = false ∨ port.argtypes ≠ [])
    let stName := nextName ++ "_buffer"
    let ele : Element :=
      { name := stName ++ "_" ++ nextPort ++ "_write"
        inports := [⟨"in", port.argtypes, false⟩], outports := []
        code := .bufferWrite port.argtypes port.pipeline nextPort
        stateParams := [(stName, "this")], outputFire := .all, clean := false }
    ele.checkPorts
    let (g, define) ← g.addElement ele
    if define then
      let g ← g.newElementInstance ele.name ele.name ["_" ++ stName]
      let newInstance ← g.instances.lookup ele.name
      pure (g.setInstance ele.name { newInstance with thread := inst.thread }, ele.name)
    else pure (g, ele.name)

/-- The first loop of `insert_buffer_write_element`, at one output port; the ports without
a buffer are not used. -/
def sortOutport (inst : Node) (needBuffer : List Port) (port : Port) : Option (List Port) :=
  match inst.output2ele.lookup port.name with
  | some (nextName, _) => do
    let next ← g.instances.lookup nextName
    return if next.thread = inst.thread then needBuffer else needBuffer ++ [port]
  | none => some needBuffer

/-- `insert_buffer_write_element`. -/
def insertBufferWriteElement (name : String) : Option Graph := do
  let inst ← g.instances.lookup name
  let needBuffer ← inst.element.outports.foldlM (g.sortOutport inst) []
  needBuffer.foldlM (fun g port => do
    let inst ← g.instances.lookup name
    let (nextName, nextPort) ← inst.output2ele.lookup port.name
    let (g, newName) ← g.createBufferWriteElement inst port nextName nextPort
    g.connect name newName (some port.name) none true) g

end Graph
end IR
end Floem
