import Mathlib
import Floem.Enqueue.Reach
import Floem.Lib.Memo

/-!
# The region of a cache

Between the start and the end of a cache the compiler follows the paths through smart queues
(`floem/cache_smart_compile.py`): one search checks that all of them get to the end, another
one collects the last queues on them.

* `channelLoop`, `channelOf`, `onward` — the channel of a queue that an instance is in front of,
  and what is behind the channel.
* `dfsSameThread`, `findLastQueue` — the two searches.  Their results are noted at the
  instances.
* `Region` — the graph between a start and an end.
* `Region.Goes` — the paths, which leave a queue by the channel they entered it by.
* `Region.Correct` — what the searches are for.
-/

namespace Floem
open Lib Relation
open IR (Dict)
open Enqueue (Queue Instance Graph)

namespace Region

/-! ## Channels -/

/-- An instance as it is entered: the name of the instance that is passed on as `prev`, and the
edge that leads here, from a port of an instance to a port. -/
structure Entry where
  node : String
  prev : Option String
  edge : Option (String × String × String)
  deriving DecidableEq, Repr

/-- `int` of what is written in decimal digits. -/
def intOf (l : List Char) : Option ℕ :=
  if l ≠ [] ∧ l.all Char.isDigit then
    some (l.foldl (fun n c => 10 * n + (c.toNat - '0'.toNat)) 0)
  else none

/-- `int(port_name[3:])`; `none` when an exception is raised. -/
def portId (port : String) : Option ℕ := intOf (port.toList.drop 3)

/-- `if id`. -/
def truthy : Option ℕ → Bool
  | some (_ + 1) => true
  | _ => false

/-- The loop over what is in front of an input port. -/
def portLoop (prev : Option String) (id : Option ℕ) (port : String) (l : List (String × String)) :
    Option (Option ℕ) :=
  if prev ∈ l.map (fun x => some x.1) then (portId port).map some else some id

/-- The loops over the input ports of the enqueue instances; the breaks leave all of them. -/
def channelLoop (prev : Option String) :
    Option ℕ → List (String × List (String × String)) → Option (Option ℕ)
  | id, [] => some id
  | id, (port, l) :: ports => do
    let id ← portLoop prev id port l
    if truthy id then return id else channelLoop prev id ports

/-- The input ports of the enqueue instances, in their order. -/
def enqPorts (g : Graph) (q : Queue) : List (String × List (String × String)) :=
  q.enq.flatMap fun e =>
    ((g.instances.lookup e).map fun inst => inst.input2ele.entries.map fun x => (x.1, x.2)).getD []

/-- The channel that is found; no port is called `outNone`, and so an exception is raised when
there is none. -/
def channelOf (g : Graph) (q : Queue) (prev : Option String) : Option ℕ :=
  (channelLoop prev none (enqPorts g q)).bind id

/-- The instance behind a channel of the queue, entered from the instance `name`. -/
def onward (g : Graph) (q : Queue) (name : String) (channel : ℕ) : Option Entry := do
  let deq ← g.instances.lookup q.deq
  let out := "out" ++ toString channel
  let (next, port) ← deq.output2ele.lookup out
  return ⟨next, some name, some (q.deq, out, port)⟩

/-- The instances behind the output ports. -/
def Entry.outputs (a : Entry) (inst : Instance) : List Entry :=
  inst.output2ele.map fun (out, next, port) => ⟨next, some a.node, some (a.node, out, port)⟩

/-! ## The searches -/

/-- What both searches visit next. -/
def children (g : Graph) (a : Entry) : Option (List Entry) := do
  let inst ← g.instances.lookup a.node
  match inst.special with
  | none => return a.outputs inst
  | some q => do
    let channel ← channelOf g q a.prev
    let next ← onward g q a.node channel
    return [next]

/-- `element.special`, where it is a queue. -/
def special (g : Graph) (name : String) : Option Queue :=
  (g.instances.lookup name).bind Instance.special

/-- The body of `dfs_same_thread`.  The result is `False` or the list `queues`. -/
def reachRules (g : Graph) (stop : String) : Rules Entry String Bool where
  key := Entry.node
  stop name := if name = stop then some true else none
  children := children g
  pending := false
  init := false
  add ans ret := if ans = false then some ret else if ret = ans then some ans else none
  finish _ ans := if ans then some ans else none

/-- `dfs_same_thread` from the start: the list `queues` at the end. -/
def dfsSameThread (g : Graph) (start stop : String) : Except Halt (List Queue) :=
  match (reachRules g stop).visit (g.instances.keys.length + 1) ⟨start, none, none⟩
    ⟨fun _ => none, []⟩ with
  | .error e => .error e
  | .ok (_, s) => .ok (s.log.filterMap fun a => special g a.node)

/-- A queue, a channel, and the instance in front. -/
abbrev Triple := Queue × ℕ × Option String

/-- The body of `find_last_queue`.  The result is a list, or `False`, which no list can be
extended by; a list is not a member of a list of triples. -/
def lastRules (g : Graph) (stop : String) : Rules Entry String (Option (List Triple)) where
  key := Entry.node
  stop name := if name = stop then some (some []) else none
  children := children g
  pending := none
  init := some []
  add ans ret := do return some ((← ans) ++ (← ret))
  finish a ans := ans.bind fun ans =>
    match special g a.node with
    | none => some (some ans)
    | some q =>
      if ans.length = 0 then
        (channelOf g q a.prev).map fun channel => some [(q, channel, a.prev)]
      else some (some ans)

/-- `find_last_queue` from the start. -/
def findLastQueue (g : Graph) (start stop : String) : Except Halt (Option (List Triple)) :=
  match (lastRules g stop).visit (g.instances.keys.length + 1) ⟨start, none, none⟩
    ⟨fun _ => none, []⟩ with
  | .error e => .error e
  | .ok (r, _) => .ok r

/-! ## Regions -/

/-- There is a way from one instance to the next, before the end and through any channel. -/
def Hop (g : Graph) (stop x y : String) : Prop :=
  x ≠ stop ∧ ∃ inst, g.instances.lookup x = some inst ∧
    match inst.special with
    | none => y ∈ inst.nexts
    | some q => ∃ deq, g.instances.lookup q.deq = some deq ∧ y ∈ deq.nexts

end Region

/-- A graph with the start and the end of a cache.  The links of the graph are mirrored, and
there is no cycle between the start and the end. -/
structure Region where
  graph : Enqueue.Graph
  start : String
  stop : String
  known : start ∈ graph.instances
  plain : Region.special graph stop = none
  ports : ∀ u inst, graph.instances.lookup u = some inst → (inst.output2ele.map Prod.fst).Nodup
  wired : ∀ u inst, graph.instances.lookup u = some inst → ∀ out v port,
    (out, v, port) ∈ inst.output2ele ↔ ∃ inst', graph.instances.lookup v = some inst' ∧
      ∃ l, inst'.input2ele.lookup port = some l ∧ (u, out) ∈ l
  enqs : ∀ q u, Region.special graph u = some q → ∀ e ∈ q.enq, Region.special graph e = some q
  acyclic : ∀ x, Relation.ReflTransGen (Region.Hop graph stop) start x →
    ¬ Relation.TransGen (Region.Hop graph stop) x x

namespace Region

variable (R : Region)

/-- The start. -/
def first : Entry := ⟨R.start, none, none⟩

/-- The queue of an instance before the end. -/
def queue (a : Entry) : Option Queue := if a.node = R.stop then none else special R.graph a.node

/-- The channel by which a queue is entered.  Only the enqueue instances have ports for
channels; an edge into the dequeue instance enters the queue by none. -/
def channel (a : Entry) : Option ℕ := do
  let q ← special R.graph a.node
  let edge ← a.edge
  if a.node ∈ q.enq then portId edge.2.2 else none

/-- The instances behind an entry: behind a queue, the one of the channel it is entered by. -/
def exits (a : Entry) : List Entry :=
  match R.graph.instances.lookup a.node with
  | none => []
  | some inst =>
    match inst.special with
    | none => a.outputs inst
    | some q => ((R.channel a).bind (onward R.graph q a.node)).toList

/-- A path goes on from an entry to the next. -/
def Goes (a b : Entry) : Prop := a.node ≠ R.stop ∧ b ∈ R.exits a

/-- On a path from the start. -/
def On (a : Entry) : Prop := ReflTransGen R.Goes R.first a

/-- Every path from the start gets to the end. -/
def AllReach : Prop := ∀ a, R.On a → a.node ≠ R.stop → ∃ b, R.Goes a b

/-- A path comes to where it ends without a queue. -/
def Quiet (a : Entry) : Prop :=
  ∃ b, ReflTransGen (fun x y => R.queue x = none ∧ R.Goes x y) a b ∧ R.queue b = none ∧
    ∀ c, ¬ R.Goes b c

/-- The queue that is entered is the last one of a path, with its channel and the instance the
path comes from. -/
def IsLast (a : Entry) (t : Triple) : Prop :=
  R.queue a = some t.1 ∧ R.channel a = some t.2.1 ∧ a.edge.map Prod.fst = t.2.2 ∧
    ∀ b, R.Goes a b → R.Quiet b

/-- **The searches follow the channels**: the first one succeeds exactly if every path gets to
the end, and the second one returns the last queues of the paths, each once. -/
structure Correct : Prop where
  reach : R.AllReach → ∃ queues, dfsSameThread R.graph R.start R.stop = .ok queues
  fail : ¬ R.AllReach → dfsSameThread R.graph R.start R.stop = .error .raised
  last : ∃ l, findLastQueue R.graph R.start R.stop = .ok (some l) ∧ l.Nodup ∧
    ∀ t, t ∈ l ↔ ∃ a, R.On a ∧ R.IsLast a t

/-! ## When it is so -/

/-- No queue is directly behind another one; an instance leads to one channel of a queue, and an
enqueue instance is entered by one channel. -/
structure OneChannel : Prop where
  apart : ∀ a b, R.On a → R.Goes a b → R.queue b ≠ none → R.queue a = none
  front : ∀ a b q, R.On a → R.On b → R.queue a = some q → R.queue b = some q →
    a.prev = b.prev → R.channel a = R.channel b
  enq : ∀ a b, R.On a → R.On b → R.queue a ≠ none → a.node = b.node → R.channel a = R.channel b

/-- **The searches are not led astray**: no queue is directly behind another one, and each goes
on behind the channel it is entered by; an instance leads to a queue by one port; no two ports of
an instance lead to the same enqueue instance; and behind a queue either all paths or none enter
another one. -/
structure Straight : Prop where
  apart : ∀ a b, R.On a → R.Goes a b → R.queue b ≠ none → R.queue a = none
  goesOn : ∀ a, R.On a → R.queue a ≠ none → ∃ b, R.Goes a b
  port : ∀ a b q, R.On a → R.On b → R.queue a = some q → R.queue b = some q →
    a.prev = b.prev → a = b
  split : ∀ a b c x y, R.On a → R.queue a = none → R.Goes a b → R.Goes a c → b ≠ c →
    ReflTransGen R.Goes b x → ReflTransGen R.Goes c y → R.queue x ≠ none → x.node ≠ y.node
  behind : ∀ a b x, R.On a → R.queue a ≠ none → R.Goes a b → R.Quiet b →
    ReflTransGen R.Goes b x → R.queue x = none

/-- Where a queue is directly behind another one, the enqueue instance in front does not lead to
it by a port of its own. -/
def Detached : Prop :=
  ∀ a b q, R.On a → R.Goes a b → R.queue a ≠ none → R.queue b = some q →
    ∀ inst, R.graph.instances.lookup a.node = some inst → ∀ v ∈ inst.nexts, v ∉ q.enq

end Region
end Floem
