import Mathlib
import Floem.IR.Basic

/-!
# Flows are merged

The flows of a program are compiled one by one, each into a graph of its own, and merged
into the graph of the common program (`compiler.py`, and `Graph.merge` of `graph.py`).
Where two graphs define a name, the first definition wins.

* `compressStates` — the names and the contents of the per-packet structs, with a counter
  that starts again for each flow (the end of `compile_smart_queues`).
* `mergeDict`, `merge`, `mergeAll` — the merge.
* `Unchanged` — what the elements of a flow refer to is what it was in the flow.
* `unchanged_iff_first` — **the main theorem**: where the merge raises nothing, exactly if
  the first graph that defines such a name defines it as the flow does.

The graphs of the flows are arbitrary here; `mentions` is which structs the code of an
element names.
-/

namespace Floem
namespace IR

/-! ## Compressed states -/

/-- `re.match(field, use)`, where a field is a plain name. -/
def fieldMatches (field use : String) : Bool := field.toList.isPrefixOf use.toList

namespace StateDecl

/-- The per-packet struct with the fields in use. -/
def compress (state : StateDecl) (mapping : List (String × String)) (uses : List String)
    (newState : String) : Option StateDecl := do
  guard (uses.all fun var => mapping.any fun field => fieldMatches field.1 var)
  let used := fun var => uses.any fun use => fieldMatches var use
  let content ← (state.fields.filter used).mapM fun var =>
    (mapping.lookup var).map fun type => (type, var)
  let init := (state.init.filter fun inits => inits ≠ []).map fun inits =>
    ((state.fields.zip inits).filter fun field => used field.1).map Prod.snd
  return ⟨newState, content, content.map Prod.snd, init, none⟩

end StateDecl

namespace Graph

variable (g : Graph)

/-- One round of the loop over the per-packet states: the graph, the states and the
counter. -/
def compressStep (uses : Dict (List String)) (s : Graph × Dict String × ℕ) (instName : String) :
    Option (Graph × Dict String × ℕ) := do
  let (g, pipelineStates, compressId) := s
  let state ← pipelineStates.lookup instName
  let stateObj ← g.states.lookup state
  match stateObj.mapping with
  | none => some s
  | some mapping =>
    let instUses ← uses.lookup instName
    let newState := state ++ "_compressed" ++ toString compressId
    let statePipeline ← stateObj.compress mapping instUses newState
    let g ← g.addState statePipeline
    some (g, pipelineStates.insert instName newState, compressId + 1)

/-- The last loop of `compile_smart_queues`, over the per-packet states as they were before
the queues were compiled. -/
def compressStates (original pipelineStates : Dict String) (uses : Dict (List String)) :
    Option (Graph × Dict String × ℕ) :=
  original.keys.foldlM (compressStep uses) (g, pipelineStates, 0)

/-! ## Merging -/

/-- `merge_dict`. -/
def mergeDict {α : Type} (this other : Dict α) : Dict α :=
  other.entries.foldl
    (fun this entry => if entry.1 ∈ this then this else this.insert entry.1 entry.2) this

/-- `merge`.  Triggers of different graphs are different objects. -/
def merge (g other : Graph) : Option Graph := do
  guard (other.defaultProcess = "tmp" ∨ g.defaultProcess = other.defaultProcess)
  guard (other.masterProcess = none ∨ g.masterProcess = none ∨
    g.masterProcess = other.masterProcess)
  return {
    elements := mergeDict g.elements other.elements
    instances := mergeDict g.instances other.instances
    states := mergeDict g.states other.states
    stateInstances := mergeDict g.stateInstances other.stateInstances
    threadsAPI := g.threadsAPI ++ other.threadsAPI
    threadsInternal := g.threadsInternal ++ other.threadsInternal
    threadsRoots := g.threadsRoots ∪ other.threadsRoots
    defaultProcess := g.defaultProcess
    masterProcess := (g.masterProcess.filter (· ≠ "")).or other.masterProcess }

/-- `for g in all: original.merge(g)` in `generate_graph`. -/
def mergeAll (original : Graph) (flows : List Graph) : Option Graph := flows.foldlM merge original

theorem lookup_mergeDict {α : Type} (this other : Dict α) (k : String) :
    (mergeDict this other).lookup k = (this.lookup k).or (other.lookup k) := by
  have hloop : ∀ (l : List (Σ _ : String, α)) (this : Dict α), AList.lookup k (l.foldl
      (fun this entry => if entry.1 ∈ this then this else this.insert entry.1 entry.2) this) =
      (this.lookup k).or (l.dlookup k) := fun l => by
    induction l with
    | nil => intro this; simp
    | cons entry l ih =>
        intro this
        rw [List.foldl_cons, ih]
        by_cases hk : k = entry.1
        · rw [hk, List.dlookup_cons_eq]
          split_ifs with hmem
          · obtain ⟨x, hx⟩ := (Dict.mem_iff ..).1 hmem
            rw [hx, Option.some_or, Option.some_or]
          · rw [AList.lookup_insert, AList.lookup_eq_none.2 hmem, Option.some_or, Option.none_or]
        · rw [List.dlookup_cons_ne _ _ hk]
          split_ifs
          · rfl
          · rw [AList.lookup_insert_ne hk]
  exact hloop other.entries this

/-- A dictionary of graphs that `merge` merges. -/
def MergedBy {α : Type} (field : Graph → Dict α) : Prop :=
  ∀ {g h m : Graph}, merge g h = some m → field m = mergeDict (field g) (field h)

/-- The dictionaries are merged. -/
theorem merge_eq_some {g h m : Graph} (hm : merge g h = some m) :
    m.instances = mergeDict g.instances h.instances ∧ m.states = mergeDict g.states h.states ∧
      m.stateInstances = mergeDict g.stateInstances h.stateInstances := by
  simp only [merge, Option.bind_eq_bind, Option.bind_eq_some_iff, Option.guard_eq_some'] at hm
  obtain ⟨-, -, -, -, hm⟩ := hm
  rw [← Option.some.inj hm]
  exact ⟨rfl, rfl, rfl⟩

/-- The first graph that defines the name. -/
theorem lookup_mergeAll {α : Type} {field : Graph → Dict α} (hfield : MergedBy field)
    {original merged : Graph} {flows : List Graph} (h : mergeAll original flows = some merged)
    (k : String) : (field merged).lookup k =
      (original :: flows).findSome? fun g => (field g).lookup k := by
  induction flows generalizing original with
  | nil =>
      obtain rfl := Option.some.inj h
      simp
  | cons flow flows ih =>
      rw [mergeAll, List.foldlM_cons, Option.bind_eq_bind, Option.bind_eq_some_iff] at h
      obtain ⟨m, hm, h⟩ := h
      rw [ih h]
      simp only [List.findSome?_cons, hfield hm, lookup_mergeDict]
      cases (field original).lookup k <;> rfl

/-! ## What the flows refer to -/

/-- The first of the graphs that defines the name defines it as `a`. -/
def FirstIs {α : Type} (field : Graph → Dict α) (graphs : List Graph) (k : String) (a : α) : Prop :=
  ∀ before g after, graphs = before ++ g :: after → (∀ h ∈ before, k ∉ field h) → k ∈ field g →
    (field g).lookup k = some a

theorem findSome_eq_iff_firstIs {α : Type} {field : Graph → Dict α} {graphs : List Graph}
    {k : String} {a : α} (hdef : ∃ g ∈ graphs, k ∈ field g) :
    graphs.findSome? (fun g => (field g).lookup k) = some a ↔ FirstIs field graphs k a := by
  constructor
  · intro h before g after hsplit hbefore hg
    have hnone : before.findSome? (fun g => (field g).lookup k) = none :=
      List.findSome?_eq_none_iff.2 fun h hh => AList.lookup_eq_none.2 (hbefore h hh)
    obtain ⟨a', ha'⟩ := (Dict.mem_iff ..).1 hg
    rw [hsplit, List.findSome?_append, hnone, Option.none_or, List.findSome?_cons, ha'] at h
    rw [ha']
    exact h
  · intro h
    cases hfind : graphs.findSome? fun g => (field g).lookup k with
    | none =>
        obtain ⟨g, hg, hk⟩ := hdef
        exact absurd hk (AList.lookup_eq_none.1 (List.findSome?_eq_none_iff.1 hfind g hg))
    | some a' =>
        obtain ⟨before, g, after, hsplit, hg, hbefore⟩ := List.findSome?_eq_some_iff.1 hfind
        rw [← hg]
        exact h before g after hsplit (fun h hh => AList.lookup_eq_none.1 (hbefore h hh))
          ((Dict.mem_iff ..).2 ⟨a', hg⟩)

section

variable (mentions : Element → List String)

/-- The names that the elements of the flow refer to hold in the merged graph what they
hold in the flow. -/
structure Unchanged (flow merged : Graph) : Prop where
  instances : ∀ {x n}, flow.instances.lookup x = some n → merged.instances.lookup x = some n
  stateInstances : ∀ {x n arg st}, flow.instances.lookup x = some n → arg ∈ n.stateArgs →
    flow.stateInstances.lookup arg = some st → merged.stateInstances.lookup arg = some st
  states : ∀ {x n name st}, flow.instances.lookup x = some n → name ∈ mentions n.element →
    flow.states.lookup name = some st → merged.states.lookup name = some st

/-- The first of the graphs to define a name that an element of the flow refers to defines
it as the flow does. -/
structure FirstAgrees (graphs : List Graph) (flow : Graph) : Prop where
  instances : ∀ {x n}, flow.instances.lookup x = some n → FirstIs instances graphs x n
  stateInstances : ∀ {x n arg st}, flow.instances.lookup x = some n → arg ∈ n.stateArgs →
    flow.stateInstances.lookup arg = some st → FirstIs Graph.stateInstances graphs arg st
  states : ∀ {x n name st}, flow.instances.lookup x = some n → name ∈ mentions n.element →
    flow.states.lookup name = some st → FirstIs Graph.states graphs name st

/-- **What a flow refers to is unchanged by the merge**, where it raises nothing, exactly if
the first graph that defines it defines it as the flow does. -/
theorem unchanged_iff_first {original merged : Graph} {flows : List Graph}
    (h : mergeAll original flows = some merged) :
    (∀ flow ∈ flows, Unchanged mentions flow merged) ↔
      ∀ flow ∈ flows, FirstAgrees mentions (original :: flows) flow := by
  refine forall₂_congr fun flow hflow => ?_
  have hiff : ∀ {α : Type} {field : Graph → Dict α}, MergedBy field → ∀ {k a},
      (field flow).lookup k = some a →
      ((field merged).lookup k = some a ↔ FirstIs field (original :: flows) k a) :=
    fun {α field} hfield {k a} hk => by
      rw [lookup_mergeAll hfield h]
      exact findSome_eq_iff_firstIs
        ⟨flow, List.mem_cons_of_mem original hflow, (Dict.mem_iff ..).2 ⟨a, hk⟩⟩
  have hinst : MergedBy instances := fun hm => (merge_eq_some hm).1
  have hstate : MergedBy states := fun hm => (merge_eq_some hm).2.1
  have hsinst : MergedBy stateInstances := fun hm => (merge_eq_some hm).2.2
  constructor
  · intro h
    exact ⟨fun hx => (hiff hinst hx).1 (h.instances hx),
      fun hx harg hst => (hiff hsinst hst).1 (h.stateInstances hx harg hst),
      fun hx hname hst => (hiff hstate hst).1 (h.states hx hname hst)⟩
  · intro h
    exact ⟨fun hx => (hiff hinst hx).2 (h.instances hx),
      fun hx harg hst => (hiff hsinst hst).2 (h.stateInstances hx harg hst),
      fun hx hname hst => (hiff hstate hst).2 (h.states hx hname hst)⟩

end

/-! Two flows with packets of one type, of which each uses one field. -/

/-- `class Pkt: a = Field(Int); b = Field(Int)` -/
def packet : StateDecl :=
  ⟨"Pkt", [("int", "a"), ("int", "b")], ["a", "b"], none, some [("a", "int"), ("b", "int")]⟩

def common : Graph := { empty with states := (∅ : Dict StateDecl).insert "Pkt" packet }

/-- The start of a flow; its code allocates the struct it is compiled for. -/
def start (name : String) : Node :=
  ⟨⟨name, [], [], .text "Pkt_compressed0", [], .all, false⟩, [], ∅, ∅, false, none⟩

/-- A flow that starts at `name` and uses the field `use`. -/
def flow (name use : String) : Option Graph :=
  ((common.setInstance name (start name)).compressStates ((∅ : Dict String).insert name "Pkt")
    ((∅ : Dict String).insert name "Pkt") ((∅ : Dict (List String)).insert name [use])).map Prod.fst

/-- The struct names in the code of the two starts. -/
def codeNames (e : Element) : List String :=
  match e.code with
  | .text s => [s]
  | _ => []

/-- The struct of the second flow gets the field of the first. -/
theorem first_struct_wins : ∃ g h merged, flow "s" "a" = some g ∧ flow "t" "b" = some h ∧
    mergeAll common [g, h] = some merged ∧
    ¬ ∀ flow ∈ [g, h], Unchanged codeNames flow merged := by
  have hrun : ((flow "s" "a").bind fun g => (flow "t" "b").bind fun h =>
      (mergeAll common [g, h]).map fun merged =>
        ((h.instances.lookup "t").map fun n => codeNames n.element,
          (h.states.lookup "Pkt_compressed0").map StateDecl.fields,
          (merged.states.lookup "Pkt_compressed0").map StateDecl.fields)) =
      some (some ["Pkt_compressed0"], some ["b"], some ["a"]) := by decide +kernel
  obtain ⟨g, hg, hrun⟩ := Option.bind_eq_some_iff.1 hrun
  obtain ⟨h, hh, hrun⟩ := Option.bind_eq_some_iff.1 hrun
  obtain ⟨merged, hm, hrun⟩ := Option.map_eq_some_iff.1 hrun
  simp only [Prod.mk.injEq] at hrun
  obtain ⟨hcode, hown, hmerged⟩ := hrun
  obtain ⟨n, hn, hcode⟩ := Option.map_eq_some_iff.1 hcode
  obtain ⟨st, hst, hfields⟩ := Option.map_eq_some_iff.1 hown
  refine ⟨g, h, merged, hg, hh, hm, fun hall => ?_⟩
  have hmention : "Pkt_compressed0" ∈ codeNames n.element := by rw [hcode]; simp
  have hsame := (hall h (by simp)).states hn hmention hst
  rw [hsame, Option.map_some, hfields] at hmerged
  simp at hmerged

end Graph
end IR
end Floem
