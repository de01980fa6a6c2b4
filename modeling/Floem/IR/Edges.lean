import Floem.IR.Buffers
import Floem.IR.Wired

/-!
# Both ends of every edge

A program is built and compiled by a sequence of operations on its graph.  This file
says which of them keep the two ends of every edge in agreement.

* `Op`, `exec` — the operations, and what other passes assign in between.
* `Regular` — the condition on an operation: no edge is replaced, no deleted instance is
  still the target of one, and no edge that gets a buffer crosses two threads.
* `Sound.exec` — what one operation preserves.
* `edges_agree` — **the main theorem**, for every sequence of regular operations.
-/

namespace Floem
namespace IR

open Lib

/-! ## Operations -/

/-- An operation on the graph. -/
inductive Op
  /-- `Element(…)` and `addElement` -/
  | newElement (element : Element)
  | newState (state : StateDecl)
  | newStateInstance (state name : String) (init : Option (List String))
  | newElementInstance (element name : String) (stateArgs : List String)
  /-- The thread and the core that the user or a pass gives to an instance. -/
  | assign (name : String) (thread : Option String) (coreId : Bool)
  /-- The triggers and the roots of the threads. -/
  | triggers (api internal : List Trigger) (roots : List String)
  | connect (name1 name2 : String) (out1 in2 : Option String) (overwrite : Bool)
  | disconnect (name1 name2 out1 : String) (in2 : Option Dest)
  | deleteInstance (name : String)
  | deleteElementInstance (name : String)
  | removeUnusedElements (resource : Bool)
  | insertBufferReadElement (name : String)
  | insertBufferWriteElement (name : String)

namespace Graph

variable (g : Graph)

/-- The graph after an operation; `none` when it raises an exception. -/
def exec : Op → Option Graph
  | .newElement element => do
    element.checkPorts
    let (g, _) ← g.addElement element
    return g
  | .newState state => g.addState state
  | .newStateInstance state name init => some (g.newStateInstance state name init)
  | .newElementInstance element name stateArgs => g.newElementInstance element name stateArgs
  | .assign name thread coreId => do
    let inst ← g.instances.lookup name
    return g.setInstance name { inst with thread := thread, coreId := coreId }
  | .triggers api internal roots =>
    some { g with threadsAPI := api, threadsInternal := internal, threadsRoots := roots }
  | .connect name1 name2 out1 in2 overwrite => g.connect name1 name2 out1 in2 overwrite
  | .disconnect name1 name2 out1 in2 => g.disconnect name1 name2 out1 in2
  | .deleteInstance name => g.deleteInstance name
  | .deleteElementInstance name => g.deleteElementInstance name
  | .removeUnusedElements resource => g.removeUnusedElements resource
  | .insertBufferReadElement name => g.insertBufferReadElement name
  | .insertBufferWriteElement name => g.insertBufferWriteElement name

/-! ## The condition -/

end Graph

/-- An edge, as `output2ele` stores it. -/
structure Edge where
  source : String
  port : String
  target : String
  dest : Dest

namespace Graph

variable (g : Graph)

/-- The edges that start at an instance of the graph. -/
def edges : List Edge :=
  g.instances.entries.flatMap fun inst =>
    inst.2.output2ele.entries.map fun out => ⟨inst.1, out.1, out.2.1, out.2.2⟩

def threadOf (name : String) : Option (Option String) :=
  (g.instances.lookup name).map Node.thread

/-- The condition under which an operation keeps the ends of the edges in agreement. -/
def Regular : Op → Prop
  | .newElementInstance _ name _ => ∀ e ∈ g.edges, e.dest.ports ≠ [] →
      (e.source = name ↔ e.target = name)
  | .connect name1 _ out1 _ _ => ∀ e ∈ g.edges, e.source = name1 →
      ((g.instances.lookup name1).bind fun i1 => i1.element.outPort out1) = some e.port →
        e.dest.ports = []
  | .deleteInstance name => ∀ e ∈ g.edges, e.target = name → e.dest.ports ≠ []
  | .deleteElementInstance name => ∀ e ∈ g.edges, e.target = name → e.dest.ports ≠ []
  | .removeUnusedElements _ => ∀ e ∈ g.edges,
      (e.target ∈ g.unusedInstances → e.source ∈ g.unusedInstances) ∧
        (e.source ∈ g.unusedInstances → e.target ∈ g.unusedInstances ∨ e.dest.ports = [])
  | .insertBufferReadElement name => ∀ e ∈ g.edges, e.target = name → e.dest.ports ≠ [] →
      g.threadOf e.source = g.threadOf name
  | .insertBufferWriteElement name => ∀ e ∈ g.edges, e.source = name →
      g.threadOf e.target = g.threadOf name
  | _ => True

instance (op : Op) : Decidable (g.Regular op) := by
  cases op <;> unfold Regular <;> infer_instance

variable {g} {g' : Graph}

theorem mem_edges {u p v : String} {d : Dest} : ⟨u, p, v, d⟩ ∈ g.edges ↔
    ∃ n, g.instances.lookup u = some n ∧ n.output2ele.lookup p = some (v, d) := by
  simp only [edges, List.mem_flatMap, List.mem_map, Edge.mk.injEq]
  constructor
  · rintro ⟨⟨u, n⟩, hn, ⟨p, v, d⟩, hd, rfl, rfl, rfl, rfl⟩
    exact ⟨n, AList.mem_lookup_iff.2 hn, AList.mem_lookup_iff.2 hd⟩
  · rintro ⟨n, hn, hd⟩
    exact ⟨⟨u, n⟩, AList.mem_lookup_iff.1 hn, ⟨p, v, d⟩, AList.mem_lookup_iff.1 hd, rfl, rfl,
      rfl, rfl⟩

theorem out_of_mem_edges {e : Edge} (he : e ∈ g.edges) :
    g.wiring.out e.source e.port = some (e.target, e.dest.ports) := by
  obtain ⟨n, hn, hd⟩ := mem_edges.1 he
  rw [out_of_lookup hn, Node.out, hd]
  rfl

/-- What leads somewhere is an edge. -/
theorem exists_edge {u p v : String} {qs : List String} (h : g.wiring.out u p = some (v, qs)) :
    ∃ e ∈ g.edges, e.source = u ∧ e.port = p ∧ e.target = v ∧ e.dest.ports = qs := by
  obtain ⟨n, hn, hout⟩ := Option.bind_eq_some_iff.1 h
  obtain ⟨d, hd, rfl⟩ := Node.exists_of_out hout
  exact ⟨⟨u, p, v, d⟩, mem_edges.2 ⟨n, hn, hd⟩, rfl, rfl, rfl, rfl⟩

/-! ## One operation -/

/-- The invariant of a run. -/
structure Sound (g : Graph) : Prop where
  wired : g.wiring.Consistent
  portsOk : g.PortsOk

namespace Sound

/-- An operation that changes neither the edges nor the elements. -/
theorem congr (h : g.Sound) (hinst : g'.instances = g.instances)
    (helem : g'.elements = g.elements) : g'.Sound where
  wired := wiring_congr hinst ▸ h.wired
  portsOk :=
    { elements := fun he => h.portsOk.elements (helem ▸ he)
      nodes := fun hn => h.portsOk.nodes (hinst ▸ hn) }

theorem newElement {element : Element} (h : g.Sound) (hok : element.checkPorts = some ()) {b : Bool}
    (hadd : g.addElement element = some (g', b)) : g'.Sound := by
  unfold addElement at hadd
  split at hadd
  · split_ifs at hadd
    obtain ⟨rfl, -⟩ := Prod.mk.inj (Option.some.inj hadd)
    exact h
  · obtain ⟨rfl, -⟩ := Prod.mk.inj (Option.some.inj hadd)
    refine ⟨h.wired, fun he => ?_, h.portsOk.nodes⟩
    rw [Dict.lookup_insert] at he
    split_ifs at he
    · exact Option.some.inj he ▸ hok
    · exact h.portsOk.elements he

theorem newState {state : StateDecl} (h : g.Sound) (hadd : g.addState state = some g') :
    g'.Sound := by
  unfold addState at hadd
  split at hadd
  · split_ifs at hadd
    obtain rfl := Option.some.inj hadd
    exact h
  · obtain rfl := Option.some.inj hadd
    exact h.congr rfl rfl

/-- A new instance, under a name that no edge joins to another. -/
theorem newElementInstance {element name : String} {stateArgs : List String} (h : g.Sound)
    (hfree : ∀ e ∈ g.edges, e.dest.ports ≠ [] → (e.source = name ↔ e.target = name))
    (hnew : g.newElementInstance element name stateArgs = some g') : g'.Sound := by
  simp only [Graph.newElementInstance, Option.pure_def, Option.bind_eq_bind,
    Option.bind_eq_some_iff, Option.some.injEq] at hnew
  obtain ⟨e, he, -, -, rfl⟩ := hnew
  have hout : ∀ x r, (g.setInstance name ⟨e, stateArgs, ∅, ∅, false, none⟩).wiring.out x r =
      if x = name then none else g.wiring.out x r := fun x r => out_setInstance ..
  have hfeeds : ∀ {x r y s}, g.wiring.Feeds x r y s → (x = name ↔ y = name) := by
    rintro x r y s ⟨qs, hqs, hs⟩
    obtain ⟨edge, hedge, rfl, -, rfl, rfl⟩ := exists_edge hqs
    exact hfree edge hedge (List.ne_nil_of_mem hs)
  refine ⟨⟨fun {x r y qs} hx => ?_, fun {x r y s} hf => ?_, fun {x r y s} hf => ?_⟩,
    h.portsOk.setInstance (h.portsOk.elements he)⟩
  · rw [hout] at hx
    split_ifs at hx
    rw [has_setInstance, has_setInstance]
    exact (h.wired.out_has hx).imp Or.inr Or.inr
  · obtain ⟨qs, hqs, hs⟩ := hf
    rw [hout] at hqs
    split_ifs at hqs with hx
    rw [listed_setInstance, if_neg fun hy => hx ((hfeeds ⟨qs, hqs, hs⟩).2 hy)]
    exact h.wired.listed_one ⟨qs, hqs, hs⟩
  · rw [listed_setInstance]
    split_ifs with hy
    · rfl
    · refine h.wired.listed_zero fun hf' => hf ?_
      obtain ⟨qs, hqs, hs⟩ := hf'
      refine ⟨qs, ?_, hs⟩
      rw [hout, if_neg fun hx => hy ((hfeeds ⟨qs, hqs, hs⟩).1 hx), hqs]

theorem assign {name : String} {n : Node} (h : g.Sound) (hn : g.instances.lookup name = some n)
    (thread : Option String) (coreId : Bool) :
    (g.setInstance name { n with thread := thread, coreId := coreId }).Sound := by
  refine ⟨h.wired.congr (fun w hw => (has_setInstance ..).2 (Or.inr hw)) (fun x r => ?_)
    fun y s e => ?_, ?_⟩
  · refine out_replace hn (fun _ => ?_) x r
    rfl
  · refine listed_replace hn (fun _ _ => ?_) y s e
    rfl
  · refine h.portsOk.replace hn ?_
    rfl

theorem nodup_inPort {e : Element} (he : e.checkPorts = some ()) {in2 : Option String} {d : Dest}
    (hd : e.inPort in2 = some d) : d.ports.Nodup := by
  have hports : (e.inports.map Port.name).Nodup := by
    rw [Element.checkPorts, Option.guard_eq_some', List.map_append] at he
    exact (List.nodup_append.1 he).1
  unfold Element.inPort at hd
  split at hd
  · split_ifs at hd
    obtain rfl := Option.some.inj hd
    exact List.nodup_singleton _
  · split at hd
    · obtain rfl := Option.some.inj hd
      exact List.nodup_singleton _
    · obtain rfl := Option.some.inj hd
      exact hports

theorem connect {name1 name2 : String} {out1 in2 : Option String} {overwrite : Bool} (h : g.Sound)
    (hfree : ∀ e ∈ g.edges, e.source = name1 →
      ((g.instances.lookup name1).bind fun i1 => i1.element.outPort out1) = some e.port →
        e.dest.ports = [])
    (hconn : g.connect name1 name2 out1 in2 overwrite = some g') : g'.Sound := by
  obtain ⟨i1, i2, p, d, hi1, hi2, hp, hd, -, hlink⟩ := connect_spec hconn
  refine ⟨h.wired.link (has_of_lookup hi1) (has_of_lookup hi2) (fun y s ⟨qs, hqs, hs⟩ => ?_)
    (nodup_inPort (h.portsOk.nodes hi2) hd) (fun w => (hlink.has w).2) hlink.out hlink.listed,
    hlink.portsOk h.portsOk⟩
  obtain ⟨edge, hedge, hsource, hport, -, rfl⟩ := exists_edge hqs
  rw [hfree edge hedge hsource (by rw [hi1, hport]; exact hp)] at hs
  cases hs

theorem disconnect {name1 name2 out1 : String} {in2 : Option Dest} (h : g.Sound)
    (hdisc : g.disconnect name1 name2 out1 in2 = some g') : g'.Sound := by
  obtain ⟨q, hq, hhas, hout, hlisted, hok⟩ := disconnect_spec hdisc
  refine ⟨h.wired.unlink (fun w => (hhas w).2) hout fun y s e => ?_, hok h.portsOk⟩
  rw [hlisted]
  by_cases he : e = (name1, out1)
  · rw [if_pos he, he]
    by_cases hy : y = name2 ∧ s = q
    · rw [if_pos ⟨hy.1, hy.2, rfl⟩, hy.1, hy.2,
        h.wired.listed_one ⟨[q], hq, List.mem_singleton_self q⟩]
    · rw [h.wired.listed_zero, Nat.zero_sub]
      rintro ⟨qs, hqs, hs⟩
      obtain ⟨rfl, rfl⟩ := Prod.mk.inj (Option.some.inj (hq.symm.trans hqs))
      exact hy ⟨rfl, List.mem_singleton.1 hs⟩
  · rw [if_neg he, if_neg fun hye => he hye.2.2, Nat.sub_zero]

theorem deleteInstance {name : String} (h : g.Sound)
    (hports : ∀ e ∈ g.edges, e.target = name → e.dest.ports ≠ [])
    (hdel : g.deleteInstance name = some g') : g'.Sound := by
  obtain ⟨inst, hinst, hforgets, hpreds, houts⟩ := deleteInstance_spec hdel
  refine ⟨h.wired.remove (D := fun w => w = name) (fun w hw hne => ?_) (fun x r y rs => ?_)
    (fun y s x r hy hx => ?_) fun y s x r hyx => ?_, hforgets.portsOk (h.portsOk.eraseInstance name)⟩
  · exact (hforgets.has w).2 ((has_eraseInstance name).2 ⟨hne, hw⟩)
  · constructor
    · intro hx
      have hx' := hforgets.out_of hx
      rw [out_eraseInstance] at hx'
      split_ifs at hx' with hxn
      refine ⟨hx', hxn, ?_⟩
      -- an edge to the instance is listed there, and the first loop has removed it
      rintro rfl
      obtain ⟨e, he, rfl, rfl, htarget, rfl⟩ := exists_edge hx'
      obtain ⟨q, hq⟩ := List.exists_mem_of_ne_nil _ (hports e he htarget)
      have hone : inst.listed q (e.source, e.port) = 1 := by
        rw [← listed_of_lookup hinst]
        exact h.wired.listed_one ⟨_, hx', hq⟩
      exact hpreds q (e.source, e.port) (by rw [hone]; exact Nat.one_ne_zero) _ hx
    · rintro ⟨hx, hxn, hyn⟩
      refine hforgets.out ?_ hyn
      rw [out_eraseInstance, if_neg hxn, hx]
  · rw [hforgets.listed hx, listed_eraseInstance, if_neg hy]
  · have hle := hforgets.listed_le y s (x, r)
    rw [listed_eraseInstance] at hle
    rcases hyx with rfl | rfl
    · rw [if_pos rfl] at hle
      exact Nat.le_zero.1 hle
    · split_ifs at hle with hy
      · exact Nat.le_zero.1 hle
      -- what the instance led to is no longer listed, and the rest was not
      · by_contra hne
        obtain ⟨qs, hqs, hs⟩ := h.wired.feeds_of_listed fun h0 => hne (Nat.le_zero.1 (h0 ▸ hle))
        rw [out_of_lookup hinst] at hqs
        obtain ⟨q, rfl, hzero⟩ := houts r y qs hqs
        obtain rfl := List.mem_singleton.1 hs
        exact hne hzero

/-- Instances that are erased, where every edge from or to one of them is between two of
them or feeds no port. -/
theorem erase {D : String → Prop} [DecidablePred D] (h : g.Sound)
    (hedges : ∀ e ∈ g.edges,
      (D e.target → D e.source) ∧ (D e.source → D e.target ∨ e.dest.ports = []))
    (hhas : ∀ w, g'.wiring.has w ↔ ¬ D w ∧ g.wiring.has w)
    (hout : ∀ x r, g'.wiring.out x r = if D x then none else g.wiring.out x r)
    (hlisted : ∀ y s e, g'.wiring.listed y s e = if D y then 0 else g.wiring.listed y s e) :
    g'.wiring.Consistent := by
  refine h.wired.remove (fun w hw hD => (hhas w).2 ⟨hD, hw⟩) (fun x r y rs => ?_)
    (fun y s x r hy _ => ?_) fun y s x r hyx => ?_
  · rw [hout]
    constructor
    · intro hx
      split_ifs at hx with hDx
      obtain ⟨e, he, rfl, -, rfl, -⟩ := exists_edge hx
      exact ⟨hx, hDx, fun hDy => hDx ((hedges e he).1 hDy)⟩
    · rintro ⟨hx, hDx, -⟩
      rw [if_neg hDx, hx]
  · rw [hlisted, if_neg hy]
  · rw [hlisted]
    split_ifs with hy
    · rfl
    · refine h.wired.listed_zero fun ⟨qs, hqs, hs⟩ => ?_
      obtain ⟨e, he, rfl, -, rfl, rfl⟩ := exists_edge hqs
      rcases (hedges e he).2 (hyx.resolve_left hy) with hD | hnil
      · exact hy hD
      · rw [hnil] at hs
        cases hs

theorem deleteElementInstance {name : String} (h : g.Sound)
    (hports : ∀ e ∈ g.edges, e.target = name → e.dest.ports ≠ [])
    (hdel : g.deleteElementInstance name = some g') : g'.Sound := by
  simp only [Graph.deleteElementInstance, Option.pure_def, Option.bind_eq_bind,
    Option.bind_eq_some_iff, Option.guard_eq_some', Option.some.injEq] at hdel
  obtain ⟨inst, hinst, -, hin, -, hnone, rfl⟩ := hdel
  refine ⟨h.erase (D := fun w => w = name) (fun e he => ⟨fun htarget => ?_, fun hsource => ?_⟩)
    (fun w => has_eraseInstance name) (fun x r => out_eraseInstance name)
    fun y s e => listed_eraseInstance name, h.portsOk.eraseInstance name⟩
  · -- the instance would list the edge
    obtain ⟨q, hq⟩ := List.exists_mem_of_ne_nil _ (hports e he htarget)
    have hone := h.wired.listed_one ⟨_, out_of_mem_edges he, hq⟩
    rw [htarget, listed_of_lookup hinst] at hone
    obtain ⟨l, hl, hmem⟩ := Node.exists_of_listed (by rw [hone]; exact Nat.one_ne_zero)
    have hnil : l = [] := List.eq_nil_of_length_eq_zero (hin ⟨q, l⟩ (AList.mem_lookup_iff.1 hl))
    rw [hnil] at hmem
    cases hmem
  · obtain ⟨n, hn, hd⟩ := mem_edges.1 he
    obtain rfl := Option.some.inj (hinst.symm.trans (hsource ▸ hn))
    have hmem := AList.mem_lookup_iff.1 hd
    rw [hnone] at hmem
    cases hmem

theorem foldl_eraseInstance (names : List String) (g : Graph) :
    (∀ w, (names.foldl eraseInstance g).wiring.has w ↔ w ∉ names ∧ g.wiring.has w) ∧
      (∀ x r, (names.foldl eraseInstance g).wiring.out x r =
        if x ∈ names then none else g.wiring.out x r) ∧
      (∀ y s e, (names.foldl eraseInstance g).wiring.listed y s e =
        if y ∈ names then 0 else g.wiring.listed y s e) ∧
      (g.PortsOk → (names.foldl eraseInstance g).PortsOk) := by
  induction names generalizing g with
  | nil => simp
  | cons name names ih =>
      obtain ⟨hhas, hout, hlisted, hok⟩ := ih (g.eraseInstance name)
      refine ⟨fun w => (hhas w).trans ?_, fun x r => (hout x r).trans ?_,
        fun y s e => (hlisted y s e).trans ?_, fun h => hok (h.eraseInstance name)⟩
      · rw [has_eraseInstance, List.mem_cons, not_or]
        tauto
      · rw [out_eraseInstance]
        by_cases hx : x = name <;> by_cases hmem : x ∈ names <;> simp [hx, hmem]
      · rw [listed_eraseInstance]
        by_cases hy : y = name <;> by_cases hmem : y ∈ names <;> simp [hy, hmem]

theorem removeUnusedElements {resource : Bool} (h : g.Sound)
    (hedges : ∀ e ∈ g.edges, (e.target ∈ g.unusedInstances → e.source ∈ g.unusedInstances) ∧
      (e.source ∈ g.unusedInstances → e.target ∈ g.unusedInstances ∨ e.dest.ports = []))
    (hrem : g.removeUnusedElements resource = some g') : g'.Sound := by
  simp only [Graph.removeUnusedElements, Option.pure_def, Option.bind_eq_bind,
    Option.bind_eq_some_iff, Option.guard_eq_some', Option.some.injEq] at hrem
  obtain ⟨roots, -, -, -, rfl⟩ := hrem
  obtain ⟨hhas, hout, hlisted, hok⟩ := foldl_eraseInstance g.unusedInstances g
  have hsound : (g.unusedInstances.foldl eraseInstance g).Sound :=
    ⟨h.erase hedges hhas hout hlisted, hok h.portsOk⟩
  exact hsound.congr rfl rfl

theorem sortInport {name : String} {inst : Node} (h : g.Sound)
    (hinst : g.instances.lookup name = some inst)
    (hsame : ∀ e ∈ g.edges, e.target = name → e.dest.ports ≠ [] →
      g.threadOf e.source = g.threadOf name) {port : Port} {sorted sorted' : List Port × List Port}
    (hsort : g.sortInport inst sorted port = some sorted') : sorted'.1 = sorted.1 := by
  unfold Graph.sortInport at hsort
  split at hsort
  · rename_i l hl
    simp only [Option.bind_eq_bind, Option.bind_eq_some_iff, Option.guard_eq_some'] at hsort
    obtain ⟨insts, hinsts, _, _, thread, hthread, hsort⟩ := hsort
    cases l with
    | nil =>
        rw [List.mapM_nil] at hinsts
        obtain rfl := Option.some.inj hinsts
        cases hthread
    | cons prev l =>
        rw [List.mapM_cons] at hinsts
        simp only [Option.pure_def, Option.bind_eq_bind, Option.bind_eq_some_iff,
          Option.some.injEq] at hinsts
        obtain ⟨other, hother, _, _, rfl⟩ := hinsts
        obtain rfl : other.thread = thread := Option.some.inj hthread
        have hlisted : g.wiring.listed name port.name prev ≠ 0 := by
          rw [listed_of_lookup hinst, Node.listed_of_lookup hl, List.count_cons_self]
          exact Nat.succ_ne_zero _
        obtain ⟨qs, hqs, hq⟩ := h.wired.feeds_of_listed hlisted
        obtain ⟨e, he, hsource, -, htarget, rfl⟩ := exists_edge hqs
        have hthread := hsame e he htarget (List.ne_nil_of_mem hq)
        rw [hsource, threadOf, threadOf, hother, hinst] at hthread
        rw [if_pos (Option.some.inj hthread)] at hsort
        exact (Option.some.inj hsort) ▸ rfl
  · exact (Option.some.inj hsort) ▸ rfl

theorem insertBufferReadElement {name : String} (h : g.Sound)
    (hsame : ∀ e ∈ g.edges, e.target = name → e.dest.ports ≠ [] →
      g.threadOf e.source = g.threadOf name)
    (hins : g.insertBufferReadElement name = some g') : g'.Sound := by
  simp only [Graph.insertBufferReadElement, Option.bind_eq_bind, Option.bind_eq_some_iff] at hins
  obtain ⟨inst, hinst, ⟨needBuffer, noBuffer⟩, hsort, hins⟩ := hins
  obtain ⟨hneed, -⟩ := establish (R := fun (s t : List Port × List Port) => s.1 = t.1)
    (P := fun _ _ => True) (fun _ => rfl) (fun _ _ _ hst htu => hst.trans htu)
    (fun _ _ _ _ hstep => ⟨(h.sortInport hinst hsame hstep).symm, trivial⟩)
    (fun _ _ _ _ _ => trivial) hsort
  obtain rfl : [] = needBuffer := hneed
  obtain rfl : g = g' := Option.some.inj hins
  exact h

theorem insertBufferWriteElement {name : String} (h : g.Sound)
    (hsame : ∀ e ∈ g.edges, e.source = name → g.threadOf e.target = g.threadOf name)
    (hins : g.insertBufferWriteElement name = some g') : g'.Sound := by
  simp only [Graph.insertBufferWriteElement, Option.bind_eq_bind, Option.bind_eq_some_iff] at hins
  obtain ⟨inst, hinst, needBuffer, hsort, hins⟩ := hins
  have hstep : ∀ (s : List Port) (port : Port) (t : List Port),
      g.sortOutport inst s port = some t → s = t := fun s port t hst => by
    unfold sortOutport at hst
    split at hst
    · rename_i nextName d hd
      simp only [Option.pure_def, Option.bind_eq_bind, Option.bind_eq_some_iff,
        Option.some.injEq] at hst
      obtain ⟨next, hnext, rfl⟩ := hst
      have hthread := hsame _ (mem_edges.2 ⟨inst, hinst, hd⟩) rfl
      rw [threadOf, threadOf, hnext, hinst] at hthread
      exact (if_pos (Option.some.inj hthread)).symm
    · exact Option.some.inj hst
  obtain ⟨rfl, -⟩ := establish (R := Eq) (P := fun _ _ => True) (fun _ => rfl)
    (fun _ _ _ => Eq.trans) (fun s port _ t hst => ⟨hstep s port t hst, trivial⟩)
    (fun _ _ _ _ _ => trivial) hsort
  obtain rfl : g = g' := Option.some.inj hins
  exact h

/-- **A regular operation** keeps the ends of all edges in agreement. -/
theorem exec {op : Op} (h : g.Sound) (hop : g.Regular op) (hexec : g.exec op = some g') :
    g'.Sound := by
  cases op with
  | newElement element =>
      simp only [Graph.exec, Option.pure_def, Option.bind_eq_bind, Option.bind_eq_some_iff,
        Option.some.injEq] at hexec
      obtain ⟨_, hok, ⟨_, b⟩, hadd, rfl⟩ := hexec
      exact h.newElement hok hadd
  | newState state => exact h.newState hexec
  | newStateInstance state name init => exact Option.some.inj hexec ▸ h.congr rfl rfl
  | newElementInstance element name stateArgs => exact h.newElementInstance hop hexec
  | assign name thread coreId =>
      simp only [Graph.exec, Option.pure_def, Option.bind_eq_bind, Option.bind_eq_some_iff,
        Option.some.injEq] at hexec
      obtain ⟨n, hn, rfl⟩ := hexec
      exact h.assign hn thread coreId
  | triggers api internal roots => exact Option.some.inj hexec ▸ h.congr rfl rfl
  | connect name1 name2 out1 in2 overwrite => exact h.connect hop hexec
  | disconnect name1 name2 out1 in2 => exact h.disconnect hexec
  | deleteInstance name => exact h.deleteInstance hop hexec
  | deleteElementInstance name => exact h.deleteElementInstance hop hexec
  | removeUnusedElements resource => exact h.removeUnusedElements hop hexec
  | insertBufferReadElement name => exact h.insertBufferReadElement hop hexec
  | insertBufferWriteElement name => exact h.insertBufferWriteElement hop hexec

theorem empty : Graph.empty.Sound where
  wired :=
    { out_has := fun h => by cases h
      listed_one := fun ⟨_, h, _⟩ => by cases h
      listed_zero := fun _ => rfl }
  portsOk :=
    { elements := fun h => by cases h
      nodes := fun h => by cases h }

end Sound

/-! ## Every run -/

/-- **Both ends of every edge agree** after every sequence of regular operations: an input
port lists an output port once if that leads to it and not at all otherwise, and no edge
mentions an instance that is not there. -/
theorem edges_agree {ops : List Op} (hregular : Meets Graph.exec Graph.Regular empty ops)
    (hrun : run Graph.exec empty ops = some g) : g.wiring.Consistent :=
  (run_invariant_of_meets (P := Sound) (fun _ _ _ => Sound.exec) Sound.empty hregular hrun).wired

/-- A source with one output port, and a sink with one input port. -/
def source : Element :=
  ⟨"Source", [], [⟨"out", ["int"], false⟩], .text "output \x7b out(1); \x7d", [], .all, false⟩

def sink : Element := ⟨"Sink", [⟨"in", ["int"], false⟩], [], .text "int x = in();", [], .all, false⟩

/-- An edge on one thread is made, ended and made again, and then one of its ends is
deleted and the other removed. -/
def oneThread : List Op :=
  [.newElement source, .newElement sink, .newElementInstance "Source" "a" [],
    .newElementInstance "Sink" "b" [], .assign "a" (some "t") false, .assign "b" (some "t") false,
    .connect "a" "b" none none false, .insertBufferReadElement "b", .insertBufferWriteElement "a",
    .disconnect "a" "b" "out" none, .connect "a" "b" (some "out") (some "in") true,
    .newElementInstance "Sink" "c" [], .deleteInstance "a", .removeUnusedElements true]

theorem edges_agree_one_thread :
    ∃ g, run Graph.exec empty oneThread = some g ∧ g.wiring.Consistent := by
  obtain ⟨g, hg⟩ := Option.isSome_iff_exists.1
    (show (run Graph.exec empty oneThread).isSome by decide +kernel)
  exact ⟨g, hg, edges_agree (.of_meets (c := fun g op => decide (g.Regular op))
    (fun _ _ => of_decide_eq_true) (by decide +kernel)) hg⟩

/-- The edge from `a` to `b` is replaced by one to `c`. -/
def replacing : List Op :=
  [.newElement source, .newElement sink, .newElementInstance "Source" "a" [],
    .newElementInstance "Sink" "b" [], .newElementInstance "Sink" "c" [],
    .connect "a" "b" none none false, .connect "a" "c" none none true]

/-- An edge that is replaced stays in the list of the port it led to. -/
theorem replaced_edge_stays :
    ∃ g, run Graph.exec empty replacing = some g ∧ ¬ g.wiring.Consistent := by
  obtain ⟨g, hg, h⟩ := Option.map_eq_some_iff.1 (show (run Graph.exec empty replacing).map (fun g =>
      (g.wiring.out "a" "out", g.wiring.listed "b" "in" ("a", "out"))) =
    some (some ("c", ["in"]), 1) by decide +kernel)
  refine ⟨g, hg, fun hwired => ?_⟩
  obtain ⟨hout, hlisted⟩ := Prod.mk.inj h
  obtain ⟨qs, hqs, -⟩ := hwired.feeds_of_listed (hlisted ▸ Nat.one_ne_zero)
  rw [hout] at hqs
  simp at hqs

end Graph
end IR
end Floem
