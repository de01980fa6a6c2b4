import Mathlib
import Floem.IR.Basic
import Floem.Lib.Run
import Floem.Lib.Wiring

/-!
# The edges of an element graph

What each operation does to the edges, said once for each: which output ports lead
where, and what the input ports list.

* `Graph.wiring` — the edges of a graph, at both ends.
* `wiring_setInstance` — what the change of one instance can do.
* `connect_spec`, `disconnect_spec`, `deleteInstance_spec` — the operations.
-/

namespace Floem
namespace IR

open Lib

/-! ## One instance -/

namespace Node

variable (n : Node)

/-- Where output port `p` leads. -/
def out (p : String) : Option (String × List String) :=
  (n.output2ele.lookup p).map fun next => (next.1, next.2.ports)

/-- How often input port `q` lists `e`. -/
def listed (q : String) (e : String × String) : ℕ :=
  ((n.input2ele.lookup q).getD []).count e

theorem exists_of_out {n : Node} {p v : String} {qs : List String} (h : n.out p = some (v, qs)) :
    ∃ d, n.output2ele.lookup p = some (v, d) ∧ d.ports = qs := by
  obtain ⟨⟨w, d⟩, hd, heq⟩ := Option.map_eq_some_iff.1 h
  obtain ⟨rfl, rfl⟩ := Prod.mk.inj heq
  exact ⟨d, hd, rfl⟩

theorem exists_of_listed {n : Node} {q : String} {e : String × String} (h : n.listed q e ≠ 0) :
    ∃ l, n.input2ele.lookup q = some l ∧ e ∈ l := by
  rw [listed] at h
  cases hl : n.input2ele.lookup q with
  | none =>
      rw [hl] at h
      exact absurd List.count_nil h
  | some l =>
      rw [hl] at h
      exact ⟨l, rfl, List.one_le_count_iff.1 (Nat.one_le_iff_ne_zero.2 h)⟩

theorem connectOutputPort_spec {n n' : Node} {port f : String} {fport : Dest} {overwrite : Bool}
    (h : n.connectOutputPort port f fport overwrite = some n') :
    (overwrite ∨ n.output2ele.lookup port = none) ∧
      n' = { n with output2ele := n.output2ele.insert port (f, fport) } := by
  simp only [connectOutputPort, Option.pure_def, Option.bind_eq_bind,
    Option.bind_eq_some_iff, Option.guard_eq_some', Option.some.injEq] at h
  obtain ⟨_, hfree, rfl⟩ := h
  exact ⟨hfree.imp_right AList.lookup_eq_none.2, rfl⟩

theorem out_insert (p f r : String) (d : Dest) :
    ({ n with output2ele := n.output2ele.insert p (f, d) } : Node).out r =
      if r = p then some (f, d.ports) else n.out r := by
  simp only [out, Dict.lookup_insert]
  split_ifs <;> rfl

theorem out_erase (p r : String) : ({ n with output2ele := n.output2ele.erase p } : Node).out r =
    if r = p then none else n.out r := by
  simp only [out, Dict.lookup_erase]
  split_ifs <;> rfl

theorem connectInputPort_eq (port f fport : String) : n.connectInputPort port f fport =
    { n with input2ele :=
        n.input2ele.insert port ((n.input2ele.lookup port).getD [] ++ [(f, fport)]) } := by
  unfold connectInputPort
  cases n.input2ele.lookup port <;> rfl

theorem listed_connectInputPort (port f fport q : String) (e : String × String) :
    (n.connectInputPort port f fport).listed q e =
      n.listed q e + if e = (f, fport) then [port].count q else 0 := by
  simp only [connectInputPort_eq, listed, Dict.lookup_insert]
  by_cases hq : q = port
  · rw [if_pos hq, ← hq, Option.getD_some, List.count_append, List.count_singleton_self,
      List.count_singleton]
    simp only [beq_iff_eq, eq_comm (a := e)]
  · rw [if_neg hq, List.count_eq_zero_of_not_mem fun hm => hq (List.mem_singleton.1 hm), ite_self,
      Nat.add_zero]

theorem out_connectInputPort (port f fport p : String) :
    (n.connectInputPort port f fport).out p = n.out p := by
  rw [connectInputPort_eq]
  rfl

theorem element_connectInputPort (port f fport : String) :
    (n.connectInputPort port f fport).element = n.element := by
  rw [connectInputPort_eq]

/-- The last loop of `connect`. -/
theorem foldl_connectInputPort (f fport : String) (ports : List String) :
    let n' := ports.foldl (fun n port => n.connectInputPort port f fport) n
    n'.element = n.element ∧ (∀ p, n'.out p = n.out p) ∧ ∀ q e, n'.listed q e =
      n.listed q e + if e = (f, fport) then ports.count q else 0 := by
  induction ports generalizing n with
  | nil => simp
  | cons port ports ih =>
      obtain ⟨helement, hout, hlisted⟩ := ih (n.connectInputPort port f fport)
      refine ⟨helement.trans (n.element_connectInputPort ..), fun p => ?_, fun q e => ?_⟩
      · exact (hout p).trans (n.out_connectInputPort ..)
      · refine (hlisted q e).trans ?_
        rw [listed_connectInputPort, List.count_singleton, List.count_cons]
        split_ifs <;> omega

theorem listed_storeInput (port q : String) (l : List (String × String)) (e : String × String) :
    (n.storeInput port l).listed q e = if q = port then l.count e else n.listed q e := by
  unfold storeInput
  split_ifs with hl hq hq
  · rw [listed, Dict.lookup_erase, if_pos hq, List.eq_nil_of_length_eq_zero hl]
    rfl
  · rw [listed, Dict.lookup_erase, if_neg hq, listed]
  · rw [listed, Dict.lookup_insert, if_pos hq]
    rfl
  · rw [listed, Dict.lookup_insert, if_neg hq, listed]

theorem out_storeInput (port p : String) (l : List (String × String)) :
    (n.storeInput port l).out p = n.out p := by
  unfold storeInput
  split_ifs <;> rfl

theorem element_storeInput (port : String) (l : List (String × String)) :
    (n.storeInput port l).element = n.element := by
  unfold storeInput
  split_ifs <;> rfl

theorem listed_of_lookup {n : Node} {port : String} {l : List (String × String)}
    (h : n.input2ele.lookup port = some l) (e : String × String) : n.listed port e = l.count e := by
  rw [listed, h]
  rfl

end Node

/-! ## The graph -/

namespace Graph

variable (g : Graph)

/-- The edges of the graph, as both their ends store them. -/
def wiring : Wiring String String where
  has u := u ∈ g.instances
  out u p := (g.instances.lookup u).bind fun n => n.out p
  listed v q e := (g.instances.lookup v).elim 0 fun n => n.listed q e

variable {g} {g' : Graph} {x y p q r s : String} {e : String × String} {n : Node}

theorem lookup_setInstance (name : String) (n : Node) : (g.setInstance name n).instances.lookup x =
    if x = name then some n else g.instances.lookup x :=
  Dict.lookup_insert ..

@[simp] theorem has_setInstance (name : String) (n : Node) :
    (g.setInstance name n).wiring.has x ↔ x = name ∨ g.wiring.has x :=
  AList.mem_insert ..

@[simp] theorem out_setInstance (name : String) (n : Node) : (g.setInstance name n).wiring.out x r =
    if x = name then n.out r else g.wiring.out x r := by
  simp only [wiring, lookup_setInstance]
  split_ifs <;> rfl

@[simp] theorem listed_setInstance (name : String) (n : Node) :
    (g.setInstance name n).wiring.listed y s e =
      if y = name then n.listed s e else g.wiring.listed y s e := by
  simp only [wiring, lookup_setInstance]
  split_ifs <;> rfl

theorem out_of_lookup (h : g.instances.lookup x = some n) : g.wiring.out x r = n.out r := by
  simp only [wiring, h]
  rfl

theorem listed_of_lookup (h : g.instances.lookup y = some n) :
    g.wiring.listed y s e = n.listed s e := by
  simp only [wiring, h]
  rfl

theorem has_of_lookup (h : g.instances.lookup x = some n) : g.wiring.has x :=
  (Dict.mem_iff ..).2 ⟨n, h⟩

/-! An instance that is replaced keeps what the new one agrees on. -/

theorem has_replace (h : g.instances.lookup x = some n) (n' : Node) (w : String) :
    (g.setInstance x n').wiring.has w ↔ g.wiring.has w := by
  rw [has_setInstance]
  refine ⟨?_, Or.inr⟩
  rintro (rfl | hw)
  exacts [has_of_lookup h, hw]

theorem out_replace (h : g.instances.lookup x = some n) {n' : Node} (hn : ∀ r, n'.out r = n.out r)
    (w r : String) : (g.setInstance x n').wiring.out w r = g.wiring.out w r := by
  rw [out_setInstance, hn]
  split_ifs with hw
  · rw [hw, out_of_lookup h]
  · rfl

theorem listed_replace (h : g.instances.lookup x = some n) {n' : Node}
    (hn : ∀ s e, n'.listed s e = n.listed s e) (w s : String) (e : String × String) :
    (g.setInstance x n').wiring.listed w s e = g.wiring.listed w s e := by
  rw [listed_setInstance, hn]
  split_ifs with hw
  · rw [hw, listed_of_lookup h]
  · rfl

/-- The output ports of an instance are no input ports. -/
theorem listed_replaceOutput (h : g.instances.lookup x = some n) (d : Dict (String × Dest))
    (w s : String) (e : String × String) :
    (g.setInstance x { n with output2ele := d }).wiring.listed w s e = g.wiring.listed w s e := by
  refine listed_replace h (fun _ _ => ?_) w s e
  rfl

theorem instances_addElement {element : Element} {b : Bool}
    (h : g.addElement element = some (g', b)) : g'.instances = g.instances := by
  unfold addElement at h
  split at h
  · split_ifs at h
    exact (Prod.mk.inj (Option.some.inj h)).1 ▸ rfl
  · exact (Prod.mk.inj (Option.some.inj h)).1 ▸ rfl

theorem wiring_congr (h : g'.instances = g.instances) : g'.wiring = g.wiring := by
  unfold wiring
  rw [h]

/-- The ports of every element have different names. -/
structure PortsOk (g : Graph) : Prop where
  elements : ∀ {name e}, g.elements.lookup name = some e → e.checkPorts = some ()
  nodes : ∀ {name n}, g.instances.lookup name = some n → n.element.checkPorts = some ()

theorem PortsOk.setInstance (hok : g.PortsOk) {name : String}
    (hn : n.element.checkPorts = some ()) : (g.setInstance name n).PortsOk where
  elements he := hok.elements he
  nodes hx := by
    rw [lookup_setInstance] at hx
    split_ifs at hx
    · obtain rfl := Option.some.inj hx
      exact hn
    · exact hok.nodes hx

theorem PortsOk.replace (hok : g.PortsOk) (h : g.instances.lookup x = some n) {n' : Node}
    (hn : n'.element = n.element) : (g.setInstance x n').PortsOk :=
  hok.setInstance (hn ▸ hok.nodes h)

theorem PortsOk.replaceOutput (hok : g.PortsOk) (h : g.instances.lookup x = some n)
    (d : Dict (String × Dest)) : (g.setInstance x { n with output2ele := d }).PortsOk :=
  hok.replace h rfl

@[simp] theorem has_eraseInstance (name : String) :
    (g.eraseInstance name).wiring.has x ↔ x ≠ name ∧ g.wiring.has x :=
  AList.mem_erase

@[simp] theorem out_eraseInstance (name : String) : (g.eraseInstance name).wiring.out x r =
    if x = name then none else g.wiring.out x r := by
  simp only [wiring, eraseInstance, Dict.lookup_erase]
  split_ifs <;> rfl

@[simp] theorem listed_eraseInstance (name : String) : (g.eraseInstance name).wiring.listed y s e =
    if y = name then 0 else g.wiring.listed y s e := by
  simp only [wiring, eraseInstance, Dict.lookup_erase]
  split_ifs <;> rfl

theorem PortsOk.eraseInstance (h : g.PortsOk) (name : String) : (g.eraseInstance name).PortsOk where
  elements he := h.elements he
  nodes hx := by
    rw [Graph.eraseInstance, Dict.lookup_erase] at hx
    split_ifs at hx
    exact h.nodes hx

/-! ## A new edge -/

/-- A new edge leads from output port `p` of `u` to the input ports `qs` of `v`. -/
structure Linked (g g' : Graph) (u p v : String) (qs : List String) : Prop where
  has : ∀ w, g'.wiring.has w ↔ g.wiring.has w
  out : ∀ x r, g'.wiring.out x r = if x = u ∧ r = p then some (v, qs) else g.wiring.out x r
  listed : ∀ y s e, g'.wiring.listed y s e =
    g.wiring.listed y s e + if y = v ∧ e = (u, p) then qs.count s else 0
  portsOk : g.PortsOk → g'.PortsOk

theorem connect_spec {name1 name2 : String} {out1 in2 : Option String} {overwrite : Bool}
    (h : g.connect name1 name2 out1 in2 overwrite = some g') :
    ∃ i1 i2 p d, g.instances.lookup name1 = some i1 ∧ g.instances.lookup name2 = some i2 ∧
      i1.element.outPort out1 = some p ∧ i2.element.inPort in2 = some d ∧
      (overwrite ∨ g.wiring.out name1 p = none) ∧ g.Linked g' name1 p name2 d.ports := by
  simp only [connect, Option.pure_def, Option.bind_eq_bind, Option.bind_eq_some_iff,
    Option.some.injEq] at h
  obtain ⟨i1, hi1, i2, hi2, p, hp, d, hd, i1', hi1', i2', hi2', rfl⟩ := h
  obtain ⟨hfree, rfl⟩ := Node.connectOutputPort_spec hi1'
  refine ⟨i1, i2, p, d, hi1, hi2, hp, hd, hfree.imp_right fun hf => ?_, ?_⟩
  · rw [out_of_lookup hi1, Node.out, hf]
    rfl
  obtain ⟨helement, hout, hlisted⟩ := i2'.foldl_connectInputPort name1 p d.ports
  refine ⟨fun w => ?_, fun x r => ?_, fun y s e => ?_, fun hok => ?_⟩
  · rw [has_replace hi2', has_replace hi1]
  · rw [out_replace hi2' hout, out_setInstance, Node.out_insert]
    by_cases hx : x = name1
    · rw [if_pos hx, hx, out_of_lookup hi1]
      exact if_congr (by simp) rfl rfl
    · rw [if_neg hx, if_neg fun hxr => hx hxr.1]
  · rw [listed_setInstance, hlisted, ← listed_of_lookup hi2', listed_replaceOutput hi1,
      listed_replaceOutput hi1]
    by_cases hy : y = name2
    · rw [if_pos hy, hy]
      exact congrArg _ (if_congr (by simp) rfl rfl)
    · rw [if_neg hy, if_neg fun hye => hy hye.1, Nat.add_zero]
  · exact (hok.replaceOutput hi1 _).replace hi2' helement

/-! ## The end of an edge -/

/-- `disconnect` ends the edge of an output port that leads to one input port. -/
theorem disconnect_spec {name1 name2 out1 : String} {in2 : Option Dest}
    (h : g.disconnect name1 name2 out1 in2 = some g') :
    ∃ q, g.wiring.out name1 out1 = some (name2, [q]) ∧
      (∀ w, g'.wiring.has w ↔ g.wiring.has w) ∧
      (∀ x r, g'.wiring.out x r = if x = name1 ∧ r = out1 then none else g.wiring.out x r) ∧
      (∀ y s e, g'.wiring.listed y s e =
        g.wiring.listed y s e - if y = name2 ∧ s = q ∧ e = (name1, out1) then 1 else 0) ∧
      (g.PortsOk → g'.PortsOk) := by
  simp only [disconnect, Option.pure_def, Option.bind_eq_bind, Option.bind_eq_some_iff,
    Option.guard_eq_some'] at h
  obtain ⟨i1, hi1, i2, hi2, ⟨_, d⟩, hd, _, rfl, _, _, h⟩ := h
  cases d with
  | all ps => cases h
  | one q =>
      simp only [Option.bind_eq_some_iff, Option.guard_eq_some', Option.some.injEq] at h
      obtain ⟨i2', hi2', l, hl, _, hmem, rfl⟩ := h
      have hfirst : g.wiring.out name1 out1 = some (name2, [q]) := by
        rw [out_of_lookup hi1, Node.out, hd]
        rfl
      refine ⟨q, hfirst, fun w => ?_, fun x r => ?_, fun y s e => ?_, fun hok => ?_⟩
      · rw [has_replace hi2', has_replace hi1]
      · rw [out_replace hi2' (i2'.out_storeInput _ · _), out_setInstance, Node.out_erase]
        by_cases hx : x = name1
        · rw [if_pos hx, hx, out_of_lookup hi1]
          exact if_congr (by simp) rfl rfl
        · rw [if_neg hx, if_neg fun hxr => hx hxr.1]
      · rw [listed_setInstance, Node.listed_storeInput, List.count_erase,
          ← Node.listed_of_lookup hl, ← listed_of_lookup hi2', ← listed_of_lookup hi2',
          listed_replaceOutput hi1, listed_replaceOutput hi1, listed_replaceOutput hi1]
        by_cases hy : y = name2
        · by_cases hs : s = q
          · simp [hy, hs, eq_comm (a := e)]
          · simp [hy, hs]
        · simp [hy]
      · exact (hok.replaceOutput hi1 _).replace hi2' (i2'.element_storeInput ..)

/-! ## The removal of an instance -/

/-- The graph has lost edges from or to `name`, and no other. -/
structure Forgets (name : String) (g g' : Graph) : Prop where
  has : ∀ w, g'.wiring.has w ↔ g.wiring.has w
  out_of : ∀ {x r next}, g'.wiring.out x r = some next → g.wiring.out x r = some next
  out : ∀ {x r next}, g.wiring.out x r = some next → next.1 ≠ name → g'.wiring.out x r = some next
  listed_le : ∀ y s e, g'.wiring.listed y s e ≤ g.wiring.listed y s e
  listed : ∀ {y s e}, e.1 ≠ name → g'.wiring.listed y s e = g.wiring.listed y s e
  portsOk : g.PortsOk → g'.PortsOk

namespace Forgets

variable {name : String}

theorem refl (g : Graph) : Forgets name g g where
  has _ := Iff.rfl
  out_of h := h
  out h _ := h
  listed_le _ _ _ := le_rfl
  listed _ := rfl
  portsOk h := h

theorem trans {g g' g'' : Graph} (h : Forgets name g g') (h' : Forgets name g' g'') :
    Forgets name g g'' where
  has w := (h'.has w).trans (h.has w)
  out_of hx := h.out_of (h'.out_of hx)
  out hx hne := h'.out (h.out hx hne) hne
  listed_le y s e := Nat.le_trans (h'.listed_le y s e) (h.listed_le y s e)
  listed he := (h'.listed he).trans (h.listed he)
  portsOk hok := h'.portsOk (h.portsOk hok)

end Forgets

theorem forgetOutput_spec {name : String} {pred : String × String}
    (h : g.forgetOutput name pred = some g') :
    Forgets name g g' ∧ ∀ qs, g'.wiring.out pred.1 pred.2 ≠ some (name, qs) := by
  simp only [forgetOutput, Option.pure_def, Option.bind_eq_bind, Option.bind_eq_some_iff] at h
  obtain ⟨other, hother, ⟨thisName, d⟩, hd, h⟩ := h
  have hpred : g.wiring.out pred.1 pred.2 = some (thisName, d.ports) := by
    rw [out_of_lookup hother, Node.out, hd]
    rfl
  split_ifs at h with hname
  · obtain rfl := Option.some.inj h
    have hout : ∀ x r, (g.setInstance pred.1
        { other with output2ele := other.output2ele.erase pred.2 }).wiring.out x r =
        if x = pred.1 ∧ r = pred.2 then none else g.wiring.out x r := fun x r => by
      rw [out_setInstance, Node.out_erase]
      by_cases hx : x = pred.1
      · rw [if_pos hx, hx, out_of_lookup hother]
        exact if_congr (by simp) rfl rfl
      · rw [if_neg hx, if_neg fun hxr => hx hxr.1]
    refine ⟨⟨has_replace hother _, fun {x r next} hx => ?_, fun {x r next} hx hne => ?_,
      fun y s e => Nat.le_of_eq (listed_replaceOutput hother _ y s e),
      fun {y s e} _ => listed_replaceOutput hother _ y s e, fun hok => hok.replaceOutput hother _⟩,
      fun qs => ?_⟩
    · rw [hout] at hx
      split_ifs at hx
      exact hx
    · rw [hout, if_neg, hx]
      rintro ⟨rfl, rfl⟩
      rw [hpred] at hx
      obtain rfl := Option.some.inj hx
      exact hne hname
    · rw [hout, if_pos ⟨rfl, rfl⟩]
      intro heq
      cases heq
  · obtain rfl := Option.some.inj h
    refine ⟨Forgets.refl g, fun qs hqs => hname ?_⟩
    rw [hpred] at hqs
    exact (Prod.mk.inj (Option.some.inj hqs)).1

theorem forgetInput_spec {name : String} {out : Σ _ : String, String × Dest}
    (h : g.forgetInput name out = some g') :
    Forgets name g g' ∧ ∃ q, out.2.2 = .one q ∧ g'.wiring.listed out.2.1 q (name, out.1) = 0 := by
  obtain ⟨p, v, d⟩ := out
  simp only [forgetInput, Option.pure_def, Option.bind_eq_bind, Option.bind_eq_some_iff] at h
  obtain ⟨other, hother, h⟩ := h
  cases d with
  | all ps => cases h
  | one q =>
      simp only [Option.bind_eq_some_iff, Option.some.injEq] at h
      obtain ⟨l, hl, rfl⟩ := h
      have hlisted : ∀ y s e, (g.setInstance v (other.storeInput q (l.filter fun this =>
          ¬ (this.1 = name ∧ this.2 = p)))).wiring.listed y s e =
          if y = v ∧ s = q ∧ e = (name, p) then 0 else g.wiring.listed y s e := fun y s e => by
        rw [listed_setInstance, Node.listed_storeInput]
        by_cases hy : y = v ∧ s = q
        · rw [if_pos hy.1, if_pos hy.2, hy.1, hy.2, listed_of_lookup hother,
            Node.listed_of_lookup hl]
          by_cases he : e = (name, p)
          · rw [if_pos ⟨rfl, rfl, he⟩]
            exact List.count_eq_zero_of_not_mem fun hmem => by simp [he] at hmem
          · rw [if_neg fun h => he h.2.2]
            refine List.count_filter ?_
            simpa [Prod.ext_iff, or_iff_not_imp_left] using he
        · rw [if_neg (c := y = v ∧ s = q ∧ e = (name, p)) fun h => hy ⟨h.1, h.2.1⟩]
          split_ifs with hv hs
          · exact absurd ⟨hv, hs⟩ hy
          · rw [hv, listed_of_lookup hother]
          · rfl
      refine ⟨⟨has_replace hother _, fun {x r next} hx => ?_, fun {x r next} hx hne => ?_,
        fun y s e => ?_, fun {y s e} he => ?_, fun hok => ?_⟩, q, rfl, ?_⟩
      · rwa [out_replace hother (other.out_storeInput _ · _)] at hx
      · rwa [out_replace hother (other.out_storeInput _ · _)]
      · rw [hlisted]
        split_ifs
        exacts [Nat.zero_le _, le_rfl]
      · rw [hlisted, if_neg]
        rintro ⟨_, _, rfl⟩
        exact he rfl
      · exact hok.replace hother (other.element_storeInput ..)
      · rw [hlisted, if_pos ⟨rfl, rfl, rfl⟩]

/-- `delete_instance`: every edge that a list of the instance names, and every edge that
starts at the instance. -/
theorem deleteInstance_spec {name : String} (h : g.deleteInstance name = some g') :
    ∃ inst, g.instances.lookup name = some inst ∧ Forgets name (g.eraseInstance name) g' ∧
      (∀ q e, inst.listed q e ≠ 0 → ∀ qs, g'.wiring.out e.1 e.2 ≠ some (name, qs)) ∧
      ∀ p v qs, inst.out p = some (v, qs) →
        ∃ q, qs = [q] ∧ g'.wiring.listed v q (name, p) = 0 := by
  simp only [deleteInstance, Option.bind_eq_bind, Option.bind_eq_some_iff] at h
  obtain ⟨inst, hinst, g1, hpreds, houts⟩ := h
  -- an edge that is gone after its round of a loop stays gone
  obtain ⟨hfirst, hpreds⟩ := establish
    (P := fun pred g => ∀ qs, g.wiring.out pred.1 pred.2 ≠ some (name, qs))
    Forgets.refl (fun _ _ _ => Forgets.trans) (fun _ _ _ _ hstep => forgetOutput_spec hstep)
    (fun _ _ _ hP hR qs hqs => hP qs (hR.out_of hqs)) hpreds
  obtain ⟨hsecond, houts⟩ := establish
    (P := fun out g => ∃ q, out.2.2 = .one q ∧ g.wiring.listed out.2.1 q (name, out.1) = 0)
    Forgets.refl (fun _ _ _ => Forgets.trans) (fun _ _ _ _ hstep => forgetInput_spec hstep)
    (fun _ _ _ hP hR => hP.imp fun q hq => ⟨hq.1, Nat.le_zero.1 (hq.2 ▸ hR.listed_le ..)⟩) houts
  refine ⟨inst, hinst, hfirst.trans hsecond, fun q e he qs hqs => ?_, fun p v qs hp => ?_⟩
  · obtain ⟨l, hl, hel⟩ := Node.exists_of_listed he
    refine hpreds e (List.mem_flatMap.2 ⟨⟨q, l⟩, ?_, hel⟩) qs (hsecond.out_of hqs)
    exact AList.mem_lookup_iff.1 hl
  · obtain ⟨d, hd, rfl⟩ := Node.exists_of_out hp
    obtain ⟨q, hq, hP⟩ := houts ⟨p, v, d⟩ (AList.mem_lookup_iff.1 hd)
    obtain rfl : d = .one q := hq
    exact ⟨q, rfl, hP⟩

end Graph
end IR
end Floem
