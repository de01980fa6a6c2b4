import Mathlib
import Floem.IR.Order
import Floem.IR.Wired
import Floem.Lib.Names

/-!
# The edges that the order constraints insert

What each loop of `insert_resource_order` does.

* `mem_findSubgraphSameThread` — the search finds what an instance leads to.
* `Collected` — the numbers of the extra ports agree at both ends, for every pair that
  gets an edge.
* `Inserted`, `Merged` — the edges after the loop over the instances, and after the loop
  over the lists.
-/

namespace Floem
namespace IR

open Lib Relation

/-! ## Names of ports -/

theorem outName_inj {i j : ℕ} (h : outName i = outName j) : i = j := numbered_inj _ h

theorem inName_inj {i j : ℕ} (h : inName i = inName j) : i = j := numbered_inj _ h

theorem outName_ne (i : ℕ) : outName i ≠ "_out" := numbered_ne _ i

theorem inName_ne (i : ℕ) : inName i ≠ "_in" := numbered_ne _ i

theorem getElem?_push {β : Type} {l : List β} {b c : β} {i : ℕ} :
    (l ++ [b])[i]? = some c ↔ l[i]? = some c ∨ i = l.length ∧ c = b := by
  rw [List.getElem?_append]
  split_ifs with hi
  · exact ⟨Or.inl, fun h => h.resolve_right fun h => by omega⟩
  · rw [List.getElem?_eq_none (l := l) (by omega), List.getElem?_singleton]
    split_ifs with h0
    · exact ⟨fun h => Or.inr ⟨by omega, (Option.some.inj h).symm⟩, fun h =>
        h.elim (by nofun) fun h => h.2 ▸ rfl⟩
    · exact ⟨by nofun, fun h => h.elim (by nofun) fun h => absurd h.1 (by omega)⟩

theorem count_single {e e' : String × String} : [e'].count e = if e = e' then 1 else 0 := by
  rw [List.count_singleton]
  exact if_congr (by rw [beq_iff_eq, eq_comm]) rfl rfl

/-- A loop that stores every element of a list under a key made from its index. -/
theorem lookup_foldl_zipIdx {β γ : Type} {key : ℕ → String} (hkey : ∀ {i j}, key i = key j → i = j)
    (val : β → γ) (l : List β) (d : Dict γ) :
    let d' := l.zipIdx.foldl (fun d x => d.insert (key x.2) (val x.1)) d
    (∀ i b, l[i]? = some b → d'.lookup (key i) = some (val b)) ∧
      ∀ r, (∀ i b, l[i]? = some b → r ≠ key i) → d'.lookup r = d.lookup r := by
  induction l using List.reverseRecOn with
  | nil => simp
  | append_singleton l b ih =>
      obtain ⟨hnew, hold⟩ := ih
      simp only [List.zipIdx_append, List.foldl_append, List.zipIdx_cons, List.zipIdx_nil,
        List.foldl_cons, List.foldl_nil, Nat.zero_add, Dict.lookup_insert]
      refine ⟨fun i c hi => ?_, fun r hr => ?_⟩
      · rcases getElem?_push.1 hi with hi | ⟨rfl, rfl⟩
        · have hlt : i < l.length := (List.getElem?_eq_some_iff.1 hi).1
          rw [if_neg fun h => hlt.ne (hkey h), hnew i c hi]
        · rw [if_pos rfl]
      · rw [if_neg (hr l.length b List.getElem?_concat_length)]
        exact hold r fun i c hi => hr i c (getElem?_push.2 (Or.inl hi))

/-! ## The search -/

namespace Graph

variable {g g' : Graph} {thread : Option String}

/-- All instances run on one thread. -/
def OnThread (g : Graph) (thread : Option String) : Prop :=
  ∀ {x n}, g.instances.lookup x = some n → n.thread = thread

theorem mem_nextInstances {x : String} {succs : List String} (h : g.nextInstances x = some succs)
    (y : String) : y ∈ succs ↔ g.wiring.Leads x y := by
  obtain ⟨n, hn, rfl⟩ := Option.map_eq_some_iff.1 h
  rw [List.mem_map]
  constructor
  · rintro ⟨⟨p, v, d⟩, hd, rfl⟩
    refine ⟨p, d.ports, ?_⟩
    rw [out_of_lookup hn, Node.out, AList.mem_lookup_iff.2 hd]
    rfl
  · rintro ⟨p, qs, hp⟩
    rw [out_of_lookup hn] at hp
    obtain ⟨d, hd, rfl⟩ := Node.exists_of_out hp
    exact ⟨⟨p, y, d⟩, AList.mem_lookup_iff.1 hd, rfl⟩

theorem lookup_of_findSubgraphSameThread {a : String} {s : List String}
    (h : g.findSubgraphSameThread a = some s) : ∃ n, g.instances.lookup a = some n := by
  obtain ⟨n, hn, -⟩ := Option.bind_eq_some_iff.1 h
  exact ⟨n, hn⟩

/-- **The search** on one thread finds what the instance leads to. -/
theorem mem_findSubgraphSameThread (hwired : g.wiring.Consistent) (hthread : g.OnThread thread)
    {a : String} {s : List String} (h : g.findSubgraphSameThread a = some s) (y : String) :
    y ∈ s ↔ ReflTransGen g.wiring.Leads a y := by
  obtain ⟨n, hn, h⟩ := Option.bind_eq_some_iff.1 h
  have henter : ∀ x, g.wiring.has x →
      (g.instances.lookup x).map Node.thread = some n.thread := fun x hx => by
    obtain ⟨m, hm⟩ := (Dict.mem_iff ..).1 hx
    rw [hm, Option.map_some, hthread hm, hthread hn]
  have hleads : Enters g.nextInstances
      (fun name => (g.instances.lookup name).map Node.thread = some n.thread) = g.wiring.Leads := by
    funext x z
    refine propext ⟨fun ⟨succs, hsuccs, hz, _⟩ => (mem_nextInstances hsuccs z).1 hz, fun hz => ?_⟩
    obtain ⟨p, qs, hp⟩ := hz
    obtain ⟨hx, hz⟩ := hwired.out_has hp
    obtain ⟨m, hm⟩ := (Dict.mem_iff ..).1 hx
    have hsuccs := congrArg (Option.map fun inst => inst.output2ele.entries.map fun out => out.2.1) hm
    exact ⟨_, hsuccs, (mem_nextInstances hsuccs z).2 ⟨p, qs, hp⟩, decide_eq_true (henter z hz)⟩
  refine (mem_dfs ?_ h y).trans ?_
  · exact decide_eq_true (henter a (has_of_lookup hn))
  · rw [hleads]

/-- The search goes no deeper than the model lets it: it only fails at an instance that is
not there. -/
theorem findSubgraphSameThread_isSome (hwired : g.wiring.Consistent) {a : String}
    (ha : g.wiring.has a) : ∃ s, g.findSubgraphSameThread a = some s := by
  obtain ⟨n, hn⟩ := (Dict.mem_iff ..).1 ha
  rw [findSubgraphSameThread, hn]
  refine dfs_isSome (fun x hx => ?_) ha ?_
  · obtain ⟨m, hm⟩ := (Dict.mem_iff ..).1 (AList.mem_keys.1 hx)
    have hsuccs := congrArg (Option.map fun inst => inst.output2ele.entries.map fun out => out.2.1) hm
    refine ⟨_, hsuccs, fun y hy => ?_⟩
    obtain ⟨p, qs, hp⟩ := (mem_nextInstances hsuccs y).1 hy
    exact (hwired.out_has hp).2
  · refine Nat.lt_succ_of_le ((List.length_filter_le ..).trans ?_)
    rw [AList.keys, List.keys, List.length_map]

/-! ## The ports of the pairs -/

theorem at_insert_push (extra : Extra) (a x : String) (z : String × ℕ) {i : ℕ} {w : String × ℕ} :
    (Extra.at (extra.insert a (extra.at a ++ [z])) x)[i]? = some w ↔
      (extra.at x)[i]? = some w ∨ x = a ∧ i = (extra.at a).length ∧ w = z := by
  rw [Extra.at, Dict.lookup_insert]
  split_ifs with hx
  · rw [hx, Option.getD_some, getElem?_push]
    simp
  · exact ⟨Or.inl, fun h => h.resolve_right fun h => hx h.1⟩

theorem length_insert_push (extra : Extra) (a x : String) (z : String × ℕ) :
    (Extra.at (extra.insert a (extra.at a ++ [z])) x).length =
      (extra.at x).length + if x = a then 1 else 0 := by
  rw [Extra.at, Dict.lookup_insert]
  split_ifs with hx
  · rw [hx, Option.getD_some, List.length_append, List.length_singleton]
  · rfl

/-- The extra ports are those of the pairs `done`: port `i` of an instance leads to the port
that has `i` as its other end. -/
structure Collected (extra : Extra × Extra) (done : List (String × String)) : Prop where
  paired : ∀ (a : String) (i : ℕ) (b : String) (j : ℕ), (extra.1.at a)[i]? = some (b, j) ↔
    (extra.2.at b)[j]? = some (a, i)
  mem : ∀ a b, (a, b) ∈ done ↔ ∃ i j : ℕ, (extra.1.at a)[i]? = some (b, j)
  length_out : ∀ a, (extra.1.at a).length = done.countP fun pair => pair.1 = a
  length_in : ∀ b, (extra.2.at b).length = done.countP fun pair => pair.2 = b

theorem Collected.nil : Collected (∅, ∅) [] where
  paired _ _ _ _ := ⟨by nofun, by nofun⟩
  mem _ _ := ⟨by nofun, fun ⟨_, _, h⟩ => by cases h⟩
  length_out _ := rfl
  length_in _ := rfl

/-- One more pair. -/
theorem Collected.push {extra : Extra × Extra} {done : List (String × String)}
    (h : Collected extra done) (a b : String) :
    Collected (extra.1.insert a (extra.1.at a ++ [(b, (extra.2.at b).length)]),
      extra.2.insert b (extra.2.at b ++ [(a, (extra.1.at a).length)])) (done ++ [(a, b)]) where
  paired x i y j := by
    simp only [at_insert_push, h.paired, Prod.mk.injEq]
    tauto
  mem x y := by
    simp only [at_insert_push, List.mem_append, List.mem_singleton, h.mem, Prod.mk.injEq]
    constructor
    · rintro (⟨i, j, hij⟩ | ⟨rfl, rfl⟩)
      · exact ⟨i, j, Or.inl hij⟩
      · exact ⟨_, _, Or.inr ⟨rfl, rfl, rfl, rfl⟩⟩
    · rintro ⟨i, j, hij | ⟨rfl, -, rfl, -⟩⟩
      · exact Or.inl ⟨i, j, hij⟩
      · exact Or.inr ⟨rfl, rfl⟩
  length_out x := by
    rw [length_insert_push, h.length_out, List.countP_append, List.countP_singleton]
    exact congrArg _ (if_congr (by rw [decide_eq_true_eq, eq_comm]) rfl rfl)
  length_in y := by
    rw [length_insert_push, h.length_in, List.countP_append, List.countP_singleton]
    exact congrArg _ (if_congr (by rw [decide_eq_true_eq, eq_comm]) rfl rfl)

/-- The pairs that get an edge: the first does not point to the second yet. -/
def added (g : Graph) (order : List Constraint) : List (String × String) :=
  (pairs order).filter fun pair => pair.2 ∉ (g.findSubgraphSameThread pair.1).getD []

/-- What the loop over the pairs has checked of each. -/
structure Checked (g : Graph) (pair : String × String) : Prop where
  found : ∃ s, g.findSubgraphSameThread pair.1 = some s
  legal : ∃ s, g.findSubgraphSameThread pair.2 = some s ∧ pair.1 ∉ s

theorem collectPorts_spec {l : List (String × String)} {extra extra' : Extra × Extra}
    {done : List (String × String)} (hextra : Collected extra done)
    (h : l.foldlM g.collectPorts extra = some extra') :
    Collected extra' (done ++ l.filter fun pair =>
      pair.2 ∉ (g.findSubgraphSameThread pair.1).getD []) ∧ ∀ pair ∈ l, g.Checked pair := by
  induction l generalizing extra done with
  | nil =>
      obtain rfl := Option.some.inj h
      rw [List.filter_nil, List.append_nil]
      exact ⟨hextra, by nofun⟩
  | cons pair l ih =>
      obtain ⟨a, b⟩ := pair
      rw [List.foldlM_cons, Option.bind_eq_bind, Option.bind_eq_some_iff] at h
      obtain ⟨extra₁, hstep, h⟩ := h
      simp only [collectPorts, Option.bind_eq_bind, Option.bind_eq_some_iff,
        Option.guard_eq_some'] at hstep
      obtain ⟨pointsToA, hA, pointsToB, hB, _, hlegal, hstep⟩ := hstep
      have hchecked : g.Checked (a, b) := ⟨⟨pointsToA, hA⟩, pointsToB, hB, hlegal⟩
      rw [List.filter_cons, hA, Option.getD_some]
      split_ifs at hstep with hpoints
      · obtain rfl := Option.some.inj hstep
        rw [if_neg (by simpa using hpoints)]
        obtain ⟨hall, hrest⟩ := ih hextra h
        exact ⟨hall, List.forall_mem_cons.2 ⟨hchecked, hrest⟩⟩
      · obtain rfl := Option.some.inj hstep
        rw [if_pos (by simpa using hpoints)]
        obtain ⟨hall, hrest⟩ := ih (hextra.push a b) h
        rw [List.append_assoc] at hall
        exact ⟨hall, List.forall_mem_cons.2 ⟨hchecked, hrest⟩⟩

/-! ## The edges of the pairs -/

/-- New edges at ports of `extra`, and no other change. -/
structure Inserts (extra : Extra × Extra) (g g' : Graph) : Prop where
  has : ∀ w, g'.wiring.has w ↔ g.wiring.has w
  out : ∀ x r, g'.wiring.out x r = g.wiring.out x r ∨ ∃ (i : ℕ) (b : String) (j : ℕ),
    r = outName i ∧ (extra.1.at x)[i]? = some (b, j) ∧ g'.wiring.out x r = some (b, [inName j])
  listed : ∀ y s, (∀ e, g'.wiring.listed y s e = g.wiring.listed y s e) ∨
    ∃ (j : ℕ) (a : String) (i : ℕ), s = inName j ∧ (extra.2.at y)[j]? = some (a, i) ∧
      ∀ e, g'.wiring.listed y s e = if e = (a, outName i) then 1 else 0

/-- The ports of one instance have their edges. -/
structure HasPorts (extra : Extra × Extra) (x : String) (g : Graph) : Prop where
  out : ∀ {i : ℕ} {b : String} {j : ℕ}, (extra.1.at x)[i]? = some (b, j) →
    g.wiring.out x (outName i) = some (b, [inName j])
  listed : ∀ {j : ℕ} {a : String} {i : ℕ}, (extra.2.at x)[j]? = some (a, i) →
    ∀ e, g.wiring.listed x (inName j) e = if e = (a, outName i) then 1 else 0

namespace Inserts

variable {extra : Extra × Extra}

theorem refl (g : Graph) : Inserts extra g g :=
  ⟨fun _ => Iff.rfl, fun _ _ => Or.inl rfl, fun _ _ => Or.inl fun _ => rfl⟩

theorem trans {g g' g'' : Graph} (h : Inserts extra g g') (h' : Inserts extra g' g'') :
    Inserts extra g g'' where
  has w := (h'.has w).trans (h.has w)
  out x r := by
    rcases h'.out x r with hsame | hnew
    · rw [hsame]
      exact h.out x r
    · exact Or.inr hnew
  listed y s := by
    rcases h'.listed y s with hsame | hnew
    · simp only [hsame]
      exact h.listed y s
    · exact Or.inr hnew

/-- Later rounds store the same edge at a port again, if any. -/
theorem hasPorts {g g' : Graph} (h : Inserts extra g g') {x : String} (hx : HasPorts extra x g) :
    HasPorts extra x g' where
  out {i b j} hi := by
    rcases h.out x (outName i) with hsame | ⟨i', b', j', hname, hi', hnew⟩
    · rw [hsame, hx.out hi]
    · obtain rfl := outName_inj hname
      obtain ⟨rfl, rfl⟩ := Prod.mk.inj (Option.some.inj (hi.symm.trans hi'))
      exact hnew
  listed {j a i} hj e := by
    rcases h.listed x (inName j) with hsame | ⟨j', a', i', hname, hj', hnew⟩
    · rw [hsame, hx.listed hj]
    · obtain rfl := inName_inj hname
      obtain ⟨rfl, rfl⟩ := Prod.mk.inj (Option.some.inj (hj.symm.trans hj'))
      exact hnew e

end Inserts

theorem insertPorts_spec {extra : Extra × Extra} {name : String}
    (h : g.insertPorts extra name = some g') : Inserts extra g g' ∧ HasPorts extra name g' := by
  simp only [insertPorts, Option.pure_def, Option.bind_eq_bind, Option.bind_eq_some_iff,
    Option.some.injEq] at h
  obtain ⟨inst, hinst, element, -, ⟨g₁, b⟩, hadd, rfl⟩ := h
  have hinst₁ : g₁.instances.lookup name = some inst := by
    rw [instances_addElement hadd, hinst]
  obtain ⟨houtNew, houtOld⟩ := lookup_foldl_zipIdx outName_inj
    (fun z : String × ℕ => (z.1, Dest.one (inName z.2))) (extra.1.at name) inst.output2ele
  obtain ⟨hinNew, hinOld⟩ := lookup_foldl_zipIdx inName_inj
    (fun z : String × ℕ => [(z.1, outName z.2)]) (extra.2.at name) inst.input2ele
  have hwiring : g₁.wiring = g.wiring := wiring_congr (instances_addElement hadd)
  refine ⟨⟨fun w => ?_, fun x r => ?_, fun y s => ?_⟩, fun {i b j} hi => ?_, fun {j a i} hj e => ?_⟩
  · rw [has_replace hinst₁, hwiring]
  · by_cases hx : x = name
    · rw [out_setInstance, if_pos hx, hx, Node.out]
      by_cases hr : ∃ i z, (extra.1.at name)[i]? = some z ∧ r = outName i
      · obtain ⟨i, ⟨b, j⟩, hi, rfl⟩ := hr
        exact Or.inr ⟨i, b, j, rfl, hi, by rw [houtNew i _ hi]; rfl⟩
      · rw [houtOld r fun i z hi hname => hr ⟨i, z, hi, hname⟩, out_of_lookup hinst]
        exact Or.inl rfl
    · rw [out_setInstance, if_neg hx, hwiring]
      exact Or.inl rfl
  · by_cases hy : y = name
    · simp only [listed_setInstance, if_pos hy, Node.listed]
      by_cases hs : ∃ j z, (extra.2.at name)[j]? = some z ∧ s = inName j
      · obtain ⟨j, ⟨a, i⟩, hj, rfl⟩ := hs
        refine Or.inr ⟨j, a, i, rfl, hy ▸ hj, fun e => ?_⟩
        rw [hinNew j _ hj, Option.getD_some, count_single]
      · rw [hinOld s fun j z hj hname => hs ⟨j, z, hj, hname⟩]
        refine Or.inl fun e => ?_
        rw [hy, listed_of_lookup hinst, Node.listed]
    · refine Or.inl fun e => ?_
      rw [listed_setInstance, if_neg hy, hwiring]
  · rw [out_setInstance, if_pos rfl, Node.out, houtNew i _ hi]
    rfl
  · rw [listed_setInstance, if_pos rfl, Node.listed, hinNew j _ hj, Option.getD_some, count_single]

/-- The loop over the instances with extra ports. -/
theorem foldlM_insertPorts {extra : Extra × Extra} {insts : List String}
    (h : insts.foldlM (fun g name => g.insertPorts extra name) g = some g') :
    Inserts extra g g' ∧ ∀ x ∈ insts, HasPorts extra x g' :=
  establish (P := HasPorts extra) Inserts.refl (fun _ _ _ => Inserts.trans)
    (fun _ _ _ _ hstep => insertPorts_spec hstep) (fun _ _ _ hx hs => hs.hasPorts hx) h

/-! ## The edges of the lists -/

theorem mergeOutput_spec {target f : String} (h : g.mergeOutput target f = some g') :
    g.wiring.has f ∧ (∀ w, g'.wiring.has w ↔ g.wiring.has w) ∧
      (∀ x r, g'.wiring.out x r =
        if r = "_out" ∧ x = f then some (target, ["_in"]) else g.wiring.out x r) ∧
      ∀ y s e, g'.wiring.listed y s e = g.wiring.listed y s e := by
  simp only [mergeOutput, Option.pure_def, Option.bind_eq_bind, Option.bind_eq_some_iff,
    Option.some.injEq] at h
  obtain ⟨inst, hinst, element, -, ⟨g₁, b⟩, hadd, rfl⟩ := h
  have hinst₁ : g₁.instances.lookup f = some inst := by
    rw [instances_addElement hadd, hinst]
  have hwiring : g₁.wiring = g.wiring := wiring_congr (instances_addElement hadd)
  rw [← hwiring]
  refine ⟨has_of_lookup hinst₁, has_replace hinst₁ _, fun x r => ?_, fun y s e => ?_⟩
  · rw [out_setInstance]
    by_cases hx : x = f
    · rw [if_pos hx, hx, out_of_lookup hinst₁]
      refine (Node.out_insert { inst with element := element } "_out" target r (.one "_in")).trans ?_
      exact if_congr (by simp) rfl rfl
    · rw [if_neg hx, if_neg fun h => hx h.2]
  · refine listed_replace hinst₁ (fun _ _ => ?_) y s e
    rfl

/-- The edges from the instances of a list to `target`, and no other change. -/
structure Merged (froms : List String) (target : String) (g g' : Graph) : Prop where
  has_froms : ∀ f ∈ froms, g.wiring.has f
  has_target : g.wiring.has target
  has : ∀ w, g'.wiring.has w ↔ g.wiring.has w
  out : ∀ x r, g'.wiring.out x r =
    if r = "_out" ∧ x ∈ froms then some (target, ["_in"]) else g.wiring.out x r
  listed : ∀ y s e, g'.wiring.listed y s e =
    if s = "_in" ∧ y = target then (froms.map fun f => (f, "_out")).count e
    else g.wiring.listed y s e

theorem foldlM_mergeOutput {target : String} {froms : List String}
    (h : froms.foldlM (fun g f => g.mergeOutput target f) g = some g') :
    (∀ f ∈ froms, g.wiring.has f) ∧ (∀ w, g'.wiring.has w ↔ g.wiring.has w) ∧
      (∀ x r, g'.wiring.out x r =
        if r = "_out" ∧ x ∈ froms then some (target, ["_in"]) else g.wiring.out x r) ∧
      ∀ y s e, g'.wiring.listed y s e = g.wiring.listed y s e := by
  induction froms generalizing g with
  | nil =>
      obtain rfl := Option.some.inj h
      exact ⟨by nofun, fun _ => Iff.rfl, fun x r => (if_neg fun h => by cases h.2).symm,
        fun _ _ _ => rfl⟩
  | cons f froms ih =>
      rw [List.foldlM_cons, Option.bind_eq_bind, Option.bind_eq_some_iff] at h
      obtain ⟨g₁, hfirst, h⟩ := h
      obtain ⟨hf, hhas, hout, hlisted⟩ := mergeOutput_spec hfirst
      obtain ⟨hfroms, hhas', hout', hlisted'⟩ := ih h
      refine ⟨List.forall_mem_cons.2 ⟨hf, fun x hx => (hhas x).1 (hfroms x hx)⟩,
        fun w => (hhas' w).trans (hhas w), fun x r => ?_,
        fun y s e => (hlisted' y s e).trans (hlisted y s e)⟩
      rw [hout', hout]
      by_cases hr : r = "_out" <;> by_cases hx : x = f <;> by_cases hmem : x ∈ froms <;>
        simp [hr, hx, hmem]

theorem mergeAsNoJoin_spec {froms : List String} {target : String}
    (h : g.mergeAsNoJoin froms target = some g') : Merged froms target g g' := by
  simp only [mergeAsNoJoin, Option.pure_def, Option.bind_eq_bind, Option.bind_eq_some_iff,
    Option.some.injEq] at h
  obtain ⟨g₁, hloop, inst, hinst, ⟨g₂, b⟩, hadd, rfl⟩ := h
  obtain ⟨hfroms, hhas, hout, hlisted⟩ := foldlM_mergeOutput hloop
  have hinst₂ : g₂.instances.lookup target = some inst := by
    rw [instances_addElement hadd, hinst]
  have hwiring : g₂.wiring = g₁.wiring := wiring_congr (instances_addElement hadd)
  refine ⟨hfroms, (hhas target).1 (has_of_lookup hinst), fun w => ?_, fun x r => ?_,
    fun y s e => ?_⟩
  · rw [has_replace hinst₂, hwiring, hhas]
  · rw [← hout, ← hwiring]
    refine out_replace hinst₂ (fun _ => ?_) x r
    rfl
  · rw [listed_setInstance]
    by_cases hy : y = target
    · rw [if_pos hy, Node.listed, Dict.lookup_insert]
      by_cases hs : s = "_in"
      · rw [if_pos hs, if_pos ⟨hs, hy⟩, Option.getD_some]
      · rw [if_neg hs, if_neg fun h => hs h.1, ← hlisted, hy, listed_of_lookup hinst, Node.listed]
    · rw [if_neg hy, if_neg fun h => hy h.2, hwiring, hlisted]

/-- The last list with `f` in it, and the last one before `target`. -/
def lastFrom (l : List (List String × String)) (f : String) : Option (List String × String) :=
  l.reverse.find? fun list => f ∈ list.1

def lastBefore (l : List (List String × String)) (target : String) :
    Option (List String × String) :=
  l.reverse.find? fun list => list.2 = target

theorem lastFrom_cons (list : List String × String) (l : List (List String × String)) (f : String) :
    lastFrom (list :: l) f = (lastFrom l f).or (if f ∈ list.1 then some list else none) := by
  rw [lastFrom, List.reverse_cons, List.find?_append, List.find?_singleton]
  simp only [decide_eq_true_eq]
  rfl

theorem lastBefore_cons (list : List String × String) (l : List (List String × String))
    (target : String) : lastBefore (list :: l) target =
      (lastBefore l target).or (if list.2 = target then some list else none) := by
  rw [lastBefore, List.reverse_cons, List.find?_append, List.find?_singleton]
  simp only [decide_eq_true_eq]
  rfl

/-- What the loop over the lists leaves: each instance leads where its last list says, and
each port `_in` lists the last list before its instance. -/
structure MergedAll (l : List (List String × String)) (g g' : Graph) : Prop where
  has_lists : ∀ list ∈ l, (∀ f ∈ list.1, g.wiring.has f) ∧ g.wiring.has list.2
  has : ∀ w, g'.wiring.has w ↔ g.wiring.has w
  out : ∀ x r, g'.wiring.out x r = if r = "_out" then
    ((lastFrom l x).map fun list => (list.2, ["_in"])).or (g.wiring.out x r) else g.wiring.out x r
  listed : ∀ y s e, g'.wiring.listed y s e = if s = "_in" then
    ((lastBefore l y).map fun list => (list.1.map fun f => (f, "_out")).count e).getD
      (g.wiring.listed y s e) else g.wiring.listed y s e

theorem foldlM_mergeAsNoJoin {l : List (List String × String)}
    (h : l.foldlM (fun g list => g.mergeAsNoJoin list.1 list.2) g = some g') : MergedAll l g g' := by
  induction l generalizing g with
  | nil =>
      obtain rfl := Option.some.inj h
      exact ⟨by nofun, fun _ => Iff.rfl, fun _ _ => (ite_self _).symm,
        fun _ _ _ => (ite_self _).symm⟩
  | cons list l ih =>
      rw [List.foldlM_cons, Option.bind_eq_bind, Option.bind_eq_some_iff] at h
      obtain ⟨g₁, hfirst, h⟩ := h
      have hfirst := mergeAsNoJoin_spec hfirst
      obtain ⟨hlists, hhas, hout, hlisted⟩ := ih h
      refine ⟨List.forall_mem_cons.2 ⟨⟨hfirst.has_froms, hfirst.has_target⟩, fun c hc => ?_⟩,
        fun w => (hhas w).trans (hfirst.has w), fun x r => ?_, fun y s e => ?_⟩
      · exact (hlists c hc).imp (fun hf f hmem => (hfirst.has f).1 (hf f hmem)) (hfirst.has _).1
      · rw [hout, hfirst.out, lastFrom_cons]
        by_cases hr : r = "_out"
        · cases hlast : lastFrom l x <;> by_cases hmem : x ∈ list.1 <;> simp [hr, hmem]
        · simp [hr]
      · rw [hlisted, hfirst.listed, lastBefore_cons]
        by_cases hs : s = "_in"
        · cases hlast : lastBefore l y <;> by_cases hy : y = list.2 <;>
            simp [hs, hy, eq_comm (a := list.2)]
        · simp [hs]

end Graph
end IR
end Floem
