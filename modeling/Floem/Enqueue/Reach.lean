import Mathlib
import Floem.IR.Basic
import Floem.Lib.Search

/-!
# Reachability through queues

The search of `floem/graph.py` that follows the output edges of instances and crosses from
the enqueue side of a smart queue to its dequeue side.

* `Queue`, `Instance`, `Graph` — the links between instances, and between a smart queue and
  its instances.
* `Reach` — what is reachable through edges and queues.
* `findSubgraph`, `findSubgraphWithQueue` — the two searches.  Behind a queue the second one
  goes on as the first, which crosses no other queue.
* `Near`, `Sure` — what is reachable through edges and one queue, and whether another queue can
  get in the way.
* `near_of_mem`, `mem_of_sure`, `findSubgraphWithQueue_isSome` — what is found is near, what is
  sure is found, and the search ends.
-/

namespace Floem
namespace Enqueue

open Lib IR

/-- `Queue`: the names of its instances stand for the instances. -/
structure Queue where
  name : String
  channels : ℕ
  enq : List String
  deq : String
  clean : Option String
  enqOutput : Bool
  deriving DecidableEq, Repr

/-- An instance.  `output2ele` has the ports in the order of the dictionary. -/
structure Instance where
  /-- `element.special`, where it is a queue. -/
  special : Option Queue
  output2ele : List (String × String × String)
  input2ele : Dict (List (String × String))
  thread : Option String

/-- The instances under their names, and the devices of the threads. -/
structure Graph where
  instances : Dict Instance
  thread2device : Dict String

namespace Instance

variable (inst : Instance)

/-- The instances in `output2ele.values()`. -/
def nexts : List String := inst.output2ele.map fun out => out.2.1

/-- The dequeue instance of the queue that the instance `name` is an enqueue instance of. -/
def crosses (name : String) : Option String :=
  (inst.special.filter fun q => name ∈ q.enq).map Queue.deq

end Instance

namespace Graph

variable (g : Graph)

/-- The instances behind an instance. -/
def nexts (name : String) : Option (List String) := (g.instances.lookup name).map Instance.nexts

/-- `find_subgraph`, with the depth it may recurse to. -/
def findSubgraph (depth : ℕ) (root : String) (subgraph : List String) : Option (List String) :=
  dfs g.nexts (fun _ => true) depth root subgraph

/-- `find_subgraph_with_queue`, with the depth it may recurse to. -/
def searchWithQueue : ℕ → String → List String → Option (List String)
  | 0, _, _ => none
  | depth + 1, root, subgraph => do
    let inst ← g.instances.lookup root
    if root ∉ subgraph then
      let subgraph ← inst.nexts.foldlM (fun subgraph name => searchWithQueue depth name subgraph)
        (root :: subgraph)
      match inst.crosses root with
      | some deq => g.findSubgraph depth deq subgraph
      | none => return subgraph
    else return subgraph

/-- `find_subgraph_with_queue(root, set())`. -/
def findSubgraphWithQueue (root : String) : Option (List String) :=
  g.searchWithQueue (g.instances.keys.length + 1) root []

/-- An output edge. -/
def Edge (x y : String) : Prop := ∃ inst, g.instances.lookup x = some inst ∧ y ∈ inst.nexts

/-- From an enqueue instance of a queue to its dequeue instance. -/
def Crosses (x y : String) : Prop :=
  ∃ inst, g.instances.lookup x = some inst ∧ inst.crosses x = some y

/-- One instance is behind another, or behind the queue it is an enqueue instance of. -/
def Hop (x y : String) : Prop := g.Edge x y ∨ g.Crosses x y

/-- `y` can be reached from `x` through output edges and queues. -/
def Reach (x y : String) : Prop := Relation.ReflTransGen g.Hop x y

/-- `y` can be reached from `x` through output edges. -/
def Along (x y : String) : Prop := Relation.ReflTransGen g.Edge x y

/-- `y` can be reached from `x` through output edges and at most one queue. -/
def Near (x y : String) : Prop :=
  g.Along x y ∨ ∃ e d, g.Along x e ∧ g.Crosses e d ∧ g.Along d y

/-- And no other queue gets in the way: a queue that leads to the enqueue instance the queue is
crossed at leads to `y` as well. -/
def Sure (x y : String) : Prop :=
  g.Along x y ∨ ∃ e d, g.Along x e ∧ g.Crosses e d ∧ g.Along d y ∧
    ∀ e' d', g.Along x e' → g.Crosses e' d' → g.Along d' e → g.Along d' y

/-- What is behind an instance, or behind its queue, is in the graph. -/
def Closed : Prop := ∀ x y, g.Hop x y → y ∈ g.instances

variable {g} {start : String → Prop} {depth : ℕ} {root x y z : String} {found found' : List String}

theorem Along.reach (h : g.Along x y) : g.Reach x y :=
  Relation.ReflTransGen.mono (fun _ _ => Or.inl) _ _ h

theorem Near.reach (h : g.Near x y) : g.Reach x y := by
  rcases h with h | ⟨e, d, he, hd, hy⟩
  · exact h.reach
  · exact he.reach.trans (hy.reach.head (Or.inr hd))

theorem Near.head (hxy : g.Along x y) (h : g.Near y z) : g.Near x z := by
  rcases h with h | ⟨e, d, he, hd, hz⟩
  · exact Or.inl (hxy.trans h)
  · exact Or.inr ⟨e, d, hxy.trans he, hd, hz⟩

theorem Sure.near (h : g.Sure x y) : g.Near x y :=
  h.imp_right fun ⟨e, d, he, hd, hy, _⟩ => ⟨e, d, he, hd, hy⟩

/-! ## What a search adds -/

/-- What a search with queues from the instances `start` adds: what is near, with everything
behind it; and a queue that is crossed at an instance is searched, unless the instance was
found behind another one. -/
structure Adds (g : Graph) (start : String → Prop) (found found' : List String) : Prop where
  subset : ∀ y ∈ found, y ∈ found'
  near : ∀ y ∈ found', y ∈ found ∨ ∃ r, start r ∧ g.Near r y
  closed : ∀ y ∈ found', y ∉ found → ∀ z, g.Edge y z → z ∈ found'
  crossed : ∀ y ∈ found', y ∉ found → ∀ d, g.Crosses y d → d ∈ found' ∨
    ∃ r e d', start r ∧ g.Along r e ∧ g.Crosses e d' ∧ d' ∈ found' ∧ g.Along d' y

namespace Adds

theorem refl (found : List String) : g.Adds start found found :=
  ⟨fun _ h => h, fun _ => Or.inl, fun _ h hn => absurd h hn, fun _ h hn => absurd h hn⟩

theorem trans {s t u : List String} (h : g.Adds start s t) (h' : g.Adds start t u) :
    g.Adds start s u where
  subset y hy := h'.subset y (h.subset y hy)
  near y hy := (h'.near y hy).elim (h.near y) Or.inr
  closed y hy hn z hz := by
    by_cases ht : y ∈ t
    · exact h'.subset z (h.closed y ht hn z hz)
    · exact h'.closed y hy ht z hz
  crossed y hy hn d hd := by
    by_cases ht : y ∈ t
    · refine (h.crossed y ht hn d hd).imp (h'.subset d) ?_
      rintro ⟨r, e, d', hr, he, hd', hmem, hy⟩
      exact ⟨r, e, d', hr, he, hd', h'.subset d' hmem, hy⟩
    · exact h'.crossed y hy ht d hd

theorem mono {start' : String → Prop} {s t : List String} (h : g.Adds start s t)
    (hstart : ∀ r, start r → ∃ r', start' r' ∧ g.Along r' r) : g.Adds start' s t where
  subset := h.subset
  near y hy := (h.near y hy).imp_right fun ⟨r, hr, hry⟩ => by
    obtain ⟨r', hr', hrr⟩ := hstart r hr
    exact ⟨r', hr', hry.head hrr⟩
  closed := h.closed
  crossed y hy hn d hd := (h.crossed y hy hn d hd).imp_right fun ⟨r, e, d', hr, he, hrest⟩ => by
    obtain ⟨r', hr', hrr⟩ := hstart r hr
    exact ⟨r', e, d', hr', hrr.trans he, hrest⟩

end Adds

theorem enters_iff : Enters g.nexts (fun _ => true) x y ↔ g.Edge x y := by
  constructor
  · rintro ⟨succs, hsuccs, hy, -⟩
    obtain ⟨inst, hinst, rfl⟩ := Option.map_eq_some_iff.1 hsuccs
    exact ⟨inst, hinst, hy⟩
  · rintro ⟨inst, hinst, hy⟩
    exact ⟨inst.nexts, by rw [nexts, hinst]; rfl, hy, rfl⟩

/-- The search behind a queue, seen from the instance it is crossed at. -/
theorem findSubgraph_adds {d : String} (hcross : g.Crosses root d)
    (h : g.findSubgraph depth d found = some found') :
    g.Adds (· = root) found found' ∧ d ∈ found' := by
  obtain ⟨hgrows, hmem⟩ := dfs_grows h
  have hd : d ∈ found' := hmem rfl
  have halong : ∀ y ∈ found', y ∈ found ∨ g.Along d y := fun y hy =>
    (hgrows.reached y hy).imp_right fun ⟨r, hr, _, hry⟩ =>
      hr ▸ Relation.ReflTransGen.mono (fun _ _ => enters_iff.1) _ _ hry
  refine ⟨⟨hgrows.subset, fun y hy => ?_, fun y hy hn z hz => ?_, fun y hy hn _ _ => ?_⟩, hd⟩
  · exact (halong y hy).imp_right fun hdy => ⟨root, rfl, Or.inr ⟨root, d, .refl, hcross, hdy⟩⟩
  · exact hgrows.closed y hy hn z (enters_iff.2 hz)
  · exact Or.inr ⟨root, root, d, rfl, .refl, hcross, hd, (halong y hy).resolve_left hn⟩

theorem searchWithQueue_adds (h : g.searchWithQueue depth root found = some found') :
    g.Adds (· = root) found found' ∧ root ∈ found' := by
  induction depth generalizing root found found' with
  | zero => cases h
  | succ depth ih =>
      obtain ⟨inst, hinst, h⟩ := Option.bind_eq_some_iff.1 h
      by_cases hroot : root ∈ found
      · simp only [hroot, not_true, if_false] at h
        cases h
        exact ⟨Adds.refl _, hroot⟩
      simp only [hroot, not_false_eq_true, if_true, Option.bind_eq_bind,
        Option.bind_eq_some_iff] at h
      obtain ⟨found₁, hloop, h⟩ := h
      -- the loop over the instances behind
      obtain ⟨hnexts, hall⟩ := establish (R := g.Adds (· = root)) (P := fun y s => y ∈ s) Adds.refl
        (fun _ _ _ => Adds.trans) (fun s y hy t hst => ⟨(ih hst).1.mono fun r hr =>
          ⟨root, rfl, .single ⟨inst, hinst, hr ▸ hy⟩⟩, (ih hst).2⟩)
        (fun y _ _ hy hst => hst.subset y hy) hloop
      have hmem : root ∈ found₁ := hnexts.subset root List.mem_cons_self
      -- the instance itself, and the queue that is crossed at it
      have hlast : g.Adds (· = root) found₁ found' ∧ ∀ d, g.Crosses root d → d ∈ found' := by
        cases hcross : inst.crosses root with
        | none =>
            rw [hcross] at h
            cases h
            refine ⟨Adds.refl _, fun d hd => ?_⟩
            obtain ⟨inst', hinst', hd⟩ := hd
            obtain rfl : inst = inst' := Option.some.inj (hinst.symm.trans hinst')
            rw [hcross] at hd
            cases hd
        | some deq =>
            rw [hcross] at h
            obtain ⟨hadds, hdeq⟩ := findSubgraph_adds ⟨inst, hinst, hcross⟩ h
            refine ⟨hadds, fun d hd => ?_⟩
            obtain ⟨inst', hinst', hd⟩ := hd
            obtain rfl : inst = inst' := Option.some.inj (hinst.symm.trans hinst')
            rwa [← Option.some.inj (hcross.symm.trans hd)]
      have hrest := hnexts.trans hlast.1
      refine ⟨⟨fun y hy => hrest.subset y (List.mem_cons_of_mem root hy), fun y hy => ?_,
        fun y hy hn z hz => ?_, fun y hy hn d hd => ?_⟩, hlast.1.subset root hmem⟩
      · rcases hrest.near y hy with hfound | hnear
        · rcases List.mem_cons.1 hfound with rfl | hfound
          · exact Or.inr ⟨y, rfl, Or.inl .refl⟩
          · exact Or.inl hfound
        · exact Or.inr hnear
      · by_cases hy' : y = root
        · obtain ⟨inst', hinst', hz⟩ := hy' ▸ hz
          obtain rfl : inst = inst' := Option.some.inj (hinst.symm.trans hinst')
          exact hlast.1.subset z (hall z hz)
        · exact hrest.closed y hy (fun hc => (List.mem_cons.1 hc).elim hy' hn) z hz
      · by_cases hy' : y = root
        · exact Or.inl (hlast.2 d (hy' ▸ hd))
        · exact hrest.crossed y hy (fun hc => (List.mem_cons.1 hc).elim hy' hn) d hd

/-- **What is found is near.** -/
theorem near_of_mem (h : g.findSubgraphWithQueue root = some found) (hy : y ∈ found) :
    g.Near root y := by
  rcases (searchWithQueue_adds h).1.near y hy with hnil | ⟨r, rfl, hry⟩
  · cases hnil
  · exact hry

/-- Everything behind an instance that is found is found. -/
theorem mem_of_along (h : g.findSubgraphWithQueue root = some found) (hx : x ∈ found)
    (hxy : g.Along x y) : y ∈ found := by
  induction hxy with
  | refl => exact hx
  | tail _ hz ih => exact (searchWithQueue_adds h).1.closed _ ih List.not_mem_nil _ hz

/-- **What is sure is found.** -/
theorem mem_of_sure (h : g.findSubgraphWithQueue root = some found) (hy : g.Sure root y) :
    y ∈ found := by
  have hroot : root ∈ found := (searchWithQueue_adds h).2
  rcases hy with hy | ⟨e, d, he, hd, hy, hother⟩
  · exact mem_of_along h hroot hy
  · have hfound := mem_of_along h hroot he
    rcases (searchWithQueue_adds h).1.crossed e hfound List.not_mem_nil d hd with
      hmem | ⟨r, e', d', rfl, he', hd', hmem, halong⟩
    · exact mem_of_along h hmem hy
    · -- the instance was found behind another queue, which leads to `y` as well
      exact mem_of_along h hmem (hother e' d' he' hd' halong)

/-! ## The searches end -/

theorem findSubgraph_isSome (hclosed : g.Closed) (hroot : root ∈ g.instances)
    (hdepth : (g.instances.keys.filter (· ∉ found)).length < depth) :
    ∃ found', g.findSubgraph depth root found = some found' := by
  refine dfs_isSome (fun x (hx : x ∈ g.instances.keys) => ?_) hroot hdepth
  obtain ⟨inst, hinst⟩ := (Dict.mem_iff ..).1 (show x ∈ g.instances from hx)
  refine ⟨inst.nexts, by rw [nexts, hinst]; rfl, fun y hy => ?_⟩
  exact hclosed x y (Or.inl ⟨inst, hinst, hy⟩)

theorem searchWithQueue_isSome (hclosed : g.Closed) (hroot : root ∈ g.instances)
    (hdepth : (g.instances.keys.filter (· ∉ found)).length < depth) :
    ∃ found', g.searchWithQueue depth root found = some found' := by
  induction depth generalizing root found with
  | zero => cases hdepth
  | succ depth ih =>
      obtain ⟨inst, hinst⟩ := (Dict.mem_iff ..).1 hroot
      rw [searchWithQueue, hinst, Option.bind_eq_bind, Option.bind_some]
      split_ifs with hnew
      · exact ⟨found, rfl⟩
      · have hless := length_left_lt (show root ∈ g.instances.keys from hroot) hnew
        generalize root :: found = found₀ at hless
        have hdepth₀ : (g.instances.keys.filter (· ∉ found₀)).length < depth := by omega
        -- every round of the loop leaves at most as many instances
        have hloop : ∀ names : List String, (∀ y ∈ names, y ∈ g.instances) → ∀ found₀,
            (g.instances.keys.filter (· ∉ found₀)).length < depth →
            ∃ found₁, names.foldlM (fun subgraph name => g.searchWithQueue depth name subgraph)
                found₀ = some found₁ ∧
              (g.instances.keys.filter (· ∉ found₁)).length < depth := by
          intro names hnames
          induction names with
          | nil => exact fun found₀ hlt => ⟨found₀, rfl, hlt⟩
          | cons y names ihn =>
              intro found₀ hlt
              obtain ⟨found₁, h₁⟩ := ih (hnames y List.mem_cons_self) hlt
              have hle := length_left_le g.instances.keys (searchWithQueue_adds h₁).1.subset
              obtain ⟨found₂, h₂, hlt₂⟩ := ihn (fun z hz => hnames z (List.mem_cons_of_mem y hz))
                found₁ (by omega)
              refine ⟨found₂, ?_, hlt₂⟩
              rw [List.foldlM_cons, h₁]
              exact h₂
        obtain ⟨found₁, h₁, hlt₁⟩ := hloop inst.nexts
          (fun y hy => hclosed root y (Or.inl ⟨inst, hinst, hy⟩)) found₀ hdepth₀
        rw [h₁, Option.bind_eq_bind, Option.bind_some]
        cases hcross : inst.crosses root with
        | none => exact ⟨found₁, rfl⟩
        | some deq =>
            exact findSubgraph_isSome hclosed (hclosed root deq (Or.inr ⟨inst, hinst, hcross⟩)) hlt₁

/-- **The search ends.** -/
theorem findSubgraphWithQueue_isSome (hclosed : g.Closed) (hroot : root ∈ g.instances) :
    ∃ found, g.findSubgraphWithQueue root = some found :=
  searchWithQueue_isSome hclosed hroot (Nat.lt_succ_of_le (List.length_filter_le ..))

end Graph
end Enqueue
end Floem
