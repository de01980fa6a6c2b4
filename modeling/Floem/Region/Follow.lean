import Mathlib
import Floem.Region.Search

/-!
# Searches that are not led astray

Where every instance is in front of one channel of a queue, and every enqueue instance is
entered by one channel, the searches go where the paths go.

* `Enters` — an entry leads to another one, through any channel.
* `channelLoop_of_hits`, `channelOf_eq` — the channel that is found.
* `noted` — what the searches note on the paths.
* `OneChannel.reach` — the first search succeeds exactly if every path gets to the end.
* `lasts` — what the second search notes.
-/

namespace Floem

open Lib Relation
open Enqueue (Queue Instance Graph)

namespace Region

variable {R : Region} {a b : Entry} {q : Queue}

/-! ## Entries -/

/-- An entry leads to the next one, through any channel. -/
def Enters (R : Region) (a b : Entry) : Prop :=
  a.node ≠ R.stop ∧ ∃ inst, R.graph.instances.lookup a.node = some inst ∧
    match inst.special with
    | none => b ∈ a.outputs inst
    | some q => ∃ c, onward R.graph q a.node c = some b

theorem queue_of_lookup {inst : Instance} (hlookup : R.graph.instances.lookup a.node = some inst)
    (hstop : a.node ≠ R.stop) : R.queue a = inst.special := by
  rw [queue, if_neg hstop, special, hlookup, Option.bind_some]

theorem queue_eq_some (h : R.queue a = some q) : a.node ≠ R.stop ∧
    ∃ inst, R.graph.instances.lookup a.node = some inst ∧ inst.special = some q := by
  rw [queue] at h
  split_ifs at h with hstop
  obtain ⟨inst, hinst, hq⟩ := Option.bind_eq_some_iff.1 h
  exact ⟨hstop, inst, hinst, hq⟩

theorem queue_of_special (h : special R.graph a.node = some q) : R.queue a = some q := by
  have hstop : a.node ≠ R.stop := fun heq => by
    rw [heq, R.plain] at h
    cases h
  rw [queue, if_neg hstop, h]

theorem enters_of_goes (h : R.Goes a b) : R.Enters a b := by
  obtain ⟨hstop, h⟩ := h
  rw [exits] at h
  cases hinst : R.graph.instances.lookup a.node with
  | none => rw [hinst] at h; cases h
  | some inst =>
      refine ⟨hstop, inst, hinst, ?_⟩
      rw [hinst] at h
      cases hq : inst.special with
      | none => simpa only [hq] using h
      | some q =>
          simp only [hq, Option.mem_toList, Option.bind_eq_some_iff] at h
          obtain ⟨c, -, h⟩ := h
          exact ⟨c, h⟩

theorem enters_of_children {as : List Entry} (hstop : a.node ≠ R.stop)
    (h : children R.graph a = some as) (hb : b ∈ as) : R.Enters a b := by
  obtain ⟨inst, hinst, h⟩ := Option.bind_eq_some_iff.1 h
  refine ⟨hstop, inst, hinst, ?_⟩
  cases hq : inst.special with
  | none =>
      rw [hq] at h
      obtain rfl := Option.some.inj h
      exact hb
  | some q =>
      rw [hq] at h
      obtain ⟨c, -, h⟩ := Option.bind_eq_some_iff.1 h
      obtain ⟨next, hnext, h⟩ := Option.bind_eq_some_iff.1 h
      obtain rfl := Option.some.inj h
      exact ⟨c, List.mem_singleton.1 hb ▸ hnext⟩

/-- What is behind a channel. -/
theorem onward_eq_some {name : String} {c : ℕ} (h : onward R.graph q name c = some b) :
    b.prev = some name ∧ ∃ deq, R.graph.instances.lookup q.deq = some deq ∧ ∃ out port,
      b.edge = some (q.deq, out, port) ∧ (out, b.node, port) ∈ deq.output2ele := by
  obtain ⟨deq, hdeq, h⟩ := Option.bind_eq_some_iff.1 h
  obtain ⟨⟨next, port⟩, hout, h⟩ := Option.bind_eq_some_iff.1 h
  obtain rfl := Option.some.inj h
  obtain ⟨front, back, hsplit, -⟩ := List.lookup_eq_some_iff.1 hout
  refine ⟨rfl, deq, hdeq, _, port, rfl, ?_⟩
  rw [hsplit]
  exact List.mem_append_right _ List.mem_cons_self

/-- Behind a channel there is one instance. -/
theorem onward_node {n m : String} {c : ℕ} {x y : Entry}
    (hx : onward R.graph q n c = some x) (hy : onward R.graph q m c = some y) :
    x.node = y.node := by
  obtain ⟨deq, hdeq, hx⟩ := Option.bind_eq_some_iff.1 hx
  obtain ⟨deq', hdeq', hy⟩ := Option.bind_eq_some_iff.1 hy
  obtain rfl : deq = deq' := Option.some.inj (hdeq.symm.trans hdeq')
  obtain ⟨v, hv, hx⟩ := Option.bind_eq_some_iff.1 hx
  obtain ⟨w, hw, hy⟩ := Option.bind_eq_some_iff.1 hy
  obtain rfl : v = w := Option.some.inj (hv.symm.trans hw)
  rw [← Option.some.inj hx, ← Option.some.inj hy]

/-- What an instance that is none of a queue leads to. -/
theorem Enters.outputs (h : R.Enters a b) (hq : R.queue a = none) :
    ∃ inst, R.graph.instances.lookup a.node = some inst ∧ inst.special = none ∧
      b ∈ a.outputs inst ∧ ∃ out port, (out, b.node, port) ∈ inst.output2ele ∧
        b = ⟨b.node, some a.node, some (a.node, out, port)⟩ := by
  obtain ⟨hstop, inst, hinst, h⟩ := h
  have hspecial : inst.special = none := by rw [← queue_of_lookup hinst hstop, hq]
  rw [hspecial] at h
  obtain ⟨⟨out, v, port⟩, hmem, rfl⟩ := List.mem_map.1 h
  exact ⟨inst, hinst, hspecial, h, out, port, hmem, rfl⟩

/-- What a queue leads to. -/
theorem Enters.onward (h : R.Enters a b) (hq : R.queue a = some q) :
    ∃ c, onward R.graph q a.node c = some b := by
  obtain ⟨hstop, inst, hinst, h⟩ := h
  have hspecial : inst.special = some q := by rw [← queue_of_lookup hinst hstop, hq]
  rwa [hspecial] at h

theorem Enters.prev (h : R.Enters a b) : b.prev = some a.node := by
  cases hq : R.queue a with
  | none =>
      obtain ⟨inst, -, -, -, out, port, -, hb⟩ := h.outputs hq
      rw [hb]
  | some q =>
      obtain ⟨c, hc⟩ := h.onward hq
      exact (onward_eq_some hc).1

/-- The next instance is in the graph. -/
theorem Enters.known (h : R.Enters a b) : b.node ∈ R.graph.instances := by
  have hmem : ∀ {u inst out port}, R.graph.instances.lookup u = some inst →
      (out, b.node, port) ∈ inst.output2ele → b.node ∈ R.graph.instances := by
    intro u inst out port hinst hout
    obtain ⟨inst', hinst', -⟩ := (R.wired u inst hinst out b.node port).1 hout
    exact (IR.Dict.mem_iff ..).2 ⟨inst', hinst'⟩
  cases hq : R.queue a with
  | none =>
      obtain ⟨inst, hinst, -, -, out, port, hout, -⟩ := h.outputs hq
      exact hmem hinst hout
  | some q =>
      obtain ⟨c, hc⟩ := h.onward hq
      obtain ⟨-, deq, hdeq, out, port, -, hout⟩ := onward_eq_some hc
      exact hmem hdeq hout

theorem Enters.hop (h : R.Enters a b) : Hop R.graph R.stop a.node b.node := by
  obtain ⟨hstop, inst, hinst, h'⟩ := h
  refine ⟨hstop, inst, hinst, ?_⟩
  cases hspecial : inst.special with
  | none =>
      rw [hspecial] at h'
      obtain ⟨x, hx, rfl⟩ := List.mem_map.1 h'
      exact List.mem_map.2 ⟨x, hx, rfl⟩
  | some q =>
      rw [hspecial] at h'
      obtain ⟨c, hc⟩ := h'
      obtain ⟨-, deq, hdeq, out, port, -, hout⟩ := onward_eq_some hc
      exact ⟨deq, hdeq, List.mem_map.2 ⟨_, hout, rfl⟩⟩

/-- An entry that some way leads to. -/
def Reached (R : Region) (a : Entry) : Prop := ReflTransGen R.Enters R.first a

theorem Reached.known (h : R.Reached a) : a.node ∈ R.graph.instances := by
  induction h with
  | refl => exact R.known
  | tail _ h _ => exact h.known

theorem Reached.hops (h : R.Reached a) :
    ReflTransGen (Hop R.graph R.stop) R.start a.node := by
  induction h with
  | refl => exact .refl
  | tail _ h ih => exact ih.tail h.hop

theorem Reached.acyclic (h : R.Reached a) : ¬ TransGen (Hop R.graph R.stop) a.node a.node :=
  R.acyclic _ h.hops

theorem On.reached (h : R.On a) : R.Reached a :=
  ReflTransGen.mono (fun _ _ => enters_of_goes) _ _ h

/-- A path does not come back. -/
theorem ne_of_path (h : R.Reached a) (hpath : TransGen R.Enters a b) : a.node ≠ b.node := by
  intro heq
  have hhops : TransGen (Hop R.graph R.stop) a.node b.node :=
    TransGen.lift Entry.node (fun _ _ => Enters.hop) _ _ hpath
  exact h.acyclic (heq ▸ hhops)

/-- The ways from the start. -/
def HopOn (R : Region) (x y : String) : Prop :=
  ReflTransGen (Hop R.graph R.stop) R.start x ∧ Hop R.graph R.stop x y

/-- Induction along the ways. -/
theorem wellFounded (R : Region) : WellFounded (flip R.HopOn) := by
  refine wellFounded_of_acyclic R.graph.instances.keys (fun x y h => ?_) fun x h => ?_
  · obtain ⟨-, -, inst, hinst, -⟩ := h
    exact (IR.Dict.mem_iff ..).2 ⟨inst, hinst⟩
  · obtain ⟨y, hxy, -⟩ := TransGen.head'_iff.1 h
    exact R.acyclic x hxy.1 (TransGen.mono (fun _ _ h => h.2) _ _ h)

/-! ## The channel that is found -/

section Channel

variable {prev : Option String} {ports : List (String × List (String × String))}

/-- An instance in front of one channel. -/
theorem channelLoop_of_hits {c : ℕ}
    (hall : ∀ x ∈ ports, prev ∈ x.2.map (fun x => some x.1) → portId x.1 = some c)
    {id : Option ℕ} (h : id = some c ∨
      id = none ∧ ∃ x ∈ ports, prev ∈ x.2.map (fun x => some x.1)) :
    channelLoop prev id ports = some (some c) := by
  induction ports generalizing id with
  | nil =>
      rcases h with rfl | ⟨-, x, hx, -⟩
      · rfl
      · cases hx
  | cons x ports ih =>
      obtain ⟨port, l⟩ := x
      have hrest := @ih fun x hx => hall x (List.mem_cons_of_mem _ hx)
      rw [channelLoop, portLoop]
      by_cases hhit : prev ∈ l.map (fun x => some x.1)
      · have hport := hall _ List.mem_cons_self hhit
        simp only [if_pos hhit, hport, Option.map_some, Option.bind_eq_bind, Option.bind_some]
        split_ifs
        · rfl
        · exact hrest (Or.inl rfl)
      · simp only [if_neg hhit, Option.bind_eq_bind, Option.bind_some]
        rcases h with rfl | ⟨rfl, y, hy, hyhit⟩
        · split_ifs
          · rfl
          · exact hrest (Or.inl rfl)
        · refine hrest (Or.inr ⟨rfl, y, ?_, hyhit⟩)
          refine (List.mem_cons.1 hy).resolve_left fun heq => hhit ?_
          rw [heq] at hyhit
          exact hyhit

/-- An instance in front of a port without a number. -/
theorem channelLoop_raises
    (hall : ∀ x ∈ ports, prev ∈ x.2.map (fun x => some x.1) → portId x.1 = none)
    (h : ∃ x ∈ ports, prev ∈ x.2.map (fun x => some x.1)) :
    channelLoop prev none ports = none := by
  induction ports with
  | nil =>
      obtain ⟨x, hx, -⟩ := h
      cases hx
  | cons x ports ih =>
      obtain ⟨port, l⟩ := x
      rw [channelLoop, portLoop]
      by_cases hhit : prev ∈ l.map (fun x => some x.1)
      · simp only [if_pos hhit, hall _ List.mem_cons_self hhit, Option.map_none,
          Option.bind_eq_bind, Option.bind_none]
      · simp only [if_neg hhit, Option.bind_eq_bind, Option.bind_some]
        refine ih (fun x hx => hall x (List.mem_cons_of_mem _ hx)) ?_
        obtain ⟨y, hy, hyhit⟩ := h
        refine ⟨y, (List.mem_cons.1 hy).resolve_left fun heq => hhit ?_, hyhit⟩
        rw [heq] at hyhit
        exact hyhit

/-- An instance in front of no port. -/
theorem channelLoop_of_no_hit (hall : ∀ x ∈ ports, prev ∉ x.2.map (fun x => some x.1)) :
    channelLoop prev none ports = some none := by
  induction ports with
  | nil => rfl
  | cons x ports ih =>
      obtain ⟨port, l⟩ := x
      rw [channelLoop, portLoop, if_neg (hall _ List.mem_cons_self)]
      exact ih fun x hx => hall x (List.mem_cons_of_mem _ hx)

/-- A channel that is found is one that the instance is in front of. -/
theorem channelLoop_sound {id : Option ℕ} {c : ℕ}
    (h : channelLoop prev id ports = some (some c)) : id = some c ∨
      ∃ x ∈ ports, prev ∈ x.2.map (fun x => some x.1) ∧ portId x.1 = some c := by
  induction ports generalizing id with
  | nil => exact Or.inl (Option.some.inj h)
  | cons x ports ih =>
      obtain ⟨port, l⟩ := x
      obtain ⟨id', hid', h⟩ := Option.bind_eq_some_iff.1 h
      rw [portLoop] at hid'
      have hnext : id' = some c ∨ ∃ x ∈ (port, l) :: ports,
          prev ∈ x.2.map (fun x => some x.1) ∧ portId x.1 = some c := by
        split_ifs at h
        · exact Or.inl (Option.some.inj h)
        · exact (ih h).imp_right fun ⟨y, hy, hhit⟩ => ⟨y, List.mem_cons_of_mem _ hy, hhit⟩
      rcases hnext with rfl | hnext
      · by_cases hhit : prev ∈ l.map (fun x => some x.1)
        · rw [if_pos hhit, Option.map_eq_some_iff] at hid'
          obtain ⟨d, hd, hdc⟩ := hid'
          obtain rfl := Option.some.inj hdc
          exact Or.inr ⟨_, List.mem_cons_self, hhit, hd⟩
        · rw [if_neg hhit] at hid'
          exact Or.inl (Option.some.inj hid')
      · exact Or.inr hnext

/-- The input ports that an instance is in front of, seen from its outputs. -/
theorem hit_iff {u : String} {inst : Instance}
    (hinst : R.graph.instances.lookup u = some inst) {port : String} :
    (∃ l, (port, l) ∈ enqPorts R.graph q ∧ some u ∈ l.map (fun x => some x.1)) ↔
      ∃ out, ∃ v ∈ q.enq, (out, v, port) ∈ inst.output2ele := by
  constructor
  · rintro ⟨l, hl, hhit⟩
    obtain ⟨v, hv, hl⟩ := List.mem_flatMap.1 hl
    obtain ⟨⟨w, out⟩, hmem, hw⟩ := List.mem_map.1 hhit
    obtain rfl := Option.some.inj hw
    cases hinst' : R.graph.instances.lookup v with
    | none => simp [hinst'] at hl
    | some inst' =>
        simp only [hinst', Option.map_some, Option.getD_some, List.mem_map] at hl
        obtain ⟨⟨port', l'⟩, hentry, heq⟩ := hl
        cases heq
        exact ⟨out, v, hv, (R.wired _ _ hinst out v port').2
          ⟨inst', hinst', l', AList.mem_lookup_iff.2 hentry, hmem⟩⟩
  · rintro ⟨out, v, hv, hmem⟩
    obtain ⟨inst', hinst', l, hl, hin⟩ := (R.wired u inst hinst out v port).1 hmem
    refine ⟨l, List.mem_flatMap.2 ⟨v, hv, ?_⟩, List.mem_map.2 ⟨_, hin, rfl⟩⟩
    simp only [hinst', Option.map_some, Option.getD_some]
    exact List.mem_map.2 ⟨⟨port, l⟩, AList.mem_lookup_iff.1 hl, rfl⟩

/-- Nothing is found without an instance in front. -/
theorem channelOf_none (R : Region) (q : Queue) : channelOf R.graph q none = none := by
  have hno : channelLoop none none (enqPorts R.graph q) = some none :=
    channelLoop_of_no_hit fun x _ hhit => by simp at hhit
  rw [channelOf, hno]
  rfl

/-- The channel that is found is the one of a port of the instance. -/
theorem channelOf_eq_some {u : String} {inst : Instance}
    (hinst : R.graph.instances.lookup u = some inst) {c : ℕ}
    (h : channelOf R.graph q (some u) = some c) : ∃ port out, ∃ v ∈ q.enq,
      (out, v, port) ∈ inst.output2ele ∧ portId port = some c := by
  obtain ⟨id, hid, rfl⟩ := Option.bind_eq_some_iff.1 h
  obtain hnone | ⟨⟨port, l⟩, hx, hhit, hport⟩ := channelLoop_sound hid
  · cases hnone
  · obtain ⟨out, v, hv, hmem⟩ := (hit_iff hinst).1 ⟨l, hx, hhit⟩
    exact ⟨port, out, v, hv, hmem, hport⟩

end Channel

/-! ## Where instances are in front of one channel -/

/-- Two entries of one queue instance on paths, or of an instance that is none, lead to the
same. -/
theorem exits_congr (h : a.node = b.node)
    (hchannel : ∀ q, special R.graph a.node = some q → R.channel a = R.channel b) :
    R.exits a = R.exits b := by
  rw [exits, exits, ← h]
  cases hinst : R.graph.instances.lookup a.node with
  | none => rfl
  | some inst =>
      cases hq : inst.special with
      | none => simp only [hq, Entry.outputs, h]
      | some q =>
          have hspecial : special R.graph a.node = some q := by
            rw [special, hinst, Option.bind_some, hq]
          simp only [hq, hchannel q hspecial]

/-- Where an entry of a queue comes from. -/
theorem OneChannel.source (h : R.OneChannel) (ha : R.On a) (hq : R.queue a = some q) :
    a = R.first ∨ ∃ p, R.On p ∧ R.Goes p a ∧ R.queue p = none := by
  rcases ReflTransGen.cases_tail ha with heq | ⟨p, hp, hgoes⟩
  · exact Or.inl heq
  · exact Or.inr ⟨p, hp, hgoes, h.apart p a hp hgoes (by rw [hq]; exact Option.some_ne_none q)⟩

theorem special_of_queue (h : R.queue a = some q) : special R.graph a.node = some q := by
  rw [← h, queue, if_neg (queue_eq_some h).1]

/-- An enqueue instance is entered by the channel of the port. -/
theorem channel_eq {e : String × String × String} (hq : special R.graph a.node = some q)
    (hedge : a.edge = some e) : R.channel a = if a.node ∈ q.enq then portId e.2.2 else none := by
  rw [channel, hq, hedge]
  rfl

/-- From an instance in front, a path enters the queue by each of its ports. -/
theorem goes_of_port {p : Entry} {inst : Instance} (hstop : p.node ≠ R.stop)
    (hinst : R.graph.instances.lookup p.node = some inst) (hspecial : inst.special = none)
    {out v port : String} (hmem : (out, v, port) ∈ inst.output2ele) :
    R.Goes p ⟨v, some p.node, some (p.node, out, port)⟩ := by
  refine ⟨hstop, ?_⟩
  rw [exits, hinst]
  simp only [hspecial]
  exact List.mem_map.2 ⟨_, hmem, rfl⟩

/-- **The channel that is found is the one of the path.** -/
theorem OneChannel.channelOf_eq (h : R.OneChannel) (ha : R.On a) (hq : R.queue a = some q) :
    channelOf R.graph q a.prev = R.channel a := by
  have hnode := special_of_queue hq
  rcases h.source ha hq with rfl | ⟨p, hp, hgoes, hnone⟩
  · have hfirst : R.channel R.first = none := by
      rw [channel, hnode]
      rfl
    rw [hfirst]
    exact channelOf_none R q
  · obtain ⟨inst, hinst, hspecial, -, out, port, hmem, heq⟩ := (enters_of_goes hgoes).outputs hnone
    have hprev : a.prev = some p.node := (enters_of_goes hgoes).prev
    have hchannel : R.channel a = if a.node ∈ q.enq then portId port else none :=
      channel_eq hnode (by rw [heq])
    -- every port that the instance is in front of has this channel
    have hall : ∀ x ∈ enqPorts R.graph q, a.prev ∈ x.2.map (fun x => some x.1) →
        portId x.1 = R.channel a := by
      rintro ⟨port', l⟩ hx hhit
      rw [hprev] at hhit
      obtain ⟨out', v, hv, hmem'⟩ := (hit_iff hinst).1 ⟨l, hx, hhit⟩
      have hb := goes_of_port hgoes.1 hinst hspecial hmem'
      have hv' := R.enqs q _ hnode v hv
      have hfront := h.front _ _ q (hp.tail hb) ha (queue_of_special hv') hq hprev.symm
      rw [channel_eq hv' rfl, if_pos hv] at hfront
      exact hfront
    rw [channelOf]
    by_cases hhit : ∃ x ∈ enqPorts R.graph q, a.prev ∈ x.2.map (fun x => some x.1)
    · cases hport : R.channel a with
      | none => rw [channelLoop_raises (fun x hx hh => (hall x hx hh).trans hport) hhit]; rfl
      | some c =>
          rw [channelLoop_of_hits (fun x hx hh => (hall x hx hh).trans hport) (Or.inr ⟨rfl, hhit⟩)]
          rfl
    · -- the queue is not entered by an enqueue instance
      have henq : a.node ∉ q.enq := fun hv => by
        obtain ⟨l, hl, hl'⟩ := (hit_iff (q := q) hinst).2 ⟨out, a.node, hv, hmem⟩
        exact hhit ⟨_, hl, hprev ▸ hl'⟩
      rw [hchannel, if_neg henq, channelLoop_of_no_hit fun x hx hh => hhit ⟨x, hx, hh⟩]
      rfl

/-- **The searches go where the paths go.** -/
theorem OneChannel.children_eq (h : R.OneChannel) (ha : R.On a) (hstop : a.node ≠ R.stop) :
    children R.graph a = some (R.exits a) ∨
      children R.graph a = none ∧ R.exits a = [] := by
  obtain ⟨inst, hinst⟩ := (IR.Dict.mem_iff ..).1 ha.reached.known
  rw [children, exits, hinst]
  simp only [Option.bind_eq_bind, Option.bind_some]
  cases hspecial : inst.special with
  | none => exact Or.inl rfl
  | some q =>
      have hq : R.queue a = some q := by rw [queue_of_lookup hinst hstop, hspecial]
      simp only [h.channelOf_eq ha hq]
      cases hchannel : R.channel a with
      | none => exact Or.inr ⟨rfl, rfl⟩
      | some c =>
          simp only [Option.bind_some]
          cases onward R.graph q a.node c with
          | none => exact Or.inr ⟨rfl, rfl⟩
          | some b => exact Or.inl rfl

/-! ## What is noted on the paths -/

/-- The rules search the region. -/
structure Searches (R : Region) {ρ : Type} (rules : Rules Entry String ρ) : Prop where
  key : rules.key = Entry.node
  children : rules.children = children R.graph
  stop : ∀ name, rules.stop name = none ↔ name ≠ R.stop

theorem reachRules_searches (R : Region) : R.Searches (reachRules R.graph R.stop) where
  key := rfl
  children := rfl
  stop name := by simp [reachRules]

theorem lastRules_searches (R : Region) : R.Searches (lastRules R.graph R.stop) where
  key := rfl
  children := rfl
  stop name := by simp [lastRules]

section Noted

variable {ρ : Type} {rules : Rules Entry String ρ} (hrules : R.Searches rules)

include hrules

theorem Searches.stop_none {a : Entry} : rules.stop (rules.key a) = none ↔ a.node ≠ R.stop := by
  rw [hrules.key, hrules.stop]

theorem Searches.enters {a b : Entry} (h : rules.Child a b) : R.Enters a b := by
  obtain ⟨hstop, as, has, hb⟩ := h
  rw [hrules.children] at has
  exact enters_of_children (hrules.stop_none.1 hstop) has hb

/-- The children of an entry on a path are on paths. -/
theorem Searches.walks (h : R.OneChannel) :
    rules.Walks R.On (Hop R.graph R.stop) R.graph.instances.keys where
  closed a b ha hchild := by
    refine ⟨?_, ?_⟩
    · obtain ⟨hstop, as, has, hb⟩ := hchild
      have hne := hrules.stop_none.1 hstop
      rw [hrules.children] at has
      rcases h.children_eq ha hne with hchildren | ⟨hchildren, -⟩
      · rw [hchildren] at has
        obtain rfl := Option.some.inj has
        exact ha.tail ⟨hne, hb⟩
      · rw [hchildren] at has
        cases has
    · rw [hrules.key]
      exact (hrules.enters hchild).hop
  acyclic a ha := by
    rw [hrules.key]
    exact ha.reached.acyclic
  known a ha := by
    rw [hrules.key]
    exact ha.reached.known

/-- What is noted at an instance on a path comes from its exits. -/
theorem Searches.settled (h : R.OneChannel) {V : ρ → Prop} {A : ℕ → ρ → Prop}
    {t : Memo Entry String ρ}
    (ht : rules.Visited R.On V A (· = R.first) ⟨fun _ => none, []⟩ t) {a : Entry} (ha : R.On a)
    {r : ρ} (hr : t.vis a.node = some r) : ∃ a', R.On a' ∧ a'.node = a.node ∧ ∃ acc,
      rules.fold t.vis rules.init (R.exits a) = some acc ∧ rules.finish a' acc = some r := by
  obtain ⟨a', hlog, hkey, hstop, as, acc, has, hfold, hfinish⟩ :=
    ((ht.new _ r hr).resolve_left (by simp)).1
  rw [hrules.key] at hkey
  have hne : a'.node ≠ R.stop := hkey ▸ (hrules.stop _).1 hstop
  have hon : R.On a' := by
    obtain hnil | ⟨b, rfl, hpath⟩ := ht.origin a' hlog
    · cases hnil
    · exact ((hrules.walks h).path .refl hpath).1
  have hexits : R.exits a' = R.exits a := by
    refine exits_congr hkey fun q hq => h.enq a' a hon ha ?_ hkey
    rw [queue_of_special hq]
    exact Option.some_ne_none q
  rw [hrules.children] at has
  rcases h.children_eq hon hne with hchildren | ⟨hchildren, -⟩
  · rw [hchildren, hexits] at has
    obtain rfl := Option.some.inj has
    exact ⟨a', hon, hkey, acc, hfold, hfinish⟩
  · rw [hchildren] at has
    cases has

/-- **Every instance on a path before the end is noted.** -/
theorem Searches.noted (h : R.OneChannel) {V : ρ → Prop} {A : ℕ → ρ → Prop}
    {t : Memo Entry String ρ}
    (ht : rules.Visited R.On V A (· = R.first) ⟨fun _ => none, []⟩ t)
    (hval : ∃ r, rules.val t.vis R.start = some r) {a : Entry} (ha : R.On a)
    (hstop : a.node ≠ R.stop) : ∃ r, t.vis a.node = some r := by
  have hvis : ∀ {k : String}, k ≠ R.stop → rules.val t.vis k = t.vis k := fun hk =>
    Rules.val_of_stop_none ((hrules.stop _).2 hk)
  induction ha with
  | refl =>
      obtain ⟨r, hr⟩ := hval
      exact ⟨r, by rw [← hvis hstop]; exact hr⟩
  | tail hp hgoes ih =>
      obtain ⟨r, hr⟩ := ih hgoes.1
      obtain ⟨a', -, -, acc, hfold, -⟩ := hrules.settled h ht hp hr
      obtain ⟨r', hr'⟩ := Rules.val_of_fold hfold hgoes.2
      rw [hrules.key] at hr'
      exact ⟨r', by rw [← hvis hstop, hr']⟩

end Noted

/-- Where every path gets to the end, every instance before it goes on. -/
theorem OneChannel.children_of_reach (h : R.OneChannel) (hreach : R.AllReach) (ha : R.On a)
    (hstop : a.node ≠ R.stop) : children R.graph a = some (R.exits a) ∧ R.exits a ≠ [] := by
  obtain ⟨b, hgoes⟩ := hreach a ha hstop
  have hne : R.exits a ≠ [] := List.ne_nil_of_mem hgoes.2
  exact ⟨(h.children_eq ha hstop).resolve_right fun hnone => hne hnone.2, hne⟩

/-- Behind a queue there is what is behind the channel. -/
theorem exits_of_queue (hq : R.queue a = some q) (hgoes : R.Goes a b) :
    ∃ c, R.channel a = some c ∧ onward R.graph q a.node c = some b ∧ R.exits a = [b] := by
  obtain ⟨-, inst, hinst, hspecial⟩ := queue_eq_some hq
  have hexits : R.exits a = ((R.channel a).bind (onward R.graph q a.node)).toList := by
    rw [exits, hinst]
    simp only [hspecial]
  have hb := hgoes.2
  rw [hexits, Option.mem_toList] at hb
  obtain ⟨c, hc, honward⟩ := Option.bind_eq_some_iff.1 hb
  exact ⟨c, hc, honward, by rw [hexits, hb]; rfl⟩

/-! ## The first search -/

/-- On paths that all get to the end no exception is raised. -/
theorem reachRules_total (h : R.OneChannel) (hreach : R.AllReach) :
    (reachRules R.graph R.stop).Total R.On (· = true) fun i acc => acc = decide (0 < i) where
  stop k r hr := by
    simp only [reachRules] at hr
    split_ifs at hr
    exact (Option.some.inj hr).symm
  init := rfl
  add i acc r hacc hr := by
    subst hacc hr
    refine ⟨true, ?_, by simp⟩
    cases i with
    | zero => rfl
    | succ i => rfl
  children a ha hstop :=
    ⟨_, (h.children_of_reach hreach ha ((reachRules_searches R).stop_none.1 hstop)).1⟩
  finish a as acc ha hstop has hacc := by
    obtain ⟨hchildren, hne⟩ :=
      h.children_of_reach hreach ha ((reachRules_searches R).stop_none.1 hstop)
    obtain rfl : as = R.exits a := Option.some.inj (has.symm.trans hchildren)
    have hpos : 0 < (R.exits a).length := List.length_pos_iff.2 hne
    refine ⟨true, ?_, rfl⟩
    simp only [reachRules, hacc, hpos, decide_true, if_true]

/-- An instance without an exit is not noted. -/
theorem reachRules_exits (h : R.OneChannel) {V : Bool → Prop} {A : ℕ → Bool → Prop}
    {t : Memo Entry String Bool}
    (ht : (reachRules R.graph R.stop).Visited R.On V A (· = R.first) ⟨fun _ => none, []⟩ t)
    (ha : R.On a) {r : Bool} (hr : t.vis a.node = some r) : R.exits a ≠ [] := by
  obtain ⟨a', -, -, acc, hfold, hfinish⟩ := (reachRules_searches R).settled h ht ha hr
  intro hnil
  rw [hnil] at hfold
  obtain rfl := Option.some.inj hfold
  simp [reachRules] at hfinish

/-- **The first search succeeds exactly if every path gets to the end.** -/
theorem OneChannel.reach (h : R.OneChannel) :
    (R.AllReach → ∃ queues, dfsSameThread R.graph R.start R.stop = .ok queues) ∧
      (¬ R.AllReach → dfsSameThread R.graph R.start R.stop = .error .raised) := by
  have hsettles : (reachRules R.graph R.stop).VisitSettles R.On (· = true)
      (fun i acc => acc = decide (0 < i)) ⟨fun _ => none, []⟩ R.first
      ((reachRules R.graph R.stop).visit (R.graph.instances.keys.length + 1) R.first
        ⟨fun _ => none, []⟩) :=
    Rules.visit_empty ((reachRules_searches R).walks h) .refl (Nat.lt_succ_self _)
  rw [dfsSameThread, show (⟨R.start, none, none⟩ : Entry) = R.first from rfl]
  cases hvisit : (reachRules R.graph R.stop).visit (R.graph.instances.keys.length + 1) R.first
      ⟨fun _ => none, []⟩ with
  | error e =>
      rw [hvisit] at hsettles
      obtain ⟨rfl, htotal⟩ := hsettles
      exact ⟨fun hreach => absurd (reachRules_total h hreach) htotal, fun _ => rfl⟩
  | ok result =>
      obtain ⟨r, t⟩ := result
      rw [hvisit] at hsettles
      obtain ⟨ht, hval, -⟩ := hsettles
      refine ⟨fun _ => ⟨_, rfl⟩, fun hreach => absurd (fun a ha hstop => ?_) hreach⟩
      obtain ⟨r', hr'⟩ := (reachRules_searches R).noted h ht ⟨r, hval⟩ ha hstop
      obtain ⟨b, hb⟩ := List.exists_mem_of_ne_nil _ (reachRules_exits h ht ha hr')
      exact ⟨b, hstop, hb⟩

/-! ## One path to each queue -/

/-- An enqueue instance is entered once. -/
theorem Straight.entry_unique (h : R.Straight) {x : Entry} (hx : R.On x)
    (hxa : ReflTransGen R.Goes x a) (hxb : ReflTransGen R.Goes x b) (hq : R.queue a ≠ none)
    (hnode : a.node = b.node) : a = b := by
  induction hxa using ReflTransGen.head_induction_on with
  | refl =>
      obtain rfl | hpath := reflTransGen_iff_eq_or_transGen.1 hxb
      · rfl
      · exact absurd hnode (ne_of_path hx.reached
          (TransGen.mono (fun _ _ => enters_of_goes) _ _ hpath))
  | head hxy hya ih =>
      rename_i x y
      rcases ReflTransGen.cases_head hxb with rfl | ⟨z, hxz, hzb⟩
      · have hpath : TransGen R.Goes x a := .head' hxy hya
        exact absurd hnode.symm (ne_of_path hx.reached
          (TransGen.mono (fun _ _ => enters_of_goes) _ _ hpath))
      · obtain rfl : y = z := by
          by_contra hne
          cases hqx : R.queue x with
          | none => exact h.split x y z a b hx hqx hxy hxz hne hya hzb hq hnode
          | some q =>
              obtain ⟨c, -, -, hexits⟩ := exits_of_queue hqx hxy
              have hz := hxz.2
              rw [hexits] at hz
              exact hne (List.mem_singleton.1 hz).symm
        exact ih (hx.tail hxy) hzb

theorem Straight.oneChannel (h : R.Straight) : R.OneChannel where
  apart := h.apart
  front a b q ha hb hqa hqb hprev := by rw [h.port a b q ha hb hqa hqb hprev]
  enq a b ha hb hqa hnode := by rw [h.entry_unique .refl ha hb hqa hnode]

/-! ## The second search -/

/-- The triples that are returned for an entry. -/
def lastOf (R : Region) (vis : String → Option (Option (List Triple))) (a : Entry) :
    List Triple :=
  (((lastRules R.graph R.stop).val vis a.node).join).getD []

theorem lastRules_fold {vis : String → Option (Option (List Triple))} {as : List Entry}
    {l : List Triple} {acc : Option (List Triple)}
    (h : (lastRules R.graph R.stop).fold vis (some l) as = some acc) :
    acc = some (l ++ as.flatMap (R.lastOf vis)) ∧
      ∀ a ∈ as, (lastRules R.graph R.stop).val vis a.node = some (some (R.lastOf vis a)) := by
  induction as generalizing l with
  | nil =>
      obtain rfl := Option.some.inj h
      exact ⟨by simp, fun a ha => by cases ha⟩
  | cons a as ih =>
      obtain ⟨r, hr, h⟩ := Option.bind_eq_some_iff.1 h
      obtain ⟨acc₁, hadd, h⟩ := Option.bind_eq_some_iff.1 h
      cases r with
      | none => cases hadd
      | some l' =>
          obtain rfl := Option.some.inj hadd
          obtain ⟨hacc, hrest⟩ := ih h
          have hl' : R.lastOf vis a = l' := by
            have hval : (lastRules R.graph R.stop).val vis a.node = some (some l') := hr
            rw [lastOf, hval]
            rfl
          refine ⟨by rw [hacc, List.flatMap_cons, hl', List.append_assoc], ?_⟩
          rw [List.forall_mem_cons, hl']
          exact ⟨hr, hrest⟩

/-- A queue on a path has an instance behind its channel. -/
theorem Straight.children_queue (h : R.Straight) (ha : R.On a) (hq : R.queue a = some q) :
    ∃ c b, R.channel a = some c ∧ R.Goes a b ∧ R.exits a = [b] ∧
      children R.graph a = some [b] := by
  obtain ⟨b, hgoes⟩ := h.goesOn a ha (by rw [hq]; exact Option.some_ne_none q)
  obtain ⟨c, hc, -, hexits⟩ := exits_of_queue hq hgoes
  refine ⟨c, b, hc, hgoes, hexits, ?_⟩
  rcases h.oneChannel.children_eq ha hgoes.1 with hchildren | ⟨-, hnil⟩
  · rw [hchildren, hexits]
  · rw [hexits] at hnil
    cases hnil

/-- No exception is raised on the paths. -/
theorem lastRules_total (h : R.Straight) :
    (lastRules R.graph R.stop).Total R.On (fun r => ∃ l, r = some l)
      fun _ acc => ∃ l, acc = some l where
  stop k r hr := by
    simp only [lastRules] at hr
    split_ifs at hr
    exact ⟨[], (Option.some.inj hr).symm⟩
  init := ⟨[], rfl⟩
  add i acc r hacc hr := by
    obtain ⟨l, rfl⟩ := hacc
    obtain ⟨l', rfl⟩ := hr
    exact ⟨some (l ++ l'), rfl, _, rfl⟩
  children a ha hstop := by
    have hne := (lastRules_searches R).stop_none.1 hstop
    obtain ⟨inst, hinst⟩ := (IR.Dict.mem_iff ..).1 ha.reached.known
    cases hq : R.queue a with
    | none =>
        refine ⟨a.outputs inst, ?_⟩
        rw [queue_of_lookup hinst hne] at hq
        simp only [lastRules, children, hinst, Option.bind_eq_bind, Option.bind_some, hq]
        rfl
    | some q =>
        obtain ⟨c, b, -, -, -, hchildren⟩ := h.children_queue ha hq
        exact ⟨[b], hchildren⟩
  finish a as acc ha hstop has hacc := by
    obtain ⟨l, rfl⟩ := hacc
    simp only [lastRules, Option.bind_some]
    cases hq : special R.graph a.node with
    | none => exact ⟨_, rfl, _, rfl⟩
    | some q =>
        simp only
        split_ifs
        · have hqueue := queue_of_special hq
          obtain ⟨c, b, hc, -⟩ := h.children_queue ha hqueue
          rw [h.oneChannel.channelOf_eq ha hqueue, hc]
          exact ⟨_, rfl, _, rfl⟩
        · exact ⟨_, rfl, _, rfl⟩

/-- A queue behind an entry is a last one of some path. -/
def LastFrom (R : Region) (a : Entry) (t : Triple) : Prop :=
  ∃ x, ReflTransGen R.Goes a x ∧ R.IsLast x t

/-- Induction along the paths. -/
theorem on_induction {C : Entry → Prop}
    (hstep : ∀ a, R.On a → (∀ b, R.Goes a b → C b) → C a) (ha : R.On a) : C a := by
  have hnode : ∀ k a, a.node = k → R.On a → C a := by
    intro k
    induction k using R.wellFounded.induction with
    | _ k ih =>
        rintro a rfl ha
        refine hstep a ha fun b hgoes => ih b.node ?_ b rfl (ha.tail hgoes)
        exact ⟨ha.reached.hops, (enters_of_goes hgoes).hop⟩
  exact hnode a.node a rfl ha

theorem LastFrom.head (hgoes : R.Goes a b) {t : Triple} (h : R.LastFrom b t) :
    R.LastFrom a t := by
  obtain ⟨x, hpath, hlast⟩ := h
  exact ⟨x, hpath.head hgoes, hlast⟩

theorem quiet_of_end (hq : R.queue a = none) (hend : ∀ b, ¬ R.Goes a b) : R.Quiet a :=
  ⟨a, .refl, hq, hend⟩

theorem Quiet.head (hq : R.queue a = none) (hgoes : R.Goes a b) (h : R.Quiet b) : R.Quiet a := by
  obtain ⟨c, hpath, hc⟩ := h
  exact ⟨c, hpath.head ⟨hq, hgoes⟩, hc⟩

/-- Behind an entry there is a last queue, or there is none on some path. -/
theorem Straight.quiet_or_last (h : R.Straight) (ha : R.On a) :
    R.Quiet a ∨ ∃ t, R.LastFrom a t := by
  refine on_induction (C := fun a => R.Quiet a ∨ ∃ t, R.LastFrom a t) (fun a ha ih => ?_) ha
  cases hq : R.queue a with
  | none =>
      by_cases hend : ∃ b, R.Goes a b
      · obtain ⟨b, hgoes⟩ := hend
        exact (ih b hgoes).imp (Quiet.head hq hgoes) fun ⟨t, ht⟩ => ⟨t, ht.head hgoes⟩
      · exact Or.inl (quiet_of_end hq fun b hb => hend ⟨b, hb⟩)
  | some q =>
      obtain ⟨c, b, hc, hgoes, hexits, -⟩ := h.children_queue ha hq
      refine Or.inr ?_
      rcases ih b hgoes with hquiet | ⟨t, ht⟩
      · refine ⟨(q, c, a.edge.map Prod.fst), a, .refl, hq, hc, rfl, fun d hd => ?_⟩
        have hdb := hd.2
        rw [hexits] at hdb
        rw [List.mem_singleton.1 hdb]
        exact hquiet
      · exact ⟨t, ht.head hgoes⟩

/-- An instance in front of a queue is the one that is passed on. -/
theorem OneChannel.prev_eq (h : R.OneChannel) (ha : R.On a) (hq : R.queue a = some q) :
    a.edge.map Prod.fst = a.prev := by
  rcases h.source ha hq with rfl | ⟨p, -, hgoes, hnone⟩
  · rfl
  · obtain ⟨-, -, -, -, out, port, -, heq⟩ := (enters_of_goes hgoes).outputs hnone
    rw [heq]
    rfl

theorem exits_nodup (hq : R.queue a = none) (hstop : a.node ≠ R.stop) : (R.exits a).Nodup := by
  rw [exits]
  cases hinst : R.graph.instances.lookup a.node with
  | none => exact List.nodup_nil
  | some inst =>
      have hspecial : inst.special = none := by rw [← queue_of_lookup hinst hstop, hq]
      simp only [hspecial]
      refine List.Nodup.of_map (fun b => (b.edge.map fun e => e.2.1).getD "") ?_
      rw [Entry.outputs, List.map_map]
      exact R.ports _ inst hinst

/-- The last queues behind two ports are different. -/
theorem lasts_disjoint (h : R.Straight) (ha : R.On a)
    (hq : R.queue a = none) {c : Entry} (hab : R.Goes a b) (hac : R.Goes a c) (hne : b ≠ c)
    {t : Triple} (hb : R.LastFrom b t) : ¬ R.LastFrom c t := by
  rintro ⟨y, hcy, hqy, hcy', hey, -⟩
  obtain ⟨x, hbx, hqx, hcx', hex, -⟩ := hb
  have hx : R.On x := (ha.tail hab).trans hbx
  have hy : R.On y := (ha.tail hac).trans hcy
  have hprev : x.prev = y.prev := by
    rw [← h.oneChannel.prev_eq hx hqx, ← h.oneChannel.prev_eq hy hqy, hex, hey]
  refine h.split a b c x y ha hq hab hac hne hbx hcy ?_ ?_
  · rw [hqx]
    exact Option.some_ne_none _
  · rw [h.port x y t.1 hx hy hqx hqy hprev]

section Lasts

variable {V : Option (List Triple) → Prop} {A : ℕ → Option (List Triple) → Prop}
  {t : Memo Entry String (Option (List Triple))}

/-- What is noted at an instance that is none of a queue. -/
theorem lasts_ordinary (h : R.Straight) (ha : R.On a) (hq : R.queue a = none) (hstop : a.node ≠ R.stop)
    (ih : ∀ b, R.Goes a b → (R.lastOf t.vis b).Nodup ∧
      ∀ x, x ∈ R.lastOf t.vis b ↔ R.LastFrom b x) :
    ((R.exits a).flatMap (R.lastOf t.vis)).Nodup ∧
      ∀ x, x ∈ (R.exits a).flatMap (R.lastOf t.vis) ↔ R.LastFrom a x := by
  constructor
  · refine List.nodup_flatMap.2 ⟨fun b hb => (ih b ⟨hstop, hb⟩).1, ?_⟩
    refine (exits_nodup hq hstop).pairwise_of_forall_ne fun b hb c hc hne x hxb hxc => ?_
    exact lasts_disjoint h ha hq ⟨hstop, hb⟩ ⟨hstop, hc⟩ hne
      (((ih b ⟨hstop, hb⟩).2 x).1 hxb) (((ih c ⟨hstop, hc⟩).2 x).1 hxc)
  · intro x
    rw [List.mem_flatMap]
    constructor
    · rintro ⟨b, hb, hx⟩
      exact (((ih b ⟨hstop, hb⟩).2 x).1 hx).head ⟨hstop, hb⟩
    · rintro ⟨y, hay, hlast⟩
      rcases ReflTransGen.cases_head hay with rfl | ⟨b, hgoes, hby⟩
      · rw [hlast.1] at hq
        cases hq
      · exact ⟨b, hgoes.2, ((ih b hgoes).2 x).2 ⟨y, hby, hlast⟩⟩

/-- What is noted at a queue. -/
theorem lasts_queue (h : R.Straight) (ha : R.On a) (hq : R.queue a = some q)
    (hgoes : R.Goes a b) {c : ℕ} (hc : R.channel a = some c)
    (ih : (R.lastOf t.vis b).Nodup ∧ ∀ x, x ∈ R.lastOf t.vis b ↔ R.LastFrom b x) :
    (if (R.lastOf t.vis b).length = 0 then [(q, c, a.prev)] else R.lastOf t.vis b).Nodup ∧
      ∀ x, x ∈ (if (R.lastOf t.vis b).length = 0 then [(q, c, a.prev)] else R.lastOf t.vis b) ↔
        R.LastFrom a x := by
  obtain ⟨-, -, -, hexits⟩ := exits_of_queue hq hgoes
  have honly : ∀ {d}, R.Goes a d → d = b := fun hd =>
    List.mem_singleton.1 (hexits ▸ hd.2)
  split_ifs with hnil
  · rw [List.length_eq_zero_iff] at hnil
    have hno : ∀ x, ¬ R.LastFrom b x := fun x hx => by
      have hmem := (ih.2 x).2 hx
      rw [hnil] at hmem
      cases hmem
    refine ⟨List.nodup_singleton _, fun x => ?_⟩
    rw [List.mem_singleton]
    constructor
    · rintro rfl
      refine ⟨a, .refl, hq, hc, h.oneChannel.prev_eq ha hq, fun d hd => ?_⟩
      obtain rfl := honly hd
      exact (h.quiet_or_last (ha.tail hd)).resolve_right fun ⟨x, hx⟩ => hno x hx
    · rintro ⟨y, hay, hlast⟩
      rcases ReflTransGen.cases_head hay with rfl | ⟨d, hd, hdy⟩
      · obtain ⟨hqx, hcx, hex, -⟩ := hlast
        rw [hq, Option.some.injEq] at hqx
        rw [hc, Option.some.injEq] at hcx
        rw [h.oneChannel.prev_eq ha hq] at hex
        rw [hqx, hcx, hex]
      · obtain rfl := honly hd
        exact absurd ⟨y, hdy, hlast⟩ (hno x)
  · refine ⟨ih.1, fun x => ?_⟩
    rw [ih.2]
    constructor
    · exact LastFrom.head hgoes
    · rintro ⟨y, hay, hlast⟩
      rcases ReflTransGen.cases_head hay with rfl | ⟨d, hd, hdy⟩
      · -- a path without a queue goes on from here, and one with a queue
        obtain ⟨-, -, -, hquiet⟩ := hlast
        obtain ⟨x', hx'⟩ := List.exists_mem_of_ne_nil _ (mt List.length_eq_zero_iff.2 hnil)
        obtain ⟨z, hbz, hqz, -⟩ := (ih.2 x').1 hx'
        rw [h.behind a b z ha (by rw [hq]; exact Option.some_ne_none q) hgoes (hquiet b hgoes)
          hbz] at hqz
        cases hqz
      · obtain rfl := honly hd
        exact ⟨y, hdy, hlast⟩

/-- **What the second search notes**: the last queues behind the entry, each once. -/
theorem lasts (h : R.Straight)
    (ht : (lastRules R.graph R.stop).Visited R.On V A (· = R.first) ⟨fun _ => none, []⟩ t)
    (hval : ∃ r, (lastRules R.graph R.stop).val t.vis R.start = some r) (ha : R.On a) :
    (lastRules R.graph R.stop).val t.vis a.node = some (some (R.lastOf t.vis a)) ∧
      (R.lastOf t.vis a).Nodup ∧ ∀ x, x ∈ R.lastOf t.vis a ↔ R.LastFrom a x := by
  have hof : ∀ {a l}, (lastRules R.graph R.stop).val t.vis a.node = some (some l) →
      R.lastOf t.vis a = l := fun hl => by rw [lastOf, hl]; rfl
  refine on_induction (C := fun a =>
    (lastRules R.graph R.stop).val t.vis a.node = some (some (R.lastOf t.vis a)) ∧
      (R.lastOf t.vis a).Nodup ∧ ∀ x, x ∈ R.lastOf t.vis a ↔ R.LastFrom a x)
    (fun a ha ih => ?_) ha
  by_cases hstop : a.node = R.stop
  · have hnil : (lastRules R.graph R.stop).val t.vis a.node = some (some []) := by
      simp [Rules.val, lastRules, hstop]
    rw [hof hnil]
    refine ⟨hnil, List.nodup_nil, fun x => ⟨fun hx => absurd hx List.not_mem_nil, ?_⟩⟩
    rintro ⟨y, hay, hlast⟩
    rcases ReflTransGen.cases_head hay with rfl | ⟨b, hgoes, -⟩
    · exact absurd hstop (queue_eq_some hlast.1).1
    · exact absurd hstop hgoes.1
  · obtain ⟨r, hr⟩ := (lastRules_searches R).noted h.oneChannel ht hval ha hstop
    obtain ⟨a', ha', hnode, acc, hfold, hfinish⟩ :=
      (lastRules_searches R).settled h.oneChannel ht ha hr
    obtain ⟨rfl, hvals⟩ := lastRules_fold hfold
    have hvis : (lastRules R.graph R.stop).val t.vis a.node = some r := by
      rw [Rules.val_of_stop_none (((lastRules_searches R).stop _).2 hstop), hr]
    simp only [lastRules, Option.bind_some, List.nil_append] at hfinish
    cases hq : R.queue a with
    | none =>
        have hspecial : special R.graph a'.node = none := by
          rw [hnode, ← hq, queue, if_neg hstop]
        rw [hspecial] at hfinish
        obtain rfl := Option.some.inj hfinish
        rw [hof hvis]
        exact ⟨hvis, lasts_ordinary h ha hq hstop fun b hb => (ih b hb).2⟩
    | some q =>
        obtain rfl : a' = a := h.entry_unique .refl ha' ha (by
          rw [queue, hnode, ← queue, hq]
          exact Option.some_ne_none q) hnode
        obtain ⟨c, b, hc, hgoes, hexits, -⟩ := h.children_queue ha hq
        rw [special_of_queue hq, hexits, List.flatMap_singleton] at hfinish
        simp only [h.oneChannel.channelOf_eq ha hq, hc, Option.map_some] at hfinish
        have hl := lasts_queue h ha hq hgoes hc (ih b hgoes).2
        rw [← apply_ite (fun l => some (some l)), Option.some.injEq] at hfinish
        rw [← hfinish] at hvis
        rw [hof hvis]
        exact ⟨hvis, hl⟩

end Lasts

/-- **The second search returns the last queues, each once.** -/
theorem Straight.last (h : R.Straight) :
    ∃ l, findLastQueue R.graph R.start R.stop = .ok (some l) ∧ l.Nodup ∧
      ∀ t, t ∈ l ↔ ∃ a, R.On a ∧ R.IsLast a t := by
  have hsettles : (lastRules R.graph R.stop).VisitSettles R.On (fun r => ∃ l, r = some l)
      (fun _ acc => ∃ l, acc = some l) ⟨fun _ => none, []⟩ R.first
      ((lastRules R.graph R.stop).visit (R.graph.instances.keys.length + 1) R.first
        ⟨fun _ => none, []⟩) :=
    Rules.visit_empty ((lastRules_searches R).walks h.oneChannel) .refl (Nat.lt_succ_self _)
  rw [findLastQueue, show (⟨R.start, none, none⟩ : Entry) = R.first from rfl]
  cases hvisit : (lastRules R.graph R.stop).visit (R.graph.instances.keys.length + 1) R.first
      ⟨fun _ => none, []⟩ with
  | error e =>
      rw [hvisit] at hsettles
      exact absurd (lastRules_total h) hsettles.2
  | ok result =>
      obtain ⟨r, t⟩ := result
      rw [hvisit] at hsettles
      obtain ⟨ht, hval, -⟩ := hsettles
      obtain ⟨hl, hnodup, hmem⟩ := lasts h ht ⟨r, hval⟩ (.refl : R.On R.first)
      obtain rfl : r = some (R.lastOf t.vis R.first) := Option.some.inj (hval.symm.trans hl)
      exact ⟨_, rfl, hnodup, fun x => hmem x⟩

/-- **Searches that are not led astray are right.** -/
theorem Straight.correct (h : R.Straight) : R.Correct where
  reach := h.oneChannel.reach.1
  fail := h.oneChannel.reach.2
  last := h.last

end Region
end Floem
