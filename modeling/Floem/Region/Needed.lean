import Mathlib
import Floem.Region.Follow

/-!
# Searches that are led astray

What the second search returns has every last queue once only where no instance leads to a
queue by two ports and no two ports lead to the same enqueue instance: the results of the
children are put together, also when one of them is a note.

* `Via` — where the second search goes.
* `Outcome` — it returns a list without duplicates.
* `Outcome.entry_unique`, `Outcome.port_unique` — then it enters every queue once.
* `Outcome.straight` — and follows the paths.
* `search_correct` — when the searches are right.
-/

namespace Floem

open Lib Relation
open IR (Dict)
open Enqueue (Queue Instance Graph)

namespace Region

variable {R : Region} {t : Memo Entry String (Option (List Triple))} {l : List Triple}
  {a b c d : Entry} {q : Queue}

/-- From an instance the second search goes on to a child of the entry it was noted for. -/
def Via (R : Region) (t : Memo Entry String (Option (List Triple))) (a b : Entry) : Prop :=
  ∃ x ∈ t.log, x.node = a.node ∧ (lastRules R.graph R.stop).Child x b

theorem hop_of_via (hab : R.Via t a b) : Hop R.graph R.stop a.node b.node := by
  obtain ⟨x, -, hnode, hchild⟩ := hab
  rw [← hnode]
  exact ((lastRules_searches R).enters hchild).hop

theorem hops_of_via (ha : ReflTransGen (R.Via t) R.first a) :
    ReflTransGen (Hop R.graph R.stop) R.start a.node :=
  ReflTransGen.lift Entry.node (fun _ _ => hop_of_via) _ _ ha

/-- The search does not come back. -/
theorem ne_of_via (ha : ReflTransGen (R.Via t) R.first a) (hab : TransGen (R.Via t) a b) :
    a.node ≠ b.node := by
  intro heq
  have hhops : TransGen (Hop R.graph R.stop) a.node b.node :=
    TransGen.lift Entry.node (fun _ _ => hop_of_via) _ _ hab
  exact R.acyclic _ (hops_of_via ha) (heq ▸ hhops)

/-- The second search has returned a list without duplicates. -/
structure Outcome (R : Region) (t : Memo Entry String (Option (List Triple))) (l : List Triple) :
    Prop where
  visited : (lastRules R.graph R.stop).Visited R.Reached (fun _ => True) (fun _ _ => True)
    (· = R.first) ⟨fun _ => none, []⟩ t
  val : (lastRules R.graph R.stop).val t.vis R.start = some (some l)
  nodup : l.Nodup

namespace Outcome

variable (h : R.Outcome t l)

include h

/-- At a noted instance an entry was noted. -/
theorem exists_log {k : String} {r : Option (List Triple)} (hr : t.vis k = some r) :
    ∃ a ∈ t.log, a.node = k := by
  obtain ⟨a, ha, hkey, -⟩ := ((h.visited.new k r hr).resolve_left (by simp)).1
  exact ⟨a, ha, hkey⟩

/-- What is noted for an entry. -/
theorem log_spec (ha : a ∈ t.log) : a.node ≠ R.stop ∧
    t.vis a.node = some (some (R.lastOf t.vis a)) ∧ ∃ as, children R.graph a = some as ∧
      (∀ b ∈ as, (lastRules R.graph R.stop).val t.vis b.node = some (some (R.lastOf t.vis b))) ∧
      (lastRules R.graph R.stop).finish a (some (as.flatMap (R.lastOf t.vis))) =
        some (some (R.lastOf t.vis a)) := by
  obtain ⟨r, hr⟩ := Option.ne_none_iff_exists'.1 (h.visited.neat.noted a ha)
  obtain ⟨b, hb, hkey, hstop, as, acc, has, hfold, hfinish⟩ :=
    ((h.visited.new _ r hr).resolve_left (by simp)).1
  obtain rfl := h.visited.neat.once b hb a ha hkey
  have hne := (lastRules_searches R).stop_none.1 hstop
  obtain ⟨rfl, hvals⟩ := lastRules_fold hfold
  rw [List.nil_append] at hfinish
  have hsome : ∃ l, r = some l := by
    simp only [lastRules, Option.bind_some] at hfinish
    cases hq : special R.graph b.node with
    | none =>
        rw [hq] at hfinish
        exact ⟨_, (Option.some.inj hfinish).symm⟩
    | some q =>
        simp only [hq] at hfinish
        split_ifs at hfinish
        · obtain ⟨c, -, hc⟩ := Option.map_eq_some_iff.1 hfinish
          exact ⟨_, hc.symm⟩
        · exact ⟨_, (Option.some.inj hfinish).symm⟩
  obtain ⟨l', rfl⟩ := hsome
  have hval : (lastRules R.graph R.stop).val t.vis b.node = some (some l') :=
    (Rules.val_of_stop_none hstop).trans hr
  have hl' : R.lastOf t.vis b = l' := by rw [lastOf, hval]; rfl
  rw [hl']
  exact ⟨hne, hr, as, has, hvals, hfinish⟩

/-- An instance that is none of a queue puts the results together. -/
theorem log_ordinary (ha : a ∈ t.log) (hq : R.queue a = none) : ∃ inst,
    R.graph.instances.lookup a.node = some inst ∧ children R.graph a = some (a.outputs inst) ∧
      R.lastOf t.vis a = (a.outputs inst).flatMap (R.lastOf t.vis) := by
  obtain ⟨hne, -, as, has, -, hfinish⟩ := h.log_spec ha
  obtain ⟨inst, hinst, -⟩ := Option.bind_eq_some_iff.1 has
  have hspecial : inst.special = none := by rw [← queue_of_lookup hinst hne, hq]
  have hchildren : children R.graph a = some (a.outputs inst) := by
    rw [children, hinst]
    simp only [Option.bind_eq_bind, Option.bind_some, hspecial]
    rfl
  obtain rfl : as = a.outputs inst := Option.some.inj (has.symm.trans hchildren)
  refine ⟨inst, hinst, hchildren, ?_⟩
  have hnone : special R.graph a.node = none := by rw [special, hinst, Option.bind_some, hspecial]
  simp only [lastRules, Option.bind_some, hnone, Option.some.injEq] at hfinish
  exact hfinish.symm

/-- A queue has the results behind the channel that is found, or the queue is the last one. -/
theorem log_queue (ha : a ∈ t.log) (hq : R.queue a = some q) : ∃ c b,
    channelOf R.graph q a.prev = some c ∧ onward R.graph q a.node c = some b ∧
      children R.graph a = some [b] ∧ R.lastOf t.vis a =
        if (R.lastOf t.vis b).length = 0 then [(q, c, a.prev)] else R.lastOf t.vis b := by
  obtain ⟨hne, -, as, has, -, hfinish⟩ := h.log_spec ha
  obtain ⟨-, inst, hinst, hspecial⟩ := queue_eq_some hq
  have has' := has
  rw [children, hinst] at has'
  simp only [Option.bind_eq_bind, Option.bind_some, hspecial] at has'
  obtain ⟨c, hc, has'⟩ := Option.bind_eq_some_iff.1 has'
  obtain ⟨b, hb, has'⟩ := Option.bind_eq_some_iff.1 has'
  obtain rfl := Option.some.inj has'
  refine ⟨c, b, hc, hb, has, ?_⟩
  have hsome : special R.graph a.node = some q := by rw [special, hinst, Option.bind_some, hspecial]
  simp only [lastRules, Option.bind_some, hsome, hc, Option.map_some, List.flatMap_singleton]
    at hfinish
  rw [← apply_ite (fun l => some (some l)), Option.some.injEq, Option.some.injEq] at hfinish
  exact hfinish.symm

/-- A queue has a result. -/
theorem last_ne_nil (ha : a ∈ t.log) (hq : R.queue a = some q) : R.lastOf t.vis a ≠ [] := by
  obtain ⟨c, b, -, -, -, hl⟩ := h.log_queue ha hq
  rw [hl]
  split_ifs with hnil
  · exact List.cons_ne_nil _ _
  · exact mt List.length_eq_zero_iff.2 hnil

/-- Only the queue is the last one, or it is none. -/
theorem lastOf_of_via (hab : R.Via t a b) :
    (∀ x ∈ R.lastOf t.vis b, x ∈ R.lastOf t.vis a) ∧
      ((R.lastOf t.vis a).Nodup → (R.lastOf t.vis b).Nodup) := by
  obtain ⟨x, hx, hnode, hstop, as, has, hb⟩ := hab
  have hsame : R.lastOf t.vis a = R.lastOf t.vis x := by rw [lastOf, lastOf, hnode]
  rw [hsame]
  cases hq : R.queue x with
  | none =>
      obtain ⟨inst, -, hchildren, hl⟩ := h.log_ordinary hx hq
      obtain rfl : as = x.outputs inst := Option.some.inj (has.symm.trans hchildren)
      rw [hl]
      exact ⟨fun y hy => List.mem_flatMap.2 ⟨b, hb, hy⟩,
        fun hnodup => (List.nodup_flatMap.1 hnodup).1 b hb⟩
  | some q =>
      obtain ⟨c, b', -, -, hchildren, hl⟩ := h.log_queue hx hq
      obtain rfl : as = [b'] := Option.some.inj (has.symm.trans hchildren)
      obtain rfl := List.mem_singleton.1 hb
      rw [hl]
      split_ifs with hnil
      · rw [List.length_eq_zero_iff.1 hnil]
        exact ⟨fun y hy => absurd hy List.not_mem_nil, fun _ => List.nodup_nil⟩
      · exact ⟨fun _ hy => hy, fun hnodup => hnodup⟩

/-- Everything on the way is returned, once. -/
theorem lastOf_of_path (hpath : ReflTransGen (R.Via t) a b) :
    (∀ x ∈ R.lastOf t.vis b, x ∈ R.lastOf t.vis a) ∧
      ((R.lastOf t.vis a).Nodup → (R.lastOf t.vis b).Nodup) := by
  induction hpath with
  | refl => exact ⟨fun _ hx => hx, fun hnodup => hnodup⟩
  | tail _ hvia ih =>
      have hstep := h.lastOf_of_via hvia
      exact ⟨fun x hx => ih.1 x (hstep.1 x hx), fun hnodup => hstep.2 (ih.2 hnodup)⟩

theorem lastOf_first : R.lastOf t.vis R.first = l := by
  rw [lastOf, show R.first.node = R.start from rfl, h.val]
  rfl

/-- From the start the second search goes to the entries that are noted. -/
theorem via_of_log (ha : a ∈ t.log) : ReflTransGen (R.Via t) R.first a := by
  obtain hnil | ⟨b, rfl, hpath⟩ := h.visited.origin a ha
  · cases hnil
  · exact ReflTransGen.mono (fun x _ hstep => ⟨x, hstep.1, rfl, hstep.2⟩) _ _ hpath

/-- Where the search goes, it notes something. -/
theorem log_of_via (ha : ReflTransGen (R.Via t) R.first a) (hstop : a.node ≠ R.stop) :
    ∃ b ∈ t.log, b.node = a.node := by
  have hval : ∃ r, (lastRules R.graph R.stop).val t.vis a.node = some r := by
    rcases ReflTransGen.cases_tail ha with rfl | ⟨x, -, y, hy, -, -, as, has, hmem⟩
    · exact ⟨_, h.val⟩
    · obtain ⟨-, -, as', has', hvals, -⟩ := h.log_spec hy
      obtain rfl : as = as' := Option.some.inj (has.symm.trans has')
      exact ⟨_, hvals a hmem⟩
  obtain ⟨r, hr⟩ := hval
  rw [Rules.val_of_stop_none (((lastRules_searches R).stop _).2 hstop)] at hr
  exact h.exists_log hr

/-- The results behind two ports are different. -/
theorem lastOf_disjoint (hq : R.queue a = none) (hab : R.Via t a b) (hac : R.Via t a c) (hne : b ≠ c)
    {x : Triple}
    (hb : x ∈ R.lastOf t.vis b) : x ∉ R.lastOf t.vis c := by
  obtain ⟨y, hy, hynode, -, as, has, hbmem⟩ := hab
  obtain ⟨z, hz, hznode, -, bs, hbs, hcmem⟩ := hac
  obtain rfl := h.visited.neat.once z hz y hy (hznode.trans hynode.symm)
  obtain rfl : as = bs := Option.some.inj (has.symm.trans hbs)
  have hqz : R.queue z = none := by rw [queue, hznode, ← queue, hq]
  obtain ⟨inst, -, hchildren, hl⟩ := h.log_ordinary hz hqz
  obtain rfl : as = z.outputs inst := Option.some.inj (has.symm.trans hchildren)
  have hnodup : (R.lastOf t.vis z).Nodup :=
    (h.lastOf_of_path (h.via_of_log hz)).2 (by rw [h.lastOf_first]; exact h.nodup)
  rw [hl] at hnodup
  have hpair := (List.nodup_flatMap.1 hnodup).2
  have : Std.Symm (Function.onFun List.Disjoint (R.lastOf t.vis)) :=
    ⟨fun _ _ hd => List.Disjoint.symm hd⟩
  exact hpair.forall hbmem hcmem hne hb

/-- A queue that the search comes to has a result. -/
theorem lastOf_ne_nil (ha : ReflTransGen (R.Via t) R.first a) (hq : R.queue a = some q) :
    R.lastOf t.vis a ≠ [] := by
  obtain ⟨b, hb, hnode⟩ := h.log_of_via ha (queue_eq_some hq).1
  have hsame : R.lastOf t.vis a = R.lastOf t.vis b := by rw [lastOf, lastOf, hnode]
  rw [hsame]
  exact h.last_ne_nil hb (by rw [queue, hnode, ← queue, hq])

/-- Two ports do not lead to the same queue. -/
theorem split {x y : Entry} (ha : ReflTransGen (R.Via t) R.first a) (hq : R.queue a = none)
    (hab : R.Via t a b) (hac : R.Via t a c) (hne : b ≠ c) (hbx : ReflTransGen (R.Via t) b x)
    (hcy : ReflTransGen (R.Via t) c y) (hx : R.queue x = some q) : x.node ≠ y.node := by
  intro hnode
  obtain ⟨z, hz⟩ := List.exists_mem_of_ne_nil _ (h.lastOf_ne_nil (ha.trans (hbx.head hab)) hx)
  have hsame : R.lastOf t.vis x = R.lastOf t.vis y := by rw [lastOf, lastOf, hnode]
  exact h.lastOf_disjoint hq hab hac hne ((h.lastOf_of_path hbx).1 z hz)
    ((h.lastOf_of_path hcy).1 z (hsame ▸ hz))

/-- **The search enters an enqueue instance once.** -/
theorem entry_unique {x : Entry} (hx : ReflTransGen (R.Via t) R.first x)
    (hxa : ReflTransGen (R.Via t) x a) (hxb : ReflTransGen (R.Via t) x b)
    (hq : R.queue a = some q) (hnode : a.node = b.node) : a = b := by
  induction hxa using ReflTransGen.head_induction_on with
  | refl =>
      obtain rfl | hpath := reflTransGen_iff_eq_or_transGen.1 hxb
      · rfl
      · exact absurd hnode (ne_of_via hx hpath)
  | head hxy hya ih =>
      rename_i x y
      rcases ReflTransGen.cases_head hxb with rfl | ⟨z, hxz, hzb⟩
      · exact absurd hnode.symm (ne_of_via hx (.head' hxy hya))
      · obtain rfl : y = z := by
          by_contra hne
          cases hqx : R.queue x with
          | none => exact h.split hx hqx hxy hxz hne hya hzb hq hnode
          | some q' =>
              obtain ⟨v, hv, hvnode, -, as, has, hy⟩ := hxy
              obtain ⟨w, hw, hwnode, -, bs, hbs, hz⟩ := hxz
              obtain rfl := h.visited.neat.once w hw v hv (hwnode.trans hvnode.symm)
              obtain rfl : as = bs := Option.some.inj (has.symm.trans hbs)
              obtain ⟨-, b', -, -, hchildren, -⟩ :=
                h.log_queue (q := q') hv (by rw [queue, hvnode, ← queue, hqx])
              obtain rfl : as = [b'] := Option.some.inj (has.symm.trans hchildren)
              exact hne ((List.mem_singleton.1 hy).trans (List.mem_singleton.1 hz).symm)
        exact ih (hx.tail hxy) hzb

/-- A queue that the search comes to is noted for the entry it comes with. -/
theorem mem_log (ha : ReflTransGen (R.Via t) R.first a) (hq : R.queue a = some q) :
    a ∈ t.log := by
  obtain ⟨b, hb, hnode⟩ := h.log_of_via ha (queue_eq_some hq).1
  rwa [h.entry_unique .refl ha (h.via_of_log hb) hq hnode.symm]

/-! ## The channels -/

/-- **An instance leads to a queue by one port.** -/
theorem port_unique {inst : Instance} (hd : d ∈ t.log) (hqd : R.queue d = none)
    (hstop : d.node ≠ R.stop) (hchildren : children R.graph d = some (d.outputs inst))
    (ha : a ∈ d.outputs inst) (hb : b ∈ d.outputs inst) (hqa : R.queue a = some q)
    (hqb : R.queue b = some q) : a = b := by
  have hvia : ∀ x ∈ d.outputs inst, R.Via t d x := fun x hx =>
    ⟨d, hd, rfl, (lastRules_searches R).stop_none.2 hstop, _, hchildren, hx⟩
  have hprev : ∀ x ∈ d.outputs inst, x.prev = some d.node := fun x hx =>
    (enters_of_children hstop hchildren hx).prev
  have hpath : ∀ x ∈ d.outputs inst, ReflTransGen (R.Via t) R.first x := fun x hx =>
    (h.via_of_log hd).tail (hvia x hx)
  obtain ⟨c, x, hc, hx, -, hla⟩ := h.log_queue (h.mem_log (hpath a ha) hqa) hqa
  obtain ⟨c', y, hc', hy, -, hlb⟩ := h.log_queue (h.mem_log (hpath b hb) hqb) hqb
  rw [hprev a ha] at hc hla
  rw [hprev b hb] at hc' hlb
  obtain rfl : c = c' := Option.some.inj (hc.symm.trans hc')
  -- both go on at the same instance, and so they have the same result
  have hsame : R.lastOf t.vis a = R.lastOf t.vis b := by
    have hxy : R.lastOf t.vis x = R.lastOf t.vis y := by
      rw [lastOf, lastOf, onward_node hx hy]
    rw [hla, hlb, hxy]
  by_contra hne
  obtain ⟨z, hz⟩ := List.exists_mem_of_ne_nil _ (h.lastOf_ne_nil (hpath a ha) hqa)
  exact h.lastOf_disjoint hqd (hvia a ha) (hvia b hb) hne hz (hsame ▸ hz)

/-- An entry with an instance in front that is none of a queue. -/
theorem source (hb : R.queue b = none) (hvia : ReflTransGen (R.Via t) R.first b)
    (hgoes : R.Goes b a) : ∃ d ∈ t.log, R.queue d = none ∧ ∃ inst, R.graph.instances.lookup d.node = some inst ∧
      children R.graph d = some (d.outputs inst) ∧ d.node ≠ R.stop ∧ a ∈ d.outputs inst ∧
      a.prev = some d.node ∧ ∃ out port, a.edge = some (d.node, out, port) := by
  obtain ⟨d, hd, hnode⟩ := h.log_of_via hvia hgoes.1
  have hqd : R.queue d = none := by rw [queue, hnode, ← queue, hb]
  obtain ⟨inst, hinst, hchildren, -⟩ := h.log_ordinary hd hqd
  obtain ⟨inst', hinst', -, hmem, out, port, -, heq⟩ := (enters_of_goes hgoes).outputs hb
  rw [← hnode] at hinst'
  obtain rfl : inst = inst' := Option.some.inj (hinst.symm.trans hinst')
  have houtputs : d.outputs inst = b.outputs inst := by rw [Entry.outputs, Entry.outputs, hnode]
  refine ⟨d, hd, hqd, inst, hinst, hchildren, hnode ▸ hgoes.1, houtputs ▸ hmem, ?_, out, port, ?_⟩
  · rw [hnode]
    exact (enters_of_goes hgoes).prev
  · rw [heq, hnode]

/-- **The channel that is found is the one the queue is entered by.** -/
theorem channelOf_log (ha : a ∈ t.log) (hq : R.queue a = some q) (hb : R.queue b = none)
    (hvia : ReflTransGen (R.Via t) R.first b) (hgoes : R.Goes b a) :
    channelOf R.graph q a.prev = R.channel a := by
  obtain ⟨c, -, hc, -⟩ := h.log_queue ha hq
  obtain ⟨d, hd, hqd, inst, hinst, hchildren, hstop, hmem, hprev, out, port, hedge⟩ :=
    h.source hb hvia hgoes
  have hsome := special_of_queue hq
  have hfound := hc
  rw [hprev] at hfound
  obtain ⟨port', out', v, hv, hmem', hport⟩ := channelOf_eq_some hinst hfound
  have hqv : R.queue ⟨v, some d.node, some (d.node, out', port')⟩ = some q :=
    queue_of_special (R.enqs q a.node hsome v hv)
  have hone := h.port_unique hd hqd hstop hchildren hmem (List.mem_map.2 ⟨_, hmem', rfl⟩) hq hqv
  rw [hc, channel_eq hsome hedge, if_pos (by rw [hone]; exact hv)]
  rw [hone, Option.some.injEq, Prod.mk.injEq, Prod.mk.injEq] at hedge
  rw [← hedge.2.2, hport]

/-! ## The paths -/

/-- Where a path goes on behind an instance that is none of a queue, the search does. -/
theorem via_of_goes (ha : ReflTransGen (R.Via t) R.first a) (hq : R.queue a = none)
    (hab : R.Goes a b) : R.Via t a b := by
  obtain ⟨x, hx, hnode⟩ := h.log_of_via ha hab.1
  obtain ⟨inst, hinst, hchildren, -⟩ := h.log_ordinary hx (by rw [queue, hnode, ← queue, hq])
  obtain ⟨inst', hinst', -, hb, -⟩ := (enters_of_goes hab).outputs hq
  rw [hnode] at hinst
  obtain rfl : inst = inst' := Option.some.inj (hinst.symm.trans hinst')
  have houtputs : x.outputs inst = a.outputs inst := by rw [Entry.outputs, Entry.outputs, hnode]
  refine ⟨x, hx, hnode, (lastRules_searches R).stop_none.2 (hnode ▸ hab.1), _, hchildren, ?_⟩
  rw [houtputs]
  exact hb

/-- Where the channel is found, the search goes on behind it. -/
theorem goes_of_channelOf (ha : a ∈ t.log) (hq : R.queue a = some q)
    (hchannel : channelOf R.graph q a.prev = R.channel a) :
    ∃ b, R.Goes a b ∧ R.Via t a b ∧ R.exits a = [b] := by
  obtain ⟨c, x, hc, hx, hchildren, -⟩ := h.log_queue ha hq
  obtain ⟨hstop, inst, hinst, hspecial⟩ := queue_eq_some hq
  have hexits : R.exits a = [x] := by
    rw [exits, hinst]
    simp only [hspecial, ← hchannel, hc, Option.bind_some, hx, Option.toList_some]
  exact ⟨x, ⟨hstop, by rw [hexits]; exact List.mem_singleton_self x⟩,
    ⟨a, ha, rfl, (lastRules_searches R).stop_none.2 hstop, _, hchildren,
      List.mem_singleton_self x⟩, hexits⟩

/-- A result comes from a queue behind which there is none. -/
theorem exists_last {x : Triple} (ha : ReflTransGen (R.Via t) R.first a)
    (hx : x ∈ R.lastOf t.vis a) : ∃ b c, onward R.graph x.1 b x.2.1 = some c ∧
      R.lastOf t.vis c = [] := by
  have hnode : ∀ k a, a.node = k → ReflTransGen (R.Via t) R.first a → x ∈ R.lastOf t.vis a →
      ∃ b c, onward R.graph x.1 b x.2.1 = some c ∧ R.lastOf t.vis c = [] := by
    intro k
    induction k using R.wellFounded.induction with
    | _ k ih =>
        rintro a rfl ha hx
        have hstop : a.node ≠ R.stop := fun heq => by
          have hnil : R.lastOf t.vis a = [] := by simp [lastOf, Rules.val, lastRules, heq]
          rw [hnil] at hx
          cases hx
        have hnext : ∀ c, R.Via t a c → x ∈ R.lastOf t.vis c →
            ∃ b c, onward R.graph x.1 b x.2.1 = some c ∧ R.lastOf t.vis c = [] := fun c hc hxc =>
          ih c.node ⟨hops_of_via ha, hop_of_via hc⟩ c rfl (ha.tail hc) hxc
        obtain ⟨b, hb, hbnode⟩ := h.log_of_via ha hstop
        have hbstop : (lastRules R.graph R.stop).stop b.node = none :=
          (lastRules_searches R).stop_none.2 (hbnode ▸ hstop)
        have hsame : R.lastOf t.vis a = R.lastOf t.vis b := by rw [lastOf, lastOf, hbnode]
        rw [hsame] at hx
        cases hq : R.queue b with
        | none =>
            obtain ⟨inst, -, hchildren, hl⟩ := h.log_ordinary hb hq
            rw [hl] at hx
            obtain ⟨c, hc, hx⟩ := List.mem_flatMap.1 hx
            exact hnext c ⟨b, hb, hbnode, hbstop, _, hchildren, hc⟩ hx
        | some q =>
            obtain ⟨i, c, -, honward, hchildren, hl⟩ := h.log_queue hb hq
            rw [hl] at hx
            split_ifs at hx with hnil
            · obtain rfl := List.mem_singleton.1 hx
              exact ⟨b.node, c, honward, List.length_eq_zero_iff.1 hnil⟩
            · exact hnext c ⟨b, hb, hbnode, hbstop, _, hchildren, List.mem_singleton_self c⟩ hx
  exact hnode a.node a rfl ha hx

section Detached

variable (hdetached : R.Detached)

include hdetached

/-- No queue is directly behind another one: for its channel there would be an instance looked
for that is none of those in front. -/
theorem apart (ha : R.On a) (hvia : ReflTransGen (R.Via t) R.first b) (hgoes : R.Goes a b)
    (hq : R.queue b = some q) : R.queue a = none := by
  by_contra hqa
  obtain ⟨c, -, hc, -⟩ := h.log_queue (h.mem_log hvia hq) hq
  obtain ⟨-, inst, hinst, -⟩ := queue_eq_some (Option.ne_none_iff_exists'.1 hqa).choose_spec
  rw [(enters_of_goes hgoes).prev] at hc
  obtain ⟨port, out, v, hv, hmem, -⟩ := channelOf_eq_some hinst hc
  exact hdetached a b q ha hgoes hqa hq inst hinst v (List.mem_map.2 ⟨_, hmem, rfl⟩) hv

/-- A queue on a path is entered from an instance that is none of a queue. -/
theorem front (ha : R.On a) (hq : R.queue a = some q) (hvia : ReflTransGen (R.Via t) R.first a) :
    ∃ b, R.On b ∧ R.Goes b a ∧ R.queue b = none := by
  obtain ⟨c, -, hc, -⟩ := h.log_queue (h.mem_log hvia hq) hq
  rcases ReflTransGen.cases_tail ha with rfl | ⟨b, hb, hgoes⟩
  · rw [first, channelOf_none] at hc
    cases hc
  · exact ⟨b, hb, hgoes, h.apart hdetached hb hvia hgoes hq⟩

/-- **The search goes where the paths go**, and finds the channels they enter queues by. -/
theorem on_via (ha : R.On a) : ReflTransGen (R.Via t) R.first a ∧
    ∀ q, R.queue a = some q → channelOf R.graph q a.prev = R.channel a := by
  induction ha with
  | refl =>
      refine ⟨.refl, fun q hq => ?_⟩
      obtain ⟨c, -, hc, -⟩ := h.log_queue (h.mem_log .refl hq) hq
      rw [first, channelOf_none] at hc
      cases hc
  | tail hp hgoes ih =>
      rename_i p a
      have hvia : R.Via t p a := by
        cases hq : R.queue p with
        | none => exact h.via_of_goes ih.1 hq hgoes
        | some q =>
            obtain ⟨b, -, hvia, hexits⟩ := h.goes_of_channelOf (h.mem_log ih.1 hq) hq (ih.2 q hq)
            have hmem := hgoes.2
            rw [hexits] at hmem
            rwa [List.mem_singleton.1 hmem]
      refine ⟨ih.1.tail hvia, fun q hq => ?_⟩
      have hq' := h.apart hdetached hp (ih.1.tail hvia) hgoes hq
      exact h.channelOf_log (h.mem_log (ih.1.tail hvia) hq) hq hq' ih.1 hgoes

theorem via_of_path (ha : R.On a) (hab : ReflTransGen R.Goes a b) :
    ReflTransGen (R.Via t) a b := by
  induction hab with
  | refl => exact .refl
  | tail hpath hgoes ih =>
      rename_i b c
      have hon : R.On b := ha.trans hpath
      refine ih.tail ?_
      cases hq : R.queue b with
      | none => exact h.via_of_goes (h.on_via hdetached hon).1 hq hgoes
      | some q =>
          obtain ⟨hvia, hchannel⟩ := h.on_via hdetached hon
          obtain ⟨d, -, hd, hexits⟩ := h.goes_of_channelOf (h.mem_log hvia hq) hq (hchannel q hq)
          have hmem := hgoes.2
          rw [hexits] at hmem
          rwa [List.mem_singleton.1 hmem]

/-- Two entries of a queue from one instance are one. -/
theorem on_port_unique (ha : R.On a) (hb : R.On b) (hqa : R.queue a = some q)
    (hqb : R.queue b = some q) (hprev : a.prev = b.prev) : a = b := by
  have hvia := (h.on_via hdetached ha).1
  have hvib := (h.on_via hdetached hb).1
  obtain ⟨x, hx, hxa, hqx⟩ := h.front hdetached ha hqa hvia
  obtain ⟨y, hy, hyb, hqy⟩ := h.front hdetached hb hqb hvib
  obtain ⟨d, hd, hqd, inst, hinst, hchildren, hstop, hmem, hprev', -⟩ :=
    h.source hqx (h.on_via hdetached hx).1 hxa
  obtain ⟨d', hd', -, inst', hinst', -, -, hmem', hprev'', -⟩ :=
    h.source hqy (h.on_via hdetached hy).1 hyb
  rw [hprev', hprev''] at hprev
  obtain rfl := h.visited.neat.once d hd d' hd' (Option.some.inj hprev)
  obtain rfl : inst = inst' := Option.some.inj (hinst.symm.trans hinst')
  exact h.port_unique hd hqd hstop hchildren hmem hmem' hqa hqb

/-- **A search that is right is not led astray.** -/
theorem straight (hl : ∀ x, x ∈ l ↔ ∃ a, R.On a ∧ R.IsLast a x) : R.Straight where
  apart a b ha hgoes hqb := by
    obtain ⟨q, hq⟩ := Option.ne_none_iff_exists'.1 hqb
    exact h.apart hdetached ha (h.on_via hdetached (ha.tail hgoes)).1 hgoes hq
  goesOn a ha hqa := by
    obtain ⟨q, hq⟩ := Option.ne_none_iff_exists'.1 hqa
    obtain ⟨hvia, hchannel⟩ := h.on_via hdetached ha
    obtain ⟨b, hgoes, -⟩ := h.goes_of_channelOf (h.mem_log hvia hq) hq (hchannel q hq)
    exact ⟨b, hgoes⟩
  port a b q ha hb hqa hqb hprev := h.on_port_unique hdetached ha hb hqa hqb hprev
  split a b c x y ha hq hab hac hne hbx hcy hqx := by
    obtain ⟨q, hqx⟩ := Option.ne_none_iff_exists'.1 hqx
    have hvia := (h.on_via hdetached ha).1
    exact h.split hvia hq (h.via_of_goes hvia hq hab) (h.via_of_goes hvia hq hac) hne
      (h.via_of_path hdetached (ha.tail hab) hbx) (h.via_of_path hdetached (ha.tail hac) hcy) hqx
  behind a b x ha hqa hgoes hquiet hbx := by
    obtain ⟨q, hqa⟩ := Option.ne_none_iff_exists'.1 hqa
    obtain ⟨c, hc, honward, hexits⟩ := exits_of_queue hqa hgoes
    -- the queue is the last one of a path, and so there is no result behind its channel
    have hlast : (q, c, a.edge.map Prod.fst) ∈ R.lastOf t.vis R.first := by
      rw [h.lastOf_first]
      refine (hl _).2 ⟨a, ha, hqa, hc, rfl, fun d hd => ?_⟩
      have hmem := hd.2
      rw [hexits] at hmem
      rwa [List.mem_singleton.1 hmem]
    obtain ⟨n, d, hd, hnil⟩ := h.exists_last .refl hlast
    have hsame : R.lastOf t.vis b = R.lastOf t.vis d := by
      rw [lastOf, lastOf, onward_node honward hd]
    by_contra hqx
    obtain ⟨q', hqx⟩ := Option.ne_none_iff_exists'.1 hqx
    have hb := (h.on_via hdetached (ha.tail hgoes)).1
    have hvia := h.via_of_path hdetached (ha.tail hgoes) hbx
    obtain ⟨z, hz⟩ := List.exists_mem_of_ne_nil _ (h.lastOf_ne_nil (hb.trans hvia) hqx)
    have hmem := (h.lastOf_of_path hvia).1 z hz
    rw [hsame, hnil] at hmem
    cases hmem

end Detached

end Outcome

/-- **Searches that are right are not led astray.** -/
theorem Correct.straight (h : R.Correct) (hdetached : R.Detached) : R.Straight := by
  obtain ⟨l, hfind, hnodup, hl⟩ := h.last
  have hwalks : (lastRules R.graph R.stop).Walks R.Reached (Hop R.graph R.stop)
      R.graph.instances.keys :=
    ⟨fun a b ha hchild => ⟨ha.tail ((lastRules_searches R).enters hchild),
      ((lastRules_searches R).enters hchild).hop⟩, fun a ha => ha.acyclic, fun a ha => ha.known⟩
  have hsettles : (lastRules R.graph R.stop).VisitSettles R.Reached (fun _ => True)
      (fun _ _ => True) ⟨fun _ => none, []⟩ R.first
      ((lastRules R.graph R.stop).visit (R.graph.instances.keys.length + 1) R.first
        ⟨fun _ => none, []⟩) :=
    Rules.visit_empty hwalks .refl (Nat.lt_succ_self _)
  rw [findLastQueue, show (⟨R.start, none, none⟩ : Entry) = R.first from rfl] at hfind
  cases hvisit : (lastRules R.graph R.stop).visit (R.graph.instances.keys.length + 1) R.first
      ⟨fun _ => none, []⟩ with
  | error e =>
      rw [hvisit] at hfind
      cases hfind
  | ok result =>
      obtain ⟨r, t⟩ := result
      rw [hvisit] at hfind hsettles
      obtain ⟨ht, hval, -⟩ := hsettles
      obtain rfl : r = some l := Except.ok.inj hfind
      have hout : R.Outcome t l := ⟨ht, hval, hnodup⟩
      exact hout.straight hdetached hl

/-! ## Regions from graphs -/

/-- What is written down at an input port. -/
def inputsAt (g : Graph) (v port : String) : List (String × String) :=
  ((g.instances.lookup v).bind fun inst => inst.input2ele.lookup port).getD []

/-- What is written down at the output ports. -/
def outputsAt (g : Graph) (u : String) : List (String × String × String) :=
  ((g.instances.lookup u).map Instance.output2ele).getD []

/-- The instances behind an instance, or behind its queue. -/
def behind (g : Graph) (inst : Instance) : List String :=
  match inst.special with
  | none => inst.nexts
  | some q => ((g.instances.lookup q.deq).map Instance.nexts).getD []

/-- The conditions on a region, to be tested entry by entry; the rank grows along the ways. -/
structure Checks (g : Graph) (start stop : String) (rank : String → ℕ) : Prop where
  known : start ∈ g.instances
  plain : special g stop = none
  ports : ∀ e ∈ g.instances.entries, (e.2.output2ele.map Prod.fst).Nodup
  outputs : ∀ e ∈ g.instances.entries, ∀ x ∈ e.2.output2ele, (e.1, x.1) ∈ inputsAt g x.2.1 x.2.2
  inputs : ∀ e ∈ g.instances.entries, ∀ p ∈ e.2.input2ele.entries, ∀ x ∈ p.2,
    (x.2, e.1, p.1) ∈ outputsAt g x.1
  enqs : ∀ e ∈ g.instances.entries, ∀ n ∈ (e.2.special.map Queue.enq).getD [],
    special g n = e.2.special
  ranks : ∀ e ∈ g.instances.entries, e.1 = stop ∨ ∀ y ∈ behind g e.2, rank e.1 < rank y

instance (g : Graph) (start stop : String) (rank : String → ℕ) :
    Decidable (Checks g start stop rank) :=
  decidable_of_iff
    (start ∈ g.instances ∧ special g stop = none ∧ ∀ e ∈ g.instances.entries,
      (e.2.output2ele.map Prod.fst).Nodup ∧
      (∀ x ∈ e.2.output2ele, (e.1, x.1) ∈ inputsAt g x.2.1 x.2.2) ∧
      (∀ p ∈ e.2.input2ele.entries, ∀ x ∈ p.2, (x.2, e.1, p.1) ∈ outputsAt g x.1) ∧
      (∀ n ∈ (e.2.special.map Queue.enq).getD [], special g n = e.2.special) ∧
      (e.1 = stop ∨ ∀ y ∈ behind g e.2, rank e.1 < rank y))
    ⟨fun ⟨h₁, h₂, h⟩ => ⟨h₁, h₂, fun e he => (h e he).1, fun e he => (h e he).2.1,
        fun e he => (h e he).2.2.1, fun e he => (h e he).2.2.2.1, fun e he => (h e he).2.2.2.2⟩,
      fun h => ⟨h.known, h.plain, fun e he => ⟨h.ports e he, h.outputs e he, h.inputs e he,
        h.enqs e he, h.ranks e he⟩⟩⟩

theorem Checks.rank_lt {g : Graph} {start stop : String} {rank : String → ℕ}
    (h : Checks g start stop rank) {x y : String} (hxy : TransGen (Hop g stop) x y) :
    rank x < rank y := by
  have hhop : ∀ {x y}, Hop g stop x y → rank x < rank y := by
    rintro x y ⟨hstop, inst, hinst, hy⟩
    refine (h.ranks ⟨x, inst⟩ (AList.mem_lookup_iff.1 hinst)).resolve_left hstop y ?_
    rw [behind]
    cases hq : inst.special with
    | none =>
        rw [hq] at hy
        exact hy
    | some q =>
        rw [hq] at hy
        obtain ⟨deq, hdeq, hy⟩ := hy
        simp only [hdeq, Option.map_some, Option.getD_some]
        exact hy
  induction hxy with
  | single hxy => exact hhop hxy
  | tail _ hyz ih => exact ih.trans (hhop hyz)

/-- A graph that passes the checks. -/
def ofChecks {g : Graph} {start stop : String} {rank : String → ℕ}
    (h : Checks g start stop rank) : Region where
  graph := g
  start := start
  stop := stop
  known := h.known
  plain := h.plain
  ports u inst hinst := h.ports ⟨u, inst⟩ (AList.mem_lookup_iff.1 hinst)
  wired u inst hinst out v port := by
    constructor
    · intro hmem
      have hin := h.outputs ⟨u, inst⟩ (AList.mem_lookup_iff.1 hinst) _ hmem
      rw [inputsAt] at hin
      cases hl : (g.instances.lookup v).bind fun inst => inst.input2ele.lookup port with
      | none =>
          rw [hl] at hin
          cases hin
      | some l =>
          rw [hl] at hin
          obtain ⟨inst', hinst', hl⟩ := Option.bind_eq_some_iff.1 hl
          exact ⟨inst', hinst', l, hl, hin⟩
    · rintro ⟨inst', hinst', l, hl, hmem⟩
      have hout := h.inputs ⟨v, inst'⟩ (AList.mem_lookup_iff.1 hinst') ⟨port, l⟩
        (AList.mem_lookup_iff.1 hl) _ hmem
      rw [outputsAt, hinst] at hout
      exact hout
  enqs q u hq e he := by
    obtain ⟨inst, hinst, hspecial⟩ := Option.bind_eq_some_iff.1 hq
    have hsame := h.enqs ⟨u, inst⟩ (AList.mem_lookup_iff.1 hinst) e (by rw [hspecial]; exact he)
    exact hsame.trans hspecial
  acyclic x _ hcycle := Nat.lt_irrefl _ (h.rank_lt hcycle)

/-- Entries that are closed under the exits. -/
theorem on_of_closed {S : List Entry} (hfirst : R.first ∈ S)
    (hexits : ∀ a ∈ S, a.node = R.stop ∨ ∀ b ∈ R.exits a, b ∈ S) (ha : R.On a) : a ∈ S := by
  induction ha with
  | refl => exact hfirst
  | tail _ hgoes ih => exact (hexits _ ih).resolve_left hgoes.1 _ hgoes.2

/-- **When the searches are right.** -/
theorem search_correct (R : Region) :
    (R.Straight → R.Correct) ∧ (R.Detached → (R.Correct ↔ R.Straight)) :=
  ⟨Straight.correct, fun hdetached => ⟨fun h => h.straight hdetached, Straight.correct⟩⟩

/-- A queue with one channel between the start and the end. -/
def shortQueue : Queue := ⟨"q", 1, ["enq"], "deq", none, false⟩

def short : Graph :=
  let instances : Dict Instance := ∅
  ⟨(((instances.insert "end" ⟨none, [], AList.insert "inp" [("deq", "out0")] ∅, none⟩)
      |>.insert "deq" ⟨some shortQueue, [("out0", "end", "inp")], ∅, none⟩).insert "enq"
      ⟨some shortQueue, [], AList.insert "inp0" [("start", "out")] ∅, none⟩).insert "start"
      ⟨none, [("out", "enq", "inp0")], ∅, none⟩, ∅⟩

theorem short_checks : Checks short "start" "end" fun x =>
    ["start", "enq", "deq", "end"].idxOf x := by
  decide +kernel

/-- The entries on the path. -/
def shortPath : List Entry :=
  [⟨"start", none, none⟩, ⟨"enq", some "start", some ("start", "out", "inp0")⟩,
    ⟨"end", some "enq", some ("deq", "out0", "inp")⟩]

theorem short_on {a : Entry} (ha : (ofChecks short_checks).On a) : a ∈ shortPath :=
  on_of_closed (R := ofChecks short_checks) (S := shortPath) (by decide +kernel)
    (by decide +kernel) ha

/-- There is one way on, it does not stop before the end, and the queue leads to the end. -/
theorem short_path : ∀ a ∈ shortPath,
    (a.node ≠ (ofChecks short_checks).stop → (ofChecks short_checks).exits a ≠ []) ∧
    ((ofChecks short_checks).queue a ≠ none →
      a = ⟨"enq", some "start", some ("start", "out", "inp0")⟩) ∧
    ∀ b ∈ (ofChecks short_checks).exits a,
      (∀ c ∈ (ofChecks short_checks).exits a, b = c) ∧
      ((ofChecks short_checks).queue a ≠ none → b.node = (ofChecks short_checks).stop) := by
  decide +kernel

theorem short_straight : (ofChecks short_checks).Straight := by
  have hqueue : ∀ a, (ofChecks short_checks).On a → (ofChecks short_checks).queue a ≠ none →
      a = ⟨"enq", some "start", some ("start", "out", "inp0")⟩ :=
    fun a ha => (short_path a (short_on ha)).2.1
  have hsame : ∀ a b q, (ofChecks short_checks).On a → (ofChecks short_checks).On b →
      (ofChecks short_checks).queue a = some q → (ofChecks short_checks).queue b = some q →
      a = b := by
    intro a b q ha hb hqa hqb
    rw [hqueue a ha (by simp [hqa]), hqueue b hb (by simp [hqb])]
  have hstop : ∀ a b, (ofChecks short_checks).On a → (ofChecks short_checks).queue a ≠ none →
      (ofChecks short_checks).Goes a b → b.node = (ofChecks short_checks).stop :=
    fun a b ha hqa hgoes => ((short_path a (short_on ha)).2.2 b hgoes.2).2 hqa
  refine ⟨?_, ?_, ?_, ?_, ?_⟩
  · intro a b ha hgoes hqb
    by_contra hqa
    exact hqb (by rw [Region.queue, if_pos (hstop a b ha hqa hgoes)])
  · intro a ha hqa
    have hend : a.node ≠ (ofChecks short_checks).stop := fun heq =>
      hqa (by rw [Region.queue, if_pos heq])
    obtain ⟨b, hb⟩ := List.exists_mem_of_ne_nil _ ((short_path a (short_on ha)).1 hend)
    exact ⟨b, hend, hb⟩
  · intro a b q ha hb hqa hqb _
    exact hsame a b q ha hb hqa hqb
  · intro a b c _ _ ha _ hb hc hne
    exact absurd (((short_path a (short_on ha)).2.2 b hb.2).1 c hc.2) hne
  · intro a b x ha hqa hgoes _ hx
    have hend := hstop a b ha hqa hgoes
    rcases ReflTransGen.cases_head hx with rfl | ⟨c, hbc, _⟩
    · rw [Region.queue, if_pos hend]
    · exact absurd hend hbc.1

theorem short_detached : (ofChecks short_checks).Detached := by
  have hall : ∀ e ∈ short.instances.entries, e.2.special ≠ none →
      ∀ v ∈ e.2.nexts, special short v = none := by decide +kernel
  intro a b q _ _ hqa hqb inst hinst v hv hmem
  obtain ⟨q', hqa⟩ := Option.ne_none_iff_exists'.1 hqa
  obtain ⟨-, inst', hinst', hspecial⟩ := queue_eq_some hqa
  obtain rfl : inst = inst' := Option.some.inj (hinst.symm.trans hinst')
  have hnone : special short v = none := hall ⟨a.node, inst⟩ (AList.mem_lookup_iff.1 hinst)
    (by rw [hspecial]; exact Option.some_ne_none q') v hv
  have hsome : special short v = some q :=
    (ofChecks short_checks).enqs q b.node (special_of_queue hqb) v hmem
  rw [hnone] at hsome
  cases hsome

theorem search_correct_short : (ofChecks short_checks).Correct ∧
    ((ofChecks short_checks).Correct ↔ (ofChecks short_checks).Straight) :=
  ⟨(search_correct (ofChecks short_checks)).1 short_straight,
    (search_correct (ofChecks short_checks)).2 short_detached⟩

/-- An instance in front of two channels. -/
def forkQueue : Queue := ⟨"q", 2, ["enq"], "deq", none, false⟩

def fork : Graph :=
  let instances : Dict Instance := ∅
  ⟨(((instances.insert "end"
      ⟨none, [], AList.insert "inp" [("deq", "out0"), ("deq", "out1")] ∅, none⟩)
      |>.insert "deq" ⟨some forkQueue, [("out0", "end", "inp"), ("out1", "end", "inp")], ∅, none⟩)
      |>.insert "enq" ⟨some forkQueue, [], AList.insert "inp0" [("start", "hit")]
        (AList.insert "inp1" [("start", "miss")] ∅), none⟩).insert "start"
      ⟨none, [("hit", "enq", "inp0"), ("miss", "enq", "inp1")], ∅, none⟩, ∅⟩

theorem fork_checks : Checks fork "start" "end" fun x =>
    ["start", "enq", "deq", "end"].idxOf x := by
  decide +kernel

/-- What the searches return. -/
theorem fork_searches : dfsSameThread fork "start" "end" = .ok [forkQueue] ∧
    findLastQueue fork "start" "end" = .ok (some
      [(forkQueue, 1, some "start"), (forkQueue, 1, some "start")]) := by
  decide +kernel

/-- Channel `0` is taken for no channel, and the one queue of the two paths is listed twice. -/
theorem fork_not_correct : ¬ (ofChecks fork_checks).Correct := by
  intro h
  obtain ⟨l, hl, hnodup, -⟩ := h.last
  have hl : findLastQueue fork "start" "end" = .ok (some l) := hl
  rw [fork_searches.2] at hl
  cases hl
  simp at hnodup

end Region
end Floem
