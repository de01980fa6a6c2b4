import Mathlib
import Floem.IR.Ported

/-!
# Order constraints are enforced

What the graph after `insert_resource_order` is to be, and exactly when it is.

* `Ordered` — no cycle, both ends of all edges agree, no edge is lost, and every constraint
  has a path.
* `Compatible` — the constraints go together: with all of them as edges there is no cycle,
  no two lists get into each other's way, and the ports they need are free.
* `Final` — the edges of the graph after the pass.
* `ordered_iff_compatible` — **the main theorem**.
-/

namespace Floem
namespace IR

open Lib Relation

/-- The constraint asks for an edge from `u` to `v`. -/
def Constraint.Wants (u v : String) : Constraint → Prop
  | .before a b => u = a ∧ v = b
  | .anyBefore froms target => u ∈ froms ∧ v = target

namespace Graph

/-- **The constraints are enforced** in `g'`, which was `g` before. -/
structure Ordered (g : Graph) (order : List Constraint) (g' : Graph) : Prop where
  acyclic : ∀ x, ¬ TransGen g'.wiring.Leads x x
  consistent : g'.wiring.Consistent
  kept : ∀ {x r next}, g.wiring.out x r = some next → g'.wiring.out x r = some next
  path : ∀ c ∈ order, ∀ {u v}, c.Wants u v → TransGen g'.wiring.Leads u v

/-- The edges of the graph and of all constraints. -/
def Wanted (g : Graph) (order : List Constraint) (u v : String) : Prop :=
  g.wiring.Leads u v ∨ ∃ c ∈ order, c.Wants u v

/-- The edges of the graph, of the pairs that are not skipped, and for every instance in a
list of the last list with it. -/
def Placed (g : Graph) (order : List Constraint) (u v : String) : Prop :=
  g.wiring.Leads u v ∨ (u, v) ∈ g.added order ∨
    ∃ list, lastFrom (lists order) u = some list ∧ v = list.2

/-- **The constraints go together.** -/
structure Compatible (g : Graph) (order : List Constraint) : Prop where
  /-- The numbered output ports are free. -/
  out_free : ∀ a i, i < ((g.added order).countP fun pair => pair.1 = a) →
    g.wiring.out a (outName i) = none
  /-- The numbered input ports are free. -/
  in_free : ∀ b j, j < ((g.added order).countP fun pair => pair.2 = b) →
    ∀ u p, ¬ g.wiring.Feeds u p b (inName j)
  /-- Port `_out` of an instance in a list is free. -/
  list_out : ∀ f list, lastFrom (lists order) f = some list →
    g.wiring.out f "_out" = none ∨ g.wiring.out f "_out" = some (list.2, ["_in"])
  /-- Port `_in` of the instance after a list is free. -/
  list_in : ∀ v list, lastBefore (lists order) v = some list →
    ∀ u p, g.wiring.Feeds u p v "_in" → u ∈ list.1 ∧ p = "_out"
  /-- No instance is twice in a list. -/
  list_nodup : ∀ v list, lastBefore (lists order) v = some list → list.1.Nodup
  /-- The last list with `u` is before `v` exactly if the last list before `v` has `u`. -/
  list_agree : ∀ u v, (∃ list, lastFrom (lists order) u = some list ∧ v = list.2) ↔
    ∃ list, lastBefore (lists order) v = some list ∧ u ∈ list.1
  /-- All edges together make no cycle. -/
  acyclic : ∀ x, ¬ TransGen (g.Wanted order) x x
  /-- An instance in a later list has another way to where an earlier one asked it to lead. -/
  replaced : ∀ u v, (∃ list ∈ lists order, u ∈ list.1 ∧ v = list.2) →
    (∀ list, lastFrom (lists order) u = some list → v ≠ list.2) →
      TransGen (g.Placed order) u v

/-! ## The edges after the pass -/

theorem mem_pairs {order : List Constraint} {a b : String} :
    (a, b) ∈ pairs order ↔ .before a b ∈ order := by
  simp only [pairs, List.mem_filterMap]
  constructor
  · rintro ⟨c, hc, h⟩
    cases c with
    | before a' b' =>
        obtain ⟨rfl, rfl⟩ := Prod.mk.inj (Option.some.inj h)
        exact hc
    | anyBefore froms target => cases h
  · exact fun h => ⟨_, h, rfl⟩

theorem mem_lists {order : List Constraint} {froms : List String} {target : String} :
    (froms, target) ∈ lists order ↔ .anyBefore froms target ∈ order := by
  simp only [lists, List.mem_filterMap]
  constructor
  · rintro ⟨c, hc, h⟩
    cases c with
    | before a b => cases h
    | anyBefore froms' target' =>
        obtain ⟨rfl, rfl⟩ := Prod.mk.inj (Option.some.inj h)
        exact hc
  · exact fun h => ⟨_, h, rfl⟩

theorem lastFrom_mem {l : List (List String × String)} {f : String} {list : List String × String}
    (h : lastFrom l f = some list) : list ∈ l ∧ f ∈ list.1 := by
  refine ⟨List.mem_reverse.1 (List.mem_of_find?_eq_some h), ?_⟩
  simpa using List.find?_some h

theorem lastBefore_mem {l : List (List String × String)} {v : String} {list : List String × String}
    (h : lastBefore l v = some list) : list ∈ l ∧ list.2 = v := by
  refine ⟨List.mem_reverse.1 (List.mem_of_find?_eq_some h), ?_⟩
  simpa using List.find?_some h

theorem exists_lastFrom {l : List (List String × String)} {f : String} {list : List String × String}
    (h : list ∈ l) (hf : f ∈ list.1) : ∃ last, lastFrom l f = some last := by
  rw [← Option.isSome_iff_exists, lastFrom, List.find?_isSome]
  exact ⟨list, List.mem_reverse.2 h, by simpa using hf⟩

theorem exists_lastBefore {l : List (List String × String)} {list : List String × String}
    (h : list ∈ l) : ∃ last, lastBefore l list.2 = some last := by
  rw [← Option.isSome_iff_exists, lastBefore, List.find?_isSome]
  exact ⟨list, List.mem_reverse.2 h, by simp⟩

/-- The edges of the graph `g'` after the pass. -/
structure Final (g : Graph) (order : List Constraint) (extra : Extra × Extra) (g' : Graph) :
    Prop where
  collected : Collected extra (g.added order)
  checked : ∀ pair ∈ pairs order, g.Checked pair
  has_lists : ∀ list ∈ lists order, (∀ f ∈ list.1, g.wiring.has f) ∧ g.wiring.has list.2
  has : ∀ w, g'.wiring.has w ↔ g.wiring.has w
  out_pair : ∀ {x : String} {i : ℕ} {b : String} {j : ℕ}, (extra.1.at x)[i]? = some (b, j) →
    g'.wiring.out x (outName i) = some (b, [inName j])
  out_list : ∀ {x list}, lastFrom (lists order) x = some list →
    g'.wiring.out x "_out" = some (list.2, ["_in"])
  out_old : ∀ {x r}, (∀ (i : ℕ) z, (extra.1.at x)[i]? = some z → r ≠ outName i) →
    (r = "_out" → lastFrom (lists order) x = none) → g'.wiring.out x r = g.wiring.out x r
  listed_pair : ∀ {y : String} {j : ℕ} {a : String} {i : ℕ}, (extra.2.at y)[j]? = some (a, i) →
    ∀ e, g'.wiring.listed y (inName j) e = if e = (a, outName i) then 1 else 0
  listed_list : ∀ {y list}, lastBefore (lists order) y = some list →
    ∀ e, g'.wiring.listed y "_in" e = (list.1.map fun f => (f, "_out")).count e
  listed_old : ∀ {y s}, (∀ (j : ℕ) z, (extra.2.at y)[j]? = some z → s ≠ inName j) →
    (s = "_in" → lastBefore (lists order) y = none) →
      ∀ e, g'.wiring.listed y s e = g.wiring.listed y s e

variable {g g' : Graph} {order : List Constraint} {extra : Extra × Extra}

theorem insertResourceOrder_spec {insts : List String}
    (h : g.insertResourceOrder order insts = some g') : ∃ extra, Final g order extra g' := by
  simp only [insertResourceOrder, Option.bind_eq_bind, Option.bind_eq_some_iff,
    Option.guard_eq_some'] at h
  obtain ⟨extra, hcollect, _, hperm, g₁, hinsert, hmerge⟩ := h
  obtain ⟨hcollected, hchecked⟩ := collectPorts_spec Collected.nil hcollect
  obtain ⟨hinserts, hports⟩ := foldlM_insertPorts hinsert
  have hmerged := foldlM_mergeAsNoJoin hmerge
  have hout : ∀ {x : String} {i : ℕ} {z}, (extra.1.at x)[i]? = some z → HasPorts extra x g₁ :=
    fun {x i z} hi => by
      refine hports x (hperm.mem_iff.2 (List.mem_dedup.2 (List.mem_append_left _ ?_)))
      by_contra hx
      rw [Extra.at, AList.lookup_eq_none.2 hx] at hi
      cases hi
  have hin : ∀ {x : String} {j : ℕ} {z}, (extra.2.at x)[j]? = some z → HasPorts extra x g₁ :=
    fun {x j z} hj => by
      refine hports x (hperm.mem_iff.2 (List.mem_dedup.2 (List.mem_append_right _ ?_)))
      by_contra hx
      rw [Extra.at, AList.lookup_eq_none.2 hx] at hj
      cases hj
  refine ⟨extra, ⟨hcollected, hchecked, fun list hlist => ?_, fun w => ?_, fun {x i b j} hi => ?_,
    fun {x list} hlast => ?_, fun {x r} hr hlast => ?_, fun {y j a i} hj e => ?_,
    fun {y list} hlast e => ?_, fun {y s} hs hlast e => ?_⟩⟩
  · simpa only [hinserts.has] using hmerged.has_lists list hlist
  · rw [hmerged.has, hinserts.has]
  · rw [hmerged.out, if_neg (outName_ne i), (hout hi).out hi]
  · rw [hmerged.out, if_pos rfl, hlast]
    rfl
  · have hold : g₁.wiring.out x r = g.wiring.out x r := by
      rcases hinserts.out x r with hsame | ⟨i, b, j, hname, hi, -⟩
      · exact hsame
      · exact absurd hname (hr i _ hi)
    rw [hmerged.out, hold]
    split_ifs with hname
    · rw [hlast hname]
      rfl
    · rfl
  · rw [hmerged.listed, if_neg (inName_ne j), (hin hj).listed hj]
  · rw [hmerged.listed, if_pos rfl, hlast]
    rfl
  · have hold : g₁.wiring.listed y s e = g.wiring.listed y s e := by
      rcases hinserts.listed y s with hsame | ⟨j, a, i, hname, hj, -⟩
      · exact hsame e
      · exact absurd hname (hs j _ hj)
    rw [hmerged.listed, hold]
    split_ifs with hname
    · rw [hlast hname]
      rfl
    · rfl

namespace Final

/-- Where an edge of the graph after the pass comes from. -/
theorem out_cases (h : Final g order extra g') {x r v : String} {qs : List String}
    (hx : g'.wiring.out x r = some (v, qs)) :
    (∃ i j : ℕ, r = outName i ∧ (extra.1.at x)[i]? = some (v, j) ∧ qs = [inName j]) ∨
      (∃ list, lastFrom (lists order) x = some list ∧ r = "_out" ∧ v = list.2 ∧ qs = ["_in"]) ∨
      g.wiring.out x r = some (v, qs) := by
  by_cases hr : ∃ (i : ℕ) (z : String × ℕ), (extra.1.at x)[i]? = some z ∧ r = outName i
  · obtain ⟨i, ⟨b, j⟩, hi, rfl⟩ := hr
    rw [h.out_pair hi] at hx
    obtain ⟨rfl, rfl⟩ := Prod.mk.inj (Option.some.inj hx)
    exact Or.inl ⟨i, j, rfl, hi, rfl⟩
  · have hr' : ∀ (i : ℕ) z, (extra.1.at x)[i]? = some z → r ≠ outName i :=
      fun i z hi hname => hr ⟨i, z, hi, hname⟩
    by_cases hlast : r = "_out" ∧ ∃ list, lastFrom (lists order) x = some list
    · obtain ⟨rfl, list, hlast⟩ := hlast
      rw [h.out_list hlast] at hx
      obtain ⟨rfl, rfl⟩ := Prod.mk.inj (Option.some.inj hx)
      exact Or.inr (Or.inl ⟨list, hlast, rfl, rfl, rfl⟩)
    · rw [h.out_old hr' fun hname => ?_] at hx
      · exact Or.inr (Or.inr hx)
      · refine Option.eq_none_iff_forall_not_mem.2 fun list hlist => hlast ⟨hname, list, hlist⟩

/-- What an input port lists after the pass. -/
theorem listed_cases (h : Final g order extra g') (y s : String) :
    (∃ (j : ℕ) (a : String) (i : ℕ), s = inName j ∧ (extra.2.at y)[j]? = some (a, i)) ∨
      (∃ list, lastBefore (lists order) y = some list ∧ s = "_in") ∨
      ∀ e, g'.wiring.listed y s e = g.wiring.listed y s e := by
  by_cases hs : ∃ (j : ℕ) (z : String × ℕ), (extra.2.at y)[j]? = some z ∧ s = inName j
  · obtain ⟨j, ⟨a, i⟩, hj, rfl⟩ := hs
    exact Or.inl ⟨j, a, i, rfl, hj⟩
  · by_cases hlast : s = "_in" ∧ ∃ list, lastBefore (lists order) y = some list
    · obtain ⟨rfl, list, hlast⟩ := hlast
      exact Or.inr (Or.inl ⟨list, hlast, rfl⟩)
    · refine Or.inr (Or.inr (h.listed_old (fun j z hj hname => hs ⟨j, z, hj, hname⟩) fun hname => ?_))
      exact Option.eq_none_iff_forall_not_mem.2 fun list hlist => hlast ⟨hname, list, hlist⟩

/-- How often the list before an instance names one of its instances. -/
theorem listed_count (h : Final g order extra g') {y : String} {list : List String × String}
    (hlast : lastBefore (lists order) y = some list) (f : String) :
    g'.wiring.listed y "_in" (f, "_out") = list.1.count f := by
  rw [h.listed_list hlast]
  exact List.count_map_of_injective list.1 (fun f : String => (f, "_out"))
    (fun _ _ heq => (Prod.mk.inj heq).1) f

/-- A pair with an edge does not lead from the first to the second before. -/
theorem not_leads (h : Final g order extra g') {thread : Option String}
    (hwired : g.wiring.Consistent) (hthread : g.OnThread thread) {a b : String}
    (hab : (a, b) ∈ g.added order) : ¬ ReflTransGen g.wiring.Leads a b := by
  obtain ⟨hpair, hnot⟩ := List.mem_filter.1 hab
  obtain ⟨s, hs⟩ := (h.checked _ hpair).found
  rw [hs, Option.getD_some, decide_eq_true_eq] at hnot
  exact fun hleads => hnot ((mem_findSubgraphSameThread hwired hthread hs b).2 hleads)

/-! ### What the constraints need -/

/-- If no edge is lost, then the edges after the pass are the placed ones. -/
theorem leads_of_placed (h : Final g order extra g')
    (hkept : ∀ {x r next}, g.wiring.out x r = some next → g'.wiring.out x r = some next)
    {u v : String} (huv : g.Placed order u v) : g'.wiring.Leads u v := by
  rcases huv with ⟨p, qs, hp⟩ | hadded | ⟨list, hlast, rfl⟩
  · exact ⟨p, qs, hkept hp⟩
  · obtain ⟨i, j, hi⟩ := (h.collected.mem u v).1 hadded
    exact ⟨_, _, h.out_pair hi⟩
  · exact ⟨_, _, h.out_list hlast⟩

theorem placed_of_leads (h : Final g order extra g') {u v : String}
    (huv : g'.wiring.Leads u v) : g.Placed order u v := by
  obtain ⟨p, qs, hp⟩ := huv
  rcases h.out_cases hp with ⟨i, j, -, hi, -⟩ | ⟨list, hlast, -, rfl, -⟩ | hold
  · exact Or.inr (Or.inl ((h.collected.mem u v).2 ⟨i, j, hi⟩))
  · exact Or.inr (Or.inr ⟨list, hlast, rfl⟩)
  · exact Or.inl ⟨p, qs, hold⟩

/-- What is enforced goes together. -/
theorem compatible (h : Final g order extra g') {thread : Option String}
    (hwired : g.wiring.Consistent) (hthread : g.OnThread thread) (hord : Ordered g order g') :
    Compatible g order where
  out_free a i hi := by
    refine Option.eq_none_iff_forall_not_mem.2 fun ⟨v, qs⟩ hv => ?_
    obtain ⟨⟨b, j⟩, hb⟩ : ∃ z, (extra.1.at a)[i]? = some z :=
      ⟨_, List.getElem?_eq_getElem (h.collected.length_out a ▸ hi)⟩
    have hnew := (h.out_pair hb).symm.trans (hord.kept hv)
    obtain ⟨rfl, -⟩ := Prod.mk.inj (Option.some.inj hnew)
    exact h.not_leads hwired hthread ((h.collected.mem a b).2 ⟨i, j, hb⟩) (.single ⟨_, _, hv⟩)
  in_free b j hj u p hfeeds := by
    obtain ⟨⟨a, i⟩, ha⟩ : ∃ z, (extra.2.at b)[j]? = some z :=
      ⟨_, List.getElem?_eq_getElem (h.collected.length_in b ▸ hj)⟩
    obtain ⟨qs, hqs, hq⟩ := hfeeds
    have hone := hord.consistent.listed_one ⟨qs, hord.kept hqs, hq⟩
    rw [h.listed_pair ha] at hone
    split_ifs at hone with he
    obtain ⟨rfl, rfl⟩ := Prod.mk.inj he
    exact h.not_leads hwired hthread
      ((h.collected.mem u b).2 ⟨i, j, (h.collected.paired u i b j).2 ha⟩) (.single ⟨_, _, hqs⟩)
  list_out f list hlast := by
    cases hf : g.wiring.out f "_out" with
    | none => exact Or.inl rfl
    | some next => exact Or.inr ((hord.kept hf).symm.trans (h.out_list hlast))
  list_in v list hlast u p hfeeds := by
    obtain ⟨qs, hqs, hq⟩ := hfeeds
    have hone := hord.consistent.listed_one ⟨qs, hord.kept hqs, hq⟩
    rw [h.listed_list hlast] at hone
    obtain ⟨f, hf, heq⟩ := List.mem_map.1 (List.count_pos_iff.1 (hone ▸ Nat.one_pos))
    obtain ⟨rfl, rfl⟩ := Prod.mk.inj heq
    exact ⟨hf, rfl⟩
  list_nodup v list hlast := by
    refine List.nodup_iff_count_le_one.2 fun f => ?_
    rw [← h.listed_count hlast]
    by_cases hfeeds : g'.wiring.Feeds f "_out" v "_in"
    · exact (hord.consistent.listed_one hfeeds).le
    · rw [hord.consistent.listed_zero hfeeds]
      exact Nat.zero_le 1
  list_agree u v := by
    constructor
    · rintro ⟨list, hlast, rfl⟩
      obtain ⟨last, hbefore⟩ := exists_lastBefore (lastFrom_mem hlast).1
      have hone := hord.consistent.listed_one ⟨_, h.out_list hlast, List.mem_singleton_self "_in"⟩
      rw [h.listed_count hbefore] at hone
      exact ⟨last, hbefore, List.count_pos_iff.1 (hone ▸ Nat.one_pos)⟩
    · rintro ⟨list, hbefore, hu⟩
      obtain ⟨last, hlast⟩ := exists_lastFrom (lastBefore_mem hbefore).1 hu
      have hlisted : g'.wiring.listed v "_in" (u, "_out") ≠ 0 := by
        rw [h.listed_count hbefore]
        exact (List.count_pos_iff.2 hu).ne'
      obtain ⟨qs, hqs, -⟩ := hord.consistent.feeds_of_listed hlisted
      obtain ⟨rfl, -⟩ := Prod.mk.inj (Option.some.inj (hqs.symm.trans (h.out_list hlast)))
      exact ⟨last, hlast, rfl⟩
  acyclic x hx := by
    refine hord.acyclic x (TransGen.closed (fun u v huv => ?_) x x hx)
    rcases huv with ⟨p, qs, hp⟩ | ⟨c, hc, hwants⟩
    · exact .single ⟨p, qs, hord.kept hp⟩
    · exact hord.path c hc hwants
  replaced u v hlist _ := by
    obtain ⟨⟨froms, target⟩, hmem, hu, rfl⟩ := hlist
    refine TransGen.mono (fun _ _ => h.placed_of_leads) _ _ ?_
    exact hord.path _ (mem_lists.1 hmem) ⟨hu, rfl⟩

/-! ### What the pass does with them -/

section

variable (h : Final g order extra g') (hcomp : Compatible g order)
include h hcomp

theorem kept {x r : String} {next : String × List String} (hx : g.wiring.out x r = some next) :
    g'.wiring.out x r = some next := by
  by_cases hlast : r = "_out" ∧ ∃ list, lastFrom (lists order) x = some list
  · obtain ⟨rfl, list, hlast⟩ := hlast
    rcases hcomp.list_out x list hlast with hnone | hsame
    · rw [hnone] at hx
      cases hx
    · rw [h.out_list hlast, ← hsame, hx]
  · rw [h.out_old (fun i z hi hname => ?_) fun hname => ?_, hx]
    · have hlt := (List.getElem?_eq_some_iff.1 hi).1
      rw [h.collected.length_out] at hlt
      rw [hname, hcomp.out_free x i hlt] at hx
      cases hx
    · exact Option.eq_none_iff_forall_not_mem.2 fun list hlist => hlast ⟨hname, list, hlist⟩

theorem consistent (hwired : g.wiring.Consistent) : g'.wiring.Consistent where
  out_has {x r y qs} hx := by
    rw [h.has, h.has]
    rcases h.out_cases hx with ⟨i, j, -, hi, -⟩ | ⟨list, hlast, -, rfl, -⟩ | hold
    · have hchecked := h.checked _ (List.mem_filter.1 ((h.collected.mem x y).2 ⟨i, j, hi⟩)).1
      obtain ⟨_, hs⟩ := hchecked.found
      obtain ⟨_, hs', -⟩ := hchecked.legal
      obtain ⟨_, hn⟩ := lookup_of_findSubgraphSameThread hs
      obtain ⟨_, hn'⟩ := lookup_of_findSubgraphSameThread hs'
      exact ⟨has_of_lookup hn, has_of_lookup hn'⟩
    · obtain ⟨hmem, hx⟩ := lastFrom_mem hlast
      exact (h.has_lists list hmem).imp_left fun hfroms => hfroms x hx
    · exact hwired.out_has hold
  listed_one {x r y s} hf := by
    obtain ⟨qs, hqs, hs⟩ := hf
    rcases h.out_cases hqs with ⟨i, j, rfl, hi, rfl⟩ | ⟨list, hlast, rfl, rfl, rfl⟩ | hold
    · obtain rfl := List.mem_singleton.1 hs
      rw [h.listed_pair ((h.collected.paired x i y j).1 hi), if_pos rfl]
    · obtain rfl := List.mem_singleton.1 hs
      obtain ⟨last, hbefore, hmem⟩ := (hcomp.list_agree x list.2).1 ⟨list, hlast, rfl⟩
      rw [h.listed_count hbefore]
      exact List.count_eq_one_of_mem (hcomp.list_nodup _ last hbefore) hmem
    · -- an edge of the graph leads to no port that is new
      rcases h.listed_cases y s with ⟨j, a, i, rfl, hj⟩ | ⟨list, hbefore, rfl⟩ | hsame
      · have hlt := (List.getElem?_eq_some_iff.1 hj).1
        rw [h.collected.length_in] at hlt
        exact absurd ⟨qs, hold, hs⟩ (hcomp.in_free y j hlt x r)
      · obtain ⟨hmem, rfl⟩ := hcomp.list_in y list hbefore x r ⟨qs, hold, hs⟩
        rw [h.listed_count hbefore]
        exact List.count_eq_one_of_mem (hcomp.list_nodup _ list hbefore) hmem
      · rw [hsame]
        exact hwired.listed_one ⟨qs, hold, hs⟩
  listed_zero {x r y s} hf := by
    rcases h.listed_cases y s with ⟨j, a, i, rfl, hj⟩ | ⟨list, hbefore, rfl⟩ | hsame
    · rw [h.listed_pair hj]
      refine if_neg fun he => hf ?_
      obtain ⟨rfl, rfl⟩ := Prod.mk.inj he
      exact ⟨_, h.out_pair ((h.collected.paired x i y j).2 hj), List.mem_singleton_self _⟩
    · rw [h.listed_list hbefore]
      refine List.count_eq_zero_of_not_mem fun hmem => hf ?_
      obtain ⟨f, hfrom, heq⟩ := List.mem_map.1 hmem
      obtain ⟨rfl, rfl⟩ := Prod.mk.inj heq
      obtain ⟨last, hlast, rfl⟩ := (hcomp.list_agree f y).2 ⟨list, hbefore, hfrom⟩
      exact ⟨_, h.out_list hlast, List.mem_singleton_self _⟩
    · rw [hsame]
      refine hwired.listed_zero fun ⟨qs, hqs, hs⟩ => hf ⟨qs, ?_, hs⟩
      exact h.kept hcomp hqs

end

/-- What goes together is enforced. -/
theorem ordered (h : Final g order extra g') {thread : Option String}
    (hwired : g.wiring.Consistent) (hthread : g.OnThread thread) (hcomp : Compatible g order) :
    Ordered g order g' where
  acyclic x hx := by
    refine hcomp.acyclic x (TransGen.mono (fun u v huv => ?_) x x hx)
    rcases h.placed_of_leads huv with hold | hadded | ⟨list, hlast, rfl⟩
    · exact Or.inl hold
    · exact Or.inr ⟨_, mem_pairs.1 (List.mem_filter.1 hadded).1, rfl, rfl⟩
    · obtain ⟨hmem, hu⟩ := lastFrom_mem hlast
      exact Or.inr ⟨_, mem_lists.1 hmem, hu, rfl⟩
  consistent := h.consistent hcomp hwired
  kept := h.kept hcomp
  path c hc u v hwants := by
    have hplaced : ∀ u v, g.Placed order u v → g'.wiring.Leads u v := fun u v huv =>
      h.leads_of_placed (h.kept hcomp) huv
    cases c with
    | before a b =>
        obtain ⟨rfl, rfl⟩ := hwants
        by_cases hadded : (u, v) ∈ g.added order
        · exact .single (hplaced u v (Or.inr (Or.inl hadded)))
        · -- a pair without an edge is one that has a path
          have hpair := mem_pairs.2 hc
          obtain ⟨s, hs⟩ := (h.checked _ hpair).found
          obtain ⟨s', hs', hlegal⟩ := (h.checked _ hpair).legal
          have hmem : v ∈ s := by
            by_contra hn
            refine hadded (List.mem_filter.2 ⟨hpair, ?_⟩)
            rw [hs, Option.getD_some]
            exact decide_eq_true hn
          have hleads := (mem_findSubgraphSameThread hwired hthread hs v).1 hmem
          rcases reflTransGen_iff_eq_or_transGen.1 hleads with rfl | hleads
          · exact absurd ((mem_findSubgraphSameThread hwired hthread hs' v).2 .refl) hlegal
          · exact TransGen.mono (fun u v huv => hplaced u v (Or.inl huv)) _ _ hleads
    | anyBefore froms target =>
        obtain ⟨hu, rfl⟩ := hwants
        have hmem := mem_lists.2 hc
        by_cases hlast : ∃ list, lastFrom (lists order) u = some list ∧ v = list.2
        · exact .single (hplaced u v (Or.inr (Or.inr hlast)))
        · refine TransGen.mono hplaced _ _ (hcomp.replaced u v ⟨_, hmem, hu, rfl⟩ ?_)
          exact fun list hlist hv => hlast ⟨list, hlist, hv⟩

end Final

/-- **The constraints are enforced exactly if they go together**: for a graph on one thread
whose edges agree at both ends, and every order in which the instances are taken. -/
theorem ordered_iff_compatible {thread : Option String} {insts : List String}
    (hwired : g.wiring.Consistent) (hthread : g.OnThread thread)
    (h : g.insertResourceOrder order insts = some g') :
    Ordered g order g' ↔ Compatible g order := by
  obtain ⟨extra, hfinal⟩ := insertResourceOrder_spec h
  exact ⟨hfinal.compatible hwired hthread, hfinal.ordered hwired hthread⟩

/-! Three instances without ports. -/

def task : Node := ⟨⟨"Task", [], [], .text "", [], .all, false⟩, [], ∅, ∅, false, some "t"⟩

def tasks : Graph := ((empty.setInstance "a" task).setInstance "b" task).setInstance "c" task

theorem out_tasks (x r : String) : tasks.wiring.out x r = none := by
  simp only [tasks, out_setInstance]
  split_ifs <;> rfl

theorem listed_tasks (y s : String) (e : String × String) : tasks.wiring.listed y s e = 0 := by
  simp only [tasks, listed_setInstance]
  split_ifs <;> rfl

theorem consistent_tasks : tasks.wiring.Consistent where
  out_has h := by simp [out_tasks] at h
  listed_one := fun ⟨_, h, _⟩ => by simp [out_tasks] at h
  listed_zero _ := listed_tasks ..

theorem onThread_tasks : tasks.OnThread (some "t") := by
  intro x n hn
  simp only [tasks, lookup_setInstance] at hn
  split_ifs at hn
  all_goals first
    | exact Option.some.inj hn ▸ rfl
    | cases hn

/-- `a` before `b`, and both before `c`. -/
def chain : List Constraint := [.before "a" "b", .anyBefore ["a", "b"] "c"]

theorem compatible_chain : Compatible tasks chain := by
  have hleads : ∀ u v, ¬ tasks.wiring.Leads u v := fun u v ⟨p, qs, hp⟩ => by
    simp [out_tasks] at hp
  have hfeeds : ∀ u p v q, ¬ tasks.wiring.Feeds u p v q := fun u p v q ⟨qs, hqs, _⟩ => by
    simp [out_tasks] at hqs
  have hlists : lists chain = [(["a", "b"], "c")] := rfl
  refine ⟨fun a i _ => out_tasks a _, fun b j _ u p => hfeeds u p b _,
    fun f list _ => Or.inl (out_tasks f _), fun v list _ u p h => absurd h (hfeeds u p v _),
    fun v list hlast => ?_, fun u v => ?_, fun x hx => ?_, fun u v hlist hlast => ?_⟩
  · obtain ⟨hmem, -⟩ := lastBefore_mem hlast
    rw [hlists] at hmem
    rw [List.mem_singleton.1 hmem]
    decide
  · rw [hlists, lastFrom, lastBefore, List.reverse_singleton]
    by_cases hu : u ∈ ["a", "b"]
    · by_cases hv : v = "c"
      · simp [hu, hv]
      · simp [hu, hv, eq_comm (a := "c")]
    · by_cases hv : v = "c"
      · simp [hu, hv]
      · simp [hu, eq_comm (a := "c"), hv]
  · -- every constraint leads to a later name
    let rank (s : String) : ℕ := if s = "a" then 0 else if s = "b" then 1 else 2
    have hrank : ∀ u v, tasks.Wanted chain u v → rank u < rank v := fun u v huv => by
      rcases huv with hold | ⟨c, hc, hwants⟩
      · exact absurd hold (hleads u v)
      · simp only [chain, List.mem_cons, List.not_mem_nil, or_false] at hc
        rcases hc with rfl | rfl
        · obtain ⟨rfl, rfl⟩ := hwants
          decide
        · obtain ⟨hu, rfl⟩ := hwants
          simp only [List.mem_cons, List.not_mem_nil, or_false] at hu
          rcases hu with rfl | rfl <;> decide
    have htrans : ∀ v, TransGen (tasks.Wanted chain) x v → rank x < rank v := fun v hv => by
      induction hv with
      | single h => exact hrank _ _ h
      | tail _ h ih => exact ih.trans (hrank _ _ h)
    exact lt_irrefl _ (htrans x hx)
  · obtain ⟨list, hmem, hu, rfl⟩ := hlist
    obtain ⟨last, hlast'⟩ := exists_lastFrom hmem hu
    obtain ⟨hmem', -⟩ := lastFrom_mem hlast'
    rw [hlists] at hmem hmem'
    refine absurd ?_ (hlast last hlast')
    rw [List.mem_singleton.1 hmem, List.mem_singleton.1 hmem']

theorem ordered_iff_compatible_chain : ∃ g',
    tasks.insertResourceOrder chain ["a", "b"] = some g' ∧ Ordered tasks chain g' := by
  obtain ⟨g', hg'⟩ := Option.isSome_iff_exists.1
    (show (tasks.insertResourceOrder chain ["a", "b"]).isSome by decide +kernel)
  exact ⟨g', hg', (ordered_iff_compatible consistent_tasks onThread_tasks hg').2 compatible_chain⟩

/-- Two constraints each of which is legal alone make a cycle. -/
theorem opposite_constraints : ∃ g',
    tasks.insertResourceOrder [.before "a" "b", .before "b" "a"] ["a", "b"] = some g' ∧
      ¬ Ordered tasks [.before "a" "b", .before "b" "a"] g' := by
  obtain ⟨g', hg', h⟩ := Option.map_eq_some_iff.1
    (show (tasks.insertResourceOrder [.before "a" "b", .before "b" "a"] ["a", "b"]).map
      (fun g => (g.wiring.out "a" "_out0", g.wiring.out "b" "_out0")) =
        some (some ("b", ["_in0"]), some ("a", ["_in0"])) by decide +kernel)
  obtain ⟨ha, hb⟩ := Prod.mk.inj h
  refine ⟨g', hg', fun hord => hord.acyclic "a" ?_⟩
  exact TransGen.head ⟨_, _, ha⟩ (.single ⟨_, _, hb⟩)

end Graph
end IR
end Floem
