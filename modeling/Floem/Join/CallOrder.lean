import Mathlib
import Floem.Lib.Topo

/-!
# The order of the port calls

An element that fires all of its ports calls them in an order that serves the joins behind
them (`topo_sort`, `order_function_calls` of `join_handling.py`); the generated code follows
it (`get_output_code_internal` of `graph_ir.py`).

* `orderFunctionCalls` — the order, or an exception.
* `portOrder` — the ports in the order of the generated calls.
* `orderFunctionCalls_spec` — **the main theorem**: there is an exception exactly if the
  pairs have a cycle; otherwise the calls are a linear extension of the pairs.
* `no_pairs_no_order` — without pairs the list stays empty.
-/

namespace Floem
namespace Join

open Lib

variable {α : Type*} [DecidableEq α]

/-- The ports that have to come after a port. -/
def after (pairs : List (α × α)) (port : α) : List α :=
  pairs.filterMap fun pair => if port = pair.1 then some pair.2 else none

/-- `order_function_calls` at the list of pairs in `join_partial_order`: what is in
`join_partial_order` after it. -/
def orderFunctionCalls (outports : List α) (pairs : List (α × α)) : Except Failure (List α) :=
  if pairs = [] then .ok []
  else (topoSortAll (after pairs) outports.reverse).map fun s => s.order.reverse

/-- The ports in the order in which `get_output_code_internal` calls them. -/
def portOrder (outports order : List α) : Option (List α) :=
  if order = [] then some outports
  else if order.length = outports.length then some order
  else none

/-- One port before another, for some pair. -/
def Before (pairs : List (α × α)) (a b : α) : Prop := (a, b) ∈ pairs

theorem mem_after {pairs : List (α × α)} {a b : α} : b ∈ after pairs a ↔ (a, b) ∈ pairs := by
  rw [after, List.mem_filterMap]
  constructor
  · rintro ⟨⟨c, d⟩, hmem, h⟩
    split_ifs at h with hc
    obtain rfl := Option.some.inj h
    rw [hc]
    exact hmem
  · exact fun h => ⟨(a, b), h, if_pos rfl⟩

theorem next_after (pairs : List (α × α)) : Next (after pairs) = Before pairs := by
  funext a b
  exact propext mem_after

/-- **The calls are a linear extension of the pairs**, and only a cycle raises an exception.
Without pairs the list stays empty, and the calls follow the ports as declared. -/
theorem orderFunctionCalls_spec (outports : List α) (hports : outports.Nodup)
    (pairs : List (α × α)) (hpairs : ∀ pair ∈ pairs, pair.1 ∈ outports ∧ pair.2 ∈ outports) :
    (orderFunctionCalls outports pairs = .error .cycle ↔
      ∃ a, Relation.TransGen (Before pairs) a a) ∧
    ((¬ ∃ a, Relation.TransGen (Before pairs) a a) →
      ∃ order, orderFunctionCalls outports pairs = .ok order ∧
        (pairs = [] → order = []) ∧ (pairs ≠ [] → order.Perm outports) ∧
          ∃ calls, portOrder outports order = some calls ∧ calls.Perm outports ∧
            ∀ pair ∈ pairs, ∃ l m r, calls = l ++ pair.1 :: (m ++ pair.2 :: r)) := by
  unfold orderFunctionCalls
  split_ifs with hnil
  · subst hnil
    have hno : ¬ ∃ a, Relation.TransGen (Before ([] : List (α × α))) a a := by
      rintro ⟨a, h⟩
      obtain ⟨b, h, _⟩ := Relation.TransGen.head'_iff.1 h
      exact absurd h List.not_mem_nil
    refine ⟨iff_of_false (by simp) hno, fun _ => ⟨[], rfl, fun _ => rfl, fun h => absurd rfl h,
      outports, if_pos rfl, .refl _, fun pair h => absurd h List.not_mem_nil⟩⟩
  · have hclosed : ∀ x ∈ outports.reverse, ∀ y ∈ after pairs x, y ∈ outports.reverse :=
      fun x _ y hy => List.mem_reverse.2 (hpairs _ (mem_after.1 hy)).2
    have hspec := topoSortAll_spec hclosed
    rw [next_after] at hspec
    cases hresult : topoSortAll (after pairs) outports.reverse with
    | error e =>
        rw [hresult] at hspec
        obtain ⟨rfl, hcycle⟩ := hspec
        exact ⟨iff_of_true rfl hcycle, fun hno => absurd hcycle hno⟩
    | ok s =>
        rw [hresult] at hspec
        obtain ⟨hsorted, honce, hall⟩ := hspec
        have hno : ¬ ∃ a, Relation.TransGen (Before pairs) a a := by
          rintro ⟨a, hcycle⟩
          obtain ⟨b, hab, _⟩ := Relation.TransGen.head'_iff.1 hcycle
          have ha : a ∈ s.order := (hall a).2 (List.mem_reverse.2 (hpairs _ hab).1)
          rw [← next_after] at hcycle
          exact hsorted.irrefl ha hcycle
        have hperm : s.order.reverse.Perm outports := by
          refine (List.perm_ext_iff_of_nodup (List.nodup_reverse.2 honce) hports).2 fun x => ?_
          rw [List.mem_reverse, hall, List.mem_reverse]
        have hne : s.order.reverse ≠ [] := fun h => by
          obtain ⟨pair, hpair⟩ := List.exists_mem_of_ne_nil pairs hnil
          have hport := hperm.mem_iff.2 (hpairs pair hpair).1
          rw [h] at hport
          cases hport
        refine ⟨iff_of_false (by simp [Except.map]) hno, fun _ => ⟨s.order.reverse, rfl,
          fun h => absurd h hnil, fun _ => hperm, s.order.reverse, ?_, hperm, fun pair hpair => ?_⟩⟩
        · rw [portOrder, if_neg hne, if_pos hperm.length_eq]
        · have hmem : pair.1 ∈ s.order := (hall _).2 (List.mem_reverse.2 (hpairs pair hpair).1)
          obtain ⟨a, b, c, hsplit⟩ := hsorted.before hmem (mem_after.2 hpair)
          exact ⟨c.reverse, b.reverse, a.reverse, by rw [hsplit]; simp⟩

/-- Two joins behind the second port. -/
theorem orderFunctionCalls_spec_three :
    ∃ calls, portOrder ["a", "b", "c"] ["a", "c", "b"] = some calls ∧
      ∃ l m r, calls = l ++ "c" :: (m ++ "b" :: r) := by
  have hno : ¬ ∃ a, Relation.TransGen (Before [("a", "b"), ("c", "b")]) a a := by
    rintro ⟨a, h⟩
    obtain ⟨_, hout, _⟩ := Relation.TransGen.head'_iff.1 h
    obtain ⟨_, _, hin⟩ := Relation.TransGen.tail'_iff.1 h
    simp only [Before, List.mem_cons, Prod.mk.injEq, List.not_mem_nil, or_false] at hout hin
    obtain ⟨rfl, _⟩ | ⟨rfl, _⟩ := hout <;> simp at hin
  obtain ⟨_, h⟩ := orderFunctionCalls_spec ["a", "b", "c"] (by decide) [("a", "b"), ("c", "b")]
    (by decide)
  obtain ⟨order, horder, _, _, calls, hcalls, _, hbefore⟩ := h hno
  have hresult : orderFunctionCalls ["a", "b", "c"] [("a", "b"), ("c", "b")] =
      .ok ["a", "c", "b"] := by decide
  obtain rfl := Except.ok.inj (hresult.symm.trans horder)
  exact ⟨calls, hcalls, hbefore ("c", "b") (by decide)⟩

/-- **Without pairs there is no order**: the list stays empty and is no permutation of the
ports. -/
theorem no_pairs_no_order : ∃ order, orderFunctionCalls ["out"] [] = .ok order ∧
    ¬ order.Perm ["out"] := ⟨[], rfl, by simp⟩

end Join
end Floem
