import Mathlib
import Floem.Lib.Search

/-!
# Topological sorting

The recursion that lists a node behind all of its successors.  One list has the nodes that
were entered, another one the nodes that are finished; a node that is entered again before
it is finished lies on a cycle.

* `topoSort`, `topoSortAll` — the recursion and the loop over all nodes.
* `Sorted` — a list has the successors of its nodes in front of them.
* `topoSortAll_spec` — **the loop sorts the nodes, or there is a cycle**; the depth is never
  used up.
* `Sorted.irrefl` — what is sorted has no cycle.
-/

namespace Floem
namespace Lib

variable {α : Type*}

/-- Why a sort fails. -/
inductive Failure
  | cycle
  /-- The depth of the recursion is used up. -/
  | depth
  deriving DecidableEq, Repr

/-- The nodes entered and the nodes finished. -/
structure Sorting (α : Type*) where
  visit : List α
  order : List α

/-- The recursion at a node. -/
def topoSort [DecidableEq α] (next : α → List α) : ℕ → Sorting α → α → Except Failure (Sorting α)
  | 0, _, _ => .error .depth
  | depth + 1, s, x =>
    if x ∈ s.order then .ok s
    else if x ∈ s.visit then .error .cycle
    else do
      let s ← (next x).foldlM (topoSort next depth) ⟨s.visit ++ [x], s.order⟩
      return ⟨s.visit, s.order ++ [x]⟩

/-- The loop over all nodes. -/
def topoSortAll [DecidableEq α] (next : α → List α) (nodes : List α) :
    Except Failure (Sorting α) :=
  nodes.foldlM (topoSort next (nodes.length + 1)) ⟨[], []⟩

/-- The successors of a node are in front of it. -/
def Sorted (next : α → List α) (order : List α) : Prop :=
  ∀ a y b, order = a ++ y :: b → ∀ z ∈ next y, z ∈ a

/-- One node is a successor of another. -/
def Next (next : α → List α) (x y : α) : Prop := y ∈ next x

namespace Sorted

variable {next : α → List α} {order : List α}

theorem nil : Sorted next [] := fun a y b h => by simp at h

theorem concat (h : Sorted next order) {x : α} (hx : ∀ z ∈ next x, z ∈ order) :
    Sorted next (order ++ [x]) := by
  intro a y b hsplit z hz
  obtain rfl | ⟨b, c, rfl⟩ := List.eq_nil_or_concat b
  · obtain ⟨rfl, hxy⟩ := List.append_inj' hsplit rfl
    obtain rfl := List.singleton_injective hxy
    exact hx z hz
  · rw [List.concat_eq_append, ← List.cons_append, ← List.append_assoc] at hsplit
    obtain ⟨hinit, _⟩ := List.append_inj' hsplit rfl
    exact h a y b hinit z hz

/-- A successor is in front. -/
theorem before (h : Sorted next order) {x z : α} (hx : x ∈ order) (hz : z ∈ next x) :
    ∃ a b c, order = a ++ z :: (b ++ x :: c) := by
  obtain ⟨a, c, rfl⟩ := List.append_of_mem hx
  obtain ⟨a, b, rfl⟩ := List.append_of_mem (h a x c rfl z hz)
  exact ⟨a, b, c, by simp⟩

/-- **What is sorted has no cycle.** -/
theorem irrefl (h : Sorted next order) {x : α} (hx : x ∈ order) :
    ¬ Relation.TransGen (Next next) x x := by
  obtain ⟨a, b, hsplit, hfirst⟩ := List.eq_append_cons_of_mem hx
  -- Everything behind the first `x` on a path is in front of it in the list.
  have hpath : ∀ y, Relation.TransGen (Next next) x y → y ∈ a := fun y hy => by
    induction hy with
    | single hy => exact h a x b hsplit _ hy
    | tail _ hz ih =>
        obtain ⟨c, d, rfl⟩ := List.append_of_mem ih
        have hfront := h c _ (d ++ x :: b) (by rw [hsplit]; simp) _ hz
        exact List.mem_append_left _ hfront
  exact fun hcycle => hfirst (hpath x hcycle)

end Sorted

/-! ## The recursion -/

section Spec

variable (next : α → List α) (nodes : List α)

/-- A state of the recursion. -/
structure Sorting.Good (s : Sorting α) : Prop where
  sorted : Sorted next s.order
  once : s.order.Nodup
  visited : ∀ y ∈ s.order, y ∈ s.visit
  known : ∀ y ∈ s.visit, y ∈ nodes

/-- What the recursion does to the lists. -/
structure Sorting.Grows (s t : Sorting α) : Prop where
  order : ∀ y ∈ s.order, y ∈ t.order
  visit : ∀ y ∈ s.visit, y ∈ t.visit
  done : ∀ y ∈ t.visit, y ∈ s.visit ∨ y ∈ t.order
  fresh : ∀ y ∈ t.order, y ∈ s.order ∨ y ∉ s.visit

theorem Sorting.Grows.refl (s : Sorting α) : s.Grows s :=
  ⟨fun _ h => h, fun _ h => h, fun _ h => Or.inl h, fun _ h => Or.inl h⟩

theorem Sorting.Grows.trans {s t u : Sorting α} (h : s.Grows t) (h' : t.Grows u) : s.Grows u where
  order y hy := h'.order y (h.order y hy)
  visit y hy := h'.visit y (h.visit y hy)
  done y hy := by
    obtain hy | hy := h'.done y hy
    · exact (h.done y hy).imp_right (h'.order y)
    · exact Or.inr hy
  fresh y hy := by
    obtain hy | hy := h'.fresh y hy
    · exact h.fresh y hy
    · exact Or.inr fun hs => hy (h.visit y hs)

variable [DecidableEq α]

/-- The recursion may come to `x`: the depth suffices, and from the nodes that are not
finished there is a path to `x`. -/
structure Ready (depth : ℕ) (s : Sorting α) (x : α) : Prop where
  good : s.Good next nodes
  node : x ∈ nodes
  depth : (nodes.filter (· ∉ s.visit)).length < depth
  stack : ∀ y ∈ s.visit, y ∉ s.order → Relation.TransGen (Next next) y x

/-- The recursion goes on, or it has found a cycle. -/
def Settles (s : Sorting α) (P : Sorting α → Prop) : Except Failure (Sorting α) → Prop
  | .ok t => t.Good next nodes ∧ s.Grows t ∧ P t
  | .error e => e = .cycle ∧ ∃ x, Relation.TransGen (Next next) x x

variable {next nodes}

theorem Ready.mono {depth : ℕ} {s t : Sorting α} {x : α} (h : Ready next nodes depth s x)
    (ht : t.Good next nodes) (hst : s.Grows t) : Ready next nodes depth t x where
  good := ht
  node := h.node
  depth := Nat.lt_of_le_of_lt (length_left_le nodes hst.visit) h.depth
  stack y hy hn := by
    obtain hy | hy := hst.done y hy
    · exact h.stack y hy fun hs => hn (hst.order y hs)
    · exact absurd hy hn

/-- The loop over some nodes. -/
theorem settles_foldlM {step : Sorting α → α → Except Failure (Sorting α)} {depth : ℕ}
    (hstep : ∀ s x, Ready next nodes depth s x →
      Settles next nodes s (fun t => x ∈ t.order) (step s x)) {l : List α} :
    ∀ {s : Sorting α}, s.Good next nodes → (∀ x ∈ l, Ready next nodes depth s x) →
      Settles next nodes s (fun t => ∀ x ∈ l, x ∈ t.order) (l.foldlM step s) := by
  induction l with
  | nil => exact fun hs _ => ⟨hs, .refl _, fun x hx => absurd hx (List.not_mem_nil)⟩
  | cons x l ih =>
      intro s hs hl
      rw [List.foldlM_cons]
      have hx := hstep s x (hl x List.mem_cons_self)
      cases hresult : step s x with
      | error e =>
          rw [hresult] at hx
          exact hx
      | ok t =>
          rw [hresult] at hx
          obtain ⟨ht, hst, hxt⟩ := hx
          have hrest := ih ht fun y hy => (hl y (List.mem_cons_of_mem x hy)).mono ht hst
          change Settles next nodes s _ (l.foldlM step t)
          cases hfold : l.foldlM step t with
          | error e =>
              rw [hfold] at hrest
              exact hrest
          | ok u =>
              rw [hfold] at hrest
              obtain ⟨hu, htu, hlu⟩ := hrest
              exact ⟨hu, hst.trans htu, List.forall_mem_cons.2 ⟨htu.order x hxt, hlu⟩⟩

/-- **The invariant of the recursion.** -/
theorem topoSort_settles (hnext : ∀ x ∈ nodes, ∀ y ∈ next x, y ∈ nodes) {depth : ℕ} :
    ∀ (s : Sorting α) (x : α), Ready next nodes depth s x →
      Settles next nodes s (fun t => x ∈ t.order) (topoSort next depth s x) := by
  induction depth with
  | zero => exact fun s x h => absurd h.depth (Nat.not_lt_zero _)
  | succ depth ih =>
      intro s x h
      rw [topoSort]
      split_ifs with horder hvisit
      · exact ⟨h.good, .refl s, horder⟩
      · exact ⟨rfl, x, h.stack x hvisit horder⟩
      · -- the node is entered, and then each of its successors is searched
        have hgood : (⟨s.visit ++ [x], s.order⟩ : Sorting α).Good next nodes :=
          ⟨h.good.sorted, h.good.once, fun y hy => List.mem_append_left _ (h.good.visited y hy),
            fun y hy => (List.mem_append.1 hy).elim (h.good.known y) fun hy => by
              rw [List.mem_singleton.1 hy]
              exact h.node⟩
        have hsuccs : ∀ y ∈ next x, Ready next nodes depth ⟨s.visit ++ [x], s.order⟩ y := by
          intro y hy
          refine ⟨hgood, hnext x h.node y hy, ?_, fun z hz hn => ?_⟩
          · have hless := length_left_lt h.node hvisit
            have hsame : nodes.filter (· ∉ s.visit ++ [x]) = nodes.filter (· ∉ x :: s.visit) :=
              List.filter_congr fun z _ => by simp [or_comm]
            have hdepth := h.depth
            change (nodes.filter (· ∉ s.visit ++ [x])).length < depth
            rw [hsame]
            omega
          · obtain hz | hz := List.mem_append.1 hz
            · exact (h.stack z hz hn).tail hy
            · rw [List.mem_singleton.1 hz]
              exact .single hy
        have hloop := settles_foldlM ih hgood hsuccs
        cases hresult : (next x).foldlM (topoSort next depth) ⟨s.visit ++ [x], s.order⟩ with
        | error e =>
            rw [hresult] at hloop
            exact hloop
        | ok t =>
            rw [hresult] at hloop
            obtain ⟨ht, hst, hdone⟩ := hloop
            have hxvisit : x ∈ t.visit := hst.visit x (List.mem_append_right _ List.mem_cons_self)
            have hxnew : x ∉ t.order := fun hx => by
              obtain hx | hx := hst.fresh x hx
              · exact horder hx
              · exact hx (List.mem_append_right _ List.mem_cons_self)
            refine ⟨⟨ht.sorted.concat hdone, ?_, ?_, ht.known⟩, ⟨?_, ?_, ?_, ?_⟩,
              List.mem_append_right _ List.mem_cons_self⟩
            · exact List.nodup_append.2 ⟨ht.once, by simp, fun y hy z hz hyz =>
                hxnew (List.mem_singleton.1 hz ▸ hyz ▸ hy)⟩
            · intro y hy
              obtain hy | hy := List.mem_append.1 hy
              · exact ht.visited y hy
              · rw [List.mem_singleton.1 hy]
                exact hxvisit
            · exact fun y hy => List.mem_append_left _ (hst.order y hy)
            · exact fun y hy => hst.visit y (List.mem_append_left _ hy)
            · intro y hy
              obtain hy | hy := hst.done y hy
              · exact (List.mem_append.1 hy).imp_right (List.mem_append_right _)
              · exact Or.inr (List.mem_append_left _ hy)
            · intro y hy
              obtain hy | hy := List.mem_append.1 hy
              · exact (hst.fresh y hy).imp_right fun hn hs => hn (List.mem_append_left _ hs)
              · rw [List.mem_singleton.1 hy]
                exact Or.inr hvisit

/-- **The loop sorts the nodes, or there is a cycle.** -/
theorem topoSortAll_spec (hnext : ∀ x ∈ nodes, ∀ y ∈ next x, y ∈ nodes) :
    match topoSortAll next nodes with
    | .ok s => Sorted next s.order ∧ s.order.Nodup ∧ ∀ x, x ∈ s.order ↔ x ∈ nodes
    | .error e => e = .cycle ∧ ∃ x, Relation.TransGen (Next next) x x := by
  have hgood : (⟨[], []⟩ : Sorting α).Good next nodes :=
    ⟨.nil, List.nodup_nil, fun y hy => hy, fun y hy => absurd hy List.not_mem_nil⟩
  have hready : ∀ x ∈ nodes, Ready next nodes (nodes.length + 1) ⟨[], []⟩ x := fun x hx =>
    ⟨hgood, hx, Nat.lt_succ_of_le (List.length_filter_le _ _),
      fun y hy => absurd hy List.not_mem_nil⟩
  have h := settles_foldlM (topoSort_settles hnext) hgood hready
  unfold topoSortAll
  cases hresult : nodes.foldlM (topoSort next (nodes.length + 1)) ⟨[], []⟩ with
  | error e =>
      rw [hresult] at h
      exact h
  | ok s =>
      rw [hresult] at h
      obtain ⟨hs, _, hall⟩ := h
      exact ⟨hs.sorted, hs.once, fun x => ⟨fun hx => hs.known x (hs.visited x hx), hall x⟩⟩

end Spec

end Lib
end Floem
