import Mathlib

/-!
# Graphs that store their edges twice

A graph between ports keeps each edge at both ends: at an output port the node and
the input ports it leads to, at an input port the list of the output ports that lead
there.  This file says when the two agree, and which changes keep them in agreement;
it knows nothing of how either is stored.

* `Wiring` — what can be read off such a graph.
* `Wiring.Consistent` — an input port lists an output port once if that leads to it
  and not at all otherwise, and no edge leaves the graph.
* `Consistent.link`, `Consistent.unlink`, `Consistent.remove` — a new edge at an output
  port that feeds nothing, the end of an edge, and the removal of nodes.
* `without` — a graph of which some output ports and some lists are not looked at, with
  `Consistent.hide` and `Consistent.link_without`: a pass that goes on with one end of an
  edge later is followed in between.
-/

namespace Floem
namespace Lib

/-- What can be read off a graph: its nodes, where an output port leads, and how often
an input port lists an output port. -/
structure Wiring (N P : Type*) where
  has : N → Prop
  out : N → P → Option (N × List P)
  listed : N → P → N × P → ℕ

namespace Wiring

variable {N P : Type*} (W : Wiring N P)

/-- Output port `p` of `u` leads to input port `q` of `v`. -/
def Feeds (u : N) (p : P) (v : N) (q : P) : Prop := ∃ qs, W.out u p = some (v, qs) ∧ q ∈ qs

/-- Some output port of `u` leads to `v`. -/
def Leads (u v : N) : Prop := ∃ p qs, W.out u p = some (v, qs)

/-- **Both ends of every edge agree.** -/
structure Consistent : Prop where
  out_has : ∀ {u p v qs}, W.out u p = some (v, qs) → W.has u ∧ W.has v
  listed_one : ∀ {u p v q}, W.Feeds u p v q → W.listed v q (u, p) = 1
  listed_zero : ∀ {u p v q}, ¬ W.Feeds u p v q → W.listed v q (u, p) = 0

open scoped Classical in
/-- The graph without the output ports in `D` and the lists of the nodes in `V`. -/
noncomputable def without (D : N → P → Prop) (V : N → Prop) : Wiring N P where
  has := W.has
  out u p := if D u p then none else W.out u p
  listed v q e := if V v then 0 else W.listed v q e

variable {W} {W' : Wiring N P} {D D' : N → P → Prop} {V : N → Prop}

theorem without_out {u : N} {p : P} (h : ¬ D u p) : (W.without D V).out u p = W.out u p :=
  if_neg h

theorem without_out_of {u : N} {p : P} (h : D u p) : (W.without D V).out u p = none := if_pos h

theorem without_listed {v : N} (h : ¬ V v) (q : P) (e : N × P) :
    (W.without D V).listed v q e = W.listed v q e :=
  if_neg h

theorem without_listed_of {v : N} (h : V v) (q : P) (e : N × P) :
    (W.without D V).listed v q e = 0 :=
  if_pos h

/-- What is looked at leads somewhere. -/
theorem out_of_without {u : N} {p : P} {next : N × List P}
    (h : (W.without D V).out u p = some next) : ¬ D u p ∧ W.out u p = some next := by
  by_cases hD : D u p
  · rw [without_out_of hD] at h
    cases h
  · exact ⟨hD, (without_out hD).symm.trans h⟩

theorem without_feeds {u : N} {p : P} {v : N} {q : P} :
    (W.without D V).Feeds u p v q ↔ ¬ D u p ∧ W.Feeds u p v q := by
  constructor
  · rintro ⟨qs, hqs, hq⟩
    obtain ⟨hD, hqs⟩ := out_of_without hqs
    exact ⟨hD, qs, hqs, hq⟩
  · rintro ⟨hD, qs, hqs, hq⟩
    exact ⟨qs, (without_out hD).trans hqs, hq⟩

namespace Consistent

/-- What an input port lists leads to it. -/
theorem feeds_of_listed (h : W.Consistent) {u : N} {p : P} {v : N} {q : P}
    (hl : W.listed v q (u, p) ≠ 0) : W.Feeds u p v q := by
  by_contra hf
  exact hl (h.listed_zero hf)

/-- More nodes, and the same edges. -/
theorem congr (h : W.Consistent) (hhas : ∀ w, W.has w → W'.has w)
    (hout : ∀ x r, W'.out x r = W.out x r)
    (hlisted : ∀ y s e, W'.listed y s e = W.listed y s e) : W'.Consistent where
  out_has hxr := (h.out_has ((hout ..).symm.trans hxr)).imp (hhas _) (hhas _)
  listed_one hf := by
    obtain ⟨qs, hqs, hq⟩ := hf
    exact (hlisted ..).trans (h.listed_one ⟨qs, (hout ..).symm.trans hqs, hq⟩)
  listed_zero hf := by
    rw [hlisted]
    refine h.listed_zero fun ⟨qs, hqs, hq⟩ => hf ⟨qs, (hout ..).trans hqs, hq⟩

section Edges

variable [DecidableEq N] [DecidableEq P]

/-- **A new edge** from an output port that feeds nothing yet. -/
theorem link (h : W.Consistent) {u : N} {p : P} {v : N} {qs : List P} (hu : W.has u)
    (hv : W.has v) (hfree : ∀ y s, ¬ W.Feeds u p y s) (hnodup : qs.Nodup)
    (hhas : ∀ w, W.has w → W'.has w)
    (hout : ∀ x r, W'.out x r = if x = u ∧ r = p then some (v, qs) else W.out x r)
    (hlisted : ∀ y s e, W'.listed y s e =
      W.listed y s e + if y = v ∧ e = (u, p) then qs.count s else 0) : W'.Consistent := by
  -- no input port lists the free output port
  have hunlisted : ∀ y s, W.listed y s (u, p) = 0 := fun y s => h.listed_zero (hfree y s)
  refine ⟨fun {x r y rs} hx => ?_, fun {x r y s} hf => ?_, fun {x r y s} hf => ?_⟩
  · rw [hout] at hx
    split_ifs at hx with hxu
    · obtain ⟨rfl, rfl⟩ := Prod.mk.inj (Option.some.inj hx)
      exact ⟨hxu.1 ▸ hhas u hu, hhas v hv⟩
    · exact (h.out_has hx).imp (hhas _) (hhas _)
  · obtain ⟨rs, hrs, hs⟩ := hf
    rw [hout] at hrs
    rw [hlisted]
    split_ifs at hrs with hxu
    · obtain ⟨rfl, rfl⟩ := hxu
      obtain ⟨rfl, rfl⟩ := Prod.mk.inj (Option.some.inj hrs)
      rw [hunlisted, if_pos ⟨rfl, rfl⟩, List.count_eq_one_of_mem hnodup hs]
    · rw [h.listed_one ⟨rs, hrs, hs⟩, if_neg fun he => hxu (Prod.mk.inj he.2)]
  · rw [hlisted]
    by_cases hxu : x = u ∧ r = p
    · obtain ⟨rfl, rfl⟩ := hxu
      rw [hunlisted, Nat.zero_add]
      split_ifs with hy
      · refine List.count_eq_zero_of_not_mem fun hs => hf ⟨qs, ?_, hs⟩
        rw [hout, if_pos ⟨rfl, rfl⟩, hy.1]
      · rfl
    · rw [if_neg fun he => hxu (Prod.mk.inj he.2), Nat.add_zero]
      refine h.listed_zero fun ⟨rs, hrs, hs⟩ => hf ⟨rs, ?_, hs⟩
      rw [hout, if_neg hxu, hrs]

/-- **The end of an edge.** -/
theorem unlink (h : W.Consistent) {u : N} {p : P} (hhas : ∀ w, W.has w → W'.has w)
    (hout : ∀ x r, W'.out x r = if x = u ∧ r = p then none else W.out x r)
    (hlisted : ∀ y s e, W'.listed y s e = if e = (u, p) then 0 else W.listed y s e) :
    W'.Consistent := by
  refine ⟨fun {x r y rs} hx => ?_, fun {x r y s} hf => ?_, fun {x r y s} hf => ?_⟩
  · rw [hout] at hx
    split_ifs at hx
    exact (h.out_has hx).imp (hhas _) (hhas _)
  · obtain ⟨rs, hrs, hs⟩ := hf
    rw [hout] at hrs
    rw [hlisted]
    split_ifs at hrs with hxu
    rw [if_neg fun he => hxu (Prod.mk.inj he)]
    exact h.listed_one ⟨rs, hrs, hs⟩
  · rw [hlisted]
    split_ifs with hxu
    · rfl
    · refine h.listed_zero fun ⟨rs, hrs, hs⟩ => hf ⟨rs, ?_, hs⟩
      rw [hout, if_neg fun he => hxu (Prod.ext he.1 he.2), hrs]

end Edges

/-- **The removal of nodes** with all their edges. -/
theorem remove (h : W.Consistent) {D : N → Prop} (hhas : ∀ w, W.has w → ¬ D w → W'.has w)
    (hout : ∀ x r y rs, W'.out x r = some (y, rs) ↔ W.out x r = some (y, rs) ∧ ¬ D x ∧ ¬ D y)
    (hlisted : ∀ y s x r, ¬ D y → ¬ D x → W'.listed y s (x, r) = W.listed y s (x, r))
    (hlisted' : ∀ y s x r, D y ∨ D x → W'.listed y s (x, r) = 0) : W'.Consistent := by
  refine ⟨fun {x r y rs} hx => ?_, fun {x r y s} hf => ?_, fun {x r y s} hf => ?_⟩
  · obtain ⟨hx, hDx, hDy⟩ := (hout x r y rs).1 hx
    exact ⟨hhas x (h.out_has hx).1 hDx, hhas y (h.out_has hx).2 hDy⟩
  · obtain ⟨rs, hrs, hs⟩ := hf
    obtain ⟨hrs, hDx, hDy⟩ := (hout x r y rs).1 hrs
    rw [hlisted y s x r hDy hDx]
    exact h.listed_one ⟨rs, hrs, hs⟩
  · by_cases hD : D y ∨ D x
    · exact hlisted' y s x r hD
    · rw [hlisted y s x r (fun hy => hD (Or.inl hy)) (fun hx => hD (Or.inr hx))]
      refine h.listed_zero fun ⟨rs, hrs, hs⟩ => hf ⟨rs, (hout x r y rs).2 ⟨hrs, ?_, ?_⟩, hs⟩
      · exact fun hx => hD (Or.inr hx)
      · exact fun hy => hD (Or.inl hy)

/-! ## Edges that are stored at one end -/

/-- What is said of an edge that is looked at, in a list that is. -/
theorem listed_without (h : (W.without D V).Consistent) {u : N} {p : P} {v : N} {q : P}
    (hV : ¬ V v) (hD : ¬ D u p) (hf : W.Feeds u p v q) : W.listed v q (u, p) = 1 :=
  (without_listed hV q (u, p)).symm.trans (h.listed_one (without_feeds.2 ⟨hD, hf⟩))

theorem feeds_of_listed_without (h : (W.without D V).Consistent) {u : N} {p : P} {v : N} {q : P}
    (hV : ¬ V v) (hl : W.listed v q (u, p) ≠ 0) : ¬ D u p ∧ W.Feeds u p v q := by
  refine without_feeds.1 (h.feeds_of_listed ?_)
  rwa [without_listed hV]

/-- The same output ports are looked at, of those that feed something. -/
theorem congr_without (h : (W.without D V).Consistent)
    (hhas : ∀ {u p v qs}, W.out u p = some (v, qs) → W.has u ∧ W.has v)
    (hD : ∀ {u p v q}, W.Feeds u p v q → (D u p ↔ D' u p)) : (W.without D' V).Consistent where
  out_has hx := hhas (out_of_without hx).2
  listed_one hf := by
    obtain ⟨hD', hf⟩ := without_feeds.1 hf
    exact h.listed_one (without_feeds.2 ⟨fun hd => hD' ((hD hf).1 hd), hf⟩)
  listed_zero hf := by
    refine h.listed_zero fun hf' => hf ?_
    obtain ⟨hd, hf'⟩ := without_feeds.1 hf'
    exact without_feeds.2 ⟨fun hd' => hd ((hD hf').2 hd'), hf'⟩

/-- **What leads to a node**, and its list, is no longer looked at. -/
theorem hide (h : (W.without D V).Consistent) (v : N) :
    (W.without (fun u p => D u p ∨ ∃ qs, W.out u p = some (v, qs))
      fun w => V w ∨ w = v).Consistent := by
  refine ⟨fun {x r y rs} hx => ?_, fun {x r y s} hf => ?_, fun {x r y s} hf => ?_⟩
  · obtain ⟨hD, hx⟩ := out_of_without hx
    exact h.out_has ((without_out fun hd => hD (Or.inl hd)).trans hx)
  · obtain ⟨hD, qs, hqs, hs⟩ := without_feeds.1 hf
    have hone := h.listed_one (without_feeds.2 ⟨fun hd => hD (Or.inl hd), qs, hqs, hs⟩)
    by_cases hV : V y
    · rw [without_listed_of hV] at hone
      cases hone
    · rw [without_listed hV] at hone
      rw [without_listed, hone]
      rintro (hy | rfl)
      · exact hV hy
      · exact hD (Or.inr ⟨qs, hqs⟩)
  · by_cases hy : V y ∨ y = v
    · exact without_listed_of (V := fun w => V w ∨ w = v) hy s (x, r)
    · rw [without_listed (V := fun w => V w ∨ w = v) hy, ← without_listed (D := D) fun hV => hy (Or.inl hV)]
      refine h.listed_zero fun hf' => hf ?_
      obtain ⟨hd, qs, hqs, hs⟩ := without_feeds.1 hf'
      refine without_feeds.2 ⟨?_, qs, hqs, hs⟩
      rintro (hD | ⟨rs, hrs⟩)
      · exact hd hD
      · exact hy (Or.inr (Prod.mk.inj (Option.some.inj (hqs.symm.trans hrs))).1)

/-- **A new edge** from an output port that is not looked at, or feeds nothing. -/
theorem link_without [DecidableEq N] [DecidableEq P] (h : (W.without D V).Consistent) {u : N}
    {p : P} {v : N} {qs : List P} (hu : W.has u) (hv : W.has v) (hV : ¬ V v)
    (hfree : ∀ y s, W.Feeds u p y s → D u p) (hnodup : qs.Nodup) (hhas : ∀ w, W.has w → W'.has w)
    (hout : ∀ x r, W'.out x r = if x = u ∧ r = p then some (v, qs) else W.out x r)
    (hlisted : ∀ y s e, W'.listed y s e =
      W.listed y s e + if y = v ∧ e = (u, p) then qs.count s else 0) :
    (W'.without (fun x r => D x r ∧ (x, r) ≠ (u, p)) V).Consistent := by
  refine h.link (u := u) (p := p) (v := v) hu hv (fun y s hf => ?_) hnodup hhas (fun x r => ?_)
    fun y s e => ?_
  · obtain ⟨hD, hf⟩ := without_feeds.1 hf
    exact hD (hfree y s hf)
  · by_cases hx : x = u ∧ r = p
    · rw [without_out fun hD => hD.2 (Prod.ext hx.1 hx.2), hout, if_pos hx, if_pos hx]
    · rw [if_neg hx]
      by_cases hD : D x r
      · rw [without_out_of hD, without_out_of ⟨hD, fun he => hx (Prod.mk.inj he)⟩]
      · rw [without_out hD, without_out fun hd => hD hd.1, hout, if_neg hx]
  · by_cases hy : V y
    · rw [without_listed_of hy, without_listed_of hy, if_neg]
      rintro ⟨rfl, -⟩
      exact hV hy
    · rw [without_listed hy, without_listed hy, hlisted]

end Consistent
end Wiring

end Lib
end Floem
