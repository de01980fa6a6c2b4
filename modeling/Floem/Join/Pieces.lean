import Floem.Join.Flow
import Floem.Lib.Merging

/-!
# Pieces of data and what they cover

* `Covers` — a piece of data covers a chain of input ports; all the data covers every chain.
* `Clash` — two pieces cover one chain.
* `Merge` — two pieces that differ in the last part make a bigger one.
* `laws` — merging is associative where nothing clashes.
-/

namespace Floem
namespace Join

open Lib

/-- A piece of data; the empty list is all of it. -/
abbrev Piece := List InstancePart

/-- An input port of the join node, and input ports of the join nodes on the way to it. -/
abbrev Chain := List (String × ℕ)

/-- The piece covers the chain. -/
def Covers : Piece → Chain → Prop
  | [], _ => True
  | _ :: _, [] => False
  | a :: x, c :: cs => a.inst = c.1 ∧ c.2 ∈ a.ports ∧ Covers x cs

/-- Some chain is covered by both. -/
def Clash (x y : Piece) : Prop := ∃ c, Covers x c ∧ Covers y c

/-- Two parts of one instance make a bigger part, or nothing of it is missing. -/
def Merge (x y z : Piece) : Prop :=
  ∃ p a b, x = p ++ [a] ∧ y = p ++ [b] ∧ a.inst = b.inst ∧ Disjoint a.ports b.ports ∧
    z = if (a.ports ∪ b.ports).card = a.total then p
      else p ++ [⟨a.inst, a.ports ∪ b.ports, a.total⟩]

/-- Two pieces with the same instance in the last part, or all the data twice. -/
def Alike (x y : Piece) : Prop :=
  x = [] ∧ y = [] ∨ ∃ p a b, x = p ++ [a] ∧ y = p ++ [b] ∧ a.inst = b.inst

/-- A part of an instance: some of its input ports, and not all. -/
structure InstancePart.Ok (totals : String → ℕ) (a : InstancePart) : Prop where
  total : a.total = totals a.inst
  some : a.ports.Nonempty
  range : a.ports ⊆ Finset.range a.total
  missing : a.ports.card ≠ a.total

def PieceOk (totals : String → ℕ) (x : Piece) : Prop := ∀ a ∈ x, a.Ok totals

variable {totals : String → ℕ}

theorem PieceOk.prefix {x y : Piece} (h : PieceOk totals (x ++ y)) : PieceOk totals x :=
  fun a ha => h a (List.mem_append_left _ ha)

theorem PieceOk.last {x : Piece} {a : InstancePart} (h : PieceOk totals (x ++ [a])) :
    a.Ok totals := h a (List.mem_concat_self ..)

theorem PieceOk.concat {x : Piece} {a : InstancePart} (h : PieceOk totals x)
    (ha : a.Ok totals) : PieceOk totals (x ++ [a]) := by
  intro b hb
  obtain hb | hb := List.mem_append.1 hb
  · exact h b hb
  · rwa [List.mem_singleton.1 hb]

/-! ## Chains that two pieces cover -/

/-- A piece covers a chain, and goes on covering it with what comes behind. -/
theorem exists_covers {x : Piece} (h : PieceOk totals x) :
    ∃ c, ∀ y y' cs, Covers y cs → Covers y' cs →
      Covers (x ++ y) (c ++ cs) ∧ Covers (x ++ y') (c ++ cs) := by
  induction x with
  | nil => exact ⟨[], fun y y' cs hy hy' => ⟨hy, hy'⟩⟩
  | cons a x ih =>
      obtain ⟨c, hc⟩ := ih fun b hb => h b (List.mem_cons_of_mem a hb)
      obtain ⟨port, hport⟩ := (h a List.mem_cons_self).some
      refine ⟨(a.inst, port) :: c, fun y y' cs hy hy' => ?_⟩
      obtain ⟨h₁, h₂⟩ := hc y y' cs hy hy'
      exact ⟨⟨rfl, hport, h₁⟩, rfl, hport, h₂⟩

theorem clash_symm {x y : Piece} (h : Clash x y) : Clash y x :=
  let ⟨c, hx, hy⟩ := h
  ⟨c, hy, hx⟩

/-- All the data clashes with everything. -/
theorem clash_nil {x : Piece} (h : PieceOk totals x) : Clash x [] := by
  obtain ⟨c, hc⟩ := exists_covers h
  obtain ⟨hx, _⟩ := hc [] [] [] trivial trivial
  exact ⟨c ++ [], by simpa using hx, trivial⟩

theorem clash_self {x : Piece} (h : PieceOk totals x) : Clash x x := by
  obtain ⟨c, hc⟩ := exists_covers h
  obtain ⟨hx, _⟩ := hc [] [] [] trivial trivial
  rw [List.append_nil] at hx
  exact ⟨_, hx, hx⟩

/-- Pieces that share a port in the last part clash. -/
theorem clash_concat {x : Piece} {a b : InstancePart} (h : PieceOk totals x)
    (hinst : a.inst = b.inst) (hports : ¬ Disjoint a.ports b.ports) :
    Clash (x ++ [a]) (x ++ [b]) := by
  obtain ⟨port, ha, hb⟩ := Finset.not_disjoint_iff.1 hports
  obtain ⟨c, hc⟩ := exists_covers h
  obtain ⟨h₁, h₂⟩ := hc [a] [b] [(a.inst, port)] ⟨rfl, ha, trivial⟩ ⟨hinst.symm, hb, trivial⟩
  exact ⟨_, h₁, h₂⟩

theorem not_disjoint_of_clash {x : Piece} {a b : InstancePart}
    (h : Clash (x ++ [a]) (x ++ [b])) : ¬ Disjoint a.ports b.ports := by
  obtain ⟨c, ha, hb⟩ := h
  induction x generalizing c with
  | nil =>
      cases c with
      | nil => exact absurd ha id
      | cons d c => exact Finset.not_disjoint_iff.2 ⟨d.2, ha.2.1, hb.2.1⟩
  | cons e x ih =>
      cases c with
      | nil => exact absurd ha id
      | cons d c => exact ih c ha.2.2 hb.2.2

/-! ## The laws -/

theorem Merge.alike {x y z : Piece} (h : Merge x y z) : Alike x y :=
  let ⟨p, a, b, hx, hy, hinst, _⟩ := h
  Or.inr ⟨p, a, b, hx, hy, hinst⟩

theorem Merge.unique {x y z z' : Piece} (h : Merge x y z) (h' : Merge x y z') : z = z' := by
  obtain ⟨p, a, b, rfl, rfl, _, _, rfl⟩ := h
  obtain ⟨p', a', b', hx, hy, _, _, rfl⟩ := h'
  obtain ⟨rfl, ha⟩ := List.append_inj' hx rfl
  obtain ⟨_, hb⟩ := List.append_inj' hy rfl
  rw [List.singleton_inj.1 ha, List.singleton_inj.1 hb]

/-- The ports of two parts. -/
theorem InstancePart.Ok.union {a b : InstancePart} (ha : a.Ok totals) (hb : b.Ok totals)
    (hinst : a.inst = b.inst) (hmissing : (a.ports ∪ b.ports).card ≠ a.total) :
    (⟨a.inst, a.ports ∪ b.ports, a.total⟩ : InstancePart).Ok totals where
  total := ha.total
  some := ha.some.mono Finset.subset_union_left
  range := by
    have htotal : b.total = a.total := by rw [ha.total, hb.total, hinst]
    exact Finset.union_subset ha.range (htotal ▸ hb.range)
  missing := hmissing

/-- A third part leaves something missing from the first two. -/
theorem card_ne_of_third {a b c : InstancePart} (ha : a.Ok totals) (hb : b.Ok totals)
    (hc : c.Ok totals) (hab : a.inst = b.inst) (hac : a.inst = c.inst)
    (hdisj : Disjoint a.ports c.ports) (hdisj' : Disjoint b.ports c.ports) :
    (a.ports ∪ b.ports).card ≠ a.total := by
  intro hfull
  have hb' : b.total = a.total := by rw [ha.total, hb.total, hab]
  have hc' : c.total = a.total := by rw [ha.total, hc.total, hac]
  have hall : a.ports ∪ b.ports = Finset.range a.total := by
    refine Finset.eq_of_subset_of_card_le (Finset.union_subset ha.range (hb' ▸ hb.range)) ?_
    rw [Finset.card_range, hfull]
  obtain ⟨port, hport⟩ := hc.some
  have hmem : port ∈ a.ports ∪ b.ports := hall ▸ (hc' ▸ hc.range) hport
  obtain hmem | hmem := Finset.mem_union.1 hmem
  · exact Finset.disjoint_left.1 hdisj hmem hport
  · exact Finset.disjoint_left.1 hdisj' hmem hport

theorem laws (totals : String → ℕ) : Laws (PieceOk totals) Clash Merge where
  symm := by
    rintro x y z hx hy ⟨p, a, b, rfl, rfl, hinst, hdisj, rfl⟩
    have htotal : b.total = a.total := by rw [hx.last.total, hy.last.total, hinst]
    exact ⟨p, b, a, rfl, rfl, hinst.symm, hdisj.symm, by rw [htotal, hinst, Finset.union_comm]⟩
  unique := Merge.unique
  closed := by
    rintro x y z hx hy ⟨p, a, b, rfl, rfl, hinst, _, rfl⟩
    split
    · exact hx.prefix
    · rename_i hmissing
      exact hx.prefix.concat (hx.last.union hy.last hinst hmissing)
  clash_symm := clash_symm
  assoc := by
    rintro x y y' z z' hx hy hy' hxy hxy' hyy' ⟨p, a, b, rfl, rfl, hinst, hdisj, rfl⟩
      ⟨p', a', b', hx', rfl, hinst', hdisj', rfl⟩
    obtain ⟨rfl, ha⟩ := List.append_inj' hx' rfl
    obtain rfl := List.singleton_inj.1 ha
    have hbb : Disjoint b.ports b'.ports := by
      by_contra hno
      exact hyy' (clash_concat hx.prefix (hinst.symm.trans hinst') hno)
    have hab := card_ne_of_third hx.last hy.last hy'.last hinst hinst' hdisj' hbb
    have hab' := card_ne_of_third hx.last hy'.last hy.last hinst' hinst hdisj hbb.symm
    rw [if_neg hab, if_neg hab']
    refine ⟨_, ⟨p, _, b', rfl, rfl, hinst', Finset.disjoint_union_left.2 ⟨hdisj', hbb⟩, rfl⟩,
      p, _, b, rfl, rfl, hinst, Finset.disjoint_union_left.2 ⟨hdisj, hbb.symm⟩, ?_⟩
    simp only [Finset.union_right_comm a.ports b'.ports]

end Join
end Floem
