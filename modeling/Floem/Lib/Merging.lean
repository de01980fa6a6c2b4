import Mathlib

/-!
# Merging the members of a collection

Two members of a finite collection may be merged into one, as often as one likes.

* `Merges` — what a collection can become.
* `Clashes`, `WouldClash` — two members that must not be in one collection, and collections
  that can come to hold such members.
* `Laws` — merging is symmetric, has one result, and is associative as long as nothing clashes.
* `merges_unique` — a collection that cannot come to clash is merged in one way only.
-/

namespace Floem
namespace Lib

open Relation

variable {α : Type*} (ok : α → Prop) (clash : α → α → Prop) (merge : α → α → α → Prop)

/-- Two members are merged. -/
def MergeStep (M M' : Multiset α) : Prop :=
  ∃ x y z N, merge x y z ∧ M = x ::ₘ y ::ₘ N ∧ M' = z ::ₘ N

/-- What a collection can become. -/
abbrev Merges : Multiset α → Multiset α → Prop := ReflTransGen (MergeStep merge)

/-- Two members clash. -/
def Clashes (M : Multiset α) : Prop := ∃ x y N, M = x ::ₘ y ::ₘ N ∧ clash x y

def WouldClash (M : Multiset α) : Prop := ∃ M', Merges merge M M' ∧ Clashes clash M'

/-- Nothing is left to merge. -/
def Merged (M : Multiset α) : Prop := ∀ M', ¬ MergeStep merge M M'

/-- What merging has to satisfy. -/
structure Laws : Prop where
  symm : ∀ {x y z}, ok x → ok y → merge x y z → merge y x z
  unique : ∀ {x y z z'}, merge x y z → merge x y z' → z = z'
  closed : ∀ {x y z}, ok x → ok y → merge x y z → ok z
  clash_symm : ∀ {x y}, clash x y → clash y x
  assoc : ∀ {x y y' z z'}, ok x → ok y → ok y' → ¬ clash x y → ¬ clash x y' → ¬ clash y y' →
    merge x y z → merge x y' z' → ∃ w, merge z y' w ∧ merge z' y w

variable {ok clash merge}

theorem MergeStep.add {M M' : Multiset α} (h : MergeStep merge M M') (K : Multiset α) :
    MergeStep merge (M + K) (M' + K) := by
  obtain ⟨x, y, z, N, hmerge, rfl, rfl⟩ := h
  exact ⟨x, y, z, N + K, hmerge, by rw [Multiset.cons_add, Multiset.cons_add],
    Multiset.cons_add ..⟩

theorem Merges.add {M M' : Multiset α} (h : Merges merge M M') (K : Multiset α) :
    Merges merge (M + K) (M' + K) := by
  induction h with
  | refl => exact .refl
  | tail _ hstep ih => exact ih.tail (hstep.add K)

theorem Merges.add_left {M M' : Multiset α} (h : Merges merge M M') (K : Multiset α) :
    Merges merge (K + M) (K + M') := by
  rw [Multiset.add_comm K, Multiset.add_comm K]
  exact h.add K

theorem Clashes.add {M : Multiset α} (h : Clashes clash M) (K : Multiset α) :
    Clashes clash (M + K) := by
  obtain ⟨x, y, N, rfl, hclash⟩ := h
  exact ⟨x, y, N + K, by rw [Multiset.cons_add, Multiset.cons_add], hclash⟩

theorem clashes_of_mem {M : Multiset α} {x y : α} (hx : x ∈ M) (h : clash x y) :
    Clashes clash (y ::ₘ M) := by
  obtain ⟨N, rfl⟩ := Multiset.exists_cons_of_mem hx
  exact ⟨x, y, N, Multiset.cons_swap y x N, h⟩

theorem WouldClash.of_merges {M M' : Multiset α} (h : Merges merge M M')
    (hclash : WouldClash clash merge M') : WouldClash clash merge M :=
  let ⟨N, hN, hc⟩ := hclash
  ⟨N, h.trans hN, hc⟩

theorem WouldClash.add {M : Multiset α} (h : WouldClash clash merge M) (K : Multiset α) :
    WouldClash clash merge (M + K) :=
  let ⟨N, hN, hc⟩ := h
  ⟨N + K, hN.add K, hc.add K⟩

/-! ## Two pairs of a collection -/

/-- Two pairs of members are the same, share a member, or have none in common. -/
theorem pair_cases {x y x' y' : α} {N N' : Multiset α}
    (h : x ::ₘ y ::ₘ N = x' ::ₘ y' ::ₘ N') :
    (x = x' ∧ y = y' ∧ N = N') ∨ (x = y' ∧ y = x' ∧ N = N') ∨
      (∃ K, x = x' ∧ N = y' ::ₘ K ∧ N' = y ::ₘ K) ∨
      (∃ K, x = y' ∧ N = x' ::ₘ K ∧ N' = y ::ₘ K) ∨
      (∃ K, y = x' ∧ N = y' ::ₘ K ∧ N' = x ::ₘ K) ∨
      (∃ K, y = y' ∧ N = x' ::ₘ K ∧ N' = x ::ₘ K) ∨
      ∃ K, N = x' ::ₘ y' ::ₘ K ∧ N' = x ::ₘ y ::ₘ K := by
  obtain ⟨rfl, hrest⟩ | ⟨_, K, hN, hN'⟩ := Multiset.cons_eq_cons.1 h
  · obtain ⟨rfl, rfl⟩ | ⟨_, K, rfl, rfl⟩ := Multiset.cons_eq_cons.1 hrest
    · exact Or.inl ⟨rfl, rfl, rfl⟩
    · exact Or.inr (Or.inr (Or.inl ⟨K, rfl, rfl, rfl⟩))
  · obtain ⟨rfl, rfl⟩ | ⟨_, L, rfl, rfl⟩ := Multiset.cons_eq_cons.1 hN
    · obtain ⟨rfl, rfl⟩ | ⟨_, L, rfl, rfl⟩ := Multiset.cons_eq_cons.1 hN'
      · exact Or.inr (Or.inl ⟨rfl, rfl, rfl⟩)
      · exact Or.inr (Or.inr (Or.inr (Or.inr (Or.inl ⟨L, rfl, rfl, rfl⟩))))
    · obtain ⟨rfl, rfl⟩ | ⟨_, L', rfl, hL⟩ := Multiset.cons_eq_cons.1 hN'
      · exact Or.inr (Or.inr (Or.inr (Or.inl ⟨L, rfl, rfl, rfl⟩)))
      · obtain ⟨rfl, rfl⟩ | ⟨_, L'', rfl, rfl⟩ := Multiset.cons_eq_cons.1 hL
        · exact Or.inr (Or.inr (Or.inr (Or.inr (Or.inr (Or.inl ⟨L, rfl, rfl, rfl⟩)))))
        · exact Or.inr (Or.inr (Or.inr (Or.inr (Or.inr (Or.inr ⟨L'', rfl, rfl⟩)))))

/-! ## One way only -/

section Laws

variable (laws : Laws ok clash merge)

include laws

/-- Two mergers that share a member. -/
theorem shared_diamond {x y y' z z' : α} {K : Multiset α}
    (hok : ∀ a ∈ x ::ₘ y ::ₘ y' ::ₘ K, ok a) (hM : ¬ Clashes clash (x ::ₘ y ::ₘ y' ::ₘ K))
    (h : merge x y z) (h' : merge x y' z') :
    ∃ M, MergeStep merge (z ::ₘ y' ::ₘ K) M ∧ MergeStep merge (z' ::ₘ y ::ₘ K) M := by
  have hxy : ¬ clash x y := fun hc => hM ⟨x, y, _, rfl, hc⟩
  have hxy' : ¬ clash x y' := fun hc =>
    hM ⟨x, y', y ::ₘ K, by rw [Multiset.cons_swap y y'], hc⟩
  have hyy' : ¬ clash y y' := fun hc =>
    hM ⟨y, y', x ::ₘ K, by rw [Multiset.cons_swap x y, Multiset.cons_swap x y'], hc⟩
  obtain ⟨w, hw, hw'⟩ := laws.assoc (hok x (by simp)) (hok y (by simp)) (hok y' (by simp))
    hxy hxy' hyy' h h'
  exact ⟨w ::ₘ K, ⟨z, y', w, K, hw, rfl, rfl⟩, ⟨z', y, w, K, hw', rfl, rfl⟩⟩

/-- **Two mergers can be made up for.** -/
theorem mergeStep_diamond {M M₁ M₂ : Multiset α} (hok : ∀ x ∈ M, ok x)
    (hM : ¬ Clashes clash M) (h₁ : MergeStep merge M M₁) (h₂ : MergeStep merge M M₂) :
    M₁ = M₂ ∨ ∃ M₃, MergeStep merge M₁ M₃ ∧ MergeStep merge M₂ M₃ := by
  obtain ⟨x, y, z, N, h, rfl, rfl⟩ := h₁
  obtain ⟨x', y', z', N', h', hM', rfl⟩ := h₂
  have hx : ok x := hok x (by simp)
  have hy : ok y := hok y (by simp)
  have hx' : ok x' := hok x' (by simp [hM'])
  have hy' : ok y' := hok y' (by simp [hM'])
  obtain ⟨rfl, rfl, rfl⟩ | ⟨rfl, rfl, rfl⟩ | ⟨K, rfl, rfl, rfl⟩ | ⟨K, rfl, rfl, rfl⟩ |
    ⟨K, rfl, rfl, rfl⟩ | ⟨K, rfl, rfl, rfl⟩ | ⟨K, rfl, rfl⟩ := pair_cases hM'
  · exact Or.inl (by rw [laws.unique h h'])
  · exact Or.inl (by rw [laws.unique h (laws.symm hx' hy' h')])
  · exact Or.inr (shared_diamond laws hok hM h h')
  · exact Or.inr (shared_diamond laws hok hM h (laws.symm hx' hy' h'))
  · rw [Multiset.cons_swap x y] at hok hM
    exact Or.inr (shared_diamond laws hok hM (laws.symm hx hy h) h')
  · rw [Multiset.cons_swap x y] at hok hM
    exact Or.inr (shared_diamond laws hok hM (laws.symm hx hy h) (laws.symm hx' hy' h'))
  · refine Or.inr ⟨z ::ₘ z' ::ₘ K, ⟨x', y', z', z ::ₘ K, h', ?_, ?_⟩, x, y, z, z' ::ₘ K, h, ?_, rfl⟩
    · rw [Multiset.cons_swap z x', Multiset.cons_swap z y']
    · exact Multiset.cons_swap ..
    · rw [Multiset.cons_swap z' x, Multiset.cons_swap z' y]

theorem MergeStep.all_ok {M M' : Multiset α} (h : MergeStep merge M M') (hok : ∀ x ∈ M, ok x) :
    ∀ x ∈ M', ok x := by
  obtain ⟨x, y, z, N, hmerge, rfl, rfl⟩ := h
  intro a ha
  obtain rfl | ha := Multiset.mem_cons.1 ha
  · exact laws.closed (hok x (by simp)) (hok y (by simp)) hmerge
  · exact hok a (by simp [ha])

theorem Merges.all_ok {M M' : Multiset α} (h : Merges merge M M') (hok : ∀ x ∈ M, ok x) :
    ∀ x ∈ M', ok x := by
  induction h with
  | refl => exact hok
  | tail _ hstep ih => exact hstep.all_ok laws ih

/-- **A collection that cannot come to clash is merged in one way only.** -/
theorem merges_unique {M R R' : Multiset α} (hok : ∀ x ∈ M, ok x)
    (hM : ¬ WouldClash clash merge M) (h : Merges merge M R) (h' : Merges merge M R')
    (hR : Merged merge R) (hR' : Merged merge R') : R = R' := by
  -- mergers from collections that are reached only
  let step : Multiset α → Multiset α → Prop := fun A B =>
    Merges merge M A ∧ MergeStep merge A B
  have hlift : ∀ {A}, Merges merge M A → ReflTransGen step M A := by
    intro A hA
    induction hA with
    | refl => exact .refl
    | tail hreach hstep ih => exact ih.tail ⟨hreach, hstep⟩
  have hstuck : ∀ {A B}, Merged merge A → ReflTransGen step A B → A = B := by
    intro A B hA hB
    obtain rfl | ⟨C, hC, _⟩ := ReflTransGen.cases_head hB
    · rfl
    · exact absurd hC.2 (hA C)
  obtain ⟨S, hS, hS'⟩ := church_rosser (r := step) (fun A B C hB hC => by
    have hclash : ¬ Clashes clash A := fun hc => hM ⟨A, hB.1, hc⟩
    obtain rfl | ⟨D, hD, hD'⟩ :=
      mergeStep_diamond laws (Merges.all_ok laws hB.1 hok) hclash hB.2 hC.2
    · exact ⟨B, .refl, .refl⟩
    · exact ⟨D, .single ⟨hB.1.tail hB.2, hD⟩, .single ⟨hC.1.tail hC.2, hD'⟩⟩)
    (hlift h) (hlift h')
  exact (hstuck hR hS).trans (hstuck hR' hS').symm

end Laws

end Lib
end Floem
