import Mathlib

/-!
# Greedy selection

A list is gone through from the small to the large; what an element already kept rejects is
left out.

* `greedy` — the selection.
* `mem_greedy_iff` — on a sorted list it is the one set of elements that none of its own
  members rejects.
* `greedy_covers_iff` — when the selection covers the list with respect to a finer order:
  exactly if the minimal elements do not reject each other.
-/

namespace Floem
namespace Lib

variable {α : Type*}

/-- Keep what nothing kept so far rejects. -/
def greedy (rejects : α → α → Bool) (l : List α) : List α :=
  l.foldl (fun kept a => if kept.any (rejects · a) then kept else kept ++ [a]) []

section Greedy

variable {rejects : α → α → Bool}

theorem greedy_concat (l : List α) (a : α) : greedy rejects (l ++ [a]) =
    if (greedy rejects l).any (rejects · a) then greedy rejects l
    else greedy rejects l ++ [a] := by
  rw [greedy, List.foldl_append]
  rfl

theorem greedy_subset {l : List α} : ∀ a ∈ greedy rejects l, a ∈ l := by
  induction l using List.reverseRecOn with
  | nil => exact fun a ha => ha
  | append_singleton l a ih =>
      intro b hb
      rw [greedy_concat] at hb
      split_ifs at hb
      · exact List.mem_append_left _ (ih b hb)
      · exact (List.mem_append.1 hb).elim (fun hb => List.mem_append_left _ (ih b hb))
          (List.mem_append_right l)

variable {size : α → ℕ}

/-- **What is kept is what nothing kept rejects**, where only the smaller rejects. -/
theorem mem_greedy_iff {l : List α} (hsorted : l.Pairwise fun a b => size a ≤ size b)
    (hsize : ∀ a b, rejects a b → size a < size b) (a : α) :
    a ∈ greedy rejects l ↔ a ∈ l ∧ ∀ b ∈ greedy rejects l, ¬ rejects b a := by
  induction l using List.reverseRecOn generalizing a with
  | nil => simp [greedy]
  | append_singleton l c ih =>
      rw [List.pairwise_append] at hsorted
      obtain ⟨hl, _, hlast⟩ := hsorted
      have hself : ¬ rejects c c := fun h => absurd (hsize c c h) (Nat.lt_irrefl _)
      have hback : ∀ b ∈ l, ¬ rejects c b := fun b hb h =>
        absurd (hsize c b h) (Nat.not_lt.2 (hlast b hb c (List.mem_singleton_self c)))
      rw [greedy_concat]
      split_ifs with hany
      · obtain ⟨b, hb, hrejects⟩ := List.any_eq_true.1 hany
        rw [ih hl a, List.mem_append, List.mem_singleton]
        refine and_congr_left fun hfree => ⟨Or.inl, fun h => h.resolve_right ?_⟩
        rintro rfl
        exact hfree b hb hrejects
      · have hc : ∀ b ∈ greedy rejects l, ¬ rejects b c := fun b hb h =>
          hany (List.any_eq_true.2 ⟨b, hb, h⟩)
        simp only [List.mem_append, List.mem_singleton, ih hl a]
        constructor
        · rintro (⟨ha, hfree⟩ | rfl)
          · refine ⟨Or.inl ha, ?_⟩
            rintro b (hb | rfl)
            · exact hfree b hb
            · exact hback a ha
          · refine ⟨Or.inr rfl, ?_⟩
            rintro b (hb | rfl)
            · exact hc b hb
            · exact hself
        · rintro ⟨ha | rfl, hfree⟩
          · exact Or.inl ⟨ha, fun b hb => hfree b (Or.inl hb)⟩
          · exact Or.inr rfl

/-! ## Covering -/

variable {below : α → α → Prop}

/-- Nothing of the list is below the element. -/
def MinimalIn (below : α → α → Prop) (l : List α) (a : α) : Prop := a ∈ l ∧ ∀ b ∈ l, ¬ below b a

/-- Below every element is a minimal one. -/
theorem exists_minimal (htrans : ∀ a b c, below a b → below b c → below a c)
    (hsize : ∀ a b, below a b → size a < size b) {l : List α} :
    ∀ a ∈ l, ∃ m, MinimalIn below l m ∧ (m = a ∨ below m a) := by
  intro a
  induction hn : size a using Nat.strongRecOn generalizing a with
  | _ n ih =>
      intro ha
      by_cases hmin : ∀ b ∈ l, ¬ below b a
      · exact ⟨a, ⟨ha, hmin⟩, Or.inl rfl⟩
      · push Not at hmin
        obtain ⟨b, hb, hbelow⟩ := hmin
        obtain ⟨m, hm, hmb⟩ := ih (size b) (hn ▸ hsize b a hbelow) b rfl hb
        refine ⟨m, hm, Or.inr ?_⟩
        obtain rfl | hmb := hmb
        · exact hbelow
        · exact htrans m b a hmb hbelow

/-- **The selection covers the list** exactly if no minimal element rejects another. -/
theorem greedy_covers_iff {l : List α} (hsorted : l.Pairwise fun a b => size a ≤ size b)
    (hsize : ∀ a b, rejects a b → size a < size b)
    (htrans : ∀ a b c, below a b → below b c → below a c)
    (hbelow : ∀ a b, below a b → rejects a b) :
    (∀ a ∈ l, ∃ k ∈ greedy rejects l, k = a ∨ below k a) ↔
      ∀ a b, MinimalIn below l a → MinimalIn below l b → ¬ rejects b a := by
  have hkept := mem_greedy_iff hsorted hsize
  have hsmaller : ∀ a b, below a b → size a < size b := fun a b h => hsize a b (hbelow a b h)
  constructor
  · intro hcover
    have hmem : ∀ a, MinimalIn below l a → a ∈ greedy rejects l := fun a ha => by
      obtain ⟨k, hk, rfl | hka⟩ := hcover a ha.1
      · exact hk
      · exact absurd hka (ha.2 k (greedy_subset k hk))
    exact fun a b ha hb => ((hkept a).1 (hmem a ha)).2 b (hmem b hb)
  · intro hfree
    -- By size: the minimal elements are kept, and what is kept is minimal.
    have hsame : ∀ n a, size a = n →
        (MinimalIn below l a → a ∈ greedy rejects l) ∧ (a ∈ greedy rejects l → MinimalIn below l a) := by
      intro n
      induction n using Nat.strongRecOn with
      | _ n ih =>
          rintro a rfl
          constructor
          · refine fun ha => (hkept a).2 ⟨ha.1, fun b hb hrejects => ?_⟩
            exact hfree a b ha ((ih _ (hsize b a hrejects) b rfl).2 hb) hrejects
          · refine fun ha => ⟨greedy_subset a ha, fun b hb hba => ?_⟩
            obtain ⟨m, hm, hmb⟩ := exists_minimal htrans hsmaller b hb
            have hma : below m a := by
              obtain rfl | hmb := hmb
              · exact hba
              · exact htrans m b a hmb hba
            exact ((hkept a).1 ha).2 m ((ih _ (hsmaller m a hma) m rfl).1 hm) (hbelow m a hma)
    intro a ha
    obtain ⟨m, hm, hma⟩ := exists_minimal htrans hsmaller a ha
    exact ⟨m, (hsame _ m rfl).1 hm, hma⟩

end Greedy

end Lib
end Floem
