import Mathlib

/-!
# Splitting a source

Connections go from a source, a name with a port, to a destination.  The connections of some
sources are given sources of their own: they come from a new name, at numbered ports.

* `split` — the connections after the split.
* `split_congr`, `split_append`, `split_flatMap` — parts without a common source are split one by
  one.
* `split_from` — what comes from the new name of a source is what came from the source.
* `split_direct` — what came from another source still does.
* `split_nodup` — no source is used twice, if none was that is not split.
* `countP_split` — how many connections come from a name after the split.
* `countP_le_split`, `ne_of_countP_split` — no fewer than came from the source of the name, and
  more if the name was used.
-/

namespace Floem
namespace Lib

variable {σ π δ : Type*} [BEq (σ × π)]

/-- The connections of the sources that `new` knows come from their new names, at the ports
`port 1`, `port 2`, …; `seen` are the sources of the connections in front. -/
def split (new : σ × π → Option σ) (port : ℕ → π) :
    List (σ × π) → List ((σ × π) × δ) → List ((σ × π) × δ)
  | _, [] => []
  | seen, c :: cs =>
    (match new c.1 with
      | some f => ((f, port (seen.count c.1 + 1)), c.2)
      | none => c) :: split new port (c.1 :: seen) cs

section Split

variable {new : σ × π → Option σ} {port : ℕ → π} {cs : List ((σ × π) × δ)}

/-- The new names are not used yet. -/
def Unused (new : σ × π → Option σ) (cs : List ((σ × π) × δ)) : Prop :=
  ∀ k f, new k = some f → ∀ c ∈ cs, c.1.1 ≠ f

theorem split_cons_some {seen : List (σ × π)} {c : (σ × π) × δ} {f : σ} (h : new c.1 = some f) :
    split new port seen (c :: cs) =
      ((f, port (seen.count c.1 + 1)), c.2) :: split new port (c.1 :: seen) cs := by
  rw [split, h]

theorem split_cons_none {seen : List (σ × π)} {c : (σ × π) × δ} (h : new c.1 = none) :
    split new port seen (c :: cs) = c :: split new port (c.1 :: seen) cs := by
  rw [split, h]

omit [BEq (σ × π)] in
theorem Unused.tail {c : (σ × π) × δ} (h : Unused new (c :: cs)) : Unused new cs :=
  fun k f hk c' hc' => h k f hk c' (List.mem_cons_of_mem c hc')

/-- The sources after the split are old ones, or new ones with a number not used before. -/
theorem mem_split {seen : List (σ × π)} {s : σ × π}
    (h : s ∈ (split new port seen cs).map Prod.fst) :
    s ∈ cs.map Prod.fst ∧ new s = none ∨
      ∃ k f i, new k = some f ∧ s = (f, port i) ∧ seen.count k < i := by
  induction cs generalizing seen with
  | nil => exact absurd h List.not_mem_nil
  | cons c cs ih =>
      have htail : s ∈ (split new port (c.1 :: seen) cs).map Prod.fst → _ := fun h => ih h
      have hmore : (s ∈ cs.map Prod.fst ∧ new s = none ∨
          ∃ k f i, new k = some f ∧ s = (f, port i) ∧ (c.1 :: seen).count k < i) →
          s ∈ (c :: cs).map Prod.fst ∧ new s = none ∨
            ∃ k f i, new k = some f ∧ s = (f, port i) ∧ seen.count k < i := by
        rintro (⟨hs, hnone⟩ | ⟨k, f, i, hk, hs, hi⟩)
        · exact Or.inl ⟨List.mem_cons_of_mem _ hs, hnone⟩
        · refine Or.inr ⟨k, f, i, hk, hs, Nat.lt_of_le_of_lt ?_ hi⟩
          rw [List.count_cons]
          omega
      cases hc : new c.1 with
      | some g =>
          rw [split_cons_some hc, List.map_cons] at h
          obtain rfl | h := List.mem_cons.1 h
          · exact Or.inr ⟨c.1, g, _, hc, rfl, Nat.lt_succ_self _⟩
          · exact hmore (htail h)
      | none =>
          rw [split_cons_none hc, List.map_cons] at h
          obtain rfl | h := List.mem_cons.1 h
          · exact Or.inl ⟨List.mem_cons_self, hc⟩
          · exact hmore (htail h)

/-- A connection of another source stays. -/
theorem mem_split_of_none {seen : List (σ × π)} {c : (σ × π) × δ} (hc : c ∈ cs)
    (hnone : new c.1 = none) : c ∈ split new port seen cs := by
  induction cs generalizing seen with
  | nil => exact absurd hc List.not_mem_nil
  | cons c' cs ih =>
      obtain rfl | hc := List.mem_cons.1 hc
      · rw [split_cons_none hnone]
        exact List.mem_cons_self
      · rw [split]
        exact List.mem_cons_of_mem _ (ih hc)

/-- The split depends on the sources of the connections only. -/
theorem split_congr {new' : σ × π → Option σ} {seen seen' : List (σ × π)}
    (hnew : ∀ c ∈ cs, new c.1 = new' c.1) (hseen : ∀ c ∈ cs, seen.count c.1 = seen'.count c.1) :
    split new port seen cs = split new' port seen' cs := by
  induction cs generalizing seen seen' with
  | nil => rfl
  | cons c cs ih =>
      have hrest : split new port (c.1 :: seen) cs = split new' port (c.1 :: seen') cs := by
        refine ih (fun c' hc' => hnew c' (List.mem_cons_of_mem c hc')) fun c' hc' => ?_
        rw [List.count_cons, List.count_cons, hseen c' (List.mem_cons_of_mem c hc')]
      rw [split, split, hrest, hnew c List.mem_cons_self, hseen c List.mem_cons_self]

theorem split_append (seen : List (σ × π)) (cs cs' : List ((σ × π) × δ)) :
    split new port seen (cs ++ cs') =
      split new port seen cs ++ split new port ((cs.map Prod.fst).reverse ++ seen) cs' := by
  induction cs generalizing seen with
  | nil => rfl
  | cons c cs ih =>
      rw [List.cons_append, split, split, ih, List.map_cons, List.reverse_cons, List.append_assoc]
      rfl

/-- **Parts without a common source** are split one by one. -/
theorem split_flatMap [LawfulBEq (σ × π)] {β : Type*} {l : List β}
    {g : β → List ((σ × π) × δ)}
    (hapart : l.Pairwise fun b b' => ∀ k ∈ (g b).map Prod.fst, k ∉ (g b').map Prod.fst)
    {seen : List (σ × π)} (hseen : ∀ b ∈ l, ∀ c ∈ g b, c.1 ∉ seen) :
    split new port seen (l.flatMap g) = l.flatMap fun b => split new port [] (g b) := by
  induction l generalizing seen with
  | nil => rfl
  | cons b l ih =>
      have hparts := List.pairwise_cons.1 hapart
      have hfirst : split new port seen (g b) = split new port [] (g b) := by
        refine split_congr (fun _ _ => rfl) fun c hc => ?_
        rw [List.count_eq_zero_of_not_mem (hseen b List.mem_cons_self c hc), List.count_nil]
      have hrest : ∀ b' ∈ l, ∀ c ∈ g b', c.1 ∉ ((g b).map Prod.fst).reverse ++ seen := by
        intro b' hb' c hc hmem
        obtain hmem | hmem := List.mem_append.1 hmem
        · exact hparts.1 b' hb' c.1 (List.mem_reverse.1 hmem) (List.mem_map_of_mem hc)
        · exact hseen b' (List.mem_cons_of_mem b hb') c hc hmem
      rw [List.flatMap_cons, List.flatMap_cons, split_append, hfirst, ih hparts.2 hrest]

/-- **No source is used twice.** -/
theorem split_nodup [LawfulBEq (σ × π)] (hport : Function.Injective port)
    (hinj : ∀ k k' f, new k = some f → new k' = some f → k = k') (hunused : Unused new cs)
    (honce : ∀ k, new k = none → (cs.map Prod.fst).count k ≤ 1) (seen : List (σ × π)) :
    ((split new port seen cs).map Prod.fst).Nodup := by
  induction cs generalizing seen with
  | nil => exact List.nodup_nil
  | cons c cs ih =>
      have hrest := ih hunused.tail (fun k hk => by
        have h := honce k hk
        rw [List.map_cons, List.count_cons] at h
        omega) (c.1 :: seen)
      cases hc : new c.1 with
      | some g =>
          rw [split_cons_some hc, List.map_cons]
          refine List.nodup_cons.2 ⟨fun hmem => ?_, hrest⟩
          obtain ⟨hold, _⟩ | ⟨k, f, i, hk, heq, hi⟩ := mem_split hmem
          · obtain ⟨c', hc', heq⟩ := List.mem_map.1 hold
            exact hunused c.1 g hc c' (List.mem_cons_of_mem c hc') (congrArg Prod.fst heq)
          · obtain ⟨rfl, hnumber⟩ := Prod.mk.inj heq
            obtain rfl := hinj _ _ g hc hk
            have hnumber := hport hnumber
            rw [List.count_cons_self] at hi
            omega
      | none =>
          rw [split_cons_none hc, List.map_cons]
          refine List.nodup_cons.2 ⟨fun hmem => ?_, hrest⟩
          obtain ⟨hold, _⟩ | ⟨k, f, i, hk, heq, _⟩ := mem_split hmem
          · have h := honce c.1 hc
            rw [List.map_cons, List.count_cons_self] at h
            have hpos := List.count_pos_iff.2 hold
            omega
          · exact hunused k f hk c List.mem_cons_self (congrArg Prod.fst heq)

section Names

variable [DecidableEq σ]

/-- How many connections come from a name after the split. -/
theorem countP_split (f : σ) (seen : List (σ × π)) :
    (split new port seen cs).countP (·.1.1 = f) =
      cs.countP fun c => new c.1 = some f ∨ new c.1 = none ∧ c.1.1 = f := by
  induction cs generalizing seen with
  | nil => rfl
  | cons c cs ih =>
      have hrest := ih (c.1 :: seen)
      cases hc : new c.1 with
      | some g =>
          rw [split_cons_some hc, List.countP_cons, List.countP_cons, hrest]
          simp [hc]
      | none =>
          rw [split_cons_none hc, List.countP_cons, List.countP_cons, hrest]
          simp [hc]

/-- A weaker condition holds more often, if it holds somewhere the other does not. -/
theorem countP_lt {α : Type*} {p q : α → Bool} {l : List α} (h : ∀ a ∈ l, p a → q a) {a : α}
    (ha : a ∈ l) (hq : q a = true) (hp : p a = false) : l.countP p < l.countP q := by
  obtain ⟨front, back, rfl⟩ := List.append_of_mem ha
  have hfront : front.countP p ≤ front.countP q :=
    List.countP_mono_left fun b hb => h b (List.mem_append_left _ hb)
  have hback : back.countP p ≤ back.countP q :=
    List.countP_mono_left fun b hb => h b (List.mem_append_right _ (List.mem_cons_of_mem a hb))
  rw [List.countP_append, List.countP_append, List.countP_cons, List.countP_cons, hq, hp]
  simp only [if_true, Bool.false_eq_true, if_false]
  omega

variable [DecidableEq π]

/-- **What comes from the new name** of a source is what came from the source. -/
theorem split_from (hinj : ∀ k k' f, new k = some f → new k' = some f → k = k')
    (hunused : Unused new cs) {k : σ × π} {f : σ} (hk : new k = some f) (seen : List (σ × π)) :
    ((split new port seen cs).filter (·.1.1 = f)).map Prod.snd =
      (cs.filter (·.1 = k)).map Prod.snd := by
  induction cs generalizing seen with
  | nil => rfl
  | cons c cs ih =>
      have hrest := ih hunused.tail (c.1 :: seen)
      cases hc : new c.1 with
      | some g =>
          rw [split_cons_some hc]
          by_cases hg : g = f
          · have hck : c.1 = k := hinj _ _ f (hg ▸ hc) hk
            rw [List.filter_cons_of_pos (by simpa using hg),
              List.filter_cons_of_pos (by simpa using hck), List.map_cons, List.map_cons, hrest]
          · have hck : c.1 ≠ k := fun h => hg (Option.some.inj (hc.symm.trans (h ▸ hk)))
            rw [List.filter_cons_of_neg (by simpa using hg),
              List.filter_cons_of_neg (by simpa using hck), hrest]
      | none =>
          have hcf : c.1.1 ≠ f := hunused k f hk c List.mem_cons_self
          have hck : c.1 ≠ k := fun h => by
            rw [h, hk] at hc
            cases hc
          rw [split_cons_none hc, List.filter_cons_of_neg (by simpa using hcf),
            List.filter_cons_of_neg (by simpa using hck), hrest]

/-- **What came from another source** still does. -/
theorem split_direct {k : σ × π} (hk : new k = none)
    (hname : ∀ k' f, new k' = some f → k.1 ≠ f) (seen : List (σ × π)) :
    ((split new port seen cs).filter (·.1 = k)).map Prod.snd =
      (cs.filter (·.1 = k)).map Prod.snd := by
  induction cs generalizing seen with
  | nil => rfl
  | cons c cs ih =>
      have hrest := ih (c.1 :: seen)
      cases hc : new c.1 with
      | some g =>
          have hnew : (g, port (seen.count c.1 + 1)) ≠ k := fun h =>
            hname c.1 g hc (congrArg Prod.fst h).symm
          have hck : c.1 ≠ k := fun h => by
            rw [h, hk] at hc
            cases hc
          rw [split_cons_some hc, List.filter_cons_of_neg (by simpa using hnew),
            List.filter_cons_of_neg (by simpa using hck), hrest]
      | none =>
          rw [split_cons_none hc]
          by_cases hck : c.1 = k
          · rw [List.filter_cons_of_pos (by simpa using hck),
              List.filter_cons_of_pos (by simpa using hck), List.map_cons, List.map_cons, hrest]
          · rw [List.filter_cons_of_neg (by simpa using hck),
              List.filter_cons_of_neg (by simpa using hck), hrest]

/-- What came from the source comes from its new name. -/
theorem countP_le_split {k : σ × π} {f : σ} (hk : new k = some f) (seen : List (σ × π)) :
    cs.countP (·.1 = k) ≤ (split new port seen cs).countP (·.1.1 = f) := by
  rw [countP_split]
  refine List.countP_mono_left fun c _ hc => ?_
  simp only [decide_eq_true_eq] at hc ⊢
  exact Or.inl (hc ▸ hk)

/-- More comes from the new name, if it was used. -/
theorem ne_of_countP_split {k : σ × π} {f : σ} (hk : new k = some f) {seen : List (σ × π)}
    (h : (split new port seen cs).countP (·.1.1 = f) ≤ cs.countP (·.1 = k))
    {c : (σ × π) × δ} (hc : c ∈ cs) (hnone : new c.1 = none) : c.1.1 ≠ f := by
  intro hcf
  rw [countP_split] at h
  refine absurd h (Nat.not_le_of_gt (countP_lt (fun c' _ hc' => ?_) hc ?_ ?_))
  · simp only [decide_eq_true_eq] at hc' ⊢
    exact Or.inl (hc' ▸ hk)
  · simp [hnone, hcf]
  · refine decide_eq_false fun heq => ?_
    rw [heq, hk] at hnone
    cases hnone

end Names

end Split

end Lib
end Floem
