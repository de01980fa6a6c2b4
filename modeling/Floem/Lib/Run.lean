import Mathlib

/-!
# Runs of a step function

A component is modelled by a partial step function `step : σ → α → Option σ`: an
action the rules do not allow, or one on which an assertion fails, has no next
state.  This file develops what every such model needs, over arbitrary states
and actions.

* The instances of the types of keys.
* `mapM_eq_map` — a loop over a list in which nothing fails.
* `run` — the state a list of actions leads to, with the usual laws for `[]`,
  `cons` and `++`.
* `Meets` — every step of a run meets a condition in the state before it; `meets` tests
  that on a given run.
* `run_invariant` and `run_invariant_of_meets` — the two induction principles:
  what one step preserves, a whole run preserves.
* `run_history` — an invariant of the state and the actions that led to it.
* `run_total` — runs of actions that are always possible.
* `run_frame` and `run_key` — runs of actions that write places of their own: a place no
  action writes stays the same, and one that is written once has what that action wrote.
* `establish` — what every round of a `for` loop establishes and no later round undoes.
-/

namespace Floem
namespace Lib

variable {σ α : Type*}

/-! ## Keys

The types of the keys that the models look up, each with its instance by one name. -/

instance lawfulBEq_chars : LawfulBEq (List Char) := inferInstance

instance lawfulBEq_optionString : LawfulBEq (Option String) := inferInstance

instance lawfulBEq_stringPair : LawfulBEq (String × String) := inferInstance

/-! ## Loops that collect results -/

theorem forall₂_of_mapM {α β : Type*} {f : α → Option β} {l : List α} {out : List β}
    (h : l.mapM f = some out) : List.Forall₂ (fun a b => f a = some b) l out := by
  induction l generalizing out with
  | nil =>
      obtain rfl := Option.some.inj h
      exact .nil
  | cons a l ih =>
      rw [List.mapM_cons, Option.bind_eq_bind, Option.bind_eq_some_iff] at h
      obtain ⟨b, hb, h⟩ := h
      rw [Option.bind_eq_bind, Option.bind_eq_some_iff] at h
      obtain ⟨bs, hbs, h⟩ := h
      obtain rfl := Option.some.inj h
      exact .cons hb (ih hbs)

theorem mapM_eq_map {α β : Type*} {f : α → Option β} {g : α → β} {l : List α}
    (h : ∀ a ∈ l, f a = some (g a)) : l.mapM f = some (l.map g) := by
  induction l with
  | nil => rfl
  | cons a l ih =>
      rw [List.mapM_cons, h a List.mem_cons_self, ih fun b hb => h b (List.mem_cons_of_mem a hb)]
      rfl

/-! ## Runs -/

/-- The state a list of actions leads to; `none` as soon as one has no next
state. -/
def run (step : σ → α → Option σ) (s : σ) : List α → Option σ
  | [] => some s
  | a :: as => (step s a).bind fun t => run step t as

@[simp] theorem run_nil (step : σ → α → Option σ) (s : σ) : run step s [] = some s := rfl

theorem run_cons (step : σ → α → Option σ) (s : σ) (a : α) (as : List α) :
    run step s (a :: as) = (step s a).bind fun t => run step t as := rfl

theorem run_append (step : σ → α → Option σ) (s : σ) (as bs : List α) :
    run step s (as ++ bs) = (run step s as).bind fun t => run step t bs := by
  induction as generalizing s with
  | nil => simp
  | cons a as ih =>
      rw [List.cons_append, run_cons, run_cons, Option.bind_assoc]
      congr 1
      funext t
      exact ih t

/-- The first step of a run, and the rest of it. -/
theorem run_cons_eq_some {step : σ → α → Option σ} {s u : σ} {a : α} {as : List α}
    (h : run step s (a :: as) = some u) : ∃ t, step s a = some t ∧ run step t as = some u := by
  rw [run_cons, Option.bind_eq_some_iff] at h
  exact h

/-! ## Invariants along a run -/

/-- Every step of the run from `s` along `as` meets the condition `C` in the
state before it. -/
def Meets (step : σ → α → Option σ) (C : σ → α → Prop) (s : σ) : List α → Prop
  | [] => True
  | a :: as => C s a ∧ ∀ t, step s a = some t → Meets step C t as

/-- A test for `Meets`: `c` decides the condition at each step. -/
def meets (step : σ → α → Option σ) (c : σ → α → Bool) (s : σ) : List α → Bool
  | [] => true
  | a :: as => c s a && ((step s a).map fun t => meets step c t as).getD true

/-- **The test is sound.** -/
theorem Meets.of_meets {step : σ → α → Option σ} {C : σ → α → Prop} {c : σ → α → Bool}
    (hc : ∀ s a, c s a → C s a) {s : σ} {as : List α} (h : meets step c s as) :
    Meets step C s as := by
  induction as generalizing s with
  | nil => trivial
  | cons a as ih =>
      rw [meets, Bool.and_eq_true] at h
      refine ⟨hc s a h.1, fun t ht => ih ?_⟩
      rw [ht] at h
      exact h.2

/-- A condition that always holds of the actions of a run is met. -/
theorem Meets.of_forall_mem {step : σ → α → Option σ} {C : σ → α → Prop} {as : List α}
    (h : ∀ a ∈ as, ∀ s, C s a) (s : σ) : Meets step C s as := by
  induction as generalizing s with
  | nil => trivial
  | cons a as ih =>
      exact ⟨h a List.mem_cons_self s, fun t _ => ih (fun b hb => h b (List.mem_cons_of_mem _ hb)) t⟩

/-- A condition that always holds is met. -/
theorem Meets.of_forall {step : σ → α → Option σ} {C : σ → α → Prop} (h : ∀ s a, C s a) (s : σ)
    (as : List α) : Meets step C s as :=
  Meets.of_forall_mem (fun a _ s => h s a) s

/-- A condition on the actions alone is met as well. -/
theorem Meets.and_mem {step : σ → α → Option σ} {C : σ → α → Prop} {D : α → Prop} {s : σ}
    {as : List α} (h : Meets step C s as) (hD : ∀ a ∈ as, D a) :
    Meets step (fun s a => C s a ∧ D a) s as := by
  induction as generalizing s with
  | nil => trivial
  | cons a as ih =>
      exact ⟨⟨h.1, hD a List.mem_cons_self⟩,
        fun t ht => ih (h.2 t ht) fun b hb => hD b (List.mem_cons_of_mem _ hb)⟩

/-- **The invariant rule for conditional runs.**  A property that a step meeting
`C` preserves holds after every run whose steps all meet `C`. -/
theorem run_invariant_of_meets {step : σ → α → Option σ} {C : σ → α → Prop} {P : σ → Prop}
    (hstep : ∀ s a t, P s → C s a → step s a = some t → P t) {s t : σ} {as : List α}
    (hs : P s) (hC : Meets step C s as) (hrun : run step s as = some t) : P t := by
  induction as generalizing s with
  | nil => cases hrun; exact hs
  | cons a as ih =>
      obtain ⟨u, hu, hrest⟩ := run_cons_eq_some hrun
      exact ih (hstep s a u hs hC.1 hu) (hC.2 u hu) hrest

/-- **The invariant rule.**  What every step preserves, every run preserves. -/
theorem run_invariant {step : σ → α → Option σ} {P : σ → Prop}
    (hstep : ∀ s a t, P s → step s a = some t → P t) {s t : σ} {as : List α}
    (hs : P s) (hrun : run step s as = some t) : P t := by
  induction as generalizing s with
  | nil => cases hrun; exact hs
  | cons a as ih =>
      obtain ⟨u, hu, hrest⟩ := run_cons_eq_some hrun
      exact ih (hstep s a u hs hu) hrest

/-- **The invariant rule with the actions done so far.** -/
theorem run_history {step : σ → α → Option σ} {C : σ → α → Prop} {P : List α → σ → Prop}
    (hstep : ∀ as s a t, P as s → C s a → step s a = some t → P (as ++ [a]) t) {before : List α}
    {s t : σ} {as : List α} (hs : P before s) (hC : Meets step C s as)
    (hrun : run step s as = some t) : P (before ++ as) t := by
  induction as generalizing before s with
  | nil =>
      cases hrun
      rwa [List.append_nil]
  | cons a as ih =>
      obtain ⟨u, hu, hrest⟩ := run_cons_eq_some hrun
      rw [List.append_cons]
      exact ih (hstep before s a u hs hC.1 hu) (hC.2 u hu) hrest

/-- **Two systems that do the same** where an invariant holds have the same runs. -/
theorem run_congr {step step' : σ → α → Option σ} {P : σ → Prop}
    (hsame : ∀ s a, P s → step s a = step' s a)
    (hstep : ∀ s a t, P s → step s a = some t → P t) {s : σ} (hs : P s) (as : List α) :
    run step s as = run step' s as := by
  induction as generalizing s with
  | nil => rfl
  | cons a as ih =>
      rw [run_cons, run_cons, ← hsame s a hs]
      cases hu : step s a with
      | none => rfl
      | some u => exact ih (hstep s a u hs hu)

/-! ## Actions that write places of their own -/

/-- Where an action of a run is done. -/
theorem run_mem {step : σ → α → Option σ} {s t : σ} {a : α} {as : List α} (ha : a ∈ as)
    (hrun : run step s as = some t) : ∃ bs cs u w, as = bs ++ a :: cs ∧
      run step s bs = some u ∧ step u a = some w ∧ run step w cs = some t := by
  obtain ⟨bs, cs, rfl⟩ := List.append_of_mem ha
  rw [run_append, Option.bind_eq_some_iff] at hrun
  obtain ⟨u, hu, hrest⟩ := hrun
  obtain ⟨w, hw, hcs⟩ := run_cons_eq_some hrest
  exact ⟨bs, cs, u, w, rfl, hu, hw, hcs⟩

/-- A run of actions each of which is always possible. -/
theorem run_total {step : σ → α → Option σ} {as : List α}
    (hstep : ∀ a ∈ as, ∀ s, ∃ t, step s a = some t) (s : σ) : ∃ t, run step s as = some t := by
  induction as generalizing s with
  | nil => exact ⟨s, rfl⟩
  | cons a as ih =>
      obtain ⟨u, hu⟩ := hstep a List.mem_cons_self s
      obtain ⟨t, ht⟩ := ih (fun b hb => hstep b (List.mem_cons_of_mem _ hb)) u
      exact ⟨t, by rw [run_cons, hu, Option.bind_some, ht]⟩

variable {κ β : Type*}

/-- A place that no action of a run writes stays the same. -/
theorem run_frame {step : σ → α → Option σ} (get : σ → κ → β) (key : α → Option κ) {s t : σ}
    {as : List α} {k : κ}
    (hframe : ∀ a ∈ as, ∀ s t, step s a = some t → key a ≠ some k → get t k = get s k)
    (hnone : ∀ a ∈ as, key a ≠ some k) (hrun : run step s as = some t) : get t k = get s k := by
  induction as generalizing s with
  | nil => cases hrun; rfl
  | cons a as ih =>
      obtain ⟨u, hu, hrest⟩ := run_cons_eq_some hrun
      rw [ih (fun b hb => hframe b (List.mem_cons_of_mem _ hb))
        (fun b hb => hnone b (List.mem_cons_of_mem _ hb)) hrest]
      exact hframe a List.mem_cons_self s u hu (hnone a List.mem_cons_self)

/-- **A place that one action of a run writes.**  It is as it was before the run when
the action is done, and stays as the action left it. -/
theorem run_key {step : σ → α → Option σ} (get : σ → κ → β) (key : α → Option κ) {s t : σ}
    {as : List α} {a : α} {k : κ}
    (hframe : ∀ a ∈ as, ∀ s t, step s a = some t → key a ≠ some k → get t k = get s k)
    (hnodup : (as.filterMap key).Nodup) (ha : a ∈ as) (hk : key a = some k)
    (hrun : run step s as = some t) :
    ∃ u w, step u a = some w ∧ get u k = get s k ∧ get t k = get w k := by
  obtain ⟨bs, cs, u, w, rfl, hbs, hstep, hcs⟩ := run_mem ha hrun
  rw [List.filterMap_append, List.filterMap_cons_some hk, List.nodup_append] at hnodup
  obtain ⟨-, hnodup, hdisj⟩ := hnodup
  refine ⟨u, w, hstep, ?_, ?_⟩
  · refine run_frame get key (fun b hb => hframe b (List.mem_append_left _ hb))
      (fun b hb hkb => ?_) hbs
    exact hdisj k (List.mem_filterMap.2 ⟨b, hb, hkb⟩) k List.mem_cons_self rfl
  · refine run_frame get key
      (fun b hb => hframe b (List.mem_append_right _ (List.mem_cons_of_mem _ hb)))
      (fun b hb hkb => ?_) hcs
    exact (List.nodup_cons.1 hnodup).1 (List.mem_filterMap.2 ⟨b, hb, hkb⟩)

/-- Two actions that write one place are the same, where no place is written twice. -/
theorem eq_of_key {key : α → Option κ} {as : List α} (hnodup : (as.filterMap key).Nodup)
    {a b : α} (ha : a ∈ as) (hb : b ∈ as) {k : κ} (hak : key a = some k) (hbk : key b = some k) :
    a = b := by
  induction as with
  | nil => cases ha
  | cons c as ih =>
      rcases List.mem_cons.1 ha with rfl | ha' <;> rcases List.mem_cons.1 hb with rfl | hb'
      · rfl
      · rw [List.filterMap_cons_some hak, List.nodup_cons] at hnodup
        exact absurd (List.mem_filterMap.2 ⟨b, hb', hbk⟩) hnodup.1
      · rw [List.filterMap_cons_some hbk, List.nodup_cons] at hnodup
        exact absurd (List.mem_filterMap.2 ⟨a, ha', hak⟩) hnodup.1
      · refine ih (hnodup.sublist ?_) ha' hb'
        exact (List.sublist_cons_self c as).filterMap key

/-! ## Loops -/

/-- **What a loop establishes.**  If every round changes the state as `R` allows and
makes `P` true of its element, and `R` keeps `P` true, then after the loop `P` is true
of all elements. -/
theorem establish {σ α : Type*} {f : σ → α → Option σ} {R : σ → σ → Prop} {P : α → σ → Prop}
    {l : List α} (hrefl : ∀ s, R s s) (htrans : ∀ s t u, R s t → R t u → R s u)
    (hstep : ∀ s, ∀ a ∈ l, ∀ t, f s a = some t → R s t ∧ P a t)
    (hkeep : ∀ a s t, P a s → R s t → P a t) {s t : σ}
    (h : l.foldlM f s = some t) : R s t ∧ ∀ a ∈ l, P a t := by
  induction l generalizing s with
  | nil =>
      obtain rfl := Option.some.inj h
      exact ⟨hrefl s, fun a ha => by cases ha⟩
  | cons b l ih =>
      rw [List.foldlM_cons, Option.bind_eq_bind, Option.bind_eq_some_iff] at h
      obtain ⟨u, hu, hrest⟩ := h
      obtain ⟨hR, hP⟩ := hstep s b List.mem_cons_self u hu
      obtain ⟨hR', hP'⟩ := ih (fun s a ha => hstep s a (List.mem_cons_of_mem b ha)) hrest
      refine ⟨htrans s u t hR hR', fun a ha => ?_⟩
      rcases List.mem_cons.1 ha with rfl | ha
      · exact hkeep a u t hP hR'
      · exact hP' a ha

/-- **A loop with checks.**  If every round only checks its element and goes on, the loop
comes to its end exactly if all elements pass. -/
theorem run_eq_some_iff {σ α : Type*} {f : σ → α → Option σ} {C : α → Prop} {next : σ → α → σ}
    {l : List α} (hstep : ∀ a ∈ l, ∀ s t, f s a = some t ↔ C a ∧ t = next s a) {s t : σ} :
    run f s l = some t ↔ (∀ a ∈ l, C a) ∧ t = l.foldl next s := by
  induction l generalizing s with
  | nil => simp [eq_comm]
  | cons a l ih =>
      rw [run_cons, Option.bind_eq_some_iff, List.forall_mem_cons, List.foldl_cons]
      have hrest := fun u => ih (fun b hb => hstep b (List.mem_cons_of_mem a hb)) (s := u)
      constructor
      · rintro ⟨u, hu, ht⟩
        obtain ⟨ha, rfl⟩ := (hstep a List.mem_cons_self s u).1 hu
        obtain ⟨hl, rfl⟩ := (hrest _).1 ht
        exact ⟨⟨ha, hl⟩, rfl⟩
      · rintro ⟨⟨ha, hl⟩, rfl⟩
        exact ⟨_, (hstep a List.mem_cons_self s _).2 ⟨ha, rfl⟩, (hrest _).2 ⟨hl, rfl⟩⟩

end Lib
end Floem
