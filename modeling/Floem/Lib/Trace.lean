import Mathlib

/-!
# What happens on the runs of a program

The runs of a program are a language over its events.  Some events assign the thing one is
interested in, some use it.

* `Assigns` — every run assigns it.
* `Exposes` — some run uses it before it assigns it.
* `assigns_add`, `assigns_mul`, `exposes_add`, `exposes_mul`, `exposes_kstar`, … — how both
  follow the alternatives, the sequences and the repetitions of a program.  They are
  equivalences: nothing is lost on the way up a syntax tree.
-/

namespace Floem
namespace Lib

open Computability

section Trace

variable {E : Type*} (assign use : E → Prop)

/-- A use comes before any assignment. -/
def Exposed : List E → Prop
  | [] => False
  | e :: t => use e ∨ ¬ assign e ∧ Exposed t

theorem exposed_append (t u : List E) : Exposed assign use (t ++ u) ↔
    Exposed assign use t ∨ (∀ e ∈ t, ¬ assign e) ∧ Exposed assign use u := by
  induction t with
  | nil => simp [Exposed]
  | cons e t ih =>
      simp only [List.cons_append, Exposed, ih, List.forall_mem_cons]
      tauto

/-- Every run assigns. -/
def Assigns (L : Language E) : Prop := ∀ t ∈ L, ∃ e ∈ t, assign e

/-- Some run uses before it assigns. -/
def Exposes (L : Language E) : Prop := ∃ t ∈ L, Exposed assign use t

theorem mul_nonempty {L M : Language E} (hL : L.Nonempty) (hM : M.Nonempty) :
    (L * M).Nonempty := by
  obtain ⟨t, ht⟩ := hL
  obtain ⟨u, hu⟩ := hM
  exact ⟨t ++ u, Language.append_mem_mul ht hu⟩

/-! ## Assignments -/

theorem assigns_zero : Assigns assign 0 := fun _ ht => absurd ht (Language.notMem_zero _)

theorem not_assigns_one : ¬ Assigns assign 1 := fun h => by
  obtain ⟨e, he, _⟩ := h [] Language.nil_mem_one
  exact absurd he (List.not_mem_nil)

theorem assigns_event (e : E) : Assigns assign {[e]} ↔ assign e := by
  constructor
  · intro h
    obtain ⟨x, hx, hassign⟩ := h [e] rfl
    rwa [List.mem_singleton.1 hx] at hassign
  · rintro h _ rfl
    exact ⟨e, List.mem_singleton_self e, h⟩

variable {assign use}

theorem assigns_add {L M : Language E} :
    Assigns assign (L + M) ↔ Assigns assign L ∧ Assigns assign M := by
  simp only [Assigns, Language.mem_add, or_imp, forall_and]

/-- If a run of each part assigns nothing, so does the run of one after the other. -/
theorem assigns_mul {L M : Language E} :
    Assigns assign (L * M) ↔ Assigns assign L ∨ Assigns assign M := by
  constructor
  · intro h
    by_contra hno
    push Not at hno
    simp only [Assigns, not_forall, not_exists, not_and] at hno
    obtain ⟨⟨t, ht, hfree⟩, u, hu, hfree'⟩ := hno
    obtain ⟨e, he, hassign⟩ := h (t ++ u) (Language.append_mem_mul ht hu)
    obtain he | he := List.mem_append.1 he
    · exact hfree e he hassign
    · exact hfree' e he hassign
  · rintro h _ ⟨t, ht, u, hu, rfl⟩
    obtain h | h := h
    · obtain ⟨e, he, hassign⟩ := h t ht
      exact ⟨e, List.mem_append_left u he, hassign⟩
    · obtain ⟨e, he, hassign⟩ := h u hu
      exact ⟨e, List.mem_append_right t he, hassign⟩

/-- Nothing may be repeated no time. -/
theorem not_assigns_kstar {L : Language E} : ¬ Assigns assign L∗ := fun h => by
  obtain ⟨e, he, _⟩ := h [] (Language.nil_mem_kstar L)
  exact absurd he (List.not_mem_nil)

/-! ## Uses -/

theorem not_exposes_zero : ¬ Exposes assign use 0 := fun ⟨_, ht, _⟩ => Language.notMem_zero _ ht

theorem not_exposes_one : ¬ Exposes assign use 1 := fun ⟨t, ht, h⟩ => by
  rw [(Language.mem_one t).1 ht] at h
  exact h

theorem exposes_event (e : E) : Exposes assign use {[e]} ↔ use e := by
  constructor
  · rintro ⟨_, rfl, h⟩
    obtain h | ⟨_, h⟩ := h
    · exact h
    · exact h.elim
  · exact fun h => ⟨[e], rfl, Or.inl h⟩

theorem exposes_add {L M : Language E} :
    Exposes assign use (L + M) ↔ Exposes assign use L ∨ Exposes assign use M := by
  simp only [Exposes, Language.mem_add, or_and_right, exists_or]

theorem Exposes.mul_cases {L M : Language E} (h : Exposes assign use (L * M)) :
    Exposes assign use L ∨ ¬ Assigns assign L ∧ Exposes assign use M := by
  obtain ⟨_, ⟨t, ht, u, hu, rfl⟩, h⟩ := h
  obtain h | ⟨hfree, h⟩ := (exposed_append ..).1 h
  · exact Or.inl ⟨t, ht, h⟩
  · refine Or.inr ⟨fun hassign => ?_, u, hu, h⟩
    obtain ⟨e, he, hassign⟩ := hassign t ht
    exact hfree e he hassign

theorem Exposes.mul_left {L M : Language E} (h : Exposes assign use L) (hM : M.Nonempty) :
    Exposes assign use (L * M) := by
  obtain ⟨t, ht, h⟩ := h
  obtain ⟨u, hu⟩ := hM
  exact ⟨t ++ u, Language.append_mem_mul ht hu, (exposed_append ..).2 (Or.inl h)⟩

/-- The second part sees what the first part does not assign on some run. -/
theorem Exposes.mul_right {L M : Language E} (hassign : ¬ Assigns assign L)
    (h : Exposes assign use M) : Exposes assign use (L * M) := by
  obtain ⟨u, hu, h⟩ := h
  simp only [Assigns, not_forall, not_exists, not_and] at hassign
  obtain ⟨t, ht, hfree⟩ := hassign
  exact ⟨t ++ u, Language.append_mem_mul ht hu, (exposed_append ..).2 (Or.inr ⟨hfree, h⟩)⟩

theorem exposes_mul {L M : Language E} (hM : M.Nonempty) :
    Exposes assign use (L * M) ↔
      Exposes assign use L ∨ ¬ Assigns assign L ∧ Exposes assign use M := by
  constructor
  · exact Exposes.mul_cases
  · rintro (h | ⟨hassign, h⟩)
    · exact h.mul_left hM
    · exact h.mul_right hassign

/-- A use before any assignment is met in the round it belongs to. -/
theorem exposes_kstar {L : Language E} : Exposes assign use L∗ ↔ Exposes assign use L := by
  constructor
  · rintro ⟨t, ht, h⟩
    obtain ⟨rounds, rfl, hrounds⟩ := Language.mem_kstar.1 ht
    clear ht
    induction rounds with
    | nil => exact h.elim
    | cons round rounds ih =>
        obtain ⟨hround, hrounds⟩ := List.forall_mem_cons.1 hrounds
        rw [List.flatten_cons, exposed_append] at h
        obtain h | ⟨_, h⟩ := h
        · exact ⟨round, hround, h⟩
        · exact ih hrounds h
  · rintro ⟨t, ht, h⟩
    exact ⟨t, Language.mem_kstar.2 ⟨[t], by simp, by simpa using ht⟩, h⟩

end Trace

end Lib
end Floem
