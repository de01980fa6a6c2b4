import Floem.DefUse.Program
import Floem.Lib.Trace

/-!
# The executions of an element

The values of conditions and the number of rounds of a loop are open: an execution is any way
through the code.

* `Event`, `Expr.runs`, `Stmt.runs` — what an execution does with the per-packet state, and
  how it ends.
* `Covers` — assigning one path assigns another as a whole.
* `Expr.assigns`, `Stmt.assigns` — whether a path is assigned on every way through;
  `Expr.exposes`, `Stmt.exposes` — whether it is read before that on some way.  Both are read
  off the syntax.
* `Stmt.assigns_iff`, `Stmt.exposes_iff` — **they are exact**.
-/

namespace Floem
namespace DefUse

open Lib Computability

/-- What an execution does with an access path. -/
inductive Event
  | read (path : List Char)
  /-- An assignment to one entry only. -/
  | store (path : List Char)
  | assign (path : List Char)
  deriving DecidableEq, Repr

/-- Assigning `q` assigns `p` as a whole: `p` is `q` or a field below it.  These are the
three patterns of `kill_live`. -/
def Covers (q p : List Char) : Prop :=
  q = p ∨ q ++ ".".toList <+: p ∨ q ++ "->".toList <+: p

instance (q p : List Char) : Decidable (Covers q p) := inferInstanceAs (Decidable (_ ∨ _ ∨ _))

def Event.assigns (p : List Char) : Event → Prop
  | .assign q => Covers q p
  | _ => False

def Event.reads (p : List Char) : Event → Prop
  | .read q => q = p
  | _ => False

/-! ## Executions -/

/-- The language of one event. -/
def event (e : Event) : Language Event := {[e]}

theorem event_nonempty (e : Event) : (event e).Nonempty := ⟨[e], rfl⟩

namespace Expr

/-- The right side comes before the assignment. -/
def runs : Expr → Language Event
  | text _ => 1
  | read _ path => event (.read path)
  | assign _ path _ rhs => rhs.runs * event (.assign path)
  | store _ path index _ rhs => index.runs * (rhs.runs * event (.store path))
  | update _ _ path _ rhs => event (.read path) * (rhs.runs * event (.assign path))
  | cat e f => e.runs * f.runs
  | opt e => 1 + e.runs
  | alt e _ f => e.runs + f.runs

theorem runs_nonempty (e : Expr) : e.runs.Nonempty := by
  induction e with
  | text s => exact ⟨[], Language.nil_mem_one⟩
  | read sep path => exact event_nonempty _
  | assign sep path gap rhs ih => exact mul_nonempty ih (event_nonempty _)
  | store sep path index gap rhs ih₁ ih₂ =>
      exact mul_nonempty ih₁ (mul_nonempty ih₂ (event_nonempty _))
  | update pre sep path op rhs ih =>
      exact mul_nonempty (event_nonempty _) (mul_nonempty ih (event_nonempty _))
  | cat e f ih₁ ih₂ => exact mul_nonempty ih₁ ih₂
  | opt e ih => exact ⟨[], Or.inl Language.nil_mem_one⟩
  | alt e mid f ih₁ ih₂ =>
      obtain ⟨t, ht⟩ := ih₁
      exact ⟨t, Or.inl ht⟩

end Expr

namespace Stmt

/-- One round of a loop that goes on. -/
def round (c step : Language Event) (body : Outcome → Language Event) : Language Event :=
  c * ((body .normal + body .cont) * step)

/-- The executions of a statement that end in one way. -/
def runs : Stmt → Outcome → Language Event
  | expr e, .normal => e.runs
  | expr _, _ => 0
  | jump o _, o' => if o = o' then 1 else 0
  | seq s t, .normal => s.runs .normal * t.runs .normal
  | seq s t, o => s.runs o + s.runs .normal * t.runs o
  | alt s _ t, o => s.runs o + t.runs o
  | loop c _ step _ body, .normal =>
    (round c.runs step.runs body.runs)∗ * (c.runs + c.runs * body.runs .brk)
  | loop c _ step _ body, .ret =>
    (round c.runs step.runs body.runs)∗ * (c.runs * body.runs .ret)
  | loop _ _ _ _ _, _ => 0
  | doLoop body _ c, .normal =>
    (round 1 c.runs body.runs)∗ * (round 1 c.runs body.runs + body.runs .brk)
  | doLoop body _ c, .ret => (round 1 c.runs body.runs)∗ * body.runs .ret
  | doLoop _ _ _, _ => 0

end Stmt

/-! ## Reading it off the syntax -/

variable (p : List Char)

namespace Expr

/-- The path is assigned on every way through. -/
def assigns : Expr → Bool
  | text _ => false
  | read _ _ => false
  | assign _ path _ rhs => rhs.assigns || Covers path p
  | store _ _ index _ rhs => index.assigns || rhs.assigns
  | update _ _ path _ rhs => rhs.assigns || Covers path p
  | cat e f => e.assigns || f.assigns
  | opt _ => false
  | alt e _ f => e.assigns && f.assigns

/-- The path is read before it is assigned on some way through. -/
def exposes : Expr → Bool
  | text _ => false
  | read _ path => path = p
  | assign _ _ _ rhs => rhs.exposes
  | store _ _ index _ rhs => index.exposes || (!index.assigns p && rhs.exposes)
  | update _ _ path _ rhs => path = p || rhs.exposes
  | cat e f => e.exposes || (!e.assigns p && f.exposes)
  | opt e => e.exposes
  | alt e _ f => e.exposes || f.exposes

end Expr

namespace Stmt

/-- The path is assigned on every way through that ends so. -/
def assigns : Stmt → Outcome → Bool
  | expr e, .normal => e.assigns p
  | expr _, _ => true
  | jump o _, o' => o ≠ o'
  | seq s t, .normal => s.assigns .normal || t.assigns .normal
  | seq s t, o => s.assigns o && (s.assigns .normal || t.assigns o)
  | alt s _ t, o => s.assigns o && t.assigns o
  | loop c _ _ _ _, .normal => c.assigns p
  | loop c _ _ _ body, .ret => c.assigns p || body.assigns .ret
  | loop _ _ _ _ _, _ => true
  | doLoop body _ c, .normal =>
    ((body.assigns .normal && body.assigns .cont) || c.assigns p) && body.assigns .brk
  | doLoop body _ _, .ret => body.assigns .ret
  | doLoop _ _ _, _ => true

/-- The path is read before it is assigned on some way through. -/
def exposes : Stmt → Bool
  | expr e => e.exposes p
  | jump _ _ => false
  | seq s t => s.exposes || (!s.assigns p .normal && t.exposes)
  | alt s _ t => s.exposes || t.exposes
  | loop c _ step _ body =>
    c.exposes p || (!c.assigns p && (body.exposes ||
      (!(body.assigns p .normal && body.assigns p .cont) && step.exposes p)))
  | doLoop body _ c =>
    body.exposes || (!(body.assigns p .normal && body.assigns p .cont) && c.exposes p)

end Stmt

/-! ## Exactness -/

variable {p}

theorem assigns_one_event (e : Event) : Assigns (Event.assigns p) (event e) ↔ e.assigns p :=
  assigns_event _ e

theorem exposes_one_event (e : Event) :
    Exposes (Event.assigns p) (Event.reads p) (event e) ↔ e.reads p := exposes_event e

namespace Expr

theorem assigns_iff (e : Expr) : e.assigns p ↔ Assigns (Event.assigns p) e.runs := by
  induction e with
  | text s => simp [assigns, runs, not_assigns_one]
  | read sep path =>
      rw [runs, assigns_one_event]
      simp [assigns, Event.assigns]
  | assign sep path gap rhs ih =>
      rw [runs, assigns_mul, assigns_one_event, ← ih]
      simp [assigns, Event.assigns]
  | store sep path index gap rhs ih₁ ih₂ =>
      rw [runs, assigns_mul, assigns_mul, assigns_one_event, ← ih₁, ← ih₂]
      simp [assigns, Event.assigns]
  | update pre sep path op rhs ih =>
      rw [runs, assigns_mul, assigns_mul, assigns_one_event, assigns_one_event, ← ih]
      simp [assigns, Event.assigns]
  | cat e f ih₁ ih₂ =>
      rw [runs, assigns_mul, ← ih₁, ← ih₂]
      simp [assigns]
  | opt e ih =>
      rw [runs, assigns_add]
      simp [assigns, not_assigns_one]
  | alt e mid f ih₁ ih₂ =>
      rw [runs, assigns_add, ← ih₁, ← ih₂]
      simp [assigns]

theorem exposes_iff (e : Expr) :
    e.exposes p ↔ Exposes (Event.assigns p) (Event.reads p) e.runs := by
  induction e with
  | text s => simp [exposes, runs, not_exposes_one]
  | read sep path =>
      rw [runs, exposes_one_event]
      simp [exposes, Event.reads]
  | assign sep path gap rhs ih =>
      rw [runs, exposes_mul (event_nonempty _), exposes_one_event, ← ih]
      simp [exposes, Event.reads]
  | store sep path index gap rhs ih₁ ih₂ =>
      rw [runs, exposes_mul (mul_nonempty rhs.runs_nonempty (event_nonempty _)),
        exposes_mul (event_nonempty _), exposes_one_event, ← ih₁, ← ih₂, ← assigns_iff]
      simp [exposes, Event.reads]
  | update pre sep path op rhs ih =>
      rw [runs, exposes_mul (mul_nonempty rhs.runs_nonempty (event_nonempty _)),
        exposes_mul (event_nonempty _), exposes_one_event, exposes_one_event, assigns_one_event,
        ← ih]
      simp [exposes, Event.reads, Event.assigns]
  | cat e f ih₁ ih₂ =>
      rw [runs, exposes_mul f.runs_nonempty, ← ih₁, ← ih₂, ← assigns_iff]
      simp [exposes]
  | opt e ih =>
      rw [runs, exposes_add, ← ih]
      simp [exposes, not_exposes_one]
  | alt e mid f ih₁ ih₂ =>
      rw [runs, exposes_add, ← ih₁, ← ih₂]
      simp [exposes]

end Expr

namespace Stmt

/-- Control leaves every statement in some way. -/
theorem exists_run (s : Stmt) : ∃ o, (s.runs o).Nonempty := by
  induction s with
  | expr e => exact ⟨.normal, e.runs_nonempty⟩
  | jump o s => exact ⟨o, [], by rw [runs, if_pos rfl]; exact Language.nil_mem_one⟩
  | seq s t ih₁ ih₂ =>
      obtain ⟨o, hs⟩ := ih₁
      obtain ⟨o', ht⟩ := ih₂
      cases o with
      | normal =>
          refine ⟨o', ?_⟩
          cases o' with
          | normal => exact mul_nonempty hs ht
          | _ => exact (mul_nonempty hs ht).mono Set.subset_union_right
      | brk => exact ⟨.brk, hs.mono Set.subset_union_left⟩
      | cont => exact ⟨.cont, hs.mono Set.subset_union_left⟩
      | ret => exact ⟨.ret, hs.mono Set.subset_union_left⟩
  | alt s mid t ih₁ ih₂ =>
      obtain ⟨o, hs⟩ := ih₁
      exact ⟨o, hs.mono Set.subset_union_left⟩
  | loop c mid step mid' body ih =>
      refine ⟨.normal, mul_nonempty ⟨[], Language.nil_mem_kstar _⟩ ?_⟩
      exact c.runs_nonempty.mono Set.subset_union_left
  | doLoop body mid c ih =>
      have hstar : ∀ L : Language Event, L∗.Nonempty := fun L => ⟨[], Language.nil_mem_kstar L⟩
      have hround : ((body.runs .normal + body.runs .cont) * c.runs).Nonempty →
          ((doLoop body mid c).runs .normal).Nonempty := fun h => by
        refine mul_nonempty (hstar _) (Set.Nonempty.mono Set.subset_union_left ?_)
        rw [round, one_mul]
        exact h
      obtain ⟨o, hbody⟩ := ih
      cases o with
      | normal =>
          exact ⟨.normal, hround
            (mul_nonempty (hbody.mono Set.subset_union_left) c.runs_nonempty)⟩
      | cont =>
          exact ⟨.normal, hround
            (mul_nonempty (hbody.mono Set.subset_union_right) c.runs_nonempty)⟩
      | brk =>
          exact ⟨.normal, mul_nonempty (hstar _) (hbody.mono Set.subset_union_right)⟩
      | ret => exact ⟨.ret, mul_nonempty (hstar _) hbody⟩

theorem assigns_iff (s : Stmt) (o : Outcome) :
    s.assigns p o ↔ Assigns (Event.assigns p) (s.runs o) := by
  induction s generalizing o with
  | expr e =>
      cases o with
      | normal => exact e.assigns_iff
      | _ => simp [assigns, runs, assigns_zero]
  | jump o' s =>
      rw [runs]
      by_cases ho : o' = o
      · rw [if_pos ho]
        simp [assigns, ho, not_assigns_one]
      · rw [if_neg ho]
        simp [assigns, ho, assigns_zero]
  | seq s t ih₁ ih₂ =>
      cases o with
      | normal =>
          rw [runs, assigns_mul, ← ih₁, ← ih₂]
          simp [assigns]
      | _ =>
          rw [runs, assigns_add, assigns_mul, ← ih₁, ← ih₁, ← ih₂]
          · simp [assigns]
          · simp
  | alt s mid t ih₁ ih₂ =>
      rw [runs, assigns_add, ← ih₁, ← ih₂]
      simp [assigns]
  | loop c mid step mid' body ih =>
      cases o with
      | normal =>
          rw [runs, assigns_mul, assigns_add, assigns_mul, ← c.assigns_iff, ← ih]
          simp only [assigns, not_assigns_kstar, false_or]
          tauto
      | ret =>
          rw [runs, assigns_mul, assigns_mul, ← c.assigns_iff, ← ih]
          simp [assigns, not_assigns_kstar]
      | _ => simp [assigns, runs, assigns_zero]
  | doLoop body mid c ih =>
      cases o with
      | normal =>
          rw [runs, assigns_mul, assigns_add, round, one_mul, assigns_mul, assigns_add,
            ← c.assigns_iff, ← ih, ← ih, ← ih]
          simp [assigns, not_assigns_kstar]
      | ret =>
          rw [runs, assigns_mul, ← ih]
          simp [assigns, not_assigns_kstar]
      | _ => simp [assigns, runs, assigns_zero]

/-- Some way through, however it ends, reads the path before it is assigned. -/
def Exposing (p : List Char) (s : Stmt) : Prop :=
  ∃ o, Exposes (Event.assigns p) (Event.reads p) (s.runs o)

/-- A round is exposed where the condition, the body or the step is. -/
theorem exposes_round {c step : Expr} {body : Outcome → Language Event} :
    Exposes (Event.assigns p) (Event.reads p) (round c.runs step.runs body) →
      c.exposes p ∨ ¬ c.assigns p ∧
        ((∃ o, Exposes (Event.assigns p) (Event.reads p) (body o)) ∨
          ¬ (Assigns (Event.assigns p) (body .normal) ∧
            Assigns (Event.assigns p) (body .cont)) ∧ step.exposes p) := by
  intro h
  rw [c.exposes_iff, c.assigns_iff, step.exposes_iff]
  obtain h | ⟨hc, h⟩ := h.mul_cases
  · exact Or.inl h
  refine Or.inr ⟨hc, ?_⟩
  obtain h | ⟨hbody, h⟩ := h.mul_cases
  · obtain h | h := exposes_add.1 h
    · exact Or.inl ⟨_, h⟩
    · exact Or.inl ⟨_, h⟩
  · exact Or.inr ⟨fun hboth => hbody (assigns_add.2 hboth), h⟩

theorem exposing_seq {s t : Stmt} : Exposing p (seq s t) ↔
    Exposing p s ∨ ¬ s.assigns p .normal ∧ Exposing p t := by
  rw [s.assigns_iff]
  constructor
  · rintro ⟨o, h⟩
    have hmul : Exposes (Event.assigns p) (Event.reads p) (s.runs .normal * t.runs o) →
        Exposing p s ∨ ¬ Assigns (Event.assigns p) (s.runs .normal) ∧ Exposing p t := fun h => by
      obtain h | ⟨hs, h⟩ := h.mul_cases
      · exact Or.inl ⟨_, h⟩
      · exact Or.inr ⟨hs, _, h⟩
    cases o with
    | normal => exact hmul h
    | _ =>
        obtain h | h := exposes_add.1 h
        · exact Or.inl ⟨_, h⟩
        · exact hmul h
  · have hmul : ∀ o, Exposes (Event.assigns p) (Event.reads p) (s.runs .normal * t.runs o) →
        Exposing p (seq s t) := fun o h => by
      refine ⟨o, ?_⟩
      cases o with
      | normal => exact h
      | _ => exact exposes_add.2 (Or.inr h)
    rintro (⟨o, h⟩ | ⟨hs, o, h⟩)
    · cases o with
      | normal =>
          obtain ⟨o', ht⟩ := t.exists_run
          exact hmul o' (h.mul_left ht)
      | brk => exact ⟨.brk, exposes_add.2 (Or.inl h)⟩
      | cont => exact ⟨.cont, exposes_add.2 (Or.inl h)⟩
      | ret => exact ⟨.ret, exposes_add.2 (Or.inl h)⟩
    · exact hmul o (h.mul_right hs)

theorem exposing_loop {c step : Expr} {mid mid' : List Char} {body : Stmt} :
    Exposing p (loop c mid step mid' body) ↔ c.exposes p ∨ ¬ c.assigns p ∧ (Exposing p body ∨
      ¬ (body.assigns p .normal ∧ body.assigns p .cont) ∧ step.exposes p) := by
  constructor
  · rintro ⟨o, h⟩
    simp only [body.assigns_iff]
    -- A last, partial round.
    have hlast : ∀ o, Exposes (Event.assigns p) (Event.reads p) (c.runs * body.runs o) →
        c.exposes p ∨ ¬ c.assigns p ∧ Exposing p body := fun o h => by
      rw [c.exposes_iff, c.assigns_iff]
      obtain h | ⟨hc, h⟩ := h.mul_cases
      · exact Or.inl h
      · exact Or.inr ⟨hc, o, h⟩
    cases o with
    | normal =>
        obtain h | ⟨_, h⟩ := h.mul_cases
        · exact exposes_round (exposes_kstar.1 h)
        · obtain h | h := exposes_add.1 h
          · exact Or.inl (c.exposes_iff.2 h)
          · exact (hlast _ h).imp_right fun h => h.imp_right Or.inl
    | ret =>
        obtain h | ⟨_, h⟩ := h.mul_cases
        · exact exposes_round (exposes_kstar.1 h)
        · exact (hlast _ h).imp_right fun h => h.imp_right Or.inl
    | brk => exact absurd h not_exposes_zero
    | cont => exact absurd h not_exposes_zero
  · have hend : (c.runs + c.runs * body.runs .brk).Nonempty :=
      c.runs_nonempty.mono Set.subset_union_left
    have hround : Exposes (Event.assigns p) (Event.reads p) (round c.runs step.runs body.runs) →
        Exposing p (loop c mid step mid' body) := fun h =>
      ⟨.normal, (exposes_kstar.2 h).mul_left hend⟩
    rintro (h | ⟨hc, ⟨o, h⟩ | ⟨hbody, h⟩⟩)
    · exact ⟨.normal, Exposes.mul_right not_assigns_kstar
        (exposes_add.2 (Or.inl (c.exposes_iff.1 h)))⟩
    · rw [c.assigns_iff] at hc
      cases o with
      | normal =>
          exact hround (((exposes_add.2 (Or.inl h)).mul_left step.runs_nonempty).mul_right hc)
      | cont =>
          exact hround (((exposes_add.2 (Or.inr h)).mul_left step.runs_nonempty).mul_right hc)
      | brk =>
          exact ⟨.normal, Exposes.mul_right not_assigns_kstar
            (exposes_add.2 (Or.inr (h.mul_right hc)))⟩
      | ret => exact ⟨.ret, Exposes.mul_right not_assigns_kstar (h.mul_right hc)⟩
    · rw [c.assigns_iff] at hc
      rw [body.assigns_iff, body.assigns_iff, ← assigns_add] at hbody
      exact hround (((step.exposes_iff.1 h).mul_right hbody).mul_right hc)

theorem exposing_doLoop {c : Expr} {mid : List Char} {body : Stmt} :
    Exposing p (doLoop body mid c) ↔ Exposing p body ∨
      ¬ (body.assigns p .normal ∧ body.assigns p .cont) ∧ c.exposes p := by
  have hone : round 1 c.runs body.runs = round (Expr.text []).runs c.runs body.runs := rfl
  constructor
  · rintro ⟨o, h⟩
    simp only [body.assigns_iff]
    have hround : Exposes (Event.assigns p) (Event.reads p) (round 1 c.runs body.runs) →
        Exposing p body ∨ ¬ (Assigns (Event.assigns p) (body.runs .normal) ∧
          Assigns (Event.assigns p) (body.runs .cont)) ∧ c.exposes p := fun h => by
      rw [hone] at h
      obtain h | ⟨_, h⟩ := exposes_round h
      · simp [Expr.exposes] at h
      · exact h
    cases o with
    | normal =>
        obtain h | ⟨_, h⟩ := h.mul_cases
        · exact hround (exposes_kstar.1 h)
        · obtain h | h := exposes_add.1 h
          · exact hround h
          · exact Or.inl ⟨_, h⟩
    | ret =>
        obtain h | ⟨_, h⟩ := h.mul_cases
        · exact hround (exposes_kstar.1 h)
        · exact Or.inl ⟨_, h⟩
    | brk => exact absurd h not_exposes_zero
    | cont => exact absurd h not_exposes_zero
  · have hround : Exposes (Event.assigns p) (Event.reads p) (round 1 c.runs body.runs) →
        Exposing p (doLoop body mid c) := fun h =>
      ⟨.normal, Exposes.mul_right not_assigns_kstar (exposes_add.2 (Or.inl h))⟩
    have hbody : ∀ {L : Language Event}, Exposes (Event.assigns p) (Event.reads p) L →
        Exposes (Event.assigns p) (Event.reads p) (1 * L) := fun h => by rwa [one_mul]
    rintro (⟨o, h⟩ | ⟨hassigns, h⟩)
    · cases o with
      | normal => exact hround (hbody ((exposes_add.2 (Or.inl h)).mul_left c.runs_nonempty))
      | cont => exact hround (hbody ((exposes_add.2 (Or.inr h)).mul_left c.runs_nonempty))
      | brk => exact ⟨.normal, Exposes.mul_right not_assigns_kstar (exposes_add.2 (Or.inr h))⟩
      | ret => exact ⟨.ret, Exposes.mul_right not_assigns_kstar h⟩
    · rw [body.assigns_iff, body.assigns_iff, ← assigns_add] at hassigns
      exact hround (hbody ((c.exposes_iff.1 h).mul_right hassigns))

/-- **What is read off the syntax is exact.** -/
theorem exposes_iff (s : Stmt) : s.exposes p ↔ Exposing p s := by
  induction s with
  | expr e =>
      rw [exposes, e.exposes_iff]
      refine ⟨fun h => ⟨.normal, h⟩, fun ⟨o, h⟩ => ?_⟩
      cases o with
      | normal => exact h
      | _ => exact absurd h not_exposes_zero
  | jump o s =>
      refine ⟨fun h => by simp [exposes] at h, fun ⟨o', h⟩ => ?_⟩
      rw [runs] at h
      split_ifs at h
      · exact absurd h not_exposes_one
      · exact absurd h not_exposes_zero
  | seq s t ih₁ ih₂ =>
      rw [exposing_seq, ← ih₁, ← ih₂]
      simp [exposes]
  | alt s mid t ih₁ ih₂ =>
      rw [exposes, Bool.or_eq_true, ih₁, ih₂]
      simp only [Exposing, runs, exposes_add, exists_or]
  | loop c mid step mid' body ih =>
      rw [exposing_loop, ← ih]
      simp [exposes, ← Bool.not_eq_true, imp_iff_not_or]
  | doLoop body mid c ih =>
      rw [exposing_doLoop, ← ih]
      simp [exposes, ← Bool.not_eq_true, imp_iff_not_or]

end Stmt

end DefUse
end Floem
