import Mathlib
import Floem.DefUse.Element
import Floem.DefUse.Runs

/-!
# Uses and definitions of elements

The uses and the definitions of an element decide what is copied into the queues in front of
and behind it.  They are extracted from the code in front of the output block alone.

* `Source` — an element with the programs that run on the two devices.
* `Source.Sound` — what is read and not assigned before is among the uses, and the
  definitions are assigned on every way through.
* `Source.Extractable` — the condition, read off the syntax.
* `sound_iff` — **the main theorem**: it is exact.
* `output_read_is_lost` — a condition of the output block.
-/

namespace Floem
namespace DefUse

open Lib

/-- An element with the programs that run on the devices: the code and the output code that
is generated behind it. -/
structure Source where
  element : Element
  /-- The order in which the ports fire, or empty. -/
  order : List (List Char)
  body : Device → Stmt
  out : Device → Stmt
  code_eq : ∀ d, element.getCode d = render (body d).toks
  output_eq : ∀ d, element.getOutputCode order d = some (render (out d).toks)
  spelled : Spelled [] (body .cpu).toks
  fresh : element.uses = ∅ ∧ element.defs = ∅

namespace Source

variable (s : Source)

/-- All that runs on a device. -/
def whole (d : Device) : Stmt := .seq (s.body d) (s.out d)

/-- **The extraction is sound**: what some execution reads before it is assigned is a use,
and a definition is assigned on every execution. -/
structure Sound (e : Element) : Prop where
  uses : ∀ d o p, Exposes (Event.assigns p) (Event.reads p) ((s.whole d).runs o) → p ∈ e.uses
  defs : ∀ p ∈ e.defs, ∀ d o, Assigns (Event.assigns p) ((s.whole d).runs o)

/-- Where the body reads the path in its text, as it stands for the scan. -/
def used (p : List Char) : Prop := (p, true) ∈ marks (s.body .cpu).toks

/-- Where the body assigns the path in its text, in a form the scan knows. -/
def defined (p : List Char) : Prop := (p, false) ∈ marks (s.body .cpu).toks

/-- What the output block or the second code reads unassigned stands in the body as well,
and what the body defines is assigned on every way through. -/
structure Extractable : Prop where
  out : ∀ p ∈ reads (s.out .cpu).toks,
    (s.out .cpu).exposes p → (s.body .cpu).assigns p .normal ∨ s.used p
  cavium : ∀ p ∈ reads (s.whole .cavium).toks, (s.whole .cavium).exposes p → s.used p
  defs : ∀ p, s.defined p → ∀ d o, (s.whole d).assigns p o

end Source

/-! ## Reads in the text -/

theorem reads_append (toks toks' : List Tok) : reads (toks ++ toks') = reads toks ++ reads toks' :=
  List.filterMap_append

theorem reads_text (s : List Char) (toks : List Tok) : reads (.text s :: toks) = reads toks := rfl

theorem reads_read (sep : Sep) (p : List Char) (toks : List Tok) :
    reads (.access false sep p :: toks) = p :: reads toks := rfl

theorem reads_written (sep : Sep) (p : List Char) (toks : List Tok) :
    reads (.access true sep p :: toks) = reads toks := rfl

theorem Expr.mem_reads_of_exposes {p : List Char} {e : Expr} (h : e.exposes p) :
    p ∈ reads e.toks := by
  induction e with
  | text s => simp [exposes] at h
  | read sep path =>
      obtain rfl : path = p := by simpa [exposes] using h
      exact List.mem_singleton_self path
  | assign sep path gap rhs ih =>
      rw [toks, reads_written, reads_text]
      exact ih h
  | store sep path index gap rhs ih₁ ih₂ =>
      rw [toks, reads_written, reads_append, reads_text, List.mem_append]
      simp only [exposes, Bool.or_eq_true, Bool.and_eq_true] at h
      exact h.imp ih₁ fun h => ih₂ h.2
  | update pre sep path op rhs ih =>
      rw [toks, reads_text, reads_read, reads_text, List.mem_cons]
      simp only [exposes, Bool.or_eq_true, decide_eq_true_eq] at h
      exact h.imp Eq.symm ih
  | cat e f ih₁ ih₂ =>
      rw [toks, reads_append, List.mem_append]
      simp only [exposes, Bool.or_eq_true, Bool.and_eq_true] at h
      exact h.imp ih₁ fun h => ih₂ h.2
  | opt e ih => exact ih h
  | alt e mid f ih₁ ih₂ =>
      rw [toks, reads_append, reads_text, List.mem_append]
      simp only [exposes, Bool.or_eq_true] at h
      exact h.imp ih₁ ih₂

theorem Stmt.mem_reads_of_exposes {p : List Char} {s : Stmt} (h : s.exposes p) :
    p ∈ reads s.toks := by
  induction s with
  | expr e => exact Expr.mem_reads_of_exposes h
  | jump o s => simp [exposes] at h
  | seq s t ih₁ ih₂ =>
      rw [toks, reads_append, List.mem_append]
      simp only [exposes, Bool.or_eq_true, Bool.and_eq_true] at h
      exact h.imp ih₁ fun h => ih₂ h.2
  | alt s mid t ih₁ ih₂ =>
      rw [toks, reads_append, reads_text, List.mem_append]
      simp only [exposes, Bool.or_eq_true] at h
      exact h.imp ih₁ ih₂
  | loop c mid step mid' body ih =>
      rw [toks, reads_append, reads_text, reads_append, reads_text, List.mem_append,
        List.mem_append]
      simp only [exposes, Bool.or_eq_true, Bool.and_eq_true] at h
      obtain h | ⟨_, h | ⟨_, h⟩⟩ := h
      · exact Or.inl (Expr.mem_reads_of_exposes h)
      · exact Or.inr (Or.inr (ih h))
      · exact Or.inr (Or.inl (Expr.mem_reads_of_exposes h))
  | doLoop body mid c ih =>
      rw [toks, reads_append, reads_text, List.mem_append]
      simp only [exposes, Bool.or_eq_true, Bool.and_eq_true] at h
      exact h.imp ih fun h => Expr.mem_reads_of_exposes h.2

/-! ## The main theorem -/

namespace Source

variable (s : Source)

theorem used_of_exposes {p : List Char} (h : (s.body .cpu).exposes p) : s.used p :=
  use_of_mem_reads s.spelled (Stmt.mem_reads_of_exposes h)

/-- What the loop makes of the element. -/
theorem collect_eq : ∃ e found, s.element.collect = some (e, found) ∧
    (∀ p, p ∈ e.uses ↔ s.used p) ∧ ∀ p, p ∈ e.defs ↔ s.defined p := by
  have hcode : s.element.code = render (s.body .cpu).toks := s.code_eq .cpu
  obtain ⟨found, hscan, hfound⟩ := scan_spelled s.spelled (Nat.le_refl _)
  rw [List.nil_append, ← hcode] at hscan
  refine ⟨_, found, by rw [Element.collect, hscan]; rfl, fun p => ?_, fun p => ?_⟩
  · rw [Element.mem_uses_record, s.fresh.1, hfound]
    simp [used]
  · rw [Element.mem_defs_record, s.fresh.2, hfound]
    simp [defined]

theorem sound_iff_extractable {e : Element} (huses : ∀ p, p ∈ e.uses ↔ s.used p)
    (hdefs : ∀ p, p ∈ e.defs ↔ s.defined p) : s.Sound e ↔ s.Extractable := by
  have hexposes : ∀ d p, (s.whole d).exposes p →
      ∃ o, Exposes (Event.assigns p) (Event.reads p) ((s.whole d).runs o) :=
    fun d p h => (Stmt.exposes_iff _).1 h
  constructor
  · intro h
    refine ⟨fun p _ hout => ?_, fun p _ hcavium => ?_, fun p hp d o => ?_⟩
    · by_cases hassigns : (s.body .cpu).assigns p .normal
      · exact Or.inl hassigns
      · obtain ⟨o, ho⟩ := hexposes .cpu p (by simp [whole, Stmt.exposes, hassigns, hout])
        exact Or.inr ((huses p).1 (h.uses .cpu o p ho))
    · obtain ⟨o, ho⟩ := hexposes .cavium p hcavium
      exact (huses p).1 (h.uses .cavium o p ho)
    · exact (Stmt.assigns_iff _ o).2 (h.defs p ((hdefs p).2 hp) d o)
  · intro h
    refine ⟨fun d o p hp => (huses p).2 ?_, fun p hp d o => ?_⟩
    · have hwhole : (s.whole d).exposes p := (Stmt.exposes_iff _).2 ⟨o, hp⟩
      cases d with
      | cavium => exact h.cavium p (Stmt.mem_reads_of_exposes hwhole) hwhole
      | cpu =>
          simp only [whole, Stmt.exposes, Bool.or_eq_true, Bool.and_eq_true] at hwhole
          obtain hbody | ⟨hassigns, hout⟩ := hwhole
          · exact s.used_of_exposes hbody
          · obtain hyes | hused := h.out p (Stmt.mem_reads_of_exposes hout) hout
            · simp [hyes] at hassigns
            · exact hused
    · exact (Stmt.assigns_iff _ o).1 (h.defs p ((hdefs p).1 hp) d o)

end Source

/-- The loop gets past every element. -/
theorem collect_all (sources : List Source) : ∃ collected,
    (sources.map Source.element).mapM Element.collect = some collected ∧
      List.Forall₂ (fun s (e : Element × List Found) => s.Sound e.1 ↔ s.Extractable)
        sources collected := by
  induction sources with
  | nil => exact ⟨[], rfl, List.Forall₂.nil⟩
  | cons s sources ih =>
      obtain ⟨e, found, hcollect, huses, hdefs⟩ := s.collect_eq
      obtain ⟨collected, hrest, hsound⟩ := ih
      refine ⟨(e, found) :: collected, ?_, List.Forall₂.cons ?_ hsound⟩
      · rw [List.map_cons, List.mapM_cons, hcollect, hrest]
        rfl
      · exact s.sound_iff_extractable huses hdefs

/-- **Def/use extraction is sound exactly for the extractable elements.** -/
theorem sound_iff (sources : List Source) :
    (∃ elements fields, collectDefsUses (sources.map Source.element) = some (elements, fields) ∧
      List.Forall₂ Source.Sound sources elements) ↔ ∀ s ∈ sources, s.Extractable := by
  obtain ⟨collected, hcollect, hsound⟩ := collect_all sources
  have hall : List.Forall₂ Source.Sound sources (collected.map Prod.fst) ↔
      ∀ s ∈ sources, s.Extractable := by
    clear hcollect
    rw [List.forall₂_map_right_iff]
    induction hsound with
    | nil => simp
    | cons h _ ih => rw [List.forall₂_cons, List.forall_mem_cons, h, ih]
  rw [← hall]
  constructor
  · rintro ⟨elements, fields, heq, h⟩
    rw [collectDefsUses, hcollect] at heq
    obtain ⟨rfl, _⟩ := Prod.mk.inj (Option.some.inj heq)
    exact h
  · intro h
    exact ⟨_, _, by rw [collectDefsUses, hcollect]; rfl, h⟩

/-- An element of `memcached_split`: it passes on what is about a full segment. -/
def filterFull : Option Element :=
  Element.make "FilterFull".toList ["inp".toList] ["out".toList]
    "\nstate.qid = 0;\noutput switch \x7b case state.segfull: out(); \x7d".toList none

def filterFullElement : Element where
  name := "FilterFull".toList
  outports := ["out".toList]
  code := "  \nstate.qid = 0;\n".toList
  codeCavium := none
  outputFire := .zeroOrOne
  outputCode := .cases [(" state.segfull".toList, "out()".toList)]
  outputCodeCavium := none
  defs := ∅
  uses := ∅

theorem filterFull_eq : filterFull = some filterFullElement := by decide +kernel

def filterFullSource : Source where
  element := filterFullElement
  order := []
  body _ := .expr (.cat (.text "  \n".toList)
    (.assign .dot "qid".toList " =".toList (.text " 0;\n".toList)))
  out _ := .seq (.expr (.cat (.text "  if( ".toList) (.read .dot "segfull".toList)))
    (.alt (.expr (.text ") \x7b out(); \x7d\n".toList)) [] (.expr (.text [])))
  code_eq d := by cases d <;> decide
  output_eq d := by cases d <;> decide +kernel
  spelled := by decide +kernel
  fresh := ⟨rfl, rfl⟩

/-- **The condition of an output block is lost**: the element has no use of `segfull`. -/
theorem output_read_is_lost : filterFull = some filterFullSource.element ∧
    ¬ ∃ elements fields,
      collectDefsUses [filterFullSource.element] = some (elements, fields) ∧
        List.Forall₂ Source.Sound [filterFullSource] elements := by
  refine ⟨filterFull_eq, ?_⟩
  rintro ⟨elements, fields, hcollect, hsound⟩
  have hcollected : collectDefsUses [filterFullElement] =
      some ([{ filterFullElement with defs := {"qid".toList} }],
        [("qid".toList, ["qid".toList])]) := by decide +kernel
  obtain ⟨rfl, _⟩ := Prod.mk.inj (Option.some.inj (hcollected.symm.trans hcollect))
  have hexposes : (filterFullSource.whole .cpu).exposes "segfull".toList := by decide +kernel
  obtain ⟨o, ho⟩ := (Stmt.exposes_iff _).1 hexposes
  have hused := (List.forall₂_cons.1 hsound).1.uses .cpu o _ ho
  exact absurd hused (Finset.notMem_empty _)

end DefUse
end Floem
