import Mathlib
import Floem.DefUse.Runs
import Floem.Lib.Greedy

/-!
# Sets of access paths

Paths are taken for regular expressions when they are compared (`kill_live` of
`pipeline_state.py`, `filter_live` of `smart_queue_compile.py`): a `.` between two fields
stands for any character.

* `Path` — an access path.
* `Extends` — a path goes on behind another; `LooselyExtends` — as the pattern sees it.
* `killLive`, `filterLive` — the operations, on the lists of the elements of the sets.
* `PrefixLaw` — what they are for.
* `prefixLaw_iff` — **the main theorem**: they do it exactly if no dot stands for another
  character.
-/

namespace Floem
namespace DefUse

open Lib

/-- An access path: names with `.` and `->` between them. -/
structure Path where
  text : List Char
  isPath : IsPath text
  deriving DecidableEq

namespace Path

/-- The length of the text. -/
def size (p : Path) : ℕ := p.text.length

/-- The path goes on behind the other with `.` or `->`. -/
def Extends (q p : Path) : Prop := q.text ++ ".".toList <+: p.text ∨ q.text ++ "->".toList <+: p.text

instance (q p : Path) : Decidable (q.Extends p) := inferInstanceAs (Decidable (_ ∨ _))

end Path

/-! ## Patterns -/

/-- What is behind the match of a path as a regular expression, at the front of a text: a `.`
matches any character but the end of a line. -/
def dotted : List Char → List Char → Option (List Char)
  | [], text => some text
  | _ :: _, [] => none
  | c :: pattern, t :: text =>
    if c = '.' ∧ t ≠ '\n' ∨ c ≠ '.' ∧ c = t then dotted pattern text else none

/-- `re.match(q + '\.', p)` or `re.match(q + '->', p)`. -/
def looselyExtends (q p : Path) : Bool :=
  (dotted q.text p.text).any fun rest => ".".toList.isPrefixOf rest || "->".toList.isPrefixOf rest

/-- `re.match(q + '$', p)`. -/
def looselyEquals (q p : Path) : Bool :=
  (dotted q.text p.text).any fun rest => rest = [] || rest = ['\n']

/-! ## The operations -/

/-- `kill_live`, on the paths of `live` in any order. -/
def killLive (live defs : List Path) : List Path :=
  live.filter fun var => !defs.any fun d => looselyEquals d var || looselyExtends d var

/-- `filter_live`, on the paths in any order. -/
def filterLive (vars : List Path) : List Path :=
  greedy looselyExtends (vars.mergeSort fun p q => p.size ≤ q.size)

/-- **The laws of the operations.** -/
structure PrefixLaw (live defs vars : List Path) : Prop where
  kill : ∀ p, p ∈ killLive live defs ↔ p ∈ live ∧ ∀ d ∈ defs, ¬ (d = p ∨ d.Extends p)
  subset : ∀ p ∈ filterLive vars, p ∈ vars
  apart : ∀ p ∈ filterLive vars, ∀ q ∈ filterLive vars, ¬ q.Extends p
  covered : ∀ p ∈ vars, ∃ q ∈ filterLive vars, q = p ∨ q.Extends p

/-- What a definition kills as a pattern, some definition kills as a path. -/
def KillsExactly (live defs : List Path) : Prop :=
  ∀ p ∈ live, ∀ d ∈ defs, looselyEquals d p ∨ looselyExtends d p →
    ∃ d' ∈ defs, d' = p ∨ d'.Extends p

/-- The paths that extend no other path of the set do not match each other as patterns. -/
def MinimalApart (vars : List Path) : Prop :=
  ∀ p q, MinimalIn Path.Extends vars p → MinimalIn Path.Extends vars q → ¬ looselyExtends q p

/-! ## Paths as patterns -/

theorem dotted_append (pattern rest : List Char) :
    dotted pattern (pattern ++ rest) = some rest := by
  induction pattern with
  | nil => rfl
  | cons c pattern ih =>
      rw [List.cons_append, dotted, if_pos, ih]
      by_cases hdot : c = '.'
      · exact Or.inl ⟨hdot, by rw [hdot]; decide⟩
      · exact Or.inr ⟨hdot, rfl⟩

theorem length_of_dotted {pattern text rest : List Char} (h : dotted pattern text = some rest) :
    text.length = pattern.length + rest.length := by
  induction pattern generalizing text with
  | nil =>
      obtain rfl := Option.some.inj h
      simp
  | cons c pattern ih =>
      cases text with
      | nil => cases h
      | cons t text =>
          rw [dotted] at h
          split_ifs at h
          rw [List.length_cons, List.length_cons, ih h]
          omega

theorem looselyExtends_of_extends {q p : Path} (h : q.Extends p) : looselyExtends q p := by
  obtain ⟨rest, h⟩ | ⟨rest, h⟩ := h
  · rw [looselyExtends, ← h, List.append_assoc, dotted_append]
    simp
  · rw [looselyExtends, ← h, List.append_assoc, dotted_append]
    simp

theorem looselyEquals_self (p : Path) : looselyEquals p p := by
  have hself := dotted_append p.text []
  rw [List.append_nil] at hself
  simp [looselyEquals, hself]

/-- Only the shorter path rejects. -/
theorem size_lt_of_looselyExtends {q p : Path} (h : looselyExtends q p) : q.size < p.size := by
  unfold looselyExtends at h
  cases hd : dotted q.text p.text with
  | none => simp [hd] at h
  | some rest =>
      have hlength := length_of_dotted hd
      have hrest : 0 < rest.length := by
        cases rest with
        | nil => simp [hd] at h
        | cons c rest => exact Nat.succ_pos _
      unfold Path.size
      omega

theorem Path.Extends.trans (a b c : Path) (hab : a.Extends b) (hbc : b.Extends c) :
    a.Extends c := by
  have hb : b.text <+: c.text := hbc.elim (List.prefix_append _ _).trans (List.prefix_append _ _).trans
  exact hab.imp (fun h => h.trans hb) fun h => h.trans hb

/-! ## The laws -/

theorem mem_killLive {live defs : List Path} {p : Path} : p ∈ killLive live defs ↔
    p ∈ live ∧ ∀ d ∈ defs, ¬ (looselyEquals d p ∨ looselyExtends d p) := by
  simp [killLive, List.mem_filter]

theorem kill_iff {live defs : List Path} :
    (∀ p, p ∈ killLive live defs ↔ p ∈ live ∧ ∀ d ∈ defs, ¬ (d = p ∨ d.Extends p)) ↔
      KillsExactly live defs := by
  simp only [mem_killLive]
  constructor
  · intro h p hp d hd hloose
    by_contra hno
    push Not at hno
    exact ((h p).2 ⟨hp, fun d' hd' hcovers => hcovers.elim (hno d' hd').1 (hno d' hd').2⟩).2
      d hd hloose
  · refine fun h p => and_congr_right fun hp => ⟨fun hfree d hd hcovers => ?_, fun hfree d hd hloose => ?_⟩
    · obtain rfl | hextends := hcovers
      · exact hfree d hd (Or.inl (looselyEquals_self d))
      · exact hfree d hd (Or.inr (looselyExtends_of_extends hextends))
    · obtain ⟨d', hd', hcovers⟩ := h p hp d hd hloose
      exact hfree d' hd' hcovers

theorem pairwise_sorted (vars : List Path) :
    (vars.mergeSort fun p q => p.size ≤ q.size).Pairwise fun p q => p.size ≤ q.size := by
  let le : Path → Path → Bool := fun p q => decide (p.size ≤ q.size)
  have htrans : ∀ a b c, le a b = true → le b c = true → le a c = true :=
    fun a b c hab hbc => decide_eq_true
      ((of_decide_eq_true hab).trans (of_decide_eq_true hbc))
  have htotal : ∀ a b, (le a b || le b a) = true := fun a b => by
    simp only [le, Bool.or_eq_true, decide_eq_true_eq]
    omega
  exact (List.pairwise_mergeSort htrans htotal vars).imp fun h => of_decide_eq_true h

theorem mem_sorted {vars : List Path} {p : Path} :
    (p ∈ vars.mergeSort fun p q => p.size ≤ q.size) ↔ p ∈ vars := List.mem_mergeSort

theorem mem_filterLive {vars : List Path} {p : Path} : p ∈ filterLive vars ↔
    p ∈ vars ∧ ∀ q ∈ filterLive vars, ¬ looselyExtends q p := by
  rw [filterLive, mem_greedy_iff (pairwise_sorted vars) fun a b => size_lt_of_looselyExtends,
    mem_sorted]

theorem covered_iff {vars : List Path} :
    (∀ p ∈ vars, ∃ q ∈ filterLive vars, q = p ∨ q.Extends p) ↔ MinimalApart vars := by
  have h := greedy_covers_iff (pairwise_sorted vars) (fun a b => size_lt_of_looselyExtends)
    Path.Extends.trans fun a b => looselyExtends_of_extends
  simpa only [MinimalIn, mem_sorted, MinimalApart, filterLive] using h

/-- **The operations obey their laws** exactly if no dot of a path stands for another
character of a second path. -/
theorem prefixLaw_iff (live defs vars : List Path) :
    PrefixLaw live defs vars ↔ KillsExactly live defs ∧ MinimalApart vars := by
  rw [← kill_iff, ← covered_iff]
  refine ⟨fun h => ⟨h.kill, h.covered⟩, fun ⟨hkill, hcovered⟩ => ⟨hkill, ?_, ?_, hcovered⟩⟩
  · exact fun p hp => (mem_filterLive.1 hp).1
  · exact fun p hp q hq hextends =>
      (mem_filterLive.1 hp).2 q hq (looselyExtends_of_extends hextends)

/-- **A dot kills another field**: a definition of `hdr.len` kills the field `hdr_len`. -/
theorem dot_kills_underscore : ¬ PrefixLaw [⟨"hdr_len".toList, by decide⟩]
    [⟨"hdr.len".toList, by decide⟩] [] := by
  intro h
  have hkept := (h.kill ⟨"hdr_len".toList, by decide⟩).2 ⟨List.mem_singleton_self _, by decide⟩
  exact absurd hkept (by decide)

end DefUse
end Floem
