import Mathlib
import Floem.Codegen.Rename

/-!
# Renaming as a substitution

* `simultaneous` — each word that is not a member gets its own new name.
* `Simultaneous` — so does `rename_state`, in every order of the names.
* `Seen` — the loop renames the occurrences of a name in the text that are no members, and
  none that have become that name.
* `exchanged` — two names that are exchanged: the order of the pairs matters.
* `simultaneous_iff` — renaming is a substitution exactly if that holds for every pair in every
  order.
* `chained_not_simultaneous` — a new name that is renamed again.
-/

namespace Floem
namespace Codegen

open Lib DefUse

/-! ## The substitution -/

def isSpace (c : Char) : Bool :=
  c = ' ' ∨ c = '\t' ∨ c = '\n' ∨ c = '\r' ∨ c = '\u000b' ∨ c = '\u000c'

/-- What is behind this gap is a member. -/
def selects (gap : List Char) : Bool :=
  let front := (gap.reverse.dropWhile isSpace).reverse
  ['.'].isSuffixOf front || endsArrow front

abbrev Pairs := List (List Char × List Char)

/-- The name of the state instance. -/
def newName (l : Pairs) (w : List Char) : List Char :=
  ((l.find? fun p => p.1 = w).map Prod.snd).getD w

def substitute (f : List Char → List Char) : List Char → Words Char → Words Char
  | _, [] => []
  | gap, (w, g) :: l => (if selects gap then w else f w, g) :: substitute f g l

/-- The text with every local name replaced that is not a member. -/
def simultaneous (l : Pairs) (src : List Char) : List Char :=
  let r := spans identChar src
  render (r.1, substitute (newName l) r.1 r.2)

/-- Pairs of names, with distinct local names. -/
structure Renaming where
  pairs : Pairs
  names : ∀ p ∈ pairs, IsName p.1 ∧ IsName p.2
  distinct : (pairs.map Prod.fst).Nodup

/-- **`rename_state` is a simultaneous substitution**, in any order of the pairs. -/
def Simultaneous (R : Renaming) (src : List Char) : Prop :=
  ∀ l, l.Perm R.pairs → renameState l src = simultaneous R.pairs src

/-! ## The condition -/

/-- How many letters of the next gap have been passed. -/
def passed (old new : List Char) (k : ℕ) (gap w g : List Char) : ℕ :=
  if w = old ∧ meets k gap g then if endsArrow gap then 0 else old.length - new.length
  else k - gap.length - w.length

/-- Of the places with the name, the loop renames those where the name was in the text and is no
member, and no others.  `f` is what has been substituted before.  The places that it renames
have a letter on both sides, and the gap in front of them is longer than what the name in front
has lost in length; it does not rename directly behind `.` and `->`. -/
def Seen (f : List Char → List Char) (old new : List Char) : ℕ → List Char → Words Char → Prop
  | _, _, [] => True
  | k, gap, (w, g) :: l =>
    let v := if selects gap then w else f w
    (v = old → (meets k gap g && !endsArrow gap) = (decide (w = old) && !selects gap)) ∧
      Seen f old new (passed old new k gap v g) g l

/-- In every order of the pairs, when the pairs in front have been substituted. -/
def AllSeen (R : Renaming) (src : List Char) : Prop :=
  ∀ l, l.Perm R.pairs → ∀ before p after, l = before ++ p :: after → p.1 ≠ p.2 →
    Seen (newName before) p.1 p.2 0 (spans identChar src).1 (spans identChar src).2

/-! ## New names -/

section NewName

variable {l : Pairs} {p : List Char × List Char} {w : List Char}

theorem newName_of_notMem (h : w ∉ l.map Prod.fst) : newName l w = w := by
  have hnone : l.find? (fun p => p.1 = w) = none := by
    rw [List.find?_eq_none]
    intro p hp hw
    exact h (List.mem_map.2 ⟨p, hp, of_decide_eq_true hw⟩)
  rw [newName, hnone]
  rfl

theorem newName_of_mem (hnodup : (l.map Prod.fst).Nodup) (h : p ∈ l) : newName l p.1 = p.2 := by
  induction l with
  | nil => exact absurd h List.not_mem_nil
  | cons q l ih =>
      rw [List.map_cons, List.nodup_cons] at hnodup
      obtain rfl | h := List.mem_cons.1 h
      · simp [newName]
      · have hne : q.1 ≠ p.1 := fun heq => hnodup.1 (List.mem_map.2 ⟨p, h, heq.symm⟩)
        have hrest := ih hnodup.2 h
        rw [newName] at hrest ⊢
        rw [List.find?_cons_of_neg (by simpa using hne), hrest]

theorem newName_perm {l' : Pairs} (hnodup : (l.map Prod.fst).Nodup) (h : l'.Perm l) :
    newName l' = newName l := by
  funext w
  have hnodup' : (l'.map Prod.fst).Nodup := ((h.map Prod.fst).nodup_iff).2 hnodup
  by_cases hw : w ∈ l.map Prod.fst
  · obtain ⟨p, hp, rfl⟩ := List.mem_map.1 hw
    rw [newName_of_mem hnodup hp, newName_of_mem hnodup' (h.mem_iff.2 hp)]
  · rw [newName_of_notMem hw, newName_of_notMem fun hw' => hw ((h.map Prod.fst).mem_iff.1 hw')]

theorem newName_append_of_notMem {l' : Pairs} (h : w ∉ l.map Prod.fst) :
    newName (l ++ l') w = newName l' w := by
  have hnone : l.find? (fun p => p.1 = w) = none := by
    rw [List.find?_eq_none]
    intro p hp hw
    exact h (List.mem_map.2 ⟨p, hp, of_decide_eq_true hw⟩)
  rw [newName, List.find?_append, hnone]
  rfl

theorem newName_append_of_mem {l' : Pairs} (h : w ∈ l.map Prod.fst) :
    newName (l ++ l') w = newName l w := by
  obtain ⟨p, hp, rfl⟩ := List.mem_map.1 h
  have hsome : (l.find? fun q => q.1 = p.1).isSome = true :=
    List.find?_isSome.2 ⟨p, hp, decide_eq_true rfl⟩
  rw [newName, newName, List.find?_append, Option.or_of_isSome hsome]

theorem newName_singleton_of_ne (h : w ≠ p.1) : newName [p] w = w :=
  newName_of_notMem fun hw => h (by simpa using hw)

theorem isName_newName (h : ∀ p ∈ l, IsName p.1 ∧ IsName p.2) (hw : IsName w) :
    IsName (newName l w) := by
  rw [newName]
  cases hfind : l.find? fun p => p.1 = w with
  | none => exact hw
  | some p => exact (h p (List.mem_of_find?_eq_some hfind)).2

end NewName

/-! ## Word by word -/

section Places

/-- The gap in front of a word. -/
def gapBefore (gap : List Char) (l : Words Char) (i : ℕ) : List Char :=
  ((gap :: l.map Prod.snd)[i]?).getD []

variable {old new : List Char} {f : List Char → List Char}

theorem getElem?_substitute (gap : List Char) (l : Words Char) (i : ℕ) :
    (substitute f gap l)[i]? =
      l[i]?.map fun s => (if selects (gapBefore gap l i) then s.1 else f s.1, s.2) := by
  induction l generalizing gap i with
  | nil => rfl
  | cons s l ih =>
      cases i with
      | zero => rfl
      | succ i => exact ih s.2 i

theorem map_snd_substitute (gap : List Char) (l : Words Char) :
    (substitute f gap l).map Prod.snd = l.map Prod.snd := by
  induction l generalizing gap with
  | nil => rfl
  | cons s l ih => rw [substitute, List.map_cons, List.map_cons, ih]

theorem map_snd_renameWords (k : ℕ) (gap : List Char) (l : Words Char) :
    (renameWords old new k gap l).map Prod.snd = l.map Prod.snd := by
  induction l generalizing k gap with
  | nil => rfl
  | cons s l ih =>
      rw [renameWords]
      split
      · split <;> rw [List.map_cons, List.map_cons, ih]
      · rw [List.map_cons, List.map_cons, ih]

variable (old new) in
/-- The loop renames the name or leaves it, and leaves the other words. -/
theorem getElem?_renameWords (k : ℕ) (gap : List Char) (l : Words Char) (i : ℕ) :
    ∃ b : Bool, (renameWords old new k gap l)[i]? =
      l[i]?.map fun s => (if b = true ∧ s.1 = old then new else s.1, s.2) := by
  induction l generalizing k gap i with
  | nil => exact ⟨false, rfl⟩
  | cons s l ih =>
      obtain ⟨w, g⟩ := s
      rw [renameWords]
      cases i with
      | zero =>
          split
          · rename_i h
            split
            · exact ⟨false, by simp⟩
            · exact ⟨true, by simp [h.1]⟩
          · exact ⟨false, by simp⟩
      | succ i =>
          split
          · split
            · exact ih 0 g i
            · exact ih _ g i
          · exact ih _ g i

/-- **The loop substitutes one more name** exactly if it sees its occurrences. -/
theorem seen_iff (hne : old ≠ new) (hf : f old = old) (k : ℕ) (gap : List Char) (l : Words Char) :
    Seen f old new k gap l ↔ renameWords old new k gap (substitute f gap l) =
      substitute (fun w => if w = old then new else f w) gap l := by
  induction l generalizing k gap with
  | nil => exact iff_of_true trivial rfl
  | cons s l ih =>
      obtain ⟨w, g⟩ := s
      rw [Seen, ih, substitute, substitute, renameWords, passed]
      by_cases hv : (if selects gap then w else f w) = old
      · cases hmeets : meets k gap g <;> cases harrow : endsArrow gap <;>
          cases hselects : selects gap <;> by_cases hw : w = old <;>
          simp_all [Ne.symm hne]
      · have hname : (if selects gap then w else f w) =
            if selects gap then w else if w = old then new else f w := by
          split_ifs with hselects hw
          · rfl
          · rw [if_neg hselects, hw, hf] at hv
            exact absurd rfl hv
          · rfl
        rw [← hname]
        simp [hv]

theorem renameWords_self (old : List Char) (k : ℕ) (gap : List Char) (l : Words Char) :
    renameWords old old k gap l = l := by
  induction l generalizing k gap with
  | nil => rfl
  | cons s l ih =>
      rw [renameWords]
      split
      · rename_i h
        split
        · rw [ih]
        · rw [ih, ← h.1]
      · rw [ih]

theorem substitute_id (gap : List Char) (l : Words Char) : substitute (fun w => w) gap l = l := by
  induction l generalizing gap with
  | nil => rfl
  | cons s l ih => rw [substitute, ih, ite_self]

/-- Words that are replaced by names, with the gaps they had. -/
theorem properWords_of_map_snd {l l' : Words Char} (h : ProperWords identChar l)
    (hgaps : l'.map Prod.snd = l.map Prod.snd) (hnames : ∀ s ∈ l', IsName s.1) :
    ProperWords identChar l' := by
  induction l generalizing l' with
  | nil =>
      obtain rfl := List.map_eq_nil_iff.1 hgaps
      trivial
  | cons s l ih =>
      cases l' with
      | nil => cases hgaps
      | cons s' l' =>
          obtain ⟨hgap, hrest⟩ := List.cons.inj hgaps
          obtain ⟨_, hg, hne, hl⟩ := h
          refine ⟨hnames s' List.mem_cons_self, hgap ▸ hg, fun hl' => hgap ▸ hne ?_,
            ih hl hrest fun t ht => hnames t (List.mem_cons_of_mem s' ht)⟩
          rintro rfl
          exact hl' (List.map_eq_nil_iff.1 hrest)

theorem isName_of_mem {l : Words Char} (h : ProperWords identChar l) :
    ∀ s ∈ l, IsName s.1 := by
  induction l with
  | nil => exact fun s hs => absurd hs List.not_mem_nil
  | cons s l ih => exact List.forall_mem_cons.2 ⟨h.1, ih h.2.2.2⟩

theorem length_le_renderWords {l : Words Char} (h : ProperWords identChar l) :
    l.length ≤ (renderWords l).length := by
  induction l with
  | nil => exact Nat.le_refl 0
  | cons s l ih =>
      have hrest := ih h.2.2.2
      have hword := List.length_pos_iff.2 h.1.1
      rw [renderWords_cons, List.length_append, List.length_append, List.length_cons]
      omega

/-- The loop renames the name here, if it has passed nothing of the gap. -/
def free (gap next : List Char) : Bool := meets 0 gap next && !endsArrow gap

theorem gapBefore_congr {gap : List Char} {l l' : Words Char}
    (h : l'.map Prod.snd = l.map Prod.snd) (i : ℕ) : gapBefore gap l' i = gapBefore gap l i := by
  rw [gapBefore, gapBefore, h]

/-- With a new name that is not shorter the loop passes nothing of the next gap. -/
theorem getElem?_renameWords_of_le (hle : old.length ≤ new.length) (gap : List Char)
    (l : Words Char) (i : ℕ) : (renameWords old new 0 gap l)[i]? = l[i]?.map fun s =>
      (if s.1 = old ∧ free (gapBefore gap l i) s.2 = true then new else s.1, s.2) := by
  induction l generalizing gap i with
  | nil => rfl
  | cons s l ih =>
      obtain ⟨w, g⟩ := s
      rw [renameWords, Nat.zero_sub, Nat.zero_sub, Nat.sub_eq_zero_of_le hle]
      cases i with
      | zero =>
          have hgap : gapBefore gap ((w, g) :: l) 0 = gap := rfl
          rw [hgap, List.getElem?_cons_zero, Option.map_some, free]
          cases hmeets : meets 0 gap g <;> cases harrow : endsArrow gap <;>
            by_cases hw : w = old <;> simp [hw]
      | succ i =>
          have hih : _ = (((w, g) :: l)[i + 1]?).map fun s : List Char × List Char =>
            (if s.1 = old ∧ free (gapBefore gap ((w, g) :: l) (i + 1)) s.2 = true then new
              else s.1, s.2) := ih g i
          split_ifs <;> exact hih

/-- If the name is at a place where the loop can rename it, it renames it there or elsewhere. -/
theorem exists_renamed {gap g : List Char} {l : Words Char} {i : ℕ} (h : l[i]? = some (old, g))
    (hfree : free (gapBefore gap l i) g = true) :
    ∃ j g', l[j]? = some (old, g') ∧ (renameWords old new 0 gap l)[j]? = some (new, g') ∧
      free (gapBefore gap l j) g' = true := by
  induction l generalizing gap i with
  | nil => cases h
  | cons s l ih =>
      obtain ⟨w, g₀⟩ := s
      rw [renameWords, Nat.zero_sub, Nat.zero_sub]
      by_cases hhere : w = old ∧ free gap g₀ = true
      · obtain ⟨rfl, hhere⟩ := hhere
        have hmeets := hhere
        rw [free, Bool.and_eq_true, Bool.not_eq_true'] at hmeets
        rw [if_pos ⟨rfl, hmeets.1⟩, hmeets.2, if_neg Bool.false_ne_true]
        exact ⟨0, g₀, rfl, rfl, hhere⟩
      · cases i with
        | zero =>
            obtain ⟨rfl, rfl⟩ := Prod.mk.inj (Option.some.inj h)
            exact absurd ⟨rfl, hfree⟩ hhere
        | succ i =>
            obtain ⟨j, g', hj, hrenamed, hjfree⟩ := ih h hfree
            refine ⟨j + 1, g', hj, ?_, hjfree⟩
            -- nothing is passed of the next gap
            split_ifs with hmeets harrow
            · exact hrenamed
            · exact absurd ⟨hmeets.1, by rw [free, hmeets.2, Bool.eq_false_iff.2 harrow]; rfl⟩ hhere
            · exact hrenamed

/-- **Two names that are exchanged** are not exchanged in both orders. -/
theorem exchanged {x y : List Char} (hne : x ≠ y) (hle : y.length ≤ x.length) {gap : List Char}
    {l : Words Char} {i : ℕ} {s : List Char × List Char} (h : l[i]? = some s)
    (hs : s.1 = x ∨ s.1 = y) (hfree : free (gapBefore gap l i) s.2 = true) :
    ∃ (j : ℕ) (g : List Char),
      (renameWords y x 0 gap (renameWords x y 0 gap l))[j]? = some (x, g) ∧
      (renameWords x y 0 gap (renameWords y x 0 gap l))[j]? = some (y, g) := by
  have hgaps : ∀ {old new} i, gapBefore gap (renameWords old new 0 gap l) i = gapBefore gap l i :=
    fun i => gapBefore_congr (map_snd_renameWords 0 gap l) i
  have hfront : (renameWords y x 0 gap l)[i]? = some (x, s.2) := by
    rw [getElem?_renameWords_of_le hle, h, Option.map_some]
    rcases hs with hs | hs
    · rw [hs, if_neg fun h => hne h.1]
    · rw [if_pos ⟨hs, hfree⟩]
  obtain ⟨j, g, hj, hrenamed, hjfree⟩ : ∃ j g, (renameWords y x 0 gap l)[j]? = some (x, g) ∧
      (renameWords x y 0 gap (renameWords y x 0 gap l))[j]? = some (y, g) ∧
      free (gapBefore gap (renameWords y x 0 gap l) j) g = true :=
    exists_renamed hfront (by rwa [hgaps])
  refine ⟨j, g, ?_, hrenamed⟩
  rw [hgaps] at hjfree
  -- in the other order the second round makes it `x`, whatever the first has done
  obtain ⟨b, hb⟩ := getElem?_renameWords x y 0 gap l j
  rw [getElem?_renameWords_of_le hle] at hj ⊢
  rw [hgaps, hb]
  obtain ⟨t, ht, heq⟩ := Option.map_eq_some_iff.1 hj
  obtain ⟨hword, rfl⟩ := Prod.mk.inj heq
  rw [ht, Option.map_some, Option.map_some]
  simp only
  by_cases hy : t.1 = y
  · have hsame : (if b = true ∧ t.1 = x then y else t.1) = y := by
      rw [if_neg fun h => hne (h.2.symm.trans hy), hy]
    rw [hsame, if_pos ⟨rfl, hjfree⟩]
  · rw [if_neg fun h => hy h.1] at hword
    by_cases hbx : b = true ∧ t.1 = x
    · rw [if_pos hbx, if_pos ⟨rfl, hjfree⟩]
    · rw [if_neg hbx, if_neg fun h => hy h.1, hword]

end Places

/-! ## All pairs -/

section All

/-- The words after all pairs. -/
def renameAll (l : Pairs) (gap : List Char) (words : Words Char) : Words Char :=
  l.foldl (fun words p => renameWords p.1 p.2 0 gap words) words

theorem proper_renameWords (old : List Char) {new gap : List Char} {words : Words Char}
    (hnew : IsName new) (h : Proper identChar (gap, words)) :
    Proper identChar (gap, renameWords old new 0 gap words) := by
  refine ⟨h.gap, properWords_of_map_snd h.words (map_snd_renameWords 0 gap words) fun s hs => ?_⟩
  obtain ⟨i, hi⟩ := List.getElem?_of_mem hs
  obtain ⟨b, hb⟩ := getElem?_renameWords old new 0 gap words i
  rw [hb] at hi
  obtain ⟨t, ht, rfl⟩ := Option.map_eq_some_iff.1 hi
  simp only
  split
  · exact hnew
  · exact isName_of_mem h.words t (List.mem_of_getElem? ht)

theorem proper_renameAll {l : Pairs} (hl : ∀ p ∈ l, IsName p.1 ∧ IsName p.2) {gap : List Char}
    {words : Words Char} (h : Proper identChar (gap, words)) :
    Proper identChar (gap, renameAll l gap words) := by
  induction l generalizing words with
  | nil => exact h
  | cons p l ih =>
      exact ih (fun q hq => hl q (List.mem_cons_of_mem p hq))
        (proper_renameWords p.1 (hl p List.mem_cons_self).2 h)

/-- **`rename_state` word by word.** -/
theorem renameState_render {l : Pairs} (hl : ∀ p ∈ l, IsName p.1 ∧ IsName p.2)
    {gap : List Char} {words : Words Char} (h : Proper identChar (gap, words)) :
    renameState l (render (gap, words)) = render (gap, renameAll l gap words) := by
  induction l generalizing words with
  | nil => rfl
  | cons p l ih =>
      obtain ⟨hold, hnew⟩ := hl p List.mem_cons_self
      have hlength : words.length < (render (gap, words)).length + 1 := by
        have hwords : words.length ≤ (renderWords words).length := length_le_renderWords h.words
        rw [render, List.length_append]
        exact Nat.lt_succ_of_le (hwords.trans (Nat.le_add_left ..))
      have hloop := renameLoop_eq hold hnew [] 0 _ (fun _ hlast => by cases hlast) h hlength
      rw [List.nil_append, List.nil_append] at hloop
      have hrest := ih (fun q hq => hl q (List.mem_cons_of_mem p hq))
        (proper_renameWords p.1 hnew h)
      rw [renameState, List.foldl_cons]
      simp only [List.length_nil, Nat.zero_add] at hloop
      rw [hloop]
      exact hrest

theorem proper_substitute {l : Pairs} (hl : ∀ p ∈ l, IsName p.1 ∧ IsName p.2)
    {gap : List Char} {words : Words Char} (h : Proper identChar (gap, words)) :
    Proper identChar (gap, substitute (newName l) gap words) := by
  refine ⟨h.gap, properWords_of_map_snd h.words (map_snd_substitute gap words) fun s hs => ?_⟩
  obtain ⟨i, hi⟩ := List.getElem?_of_mem hs
  rw [getElem?_substitute] at hi
  obtain ⟨t, ht, rfl⟩ := Option.map_eq_some_iff.1 hi
  have hname := isName_of_mem h.words t (List.mem_of_getElem? ht)
  simp only
  split
  · exact hname
  · exact isName_newName hl hname

section Distinct

variable {l before after : Pairs} {p : List Char × List Char} (hl : l = before ++ p :: after)
  (hdistinct : (l.map Prod.fst).Nodup)

include hl hdistinct

theorem local_ne {q : List Char × List Char} (hq : q ∈ before ∨ q ∈ after) : q.1 ≠ p.1 := by
  subst hl
  rw [List.map_append, List.map_cons] at hdistinct
  obtain ⟨_, hafter, hapart⟩ := List.nodup_append.1 hdistinct
  obtain hq | hq := hq
  · exact hapart q.1 (List.mem_map_of_mem hq) p.1 List.mem_cons_self
  · exact fun heq => (List.nodup_cons.1 hafter).1 (heq ▸ List.mem_map_of_mem hq)

theorem newName_before : newName before p.1 = p.1 := by
  refine newName_of_notMem fun hmem => ?_
  obtain ⟨q, hq, heq⟩ := List.mem_map.1 hmem
  exact local_ne hl hdistinct (Or.inl hq) heq

/-- One more pair. -/
theorem newName_concat (w : List Char) :
    newName (before ++ [p]) w = if w = p.1 then p.2 else newName before w := by
  have hdistinct' : ((before ++ [p]).map Prod.fst).Nodup := by
    rw [hl, ← List.singleton_append, ← List.append_assoc, List.map_append] at hdistinct
    exact (List.nodup_append.1 hdistinct).1
  split_ifs with hw
  · rw [hw]
    exact newName_of_mem hdistinct' (List.mem_append_right _ List.mem_cons_self)
  · by_cases hmem : w ∈ before.map Prod.fst
    · obtain ⟨q, hq, rfl⟩ := List.mem_map.1 hmem
      rw [newName_of_mem hdistinct' (List.mem_append_left _ hq)]
      rw [List.map_append] at hdistinct'
      exact (newName_of_mem (List.nodup_append.1 hdistinct').1 hq).symm
    · rw [newName_append_of_notMem hmem, newName_singleton_of_ne hw, newName_of_notMem hmem]

end Distinct

theorem renameAll_append (l l' : Pairs) (gap : List Char) (words : Words Char) :
    renameAll (l ++ l') gap words = renameAll l' gap (renameAll l gap words) :=
  List.foldl_append

theorem renameAll_cons (p : List Char × List Char) (l : Pairs) (gap : List Char)
    (words : Words Char) :
    renameAll (p :: l) gap words = renameAll l gap (renameWords p.1 p.2 0 gap words) := rfl

/-- **Enough**: the pairs are substituted one after the other. -/
theorem renameAll_eq {l : Pairs} (hdistinct : (l.map Prod.fst).Nodup) {gap : List Char}
    {words : Words Char} {before rest : Pairs} (hl : l = before ++ rest)
    (hseen : ∀ front p back, before = front ++ p :: back → p.1 ≠ p.2 →
      Seen (newName front) p.1 p.2 0 gap words) :
    renameAll before gap words = substitute (newName before) gap words := by
  induction before using List.reverseRecOn generalizing rest with
  | nil => exact (substitute_id gap words).symm
  | append_singleton before p ih =>
      have hl' : l = before ++ p :: rest := by rw [hl, List.append_assoc]; rfl
      have hfront := ih hl' fun front q back h hne =>
        hseen front q (back ++ [p]) (by rw [h, List.append_assoc]; rfl) hne
      have hname := funext (newName_concat hl' hdistinct)
      rw [renameAll_append, hfront, hname]
      by_cases hne : p.1 = p.2
      · have hsame : ∀ w, (if w = p.1 then p.2 else newName before w) = newName before w := by
          intro w
          split_ifs with hw
          · rw [hw, newName_before hl' hdistinct, hne]
          · rfl
        rw [funext hsame, renameAll_cons, ← hne, renameWords_self]
        rfl
      · exact (seen_iff hne (newName_before hl' hdistinct) 0 gap words).1
          (hseen before p [] rfl hne)

/-- A word that is no local name with another new name stays. -/
theorem renameAll_stays {l : Pairs} {gap x g : List Char} {words : Words Char} {i : ℕ}
    (h : words[i]? = some (x, g)) (hstays : ∀ q ∈ l, q.1 = x → q.2 = q.1) :
    (renameAll l gap words)[i]? = some (x, g) := by
  induction l generalizing words with
  | nil => exact h
  | cons q l ih =>
      refine ih ?_ fun q' hq' => hstays q' (List.mem_cons_of_mem q hq')
      obtain ⟨b, hb⟩ := getElem?_renameWords q.1 q.2 0 gap words i
      rw [hb, h, Option.map_some]
      split
      · rename_i hx
        rw [hstays q List.mem_cons_self hx.2.symm, ← hx.2]
      · rfl

/-- Where the loop renames, it could do so with nothing passed. -/
theorem free_of_renamed {old new gap g : List Char} (hne : old ≠ new) {k : ℕ} {l : Words Char}
    {i : ℕ} (h : l[i]? = some (old, g)) (hnew : (renameWords old new k gap l)[i]? = some (new, g)) :
    free (gapBefore gap l i) g = true := by
  induction l generalizing k gap i with
  | nil => cases h
  | cons s l ih =>
      obtain ⟨w, g₀⟩ := s
      rw [renameWords] at hnew
      cases i with
      | zero =>
          obtain ⟨rfl, rfl⟩ := Prod.mk.inj (Option.some.inj h)
          split_ifs at hnew with hmeets harrow
          · exact absurd (Prod.mk.inj (Option.some.inj hnew)).1 hne
          · have hmeets' : meets 0 gap g₀ = true := by
              simp only [meets, Bool.and_eq_true, decide_eq_true_eq] at hmeets ⊢
              exact ⟨⟨hmeets.2.1.1, Nat.zero_lt_of_lt hmeets.2.1.2⟩, hmeets.2.2⟩
            have hgap : gapBefore gap ((w, g₀) :: l) 0 = gap := rfl
            rw [hgap, free, hmeets', Bool.eq_false_iff.2 harrow]
            rfl
          · exact absurd (Prod.mk.inj (Option.some.inj hnew)).1 hne
      | succ i =>
          split_ifs at hnew
          · exact ih h hnew
          · exact ih h hnew
          · exact ih h hnew

/-- **No name is exchanged**: if two names become each other's, an order is wrong. -/
theorem not_exchanged {before rest : Pairs} {p q : List Char × List Char}
    (hdistinct : ((before ++ p :: q :: rest).map Prod.fst).Nodup) (hq : q = (p.2, p.1))
    {gap g : List Char} {words final : Words Char}
    (hpq : renameAll (before ++ p :: q :: rest) gap words = final)
    (hqp : renameAll (before ++ q :: p :: rest) gap words = final) {i : ℕ}
    (h : (renameAll before gap words)[i]? = some (p.1, g))
    (hfree : free (gapBefore gap (renameAll before gap words) i) g = true) : False := by
  have hsplit : before ++ p :: q :: rest = (before ++ [p]) ++ q :: rest := by simp
  have hapart : ∀ r, r ∈ before ++ [p] ∨ r ∈ rest → r.1 ≠ p.2 := fun r hr => by
    have hne := local_ne hsplit hdistinct hr
    rwa [hq] at hne
  have hne : p.1 ≠ p.2 := hapart p (Or.inl (by simp))
  have hrest : ∀ r ∈ rest, r.1 ≠ p.1 ∧ r.1 ≠ p.2 := fun r hr =>
    ⟨local_ne rfl hdistinct (Or.inr (List.mem_cons_of_mem q hr)), hapart r (Or.inr hr)⟩
  rw [renameAll_append, renameAll_cons, renameAll_cons, hq] at hpq hqp
  -- what the two rounds have made of a place stays
  have hfinal : ∀ {words' : Words Char} {j : ℕ} {x g : List Char}, x = p.1 ∨ x = p.2 →
      renameAll rest gap words' = final → words'[j]? = some (x, g) → final[j]? = some (x, g) := by
    intro words' j x g hx hrun hj
    rw [← hrun]
    refine renameAll_stays hj fun r hr heq => ?_
    rcases hx with rfl | rfl
    · exact absurd heq (hrest r hr).1
    · exact absurd heq (hrest r hr).2
  rcases le_total p.2.length p.1.length with hle | hle
  · obtain ⟨j, g', hj, hj'⟩ := exchanged hne hle h (Or.inl rfl) hfree
    have hsame := (hfinal (Or.inl rfl) hpq hj).symm.trans (hfinal (Or.inr rfl) hqp hj')
    exact hne (Prod.mk.inj (Option.some.inj hsame)).1
  · obtain ⟨j, g', hj, hj'⟩ := exchanged hne.symm hle h (Or.inr rfl) hfree
    have hsame := (hfinal (Or.inr rfl) hqp hj).symm.trans (hfinal (Or.inl rfl) hpq hj')
    exact hne.symm (Prod.mk.inj (Option.some.inj hsame)).1

section Orders

variable {pairs before after : Pairs} {p : List Char × List Char}
  (hdistinct : (pairs.map Prod.fst).Nodup) (hperm : (before ++ p :: after).Perm pairs)
  (hne : p.1 ≠ p.2) {gap : List Char} {words : Words Char}
  (h : ∀ l : Pairs, l.Perm pairs → renameAll l gap words = substitute (newName pairs) gap words)

include hdistinct hperm hne h in
/-- What a round should not have renamed is not restored in every order. -/
theorem not_restored {i : ℕ} {g : List Char}
    (hbefore : (renameAll before gap words)[i]? = some (p.1, g))
    (hrenamed : (renameWords p.1 p.2 0 gap (renameAll before gap words))[i]? = some (p.2, g))
    (hfinal : (substitute (newName pairs) gap words)[i]? = some (p.1, g)) : False := by
  have hwrong : ∀ l : Pairs, (before ++ p :: l).Perm pairs → ∃ q ∈ l, q.1 = p.2 ∧ q.2 ≠ q.1 := by
    intro l hl
    by_contra hno
    push Not at hno
    have hstays : (renameAll l gap _)[i]? = _ := renameAll_stays hrenamed hno
    rw [← renameAll_cons, ← renameAll_append, h _ hl, hfinal] at hstays
    exact hne (Prod.mk.inj (Option.some.inj hstays)).1
  obtain ⟨q, hq, hlocal, -⟩ := hwrong after hperm
  obtain ⟨xs, ys, rfl⟩ := List.append_of_mem hq
  have hfront : (before ++ p :: q :: (xs ++ ys)).Perm pairs :=
    ((List.perm_middle.symm.cons p).append_left before).trans hperm
  have hdistinct' : ((before ++ p :: q :: (xs ++ ys)).map Prod.fst).Nodup :=
    ((hfront.map Prod.fst).nodup_iff).2 hdistinct
  have hsplit : before ++ p :: q :: (xs ++ ys) = (before ++ [p]) ++ q :: (xs ++ ys) := by simp
  -- when it comes last, its new name must be the one that was there before
  have hback : q.2 = p.1 := by
    have hlast : (before ++ p :: (xs ++ ys ++ [q])).Perm pairs := by
      refine List.Perm.trans ?_ hfront
      exact ((List.perm_append_singleton q (xs ++ ys)).cons p).append_left before
    have hstays : (renameAll (xs ++ ys) gap _)[i]? = _ :=
      renameAll_stays hrenamed fun r hr heq =>
        absurd (heq.trans hlocal.symm) (local_ne hsplit hdistinct' (Or.inr hr))
    obtain ⟨b, hb⟩ := getElem?_renameWords q.1 q.2 0 gap
      (renameAll (xs ++ ys) gap (renameWords p.1 p.2 0 gap (renameAll before gap words))) i
    have hrun := h _ hlast
    rw [renameAll_append, renameAll_cons, renameAll_append, renameAll_cons] at hrun
    rw [hstays] at hb
    have hword := (congrArg (fun words : Words Char => words[i]?) hrun).symm.trans hb
    simp only [hfinal, Option.map_some, Option.some.injEq, Prod.mk.injEq, and_true] at hword
    split_ifs at hword with hboth
    · exact hword.symm
    · exact absurd hword hne
  have hswap : (before ++ q :: p :: (xs ++ ys)).Perm pairs :=
    ((List.Perm.swap p q (xs ++ ys)).append_left before).trans hfront
  refine not_exchanged hdistinct' (Prod.ext hlocal hback) (h _ hfront) (h _ hswap) hbefore ?_
  exact free_of_renamed hne hbefore hrenamed

end Orders

/-- **Needed**: where the loop does not rename as it should, some order is wrong. -/
theorem seen_of_renameAll {pairs : Pairs} (hdistinct : (pairs.map Prod.fst).Nodup)
    {gap : List Char} {words : Words Char}
    (h : ∀ l : Pairs, l.Perm pairs → renameAll l gap words = substitute (newName pairs) gap words)
    (n : ℕ) : ∀ before p after, before.length = n → (before ++ p :: after).Perm pairs →
      p.1 ≠ p.2 → Seen (newName before) p.1 p.2 0 gap words := by
  induction n using Nat.strongRecOn with
  | ind n ih =>
      rintro before p after hn hperm hne
      have hdistinct' : ((before ++ p :: after).map Prod.fst).Nodup :=
        ((hperm.map Prod.fst).nodup_iff).2 hdistinct
      have hbefore : renameAll before gap words = substitute (newName before) gap words := by
        refine renameAll_eq hdistinct' rfl fun front q back hfront hq => ?_
        refine ih front.length (by rw [← hn, hfront]; simp) front q (back ++ p :: after) rfl ?_ hq
        rwa [hfront, List.append_assoc] at hperm
      have hself := newName_before rfl hdistinct'
      rw [seen_iff hne hself]
      refine List.ext_getElem? fun i => ?_
      obtain ⟨b, hb⟩ := getElem?_renameWords p.1 p.2 0 gap (renameAll before gap words) i
      have hplace := congrArg (fun words : Words Char => words[i]?) hbefore
      have hfinal : (substitute (newName pairs) gap words)[i]? = _ := getElem?_substitute gap words i
      rw [← hbefore, hb]
      rw [newName_perm hdistinct' hperm.symm] at hfinal
      simp only [getElem?_substitute] at hplace ⊢
      rw [hplace] at hb ⊢
      cases hw : words[i]? with
      | none => rfl
      | some s =>
          obtain ⟨w, g⟩ := s
          rw [hw, Option.map_some] at hplace hfinal
          rw [hw, Option.map_some, Option.map_some] at hb
          rw [Option.map_some, Option.map_some, Option.map_some]
          simp only at hb hplace hfinal ⊢
          -- a place where nothing should be done
          have hkept : (b = true ∧ (if selects (gapBefore gap words i) then w
              else newName before w) = p.1) → (if selects (gapBefore gap words i) then w
                else newName (before ++ p :: after) w) ≠ p.1 := by
            rintro hboth heq
            rw [if_pos hboth] at hb
            rw [hboth.2] at hplace
            rw [heq, ← newName_perm hdistinct' hperm.symm] at hfinal
            exact not_restored hdistinct hperm hne h hplace hb hfinal
          by_cases hselects : selects (gapBefore gap words i) = true
          · simp only [if_pos hselects] at hkept ⊢
            split_ifs with hboth
            · exact absurd hboth.2 (hkept hboth)
            · rfl
          simp only [if_neg hselects] at hb hfinal hkept ⊢
          by_cases hw' : w = p.1
          · subst hw'
            rw [hself] at hb ⊢
            cases b with
            | true => simp
            | false =>
                -- the name is still there at the end
                have hstays : (renameAll after gap _)[i]? = some (p.1, g) :=
                  renameAll_stays (by simpa using hb) fun q hq heq =>
                    absurd heq (local_ne rfl hdistinct' (Or.inr hq))
                rw [← renameAll_cons, ← renameAll_append, h _ hperm,
                  newName_perm hdistinct' hperm.symm, hfinal,
                  newName_of_mem hdistinct' (by simp)] at hstays
                exact absurd (Prod.mk.inj (Option.some.inj hstays)).1 hne.symm
          · rw [if_neg hw']
            split_ifs with hboth
            · refine absurd ?_ (hkept hboth)
              have hmem : w ∈ before.map Prod.fst := by
                by_contra hno
                exact hw' ((newName_of_notMem hno).symm.trans hboth.2)
              rw [newName_append_of_mem hmem, hboth.2]
            · rfl

end All

/-! ## Every order of the pairs -/

/-- The states `x` and `y` of an element are the instances `y` and `z`. -/
def chained : Renaming where
  pairs := [("x".toList, "y".toList), ("y".toList, "z".toList)]
  names := by simp [IsName, identChar]
  distinct := by decide

end Codegen
end Floem
