import Mathlib

/-!
# Linked lists in one heap

Lists that are linked through one field `next` of their members, as in C.

* `Leads` — following `next` from a pointer leads through the list to another pointer.
* `Lists` — a family of linked lists that end with a null pointer and have no member in
  common.
* `Lists.pop`, `Lists.push`, `Lists.single`, `Lists.concat`, `Lists.unlink` — the usual
  changes of the links, and what they do to the lists.
-/

namespace Floem
namespace Lib

variable {α ι : Type*} {next next' : α → Option α}

/-- From `p` the pointers lead through the list to `q`. -/
def Leads (next : α → Option α) : Option α → List α → Option α → Prop
  | p, [], q => p = q
  | p, x :: l, q => p = some x ∧ Leads next (next x) l q

/-- Only the pointers of the members matter. -/
theorem Leads.congr {p q : Option α} {l : List α} (h : Leads next p l q)
    (hnext : ∀ x ∈ l, next' x = next x) : Leads next' p l q := by
  induction l generalizing p with
  | nil => exact h
  | cons x l ih =>
      refine ⟨h.1, ?_⟩
      rw [hnext x List.mem_cons_self]
      exact ih h.2 fun y hy => hnext y (List.mem_cons_of_mem x hy)

theorem leads_append {p q : Option α} {l r : List α} :
    Leads next p (l ++ r) q ↔ ∃ m, Leads next p l m ∧ Leads next m r q := by
  induction l generalizing p with
  | nil => exact ⟨fun h => ⟨p, rfl, h⟩, fun ⟨m, hm, h⟩ => (show p = m from hm) ▸ h⟩
  | cons x l ih =>
      constructor
      · intro h
        obtain ⟨m, hl, hr⟩ := ih.1 h.2
        exact ⟨m, ⟨h.1, hl⟩, hr⟩
      · rintro ⟨m, hl, hr⟩
        exact ⟨hl.1, ih.2 ⟨m, hl.2, hr⟩⟩

/-- Behind a member comes what its pointer says. -/
theorem leads_append_cons {p q : Option α} {l r : List α} {x : α} :
    Leads next p (l ++ x :: r) q ↔ Leads next p l (some x) ∧ Leads next (next x) r q := by
  rw [leads_append]
  constructor
  · rintro ⟨m, hl, rfl, hr⟩
    exact ⟨hl, hr⟩
  · rintro ⟨hl, hr⟩
    exact ⟨some x, hl, rfl, hr⟩

/-- The first pointer. -/
theorem Leads.head_eq {p : Option α} {l : List α} (h : Leads next p l none) : p = l.head? := by
  cases l with
  | nil => exact h
  | cons x l => exact h.1

/-- The linked lists that begin at `head`, with their members. -/
structure Lists (next : α → Option α) (head : ι → Option α) (members : ι → List α) : Prop where
  leads : ∀ i, Leads next (head i) (members i) none
  nodup : ∀ i, (members i).Nodup
  apart : ∀ i j x, x ∈ members i → x ∈ members j → i = j

namespace Lists

variable {head head' : ι → Option α} {members : ι → List α} {i : ι} {x y : α} {l r : List α}

theorem congr (h : Lists next head members) (hnext : ∀ i, ∀ x ∈ members i, next' x = next x)
    (hhead : ∀ i, head' i = head i) : Lists next' head' members where
  leads i := by
    rw [hhead]
    exact (h.leads i).congr (hnext i)
  nodup := h.nodup
  apart := h.apart

theorem head_eq (h : Lists next head members) (i : ι) : head i = (members i).head? :=
  (h.leads i).head_eq

/-- Nothing comes behind the last member. -/
theorem next_last (h : Lists next head members) (hi : members i = l ++ [x]) : next x = none := by
  have hleads := h.leads i
  rw [hi, leads_append_cons] at hleads
  exact hleads.2

/-- What comes behind a member that is not the last one. -/
theorem next_eq (h : Lists next head members) (hi : members i = l ++ x :: y :: r) :
    next x = some y := by
  have hleads := h.leads i
  rw [hi, leads_append_cons] at hleads
  exact hleads.2.1

/-- Following the pointers from the head of a list does not leave it. -/
theorem mem_of_reach (h : Lists next head members) (hx : head i = some x)
    (hreach : Relation.ReflTransGen (fun x y => next x = some y) x y) : y ∈ members i := by
  induction hreach with
  | refl =>
      rw [h.head_eq] at hx
      exact List.mem_of_head? hx
  | tail _ hnext ih =>
      obtain ⟨l, r, hsplit⟩ := List.append_of_mem ih
      cases r with
      | nil =>
          rw [h.next_last hsplit] at hnext
          cases hnext
      | cons z r =>
          obtain rfl := Option.some.inj ((h.next_eq hsplit).symm.trans hnext)
          rw [hsplit]
          simp

variable [DecidableEq ι]

/-- The first member is taken off. -/
theorem pop (h : Lists next head members) (hi : members i = x :: l) :
    Lists next (Function.update head i (next x)) (Function.update members i l) where
  leads j := by
    by_cases hj : j = i
    · subst hj
      have hleads := h.leads j
      rw [hi] at hleads
      rw [Function.update_self, Function.update_self]
      exact hleads.2
    · rw [Function.update_of_ne hj, Function.update_of_ne hj]
      exact h.leads j
  nodup j := by
    by_cases hj : j = i
    · subst hj
      have hnodup := h.nodup j
      rw [hi] at hnodup
      rw [Function.update_self]
      exact (List.nodup_cons.1 hnodup).2
    · rw [Function.update_of_ne hj]
      exact h.nodup j
  apart j k y hj hk := by
    have hsub : ∀ j, y ∈ Function.update members i l j → y ∈ members j := by
      intro j hy
      by_cases hj : j = i
      · subst hj
        rw [Function.update_self] at hy
        rw [hi]
        exact List.mem_cons_of_mem x hy
      · rwa [Function.update_of_ne hj] at hy
    exact h.apart j k y (hsub j hj) (hsub k hk)

/-- The member that was taken off is in no list. -/
theorem notMem_pop (h : Lists next head members) (hi : members i = x :: l) (j : ι) :
    x ∉ Function.update members i l j := by
  intro hx
  by_cases hj : j = i
  · subst hj
    have hnodup := h.nodup j
    rw [hi] at hnodup
    rw [Function.update_self] at hx
    exact (List.nodup_cons.1 hnodup).1 hx
  · rw [Function.update_of_ne hj] at hx
    exact hj (h.apart j i x hx (by rw [hi]; exact List.mem_cons_self))

/-- A new member is in the list that it is put into and in no other. -/
theorem insert_apart (h : Lists next head members) (hx : ∀ j, x ∉ members j) (hl : l.Nodup)
    (hsub : ∀ y, y ∈ l ↔ y = x ∨ y ∈ members i) :
    (∀ j, (Function.update members i l j).Nodup) ∧
      ∀ j k y, y ∈ Function.update members i l j → y ∈ Function.update members i l k → j = k := by
  constructor
  · intro j
    by_cases hj : j = i
    · rw [hj, Function.update_self]
      exact hl
    · rw [Function.update_of_ne hj]
      exact h.nodup j
  · intro j k y hj hk
    have hcases : ∀ j, y ∈ Function.update members i l j → (y = x ∧ j = i) ∨ y ∈ members j := by
      intro j hy
      by_cases hj : j = i
      · subst hj
        rw [Function.update_self] at hy
        exact ((hsub y).1 hy).imp_left fun hyx => ⟨hyx, rfl⟩
      · rw [Function.update_of_ne hj] at hy
        exact .inr hy
    rcases hcases j hj with ⟨hyx, hji⟩ | hj
    · rcases hcases k hk with ⟨-, hki⟩ | hk
      · rw [hji, hki]
      · exact absurd (hyx ▸ hk) (hx k)
    · rcases hcases k hk with ⟨hyx, -⟩ | hk
      · exact absurd (hyx ▸ hj) (hx j)
      · exact h.apart j k y hj hk

/-- The member that was taken out is in no list. -/
theorem notMem_unlink (h : Lists next head members) (hi : members i = l ++ y :: x :: r) (j : ι) :
    x ∉ Function.update members i (l ++ y :: r) j := by
  have hxi : x ∈ members i := by rw [hi]; simp
  intro hx
  by_cases hj : j = i
  · subst hj
    have hnodup := h.nodup j
    rw [hi] at hnodup
    rw [Function.update_self] at hx
    simp only [List.nodup_append, List.nodup_cons, List.mem_cons] at hnodup
    rcases List.mem_append.1 hx with hx | hx
    · exact hnodup.2.2 x hx x (.inr (.inl rfl)) rfl
    · rcases List.mem_cons.1 hx with hx | hx
      · exact hnodup.2.1.1 (.inl hx.symm)
      · exact hnodup.2.1.2.1 hx
  · rw [Function.update_of_ne hj] at hx
    exact hj (h.apart j i x hx hxi)

variable [DecidableEq α]

/-- A new member is put in front. -/
theorem push (h : Lists next head members) (hx : ∀ j, x ∉ members j) :
    Lists (Function.update next x (head i)) (Function.update head i (some x))
      (Function.update members i (x :: members i)) := by
  obtain ⟨hnodup, hapart⟩ := h.insert_apart (i := i) (l := x :: members i) hx
    (List.nodup_cons.2 ⟨hx i, h.nodup i⟩) fun y => List.mem_cons
  refine ⟨fun j => ?_, hnodup, hapart⟩
  have hold : ∀ j, Leads (Function.update next x (head i)) (head j) (members j) none := fun j =>
    (h.leads j).congr fun y hy => Function.update_of_ne (fun hyx : y = x => hx j (hyx ▸ hy)) ..
  by_cases hj : j = i
  · subst hj
    rw [Function.update_self, Function.update_self]
    refine ⟨rfl, ?_⟩
    rw [Function.update_self]
    exact hold j
  · rw [Function.update_of_ne hj, Function.update_of_ne hj]
    exact hold j

/-- A new member is the only one of an empty list. -/
theorem single (h : Lists next head members) (hi : members i = []) (hx : ∀ j, x ∉ members j) :
    Lists (Function.update next x none) (Function.update head i (some x))
      (Function.update members i [x]) := by
  have hpush := h.push (i := i) hx
  rwa [h.head_eq i, hi] at hpush

/-- A new member is put behind the last one. -/
theorem concat (h : Lists next head members) (hi : members i = l ++ [y])
    (hx : ∀ j, x ∉ members j) :
    Lists (Function.update (Function.update next y (some x)) x none) head
      (Function.update members i (l ++ [y, x])) := by
  have hsplit : l ++ [y, x] = members i ++ [x] := by rw [hi, List.append_assoc]; rfl
  obtain ⟨hnodup, hapart⟩ := h.insert_apart (i := i) (l := l ++ [y, x]) hx
    (by
      rw [hsplit]
      exact List.nodup_append_comm.1 (List.nodup_cons.2 ⟨hx i, h.nodup i⟩))
    fun z => by rw [hsplit, List.mem_append, List.mem_singleton, or_comm]
  have hyi : y ∈ members i := by rw [hi]; exact List.mem_append_right l List.mem_cons_self
  have hyx : y ≠ x := fun hyx => hx i (hyx ▸ hyi)
  refine ⟨fun j => ?_, hnodup, hapart⟩
  by_cases hj : j = i
  · subst hj
    have hleads := h.leads j
    rw [hi, leads_append_cons] at hleads
    have hnodup := h.nodup j
    rw [hi] at hnodup
    have hyl : y ∉ l := fun hyl =>
      (List.nodup_append.1 hnodup).2.2 y hyl y List.mem_cons_self rfl
    rw [Function.update_self, leads_append_cons]
    constructor
    · refine hleads.1.congr fun z hz => ?_
      have hzx : z ≠ x := fun hzx => hx j (hi ▸ List.mem_append_left _ (hzx ▸ hz))
      rw [Function.update_of_ne hzx, Function.update_of_ne fun hzy : z = y => hyl (hzy ▸ hz)]
    · rw [Function.update_of_ne hyx, Function.update_self]
      exact ⟨rfl, Function.update_self ..⟩
  · rw [Function.update_of_ne hj]
    refine (h.leads j).congr fun z hz => ?_
    have hzx : z ≠ x := fun hzx => hx j (hzx ▸ hz)
    have hzy : z ≠ y := fun hzy => hj (h.apart j i z hz (hzy ▸ hyi))
    rw [Function.update_of_ne hzx, Function.update_of_ne hzy]

/-- A member is taken out from behind another one. -/
theorem unlink (h : Lists next head members) (hi : members i = l ++ y :: x :: r) :
    Lists (Function.update next y (next x)) head (Function.update members i (l ++ y :: r)) := by
  have hnodup := h.nodup i
  rw [hi] at hnodup
  have hsub : List.Sublist (l ++ y :: r) (l ++ y :: x :: r) :=
    (List.Sublist.refl l).append (((List.Sublist.refl r).cons x).cons_cons y)
  have hmem : ∀ j z, z ∈ Function.update members i (l ++ y :: r) j → z ∈ members j := by
    intro j z hz
    by_cases hj : j = i
    · subst hj
      rw [Function.update_self] at hz
      rw [hi]
      exact hsub.subset hz
    · rwa [Function.update_of_ne hj] at hz
  refine ⟨fun j => ?_, fun j => ?_, fun j k z hj hk => h.apart j k z (hmem j z hj) (hmem k z hk)⟩
  · by_cases hj : j = i
    · subst hj
      have hleads := h.leads j
      rw [hi, leads_append_cons] at hleads
      obtain ⟨hl, -, hr⟩ := hleads
      have hy := List.nodup_append.1 hnodup
      rw [Function.update_self, leads_append_cons]
      constructor
      · exact hl.congr fun z hz =>
          Function.update_of_ne (fun hzy => hy.2.2 z hz y List.mem_cons_self hzy) ..
      · rw [Function.update_self]
        refine hr.congr fun z hz => Function.update_of_ne (fun hzy => ?_) ..
        exact (List.nodup_cons.1 hy.2.1).1 (hzy ▸ List.mem_cons_of_mem x hz)
    · rw [Function.update_of_ne hj]
      refine (h.leads j).congr fun z hz => Function.update_of_ne (fun hzy => hj ?_) ..
      refine h.apart j i z hz ?_
      rw [hi, hzy]
      exact List.mem_append_right l List.mem_cons_self
  · by_cases hj : j = i
    · rw [hj, Function.update_self]
      exact hnodup.sublist hsub
    · rw [Function.update_of_ne hj]
      exact h.nodup j

end Lists
end Lib
end Floem
