import Floem.Ialloc.Calls

/-!
# The pieces of a segment

* `total_append`, `gone_append`, `boundaries_append` — the sums, and the places to read at.
* `pieces_apart` — two pieces of a segment are the same or have no byte in common.
* `Reads` — the lengths in memory lead from one piece to the next.
* `gone_eq_iff` — everything is gone exactly if every byte is.
-/

namespace Floem
open Lib

namespace Ialloc

variable {l r before after before' after' : List Piece} {p p' : Piece} {off b k : ℕ}

/-! ## Sums -/

@[simp] theorem total_nil : total [] = 0 := rfl

@[simp] theorem total_cons : total (p :: l) = p.size + total l := List.sum_cons

@[simp] theorem total_append : total (l ++ r) = total l + total r := by
  rw [total, List.map_append, List.sum_append]
  rfl

@[simp] theorem gone_nil : gone [] = 0 := rfl

@[simp] theorem gone_cons : gone (p :: l) = (if p.freed then p.size else 0) + gone l :=
  List.sum_cons

@[simp] theorem gone_append : gone (l ++ r) = gone l + gone r := by
  rw [gone, List.map_append, List.sum_append]
  rfl

theorem gone_le : gone l ≤ total l := by
  induction l with
  | nil => exact Nat.le_refl 0
  | cons p l ih =>
      rw [gone_cons, total_cons]
      split_ifs
      · exact Nat.add_le_add_left ih _
      · exact Nat.add_le_add (Nat.zero_le _) ih

theorem boundaries_append :
    boundaries off (l ++ r) = boundaries off l ++ boundaries (off + total l) r := by
  induction l generalizing off with
  | nil => rfl
  | cons p l ih =>
      rw [List.cons_append, boundaries, boundaries, ih, total_cons, Nat.add_assoc]
      split_ifs <;> rfl

/-- Only the sizes matter. -/
theorem boundaries_congr (h : l.map Piece.size = r.map Piece.size) :
    boundaries off l = boundaries off r := by
  induction l generalizing r off with
  | nil =>
      rw [List.map_eq_nil_iff.1 h.symm]
  | cons p l ih =>
      cases r with
      | nil => cases h
      | cons q r =>
          obtain ⟨hsize, hrest⟩ := List.cons.inj h
          rw [boundaries, boundaries, hsize, ih hrest]

/-- Pieces without room for lengths are not read. -/
theorem boundaries_eq_nil (h : ∀ p ∈ l, p.size < itemSize) : boundaries off l = [] := by
  induction l generalizing off with
  | nil => rfl
  | cons p l ih =>
      rw [boundaries, if_neg (Nat.not_le.2 (h p List.mem_cons_self))]
      exact ih fun q hq => h q (List.mem_cons_of_mem p hq)

theorem total_congr (h : l.map Piece.size = r.map Piece.size) : total l = total r := by
  rw [total, total, h]

/-! ## One piece and another -/

/-- Two pieces are the same, or one lies behind the other. -/
theorem pieces_apart (h : before ++ p :: after = before' ++ p' :: after') :
    (before = before' ∧ p = p') ∨ total before + p.size ≤ total before' ∨
      total before' + p'.size ≤ total before := by
  rcases List.append_eq_append_iff.1 h with ⟨m, hm, hm'⟩ | ⟨m, hm, hm'⟩
  · cases m with
    | nil =>
        obtain ⟨rfl, -⟩ := List.cons.inj hm'
        exact .inl ⟨by rw [hm, List.append_nil], rfl⟩
    | cons q m =>
        obtain ⟨rfl, -⟩ := List.cons.inj hm'
        refine .inr (.inl ?_)
        rw [hm, total_append, total_cons]
        omega
  · cases m with
    | nil =>
        obtain ⟨rfl, -⟩ := List.cons.inj hm'
        exact .inl ⟨by rw [hm, List.append_nil], rfl⟩
    | cons q m =>
        obtain ⟨rfl, -⟩ := List.cons.inj hm'
        refine .inr (.inr ?_)
        rw [hm, total_append, total_cons]
        omega

/-- Where the `k`th piece is. -/
theorem split_at (h : l[k]? = some p) : l = l.take k ++ p :: l.drop (k + 1) := by
  obtain ⟨hk, rfl⟩ := List.getElem?_eq_some_iff.1 h
  rw [List.getElem_cons_drop, List.take_append_drop]

theorem total_le_of_mem (h : l = before ++ p :: after) : total before + p.size ≤ total l := by
  rw [h, total_append, total_cons]
  omega

/-- The `k`th piece is freed. -/
theorem modify_freed (h : l[k]? = some p) :
    l.modify k (fun p => { p with freed := true }) =
      l.take k ++ { p with freed := true } :: l.drop (k + 1) := by
  obtain ⟨hk, rfl⟩ := List.getElem?_eq_some_iff.1 h
  rw [List.modify_eq_take_cons_drop hk]

theorem map_size_modify :
    (l.modify k fun p => { p with freed := true }).map Piece.size = l.map Piece.size := by
  induction l generalizing k with
  | nil => cases k <;> rfl
  | cons p l ih =>
      cases k with
      | zero => rfl
      | succ k => simp [ih]

/-- A piece that is freed adds its bytes. -/
theorem gone_modify (h : l[k]? = some p) (hfreed : p.freed = false) :
    gone (l.modify k fun p => { p with freed := true }) = gone l + p.size := by
  rw [modify_freed h]
  conv_rhs => rw [split_at h]
  simp only [gone_append, gone_cons, hfreed, if_true]
  simp
  omega

/-! ## In memory -/

/-- What there is at the offset of a piece: an item is in one piece, a filler is the last piece,
and where there is room for lengths, they are the ones of the piece. -/
structure Piece.At (size : ℕ) (mem : ℕ → UInt8) (base off : ℕ) (p : Piece) : Prop where
  pos : 0 < p.size
  item : p.filler = false → itemSize ≤ p.size
  last : p.filler = true → off + p.size = size ∧ p.freed = true
  lengths : itemSize ≤ p.size → itemTotalsz mem (base + off) = p.size

/-- The lengths lead from one piece to the next. -/
def Reads (size : ℕ) (mem : ℕ → UInt8) (base : ℕ) : ℕ → List Piece → Prop
  | _, [] => True
  | off, p :: l => p.At size mem base off ∧ Reads size mem base (off + p.size) l

variable {size base : ℕ} {mem mem' : ℕ → UInt8}

theorem reads_append : Reads size mem base off (l ++ r) ↔
    Reads size mem base off l ∧ Reads size mem base (off + total l) r := by
  induction l generalizing off with
  | nil => exact ⟨fun h => ⟨trivial, h⟩, And.right⟩
  | cons p l ih =>
      rw [List.cons_append, Reads, Reads, ih, total_cons, Nat.add_assoc, and_assoc]

theorem Reads.at (h : Reads size mem base off l) (hl : l = before ++ p :: after) :
    p.At size mem base (off + total before) := by
  rw [hl, reads_append] at h
  exact h.2.1

/-- Only the lengths matter. -/
theorem Reads.congr (h : Reads size mem base off l)
    (hmem : ∀ before p after, l = before ++ p :: after → itemSize ≤ p.size → ∀ j, InLengths j →
      mem' (base + (off + total before) + j) = mem (base + (off + total before) + j)) :
    Reads size mem' base off l := by
  induction l generalizing off with
  | nil => trivial
  | cons p l ih =>
      refine ⟨⟨h.1.pos, h.1.item, h.1.last, fun hp => ?_⟩, ih h.2 fun before q after hl hq j hj => ?_⟩
      · rw [← h.1.lengths hp, itemTotalsz, itemTotalsz, vallen, vallen, keylen, keylen]
        have hhead := hmem [] p l rfl hp
        simp only [total_nil, Nat.add_zero] at hhead
        have hvallen : load mem' (base + off + 12) 4 = load mem (base + off + 12) 4 := by
          refine load_congr fun i hi => ?_
          have hi' := hhead (12 + i) (.inl ⟨by omega, by omega⟩)
          rwa [← Nat.add_assoc] at hi'
        have hkeylen : load mem' (base + off + 18) 2 = load mem (base + off + 18) 2 := by
          refine load_congr fun i hi => ?_
          have hi' := hhead (18 + i) (.inr ⟨by omega, by omega⟩)
          rwa [← Nat.add_assoc] at hi'
        rw [hvallen, hkeylen]
      · have hrest := hmem (p :: before) q after (by rw [hl]; rfl) hq j hj
        simp only [total_cons] at hrest
        rwa [← Nat.add_assoc off] at hrest

/-- Memory outside the pieces does not matter. -/
theorem Reads.congr_outside (h : Reads size mem base off l)
    (hmem : ∀ b, base + off ≤ b → b < base + off + total l → mem' b = mem b) :
    Reads size mem' base off l := by
  refine h.congr fun before p after hl hp j hj => hmem _ (by omega) ?_
  have hle := total_le_of_mem hl
  have hj' : j < itemSize := by
    rcases hj with hj | hj <;> simp only [itemSize] <;> omega
  omega

/-- A write to a piece that misses its lengths misses those of all others. -/
theorem Reads.write (h : Reads size mem base 0 l) (hl : l = before ++ p :: after)
    (hmem : ∀ b, (∀ w < p.size, ¬ InLengths w → b ≠ base + total before + w) → mem' b = mem b) :
    Reads size mem' base 0 l := by
  refine h.congr fun before' p' after' hl' hp' j hj => hmem _ fun w hw hlengths heq => ?_
  have hj' : j < itemSize := by
    rcases hj with hj | hj <;> simp only [itemSize] <;> omega
  rcases pieces_apart (hl ▸ hl') with ⟨rfl, rfl⟩ | hle | hle
  · have hwj : w = j := by omega
    exact hlengths (hwj ▸ hj)
  · omega
  · omega

/-- A freed piece reads as before. -/
theorem Reads.modify (h : Reads size mem base off l) :
    Reads size mem base off (l.modify k fun p => { p with freed := true }) := by
  induction l generalizing off k with
  | nil => cases k <;> exact h
  | cons p l ih =>
      cases k with
      | zero =>
          exact ⟨⟨h.1.pos, h.1.item, fun hp => ⟨(h.1.last hp).1, rfl⟩, h.1.lengths⟩, h.2⟩
      | succ k => exact ⟨h.1, ih h.2⟩

/-- A piece that is put behind the others. -/
theorem Reads.concat (h : Reads size mem base 0 l) (hp : p.At size mem' base (total l))
    (hmem : ∀ b, base ≤ b → b < base + total l → mem' b = mem b) :
    Reads size mem' base 0 (l ++ [p]) := by
  rw [reads_append, Nat.zero_add]
  exact ⟨h.congr_outside hmem, hp, trivial⟩

/-! ## Everything is gone -/

/-- The piece that a byte is in. -/
theorem exists_piece (hb : b < total l) : ∃ before p after, l = before ++ p :: after ∧
    total before ≤ b ∧ b < total before + p.size := by
  induction l generalizing b with
  | nil => cases hb
  | cons p l ih =>
      by_cases hp : b < p.size
      · exact ⟨[], p, l, rfl, Nat.zero_le b, by rwa [total_nil, Nat.zero_add]⟩
      · rw [total_cons] at hb
        obtain ⟨before, q, after, rfl, hle, hlt⟩ := ih (b := b - p.size) (by omega)
        exact ⟨p :: before, q, after, rfl, by rw [total_cons]; omega, by rw [total_cons]; omega⟩

/-- As many bytes are gone as there are exactly if all pieces are freed. -/
theorem gone_eq_total_iff (h : ∀ p ∈ l, 0 < p.size) :
    gone l = total l ↔ ∀ p ∈ l, p.freed = true := by
  induction l with
  | nil => simp
  | cons p l ih =>
      have hle := gone_le (l := l)
      have hpos := h p List.mem_cons_self
      rw [gone_cons, total_cons, List.forall_mem_cons,
        ← ih fun q hq => h q (List.mem_cons_of_mem p hq)]
      split_ifs with hp
      · exact ⟨fun h => ⟨hp, by omega⟩, fun h => by omega⟩
      · exact ⟨fun h => by omega, fun h => absurd h.1 hp⟩

/-- **All bytes are gone** exactly if as many bytes are gone as there are. -/
theorem gone_eq_iff (h : Reads size mem base 0 l) (hl : total l ≤ size) :
    gone l = size ↔ ∀ b < size, Gone l b := by
  have hpos : ∀ p ∈ l, 0 < p.size := by
    intro p hp
    obtain ⟨before, after, hsplit⟩ := List.append_of_mem hp
    exact (h.at hsplit).pos
  have hle := gone_le (l := l)
  constructor
  · intro hgone b hb
    have hfreed := (gone_eq_total_iff hpos).1 (by omega)
    obtain ⟨before, p, after, hsplit, hlow, hhigh⟩ := exists_piece (l := l) (b := b) (by omega)
    refine ⟨before, p, after, hsplit, hlow, hhigh, .inr (hfreed p ?_)⟩
    rw [hsplit]
    exact List.mem_append_right before List.mem_cons_self
  · intro hall
    have htotal : size ≤ total l := by
      by_contra hlt
      obtain ⟨before, p, after, hsplit, -, hhigh, -⟩ := hall (size - 1) (by omega)
      have := total_le_of_mem hsplit
      omega
    have hfreed : ∀ p ∈ l, p.freed = true := by
      intro p hp
      obtain ⟨before, after, hsplit⟩ := List.append_of_mem hp
      have hppos := hpos p hp
      have hpl := total_le_of_mem hsplit
      -- the first byte of the piece is in no other piece
      obtain ⟨before', p', after', hsplit', hlow, hhigh, hgone⟩ := hall (total before) (by omega)
      rcases pieces_apart (hsplit ▸ hsplit') with ⟨rfl, rfl⟩ | hapart | hapart
      · exact hgone.elim (fun hfill => ((h.at hsplit).last hfill).2) id
      · omega
      · omega
    have := (gone_eq_total_iff hpos).2 hfreed
    omega

end Ialloc
end Floem
