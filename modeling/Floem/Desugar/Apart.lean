import Floem.Desugar.Kept

/-!
# The blocks of a scope together

* `forksIn`, `numbers_nodup` — the forks of a scope have different numbers.
* `Apart` — no port is connected in two blocks of the scope.
* `splitBy_of_apart` — then the connections of the scope have been split.
* `apart_of_once` — only then each port is connected once.
* `renamed_iff` — what has become of the statements of a scope, block by block.
-/

namespace Floem
namespace Desugar

open Lib

variable (it : Iteration) (m : Mode)

/-- The ports of a block that are forked, with the numbers of their forks. -/
def Block.forks (b : Block) : List (Key × ℕ) := (forked it b.1).zipIdx b.first

/-- The connections of some blocks, one behind the other. -/
def connsOf (l : List Block) : List (Key × Dest) := l.flatMap fun b => conns b.1

/-- No port is connected in two of these blocks. -/
def Apart (l : List Block) : Prop := l.Pairwise fun b b' => ∀ k ∈ keys b.1, k ∉ keys b'.1

variable {it m} {l : List Block} {b b' r : Block} {k : Key} {f : String}

/-! ## The numbers of the forks -/

theorem Block.mem_numbers {i : ℕ} (h : i ∈ (b.forks it).map Prod.snd) :
    b.first ≤ i ∧ i < b.first + forkCount b.1 := by
  rw [Block.forks, List.zipIdx_map_snd, List.mem_range'_1, length_forked] at h
  exact h

theorem Block.numbers_nodup (b : Block) : ((b.forks it).map Prod.snd).Nodup := by
  rw [Block.forks, List.zipIdx_map_snd]
  exact List.nodup_range'

/-- The numbers of some blocks lie between two others, and no two of them are the same. -/
def Between (it : Iteration) (l : List Block) (lo hi : ℕ) : Prop :=
  ((l.flatMap (Block.forks it)).map Prod.snd).Nodup ∧
    ∀ i ∈ (l.flatMap (Block.forks it)).map Prod.snd, lo ≤ i ∧ i < hi

theorem between_nil (lo hi : ℕ) : Between it [] lo hi :=
  ⟨List.nodup_nil, fun _ h => absurd h List.not_mem_nil⟩

theorem Between.append {l l' : List Block} {lo mid hi : ℕ} (h : Between it l lo mid)
    (h' : Between it l' mid hi) (hlo : lo ≤ mid) (hhi : mid ≤ hi) : Between it (l ++ l') lo hi := by
  unfold Between
  rw [List.flatMap_append, List.map_append]
  constructor
  · refine List.nodup_append.2 ⟨h.1, h'.1, fun i hi j hj heq => ?_⟩
    have hi := h.2 i hi
    have hj := h'.2 j hj
    omega
  · intro i hi
    obtain hi | hi := List.mem_append.1 hi
    · exact ⟨(h.2 i hi).1, (h.2 i hi).2.trans_le hhi⟩
    · exact ⟨hlo.trans (h'.2 i hi).1, (h'.2 i hi).2⟩

theorem between_singleton (b : Block) :
    Between it [b] b.first (b.first + forkCount b.1) := by
  unfold Between
  rw [List.flatMap_singleton]
  exact ⟨b.numbers_nodup, fun _ hi => Block.mem_numbers hi⟩

mutual

theorem between_blocksOf (st : Stmt) (forkId : ℕ) :
    Between it (blocksOf m st forkId) forkId (forkId + forksOf st) := by
  cases st with
  | block kind s =>
      rw [blocksOf, forksOf]
      split_ifs
      · rw [← Nat.add_assoc]
        exact between_blocks s forkId
      · exact between_nil _ _
  | _ =>
      simp only [blocksOf]
      exact between_nil _ _

theorem between_inner (s : List Stmt) (forkId : ℕ) :
    Between it (inner m s forkId) forkId (forkId + forksIn s) := by
  cases s with
  | nil =>
      rw [inner]
      exact between_nil _ _
  | cons st sts =>
      rw [inner, forksIn, ← Nat.add_assoc]
      exact (between_blocksOf st forkId).append (between_inner sts _) (Nat.le_add_right ..)
        (Nat.le_add_right ..)

/-- **The inner blocks get their forks first.** -/
theorem between_blocks (s : List Stmt) (forkId : ℕ) :
    Between it ((s, forkId) :: inner m s forkId) forkId (forkId + forksIn s + forkCount s) := by
  have hperm : (((s, forkId) :: inner m s forkId).flatMap (Block.forks it)).Perm
      ((inner m s forkId ++ [(s, forkId)]).flatMap (Block.forks it)) :=
    (List.perm_append_singleton ..).symm.flatMap_right _
  have h : Between it (inner m s forkId ++ [(s, forkId)]) forkId
      (forkId + forksIn s + forkCount s) :=
    (between_inner s forkId).append (between_singleton (s, forkId)) (Nat.le_add_right ..)
      (Nat.le_add_right ..)
  have hnumbers := hperm.map Prod.snd
  exact ⟨hnumbers.nodup_iff.2 h.1, fun i hi => h.2 i (hnumbers.mem_iff.1 hi)⟩

end

/-- **The forks of a scope have different numbers.** -/
theorem numbers_nodup (r : Block) :
    (((blocks m r.1 r.2).flatMap (Block.forks it)).map Prod.snd).Nodup :=
  (between_blocks r.1 r.2).1

/-! ## The ports of the forks -/

variable (it) in
theorem Block.map_fst_forks (b : Block) : (b.forks it).map Prod.fst = forked it b.1 :=
  List.zipIdx_map_fst ..

theorem mem_keys_of_forked (h : k ∈ forked it b.1) : k ∈ keys b.1 :=
  mem_keys.2 (mem_conns_of_forked (mem_forked.1 h))

theorem map_fst_forks (l : List Block) :
    (l.flatMap (Block.forks it)).map Prod.fst = l.flatMap fun b => forked it b.1 := by
  rw [List.map_flatMap]
  exact List.flatMap_congr fun b _ => b.map_fst_forks it

theorem Apart.eq (h : Apart l) (hb : b ∈ l) (hb' : b' ∈ l) (hk : k ∈ keys b.1)
    (hk' : k ∈ keys b'.1) : b = b' := by
  by_contra hne
  have hsymm : Std.Symm fun b b' : Block => ∀ k ∈ keys b.1, k ∉ keys b'.1 :=
    ⟨fun _ _ h k hk hk' => h k hk' hk⟩
  exact List.Pairwise.forall h hb hb' hne k hk hk'

theorem Apart.ports_nodup (h : Apart l) : ((l.flatMap (Block.forks it)).map Prod.fst).Nodup := by
  rw [map_fst_forks, List.nodup_flatMap]
  refine ⟨fun b _ => forked_nodup b.1, h.imp fun {b b'} hkeys k hk hk' => ?_⟩
  exact hkeys k (mem_keys_of_forked hk) (mem_keys_of_forked hk')

/-- A port that is connected in a block is connected in this block of the scope only. -/
theorem Apart.count (h : Apart l) (hb : b ∈ l) (hk : k ∈ keys b.1) :
    ((connsOf l).map Prod.fst).count k = fanout b.1 k := by
  induction l with
  | nil => exact absurd hb List.not_mem_nil
  | cons b₀ l ih =>
      have hparts := List.pairwise_cons.1 h
      rw [connsOf, List.flatMap_cons, List.map_append, List.count_append, ← fanout_eq]
      obtain rfl | hb := List.mem_cons.1 hb
      · rw [List.count_eq_zero_of_not_mem, Nat.add_zero]
        intro hmem
        rw [List.map_flatMap, List.mem_flatMap] at hmem
        obtain ⟨b', hb', hmem⟩ := hmem
        exact hparts.1 b' hb' k hk (mem_keys.2 hmem)
      · have hzero : fanout b₀.1 k = 0 := by
          rw [fanout_eq]
          exact List.count_eq_zero_of_not_mem fun hmem => hparts.1 b hb k (mem_keys.2 hmem) hk
        rw [hzero, Nat.zero_add]
        exact ih hparts.2 hb

theorem mem_connsOf : k ∈ (connsOf l).map Prod.fst ↔ ∃ b ∈ l, k ∈ keys b.1 := by
  rw [connsOf, List.map_flatMap, List.mem_flatMap]
  exact exists_congr fun b => and_congr_right fun _ => mem_keys.symm

/-- The ports that are forked are those with several connections. -/
theorem Apart.mem_forked (h : Apart l) :
    k ∈ (l.flatMap (Block.forks it)).map Prod.fst ↔ 1 < ((connsOf l).map Prod.fst).count k := by
  rw [map_fst_forks, List.mem_flatMap]
  constructor
  · rintro ⟨b, hb, hk⟩
    rw [h.count hb (mem_keys_of_forked hk)]
    exact Desugar.mem_forked.1 hk
  · intro hcount
    obtain ⟨b, hb, hk⟩ := mem_connsOf.1 (List.count_pos_iff.1 (Nat.lt_of_succ_lt hcount))
    rw [h.count hb hk] at hcount
    exact ⟨b, hb, Desugar.mem_forked.2 hcount⟩

theorem Block.names_eq_some :
    b.names it k = some f ↔ ∃ i, (k, i) ∈ b.forks it ∧ forkInst k i = f := by
  rw [Block.names, newName]
  split_ifs with hk
  · rw [Option.some.injEq]
    constructor
    · rintro rfl
      refine ⟨_, ?_, rfl⟩
      rw [Block.forks, List.mk_mem_zipIdx_iff_le_and_getElem?_sub, Nat.add_sub_cancel_left,
        List.getElem?_idxOf hk]
      exact ⟨Nat.le_add_right .., rfl⟩
    · rintro ⟨i, hi, rfl⟩
      rw [Block.forks, List.mk_mem_zipIdx_iff_le_and_getElem?_sub] at hi
      have hidx := List.getElem?_idxOf hk
      have hsame := (List.getElem?_inj (List.getElem?_eq_some_iff.1 hidx).1
        (forked_nodup b.1)).1 (hidx.trans hi.2.symm)
      rw [hsame, Nat.add_sub_cancel' hi.1]
  · refine iff_of_false (fun h => by cases h) ?_
    rintro ⟨i, hi, -⟩
    exact hk (Block.map_fst_forks it b ▸ List.mem_map_of_mem (f := Prod.fst) hi)

/-- A port has the fork that its block gives it. -/
theorem Apart.names_eq (h : Apart l) (hb : b ∈ l) (hk : k ∈ keys b.1) :
    nameIn (l.flatMap (Block.forks it)) k = b.names it k := by
  cases hname : b.names it k with
  | some f =>
      obtain ⟨i, hi, rfl⟩ := Block.names_eq_some.1 hname
      exact (nameIn_eq_some h.ports_nodup).2 ⟨i, List.mem_flatMap.2 ⟨b, hb, hi⟩, rfl⟩
  | none =>
      rw [nameIn_eq_none, h.mem_forked, h.count hb hk]
      rwa [Block.names, newName_eq_none, Desugar.mem_forked] at hname

theorem Apart.nameIn_of_names (h : Apart l) (hb : b ∈ l) (hf : b.names it k = some f) :
    nameIn (l.flatMap (Block.forks it)) k = some f := by
  rw [h.names_eq hb (mem_keys_of_forked (mem_forked_of_newName hf)), hf]

theorem Apart.unused_iff (h : Apart l) {cs : List (Key × Dest)} :
    Unused (nameIn (l.flatMap (Block.forks it))) cs ↔ ∀ b ∈ l, Unused (b.names it) cs := by
  constructor
  · exact fun hunused b hb k f hf => hunused k f (h.nameIn_of_names hb hf)
  · intro hunused k f hf
    have hk := mem_of_nameIn hf
    rw [map_fst_forks, List.mem_flatMap] at hk
    obtain ⟨b, hb, hk⟩ := hk
    refine hunused b hb k f ?_
    rw [← h.names_eq hb (mem_keys_of_forked hk), hf]

/-! ## The connections of a scope -/

theorem conns_outOf (b : Block) :
    conns (outOf it b).body = split (b.names it) outPort [] (conns b.1) :=
  conns_body (dones_blocky b.1 b.2) _ _

theorem conns_added (b : Block) : conns (added it b) = backsIn (b.forks it) := by
  rw [added, conns_append, outOf, loopOf]
  rw [conns_front, conns_back, List.nil_append]
  rfl

theorem connsOf_blocks (r : Block) : (connsOf (blocks m r.1 r.2)).Perm (conns (flats m r.1)) :=
  (conns_flats r.1 r.2).symm

/-- **The statements of a scope afterwards.** -/
theorem flats_out (r : Block) : (flats m (outOf it r).statements).Perm
    (bodies m r.1 (outOf it r).body ++ (blocks m r.1 r.2).flatMap (added it)) := by
  refine (flats_statements it r).trans ?_
  refine ((flats_done r.1 (done_body it r)).append_right _).trans ?_
  rw [blocks, List.flatMap_cons, List.append_assoc]
  exact List.Perm.append_left _ List.perm_append_comm

variable (it m) in
/-- **The connections of a scope afterwards.** -/
theorem conns_out (r : Block) : (conns (flats m (outOf it r).statements)).Perm
    (((blocks m r.1 r.2).flatMap fun b => split (b.names it) outPort [] (conns b.1)) ++
      (blocks m r.1 r.2).flatMap fun b => backsIn (b.forks it)) := by
  refine ((flats_out r).filterMap Stmt.conn?).trans ?_
  rw [List.filterMap_append]
  refine List.Perm.append ?_ (.of_eq ?_)
  · refine (conns_bodies r.1 (done_body it r)).trans (.of_eq ?_)
    rw [blocks, List.flatMap_cons, conns_outOf]
    exact congrArg _ (List.flatMap_congr fun b _ => conns_outOf b)
  · exact (conns_flatMap ..).trans (List.flatMap_congr fun b _ => conns_added b)

variable (it) in
/-- **The connections of a scope have been split.** -/
theorem splitBy_of_apart (h : Apart (blocks m r.1 r.2)) :
    SplitBy (flats m r.1) (flats m (outOf it r).statements)
      ((blocks m r.1 r.2).flatMap (Block.forks it)) (connsOf (blocks m r.1 r.2)) where
  ports := h.ports_nodup
  numbers := numbers_nodup r
  forked k := by
    rw [h.mem_forked, fanout_eq, ((connsOf_blocks r).map Prod.fst).count_eq]
  before := connsOf_blocks r
  after := by
    have hkeys : (blocks m r.1 r.2).Pairwise fun b b' =>
        ∀ k ∈ (conns b.1).map Prod.fst, k ∉ (conns b'.1).map Prod.fst :=
      h.imp fun hkeys k hk hk' => hkeys k (mem_keys.2 hk) (mem_keys.2 hk')
    have hsplit : split (nameIn ((blocks m r.1 r.2).flatMap (Block.forks it))) outPort []
        (connsOf (blocks m r.1 r.2)) =
          (blocks m r.1 r.2).flatMap fun b => split (b.names it) outPort [] (conns b.1) := by
      rw [connsOf, split_flatMap hkeys fun _ _ _ _ => List.not_mem_nil]
      refine List.flatMap_congr fun b hb => split_congr (fun c hc => ?_) fun _ _ => rfl
      exact h.names_eq hb (mem_keys.2 (List.mem_map_of_mem hc))
    rw [hsplit]
    refine (conns_out it m r).trans (.of_eq (congrArg _ ?_))
    rw [backsIn, List.map_flatMap]
    rfl

/-- **Each port is connected once**: then no two blocks of the scope connect the same. -/
theorem apart_of_once (h : ((conns (flats m (outOf it r).statements)).map Prod.fst).Nodup) :
    Apart (blocks m r.1 r.2) := by
  have hparts := (conns_out it m r).trans (List.flatMap_append_perm ..)
  rw [(hparts.map Prod.fst).nodup_iff, List.map_flatMap, List.nodup_flatMap] at h
  have hmem : ∀ (b : Block) (k : Key), k ∈ keys b.1 →
      k ∈ (split (b.names it) outPort [] (conns b.1) ++ backsIn (b.forks it)).map Prod.fst := by
    intro b k hk
    rw [List.map_append, map_fst_backsIn, b.map_fst_forks, List.mem_append]
    by_cases hforked : k ∈ forked it b.1
    · exact Or.inr hforked
    · obtain ⟨c, hc, rfl⟩ := List.mem_map.1 (mem_keys.1 hk)
      have hnone : b.names it c.1 = none := newName_eq_none.2 hforked
      exact Or.inl (List.mem_map_of_mem (mem_split_of_none hc hnone))
  exact h.2.imp fun {b b'} hdisjoint k hk hk' => hdisjoint (hmem b k hk) (hmem b' k hk')

/-! ## The statements of a scope -/

theorem mem_pairs {os sts : List Stmt} {o st : Stmt} : (o, st) ∈ pairs m os sts ↔
    ∃ j : ℕ, os[j]? = some o ∧ sts[j]? = some st ∧ o.opened m = false := by
  rw [pairs, List.mem_filter, List.mem_iff_getElem?, ← exists_and_right]
  refine exists_congr fun j => ?_
  rw [List.getElem?_zip_eq_some, and_assoc, Bool.not_eq_true']

/-- **What has become of the statements of a scope**: it is said of each block. -/
theorem renamed_iff {R : Stmt → Stmt → Prop} (r : Block) :
    List.Forall₂ R (flats m r.1) (bodies m r.1 (outOf it r).body) ↔
      ∀ b ∈ blocks m r.1 r.2, ∀ (j : ℕ) (o st : Stmt), b.1[j]? = some o →
        (outOf it b).body[j]? = some st → o.opened m = false → R o st := by
  obtain ⟨hlength, hzip⟩ := zip_bodies r.1 (done_body it r)
  have hmem : ∀ {o st : Stmt}, (o, st) ∈ (flats m r.1).zip (bodies m r.1 (outOf it r).body) ↔
      ∃ b ∈ blocks m r.1 r.2, (o, st) ∈ pairs m b.1 (outOf it b).body := by
    intro o st
    rw [hzip.mem_iff, blocks, ← List.mem_flatMap, List.flatMap_cons]
  rw [List.forall₂_iff_zip]
  constructor
  · rintro ⟨-, h⟩ b hb j o st ho hst hopened
    exact h (hmem.2 ⟨b, hb, mem_pairs.2 ⟨j, ho, hst, hopened⟩⟩)
  · refine fun h => ⟨hlength, fun hpair => ?_⟩
    obtain ⟨b, hb, hpair⟩ := hmem.1 hpair
    obtain ⟨j, ho, hst, hopened⟩ := mem_pairs.1 hpair
    exact h b hb j _ _ ho hst hopened

mutual

theorem mem_flatOf (st : Stmt) (forkId : ℕ) {o : Stmt} : o ∈ flatOf m st ↔
    o = st ∧ st.opened m = false ∨
      ∃ b ∈ blocksOf m st forkId, o ∈ b.1 ∧ o.opened m = false := by
  cases st with
  | block kind s =>
      by_cases hopen : kind.opens m
      · rw [flatOf, if_pos hopen, blocksOf, if_pos hopen, mem_flats s forkId, Stmt.opened]
        simp [hopen]
      · rw [flatOf, if_neg hopen, blocksOf, if_neg hopen, Stmt.opened]
        simp [hopen]
  | _ => simp [flatOf, blocksOf, Stmt.opened]

/-- **The statements of a scope** are those of its blocks that are not opened. -/
theorem mem_flats (s : List Stmt) (forkId : ℕ) {o : Stmt} : o ∈ flats m s ↔
    o ∈ s ∧ o.opened m = false ∨ ∃ b ∈ inner m s forkId, o ∈ b.1 ∧ o.opened m = false := by
  cases s with
  | nil => simp [flats, inner]
  | cons st sts =>
      rw [flats, inner, List.mem_append, mem_flatOf st forkId,
        mem_flats sts (forkId + forksOf st), List.mem_cons]
      simp only [List.mem_append, or_and_right, exists_or]
      constructor
      · rintro ((⟨rfl, hopened⟩ | h) | (h | h))
        · exact Or.inl (Or.inl ⟨rfl, hopened⟩)
        · exact Or.inr (Or.inl h)
        · exact Or.inl (Or.inr h)
        · exact Or.inr (Or.inr h)
      · rintro ((⟨rfl, hopened⟩ | h) | (h | h))
        · exact Or.inl (Or.inl ⟨rfl, hopened⟩)
        · exact Or.inr (Or.inl h)
        · exact Or.inl (Or.inr h)
        · exact Or.inr (Or.inr h)

end

theorem mem_flats_iff {o : Stmt} : o ∈ flats m r.1 ↔
    ∃ b ∈ blocks m r.1 r.2, o ∈ b.1 ∧ o.opened m = false := by
  rw [mem_flats r.1 r.2, blocks, List.exists_mem_cons_iff]

end Desugar
end Floem
