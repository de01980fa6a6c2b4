import Floem.Desugar.Body

/-!
# Scopes

The names of a block mean the same as outside of it, unless the block is the program of a
composite; of the `Spec` and `Impl` blocks those count that are compiled.

* `flats` — the statements of a scope, with the blocks in it opened.
* `blocks` — the blocks of a scope, with the numbers their forks start from.
* `dones`, `outOf` — a block with its inner blocks done, and what has become of it.
* `bodies` — what has become of the statements of a scope.
* `conns_flats`, `flats_out`, `conns_bodies`, `zip_bodies` — a scope is put together from its
  blocks.
-/

namespace Floem
namespace Desugar

open Lib

/-- What is compiled of a program. -/
inductive Mode
  | spec
  | impl
  deriving DecidableEq, Repr

/-- The block has no names of its own. -/
def Kind.opens (m : Mode) : Kind → Bool
  | program => true
  | spec => m = .spec
  | impl => m = .impl
  | composite _ => false

namespace Stmt

/-- The statements of a block. -/
def inside : Stmt → List Stmt
  | block _ s => s
  | _ => []

def isBlock : Stmt → Bool
  | block _ _ => true
  | _ => false

/-- A block without names of its own. -/
def opened (m : Mode) : Stmt → Bool
  | block kind _ => kind.opens m
  | _ => false

end Stmt

mutual

def flatOf (m : Mode) : Stmt → List Stmt
  | .block kind s => if kind.opens m then flats m s else [.block kind s]
  | st => [st]

/-- The statements of a scope. -/
def flats (m : Mode) : List Stmt → List Stmt
  | [] => []
  | st :: sts => flatOf m st ++ flats m sts

end

mutual

/-- The number of forks in a statement. -/
def forksOf : Stmt → ℕ
  | .block _ s => forksIn s + forkCount s
  | _ => 0

def forksIn : List Stmt → ℕ
  | [] => 0
  | st :: sts => forksOf st + forksIn sts

end

/-- The statements of a block, and the number that the forks in it start from. -/
abbrev Block := List Stmt × ℕ

mutual

def blocksOf (m : Mode) : Stmt → ℕ → List Block
  | .block kind s, forkId => if kind.opens m then (s, forkId) :: inner m s forkId else []
  | _, _ => []

/-- The blocks of the scope in these statements. -/
def inner (m : Mode) : List Stmt → ℕ → List Block
  | [], _ => []
  | st :: sts, forkId => blocksOf m st forkId ++ inner m sts (forkId + forksOf st)

end

/-- The blocks of a scope. -/
def blocks (m : Mode) (s : List Stmt) (forkId : ℕ) : List Block := (s, forkId) :: inner m s forkId

variable (it : Iteration)

mutual

/-- A statement with its inner blocks done. -/
def doneOf : Stmt → ℕ → Stmt
  | .block kind s, forkId =>
    .block kind (loopOf s (dones s forkId) (forkId + forksIn s) (forked it s)).statements
  | st, _ => st

def dones : List Stmt → ℕ → List Stmt
  | [], _ => []
  | st :: sts, forkId => doneOf st forkId :: dones sts (forkId + forksOf st)

end

/-- The number of the first fork of a block: the inner blocks get theirs first. -/
def Block.first (b : Block) : ℕ := b.2 + forksIn b.1

/-- What the loop makes of a block. -/
def outOf (b : Block) : Loop := loopOf b.1 (dones it b.1 b.2) b.first (forked it b.1)

/-- The instances of the forks of a block. -/
def Block.names (b : Block) : Key → Option String := newName (forked it b.1) b.first

mutual

def bodyIn (m : Mode) : Stmt → Stmt → List Stmt
  | .block kind s, st => if kind.opens m then bodies m s (bodyOf s st.inside) else [st]
  | _, st => [st]

/-- What has become of the statements of a scope, from what has become of these ones. -/
def bodies (m : Mode) : List Stmt → List Stmt → List Stmt
  | o :: os, st :: sts => bodyIn m o st ++ bodies m os sts
  | _, _ => []

end

variable {it} {m : Mode} {o st : Stmt} {os sts s : List Stmt} {forkId : ℕ} {b : Block}

theorem flatOf_of_not_block (h : ¬ st.isBlock) : flatOf m st = [st] := by
  cases st with
  | block kind s => exact absurd rfl h
  | _ => simp only [flatOf]

theorem bodyIn_of_not_block (h : ¬ o.isBlock) : bodyIn m o st = [st] := by
  cases o with
  | block kind s => exact absurd rfl h
  | _ => simp only [bodyIn]

theorem forksOf_of_not_block (h : ¬ st.isBlock) : forksOf st = 0 := by
  cases st with
  | block kind s => exact absurd rfl h
  | _ => simp only [forksOf]

theorem blocksOf_of_not_block (h : ¬ st.isBlock) : blocksOf m st forkId = [] := by
  cases st with
  | block kind s => exact absurd rfl h
  | _ => simp only [blocksOf]

theorem opened_of_not_block (h : ¬ st.isBlock) : st.opened m = false := by
  cases st with
  | block kind s => exact absurd rfl h
  | _ => rfl

/-! ## Statements with the inner blocks done -/

theorem dones_blocky (s : List Stmt) (forkId : ℕ) :
    List.Forall₂ Blocky s (dones it s forkId) := by
  induction s generalizing forkId with
  | nil =>
      rw [dones]
      exact .nil
  | cons st sts ih =>
      rw [dones]
      refine .cons ?_ (ih _)
      cases st with
      | block kind s =>
          rw [doneOf]
          exact Or.inr ⟨_, _, _, rfl, rfl⟩
      | _ =>
          simp only [doneOf]
          exact Or.inl rfl

variable (it) in
/-- Statements whose blocks are done; what the others have become is left open. -/
inductive Done : List Stmt → ℕ → List Stmt → Prop
  | nil (forkId : ℕ) : Done [] forkId []
  | block (kind : Kind) (s : List Stmt) (forkId : ℕ) {os sts : List Stmt}
      (h : Done os (forkId + forksOf (.block kind s)) sts) :
      Done (.block kind s :: os) forkId (doneOf it (.block kind s) forkId :: sts)
  | plain {o st : Stmt} (ho : ¬ o.isBlock) (hst : ¬ st.isBlock) {forkId : ℕ} {os sts : List Stmt}
      (h : Done os forkId sts) : Done (o :: os) forkId (st :: sts)

theorem done_dones (s : List Stmt) (forkId : ℕ) : Done it s forkId (dones it s forkId) := by
  induction s generalizing forkId with
  | nil =>
      rw [dones]
      exact .nil forkId
  | cons st sts ih =>
      rw [dones]
      cases st with
      | block kind s => exact .block kind s forkId (ih _)
      | _ =>
          simp only [doneOf, forksOf, Nat.add_zero]
          exact .plain (by simp [Stmt.isBlock]) (by simp [Stmt.isBlock]) (ih forkId)

theorem Stmt.isBlock_redirect (st : Stmt) (f : String) (i : ℕ) :
    (st.redirect f i).isBlock = st.isBlock := by
  cases st <;> rfl

theorem Stmt.isBlock_adjust (st : Stmt) (inst f : String) :
    (st.adjust inst f).isBlock = st.isBlock := by
  cases st <;> rfl

theorem Done.redirectAll {new : Key → Option String} (h : Done it os forkId sts)
    (seen : List Key) : Done it os forkId (redirectAll new seen os sts) := by
  induction h generalizing seen with
  | nil forkId =>
      rw [Desugar.redirectAll]
      · exact .nil forkId
      · intro _ _ _ _ h
        cases h
  | block kind s forkId h ih =>
      simp only [Desugar.redirectAll, Stmt.key?]
      exact .block kind s forkId (ih seen)
  | @plain o st ho hst forkId os sts h ih =>
      cases hkey : o.key? with
      | none =>
          simp only [Desugar.redirectAll, hkey]
          exact .plain ho hst (ih seen)
      | some k =>
          simp only [Desugar.redirectAll, hkey]
          refine .plain ho ?_ (ih _)
          split
          · rwa [Stmt.isBlock_redirect]
          · exact hst

theorem Done.modify {inst f : String} (h : Done it os forkId sts) (j : ℕ) :
    Done it os forkId (sts.modify j (Stmt.adjust inst f)) := by
  induction h generalizing j with
  | nil forkId =>
      rw [List.modify_nil]
      exact .nil forkId
  | block kind s forkId h ih =>
      cases j with
      | zero =>
          have hsame : (doneOf it (.block kind s) forkId).adjust inst f =
              doneOf it (.block kind s) forkId := by
            rw [doneOf]
            rfl
          rw [List.modify_zero_cons, hsame]
          exact .block kind s forkId h
      | succ j =>
          rw [List.modify_succ_cons]
          exact .block kind s forkId (ih j)
  | plain ho hst h ih =>
      cases j with
      | zero =>
          rw [List.modify_zero_cons]
          exact .plain ho (by rwa [Stmt.isBlock_adjust]) h
      | succ j =>
          rw [List.modify_succ_cons]
          exact .plain ho hst (ih j)

theorem Done.adjustAll (h : Done it os forkId sts) (ks : List Key) (first : ℕ) :
    Done it os forkId (adjustAll s ks first sts) := by
  unfold Desugar.adjustAll
  generalize ks.zipIdx first = l
  induction l generalizing sts with
  | nil => exact h
  | cons c l ih =>
      refine ih ?_
      show Done it os forkId (adjustOrder s c.1.1 _ sts)
      unfold adjustOrder
      split
      · exact h.modify _
      · exact h

variable (it) in
/-- **The loop does not change the inner blocks.** -/
theorem done_body (b : Block) : Done it b.1 b.2 (outOf it b).body := by
  rw [outOf, loopOf]
  exact ((done_dones b.1 b.2).adjustAll _ _).redirectAll []

variable (it) in
theorem length_outOf (b : Block) : (outOf it b).body.length = b.1.length :=
  length_body it b.first (dones_blocky b.1 b.2)

variable (it) in
theorem bodyOf_outOf (b : Block) : bodyOf b.1 (outOf it b).statements = (outOf it b).body :=
  bodyOf_statements (dones_blocky b.1 b.2)

/-! ## Scopes from blocks -/

mutual

theorem conns_flatOf (st : Stmt) (forkId : ℕ) : (conns (flatOf m st)).Perm
    (conns [st] ++ (blocksOf m st forkId).flatMap fun b => conns b.1) := by
  cases st with
  | block kind s =>
      rw [flatOf, blocksOf]
      split_ifs
      · rw [List.flatMap_cons]
        exact conns_flats s forkId
      · rw [List.flatMap_nil, List.append_nil]
  | _ => simp [flatOf, blocksOf]

/-- **The connections of a scope** are those of its blocks. -/
theorem conns_flats (s : List Stmt) (forkId : ℕ) : (conns (flats m s)).Perm
    (conns s ++ (inner m s forkId).flatMap fun b => conns b.1) := by
  cases s with
  | nil =>
      rw [flats, inner, List.flatMap_nil, List.append_nil]
  | cons st sts =>
      rw [flats, inner, conns_append, List.flatMap_append, ← List.singleton_append, conns_append]
      refine ((conns_flatOf st forkId).append (conns_flats sts (forkId + forksOf st))).trans ?_
      rw [List.append_assoc, List.append_assoc]
      exact List.Perm.append_left _ (List.perm_append_comm_assoc ..)

end

theorem flats_append (l l' : List Stmt) : flats m (l ++ l') = flats m l ++ flats m l' := by
  induction l with
  | nil => rw [flats, List.nil_append, List.nil_append]
  | cons st l ih => rw [List.cons_append, flats, flats, ih, List.append_assoc]

theorem flats_of_not_block {l : List Stmt} (h : ∀ st ∈ l, ¬ st.isBlock) : flats m l = l := by
  induction l with
  | nil => rw [flats]
  | cons st l ih =>
      rw [flats, flatOf_of_not_block (h st List.mem_cons_self),
        ih fun st' h' => h st' (List.mem_cons_of_mem st h')]
      rfl

theorem not_isBlock_frontOf {k : Key} {i : ℕ} (h : st ∈ frontOf s k i) : ¬ st.isBlock := by
  rcases List.mem_cons.1 h with rfl | h
  · exact Bool.false_ne_true
  · obtain rfl := List.mem_singleton.1 h
    exact Bool.false_ne_true

theorem not_isBlock_backOf {k : Key} {i : ℕ} (h : st ∈ backOf s k i) : ¬ st.isBlock := by
  rcases List.mem_cons.1 h with rfl | h
  · exact Bool.false_ne_true
  · obtain ⟨resource, -, rfl⟩ := List.mem_map.1 h
    exact Bool.false_ne_true

/-- What a block adds. -/
def added (it : Iteration) (b : Block) : List Stmt := (outOf it b).front ++ (outOf it b).back

variable (it) in
theorem flats_statements (b : Block) : (flats m (outOf it b).statements).Perm
    (flats m (outOf it b).body ++ added it b) := by
  have hfront : flats m (outOf it b).front = (outOf it b).front :=
    flats_of_not_block fun st hst => by
      obtain ⟨c, -, hst⟩ := List.mem_flatMap.1 hst
      exact not_isBlock_frontOf hst
  have hback : flats m (outOf it b).back = (outOf it b).back :=
    flats_of_not_block fun st hst => by
      obtain ⟨c, -, hst⟩ := List.mem_flatMap.1 hst
      exact not_isBlock_backOf hst
  rw [Loop.statements, flats_append, flats_append, hfront, hback, added]
  exact (List.perm_append_comm.append_right _).trans (.of_eq (List.append_assoc ..))

/-- What has become of an opened block. -/
theorem bodyIn_block {kind : Kind} (hopen : kind.opens m = true) :
    bodyIn m (.block kind s) (doneOf it (.block kind s) forkId) =
      bodies m s (outOf it (s, forkId)).body := by
  rw [bodyIn, if_pos hopen, doneOf, Stmt.inside]
  exact congrArg _ (bodyOf_outOf it (s, forkId))

theorem not_opened {kind : Kind} (s : List Stmt) (forkId : ℕ) (st : Stmt) (hopen : ¬ kind.opens m = true) :
    bodyIn m (.block kind s) st = [st] ∧ flatOf m (.block kind s) = [.block kind s] ∧
      blocksOf m (.block kind s) forkId = [] := by
  rw [bodyIn, flatOf, blocksOf]
  exact ⟨if_neg hopen, if_neg hopen, if_neg hopen⟩

mutual

theorem flats_doneOf (st : Stmt) (hst : st.isBlock) (forkId : ℕ) :
    (flatOf m (doneOf it st forkId)).Perm
      (bodyIn m st (doneOf it st forkId) ++ (blocksOf m st forkId).flatMap (added it)) := by
  cases st with
  | block kind s =>
      by_cases hopen : kind.opens m
      · rw [bodyIn_block hopen, doneOf, flatOf, if_pos hopen, blocksOf, if_pos hopen,
          List.flatMap_cons]
        refine (flats_statements it (s, forkId)).trans ?_
        refine ((flats_done s (done_body it (s, forkId))).append_right _).trans ?_
        rw [List.append_assoc]
        exact List.Perm.append_left _ List.perm_append_comm
      · obtain ⟨hbody, -, hblocks⟩ := not_opened s forkId
          (doneOf it (.block kind s) forkId) hopen
        rw [hbody, hblocks, doneOf, flatOf, if_neg hopen, List.flatMap_nil, List.append_nil]
  | _ => cases hst

/-- **The statements of a scope afterwards** are what has become of them, and what is added. -/
theorem flats_done (os : List Stmt) {forkId : ℕ} {sts : List Stmt} (h : Done it os forkId sts) :
    (flats m sts).Perm (bodies m os sts ++ (inner m os forkId).flatMap (added it)) := by
  cases os with
  | nil =>
      cases h
      rw [flats, bodies, inner, List.flatMap_nil, List.append_nil]
      intro _ _ _ _ h
      cases h
  | cons o os =>
      cases h with
      | block kind s _ h =>
          rw [flats, bodies, inner, List.flatMap_append]
          refine ((flats_doneOf (.block kind s) rfl forkId).append (flats_done os h)).trans ?_
          rw [List.append_assoc, List.append_assoc]
          exact List.Perm.append_left _ (List.perm_append_comm_assoc ..)
      | @plain _ st ho hst _ _ sts h =>
          rw [flats, bodies, inner, flatOf_of_not_block hst, bodyIn_of_not_block ho,
            blocksOf_of_not_block ho, forksOf_of_not_block ho, List.nil_append, Nat.add_zero,
            List.append_assoc]
          exact List.Perm.append_left _ (flats_done os h)

end

mutual

theorem conns_bodyIn (st : Stmt) (hst : st.isBlock) (forkId : ℕ) :
    (conns (bodyIn m st (doneOf it st forkId))).Perm
      ((blocksOf m st forkId).flatMap fun b => conns (outOf it b).body) := by
  cases st with
  | block kind s =>
      by_cases hopen : kind.opens m
      · rw [bodyIn_block hopen, blocksOf, if_pos hopen, List.flatMap_cons]
        exact conns_bodies s (done_body it (s, forkId))
      · obtain ⟨hbody, -, hblocks⟩ := not_opened s forkId
          (doneOf it (.block kind s) forkId) hopen
        rw [hbody, hblocks, doneOf]
        exact .nil
  | _ => cases hst

theorem conns_bodies (os : List Stmt) {forkId : ℕ} {sts : List Stmt} (h : Done it os forkId sts) :
    (conns (bodies m os sts)).Perm
      (conns sts ++ (inner m os forkId).flatMap fun b => conns (outOf it b).body) := by
  cases os with
  | nil =>
      cases h
      rw [bodies, inner, List.flatMap_nil, List.append_nil]
      intro _ _ _ _ h
      cases h
  | cons o os =>
      cases h with
      | @block kind s _ _ sts h =>
          have hnil : conns [doneOf it (.block kind s) forkId] = [] := by
            rw [doneOf]
            rfl
          rw [bodies, inner, conns_append, List.flatMap_append, ← List.singleton_append,
            conns_append _ sts, hnil, List.nil_append]
          refine ((conns_bodyIn (.block kind s) rfl forkId).append (conns_bodies os h)).trans ?_
          exact List.perm_append_comm_assoc ..
      | @plain _ st ho hst _ _ sts h =>
          have hcons : conns (st :: sts) = conns [st] ++ conns sts := conns_append [st] sts
          rw [bodies, inner, bodyIn_of_not_block ho, blocksOf_of_not_block ho,
            forksOf_of_not_block ho, List.nil_append, Nat.add_zero, conns_append, hcons,
            List.append_assoc]
          exact List.Perm.append_left _ (conns_bodies os h)

end

/-- The statements of a block that are not opened, with what has become of them. -/
def pairs (m : Mode) (os sts : List Stmt) : List (Stmt × Stmt) :=
  (os.zip sts).filter fun p => !p.1.opened m

mutual

theorem zip_bodyIn (st : Stmt) (hst : st.isBlock) (forkId : ℕ) :
    (flatOf m st).length = (bodyIn m st (doneOf it st forkId)).length ∧
      ((flatOf m st).zip (bodyIn m st (doneOf it st forkId))).Perm
        (pairs m [st] [doneOf it st forkId] ++
          (blocksOf m st forkId).flatMap fun b => pairs m b.1 (outOf it b).body) := by
  cases st with
  | block kind s =>
      by_cases hopen : kind.opens m
      · have hpairs : pairs m [.block kind s] [doneOf it (.block kind s) forkId] = [] := by
          simp [pairs, Stmt.opened, hopen]
        rw [bodyIn_block hopen, hpairs, flatOf, if_pos hopen, blocksOf, if_pos hopen,
          List.flatMap_cons]
        exact zip_bodies s (done_body it (s, forkId))
      · have hpairs : pairs m [.block kind s] [doneOf it (.block kind s) forkId] =
            [(.block kind s, doneOf it (.block kind s) forkId)] := by
          simp [pairs, Stmt.opened, hopen]
        obtain ⟨hbody, hflat, hblocks⟩ := not_opened s forkId
          (doneOf it (.block kind s) forkId) hopen
        rw [hbody, hflat, hblocks, hpairs]
        exact ⟨rfl, .refl _⟩
  | _ => cases hst

/-- **What has become of the statements of a scope**, block by block. -/
theorem zip_bodies (os : List Stmt) {forkId : ℕ} {sts : List Stmt} (h : Done it os forkId sts) :
    (flats m os).length = (bodies m os sts).length ∧ ((flats m os).zip (bodies m os sts)).Perm
      (pairs m os sts ++
        (inner m os forkId).flatMap fun b => pairs m b.1 (outOf it b).body) := by
  have hcons : ∀ (o st : Stmt) (os sts : List Stmt),
      pairs m (o :: os) (st :: sts) = pairs m [o] [st] ++ pairs m os sts := by
    intro o st os sts
    rw [pairs, pairs, pairs, List.zip_cons_cons, ← List.singleton_append, List.filter_append]
    rfl
  cases os with
  | nil =>
      cases h
      rw [flats, bodies, inner]
      · exact ⟨rfl, .refl _⟩
      · intro _ _ _ _ h
        cases h
  | cons o os =>
      cases h with
      | @block kind s _ _ sts h =>
          obtain ⟨hlength, hzip⟩ := zip_bodyIn (.block kind s) rfl forkId
          obtain ⟨hlength', hzip'⟩ := zip_bodies os h
          rw [flats, bodies, inner, List.length_append, List.length_append, hlength, hlength',
            List.zip_append hlength, hcons, List.flatMap_append, List.append_assoc]
          refine ⟨rfl, (hzip.append hzip').trans ?_⟩
          rw [List.append_assoc]
          exact List.Perm.append_left _ (List.perm_append_comm_assoc ..)
      | @plain _ st ho hst _ _ sts h =>
          obtain ⟨hlength', hzip'⟩ := zip_bodies os h
          have hpair : pairs m [o] [st] = [(o, st)] := by
            simp [pairs, opened_of_not_block ho]
          rw [flats, bodies, inner, flatOf_of_not_block ho, bodyIn_of_not_block ho,
            blocksOf_of_not_block ho, forksOf_of_not_block ho, List.nil_append, Nat.add_zero, hcons,
            hpair]
          exact ⟨congrArg Nat.succ hlength', hzip'.cons (o, st)⟩

end

end Desugar
end Floem
