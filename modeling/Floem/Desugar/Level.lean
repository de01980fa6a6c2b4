import Mathlib
import Floem.Desugar.Fork
import Floem.Lib.Fanout
import Floem.Lib.Names

/-!
# The forks of one block

* `conns` — the connections of a block as pairs of a source and a destination.
* `forked`, `inserted` — the ports that are forked, and the instances of their forks.
* `Ready` — the loop comes to its end.
* `forkLoop_eq` — what the loop makes of the block.
-/

namespace Floem
namespace Desugar

open Lib

/-! ## Connections -/

/-- An instance and an input port of it. -/
abbrev Dest := String × Option String

namespace Stmt

def conn? : Stmt → Option (Key × Dest)
  | connect ele1 ele2 out1 in2 => some ((ele1, out1), (ele2, in2))
  | _ => none

theorem key?_eq (st : Stmt) : st.key? = st.conn?.map Prod.fst := by cases st <;> rfl

theorem conn?_redirect (st : Stmt) (f : String) (i : ℕ) :
    (st.redirect f i).conn? =
      st.conn?.map fun c => ((f, some ("out" ++ toString i)), c.2) := by
  cases st <;> rfl

theorem conn?_adjust (st : Stmt) (inst f : String) : (st.adjust inst f).conn? = st.conn? := by
  cases st <;> rfl

theorem adjust_redirect (st : Stmt) (inst f g : String) (i : ℕ) :
    (st.redirect g i).adjust inst f = (st.adjust inst f).redirect g i := by
  cases st <;> rfl

end Stmt

/-- The connections of a block. -/
def conns (s : List Stmt) : List (Key × Dest) := s.filterMap Stmt.conn?

theorem keys_eq (s : List Stmt) : s.filterMap Stmt.key? = (conns s).map Prod.fst := by
  rw [conns, List.map_filterMap]
  exact List.filterMap_congr fun st _ => st.key?_eq

theorem fanout_eq (s : List Stmt) (k : Key) : fanout s k = ((conns s).map Prod.fst).count k := by
  rw [fanout, keys_eq]

theorem mem_keys {s : List Stmt} {k : Key} : k ∈ keys s ↔ k ∈ (conns s).map Prod.fst := by
  rw [keys, List.mem_dedup, keys_eq]

/-! ## The ports that are forked -/

variable (it : Iteration)

/-- The ports that are forked, in the order of the loop. -/
def forked (s : List Stmt) : List Key := (it.order (keys s)).filter fun k => 1 < fanout s k

/-- The instance of the fork with this number. -/
def forkInst (k : Key) (forkId : ℕ) : String := forkName k.1 (k.2.getD "") forkId ++ "_inst"

/-- The instance of the fork of a port, if these ports are forked one after the other. -/
def newName (ks : List Key) (forkId : ℕ) (k : Key) : Option String :=
  if k ∈ ks then some (forkInst k (forkId + ks.idxOf k)) else none

variable {it}

theorem mem_forked {s : List Stmt} {k : Key} : k ∈ forked it s ↔ 1 < fanout s k := by
  rw [forked, List.mem_filter, (it.perm _).mem_iff, mem_keys, decide_eq_true_eq]
  refine ⟨And.right, fun h => ⟨?_, h⟩⟩
  rw [fanout_eq] at h
  exact List.count_pos_iff.1 (Nat.lt_of_succ_lt h)

theorem forked_nodup (s : List Stmt) : (forked it s).Nodup :=
  ((it.perm _).nodup_iff.2 (List.nodup_dedup _)).filter _

theorem newName_concat (ks : List Key) {k : Key} (hk : k ∉ ks) (forkId : ℕ) :
    newName (ks ++ [k]) forkId =
      Function.update (newName ks forkId) k (some (forkInst k (forkId + ks.length))) := by
  funext k'
  by_cases hsame : k' = k
  · subst hsame
    rw [Function.update_self, newName, if_pos (List.mem_concat_self ..),
      List.idxOf_append_of_notMem hk, List.idxOf_cons_self, Nat.add_zero]
  · rw [Function.update_of_ne hsame, newName, newName]
    by_cases hmem : k' ∈ ks
    · rw [if_pos hmem, if_pos (List.mem_append_left _ hmem), List.idxOf_append_of_mem hmem]
    · rw [if_neg hmem, if_neg]
      simpa [hsame] using hmem

theorem newName_eq_none {ks : List Key} {forkId : ℕ} {k : Key} :
    newName ks forkId k = none ↔ k ∉ ks := by
  simp [newName]

theorem forkInst_inj {k k' : Key} {i j : ℕ} (h : forkInst k i = forkInst k' j) : i = j :=
  numbered_inside_inj (show "_fork".toList = "_for".toList ++ ['k'] by decide) (by decide)
    (a := k.1 ++ "_" ++ k.2.getD "") (b := k'.1 ++ "_" ++ k'.2.getD "") h

theorem forkInst_ne (k : Key) (i : ℕ) : forkInst k i ≠ k.1 := by
  have h := append_ne_self k.1 (t := "_" ++ k.2.getD "" ++ "_fork" ++ toString i ++ "_inst")
    (by simp)
  simpa only [forkInst, forkName, String.append_assoc] using h

/-! ## Redirected connections -/

/-- The connections of the ports that `new` knows come from the new names. -/
def redirectAll (new : Key → Option String) : List Key → List Stmt → List Stmt → List Stmt
  | seen, o :: os, st :: sts =>
    match o.key? with
    | some k =>
      (match new k with
        | some f => st.redirect f (seen.count k + 1)
        | none => st) :: redirectAll new (k :: seen) os sts
    | none => st :: redirectAll new seen os sts
  | _, _, sts => sts

theorem redirectKey_redirectAll {new : Key → Option String} {k : Key} (f : String)
    (hk : new k = none) (seen : List Key) (os sts : List Stmt) :
    redirectKey k f (seen.count k + 1) os (redirectAll new seen os sts) =
      redirectAll (Function.update new k (some f)) seen os sts := by
  induction os generalizing seen sts with
  | nil => rw [redirectAll, redirectAll, redirectKey] <;> simp
  | cons o os ih =>
      cases sts with
      | nil => rw [redirectAll, redirectAll, redirectKey] <;> simp
      | cons st sts =>
          cases ho : o.key? with
          | none =>
              simp only [redirectAll, ho, redirectKey, reduceCtorEq, if_false]
              rw [ih]
          | some k' =>
              by_cases hkk : k' = k
              · subst hkk
                simp only [redirectAll, ho, redirectKey, if_true, hk, Function.update_self]
                rw [← ih, List.count_cons_self]
              · simp only [redirectAll, ho, redirectKey, Option.some.injEq, hkk, if_false,
                  Function.update_of_ne hkk]
                rw [← ih, List.count_cons_of_ne hkk]

theorem redirectAll_none (seen : List Key) (os sts : List Stmt) :
    redirectAll (fun _ => none) seen os sts = sts := by
  induction os generalizing seen sts with
  | nil => rw [redirectAll]; simp
  | cons o os ih =>
      cases sts with
      | nil => rw [redirectAll]; simp
      | cons st sts => cases ho : o.key? <;> simp [redirectAll, ho, ih]

/-- An order is adjusted before or after the connections. -/
theorem modify_redirectAll (new : Key → Option String) (inst f : String) (j : ℕ)
    (seen : List Key) (os sts : List Stmt) :
    (redirectAll new seen os sts).modify j (Stmt.adjust inst f) =
      redirectAll new seen os (sts.modify j (Stmt.adjust inst f)) := by
  induction os generalizing seen sts j with
  | nil => rw [redirectAll, redirectAll] <;> simp
  | cons o os ih =>
      cases sts with
      | nil => rw [redirectAll, List.modify_nil, redirectAll] <;> simp
      | cons st sts =>
          cases ho : o.key? with
          | none => cases j <;> simp [redirectAll, ho, ih]
          | some k =>
              cases hnew : new k <;> cases j <;>
                simp [redirectAll, ho, hnew, ih, Stmt.adjust_redirect]

/-- The names of the ports of a fork. -/
def outPort (i : ℕ) : Option String := some ("out" ++ toString i)

theorem outPort_injective : Function.Injective outPort := fun _ _ h =>
  numbered_inj "out" (Option.some.inj h)

/-- The connections are split, if the statements have the connections they had. -/
theorem conns_redirectAll (new : Key → Option String) (seen : List Key) {os sts : List Stmt}
    (h : List.Forall₂ (fun o st => Stmt.conn? st = Stmt.conn? o) os sts) :
    conns (redirectAll new seen os sts) = split new outPort seen (conns os) := by
  induction h generalizing seen with
  | nil => rfl
  | @cons o st os sts hst _ ih =>
      cases ho : o.conn? with
      | none =>
          have hkey : o.key? = none := by rw [Stmt.key?_eq, ho, Option.map_none]
          simp only [redirectAll, hkey]
          rw [conns, List.filterMap_cons_none (by rw [hst, ho]), conns,
            List.filterMap_cons_none ho]
          exact ih seen
      | some c =>
          have hkey : o.key? = some c.1 := by rw [Stmt.key?_eq, ho, Option.map_some]
          simp only [redirectAll, hkey]
          rw [show conns (o :: os) = c :: conns os from List.filterMap_cons_some ho]
          cases hnew : new c.1 with
          | some f =>
              have hconn : (st.redirect f (seen.count c.1 + 1)).conn? =
                  some ((f, outPort (seen.count c.1 + 1)), c.2) := by
                rw [Stmt.conn?_redirect, hst, ho, Option.map_some, outPort]
              rw [split_cons_some hnew, ← ih, conns]
              exact List.filterMap_cons_some (by simpa only using hconn)
          | none =>
              rw [split_cons_none hnew, ← ih, conns]
              exact List.filterMap_cons_some (hst.trans ho)

end Desugar
end Floem
