import Floem.Desugar.Clean

/-!
# Forks in all blocks

* `Kept` — what a program keeps when forks are inserted, in all of its scopes.
* `Clean` — a program whose blocks finish and whose scopes are clean.
* `insertFork_eq_some` — what becomes of the program, and of the one that was given.
* `insertFork_iff` — a program is kept exactly if it is clean.
* `two_orders_fail` — a program that is not.
-/

namespace Floem
namespace Desugar

open Lib

/-! ## Blocks and scopes of a program -/

def Kind.isComposite : Kind → Bool
  | composite _ => true
  | _ => false

mutual

def allOf : Stmt → List (List Stmt)
  | .block _ s => s :: allIn s
  | _ => []

/-- The blocks in these statements, compiled or not. -/
def allIn : List Stmt → List (List Stmt)
  | [] => []
  | st :: sts => allOf st ++ allIn sts

end

mutual

def scopesOf (m : Mode) : Stmt → ℕ → List Block
  | .block kind s, forkId =>
    if kind.opens m then scopesIn m s forkId
    else if kind.isComposite then (s, forkId) :: scopesIn m s forkId else []
  | _, _ => []

/-- The scopes in these statements: the programs of the composites. -/
def scopesIn (m : Mode) : List Stmt → ℕ → List Block
  | [], _ => []
  | st :: sts, forkId => scopesOf m st forkId ++ scopesIn m sts (forkId + forksOf st)

end

mutual

def afterOf (m : Mode) : Stmt → Stmt → List (List Stmt × List Stmt)
  | .block kind s, st =>
    if kind.opens m then afterIn m s (bodyOf s st.inside)
    else if kind.isComposite then (s, st.inside) :: afterIn m s (bodyOf s st.inside) else []
  | _, _ => []

/-- The scopes in these statements, with what they have become. -/
def afterIn (m : Mode) : List Stmt → List Stmt → List (List Stmt × List Stmt)
  | o :: os, st :: sts => afterOf m o st ++ afterIn m os sts
  | _, _ => []

end

/-- A scope, from the statements of its program before and afterwards. -/
def KeptScope (m : Mode) (s out : List Stmt) : Prop :=
  Preserved (flats m s) (flats m out) (bodies m s (bodyOf s out))

/-- **What a program keeps**: its connections, orders and other statements, in the program and in
those of its composites; and the program that was given is the same. -/
structure Kept (s : List Stmt) (r : Forked (List Stmt)) : Prop where
  given : r.given = s
  program : ∀ m, KeptScope m s r.clone
  composites : ∀ m, ∀ p ∈ afterIn m s (bodyOf s r.clone), KeptScope m p.1 p.2

/-- **A clean program.** -/
structure Clean (it : Iteration) (s : List Stmt) (forkId : ℕ) : Prop where
  finishes : ∀ t ∈ s :: allIn s, Finishes it t
  program : ∀ m, CleanScope it m (s, forkId)
  composites : ∀ m, ∀ r ∈ scopesIn m s forkId, CleanScope it m r

variable {it : Iteration} {m : Mode} {s : List Stmt} {forkId : ℕ} {b r : Block}

/-! ## The scopes afterwards -/

mutual

theorem afterOf_doneOf (st : Stmt) (hst : st.isBlock) (forkId : ℕ) :
    afterOf m st (doneOf it st forkId) =
      (scopesOf m st forkId).map fun b => (b.1, (outOf it b).statements) := by
  cases st with
  | block kind s =>
      have hin := afterIn_done s (done_body it (s, forkId))
      rw [← bodyOf_outOf] at hin
      rw [doneOf, afterOf, scopesOf, Stmt.inside]
      split_ifs
      · exact hin
      · exact congrArg _ hin
      · rfl
  | _ => cases hst

/-- **The scopes afterwards.** -/
theorem afterIn_done (os : List Stmt) {forkId : ℕ} {sts : List Stmt}
    (h : Done it os forkId sts) :
    afterIn m os sts =
      (scopesIn m os forkId).map fun b => (b.1, (outOf it b).statements) := by
  cases os with
  | nil =>
      cases h
      rw [afterIn, scopesIn, List.map_nil]
      intro _ _ _ _ h
      cases h
  | cons o os =>
      cases h with
      | block kind s _ h =>
          rw [afterIn, scopesIn, List.map_append, afterIn_done os h,
            afterOf_doneOf (.block kind s) rfl forkId]
      | @plain _ st ho hst _ _ sts h =>
          have hnone : afterOf m o st = [] ∧ scopesOf m o forkId = [] := by
            cases o with
            | block kind s => exact absurd rfl ho
            | _ => simp [afterOf, scopesOf]
          rw [afterIn, scopesIn, hnone.1, hnone.2, forksOf_of_not_block ho, Nat.add_zero]
          exact afterIn_done os h

end

theorem keptScope_iff (hends : ∀ b ∈ blocks m r.1 r.2, Finishes it b.1) :
    KeptScope m r.1 (outOf it r).statements ↔ CleanScope it m r := by
  rw [KeptScope, bodyOf_outOf]
  exact ⟨clean_of_preserved hends, preserved_of_clean hends⟩

/-! ## All blocks -/

mutual

theorem mem_allOf (st : Stmt) (forkId : ℕ) (h : b ∈ blocksOf m st forkId) : b.1 ∈ allOf st := by
  cases st with
  | block kind s =>
      rw [blocksOf] at h
      rw [allOf]
      split_ifs at h
      · obtain rfl | h := List.mem_cons.1 h
        · exact List.mem_cons_self
        · exact List.mem_cons_of_mem _ (mem_allIn s forkId h)
      · cases h
  | _ => simp [blocksOf] at h

theorem mem_allIn (s : List Stmt) (forkId : ℕ) (h : b ∈ inner m s forkId) : b.1 ∈ allIn s := by
  cases s with
  | nil => simp [inner] at h
  | cons st sts =>
      rw [inner, List.mem_append] at h
      rw [allIn, List.mem_append]
      exact h.imp (mem_allOf st forkId) (mem_allIn sts _)

end

mutual

theorem mem_allOf_of_scope (st : Stmt) (forkId : ℕ) (h : b ∈ scopesOf m st forkId)
    {t : List Stmt} (ht : t ∈ b.1 :: allIn b.1) : t ∈ allOf st := by
  cases st with
  | block kind s =>
      rw [scopesOf] at h
      rw [allOf]
      split_ifs at h
      · exact List.mem_cons_of_mem _ (mem_allIn_of_scope s forkId h ht)
      · obtain rfl | h := List.mem_cons.1 h
        · exact ht
        · exact List.mem_cons_of_mem _ (mem_allIn_of_scope s forkId h ht)
      · cases h
  | _ => simp [scopesOf] at h

/-- The blocks of a scope are among all blocks. -/
theorem mem_allIn_of_scope (s : List Stmt) (forkId : ℕ) (h : b ∈ scopesIn m s forkId)
    {t : List Stmt} (ht : t ∈ b.1 :: allIn b.1) : t ∈ allIn s := by
  cases s with
  | nil => simp [scopesIn] at h
  | cons st sts =>
      rw [scopesIn, List.mem_append] at h
      rw [allIn, List.mem_append]
      exact h.imp (fun h => mem_allOf_of_scope st forkId h ht)
        fun h => mem_allIn_of_scope sts _ h ht

end

theorem finishes_blocks (h : ∀ t ∈ r.1 :: allIn r.1, Finishes it t) :
    ∀ b ∈ blocks m r.1 r.2, Finishes it b.1 := by
  intro b hb
  obtain rfl | hb := List.mem_cons.1 hb
  · exact h _ List.mem_cons_self
  · exact h _ (List.mem_cons_of_mem _ (mem_allIn r.1 r.2 hb))

/-- **The scopes of a program** are kept exactly if they are clean. -/
theorem scopes_iff (hends : ∀ t ∈ s :: allIn s, Finishes it t) :
    (∀ m, KeptScope m s (outOf it (s, forkId)).statements) ∧
        (∀ m, ∀ p ∈ afterIn m s (bodyOf s (outOf it (s, forkId)).statements), KeptScope m p.1 p.2) ↔
      (∀ m, CleanScope it m (s, forkId)) ∧ ∀ m, ∀ r ∈ scopesIn m s forkId, CleanScope it m r := by
  refine and_congr (forall_congr' fun m => ?_) (forall_congr' fun m => ?_)
  · exact keptScope_iff (r := (s, forkId)) (finishes_blocks hends)
  · have hbody := bodyOf_outOf it (s, forkId)
    rw [hbody, afterIn_done s (done_body it (s, forkId)), List.forall_mem_map]
    refine forall_congr' fun r => forall_congr' fun hr => ?_
    exact keptScope_iff (finishes_blocks fun t ht =>
      hends t (List.mem_cons_of_mem _ (mem_allIn_of_scope s forkId hr ht)))

/-! ## The program that was given -/

variable (it) in
mutual

/-- What a statement that was given has become. -/
def givenOf : Stmt → ℕ → Stmt
  | .block kind s, forkId =>
    .block kind (List.zipWith shared (givens s forkId) (outOf it (s, forkId)).body)
  | st, _ => st

def givens : List Stmt → ℕ → List Stmt
  | [], _ => []
  | st :: sts, forkId => givenOf st forkId :: givens sts (forkId + forksOf st)

end

variable (it) in
theorem givens_blocky (s : List Stmt) (forkId : ℕ) :
    List.Forall₂ Blocky s (givens it s forkId) := by
  induction s generalizing forkId with
  | nil =>
      rw [givens]
      exact .nil
  | cons st sts ih =>
      rw [givens]
      refine .cons ?_ (ih _)
      cases st with
      | block kind s =>
          rw [givenOf]
          exact Or.inr ⟨_, _, _, rfl, rfl⟩
      | _ =>
          simp only [givenOf]
          exact Or.inl rfl

/-- No list of the block has changed. -/
theorem shared_iff (hsmooth : Smooth b.1 (forked it b.1)) :
    List.zipWith shared b.1 (outOf it b).body = b.1 ↔ Finishes it b.1 := by
  constructor
  · refine fun hshared => ⟨hsmooth, fun k hk j as c horder ho => ?_⟩
    obtain ⟨o, i, hblocky, ⟨_, hne⟩ | ⟨k', f, hf, _, hx, hbody⟩⟩ :=
      body_cases b.first (dones_blocky b.1 b.2) hsmooth ho
    · exact hne k hk horder
    · obtain rfl : o = .resourceOrder (.several as) c :=
        hblocky.eq_of_not_block fun _ _ h => by cases h
      have hplace := congrArg (fun l : List Stmt => l[j]?) hshared
      have hst : (outOf it b).body[j]? =
          some (.resourceOrder (.several (as.replace k'.1 f)) c) := hbody
      simp only [List.getElem?_zipWith, ho, hst] at hplace
      obtain ⟨i, _, rfl⟩ := Block.names_eq_some.1 hf
      exact replace_ne hx (forkInst_ne k' i)
        (Names.several.inj (Stmt.resourceOrder.inj (Option.some.inj hplace)).1)
  · refine fun hends => List.ext_getElem? fun j => ?_
    rw [List.getElem?_zipWith]
    cases ho : b.1[j]? with
    | none => rfl
    | some o =>
        obtain ⟨st, hst⟩ := exists_body it ho
        rw [hst]
        refine congrArg some ?_
        cases o with
        | resourceOrder a c =>
            obtain ⟨rfl, _⟩ | ⟨k, f, _, _, rfl, rfl⟩ := order_cases hends ho hst
            · cases a <;> rfl
            · rfl
        | _ => rfl

/-- A change of a list on the left side of an order is all there is. -/
theorem zipWith_shared_iff {gs : List Stmt} (hgs : List.Forall₂ Blocky b.1 gs)
    (hsmooth : Smooth b.1 (forked it b.1)) :
    List.zipWith shared gs (outOf it b).body = b.1 ↔ gs = b.1 ∧ Finishes it b.1 := by
  constructor
  · intro h
    have hsame : gs = b.1 := by
      refine List.ext_getElem? fun j => ?_
      cases ho : b.1[j]? with
      | none =>
          rw [List.getElem?_eq_none_iff] at ho ⊢
          rwa [← hgs.length_eq]
      | some o =>
          obtain ⟨g, hg, hblocky⟩ := forall₂_getElem? hgs ho
          obtain ⟨st, hst⟩ := exists_body it ho
          have hplace := congrArg (fun l : List Stmt => l[j]?) h
          simp only [List.getElem?_zipWith, ho, hg, hst] at hplace
          rw [hg]
          obtain rfl | ⟨kind, t, t', rfl, rfl⟩ := hblocky
          · rfl
          · exact hplace
    rw [hsame, shared_iff hsmooth] at h
    exact ⟨hsame, h⟩
  · rintro ⟨hsame, hends⟩
    rw [hsame]
    exact (shared_iff hsmooth).2 hends

mutual

theorem givenOf_iff (st : Stmt) (forkId : ℕ)
    (hsmooth : ∀ t ∈ allOf st, Smooth t (forked it t)) :
    givenOf it st forkId = st ↔ ∀ t ∈ allOf st, Finishes it t := by
  cases st with
  | block kind s =>
      rw [allOf] at hsmooth
      have hinner := givens_iff s forkId fun t ht => hsmooth t (List.mem_cons_of_mem _ ht)
      have hblock := zipWith_shared_iff (b := (s, forkId)) (givens_blocky it s forkId)
        (hsmooth s List.mem_cons_self)
      rw [givenOf, allOf, List.forall_mem_cons, ← hinner, and_comm, ← hblock]
      exact ⟨fun h => (Stmt.block.inj h).2, fun h => congrArg _ h⟩
  | _ => simp [givenOf, allOf]

/-- **The program that was given is the same** exactly if no list of it has changed. -/
theorem givens_iff (s : List Stmt) (forkId : ℕ)
    (hsmooth : ∀ t ∈ allIn s, Smooth t (forked it t)) :
    givens it s forkId = s ↔ ∀ t ∈ allIn s, Finishes it t := by
  cases s with
  | nil => simp [givens, allIn]
  | cons st sts =>
      rw [allIn] at hsmooth
      rw [givens, allIn, List.forall_mem_append, List.cons.injEq, givenOf_iff st forkId,
        givens_iff sts]
      · exact fun t ht => hsmooth t (List.mem_append_right _ ht)
      · exact fun t ht => hsmooth t (List.mem_append_left _ ht)

end

/-! ## All blocks -/

theorem finishBlock_eq_some {r : Forked (List Stmt)} :
    finishBlock it s ⟨dones it s forkId, givens it s forkId, forkId + forksIn s⟩ = some r ↔
      Smooth s (forked it s) ∧
        r = ⟨(outOf it (s, forkId)).statements,
          List.zipWith shared (givens it s forkId) (outOf it (s, forkId)).body,
          forkId + (forksIn s + forkCount s)⟩ := by
  have hlength : (forked it s).length = forkCount s := length_forked
  rw [← hlength, ← Nat.add_assoc]
  simp only [finishBlock, Option.bind_eq_bind, Option.bind_eq_some_iff, forkLoop_eq_some,
    Option.pure_def, Option.some.injEq]
  constructor
  · rintro ⟨l, ⟨hsmooth, rfl⟩, rfl⟩
    exact ⟨hsmooth, rfl⟩
  · rintro ⟨hsmooth, rfl⟩
    exact ⟨_, ⟨hsmooth, rfl⟩, rfl⟩

mutual

theorem insertForkOther_eq_some (st : Stmt) (forkId : ℕ) {r : Forked Stmt} :
    insertForkOther it st forkId = some r ↔
      (∀ t ∈ allOf st, Smooth t (forked it t)) ∧
        r = ⟨doneOf it st forkId, givenOf it st forkId, forkId + forksOf st⟩ := by
  cases st with
  | block kind s =>
      simp only [insertForkOther, Option.bind_eq_bind, Option.bind_eq_some_iff,
        Option.pure_def, Option.some.injEq, insertForkOthers_eq_some s forkId]
      rw [allOf, List.forall_mem_cons, doneOf, givenOf, forksOf]
      constructor
      · rintro ⟨_, ⟨hinner, rfl⟩, r', hr', rfl⟩
        obtain ⟨hsmooth, rfl⟩ := finishBlock_eq_some.1 hr'
        exact ⟨⟨hsmooth, hinner⟩, rfl⟩
      · rintro ⟨⟨hsmooth, hinner⟩, rfl⟩
        exact ⟨_, ⟨hinner, rfl⟩, _, finishBlock_eq_some.2 ⟨hsmooth, rfl⟩, rfl⟩
  | _ => simp [insertForkOther, allOf, doneOf, givenOf, forksOf, eq_comm]

theorem insertForkOthers_eq_some (s : List Stmt) (forkId : ℕ) {r : Forked (List Stmt)} :
    insertForkOthers it s forkId = some r ↔
      (∀ t ∈ allIn s, Smooth t (forked it t)) ∧
        r = ⟨dones it s forkId, givens it s forkId, forkId + forksIn s⟩ := by
  cases s with
  | nil => simp [insertForkOthers, allIn, dones, givens, forksIn, eq_comm]
  | cons st sts =>
      simp only [insertForkOthers, Option.bind_eq_bind, Option.bind_eq_some_iff,
        Option.pure_def, Option.some.injEq, insertForkOther_eq_some st forkId]
      rw [allIn, List.forall_mem_append, dones, givens, forksIn, ← Nat.add_assoc]
      constructor
      · rintro ⟨_, ⟨hfirst, rfl⟩, rs, hrs, rfl⟩
        obtain ⟨hrest, rfl⟩ := (insertForkOthers_eq_some sts _).1 hrs
        exact ⟨⟨hfirst, hrest⟩, rfl⟩
      · rintro ⟨⟨hfirst, hrest⟩, rfl⟩
        exact ⟨_, ⟨hfirst, rfl⟩, _, (insertForkOthers_eq_some sts _).2 ⟨hrest, rfl⟩, rfl⟩

end

/-- **What becomes of a program**, and of the one that was given. -/
theorem insertFork_eq_some {r : Forked (List Stmt)} : insertFork it s forkId = some r ↔
    (∀ t ∈ s :: allIn s, Smooth t (forked it t)) ∧
      r = ⟨(outOf it (s, forkId)).statements,
        List.zipWith shared (givens it s forkId) (outOf it (s, forkId)).body,
        forkId + (forksIn s + forkCount s)⟩ := by
  simp only [insertFork, Option.bind_eq_bind, Option.bind_eq_some_iff,
    insertForkOthers_eq_some s forkId]
  rw [List.forall_mem_cons]
  constructor
  · rintro ⟨_, ⟨hinner, rfl⟩, hr⟩
    obtain ⟨hsmooth, rfl⟩ := finishBlock_eq_some.1 hr
    exact ⟨⟨hsmooth, hinner⟩, rfl⟩
  · rintro ⟨⟨hsmooth, hinner⟩, rfl⟩
    exact ⟨_, ⟨hinner, rfl⟩, finishBlock_eq_some.2 ⟨hsmooth, rfl⟩⟩

/-- The program that was given is the same exactly if every block finishes. -/
theorem given_iff (hsmooth : ∀ t ∈ s :: allIn s, Smooth t (forked it t)) :
    List.zipWith shared (givens it s forkId) (outOf it (s, forkId)).body = s ↔
      ∀ t ∈ s :: allIn s, Finishes it t := by
  have hblock := zipWith_shared_iff (b := (s, forkId)) (givens_blocky it s forkId)
    (hsmooth s List.mem_cons_self)
  rw [List.forall_mem_cons, and_comm,
    ← givens_iff s forkId fun t ht => hsmooth t (List.mem_cons_of_mem _ ht)]
  exact hblock

/-- **Forks keep a program** exactly if it is clean. -/
theorem insertFork_iff (it : Iteration) (s : List Stmt) (forkId : ℕ) :
    (∃ r, insertFork it s forkId = some r ∧ Kept s r) ↔ Clean it s forkId := by
  simp only [insertFork_eq_some]
  constructor
  · rintro ⟨_, ⟨hsmooth, rfl⟩, hgiven, hprogram, hcomposites⟩
    have hends := (given_iff hsmooth).1 hgiven
    obtain ⟨hprogram, hcomposites⟩ := (scopes_iff hends).1 ⟨hprogram, hcomposites⟩
    exact ⟨hends, hprogram, hcomposites⟩
  · rintro ⟨hends, hprogram, hcomposites⟩
    have hsmooth := fun t ht => (hends t ht).smooth
    obtain ⟨hprogram, hcomposites⟩ := (scopes_iff hends).2 ⟨hprogram, hcomposites⟩
    exact ⟨_, ⟨hsmooth, rfl⟩, (given_iff hsmooth).2 hends, hprogram, hcomposites⟩

/-! ## Two orders -/

def keyOrder : Iteration := ⟨id, List.Perm.refl⟩

/-- Two instances, each with a port that is connected twice and with an order. -/
def twoOrders : List Stmt :=
  [.element ⟨"Src", [], [⟨"out", ["int"]⟩], "output { out(1); }"⟩,
    .elementInstance "Src" "a" [], .elementInstance "Src" "b" [],
    .connect "a" "c" (some "out") (some "in"), .connect "a" "d" (some "out") (some "in"),
    .connect "b" "c" (some "out") (some "in"), .connect "b" "d" (some "out") (some "in"),
    .resourceMap "t" "a", .resourceMap "t" "b",
    .resourceOrder (.single "a") "c", .resourceOrder (.single "b") "d"]

/-- When the first order has been adjusted, the second fork cannot be inserted. -/
theorem two_orders_fail : ¬ ∃ r, insertFork keyOrder twoOrders 0 = some r ∧ Kept twoOrders r := by
  rintro ⟨r, hr, _⟩
  have hnone : insertFork keyOrder twoOrders 0 = none := by decide +kernel
  rw [hnone] at hr
  cases hr

end Desugar
end Floem
