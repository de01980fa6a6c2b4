import Floem.Cache.Flows
import Floem.Lib.Owner

/-!
# Locks and items of a cache

* `Instr.holds`, `Instr.hands` — the locks that an instruction gives back, and the items it
  still has to insert or to free.
* `Inv` — the invariant: every lock is held by the thread that gives it back, and every item
  is in the table, in the hands of one flow, freed, or lost.
* `Kept` — the steps that lose no item.
* `Leaves` — what an instruction leaves has its locks and items.
-/

namespace Floem
namespace Cache
namespace Flows

open Lib

variable {K V T σ : Type*} {N : ℕ}

/-! ## What instructions are responsible for -/

/-- The item, if it was thrown out of the table. -/
def thrownOut (it : Item K V) : List ℕ := if it.evicted &&& 2 ≠ 0 then [it.addr] else []

/-- The item an operation brings. -/
def Op.brings : Op K V → List ℕ
  | .put nit => [nit.addr]
  | .putOrGet nit => [nit.addr]
  | _ => []

namespace Instr

/-- The locks that an instruction, and what it leaves, gives back. -/
def holds (index : K → ℕ) : Instr K V → List ℕ
  | .body op => [index op.key]
  | .ret _ (some it) => it.bucket.toList
  | .free (some it) => if it.evicted &&& 2 ≠ 0 then it.bucket.toList else []
  | .freeOrRelease (some it) => it.bucket.toList
  | .release it => it.bucket.toList
  | _ => []

/-- The items that an instruction, and what it leaves, still has to insert or to free. -/
def hands : Instr K V → List ℕ
  | .lock op => op.brings
  | .body op => op.brings
  | .ret _ (some it) => thrownOut it
  | .free (some it) => thrownOut it
  | .freeOrRelease (some it) => thrownOut it
  | .dispose it => [it.addr]
  | _ => []

/-- The instructions up to the return of an operation: behind them nothing has a lock or an
item. -/
def early : Instr K V → Bool
  | .lock _ => true
  | .body _ => true
  | .ret _ _ => true
  | .query => true
  | .cacheSet => true
  | .cacheSetGet => true
  | _ => false

def Idle (index : K → ℕ) (i : Instr K V) : Prop := i.holds index = [] ∧ i.hands = []

end Instr

/-- Behind an early instruction, the others are idle. -/
def Tidy (index : K → ℕ) (code : List (Instr K V)) : Prop :=
  code.Pairwise fun i j => i.early = true → j.Idle index

/-- The items of operations have their hash. -/
def Op.Ok (cfg : Config K V σ) : Op K V → Prop
  | .put nit => nit.hv = cfg.hash nit.key
  | .putOrGet nit => nit.hv = cfg.hash nit.key
  | _ => True

def Instr.Ok (cfg : Config K V σ) : Instr K V → Prop
  | .lock op => op.Ok cfg
  | .body op => op.Ok cfg
  | .ret (.delete _) (some _) => False
  | .ret op (some it) => it.bucket = some (cfg.index op.key)
  | .free (some it) => it.bucket.isSome
  | .freeOrRelease (some it) => it.bucket.isSome
  | .release it => it.bucket.isSome
  | _ => True

/-- The item at this address is among the items. -/
def At (has : Item K V → Prop) (addr : ℕ) : Prop := ∃ it, has it ∧ it.addr = addr

def freedIn (log : List (Event K V)) : List ℕ :=
  log.filterMap fun
    | .freed addr => some addr
    | _ => none

namespace State

variable (s : State N T K V σ)

/-- The locks that a thread still gives back. -/
def held (index : K → ℕ) (t : T) : List ℕ := (s.code t).flatMap (Instr.holds index)

/-- The items in the hands of the flow of a thread. -/
def hands (t : T) : List ℕ := (s.code t).flatMap Instr.hands

/-- The addresses that were freed. -/
def freed : List ℕ := freedIn s.log

end State

/-- The steps that lose no item: a lock attempt for an insertion does not fail, and without
`write_alloc` there is room in the bucket, or an item of the key. -/
def Kept (cfg : Config K V σ) (s : State N T K V σ) : Act T K V → Prop
  | .start _ _ => True
  | .go t ok =>
      match s.code t with
      | .lock (.put _) :: _ => ok = true
      | .lock (.putOrGet _) :: _ => ok = true
      | .body (.put nit) :: _ =>
          cfg.writeAlloc = false → s.table.FullAt cfg.hash cfg.nbuckets nit.key →
            ∃ it, s.table.Has it ∧ it.key = nit.key
      | _ => True

/-- The invariant; if `kept`, no item is lost. -/
structure Inv (cfg : Config K V σ) (kept : Prop) (s : State N T K V σ) : Prop where
  table : s.table.Ok cfg.hash cfg.nbuckets
  unique : ∀ x y, s.table.Has x → s.table.Has y → x.addr = y.addr → x = y
  tidy : ∀ t, Tidy cfg.index (s.code t)
  ok : ∀ t, ∀ i ∈ s.code t, i.Ok cfg
  locks : Locks s.lock (s.held cfg.index)
  owns : ∃ own, Owns own (At s.table.Has) s.hands s.freed s.fresh ∧ (kept → ∀ a, own a ≠ .lost)

/-! ## What elements leave -/

/-- What an instruction leaves has the same locks and items. -/
structure Leaves (cfg : Config K V σ) (i : Instr K V) (new : List (Instr K V)) : Prop where
  holds : new.flatMap (Instr.holds cfg.index) = i.holds cfg.index
  hands : new.flatMap Instr.hands = i.hands
  ok : ∀ n ∈ new, n.Ok cfg
  tidy : Tidy cfg.index new
  early : i.early = false → ∀ n ∈ new, n.early = false

theorem tidy_append {index : K → ℕ} {i : Instr K V} {new rest : List (Instr K V)}
    (h : Tidy index (i :: rest)) (hnew : Tidy index new)
    (hearly : i.early = false → ∀ n ∈ new, n.early = false) : Tidy index (new ++ rest) := by
  obtain ⟨hi, hrest⟩ := List.pairwise_cons.1 h
  refine List.pairwise_append.2 ⟨hnew, hrest, fun n hn j hj hnearly => ?_⟩
  cases hiearly : i.early with
  | true => exact hi j hj hiearly
  | false => rw [hearly hiearly n hn] at hnearly; cases hnearly

/-- Behind an early instruction there is nothing. -/
theorem Tidy.rest {index : K → ℕ} {i : Instr K V} {rest : List (Instr K V)}
    (h : Tidy index (i :: rest)) (hi : i.early = true) :
    rest.flatMap (Instr.holds index) = [] ∧ rest.flatMap Instr.hands = [] := by
  have hidle := (List.pairwise_cons.1 h).1
  constructor
  · exact List.flatMap_eq_nil_iff.2 fun j hj => (hidle j hj hi).1
  · exact List.flatMap_eq_nil_iff.2 fun j hj => (hidle j hj hi).2

variable (cfg : Config K V σ)

theorem thrownOut_of_ne {it : Item K V} (h : it.evicted &&& 2 ≠ 0) : thrownOut it = [it.addr] :=
  if_pos h

theorem thrownOut_of_eq {it : Item K V} (h : ¬ it.evicted &&& 2 ≠ 0) : thrownOut it = [] :=
  if_neg h

theorem tidy_of_late {index : K → ℕ} {code : List (Instr K V)}
    (h : ∀ n ∈ code, n.early = false) : Tidy index code := by
  refine List.pairwise_of_forall_mem_list fun n hn j _ hearly => ?_
  rw [h n hn] at hearly
  cases hearly

/-- Late instructions are tidy. -/
theorem leaves_of_late {i : Instr K V} {new : List (Instr K V)}
    (hholds : new.flatMap (Instr.holds cfg.index) = i.holds cfg.index)
    (hhands : new.flatMap Instr.hands = i.hands) (hok : ∀ n ∈ new, n.Ok cfg)
    (hlate : ∀ n ∈ new, n.early = false) : Leaves cfg i new :=
  ⟨hholds, hhands, hok, tidy_of_late hlate, fun _ => hlate⟩

theorem leaves_nil {i : Instr K V} (hholds : i.holds cfg.index = []) (hhands : i.hands = []) :
    Leaves cfg i [] :=
  leaves_of_late cfg hholds.symm hhands.symm (fun _ hn => absurd hn List.not_mem_nil)
    fun _ hn => absurd hn List.not_mem_nil

/-- An early instruction leaves another. -/
theorem leaves_one {i : Instr K V} (n : Instr K V) (hearly : i.early = true) (hok : n.Ok cfg)
    (hholds : n.holds cfg.index = i.holds cfg.index) (hhands : n.hands = i.hands) :
    Leaves cfg i [n] where
  holds := by rw [List.flatMap_singleton, hholds]
  hands := by rw [List.flatMap_singleton, hhands]
  ok := by simpa using hok
  tidy := List.pairwise_singleton _ _
  early hlate := by rw [hearly] at hlate; cases hlate

/-- `cache_release(it); shared_mm_free(it);` -/
theorem leaves_release_dispose {i : Instr K V} {it : Item K V} (hbucket : it.bucket.isSome)
    (hholds : i.holds cfg.index = it.bucket.toList) (hhands : i.hands = [it.addr]) :
    Leaves cfg i [.release it, .dispose it] := by
  refine leaves_of_late cfg ?_ ?_ ?_ ?_
  · rw [hholds]
    exact List.append_nil _
  · rw [hhands]
    rfl
  · simpa [Instr.Ok] using hbucket
  · simp [Instr.early]

theorem leaves_release {i : Instr K V} {it : Item K V} (hbucket : it.bucket.isSome)
    (hholds : i.holds cfg.index = it.bucket.toList) (hhands : i.hands = []) :
    Leaves cfg i [.release it] := by
  refine leaves_of_late cfg ?_ ?_ ?_ ?_
  · rw [hholds]
    exact List.append_nil _
  · rw [hhands]
    rfl
  · simpa [Instr.Ok] using hbucket
  · simp [Instr.early]

/-- The elements behind `CacheSetGet` free or release what it returned. -/
theorem leaves_afterGet {i : Instr K V} {it : Item K V} (hbucket : it.bucket.isSome)
    (hholds : i.holds cfg.index = it.bucket.toList) (hhands : i.hands = thrownOut it) :
    Leaves cfg i (cfg.afterGet (some it)) := by
  unfold Config.afterGet
  split_ifs
  all_goals
    refine leaves_of_late cfg ?_ ?_ ?_ ?_
    · rw [hholds]
      exact List.append_nil _
    · rw [hhands]
      exact List.append_nil _
    · simpa [Instr.Ok] using hbucket
    · simp [Instr.early]

theorem leaves_afterGet_none {i : Instr K V} (hholds : i.holds cfg.index = [])
    (hhands : i.hands = []) : Leaves cfg i (cfg.afterGet none) := by
  unfold Config.afterGet
  split_ifs
  all_goals
    refine leaves_of_late cfg ?_ ?_ ?_ ?_
    · rw [hholds]
      rfl
    · rw [hhands]
      rfl
    · simp [Instr.Ok]
    · simp [Instr.early]

/-- `Free` frees what was thrown out. -/
theorem leaves_afterSet {i : Instr K V} {it : Item K V} (hbucket : it.bucket.isSome)
    (hout : it.evicted &&& 2 ≠ 0) (hholds : i.holds cfg.index = it.bucket.toList)
    (hhands : i.hands = thrownOut it) : Leaves cfg i (Config.afterSet (some it)) := by
  refine leaves_of_late cfg ?_ ?_ ?_ ?_
  · rw [hholds]
    simp only [Config.afterSet, List.flatMap_cons, List.flatMap_nil, Instr.holds, if_pos hout,
      List.nil_append, List.append_nil]
  · rw [hhands]
    exact List.append_nil _
  · simpa [Config.afterSet, Instr.Ok] using hbucket
  · simp [Config.afterSet, Instr.early]

theorem leaves_afterSet_none {i : Instr K V} (hholds : i.holds cfg.index = [])
    (hhands : i.hands = []) : Leaves cfg i (Config.afterSet none) := by
  refine leaves_of_late cfg ?_ ?_ ?_ ?_
  · rw [hholds]
    rfl
  · rw [hhands]
    rfl
  · simp [Config.afterSet, Instr.Ok]
  · simp [Config.afterSet, Instr.early]

variable {cfg} in
/-- Instructions that an idle element could leave follow. -/
theorem Leaves.append {i : Instr K V} {new after : List (Instr K V)} (h : Leaves cfg i new)
    (hlate : ∀ n ∈ new, n.early = false) (hafter : Leaves cfg .out after) :
    Leaves cfg i (new ++ after) := by
  refine leaves_of_late cfg ?_ ?_ ?_ ?_
  · rw [List.flatMap_append, h.holds, hafter.holds]
    exact List.append_nil _
  · rw [List.flatMap_append, h.hands, hafter.hands]
    exact List.append_nil _
  · intro n hn
    exact (List.mem_append.1 hn).elim (h.ok n) (hafter.ok n)
  · intro n hn
    exact (List.mem_append.1 hn).elim (hlate n) (hafter.early rfl n)

/-- **The rest of an element** has the locks and the items of what its operation returned. -/
theorem leaves_returned (j : Job K V) (op : Op K V) (it : Option (Item K V))
    (hok : (Instr.ret op it).Ok cfg) :
    ∃ new, (cfg.returned j op it).code = new ++ j.code ∧ Leaves cfg (.ret op it) new := by
  cases it with
  | none =>
      cases op with
      | get key => exact ⟨[.query], rfl, leaves_one cfg .query rfl trivial rfl rfl⟩
      | put nit =>
          simp only [Config.returned]
          split_ifs
          · exact ⟨_, rfl, leaves_afterSet_none cfg rfl rfl⟩
          · exact ⟨[], rfl, leaves_nil cfg rfl rfl⟩
      | putOrGet nit => exact ⟨_, rfl, leaves_afterGet_none cfg rfl rfl⟩
      | delete key => exact ⟨[], rfl, leaves_nil cfg rfl rfl⟩
  | some it =>
      have hbucket : ∀ {idx : ℕ}, it.bucket = some idx → it.bucket.isSome := fun h => by
        rw [h]
        rfl
      cases op with
      | get key =>
          refine ⟨[.out, .freeOrRelease (some it)], rfl, leaves_of_late cfg ?_ ?_ ?_ ?_⟩
          · exact List.append_nil _
          · exact List.append_nil _
          · simpa [Instr.Ok] using hbucket hok
          · simp [Instr.early]
      | put nit =>
          simp only [Config.returned]
          split_ifs with hback hout hout
          · exact ⟨_, rfl, leaves_afterSet cfg (hbucket hok) hout rfl rfl⟩
          · have hrelease : Leaves cfg (.ret (.put nit) (some it)) [.release it] :=
              leaves_release cfg (hbucket hok) rfl (thrownOut_of_eq hout)
            exact ⟨_, rfl, hrelease.append (by simp [Instr.early]) (leaves_afterSet_none cfg rfl rfl)⟩
          · exact ⟨_, rfl, leaves_release_dispose cfg (hbucket hok) rfl (thrownOut_of_ne hout)⟩
          · exact ⟨_, rfl, leaves_release cfg (hbucket hok) rfl (thrownOut_of_eq hout)⟩
      | putOrGet nit =>
          simp only [Config.returned]
          split_ifs with htwo hthree
          · have hout : it.evicted &&& 2 ≠ 0 := by rw [htwo]; decide
            have hfree : Leaves cfg (.ret (.putOrGet nit) (some it)) [.release it, .dispose it] :=
              leaves_release_dispose cfg (hbucket hok) rfl (thrownOut_of_ne hout)
            exact ⟨_, rfl, hfree.append (by simp [Instr.early]) (leaves_afterGet_none cfg rfl rfl)⟩
          all_goals exact ⟨_, rfl, leaves_afterGet cfg (hbucket hok) rfl rfl⟩
      | delete key => exact hok.elim

/-! ## The next state -/

section

variable [DecidableEq T] {cfg} {kept : Prop} {s s' : State N T K V σ} {t : T}

theorem goto_code (s : State N T K V σ) (t : T) (j : Job K V) :
    (s.goto t j).code = Function.update s.code t j.code := by
  funext u
  unfold State.code State.goto
  by_cases hu : u = t
  · rw [hu]
    simp only [Function.update_self]
  · simp only [Function.update_of_ne hu]

theorem flatMap_update {α : Type*} {f : Instr K V → List α} {code code' : T → List (Instr K V)}
    {c : List (Instr K V)} (hcode : code' = Function.update code t c) :
    (fun u => (code' u).flatMap f) =
      Function.update (fun u => (code u).flatMap f) t (c.flatMap f) := by
  subst hcode
  funext u
  by_cases hu : u = t
  · rw [hu]
    simp only [Function.update_self]
  · simp only [Function.update_of_ne hu]

/-- The invariant from its parts. -/
theorem Inv.next (h : Inv cfg kept s) {c : List (Instr K V)}
    (hcode : s'.code = Function.update s.code t c) (htidy : Tidy cfg.index c)
    (hok : ∀ i ∈ c, i.Ok cfg) (htable : s'.table.Ok cfg.hash cfg.nbuckets)
    (hunique : ∀ x y, s'.table.Has x → s'.table.Has y → x.addr = y.addr → x = y)
    (hlocks : Locks s'.lock
      (Function.update (s.held cfg.index) t (c.flatMap (Instr.holds cfg.index))))
    (howns : ∃ own, Owns own (At s'.table.Has)
        (Function.update s.hands t (c.flatMap Instr.hands)) s'.freed s'.fresh ∧
      (kept → ∀ a, own a ≠ .lost)) : Inv cfg kept s' where
  table := htable
  unique := hunique
  tidy u := by
    rw [hcode]
    by_cases hu : u = t
    · rw [hu, Function.update_self]
      exact htidy
    · rw [Function.update_of_ne hu]
      exact h.tidy u
  ok u := by
    rw [hcode]
    by_cases hu : u = t
    · rw [hu, Function.update_self]
      exact hok
    · rw [Function.update_of_ne hu]
      exact h.ok u
  locks := by
    rw [show s'.held cfg.index = _ from flatMap_update hcode]
    exact hlocks
  owns := by
    rw [show s'.hands = _ from flatMap_update hcode]
    exact howns

/-- The table, the locks and the items are as before. -/
structure Same (s s' : State N T K V σ) : Prop where
  table : s'.table = s.table
  lock : s'.lock = s.lock
  freed : s'.freed = s.freed
  fresh : s'.fresh = s.fresh

theorem Inv.same (h : Inv cfg kept s) {c : List (Instr K V)} (hsame : Same s s')
    (hcode : s'.code = Function.update s.code t c) (htidy : Tidy cfg.index c)
    (hok : ∀ i ∈ c, i.Ok cfg)
    (hholds : c.flatMap (Instr.holds cfg.index) = s.held cfg.index t)
    (hhands : c.flatMap Instr.hands = s.hands t) : Inv cfg kept s' := by
  refine h.next hcode htidy hok ?_ ?_ ?_ ?_
  · rw [hsame.table]
    exact h.table
  · rw [hsame.table]
    exact h.unique
  · rw [hsame.lock, hholds, Function.update_eq_self]
    exact h.locks
  · rw [hsame.table, hsame.freed, hsame.fresh, hhands, Function.update_eq_self]
    exact h.owns

variable {i : Instr K V} {rest : List (Instr K V)}

/-- **An instruction leaves others** that have its locks and items. -/
theorem Inv.leaves (h : Inv cfg kept s) (hc : s.code t = i :: rest) {new : List (Instr K V)}
    (hnew : Leaves cfg i new) (hsame : Same s s')
    (hcode : s'.code = Function.update s.code t (new ++ rest)) : Inv cfg kept s' := by
  have htidy := h.tidy t
  have hok := h.ok t
  rw [hc] at htidy hok
  refine h.same hsame hcode (tidy_append htidy hnew.tidy hnew.early) ?_ ?_ ?_
  · intro n hn
    exact (List.mem_append.1 hn).elim (hnew.ok n) fun hn => hok n (List.mem_cons_of_mem _ hn)
  · rw [State.held, hc, List.flatMap_append, List.flatMap_cons, hnew.holds]
  · rw [State.hands, hc, List.flatMap_append, List.flatMap_cons, hnew.hands]

/-- The flow of a thread ends at an early instruction. -/
theorem Inv.stops (h : Inv cfg kept s) (hc : s.code t = i :: rest) (hearly : i.early = true)
    (hidle : i.Idle cfg.index) (hsame : Same s s')
    (hcode : s'.code = Function.update s.code t []) : Inv cfg kept s' := by
  have htidy := h.tidy t
  rw [hc] at htidy
  refine h.same hsame hcode List.Pairwise.nil (fun n hn => absurd hn List.not_mem_nil) ?_ ?_
  · rw [State.held, hc, List.flatMap_cons, hidle.1, (htidy.rest hearly).1]
    rfl
  · rw [State.hands, hc, List.flatMap_cons, hidle.2, (htidy.rest hearly).2]
    rfl

omit [DecidableEq T] in
/-- What a thread has at an early instruction. -/
theorem Inv.early_held (h : Inv cfg kept s) (hc : s.code t = i :: rest)
    (hearly : i.early = true) :
    s.held cfg.index t = i.holds cfg.index ∧ s.hands t = i.hands := by
  have htidy := h.tidy t
  rw [hc] at htidy
  obtain ⟨hholds, hhands⟩ := htidy.rest hearly
  constructor
  · rw [State.held, hc, List.flatMap_cons, hholds, List.append_nil]
  · rw [State.hands, hc, List.flatMap_cons, hhands, List.append_nil]

omit [DecidableEq T] in
/-- One early instruction takes the place of another. -/
theorem Inv.early_tidy (h : Inv cfg kept s) (hc : s.code t = i :: rest)
    (hearly : i.early = true) (n : Instr K V) (hn : n.Ok cfg) :
    Tidy cfg.index (n :: rest) ∧ (∀ m ∈ n :: rest, m.Ok cfg) ∧
      (n :: rest).flatMap (Instr.holds cfg.index) = n.holds cfg.index ∧
      (n :: rest).flatMap Instr.hands = n.hands := by
  have htidy := h.tidy t
  have hok := h.ok t
  rw [hc] at htidy hok
  obtain ⟨hholds, hhands⟩ := htidy.rest hearly
  refine ⟨?_, ?_, ?_, ?_⟩
  · obtain ⟨hi, hrest⟩ := List.pairwise_cons.1 htidy
    exact List.pairwise_cons.2 ⟨fun j hj _ => hi j hj hearly, hrest⟩
  · intro m hm
    rcases List.mem_cons.1 hm with rfl | hm
    · exact hn
    · exact hok m (List.mem_cons_of_mem _ hm)
  · rw [List.flatMap_cons, hholds, List.append_nil]
  · rw [List.flatMap_cons, hhands, List.append_nil]

end

end Flows
end Cache
end Floem
