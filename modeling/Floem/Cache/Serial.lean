import Floem.Cache.Fresh

/-!
# Requests, one after the other

One thread processes every request to completion before the next.

* `Config.uncached` — the requests without the cache.
* `Intact` — the condition on a step: with `write_back`, no set is lost, and no item is written
  back that is not written back under its own key and behind the back of the per-packet state.
* `Instr.yields`, `Instr.takes`, `Instr.weight` — what a flow still brings to the port `out`,
  whether its set still takes effect, and how long it goes on.
* `State.completes` — every flow ends.
-/

namespace Floem
namespace Cache
namespace Flows

open Lib

variable {K V T σ : Type*} {N : ℕ}

/-! ## Without the cache -/

/-- The requests that were started. -/
def requests (as : List (Act T K V)) : List (Flow K V) :=
  as.filterMap fun
    | .start _ flow => some flow
    | .go _ _ => none

namespace Config

variable (cfg : Config K V σ)

/-- A request of the program without the cache: the store, and what came to the port `out`, the
newest first. -/
def serve (x : σ × List (Flow K V × Packet K V)) : Flow K V → σ × List (Flow K V × Packet K V)
  | .get key =>
      let r := cfg.read x.1 key
      match r.2 with
      | some value => (r.1, (.get key, ⟨key, some value⟩) :: x.2)
      | none => (r.1, x.2)
  | .set key value => (cfg.write x.1 key value, (.set key value, ⟨key, some value⟩) :: x.2)
  | .delete _ => x

def uncached (store : σ) (flows : List (Flow K V)) : σ × List (Flow K V × Packet K V) :=
  flows.foldl cfg.serve (store, [])

theorem uncached_concat (store : σ) (flows : List (Flow K V)) (flow : Flow K V) :
    cfg.uncached store (flows ++ [flow]) = cfg.serve (cfg.uncached store flows) flow := by
  unfold uncached
  rw [List.foldl_append]
  rfl

end Config

/-- **The same results** as without the cache. -/
def SameResults (cfg : Config K V σ) (store : σ) (flows : List (Flow K V))
    (s : State N T K V σ) : Prop :=
  s.outs.map Prod.snd = (cfg.uncached store flows).2

/-- The condition on a step.  With `write_back` what is set can be stored; and a dirty item is
written back without the per-packet state and under its own key. -/
def Intact (cfg : Config K V σ) (s : State N T K V σ) : Act T K V → Prop
  | .start _ (.set key value) => cfg.writeBack = true → cfg.storable key value = true
  | .start _ _ => True
  | .go t _ =>
      match s.jobs t with
      | some ⟨_, _, .evict (some it) :: _⟩ =>
          it.evicted = 3 → cfg.state = false ∧ cfg.pointerKey = true
      | _ => True

/-! ## What is left of a flow -/

section

variable (cfg : Config K V σ)

def Op.yields : Op K V → ℕ
  | .get _ => 1
  | .put _ => if cfg.writeBack then 1 else 0
  | .putOrGet _ => 1
  | .delete _ => 0

/-- How often an instruction, and what it leaves, comes to the port `out`. -/
def Instr.yields : Instr K V → ℕ
  | .lock op => op.yields cfg
  | .body op => op.yields cfg
  | .ret op _ => op.yields cfg
  | .query => 1
  | .out => 1
  | .cacheSet => if cfg.writeBack then 1 else 0
  | .cacheSetGet => 1
  | _ => 0

def owed (code : List (Instr K V)) : ℕ := (code.map (Instr.yields cfg)).sum

/-- A set takes effect. -/
def Instr.taking : Instr K V → ℕ
  | .update => if cfg.writeBack then 0 else 1
  | .body (.put _) => if cfg.writeBack then 1 else 0
  | _ => 0

/-- How often a set takes effect at an instruction, and what it leaves. -/
def Instr.takes : Instr K V → ℕ
  | .update => if cfg.writeBack then 0 else 1
  | .lock (.put _) => if cfg.writeBack then 1 else 0
  | .body (.put _) => if cfg.writeBack then 1 else 0
  | .cacheSet => if cfg.writeBack then 1 else 0
  | _ => 0

def taken (code : List (Instr K V)) : ℕ := (code.map (Instr.takes cfg)).sum

/-- The instructions of a set that leave the packet as it is. -/
def Instr.Own : Instr K V → Prop
  | .lock (.put _) => True
  | .lock (.delete _) => True
  | .body (.put _) => True
  | .body (.delete _) => True
  | .ret (.put _) _ => True
  | .ret (.delete _) _ => True
  | .update => cfg.writeBack = false
  | .cacheSet => True
  | .out => True
  | .evict _ => True
  | .write _ _ => True
  | .free _ => True
  | .release _ => True
  | .dispose _ => True
  | _ => False

end

def Op.weight : Op K V → ℕ
  | .get _ => 17
  | _ => 12

/-- A bound on the number of steps of an instruction, and what it leaves. -/
def Instr.weight : Instr K V → ℕ
  | .lock op => op.weight + 2
  | .body op => op.weight + 1
  | .ret op _ => op.weight
  | .query => 16
  | .cacheSet => 15
  | .cacheSetGet => 15
  | .evict _ => 4
  | .evictSave _ => 3
  | .free _ => 3
  | .freeOrRelease _ => 3
  | _ => 1

def weight (code : List (Instr K V)) : ℕ := (code.map Instr.weight).sum

section

variable {cfg : Config K V σ} {p p' : Packet K V} {i : Instr K V} {new : List (Instr K V)}

theorem owed_afterGet (it : Option (Item K V)) : owed cfg (cfg.afterGet it) = 1 := by
  unfold Config.afterGet
  split_ifs <;> rfl

theorem weight_afterGet (it : Option (Item K V)) : weight (cfg.afterGet it) ≤ 8 := by
  unfold Config.afterGet
  split_ifs <;> simp [weight, Instr.weight]

open scoped Classical in
/-- An element comes to the port `out`, or leaves that to others. -/
theorem Turns.owed (h : Turns cfg p i p' new) :
    Flows.owed cfg new + (if i = .out then 1 else 0) = i.yields cfg := by
  cases h with
  | getClean nit it htwo =>
      have hone : owed cfg (cfg.afterGet none) = 1 := owed_afterGet none
      simpa [Flows.owed, Instr.yields, Op.yields] using hone
  | getDirty nit it hthree => simpa [Instr.yields, Op.yields] using owed_afterGet (some it)
  | getExist nit it htwo hthree => simpa [Instr.yields, Op.yields] using owed_afterGet (some it)
  | getNone nit => simpa [Instr.yields, Op.yields] using owed_afterGet none
  | passed => simpa [Instr.yields] using owed_afterGet none
  | _ => simp_all [Flows.owed, Instr.yields, Op.yields, Config.afterSet]

theorem Turns.weight (h : Turns cfg p i p' new) : Flows.weight new < i.weight := by
  cases h with
  | getClean nit it htwo =>
      have : weight (cfg.afterGet none) ≤ 8 := weight_afterGet none
      simp only [Flows.weight, List.map_append, List.sum_append] at this ⊢
      simp [Instr.weight, Op.weight]
      omega
  | getDirty nit it hthree => exact (weight_afterGet _).trans_lt (show 8 < _ by simp [Instr.weight, Op.weight])
  | getExist nit it htwo hthree => exact (weight_afterGet _).trans_lt (show 8 < _ by simp [Instr.weight, Op.weight])
  | getNone nit => exact (weight_afterGet _).trans_lt (show 8 < _ by simp [Instr.weight, Op.weight])
  | passed => exact (weight_afterGet _).trans_lt (show 8 < _ by simp [Instr.weight])
  | _ => simp [Flows.weight, Instr.weight, Op.weight, Config.afterSet]

/-- A set keeps its packet, where no dirty item meets the per-packet state. -/
theorem Turns.own (h : Turns cfg p i p' new) (hi : i.Own cfg)
    (hevict : ∀ it : Item K V, i = .evict (some it) → it.evicted = 3 → cfg.state = false) :
    p' = p ∧ (∀ n ∈ new, n.Own cfg) ∧ taken cfg new + i.taking cfg = i.takes cfg := by
  cases h with
  | evictState it hthree hstate =>
      rw [hevict it rfl hthree] at hstate
      cases hstate
  | lock op => cases op <;> simp_all [Instr.Own, taken, Instr.taking, Instr.takes]
  | body op it => cases op <;> simp_all [Instr.Own, taken, Instr.taking, Instr.takes]
  | _ =>
      first
        | exact hi.elim
        | simp_all [Instr.Own, taken, Instr.taking, Instr.takes, Config.afterSet]

end

/-! ## Every flow ends -/

section

variable {cfg : Config K V σ} {s s' : State N T K V σ} {t : T}

theorem exec_weight [DecidableEq T] [DecidableEq K] {flow : Flow K V} {p : Packet K V}
    {i : Instr K V} {rest : List (Instr K V)}
    (hs : exec cfg s t ⟨flow, p, rest⟩ true i = some s') :
    weight (s'.code t) < weight (i :: rest) := by
  have hcons : weight (i :: rest) = i.weight + weight rest := rfl
  rcases exec_turns hs with ⟨p', new, hturns, hjobs⟩ | ⟨hstops, hjobs⟩
  · rw [code_of_jobs (by rw [hjobs, Function.update_self]), hcons]
    simp only [weight, List.map_append, List.sum_append]
    exact Nat.add_lt_add_right hturns.weight _
  · rw [code_of_jobs (by rw [hjobs, Function.update_self]), hcons]
    refine Nat.lt_add_right _ ?_
    cases hstops <;> simp [weight, Instr.weight]

/-- A step of a thread that gets its locks is always possible, if there is no other. -/
theorem Inv.goes [DecidableEq K] {s : State N Unit K V σ} (h : Inv cfg False s)
    (hver : cfg.version.Plain) (hc : s.code () ≠ []) :
    ∃ s', step cfg s (.go () true) = some s' := by
  obtain ⟨s₁, hs₁⟩ := h.total hver hc
  obtain ⟨i, rest, hcode⟩ := List.exists_cons_of_ne_nil hc
  cases hj : s.jobs () with
  | none =>
      rw [State.code, hj] at hc
      exact absurd rfl hc
  | some j =>
      have hjcode : j.code = i :: rest := (code_of_jobs hj).symm.trans hcode
      simp only [step, hj, hjcode] at hs₁ ⊢
      cases i with
      | lock op =>
          have hfree : s.lock (cfg.index op.key) = none := by
            cases hlock : s.lock (cfg.index op.key) with
            | none => rfl
            | some u => exact absurd hlock (h.disciplined.attempts () op rest hcode _)
          simp only [exec, if_true, hfree]
          exact ⟨_, rfl⟩
      | evict it => cases it <;> exact ⟨s₁, hs₁⟩
      | free it => cases it <;> exact ⟨s₁, hs₁⟩
      | freeOrRelease it => cases it <;> exact ⟨s₁, hs₁⟩
      | _ => exact ⟨s₁, hs₁⟩

/-- **A request is processed to completion.** -/
theorem State.completes [DecidableEq K] {s : State N Unit K V σ} (h : Inv cfg False s)
    (hver : cfg.version.Plain) :
    ∃ n s', run (step cfg) s (List.replicate n (.go () true)) = some s' ∧ s'.code () = [] := by
  generalize hw : weight (s.code ()) = m
  induction m using Nat.strong_induction_on generalizing s with
  | _ m ih =>
      by_cases hc : s.code () = []
      · exact ⟨0, s, rfl, hc⟩
      · obtain ⟨s₁, hs₁⟩ := h.goes hver hc
        have hlt : weight (s₁.code ()) < m := by
          have hs := hs₁
          simp only [step] at hs
          split at hs
          · cases hs
          · next j hj =>
              obtain ⟨flow, p, code⟩ := j
              cases code with
              | nil => cases hs
              | cons i rest =>
                  rw [← hw, code_of_jobs hj]
                  exact exec_weight hs
        obtain ⟨n, s', hrun, hend⟩ := ih _ hlt (h.of_step hver _ False.elim hs₁) rfl
        refine ⟨n + 1, s', ?_, hend⟩
        rw [List.replicate_succ, run_cons, hs₁]
        exact hrun

end

end Flows
end Cache
end Floem
