import Floem.Cache.Flows

/-!
# What an instruction leaves

* `Turns` — the packet and the instructions that an instruction of a flow leaves, where its lock
  attempt succeeds.
* `Stops` — the instructions at which a flow ends before its last one.
* `exec_turns` — every step of a thread is one of these.
-/

namespace Floem
namespace Cache
namespace Flows

open Lib

variable {K V T σ : Type*} {N : ℕ}

/-- An instruction leaves a packet, and instructions before the rest of its flow. -/
inductive Turns (cfg : Config K V σ) (p : Packet K V) :
    Instr K V → Packet K V → List (Instr K V) → Prop
  | lock (op : Op K V) : Turns cfg p (.lock op) p [.body op]
  | body (op : Op K V) (it : Option (Item K V)) : Turns cfg p (.body op) p [.ret op it]
  | getHit (key : K) (it : Item K V) :
      Turns cfg p (.ret (.get key) (some it)) { p with value := some it.value }
        [.out, .freeOrRelease (some it)]
  | getMiss (key : K) : Turns cfg p (.ret (.get key) none) { p with value := none } [.query]
  | backEvict (nit it : Item K V) (hback : cfg.writeBack = true) (hout : it.evicted &&& 2 ≠ 0) :
      Turns cfg p (.ret (.put nit) (some it)) p (Config.afterSet (some it))
  | backKeep (nit it : Item K V) (hback : cfg.writeBack = true) (hout : ¬ it.evicted &&& 2 ≠ 0) :
      Turns cfg p (.ret (.put nit) (some it)) p (.release it :: Config.afterSet none)
  | backNone (nit : Item K V) (hback : cfg.writeBack = true) :
      Turns cfg p (.ret (.put nit) none) p (Config.afterSet none)
  | throughEvict (nit it : Item K V) (hback : ¬ cfg.writeBack = true)
      (hout : it.evicted &&& 2 ≠ 0) :
      Turns cfg p (.ret (.put nit) (some it)) p [.release it, .dispose it]
  | throughKeep (nit it : Item K V) (hback : ¬ cfg.writeBack = true)
      (hout : ¬ it.evicted &&& 2 ≠ 0) :
      Turns cfg p (.ret (.put nit) (some it)) p [.release it]
  | throughNone (nit : Item K V) (hback : ¬ cfg.writeBack = true) :
      Turns cfg p (.ret (.put nit) none) p []
  | getClean (nit it : Item K V) (htwo : it.evicted = 2) :
      Turns cfg p (.ret (.putOrGet nit) (some it)) p
        ([.release it, .dispose it] ++ cfg.afterGet none)
  | getDirty (nit it : Item K V) (hthree : it.evicted = 3) :
      Turns cfg p (.ret (.putOrGet nit) (some it)) p (cfg.afterGet (some it))
  | getExist (nit it : Item K V) (htwo : ¬ it.evicted = 2) (hthree : ¬ it.evicted = 3) :
      Turns cfg p (.ret (.putOrGet nit) (some it))
        ⟨if cfg.state then it.key else p.key, some (cfg.found nit.value it.value)⟩
        (cfg.afterGet (some it))
  | getNone (nit : Item K V) : Turns cfg p (.ret (.putOrGet nit) none) p (cfg.afterGet none)
  | deleted (key : K) (it : Option (Item K V)) : Turns cfg p (.ret (.delete key) it) p []
  | query (value : V) : Turns cfg p .query { p with value := some value } [.cacheSetGet]
  | update : Turns cfg p .update p []
  | write (key : K) (value : V) : Turns cfg p (.write key value) p []
  | out : Turns cfg p .out p []
  | cacheSet (addr : ℕ) (value : V) (hvalue : p.value = some value)
      (hstorable : cfg.storable p.key value = true) :
      Turns cfg p .cacheSet p [.lock (.put (cfg.alloc addr p.key value))]
  | cacheSetGet (addr : ℕ) (value : V) (hvalue : p.value = some value) :
      Turns cfg p .cacheSetGet p [.lock (.putOrGet (cfg.alloc addr p.key value))]
  | passed : Turns cfg p .cacheSetGet p (cfg.afterGet none)
  | evictState (it : Item K V) (hthree : it.evicted = 3) (hstate : cfg.state = true) :
      Turns cfg p (.evict (some it)) ⟨it.key, some it.value⟩ [.evictSave it]
  | evictPlain (it : Item K V) (hthree : it.evicted = 3) (hstate : ¬ cfg.state = true) :
      Turns cfg p (.evict (some it)) p [.write (cfg.evictKey it) it.value]
  | evictClean (it : Item K V) (hthree : ¬ it.evicted = 3) : Turns cfg p (.evict (some it)) p []
  | evictNone : Turns cfg p (.evict none) p []
  | evictSave (it : Item K V) :
      Turns cfg p (.evictSave it) ⟨it.key, some it.value⟩ [.update, .evictRevert p]
  | evictRevert (saved : Packet K V) : Turns cfg p (.evictRevert saved) saved []
  | free (it : Item K V) (hout : it.evicted &&& 2 ≠ 0) :
      Turns cfg p (.free (some it)) p [.release it, .dispose it]
  | freeKeep (it : Item K V) (hout : ¬ it.evicted &&& 2 ≠ 0) : Turns cfg p (.free (some it)) p []
  | freeNone : Turns cfg p (.free none) p []
  | freeOrRelease (it : Item K V) (hout : it.evicted &&& 2 ≠ 0) :
      Turns cfg p (.freeOrRelease (some it)) p [.release it, .dispose it]
  | orRelease (it : Item K V) (hout : ¬ it.evicted &&& 2 ≠ 0) :
      Turns cfg p (.freeOrRelease (some it)) p [.release it]
  | orNone : Turns cfg p (.freeOrRelease none) p []
  | release (it : Item K V) : Turns cfg p (.release it) p []
  | dispose (it : Item K V) : Turns cfg p (.dispose it) p []

/-- A flow ends: the query of a get does not reach its end, or there is nothing to insert. -/
inductive Stops (cfg : Config K V σ) (store : σ) (p : Packet K V) : Instr K V → Prop
  | query (hnone : (cfg.read store p.key).2 = none) : Stops cfg store p .query
  | cacheSet (hnot : ∀ value, p.value = some value → ¬ cfg.storable p.key value = true) :
      Stops cfg store p .cacheSet

variable {cfg : Config K V σ}

variable (cfg) in
/-- The rest of an element. -/
theorem turns_returned (flow : Flow K V) (p : Packet K V) (rest : List (Instr K V)) (op : Op K V)
    (it : Option (Item K V)) :
    ∃ p' new, Turns cfg p (.ret op it) p' new ∧
      cfg.returned ⟨flow, p, rest⟩ op it = ⟨flow, p', new ++ rest⟩ := by
  cases op with
  | get key =>
      cases it with
      | none => exact ⟨_, _, .getMiss key, rfl⟩
      | some it => exact ⟨_, _, .getHit key it, rfl⟩
  | put nit =>
      cases it with
      | none =>
          simp only [Config.returned]
          split_ifs with hback
          · exact ⟨_, _, .backNone nit hback, rfl⟩
          · exact ⟨_, _, .throughNone nit hback, rfl⟩
      | some it =>
          simp only [Config.returned]
          split_ifs with hback hout hout
          · exact ⟨_, _, .backEvict nit it hback hout, rfl⟩
          · exact ⟨_, _, .backKeep nit it hback hout, rfl⟩
          · exact ⟨_, _, .throughEvict nit it hback hout, rfl⟩
          · exact ⟨_, _, .throughKeep nit it hback hout, rfl⟩
  | putOrGet nit =>
      cases it with
      | none => exact ⟨_, _, .getNone nit, rfl⟩
      | some it =>
          simp only [Config.returned]
          split_ifs with htwo hthree hstate
          · exact ⟨_, _, .getClean nit it htwo, rfl⟩
          · exact ⟨_, _, .getDirty nit it hthree, rfl⟩
          · exact ⟨_, _, .getExist nit it htwo hthree, by rw [if_pos hstate]; rfl⟩
          · exact ⟨_, _, .getExist nit it htwo hthree, by rw [if_neg hstate]; rfl⟩
  | delete key => exact ⟨_, _, .deleted key it, by cases it <;> rfl⟩

variable [DecidableEq T] [DecidableEq K] {s s' : State N T K V σ} {t : T}

omit [DecidableEq K] in
theorem goto_jobs_self (s : State N T K V σ) (t : T) (j : Job K V) :
    (s.goto t j).jobs t = some j :=
  Function.update_self _ _ _

/-- **What a step of a thread leaves of its flow**, if its lock attempt succeeds. -/
theorem exec_turns {flow : Flow K V} {p : Packet K V} {i : Instr K V} {rest : List (Instr K V)}
    (hs : exec cfg s t ⟨flow, p, rest⟩ true i = some s') :
    (∃ p' new, Turns cfg p i p' new ∧
        s'.jobs = Function.update s.jobs t (some ⟨flow, p', new ++ rest⟩)) ∨
      Stops cfg s.store p i ∧ s'.jobs = Function.update s.jobs t (some ⟨flow, p, []⟩) := by
  cases i with
  | lock op =>
      simp only [exec, if_true] at hs
      split_ifs at hs
      obtain rfl := Option.some.inj hs
      exact Or.inl ⟨_, _, .lock op, rfl⟩
  | body op =>
      simp only [exec, Option.map_eq_some_iff] at hs
      obtain ⟨o, -, rfl⟩ := hs
      exact Or.inl ⟨_, _, .body op o.ret, rfl⟩
  | ret op it =>
      obtain rfl := Option.some.inj hs
      obtain ⟨p', new, hturns, hnew⟩ := turns_returned cfg flow p rest op it
      exact Or.inl ⟨p', new, hturns, by rw [hnew]; rfl⟩
  | query =>
      simp only [exec] at hs
      split at hs
      · obtain rfl := Option.some.inj hs
        exact Or.inl ⟨_, _, .query _, rfl⟩
      · next hnone =>
          obtain rfl := Option.some.inj hs
          exact Or.inr ⟨.query hnone, rfl⟩
  | update =>
      simp only [exec] at hs
      split at hs <;> obtain rfl := Option.some.inj hs <;> exact Or.inl ⟨_, _, .update, rfl⟩
  | cacheSet =>
      simp only [exec] at hs
      split at hs
      · next value hvalue =>
          split_ifs at hs with hstorable
          · obtain rfl := Option.some.inj hs
            exact Or.inl ⟨_, _, .cacheSet s.fresh value hvalue hstorable, rfl⟩
          · obtain rfl := Option.some.inj hs
            refine Or.inr ⟨.cacheSet fun value' hvalue' => ?_, rfl⟩
            rwa [← Option.some.inj (hvalue.symm.trans hvalue')]
      · next hvalue =>
          obtain rfl := Option.some.inj hs
          refine Or.inr ⟨.cacheSet fun value' hvalue' => ?_, rfl⟩
          rw [hvalue] at hvalue'
          cases hvalue'
  | cacheSetGet =>
      simp only [exec] at hs
      split at hs
      · next value hvalue =>
          split_ifs at hs
          · obtain rfl := Option.some.inj hs
            exact Or.inl ⟨_, _, .cacheSetGet s.fresh value hvalue, rfl⟩
          · obtain rfl := Option.some.inj hs
            exact Or.inl ⟨_, _, .passed, rfl⟩
      · obtain rfl := Option.some.inj hs
        exact Or.inl ⟨_, _, .passed, rfl⟩
  | evict it =>
      cases it with
      | none =>
          obtain rfl := Option.some.inj hs
          exact Or.inl ⟨_, _, .evictNone, rfl⟩
      | some it =>
          simp only [exec] at hs
          split_ifs at hs with hthree hstate
          · obtain rfl := Option.some.inj hs
            exact Or.inl ⟨_, _, .evictState it hthree hstate, rfl⟩
          · obtain rfl := Option.some.inj hs
            exact Or.inl ⟨_, _, .evictPlain it hthree hstate, rfl⟩
          · obtain rfl := Option.some.inj hs
            exact Or.inl ⟨_, _, .evictClean it hthree, rfl⟩
  | evictSave it =>
      obtain rfl := Option.some.inj hs
      exact Or.inl ⟨_, _, .evictSave it, rfl⟩
  | evictRevert saved =>
      obtain rfl := Option.some.inj hs
      exact Or.inl ⟨_, _, .evictRevert saved, rfl⟩
  | free it =>
      cases it with
      | none =>
          obtain rfl := Option.some.inj hs
          exact Or.inl ⟨_, _, .freeNone, rfl⟩
      | some it =>
          obtain rfl := Option.some.inj hs
          by_cases hout : it.evicted &&& 2 ≠ 0
          · exact Or.inl ⟨_, _, .free it hout, by rw [if_pos hout]; rfl⟩
          · exact Or.inl ⟨_, _, .freeKeep it hout, by rw [if_neg hout]; rfl⟩
  | freeOrRelease it =>
      cases it with
      | none =>
          obtain rfl := Option.some.inj hs
          exact Or.inl ⟨_, _, .orNone, rfl⟩
      | some it =>
          obtain rfl := Option.some.inj hs
          by_cases hout : it.evicted &&& 2 ≠ 0
          · exact Or.inl ⟨_, _, .freeOrRelease it hout, by rw [if_pos hout]; rfl⟩
          · exact Or.inl ⟨_, _, .orRelease it hout, by rw [if_neg hout]; rfl⟩
  | release it =>
      simp only [exec, Option.bind_eq_some_iff] at hs
      obtain ⟨idx, -, hs⟩ := hs
      split_ifs at hs
      obtain rfl := Option.some.inj hs
      exact Or.inl ⟨_, _, .release it, rfl⟩
  | write key value =>
      obtain rfl := Option.some.inj hs
      exact Or.inl ⟨_, _, .write key value, rfl⟩
  | out =>
      obtain rfl := Option.some.inj hs
      exact Or.inl ⟨_, _, .out, rfl⟩
  | dispose it =>
      obtain rfl := Option.some.inj hs
      exact Or.inl ⟨_, _, .dispose it, rfl⟩

/-- An element keeps the flow. -/
theorem exec_jobs {flow : Flow K V} {p : Packet K V} {i : Instr K V} {rest : List (Instr K V)}
    (hs : exec cfg s t ⟨flow, p, rest⟩ true i = some s') :
    ∃ j, s'.jobs = Function.update s.jobs t (some j) ∧ j.flow = flow := by
  rcases exec_turns hs with ⟨p', new, -, hjobs⟩ | ⟨-, hjobs⟩
  · exact ⟨_, hjobs, rfl⟩
  · exact ⟨_, hjobs, rfl⟩

end Flows
end Cache
end Floem
