import Floem.Cache.Gets

/-!
# What is still to be written back

* `Instr.saving`, `State.saving` — the key and the value that the flow of a thread still has to
  write back; only the next instruction of a flow has any.
* `exec_calm`, `exec_saving`, `exec_lock` — an instruction keeps that, and the locks of the
  others.
-/

namespace Floem
namespace Cache
namespace Flows

open Lib

variable {K V T σ : Type*} {N : ℕ}

/-! ## What is still to be written back -/

/-- A dirty item that was thrown out. -/
def Item.saving (it : Item K V) : Option (K × V) :=
  if it.evicted = 3 then some (it.key, it.value) else none

def Instr.saving (packet : Packet K V) : Instr K V → Option (K × V)
  | .ret (.put _) (some it) => Item.saving it
  | .ret (.putOrGet _) (some it) => Item.saving it
  | .evict (some it) => Item.saving it
  | .evictSave it => some (it.key, it.value)
  | .update => packet.value.map fun value => (packet.key, value)
  | .write key value => some (key, value)
  | _ => none

def Job.saving (j : Job K V) : Option (K × V) :=
  match j.code with
  | [] => none
  | i :: _ => i.saving j.packet

def State.saving (s : State N T K V σ) (t : T) : Option (K × V) := (s.jobs t).bind Job.saving

/-- Instructions that write nothing back. -/
def Calm (code : List (Instr K V)) : Prop := ∀ i ∈ code, ∀ packet, i.saving packet = none

theorem Calm.append {code code' : List (Instr K V)} (h : Calm code) (h' : Calm code') :
    Calm (code ++ code') := fun i hi =>
  (List.mem_append.1 hi).elim (h i) (h' i)

theorem Calm.saving {j : Job K V} (h : Calm j.code) : j.saving = none := by
  unfold Job.saving
  split
  · rfl
  · next i rest hcode => exact h i (by rw [hcode]; exact List.mem_cons_self) _

variable {cfg : Config K V σ} {lookup : σ → K → Option V}

theorem calm_afterSet (it : Option (Item K V)) : Calm (Config.afterSet it).tail := by
  simp [Calm, Config.afterSet, Instr.saving]

/-- Only the first of the instructions that an element leaves writes something back. -/
theorem calm_afterGet (it : Option (Item K V)) : Calm (cfg.afterGet it).tail := by
  unfold Config.afterGet
  split_ifs <;> simp [Calm, Instr.saving]

theorem calm_afterGet_none : Calm (cfg.afterGet none) := by
  unfold Config.afterGet
  split_ifs <;> simp [Calm, Instr.saving]

theorem calm_afterSet_none : Calm (Config.afterSet (none : Option (Item K V))) := by
  simp [Calm, Config.afterSet, Instr.saving]

/-- What an element leaves behind its first instruction. -/
theorem Turns.calm {p p' : Packet K V} {i : Instr K V} {new : List (Instr K V)}
    (h : Turns cfg p i p' new) : Calm new.tail := by
  cases h with
  | backEvict nit it hback hout => exact calm_afterSet (some it)
  | backKeep nit it hback hout => exact calm_afterSet_none
  | backNone nit hback => exact calm_afterSet none
  | getClean nit it htwo =>
      have hdispose : Calm [Instr.dispose it] := by simp [Calm, Instr.saving]
      exact hdispose.append calm_afterGet_none
  | getDirty nit it hthree => exact calm_afterGet (some it)
  | getExist nit it htwo hthree => exact calm_afterGet (some it)
  | getNone nit => exact calm_afterGet none
  | passed => exact calm_afterGet none
  | _ => simp [Calm, Instr.saving]

theorem Item.saving_of_ne {it : Item K V} (h : ¬ it.evicted = 3) : Item.saving it = none := if_neg h

/-- Until its query, a flow has the same to write back. -/
theorem Turns.saving {p p' : Packet K V} {i : Instr K V} {new rest : List (Instr K V)}
    (h : Turns cfg p i p' new) (hback : cfg.writeBack = true) (flow : Flow K V)
    (hrest : Calm rest) (hbody : ∀ op, i ≠ .body op) (hupdate : i ≠ .update)
    (hwrite : ∀ key value, i ≠ .write key value)
    (hevict : ∀ it : Item K V, i = .evict (some it) → it.evicted = 3 → cfg.state = false →
      cfg.pointerKey = true) : (Job.mk flow p' (new ++ rest)).saving = i.saving p := by
  have hafter : ∀ (it : Option (Item K V)) p', (Job.mk flow p' (cfg.afterGet it ++ rest)).saving =
      it.bind Item.saving := by
    intro it p'
    simp only [Job.saving, Config.afterGet, hback, if_true]
    cases it <;> rfl
  have hcalm : ∀ p', (Job.mk flow p' rest).saving = none := fun p' =>
    Calm.saving (j := ⟨flow, p', rest⟩) hrest
  cases h with
  | body op it => exact absurd rfl (hbody op)
  | update => exact absurd rfl hupdate
  | write key value => exact absurd rfl (hwrite key value)
  | backKeep nit it _ hout =>
      refine (Item.saving_of_ne fun hthree => hout ?_).symm
      rw [hthree]
      decide
  | throughEvict nit it hthrough hout => exact absurd hback hthrough
  | throughKeep nit it hthrough hout => exact absurd hback hthrough
  | throughNone nit hthrough => exact absurd hback hthrough
  | getClean nit it htwo => exact (Item.saving_of_ne (by rw [htwo]; decide)).symm
  | getDirty nit it hthree => exact hafter (some it) p
  | getExist nit it htwo hthree => exact hafter (some it) _
  | getNone nit => exact hafter none p
  | passed => exact hafter none p
  | evictState it hthree hstate => exact (if_pos hthree).symm
  | evictPlain it hthree hstate =>
      have hkey : cfg.evictKey it = it.key :=
        if_pos (hevict it rfl hthree (Bool.eq_false_of_not_eq_true hstate))
      simp only [List.cons_append, Job.saving, hkey]
      exact (if_pos hthree).symm
  | evictClean it hthree => exact (hcalm p).trans (Item.saving_of_ne hthree).symm
  | deleted key it => exact hcalm p
  | out => exact hcalm p
  | evictNone => exact hcalm p
  | evictRevert saved => exact hcalm p'
  | freeKeep it hout => exact hcalm p
  | freeNone => exact hcalm p
  | orNone => exact hcalm p
  | release it => exact hcalm p
  | dispose it => exact hcalm p
  | _ => rfl

variable [DecidableEq T] [DecidableEq K] {s s' : State N T K V σ} {w w' : Watch T K V} {t : T}

/-- Behind the next instruction of a flow nothing is written back. -/
theorem exec_calm {flow : Flow K V} {packet : Packet K V} {i : Instr K V}
    {rest : List (Instr K V)} (hrest : Calm rest)
    (hs : exec cfg s t ⟨flow, packet, rest⟩ true i = some s') {j : Job K V}
    (hj : s'.jobs t = some j) : Calm j.code.tail := by
  rcases exec_turns hs with ⟨p', new, hturns, hjobs⟩ | ⟨-, hjobs⟩ <;>
    rw [hjobs, Function.update_self] at hj <;> obtain rfl := Option.some.inj hj
  · have hnew := hturns.calm
    cases new with
    | nil => exact fun n hn => hrest n (List.mem_of_mem_tail hn)
    | cons n new => exact hnew.append hrest
  · exact nofun

/-- Until its query, a flow has the same to write back. -/
theorem exec_saving (hback : cfg.writeBack = true) {flow : Flow K V} {packet : Packet K V}
    {i : Instr K V} {rest : List (Instr K V)} (hrest : Calm rest) (hbody : ∀ op, i ≠ .body op)
    (hupdate : i ≠ .update) (hwrite : ∀ key value, i ≠ .write key value)
    (hevict : ∀ it : Item K V, i = .evict (some it) → it.evicted = 3 → cfg.state = false →
      cfg.pointerKey = true)
    (hs : exec cfg s t ⟨flow, packet, rest⟩ true i = some s') {j : Job K V}
    (hj : s'.jobs t = some j) : j.saving = i.saving packet := by
  rcases exec_turns hs with ⟨p', new, hturns, hjobs⟩ | ⟨hstops, hjobs⟩ <;>
    rw [hjobs, Function.update_self] at hj <;> obtain rfl := Option.some.inj hj
  · exact hturns.saving hback flow hrest hbody hupdate hwrite hevict
  · cases hstops <;> rfl

/-- A lock stays with its holder, but for what the holder itself does. -/
theorem exec_lock (hI : Inv cfg False s) {j : Job K V} {ok : Bool} {i : Instr K V}
    {rest : List (Instr K V)} (hc : s.code t = i :: rest) (hs : exec cfg s t j ok i = some s')
    {u : T} {idx : ℕ} (hlock : s.lock idx = some u)
    (hu : u ≠ t ∨ (∀ op, i ≠ .body op) ∧ ∀ it, i ≠ .release it) : s'.lock idx = some u := by
  have hdrop : ∀ idx', s.lock idx' = some t → u ≠ t →
      Function.update s.lock idx' none idx = some u := by
    intro idx' hholder hne
    rw [Function.update_of_ne]
    · exact hlock
    · rintro rfl
      exact hne (Option.some.inj (hlock.symm.trans hholder))
  cases i with
  | lock op =>
      simp only [exec] at hs
      split_ifs at hs with hok hfree
      · obtain rfl := Option.some.inj hs
        change Function.update s.lock (cfg.index op.key) (some t) idx = some u
        rw [Function.update_of_ne]
        · exact hlock
        · rintro rfl
          rw [hfree] at hlock
          cases hlock
      · obtain rfl := Option.some.inj hs
        exact hlock
  | body op =>
      have hne := hu.resolve_right fun h => h.1 op rfl
      simp only [exec, Option.map_eq_some_iff] at hs
      obtain ⟨o, -, rfl⟩ := hs
      simp only [State.goto]
      split_ifs
      · exact hdrop _ (hI.holder hc List.mem_cons_self) hne
      · exact hlock
  | release it =>
      have hne := hu.resolve_right fun h => h.2 it rfl
      simp only [exec, Option.bind_eq_some_iff] at hs
      obtain ⟨idx', -, hs⟩ := hs
      split_ifs at hs with hholder
      obtain rfl := Option.some.inj hs
      exact hdrop _ hholder hne
  | evict it =>
      cases it <;> simp only [exec] at hs <;> (try split_ifs at hs) <;>
        obtain rfl := Option.some.inj hs <;> exact hlock
  | free it => cases it <;> obtain rfl := Option.some.inj hs <;> exact hlock
  | freeOrRelease it => cases it <;> obtain rfl := Option.some.inj hs <;> exact hlock
  | _ =>
      simp only [exec] at hs
      (repeat' split at hs) <;> (obtain rfl := Option.some.inj hs; exact hlock)

end Flows
end Cache
end Floem
