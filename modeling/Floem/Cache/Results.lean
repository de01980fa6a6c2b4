import Floem.Cache.Serial

/-!
# The cache does not change results

* `Idle`, `GetRun`, `SetRun`, `Serving` — what holds between two requests, and while a request is
  processed.
* `Serving.timely` — nothing stale goes into the table.
* `Serving.get`, `Serving.set` — the steps of a request.
* `sameResults_run` — **the main theorem**: the requests come to the port `out` as without the
  cache.
* `wrong_packet` — a set that comes there with the key of an evicted item.
-/

namespace Floem
namespace Cache
namespace Flows

open Lib

variable {K V σ : Type*} {N : ℕ}

/-! ## The invariant -/

section

variable (cfg : Config K V σ) (lookup : σ → K → Option V)
  (x : σ × List (Flow K V × Packet K V))

/-- Between two requests, of which the earlier ones lead to `x` without the cache. -/
structure Idle (s : State N Unit K V σ) (w : Watch Unit K V) : Prop where
  outs : s.outs.map Prod.snd = x.2
  last : ∀ key, (w.values key).getLast? = some (lookup x.1 key)
  settled : ∀ key, w.done key + 1 = (w.values key).length

/-- A get comes to this instruction only after a miss. -/
def Instr.Missed : Instr K V → Prop
  | .ret (.get _) none => True
  | .query => True
  | .cacheSetGet => True
  | .lock (.putOrGet _) => True
  | .body (.putOrGet _) => True
  | _ => False

/-- While a get is processed. -/
structure GetRun (s : State N Unit K V σ) (w : Watch Unit K V) (key : K) (j : Job K V) : Prop where
  last : ∀ key, (w.values key).getLast? = some (lookup x.1 key)
  settled : ∀ key, w.done key + 1 = (w.values key).length
  need : w.need () = w.done key
  /-- After a miss, the key stays without an item. -/
  absent : ∀ i ∈ j.code, i.Missed → ∀ it, s.table.Has it → it.key ≠ key

/-- The delete of a set is still to be done. -/
def Deletes (key : K) (code : List (Instr K V)) : Prop :=
  .lock (.delete key) ∈ code ∨ .body (.delete key) ∈ code

/-- While a set is processed. -/
structure SetRun (s : State N Unit K V σ) (w : Watch Unit K V) (key : K) (value : V)
    (j : Job K V) : Prop where
  packet : j.packet = ⟨key, some value⟩
  storable : cfg.writeBack = true → cfg.storable key value = true
  own : ∀ i ∈ j.code, i.Own cfg
  others : ∀ key', key' ≠ key → w.done key' + 1 = (w.values key').length ∧
    (w.values key').getLast? = some (lookup x.1 key')
  /-- The set takes effect once. -/
  self : taken cfg j.code = 1 ∧ w.done key + 1 = (w.values key).length ∧
      (w.values key).getLast? = some (lookup x.1 key) ∨
    taken cfg j.code = 0 ∧ w.pos () + 1 = (w.values key).length ∧ w.done key ≤ w.pos () ∧
      (w.values key).getLast? = some (some value) ∧
        (j.code = [] → w.done key + 1 = (w.values key).length)
  /-- With `write_through`, the old item is gone before a new one is inserted. -/
  gone : cfg.writeBack = false → .cacheSet ∈ j.code →
    Deletes key j.code ∨ ∀ it, s.table.Has it → it.key ≠ key

/-- While a request is processed, and when it is done. -/
structure Serving (s : State N Unit K V σ) (w : Watch Unit K V) (j : Job K V) : Prop where
  outs : s.outs.map Prod.snd = x.2 ∧ owed cfg j.code = 1 ∨
    s.outs.map Prod.snd = (cfg.serve x j.flow).2 ∧ owed cfg j.code = 0
  flow : match j.flow with
    | .get key => GetRun lookup x s w key j
    | .set key value => SetRun cfg lookup x s w key value j
    | .delete _ => False

/-- The requests, the last of which may not be done yet. -/
def Serial (store : σ) (flows : List (Flow K V)) (s : State N Unit K V σ)
    (w : Watch Unit K V) : Prop :=
  match s.jobs () with
  | none => Idle lookup (cfg.uncached store flows) s w
  | some j => ∃ before, flows = before ++ [j.flow] ∧
      Serving cfg lookup (cfg.uncached store before) s w j

end

variable {cfg : Config K V σ} {lookup : σ → K → Option V} {store : σ}
  {x : σ × List (Flow K V × Packet K V)} {s s' : State N Unit K V σ} {w w' : Watch Unit K V}

/-- A request that is done. -/
theorem Serving.idle {j : Job K V} (h : Serving cfg lookup x s w j) (hkv : cfg.KeyValue lookup)
    (hcode : j.code = []) : Idle lookup (cfg.serve x j.flow) s w := by
  have houts : s.outs.map Prod.snd = (cfg.serve x j.flow).2 := by
    rcases h.outs with ⟨-, howed⟩ | ⟨houts, -⟩
    · rw [hcode] at howed
      cases howed
    · exact houts
  have hflow := h.flow
  split at hflow
  · next key hget =>
      have hstore : (cfg.serve x (.get key)).1 = x.1 := by
        simp only [Config.serve, hkv.read]
        split <;> rfl
      refine ⟨houts, fun key' => ?_, hflow.settled⟩
      rw [hget, hstore]
      exact hflow.last key'
  · next key value hset =>
      rcases hflow.self with ⟨htaken, -⟩ | ⟨-, hpos, hdone, hlast, hend⟩
      · rw [hcode] at htaken
        cases htaken
      · refine ⟨houts, fun key' => ?_, fun key' => ?_⟩
        · rw [hset]
          by_cases hkey : key' = key
          · rw [hkey]
            exact hlast.trans (congrArg some (hkv.write_self _ _ _).symm)
          · exact (hflow.others key' hkey).2.trans
              (congrArg some (hkv.write_of_ne _ _ _ _ hkey).symm)
        · by_cases hkey : key' = key
          · rw [hkey]
            exact hend hcode
          · exact (hflow.others key' hkey).1
  · exact hflow.elim

theorem Serial.idle {flows : List (Flow K V)} (h : Serial cfg lookup store flows s w)
    (hkv : cfg.KeyValue lookup) (hc : s.code () = []) :
    Idle lookup (cfg.uncached store flows) s w := by
  unfold Serial at h
  split at h
  · exact h
  · next j hj =>
      obtain ⟨before, rfl, hserving⟩ := h
      rw [cfg.uncached_concat]
      exact hserving.idle hkv ((code_of_jobs hj).symm.trans hc)

/-! ## The steps of a get -/

theorem owed_append (code code' : List (Instr K V)) :
    owed cfg (code ++ code') = owed cfg code + owed cfg code' := by
  simp only [owed, List.map_append, List.sum_append]

theorem taken_append (code code' : List (Instr K V)) :
    taken cfg (code ++ code') = taken cfg code + taken cfg code' := by
  simp only [taken, List.map_append, List.sum_append]

theorem exec_outs {T : Type*} [DecidableEq T] [DecidableEq K] {s s' : State N T K V σ} {t : T}
    {j : Job K V} {i : Instr K V} (hs : exec cfg s t j true i = some s') :
    (i = .out → s'.outs = (t, j.flow, j.packet) :: s.outs) ∧ (i ≠ .out → s'.outs = s.outs) := by
  cases i with
  | out =>
      obtain rfl := Option.some.inj hs
      exact ⟨fun _ => rfl, fun h => absurd rfl h⟩
  | lock op =>
      simp only [exec, if_true] at hs
      split_ifs at hs
      obtain rfl := Option.some.inj hs
      exact ⟨fun heq => (by cases heq), fun _ => rfl⟩
  | body op =>
      simp only [exec, Option.map_eq_some_iff] at hs
      obtain ⟨o, -, rfl⟩ := hs
      exact ⟨fun heq => (by cases heq), fun _ => rfl⟩
  | evict it =>
      cases it <;> simp only [exec] at hs <;> (try split_ifs at hs) <;>
        obtain rfl := Option.some.inj hs <;> exact ⟨fun heq => (by cases heq), fun _ => rfl⟩
  | free it => cases it <;> obtain rfl := Option.some.inj hs <;> exact ⟨fun heq => (by cases heq), fun _ => rfl⟩
  | freeOrRelease it =>
      cases it <;> obtain rfl := Option.some.inj hs <;> exact ⟨fun heq => (by cases heq), fun _ => rfl⟩
  | release it =>
      simp only [exec, Option.bind_eq_some_iff] at hs
      obtain ⟨idx, -, hs⟩ := hs
      split_ifs at hs
      obtain rfl := Option.some.inj hs
      exact ⟨fun heq => (by cases heq), fun _ => rfl⟩
  | _ =>
      simp only [exec] at hs
      (repeat' split at hs) <;> (obtain rfl := Option.some.inj hs; exact ⟨fun heq => (by cases heq), fun _ => rfl⟩)

/-- What a step brings to the port `out`, and what is left to bring. -/
theorem outs_step [DecidableEq K] {flow : Flow K V} {p p' : Packet K V} {i : Instr K V}
    {new rest : List (Instr K V)} (hs : exec cfg s () ⟨flow, p, rest⟩ true i = some s')
    (hturns : Turns cfg p i p' new)
    (houts : s.outs.map Prod.snd = x.2 ∧ owed cfg (i :: rest) = 1 ∨
      s.outs.map Prod.snd = (cfg.serve x flow).2 ∧ owed cfg (i :: rest) = 0)
    (hout : i = .out → (cfg.serve x flow).2 = (flow, p) :: x.2) :
    s'.outs.map Prod.snd = x.2 ∧ owed cfg (new ++ rest) = 1 ∨
      s'.outs.map Prod.snd = (cfg.serve x flow).2 ∧ owed cfg (new ++ rest) = 0 := by
  have howed := hturns.owed
  have hcons : owed cfg (i :: rest) = i.yields cfg + owed cfg rest := rfl
  rw [owed_append]
  by_cases hi : i = .out
  · rw [if_pos hi] at howed
    rcases houts with ⟨houts, hone⟩ | ⟨-, hzero⟩
    · refine Or.inr ⟨?_, by omega⟩
      rw [(exec_outs hs).1 hi, hout hi, ← houts]
      rfl
    · omega
  · rw [if_neg hi] at howed
    rw [(exec_outs hs).2 hi]
    exact houts.imp (fun h => ⟨h.1, by omega⟩) fun h => ⟨h.1, by omega⟩

/-- After a miss, the key stays without an item. -/
theorem GetRun.absent_step [DecidableEq K] {key : K} {p p' : Packet K V} {i : Instr K V}
    {new rest : List (Instr K V)}
    (h : GetRun lookup x s w key ⟨.get key, p, i :: rest⟩)
    (hgets : Getting cfg w (lookup s.store key) () key ⟨.get key, p, i :: rest⟩)
    (hI : Inv cfg False s) (hver : cfg.version.Plain) (hturns : Turns cfg p i p' new)
    (hs : exec cfg s () ⟨.get key, p, rest⟩ true i = some s')
    (hjobs : s'.jobs = Function.update s.jobs () (some ⟨.get key, p', new ++ rest⟩)) :
    ∀ n ∈ new ++ rest, n.Missed → ∀ it, s'.table.Has it → it.key ≠ key := by
  intro n hn hmissed
  have hi := hgets.code i List.mem_cons_self
  by_cases hbody : ∃ op, i = .body op
  · obtain ⟨op, rfl⟩ := hbody
    obtain rfl := hgets.nil_of_early rfl
    obtain ⟨o, ho, htable, -, -, hjobs'⟩ := exec_body hs
    rw [hjobs'] at hjobs
    have hcode : ([.ret op o.ret] : List (Instr K V)) = new := by
      have hjob := congrFun hjobs ()
      rw [Function.update_self, Function.update_self] at hjob
      simpa [Job.push] using congrArg Job.code (Option.some.inj hjob)
    subst hcode
    obtain rfl : n = .ret op o.ret := by simpa using hn
    cases op with
    | get key' =>
        obtain rfl : key' = key := hi
        obtain ⟨hsame, -, -, hret⟩ := hI.table.get_spec hver key'
        obtain rfl := Option.some.inj ho
        intro it hit hkey
        rw [htable, hsame] at hit
        have hsome := (hret it).2 ⟨hit, hkey⟩
        rw [hsome] at hmissed
        exact hmissed
    | putOrGet nit => cases hret : o.ret <;> rw [hret] at hmissed <;> exact hmissed.elim
    | put nit => exact hi.elim
    | delete key' => exact hi.elim
  · rw [exec_table hs fun op hop => hbody ⟨op, hop⟩]
    rcases List.mem_append.1 hn with hn | hn
    · have hafter : ∀ it : Option (Item K V), n ∈ cfg.afterGet it → False := by
        intro it hn
        unfold Config.afterGet at hn
        split_ifs at hn <;> simp at hn <;> rcases hn with rfl | rfl | rfl <;> exact hmissed
      refine h.absent i List.mem_cons_self ?_
      cases hturns with
      | lock op =>
          obtain rfl := List.mem_singleton.1 hn
          cases op <;> exact hmissed
      | body op it => exact absurd ⟨op, rfl⟩ hbody
      | getMiss key' => trivial
      | query value => trivial
      | cacheSetGet addr value hvalue => trivial
      | passed => exact (hafter _ hn).elim
      | getNone nit => exact (hafter _ hn).elim
      | getDirty nit it hthree => exact (hafter _ hn).elim
      | getExist nit it htwo hthree => exact (hafter _ hn).elim
      | getClean nit it htwo =>
          rcases List.mem_append.1 hn with hn | hn
          · simp at hn
            rcases hn with rfl | rfl <;> exact hmissed.elim
          · exact (hafter _ hn).elim
      | backKeep => exact hi.elim
      | _ => simp [Config.afterSet] at hn <;> (try rcases hn with rfl | rfl | rfl) <;> simp_all [Instr.Missed]
    · exact h.absent n (List.mem_cons_of_mem _ hn) hmissed

/-- **A step of a get.** -/
theorem Serving.get [DecidableEq K] (hI : Inv cfg False s) (hver : cfg.version.Plain)
    (hkv : cfg.KeyValue lookup) {key : K} {p : Packet K V}
    {i : Instr K V} {rest : List (Instr K V)}
    (h : Serving cfg lookup x s w ⟨.get key, p, i :: rest⟩)
    (hgets : Getting cfg w (lookup s.store key) () key ⟨.get key, p, i :: rest⟩)
    (hs : exec cfg s () ⟨.get key, p, rest⟩ true i = some s') :
    ∃ j, s'.jobs () = some j ∧ j.flow = .get key ∧ Serving cfg lookup x s' w j := by
  have hrun : GetRun lookup x s w key ⟨.get key, p, i :: rest⟩ := h.flow
  -- the get needs the newest value
  have hnewest : ∀ value, w.Since key (w.need ()) value → value = lookup x.1 key := by
    intro value hsince
    have hlast := hsince.last (by rw [hrun.need]; exact hrun.settled key)
    exact Option.some.inj (hlast.symm.trans (hrun.last key))
  rcases exec_turns hs with ⟨p', new, hturns, hjobs⟩ | ⟨hstops, hjobs⟩
  · have hnew : GetRun lookup x s' w key ⟨.get key, p', new ++ rest⟩ :=
      ⟨hrun.last, hrun.settled, hrun.need, hrun.absent_step hgets hI hver hturns hs hjobs⟩
    refine ⟨_, by rw [hjobs, Function.update_self], rfl,
      outs_step hs hturns h.outs fun hi => ?_, hnew⟩
    subst hi
    obtain ⟨hkey, value, hvalue, hsince⟩ := hgets.notStale
    have hlookup := hnewest _ hsince
    simp only [Config.serve, hkv.read, ← hlookup]
    rw [← hvalue, ← hkey]
  · have hnew : GetRun lookup x s' w key ⟨.get key, p, []⟩ :=
      ⟨hrun.last, hrun.settled, hrun.need, fun n hn => absurd hn List.not_mem_nil⟩
    refine ⟨_, by rw [hjobs, Function.update_self], rfl, Or.inr ⟨?_, rfl⟩, hnew⟩
    have hi := hgets.code i List.mem_cons_self
    have hkey : p.key = key := hgets.own_key
    cases hstops with
    | cacheSet hnot => exact hi.elim
    | query hnone =>
        have hnone : lookup s.store key = none := by rwa [hkv.read, hkey] at hnone
        have hlookup := hnewest _ hi
        rw [hnone] at hlookup
        have hserve : (cfg.serve x (.get key)).2 = x.2 := by
          simp only [Config.serve, hkv.read, ← hlookup]
        rw [(exec_outs hs).2 fun heq => (by cases heq), hserve]
        rcases h.outs with ⟨houts, -⟩ | ⟨houts, -⟩
        · exact houts
        · rwa [hserve] at houts

/-! ## The steps of a set -/

variable (cfg) in
/-- What an instruction of a set means for the record. -/
theorem act_taking [DecidableEq K] (w : Watch Unit K V) (key : K) (value : V) (i : Instr K V) :
    (i.taking cfg = 1 ∧
        (w.act () key cfg value i).values key = w.values key ++ [some value] ∧
        (w.act () key cfg value i).pos () = (w.values key).length ∨
      i.taking cfg = 0 ∧ (w.act () key cfg value i).values key = w.values key ∧
        (w.act () key cfg value i).pos () = w.pos ()) ∧
      (w.act () key cfg value i).done = w.done ∧
        ∀ key', key' ≠ key → (w.act () key cfg value i).values key' = w.values key' := by
  have htakes : ∀ key', key' ≠ key → (w.takes () key value).values key' = w.values key' :=
    fun key' hkey => Function.update_of_ne hkey _ _
  have hself : (w.takes () key value).values key = w.values key ++ [some value] ∧
      (w.takes () key value).pos () = (w.values key).length :=
    ⟨Function.update_self _ _ _, by simp only [Watch.takes, Function.update_self]⟩
  cases i with
  | update =>
      simp only [Instr.taking, Watch.act]
      split_ifs
      · exact ⟨Or.inr ⟨rfl, rfl, rfl⟩, rfl, fun _ _ => rfl⟩
      · exact ⟨Or.inl ⟨rfl, hself⟩, rfl, htakes⟩
  | body op =>
      cases op with
      | put nit =>
          simp only [Instr.taking, Watch.act]
          split_ifs
          · exact ⟨Or.inl ⟨rfl, hself⟩, rfl, htakes⟩
          · exact ⟨Or.inr ⟨rfl, rfl, rfl⟩, rfl, fun _ _ => rfl⟩
      | _ => exact ⟨Or.inr ⟨rfl, rfl, rfl⟩, rfl, fun _ _ => rfl⟩
  | cacheSet =>
      simp only [Watch.act]
      split_ifs <;> exact ⟨Or.inr ⟨rfl, rfl, rfl⟩, rfl, fun _ _ => rfl⟩
  | _ => exact ⟨Or.inr ⟨rfl, rfl, rfl⟩, rfl, fun _ _ => rfl⟩

/-- The set completes with its last instruction. -/
theorem set_ends [DecidableEq K] {w : Watch Unit K V} {key : K} {value : V}
    {code : List (Instr K V)}
    (h : taken cfg code = 1 ∧ w.done key + 1 = (w.values key).length ∧
        (w.values key).getLast? = some (lookup x.1 key) ∨
      taken cfg code = 0 ∧ w.pos () + 1 = (w.values key).length ∧ w.done key ≤ w.pos () ∧
        (w.values key).getLast? = some (some value))
    (hw' : w' = if code.isEmpty then w.ends () key else w) :
    taken cfg code = 1 ∧ w'.done key + 1 = (w'.values key).length ∧
        (w'.values key).getLast? = some (lookup x.1 key) ∨
      taken cfg code = 0 ∧ w'.pos () + 1 = (w'.values key).length ∧ w'.done key ≤ w'.pos () ∧
        (w'.values key).getLast? = some (some value) ∧
          (code = [] → w'.done key + 1 = (w'.values key).length) := by
  cases code with
  | cons i rest =>
      obtain rfl : w' = w := hw'
      exact h.imp_right fun h => ⟨h.1, h.2.1, h.2.2.1, h.2.2.2, nofun⟩
  | nil =>
      obtain rfl : w' = w.ends () key := hw'
      rcases h with ⟨htaken, -⟩ | ⟨htaken, hpos, hdone, hlast⟩
      · cases htaken
      · have hmax : (w.ends () key).done key = w.pos () :=
          (Function.update_self _ _ _).trans (max_eq_right hdone)
        refine Or.inr ⟨htaken, hpos, hmax.le, hlast, fun _ => ?_⟩
        rw [hmax]
        exact hpos

/-- The record of the other keys stays as it is. -/
theorem set_others [DecidableEq K] {w w₁ : Watch Unit K V} {key : K} (code : List (Instr K V))
    (hdone : w₁.done = w.done) (hvalues : ∀ key', key' ≠ key → w₁.values key' = w.values key')
    (hw' : w' = if code.isEmpty then w₁.ends () key else w₁) (key' : K) (hkey : key' ≠ key) :
    w'.done key' = w.done key' ∧ w'.values key' = w.values key' := by
  rw [hw']
  split_ifs
  · exact ⟨(Function.update_of_ne hkey _ _).trans (congrFun hdone key'), hvalues key' hkey⟩
  · exact ⟨congrFun hdone key', hvalues key' hkey⟩

theorem Turns.no_cacheSet {p p' : Packet K V} {i : Instr K V} {new : List (Instr K V)}
    (h : Turns cfg p i p' new) : .cacheSet ∉ new := by
  have hafter : ∀ it : Option (Item K V), .cacheSet ∉ cfg.afterGet it := fun it => by
    unfold Config.afterGet
    split_ifs <;> simp
  cases h <;> simp [Config.afterSet, hafter]

/-- With `write_through`, the key stays without an item. -/
theorem SetRun.gone_step [DecidableEq K] {key : K} {value : V} {p p' : Packet K V}
    {i : Instr K V} {new rest : List (Instr K V)}
    (h : SetRun cfg lookup x s w key value ⟨.set key value, p, i :: rest⟩)
    (hI : Inv cfg False s) (hver : cfg.version.Plain) {stage : Stage}
    (hcode : SetCode key value stage (i :: rest)) (hthrough : cfg.writeBack = false)
    (hturns : Turns cfg p i p' new)
    (hs : exec cfg s () ⟨.set key value, p, rest⟩ true i = some s')
    (hmem : .cacheSet ∈ new ++ rest) :
    Deletes key (new ++ rest) ∨ ∀ it, s'.table.Has it → it.key ≠ key := by
  have hrest : .cacheSet ∈ rest := (List.mem_append.1 hmem).resolve_left hturns.no_cacheSet
  by_cases hlock : i = .lock (.delete key)
  · subst hlock
    cases hturns
    exact Or.inl (Or.inr List.mem_cons_self)
  by_cases hbody : ∃ op, i = .body op
  · obtain ⟨op, rfl⟩ := hbody
    cases hcode with
    | deletes =>
        obtain ⟨o, ho, htable, -⟩ := exec_body hs
        obtain ⟨o', ho', -, -, -, -, -, hhas⟩ := hI.table.delete_spec hver key
        obtain rfl := Option.some.inj (ho.symm.trans ho')
        refine Or.inr fun it hit => ?_
        rw [htable] at hit
        exact ((hhas it).1 hit).2
    | body nit hkey hvalue => cases hrest
    | late code hfrees => exact (hfrees _ List.mem_cons_self).elim
  · rw [exec_table hs fun op hop => hbody ⟨op, hop⟩]
    refine (h.gone hthrough (List.mem_cons_of_mem _ hrest)).imp_left fun hdel => ?_
    rcases hdel with hdel | hdel
    · exact Or.inl (List.mem_append_right _ ((List.mem_cons.1 hdel).resolve_left (Ne.symm hlock)))
    · refine Or.inr (List.mem_append_right _ ((List.mem_cons.1 hdel).resolve_left fun hi => ?_))
      exact hbody ⟨_, hi.symm⟩

/-- **A step of a set.** -/
theorem Serving.set [DecidableEq K] (hI : Inv cfg False s) (hver : cfg.version.Plain) {key : K}
    {value : V} {p : Packet K V} {i : Instr K V} {rest : List (Instr K V)}
    (h : Serving cfg lookup x s w ⟨.set key value, p, i :: rest⟩)
    (hcode : cfg.writeBack = false → ∃ stage, SetCode key value stage (i :: rest))
    (hevict : ∀ it : Item K V, i = .evict (some it) → it.evicted = 3 → cfg.state = false)
    (hs : exec cfg s () ⟨.set key value, p, rest⟩ true i = some s') :
    ∃ j, s'.jobs () = some j ∧ j.flow = .set key value ∧
      Serving cfg lookup x s'
        (if j.code.isEmpty then (w.act () key cfg value i).ends () key
          else w.act () key cfg value i) j := by
  have hrun : SetRun cfg lookup x s w key value ⟨.set key value, p, i :: rest⟩ := h.flow
  obtain rfl : p = ⟨key, some value⟩ := hrun.packet
  have hown := hrun.own i List.mem_cons_self
  have hcons : taken cfg (i :: rest) = i.takes cfg + taken cfg rest := rfl
  obtain ⟨hact, hdone, hvalues⟩ := act_taking cfg w key value i
  have hothers : ∀ code : List (Instr K V), ∀ key', key' ≠ key →
      (if code.isEmpty then (w.act () key cfg value i).ends () key
        else w.act () key cfg value i).done key' + 1 =
        ((if code.isEmpty then (w.act () key cfg value i).ends () key
          else w.act () key cfg value i).values key').length ∧
      ((if code.isEmpty then (w.act () key cfg value i).ends () key
          else w.act () key cfg value i).values key').getLast? = some (lookup x.1 key') := by
    intro code key' hkey
    obtain ⟨hd, hv⟩ := set_others code hdone hvalues rfl key' hkey
    rw [hd, hv]
    exact hrun.others key' hkey
  rcases exec_turns hs with ⟨p', new, hturns, hjobs⟩ | ⟨hstops, hjobs⟩
  · obtain ⟨rfl, hnew, htaken⟩ := hturns.own hown hevict
    suffices hset : SetRun cfg lookup x s' (if (new ++ rest).isEmpty then
        (w.act () key cfg value i).ends () key else w.act () key cfg value i) key value
        ⟨.set key value, ⟨key, some value⟩, new ++ rest⟩ from
      ⟨_, by rw [hjobs, Function.update_self], rfl, outs_step hs hturns h.outs fun _ => rfl, hset⟩
    refine ⟨rfl, hrun.storable, ?_, hothers _, set_ends ?_ rfl, fun hthrough hmem => ?_⟩
    · intro n hn
      exact (List.mem_append.1 hn).elim (hnew n) fun hn => hrun.own n (List.mem_cons_of_mem _ hn)
    · have hself := hrun.self
      simp only [hcons] at hself
      rw [taken_append, hdone]
      rcases hself with ⟨hone, hlen, hlast⟩ | ⟨hzero, hpos, hle, hlast, -⟩
      · rcases hact with ⟨htaking, hval, hpos⟩ | ⟨htaking, hval, hpos⟩
        · refine Or.inr ⟨by omega, ?_, ?_, ?_⟩
          · rw [hval, hpos, List.length_append]
            rfl
          · rw [hpos]
            omega
          · rw [hval]
            exact List.getLast?_concat
        · exact Or.inl ⟨by omega, by rw [hval]; exact hlen, by rw [hval]; exact hlast⟩
      · rcases hact with ⟨htaking, -⟩ | ⟨htaking, hval, hpos'⟩
        · omega
        · rw [hval, hpos']
          exact Or.inr ⟨by omega, hpos, hle, hlast⟩
    · obtain ⟨stage, hset⟩ := hcode hthrough
      exact hrun.gone_step hI hver hset hthrough hturns hs hmem
  · cases hstops with
    | query hnone => exact hown.elim
    | cacheSet hnot =>
        -- the set is not storable, and has come to the port before
        have hthrough : cfg.writeBack = false := by
          cases hback : cfg.writeBack with
          | false => rfl
          | true => exact absurd (hrun.storable hback) (hnot value rfl)
        obtain ⟨stage, hset⟩ := hcode hthrough
        obtain rfl : rest = [] := by
          cases hset with
          | inserts => rfl
          | late code hfrees => exact (hfrees _ List.mem_cons_self).elim
        have howed : owed cfg [(.cacheSet : Instr K V)] = 0 := by
          simp [owed, Instr.yields, hthrough]
        have hzero : taken cfg [(.cacheSet : Instr K V)] = 0 := by
          simp [taken, Instr.takes, hthrough]
        have houts : s'.outs.map Prod.snd = (cfg.serve x (.set key value)).2 := by
          rw [(exec_outs hs).2 fun heq => (by cases heq)]
          rcases h.outs with ⟨-, hone⟩ | ⟨houts, -⟩
          · rw [howed] at hone
            cases hone
          · exact houts
        suffices hset : SetRun cfg lookup x s' ((w.act () key cfg value .cacheSet).ends () key) key
            value ⟨.set key value, ⟨key, some value⟩, []⟩ from
          ⟨_, by rw [hjobs, Function.update_self], rfl, Or.inr ⟨houts, rfl⟩, hset⟩
        refine ⟨rfl, hrun.storable, by intros; contradiction, hothers [],
          set_ends (Or.inr ⟨rfl, ?_⟩) rfl, by intros; contradiction⟩
        rw [hdone]
        rcases hrun.self with ⟨hone, -⟩ | ⟨-, hpos, hle, hlast, -⟩
        · rw [hzero] at hone
          cases hone
        · rcases hact with ⟨htaking, -⟩ | ⟨-, hval, hpos'⟩
          · cases htaking
          · rw [hval, hpos']
            exact ⟨hpos, hle, hlast⟩

/-! ## The runs -/

/-- The invariant of runs, with the record. -/
def Served (cfg : Config K V σ) (lookup : σ → K → Option V) (store : σ) (flows : List (Flow K V))
    (s : State N Unit K V σ) : Prop :=
  ∃ w, Fresh cfg lookup (s, w) ∧ Serial cfg lookup store flows s w

/-- A get and a set know what they need in either mode. -/
theorem Fresh.getting {j : Job K V} (h : Fresh cfg lookup (s, w)) (hj : s.jobs () = some j)
    {key : K} (hflow : j.flow = .get key) :
    Getting cfg w (lookup s.store key) () key j := by
  obtain ⟨-, hmode⟩ := h
  split_ifs at hmode
  · have hknows := hmode.flows () j hj
    unfold Job.KnowsBack at hknows
    rwa [hflow] at hknows
  · have hknows := hmode.flows () j hj
    unfold Job.Knows at hknows
    rwa [hflow] at hknows

theorem Fresh.past_lt (h : Fresh cfg lookup (s, w)) (key : K) :
    w.past key < (w.values key).length := by
  obtain ⟨-, hmode⟩ := h
  split_ifs at hmode
  · exact hmode.past_lt key
  · exact hmode.past key

theorem Fresh.setting {j : Job K V} (h : Fresh cfg lookup (s, w)) (hj : s.jobs () = some j)
    {key : K} {value : V} (hflow : j.flow = .set key value) (hback : cfg.writeBack = false) :
    Setting w () key value j := by
  obtain ⟨-, hmode⟩ := h
  rw [hback, if_neg Bool.false_ne_true] at hmode
  have hknows := hmode.flows () j hj
  unfold Job.Knows at hknows
  rwa [hflow] at hknows

theorem Fresh.putting {j : Job K V} (h : Fresh cfg lookup (s, w)) (hj : s.jobs () = some j)
    {key : K} {value : V} (hflow : j.flow = .set key value) (hback : cfg.writeBack = true) :
    Putting key value j := by
  obtain ⟨-, hmode⟩ := h
  rw [if_pos hback] at hmode
  have hknows := hmode.flows () j hj
  unfold Job.KnowsBack at hknows
  rw [hflow] at hknows
  exact hknows.1

/-- No request but a set inserts with `cache_put`. -/
theorem Fresh.put_flow (h : Fresh cfg lookup (s, w)) {flow : Flow K V} {p : Packet K V}
    {nit : Item K V} {rest : List (Instr K V)}
    (hj : s.jobs () = some ⟨flow, p, .body (.put nit) :: rest⟩)
    (hserving : Serving cfg lookup x s w ⟨flow, p, .body (.put nit) :: rest⟩) :
    ∃ key value, flow = .set key value := by
  cases flow with
  | get key => exact ((h.getting hj rfl).code _ List.mem_cons_self).elim
  | set key value => exact ⟨key, value, rfl⟩
  | delete key => exact hserving.flow.elim

/-- **Nothing stale goes into the table**, and what is written back is written as it should. -/
theorem Serving.timely {j : Job K V} (h : Serving cfg lookup x s w j)
    (hfresh : Fresh cfg lookup (s, w)) (hj : s.jobs () = some j)
    (hintact : Intact cfg s (.go () true)) : Timely cfg (s, w) (.go () true) := by
  simp only [Timely]
  split
  · next flow p nit rest hjob =>
      obtain rfl := Option.some.inj (hj.symm.trans hjob)
      cases flow with
      | get key =>
          have hgets := hfresh.getting hj rfl
          obtain ⟨hkey, hsince, -⟩ : nit.key = key ∧ w.Since key (w.need ()) (some nit.value) ∧
              p.value.isSome := hgets.code _ List.mem_cons_self
          have hrun : GetRun lookup x s w key _ := h.flow
          have hpast := hfresh.past_lt key
          have hsettled := hrun.settled key
          have hneed := hrun.need
          rw [hkey]
          refine ⟨fun _ => hsince.mono (by omega), fun it hit hitkey => ?_⟩
          exact absurd hitkey (hrun.absent _ List.mem_cons_self trivial it hit)
      | set key value =>
          have hrun : SetRun cfg lookup x s w key value _ := h.flow
          exact (hrun.own _ List.mem_cons_self).elim
      | delete key => exact h.flow.elim
  · next flow p nit rest hjob =>
      cases hback : cfg.writeBack with
      | true => exact Or.inl rfl
      | false =>
          refine Or.inr (Or.inl ?_)
          obtain rfl := Option.some.inj (hj.symm.trans hjob)
          obtain ⟨key, value, rfl⟩ := hfresh.put_flow hj h
          have hrun : SetRun cfg lookup x s w key value _ := h.flow
          obtain ⟨-, stage, hset, hknows⟩ := hfresh.setting hj rfl hback
          have hpast := hfresh.past_lt key
          cases hset with
          | body nit hkey hvalue =>
              rcases hrun.self with ⟨hone, -⟩ | ⟨-, hpos, -⟩
              · simp [taken, Instr.takes, hback] at hone
              · rw [hkey, hvalue]
                exact (Watch.since_of_getElem? hknows).mono (by omega)
          | late code hfrees => exact (hfrees _ List.mem_cons_self).elim
  · next key value p rest hjob =>
      cases hback : cfg.writeBack with
      | true => exact Or.inl rfl
      | false =>
          refine Or.inr (Or.inr fun it hit hkey => ?_)
          obtain rfl := Option.some.inj (hj.symm.trans hjob)
          have hrun : SetRun cfg lookup x s w key value _ := h.flow
          obtain ⟨-, stage, hset, -⟩ := hfresh.setting hj rfl hback
          rcases hrun.gone hback List.mem_cons_self with hdel | habsent
          · cases hset with
            | inserts => rcases hdel with hdel | hdel <;> simp at hdel
            | late code hfrees => exact (hfrees _ List.mem_cons_self).elim
          · exact absurd hkey (habsent it hit)
  · next flow p it rest hjob =>
      intro hthree
      simp only [Intact, hjob] at hintact
      obtain ⟨hstate, hpointer⟩ := hintact hthree
      rw [hstate, if_neg Bool.false_ne_true]
      exact hpointer
  · trivial

theorem served_init (cfg : Config K V σ) (lookup : σ → K → Option V) (store : σ) :
    Served cfg lookup store [] (State.init store : State N Unit K V σ) :=
  ⟨Watch.init (lookup store), fresh_init cfg lookup store, rfl, fun _ => rfl, fun _ => rfl⟩

variable [DecidableEq K]

/-- A request starts. -/
theorem Idle.start (h : Idle lookup x s w) {flow : Flow K V} (hflow : ∀ key, flow ≠ .delete key)
    (hintact : Intact cfg s (.start () flow)) :
    Serving cfg lookup x (s.goto () (cfg.start flow))
      (w.next cfg s (s.goto () (cfg.start flow)) (.start () flow)) (cfg.start flow) := by
  cases flow with
  | get key =>
      refine ⟨Or.inl ⟨h.outs, rfl⟩, h.last, h.settled, ?_, fun i hi hmissed => ?_⟩
      · simp only [Watch.next, Function.update_self]
      · obtain rfl := List.mem_singleton.1 hi
        exact hmissed.elim
  | set key value =>
      have hbefore : SetRun cfg lookup x (s.goto () (cfg.start (.set key value)))
          (w.next cfg s (s.goto () (cfg.start (.set key value))) (.start () (.set key value))) key
          value (cfg.start (.set key value)) := by
        refine ⟨rfl, hintact, ?_, fun key' _ => ⟨h.settled key', h.last key'⟩,
          Or.inl ⟨?_, h.settled key, h.last key⟩, fun hback _ => Or.inl (Or.inl ?_)⟩
        · cases hback : cfg.writeBack <;> simp [Config.start, hback, Instr.Own]
        · cases hback : cfg.writeBack <;> simp [Config.start, hback, taken, Instr.takes]
        · simp [Config.start, hback]
      refine ⟨Or.inl ⟨h.outs, ?_⟩, hbefore⟩
      cases hback : cfg.writeBack <;> simp [Config.start, hback, owed, Instr.yields, Op.yields]
  | delete key => exact absurd rfl (hflow key)

/-- **The step lemma.** -/
theorem Served.of_step {flows : List (Flow K V)} (h : Served cfg lookup store flows s)
    (hver : cfg.version.Plain) (hkv : cfg.KeyValue lookup) {a : Act Unit K V} (hplain : a.Plain)
    (hintact : Intact cfg s a) (hs : step cfg s a = some s') :
    Served cfg lookup store (flows ++ requests [a]) s' := by
  obtain ⟨w, hfresh, hserial⟩ := h
  have hnext : Timely cfg (s, w) a → Fresh cfg lookup (s', w.next cfg s s' a) := fun htimely =>
    hfresh.of_step hver hkv hplain htimely (by simp only [stepW, hs, Option.map_some])
  cases a with
  | start t flow =>
      refine ⟨_, hnext trivial, ?_⟩
      simp only [step] at hs
      split_ifs at hs with hc
      obtain rfl := Option.some.inj hs
      have hidle := hserial.idle hkv (List.isEmpty_iff.1 hc)
      have hflow : (cfg.start flow).flow = flow := by cases flow <;> rfl
      unfold Serial
      rw [goto_jobs_self]
      exact ⟨flows, by rw [hflow]; rfl, hidle.start hplain hintact⟩
  | go t ok =>
      obtain rfl : ok = true := hplain
      rw [show flows ++ requests [(.go t true : Act Unit K V)] = flows from List.append_nil _]
      have hstep := hs
      simp only [step] at hs
      split at hs
      · cases hs
      · next j hj =>
          obtain ⟨flow, p, code⟩ := j
          cases code with
          | nil => cases hs
          | cons i rest =>
              simp only at hs
              unfold Serial at hserial
              rw [hj] at hserial
              obtain ⟨before, hflows, hserving⟩ := hserial
              refine ⟨_, hnext (hserving.timely hfresh hj hintact), ?_⟩
              cases flow with
              | get key =>
                  obtain ⟨j', hj', hflow, hserving'⟩ :=
                    hserving.get hfresh.1 hver hkv (hfresh.getting hj rfl) hs
                  simp only [Serial, hj', Watch.next, hj]
                  exact ⟨before, by rw [hflow]; exact hflows, hserving'⟩
              | set key value =>
                  obtain ⟨j', hj', hflow, hserving'⟩ := hserving.set hfresh.1 hver
                    (fun hback => by
                      obtain ⟨stage, hset, -⟩ := (hfresh.setting hj rfl hback).code
                      exact ⟨stage, hset⟩)
                    (fun it hi hthree => by
                      subst hi
                      simp only [Intact, hj] at hintact
                      exact (hintact hthree).1) hs
                  simp only [Serial, hj', Watch.next, hj, code_of_jobs hj']
                  exact ⟨before, by rw [hflow]; exact hflows, hserving'⟩
              | delete key => exact hserving.flow.elim

omit [DecidableEq K] in
theorem requests_append {T : Type*} (as bs : List (Act T K V)) :
    requests (as ++ bs) = requests as ++ requests bs :=
  List.filterMap_append

/-- **The cache does not change results.**  In front of a key-value store and with either write
policy, gets and sets that are processed one after the other come to the port `out` with the keys
and values with which they come there without the cache, if no set is lost and no dirty item is
written back through the per-packet state or under a wrong key; and every request is processed to
completion. -/
theorem sameResults_run (hver : cfg.version = cpu ∨ cfg.version = cavium)
    (hkv : cfg.KeyValue lookup) (store : σ) (as : List (Act Unit K V))
    (hplain : ∀ a ∈ as, a.Plain)
    (hmeets : Meets (step cfg) (Intact cfg) (State.init store : State N Unit K V σ) as)
    (s : State N Unit K V σ) (hrun : run (step cfg) (State.init store) as = some s) :
    (s.code () = [] → SameResults cfg store (requests as) s) ∧
      ∃ n s', run (step cfg) s (List.replicate n (.go () true)) = some s' ∧ s'.code () = [] := by
  have hver' : cfg.version.Plain := by
    rcases hver with hver | hver <;> rw [hver]
    · exact cpu_plain
    · exact cavium_plain
  have hserved : Served cfg lookup store (requests as) s :=
    run_history (P := fun as s => Served cfg lookup store (requests as) s)
      (fun as s a s' hs hC hstep => by
        rw [requests_append]
        exact hs.of_step hver' hkv hC.2 hC.1 hstep)
      (show Served cfg lookup store (requests []) _ from served_init cfg lookup store)
      (hmeets.and_mem hplain) hrun
  obtain ⟨w, hfresh, hserial⟩ := hserved
  exact ⟨fun hc => (hserial.idle hkv hc).outs, State.completes hfresh.1 hver'⟩

/-- A write-back cache of integers with one bucket of one place, in front of a store. -/
def backCache (state pointerKey : Bool) : Config ℕ ℕ (ℕ → Option ℕ) :=
  { storeCache with
    writeBack := true
    writeAlloc := true
    back_alloc := fun _ => rfl
    state := state
    pointerKey := pointerKey }

theorem backCache_keyValue (state pointerKey : Bool) :
    (backCache state pointerKey).KeyValue fun store key => store key :=
  ⟨storeCache_keyValue.read, storeCache_keyValue.write_self, storeCache_keyValue.write_of_ne⟩

/-- Two sets; the second evicts the item of the first, in `n` steps. -/
def twoSets (n : ℕ) : List (Act Unit ℕ ℕ) :=
  .start () (.set 3 1) :: List.replicate 8 (.go () true) ++
    .start () (.set 4 2) :: List.replicate n (.go () true)

theorem sameResults_twoSets : ∃ s : State 0 Unit ℕ ℕ (ℕ → Option ℕ),
    run (step (backCache false true)) (State.init oldStore) (twoSets 10) = some s ∧
      s.code () = [] ∧
        SameResults (backCache false true) oldStore (requests (twoSets 10)) s := by
  refine ⟨_, rfl, rfl, (sameResults_run (Or.inl rfl) (backCache_keyValue false true) oldStore
    (twoSets 10) ?_ (Meets.of_forall (fun s a => ?_) _ _) _ rfl).1 rfl⟩
  · simp [twoSets, Act.Plain]
  · unfold Intact
    split
    · exact fun _ => rfl
    · trivial
    · split
      · exact fun _ => ⟨rfl, rfl⟩
      · trivial

/-- **A set comes to the port with the key and the value of the item that it evicted**: `Evict`
overwrites the per-packet state before `EvictSave` saves it. -/
theorem wrong_packet : ∃ s : State 0 Unit ℕ ℕ (ℕ → Option ℕ),
    run (step (backCache true true)) (State.init oldStore) (twoSets 12) = some s ∧
      s.code () = [] ∧ s.outs.head? = some ((), .set 4 2, ⟨3, some 1⟩) ∧
        ¬ SameResults (backCache true true) oldStore (requests (twoSets 12)) s := by
  refine ⟨_, rfl, rfl, rfl, fun h => ?_⟩
  have hpackets := congrArg (List.map fun o => o.2.key) h
  exact absurd hpackets (by decide)

end Flows
end Cache
end Floem
