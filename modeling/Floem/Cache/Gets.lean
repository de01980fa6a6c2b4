import Floem.Cache.Watch

/-!
# The flows of gets

* `Getting` — what the flow of a get knows of its value.
* `Getting.frame`, `Getting.exec` — the steps of other threads and its own steps keep it.
* `exec_jobs`, `exec_table`, `exec_store` — what an instruction leaves as it is.
-/

namespace Floem
namespace Cache
namespace Flows

open Lib

variable {K V T σ : Type*} {N : ℕ}

/-! ## Gets -/

/-- What an operation of a get carries. -/
def Op.Gets (w : Watch T K V) (key : K) (n : ℕ) (packet : Packet K V) : Op K V → Prop
  | .get key' => key' = key
  | .putOrGet nit => nit.key = key ∧ w.Since key n (some nit.value) ∧ packet.value.isSome
  | _ => False

/-- What an instruction of a get carries; `stored` is the value of the store. -/
def Instr.Gets (cfg : Config K V σ) (w : Watch T K V) (key : K) (n : ℕ) (stored : Option V)
    (packet : Packet K V) : Instr K V → Prop
  | .lock op => op.Gets w key n packet
  | .body op => op.Gets w key n packet
  | .ret (.get _) none => w.Since key n stored
  | .ret (.get _) (some it) => it.key = key ∧ w.Since key n (some it.value)
  | .ret (.putOrGet _) none => packet.value.isSome
  | .ret (.putOrGet nit) (some it) =>
      packet.value.isSome ∧
        (¬ it.evicted &&& 2 ≠ 0 →
          it.key = key ∧ w.Since key n (some (cfg.found nit.value it.value))) ∧
        (it.evicted &&& 2 ≠ 0 → it.evicted = 2 ∨ it.evicted = 3)
  | .ret _ _ => False
  | .query => w.Since key n stored
  | .cacheSetGet => packet.value.isSome
  | .out => packet.value.isSome
  | .evict _ => cfg.writeBack = true
  | .write _ _ => cfg.writeBack = true
  | .update => False
  | .cacheSet => False
  | .evictSave _ => False
  | .evictRevert _ => False
  | _ => True

/-- What the flow of a get knows. -/
structure Getting (cfg : Config K V σ) (w : Watch T K V) (stored : Option V) (t : T) (key : K)
    (j : Job K V) : Prop where
  need : w.need t ≤ w.past key
  own_key : j.packet.key = key
  value : ∀ v, j.packet.value = some v → w.Since key (w.need t) (some v)
  code : ∀ i ∈ j.code, i.Gets cfg w key (w.need t) stored j.packet
  alone : ∀ i ∈ j.code, i.early = true → j.code = [i]

variable {cfg : Config K V σ} {w w' : Watch T K V} {stored stored' : Option V} {t : T} {key : K}
  {j : Job K V}

/-- The steps of others. -/
theorem Getting.frame (h : Getting cfg w stored t key j) (hgrows : w.Grows w')
    (hneed : w'.need t = w.need t)
    (hstored : w.Since key (w.need t) stored → w'.Since key (w.need t) stored') :
    Getting cfg w' stored' t key j where
  need := hneed ▸ h.need.trans (hgrows.past key)
  own_key := h.own_key
  value v hv := hneed ▸ hgrows.since (h.value v hv)
  code i hi := by
    have hi' := h.code i hi
    rw [hneed]
    have hop : ∀ op : Op K V, op.Gets w key (w.need t) j.packet →
        op.Gets w' key (w.need t) j.packet := fun op hop => by
      cases op with
      | putOrGet nit => exact ⟨hop.1, hgrows.since hop.2.1, hop.2.2⟩
      | _ => exact hop
    cases i with
    | lock op => exact hop op hi'
    | body op => exact hop op hi'
    | ret op it =>
        cases op with
        | get key' =>
            cases it with
            | none => exact hstored hi'
            | some it => exact ⟨hi'.1, hgrows.since hi'.2⟩
        | putOrGet nit =>
            cases it with
            | none => exact hi'
            | some it =>
                exact ⟨hi'.1, fun hin => ⟨(hi'.2.1 hin).1, hgrows.since (hi'.2.1 hin).2⟩, hi'.2.2⟩
        | put nit => cases it <;> exact hi'
        | delete key' => cases it <;> exact hi'
    | query => exact hstored hi'
    | _ => exact hi'
  alone := h.alone

/-- The instructions behind the operations, which carry nothing. -/
def Instr.Late (cfg : Config K V σ) (packet : Packet K V) : Instr K V → Prop
  | .out => packet.value.isSome
  | .evict _ => cfg.writeBack = true
  | .write _ _ => cfg.writeBack = true
  | .free _ => True
  | .freeOrRelease _ => True
  | .release _ => True
  | .dispose _ => True
  | _ => False

theorem Instr.Late.gets {packet : Packet K V} {i : Instr K V} (h : i.Late cfg packet) (n : ℕ) :
    i.Gets cfg w key n stored packet ∧ i.early = false := by
  cases i <;> simp_all [Instr.Late, Instr.Gets, Instr.early]

/-- The flow goes on with late instructions. -/
theorem Getting.late (hneed : w.need t ≤ w.past key) (hkey : j.packet.key = key)
    (hvalue : ∀ v, j.packet.value = some v → w.Since key (w.need t) (some v))
    (hlate : ∀ i ∈ j.code, i.Late cfg j.packet) : Getting cfg w stored t key j where
  need := hneed
  own_key := hkey
  value := hvalue
  code i hi := ((hlate i hi).gets _).1
  alone i hi hearly := by
    have hgets : i.Gets cfg w key 0 stored j.packet ∧ i.early = false := (hlate i hi).gets 0
    rw [hgets.2] at hearly
    cases hearly

/-- The flow goes on with one instruction. -/
theorem Getting.one (hneed : w.need t ≤ w.past key) (hkey : j.packet.key = key)
    (hvalue : ∀ v, j.packet.value = some v → w.Since key (w.need t) (some v)) (i : Instr K V)
    (hcode : j.code = [i]) (hi : i.Gets cfg w key (w.need t) stored j.packet) :
    Getting cfg w stored t key j where
  need := hneed
  own_key := hkey
  value := hvalue
  code n hn := by
    rw [hcode, List.mem_singleton] at hn
    rw [hn]
    exact hi
  alone n hn _ := by
    rw [hcode, List.mem_singleton] at hn
    rw [hcode, hn]

theorem late_afterGet {packet : Packet K V} (hout : packet.value.isSome) (it : Option (Item K V)) :
    ∀ i ∈ cfg.afterGet it, i.Late cfg packet := by
  unfold Config.afterGet
  split_ifs with hback <;> simp [Instr.Late, hout, hback]

/-- **The rest of an element**, with the value that its operation returned. -/
theorem Getting.returned {op : Op K V} {it : Option (Item K V)} {packet : Packet K V}
    (h : Getting cfg w stored t key ⟨.get key, packet, [.ret op it]⟩) :
    Getting cfg w stored t key (cfg.returned ⟨.get key, packet, []⟩ op it) ∧
      (cfg.returned ⟨.get key, packet, []⟩ op it).flow = .get key := by
  have hret := h.code _ List.mem_cons_self
  cases op with
  | get key' =>
      cases it with
      | none =>
          refine ⟨Getting.one h.need h.own_key (fun v hv => by cases hv) .query rfl hret, rfl⟩
      | some it =>
          refine ⟨Getting.late h.need h.own_key (fun v hv => ?_) ?_, rfl⟩
          · rw [← Option.some.inj hv]
            exact hret.2
          · simp [Config.returned, Job.push, Instr.Late]
  | putOrGet nit =>
      cases it with
      | none =>
          refine ⟨Getting.late h.need h.own_key h.value fun i hi => ?_, rfl⟩
          exact late_afterGet hret _ i (by simpa [Config.returned, Job.push] using hi)
      | some it =>
          obtain ⟨hsome, hin, hout⟩ := hret
          simp only [Config.returned]
          split_ifs with htwo hthree hstate
          · refine ⟨Getting.late h.need h.own_key h.value fun i hi => ?_, rfl⟩
            simp only [Job.push, List.append_nil, List.cons_append, List.nil_append,
              List.mem_cons] at hi
            rcases hi with rfl | rfl | hi
            · trivial
            · trivial
            · exact late_afterGet hsome _ i hi
          · refine ⟨Getting.late h.need h.own_key h.value fun i hi => ?_, rfl⟩
            exact late_afterGet hsome _ i (by simpa [Job.push] using hi)
          all_goals
            have hflag : ¬ it.evicted &&& 2 ≠ 0 := fun hflag =>
              (hout hflag).elim htwo hthree
            have hvalue : ∀ v, some (cfg.found nit.value it.value) = some v →
                w.Since key (w.need t) (some v) :=
              fun v hv => Option.some.inj hv ▸ (hin hflag).2
          · refine ⟨Getting.late h.need (hin hflag).1 hvalue fun i hi => ?_, rfl⟩
            exact late_afterGet rfl _ i (by simpa [Job.push] using hi)
          · refine ⟨Getting.late h.need h.own_key hvalue fun i hi => ?_, rfl⟩
            exact late_afterGet rfl _ i (by simpa [Job.push] using hi)
  | put nit => cases it <;> exact hret.elim
  | delete key' => cases it <;> exact hret.elim

/-- Behind a late instruction, all are late. -/
theorem Getting.lates (h : Getting cfg w stored t key j) {i : Instr K V} (hi : i ∈ j.code)
    (hearly : i.early = false) : ∀ n ∈ j.code, n.Late cfg j.packet := by
  intro n hn
  have hgets := h.code n hn
  have hnearly : n.early = false := by
    cases hne : n.early with
    | false => rfl
    | true =>
        rw [h.alone n hn hne, List.mem_singleton] at hi
        rw [hi, hne] at hearly
        cases hearly
  cases n <;> simp_all [Instr.Late, Instr.Gets, Instr.early]

/-- A late instruction leaves late ones. -/
theorem Getting.push {packet : Packet K V} {i : Instr K V} {rest : List (Instr K V)}
    (h : Getting cfg w stored t key ⟨.get key, packet, i :: rest⟩) (hearly : i.early = false)
    (new : List (Instr K V)) (hnew : ∀ n ∈ new, n.Late cfg packet) :
    Getting cfg w stored t key ⟨.get key, packet, new ++ rest⟩ := by
  have hlates := h.lates List.mem_cons_self hearly
  refine Getting.late h.need h.own_key h.value fun n hn => ?_
  exact (List.mem_append.1 hn).elim (hnew n) fun hn => hlates n (List.mem_cons_of_mem _ hn)

theorem Getting.nil_of_early {packet : Packet K V} {i : Instr K V} {rest : List (Instr K V)}
    (h : Getting cfg w stored t key ⟨.get key, packet, i :: rest⟩) (hearly : i.early = true) :
    rest = [] :=
  (List.cons.inj (h.alone i List.mem_cons_self hearly)).2

variable [DecidableEq T] [DecidableEq K] {s s' : State N T K V σ} {lookup : σ → K → Option V}

omit [DecidableEq T] in
/-- The operation of a get returns a value that is not too old. -/
theorem Getting.body (hI : Inv cfg False s) (hver : cfg.version.Plain) {packet : Packet K V}
    {op : Op K V} {rest : List (Instr K V)} (hc : s.code t = .body op :: rest)
    (h : Getting cfg w stored t key ⟨.get key, packet, .body op :: rest⟩)
    (hcached : ∀ it, s.table.Has it → w.Since it.key (w.past it.key) (some it.value))
    (hmiss : (∀ it, s.table.Has it → it.key ≠ key) → w.Since key (w.need t) stored)
    (hfound : ∀ nit, op = .putOrGet nit → ∀ it, s.table.Has it → it.key = nit.key →
      cfg.found nit.value it.value = it.value)
    {o : Outcome (Table N K V) K V} (ho : cfg.call s.table op = some o) :
    (Instr.ret op o.ret).Gets cfg w key (w.need t) stored packet := by
  have hop : op.Gets w key (w.need t) packet := h.code _ List.mem_cons_self
  have hhit : ∀ it, s.table.Has it → it.key = key → w.Since key (w.need t) (some it.value) :=
    fun it hit hkey => by
      have := hcached it hit
      rw [hkey] at this
      exact this.mono h.need
  cases op with
  | get key' =>
      obtain rfl : key' = key := hop
      obtain ⟨-, -, -, hret⟩ := hI.table.get_spec hver key'
      obtain rfl := Option.some.inj ho
      cases hit : (s.table.get cfg.version cfg.nbuckets key' (cfg.hash key')).ret with
      | none =>
          refine hmiss fun it hhas hkey => ?_
          rw [(hret it).2 ⟨hhas, hkey⟩] at hit
          cases hit
      | some it =>
          obtain ⟨hhas, hkey⟩ := (hret it).1 hit
          exact ⟨hkey, hhit it hhas hkey⟩
  | putOrGet nit =>
      have hputs := hI.putsOrGets hver hc ho
      cases hit : o.ret with
      | none => exact hop.2.2
      | some it =>
          refine ⟨hop.2.2, ?_⟩
          cases hputs with
          | exist old hold hkey hbucket hfreed hret hunlock hhas =>
              obtain rfl := Option.some.inj (hit.symm.trans hret)
              have hold_key : it.key = key := hkey.trans hop.1
              have hflag := hI.table.evicted hold
              refine ⟨fun _ => ⟨hold_key, ?_⟩, fun hout => absurd ?_ hout⟩
              · rw [hfound nit rfl it hold hkey]
                exact hhit it hold hold_key
              rcases hflag with hflag | hflag <;> rw [hflag] <;> decide
          | insert habsent hfreed hins =>
              cases hins with
              | free hroom hhas hret hunlock =>
                  rw [hret] at hit
                  cases hit
              | evict old hold hbucket hfull hreplace hhas hret hunlock =>
                  obtain rfl := Option.some.inj (hit.symm.trans hret)
                  have hflag := hI.table.evicted hold
                  refine ⟨fun hin => absurd ?_ hin, fun _ => ?_⟩
                  · rcases hflag with hflag | hflag <;> simp only [hflag] <;> decide
                  · rcases hflag with hflag | hflag
                    · exact Or.inl (by simp only [hflag]; decide)
                    · exact Or.inr (by simp only [hflag]; decide)
              | fail hfull hreplace hhas hret hunlock => cases hreplace
  | put nit => exact hop.elim
  | delete key' => exact hop.elim

/-- **The steps of a get** keep what it knows. -/
theorem Getting.exec (hkv : cfg.KeyValue lookup) {packet : Packet K V} {i : Instr K V}
    {rest : List (Instr K V)}
    (h : Getting cfg w (lookup s.store key) t key ⟨.get key, packet, i :: rest⟩)
    (hbody : ∀ op o, i = .body op → cfg.call s.table op = some o →
      (Instr.ret op o.ret).Gets cfg w key (w.need t) (lookup s.store key) packet)
    (hevict : ∀ it : Item K V, i = .evict (some it) → it.evicted = 3 → cfg.state = false)
    (hs : exec cfg s t ⟨.get key, packet, rest⟩ true i = some s') :
    ∃ j', s'.jobs = Function.update s.jobs t (some j') ∧ j'.flow = .get key ∧
      Getting cfg w (lookup s.store key) t key j' := by
  have hi := h.code i List.mem_cons_self
  have hdone : i.early = false → Getting cfg w (lookup s.store key) t key
      ⟨.get key, packet, rest⟩ := fun hearly => h.push hearly [] (fun _ hi => by cases hi)
  cases i with
  | lock op =>
      obtain rfl := h.nil_of_early rfl
      simp only [Flows.exec, if_true] at hs
      split_ifs at hs
      obtain rfl := Option.some.inj hs
      exact ⟨_, rfl, rfl, Getting.one h.need h.own_key h.value (.body op) rfl hi⟩
  | body op =>
      obtain rfl := h.nil_of_early rfl
      simp only [Flows.exec, Option.map_eq_some_iff] at hs
      obtain ⟨o, ho, rfl⟩ := hs
      exact ⟨_, rfl, rfl, Getting.one h.need h.own_key h.value (.ret op o.ret) rfl
        (hbody op o rfl ho)⟩
  | ret op it =>
      obtain rfl := h.nil_of_early rfl
      obtain rfl := Option.some.inj hs
      exact ⟨_, rfl, h.returned.2, h.returned.1⟩
  | query =>
      obtain rfl := h.nil_of_early rfl
      simp only [Flows.exec, hkv.read] at hs
      split at hs
      · next value hvalue =>
          obtain rfl := Option.some.inj hs
          refine ⟨_, rfl, rfl, Getting.one h.need h.own_key (fun v hv => ?_) .cacheSetGet rfl rfl⟩
          have hown : packet.key = key := h.own_key
          simp only [hown] at hvalue
          have hquery : w.Since key (w.need t) (lookup s.store key) := hi
          rw [hvalue] at hquery
          rw [← Option.some.inj hv]
          exact hquery
      · obtain rfl := Option.some.inj hs
        exact ⟨_, rfl, rfl, Getting.late h.need h.own_key h.value (fun _ hi => by cases hi)⟩
  | cacheSetGet =>
      obtain rfl := h.nil_of_early rfl
      have hsome : packet.value.isSome := hi
      simp only [Flows.exec] at hs
      split at hs
      · next value hvalue =>
          split_ifs at hs
          · obtain rfl := Option.some.inj hs
            exact ⟨_, rfl, rfl, Getting.one h.need h.own_key h.value
              (.lock (.putOrGet (cfg.alloc s.fresh packet.key value))) rfl
              ⟨h.own_key, h.value value hvalue, hsome⟩⟩
          · obtain rfl := Option.some.inj hs
            refine ⟨_, rfl, rfl, Getting.late h.need h.own_key h.value fun n hn => ?_⟩
            exact late_afterGet hsome _ n (by simpa [Job.push] using hn)
      · next hvalue =>
          rw [hvalue] at hsome
          cases hsome
  | evict it =>
      cases it with
      | none =>
          obtain rfl := Option.some.inj hs
          exact ⟨_, rfl, rfl, hdone rfl⟩
      | some it =>
          simp only [Flows.exec] at hs
          split_ifs at hs with hthree hstate
          · rw [hevict it rfl hthree] at hstate
            cases hstate
          · obtain rfl := Option.some.inj hs
            refine ⟨_, rfl, rfl, h.push rfl [.write _ _] fun n hn => ?_⟩
            rw [List.mem_singleton.1 hn]
            exact hi
          · obtain rfl := Option.some.inj hs
            exact ⟨_, rfl, rfl, hdone rfl⟩
  | write key' value =>
      obtain rfl := Option.some.inj hs
      exact ⟨_, rfl, rfl, hdone rfl⟩
  | out =>
      obtain rfl := Option.some.inj hs
      exact ⟨_, rfl, rfl, hdone rfl⟩
  | free it =>
      cases it with
      | none =>
          obtain rfl := Option.some.inj hs
          exact ⟨_, rfl, rfl, hdone rfl⟩
      | some it =>
          obtain rfl := Option.some.inj hs
          refine ⟨_, rfl, rfl, h.push rfl _ fun n hn => ?_⟩
          split_ifs at hn
          · rcases List.mem_pair.1 hn with rfl | rfl <;> trivial
          · cases hn
  | freeOrRelease it =>
      cases it with
      | none =>
          obtain rfl := Option.some.inj hs
          exact ⟨_, rfl, rfl, hdone rfl⟩
      | some it =>
          obtain rfl := Option.some.inj hs
          refine ⟨_, rfl, rfl, h.push rfl _ fun n hn => ?_⟩
          split_ifs at hn
          · rcases List.mem_pair.1 hn with rfl | rfl <;> trivial
          · rw [List.mem_singleton.1 hn]
            trivial
  | release it =>
      simp only [Flows.exec, Option.bind_eq_some_iff] at hs
      obtain ⟨idx, hidx, hs⟩ := hs
      split_ifs at hs
      obtain rfl := Option.some.inj hs
      exact ⟨_, rfl, rfl, hdone rfl⟩
  | dispose it =>
      obtain rfl := Option.some.inj hs
      exact ⟨_, rfl, rfl, hdone rfl⟩
  | update => exact hi.elim
  | cacheSet => exact hi.elim
  | evictSave it => exact hi.elim
  | evictRevert saved => exact hi.elim

/-! ## What instructions leave as it is -/

theorem exec_table {j : Job K V} {ok : Bool} {i : Instr K V}
    (hs : exec cfg s t j ok i = some s') (hi : ∀ op, i ≠ .body op) : s'.table = s.table := by
  cases i with
  | body op => exact absurd rfl (hi op)
  | evict it =>
      cases it <;> simp only [exec] at hs <;> (try split_ifs at hs) <;>
        obtain rfl := Option.some.inj hs <;> rfl
  | free it => cases it <;> obtain rfl := Option.some.inj hs <;> rfl
  | freeOrRelease it => cases it <;> obtain rfl := Option.some.inj hs <;> rfl
  | release it =>
      simp only [exec, Option.bind_eq_some_iff] at hs
      obtain ⟨idx, -, hs⟩ := hs
      split_ifs at hs
      obtain rfl := Option.some.inj hs
      rfl
  | lock op =>
      simp only [exec] at hs
      split_ifs at hs <;> obtain rfl := Option.some.inj hs <;> rfl
  | _ =>
      simp only [exec] at hs
      (repeat' split at hs) <;> (obtain rfl := Option.some.inj hs; rfl)

/-- The store is as before, but for queries of sets. -/
theorem exec_store (hkv : cfg.KeyValue lookup) {j : Job K V} {ok : Bool} {i : Instr K V}
    (hs : exec cfg s t j ok i = some s') (hi : i ≠ .update)
    (hwrite : ∀ key value, i ≠ .write key value) : s'.store = s.store := by
  cases i with
  | update => exact absurd rfl hi
  | write key value => exact absurd rfl (hwrite key value)
  | query =>
      simp only [exec, hkv.read] at hs
      split at hs <;> obtain rfl := Option.some.inj hs <;> rfl
  | body op =>
      simp only [exec, Option.map_eq_some_iff] at hs
      obtain ⟨o, -, rfl⟩ := hs
      rfl
  | evict it =>
      cases it <;> simp only [exec] at hs <;> (try split_ifs at hs) <;>
        obtain rfl := Option.some.inj hs <;> rfl
  | free it => cases it <;> obtain rfl := Option.some.inj hs <;> rfl
  | freeOrRelease it => cases it <;> obtain rfl := Option.some.inj hs <;> rfl
  | release it =>
      simp only [exec, Option.bind_eq_some_iff] at hs
      obtain ⟨idx, -, hs⟩ := hs
      split_ifs at hs
      obtain rfl := Option.some.inj hs
      rfl
  | lock op =>
      simp only [exec] at hs
      split_ifs at hs <;> obtain rfl := Option.some.inj hs <;> rfl
  | _ =>
      simp only [exec] at hs
      (repeat' split at hs) <;> (obtain rfl := Option.some.inj hs; rfl)

end Flows
end Cache
end Floem
