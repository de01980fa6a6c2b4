import Floem.Cache.Gets

/-!
# No stale hits with `write_through`

* `SetCode`, `Setting` — the stages of a set, and what it knows of its own value.
* `Through` — the invariant: the store has the newest value of every key, and the table none
  that is older than a set that has gone through the cache.
* `Through.of_get`, `Through.of_set` — the steps of the flows, if they are `Timely`.
-/

namespace Floem
namespace Cache
namespace Flows

open Lib

variable {K V T σ : Type*} {N : ℕ}

/-! ## Sets -/

/-- How far a set is. -/
inductive Stage
  | before
  /-- The store has the value. -/
  | written
  /-- The set has gone through the cache. -/
  | put

def Instr.Frees : Instr K V → Prop
  | .release _ => True
  | .dispose _ => True
  | _ => False

/-- What a set still has to do. -/
inductive SetCode (key : K) (value : V) : Stage → List (Instr K V) → Prop
  | start : SetCode key value .before [.lock (.delete key), .update, .out, .cacheSet]
  | deletes : SetCode key value .before [.body (.delete key), .update, .out, .cacheSet]
  | deleted (it : Option (Item K V)) :
      SetCode key value .before [.ret (.delete key) it, .update, .out, .cacheSet]
  | writes : SetCode key value .before [.update, .out, .cacheSet]
  | out : SetCode key value .written [.out, .cacheSet]
  | inserts : SetCode key value .written [.cacheSet]
  | lock (nit : Item K V) (hkey : nit.key = key) (hvalue : nit.value = value) :
      SetCode key value .written [.lock (.put nit)]
  | body (nit : Item K V) (hkey : nit.key = key) (hvalue : nit.value = value) :
      SetCode key value .written [.body (.put nit)]
  | ret (nit : Item K V) (it : Option (Item K V)) : SetCode key value .put [.ret (.put nit) it]
  | late (code : List (Instr K V)) (h : ∀ i ∈ code, i.Frees) : SetCode key value .put code

/-- What the flow knows at a stage. -/
def Stage.Knows (w : Watch T K V) (t : T) (key : K) (value : V) : Stage → Prop
  | .before => True
  | .written => (w.values key)[w.pos t]? = some (some value)
  | .put => w.pos t ≤ w.past key

structure Setting (w : Watch T K V) (t : T) (key : K) (value : V) (j : Job K V) : Prop where
  packet : j.packet = ⟨key, some value⟩
  code : ∃ stage, SetCode key value stage j.code ∧ stage.Knows w t key value

section

variable {w w' : Watch T K V} {t : T} {key : K} {value : V} {j : Job K V}

/-- The steps of others. -/
theorem Setting.frame (h : Setting w t key value j) (hgrows : w.Grows w')
    (hpos : w'.pos t = w.pos t) : Setting w' t key value j := by
  obtain ⟨stage, hcode, hknows⟩ := h.code
  refine ⟨h.packet, stage, hcode, ?_⟩
  cases stage with
  | before => trivial
  | written =>
      obtain ⟨new, hnew⟩ := hgrows.values key
      obtain ⟨hlt, -⟩ := List.getElem?_eq_some_iff.1 hknows
      unfold Stage.Knows
      rw [hpos, hnew, List.getElem?_append_left hlt]
      exact hknows
  | put =>
      unfold Stage.Knows
      rw [hpos]
      exact hknows.trans (hgrows.past key)

/-- A set that completed has gone through the cache. -/
theorem Setting.ends (h : Setting w t key value j) (hcode : j.code = []) :
    w.pos t ≤ w.past key := by
  obtain ⟨stage, hset, hknows⟩ := h.code
  rw [hcode] at hset
  cases hset
  exact hknows

end

/-! ## The invariant -/

/-- What a flow knows. -/
def Job.Knows (cfg : Config K V σ) (w : Watch T K V) (stored : K → Option V) (t : T)
    (j : Job K V) : Prop :=
  match j.flow with
  | .get key => Getting cfg w (stored key) t key j
  | .set key value => Setting w t key value j
  | .delete _ => False

structure Through (cfg : Config K V σ) (lookup : σ → K → Option V) (s : State N T K V σ)
    (w : Watch T K V) : Prop where
  past : ∀ key, w.past key < (w.values key).length
  done : ∀ key, w.done key ≤ w.past key
  /-- The store has the newest value. -/
  last : ∀ key, (w.values key).getLast? = some (lookup s.store key)
  /-- The table has none that is older than a set that has gone through the cache. -/
  cached : ∀ it, s.table.Has it → w.Since it.key (w.past it.key) (some it.value)
  flows : ∀ t j, s.jobs t = some j → j.Knows cfg w (lookup s.store) t

variable {cfg : Config K V σ} {lookup : σ → K → Option V} {s s' : State N T K V σ}
  {w w' : Watch T K V} {t : T}

/-- The store has a value that is new enough for every get. -/
theorem Through.fresh (h : Through cfg lookup s w) {key : K} {n : ℕ} (hn : n ≤ w.past key) :
    w.Since key n (lookup s.store key) :=
  Watch.since_last (h.last key) (hn.trans_lt (h.past key))

theorem Watch.Grows.refl (w : Watch T K V) : w.Grows w :=
  ⟨fun _ => ⟨[], (List.append_nil _).symm⟩, fun _ => le_rfl⟩

theorem Watch.Grows.trans {w w' w'' : Watch T K V} (h : w.Grows w') (h' : w'.Grows w'') :
    w.Grows w'' where
  values key := by
    obtain ⟨new, hnew⟩ := h.values key
    obtain ⟨new', hnew'⟩ := h'.values key
    exact ⟨new ++ new', by rw [hnew', hnew, List.append_assoc]⟩
  past key := (h.past key).trans (h'.past key)

section

variable [DecidableEq T]

/-- **The invariant from its parts**: the flows of the other threads know what they knew. -/
theorem Through.next (h : Through cfg lookup s w) {j : Job K V}
    (hjobs : s'.jobs = Function.update s.jobs t (some j)) (hgrows : w.Grows w')
    (hneed : ∀ u, u ≠ t → w'.need u = w.need u) (hpos : ∀ u, u ≠ t → w'.pos u = w.pos u)
    (hdone : w'.done = w.done) (hpast : ∀ key, w'.past key < (w'.values key).length)
    (hlast : ∀ key, (w'.values key).getLast? = some (lookup s'.store key))
    (hcached : ∀ it, s'.table.Has it → w'.Since it.key (w'.past it.key) (some it.value))
    (hj : j.Knows cfg w' (lookup s'.store) t) : Through cfg lookup s' w' where
  past := hpast
  done key := by
    rw [hdone]
    exact (h.done key).trans (hgrows.past key)
  last := hlast
  cached := hcached
  flows u ju hu := by
    rw [hjobs] at hu
    by_cases hut : u = t
    · subst hut
      rw [Function.update_self] at hu
      rwa [← Option.some.inj hu]
    · rw [Function.update_of_ne hut] at hu
      have hknows := h.flows u ju hu
      unfold Job.Knows at hknows ⊢
      split
      · next key hflow =>
          rw [hflow] at hknows
          refine hknows.frame hgrows (hneed u hut) fun _ => ?_
          exact Watch.since_last (hlast key)
            ((hknows.need.trans (hgrows.past key)).trans_lt (hpast key))
      · next key value hflow =>
          rw [hflow] at hknows
          exact hknows.frame hgrows (hpos u hut)
      · next key hflow =>
          rw [hflow] at hknows
          exact hknows

/-- A step that changes neither the table nor the store. -/
theorem Through.same (h : Through cfg lookup s w) {j : Job K V}
    (hjobs : s'.jobs = Function.update s.jobs t (some j)) (htable : s'.table = s.table)
    (hstore : s'.store = s.store) (hj : j.Knows cfg w (lookup s.store) t) :
    Through cfg lookup s' w := by
  refine h.next hjobs (.refl w) (fun _ _ => rfl) (fun _ _ => rfl) rfl h.past ?_ ?_ ?_
  · rw [hstore]
    exact h.last
  · rw [htable]
    exact h.cached
  · rw [hstore]
    exact hj

/-- A flow starts. -/
theorem Through.start [DecidableEq K] (h : Through cfg lookup s w) (hback : cfg.writeBack = false)
    (flow : Flow K V) (hflow : ∀ key, flow ≠ .delete key) :
    Through cfg lookup (s.goto t (cfg.start flow))
      (w.next cfg s (s.goto t (cfg.start flow)) (.start t flow)) := by
  cases flow with
  | get key =>
      refine h.next rfl ⟨fun _ => ⟨[], (List.append_nil _).symm⟩, fun _ => le_rfl⟩
        (fun u hu => Function.update_of_ne hu _ _) (fun _ _ => rfl) rfl h.past h.last h.cached ?_
      refine Getting.one ?_ rfl nofun (.lock (.get key)) rfl rfl
      simp only [Watch.next, Function.update_self]
      exact h.done key
  | set key value =>
      refine h.next rfl ⟨fun _ => ⟨[], (List.append_nil _).symm⟩, fun _ => le_rfl⟩
        (fun _ _ => rfl) (fun u hu => Function.update_of_ne hu _ _) rfl h.past h.last h.cached ?_
      refine ⟨rfl, .before, ?_, trivial⟩
      simp only [Config.start, hback, Bool.false_eq_true, if_false]
      exact SetCode.start
  | delete key => exact absurd rfl (hflow key)

variable [DecidableEq K]

/-! ## The steps of gets -/

omit [DecidableEq T] in
/-- What an insertion of a get puts into the table is new enough. -/
theorem Through.putOrGet (h : Through cfg lookup s w) (hI : Inv cfg False s)
    (hver : cfg.version.Plain) {nit : Item K V} {rest : List (Instr K V)}
    (hc : s.code t = .body (.putOrGet nit) :: rest)
    (htimely : (∀ it, s.table.Has it → it.key ≠ nit.key) →
      w.Since nit.key (w.past nit.key) (some nit.value))
    {o : Outcome (Table N K V) K V} (ho : cfg.call s.table (.putOrGet nit) = some o)
    (it : Item K V) (hit : o.state.Has it) : w.Since it.key (w.past it.key) (some it.value) := by
  cases hI.putsOrGets hver hc ho with
  | exist old hold hkey hbucket hfreed hret hunlock hhas => exact h.cached it ((hhas it).1 hit)
  | insert habsent hfreed hins =>
      rcases hins.old_or_new hit with hold | rfl
      · exact h.cached it hold
      · exact htimely habsent

/-- **A step of a get.** -/
theorem Through.of_get (h : Through cfg lookup s w) (hI : Inv cfg False s)
    (hver : cfg.version.Plain) (hback : cfg.writeBack = false) (hkv : cfg.KeyValue lookup)
    {key : K} {packet : Packet K V} {i : Instr K V} {rest : List (Instr K V)}
    (hj : s.jobs t = some ⟨.get key, packet, i :: rest⟩) (htimely : Timely cfg (s, w) (.go t true))
    (hs : exec cfg s t ⟨.get key, packet, rest⟩ true i = some s') : Through cfg lookup s' w := by
  have hgets : Getting cfg w (lookup s.store key) t key ⟨.get key, packet, i :: rest⟩ :=
    h.flows t _ hj
  have hi := hgets.code i List.mem_cons_self
  have hc : s.code t = i :: rest := code_of_jobs hj
  obtain ⟨j', hjobs, hflow, hgets'⟩ := hgets.exec hkv
    (fun op o hbody ho => by
      subst hbody
      refine hgets.body hI hver hc h.cached (fun _ => h.fresh hgets.need) (fun nit hnit => ?_) ho
      subst hnit
      simp only [Timely, hj] at htimely
      exact htimely.2)
    (fun it hevict _ => by
      subst hevict
      rw [show cfg.writeBack = true from hi] at hback
      cases hback) hs
  have hknows : j'.Knows cfg w (lookup s.store) t := by
    unfold Job.Knows
    rw [hflow]
    exact hgets'
  have hstore : s'.store = s.store := by
    refine exec_store hkv hs (fun hupdate => ?_) fun key' value hwrite => ?_
    · subst hupdate
      exact hi
    · subst hwrite
      rw [show cfg.writeBack = true from hi] at hback
      cases hback
  by_cases hbody : ∃ op, i = .body op
  · obtain ⟨op, rfl⟩ := hbody
    simp only [exec, Option.map_eq_some_iff] at hs
    obtain ⟨o, ho, rfl⟩ := hs
    have hcached : ∀ it, o.state.Has it → w.Since it.key (w.past it.key) (some it.value) := by
      cases op with
      | get key' =>
          obtain ⟨hsame, -⟩ := hI.table.get_spec hver key'
          obtain rfl := Option.some.inj ho
          rw [hsame]
          exact h.cached
      | putOrGet nit =>
          simp only [Timely, hj] at htimely
          exact h.putOrGet hI hver hc htimely.1 ho
      | put nit => exact hi.elim
      | delete key' => exact hi.elim
    exact h.next hjobs (.refl w) (fun _ _ => rfl) (fun _ _ => rfl) rfl h.past h.last hcached hknows
  · exact h.same hjobs (exec_table hs fun op hop => hbody ⟨op, hop⟩) hstore hknows

/-! ## The steps of sets -/

theorem Watch.grows_takes (w : Watch T K V) (t : T) (key : K) (value : V) :
    w.Grows (w.takes t key value) where
  values key' := by
    by_cases hkey : key' = key
    · subst hkey
      exact ⟨[some value], by simp only [Watch.takes, Function.update_self]⟩
    · exact ⟨[], by simp only [Watch.takes, Function.update_of_ne hkey, List.append_nil]⟩
  past _ := le_rfl

omit [DecidableEq T] in
theorem Watch.grows_puts (w : Watch T K V) (t : T) (key : K) : w.Grows (w.puts t key) where
  values _ := ⟨[], (List.append_nil _).symm⟩
  past key' := by
    by_cases hkey : key' = key
    · subst hkey
      simp only [Watch.puts, Function.update_self]
      exact le_max_left _ _
    · simp only [Watch.puts, Function.update_of_ne hkey]
      exact le_rfl

omit [DecidableEq T] [DecidableEq K] in
theorem Watch.Since.max {key : K} {n m : ℕ} {x : Option V} (hn : w.Since key n x)
    (hm : w.Since key m x) : w.Since key (max n m) x := by
  rcases le_total n m with h | h
  · rwa [max_eq_right h]
  · rwa [max_eq_left h]

/-- The query of a set. -/
theorem Through.takes (h : Through cfg lookup s w) (hkv : cfg.KeyValue lookup) {key : K}
    {value : V} {j : Job K V} (hjobs : s'.jobs = Function.update s.jobs t (some j))
    (htable : s'.table = s.table) (hstore : s'.store = cfg.write s.store key value)
    (hj : j.Knows cfg (w.takes t key value) (lookup s'.store) t) :
    Through cfg lookup s' (w.takes t key value) := by
  have hgrows := w.grows_takes t key value
  refine h.next hjobs hgrows (fun _ _ => rfl) (fun u hu => Function.update_of_ne hu _ _) rfl ?_ ?_
    ?_ hj
  · intro key'
    obtain ⟨new, hnew⟩ := hgrows.values key'
    rw [hnew, List.length_append]
    exact (h.past key').trans_le (Nat.le_add_right _ _)
  · intro key'
    rw [hstore]
    by_cases hkey : key' = key
    · subst hkey
      rw [hkv.write_self]
      simp only [Watch.takes, Function.update_self]
      exact List.getLast?_concat
    · rw [hkv.write_of_ne _ _ _ _ hkey, ← h.last key']
      simp only [Watch.takes, Function.update_of_ne hkey]
  · rw [htable]
    exact fun it hit => hgrows.since (h.cached it hit)

/-- A set goes through the cache: where an item has its key, it is not older. -/
theorem Through.puts (h : Through cfg lookup s w) {key : K} {j : Job K V}
    (hjobs : s'.jobs = Function.update s.jobs t (some j)) (hstore : s'.store = s.store)
    (hpos : w.pos t < (w.values key).length)
    (hother : ∀ it, s'.table.Has it → it.key ≠ key → s.table.Has it)
    (hself : ∀ it, s'.table.Has it → it.key = key →
      w.Since key (w.past key) (some it.value) ∧ w.Since key (w.pos t) (some it.value))
    (hj : j.Knows cfg (w.puts t key) (lookup s'.store) t) :
    Through cfg lookup s' (w.puts t key) := by
  refine h.next hjobs (w.grows_puts t key) (fun _ _ => rfl) (fun _ _ => rfl) rfl ?_ ?_ ?_ hj
  · intro key'
    by_cases hkey : key' = key
    · subst hkey
      simp only [Watch.puts, Function.update_self]
      exact max_lt (h.past key') hpos
    · simp only [Watch.puts, Function.update_of_ne hkey]
      exact h.past key'
  · rw [hstore]
    exact h.last
  · intro it hit
    by_cases hkey : it.key = key
    · obtain ⟨hpast, hown⟩ := hself it hit hkey
      subst hkey
      simp only [Watch.puts, Function.update_self]
      exact hpast.max hown
    · simp only [Watch.puts, Function.update_of_ne hkey]
      exact h.cached it (hother it hit hkey)

omit [DecidableEq T] in
/-- The value of a set that has gone through the cache. -/
theorem Watch.pos_le_puts (w : Watch T K V) (t : T) (key : K) :
    (w.puts t key).pos t ≤ (w.puts t key).past key := by
  simp only [Watch.puts, Function.update_self]
  exact le_max_right _ _

omit [DecidableEq T] in
/-- What the insertion of a set leaves in the table. -/
theorem Through.put (hI : Inv cfg False s) (hver : cfg.version.Plain)
    (hback : cfg.writeBack = false) {key : K} {value : V} {nit : Item K V}
    {rest : List (Instr K V)} (hc : s.code t = .body (.put nit) :: rest) (hkey : nit.key = key)
    (hvalue : nit.value = value) (hpos : w.Since key (w.pos t) (some value))
    (htimely : cfg.writeBack = true ∨ w.Since nit.key (w.past nit.key) (some nit.value) ∨
      cfg.writeAlloc = false ∧ s.table.FullAt cfg.hash cfg.nbuckets nit.key ∧
        ∀ it, s.table.Has it → it.key ≠ nit.key)
    {o : Outcome (Table N K V) K V} (ho : cfg.call s.table (.put nit) = some o) (it : Item K V)
    (hit : o.state.Has it) :
    (it.key ≠ key → s.table.Has it) ∧
      (it.key = key → w.Since key (w.past key) (some it.value) ∧
        w.Since key (w.pos t) (some it.value)) := by
  subst hkey hvalue
  have hputs := hI.puts hver hc ho
  constructor
  · intro hne
    rcases hputs.old_or_new hit with hold | rfl
    · exact hold
    · exact absurd rfl hne
  · intro hkey
    -- only the new item has the key
    have hnew : it = nit.stored (cfg.index nit.key) 1 := by
      cases hputs with
      | update old hold hold_key hfreed hret hunlock hhas =>
          exact ((hhas it).1 hit).resolve_left fun h => h.2 hkey
      | insert habsent hfreed hins =>
          exact (hins.old_or_new hit).resolve_left fun h => habsent it h hkey
    rcases htimely with htrue | hpast | ⟨halloc, hfull, habsent⟩
    · rw [hback] at htrue
      cases htrue
    · rw [hnew]
      exact ⟨hpast, hpos⟩
    · -- nothing is inserted
      exfalso
      cases hputs with
      | update old hold hold_key hfreed hret hunlock hhas => exact habsent old hold hold_key
      | insert _ hfreed hins =>
          cases hins with
          | free hroom hhas hret hunlock => exact hroom hfull
          | evict old hold hbucket hfull' hreplace hhas hret hunlock =>
              rw [halloc] at hreplace
              cases hreplace
          | fail hfull' hreplace hhas hret hunlock => exact habsent it ((hhas it).1 hit) hkey

/-- **A step of a set.** -/
theorem Through.of_set (h : Through cfg lookup s w) (hI : Inv cfg False s)
    (hver : cfg.version.Plain) (hback : cfg.writeBack = false) (hkv : cfg.KeyValue lookup)
    {key : K} {value : V} {packet : Packet K V} {i : Instr K V} {rest : List (Instr K V)}
    (hj : s.jobs t = some ⟨.set key value, packet, i :: rest⟩)
    (htimely : Timely cfg (s, w) (.go t true))
    (hs : exec cfg s t ⟨.set key value, packet, rest⟩ true i = some s') :
    Through cfg lookup s' (w.act t key cfg value i) := by
  obtain ⟨hpacket, stage, hset, hknows⟩ : Setting w t key value ⟨.set key value, packet, i :: rest⟩ :=
    h.flows t _ hj
  obtain rfl : packet = ⟨key, some value⟩ := hpacket
  have hc : s.code t = i :: rest := code_of_jobs hj
  cases hset with
  | start =>
      simp only [exec, if_true] at hs
      split_ifs at hs
      obtain rfl := Option.some.inj hs
      exact h.same rfl rfl rfl ⟨rfl, .before, .deletes, trivial⟩
  | deletes =>
      simp only [exec, Option.map_eq_some_iff] at hs
      obtain ⟨o, ho, rfl⟩ := hs
      obtain ⟨o', ho', -, -, -, -, -, hhas⟩ := hI.table.delete_spec hver key
      obtain rfl := Option.some.inj (ho.symm.trans ho')
      exact h.next rfl (.refl w) (fun _ _ => rfl) (fun _ _ => rfl) rfl h.past h.last
        (fun it hit => h.cached it ((hhas it).1 hit).1) ⟨rfl, .before, .deleted _, trivial⟩
  | deleted it =>
      obtain rfl := Option.some.inj hs
      refine h.same rfl rfl rfl ⟨?_, .before, ?_, trivial⟩
      · cases it <;> rfl
      · cases it <;> exact SetCode.writes
  | writes =>
      obtain rfl := Option.some.inj hs
      simp only [Watch.act, hback, Bool.false_eq_true, if_false]
      refine h.takes hkv rfl rfl rfl ⟨rfl, .written, .out, ?_⟩
      simp only [Stage.Knows, Watch.takes, Function.update_self]
      exact List.getElem?_concat_length
  | out =>
      obtain rfl := Option.some.inj hs
      exact h.same rfl rfl rfl ⟨rfl, .written, .inserts, hknows⟩
  | inserts =>
      simp only [exec] at hs
      simp only [Watch.act]
      split_ifs at hs ⊢ with hstorable
      · obtain rfl := Option.some.inj hs
        exact h.same rfl rfl rfl ⟨rfl, .written, .lock _ rfl rfl, hknows⟩
      · obtain rfl := Option.some.inj hs
        simp only [Timely, hj] at htimely
        have hold : ∀ it, s.table.Has it → it.key = key →
            w.Since key (w.pos t) (some it.value) := by
          rcases htimely with htrue | htrue | hold
          · rw [hback] at htrue
            cases htrue
          · exact absurd htrue hstorable
          · exact hold
        refine h.puts rfl rfl (List.getElem?_eq_some_iff.1 hknows).1 (fun it hit _ => hit)
          (fun it hit hkey => ⟨?_, hold it hit hkey⟩)
          ⟨rfl, .put, .late [] (fun _ hi => by cases hi), w.pos_le_puts t key⟩
        rw [← hkey]
        exact h.cached it hit
  | lock nit hkey hvalue =>
      simp only [exec, if_true] at hs
      split_ifs at hs
      obtain rfl := Option.some.inj hs
      exact h.same rfl rfl rfl ⟨rfl, .written, .body nit hkey hvalue, hknows⟩
  | body nit hkey hvalue =>
      simp only [exec, Option.map_eq_some_iff] at hs
      obtain ⟨o, ho, rfl⟩ := hs
      simp only [Timely, hj] at htimely
      simp only [Watch.act, hback, Bool.false_eq_true, if_false]
      have hput := Through.put hI hver hback hc hkey hvalue (Watch.since_of_getElem? hknows)
        htimely ho
      exact h.puts rfl rfl (List.getElem?_eq_some_iff.1 hknows).1 (fun it hit => (hput it hit).1)
        (fun it hit => (hput it hit).2) ⟨rfl, .put, .ret nit o.ret, w.pos_le_puts t key⟩
  | ret nit it =>
      obtain rfl := Option.some.inj hs
      have hlate : ∃ code, (cfg.returned ⟨.set key value, ⟨key, some value⟩, []⟩ (.put nit) it) =
          ⟨.set key value, ⟨key, some value⟩, code⟩ ∧ ∀ i ∈ code, i.Frees := by
        cases it with
        | none => exact ⟨[], by simp [Config.returned, hback], fun _ hi => by cases hi⟩
        | some rit =>
            simp only [Config.returned, hback, Bool.false_eq_true, if_false]
            split_ifs
            · exact ⟨[.release rit, .dispose rit], rfl, by simp [Instr.Frees]⟩
            · exact ⟨[.release rit], rfl, by simp [Instr.Frees]⟩
      obtain ⟨code, hcode, hfrees⟩ := hlate
      rw [hcode]
      exact h.same rfl rfl rfl ⟨rfl, .put, .late code hfrees, hknows⟩
  | late code hfrees =>
      have hrest : SetCode key value .put rest :=
        .late rest fun n hn => hfrees n (List.mem_cons_of_mem _ hn)
      have hi := hfrees i List.mem_cons_self
      cases i with
      | release it =>
          simp only [exec, Option.bind_eq_some_iff] at hs
          obtain ⟨idx, -, hs⟩ := hs
          split_ifs at hs
          obtain rfl := Option.some.inj hs
          exact h.same rfl rfl rfl ⟨rfl, .put, hrest, hknows⟩
      | dispose it =>
          obtain rfl := Option.some.inj hs
          exact h.same rfl rfl rfl ⟨rfl, .put, hrest, hknows⟩
      | _ => exact hi.elim

omit [DecidableEq T] in
/-- A set completes. -/
theorem Through.ends (h : Through cfg lookup s w) {key : K} (hpos : w.pos t ≤ w.past key) :
    Through cfg lookup s (w.ends t key) where
  past := h.past
  done key' := by
    by_cases hkey : key' = key
    · subst hkey
      simp only [Watch.ends, Function.update_self]
      exact max_le (h.done key') hpos
    · simp only [Watch.ends, Function.update_of_ne hkey]
      exact h.done key'
  last := h.last
  cached := h.cached
  flows u ju hu := by
    have hknows := h.flows u ju hu
    unfold Job.Knows at hknows ⊢
    split
    · next key' hflow =>
        rw [hflow] at hknows
        exact hknows.frame ⟨fun _ => ⟨[], (List.append_nil _).symm⟩, fun _ => le_rfl⟩ rfl id
    · next key' value hflow =>
        rw [hflow] at hknows
        exact hknows.frame ⟨fun _ => ⟨[], (List.append_nil _).symm⟩, fun _ => le_rfl⟩ rfl
    · next key' hflow =>
        rw [hflow] at hknows
        exact hknows

/-- **The step lemma.** -/
theorem Through.of_step (h : Through cfg lookup s w) (hI : Inv cfg False s)
    (hver : cfg.version.Plain) (hback : cfg.writeBack = false) (hkv : cfg.KeyValue lookup)
    {a : Act T K V} (hplain : a.Plain) (htimely : Timely cfg (s, w) a)
    (hs : step cfg s a = some s') : Through cfg lookup s' (w.next cfg s s' a) := by
  cases a with
  | start t flow =>
      simp only [step] at hs
      split_ifs at hs
      obtain rfl := Option.some.inj hs
      exact h.start hback flow hplain
  | go t ok =>
      obtain rfl : ok = true := hplain
      simp only [step] at hs
      split at hs
      · cases hs
      · next j hj =>
          obtain ⟨flow, packet, code⟩ := j
          cases code with
          | nil => cases hs
          | cons i rest =>
              simp only at hs
              cases flow with
              | get key =>
                  simp only [Watch.next, hj]
                  exact h.of_get hI hver hback hkv hj htimely hs
              | set key value =>
                  have hset := h.of_set hI hver hback hkv hj htimely hs
                  simp only [Watch.next, hj]
                  split_ifs with hend
                  · obtain ⟨j', hjobs, hflow⟩ := exec_jobs hs
                    have hj' : s'.jobs t = some j' := by rw [hjobs, Function.update_self]
                    have hknows := hset.flows t j' hj'
                    unfold Job.Knows at hknows
                    rw [hflow] at hknows
                    refine hset.ends (hknows.ends ?_)
                    rw [← code_of_jobs hj']
                    exact List.isEmpty_iff.1 hend
                  · exact hset
              | delete key => exact (h.flows t _ hj).elim

end
end Flows
end Cache
end Floem
