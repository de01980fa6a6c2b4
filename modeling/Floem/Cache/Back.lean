import Floem.Cache.Saving
import Floem.Cache.Through

/-!
# No stale hits with `write_back`

* `Putting` — the flow of a set.
* `Back` — the invariant: the newest value of a key is that of its item; where there is none,
  it is in the hands of the flow that writes it back, under the lock of its bucket; and else
  it is that of the store.
* `Back.inserts`, `Back.saves`, `Back.same` — the kinds of steps.
* `Back.of_get`, `Back.of_set` — the steps of the flows, if they are `Timely`.
-/

namespace Floem
namespace Cache
namespace Flows

open Lib

variable {K V T σ : Type*} {N : ℕ}

/-! ## Sets -/

/-- What an instruction of a set carries. -/
def Instr.Puts (key : K) (value : V) (packet : Packet K V) : Instr K V → Prop
  | .cacheSet => packet = ⟨key, some value⟩
  | .lock (.put nit) => nit.key = key ∧ nit.value = value
  | .body (.put nit) => nit.key = key ∧ nit.value = value
  | .ret (.put _) _ => True
  | .lock _ => False
  | .body _ => False
  | .ret _ _ => False
  | .query => False
  | .cacheSetGet => False
  | .freeOrRelease _ => False
  | _ => True

/-- The flow of a set. -/
structure Putting (key : K) (value : V) (j : Job K V) : Prop where
  code : ∀ i ∈ j.code, i.Puts key value j.packet
  alone : ∀ i ∈ j.code, i.early = true → j.code = [i]

/-- The instructions of sets behind the operation. -/
def Instr.Saves : Instr K V → Prop
  | .evict _ => True
  | .evictSave _ => True
  | .evictRevert _ => True
  | .update => True
  | .write _ _ => True
  | .free _ => True
  | .out => True
  | .release _ => True
  | .dispose _ => True
  | _ => False

section

variable {cfg : Config K V σ} {key : K} {value : V} {packet : Packet K V} {j : Job K V}

theorem Putting.late (h : ∀ i ∈ j.code, i.Saves) : Putting key value j where
  code i hi := by
    have := h i hi
    cases i <;> trivial
  alone i hi hearly := by
    have := h i hi
    cases i <;> first | exact this.elim | cases hearly

theorem Putting.one (i : Instr K V) (hcode : j.code = [i]) (hi : i.Puts key value j.packet) :
    Putting key value j where
  code n hn := by
    rw [hcode, List.mem_singleton] at hn
    rwa [hn]
  alone n hn _ := by
    rw [hcode, List.mem_singleton] at hn
    rw [hcode, hn]

/-- Behind a late instruction, all are late. -/
theorem Putting.lates (h : Putting key value j) {i : Instr K V} (hi : i ∈ j.code)
    (hearly : i.early = false) : ∀ n ∈ j.code, n.Saves := by
  intro n hn
  have hputs := h.code n hn
  have hnearly : n.early = false := by
    cases hne : n.early with
    | false => rfl
    | true =>
        rw [h.alone n hn hne, List.mem_singleton] at hi
        rw [hi, hne] at hearly
        cases hearly
  cases n <;> trivial

theorem saves_afterSet (it : Option (Item K V)) : ∀ i ∈ Config.afterSet it, i.Saves := by
  simp [Config.afterSet, Instr.Saves]

/-- What a late instruction leaves. -/
theorem Turns.saves {p p' : Packet K V} {i : Instr K V} {new : List (Instr K V)}
    (h : Turns cfg p i p' new) (hi : i.Saves) : ∀ n ∈ new, n.Saves := by
  cases h <;> first | exact hi.elim | simp [Instr.Saves]

/-- What an operation leaves. -/
theorem Turns.putting {p p' : Packet K V} {i : Instr K V} {new : List (Instr K V)}
    (h : Turns cfg p i p' new) (hback : cfg.writeBack = true) (hearly : i.early = true)
    (hi : i.Puts key value p) (flow : Flow K V) : Putting key value ⟨flow, p', new⟩ := by
  cases h with
  | lock op => exact Putting.one (.body op) rfl (by cases op <;> exact hi)
  | body op it => exact Putting.one (.ret op it) rfl (by cases op <;> trivial)
  | backEvict nit it _ hout => exact Putting.late (saves_afterSet (some it))
  | backKeep nit it _ hout =>
      refine Putting.late fun n hn => ?_
      rcases List.mem_cons.1 hn with rfl | hn
      · trivial
      · exact saves_afterSet none n hn
  | backNone nit _ => exact Putting.late (saves_afterSet none)
  | throughEvict nit it hthrough hout => exact absurd hback hthrough
  | throughKeep nit it hthrough hout => exact absurd hback hthrough
  | throughNone nit hthrough => exact absurd hback hthrough
  | cacheSet addr value' hvalue hstorable =>
      obtain rfl : p = ⟨key, some value⟩ := hi
      obtain rfl := Option.some.inj hvalue
      exact Putting.one (.lock (.put (cfg.alloc addr key value))) rfl ⟨rfl, rfl⟩
  | _ => first | exact hi.elim | cases hearly

/-- **The steps of a set.** -/
theorem Putting.exec [DecidableEq T] [DecidableEq K] {s s' : State N T K V σ} {t : T}
    (hback : cfg.writeBack = true) {i : Instr K V} {rest : List (Instr K V)}
    (h : Putting key value ⟨.set key value, packet, i :: rest⟩)
    (hs : exec cfg s t ⟨.set key value, packet, rest⟩ true i = some s') :
    ∃ j', s'.jobs = Function.update s.jobs t (some j') ∧ j'.flow = .set key value ∧
      Putting key value j' := by
  have hi := h.code i List.mem_cons_self
  rcases exec_turns hs with ⟨p', new, hturns, hjobs⟩ | ⟨hstops, hjobs⟩
  · refine ⟨_, hjobs, rfl, ?_⟩
    cases hearly : i.early with
    | true =>
        obtain rfl : rest = [] := (List.cons.inj (h.alone i List.mem_cons_self hearly)).2
        rw [List.append_nil]
        exact hturns.putting hback hearly hi _
    | false =>
        have hlates := h.lates List.mem_cons_self hearly
        have hnew := hturns.saves (hlates i List.mem_cons_self)
        exact Putting.late fun n hn =>
          (List.mem_append.1 hn).elim (hnew n) fun hn => hlates n (List.mem_cons_of_mem _ hn)
  · exact ⟨_, hjobs, rfl, Putting.late nofun⟩

end

/-! ## The invariant -/

/-- What a flow knows. -/
def Job.KnowsBack (cfg : Config K V σ) (w : Watch T K V) (stored : K → Option V) (t : T)
    (j : Job K V) : Prop :=
  match j.flow with
  | .get key => Getting cfg w (stored key) t key j
  | .set key value => Putting key value j ∧ w.pos t ≤ w.past key
  | .delete _ => False

structure Back (cfg : Config K V σ) (lookup : σ → K → Option V) (s : State N T K V σ)
    (w : Watch T K V) : Prop where
  past : ∀ key, w.past key + 1 = (w.values key).length
  done : ∀ key, w.done key ≤ w.past key
  /-- The items have the newest values, -/
  cached : ∀ it, s.table.Has it → (w.values it.key).getLast? = some (some it.value)
  /-- and so has the store, where they are clean. -/
  clean : ∀ it, s.table.Has it → it.evicted = 0 → lookup s.store it.key = some it.value
  /-- Where there is no item and nothing to be written back, the store has the newest value. -/
  absent : ∀ key, (∀ it, s.table.Has it → it.key ≠ key) →
    (∀ t p, s.saving t = some p → p.1 ≠ key) →
      (w.values key).getLast? = some (lookup s.store key)
  /-- The newest value is written back, under the lock. -/
  saved : ∀ t p, s.saving t = some p → (w.values p.1).getLast? = some (some p.2) ∧
    s.lock (cfg.index p.1) = some t ∧ ∀ it, s.table.Has it → it.key ≠ p.1
  flows : ∀ t j, s.jobs t = some j → j.KnowsBack cfg w (lookup s.store) t
  calm : ∀ t j, s.jobs t = some j → Calm j.code.tail

variable {cfg : Config K V σ} {lookup : σ → K → Option V} {s s' : State N T K V σ}
  {w w' : Watch T K V} {t : T}

theorem Back.past_lt (h : Back cfg lookup s w) (key : K) : w.past key < (w.values key).length :=
  Nat.lt_of_succ_le (h.past key).le

/-- Under the lock of its bucket, nothing of a key is to be written back by others. -/
theorem Back.not_saving (h : Back cfg lookup s w) {key : K}
    (hlock : s.lock (cfg.index key) = some t) (ht : s.saving t = none) (u : T) (p : K × V)
    (hp : s.saving u = some p) : p.1 ≠ key := by
  rintro rfl
  obtain ⟨-, hheld, -⟩ := h.saved u p hp
  obtain rfl : u = t := Option.some.inj (hheld.symm.trans hlock)
  rw [ht] at hp
  cases hp

theorem saving_of_jobs {j : Job K V} (hj : s.jobs t = some j) : s.saving t = j.saving := by
  rw [State.saving, hj, Option.bind_some]

variable [DecidableEq T]

theorem saving_update {j : Job K V} (hjobs : s'.jobs = Function.update s.jobs t (some j)) :
    s'.saving t = j.saving ∧ ∀ u, u ≠ t → s'.saving u = s.saving u := by
  constructor
  · exact saving_of_jobs (by rw [hjobs, Function.update_self])
  · intro u hu
    rw [State.saving, hjobs, Function.update_of_ne hu]
    rfl

/-- **The flows of the other threads** know what they knew. -/
theorem Back.frame (h : Back cfg lookup s w) {j : Job K V}
    (hjobs : s'.jobs = Function.update s.jobs t (some j)) (hgrows : w.Grows w')
    (hneed : ∀ u, u ≠ t → w'.need u = w.need u) (hpos : ∀ u, u ≠ t → w'.pos u = w.pos u)
    (hstored : ∀ key n, n ≤ w.past key → w.Since key n (lookup s.store key) →
      w'.Since key n (lookup s'.store key))
    (hj : j.KnowsBack cfg w' (lookup s'.store) t) :
    ∀ u ju, s'.jobs u = some ju → ju.KnowsBack cfg w' (lookup s'.store) u := by
  intro u ju hu
  rw [hjobs] at hu
  by_cases hut : u = t
  · subst hut
    rw [Function.update_self] at hu
    rwa [← Option.some.inj hu]
  · rw [Function.update_of_ne hut] at hu
    have hknows := h.flows u ju hu
    unfold Job.KnowsBack at hknows ⊢
    split
    · next key hflow =>
        rw [hflow] at hknows
        exact hknows.frame hgrows (hneed u hut) (hstored key _ hknows.need)
    · next key value hflow =>
        rw [hflow] at hknows
        refine ⟨hknows.1, ?_⟩
        rw [hpos u hut]
        exact hknows.2.trans (hgrows.past key)
    · next key hflow =>
        rw [hflow] at hknows
        exact hknows

theorem Back.calm_update (h : Back cfg lookup s w) {j : Job K V}
    (hjobs : s'.jobs = Function.update s.jobs t (some j)) (hj : Calm j.code.tail) :
    ∀ u ju, s'.jobs u = some ju → Calm ju.code.tail := by
  intro u ju hu
  rw [hjobs] at hu
  by_cases hut : u = t
  · subst hut
    rw [Function.update_self] at hu
    rwa [← Option.some.inj hu]
  · rw [Function.update_of_ne hut] at hu
    exact h.calm u ju hu

/-! ## The kinds of steps -/

/-- The records are the same, but for what is said of one thread. -/
structure Watch.But (t : T) (w w' : Watch T K V) : Prop where
  values : w'.values = w.values
  past : w'.past = w.past
  done : w'.done = w.done
  need : ∀ u, u ≠ t → w'.need u = w.need u
  pos : ∀ u, u ≠ t → w'.pos u = w.pos u

omit [DecidableEq T] in
theorem Watch.But.refl (t : T) (w : Watch T K V) : w.But t w :=
  ⟨rfl, rfl, rfl, fun _ _ => rfl, fun _ _ => rfl⟩

omit [DecidableEq T] in
theorem Watch.But.grows (h : w.But t w') : w.Grows w' where
  values key := ⟨[], by rw [h.values, List.append_nil]⟩
  past key := by rw [h.past]

/-- **Nothing changes** in the table and in the store. -/
theorem Back.same (h : Back cfg lookup s w) (hw : w.But t w') {j : Job K V}
    (hjobs : s'.jobs = Function.update s.jobs t (some j))
    (hhas : ∀ x, s'.table.Has x ↔ s.table.Has x) (hstore : s'.store = s.store)
    (hsaving : j.saving = s.saving t)
    (hlock : ∀ u p, s.saving u = some p → s'.lock (cfg.index p.1) = some u)
    (hj : j.KnowsBack cfg w' (lookup s.store) t) (hcalm : Calm j.code.tail) :
    Back cfg lookup s' w' := by
  obtain ⟨hown, hothers⟩ := saving_update hjobs
  have hall : ∀ u, s'.saving u = s.saving u := fun u => by
    by_cases hut : u = t
    · rw [hut, hown, hsaving]
    · exact hothers u hut
  refine ⟨?_, ?_, fun it hit => ?_, fun it hit => ?_, fun key habsent hnot => ?_,
    fun u p hp => ?_, ?_, h.calm_update hjobs hcalm⟩
  · rw [hw.past, hw.values]
    exact h.past
  · rw [hw.done, hw.past]
    exact h.done
  · rw [hw.values]
    exact h.cached it ((hhas it).1 hit)
  · rw [hstore]
    exact h.clean it ((hhas it).1 hit)
  · rw [hstore, hw.values]
    exact h.absent key (fun it hit => habsent it ((hhas it).2 hit))
      fun u p hp => hnot u p ((hall u).trans hp)
  · rw [hall] at hp
    rw [hw.values]
    obtain ⟨hlast, -, habsent⟩ := h.saved u p hp
    exact ⟨hlast, hlock u p hp, fun it hit => habsent it ((hhas it).1 hit)⟩
  · refine h.frame hjobs hw.grows hw.need hw.pos (fun key n _ hs => ?_) ?_
    · rw [hstore]
      exact hw.grows.since hs
    · rwa [hstore]

/-- **A value is written back.** -/
theorem Back.saves [DecidableEq K] (h : Back cfg lookup s w) (hkv : cfg.KeyValue lookup)
    {key : K} {value : V} {j : Job K V}
    (hjobs : s'.jobs = Function.update s.jobs t (some j)) (htable : s'.table = s.table)
    (hlock : s'.lock = s.lock) (hstore : s'.store = cfg.write s.store key value)
    (hold : s.saving t = some (key, value)) (hnew : j.saving = none)
    (hj : ∀ stored, (∀ key', w.Since key' (w.past key') (stored key') ∨
        stored key' = lookup s.store key') → j.KnowsBack cfg w stored t)
    (hcalm : Calm j.code.tail) : Back cfg lookup s' w := by
  obtain ⟨hlast, hheld, habsent⟩ := h.saved t _ hold
  obtain ⟨hown, hothers⟩ := saving_update hjobs
  have hself : lookup s'.store key = some value := by rw [hstore, hkv.write_self]
  have hne : ∀ key', key' ≠ key → lookup s'.store key' = lookup s.store key' := fun key' hkey => by
    rw [hstore, hkv.write_of_ne _ _ _ _ hkey]
  have hnewest : ∀ n, n ≤ w.past key → w.Since key n (lookup s'.store key) := fun n hn => by
    rw [hself]
    exact Watch.since_last hlast (hn.trans_lt (h.past_lt key))
  refine ⟨h.past, h.done, ?_, fun it hit hclean => ?_, fun key' hno hnot => ?_, fun u p hp => ?_,
    ?_, h.calm_update hjobs hcalm⟩
  · rw [htable]
    exact h.cached
  · rw [htable] at hit
    rw [hne _ (habsent it hit)]
    exact h.clean it hit hclean
  · by_cases hkey : key' = key
    · rw [hkey, hself]
      exact hlast
    · rw [hne key' hkey]
      rw [htable] at hno
      refine h.absent key' hno fun u p hp => ?_
      by_cases hut : u = t
      · subst hut
        obtain rfl := Option.some.inj (hold.symm.trans hp)
        exact Ne.symm hkey
      · exact hnot u p ((hothers u hut).trans hp)
  · have hut : u ≠ t := by
      rintro rfl
      rw [hown, hnew] at hp
      cases hp
    rw [hothers u hut] at hp
    rw [hlock, htable]
    exact h.saved u p hp
  · refine h.frame hjobs (.refl w) (fun _ _ => rfl) (fun _ _ => rfl) (fun key' n hn hsince => ?_)
      (hj _ fun key' => ?_)
    · by_cases hkey : key' = key
      · subst hkey
        exact hnewest n hn
      · rwa [hne key' hkey]
    · by_cases hkey : key' = key
      · subst hkey
        exact Or.inl (hnewest _ le_rfl)
      · exact Or.inr (hne key' hkey)

/-- What a flow has to write back, when an item was thrown out. -/
def thrown (out : Option (Item K V)) : Option (K × V) :=
  out.bind fun old => if old.evicted = 1 then some (old.key, old.value) else none

/-- **An item is inserted**, and another may be thrown out. -/
theorem Back.inserts (h : Back cfg lookup s w) (hI : Inv cfg False s) (nit : Item K V)
    {out : Option (Item K V)} {j : Job K V}
    (hjobs : s'.jobs = Function.update s.jobs t (some j)) (hstore : s'.store = s.store)
    (hheld : s.lock (cfg.index nit.key) = some t) (hidle : s.saving t = none)
    (hhas : ∀ x, s'.table.Has x ↔
      s.table.Has x ∧ x.key ≠ nit.key ∧ (∀ old, out = some old → x.key ≠ old.key) ∨ x = nit)
    (hout : ∀ old, out = some old → s.table.Has old ∧ old.key ≠ nit.key ∧
      s'.lock (cfg.index old.key) = some t)
    (hsaving : j.saving = thrown out)
    (hlock : ∀ u idx, u ≠ t → s.lock idx = some u → s'.lock idx = some u)
    (hgrows : w.Grows w') (hneed : w'.need = w.need)
    (hpos : ∀ u, u ≠ t → w'.pos u = w.pos u) (hdone : w'.done = w.done)
    (hpast : ∀ key, w'.past key + 1 = (w'.values key).length)
    (hvalues : ∀ key, key ≠ nit.key → w'.values key = w.values key)
    (hlast : (w'.values nit.key).getLast? = some (some nit.value))
    (hclean : nit.evicted = 0 → lookup s.store nit.key = some nit.value)
    (hj : j.KnowsBack cfg w' (lookup s.store) t) (hcalm : Calm j.code.tail) :
    Back cfg lookup s' w' := by
  obtain ⟨hown, hothers⟩ := saving_update hjobs
  -- what the others write back belongs to other buckets
  have hother : ∀ u p, u ≠ t → s.saving u = some p → p.1 ≠ nit.key := by
    rintro u p hut hp hkey
    obtain ⟨-, hu, -⟩ := h.saved u p hp
    rw [hkey, hheld] at hu
    exact hut (Option.some.inj hu).symm
  refine ⟨hpast, fun key => ?_, fun it hit => ?_, fun it hit hzero => ?_,
    fun key habsent hnot => ?_, fun u p hp => ?_, ?_, h.calm_update hjobs hcalm⟩
  · rw [hdone]
    exact (h.done key).trans (hgrows.past key)
  · rcases (hhas it).1 hit with ⟨hold, hne, -⟩ | rfl
    · rw [hvalues _ hne]
      exact h.cached it hold
    · exact hlast
  · rw [hstore]
    rcases (hhas it).1 hit with ⟨hold, -, -⟩ | rfl
    · exact h.clean it hold hzero
    · exact hclean hzero
  · have hkey : key ≠ nit.key := fun hkey => habsent nit ((hhas nit).2 (Or.inr rfl)) hkey.symm
    rw [hvalues key hkey, hstore]
    -- the item of the key that is gone, if there was one
    by_cases hgone : ∃ old, out = some old ∧ old.key = key
    · obtain ⟨old, hold, rfl⟩ := hgone
      obtain ⟨hold_has, -, -⟩ := hout old hold
      rcases hI.table.evicted hold_has with hzero | hone
      · rw [h.clean old hold_has hzero]
        exact h.cached old hold_has
      · refine absurd rfl (hnot t (old.key, old.value) ?_)
        rw [hown, hsaving, hold, thrown, Option.bind_some, if_pos hone]
    · refine h.absent key (fun it hit hkey' => ?_) fun u p hp => ?_
      · refine habsent it ((hhas it).2 (Or.inl ⟨hit, hkey' ▸ hkey, fun old hold hkey'' => ?_⟩)) hkey'
        exact hgone ⟨old, hold, hkey''.symm.trans hkey'⟩
      · have hut : u ≠ t := by
          rintro rfl
          rw [hidle] at hp
          cases hp
        exact hnot u p ((hothers u hut).trans hp)
  · by_cases hut : u = t
    · subst hut
      rw [hown, hsaving] at hp
      cases hold : out with
      | none =>
          rw [hold] at hp
          cases hp
      | some old =>
          obtain ⟨hold_has, hne, hheld'⟩ := hout old hold
          rw [hold, thrown, Option.bind_some] at hp
          split_ifs at hp
          obtain rfl := Option.some.inj hp
          refine ⟨?_, hheld', fun it hit => ?_⟩
          · rw [hvalues _ hne]
            exact h.cached old hold_has
          · rcases (hhas it).1 hit with ⟨-, -, hgone⟩ | rfl
            · exact hgone old hold
            · exact hne.symm
    · rw [hothers u hut] at hp
      obtain ⟨hlast', hheld', habsent⟩ := h.saved u p hp
      have hne := hother u p hut hp
      refine ⟨?_, hlock u _ hut hheld', fun it hit => ?_⟩
      · rw [hvalues _ hne]
        exact hlast'
      · rcases (hhas it).1 hit with ⟨hold, -, -⟩ | rfl
        · exact habsent it hold
        · exact hne.symm
  · refine h.frame hjobs hgrows (fun u _ => by rw [hneed]) hpos (fun key n _ hsince => ?_) ?_
    · rw [hstore]
      exact hgrows.since hsince
    · rwa [hstore]

/-! ## The operations -/

omit [DecidableEq T] in
/-- What an insertion throws out. -/
theorem Inserts.thrown {hash : K → UInt32} {nbuckets : ℕ} {table : Table N K V}
    (hok : table.Ok hash nbuckets) {has' : Item K V → Prop} {full : Prop} {nit : Item K V}
    {direct ret : Option (Item K V)} {unlock : Bool}
    (habsent : ∀ it, table.Has it → it.key ≠ nit.key)
    (h : Inserts table.Has has' full nit true direct ret unlock)
    (hdirect : direct.bind Item.saving = none) :
    ∃ out, (∀ x, has' x ↔
        table.Has x ∧ x.key ≠ nit.key ∧ (∀ old, out = some old → x.key ≠ old.key) ∨ x = nit) ∧
      (∀ old, out = some old → table.Has old ∧ old.key ≠ nit.key ∧ old.bucket = nit.bucket ∧
        unlock = false) ∧
      ret.bind Item.saving = Flows.thrown out := by
  cases h with
  | free hroom hhas hret hunlock =>
      refine ⟨none, fun x => ?_, nofun, by rw [hret, hdirect]; rfl⟩
      rw [hhas]
      exact or_congr_left ⟨fun hx => ⟨hx, habsent x hx, nofun⟩, And.left⟩
  | evict old hold hbucket hfull hreplace hhas hret hunlock =>
      refine ⟨some old, fun x => ?_, fun old' hold' => ?_, ?_⟩
      · rw [hhas]
        refine or_congr_left ⟨fun hx => ⟨hx.1, habsent x hx.1, fun old' hold' => ?_⟩,
          fun hx => ⟨hx.1, hx.2.2 old rfl⟩⟩
        rw [← Option.some.inj hold']
        exact hx.2
      · obtain rfl := Option.some.inj hold'
        exact ⟨hold, habsent old hold, hbucket, hunlock⟩
      · rw [hret]
        rcases hok.evicted hold with hzero | hone
        · simp [Flows.thrown, Item.saving, hzero]
        · simp only [Option.bind_some, Flows.thrown, Item.saving, hone]
          rfl
  | fail hfull hreplace hhas hret hunlock => cases hreplace

/-- What a thread does with an operation. -/
theorem exec_body [DecidableEq K] {j : Job K V} {ok : Bool} {op : Op K V}
    (hs : exec cfg s t j ok (.body op) = some s') :
    ∃ o, cfg.call s.table op = some o ∧ s'.table = o.state ∧ s'.store = s.store ∧
      (o.unlock = false → s'.lock = s.lock) ∧
      s'.jobs = Function.update s.jobs t (some (j.push [.ret op o.ret])) := by
  simp only [exec, Option.map_eq_some_iff] at hs
  obtain ⟨o, ho, rfl⟩ := hs
  refine ⟨o, ho, rfl, rfl, fun hunlock => ?_, rfl⟩
  simp only [State.goto, hunlock, Bool.false_eq_true, if_false]

variable [DecidableEq K] {rest : List (Instr K V)}

/-- **`cache_put_or_get`** inserts what the store has. -/
theorem Back.putOrGet (h : Back cfg lookup s w) (hI : Inv cfg False s) (hver : cfg.version.Plain)
    {nit : Item K V} (hc : s.code t = .body (.putOrGet nit) :: rest)
    (hidle : s.saving t = none)
    (htimely : (∀ it, s.table.Has it → it.key ≠ nit.key) →
      w.Since nit.key (w.past nit.key) (some nit.value))
    {o : Outcome (Table N K V) K V} (ho : cfg.call s.table (.putOrGet nit) = some o)
    (htable : s'.table = o.state) (hstore : s'.store = s.store)
    (hunlock : o.unlock = false → s'.lock = s.lock)
    (hlock : ∀ u idx, u ≠ t → s.lock idx = some u → s'.lock idx = some u) {j : Job K V}
    (hjobs : s'.jobs = Function.update s.jobs t (some j))
    (hsaving : j.saving = o.ret.bind Item.saving)
    (hj : j.KnowsBack cfg w (lookup s.store) t) (hcalm : Calm j.code.tail) :
    Back cfg lookup s' w := by
  have hheld : s.lock (cfg.index nit.key) = some t := hI.holder hc List.mem_cons_self
  cases hI.putsOrGets hver hc ho with
  | exist old hold hkey hbucket hfreed hret _ hhas =>
      refine h.same (.refl t w) hjobs (fun x => htable ▸ hhas x) hstore ?_ (fun u p hp => ?_) hj hcalm
      · rw [hsaving, hidle, hret]
        rcases hI.table.evicted hold with hzero | hone
        · simp [Item.saving, hzero]
        · simp [Item.saving, hone]
      · refine hlock u _ ?_ (h.saved u p hp).2.1
        rintro rfl
        rw [hidle] at hp
        cases hp
  | insert habsent hfreed hins =>
      obtain ⟨out, hhas, hout, hthrown⟩ := Inserts.thrown hI.table habsent hins rfl
      have hlast : (w.values nit.key).getLast? = some (some nit.value) :=
        (htimely habsent).last (h.past nit.key)
      refine h.inserts hI (nit.stored (cfg.index nit.key) 0) hjobs hstore hheld hidle
        (fun x => htable ▸ hhas x) (fun old hold => ?_) (hsaving.trans hthrown) hlock (.refl w) rfl
        (fun _ _ => rfl) rfl h.past (fun _ _ => rfl) hlast (fun _ => ?_) hj hcalm
      · obtain ⟨hold_has, hne, hbucket, hkept⟩ := hout old hold
        refine ⟨hold_has, hne, ?_⟩
        have hindex : cfg.index old.key = cfg.index nit.key :=
          Option.some.inj ((hI.table.bucket hold_has).symm.trans hbucket)
        rw [hunlock hkept, hindex]
        exact hheld
      · have hstored := h.absent nit.key habsent (h.not_saving hheld hidle)
        exact Option.some.inj (hstored.symm.trans hlast)

/-- **`cache_put`** makes a value the newest. -/
theorem Back.put (h : Back cfg lookup s w) (hI : Inv cfg False s) (hver : cfg.version.Plain)
    (hback : cfg.writeBack = true) {nit : Item K V}
    (hc : s.code t = .body (.put nit) :: rest) (hidle : s.saving t = none)
    {o : Outcome (Table N K V) K V} (ho : cfg.call s.table (.put nit) = some o)
    (htable : s'.table = o.state) (hstore : s'.store = s.store)
    (hunlock : o.unlock = false → s'.lock = s.lock)
    (hlock : ∀ u idx, u ≠ t → s.lock idx = some u → s'.lock idx = some u) {j : Job K V}
    (hjobs : s'.jobs = Function.update s.jobs t (some j))
    (hsaving : j.saving = o.ret.bind Item.saving)
    (hj : j.KnowsBack cfg ((w.takes t nit.key nit.value).puts t nit.key) (lookup s.store) t)
    (hcalm : Calm j.code.tail) :
    Back cfg lookup s' ((w.takes t nit.key nit.value).puts t nit.key) := by
  have hheld : s.lock (cfg.index nit.key) = some t := hI.holder hc List.mem_cons_self
  have hnew : Item.saving (nit.stored (cfg.index nit.key) 1) = none :=
    if_neg (show ¬ (1 : UInt8) = 3 by decide)
  have hputs := hI.puts hver hc ho
  obtain ⟨out, hhas, hout, hthrown⟩ : ∃ out, (∀ x, o.state.Has x ↔
        s.table.Has x ∧ x.key ≠ nit.key ∧ (∀ old, out = some old → x.key ≠ old.key) ∨
          x = nit.stored (cfg.index nit.key) 1) ∧
      (∀ old, out = some old → s.table.Has old ∧ old.key ≠ nit.key ∧
        old.bucket = some (cfg.index nit.key) ∧ o.unlock = false) ∧
      o.ret.bind Item.saving = thrown out := by
    rw [cfg.back_alloc hback] at hputs
    cases hputs with
    | update old hold hkey hfreed hret _ hhas =>
        refine ⟨none, fun x => ?_, nofun, ?_⟩
        · rw [hhas]
          exact or_congr_left ⟨fun hx => ⟨hx.1, hx.2, nofun⟩, fun hx => ⟨hx.1, hx.2.1⟩⟩
        · rw [hret]
          exact hnew
    | insert habsent hfreed hins => exact Inserts.thrown hI.table habsent hins hnew
  have hgrows : w.Grows ((w.takes t nit.key nit.value).puts t nit.key) :=
    (w.grows_takes t nit.key nit.value).trans (Watch.grows_puts _ t nit.key)
  refine h.inserts hI (nit.stored (cfg.index nit.key) 1) hjobs hstore hheld hidle
    (fun x => htable ▸ hhas x) (fun old hold => ?_) (hsaving.trans hthrown) hlock hgrows rfl
    (fun u hu => Function.update_of_ne hu _ _) rfl (fun key => ?_) (fun key hkey => ?_) ?_ nofun
    hj hcalm
  · obtain ⟨hold_has, hne, hbucket, hkept⟩ := hout old hold
    refine ⟨hold_has, hne, ?_⟩
    have hindex : cfg.index old.key = cfg.index nit.key :=
      Option.some.inj ((hI.table.bucket hold_has).symm.trans hbucket)
    rw [hunlock hkept, hindex]
    exact hheld
  · by_cases hkey : key = nit.key
    · subst hkey
      simp only [Watch.puts, Watch.takes, Function.update_self, List.length_append,
        List.length_singleton]
      rw [max_eq_right (h.past_lt nit.key).le]
    · simp only [Watch.puts, Watch.takes, Function.update_of_ne hkey]
      exact h.past key
  · exact Function.update_of_ne hkey _ _
  · simp only [Watch.puts, Watch.takes, Item.stored, Function.update_self]
    exact List.getLast?_concat

/-! ## The steps of the flows -/

omit [DecidableEq T] [DecidableEq K] in
theorem Watch.puts_eq_self [DecidableEq K] {key : K} (h : w.pos t ≤ w.past key) :
    w.puts t key = w := by
  unfold Watch.puts
  rw [max_eq_left h, Function.update_eq_self]

omit [DecidableEq T] [DecidableEq K] in
theorem saving_ret {packet : Packet K V} (nit : Item K V) (it : Option (Item K V)) :
    (Instr.ret (.put nit) it).saving packet = it.bind Item.saving ∧
      (Instr.ret (.putOrGet nit) it).saving packet = it.bind Item.saving := by
  cases it <;> exact ⟨rfl, rfl⟩

/-- **An element**, which changes neither the table nor the newest values. -/
theorem Back.of_element (h : Back cfg lookup s w) (hI : Inv cfg False s)
    (hback : cfg.writeBack = true) (hkv : cfg.KeyValue lookup) {flow : Flow K V}
    {packet : Packet K V} {i : Instr K V} (hj : s.jobs t = some ⟨flow, packet, i :: rest⟩)
    (hevict : ∀ it : Item K V, i = .evict (some it) → it.evicted = 3 → cfg.state = false →
      cfg.pointerKey = true)
    (hbody : ∀ op, i ≠ .body op)
    (hs : exec cfg s t ⟨flow, packet, rest⟩ true i = some s') {j : Job K V}
    (hjobs : s'.jobs = Function.update s.jobs t (some j))
    (hknows : ∀ stored, (∀ key, w.Since key (w.past key) (stored key) ∨
      stored key = lookup s.store key) → j.KnowsBack cfg w stored t) : Back cfg lookup s' w := by
  have hc : s.code t = i :: rest := code_of_jobs hj
  have hrest : Calm rest := h.calm t _ hj
  have hj' : s'.jobs t = some j := by rw [hjobs, Function.update_self]
  have hcalm : Calm j.code.tail := exec_calm hrest hs hj'
  have hsaving : s.saving t = i.saving packet := saving_of_jobs hj
  by_cases hwrites : ∃ p : K × V, i = .write p.1 p.2 ∨ i = .update ∧ packet = ⟨p.1, some p.2⟩
  · obtain ⟨⟨key, value⟩, hwrites⟩ := hwrites
    have hnew : j.code = rest → j.saving = none := fun hcode => by
      rw [← hcode] at hrest
      exact hrest.saving
    rcases hwrites with rfl | ⟨rfl, rfl⟩ <;> obtain rfl := Option.some.inj hs <;>
      obtain rfl := Option.some.inj ((goto_jobs_self _ _ _).symm.trans hj') <;>
      exact h.saves hkv hjobs rfl rfl rfl hsaving (hnew rfl) hknows hcalm
  · have hwrite : ∀ key value, i ≠ .write key value := fun key value hi =>
      hwrites ⟨(key, value), Or.inl hi⟩
    have hkeep : ∀ u p, s.saving u = some p → s'.lock (cfg.index p.1) = some u := by
      intro u p hp
      refine exec_lock hI hc hs (h.saved u p hp).2.1 ?_
      by_cases hut : u = t
      · subst hut
        rw [hsaving] at hp
        refine Or.inr ⟨hbody, ?_⟩
        rintro it rfl
        cases hp
      · exact Or.inl hut
    have hstored := hknows (lookup s.store) fun _ => Or.inr rfl
    by_cases hupdate : i = .update
    · -- there is nothing to write
      subst hupdate
      obtain ⟨key, value⟩ := packet
      cases value with
      | some value => exact absurd ⟨(key, value), Or.inr ⟨rfl, rfl⟩⟩ hwrites
      | none =>
          obtain rfl := Option.some.inj hs
          obtain rfl := Option.some.inj ((goto_jobs_self _ _ _).symm.trans hj')
          exact h.same (.refl t w) hjobs (fun _ => Iff.rfl) rfl (hrest.saving.trans hsaving.symm) hkeep hstored
            hcalm
    · refine h.same (.refl t w) hjobs (fun x => ?_) (exec_store hkv hs hupdate hwrite) ?_ hkeep hstored hcalm
      · rw [exec_table hs hbody]
      · rw [hsaving]
        exact exec_saving hback hrest hbody hupdate hwrite hevict hs hj'

/-- **A step of a get.** -/
theorem Back.of_get (h : Back cfg lookup s w) (hI : Inv cfg False s) (hver : cfg.version.Plain)
    (hback : cfg.writeBack = true) (hkv : cfg.KeyValue lookup) {key : K} {packet : Packet K V}
    {i : Instr K V} (hj : s.jobs t = some ⟨.get key, packet, i :: rest⟩)
    (htimely : Timely cfg (s, w) (.go t true))
    (hs : exec cfg s t ⟨.get key, packet, rest⟩ true i = some s') : Back cfg lookup s' w := by
  have hgets : Getting cfg w (lookup s.store key) t key ⟨.get key, packet, i :: rest⟩ :=
    h.flows t _ hj
  have hc : s.code t = i :: rest := code_of_jobs hj
  have hsaving : s.saving t = i.saving packet := saving_of_jobs hj
  have hevict : ∀ it : Item K V, i = .evict (some it) → it.evicted = 3 →
      cfg.state = false ∧ cfg.pointerKey = true := by
    rintro it rfl hthree
    simp only [Timely, hj] at htimely
    have := htimely hthree
    split_ifs at this with hstate
    · obtain ⟨key', value', hflow⟩ := this
      cases hflow
    · exact ⟨Bool.eq_false_of_not_eq_true hstate, this⟩
  have hbody : ∀ op o, i = .body op → cfg.call s.table op = some o →
      (Instr.ret op o.ret).Gets cfg w key (w.need t) (lookup s.store key) packet := by
    rintro op o rfl ho
    have hopkey : op.key = key := by
      have hop := hgets.code _ List.mem_cons_self
      cases op with
      | get key' => exact hop
      | putOrGet nit => exact hop.1
      | put nit => exact hop.elim
      | delete key' => exact hop.elim
    have hheld : s.lock (cfg.index key) = some t := by
      rw [← hopkey]
      exact hI.holder hc List.mem_cons_self
    refine hgets.body hI hver hc (fun it hit => ?_) (fun habsent => ?_) (fun nit hnit => ?_) ho
    · exact Watch.since_last (h.cached it hit) (h.past_lt it.key)
    · exact Watch.since_last (h.absent key habsent (h.not_saving hheld hsaving))
        (hgets.need.trans_lt (h.past_lt key))
    · subst hnit
      simp only [Timely, hj] at htimely
      exact htimely.2
  obtain ⟨j, hjobs, hflow, hgets'⟩ := hgets.exec hkv hbody (fun it hi hthree => (hevict it hi hthree).1) hs
  have hknows : ∀ stored, (∀ key', w.Since key' (w.past key') (stored key') ∨
      stored key' = lookup s.store key') → j.KnowsBack cfg w stored t := by
    intro stored hstored
    unfold Job.KnowsBack
    rw [hflow]
    refine hgets'.frame (.refl w) rfl fun hsince => ?_
    rcases hstored key with hnew | hsame
    · exact hnew.mono hgets.need
    · rwa [hsame]
  by_cases hop : ∃ op, i = .body op
  · obtain ⟨op, rfl⟩ := hop
    have hj' : s'.jobs t = some j := by rw [hjobs, Function.update_self]
    have hcalm := exec_calm (h.calm t _ hj) hs hj'
    have hlock : ∀ u idx, u ≠ t → s.lock idx = some u → s'.lock idx = some u :=
      fun u idx hut hu => exec_lock hI hc hs hu (Or.inl hut)
    have hstored := hknows (lookup s.store) fun _ => Or.inr rfl
    obtain ⟨o, ho, htable, hstore, hunlock, hjobs'⟩ := exec_body hs
    obtain rfl : j = _ := Option.some.inj
      (hj'.symm.trans (by rw [hjobs', Function.update_self]))
    cases op with
    | get key' =>
        obtain ⟨hsame, -⟩ := hI.table.get_spec hver key'
        obtain rfl := Option.some.inj ho
        refine h.same (.refl t w) hjobs (fun x => by rw [htable, hsame]) hstore ?_ (fun u p hp => ?_) hstored
          hcalm
        · rw [hsaving]
          rfl
        · refine hlock u _ ?_ (h.saved u p hp).2.1
          rintro rfl
          rw [hsaving] at hp
          cases hp
    | putOrGet nit =>
        simp only [Timely, hj] at htimely
        exact h.putOrGet hI hver hc hsaving htimely.1 ho htable hstore hunlock hlock hjobs
          (saving_ret nit o.ret).2 hstored hcalm
    | put nit => exact (hgets.code _ List.mem_cons_self).elim
    | delete key' => exact (hgets.code _ List.mem_cons_self).elim
  · exact h.of_element hI hback hkv hj (fun it hi hthree _ => (hevict it hi hthree).2)
      (fun op hi => hop ⟨op, hi⟩) hs hjobs hknows

/-- **A step of a set.** -/
theorem Back.of_set (h : Back cfg lookup s w) (hI : Inv cfg False s) (hver : cfg.version.Plain)
    (hback : cfg.writeBack = true) (hkv : cfg.KeyValue lookup) {key : K} {value : V}
    {packet : Packet K V} {i : Instr K V}
    (hj : s.jobs t = some ⟨.set key value, packet, i :: rest⟩)
    (htimely : Timely cfg (s, w) (.go t true))
    (hs : exec cfg s t ⟨.set key value, packet, rest⟩ true i = some s') :
    Back cfg lookup s' (w.act t key cfg value i) := by
  obtain ⟨hputs, hpos⟩ : Putting key value ⟨.set key value, packet, i :: rest⟩ ∧
      w.pos t ≤ w.past key := h.flows t _ hj
  have hi := hputs.code i List.mem_cons_self
  have hc : s.code t = i :: rest := code_of_jobs hj
  have hsaving : s.saving t = i.saving packet := saving_of_jobs hj
  obtain ⟨j, hjobs, hflow, hputs'⟩ := hputs.exec hback hs
  have hknows : ∀ (w' : Watch T K V) (stored : K → Option V), w'.pos t ≤ w'.past key →
      j.KnowsBack cfg w' stored t := by
    intro w' stored hpos'
    unfold Job.KnowsBack
    rw [hflow]
    exact ⟨hputs', hpos'⟩
  by_cases hop : ∃ op, i = .body op
  · obtain ⟨op, rfl⟩ := hop
    have hj' : s'.jobs t = some j := by rw [hjobs, Function.update_self]
    have hcalm := exec_calm (h.calm t _ hj) hs hj'
    have hlock : ∀ u idx, u ≠ t → s.lock idx = some u → s'.lock idx = some u :=
      fun u idx hut hu => exec_lock hI hc hs hu (Or.inl hut)
    obtain ⟨o, ho, htable, hstore, hunlock, hjobs'⟩ := exec_body hs
    obtain rfl : j = _ := Option.some.inj
      (hj'.symm.trans (by rw [hjobs', Function.update_self]))
    cases op with
    | put nit =>
        obtain ⟨rfl, rfl⟩ := hi
        simp only [Watch.act, hback, if_true]
        exact h.put hI hver hback hc hsaving ho htable hstore hunlock hlock hjobs
          (saving_ret nit o.ret).1 (hknows _ _ (Watch.pos_le_puts _ t nit.key)) hcalm
    | putOrGet nit => exact hi.elim
    | get key' => exact hi.elim
    | delete key' => exact hi.elim
  · have hact : w.act t key cfg value i = w := by
      cases i with
      | update => simp only [Watch.act, hback, if_true]
      | cacheSet =>
          simp only [Watch.act]
          split_ifs
          · rfl
          · exact Watch.puts_eq_self hpos
      | body op => exact absurd ⟨op, rfl⟩ hop
      | _ => rfl
    rw [hact]
    refine h.of_element hI hback hkv hj (fun it hi hthree hstate => ?_) (fun op hi => hop ⟨op, hi⟩)
      hs hjobs fun stored _ => hknows w stored hpos
    subst hi
    simp only [Timely, hj] at htimely
    have := htimely hthree
    rwa [hstate, if_neg Bool.false_ne_true] at this

/-- A flow starts. -/
theorem Back.start (h : Back cfg lookup s w) (hback : cfg.writeBack = true) {flow : Flow K V}
    (hflow : ∀ key, flow ≠ .delete key) (hc : s.code t = []) :
    Back cfg lookup (s.goto t (cfg.start flow))
      (w.next cfg s (s.goto t (cfg.start flow)) (.start t flow)) := by
  have hidle : s.saving t = none := by
    cases hj : s.jobs t with
    | none =>
        rw [State.saving, hj]
        rfl
    | some j =>
        rw [code_of_jobs hj] at hc
        rw [saving_of_jobs hj, Job.saving, hc]
  have hkeep : ∀ u p, s.saving u = some p → s.lock (cfg.index p.1) = some u := fun u p hp =>
    (h.saved u p hp).2.1
  cases flow with
  | get key =>
      refine h.same ⟨rfl, rfl, rfl, fun u hu => Function.update_of_ne hu _ _, fun _ _ => rfl⟩ rfl
        (fun _ => Iff.rfl) rfl hidle.symm hkeep ?_ (fun _ hi => by cases hi)
      refine Getting.one ?_ rfl (fun _ hv => by cases hv) (.lock (.get key)) rfl rfl
      simp only [Watch.next, Function.update_self]
      exact h.done key
  | set key value =>
      have hcode : (cfg.start (.set key value)).code = [.cacheSet] := by
        simp only [Config.start, hback, if_true]
      refine h.same ⟨rfl, rfl, rfl, fun _ _ => rfl, fun u hu => Function.update_of_ne hu _ _⟩ rfl
        (fun _ => Iff.rfl) rfl ?_ hkeep ⟨Putting.one .cacheSet hcode rfl, ?_⟩ ?_
      · rw [Job.saving, hcode, hidle]
        rfl
      · simp only [Watch.next, Function.update_self]
        exact Nat.zero_le _
      · rw [hcode]
        intro i hi
        cases hi
  | delete key => exact absurd rfl (hflow key)

omit [DecidableEq T] in
/-- A set completes. -/
theorem Back.ends (h : Back cfg lookup s w) {key : K} (hpos : w.pos t ≤ w.past key) :
    Back cfg lookup s (w.ends t key) where
  past := h.past
  done key' := by
    by_cases hkey : key' = key
    · subst hkey
      simp only [Watch.ends, Function.update_self]
      exact max_le (h.done key') hpos
    · simp only [Watch.ends, Function.update_of_ne hkey]
      exact h.done key'
  cached := h.cached
  clean := h.clean
  absent := h.absent
  saved := h.saved
  flows u ju hu := by
    have hknows := h.flows u ju hu
    unfold Job.KnowsBack at hknows ⊢
    split
    · next key' hflow =>
        rw [hflow] at hknows
        exact hknows.frame ⟨fun _ => ⟨[], (List.append_nil _).symm⟩, fun _ => le_rfl⟩ rfl id
    · next key' value hflow =>
        rw [hflow] at hknows
        exact hknows
    · next key' hflow =>
        rw [hflow] at hknows
        exact hknows
  calm := h.calm

/-- **The step lemma.** -/
theorem Back.of_step (h : Back cfg lookup s w) (hI : Inv cfg False s) (hver : cfg.version.Plain)
    (hback : cfg.writeBack = true) (hkv : cfg.KeyValue lookup) {a : Act T K V}
    (hplain : a.Plain) (htimely : Timely cfg (s, w) a) (hs : step cfg s a = some s') :
    Back cfg lookup s' (w.next cfg s s' a) := by
  cases a with
  | start t flow =>
      simp only [step] at hs
      split_ifs at hs with hc
      obtain rfl := Option.some.inj hs
      exact h.start hback hplain (List.isEmpty_iff.1 hc)
  | go t ok =>
      obtain rfl : ok = true := hplain
      simp only [step] at hs
      split at hs
      · cases hs
      · next j hj =>
          obtain ⟨flow, packet, code⟩ := j
          cases code with
          | nil => cases hs
          | cons i rest =>
              simp only at hs
              cases flow with
              | get key =>
                  simp only [Watch.next, hj]
                  exact h.of_get hI hver hback hkv hj htimely hs
              | set key value =>
                  have hset := h.of_set hI hver hback hkv hj htimely hs
                  simp only [Watch.next, hj]
                  split_ifs
                  · obtain ⟨j', hjobs, hflow⟩ := exec_jobs hs
                    have hknows := hset.flows t j' (by rw [hjobs, Function.update_self])
                    unfold Job.KnowsBack at hknows
                    rw [hflow] at hknows
                    exact hset.ends hknows.2
                  · exact hset
              | delete key => exact (h.flows t _ hj).elim

end Flows
end Cache
end Floem
