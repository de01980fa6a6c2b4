import Floem.Cache.Back

/-!
# No stale hits

* `notStale_run` — **the main theorem**: in a run whose steps are `Timely`, no get returns a
  value that is older than one of a set that had completed when it started.
* `stale_hit` — a run of four flows in which a get does.
-/

namespace Floem
namespace Cache
namespace Flows

open Lib

variable {K V T σ : Type*} {N : ℕ} {cfg : Config K V σ} {lookup : σ → K → Option V}

/-- The invariant of a state with its record. -/
def Fresh (cfg : Config K V σ) (lookup : σ → K → Option V) (x : State N T K V σ × Watch T K V) :
    Prop :=
  Inv cfg False x.1 ∧
    if cfg.writeBack then Back cfg lookup x.1 x.2 else Through cfg lookup x.1 x.2

/-- At the port `out` a get has a value that is not too old. -/
theorem Getting.notStale {w : Watch T K V} {stored : Option V} {t : T} {key : K}
    {packet : Packet K V} {rest : List (Instr K V)}
    (h : Getting cfg w stored t key ⟨.get key, packet, .out :: rest⟩) :
    packet.key = key ∧ ∃ value, packet.value = some value ∧
      w.Since key (w.need t) (some value) := by
  have hout : packet.value.isSome := h.code .out List.mem_cons_self
  obtain ⟨value, hvalue⟩ := Option.isSome_iff_exists.1 hout
  exact ⟨h.own_key, value, hvalue, h.value value hvalue⟩

theorem Fresh.notStale {x : State N T K V σ × Watch T K V} (h : Fresh cfg lookup x) :
    NotStale x := by
  intro t key packet rest hj
  obtain ⟨-, hmode⟩ := h
  split_ifs at hmode
  · have hgets : Getting cfg x.2 (lookup x.1.store key) t key _ := hmode.flows t _ hj
    exact hgets.notStale
  · have hgets : Getting cfg x.2 (lookup x.1.store key) t key _ := hmode.flows t _ hj
    exact hgets.notStale

theorem fresh_init (cfg : Config K V σ) (lookup : σ → K → Option V) (store : σ) :
    Fresh cfg lookup
      ((State.init store, Watch.init (lookup store)) : State N T K V σ × Watch T K V) := by
  refine ⟨inv_init cfg False store, ?_⟩
  split_ifs
  · exact ⟨fun _ => rfl, fun _ => le_rfl, fun it hit => absurd hit (Table.not_has_empty it),
      fun it hit => absurd hit (Table.not_has_empty it), fun _ _ _ => rfl, nofun, nofun, nofun⟩
  · exact ⟨fun _ => Nat.zero_lt_one, fun _ => le_rfl, fun _ => rfl,
      fun it hit => absurd hit (Table.not_has_empty it), nofun⟩

variable [DecidableEq T] [DecidableEq K]

theorem Fresh.of_step {x x' : State N T K V σ × Watch T K V} (h : Fresh cfg lookup x)
    (hver : cfg.version.Plain) (hkv : cfg.KeyValue lookup) {a : Act T K V} (hplain : a.Plain)
    (htimely : Timely cfg x a) (hs : stepW cfg x a = some x') : Fresh cfg lookup x' := by
  obtain ⟨hI, hmode⟩ := h
  simp only [stepW, Option.map_eq_some_iff] at hs
  obtain ⟨s', hstep, rfl⟩ := hs
  refine ⟨hI.of_step hver a False.elim hstep, ?_⟩
  split_ifs at hmode ⊢ with hback
  · exact hmode.of_step hI hver hback hkv hplain htimely hstep
  · exact hmode.of_step hI hver (Bool.eq_false_of_not_eq_true hback) hkv hplain htimely hstep

/-- **No stale hits.**  In front of a key-value store, with either write policy, and however the
gets and sets of any number of threads interleave: if no value goes into the table that is older
than one of a set that has already gone through the cache, no get returns a value that is older
than one of a set that had completed when it started. -/
theorem notStale_run (hver : cfg.version = cpu ∨ cfg.version = cavium)
    (hkv : cfg.KeyValue lookup) (store : σ) (as : List (Act T K V)) (hplain : ∀ a ∈ as, a.Plain)
    (hmeets : Meets (stepW cfg) (Timely cfg)
      ((State.init store, Watch.init (lookup store)) : State N T K V σ × Watch T K V) as)
    (x : State N T K V σ × Watch T K V)
    (hrun : run (stepW cfg) (State.init store, Watch.init (lookup store)) as = some x) :
    NotStale x := by
  have hver' : cfg.version.Plain := by
    rcases hver with hver | hver <;> rw [hver]
    · exact cpu_plain
    · exact cavium_plain
  have hfresh : Fresh cfg lookup x :=
    run_invariant_of_meets
      (fun x a x' hx hC hstep => hx.of_step hver' hkv hC.2 hC.1 hstep)
      (fresh_init cfg lookup store) (hmeets.and_mem hplain) hrun
  exact hfresh.notStale

/-- A test for `Timely`. -/
def timely (cfg : Config K V σ) [DecidableEq V] (x : State N T K V σ × Watch T K V) :
    Act T K V → Bool
  | .start _ _ => true
  | .go t _ =>
      match x.1.jobs t with
      | some ⟨_, _, .body (.putOrGet nit) :: _⟩ =>
          (!cfg.varSize || cfg.state) &&
            decide (x.2.Since nit.key (x.2.past nit.key) (some nit.value))
      | some ⟨_, _, .body (.put nit) :: _⟩ =>
          decide (x.2.Since nit.key (x.2.past nit.key) (some nit.value))
      | some ⟨.set key value, _, .cacheSet :: _⟩ => cfg.storable key value
      | some ⟨_, _, .evict (some it) :: _⟩ => it.evicted ≠ 3
      | _ => true

omit [DecidableEq T] [DecidableEq K] in
theorem timely_sound [DecidableEq V] (x : State N T K V σ × Watch T K V) (a : Act T K V)
    (h : timely cfg x a = true) : Timely cfg x a := by
  cases a with
  | start t flow => trivial
  | go t ok =>
      revert h
      simp only [timely, Timely]
      generalize x.1.jobs t = job
      obtain _ | ⟨flow, packet, _ | ⟨i, code⟩⟩ := job
      · exact fun _ => trivial
      · exact fun _ => trivial
      cases i with
      | body op =>
          cases op with
          | putOrGet nit =>
              intro h
              obtain ⟨hfound, hsince⟩ := Bool.and_eq_true_iff.1 h
              refine ⟨fun _ => of_decide_eq_true hsince, fun it _ _ => if_neg fun hvar => ?_⟩
              revert hfound hvar
              cases cfg.varSize <;> cases cfg.state <;> decide
          | put nit => exact fun h => Or.inr (Or.inl (of_decide_eq_true h))
          | _ => exact fun _ => trivial
      | cacheSet =>
          cases flow with
          | set key value => exact fun h => Or.inr (Or.inl h)
          | _ => exact fun _ => trivial
      | evict it =>
          cases it with
          | some it => exact fun h hthree => absurd hthree (of_decide_eq_true h)
          | none => exact fun _ => trivial
      | _ => exact fun _ => trivial

/-- A cache of integers with the default policies and one bucket, in front of a store. -/
def storeCache : Config ℕ ℕ (ℕ → Option ℕ) where
  version := cpu
  hash _ := 0
  nbuckets := 1
  writeBack := false
  writeAlloc := false
  back_alloc := no_back
  state := false
  pointerKey := false
  ofPointer := id
  varSize := false
  withVallen value _ := value
  storable _ _ := true
  read store key := (store, store key)
  write store key value := Function.update store key (some value)

theorem storeCache_keyValue : storeCache.KeyValue fun store key => store key where
  read _ _ := rfl
  write_self _ _ _ := Function.update_self _ _ _
  write_of_ne _ _ _ _ hne := Function.update_of_ne hne _ _

/-- The store has 0 for the key 3. -/
def oldStore : ℕ → Option ℕ := fun key => if key = 3 then some 0 else none

/-- A set, and then a get of another thread, which finds the item. -/
def setGetRun : List (Act Bool ℕ ℕ) :=
  .start true (.set 3 1) :: List.replicate 10 (.go true true) ++
    .start false (.get 3) :: List.replicate 3 (.go false true)

theorem notStale_set_get : ∃ x : State 0 Bool ℕ ℕ (ℕ → Option ℕ) × Watch Bool ℕ ℕ,
    run (stepW storeCache) (State.init oldStore, Watch.init oldStore) setGetRun = some x ∧
      NotStale x := by
  refine ⟨_, rfl, notStale_run (Or.inl rfl) storeCache_keyValue oldStore setGetRun ?_
    (Meets.of_meets timely_sound (by rfl)) _ rfl⟩
  simp [setGetRun, Act.Plain]

/-- A set of the key 4 fills the bucket.  A get of the key 3 reads the store; a set of this key
completes, but finds the bucket full; and the get inserts what it has read.  Another get starts
then. -/
def staleRun : List (Act Bool ℕ ℕ) :=
  .start true (.set 4 0) :: List.replicate 10 (.go true true) ++
    .start false (.get 3) :: List.replicate 4 (.go false true) ++
      .start true (.set 3 1) :: List.replicate 9 (.go true true) ++
        List.replicate 8 (.go false true) ++
          .start true (.get 3) :: List.replicate 3 (.go true true)

/-- **A stale hit**: the last get returns the value that the completed set replaced. -/
theorem stale_hit : ∃ x : State 0 Bool ℕ ℕ (ℕ → Option ℕ) × Watch Bool ℕ ℕ,
    run (stepW storeCache) (State.init oldStore, Watch.init oldStore) staleRun = some x ∧
      (∀ a ∈ staleRun, a.Plain) ∧ ¬ NotStale x := by
  obtain ⟨x, hrun, hjob, hneed, hvalues⟩ :
      ∃ x : State 0 Bool ℕ ℕ (ℕ → Option ℕ) × Watch Bool ℕ ℕ,
        run (stepW storeCache) (State.init oldStore, Watch.init oldStore) staleRun = some x ∧
          (∃ rest, x.1.jobs true = some ⟨.get 3, ⟨3, some 0⟩, .out :: rest⟩) ∧
            x.2.need true = 1 ∧ x.2.values 3 = [some 0, some 1] := ⟨_, rfl, ⟨_, rfl⟩, rfl, rfl⟩
  refine ⟨x, hrun, by simp [staleRun, Act.Plain], fun h => ?_⟩
  obtain ⟨rest, hj⟩ := hjob
  obtain ⟨-, value, hvalue, hsince⟩ := h true 3 _ rest hj
  obtain rfl : 0 = value := Option.some.inj hvalue
  unfold Watch.Since at hsince
  rw [hneed, hvalues] at hsince
  exact absurd hsince (by decide)

end Flows
end Cache
end Floem
