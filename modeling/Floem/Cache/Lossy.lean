import Floem.Lib.Run
import Floem.Cache.Items

/-!
# The cache is a lossy map

One caller at a time, which may hold the locks of buckets whose items were returned to it.

* `State`, `Op`, `step` — a table with its locks, and calls of the five functions.
* `latest` — the specification: what the latest insertion of a key left, if nothing deleted
  or evicted it since.
* `Inserted` — what `cache_put` and `cache_put_or_get` do to the map.
* `lossyMap` — **the main theorem**: both versions implement it, and return the same.
-/

namespace Floem
namespace Cache
namespace Lossy

open Lib

variable {K V : Type*} {N : ℕ} [DecidableEq K]

/-! ## Calls -/

/-- What happens to the items of a key. -/
inductive Event (K V : Type*)
  | insert (key : K) (value : V)
  | evict (key : K)
  | delete (key : K)

structure State (N : ℕ) (K V : Type*) where
  table : Table N K V
  locked : ℕ → Bool
  /-- The next address `malloc` returns. -/
  fresh : ℕ
  /-- The items that were returned and not released. -/
  held : List (Item K V)
  /-- What was returned, the newest first. -/
  results : List (Option (Item K V))
  /-- What happened, the newest first. -/
  events : List (Event K V)

def State.init : State N K V where
  table _ := Bucket.empty
  locked _ := false
  fresh := 0
  held := []
  results := []
  events := []

inductive Op (K V : Type*)
  | get (key : K)
  /-- `cache_put` of a new item. -/
  | put (key : K) (value : V) (replace : Bool)
  /-- `cache_put_or_get` of a new item. -/
  | putOrGet (key : K) (value : V) (replace : Bool)
  | delete (key : K)
  /-- `cache_release` of the held item at an address. -/
  | release (addr : ℕ)

variable (ver : Version K V) (hash : K → UInt32) (nbuckets : ℕ)

/-- A call that takes the lock of bucket `idx`: `none` while it is held. -/
def State.call (s : State N K V) (idx : ℕ) (o : Option (Outcome (Table N K V) K V))
    (events : Outcome (Table N K V) K V → List (Event K V)) : Option (State N K V) :=
  if s.locked idx then none
  else
    o.map fun o =>
      { s with
        table := o.state
        locked := Function.update s.locked idx (!o.unlock)
        held := o.ret.toList ++ s.held
        results := o.ret :: s.results
        events := events o ++ s.events }

/-- The bucket has an item of the key. -/
def holds (b : Bucket N K V) (key : K) : Bool :=
  (List.finRange (N + 1)).any fun i => (b.items i).any fun it => it.key = key

/-- A place of the bucket is empty. -/
def hasRoom (b : Bucket N K V) : Bool := (List.finRange (N + 1)).any fun i => (b.items i).isEmpty

/-- An item that is returned with the second bit set was evicted. -/
def evicts : Option (Item K V) → List (Event K V)
  | some it => if it.evicted &&& 2 ≠ 0 then [.evict it.key] else []
  | none => []

/-- `cache_put` inserts the new item, but into a bucket that is full of other keys only with
`replace`. -/
def putEvents (b : Bucket N K V) (nit : Item K V) (replace : Bool)
    (o : Outcome (Table N K V) K V) : List (Event K V) :=
  (if holds b nit.key || hasRoom b || replace then [.insert nit.key nit.value] else []) ++
    evicts o.ret

/-- `cache_put_or_get` inserts the new item if there is none of its key, and into a full bucket
only with `replace`. -/
def putOrGetEvents (b : Bucket N K V) (nit : Item K V) (replace : Bool)
    (o : Outcome (Table N K V) K V) : List (Event K V) :=
  (if !holds b nit.key && (hasRoom b || replace) then [.insert nit.key nit.value] else []) ++
    evicts o.ret

/-- A new item for a key and a value. -/
def State.alloc (s : State N K V) (key : K) (value : V) : Item K V :=
  ⟨s.fresh, none, hash key, key, value, 0⟩

def step (s : State N K V) : Op K V → Option (State N K V)
  | .get key =>
      s.call (bucketOf nbuckets (hash key)) (some (s.table.get ver nbuckets key (hash key)))
        fun _ => []
  | .put key value replace =>
      let nit := s.alloc hash key value
      { s with fresh := s.fresh + 1 }.call (bucketOf nbuckets nit.hv)
        (s.table.put ver nbuckets nit replace)
        (putEvents (s.table (bucketOf nbuckets nit.hv)) nit replace)
  | .putOrGet key value replace =>
      let nit := s.alloc hash key value
      { s with fresh := s.fresh + 1 }.call (bucketOf nbuckets nit.hv)
        (s.table.putOrGet ver nbuckets nit replace)
        (putOrGetEvents (s.table (bucketOf nbuckets nit.hv)) nit replace)
  | .delete key =>
      s.call (bucketOf nbuckets (hash key)) (s.table.delete ver nbuckets key (hash key))
        fun _ => [.delete key]
  | .release addr =>
      match s.held.find? fun it => it.addr = addr with
      | some it =>
          -- `lock_unlock(&it->bucket->lock)`
          it.bucket.bind fun idx =>
            if s.locked idx then
              some
                { s with
                  locked := Function.update s.locked idx false
                  held := s.held.eraseP fun it => it.addr = addr }
            else none
      | none => none

/-! ## The map -/

/-- What the latest insertion of a key left, where the newest event comes first. -/
def latest : List (Event K V) → K → Option V
  | [], _ => none
  | .insert k v :: es, key => if k = key then some v else latest es key
  | .evict k :: es, key => if k = key then none else latest es key
  | .delete k :: es, key => if k = key then none else latest es key

/-- The states that calls lead to. -/
def Reachable (s : State N K V) : Prop :=
  ∃ ops, run (step ver hash nbuckets) State.init ops = some s

/-- The locks that a call needs are free, and those it gives back are held. -/
def Free (s : State N K V) : Op K V → Prop
  | .get key => s.locked (bucketOf nbuckets (hash key)) = false
  | .put key _ _ => s.locked (bucketOf nbuckets (hash key)) = false
  | .putOrGet key _ _ => s.locked (bucketOf nbuckets (hash key)) = false
  | .delete key => s.locked (bucketOf nbuckets (hash key)) = false
  | .release addr => ∃ it ∈ s.held, it.addr = addr

/-- What a call does to the map that may insert a value: only an insertion of another key into a
full bucket throws something out. -/
structure Inserted (s s' : State N K V) (key : K) (value : V) (replace : Bool)
    (inserts : Prop) : Prop where
  self : inserts → latest s'.events key = some value
  kept : ¬ inserts → ∀ k, latest s'.events k = latest s.events k
  others : ∀ k, k ≠ key → latest s'.events k = latest s.events k ∨
    latest s'.events k = none ∧ latest s.events key = none ∧ replace = true ∧
      s.table.FullAt hash nbuckets key ∧
      bucketOf nbuckets (hash k) = bucketOf nbuckets (hash key)

/-- **A lossy map**, with `BUCKET_NITEMS = N + 1`. -/
structure LossyMap (N : ℕ) : Prop where
  /-- Every call ends, where it gets its lock. -/
  defined : ∀ s : State N K V, Reachable ver hash nbuckets s → ∀ op, Free hash nbuckets s op →
    ∃ s', step ver hash nbuckets s op = some s'
  /-- A hit returns the value of the latest insertion, and there is a hit if there is one. -/
  hit : ∀ s : State N K V, Reachable ver hash nbuckets s → ∀ key s',
    step ver hash nbuckets s (.get key) = some s' → ∃ ret, s'.results = ret :: s.results ∧
      ret.map Item.value = latest s.events key ∧ ∀ it, ret = some it → it.key = key
  /-- `cache_put` inserts, but into a bucket that is full of other keys only with `replace`. -/
  put : ∀ s : State N K V, Reachable ver hash nbuckets s → ∀ key value replace s',
    step ver hash nbuckets s (.put key value replace) = some s' →
      Inserted hash nbuckets s s' key value replace
        (latest s.events key ≠ none ∨ ¬ s.table.FullAt hash nbuckets key ∨ replace = true)
  /-- `cache_put_or_get` inserts an absent key in the same way, and returns a present one. -/
  putOrGet : ∀ s : State N K V, Reachable ver hash nbuckets s → ∀ key value replace s',
    step ver hash nbuckets s (.putOrGet key value replace) = some s' →
      Inserted hash nbuckets s s' key value replace
        (latest s.events key = none ∧ (¬ s.table.FullAt hash nbuckets key ∨ replace = true)) ∧
      ∀ v, latest s.events key = some v → ∃ it, s'.results = some it :: s.results ∧
        it.key = key ∧ it.value = v
  /-- A deleted key is missed until it is inserted again. -/
  deleted : ∀ s : State N K V, Reachable ver hash nbuckets s → ∀ key es es',
    s.events = es' ++ .delete key :: es → (∀ value, .insert key value ∉ es') → ∀ s',
      step ver hash nbuckets s (.get key) = some s' → s'.results = none :: s.results
  /-- No two items of the table have one key. -/
  distinct : ∀ s : State N K V, Reachable ver hash nbuckets s → ∀ idx i it idx' i' it',
    it ∈ (s.table idx).items i → it' ∈ (s.table idx').items i' → it.key = it'.key →
      idx = idx' ∧ i = i' ∧ it = it'
  /-- An item is in the bucket of its hash, which the bucket knows. -/
  place : ∀ s : State N K V, Reachable ver hash nbuckets s → ∀ idx i it,
    it ∈ (s.table idx).items i → it.hv = hash it.key ∧ it.hv.toNat % nbuckets = idx ∧
      (s.table idx).hashes i = it.hv
  /-- The `next` of an item is `NULL`. -/
  next : ∀ s : State N K V, Reachable ver hash nbuckets s → ∀ idx i,
    ((s.table idx).items i).length ≤ 1

/-! ## Events and items -/

variable {ver hash nbuckets}

/-- The events tell which items there are. -/
def Agrees (es : List (Event K V)) (has : Item K V → Prop) : Prop :=
  ∀ key value, latest es key = some value ↔ ∃ it, has it ∧ it.key = key ∧ it.value = value

theorem Agrees.insert {es : List (Event K V)} {has has' : Item K V → Prop}
    (h : Agrees es has) (nit : Item K V) (hhas : ∀ x, has' x ↔ has x ∧ x.key ≠ nit.key ∨ x = nit) :
    Agrees (.insert nit.key nit.value :: es) has' := by
  intro key value
  unfold latest
  split_ifs with hkey
  · constructor
    · intro hvalue
      exact ⟨nit, (hhas nit).2 (Or.inr rfl), hkey, Option.some.inj hvalue⟩
    · rintro ⟨it, hit, hitkey, rfl⟩
      rcases (hhas it).1 hit with ⟨-, hne⟩ | rfl
      · exact absurd (hitkey.trans hkey.symm) hne
      · rfl
  · rw [h key value]
    refine exists_congr fun it => and_congr_left fun hit => ?_
    rw [hhas]
    constructor
    · exact fun hold => Or.inl ⟨hold, fun heq => hkey (heq.symm.trans hit.1)⟩
    · rintro (⟨hold, -⟩ | rfl)
      · exact hold
      · exact absurd hit.1 hkey

theorem Agrees.remove {es : List (Event K V)} {has has' : Item K V → Prop} {k : K}
    {e : Event K V} (he : e = .evict k ∨ e = .delete k) (h : Agrees es has)
    (hhas : ∀ x, has' x ↔ has x ∧ x.key ≠ k) : Agrees (e :: es) has' := by
  intro key value
  have hlatest : latest (e :: es) key = if k = key then none else latest es key := by
    rcases he with rfl | rfl <;> rfl
  rw [hlatest]
  split_ifs with hkey
  · refine iff_of_false (by simp) ?_
    rintro ⟨it, hit, hitkey, -⟩
    exact ((hhas it).1 hit).2 (hitkey.trans hkey.symm)
  · rw [h key value]
    refine exists_congr fun it => and_congr_left fun hit => ?_
    rw [hhas]
    exact ⟨fun hold => ⟨hold, fun heq => hkey (heq.symm.trans hit.1)⟩, fun hold => hold.1⟩

theorem evicted_and {e : UInt8} (h : e = 0 ∨ e = 1) : e &&& 2 = 0 := by
  rcases h with rfl | rfl <;> decide

theorem evicted_or_and {e : UInt8} (h : e = 0 ∨ e = 1) : (e ||| 2) &&& 2 ≠ 0 := by
  rcases h with rfl | rfl <;> decide

omit [DecidableEq K] in
theorem hasRoom_iff {b : Bucket N K V} : hasRoom b = true ↔ ¬ b.Full := by
  simp only [hasRoom, List.any_eq_true, List.mem_finRange, true_and, List.isEmpty_iff,
    Bucket.Full, not_forall, not_not]

theorem holds_iff {T : Table N K V} (hT : T.Ok hash nbuckets) {key : K} :
    holds (T (bucketOf nbuckets (hash key))) key = true ↔ ∃ it, T.Has it ∧ it.key = key := by
  simp only [holds, List.any_eq_true, List.mem_finRange, true_and, decide_eq_true_eq]
  constructor
  · rintro ⟨i, it, hit, hkey⟩
    exact ⟨it, ⟨_, i, hit⟩, hkey⟩
  · rintro ⟨it, hit, rfl⟩
    obtain ⟨i, hi⟩ := hT.has_iff.1 hit
    exact ⟨i, it, hi, rfl⟩

omit [DecidableEq K] in
theorem evicts_of_and {ret : Option (Item K V)}
    (h : ∀ it, ret = some it → it.evicted = 0 ∨ it.evicted = 1) : evicts ret = [] := by
  cases ret with
  | none => rfl
  | some it => simp [evicts, evicted_and (h it rfl)]

section

variable {nit : Item K V} {e : UInt8} {T : Table N K V} {o : Outcome (Table N K V) K V}
  {es : List (Event K V)} {replace : Bool}

/-- The events of an insertion of an absent key tell how it ended. -/
theorem agrees_inserts (hT : T.Ok hash nbuckets) {direct : Option (Item K V)}
    (hdirect : ∀ it, direct = some it → it.evicted = 0 ∨ it.evicted = 1)
    (habsent : ∀ it, T.Has it → it.key ≠ nit.key) (h : Agrees es T.Has)
    (hins : Inserts T.Has o.state.Has (T.FullAt hash nbuckets nit.key)
      (nit.stored (bucketOf nbuckets nit.hv) e) replace direct o.ret o.unlock) :
    Agrees ((if hasRoom (T (bucketOf nbuckets (hash nit.key))) || replace then
      [.insert nit.key nit.value] else []) ++ evicts o.ret ++ es) o.state.Has := by
  cases hins with
  | free hroom hhas hret hunlock =>
      have hempty : hasRoom (T (bucketOf nbuckets (hash nit.key))) = true := hasRoom_iff.2 hroom
      rw [hret, evicts_of_and hdirect, hempty]
      refine h.insert (nit.stored (bucketOf nbuckets nit.hv) e) fun x => ?_
      rw [hhas]
      exact or_congr_left ⟨fun hx => ⟨hx, habsent x hx⟩, fun hx => hx.1⟩
  | evict old hold hbucket hfull hreplace hhas hret hunlock =>
      rw [hret, hreplace, Bool.or_true, if_pos rfl]
      simp only [evicts, evicted_or_and (hT.evicted hold), ne_eq, not_false_eq_true, if_true]
      -- the old item goes, and the new one comes
      have hgone : Agrees (.evict old.key :: es) fun x => T.Has x ∧ x.key ≠ old.key :=
        h.remove (Or.inl rfl) fun x => Iff.rfl
      refine hgone.insert (nit.stored (bucketOf nbuckets nit.hv) e) fun x => ?_
      rw [hhas]
      exact or_congr_left ⟨fun hx => ⟨hx, habsent x hx.1⟩, fun hx => hx.1⟩
  | fail hfull hreplace hhas hret hunlock =>
      have hempty : hasRoom (T (bucketOf nbuckets (hash nit.key))) = false := by
        rw [← Bool.not_eq_true, hasRoom_iff, not_not]
        exact hfull
      rw [hret, hempty, hreplace]
      intro key value
      refine (h key value).trans (exists_congr fun it => and_congr_left fun _ => (hhas it).symm)

theorem agrees_puts (hT : T.Ok hash nbuckets) (hhv : nit.hv = hash nit.key)
    (h : Agrees es T.Has) (hput : Puts T.Has o.state.Has (T.FullAt hash nbuckets nit.key)
      (nit.stored (bucketOf nbuckets nit.hv) 1) replace o.ret o.unlock o.freed) :
    Agrees (putEvents (T (bucketOf nbuckets nit.hv)) nit replace o ++ es) o.state.Has := by
  have hone : ∀ it, some (nit.stored (bucketOf nbuckets nit.hv) 1) = some it →
      it.evicted = 0 ∨ it.evicted = 1 := by
    intro it hit
    obtain rfl := Option.some.inj hit
    exact Or.inr rfl
  cases hput with
  | update old hold hkey hfreed hret hunlock hhas =>
      have hholds : holds (T (bucketOf nbuckets (hash nit.key))) nit.key = true :=
        (holds_iff hT).2 ⟨old, hold, hkey⟩
      rw [putEvents, hret, evicts_of_and hone, hhv, hholds]
      exact h.insert (nit.stored (bucketOf nbuckets nit.hv) 1) hhas
  | insert habsent hfreed hins =>
      have hholds : holds (T (bucketOf nbuckets (hash nit.key))) nit.key = false := by
        rw [← Bool.not_eq_true, holds_iff hT]
        rintro ⟨it, hit, hkey⟩
        exact habsent it hit hkey
      rw [putEvents, hhv, hholds, Bool.false_or]
      exact agrees_inserts hT hone habsent h hins

theorem agrees_putsOrGets (hT : T.Ok hash nbuckets) (hhv : nit.hv = hash nit.key)
    (h : Agrees es T.Has) (hput : PutsOrGets T.Has o.state.Has (T.FullAt hash nbuckets nit.key)
      (nit.stored (bucketOf nbuckets nit.hv) 0) replace o.ret o.unlock o.freed) :
    Agrees (putOrGetEvents (T (bucketOf nbuckets nit.hv)) nit replace o ++ es) o.state.Has := by
  cases hput with
  | exist old hold hkey hbucket hfreed hret hunlock hhas =>
      have hholds : holds (T (bucketOf nbuckets (hash nit.key))) nit.key = true :=
        (holds_iff hT).2 ⟨old, hold, hkey⟩
      have hold' : ∀ it, some old = some it → it.evicted = 0 ∨ it.evicted = 1 := by
        intro it hit
        obtain rfl := Option.some.inj hit
        exact hT.evicted hold
      rw [putOrGetEvents, hret, evicts_of_and hold', hhv, hholds]
      intro key value
      refine (h key value).trans (exists_congr fun it => and_congr_left fun _ => (hhas it).symm)
  | insert habsent hfreed hins =>
      have hholds : holds (T (bucketOf nbuckets (hash nit.key))) nit.key = false := by
        rw [← Bool.not_eq_true, holds_iff hT]
        rintro ⟨it, hit, hkey⟩
        exact habsent it hit hkey
      rw [putOrGetEvents, hhv, hholds, Bool.not_false, Bool.true_and]
      exact agrees_inserts hT (fun it hit => by cases hit) habsent h hins

end

/-! ## The invariant -/

structure Inv (hash : K → UInt32) (nbuckets : ℕ) (s : State N K V) : Prop where
  ok : s.table.Ok hash nbuckets
  addr : ∀ it, s.table.Has it → it.addr < s.fresh
  agrees : Agrees s.events s.table.Has
  /-- The lock of a returned item is held. -/
  held : ∀ it ∈ s.held, ∃ idx, it.bucket = some idx ∧ s.locked idx = true
  nodup : (s.held.map Item.bucket).Nodup

variable {s s' : State N K V}

theorem inv_init (hash : K → UInt32) (nbuckets : ℕ) :
    Inv hash nbuckets (State.init : State N K V) where
  ok := Table.ok_empty hash nbuckets
  addr it hit := absurd hit (Table.not_has_empty it)
  agrees key value := by
    refine iff_of_false (by simp [State.init, latest]) ?_
    rintro ⟨it, hit, -⟩
    exact Table.not_has_empty it hit
  held it hit := absurd hit List.not_mem_nil
  nodup := List.nodup_nil

theorem Inv.alloc (hI : Inv hash nbuckets s) :
    Inv hash nbuckets { s with fresh := s.fresh + 1 } where
  ok := hI.ok
  addr it hit := Nat.lt_succ_of_lt (hI.addr it hit)
  agrees := hI.agrees
  held := hI.held
  nodup := hI.nodup

omit [DecidableEq K] in
theorem call_eq_some {idx : ℕ} {o : Option (Outcome (Table N K V) K V)}
    {events : Outcome (Table N K V) K V → List (Event K V)}
    (h : s.call idx o events = some s') : s.locked idx = false ∧ ∃ o', o = some o' ∧
      s' = { s with
        table := o'.state
        locked := Function.update s.locked idx (!o'.unlock)
        held := o'.ret.toList ++ s.held
        results := o'.ret :: s.results
        events := events o' ++ s.events } := by
  unfold State.call at h
  split_ifs at h with hlock
  obtain ⟨o', ho, rfl⟩ := Option.map_eq_some_iff.1 h
  exact ⟨by simpa using hlock, o', ho, rfl⟩

/-- What a call has to keep. -/
theorem inv_call {idx : ℕ} {o : Outcome (Table N K V) K V} {es : List (Event K V)}
    (hI : Inv hash nbuckets s) (hlock : s.locked idx = false) (hok : o.state.Ok hash nbuckets)
    (haddr : ∀ it, o.state.Has it → it.addr < s.fresh)
    (hagrees : Agrees es o.state.Has) (hunlock : o.unlock = o.ret.isNone)
    (hbucket : ∀ it, o.ret = some it → it.bucket = some idx) :
    Inv hash nbuckets
      { s with
        table := o.state
        locked := Function.update s.locked idx (!o.unlock)
        held := o.ret.toList ++ s.held
        results := o.ret :: s.results
        events := es } := by
  -- no held item is in the bucket
  have hne : ∀ it ∈ s.held, ∃ j, it.bucket = some j ∧ j ≠ idx ∧ s.locked j = true := by
    intro it hit
    obtain ⟨j, hj, hlocked⟩ := hI.held it hit
    refine ⟨j, hj, ?_, hlocked⟩
    rintro rfl
    rw [hlock] at hlocked
    cases hlocked
  refine ⟨hok, haddr, hagrees, ?_, ?_⟩
  · intro it hit
    rcases List.mem_append.1 hit with hnew | hold
    · have hret := Option.mem_toList.1 hnew
      refine ⟨idx, hbucket it hret, ?_⟩
      simp only [Function.update_self]
      rw [hunlock, Option.mem_def.1 hret]
      rfl
    · obtain ⟨j, hj, hji, hlocked⟩ := hne it hold
      exact ⟨j, hj, (Function.update_of_ne hji ..).trans hlocked⟩
  · cases hret : o.ret with
    | none => exact hI.nodup
    | some it =>
        refine List.nodup_cons.2 ⟨?_, hI.nodup⟩
        rw [hbucket it hret]
        intro hmem
        obtain ⟨jt, hjt, heq⟩ := List.mem_map.1 hmem
        obtain ⟨j, hj, hji, -⟩ := hne jt hjt
        rw [hj] at heq
        exact hji (Option.some.inj heq)

theorem inv_release (hI : Inv hash nbuckets s) {addr : ℕ}
    (hstep : step ver hash nbuckets s (.release addr) = some s') : Inv hash nbuckets s' := by
  simp only [step] at hstep
  split at hstep
  · next it hfind =>
      obtain ⟨idx, hidx, hstep⟩ := Option.bind_eq_some_iff.1 hstep
      split_ifs at hstep with hlock
      obtain rfl := Option.some.inj hstep
      have hperm : s.held.Perm (it :: s.held.eraseP fun it => it.addr = addr) := by
        obtain ⟨hit, as, bs, heq, hnot⟩ := List.find?_eq_some_iff_append.1 hfind
        have herase : s.held.eraseP (fun it => it.addr = addr) = as ++ bs := by
          rw [heq, List.eraseP_append_right _ fun b hb => by simpa using hnot b hb]
          simp [of_decide_eq_true hit]
        rw [herase, heq]
        exact List.perm_middle
      have hnodup : ((it :: s.held.eraseP fun it => it.addr = addr).map Item.bucket).Nodup :=
        (hperm.map Item.bucket).nodup_iff.1 hI.nodup
      rw [List.map_cons, List.nodup_cons] at hnodup
      refine ⟨hI.ok, hI.addr, hI.agrees, fun jt hjt => ?_, hnodup.2⟩
      obtain ⟨j, hj, hlocked⟩ := hI.held jt (hperm.mem_iff.2 (List.mem_cons_of_mem _ hjt))
      refine ⟨j, hj, ?_⟩
      have hji : j ≠ idx := by
        rintro rfl
        refine hnodup.1 (List.mem_map.2 ⟨jt, hjt, ?_⟩)
        rw [hj, hidx]
      exact (Function.update_of_ne hji ..).trans hlocked
  · cases hstep

theorem inv_step (hver : ver.Plain) (s : State N K V) (op : Op K V) (s' : State N K V)
    (hI : Inv hash nbuckets s) (hstep : step ver hash nbuckets s op = some s') :
    Inv hash nbuckets s' := by
  have hfresh : ∀ it, s.table.Has it → it.addr ≠ s.fresh := fun it hit =>
    Nat.ne_of_lt (hI.addr it hit)
  have haddr : ∀ {key : K} {value : V} {x : Item K V} {e : UInt8} {idx : ℕ},
      s.table.Has x ∨ x = (s.alloc hash key value).stored idx e → x.addr < s.fresh + 1 := by
    rintro key value x e idx (hx | rfl)
    · exact Nat.lt_succ_of_lt (hI.addr x hx)
    · exact Nat.lt_succ_self s.fresh
  cases op with
  | get key =>
      obtain ⟨hlock, o, ho, rfl⟩ := call_eq_some hstep
      obtain ⟨hstate, -, hunlock, hret⟩ := hI.ok.get_spec hver key
      obtain rfl := Option.some.inj ho
      refine inv_call hI hlock ?_ ?_ ?_ hunlock fun it hit => ?_
      · rw [hstate]
        exact hI.ok
      · rw [hstate]
        exact hI.addr
      · rw [hstate]
        exact hI.agrees
      · obtain ⟨hhas, hkey⟩ := (hret it).1 hit
        rw [hI.ok.bucket hhas, hkey]
  | put key value replace =>
      obtain ⟨hlock, o, ho, rfl⟩ := call_eq_some hstep
      obtain ⟨o', ho', hok, hput⟩ := hI.ok.put_spec hver (s.alloc hash key value) rfl hfresh
        replace
      obtain rfl := Option.some.inj (ho.symm.trans ho')
      obtain ⟨hunlock, hbucket⟩ := hput.lock
      exact inv_call hI.alloc hlock hok (fun it hit => haddr (hput.old_or_new hit))
        (agrees_puts hI.ok rfl hI.agrees hput) hunlock hbucket
  | putOrGet key value replace =>
      obtain ⟨hlock, o, ho, rfl⟩ := call_eq_some hstep
      obtain ⟨o', ho', hok, hput⟩ := hI.ok.putOrGet_spec hver (s.alloc hash key value) rfl
        hfresh replace
      obtain rfl := Option.some.inj (ho.symm.trans ho')
      obtain ⟨hunlock, hbucket⟩ := hput.lock
      exact inv_call hI.alloc hlock hok (fun it hit => haddr (hput.old_or_new hit))
        (agrees_putsOrGets hI.ok rfl hI.agrees hput) hunlock hbucket
  | delete key =>
      obtain ⟨hlock, o, ho, rfl⟩ := call_eq_some hstep
      obtain ⟨o', ho', hok, hret, hunlock, -, -, hhas⟩ := hI.ok.delete_spec hver key
      obtain rfl := Option.some.inj (ho.symm.trans ho')
      refine inv_call hI hlock hok (fun it hit => hI.addr it ((hhas it).1 hit).1)
        (hI.agrees.remove (Or.inr rfl) hhas) ?_ ?_
      · rw [hunlock, hret]
        rfl
      · intro it hit
        rw [hret] at hit
        cases hit
  | release addr => exact inv_release hI hstep

theorem inv_run (hver : ver.Plain) (h : Reachable ver hash nbuckets s) :
    Inv hash nbuckets s := by
  obtain ⟨ops, hrun⟩ := h
  exact run_invariant (inv_step hver) (inv_init hash nbuckets) hrun

/-! ## The cache is a lossy map -/

/-- A key that was deleted and not inserted since has no value. -/
theorem latest_of_deleted {key : K} {es es' : List (Event K V)}
    (h : ∀ value, Event.insert key value ∉ es') :
    latest (es' ++ .delete key :: es) key = none := by
  induction es' with
  | nil => exact if_pos rfl
  | cons e es' ih =>
      have ih := ih fun value hmem => h value (List.mem_cons_of_mem _ hmem)
      cases e with
      | insert k v =>
          have hne : k ≠ key := by
            rintro rfl
            exact h v List.mem_cons_self
          rw [List.cons_append, latest, if_neg hne, ih]
      | evict k =>
          rw [List.cons_append, latest, ih]
          exact ite_self none
      | delete k =>
          rw [List.cons_append, latest, ih]
          exact ite_self none

/-- What a get returns. -/
theorem Inv.get_result (hI : Inv hash nbuckets s) (hver : ver.Plain) {key : K}
    (hstep : step ver hash nbuckets s (.get key) = some s') : ∃ ret,
      s'.results = ret :: s.results ∧ ret.map Item.value = latest s.events key ∧
        ∀ it, ret = some it → it.key = key := by
  obtain ⟨-, o, ho, rfl⟩ := call_eq_some hstep
  obtain rfl := Option.some.inj ho
  obtain ⟨-, -, -, hret⟩ := hI.ok.get_spec hver key
  refine ⟨_, rfl, ?_, fun it hit => ((hret it).1 hit).2⟩
  ext value
  rw [hI.agrees, Option.map_eq_some_iff]
  refine exists_congr fun it => ?_
  rw [hret, and_assoc]

theorem Inv.defined (hI : Inv hash nbuckets s) (hver : ver.Plain) {op : Op K V}
    (hfree : Free hash nbuckets s op) : ∃ s', step ver hash nbuckets s op = some s' := by
  have hfresh : ∀ it, s.table.Has it → it.addr ≠ s.fresh := fun it hit =>
    Nat.ne_of_lt (hI.addr it hit)
  have hcall : ∀ {s : State N K V} {idx : ℕ} {o : Outcome (Table N K V) K V}
      {events : Outcome (Table N K V) K V → List (Event K V)}, s.locked idx = false →
        ∃ s', s.call idx (some o) events = some s' := by
    intro s idx o events hlock
    exact ⟨_, if_neg (by simp [hlock])⟩
  cases op with
  | get key => exact hcall hfree
  | put key value replace =>
      obtain ⟨o, ho, -⟩ := hI.ok.put_spec hver (s.alloc hash key value) rfl hfresh replace
      simp only [step, ho]
      exact hcall hfree
  | putOrGet key value replace =>
      obtain ⟨o, ho, -⟩ := hI.ok.putOrGet_spec hver (s.alloc hash key value) rfl hfresh replace
      simp only [step, ho]
      exact hcall hfree
  | delete key =>
      obtain ⟨o, ho, -⟩ := hI.ok.delete_spec hver key
      simp only [step, ho]
      exact hcall hfree
  | release addr =>
      obtain ⟨it, hit, haddr⟩ := hfree
      have hsome : (s.held.find? fun it => it.addr = addr).isSome := by
        rw [List.find?_isSome]
        exact ⟨it, hit, by simp [haddr]⟩
      obtain ⟨jt, hjt⟩ := Option.isSome_iff_exists.1 hsome
      obtain ⟨idx, hidx, hlock⟩ := hI.held jt (List.mem_of_find?_eq_some hjt)
      simp only [step, hjt, hidx, Option.bind_some, hlock, if_true]
      exact ⟨_, rfl⟩

theorem Agrees.latest_congr {es es' : List (Event K V)} {has has' : Item K V → Prop}
    (h : Agrees es has) (h' : Agrees es' has') {k : K}
    (hhas : ∀ x, x.key = k → (has' x ↔ has x)) : latest es' k = latest es k := by
  ext value
  rw [h k value, h' k value]
  exact exists_congr fun x => and_congr_left fun hx => hhas x hx.1

theorem Agrees.eq_none_iff {es : List (Event K V)} {has : Item K V → Prop} (h : Agrees es has)
    {k : K} : latest es k = none ↔ ∀ x, has x → x.key ≠ k := by
  constructor
  · intro hnone x hx hkey
    have hsome := (h k x.value).2 ⟨x, hx, hkey, rfl⟩
    rw [hnone] at hsome
    cases hsome
  · intro hno
    cases hlatest : latest es k with
    | none => rfl
    | some value =>
        obtain ⟨x, hx, hkey, -⟩ := (h k value).1 hlatest
        exact absurd hkey (hno x hx)

/-- An insertion of an absent key. -/
theorem inserted_of_inserts (hT : s.table.Ok hash nbuckets) (h : Agrees s.events s.table.Has)
    {has : Item K V → Prop} (h' : Agrees s'.events has) {nit : Item K V} {replace : Bool}
    {direct ret : Option (Item K V)} {unlock : Bool} (hbucket : nit.bucket = some
      (bucketOf nbuckets (hash nit.key))) (habsent : ∀ it, s.table.Has it → it.key ≠ nit.key)
    (hins : Inserts s.table.Has has (s.table.FullAt hash nbuckets nit.key) nit replace direct ret
      unlock) : Inserted hash nbuckets s s' nit.key nit.value replace
        (¬ s.table.FullAt hash nbuckets nit.key ∨ replace = true) := by
  cases hins with
  | free hroom hhas =>
      refine ⟨fun _ => (h' _ _).2 ⟨nit, (hhas nit).2 (Or.inr rfl), rfl, rfl⟩,
        fun hnot => absurd (Or.inl hroom) hnot, fun k hk => Or.inl (h.latest_congr h' ?_)⟩
      rintro x rfl
      rw [hhas]
      exact or_iff_left fun hx => hk (by rw [hx])
  | evict old hold hold' hfull hreplace hhas =>
      refine ⟨fun _ => (h' _ _).2 ⟨nit, (hhas nit).2 (Or.inr rfl), rfl, rfl⟩,
        fun hnot => absurd (Or.inr hreplace) hnot, fun k hk => ?_⟩
      by_cases hkold : k = old.key
      · refine Or.inr ⟨h'.eq_none_iff.2 fun x hx hxk => ?_, h.eq_none_iff.2 habsent, hreplace, hfull,
          ?_⟩
        · rcases (hhas x).1 hx with ⟨-, hne⟩ | rfl
          · exact hne (hxk.trans hkold)
          · exact hk hxk.symm
        · rw [hT.bucket hold, hbucket] at hold'
          rw [hkold]
          exact Option.some.inj hold'
      · refine Or.inl (h.latest_congr h' ?_)
        rintro x rfl
        rw [hhas, or_iff_left fun hx => hk (by rw [hx])]
        exact and_iff_left hkold
  | fail hfull hreplace hhas =>
      have hsame : ∀ k, latest s'.events k = latest s.events k := fun k =>
        h.latest_congr h' fun x _ => hhas x
      refine ⟨fun hor => ?_, fun _ => hsame, fun k _ => Or.inl (hsame k)⟩
      rcases hor with hroom | hyes
      · exact absurd hfull hroom
      · rw [hreplace] at hyes
        cases hyes

/-- What `cache_put` does to the map. -/
theorem Inv.put_result (hI : Inv hash nbuckets s) (hver : ver.Plain) {key : K} {value : V}
    {replace : Bool} (hstep : step ver hash nbuckets s (.put key value replace) = some s') :
    Inserted hash nbuckets s s' key value replace
      (latest s.events key ≠ none ∨ ¬ s.table.FullAt hash nbuckets key ∨ replace = true) := by
  have hI' := inv_step hver _ _ _ hI hstep
  obtain ⟨-, o, ho, rfl⟩ := call_eq_some hstep
  obtain ⟨o', ho', hok, hput⟩ := hI.ok.put_spec hver (s.alloc hash key value) rfl
    (fun it hit => Nat.ne_of_lt (hI.addr it hit)) replace
  obtain rfl := Option.some.inj (ho.symm.trans ho')
  cases hput with
  | update old hold hkey hfreed hret hunlock hhas =>
      have hpresent : latest s.events key ≠ none := fun hnone =>
        hI.agrees.eq_none_iff.1 hnone old hold hkey
      refine ⟨fun _ => (hI'.agrees _ _).2 ⟨_, (hhas _).2 (Or.inr rfl), rfl, rfl⟩,
        fun hnot => absurd (Or.inl hpresent) hnot, fun k hk => Or.inl (hI.agrees.latest_congr
          hI'.agrees ?_)⟩
      rintro x rfl
      refine (hhas x).trans ⟨?_, fun hx => Or.inl ⟨hx, hk⟩⟩
      rintro (⟨hx, -⟩ | rfl)
      · exact hx
      · exact absurd rfl hk
  | insert habsent hfreed hins =>
      have hnone : latest s.events key = none := hI.agrees.eq_none_iff.2 habsent
      rw [propext (or_iff_right fun hpresent => hpresent hnone)]
      exact inserted_of_inserts hI.ok hI.agrees hI'.agrees rfl habsent hins

/-- What `cache_put_or_get` does to the map, and what it returns for a key that is there. -/
theorem Inv.putOrGet_result (hI : Inv hash nbuckets s) (hver : ver.Plain) {key : K} {value : V}
    {replace : Bool} (hstep : step ver hash nbuckets s (.putOrGet key value replace) = some s') :
    Inserted hash nbuckets s s' key value replace
      (latest s.events key = none ∧ (¬ s.table.FullAt hash nbuckets key ∨ replace = true)) ∧
      ∀ v, latest s.events key = some v → ∃ it, s'.results = some it :: s.results ∧
        it.key = key ∧ it.value = v := by
  have hI' := inv_step hver _ _ _ hI hstep
  obtain ⟨-, o, ho, rfl⟩ := call_eq_some hstep
  obtain ⟨o', ho', hok, hput⟩ := hI.ok.putOrGet_spec hver (s.alloc hash key value) rfl
    (fun it hit => Nat.ne_of_lt (hI.addr it hit)) replace
  obtain rfl := Option.some.inj (ho.symm.trans ho')
  cases hput with
  | exist old hold hkey hbucket hfreed hret hunlock hhas =>
      have hpresent : latest s.events key ≠ none := fun hnone =>
        hI.agrees.eq_none_iff.1 hnone old hold hkey
      have hsame := fun k => hI.agrees.latest_congr hI'.agrees fun x (_ : x.key = k) => hhas x
      refine ⟨⟨fun hnone => absurd hnone.1 hpresent, fun _ => hsame, fun k _ => Or.inl (hsame k)⟩,
        fun v hv => ⟨old, by rw [hret], hkey, ?_⟩⟩
      exact Option.some.inj (((hI.agrees key old.value).2 ⟨old, hold, hkey, rfl⟩).symm.trans hv)
  | insert habsent hfreed hins =>
      have hnone : latest s.events key = none := hI.agrees.eq_none_iff.2 habsent
      refine ⟨?_, fun v hv => ?_⟩
      · rw [propext (and_iff_right hnone)]
        exact inserted_of_inserts hI.ok hI.agrees hI'.agrees rfl habsent hins
      · rw [hnone] at hv
        cases hv

/-- A version that does as it should where `next` is `NULL` implements a lossy map. -/
theorem lossyMap_of_plain (hver : ver.Plain) (hash : K → UInt32) (nbuckets N : ℕ) :
    LossyMap ver hash nbuckets N where
  defined _ hs _ hfree := (inv_run hver hs).defined hver hfree
  hit _ hs _ _ hstep := (inv_run hver hs).get_result hver hstep
  put _ hs _ _ _ _ hstep := (inv_run hver hs).put_result hver hstep
  putOrGet _ hs _ _ _ _ hstep := (inv_run hver hs).putOrGet_result hver hstep
  deleted s hs key es es' hevents hno s' hstep := by
    obtain ⟨ret, hresults, hvalue, -⟩ := (inv_run hver hs).get_result hver hstep
    rw [hevents, latest_of_deleted hno, Option.map_eq_none_iff] at hvalue
    rw [hresults, hvalue]
  distinct s hs idx i it idx' i' it' hit hit' hkey := by
    have hok := (inv_run hver hs).ok
    have hidx : idx = idx' := by
      rw [← hok.bucket_of_has ⟨i, hit⟩, ← hok.bucket_of_has ⟨i', hit'⟩, hkey]
    subst hidx
    obtain rfl := (hok idx).distinct i i' it hit it' hit' hkey
    exact ⟨rfl, rfl, (hok idx).eq_of_key ⟨i, hit⟩ ⟨i, hit'⟩ hkey⟩
  place s hs idx i it hit := by
    have hok := (inv_run hver hs).ok idx
    exact ⟨hok.hv i it hit, hok.index i it hit, hok.hashes i it hit⟩
  next s hs idx i := by
    rcases ((inv_run hver hs).ok idx).nil_or_single i with hi | ⟨it, hi⟩ <;> rw [hi]
    · exact Nat.zero_le 1
    · exact Nat.le_refl 1

theorem step_congr {ver' : Version K V} (hver : ver.Plain) (hver' : ver'.Plain)
    (s : State N K V) (op : Op K V) (hI : Inv hash nbuckets s) :
    step ver hash nbuckets s op = step ver' hash nbuckets s op := by
  have hbucket := fun idx => hI.ok idx
  cases op with
  | get key =>
      simp only [step, Table.get]
      rw [(hbucket _).cacheGet_congr hver hver']
  | put key value replace =>
      simp only [step, Table.put]
      rw [(hbucket _).cachePut_congr hver hver' rfl]
  | putOrGet key value replace =>
      simp only [step, Table.putOrGet]
      rw [(hbucket _).cachePutOrGet_congr hver hver' rfl]
  | delete key =>
      simp only [step, Table.delete]
      rw [(hbucket _).cacheDelete_congr hver hver']
  | release addr => rfl

/-- **The cache is a correct lossy map, in both implementations**, and the results of a
sequence of calls are the same in both. -/
theorem lossyMap (hash : K → UInt32) (nbuckets N : ℕ) :
    LossyMap (cpu : Version K V) hash nbuckets N ∧
      LossyMap (cavium : Version K V) hash nbuckets N ∧
      ∀ ops, run (step cpu hash nbuckets) (State.init : State N K V) ops =
        run (step cavium hash nbuckets) State.init ops :=
  ⟨lossyMap_of_plain cpu_plain hash nbuckets N, lossyMap_of_plain cavium_plain hash nbuckets N,
    run_congr (step_congr cpu_plain cavium_plain) (inv_step cpu_plain)
      (inv_init hash nbuckets)⟩

end Lossy
end Cache
end Floem
