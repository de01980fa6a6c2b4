import Floem.Cache.Bucket

/-!
# The items of a table

The specifications of `Floem.Cache.Bucket` for a whole table: what a bucket does to its
items, the table does to all items, since every key belongs to one bucket.

* `Table.Ok` — the invariant of a table.
* `Puts`, `PutsOrGets` — the ways in which the two insertions end.
* `Ok.get_spec`, `Ok.put_spec`, `Ok.putOrGet_spec`, `Ok.delete_spec`.
-/

namespace Floem
namespace Cache

variable {K V : Type*} {N : ℕ}

/-- How `cache_put` ends; `freed` is what it frees. -/
inductive Puts (has has' : Item K V → Prop) (full : Prop) (nit : Item K V) (replace : Bool)
    (ret : Option (Item K V)) (unlock : Bool) (freed : List (Item K V)) : Prop
  /-- It took the place of the item of its key. -/
  | update (old : Item K V) (hold : has old) (hkey : old.key = nit.key) (hfreed : freed = [old])
      (hret : ret = some nit) (hunlock : unlock = false)
      (h : ∀ x, has' x ↔ has x ∧ x.key ≠ nit.key ∨ x = nit)
  | insert (habsent : ∀ it, has it → it.key ≠ nit.key) (hfreed : freed = [])
      (h : Inserts has has' full nit replace (some nit) ret unlock)

/-- How `cache_put_or_get` ends. -/
inductive PutsOrGets (has has' : Item K V → Prop) (full : Prop) (nit : Item K V)
    (replace : Bool) (ret : Option (Item K V)) (unlock : Bool) (freed : List (Item K V)) : Prop
  /-- There was an item of its key. -/
  | exist (old : Item K V) (hold : has old) (hkey : old.key = nit.key)
      (hbucket : old.bucket = nit.bucket) (hfreed : freed.map Item.addr = [nit.addr])
      (hret : ret = some old) (hunlock : unlock = false) (h : ∀ x, has' x ↔ has x)
  | insert (habsent : ∀ it, has it → it.key ≠ nit.key) (hfreed : freed = [])
      (h : Inserts has has' full nit replace none ret unlock)

section

variable {has has' : Item K V → Prop} {full : Prop} {nit : Item K V} {replace : Bool}
  {direct ret : Option (Item K V)} {unlock : Bool} {freed : List (Item K V)}

/-- **The lock is kept for the item that is returned**, which is in the same bucket, and given
back where there is none. -/
theorem Inserts.lock (h : Inserts has has' full nit replace direct ret unlock)
    (hdirect : ∀ it, direct = some it → it.bucket = nit.bucket) :
    unlock = ret.isNone ∧ ∀ it, ret = some it → it.bucket = nit.bucket := by
  cases h with
  | free hroom hhas hret hunlock =>
      rw [hret, hunlock]
      exact ⟨rfl, hdirect⟩
  | evict old hold hbucket hfull hreplace hhas hret hunlock =>
      rw [hret, hunlock]
      refine ⟨rfl, fun it hit => ?_⟩
      obtain rfl := Option.some.inj hit
      exact hbucket
  | fail hfull hreplace hhas hret hunlock =>
      rw [hret, hunlock]
      exact ⟨rfl, fun it hit => by cases hit⟩

theorem Puts.lock (h : Puts has has' full nit replace ret unlock freed) :
    unlock = ret.isNone ∧ ∀ it, ret = some it → it.bucket = nit.bucket := by
  have hself : ∀ it, some nit = some it → it.bucket = nit.bucket := fun it hit => by
    rw [Option.some.inj hit]
  cases h with
  | update old hold hkey hfreed hret hunlock hhas =>
      rw [hret, hunlock]
      exact ⟨rfl, hself⟩
  | insert habsent hfreed hins => exact hins.lock hself

theorem PutsOrGets.lock (h : PutsOrGets has has' full nit replace ret unlock freed) :
    unlock = ret.isNone ∧ ∀ it, ret = some it → it.bucket = nit.bucket := by
  cases h with
  | exist old hold hkey hbucket hfreed hret hunlock hhas =>
      rw [hret, hunlock]
      refine ⟨rfl, fun it hit => ?_⟩
      rw [← Option.some.inj hit, hbucket]
  | insert habsent hfreed hins => exact hins.lock fun it hit => by cases hit

/-- With `replace` and an item to return, an insertion returns one. -/
theorem Inserts.isSome (h : Inserts has has' full nit true direct ret unlock)
    (hdirect : direct.isSome) : ret.isSome := by
  cases h with
  | free hroom hhas hret hunlock => rwa [hret]
  | evict old hold hbucket hfull hreplace hhas hret hunlock =>
      rw [hret]
      rfl
  | fail hfull hreplace hhas hret hunlock => cases hreplace

/-- The items after an insertion are old ones and the new one. -/
theorem Inserts.old_or_new (h : Inserts has has' full nit replace direct ret unlock)
    {x : Item K V} (hx : has' x) : has x ∨ x = nit := by
  cases h with
  | free hroom hhas hret hunlock => exact (hhas x).1 hx
  | evict old hold hbucket hfull hreplace hhas hret hunlock =>
      exact ((hhas x).1 hx).imp_left And.left
  | fail hfull hreplace hhas hret hunlock => exact Or.inl ((hhas x).1 hx)

theorem Puts.old_or_new (h : Puts has has' full nit replace ret unlock freed) {x : Item K V}
    (hx : has' x) : has x ∨ x = nit := by
  cases h with
  | update old hold hkey hfreed hret hunlock hhas => exact ((hhas x).1 hx).imp_left And.left
  | insert habsent hfreed hins => exact hins.old_or_new hx

theorem PutsOrGets.old_or_new (h : PutsOrGets has has' full nit replace ret unlock freed)
    {x : Item K V} (hx : has' x) : has x ∨ x = nit := by
  cases h with
  | exist old hold hkey hbucket hfreed hret hunlock hhas => exact Or.inl ((hhas x).1 hx)
  | insert habsent hfreed hins => exact hins.old_or_new hx

end

namespace Table

/-- The item is in the table. -/
def Has (T : Table N K V) (it : Item K V) : Prop := ∃ idx, (T idx).Has it

/-- The invariant of a table. -/
def Ok (hash : K → UInt32) (nbuckets : ℕ) (T : Table N K V) : Prop :=
  ∀ idx, (T idx).Ok hash nbuckets idx

/-- The bucket of a key has no empty place. -/
def FullAt (hash : K → UInt32) (nbuckets : ℕ) (T : Table N K V) (key : K) : Prop :=
  (T (bucketOf nbuckets (hash key))).Full

variable {hash : K → UInt32} {nbuckets : ℕ} {T : Table N K V}

theorem ok_empty (hash : K → UInt32) (nbuckets : ℕ) :
    Ok hash nbuckets (fun _ => Bucket.empty : Table N K V) :=
  fun idx => Bucket.ok_empty hash nbuckets idx

theorem not_has_empty (it : Item K V) : ¬ Has (fun _ => Bucket.empty : Table N K V) it := by
  rintro ⟨idx, i, hi⟩
  exact absurd hi List.not_mem_nil

/-- An item is in the bucket of its key. -/
theorem Ok.bucket_of_has (h : T.Ok hash nbuckets) {idx : ℕ} {it : Item K V}
    (hit : (T idx).Has it) : bucketOf nbuckets (hash it.key) = idx := by
  obtain ⟨i, hi⟩ := hit
  rw [← (h idx).hv i it hi, (h idx).index i it hi]

theorem Ok.has_iff (h : T.Ok hash nbuckets) {it : Item K V} :
    T.Has it ↔ (T (bucketOf nbuckets (hash it.key))).Has it := by
  constructor
  · rintro ⟨idx, hit⟩
    rwa [h.bucket_of_has hit]
  · exact fun hit => ⟨_, hit⟩

/-- **A key has one item.** -/
theorem Ok.eq_of_key (h : T.Ok hash nbuckets) {it jt : Item K V} (hit : T.Has it)
    (hjt : T.Has jt) (hkey : it.key = jt.key) : it = jt := by
  rw [h.has_iff] at hit hjt
  rw [← hkey] at hjt
  exact (h _).eq_of_key hit hjt hkey

theorem Ok.hv (h : T.Ok hash nbuckets) {it : Item K V} (hit : T.Has it) :
    it.hv = hash it.key := by
  obtain ⟨idx, i, hi⟩ := hit
  exact (h idx).hv i it hi

theorem Ok.bucket (h : T.Ok hash nbuckets) {it : Item K V} (hit : T.Has it) :
    it.bucket = some (bucketOf nbuckets (hash it.key)) := by
  obtain ⟨i, hi⟩ := h.has_iff.1 hit
  exact (h _).bucket i it hi

theorem Ok.evicted (h : T.Ok hash nbuckets) {it : Item K V} (hit : T.Has it) :
    it.evicted = 0 ∨ it.evicted = 1 := by
  obtain ⟨idx, i, hi⟩ := hit
  exact (h idx).evicted i it hi

/-! ## One bucket changes -/

theorem Ok.update (h : T.Ok hash nbuckets) {idx : ℕ} {b : Bucket N K V}
    (hb : b.Ok hash nbuckets idx) : Ok hash nbuckets (Function.update T idx b) := by
  intro j
  by_cases hj : j = idx
  · rw [hj, Function.update_self]
    exact hb
  · rw [Function.update_of_ne hj]
    exact h j

theorem has_update {idx : ℕ} {b : Bucket N K V} {x : Item K V} :
    Has (Function.update T idx b) x ↔ b.Has x ∨ ∃ j, j ≠ idx ∧ (T j).Has x := by
  constructor
  · rintro ⟨j, hj⟩
    by_cases hji : j = idx
    · rw [hji, Function.update_self] at hj
      exact Or.inl hj
    · rw [Function.update_of_ne hji] at hj
      exact Or.inr ⟨j, hji, hj⟩
  · rintro (hb | ⟨j, hji, hj⟩)
    · exact ⟨idx, by rwa [Function.update_self]⟩
    · exact ⟨j, by rwa [Function.update_of_ne hji]⟩

/-- The items of one key are taken out of its bucket, and others put in. -/
theorem Ok.has_update_ne (h : T.Ok hash nbuckets) {key : K} {b : Bucket N K V}
    (new : Item K V → Prop) {idx : ℕ} (hidx : bucketOf nbuckets (hash key) = idx)
    (hb : ∀ x, b.Has x ↔ (T idx).Has x ∧ x.key ≠ key ∨ new x) (x : Item K V) :
    Has (Function.update T idx b) x ↔ T.Has x ∧ x.key ≠ key ∨ new x := by
  rw [has_update, hb]
  constructor
  · rintro ((⟨hx, hne⟩ | hnew) | ⟨j, hji, hj⟩)
    · exact Or.inl ⟨⟨_, hx⟩, hne⟩
    · exact Or.inr hnew
    · refine Or.inl ⟨⟨j, hj⟩, fun hkey => hji ?_⟩
      rw [← h.bucket_of_has hj, hkey, hidx]
  · rintro (⟨⟨j, hj⟩, hne⟩ | hnew)
    · by_cases hji : j = idx
      · rw [hji] at hj
        exact Or.inl (Or.inl ⟨hj, hne⟩)
      · exact Or.inr ⟨j, hji, hj⟩
    · exact Or.inl (Or.inr hnew)

/-- Items are put into a bucket. -/
theorem has_update_or {b : Bucket N K V} (new : Item K V → Prop) {idx : ℕ}
    (hb : ∀ x, b.Has x ↔ (T idx).Has x ∨ new x) (x : Item K V) :
    Has (Function.update T idx b) x ↔ T.Has x ∨ new x := by
  rw [has_update, hb]
  constructor
  · rintro ((hx | hnew) | ⟨j, -, hj⟩)
    · exact Or.inl ⟨_, hx⟩
    · exact Or.inr hnew
    · exact Or.inl ⟨j, hj⟩
  · rintro (⟨j, hj⟩ | hnew)
    · by_cases hji : j = idx
      · rw [hji] at hj
        exact Or.inl (Or.inl hj)
      · exact Or.inr ⟨j, hji, hj⟩
    · exact Or.inl (Or.inr hnew)

/-- The end of an insertion, for the whole table. -/
theorem Ok.inserts (h : T.Ok hash nbuckets) {idx : ℕ} {b : Bucket N K V} {nit : Item K V}
    {replace : Bool} {direct ret : Option (Item K V)} {unlock : Bool}
    (hb : Inserts (T idx).Has b.Has (T idx).Full nit replace direct ret unlock) :
    Inserts T.Has (Has (Function.update T idx b)) (T idx).Full nit replace direct ret unlock := by
  cases hb with
  | free hroom hhas hret hunlock =>
      exact Inserts.free hroom (has_update_or _ hhas) hret hunlock
  | evict old hold hbucket hfull hreplace hhas hret hunlock =>
      have hidx := h.bucket_of_has hold
      exact Inserts.evict old ⟨_, hold⟩ hbucket hfull hreplace (h.has_update_ne _ hidx hhas) hret hunlock
  | fail hfull hreplace hhas hret hunlock =>
      refine Inserts.fail hfull hreplace (fun x => ?_) hret hunlock
      refine (has_update_or (fun _ => False) (fun x => ?_) x).trans (by rw [or_false])
      rw [hhas, or_false]

/-! ## The operations -/

section

variable [DecidableEq K] {ver : Version K V}

/-- **`cache_get`** returns the item of the key. -/
theorem Ok.get_spec (h : T.Ok hash nbuckets) (hver : ver.Plain) (key : K) :
    (T.get ver nbuckets key (hash key)).state = T ∧
      (T.get ver nbuckets key (hash key)).freed = [] ∧
      (T.get ver nbuckets key (hash key)).unlock =
        (T.get ver nbuckets key (hash key)).ret.isNone ∧
      ∀ it, (T.get ver nbuckets key (hash key)).ret = some it ↔ T.Has it ∧ it.key = key := by
  obtain ⟨hstate, hfreed, hunlock, hret⟩ :=
    (h (bucketOf nbuckets (hash key))).cacheGet_spec hver key
  refine ⟨?_, hfreed, hunlock, fun it => ?_⟩
  · rw [get, Table.update, hstate, Function.update_eq_self]
  · refine (hret it).trans ⟨fun hit => ⟨⟨_, hit.1⟩, hit.2⟩, fun hit => ⟨?_, hit.2⟩⟩
    rw [← hit.2]
    exact h.has_iff.1 hit.1

/-- **`cache_put`** -/
theorem Ok.put_spec (h : T.Ok hash nbuckets) (hver : ver.Plain) (nit : Item K V)
    (hhv : nit.hv = hash nit.key) (haddr : ∀ it, T.Has it → it.addr ≠ nit.addr)
    (replace : Bool) :
    ∃ o, T.put ver nbuckets nit replace = some o ∧ o.state.Ok hash nbuckets ∧
      Puts T.Has o.state.Has (T.FullAt hash nbuckets nit.key)
        (nit.stored (bucketOf nbuckets nit.hv) 1) replace o.ret o.unlock o.freed := by
  obtain ⟨o, ho, hok, hcase⟩ := (h (bucketOf nbuckets nit.hv)).cachePut_spec hver hhv rfl
    (fun it hit => haddr it ⟨_, hit⟩) replace
  refine ⟨_, by rw [put, ho, Option.map_some], h.update hok, ?_⟩
  rcases hcase with ⟨old, hold, hkey, hfreed, hret, hunlock, hhas⟩ | ⟨habsent, hfreed, hins⟩
  · exact Puts.update old ⟨_, hold⟩ hkey hfreed hret hunlock
      (h.has_update_ne _ (by rw [hhv]; rfl) hhas)
  · refine Puts.insert (fun it hit hkey => ?_) hfreed ?_
    · rw [h.has_iff, hkey] at hit
      refine habsent it ?_ hkey
      rw [hhv]
      exact hit
    · rw [FullAt, ← hhv]
      exact h.inserts hins

/-- **`cache_put_or_get`** -/
theorem Ok.putOrGet_spec (h : T.Ok hash nbuckets) (hver : ver.Plain) (nit : Item K V)
    (hhv : nit.hv = hash nit.key) (haddr : ∀ it, T.Has it → it.addr ≠ nit.addr)
    (replace : Bool) :
    ∃ o, T.putOrGet ver nbuckets nit replace = some o ∧ o.state.Ok hash nbuckets ∧
      PutsOrGets T.Has o.state.Has (T.FullAt hash nbuckets nit.key)
        (nit.stored (bucketOf nbuckets nit.hv) 0) replace o.ret o.unlock o.freed := by
  obtain ⟨o, ho, hok, hcase⟩ := (h (bucketOf nbuckets nit.hv)).cachePutOrGet_spec hver hhv rfl
    (fun it hit => haddr it ⟨_, hit⟩) replace
  refine ⟨_, by rw [putOrGet, ho, Option.map_some], h.update hok, ?_⟩
  rcases hcase with ⟨old, hold, hkey, hfreed, hret, hunlock, hstate⟩ | ⟨habsent, hfreed, hins⟩
  · have hbucket : old.bucket = some (bucketOf nbuckets nit.hv) := by
      rw [h.bucket ⟨_, hold⟩, hkey, hhv]
    refine PutsOrGets.exist old ⟨_, hold⟩ hkey hbucket (by rw [Table.update, hfreed]; rfl) hret hunlock ?_
    intro x
    rw [Table.update, hstate, Function.update_eq_self]
  · refine PutsOrGets.insert (fun it hit hkey => ?_) hfreed ?_
    · rw [h.has_iff, hkey] at hit
      refine habsent it ?_ hkey
      rw [hhv]
      exact hit
    · rw [FullAt, ← hhv]
      exact h.inserts hins

/-- **`cache_delete`** takes the item of the key out. -/
theorem Ok.delete_spec (h : T.Ok hash nbuckets) (hver : ver.Plain) (key : K) :
    ∃ o, T.delete ver nbuckets key (hash key) = some o ∧ o.state.Ok hash nbuckets ∧
      o.ret = none ∧ o.unlock = true ∧ (∀ it, it ∈ o.freed ↔ T.Has it ∧ it.key = key) ∧
      o.freed.length ≤ 1 ∧ ∀ x, o.state.Has x ↔ T.Has x ∧ x.key ≠ key := by
  obtain ⟨o, ho, hok, hret, hunlock, hfreed, hlength, hhas⟩ :=
    (h (bucketOf nbuckets (hash key))).cacheDelete_spec hver key
  refine ⟨_, by rw [delete, ho, Option.map_some], h.update hok, hret, hunlock, fun it => ?_,
    hlength, fun x => ?_⟩
  · refine (hfreed it).trans ⟨fun hit => ⟨⟨_, hit.1⟩, hit.2⟩, fun hit => ⟨?_, hit.2⟩⟩
    rw [← hit.2]
    exact h.has_iff.1 hit.1
  · refine (h.has_update_ne (fun _ => False) rfl (fun x => ?_) x).trans (by rw [or_false])
    rw [hhas, or_false]

end

end Table
end Cache
end Floem
