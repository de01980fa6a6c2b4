import Floem.Cache.Table

/-!
# What the operations do to a bucket

* `Bucket.Ok` — the invariant of a bucket: at most one item in a place, every item in its
  bucket and under its hash, and no key twice.
* `Inserts` — the ways in which an insertion of an absent key ends.
* `cacheGet_spec`, `cachePut_spec`, `cachePutOrGet_spec`, `cacheDelete_spec` — one lemma for
  each operation, in terms of the items the bucket has.
-/

namespace Floem
namespace Cache

variable {K V : Type*} {N : ℕ}

/-- What both versions do where `next` is `NULL`. -/
structure Version.Plain (ver : Version K V) : Prop where
  walk_nil : ∀ key hv, ver.walk key hv [] = none
  link_nil : ∀ nit, ver.link [] nit = some [nit]

theorem cpu_plain [DecidableEq K] : (cpu : Version K V).Plain where
  walk_nil _ _ := rfl
  link_nil _ := rfl

theorem cavium_plain [DecidableEq K] : (cavium : Version K V).Plain where
  walk_nil _ _ := rfl
  link_nil _ := rfl

/-- The item as an insertion into bucket number `idx` stores it. -/
def Item.stored (it : Item K V) (idx : ℕ) (evicted : UInt8) : Item K V :=
  { it with bucket := some idx, evicted := evicted }

/-- How an insertion of an absent key ends: `has` and `has'` are the items before and after
it, and `direct` is what it returns when it finds an empty place. -/
inductive Inserts (has has' : Item K V → Prop) (full : Prop) (nit : Item K V) (replace : Bool)
    (direct ret : Option (Item K V)) (unlock : Bool) : Prop
  /-- There was an empty place. -/
  | free (hroom : ¬ full) (h : ∀ x, has' x ↔ has x ∨ x = nit) (hret : ret = direct)
      (hunlock : unlock = direct.isNone)
  /-- Another item was thrown out. -/
  | evict (old : Item K V) (hold : has old) (hbucket : old.bucket = nit.bucket) (hfull : full)
      (hreplace : replace = true)
      (h : ∀ x, has' x ↔ has x ∧ x.key ≠ old.key ∨ x = nit)
      (hret : ret = some { old with evicted := old.evicted ||| 2 }) (hunlock : unlock = false)
  /-- The item was not inserted. -/
  | fail (hfull : full) (hreplace : replace = false) (h : ∀ x, has' x ↔ has x) (hret : ret = none)
      (hunlock : unlock = true)

namespace Bucket

/-- The item is in the bucket. -/
def Has (b : Bucket N K V) (it : Item K V) : Prop := ∃ i, it ∈ b.items i

/-- There is no empty place. -/
def Full (b : Bucket N K V) : Prop := ∀ i, b.items i ≠ []

/-- The invariant of bucket number `idx`. -/
structure Ok (hash : K → UInt32) (nbuckets idx : ℕ) (b : Bucket N K V) : Prop where
  /-- `next` is `NULL`. -/
  single : ∀ i, ∀ it ∈ b.items i, b.items i = [it]
  hv : ∀ i, ∀ it ∈ b.items i, it.hv = hash it.key
  index : ∀ i, ∀ it ∈ b.items i, bucketOf nbuckets it.hv = idx
  hashes : ∀ i, ∀ it ∈ b.items i, b.hashes i = it.hv
  bucket : ∀ i, ∀ it ∈ b.items i, it.bucket = some idx
  /-- No item is marked as evicted. -/
  evicted : ∀ i, ∀ it ∈ b.items i, it.evicted = 0 ∨ it.evicted = 1
  distinct : ∀ i j, ∀ it ∈ b.items i, ∀ jt ∈ b.items j, it.key = jt.key → i = j

variable {hash : K → UInt32} {nbuckets idx : ℕ} {b : Bucket N K V}

theorem ok_empty (hash : K → UInt32) (nbuckets idx : ℕ) :
    (empty : Bucket N K V).Ok hash nbuckets idx := by
  constructor <;> intro i <;> simp [empty]

theorem Ok.nil_or_single (h : b.Ok hash nbuckets idx) (i : Fin (N + 1)) :
    b.items i = [] ∨ ∃ it, b.items i = [it] := by
  cases hi : b.items i with
  | nil => exact Or.inl rfl
  | cons it its =>
      have := h.single i it (by rw [hi]; exact List.mem_cons_self)
      exact Or.inr ⟨it, by rw [← hi, this]⟩

/-- A key has one item. -/
theorem Ok.eq_of_key (h : b.Ok hash nbuckets idx) {it jt : Item K V} (hit : b.Has it)
    (hjt : b.Has jt) (hkey : it.key = jt.key) : it = jt := by
  obtain ⟨i, hi⟩ := hit
  obtain ⟨j, hj⟩ := hjt
  obtain rfl := h.distinct i j it hi jt hj hkey
  rw [h.single i jt hj] at hi
  exact List.mem_singleton.1 hi

/-! ## Stores -/

section

variable (b) (i : Fin (N + 1)) (its : List (Item K V)) (hv : UInt32)

@[simp] theorem store_items_self : (b.store i its).items i = its := Function.update_self ..

theorem store_items_of_ne {j : Fin (N + 1)} (h : j ≠ i) : (b.store i its).items j = b.items j :=
  Function.update_of_ne h ..

@[simp] theorem store_hashes : (b.store i its).hashes = b.hashes := rfl

@[simp] theorem setHash_items : (b.setHash i hv).items = b.items := rfl

@[simp] theorem setHash_hashes_self : (b.setHash i hv).hashes i = hv := Function.update_self ..

theorem setHash_hashes_of_ne {j : Fin (N + 1)} (h : j ≠ i) :
    (b.setHash i hv).hashes j = b.hashes j :=
  Function.update_of_ne h ..

@[simp] theorem advance_items : b.advance.items = b.items := rfl

@[simp] theorem advance_hashes : b.advance.hashes = b.hashes := rfl

end

/-- A place is filled with one item, whose key no other place has. -/
theorem Ok.place (h : b.Ok hash nbuckets idx) {b' : Bucket N K V} {i : Fin (N + 1)}
    (nit : Item K V) (hself : b'.items i = [nit]) (hother : ∀ j, j ≠ i → b'.items j = b.items j)
    (hhash : b'.hashes i = nit.hv) (hhashes : ∀ j, j ≠ i → b'.hashes j = b.hashes j)
    (hhv : nit.hv = hash nit.key) (hindex : bucketOf nbuckets nit.hv = idx)
    (hbucket : nit.bucket = some idx) (hevicted : nit.evicted = 0 ∨ nit.evicted = 1)
    (hfresh : ∀ j, j ≠ i → ∀ jt ∈ b.items j, jt.key ≠ nit.key) : b'.Ok hash nbuckets idx := by
  have hcases : ∀ j, ∀ jt ∈ b'.items j, j = i ∧ jt = nit ∨ j ≠ i ∧ jt ∈ b.items j := by
    intro j jt hjt
    by_cases hj : j = i
    · subst hj
      rw [hself] at hjt
      exact Or.inl ⟨rfl, List.mem_singleton.1 hjt⟩
    · exact Or.inr ⟨hj, by rwa [hother j hj] at hjt⟩
  constructor
  case single =>
    intro j jt hjt
    rcases hcases j jt hjt with ⟨rfl, rfl⟩ | ⟨hj, hmem⟩
    · exact hself
    · rw [hother j hj, h.single j jt hmem]
  case distinct =>
    intro j k jt hjt kt hkt hkey
    rcases hcases j jt hjt with ⟨rfl, rfl⟩ | ⟨hj, hjmem⟩ <;>
      rcases hcases k kt hkt with ⟨rfl, rfl⟩ | ⟨hk, hkmem⟩
    · rfl
    · exact absurd hkey.symm (hfresh k hk kt hkmem)
    · exact absurd hkey (hfresh j hj jt hjmem)
    · exact h.distinct j k jt hjmem kt hkmem hkey
  all_goals
    intro j jt hjt
    rcases hcases j jt hjt with ⟨rfl, rfl⟩ | ⟨hj, hmem⟩
  · exact hhv
  · exact h.hv j jt hmem
  · exact hindex
  · exact h.index j jt hmem
  · exact hhash
  · rw [hhashes j hj, h.hashes j jt hmem]
  · exact hbucket
  · exact h.bucket j jt hmem
  · exact hevicted
  · exact h.evicted j jt hmem

/-- The items after a place was filled. -/
theorem has_of_place {b' : Bucket N K V} {i : Fin (N + 1)} (nit : Item K V)
    (hself : b'.items i = [nit]) (hother : ∀ j, j ≠ i → b'.items j = b.items j) (x : Item K V) :
    b'.Has x ↔ (∃ j, j ≠ i ∧ x ∈ b.items j) ∨ x = nit := by
  constructor
  · rintro ⟨j, hj⟩
    by_cases hji : j = i
    · rw [hji, hself] at hj
      exact Or.inr (List.mem_singleton.1 hj)
    · exact Or.inl ⟨j, hji, by rwa [hother j hji] at hj⟩
  · rintro (⟨j, hji, hj⟩ | rfl)
    · exact ⟨j, by rwa [hother j hji]⟩
    · exact ⟨i, by rw [hself]; exact List.mem_cons_self⟩

/-- The other items are those with another key. -/
theorem Ok.other_iff (h : b.Ok hash nbuckets idx) {i : Fin (N + 1)} {old : Item K V}
    (hold : old ∈ b.items i) (x : Item K V) :
    (∃ j, j ≠ i ∧ x ∈ b.items j) ↔ b.Has x ∧ x.key ≠ old.key := by
  constructor
  · rintro ⟨j, hji, hj⟩
    exact ⟨⟨j, hj⟩, fun hkey => hji (h.distinct j i x hj old hold hkey)⟩
  · rintro ⟨⟨j, hj⟩, hkey⟩
    refine ⟨j, fun hji => hkey ?_, hj⟩
    rw [hji, h.single i old hold] at hj
    rw [List.mem_singleton.1 hj]

/-! ## The loops -/

section

variable [DecidableEq K] {ver : Version K V}

theorem Ok.matchesAt_iff (h : b.Ok hash nbuckets idx) {key : K} {i : Fin (N + 1)} :
    b.matchesAt key (hash key) i = true ↔ ∃ it ∈ b.items i, it.key = key := by
  unfold matchesAt
  rcases h.nil_or_single i with hi | ⟨it, hi⟩
  · simp [hi]
  · have hmem : it ∈ b.items i := by rw [hi]; exact List.mem_cons_self
    rw [hi]
    simp only [Bool.and_eq_true, decide_eq_true_eq, List.mem_singleton, exists_eq_left]
    refine ⟨fun hm => hm.2, fun hkey => ⟨?_, hkey⟩⟩
    rw [h.hashes i it hmem, h.hv i it hmem, hkey]

theorem Ok.find_some (h : b.Ok hash nbuckets idx) {key : K} {i : Fin (N + 1)}
    (hfind : b.find key (hash key) = some i) : ∃ it, b.items i = [it] ∧ it.key = key := by
  obtain ⟨it, hit, hkey⟩ := h.matchesAt_iff.1 (List.find?_some hfind)
  exact ⟨it, h.single i it hit, hkey⟩

theorem Ok.find_none (h : b.Ok hash nbuckets idx) {key : K}
    (hfind : b.find key (hash key) = none) : ∀ it, b.Has it → it.key ≠ key := by
  rintro it ⟨i, hi⟩ hkey
  have := List.find?_eq_none.1 hfind i (List.mem_finRange i)
  exact this (h.matchesAt_iff.2 ⟨it, hi, hkey⟩)

/-- The loop of an insertion that ends early. -/
theorem scan_inl {key : K} {hv : UInt32} {is : List (Fin (N + 1))} {di : Option (Fin (N + 1))}
    {i : Fin (N + 1)} (h : b.scan key hv is di = .inl i) :
    ∃ it next, b.items i = it :: next ∧ it.key = key := by
  induction is generalizing di with
  | nil => cases h
  | cons j is ih =>
      unfold scan at h
      split at h
      · exact ih h
      · next it next hj =>
          split_ifs at h with hmatch
          · obtain rfl := Sum.inl.inj h
            exact ⟨it, next, hj, hmatch.2⟩
          · exact ih h

/-- The loop of an insertion that passes all places. -/
theorem scan_inr {key : K} {hv : UInt32} {is : List (Fin (N + 1))} {di d : Option (Fin (N + 1))}
    (h : b.scan key hv is di = .inr d) :
    (∀ i ∈ is, ∀ it next, b.items i = it :: next → ¬ (b.hashes i = hv ∧ it.key = key)) ∧
      (∀ j, d = some j → b.items j = [] ∨ di = some j) ∧
      (d = none → di = none ∧ ∀ i ∈ is, b.items i ≠ []) := by
  induction is generalizing di with
  | nil =>
      obtain rfl := Sum.inr.inj h
      refine ⟨fun i hi => absurd hi List.not_mem_nil, fun j hj => Or.inr hj, fun hd => ⟨hd, ?_⟩⟩
      exact fun i hi => absurd hi List.not_mem_nil
  | cons j is ih =>
      unfold scan at h
      split at h
      · next hj =>
          obtain ⟨hmatch, hsome, hnone⟩ := ih h
          refine ⟨?_, ?_, ?_⟩
          · intro i hi it next hit
            rcases List.mem_cons.1 hi with rfl | hi
            · rw [hj] at hit
              cases hit
            · exact hmatch i hi it next hit
          · intro k hk
            rcases hsome k hk with hempty | hdirect
            · exact Or.inl hempty
            · obtain rfl := Option.some.inj hdirect
              exact Or.inl hj
          · intro hd
            cases (hnone hd).1
      · next it next hj =>
          split_ifs at h with hkey
          obtain ⟨hmatch, hsome, hnone⟩ := ih h
          refine ⟨?_, hsome, ?_⟩
          · intro i hi jt jnext hit
            rcases List.mem_cons.1 hi with rfl | hi
            · rw [hj] at hit
              obtain ⟨rfl, rfl⟩ := List.cons.inj hit
              exact hkey
            · exact hmatch i hi jt jnext hit
          · intro hd
            refine ⟨(hnone hd).1, fun i hi => ?_⟩
            rcases List.mem_cons.1 hi with rfl | hi
            · rw [hj]
              exact List.cons_ne_nil _ _
            · exact (hnone hd).2 i hi

/-- The whole loop, on a bucket with the invariant. -/
theorem Ok.scan_inr (h : b.Ok hash nbuckets idx) {key : K} {d : Option (Fin (N + 1))}
    (hscan : b.scan key (hash key) (List.finRange (N + 1)) none = .inr d) :
    (∀ it, b.Has it → it.key ≠ key) ∧ (∀ j, d = some j → b.items j = []) ∧
      (d = none → b.Full) := by
  obtain ⟨hmatch, hsome, hnone⟩ := Bucket.scan_inr hscan
  refine ⟨?_, ?_, fun hd i => (hnone hd).2 i (List.mem_finRange i)⟩
  · rintro it ⟨i, hi⟩ hkey
    refine hmatch i (List.mem_finRange i) it [] (h.single i it hi) ⟨?_, hkey⟩
    rw [h.hashes i it hi, h.hv i it hi, hkey]
  · intro j hj
    rcases hsome j hj with hempty | hdirect
    · exact hempty
    · cases hdirect

omit [DecidableEq K] in
/-- There is nothing behind the last place. -/
theorem Ok.behind (h : b.Ok hash nbuckets idx) (hver : ver.Plain) (key : K) (hv : UInt32) :
    b.behind ver key hv = none := by
  unfold Bucket.behind
  rcases h.nil_or_single (Fin.last N) with hlast | ⟨it, hlast⟩
  · rw [hlast]
  · rw [hlast]
    simp only [hver.walk_nil, Option.map_none]

/-! ## The operations -/

/-- **`cache_get`** finds the item of the key. -/
theorem Ok.cacheGet_spec (h : b.Ok hash nbuckets idx) (hver : ver.Plain) (key : K) :
    (b.cacheGet ver key (hash key)).state = b ∧ (b.cacheGet ver key (hash key)).freed = [] ∧
      (b.cacheGet ver key (hash key)).unlock = (b.cacheGet ver key (hash key)).ret.isNone ∧
      ∀ it, (b.cacheGet ver key (hash key)).ret = some it ↔ b.Has it ∧ it.key = key := by
  refine ⟨rfl, rfl, rfl, fun it => ?_⟩
  unfold cacheGet
  cases hfind : b.find key (hash key) with
  | none =>
      simp only [h.behind hver, Option.map_none]
      exact iff_of_false (by simp) fun hit => h.find_none hfind it hit.1 hit.2
  | some i =>
      obtain ⟨jt, hjt, hkey⟩ := h.find_some hfind
      have hmem : jt ∈ b.items i := by rw [hjt]; exact List.mem_cons_self
      simp only [hjt, List.head?_cons, Option.some.injEq]
      constructor
      · rintro rfl
        exact ⟨⟨i, hmem⟩, hkey⟩
      · rintro ⟨hit, hkey'⟩
        exact h.eq_of_key ⟨i, hmem⟩ hit (hkey.trans hkey'.symm)

omit [DecidableEq K] in
/-- An absent key is inserted. -/
theorem Ok.insert_spec (h : b.Ok hash nbuckets idx) (hver : ver.Plain) (nit : Item K V)
    (hhv : nit.hv = hash nit.key) (hindex : bucketOf nbuckets nit.hv = idx)
    (hbucket : nit.bucket = some idx) (hevicted : nit.evicted = 0 ∨ nit.evicted = 1)
    (habsent : ∀ it, b.Has it → it.key ≠ nit.key) (replace : Bool) (direct : Option (Item K V))
    {d : Option (Fin (N + 1))} (hsome : ∀ j, d = some j → b.items j = [])
    (hnone : d = none → b.Full) :
    ∃ o, b.insert ver nit replace direct d = some o ∧ o.state.Ok hash nbuckets idx ∧
      o.freed = [] ∧ Inserts b.Has o.state.Has b.Full nit replace direct o.ret o.unlock := by
  have hfresh : ∀ i, ∀ j, j ≠ i → ∀ jt ∈ b.items j, jt.key ≠ nit.key := fun i j _ jt hjt =>
    habsent jt ⟨j, hjt⟩
  cases d with
  | some di =>
      have hempty := hsome di rfl
      refine ⟨_, by rw [insert, hempty, hver.link_nil, Option.map_some], ?_, rfl, ?_⟩
      · exact h.place nit (by simp) (fun j hj => store_items_of_ne _ _ _ hj) (by simp)
          (fun j hj => setHash_hashes_of_ne _ _ _ hj) hhv hindex hbucket hevicted (hfresh di)
      · refine Inserts.free (fun hfull => hfull di hempty) (fun x => ?_) rfl rfl
        refine (has_of_place nit (by simp) (fun j hj => store_items_of_ne _ _ _ hj)
          x).trans ?_
        refine or_congr_left ⟨fun ⟨j, _, hj⟩ => ⟨j, hj⟩, fun ⟨j, hj⟩ => ⟨j, fun hji => ?_, hj⟩⟩
        rw [hji, hempty] at hj
        cases hj
  | none =>
      have hfull := hnone rfl
      cases replace with
      | false =>
          exact ⟨⟨b, none, true, []⟩, rfl, h, rfl, Inserts.fail hfull rfl (fun _ => Iff.rfl) rfl rfl⟩
      | true =>
          obtain ⟨old, hold⟩ := (h.nil_or_single b.replace).resolve_left (hfull b.replace)
          have hmem : old ∈ b.items b.replace := by rw [hold]; exact List.mem_cons_self
          refine ⟨_, by simp only [insert, hold, hver.link_nil, Option.map_some, if_true]; rfl, ?_,
            rfl, ?_⟩
          · exact h.place nit (by simp) (fun j hj => store_items_of_ne _ _ _ hj) (by simp)
              (fun j hj => setHash_hashes_of_ne _ _ _ hj) hhv hindex hbucket hevicted
              (hfresh b.replace)
          · refine Inserts.evict old ⟨b.replace, hmem⟩ ?_ hfull rfl (fun x => ?_) rfl rfl
            · rw [h.bucket _ old hmem, hbucket]
            refine (has_of_place nit (by simp) (fun j hj => store_items_of_ne _ _ _ hj)
              x).trans ?_
            exact or_congr_left (h.other_iff hmem x)

/-- **`cache_put`** replaces the item of the key, or inserts the new one. -/
theorem Ok.cachePut_spec (h : b.Ok hash nbuckets idx) (hver : ver.Plain) {nit : Item K V}
    (hhv : nit.hv = hash nit.key) (hindex : bucketOf nbuckets nit.hv = idx)
    (haddr : ∀ it, b.Has it → it.addr ≠ nit.addr) (replace : Bool) :
    ∃ o, b.cachePut ver idx nit replace = some o ∧ o.state.Ok hash nbuckets idx ∧
      ((∃ old, b.Has old ∧ old.key = nit.key ∧ o.freed = [old] ∧
          o.ret = some (nit.stored idx 1) ∧ o.unlock = false ∧
          ∀ x, o.state.Has x ↔ b.Has x ∧ x.key ≠ nit.key ∨ x = nit.stored idx 1) ∨
        (∀ it, b.Has it → it.key ≠ nit.key) ∧ o.freed = [] ∧
          Inserts b.Has o.state.Has b.Full (nit.stored idx 1) replace (some (nit.stored idx 1))
            o.ret o.unlock) := by
  unfold cachePut
  cases hscan : b.scan nit.key nit.hv (List.finRange (N + 1)) none with
  | inl i =>
      obtain ⟨old, next, hitems, hkey⟩ := scan_inl hscan
      have hmem : old ∈ b.items i := by rw [hitems]; exact List.mem_cons_self
      have hsingle := h.single i old hmem
      have hne : ¬ nit.addr = old.addr := fun heq => haddr old ⟨i, hmem⟩ heq.symm
      simp only [hscan, hsingle, if_neg hne]
      refine ⟨_, rfl, ?_, Or.inl ⟨old, ⟨i, hmem⟩, hkey, rfl, rfl, rfl, fun x => ?_⟩⟩
      · refine h.place (nit.stored idx 1) (by simp; rfl)
          (fun j hj => store_items_of_ne _ _ _ hj) ?_ (fun _ _ => rfl) hhv hindex rfl (Or.inr rfl) ?_
        · rw [store_hashes, h.hashes i old hmem, h.hv i old hmem, hkey]
          exact hhv.symm
        · exact fun j hj jt hjt hjkey => hj (h.distinct j i jt hjt old hmem (hjkey.trans hkey.symm))
      · refine (has_of_place (nit.stored idx 1) (by simp; rfl)
          (fun j hj => store_items_of_ne _ _ _ hj) x).trans ?_
        rw [← hkey]
        exact or_congr_left (h.other_iff hmem x)
  | inr d =>
      obtain ⟨habsent, hsome, hnone⟩ := h.scan_inr (by rwa [hhv] at hscan)
      obtain ⟨o, ho, hok, hfreed, hins⟩ := h.insert_spec hver (nit.stored idx 1) hhv hindex
        rfl (Or.inr rfl) habsent replace (some (nit.stored idx 1)) hsome hnone
      simp only [hscan, h.behind hver]
      exact ⟨o, ho, hok, Or.inr ⟨habsent, hfreed, hins⟩⟩

/-- **`cache_put_or_get`** finds the item of the key, or inserts the new one. -/
theorem Ok.cachePutOrGet_spec (h : b.Ok hash nbuckets idx) (hver : ver.Plain) {nit : Item K V}
    (hhv : nit.hv = hash nit.key) (hindex : bucketOf nbuckets nit.hv = idx)
    (haddr : ∀ it, b.Has it → it.addr ≠ nit.addr) (replace : Bool) :
    ∃ o, b.cachePutOrGet ver idx nit replace = some o ∧ o.state.Ok hash nbuckets idx ∧
      ((∃ old, b.Has old ∧ old.key = nit.key ∧ o.freed = [{ nit with evicted := 0 }] ∧
          o.ret = some old ∧ o.unlock = false ∧ o.state = b) ∨
        (∀ it, b.Has it → it.key ≠ nit.key) ∧ o.freed = [] ∧
          Inserts b.Has o.state.Has b.Full (nit.stored idx 0) replace none o.ret o.unlock) := by
  unfold cachePutOrGet
  cases hscan : b.scan nit.key nit.hv (List.finRange (N + 1)) none with
  | inl i =>
      obtain ⟨old, next, hitems, hkey⟩ := scan_inl hscan
      have hmem : old ∈ b.items i := by rw [hitems]; exact List.mem_cons_self
      have hne : ¬ nit.addr = old.addr := fun heq => haddr old ⟨i, hmem⟩ heq.symm
      simp only [hscan, h.single i old hmem, if_neg hne]
      exact ⟨_, rfl, h, Or.inl ⟨old, ⟨i, hmem⟩, hkey, rfl, rfl, rfl, rfl⟩⟩
  | inr d =>
      obtain ⟨habsent, hsome, hnone⟩ := h.scan_inr (by rwa [hhv] at hscan)
      obtain ⟨o, ho, hok, hfreed, hins⟩ := h.insert_spec hver (nit.stored idx 0) hhv hindex
        rfl (Or.inl rfl) habsent replace none hsome hnone
      simp only [hscan, h.behind hver]
      exact ⟨o, ho, hok, Or.inr ⟨habsent, hfreed, hins⟩⟩

/-- **`cache_delete`** removes the item of the key. -/
theorem Ok.cacheDelete_spec (h : b.Ok hash nbuckets idx) (hver : ver.Plain) (key : K) :
    ∃ o, b.cacheDelete ver key (hash key) = some o ∧ o.state.Ok hash nbuckets idx ∧
      o.ret = none ∧ o.unlock = true ∧
      (∀ it, it ∈ o.freed ↔ b.Has it ∧ it.key = key) ∧ o.freed.length ≤ 1 ∧
      ∀ x, o.state.Has x ↔ b.Has x ∧ x.key ≠ key := by
  unfold cacheDelete
  cases hfind : b.find key (hash key) with
  | none =>
      have habsent := h.find_none hfind
      simp only [h.behind hver]
      refine ⟨_, rfl, h, rfl, rfl, fun it => ?_, Nat.zero_le _, fun x => ?_⟩
      · exact iff_of_false List.not_mem_nil fun hit => habsent it hit.1 hit.2
      · exact ⟨fun hx => ⟨hx, habsent x hx⟩, fun hx => hx.1⟩
  | some i =>
      obtain ⟨old, hitems, hkey⟩ := h.find_some hfind
      have hmem : old ∈ b.items i := by rw [hitems]; exact List.mem_cons_self
      simp only [hitems]
      have hcases : ∀ j x, x ∈ (b.store i []).items j ↔ j ≠ i ∧ x ∈ b.items j := by
        intro j x
        by_cases hj : j = i
        · subst hj
          simp
        · rw [store_items_of_ne _ _ _ hj]
          simp [hj]
      refine ⟨_, rfl, ?_, rfl, rfl, fun it => ?_, Nat.le_refl 1, fun x => ?_⟩
      · constructor
        case single =>
          intro j it hit
          obtain ⟨hj, hit⟩ := (hcases j it).1 hit
          rw [store_items_of_ne _ _ _ hj, h.single j it hit]
        case distinct =>
          intro j k it hit jt hjt hjkey
          exact h.distinct j k it ((hcases j it).1 hit).2 jt ((hcases k jt).1 hjt).2 hjkey
        case hv => exact fun j it hit => h.hv j it ((hcases j it).1 hit).2
        case index => exact fun j it hit => h.index j it ((hcases j it).1 hit).2
        case hashes => exact fun j it hit => h.hashes j it ((hcases j it).1 hit).2
        case bucket => exact fun j it hit => h.bucket j it ((hcases j it).1 hit).2
        case evicted => exact fun j it hit => h.evicted j it ((hcases j it).1 hit).2
      · rw [List.mem_singleton]
        constructor
        · rintro rfl
          exact ⟨⟨i, hmem⟩, hkey⟩
        · rintro ⟨hit, hitkey⟩
          exact h.eq_of_key hit ⟨i, hmem⟩ (hitkey.trans hkey.symm)
      · rw [← hkey, ← h.other_iff hmem x]
        exact exists_congr fun j => hcases j x

/-! ## Both versions do the same -/

variable {ver' : Version K V}

theorem Ok.cacheGet_congr (h : b.Ok hash nbuckets idx) (hver : ver.Plain) (hver' : ver'.Plain)
    (key : K) (hv : UInt32) : b.cacheGet ver key hv = b.cacheGet ver' key hv := by
  unfold cacheGet
  rw [h.behind hver, h.behind hver']

theorem Ok.cacheDelete_congr (h : b.Ok hash nbuckets idx) (hver : ver.Plain)
    (hver' : ver'.Plain) (key : K) (hv : UInt32) :
    b.cacheDelete ver key hv = b.cacheDelete ver' key hv := by
  unfold cacheDelete
  rw [h.behind hver, h.behind hver']

omit [DecidableEq K] in
theorem insert_congr (hver : ver.Plain) (hver' : ver'.Plain) (nit : Item K V) (replace : Bool)
    (direct : Option (Item K V)) {d : Option (Fin (N + 1))}
    (hsome : ∀ j, d = some j → b.items j = []) :
    b.insert ver nit replace direct d = b.insert ver' nit replace direct d := by
  cases d with
  | some di => simp only [insert, hsome di rfl, hver.link_nil, hver'.link_nil]
  | none => simp only [insert, hver.link_nil, hver'.link_nil]

theorem Ok.cachePut_congr (h : b.Ok hash nbuckets idx) (hver : ver.Plain) (hver' : ver'.Plain)
    {nit : Item K V} (hhv : nit.hv = hash nit.key) (replace : Bool) :
    b.cachePut ver idx nit replace = b.cachePut ver' idx nit replace := by
  unfold cachePut
  cases hscan : b.scan nit.key nit.hv (List.finRange (N + 1)) none with
  | inl i => simp only [hscan]
  | inr d =>
      obtain ⟨-, hsome, -⟩ := h.scan_inr (by rwa [hhv] at hscan)
      simp only [hscan, h.behind hver, h.behind hver']
      exact insert_congr hver hver' _ _ _ hsome

theorem Ok.cachePutOrGet_congr (h : b.Ok hash nbuckets idx) (hver : ver.Plain)
    (hver' : ver'.Plain) {nit : Item K V} (hhv : nit.hv = hash nit.key) (replace : Bool) :
    b.cachePutOrGet ver idx nit replace = b.cachePutOrGet ver' idx nit replace := by
  unfold cachePutOrGet
  cases hscan : b.scan nit.key nit.hv (List.finRange (N + 1)) none with
  | inl i => simp only [hscan]
  | inr d =>
      obtain ⟨-, hsome, -⟩ := h.scan_inr (by rwa [hhv] at hscan)
      simp only [hscan, h.behind hver, h.behind hver']
      exact insert_congr hver hver' _ _ _ hsome

end

end Bucket
end Cache
end Floem
