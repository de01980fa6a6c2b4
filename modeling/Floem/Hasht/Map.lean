import Floem.Hasht.Table
import Floem.Lib.Run

/-!
# The hash table is a map

* `Shape` — the invariant of a bucket, in terms of the keys in its places.
* `find_spec`, `walk_spec` — what the two searches find.
* `Inv`, `Represents` — the invariant of the table, and the map that it stands for.
* `hashtGet_spec`, `hashtPut_spec` — one lemma for each operation.
* `table_is_map` — the run of every sequence of operations in which no item of a chain is to
  be exchanged by compare and set.
-/

namespace Floem
namespace Hasht

open Lib

variable {K α : Type} (key : α → K) (hash : K → UInt32)

/-! ## Buckets -/

namespace Bucket

variable (b : Bucket α)

/-- The keys of the items in a place. -/
def keys (i : Fin 5) : List K := (b.items i).map key

/-- The item is in the bucket. -/
def Has (a : α) : Prop := ∃ i, a ∈ b.items i

/-- The item is in the bucket, and not in a place itself. -/
def Chained (a : α) : Prop := a ∈ (b.items last).tail

end Bucket

/-- **The invariant of bucket number `idx`**, whose places have the keys `ks` and the hashes
`hashes`. -/
structure Shape (idx : ℕ) (ks : Fin 5 → List K) (hashes : Fin 5 → UInt32) : Prop where
  single : ∀ i, i ≠ last → (ks i).tail = []
  head : ∀ i k rest, ks i = k :: rest → hashes i = hash k
  index : ∀ i, ∀ k ∈ ks i, bucketOf (hash k) = idx
  distinct : ∀ i j, ∀ k ∈ ks i, k ∈ ks j → i = j
  nodup : ∀ i, (ks i).Nodup

section

variable {key hash} {b : Bucket α} {idx : ℕ}

theorem shape_empty : Shape hash idx ((Bucket.empty : Bucket α).keys key)
    (Bucket.empty : Bucket α).hashes where
  single _ _ := rfl
  head _ _ _ h := by cases h
  index _ _ h := by cases h
  distinct _ _ _ h := by cases h
  nodup _ := List.nodup_nil

variable (h : Shape hash idx (b.keys key) b.hashes)
include h

/-- A key has one item. -/
theorem Shape.eq_of_key {a c : α} (ha : b.Has a) (hc : b.Has c) (hkey : key a = key c) :
    a = c := by
  obtain ⟨i, hi⟩ := ha
  obtain ⟨j, hj⟩ := hc
  have hki : key a ∈ b.keys key i := List.mem_map_of_mem hi
  have hkj : key a ∈ b.keys key j := hkey ▸ List.mem_map_of_mem hj
  obtain rfl := h.distinct i j (key a) hki hkj
  exact List.inj_on_of_nodup_map (h.nodup i) hi hj hkey

/-- An item takes the place of the one with its key. -/
theorem Shape.has_replace {i : Fin 5} {before after : List α} {it nit : α}
    (hi : b.items i = before ++ it :: after) (hkey : key nit = key it) (a : α) :
    (b.store i (before ++ nit :: after)).Has a ↔ b.Has a ∧ key a ≠ key nit ∨ a = nit := by
  have hit : b.Has it := ⟨i, by rw [hi]; simp⟩
  -- no other item has the key
  have hnodup := h.nodup i
  rw [Bucket.keys, hi, List.map_append, List.map_cons, List.nodup_middle, List.nodup_cons] at hnodup
  have hother : ∀ c, c ∈ before ∨ c ∈ after → key c ≠ key nit := fun c hc heq => by
    refine hnodup.1 ?_
    rw [← List.map_append, ← hkey, ← heq]
    exact List.mem_map_of_mem (List.mem_append.2 hc)
  constructor
  · rintro ⟨j, hj⟩
    by_cases hji : j = i
    · subst hji
      rw [Bucket.store_items_self, List.mem_append, List.mem_cons] at hj
      rcases hj with hj | rfl | hj
      · exact Or.inl ⟨⟨j, by rw [hi]; simp [hj]⟩, hother a (Or.inl hj)⟩
      · exact Or.inr rfl
      · exact Or.inl ⟨⟨j, by rw [hi]; simp [hj]⟩, hother a (Or.inr hj)⟩
    · rw [Bucket.store_items_of_ne _ _ _ hji] at hj
      refine Or.inl ⟨⟨j, hj⟩, fun heq => hji ?_⟩
      refine h.distinct j i (key a) (List.mem_map_of_mem hj) ?_
      rw [heq, hkey]
      exact List.mem_map_of_mem (by rw [hi]; simp)
  · rintro (⟨⟨j, hj⟩, hne⟩ | rfl)
    · by_cases hji : j = i
      · subst hji
        rw [hi, List.mem_append, List.mem_cons] at hj
        refine ⟨j, ?_⟩
        rw [Bucket.store_items_self, List.mem_append, List.mem_cons]
        rcases hj with hj | rfl | hj
        · exact Or.inl hj
        · exact absurd hkey.symm hne
        · exact Or.inr (Or.inr hj)
      · exact ⟨j, by rwa [Bucket.store_items_of_ne _ _ _ hji]⟩
    · exact ⟨i, by rw [Bucket.store_items_self]; simp⟩

omit h in
/-- The keys stay where they are. -/
theorem keys_replace {i : Fin 5} {before after : List α} {it nit : α}
    (hi : b.items i = before ++ it :: after) (hkey : key nit = key it) :
    (b.store i (before ++ nit :: after)).keys key = b.keys key := by
  funext j
  by_cases hji : j = i
  · subst hji
    rw [Bucket.keys, Bucket.store_items_self, Bucket.keys, hi]
    simp [hkey]
  · rw [Bucket.keys, Bucket.store_items_of_ne _ _ _ hji, Bucket.keys]

/-- A new key in an empty place or in front of the chain. -/
theorem Shape.add {di : Fin 5} {nit : α} (hdi : b.items di = [] ∨ di = last)
    (hidx : bucketOf (hash (key nit)) = idx) (hnew : ∀ a, b.Has a → key a ≠ key nit) :
    Shape hash idx (((b.store di (nit :: b.items di)).setHash di (hash (key nit))).keys key)
      ((b.store di (nit :: b.items di)).setHash di (hash (key nit))).hashes := by
  have hkeys : ∀ i, ((b.store di (nit :: b.items di)).setHash di (hash (key nit))).keys key i =
      if i = di then key nit :: b.keys key di else b.keys key i := fun i => by
    by_cases hi : i = di
    · rw [if_pos hi, hi, Bucket.keys, Bucket.setHash_items, Bucket.store_items_self]
      rfl
    · rw [if_neg hi, Bucket.keys, Bucket.setHash_items, Bucket.store_items_of_ne _ _ _ hi]
      rfl
  have hhashes : ∀ i, ((b.store di (nit :: b.items di)).setHash di (hash (key nit))).hashes i =
      if i = di then hash (key nit) else b.hashes i := fun i => Function.update_apply ..
  have hfresh : ∀ i, key nit ∉ b.keys key i := fun i hmem => by
    obtain ⟨a, ha, heq⟩ := List.mem_map.1 hmem
    exact hnew a ⟨i, ha⟩ heq
  refine ⟨fun i hi => ?_, fun i k rest hk => ?_, fun i k hk => ?_, fun i j k hk hk' => ?_,
    fun i => ?_⟩
  · rw [hkeys]
    split_ifs with hid
    · rcases hdi with hempty | hlast
      · rw [List.tail_cons, Bucket.keys, hempty, List.map_nil]
      · exact absurd (hid.trans hlast) hi
    · exact h.single i hi
  · rw [hkeys] at hk
    rw [hhashes]
    split_ifs at hk ⊢ with hid
    · rw [(List.cons.inj hk).1]
    · exact h.head i k rest hk
  · rw [hkeys] at hk
    split_ifs at hk with hid
    · rcases List.mem_cons.1 hk with rfl | hk
      · exact hidx
      · exact h.index di k hk
    · exact h.index i k hk
  · rw [hkeys] at hk hk'
    split_ifs at hk hk' with hid hjd hjd
    · exact hid.trans hjd.symm
    · rcases List.mem_cons.1 hk with rfl | hk
      · exact absurd hk' (hfresh j)
      · exact hid.trans (h.distinct di j k hk hk')
    · rcases List.mem_cons.1 hk' with rfl | hk'
      · exact absurd hk (hfresh i)
      · exact (h.distinct i di k hk hk').trans hjd.symm
    · exact h.distinct i j k hk hk'
  · rw [hkeys]
    split_ifs
    · exact List.nodup_cons.2 ⟨hfresh di, h.nodup di⟩
    · exact h.nodup i

omit h in
theorem has_add (b : Bucket α) (di : Fin 5) (nit a : α) (hv : UInt32) :
    ((b.store di (nit :: b.items di)).setHash di hv).Has a ↔ b.Has a ∨ a = nit := by
  constructor
  · rintro ⟨i, hi⟩
    by_cases hid : i = di
    · subst hid
      rw [Bucket.setHash_items, Bucket.store_items_self] at hi
      exact (List.mem_cons.1 hi).elim Or.inr fun ha => Or.inl ⟨i, ha⟩
    · rw [Bucket.setHash_items, Bucket.store_items_of_ne _ _ _ hid] at hi
      exact Or.inl ⟨i, hi⟩
  · rintro (⟨i, hi⟩ | rfl)
    · refine ⟨i, ?_⟩
      rw [Bucket.setHash_items]
      by_cases hid : i = di
      · subst hid
        rw [Bucket.store_items_self]
        exact List.mem_cons_of_mem nit hi
      · rwa [Bucket.store_items_of_ne _ _ _ hid]
    · refine ⟨di, ?_⟩
      rw [Bucket.setHash_items, Bucket.store_items_self]
      exact List.mem_cons_self

/-! ## The searches -/

variable [DecidableEq K]

/-- **The loop over the places** ends at an item with the key, or there is none in a place. -/
theorem Shape.find_spec (k : K) :
    (∀ i it, b.find key k (hash k) = some (i, it) → ∃ next, b.items i = it :: next ∧ key it = k) ∧
      (b.find key k (hash k) = none → ∀ i it next, b.items i = it :: next → key it ≠ k) := by
  constructor
  · intro i it hfind
    obtain ⟨j, -, hj⟩ := List.exists_of_findSome?_eq_some hfind
    cases hitems : b.items j with
    | nil => simp [hitems] at hj
    | cons jt next =>
        simp only [hitems] at hj
        split_ifs at hj with hmatch
        cases hj
        exact ⟨next, hitems, hmatch.2⟩
  · intro hfind i it next hitems hkey
    have hnone := List.findSome?_eq_none_iff.1 hfind i (List.mem_finRange i)
    have hhash : b.hashes i = hash k := by
      rw [← hkey]
      exact h.head i (key it) (next.map key) (by rw [Bucket.keys, hitems]; rfl)
    simp [hitems, hhash, hkey] at hnone

omit h in
/-- **The loop over a chain** ends at an item with the key, or there is none. -/
theorem walk_spec (k : K) (chain : List α) :
    (∀ before it after, walk key hash k (hash k) chain = some (before, it, after) →
      chain = before ++ it :: after ∧ key it = k) ∧
      (walk key hash k (hash k) chain = none → ∀ it ∈ chain, key it ≠ k) := by
  induction chain with
  | nil => exact ⟨fun _ _ _ hw => (by cases hw), fun _ it hit => (by cases hit)⟩
  | cons jt chain ih =>
      rw [walk]
      by_cases hmatch : hash (key jt) = hash k ∧ key jt = k
      · rw [if_pos hmatch]
        refine ⟨fun before it after hw => ?_, fun hw => by cases hw⟩
        cases hw
        exact ⟨rfl, hmatch.2⟩
      · have hne : key jt ≠ k := fun heq => hmatch ⟨by rw [heq], heq⟩
        rw [if_neg hmatch]
        constructor
        · intro before it after hw
          obtain ⟨⟨front, jt', after'⟩, hrest, heq⟩ := Option.map_eq_some_iff.1 hw
          obtain ⟨rfl, heq⟩ := Prod.mk.inj heq
          cases heq
          obtain ⟨hsplit, hkey⟩ := ih.1 _ _ _ hrest
          exact ⟨by rw [hsplit, List.cons_append], hkey⟩
        · intro hw it hit
          rcases List.mem_cons.1 hit with rfl | hit
          · exact hne
          · exact ih.2 (Option.map_eq_none_iff.1 hw) it hit

/-- Where both searches find nothing, no item has the key. -/
theorem Shape.absent {k : K} (hfind : b.find key k (hash k) = none)
    (hwalk : walk key hash k (hash k) (b.items last).tail = none) (a : α) (ha : b.Has a) :
    key a ≠ k := by
  obtain ⟨i, hi⟩ := ha
  cases hitems : b.items i with
  | nil => rw [hitems] at hi; cases hi
  | cons it next =>
      rw [hitems] at hi
      rcases List.mem_cons.1 hi with rfl | hi
      · exact (h.find_spec k).2 hfind i a next hitems
      · -- only the last place has a chain
        by_cases hlast : i = last
        · refine (walk_spec k _).2 hwalk a ?_
          rw [← hlast, hitems]
          exact hi
        · have hsingle := h.single i hlast
          rw [Bucket.keys, hitems, List.map_cons, List.tail_cons, List.map_eq_nil_iff] at hsingle
          rw [hsingle] at hi
          cases hi

omit h [DecidableEq K] in
/-- A place is free, or the last one is taken. -/
theorem direct_spec (b : Bucket α) :
    b.items (b.direct.getD last) = [] ∨ b.direct.getD last = last := by
  cases hdirect : b.direct with
  | none => exact Or.inr rfl
  | some i =>
      have hempty := List.find?_some hdirect
      exact Or.inl (List.isEmpty_iff.1 hempty)

end

/-! ## The table -/

namespace Table

/-- The item is in the bucket of its key. -/
def Stored (T : Table α) (a : α) : Prop := (T.buckets (bucketOf (hash (key a)))).Has a

/-- **The invariant of the table.** -/
structure Inv (T : Table α) : Prop where
  shape : ∀ idx, Shape hash idx ((T.buckets idx).keys key) (T.buckets idx).hashes
  referenced : ∀ a, T.Stored key hash a → T.refcount a ≠ 0

/-- The map that the table stands for. -/
def Represents (T : Table α) (M : K → Option α) : Prop :=
  ∀ k a, M k = some a ↔ key a = k ∧ T.Stored key hash a

/-- The item can be put into the table: it is not there yet, and the caller holds it. -/
structure Ready (T : Table α) (nit : α) : Prop where
  not_stored : ¬ T.Stored key hash nit
  held : T.refcount nit ≠ 0
  room : T.refcount nit ≠ 65535

end Table

open Table

variable {key hash} {T T' : Table α} {M : K → Option α}

theorem ref_ne_one {c : UInt16} (h : c ≠ 0) : c + 1 ≠ 1 := fun heq =>
  h (by rw [← UInt16.add_left_inj (c := 1), heq]; rfl)

theorem ref_ne_zero {c : UInt16} (h : c ≠ 65535) : c + 1 ≠ 0 := fun heq =>
  h (by rw [← UInt16.add_left_inj (c := 1), heq]; rfl)

section Counts

variable [DecidableEq α]

theorem itemRef_spec {a : α} (hheld : T.refcount a ≠ 0) (hroom : T.refcount a ≠ 65535) :
    ∃ T', T.itemRef a = some T' ∧ T'.buckets = T.buckets ∧
      ∀ c, T.refcount c ≠ 0 → T'.refcount c ≠ 0 := by
  refine ⟨{ T with refcount := Function.update T.refcount a (T.refcount a + 1) }, ?_, rfl,
    fun c hc => ?_⟩
  · simp [itemRef, guard, ref_ne_one hheld]
  · show Function.update T.refcount a (T.refcount a + 1) c ≠ 0
    by_cases hca : c = a
    · rw [hca, Function.update_self]
      exact ref_ne_zero hroom
    · rwa [Function.update_of_ne hca]

theorem itemUnref_spec {it : α} (h : T.refcount it ≠ 0) :
    ∃ T', T.itemUnref it = some T' ∧ T'.buckets = T.buckets ∧
      ∀ c, c ≠ it → T'.refcount c = T.refcount c := by
  have hpos : 0 < T.refcount it := UInt16.pos_iff_ne_zero.2 h
  refine ⟨{ T with
    refcount := Function.update T.refcount it (T.refcount it - 1),
    freed := if T.refcount it - 1 = 0 then it :: T.freed else T.freed }, ?_, rfl,
    fun c hc => Function.update_of_ne hc _ _⟩
  simp only [itemUnref, guard, if_pos hpos]
  rfl

end Counts

/-- An item is stored in the bucket of its key, and all others with the key are gone. -/
theorem stored_setBucket {b : Bucket α} {nit : α} (hb : ∀ a, b.Has a ↔
      (T.buckets (bucketOf (hash (key nit)))).Has a ∧ key a ≠ key nit ∨ a = nit) (a : α) :
    (T.setBucket (bucketOf (hash (key nit))) b).Stored key hash a ↔
      T.Stored key hash a ∧ key a ≠ key nit ∨ a = nit := by
  unfold Stored setBucket
  by_cases hidx : bucketOf (hash (key a)) = bucketOf (hash (key nit))
  · rw [hidx]
    simp only [Function.update_self]
    exact hb a
  · simp only [Function.update_of_ne hidx]
    refine ⟨fun h => Or.inl ⟨h, fun heq => hidx (by rw [heq])⟩, ?_⟩
    rintro (⟨h, -⟩ | rfl)
    · exact h
    · exact absurd rfl hidx

/-- The map then has the item for its key. -/
theorem represents_update [DecidableEq K] (hrep : T.Represents key hash M) {nit : α}
    (h : ∀ a, T'.Stored key hash a ↔ T.Stored key hash a ∧ key a ≠ key nit ∨ a = nit) :
    T'.Represents key hash (Function.update M (key nit) (some nit)) := by
  intro k a
  rw [h]
  by_cases hk : k = key nit
  · subst hk
    rw [Function.update_self, Option.some.injEq]
    constructor
    · rintro rfl
      exact ⟨rfl, Or.inr rfl⟩
    · rintro ⟨hkey, ⟨-, hne⟩ | rfl⟩
      · exact absurd hkey hne
      · rfl
  · rw [Function.update_of_ne hk, hrep k a]
    refine and_congr_right fun hkey => ⟨fun ha => Or.inl ⟨ha, fun heq => hk (hkey ▸ heq)⟩, ?_⟩
    rintro (⟨ha, -⟩ | rfl)
    · exact ha
    · exact absurd hkey.symm hk

/-- One bucket is changed. -/
theorem shape_setBucket (hshape : ∀ idx, Shape hash idx ((T.buckets idx).keys key)
      (T.buckets idx).hashes) {idx : ℕ} {b : Bucket α} (hb : Shape hash idx (b.keys key) b.hashes)
    (j : ℕ) : Shape hash j (((T.setBucket idx b).buckets j).keys key)
      ((T.setBucket idx b).buckets j).hashes := by
  unfold setBucket
  by_cases hj : j = idx
  · subst hj
    simp only [Function.update_self]
    exact hb
  · simp only [Function.update_of_ne hj]
    exact hshape j

variable [DecidableEq K] [DecidableEq α]

/-- **`hasht_get`** returns what the map has. -/
theorem hashtGet_spec (hinv : T.Inv key hash) (hrep : T.Represents key hash M) {k : K}
    (hroom : ∀ a, T.Stored key hash a → key a = k → T.refcount a ≠ 65535) :
    ∃ T', T.hashtGet key hash k = some (T', M k) ∧ T'.Inv key hash ∧
      T'.Represents key hash M := by
  have hshape := hinv.shape (bucketOf (hash k))
  -- an item that is found is referenced
  have hfound : ∀ it, key it = k → (T.buckets (bucketOf (hash k))).Has it →
      M k = some it ∧ ∃ T', T.itemRef it = some T' ∧ T'.Inv key hash ∧
        T'.Represents key hash M := by
    rintro it rfl hit
    obtain ⟨T', hT', hbuckets, hrefs⟩ := itemRef_spec (hinv.referenced it hit) (hroom it hit rfl)
    have hstored : ∀ a, T'.Stored key hash a ↔ T.Stored key hash a := fun a => by
      rw [Stored, Stored, hbuckets]
    refine ⟨(hrep (key it) it).2 ⟨rfl, hit⟩, T', hT', ⟨?_, fun a ha => ?_⟩, fun k a => ?_⟩
    · rw [hbuckets]
      exact hinv.shape
    · exact hrefs a (hinv.referenced a ((hstored a).1 ha))
    · rw [hrep, hstored]
  unfold hashtGet
  cases hfind : (T.buckets (bucketOf (hash k))).find key k (hash k) with
  | some r =>
      obtain ⟨i, it⟩ := r
      obtain ⟨next, hitems, hkey⟩ := (hshape.find_spec k).1 i it hfind
      obtain ⟨hM, T', hT', hT⟩ := hfound it hkey ⟨i, by rw [hitems]; exact List.mem_cons_self⟩
      refine ⟨T', ?_, hT⟩
      simp [hfind, hT', hM]
  | none =>
      cases hwalk : walk key hash k (hash k)
          ((T.buckets (bucketOf (hash k))).items last).tail with
      | some r =>
          obtain ⟨before, it, after⟩ := r
          obtain ⟨hsplit, hkey⟩ := (walk_spec k _).1 before it after hwalk
          have hmem : it ∈ (T.buckets (bucketOf (hash k))).items last :=
            List.mem_of_mem_tail (by rw [hsplit]; simp)
          obtain ⟨hM, T', hT', hT⟩ := hfound it hkey ⟨last, hmem⟩
          refine ⟨T', ?_, hT⟩
          simp [hfind, hwalk, hT', hM]
      | none =>
          have hM : M k = none := Option.eq_none_iff_forall_ne_some.2 fun a ha => by
            obtain ⟨rfl, hstored⟩ := (hrep k a).1 ha
            exact hshape.absent hfind hwalk a hstored rfl
          exact ⟨T, by simp [hfind, hwalk, hM], hinv, hrep⟩

omit [DecidableEq K] [DecidableEq α] in
/-- A new item is stored in place of the one that had its key. -/
theorem inv_of_stored (hinv : T.Inv key hash) {nit : α}
    (hshape : ∀ idx, Shape hash idx ((T'.buckets idx).keys key) (T'.buckets idx).hashes)
    (hstored : ∀ a, T'.Stored key hash a ↔ T.Stored key hash a ∧ key a ≠ key nit ∨ a = nit)
    (hnit : T'.refcount nit ≠ 0)
    (hrefs : ∀ a, key a ≠ key nit → T.refcount a ≠ 0 → T'.refcount a ≠ 0) : T'.Inv key hash := by
  refine ⟨hshape, fun a ha => ?_⟩
  rcases (hstored a).1 ha with ⟨hold, hne⟩ | rfl
  · exact hrefs a hne (hinv.referenced a hold)
  · exact hnit

/-- The item takes the place of the one with its key. -/
theorem replace_spec (hinv : T.Inv key hash) (hrep : T.Represents key hash M) {nit it : α}
    (hready : T.Ready key hash nit) {i : Fin 5} {before after : List α} {b : Bucket α}
    (hitems : (T.buckets (bucketOf (hash (key nit)))).items i = before ++ it :: after)
    (hkey : key it = key nit)
    (hb : b = (T.buckets (bucketOf (hash (key nit)))).store i (before ++ nit :: after)) :
    ∃ T₁ T₂, T.itemRef nit = some T₁ ∧
      (T₁.setBucket (bucketOf (hash (key nit))) b).itemUnref it = some T₂ ∧ T₂.Inv key hash ∧
      T₂.Represents key hash (Function.update M (key nit) (some nit)) := by
  subst hb
  have hshape := hinv.shape (bucketOf (hash (key nit)))
  have hit : T.Stored key hash it := ⟨i, by rw [hkey, hitems]; simp⟩
  have hne : nit ≠ it := fun heq => hready.not_stored (heq ▸ hit)
  obtain ⟨T₁, hT₁, hbuckets, hrefs⟩ := itemRef_spec hready.held hready.room
  set b := (T.buckets (bucketOf (hash (key nit)))).store i (before ++ nit :: after) with hb
  have hset : (T₁.setBucket (bucketOf (hash (key nit))) b).buckets =
      (T.setBucket (bucketOf (hash (key nit))) b).buckets := by
    simp only [setBucket, hbuckets]
  obtain ⟨T₂, hT₂, hbuckets₂, hrefs₂⟩ := itemUnref_spec
    (T := T₁.setBucket (bucketOf (hash (key nit))) b) (hrefs it (hinv.referenced it hit))
  rw [hset] at hbuckets₂
  have hstored : ∀ a, T₂.Stored key hash a ↔ T.Stored key hash a ∧ key a ≠ key nit ∨ a = nit := by
    intro a
    rw [Stored, hbuckets₂]
    exact stored_setBucket (hshape.has_replace hitems hkey.symm) a
  refine ⟨T₁, T₂, hT₁, hT₂, inv_of_stored hinv (fun idx => ?_) hstored ?_ fun a ha hold => ?_,
    represents_update hrep hstored⟩
  · rw [hbuckets₂]
    refine shape_setBucket hinv.shape ?_ idx
    rw [hb, keys_replace hitems hkey.symm]
    exact hshape
  · rw [hrefs₂ nit hne]
    exact hrefs nit hready.held
  · rw [hrefs₂ a fun heq => ha (by rw [heq, hkey])]
    exact hrefs a hold

/-- The item is stuck in where there is room. -/
theorem insert_spec (hinv : T.Inv key hash) (hrep : T.Represents key hash M) {nit : α}
    (hready : T.Ready key hash nit)
    (habsent : ∀ a, (T.buckets (bucketOf (hash (key nit)))).Has a → key a ≠ key nit) :
    ∃ T₁, T.itemRef nit = some T₁ ∧ (T₁.insert key hash nit).Inv key hash ∧
      (T₁.insert key hash nit).Represents key hash (Function.update M (key nit) (some nit)) := by
  obtain ⟨T₁, hT₁, hbuckets, hrefs⟩ := itemRef_spec hready.held hready.room
  have hshape := hinv.shape (bucketOf (hash (key nit)))
  set b := T.buckets (bucketOf (hash (key nit))) with hb
  set b' := (b.store (b.direct.getD last) (nit :: b.items (b.direct.getD last))).setHash
    (b.direct.getD last) (hash (key nit)) with hb'
  have hinsert : (T₁.insert key hash nit).buckets =
      (T.setBucket (bucketOf (hash (key nit))) b').buckets := by
    simp only [Table.insert, setBucket, hbuckets, hb', hb]
  have hstored : ∀ a, (T₁.insert key hash nit).Stored key hash a ↔
      T.Stored key hash a ∧ key a ≠ key nit ∨ a = nit := by
    intro a
    rw [Stored, hinsert]
    refine stored_setBucket (fun c => (has_add b _ nit c _).trans (or_congr_left ?_)) a
    exact ⟨fun hc => ⟨hc, habsent c hc⟩, fun hc => hc.1⟩
  refine ⟨T₁, hT₁, inv_of_stored hinv (fun idx => ?_) hstored ?_ fun a ha hold => ?_,
    represents_update hrep hstored⟩
  · rw [hinsert]
    exact shape_setBucket hinv.shape (hshape.add (direct_spec b) rfl habsent) idx
  · exact hrefs nit hready.held
  · exact hrefs a hold

/-! ## Runs -/

/-- What an operation does to the map, with what the calls of `hasht_get` return. -/
def mapStep (key : α → K) (s : (K → Option α) × List (Option α)) :
    Op K α → (K → Option α) × List (Option α)
  | .get k => (s.1, s.2 ++ [s.1 k])
  | .put nit cas =>
    if cas = none ∨ s.1 (key nit) = cas then (Function.update s.1 (key nit) (some nit), s.2) else s

/-- When an operation works: a reference that is taken fits into the count, an item that is
stored is ready for it, and no compare and set is to exchange an item of a chain. -/
def CanDo (key : α → K) (hash : K → UInt32) (T : Table α) : Op K α → Prop
  | .get k => ∀ a, T.Stored key hash a → key a = k → T.refcount a ≠ 65535
  | .put nit cas =>
    (∀ c, cas = some c → key c = key nit →
      ¬ (T.buckets (bucketOf (hash (key nit)))).Chained c) ∧
    (cas = none ∨ (∃ c, cas = some c ∧ key c = key nit ∧ T.Stored key hash c) →
      T.Ready key hash nit)

/-- **`hasht_put`** does to the map what it should. -/
theorem hashtPut_spec (hinv : T.Inv key hash) (hrep : T.Represents key hash M) {nit : α}
    {cas : Option α} (hcan : CanDo key hash T (.put nit cas)) :
    ∃ T', T.hashtPut key hash nit cas = some T' ∧ T'.Inv key hash ∧ T'.Represents key hash
      (if cas = none ∨ M (key nit) = cas then Function.update M (key nit) (some nit) else M) := by
  obtain ⟨hchain, hready⟩ := hcan
  have hshape := hinv.shape (bucketOf (hash (key nit)))
  unfold hashtPut
  cases hfind : (T.buckets (bucketOf (hash (key nit)))).find key (key nit) (hash (key nit)) with
  | some r =>
      obtain ⟨i, it⟩ := r
      obtain ⟨next, hitems, hkey⟩ := (hshape.find_spec _).1 i it hfind
      have hit : T.Stored key hash it := ⟨i, by rw [hkey, hitems]; exact List.mem_cons_self⟩
      have hM : M (key nit) = some it := (hrep _ _).2 ⟨hkey, hit⟩
      by_cases hcas : cas ≠ none ∧ cas ≠ some it
      · have hno : ¬ (cas = none ∨ M (key nit) = cas) := by
          rintro (h | h)
          · exact hcas.1 h
          · exact hcas.2 (h.symm.trans hM)
        exact ⟨T, by simp only [hfind, if_pos hcas], hinv, by rwa [if_neg hno]⟩
      · have hyes : cas = none ∨ cas = some it := by
          by_cases hnone : cas = none
          · exact Or.inl hnone
          · exact Or.inr (not_not.1 fun h => hcas ⟨hnone, h⟩)
        have hnit := hready (hyes.imp_right fun h => ⟨it, h, hkey, hit⟩)
        have hne : nit ≠ it := fun heq => hnit.not_stored (heq ▸ hit)
        obtain ⟨T₁, T₂, hT₁, hT₂, hinv₂, hrep₂⟩ := replace_spec hinv hrep hnit
          (show _ = [] ++ it :: next from hitems) hkey rfl
        refine ⟨T₂, ?_, hinv₂, ?_⟩
        · simp only [hfind, if_neg hcas, guard, if_pos hne, hitems, List.tail_cons]
          rw [hT₁]
          exact hT₂
        · rwa [if_pos (hyes.imp_right fun h => hM.trans h.symm)]
  | none =>
      have hplace := (hshape.find_spec _).2 hfind
      cases cas with
      | some c =>
          -- the object would be in the chain
          have hno : ¬ (some c = none ∨ M (key nit) = some c) := by
            rintro (h | h)
            · cases h
            · obtain ⟨hkey, i, hi⟩ := (hrep _ _).1 h
              rw [hkey] at hi
              cases hitems : (T.buckets (bucketOf (hash (key nit)))).items i with
              | nil => rw [hitems] at hi; cases hi
              | cons it next =>
                  rw [hitems] at hi
                  rcases List.mem_cons.1 hi with rfl | hi
                  · exact hplace i c next hitems hkey
                  · by_cases hlast : i = last
                    · refine hchain c rfl hkey ?_
                      rw [Bucket.Chained, ← hlast, hitems]
                      exact hi
                    · have hsingle := hshape.single i hlast
                      rw [Bucket.keys, hitems, List.map_cons, List.tail_cons,
                        List.map_eq_nil_iff] at hsingle
                      rw [hsingle] at hi
                      cases hi
          refine ⟨T, ?_, hinv, by rwa [if_neg hno]⟩
          simp [hfind]
      | none =>
          have hnit := hready (Or.inl rfl)
          rw [if_pos (Or.inl rfl)]
          simp only [hfind, ne_eq, not_true, if_false]
          cases hlast : (T.buckets (bucketOf (hash (key nit)))).items last with
          | nil =>
              obtain ⟨T₁, hT₁, hinv₁, hrep₁⟩ := insert_spec hinv hrep hnit
                (hshape.absent hfind (by rw [hlast]; rfl))
              exact ⟨_, by rw [hT₁]; rfl, hinv₁, hrep₁⟩
          | cons head chain =>
              cases hwalk : walk key hash (key nit) (hash (key nit)) chain with
              | none =>
                  obtain ⟨T₁, hT₁, hinv₁, hrep₁⟩ := insert_spec hinv hrep hnit
                    (hshape.absent hfind (by rw [hlast]; exact hwalk))
                  exact ⟨_, by rw [hT₁]; simp [hwalk], hinv₁, hrep₁⟩
              | some r =>
                  obtain ⟨before, it, after⟩ := r
                  obtain ⟨hsplit, hkey⟩ := (walk_spec _ chain).1 before it after hwalk
                  obtain ⟨T₁, T₂, hT₁, hT₂, hinv₂, hrep₂⟩ := replace_spec hinv hrep hnit
                    (show _ = (head :: before) ++ it :: after by
                      rw [hlast, hsplit, List.cons_append]) hkey rfl
                  refine ⟨T₂, ?_, hinv₂, hrep₂⟩
                  rw [hT₁]
                  simp only [hwalk, Option.bind_eq_bind, Option.bind_some]
                  exact hT₂

/-- Each key is stored at most once. -/
def Once (key : α → K) (T : Table α) : Prop :=
  (∀ idx, (((List.finRange 5).flatMap (T.buckets idx).items).map key).Nodup) ∧
    ∀ idx idx' a c, (T.buckets idx).Has a → (T.buckets idx').Has c → key a = key c → idx = idx'

omit [DecidableEq K] [DecidableEq α] in
theorem once_of_inv (hinv : T.Inv key hash) : Once key T := by
  have hindex : ∀ idx a, (T.buckets idx).Has a → bucketOf (hash (key a)) = idx := by
    rintro idx a ⟨i, hi⟩
    exact (hinv.shape idx).index i _ (List.mem_map_of_mem hi)
  refine ⟨fun idx => ?_, fun idx idx' a c ha hc heq => ?_⟩
  · rw [List.map_flatMap, List.nodup_flatMap]
    refine ⟨fun i _ => (hinv.shape idx).nodup i, (List.nodup_finRange 5).imp fun {i j} hij => ?_⟩
    intro k hk hk'
    exact hij ((hinv.shape idx).distinct i j k hk hk')
  · rw [← hindex idx a ha, ← hindex idx' c hc, heq]

/-- One operation. -/
theorem step_spec (hinv : T.Inv key hash) (hrep : T.Represents key hash M)
    (results : List (Option α)) {op : Op K α} (hcan : CanDo key hash T op) :
    ∃ T', step key hash (T, results) op = some (T', (mapStep key (M, results) op).2) ∧
      T'.Inv key hash ∧ T'.Represents key hash (mapStep key (M, results) op).1 := by
  cases op with
  | get k =>
      obtain ⟨T', hget, hT'⟩ := hashtGet_spec hinv hrep hcan
      exact ⟨T', by rw [step, hget]; rfl, hT'⟩
  | put nit cas =>
      obtain ⟨T', hput, hinv', hrep'⟩ := hashtPut_spec hinv hrep hcan
      refine ⟨T', ?_, hinv', ?_⟩
      · rw [step, hput, mapStep]
        split_ifs <;> rfl
      · rw [mapStep]
        split_ifs at hrep' ⊢ <;> exact hrep'

/-- Operations from any table. -/
theorem run_spec (hinv : T.Inv key hash) (hrep : T.Represents key hash M)
    {results : List (Option α)} {ops : List (Op K α)}
    (hcan : Meets (step key hash) (fun s op => CanDo key hash s.1 op) (T, results) ops) :
    ∃ T', run (step key hash) (T, results) ops =
        some (T', (ops.foldl (mapStep key) (M, results)).2) ∧ T'.Inv key hash ∧
      T'.Represents key hash (ops.foldl (mapStep key) (M, results)).1 := by
  induction ops generalizing T M results with
  | nil => exact ⟨T, rfl, hinv, hrep⟩
  | cons op ops ih =>
      obtain ⟨T₁, hstep, hinv₁, hrep₁⟩ := step_spec hinv hrep results hcan.1
      obtain ⟨T₂, hrun, hT₂⟩ := ih hinv₁ hrep₁ (hcan.2 _ hstep)
      exact ⟨T₂, by rw [run_cons, hstep]; exact hrun, hT₂⟩

omit [DecidableEq K] [DecidableEq α] in
theorem inv_init (refcount : α → UInt16) : (hashtInit refcount).Inv key hash where
  shape _ := shape_empty
  referenced _ h := by obtain ⟨i, hi⟩ := h; cases hi

omit [DecidableEq K] [DecidableEq α] in
theorem represents_init (refcount : α → UInt16) :
    (hashtInit refcount).Represents key hash fun _ => none := by
  refine fun k a => iff_of_false (by simp) ?_
  rintro ⟨-, i, hi⟩
  cases hi

/-- **The hash table is a map with compare and set**, in every run whose operations can be
done: no assertion fails, the calls of `hasht_get` return what the map has, the table
stands for the map in the end, and each key is stored at most once. -/
theorem table_is_map (refcount : α → UInt16) {ops : List (Op K α)}
    (hcan : Meets (step key hash) (fun s op => CanDo key hash s.1 op) (hashtInit refcount, [])
      ops) :
    ∃ T, run (step key hash) (hashtInit refcount, []) ops =
        some (T, (ops.foldl (mapStep key) (fun _ => none, [])).2) ∧
      T.Represents key hash (ops.foldl (mapStep key) (fun _ => none, [])).1 ∧ Once key T := by
  obtain ⟨T, hrun, hinv, hrep⟩ := run_spec (inv_init refcount) (represents_init refcount) hcan
  exact ⟨T, hrun, hrep, once_of_inv hinv⟩

/-! ## Items that all have the same hash -/

/-- Items with the keys 0 to 5, and another one with key 0. -/
def keyOf (a : Fin 7) : Fin 6 := Fin.ofNat 6 a

def sameHash (_ : Fin 6) : UInt32 := 0

instance (T : Table (Fin 7)) (a : Fin 7) : Decidable (T.Stored keyOf sameHash a) :=
  inferInstanceAs (Decidable (∃ i, a ∈ (T.buckets (bucketOf (sameHash (keyOf a)))).items i))

instance (T : Table (Fin 7)) (a : Fin 7) : Decidable (T.Ready keyOf sameHash a) :=
  decidable_of_iff (¬ T.Stored keyOf sameHash a ∧ T.refcount a ≠ 0 ∧ T.refcount a ≠ 65535)
    ⟨fun h => ⟨h.1, h.2.1, h.2.2⟩, fun h => ⟨h.not_stored, h.held, h.room⟩⟩

instance (b : Bucket (Fin 7)) (a : Fin 7) : Decidable (b.Chained a) :=
  inferInstanceAs (Decidable (a ∈ (b.items last).tail))

instance (T : Table (Fin 7)) (op : Op (Fin 6) (Fin 7)) :
    Decidable (CanDo keyOf sameHash T op) :=
  match op with
  | .get k => inferInstanceAs (Decidable (∀ a, T.Stored keyOf sameHash a → keyOf a = k →
      T.refcount a ≠ 65535))
  | .put nit cas => inferInstanceAs (Decidable ((∀ c, cas = some c → keyOf c = keyOf nit →
      ¬ (T.buckets (bucketOf (sameHash (keyOf nit)))).Chained c) ∧
      (cas = none ∨ (∃ c, cas = some c ∧ keyOf c = keyOf nit ∧ T.Stored keyOf sameHash c) →
        T.Ready keyOf sameHash nit)))

/-- A bucket is filled, so that the first item is chained, and items are exchanged. -/
def exchanges : List (Op (Fin 6) (Fin 7)) :=
  [.put 0 none, .get 0, .put 6 (some 0), .get 0, .put 1 none, .put 2 none, .put 3 none,
    .put 4 none, .put 5 none, .get 0, .put 0 (some 5), .put 0 none, .get 0]

theorem table_is_map_exchanges : ∃ T, run (step keyOf sameHash) (hashtInit fun _ => 1, [])
    exchanges = some (T, [some 0, some 6, some 6, some 0]) ∧ Once keyOf T := by
  have hcan : Meets (step keyOf sameHash) (fun s op => CanDo keyOf sameHash s.1 op)
      (hashtInit fun _ => 1, []) exchanges :=
    Meets.of_meets (c := fun (s : Table (Fin 7) × List (Option (Fin 7))) op =>
      decide (CanDo keyOf sameHash s.1 op))
      (fun _ _ => of_decide_eq_true) (by decide +kernel)
  obtain ⟨T, hrun, -, honce⟩ := table_is_map (fun _ => 1) hcan
  exact ⟨T, hrun, honce⟩

/-- The item with key 0 is chained, and compare and set does not exchange it. -/
def exchangeChained : List (Op (Fin 6) (Fin 7)) :=
  [.put 0 none, .put 1 none, .put 2 none, .put 3 none, .put 4 none, .put 5 none,
    .put 6 (some 0), .get 0]

theorem chained_not_exchanged :
    (run (step keyOf sameHash) (hashtInit fun _ => 1, []) exchangeChained).map Prod.snd =
      some [some 0] ∧
    (exchangeChained.foldl (mapStep keyOf) (fun _ => none, [])).2 = [some 6] := by
  decide +kernel

end Hasht
end Floem
