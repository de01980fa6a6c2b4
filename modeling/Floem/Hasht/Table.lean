import Mathlib

/-!
# The hash table of the memcached application

`apps/memcached_cpu_only/hashtable.c`: five items of a bucket stand in its places, with
their hashes beside them, and the others are chained behind the item in the last place.

* `Bucket`, `Table` — `hash_bucket`, and the buckets with the reference counts of the items.
* `hashtGet`, `hashtPut` — the two operations; `none` is a failed assertion.
* `Op`, `step` — sequences of operations.

An item is an object that is known by its identity.  Its key is what its bytes say, `klen`
included, and its hash is the hash of its key.
-/

namespace Floem
namespace Hasht

variable {K α : Type}

/-- `hash_bucket`, with `BUCKET_NITEMS = 5`. -/
structure Bucket (α : Type) where
  /-- The item in a place and those that `next` leads to; no items for `NULL`. -/
  items : Fin 5 → List α
  hashes : Fin 5 → UInt32

/-- The place with the chain, `BUCKET_NITEMS - 1`. -/
def last : Fin 5 := 4

namespace Bucket

/-- A bucket of zeros, as `hasht_init` leaves it. -/
def empty : Bucket α := ⟨fun _ => [], fun _ => 0⟩

/-- `b->items[i] = …` -/
def store (b : Bucket α) (i : Fin 5) (its : List α) : Bucket α :=
  { b with items := Function.update b.items i its }

/-- `b->hashes[i] = …` -/
def setHash (b : Bucket α) (i : Fin 5) (hv : UInt32) : Bucket α :=
  { b with hashes := Function.update b.hashes i hv }

section

variable (b : Bucket α) (i : Fin 5) (its : List α) (hv : UInt32)

@[simp] theorem store_items_self : (b.store i its).items i = its := Function.update_self ..

theorem store_items_of_ne {j : Fin 5} (h : j ≠ i) : (b.store i its).items j = b.items j :=
  Function.update_of_ne h ..

@[simp] theorem store_hashes : (b.store i its).hashes = b.hashes := rfl

@[simp] theorem setHash_items : (b.setHash i hv).items = b.items := rfl

end
end Bucket

/-- The buckets, the reference counts, and the items that were given to `ialloc_free`. -/
structure Table (α : Type) where
  buckets : ℕ → Bucket α
  refcount : α → UInt16
  freed : List α

/-- The table after `hasht_init`. -/
def hashtInit (refcount : α → UInt16) : Table α := ⟨fun _ => .empty, refcount, []⟩

/-- `hv % nbuckets`, with `HASHTABLE_POWER = 15`. -/
def bucketOf (hv : UInt32) : ℕ := hv.toNat % 2 ^ 15

section

variable [DecidableEq K] (key : α → K) (hash : K → UInt32)

/-- The loop over the places, up to the one whose item has the key. -/
def Bucket.find (b : Bucket α) (k : K) (hv : UInt32) : Option (Fin 5 × α) :=
  (List.finRange 5).findSome? fun i =>
    match b.items i with
    | [] => none
    | it :: _ => if b.hashes i = hv ∧ key it = k then some (i, it) else none

/-- `di`, if `has_direct`: the last empty place that the loop sees. -/
def Bucket.direct (b : Bucket α) : Option (Fin 5) :=
  (List.finRange 5).reverse.find? fun i => (b.items i).isEmpty

/-- The `while` loop over a chain: what it passes, the item it ends at, and what is behind
that. -/
def walk (k : K) (hv : UInt32) : List α → Option (List α × α × List α)
  | [] => none
  | it :: its =>
    if hash (key it) = hv ∧ key it = k then some ([], it, its)
    else (walk k hv its).map fun r => (it :: r.1, r.2)

namespace Table

variable [DecidableEq α] (T : Table α)

/-- `item_ref` -/
def itemRef (it : α) : Option (Table α) := do
  let c := T.refcount it + 1
  guard (c ≠ 1)
  return { T with refcount := Function.update T.refcount it c }

/-- `item_unref` -/
def itemUnref (it : α) : Option (Table α) := do
  guard (0 < T.refcount it)
  let c := T.refcount it - 1
  return { T with
    refcount := Function.update T.refcount it c, freed := if c = 0 then it :: T.freed else T.freed }

/-- What is done to a bucket. -/
def setBucket (idx : ℕ) (b : Bucket α) : Table α :=
  { T with buckets := Function.update T.buckets idx b }

/-- `hasht_get` -/
def hashtGet (k : K) : Option (Table α × Option α) :=
  let hv := hash k
  let b := T.buckets (bucketOf hv)
  let it := ((b.find key k hv).map Prod.snd).or
    ((walk key hash k hv (b.items last).tail).map fun r => r.2.1)
  match it with
  | none => some (T, none)
  | some it => do
    let T ← T.itemRef it
    return (T, some it)

/-- The end of `hasht_put`: the item is stuck in where there is room. -/
def insert (nit : α) : Table α :=
  let hv := hash (key nit)
  let b := T.buckets (bucketOf hv)
  let di := b.direct.getD last
  T.setBucket (bucketOf hv) ((b.store di (nit :: b.items di)).setHash di hv)

/-- `hasht_put` -/
def hashtPut (nit : α) (cas : Option α) : Option (Table α) :=
  let k := key nit
  let hv := hash k
  let idx := bucketOf hv
  let b := T.buckets idx
  match b.find key k hv with
  | some (i, it) =>
    -- compare and set
    if cas ≠ none ∧ cas ≠ some it then some T
    else do
      guard (nit ≠ it)
      let T ← T.itemRef nit
      (T.setBucket idx (b.store i (nit :: (b.items i).tail))).itemUnref it
  | none =>
    if cas ≠ none then some T
    else do
      let T ← T.itemRef nit
      match b.items last with
      | [] => return T.insert key hash nit
      | head :: chain =>
        match walk key hash k hv chain with
        | some (before, it, after) =>
          (T.setBucket idx (b.store last (head :: before ++ nit :: after))).itemUnref it
        | none => return T.insert key hash nit

end Table

/-- An operation of the application. -/
inductive Op (K α : Type)
  | get (k : K)
  | put (nit : α) (cas : Option α)

variable [DecidableEq α]

/-- An operation on the table, with what the calls of `hasht_get` have returned so far. -/
def step (s : Table α × List (Option α)) : Op K α → Option (Table α × List (Option α))
  | .get k => (s.1.hashtGet key hash k).map fun r => (r.1, s.2 ++ [r.2])
  | .put nit cas => (s.1.hashtPut key hash nit cas).map fun T => (T, s.2)

end
end Hasht
end Floem
