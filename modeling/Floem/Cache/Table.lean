import Mathlib

/-!
# The hash table of a cache

`floem/include/cache.h` and `floem/include_cavium/floem-cache.c`, on one bucket whose lock
the caller has just taken.

* `Item`, `Bucket` — `citem` and `cache_bucket`; keys and values are of any type, since the
  table only compares keys.
* `Version` — what the CPU and the Cavium do differently.
* `cacheGet`, `cachePut`, `cachePutOrGet`, `cacheDelete` — the four operations; `none` is a
  failed assertion or an access through a null pointer.
* `Table` — the buckets, found by `hv % nbuckets`.
-/

namespace Floem
namespace Cache

variable {K V : Type*} {N : ℕ}

/-! ## Items and buckets -/

/-- `citem`, but for `next`; `keylen` and the bytes of the key are one key. -/
structure Item (K V : Type*) where
  /-- The address of the item. -/
  addr : ℕ
  /-- The number of the bucket `bucket` points to, once it is set. -/
  bucket : Option ℕ
  hv : UInt32
  key : K
  value : V
  evicted : UInt8

/-- `cache_bucket`, with `BUCKET_NITEMS = N + 1`; the lock is kept by its user. -/
structure Bucket (N : ℕ) (K V : Type*) where
  /-- The item in a place and those that `next` leads to; no items for `NULL`. -/
  items : Fin (N + 1) → List (Item K V)
  hashes : Fin (N + 1) → UInt32
  replace : Fin (N + 1)

namespace Bucket

/-- A bucket of zeros, as `cache_init` leaves it. -/
def empty : Bucket N K V := ⟨fun _ => [], fun _ => 0, 0⟩

/-- `b->items[i] = …` -/
def store (b : Bucket N K V) (i : Fin (N + 1)) (its : List (Item K V)) : Bucket N K V :=
  { b with items := Function.update b.items i its }

/-- `b->hashes[i] = …` -/
def setHash (b : Bucket N K V) (i : Fin (N + 1)) (hv : UInt32) : Bucket N K V :=
  { b with hashes := Function.update b.hashes i hv }

/-- `b->replace = (b->replace + 1) % BUCKET_NITEMS` -/
def advance (b : Bucket N K V) : Bucket N K V := { b with replace := b.replace + 1 }

end Bucket

/-- What an operation leaves. -/
structure Outcome (S K V : Type*) where
  state : S
  /-- The item it returns. -/
  ret : Option (Item K V)
  /-- It gave the lock back. -/
  unlock : Bool
  /-- The items it freed. -/
  freed : List (Item K V)

/-- The places in which the two versions differ. -/
structure Version (K V : Type*) where
  /-- The search behind the item in the last place: what it passes, the item it ends at, and
  what is behind that. -/
  walk : K → UInt32 → List (Item K V) → Option (List (Item K V) × Item K V × List (Item K V))
  /-- `nit->next`, where `nit` is put into a place that holds these items. -/
  link : List (Item K V) → Item K V → Option (List (Item K V))

section

variable [DecidableEq K]

/-- `citem_hkey_matches`; `citem_key_matches` compares the keys only. -/
def Item.hkeyMatches (it : Item K V) (key : K) (hv : UInt32) : Bool :=
  it.hv = hv && it.key = key

/-- The `while` loop of `cache.h`. -/
def Cpu.walk (key : K) (hv : UInt32) :
    List (Item K V) → Option (List (Item K V) × Item K V × List (Item K V))
  | [] => none
  | it :: its =>
      if it.hkeyMatches key hv then some ([], it, its)
      else (Cpu.walk key hv its).map fun r => (it :: r.1, r.2)

/-- The version of `cache.h`. -/
def cpu : Version K V where
  walk := Cpu.walk
  link its nit := some (nit :: its)

/-- The version of `floem-cache.c`: the loops are commented out, and an insertion asserts
that the place is empty. -/
def cavium : Version K V where
  walk _ _
    | [] => none
    | it :: its => some ([], it, its)
  link its nit := if its.isEmpty then some [nit] else none

/-! ## The operations on a bucket -/

namespace Bucket

variable (ver : Version K V) (b : Bucket N K V) (key : K) (hv : UInt32)

/-- The test inside the loops over the places. -/
def matchesAt (i : Fin (N + 1)) : Bool :=
  match b.items i with
  | [] => false
  | it :: _ => b.hashes i = hv && it.key = key

/-- The loops of `cache_get` and of `cache_delete`. -/
def find : Option (Fin (N + 1)) := (List.finRange (N + 1)).find? (b.matchesAt key hv)

/-- The loop of an insertion: the place of the key, or `di` if `has_direct`. -/
def scan : List (Fin (N + 1)) → Option (Fin (N + 1)) → Fin (N + 1) ⊕ Option (Fin (N + 1))
  | [], di => .inr di
  | i :: is, di =>
      match b.items i with
      | [] => scan is (some i)
      | it :: _ => if b.hashes i = hv ∧ it.key = key then .inl i else scan is di

/-- The search behind the item in the last place. -/
def behind : Option (List (Item K V) × Item K V × List (Item K V)) :=
  match b.items (Fin.last N) with
  | [] => none
  | it :: next => (ver.walk key hv next).map fun r => (it :: r.1, r.2)

/-- `cache_get` -/
def cacheGet : Outcome (Bucket N K V) K V :=
  let it :=
    match b.find key hv with
    | some i => (b.items i).head?
    | none => (b.behind ver key hv).map fun r => r.2.1
  ⟨b, it, it.isNone, []⟩

/-- The end of an insertion: into an empty place, where `ret` is returned and the lock given
back with `NULL`, or in place of another item. -/
def insert (nit : Item K V) (replace : Bool) (ret : Option (Item K V)) :
    Option (Fin (N + 1)) → Option (Outcome (Bucket N K V) K V)
  | some di =>
      (ver.link (b.items di) nit).map fun its =>
        ⟨(b.store di its).setHash di nit.hv, ret, ret.isNone, []⟩
  | none =>
      if replace then
        match b.items b.replace with
        | [] => none
        | evict :: _ =>
            (ver.link [] nit).map fun its =>
              ⟨((b.advance.store b.replace its).setHash b.replace nit.hv),
                some { evict with evicted := evict.evicted ||| 2 }, false, []⟩
      else some ⟨b, none, true, []⟩

/-- `cache_put` into bucket number `idx`. -/
def cachePut (idx : ℕ) (nit : Item K V) (replace : Bool) :
    Option (Outcome (Bucket N K V) K V) :=
  let nit := { nit with evicted := 1, bucket := some idx }
  match b.scan nit.key nit.hv (List.finRange (N + 1)) none with
  | .inl i =>
      match b.items i with
      | [] => none
      | it :: next =>
          if nit.addr = it.addr then none
          else some ⟨b.store i (nit :: next), some nit, false, [it]⟩
  | .inr di =>
      match b.behind ver nit.key nit.hv with
      | some (prev, it, next) =>
          some ⟨b.store (Fin.last N) (prev ++ nit :: next), some nit, false, [it]⟩
      | none => b.insert ver nit replace (some nit) di

/-- `cache_put_or_get` -/
def cachePutOrGet (idx : ℕ) (nit : Item K V) (replace : Bool) :
    Option (Outcome (Bucket N K V) K V) :=
  let nit := { nit with evicted := 0 }
  match b.scan nit.key nit.hv (List.finRange (N + 1)) none with
  | .inl i =>
      match b.items i with
      | [] => none
      | it :: _ => if nit.addr = it.addr then none else some ⟨b, some it, false, [nit]⟩
  | .inr di =>
      match b.behind ver nit.key nit.hv with
      | some (_, it, _) => some ⟨b, some it, false, [nit]⟩
      | none => b.insert ver { nit with bucket := some idx } replace none di

/-- `cache_delete` -/
def cacheDelete : Option (Outcome (Bucket N K V) K V) :=
  match b.find key hv with
  | some i =>
      match b.items i with
      | [] => none
      | [it] => some ⟨b.store i [], none, true, [it]⟩
      | it :: it' :: next =>
          some ⟨(b.store i (it' :: next)).setHash i it'.hv, none, true, [it]⟩
  | none =>
      match b.behind ver key hv with
      | some (prev, it, next) =>
          some ⟨b.store (Fin.last N) (prev ++ next), none, true, [it]⟩
      | none => some ⟨b, none, true, []⟩

end Bucket

/-! ## The table -/

/-- The buckets of a table. -/
abbrev Table (N : ℕ) (K V : Type*) := ℕ → Bucket N K V

/-- `hv % nbuckets` -/
def bucketOf (nbuckets : ℕ) (hv : UInt32) : ℕ := hv.toNat % nbuckets

namespace Table

variable (ver : Version K V) (nbuckets : ℕ) (T : Table N K V)

/-- What an operation on a bucket does to the table. -/
def update (idx : ℕ) (o : Outcome (Bucket N K V) K V) : Outcome (Table N K V) K V :=
  ⟨Function.update T idx o.state, o.ret, o.unlock, o.freed⟩

def get (key : K) (hv : UInt32) : Outcome (Table N K V) K V :=
  T.update (bucketOf nbuckets hv) ((T (bucketOf nbuckets hv)).cacheGet ver key hv)

def put (nit : Item K V) (replace : Bool) : Option (Outcome (Table N K V) K V) :=
  let idx := bucketOf nbuckets nit.hv
  ((T idx).cachePut ver idx nit replace).map (T.update idx)

def putOrGet (nit : Item K V) (replace : Bool) : Option (Outcome (Table N K V) K V) :=
  let idx := bucketOf nbuckets nit.hv
  ((T idx).cachePutOrGet ver idx nit replace).map (T.update idx)

def delete (key : K) (hv : UInt32) : Option (Outcome (Table N K V) K V) :=
  let idx := bucketOf nbuckets hv
  ((T idx).cacheDelete ver key hv).map (T.update idx)

end Table
end
end Cache
end Floem
