import Floem.Lib.Run
import Floem.Cache.Items

/-!
# The flows of a cache

The elements of `floem/cache.py`, put together as `GetComposite`, `SetWriteBack` and
`SetWriteThrough` are, and run by any number of threads.

* `Instr` — what is left of a flow is a list of instructions, and an element replaces its own
  instruction by those that follow from what it finds.
* `Config` — the choices with which the cache is generated, and the queries.
* `step` — one step of one thread: a lock attempt, the body of an operation under its lock, or
  an element.
* `Event` — what happens to the items, for the record.
-/

namespace Floem
namespace Cache
namespace Flows

open Lib

variable {K V T σ : Type*} {N : ℕ}

/-! ## Instructions -/

/-- The operations on the table; an item is allocated by then. -/
inductive Op (K V : Type*)
  | get (key : K)
  | put (nit : Item K V)
  | putOrGet (nit : Item K V)
  | delete (key : K)

def Op.key : Op K V → K
  | .get key => key
  | .put nit => nit.key
  | .putOrGet nit => nit.key
  | .delete key => key

/-- The fields of the per-packet state, or the arguments that are handed on. -/
structure Packet (K V : Type*) where
  key : K
  value : Option V

inductive Instr (K V : Type*)
  /-- The attempt of an operation to get its lock. -/
  | lock (op : Op K V)
  /-- The operation under the lock. -/
  | body (op : Op K V)
  /-- The rest of the element, with what the operation returned. -/
  | ret (op : Op K V) (it : Option (Item K V))
  /-- The query of a get, from `query_begin` to `query_end`. -/
  | query
  /-- The query of a set, for the fields of the packet. -/
  | update
  /-- The query of a set, for arguments. -/
  | write (key : K) (value : V)
  /-- The port `out` of the composite. -/
  | out
  | cacheSet
  | cacheSetGet
  /-- `Evict`, with `state->cache_item`. -/
  | evict (it : Option (Item K V))
  | evictSave (it : Item K V)
  | evictRevert (saved : Packet K V)
  | free (it : Option (Item K V))
  | freeOrRelease (it : Option (Item K V))
  /-- `cache_release(it)` -/
  | release (it : Item K V)
  /-- `shared_mm_free(it)` -/
  | dispose (it : Item K V)

/-- The requests; a delete is a flow that consists of `CacheDelete`. -/
inductive Flow (K V : Type*)
  | get (key : K)
  | set (key : K) (value : V)
  | delete (key : K)

/-- A flow of a thread. -/
structure Job (K V : Type*) where
  flow : Flow K V
  packet : Packet K V
  code : List (Instr K V)

/-- The instructions that an element leaves come first. -/
def Job.push (j : Job K V) (code : List (Instr K V)) : Job K V := { j with code := code ++ j.code }

/-! ## What is generated -/

/-- The parameters of `cache_default`, and the queries of the program. -/
structure Config (K V σ : Type*) where
  version : Version K V
  /-- `jenkins_hash`, or the hash that comes with the packet. -/
  hash : K → UInt32
  /-- `n_hashes` -/
  nbuckets : ℕ
  /-- `write_policy == write_back` -/
  writeBack : Bool
  /-- `write_miss == write_alloc` -/
  writeAlloc : Bool
  /-- The assertion of `cache_default`. -/
  back_alloc : writeBack = true → writeAlloc = true
  /-- Per-packet state is used. -/
  state : Bool
  /-- `common.is_pointer(key_type)` -/
  pointerKey : Bool
  /-- The key that the pointer to the content of an item is taken for. -/
  ofPointer : ℕ → K
  /-- `var_size` -/
  varSize : Bool
  /-- The first value, with the `last_vallen` of the second one. -/
  withVallen : V → V → V
  /-- `keylen > 0 && last_vallen > 0` -/
  storable : K → V → Bool
  /-- The query of a get; it may not reach its end. -/
  read : σ → K → σ × Option V
  /-- The query of a set. -/
  write : σ → K → V → σ

namespace Config

variable (cfg : Config K V σ)

/-- The bucket of a key. -/
def index (key : K) : ℕ := bucketOf cfg.nbuckets (cfg.hash key)

/-- The code of a flow. -/
def start : Flow K V → Job K V
  | .get key => ⟨.get key, ⟨key, none⟩, [.lock (.get key)]⟩
  | .set key value =>
      ⟨.set key value, ⟨key, some value⟩,
        if cfg.writeBack then [.cacheSet]
        else [.lock (.delete key), .update, .out, .cacheSet]⟩
  | .delete key => ⟨.delete key, ⟨key, none⟩, [.lock (.delete key)]⟩

/-- `SetWriteBack`, behind `CacheSet`. -/
def afterSet (it : Option (Item K V)) : List (Instr K V) := [.evict it, .free it, .out]

/-- `GetComposite`, behind `CacheSetGet`. -/
def afterGet (it : Option (Item K V)) : List (Instr K V) :=
  (if cfg.writeBack then [.evict it] else []) ++ [.out, .freeOrRelease it]

/-- An element whose operation did not get its lock. -/
def failed (j : Job K V) : Op K V → Job K V
  | .get _ =>
      -- without per-packet state the switch goes on to `case true: miss(key)`
      if cfg.state then { j with code := [] } else j.push [.query]
  | .put _ => { j with code := [] }
  | .putOrGet _ => j.push (cfg.afterGet none)
  | .delete _ => { j with code := [] }

/-- What `CacheSetGet` hands on of an item that it finds: without per-packet state `val_assign_src`
sets the values, but `last_vallen` stays the one of the query. -/
def found (queried value : V) : V :=
  if cfg.varSize && !cfg.state then cfg.withVallen value queried else value

/-- An element whose operation returned. -/
def returned (j : Job K V) : Op K V → Option (Item K V) → Job K V
  | .get _, some it =>
      { j with packet := { j.packet with value := some it.value } }.push
        [.out, .freeOrRelease (some it)]
  | .get _, none => { j with packet := { j.packet with value := none } }.push [.query]
  | .put _, some rit =>
      if cfg.writeBack then
        if rit.evicted &&& 2 ≠ 0 then j.push (afterSet (some rit))
        else j.push (.release rit :: afterSet none)
      else if rit.evicted &&& 2 ≠ 0 then j.push [.release rit, .dispose rit]
      else j.push [.release rit]
  | .put _, none => if cfg.writeBack then j.push (afterSet none) else j
  | .putOrGet nit, some rit =>
      if rit.evicted = 2 then j.push ([.release rit, .dispose rit] ++ cfg.afterGet none)
      else if rit.evicted = 3 then j.push (cfg.afterGet (some rit))
      else
        { j with packet := ⟨if cfg.state then rit.key else j.packet.key,
            some (cfg.found nit.value rit.value)⟩ }.push
          (cfg.afterGet (some rit))
  | .putOrGet _, none => j.push (cfg.afterGet none)
  | .delete _, _ => j

/-- The key that `Evict` gives out without per-packet state: `(int*) it->content`. -/
def evictKey (it : Item K V) : K := if cfg.pointerKey then it.key else cfg.ofPointer it.addr

/-- A new item. -/
def alloc (addr : ℕ) (key : K) (value : V) : Item K V := ⟨addr, none, cfg.hash key, key, value, 0⟩

/-- The operation on the table. -/
def call [DecidableEq K] (table : Table N K V) : Op K V → Option (Outcome (Table N K V) K V)
  | .get key => some (table.get cfg.version cfg.nbuckets key (cfg.hash key))
  | .put nit => table.put cfg.version cfg.nbuckets nit cfg.writeAlloc
  | .putOrGet nit => table.putOrGet cfg.version cfg.nbuckets nit true
  | .delete key => table.delete cfg.version cfg.nbuckets key (cfg.hash key)

end Config

/-! ## Steps -/

/-- What happens to the items. -/
inductive Event (K V : Type*)
  | stored (addr : ℕ) (key : K) (value : V) (bySet : Bool)
  /-- An insertion of the same key took the place of the item. -/
  | overwritten (addr : ℕ)
  /-- A deletion of its key. -/
  | deleted (addr : ℕ)
  /-- `Evict` gave out the item at `addr`. -/
  | evicted (addr : ℕ) (flags : UInt8) (key : K) (value : V)
  | freed (addr : ℕ)

/-- An operation on `key` frees items, and says so of those of this key. -/
def frees [DecidableEq K] (key : K) (tells : ℕ → Event K V) (freed : List (Item K V)) :
    List (Event K V) :=
  freed.flatMap fun it => .freed it.addr :: if it.key = key then [tells it.addr] else []

/-- The events of an operation, the newest first. -/
def events [DecidableEq K] (o : Outcome (Table N K V) K V) : Op K V → List (Event K V)
  | .get _ => []
  | .put nit =>
      (if o.ret.isSome then [.stored nit.addr nit.key nit.value true] else []) ++
        frees nit.key .overwritten o.freed
  | .putOrGet nit =>
      (if o.freed.isEmpty then [.stored nit.addr nit.key nit.value false] else []) ++
        o.freed.map fun it => .freed it.addr
  | .delete key => frees key .deleted o.freed

structure State (N : ℕ) (T K V σ : Type*) where
  table : Table N K V
  /-- Who holds the lock of a bucket. -/
  lock : ℕ → Option T
  /-- The next address `malloc` returns. -/
  fresh : ℕ
  jobs : T → Option (Job K V)
  /-- The state of the queries. -/
  store : σ
  /-- What came to the port `out`, the newest first. -/
  outs : List (T × Flow K V × Packet K V)
  /-- What happened to the items, the newest first. -/
  log : List (Event K V)

def State.init (store : σ) : State N T K V σ where
  table _ := Bucket.empty
  lock _ := none
  fresh := 0
  jobs _ := none
  store := store
  outs := []
  log := []

/-- What a thread has to do. -/
def State.code (s : State N T K V σ) (t : T) : List (Instr K V) :=
  match s.jobs t with
  | none => []
  | some j => j.code

inductive Act (T K V : Type*)
  | start (t : T) (flow : Flow K V)
  /-- `ok` is the outcome of a lock attempt. -/
  | go (t : T) (ok : Bool)

section

variable [DecidableEq T]

def State.goto (s : State N T K V σ) (t : T) (j : Job K V) : State N T K V σ :=
  { s with jobs := Function.update s.jobs t (some j) }

variable [DecidableEq K] (cfg : Config K V σ)

/-- A thread does an instruction, and `j` is the rest of its flow. -/
def exec (s : State N T K V σ) (t : T) (j : Job K V) (ok : Bool) :
    Instr K V → Option (State N T K V σ)
  | .lock op =>
      if ok then
        if s.lock (cfg.index op.key) = none then
          some
            ({ s with lock := Function.update s.lock (cfg.index op.key) (some t) }.goto t
              (j.push [.body op]))
        else none
      else some (s.goto t (cfg.failed j op))
  | .body op =>
      (cfg.call s.table op).map fun o =>
        { s with
          table := o.state
          lock := if o.unlock then Function.update s.lock (cfg.index op.key) none else s.lock
          log := events o op ++ s.log }.goto t (j.push [.ret op o.ret])
  | .ret op it => some (s.goto t (cfg.returned j op it))
  | .query =>
      let r := cfg.read s.store j.packet.key
      match r.2 with
      | some value =>
          some
            ({ s with store := r.1 }.goto t
              ({ j with packet := { j.packet with value := some value } }.push [.cacheSetGet]))
      | none => some ({ s with store := r.1 }.goto t { j with code := [] })
  | .update =>
      match j.packet.value with
      | some value =>
          some ({ s with store := cfg.write s.store j.packet.key value }.goto t j)
      | none => some (s.goto t j)
  | .write key value => some ({ s with store := cfg.write s.store key value }.goto t j)
  | .out => some ({ s with outs := (t, j.flow, j.packet) :: s.outs }.goto t j)
  | .cacheSet =>
      match j.packet.value with
      | some value =>
          if cfg.storable j.packet.key value then
            some
              ({ s with fresh := s.fresh + 1 }.goto t
                (j.push [.lock (.put (cfg.alloc s.fresh j.packet.key value))]))
          else some (s.goto t { j with code := [] })
      | none => some (s.goto t { j with code := [] })
  | .cacheSetGet =>
      match j.packet.value with
      | some value =>
          if cfg.storable j.packet.key value then
            some
              ({ s with fresh := s.fresh + 1 }.goto t
                (j.push [.lock (.putOrGet (cfg.alloc s.fresh j.packet.key value))]))
          else some (s.goto t (j.push (cfg.afterGet none)))
      | none => some (s.goto t (j.push (cfg.afterGet none)))
  | .evict (some it) =>
      if it.evicted = 3 then
        if cfg.state then
          some
            ({ s with log := .evicted it.addr it.evicted it.key it.value :: s.log }.goto t
              ({ j with packet := ⟨it.key, some it.value⟩ }.push [.evictSave it]))
        else
          some
            ({ s with log := .evicted it.addr it.evicted (cfg.evictKey it) it.value :: s.log }.goto t
              (j.push [.write (cfg.evictKey it) it.value]))
      else some (s.goto t j)
  | .evict none => some (s.goto t j)
  | .evictSave it =>
      some
        (s.goto t
          ({ j with packet := ⟨it.key, some it.value⟩ }.push [.update, .evictRevert j.packet]))
  | .evictRevert saved => some (s.goto t { j with packet := saved })
  | .free (some it) =>
      some (s.goto t (j.push (if it.evicted &&& 2 ≠ 0 then [.release it, .dispose it] else [])))
  | .free none => some (s.goto t j)
  | .freeOrRelease (some it) =>
      some
        (s.goto t
          (j.push (if it.evicted &&& 2 ≠ 0 then [.release it, .dispose it] else [.release it])))
  | .freeOrRelease none => some (s.goto t j)
  | .release it =>
      -- `lock_unlock(&it->bucket->lock)`
      it.bucket.bind fun idx =>
        if s.lock idx = some t then
          some ({ s with lock := Function.update s.lock idx none }.goto t j)
        else none
  | .dispose it => some ({ s with log := .freed it.addr :: s.log }.goto t j)

/-- One step of one thread. -/
def step (s : State N T K V σ) : Act T K V → Option (State N T K V σ)
  | .start t flow => if (s.code t).isEmpty then some (s.goto t (cfg.start flow)) else none
  | .go t ok =>
      match s.jobs t with
      | none => none
      | some j =>
          match j.code with
          | [] => none
          | i :: rest => exec cfg s t { j with code := rest } ok i

end
end Flows
end Cache
end Floem
