import Floem.Cache.Discipline
import Floem.Cache.Turns

/-!
# What gets see of sets

A record beside the state tells which value is how old: the sets of a key are numbered in the
order in which they take effect, which is the order of their queries with `write_through` and
of their insertions with `write_back`.

* `Config.KeyValue` — the queries implement a key-value store.
* `Watch` — the record, and `stepW`, which keeps it.
* `Watch.Since` — a value is not older than the set of a number.
* `NotStale` — the claim about one state.
* `Timely` — the condition on a step: no value goes into the table that is older than one of a
  set that has already gone through the cache.
-/

namespace Floem
namespace Cache
namespace Flows

open Lib

variable {K V T σ : Type*} {N : ℕ}

/-- The queries implement a key-value store. -/
structure Config.KeyValue (cfg : Config K V σ) (lookup : σ → K → Option V) : Prop where
  read : ∀ store key, cfg.read store key = (store, lookup store key)
  write_self : ∀ store key value, lookup (cfg.write store key value) key = some value
  write_of_ne : ∀ store key key' value, key' ≠ key →
    lookup (cfg.write store key value) key' = lookup store key'

/-! ## The record -/

structure Watch (T K V : Type*) where
  /-- The value the store had at the beginning, which has number 0, and those of the sets. -/
  values : K → List (Option V)
  /-- The newest set that has gone through the cache. -/
  past : K → ℕ
  /-- The newest set that completed. -/
  done : K → ℕ
  /-- The number of the set of a thread, or 0 before it takes effect. -/
  pos : T → ℕ
  /-- The newest set that had completed when the get of a thread started. -/
  need : T → ℕ

namespace Watch

def init (lookup : K → Option V) : Watch T K V where
  values key := [lookup key]
  past _ := 0
  done _ := 0
  pos _ := 0
  need _ := 0

/-- **The value is not older** than the set with this number. -/
def Since (w : Watch T K V) (key : K) (n : ℕ) (value : Option V) : Prop :=
  value ∈ (w.values key).drop n

instance [DecidableEq V] (w : Watch T K V) (key : K) (n : ℕ) (value : Option V) :
    Decidable (w.Since key n value) :=
  inferInstanceAs (Decidable (value ∈ (w.values key).drop n))

section

variable [DecidableEq T] [DecidableEq K] (w : Watch T K V) (t : T) (key : K)

/-- The set of a thread takes effect. -/
def takes (value : V) : Watch T K V :=
  { w with
    values := Function.update w.values key (w.values key ++ [some value])
    pos := Function.update w.pos t (w.values key).length }

/-- It has gone through the cache. -/
def puts : Watch T K V :=
  { w with past := Function.update w.past key (max (w.past key) (w.pos t)) }

/-- It has completed. -/
def ends : Watch T K V :=
  { w with done := Function.update w.done key (max (w.done key) (w.pos t)) }

/-- What an instruction of a set means for the record. -/
def act (cfg : Config K V σ) (value : V) : Instr K V → Watch T K V
  | .update => if cfg.writeBack then w else w.takes t key value
  | .body (.put _) => if cfg.writeBack then (w.takes t key value).puts t key else w.puts t key
  | .cacheSet => if cfg.storable key value then w else w.puts t key
  | _ => w

/-- The record after a step from `s` to `s'`. -/
def next (cfg : Config K V σ) (s s' : State N T K V σ) : Act T K V → Watch T K V
  | .start t (.get key) => { w with need := Function.update w.need t (w.done key) }
  | .start t _ => { w with pos := Function.update w.pos t 0 }
  | .go t _ =>
      match s.jobs t with
      | some ⟨.set key value, _, i :: _⟩ =>
          if (s'.code t).isEmpty then (w.act t key cfg value i).ends t key
          else w.act t key cfg value i
      | _ => w

end
end Watch

/-- A step, with the record. -/
def stepW [DecidableEq T] [DecidableEq K] (cfg : Config K V σ)
    (x : State N T K V σ × Watch T K V) (a : Act T K V) :
    Option (State N T K V σ × Watch T K V) :=
  (step cfg x.1 a).map fun s' => (s', x.2.next cfg x.1 s' a)

/-! ## The claim and the condition -/

/-- The flows are gets and sets, and operations are done: lock attempts do not fail. -/
def Act.Plain : Act T K V → Prop
  | .start _ flow => ∀ key, flow ≠ .delete key
  | .go _ ok => ok = true

/-- **No stale hits**: when the flow of a get for a key comes to the port `out`, it has a value
of this key that is not older than any set that had completed when the get started. -/
def NotStale (x : State N T K V σ × Watch T K V) : Prop :=
  ∀ t key packet rest, x.1.jobs t = some ⟨.get key, packet, .out :: rest⟩ →
    packet.key = key ∧ ∃ value, packet.value = some value ∧
      x.2.Since key (x.2.need t) (some value)

/-- The condition on a step.  A value that goes into the table is not older than a set of its
key that has gone through the cache; a set that does not go into the table, since it is not
storable, leaves no older value there; an item that an insertion of a get finds is handed on as it
is, with its own length; and a dirty item is written back under its key and, in
the flow of a get, does not use the per-packet state. -/
def Timely (cfg : Config K V σ) (x : State N T K V σ × Watch T K V) : Act T K V → Prop
  | .start _ _ => True
  | .go t _ =>
      match x.1.jobs t with
      | some ⟨_, _, .body (.putOrGet nit) :: _⟩ =>
          ((∀ it, x.1.table.Has it → it.key ≠ nit.key) →
            x.2.Since nit.key (x.2.past nit.key) (some nit.value)) ∧
            ∀ it, x.1.table.Has it → it.key = nit.key → cfg.found nit.value it.value = it.value
      | some ⟨_, _, .body (.put nit) :: _⟩ =>
          cfg.writeBack = true ∨ x.2.Since nit.key (x.2.past nit.key) (some nit.value) ∨
            cfg.writeAlloc = false ∧ x.1.table.FullAt cfg.hash cfg.nbuckets nit.key ∧
              ∀ it, x.1.table.Has it → it.key ≠ nit.key
      | some ⟨.set key value, _, .cacheSet :: _⟩ =>
          cfg.writeBack = true ∨ cfg.storable key value = true ∨
            ∀ it, x.1.table.Has it → it.key = key → x.2.Since key (x.2.pos t) (some it.value)
      | some ⟨flow, _, .evict (some it) :: _⟩ =>
          it.evicted = 3 →
            if cfg.state then ∃ key value, flow = .set key value else cfg.pointerKey = true
      | _ => True

/-! ## Ages -/

namespace Watch

variable {w w' : Watch T K V} {key : K} {n m : ℕ} {x : Option V}

theorem Since.mono (h : w.Since key m x) (hnm : n ≤ m) : w.Since key n x :=
  List.drop_subset_drop_left _ hnm h

/-- The newest value. -/
theorem since_last (hlast : (w.values key).getLast? = some x) (hn : n < (w.values key).length) :
    w.Since key n x := by
  unfold Since
  refine List.mem_of_getLast? ?_
  rw [List.getLast?_drop, if_neg (Nat.not_le.2 hn)]
  exact hlast

theorem Since.last (h : w.Since key n x) (hn : n + 1 = (w.values key).length) :
    (w.values key).getLast? = some x := by
  unfold Since at h
  have hlen : ((w.values key).drop n).length = 1 := by rw [List.length_drop]; omega
  obtain ⟨y, hy⟩ := List.length_eq_one_iff.1 hlen
  rw [hy, List.mem_singleton] at h
  have hlast : ((w.values key).drop n).getLast? = (w.values key).getLast? := by
    rw [List.getLast?_drop, if_neg (by omega)]
  rw [← hlast, hy, h]
  rfl

/-- The value of the set with a number. -/
theorem since_of_getElem? (h : (w.values key)[n]? = some x) : w.Since key n x := by
  obtain ⟨hn, rfl⟩ := List.getElem?_eq_some_iff.1 h
  unfold Since
  rw [List.drop_eq_getElem_cons hn]
  exact List.mem_cons_self

/-- Sets are added, and go through the cache. -/
structure Grows (w w' : Watch T K V) : Prop where
  values : ∀ key, ∃ new, w'.values key = w.values key ++ new
  past : ∀ key, w.past key ≤ w'.past key

theorem Grows.since (h : Grows w w') (hs : w.Since key n x) : w'.Since key n x := by
  obtain ⟨new, hnew⟩ := h.values key
  unfold Since
  rw [hnew, List.drop_append]
  exact List.mem_append_left _ hs

end Watch
end Flows
end Cache
end Floem
