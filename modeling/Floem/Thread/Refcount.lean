import Mathlib
import Floem.Lib.Run

/-!
# The reference count of a per-packet state

The state that a starting element allocates (`allocate_pipeline_state` of
`floem/pipeline_state.py`) is shared by the threads its packet goes through.  A write
element adds a reference for the pointer it passes on, if its port is marked as one with
a pipeline state; the read element at the other side gives up the references of its
ports when it is finished, and the starting element the one it began with
(`pipeline_ref` and `pipeline_unref` of `floem/common.py`, a load and a store each).

* `PC` — where a thread is with one such state; `owed` is the number of references it
  gives up at the end.
* `Exclusive` — the condition on a step: the port is marked, and no store of the count
  falls into the read-modify-write of another thread.
* `freed_once` — **the main theorem**: under that condition the state is freed once, and
  not before all threads are finished with it.
* `freed_too_early_or_never` — runs that break it.
-/

namespace Floem
namespace Thread
namespace Refcount

open Lib

/-- Where a thread is. -/
inductive PC
  | idle
  /-- Elements are running. -/
  | run (owed : ℕ)
  /-- `pipeline_ref`: the load. -/
  | refLoad (owed : ℕ)
  /-- `pipeline_ref`: the store, after `v` was loaded. -/
  | refStore (owed : ℕ) (v : ℤ)
  /-- The pointer is in the buffer, and its flag is to be set. -/
  | send (owed : ℕ) (pipeline : Bool)
  /-- `pipeline_unref`: the load of `s->refcount--`. -/
  | unrefLoad (owed : ℕ)
  /-- `pipeline_unref`: the store of `s->refcount--`, after `v` was loaded. -/
  | unrefStore (owed : ℕ) (v : ℤ)
  /-- `pipeline_unref`: `if(s->refcount == 0) free(s);`, with `owed` references left. -/
  | unrefTest (owed : ℕ)
  deriving DecidableEq

/-- The state, the buffers it is in, and the threads `T`. -/
structure State (T : Type*) where
  refcount : ℤ
  /-- How often the state was freed. -/
  freed : ℕ
  started : Bool
  /-- How many buffers of marked and of other ports have the pointer. -/
  messages : Bool → ℕ
  pc : T → PC

inductive Action (T : Type*)
  /-- The starting element allocates the state. -/
  | start (t : T)
  /-- A read element takes the pointer out of a buffer. -/
  | receive (t : T) (pipeline : Bool)
  /-- A write element is called, at a port that is marked or not. -/
  | write (t : T) (pipeline : Bool)
  /-- The elements are finished, and the references are given up. -/
  | finish (t : T)
  /-- The next instruction. -/
  | step (t : T)

variable {T : Type*} [DecidableEq T]

/-- Before the state is allocated. -/
def create : State T where
  refcount := 0
  freed := 0
  started := false
  messages _ := 0
  pc _ := .idle

def State.goto (s : State T) (t : T) (p : PC) : State T :=
  { s with pc := Function.update s.pc t p }

/-- The next instruction of a thread. -/
def exec (s : State T) (t : T) : Option (State T) :=
  match s.pc t with
  | .idle => none
  | .run _ => none
  | .refLoad o => some (s.goto t (.refStore o s.refcount))
  | .refStore o v => some ({ s with refcount := v + 1 }.goto t (.send o true))
  | .send o b =>
      some ({ s with messages := Function.update s.messages b (s.messages b + 1) }.goto t (.run o))
  | .unrefLoad o => some (s.goto t (.unrefStore o s.refcount))
  | .unrefStore o v => some ({ s with refcount := v - 1 }.goto t (.unrefTest (o - 1)))
  | .unrefTest o =>
      let next := if o = 0 then PC.idle else .unrefLoad o
      if s.refcount = 0 then some ({ s with freed := s.freed + 1 }.goto t next)
      else some (s.goto t next)

def step (s : State T) : Action T → Option (State T)
  | .start t =>
      match s.pc t with
      | .idle =>
          if s.started then none else some ({ s with refcount := 1, started := true }.goto t (.run 1))
      | _ => none
  | .receive t b =>
      let s' := { s with messages := Function.update s.messages b (s.messages b - 1) }
      if s.messages b = 0 then none
      else
        match s.pc t with
        | .idle => some (s'.goto t (.run b.toNat))
        | .run o => some (s'.goto t (.run (o + b.toNat)))
        | _ => none
  | .write t b =>
      match s.pc t with
      | .run o => some (s.goto t (if b then .refLoad o else .send o false))
      | _ => none
  | .finish t =>
      match s.pc t with
      | .run o => some (s.goto t (if o = 0 then .idle else .unrefLoad o))
      | _ => none
  | .step t => exec s t

/-! ## The condition -/

/-- The thread has loaded the count and is to store it. -/
def PC.loaded : PC → Option ℤ
  | .refStore _ v => some v
  | .unrefStore _ v => some v
  | _ => none

/-- The thread has given up a reference and is to look at the count. -/
def PC.testing : PC → Bool
  | .unrefTest _ => true
  | _ => false

/-- The condition on a step. -/
def Exclusive (s : State T) : Action T → Prop
  | .write _ b => b = true
  | .step t =>
      match s.pc t with
      | .refStore _ _ => ∀ u, u ≠ t → (s.pc u).loaded = none
      | .unrefStore _ v => (∀ u, u ≠ t → (s.pc u).loaded = none) ∧
          (v = 1 → ∀ u, u ≠ t → (s.pc u).testing = false)
      | _ => True
  | _ => True

/-! ## What is promised -/

/-- The state is freed once, when nobody has it any more. -/
structure Safe (s : State T) : Prop where
  once : s.freed ≤ 1
  /-- As long as a thread works with the pointer (it runs elements, passes the state on, or
  reads or writes the count) or a buffer has it, the state is not freed. -/
  alive : ((∃ t, s.pc t ≠ .idle) ∨ ∃ b, s.messages b ≠ 0) → s.freed = 0
  /-- When all threads are finished it is freed. -/
  finished : s.started → (∀ t, s.pc t = .idle) → (∀ b, s.messages b = 0) → s.freed = 1

/-! ## The invariant -/

/-- The references a thread has. -/
def PC.refs : PC → ℕ
  | .idle => 0
  | .run o => o
  | .refLoad o => o
  | .refStore o _ => o
  | .send o b => o + b.toNat
  | .unrefLoad o => o
  | .unrefStore o _ => o
  | .unrefTest o => o

/-- A thread that runs has a reference. -/
def PC.Ok : PC → Prop
  | .idle => True
  | .send o b => 1 ≤ o ∧ b = true
  | .unrefTest _ => True
  | p => 1 ≤ p.refs

variable [Fintype T]

structure Inv (s : State T) : Prop where
  /-- The count is the number of references. -/
  count : s.refcount = s.messages true + ∑ t, (s.pc t).refs
  unmarked : s.messages false = 0
  ok : ∀ t, (s.pc t).Ok
  /-- What a thread has loaded is still the count. -/
  loaded : ∀ t v, (s.pc t).loaded = some v → v = s.refcount
  fresh : s.started = false → s.freed = 0 ∧ s.refcount = 0 ∧ ∀ t, s.pc t = .idle
  used : s.refcount ≠ 0 → s.freed = 0
  /-- The last reference was given up by a thread that is about to see it, or has freed
  the state. -/
  last : s.started = true → s.refcount = 0 →
    s.freed = 1 ∧ (∀ t, s.pc t = .idle) ∨
      s.freed = 0 ∧ ∃ t, s.pc t = .unrefTest 0 ∧ ∀ u, u ≠ t → s.pc u = .idle

variable {s s' : State T}

theorem sum_goto (s : State T) (t : T) (p : PC) :
    (∑ u, ((s.goto t p).pc u).refs) + (s.pc t).refs = (∑ u, (s.pc u).refs) + p.refs := by
  have hupdate : (fun u => ((s.goto t p).pc u).refs) =
      Function.update (fun u => (s.pc u).refs) t p.refs := by
    funext u
    by_cases hu : u = t
    · subst hu; simp [State.goto]
    · simp [State.goto, hu]
  rw [hupdate, Finset.sum_update_of_mem (Finset.mem_univ t)]
  have hsplit := Finset.sum_sdiff (Finset.subset_univ {t}) (f := fun u => (s.pc u).refs)
  rw [Finset.sum_singleton] at hsplit
  omega

omit [DecidableEq T] in
/-- Where the count is zero nobody has a reference. -/
theorem Inv.refs_zero (hI : Inv s) (h : s.refcount = 0) :
    s.messages true = 0 ∧ ∀ t, (s.pc t).refs = 0 := by
  have hcount := hI.count
  rw [h] at hcount
  have hzero : s.messages true + ∑ t, (s.pc t).refs = 0 := by exact_mod_cast hcount.symm
  obtain ⟨hm, hsum⟩ := Nat.add_eq_zero_iff.1 hzero
  exact ⟨hm, fun t => Finset.sum_eq_zero_iff.1 hsum t (Finset.mem_univ t)⟩

omit [DecidableEq T] in
/-- A thread that has a reference finds the state in use. -/
theorem Inv.refcount_ne (hI : Inv s) {t : T} (h : (s.pc t).refs ≠ 0) : s.refcount ≠ 0 :=
  fun hzero => h ((hI.refs_zero hzero).2 t)

omit [DecidableEq T] in
theorem Inv.started_of_ne (hI : Inv s) (h : s.refcount ≠ 0) : s.started = true := by
  by_contra hs
  exact h (hI.fresh (by simpa using hs)).2.1

/-- A step after which the state is in use. -/
theorem inv_change (hI : Inv s) {t : T} {p : PC} (hpc : s'.pc = (s.goto t p).pc)
    (hfreed : s'.freed = 0) (hstarted : s'.started = true) (hne : s'.refcount ≠ 0)
    (hcount : s'.refcount - s.refcount = s'.messages true - s.messages true + p.refs - (s.pc t).refs)
    (hunmarked : s'.messages false = 0) (hok : p.Ok)
    (hloaded : ∀ v, p.loaded = some v → v = s'.refcount)
    (hothers : s'.refcount = s.refcount ∨ ∀ u, u ≠ t → (s.pc u).loaded = none) : Inv s' := by
  have hpc' : ∀ u, s'.pc u = if u = t then p else s.pc u := fun u => by
    rw [hpc]
    simp [State.goto, Function.update_apply]
  constructor
  · have hsum := sum_goto s t p
    have := hI.count
    rw [hpc]
    omega
  · exact hunmarked
  · intro u
    rw [hpc']
    split_ifs
    · exact hok
    · exact hI.ok u
  · intro u v hv
    rw [hpc'] at hv
    split_ifs at hv with hu
    · exact hloaded v hv
    · rcases hothers with hsame | hnone
      · rw [hsame]
        exact hI.loaded u v hv
      · rw [hnone u hu] at hv
        cases hv
  · intro h
    rw [hstarted] at h
    cases h
  · exact fun _ => hfreed
  · exact fun _ h => absurd h hne

/-! ## The instructions -/

/-- A thread that has a reference goes on and has as many. -/
theorem inv_goto (hI : Inv s) {t : T} {p : PC} (hrefs : (s.pc t).refs ≠ 0)
    (hsame : p.refs = (s.pc t).refs) (hok : p.Ok)
    (hloaded : ∀ v, p.loaded = some v → v = s.refcount) : Inv (s.goto t p) := by
  have hne := hI.refcount_ne hrefs
  refine inv_change hI rfl (hI.used hne) (hI.started_of_ne hne) hne ?_ hI.unmarked hok hloaded
    (Or.inl rfl)
  rw [hsame]
  show s.refcount - s.refcount = s.messages true - s.messages true + _ - _
  omega

/-- The last reference is given up. -/
theorem inv_last (hI : Inv s) {t : T} {o : ℕ} {v : ℤ} (hpc : s.pc t = .unrefStore o v)
    (hexclusive : Exclusive s (.step t)) (hzero : v - 1 = 0) :
    Inv ({ s with refcount := v - 1 }.goto t (.unrefTest (o - 1))) := by
  have hok := hI.ok t
  rw [hpc] at hok
  have hv := hI.loaded t v (by rw [hpc]; rfl)
  have hrefs : (s.pc t).refs = o := by rw [hpc]; rfl
  have ho : 1 ≤ o := hok
  have hne : s.refcount ≠ 0 := hI.refcount_ne (t := t) (by omega)
  simp only [Exclusive, hpc] at hexclusive
  obtain ⟨-, htest⟩ := hexclusive
  -- the only reference was that of `t`
  have hsum := sum_goto s t (.unrefTest (o - 1))
  have hcount := hI.count
  have hone : s.messages true = 0 ∧ (∑ u, ((s.goto t (.unrefTest (o - 1))).pc u).refs) = 0 := by
    rw [hrefs] at hsum
    change _ + o = _ + (o - 1) at hsum
    omega
  have hothers : ∀ u, u ≠ t → s.pc u = .idle := fun u hu => by
    have hu0 := Finset.sum_eq_zero_iff.1 hone.2 u (Finset.mem_univ u)
    simp only [State.goto, Function.update_of_ne hu] at hu0
    have huok := hI.ok u
    cases hpcu : s.pc u <;> simp only [hpcu, PC.refs, PC.Ok] at hu0 huok
    · rfl
    · omega
    · omega
    · omega
    · omega
    · omega
    · omega
    · have hnot := htest (by omega) u hu
      rw [hpcu] at hnot
      cases hnot
  have hpc' : ∀ u, ({ s with refcount := v - 1 }.goto t (.unrefTest (o - 1))).pc u =
      if u = t then .unrefTest (o - 1) else .idle := fun u => by
    by_cases hu : u = t
    · subst hu; simp [State.goto]
    · simp [State.goto, hu, hothers u hu]
  have hlast : o - 1 = 0 := by
    have := Finset.sum_eq_zero_iff.1 hone.2 t (Finset.mem_univ t)
    simpa [State.goto, PC.refs] using this
  constructor
  · show v - 1 = (s.messages true : ℤ) + ((∑ u, ((s.goto t (.unrefTest (o - 1))).pc u).refs : ℕ) : ℤ)
    rw [hone.1, hone.2, hzero]
    rfl
  · exact hI.unmarked
  · intro u
    rw [hpc']
    split_ifs <;> trivial
  · intro u w hw
    rw [hpc'] at hw
    split_ifs at hw <;> cases hw
  · intro h
    have := hI.started_of_ne hne
    exact absurd (this.symm.trans h) (by decide)
  · exact fun h => absurd hzero h
  · refine fun _ _ => Or.inr ⟨hI.used hne, t, ?_, fun u hu => ?_⟩
    · rw [hpc', if_pos rfl, hlast]
    · rw [hpc', if_neg hu]

/-- The thread that gave up the last reference frees the state. -/
theorem inv_free (hI : Inv s) {t : T} {o : ℕ} (hpc : s.pc t = .unrefTest o)
    (hzero : s.refcount = 0) :
    Inv ({ s with freed := s.freed + 1 }.goto t (if o = 0 then .idle else .unrefLoad o)) := by
  have ho : o = 0 := by
    have := (hI.refs_zero hzero).2 t
    rwa [hpc] at this
  have hstarted : s.started = true := by
    by_contra hs
    have := (hI.fresh (by simpa using hs)).2.2 t
    rw [hpc] at this
    cases this
  subst ho
  rcases hI.last hstarted hzero with ⟨-, hidle⟩ | ⟨hfreed, u, hu, hothers⟩
  · rw [hidle t] at hpc
    cases hpc
  have hut : t = u := by
    by_contra hne
    rw [hothers t hne] at hpc
    cases hpc
  subst hut
  have hpc' : ∀ u, ({ s with freed := s.freed + 1 }.goto t PC.idle).pc u = .idle := fun u => by
    by_cases hu : u = t
    · subst hu; simp [State.goto]
    · simp [State.goto, hu, hothers u hu]
  rw [if_pos rfl]
  constructor
  · have hcount := hI.count
    have hm := (hI.refs_zero hzero).1
    have hsum : (∑ u, (({ s with freed := s.freed + 1 }.goto t PC.idle).pc u).refs) = 0 :=
      Finset.sum_eq_zero fun u _ => by rw [hpc']; rfl
    rw [hsum]
    show s.refcount = (s.messages true : ℤ) + ((0 : ℕ) : ℤ)
    rw [hzero, hm]
    rfl
  · exact hI.unmarked
  · intro u
    rw [hpc']
    trivial
  · intro u v hv
    rw [hpc'] at hv
    cases hv
  · intro h
    exact absurd (hstarted.symm.trans h) (by decide)
  · exact fun h => absurd hzero h
  · refine fun _ _ => Or.inl ⟨?_, hpc'⟩
    show s.freed + 1 = 1
    rw [hfreed]

theorem inv_exec (hI : Inv s) {t : T} (hexclusive : Exclusive s (.step t))
    (h : exec s t = some s') : Inv s' := by
  have hok := hI.ok t
  have hloaded := hI.loaded t
  unfold exec at h
  cases hpc : s.pc t with
  | idle => simp [hpc] at h
  | run o => simp [hpc] at h
  | refLoad o =>
      rw [hpc] at hok
      simp only [hpc] at h
      obtain rfl := Option.some.inj h
      refine inv_goto hI ?_ (by rw [hpc]; rfl) hok fun v hv => (Option.some.inj hv).symm
      rw [hpc]
      exact Nat.one_le_iff_ne_zero.1 hok
  | unrefLoad o =>
      rw [hpc] at hok
      simp only [hpc] at h
      obtain rfl := Option.some.inj h
      refine inv_goto hI ?_ (by rw [hpc]; rfl) hok fun v hv => (Option.some.inj hv).symm
      rw [hpc]
      exact Nat.one_le_iff_ne_zero.1 hok
  | refStore o v =>
      rw [hpc] at hok hloaded
      simp only [hpc] at h
      obtain rfl := Option.some.inj h
      have ho : 1 ≤ o := hok
      have hrefs : (s.pc t).refs = o := by rw [hpc]; rfl
      have hne : s.refcount ≠ 0 := hI.refcount_ne (t := t) (by omega)
      have hv := hloaded v rfl
      have hcount := hI.count
      simp only [Exclusive, hpc] at hexclusive
      refine inv_change hI rfl (hI.used hne) (hI.started_of_ne hne) ?_ ?_ hI.unmarked ⟨ho, rfl⟩
        (fun w hw => by cases hw) (Or.inr hexclusive)
      · show v + 1 ≠ 0
        omega
      · rw [hrefs]
        show v + 1 - s.refcount = s.messages true - s.messages true + ((o + 1 : ℕ) : ℤ) - o
        omega
  | send o b =>
      rw [hpc] at hok
      simp only [hpc] at h
      obtain rfl := Option.some.inj h
      obtain ⟨ho, rfl⟩ := hok
      have hrefs : (s.pc t).refs = o + 1 := by rw [hpc]; rfl
      have hne : s.refcount ≠ 0 := hI.refcount_ne (t := t) (by omega)
      refine inv_change hI rfl (hI.used hne) (hI.started_of_ne hne) hne ?_ hI.unmarked ho
        (fun w hw => by cases hw) (Or.inl rfl)
      rw [hrefs]
      show s.refcount - s.refcount =
        ((Function.update s.messages true (s.messages true + 1) true : ℕ) : ℤ) - s.messages true
          + o - ((o + 1 : ℕ) : ℤ)
      rw [Function.update_self]
      omega
  | unrefStore o v =>
      rw [hpc] at hok hloaded
      simp only [hpc] at h
      obtain rfl := Option.some.inj h
      have ho : 1 ≤ o := hok
      have hv := hloaded v rfl
      by_cases hzero : v - 1 = 0
      · exact inv_last hI hpc hexclusive hzero
      · have hrefs : (s.pc t).refs = o := by rw [hpc]; rfl
        have hne : s.refcount ≠ 0 := hI.refcount_ne (t := t) (by omega)
        simp only [Exclusive, hpc] at hexclusive
        refine inv_change hI rfl (hI.used hne) (hI.started_of_ne hne) hzero ?_ hI.unmarked trivial
          (fun w hw => by cases hw) (Or.inr hexclusive.1)
        rw [hrefs]
        show v - 1 - s.refcount = s.messages true - s.messages true + ((o - 1 : ℕ) : ℤ) - o
        omega
  | unrefTest o =>
      simp only [hpc] at h
      by_cases hzero : s.refcount = 0
      · rw [if_pos hzero] at h
        obtain rfl := Option.some.inj h
        exact inv_free hI hpc hzero
      · rw [if_neg hzero] at h
        obtain rfl := Option.some.inj h
        refine inv_change hI rfl (hI.used hzero) (hI.started_of_ne hzero) hzero ?_ hI.unmarked ?_
          ?_ (Or.inl rfl)
        · rw [hpc]
          by_cases ho : o = 0
          · subst ho; simp [State.goto, PC.refs]
          · simp [State.goto, PC.refs, ho]
        · split_ifs with ho
          · trivial
          · exact Nat.one_le_iff_ne_zero.2 ho
        · intro v hv
          split_ifs at hv <;> cases hv

/-! ## Steps and runs -/

/-- The starting element allocates the state. -/
theorem inv_start (hI : Inv s) {t : T} (hs : s.started = false) :
    Inv ({ s with refcount := 1, started := true }.goto t (.run 1)) := by
  obtain ⟨hfreed, hzero, hidle⟩ := hI.fresh hs
  refine inv_change hI rfl hfreed rfl one_ne_zero ?_ hI.unmarked (le_refl 1)
    (fun v hv => by cases hv) (Or.inr fun u _ => by rw [hidle u]; rfl)
  rw [hidle t, hzero]
  show (1 : ℤ) - 0 = s.messages true - s.messages true + ((1 : ℕ) : ℤ) - ((0 : ℕ) : ℤ)
  omega

/-- A read element takes the pointer out of a buffer. -/
theorem inv_receive (hI : Inv s) {t : T} {o : ℕ} (hm : s.messages true ≠ 0)
    (hpc : s.pc t = .run o ∨ s.pc t = .idle ∧ o = 0) :
    Inv ({ s with messages := Function.update s.messages true (s.messages true - 1) }.goto t
      (.run (o + 1))) := by
  have hne : s.refcount ≠ 0 := fun h => hm (hI.refs_zero h).1
  refine inv_change hI rfl (hI.used hne) (hI.started_of_ne hne) hne ?_ hI.unmarked
    (Nat.le_add_left 1 o) (fun v hv => by cases hv) (Or.inl rfl)
  have hrefs : (s.pc t).refs = o := by
    rcases hpc with hpc | ⟨hpc, rfl⟩ <;> rw [hpc] <;> rfl
  rw [hrefs]
  show s.refcount - s.refcount =
    ((Function.update s.messages true (s.messages true - 1) true : ℕ) : ℤ) - s.messages true
      + ((o + 1 : ℕ) : ℤ) - o
  rw [Function.update_self]
  omega

theorem inv_step (a : Action T) (hI : Inv s) (hexclusive : Exclusive s a)
    (h : step s a = some s') : Inv s' := by
  cases a with
  | start t =>
      simp only [step] at h
      split at h
      · split_ifs at h with hs
        obtain rfl := Option.some.inj h
        exact inv_start hI (by simpa using hs)
      · cases h
  | receive t b =>
      simp only [step] at h
      split_ifs at h with hm
      cases b with
      | false => exact absurd hI.unmarked hm
      | true =>
          split at h
          · next hpc =>
              obtain rfl := Option.some.inj h
              exact inv_receive hI (o := 0) hm (Or.inr ⟨hpc, rfl⟩)
          · next o hpc =>
              obtain rfl := Option.some.inj h
              exact inv_receive hI hm (Or.inl hpc)
          · cases h
  | write t b =>
      obtain rfl : b = true := hexclusive
      have hok := hI.ok t
      simp only [step] at h
      split at h
      · next o hpc =>
          obtain rfl := Option.some.inj h
          rw [hpc] at hok
          refine inv_goto hI ?_ (by rw [hpc]; rfl) hok fun v hv => by cases hv
          rw [hpc]
          exact Nat.one_le_iff_ne_zero.1 hok
      · cases h
  | finish t =>
      have hok := hI.ok t
      simp only [step] at h
      split at h
      · next o hpc =>
          rw [hpc] at hok
          have ho : o ≠ 0 := Nat.one_le_iff_ne_zero.1 hok
          rw [if_neg ho] at h
          obtain rfl := Option.some.inj h
          exact inv_goto hI (by rw [hpc]; exact ho) (by rw [hpc]; rfl) hok fun v hv => by cases hv
      · cases h
  | step t => exact inv_exec hI hexclusive h

omit [DecidableEq T] in
theorem inv_create : Inv (create : State T) where
  count := by simp [create, PC.refs]
  unmarked := rfl
  ok _ := trivial
  loaded _ _ h := by cases h
  fresh _ := ⟨rfl, rfl, fun _ => rfl⟩
  used h := absurd rfl h
  last h := by cases h

omit [DecidableEq T] in
theorem Inv.safe (hI : Inv s) : Safe s where
  once := by
    by_cases hzero : s.refcount = 0
    · cases hs : s.started with
      | false => rw [(hI.fresh hs).1]; exact Nat.zero_le 1
      | true =>
          rcases hI.last hs hzero with ⟨hfreed, -⟩ | ⟨hfreed, -⟩
          · exact hfreed.le
          · rw [hfreed]; exact Nat.zero_le 1
    · rw [hI.used hzero]; exact Nat.zero_le 1
  alive h := by
    by_cases hzero : s.refcount = 0
    · cases hs : s.started with
      | false => exact (hI.fresh hs).1
      | true =>
          rcases hI.last hs hzero with ⟨-, hidle⟩ | ⟨hfreed, -⟩
          · -- whoever freed the state was the last one
            rcases h with ⟨t, ht⟩ | ⟨b, hb⟩
            · exact absurd (hidle t) ht
            · cases b with
              | false => exact absurd hI.unmarked hb
              | true => exact absurd (hI.refs_zero hzero).1 hb
          · exact hfreed
    · exact hI.used hzero
  finished hs hidle hm := by
    have hcount := hI.count
    have hsum : (∑ t, (s.pc t).refs) = 0 := Finset.sum_eq_zero fun t _ => by rw [hidle t]; rfl
    rw [hsum, hm] at hcount
    rcases hI.last hs (by simpa using hcount) with ⟨hfreed, -⟩ | ⟨-, t, ht, -⟩
    · exact hfreed
    · rw [hidle t] at ht
      cases ht

/-- **The state is freed once, and not too early.**  This holds in every run, of any
number of threads, in which each port that passes the state on is marked and no store of
the count falls into the read-modify-write of another thread. -/
theorem freed_once (as : List (Action T)) (s : State T) (hexclusive : Meets step Exclusive create as)
    (hrun : run step create as = some s) : Safe s :=
  (run_invariant_of_meets (P := Inv) (fun _ a _ hI hc h => inv_step a hI hc h) inv_create
    hexclusive hrun).safe

/-! ## Two threads -/

/-- A test for the condition. -/
def exclusive (s : State T) : Action T → Bool
  | .write _ b => b
  | .step t =>
      match s.pc t with
      | .refStore _ _ => decide (∀ u, u ≠ t → (s.pc u).loaded = none)
      | .unrefStore _ v => decide ((∀ u, u ≠ t → (s.pc u).loaded = none) ∧
          (v = 1 → ∀ u, u ≠ t → (s.pc u).testing = false))
      | _ => true
  | _ => true

theorem Exclusive.of_exclusive (s : State T) (a : Action T) (h : exclusive s a) :
    Exclusive s a := by
  cases a with
  | step t =>
      simp only [exclusive] at h
      simp only [Exclusive]
      cases hpc : s.pc t <;> simp only [hpc] at h ⊢
      · exact of_decide_eq_true h
      · exact of_decide_eq_true h
  | write t b => exact h
  | _ => trivial

/-- A thread passes the state on to another, and both give up their references. -/
def handOver : List (Action (Fin 2)) :=
  [.start 0, .write 0 true, .step 0, .step 0, .step 0, .receive 1 true, .finish 0, .step 0,
    .step 0, .step 0, .finish 1, .step 1, .step 1, .step 1]

theorem freed_once_handOver : ∃ s, run step create handOver = some s ∧ s.freed = 1 ∧ Safe s := by
  obtain ⟨s, hs, hobs⟩ := Option.map_eq_some_iff.1
    (show (run step create handOver).map (fun s => s.freed) = some 1 by decide +kernel)
  exact ⟨s, hs, hobs, freed_once handOver s
    (Meets.of_meets Exclusive.of_exclusive (by decide +kernel)) hs⟩

/-- **The state can be freed too early, or never.**  Through a port that is not marked it
is passed on without a reference; and two threads that give up their references at the
same time lose one of the two decrements. -/
theorem freed_too_early_or_never :
    (∃ s : State (Fin 2), run step create
      [.start 0, .write 0 false, .step 0, .finish 0, .step 0, .step 0, .step 0, .receive 1 false]
        = some s ∧ s.pc 1 = .run 0 ∧ s.freed = 1) ∧
    ∃ s : State (Fin 2), run step create
      [.start 0, .write 0 true, .step 0, .step 0, .step 0, .receive 1 true, .finish 0, .finish 1,
        .step 0, .step 1, .step 0, .step 1, .step 0, .step 1] = some s ∧
      (∀ t, s.pc t = .idle) ∧ (∀ b, s.messages b = 0) ∧ s.freed = 0 := by
  constructor
  · obtain ⟨s, hs, hobs⟩ := Option.map_eq_some_iff.1
      (show (run step (create : State (Fin 2)) [.start 0, .write 0 false, .step 0, .finish 0,
        .step 0, .step 0, .step 0, .receive 1 false]).map (fun s => (s.pc 1, s.freed))
          = some (.run 0, 1) by decide +kernel)
    obtain ⟨hpc, hfreed⟩ := Prod.mk.inj hobs
    exact ⟨s, hs, hpc, hfreed⟩
  · obtain ⟨s, hs, hobs⟩ := Option.map_eq_some_iff.1
      (show (run step (create : State (Fin 2)) [.start 0, .write 0 true, .step 0, .step 0, .step 0,
        .receive 1 true, .finish 0, .finish 1, .step 0, .step 1, .step 0, .step 1, .step 0,
        .step 1]).map (fun s => (decide (∀ t, s.pc t = .idle), decide (∀ b, s.messages b = 0),
          s.freed)) = some (true, true, 0) by decide +kernel)
    obtain ⟨hpc, hrest⟩ := Prod.mk.inj hobs
    obtain ⟨hm, hfreed⟩ := Prod.mk.inj hrest
    exact ⟨s, hs, of_decide_eq_true hpc, of_decide_eq_true hm, hfreed⟩

end Refcount
end Thread
end Floem
