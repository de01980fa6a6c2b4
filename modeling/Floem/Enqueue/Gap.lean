import Mathlib
import Floem.Enqueue.Reach
import Floem.Lib.Names

/-!
# Enqueue gaps

An enqueue site of a smart queue leaves a gap free in the queue when it could fill it with
work that only comes back to the same queue.  This is the part of
`floem/smart_queue_compile.py` that computes the gaps and writes them into the code.

* `computeEnqueueGap` — the gap of each enqueue instance.
* `memorize`, `enqueueAt`, `compileEnqueue` — the loops of `compile_smart_queue` that look
  at the ports in front of the queue and give each an `enq_alloc`.
* `gap` — the gap that an enqueue instance needs.
* `gapsCorrect_iff` — when every port gets the gap of the instance it leads to.

Of the instances that are made for a port only the `enq_alloc` is kept: the others lead
from the port to it.  Of the connections that are made, those are kept that raise an exception
when an instance has been deleted before.
-/

namespace Floem
namespace Enqueue

open Lib IR

/-! ## The gaps -/

/-- `self.enq_gap`. -/
def enqGap : ℕ := 8

/-- The loop that stops at a reachable enqueue instance; the second value is `need_gap`. -/
def firstReachable (reachable : List String) : Dict ℕ → List String → Dict ℕ × Bool
  | m, [] => (m, false)
  | m, e :: enq =>
    let m := m.insert e 0
    if e ∈ reachable then (m, true) else firstReachable reachable m enq

/-- The loop over the enqueue instances that are not reachable. -/
def addGap (reachable : List String) (m : Dict ℕ) (e : String) : Dict ℕ :=
  if e ∉ reachable then m.insert e enqGap else m

/-- `compute_enqueue_gap`. -/
def computeEnqueueGap (g : Graph) (q : Queue) : Option (Dict ℕ) :=
  match q.enq with
  | [e] => some (AList.insert e 0 ∅)
  | enq => do
    let reachable ← g.findSubgraphWithQueue q.deq
    let (m, needGap) := firstReachable reachable ∅ enq
    return if needGap then enq.foldl (addGap reachable) m else m

/-! ## The enqueue sites -/

/-- The output ports that lead to channel `i` of an enqueue instance. -/
def Instance.ports (inst : Instance) (i : ℕ) : List (String × String) :=
  (inst.input2ele.lookup ("inp" ++ toString i)).getD []

/-- The instance that is connected to an output port. -/
def Instance.behind (inst : Instance) (port : String) : Option String :=
  (inst.output2ele.lookup port).map Prod.fst

/-- `get_device_from_thread(get_thread_of(name))`. -/
def Graph.deviceOf (g : Graph) (name : String) : Option String :=
  (g.instances.lookup name).map fun inst => (inst.thread.bind g.thread2device.lookup).getD "CPU"

/-- The assertion on the devices of the enqueue instances; `q.enq[0]` is looked up. -/
def oneDevice (g : Graph) (q : Queue) : Bool :=
  match q.enq with
  | [] => false
  | e :: enq => (e :: enq).all fun e' => g.deviceOf e == g.deviceOf e'

/-- `ins_map`, with the channel beside each port, `enq_done` and `enq_gap`. -/
structure Memo where
  ins : List (ℕ × String × String)
  done : List ((String × String) × String)
  gaps : Dict ℕ

/-- What is entered in `enq_done` for a port of an enqueue instance. -/
def doneOf (g : Graph) (q : Queue) (e : String) : Option String :=
  if q.enqOutput then (g.instances.lookup e).bind fun enq => enq.behind "done" else none

/-- The ports of one enqueue instance. -/
def memorizeEnq (g : Graph) (q : Queue) (m : Dict ℕ) (i : ℕ) (s : Memo) (e : String) :
    Option Memo := do
  let enq ← g.instances.lookup e
  run (fun s x => do
    let done := doneOf g q e
    guard (q.enqOutput → done.isSome)
    let gap ← m.lookup e
    return ⟨s.ins ++ [(i, x)], done.toList.map (fun d => (x, d)) ++ s.done,
      s.gaps.insert x.1 gap⟩) s (enq.ports i)

/-- The instances behind a channel, on the dequeue side and on the clean side, if there is one. -/
def outputs (g : Graph) (q : Queue) (i : ℕ) : List (Option String) :=
  (q.deq :: q.clean.toList).map fun name =>
    (g.instances.lookup name).bind fun inst => inst.behind ("out" ++ toString i)

/-- One channel. -/
def memorizeChannel (g : Graph) (q : Queue) (m : Dict ℕ) (s : Memo) (i : ℕ) : Option Memo := do
  let s ← run (memorizeEnq g q m i) s q.enq
  guard ((outputs g q i).all Option.isSome)
  return s

/-- The loop that memorizes the connections. -/
def memorize (g : Graph) (q : Queue) (m : Dict ℕ) : Option Memo :=
  run (memorizeChannel g q m) ⟨[], [], ∅⟩ (List.range q.channels)

/-- The instances that are deleted. -/
def Queue.own (q : Queue) : List String := q.enq ++ q.deq :: q.clean.toList

/-- An instance that is connected to itself cannot be deleted. -/
def deletable (g : Graph) (q : Queue) : Bool :=
  q.own.all fun name =>
    ((g.instances.lookup name).map fun inst => decide (name ∉ inst.nexts)).getD false

/-- What is connected to the dequeue instance, apart from the enqueue instances, is connected
again. -/
def reconnects (g : Graph) (q : Queue) : Bool :=
  ((g.instances.lookup q.deq).map fun deq => deq.input2ele.entries.all fun l =>
    l.2.all fun x => decide (x.1 ∈ q.enq ∨ x.1 ∉ q.own)).getD false

/-- The instances behind the channels are connected again. -/
def connectsOutputs (g : Graph) (q : Queue) : Bool :=
  (List.range q.channels).all fun i =>
    (outputs g q i).all fun out => out.all fun name => decide (name ∉ q.own)

/-- The beginning of the names of all instances. -/
def namePrefix (q : Queue) : String :=
  if q.deq.startsWith "_impl" then "_impl_" else if q.deq.startsWith "_spec" then "_spec_" else ""

/-- The name of an `enq_alloc`. -/
def allocName (q : Queue) (i : ℕ) (inst : String) : String :=
  namePrefix q ++ q.name ++ "_enq_alloc" ++ toString i ++ "_from_" ++ inst

/-- The name of the `enq_alloc` a port leads to, and the gap and the channel that each
`enq_alloc` is configured with. -/
structure Sites where
  leads : List ((String × String) × String)
  allocs : Dict (ℕ × ℕ)

/-- The body of the loop that makes the enqueue instances: a port is connected once, and the
`done` port of a fill instance to what was behind the enqueue instance. -/
def enqueueAt (q : Queue) (memo : Memo) (s : Sites) (site : ℕ × String × String) :
    Option Sites := do
  let (i, x) := site
  guard (x.1 ∉ q.own)
  let gap ← memo.gaps.lookup x.1
  guard (x ∉ s.leads.map Prod.fst)
  guard (q.enqOutput → ∃ d ∈ memo.done.lookup x, d ∉ q.own)
  return ⟨s.leads ++ [(x, allocName q i x.1)], s.allocs.insert (allocName q i x.1) (gap, i)⟩

/-- The enqueue sites that `compile_smart_queue` makes. -/
def compileEnqueue (g : Graph) (q : Queue) (m : Dict ℕ) : Option Sites := do
  guard (oneDevice g q)
  let memo ← memorize g q m
  guard (deletable g q ∧ reconnects g q)
  let s ← run (enqueueAt q memo) ⟨[], ∅⟩ memo.ins
  guard (connectsOutputs g q)
  return s

/-! ## What is wanted -/

open Classical in
/-- The gap of an enqueue instance, from what is reachable behind the queue. -/
noncomputable def gap (g : Graph) (q : Queue) (e : String) : ℕ :=
  if q.enq.length = 1 ∨ ∀ e ∈ q.enq, ¬ g.Reach q.deq e then 0
  else if g.Reach q.deq e then 0 else enqGap

/-- All ports in front of the queue: the channel, the enqueue instance and the port. -/
def sites (g : Graph) (q : Queue) : List (ℕ × String × String × String) :=
  (List.range q.channels).flatMap fun i => q.enq.flatMap fun e =>
    (((g.instances.lookup e).map fun enq => enq.ports i).getD []).map fun x => (i, e, x)

/-- Every enqueue instance has its gap. -/
def MapCorrect (g : Graph) (q : Queue) (m : Dict ℕ) : Prop :=
  ∀ e ∈ q.enq, m.lookup e = some (gap g q e)

/-- Every port leads to an `enq_alloc` with the gap of its enqueue instance. -/
def SitesCorrect (g : Graph) (q : Queue) (s : Sites) : Prop :=
  ∀ i e x, (i, e, x) ∈ sites g q →
    ∃ name, (x, name) ∈ s.leads ∧ s.allocs.lookup name = some (gap g q e, i)

/-- **The gaps are assigned correctly.** -/
def GapsCorrect (g : Graph) (q : Queue) : Prop :=
  ∃ m s, computeEnqueueGap g q = some m ∧ MapCorrect g q m ∧ compileEnqueue g q m = some s ∧
    SitesCorrect g q s

/-! ## When it is so -/

/-- Of the enqueue instances there is none near the dequeue instance, and either none or all are
reachable at all; or there is one, and no other is reachable. -/
def OneNear (g : Graph) (q : Queue) : Prop :=
  ((∀ e ∈ q.enq, ¬ g.Near q.deq e) ∧
    ((∀ e ∈ q.enq, ¬ g.Reach q.deq e) ∨ ∀ e ∈ q.enq, g.Reach q.deq e)) ∨
  ∃ e ∈ q.enq, g.Sure q.deq e ∧ ∀ e' ∈ q.enq, g.Reach q.deq e' → e' = e

/-- It does not depend on the order of the search whether it finds an enqueue instance. -/
def Settled (g : Graph) (q : Queue) : Prop :=
  (∀ e ∈ q.enq, ¬ g.Near q.deq e) ∨ ∃ e ∈ q.enq, g.Sure q.deq e

/-- No instance is in front of enqueue instances with different gaps. -/
def OneGap (g : Graph) (q : Queue) : Prop :=
  ∀ i e p j e' p' x, (i, e, x, p) ∈ sites g q → (j, e', x, p') ∈ sites g q →
    gap g q e = gap g q e'

/-- The queue is connected as it has to be: the enqueue instances are on one device; every
channel goes on outside of the queue, and so does an enqueue instance with an output; what is in
front of the queue is outside of it, and no port is in front of it twice. -/
structure Connected (g : Graph) (q : Queue) : Prop where
  device : oneDevice g q
  apart : deletable g q
  front : reconnects g q
  goesOn : ∀ i < q.channels, ∀ out ∈ outputs g q i, ∃ name ∈ out, name ∉ q.own
  done : q.enqOutput → ∀ i e x, (i, e, x) ∈ sites g q → ∃ d ∈ doneOf g q e, d ∉ q.own
  outside : ∀ i e x, (i, e, x) ∈ sites g q → x.1 ∉ q.own
  once : ((sites g q).map fun site => site.2.2).Nodup

variable {g : Graph} {q : Queue}

/-! ## The map -/

section Map

variable {reachable : List String}

/-- No enqueue instance is reachable: the loop does not stop. -/
theorem firstReachable_of_none {enq : List String} (h : ∀ e ∈ enq, e ∉ reachable) (m : Dict ℕ) :
    ∃ m', firstReachable reachable m enq = (m', false) ∧
      ∀ e, m'.lookup e = if e ∈ enq then some 0 else m.lookup e := by
  induction enq generalizing m with
  | nil => exact ⟨m, rfl, fun e => by simp⟩
  | cons d enq ih =>
      obtain ⟨m', hm', hlookup⟩ := ih (fun e he => h e (List.mem_cons_of_mem d he)) (m.insert d 0)
      refine ⟨m', ?_, fun e => ?_⟩
      · rw [firstReachable]
        simp only [h d List.mem_cons_self, if_false]
        exact hm'
      · rw [hlookup, Dict.lookup_insert]
        by_cases he : e ∈ enq
        · rw [if_pos he, if_pos (List.mem_cons_of_mem d he)]
        · simp only [he, if_false, List.mem_cons, or_false]

/-- The loop stops at an enqueue instance; the reachable ones behind it get nothing. -/
theorem firstReachable_of_exists {enq : List String} (h : ∃ e ∈ enq, e ∈ reachable) (m : Dict ℕ) :
    ∃ m', firstReachable reachable m enq = (m', true) ∧ ∃ d ∈ enq, d ∈ reachable ∧
      ∀ e ∈ reachable, m'.lookup e = if e = d then some 0 else m.lookup e := by
  induction enq generalizing m with
  | nil =>
      obtain ⟨e, he, -⟩ := h
      cases he
  | cons d enq ih =>
      rw [firstReachable]
      by_cases hd : d ∈ reachable
      · refine ⟨m.insert d 0, by simp only [hd, if_true], d, List.mem_cons_self, hd, fun e _ => ?_⟩
        rw [Dict.lookup_insert]
      · have hrest : ∃ e ∈ enq, e ∈ reachable := by
          obtain ⟨e, he, hreach⟩ := h
          rcases List.mem_cons.1 he with rfl | he
          · exact absurd hreach hd
          · exact ⟨e, he, hreach⟩
        obtain ⟨m', hm', d', hd', hreach, hlookup⟩ := ih hrest (m.insert d 0)
        refine ⟨m', by simpa only [hd, if_false] using hm', d', List.mem_cons_of_mem d hd', hreach,
          fun e he => ?_⟩
        have hne : e ≠ d := fun heq => hd (heq ▸ he)
        rw [hlookup e he, Dict.lookup_insert, if_neg hne]

/-- The second loop gives a gap to all that are not reachable. -/
theorem lookup_addGap (enq : List String) (m : Dict ℕ) (e : String) :
    (enq.foldl (addGap reachable) m).lookup e =
      if e ∈ enq ∧ e ∉ reachable then some enqGap else m.lookup e := by
  induction enq generalizing m with
  | nil => simp
  | cons d enq ih =>
      rw [List.foldl_cons, ih]
      have hstep : (addGap reachable m d).lookup e =
          if e = d ∧ e ∉ reachable then some enqGap else m.lookup e := by
        unfold addGap
        split_ifs with hd hed hed
        · exact absurd hd (hed.1 ▸ hed.2)
        · rfl
        · rw [Dict.lookup_insert, if_pos hed.1]
        · rw [Dict.lookup_insert, if_neg fun heq => hed ⟨heq, heq ▸ hd⟩]
      rw [hstep]
      by_cases hreach : e ∈ reachable
      · simp [hreach]
      · by_cases he : e ∈ enq
        · simp [hreach, he]
        · simp [hreach, he]

end Map

theorem computeEnqueueGap_of_one (h : q.enq.length = 1) :
    ∃ m, computeEnqueueGap g q = some m ∧ ∀ e ∈ q.enq, m.lookup e = some 0 := by
  obtain ⟨e, he⟩ := List.length_eq_one_iff.1 h
  refine ⟨AList.insert e 0 ∅, by rw [computeEnqueueGap, he], fun e' he' => ?_⟩
  rw [he, List.mem_singleton] at he'
  rw [he', AList.lookup_insert]

/-- **What the map holds**, where the search has found `found`. -/
theorem computeEnqueueGap_of_found (h : q.enq.length ≠ 1) {found : List String}
    (hfound : g.findSubgraphWithQueue q.deq = some found) :
    ∃ m, computeEnqueueGap g q = some m ∧
      (((∀ e ∈ q.enq, e ∉ found) ∧ ∀ e ∈ q.enq, m.lookup e = some 0) ∨
        ∃ d ∈ q.enq, d ∈ found ∧ ∀ e ∈ q.enq, m.lookup e =
          if e ∉ found then some enqGap else if e = d then some 0 else none) := by
  have hcompute : computeEnqueueGap g q = some
      (if (firstReachable found ∅ q.enq).2
        then q.enq.foldl (addGap found) (firstReachable found ∅ q.enq).1
        else (firstReachable found ∅ q.enq).1) := by
    unfold computeEnqueueGap
    split
    · next e he => exact absurd (by rw [he]; rfl) h
    · rw [hfound]
      rfl
  refine ⟨_, hcompute, ?_⟩
  by_cases hany : ∃ e ∈ q.enq, e ∈ found
  · right
    obtain ⟨m, hm, d, hd, hreach, hlookup⟩ := firstReachable_of_exists hany ∅
    refine ⟨d, hd, hreach, fun e he => ?_⟩
    rw [hm, if_pos rfl, lookup_addGap]
    by_cases hf : e ∈ found
    · simp [hf, hlookup e hf]
    · simp [hf, he]
  · left
    have hnone : ∀ e ∈ q.enq, e ∉ found := fun e he hf => hany ⟨e, he, hf⟩
    obtain ⟨m, hm, hlookup⟩ := firstReachable_of_none hnone ∅
    refine ⟨hnone, fun e he => ?_⟩
    rw [hm, if_neg Bool.false_ne_true, hlookup, if_pos he]

theorem gap_of_reach {e : String} (h : g.Reach q.deq e) : gap g q e = 0 := by
  rw [gap, if_pos h, ite_self]

theorem gap_of_not_reach (hone : q.enq.length ≠ 1) {e d : String} (hd : d ∈ q.enq)
    (hreach : g.Reach q.deq d) (h : ¬ g.Reach q.deq e) : gap g q e = enqGap := by
  rw [gap, if_neg (not_or.2 ⟨hone, fun hnone => hnone d hd hreach⟩), if_neg h]

/-- The map is right exactly if the queue has one enqueue instance, or the search finds at most
one and misses none that counts. -/
theorem mapCorrect_of_found {found : List String}
    (hfound : g.findSubgraphWithQueue q.deq = some found) :
    (∃ m, computeEnqueueGap g q = some m ∧ MapCorrect g q m) ↔ q.enq.length = 1 ∨
      ((∀ e ∈ q.enq, e ∉ found) ∧
        ((∀ e ∈ q.enq, ¬ g.Reach q.deq e) ∨ ∀ e ∈ q.enq, g.Reach q.deq e)) ∨
      ∃ e ∈ q.enq, e ∈ found ∧ ∀ e' ∈ q.enq, g.Reach q.deq e' → e' = e := by
  by_cases hone : q.enq.length = 1
  · obtain ⟨m, hm, hlookup⟩ := computeEnqueueGap_of_one (g := g) hone
    refine ⟨fun _ => Or.inl hone, fun _ => ⟨m, hm, fun e he => ?_⟩⟩
    rw [hlookup e he, gap, if_pos (Or.inl hone)]
  have hsound : ∀ e ∈ found, g.Reach q.deq e := fun e he => (Graph.near_of_mem hfound he).reach
  obtain ⟨m, hm, hcases⟩ := computeEnqueueGap_of_found hone hfound
  simp only [hone, false_or, hm, Option.some.injEq, exists_eq_left']
  rcases hcases with ⟨hnone, hzero⟩ | ⟨d, hd, hdf, hlookup⟩
  · constructor
    · intro hmap
      refine Or.inl ⟨hnone, ?_⟩
      -- a gap of 0 is right only if all are reachable or none is
      by_contra hmixed
      simp only [not_or, not_forall, not_not] at hmixed
      obtain ⟨⟨e, he, hreach⟩, e', he', hnot⟩ := hmixed
      have hval := (hzero e' he').symm.trans (hmap e' he')
      rw [gap_of_not_reach hone he hreach hnot] at hval
      cases hval
    · rintro (⟨-, hall⟩ | ⟨e, he, hf, -⟩)
      · intro e he
        rw [hzero e he]
        rcases hall with hall | hall
        · rw [gap, if_pos (Or.inr hall)]
        · rw [gap_of_reach (hall e he)]
      · exact absurd hf (hnone e he)
  · constructor
    · intro hmap
      refine Or.inr ⟨d, hd, hdf, fun e he hreach => ?_⟩
      have hval := (hlookup e he).symm.trans (hmap e he)
      rw [gap_of_reach hreach] at hval
      split_ifs at hval with hf hed
      · exact hed
      · cases hval
    · rintro (⟨hnone, -⟩ | ⟨e, he, hf, honly⟩)
      · exact absurd hdf (hnone d hd)
      · intro e' he'
        obtain rfl := honly d hd (hsound d hdf)
        rw [hlookup e' he']
        by_cases hreach : g.Reach q.deq e'
        · obtain rfl := honly e' he' hreach
          rw [gap_of_reach hreach]
          simp [hdf]
        · have hf' : e' ∉ found := fun hf' => hreach (hsound e' hf')
          rw [gap_of_not_reach hone hd (hsound d hdf) hreach, if_pos hf']

/-- **Where the map is right**, in terms of the graph. -/
theorem mapCorrect_of_oneNear (hclosed : g.Closed) (hdeq : q.deq ∈ g.instances)
    (h : q.enq.length = 1 ∨ OneNear g q) :
    ∃ m, computeEnqueueGap g q = some m ∧ MapCorrect g q m := by
  obtain ⟨found, hfound⟩ := Graph.findSubgraphWithQueue_isSome hclosed hdeq
  refine (mapCorrect_of_found hfound).2 (h.imp_right (Or.imp ?_ ?_))
  · rintro ⟨hfar, hall⟩
    exact ⟨fun e he hf => hfar e he (Graph.near_of_mem hfound hf), hall⟩
  · rintro ⟨e, he, hsure, honly⟩
    exact ⟨e, he, Graph.mem_of_sure hfound hsure, honly⟩

theorem oneNear_of_mapCorrect (hclosed : g.Closed) (hdeq : q.deq ∈ g.instances)
    (hsettled : q.enq.length = 1 ∨ Settled g q)
    (h : ∃ m, computeEnqueueGap g q = some m ∧ MapCorrect g q m) :
    q.enq.length = 1 ∨ OneNear g q := by
  obtain ⟨found, hfound⟩ := Graph.findSubgraphWithQueue_isSome hclosed hdeq
  rcases hsettled with hone | hsettled
  · exact Or.inl hone
  refine ((mapCorrect_of_found hfound).1 h).imp_right ?_
  rintro (⟨hnone, hall⟩ | ⟨d, hd, hdf, honly⟩)
  · rcases hsettled with hfar | ⟨e, he, hsure⟩
    · exact Or.inl ⟨hfar, hall⟩
    · exact absurd (Graph.mem_of_sure hfound hsure) (hnone e he)
  · rcases hsettled with hfar | ⟨e, he, hsure⟩
    · exact absurd (Graph.near_of_mem hfound hdf) (hfar d hd)
    · -- the one that is surely found is the only one that is reachable
      obtain rfl := honly e he hsure.near.reach
      exact Or.inr ⟨e, he, hsure, honly⟩

/-! ## The sites -/

/-- What a site is asked for before it is made. -/
def SiteOk (g : Graph) (q : Queue) (m : Dict ℕ) (e : String) : Prop :=
  (q.enqOutput → (doneOf g q e).isSome) ∧ (m.lookup e).isSome

/-- A site that is memorized. -/
def Memo.add (g : Graph) (q : Queue) (m : Dict ℕ) (s : Memo)
    (site : ℕ × String × String × String) : Memo :=
  ⟨s.ins ++ [(site.1, site.2.2)],
    (doneOf g q site.2.1).toList.map (fun d => (site.2.2, d)) ++ s.done,
    s.gaps.insert site.2.2.1 ((m.lookup site.2.1).getD 0)⟩

/-- The sites of one enqueue instance. -/
def enqSites (g : Graph) (i : ℕ) (e : String) : List (ℕ × String × String × String) :=
  (((g.instances.lookup e).map fun enq => enq.ports i).getD []).map fun x => (i, e, x)

theorem memorizeEnq_eq_some {m : Dict ℕ} {i : ℕ} {s t : Memo} {e : String}
    (he : e ∈ g.instances) : memorizeEnq g q m i s e = some t ↔
      (∀ site ∈ enqSites g i e, SiteOk g q m site.2.1) ∧
        t = (enqSites g i e).foldl (Memo.add g q m) s := by
  obtain ⟨enq, henq⟩ := (Dict.mem_iff ..).1 he
  rw [memorizeEnq, henq, Option.bind_eq_bind, Option.bind_some, enqSites, henq, Option.map_some,
    Option.getD_some, List.forall_mem_map, List.foldl_map]
  refine run_eq_some_iff fun x _ s t => ?_
  simp only [SiteOk, Option.isSome_iff_exists (x := m.lookup e), Option.bind_eq_bind,
    Option.bind_eq_some_iff, Option.guard_eq_some', Option.pure_def, Option.some.injEq]
  constructor
  · rintro ⟨_, hdone, v, hv, rfl⟩
    exact ⟨⟨hdone, v, hv⟩, by rw [Memo.add, hv]; rfl⟩
  · rintro ⟨⟨hdone, v, hv⟩, rfl⟩
    exact ⟨(), hdone, v, hv, by rw [Memo.add, hv]; rfl⟩

theorem memorizeChannel_eq_some (hq : ∀ e ∈ q.enq, e ∈ g.instances) {m : Dict ℕ} {i : ℕ}
    {s t : Memo} : memorizeChannel g q m s i = some t ↔
      ((outputs g q i).all Option.isSome ∧
        ∀ e ∈ q.enq, ∀ site ∈ enqSites g i e, SiteOk g q m site.2.1) ∧
        t = (q.enq.flatMap (enqSites g i)).foldl (Memo.add g q m) s := by
  have hrun := fun u => run_eq_some_iff (f := memorizeEnq g q m i) (s := s) (t := u) fun e he s t =>
    memorizeEnq_eq_some (e := e) (s := s) (t := t) (hq e he)
  rw [memorizeChannel, Option.bind_eq_bind, Option.bind_eq_some_iff, List.foldl_flatMap]
  simp only [hrun]
  by_cases hgo : (outputs g q i).all Option.isSome
  · simp [hgo, eq_comm]
  · simp [hgo]

/-- **The first loops** memorize all sites. -/
theorem memorize_eq_some (hq : ∀ e ∈ q.enq, e ∈ g.instances) {m : Dict ℕ} {memo : Memo} :
    memorize g q m = some memo ↔
      ((∀ i < q.channels, (outputs g q i).all Option.isSome) ∧
        ∀ site ∈ sites g q, SiteOk g q m site.2.1) ∧
        memo = (sites g q).foldl (Memo.add g q m) ⟨[], [], ∅⟩ := by
  have hrun := run_eq_some_iff (f := memorizeChannel g q m) (s := ⟨[], [], ∅⟩) (t := memo)
    (l := List.range q.channels) fun i _ s t => memorizeChannel_eq_some (s := s) (t := t) hq
  rw [memorize, hrun, sites, List.foldl_flatMap]
  refine and_congr ?_ Iff.rfl
  simp only [List.mem_range, List.mem_flatMap, forall_exists_index, and_imp]
  exact ⟨fun h => ⟨fun i hi => (h i hi).1, fun site i hi e he hsite =>
    (h i hi).2 e he site hsite⟩, fun h i hi => ⟨h.1 i hi, fun e he site hsite =>
    h.2 site i hi e he hsite⟩⟩

/-- What is memorized. -/
theorem foldl_add (m : Dict ℕ) (s : Memo) (l : List (ℕ × String × String × String)) :
    (l.foldl (Memo.add g q m) s).ins = s.ins ++ l.map (fun site => (site.1, site.2.2)) ∧
      (l.foldl (Memo.add g q m) s).gaps =
        l.foldl (fun d site => d.insert site.2.2.1 ((m.lookup site.2.1).getD 0)) s.gaps := by
  induction l generalizing s with
  | nil => exact ⟨(List.append_nil _).symm, rfl⟩
  | cons site l ih =>
      rw [List.foldl_cons, (ih _).1, (ih _).2, List.map_cons, List.foldl_cons]
      exact ⟨by rw [Memo.add, List.append_assoc]; rfl, rfl⟩

/-- What is memorized behind a port is memorized for one of the sites with the port. -/
theorem foldl_add_done (m : Dict ℕ) {s : Memo} {l : List (ℕ × String × String × String)}
    {x : String × String} {d : String}
    (h : (l.foldl (Memo.add g q m) s).done.lookup x = some d) :
    s.done.lookup x = some d ∨ ∃ site ∈ l, site.2.2 = x ∧ doneOf g q site.2.1 = some d := by
  induction l generalizing s with
  | nil => exact Or.inl h
  | cons site l ih =>
      rcases ih h with h | ⟨site', hmem, h⟩
      · rw [Memo.add] at h
        cases hdone : doneOf g q site.2.1 with
        | none =>
            rw [hdone] at h
            exact Or.inl h
        | some d' =>
            simp only [hdone, Option.toList_some, List.map_singleton, List.singleton_append,
              List.lookup_cons] at h
            by_cases hx : x = site.2.2
            · rw [hx, beq_self_eq_true] at h
              exact Or.inr ⟨site, List.mem_cons_self, hx.symm, hdone.trans h⟩
            · rw [beq_false_of_ne hx] at h
              exact Or.inl h
      · exact Or.inr ⟨site', List.mem_cons_of_mem site hmem, h⟩

/-- Something is memorized behind the ports of the sites. -/
theorem lookup_foldl_add_done (m : Dict ℕ) {s : Memo} {l : List (ℕ × String × String × String)}
    {site : ℕ × String × String × String}
    (h : (s.done.lookup site.2.2).isSome ∨ site ∈ l ∧ (doneOf g q site.2.1).isSome) :
    ((l.foldl (Memo.add g q m) s).done.lookup site.2.2).isSome := by
  induction l generalizing s with
  | nil => exact h.resolve_right fun hmem => by cases hmem.1
  | cons site' l ih =>
      refine ih ?_
      have hkeep : (s.done.lookup site.2.2).isSome →
          ((Memo.add g q m s site').done.lookup site.2.2).isSome := fun hs => by
        rw [Memo.add]
        cases doneOf g q site'.2.1 with
        | none => exact hs
        | some d =>
            simp only [Option.toList_some, List.map_singleton, List.singleton_append,
              List.lookup_cons]
            split
            · rfl
            · exact hs
      rcases h with hs | ⟨hmem, hdone⟩
      · exact Or.inl (hkeep hs)
      · rcases List.mem_cons.1 hmem with rfl | hmem
        · obtain ⟨d, hd⟩ := Option.isSome_iff_exists.1 hdone
          refine Or.inl ?_
          simp only [Memo.add, hd, Option.toList_some, List.map_singleton, List.singleton_append,
            List.lookup_cons, beq_self_eq_true]
          rfl
        · exact Or.inr ⟨hmem, hdone⟩

/-- An enqueue site that is made. -/
def Sites.add (q : Queue) (gaps : Dict ℕ) (s : Sites) (site : ℕ × String × String) : Sites :=
  ⟨s.leads ++ [(site.2, allocName q site.1 site.2.1)],
    s.allocs.insert (allocName q site.1 site.2.1) ((gaps.lookup site.2.1).getD 0, site.1)⟩

theorem foldl_addSite (gaps : Dict ℕ) (s : Sites) (ins : List (ℕ × String × String)) :
    ins.foldl (Sites.add q gaps) s =
      ⟨s.leads ++ ins.map fun site => (site.2, allocName q site.1 site.2.1),
        ins.foldl (fun d site => d.insert (allocName q site.1 site.2.1)
          ((gaps.lookup site.2.1).getD 0, site.1)) s.allocs⟩ := by
  induction ins generalizing s with
  | nil => rw [List.map_nil, List.append_nil]; rfl
  | cons site ins ih =>
      rw [List.foldl_cons, ih, Sites.add, List.map_cons, List.append_assoc]
      rfl

/-- What a port is asked for before its site is made. -/
def PortOk (q : Queue) (memo : Memo) (x : String × String) : Prop :=
  x.1 ∉ q.own ∧ (∃ v, memo.gaps.lookup x.1 = some v) ∧
    (q.enqOutput → ∃ d ∈ memo.done.lookup x, d ∉ q.own)

theorem enqueueAt_eq_some {memo : Memo} {s t : Sites} {site : ℕ × String × String} :
    enqueueAt q memo s site = some t ↔ PortOk q memo site.2 ∧
      site.2 ∉ s.leads.map Prod.fst ∧ t = Sites.add q memo.gaps s site := by
  simp only [enqueueAt, PortOk, Option.bind_eq_bind, Option.bind_eq_some_iff,
    Option.guard_eq_some', Option.pure_def, Option.some.injEq]
  constructor
  · rintro ⟨_, hout, v, hv, _, hnew, _, hdone, rfl⟩
    exact ⟨⟨hout, ⟨v, hv⟩, hdone⟩, hnew, by rw [Sites.add, hv]; rfl⟩
  · rintro ⟨⟨hout, ⟨v, hv⟩, hdone⟩, hnew, rfl⟩
    exact ⟨(), hout, v, hv, (), hnew, (), hdone, by rw [Sites.add, hv]; rfl⟩

/-- **The second loop** makes all sites. -/
theorem run_enqueueAt_eq_some {memo : Memo} {s t : Sites} {ins : List (ℕ × String × String)} :
    run (enqueueAt q memo) s ins = some t ↔
      (∀ site ∈ ins, PortOk q memo site.2) ∧
      ((ins.map Prod.snd).Nodup ∧ ∀ x ∈ ins.map Prod.snd, x ∉ s.leads.map Prod.fst) ∧
      t = ins.foldl (Sites.add q memo.gaps) s := by
  induction ins generalizing s with
  | nil => simp [eq_comm]
  | cons site ins ih =>
      rw [run_cons, Option.bind_eq_some_iff, List.forall_mem_cons, List.foldl_cons, List.map_cons,
        List.nodup_cons, List.forall_mem_cons]
      have hleads : ∀ x, x ∈ (Sites.add q memo.gaps s site).leads.map Prod.fst ↔
          x ∈ s.leads.map Prod.fst ∨ x = site.2 := fun x => by
        rw [Sites.add, List.map_append, List.mem_append, List.map_singleton, List.mem_singleton]
      constructor
      · rintro ⟨u, hu, hrest⟩
        obtain ⟨hok, hnew, rfl⟩ := enqueueAt_eq_some.1 hu
        obtain ⟨hall, ⟨hnodup, hfresh⟩, rfl⟩ := ih.1 hrest
        refine ⟨⟨hok, hall⟩, ⟨⟨fun hmem => ?_, hnodup⟩, hnew, fun x hx hmem => ?_⟩, rfl⟩
        · exact hfresh _ hmem ((hleads _).2 (Or.inr rfl))
        · exact hfresh x hx ((hleads _).2 (Or.inl hmem))
      · rintro ⟨⟨hok, hall⟩, ⟨⟨hself, hnodup⟩, hnew, hfresh⟩, rfl⟩
        refine ⟨_, enqueueAt_eq_some.2 ⟨hok, hnew, rfl⟩, ih.2 ⟨hall, ⟨hnodup, ?_⟩, rfl⟩⟩
        intro x hx hmem
        rcases (hleads x).1 hmem with hmem | rfl
        · exact hfresh x hx hmem
        · exact hself hx

/-! ## The gaps of the sites -/

theorem allocName_inj {i j : ℕ} {u v : String} (h : allocName q i u = allocName q j v) :
    i = j ∧ u = v :=
  numbered_front_inj (show "_from_".toList = '_' :: "from_".toList from rfl) rfl h

/-- An `enq_alloc` has the gap that is written down for the instance in front of it. -/
theorem lookup_allocs {gaps : Dict ℕ} {ins : List (ℕ × String × String)}
    {site : ℕ × String × String} (hsite : site ∈ ins) :
    (ins.foldl (Sites.add q gaps) ⟨[], ∅⟩).allocs.lookup (allocName q site.1 site.2.1) =
      some ((gaps.lookup site.2.1).getD 0, site.1) := by
  rw [foldl_addSite]
  obtain ⟨z, -, hkey, hlookup⟩ := Dict.lookup_foldl_insert (∅ : Dict (ℕ × ℕ))
    (fun site => allocName q site.1 site.2.1)
    (fun site => ((gaps.lookup site.2.1).getD 0, site.1)) hsite
  obtain ⟨hi, hu⟩ := allocName_inj hkey
  rw [hlookup, hi, hu]

theorem mem_enq_of_mem_sites {i : ℕ} {e : String} {x : String × String}
    (h : (i, e, x) ∈ sites g q) : e ∈ q.enq := by
  obtain ⟨j, -, h⟩ := List.mem_flatMap.1 h
  obtain ⟨e', he', h⟩ := List.mem_flatMap.1 h
  obtain ⟨y, -, h⟩ := List.mem_map.1 h
  cases h
  exact he'

/-- The sites do not mix gaps if they are right. -/
theorem oneGap_of_sitesCorrect {gaps : Dict ℕ}
    (h : SitesCorrect g q (((sites g q).map fun site => (site.1, site.2.2)).foldl
      (Sites.add q gaps) ⟨[], ∅⟩)) : OneGap g q := by
  -- the gap of a site is the one its predecessor has in `enq_gap`
  have hgap : ∀ i e u p, (i, e, u, p) ∈ sites g q → gap g q e = (gaps.lookup u).getD 0 := by
    intro i e u p hsite
    obtain ⟨name, hlead, halloc⟩ := h i e (u, p) hsite
    rw [foldl_addSite, List.nil_append, List.mem_map] at hlead
    obtain ⟨site, hmem, heq⟩ := hlead
    obtain ⟨hx, rfl⟩ := Prod.mk.inj heq
    have hval := (lookup_allocs hmem).symm.trans halloc
    rw [hx] at hval
    exact (Prod.mk.inj (Option.some.inj hval)).1.symm
  intro i e p j e' p' u hsite hsite'
  rw [hgap i e u p hsite, hgap j e' u p' hsite']

/-- The ports of the sites, as the second loop goes over them. -/
theorem map_sites : ((sites g q).map fun site => (site.1, site.2.2)).map Prod.snd =
    (sites g q).map fun site => site.2.2 := by
  rw [List.map_map]
  rfl

/-- A port that is in front of the queue once has one thing memorized behind it. -/
theorem doneOf_of_once {m : Dict ℕ} (honce : ((sites g q).map fun site => site.2.2).Nodup)
    {site : ℕ × String × String × String} (hsite : site ∈ sites g q) {d : String}
    (h : ((sites g q).foldl (Memo.add g q m) ⟨[], [], ∅⟩).done.lookup site.2.2 = some d) :
    doneOf g q site.2.1 = some d := by
  obtain hnil | ⟨site', hmem, hx, hd⟩ := foldl_add_done m h
  · cases hnil
  · obtain rfl := List.inj_on_of_nodup_map honce hmem hsite hx
    exact hd

/-- The channels go on outside of the queue. -/
theorem goesOn_iff : ((∀ i < q.channels, (outputs g q i).all Option.isSome) ∧
    connectsOutputs g q = true) ↔
      ∀ i < q.channels, ∀ out ∈ outputs g q i, ∃ name ∈ out, name ∉ q.own := by
  simp only [connectsOutputs, List.all_eq_true, List.mem_range, Option.all_eq_true,
    decide_eq_true_eq]
  constructor
  · rintro ⟨hsome, hall⟩ i hi out hout
    obtain ⟨name, hname⟩ := Option.isSome_iff_exists.1 (hsome i hi out hout)
    exact ⟨name, hname, hall i hi out hout name hname⟩
  · refine fun h => ⟨fun i hi out hout => ?_, fun i hi out hout name hname => ?_⟩
    · obtain ⟨name, hname, -⟩ := h i hi out hout
      exact Option.isSome_iff_exists.2 ⟨name, hname⟩
    · obtain ⟨name', hname', hown⟩ := h i hi out hout
      rwa [Option.some.inj (hname.symm.trans hname')]

/-- What a graph that compiles is like. -/
theorem connected_of_compileEnqueue (henq : ∀ e ∈ q.enq, e ∈ g.instances) {m : Dict ℕ} {s : Sites}
    (h : compileEnqueue g q m = some s) : Connected g q ∧ ∃ gaps : Dict ℕ,
      s = ((sites g q).map fun site => (site.1, site.2.2)).foldl (Sites.add q gaps) ⟨[], ∅⟩ := by
  simp only [compileEnqueue, Option.bind_eq_bind, Option.bind_eq_some_iff, Option.guard_eq_some',
    Option.pure_def, Option.some.injEq] at h
  obtain ⟨_, hdevice, memo, hmemo, _, ⟨hapart, hfront⟩, s', hrun, _, hconnects, rfl⟩ := h
  obtain ⟨⟨hgo, hok⟩, rfl⟩ := (memorize_eq_some henq).1 hmemo
  obtain ⟨hall, ⟨hnodup, -⟩, rfl⟩ := run_enqueueAt_eq_some.1 hrun
  rw [(foldl_add ..).1, List.nil_append] at hall hnodup ⊢
  rw [map_sites] at hnodup
  refine ⟨⟨hdevice, hapart, hfront, goesOn_iff.1 ⟨hgo, hconnects⟩, fun hout i e x hsite => ?_,
    fun i e x hsite => ?_, hnodup⟩, _, rfl⟩
  · obtain ⟨d, hd, hown⟩ := (hall (i, x) (List.mem_map_of_mem hsite)).2.2 hout
    exact ⟨d, doneOf_of_once hnodup hsite hd, hown⟩
  · exact (hall (i, x) (List.mem_map_of_mem hsite)).1

/-- A graph that is connected as it has to be compiles. -/
theorem Connected.compileEnqueue (h : Connected g q) (henq : ∀ e ∈ q.enq, e ∈ g.instances)
    {m : Dict ℕ} (hm : ∀ e ∈ q.enq, (m.lookup e).isSome) :
    Enqueue.compileEnqueue g q m = some
      (((sites g q).map fun site => (site.1, site.2.2)).foldl (Sites.add q ((sites g q).foldl
        (fun (d : Dict ℕ) site => d.insert site.2.2.1 ((m.lookup site.2.1).getD 0)) ∅)) ⟨[], ∅⟩) := by
  have hgo := goesOn_iff.2 h.goesOn
  have hok : ∀ site ∈ sites g q, SiteOk g q m site.2.1 := by
    rintro ⟨i, e, x⟩ hsite
    refine ⟨fun hout => ?_, hm e (mem_enq_of_mem_sites hsite)⟩
    obtain ⟨d, hd, -⟩ := h.done hout i e x hsite
    exact Option.isSome_iff_exists.2 ⟨d, hd⟩
  have hmemo := (memorize_eq_some henq).2 ⟨⟨hgo.1, hok⟩, rfl⟩
  have hports : ∀ site ∈ (sites g q).map fun site => (site.1, site.2.2),
      PortOk q ((sites g q).foldl (Memo.add g q m) ⟨[], [], ∅⟩) site.2 := by
    rintro _ hsite
    obtain ⟨⟨i, e, u, p⟩, hmem, rfl⟩ := List.mem_map.1 hsite
    refine ⟨h.outside i e (u, p) hmem, ?_, fun hout => ?_⟩
    · obtain ⟨z, -, -, hval⟩ := Dict.lookup_foldl_insert (∅ : Dict ℕ)
        (fun site : ℕ × String × String × String => site.2.2.1)
        (fun site => (m.lookup site.2.1).getD 0) hmem
      rw [(foldl_add ..).2]
      exact ⟨_, hval⟩
    · obtain ⟨d, hd, hown⟩ := h.done hout i e (u, p) hmem
      obtain ⟨d', hd'⟩ := Option.isSome_iff_exists.1 (lookup_foldl_add_done (s := ⟨[], [], ∅⟩) m
        (Or.inr ⟨hmem, Option.isSome_iff_exists.2 ⟨d, hd⟩⟩))
      refine ⟨d', hd', ?_⟩
      rwa [Option.some.inj ((doneOf_of_once h.once hmem hd').symm.trans hd)]
  have hrun := run_enqueueAt_eq_some (s := ⟨[], ∅⟩).2
    ⟨hports, ⟨map_sites ▸ h.once, fun x _ => List.not_mem_nil⟩, rfl⟩
  simp only [Enqueue.compileEnqueue, Option.bind_eq_bind, Option.bind_eq_some_iff,
    Option.guard_eq_some', Option.pure_def, Option.some.injEq]
  refine ⟨(), h.device, _, hmemo, (), ⟨h.apart, h.front⟩, _, ?_, (), hgo.2, rfl⟩
  rw [(foldl_add ..).1, List.nil_append, hrun, (foldl_add ..).2]

/-- The gaps are right where the map is, no instance is in front of enqueue instances with
different gaps, and the queue is connected as it has to be. -/
theorem gapsCorrect_of_map (henq : ∀ e ∈ q.enq, e ∈ g.instances) :
    GapsCorrect g q ↔ (∃ m, computeEnqueueGap g q = some m ∧ MapCorrect g q m) ∧ OneGap g q ∧
      Connected g q := by
  constructor
  · rintro ⟨m, s, hm, hmap, hcompile, hsites⟩
    obtain ⟨hconn, gaps, rfl⟩ := connected_of_compileEnqueue henq hcompile
    exact ⟨⟨m, hm, hmap⟩, oneGap_of_sitesCorrect hsites, hconn⟩
  · rintro ⟨⟨m, hm, hmap⟩, hone, hconn⟩
    have hcompile := hconn.compileEnqueue henq (m := m) fun e he => by rw [hmap e he]; rfl
    refine ⟨m, _, hm, hmap, hcompile, fun i e x hsite => ?_⟩
    obtain ⟨u, p⟩ := x
    have hmem : (i, u, p) ∈ (sites g q).map fun site => (site.1, site.2.2) :=
      List.mem_map.2 ⟨_, hsite, rfl⟩
    refine ⟨allocName q i u, ?_, ?_⟩
    · rw [foldl_addSite, List.nil_append]
      exact List.mem_map.2 ⟨_, hmem, rfl⟩
    · -- the instance in front of the queue has the gap of what is behind it
      obtain ⟨⟨j, e', u', p'⟩, hmem', hkey, hval⟩ := Dict.lookup_foldl_insert (∅ : Dict ℕ)
        (fun site : ℕ × String × String × String => site.2.2.1)
        (fun site => (m.lookup site.2.1).getD 0) hsite
      obtain rfl : u' = u := hkey
      rw [lookup_allocs hmem, hval, hmap e' (mem_enq_of_mem_sites hmem'), Option.getD_some,
        Option.getD_some, hone _ _ _ _ _ _ _ hmem' hsite]

/-- The instances one after the other are looked at. -/
theorem closed_of_entries (h : ∀ entry ∈ g.instances.entries,
    ∀ y ∈ entry.2.nexts ++ (entry.2.crosses entry.1).toList, y ∈ g.instances) : g.Closed := by
  rintro x y (⟨inst, hinst, hy⟩ | ⟨inst, hinst, hcross⟩)
  · exact h ⟨x, inst⟩ (AList.mem_lookup_iff.1 hinst) y (List.mem_append_left _ hy)
  · exact h ⟨x, inst⟩ (AList.mem_lookup_iff.1 hinst) y
      (List.mem_append_right _ (Option.mem_toList.2 hcross))

/-- Two producers, one of which is behind the queue, with an enqueue instance each. -/
def feedbackQueue : Queue := ⟨"q", 1, ["enq1", "enq2"], "deq", none, false⟩

def feedback : Graph :=
  let instances : Dict Instance := ∅
  ⟨((((instances.insert "work" ⟨none, [("again", "enq1", "inp0")],
      AList.insert "in" [("deq", "out0")] ∅, some "consumer"⟩).insert "deq"
      ⟨some feedbackQueue, [("out0", "work", "in")], ∅, some "consumer"⟩).insert "enq1"
      ⟨some feedbackQueue, [], AList.insert "inp0" [("work", "again")] ∅, some "consumer"⟩).insert
      "enq2" ⟨some feedbackQueue, [], AList.insert "inp0" [("src", "out")] ∅, none⟩).insert "src"
      ⟨none, [("out", "enq2", "inp0")], ∅, none⟩, AList.insert "consumer" "CPU" ∅⟩

/-- What the queue leads to. -/
theorem feedback_reach {x : String} (h : feedback.Reach "deq" x) : x ∈ ["deq", "work", "enq1"] := by
  have hall : ∀ entry ∈ feedback.instances.entries, entry.1 ∈ ["deq", "work", "enq1"] →
      ∀ y ∈ entry.2.nexts ++ (entry.2.crosses entry.1).toList, y ∈ ["deq", "work", "enq1"] := by
    decide +kernel
  induction h with
  | refl => exact List.mem_cons_self
  | tail _ hop ih =>
      rcases hop with ⟨inst, hinst, hy⟩ | ⟨inst, hinst, hcross⟩
      · exact hall ⟨_, inst⟩ (AList.mem_lookup_iff.1 hinst) ih _ (List.mem_append_left _ hy)
      · exact hall ⟨_, inst⟩ (AList.mem_lookup_iff.1 hinst) ih _
          (List.mem_append_right _ (Option.mem_toList.2 hcross))

theorem feedback_along : feedback.Along "deq" "enq1" := by
  have hwork : feedback.Edge "deq" "work" := ⟨_, rfl, by decide +kernel⟩
  have henq : feedback.Edge "work" "enq1" := ⟨_, rfl, by decide +kernel⟩
  exact .tail (.single hwork) henq

theorem feedback_not_reach : ¬ feedback.Reach "deq" "enq2" := by
  intro h
  have hfound := feedback_reach h
  simp at hfound

theorem feedback_oneNear : OneNear feedback feedbackQueue := by
  refine Or.inr ⟨"enq1", by decide, Or.inl feedback_along, fun e he hreach => ?_⟩
  rcases List.mem_cons.1 he with rfl | he
  · rfl
  · obtain rfl := List.mem_singleton.1 he
    exact absurd hreach feedback_not_reach

/-- A queue with two enqueue instances, both behind its dequeue instance. -/
def cycleQueue : Queue := ⟨"q", 1, ["enq1", "enq2"], "deq", none, false⟩

def cycle : Graph :=
  let instances : Dict Instance := ∅
  ⟨(((instances.insert "enq2"
      ⟨some cycleQueue, [], AList.insert "inp0" [("work", "again")] ∅, none⟩).insert "enq1"
      ⟨some cycleQueue, [], AList.insert "inp0" [("work", "more")] ∅, none⟩).insert "work"
      ⟨none, [("more", "enq1", "inp0"), ("again", "enq2", "inp0")], ∅, none⟩).insert "deq"
      ⟨some cycleQueue, [("out0", "work", "in")], ∅, none⟩, ∅⟩

end Enqueue
end Floem
