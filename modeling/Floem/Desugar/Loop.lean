import Mathlib
import Floem.Desugar.Level

/-!
# The loop over the ports of a block

* `Smooth` — the loop comes to its end: every port is found, and the loop is over when an order
  has been adjusted.
* `loopOf` — what it has made of the block then.
* `forkLoop_eq_some` — so it is.
-/

namespace Floem
namespace Desugar

variable (it : Iteration) (s : List Stmt)

/-! ## What is inserted -/

/-- The fork of a port. -/
def forkElement (k : Key) (forkId : ℕ) : Element :=
  forkMultiValues (forkName k.1 (k.2.getD "") forkId) (fanout s k)
    (((portOf s k).map Port.argtypes).getD [])

def frontOf (k : Key) (forkId : ℕ) : List Stmt :=
  [.element (forkElement s k forkId),
    .elementInstance (forkElement s k forkId).name (forkInst k forkId) []]

def backOf (k : Key) (forkId : ℕ) : List Stmt :=
  .connect k.1 (forkInst k forkId) k.2 (some "in") ::
    (resourceMap s k.1).toList.map fun resource => .resourceMap resource (forkInst k forkId)

def adjustOrder (inst fork : String) (body : List Stmt) : List Stmt :=
  match resourceOrder s inst with
  | some j => body.modify j (Stmt.adjust inst fork)
  | none => body

def adjustAll (ks : List Key) (forkId : ℕ) (body : List Stmt) : List Stmt :=
  (ks.zipIdx forkId).foldl (fun body c => adjustOrder s c.1.1 (forkInst c.1 c.2) body) body

/-- The statements after these ports. -/
def loopOf (body : List Stmt) (forkId : ℕ) (ks : List Key) : Loop where
  front := (ks.zipIdx forkId).reverse.flatMap fun c => frontOf s c.1 c.2
  body := redirectAll (newName ks forkId) [] s (adjustAll s ks forkId body)
  back := (ks.zipIdx forkId).flatMap fun c => backOf s c.1 c.2
  forkId := forkId + ks.length
  isProgram := ks.all fun k => resourceOrder s k.1 = none

/-- The round of a port that is forked. -/
def turn (l : Loop) (k : Key) : Loop where
  front := frontOf s k l.forkId ++ l.front
  body := redirectKey k (forkInst k l.forkId) 1 s (adjustOrder s k.1 (forkInst k l.forkId) l.body)
  back := l.back ++ backOf s k l.forkId
  forkId := l.forkId + 1
  isProgram := (resourceOrder s k.1).isNone

/-- The loop comes to its end. -/
structure Smooth (ks : List Key) : Prop where
  found : ∀ k ∈ ks, (portOf s k).isSome
  last : ∀ k ∈ ks.dropLast, resourceOrder s k.1 = none

variable {it s}

theorem portOf_name {k : Key} {port : Port} (h : portOf s k = some port) :
    k.2 = some port.name := by
  simp only [portOf, Option.bind_eq_bind, Option.bind_eq_some_iff] at h
  obtain ⟨_, _, _, _, hfind⟩ := h
  have h := List.find?_some hfind
  exact (of_decide_eq_true h).symm

theorem zipIdx_concat (ks : List Key) (k : Key) (forkId : ℕ) :
    (ks ++ [k]).zipIdx forkId = ks.zipIdx forkId ++ [(k, forkId + ks.length)] := by
  rw [List.zipIdx_append, List.zipIdx_cons, List.zipIdx_nil]

theorem adjustAll_concat (ks : List Key) (k : Key) (forkId : ℕ) (body : List Stmt) :
    adjustAll s (ks ++ [k]) forkId body =
      adjustOrder s k.1 (forkInst k (forkId + ks.length)) (adjustAll s ks forkId body) := by
  rw [adjustAll, zipIdx_concat, List.foldl_append]
  rfl

theorem adjustOrder_redirectAll (new : Key → Option String) (inst fork : String)
    (seen : List Key) (os sts : List Stmt) :
    adjustOrder s inst fork (redirectAll new seen os sts) =
      redirectAll new seen os (adjustOrder s inst fork sts) := by
  unfold adjustOrder
  split
  · exact modify_redirectAll ..
  · rfl

theorem isProgram_loopOf {body : List Stmt} {forkId : ℕ} {ks : List Key} :
    (loopOf s body forkId ks).isProgram = true ↔ ∀ k ∈ ks, resourceOrder s k.1 = none := by
  simp [loopOf]

theorem forkStep_eq {k : Key} (hfan : 1 < fanout s k) (l : Loop) :
    forkStep s l k =
      if (portOf s k).isSome ∧ l.isProgram = true then some (turn s l k) else none := by
  rw [forkStep, if_pos hfan]
  cases hport : portOf s k with
  | none => simp
  | some port =>
      have hname : port.name = k.2.getD "" := by rw [portOf_name hport, Option.getD_some]
      have hargs : port.argtypes = ((portOf s k).map Port.argtypes).getD [] := by
        rw [hport, Option.map_some, Option.getD_some]
      cases hprogram : l.isProgram with
      | false => simp [guard, failure]
      | true =>
          have hkey : k.2 = some (k.2.getD "") := by rw [← hname, portOf_name hport]
          simp only [guard, Option.bind_eq_bind, Option.bind_some, if_true, Option.isSome_some,
            and_self, turn, frontOf, backOf, forkElement, adjustOrder, forkInst, hname, ← hargs,
            Option.pure_def]
          rw [← hkey]
          rfl

/-- The rounds so far and one more. -/
theorem turn_loopOf {body : List Stmt} {forkId : ℕ} {ks : List Key} {k : Key} (hk : k ∉ ks)
    (hdone : ∀ k ∈ ks, resourceOrder s k.1 = none) :
    turn s (loopOf s body forkId ks) k = loopOf s body forkId (ks ++ [k]) := by
  have hfresh : newName ks forkId k = none := newName_eq_none.2 hk
  have hbody := redirectKey_redirectAll (forkInst k (forkId + ks.length)) hfresh [] s
    (adjustAll s (ks ++ [k]) forkId body)
  rw [List.count_nil, Nat.zero_add] at hbody
  simp only [turn, loopOf]
  rw [adjustOrder_redirectAll, ← adjustAll_concat, hbody, newName_concat ks hk]
  congr 1
  · rw [zipIdx_concat, List.reverse_append, List.flatMap_append]
    simp
  · rw [zipIdx_concat, List.flatMap_append]
    simp
  · rw [List.length_append]
    rfl
  · rw [List.all_append, List.all_eq_true.2 (by simpa using hdone)]
    cases horder : resourceOrder s k.1 <;> simp [horder]

/-- **One round**: the loop goes on if the port is found and no order has been adjusted. -/
theorem forkStep_eq_some {body : List Stmt} {forkId : ℕ} {ks : List Key} {k : Key} {l : Loop}
    (hfan : 1 < fanout s k) (hk : k ∉ ks) :
    forkStep s (loopOf s body forkId ks) k = some l ↔
      (portOf s k).isSome ∧ (∀ k ∈ ks, resourceOrder s k.1 = none) ∧
        l = loopOf s body forkId (ks ++ [k]) := by
  rw [forkStep_eq hfan, Option.ite_none_right_eq_some, isProgram_loopOf, and_assoc]
  refine and_congr_right fun _ => and_congr_right fun hdone => ?_
  rw [turn_loopOf hk hdone, Option.some.injEq, eq_comm]

theorem smooth_concat {ks : List Key} {k : Key} :
    Smooth s (ks ++ [k]) ↔
      (∀ k ∈ ks, (portOf s k).isSome) ∧ (portOf s k).isSome ∧
        ∀ k ∈ ks, resourceOrder s k.1 = none := by
  constructor
  · rintro ⟨hfound, hlast⟩
    rw [List.dropLast_concat] at hlast
    exact ⟨fun k' hk' => hfound k' (List.mem_append_left _ hk'),
      hfound k (List.mem_concat_self ..), hlast⟩
  · rintro ⟨hfound, hk, hlast⟩
    refine ⟨fun k' hk' => ?_, by rwa [List.dropLast_concat]⟩
    obtain hk' | hk' := List.mem_append.1 hk'
    · exact hfound k' hk'
    · rwa [List.mem_singleton.1 hk']

/-- **The rounds of ports that are forked.** -/
theorem foldlM_eq_some {body : List Stmt} {forkId : ℕ} {ks : List Key} (hnodup : ks.Nodup)
    (hfan : ∀ k ∈ ks, 1 < fanout s k) {l : Loop} :
    ks.foldlM (forkStep s) ⟨[], body, [], forkId, true⟩ = some l ↔
      Smooth s ks ∧ l = loopOf s body forkId ks := by
  induction ks using List.reverseRecOn generalizing l with
  | nil =>
      have hstart : loopOf s body forkId [] = ⟨[], body, [], forkId, true⟩ := by
        simp only [loopOf, List.zipIdx_nil, adjustAll]
        congr 1
        exact redirectAll_none [] s body
      rw [List.foldlM_nil, hstart, Option.pure_def, Option.some.injEq, eq_comm]
      refine (and_iff_right ⟨?_, ?_⟩).symm <;> simp
  | append_singleton ks k ih =>
      have hparts := List.nodup_append.1 hnodup
      have hk : k ∉ ks := fun hmem => hparts.2.2 k hmem k (List.mem_singleton_self k) rfl
      have hrounds := @ih hparts.1 fun k' hk' => hfan k' (List.mem_append_left _ hk')
      rw [List.foldlM_append, Option.bind_eq_bind, Option.bind_eq_some_iff, smooth_concat]
      have hround : ∀ l', ([k].foldlM (forkStep s) l' : Option Loop) = forkStep s l' k := by
        intro l'
        simp
      constructor
      · rintro ⟨l', hl', hl⟩
        obtain ⟨hsmooth, rfl⟩ := hrounds.1 hl'
        rw [hround, forkStep_eq_some (hfan k (List.mem_concat_self ..)) hk] at hl
        exact ⟨⟨hsmooth.found, hl.1, hl.2.1⟩, hl.2.2⟩
      · rintro ⟨⟨hfound, hport, hdone⟩, rfl⟩
        refine ⟨_, hrounds.2 ⟨⟨hfound, fun k' hk' => ?_⟩, rfl⟩, ?_⟩
        · exact hdone k' (List.dropLast_subset ks hk')
        · rw [hround, forkStep_eq_some (hfan k (List.mem_concat_self ..)) hk]
          exact ⟨hport, hdone, rfl⟩

/-- The other ports do nothing. -/
theorem foldlM_forked (ks : List Key) (l : Loop) :
    ks.foldlM (forkStep s) l = (ks.filter fun k => 1 < fanout s k).foldlM (forkStep s) l := by
  induction ks generalizing l with
  | nil => rfl
  | cons k ks ih =>
      by_cases hfan : 1 < fanout s k
      · rw [List.filter_cons_of_pos (by simpa using hfan), List.foldlM_cons, List.foldlM_cons]
        exact congrArg _ (funext ih)
      · have hskip : forkStep s l k = some l := if_neg hfan
        rw [List.filter_cons_of_neg (by simpa using hfan), List.foldlM_cons, hskip]
        exact ih l

/-- **The loop over all ports.** -/
theorem forkLoop_eq_some {body : List Stmt} {forkId : ℕ} {l : Loop} :
    forkLoop it s body forkId = some l ↔
      Smooth s (forked it s) ∧ l = loopOf s body forkId (forked it s) := by
  rw [forkLoop, foldlM_forked]
  exact foldlM_eq_some (forked_nodup s) fun k hk => mem_forked.1 hk

end Desugar
end Floem
