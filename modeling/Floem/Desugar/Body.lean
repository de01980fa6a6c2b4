import Floem.Desugar.Loop

/-!
# The statements of one block

* `Blocky` — a statement whose inner blocks are done.
* `conns_body`, `backsIn` — the connections after the loop.
* `bodyOf` — the statements that were there.
* `body_cases` — what has become of a statement; at most one order has been adjusted.
-/

namespace Floem
namespace Desugar

open Lib

variable {it : Iteration} {s cs : List Stmt} {forkId : ℕ}

/-- An instance with a port that is forked. -/
def ForkedInst (s : List Stmt) (inst : String) : Prop := ∃ port, 1 < fanout s (inst, port)

/-- The number of forks of the block. -/
def forkCount (s : List Stmt) : ℕ := (keys s).countP fun k => 1 < fanout s k

/-- The statements that were there: each fork put two in front. -/
def bodyOf (s out : List Stmt) : List Stmt := (out.drop (2 * forkCount s)).take s.length

/-! ## The connections afterwards -/

/-- A statement with its inner blocks done. -/
def Blocky (st st' : Stmt) : Prop :=
  st' = st ∨ ∃ kind t t', st = .block kind t ∧ st' = .block kind t'

theorem Blocky.conn?_eq {st st' : Stmt} (h : Blocky st st') : st'.conn? = st.conn? := by
  obtain rfl | ⟨_, _, _, rfl, rfl⟩ := h <;> rfl

/-- The connections to forks with these numbers. -/
def backsIn (forks : List (Key × ℕ)) : List (Key × Dest) :=
  forks.map fun c => (c.1, forkInst c.1 c.2, some "in")

theorem conns_append (l l' : List Stmt) : conns (l ++ l') = conns l ++ conns l' :=
  List.filterMap_append

theorem conns_flatMap {α : Type} (g : α → List Stmt) (l : List α) :
    conns (l.flatMap g) = l.flatMap fun a => conns (g a) := by
  induction l with
  | nil => rfl
  | cons a l ih => rw [List.flatMap_cons, List.flatMap_cons, conns_append, ih]

theorem conns_front (ks : List (Key × ℕ)) :
    conns (ks.flatMap fun c => frontOf s c.1 c.2) = [] := by
  rw [conns_flatMap]
  exact List.flatMap_eq_nil_iff.2 fun _ _ => rfl

theorem conns_backOf (k : Key) (i : ℕ) :
    conns (backOf s k i) = [(k, forkInst k i, some "in")] := by
  cases hmap : resourceMap s k.1 <;> simp [backOf, conns, hmap, Stmt.conn?]

theorem conns_back (forks : List (Key × ℕ)) :
    conns (forks.flatMap fun c => backOf s c.1 c.2) = backsIn forks := by
  rw [conns_flatMap, backsIn, List.map_eq_flatMap]
  exact List.flatMap_congr fun c _ => conns_backOf c.1 c.2

theorem forall₂_modify {R : Stmt → Stmt → Prop} {os sts : List Stmt} {g : Stmt → Stmt}
    (h : List.Forall₂ R os sts) (j : ℕ)
    (hg : ∀ o st, os[j]? = some o → R o st → R o (g st)) :
    List.Forall₂ R os (sts.modify j g) := by
  induction h generalizing j with
  | nil => rw [List.modify_nil]; exact .nil
  | @cons o st os sts hst htail ih =>
      cases j with
      | zero => exact .cons (hg o st rfl hst) htail
      | succ j => exact .cons hst (ih j hg)

/-- Adjusting an order changes no connection. -/
theorem adjustAll_conn? {os cs : List Stmt} (ks : List Key) (forkId : ℕ)
    (h : List.Forall₂ (fun o st => Stmt.conn? st = Stmt.conn? o) os cs) :
    List.Forall₂ (fun o st => Stmt.conn? st = Stmt.conn? o) os (adjustAll s ks forkId cs) := by
  unfold adjustAll
  generalize ks.zipIdx forkId = l
  induction l generalizing cs with
  | nil => exact h
  | cons c l ih =>
      refine ih ?_
      show List.Forall₂ _ os (adjustOrder s c.1.1 _ cs)
      unfold adjustOrder
      split
      · exact forall₂_modify h _ fun o st _ hst => (Stmt.conn?_adjust ..).trans hst
      · exact h

/-- **The connections that were there.** -/
theorem conns_body (h : List.Forall₂ Blocky s cs) (ks : List Key) (forkId : ℕ) :
    conns (loopOf s cs forkId ks).body = split (newName ks forkId) outPort [] (conns s) := by
  have hconn := adjustAll_conn? (s := s) ks forkId (h.imp fun _ _ => Blocky.conn?_eq)
  simp only [loopOf]
  exact conns_redirectAll _ _ hconn

theorem map_fst_backsIn (forks : List (Key × ℕ)) :
    (backsIn forks).map Prod.fst = forks.map Prod.fst := by
  rw [backsIn, List.map_map]
  rfl

theorem mem_conns_of_forked {k : Key} (h : 1 < fanout s k) : k ∈ (conns s).map Prod.fst := by
  rw [fanout_eq] at h
  exact List.count_pos_iff.1 (Nat.lt_of_succ_lt h)

/-! ## The statements that were there -/

section Body

theorem forall₂_getElem? {R : Stmt → Stmt → Prop} {os sts : List Stmt}
    (h : List.Forall₂ R os sts) {j : ℕ} {o : Stmt} (ho : os[j]? = some o) :
    ∃ st, sts[j]? = some st ∧ R o st := by
  induction h generalizing j with
  | nil => simp at ho
  | @cons o' st os sts hst _ ih =>
      cases j with
      | zero =>
          obtain rfl : o' = o := by simpa using ho
          exact ⟨st, rfl, hst⟩
      | succ j => exact ih (by simpa using ho)

theorem forall₂_of_getElem? {R : Stmt → Stmt → Prop} {os sts : List Stmt}
    (hlength : os.length = sts.length)
    (h : ∀ (j : ℕ) (o st : Stmt), os[j]? = some o → sts[j]? = some st → R o st) : List.Forall₂ R os sts := by
  induction os generalizing sts with
  | nil =>
      rw [List.length_eq_zero_iff.1 hlength.symm]
      exact .nil
  | cons o os ih =>
      cases sts with
      | nil => cases hlength
      | cons st sts =>
          exact .cons (h 0 o st rfl rfl) (ih (Nat.succ.inj hlength) fun j => h (j + 1))

/-- The statement in the place of `o`. -/
def redirected (new : Key → Option String) (i : ℕ) (o st : Stmt) : Stmt :=
  match o.key?.bind new with
  | some f => st.redirect f i
  | none => st

theorem getElem?_redirectAll (new : Key → Option String) (seen : List Key) {os sts : List Stmt}
    {j : ℕ} {o st : Stmt} (ho : os[j]? = some o) (hst : sts[j]? = some st) :
    ∃ i, (redirectAll new seen os sts)[j]? = some (redirected new i o st) := by
  induction os generalizing seen sts j with
  | nil => simp at ho
  | cons o' os ih =>
      cases sts with
      | nil => simp at hst
      | cons st' sts =>
          cases j with
          | zero =>
              obtain rfl : o' = o := by simpa using ho
              obtain rfl : st' = st := by simpa using hst
              cases hkey : o'.key? with
              | none => exact ⟨0, by simp [redirectAll, redirected, hkey]⟩
              | some k =>
                  refine ⟨seen.count k + 1, ?_⟩
                  cases hnew : new k <;> simp [redirectAll, redirected, hkey, hnew]
          | succ j =>
              rw [List.getElem?_cons_succ] at ho hst
              cases hkey : o'.key? with
              | none => simpa only [redirectAll, hkey, List.getElem?_cons_succ] using ih _ ho hst
              | some k => simpa only [redirectAll, hkey, List.getElem?_cons_succ] using ih _ ho hst

theorem length_redirectAll (new : Key → Option String) (seen : List Key) (os sts : List Stmt) :
    (redirectAll new seen os sts).length = sts.length := by
  induction os generalizing seen sts with
  | nil => rw [redirectAll]; simp
  | cons o os ih =>
      cases sts with
      | nil => rw [redirectAll]; simp
      | cons st sts => cases hkey : o.key? <;> simp [redirectAll, hkey, ih]

theorem length_adjustAll (ks : List Key) : (adjustAll s ks forkId cs).length = cs.length := by
  unfold adjustAll
  generalize ks.zipIdx forkId = l
  induction l generalizing cs with
  | nil => rfl
  | cons c l ih =>
      refine ih.trans ?_
      simp only [adjustOrder]
      split
      · exact List.length_modify ..
      · rfl

variable (it forkId) in
theorem length_body (hcs : List.Forall₂ Blocky s cs) :
    (loopOf s cs forkId (forked it s)).body.length = s.length := by
  rw [loopOf, length_redirectAll, length_adjustAll, hcs.length_eq]

theorem length_forked : (forked it s).length = forkCount s := by
  rw [forked, ← List.countP_eq_length_filter]
  exact (it.perm _).countP_eq _

/-- The forks are in front. -/
theorem bodyOf_statements (hcs : List.Forall₂ Blocky s cs) :
    bodyOf s (loopOf s cs forkId (forked it s)).statements =
      (loopOf s cs forkId (forked it s)).body := by
  have hfront : (loopOf s cs forkId (forked it s)).front.length = 2 * forkCount s := by
    have hpairs : ∀ l : List (Key × ℕ),
        (l.flatMap fun c => frontOf s c.1 c.2).length = 2 * l.length := by
      intro l
      induction l with
      | nil => rfl
      | cons c l ih =>
          rw [List.flatMap_cons, List.length_append, ih, List.length_cons, frontOf,
            List.length_cons, List.length_singleton]
          omega
    rw [loopOf, hpairs, List.length_reverse, List.length_zipIdx, length_forked]
  rw [bodyOf, Loop.statements, List.append_assoc, ← hfront, List.drop_left,
    ← length_body it forkId hcs, List.take_left]

end Body

/-! ## The orders -/

theorem resourceOrder_eq_none {x : String} :
    resourceOrder s x = none ↔ ∀ st ∈ s, x ∉ st.firsts := by
  rw [resourceOrder, List.find?_eq_none]
  constructor
  · intro h st hst hx
    obtain ⟨j, hj, rfl⟩ := List.getElem_of_mem hst
    refine h j (List.mem_reverse.2 (List.mem_range.2 hj)) ?_
    simpa [List.getElem?_eq_getElem hj] using hx
  · intro h j hj
    have hj := List.mem_range.1 (List.mem_reverse.1 hj)
    simpa [List.getElem?_eq_getElem hj] using h _ (List.getElem_mem hj)

theorem resourceOrder_eq_some {x : String} {j : ℕ} (h : resourceOrder s x = some j) :
    ∃ st, s[j]? = some st ∧ x ∈ st.firsts := by
  have hfind := List.find?_some h
  cases hst : s[j]? with
  | none => simp [hst] at hfind
  | some st => exact ⟨st, rfl, by simpa [hst] using hfind⟩

theorem adjustAll_of_none {ks : List Key} (h : ∀ k ∈ ks, resourceOrder s k.1 = none) :
    adjustAll s ks forkId cs = cs := by
  induction ks using List.reverseRecOn with
  | nil => rfl
  | append_singleton ks k ih =>
      rw [adjustAll_concat, adjustOrder, h k (List.mem_concat_self ..)]
      exact ih fun k' hk' => h k' (List.mem_append_left _ hk')

variable (cs forkId) in
/-- **At most one order has been adjusted.** -/
theorem adjustAll_cases (hsmooth : Smooth s (forked it s)) :
    (∀ k ∈ forked it s, resourceOrder s k.1 = none) ∧
        adjustAll s (forked it s) forkId cs = cs ∨
      ∃ k f j, newName (forked it s) forkId k = some f ∧ resourceOrder s k.1 = some j ∧
        (∀ k' ∈ forked it s, resourceOrder s k'.1 ≠ none → k' = k) ∧
        adjustAll s (forked it s) forkId cs = cs.modify j (Stmt.adjust k.1 f) := by
  have hnodup : (forked it s).Nodup := forked_nodup s
  generalize forked it s = ks at hsmooth hnodup ⊢
  cases ks using List.reverseRecOn with
  | nil => exact Or.inl ⟨fun k hk => absurd hk List.not_mem_nil, rfl⟩
  | append_singleton ks k =>
      obtain ⟨_, _, hdone⟩ := smooth_concat.1 hsmooth
      have hk : k ∉ ks := fun hmem =>
        (List.nodup_append.1 hnodup).2.2 k hmem k (List.mem_singleton_self k) rfl
      rw [adjustAll_concat, adjustAll_of_none hdone]
      cases horder : resourceOrder s k.1 with
      | none =>
          refine Or.inl ⟨fun k' hk' => ?_, by rw [adjustOrder, horder]⟩
          obtain hk' | hk' := List.mem_append.1 hk'
          · exact hdone k' hk'
          · rwa [List.mem_singleton.1 hk']
      | some j =>
          refine Or.inr ⟨k, _, j, ?_, horder, fun k' hk' hsome => ?_, by rw [adjustOrder, horder]⟩
          · rw [newName_concat ks hk, Function.update_self]
          · obtain hk' | hk' := List.mem_append.1 hk'
            · exact absurd (hdone k' hk') hsome
            · exact List.mem_singleton.1 hk'

theorem replace_ne {as : List String} {x f : String} (hx : x ∈ as) (hf : f ≠ x) :
    as.replace x f ≠ as := by
  induction as with
  | nil => exact absurd hx List.not_mem_nil
  | cons a as ih =>
      by_cases ha : a = x
      · subst ha
        simpa [List.replace_cons] using hf
      · have hx := (List.mem_cons.1 hx).resolve_left (Ne.symm ha)
        rw [List.replace_cons, beq_false_of_ne (Ne.symm ha)]
        exact fun h => ih hx (List.cons.inj h).2

variable (forkId) in
/-- **What has become of a statement**: an order is adjusted if it is the last one of a forked
instance. -/
theorem body_cases (hcs : List.Forall₂ Blocky s cs) (hsmooth : Smooth s (forked it s)) {j : ℕ}
    {o : Stmt} (ho : s[j]? = some o) :
    ∃ c i, Blocky o c ∧
      ((loopOf s cs forkId (forked it s)).body[j]? =
          some (redirected (newName (forked it s) forkId) i o c) ∧
        (∀ k ∈ forked it s, resourceOrder s k.1 ≠ some j) ∨
      ∃ k f, newName (forked it s) forkId k = some f ∧ resourceOrder s k.1 = some j ∧
        k.1 ∈ o.firsts ∧
        (loopOf s cs forkId (forked it s)).body[j]? =
          some (redirected (newName (forked it s) forkId) i o (c.adjust k.1 f))) := by
  obtain ⟨c, hc, hblocky⟩ := forall₂_getElem? hcs ho
  obtain ⟨hnone, hsame⟩ | ⟨k, f, j₀, hk, horder, honly, hadjust⟩ :=
    adjustAll_cases cs forkId hsmooth
  · obtain ⟨i, hi⟩ := getElem?_redirectAll (newName (forked it s) forkId) [] ho hc
    refine ⟨c, i, hblocky, Or.inl ⟨by rw [loopOf, hsame]; exact hi, fun k hk horder => ?_⟩⟩
    rw [hnone k hk] at horder
    cases horder
  · obtain ⟨st₀, hst₀, hx₀⟩ := resourceOrder_eq_some horder
    by_cases hj : j₀ = j
    · subst hj
      obtain rfl : st₀ = o := Option.some.inj (hst₀.symm.trans ho)
      have hmodify : (cs.modify j₀ (Stmt.adjust k.1 f))[j₀]? = some (c.adjust k.1 f) := by
        rw [List.getElem?_modify_eq, hc]
        rfl
      obtain ⟨i, hi⟩ := getElem?_redirectAll (newName (forked it s) forkId) [] ho hmodify
      exact ⟨c, i, hblocky, Or.inr ⟨k, f, hk, horder, hx₀, by rwa [loopOf, hadjust]⟩⟩
    · have hmodify : (cs.modify j₀ (Stmt.adjust k.1 f))[j]? = some c := by
        rw [List.getElem?_modify_ne _ _ hj, hc]
      obtain ⟨i, hi⟩ := getElem?_redirectAll (newName (forked it s) forkId) [] ho hmodify
      refine ⟨c, i, hblocky, Or.inl ⟨by rwa [loopOf, hadjust], fun k' hk' horder' => hj ?_⟩⟩
      have hsome : resourceOrder s k'.1 ≠ none := by
        rw [horder']
        exact Option.some_ne_none j
      obtain rfl := honly k' hk' hsome
      exact Option.some.inj (horder.symm.trans horder')

/-- A forked instance on the left side of an order that is not adjusted is in another one too. -/
theorem other_order {j : ℕ} {o : Stmt} (ho : s[j]? = some o)
    (hne : ∀ k ∈ forked it s, resourceOrder s k.1 ≠ some j) {x : String} (hx : x ∈ o.firsts)
    (hfork : ForkedInst s x) : ∃ j' st', j' ≠ j ∧ s[j']? = some st' ∧ x ∈ st'.firsts := by
  obtain ⟨port, hport⟩ := hfork
  cases horder : resourceOrder s x with
  | none => exact absurd hx (resourceOrder_eq_none.1 horder o (List.mem_of_getElem? ho))
  | some j' =>
      obtain ⟨st', hst', hx'⟩ := resourceOrder_eq_some horder
      refine ⟨j', st', fun hj => hne (x, port) (mem_forked.2 hport) ?_, hst', hx'⟩
      rw [horder, hj]

theorem mem_forked_of_newName {k : Key} {f : String}
    (h : newName (forked it s) forkId k = some f) : k ∈ forked it s := by
  by_contra hno
  rw [newName_eq_none.2 hno] at h
  cases h

theorem Blocky.eq_of_not_block {st st' : Stmt} (h : Blocky st st')
    (hno : ∀ kind t, st ≠ .block kind t) : st' = st :=
  h.resolve_right fun ⟨kind, t, _, heq, _⟩ => hno kind t heq

end Desugar
end Floem
