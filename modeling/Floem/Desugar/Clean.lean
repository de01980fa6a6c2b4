import Floem.Desugar.Apart

/-!
# Scopes where the forks keep everything

* `Finishes` — the loop over a block comes to its end and changes no list of the given program.
* `CleanScope` — a scope where everything is kept.
* `order_cases`, `other_cases` — what has become of a statement of a block.
* `preserved_of_clean` — a clean scope is kept.
* `clean_of_preserved` — a scope that is kept is clean.
-/

namespace Floem
namespace Desugar

open Lib

/-! ## The condition -/

/-- Every port that is forked is found, and only the last one has an order, which has no list
on its left side. -/
structure Finishes (it : Iteration) (s : List Stmt) : Prop where
  smooth : Smooth s (forked it s)
  unshared : ∀ k ∈ forked it s, ∀ (j : ℕ) (as : List String) (c : String),
    resourceOrder s k.1 = some j → s[j]? ≠ some (.resourceOrder (.several as) c)

/-- No port is connected in two blocks; no connection comes from the name of a fork; the
resource of a forked instance is in the block of the fork; so is the order with the instance on
its left side, and it is the only one there; none has a forked instance on its right side. -/
structure CleanScope (it : Iteration) (m : Mode) (r : Block) : Prop where
  apart : Apart (blocks m r.1 r.2)
  fresh : ∀ b ∈ blocks m r.1 r.2, Unused (b.names it) (conns (flats m r.1))
  mapped : ∀ b ∈ blocks m r.1 r.2, ∀ (k : Key) (f resource : String), b.names it k = some f →
    resourceMap (flats m r.1) k.1 = some resource →
      resourceMap b.1 k.1 = some resource ∨ .resourceMap resource f ∈ flats m r.1
  home : ∀ b ∈ blocks m r.1 r.2, ∀ st ∈ b.1, ∀ x ∈ st.firsts, ForkedInst (flats m r.1) x →
    ForkedInst b.1 x
  single : ∀ b ∈ blocks m r.1 r.2, ∀ (i j : ℕ) (st st' : Stmt) (x : String), b.1[i]? = some st →
    b.1[j]? = some st' → x ∈ st.firsts → x ∈ st'.firsts → ForkedInst b.1 x → i = j
  right : ∀ a c, .resourceOrder a c ∈ flats m r.1 → ¬ ForkedInst (flats m r.1) c

/-! ## One statement -/

section Cases

variable {it : Iteration} {b : Block} {j : ℕ} {o st : Stmt} {k : Key} {f : String}

variable (it) in
theorem exists_body (ho : b.1[j]? = some o) : ∃ st, (outOf it b).body[j]? = some st := by
  have hj := (List.getElem?_eq_some_iff.1 ho).1
  rw [← length_outOf it b] at hj
  exact ⟨_, List.getElem?_eq_getElem hj⟩

theorem forkedInst_of_names (hk : b.names it k = some f) : ForkedInst b.1 k.1 :=
  ⟨k.2, mem_forked.1 (mem_forked_of_newName hk)⟩

/-- A statement that is no order. -/
theorem body_of_firsts (hsmooth : Smooth b.1 (forked it b.1)) (ho : b.1[j]? = some o)
    (hst : (outOf it b).body[j]? = some st) (hnil : o.firsts = []) :
    ∃ c i, Blocky o c ∧ st = redirected (b.names it) i o c := by
  obtain ⟨c, i, hblocky, ⟨hbody, _⟩ | ⟨k, _, _, _, hx, _⟩⟩ :=
    body_cases b.first (dones_blocky b.1 b.2) hsmooth ho
  · exact ⟨c, i, hblocky, Option.some.inj (hst.symm.trans hbody)⟩
  · rw [hnil] at hx
    cases hx

theorem mem_conns_of_connect {s : List Stmt} {ele1 ele2 : String} {out1 in2 : Option String}
    (h : .connect ele1 ele2 out1 in2 ∈ s) : (ele1, out1) ∈ (conns s).map Prod.fst :=
  List.mem_map.2 ⟨((ele1, out1), (ele2, in2)), List.mem_filterMap.2 ⟨_, h, rfl⟩, rfl⟩

/-- **What has become of a connection.** -/
theorem connect_cases (hsmooth : Smooth b.1 (forked it b.1)) {ele1 ele2 : String}
    {out1 in2 : Option String} (ho : b.1[j]? = some (.connect ele1 ele2 out1 in2))
    (hst : (outOf it b).body[j]? = some st) :
    (∃ f i, b.names it (ele1, out1) = some f ∧ st = .connect f ele2 (outPort i) in2) ∨
      b.names it (ele1, out1) = none ∧ st = .connect ele1 ele2 out1 in2 := by
  obtain ⟨c, i, hblocky, rfl⟩ := body_of_firsts hsmooth ho hst rfl
  obtain rfl : c = .connect ele1 ele2 out1 in2 :=
    hblocky.eq_of_not_block fun _ _ h => by cases h
  cases hname : b.names it (ele1, out1) with
  | some f =>
      refine Or.inl ⟨f, i, rfl, ?_⟩
      simp only [redirected, Stmt.key?, Option.bind_some, hname]
      rfl
  | none =>
      refine Or.inr ⟨rfl, ?_⟩
      simp only [redirected, Stmt.key?, Option.bind_some, hname]

/-- **What has become of an order.** -/
theorem order_cases (hends : Finishes it b.1) {a : Names} {c : String}
    (ho : b.1[j]? = some (.resourceOrder a c)) (hst : (outOf it b).body[j]? = some st) :
    st = .resourceOrder a c ∧ (∀ k ∈ forked it b.1, resourceOrder b.1 k.1 ≠ some j) ∨
      ∃ k f, b.names it k = some f ∧ resourceOrder b.1 k.1 = some j ∧ a = .single k.1 ∧
        st = .resourceOrder (.single f) c := by
  obtain ⟨o, i, hblocky, hcases⟩ :=
    body_cases b.first (dones_blocky b.1 b.2) hends.smooth ho
  obtain rfl : o = .resourceOrder a c := hblocky.eq_of_not_block fun _ _ h => by cases h
  obtain ⟨hbody, hne⟩ | ⟨k, f, hk, horder, hx, hbody⟩ := hcases
  · exact Or.inl ⟨Option.some.inj (hst.symm.trans hbody), hne⟩
  · refine Or.inr ⟨k, f, hk, horder, ?_⟩
    cases a with
    | single a =>
        obtain rfl : k.1 = a := List.mem_singleton.1 hx
        exact ⟨rfl, Option.some.inj (hst.symm.trans hbody)⟩
    | several as =>
        exact absurd ho (hends.unshared k (mem_forked_of_newName hk) j as c horder)

/-- **What has become of a statement** that the loop does not look at. -/
theorem other_cases (hsmooth : Smooth b.1 (forked it b.1)) (ho : b.1[j]? = some o)
    (hst : (outOf it b).body[j]? = some st) (hnil : o.firsts = []) (hkey : o.key? = none) :
    Blocky o st := by
  obtain ⟨c, i, hblocky, rfl⟩ := body_of_firsts hsmooth ho hst hnil
  rwa [redirected, hkey]

end Cases

/-! ## A clean scope is kept -/

variable {it : Iteration} {m : Mode} {r : Block}

/-- A port of a block that is forked has several connections in the scope. -/
theorem forkedInst_of_block {b : Block} (hb : b ∈ blocks m r.1 r.2) {x : String}
    (h : ForkedInst b.1 x) : ForkedInst (flats m r.1) x := by
  obtain ⟨port, hport⟩ := h
  refine ⟨port, hport.trans_le ?_⟩
  rw [fanout_eq, fanout_eq, ← ((connsOf_blocks r).map Prod.fst).count_eq]
  refine List.Sublist.count_le _ (List.Sublist.map _ ?_)
  rw [connsOf, List.flatMap_def]
  exact List.sublist_flatten_of_mem (List.mem_map_of_mem hb)

theorem mem_of_forall₂ {α : Type} {x : α} {l l' : List α}
    (h : List.Forall₂ (fun o st => o = x ↔ st = x) l l') : x ∈ l ↔ x ∈ l' := by
  induction h with
  | nil => exact Iff.rfl
  | cons hst _ ih =>
      rw [List.mem_cons, List.mem_cons, ih, eq_comm, hst, eq_comm]

variable (it) in
theorem names_eq_none_iff (hapart : Apart (blocks m r.1 r.2)) {b : Block}
    (hb : b ∈ blocks m r.1 r.2) {k : Key} (hk : k ∈ keys b.1) :
    b.names it k = none ↔ ¬ 1 < fanout (flats m r.1) k := by
  rw [← hapart.names_eq hb hk, nameIn_eq_none, (splitBy_of_apart it hapart).forked]

section Scope

variable (hends : ∀ b ∈ blocks m r.1 r.2, Finishes it b.1)

include hends in
/-- The instances that were mapped still are. -/
theorem mapped_iff {resource inst : String} :
    .resourceMap resource inst ∈ flats m r.1 ↔
      .resourceMap resource inst ∈ bodies m r.1 (outOf it r).body := by
  refine mem_of_forall₂ ((renamed_iff r).2 fun b hb j o st ho hst _ => ?_)
  cases o with
  | connect ele1 ele2 out1 in2 =>
      obtain ⟨_, _, _, rfl⟩ | ⟨_, rfl⟩ := connect_cases (hends b hb).smooth ho hst
      · simp
      · simp
  | resourceOrder a c =>
      obtain ⟨rfl, _⟩ | ⟨_, _, _, _, rfl, rfl⟩ := order_cases (hends b hb) ho hst
      · simp
      · simp
  | block kind t =>
      obtain rfl | ⟨_, _, _, heq, rfl⟩ := other_cases (hends b hb).smooth ho hst rfl rfl
      · simp
      · simp
  | element _ | elementInstance _ _ _ | resourceMap _ _ | other _ =>
      obtain rfl := (other_cases (hends b hb).smooth ho hst rfl rfl).eq_of_not_block
        fun _ _ h => by cases h
      rfl

theorem mem_out {b : Block} (hb : b ∈ blocks m r.1 r.2) {st : Stmt} (h : st ∈ added it b) :
    st ∈ flats m (outOf it r).statements :=
  (flats_out r).mem_iff.2 (List.mem_append_right _ (List.mem_flatMap.2 ⟨b, hb, h⟩))

/-- What is added for a fork. -/
theorem mem_added {b : Block} {k : Key} {i : ℕ} (hi : (k, i) ∈ b.forks it) {st : Stmt}
    (h : st ∈ frontOf b.1 k i ∨ st ∈ backOf b.1 k i) : st ∈ added it b := by
  rw [added, outOf, loopOf, List.mem_append, List.mem_flatMap, List.mem_flatMap]
  obtain h | h := h
  · exact Or.inl ⟨(k, i), List.mem_reverse.2 hi, h⟩
  · exact Or.inr ⟨(k, i), hi, h⟩

/-- The resource that a fork is mapped to in its block. -/
theorem resource_of_mem_added {b : Block} {resource f : String}
    (h : .resourceMap resource f ∈ added it b) :
    ∃ k, b.names it k = some f ∧ resourceMap b.1 k.1 = some resource := by
  rw [added, outOf, loopOf, List.mem_append, List.mem_flatMap, List.mem_flatMap] at h
  obtain ⟨c, _, h⟩ | ⟨c, hc, h⟩ := h
  · simp [frontOf] at h
  · simp only [backOf, List.mem_cons, reduceCtorEq, List.mem_map, Option.mem_toList,
      Stmt.resourceMap.injEq, false_or] at h
    obtain ⟨resource', hresource, rfl, rfl⟩ := h
    exact ⟨c.1, Block.names_eq_some.2 ⟨c.2, hc, rfl⟩, hresource⟩

variable (h : CleanScope it m r)

include h

theorem CleanScope.unused :
    Unused (nameIn ((blocks m r.1 r.2).flatMap (Block.forks it))) (connsOf (blocks m r.1 r.2)) :=
  h.apart.unused_iff.2 fun b hb k f hf c hc =>
    h.fresh b hb k f hf c ((connsOf_blocks r).mem_iff.1 hc)

include hends

/-- What is behind a port that is forked. -/
theorem isFork_of_clean {b : Block} (hb : b ∈ blocks m r.1 r.2) {k : Key} {f : String}
    (hf : b.names it k = some f) :
    IsFork (flats m r.1) (flats m (outOf it r).statements) k f := by
  have hsplit := splitBy_of_apart it h.apart
  have hname := h.apart.nameIn_of_names hb hf
  obtain ⟨i, hi, hinst⟩ := Block.names_eq_some.1 hf
  refine ⟨hsplit.behind h.unused hname, hsplit.same h.unused hname, ?_, fun resource hr => ?_⟩
  · have hfan : fanout (flats m r.1) k = fanout b.1 k := by
      rw [fanout_eq, ← ((connsOf_blocks r).map Prod.fst).count_eq]
      exact h.apart.count hb (mem_keys_of_forked (mem_forked_of_newName hf))
    rw [hfan]
    refine ⟨_, _, mem_out hb (mem_added hi (Or.inl List.mem_cons_self)), ?_⟩
    rw [← hinst]
    exact mem_out hb (mem_added hi (Or.inl (List.mem_cons_of_mem _ (List.mem_singleton_self _))))
  · obtain hmap | hmap := h.mapped b hb k f resource hf hr
    · refine mem_out hb (mem_added hi (Or.inr ?_))
      rw [backOf, hmap, ← hinst]
      exact List.mem_cons_of_mem _ (List.mem_singleton_self _)
    · rw [mapped_iff hends] at hmap
      exact (flats_out r).mem_iff.2 (List.mem_append_left _ hmap)

theorem renamed_of_clean {b : Block} (hb : b ∈ blocks m r.1 r.2) {j : ℕ} {o st : Stmt}
    (ho : b.1[j]? = some o) (hst : (outOf it b).body[j]? = some st) (hopened : o.opened m = false) :
    Renamed (flats m r.1) (flats m (outOf it r).statements) o st := by
  have hsmooth := (hends b hb).smooth
  have hkept : ∀ x, ¬ ForkedInst (flats m r.1) x →
      NameKept (flats m r.1) (flats m (outOf it r).statements) x x :=
    fun x hx => ⟨fun h => absurd h hx, fun _ => rfl⟩
  have hport : ∀ {k : Key} {f : String}, b.names it k = some f → 1 < fanout (flats m r.1) k := by
    intro k f hf
    by_contra hno
    rw [← names_eq_none_iff it h.apart hb
      (mem_keys_of_forked (mem_forked_of_newName hf)), hf] at hno
    cases hno
  cases o with
  | resourceOrder a c =>
      have hc := hkept c (h.right a c
        (mem_flats_iff.2 ⟨b, hb, List.mem_of_getElem? ho, hopened⟩))
      obtain ⟨rfl, hkeep⟩ | ⟨k, f, hk, _, rfl, rfl⟩ := order_cases (hends b hb) ho hst
      · refine ⟨a, c, rfl, Names.kept_of_self fun x hx => hkept x fun hfork => ?_, hc⟩
        have hmem := List.mem_of_getElem? ho
        have hhome := h.home b hb _ hmem x hx hfork
        obtain ⟨j', st', hne, hst', hx'⟩ := other_order ho hkeep hx hhome
        exact hne (h.single b hb j' j st' _ x hst' ho hx' hx hhome)
      · refine ⟨.single f, c, rfl, ⟨fun _ => ?_, fun hno => ?_⟩, hc⟩
        · exact ⟨k.2, hport hk, isFork_of_clean hends h hb hk⟩
        · exact absurd ⟨k.2, hport hk⟩ hno
  | connect ele1 ele2 out1 in2 =>
      obtain ⟨f, i, hf, rfl⟩ | ⟨hnone, rfl⟩ := connect_cases hsmooth ho hst
      · exact ⟨fun _ => ⟨f, i, isFork_of_clean hends h hb hf, rfl⟩,
          fun hno => absurd (hport hf) hno⟩
      · refine ⟨fun hfan => ?_, fun _ => rfl⟩
        have hk : (ele1, out1) ∈ keys b.1 :=
          mem_keys.2 (mem_conns_of_connect (List.mem_of_getElem? ho))
        exact absurd hfan ((names_eq_none_iff it h.apart hb hk).1 hnone)
  | block kind t =>
      obtain rfl | ⟨_, _, t', heq, rfl⟩ := other_cases hsmooth ho hst rfl rfl
      · exact ⟨t, rfl⟩
      · obtain ⟨rfl, rfl⟩ := Stmt.block.inj heq
        exact ⟨t', rfl⟩
  | element _ | elementInstance _ _ _ | resourceMap _ _ | other _ =>
      exact (other_cases hsmooth ho hst rfl rfl).eq_of_not_block fun _ _ h => by cases h

/-- **A clean scope is kept.** -/
theorem preserved_of_clean : Preserved (flats m r.1) (flats m (outOf it r).statements)
    (bodies m r.1 (outOf it r).body) := by
  have hsplit := splitBy_of_apart it h.apart
  refine ⟨hsplit.once h.unused, fun k _ hk => ?_, fun k hmem hk => hsplit.direct h.unused hmem hk,
    (renamed_iff r).2 fun b hb j o st => renamed_of_clean hends h hb⟩
  obtain ⟨b, hb, hkey⟩ := mem_connsOf.1 (hsplit.mem_before.2 (mem_conns_of_forked hk))
  cases hf : b.names it k with
  | some f => exact ⟨f, isFork_of_clean hends h hb hf⟩
  | none => exact absurd hk ((names_eq_none_iff it h.apart hb hkey).1 hf)

end Scope

/-! ## A scope that is kept is clean -/

section Converse

variable (hends : ∀ b ∈ blocks m r.1 r.2, Finishes it b.1)
  (h : Preserved (flats m r.1) (flats m (outOf it r).statements)
    (bodies m r.1 (outOf it r).body))

include hends h

/-- The order of a forked instance has been adjusted. -/
theorem order_of_preserved {b : Block} (hb : b ∈ blocks m r.1 r.2) {j : ℕ} {a : Names}
    {c : String} (ho : b.1[j]? = some (.resourceOrder a c)) :
    ¬ ForkedInst (flats m r.1) c ∧ ((∀ x ∈ a.toList, ¬ ForkedInst (flats m r.1) x) ∨
      ∃ k f, b.names it k = some f ∧ resourceOrder b.1 k.1 = some j ∧ a = .single k.1) := by
  have hsplit := splitBy_of_apart it (apart_of_once h.once)
  obtain ⟨st, hst⟩ := exists_body it ho
  obtain ⟨a', c', rfl, ha, hc⟩ := (renamed_iff r).1 h.renamed b hb j _ st ho hst rfl
  obtain ⟨hsame, _⟩ | ⟨k, f, hk, horder, rfl, hsame⟩ := order_cases (hends b hb) ho hst
  · obtain ⟨rfl, rfl⟩ := Stmt.resourceOrder.inj hsame
    exact ⟨hsplit.not_forkedInst_of_nameKept hc,
      Or.inl fun x hx => hsplit.not_forkedInst_of_nameKept (ha.self hx)⟩
  · obtain ⟨rfl, rfl⟩ := Stmt.resourceOrder.inj hsame
    exact ⟨hsplit.not_forkedInst_of_nameKept hc, Or.inr ⟨k, f, hk, horder, rfl⟩⟩

/-- The order with a forked instance on its left side. -/
theorem place_of_preserved {b : Block} (hb : b ∈ blocks m r.1 r.2) {j : ℕ} {st : Stmt}
    {x : String} (hst : b.1[j]? = some st) (hx : x ∈ st.firsts)
    (hfork : ForkedInst (flats m r.1) x) : ForkedInst b.1 x ∧ resourceOrder b.1 x = some j := by
  cases st with
  | resourceOrder a c =>
      obtain hnone | ⟨k, f, hk, horder, rfl⟩ := (order_of_preserved hends h hb hst).2
      · exact absurd hfork (hnone x hx)
      · obtain rfl : x = k.1 := List.mem_singleton.1 hx
        exact ⟨forkedInst_of_names hk, horder⟩
  | _ => cases hx

/-- A fork is mapped to the resource of its instance. -/
theorem mapped_of_preserved {b : Block} (hb : b ∈ blocks m r.1 r.2) {k : Key}
    {f resource : String} (hf : b.names it k = some f)
    (hr : resourceMap (flats m r.1) k.1 = some resource) :
    resourceMap b.1 k.1 = some resource ∨ .resourceMap resource f ∈ flats m r.1 := by
  have hapart := apart_of_once h.once
  have hsplit := splitBy_of_apart it hapart
  have hname := hapart.nameIn_of_names hb hf
  have hfan := hsplit.fanout_lt hname
  obtain ⟨g, hfork⟩ := h.forked k (mem_keys.2 (mem_conns_of_forked hfan)) hfan
  obtain rfl : g = f :=
    Option.some.inj ((hsplit.name_of_behind hfan hfork.behind).symm.trans hname)
  obtain hmem | hmem := List.mem_append.1 ((flats_out r).mem_iff.1 (hfork.mapped resource hr))
  · exact Or.inr ((mapped_iff hends).2 hmem)
  · obtain ⟨b', hb', hmem⟩ := List.mem_flatMap.1 hmem
    obtain ⟨k', hf', hr'⟩ := resource_of_mem_added hmem
    obtain rfl := nameIn_inj hsplit.ports hsplit.numbers k' k g
      (hapart.nameIn_of_names hb' hf') hname
    obtain rfl := hapart.eq hb' hb (mem_keys_of_forked (mem_forked_of_newName hf'))
      (mem_keys_of_forked (mem_forked_of_newName hf))
    exact Or.inl hr'

/-- **A scope that is kept is clean.** -/
theorem clean_of_preserved : CleanScope it m r where
  apart := apart_of_once h.once
  fresh b hb k f hf c hc := by
    have hapart := apart_of_once h.once
    have hunused := (splitBy_of_apart it hapart).unused h.forked
    exact hapart.unused_iff.1 hunused b hb k f hf c ((connsOf_blocks r).mem_iff.2 hc)
  mapped _ hb _ _ _ hf hr := mapped_of_preserved hends h hb hf hr
  home b hb st hst x hx hfork := by
    obtain ⟨j, hj⟩ := List.getElem?_of_mem hst
    exact (place_of_preserved hends h hb hj hx hfork).1
  single b hb i j st st' x hi hj hx hx' hfork := by
    have hwide := forkedInst_of_block hb hfork
    have hplace := (place_of_preserved hends h hb hi hx hwide).2
    exact Option.some.inj (hplace.symm.trans (place_of_preserved hends h hb hj hx' hwide).2)
  right a c hmem := by
    obtain ⟨b, hb, hmem, _⟩ := mem_flats_iff.1 hmem
    obtain ⟨j, hj⟩ := List.getElem?_of_mem hmem
    exact (order_of_preserved hends h hb hj).1

end Converse

end Desugar
end Floem
