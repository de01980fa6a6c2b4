import Floem.Smart.Meaning

/-!
# What a filled entry has

* `fill_plain`, `fill_shared`, `fill_task` — the members of an entry that was filled.
* `fill_content` — the copied bytes of the live paths lie one after the other.
* `rule_mem`, `mem_entryRules`, `shrinks_stateRule` — the rules for references.
-/

namespace Floem
namespace Smart

open Lib

/-! ## The live paths -/

theorem getEntryContent_paths {states : States} {name : String} {live : List Path}
    {vars : List Var} (h : getEntryContent states name live = some vars) :
    vars.map Var.path = live := by
  induction live generalizing vars with
  | nil => simp only [getEntryContent, List.mapM_nil] at h; cases h; rfl
  | cons p live ih =>
      simp only [getEntryContent, List.mapM_cons, Option.bind_eq_bind, Option.bind_eq_some_iff,
        Option.map_eq_some_iff, Option.pure_def, Option.some.injEq] at h
      obtain ⟨v, ⟨i, -, rfl⟩, vs, hvs, rfl⟩ := h
      rw [List.map_cons, ih hvs]

theorem mem_plainPaths {vars : List Var} {p : Path} :
    p ∈ plainPaths vars ↔ ∃ v ∈ vars, v.special = false ∧ v.path = p := by
  simp [plainPaths, and_assoc]

theorem mem_specialPaths {vars : List Var} {p : Path} :
    p ∈ specialPaths vars ↔ ∃ v ∈ vars, v.special = true ∧ v.path = p := by
  simp [specialPaths, and_assoc]

namespace Channel

variable {Q : Channel}

/-- Two live paths are different. -/
theorem eq_of_path (Q : Channel) {v w : Var} (hv : v ∈ Q.vars) (hw : w ∈ Q.vars)
    (h : v.path = w.path) : v = w := by
  have hnodup : (Q.vars.map Var.path).Nodup := by
    rw [getEntryContent_paths Q.vars_eq]
    exact Q.live_nodup
  exact List.inj_on_of_nodup_map hnodup hv hw h

/-! ## References -/

/-- The rule of a live path. -/
theorem rule_mem (Q : Channel) {v : Var} (hv : v ∈ Q.vars) : v.rule ∈ Q.rules := by
  unfold Var.rule
  split_ifs with hs
  · refine List.mem_append_right _ (List.mem_append_right _ (List.mem_map_of_mem ?_))
    exact Q.specials_perm.mem_iff.2 (mem_specialPaths.2 ⟨v, hv, hs, rfl⟩)
  · refine List.mem_append_left _ (List.mem_map_of_mem ?_)
    exact mem_plainPaths.2 ⟨v, hv, by simpa using hs, rfl⟩

theorem rule_pattern (v : Var) : v.rule.pattern = v.path.text := by
  unfold Var.rule
  split_ifs <;> rfl

/-- The rules that lead to the entry are those of the live paths that are not special. -/
theorem mem_entryRules {x : Rule Char} :
    x ∈ (plainPaths Q.vars).map entryRule ↔ ∃ v ∈ Q.vars, v.special = false ∧ v.rule = x := by
  rw [List.mem_map]
  constructor
  · rintro ⟨p, hp, rfl⟩
    obtain ⟨v, hv, hs, rfl⟩ := mem_plainPaths.1 hp
    exact ⟨v, hv, hs, by rw [Var.rule, hs, if_neg Bool.false_ne_true]⟩
  · rintro ⟨v, hv, hs, rfl⟩
    exact ⟨v.path, mem_plainPaths.2 ⟨v, hv, hs, rfl⟩,
      by rw [Var.rule, hs, if_neg Bool.false_ne_true]⟩

/-- A rule that does not lead to the entry makes texts shorter. -/
theorem shrinks_stateRule (p : Path) : (stateRule p).Shrinks := by
  intro hne
  have htext : p.text = (stateRule p).pattern := rfl
  have hlast : (Path.field p.last).text = (stateRule p).new := rfl
  rw [← htext, ← hlast] at hne ⊢
  rw [Path.text_field] at hne ⊢
  obtain ⟨head, tail⟩ := p
  cases tail using List.reverseRecOn with
  | nil => exact absurd (List.append_nil _) hne
  | append_singleton tail a =>
      have hl : Path.last ⟨head, tail ++ [a]⟩ = a.2 := by simp [Path.last, Path.fields]
      rw [hl]
      obtain ⟨sep, f⟩ := a
      simp only [Path.text, List.flatMap_append, List.flatMap_cons, List.flatMap_nil,
        List.append_nil, List.length_append]
      cases sep <;> simp [Sep.text] <;> omega

end Channel

/-! ## Members of a filled entry -/

/-- The member a statement of `fill` stores. -/
def FillStmt.key : FillStmt → Option String
  | .assign m _ _ => some m
  | .shared m _ _ _ => some m
  | .copy _ _ _ => none
  | .task _ => some "task"

theorem FillStmt.exec_members {d : Device} {P : Producer} {e e' : Entry} {a : FillStmt}
    {k : String} (h : a.exec d P e = some e') (hk : a.key ≠ some k) :
    e'.members k = e.members k := by
  cases a with
  | copy before v l => cases h; rfl
  | task n =>
      cases h
      exact Function.update_of_ne (fun h => hk (by rw [h]; rfl)) _ _
  | assign m conv v =>
      obtain ⟨b, -, rfl⟩ := Option.map_eq_some_iff.1 h
      exact Function.update_of_ne (fun h => hk (by rw [h]; rfl)) _ _
  | shared m conv v region =>
      obtain ⟨b, -, rfl⟩ := Option.map_eq_some_iff.1 h
      exact Function.update_of_ne (fun h => hk (by rw [h]; rfl)) _ _

theorem keys_fillLoop (reverse : Bool) (copied : List Length) (vars : List Var) :
    (fillLoop reverse copied vars).filterMap FillStmt.key =
      (vars.filterMap Var.member).map Prod.snd := by
  induction vars generalizing copied with
  | nil => rfl
  | cons v vs ih =>
      cases hv : v.annotation <;> simp [fillLoop, hv, FillStmt.key, Var.member, List.filterMap_cons, ih]

/-- The statement for a live path. -/
theorem mem_fillLoop (reverse : Bool) (copied : List Length) {vars : List Var} {v : Var}
    (hv : v ∈ vars) :
    match v.annotation with
    | .plain => .assign v.path.last (v.type.convert reverse) v ∈ fillLoop reverse copied vars
    | .shared r => .shared v.path.last (htonp reverse) v r ∈ fillLoop reverse copied vars
    | .copysize _ => True := by
  induction vars generalizing copied with
  | nil => cases hv
  | cons w vs ih =>
      rcases List.mem_cons.1 hv with rfl | hv
      · cases hann : v.annotation <;> simp [fillLoop, hann]
      · have hrest := fun copied => ih copied hv
        cases hann : v.annotation with
        | copysize l => trivial
        | plain =>
            simp only [hann] at hrest
            cases hw : w.annotation <;> simp [fillLoop, hw, hrest]
        | shared r =>
            simp only [hann] at hrest
            cases hw : w.annotation <;> simp [fillLoop, hw, hrest]

/-- The statements of the loop. -/
theorem mem_fillLoop_cases {reverse : Bool} {copied : List Length} {vars : List Var}
    {a : FillStmt} (ha : a ∈ fillLoop reverse copied vars) :
    (∃ v ∈ vars, v.annotation = .plain ∧
      a = .assign v.path.last (v.type.convert reverse) v) ∨
    (∃ v ∈ vars, ∃ r, v.annotation = .shared r ∧ a = .shared v.path.last (htonp reverse) v r) ∨
    (∃ before v l, a = .copy before v l) := by
  induction vars generalizing copied with
  | nil => cases ha
  | cons w vs ih =>
      have hrest : ∀ copied, a ∈ fillLoop reverse copied vs →
          (∃ v ∈ w :: vs, v.annotation = .plain ∧
            a = .assign v.path.last (v.type.convert reverse) v) ∨
          (∃ v ∈ w :: vs, ∃ r, v.annotation = .shared r ∧
            a = .shared v.path.last (htonp reverse) v r) ∨
          (∃ before v l, a = .copy before v l) := by
        intro copied ha
        rcases ih ha with ⟨v, hv, hplain⟩ | ⟨v, hv, hshared⟩ | hcopy
        · exact Or.inl ⟨v, List.mem_cons_of_mem _ hv, hplain⟩
        · exact Or.inr (Or.inl ⟨v, List.mem_cons_of_mem _ hv, hshared⟩)
        · exact Or.inr (Or.inr hcopy)
      cases hw : w.annotation with
      | plain =>
          simp only [fillLoop, hw] at ha
          rcases List.mem_cons.1 ha with rfl | ha
          · exact Or.inl ⟨w, List.mem_cons_self, hw, rfl⟩
          · exact hrest _ ha
      | shared r =>
          simp only [fillLoop, hw] at ha
          rcases List.mem_cons.1 ha with rfl | ha
          · exact Or.inr (Or.inl ⟨w, List.mem_cons_self, r, hw, rfl⟩)
          · exact hrest _ ha
      | copysize l =>
          simp only [fillLoop, hw] at ha
          rcases List.mem_cons.1 ha with rfl | ha
          · exact Or.inr (Or.inr ⟨copied, w, l, rfl⟩)
          · exact hrest _ ha

section

variable {d : Device} {P : Producer} {e₀ e : Entry} {reverse : Bool} {vars : List Var} {i : ℕ}

/-- Members that are stored once. -/
theorem fill_keys (hnodup : (entryMembers vars).Nodup) :
    ((getFillEntrySrc reverse vars i).filterMap FillStmt.key).Nodup := by
  rw [entryMembers, List.map_append, List.append_assoc, List.nodup_append] at hnodup
  obtain ⟨-, hnodup, hdisj⟩ := hnodup
  rw [getFillEntrySrc, List.filterMap_append, keys_fillLoop]
  refine List.nodup_append.2 ⟨(List.nodup_append.1 hnodup).1, by simp [FillStmt.key], ?_⟩
  intro m hm t ht heq
  simp only [FillStmt.key, List.filterMap_cons, List.filterMap_nil, List.mem_singleton] at ht
  exact hdisj "task" (by simp [header]) m (List.mem_append_left _ hm) (ht.symm.trans heq.symm)

variable (hnodup : (entryMembers vars).Nodup)
  (h : run (FillStmt.exec d P) e₀ (getFillEntrySrc reverse vars i) = some e)

include hnodup h

theorem fill_plain {v : Var} (hv : v ∈ vars) (hann : v.annotation = .plain) :
    ∃ b, (v.type.convert reverse).apply v.type (P.value v.path) = some b ∧
      e.members v.path.last = d.order b := by
  have hmem := mem_fillLoop reverse [] hv
  rw [hann] at hmem
  obtain ⟨u, w, hstep, -, heq⟩ := run_key (fun (e : Entry) k => e.members k)
    FillStmt.key (fun a _ s t hs hk => FillStmt.exec_members hs hk) (fill_keys hnodup)
    (List.mem_append_left _ hmem) rfl h
  obtain ⟨b, hb, rfl⟩ := Option.map_eq_some_iff.1 hstep
  exact ⟨b, hb, heq.trans (Function.update_self ..)⟩

theorem fill_shared {v : Var} (hv : v ∈ vars) {r : String} (hann : v.annotation = .shared r) :
    ∃ b, (htonp reverse).apply .uint64
      (leBytes 8 (offset (leNat (P.value v.path)) (P.region r))) = some b ∧
      e.members v.path.last = d.order b := by
  have hmem := mem_fillLoop reverse [] hv
  rw [hann] at hmem
  obtain ⟨u, w, hstep, -, heq⟩ := run_key (fun (e : Entry) k => e.members k)
    FillStmt.key (fun a _ s t hs hk => FillStmt.exec_members hs hk) (fill_keys hnodup)
    (List.mem_append_left _ hmem) rfl h
  obtain ⟨b, hb, rfl⟩ := Option.map_eq_some_iff.1 hstep
  exact ⟨b, hb, heq.trans (Function.update_self ..)⟩

theorem fill_task : e.members "task" = [UInt8.ofNat (i + 1)] := by
  obtain ⟨u, w, hstep, -, heq⟩ := run_key (fun (e : Entry) k => e.members k)
    FillStmt.key (fun a _ s t hs hk => FillStmt.exec_members hs hk) (fill_keys hnodup)
    (List.mem_append_right _ (List.mem_singleton.2 rfl)) rfl h
  cases hstep
  exact heq.trans (by simp [Entry.set])

end

/-! ## The copied bytes -/

/-- The loop copies behind what is copied before it, and one path after the other. -/
theorem fillLoop_content {d : Device} {P : Producer} {reverse : Bool} {vars : List Var}
    {copied : List Length} {e₀ e : Entry}
    (h : run (FillStmt.exec d P) e₀ (fillLoop reverse copied vars) = some e) :
    (∀ a < total P.value copied, e.content a = e₀.content a) ∧
      ∀ pre v post l, vars = pre ++ v :: post → v.length? = some l → ∀ b < l.eval P.value,
        e.content (total P.value (copied ++ pre.filterMap Var.length?) + b) = P.data v.path b := by
  induction vars generalizing copied e₀ with
  | nil =>
      cases h
      refine ⟨fun _ _ => rfl, fun pre v post l heq => ?_⟩
      cases pre <;> cases heq
  | cons w vs ih =>
      -- a first path that is not copied changes nothing here
      have hskip : w.length? = none → ∀ u : Entry, u.content = e₀.content →
          run (FillStmt.exec d P) u (fillLoop reverse copied vs) = some e →
          (∀ a < total P.value copied, e.content a = e₀.content a) ∧
            ∀ pre v post l, w :: vs = pre ++ v :: post → v.length? = some l →
              ∀ b < l.eval P.value, e.content
                (total P.value (copied ++ pre.filterMap Var.length?) + b) = P.data v.path b := by
        intro hw u hu hrest
        obtain ⟨hkeep, hcopy⟩ := ih hrest
        refine ⟨fun a ha => by rw [hkeep a ha, hu], fun pre v post l heq hl => ?_⟩
        cases pre with
        | nil =>
            obtain ⟨rfl, -⟩ := List.cons.inj heq
            rw [hw] at hl
            cases hl
        | cons x pre =>
            obtain ⟨rfl, htail⟩ := List.cons.inj heq
            rw [List.filterMap_cons_none hw]
            exact hcopy pre v post l htail hl
      cases hw : w.annotation with
      | plain =>
          simp only [fillLoop, hw] at h
          obtain ⟨u, hu, hrest⟩ := run_cons_eq_some h
          obtain ⟨b, -, rfl⟩ := Option.map_eq_some_iff.1 hu
          exact hskip (by simp [Var.length?, hw]) (e₀.set w.path.last (d.order b)) rfl hrest
      | shared r =>
          simp only [fillLoop, hw] at h
          obtain ⟨u, hu, hrest⟩ := run_cons_eq_some h
          obtain ⟨b, -, rfl⟩ := Option.map_eq_some_iff.1 hu
          exact hskip (by simp [Var.length?, hw]) (e₀.set w.path.last (d.order b)) rfl hrest
      | copysize l' =>
          have hw' : w.length? = some l' := by simp [Var.length?, hw]
          simp only [fillLoop, hw] at h
          obtain ⟨u, hu, hrest⟩ := run_cons_eq_some h
          cases hu
          obtain ⟨hkeep, hcopy⟩ := ih hrest
          constructor
          · intro a ha
            rw [hkeep a (by simp; omega)]
            exact if_neg (by omega)
          · intro pre v post l heq hl b hb
            cases pre with
            | nil =>
                obtain ⟨rfl, -⟩ := List.cons.inj heq
                obtain rfl : l' = l := Option.some.inj (hw'.symm.trans hl)
                rw [List.filterMap_nil, List.append_nil, hkeep _ (by simp; omega)]
                simp only
                rw [if_pos (by omega), Nat.add_sub_cancel_left]
            | cons x pre =>
                obtain ⟨rfl, htail⟩ := List.cons.inj heq
                have := hcopy pre v post l htail hl b hb
                rwa [List.append_assoc, List.singleton_append,
                  ← List.filterMap_cons_some hw'] at this

/-- **The bytes a pointer points to** are copied behind those of the pointers before. -/
theorem fill_content {d : Device} {P : Producer} {reverse : Bool} {vars : List Var} {i : ℕ}
    {e₀ e : Entry} (h : run (FillStmt.exec d P) e₀ (getFillEntrySrc reverse vars i) = some e)
    {pre post : List Var} {v : Var} {l : Length} (hvars : vars = pre ++ v :: post)
    (hl : v.length? = some l) (b : ℕ) (hb : b < l.eval P.value) :
    e.content (total P.value (pre.filterMap Var.length?) + b) = P.data v.path b := by
  rw [getFillEntrySrc, run_append, Option.bind_eq_some_iff] at h
  obtain ⟨u, hu, htask⟩ := h
  obtain ⟨w, hw, hnil⟩ := run_cons_eq_some htask
  cases hw
  cases hnil
  exact (fillLoop_content hu).2 pre v post l hvars hl b hb

end Smart
end Floem
