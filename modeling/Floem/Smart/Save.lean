import Floem.Smart.References

/-!
# What is saved at the consumer

* `saveSrc_eq`, `save_parts` — first the live paths that are not special, then the special
  ones.
* `plain_value`, `save_plain` — the member of a live path, turned round if the consumer has to.
* `plain_content`, `plain_shared` — the rest of the entry stays as it is.
* `special_entry`, `special_fields` — a pointer is put together in a field of its own.
-/

namespace Floem
namespace Smart

open Lib

/-- The member of the entry a statement of `save` changes. -/
def SaveStmt.key : SaveStmt → Option String
  | .convert _ v => some v.path.last
  | _ => none

/-- The field a statement of `save` stores. -/
def SaveStmt.field : SaveStmt → Option String
  | .shared name _ _ _ => some name
  | .copy name _ _ => some name
  | _ => none

theorem length?_of_plain {v : Var} (hs : v.special = false) : v.length? = none := by
  cases hann : v.annotation <;> simp_all [Var.special, Var.length?]

/-- The loop goes on behind the lengths of the paths before. -/
theorem saveLoop_append (reverse : Bool) (copied : List Length) (xs ys : List Var) :
    saveLoop reverse copied (xs ++ ys) = saveLoop reverse copied xs ++
      saveLoop reverse (copied ++ xs.filterMap Var.length?) ys := by
  induction xs generalizing copied with
  | nil => simp [saveLoop]
  | cons v xs ih =>
      cases hann : v.annotation with
      | plain =>
          have hlen : v.length? = none := by simp [Var.length?, hann]
          simp only [List.cons_append, saveLoop, hann, ih, List.filterMap_cons_none hlen]
          split_ifs <;> rfl
      | shared r =>
          have hlen : v.length? = none := by simp [Var.length?, hann]
          simp [saveLoop, hann, ih, List.filterMap_cons_none hlen]
      | copysize l =>
          have hlen : v.length? = some l := by simp [Var.length?, hann]
          simp [saveLoop, hann, ih, List.filterMap_cons_some hlen]

theorem keys_saveLoop_plain (reverse : Bool) (copied : List Length) (xs : List Var)
    (hxs : ∀ v ∈ xs, v.special = false) :
    ((saveLoop reverse copied xs).filterMap SaveStmt.key).Sublist
      (xs.map fun v => v.path.last) := by
  induction xs with
  | nil => exact List.Sublist.slnil
  | cons v xs ih =>
      have ih := ih fun w hw => hxs w (List.mem_cons_of_mem _ hw)
      have hv := hxs v List.mem_cons_self
      cases hann : v.annotation with
      | plain =>
          simp only [saveLoop, hann, List.map_cons]
          split_ifs
          · rw [List.filterMap_cons_some (show SaveStmt.key (.convert _ v) = some v.path.last from rfl)]
            exact ih.cons_cons _
          · exact ih.cons _
      | shared r => simp [Var.special, hann] at hv
      | copysize l => simp [Var.special, hann] at hv

/-- The statements for special fields change no member and store each field once. -/
theorem keys_saveLoop_special (reverse : Bool) (copied : List Length) (xs : List Var)
    (hxs : ∀ v ∈ xs, v.special = true) :
    (∀ a ∈ saveLoop reverse copied xs, a.key = none) ∧
      (saveLoop reverse copied xs).filterMap SaveStmt.field = xs.map fun v => v.path.last := by
  induction xs generalizing copied with
  | nil => exact ⟨fun a ha => absurd ha List.not_mem_nil, rfl⟩
  | cons v xs ih =>
      have ih := fun copied => ih copied fun w hw => hxs w (List.mem_cons_of_mem _ hw)
      have hv := hxs v List.mem_cons_self
      cases hann : v.annotation with
      | plain => simp [Var.special, hann] at hv
      | shared r =>
          obtain ⟨hkey, hfield⟩ := ih copied
          simp only [saveLoop, hann]
          exact ⟨List.forall_mem_cons.2 ⟨rfl, hkey⟩, congrArg (v.path.last :: ·) hfield⟩
      | copysize l =>
          obtain ⟨hkey, hfield⟩ := ih (copied ++ [l])
          simp only [saveLoop, hann]
          exact ⟨List.forall_mem_cons.2 ⟨rfl, hkey⟩, congrArg (v.path.last :: ·) hfield⟩

/-- The statement for a live path that is not special. -/
theorem mem_saveLoop_plain (copied : List Length) {xs : List Var} {v : Var} (hv : v ∈ xs)
    (hann : v.annotation = .plain) (hsize : v.type.sizeof.isSome) :
    .convert (v.type.convert true) v ∈ saveLoop true copied xs := by
  induction xs generalizing copied with
  | nil => cases hv
  | cons w xs ih =>
      rcases List.mem_cons.1 hv with rfl | hv
      · simp [saveLoop, hann, hsize]
      · have ih := fun copied => ih copied hv
        cases hw : w.annotation with
        | plain =>
            simp only [saveLoop, hw]
            split_ifs
            · exact List.mem_cons_of_mem _ (ih _)
            · exact ih _
        | shared r => simp [saveLoop, hw, ih]
        | copysize l => simp [saveLoop, hw, ih]

/-- The statements of the loop. -/
theorem mem_saveLoop_cases {reverse : Bool} {copied : List Length} {xs : List Var} {a : SaveStmt}
    (ha : a ∈ saveLoop reverse copied xs) :
    (∃ v ∈ xs, v.annotation = .plain ∧ (reverse && v.type.sizeof.isSome) = true ∧
      a = .convert (v.type.convert reverse) v) ∨
    (∃ v ∈ xs, ∃ r, v.annotation = .shared r ∧ a = .shared v.path.last v.type r (htonp reverse)) ∨
    (∃ pre v post l, xs = pre ++ v :: post ∧ v.annotation = .copysize l ∧
      a = .copy v.path.last v.type (copied ++ pre.filterMap Var.length?)) := by
  induction xs generalizing copied with
  | nil => cases ha
  | cons w xs ih =>
      -- a statement of the rest, after the lengths `ls` of the first path
      have hrest : ∀ ls, [w].filterMap Var.length? = ls → a ∈ saveLoop reverse (copied ++ ls) xs →
          (∃ v ∈ w :: xs, v.annotation = .plain ∧ (reverse && v.type.sizeof.isSome) = true ∧
            a = .convert (v.type.convert reverse) v) ∨
          (∃ v ∈ w :: xs, ∃ r, v.annotation = .shared r ∧
            a = .shared v.path.last v.type r (htonp reverse)) ∨
          (∃ pre v post l, w :: xs = pre ++ v :: post ∧ v.annotation = .copysize l ∧
            a = .copy v.path.last v.type (copied ++ pre.filterMap Var.length?)) := by
        rintro ls rfl ha
        rcases ih ha with ⟨v, hv, hplain⟩ | ⟨v, hv, hshared⟩ | ⟨pre, v, post, l, rfl, hl, rfl⟩
        · exact Or.inl ⟨v, List.mem_cons_of_mem _ hv, hplain⟩
        · exact Or.inr (Or.inl ⟨v, List.mem_cons_of_mem _ hv, hshared⟩)
        · refine Or.inr (Or.inr ⟨w :: pre, v, post, l, rfl, hl, ?_⟩)
          rw [List.append_assoc, ← List.filterMap_append, List.singleton_append]
      cases hw : w.annotation with
      | plain =>
          have hlen : [w].filterMap Var.length? = [] := by simp [Var.length?, hw]
          have hrest := hrest [] hlen
          rw [List.append_nil] at hrest
          simp only [saveLoop, hw] at ha
          split_ifs at ha with hsize
          · rcases List.mem_cons.1 ha with rfl | ha
            · exact Or.inl ⟨w, List.mem_cons_self, hw, hsize, rfl⟩
            · exact hrest ha
          · exact hrest ha
      | shared r =>
          have hlen : [w].filterMap Var.length? = [] := by simp [Var.length?, hw]
          have hrest := hrest [] hlen
          rw [List.append_nil] at hrest
          simp only [saveLoop, hw] at ha
          rcases List.mem_cons.1 ha with rfl | ha
          · exact Or.inr (Or.inl ⟨w, List.mem_cons_self, r, hw, rfl⟩)
          · exact hrest ha
      | copysize l =>
          have hlen : [w].filterMap Var.length? = [l] := by simp [Var.length?, hw]
          simp only [saveLoop, hw] at ha
          rcases List.mem_cons.1 ha with rfl | ha
          · exact Or.inr (Or.inr ⟨[], w, xs, l, rfl, hw, by simp⟩)
          · exact hrest [l] hlen ha

/-- The lengths of the special paths in front of one. -/
theorem lengths_filter_special (vars : List Var) :
    (vars.filter Var.special).filterMap Var.length? = vars.filterMap Var.length? := by
  rw [List.filterMap_filter]
  refine List.filterMap_congr fun v _ => ?_
  cases hv : v.annotation <;> simp [Var.special, Var.length?, hv]

theorem split_of_filter {vars pre post : List Var} {v : Var}
    (h : vars.filter Var.special = pre ++ v :: post) : ∃ pre' post', vars = pre' ++ v :: post' ∧
      pre'.filter Var.special = pre := by
  obtain ⟨xs, ys, rfl, rfl, hys⟩ := List.filter_eq_append_iff.1 h
  obtain ⟨zs, post', rfl, hzs, -, -⟩ := List.filter_eq_cons_iff.1 hys
  refine ⟨xs ++ zs, post', by simp, ?_⟩
  rw [List.filter_append, List.filter_eq_nil_iff.2 hzs, List.append_nil]

/-- A path keeps its value, if its pointer and the entry stay as they are. -/
theorem Consumer.Holds.congr {d : Device} {region : String → ℕ} {P : Producer} {c c' : Consumer}
    {v : Var} (h : c.Holds d region P v) (hentry : c'.entry = c.entry)
    (hfields : c'.fields v.path.last = c.fields v.path.last) : c'.Holds d region P v := by
  have hhas : ∀ a p, c.Has d region P v a p → c'.Has d region P v a p := by
    intro a p hhas
    rcases a with - | r | l <;> rcases p with - | ⟨a | off⟩ <;> simp_all [Consumer.Has]
  rw [Consumer.Holds, hfields]
  exact hhas _ _ h

theorem Consumer.Holds.congr_plain {d : Device} {region : String → ℕ} {P : Producer}
    {c c' : Consumer} {v : Var} (h : c.Holds d region P v) (hann : v.annotation = .plain)
    (hentry : c'.entry = c.entry) : c'.Holds d region P v := by
  rw [Consumer.Holds, hann, Consumer.Has] at h ⊢
  rwa [hentry]

namespace Channel

variable {Q : Channel} {d : Device} {renamed : Bool} {region : String → ℕ} {P : Producer}
  {e : Entry} {c c' : Consumer}

/-! ## One statement -/

theorem exec_members {a : SaveStmt} {k : String}
    (h : SaveStmt.exec Q d renamed region P c a = some c') (hk : a.key ≠ some k) :
    c'.entry.members k = c.entry.members k := by
  cases a with
  | convert conv v =>
      simp only [SaveStmt.exec] at h
      split_ifs at h
      obtain ⟨b, -, rfl⟩ := Option.map_eq_some_iff.1 h
      exact Function.update_of_ne (fun hkm => hk (by rw [hkm]; rfl)) _ _
  | shared name t r conv =>
      simp only [SaveStmt.exec] at h
      split_ifs at h
      obtain ⟨b, -, rfl⟩ := Option.map_eq_some_iff.1 h
      rfl
  | _ =>
      simp only [SaveStmt.exec] at h
      split_ifs at h
      obtain rfl := Option.some.inj h
      rfl

theorem exec_entry {a : SaveStmt} (h : SaveStmt.exec Q d renamed region P c a = some c')
    (hk : a.key = none) : c'.entry = c.entry := by
  cases a with
  | convert conv v => cases hk
  | shared name t r conv =>
      simp only [SaveStmt.exec] at h
      split_ifs at h
      obtain ⟨b, -, rfl⟩ := Option.map_eq_some_iff.1 h
      rfl
  | _ =>
      simp only [SaveStmt.exec] at h
      split_ifs at h
      obtain rfl := Option.some.inj h
      rfl

theorem exec_content {a : SaveStmt} (h : SaveStmt.exec Q d renamed region P c a = some c') :
    c'.entry.content = c.entry.content := by
  cases a with
  | convert conv v =>
      simp only [SaveStmt.exec] at h
      split_ifs at h
      obtain ⟨b, -, rfl⟩ := Option.map_eq_some_iff.1 h
      rfl
  | shared name t r conv =>
      simp only [SaveStmt.exec] at h
      split_ifs at h
      obtain ⟨b, -, rfl⟩ := Option.map_eq_some_iff.1 h
      rfl
  | _ =>
      simp only [SaveStmt.exec] at h
      split_ifs at h
      obtain rfl := Option.some.inj h
      rfl

theorem exec_fields {a : SaveStmt} {k : String}
    (h : SaveStmt.exec Q d renamed region P c a = some c') (hk : a.field ≠ some k) :
    c'.fields k = c.fields k := by
  cases a with
  | convert conv v =>
      simp only [SaveStmt.exec] at h
      split_ifs at h
      obtain ⟨b, -, rfl⟩ := Option.map_eq_some_iff.1 h
      rfl
  | shared name t r conv =>
      simp only [SaveStmt.exec] at h
      split_ifs at h
      obtain ⟨b, -, rfl⟩ := Option.map_eq_some_iff.1 h
      exact Function.update_of_ne (fun h => hk (by rw [h]; rfl)) _ _
  | copy name t before =>
      simp only [SaveStmt.exec] at h
      split_ifs at h
      obtain rfl := Option.some.inj h
      exact Function.update_of_ne (fun h => hk (by rw [h]; rfl)) _ _
  | _ =>
      simp only [SaveStmt.exec] at h
      split_ifs at h
      obtain rfl := Option.some.inj h
      rfl

/-! ## The parts of the code -/

/-- The paths that are not special, and then the special ones. -/
theorem saveSrc_eq (Q : Channel) (reverse : Bool) (struct : String) (xs : List Path) :
    getSaveStateSrc reverse struct Q.vars xs =
      ((if Path.field "qid" ∈ xs then [SaveStmt.qid] else []) ++ [.buffer, .entry struct]) ++
        (saveLoop reverse [] (Q.vars.filter fun v => !v.special) ++
          saveLoop reverse [] (Q.vars.filter Var.special)) := by
  have hlen : (Q.vars.filter fun v => !v.special).filterMap Var.length? = [] :=
    List.filterMap_eq_nil_iff.2 fun v hv =>
      length?_of_plain (by simpa using (List.mem_filter.1 hv).2)
  rw [getSaveStateSrc, saveLoop_append, hlen, List.append_nil]

/-- The first statements. -/
theorem head_cases {struct : String} {extras : List Path} {a : SaveStmt}
    (ha : a ∈ (if Path.field "qid" ∈ extras then [SaveStmt.qid] else []) ++
      [.buffer, .entry struct]) :
    a = .qid ∧ Path.field "qid" ∈ extras ∨ a = .buffer ∨ a = .entry struct := by
  rcases List.mem_append.1 ha with ha | ha
  · split_ifs at ha with hqid
    · exact Or.inl ⟨List.mem_singleton.1 ha, hqid⟩
    · cases ha
  · exact Or.inr (by simpa using ha)

/-- The first statements change nothing. -/
theorem save_parts {reverse : Bool} {struct : String} {xs : List Path}
    (h : run (SaveStmt.exec Q d renamed region P) ⟨e, fun _ => none⟩
      (getSaveStateSrc reverse struct Q.vars xs) = some c) :
    ∃ c₁, run (SaveStmt.exec Q d renamed region P) ⟨e, fun _ => none⟩
        (saveLoop reverse [] (Q.vars.filter fun v => !v.special)) = some c₁ ∧
      run (SaveStmt.exec Q d renamed region P) c₁
        (saveLoop reverse [] (Q.vars.filter Var.special)) = some c := by
  rw [saveSrc_eq, run_append, Option.bind_eq_some_iff] at h
  obtain ⟨c₀, hhead, h⟩ := h
  rw [run_append, Option.bind_eq_some_iff] at h
  have hsame : c₀ = ⟨e, fun _ => none⟩ := by
    refine run_frame (fun (c : Consumer) (_ : Unit) => c) (fun _ => none) (k := ())
      (fun a ha s t hst _ => ?_) (fun _ _ => by simp) hhead
    rcases head_cases ha with ⟨rfl, -⟩ | rfl | rfl <;>
    · simp only [SaveStmt.exec] at hst
      split_ifs at hst
      exact (Option.some.inj hst).symm
  rwa [hsame] at h

theorem plain_of_filter {v : Var} (hv : v ∈ Q.vars.filter fun v => !v.special) :
    v ∈ Q.vars ∧ v.special = false := by
  obtain ⟨hv, hs⟩ := List.mem_filter.1 hv
  exact ⟨hv, by simpa using hs⟩

/-! ## The live paths that are not special -/

section

variable {reverse : Bool} {c₁ : Consumer}
  (h : run (SaveStmt.exec Q d renamed region P) ⟨e, fun _ => none⟩
    (saveLoop reverse [] (Q.vars.filter fun v => !v.special)) = some c₁)

/-- The statement of such a path. -/
theorem convert_of_mem {a : SaveStmt}
    (ha : a ∈ saveLoop reverse [] (Q.vars.filter fun v => !v.special)) :
    ∃ v ∈ Q.vars, v.annotation = .plain ∧ (reverse && v.type.sizeof.isSome) = true ∧
      a = .convert (v.type.convert reverse) v := by
  rcases mem_saveLoop_cases ha with ⟨v, hv, hann, hsize, rfl⟩ | ⟨v, hv, r, hann, rfl⟩ |
    ⟨pre, v, post, l, heq, hann, rfl⟩
  · exact ⟨v, (plain_of_filter hv).1, hann, hsize, rfl⟩
  · have hs := (plain_of_filter hv).2
    simp [Var.special, hann] at hs
  · have hs := (plain_of_filter (Q := Q) (by rw [heq]; simp : v ∈ _)).2
    simp [Var.special, hann] at hs

include h

/-- No pointer is put together yet. -/
theorem plain_fields : c₁.fields = fun _ => none := by
  funext k
  refine run_frame (fun (c : Consumer) k => c.fields k) SaveStmt.field
    (fun _ _ _ _ hst hk => exec_fields hst hk) (fun a ha hak => ?_) h
  obtain ⟨v, -, -, -, rfl⟩ := convert_of_mem ha
  cases hak

/-- The copied bytes stay in the entry. -/
theorem plain_content : c₁.entry.content = e.content :=
  run_frame (fun (c : Consumer) (_ : Unit) => c.entry.content) (fun _ => none)
    (k := ()) (fun _ _ _ _ hst _ => exec_content hst) (fun _ _ => by simp) h

/-- A member that is not turned round. -/
theorem plain_member {k : String} (hk : ∀ v ∈ Q.vars, v.annotation = .plain →
    (reverse && v.type.sizeof.isSome) = true → v.path.last ≠ k) :
    c₁.entry.members k = e.members k := by
  refine run_frame (fun (c : Consumer) k => c.entry.members k) SaveStmt.key
    (fun _ _ _ _ hst hk => exec_members hst hk) (fun a ha hak => ?_) h
  obtain ⟨v, hv, hann, hsize, rfl⟩ := convert_of_mem ha
  exact hk v hv hann hsize (Option.some.inj hak)

variable (hentry : (entryMembers Q.vars).Nodup)

include hentry

/-- **A live path that is not special** is turned round if its device has to. -/
theorem plain_value {v : Var} (hv : v ∈ Q.vars) (hann : v.annotation = .plain) :
    ∃ b, (v.type.convert reverse).apply v.type (d.order (e.members v.path.last)) = some b ∧
      c₁.entry.members v.path.last = d.order b := by
  have hs : v.special = false := by simp [Var.special, hann]
  have hkey := Var.key_of_plain hs
  by_cases hsize : (reverse && v.type.sizeof.isSome) = true
  · -- the statement for `v` is the only one that changes the member
    obtain ⟨rfl, hsome⟩ := Bool.and_eq_true_iff.1 hsize
    have hmem : SaveStmt.convert (v.type.convert true) v ∈
        saveLoop true [] (Q.vars.filter fun v => !v.special) :=
      mem_saveLoop_plain [] (List.mem_filter.2 ⟨hv, by rw [hs]; rfl⟩) hann hsome
    have hnodup : ((saveLoop true [] (Q.vars.filter fun v => !v.special)).filterMap
        SaveStmt.key).Nodup := by
      refine List.Nodup.sublist (keys_saveLoop_plain true [] _ fun v hv =>
        (plain_of_filter hv).2) ?_
      have hkeys : (Q.vars.filter fun v => !v.special).map (fun v => v.path.last) =
          (Q.vars.filter fun v => !v.special).filterMap Var.key := by
        rw [← List.filterMap_eq_map]
        exact List.filterMap_congr fun v hv => (Var.key_of_plain (plain_of_filter hv).2).symm
      rw [hkeys]
      exact (keys_vars hentry).sublist (List.filter_sublist.filterMap _)
    obtain ⟨u, w, hstep, hu, hw⟩ := run_key (fun (c : Consumer) k => c.entry.members k)
      SaveStmt.key (fun _ _ _ _ hst hk => exec_members hst hk) hnodup hmem rfl h
    simp only [SaveStmt.exec] at hstep
    split_ifs at hstep
    obtain ⟨b, hb, rfl⟩ := Option.map_eq_some_iff.1 hstep
    rw [hu] at hb
    exact ⟨b, hb, hw.trans (Function.update_self ..)⟩
  · have hconv : v.type.convert reverse = .plain := by
      cases reverse with
      | false => rfl
      | true =>
          have hnone : v.type.sizeof = none := by simpa using hsize
          simp [CType.convert, hnone]
    refine ⟨d.order (e.members v.path.last), by rw [hconv, Conv.apply_plain], ?_⟩
    rw [d.order_order]
    refine plain_member h fun w hw hwann hwsize hlast => hsize ?_
    have hwkey : w.key = some v.path.last := by simp [Var.key, Var.member, hwann, hlast]
    rw [← eq_of_key (keys_vars hentry) hw hv hwkey hkey]
    exact hwsize

/-- The member of a path with `@shared` stays as it is. -/
theorem plain_shared {v : Var} (hv : v ∈ Q.vars) {r : String} (hann : v.annotation = .shared r) :
    c₁.entry.members v.path.last = e.members v.path.last := by
  refine plain_member h fun w hw hwann _ hlast => ?_
  have hkey : v.key = some v.path.last := by simp [Var.key, Var.member, hann]
  have hwkey : w.key = some v.path.last := by simp [Var.key, Var.member, hwann, hlast]
  rw [eq_of_key (keys_vars hentry) hw hv hwkey hkey, hann] at hwann
  cases hwann

end

/-! ## The special paths -/

/-- The entry stays as it is. -/
theorem special_entry {reverse : Bool} {copied : List Length} {xs : List Var}
    (hxs : ∀ v ∈ xs, v.special = true)
    (h : run (SaveStmt.exec Q d renamed region P) c (saveLoop reverse copied xs) = some c') :
    c'.entry = c.entry :=
  run_frame (fun (c : Consumer) (_ : Unit) => c.entry) (fun _ => none) (k := ())
    (fun a ha _ _ hst _ => exec_entry hst ((keys_saveLoop_special reverse copied xs hxs).1 a ha))
    (fun _ _ => by simp) h

/-- A field that is not put together. -/
theorem special_fields {reverse : Bool} {copied : List Length} {xs : List Var}
    (hxs : ∀ v ∈ xs, v.special = true) {k : String} (hk : ∀ v ∈ xs, v.path.last ≠ k)
    (h : run (SaveStmt.exec Q d renamed region P) c (saveLoop reverse copied xs) = some c') :
    c'.fields k = c.fields k := by
  refine run_frame (fun (c : Consumer) k => c.fields k) SaveStmt.field
    (fun _ _ _ _ hst hk => exec_fields hst hk) (fun a ha hak => ?_) h
  have hmem : k ∈ (saveLoop reverse copied xs).filterMap SaveStmt.field :=
    List.mem_filterMap.2 ⟨a, ha, hak⟩
  rw [(keys_saveLoop_special reverse copied xs hxs).2] at hmem
  obtain ⟨v, hv, heq⟩ := List.mem_map.1 hmem
  exact hk v hv heq

section

variable {reverse : Bool} {struct : String} {xs : List Path}
  (h : run (SaveStmt.exec Q d renamed region P) ⟨e, fun _ => none⟩
    (getSaveStateSrc reverse struct Q.vars xs) = some c)

include h

/-- A member that is not turned round. -/
theorem save_member {k : String} (hk : ∀ v ∈ Q.vars, v.annotation = .plain →
    (reverse && v.type.sizeof.isSome) = true → v.path.last ≠ k) :
    c.entry.members k = e.members k := by
  obtain ⟨c₁, hplain, hspecial⟩ := save_parts h
  rw [special_entry (fun v hv => (List.mem_filter.1 hv).2) hspecial, plain_member hplain hk]

/-- A live path that is not special. -/
theorem save_plain (hentry : (entryMembers Q.vars).Nodup) {v : Var} (hv : v ∈ Q.vars)
    (hann : v.annotation = .plain) :
    ∃ b, (v.type.convert reverse).apply v.type (d.order (e.members v.path.last)) = some b ∧
      c.entry.members v.path.last = d.order b := by
  obtain ⟨c₁, hplain, hspecial⟩ := save_parts h
  rw [special_entry (fun v hv => (List.mem_filter.1 hv).2) hspecial]
  exact plain_value hplain hentry hv hann

end

end Channel
end Smart
end Floem
