import Floem.Smart.Fill

/-!
# References behind the queue

* `apart` — the rules put different texts in place.
* `refers_iff` — **every live path becomes its member exactly if its rule is settled.**
* `stays_iff`, `qid_iff` — the references that `save<i>` makes.
-/

namespace Floem
namespace Smart

open Lib

/-- The name of the member in which a live path is stored. -/
def Var.key (v : Var) : Option String := v.member.map Prod.snd

/-- No two live paths are stored in one member. -/
theorem keys_vars {vars : List Var} (hentry : (entryMembers vars).Nodup) :
    (vars.filterMap Var.key).Nodup := by
  rw [entryMembers, List.map_append, List.append_assoc, List.nodup_append] at hentry
  have hnodup := (List.nodup_append.1 hentry.2.1).1
  rwa [List.map_filterMap] at hnodup

theorem Var.key_of_plain {v : Var} (hs : v.special = false) : v.key = some v.path.last := by
  cases hann : v.annotation <;> simp_all [Var.special, Var.key, Var.member]

theorem string_ext {f g : String} (h : f.toList = g.toList) : f = g := String.toList_inj.1 h

/-- The fields of the pipeline struct that the generated code names. -/
theorem words_reserved : ∀ f ∈ ["refcount", "buffer", "entry", "qid"],
    ∀ c ∈ f.toList, letters.word c = true := by
  simp [letters, isWord]

theorem words_content : ∀ c ∈ "_content".toList, letters.word c = true := by
  simp [letters, isWord]

/-- No other live path is stored in the member of a path with `@shared`. -/
theorem shared_ne {vars : List Var} (hentry : (entryMembers vars).Nodup) {v : Var} {r : String}
    (hv : v ∈ vars) (hann : v.annotation = .shared r) {w : Var} (hw : w ∈ vars)
    (hs : w.special = false) : w.path.last ≠ v.path.last := by
  intro heq
  have hkey : v.key = some v.path.last := by simp [Var.key, Var.member, hann]
  rw [eq_of_key (keys_vars hentry) hw hv (heq ▸ Var.key_of_plain hs) hkey] at hs
  simp [Var.special, hann] at hs

/-- No live path is stored in the member of the copied bytes. -/
theorem content_ne {vars : List Var} (hentry : (entryMembers vars).Nodup) {v : Var} {l : Length}
    (hv : v ∈ vars) (hann : v.annotation = .copysize l) {w : Var} (hw : w ∈ vars)
    (hs : w.special = false) : w.path.last ≠ "_content" := by
  have hany : (vars.any fun v => v.length?.isSome) = true :=
    List.any_eq_true.2 ⟨v, hv, by simp [Var.length?, hann]⟩
  rw [entryMembers, if_pos hany, List.nodup_append] at hentry
  intro heq
  have hmember : w.member = some (w.type, w.path.last) := by
    cases hwann : w.annotation <;> simp_all [Var.special, Var.member]
  refine hentry.2.2 w.path.last ?_ "_content" List.mem_cons_self heq
  rw [List.map_append]
  exact List.mem_append_right _
    (List.mem_map.2 ⟨_, List.mem_filterMap.2 ⟨w, hw, hmember⟩, rfl⟩)

namespace Channel

variable {Q : Channel}

theorem mem_paths (Q : Channel) {p : Path} : p ∈ Q.live ↔ ∃ v ∈ Q.vars, v.path = p := by
  rw [← getEntryContent_paths Q.vars_eq, List.mem_map]

theorem words_var (Q : Channel) {v : Var} (hv : v ∈ Q.vars) :
    ∀ c ∈ v.path.last.toList, letters.word c = true :=
  (Q.words _ (List.mem_append_left _ (Q.mem_paths.2 ⟨v, hv, rfl⟩))).last

/-- The paths that lead to the pipeline struct. -/
theorem words_state (Q : Channel) {p : Path} (hp : p ∈ Q.extras ++ Q.specials) :
    ∀ c ∈ p.last.toList, letters.word c = true := by
  rcases List.mem_append.1 hp with hp | hp
  · exact (Q.words p (List.mem_append_right _ hp)).last
  · obtain ⟨v, hv, -, rfl⟩ := mem_specialPaths.1 (Q.specials_perm.mem_iff.1 hp)
    exact Q.words_var hv

/-- `entry->` is no word that ends there. -/
theorem inEntry_ne (f : String) {g : String} (hg : ∀ c ∈ g.toList, letters.word c = true)
    {s t : List Char} (ht : letters.ends t = true)
    (h : (Path.inEntry f).text ++ s = g.toList ++ t) : g = "entry" ∧ t = '-' :: '>' :: (f.toList ++ s) := by
  rw [Path.text_inEntry, List.append_assoc] at h
  obtain ⟨hg, ht⟩ := Letters.word_inj (L := letters) (words_reserved "entry" (by simp)) hg rfl ht h
  exact ⟨(string_ext hg).symm, by simpa using ht.symm⟩

section

variable (hentry : (entryMembers Q.vars).Nodup) (hpipeline : (pipelineMembers Q.vars Q.extras).Nodup)

include hpipeline

/-- The members of the pipeline struct have names of their own. -/
theorem state_names : ("buffer" ∉ (Q.extras ++ Q.specials).map Path.last ∧
    "entry" ∉ (Q.extras ++ Q.specials).map Path.last) ∧
      ((Q.extras ++ Q.specials).map Path.last).Nodup := by
  have hperm : ((Q.extras ++ Q.specials).map Path.last).Perm
      (Q.extras.map Path.last ++ (Q.vars.filter Var.special).map fun v => v.path.last) := by
    have hlast : ((Q.vars.filter Var.special).map fun v => v.path.last) =
        (specialPaths Q.vars).map Path.last := by
      rw [specialPaths, List.map_map]
      rfl
    rw [List.map_append, hlast]
    exact (Q.specials_perm.map Path.last).append_left _
  rw [pipelineMembers, List.nodup_cons, List.nodup_cons, List.nodup_cons] at hpipeline
  obtain ⟨-, hbuffer, hentry, hnodup⟩ := hpipeline
  rw [hperm.nodup_iff, hperm.mem_iff, hperm.mem_iff]
  exact ⟨⟨fun h => hbuffer (List.mem_cons_of_mem _ h), hentry⟩, hnodup⟩

theorem eq_of_last {p q : Path} (hp : p ∈ Q.extras ++ Q.specials) (hq : q ∈ Q.extras ++ Q.specials)
    (h : p.last = q.last) : p = q :=
  List.inj_on_of_nodup_map (state_names hpipeline).2 hp hq h

include hentry

/-- **The rules put different texts in place.** -/
theorem apart : ∀ x ∈ Q.rules, ∀ y ∈ Q.rules, ∀ s t, letters.ends s = true →
    letters.ends t = true → x.new ++ s = y.new ++ t → x = y := by
  have hcross : ∀ v ∈ Q.vars, ∀ p ∈ Q.extras ++ Q.specials, ∀ s t, letters.ends t = true →
      (Path.inEntry v.path.last).text ++ s ≠ (Path.field p.last).text ++ t := by
    intro v hv p hp s t ht heq
    rw [Path.text_field] at heq
    obtain ⟨hlast, -⟩ := inEntry_ne _ (Q.words_state hp) ht heq
    exact (state_names hpipeline).1.2 (hlast ▸ List.mem_map_of_mem hp)
  have hsplit : ∀ x ∈ Q.rules, (∃ v ∈ Q.vars, v.special = false ∧ entryRule v.path = x) ∨
      ∃ p ∈ Q.extras ++ Q.specials, stateRule p = x := by
    intro x hx
    rcases List.mem_append.1 hx with hx | hx
    · obtain ⟨p, hp, rfl⟩ := List.mem_map.1 hx
      obtain ⟨v, hv, hs, rfl⟩ := mem_plainPaths.1 hp
      exact Or.inl ⟨v, hv, hs, rfl⟩
    · rw [← List.map_append] at hx
      obtain ⟨p, hp, rfl⟩ := List.mem_map.1 hx
      exact Or.inr ⟨p, hp, rfl⟩
  intro x hx y hy s t hs ht heq
  rcases hsplit x hx with ⟨v, hv, hvs, rfl⟩ | ⟨p, hp, rfl⟩ <;>
    rcases hsplit y hy with ⟨w, hw, hws, rfl⟩ | ⟨q, hq, rfl⟩
  · have hlast : v.path.last.toList ++ s = w.path.last.toList ++ t := by
      simpa [entryRule] using heq
    have hname := string_ext (Letters.word_inj (Q.words_var hv) (Q.words_var hw) hs ht hlast).1
    rw [eq_of_key (keys_vars hentry) hv hw (Var.key_of_plain hvs)
      (hname ▸ Var.key_of_plain hws)]
  · exact absurd heq (hcross v hv q hq s t ht)
  · exact absurd heq.symm (hcross w hw p hp t s hs)
  · have hlast : p.last.toList ++ s = q.last.toList ++ t := by simpa [stateRule] using heq
    have hname := string_ext (Letters.word_inj (Q.words_state hp) (Q.words_state hq) hs ht hlast).1
    rw [eq_of_last hpipeline hp hq hname]

theorem rules_nodup : Q.rules.Nodup := by
  have hblank : letters.ends [' '] = true := rfl
  have hplain : (plainPaths Q.vars).Nodup := by
    have hlive := Q.live_nodup
    rw [← getEntryContent_paths Q.vars_eq] at hlive
    exact hlive.sublist (List.filter_sublist.map _)
  have hstate : (Q.extras ++ Q.specials).Nodup := (state_names hpipeline).2.of_map _
  have hnames : ∀ p ∈ Q.extras ++ Q.specials, ∀ q ∈ Q.extras ++ Q.specials,
      stateRule p = stateRule q → p = q := by
    intro p hp q hq heq
    have hnew : (stateRule p).new = (stateRule q).new := congrArg Rule.new heq
    simp only [stateRule, Path.text_field] at hnew
    exact eq_of_last hpipeline hp hq (string_ext hnew)
  unfold rules replaceStates
  rw [← List.map_append]
  refine List.nodup_append.2 ⟨hplain.map_on ?_, hstate.map_on hnames, ?_⟩
  · intro p hp q hq heq
    obtain ⟨v, hv, hvs, rfl⟩ := mem_plainPaths.1 hp
    obtain ⟨w, hw, hws, rfl⟩ := mem_plainPaths.1 hq
    have hnew : (entryRule v.path).new = (entryRule w.path).new := congrArg Rule.new heq
    have hlast : v.path.last.toList = w.path.last.toList := by simpa [entryRule] using hnew
    rw [eq_of_key (keys_vars hentry) hv hw (Var.key_of_plain hvs)
      (string_ext hlast ▸ Var.key_of_plain hws)]
  · intro x hx y hy heq
    obtain ⟨p, hp, rfl⟩ := List.mem_map.1 hx
    obtain ⟨v, hv, hvs, rfl⟩ := mem_plainPaths.1 hp
    obtain ⟨q, hq, rfl⟩ := List.mem_map.1 hy
    have hnew : (Path.inEntry v.path.last).text ++ [' '] = q.last.toList ++ [' '] := by
      have hnew : (Path.inEntry v.path.last).text = (Path.field q.last).text :=
        congrArg Rule.new heq
      rw [hnew, Path.text_field]
    exact absurd (inEntry_ne _ (Q.words_state hq) hblank hnew).2 (by simp)

end

/-- From a rule on that does not lead to the entry, all rules make texts shorter. -/
theorem rules_cases (Q : Channel) {pre post : List (Rule Char)} {x : Rule Char}
    (hsplit : Q.rules = pre ++ x :: post) :
    (∃ v ∈ Q.vars, v.special = false ∧ v.rule = x) ∨ ∀ y ∈ x :: post, y.Shrinks := by
  have hstate : ∀ y ∈ Q.extras.map stateRule ++ Q.specials.map stateRule, y.Shrinks := by
    intro y hy
    rw [← List.map_append] at hy
    obtain ⟨p, -, rfl⟩ := List.mem_map.1 hy
    exact shrinks_stateRule p
  rcases List.append_eq_append_iff.1 hsplit with ⟨mid, rfl, hmid⟩ | ⟨mid, hmid, hpost⟩
  · refine Or.inr fun y hy => hstate y ?_
    rw [hmid]
    exact List.mem_append_right _ hy
  · cases mid with
    | nil =>
        refine Or.inr fun y hy => hstate y ?_
        rw [List.nil_append] at hpost
        rwa [← hpost]
    | cons z mid =>
        obtain ⟨rfl, -⟩ := List.cons.inj hpost
        refine Or.inl (mem_entryRules.1 ?_)
        rw [hmid]
        simp

/-! ## The elements behind `save` -/

theorem right_iff (Q : Channel) (v : Var) :
    Right letters Q.rules v.rule ↔ Q.Refers v := by
  unfold Right Refers
  rw [rule_pattern]
  rfl

section

variable (hentry : (entryMembers Q.vars).Nodup) (hpipeline : (pipelineMembers Q.vars Q.extras).Nodup)

include hentry hpipeline

/-- **Every live path becomes its member** exactly if no path comes in the way of another. -/
theorem refers_iff : (∀ v ∈ Q.vars, Q.Refers v) ↔ ∀ v ∈ Q.vars, Settled letters v.rule Q.rules := by
  constructor
  · intro h v hv
    refine settled_of_rewrite (rules_nodup hentry hpipeline) (fun pre x post hsplit => ?_)
      (apart hentry hpipeline) (Q.rule_mem hv) ((Q.right_iff v).2 (h v hv))
    rcases Q.rules_cases hsplit with ⟨w, hw, -, rfl⟩ | hshrinks
    · exact Or.inl ((Q.right_iff w).2 (h w hw))
    · exact Or.inr hshrinks
  · intro h v hv
    rw [← right_iff]
    exact fun t ht => (h v hv).rewrite ht

end

/-! ## The code of `save` -/

/-- The rules leave a reference of the generated code. -/
def Leaves (Q : Channel) (p : Path) : Prop := ∀ x ∈ Q.rules, x.Leaves letters (p.text ++ [' '])

instance (Q : Channel) (p : Path) : Decidable (Q.Leaves p) := List.decidableBAll _ _

/-- A match in a word is one of the whole word. -/
theorem drop_of_hits {q : List Char} {m : String} (hm : ∀ c ∈ m.toList, letters.word c = true)
    (h : letters.hits q (m.toList ++ [' ']) = true) :
    q.length = m.toList.length ∧ (m.toList ++ [' ']).drop q.length = [' '] := by
  obtain ⟨hends, hlt⟩ := Letters.hits_drop h
  rw [List.length_append, List.length_singleton] at hlt
  have hlen : q.length = m.toList.length := by
    by_contra hne
    have hin : q.length < m.toList.length := by omega
    rw [List.drop_append_of_le_length hin.le, List.drop_eq_getElem_cons hin] at hends
    have hword := hm _ (List.getElem_mem hin)
    change (!letters.word _) = true at hends
    rw [hword] at hends
    cases hends
  exact ⟨hlen, by rw [hlen, List.drop_left]⟩

/-- Rules that lead to the pipeline struct keep a member of it one. -/
theorem rewrite_state {ps : List Path}
    (hps : ∀ p ∈ ps, ∀ c ∈ p.last.toList, letters.word c = true) {m : String}
    (hm : ∀ c ∈ m.toList, letters.word c = true) :
    ∃ m', rewrite letters (ps.map stateRule) (m.toList ++ [' ']) = some (m'.toList ++ [' ']) ∧
      (m' = m ∨ m' ∈ ps.map Path.last) := by
  induction ps generalizing m with
  | nil => exact ⟨m, rfl, Or.inl rfl⟩
  | cons p ps ih =>
      have ih := fun {m : String} => @ih (fun q hq => hps q (List.mem_cons_of_mem _ hq)) m
      rw [List.map_cons, rewrite_cons]
      by_cases hleaves : (stateRule p).Leaves letters (m.toList ++ [' '])
      · obtain ⟨m', hrewrite, hm'⟩ := ih hm
        rw [Rule.apply_of_leaves hleaves, Option.bind_some]
        exact ⟨m', hrewrite, hm'.imp_right fun h => List.mem_cons_of_mem _ h⟩
      · obtain ⟨w, hw⟩ := (shrinks_stateRule p).apply (L := letters) (m.toList ++ [' '])
        obtain ⟨-, hhits, rest, rfl, hrest, -, hmore, honce⟩ := Rule.apply_spec hw hleaves
        obtain ⟨hlen, hdrop⟩ := drop_of_hits hm hhits
        have hblank : rest = [' '] := by
          cases hagain : letters.hits (stateRule p).pattern
              ((stateRule p).new ++ (m.toList ++ [' ']).drop (stateRule p).pattern.length) with
          | false => rw [honce hagain, hdrop]
          | true =>
              have hlt := hmore hagain
              rw [List.length_append, List.length_singleton, hlen] at hlt
              obtain rfl : rest = [] := List.length_eq_zero_iff.1 (by omega)
              cases hrest
        obtain ⟨m', hrewrite, hm'⟩ := ih (hps p List.mem_cons_self)
        have hnew : (stateRule p).new = p.last.toList := Path.text_field _
        rw [hw, Option.bind_some, hblank, hnew]
        refine ⟨m', hrewrite, Or.inr ?_⟩
        rcases hm' with rfl | hm'
        · exact List.mem_cons_self
        · exact List.mem_cons_of_mem _ hm'

section

variable (hsettled : ∀ v ∈ Q.vars, Settled letters v.rule Q.rules) {renamed : Bool}

include hsettled

/-- A reference to a place of its own stays as it is exactly if the rules leave it. -/
theorem stays_iff {p : Path} (hne : ∀ v ∈ Q.vars, v.special = false → ∀ t,
      letters.ends t = true → (Path.inEntry v.path.last).text ++ t ≠ p.text ++ [' ']) :
    Q.Stays renamed p ↔ (renamed = true → Q.Leaves p) := by
  cases renamed with
  | false => simp [Stays, refer]
  | true =>
      refine ⟨fun h _ => leaves_of_rewrite (fun pre x post hsplit => ?_) h,
        fun h => rewrite_of_leaves (h rfl)⟩
      rcases Q.rules_cases hsplit with ⟨v, hv, hs, rfl⟩ | hshrinks
      · refine Or.inl ⟨hsettled v hv, fun t ht => ?_⟩
        rw [Var.rule, hs, if_neg Bool.false_ne_true]
        exact hne v hv hs t ht
      · exact Or.inr hshrinks

/-- A field of the pipeline struct. -/
theorem stays_field {f : String} (hf : ∀ c ∈ f.toList, letters.word c = true) :
    Q.Stays renamed (.field f) ↔ (renamed = true → Q.Leaves (.field f)) := by
  refine stays_iff hsettled fun v _ _ t _ heq => ?_
  rw [Path.text_field] at heq
  exact absurd (inEntry_ne _ hf rfl heq).2 (by simp)

/-- A member of the entry that is not one of a live path. -/
theorem stays_inEntry {f : String} (hf : ∀ c ∈ f.toList, letters.word c = true)
    (hmember : ∀ v ∈ Q.vars, v.special = false → v.path.last ≠ f) :
    Q.Stays renamed (.inEntry f) ↔ (renamed = true → Q.Leaves (.inEntry f)) := by
  refine stays_iff hsettled fun v hv hs t ht heq => hmember v hv hs ?_
  rw [Path.text_inEntry, Path.text_inEntry, List.append_assoc, List.append_assoc] at heq
  have hlast : v.path.last.toList ++ t = f.toList ++ [' '] := by
    simpa using List.append_cancel_left heq
  exact string_ext (Letters.word_inj (Q.words_var hv) hf ht rfl hlast).1

/-- **`state.qid = qid;` stores into the pipeline struct** exactly if no path that leads to the
entry takes `qid`. -/
theorem qid_iff (hqid : Path.field "qid" ∈ Q.extras) :
    (∃ m ∈ pipelineMembers Q.vars Q.extras,
        Q.refer renamed ((Path.field "qid").text ++ [' ']) = some (m.toList ++ [' '])) ↔
      (renamed = true → ∀ x ∈ (plainPaths Q.vars).map entryRule,
        x.Leaves letters ((Path.field "qid").text ++ [' '])) := by
  have hmem : ∀ p ∈ Q.extras ++ Q.specials, p.last ∈ pipelineMembers Q.vars Q.extras := by
    intro p hp
    refine List.mem_cons_of_mem _ (List.mem_cons_of_mem _ (List.mem_cons_of_mem _ ?_))
    rcases List.mem_append.1 hp with hp | hp
    · exact List.mem_append_left _ (List.mem_map_of_mem hp)
    · obtain ⟨v, hv, hs, rfl⟩ := mem_specialPaths.1 (Q.specials_perm.mem_iff.1 hp)
      exact List.mem_append_right _ (List.mem_map.2 ⟨v, List.mem_filter.2 ⟨hv, hs⟩, rfl⟩)
  have hqid' : "qid" ∈ pipelineMembers Q.vars Q.extras :=
    hmem (.field "qid") (List.mem_append_left _ hqid)
  have hwords : ∀ m ∈ pipelineMembers Q.vars Q.extras, ∀ c ∈ m.toList, letters.word c = true := by
    intro m hm
    rcases List.mem_cons.1 hm with rfl | hm
    · exact words_reserved "refcount" (by simp)
    rcases List.mem_cons.1 hm with rfl | hm
    · exact words_reserved "buffer" (by simp)
    rcases List.mem_cons.1 hm with rfl | hm
    · exact words_reserved "entry" (by simp)
    rcases List.mem_append.1 hm with hm | hm
    · obtain ⟨p, hp, rfl⟩ := List.mem_map.1 hm
      exact Q.words_state (List.mem_append_left _ hp)
    · obtain ⟨v, hv, rfl⟩ := List.mem_map.1 hm
      exact Q.words_var (List.mem_filter.1 hv).1
  cases renamed with
  | false =>
      refine iff_of_true ⟨"qid", hqid', ?_⟩ fun h => (by cases h)
      rw [Path.text_field]
      rfl
  | true =>
      simp only [refer, if_true, forall_const]
      constructor
      · rintro ⟨m, hm, hrewrite⟩
        by_contra hno
        obtain ⟨pre, x, post, hsplit, hpre, hx⟩ := rewrite_first hno
        have hrules : Q.rules = pre ++ x ::
            (post ++ (Q.extras.map stateRule ++ Q.specials.map stateRule)) := by
          rw [rules, replaceStates, hsplit, List.append_assoc, List.cons_append]
        obtain ⟨v, hv, hs, rfl⟩ : ∃ v ∈ Q.vars, v.special = false ∧ v.rule = x :=
          mem_entryRules.1 (by rw [hsplit]; simp)
        rw [hrules, rewrite_append, rewrite_of_leaves hpre, Option.bind_some] at hrewrite
        obtain ⟨u, hu, hrest⟩ := run_cons_eq_some hrewrite
        obtain ⟨-, -, t, rfl, ht, -⟩ := Rule.apply_spec hu hx
        have hkept := rewrite_of_leaves fun y hy =>
          ((hsettled v hv).spares hrules y hy).leaves ht
        have heq := Option.some.inj (hkept.symm.trans hrest)
        rw [Var.rule, hs, if_neg Bool.false_ne_true] at heq
        exact absurd (inEntry_ne _ (hwords m hm) rfl heq).2 (by simp)
      · intro h
        unfold rules replaceStates
        rw [rewrite_append, rewrite_of_leaves h, Option.bind_some, Path.text_field, ← List.map_append]
        obtain ⟨m, hrewrite, hm⟩ := rewrite_state (fun p hp => Q.words_state hp)
          (words_reserved "qid" (by simp))
        refine ⟨m, ?_, hrewrite⟩
        rcases hm with rfl | hm
        · exact hqid'
        · obtain ⟨p, hp, rfl⟩ := List.mem_map.1 hm
          exact hmem p hp

end

end Channel
end Smart
end Floem
