import Floem.Smart.Save

/-!
# Entries of a smart queue round-trip

* `Sound` — the condition on the live paths of a channel.
* `roundTrips_iff` — **the main theorem**: what `fill<i>` puts into an entry comes out of
  `save<i>` exactly under that condition.
* `keyChannel`, `floatChannel` — a channel that satisfies it, and one that does not: a
  live `float` does not survive between a NIC and a CPU.
-/

namespace Floem
namespace Smart
namespace Channel

open Lib

/-! ## The condition -/

/-- `save<i>` finds a path that is read by a length in front of a special path: it is a live
path that is not special, or lies behind a live path and both sides are CPUs.  A special path
must have been put together before. -/
def Readable (Q : Channel) (pre : List Var) (p : Path) : Prop :=
  ∃ found, Q.source p = some found ∧
    if found.2 = [] then found.1.special = false
    else Q.producer = .cpu ∧ Q.consumer = .cpu ∧ (found.1.special = true → found.1 ∈ pre)

/-- The condition on the live paths under which entries round-trip. -/
structure Sound (Q : Channel) : Prop where
  /-- The last fields of the live paths are distinct, and none is the name of another
  member. -/
  entry_members : (entryMembers Q.vars).Nodup
  pipeline_members : (pipelineMembers Q.vars Q.extras).Nodup
  /-- No path, taken for a regular expression, comes in the way of a live path. -/
  settled : ∀ v ∈ Q.vars, Settled letters v.rule Q.rules
  /-- If `save<i>` is rewritten, its references stay as they are. -/
  buffer : Q.renames = true → Q.Leaves (.field "buffer")
  entry : Q.renames = true → Q.Leaves (.field "entry")
  qid : Q.renames = true → Path.field "qid" ∈ Q.extras →
    ∀ x ∈ (plainPaths Q.vars).map entryRule, x.Leaves letters ((Path.field "qid").text ++ [' '])
  special : Q.renames = true → ∀ v ∈ Q.vars, v.special = true → Q.Leaves (.field v.path.last)
  shared : Q.renames = true → ∀ v ∈ Q.vars, ∀ r, v.annotation = .shared r →
    Q.Leaves (.inEntry v.path.last)
  content : Q.renames = true → ∀ v ∈ Q.vars, ∀ l, v.annotation = .copysize l →
    Q.Leaves (.inEntry "_content")
  /-- Between a NIC and a CPU there is no `char`, `unsigned int`, `float` or `double`. -/
  types : Q.producer ≠ Q.consumer → ∀ v ∈ Q.vars, v.special = false → v.type.Swaps
  /-- The length of a copied path in front of another one is read from live paths. -/
  lengths : ∀ pre v post l, Q.vars = pre ++ v :: post → v.annotation = .copysize l →
    ∀ l ∈ pre.filterMap Var.length?, ∀ p ∈ l.paths, Q.Readable pre p

variable {Q : Channel}

/-! ## What becomes of a value -/

/-- **A value on its way**: turned round by the producer, stored, loaded, and turned
round by the consumer. -/
theorem carried {P : Producer} {region : String → ℕ} {i : ℕ} {e₀ e : Entry} {c : Consumer}
    (hentry : (entryMembers Q.vars).Nodup)
    (hfill : run (FillStmt.exec Q.producer P) e₀ (Q.fillSrc i) = some e)
    (hsave : run (SaveStmt.exec Q Q.consumer Q.renames region P) ⟨e, fun _ => none⟩ Q.saveSrc
      = some c) {v : Var} (hv : v ∈ Q.vars) (hann : v.annotation = .plain) :
    ∃ b b', (v.type.convert (needByteReverse Q.producer Q.consumer)).apply v.type
        (P.value v.path) = some b ∧
      (v.type.convert (needByteReverse Q.consumer Q.producer)).apply v.type
        (Q.consumer.order (Q.producer.order b)) = some b' ∧
      Q.consumer.order (c.entry.members v.path.last) = b' := by
  obtain ⟨b, hb, hmember⟩ := fill_plain hentry hfill hv hann
  obtain ⟨b', hb', hmember'⟩ := save_plain hsave hentry hv hann
  rw [hmember] at hb'
  exact ⟨b, b', hb, hb', by rw [hmember', Device.order_order]⟩

/-- A type whose bytes are turned round keeps its values. -/
theorem eq_of_swaps (Q : Channel) {t : CType} {v b b' : List UInt8} (hv : v.length = t.cSize)
    (ht : Q.producer ≠ Q.consumer → t.Swaps)
    (hb : (t.convert (needByteReverse Q.producer Q.consumer)).apply t v = some b)
    (hb' : (t.convert (needByteReverse Q.consumer Q.producer)).apply t
      (Q.consumer.order (Q.producer.order b)) = some b') : b' = v := by
  have hboth := Q.not_both_nic
  cases hp : Q.producer <;> cases hc : Q.consumer <;> rw [hp, hc] at hb hb' ht hboth
  · -- from a CPU to a CPU
    cases hb
    cases hb'
    rfl
  · -- from a CPU to a NIC
    cases hb
    have hrev : v.reverse.length = t.cSize := by rw [List.length_reverse, hv]
    have hswap := (ht (by decide)).apply hrev
    rw [List.reverse_reverse] at hswap
    exact Option.some.inj (hb'.symm.trans hswap)
  · -- from a NIC to a CPU
    have hswap := (ht (by decide)).apply hv
    obtain rfl := Option.some.inj (hb.symm.trans hswap)
    cases hb'
    exact v.reverse_reverse
  · exact absurd ⟨rfl, rfl⟩ hboth

theorem crosses_of_reverse {d d' : Device} (h : needByteReverse d d' = true) : d ≠ d' := by
  cases d <;> cases d' <;> revert h <;> decide

theorem htonp_eq (reverse : Bool) : htonp reverse = CType.uint64.convert reverse := by
  cases reverse <;> rfl

/-- The entry that `fill<i>` filled belongs to channel `i`, if `task` has a place for it. -/
theorem classify_of_task {channels i : ℕ} {e : Entry} (hi : i < channels)
    (h : e.members "task" = [UInt8.ofNat (i + 1)]) : classify channels e = some i ↔ i < 255 := by
  have htask : leNat (e.members "task") = (i + 1) % 256 := by
    have : (UInt8.ofNat (i + 1)).toNat = (i + 1) % 256 := by simp
    rw [h, leNat, leNat, this]
    omega
  rw [classify, List.find?_range_eq_some, htask]
  constructor
  · rintro ⟨hmod, -, -⟩
    rw [decide_eq_true_iff] at hmod
    have := Nat.mod_lt (i + 1) (show 0 < 256 by decide)
    omega
  · intro hlt
    rw [Nat.mod_eq_of_lt (show i + 1 < 256 by omega)]
    refine ⟨by simp, List.mem_range.2 hi, fun j hj => ?_⟩
    simp only [Nat.add_right_cancel_iff, Bool.not_eq_eq_eq_not, Bool.not_true,
      decide_eq_false_iff_not]
    omega

/-! ## The condition is enough -/

/-- A type whose bytes are turned round is converted without undefined behaviour. -/
theorem apply_isSome {t : CType} (reverse : Bool) (ht : reverse = true → t.Swaps)
    (v : List UInt8) : ∃ b, (t.convert reverse).apply t v = some b := by
  cases reverse with
  | false => exact ⟨v, rfl⟩
  | true =>
      have hswaps := ht rfl
      cases t with
      | char => exact hswaps.elim
      | unsignedInt => exact hswaps.elim
      | float => exact hswaps.elim
      | double => exact hswaps.elim
      | void => exact hswaps.elim
      | state name => exact hswaps.elim
      | _ => exact ⟨_, rfl⟩

/-- `fill` is done, where every conversion is defined. -/
theorem fill_total (Q : Channel) {d : Device} {reverse : Bool}
    (hconv : ∀ v ∈ Q.vars, v.annotation = .plain → ∀ x, ∃ b,
      (v.type.convert reverse).apply v.type x = some b) (P : Producer) (i : ℕ) (e₀ : Entry) :
    ∃ e, run (FillStmt.exec d P) e₀ (getFillEntrySrc reverse Q.vars i) = some e := by
  refine run_total (fun a ha e => ?_) e₀
  rcases List.mem_append.1 ha with ha | ha
  · rcases mem_fillLoop_cases ha with ⟨v, hv, hann, rfl⟩ | ⟨v, hv, r, -, rfl⟩ |
      ⟨before, v, l, rfl⟩
    · obtain ⟨b, hb⟩ := hconv v hv hann (P.value v.path)
      exact ⟨_, by rw [FillStmt.exec, hb]; rfl⟩
    · obtain ⟨b, hb⟩ := apply_isSome (t := .uint64) reverse (fun _ => trivial)
        (leBytes 8 (offset (leNat (P.value v.path)) (P.region r)))
      rw [← htonp_eq] at hb
      exact ⟨_, by rw [FillStmt.exec, hb]; rfl⟩
    · exact ⟨_, rfl⟩
  · obtain rfl := List.mem_singleton.1 ha
    exact ⟨_, rfl⟩

/-! ## The references of `save` -/

theorem needReplacement_of_infix {paths : List Path} {code text : List Char}
    {outputs : List (List Char)} {p : Path} (hp : p ∈ paths) (htext : p.text <:+: text)
    (hcode : text <:+: code) : needReplacement paths code outputs = true := by
  refine List.any_eq_true.2 ⟨p, hp, List.any_eq_true.2 ⟨code, List.mem_cons_self, ?_⟩⟩
  exact decide_eq_true (htext.trans hcode)

theorem infix_flatMap {α β : Type*} {f : α → List β} {l : List α} {a : α} (ha : a ∈ l) :
    f a <:+: l.flatMap f := by
  obtain ⟨xs, ys, rfl⟩ := List.append_of_mem ha
  rw [List.flatMap_append, List.flatMap_cons]
  exact ⟨_, _, List.append_assoc _ _ _⟩

/-- **An element that spells a live path is rewritten.** -/
theorem renames_of_infix {v : Var} (hv : v ∈ Q.vars) {text : List Char}
    (hpath : v.path.text <:+: text) {a : SaveStmt} (ha : a ∈ Q.saveSrc)
    (htext : text <:+: a.text) : Q.renames = true :=
  needReplacement_of_infix (List.mem_append_left _ (Q.mem_paths.2 ⟨v, hv, rfl⟩)) hpath
    ((htext.trans (infix_flatMap ha)).trans (List.infix_append_of_infix_right List.infix_rfl))

theorem infix_convert (conv : Conv) (v : Var) : v.path.text <:+: (SaveStmt.convert conv v).text :=
  ⟨_, _, rfl⟩

theorem infix_copy (name : String) (t : CType) {before : List Length} {l : Length}
    (hl : l ∈ before) : l.text <:+: (SaveStmt.copy name t before).text := by
  have hitem : "+ ".toList ++ l.text <:+: before.flatMap fun l => "+ ".toList ++ l.text :=
    infix_flatMap (f := fun l : Length => "+ ".toList ++ l.text) hl
  exact ((List.suffix_append _ _).isInfix.trans hitem).trans ⟨_, _, rfl⟩

/-- The statement for a special path. -/
theorem mem_saveSrc_special (Q : Channel) {pre post : List Var} {v : Var}
    (hsplit : Q.vars.filter Var.special = pre ++ v :: post) {a : SaveStmt}
    (ha : a ∈ saveLoop (needByteReverse Q.consumer Q.producer) (pre.filterMap Var.length?)
      (v :: post)) : a ∈ Q.saveSrc := by
  rw [saveSrc, saveSrc_eq]
  refine List.mem_append_right _ (List.mem_append_right _ ?_)
  rw [hsplit, saveLoop_append, List.nil_append]
  exact List.mem_append_right _ ha

/-- What a path in a length begins with. -/
theorem source_spec {p : Path} {found : Var × List Char} (h : Q.source p = some found) :
    found.1 ∈ Q.vars ∧ (found.1.path = p ∧ found.2 = [] ∨
      p.text = found.1.path.text ++ found.2 ∧ letters.ends found.2 = true) := by
  obtain ⟨v, hv, rfl⟩ := Option.map_eq_some_iff.1 h
  refine ⟨List.mem_of_find?_eq_some hv, ?_⟩
  have hfound := List.find?_some hv
  simp only [decide_eq_true_eq] at hfound
  rcases hfound with rfl | ⟨⟨t, ht⟩, hends⟩
  · exact Or.inl ⟨rfl, List.drop_length⟩
  · refine Or.inr ⟨?_, hends⟩
    rw [← ht, List.drop_left]

/-- **A path in a length has its value**, if it is found where `save<i>` is. -/
theorem read_of_readable (hsettled : ∀ v ∈ Q.vars, Settled letters v.rule Q.rules)
    (hrenames : Q.renames = true) {P : Producer} {region : String → ℕ} {c : Consumer}
    {pre : List Var} {p : Path} (hp : Q.Readable pre p)
    (hplain : ∀ v ∈ Q.vars, v.annotation = .plain → c.Holds Q.consumer region P v)
    (hpre : ∀ w ∈ pre, w.special = true → c.Holds Q.consumer region P w) :
    c.read Q Q.consumer Q.renames region P p = some (P.value p) := by
  obtain ⟨found, hfound, hread⟩ := hp
  obtain ⟨hv, hcases⟩ := source_spec hfound
  have hholds : (found.1.special = true → found.1 ∈ pre) →
      c.Holds Q.consumer region P found.1 := by
    intro hin
    by_cases hs : found.1.special = true
    · exact hpre _ (hin hs) hs
    · refine hplain _ hv ?_
      cases hann : Var.annotation found.1 <;> simp_all [Var.special]
  have hrefer : Q.refer Q.renames (p.text ++ [' ']) =
      some (found.1.rule.new ++ (found.2 ++ [' '])) := by
    have hright := fun t (ht : letters.ends t = true) => (hsettled _ hv).rewrite ht
    rw [rule_pattern] at hright
    rw [refer, hrenames, if_pos rfl]
    rcases hcases with ⟨rfl, hnil⟩ | ⟨htext, hends⟩
    · rw [hnil]
      exact hright _ rfl
    · rw [htext, List.append_assoc]
      exact hright _ (Letters.ends_append hends _)
  rw [Consumer.read, hfound, Option.bind_some, if_pos hrefer]
  split_ifs at hread ⊢ with hnil hs hcpu
  · rw [hs] at hread
    cases hread
  · -- the path itself
    rcases hcases with ⟨rfl, -⟩ | ⟨-, hends⟩
    · have hplain := hholds fun hs => absurd (hs.symm.trans hread) (by decide)
      have hann : Var.annotation found.1 = .plain := by
        cases hann : Var.annotation found.1 <;> simp_all [Var.special]
      rw [Consumer.Holds, hann] at hplain
      exact congrArg some hplain
    · rw [hnil] at hends
      cases hends
  · rfl
  · exact absurd ⟨hread.1, hread.2.1, hholds hread.2.2⟩ hcpu

/-- The names of the special paths are distinct. -/
theorem special_names (hpipeline : (pipelineMembers Q.vars Q.extras).Nodup) :
    ((Q.vars.filter Var.special).map fun v => v.path.last).Nodup := by
  simp only [pipelineMembers, List.nodup_cons, List.nodup_append] at hpipeline
  exact hpipeline.2.2.2.2.1

/-- **The special paths are put together one after the other.** -/
theorem Sound.special_run (hQ : Q.Sound) {P : Producer} {region : String → ℕ} {c₁ : Consumer}
    (hplain : ∀ v ∈ Q.vars, v.annotation = .plain → c₁.Holds Q.consumer region P v)
    (hshared : ∀ v ∈ Q.vars, ∀ r, v.annotation = .shared r → ∃ b,
      (htonp (needByteReverse Q.consumer Q.producer)).apply .uint64
        (Q.consumer.order (c₁.entry.members v.path.last)) = some b ∧
      leNat b = offset (leNat (P.value v.path)) (P.region r))
    (hcontent : ∀ pre v post l, Q.vars = pre ++ v :: post → v.annotation = .copysize l →
      ∀ b < l.eval P.value, c₁.entry.content
        (total P.value (pre.filterMap Var.length?) + b) = P.data v.path b)
    {pre xs : List Var} (hsplit : Q.vars.filter Var.special = pre ++ xs) {c : Consumer}
    (hc : c.entry = c₁.entry) (hpre : ∀ w ∈ pre, c.Holds Q.consumer region P w) :
    ∃ c', run (SaveStmt.exec Q Q.consumer Q.renames region P) c
        (saveLoop (needByteReverse Q.consumer Q.producer) (pre.filterMap Var.length?) xs) = some c' ∧
      c'.entry = c₁.entry ∧ ∀ w ∈ pre ++ xs, c'.Holds Q.consumer region P w := by
  induction xs generalizing pre c with
  | nil => exact ⟨c, rfl, hc, by simpa using hpre⟩
  | cons v xs ih =>
      have hmem : v ∈ Q.vars.filter Var.special := by rw [hsplit]; simp
      obtain ⟨hv, hs⟩ := List.mem_filter.1 hmem
      have hword := Q.words_var hv
      -- the other names
      have hother : ∀ w ∈ pre, w.path.last ≠ v.path.last := by
        have hnodup := special_names hQ.pipeline_members
        rw [hsplit, List.map_append, List.nodup_append] at hnodup
        intro w hw heq
        exact hnodup.2.2 _ (List.mem_map_of_mem hw) _ (List.mem_map_of_mem List.mem_cons_self) heq
      -- the state in which the pointer has been put together
      suffices hstep : ∃ a c', saveLoop (needByteReverse Q.consumer Q.producer)
            (pre.filterMap Var.length?) (v :: xs) =
              a :: saveLoop (needByteReverse Q.consumer Q.producer)
                ((pre ++ [v]).filterMap Var.length?) xs ∧
          SaveStmt.exec Q Q.consumer Q.renames region P c a = some c' ∧
          a.key = none ∧ a.field = some v.path.last ∧ c'.Holds Q.consumer region P v by
        obtain ⟨a, c', hloop, hexec, hkey, hfield, hholds⟩ := hstep
        have hentry := exec_entry hexec hkey
        have hsplit' : Q.vars.filter Var.special = (pre ++ [v]) ++ xs := by simp [hsplit]
        obtain ⟨c'', hrun, hentry', hall⟩ := ih hsplit' (hentry.trans hc)
          (List.forall_mem_append.2 ⟨fun w hw => (hpre w hw).congr hentry
            (exec_fields hexec fun heq => hother w hw (Option.some.inj (heq ▸ hfield.symm)).symm),
            by simpa using hholds⟩)
        refine ⟨c'', ?_, hentry', by simpa using hall⟩
        rw [hloop, run_cons, hexec, Option.bind_some, hrun]
      have hstays : Q.Stays Q.renames (.field v.path.last) :=
        (stays_field hQ.settled hword).2 fun hr => hQ.special hr v hv hs
      cases hann : v.annotation with
      | plain => simp [Var.special, hann] at hs
      | shared r =>
          have hlen : v.length? = none := by simp [Var.length?, hann]
          obtain ⟨b, hb, hoffset⟩ := hshared v hv r hann
          have hinEntry : Q.Stays Q.renames (.inEntry v.path.last) := by
            exact (stays_inEntry hQ.settled hword fun w hw hws =>
              shared_ne hQ.entry_members hv hann hw hws).2 fun hr => hQ.shared hr v hv r hann
          rw [← hc] at hb
          refine ⟨.shared v.path.last v.type r (htonp (needByteReverse Q.consumer Q.producer)),
            { c with
              fields := Function.update c.fields v.path.last
                (some (.address ((region r + leNat b) % 2 ^ 64))) },
            by simp [saveLoop, hann, hlen], ?_, rfl, rfl, ?_⟩
          · rw [SaveStmt.exec, if_pos ⟨hstays, hinEntry⟩, hb]
            rfl
          · have hlt := offset_lt (leNat (P.value v.path)) (P.region r)
            rw [Consumer.Holds, hann]
            dsimp only
            rw [Function.update_self, Consumer.Has, hoffset, offset_add _ _ hlt]
      | copysize l =>
          have hlen : v.length? = some l := by simp [Var.length?, hann]
          have hinEntry : Q.Stays Q.renames (.inEntry "_content") := by
            exact (stays_inEntry hQ.settled words_content fun w hw hws =>
              content_ne hQ.entry_members hv hann hw hws).2 fun hr => hQ.content hr v hv l hann
          obtain ⟨pre', post', hvars, rfl⟩ := split_of_filter hsplit
          have hstmt : SaveStmt.copy v.path.last v.type
              ((pre'.filter Var.special).filterMap Var.length?) ∈ Q.saveSrc := by
            refine mem_saveSrc_special Q hsplit ?_
            simp [saveLoop, hann]
          have hlengths := lengths_filter_special pre'
          -- the lengths in front have their values
          have hread : ∀ l ∈ (pre'.filter Var.special).filterMap Var.length?, ∀ p ∈ l.paths,
              c.read Q Q.consumer Q.renames region P p = some (P.value p) := by
            intro l' hl' p hp
            have hreadable := hQ.lengths pre' v post' l hvars hann l' (hlengths ▸ hl') p hp
            obtain ⟨found, hfound, -⟩ := id hreadable
            have hrenames : Q.renames = true := by
              obtain ⟨hw, hcases⟩ := source_spec hfound
              refine renames_of_infix hw ?_ hstmt (infix_copy _ _ hl')
              refine List.IsInfix.trans ?_ (l'.paths_text p hp)
              rcases hcases with ⟨rfl, -⟩ | ⟨htext, -⟩
              · exact List.infix_rfl
              · rw [htext]
                exact (List.prefix_append _ _).isInfix
            refine read_of_readable hQ.settled hrenames hreadable
              (fun w hw hwann => (hplain w hw hwann).congr_plain hwann hc)
              fun w hw hws => hpre w (List.mem_filter.2 ⟨hw, hws⟩)
          refine ⟨.copy v.path.last v.type ((pre'.filter Var.special).filterMap Var.length?),
            { c with
              fields := Function.update c.fields v.path.last
                (some (.content (total P.value (pre'.filterMap Var.length?)))) },
            by simp [saveLoop, hann, hlen], ?_, rfl, rfl, ?_⟩
          · have htotal : total (fun p => (c.read Q Q.consumer Q.renames region P p).getD [])
                ((pre'.filter Var.special).filterMap Var.length?) =
                  total P.value (pre'.filterMap Var.length?) := by
              rw [← hlengths]
              exact total_congr fun l hl p hp => by rw [hread l hl p hp]; rfl
            rw [SaveStmt.exec, if_pos ⟨hstays, hinEntry, fun l hl p hp => by
              rw [hread l hl p hp]; rfl⟩, htotal]
          · rw [Consumer.Holds, hann]
            dsimp only
            rw [Function.update_self, Consumer.Has]
            intro b hb
            dsimp only
            rw [hc]
            exact hcontent pre' v post' l hvars hann b hb

/-- The first part of `save` is done, where every conversion is defined. -/
theorem plain_total (Q : Channel) {d : Device} {renamed reverse : Bool} {region : String → ℕ}
    {P : Producer} (hsettled : ∀ v ∈ Q.vars, Settled letters v.rule Q.rules)
    (hconv : ∀ v ∈ Q.vars, v.annotation = .plain → ∀ x, ∃ b,
      (v.type.convert reverse).apply v.type x = some b)
    (hrenamed : ∀ v conv, SaveStmt.convert conv v ∈
      saveLoop reverse [] (Q.vars.filter fun v => !v.special) → v ∈ Q.vars → renamed = true)
    (c₀ : Consumer) :
    ∃ c, run (SaveStmt.exec Q d renamed region P) c₀
      (saveLoop reverse [] (Q.vars.filter fun v => !v.special)) = some c := by
  refine run_total (fun a ha c => ?_) c₀
  obtain ⟨v, hv, hann, -, rfl⟩ := convert_of_mem ha
  obtain ⟨b, hb⟩ := hconv v hv hann (d.order (c.entry.members v.path.last))
  have hrefer : Q.refer renamed (v.path.text ++ [' ']) = some (v.rule.new ++ [' ']) := by
    have hright := (hsettled v hv).rewrite (L := letters) (t := [' ']) rfl
    rw [rule_pattern] at hright
    rw [refer, hrenamed v _ ha hv, if_pos rfl, hright]
  rw [SaveStmt.exec, if_pos hrefer, hb]
  exact ⟨_, rfl⟩

/-- The first statements are done. -/
theorem head_run {d : Device} {renamed : Bool} {region : String → ℕ} {P : Producer}
    (hsettled : ∀ v ∈ Q.vars, Settled letters v.rule Q.rules)
    (hbuffer : renamed = true → Q.Leaves (.field "buffer"))
    (hentry : renamed = true → Q.Leaves (.field "entry")) {struct : String} {xs : List Path}
    (hqid : Path.field "qid" ∈ xs → Path.field "qid" ∈ Q.extras ∧ (renamed = true →
      ∀ x ∈ (plainPaths Q.vars).map entryRule,
        x.Leaves letters ((Path.field "qid").text ++ [' ']))) (c : Consumer) :
    run (SaveStmt.exec Q d renamed region P) c
      ((if Path.field "qid" ∈ xs then [SaveStmt.qid] else []) ++ [.buffer, .entry struct]) =
        some c := by
  have hbuffer' : SaveStmt.exec Q d renamed region P c .buffer = some c :=
    if_pos ((stays_field hsettled (words_reserved "buffer" (by simp))).2 hbuffer)
  have hentry' : SaveStmt.exec Q d renamed region P c (.entry struct) = some c :=
    if_pos ((stays_field hsettled (words_reserved "entry" (by simp))).2 hentry)
  have hrest : run (SaveStmt.exec Q d renamed region P) c [.buffer, .entry struct] = some c := by
    rw [run_cons, hbuffer', Option.bind_some, run_cons, hentry', Option.bind_some, run_nil]
  split_ifs with hmem
  · obtain ⟨hextra, hleaves⟩ := hqid hmem
    have hqid' : SaveStmt.exec Q d renamed region P c .qid = some c :=
      if_pos ((qid_iff hsettled hextra).2 hleaves)
    rw [List.singleton_append, run_cons, hqid', Option.bind_some, hrest]
  · exact hrest

/-- **Under the condition everything arrives.** -/
theorem Sound.roundTrips (hQ : Q.Sound) {channels i : ℕ} (hi : i < channels)
    (hchannels : channels ≤ 255) : Q.RoundTrips channels i where
  distinct := hQ.entry_members
  arrives P region e₀ hsized := by
    have hcompiles : Q.Compiles := ⟨hQ.entry_members, hQ.pipeline_members⟩
    have hswaps : ∀ d d', Q.producer = d ∧ Q.consumer = d' ∨ Q.producer = d' ∧ Q.consumer = d →
        ∀ v ∈ Q.vars, v.annotation = .plain → ∀ x, ∃ b,
          (v.type.convert (needByteReverse d d')).apply v.type x = some b := by
      intro d d' hd v hv hann
      refine apply_isSome _ fun hreverse => hQ.types ?_ v hv (by simp [Var.special, hann])
      have hne := crosses_of_reverse hreverse
      rcases hd with ⟨rfl, rfl⟩ | ⟨rfl, rfl⟩
      · exact hne
      · exact hne.symm
    obtain ⟨e, hfill⟩ : ∃ e, run (FillStmt.exec Q.producer P) e₀ (Q.fillSrc i) = some e :=
      fill_total Q (hswaps _ _ (Or.inl ⟨rfl, rfl⟩)) P i e₀
    -- the live paths that are not special
    obtain ⟨c₁, hplain⟩ : ∃ c₁, run (SaveStmt.exec Q Q.consumer Q.renames region P)
        ⟨e, fun _ => none⟩ (saveLoop (needByteReverse Q.consumer Q.producer) []
          (Q.vars.filter fun v => !v.special)) = some c₁ := by
      refine plain_total Q hQ.settled (hswaps _ _ (Or.inr ⟨rfl, rfl⟩))
        (fun v conv ha hv => ?_) _
      refine renames_of_infix hv List.infix_rfl ?_ (infix_convert conv v)
      rw [saveSrc, saveSrc_eq]
      exact List.mem_append_right _ (List.mem_append_left _ ha)
    have hvalues : ∀ v ∈ Q.vars, v.annotation = .plain → c₁.Holds Q.consumer region P v := by
      intro v hv hann
      obtain ⟨b, hb, hstored⟩ := fill_plain hQ.entry_members hfill hv hann
      obtain ⟨b', hb', hleft⟩ := plain_value hplain hQ.entry_members hv hann
      rw [hstored] at hb'
      rw [Consumer.Holds, hann, Consumer.Has, hleft, Device.order_order]
      exact eq_of_swaps Q (hsized v hv)
        (fun h => hQ.types h v hv (by simp [Var.special, hann])) hb hb'
    -- the special paths
    have hnone : Q.vars.filter Var.special = [] ++ Q.vars.filter Var.special :=
      (List.nil_append _).symm
    obtain ⟨c, hspecial, hsame, hall⟩ := hQ.special_run hvalues (fun v hv r hann => by
        obtain ⟨b, hb, hmember⟩ := fill_shared hQ.entry_members hfill hv hann
        obtain ⟨b', hb'⟩ := apply_isSome (t := .uint64)
          (needByteReverse Q.consumer Q.producer) (fun _ => trivial)
          (Q.consumer.order (Q.producer.order b))
        rw [htonp_eq] at hb
        have hkept := eq_of_swaps Q (t := .uint64) (length_leBytes 8 _) (fun _ => trivial) hb hb'
        have hlt := offset_lt (leNat (P.value v.path)) (P.region r)
        refine ⟨b', ?_, ?_⟩
        · rw [plain_shared hplain hQ.entry_members hv hann, hmember, htonp_eq]
          exact hb'
        · rw [hkept, leNat_leBytes, Nat.mod_eq_of_lt (show _ < 256 ^ 8 from hlt)])
      (fun pre v post l hvars hann b hb => by
        rw [plain_content hplain]
        exact fill_content hfill hvars (by simp [Var.length?, hann]) b hb)
      hnone rfl (fun w hw => absurd hw List.not_mem_nil)
    have hsave : run (SaveStmt.exec Q Q.consumer Q.renames region P) ⟨e, fun _ => none⟩ Q.saveSrc =
        some c := by
      rw [saveSrc, saveSrc_eq, run_append, head_run hQ.settled hQ.buffer hQ.entry
        (fun hqid => ⟨hqid, fun hr => hQ.qid hr hqid⟩), Option.bind_some, run_append, hplain,
        Option.bind_some]
      exact hspecial
    refine ⟨e, c, by rw [fill, if_pos hcompiles, hfill],
      (classify_of_task hi (fill_task hQ.entry_members hfill)).2 (by omega),
      by rw [save, if_pos hcompiles, hsave], fun v hv => ⟨?_, ?_⟩⟩
    · exact (refers_iff hQ.entry_members hQ.pipeline_members).2 hQ.settled v hv
    · by_cases hs : v.special = true
      · exact hall v (by simpa using ⟨hv, hs⟩)
      · have hann : v.annotation = .plain := by
          cases hann : v.annotation <;> simp_all [Var.special]
        exact (hvalues v hv hann).congr_plain hann hsame

/-! ## The condition is necessary -/

/-- A producer whose values are zero. -/
def zeros (Q : Channel) : Producer where
  value p :=
    match Q.vars.find? fun v => v.path = p with
    | some v => List.replicate v.type.cSize 0
    | none => []
  data _ _ := 0
  region _ := 0

theorem value_zeros {v : Var} (hv : v ∈ Q.vars) :
    Q.zeros.value v.path = List.replicate v.type.cSize 0 := by
  have hsome : (Q.vars.find? fun w => w.path = v.path).isSome := by
    rw [List.find?_isSome]
    exact ⟨v, hv, by simp⟩
  obtain ⟨w, hw⟩ := Option.isSome_iff_exists.1 hsome
  have hpath : w.path = v.path := by simpa using List.find?_some hw
  obtain rfl := Q.eq_of_path (List.mem_of_find?_eq_some hw) hv hpath
  simp only [zeros, hw]

theorem sized_update {v : Var} (hv : v ∈ Q.vars) {x : List UInt8} (hx : x.length = v.type.cSize) :
    Q.Sized { Q.zeros with value := Function.update Q.zeros.value v.path x } := by
  intro w hw
  by_cases hpath : w.path = v.path
  · obtain rfl := Q.eq_of_path hw hv hpath
    simpa using hx
  · simp [hpath, value_zeros hw]

/-- What a length reads, was put together before. -/
theorem readable_of_save (hpipeline : (pipelineMembers Q.vars Q.extras).Nodup) {P : Producer}
    {region : String → ℕ} {e : Entry} {c : Consumer}
    (hsave : run (SaveStmt.exec Q Q.consumer Q.renames region P) ⟨e, fun _ => none⟩ Q.saveSrc
      = some c) {pre post : List Var} {v : Var} {l : Length} (hvars : Q.vars = pre ++ v :: post)
    (hann : v.annotation = .copysize l) :
    ∀ l ∈ pre.filterMap Var.length?, ∀ p ∈ l.paths, Q.Readable pre p := by
  obtain ⟨c₁, hplain, hspecial⟩ := save_parts hsave
  have hs : v.special = true := by simp [Var.special, hann]
  have hpre : ∀ w ∈ pre.filter Var.special, w.special = true := fun w hw => (List.mem_filter.1 hw).2
  have hsplit : Q.vars.filter Var.special =
      pre.filter Var.special ++ v :: post.filter Var.special := by
    rw [hvars, List.filter_append, List.filter_cons_of_pos hs]
  rw [hsplit, saveLoop_append, List.nil_append, lengths_filter_special, run_append,
    Option.bind_eq_some_iff] at hspecial
  obtain ⟨u, hu, hrest⟩ := hspecial
  simp only [saveLoop, hann] at hrest
  obtain ⟨w, hstep, -⟩ := run_cons_eq_some hrest
  simp only [SaveStmt.exec] at hstep
  split_ifs at hstep with hrefs
  intro l' hl' p hp
  have hread := hrefs.2.2 l' hl' p hp
  rw [Consumer.read] at hread
  cases hfound : Q.source p with
  | none =>
      rw [hfound] at hread
      cases hread
  | some found =>
      rw [hfound, Option.bind_some] at hread
      obtain ⟨hw, -⟩ := source_spec hfound
      refine ⟨found, hfound, ?_⟩
      split_ifs at hread with hrefer hnil hspecial hcpu
      · cases hread
      · rw [if_pos hnil]
        exact Bool.eq_false_iff.2 hspecial
      · rw [if_neg hnil]
        refine ⟨hcpu.1, hcpu.2.1, fun hws => ?_⟩
        by_contra hnot
        -- its pointer is not there yet
        have hnone : u.fields found.1.path.last = none := by
          rw [special_fields hpre (fun x hx hlast => hnot ?_) hu, plain_fields hplain]
          have hx' : x ∈ Q.vars.filter Var.special := by
            rw [hsplit]
            exact List.mem_append_left _ hx
          rw [← List.inj_on_of_nodup_map (special_names hpipeline) hx'
            (List.mem_filter.2 ⟨hw, hws⟩) hlast]
          exact (List.mem_filter.1 hx).1
        have hholds := hcpu.2.2
        rw [Consumer.Holds, hnone] at hholds
        cases hwann : Var.annotation found.1 <;> simp_all [Var.special, Consumer.Has]
      · cases hread
      · cases hread

/-- **What arrives satisfies the condition.** -/
theorem RoundTrips.sound {channels i : ℕ} (h : Q.RoundTrips channels i) : Q.Sound := by
  have hzeros : Q.Sized Q.zeros := fun v hv => by rw [value_zeros hv, List.length_replicate]
  obtain ⟨e, c, hfill, -, hsave, heval⟩ :=
    h.arrives Q.zeros (fun _ => 0) ⟨fun _ => [], fun _ => 0⟩ hzeros
  unfold save at hsave
  split_ifs at hsave with hcompiles
  have hsettled := (refers_iff hcompiles.1 hcompiles.2).1 fun v hv => (heval v hv).1
  -- every statement of `save` was done, so that its references are as they were written
  have hdone : ∀ a ∈ Q.saveSrc, ∃ u w,
      SaveStmt.exec Q Q.consumer Q.renames (fun _ => 0) Q.zeros u a = some w := fun a ha => by
    obtain ⟨-, -, u, w, -, -, hstep, -⟩ := run_mem ha hsave
    exact ⟨u, w, hstep⟩
  have hsplit : ∀ v ∈ Q.vars, v.special = true → ∃ pre post,
      Q.vars.filter Var.special = pre ++ v :: post := fun v hv hs =>
    List.append_of_mem (List.mem_filter.2 ⟨hv, hs⟩)
  have hshared : ∀ v ∈ Q.vars, ∀ r, v.annotation = .shared r →
      Q.Stays Q.renames (.field v.path.last) ∧ Q.Stays Q.renames (.inEntry v.path.last) := by
    intro v hv r hann
    obtain ⟨pre, post, hsplit⟩ := hsplit v hv (by simp [Var.special, hann])
    obtain ⟨u, w, hstep⟩ := hdone (.shared v.path.last v.type r _)
      (mem_saveSrc_special Q hsplit (by simp only [saveLoop, hann]; exact List.mem_cons_self))
    simp only [SaveStmt.exec] at hstep
    split_ifs at hstep with hrefs
    exact hrefs
  have hcopy : ∀ v ∈ Q.vars, ∀ l, v.annotation = .copysize l →
      Q.Stays Q.renames (.field v.path.last) ∧ Q.Stays Q.renames (.inEntry "_content") := by
    intro v hv l hann
    obtain ⟨pre, post, hsplit⟩ := hsplit v hv (by simp [Var.special, hann])
    obtain ⟨u, w, hstep⟩ := hdone (.copy v.path.last v.type _)
      (mem_saveSrc_special Q hsplit (by simp only [saveLoop, hann]; exact List.mem_cons_self))
    simp only [SaveStmt.exec] at hstep
    split_ifs at hstep with hrefs
    exact ⟨hrefs.1, hrefs.2.1⟩
  constructor
  case entry_members => exact h.distinct
  case pipeline_members => exact hcompiles.2
  case settled => exact hsettled
  case buffer =>
    obtain ⟨u, w, hstep⟩ := hdone .buffer (by simp [saveSrc, getSaveStateSrc])
    simp only [SaveStmt.exec] at hstep
    split_ifs at hstep with hstays
    exact (stays_field hsettled (words_reserved "buffer" (by simp))).1 hstays
  case entry =>
    obtain ⟨u, w, hstep⟩ := hdone (.entry Q.entryName) (by simp [saveSrc, getSaveStateSrc])
    simp only [SaveStmt.exec] at hstep
    split_ifs at hstep with hstays
    exact (stays_field hsettled (words_reserved "entry" (by simp))).1 hstays
  case qid =>
    intro hr hqid
    obtain ⟨u, w, hstep⟩ := hdone .qid (by simp [saveSrc, getSaveStateSrc, hqid])
    simp only [SaveStmt.exec] at hstep
    split_ifs at hstep with hmember
    exact (qid_iff hsettled hqid).1 hmember hr
  case special =>
    intro hr v hv hs
    refine (stays_field hsettled (Q.words_var hv)).1 ?_ hr
    cases hann : v.annotation with
    | plain => simp [Var.special, hann] at hs
    | shared r => exact (hshared v hv r hann).1
    | copysize l => exact (hcopy v hv l hann).1
  case shared =>
    intro hr v hv r hann
    refine (stays_inEntry hsettled (Q.words_var hv) fun w hw hws => ?_).1
      (hshared v hv r hann).2 hr
    exact shared_ne hcompiles.1 hv hann hw hws
  case content =>
    intro hr v hv l hann
    exact (stays_inEntry hsettled words_content fun w hw hws =>
      content_ne hcompiles.1 hv hann hw hws).1 (hcopy v hv l hann).2 hr
  case lengths =>
    exact fun pre v post l hvars hann => readable_of_save hcompiles.2 hsave hvars hann
  case types =>
    intro hcross v hv hspecial
    by_contra hswaps
    have hann : v.annotation = .plain := by cases hv : v.annotation <;> simp_all [Var.special]
    obtain ⟨x, hx, hfrom, hto⟩ := CType.exists_not_swapped (Q.scalar v hv) hswaps
    obtain ⟨e, c, hfill, -, hsave, heval⟩ := h.arrives _ (fun _ => 0)
      ⟨fun _ => [], fun _ => 0⟩ (sized_update hv hx)
    rw [fill, if_pos hcompiles] at hfill
    rw [save, if_pos hcompiles] at hsave
    obtain ⟨b, b', hb, hb', hmember⟩ := carried hcompiles.1 hfill hsave hv hann
    have hvalue := (heval v hv).2
    rw [Consumer.Holds, hann, Consumer.Has] at hvalue
    dsimp only at hvalue hb
    rw [Function.update_self] at hvalue hb
    obtain rfl : b' = x := hmember.symm.trans hvalue
    have hboth := Q.not_both_nic
    cases hp : Q.producer <;> cases hc : Q.consumer <;> rw [hp, hc] at hb hb' hcross hboth
    · exact hcross rfl
    · cases hb
      exact hto hb'
    · refine hfrom ?_
      rw [show (v.type.convert true).apply v.type b' = some b from hb]
      exact hb'
    · exact hboth ⟨rfl, rfl⟩

/-- `@copysize(state.keylen)` -/
def keylen : Length where
  text := "state.keylen".toList
  paths := [.field "keylen"]
  paths_text p hp := by
    obtain rfl := List.mem_singleton.1 hp
    exact ⟨"state.".toList, [], by decide +kernel⟩
  eval f := leNat (f (.field "keylen"))
  local_eval f g h := by rw [h _ (List.mem_singleton.2 rfl)]

/-- The fields of a request. -/
def request : States
  | "request" => some fun
    | "keylen" => some ⟨.int, .plain⟩
    | "key" => some ⟨.pointer .uint8, .copysize keylen⟩
    | "item" => some ⟨.pointer .int, .shared "items"⟩
    | "weight" => some ⟨.float, .plain⟩
    | _ => none
  | _ => none

/-- Requests from a CPU to a NIC, with a key of variable length and a pointer into a
shared region. -/
def keyChannel : Channel where
  producer := .cpu
  consumer := .nic
  not_both_nic := Device.cpu_to_nic
  states := request
  pipelineState := "request"
  live := [.field "key", .field "keylen", .field "item"]
  live_nodup := by decide
  extras := []
  extras_not_live := by simp
  vars := [⟨.field "key", .pointer .uint8, .copysize keylen⟩, ⟨.field "keylen", .int, .plain⟩,
    ⟨.field "item", .pointer .int, .shared "items"⟩]
  vars_eq := rfl
  scalar := by simp [CType.IsScalar]
  special_pointer := by simp [Var.special]
  words := by simp [Path.Words, Path.fields, Path.field, isWord]
  specials := [.field "item", .field "key"]
  specials_perm := List.Perm.swap _ _ _
  entryName := "entry_queue0"

theorem keyChannel_sound : keyChannel.Sound where
  entry_members := by decide
  pipeline_members := by decide
  settled := by decide +kernel
  buffer _ := by decide +kernel
  entry _ := by decide +kernel
  qid _ := by decide +kernel
  special _ := by decide +kernel
  shared _ v hv r hann := by
    clear hann
    revert v
    decide +kernel
  content _ _ _ _ _ := by decide +kernel
  types _ := by simp [keyChannel, Var.special, CType.Swaps, CType.IsScalar]
  lengths := by
    intro pre v post l hvars hann
    cases pre with
    | nil => simp
    | cons w pre =>
        -- no other path is copied
        obtain ⟨-, htail⟩ := List.cons.inj hvars
        have hv : v ∈ keyChannel.vars.tail := by
          show v ∈ [(⟨.field "keylen", .int, .plain⟩ : Var),
            ⟨.field "item", .pointer .int, .shared "items"⟩]
          rw [htail]
          simp
        simp only [keyChannel, List.tail_cons, List.mem_cons, List.not_mem_nil, or_false] at hv
        rcases hv with rfl | rfl <;> cases hann

/-- A live `float` from a NIC to a CPU. -/
def floatChannel : Channel where
  producer := .nic
  consumer := .cpu
  not_both_nic := by decide
  states := request
  pipelineState := "request"
  live := [.field "weight"]
  live_nodup := by decide
  extras := []
  extras_not_live := by simp
  vars := [⟨.field "weight", .float, .plain⟩]
  vars_eq := rfl
  scalar := by simp [CType.IsScalar]
  special_pointer := by simp [Var.special]
  words := by simp [Path.Words, Path.fields, Path.field, isWord]
  specials := []
  specials_perm := noSpecials
  entryName := "entry_queue0"

end Channel
end Smart
end Floem
