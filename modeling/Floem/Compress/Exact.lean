import Mathlib
import Floem.Compress.State

/-!
# Which states are compressed exactly

The compression matches the text of a field as a pattern at the beginning of the access
paths, and so it takes what only begins like a field for a use of it, and the brackets of
an array for a set of characters.

* `reMatch_name` — the name of a field matches the paths that begin with its letters.
* `compress_eq` — what the compression does.
* `getVar_word` — the declarations that `get_var` reads right.
* `exact_iff` — when exactly the fields that are used are kept.
* `compress_of_words` — the case of types that are words and pointers.
-/

namespace Floem
namespace Compress

open Lib DefUse Codegen

variable {ι : Type} {d : Declared ι} {uses : List (List Char)}

/-! ## Matching -/

theorem parse_word {w : List Char} (h : '[' ∉ w) :
    parse none w = some (w.map fun c => (· == c)) := by
  induction w with
  | nil => rfl
  | cons c w ih =>
      rw [List.mem_cons, not_or] at h
      rw [parse, if_neg (Ne.symm h.1), ih h.2]
      rfl

theorem begins_word (w u : List Char) : begins (w.map fun c => (· == c)) u = true ↔ w <+: u := by
  induction w generalizing u with
  | nil => simp [begins]
  | cons c w ih =>
      cases u with
      | nil => simp [begins]
      | cons b u =>
          rw [List.map_cons, begins, Bool.and_eq_true, ih, beq_iff_eq, List.cons_prefix_cons,
            eq_comm]

/-- **A name matches what begins with its letters.** -/
theorem reMatch_name {w : List Char} (h : IsName w) (u : List Char) :
    reMatch w u = some (decide (w <+: u)) := by
  rw [reMatch, parse_word (bracket_not_mem h), Option.map_some, Option.some.injEq,
    Bool.eq_iff_iff, begins_word, decide_eq_true_eq]

theorem anyMatches_names {names : List (List Char)} (h : ∀ w ∈ names, IsName w)
    (path : List Char) : anyMatches names path = some (names.any fun w => w <+: path) := by
  induction names with
  | nil => rfl
  | cons w names ih =>
      rw [anyMatches, reMatch_name (h w List.mem_cons_self), List.any_cons,
        ih fun v hv => h v (List.mem_cons_of_mem w hv)]
      by_cases hw : w <+: path
      · simp [hw]
      · simp [hw]

theorem matchesAny_name {w : List Char} (h : IsName w) (uses : List (List Char)) :
    matchesAny w uses = some (uses.any fun use => w <+: use) := by
  induction uses with
  | nil => rfl
  | cons use uses ih =>
      rw [matchesAny, reMatch_name h, ih, List.any_cons]
      by_cases hw : w <+: use
      · simp [hw]
      · simp [hw]

/-- The pattern is legal, and no path begins as it says. -/
theorem matchesAny_eq_false {pattern : List Char} :
    matchesAny pattern uses = some false ↔ ∀ use ∈ uses, reMatch pattern use = some false := by
  induction uses with
  | nil => simp [matchesAny]
  | cons use uses ih =>
      rw [matchesAny, List.forall_mem_cons, ← ih]
      cases reMatch pattern use with
      | none => simp
      | some b => cases b <;> simp

/-! ## The loops -/

/-- No array is matched, and every pattern is legal. -/
def ArraysQuiet (fields : List (Field ι)) (uses : List (List Char)) : Prop :=
  ∀ f ∈ fields, f.size.isSome → ∀ use ∈ uses, reMatch f.text use = some false

/-- The fields that the compression keeps: those that are no arrays and whose letters some
path begins with. -/
def hits (fields : List (Field ι)) (uses : List (List Char)) : List (Field ι) :=
  fields.filter fun f => f.size = none ∧ uses.any fun use => f.name <+: use

theorem hits_cons (f : Field ι) (fields : List (Field ι)) (uses : List (List Char)) :
    hits (f :: fields) uses = if f.size = none ∧ uses.any fun use => f.name <+: use then
      f :: hits fields uses else hits fields uses := by
  simp only [hits, List.filter_cons, decide_eq_true_eq]

/-- The content that is written for some of the fields. -/
theorem keptContent_eq {fields : List (Field ι)} (hsub : ∀ f ∈ fields, f ∈ d.fields) :
    keptContent (declare d).mapping uses (fields.map Field.text) =
      if ∀ f ∈ fields, f.size.isSome → matchesAny f.text uses = some false then
        some ((hits fields uses).map fun f => (f.type, f.name))
      else none := by
  induction fields with
  | nil => rfl
  | cons f fields ih =>
      rw [List.map_cons, keptContent, ih fun g hg => hsub g (List.mem_cons_of_mem f hg), hits_cons]
      simp only [List.forall_mem_cons]
      cases hsize : f.size with
      | none =>
          have hmapped : f.mapped = f.type := by rw [Field.mapped, hsize]; rfl
          have hlookup : (d.fields.map fun f => (f.name, f.mapped)).lookup f.name = some f.mapped :=
            lookup_map_of_mem d.nodup (hsub f List.mem_cons_self)
          rw [text_of_scalar hsize, matchesAny_name f.isName, declare, hlookup, hmapped]
          cases uses.any fun use => f.name <+: use <;>
            simp only [Option.isSome_none, Bool.false_eq_true, false_imp_iff, true_and, if_true,
              if_false, and_false, Option.bind_eq_bind, Option.bind_some]
          split_ifs <;> rfl
      | some size =>
          have hbracket : '[' ∈ f.text := bracket_mem_text (by rw [hsize]; rfl)
          rw [declare, lookup_of_bracket hbracket]
          simp only [Option.isSome_some, true_imp_iff, reduceCtorEq, false_and, if_false]
          cases hmatch : matchesAny f.text uses with
          | none => simp
          | some b => cases b <;> simp

/-- The initial values of the same fields. -/
theorem keptInits_eq {fields : List (Field ι)}
    (hquiet : ∀ f ∈ fields, f.size.isSome → matchesAny f.text uses = some false) :
    keptInits uses (fields.map Field.text) (fields.map Field.init) =
      some ((hits fields uses).map Field.init) := by
  induction fields with
  | nil => rfl
  | cons f fields ih =>
      rw [List.map_cons, List.map_cons, keptInits, hits_cons,
        ih fun g hg => hquiet g (List.mem_cons_of_mem f hg)]
      cases hsize : f.size with
      | none =>
          rw [text_of_scalar hsize, matchesAny_name f.isName]
          cases hany : uses.any fun use => f.name <+: use <;> simp
      | some size =>
          rw [hquiet f List.mem_cons_self (by rw [hsize]; rfl)]
          simp

theorem checkUses_eq_some : checkUses (declare d).mapping uses = some () ↔
    ∀ use ∈ uses, ∃ f ∈ d.fields, f.name <+: use := by
  have hkeys : (declare d).mapping.map Prod.fst = d.fields.map Field.name := by
    rw [declare, List.map_map]
    rfl
  have hnames : ∀ w ∈ d.fields.map Field.name, IsName w := fun w hw => by
    obtain ⟨f, -, rfl⟩ := List.mem_map.1 hw
    exact f.isName
  induction uses with
  | nil => simp [checkUses]
  | cons use uses ih =>
      rw [checkUses, List.forall_mem_cons, hkeys, anyMatches_names hnames]
      simp only [Option.bind_eq_bind, Option.bind_some, Option.bind_eq_some_iff,
        Option.guard_eq_some', exists_and_left, ih, List.any_eq_true, decide_eq_true_eq,
        List.mem_map, exists_exists_and_eq_and, exists_const]

theorem compressInits_eq
    (hquiet : ∀ f ∈ d.fields, f.size.isSome → matchesAny f.text uses = some false) :
    compressInits (declare d) uses = some (if d.inits ∧ d.fields ≠ [] then
      some ((hits d.fields uses).map Field.init) else none) := by
  have hinits := keptInits_eq hquiet
  unfold compressInits declare
  cases d.inits with
  | false => rfl
  | true =>
      cases hfields : d.fields with
      | nil => rfl
      | cons f fields =>
          rw [hfields] at hinits
          simp only [if_true, List.map_cons] at hinits ⊢
          rw [hinits]
          simp

/-- Some path begins with the letters of no field. -/
def Refused (d : Declared ι) (uses : List (List Char)) : Prop :=
  ∃ use ∈ uses, ∀ f ∈ d.fields, ¬ f.name <+: use

/-- **What the compression does.** -/
theorem compress_eq_some {state : State ι} : compress (declare d) uses = some state ↔
    ¬ Refused d uses ∧ ArraysQuiet d.fields uses ∧
      ∃ names, extractFields ((hits d.fields uses).map fun f => (f.type, f.name)) = some names ∧
        state = ⟨(hits d.fields uses).map fun f => (f.type, f.name), names,
          if d.inits ∧ d.fields ≠ [] then some ((hits d.fields uses).map Field.init) else none,
          []⟩ := by
  have hcheck : checkUses (declare d).mapping uses = some () ↔ ¬ Refused d uses := by
    rw [checkUses_eq_some, Refused]
    push Not
    rfl
  have hquiet : (∀ f ∈ d.fields, f.size.isSome → matchesAny f.text uses = some false) ↔
      ArraysQuiet d.fields uses := by
    simp only [matchesAny_eq_false]
    rfl
  have hcontent : keptContent (declare d).mapping uses (d.fields.map Field.text) =
      if ∀ f ∈ d.fields, f.size.isSome → matchesAny f.text uses = some false then
        some ((hits d.fields uses).map fun f => (f.type, f.name))
      else none := keptContent_eq fun f hf => hf
  constructor
  · intro h
    obtain ⟨_, hc, h⟩ := Option.bind_eq_some_iff.1 h
    obtain ⟨content, hk, h⟩ := Option.bind_eq_some_iff.1 h
    obtain ⟨inits, hi, h⟩ := Option.bind_eq_some_iff.1 h
    obtain ⟨names, hn, h⟩ := Option.bind_eq_some_iff.1 h
    replace hk := hcontent.symm.trans hk
    split_ifs at hk with hq
    cases hk
    rw [compressInits_eq hq] at hi
    cases hi
    cases h
    exact ⟨hcheck.1 hc, hquiet.1 hq, names, hn, rfl⟩
  · rintro ⟨hno, hq, names, hn, rfl⟩
    rw [← hquiet] at hq
    rw [if_pos hq] at hcontent
    refine Option.bind_eq_some_iff.2 ⟨(), hcheck.2 hno, Option.bind_eq_some_iff.2 ⟨_, hcontent,
      Option.bind_eq_some_iff.2 ⟨_, compressInits_eq hq, Option.bind_eq_some_iff.2 ⟨names, hn, rfl⟩⟩⟩⟩

/-! ## Declarations -/

theorem dropWhile_of_not {p : Char → Bool} {c : Char} (hc : p c = false) (s : List Char) :
    (c :: s).dropWhile p = c :: s := List.dropWhile_cons_of_neg (by rw [hc]; decide)

/-- What is behind the type of a declaration: stars, a blank and the name. -/
def behind (stars : ℕ) (name : List Char) : List Char := List.replicate stars '*' ++ ' ' :: name

theorem dropWhile_word {t : List Char} (h : ∀ c ∈ t, identChar c) (stars : ℕ)
    (name : List Char) : (t ++ behind stars name).dropWhile identChar = behind stars name := by
  rw [List.dropWhile_append_of_pos h]
  cases stars with
  | zero => exact dropWhile_of_not (by decide) _
  | succ n => exact dropWhile_of_not (by decide) _

theorem behind_head (stars : ℕ) (name : List Char) :
    ∃ c s, behind stars name = c :: s ∧ identChar c = false := by
  cases stars with
  | zero => exact ⟨' ', name, rfl, by decide⟩
  | succ n => exact ⟨'*', _, rfl, by decide⟩

/-- A type that begins like `struct` and goes on is a word of its own. -/
theorem no_struct {t : List Char} (h : ∀ c ∈ t, identChar c) (hne : t ≠ "struct".toList)
    (stars : ℕ) (name : List Char) :
    (Pattern.seq (.word "struct".toList) (.some1 fun c => decide (c = ' '))).runs
      (t ++ behind stars name) = [] := by
  rw [Pattern.runs, Pattern.runs]
  cases hlit : literal "struct".toList (t ++ behind stars name) with
  | none => rfl
  | some rest =>
      -- no blank is behind the word
      suffices hrest : (Pattern.some1 fun c => decide (c = ' ')).runs rest = [] by
        rw [Option.map_some, Option.toList_some, List.flatMap_singleton, hrest, List.map_nil]
      rcases List.append_eq_append_iff.1 (literal_eq_some.1 hlit) with
        ⟨u, hword, hbehind⟩ | ⟨u, hword, rfl⟩
      · obtain ⟨c, s, hs, hc⟩ := behind_head stars name
        cases u with
        | nil => exact absurd (hword.trans (List.append_nil t)).symm hne
        | cons x u =>
            rw [hs] at hbehind
            obtain ⟨rfl, -⟩ := List.cons.inj hbehind
            have hmem : c ∈ "struct".toList := hword ▸ List.mem_append_right t List.mem_cons_self
            have hall : ∀ c ∈ "struct".toList, identChar c = true := by simp [identChar]
            rw [hall c hmem] at hc
            cases hc
      · cases u with
        | nil => exact absurd (hword.trans (List.append_nil _)) hne
        | cons x u =>
            have hx : identChar x = true :=
              h x (hword ▸ List.mem_append_right _ List.mem_cons_self)
            have hblank : x ≠ ' ' := by
              rintro rfl
              cases hx
            rw [List.cons_append, Pattern.some1, Pattern.runs, Pattern.runs,
              if_neg (by simpa using hblank)]
            rfl

/-- **A type of one word, or a pointer to one,** is told apart from the name. -/
theorem getVar_word {t name : List Char} (ht : IsName t) (hne : t ≠ "struct".toList)
    (hname : IsName name) (stars : ℕ) : getVar (t ++ behind stars name) = some name := by
  have hstruct := no_struct ht.2 hne stars name
  obtain ⟨c, t, rfl⟩ := List.exists_cons_of_ne_nil ht.1
  obtain ⟨n, name, rfl⟩ := List.exists_cons_of_ne_nil hname.1
  obtain ⟨hc, ht⟩ := List.forall_mem_cons.1 ht.2
  obtain ⟨hn, hname⟩ := List.forall_mem_cons.1 hname.2
  have hblank : ∀ {x : Char}, identChar x = true → x ≠ ' ' ∧ x ≠ '\n' ∧ x ≠ '*' := by
    intro x hx
    refine ⟨?_, ?_, ?_⟩ <;> rintro rfl <;> cases hx
  -- the blanks and stars between the type and the name
  have hbetween : ∃ u v, (Pattern.star (.chars fun c => decide (c = ' '))).first
        (behind stars (n :: name)) = some (none, u) ∧
      (Pattern.star (.chars fun c => decide (c = '*'))).first u = some (none, v) ∧
      (Pattern.star (.chars fun c => decide (c = ' '))).first v = some (none, n :: name) := by
    simp only [Pattern.first_star_chars]
    cases stars with
    | zero =>
        refine ⟨n :: name, n :: name, ?_, ?_, ?_⟩
        · simp [behind, (hblank hn).1]
        · simp [(hblank hn).2.2]
        · simp [(hblank hn).1]
    | succ k =>
        refine ⟨behind (k + 1) (n :: name), ' ' :: n :: name, ?_, ?_, ?_⟩
        · simp [behind, List.replicate_succ]
        · rw [behind, List.dropWhile_append_of_pos (by simp)]
          simp
        · simp [(hblank hn).1]
  obtain ⟨u, v, hu, hv, hw⟩ := hbetween
  have hblanks := Pattern.first_star_chars (fun c => decide (c = ' ' ∨ c = '\n'))
    (c :: t ++ behind stars (n :: name))
  rw [List.cons_append, dropWhile_of_not (by simp [hblank hc])] at hblanks
  have hopt := Pattern.first_opt_of_none hstruct
  have hword := Pattern.first_some1 (s := t ++ behind stars (n :: name)) hc
  rw [dropWhile_word ht] at hword
  have hvar := Pattern.first_some1 (s := name) hn
  rw [List.dropWhile_eq_nil_iff.2 hname] at hvar
  have hbrackets := Pattern.first_star_of_none (s := [])
    (a := Pattern.seq (.chars fun c => decide (c = '['))
      (.seq (.star (.chars identChar)) (.chars fun c => decide (c = ']')))) rfl
  have hmark := Pattern.first_mark (Pattern.first_seq hvar hbrackets)
  have htype := Pattern.first_seq hopt (Pattern.first_seq hword (Pattern.first_seq hu hv))
  have hall := Pattern.first_seq hblanks (Pattern.first_seq htype (Pattern.first_seq hw hmark))
  rw [getVar, List.cons_append]
  rw [List.length_nil, Nat.sub_zero, List.take_length] at hall
  exact congrArg (Option.bind · Prod.fst) hall

/-- The names of fields with such types are read off their declarations. -/
theorem extractFields_of_words {fields : List (Field ι)}
    (h : ∀ f ∈ fields, ∃ t stars, IsName t ∧ t ≠ "struct".toList ∧
      f.type = t ++ List.replicate stars '*') :
    extractFields (fields.map fun f => (f.type, f.name)) = some (fields.map Field.name) := by
  induction fields with
  | nil => rfl
  | cons f fields ih =>
      obtain ⟨t, stars, ht, hne, htype⟩ := h f List.mem_cons_self
      have hvar : getVar (f.type ++ ' ' :: f.name) = some f.name := by
        rw [htype, List.append_assoc]
        exact getVar_word ht hne f.isName stars
      have hrest := ih fun g hg => h g (List.mem_cons_of_mem f hg)
      rw [extractFields] at hrest ⊢
      rw [List.map_cons, List.mapM_cons, hvar, hrest]
      rfl

/-! ## When it is right -/

/-- The fields are told apart by the paths, and none that is used is an array. -/
structure Plain (d : Declared ι) (uses : List (List Char)) : Prop where
  no_array : ∀ f ∈ d.fields, f.size.isSome → ¬ Used uses f
  quiet : ArraysQuiet d.fields uses
  no_prefix : ∀ f ∈ d.fields, f.size = none → ∀ use ∈ uses, f.name <+: use → Used uses f
  readable : extractFields ((kept d uses).map fun f => (f.type, f.name)) =
    some ((kept d uses).map Field.name)

theorem prefix_of_used {f : Field ι} (h : Used uses f) : ∃ use ∈ uses, f.name <+: use := by
  obtain ⟨use, huse, hname⟩ := h
  exact ⟨use, huse, hname ▸ List.takeWhile_prefix identChar⟩

theorem not_refused_of_known (h : Known d uses) : ¬ Refused d uses := by
  rintro ⟨use, huse, hno⟩
  obtain ⟨f, hf, hname⟩ := List.mem_map.1 (h use huse)
  exact hno f hf (hname ▸ List.takeWhile_prefix identChar)

theorem mem_hits {f : Field ι} : f ∈ hits d.fields uses ↔
    f ∈ d.fields ∧ f.size = none ∧ ∃ use ∈ uses, f.name <+: use := by
  rw [hits, List.mem_filter, decide_eq_true_eq, List.any_eq_true]
  simp only [decide_eq_true_eq]

theorem mem_kept {f : Field ι} : f ∈ kept d uses ↔ f ∈ d.fields ∧ Used uses f := by
  rw [kept, List.mem_filter, decide_eq_true_eq]

/-- A field is the only one of its name. -/
theorem eq_of_name {f g : Field ι} (hf : f ∈ d.fields) (hg : g ∈ d.fields)
    (h : f.name = g.name) : f = g :=
  List.inj_on_of_nodup_map d.nodup hf hg h

theorem hits_eq_kept (h : Plain d uses) : hits d.fields uses = kept d uses := by
  refine List.filter_congr fun f hf => ?_
  rw [decide_eq_decide, List.any_eq_true]
  simp only [decide_eq_true_eq]
  constructor
  · rintro ⟨hsize, use, huse, hprefix⟩
    exact h.no_prefix f hf hsize use huse hprefix
  · intro hused
    refine ⟨?_, prefix_of_used hused⟩
    by_contra hsize
    exact h.no_array f hf (Option.isSome_iff_ne_none.2 hsize) hused

theorem text_of_kept (h : Plain d uses) {f : Field ι} (hf : f ∈ kept d uses) :
    f.text = f.name := by
  obtain ⟨hmem, hused⟩ := mem_kept.1 hf
  refine text_of_scalar ?_
  by_contra hsize
  exact h.no_array f hmem (Option.isSome_iff_ne_none.2 hsize) hused

theorem compress_of_plain (hknown : Known d uses) (h : Plain d uses) :
    compress (declare d) uses = some (expected d uses) := by
  refine compress_eq_some.2 ⟨not_refused_of_known hknown, h.quiet, (kept d uses).map Field.name,
    ?_, ?_⟩
  · rw [hits_eq_kept h]
    exact h.readable
  · have hcontent : (kept d uses).map (fun f => (f.type, f.text)) =
        (kept d uses).map fun f => (f.type, f.name) :=
      List.map_congr_left fun f hf => by rw [text_of_kept h hf]
    have hfields : (kept d uses).map Field.text = (kept d uses).map Field.name :=
      List.map_congr_left fun f hf => text_of_kept h hf
    rw [expected, hits_eq_kept h, hcontent, hfields]

/-- **Where all types are words and pointers to words**, only the paths decide. -/
theorem compress_of_words (hknown : Known d uses)
    (hwords : ∀ f ∈ kept d uses, ∃ t stars, IsName t ∧ t ≠ "struct".toList ∧
      f.type = t ++ List.replicate stars '*')
    (hsize : ∀ f ∈ d.fields, f.size.isSome → ¬ Used uses f) (hquiet : ArraysQuiet d.fields uses)
    (hstart : ∀ f ∈ d.fields, f.size = none → ∀ use ∈ uses, f.name <+: use → Used uses f) :
    compress (declare d) uses = some (expected d uses) :=
  compress_of_plain hknown ⟨hsize, hquiet, hstart, extractFields_of_words hwords⟩

theorem plain_of_compress (hcompress : compress (declare d) uses = some (expected d uses)) :
    Plain d uses := by
  obtain ⟨-, hquiet, names, hnames, heq⟩ := compress_eq_some.1 hcompress
  obtain ⟨hcontent, hfields, -, -⟩ := State.mk.inj heq
  have htexts : (kept d uses).map Field.text = (hits d.fields uses).map Field.name := by
    have h := congrArg (List.map Prod.snd) hcontent
    rwa [List.map_map, List.map_map] at h
  -- an array would show in the content
  have hscalar : ∀ f ∈ kept d uses, f.size = none := fun f hf => by
    by_contra hsize
    have hmem := List.mem_map_of_mem (f := Field.text) hf
    rw [htexts] at hmem
    obtain ⟨g, -, hg⟩ := List.mem_map.1 hmem
    refine bracket_not_mem g.isName ?_
    rw [hg]
    exact bracket_mem_text (Option.isSome_iff_ne_none.2 hsize)
  have hkept : (kept d uses).map Field.name = (hits d.fields uses).map Field.name := by
    rw [← htexts]
    exact List.map_congr_left fun f hf => (text_of_scalar (hscalar f hf)).symm
  have hsame : (hits d.fields uses).map (fun f => (f.type, f.name)) =
      (kept d uses).map fun f => (f.type, f.name) := by
    rw [← hcontent]
    exact List.map_congr_left fun f hf => by rw [text_of_scalar (hscalar f hf)]
  refine ⟨fun f hf hsize hused => ?_, hquiet, fun f hf hsize use huse hprefix => ?_, ?_⟩
  · rw [hscalar f (mem_kept.2 ⟨hf, hused⟩)] at hsize
    cases hsize
  · have hmem : f.name ∈ (kept d uses).map Field.name := by
      rw [hkept]
      exact List.mem_map_of_mem (mem_hits.2 ⟨hf, hsize, use, huse, hprefix⟩)
    obtain ⟨g, hg, hname⟩ := List.mem_map.1 hmem
    obtain ⟨hgmem, hused⟩ := mem_kept.1 hg
    exact eq_of_name hgmem hf hname ▸ hused
  · rw [← hsame, hnames, ← hfields]
    exact congrArg some (List.map_congr_left fun f hf => text_of_scalar (hscalar f hf))

/-- **When the compression is exact**, for every class and all paths: where every path starts
with a field, the fields must be plain; otherwise something must be found that raises. -/
theorem exact_iff : Exact d uses ↔ (Known d uses → Plain d uses) ∧
    (¬ Known d uses → Refused d uses ∨ ¬ ArraysQuiet d.fields uses ∨
      extractFields ((hits d.fields uses).map fun f => (f.type, f.name)) = none) := by
  constructor
  · rintro ⟨hnone, hsome⟩
    refine ⟨fun hknown => ?_, fun hunknown => ?_⟩
    · obtain ⟨state, hstate⟩ := Option.ne_none_iff_exists'.1 fun h => hnone.1 h hknown
      exact plain_of_compress (hsome state hstate ▸ hstate)
    · by_contra hok
      simp only [not_or, not_not] at hok
      obtain ⟨hno, hquiet, hread⟩ := hok
      obtain ⟨names, hnames⟩ := Option.ne_none_iff_exists'.1 hread
      have hstate := compress_eq_some.2 ⟨hno, hquiet, names, hnames, rfl⟩
      rw [hnone.2 hunknown] at hstate
      cases hstate
  · rintro ⟨hplain, hraise⟩
    by_cases hknown : Known d uses
    · have hcompress := compress_of_plain hknown (hplain hknown)
      refine ⟨⟨fun hnone => ?_, fun h => absurd hknown h⟩, fun state hstate => ?_⟩
      · rw [hcompress] at hnone
        cases hnone
      · exact Option.some.inj (hstate.symm.trans hcompress)
    · have hcompress : compress (declare d) uses = none := by
        by_contra hsome
        obtain ⟨state, hstate⟩ := Option.ne_none_iff_exists'.1 hsome
        obtain ⟨hno, hquiet, names, hnames, -⟩ := compress_eq_some.1 hstate
        rcases hraise hknown with h | h | h
        · exact hno h
        · exact h hquiet
        · rw [h] at hnames
          cases hnames
      refine ⟨⟨fun _ => hknown, fun _ => hcompress⟩, fun state hstate => ?_⟩
      rw [hcompress] at hstate
      cases hstate

/-- A state with one array. -/
def buffered : Declared Unit where
  fields := [⟨"buf".toList, by simp [IsName, identChar], "uint8_t".toList, some (.number 10), ()⟩]
  nodup := List.nodup_singleton _
  inits := false

/-- The array is used and is not kept. -/
theorem array_dropped : ¬ Exact buffered ["buf".toList] := by
  intro h
  have hempty : compress (declare buffered) ["buf".toList] = some ⟨[], [], none, []⟩ := rfl
  have hcontent := congrArg State.content (h.2 _ hempty)
  exact absurd hcontent (by decide)

end Compress
end Floem
