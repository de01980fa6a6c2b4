import Floem.Fire.Classify

/-!
# The classification of elements

`analyze_output_type` over both variants of an element.

* `Sound` — the classification says what the generated code does.
* `body_calls_nothing`, `analysis_own` — the body and the split are always as they should be.
* `classified_iff` — all is, just where the output blocks are right.
-/

namespace Floem
namespace Fire

open Lib DefUse
open Codegen (IsName)

/-! ## The statement -/

/-- The text of the other variant that is analysed. -/
def prepareCavium (code : List Char) : List Char := if code = [] then [] else prepare code

/-- **The classification of an element is sound**: the code that is printed for a device calls
the ports as often as `output_fire` says, the body calls none of them, and what becomes of a
variant depends on its own text. -/
structure Sound (outports : List (List Char)) (code : List Char) (codeCavium : Option (List Char))
    (e : Element) : Prop where
  printed : ∀ order device, e.getOutputCode order device =
    (statement e.outputFire e.outports order (outputOf e device)).map Statement.print
  fires : ∀ device, Fires e.outputFire e.outports (outputOf e device)
  body : e.outputFire ≠ .multi → ∀ device, ∀ port ∈ e.outports, port ∉ callsIn (e.getCode device)
  own : ∀ name inports cavium e', Element.make name inports outports code cavium = some e' →
    e'.code = e.code ∧ e'.outputCode = e.outputCode ∧ e'.outputFire = e.outputFire
  ownCavium : ∀ name inports code' e',
    Element.make name inports outports code' codeCavium = some e' →
      e'.codeCavium = e.codeCavium ∧ e'.outputCodeCavium = e.outputCodeCavium

/-! ## One variant -/

section Split

variable {outports : List (List Char)} {selfCode code programCode : List Char}
  {outputCode : OutputCode} {fire : OutputFire}

theorem analyzeSwitch_nonempty {outCode : List Char}
    (h : analyzeSwitch outports outCode = some (outputCode, fire)) :
    fire ≠ .multi ∧ Element.nonempty outputCode = true := by
  obtain ⟨_, -, h⟩ := Option.bind_eq_some_iff.1 h
  obtain ⟨last, hlast, h⟩ := Option.bind_eq_some_iff.1 h
  obtain ⟨⟨count, casesExprs⟩, hloop, h⟩ := Option.bind_eq_some_iff.1 h
  obtain ⟨_, -, h⟩ := Option.bind_eq_some_iff.1 h
  have hexprs := casesLoop_eq hloop
  cases helse : elseCase last with
  | some expr =>
      rw [helse] at h
      obtain ⟨rfl, rfl⟩ := Prod.mk.inj (Option.some.inj h)
      simp [Element.nonempty]
  | none =>
      rw [helse] at hexprs h
      obtain ⟨rfl, rfl⟩ := Prod.mk.inj (Option.some.inj h)
      simp only [Option.isSome_none, Bool.false_eq_true, if_false] at hexprs
      refine ⟨by simp, ?_⟩
      cases hcases : (outCode.splitOn ';').dropLast with
      | nil =>
          rw [hcases] at hlast
          cases hlast
      | cons case cases =>
          rw [hexprs, hcases]
          rfl

/-- What the split may come to: it finds the block in the code, or there are no ports, or it
finds the word in the other code. -/
theorem split_cases
    (h : splitOutput outports selfCode code = some (programCode, outputCode, fire)) :
    (fire ≠ .multi ∧ programCode <+: code ∧
      (Element.nonempty outputCode = false → fire = .all ∧ outports = [])) ∨
    (fire = .multi ∧ ∃ found, search outputMultiple selfCode = some (programCode, found)) := by
  rw [splitOutput] at h
  cases hblock : search outputBlock code with
  | some found =>
      obtain ⟨before, group⟩ := found
      rw [hblock] at h
      obtain ⟨output, hall, hpair⟩ := Option.map_eq_some_iff.1 h
      obtain ⟨rfl, houtput⟩ := Prod.mk.inj hpair
      obtain ⟨rfl, rfl⟩ := Prod.mk.inj houtput
      obtain ⟨rest, hcode, -⟩ := search_sound hblock
      obtain ⟨rfl, -⟩ := analyzeAll_eq hall
      refine .inl ⟨by simp, ⟨rest, hcode.symm⟩, fun hempty => ⟨rfl, ?_⟩⟩
      simpa [Element.nonempty] using hempty
  | none =>
      rw [hblock] at h
      cases hswitch : search outputSwitch code with
      | some found =>
          obtain ⟨before, outCode⟩ := found
          rw [hswitch] at h
          obtain ⟨output, hcases, hpair⟩ := Option.map_eq_some_iff.1 h
          obtain ⟨rfl, rfl⟩ := Prod.mk.inj hpair
          obtain ⟨rest, hcode, -⟩ := search_sound hswitch
          obtain ⟨hfire, hnonempty⟩ := analyzeSwitch_nonempty hcases
          refine .inl ⟨hfire, ⟨rest, hcode.symm⟩, fun hempty => ?_⟩
          cases hempty.symm.trans hnonempty
      | none =>
          rw [hswitch] at h
          cases hmultiple : search outputMultiple selfCode with
          | some found =>
              obtain ⟨before, found⟩ := found
              rw [hmultiple] at h
              simp only at h
              split at h
              · obtain ⟨rfl, hpair⟩ := Prod.mk.inj (Option.some.inj h)
                obtain ⟨-, rfl⟩ := Prod.mk.inj hpair
                exact .inr ⟨rfl, found, rfl⟩
              · cases h
          | none =>
              rw [hmultiple] at h
              simp only at h
              split at h
              · rename_i hnone
                obtain ⟨rfl, hpair⟩ := Prod.mk.inj (Option.some.inj h)
                obtain ⟨-, rfl⟩ := Prod.mk.inj hpair
                exact .inl ⟨by simp, List.prefix_refl _, fun _ => ⟨rfl, hnone⟩⟩
              · cases h

/-- Without a block and a `switch`, the split is the code as a whole. -/
theorem split_plain {self : List Char} {x : List Char × OutputCode × OutputFire}
    (hblock : search outputBlock code = none) (hswitch : search outputSwitch code = none)
    (hx : splitOutput outports self code = some x) (hfire : x.2.2 ≠ .multi) :
    x = (code, .calls [], .all) := by
  rw [splitOutput, hblock, hswitch] at hx
  simp only at hx
  split at hx
  · split at hx
    · obtain rfl := Option.some.inj hx
      exact absurd rfl hfire
    · cases hx
  · split at hx
    · exact (Option.some.inj hx).symm
    · cases hx

/-- The other code matters only to ports that may be fired any number of times. -/
theorem split_own {selfCode' : List Char} {x y : List Char × OutputCode × OutputFire}
    (hx : splitOutput outports selfCode code = some x)
    (hy : splitOutput outports selfCode' code = some y) (hxfire : x.2.2 ≠ .multi)
    (hyfire : y.2.2 ≠ .multi) : x = y := by
  cases hblock : search outputBlock code with
  | some found =>
      rw [splitOutput, hblock] at hx hy
      exact Option.some.inj (hx.symm.trans hy)
  | none =>
      cases hswitch : search outputSwitch code with
      | some found =>
          rw [splitOutput, hblock, hswitch] at hx hy
          exact Option.some.inj (hx.symm.trans hy)
      | none =>
          rw [split_plain hblock hswitch hx hxfire, split_plain hblock hswitch hy hyfire]

end Split

/-- The analysis is the split, with a look at the body. -/
theorem split_of_analysis {outports : List (List Char)} {selfCode code : List Char}
    {x : List Char × OutputCode × OutputFire}
    (h : analyzeOutputTypeInternal outports selfCode code = some x) :
    splitOutput outports selfCode code = some x ∧
      (x.2.2 ≠ .multi → ∀ port ∈ outports, countOccurrence port x.1.length x.1 = 0) := by
  obtain ⟨y, hsplit, hrest⟩ := Option.bind_eq_some_iff.1 h
  obtain ⟨_, hguard, hpure⟩ := Option.bind_eq_some_iff.1 hrest
  obtain rfl := Option.some.inj hpure
  refine ⟨hsplit, ?_⟩
  by_contra hno
  simp only [guard, hno, if_false] at hguard
  cases hguard

/-- **The body calls no port.** -/
theorem body_calls_nothing {outports : List (List Char)} {selfCode code : List Char}
    {x : List Char × OutputCode × OutputFire}
    (h : analyzeOutputTypeInternal outports selfCode code = some x) (hfire : x.2.2 ≠ .multi)
    (hcode : ∀ c ∈ code.head?, identChar c = false) {port : List Char} (hport : port ∈ outports) :
    port ∉ callsIn x.1 := by
  intro hcalled
  obtain ⟨hsplit, hcount⟩ := split_of_analysis h
  obtain ⟨program, output, fire⟩ := x
  rcases split_cases hsplit with ⟨-, ⟨rest, rfl⟩, -⟩ | ⟨hmulti, -⟩
  · have hfirst : ∀ c ∈ program.head?, identChar c = false := by
      intro c hc
      refine hcode c ?_
      rw [List.head?_append, hc]
      rfl
    have hfound := search_of_called hfirst hcalled
    have hzero := hcount hfire port hport
    cases program with
    | nil => exact hfound rfl
    | cons c program =>
        obtain ⟨found, hsearch⟩ := Option.ne_none_iff_exists'.1 hfound
        rw [List.length_cons, countOccurrence, hsearch] at hzero
        exact absurd hzero (by simp)
  · exact hfire hmulti

/-! ## The word for any number of times -/

theorem literal_append {word text rest : List Char} (h : literal word text = some rest)
    (more : List Char) : literal word (text ++ more) = some (rest ++ more) := by
  rw [literal_eq_some] at h ⊢
  rw [h, List.append_assoc]

theorem dropSpaces_append {text : List Char} (h : dropSpaces text ≠ []) (more : List Char) :
    dropSpaces (text ++ more) = dropSpaces text ++ more := by
  rw [dropSpaces] at h
  rw [dropSpaces, dropSpaces, List.dropWhile_append, if_neg (by rwa [List.isEmpty_iff])]

/-- A word is not behind nothing. -/
theorem dropSpaces_ne_nil {word text rest : List Char} (hword : word ≠ [])
    (h : literal word (dropSpaces text) = some rest) : dropSpaces text ≠ [] := by
  rw [literal_eq_some] at h
  rw [h]
  exact List.append_ne_nil_of_left_ne_nil hword rest

theorem outputMultiple_append {text : List Char} (h : outputMultiple text ≠ none)
    (more : List Char) : outputMultiple (text ++ more) ≠ none := by
  obtain ⟨rest, hrest⟩ := Option.ne_none_iff_exists'.1 h
  obtain ⟨spaced, hword, hend⟩ := Option.bind_eq_some_iff.1 hrest
  obtain ⟨behind, houtput, hword⟩ := Option.bind_eq_some_iff.1 hword
  obtain ⟨_, hguard, hword⟩ := Option.bind_eq_some_iff.1 hword
  obtain ⟨after, hmultiple, hspaced⟩ := Option.bind_eq_some_iff.1 hword
  obtain rfl := Option.some.inj hspaced
  have hblank : behind.head? = some ' ' := by
    by_contra hno
    simp [guard, hno] at hguard
  have hblank' : (behind ++ more).head? = some ' ' := by
    obtain ⟨tail, rfl⟩ := List.head?_eq_some_iff.1 hblank
    rfl
  have hafter : dropSpaces after ≠ [] := dropSpaces_ne_nil (List.cons_ne_nil ';' []) hend
  have hbehind : dropSpaces behind ≠ [] := dropSpaces_ne_nil (by decide) hmultiple
  rw [outputMultiple, outputWord, literal_append houtput]
  simp only [Option.bind_eq_bind, Option.bind_some, hblank', guard_true]
  rw [dropSpaces_append hbehind, literal_append hmultiple]
  simp only [Option.bind_some, Option.pure_def, dropSpaces_append hafter, literal_append hend]
  exact Option.some_ne_none _

/-- In front of the word there is no other. -/
theorem no_word_before {text before found : List Char}
    (h : search outputMultiple text = some (before, found)) :
    search outputMultiple before = none :=
  search_before rfl (fun _ more hmatch => outputMultiple_append hmatch more) h

/-! ## Both variants -/

section Make

variable {name : List Char} {inports outports : List (List Char)} {code : List Char}
  {codeCavium : Option (List Char)} {e : Element}

/-- The analysis of the code, and that of the other variant, which is the same kind. -/
structure Analysed (outports : List (List Char)) (code : List Char)
    (codeCavium : Option (List Char)) (e : Element) : Prop where
  ports : e.outports = outports
  cpu : analyzeOutputTypeInternal outports (prepare code) (prepare code) =
    some (e.code, e.outputCode, e.outputFire)
  cavium : (codeCavium = none ∧ e.codeCavium = none ∧ e.outputCodeCavium = none) ∨
    ∃ text program output, codeCavium = some text ∧ e.codeCavium = some program ∧
      e.outputCodeCavium = some output ∧
      analyzeOutputTypeInternal outports e.code (prepareCavium text) =
        some (program, output, e.outputFire)

theorem analysed_of_make (h : Element.make name inports outports code codeCavium = some e) :
    (inports ++ outports).Nodup ∧ Analysed outports code codeCavium e := by
  obtain ⟨_, hguard, h₁⟩ := Option.bind_eq_some_iff.1 h
  obtain ⟨⟨program, output, fire⟩, hcpu, h₂⟩ := Option.bind_eq_some_iff.1 h₁
  obtain ⟨cavium, hcavium, h₃⟩ := Option.bind_eq_some_iff.1 h₂
  obtain ⟨_, hsame, h₄⟩ := Option.bind_eq_some_iff.1 h₃
  obtain rfl := Option.some.inj h₄
  have hnodup : (inports ++ outports).Nodup := by
    by_contra hno
    simp [guard, hno] at hguard
  refine ⟨hnodup, rfl, hcpu, ?_⟩
  cases codeCavium with
  | none =>
      obtain rfl := Option.some.inj hcavium
      exact .inl ⟨rfl, rfl, rfl⟩
  | some text =>
      obtain ⟨⟨program', output', fire'⟩, htext, hpure⟩ := Option.map_eq_some_iff.1 hcavium
      subst hpure
      have hfire : fire' = fire := by
        by_contra hno
        simp [guard, hno] at hsame
      subst hfire
      exact .inr ⟨text, program', output', rfl, rfl, rfl, htext⟩

/-- The other variant is never of the kind that may fire its port any number of times. -/
theorem Analysed.cavium_fire (h : Analysed outports code codeCavium e) {text program : List Char}
    {output : OutputCode} {fire : OutputFire}
    (htext : analyzeOutputTypeInternal outports e.code (prepareCavium text) =
      some (program, output, fire)) (hfire : fire = e.outputFire) : fire ≠ .multi := by
  intro hmulti
  obtain ⟨hsplit, -⟩ := split_of_analysis h.cpu
  obtain ⟨htext, -⟩ := split_of_analysis htext
  rcases split_cases hsplit with ⟨hne, -⟩ | ⟨-, found, hfound⟩
  · exact hne (hfire ▸ hmulti)
  · rcases split_cases htext with ⟨hne, -⟩ | ⟨-, found', hfound'⟩
    · exact hne hmulti
    · -- the word is gone from the code in which it is searched again
      cases (no_word_before hfound).symm.trans hfound'

theorem prepare_first (text : List Char) : ∀ c ∈ (prepare text).head?, identChar c = false := by
  intro c hc
  obtain rfl := Option.some.inj hc
  decide

theorem prepareCavium_first (text : List Char) :
    ∀ c ∈ (prepareCavium text).head?, identChar c = false := by
  intro c hc
  rw [prepareCavium] at hc
  split at hc
  · cases hc
  · exact prepare_first text c hc

/-- **What becomes of a variant depends on its own text.** -/
theorem Analysed.own {codeCavium' : Option (List Char)} {e' : Element}
    (h : Analysed outports code codeCavium e) (h' : Analysed outports code codeCavium' e') :
    e'.code = e.code ∧ e'.outputCode = e.outputCode ∧ e'.outputFire = e.outputFire := by
  have hsame := Option.some.inj (h'.cpu.symm.trans h.cpu)
  obtain ⟨hcode, hrest⟩ := Prod.mk.inj hsame
  obtain ⟨houtput, hfire⟩ := Prod.mk.inj hrest
  exact ⟨hcode, houtput, hfire⟩

theorem Analysed.ownCavium {code' : List Char} {e' : Element}
    (h : Analysed outports code codeCavium e) (h' : Analysed outports code' codeCavium e') :
    e'.codeCavium = e.codeCavium ∧ e'.outputCodeCavium = e.outputCodeCavium := by
  rcases h.cavium with ⟨hnone, hcode, houtput⟩ | ⟨text, program, output, htext, hcode, houtput, ha⟩
  · rcases h'.cavium with ⟨-, hcode', houtput'⟩ | ⟨text', _, _, htext', _⟩
    · rw [hcode, hcode', houtput, houtput']
      exact ⟨rfl, rfl⟩
    · cases hnone.symm.trans htext'
  · rcases h'.cavium with ⟨hnone, -⟩ | ⟨text', program', output', htext', hcode', houtput', ha'⟩
    · cases hnone.symm.trans htext
    · obtain rfl := Option.some.inj (htext.symm.trans htext')
      have hsame := split_own (split_of_analysis ha).1 (split_of_analysis ha').1
        (h.cavium_fire ha rfl) (h'.cavium_fire ha' rfl)
      obtain ⟨hprogram, hrest⟩ := Prod.mk.inj hsame
      obtain ⟨hout, -⟩ := Prod.mk.inj hrest
      rw [hcode, hcode', houtput, houtput', hprogram, hout]
      exact ⟨rfl, rfl⟩

/-- The body calls no port on either device. -/
theorem Analysed.body (h : Analysed outports code codeCavium e) (hfire : e.outputFire ≠ .multi)
    (device : Device) {port : List Char} (hport : port ∈ outports) :
    port ∉ callsIn (e.getCode device) := by
  have hcpu : port ∉ callsIn e.code :=
    body_calls_nothing h.cpu hfire (prepare_first code) hport
  cases device with
  | cpu => exact hcpu
  | cavium =>
      rcases h.cavium with ⟨-, hcode, -⟩ | ⟨text, program, output, -, hcode, -, ha⟩
      · rwa [Element.getCode, hcode]
      · rw [Element.getCode, hcode]
        exact body_calls_nothing ha hfire (prepareCavium_first text) hport

/-- The output codes for both devices are right just where both texts are. -/
theorem Analysed.both_fire (hnames : ∀ port ∈ outports, IsName port) (hnodup : outports.Nodup)
    (h : Analysed outports code codeCavium e) :
    (∀ device, Fires e.outputFire e.outports (outputOf e device)) ↔
      Right outports (prepare code) ∧
        ∀ text ∈ codeCavium, Right outports (prepareCavium text) := by
  have hcpu := fires_iff hnames hnodup h.cpu
  have hdevices : (∀ device, Fires e.outputFire e.outports (outputOf e device)) ↔
      Fires e.outputFire outports (outputOf e .cpu) ∧
        Fires e.outputFire outports (outputOf e .cavium) := by
    rw [h.ports]
    exact ⟨fun hall => ⟨hall .cpu, hall .cavium⟩, fun hboth device => by
      cases device
      · exact hboth.1
      · exact hboth.2⟩
  rw [hdevices, outputOf, hcpu]
  refine and_congr_right fun hright => ?_
  rcases h.cavium with ⟨rfl, -, houtput⟩ | ⟨text, program, output, rfl, -, houtput, ha⟩
  · rw [outputOf, houtput]
    simpa using hcpu.2 hright
  · have htext := fires_iff hnames hnodup ha
    have hmem : (∀ t ∈ some text, Right outports (prepareCavium t)) ↔
        Right outports (prepareCavium text) := by simp
    rw [hmem, ← htext, outputOf, houtput]
    cases hempty : Element.nonempty output with
    | true => rw [Option.filter_some_pos hempty, Option.getD_some]
    | false =>
        -- without ports there is nothing to call
        rcases split_cases (split_of_analysis ha).1 with ⟨-, -, hnone⟩ | ⟨hmulti, -⟩
        · obtain ⟨hfire, rfl⟩ := hnone hempty
          have hall : ∀ outputCode, Fires e.outputFire [] outputCode := by
            intro outputCode order s _ _ texts _ made _
            rw [hfire]
            exact fun port hport => absurd hport List.not_mem_nil
          exact iff_of_true (hall _) (hall _)
        · exact absurd hmulti (h.cavium_fire ha rfl)

/-- **The classification is sound if and only if the output blocks are right.** -/
theorem classified_iff (hnames : ∀ port ∈ outports, IsName port)
    (h : Element.make name inports outports code codeCavium = some e) :
    Sound outports code codeCavium e ↔
      Right outports (prepare code) ∧
        ∀ text ∈ codeCavium, Right outports (prepareCavium text) := by
  obtain ⟨hnodup, ha⟩ := analysed_of_make h
  rw [← ha.both_fire hnames (List.nodup_append.1 hnodup).2.1]
  constructor
  · exact fun hsound => hsound.fires
  · intro hfires
    refine ⟨getOutputCode_eq e, hfires, fun hfire device port hport => ?_,
      fun name' inports' cavium e' he' => ?_, fun name' inports' code' e' he' => ?_⟩
    · rw [ha.ports] at hport
      exact ha.body hfire device hport
    · exact ha.own (analysed_of_make he').2
    · exact ha.ownCavium (analysed_of_make he').2

end Make

/-! ## A case that calls no port -/

/-- The element with one port that drops what it does not send. -/
def dropping : List Char := "output switch \x7b case x: out(x); else: drop(x); \x7d".toList

/-- What becomes of it. -/
def droppingElement : Element where
  name := "e".toList
  outports := ["out".toList]
  code := "  ".toList
  codeCavium := none
  outputFire := .one
  outputCode := .cases [(" x".toList, "out(x)".toList), ("else".toList, "drop(x)".toList)]
  outputCodeCavium := none
  defs := ∅
  uses := ∅

theorem make_dropping : Element.make "e".toList [] ["out".toList] dropping none =
    some droppingElement := rfl

theorem classified_dropping :
    (∀ port ∈ ["out".toList], IsName port) ∧
      (Sound ["out".toList] dropping none droppingElement ↔
        Right ["out".toList] (prepare dropping) ∧
          ∀ text ∈ (none : Option (List Char)), Right ["out".toList] (prepareCavium text)) :=
  ⟨by simp [IsName, identChar], classified_iff (by simp [IsName, identChar]) make_dropping⟩

/-- `output_fire` is `one`, but the `else` case calls no port. -/
theorem drop_calls_no_port :
    ¬ ∀ name inports outports code codeCavium e, (∀ port ∈ outports, IsName port) →
      Element.make name inports outports code codeCavium = some e →
      Sound outports code codeCavium e := by
  intro h
  have hsound := h "e".toList [] ["out".toList] dropping none droppingElement
    (by simp [IsName, identChar]) make_dropping
  have hone := hsound.fires .cpu [] _ (.inl rfl) rfl [" x".toList, "drop(x)".toList]
    (.skipped _ (.last _)) _ (forall₂_most _)
  have hzero : (([" x".toList, "drop(x)".toList].map callsIn).flatten).countP
      (· ∈ ["out".toList]) = 0 := by decide
  cases hone.symm.trans hzero

end Fire
end Floem
