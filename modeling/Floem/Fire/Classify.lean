import Mathlib
import Floem.Fire.Output
import Floem.Lib.Run
import Floem.Codegen.Rename

/-!
# Fire types

`analyze_output_type` says how often an element fires its ports; the code that is generated
does what it says where no text calls a port that it is not there to call.

* `Right` — the condition on the text of the output block.
* `fires_all`, `fires_switch` — it is the condition, for either form of the block.
-/

namespace Floem
namespace Fire

open Lib DefUse
open Codegen (IsName)

/-! ## The condition -/

/-- The call of a port in an output block: from the first place where it is called up to the
next `;`. -/
def callOf (group port : List Char) : List Char :=
  ((search (callAt port) (' ' :: group)).map Prod.snd).getD []

/-- Nothing but the port itself is called where a port is called. -/
def AllRight (outports : List (List Char)) (group : List Char) : Prop :=
  ∀ port ∈ outports, ∀ name ∈ (callsIn (callOf group port)).tail, name ∉ outports

/-- The condition and the call of a case. -/
def partsOf (case : List Char) : Case :=
  ((caseAt case).map fun parts => (parts.1, parts.2.2)).getD ([], [])

/-- Whatever case is taken, no more than one port is called by the conditions up to it and its
call; and with `else`, one port is always called. -/
def SwitchRight (outports : List (List Char)) (outCode : List Char) : Prop :=
  let cases := (outCode.splitOn ';').dropLast
  match cases.getLast?.bind elseCase with
  | some (_, call) => cases.dropLast ≠ [] →
      ∀ texts, Branches (cases.dropLast.map partsOf) (some call) texts →
        most outports texts ≤ 1 ∧ 1 ≤ least outports texts
  | none => ∀ texts, Branches (cases.map partsOf) none texts → most outports texts ≤ 1

/-- **The condition on a code.** -/
def Right (outports : List (List Char)) (code : List Char) : Prop :=
  match search outputBlock code with
  | some (_, group) => AllRight outports group
  | none =>
    match search outputSwitch code with
    | some (_, outCode) => SwitchRight outports outCode
    | none => True

/-! ## A call at each port -/

theorem dropSpaces_eq {text rest : List Char} {c : Char} (h : dropSpaces text = c :: rest) :
    ∃ spaces, text = spaces ++ c :: rest ∧ ∀ d ∈ spaces, d = ' ' := by
  refine ⟨text.takeWhile (· = ' '), ?_, fun d hd => by simpa using List.mem_takeWhile_imp hd⟩
  rw [← h]
  exact (List.takeWhile_append_dropWhile).symm

/-- What a port is called with begins with the call of the port. -/
theorem callAt_shape {name code call : List Char} (h : callAt name code = some call) :
    ∃ spaces text, (∀ c ∈ spaces, c = ' ') ∧ call = name ++ spaces ++ '(' :: text := by
  obtain ⟨rest, -, h⟩ := Option.bind_eq_some_iff.1 h
  obtain ⟨_, hguard, h⟩ := Option.bind_eq_some_iff.1 h
  have hopen : (dropSpaces rest).head? = some '(' := by
    by_contra hno
    simp [guard, hno] at hguard
  obtain ⟨after, hafter⟩ := List.head?_eq_some_iff.1 hopen
  obtain ⟨spaces, rfl, hspaces⟩ := dropSpaces_eq hafter
  obtain rfl := Option.some.inj h
  refine ⟨spaces, after.takeWhile (· ≠ ';'), hspaces, ?_⟩
  have hpos : ∀ c ∈ spaces, decide (c ≠ ';') = true := by
    intro c hc
    rw [hspaces c hc]
    decide
  rw [List.takeWhile_append_of_pos hpos, List.takeWhile_cons_of_pos (by decide)]
  simp

theorem lookup_map {β : Type*} {f : List Char → β} {l : List (List Char)} {name : List Char}
    (h : name ∈ l) : (l.map fun a => (a, f a)).lookup name = some (f name) := by
  induction l with
  | nil => cases h
  | cons a l ih =>
      rw [List.map_cons, List.lookup_cons]
      by_cases hname : name = a
      · rw [hname, beq_self_eq_true]
      · rw [beq_eq_false_iff_ne.2 hname]
        exact ih ((List.mem_cons.1 h).resolve_left hname)

theorem analyzeAll_eq {outports : List (List Char)} {group : List Char} {outputCode : OutputCode}
    (h : analyzeAll outports group = some outputCode) :
    outputCode = .calls (outports.map fun port => (port, callOf group port)) ∧
      ∀ port ∈ outports, ∃ before,
        search (callAt port) (' ' :: group) = some (before, callOf group port) := by
  obtain ⟨-, -, h'⟩ := Option.bind_eq_some_iff.1 h
  obtain ⟨name2call, hcalls, h''⟩ := Option.bind_eq_some_iff.1 h'
  obtain rfl := Option.some.inj h''
  have hfound := forall₂_of_mapM hcalls
  clear hcalls h h' h''
  induction hfound with
  | nil => exact ⟨rfl, fun port hport => absurd hport List.not_mem_nil⟩
  | @cons port found outports name2call hport _ ih =>
      obtain ⟨heq, hmem⟩ := ih
      obtain ⟨⟨before, call⟩, hsearch, hfound⟩ := Option.bind_eq_some_iff.1 hport
      obtain rfl := Option.some.inj hfound
      have hcall : callOf group port = call := by
        rw [callOf, hsearch]
        rfl
      constructor
      · rw [List.map_cons, hcall, ← OutputCode.calls.inj heq]
      · intro q hq
        rcases List.mem_cons.1 hq with rfl | hq
        · exact ⟨before, by rw [hcall, hsearch]⟩
        · exact hmem q hq

/-- What the call of a port calls, and when. -/
theorem callsIn_callOf {outports : List (List Char)} (hnames : ∀ port ∈ outports, IsName port)
    {group port : List Char} (hport : port ∈ outports) {before : List Char}
    (h : search (callAt port) (' ' :: group) = some (before, callOf group port)) :
    callsIn (callOf group port) = port :: (callsIn (callOf group port)).tail ∧
      1 ≤ sure (callOf group port) := by
  obtain ⟨rest, -, hcall⟩ := search_sound h
  obtain ⟨spaces, text, hspaces, hshape⟩ := callAt_shape hcall
  obtain ⟨hne, hname⟩ := hnames port hport
  obtain ⟨hbegins, tail, htail⟩ := callsIn_call hne hname hspaces text
  rw [← hshape] at hbegins htail
  rw [htail, sure, hbegins, htail]
  refine ⟨rfl, ?_⟩
  split
  · exact Nat.le_refl 1
  · exact Nat.succ_pos _

section All

variable {outports : List (List Char)} {group : List Char}
  (hnames : ∀ port ∈ outports, IsName port) (hnodup : outports.Nodup)
  (hcalls : ∀ port ∈ outports, ∃ before,
    search (callAt port) (' ' :: group) = some (before, callOf group port))

/-- The statements, in any order. -/
theorem statement_all {order : List (List Char)} (horder : order = [] ∨ order.Perm outports) :
    statement .all outports order (.calls (outports.map fun port => (port, callOf group port))) =
      some (.calls ((if order = [] then outports else order).map (callOf group))) := by
  have hlength : order = [] ∨ order.length = outports.length :=
    horder.imp_right fun hperm => hperm.length_eq
  have hlookup : ∀ port ∈ (if order = [] then outports else order),
      (outports.map fun port => (port, callOf group port)).lookup port =
        some (callOf group port) := by
    intro port hport
    have hmem : port ∈ outports := by
      split at hport
      · exact hport
      · rename_i hne
        exact (horder.resolve_left hne).mem_iff.1 hport
    exact lookup_map hmem
  simp only [statement, hlength, guard_true, Option.bind_eq_bind]
  rw [mapM_eq_map hlookup]
  rfl

include hnames hcalls in
/-- Where nothing else is called, the ports are called one after the other. -/
theorem filter_made (hright : AllRight outports group) {order : List (List Char)}
    (horder : ∀ port ∈ order, port ∈ outports) {made : List (List (List Char))}
    (hmade : List.Forall₂ Makes (order.map (callOf group)) made) :
    made.flatten.filter (· ∈ outports) = order := by
  induction order generalizing made with
  | nil =>
      cases hmade
      rfl
  | cons port order ih =>
      cases hmade with
      | @cons _ m _ made hm hmade =>
          have hport := horder port List.mem_cons_self
          obtain ⟨before, hsearch⟩ := hcalls port hport
          obtain ⟨hcons, hsure⟩ := callsIn_callOf hnames hport hsearch
          have htail : (callsIn (callOf group port)).tail.filter (· ∈ outports) = [] :=
            List.filter_eq_nil_iff.2 fun name hname => by simpa using hright port hport name hname
          have hupper : (m.filter (· ∈ outports)).Sublist [port] := by
            have hsub := hm.le_most.filter (· ∈ outports)
            rwa [hcons, List.filter_cons_of_pos (by simpa using hport), htail] at hsub
          have hlower : [port].Sublist (m.filter (· ∈ outports)) := by
            have hsub := hm.least_le.filter (· ∈ outports)
            obtain ⟨n, hn⟩ := Nat.exists_eq_add_of_le' hsure
            rw [hcons, hn, List.take_succ_cons, List.filter_cons_of_pos (by simpa using hport)] at hsub
            exact (List.cons_sublist_cons.2 (List.nil_sublist _)).trans hsub
          have hrest := ih (fun q hq => horder q (List.mem_cons_of_mem port hq)) hmade
          rw [List.flatten_cons, List.filter_append, hrest, hupper.antisymm hlower]
          rfl

include hnames hnodup hcalls in
theorem fires_all :
    Fires .all outports (.calls (outports.map fun port => (port, callOf group port))) ↔
      AllRight outports group := by
  constructor
  · intro h port hport name hname hmem
    -- the run in which every call that is written is made
    have hone := h [] _ (.inl rfl) (statement_all (.inl rfl)) _ rfl _
      (forall₂_most (outports.map (callOf group))) name hmem
    rw [← List.flatMap_def, List.flatMap_map] at hone
    have hfirst : ∀ q ∈ outports, callsIn (callOf group q) =
        q :: (callsIn (callOf group q)).tail := by
      intro q hq
      obtain ⟨before, hsearch⟩ := hcalls q hq
      exact (callsIn_callOf hnames hq hsearch).1
    have hwritten : ∀ l : List (List Char), (∀ q ∈ l, q ∈ outports) → name ∈ l →
        0 < (l.flatMap fun q => callsIn (callOf group q)).count name := by
      intro l hl hmem'
      refine List.count_pos_iff.2 (List.mem_flatMap.2 ⟨name, hmem', ?_⟩)
      rw [hfirst name hmem]
      exact List.mem_cons_self
    have htail : 0 < (callsIn (callOf group port)).tail.count name := List.count_pos_iff.2 hname
    obtain ⟨l₁, l₂, rfl⟩ := List.append_of_mem hport
    rw [List.flatMap_append, List.flatMap_cons, List.count_append, List.count_append,
      hfirst port hport] at hone
    rcases List.mem_append.1 hmem with hmem | hmem
    · have hfront := hwritten l₁ (fun q hq => List.mem_append_left _ hq) hmem
      have hcons := List.count_le_count_cons (a := name) (b := port)
        (l := (callsIn (callOf group port)).tail)
      omega
    · rcases List.mem_cons.1 hmem with rfl | hmem
      · rw [List.count_cons_self] at hone
        omega
      · have hback := hwritten l₂ (fun q hq => by simp [hq]) hmem
        have hcons := List.count_le_count_cons (a := name) (b := port)
          (l := (callsIn (callOf group port)).tail)
        omega
  · intro hright order s horder hs texts hruns made hmade port hport
    rw [statement_all horder] at hs
    obtain rfl := Option.some.inj hs
    obtain rfl := hruns
    have hperm : (if order = [] then outports else order).Perm outports := by
      split
      · exact .refl _
      · rename_i hne
        exact horder.resolve_left hne
    have hfilter := filter_made hnames hcalls hright (fun q hq => hperm.mem_iff.1 hq) hmade
    have hcount : made.flatten.count port = (made.flatten.filter (· ∈ outports)).count port :=
      (List.count_filter (by simpa using hport)).symm
    rw [hcount, hfilter, hperm.count_eq]
    exact List.count_eq_one_of_mem hnodup hport

end All

/-! ## A call in each case -/

theorem casesLoop_eq {count count' : List (List Char)} {cases : List (List Char)}
    {casesExprs : List Case} (h : casesLoop count cases = some (count', casesExprs)) :
    casesExprs = cases.map partsOf := by
  induction cases generalizing count count' casesExprs with
  | nil =>
      obtain ⟨-, rfl⟩ := Prod.mk.inj (Option.some.inj h)
      rfl
  | cons case cases ih =>
      obtain ⟨⟨cond, port, call⟩, hcase, h⟩ := Option.bind_eq_some_iff.1 h
      obtain ⟨-, -, h⟩ := Option.bind_eq_some_iff.1 h
      obtain ⟨⟨count₁, exprs⟩, hrest, h⟩ := Option.bind_eq_some_iff.1 h
      obtain ⟨-, rfl⟩ := Prod.mk.inj (Option.some.inj h)
      rw [ih hrest, List.map_cons, partsOf, hcase]
      rfl

/-- What the executions of a nested `if` call. -/
theorem fires_choose (outports : List (List Char)) (fire : OutputFire) (other : Option (List Char))
    (cases : List Case) (casesExprs : List Case)
    (h : ∀ order, statement fire outports order (.cases casesExprs) = chooseFrom other cases) :
    Fires fire outports (.cases casesExprs) ↔ (cases ≠ [] → ∀ texts, Branches cases other texts →
      ∀ made, List.Forall₂ Makes texts made → CallsRight outports made.flatten fire) := by
  constructor
  · intro hfires hne texts htexts
    cases cases with
    | nil => exact absurd rfl hne
    | cons case cases => exact hfires [] _ (.inl rfl) (h []) texts htexts
  · intro hright order s _ hs texts htexts
    rw [h] at hs
    cases cases with
    | nil => cases hs
    | cons case cases =>
        obtain rfl := Option.some.inj hs
        exact hright (List.cons_ne_nil case cases) texts htexts

theorem fires_switch {outports : List (List Char)} {outCode : List Char} {outputCode : OutputCode}
    {fire : OutputFire} (h : analyzeSwitch outports outCode = some (outputCode, fire)) :
    Fires fire outports outputCode ↔ SwitchRight outports outCode := by
  obtain ⟨_, -, h⟩ := Option.bind_eq_some_iff.1 h
  obtain ⟨last, hlast, h⟩ := Option.bind_eq_some_iff.1 h
  obtain ⟨⟨count, casesExprs⟩, hloop, h⟩ := Option.bind_eq_some_iff.1 h
  obtain ⟨_, -, h⟩ := Option.bind_eq_some_iff.1 h
  have hexprs := casesLoop_eq hloop
  simp only [SwitchRight, hlast, Option.bind_some]
  cases helse : elseCase last with
  | some expr =>
      rw [helse] at hexprs h
      obtain ⟨rfl, rfl⟩ := Prod.mk.inj (Option.some.inj h)
      simp only [Option.isSome_some, if_true] at hexprs
      rw [fires_choose outports .one (some expr.2) casesExprs _ fun order => by
        simp only [statement, List.getLast?_concat, List.dropLast_concat]
        rfl]
      subst hexprs
      refine imp_congr (not_congr List.map_eq_nil_iff) (forall₂_congr fun texts _ => ?_)
      rw [← countP_le_iff, ← le_countP_iff, ← forall₂_and]
      exact forall₂_congr fun made _ => ⟨fun hone => ⟨hone.le, hone.ge⟩, fun hboth =>
        Nat.le_antisymm hboth.1 hboth.2⟩
  | none =>
      rw [helse] at hexprs h
      obtain ⟨rfl, rfl⟩ := Prod.mk.inj (Option.some.inj h)
      simp only [Option.isSome_none, Bool.false_eq_true, if_false] at hexprs
      rw [fires_choose outports .zeroOrOne none casesExprs _ fun order => rfl]
      subst hexprs
      have hne : (outCode.splitOn ';').dropLast ≠ [] := by
        intro hnil
        rw [hnil] at hlast
        cases hlast
      constructor
      · intro hfires texts htexts
        exact (countP_le_iff outports texts 1).1
          (hfires (fun hnil => hne (List.map_eq_nil_iff.1 hnil)) texts htexts)
      · intro hright _ texts htexts
        exact (countP_le_iff outports texts 1).2 (hright texts htexts)

/-! ## The elements -/

/-- The analysis of a code: `output_fire` is sound if and only if the output block is right. -/
theorem fires_iff {outports : List (List Char)} (hnames : ∀ port ∈ outports, IsName port)
    (hnodup : outports.Nodup) {selfCode code programCode : List Char} {outputCode : OutputCode}
    {fire : OutputFire}
    (h : analyzeOutputTypeInternal outports selfCode code = some (programCode, outputCode, fire)) :
    Fires fire outports outputCode ↔ Right outports code := by
  obtain ⟨⟨program, output, outputFire⟩, hsplit, h⟩ := Option.bind_eq_some_iff.1 h
  obtain ⟨_, -, h⟩ := Option.bind_eq_some_iff.1 h
  obtain ⟨rfl, hpair⟩ := Prod.mk.inj (Option.some.inj h)
  obtain ⟨rfl, rfl⟩ := Prod.mk.inj hpair
  rw [splitOutput] at hsplit
  rw [Right]
  cases hblock : search outputBlock code with
  | some found =>
      rw [hblock] at hsplit
      obtain ⟨outputCode, hall, hpair⟩ := Option.map_eq_some_iff.1 hsplit
      obtain ⟨-, hpair⟩ := Prod.mk.inj hpair
      obtain ⟨rfl, rfl⟩ := Prod.mk.inj hpair
      obtain ⟨rfl, hcalls⟩ := analyzeAll_eq hall
      exact fires_all hnames hnodup hcalls
  | none =>
      rw [hblock] at hsplit
      cases hswitch : search outputSwitch code with
      | some found =>
          rw [hswitch] at hsplit
          obtain ⟨output, hswitch, hpair⟩ := Option.map_eq_some_iff.1 hsplit
          obtain ⟨-, rfl⟩ := Prod.mk.inj hpair
          exact fires_switch hswitch
      | none =>
          rw [hswitch] at hsplit
          refine iff_of_true (fun order s _ _ texts _ made _ => ?_) trivial
          cases hmultiple : search outputMultiple selfCode with
          | some found =>
              rw [hmultiple] at hsplit
              simp only at hsplit
              split at hsplit
              · obtain ⟨-, hpair⟩ := Prod.mk.inj (Option.some.inj hsplit)
                obtain ⟨-, rfl⟩ := Prod.mk.inj hpair
                trivial
              · cases hsplit
          | none =>
              rw [hmultiple] at hsplit
              simp only at hsplit
              split at hsplit
              · rename_i hnone
                obtain ⟨-, hpair⟩ := Prod.mk.inj (Option.some.inj hsplit)
                obtain ⟨-, rfl⟩ := Prod.mk.inj hpair
                rintro port hport
                rw [hnone] at hport
                cases hport
              · cases hsplit

end Fire
end Floem
