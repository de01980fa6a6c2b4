import Floem.Cache.Life

/-!
# Dirty items are written back

* `Lives` — the invariant: the items of the table are live, and a dirty item is given to
  `Evict` before it is freed.
* `WrittenBack` — the claim about one state.
* `writtenBack_run` — **the main theorem**, under the condition that `Evict` gives out the key.
* `evicted_wrong_key` — a run in which it gives out a pointer for the key.
-/

namespace Floem
namespace Cache
namespace Flows

open Lib

variable {K V T σ : Type*} {N : ℕ}

/-- The invariant. -/
structure Lives (life : ℕ → Life K V) (s : State N T K V σ) : Prop where
  live : Live life s.table.Has s.log
  fresh : ∀ a, s.fresh ≤ a → life a = .unborn
  owed_out : ∀ a key value, life a = .out key value true → ∃ t, a ∈ s.owed t
  wise : ∀ t, Wise life (s.code t)

/-! ## The steps -/

section

variable {life life' : ℕ → Life K V} {code : List (Instr K V)}

/-- A flow knows only of the items in its hands. -/
theorem Wise.congr (h : Wise life code)
    (hagree : ∀ a ∈ code.flatMap Instr.hands, life' a = life a) : Wise life' code := by
  refine ⟨fun i hi => ?_, h.order, h.owed⟩
  have hhands : ∀ a ∈ i.hands, life' a = life a := fun a ha =>
    hagree a (List.mem_flatMap.2 ⟨i, hi, ha⟩)
  have hthrown : ∀ it : Item K V, it.evicted &&& 2 ≠ 0 → it.addr ∈ thrownOut it := fun it hout => by
    rw [thrownOut_of_ne hout]
    exact List.mem_cons_self
  have hi' := h.knows i hi
  have hfree : ∀ it : Item K V, life' it.addr = life it.addr →
      Freeable life (code.flatMap Instr.owes) it → Freeable life' (code.flatMap Instr.owes) it :=
    fun it heq hit => by rwa [Freeable, heq]
  cases i with
  | lock op => exact fun a ha => (hhands a ha).trans (hi' a ha)
  | body op => exact fun a ha => (hhands a ha).trans (hi' a ha)
  | ret op it =>
      cases it with
      | none => trivial
      | some it =>
          by_cases hout : it.evicted &&& 2 ≠ 0
          · rw [Instr.Knows, Thrown, hhands it.addr (hthrown it hout)]
            exact hi'
          · exact ⟨Or.inl hout, hi'.2⟩
  | evict it =>
      cases it with
      | none => trivial
      | some it =>
          intro hthree
          refine (hagree it.addr (h.owed it.addr (List.mem_flatMap.2 ⟨_, hi, ?_⟩))).trans (hi' hthree)
          rw [Instr.owes, if_pos hthree]
          exact List.mem_cons_self
  | free it =>
      cases it with
      | none => trivial
      | some it => exact fun hout => hfree it (hhands it.addr (hthrown it hout)) (hi' hout)
  | freeOrRelease it =>
      cases it with
      | none => trivial
      | some it => exact fun hout => hfree it (hhands it.addr (hthrown it hout)) (hi' hout)
  | dispose it => exact hfree it (hhands it.addr List.mem_cons_self) hi'
  | _ => trivial

/-- What `Evict` leaves when it gave an item out. -/
theorem Wise.evicted {it : Item K V} {rest : List (Instr K V)}
    (h : Wise life (.evict (some it) :: rest)) (hthree : it.evicted = 3) {n : Instr K V}
    (hn : n.owes = []) (hnk : ∀ life' : ℕ → Life K V, n.Knows life' []) (hnc : n.closing = false)
    (hnh : n.hands = []) :
    Wise (Function.update life it.addr (.saved it.key it.value)) (n :: rest) := by
  have hlife : life it.addr = .out it.key it.value true := h.knows _ List.mem_cons_self hthree
  obtain ⟨hclosed, horder⟩ := List.pairwise_cons.1 h.order
  have hrest : rest.flatMap Instr.owes = [] :=
    List.flatMap_eq_nil_iff.2 fun j hj => hclosed j hj rfl
  have howed : (n :: rest).flatMap Instr.owes = [] := by
    rw [List.flatMap_cons, hn, hrest]
    rfl
  have hother : ∀ a, life a ≠ .out it.key it.value true →
      Function.update life it.addr (.saved it.key it.value) a = life a := fun a ha =>
    Function.update_of_ne (fun heq => ha (by rw [heq]; exact hlife)) ..
  have hfree : ∀ jt : Item K V, Freeable life ((.evict (some it) :: rest).flatMap Instr.owes) jt →
      Freeable (Function.update life it.addr (.saved it.key it.value)) [] jt := by
    rintro jt (hout | hsaved | ⟨hout, hmem⟩)
    · refine Or.inl ((hother _ ?_).trans hout)
      rw [hout]
      exact fun heq => Bool.false_ne_true (Life.out.inj heq).2.2
    · exact Or.inr (Or.inl ((hother _ (by rw [hsaved]; exact fun heq => by cases heq)).trans hsaved))
    · rw [List.flatMap_cons, hrest, Instr.owes, if_pos hthree, List.append_nil,
        List.mem_singleton] at hmem
      rw [hmem, hlife] at hout
      obtain ⟨hkey, hvalue, -⟩ := Life.out.inj hout
      refine Or.inr (Or.inl ?_)
      rw [hmem, Function.update_self, hkey, hvalue]
  refine ⟨fun i hi => ?_, ?_, fun a ha => ?_⟩
  · rw [howed]
    rcases List.mem_cons.1 hi with rfl | hi
    · exact hnk _
    · have hi' := h.knows i (List.mem_cons_of_mem _ hi)
      have hbrings : ∀ a, life a = .unborn →
          Function.update life it.addr (.saved it.key it.value) a = .unborn := fun a ha =>
        (hother a (by rw [ha]; exact fun heq => by cases heq)).trans ha
      cases i with
      | lock op => exact fun a ha => hbrings a (hi' a ha)
      | body op => exact fun a ha => hbrings a (hi' a ha)
      | ret op jt =>
          cases jt with
          | none => trivial
          | some jt =>
              refine ⟨?_, hi'.2⟩
              rcases hi'.1 with hin | ⟨htwo, hout⟩ | ⟨hjthree, hout⟩
              · exact Or.inl hin
              · refine Or.inr (Or.inl ⟨htwo, (hother _ ?_).trans hout⟩)
                rw [hout]
                exact fun heq => Bool.false_ne_true (Life.out.inj heq).2.2
              · have howes := hclosed _ hi rfl
                rw [Instr.owes, if_pos hjthree] at howes
                cases howes
      | evict jt =>
          cases jt with
          | none => trivial
          | some jt =>
              intro hjthree
              have howes := hclosed _ hi rfl
              rw [Instr.owes, if_pos hjthree] at howes
              cases howes
      | free jt =>
          cases jt with
          | none => trivial
          | some jt => exact fun hout => hfree jt (hi' hout)
      | freeOrRelease jt =>
          cases jt with
          | none => trivial
          | some jt => exact fun hout => hfree jt (hi' hout)
      | dispose jt => exact hfree jt hi'
      | _ => trivial
  · refine List.pairwise_cons.2 ⟨fun j hj hnclosing => ?_, horder⟩
    rw [hnc] at hnclosing
    cases hnclosing
  · rw [howed] at ha
    cases ha

end

section

variable [DecidableEq T] {cfg : Config K V σ} {s s' : State N T K V σ} {t : T}
  {life life' : ℕ → Life K V} {i : Instr K V} {rest : List (Instr K V)}

/-- The invariant from its parts. -/
theorem Lives.next (h : Lives life s) {c : List (Instr K V)}
    (hcode : s'.code = Function.update s.code t c) (hlive : Live life' s'.table.Has s'.log)
    (hfresh : ∀ a, s'.fresh ≤ a → life' a = .unborn)
    (hagree : ∀ u, u ≠ t → ∀ a ∈ s.hands u, life' a = life a) (hwise : Wise life' c)
    (howed : ∀ a key value, life' a = .out key value true →
      a ∈ c.flatMap Instr.owes ∨ life a = .out key value true ∧ a ∉ s.owed t) : Lives life' s' where
  live := hlive
  fresh := hfresh
  owed_out a key value ha := by
    rcases howed a key value ha with hmem | ⟨hlife, hnot⟩
    · refine ⟨t, ?_⟩
      rw [State.owed, hcode, Function.update_self]
      exact hmem
    · obtain ⟨u, hu⟩ := h.owed_out a key value hlife
      have hut : u ≠ t := fun heq => hnot (heq ▸ hu)
      refine ⟨u, ?_⟩
      rw [State.owed, hcode, Function.update_of_ne hut]
      exact hu
  wise u := by
    rw [hcode]
    by_cases hu : u = t
    · rw [hu, Function.update_self]
      exact hwise
    · rw [Function.update_of_ne hu]
      exact (h.wise u).congr (hagree u hu)

/-- The items stay as they are. -/
theorem Lives.same (h : Lives life s) {c : List (Instr K V)}
    (hsame : s'.table = s.table ∧ s'.log = s.log ∧ s.fresh ≤ s'.fresh)
    (hcode : s'.code = Function.update s.code t c) (hwise : Wise life c)
    (howes : ∀ a ∈ s.owed t, a ∈ c.flatMap Instr.owes) : Lives life s' := by
  refine h.next hcode ?_ (fun a ha => h.fresh a (hsame.2.2.trans ha)) (fun _ _ _ _ => rfl) hwise ?_
  · rw [hsame.1, hsame.2.1]
    exact h.live
  · intro a key value ha
    by_cases hmem : a ∈ s.owed t
    · exact Or.inl (howes a hmem)
    · exact Or.inr ⟨ha, hmem⟩

/-- An instruction that owes nothing leaves others. -/
theorem Lives.plain (h : Lives life s) (hc : s.code t = i :: rest) (new : List (Instr K V))
    (hnew : Plain life i.hands new) (hclosing : i.closing = false → ∀ n ∈ new, n.closing = false)
    (howes : i.owes = []) (hsame : s'.table = s.table ∧ s'.log = s.log ∧ s.fresh ≤ s'.fresh)
    (hcode : s'.code = Function.update s.code t (new ++ rest)) : Lives life s' := by
  have hwise := h.wise t
  rw [hc] at hwise
  refine h.same hsame hcode (hwise.plain new hnew hclosing howes) fun a ha => ?_
  rw [State.owed, hc, List.flatMap_cons, howes] at ha
  rw [List.flatMap_append]
  exact List.mem_append_right _ ha

/-- The flow of a thread ends. -/
theorem Lives.stops (h : Lives life s) (hc : s.code t = i :: rest) (hclosing : i.closing = true)
    (howes : i.owes = []) (hsame : s'.table = s.table ∧ s'.log = s.log ∧ s.fresh ≤ s'.fresh)
    (hcode : s'.code = Function.update s.code t []) : Lives life s' := by
  have hwise := h.wise t
  rw [hc] at hwise
  have hrest := List.pairwise_cons.1 hwise.order
  refine h.same hsame hcode ⟨fun _ hn => absurd hn List.not_mem_nil, List.Pairwise.nil,
    fun _ ha => absurd ha List.not_mem_nil⟩ fun a ha => ?_
  rw [State.owed, hc, List.flatMap_cons, howes,
    List.flatMap_eq_nil_iff.2 fun j hj => hrest.1 j hj hclosing] at ha
  cases ha

theorem owes_returned {j : Job K V} {op : Op K V} {it : Item K V} (hback : cfg.writeBack = true)
    (hop : (∃ nit, op = .put nit) ∨ ∃ nit, op = .putOrGet nit) :
    ∀ a ∈ (Instr.ret op (some it)).owes,
      a ∈ (cfg.returned j op (some it)).code.flatMap Instr.owes := by
  intro a ha
  rw [Instr.owes] at ha
  split_ifs at ha with hthree
  · rcases hop with ⟨nit, rfl⟩ | ⟨nit, rfl⟩
    · have hout : it.evicted &&& 2 ≠ 0 := by rw [hthree]; decide
      simp only [Config.returned, if_pos hback, if_pos hout, Job.push, Config.afterSet,
        List.flatMap_append, List.flatMap_cons, Instr.owes, if_pos hthree]
      exact List.mem_append_left _ (List.mem_append_left _ ha)
    · have htwo : it.evicted ≠ 2 := by rw [hthree]; decide
      simp only [Config.returned, if_neg htwo, if_pos hthree, Job.push, Config.afterGet,
        if_pos hback, List.flatMap_append, List.flatMap_cons, Instr.owes]
      exact List.mem_append_left _ (List.mem_append_left _ (List.mem_append_left _ ha))
  · cases ha

/-- A new item is allocated for an insertion. -/
theorem Lives.alloc (h : Lives life s) (hc : s.code t = i :: rest) (hclosing : i.closing = true)
    (howes : i.owes = []) (op : Op K V) (hop : op.brings = [s.fresh]) (j : Job K V)
    (hj : j.code = .lock op :: rest) :
    Lives life ({ s with fresh := s.fresh + 1 }.goto t j) := by
  have hwise := h.wise t
  rw [hc] at hwise
  have hclosed := (List.pairwise_cons.1 hwise.order).1
  have hrest : rest.flatMap Instr.owes = [] :=
    List.flatMap_eq_nil_iff.2 fun n hn => hclosed n hn hclosing
  refine h.same (c := .lock op :: rest) ⟨rfl, rfl, Nat.le_succ _⟩ (by rw [goto_code, hj]; rfl)
    ⟨fun n hn => ?_, ?_, fun a ha => ?_⟩ fun a ha => ?_
  · rcases List.mem_cons.1 hn with rfl | hn
    · intro a ha
      rw [hop, List.mem_singleton] at ha
      exact h.fresh a (Nat.le_of_eq ha.symm)
    · refine (hwise.knows n (List.mem_cons_of_mem _ hn)).mono fun a ha => ?_
      rwa [List.flatMap_cons, howes] at ha
  · exact List.pairwise_cons.2 ⟨fun n hn _ => hclosed n hn hclosing, (List.pairwise_cons.1 hwise.order).2⟩
  · rw [List.flatMap_cons, hrest] at ha
    cases ha
  · rw [State.owed, hc, List.flatMap_cons, howes, hrest] at ha
    cases ha

/-- An operation is done. -/
theorem Lives.body [DecidableEq K] (h : Lives life s) (hI : Inv cfg True s)
    (hver : cfg.version.Plain) (hback : cfg.writeBack = true) {op : Op K V}
    (hc : s.code t = .body op :: rest) {o : Outcome (Table N K V) K V}
    (ho : cfg.call s.table op = some o) (j : Job K V) (hj : j.code = .ret op o.ret :: rest) :
    ∃ life', Lives life'
      ({ s with
          table := o.state
          lock := if o.unlock then Function.update s.lock (cfg.index op.key) none else s.lock
          log := events o op ++ s.log }.goto t j) := by
  have hop : (Instr.body op).Ok cfg := hI.ok t _ (by rw [hc]; exact List.mem_cons_self)
  have hwise := h.wise t
  have htidy := hI.tidy t
  rw [hc] at hwise htidy
  have hbrings : ∀ a ∈ op.brings, life a = .unborn := hwise.knows _ List.mem_cons_self
  have hhands : s.hands t = op.brings := (hI.early_held hc rfl).2
  obtain ⟨own, hown, -⟩ := hI.owns
  obtain ⟨life', htold⟩ : ∃ life', Told life life' s.table.Has o.state.Has op o.ret
      (events o op ++ s.log) := by
    cases op with
    | get key => exact told_get hver hI.table h.live ho
    | put nit =>
        exact told_put hver (cfg.back_alloc hback) hI.table hI.unique h.live hop
          (hbrings _ List.mem_cons_self) ho
    | putOrGet nit =>
        exact told_putOrGet hver hI.table hI.unique h.live hop (hbrings _ List.mem_cons_self) ho
    | delete key => exact told_delete hver hI.table hI.unique h.live ho
  have hclosed := (List.pairwise_cons.1 hwise.order).1
  have hrest : rest.flatMap Instr.owes = [] :=
    List.flatMap_eq_nil_iff.2 fun n hn => hclosed n hn rfl
  refine ⟨life', h.next (c := .ret op o.ret :: rest) (by rw [goto_code, hj]; rfl) htold.live ?_ ?_ ?_ ?_⟩
  · intro a ha
    refine (htold.other a (fun hat => ?_) fun hmem => ?_).trans (h.fresh a ha)
    · exact absurd (hown.lt_of_stored hat) (Nat.not_lt.2 ha)
    · exact absurd (hown.lt_of_hands (t := t) (by rw [hhands]; exact hmem)) (Nat.not_lt.2 ha)
  · intro u hu a ha
    refine htold.other a (fun hat => (hown.apart a).store_hands hat u ha) fun hmem => hu ?_
    exact (hown.apart a).one_thread u t ha (by rw [hhands]; exact hmem)
  · refine ⟨fun n hn => ?_, ?_, ?_⟩
    · rcases List.mem_cons.1 hn with rfl | hn
      · cases hret : o.ret with
        | none => trivial
        | some it => exact ⟨htold.thrown it hret, fun key hop => htold.got key it hop hret⟩
      · exact Instr.knows_of_idle ((List.pairwise_cons.1 htidy).1 n hn rfl) (hclosed n hn rfl) _ _
    · exact List.pairwise_cons.2 ⟨fun n hn _ => hclosed n hn rfl, (List.pairwise_cons.1 hwise.order).2⟩
    · intro a ha
      rw [List.flatMap_cons, hrest, List.append_nil] at ha
      rw [List.flatMap_cons]
      refine List.mem_append_left _ ?_
      cases hret : o.ret with
      | none => rw [hret] at ha; cases ha
      | some it =>
          rw [hret, Instr.owes] at ha
          split_ifs at ha with hthree
          · rw [Instr.hands, thrownOut_of_ne (by rw [hthree]; decide)]
            exact ha
          · cases ha
  · intro a key value ha
    rcases htold.owed a key value ha with hlife | hmem
    · refine Or.inr ⟨hlife, ?_⟩
      rw [State.owed, hc, List.flatMap_cons, hrest]
      exact List.not_mem_nil
    · refine Or.inl ?_
      rw [List.flatMap_cons]
      exact List.mem_append_left _ hmem

/-- `Evict` gives an item out. -/
theorem Lives.evict (h : Lives life s) (hI : Inv cfg True s) {it : Item K V}
    (hc : s.code t = .evict (some it) :: rest) (hthree : it.evicted = 3) {n : Instr K V}
    (hn : n.owes = []) (hnk : ∀ life' : ℕ → Life K V, n.Knows life' []) (hnc : n.closing = false)
    (hnh : n.hands = []) (htable : s'.table = s.table) (hfresh : s'.fresh = s.fresh)
    (hlog : s'.log = .evicted it.addr 3 it.key it.value :: s.log)
    (hcode : s'.code = Function.update s.code t (n :: rest)) : ∃ life', Lives life' s' := by
  have hwise := h.wise t
  rw [hc] at hwise
  have hlife : life it.addr = .out it.key it.value true := hwise.knows _ List.mem_cons_self hthree
  obtain ⟨own, hown, -⟩ := hI.owns
  have howed : it.addr ∈ s.owed t := by
    rw [State.owed, hc, List.flatMap_cons, Instr.owes, if_pos hthree]
    exact List.mem_append_left _ List.mem_cons_self
  have hhand : it.addr ∈ s.hands t := (h.wise t).owed _ howed
  refine ⟨_, h.next hcode ?_ ?_ ?_ (hwise.evicted hthree hn hnk hnc hnh) ?_⟩
  · rw [htable, hlog]
    refine ⟨tells_append h.live.tells [_] (fun e he => by rw [List.mem_singleton.1 he]; rfl) ?_,
      fun x hx => ?_, fun a key value bySet ha => ?_⟩
    · have htells := h.live.tells it.addr
      rw [hlife] at htells
      rw [tells_of_out htells]
      exact .saved _ _
    · rw [Function.update_of_ne fun heq => (hown.apart _).store_hands ⟨x, hx, heq⟩ t hhand]
      exact h.live.live x hx
    · by_cases hne : a = it.addr
      · rw [hne, Function.update_self] at ha
        cases ha
      · rw [Function.update_of_ne hne] at ha
        exact h.live.at_live a key value bySet ha
  · intro a ha
    rw [hfresh] at ha
    have hne : a ≠ it.addr := fun heq =>
      absurd (hown.lt_of_hands hhand) (Nat.not_lt.2 (heq ▸ ha))
    rw [Function.update_of_ne hne]
    exact h.fresh a ha
  · intro u hu a ha
    refine Function.update_of_ne (fun heq => hu ?_) ..
    exact (hown.apart a).one_thread u t ha (heq ▸ hhand)
  · intro a key value ha
    by_cases hne : a = it.addr
    · rw [hne, Function.update_self] at ha
      cases ha
    · rw [Function.update_of_ne hne] at ha
      refine Or.inr ⟨ha, fun hmem => hne ?_⟩
      rw [State.owed, hc, List.flatMap_cons, Instr.owes, if_pos hthree,
        List.flatMap_eq_nil_iff.2 fun j hj => (List.pairwise_cons.1 hwise.order).1 j hj rfl] at hmem
      exact List.mem_singleton.1 hmem

/-- An item is freed. -/
theorem Lives.dispose (h : Lives life s) (hI : Inv cfg True s) {it : Item K V}
    (hc : s.code t = .dispose it :: rest) (j : Job K V) (hj : j.code = rest) :
    ∃ life', Lives life' ({ s with log := .freed it.addr :: s.log }.goto t j) := by
  have hwise := h.wise t
  rw [hc] at hwise
  have hrest : rest.flatMap Instr.owes = [] :=
    List.flatMap_eq_nil_iff.2 fun n hn => (List.pairwise_cons.1 hwise.order).1 n hn rfl
  have hfreeable : Freeable life [] it := by
    have := hwise.knows _ List.mem_cons_self
    rwa [List.flatMap_cons, hrest] at this
  obtain ⟨own, hown, -⟩ := hI.owns
  have hhands : s.hands t = it.addr :: rest.flatMap Instr.hands := by
    rw [State.hands, hc, List.flatMap_cons]
    rfl
  have hhand : it.addr ∈ s.hands t := by rw [hhands]; exact List.mem_cons_self
  have hnot : it.addr ∉ rest.flatMap Instr.hands := by
    have honce := hown.hands_once t
    rw [hhands] at honce
    exact (List.nodup_cons.1 honce).1
  refine ⟨Function.update life it.addr .dead, h.next (c := rest) (by rw [goto_code, hj]; rfl) ?_ ?_ ?_ ?_ ?_⟩
  · refine ⟨tells_append h.live.tells [_] (fun e he => by rw [List.mem_singleton.1 he]; rfl) ?_,
      fun x hx => ?_, fun a key value bySet ha => ?_⟩
    · have htells := h.live.tells it.addr
      rcases hfreeable with hout | hsaved | ⟨-, hmem⟩
      · rw [hout] at htells
        rw [tells_of_out htells]
        exact .clean _ _
      · rw [hsaved] at htells
        rw [tells_of_saved htells]
        exact .written _ _
      · cases hmem
    · rw [Function.update_of_ne fun heq => (hown.apart _).store_hands ⟨x, hx, heq⟩ t hhand]
      exact h.live.live x hx
    · by_cases hne : a = it.addr
      · rw [hne, Function.update_self] at ha
        cases ha
      · rw [Function.update_of_ne hne] at ha
        exact h.live.at_live a key value bySet ha
  · intro a ha
    have hne : a ≠ it.addr := fun heq =>
      absurd (hown.lt_of_hands hhand) (Nat.not_lt.2 (heq ▸ ha))
    rw [Function.update_of_ne hne]
    exact h.fresh a ha
  · intro u hu a ha
    refine Function.update_of_ne (fun heq => hu ?_) ..
    exact (hown.apart a).one_thread u t ha (heq ▸ hhand)
  · have htail : Wise life rest := by
      refine ⟨fun n hn => ?_, (List.pairwise_cons.1 hwise.order).2, fun a ha => ?_⟩
      · exact hwise.knows n (List.mem_cons_of_mem _ hn)
      · rw [hrest] at ha
        cases ha
    refine htail.congr fun a ha => ?_
    have hne : a ≠ it.addr := fun heq => hnot (heq ▸ ha)
    exact Function.update_of_ne hne ..
  · intro a key value ha
    by_cases hne : a = it.addr
    · rw [hne, Function.update_self] at ha
      cases ha
    · rw [Function.update_of_ne hne] at ha
      refine Or.inr ⟨ha, ?_⟩
      rw [State.owed, hc, List.flatMap_cons, hrest]
      exact List.not_mem_nil

/-- `Evict` gives out the key of the item: the per-packet state is used, or keys are
pointers. -/
def GivesKey (cfg : Config K V σ) (s : State N T K V σ) : Act T K V → Prop
  | .start _ _ => True
  | .go t _ =>
      match s.code t with
      | .evict (some it) :: _ => it.evicted = 3 → cfg.state = true ∨ cfg.pointerKey = true
      | _ => True

omit [DecidableEq T] in
/-- With `write_alloc`, no item is lost where lock attempts succeed. -/
theorem kept_of_alloc (halloc : cfg.writeAlloc = true) : Kept cfg s (.go t true) := by
  unfold Kept
  simp only
  split
  · trivial
  · trivial
  · intro hno
    rw [halloc] at hno
    cases hno
  · trivial

/-- **An instruction keeps the invariant**, if lock attempts succeed. -/
theorem Lives.of_exec [DecidableEq K] (h : Lives life s) (hI : Inv cfg True s)
    (hver : cfg.version.Plain) (hback : cfg.writeBack = true) {j : Job K V}
    (hc : s.code t = i :: rest) (hj : j.code = rest) (hkey : GivesKey cfg s (.go t true))
    (hs : exec cfg s t j true i = some s') : ∃ life', Lives life' s' := by
  have hwise := h.wise t
  rw [hc] at hwise
  -- an element that leaves nothing
  have hnil : ∀ s' : State N T K V σ, s'.table = s.table ∧ s'.log = s.log ∧ s.fresh ≤ s'.fresh →
      s'.code = s.code → i.owes = [] → i.hands = [] → ∃ life', Lives life' (s'.goto t j) := by
    intro s' hsame hcode howes hhands
    refine ⟨life, h.plain hc [] ⟨?_, ?_, hhands.symm⟩ ?_ howes hsame ?_⟩
    · exact fun n hn => absurd hn List.not_mem_nil
    · exact fun n hn => absurd hn List.not_mem_nil
    · exact fun _ n hn => absurd hn List.not_mem_nil
    · rw [goto_code, hcode, hj]
      rfl
  have hsame : s.table = s.table ∧ s.log = s.log ∧ s.fresh ≤ s.fresh := ⟨rfl, rfl, Nat.le_refl _⟩
  -- an element that leaves these instructions
  have hplain : ∀ (new : List (Instr K V)) (s' : State N T K V σ) (j' : Job K V),
      Plain life i.hands new → (i.closing = false → ∀ n ∈ new, n.closing = false) → i.owes = [] →
      s'.table = s.table ∧ s'.log = s.log ∧ s.fresh ≤ s'.fresh → s'.code = s.code →
      j'.code = new ++ j.code → ∃ life', Lives life' (s'.goto t j') := by
    intro new s' j' hnew hclosing howes hsame hcode hj'
    refine ⟨life, h.plain hc new hnew hclosing howes hsame ?_⟩
    rw [goto_code, hcode, hj', hj]
  cases i with
  | lock op =>
      simp only [exec, if_true] at hs
      split_ifs at hs with hfree
      obtain rfl := Option.some.inj hs
      refine hplain [.body op] { s with lock := _ } _ ⟨?_, ?_, ?_⟩ (fun hcl => by cases hcl) rfl hsame
        rfl rfl
      · intro n hn
        rw [List.mem_singleton.1 hn]
        exact hwise.knows _ List.mem_cons_self
      · simp [Instr.owes]
      · exact List.append_nil _
  | body op =>
      obtain ⟨o, ho, -⟩ := hI.called hver hc fun _ => kept_of_alloc (cfg.back_alloc hback)
      simp only [exec, ho, Option.map_some] at hs
      obtain rfl := Option.some.inj hs
      exact h.body hI hver hback hc ho _ (by rw [← hj]; rfl)
  | ret op it =>
      obtain rfl := Option.some.inj hs
      have hok : (Instr.ret op it).Ok cfg := hI.ok t _ (by rw [hc]; exact List.mem_cons_self)
      have hrest : rest.flatMap Instr.owes = [] :=
        List.flatMap_eq_nil_iff.2 fun n hn => (List.pairwise_cons.1 hwise.order).1 n hn rfl
      refine ⟨life, h.same hsame (goto_code s t _) (wise_returned hback hwise hj hok) fun a ha => ?_⟩
      rw [State.owed, hc, List.flatMap_cons, hrest, List.append_nil] at ha
      cases it with
      | none => cases ha
      | some it =>
          cases op with
          | get key =>
              have hin := (hwise.knows _ List.mem_cons_self).2 key rfl
              rw [Instr.owes] at ha
              split_ifs at ha with hthree
              · rw [hthree] at hin
                exact absurd (by decide) hin
              · cases ha
          | put nit => exact owes_returned hback (Or.inl ⟨nit, rfl⟩) a ha
          | putOrGet nit => exact owes_returned hback (Or.inr ⟨nit, rfl⟩) a ha
          | delete key => exact hok.elim
  | query =>
      simp only [exec] at hs
      split at hs <;> obtain rfl := Option.some.inj hs
      · refine hplain [.cacheSetGet] { s with store := _ } _ ?_ (fun hcl => by cases hcl) rfl hsame
          rfl rfl
        constructor <;> simp [Instr.Knows, Instr.owes, Instr.hands]
      · exact ⟨life, h.stops hc rfl rfl hsame (goto_code _ t _)⟩
  | update =>
      simp only [exec] at hs
      split at hs <;> obtain rfl := Option.some.inj hs
      · exact hnil { s with store := _ } hsame rfl rfl rfl
      · exact hnil s hsame rfl rfl rfl
  | write key value =>
      obtain rfl := Option.some.inj hs
      exact hnil { s with store := _ } hsame rfl rfl rfl
  | out =>
      obtain rfl := Option.some.inj hs
      exact hnil { s with outs := _ } hsame rfl rfl rfl
  | cacheSet =>
      simp only [exec] at hs
      split at hs
      · split_ifs at hs <;> obtain rfl := Option.some.inj hs
        · exact ⟨life, h.alloc hc rfl rfl (.put (cfg.alloc s.fresh j.packet.key _)) rfl _
            (by rw [← hj]; rfl)⟩
        · exact ⟨life, h.stops hc rfl rfl hsame (goto_code _ t _)⟩
      · obtain rfl := Option.some.inj hs
        exact ⟨life, h.stops hc rfl rfl hsame (goto_code _ t _)⟩
  | cacheSetGet =>
      simp only [exec] at hs
      split at hs
      · split_ifs at hs <;> obtain rfl := Option.some.inj hs
        · exact ⟨life, h.alloc hc rfl rfl (.putOrGet (cfg.alloc s.fresh j.packet.key _)) rfl _
            (by rw [← hj]; rfl)⟩
        · exact hplain (cfg.afterGet none) s _ (plain_afterGet cfg life) (fun hcl => by cases hcl) rfl
            hsame rfl rfl
      · obtain rfl := Option.some.inj hs
        exact hplain (cfg.afterGet none) s _ (plain_afterGet cfg life) (fun hcl => by cases hcl) rfl
          hsame rfl rfl
  | evict it =>
      cases it with
      | none =>
          obtain rfl := Option.some.inj hs
          exact hnil s hsame rfl rfl rfl
      | some it =>
          simp only [exec] at hs
          split_ifs at hs with hthree hstate
          · obtain rfl := Option.some.inj hs
            refine h.evict hI hc hthree (n := .evictSave it) rfl (fun _ => trivial) rfl rfl rfl rfl ?_
              (by rw [goto_code, ← hj]; rfl)
            rw [hthree]
            rfl
          · obtain rfl := Option.some.inj hs
            have hgives : cfg.evictKey it = it.key := by
              simp only [GivesKey, hc] at hkey
              exact if_pos ((hkey hthree).resolve_left hstate)
            refine h.evict hI hc hthree (n := .write (cfg.evictKey it) it.value) rfl
              (fun _ => trivial) rfl rfl rfl rfl ?_ (by rw [goto_code, ← hj]; rfl)
            rw [hthree, hgives]
            rfl
          · obtain rfl := Option.some.inj hs
            exact hnil s hsame rfl (if_neg hthree) rfl
  | evictSave it =>
      obtain rfl := Option.some.inj hs
      refine hplain [.update, .evictRevert j.packet] s _ ?_ (fun _ n hn => ?_) rfl hsame rfl rfl
      · constructor <;> simp [Instr.Knows, Instr.owes, Instr.hands]
      · rcases List.mem_pair.1 hn with rfl | rfl <;> rfl
  | evictRevert saved =>
      obtain rfl := Option.some.inj hs
      refine hplain [] s _ ?_ (fun _ n hn => absurd hn List.not_mem_nil) rfl hsame rfl rfl
      constructor <;> simp [Instr.hands]
  | free it =>
      cases it with
      | none =>
          obtain rfl := Option.some.inj hs
          exact hnil s hsame rfl rfl rfl
      | some it =>
          obtain rfl := Option.some.inj hs
          have hrest : rest.flatMap Instr.owes = [] :=
            List.flatMap_eq_nil_iff.2 fun n hn => (List.pairwise_cons.1 hwise.order).1 n hn rfl
          have hknows := hwise.knows _ List.mem_cons_self
          rw [List.flatMap_cons, hrest] at hknows
          refine hplain _ s _ ?_ (fun hcl => by cases hcl) rfl hsame rfl rfl
          split_ifs with hout
          · rw [Instr.hands, thrownOut_of_ne hout]
            exact plain_release_dispose (hknows hout)
          · rw [Instr.hands, thrownOut_of_eq hout]
            constructor <;> simp
  | freeOrRelease it =>
      cases it with
      | none =>
          obtain rfl := Option.some.inj hs
          exact hnil s hsame rfl rfl rfl
      | some it =>
          obtain rfl := Option.some.inj hs
          have hrest : rest.flatMap Instr.owes = [] :=
            List.flatMap_eq_nil_iff.2 fun n hn => (List.pairwise_cons.1 hwise.order).1 n hn rfl
          have hknows := hwise.knows _ List.mem_cons_self
          rw [List.flatMap_cons, hrest] at hknows
          refine hplain _ s _ ?_ (fun hcl => by cases hcl) rfl hsame rfl rfl
          split_ifs with hout
          · rw [Instr.hands, thrownOut_of_ne hout]
            exact plain_release_dispose (hknows hout)
          · rw [Instr.hands, thrownOut_of_eq hout]
            exact plain_release life it
  | release it =>
      simp only [exec, Option.bind_eq_some_iff] at hs
      obtain ⟨idx, hidx, hs⟩ := hs
      split_ifs at hs
      obtain rfl := Option.some.inj hs
      exact hnil { s with lock := _ } hsame rfl rfl rfl
  | dispose it =>
      obtain rfl := Option.some.inj hs
      exact h.dispose hI hc j hj

/-- A flow starts. -/
theorem Lives.start (h : Lives life s) (flow : Flow K V) (hc : s.code t = []) :
    Lives life (s.goto t (cfg.start flow)) := by
  have howed : s.owed t = [] := by rw [State.owed, hc]; rfl
  refine h.same ⟨rfl, rfl, Nat.le_refl _⟩ (goto_code s t _) ?_ fun a ha => ?_
  · unfold Config.start
    cases flow with
    | get key => constructor <;> simp [Instr.Knows, Op.brings, Instr.owes]
    | set key value =>
        simp only
        split_ifs <;> constructor <;> simp [Instr.Knows, Op.brings, Instr.owes]
    | delete key => constructor <;> simp [Instr.Knows, Op.brings, Instr.owes]
  · rw [howed] at ha
    cases ha

/-- **The step lemma.** -/
theorem Lives.of_step [DecidableEq K] (h : Lives life s) (hI : Inv cfg True s)
    (hver : cfg.version.Plain) (hback : cfg.writeBack = true) (a : Act T K V)
    (hlock : ∀ t ok, a = .go t ok → ok = true) (hkey : GivesKey cfg s a)
    (hs : step cfg s a = some s') : ∃ life', Lives life' s' := by
  cases a with
  | start t flow =>
      simp only [step] at hs
      split_ifs at hs with hc
      obtain rfl := Option.some.inj hs
      exact ⟨life, h.start flow (List.isEmpty_iff.1 hc)⟩
  | go t ok =>
      obtain rfl := hlock t ok rfl
      simp only [step] at hs
      split at hs
      · cases hs
      · next j hj =>
          split at hs
          · cases hs
          · next i rest hcode =>
              exact h.of_exec hI hver hback ((code_of_jobs hj).trans hcode) rfl hkey hs

end

/-! ## The claim -/

/-- `Evict` gave out the item at this address. -/
def Event.isEvicted (a : ℕ) : Event K V → Bool
  | .evicted addr _ _ _ => addr = a
  | _ => false

/-- **Dirty items are written back**, and others are not. -/
structure WrittenBack (s : State N T K V σ) : Prop where
  /-- `Evict` gives out an item that a set stored as dirty, and with its key and value. -/
  own : ∀ a key value, .stored a key value true ∈ s.log →
    ∀ flags key' value', .evicted a flags key' value' ∈ s.log →
      flags = 3 ∧ key' = key ∧ value' = value
  once : ∀ a, s.log.countP (Event.isEvicted a) ≤ 1
  /-- It does so before the item is freed, if the item was not overwritten or deleted. -/
  before : ∀ a key value newer older, .stored a key value true ∈ s.log →
    s.log = newer ++ .freed a :: older →
      .overwritten a ∈ older ∨ .deleted a ∈ older ∨ .evicted a 3 key value ∈ older
  /-- Until then the item is in the table, or on its way to `Evict`. -/
  left : ∀ a key value, .stored a key value true ∈ s.log →
    At s.table.Has a ∨ .overwritten a ∈ s.log ∨ .deleted a ∈ s.log ∨
      .evicted a 3 key value ∈ s.log ∨ ∃ t, a ∈ s.owed t
  /-- An item of a get is not written out. -/
  clean : ∀ a key value, .stored a key value false ∈ s.log →
    ∀ flags key' value', .evicted a flags key' value' ∉ s.log

theorem mem_history {log : List (Event K V)} {e : Event K V} {a : ℕ} (he : e.addr = a) :
    e ∈ history log a ↔ e ∈ log := by
  rw [history, List.mem_filter]
  exact and_iff_left (decide_eq_true he)

theorem of_history {log : List (Event K V)} {e : Event K V} {a : ℕ} (he : e ∈ history log a) :
    e ∈ log :=
  List.mem_of_mem_filter he

theorem addr_of_isEvicted {a : ℕ} {e : Event K V} (he : e.isEvicted a = true) : e.addr = a := by
  cases e with
  | evicted addr flags key value => exact of_decide_eq_true he
  | _ => cases he

namespace Life.Tells

variable {a : ℕ} {x : Life K V} {l : List (Event K V)} {key key' : K} {value value' : V}

theorem evicted (h : x.Tells a l) {flags : UInt8} (he : .evicted a flags key' value' ∈ l) :
    flags = 3 ∧ .stored a key' value' true ∈ l := by
  cases h <;> simp_all

theorem not_evicted (h : x.Tells a l) (hs : .stored a key value false ∈ l) (flags : UInt8) :
    .evicted a flags key' value' ∉ l := by
  cases h <;> simp_all

theorem stored (h : x.Tells a l) {bySet bySet' : Bool} (hs : .stored a key value bySet ∈ l)
    (hs' : .stored a key' value' bySet' ∈ l) : key' = key ∧ value' = value := by
  cases h <;> simp_all

theorem once (h : x.Tells a l) : l.countP (Event.isEvicted a) ≤ 1 := by
  cases h <;> simp [Event.isEvicted]

/-- An item is freed last. -/
theorem freed_last (h : x.Tells a l) (hf : .freed a ∈ l) :
    ∃ older, l = .freed a :: older ∧ .freed a ∉ older := by
  cases h <;> simp_all

theorem dead_stored (h : x.Tells a (.freed a :: l)) (hs : .stored a key value true ∈ l) :
    .overwritten a ∈ l ∨ .deleted a ∈ l ∨ .evicted a 3 key value ∈ l := by
  cases h <;> simp_all

theorem before (h : x.Tells a l) (hs : .stored a key value true ∈ l)
    {newer older : List (Event K V)} (hl : l = newer ++ .freed a :: older) :
    .overwritten a ∈ older ∨ .deleted a ∈ older ∨ .evicted a 3 key value ∈ older := by
  obtain ⟨older', hl', hnot⟩ := h.freed_last (by simp [hl])
  have hnewer : newer = [] := by
    cases newer with
    | nil => rfl
    | cons e newer =>
        have htail := (List.cons.inj (hl'.symm.trans hl)).2
        exact absurd (by simp [htail]) hnot
  rw [hnewer, List.nil_append] at hl
  rw [hl] at h hs
  exact h.dead_stored ((List.mem_cons.1 hs).resolve_left nofun)

/-- What became of an item that a set stored. -/
theorem cases_stored (h : x.Tells a l) (hs : .stored a key value true ∈ l) :
    x = .live key value true ∨ x = .out key value true ∨ .overwritten a ∈ l ∨ .deleted a ∈ l ∨
      .evicted a 3 key value ∈ l := by
  cases h <;> simp_all

end Life.Tells

/-- **The invariant gives the claim.** -/
theorem Lives.writtenBack {life : ℕ → Life K V} {s : State N T K V σ} (h : Lives life s) :
    WrittenBack s where
  own a key value hs flags key' value' he := by
    rw [← mem_history (a := a) rfl] at hs he
    obtain ⟨hflags, hs'⟩ := (h.live.tells a).evicted he
    exact ⟨hflags, (h.live.tells a).stored hs hs'⟩
  once a := by
    have honce := (h.live.tells a).once
    rw [history, List.countP_filter] at honce
    refine le_of_eq_of_le (List.countP_congr fun e _ => ?_) honce
    rw [Bool.and_eq_true, decide_eq_true_iff]
    exact (and_iff_left_of_imp addr_of_isEvicted).symm
  before a key value newer older hs hlog := by
    rw [← mem_history (a := a) rfl] at hs
    have hhist : history s.log a = history newer a ++ .freed a :: history older a := by
      rw [hlog, history_append, history, history, history, List.filter_cons_of_pos (by simp [Event.addr])]
    exact ((h.live.tells a).before hs hhist).imp of_history (Or.imp of_history of_history)
  left a key value hs := by
    rw [← mem_history (a := a) rfl] at hs
    rcases (h.live.tells a).cases_stored hs with hlive | hout | hrest
    · exact Or.inl (h.live.at_live a key value true hlive)
    · exact Or.inr (Or.inr (Or.inr (Or.inr (h.owed_out a key value hout))))
    · exact Or.inr (hrest.imp of_history (Or.imp of_history fun he => Or.inl (of_history he)))
  clean a key value hs flags key' value' he := by
    rw [← mem_history (a := a) rfl] at hs he
    exact (h.live.tells a).not_evicted hs flags he

theorem lives_init (store : σ) :
    Lives (fun _ => .unborn) (State.init store : State N T K V σ) where
  live :=
    { tells := fun _ => .unborn
      live := fun it hit => absurd hit (Table.not_has_empty it)
      at_live := fun _ _ _ _ ha => by cases ha }
  fresh _ _ := rfl
  owed_out _ _ _ ha := by cases ha
  wise _ := ⟨fun _ hi => absurd hi List.not_mem_nil, List.Pairwise.nil,
    fun _ ha => absurd ha List.not_mem_nil⟩

/-- **Write-back loses no dirty item.**  In a run in which lock attempts succeed and `Evict`
gives out the key of every dirty item, dirty items are written back and others are not. -/
theorem writtenBack_run [DecidableEq T] [DecidableEq K] (cfg : Config K V σ)
    (hver : cfg.version = cpu ∨ cfg.version = cavium) (hback : cfg.writeBack = true) (store : σ)
    (as : List (Act T K V)) (hlock : ∀ t ok, .go t ok ∈ as → ok = true)
    (hkey : Meets (step cfg) (GivesKey cfg) (State.init store : State N T K V σ) as)
    (s : State N T K V σ) (hrun : run (step cfg) (State.init store) as = some s) :
    WrittenBack s := by
  have hplain : cfg.version.Plain := by
    rcases hver with hver | hver <;> rw [hver]
    · exact cpu_plain
    · exact cavium_plain
  have hmeets := hkey.and_mem (D := fun a => ∀ t ok, a = .go t ok → ok = true)
    fun a ha t ok heq => hlock t ok (heq ▸ ha)
  have hinv : Inv cfg True s ∧ ∃ life, Lives life s := by
    refine run_invariant_of_meets (P := fun s => Inv cfg True s ∧ ∃ life, Lives life s) ?_
      ⟨inv_init cfg True store, _, lives_init store⟩ hmeets hrun
    rintro s a t ⟨hI, life, hlives⟩ ⟨hkey, hlock⟩ hstep
    refine ⟨hI.of_step hplain a (fun _ => ?_) hstep,
      hlives.of_step hI hplain hback a hlock hkey hstep⟩
    cases a with
    | start t flow => trivial
    | go t ok =>
        obtain rfl := hlock t ok rfl
        exact kept_of_alloc (cfg.back_alloc hback)
  obtain ⟨life, hlives⟩ := hinv.2
  exact hlives.writtenBack

/-- A write-back cache of integers with one bucket, without per-packet state; the store counts
the queries. -/
def writeBackCache (pointerKey : Bool) : Config ℕ ℕ ℕ :=
  { defaultCache fun _ => 0 with
    writeBack := true
    writeAlloc := true
    back_alloc := fun _ => rfl
    pointerKey := pointerKey }

/-- Two sets; the second evicts the item of the first. -/
def evictRun : List (Act Unit ℕ ℕ) :=
  .start () (.set 3 0) :: List.replicate 8 (.go () true) ++
    .start () (.set 4 0) :: List.replicate 10 (.go () true)

theorem writtenBack_pointer : ∃ s : State 0 Unit ℕ ℕ ℕ,
    run (step (writeBackCache true)) (State.init 0) evictRun = some s ∧ WrittenBack s := by
  refine ⟨_, rfl, writtenBack_run (writeBackCache true) (Or.inl rfl) rfl 0 evictRun ?_ ?_ _ rfl⟩
  · intro t ok hmem
    simp [evictRun] at hmem
    exact hmem
  · refine Meets.of_forall (fun s a => ?_) _ _
    unfold GivesKey
    split
    · trivial
    · split
      · exact fun _ => Or.inr rfl
      · trivial

/-- **Without per-packet state, `Evict` gives out a pointer for an integer key.** -/
theorem evicted_wrong_key : ∃ s : State 0 Unit ℕ ℕ ℕ,
    run (step (writeBackCache false)) (State.init 0) evictRun = some s ∧
      .stored 0 3 0 true ∈ s.log ∧ .evicted 0 3 0 0 ∈ s.log ∧ ¬ WrittenBack s := by
  obtain ⟨s, hrun, hlog⟩ : ∃ s : State 0 Unit ℕ ℕ ℕ,
      run (step (writeBackCache false)) (State.init 0) evictRun = some s ∧
        s.log = [.freed 0, .evicted 0 3 0 0, .stored 1 4 0 true, .stored 0 3 0 true] :=
    ⟨_, rfl, rfl⟩
  have hstored : .stored 0 3 0 true ∈ s.log := by simp [hlog]
  have hevicted : .evicted 0 3 0 0 ∈ s.log := by simp [hlog]
  refine ⟨s, hrun, hstored, hevicted, fun h => ?_⟩
  exact absurd (h.own 0 3 0 hstored 3 0 0 hevicted).2.1 (by decide)

end Flows
end Cache
end Floem
