import Floem.Cache.Calls

/-!
# The discipline of locks and items

* `Inv.of_step` — a step of a thread keeps the invariant, and loses no item if it is `Kept`.
* `Disciplined`, `Placed` — the claims about one state.
* `disciplined_run` — **the main theorem**: locks are given back once and by their holders, no
  item is in two places, and in a run whose steps are kept every item is in one.
* `lost_item` — a run that loses an item.
-/

namespace Floem
namespace Cache
namespace Flows

open Lib

variable {K V T σ : Type*} {N : ℕ} (cfg : Config K V σ)

/-! ## The steps -/

section

variable [DecidableEq T] {cfg} {kept : Prop} {s s' : State N T K V σ} {t : T}
  {rest : List (Instr K V)}

/-- **An operation under its lock** does not fail. -/
theorem Inv.called [DecidableEq K] (h : Inv cfg kept s) (hver : cfg.version.Plain) {op : Op K V}
    (hc : s.code t = .body op :: rest) {ok : Bool} (hkept : kept → Kept cfg s (.go t ok)) :
    ∃ o, cfg.call s.table op = some o ∧
      Called cfg kept s.hands s.freed s.fresh t op o := by
  obtain ⟨own, hown, hlost⟩ := h.owns
  have hhands := (h.early_held hc rfl).2
  have hop : (Instr.body op).Ok cfg := h.ok t _ (by rw [hc]; exact List.mem_cons_self)
  cases op with
  | get key => exact called_get hver h.table h.unique hown hlost key hhands
  | put nit =>
      refine called_put hver h.table h.unique hown hlost hop hhands fun hk => ?_
      have := hkept hk
      simp only [Kept, hc] at this
      exact this
  | putOrGet nit => exact called_putOrGet hver h.table h.unique hown hlost hop hhands
  | delete key => exact called_delete hver h.table h.unique hown hlost key hhands

omit [DecidableEq T] in
/-- What `cache_put` does there. -/
theorem Inv.puts [DecidableEq K] (h : Inv cfg kept s) (hver : cfg.version.Plain) {nit : Item K V}
    (hc : s.code t = .body (.put nit) :: rest) {o : Outcome (Table N K V) K V}
    (ho : cfg.call s.table (.put nit) = some o) :
    Puts s.table.Has o.state.Has (s.table.FullAt cfg.hash cfg.nbuckets nit.key)
      (nit.stored (cfg.index nit.key) 1) cfg.writeAlloc o.ret o.unlock o.freed := by
  obtain ⟨own, hown, -⟩ := h.owns
  have hnit : (Instr.body (.put nit)).Ok cfg := h.ok t _ (by rw [hc]; exact List.mem_cons_self)
  have hhand : nit.addr ∈ s.hands t := by
    rw [(h.early_held hc rfl).2]
    exact List.mem_cons_self
  obtain ⟨o', ho', -, hputs⟩ := h.table.put_spec hver nit hnit
    (fun it hit haddr => (hown.apart _).store_hands ⟨it, hit, haddr⟩ t hhand) cfg.writeAlloc
  obtain rfl := Option.some.inj (ho.symm.trans ho')
  rwa [show bucketOf cfg.nbuckets nit.hv = cfg.index nit.key by rw [Config.index, ← hnit]] at hputs

omit [DecidableEq T] in
/-- What `cache_put_or_get` does there. -/
theorem Inv.putsOrGets [DecidableEq K] (h : Inv cfg kept s) (hver : cfg.version.Plain)
    {nit : Item K V} (hc : s.code t = .body (.putOrGet nit) :: rest)
    {o : Outcome (Table N K V) K V} (ho : cfg.call s.table (.putOrGet nit) = some o) :
    PutsOrGets s.table.Has o.state.Has (s.table.FullAt cfg.hash cfg.nbuckets nit.key)
      (nit.stored (cfg.index nit.key) 0) true o.ret o.unlock o.freed := by
  obtain ⟨own, hown, -⟩ := h.owns
  have hnit : (Instr.body (.putOrGet nit)).Ok cfg := h.ok t _ (by rw [hc]; exact List.mem_cons_self)
  have hhand : nit.addr ∈ s.hands t := by
    rw [(h.early_held hc rfl).2]
    exact List.mem_cons_self
  obtain ⟨o', ho', -, hputs⟩ := h.table.putOrGet_spec hver nit hnit
    (fun it hit haddr => (hown.apart _).store_hands ⟨it, hit, haddr⟩ t hhand) true
  obtain rfl := Option.some.inj (ho.symm.trans ho')
  rwa [show bucketOf cfg.nbuckets nit.hv = cfg.index nit.key by rw [Config.index, ← hnit]] at hputs

/-- An operation gets its lock. -/
theorem Inv.lock (h : Inv cfg kept s) {op : Op K V} (hc : s.code t = .lock op :: rest)
    (hfree : s.lock (cfg.index op.key) = none) (j : Job K V)
    (hj : j.code = .body op :: rest) :
    Inv cfg kept
      ({ s with lock := Function.update s.lock (cfg.index op.key) (some t) }.goto t j) := by
  have hop : (Instr.lock op).Ok cfg := h.ok t _ (by rw [hc]; exact List.mem_cons_self)
  obtain ⟨htidy, hok, hholds, hhands⟩ := h.early_tidy hc rfl (.body op) hop
  obtain ⟨hheld, hhand⟩ := h.early_held hc rfl
  refine h.next (by rw [goto_code, hj]; rfl) htidy hok h.table h.unique ?_ ?_
  · rw [hholds]
    have := h.locks.take hfree t
    rwa [hheld] at this
  · rw [hhands]
    change ∃ own, Owns own _ (Function.update s.hands t (Instr.lock op).hands) _ _ ∧ _
    rw [← hhand, Function.update_eq_self]
    exact h.owns

/-- An operation is done. -/
theorem Inv.body [DecidableEq K] (h : Inv cfg kept s) {op : Op K V} (hc : s.code t = .body op :: rest)
    {o : Outcome (Table N K V) K V} (ho : Called cfg kept s.hands s.freed s.fresh t op o)
    (j : Job K V) (hj : j.code = .ret op o.ret :: rest) :
    Inv cfg kept
      ({ s with
          table := o.state
          lock := if o.unlock then Function.update s.lock (cfg.index op.key) none else s.lock
          log := events o op ++ s.log }.goto t j) := by
  obtain ⟨htidy, hok, hholds, hhands⟩ := h.early_tidy hc rfl (.ret op o.ret) ho.ret
  refine h.next (by rw [goto_code, hj]; rfl) htidy hok ho.table ho.unique ?_ ?_
  · rw [hholds, ho.unlock]
    exact locks_body h.locks (h.early_held hc rfl).1 ho.bucket cfg.index op
  · rw [hhands]
    change ∃ own, Owns own _ _ (freedIn (events o op ++ s.log)) _ ∧ _
    rw [freedIn_append, freedIn_events ho.no_get]
    exact ho.owns

/-- A failed lock attempt of an insertion loses the item. -/
theorem Inv.loses (h : Inv cfg kept s) {op : Op K V} (hc : s.code t = .lock op :: rest) {a : ℕ}
    (hop : op.brings = [a]) (hkept : ¬ kept) {c : List (Instr K V)} (hsame : Same s s')
    (hcode : s'.code = Function.update s.code t c) (htidy : Tidy cfg.index c)
    (hok : ∀ i ∈ c, i.Ok cfg) (hholds : c.flatMap (Instr.holds cfg.index) = [])
    (hhands : c.flatMap Instr.hands = []) : Inv cfg kept s' := by
  obtain ⟨hheld, hhand⟩ := h.early_held hc rfl
  obtain ⟨own, hown, -⟩ := h.owns
  refine h.next hcode htidy hok ?_ ?_ ?_ ?_
  · rw [hsame.table]
    exact h.table
  · rw [hsame.table]
    exact h.unique
  · have hsame_held : ([] : List ℕ) = s.held cfg.index t := hheld.symm
    rw [hsame.lock, hholds, hsame_held, Function.update_eq_self]
    exact h.locks
  · rw [hsame.table, hsame.freed, hsame.fresh, hhands]
    exact ⟨_, hown.lose (hhand.trans hop), fun hk => absurd hk hkept⟩

/-- A new item is allocated for an insertion. -/
theorem Inv.alloc (h : Inv cfg kept s) {i : Instr K V} (hc : s.code t = i :: rest)
    (hearly : i.early = true) (hidle : i.Idle cfg.index) (op : Op K V) (hop : op.Ok cfg)
    (hbrings : op.brings = [s.fresh]) (j : Job K V) (hj : j.code = .lock op :: rest) :
    Inv cfg kept ({ s with fresh := s.fresh + 1 }.goto t j) := by
  obtain ⟨hheld, hhand⟩ := h.early_held hc hearly
  obtain ⟨htidy, hok, hholds, hhands⟩ := h.early_tidy hc hearly (.lock op) hop
  obtain ⟨own, hown, hlost⟩ := h.owns
  refine h.next (by rw [goto_code, hj]; rfl) htidy hok h.table h.unique ?_ ?_
  · have hsame_held : (Instr.lock op).holds cfg.index = s.held cfg.index t :=
      (hheld.trans hidle.1).symm
    rw [hholds, hsame_held, Function.update_eq_self]
    exact h.locks
  · have hnew := hown.alloc t
    rw [hhand, hidle.2] at hnew
    rw [hhands, Instr.hands, hbrings]
    exact ⟨_, hnew, fun hk => update_ne_lost (fun heq => by cases heq) (hlost hk)⟩

/-- A lock is released. -/
theorem Inv.release (h : Inv cfg kept s) {it : Item K V} (hc : s.code t = .release it :: rest)
    {idx : ℕ} (hidx : it.bucket = some idx) (j : Job K V) (hj : j.code = rest) :
    Inv cfg kept ({ s with lock := Function.update s.lock idx none }.goto t j) := by
  have htidy := h.tidy t
  have hok := h.ok t
  rw [hc] at htidy hok
  have hheld : s.held cfg.index t = idx :: rest.flatMap (Instr.holds cfg.index) := by
    rw [State.held, hc, List.flatMap_cons, Instr.holds, hidx]
    rfl
  have hhand : s.hands t = rest.flatMap Instr.hands := by
    rw [State.hands, hc, List.flatMap_cons]
    rfl
  refine h.next (by rw [goto_code, hj]; rfl) (List.pairwise_cons.1 htidy).2
    (fun i hi => hok i (List.mem_cons_of_mem _ hi)) h.table h.unique (h.locks.drop hheld) ?_
  rw [← hhand, Function.update_eq_self]
  exact h.owns

/-- An item is freed. -/
theorem Inv.dispose (h : Inv cfg kept s) {it : Item K V} (hc : s.code t = .dispose it :: rest)
    (j : Job K V) (hj : j.code = rest) :
    Inv cfg kept ({ s with log := .freed it.addr :: s.log }.goto t j) := by
  have htidy := h.tidy t
  have hok := h.ok t
  rw [hc] at htidy hok
  have hheld : s.held cfg.index t = rest.flatMap (Instr.holds cfg.index) := by
    rw [State.held, hc, List.flatMap_cons]
    rfl
  have hhand : s.hands t = it.addr :: rest.flatMap Instr.hands := by
    rw [State.hands, hc, List.flatMap_cons]
    rfl
  obtain ⟨own, hown, hlost⟩ := h.owns
  refine h.next (by rw [goto_code, hj]; rfl) (List.pairwise_cons.1 htidy).2
    (fun i hi => hok i (List.mem_cons_of_mem _ hi)) h.table h.unique ?_ ?_
  · rw [← hheld, Function.update_eq_self]
    exact h.locks
  · exact ⟨_, hown.freeHands hhand, fun hk => update_ne_lost (fun heq => by cases heq) (hlost hk)⟩

/-- **An instruction keeps the invariant.** -/
theorem Inv.of_exec [DecidableEq K] (h : Inv cfg kept s) (hver : cfg.version.Plain) {j : Job K V}
    {i : Instr K V} (hc : s.code t = i :: rest) (hj : j.code = rest) {ok : Bool}
    (hkept : kept → Kept cfg s (.go t ok)) (hs : exec cfg s t j ok i = some s') :
    Inv cfg kept s' := by
  have hsame : ∀ j', Same s (s.goto t j') := fun _ => ⟨rfl, rfl, rfl, rfl⟩
  -- an idle element that leaves nothing
  have hnil : ∀ s' : State N T K V σ, Same s s' → s'.code = s.code → i.Idle cfg.index →
      Inv cfg kept (s'.goto t j) := by
    intro s' hsame' hcode hidle
    refine h.leaves hc (leaves_nil cfg hidle.1 hidle.2) ⟨hsame'.1, hsame'.2, hsame'.3, hsame'.4⟩ ?_
    rw [goto_code, hcode, hj]
    rfl
  cases i with
  | lock op =>
      simp only [exec] at hs
      split_ifs at hs with hok hfree
      · obtain rfl := Option.some.inj hs
        exact h.lock hc hfree _ (by rw [← hj]; rfl)
      · obtain rfl := Option.some.inj hs
        cases op with
        | get key =>
            unfold Config.failed
            simp only
            split_ifs
            · exact h.stops hc rfl ⟨rfl, rfl⟩ (hsame _) (goto_code s t _)
            · exact h.leaves hc (leaves_one cfg .query rfl trivial rfl rfl) (hsame _)
                (by rw [goto_code, ← hj]; rfl)
        | put nit =>
            refine h.loses hc rfl (fun hk => hok ?_) (hsame _) (goto_code s t _) List.Pairwise.nil
              (fun n hn => absurd hn List.not_mem_nil) rfl rfl
            have := hkept hk
            simp only [Kept, hc] at this
            exact this
        | putOrGet nit =>
            have hleaves : Leaves cfg .out (cfg.afterGet none) := leaves_afterGet_none cfg rfl rfl
            have htidy := h.tidy t
            have hokrest := h.ok t
            rw [hc] at htidy hokrest
            refine h.loses hc rfl (fun hk => hok ?_) (hsame _) (c := cfg.afterGet none ++ rest)
              (by rw [goto_code, ← hj]; rfl) ?_ ?_ ?_ ?_
            · have := hkept hk
              simp only [Kept, hc] at this
              exact this
            · exact tidy_append htidy hleaves.tidy fun hearly => by cases hearly
            · intro n hn
              exact (List.mem_append.1 hn).elim (hleaves.ok n)
                fun hn => hokrest n (List.mem_cons_of_mem _ hn)
            · rw [List.flatMap_append, hleaves.holds, (htidy.rest rfl).1]
              rfl
            · rw [List.flatMap_append, hleaves.hands, (htidy.rest rfl).2]
              rfl
        | delete key => exact h.stops hc rfl ⟨rfl, rfl⟩ (hsame _) (goto_code s t _)
  | body op =>
      obtain ⟨o, ho, hcalled⟩ := h.called hver hc hkept
      simp only [exec, ho, Option.map_some] at hs
      obtain rfl := Option.some.inj hs
      exact h.body hc hcalled _ (by rw [← hj]; rfl)
  | ret op it =>
      obtain rfl := Option.some.inj hs
      have hok : (Instr.ret op it).Ok cfg := h.ok t _ (by rw [hc]; exact List.mem_cons_self)
      obtain ⟨new, hnew, hleaves⟩ := leaves_returned cfg j op it hok
      exact h.leaves hc hleaves (hsame _) (by rw [goto_code, hnew, hj])
  | query =>
      simp only [exec] at hs
      split at hs
      · obtain rfl := Option.some.inj hs
        exact h.leaves hc (leaves_one cfg .cacheSetGet rfl trivial rfl rfl) ⟨rfl, rfl, rfl, rfl⟩
          (by rw [goto_code, ← hj]; rfl)
      · obtain rfl := Option.some.inj hs
        exact h.stops hc rfl ⟨rfl, rfl⟩ ⟨rfl, rfl, rfl, rfl⟩ (goto_code _ t _)
  | update =>
      simp only [exec] at hs
      split at hs <;> obtain rfl := Option.some.inj hs
      · exact hnil { s with store := _ } ⟨rfl, rfl, rfl, rfl⟩ rfl ⟨rfl, rfl⟩
      · exact hnil s ⟨rfl, rfl, rfl, rfl⟩ rfl ⟨rfl, rfl⟩
  | write key value =>
      obtain rfl := Option.some.inj hs
      exact hnil { s with store := _ } ⟨rfl, rfl, rfl, rfl⟩ rfl ⟨rfl, rfl⟩
  | out =>
      obtain rfl := Option.some.inj hs
      exact hnil { s with outs := _ } ⟨rfl, rfl, rfl, rfl⟩ rfl ⟨rfl, rfl⟩
  | cacheSet =>
      simp only [exec] at hs
      split at hs
      · split_ifs at hs
        · obtain rfl := Option.some.inj hs
          exact h.alloc hc rfl ⟨rfl, rfl⟩ (.put (cfg.alloc s.fresh j.packet.key _)) rfl rfl _ (by rw [← hj]; rfl)
        · obtain rfl := Option.some.inj hs
          exact h.stops hc rfl ⟨rfl, rfl⟩ (hsame _) (goto_code s t _)
      · obtain rfl := Option.some.inj hs
        exact h.stops hc rfl ⟨rfl, rfl⟩ (hsame _) (goto_code s t _)
  | cacheSetGet =>
      simp only [exec] at hs
      split at hs
      · split_ifs at hs
        · obtain rfl := Option.some.inj hs
          exact h.alloc hc rfl ⟨rfl, rfl⟩ (.putOrGet (cfg.alloc s.fresh j.packet.key _)) rfl rfl
            _ (by rw [← hj]; rfl)
        · obtain rfl := Option.some.inj hs
          exact h.leaves hc (leaves_afterGet_none cfg rfl rfl) (hsame _)
            (by rw [goto_code, ← hj]; rfl)
      · obtain rfl := Option.some.inj hs
        exact h.leaves hc (leaves_afterGet_none cfg rfl rfl) (hsame _)
          (by rw [goto_code, ← hj]; rfl)
  | evict it =>
      cases it with
      | none =>
          obtain rfl := Option.some.inj hs
          exact hnil s ⟨rfl, rfl, rfl, rfl⟩ rfl ⟨rfl, rfl⟩
      | some it =>
          simp only [exec] at hs
          split_ifs at hs
          · obtain rfl := Option.some.inj hs
            refine h.leaves hc (leaves_of_late cfg rfl rfl ?_ ?_) ⟨rfl, rfl, rfl, rfl⟩
              (by rw [goto_code, ← hj]; rfl)
            · simp [Instr.Ok]
            · simp [Instr.early]
          · obtain rfl := Option.some.inj hs
            refine h.leaves hc (leaves_of_late cfg rfl rfl ?_ ?_) ⟨rfl, rfl, rfl, rfl⟩
              (by rw [goto_code, ← hj]; rfl)
            · simp [Instr.Ok]
            · simp [Instr.early]
          · obtain rfl := Option.some.inj hs
            exact hnil s ⟨rfl, rfl, rfl, rfl⟩ rfl ⟨rfl, rfl⟩
  | evictSave it =>
      obtain rfl := Option.some.inj hs
      refine h.leaves hc (leaves_of_late cfg rfl rfl ?_ ?_) ⟨rfl, rfl, rfl, rfl⟩
        (by rw [goto_code, ← hj]; rfl)
      · simp [Instr.Ok]
      · simp [Instr.early]
  | evictRevert saved =>
      obtain rfl := Option.some.inj hs
      refine h.leaves hc (leaves_nil cfg rfl rfl) (hsame _) (by rw [goto_code, ← hj]; rfl)
  | free it =>
      have hok : (Instr.free it).Ok cfg := h.ok t _ (by rw [hc]; exact List.mem_cons_self)
      cases it with
      | none =>
          obtain rfl := Option.some.inj hs
          exact hnil s ⟨rfl, rfl, rfl, rfl⟩ rfl ⟨rfl, rfl⟩
      | some it =>
          obtain rfl := Option.some.inj hs
          refine h.leaves hc ?_ (hsame _) (by rw [goto_code, ← hj]; rfl)
          split_ifs with hout
          · exact leaves_release_dispose cfg hok (if_pos hout) (thrownOut_of_ne hout)
          · exact leaves_nil cfg (if_neg hout) (thrownOut_of_eq hout)
  | freeOrRelease it =>
      have hok : (Instr.freeOrRelease it).Ok cfg :=
        h.ok t _ (by rw [hc]; exact List.mem_cons_self)
      cases it with
      | none =>
          obtain rfl := Option.some.inj hs
          exact hnil s ⟨rfl, rfl, rfl, rfl⟩ rfl ⟨rfl, rfl⟩
      | some it =>
          obtain rfl := Option.some.inj hs
          refine h.leaves hc ?_ (hsame _) (by rw [goto_code, ← hj]; rfl)
          split_ifs with hout
          · exact leaves_release_dispose cfg hok rfl (thrownOut_of_ne hout)
          · exact leaves_release cfg hok rfl (thrownOut_of_eq hout)
  | release it =>
      simp only [exec, Option.bind_eq_some_iff] at hs
      obtain ⟨idx, hidx, hs⟩ := hs
      split_ifs at hs
      obtain rfl := Option.some.inj hs
      exact h.release hc hidx j hj
  | dispose it =>
      obtain rfl := Option.some.inj hs
      exact h.dispose hc j hj

/-- A flow starts. -/
theorem Inv.start (h : Inv cfg kept s) (flow : Flow K V) (hc : s.code t = []) :
    Inv cfg kept (s.goto t (cfg.start flow)) := by
  have hheld : s.held cfg.index t = [] := by rw [State.held, hc]; rfl
  have hhand : s.hands t = [] := by rw [State.hands, hc]; rfl
  refine h.same ⟨rfl, rfl, rfl, rfl⟩ (goto_code s t _) ?_ ?_ ?_ ?_
  · unfold Config.start
    cases flow with
    | get key => exact List.pairwise_singleton _ _
    | set key value =>
        simp only
        split_ifs
        · exact List.pairwise_singleton _ _
        · simp [Tidy, Instr.early, Instr.Idle, Instr.holds, Instr.hands]
    | delete key => exact List.pairwise_singleton _ _
  · unfold Config.start
    cases flow with
    | get key => simp [Instr.Ok, Op.Ok]
    | set key value =>
        simp only
        split_ifs <;> simp [Instr.Ok, Op.Ok]
    | delete key => simp [Instr.Ok, Op.Ok]
  · rw [hheld]
    unfold Config.start
    cases flow with
    | get key => rfl
    | set key value => simp only; split_ifs <;> rfl
    | delete key => rfl
  · rw [hhand]
    unfold Config.start
    cases flow with
    | get key => rfl
    | set key value => simp only; split_ifs <;> rfl
    | delete key => rfl

omit [DecidableEq T] in
theorem code_of_jobs {j : Job K V} (hj : s.jobs t = some j) : s.code t = j.code := by
  rw [State.code, hj]

/-- **The step lemma.** -/
theorem Inv.of_step [DecidableEq K] (h : Inv cfg kept s) (hver : cfg.version.Plain) (a : Act T K V)
    (hkept : kept → Kept cfg s a) (hs : step cfg s a = some s') : Inv cfg kept s' := by
  cases a with
  | start t flow =>
      simp only [step] at hs
      split_ifs at hs with hc
      obtain rfl := Option.some.inj hs
      exact h.start flow (List.isEmpty_iff.1 hc)
  | go t ok =>
      simp only [step] at hs
      split at hs
      · cases hs
      · next j hj =>
          split at hs
          · cases hs
          · next i rest hcode =>
              exact h.of_exec hver ((code_of_jobs hj).trans hcode) rfl hkept hs

omit [DecidableEq T] in
theorem inv_init (cfg : Config K V σ) (kept : Prop) (store : σ) :
    Inv cfg kept (State.init store : State N T K V σ) where
  table := Table.ok_empty cfg.hash cfg.nbuckets
  unique x _ hx := absurd hx (Table.not_has_empty x)
  tidy _ := List.Pairwise.nil
  ok _ _ hi := absurd hi List.not_mem_nil
  locks := Locks.init
  owns := by
    refine ⟨_, Owns.init.congr (fun a => ?_) (fun _ => rfl) rfl, fun _ _ => nofun⟩
    exact iff_of_false (fun ⟨it, hit, _⟩ => Table.not_has_empty it hit) id

/-- **The run lemma.** -/
theorem Inv.of_run [DecidableEq K] (hver : cfg.version.Plain) {as : List (Act T K V)}
    (h : Inv cfg kept s) (hmeets : kept → Meets (step cfg) (Kept cfg) s as)
    (hrun : Lib.run (step cfg) s as = some s') : Inv cfg kept s' := by
  by_cases hkept : kept
  · exact run_invariant_of_meets (fun s a t hs hC hstep => hs.of_step hver a (fun _ => hC) hstep) h
      (hmeets hkept) hrun
  · exact run_invariant (fun s a t hs hstep => hs.of_step hver a (fun hk => absurd hk hkept) hstep) h
      hrun

end

/-! ## The discipline -/

/-- **The discipline of the locks.** -/
structure Disciplined (s : State N T K V σ) : Prop where
  /-- An attempt that fails returns `NULL`, and the thread has no lock. -/
  attempts : ∀ t op rest, s.code t = .lock op :: rest → ∀ idx, s.lock idx ≠ some t
  /-- With an item, an operation returns the lock of its bucket, and without one no lock. -/
  returns : ∀ t op ret rest, s.code t = .ret op ret :: rest →
    match ret with
    | some it => ∃ idx, it.bucket = some idx ∧ s.lock idx = some t
    | none => ∀ idx, s.lock idx ≠ some t
  /-- A lock that is released is held. -/
  releases : ∀ t it rest, s.code t = .release it :: rest →
    ∃ idx, it.bucket = some idx ∧ s.lock idx = some t
  /-- At the end of a flow no lock is held. -/
  ends : ∀ t, s.code t = [] → ∀ idx, s.lock idx ≠ some t

/-- The item is in the table, in the hands of a flow that has to insert or to free it, or
freed. -/
def Placed (s : State N T K V σ) (addr : ℕ) : Prop :=
  At s.table.Has addr ∨ (∃ t, addr ∈ s.hands t) ∨ addr ∈ s.freed

section

variable {cfg} {kept : Prop} {s : State N T K V σ} {t : T}

theorem Inv.no_lock (h : Inv cfg kept s) (hheld : s.held cfg.index t = []) (idx : ℕ) :
    s.lock idx ≠ some t := by
  intro hlock
  have := (h.locks.holder idx t).1 hlock
  rw [hheld] at this
  cases this

theorem Inv.holder (h : Inv cfg kept s) {i : Instr K V} {rest : List (Instr K V)}
    (hc : s.code t = i :: rest) {idx : ℕ} (hidx : idx ∈ i.holds cfg.index) :
    s.lock idx = some t := by
  refine (h.locks.holder idx t).2 ?_
  rw [State.held, hc, List.flatMap_cons]
  exact List.mem_append_left _ hidx

theorem Inv.disciplined (h : Inv cfg kept s) : Disciplined s where
  attempts t op rest hc := h.no_lock (h.early_held hc rfl).1
  returns t op ret rest hc := by
    cases ret with
    | none => exact h.no_lock (h.early_held hc rfl).1
    | some it =>
        have hok : (Instr.ret op (some it)).Ok cfg := h.ok t _ (by rw [hc]; exact List.mem_cons_self)
        have hbucket : it.bucket = some (cfg.index op.key) := by
          cases op with
          | delete key => exact hok.elim
          | get key => exact hok
          | put nit => exact hok
          | putOrGet nit => exact hok
        refine ⟨_, hbucket, h.holder hc ?_⟩
        rw [Instr.holds, hbucket]
        exact List.mem_cons_self
  releases t it rest hc := by
    have hok : (Instr.release it).Ok cfg := h.ok t _ (by rw [hc]; exact List.mem_cons_self)
    obtain ⟨idx, hidx⟩ := Option.isSome_iff_exists.1 hok
    refine ⟨idx, hidx, h.holder hc ?_⟩
    rw [Instr.holds, hidx]
    exact List.mem_cons_self
  ends t hc := h.no_lock (by rw [State.held, hc]; rfl)

/-- A thread can always go on, if its lock attempt fails. -/
theorem Inv.total [DecidableEq T] [DecidableEq K] (h : Inv cfg False s)
    (hver : cfg.version.Plain) (hc : s.code t ≠ []) : ∃ s', step cfg s (.go t false) = some s' := by
  obtain ⟨i, rest, hcode⟩ := List.exists_cons_of_ne_nil hc
  cases hj : s.jobs t with
  | none =>
      rw [State.code, hj] at hc
      exact absurd rfl hc
  | some j =>
      have hjcode : j.code = i :: rest := (code_of_jobs hj).symm.trans hcode
      simp only [step, hj, hjcode]
      cases i with
      | body op =>
          obtain ⟨o, ho, -⟩ := h.called hver hcode (fun hk => hk.elim : False → Kept cfg s (.go t false))
          simp only [exec, ho, Option.map_some]
          exact ⟨_, rfl⟩
      | release it =>
          obtain ⟨idx, hidx, hlock⟩ := h.disciplined.releases t it rest hcode
          simp only [exec, hidx, Option.bind_some, hlock, if_true]
          exact ⟨_, rfl⟩
      | lock op => exact ⟨_, rfl⟩
      | query => simp only [exec]; split <;> exact ⟨_, rfl⟩
      | update => simp only [exec]; split <;> exact ⟨_, rfl⟩
      | cacheSet => simp only [exec]; split <;> (try split_ifs) <;> exact ⟨_, rfl⟩
      | cacheSetGet => simp only [exec]; split <;> (try split_ifs) <;> exact ⟨_, rfl⟩
      | evict it =>
          cases it with
          | none => exact ⟨_, rfl⟩
          | some it => simp only [exec]; split_ifs <;> exact ⟨_, rfl⟩
      | free it => cases it <;> exact ⟨_, rfl⟩
      | freeOrRelease it => cases it <;> exact ⟨_, rfl⟩
      | _ => exact ⟨_, rfl⟩

end

/-- **Lock discipline and item ownership.**  In every run, locks are given back once and by
their holders, and no item is in two places or freed twice; in a run whose steps are kept,
every item is in a place. -/
theorem disciplined_run [DecidableEq T] [DecidableEq K]
    (hver : cfg.version = cpu ∨ cfg.version = cavium) (store : σ) (as : List (Act T K V))
    (s : State N T K V σ) (hrun : run (step cfg) (State.init store) as = some s) :
    Disciplined s ∧ (∀ a, Apart (At s.table.Has) s.hands s.freed a) ∧
      (Meets (step cfg) (Kept cfg) (State.init store : State N T K V σ) as →
        ∀ a < s.fresh, Placed s a) := by
  have hplain : cfg.version.Plain := by
    rcases hver with hver | hver <;> rw [hver]
    · exact cpu_plain
    · exact cavium_plain
  have hinv : Inv cfg False s := (inv_init cfg False store).of_run hplain False.elim hrun
  refine ⟨hinv.disciplined, ?_, fun hmeets a ha => ?_⟩
  · obtain ⟨own, hown, -⟩ := hinv.owns
    exact hown.apart
  · have hkept : Inv cfg True s := (inv_init cfg True store).of_run hplain (fun _ => hmeets) hrun
    obtain ⟨own, hown, hlost⟩ := hkept.owns
    exact hown.place ha (hlost trivial a)

/-- Without write-back the assertion of `cache_default` holds. -/
theorem no_back : false = true → false = true := id

/-- A cache of integers with the default policies and one bucket, in front of a store that
counts the queries. -/
def defaultCache (hash : ℕ → UInt32) : Config ℕ ℕ ℕ where
  version := cpu
  hash := hash
  nbuckets := 1
  writeBack := false
  writeAlloc := false
  back_alloc := no_back
  state := false
  pointerKey := false
  ofPointer := id
  varSize := false
  withVallen value _ := value
  storable _ _ := true
  read store _ := (store, none)
  write store _ _ := store + 1

/-- A set and what a thread does for it: it deletes the key, does the query, and inserts. -/
def setRun (key : ℕ) : List (Act Unit ℕ ℕ) := .start () (.set key 0) :: List.replicate 10 (.go () true)

theorem disciplined_set : ∃ s : State 0 Unit ℕ ℕ ℕ,
    run (step (defaultCache fun _ => 0)) (State.init 0) (setRun 3) = some s ∧ Disciplined s ∧
      (∀ a, Apart (At s.table.Has) s.hands s.freed a) ∧
        (Meets (step (defaultCache fun _ => 0)) (Kept (defaultCache fun _ => 0))
            (State.init 0 : State 0 Unit ℕ ℕ ℕ) (setRun 3) → ∀ a < s.fresh, Placed s a) :=
  ⟨_, rfl, disciplined_run (defaultCache fun _ => 0) (Or.inl rfl) 0 (setRun 3) _ rfl⟩

/-- **A full bucket loses items**: the second set finds it full, and its item is not freed. -/
theorem lost_item : ∃ s : State 0 Unit ℕ ℕ ℕ,
    run (step (defaultCache fun _ => 0)) (State.init 0) (setRun 3 ++ (setRun 4).take 10) = some s ∧
      s.code () = [] ∧ 1 < s.fresh ∧ ¬ Placed s 1 := by
  obtain ⟨s, hrun, hcode, hfresh, hhands, hfreed, hitems⟩ : ∃ s : State 0 Unit ℕ ℕ ℕ,
      run (step (defaultCache fun _ => 0)) (State.init 0) (setRun 3 ++ (setRun 4).take 10) = some s ∧
        s.code () = [] ∧ s.fresh = 2 ∧ s.hands () = [] ∧ s.freed = [] ∧
          ((s.table 0).items 0).map Item.addr = [0] := ⟨_, rfl, rfl, rfl, rfl, rfl, rfl⟩
  refine ⟨s, hrun, hcode, by omega, ?_⟩
  have hinv : Inv (defaultCache fun _ => 0) False s :=
    (inv_init _ False 0).of_run cpu_plain False.elim hrun
  rintro (⟨it, ⟨idx, i, hi⟩, haddr⟩ | ⟨t, ht⟩ | hmem)
  · -- there is one bucket with one place
    have hidx : bucketOf 1 0 = idx := hinv.table.bucket_of_has ⟨i, hi⟩
    obtain rfl : 0 = idx := hidx
    obtain rfl : i = 0 := Fin.fin_one_eq_zero i
    have := List.mem_map_of_mem (f := Item.addr) hi
    rw [hitems, haddr] at this
    simp at this
  · rw [hhands] at ht
    cases ht
  · rw [hfreed] at hmem
    cases hmem

end Flows
end Cache
end Floem
