import Floem.Cache.Discipline

/-!
# The life of an item

* `Life`, `Life.Tells` — how far an item has come, and what is recorded of it by then.
* `Wise` — what the code of a flow has to do with its items: a dirty item that was thrown out
  is given to `Evict` before it is freed.
* `Live` — the items of the table are live.
* `Told`, with `told_get`, `told_put`, `told_putOrGet`, `told_delete` — what the operations on
  the table do to the lives of the items.
-/

namespace Floem
namespace Cache
namespace Flows

open Lib

variable {K V T σ : Type*} {N : ℕ}

/-! ## The life of an item -/

def Event.addr : Event K V → ℕ
  | .stored addr _ _ _ => addr
  | .overwritten addr => addr
  | .deleted addr => addr
  | .evicted addr _ _ _ => addr
  | .freed addr => addr

/-- What is recorded of one item, the newest first. -/
def history (log : List (Event K V)) (a : ℕ) : List (Event K V) := log.filter fun e => e.addr = a

/-- How far an item has come. -/
inductive Life (K V : Type*)
  /-- It was not in the table yet. -/
  | unborn
  | live (key : K) (value : V) (bySet : Bool)
  /-- It was thrown out. -/
  | out (key : K) (value : V) (bySet : Bool)
  /-- It was thrown out and given to `Evict`. -/
  | saved (key : K) (value : V)
  | dead

/-- The records of an item. -/
inductive Life.Tells (a : ℕ) : Life K V → List (Event K V) → Prop
  | unborn : Tells a .unborn []
  | live (key : K) (value : V) (bySet : Bool) :
      Tells a (.live key value bySet) [.stored a key value bySet]
  | out (key : K) (value : V) (bySet : Bool) :
      Tells a (.out key value bySet) [.stored a key value bySet]
  | saved (key : K) (value : V) :
      Tells a (.saved key value) [.evicted a 3 key value, .stored a key value true]
  /-- `cache_put_or_get` did not need it. -/
  | refused : Tells a .dead [.freed a]
  | overwritten (key : K) (value : V) (bySet : Bool) :
      Tells a .dead [.freed a, .overwritten a, .stored a key value bySet]
  | deleted (key : K) (value : V) (bySet : Bool) :
      Tells a .dead [.freed a, .deleted a, .stored a key value bySet]
  | clean (key : K) (value : V) : Tells a .dead [.freed a, .stored a key value false]
  | written (key : K) (value : V) :
      Tells a .dead [.freed a, .evicted a 3 key value, .stored a key value true]

theorem history_append (l l' : List (Event K V)) (a : ℕ) :
    history (l ++ l') a = history l a ++ history l' a :=
  List.filter_append ..

/-- Events of one item follow. -/
theorem tells_append {life : ℕ → Life K V} {log : List (Event K V)}
    (h : ∀ a, (life a).Tells a (history log a)) (es : List (Event K V)) {b : ℕ}
    (hes : ∀ e ∈ es, e.addr = b) {x : Life K V} (hx : x.Tells b (es ++ history log b)) :
    ∀ a, (Function.update life b x a).Tells a (history (es ++ log) a) := by
  intro a
  rw [history_append]
  by_cases ha : a = b
  · have hall : history es a = es := List.filter_eq_self.2 fun e he => by simp [hes e he, ha]
    rw [hall, ha, Function.update_self]
    exact hx
  · have hnone : history es a = [] :=
      List.filter_eq_nil_iff.2 fun e he => by simpa [hes e he] using Ne.symm ha
    rw [hnone, Function.update_of_ne ha]
    exact h a

/-! ## What a flow knows of its items -/

namespace Instr

/-- The items that an instruction, and what it leaves, gives to `Evict`. -/
def owes : Instr K V → List ℕ
  | .ret _ (some it) => if it.evicted = 3 then [it.addr] else []
  | .evict (some it) => if it.evicted = 3 then [it.addr] else []
  | _ => []

/-- The instructions behind which nothing is given to `Evict`. -/
def closing : Instr K V → Bool
  | .update => false
  | .write _ _ => false
  | .out => false
  | .evictSave _ => false
  | .evictRevert _ => false
  | _ => true

end Instr

/-- The item may be freed once those that are owed are given to `Evict`. -/
def Freeable (life : ℕ → Life K V) (owed : List ℕ) (it : Item K V) : Prop :=
  life it.addr = .out it.key it.value false ∨ life it.addr = .saved it.key it.value ∨
    life it.addr = .out it.key it.value true ∧ it.addr ∈ owed

/-- An item that an operation returns was thrown out if its flag says so. -/
def Thrown (life : ℕ → Life K V) (it : Item K V) : Prop :=
  ¬ it.evicted &&& 2 ≠ 0 ∨
    it.evicted = 2 ∧ life it.addr = .out it.key it.value false ∨
      it.evicted = 3 ∧ life it.addr = .out it.key it.value true

def Instr.Knows (life : ℕ → Life K V) (owed : List ℕ) : Instr K V → Prop
  | .lock op => ∀ a ∈ op.brings, life a = .unborn
  | .body op => ∀ a ∈ op.brings, life a = .unborn
  | .ret op (some it) =>
      Thrown life it ∧ ∀ key, op = .get key → ¬ it.evicted &&& 2 ≠ 0
  | .evict (some it) => it.evicted = 3 → life it.addr = .out it.key it.value true
  | .free (some it) => it.evicted &&& 2 ≠ 0 → Freeable life owed it
  | .freeOrRelease (some it) => it.evicted &&& 2 ≠ 0 → Freeable life owed it
  | .dispose it => Freeable life owed it
  | _ => True

/-- What a flow knows of its items. -/
structure Wise (life : ℕ → Life K V) (code : List (Instr K V)) : Prop where
  knows : ∀ i ∈ code, i.Knows life (code.flatMap Instr.owes)
  /-- Items are given to `Evict` before any is freed. -/
  order : code.Pairwise fun i j => i.closing = true → j.owes = []
  owed : ∀ a ∈ code.flatMap Instr.owes, a ∈ code.flatMap Instr.hands

def State.owed (s : State N T K V σ) (t : T) : List ℕ := (s.code t).flatMap Instr.owes

/-- The items of the table are live. -/
structure Live (life : ℕ → Life K V) (has : Item K V → Prop) (log : List (Event K V)) : Prop where
  tells : ∀ a, (life a).Tells a (history log a)
  live : ∀ it, has it → life it.addr = .live it.key it.value (it.evicted = 1)
  at_live : ∀ a key value bySet, life a = .live key value bySet → At has a

theorem Freeable.mono {life : ℕ → Life K V} {owed owed' : List ℕ} {it : Item K V}
    (h : Freeable life owed it) (howed : ∀ a ∈ owed, a ∈ owed') : Freeable life owed' it :=
  h.imp_right fun h => h.imp_right fun h => ⟨h.1, howed _ h.2⟩

theorem Instr.Knows.mono {life : ℕ → Life K V} {owed owed' : List ℕ} {i : Instr K V}
    (h : i.Knows life owed) (howed : ∀ a ∈ owed, a ∈ owed') : i.Knows life owed' := by
  cases i with
  | free it =>
      cases it with
      | none => trivial
      | some it => exact fun hout => (h hout).mono howed
  | freeOrRelease it =>
      cases it with
      | none => trivial
      | some it => exact fun hout => (h hout).mono howed
  | dispose it => exact Freeable.mono h howed
  | ret op it => cases it <;> exact h
  | evict it => cases it <;> exact h
  | _ => exact h

/-- An idle instruction that owes nothing knows nothing. -/
theorem Instr.knows_of_idle {index : K → ℕ} {i : Instr K V} (hidle : i.Idle index)
    (howes : i.owes = []) (life : ℕ → Life K V) (owed : List ℕ) : i.Knows life owed := by
  have hthrown : ∀ it : Item K V, thrownOut it = [] → ¬ it.evicted &&& 2 ≠ 0 := fun it hit hout => by
    rw [thrownOut_of_ne hout] at hit
    cases hit
  have hbrings : ∀ op : Op K V, op.brings = [] → ∀ a ∈ op.brings, life a = .unborn :=
    fun op hop a ha => by
      rw [hop] at ha
      cases ha
  cases i with
  | lock op => exact hbrings op hidle.2
  | body op => exact hbrings op hidle.2
  | ret op it =>
      cases it with
      | none => trivial
      | some it => exact ⟨Or.inl (hthrown it hidle.2), fun _ _ => hthrown it hidle.2⟩
  | evict it =>
      cases it with
      | none => trivial
      | some it =>
          intro hthree
          rw [Instr.owes, if_pos hthree] at howes
          cases howes
  | free it =>
      cases it with
      | none => trivial
      | some it => exact fun hout => absurd hout (hthrown it hidle.2)
  | freeOrRelease it =>
      cases it with
      | none => trivial
      | some it => exact fun hout => absurd hout (hthrown it hidle.2)
  | dispose it => cases hidle.2
  | _ => trivial

theorem not_thrown {it : Item K V} (h : it.evicted = 0 ∨ it.evicted = 1) :
    ¬ it.evicted &&& 2 ≠ 0 := by
  rcases h with h | h <;> rw [h] <;> decide

/-- An instruction leaves others that know as much. -/
theorem Wise.push {life : ℕ → Life K V} {i : Instr K V} {rest new : List (Instr K V)}
    (h : Wise life (i :: rest))
    (hknows : ∀ n ∈ new, n.Knows life (new.flatMap Instr.owes))
    (horder : new.Pairwise fun i j => i.closing = true → j.owes = [])
    (hclosing : i.closing = false → ∀ n ∈ new, n.closing = false)
    (howes : new.flatMap Instr.owes = i.owes) (hhands : new.flatMap Instr.hands = i.hands) :
    Wise life (new ++ rest) := by
  have hrest := List.pairwise_cons.1 h.order
  refine ⟨fun n hn => ?_, ?_, fun a ha => ?_⟩
  · rcases List.mem_append.1 hn with hn | hn
    · refine (hknows n hn).mono fun a ha => ?_
      rw [List.flatMap_append]
      exact List.mem_append_left _ ha
    · refine (h.knows n (List.mem_cons_of_mem _ hn)).mono fun a ha => ?_
      rwa [List.flatMap_append, howes]
  · refine List.pairwise_append.2 ⟨horder, hrest.2, fun n hn j hj hnclosing => ?_⟩
    cases hi : i.closing with
    | true => exact hrest.1 j hj hi
    | false => rw [hclosing hi n hn] at hnclosing; cases hnclosing
  · rw [List.flatMap_append, howes] at ha
    rw [List.flatMap_append, hhands]
    exact h.owed a ha

/-- Instructions that owe nothing, and free these items. -/
structure Plain (life : ℕ → Life K V) (hands : List ℕ) (code : List (Instr K V)) : Prop where
  knows : ∀ n ∈ code, n.Knows life []
  owes : ∀ n ∈ code, n.owes = []
  hands : code.flatMap Instr.hands = hands

theorem Plain.append {life : ℕ → Life K V} {hands hands' : List ℕ} {code code' : List (Instr K V)}
    (h : Plain life hands code) (h' : Plain life hands' code') :
    Plain life (hands ++ hands') (code ++ code') where
  knows n hn := (List.mem_append.1 hn).elim (h.knows n) (h'.knows n)
  owes n hn := (List.mem_append.1 hn).elim (h.owes n) (h'.owes n)
  hands := by rw [List.flatMap_append, h.hands, h'.hands]

theorem Wise.plain {life : ℕ → Life K V} {i : Instr K V} {rest : List (Instr K V)}
    (h : Wise life (i :: rest)) (new : List (Instr K V)) (hnew : Plain life i.hands new)
    (hclosing : i.closing = false → ∀ n ∈ new, n.closing = false) (howes : i.owes = []) :
    Wise life (new ++ rest) := by
  have hnil : new.flatMap Instr.owes = [] := List.flatMap_eq_nil_iff.2 hnew.owes
  refine h.push ?_ ?_ hclosing (hnil.trans howes.symm) hnew.hands
  · rw [hnil]
    exact hnew.knows
  · exact List.pairwise_of_forall_mem_list fun _ _ j hj _ => hnew.owes j hj

section

variable {life : ℕ → Life K V} {op : Op K V} {it : Item K V} {rest : List (Instr K V)}

theorem Thrown.of_three (h : Thrown life it) (hthree : it.evicted = 3) :
    life it.addr = .out it.key it.value true := by
  rcases h with hin | ⟨htwo, -⟩ | ⟨-, hlife⟩
  · rw [hthree] at hin
    exact absurd (by decide) hin
  · rw [htwo] at hthree
    exact absurd hthree (by decide)
  · exact hlife

theorem Thrown.freeable (h : Thrown life it) (hout : it.evicted &&& 2 ≠ 0) {owed : List ℕ}
    (howed : it.evicted = 3 → it.addr ∈ owed) : Freeable life owed it := by
  rcases h with hin | ⟨-, hlife⟩ | ⟨hthree, hlife⟩
  · exact absurd hout hin
  · exact Or.inl hlife
  · exact Or.inr (Or.inr ⟨hlife, howed hthree⟩)

/-- `SetWriteBack`, behind `CacheSet`: the item is given to `Evict` and then freed. -/
theorem Wise.afterSet (h : Wise life (.ret op (some it) :: rest)) :
    Wise life (Config.afterSet (some it) ++ rest) := by
  have hthrown : Thrown life it := (h.knows _ List.mem_cons_self).1
  refine h.push ?_ ?_ (fun hc => by cases hc) ?_ ?_
  · intro n hn
    simp only [Config.afterSet, List.mem_cons, List.not_mem_nil, or_false] at hn
    rcases hn with rfl | rfl | rfl
    · exact hthrown.of_three
    · refine fun hout => hthrown.freeable hout fun hthree => ?_
      simp [Config.afterSet, Instr.owes, hthree]
    · trivial
  · simp [Config.afterSet, Instr.closing, Instr.owes]
  · simp [Config.afterSet, Instr.owes]
  · simp [Config.afterSet, Instr.hands]

variable {cfg : Config K V σ}

/-- `GetComposite`, behind `CacheSetGet`, in the same way. -/
theorem Wise.afterGet (h : Wise life (.ret op (some it) :: rest)) (hback : cfg.writeBack = true) :
    Wise life (cfg.afterGet (some it) ++ rest) := by
  have hthrown : Thrown life it := (h.knows _ List.mem_cons_self).1
  have hcode : cfg.afterGet (some it) = [.evict (some it), .out, .freeOrRelease (some it)] := by
    rw [Config.afterGet, if_pos hback]
    rfl
  rw [hcode]
  refine h.push ?_ ?_ (fun hc => by cases hc) ?_ ?_
  · intro n hn
    simp only [List.mem_cons, List.not_mem_nil, or_false] at hn
    rcases hn with rfl | rfl | rfl
    · exact hthrown.of_three
    · trivial
    · refine fun hout => hthrown.freeable hout fun hthree => ?_
      simp [Instr.owes, hthree]
  · simp [Instr.closing, Instr.owes]
  · simp [Instr.owes]
  · simp [Instr.hands]

theorem plain_afterGet (cfg : Config K V σ) (life : ℕ → Life K V) :
    Plain life [] (cfg.afterGet none) := by
  unfold Config.afterGet
  constructor <;> split_ifs <;> simp [Instr.Knows, Instr.owes, Instr.hands]

theorem plain_afterSet (life : ℕ → Life K V) :
    Plain life [] (Config.afterSet none : List (Instr K V)) := by
  constructor <;> simp [Config.afterSet, Instr.Knows, Instr.owes, Instr.hands]

theorem plain_release (life : ℕ → Life K V) (it : Item K V) : Plain life [] [.release it] := by
  constructor <;> simp [Instr.Knows, Instr.owes, Instr.hands]

/-- `cache_release(it); shared_mm_free(it);` for an item that is not owed. -/
theorem plain_release_dispose (h : Freeable life [] it) :
    Plain life [it.addr] [.release it, .dispose it] := by
  constructor <;> simp [Instr.Knows, Instr.owes, Instr.hands, h]

/-- **The rest of an element** knows of the item that its operation returned. -/
theorem wise_returned {j : Job K V} (hback : cfg.writeBack = true)
    {ret : Option (Item K V)} (h : Wise life (.ret op ret :: rest)) (hj : j.code = rest)
    (hok : (Instr.ret op ret).Ok cfg) :
    Wise life (cfg.returned j op ret).code := by
  subst hj
  cases ret with
  | none =>
      cases op with
      | get key =>
          refine h.plain [.query] ?_ (fun hc => by cases hc) rfl
          constructor <;> simp [Instr.Knows, Instr.owes, Instr.hands]
      | put nit =>
          simp only [Config.returned, if_pos hback]
          exact h.plain _ (plain_afterSet life) (fun hc => by cases hc) rfl
      | putOrGet nit => exact h.plain _ (plain_afterGet cfg life) (fun hc => by cases hc) rfl
      | delete key =>
          refine h.plain [] ?_ (fun hc => by cases hc) rfl
          constructor <;> simp [Instr.hands]
  | some it =>
      have hthrown : Thrown life it := (h.knows _ List.mem_cons_self).1
      have howes : ∀ {op : Op K V}, it.evicted ≠ 3 → (Instr.ret op (some it)).owes = [] :=
        fun hne => if_neg hne
      have hne : ¬ it.evicted &&& 2 ≠ 0 → it.evicted ≠ 3 := fun hin hthree => by
        rw [hthree] at hin
        exact hin (by decide)
      cases op with
      | get key =>
          have hin := (h.knows _ List.mem_cons_self).2 key rfl
          refine h.plain [.out, .freeOrRelease (some it)] ?_ (fun hc => by cases hc)
            (howes (hne hin))
          constructor <;> simp [Instr.Knows, Instr.owes, Instr.hands, hin]
      | put nit =>
          simp only [Config.returned, if_pos hback]
          split_ifs with hout
          · exact h.afterSet
          · refine h.plain _ ?_ (fun hc => by cases hc) (howes (hne hout))
            have := (plain_release life it).append (plain_afterSet life)
            rwa [show ([] ++ [] : List ℕ) = (Instr.ret (.put nit) (some it)).hands from
              (thrownOut_of_eq hout).symm] at this
      | putOrGet nit =>
          simp only [Config.returned]
          split_ifs with htwo hthree
          · have hout : it.evicted &&& 2 ≠ 0 := by rw [htwo]; decide
            refine h.plain _ ?_ (fun hc => by cases hc) (howes (by rw [htwo]; decide))
            have := (plain_release_dispose (hthrown.freeable hout fun hthree => ?_)).append
              (plain_afterGet cfg life)
            · rwa [show ([it.addr] ++ [] : List ℕ) = (Instr.ret (.putOrGet nit) (some it)).hands
                from (thrownOut_of_ne hout).symm] at this
            · rw [htwo] at hthree
              exact absurd hthree (by decide)
          all_goals exact h.afterGet hback
      | delete key => exact hok.elim

end

/-! ## The operations -/

section

variable {has has' : Item K V → Prop} {life : ℕ → Life K V} {log : List (Event K V)}

theorem tells_of_live {a : ℕ} {key : K} {value : V} {bySet : Bool} {l : List (Event K V)}
    (h : (Life.live key value bySet).Tells a l) : l = [.stored a key value bySet] := by
  cases h
  rfl

theorem tells_of_unborn {a : ℕ} {l : List (Event K V)} (h : (Life.unborn : Life K V).Tells a l) :
    l = [] := by
  cases h
  rfl

theorem tells_of_out {a : ℕ} {key : K} {value : V} {bySet : Bool} {l : List (Event K V)}
    (h : (Life.out key value bySet).Tells a l) : l = [.stored a key value bySet] := by
  cases h
  rfl

theorem tells_of_saved {a : ℕ} {key : K} {value : V} {l : List (Event K V)}
    (h : (Life.saved key value).Tells a l) :
    l = [.evicted a 3 key value, .stored a key value true] := by
  cases h
  rfl

/-- An item is put in. -/
theorem Live.insert (h : Live life has log) {nit : Item K V} (hnit : life nit.addr = .unborn)
    (hhas : ∀ x, has' x ↔ has x ∨ x = nit) :
    Live (Function.update life nit.addr (.live nit.key nit.value (nit.evicted = 1))) has'
      (.stored nit.addr nit.key nit.value (nit.evicted = 1) :: log) where
  tells := by
    refine tells_append h.tells [_] (fun e he => by rw [List.mem_singleton.1 he]; rfl) ?_
    have htells := h.tells nit.addr
    rw [hnit] at htells
    rw [tells_of_unborn htells]
    exact .live _ _ _
  live x hx := by
    rcases (hhas x).1 hx with hx | rfl
    · have hne : x.addr ≠ nit.addr := fun heq => by
        have hlive := h.live x hx
        rw [heq, hnit] at hlive
        cases hlive
      rw [Function.update_of_ne hne]
      exact h.live x hx
    · rw [Function.update_self]
  at_live a key value bySet ha := by
    refine (at_insert hhas a).2 ?_
    by_cases hne : a = nit.addr
    · exact Or.inr hne
    · rw [Function.update_of_ne hne] at ha
      exact Or.inl (h.at_live a key value bySet ha)

/-- An item is taken out. -/
theorem Live.remove (h : Live life has log)
    (hunique : ∀ x y, has x → has y → x.addr = y.addr → x = y)
    (hkeys : ∀ x y, has x → has y → x.key = y.key → x = y) {old : Item K V} (hold : has old)
    (hhas : ∀ x, has' x ↔ has x ∧ x.key ≠ old.key) {x : Life K V} (es : List (Event K V))
    (hes : ∀ e ∈ es, e.addr = old.addr)
    (hx : x.Tells old.addr
      (es ++ [.stored old.addr old.key old.value (old.evicted = 1)]))
    (hlive : ∀ key value bySet, x ≠ .live key value bySet) :
    Live (Function.update life old.addr x) has' (es ++ log) where
  tells := by
    refine tells_append h.tells es hes ?_
    have htells := h.tells old.addr
    rw [h.live old hold] at htells
    rw [tells_of_live htells]
    exact hx
  live y hy := by
    have hne := ((at_remove hunique hkeys hold hhas y.addr).1 ⟨y, hy, rfl⟩).2
    rw [Function.update_of_ne hne]
    exact h.live y ((hhas y).1 hy).1
  at_live a key value bySet ha := by
    by_cases hne : a = old.addr
    · rw [hne, Function.update_self] at ha
      exact absurd ha (hlive key value bySet)
    · rw [Function.update_of_ne hne] at ha
      exact (at_remove hunique hkeys hold hhas a).2 ⟨h.at_live a key value bySet ha, hne⟩

/-- An item is freed that was never put in. -/
theorem Live.refuse (h : Live life has log) {a : ℕ} (ha : life a = .unborn) :
    Live (Function.update life a .dead) has (.freed a :: log) where
  tells := by
    refine tells_append h.tells [_] (fun e he => by rw [List.mem_singleton.1 he]; rfl) ?_
    have htells := h.tells a
    rw [ha] at htells
    rw [tells_of_unborn htells]
    exact .refused
  live it hit := by
    have hne : it.addr ≠ a := fun heq => by
      have hlive := h.live it hit
      rw [heq, ha] at hlive
      cases hlive
    rw [Function.update_of_ne hne]
    exact h.live it hit
  at_live b key value bySet hb := by
    by_cases hne : b = a
    · rw [hne, Function.update_self] at hb
      cases hb
    · rw [Function.update_of_ne hne] at hb
      exact h.at_live b key value bySet hb

/-- The table stays as it is. -/
theorem Live.congr (h : Live life has log) (hhas : ∀ x, has' x ↔ has x) : Live life has' log where
  tells := h.tells
  live x hx := h.live x ((hhas x).1 hx)
  at_live a key value bySet ha :=
    (exists_congr fun x => and_congr_left fun _ => hhas x).2 (h.at_live a key value bySet ha)

end

/-- What an operation tells of the items. -/
structure Told (life life' : ℕ → Life K V) (has has' : Item K V → Prop) (op : Op K V)
    (ret : Option (Item K V)) (log : List (Event K V)) : Prop where
  live : Live life' has' log
  other : ∀ a, ¬ At has a → a ∉ op.brings → life' a = life a
  thrown : ∀ it, ret = some it → Thrown life' it
  got : ∀ key it, op = .get key → ret = some it → ¬ it.evicted &&& 2 ≠ 0
  owed : ∀ a key value, life' a = .out key value true →
    life a = .out key value true ∨ a ∈ (Instr.ret op ret).owes

section

variable {has has' : Item K V → Prop} {life : ℕ → Life K V} {log : List (Event K V)}
  {full : Prop} {ret : Option (Item K V)} {unlock : Bool}

/-- **An insertion of an absent key**: the new item is live, and another one may be thrown
out. -/
theorem told_inserts (nit : Item K V) (h : Live life has log)
    (hunique : ∀ x y, has x → has y → x.addr = y.addr → x = y)
    (hkeys : ∀ x y, has x → has y → x.key = y.key → x = y)
    (hflags : ∀ x, has x → x.evicted = 0 ∨ x.evicted = 1) (hnit : life nit.addr = .unborn)
    {direct : Option (Item K V)} (hdirect : ∀ it, direct = some it → it.evicted = 0 ∨ it.evicted = 1)
    (hins : Inserts has has' full nit true direct ret unlock) (op : Op K V)
    (hop : op.brings = [nit.addr]) :
    ∃ life', Told life life' has has' op ret
      (.stored nit.addr nit.key nit.value (nit.evicted = 1) :: log) := by
  have hget : ∀ key it, op = .get key → ret = some it → ¬ it.evicted &&& 2 ≠ 0 :=
    fun key it hget => by
      rw [hget] at hop
      cases hop
  cases hins with
  | free hroom hhas hret hunlock =>
      refine ⟨_, h.insert hnit hhas, fun a _ ha => ?_, fun it hit => ?_, hget,
        fun a key value ha => ?_⟩
      · rw [hop, List.mem_singleton] at ha
        exact Function.update_of_ne ha ..
      · exact Or.inl (not_thrown (hdirect it (hret.symm.trans hit)))
      · by_cases hne : a = nit.addr
        · rw [hne, Function.update_self] at ha
          cases ha
        · rw [Function.update_of_ne hne] at ha
          exact Or.inl ha
  | evict old hold hbucket hfull hreplace hhas hret hunlock =>
      have hne : nit.addr ≠ old.addr := fun heq => by
        rw [heq, h.live old hold] at hnit
        cases hnit
      have hout := h.remove (x := .out old.key old.value (old.evicted = 1)) hunique hkeys hold
        (fun x => Iff.rfl) [] (fun e he => absurd he List.not_mem_nil) (.out _ _ _)
        (fun _ _ _ heq => by cases heq)
      have hnit' : Function.update life old.addr (.out old.key old.value (old.evicted = 1)) nit.addr
          = .unborn := by rw [Function.update_of_ne hne, hnit]
      refine ⟨_, hout.insert hnit' hhas, fun a hat ha => ?_, fun it hit => ?_, hget,
        fun a key value ha => ?_⟩
      · rw [hop, List.mem_singleton] at ha
        rw [Function.update_of_ne ha, Function.update_of_ne fun heq => hat ⟨old, hold, heq.symm⟩]
      · rw [hret] at hit
        obtain rfl := Option.some.inj hit
        have hlife : ∀ x : Life K V, Function.update (Function.update life old.addr
            (.out old.key old.value (old.evicted = 1))) nit.addr x old.addr =
              .out old.key old.value (old.evicted = 1) := fun x => by
          rw [Function.update_of_ne hne.symm, Function.update_self]
        refine Or.inr ?_
        rcases hflags old hold with hflag | hflag
        · refine Or.inl ⟨by simp only [hflag]; decide, (hlife _).trans ?_⟩
          simp [hflag]
        · refine Or.inr ⟨by simp only [hflag]; decide, (hlife _).trans ?_⟩
          simp [hflag]
      · by_cases hna : a = nit.addr
        · rw [hna, Function.update_self] at ha
          cases ha
        · rw [Function.update_of_ne hna] at ha
          by_cases hoa : a = old.addr
          · rw [hoa, Function.update_self] at ha
            have hflag : old.evicted = 1 := by simpa using (Life.out.inj ha).2.2
            refine Or.inr ?_
            rw [hret, hoa, Instr.owes, if_pos (by simp only [hflag]; decide)]
            exact List.mem_cons_self
          · rw [Function.update_of_ne hoa] at ha
            exact Or.inl ha
  | fail hfull hreplace hhas hret hunlock => cases hreplace

end

section

variable [DecidableEq K] {cfg : Config K V σ} {table : Table N K V} {life : ℕ → Life K V}
  {log : List (Event K V)} {o : Outcome (Table N K V) K V}

theorem told_get (hver : cfg.version.Plain) (htable : table.Ok cfg.hash cfg.nbuckets)
    (h : Live life table.Has log) {key : K} (ho : cfg.call table (.get key) = some o) :
    ∃ life', Told life life' table.Has o.state.Has (.get key) o.ret (events o (.get key) ++ log) := by
  obtain ⟨hstate, hfreed, hunlock, hret⟩ := htable.get_spec hver key
  obtain rfl := Option.some.inj ho
  have hin : ∀ it, (table.get cfg.version cfg.nbuckets key (cfg.hash key)).ret = some it →
      ¬ it.evicted &&& 2 ≠ 0 := fun it hit => not_thrown (htable.evicted ((hret it).1 hit).1)
  refine ⟨life, ?_, fun _ _ _ => rfl, fun it hit => Or.inl (hin it hit), fun _ it _ hit => hin it hit,
    fun _ _ _ ha => Or.inl ha⟩
  rw [hstate]
  exact h

theorem told_put (hver : cfg.version.Plain) (halloc : cfg.writeAlloc = true)
    (htable : table.Ok cfg.hash cfg.nbuckets)
    (hunique : ∀ x y, table.Has x → table.Has y → x.addr = y.addr → x = y)
    (h : Live life table.Has log) {nit : Item K V} (hok : (Op.put nit).Ok cfg)
    (hnit : life nit.addr = .unborn) (ho : cfg.call table (.put nit) = some o) :
    ∃ life', Told life life' table.Has o.state.Has (.put nit) o.ret (events o (.put nit) ++ log) := by
  have hkeys : ∀ x y, table.Has x → table.Has y → x.key = y.key → x = y :=
    fun x y hx hy hxy => htable.eq_of_key hx hy hxy
  obtain ⟨o', ho', -, hputs⟩ := htable.put_spec hver nit hok
    (fun it hit haddr => by rw [← haddr, h.live it hit] at hnit; cases hnit) cfg.writeAlloc
  obtain rfl := Option.some.inj (ho.symm.trans ho')
  cases hputs with
  | update old hold hkey hfreed hret hunlock hhas =>
      have hne : nit.addr ≠ old.addr := fun heq => by
        rw [heq, h.live old hold] at hnit
        cases hnit
      have hdead := h.remove (x := .dead) hunique hkeys hold (fun x => Iff.rfl)
        [.freed old.addr, .overwritten old.addr]
        (fun e he => by rcases List.mem_pair.1 he with rfl | rfl <;> rfl) (.overwritten _ _ _)
        (fun _ _ _ heq => by cases heq)
      have hnit' : Function.update life old.addr .dead
          (nit.stored (bucketOf cfg.nbuckets nit.hv) 1).addr = .unborn := by
        exact (Function.update_of_ne hne ..).trans hnit
      have hevents : events o (.put nit) = [.stored nit.addr nit.key nit.value true,
          .freed old.addr, .overwritten old.addr] := by
        have hkey' : old.key = nit.key := hkey
        rw [events, hfreed, hret]
        simp [frees, hkey']
      rw [hevents]
      refine ⟨_, hdead.insert hnit' (fun x => ?_), fun a hat ha => ?_, fun it hit => ?_,
        fun _ _ hop => (by cases hop), fun a key value ha => ?_⟩
      · rw [hkey]
        exact hhas x
      · rw [Op.brings, List.mem_singleton] at ha
        refine (Function.update_of_ne ha ..).trans ?_
        exact Function.update_of_ne (fun heq => hat ⟨old, hold, heq.symm⟩) ..
      · rw [hret] at hit
        rw [← Option.some.inj hit]
        exact Or.inl (not_thrown (Or.inr rfl))
      · by_cases hna : a = (nit.stored (bucketOf cfg.nbuckets nit.hv) 1).addr
        · rw [hna, Function.update_self] at ha
          cases ha
        · rw [Function.update_of_ne hna] at ha
          by_cases hoa : a = old.addr
          · rw [hoa, Function.update_self] at ha
            cases ha
          · rw [Function.update_of_ne hoa] at ha
            exact Or.inl ha
  | insert habsent hfreed hins =>
      rw [halloc] at hins
      obtain ⟨life', htold⟩ := told_inserts (nit.stored (bucketOf cfg.nbuckets nit.hv) 1) h
        hunique hkeys
        (fun x hx => htable.evicted hx) hnit
        (fun it hit => by rw [← Option.some.inj hit]; exact Or.inr rfl) hins (.put nit) rfl
      have hevents : events o (.put nit) = [.stored nit.addr nit.key nit.value true] := by
        rw [events, hfreed, if_pos (hins.isSome rfl)]
        rfl
      rw [hevents]
      exact ⟨life', htold⟩

theorem told_putOrGet (hver : cfg.version.Plain) (htable : table.Ok cfg.hash cfg.nbuckets)
    (hunique : ∀ x y, table.Has x → table.Has y → x.addr = y.addr → x = y)
    (h : Live life table.Has log) {nit : Item K V} (hok : (Op.putOrGet nit).Ok cfg)
    (hnit : life nit.addr = .unborn) (ho : cfg.call table (.putOrGet nit) = some o) :
    ∃ life', Told life life' table.Has o.state.Has (.putOrGet nit) o.ret
      (events o (.putOrGet nit) ++ log) := by
  have hkeys : ∀ x y, table.Has x → table.Has y → x.key = y.key → x = y :=
    fun x y hx hy hxy => htable.eq_of_key hx hy hxy
  obtain ⟨o', ho', -, hputs⟩ := htable.putOrGet_spec hver nit hok
    (fun it hit haddr => by rw [← haddr, h.live it hit] at hnit; cases hnit) true
  obtain rfl := Option.some.inj (ho.symm.trans ho')
  cases hputs with
  | exist old hold hkey hb hfreed hret hunlock hhas =>
      have hevents : events o (.putOrGet nit) = [.freed nit.addr] := by
        obtain ⟨it, hit, haddr⟩ := List.map_eq_singleton_iff.1 hfreed
        have haddr' : it.addr = nit.addr := haddr
        rw [events, hit, ← haddr']
        rfl
      rw [hevents]
      refine ⟨_, (h.refuse hnit).congr hhas, fun a _ ha => ?_, fun it hit => ?_,
        fun _ _ hop => (by cases hop), fun a key value ha => ?_⟩
      · rw [Op.brings, List.mem_singleton] at ha
        exact Function.update_of_ne ha ..
      · rw [hret] at hit
        rw [← Option.some.inj hit]
        exact Or.inl (not_thrown (htable.evicted hold))
      · by_cases hna : a = nit.addr
        · rw [hna, Function.update_self] at ha
          cases ha
        · rw [Function.update_of_ne hna] at ha
          exact Or.inl ha
  | insert habsent hfreed hins =>
      obtain ⟨life', htold⟩ := told_inserts (nit.stored (bucketOf cfg.nbuckets nit.hv) 0) h
        hunique hkeys
        (fun x hx => htable.evicted hx) hnit
        (fun it (hit : none = some it) => by cases hit) hins (.putOrGet nit) rfl
      have hevents : events o (.putOrGet nit) = [.stored nit.addr nit.key nit.value false] := by
        rw [events, hfreed]
        rfl
      rw [hevents]
      exact ⟨life', htold⟩

theorem told_delete (hver : cfg.version.Plain) (htable : table.Ok cfg.hash cfg.nbuckets)
    (hunique : ∀ x y, table.Has x → table.Has y → x.addr = y.addr → x = y)
    (h : Live life table.Has log) {key : K} (ho : cfg.call table (.delete key) = some o) :
    ∃ life', Told life life' table.Has o.state.Has (.delete key) o.ret
      (events o (.delete key) ++ log) := by
  have hkeys : ∀ x y, table.Has x → table.Has y → x.key = y.key → x = y :=
    fun x y hx hy hxy => htable.eq_of_key hx hy hxy
  obtain ⟨o', ho', -, hret, hunlock, hfreed, hlength, hhas⟩ := htable.delete_spec hver key
  obtain rfl := Option.some.inj (ho.symm.trans ho')
  have hthrown : ∀ (life' : ℕ → Life K V) it, o.ret = some it → Thrown life' it :=
    fun _ it hit => by
      rw [hret] at hit
      cases hit
  match hlist : o.freed with
  | [] =>
      have hevents : events o (.delete key) = [] := by
        rw [events, hlist]
        rfl
      rw [hevents]
      refine ⟨life, h.congr fun x => (hhas x).trans (and_iff_left_of_imp fun hx hkey => ?_),
        fun _ _ _ => rfl, hthrown life, fun _ _ hop => (by cases hop), fun _ _ _ ha => Or.inl ha⟩
      have hmem := (hfreed x).2 ⟨hx, hkey⟩
      rw [hlist] at hmem
      cases hmem
  | [old] =>
      obtain ⟨hold, hkey⟩ := (hfreed old).1 (by rw [hlist]; exact List.mem_cons_self)
      have hevents : events o (.delete key) = [.freed old.addr, .deleted old.addr] := by
        rw [events, hlist]
        simp [frees, hkey]
      rw [hevents]
      have hdead := h.remove (x := .dead) hunique hkeys hold
        (hkey ▸ hhas) [.freed old.addr, .deleted old.addr]
        (fun e he => by rcases List.mem_pair.1 he with rfl | rfl <;> rfl) (.deleted _ _ _)
        (fun _ _ _ heq => by cases heq)
      refine ⟨_, hdead, fun a hat _ => ?_, hthrown _, fun _ _ hop => (by cases hop),
        fun a key value ha => ?_⟩
      · exact Function.update_of_ne (fun heq => hat ⟨old, hold, heq.symm⟩) ..
      · by_cases hoa : a = old.addr
        · rw [hoa, Function.update_self] at ha
          cases ha
        · rw [Function.update_of_ne hoa] at ha
          exact Or.inl ha
  | _ :: _ :: _ =>
      rw [hlist] at hlength
      simp at hlength

end

end Flows
end Cache
end Floem
