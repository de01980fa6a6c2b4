import Floem.Cache.Ownership

/-!
# What the operations do to locks and items

* `owns_inserts` — an insertion moves its item into the table, and another one out of it.
* `Called` — what the invariant needs to know of an operation.
* `called_get`, `called_put`, `called_putOrGet`, `called_delete` — one lemma for each operation.
-/

namespace Floem
namespace Cache
namespace Flows

open Lib

variable {K V T σ : Type*} {N : ℕ} (cfg : Config K V σ)

/-! ## The operations on the table -/

section

variable {has has' : Item K V → Prop} {old nit : Item K V}

/-- An item was taken out. -/
theorem at_remove (hunique : ∀ x y, has x → has y → x.addr = y.addr → x = y)
    (hkeys : ∀ x y, has x → has y → x.key = y.key → x = y) (hold : has old)
    (h : ∀ x, has' x ↔ has x ∧ x.key ≠ old.key) (a : ℕ) :
    At has' a ↔ At has a ∧ a ≠ old.addr := by
  constructor
  · rintro ⟨x, hx, rfl⟩
    obtain ⟨hx, hkey⟩ := (h x).1 hx
    refine ⟨⟨x, hx, rfl⟩, fun haddr => hkey ?_⟩
    rw [hunique x old hx hold haddr]
  · rintro ⟨⟨x, hx, rfl⟩, hne⟩
    refine ⟨x, (h x).2 ⟨hx, fun hkey => hne ?_⟩, rfl⟩
    rw [hkeys x old hx hold hkey]

/-- An item was put in. -/
theorem at_insert (h : ∀ x, has' x ↔ has x ∨ x = nit) (a : ℕ) :
    At has' a ↔ At has a ∨ a = nit.addr := by
  constructor
  · rintro ⟨x, hx, rfl⟩
    rcases (h x).1 hx with hx | rfl
    · exact Or.inl ⟨x, hx, rfl⟩
    · exact Or.inr rfl
  · rintro (⟨x, hx, rfl⟩ | rfl)
    · exact ⟨x, (h x).2 (Or.inl hx), rfl⟩
    · exact ⟨nit, (h nit).2 (Or.inr rfl), rfl⟩

/-- An item took the place of another. -/
theorem at_replace (hunique : ∀ x y, has x → has y → x.addr = y.addr → x = y)
    (hkeys : ∀ x y, has x → has y → x.key = y.key → x = y) (hold : has old)
    (hfresh : ¬ At has nit.addr) (h : ∀ x, has' x ↔ has x ∧ x.key ≠ old.key ∨ x = nit) (a : ℕ) :
    At has' a ↔ (At has a ∨ a = nit.addr) ∧ a ≠ old.addr := by
  have hmid := at_remove hunique hkeys hold (fun x => Iff.rfl) a
  rw [at_insert h a, hmid, or_and_right]
  refine or_congr_right ⟨fun ha => ⟨ha, fun heq => hfresh ?_⟩, And.left⟩
  exact ⟨old, hold, by rw [← heq, ha]⟩

/-- No two items have one address. -/
theorem unique_of_old_or_new (hunique : ∀ x y, has x → has y → x.addr = y.addr → x = y)
    (hfresh : ¬ At has nit.addr) (h : ∀ {x}, has' x → has x ∨ x = nit) :
    ∀ x y, has' x → has' y → x.addr = y.addr → x = y := by
  intro x y hx hy haddr
  rcases h hx with hx | rfl <;> rcases h hy with hy | rfl
  · exact hunique x y hx hy haddr
  · exact absurd ⟨x, hx, haddr⟩ hfresh
  · exact absurd ⟨y, hy, haddr.symm⟩ hfresh
  · rfl

theorem thrownOut_inTable {it : Item K V} (h : it.evicted = 0 ∨ it.evicted = 1) :
    thrownOut it = [] := by
  refine thrownOut_of_eq ?_
  rcases h with h | h <;> rw [h] <;> decide

theorem thrownOut_evicted {it : Item K V} (h : it.evicted = 0 ∨ it.evicted = 1) :
    thrownOut { it with evicted := it.evicted ||| 2 } = [it.addr] := by
  refine thrownOut_of_ne ?_
  rcases h with h | h <;> simp only [h] <;> decide

variable [DecidableEq T] {own : ℕ → Place T} {hands : T → List ℕ} {freed : List ℕ} {fresh : ℕ}
  {full : Prop} {replace unlock : Bool} {direct ret : Option (Item K V)} {t : T}

/-- **An insertion of an absent key**: the item goes into the table, and one that is thrown
out into the hands of the flow. -/
theorem owns_inserts (hown : Owns own (At has) hands freed fresh) (ht : hands t = [nit.addr])
    (hunique : ∀ x y, has x → has y → x.addr = y.addr → x = y)
    (hkeys : ∀ x y, has x → has y → x.key = y.key → x = y)
    (hflags : ∀ x, has x → x.evicted = 0 ∨ x.evicted = 1)
    (hdirect : ∀ it, direct = some it → thrownOut it = [])
    (h : Inserts has has' full nit replace direct ret unlock) (op : Op K V) :
    ∃ own', Owns own' (At has') (Function.update hands t (Instr.ret op ret).hands) freed fresh ∧
      ((full → replace = true) → (∀ a, own a ≠ .lost) → ∀ a, own' a ≠ .lost) := by
  cases h with
  | free hroom hhas hret hunlock =>
      have hempty : (Instr.ret op ret).hands = [] := by
        rw [hret]
        cases direct with
        | none => rfl
        | some it => exact hdirect it rfl
      rw [hempty]
      exact ⟨_, (hown.insert ht).congr (at_insert hhas) (fun _ => rfl) rfl,
        fun _ => update_ne_lost (fun heq => by cases heq)⟩
  | evict old hold hbucket hfull hreplace hhas hret hunlock =>
      have hfresh : ¬ At has nit.addr := fun hat =>
        (hown.apart nit.addr).store_hands hat t (Owns.mem_hands ht)
      have hins := hown.insert ht
      have hout := hins.takeOut (Or.inl ⟨old, hold, rfl⟩) t
      have hhands : (Instr.ret op ret).hands = [old.addr] := by
        rw [hret, Instr.hands, thrownOut_evicted (hflags old hold)]
      rw [Function.update_idem, Function.update_self] at hout
      rw [hhands]
      exact ⟨_, hout.congr (at_replace hunique hkeys hold hfresh hhas) (fun _ => rfl) rfl,
        fun _ hlost => update_ne_lost (fun heq => by cases heq) (update_ne_lost (fun heq => by cases heq) hlost)⟩
  | fail hfull hreplace hhas hret hunlock =>
      refine ⟨Function.update own nit.addr .lost, ?_, fun hkept => ?_⟩
      · rw [hret]
        refine (hown.lose ht).congr (fun a => ?_) (fun _ => rfl) rfl
        exact exists_congr fun x => and_congr_left fun _ => hhas x
      · rw [hkept hfull] at hreplace
        cases hreplace

end

/-- The lock is kept for the item that is returned. -/
theorem locks_body [DecidableEq T] {lock : ℕ → Option T} {held : T → List ℕ} {t : T} {idx : ℕ}
    (h : Locks lock held) (ht : held t = [idx]) {ret : Option (Item K V)}
    (hbucket : ∀ it, ret = some it → it.bucket = some idx) (index : K → ℕ) (op : Op K V) :
    Locks (if ret.isNone then Function.update lock idx none else lock)
      (Function.update held t ((Instr.ret op ret).holds index)) := by
  cases ret with
  | none => exact h.drop ht
  | some it =>
      have hholds : (Instr.ret op (some it)).holds index = held t := by
        rw [ht, Instr.holds, hbucket it rfl]
        rfl
      rw [hholds, Function.update_eq_self]
      exact h

theorem freedIn_append (l l' : List (Event K V)) :
    freedIn (l ++ l') = freedIn l ++ freedIn l' :=
  List.filterMap_append

/-- The events tell what was freed. -/
theorem freedIn_events [DecidableEq K] {o : Outcome (Table N K V) K V} {op : Op K V}
    (hget : ∀ key, op = .get key → o.freed = []) :
    freedIn (events o op) = o.freed.map Item.addr := by
  have hflat : ∀ (key : K) (tells : ℕ → Event K V) (l : List (Item K V)),
      (∀ a, freedIn [tells a] = []) → freedIn (frees key tells l) = l.map Item.addr := by
    intro key tells l htells
    unfold frees
    induction l with
    | nil => rfl
    | cons it l ih =>
        rw [List.flatMap_cons, freedIn_append, ih, List.map_cons]
        change freedIn ([.freed it.addr] ++ if it.key = key then [tells it.addr] else []) ++ _ = _
        rw [freedIn_append]
        split_ifs
        · rw [htells]
          rfl
        · rfl
  have hmap : ∀ l : List (Item K V),
      freedIn (l.map fun it => (.freed it.addr : Event K V)) = l.map Item.addr := by
    intro l
    induction l with
    | nil => rfl
    | cons it l ih => exact congrArg _ ih
  cases op with
  | get key =>
      rw [hget key rfl]
      rfl
  | put nit =>
      rw [events, freedIn_append, hflat _ _ _ fun _ => rfl]
      split_ifs <;> rfl
  | putOrGet nit =>
      rw [events, freedIn_append, hmap]
      split_ifs <;> rfl
  | delete key => exact hflat _ _ _ fun _ => rfl

/-- What an operation does to the locks and items. -/
structure Called [DecidableEq T] (cfg : Config K V σ) (kept : Prop) (hands : T → List ℕ)
    (freed : List ℕ) (fresh : ℕ) (t : T) (op : Op K V) (o : Outcome (Table N K V) K V) : Prop where
  table : o.state.Ok cfg.hash cfg.nbuckets
  unique : ∀ x y, o.state.Has x → o.state.Has y → x.addr = y.addr → x = y
  unlock : o.unlock = o.ret.isNone
  bucket : ∀ it, o.ret = some it → it.bucket = some (cfg.index op.key)
  ret : (Instr.ret op o.ret).Ok cfg
  no_get : ∀ key, op = .get key → o.freed = []
  owns : ∃ own, Owns own (At o.state.Has) (Function.update hands t (Instr.ret op o.ret).hands)
      (o.freed.map Item.addr ++ freed) fresh ∧ (kept → ∀ a, own a ≠ .lost)

section

variable [DecidableEq T] [DecidableEq K] {cfg} {kept : Prop} {table : Table N K V} {own : ℕ → Place T}
  {hands : T → List ℕ} {freed : List ℕ} {fresh : ℕ} {t : T}

theorem called_get (hver : cfg.version.Plain) (htable : table.Ok cfg.hash cfg.nbuckets)
    (hunique : ∀ x y, table.Has x → table.Has y → x.addr = y.addr → x = y)
    (hown : Owns own (At table.Has) hands freed fresh) (hlost : kept → ∀ a, own a ≠ .lost)
    (key : K) (ht : hands t = []) :
    ∃ o, cfg.call table (.get key) = some o ∧ Called cfg kept hands freed fresh t (.get key) o := by
  obtain ⟨hstate, hfreed, hunlock, hret⟩ := htable.get_spec hver key
  have hbucket : ∀ it, (table.get cfg.version cfg.nbuckets key (cfg.hash key)).ret = some it →
      it.bucket = some (cfg.index key) := fun it hit => by
    obtain ⟨hhas, hkey⟩ := (hret it).1 hit
    rw [htable.bucket hhas, hkey]
    rfl
  refine ⟨_, rfl, by rwa [hstate], by rwa [hstate], hunlock, hbucket, ?_, fun _ _ => hfreed, own,
    ?_, hlost⟩
  · cases hit : (table.get cfg.version cfg.nbuckets key (cfg.hash key)).ret with
    | none => trivial
    | some it => exact hbucket it hit
  · have hhands : (Instr.ret (.get key)
        (table.get cfg.version cfg.nbuckets key (cfg.hash key)).ret).hands = hands t := by
      rw [ht]
      cases hit : (table.get cfg.version cfg.nbuckets key (cfg.hash key)).ret with
      | none => rfl
      | some it => exact thrownOut_inTable (htable.evicted ((hret it).1 hit).1)
    rw [hstate, hfreed, hhands, Function.update_eq_self]
    exact hown

theorem called_put (hver : cfg.version.Plain) (htable : table.Ok cfg.hash cfg.nbuckets)
    (hunique : ∀ x y, table.Has x → table.Has y → x.addr = y.addr → x = y)
    (hown : Owns own (At table.Has) hands freed fresh) (hlost : kept → ∀ a, own a ≠ .lost)
    {nit : Item K V} (hnit : (Op.put nit).Ok cfg) (ht : hands t = [nit.addr])
    (hkept : kept → cfg.writeAlloc = false → table.FullAt cfg.hash cfg.nbuckets nit.key →
      ∃ it, table.Has it ∧ it.key = nit.key) :
    ∃ o, cfg.call table (.put nit) = some o ∧ Called cfg kept hands freed fresh t (.put nit) o := by
  have hnot : ¬ At table.Has nit.addr := fun hat =>
    (hown.apart nit.addr).store_hands hat t (Owns.mem_hands ht)
  obtain ⟨o, ho, hok, hputs⟩ := htable.put_spec hver nit hnit
    (fun it hit haddr => hnot ⟨it, hit, haddr⟩) cfg.writeAlloc
  have hstored : ¬ At table.Has (nit.stored (bucketOf cfg.nbuckets nit.hv) 1).addr := hnot
  have hhand : hands t = [(nit.stored (bucketOf cfg.nbuckets nit.hv) 1).addr] := ht
  have hbucket : ∀ it, o.ret = some it → it.bucket = some (cfg.index nit.key) := fun it hit => by
    rw [hputs.lock.2 it hit, Config.index, ← hnit]
    rfl
  refine ⟨o, ho, hok, unique_of_old_or_new hunique hstored hputs.old_or_new, hputs.lock.1, hbucket, ?_,
    nofun, ?_⟩
  · cases hit : o.ret with
    | none => trivial
    | some it => exact hbucket it hit
  · cases hputs with
    | update old hold hkey hfreed hret hunlock hhas =>
        have hmid := (hown.insert hhand).freeStored (Or.inl ⟨old, hold, rfl⟩)
        have hhands : (Instr.ret (.put nit) o.ret).hands = [] := by
          rw [hret]
          exact thrownOut_inTable (Or.inr rfl)
        rw [hhands, hfreed]
        refine ⟨_, hmid.congr (at_replace hunique ?_ hold hstored ?_) (fun _ => rfl) rfl, ?_⟩
        · exact fun x y hx hy hxy => htable.eq_of_key hx hy hxy
        · rw [hkey]
          exact hhas
        · exact fun hk => update_ne_lost (fun heq => by cases heq) (update_ne_lost (fun heq => by cases heq) (hlost hk))
    | insert habsent hfreed hins =>
        rw [hfreed]
        have hdirect : ∀ it, some (nit.stored (bucketOf cfg.nbuckets nit.hv) 1) = some it →
            thrownOut it = [] := fun it hit => by
          rw [← Option.some.inj hit]
          exact thrownOut_inTable (Or.inr rfl)
        obtain ⟨own', hown', hlost'⟩ := owns_inserts hown hhand hunique
          (fun x y hx hy hxy => htable.eq_of_key hx hy hxy) (fun x hx => htable.evicted hx)
          hdirect hins (.put nit)
        refine ⟨own', hown', fun hk => hlost' (fun hfull => ?_) (hlost hk)⟩
        cases halloc : cfg.writeAlloc with
        | true => rfl
        | false =>
            obtain ⟨it, hit, hkey⟩ := hkept hk halloc hfull
            exact absurd hkey (habsent it hit)

theorem called_putOrGet (hver : cfg.version.Plain) (htable : table.Ok cfg.hash cfg.nbuckets)
    (hunique : ∀ x y, table.Has x → table.Has y → x.addr = y.addr → x = y)
    (hown : Owns own (At table.Has) hands freed fresh) (hlost : kept → ∀ a, own a ≠ .lost)
    {nit : Item K V} (hnit : (Op.putOrGet nit).Ok cfg) (ht : hands t = [nit.addr]) :
    ∃ o, cfg.call table (.putOrGet nit) = some o ∧
      Called cfg kept hands freed fresh t (.putOrGet nit) o := by
  have hnot : ¬ At table.Has nit.addr := fun hat =>
    (hown.apart nit.addr).store_hands hat t (Owns.mem_hands ht)
  obtain ⟨o, ho, hok, hputs⟩ := htable.putOrGet_spec hver nit hnit
    (fun it hit haddr => hnot ⟨it, hit, haddr⟩) true
  have hstored : ¬ At table.Has (nit.stored (bucketOf cfg.nbuckets nit.hv) 0).addr := hnot
  have hhand : hands t = [(nit.stored (bucketOf cfg.nbuckets nit.hv) 0).addr] := ht
  have hbucket : ∀ it, o.ret = some it → it.bucket = some (cfg.index nit.key) := fun it hit => by
    rw [hputs.lock.2 it hit, Config.index, ← hnit]
    rfl
  refine ⟨o, ho, hok, unique_of_old_or_new hunique hstored hputs.old_or_new, hputs.lock.1, hbucket, ?_,
    nofun, ?_⟩
  · cases hit : o.ret with
    | none => trivial
    | some it => exact hbucket it hit
  · cases hputs with
    | exist old hold hkey hb hfreed hret hunlock hhas =>
        have hhands : (Instr.ret (.putOrGet nit) o.ret).hands = [] := by
          rw [hret]
          exact thrownOut_inTable (htable.evicted hold)
        rw [hhands, hfreed]
        refine ⟨_, (hown.freeHands ht).congr (fun a => ?_) (fun _ => rfl) rfl, ?_⟩
        · exact exists_congr fun x => and_congr_left fun _ => hhas x
        · exact fun hk => update_ne_lost (fun heq => by cases heq) (hlost hk)
    | insert habsent hfreed hins =>
        rw [hfreed]
        obtain ⟨own', hown', hlost'⟩ := owns_inserts hown hhand hunique
          (fun x y hx hy hxy => htable.eq_of_key hx hy hxy) (fun x hx => htable.evicted hx)
          (fun it (hit : none = some it) => by cases hit) hins (.putOrGet nit)
        exact ⟨own', hown', fun hk => hlost' (fun _ => rfl) (hlost hk)⟩

theorem called_delete (hver : cfg.version.Plain) (htable : table.Ok cfg.hash cfg.nbuckets)
    (hunique : ∀ x y, table.Has x → table.Has y → x.addr = y.addr → x = y)
    (hown : Owns own (At table.Has) hands freed fresh) (hlost : kept → ∀ a, own a ≠ .lost)
    (key : K) (ht : hands t = []) :
    ∃ o, cfg.call table (.delete key) = some o ∧
      Called cfg kept hands freed fresh t (.delete key) o := by
  obtain ⟨o, ho, hok, hret, hunlock, hfreed, hlength, hhas⟩ := htable.delete_spec hver key
  have hhands : (Instr.ret (.delete key) o.ret).hands = hands t := by
    rw [hret, ht]
    rfl
  refine ⟨o, ho, hok, ?_, ?_, ?_, ?_, nofun, ?_⟩
  · exact fun x y hx hy => hunique x y ((hhas x).1 hx).1 ((hhas y).1 hy).1
  · rw [hret, hunlock]
    rfl
  · exact fun it hit => by rw [hret] at hit; cases hit
  · rw [hret]
    trivial
  · rw [hhands, Function.update_eq_self]
    match hlist : o.freed with
    | [] =>
        refine ⟨own, hown.congr (fun a => ?_) (fun _ => rfl) rfl, hlost⟩
        refine exists_congr fun x => and_congr_left fun _ => (hhas x).trans ?_
        refine and_iff_left_of_imp fun hx hkey => ?_
        have hmem := (hfreed x).2 ⟨hx, hkey⟩
        rw [hlist] at hmem
        cases hmem
    | [old] =>
        obtain ⟨hold, hkey⟩ := (hfreed old).1 (by rw [hlist]; exact List.mem_cons_self)
        refine ⟨_, (hown.freeStored ⟨old, hold, rfl⟩).congr (at_remove hunique ?_ hold ?_)
          (fun _ => rfl) rfl, fun hk => update_ne_lost (fun heq => by cases heq) (hlost hk)⟩
        · exact fun x y hx hy hxy => htable.eq_of_key hx hy hxy
        · rw [hkey]
          exact hhas
    | _ :: _ :: _ =>
        rw [hlist] at hlength
        simp at hlength

end

end Flows
end Cache
end Floem
