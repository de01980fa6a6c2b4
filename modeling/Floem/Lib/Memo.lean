import Mathlib

/-!
# Searches that note their results

A recursive search of a graph notes its result at every node, and returns the note when it
comes to the node again, whatever it is entered by.

* `Rules`, `visit` — the search, with the order in which nodes are entered.
* `Settled` — a note is what the rules make of the notes at the children of an entry.
* `visit_settles` — on an acyclic graph all notes are settled when the search returns, and it
  only raises an exception where the rules do.
* `wellFounded_of_acyclic` — induction along the edges of a finite acyclic graph.
-/

namespace Floem
namespace Lib

open Relation

/-- Why a search does not return. -/
inductive Halt
  | fuel
  | raised
  deriving DecidableEq, Repr

/-- The rules of a search.  An entry `α` is a node `κ` with how the search got there; `none`
stands for an exception. -/
structure Rules (α κ ρ : Type*) where
  key : α → κ
  /-- The nodes at which the search returns at once. -/
  stop : κ → Option ρ
  children : α → Option (List α)
  /-- The note while the children are visited. -/
  pending : ρ
  /-- The results of the children are added to this one after the other. -/
  init : ρ
  add : ρ → ρ → Option ρ
  finish : α → ρ → Option ρ

/-- The notes, and the entries in the order of the search. -/
structure Memo (α κ ρ : Type*) where
  vis : κ → Option ρ
  log : List α

variable {α κ ρ : Type*}

namespace Rules

variable (R : Rules α κ ρ)

/-- The result `none` is an exception. -/
def raised {β : Type*} : Option β → Except Halt β
  | some b => .ok b
  | none => .error .raised

/-- The loop over the children. -/
def loop (visit : α → Memo α κ ρ → Except Halt (ρ × Memo α κ ρ)) :
    ρ → List α → Memo α κ ρ → Except Halt (ρ × Memo α κ ρ)
  | acc, [], s => .ok (acc, s)
  | acc, a :: as, s =>
    match visit a s with
    | .error e => .error e
    | .ok (r, s) =>
      match R.add acc r with
      | none => .error .raised
      | some acc => loop visit acc as s

/-- The node of an entry is worked on. -/
def enter [DecidableEq κ] (s : Memo α κ ρ) (a : α) : Memo α κ ρ :=
  ⟨Function.update s.vis (R.key a) (some R.pending), s.log ++ [a]⟩

/-- The result at the node of an entry is noted. -/
def leave [DecidableEq κ] (s : Memo α κ ρ) (a : α) (r : ρ) : Memo α κ ρ :=
  ⟨Function.update s.vis (R.key a) (some r), s.log⟩

/-- The search from an entry. -/
def visit [DecidableEq κ] : ℕ → α → Memo α κ ρ → Except Halt (ρ × Memo α κ ρ)
  | 0, _, _ => .error .fuel
  | n + 1, a, s =>
    match s.vis (R.key a) with
    | some r => .ok (r, s)
    | none =>
      match R.stop (R.key a) with
      | some r => .ok (r, s)
      | none =>
        match R.children a with
        | none => .error .raised
        | some as =>
          match R.loop (visit n) R.init as (R.enter s a) with
          | .error e => .error e
          | .ok (acc, s) =>
            match R.finish a acc with
            | none => .error .raised
            | some r => .ok (r, R.leave s a r)

/-- The result at a node. -/
def val (vis : κ → Option ρ) (k : κ) : Option ρ := (R.stop k).elim (vis k) some

/-- The results at the children, added up. -/
def fold (vis : κ → Option ρ) : ρ → List α → Option ρ
  | acc, [] => some acc
  | acc, a :: as =>
    (R.val vis (R.key a)).bind fun r => (R.add acc r).bind fun acc => fold vis acc as

/-- The search goes on from one entry to the other. -/
def Child (a b : α) : Prop := R.stop (R.key a) = none ∧ ∃ as, R.children a = some as ∧ b ∈ as

/-- From an entry of the search to a child of it. -/
def Step (log : List α) (a b : α) : Prop := a ∈ log ∧ R.Child a b

/-- The note at a node is the result of an entry of the search there. -/
def Settled (s : Memo α κ ρ) (k : κ) (r : ρ) : Prop :=
  ∃ a ∈ s.log, R.key a = k ∧ R.stop k = none ∧ ∃ as acc, R.children a = some as ∧
    R.fold s.vis R.init as = some acc ∧ R.finish a acc = some r

/-- What is assumed of the entries `P` a search can come to: the children are such entries, and
the nodes are the finitely many nodes of an acyclic graph. -/
structure Walks (P : α → Prop) (hop : κ → κ → Prop) (nodes : List κ) : Prop where
  closed : ∀ a b, P a → R.Child a b → P b ∧ hop (R.key a) (R.key b)
  acyclic : ∀ a, P a → ¬ TransGen hop (R.key a) (R.key a)
  known : ∀ a, P a → R.key a ∈ nodes

/-- The rules raise no exception when the results are in `V`; `A` holds for the sum of as many
results. -/
structure Total (P : α → Prop) (V : ρ → Prop) (A : ℕ → ρ → Prop) : Prop where
  stop : ∀ k r, R.stop k = some r → V r
  init : A 0 R.init
  add : ∀ i acc r, A i acc → V r → ∃ acc', R.add acc r = some acc' ∧ A (i + 1) acc'
  children : ∀ a, P a → R.stop (R.key a) = none → ∃ as, R.children a = some as
  finish : ∀ a as acc, P a → R.stop (R.key a) = none → R.children a = some as →
    A as.length acc → ∃ r, R.finish a acc = some r ∧ V r

/-- Every entry is noted, and at a node there is one entry. -/
structure Neat (s : Memo α κ ρ) : Prop where
  noted : ∀ a ∈ s.log, s.vis (R.key a) ≠ none
  once : ∀ a ∈ s.log, ∀ b ∈ s.log, R.key a = R.key b → a = b

section Spec

variable (P : α → Prop) (hop : κ → κ → Prop) (nodes : List κ) (V : ρ → Prop) (A : ℕ → ρ → Prop)

/-- The search may come to an entry: what is noted is settled, or is on the way to it. -/
structure Ready (n : ℕ) (s : Memo α κ ρ) (a : α) : Prop where
  entry : P a
  neat : R.Neat s
  depth : (nodes.filter fun k => (s.vis k).isNone).length < n
  vis : ∀ k r, s.vis k = some r → R.stop k = none ∧
    ((R.Settled s k r ∧ (R.Total P V A → V r)) ∨ TransGen hop k (R.key a))

/-- What the search from the entries `start` does. -/
structure Visited (start : α → Prop) (s t : Memo α κ ρ) : Prop where
  neat : R.Neat t
  keep : ∀ k r, s.vis k = some r → t.vis k = some r
  log : ∀ a ∈ s.log, a ∈ t.log
  origin : ∀ a ∈ t.log, a ∈ s.log ∨ ∃ b, start b ∧ ReflTransGen (R.Step t.log) b a
  new : ∀ k r, t.vis k = some r → s.vis k = some r ∨
    R.Settled t k r ∧ (R.Total P V A → V r)

variable {R P hop nodes V A}

theorem fold_mono {vis vis' : κ → Option ρ} {as : List α} {acc acc' : ρ}
    (h : ∀ a ∈ as, ∀ r, R.val vis (R.key a) = some r → R.val vis' (R.key a) = some r)
    (hfold : R.fold vis acc as = some acc') : R.fold vis' acc as = some acc' := by
  induction as generalizing acc with
  | nil => exact hfold
  | cons a as ih =>
      obtain ⟨r, hr, hrest⟩ := Option.bind_eq_some_iff.1 hfold
      obtain ⟨acc₁, hacc, hrest⟩ := Option.bind_eq_some_iff.1 hrest
      rw [fold, h a List.mem_cons_self r hr, Option.bind_some, hacc, Option.bind_some]
      exact ih (fun b hb => h b (List.mem_cons_of_mem a hb)) hrest

theorem val_mono {vis vis' : κ → Option ρ} (h : ∀ k r, vis k = some r → vis' k = some r) {k : κ}
    {r : ρ} (hr : R.val vis k = some r) : R.val vis' k = some r := by
  rw [val] at hr ⊢
  cases hstop : R.stop k with
  | some r' => rwa [hstop] at hr
  | none =>
      rw [hstop] at hr
      exact h k r hr

theorem val_of_stop_none {vis : κ → Option ρ} {k : κ} (h : R.stop k = none) :
    R.val vis k = vis k := by
  rw [val, h]
  rfl

/-- Every child has a result. -/
theorem val_of_fold {vis : κ → Option ρ} {as : List α} {acc acc' : ρ}
    (h : R.fold vis acc as = some acc') {a : α} (ha : a ∈ as) :
    ∃ r, R.val vis (R.key a) = some r := by
  induction as generalizing acc with
  | nil => cases ha
  | cons b as ih =>
      obtain ⟨r, hr, h⟩ := Option.bind_eq_some_iff.1 h
      obtain ⟨acc₁, -, h⟩ := Option.bind_eq_some_iff.1 h
      rcases List.mem_cons.1 ha with rfl | ha
      · exact ⟨r, hr⟩
      · exact ih h ha

theorem Settled.mono {s t : Memo α κ ρ} {k : κ} {r : ρ} (h : R.Settled s k r)
    (hlog : ∀ a ∈ s.log, a ∈ t.log) (hvis : ∀ k r, s.vis k = some r → t.vis k = some r) :
    R.Settled t k r := by
  obtain ⟨a, ha, hkey, hstop, as, acc, has, hfold, hfinish⟩ := h
  exact ⟨a, hlog a ha, hkey, hstop, as, acc, has,
    fold_mono (fun _ _ _ => val_mono hvis) hfold, hfinish⟩

theorem Step.mono {log log' : List α} (h : ∀ a ∈ log, a ∈ log') {a b : α}
    (hstep : R.Step log a b) : R.Step log' a b := ⟨h a hstep.1, hstep.2⟩

namespace Visited

variable {start : α → Prop} {s t u : Memo α κ ρ}

theorem refl (h : R.Neat s) : R.Visited P V A start s s :=
  ⟨h, fun _ _ h => h, fun _ h => h, fun _ h => Or.inl h, fun _ _ h => Or.inl h⟩

theorem trans {start' : α → Prop} (h : R.Visited P V A start s t)
    (h' : R.Visited P V A start' t u) : R.Visited P V A (fun a => start a ∨ start' a) s u where
  neat := h'.neat
  keep k r hr := h'.keep k r (h.keep k r hr)
  log a ha := h'.log a (h.log a ha)
  origin a ha := by
    rcases h'.origin a ha with ha | ⟨b, hb, hpath⟩
    · rcases h.origin a ha with ha | ⟨b, hb, hpath⟩
      · exact Or.inl ha
      · refine Or.inr ⟨b, Or.inl hb, ReflTransGen.mono (fun _ _ => Step.mono h'.log) _ _ hpath⟩
    · exact Or.inr ⟨b, Or.inr hb, hpath⟩
  new k r hr := by
    rcases h'.new k r hr with hr | hr
    · exact (h.new k r hr).imp_right fun hr => ⟨hr.1.mono h'.log h'.keep, hr.2⟩
    · exact Or.inr hr

theorem mono {start' : α → Prop} (h : R.Visited P V A start s t)
    (hstart : ∀ a, start a → start' a) : R.Visited P V A start' s t where
  neat := h.neat
  keep := h.keep
  log := h.log
  origin a ha := (h.origin a ha).imp_right fun ⟨b, hb, hpath⟩ => ⟨b, hstart b hb, hpath⟩
  new := h.new

end Visited

/-- There is less left. -/
theorem length_left_le {vis vis' : κ → Option ρ} (h : ∀ k r, vis k = some r → vis' k = some r) :
    (nodes.filter fun k => (vis' k).isNone).length ≤
      (nodes.filter fun k => (vis k).isNone).length := by
  refine (List.monotone_filter_right nodes fun k hk => ?_).length_le
  cases hr : vis k with
  | none => rfl
  | some r =>
      rw [h k r hr] at hk
      cases hk

theorem Ready.mono {n : ℕ} {s t : Memo α κ ρ} {start : α → Prop} {a : α}
    (h : R.Ready P hop nodes V A n s a) (hst : R.Visited P V A start s t) :
    R.Ready P hop nodes V A n t a where
  entry := h.entry
  neat := hst.neat
  depth := Nat.lt_of_le_of_lt (length_left_le hst.keep) h.depth
  vis k r hr := by
    rcases hst.new k r hr with hr | hr
    · refine ⟨(h.vis k r hr).1, (h.vis k r hr).2.imp_left fun hset => ?_⟩
      exact ⟨hset.1.mono hst.log hst.keep, hset.2⟩
    · obtain ⟨_, _, _, hstop, -⟩ := hr.1
      exact ⟨hstop, Or.inl hr⟩

/-- Where the search goes on to. -/
theorem Walks.path (W : R.Walks P hop nodes) {log : List α} {a b : α} (ha : P a)
    (h : ReflTransGen (R.Step log) a b) : P b ∧ ReflTransGen hop (R.key a) (R.key b) := by
  induction h with
  | refl => exact ⟨ha, .refl⟩
  | tail _ hstep ih =>
      obtain ⟨hc, hhop⟩ := W.closed _ _ ih.1 hstep.2
      exact ⟨hc, ih.2.tail hhop⟩

theorem length_left_lt [DecidableEq κ] {vis : κ → Option ρ} {k : κ} (hk : k ∈ nodes)
    (hnone : vis k = none) (r : ρ) :
    (nodes.filter fun k' => (Function.update vis k (some r) k').isNone).length <
      (nodes.filter fun k' => (vis k').isNone).length := by
  have hsub : (nodes.filter fun k' => (Function.update vis k (some r) k').isNone) =
      (nodes.filter fun k' => (vis k').isNone).filter (· ≠ k) := by
    rw [List.filter_filter]
    refine List.filter_congr fun k' _ => ?_
    by_cases hkk : k' = k
    · simp [hkk]
    · simp [hkk]
  rw [hsub]
  refine List.length_filter_lt_length_iff_exists.2 ⟨k, ?_, by simp⟩
  exact List.mem_filter.2 ⟨hk, by rw [hnone]; rfl⟩

variable (R P V A) in
/-- How the search from an entry comes out. -/
def VisitSettles (s : Memo α κ ρ) (a : α) : Except Halt (ρ × Memo α κ ρ) → Prop
  | .ok (r, t) => R.Visited P V A (· = a) s t ∧ R.val t.vis (R.key a) = some r ∧
      (R.Total P V A → V r)
  | .error e => e = .raised ∧ ¬ R.Total P V A

variable (R P V A) in
/-- How the loop over some children comes out. -/
def LoopSettles (s : Memo α κ ρ) (as : List α) (acc : ρ) :
    Except Halt (ρ × Memo α κ ρ) → Prop
  | .ok (acc', t) => R.Visited P V A (· ∈ as) s t ∧ R.fold t.vis acc as = some acc' ∧
      ∀ i, R.Total P V A → A i acc → A (i + as.length) acc'
  | .error e => e = .raised ∧ ∀ i, A i acc → ¬ R.Total P V A

theorem loop_settles {n : ℕ} {step : α → Memo α κ ρ → Except Halt (ρ × Memo α κ ρ)}
    (hstep : ∀ a s, R.Ready P hop nodes V A n s a → R.VisitSettles P V A s a (step a s))
    {as : List α} : ∀ {s : Memo α κ ρ} (acc : ρ), R.Neat s →
      (∀ a ∈ as, R.Ready P hop nodes V A n s a) →
      R.LoopSettles P V A s as acc (R.loop step acc as s) := by
  induction as with
  | nil => exact fun _ hs _ => ⟨Visited.refl hs, rfl, fun _ _ h => h⟩
  | cons a as ih =>
      intro s acc hs has
      have ha := hstep a s (has a List.mem_cons_self)
      rw [loop]
      cases hresult : step a s with
      | error e =>
          rw [hresult] at ha
          exact ⟨ha.1, fun _ _ => ha.2⟩
      | ok result =>
          obtain ⟨r, t⟩ := result
          rw [hresult] at ha
          obtain ⟨hst, hval, hV⟩ := ha
          cases hadd : R.add acc r with
          | none =>
              simp only [hadd]
              refine ⟨rfl, fun i hi htotal => ?_⟩
              obtain ⟨acc', hacc', -⟩ := htotal.add i acc r hi (hV htotal)
              rw [hadd] at hacc'
              cases hacc'
          | some acc₁ =>
              have hacc : ∀ i, R.Total P V A → A i acc → A (i + 1) acc₁ := by
                intro i htotal hi
                obtain ⟨acc', hacc', hA⟩ := htotal.add i acc r hi (hV htotal)
                rw [hadd] at hacc'
                cases hacc'
                exact hA
              have hrest := ih acc₁ hst.neat fun b hb =>
                (has b (List.mem_cons_of_mem a hb)).mono hst
              cases hloop : R.loop step acc₁ as t with
              | error e =>
                  rw [hloop] at hrest
                  simp only [hadd, hloop]
                  exact ⟨hrest.1, fun i hi htotal => hrest.2 (i + 1) (hacc i htotal hi) htotal⟩
              | ok result =>
                  obtain ⟨acc', u⟩ := result
                  rw [hloop] at hrest
                  obtain ⟨htu, hfold, hA⟩ := hrest
                  simp only [hadd, hloop]
                  refine ⟨(hst.trans htu).mono fun b hb => ?_, ?_, fun i htotal hi => ?_⟩
                  · rcases hb with rfl | hb
                    · exact List.mem_cons_self
                    · exact List.mem_cons_of_mem a hb
                  · rw [fold, val_mono htu.keep hval, Option.bind_some, hadd, Option.bind_some,
                      hfold]
                  · have := hA (i + 1) htotal (hacc i htotal hi)
                    rwa [Nat.add_assoc, Nat.add_comm 1, ← List.length_cons] at this

/-- The entry is noted. -/
theorem neat_enter [DecidableEq κ] {s : Memo α κ ρ} (h : R.Neat s) {a : α}
    (hnone : s.vis (R.key a) = none) : R.Neat (R.enter s a) where
  noted b hb := by
    by_cases hkey : R.key b = R.key a
    · simp only [enter, hkey, Function.update_self, ne_eq, reduceCtorEq, not_false_eq_true]
    · simp only [enter, Function.update_of_ne hkey]
      refine h.noted b ((List.mem_append.1 hb).resolve_right fun hb => hkey ?_)
      rw [List.mem_singleton.1 hb]
  once b hb c hc hkey := by
    have hold : ∀ d ∈ s.log, R.key d ≠ R.key a := fun d hd heq => h.noted d hd (heq ▸ hnone)
    rcases List.mem_append.1 hb with hb | hb <;> rcases List.mem_append.1 hc with hc | hc
    · exact h.once b hb c hc hkey
    · rw [List.mem_singleton.1 hc] at hkey
      exact absurd hkey (hold b hb)
    · rw [List.mem_singleton.1 hb] at hkey
      exact absurd hkey.symm (hold c hc)
    · rw [List.mem_singleton.1 hb, List.mem_singleton.1 hc]

section Enter

variable [DecidableEq κ] {n : ℕ} {s t : Memo α κ ρ} {a : α} {as : List α}

theorem enter_keep (hnone : s.vis (R.key a) = none) {k : κ} {r : ρ} (hr : s.vis k = some r) :
    (R.enter s a).vis k = some r := by
  have hk : k ≠ R.key a := fun heq => by rw [heq, hnone] at hr; cases hr
  simp only [enter, Function.update_of_ne hk, hr]

/-- The search may come to a child. -/
theorem Ready.child (W : R.Walks P hop nodes) (h : R.Ready P hop nodes V A (n + 1) s a)
    (hnone : s.vis (R.key a) = none) {b : α} (hb : R.Child a b) :
    R.Ready P hop nodes V A n (R.enter s a) b where
  entry := (W.closed a b h.entry hb).1
  neat := neat_enter h.neat hnone
  depth := by
    have hless := length_left_lt (W.known a h.entry) hnone R.pending
    have hdepth := h.depth
    simp only [enter]
    omega
  vis k r hr := by
    have hhop := (W.closed a b h.entry hb).2
    by_cases hk : k = R.key a
    · exact ⟨hk ▸ hb.1, Or.inr (.single (hk ▸ hhop))⟩
    · simp only [enter, Function.update_of_ne hk] at hr
      refine ⟨(h.vis k r hr).1, (h.vis k r hr).2.imp (fun hset => ?_) fun hpath => ?_⟩
      · exact ⟨hset.1.mono (fun _ => List.mem_append_left _) fun _ _ => enter_keep hnone, hset.2⟩
      · exact hpath.tail hhop

/-- **The result is noted when all children have been visited.** -/
theorem Visited.leave (W : R.Walks P hop nodes) (h : R.Ready P hop nodes V A n s a)
    (hnone : s.vis (R.key a) = none) (hstop : R.stop (R.key a) = none)
    (hchildren : R.children a = some as) (hst : R.Visited P V A (· ∈ as) (R.enter s a) t)
    {acc r : ρ} (hfold : R.fold t.vis R.init as = some acc) (hfinish : R.finish a acc = some r)
    (hV : R.Total P V A → V r) : R.Visited P V A (· = a) s (R.leave t a r) := by
  have hchild : ∀ b ∈ as, R.Child a b := fun b hb => ⟨hstop, as, hchildren, hb⟩
  have hmem : a ∈ t.log := hst.log a (List.mem_append_right _ List.mem_cons_self)
  -- the notes at other nodes stay
  have hother : ∀ {k}, k ≠ R.key a → (R.leave t a r).vis k = t.vis k := fun hk => by
    simp only [Rules.leave, Function.update_of_ne hk]
  have hfold_leave : ∀ {c cs acc acc'}, P c → R.children c = some cs → R.stop (R.key c) = none →
      ReflTransGen hop (R.key a) (R.key c) → R.fold t.vis acc cs = some acc' →
      R.fold (R.leave t a r).vis acc cs = some acc' := by
    intro c cs acc acc' hc hcs hcstop hpath
    refine fold_mono fun b hb r' hr' => ?_
    have hhop := (W.closed c b hc ⟨hcstop, cs, hcs, hb⟩).2
    by_cases hk : R.key b = R.key a
    · exact absurd (TransGen.tail' hpath (hk ▸ hhop)) (W.acyclic a h.entry)
    · rwa [val, hother hk]
  refine ⟨⟨fun b hb => ?_, hst.neat.once⟩, fun k r' hr' => ?_, fun b hb => ?_, fun b hb => ?_,
    fun k r' hr' => ?_⟩
  · by_cases hk : R.key b = R.key a
    · simp only [Rules.leave, hk, Function.update_self, ne_eq, reduceCtorEq, not_false_eq_true]
    · rw [hother hk]
      exact hst.neat.noted b hb
  · have hk : k ≠ R.key a := fun heq => by rw [heq, hnone] at hr'; cases hr'
    rw [hother hk]
    exact hst.keep k r' (enter_keep hnone hr')
  · exact hst.log b (List.mem_append_left _ hb)
  · rcases hst.origin b hb with hb | ⟨c, hc, hpath⟩
    · rcases List.mem_append.1 hb with hb | hb
      · exact Or.inl hb
      · exact Or.inr ⟨a, rfl, List.mem_singleton.1 hb ▸ .refl⟩
    · exact Or.inr ⟨a, rfl, .head ⟨hmem, hchild c hc⟩ hpath⟩
  · by_cases hk : k = R.key a
    · subst hk
      simp only [Rules.leave, Function.update_self, Option.some.injEq] at hr'
      subst hr'
      exact Or.inr ⟨⟨a, hmem, rfl, hstop, as, acc, hchildren,
        hfold_leave h.entry hchildren hstop .refl hfold, hfinish⟩, hV⟩
    · rw [hother hk] at hr'
      rcases hst.new k r' hr' with hold | ⟨⟨b, hb, hkey, hbstop, bs, acc', hbs, hfold', hfin⟩, hV'⟩
      · simp only [enter, Function.update_of_ne hk] at hold
        exact Or.inl hold
      · rcases hst.origin b hb with hb' | ⟨c, hc, hpath⟩
        · rcases List.mem_append.1 hb' with hb' | hb'
          · obtain ⟨r'', hr''⟩ := Option.ne_none_iff_exists'.1 (h.neat.noted b hb')
            rw [hkey] at hr''
            have hkeep := hst.keep k r'' (enter_keep hnone hr'')
            rw [hr'] at hkeep
            exact Or.inl (hkeep ▸ hr'')
          · exact absurd (hkey ▸ List.mem_singleton.1 hb' ▸ rfl) hk
        · obtain ⟨hPc, hhop⟩ := W.closed a c h.entry (hchild c hc)
          obtain ⟨hPb, hpath⟩ := W.path hPc hpath
          exact Or.inr ⟨⟨b, hb, hkey, hkey ▸ hbstop, bs, acc', hbs,
            hfold_leave hPb hbs (hkey ▸ hbstop) (.head hhop hpath) hfold', hfin⟩, hV'⟩

/-- **How the search comes out.** -/
theorem visit_settles (W : R.Walks P hop nodes) :
    ∀ (a : α) (s : Memo α κ ρ), R.Ready P hop nodes V A n s a →
      R.VisitSettles P V A s a (R.visit n a s) := by
  induction n with
  | zero => exact fun a s h => absurd h.depth (Nat.not_lt_zero _)
  | succ n ih =>
      intro a s h
      rw [visit]
      cases hvis : s.vis (R.key a) with
      | some r =>
          obtain ⟨hstop, hset | hcycle⟩ := h.vis _ _ hvis
          · exact ⟨Visited.refl h.neat, by rw [val_of_stop_none hstop, hvis], hset.2⟩
          · exact absurd hcycle (W.acyclic a h.entry)
      | none =>
      cases hstop : R.stop (R.key a) with
      | some r =>
          exact ⟨Visited.refl h.neat, by rw [val, hstop]; rfl, fun htotal => htotal.stop _ r hstop⟩
      | none =>
      cases hchildren : R.children a with
      | none =>
          refine ⟨rfl, fun htotal => ?_⟩
          obtain ⟨as, has⟩ := htotal.children a h.entry hstop
          rw [hchildren] at has
          cases has
      | some as =>
      have hloop := loop_settles ih R.init (neat_enter h.neat hvis) fun b hb =>
        h.child W hvis ⟨hstop, as, hchildren, hb⟩
      cases hresult : R.loop (R.visit n) R.init as (R.enter s a) with
      | error e =>
          rw [hresult] at hloop
          simp only [hresult]
          exact ⟨hloop.1, fun htotal => hloop.2 0 htotal.init htotal⟩
      | ok result =>
      obtain ⟨acc, t⟩ := result
      rw [hresult] at hloop
      obtain ⟨hst, hfold, hA⟩ := hloop
      have hacc : R.Total P V A → A as.length acc := fun htotal => by
        rw [← Nat.zero_add as.length]
        exact hA 0 htotal htotal.init
      cases hfinish : R.finish a acc with
      | none =>
          simp only [hresult, hfinish]
          refine ⟨rfl, fun htotal => ?_⟩
          obtain ⟨r, hr, -⟩ := htotal.finish a as acc h.entry hstop hchildren (hacc htotal)
          rw [hfinish] at hr
          cases hr
      | some r =>
      simp only [hresult, hfinish]
      have hV : R.Total P V A → V r := fun htotal => by
        obtain ⟨r', hr', hV⟩ := htotal.finish a as acc h.entry hstop hchildren (hacc htotal)
        rw [hfinish] at hr'
        cases hr'
        exact hV
      refine ⟨hst.leave W h hvis hstop hchildren hfold hfinish hV, ?_, hV⟩
      rw [val_of_stop_none hstop]
      exact Function.update_self ..

/-- The search from nothing. -/
theorem visit_empty (W : R.Walks P hop nodes) (ha : P a) (hn : nodes.length < n) :
    R.VisitSettles P V A ⟨fun _ => none, []⟩ a (R.visit n a ⟨fun _ => none, []⟩) := by
  refine visit_settles W a _ ⟨ha, ⟨fun b hb => ?_, fun b hb => ?_⟩, ?_, fun k r hr => ?_⟩
  · exact absurd hb List.not_mem_nil
  · exact absurd hb List.not_mem_nil
  · exact Nat.lt_of_le_of_lt (List.length_filter_le _ nodes) hn
  · cases hr

end Enter

end Spec

end Rules

/-! ## Induction along the edges -/

/-- **A finite acyclic graph has no infinite walk.** -/
theorem wellFounded_of_acyclic {hop : κ → κ → Prop} (nodes : List κ)
    (hmem : ∀ x y, hop x y → x ∈ nodes) (hacyclic : ∀ x, ¬ TransGen hop x x) :
    WellFounded (flip hop) := by
  have hfinite : {x | x ∈ nodes}.Finite := List.finite_toSet nodes
  have : IsStrictOrder κ (flip (TransGen hop)) :=
    { irrefl := hacyclic, trans := fun _ _ _ h h' => TransGen.trans h' h }
  have hon : {x | x ∈ nodes}.WellFoundedOn (flip (TransGen hop)) := hfinite.wellFoundedOn
  have hoff : ∀ x ∉ nodes, Acc (flip hop) x := fun x hx =>
    ⟨x, fun y hxy => absurd (hmem x y hxy) hx⟩
  have hin : ∀ x ∈ nodes, Acc (flip hop) x := by
    intro x hx
    refine hon.induction hx fun y _ ih => ⟨y, fun z hyz => ?_⟩
    by_cases hz : z ∈ nodes
    · exact ih z hz (.single hyz)
    · exact hoff z hz
  exact ⟨fun x => (Classical.em (x ∈ nodes)).elim (hin x) (hoff x)⟩

end Lib
end Floem
