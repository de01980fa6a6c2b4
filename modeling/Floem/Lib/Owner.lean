import Mathlib

/-!
# Owners of objects and of locks

Objects are allocated under fresh numbers.  From then on an object is in a shared store, in
the hands of one of the threads `T`, or freed; an object that is nowhere any more is lost.

* `Owns` — the ghost function `own` says where every object is, and the lists of the threads
  and of the freed objects have no object twice.
* `Owns.alloc`, `Owns.insert`, `Owns.takeOut`, `Owns.freeStored`, `Owns.freeHands`,
  `Owns.lose` — the moves.
* `Owns.apart` — an object is not in two places.
* `Owns.place` — where no object is lost, every allocated one is in a place.
* `Locks` — who holds a lock, with `Locks.take` and `Locks.drop`.
-/

namespace Floem
namespace Lib

variable {T : Type*}

/-- Where an object is. -/
inductive Place (T : Type*)
  /-- It is not allocated. -/
  | nowhere
  | store
  | hands (t : T)
  | freed
  | lost

/-- Every object is where `own` says; `fresh` is the next number. -/
structure Owns (own : ℕ → Place T) (stored : ℕ → Prop) (hands : T → List ℕ) (freed : List ℕ)
    (fresh : ℕ) : Prop where
  at_store : ∀ a, own a = .store ↔ stored a
  at_hands : ∀ a t, own a = .hands t ↔ a ∈ hands t
  hands_once : ∀ t, (hands t).Nodup
  at_freed : ∀ a, own a = .freed ↔ a ∈ freed
  freed_once : freed.Nodup
  at_nowhere : ∀ a, own a = .nowhere ↔ fresh ≤ a

/-- **An object is not in two places**, and not twice in one. -/
structure Apart (stored : ℕ → Prop) (hands : T → List ℕ) (freed : List ℕ) (a : ℕ) : Prop where
  store_hands : stored a → ∀ t, a ∉ hands t
  store_freed : stored a → a ∉ freed
  hands_freed : ∀ t, a ∈ hands t → a ∉ freed
  one_thread : ∀ t u, a ∈ hands t → a ∈ hands u → t = u
  hands_once : ∀ t, (hands t).count a ≤ 1
  freed_once : freed.count a ≤ 1

namespace Owns

variable {own : ℕ → Place T} {stored stored' : ℕ → Prop} {hands hands' : T → List ℕ}
  {freed freed' : List ℕ} {fresh fresh' : ℕ}

theorem init : Owns (fun _ => .nowhere) (fun _ => False) (fun _ : T => []) [] 0 where
  at_store a := by simp
  at_hands a t := by simp
  hands_once t := List.nodup_nil
  at_freed a := by simp
  freed_once := List.nodup_nil
  at_nowhere a := by simp

theorem congr (h : Owns own stored hands freed fresh) (hstored : ∀ a, stored' a ↔ stored a)
    (hhands : ∀ t, hands' t = hands t) (hfreed : freed' = freed) :
    Owns own stored' hands' freed' fresh where
  at_store a := (h.at_store a).trans (hstored a).symm
  at_hands a t := by rw [hhands, h.at_hands]
  hands_once t := by rw [hhands]; exact h.hands_once t
  at_freed a := by rw [hfreed, h.at_freed]
  freed_once := hfreed ▸ h.freed_once
  at_nowhere := h.at_nowhere

theorem apart (h : Owns own stored hands freed fresh) (a : ℕ) :
    Apart stored hands freed a where
  store_hands hs t ht := by
    have := (h.at_store a).2 hs
    rw [(h.at_hands a t).2 ht] at this
    cases this
  store_freed hs hf := by
    have := (h.at_store a).2 hs
    rw [(h.at_freed a).2 hf] at this
    cases this
  hands_freed t ht hf := by
    have := (h.at_hands a t).2 ht
    rw [(h.at_freed a).2 hf] at this
    cases this
  one_thread t u ht hu := by
    have := (h.at_hands a t).2 ht
    rw [(h.at_hands a u).2 hu] at this
    cases this
    rfl
  hands_once t := List.nodup_iff_count_le_one.1 (h.hands_once t) a
  freed_once := List.nodup_iff_count_le_one.1 h.freed_once a

/-- An allocated object that is not lost is in a place. -/
theorem place (h : Owns own stored hands freed fresh) {a : ℕ} (ha : a < fresh)
    (hlost : own a ≠ .lost) : stored a ∨ (∃ t, a ∈ hands t) ∨ a ∈ freed := by
  cases hown : own a with
  | nowhere => exact absurd ((h.at_nowhere a).1 hown) (Nat.not_le.2 ha)
  | store => exact Or.inl ((h.at_store a).1 hown)
  | hands t => exact Or.inr (Or.inl ⟨t, (h.at_hands a t).1 hown⟩)
  | freed => exact Or.inr (Or.inr ((h.at_freed a).1 hown))
  | lost => exact absurd hown hlost

/-- **One object goes to another place.** -/
theorem move (h : Owns own stored hands freed fresh) (a : ℕ) (p : Place T)
    (hstored : ∀ b, b ≠ a → (stored' b ↔ stored b)) (hstored_a : p = .store ↔ stored' a)
    (hhands : ∀ b t, b ≠ a → (b ∈ hands' t ↔ b ∈ hands t))
    (hhands_a : ∀ t, p = .hands t ↔ a ∈ hands' t) (hhands_once : ∀ t, (hands' t).Nodup)
    (hfreed : ∀ b, b ≠ a → (b ∈ freed' ↔ b ∈ freed)) (hfreed_a : p = .freed ↔ a ∈ freed')
    (hfreed_once : freed'.Nodup) (hfresh : ∀ b, b ≠ a → (fresh' ≤ b ↔ fresh ≤ b))
    (hfresh_a : p = .nowhere ↔ fresh' ≤ a) :
    Owns (Function.update own a p) stored' hands' freed' fresh' where
  at_store b := by
    by_cases hb : b = a
    · rw [hb, Function.update_self, hstored_a]
    · rw [Function.update_of_ne hb, h.at_store, hstored b hb]
  at_hands b t := by
    by_cases hb : b = a
    · rw [hb, Function.update_self, hhands_a]
    · rw [Function.update_of_ne hb, h.at_hands, hhands b t hb]
  hands_once := hhands_once
  at_freed b := by
    by_cases hb : b = a
    · rw [hb, Function.update_self, hfreed_a]
    · rw [Function.update_of_ne hb, h.at_freed, hfreed b hb]
  freed_once := hfreed_once
  at_nowhere b := by
    by_cases hb : b = a
    · rw [hb, Function.update_self, hfresh_a]
    · rw [Function.update_of_ne hb, h.at_nowhere, hfresh b hb]

theorem lt_fresh (h : Owns own stored hands freed fresh) {a : ℕ} (ha : own a ≠ .nowhere) :
    a < fresh :=
  Nat.not_le.1 fun hle => ha ((h.at_nowhere a).2 hle)

theorem lt_of_hands (h : Owns own stored hands freed fresh) {a : ℕ} {t : T}
    (ha : a ∈ hands t) : a < fresh :=
  h.lt_fresh (by rw [(h.at_hands a t).2 ha]; exact fun heq => by cases heq)

theorem lt_of_stored (h : Owns own stored hands freed fresh) {a : ℕ} (ha : stored a) :
    a < fresh :=
  h.lt_fresh (by rw [(h.at_store a).2 ha]; exact fun heq => by cases heq)

/-- An object of the store is freed. -/
theorem freeStored (h : Owns own stored hands freed fresh) {a : ℕ} (ha : stored a) :
    Owns (Function.update own a .freed) (fun b => stored b ∧ b ≠ a) hands (a :: freed) fresh := by
  have hlt := h.lt_of_stored ha
  refine h.move a .freed (fun b hb => by rw [and_iff_left hb]) ?_ (fun _ _ _ => Iff.rfl) ?_
    h.hands_once (fun b hb => by rw [List.mem_cons, or_iff_right hb]) ?_ ?_ (fun _ _ => Iff.rfl) ?_
  · exact iff_of_false (fun heq => by cases heq) fun hs => hs.2 rfl
  · exact fun t => iff_of_false (fun heq => by cases heq) ((h.apart a).store_hands ha t)
  · exact iff_of_true rfl List.mem_cons_self
  · exact List.nodup_cons.2 ⟨(h.apart a).store_freed ha, h.freed_once⟩
  · exact iff_of_false (fun heq => by cases heq) (Nat.not_le.2 hlt)

section

variable [DecidableEq T] {a : ℕ} {t : T} {rest : List ℕ}

omit [DecidableEq T] in
theorem mem_hands (ht : hands t = a :: rest) : a ∈ hands t := by
  rw [ht]
  exact List.mem_cons_self

/-- What the threads have, after one of them gave the first object of its list away. -/
theorem mem_update_rest (h : Owns own stored hands freed fresh) (ht : hands t = a :: rest) :
    (∀ b u, b ≠ a → (b ∈ Function.update hands t rest u ↔ b ∈ hands u)) ∧
      (∀ u, a ∉ Function.update hands t rest u) ∧
      ∀ u, (Function.update hands t rest u).Nodup := by
  have honce := h.hands_once t
  rw [ht, List.nodup_cons] at honce
  refine ⟨fun b u hb => ?_, fun u => ?_, fun u => ?_⟩
  · by_cases hu : u = t
    · rw [hu, Function.update_self, ht, List.mem_cons, or_iff_right hb]
    · rw [Function.update_of_ne hu]
  · by_cases hu : u = t
    · rw [hu, Function.update_self]
      exact honce.1
    · rw [Function.update_of_ne hu]
      refine fun hmem => hu ((h.apart a).one_thread u t hmem ?_)
      rw [ht]
      exact List.mem_cons_self
  · by_cases hu : u = t
    · rw [hu, Function.update_self]
      exact honce.2
    · rw [Function.update_of_ne hu]
      exact h.hands_once u

/-- What the threads have, after one of them took an object that no thread had. -/
theorem mem_update_cons (h : Owns own stored hands freed fresh) (ha : ∀ u, a ∉ hands u) :
    (∀ b u, b ≠ a → (b ∈ Function.update hands t (a :: hands t) u ↔ b ∈ hands u)) ∧
      (∀ u, (Place.hands t : Place T) = .hands u ↔ a ∈ Function.update hands t (a :: hands t) u) ∧
      ∀ u, (Function.update hands t (a :: hands t) u).Nodup := by
  refine ⟨fun b u hb => ?_, fun u => ?_, fun u => ?_⟩
  · by_cases hu : u = t
    · rw [hu, Function.update_self, List.mem_cons, or_iff_right hb]
    · rw [Function.update_of_ne hu]
  · by_cases hu : u = t
    · rw [hu, Function.update_self]
      exact iff_of_true rfl List.mem_cons_self
    · rw [Function.update_of_ne hu]
      exact iff_of_false (fun heq => hu (Place.hands.inj heq).symm) (ha u)
  · by_cases hu : u = t
    · rw [hu, Function.update_self]
      exact List.nodup_cons.2 ⟨ha t, h.hands_once t⟩
    · rw [Function.update_of_ne hu]
      exact h.hands_once u

/-- A thread allocates an object. -/
theorem alloc (h : Owns own stored hands freed fresh) (t : T) :
    Owns (Function.update own fresh (.hands t)) stored
      (Function.update hands t (fresh :: hands t)) freed (fresh + 1) := by
  have hown : own fresh = .nowhere := (h.at_nowhere fresh).2 (Nat.le_refl fresh)
  have hnot : ∀ u, fresh ∉ hands u := fun u hu => by
    rw [(h.at_hands fresh u).2 hu] at hown
    cases hown
  obtain ⟨hmem, hself, hnodup⟩ := h.mem_update_cons (t := t) hnot
  refine h.move fresh (.hands t) (fun _ _ => Iff.rfl) ?_ hmem hself hnodup (fun _ _ => Iff.rfl) ?_
    h.freed_once (fun b hb => by omega) ?_
  · refine iff_of_false (fun heq => by cases heq) fun hs => ?_
    rw [(h.at_store fresh).2 hs] at hown
    cases hown
  · refine iff_of_false (fun heq => by cases heq) fun hf => ?_
    rw [(h.at_freed fresh).2 hf] at hown
    cases hown
  · exact iff_of_false (fun heq => by cases heq) (by omega)

/-- A thread puts an object into the store. -/
theorem insert (h : Owns own stored hands freed fresh) (ht : hands t = a :: rest) :
    Owns (Function.update own a .store) (fun b => stored b ∨ b = a)
      (Function.update hands t rest) freed fresh := by
  obtain ⟨hmem, hself, hnodup⟩ := h.mem_update_rest ht
  have hlt := h.lt_of_hands (mem_hands ht)
  refine h.move a .store (fun b hb => by rw [or_iff_left hb]) ?_ hmem ?_ hnodup
    (fun _ _ => Iff.rfl) ?_ h.freed_once (fun _ _ => Iff.rfl) ?_
  · exact iff_of_true rfl (Or.inr rfl)
  · exact fun u => iff_of_false (fun heq => by cases heq) (hself u)
  · exact iff_of_false (fun heq => by cases heq) ((h.apart a).hands_freed t (mem_hands ht))
  · exact iff_of_false (fun heq => by cases heq) (Nat.not_le.2 hlt)

/-- A thread takes an object out of the store. -/
theorem takeOut (h : Owns own stored hands freed fresh) (ha : stored a) (t : T) :
    Owns (Function.update own a (.hands t)) (fun b => stored b ∧ b ≠ a)
      (Function.update hands t (a :: hands t)) freed fresh := by
  obtain ⟨hmem, hself, hnodup⟩ := h.mem_update_cons (t := t) ((h.apart a).store_hands ha)
  have hlt := h.lt_of_stored ha
  refine h.move a (.hands t) (fun b hb => by rw [and_iff_left hb]) ?_ hmem hself hnodup
    (fun _ _ => Iff.rfl) ?_ h.freed_once (fun _ _ => Iff.rfl) ?_
  · exact iff_of_false (fun heq => by cases heq) fun hs => hs.2 rfl
  · exact iff_of_false (fun heq => by cases heq) ((h.apart a).store_freed ha)
  · exact iff_of_false (fun heq => by cases heq) (Nat.not_le.2 hlt)

/-- A thread frees an object. -/
theorem freeHands (h : Owns own stored hands freed fresh) (ht : hands t = a :: rest) :
    Owns (Function.update own a .freed) stored (Function.update hands t rest) (a :: freed)
      fresh := by
  obtain ⟨hmem, hself, hnodup⟩ := h.mem_update_rest ht
  have hlt := h.lt_of_hands (mem_hands ht)
  refine h.move a .freed (fun _ _ => Iff.rfl) ?_ hmem ?_ hnodup
    (fun b hb => by rw [List.mem_cons, or_iff_right hb]) ?_ ?_ (fun _ _ => Iff.rfl) ?_
  · exact iff_of_false (fun heq => by cases heq) fun hs =>
      (h.apart a).store_hands hs t (mem_hands ht)
  · exact fun u => iff_of_false (fun heq => by cases heq) (hself u)
  · exact iff_of_true rfl List.mem_cons_self
  · exact List.nodup_cons.2 ⟨(h.apart a).hands_freed t (mem_hands ht), h.freed_once⟩
  · exact iff_of_false (fun heq => by cases heq) (Nat.not_le.2 hlt)

/-- A thread forgets an object. -/
theorem lose (h : Owns own stored hands freed fresh) (ht : hands t = a :: rest) :
    Owns (Function.update own a .lost) stored (Function.update hands t rest) freed fresh := by
  obtain ⟨hmem, hself, hnodup⟩ := h.mem_update_rest ht
  have hlt := h.lt_of_hands (mem_hands ht)
  refine h.move a .lost (fun _ _ => Iff.rfl) ?_ hmem ?_ hnodup (fun _ _ => Iff.rfl) ?_
    h.freed_once (fun _ _ => Iff.rfl) ?_
  · exact iff_of_false (fun heq => by cases heq) fun hs =>
      (h.apart a).store_hands hs t (mem_hands ht)
  · exact fun u => iff_of_false (fun heq => by cases heq) (hself u)
  · exact iff_of_false (fun heq => by cases heq) ((h.apart a).hands_freed t (mem_hands ht))
  · exact iff_of_false (fun heq => by cases heq) (Nat.not_le.2 hlt)

end

end Owns

/-- No object is lost by a move that loses none. -/
theorem update_ne_lost {own : ℕ → Place T} {a : ℕ} {p : Place T} (hp : p ≠ .lost)
    (h : ∀ b, own b ≠ .lost) : ∀ b, Function.update own a p b ≠ .lost := by
  intro b
  by_cases hb : b = a
  · rwa [hb, Function.update_self]
  · rw [Function.update_of_ne hb]
    exact h b

/-! ## Locks -/

section

variable {κ : Type*}

/-- The locks that are held are those in the lists of the threads. -/
structure Locks (lock : κ → Option T) (held : T → List κ) : Prop where
  holder : ∀ k t, lock k = some t ↔ k ∈ held t
  once : ∀ t, (held t).Nodup

namespace Locks

variable {lock : κ → Option T} {held : T → List κ}

theorem init : Locks (fun _ => none : κ → Option T) (fun _ => []) where
  holder k t := by simp
  once t := List.nodup_nil

variable [DecidableEq T] [DecidableEq κ]

/-- A thread takes a lock that nobody holds. -/
theorem take (h : Locks lock held) {k : κ} (hk : lock k = none) (t : T) :
    Locks (Function.update lock k (some t)) (Function.update held t (k :: held t)) where
  holder l u := by
    have hnot : k ∉ held u := fun hmem => by
      rw [(h.holder k u).2 hmem] at hk
      cases hk
    by_cases hl : l = k
    · subst hl
      rw [Function.update_self, Option.some.injEq]
      by_cases hu : u = t
      · rw [hu, Function.update_self]
        exact iff_of_true rfl List.mem_cons_self
      · rw [Function.update_of_ne hu]
        exact iff_of_false (fun heq => hu heq.symm) hnot
    · rw [Function.update_of_ne hl, h.holder]
      by_cases hu : u = t
      · rw [hu, Function.update_self, List.mem_cons, or_iff_right hl]
      · rw [Function.update_of_ne hu]
  once u := by
    by_cases hu : u = t
    · rw [hu, Function.update_self]
      refine List.nodup_cons.2 ⟨fun hmem => ?_, h.once t⟩
      rw [(h.holder k t).2 hmem] at hk
      cases hk
    · rw [Function.update_of_ne hu]
      exact h.once u

/-- A thread gives back the first lock of its list. -/
theorem drop (h : Locks lock held) {k : κ} {t : T} {rest : List κ} (ht : held t = k :: rest) :
    Locks (Function.update lock k none) (Function.update held t rest) where
  holder l u := by
    have honce := h.once t
    rw [ht, List.nodup_cons] at honce
    by_cases hl : l = k
    · subst hl
      rw [Function.update_self]
      refine iff_of_false (fun heq => by cases heq) ?_
      by_cases hu : u = t
      · rw [hu, Function.update_self]
        exact honce.1
      · rw [Function.update_of_ne hu]
        intro hmem
        have hself : l ∈ held t := by rw [ht]; exact List.mem_cons_self
        rw [← h.holder] at hmem hself
        exact hu (Option.some.inj (hmem.symm.trans hself))
    · rw [Function.update_of_ne hl, h.holder]
      by_cases hu : u = t
      · rw [hu, Function.update_self, ht, List.mem_cons, or_iff_right hl]
      · rw [Function.update_of_ne hu]
  once u := by
    by_cases hu : u = t
    · rw [hu, Function.update_self]
      have honce := h.once t
      rw [ht, List.nodup_cons] at honce
      exact honce.2
    · rw [Function.update_of_ne hu]
      exact h.once u

end Locks
end
end Lib
end Floem
