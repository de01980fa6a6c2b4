import Mathlib
import Floem.Lib.Run

/-!
# Rules that rewrite the front of a text

A rule replaces what its pattern matches at the front of a text, up to the end of a word, as
often as it matches there.  A list of rules is applied one rule after the other.

* `Letters` — what a letter of a pattern matches, and the letters of words.
* `hits`, `catches` — a pattern matches a text, and a text with something behind it.
* `Rule.apply`, `rewrite` — one rule, and a list of rules.
* `rewrite_first`, `rewrite_last` — the first and the last rule that match.
* `Settled` — no rule comes in the way of one of them.
* `Settled.rewrite`, `settled_of_rewrite` — this is enough for a rule to do what it says, and
  it is necessary.
-/

namespace Floem
namespace Lib

variable {α : Type*}

/-- What a letter of a pattern matches, and the letters that words are made of. -/
structure Letters (α : Type*) where
  fits : α → α → Bool
  fits_self : ∀ a, fits a a = true
  word : α → Bool
  fits_word : ∀ a b, fits a b = true → word a = true → word b = true
  /-- A letter behind words. -/
  stop : α
  stop_not_word : word stop = false

namespace Letters

variable (L : Letters α)

/-! ## Patterns -/

/-- A word ends in front of the text. -/
def ends : List α → Bool
  | [] => false
  | c :: _ => !L.word c

/-- The pattern matches at the front of the text, up to the end of a word. -/
def hits : List α → List α → Bool
  | [], w => L.ends w
  | _ :: _, [] => false
  | p :: q, c :: w => L.fits p c && hits q w

/-- The pattern matches there if the right text follows. -/
def catches : List α → List α → Bool
  | [], [] => true
  | [], c :: _ => !L.word c
  | p :: _, [] => !L.word p
  | p :: q, c :: w => L.fits p c && catches q w

variable {L}

theorem ends_stop : L.ends [L.stop] = true := by simp [ends, L.stop_not_word]

theorem ends_append {t : List α} (ht : L.ends t = true) (x : List α) : L.ends (t ++ x) = true := by
  cases t with
  | nil => cases ht
  | cons c t => exact ht

theorem hits_self (q : List α) {t : List α} (ht : L.ends t = true) : L.hits q (q ++ t) = true := by
  induction q with
  | nil => exact ht
  | cons p q ih => simp [hits, L.fits_self, ih]

/-- What is behind a match. -/
theorem hits_drop {q w : List α} (h : L.hits q w = true) :
    L.ends (w.drop q.length) = true ∧ q.length < w.length := by
  induction q generalizing w with
  | nil =>
      cases w with
      | nil => cases h
      | cons c w => exact ⟨h, Nat.succ_pos _⟩
  | cons p q ih =>
      cases w with
      | nil => cases h
      | cons c w =>
          obtain ⟨hends, hlt⟩ := ih (Bool.and_eq_true_iff.1 h).2
          exact ⟨hends, Nat.succ_lt_succ hlt⟩

/-- A match within `u` is one whatever comes behind it. -/
theorem hits_congr {q u t t' : List α} (hle : q.length ≤ u.length) (ht : L.ends t' = true)
    (h : L.hits q (u ++ t) = true) : L.hits q (u ++ t') = true := by
  induction q generalizing u with
  | nil =>
      cases u with
      | nil => exact ht
      | cons c u => exact h
  | cons p q ih =>
      cases u with
      | nil => simp at hle
      | cons c u =>
          obtain ⟨hfits, h⟩ := Bool.and_eq_true_iff.1 h
          exact Bool.and_eq_true_iff.2 ⟨hfits, ih (Nat.le_of_succ_le_succ hle) h⟩

/-- **A pattern catches a text** if it matches it with something behind. -/
theorem catches_iff {q w : List α} :
    L.catches q w = true ↔ ∃ t, L.ends t = true ∧ L.hits q (w ++ t) = true := by
  induction q generalizing w with
  | nil =>
      cases w with
      | nil => exact iff_of_true rfl ⟨[L.stop], ends_stop, ends_stop⟩
      | cons c w => exact ⟨fun h => ⟨[L.stop], ends_stop, h⟩, fun ⟨_, _, h⟩ => h⟩
  | cons p q ih =>
      cases w with
      | nil =>
          constructor
          · -- the pattern itself may follow
            intro h
            refine ⟨p :: q ++ [L.stop], h, ?_⟩
            exact hits_self (p :: q) ends_stop
          · rintro ⟨t, ht, h⟩
            cases t with
            | nil => cases ht
            | cons c t =>
                have hfits : L.fits p c = true := (Bool.and_eq_true_iff.1 h).1
                have hc : L.word c = false := by simpa [ends] using ht
                cases hp : L.word p with
                | false => simp [catches, hp]
                | true =>
                    rw [L.fits_word p c hfits hp] at hc
                    cases hc
      | cons c w =>
          simp only [catches, List.cons_append, hits, Bool.and_eq_true, ih]
          constructor
          · rintro ⟨hfits, t, ht, h⟩
            exact ⟨t, ht, hfits, h⟩
          · rintro ⟨t, ht, hfits, h⟩
            exact ⟨hfits, t, ht, h⟩

/-- Two words that end at one place are one word. -/
theorem word_inj {u v s t : List α} (hu : ∀ c ∈ u, L.word c = true) (hv : ∀ c ∈ v, L.word c = true)
    (hs : L.ends s = true) (ht : L.ends t = true) (h : u ++ s = v ++ t) : u = v ∧ s = t := by
  induction u generalizing v with
  | nil =>
      cases v with
      | nil => exact ⟨rfl, h⟩
      | cons c v =>
          rw [List.nil_append] at h
          subst h
          simp [ends, hv c List.mem_cons_self] at hs
  | cons c u ih =>
      cases v with
      | nil =>
          rw [List.nil_append] at h
          subst h
          simp [ends, hu c List.mem_cons_self] at ht
      | cons d v =>
          obtain ⟨rfl, htail⟩ := List.cons.inj h
          obtain ⟨rfl, hst⟩ := ih (fun x hx => hu x (List.mem_cons_of_mem _ hx))
            (fun x hx => hv x (List.mem_cons_of_mem _ hx)) htail
          exact ⟨rfl, hst⟩

end Letters

/-! ## One rule -/

/-- `pattern` is replaced by `new`. -/
structure Rule (α : Type*) where
  pattern : List α
  new : List α
  deriving DecidableEq

namespace Rule

variable (L : Letters α) (r : Rule α)

/-- The rule is applied as often as it matches; `none` where `n` is too small. -/
def repeated : ℕ → List α → Option (List α)
  | 0, _ => none
  | n + 1, w =>
      if L.hits r.pattern w then repeated n (r.new ++ w.drop r.pattern.length) else some w

/-- A rule that replaces its pattern by itself is left out; `none` where the rule is applied
without an end. -/
def apply [DecidableEq α] (w : List α) : Option (List α) :=
  if r.pattern = r.new then some w else r.repeated L (w.length + 1) w

/-- The rule leaves the text as it is. -/
def Leaves (w : List α) : Prop := r.pattern ≠ r.new → L.hits r.pattern w = false

/-- It does so whatever follows. -/
def Spares (w : List α) : Prop := r.pattern ≠ r.new → L.catches r.pattern w = false

/-- The rule makes texts shorter. -/
def Shrinks : Prop := r.pattern ≠ r.new → r.new.length < r.pattern.length

instance [DecidableEq α] (w : List α) : Decidable (r.Leaves L w) :=
  inferInstanceAs (Decidable (_ → _))

instance [DecidableEq α] (w : List α) : Decidable (r.Spares L w) :=
  inferInstanceAs (Decidable (_ → _))

variable {L r}

theorem Spares.leaves {w t : List α} (h : r.Spares L w) (ht : L.ends t = true) :
    r.Leaves L (w ++ t) := fun hne => by
  by_contra hhits
  have hcatches : L.catches r.pattern w = true :=
    Letters.catches_iff.2 ⟨t, ht, by simpa using hhits⟩
  rw [h hne] at hcatches
  cases hcatches

/-- **A rule that matches what it has put there goes on for ever**, if it makes texts no
shorter. -/
theorem repeated_endless (hle : r.pattern.length ≤ r.new.length) (n : ℕ) {t : List α}
    (h : L.hits r.pattern (r.new ++ t) = true) : r.repeated L n (r.new ++ t) = none := by
  induction n generalizing t with
  | zero => rfl
  | succ n ih =>
      rw [repeated, if_pos h]
      have hdrop := (Letters.hits_drop h).1
      refine ih (Letters.hits_congr hle hdrop h)

/-- What is left of the text behind the last match. -/
theorem repeated_spec {n : ℕ} {w w' : List α} (h : r.repeated L n w = some w')
    (hhits : L.hits r.pattern w = true) : ∃ rest, w' = r.new ++ rest ∧ L.ends rest = true ∧
      rest.length + r.pattern.length ≤ w.length ∧ L.hits r.pattern w' = false ∧
      (L.hits r.pattern (r.new ++ w.drop r.pattern.length) = true →
        rest.length + r.pattern.length < w.length) ∧
      (L.hits r.pattern (r.new ++ w.drop r.pattern.length) = false →
        rest = w.drop r.pattern.length) := by
  induction n generalizing w with
  | zero => cases h
  | succ n ih =>
      rw [repeated, if_pos hhits] at h
      obtain ⟨hends, hlt⟩ := Letters.hits_drop hhits
      have hlen : (w.drop r.pattern.length).length = w.length - r.pattern.length :=
        List.length_drop
      cases hagain : L.hits r.pattern (r.new ++ w.drop r.pattern.length) with
      | false =>
          cases n with
          | zero => cases h
          | succ n =>
              rw [repeated, hagain, if_neg Bool.false_ne_true] at h
              obtain rfl := Option.some.inj h
              exact ⟨_, rfl, hends, by omega, hagain, fun h => (by cases h), fun _ => rfl⟩
      | true =>
          have hshort : r.new.length < r.pattern.length := by
            by_contra hle
            rw [repeated_endless (by omega) n hagain] at h
            cases h
          obtain ⟨rest, rfl, hrest, hle, hno, -, -⟩ := ih h hagain
          rw [List.length_append] at hle
          exact ⟨rest, rfl, hrest, by omega, hno, fun _ => by omega, fun h => (by cases h)⟩

theorem repeated_of_not {n : ℕ} {w : List α} (h : L.hits r.pattern w = false) :
    r.repeated L (n + 1) w = some w := by
  rw [repeated, h, if_neg Bool.false_ne_true]

theorem repeated_total (hlt : r.new.length < r.pattern.length) {n : ℕ} {w : List α}
    (hn : w.length < n) : ∃ w', r.repeated L n w = some w' := by
  induction n generalizing w with
  | zero => omega
  | succ n ih =>
      rw [repeated]
      cases hhits : L.hits r.pattern w with
      | false => exact ⟨w, rfl⟩
      | true =>
          have hw := (Letters.hits_drop hhits).2
          rw [if_pos rfl]
          refine ih ?_
          rw [List.length_append, List.length_drop]
          omega

variable [DecidableEq α]

theorem apply_of_leaves {w : List α} (h : r.Leaves L w) : r.apply L w = some w := by
  unfold apply
  split_ifs with heq
  · rfl
  · exact repeated_of_not (h heq)

/-- **A rule that matches once** puts its new text in place. -/
theorem apply_once (hne : r.pattern ≠ r.new) {t : List α} (ht : L.ends t = true)
    (h : r.Spares L r.new) : r.apply L (r.pattern ++ t) = some (r.new ++ t) := by
  have hhits : L.hits r.pattern (r.pattern ++ t) = true := Letters.hits_self _ ht
  obtain ⟨n, hn⟩ : ∃ n, (r.pattern ++ t).length = n + 1 :=
    ⟨(r.pattern ++ t).length - 1, by have := (Letters.hits_drop hhits).2; omega⟩
  rw [apply, if_neg hne, hn, repeated, if_pos hhits, List.drop_left,
    repeated_of_not (h.leaves ht hne)]

/-- A rule that changes the text. -/
theorem apply_spec {w w' : List α} (h : r.apply L w = some w') (hleaves : ¬ r.Leaves L w) :
    r.pattern ≠ r.new ∧ L.hits r.pattern w = true ∧ ∃ rest, w' = r.new ++ rest ∧
      L.ends rest = true ∧ rest.length + r.pattern.length ≤ w.length ∧
      (L.hits r.pattern (r.new ++ w.drop r.pattern.length) = true →
        rest.length + r.pattern.length < w.length) ∧
      (L.hits r.pattern (r.new ++ w.drop r.pattern.length) = false →
        rest = w.drop r.pattern.length) := by
  obtain ⟨hne, hhits⟩ : r.pattern ≠ r.new ∧ L.hits r.pattern w = true := by
    by_contra hcontra
    refine hleaves fun hne => ?_
    cases hhits : L.hits r.pattern w with
    | false => rfl
    | true => exact absurd ⟨hne, hhits⟩ hcontra
  rw [apply, if_neg hne] at h
  obtain ⟨rest, hw', hrest, hle, -, hmore, honce⟩ := repeated_spec h hhits
  exact ⟨hne, hhits, rest, hw', hrest, hle, hmore, honce⟩

theorem Shrinks.apply (h : r.Shrinks) (w : List α) : ∃ w', r.apply L w = some w' := by
  unfold Rule.apply
  split_ifs with heq
  · exact ⟨w, rfl⟩
  · exact repeated_total (h heq) (Nat.lt_succ_self _)

/-- A rule that shrinks makes a text shorter, if it changes it. -/
theorem Shrinks.length (h : r.Shrinks) {w w' : List α} (hw : r.apply L w = some w') :
    w'.length ≤ w.length ∧ (¬ r.Leaves L w → w'.length < w.length) := by
  by_cases hleaves : r.Leaves L w
  · obtain rfl := Option.some.inj ((apply_of_leaves hleaves).symm.trans hw)
    exact ⟨le_rfl, fun hno => absurd hleaves hno⟩
  · obtain ⟨hne, -, rest, rfl, -, hle, -⟩ := apply_spec hw hleaves
    have hlt := h hne
    rw [List.length_append]
    exact ⟨by omega, fun _ => by omega⟩

end Rule

/-! ## Lists of rules -/

section

variable (L : Letters α) [DecidableEq α]

/-- The rules, one after the other. -/
def rewrite (rules : List (Rule α)) (w : List α) : Option (List α) :=
  run (fun w r => r.apply L w) w rules

variable {L} {rules : List (Rule α)} {w f : List α}

theorem rewrite_append (rs rs' : List (Rule α)) (w : List α) :
    rewrite L (rs ++ rs') w = (rewrite L rs w).bind fun u => rewrite L rs' u :=
  run_append _ _ _ _

theorem rewrite_cons (r : Rule α) (rs : List (Rule α)) (w : List α) :
    rewrite L (r :: rs) w = (r.apply L w).bind fun u => rewrite L rs u := rfl

theorem rewrite_of_leaves (h : ∀ r ∈ rules, r.Leaves L w) : rewrite L rules w = some w := by
  induction rules with
  | nil => rfl
  | cons r rules ih =>
      rw [rewrite_cons, Rule.apply_of_leaves (h r List.mem_cons_self), Option.bind_some]
      exact ih fun x hx => h x (List.mem_cons_of_mem _ hx)

/-- **The first rule that matches.** -/
theorem rewrite_first (h : ¬ ∀ r ∈ rules, r.Leaves L w) : ∃ pre r post,
    rules = pre ++ r :: post ∧ (∀ x ∈ pre, x.Leaves L w) ∧ ¬ r.Leaves L w := by
  induction rules with
  | nil => exact absurd (fun r hr => absurd hr List.not_mem_nil) h
  | cons r rules ih =>
      by_cases hr : r.Leaves L w
      · obtain ⟨pre, x, post, rfl, hpre, hx⟩ :=
          ih fun hall => h (List.forall_mem_cons.2 ⟨hr, hall⟩)
        exact ⟨r :: pre, x, post, rfl, List.forall_mem_cons.2 ⟨hr, hpre⟩, hx⟩
      · exact ⟨[], r, rules, rfl, fun x hx => absurd hx List.not_mem_nil, hr⟩

/-- **The last rule that matches.** -/
theorem rewrite_last (h : rewrite L rules w = some f) :
    (∀ r ∈ rules, r.Leaves L w) ∧ f = w ∨ ∃ pre r post u, rules = pre ++ r :: post ∧
      rewrite L pre w = some u ∧ r.apply L u = some f ∧ ¬ r.Leaves L u := by
  induction rules using List.reverseRecOn generalizing f with
  | nil => exact Or.inl ⟨fun r hr => absurd hr List.not_mem_nil, (Option.some.inj h).symm⟩
  | append_singleton rules x ih =>
      rw [rewrite_append, Option.bind_eq_some_iff] at h
      obtain ⟨u, hu, hlast⟩ := h
      obtain ⟨f', hx, hnil⟩ := run_cons_eq_some hlast
      obtain rfl := Option.some.inj hnil
      by_cases hleaves : x.Leaves L u
      · obtain rfl := Option.some.inj ((Rule.apply_of_leaves hleaves).symm.trans hx)
        rcases ih hu with ⟨hall, rfl⟩ | ⟨pre, r, post, v, rfl, hpre, hr, hmatch⟩
        · exact Or.inl ⟨List.forall_mem_append.2 ⟨hall, by simpa using hleaves⟩, rfl⟩
        · exact Or.inr ⟨pre, r, post ++ [x], v, by simp, hpre, hr, hmatch⟩
      · exact Or.inr ⟨rules, x, [], u, rfl, hu, hx, hleaves⟩

/-- Rules that shrink make a text shorter, if they change it. -/
theorem length_rewrite (h : ∀ r ∈ rules, r.Shrinks) (hf : rewrite L rules w = some f) :
    f.length ≤ w.length ∧ (¬ (∀ r ∈ rules, r.Leaves L w) → f.length < w.length) := by
  induction rules generalizing w with
  | nil =>
      obtain rfl := Option.some.inj hf
      exact ⟨le_rfl, fun hno => absurd (fun r hr => absurd hr List.not_mem_nil) hno⟩
  | cons r rules ih =>
      obtain ⟨u, hu, hf⟩ := run_cons_eq_some hf
      obtain ⟨hle, hlt⟩ := (h r List.mem_cons_self).length hu
      obtain ⟨hle', hlt'⟩ := ih (fun x hx => h x (List.mem_cons_of_mem _ hx)) hf
      refine ⟨hle'.trans hle, fun hno => ?_⟩
      by_cases hr : r.Leaves L w
      · obtain rfl := Option.some.inj ((Rule.apply_of_leaves hr).symm.trans hu)
        exact hlt' fun hall => hno (List.forall_mem_cons.2 ⟨hr, hall⟩)
      · exact hle'.trans_lt (hlt hr)

/-! ## No rule comes in the way -/

variable (L) in
/-- The rules in front of `r` spare its pattern, and it and those behind it spare its new
text. -/
def Settled (r : Rule α) : List (Rule α) → Prop
  | [] => False
  | x :: xs =>
      if x = r then ∀ y ∈ x :: xs, y.Spares L r.new else x.Spares L r.pattern ∧ Settled r xs

instance Settled.decidable (L : Letters α) (r : Rule α) :
    (rules : List (Rule α)) → Decidable (Settled L r rules)
  | [] => inferInstanceAs (Decidable False)
  | x :: xs =>
      have : Decidable (Settled L r xs) := Settled.decidable L r xs
      inferInstanceAs (Decidable (if x = r then ∀ y ∈ x :: xs, y.Spares L r.new
        else x.Spares L r.pattern ∧ Settled L r xs))

variable {r : Rule α}

theorem settled_iff : Settled L r rules ↔ ∃ pre post, rules = pre ++ r :: post ∧ r ∉ pre ∧
    (∀ x ∈ pre, x.Spares L r.pattern) ∧ ∀ x ∈ r :: post, x.Spares L r.new := by
  induction rules with
  | nil => simp [Settled]
  | cons x rules ih =>
      rw [Settled]
      by_cases hx : x = r
      · subst hx
        rw [if_pos rfl]
        constructor
        · exact fun h => ⟨[], rules, rfl, List.not_mem_nil, fun y hy => absurd hy List.not_mem_nil, h⟩
        · rintro ⟨pre, post, heq, hnot, -, h⟩
          cases pre with
          | nil =>
              obtain ⟨-, rfl⟩ := List.cons.inj heq
              exact h
          | cons y pre =>
              obtain ⟨rfl, -⟩ := List.cons.inj heq
              exact absurd List.mem_cons_self hnot
      · rw [if_neg hx, ih]
        constructor
        · rintro ⟨hspares, pre, post, rfl, hnot, hpre, hpost⟩
          exact ⟨x :: pre, post, rfl, by simp [Ne.symm hx, hnot],
            List.forall_mem_cons.2 ⟨hspares, hpre⟩, hpost⟩
        · rintro ⟨pre, post, heq, hnot, hpre, hpost⟩
          cases pre with
          | nil =>
              obtain ⟨rfl, -⟩ := List.cons.inj heq
              exact absurd rfl hx
          | cons y pre =>
              obtain ⟨rfl, rfl⟩ := List.cons.inj heq
              obtain ⟨hspares, hpre⟩ := List.forall_mem_cons.1 hpre
              exact ⟨hspares, pre, post, rfl, fun hmem => hnot (List.mem_cons_of_mem _ hmem), hpre,
                hpost⟩

/-- The rules from `r` on leave its new text. -/
theorem rewrite_new {post : List (Rule α)} (h : ∀ x ∈ r :: post, x.Spares L r.new) {t : List α}
    (ht : L.ends t = true) : rewrite L post (r.new ++ t) = some (r.new ++ t) :=
  rewrite_of_leaves fun x hx => (h x (List.mem_cons_of_mem _ hx)).leaves ht

/-- **A settled rule does what it says.** -/
theorem Settled.rewrite (h : Settled L r rules) {t : List α} (ht : L.ends t = true) :
    rewrite L rules (r.pattern ++ t) = some (r.new ++ t) := by
  obtain ⟨pre, post, rfl, -, hpre, hpost⟩ := settled_iff.1 h
  rw [rewrite_append, rewrite_of_leaves fun x hx => (hpre x hx).leaves ht, Option.bind_some,
    rewrite_cons]
  by_cases hne : r.pattern = r.new
  · rw [Rule.apply, if_pos hne, Option.bind_some, hne, rewrite_new hpost ht]
  · rw [Rule.apply_once hne ht (hpost r List.mem_cons_self), Option.bind_some,
      rewrite_new hpost ht]

/-! ## The condition is necessary -/

variable (L) in
/-- The rule does what it says. -/
def Right (rules : List (Rule α)) (r : Rule α) : Prop :=
  ∀ t, L.ends t = true → rewrite L rules (r.pattern ++ t) = some (r.new ++ t)

/-- What is behind a settled rule spares its new text. -/
theorem Settled.spares (h : Settled L r rules) {pre post : List (Rule α)}
    (hsplit : rules = pre ++ r :: post) : ∀ x ∈ post, x.Spares L r.new := by
  induction rules generalizing pre with
  | nil => exact h.elim
  | cons y rules ih =>
      rw [Settled] at h
      intro x hx
      split_ifs at h with hy
      · refine h x ?_
        rw [hsplit]
        exact List.mem_append_right _ (List.mem_cons_of_mem _ hx)
      · cases pre with
        | nil => exact absurd (List.cons.inj hsplit).1 hy
        | cons z pre => exact ih h.2 (List.cons.inj hsplit).2 x hx

/-- **A text that stays as it is** is left by all rules, if a rule that makes texts longer is
settled and leaves another text. -/
theorem leaves_of_rewrite
    (hrules : ∀ pre x post, rules = pre ++ x :: post →
      (Settled L x rules ∧ ∀ t, L.ends t = true → x.new ++ t ≠ w) ∨ ∀ y ∈ x :: post, y.Shrinks)
    (h : rewrite L rules w = some w) : ∀ x ∈ rules, x.Leaves L w := by
  by_contra hno
  obtain ⟨pre, x, post, hsplit, hpre, hx⟩ := rewrite_first hno
  have hrest : rewrite L (x :: post) w = some w := by
    rwa [hsplit, rewrite_append, rewrite_of_leaves hpre, Option.bind_some] at h
  rcases hrules pre x post hsplit with ⟨hsettled, hne⟩ | hshrinks
  · obtain ⟨u, hu, hrest⟩ := run_cons_eq_some hrest
    obtain ⟨-, -, t, rfl, ht, -⟩ := Rule.apply_spec hu hx
    have hkept := rewrite_of_leaves fun y hy => (hsettled.spares hsplit y hy).leaves ht
    exact hne t ht (Option.some.inj (hkept.symm.trans hrest))
  · have hlt := (length_rewrite hshrinks hrest).2 fun hall => hx (hall x List.mem_cons_self)
    exact lt_irrefl _ hlt

/-- **A rule that does what it says is settled**, if the rules in front that make texts longer
do what they say too. -/
theorem settled_of_rewrite (hnodup : rules.Nodup)
    (hrules : ∀ pre x post, rules = pre ++ x :: post →
      Right L rules x ∨ ∀ y ∈ x :: post, y.Shrinks)
    (hapart : ∀ x ∈ rules, ∀ y ∈ rules, ∀ s t, L.ends s = true → L.ends t = true →
      x.new ++ s = y.new ++ t → x = y)
    (hr : r ∈ rules) (h : Right L rules r) : Settled L r rules := by
  obtain ⟨pre, post, hsplit⟩ := List.append_of_mem hr
  induction hlen : pre.length using Nat.strong_induction_on generalizing r pre post with
  | _ n ih =>
  have hmem : ∀ x ∈ r :: post, x ∈ rules := fun x hx => by
    rw [hsplit]
    exact List.mem_append_right _ hx
  obtain ⟨-, hnodup', hdisj⟩ := List.nodup_append.1 (hsplit ▸ hnodup)
  have hnot : r ∉ pre := fun hin => hdisj r hin r List.mem_cons_self rfl
  -- the rules in front
  have hpre : ∀ x ∈ pre, x.Spares L r.pattern := by
    intro x hx hne
    by_contra hcatches
    obtain ⟨t, ht, hhits⟩ := Letters.catches_iff.1 (Bool.eq_true_of_not_eq_false hcatches)
    obtain ⟨p₁, y, p₂, rfl, hp₁, hy⟩ :=
      rewrite_first fun hall => Bool.false_ne_true ((hall x hx hne).symm.trans hhits)
    have hsplit' : rules = p₁ ++ y :: (p₂ ++ r :: post) := by
      rw [hsplit, List.append_assoc, List.cons_append]
    have hrun := h t ht
    rw [hsplit', rewrite_append, rewrite_of_leaves hp₁, Option.bind_some] at hrun
    have hyr : y ≠ r := fun heq => hnot (heq ▸ by simp)
    have hyrules : y ∈ rules := by rw [hsplit']; simp
    rcases hrules _ _ _ hsplit' with hright | hshrinks
    · have hsettled : Settled L y rules :=
        ih p₁.length (by rw [← hlen]; simp) hyrules hright _ _ hsplit' rfl
      obtain ⟨u, hu, hrest⟩ := run_cons_eq_some hrun
      obtain ⟨-, -, s, rfl, hs, -⟩ := Rule.apply_spec hu hy
      have hkept := rewrite_of_leaves fun z hz => (hsettled.spares hsplit' z hz).leaves hs
      exact hyr (hapart y hyrules r hr s t hs ht (Option.some.inj (hkept.symm.trans hrest)))
    · rcases rewrite_last hrun with ⟨hall, -⟩ | ⟨q₁, z, q₂, v, hq, hv, hz, hzleaves⟩
      · exact hy (hall y List.mem_cons_self)
      obtain ⟨-, -, s, heq, hs, hle, -⟩ := Rule.apply_spec hz hzleaves
      have hzmem : z ∈ rules := by
        rw [hsplit', hq]
        simp
      obtain rfl : r = z := hapart r hr z hzmem t s ht hs heq
      obtain rfl : t = s := List.append_cancel_left heq
      cases q₁ with
      | nil => exact hyr (List.cons.inj hq).1
      | cons y' q₁ =>
          -- something was cut off in front of `r`
          obtain ⟨rfl, hq⟩ := List.cons.inj hq
          have hlt := (length_rewrite (fun x hx => hshrinks x (by
            rcases List.mem_cons.1 hx with rfl | hx
            · exact List.mem_cons_self
            · rw [hq]
              exact List.mem_cons_of_mem _ (List.mem_append_left _ hx))) hv).2
              fun hall => hy (hall y List.mem_cons_self)
          rw [List.length_append] at hlt
          omega
  -- the rule itself and those behind it
  refine settled_iff.2 ⟨pre, post, hsplit, hnot, hpre, fun x hx hne => ?_⟩
  by_contra hcatches
  obtain ⟨t, ht, hhits⟩ := Letters.catches_iff.1 (Bool.eq_true_of_not_eq_false hcatches)
  have hrun := h t ht
  rw [hsplit, rewrite_append, rewrite_of_leaves fun y hy => (hpre y hy).leaves ht,
    Option.bind_some] at hrun
  obtain ⟨u, hu, hrest⟩ := run_cons_eq_some hrun
  rcases rewrite_last hrest with ⟨hall, rfl⟩ | ⟨q₁, z, q₂, v, hq, -, hz, hzleaves⟩
  · rcases List.mem_cons.1 hx with rfl | hx
    · -- it matches what it has put there
      have hself : L.hits x.pattern (x.pattern ++ t) = true := Letters.hits_self _ ht
      obtain ⟨-, -, s, heq, -, -, hmore, -⟩ := Rule.apply_spec hu fun hleaves =>
        Bool.false_ne_true ((hleaves hne).symm.trans hself)
      obtain rfl : t = s := List.append_cancel_left heq
      have hlt := hmore (by rwa [List.drop_left])
      rw [List.length_append] at hlt
      omega
    · exact Bool.false_ne_true ((hall x hx hne).symm.trans hhits)
  · obtain ⟨-, -, s, heq, hs, -⟩ := Rule.apply_spec hz hzleaves
    have hzpost : z ∈ post := by
      rw [hq]
      simp
    obtain rfl : r = z := hapart r hr z (hmem z (List.mem_cons_of_mem _ hzpost)) t s ht hs heq
    exact (List.nodup_cons.1 hnodup').1 hzpost

end
end Lib
end Floem
