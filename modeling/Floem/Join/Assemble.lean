import Floem.Join.Unions

/-!
# Putting collections together

A union adds the pieces of the second collection to the first, one by one and in their
order, so an order of unions cannot take a collection apart.  What it can do is said here
on the pieces.

* `TakesUp` — a collection takes up a piece: it is merged as long as there is a member it
  differs from in the last part only.
* `Assembles`, `CanAssemble` — whole collections are put together, two by two.
* `assembles_iff` — so they are exactly by some order and bracketing that does not raise.
-/

namespace Floem
namespace Join

open Lib

variable {target : String} {totals : String → ℕ}

/-! ## The pieces of a collection -/

/-- The pieces of a collection take up a piece.  A member that differs from it in the last
part only, and has no port of it there, is merged with it, and what comes out is taken up
by the others. -/
inductive TakesUp : List Piece → Piece → List Piece → Prop
  /-- A piece that is like no member comes last; all the data only come first. -/
  | last {c : List Piece} {y : Piece} (hlike : ∀ x ∈ c, ¬ Alike x y) (hall : y = [] → c = []) :
      TakesUp c y (c ++ [y])
  | merge {front back r : List Piece} {x y z : Piece} (h : Merge x y z)
      (hrest : TakesUp (front ++ back) z r) : TakesUp (front ++ x :: back) y r

/-- The pieces of a collection take up those of another in their order. -/
inductive TakesAll : List Piece → List Piece → List Piece → Prop
  | nil {c : List Piece} : TakesAll c [] c
  | cons {c c' d r : List Piece} {y : Piece} (hy : TakesUp c y c') (hd : TakesAll c' d r) :
      TakesAll c (y :: d) r

/-- Whole collections are put together, two by two. -/
inductive Assembles : List (FlowCollection target totals) → List Piece → Prop
  | one (c : FlowCollection target totals) : Assembles [c] (c.collection.map Data.piece)
  | both {cs ds : List (FlowCollection target totals)} {c d r : List Piece}
      (hc : Assembles cs c) (hd : Assembles ds d) (h : TakesAll c d r) : Assembles (cs ++ ds) r

/-- There is a way to put these collections together in which every piece is taken up. -/
def CanAssemble (cs : List (FlowCollection target totals)) : Prop :=
  ∃ ds r, ds.Perm cs ∧ Assembles ds r

/-! ## One member is like a piece -/

/-- Two pieces that are like a third are like each other. -/
theorem Alike.of_alike {x x' y : Piece} (h : Alike x y) (h' : Alike x' y) : Alike x x' := by
  obtain ⟨rfl, rfl⟩ | ⟨p, a, b, rfl, rfl, hinst⟩ := h
  · obtain ⟨rfl, -⟩ | ⟨p, a, b, -, hnil, -⟩ := h'
    · exact Or.inl ⟨rfl, rfl⟩
    · exact absurd hnil (by simp)
  · obtain ⟨-, hnil⟩ | ⟨p', a', b', rfl, hy, hinst'⟩ := h'
    · exact absurd hnil (by simp)
    · obtain ⟨rfl, hb⟩ := List.append_inj' hy rfl
      obtain rfl := List.singleton_inj.1 hb
      exact Or.inr ⟨p, a, a', rfl, rfl, hinst.trans hinst'.symm⟩

/-- In a settled collection, one member at most is like a piece. -/
theorem Settled.eq_of_alike {f b f' b' : List Piece} {x x' y : Piece}
    (hsettled : Settled ↑(f ++ x :: b)) (h : f ++ x :: b = f' ++ x' :: b') (hx : Alike x y)
    (hx' : Alike x' y) : f = f' ∧ x = x' ∧ b = b' := by
  have hno : ∀ {f m b : List Piece} {x x' : Piece},
      Settled ↑(f ++ x :: (m ++ x' :: b)) → Alike x x' → False := by
    intro f m b x x' hs halike
    refine hs ⟨x, x', ↑(f ++ (m ++ b)), Multiset.coe_eq_coe.2 ?_, halike⟩
    refine List.perm_middle.trans (List.Perm.cons x ?_)
    rw [← List.append_assoc, ← List.append_assoc]
    exact List.perm_middle
  obtain ⟨m, hf, hb⟩ | ⟨m, hf, hb⟩ := List.append_eq_append_iff.1 h
  · cases m with
    | nil =>
        obtain ⟨rfl, rfl⟩ := List.cons.inj hb
        exact ⟨by simpa using hf.symm, rfl, rfl⟩
    | cons x'' m =>
        obtain ⟨rfl, rfl⟩ := List.cons.inj hb
        exact absurd (hx.of_alike hx') (hno hsettled)
  · cases m with
    | nil =>
        obtain ⟨rfl, rfl⟩ := List.cons.inj hb
        exact ⟨by simpa using hf, rfl, rfl⟩
    | cons x'' m =>
        obtain ⟨rfl, rfl⟩ := List.cons.inj hb
        rw [h] at hsettled
        exact absurd (hx'.of_alike hx) (hno hsettled)

/-- Pieces that merge do not clash. -/
theorem Merge.not_clash {x y z : Piece} (h : Merge x y z) : ¬ Clash x y := by
  obtain ⟨p, a, b, rfl, rfl, -, hdisj, -⟩ := h
  exact fun hclash => not_disjoint_of_clash hclash hdisj

/-! ## `add` takes a piece up -/

/-- All the data are taken up by nothing else. -/
theorem takesUp_nil_iff {c r : List Piece} : TakesUp c [] r ↔ c = [] ∧ r = [[]] := by
  constructor
  · intro h
    generalize hy : ([] : Piece) = y at h
    cases h with
    | last hlike hall =>
        obtain rfl := hall hy.symm
        exact ⟨rfl, by rw [← hy]; rfl⟩
    | merge hmerge hrest =>
        obtain ⟨p, a, b, -, hnil, -⟩ := hmerge
        exact absurd (hy.trans hnil) (by simp)
  · rintro ⟨rfl, rfl⟩
    exact .last (fun x hx => absurd hx List.not_mem_nil) (fun _ => rfl)

/-- A piece that is like no member comes last. -/
theorem takesUp_iff_of_not_alike {c r : List Piece} {y : Piece} (hlike : ∀ x ∈ c, ¬ Alike x y)
    (hy : y ≠ []) : TakesUp c y r ↔ r = c ++ [y] := by
  constructor
  · intro h
    cases h with
    | last => rfl
    | merge hmerge => exact absurd hmerge.alike (hlike _ (by simp))
  · rintro rfl
    exact .last hlike (fun h => absurd h hy)

/-- A piece that is like a member is merged with it. -/
theorem takesUp_iff_of_merge {f b r : List Piece} {x y z : Piece}
    (hsettled : Settled ↑(f ++ x :: b)) (h : Merge x y z) :
    TakesUp (f ++ x :: b) y r ↔ TakesUp (f ++ b) z r := by
  constructor
  · intro htakes
    generalize hc : f ++ x :: b = c at htakes
    cases htakes with
    | last hlike => exact absurd h.alike (hlike x (by rw [← hc]; simp))
    | merge hmerge hrest =>
        obtain ⟨rfl, rfl, rfl⟩ := hsettled.eq_of_alike hc h.alike hmerge.alike
        rwa [h.unique hmerge]
  · exact .merge h

/-- Two pieces that clash in the last part are not merged. -/
theorem not_takesUp_of_clash {c r : List Piece} {x y : Piece} (hsettled : Settled ↑c)
    (hx : x ∈ c) (halike : Alike x y) (hclash : Clash x y) : ¬ TakesUp c y r := by
  intro htakes
  cases htakes with
  | last hlike => exact hlike x hx halike
  | merge hmerge =>
      obtain ⟨f, b, hc⟩ := List.append_of_mem hx
      obtain ⟨-, rfl, -⟩ := hsettled.eq_of_alike hc hmerge.alike halike
      exact hmerge.not_clash hclash

/-- `add` of all the data. -/
theorem addN_name_iff (n : ℕ) (c : List Data) (s : String) (r : List Piece) :
    TakesUp (c.map Data.piece) [] r ↔
      ∃ c', addN target n c (.name s) = some c' ∧ c'.map Data.piece = r := by
  have hadd : addN target n c (.name s) = if c = [] then some [.name s] else none := by
    cases n <;> rfl
  rw [takesUp_nil_iff, hadd, List.map_eq_nil_iff]
  by_cases hc : c = []
  · simp [hc, Data.piece, eq_comm]
  · simp [hc]

/-- **`add` takes a piece up, or raises.** -/
theorem addN_iff {n : ℕ} {c : List Data} {y : Data} (hn : c.length ≤ n)
    (hc : ∀ x ∈ c, x.Ok target totals) (hsettled : Settled (bag c)) (hy : y.Ok target totals)
    (r : List Piece) : TakesUp (c.map Data.piece) y.piece r ↔
      ∃ c', addN target n c y = some c' ∧ c'.map Data.piece = r := by
  induction n generalizing c y with
  | zero =>
      obtain rfl := List.length_eq_zero_iff.1 (Nat.le_zero.1 hn)
      cases y with
      | name s => exact addN_name_iff 0 [] s r
      | parts y =>
          refine (takesUp_iff_of_not_alike (fun x hx => absurd hx List.not_mem_nil) hy.1).trans ?_
          simp [addN, scan, Data.piece, eq_comm]
  | succ n ih =>
      cases y with
      | name s => exact addN_name_iff (n + 1) c s r
      | parts y =>
          have hspec := scan_spec hc hy
          rw [addN]
          cases hscan : scan target y c with
          | raises =>
              rw [hscan] at hspec
              obtain ⟨x, hx, halike, hclash⟩ := hspec
              exact iff_of_false (not_takesUp_of_clash hsettled (List.mem_map_of_mem hx) halike hclash)
                (by simp)
          | append =>
              rw [hscan] at hspec
              refine (takesUp_iff_of_not_alike (fun p hp => ?_) hy.1).trans ?_
              · obtain ⟨x, hx, rfl⟩ := List.mem_map.1 hp
                exact hspec x hx
              · simp [Data.piece, eq_comm]
          | merged x new =>
              rw [hscan] at hspec
              obtain ⟨hx, hmerge, hnew⟩ := hspec
              obtain ⟨x', front, back, _, hsame, rfl, herase⟩ := List.exists_of_eraseP hx
                (p := (·.same x)) ((Data.same_iff (hc x hx) (hc x hx)).2 rfl)
              obtain rfl := (Data.same_iff (hc x' (by simp)) (hc x hx)).1 hsame
              have hpieces : (front ++ x' :: back).map Data.piece =
                  front.map Data.piece ++ x'.piece :: back.map Data.piece := by simp
              have hbag : bag (front ++ x' :: back) = x'.piece ::ₘ bag (front ++ back) := by
                simp only [bag_append, bag_cons, Multiset.add_cons]
              have hpieces_settled : Settled
                  ↑(front.map Data.piece ++ x'.piece :: back.map Data.piece) := by
                rw [← hpieces]
                exact hsettled
              rw [hpieces]
              refine (takesUp_iff_of_merge hpieces_settled hmerge).trans ?_
              rw [← List.map_append]
              simp only [herase]
              refine ih ?_ ?_ ?_ hnew
              · rw [List.length_append, List.length_cons] at hn
                rw [List.length_append]
                omega
              · exact fun z hz => hc z (by simp at hz ⊢; tauto)
              · exact hsettled.of_le (hbag ▸ Multiset.le_cons_self ..)

/-- The loop of `union`. -/
theorem foldlM_add_iff {c d : List Data} (hc : ∀ x ∈ c, x.Ok target totals)
    (hsettled : Settled (bag c)) (hd : ∀ x ∈ d, x.Ok target totals) (r : List Piece) :
    TakesAll (c.map Data.piece) (d.map Data.piece) r ↔
      ∃ c', d.foldlM (add target) c = some c' ∧ c'.map Data.piece = r := by
  induction d generalizing c with
  | nil =>
      constructor
      · intro h
        cases h
        exact ⟨c, rfl, rfl⟩
      · rintro ⟨c', hc', rfl⟩
        obtain rfl := Option.some.inj hc'
        exact .nil
  | cons y d ih =>
      have hy := hd y List.mem_cons_self
      have hd' : ∀ x ∈ d, x.Ok target totals := fun x hx => hd x (List.mem_cons_of_mem y hx)
      have hadd := addN_spec (le_refl c.length) hc hsettled hy
      rw [List.foldlM_cons, add]
      constructor
      · intro h
        cases h with
        | cons htakes hrest =>
            obtain ⟨c', hc', rfl⟩ := (addN_iff (le_refl c.length) hc hsettled hy _).1 htakes
            rw [hc'] at hadd ⊢
            exact (ih hadd.2.1 hadd.2.2 hd').1 hrest
      · rintro ⟨c'', hc'', hr⟩
        obtain ⟨c', hc', hrest⟩ := Option.bind_eq_some_iff.1 hc''
        rw [hc'] at hadd
        exact .cons ((addN_iff (le_refl c.length) hc hsettled hy _).2 ⟨c', hc', rfl⟩)
          ((ih hadd.2.1 hadd.2.2 hd').2 ⟨c'', hrest, hr⟩)

/-! ## Orders and bracketings -/

/-- **Collections can be assembled** exactly by some order and bracketing that does not
raise. -/
theorem assembles_iff {cs : List (FlowCollection target totals)} {r : List Piece} :
    Assembles cs r ↔ ∃ (t : Bracketing (FlowCollection target totals)) (f : Flow),
      t.leaves = cs ∧ t.eval = some f ∧ f.collection.map Data.piece = r := by
  have hok : ∀ {t : Bracketing (FlowCollection target totals)} {f : Flow}, t.eval = some f →
      (∀ x ∈ f.collection, x.Ok target totals) ∧ Settled (bag f.collection) := by
    intro t f h
    have hspec := eval_spec t
    rw [h] at hspec
    exact hspec.2
  constructor
  · intro h
    induction h with
    | one c => exact ⟨.one c, c.toFlow, rfl, rfl, rfl⟩
    | both hc hd h ihc ihd =>
        obtain ⟨t, f, rfl, ht, rfl⟩ := ihc
        obtain ⟨t', f', rfl, ht', rfl⟩ := ihd
        obtain ⟨c', hc', rfl⟩ := (foldlM_add_iff (hok ht).1 (hok ht).2 (hok ht').1 _).1 h
        exact ⟨.both t t', ⟨c', f.goal || f'.goal⟩, rfl, by simp [Bracketing.eval, ht, ht', union, hc'],
          rfl⟩
  · rintro ⟨t, f, rfl, ht, rfl⟩
    induction t generalizing f with
    | one c =>
        obtain rfl := Option.some.inj ht
        exact .one c
    | both t t' iht iht' =>
        simp only [Bracketing.eval, union, Option.bind_eq_bind, Option.bind_eq_some_iff] at ht
        obtain ⟨c, hc, d, hd, u, hu, hf⟩ := ht
        obtain rfl := Option.some.inj hf
        exact .both (iht c hc) (iht' d hd)
          ((foldlM_add_iff (hok hc).1 (hok hc).2 (hok hd).1 _).2 ⟨u, hu, rfl⟩)

theorem canAssemble_iff {cs : List (FlowCollection target totals)} : CanAssemble cs ↔
    ∃ t : Bracketing (FlowCollection target totals), t.leaves.Perm cs ∧ t.eval ≠ none := by
  constructor
  · rintro ⟨ds, r, hperm, h⟩
    obtain ⟨t, f, rfl, ht, -⟩ := assembles_iff.1 h
    exact ⟨t, hperm, by rw [ht]; exact Option.some_ne_none f⟩
  · rintro ⟨t, hperm, ht⟩
    obtain ⟨f, hf⟩ := Option.ne_none_iff_exists'.1 ht
    exact ⟨t.leaves, _, hperm, assembles_iff.2 ⟨t, f, rfl, hf, rfl⟩⟩

end Join
end Floem
