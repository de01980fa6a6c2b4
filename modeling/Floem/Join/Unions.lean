import Mathlib
import Floem.Join.Pieces

/-!
# Unions in any order

* `Data.Ok`, `FlowCollection` — collections as the code builds them.
* `add_spec` — `add` merges pieces, or finds two that clash.
* `eval_spec` — so does a union in any order and bracketing.
-/

namespace Floem
namespace Join

open Lib

variable {target : String} {totals : String → ℕ}

/-! ## Data -/

namespace Data

/-- The parts of the data; all of it has none. -/
def piece : Data → Piece
  | name _ => []
  | parts l => l

/-- The name is the target's, and there are parts. -/
def Ok (target : String) (totals : String → ℕ) : Data → Prop
  | name s => s = target
  | parts l => l ≠ [] ∧ PieceOk totals l

theorem Ok.piece {x : Data} (h : x.Ok target totals) : PieceOk totals x.piece := by
  cases x with
  | name s => exact fun _ ha => absurd ha List.not_mem_nil
  | parts l => exact h.2

end Data

/-- The pieces of a collection. -/
def bag (c : List Data) : Multiset Piece := ↑(c.map Data.piece)

/-- No two members could be merged. -/
def Settled (M : Multiset Piece) : Prop := ¬ Clashes Alike M

theorem alike_symm {x y : Piece} (h : Alike x y) : Alike y x := by
  obtain ⟨rfl, rfl⟩ | ⟨p, a, b, rfl, rfl, hinst⟩ := h
  · exact Or.inl ⟨rfl, rfl⟩
  · exact Or.inr ⟨p, b, a, rfl, rfl, hinst.symm⟩

theorem Settled.merged {M : Multiset Piece} (h : Settled M) : Merged Merge M := by
  rintro M' ⟨x, y, z, N, hmerge, rfl, _⟩
  exact h ⟨x, y, N, rfl, hmerge.alike⟩

@[simp] theorem bag_nil : bag [] = 0 := rfl

@[simp] theorem bag_cons (x : Data) (c : List Data) : bag (x :: c) = x.piece ::ₘ bag c := rfl

@[simp] theorem bag_append (c d : List Data) : bag (c ++ d) = bag c + bag d := by
  rw [bag, List.map_append]
  rfl

theorem mem_bag {c : List Data} {p : Piece} : p ∈ bag c ↔ ∃ x ∈ c, x.piece = p := by
  rw [bag, Multiset.mem_coe, List.mem_map]

theorem settled_cons {p : Piece} {M : Multiset Piece} (hM : Settled M)
    (hp : ∀ x ∈ M, ¬ Alike x p) : Settled (p ::ₘ M) := by
  rintro ⟨x, y, N, h, halike⟩
  obtain ⟨rfl, rfl⟩ | ⟨_, K, rfl, hK⟩ := Multiset.cons_eq_cons.1 h
  · exact hp y (Multiset.mem_cons_self y N) (alike_symm halike)
  · obtain ⟨rfl, rfl⟩ | ⟨_, L, rfl, rfl⟩ := Multiset.cons_eq_cons.1 hK
    · exact hp x (Multiset.mem_cons_self ..) halike
    · exact hM ⟨x, y, L, rfl, halike⟩

theorem Settled.of_le {M N : Multiset Piece} (h : Settled M) (hle : N ≤ M) : Settled N := by
  obtain ⟨K, rfl⟩ := Multiset.le_iff_exists_add.1 hle
  exact fun hN => h (hN.add K)

/-! ## One piece is added -/

theorem same_iff {a b : InstancePart} (ha : a.Ok totals) (hb : b.Ok totals) :
    a.same b = true ↔ a = b := by
  constructor
  · intro h
    simp only [InstancePart.same, decide_eq_true_eq] at h
    have htotal : a.total = b.total := by rw [ha.total, hb.total, h.1]
    cases a; cases b
    simp_all
  · rintro rfl
    simp [InstancePart.same]

theorem sameParts_iff {x y : Piece} (hx : PieceOk totals x) (hy : PieceOk totals y) :
    sameParts x y = true ↔ x = y := by
  induction x generalizing y with
  | nil => cases y <;> simp [sameParts, List.isEqv]
  | cons a x ih =>
      cases y with
      | nil => simp [sameParts, List.isEqv]
      | cons b y =>
          have hhead := same_iff (hx a List.mem_cons_self) (hy b List.mem_cons_self)
          have htail := @ih y (fun c hc => hx c (List.mem_cons_of_mem a hc))
            (fun c hc => hy c (List.mem_cons_of_mem b hc))
          rw [sameParts] at htail ⊢
          rw [List.isEqv, Bool.and_eq_true, hhead, htail, List.cons.injEq]

theorem Data.same_iff {x y : Data} (hx : x.Ok target totals) (hy : y.Ok target totals) :
    x.same y = true ↔ x = y := by
  cases x <;> cases y
  · simp [Data.same]
  · simp [Data.same]
  · simp [Data.same]
  · rw [Data.same, sameParts_iff hx.2 hy.2, Data.parts.injEq]

theorem disjoint_of_intersection {a b : InstancePart} (hinst : a.inst = b.inst) :
    (a.intersection b).isSome = true ↔ ¬ Disjoint a.ports b.ports := by
  rw [InstancePart.intersection, Finset.not_disjoint_iff_nonempty_inter, ← Finset.card_pos]
  split <;> simp_all

theorem not_alike_nil {y : Piece} (hy : y ≠ []) : ¬ Alike [] y := by
  rintro (⟨_, rfl⟩ | ⟨p, a, b, h, _⟩)
  · exact hy rfl
  · cases p <;> cases h

theorem alike_concat {p q : Piece} {a b : InstancePart} :
    Alike (p ++ [a]) (q ++ [b]) ↔ p = q ∧ a.inst = b.inst := by
  constructor
  · rintro (⟨h, _⟩ | ⟨r, a', b', hp, hq, hinst⟩)
    · cases p <;> cases h
    · obtain ⟨rfl, ha⟩ := List.append_inj' hp rfl
      obtain ⟨rfl, hb⟩ := List.append_inj' hq rfl
      rw [List.singleton_inj.1 ha, List.singleton_inj.1 hb]
      exact ⟨rfl, hinst⟩
  · rintro ⟨rfl, hinst⟩
    exact Or.inr ⟨p, a, b, rfl, rfl, hinst⟩

/-- What the loop of `add` finds: a piece that clashes, one to merge with, or nothing. -/
def Outcome.Meets (target : String) (totals : String → ℕ) (c : List Data) (y : Piece) :
    Outcome → Prop
  | .raises => ∃ x ∈ c, Alike x.piece y ∧ Clash x.piece y
  | .merged x new => x ∈ c ∧ Merge x.piece y new.piece ∧ new.Ok target totals
  | .append => ∀ x ∈ c, ¬ Alike x.piece y

theorem Outcome.Meets.cons {o : Outcome} {c : List Data} {y : Piece}
    (h : o.Meets target totals c y) {x : Data} (hx : ¬ Alike x.piece y) :
    o.Meets target totals (x :: c) y := by
  cases o with
  | raises =>
      obtain ⟨x', hx', hclash⟩ := h
      exact ⟨x', List.mem_cons_of_mem x hx', hclash⟩
  | merged x' new => exact ⟨List.mem_cons_of_mem x h.1, h.2⟩
  | append => exact List.forall_mem_cons.2 ⟨hx, h⟩

theorem scan_concat {c : List Data} {p q : Piece} {a b : InstancePart}
    (hx : PieceOk totals (p ++ [a])) (hy : PieceOk totals (q ++ [b]))
    (hrest : (scan target (q ++ [b]) c).Meets target totals c (q ++ [b])) :
    (scan target (q ++ [b]) (.parts (p ++ [a]) :: c)).Meets target totals
      (.parts (p ++ [a]) :: c) (q ++ [b]) := by
  rw [scan]
  split
  · rename_i hsame
    rw [sameParts_iff hx hy] at hsame
    rw [← hsame]
    exact ⟨_, List.mem_cons_self, alike_concat.2 ⟨rfl, rfl⟩, clash_self hx⟩
  · rw [List.dropLast_concat, List.dropLast_concat, List.getLast?_concat, List.getLast?_concat]
    split
    · rename_i hprefix
      obtain rfl := (sameParts_iff hx.prefix hy.prefix).1 hprefix
      simp only
      by_cases hinst : a.inst = b.inst
      · split
        · rename_i hports
          rw [disjoint_of_intersection hinst] at hports
          exact ⟨_, List.mem_cons_self, alike_concat.2 ⟨rfl, hinst⟩,
            clash_concat hx.prefix hinst hports⟩
        · rename_i hports
          rw [disjoint_of_intersection hinst, not_not] at hports
          rw [InstancePart.union, if_pos hinst]
          by_cases hfull : (a.ports ∪ b.ports).card = a.total
          · rw [if_pos hfull]
            refine ⟨List.mem_cons_self, ⟨p, a, b, rfl, rfl, hinst, hports, ?_⟩, ?_⟩
            · rw [if_pos hfull]
              split <;> simp_all [Data.piece]
            · split
              · rfl
              · rename_i hp
                exact ⟨hp, hx.prefix⟩
          · rw [if_neg hfull]
            refine ⟨List.mem_cons_self, ⟨p, a, b, rfl, rfl, hinst, hports, ?_⟩, ?_, ?_⟩
            · rw [if_neg hfull]
              rfl
            · exact List.append_ne_nil_of_right_ne_nil p (List.cons_ne_nil _ [])
            · exact hx.prefix.concat (hx.last.union hy.last hinst hfull)
      · have hnone : a.intersection b = none := if_neg fun h => hinst h.1
        rw [hnone, InstancePart.union, if_neg hinst]
        exact hrest.cons fun h => hinst (alike_concat.1 h).2
    · rename_i hprefix
      rw [sameParts_iff hx.prefix hy.prefix] at hprefix
      exact hrest.cons fun h => hprefix (alike_concat.1 h).1

/-- **What the loop finds.** -/
theorem scan_spec {c : List Data} {y : Piece} (hc : ∀ x ∈ c, x.Ok target totals)
    (hy : Data.Ok target totals (.parts y)) : (scan target y c).Meets target totals c y := by
  induction c with
  | nil => exact fun x hx => absurd hx List.not_mem_nil
  | cons x c ih =>
      have hrest := ih fun x hx => hc x (List.mem_cons_of_mem _ hx)
      cases x with
      | name s => exact hrest.cons (not_alike_nil hy.1)
      | parts l =>
          have hl := hc _ List.mem_cons_self
          obtain hnil | ⟨p, a, rfl⟩ := List.eq_nil_or_concat' l
          · exact absurd hnil hl.1
          · obtain hnil | ⟨q, b, rfl⟩ := List.eq_nil_or_concat' y
            · exact absurd hnil hy.1
            · exact scan_concat hl.2 hy.2 hrest

/-- These pieces are merged as far as possible, or they would clash. -/
def Unites (target : String) (totals : String → ℕ) (M : Multiset Piece) :
    Option (List Data) → Prop
  | some c => Merges Merge M (bag c) ∧ (∀ x ∈ c, x.Ok target totals) ∧ Settled (bag c)
  | none => WouldClash Clash Merge M

theorem unites_append {c : List Data} {y : Data} (hc : ∀ x ∈ c, x.Ok target totals)
    (hsettled : Settled (bag c)) (hy : y.Ok target totals)
    (h : ∀ x ∈ c, ¬ Alike x.piece y.piece) :
    Unites target totals (y.piece ::ₘ bag c) (some (c ++ [y])) := by
  have hbag : bag (c ++ [y]) = y.piece ::ₘ bag c := by
    rw [bag_append, bag_cons, bag_nil, Multiset.add_cons, Multiset.add_zero]
  refine ⟨hbag ▸ .refl, ?_, ?_⟩
  · exact List.forall_mem_append.2 ⟨hc, List.forall_mem_singleton.2 hy⟩
  · rw [hbag]
    refine settled_cons hsettled fun p hp => ?_
    obtain ⟨x, hx, rfl⟩ := mem_bag.1 hp
    exact h x hx

theorem unites_clash {c : List Data} {x : Data} {p : Piece} (hx : x ∈ c)
    (h : Clash x.piece p) : Unites target totals (p ::ₘ bag c) none :=
  ⟨_, .refl, clashes_of_mem (mem_bag.2 ⟨x, hx, rfl⟩) h⟩

/-- What is done after some mergers. -/
theorem Unites.of_merges {M M' : Multiset Piece} (h : Merges Merge M M')
    {r : Option (List Data)} (hr : Unites target totals M' r) : Unites target totals M r := by
  cases r with
  | none => exact WouldClash.of_merges h hr
  | some c => exact ⟨h.trans hr.1, hr.2⟩

/-- **`add` merges, or it finds a clash.** -/
theorem addN_spec {n : ℕ} {c : List Data} {y : Data} (hn : c.length ≤ n)
    (hc : ∀ x ∈ c, x.Ok target totals) (hsettled : Settled (bag c))
    (hy : y.Ok target totals) :
    Unites target totals (y.piece ::ₘ bag c) (addN target n c y) := by
  induction n generalizing c y with
  | zero =>
      obtain rfl := List.length_eq_zero_iff.1 (Nat.le_zero.1 hn)
      cases y with
      | name s => exact unites_append hc hsettled hy nofun
      | parts y => exact unites_append hc hsettled hy nofun
  | succ n ih =>
      cases y with
      | name s =>
          cases c with
          | nil => exact unites_append hc hsettled hy nofun
          | cons x c =>
              exact unites_clash List.mem_cons_self (clash_nil (hc x List.mem_cons_self).piece)
      | parts y =>
          have hspec := scan_spec hc hy
          rw [addN]
          cases hscan : scan target y c with
          | raises =>
              rw [hscan] at hspec
              obtain ⟨x, hx, _, hclash⟩ := hspec
              exact unites_clash hx hclash
          | append =>
              rw [hscan] at hspec
              exact unites_append hc hsettled hy hspec
          | merged x new =>
              rw [hscan] at hspec
              obtain ⟨hx, hmerge, hnew⟩ := hspec
              obtain ⟨x', front, back, _, hsame, rfl, herase⟩ := List.exists_of_eraseP hx
                (p := (·.same x)) ((Data.same_iff (hc x hx) (hc x hx)).2 rfl)
              obtain rfl := (Data.same_iff (hc x' (by simp)) (hc x hx)).1 hsame
              have hbag : bag (front ++ x' :: back) = x'.piece ::ₘ bag (front ++ back) := by
                simp only [bag_append, bag_cons, Multiset.add_cons]
              simp only [herase]
              refine Unites.of_merges (.single ⟨x'.piece, (Data.parts y).piece, new.piece,
                bag (front ++ back), hmerge, ?_, rfl⟩) (ih ?_ ?_ ?_ hnew)
              · rw [hbag, Multiset.cons_swap]
              · rw [List.length_append, List.length_cons] at hn
                rw [List.length_append]
                omega
              · exact fun z hz => hc z (by simp at hz ⊢; tauto)
              · exact hsettled.of_le (hbag ▸ Multiset.le_cons_self ..)

/-- The loop of `union`. -/
theorem foldlM_add_spec {c d : List Data} (hc : ∀ x ∈ c, x.Ok target totals)
    (hsettled : Settled (bag c)) (hd : ∀ x ∈ d, x.Ok target totals) :
    Unites target totals (bag c + bag d) (d.foldlM (add target) c) := by
  induction d generalizing c with
  | nil => exact ⟨by rw [bag_nil, Multiset.add_zero], hc, hsettled⟩
  | cons y d ih =>
      have hadd := addN_spec (le_refl c.length) hc hsettled (hd y List.mem_cons_self)
      have hbag : bag c + bag (y :: d) = (y.piece ::ₘ bag c) + bag d := by
        rw [bag_cons, Multiset.add_cons, Multiset.cons_add]
      rw [List.foldlM_cons, add, hbag]
      cases hr : addN target c.length c y with
      | none =>
          rw [hr] at hadd
          exact WouldClash.add hadd (bag d)
      | some c' =>
          rw [hr] at hadd
          obtain ⟨hmerges, hok, hsettled'⟩ := hadd
          refine Unites.of_merges (hmerges.add (bag d)) ?_
          exact ih hok hsettled' fun x hx => hd x (List.mem_cons_of_mem y hx)

/-! ## Orders and bracketings -/

/-- A `FlowCollection` of the target; `totals` are the numbers of input ports of the instances. -/
structure FlowCollection (target : String) (totals : String → ℕ) extends Flow where
  ok : ∀ x ∈ collection, x.Ok target totals
  settled : Settled (bag collection)

/-- A way to unite collections. -/
inductive Bracketing (α : Type)
  | one (c : α)
  | both (l r : Bracketing α)

namespace Bracketing

def leaves {α : Type} : Bracketing α → List α
  | one c => [c]
  | both l r => l.leaves ++ r.leaves

def eval : Bracketing (FlowCollection target totals) → Option Flow
  | one c => some c.toFlow
  | both l r => do union target (← l.eval) (← r.eval)

end Bracketing

/-- All the pieces of these collections. -/
def pieces (cs : List (FlowCollection target totals)) : Multiset Piece :=
  bag (cs.flatMap fun c => c.collection)

theorem pieces_append (cs ds : List (FlowCollection target totals)) :
    pieces (cs ++ ds) = pieces cs + pieces ds := by
  rw [pieces, List.flatMap_append, bag_append]
  rfl

theorem pieces_perm {cs ds : List (FlowCollection target totals)} (h : cs.Perm ds) :
    pieces cs = pieces ds :=
  Multiset.coe_eq_coe.2 ((h.flatMap_right _).map _)

/-- **A union in any order and bracketing** merges all the pieces, or they would clash. -/
theorem eval_spec (t : Bracketing (FlowCollection target totals)) :
    Unites target totals (pieces t.leaves) (t.eval.map Flow.collection) := by
  induction t with
  | one c =>
      have hbag : pieces [c] = bag c.collection := by
        rw [pieces, List.flatMap_cons, List.flatMap_nil, List.append_nil]
      rw [Bracketing.leaves, hbag]
      exact ⟨.refl, c.ok, c.settled⟩
  | both l r ihl ihr =>
      rw [Bracketing.leaves, Bracketing.eval, pieces_append]
      cases hl : l.eval with
      | none =>
          rw [hl] at ihl
          exact WouldClash.add ihl _
      | some c =>
          cases hr : r.eval with
          | none =>
              rw [hr] at ihr
              rw [Multiset.add_comm]
              exact WouldClash.add ihr _
          | some d =>
              rw [hl] at ihl
              rw [hr] at ihr
              obtain ⟨hmerges, hok, hsettled⟩ := ihl
              obtain ⟨hmerges', hok', _⟩ := ihr
              have hfold := foldlM_add_spec hok hsettled hok'
              have hboth := (hmerges.add (pieces r.leaves)).trans (hmerges'.add_left (bag c.collection))
              refine Unites.of_merges hboth ?_
              simp only [Option.bind_eq_bind, Option.bind_some, union]
              cases hu : d.collection.foldlM (add target) c.collection with
              | none => rwa [hu] at hfold
              | some u => rwa [hu] at hfold

end Join
end Floem
