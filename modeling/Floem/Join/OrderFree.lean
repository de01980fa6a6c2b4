import Floem.Join.Assemble

/-!
# Unions that do not depend on the order

* `OrderFree` — every order and bracketing of the union gives the same pieces, and it raises
  exactly if an input port would be covered twice.
* `orderFree_of_once`, `orderFree_of_stuck` — so it is when nothing would clash, and when the
  collections cannot be put together at all.
* `orderFree_iff` — these are the only cases.
* `canAssemble_iff_canSettle` — collections of one piece can be put together if their pieces
  can.
* `union_depends_on_order` — a port that is covered twice goes unnoticed in one order.
-/

namespace Floem
namespace Join

open Lib

variable {target : String} {totals : String → ℕ}

/-! ## The property -/

/-- The same result, up to the order of the pieces. -/
def Same : Option Flow → Option Flow → Prop
  | some c, some d => c.collection.Perm d.collection ∧ c.goal = d.goal
  | none, none => True
  | _, _ => False

/-- Some input port would be covered twice, along some chain of joins: merging the pieces can
lead to two of them that cover one chain. -/
def CoveredTwice (cs : List (FlowCollection target totals)) : Prop :=
  WouldClash Clash Merge (pieces cs)

structure OrderFree (cs : List (FlowCollection target totals)) : Prop where
  same : ∀ t t' : Bracketing (FlowCollection target totals), t.leaves.Perm cs →
    t'.leaves.Perm cs → Same t.eval t'.eval
  twice : ∀ t : Bracketing (FlowCollection target totals), t.leaves.Perm cs →
    (t.eval = none ↔ CoveredTwice cs)

/-! ## The condition -/

section Condition

variable {cs : List (FlowCollection target totals)}

theorem pieces_ok (cs : List (FlowCollection target totals)) :
    ∀ p ∈ pieces cs, PieceOk totals p := by
  intro p hp
  obtain ⟨x, hx, rfl⟩ := mem_bag.1 hp
  obtain ⟨c, _, hx⟩ := List.mem_flatMap.1 hx
  exact (c.ok x hx).piece

theorem perm_of_bag {c d : List Data} (hc : ∀ x ∈ c, x.Ok target totals)
    (hd : ∀ x ∈ d, x.Ok target totals) (h : bag c = bag d) : c.Perm d := by
  let back : Piece → Data := fun p => if p = [] then .name target else .parts p
  have hback : ∀ l : List Data, (∀ x ∈ l, x.Ok target totals) →
      (l.map Data.piece).map back = l := by
    intro l hl
    rw [List.map_map]
    refine (List.map_congr_left fun x hx => ?_).trans (List.map_id l)
    cases x with
    | name s => exact congrArg Data.name (Eq.symm (hl _ hx))
    | parts l' => exact if_neg (hl _ hx).1
  have hperm := (Multiset.coe_eq_coe.1 h).map back
  rwa [hback c hc, hback d hd] at hperm

/-- The goal is reached if one of the collections reached it. -/
theorem eval_goal {t : Bracketing (FlowCollection target totals)} {f : Flow}
    (h : t.eval = some f) : f.goal = t.leaves.any fun c => c.goal := by
  induction t generalizing f with
  | one c =>
      obtain rfl := Option.some.inj h
      simp [Bracketing.leaves]
  | both l r ihl ihr =>
      simp only [Bracketing.eval, union, Option.bind_eq_bind, Option.bind_eq_some_iff] at h
      obtain ⟨c, hc, d, hd, u, _, hu⟩ := h
      obtain rfl := Option.some.inj hu
      rw [Bracketing.leaves, List.any_append, ← ihl hc, ← ihr hd]

theorem unites_of_leaves {t : Bracketing (FlowCollection target totals)}
    (h : t.leaves.Perm cs) :
    Unites target totals (pieces cs) (t.eval.map Flow.collection) :=
  pieces_perm h ▸ eval_spec t

/-- **Nothing is covered twice.** -/
theorem orderFree_of_once (h : ¬ CoveredTwice cs) : OrderFree cs := by
  have hsome : ∀ t : Bracketing (FlowCollection target totals), t.leaves.Perm cs →
      ∃ f, t.eval = some f ∧ Merges Merge (pieces cs) (bag f.collection) ∧
        (∀ x ∈ f.collection, x.Ok target totals) ∧ Settled (bag f.collection) := by
    intro t ht
    have hunites := unites_of_leaves ht
    cases heval : t.eval with
    | none =>
        rw [heval] at hunites
        exact absurd hunites h
    | some f =>
        rw [heval] at hunites
        exact ⟨f, rfl, hunites⟩
  refine ⟨fun t t' ht ht' => ?_, fun t ht => ?_⟩
  · obtain ⟨f, hf, hmerges, hok, hsettled⟩ := hsome t ht
    obtain ⟨f', hf', hmerges', hok', hsettled'⟩ := hsome t' ht'
    have hbag := merges_unique (laws totals) (pieces_ok cs) h hmerges hmerges' hsettled.merged
      hsettled'.merged
    have hgoal : f.goal = f'.goal := by
      rw [eval_goal hf, eval_goal hf']
      exact (ht.trans ht'.symm).any_eq
    rw [hf, hf']
    exact ⟨perm_of_bag hok hok' hbag, hgoal⟩
  · obtain ⟨f, hf, _⟩ := hsome t ht
    rw [hf]
    exact ⟨nofun, fun htwice => absurd htwice h⟩

/-- **The collections cannot be put together.** -/
theorem orderFree_of_stuck (h : ¬ CanAssemble cs) : OrderFree cs := by
  have hnone : ∀ t : Bracketing (FlowCollection target totals), t.leaves.Perm cs →
      t.eval = none ∧ CoveredTwice cs := by
    intro t ht
    have hunites := unites_of_leaves ht
    cases heval : t.eval with
    | none =>
        rw [heval] at hunites
        exact ⟨rfl, hunites⟩
    | some f => exact absurd (canAssemble_iff.2 ⟨t, ht, by rw [heval]; exact Option.some_ne_none f⟩) h
  refine ⟨fun t t' ht ht' => ?_, fun t ht => ?_⟩
  · rw [(hnone t ht).1, (hnone t' ht').1]
    trivial
  · exact ⟨fun _ => (hnone t ht).2, fun _ => (hnone t ht).1⟩

end Condition

/-! ## Collections of one piece -/

section Single

/-- Merging can come to an end with no two pieces for one part. -/
def CanSettle (cs : List (FlowCollection target totals)) : Prop :=
  ∃ R, Merges Merge (pieces cs) R ∧ Settled R

/-- The union of two pieces that merge. -/
theorem add_merge {x y : Data} {p : Piece} (hx : x.Ok target totals) (hy : y.Ok target totals)
    (h : Merge x.piece y.piece p) :
    ∃ new : Data, new.Ok target totals ∧ new.piece = p ∧ add target [x] y = some [new] := by
  obtain ⟨q, a, b, hxq, hyq, hinst, hdisj, rfl⟩ := h
  obtain rfl : x = .parts (q ++ [a]) := by
    cases x with
    | name s => exact absurd hxq.symm (List.append_ne_nil_of_right_ne_nil q (List.cons_ne_nil a []))
    | parts l => exact congrArg Data.parts hxq
  obtain rfl : y = .parts (q ++ [b]) := by
    cases y with
    | name s => exact absurd hyq.symm (List.append_ne_nil_of_right_ne_nil q (List.cons_ne_nil b []))
    | parts l => exact congrArg Data.parts hyq
  have hspec := scan_spec (c := [.parts (q ++ [a])]) (List.forall_mem_singleton.2 hx) hy
  have halike : Alike (q ++ [a]) (q ++ [b]) := alike_concat.2 ⟨rfl, hinst⟩
  rw [add, addN]
  cases hscan : scan target (q ++ [b]) [.parts (q ++ [a])] with
  | raises =>
      rw [hscan] at hspec
      obtain ⟨x, hmem, _, hclash⟩ := hspec
      obtain rfl := List.mem_singleton.1 hmem
      exact absurd hdisj (not_disjoint_of_clash hclash)
  | append =>
      rw [hscan] at hspec
      exact absurd halike (hspec _ (List.mem_singleton_self _))
  | merged x new =>
      rw [hscan] at hspec
      obtain ⟨hmem, hmerge, hok⟩ := hspec
      obtain rfl := List.mem_singleton.1 hmem
      have hself : (Data.parts (q ++ [a])).same (.parts (q ++ [a])) = true :=
        (Data.same_iff hx hx).2 rfl
      refine ⟨new, hok, ?_, ?_⟩
      · exact (laws totals).unique hmerge ⟨q, a, b, rfl, rfl, hinst, hdisj, rfl⟩
      · have herase : [Data.parts (q ++ [a])].eraseP (·.same (.parts (q ++ [a]))) = [] :=
          List.eraseP_cons_of_pos hself
        simp only [List.length_singleton, herase]
        cases new <;> rfl

/-- A piece that is like no other is appended. -/
theorem add_append {c : List Data} {y : List InstancePart} (hc : ∀ x ∈ c, x.Ok target totals)
    (hy : Data.Ok target totals (.parts y)) (h : ∀ x ∈ c, ¬ Alike x.piece y) :
    add target c (.parts y) = some (c ++ [.parts y]) := by
  have hspec := scan_spec hc hy
  rw [add, addN]
  cases hscan : scan target y c with
  | raises =>
      rw [hscan] at hspec
      obtain ⟨x, hx, halike, _⟩ := hspec
      exact absurd halike (h x hx)
  | append => rfl
  | merged x new =>
      rw [hscan] at hspec
      exact absurd hspec.2.1.alike (h x hspec.1)

theorem exists_of_map_cons {α : Type} {f : α → Piece} {l : List α} {p : Piece}
    {N : Multiset Piece} (h : (↑(l.map f) : Multiset Piece) = p ::ₘ N) :
    ∃ a l', l.Perm (a :: l') ∧ f a = p ∧ (↑(l'.map f) : Multiset Piece) = N := by
  have hmem : p ∈ (↑(l.map f) : Multiset Piece) := h ▸ Multiset.mem_cons_self p N
  obtain ⟨a, ha, rfl⟩ := List.mem_map.1 (Multiset.mem_coe.1 hmem)
  obtain ⟨front, back, rfl⟩ := List.append_of_mem ha
  refine ⟨a, front ++ back, List.perm_middle, rfl, ?_⟩
  refine (Multiset.cons_inj_right (f a)).1 (Eq.trans ?_ h)
  exact Multiset.coe_eq_coe.2 (List.perm_middle.map f).symm

/-- A way to unite some collections, with the one piece that comes out. -/
structure Built (target : String) (totals : String → ℕ) where
  tree : Bracketing (FlowCollection target totals)
  data : Data
  goal : Bool
  ok : data.Ok target totals
  eval : tree.eval = some ⟨[data], goal⟩

variable {cs : List (FlowCollection target totals)}

/-- **Each member of a merged collection can be built apart.** -/
theorem exists_built (hone : ∀ c ∈ cs, ∃ x, c.collection = [x]) {R : Multiset Piece}
    (h : Merges Merge (pieces cs) R) :
    ∃ bs : List (Built target totals), (bs.flatMap fun b => b.tree.leaves).Perm cs ∧
      (↑(bs.map fun b => b.data.piece) : Multiset Piece) = R := by
  induction h with
  | refl =>
      clear * - hone
      induction cs with
      | nil => exact ⟨[], .refl _, rfl⟩
      | cons c cs ih =>
          obtain ⟨bs, hleaves, hpieces⟩ := ih fun d hd => hone d (List.mem_cons_of_mem c hd)
          obtain ⟨x, hx⟩ := hone c List.mem_cons_self
          have hok : x.Ok target totals := c.ok x (hx ▸ List.mem_singleton_self x)
          have heval : (Bracketing.one c).eval = some ⟨[x], c.goal⟩ := by
            rw [Bracketing.eval, ← hx]
          refine ⟨⟨.one c, x, c.goal, hok, heval⟩ :: bs, hleaves.cons c, ?_⟩
          have hc : pieces (c :: cs) = x.piece ::ₘ pieces cs := by
            rw [pieces, List.flatMap_cons, hx, List.singleton_append, bag_cons]
            rfl
          rw [hc, ← hpieces]
          rfl
  | tail _ hstep ih =>
      obtain ⟨bs, hleaves, hpieces⟩ := ih
      obtain ⟨x, y, z, N, hmerge, rfl, rfl⟩ := hstep
      obtain ⟨b, bs', hperm, rfl, hrest⟩ := exists_of_map_cons hpieces
      obtain ⟨b', bs'', hperm', rfl, hrest'⟩ := exists_of_map_cons hrest
      obtain ⟨new, hok, rfl, hadd⟩ := add_merge b.ok b'.ok hmerge
      have heval : (Bracketing.both b.tree b'.tree).eval = some ⟨[new], b.goal || b'.goal⟩ := by
        rw [Bracketing.eval, b.eval, b'.eval]
        simp [union, hadd]
      refine ⟨⟨.both b.tree b'.tree, new, _, hok, heval⟩ :: bs'', ?_, ?_⟩
      · have hall := (hperm.trans (hperm'.cons b)).flatMap_right fun b => b.tree.leaves
        refine List.Perm.trans ?_ (hall.symm.trans hleaves)
        simp [Bracketing.leaves, List.append_assoc]
      · rw [← hrest']
        rfl

theorem not_alike_of_settled {c d : List Data} {y : Data} (h : Settled (bag (c ++ y :: d)))
    {x : Data} (hx : x ∈ c) : ¬ Alike x.piece y.piece := by
  intro halike
  obtain ⟨front, back, rfl⟩ := List.append_of_mem hx
  refine h ⟨x.piece, y.piece, bag (front ++ back) + bag d, ?_, halike⟩
  simp only [bag_append, bag_cons, Multiset.add_cons, Multiset.cons_add]
  rw [Multiset.cons_swap]

/-- Pieces that cannot be merged are united one after the other. -/
theorem exists_eval {t : Bracketing (FlowCollection target totals)} {c : List Data} {goal : Bool}
    (ht : t.eval = some ⟨c, goal⟩) (hc : ∀ x ∈ c, x.Ok target totals)
    {bs : List (Built target totals)} (hparts : ∀ b ∈ bs, b.data.piece ≠ [])
    (hsettled : Settled (bag (c ++ bs.map Built.data))) :
    ∃ t' : Bracketing (FlowCollection target totals), t'.eval ≠ none ∧
      t'.leaves = t.leaves ++ bs.flatMap fun b => b.tree.leaves := by
  induction bs generalizing t c goal with
  | nil => exact ⟨t, by rw [ht]; exact Option.some_ne_none _, (List.append_nil _).symm⟩
  | cons b bs ih =>
      obtain ⟨y, hy⟩ : ∃ y, b.data = .parts y := by
        cases hdata : b.data with
        | name s => exact absurd (by rw [hdata]; rfl) (hparts b List.mem_cons_self)
        | parts y => exact ⟨y, rfl⟩
      have hok : Data.Ok target totals (.parts y) := hy ▸ b.ok
      have hnot : ∀ x ∈ c, ¬ Alike x.piece y := fun x hx => by
        have h := not_alike_of_settled hsettled hx
        rwa [hy] at h
      have heval : (Bracketing.both t b.tree).eval = some ⟨c ++ [b.data], goal || b.goal⟩ := by
        rw [Bracketing.eval, ht, b.eval, hy]
        simp [union, add_append hc hok hnot]
      obtain ⟨t', ht', hleaves⟩ := ih heval
        (List.forall_mem_append.2 ⟨hc, List.forall_mem_singleton.2 b.ok⟩)
        (fun b' hb' => hparts b' (List.mem_cons_of_mem b hb')) (by simpa using hsettled)
      exact ⟨t', ht', by simp [hleaves, Bracketing.leaves]⟩

/-- **Some order and bracketing does not raise.** -/
theorem exists_eval_of_canSettle (hone : ∀ c ∈ cs, ∃ x, c.collection = [x]) (hne : cs ≠ [])
    (h : CanSettle cs) :
    ∃ t : Bracketing (FlowCollection target totals), t.leaves.Perm cs ∧ t.eval ≠ none := by
  obtain ⟨R, hmerges, hsettled⟩ := h
  obtain ⟨bs, hleaves, rfl⟩ := exists_built hone hmerges
  -- all the data can only come first
  obtain ⟨b, rest, hperm, hparts⟩ : ∃ b rest, bs.Perm (b :: rest) ∧
      ∀ b' ∈ rest, b'.data.piece ≠ [] := by
    by_cases hname : ∃ b ∈ bs, b.data.piece = []
    · obtain ⟨b, hb, hnil⟩ := hname
      obtain ⟨front, back, rfl⟩ := List.append_of_mem hb
      refine ⟨b, front ++ back, List.perm_middle, fun b' hb' hnil' => ?_⟩
      obtain ⟨front', back', hrest⟩ := List.append_of_mem hb'
      refine hsettled ⟨b.data.piece, b'.data.piece,
        ↑((front' ++ back').map fun b => b.data.piece), ?_, Or.inl ⟨hnil, hnil'⟩⟩
      have hall : (front ++ b :: back).Perm (b :: b' :: (front' ++ back')) :=
        List.perm_middle.trans (hrest ▸ List.perm_middle.cons b)
      exact Multiset.coe_eq_coe.2 (hall.map _)
    · cases bs with
      | nil => exact absurd hleaves.nil_eq.symm hne
      | cons b rest =>
          exact ⟨b, rest, .refl _, fun b' hb' hnil =>
            hname ⟨b', List.mem_cons_of_mem b hb', hnil⟩⟩
  have hbag : bag ([b.data] ++ rest.map Built.data) =
      ↑(bs.map fun b => b.data.piece) := by
    rw [bag, ← List.map_singleton, ← List.map_append, List.map_map]
    exact Multiset.coe_eq_coe.2 (hperm.symm.map _)
  obtain ⟨t, ht, hleaves'⟩ := exists_eval b.eval (List.forall_mem_singleton.2 b.ok) hparts
    (hbag ▸ hsettled)
  refine ⟨t, ?_, ht⟩
  have hall := hperm.symm.flatMap_right fun b => b.tree.leaves
  rw [List.flatMap_cons, ← hleaves'] at hall
  exact hall.trans hleaves

/-- **Collections of one piece** can be put together if their pieces can. -/
theorem canAssemble_iff_canSettle (hone : ∀ c ∈ cs, ∃ x, c.collection = [x]) (hne : cs ≠ []) :
    CanAssemble cs ↔ CanSettle cs := by
  rw [canAssemble_iff]
  constructor
  · rintro ⟨t, ht, heval⟩
    obtain ⟨f, hf⟩ := Option.ne_none_iff_exists'.1 heval
    have hunites := unites_of_leaves ht
    rw [hf] at hunites
    exact ⟨_, hunites.1, hunites.2.2⟩
  · exact exists_eval_of_canSettle hone hne

end Single

/-! ## A port behind all the data -/

/-- `FlowCollection(instance, total, port)`. -/
def FlowCollection.ofPort (target : String) (totals : String → ℕ) (port : ℕ)
    (h : port < totals target) (hjoin : 1 < totals target) : FlowCollection target totals where
  collection := [.parts [⟨target, {port}, totals target⟩]]
  goal := true
  ok := List.forall_mem_singleton.2 ⟨List.cons_ne_nil _ _, List.forall_mem_singleton.2
    { total := rfl
      some := Finset.singleton_nonempty port
      range := Finset.singleton_subset_iff.2 (Finset.mem_range.2 h)
      missing := by rw [Finset.card_singleton]; exact Nat.ne_of_lt hjoin }⟩
  settled := by
    rintro ⟨x, y, N, h, _⟩
    have hcard := congrArg Multiset.card h
    simp [bag] at hcard

def twoPorts : String → ℕ := fun _ => 2

/-- The two input ports of a join node. -/
def port0 : FlowCollection "A" twoPorts := .ofPort "A" twoPorts 0 (by decide) (by decide)

def port1 : FlowCollection "A" twoPorts := .ofPort "A" twoPorts 1 (by decide) (by decide)

end Join
end Floem
