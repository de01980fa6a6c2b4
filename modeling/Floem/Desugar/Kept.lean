import Floem.Desugar.Scope

/-!
# What the forks of a scope keep

* `Preserved` — each port is connected once, each port leads where it led, directly or through
  its fork, the orders name the forks, and the other statements are there.
* `SplitBy` — the connections of a scope have been split: these ports got forks, with these
  numbers.
* `SplitBy.once`, `SplitBy.behind`, `SplitBy.same`, `SplitBy.direct` — the connections are kept,
  if the names of the forks were new.
* `SplitBy.unused` — only then.
-/

namespace Floem
namespace Desugar

open Lib

/-! ## The property -/

/-- Where a port leads. -/
def dests (cs : List (Key × Dest)) (k : Key) : List Dest := (cs.filter (·.1 = k)).map Prod.snd

/-- Where the ports of an instance lead. -/
def destsOf (cs : List (Key × Dest)) (f : String) : List Dest :=
  (cs.filter (·.1.1 = f)).map Prod.snd

/-- The instance of an inserted fork that is all there is behind the port, leads where the port
led, and is mapped to the resource of the port's instance. -/
structure IsFork (s out : List Stmt) (k : Key) (f : String) : Prop where
  behind : dests (conns out) k = [(f, some "in")]
  same : (destsOf (conns out) f).Perm (dests (conns s) k)
  declared : ∃ name types, .element (forkMultiValues name (fanout s k) types) ∈ out ∧
    .elementInstance name f [] ∈ out
  mapped : ∀ resource, resourceMap s k.1 = some resource → .resourceMap resource f ∈ out

/-- A name in an order: a forked instance is replaced by a fork of it. -/
structure NameKept (s out : List Stmt) (x x' : String) : Prop where
  fork : ForkedInst s x → ∃ port, 1 < fanout s (x, port) ∧ IsFork s out (x, port) x'
  same : ¬ ForkedInst s x → x' = x

def Names.Kept (R : String → String → Prop) : Names → Names → Prop
  | single a, single a' => R a a'
  | several as, several as' => List.Forall₂ R as as'
  | _, _ => False

/-- A statement of the scope and what it has become. -/
def Renamed (s out : List Stmt) : Stmt → Stmt → Prop
  | .connect ele1 ele2 out1 in2, st =>
    (1 < fanout s (ele1, out1) → ∃ f i, IsFork s out (ele1, out1) f ∧
      st = .connect f ele2 (outPort i) in2) ∧
    (¬ 1 < fanout s (ele1, out1) → st = .connect ele1 ele2 out1 in2)
  | .resourceOrder a b, st =>
    ∃ a' b', st = .resourceOrder a' b' ∧ a.Kept (NameKept s out) a' ∧ NameKept s out b b'
  | .block kind _, st => ∃ t, st = .block kind t
  | o, st => st = o

/-- A scope, all that is in it afterwards, and what its statements have become. -/
structure Preserved (s out body : List Stmt) : Prop where
  once : ((conns out).map Prod.fst).Nodup
  forked : ∀ k ∈ keys s, 1 < fanout s k → ∃ f, IsFork s out k f
  direct : ∀ k ∈ keys s, ¬ 1 < fanout s k → (dests (conns out) k).Perm (dests (conns s) k)
  renamed : List.Forall₂ (Renamed s out) s body

theorem Names.Kept.self {R : String → String → Prop} {a : Names} (h : a.Kept R a) {x : String}
    (hx : x ∈ a.toList) : R x x := by
  cases a with
  | single a => rwa [List.mem_singleton.1 hx]
  | several as => exact List.forall₂_same.1 h x hx

theorem Names.kept_of_self {R : String → String → Prop} {a : Names}
    (h : ∀ x ∈ a.toList, R x x) : a.Kept R a := by
  cases a with
  | single a => exact h a (List.mem_singleton_self a)
  | several as => exact List.forall₂_same.2 h

/-! ## Destinations -/

theorem dests_append (cs cs' : List (Key × Dest)) (k : Key) :
    dests (cs ++ cs') k = dests cs k ++ dests cs' k := by
  rw [dests, List.filter_append, List.map_append]
  rfl

theorem destsOf_append (cs cs' : List (Key × Dest)) (f : String) :
    destsOf (cs ++ cs') f = destsOf cs f ++ destsOf cs' f := by
  rw [destsOf, List.filter_append, List.map_append]
  rfl

theorem dests_perm {cs cs' : List (Key × Dest)} (h : cs.Perm cs') (k : Key) :
    (dests cs k).Perm (dests cs' k) :=
  (h.filter _).map _

theorem destsOf_perm {cs cs' : List (Key × Dest)} (h : cs.Perm cs') (f : String) :
    (destsOf cs f).Perm (destsOf cs' f) :=
  (h.filter _).map _

theorem mem_dests {cs : List (Key × Dest)} {k : Key} {d : Dest} :
    d ∈ dests cs k ↔ (k, d) ∈ cs := by
  rw [dests, List.mem_map]
  constructor
  · rintro ⟨c, hc, rfl⟩
    rw [List.mem_filter, decide_eq_true_eq] at hc
    exact hc.2 ▸ hc.1
  · exact fun h => ⟨(k, d), List.mem_filter.2 ⟨h, decide_eq_true rfl⟩, rfl⟩

theorem length_destsOf (cs : List (Key × Dest)) (f : String) :
    (destsOf cs f).length = cs.countP fun c => c.1.1 = f := by
  rw [destsOf, List.length_map, List.countP_eq_length_filter]

theorem length_dests (cs : List (Key × Dest)) (k : Key) :
    (dests cs k).length = cs.countP fun c => c.1 = k := by
  rw [dests, List.length_map, List.countP_eq_length_filter]

/-! ## Forks with these numbers -/

/-- The instance of the fork of a port, if the ports are forked with these numbers. -/
def nameIn (forks : List (Key × ℕ)) (k : Key) : Option String :=
  (forks.find? fun c => c.1 = k).map fun c => forkInst c.1 c.2

section Forks

variable {forks : List (Key × ℕ)} {k k' : Key} {f : String}

theorem nameIn_eq_none : nameIn forks k = none ↔ k ∉ forks.map Prod.fst := by
  rw [nameIn, Option.map_eq_none_iff, List.find?_eq_none, List.mem_map]
  constructor
  · rintro h ⟨c, hc, rfl⟩
    exact h c hc (decide_eq_true rfl)
  · exact fun h c hc hk => h ⟨c, hc, of_decide_eq_true hk⟩

theorem mem_of_nameIn (hk : nameIn forks k = some f) : k ∈ forks.map Prod.fst := by
  by_contra hno
  rw [nameIn_eq_none.2 hno] at hk
  cases hk

theorem nameIn_eq_some (hports : (forks.map Prod.fst).Nodup) :
    nameIn forks k = some f ↔ ∃ i, (k, i) ∈ forks ∧ forkInst k i = f := by
  rw [nameIn, Option.map_eq_some_iff]
  constructor
  · rintro ⟨⟨k', i⟩, hfind, rfl⟩
    obtain rfl : k' = k := by simpa using List.find?_some hfind
    exact ⟨i, List.mem_of_find?_eq_some hfind, rfl⟩
  · rintro ⟨i, hi, rfl⟩
    cases hfind : forks.find? fun c => c.1 = k with
    | none => exact absurd (decide_eq_true rfl) (List.find?_eq_none.1 hfind (k, i) hi)
    | some c =>
        have hk : c.1 = k := by simpa using List.find?_some hfind
        have hc := List.inj_on_of_nodup_map hports (List.mem_of_find?_eq_some hfind) hi hk
        exact ⟨c, rfl, by rw [hc]⟩

theorem nameIn_inj (hports : (forks.map Prod.fst).Nodup) (hnumbers : (forks.map Prod.snd).Nodup)
    (k k' : Key) (f : String) (h : nameIn forks k = some f) (h' : nameIn forks k' = some f) :
    k = k' := by
  obtain ⟨i, hi, rfl⟩ := (nameIn_eq_some hports).1 h
  obtain ⟨j, hj, hsame⟩ := (nameIn_eq_some hports).1 h'
  obtain rfl := forkInst_inj hsame
  exact congrArg Prod.fst (List.inj_on_of_nodup_map hnumbers hi hj rfl)

/-- The connection of a port that is forked leads to the fork. -/
theorem dests_backsIn (hports : (forks.map Prod.fst).Nodup) (k : Key) :
    dests (backsIn forks) k = (nameIn forks k).toList.map fun f => (f, some "in") := by
  induction forks with
  | nil => rfl
  | cons c forks ih =>
      have hparts := List.nodup_cons.1 hports
      have hrest := ih hparts.2
      by_cases hk : c.1 = k
      · have hnone : nameIn forks k = none := nameIn_eq_none.2 (hk ▸ hparts.1)
        rw [hnone] at hrest
        rw [nameIn, List.find?_cons_of_pos (by simpa using hk)]
        rw [dests, backsIn, List.map_cons, List.filter_cons_of_pos (by simpa using hk),
          List.map_cons]
        exact congrArg _ hrest
      · rw [nameIn, List.find?_cons_of_neg (by simpa using hk)]
        rw [dests, backsIn, List.map_cons, List.filter_cons_of_neg (by simpa using hk)]
        exact hrest

theorem mem_backsIn (hports : (forks.map Prod.fst).Nodup) {d : Dest} :
    (k, d) ∈ backsIn forks ↔ ∃ f, nameIn forks k = some f ∧ d = (f, some "in") := by
  rw [← mem_dests, dests_backsIn hports]
  simp only [List.mem_map, Option.mem_toList]
  exact exists_congr fun f => and_congr_right fun _ => eq_comm

/-- The name of a port of the scope is not the name of a fork. -/
theorem ne_of_unused {cs : List (Key × Dest)} (hunused : Unused (nameIn forks) cs)
    (hk : k ∈ cs.map Prod.fst) (hf : nameIn forks k' = some f) : k.1 ≠ f := by
  obtain ⟨c, hc, rfl⟩ := List.mem_map.1 hk
  exact hunused k' f hf c hc

end Forks

/-! ## Connections that have been split -/

/-- The connections of `out` are the ones of `s`, split, with the ones to the forks. -/
structure SplitBy (s out : List Stmt) (forks : List (Key × ℕ)) (cs : List (Key × Dest)) :
    Prop where
  ports : (forks.map Prod.fst).Nodup
  numbers : (forks.map Prod.snd).Nodup
  forked : ∀ k, k ∈ forks.map Prod.fst ↔ 1 < fanout s k
  before : cs.Perm (conns s)
  after : (conns out).Perm (split (nameIn forks) outPort [] cs ++ backsIn forks)

namespace SplitBy

variable {s out : List Stmt} {forks : List (Key × ℕ)} {cs : List (Key × Dest)}
  (h : SplitBy s out forks cs) {k : Key} {f : String}

include h

theorem fanout_lt (hk : nameIn forks k = some f) : 1 < fanout s k :=
  (h.forked k).1 (mem_of_nameIn hk)

theorem name_of_lt (hk : 1 < fanout s k) : ∃ f, nameIn forks k = some f :=
  Option.ne_none_iff_exists'.1 fun hnone => nameIn_eq_none.1 hnone ((h.forked k).2 hk)

theorem mem_before : k ∈ cs.map Prod.fst ↔ k ∈ (conns s).map Prod.fst :=
  (h.before.map Prod.fst).mem_iff

theorem mem_of_forked (hk : nameIn forks k = some f) : k ∈ cs.map Prod.fst :=
  h.mem_before.2 (mem_conns_of_forked (h.fanout_lt hk))

/-- No connection of a port that is forked is left. -/
theorem notMem_split (hunused : Unused (nameIn forks) cs) (hk : nameIn forks k = some f) :
    k ∉ (split (nameIn forks) outPort [] cs).map Prod.fst := by
  intro hmem
  obtain ⟨_, hnone⟩ | ⟨k', f', i, hf', heq, _⟩ := mem_split hmem
  · rw [hk] at hnone
    cases hnone
  · exact ne_of_unused hunused (h.mem_of_forked hk) hf' (congrArg Prod.fst heq)

/-- **Each port is connected once.** -/
theorem once (hunused : Unused (nameIn forks) cs) : ((conns out).map Prod.fst).Nodup := by
  rw [(h.after.map Prod.fst).nodup_iff, List.map_append, map_fst_backsIn]
  refine List.nodup_append.2 ⟨?_, h.ports, ?_⟩
  · refine split_nodup outPort_injective (nameIn_inj h.ports h.numbers) hunused (fun k hk => ?_) []
    rw [nameIn_eq_none, h.forked, fanout_eq] at hk
    rw [(h.before.map Prod.fst).count_eq]
    exact Nat.le_of_not_lt hk
  · rintro k hk k' hk' rfl
    obtain ⟨f, hf⟩ := h.name_of_lt ((h.forked k).1 hk')
    exact h.notMem_split hunused hf hk

/-- **The fork is all there is behind the port.** -/
theorem behind (hunused : Unused (nameIn forks) cs) (hk : nameIn forks k = some f) :
    dests (conns out) k = [(f, some "in")] := by
  have hnil : dests (split (nameIn forks) outPort [] cs) k = [] := by
    refine List.eq_nil_iff_forall_not_mem.2 fun d hd => ?_
    exact h.notMem_split hunused hk (List.mem_map.2 ⟨(k, d), mem_dests.1 hd, rfl⟩)
  have hperm := dests_perm h.after k
  rw [dests_append, hnil, dests_backsIn h.ports, hk] at hperm
  exact List.perm_singleton.1 hperm

/-- **The fork leads where the port led.** -/
theorem same (hunused : Unused (nameIn forks) cs) (hk : nameIn forks k = some f) :
    (destsOf (conns out) f).Perm (dests (conns s) k) := by
  have hnil : destsOf (backsIn forks) f = [] := by
    refine List.map_eq_nil_iff.2 (List.filter_eq_nil_iff.2 fun c hc => ?_)
    have hport : c.1 ∈ forks.map Prod.fst := by
      rw [← map_fst_backsIn]
      exact List.mem_map_of_mem hc
    obtain ⟨g, hg⟩ := h.name_of_lt ((h.forked c.1).1 hport)
    have hne := ne_of_unused hunused (h.mem_of_forked hg) hk
    simpa using hne
  have hperm := destsOf_perm h.after f
  rw [destsOf_append, hnil, List.append_nil] at hperm
  have hsplit : destsOf (split (nameIn forks) outPort [] cs) f = dests cs k :=
    split_from (nameIn_inj h.ports h.numbers) hunused hk []
  rw [hsplit] at hperm
  exact hperm.trans (dests_perm h.before k)

/-- **A port that is not forked leads where it led.** -/
theorem direct (hunused : Unused (nameIn forks) cs) (hmem : k ∈ keys s)
    (hk : ¬ 1 < fanout s k) : (dests (conns out) k).Perm (dests (conns s) k) := by
  have hnone : nameIn forks k = none := by rwa [nameIn_eq_none, h.forked]
  have hrest : dests (split (nameIn forks) outPort [] cs) k = dests cs k :=
    split_direct hnone
      (fun k' f hf => ne_of_unused hunused (h.mem_before.2 (mem_keys.1 hmem)) hf) []
  have hperm := dests_perm h.after k
  rw [dests_append, dests_backsIn h.ports, hnone, hrest] at hperm
  simp only [Option.toList_none, List.map_nil, List.append_nil] at hperm
  exact hperm.trans (dests_perm h.before k)

/-- What is behind a forked port is its fork. -/
theorem name_of_behind (hk : 1 < fanout s k) (hbehind : dests (conns out) k = [(f, some "in")]) :
    nameIn forks k = some f := by
  obtain ⟨g, hg⟩ := h.name_of_lt hk
  have hmem := (mem_backsIn h.ports).2 ⟨g, hg, rfl⟩
  have hdest := mem_dests.2 (h.after.mem_iff.2 (List.mem_append_right _ hmem))
  rw [hbehind, List.mem_singleton] at hdest
  rw [hg, (Prod.mk.inj hdest).1]

/-- A fork has another name than the instance in front of it. -/
theorem not_forkedInst_of_nameKept {x : String} (hx : NameKept s out x x) : ¬ ForkedInst s x := by
  intro hfork
  obtain ⟨port, hfan, hisFork⟩ := hx.fork hfork
  obtain ⟨i, _, hsame⟩ :=
    (nameIn_eq_some h.ports).1 (h.name_of_behind hfan hisFork.behind)
  exact forkInst_ne _ _ hsame

/-- **The names were new**, if each fork leads where its port led: else more would come from a
fork. -/
theorem unused (hforked : ∀ k ∈ keys s, 1 < fanout s k → ∃ f, IsFork s out k f) :
    Unused (nameIn forks) cs := by
  intro k f hk c hc hcf
  have hfan := h.fanout_lt hk
  obtain ⟨f', hfork⟩ := hforked k (mem_keys.2 (mem_conns_of_forked hfan)) hfan
  obtain rfl : f' = f := Option.some.inj ((h.name_of_behind hfan hfork.behind).symm.trans hk)
  have hlength := ((destsOf_perm h.after f').symm.trans
    (hfork.same.trans (dests_perm h.before k).symm)).length_eq
  rw [destsOf_append, List.length_append, length_destsOf, length_destsOf, length_dests] at hlength
  cases hnew : nameIn forks c.1 with
  | some g =>
      -- the connection to the fork of this port comes from the same name
      have hback : 0 < (backsIn forks).countP fun c => c.1.1 = f' := by
        refine List.countP_pos_iff.2 ⟨_, (mem_backsIn h.ports).2 ⟨g, hnew, rfl⟩, ?_⟩
        simpa using hcf
      have hsplit : cs.countP (fun c => c.1 = k) ≤
          (split (nameIn forks) outPort [] cs).countP fun c : Key × Dest => c.1.1 = f' :=
        countP_le_split hk []
      omega
  | none => exact ne_of_countP_split hk (hlength ▸ Nat.le_add_right ..) hc hnew hcf

end SplitBy

end Desugar
end Floem
