import Mathlib
import Floem.Lib.Run

/-!
# Depth-first search

The recursion that collects what can be reached from a node: a node that is entered and
not collected yet is collected, and then each of its successors is searched.

* `dfs` — the search, with the depth it may recurse to; `none` when it comes to something
  that is no node.
* `mem_dfs` — it collects exactly what can be reached through entered nodes.
* `dfs_isSome` — a depth over the number of nodes is always enough.
-/

namespace Floem
namespace Lib

variable {α : Type*}

/-- The search from `root` with the nodes collected so far. -/
def dfs [DecidableEq α] (next : α → Option (List α)) (enter : α → Bool) : ℕ → α → List α → Option (List α)
  | 0, _, _ => none
  | depth + 1, root, found => do
    let succs ← next root
    if root ∉ found ∧ enter root then
      succs.foldlM (fun found x => dfs next enter depth x found) (root :: found)
    else some found

/-- `y` is a successor of `x` that is entered. -/
def Enters (next : α → Option (List α)) (enter : α → Bool) (x y : α) : Prop :=
  ∃ succs, next x = some succs ∧ y ∈ succs ∧ enter y

/-- What a search that starts at `x` may add to what was found. -/
structure Grows (next : α → Option (List α)) (enter : α → Bool) (x : α → Prop)
    (found found' : List α) : Prop where
  subset : ∀ y ∈ found, y ∈ found'
  reached : ∀ y ∈ found', y ∈ found ∨ ∃ r, x r ∧ enter r ∧
    Relation.ReflTransGen (Enters next enter) r y
  closed : ∀ y ∈ found', y ∉ found → ∀ z, Enters next enter y z → z ∈ found'

namespace Grows

variable {next : α → Option (List α)} {enter : α → Bool} {x : α → Prop}

theorem refl (found : List α) : Grows next enter x found found :=
  ⟨fun _ h => h, fun _ h => Or.inl h, fun _ h hn => absurd h hn⟩

theorem trans {s t u : List α} (h : Grows next enter x s t) (h' : Grows next enter x t u) :
    Grows next enter x s u where
  subset y hy := h'.subset y (h.subset y hy)
  reached y hy := (h'.reached y hy).elim (h.reached y) Or.inr
  closed y hy hn z hz := by
    by_cases ht : y ∈ t
    · exact h'.subset z (h.closed y ht hn z hz)
    · exact h'.closed y hy ht z hz

theorem mono {x' : α → Prop} {s t : List α} (h : Grows next enter x s t) (hx : ∀ r, x r → x' r) :
    Grows next enter x' s t where
  subset := h.subset
  reached y hy := (h.reached y hy).imp_right fun ⟨r, hr, hrest⟩ => ⟨r, hx r hr, hrest⟩
  closed := h.closed

end Grows

variable [DecidableEq α] {next : α → Option (List α)} {enter : α → Bool}

/-- **The invariant of the search.** -/
theorem dfs_grows {depth : ℕ} {root : α} {found found' : List α}
    (h : dfs next enter depth root found = some found') :
    Grows next enter (· = root) found found' ∧ (enter root → root ∈ found') := by
  induction depth generalizing root found found' with
  | zero => cases h
  | succ depth ih =>
      rw [dfs, Option.bind_eq_bind, Option.bind_eq_some_iff] at h
      obtain ⟨succs, hsuccs, h⟩ := h
      split_ifs at h with hroot
      · -- the loop over the successors, each of which is a search
        obtain ⟨hgrows, hentered⟩ := establish (R := Grows next enter (· ∈ succs))
          (P := fun y t => enter y → y ∈ t) Grows.refl (fun _ _ _ => Grows.trans)
          (fun s y hy t hst => (ih hst).imp_left fun hst => hst.mono fun r hr => hr ▸ hy)
          (fun y s t hs hst hy => hst.subset y (hs hy)) h
        have hmem : root ∈ found' := hgrows.subset root List.mem_cons_self
        refine ⟨⟨fun y hy => hgrows.subset y (List.mem_cons_of_mem root hy), fun y hy => ?_,
          fun y hy hn z hz => ?_⟩, fun _ => hmem⟩
        · rcases hgrows.reached y hy with hfound | ⟨r, hr, her, hry⟩
          · rcases List.mem_cons.1 hfound with rfl | hfound
            · exact Or.inr ⟨y, rfl, hroot.2, .refl⟩
            · exact Or.inl hfound
          · exact Or.inr ⟨root, rfl, hroot.2, .head ⟨succs, hsuccs, hr, her⟩ hry⟩
        · by_cases hy' : y = root
          · obtain ⟨succs', hsuccs', hz, hez⟩ := hz
            obtain rfl := Option.some.inj (hsuccs.symm.trans (hy' ▸ hsuccs'))
            exact hentered z hz hez
          · refine hgrows.closed y hy (fun hc => ?_) z hz
            exact (List.mem_cons.1 hc).elim hy' hn
      · obtain rfl := Option.some.inj h
        refine ⟨Grows.refl found, fun he => ?_⟩
        by_contra hn
        exact hroot ⟨hn, he⟩

/-- **The search is complete and sound.**  From a node that is entered it collects what can
be reached through nodes that are entered. -/
theorem mem_dfs {depth : ℕ} {root : α} {found : List α} (hroot : enter root)
    (h : dfs next enter depth root [] = some found) (y : α) :
    y ∈ found ↔ Relation.ReflTransGen (Enters next enter) root y := by
  obtain ⟨hgrows, hmem⟩ := dfs_grows h
  constructor
  · intro hy
    rcases hgrows.reached y hy with hnil | ⟨r, rfl, -, hry⟩
    · cases hnil
    · exact hry
  · intro hy
    induction hy with
    | refl => exact hmem hroot
    | tail _ hz ih => exact hgrows.closed _ ih List.not_mem_nil _ hz

/-- What is found makes fewer nodes left. -/
theorem length_left_le (nodes : List α) {found found' : List α} (h : ∀ y ∈ found, y ∈ found') :
    (nodes.filter (· ∉ found')).length ≤ (nodes.filter (· ∉ found)).length := by
  refine (List.monotone_filter_right nodes fun y hy => ?_).length_le
  rw [decide_eq_true_eq] at hy ⊢
  exact fun hf => hy (h y hf)

theorem length_left_lt {nodes found : List α} {root : α} (hroot : root ∈ nodes)
    (hn : root ∉ found) :
    (nodes.filter (· ∉ root :: found)).length < (nodes.filter (· ∉ found)).length := by
  have hsplit : nodes.filter (· ∉ root :: found) =
      (nodes.filter (· ∉ found)).filter (· ≠ root) := by
    rw [List.filter_filter]
    refine List.filter_congr fun y _ => ?_
    simp [not_or]
  rw [hsplit]
  refine List.length_filter_lt_length_iff_exists.2 ⟨root, ?_, by simp⟩
  exact List.mem_filter.2 ⟨hroot, by simpa using hn⟩

/-- **The depth suffices.**  Where all successors of nodes are nodes, a depth over the
number of nodes that are not collected yet is never used up. -/
theorem dfs_isSome {nodes : List α}
    (hnext : ∀ x ∈ nodes, ∃ succs, next x = some succs ∧ ∀ y ∈ succs, y ∈ nodes) {depth : ℕ}
    {root : α} (hroot : root ∈ nodes) {found : List α}
    (hdepth : (nodes.filter (· ∉ found)).length < depth) :
    ∃ found', dfs next enter depth root found = some found' := by
  induction depth generalizing root found with
  | zero => cases hdepth
  | succ depth ih =>
      obtain ⟨succs, hsuccs, hnodes⟩ := hnext root hroot
      rw [dfs, hsuccs, Option.bind_eq_bind, Option.bind_some]
      split_ifs with henter
      · have hless := length_left_lt hroot henter.1
        generalize root :: found = found₀ at hless
        -- every round of the loop leaves at most as many nodes
        replace hdepth : (nodes.filter (· ∉ found₀)).length < depth := by omega
        clear hsuccs hless
        induction succs generalizing found₀ with
        | nil => exact ⟨found₀, rfl⟩
        | cons y succs ihs =>
            obtain ⟨found₁, h₁⟩ := ih (hnodes y List.mem_cons_self) hdepth
            have hle := length_left_le nodes (dfs_grows h₁).1.subset
            obtain ⟨found₂, h₂⟩ := ihs (fun z hz => hnodes z (List.mem_cons_of_mem y hz)) found₁
              (by omega)
            refine ⟨found₂, ?_⟩
            rw [List.foldlM_cons, h₁]
            exact h₂
      · exact ⟨found, rfl⟩

end Lib
end Floem
