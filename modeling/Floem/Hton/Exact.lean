import Mathlib
import Floem.Hton.Header
import Floem.Lib.Tiles

/-!
# Which headers are converted

The fields are found by the texts they are declared with, under which arrays are not known,
and converted by the sizes of a table that has no signed integers and four bytes for a
`char`.

* `getAllTypesFields_eq` — the fields that are found.
* `locate_leaf`, `tiles_leaves` — where they are.
* `run_stmts` — what the code does to the memory.
* `converts_iff` — when that is right.
* `Header.Converts.pass` — what the whole pass then does.
-/

namespace Floem
namespace Hton

open Lib
open Compress hiding Field
open Codegen (IsName)

variable {ι : Type} {const : List Char → ℕ}

/-! ## The fields that are found -/

/-- What is listed of the leaves of a type. -/
def listed (pre : List Char) (ls : List Leaf) : List (List Char × List Char) :=
  ls.filterMap fun l => l.path.map fun path =>
    (l.scalar.text, (pre ++ path.flatMap (· ++ ['.'])).dropLast)

theorem listed_append (pre : List Char) (ls ls' : List Leaf) :
    listed pre (ls ++ ls') = listed pre ls ++ listed pre ls' := List.filterMap_append

theorem listed_inField (pre name : List Char) (off : ℕ) (ls : List Leaf) :
    listed pre (ls.map (Leaf.inField name off)) = listed (pre ++ name ++ ['.']) ls := by
  rw [listed, List.filterMap_map]
  refine List.filterMap_congr fun l _ => ?_
  cases hpath : l.path with
  | none => simp [Leaf.inField, hpath]
  | some path => simp [Leaf.inField, hpath]

/-- Nothing in an array is listed. -/
theorem listed_inArray (pre : List Char) (n : ℕ) (off : ℕ → ℕ) (ls : List Leaf) :
    listed pre ((List.range n).flatMap fun i => ls.map (Leaf.inArray (off i))) = [] := by
  refine List.filterMap_eq_nil_iff.2 fun l hl => ?_
  obtain ⟨i, -, hl⟩ := List.mem_flatMap.1 hl
  obtain ⟨l, -, rfl⟩ := List.mem_map.1 hl
  rfl

/-- What a field of a struct lists. -/
def listedField (found : List Char → List Leaf) (pre : List Char) (f : Compress.Field ι) :
    List (List Char × List Char) :=
  if f.size.isSome then [] else listed (pre ++ f.name ++ ['.']) (found f.type)

theorem listed_fieldsLeaves (found : List Char → List Leaf) (size : List Char → ℕ)
    (pre : List Char) (off : ℕ) (fields : List (Compress.Field ι)) :
    listed pre (fieldsLeaves const found size off fields) =
      (fields.map (listedField found pre)).flatten := by
  induction fields generalizing off with
  | nil => rfl
  | cons f fields ih =>
      rw [fieldsLeaves, listed_append, ih, List.map_cons, List.flatten_cons]
      congr 1
      rw [fieldLeaves, listedField]
      cases f.size with
      | none => exact listed_inField pre f.name off _
      | some n => exact listed_inArray pre _ _ _

theorem named_text {t : List Char} {s : Scalar} (h : Scalar.named t = some s) : s.text = t :=
  by simpa using List.find?_some h

/-- No state has the name of a scalar type. -/
theorem dict_lookup_scalar (P : Program ι) {t : List Char} (h : (Scalar.named t).isSome) :
    P.dict.lookup t = none := by
  rw [List.lookup_eq_none_iff]
  rintro _ hs
  obtain ⟨s, hmem, rfl⟩ := List.mem_map.1 hs
  refine bne_iff_ne.2 fun heq => ?_
  rw [heq, P.typed s.1 (List.mem_map_of_mem hmem)] at h
  cases h

/-- **The fields that are found.** -/
theorem getAllTypesFields_eq (const : List Char → ℕ) (P : Program ι)
    {states : List (List Char × Declared ι)} (hsub : ∀ s ∈ states, s ∈ P.states) {t : List Char} (h : Built states t) {n : ℕ}
    (hn : states.length < n) (pre : List Char) :
    getAllTypesFields P.dict n t pre = some (listed pre (leaves const states t)) := by
  induction states generalizing t n pre with
  | nil =>
      obtain ⟨k, rfl⟩ := Nat.exists_eq_add_of_lt hn
      obtain ⟨s, hs⟩ := Option.isSome_iff_exists.1 h
      rw [getAllTypesFields, dict_lookup_scalar P h, leaves, hs, ← named_text hs]
      simp [listed]
  | cons s states ih =>
      obtain ⟨name, d⟩ := s
      rw [Built] at h
      rw [leaves]
      have hrest := fun s hs => hsub s (List.mem_cons_of_mem (name, d) hs)
      split_ifs at h ⊢ with ht
      · subst ht
        obtain ⟨k, rfl⟩ := Nat.exists_eq_add_of_lt hn
        have hlookup : P.dict.lookup t = some (declare d) :=
          lookup_map_of_mem P.nodup (hsub _ List.mem_cons_self)
        rw [getAllTypesFields_state hlookup]
        have hfield : ∀ f ∈ d.fields, fieldTypes P.dict (states.length + 1 + k) pre
            (declare d).mapping f.text = some (listedField (leaves const states) pre f) := by
          intro f hf
          rw [fieldTypes, listedField]
          split_ifs with hsize
          · rw [declare, lookup_of_bracket (bracket_mem_text hsize)]
          · rw [Option.not_isSome_iff_eq_none] at hsize
            have hmapped : f.mapped = f.type := by rw [Compress.Field.mapped, hsize]; rfl
            rw [text_of_scalar hsize, declare, lookup_map_of_mem d.nodup hf, hmapped]
            exact ih hrest (h f hf) (by omega) _
        have hcode : (declare d).fields.mapM (fieldTypes P.dict (states.length + 1 + k) pre
            (declare d).mapping) = some (d.fields.map (listedField (leaves const states) pre)) := by
          rw [← mapM_eq_map hfield]
          exact List.mapM_map
        rw [listed_fieldsLeaves]
        exact congrArg (Option.map List.flatten) hcode
      · exact ih hrest h (by simp at hn; omega) pre

/-! ## Where they are -/

namespace Leaf

variable (name : List Char) (off : ℕ) (l : Leaf)

@[simp] theorem inField_offset : (l.inField name off).offset = off + l.offset := rfl

@[simp] theorem inField_bytes : (l.inField name off).bytes = l.bytes := rfl

@[simp] theorem inArray_offset : (l.inArray off).offset = off + l.offset := rfl

@[simp] theorem inArray_bytes : (l.inArray off).bytes = l.bytes := rfl

end Leaf

/-- The leaves of the fields tile what the fields have. -/
theorem tiles_fieldsLeaves {found : List Char → List Leaf} {size : List Char → ℕ}
    (h : ∀ t, Tiles Leaf.offset Leaf.bytes 0 (found t) (size t)) (off : ℕ)
    (fields : List (Compress.Field ι)) :
    Tiles Leaf.offset Leaf.bytes off (fieldsLeaves const found size off fields)
      (off + (fields.map fun f => count const f * size f.type).sum) := by
  induction fields generalizing off with
  | nil => rfl
  | cons f fields ih =>
      rw [List.map_cons, List.sum_cons, ← Nat.add_assoc]
      refine Tiles.append ?_ (ih _)
      rw [fieldLeaves, count]
      cases f.size with
      | none =>
          rw [Option.elim_none, Nat.one_mul]
          exact (h f.type).map (Leaf.inField_offset f.name off) (Leaf.inField_bytes f.name off)
      | some n =>
          refine Tiles.flatMap_range _ fun i _ => ?_
          exact (h f.type).map (Leaf.inArray_offset _) (Leaf.inArray_bytes _)

/-- **The leaves tile the header.** -/
theorem tiles_leaves (const : List Char → ℕ) (states : List (List Char × Declared ι))
    (t : List Char) :
    Tiles Leaf.offset Leaf.bytes 0 (leaves const states t)
      (bytesOf const states t) := by
  induction states generalizing t with
  | nil =>
      rw [leaves, bytesOf]
      cases Scalar.named t with
      | none => rfl
      | some s => exact ⟨rfl, Nat.zero_add _⟩
  | cons s states ih =>
      obtain ⟨name, d⟩ := s
      rw [leaves, bytesOf]
      split_ifs
      · rw [← Nat.zero_add (List.sum _)]
        exact tiles_fieldsLeaves ih 0 d.fields
      · exact ih t

/-- A leaf that names lead to is a leaf of the type of a field that is no array. -/
theorem mem_fieldsLeaves {found : List Char → List Leaf} {size : List Char → ℕ} {off : ℕ}
    {fields : List (Compress.Field ι)} (hnodup : (fields.map Compress.Field.name).Nodup) {l : Leaf}
    (hl : l ∈ fieldsLeaves const found size off fields) {path : List (List Char)}
    (hpath : l.path = some path) : ∃ f ∈ fields, ∃ start, ∃ inner ∈ found f.type, ∃ rest,
      inner.path = some rest ∧ path = f.name :: rest ∧ l = inner.inField f.name start ∧
      member const size f.name off fields = some (start, f) := by
  induction fields generalizing off with
  | nil => cases hl
  | cons f fields ih =>
      rw [List.map_cons, List.nodup_cons] at hnodup
      rcases List.mem_append.1 hl with hl | hl
      · rw [fieldLeaves] at hl
        cases hsize : f.size with
        | none =>
            rw [hsize] at hl
            obtain ⟨inner, hinner, rfl⟩ := List.mem_map.1 hl
            obtain ⟨rest, hrest, rfl⟩ := Option.map_eq_some_iff.1 hpath
            exact ⟨f, List.mem_cons_self, off, inner, hinner, rest, hrest, rfl, rfl,
              by simp [member, hsize]⟩
        | some n =>
            rw [hsize] at hl
            obtain ⟨i, -, hl⟩ := List.mem_flatMap.1 hl
            obtain ⟨inner, -, rfl⟩ := List.mem_map.1 hl
            cases hpath
      · obtain ⟨g, hg, start, inner, hinner, rest, hrest, hname, hloc, hmember⟩ := ih hnodup.2 hl
        have hne : f.name ≠ g.name := fun heq => hnodup.1 (heq ▸ List.mem_map_of_mem hg)
        refine ⟨g, List.mem_cons_of_mem f hg, start, inner, hinner, rest, hrest, hname, hloc, ?_⟩
        rw [member, if_neg hne, hmember]

/-- **The names lead to the leaf.** -/
theorem locate_leaf {states : List (List Char × Declared ι)} {t : List Char} {l : Leaf}
    (hl : l ∈ leaves const states t) {path : List (List Char)} (hpath : l.path = some path) :
    locate const states t path = some (l.offset, l.scalar) := by
  induction states generalizing t l path with
  | nil =>
      rw [leaves] at hl
      cases hs : Scalar.named t with
      | none => simp [hs] at hl
      | some s =>
          rw [hs] at hl
          obtain rfl := List.mem_singleton.1 hl
          obtain rfl := Option.some.inj hpath
          rw [locate, if_pos rfl, hs]
          rfl
  | cons s states ih =>
      obtain ⟨name, d⟩ := s
      rw [leaves] at hl
      rw [locate]
      split_ifs at hl ⊢ with ht
      · obtain ⟨f, -, start, inner, hinner, rest, hrest, rfl, rfl, hmember⟩ :=
          mem_fieldsLeaves d.nodup hl hpath
        simp only [List.head?_cons, List.tail_cons, hmember, ih hinner hrest, Option.bind_eq_bind,
          Option.bind_some]
        rfl
      · exact ih hl hpath

/-- The names are names, and there is one if the type is a state. -/
theorem path_names {states : List (List Char × Declared ι)} {t : List Char} {l : Leaf}
    (hl : l ∈ leaves const states t) {path : List (List Char)} (hpath : l.path = some path) :
    (∀ w ∈ path, IsName w) ∧ (t ∈ states.map Prod.fst → path ≠ []) := by
  induction states generalizing t l path with
  | nil =>
      rw [leaves] at hl
      cases hs : Scalar.named t with
      | none => simp [hs] at hl
      | some s =>
          rw [hs] at hl
          obtain rfl := List.mem_singleton.1 hl
          obtain rfl := Option.some.inj hpath
          exact ⟨fun w hw => (nomatch hw), fun ht => (nomatch ht)⟩
  | cons s states ih =>
      obtain ⟨name, d⟩ := s
      rw [leaves] at hl
      split_ifs at hl with ht
      · obtain ⟨f, -, start, inner, hinner, rest, hrest, rfl, -⟩ :=
          mem_fieldsLeaves d.nodup hl hpath
        refine ⟨List.forall_mem_cons.2 ⟨f.isName, (ih hinner hrest).1⟩, fun _ => ?_⟩
        exact List.cons_ne_nil _ _
      · refine ⟨(ih hl hpath).1, fun hmem => (ih hl hpath).2 ?_⟩
        rw [List.map_cons] at hmem
        exact (List.mem_cons.1 hmem).resolve_left ht

/-! ## What the code does -/

/-- The text of a field. -/
def fieldText (path : List (List Char)) : List Char :=
  ("p->".toList ++ path.flatMap (· ++ ['.'])).dropLast

theorem flatMap_dropLast {path : List (List Char)} (h : path ≠ []) :
    (path.flatMap (· ++ ['.'])).dropLast = ['.'].intercalate path := by
  induction path with
  | nil => exact absurd rfl h
  | cons w path ih =>
      cases path with
      | nil => simp
      | cons v path =>
          have hne : (v :: path).flatMap (· ++ ['.']) ≠ [] := by simp
          rw [List.flatMap_cons, List.dropLast_append_of_ne_nil hne, ih (List.cons_ne_nil v path),
            List.intercalate_cons_cons, List.append_assoc]

/-- The names in the text of a field. -/
theorem names_fieldText {path : List (List Char)} (h : ∀ w ∈ path, IsName w) (hne : path ≠ []) :
    names (fieldText path) = some path := by
  have hnil : path.flatMap (· ++ ['.']) ≠ [] := by
    obtain ⟨w, path, rfl⟩ := List.exists_cons_of_ne_nil hne
    simp
  have hdot : ∀ w ∈ path, '.' ∉ w := fun w hw hmem => by
    have hident := (h w hw).2 _ hmem
    simp [DefUse.identChar] at hident
  rw [fieldText, List.dropLast_append_of_ne_nil hnil, flatMap_dropLast hne, names,
    literal_eq_some.2 rfl, Option.map_some, List.splitOn_intercalate '.' hdot hne]

/-- The function that is called for a scalar. -/
def Scalar.fn (s : Scalar) : Option Fn := (sizeof s.text).bind size2convert

theorem convert_text (s : Scalar) (field : List Char) :
    convert s.text field = s.fn.map (Stmt.mk field) := by
  rw [convert, Scalar.fn]
  cases sizeof s.text with
  | none => rfl
  | some size => cases hfn : size2convert size <;> simp [hfn]

/-- The statement for a leaf. -/
def Leaf.stmt (l : Leaf) : Option Stmt :=
  l.path.bind fun path => l.scalar.fn.map (Stmt.mk (fieldText path))

/-- What is done to a leaf. -/
def Leaf.update (p : ℕ) (l : Leaf) (m : ℕ → UInt8) : ℕ → UInt8 :=
  match l.stmt with
  | some stmt => store m (p + l.offset) (assigned stmt.fn l.scalar (load m (p + l.offset) l.bytes))
  | none => m

/-- The statements that are generated. -/
theorem stmts_eq (ls : List Leaf) :
    ((listed "p->".toList ls).filterMap fun tf => convert tf.1 tf.2) = ls.filterMap Leaf.stmt := by
  rw [listed, List.filterMap_filterMap]
  refine List.filterMap_congr fun l _ => ?_
  rw [Leaf.stmt]
  cases l.path with
  | none => rfl
  | some path => exact convert_text l.scalar (fieldText path)

theorem length_resize (k : ℕ) (signed : Bool) (value : List UInt8) :
    (resize k signed value).length = k := by
  rw [resize, List.length_append, List.length_take, List.length_replicate]
  omega

theorem length_assigned (fn : Fn) (s : Scalar) (value : List UInt8) :
    (assigned fn s value).length = s.bytes := length_resize _ _ _

theorem length_load (m : ℕ → UInt8) (addr n : ℕ) : (load m addr n).length = n := by
  rw [load, List.length_map, List.length_range]

theorem store_outside {m : ℕ → UInt8} {addr : ℕ} {value : List UInt8} {a : ℕ}
    (h : a < addr ∨ addr + value.length ≤ a) : store m addr value a = m a := by
  rw [store]
  split_ifs with hle
  · rw [List.getElem?_eq_none (by omega), Option.getD_none]
  · rfl

theorem store_inside {m : ℕ → UInt8} {addr : ℕ} {value : List UInt8} {i : ℕ}
    (h : i < value.length) : store m addr value (addr + i) = value[i] := by
  rw [store, if_pos (Nat.le_add_right addr i), Nat.add_sub_cancel_left,
    List.getElem?_eq_getElem h, Option.getD_some]

/-- A statement changes its leaf. -/
theorem localUpdate (p : ℕ) :
    LocalUpdate (fun l : Leaf => p + l.offset) Leaf.bytes (Leaf.update p) where
  outside l m y h := by
    rw [Leaf.update]
    cases l.stmt with
    | none => rfl
    | some stmt => exact store_outside (by rw [length_assigned]; exact h)
  inside l m m' y h hstart hend := by
    rw [Leaf.update, Leaf.update]
    cases l.stmt with
    | none => exact h y hstart hend
    | some stmt =>
        have hload : load m (p + l.offset) l.bytes = load m' (p + l.offset) l.bytes := by
          refine List.map_congr_left fun i hi => ?_
          rw [List.mem_range] at hi
          exact h _ (Nat.le_add_right _ i) (Nat.add_lt_add_left hi _)
        obtain ⟨i, rfl⟩ := Nat.exists_eq_add_of_le hstart
        have hi : i < (assigned stmt.fn l.scalar (load m' (p + l.offset) l.bytes)).length := by
          rw [length_assigned]
          exact Nat.lt_of_add_lt_add_left hend
        simp only [hload, store_inside hi]

/-- **What the code does**: what its statements do to the leaves. -/
theorem run_stmts {states : List (List Char × Declared ι)} {t : List Char}
    (ht : t ∈ states.map Prod.fst) (p : ℕ) {ls : List Leaf}
    (hls : ∀ l ∈ ls, l ∈ leaves const states t) (m : ℕ → UInt8) :
    run (exec const states t p) m (ls.filterMap Leaf.stmt) =
      some (ls.foldl (fun m l => l.update p m) m) := by
  induction ls generalizing m with
  | nil => rfl
  | cons l ls ih =>
      have hrest := ih fun l hl => hls l (List.mem_cons_of_mem _ hl)
      rw [List.foldl_cons, Leaf.update]
      cases hstmt : l.stmt with
      | none => rw [List.filterMap_cons_none hstmt, hrest]
      | some stmt =>
          obtain ⟨path, hpath, hfn⟩ := Option.bind_eq_some_iff.1 hstmt
          obtain ⟨fn, -, rfl⟩ := Option.map_eq_some_iff.1 hfn
          have hnames := path_names (hls l List.mem_cons_self) hpath
          have hlocate := locate_leaf (hls l List.mem_cons_self) hpath
          rw [List.filterMap_cons_some hstmt, run_cons, exec,
            names_fieldText hnames.1 (hnames.2 ht)]
          simp only [Option.bind_eq_bind, Option.bind_some, hlocate, hrest]
          rfl

/-- The generated code. -/
theorem visit_eq (h : Header ι) (const : List Char → ℕ) {g : Graph ι} {inst : Instance}
    (hstates : g.states = h.dict) (hspecial : inst.element.special = some h.type)
    (hcpu : isOnCPU g inst = true) : ∃ inst', visit g inst = some inst' ∧
      inst'.element.code = .hton h.type ((h.leaves const).filterMap Leaf.stmt) := by
  have hlength : h.dict.length = h.states.length := List.length_map _
  have hfields := getAllTypesFields_eq const h.toProgram (fun s hs => hs) h.built
    (Nat.lt_succ_self _) "p->".toList
  rw [visit, hspecial]
  simp only [hcpu, if_true, htonInstance, hstates, hlength, hfields, Option.bind_eq_bind,
    Option.bind_some, stmts_eq]
  exact ⟨_, rfl, rfl⟩

/-! ## When it is right -/

/-- The bytes of the leaf get into the other order. -/
def Leaf.Turned (p : ℕ) (l : Leaf) (m : ℕ → UInt8) : Prop :=
  ∀ i < l.bytes, l.update p m (p + l.offset + i) = m (p + l.offset + (l.bytes - 1 - i))

theorem reversed_iff (h : Header ι) (p : ℕ) (m : ℕ → UInt8) :
    h.Reversed const p m ((h.leaves const).foldl (fun m l => l.update p m) m) ↔
      ∀ l ∈ h.leaves const, l.Turned p m := by
  have htiles : Tiles (fun l : Leaf => p + l.offset) Leaf.bytes p (h.leaves const)
      (p + h.size const) := by
    have hshift := (tiles_leaves const h.states h.type).shift p
    rwa [Nat.add_zero] at hshift
  have hinside : ∀ l ∈ h.leaves const, ∀ i < l.bytes,
      (h.leaves const).foldl (fun m l => l.update p m) m (p + l.offset + i) =
        l.update p m (p + l.offset + i) := fun l hl i hi =>
    (localUpdate p).foldl_inside htiles m hl (Nat.le_add_right _ i) (Nat.add_lt_add_left hi _)
  rw [Header.Reversed, and_iff_left fun a ha => (localUpdate p).foldl_outside htiles m ha]
  refine forall₂_congr fun l hl => forall₂_congr fun i hi => ?_
  rw [hinside l hl i hi]

/-- Two conversions restore the memory. -/
theorem reversed_twice (h : Header ι) {p : ℕ} {m m' m'' : ℕ → UInt8}
    (h1 : h.Reversed const p m m') (h2 : h.Reversed const p m' m'') : m'' = m := by
  funext a
  by_cases ha : a < p ∨ p + h.size const ≤ a
  · rw [h2.2 a ha, h1.2 a ha]
  · obtain ⟨k, rfl⟩ := Nat.exists_eq_add_of_le (Nat.le_of_not_lt fun hlt => ha (Or.inl hlt))
    have hk : k < h.size const := by omega
    obtain ⟨l, hl, hstart, hend⟩ := (tiles_leaves const h.states h.type).cover (Nat.zero_le k) hk
    obtain ⟨i, rfl⟩ := Nat.exists_eq_add_of_le hstart
    have hi : i < l.bytes := Nat.lt_of_add_lt_add_left hend
    rw [← Nat.add_assoc, h2.1 l hl i hi, h1.1 l hl _ (by omega)]
    congr 2
    omega

theorem update_of_none {l : Leaf} (h : l.path = none ∨ l.scalar.fn = none) (p : ℕ)
    (m : ℕ → UInt8) : l.update p m = m := by
  have hstmt : l.stmt = none := by
    rw [Leaf.stmt]
    rcases h with h | h
    · rw [h]
      rfl
    · rw [h]
      cases l.path <;> rfl
  rw [Leaf.update, hstmt]

theorem update_of_some {l : Leaf} {fn : Fn} (hpath : l.path.isSome) (hfn : l.scalar.fn = some fn)
    (p : ℕ) (m : ℕ → UInt8) : l.update p m =
      store m (p + l.offset) (assigned fn l.scalar (load m (p + l.offset) l.bytes)) := by
  obtain ⟨path, hpath⟩ := Option.isSome_iff_exists.1 hpath
  have hstmt : l.stmt = some ⟨fieldText path, fn⟩ := by
    rw [Leaf.stmt, hpath, hfn]
    rfl
  rw [Leaf.update, hstmt]

/-- What is not touched is right if it is a single byte, and only then. -/
theorem turned_of_none {l : Leaf} (h : l.path = none ∨ l.scalar.fn = none) {p : ℕ} :
    (∀ m, l.Turned p m) ↔ l.bytes ≤ 1 := by
  simp only [Leaf.Turned, update_of_none h]
  constructor
  · intro hturned
    by_contra hbytes
    have hlast := hturned (fun a => if a = p + l.offset then 1 else 0) 0 (by omega)
    rw [Nat.add_zero, if_pos rfl, if_neg (by omega)] at hlast
    exact absurd hlast (by decide)
  · intro hbytes m i hi
    congr 2
    omega

/-- The function reverses a value of its own size. -/
theorem assigned_reverse {fn : Fn} {s : Scalar} (h : fn.bytes = s.bytes) {value : List UInt8}
    (hvalue : value.length = s.bytes) : assigned fn s value = value.reverse := by
  have hresize : ∀ (signed : Bool) (v : List UInt8), v.length = s.bytes →
      resize s.bytes signed v = v := by
    intro signed v hv
    rw [resize, ← hv, List.take_length, Nat.sub_self, List.replicate_zero, List.append_nil]
  have hcall : fn.call value = value.reverse := by cases fn <;> rfl
  rw [assigned, h, hresize s.signed value hvalue, hcall,
    hresize false _ (by rw [List.length_reverse, hvalue])]

theorem turned_of_fn {l : Leaf} {fn : Fn} (hpath : l.path.isSome) (hfn : l.scalar.fn = some fn)
    (h : fn.bytes = l.bytes) (p : ℕ) (m : ℕ → UInt8) : l.Turned p m := by
  intro i hi
  have hlength := length_load m (p + l.offset) l.bytes
  rw [update_of_some hpath hfn, assigned_reverse h hlength,
    store_inside (by rw [List.length_reverse, hlength]; exact hi), List.getElem_reverse]
  simp only [load, List.getElem_map, List.getElem_range, List.length_map, List.length_range]

/-- The four bytes that are swapped for a `char`. -/
theorem not_turned_char {l : Leaf} (hpath : l.path.isSome) (hchar : l.scalar = .char) (p : ℕ) :
    ¬ ∀ m, l.Turned p m := by
  intro h
  have hbytes : l.bytes = 1 := by rw [Leaf.bytes, hchar]; rfl
  have hzero := h (fun _ => 1) 0 (by omega)
  have hfn : l.scalar.fn = some .htonl := by rw [hchar]; rfl
  rw [update_of_some hpath hfn] at hzero
  have hvalue : assigned .htonl l.scalar (load (fun _ => 1) (p + l.offset) l.bytes) = [0] := by
    rw [hbytes, hchar]
    rfl
  rw [hvalue, store_inside (by decide)] at hzero
  have hne : ([0] : List UInt8)[0] ≠ 1 := by decide
  exact hne hzero

/-- The table has the right sizes of these scalars, or they are single bytes. -/
theorem fn_of_plain {s : Scalar} (h : s ∉ [.char, .sint .w16, .sint .w32, .sint .w64]) :
    (s.fn = none ∧ s.bytes = 1) ∨ ∃ fn, s.fn = some fn ∧ fn.bytes = s.bytes := by
  cases s with
  | char => exact absurd List.mem_cons_self h
  | int => exact Or.inr ⟨.htonl, rfl, rfl⟩
  | sizeT => exact Or.inr ⟨.htonp, rfl, rfl⟩
  | uint w =>
      cases w with
      | w8 => exact Or.inl ⟨rfl, rfl⟩
      | w16 => exact Or.inr ⟨.htons, rfl, rfl⟩
      | w32 => exact Or.inr ⟨.htonl, rfl, rfl⟩
      | w64 => exact Or.inr ⟨.htonp, rfl, rfl⟩
  | sint w =>
      cases w with
      | w8 => exact Or.inl ⟨rfl, rfl⟩
      | w16 => simp at h
      | w32 => simp at h
      | w64 => simp at h

/-- The table does not have these. -/
theorem fn_of_sint {s : Scalar} (h : s ∈ [.sint .w16, .sint .w32, .sint .w64]) :
    s.fn = none ∧ 1 < s.bytes := by
  simp only [List.mem_cons, List.not_mem_nil, or_false] at h
  rcases h with rfl | rfl | rfl <;> exact ⟨rfl, by decide⟩

/-- Which leaves are turned. -/
theorem turned_iff (l : Leaf) (p : ℕ) : (∀ m, l.Turned p m) ↔
    if l.path.isSome then l.scalar ∉ [.char, .sint .w16, .sint .w32, .sint .w64]
    else l.bytes = 1 := by
  have hpos : 0 < l.bytes := by
    rw [Leaf.bytes]
    rcases l.scalar with _ | _ | _ | w | w <;> first | decide | cases w <;> decide
  split_ifs with hpath
  · constructor
    · intro hturned hbad
      rcases List.mem_cons.1 hbad with hchar | hsint
      · exact not_turned_char hpath hchar p hturned
      · obtain ⟨hfn, hbytes⟩ := fn_of_sint hsint
        exact Nat.not_le_of_lt hbytes ((turned_of_none (Or.inr hfn)).1 hturned)
    · intro hplain
      rcases fn_of_plain hplain with ⟨hfn, hbytes⟩ | ⟨fn, hfn, hbytes⟩
      · exact (turned_of_none (Or.inr hfn)).2 (Nat.le_of_eq hbytes)
      · exact turned_of_fn hpath hfn hbytes p
  · rw [Option.not_isSome_iff_eq_none] at hpath
    rw [turned_of_none (Or.inl hpath)]
    omega

theorem run_header (h : Header ι) (const : List Char → ℕ) (p : ℕ) (m : ℕ → UInt8) :
    run (exec const h.states h.type p) m ((h.leaves const).filterMap Leaf.stmt) =
      some ((h.leaves const).foldl (fun m l => l.update p m) m) :=
  run_stmts h.declared p (fun _ hl => hl) m

theorem plain_of_converts {h : Header ι} (hconverts : h.Converts const) : h.Plain const := by
  intro l hl
  have hspecial : Element.special ⟨[], some h.type, .text []⟩ = some h.type := rfl
  have hcpu : isOnCPU ⟨[], h.dict, []⟩ ⟨⟨[], some h.type, .text []⟩, none⟩ = true := rfl
  obtain ⟨inst, stmts, hvisit, hcode, hrun⟩ := hconverts _ _ rfl hspecial hcpu
  obtain ⟨inst', hvisit', hcode'⟩ :=
    visit_eq (g := ⟨[], h.dict, []⟩) h const rfl hspecial hcpu
  obtain rfl := Option.some.inj (hvisit.symm.trans hvisit')
  obtain ⟨-, rfl⟩ := Code.hton.inj (hcode.symm.trans hcode')
  refine (turned_iff l 0).1 fun m => ?_
  obtain ⟨m', hm', hreversed, -⟩ := hrun 0 m
  rw [run_header, Option.some.injEq] at hm'
  rw [← hm', reversed_iff] at hreversed
  exact hreversed l hl

theorem converts_of_plain {h : Header ι} (hplain : h.Plain const) : h.Converts const := by
  intro g inst hstates hspecial hcpu
  obtain ⟨inst', hvisit, hcode⟩ := visit_eq h const hstates hspecial hcpu
  have hturned : ∀ (p : ℕ) (m : ℕ → UInt8), ∀ l ∈ h.leaves const, l.Turned p m :=
    fun p m l hl => (turned_iff l p).2 (hplain l hl) m
  refine ⟨inst', _, hvisit, hcode, fun p m => ⟨_, run_header h const p m,
    (reversed_iff h p m).2 (hturned p m), ?_⟩⟩
  rw [run_header, Option.some.injEq]
  exact reversed_twice h ((reversed_iff h p m).2 (hturned p m))
    ((reversed_iff h p _).2 (hturned p _))

/-- **The conversion is right exactly for the headers that have, outside arrays, no `char` and
no signed integer of two bytes or more but `int`, and only single bytes in arrays.** -/
theorem converts_iff (h : Header ι) (const : List Char → ℕ) :
    h.Converts const ↔ h.Plain const :=
  ⟨plain_of_converts, converts_of_plain⟩

/-- A header with an array of two ports. -/
def portsHeader : Header Unit where
  states := [("udp".toList, ⟨[⟨"ports".toList, by simp [IsName, DefUse.identChar],
    "uint16_t".toList, some (.number 2), ()⟩], List.nodup_singleton _, false⟩)]
  nodup := List.nodup_singleton _
  typed name hname := by
    obtain rfl := List.mem_singleton.1 hname
    rfl
  type := "udp".toList
  declared := List.mem_singleton_self _
  built := by
    intro f hf
    obtain rfl := List.mem_singleton.1 hf
    exact rfl

/-- The array is not found in `mapping`, and so its members are not converted. -/
theorem array_not_converted : ¬ portsHeader.Converts (fun _ => 0) := fun h =>
  absurd (plain_of_converts h) (by decide)

/-! ## The pass -/

/-- The pass visits every instance once. -/
theorem htonPass_eq_some {g g' : Graph ι} (h : htonPass g = some g') :
    List.Forall₂ (fun i i' => i'.1 = i.1 ∧ visit g i.2 = some i'.2) g.instances g'.instances := by
  obtain ⟨instances, hinstances, h⟩ := Option.bind_eq_some_iff.1 h
  obtain rfl := Option.some.inj h
  refine (forall₂_of_mapM hinstances).imp fun i i' hi => ?_
  obtain ⟨inst, hvisit, rfl⟩ := Option.map_eq_some_iff.1 hi
  exact ⟨rfl, hvisit⟩

/-- **After the pass every instance on a CPU that converts the header has code that reverses
the bytes of its scalars**, and all others are as they were. -/
theorem Header.Converts.pass {h : Header ι} (hconverts : h.Converts const) {g g' : Graph ι}
    (hstates : g.states = h.dict)
    (hspecial : ∀ i ∈ g.instances, ∀ name, i.2.element.special = some name → name = h.type)
    (hpass : htonPass g = some g') :
    List.Forall₂ (fun i i' =>
      if i.2.element.special.isSome ∧ isOnCPU g i.2 = true then
        ∃ stmts, i'.2.element.code = .hton h.type stmts ∧ ∀ p m, ∃ m',
          run (exec const h.states h.type p) m stmts = some m' ∧ h.Reversed const p m m'
      else i' = i) g.instances g'.instances := by
  have hvisits := (List.forall₂_and_left _ _).2 ⟨fun i (hi : i ∈ g.instances) => hi,
    htonPass_eq_some hpass⟩
  refine hvisits.imp fun i i' hi => ?_
  obtain ⟨hmem, hname, hvisit⟩ := hi
  by_cases hheader : i.2.element.special.isSome ∧ isOnCPU g i.2 = true
  · obtain ⟨name, hsome⟩ := Option.isSome_iff_exists.1 hheader.1
    obtain rfl := hspecial i hmem name hsome
    obtain ⟨inst', stmts, hinst, hcode, hrun⟩ := hconverts g i.2 hstates hsome hheader.2
    obtain rfl := Option.some.inj (hvisit.symm.trans hinst)
    rw [if_pos hheader]
    refine ⟨stmts, hcode, fun p m => ?_⟩
    obtain ⟨m', hm', hreversed, -⟩ := hrun p m
    exact ⟨m', hm', hreversed⟩
  · rw [if_neg hheader]
    have hsame : visit g i.2 = some i.2 := by
      unfold visit
      cases hsome : i.2.element.special with
      | none => rfl
      | some name =>
          refine if_neg fun hcpu => hheader ⟨?_, hcpu⟩
          rw [hsome]
          rfl
    exact Prod.ext hname (Option.some.inj (hvisit.symm.trans hsame))

end Hton
end Floem
