import Mathlib
import Floem.Codegen.Rename
import Floem.Lib.Pattern

/-!
# Per-packet states and their compression

The state of a packet is a C struct.  A class declares it with `Field`s (`get_content` of
`floem/state.py`), and `compile_smart_queues` of `floem/smart_queue_compile.py` keeps the
fields that are used, which it finds by matching the text of each field against the access
paths.

* `Field`, `Declared`, `declare` — what a class declares, and the `State` made of it.
* `reMatch` — `re.match` for patterns that are the text of a field: a bracket with the size
  of an array is a set of characters there.
* `getVar` — `get_var`, the name in a declaration.
* `compress` — the compression of the state of one starting instance; `none` when an
  exception is raised.
-/

namespace Floem
namespace Compress

open Lib DefUse Codegen

/-! ## Declared states -/

/-- The size of an `Array`: none, a number, the text of a constant, or several numbers.  A
constant has no closing bracket in it and no backslash. -/
inductive Size
  | unknown
  | number (n : ℕ)
  | named (text : List Char) (plain : ']' ∉ text ∧ '\\' ∉ text)
  | dims (d : ℕ) (ds : List ℕ)

/-- What stands in the brackets. -/
def Size.brackets : Size → List (List Char)
  | unknown => [[]]
  | number n => [(toString n).toList]
  | named text _ => [text]
  | dims d ds => (d :: ds).map fun d => (toString d).toList

/-- A `Field`.  Its type is the one of the members if it is an array. -/
structure Field (ι : Type) where
  name : List Char
  isName : IsName name
  type : List Char
  size : Option Size
  init : ι

namespace Field

variable {ι : Type} (f : Field ι)

/-- The name with the size. -/
def text : List Char :=
  f.name ++ (f.size.elim [] Size.brackets).flatMap fun body => '[' :: body ++ [']']

/-- The type `mapping` has. -/
def mapped : List Char := if f.size.isSome then f.type ++ ['*'] else f.type

end Field

/-- A class: its fields in the order of its layout, and whether the class itself has the
initial values. -/
structure Declared (ι : Type) where
  fields : List (Field ι)
  nodup : (fields.map Field.name).Nodup
  inits : Bool

/-- `State`.  The content is a list of declarations: a type and a name with its size. -/
structure State (ι : Type) where
  content : List (List Char × List Char)
  fields : List (List Char)
  init : Option (List ι)
  mapping : List (List Char × List Char)

/-- `get_content`. -/
def declare {ι : Type} (d : Declared ι) : State ι where
  content := d.fields.map fun f => (f.type, f.text)
  fields := d.fields.map Field.text
  init := if d.inits then some (d.fields.map Field.init) else none
  mapping := d.fields.map fun f => (f.name, f.mapped)

theorem bracket_not_mem {w : List Char} (h : IsName w) : '[' ∉ w := fun hmem => by
  have hident := h.2 _ hmem
  simp [identChar] at hident

section Names

variable {ι : Type}

theorem text_of_scalar {f : Field ι} (h : f.size = none) : f.text = f.name := by
  rw [Field.text, h]
  exact List.append_nil _

theorem bracket_mem_text {f : Field ι} (h : f.size.isSome) : '[' ∈ f.text := by
  obtain ⟨size, hsize⟩ := Option.isSome_iff_exists.1 h
  rw [Field.text, hsize]
  refine List.mem_append_right _ (List.mem_flatMap.2 ?_)
  cases size with
  | unknown => exact ⟨[], List.mem_cons_self, List.mem_cons_self⟩
  | number n => exact ⟨_, List.mem_cons_self, List.mem_cons_self⟩
  | named text plain => exact ⟨text, List.mem_cons_self, List.mem_cons_self⟩
  | dims n ns => exact ⟨_, List.mem_cons_self, List.mem_cons_self⟩

/-- No key of `mapping` has a bracket. -/
theorem lookup_of_bracket {fields : List (Field ι)} {var : List Char} (h : '[' ∈ var) :
    (fields.map fun f => (f.name, f.mapped)).lookup var = none := by
  induction fields with
  | nil => rfl
  | cons f fields ih =>
      have hne : (var == f.name) = false :=
        beq_eq_false_iff_ne.2 fun heq => bracket_not_mem f.isName (heq ▸ h)
      rw [List.map_cons, List.lookup_cons, hne, ih]

/-- The value at a key, where no two elements have one key. -/
theorem lookup_map_of_mem {β γ : Type*} {key : β → List Char} {val : β → γ} {l : List β}
    (hnodup : (l.map key).Nodup) {x : β} (hx : x ∈ l) :
    (l.map fun x => (key x, val x)).lookup (key x) = some (val x) := by
  induction l with
  | nil => cases hx
  | cons y l ih =>
      rw [List.map_cons, List.nodup_cons] at hnodup
      rw [List.map_cons, List.lookup_cons]
      rcases List.mem_cons.1 hx with rfl | hx
      · rw [beq_self_eq_true]
      · have hne : (key x == key y) = false :=
          beq_eq_false_iff_ne.2 fun heq => hnodup.1 (heq ▸ List.mem_map_of_mem hx)
        rw [hne, ih hnodup.2 hx]

end Names

/-! ## `re.match` -/

/-- The ranges and the single characters of a set. -/
def ranges : List Char → Option (List (Char × Char))
  | [] => some []
  | [a] => some [(a, a)]
  | [a, b] => some [(a, a), (b, b)]
  | a :: b :: c :: cs =>
    if b = '-' then
      if a ≤ c then (ranges cs).map ((a, c) :: ·) else none
    else (ranges (b :: c :: cs)).map ((a, a) :: ·)

/-- A set of characters from what stands between its brackets. -/
def charSet (body : List Char) : Option (Char → Bool) :=
  let holds (rs : List (Char × Char)) (c : Char) : Bool := rs.any fun r => r.1 ≤ c ∧ c ≤ r.2
  match body with
  | '^' :: body => (ranges body).map fun rs c => !holds rs c
  | body => (ranges body).map holds

/-- A text of letters and brackets as a pattern, one set for each character that it matches;
the first argument is what was read since an open bracket.  A closing bracket that is the
first thing in a set belongs to it. -/
def parse : Option (List Char) → List Char → Option (List (Char → Bool))
  | none, [] => some []
  | some _, [] => none
  | none, c :: cs => if c = '[' then parse (some []) cs else (parse none cs).map ((· == c) :: ·)
  | some body, c :: cs =>
    if c = ']' ∧ body ≠ [] ∧ body ≠ ['^'] then do
      let set ← charSet body
      (parse none cs).map (set :: ·)
    else parse (some (body ++ [c])) cs

/-- The text begins as the pattern says. -/
def begins : List (Char → Bool) → List Char → Bool
  | [], _ => true
  | _ :: _, [] => false
  | set :: sets, c :: cs => set c && begins sets cs

/-- `re.match(pattern, text)`, and whether it finds something. -/
def reMatch (pattern text : List Char) : Option Bool :=
  (parse none pattern).map fun sets => begins sets text

/-! ## `get_var` -/

/-- The pattern of `get_type_var`, with the variable marked. -/
def typeVar : Pattern Char :=
  let blank (c : Char) : Bool := c = ' '
  let type := .seq (.opt (.seq (.word "struct".toList) (.some1 blank)))
    (.seq (.some1 identChar) (.seq (.star (.chars blank)) (.star (.chars (· = '*')))))
  let bracket := .seq (.chars (· = '[')) (.seq (.star (.chars identChar)) (.chars (· = ']')))
  .seq (.star (.chars fun c => c = ' ' ∨ c = '\n'))
    (.seq type (.seq (.star (.chars blank)) (.mark (.seq (.some1 identChar) (.star bracket)))))

/-- `get_var`. -/
def getVar (typeVar' : List Char) : Option (List Char) := (typeVar.first typeVar').bind Prod.fst

/-- `extract_fields`. -/
def extractFields (content : List (List Char × List Char)) : Option (List (List Char)) :=
  content.mapM fun decl => getVar (decl.1 ++ ' ' :: decl.2)

/-! ## The compression -/

/-- One of the patterns matches the path. -/
def anyMatches (patterns : List (List Char)) (path : List Char) : Option Bool :=
  match patterns with
  | [] => some false
  | p :: ps => do if ← reMatch p path then return true else anyMatches ps path

/-- The pattern matches one of the paths. -/
def matchesAny (pattern : List Char) (uses : List (List Char)) : Option Bool :=
  match uses with
  | [] => some false
  | use :: uses => do if ← reMatch pattern use then return true else matchesAny pattern uses

variable {ι : Type}

/-- The loop that writes the content. -/
def keptContent (mapping : List (List Char × List Char)) (uses : List (List Char)) :
    List (List Char) → Option (List (List Char × List Char))
  | [] => some []
  | var :: vars => do
    if ← matchesAny var uses then
      let type ← mapping.lookup var
      return (type, var) :: (← keptContent mapping uses vars)
    else keptContent mapping uses vars

/-- The loop that collects the initial values; `inits` is what is left of the list. -/
def keptInits (uses : List (List Char)) : List (List Char) → List ι → Option (List ι)
  | [], _ => some []
  | _ :: _, [] => none
  | var :: vars, init :: inits => do
    if ← matchesAny var uses then return init :: (← keptInits uses vars inits)
    else keptInits uses vars inits

/-- The loop over `instance.uses`: every path begins with a field. -/
def checkUses (mapping : List (List Char × List Char)) : List (List Char) → Option Unit
  | [] => some ()
  | path :: uses => do
    guard (← anyMatches (mapping.map Prod.fst) path)
    checkUses mapping uses

/-- The initial values, if the state has any. -/
def compressInits (state : State ι) (uses : List (List Char)) : Option (Option (List ι)) :=
  match state.init with
  | some (init :: inits) => (keptInits uses state.fields (init :: inits)).map some
  | _ => some none

/-- The compression of the state of one instance with the paths `instance.uses`. -/
def compress (state : State ι) (uses : List (List Char)) : Option (State ι) := do
  checkUses state.mapping uses
  let content ← keptContent state.mapping uses state.fields
  let inits ← compressInits state uses
  let fields ← extractFields content
  return ⟨content, fields, inits, []⟩

/-! ## What it is for -/

/-- The first component of an access path. -/
def component (path : List Char) : List Char := path.takeWhile identChar

/-- Some path has the field as its first component. -/
def Used (uses : List (List Char)) (f : Field ι) : Prop := ∃ use ∈ uses, component use = f.name

instance (uses : List (List Char)) (f : Field ι) : Decidable (Used uses f) :=
  inferInstanceAs (Decidable (∃ use ∈ uses, component use = f.name))

/-- The fields that are used. -/
def kept (d : Declared ι) (uses : List (List Char)) : List (Field ι) :=
  d.fields.filter fun f => Used uses f

/-- The state with the fields that are used: their declarations, their names and their
initial values. -/
def expected (d : Declared ι) (uses : List (List Char)) : State ι where
  content := (kept d uses).map fun f => (f.type, f.text)
  fields := (kept d uses).map Field.text
  init := if d.inits ∧ d.fields ≠ [] then some ((kept d uses).map Field.init) else none
  mapping := []

/-- Every path starts with a field of the state. -/
def Known (d : Declared ι) (uses : List (List Char)) : Prop :=
  ∀ use ∈ uses, component use ∈ d.fields.map Field.name

/-- **Exactly what is used is kept**: an exception is raised exactly if some path does not
start with a field, and otherwise the state has the fields that are used. -/
def Exact (d : Declared ι) (uses : List (List Char)) : Prop :=
  (compress (declare d) uses = none ↔ ¬ Known d uses) ∧
    ∀ state, compress (declare d) uses = some state → state = expected d uses

end Compress
end Floem
