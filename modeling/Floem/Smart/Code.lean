import Mathlib
import Floem.Lib.Rewriting
import Floem.Smart.Types

/-!
# The code a smart queue is compiled to

The functions of `floem/smart_queue_compile.py` that generate the C code around a queue,
with statements in place of text.

* `Path`, `FieldInfo`, `getEntryContent` — the live access paths, and what the
  declarations of the states say about them.
* `entryMembers`, `pipelineMembers` — the two structs.
* `getFillEntrySrc`, `getSaveStateSrc` — the code of `fill<i>` and of `save<i>`.
* `replaceStates` — the rules by which a reference `state.<path>` is replaced after the
  queue, and `needReplacement`, whether an element is looked at at all
  (`floem/pipeline_state.py`).
-/

namespace Floem
namespace Smart

open Lib

/-! ## Access paths and their types -/

inductive Sep
  | dot | arrow
  deriving DecidableEq

/-- `state.<head>` and the accesses that follow. -/
structure Path where
  head : String
  tail : List (Sep × String)
  deriving DecidableEq

def Sep.text : Sep → List Char
  | .dot => ['.']
  | .arrow => ['-', '>']

/-- What `find_all_fields` returns as `src`. -/
def Path.text (p : Path) : List Char :=
  p.head.toList ++ p.tail.flatMap fun a => a.1.text ++ a.2.toList

/-- `src2fields[var]` -/
def Path.fields (p : Path) : List String := p.head :: p.tail.map Prod.snd

/-- `get_entry_field`: `fields[-1]` -/
def Path.last (p : Path) : String := p.fields.getLast (List.cons_ne_nil _ _)

/-- The reference `state.<field>`. -/
def Path.field (f : String) : Path := ⟨f, []⟩

/-- The reference `state.entry-><field>`. -/
def Path.inEntry (f : String) : Path := ⟨"entry", [(.arrow, f)]⟩

@[simp] theorem Path.text_field (f : String) : (Path.field f).text = f.toList :=
  List.append_nil _

@[simp] theorem Path.text_inEntry (f : String) :
    (Path.inEntry f).text = "entry".toList ++ ('-' :: '>' :: f.toList) := by
  simp [Path.text, Path.inEntry, Sep.text]

@[simp] theorem Path.last_field (f : String) : (Path.field f).last = f := rfl

@[simp] theorem Path.last_inEntry (f : String) : (Path.inEntry f).last = f := rfl

/-- `[a-zA-Z_0-9]` -/
def isWord (c : Char) : Bool := c.isAlphanum || c = '_'

/-- `find_all_fields` takes a field to its last letter. -/
def Path.Words (p : Path) : Prop := ∀ f ∈ p.fields, ∀ c ∈ f.toList, isWord c = true

instance (p : Path) : Decidable p.Words := inferInstanceAs (Decidable (∀ _ ∈ _, _))

theorem Path.Words.last {p : Path} (h : p.Words) : ∀ c ∈ p.last.toList, isWord c = true :=
  h p.last (List.getLast_mem _)

/-- The expression in `@copysize(...)`: its text, the fields it reads, and its value. -/
structure Length where
  text : List Char
  paths : List Path
  paths_text : ∀ p ∈ paths, p.text <:+: text
  eval : (Path → List UInt8) → ℕ
  /-- It reads no other fields. -/
  local_eval : ∀ f g, (∀ p ∈ paths, f p = g p) → eval f = eval g

/-- The annotation of a field. -/
inductive Annotation
  | plain
  | shared (region : String)
  | copysize (len : Length)

/-- An element of `State.mapping`. -/
structure FieldInfo where
  type : CType
  annotation : Annotation

/-- A live access path with the type and the annotation of its last field. -/
structure Var where
  path : Path
  type : CType
  annotation : Annotation

/-- `var in special` -/
def Var.special (v : Var) : Bool :=
  match v.annotation with
  | .plain => false
  | _ => true

def Var.length? (v : Var) : Option Length :=
  match v.annotation with
  | .copysize l => some l
  | _ => none

/-- The member of the entry struct, but for `_content`. -/
def Var.member (v : Var) : Option (CType × String) :=
  match v.annotation with
  | .plain => some (v.type, v.path.last)
  | .shared _ => some (.uint64, v.path.last)
  | .copysize _ => none

/-- The declarations of the states. -/
abbrev States := String → Option (String → Option FieldInfo)

/-- `g.states[current_type].mapping[field]` -/
def lookup (states : States) (t : CType) (f : String) : Option FieldInfo :=
  match t.strip with
  | .state name => (states name).bind fun mapping => mapping f
  | _ => none

/-- The loop over the fields of a path. -/
def walk (states : States) : CType → List String → Option FieldInfo
  | _, [] => none
  | t, [f] => lookup states t f
  | t, f :: fs => (lookup states t f).bind fun i => walk states i.type fs

/-- `get_entry_content`: `none` where it raises an exception. -/
def getEntryContent (states : States) (pipelineState : String) (live : List Path) :
    Option (List Var) :=
  live.mapM fun p =>
    (walk states (.state pipelineState) p.fields).map fun i => ⟨p, i.type, i.annotation⟩

/-! ## The structs -/

/-- `"uint8_t flag; uint8_t task; uint16_t len; uint8_t checksum; uint8_t pad; "` -/
def header : List (CType × String) :=
  [(.uint8, "flag"), (.uint8, "task"), (.uint16, "len"), (.uint8, "checksum"), (.uint8, "pad")]

/-- The names of the members of `entry_<queue><i>`. -/
def entryMembers (vars : List Var) : List String :=
  (header ++ vars.filterMap Var.member).map Prod.snd ++
    (if vars.any fun v => v.length?.isSome then ["_content"] else [])

/-- The names of the members of `pipeline_<queue><i>`; `refcount` is put in front by
`insert_reference_count`. -/
def pipelineMembers (vars : List Var) (extras : List Path) : List String :=
  "refcount" :: "buffer" :: "entry" ::
    (extras.map Path.last ++ (vars.filter Var.special).map fun v => v.path.last)

/-! ## The code of `fill` -/

inductive FillStmt
  /-- `e-><member> = <conv>(state.<var>);` -/
  | assign (member : String) (conv : Conv) (v : Var)
  /-- `e-><member> = <conv>((uintptr_t) state.<var> - (uintptr_t) <region>);` -/
  | shared (member : String) (conv : Conv) (v : Var) (region : String)
  /-- `memcpy(e->_content + …, state.<var>, <len>);` -/
  | copy (before : List Length) (v : Var) (len : Length)
  /-- `e->task = <n>;` -/
  | task (n : ℕ)

/-- `htonp` of `get_size2convert` -/
def htonp (reverse : Bool) : Conv := if reverse then .htonp else .plain

/-- The loop over the live paths; `copied` is the text `copysize`. -/
def fillLoop (reverse : Bool) (copied : List Length) : List Var → List FillStmt
  | [] => []
  | v :: vs =>
      match v.annotation with
      | .plain => .assign v.path.last (v.type.convert reverse) v :: fillLoop reverse copied vs
      | .shared region =>
          .shared v.path.last (htonp reverse) v region :: fillLoop reverse copied vs
      | .copysize l => .copy copied v l :: fillLoop reverse (copied ++ [l]) vs

/-- `get_fill_entry_src` -/
def getFillEntrySrc (reverse : Bool) (vars : List Var) (i : ℕ) : List FillStmt :=
  fillLoop reverse [] vars ++ [.task (i + 1)]

/-! ## The code of `save` -/

inductive SaveStmt
  /-- `state.qid = qid;` -/
  | qid
  /-- `state.buffer = buff;` -/
  | buffer
  /-- `state.entry = (<struct>*) buff.entry;` -/
  | entry (struct : String)
  /-- `state.<var> = <conv>(state.<var>);` -/
  | convert (conv : Conv) (v : Var)
  /-- `state.<name> = (<t>) ((uintptr_t) <region> + <conv>(state.entry-><name>));` -/
  | shared (name : String) (t : CType) (region : String) (conv : Conv)
  /-- `state.<name> = (<t>) (state.entry->_content + …);` -/
  | copy (name : String) (t : CType) (before : List Length)

def SaveStmt.text : SaveStmt → List Char
  | .qid => "  state.qid = qid;\n".toList
  | .buffer => "  state.buffer = buff;\n".toList
  | .entry struct => "  state.entry = (".toList ++ struct.toList ++ "*) buff.entry;\n".toList
  | .convert conv v =>
      "  state.".toList ++ v.path.text ++ " = ".toList ++
        (if v.type.isPointer then
          "(".toList ++ v.type.text ++ ") ".toList ++ conv.text ++ "((uint64_t) state.".toList
        else conv.text ++ "(state.".toList) ++ v.path.text ++ ");\n".toList
  | .shared name t region conv =>
      "  state.".toList ++ name.toList ++ " = (".toList ++ t.text ++ ") ((uintptr_t) ".toList ++
        region.toList ++ " + ".toList ++ conv.text ++ "(state.entry->".toList ++ name.toList ++
        "));\n".toList
  | .copy name t before =>
      "  state.".toList ++ name.toList ++ " = (".toList ++ t.text ++
        ") (state.entry->_content ".toList ++
        (before.flatMap fun l => "+ ".toList ++ l.text) ++ ");\n".toList

/-- The loop over `order1 + order2`. -/
def saveLoop (reverse : Bool) (copied : List Length) : List Var → List SaveStmt
  | [] => []
  | v :: vs =>
      match v.annotation with
      | .plain =>
          if reverse && v.type.sizeof.isSome then
            .convert (v.type.convert reverse) v :: saveLoop reverse copied vs
          else saveLoop reverse copied vs
      | .shared region =>
          .shared v.path.last v.type region (htonp reverse) :: saveLoop reverse copied vs
      | .copysize l => .copy v.path.last v.type copied :: saveLoop reverse (copied ++ [l]) vs

/-- `get_save_state_src`, where `struct` is the name of the entry struct. -/
def getSaveStateSrc (reverse : Bool) (struct : String) (vars : List Var) (extras : List Path) :
    List SaveStmt :=
  (if Path.field "qid" ∈ extras then [.qid] else []) ++ [.buffer, .entry struct] ++
    saveLoop reverse [] ((vars.filter fun v => !v.special) ++ vars.filter Var.special)

/-! ## References after the queue -/

/-- A path as a regular expression: `.` matches every letter but the end of a line. -/
def letters : Letters Char where
  fits p c := if p = '.' then c ≠ '\n' else p = c
  fits_self a := by
    by_cases h : a = '.'
    · subst h
      decide
    · simp [h]
  word := isWord
  fits_word a b h hword := by
    by_cases hdot : a = '.'
    · subst hdot
      exact absurd hword (by decide)
    · have heq : a = b := by simpa [hdot] using h
      rwa [← heq]
  stop := ' '
  stop_not_word := by decide

/-- The live paths that are not special. -/
def plainPaths (vars : List Var) : List Path :=
  (vars.filter fun v => !v.special).map Var.path

def specialPaths (vars : List Var) : List Path := (vars.filter Var.special).map Var.path

theorem noSpecials : ([] : List Path).Perm [] := List.Perm.refl []

/-- `replace_var(element, var, src2fields, "entry->")` -/
def entryRule (p : Path) : Rule Char := ⟨p.text, (Path.inEntry p.last).text⟩

/-- `replace_var(element, var, src2fields, "")` -/
def stateRule (p : Path) : Rule Char := ⟨p.text, (Path.field p.last).text⟩

/-- `replace_states`; `specials` are the keys of `special_fields`. -/
def replaceStates (vars : List Var) (extras specials : List Path) : List (Rule Char) :=
  (plainPaths vars).map entryRule ++ (extras.map stateRule ++ specials.map stateRule)

/-- `need_replacement`, for an element with this code and these output expressions. -/
def needReplacement (paths : List Path) (code : List Char) (outputs : List (List Char)) : Bool :=
  paths.any fun p => (code :: outputs).any fun text => decide (p.text <:+: text)

/-! ## The queue -/

/-- A channel of a smart queue, and what the compiler knows about it. -/
structure Channel where
  producer : Device
  consumer : Device
  /-- `need_byte_reverse` raises an exception within the NIC. -/
  not_both_nic : ¬ (producer = .nic ∧ consumer = .nic)
  states : States
  pipelineState : String
  /-- The live paths at the dequeue, after `filter_live`. -/
  live : List Path
  live_nodup : live.Nodup
  /-- What is used after the queue and not live. -/
  extras : List Path
  extras_not_live : ∀ p ∈ extras, p ∉ live
  vars : List Var
  vars_eq : getEntryContent states pipelineState live = some vars
  scalar : ∀ v ∈ vars, v.type.IsScalar
  /-- Only pointers are annotated. -/
  special_pointer : ∀ v ∈ vars, v.special → ∃ t, v.type = .pointer t
  words : ∀ p ∈ live ++ extras, p.Words
  /-- The keys of the dictionary `special`, in its order. -/
  specials : List Path
  specials_perm : specials.Perm (specialPaths vars)
  /-- `state_entry.name` -/
  entryName : String

/-- `need_byte_reverse(g, t1, t2)` -/
def needByteReverse (d1 d2 : Device) : Bool := d1 = .nic && d2 ≠ .nic

namespace Channel

variable (Q : Channel)

/-- `get_fill_entry_src` gets its two threads in the order of `need_byte_reverse`: the
producer turns values round, if it is the NIC. -/
def fillSrc (i : ℕ) : List FillStmt :=
  getFillEntrySrc (needByteReverse Q.producer Q.consumer) Q.vars i

/-- The consumer turns values round, if it is the NIC. -/
def saveSrc : List SaveStmt :=
  getSaveStateSrc (needByteReverse Q.consumer Q.producer) Q.entryName Q.vars Q.extras

/-- The rules for the elements behind `save<i>`. -/
def rules : List (Rule Char) := replaceStates Q.vars Q.extras Q.specials

/-- Whether `save<i>` is rewritten itself. -/
def renames : Bool :=
  needReplacement (Q.live ++ Q.extras)
    ("(q_buffer buff, int qid) = in();".toList ++ Q.saveSrc.flatMap SaveStmt.text)
    ["out()".toList, "release(state.buffer)".toList]

/-- What becomes of the text `w` behind `state.`, in an element that is rewritten or not. -/
def refer (renamed : Bool) (w : List Char) : Option (List Char) :=
  if renamed then rewrite letters Q.rules w else some w

/-- A reference of the generated code stays as it is.  No pattern reaches over the blank. -/
def Stays (renamed : Bool) (p : Path) : Prop :=
  Q.refer renamed (p.text ++ [' ']) = some (p.text ++ [' '])

instance (renamed : Bool) (p : Path) : Decidable (Q.Stays renamed p) :=
  inferInstanceAs (Decidable (_ = _))

/-- The structs have no two members of one name. -/
def Compiles : Prop := (entryMembers Q.vars).Nodup ∧ (pipelineMembers Q.vars Q.extras).Nodup

instance : Decidable Q.Compiles := inferInstanceAs (Decidable (_ ∧ _))

end Channel
end Smart
end Floem
