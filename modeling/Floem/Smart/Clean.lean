import Floem.Queue.Entry
import Floem.Smart.RoundTrip

/-!
# What the clean flow of a smart queue reads

* `Cleaned` — a channel of a queue with a clean instance.
* `Cleaned.submit`, `Cleaned.release` — the entry on its way from `fill<i>` to the
  `scan_save<i>` of the clean flow.
* `Cleaned.seen` — what becomes of one value on that way.
* `cleanSees_iff` — **the main theorem**: the clean flow reads what the producer enqueued
  exactly if no conversion on the way is left over.
-/

namespace Floem
namespace Smart

open Lib Queue Channel

/-! ## The way of an entry -/

/-- A channel of a queue with a clean instance; the live paths are scalars. -/
structure Cleaned extends Channel where
  /-- The device of `clean_thread`. -/
  cleaner : Device
  /-- `DMA_CACHE` -/
  dmaCache : Bool
  /-- `need_byte_reverse` raises an exception within the NIC. -/
  not_both_clean : ¬ (producer = .nic ∧ cleaner = .nic)
  plain : ∀ v ∈ vars, v.annotation = .plain

namespace Cleaned

variable (K : Cleaned)

/-- `enqueue_submit`, as far as it changes the entry. -/
def submit (e : Entry) (checksum : UInt8) : Entry :=
  ((e.set "flag" [FLAG_OWN]).set "pad" [0xff]).set "checksum" [checksum]

/-- What the host has of the entry `e` after `dequeue_release(buf, FLAG_CLEAN)`, where the
consumer leaves `c`. -/
def release (e : Entry) (c : Consumer) : Entry :=
  let left := ((c.entry.set "checksum" [0]).set "pad" [0]).set "flag" [FLAG_CLEAN]
  if K.consumer = .nic ∧ K.dmaCache = false then
    -- `dma_write(addr, sizeof(uint16_t), e, 1)`
    (e.set "flag" (left.members "flag")).set "task" (left.members "task")
  else
    -- in the memory of the host, or by `do_write`, which copies whole entries
    left

/-- The code of `scan_save<i>`: `get_save_state_src` with `qid=False`. -/
def scanSaveSrc : List SaveStmt :=
  getSaveStateSrc (needByteReverse K.cleaner K.producer) K.entryName K.vars []

/-- Whether `scan_save<i>` is rewritten itself. -/
def scanRenames : Bool :=
  needReplacement (K.live ++ K.extras)
    ("(q_buffer buff) = in();".toList ++ K.scanSaveSrc.flatMap SaveStmt.text) ["out()".toList]

/-- `scan_save<i>` of an entry that was filled at `P`. -/
def scanSave (region : String → ℕ) (P : Producer) (e : Entry) : Option Consumer :=
  if K.Compiles then
    run (SaveStmt.exec K.toChannel K.cleaner K.scanRenames region P) ⟨e, fun _ => none⟩
      K.scanSaveSrc
  else none

/-- **The clean flow of channel `i` sees what was enqueued.**  An entry that is filled,
submitted, saved by the consumer and released comes to the clean flow of its channel, where
each live path has the value it had at the producer. -/
def CleanSees (channels i : ℕ) : Prop :=
  ∀ P region region' e₀ checksum, K.Sized P → ∃ e c d,
    K.fill i P e₀ = some e ∧
    classify channels (submit e checksum) = some i ∧
    K.save region P (submit e checksum) = some c ∧
    classify channels (K.release (submit e checksum) c) = some i ∧
    K.scanSave region' P (K.release (submit e checksum) c) = some d ∧
    ∀ v ∈ K.vars, K.Refers v ∧ d.Holds K.cleaner region' P v

/-! ## The condition -/

/-- The types whose values the clean flow sees as they were. -/
structure Kept (t : CType) : Prop where
  /-- A value that crosses between the devices of the producer and of the cleaner is turned
  round once. -/
  swaps : K.producer = .nic ∨ K.cleaner = .nic → t.Swaps
  /-- What a consumer on the NIC turns round is not written back. -/
  back : K.consumer = .nic → K.dmaCache = true → t.convert true = .plain
  /-- What it turns round has a value. -/
  defined : K.consumer = .nic → K.dmaCache = false → t ≠ .float ∧ t ≠ .double

/-- The condition under which the clean flow sees what was enqueued. -/
structure Keeps : Prop where
  compiles : K.Compiles
  /-- No path, taken for a regular expression, comes in the way of a live path. -/
  settled : ∀ v ∈ K.vars, Settled letters v.rule K.rules
  /-- If `save<i>` or `scan_save<i>` is rewritten, its references stay as they are. -/
  buffer : K.renames = true ∨ K.scanRenames = true → K.Leaves (.field "buffer")
  entry : K.renames = true ∨ K.scanRenames = true → K.Leaves (.field "entry")
  qid : K.renames = true → Path.field "qid" ∈ K.extras →
    ∀ x ∈ (plainPaths K.vars).map entryRule, x.Leaves letters ((Path.field "qid").text ++ [' '])
  types : ∀ v ∈ K.vars, K.Kept v.type

variable {K}

/-! ## One value -/

/-- **A value on its way**: turned round by the producer, in memory, turned round by the
consumer, released, and turned round by the clean flow. -/
def seen (K : Cleaned) (t : CType) (x : List UInt8) : Option (List UInt8) :=
  ((t.convert (needByteReverse K.producer K.consumer)).apply t x).bind fun b =>
    let stored := K.producer.order b
    ((t.convert (needByteReverse K.consumer K.producer)).apply t
      (K.consumer.order stored)).bind fun b' =>
        let released := if K.consumer = .nic ∧ K.dmaCache = false then stored
          else K.consumer.order b'
        (t.convert (needByteReverse K.cleaner K.producer)).apply t (K.cleaner.order released)

/-- Only a floating-point number has no value as an integer. -/
theorem isSome_of_ne {t : CType} (hfloat : t ≠ .float) (hdouble : t ≠ .double) (conv : Conv)
    (x : List UInt8) : ∃ b, conv.apply t x = some b := by
  have hunsigned : ∀ n, ∃ w, t.toUnsigned n x = some w := fun n => by
    cases t with
    | float => exact absurd rfl hfloat
    | double => exact absurd rfl hdouble
    | _ => exact ⟨_, rfl⟩
  unfold Conv.apply
  cases conv.width with
  | none => exact ⟨x, rfl⟩
  | some n =>
      obtain ⟨w, hw⟩ := hunsigned n
      exact ⟨t.ofUnsigned w.reverse, by simp only [hw, Option.map_some]⟩

/-- Under the condition no conversion is left over. -/
theorem seen_of_kept {t : CType} (h : K.Kept t) {x : List UInt8} (hx : x.length = t.cSize) :
    K.seen t x = some x := by
  have hrev : x.reverse.length = t.cSize := by rw [List.length_reverse, hx]
  obtain ⟨hswaps, hback, hdefined⟩ := h
  have hboth := K.not_both_nic
  have hclean := K.not_both_clean
  unfold seen
  cases hp : K.producer <;> cases hc : K.consumer <;> cases hk : K.cleaner <;>
    rw [hp, hc] at hboth <;> rw [hp, hk] at hclean <;> rw [hp, hk] at hswaps <;>
    rw [hc] at hback hdefined
  · rfl
  · -- the clean flow turns the value round
    have hswap := (hswaps (Or.inr rfl)).apply hrev
    rw [List.reverse_reverse] at hswap
    exact hswap
  · -- the consumer turns it round, in the segment or in a copy
    cases hcache : K.dmaCache with
    | true =>
        have hconv := hback rfl hcache
        simp [needByteReverse, hconv, Device.order]
    | false =>
        obtain ⟨hfloat, hdouble⟩ := hdefined rfl hcache
        obtain ⟨b, hb⟩ := isSome_of_ne hfloat hdouble (t.convert true) x.reverse
        simp [needByteReverse, Device.order, hb]
  · have hswap := (hswaps (Or.inr rfl)).apply hrev
    rw [List.reverse_reverse] at hswap
    cases hcache : K.dmaCache with
    | true =>
        have hconv := hback rfl hcache
        rw [hconv, Conv.apply_plain] at hswap
        simp [needByteReverse, hconv, Device.order, Option.some.inj hswap]
    | false => simp [needByteReverse, Device.order, hswap]
  · -- the producer turns it round
    have hswap := (hswaps (Or.inl rfl)).apply hx
    simp [needByteReverse, Device.order, hswap]
  · exact absurd ⟨rfl, rfl⟩ hclean
  · exact absurd ⟨rfl, rfl⟩ hboth
  · exact absurd ⟨rfl, rfl⟩ hboth

/-- **What is turned round and written back is lost**, whether the clean flow turns it round
once more or not. -/
theorem exists_written_back {t : CType} (hscalar : t.IsScalar) (h : t.convert true ≠ .plain) :
    ∃ x : List UInt8, x.length = t.cSize ∧
      ((t.convert true).apply t x.reverse).map List.reverse ≠ some x ∧
      ((t.convert true).apply t x.reverse).bind ((t.convert true).apply t) ≠ some x := by
  cases t with
  | char => exact ⟨[1], rfl, by decide +kernel, by decide +kernel⟩
  | float => exact ⟨[0, 0, 128, 63], rfl, by decide +kernel, by decide +kernel⟩
  | double => exact ⟨[0, 0, 0, 0, 0, 0, 240, 63], rfl, by decide +kernel, by decide +kernel⟩
  | int => exact ⟨[1, 0, 0, 0], rfl, by decide +kernel, by decide +kernel⟩
  | uint32 => exact ⟨[1, 0, 0, 0], rfl, by decide +kernel, by decide +kernel⟩
  | uint16 => exact ⟨[1, 0], rfl, by decide +kernel, by decide +kernel⟩
  | sizeT => exact ⟨[1, 0, 0, 0, 0, 0, 0, 0], rfl, by decide +kernel, by decide +kernel⟩
  | uint64 => exact ⟨[1, 0, 0, 0, 0, 0, 0, 0], rfl, by decide +kernel, by decide +kernel⟩
  | uintptr => exact ⟨[1, 0, 0, 0, 0, 0, 0, 0], rfl, by decide +kernel, by decide +kernel⟩
  | pointer t =>
      have hpointer : (CType.pointer t).convert true = .htonp := rfl
      have hword : Conv.htonp.apply (.pointer t) = Conv.htonp.apply .uint64 := rfl
      rw [hpointer, hword]
      exact ⟨[1, 0, 0, 0, 0, 0, 0, 0], rfl, by decide +kernel, by decide +kernel⟩
  | unsignedInt => exact absurd rfl h
  | uint8 => exact absurd rfl h
  | bool => exact absurd rfl h
  | void => exact hscalar.elim
  | state name => exact hscalar.elim

/-- Infinity has no value as an integer. -/
theorem exists_undefined {t : CType} (h : t = .float ∨ t = .double) :
    ∃ x : List UInt8, x.length = t.cSize ∧ (t.convert true).apply t x.reverse = none := by
  rcases h with rfl | rfl
  · exact ⟨[127, 128, 0, 0], rfl, by decide +kernel⟩
  · exact ⟨[127, 240, 0, 0, 0, 0, 0, 0], rfl, by decide +kernel⟩

/-- Nothing else is kept. -/
theorem kept_of_seen {t : CType} (hscalar : t.IsScalar)
    (h : ∀ x, x.length = t.cSize → K.seen t x = some x) : K.Kept t := by
  unfold seen at h
  constructor
  case swaps =>
    rintro (hp | hk)
    · -- the clean flow is on a CPU, like the consumer
      have hc := Device.eq_cpu fun hc => K.not_both_nic ⟨hp, hc⟩
      have hk := Device.eq_cpu fun hk => K.not_both_clean ⟨hp, hk⟩
      by_contra hswaps
      obtain ⟨x, hx, hfrom, -⟩ := CType.exists_not_swapped hscalar hswaps
      have hseen := h x hx
      simp only [hp, hc, hk, needByteReverse, Device.order] at hseen
      exact hfrom (by simpa [Option.map_eq_bind, Function.comp_def] using hseen)
    · have hp := Device.eq_cpu fun hp => K.not_both_clean ⟨hp, hk⟩
      by_contra hswaps
      obtain ⟨x, hx, -, hto⟩ := CType.exists_not_swapped hscalar hswaps
      cases hc : K.consumer with
      | cpu =>
          have hseen := h x hx
          simp [hp, hc, hk, needByteReverse, Device.order] at hseen
          exact hto hseen
      | nic =>
          cases hcache : K.dmaCache with
          | false =>
              have hseen := h x hx
              simp [hp, hc, hk, hcache, needByteReverse, Device.order] at hseen
              obtain ⟨b, -, hseen⟩ := Option.bind_eq_some_iff.1 hseen
              exact hto hseen
          | true =>
              by_cases hplain : t.convert true = .plain
              · have hseen := h x hx
                simp [hp, hc, hk, hcache, hplain, needByteReverse, Device.order] at hseen
                exact hto (by rw [hplain, Conv.apply_plain, hseen])
              · obtain ⟨x, hx, -, hback⟩ := exists_written_back hscalar hplain
                have hseen := h x hx
                simp [hp, hc, hk, hcache, needByteReverse, Device.order] at hseen
                exact hback hseen
  case back =>
    intro hc hcache
    have hp := Device.eq_cpu fun hp => K.not_both_nic ⟨hp, hc⟩
    by_contra hplain
    obtain ⟨x, hx, hfrom, hback⟩ := exists_written_back hscalar hplain
    have hseen := h x hx
    cases hk : K.cleaner with
    | cpu =>
        simp [hp, hc, hk, hcache, needByteReverse, Device.order] at hseen
        obtain ⟨b, hb, hseen⟩ := Option.bind_eq_some_iff.1 hseen
        exact hfrom (by rw [hb, Option.map_some, hseen])
    | nic =>
        simp [hp, hc, hk, hcache, needByteReverse, Device.order] at hseen
        exact hback hseen
  case defined =>
    intro hc hcache
    have hp := Device.eq_cpu fun hp => K.not_both_nic ⟨hp, hc⟩
    rw [← not_or]
    intro hfloat
    obtain ⟨x, hx, hnone⟩ := exists_undefined hfloat
    have hseen := h x hx
    simp [hp, hc, hcache, hnone, needByteReverse, Device.order] at hseen

/-! ## The whole way -/

/-- No live path is stored in a member of the header. -/
theorem last_ne_header (hentry : (entryMembers K.vars).Nodup) {v : Var} (hv : v ∈ K.vars)
    {m : String} (hm : m ∈ header.map Prod.snd) : v.path.last ≠ m := by
  rw [entryMembers, List.map_append, List.append_assoc, List.nodup_append] at hentry
  have hmember : v.member = some (v.type, v.path.last) := by simp [Var.member, K.plain v hv]
  have hlast : v.path.last ∈ (K.vars.filterMap Var.member).map Prod.snd :=
    List.mem_map.2 ⟨_, List.mem_filterMap.2 ⟨v, hv, hmember⟩, rfl⟩
  exact fun h => hentry.2.2 m hm _ (List.mem_append_left _ hlast) h.symm

theorem members_submit {e : Entry} {checksum : UInt8} {k : String} (hflag : k ≠ "flag")
    (hpad : k ≠ "pad") (hchecksum : k ≠ "checksum") :
    (submit e checksum).members k = e.members k := by
  simp [submit, Entry.set, hflag, hpad, hchecksum]

theorem members_release {e : Entry} {c : Consumer} {k : String} (hflag : k ≠ "flag")
    (hpad : k ≠ "pad") (hchecksum : k ≠ "checksum") (htask : k ≠ "task") :
    (K.release e c).members k =
      if K.consumer = .nic ∧ K.dmaCache = false then e.members k else c.entry.members k := by
  unfold release
  split_ifs <;> simp [Entry.set, hflag, hpad, hchecksum, htask]

theorem task_release (K : Cleaned) (e : Entry) (c : Consumer) :
    (K.release e c).members "task" = c.entry.members "task" := by
  unfold release
  split_ifs <;> simp [Entry.set]

/-- No special field is put together again. -/
theorem filter_special (K : Cleaned) : K.vars.filter Var.special = [] :=
  List.filter_eq_nil_iff.2 fun v hv => by simp [Var.special, K.plain v hv]

section

variable {P : Producer} {region region' : String → ℕ} {i : ℕ} {e₀ e : Entry} {checksum : UInt8}
  {c d : Consumer} (hcompiles : K.Compiles)
  (hfill : run (FillStmt.exec K.producer P) e₀ (K.fillSrc i) = some e)
  (hsave : run (SaveStmt.exec K.toChannel K.consumer K.renames region P)
    ⟨submit e checksum, fun _ => none⟩ K.saveSrc = some c)

include hcompiles hfill hsave

/-- The entry keeps its channel. -/
theorem task_kept : (submit e checksum).members "task" = [UInt8.ofNat (i + 1)] ∧
    (K.release (submit e checksum) c).members "task" = [UInt8.ofNat (i + 1)] := by
  have htask := fill_task hcompiles.1 hfill
  have hsubmit : (submit e checksum).members "task" = [UInt8.ofNat (i + 1)] := by
    rw [members_submit (by decide) (by decide) (by decide), htask]
  refine ⟨hsubmit, ?_⟩
  rw [task_release, Channel.save_member hsave fun v hv _ _ => last_ne_header hcompiles.1 hv (by decide),
    hsubmit]

/-- What the clean flow reads of a live path. -/
theorem seen_of_run (hscan : run (SaveStmt.exec K.toChannel K.cleaner K.scanRenames region' P)
      ⟨K.release (submit e checksum) c, fun _ => none⟩ K.scanSaveSrc = some d)
    {v : Var} (hv : v ∈ K.vars) :
    K.seen v.type (P.value v.path) = some (K.cleaner.order (d.entry.members v.path.last)) := by
  have hann := K.plain v hv
  have hheader : ∀ m ∈ header.map Prod.snd, v.path.last ≠ m := fun m hm =>
    last_ne_header hcompiles.1 hv hm
  have hflag := hheader "flag" (by decide)
  have hpad := hheader "pad" (by decide)
  have hchecksum := hheader "checksum" (by decide)
  have htask := hheader "task" (by decide)
  obtain ⟨b, hb, hstored⟩ := fill_plain hcompiles.1 hfill hv hann
  obtain ⟨b', hb', hleft⟩ := Channel.save_plain hsave hcompiles.1 hv hann
  obtain ⟨b'', hb'', hread⟩ := Channel.save_plain hscan hcompiles.1 hv hann
  rw [members_submit hflag hpad hchecksum, hstored] at hb'
  rw [members_release hflag hpad hchecksum htask, members_submit hflag hpad hchecksum, hstored,
    hleft] at hb''
  rw [hread, Device.order_order, seen]
  simp only [hb, hb', hb'', Option.bind_some]

end

/-- A live path holds its value if it is read there. -/
theorem holds_iff (K : Cleaned) {d : Device} {region : String → ℕ} {P : Producer} {c : Consumer}
    {v : Var} (hv : v ∈ K.vars) :
    c.Holds d region P v ↔ d.order (c.entry.members v.path.last) = P.value v.path := by
  rw [Consumer.Holds, K.plain v hv, Consumer.Has]

/-! ## The condition is exact -/

/-- `save<i>` and `scan_save<i>` are done, where every conversion is defined. -/
theorem save_total (h : K.Keeps) {d : Device} {renamed reverse : Bool} {region : String → ℕ}
    {P : Producer} {xs : List Path}
    (hrenamed : renamed = true → K.renames = true ∨ K.scanRenames = true)
    (hqid : Path.field "qid" ∈ xs → Path.field "qid" ∈ K.extras ∧ (renamed = true →
      ∀ x ∈ (plainPaths K.vars).map entryRule,
        x.Leaves letters ((Path.field "qid").text ++ [' '])))
    (hconv : ∀ v ∈ K.vars, ∀ x, ∃ b, (v.type.convert reverse).apply v.type x = some b)
    (hconverts : ∀ v conv, SaveStmt.convert conv v ∈
      getSaveStateSrc reverse K.entryName K.vars xs → v ∈ K.vars → renamed = true) (e : Entry) :
    ∃ c, run (SaveStmt.exec K.toChannel d renamed region P) ⟨e, fun _ => none⟩
      (getSaveStateSrc reverse K.entryName K.vars xs) = some c := by
  obtain ⟨c, hc⟩ : ∃ c, run (SaveStmt.exec K.toChannel d renamed region P) ⟨e, fun _ => none⟩
      (saveLoop reverse [] (K.vars.filter fun v => !v.special)) = some c := by
    refine Channel.plain_total K.toChannel h.settled (fun v hv _ => hconv v hv)
      (fun v conv ha hv => hconverts v conv ?_ hv) _
    rw [Channel.saveSrc_eq]
    exact List.mem_append_right _ (List.mem_append_left _ ha)
  refine ⟨c, ?_⟩
  rw [Channel.saveSrc_eq, filter_special, saveLoop, List.append_nil, run_append,
    Channel.head_run h.settled (fun hr => h.buffer (hrenamed hr))
      (fun hr => h.entry (hrenamed hr)) hqid, Option.bind_some, hc]

theorem Keeps.cleanSees (h : K.Keeps) {channels i : ℕ} (hi : i < channels) (h255 : i < 255) :
    K.CleanSees channels i := by
  intro P region region' e₀ checksum hsized
  have hreverse : ∀ {d d' : Device}, needByteReverse d d' = true → d = .nic := fun {d d'} h => by
    cases d with
    | nic => rfl
    | cpu => cases d' <;> cases h
  obtain ⟨e, hfill⟩ : ∃ e, run (FillStmt.exec K.producer P) e₀ (K.fillSrc i) = some e :=
    Channel.fill_total K.toChannel (fun v hv _ x => Channel.apply_isSome _
      (fun hr => (h.types v hv).swaps (Or.inl (hreverse hr))) x) P i e₀
  obtain ⟨c, hsave⟩ : ∃ c, run (SaveStmt.exec K.toChannel K.consumer K.renames region P)
      ⟨submit e checksum, fun _ => none⟩ K.saveSrc = some c := by
    refine save_total h Or.inl (fun hqid => ⟨hqid, fun hr => h.qid hr hqid⟩) (fun v hv x => ?_)
      (fun v conv ha hv => Channel.renames_of_infix hv List.infix_rfl ha
        (Channel.infix_convert conv v)) _
    cases hr : needByteReverse K.consumer K.producer with
    | false => exact ⟨x, rfl⟩
    | true =>
        cases hcache : K.dmaCache with
        | true => exact ⟨x, by rw [(h.types v hv).back (hreverse hr) hcache, Conv.apply_plain]⟩
        | false =>
            obtain ⟨hfloat, hdouble⟩ := (h.types v hv).defined (hreverse hr) hcache
            exact isSome_of_ne hfloat hdouble _ x
  obtain ⟨d, hscan⟩ : ∃ d, run (SaveStmt.exec K.toChannel K.cleaner K.scanRenames region' P)
      ⟨K.release (submit e checksum) c, fun _ => none⟩ K.scanSaveSrc = some d := by
    refine save_total h Or.inr (fun hqid => absurd hqid List.not_mem_nil)
      (fun v hv x => Channel.apply_isSome _
        (fun hr => (h.types v hv).swaps (Or.inr (hreverse hr))) x)
      (fun v conv ha hv => ?_) _
    refine Channel.needReplacement_of_infix
      (List.mem_append_left _ (K.mem_paths.2 ⟨v, hv, rfl⟩)) (Channel.infix_convert conv v) ?_
    exact (Channel.infix_flatMap ha).trans (List.suffix_append _ _).isInfix
  obtain ⟨hsubmitted, hreleased⟩ := task_kept h.compiles hfill hsave
  refine ⟨e, c, d, by rw [Channel.fill, if_pos h.compiles, hfill],
    (classify_of_task hi hsubmitted).2 h255, by rw [Channel.save, if_pos h.compiles, hsave],
    (classify_of_task hi hreleased).2 h255, by rw [scanSave, if_pos h.compiles, hscan],
    fun v hv => ⟨?_, ?_⟩⟩
  · exact (Channel.refers_iff h.compiles.1 h.compiles.2).2 h.settled v hv
  · have hseen := seen_of_run h.compiles hfill hsave hscan hv
    rw [seen_of_kept (h.types v hv) (hsized v hv)] at hseen
    exact (holds_iff K hv).2 (Option.some.inj hseen).symm

/-- The references to `buffer` and `entry` are those that were written. -/
theorem stays_of_run {d : Device} {renamed reverse : Bool} {region : String → ℕ} {P : Producer}
    {e : Entry} {xs : List Path} {c : Consumer}
    (h : run (SaveStmt.exec K.toChannel d renamed region P) ⟨e, fun _ => none⟩
      (getSaveStateSrc reverse K.entryName K.vars xs) = some c) :
    K.Stays renamed (.field "buffer") ∧ K.Stays renamed (.field "entry") := by
  constructor
  · obtain ⟨-, -, u, w, -, -, hstep, -⟩ := run_mem (a := .buffer)
      (show SaveStmt.buffer ∈ _ by simp [getSaveStateSrc]) h
    simp only [SaveStmt.exec] at hstep
    split_ifs at hstep with hstays
    exact hstays
  · obtain ⟨-, -, u, w, -, -, hstep, -⟩ := run_mem (a := .entry K.entryName)
      (show SaveStmt.entry K.entryName ∈ _ by simp [getSaveStateSrc]) h
    simp only [SaveStmt.exec] at hstep
    split_ifs at hstep with hstays
    exact hstays

theorem CleanSees.keeps {channels i : ℕ} (hi : i < channels) (h : K.CleanSees channels i) :
    K.Keeps ∧ i < 255 := by
  have hzeros : K.Sized K.zeros := fun v hv => by rw [Channel.value_zeros hv, List.length_replicate]
  have hrun : ∀ P, K.Sized P → ∃ e c d, K.Compiles ∧
      run (FillStmt.exec K.producer P) ⟨fun _ => [], fun _ => 0⟩ (K.fillSrc i) = some e ∧
      run (SaveStmt.exec K.toChannel K.consumer K.renames (fun _ => 0) P)
        ⟨submit e 0, fun _ => none⟩ K.saveSrc = some c ∧
      run (SaveStmt.exec K.toChannel K.cleaner K.scanRenames (fun _ => 0) P)
        ⟨K.release (submit e 0) c, fun _ => none⟩ K.scanSaveSrc = some d ∧
      classify channels (submit e 0) = some i ∧
      ∀ v ∈ K.vars, K.Refers v ∧ d.Holds K.cleaner (fun _ => 0) P v := by
    intro P hP
    obtain ⟨e, c, d, hfill, hclass, hsave, -, hscan, hvalue⟩ :=
      h P (fun _ => 0) (fun _ => 0) ⟨fun _ => [], fun _ => 0⟩ 0 hP
    unfold Channel.fill at hfill
    unfold Channel.save at hsave
    unfold scanSave at hscan
    split_ifs at hfill hsave hscan with hcompiles
    exact ⟨e, c, d, hcompiles, hfill, hsave, hscan, hclass, hvalue⟩
  obtain ⟨e, c, d, hcompiles, hfill, hsave, hscan, hclass, hvalue⟩ := hrun _ hzeros
  have hsettled := (Channel.refers_iff hcompiles.1 hcompiles.2).1 fun v hv => (hvalue v hv).1
  obtain ⟨hbuffer, hentry⟩ := stays_of_run hsave
  obtain ⟨hbuffer', hentry'⟩ := stays_of_run hscan
  have hleaves : ∀ f ∈ ["refcount", "buffer", "entry", "qid"],
      K.Stays K.renames (.field f) → K.Stays K.scanRenames (.field f) →
      K.renames = true ∨ K.scanRenames = true → K.Leaves (.field f) := by
    rintro f hf hsaved hscanned (hr | hr)
    · exact (Channel.stays_field hsettled (words_reserved f hf)).1 hsaved hr
    · exact (Channel.stays_field hsettled (words_reserved f hf)).1 hscanned hr
  refine ⟨?_, (classify_of_task hi (task_kept hcompiles hfill hsave).1).1 hclass⟩
  constructor
  case compiles => exact hcompiles
  case settled => exact hsettled
  case buffer => exact hleaves _ (by simp) hbuffer hbuffer'
  case entry => exact hleaves _ (by simp) hentry hentry'
  case qid =>
    intro hr hqid
    obtain ⟨-, -, u, w, -, -, hstep, -⟩ := run_mem (a := .qid)
      (show SaveStmt.qid ∈ K.saveSrc by simp [Channel.saveSrc, getSaveStateSrc, hqid]) hsave
    simp only [SaveStmt.exec] at hstep
    split_ifs at hstep with hmember
    exact (Channel.qid_iff hsettled hqid).1 hmember hr
  case types =>
    intro v hv
    refine kept_of_seen (K.scalar v hv) fun x hx => ?_
    obtain ⟨e, c, d, -, hfill, hsave, hscan, -, hvalue⟩ := hrun _ (Channel.sized_update hv hx)
    have hseen := seen_of_run hcompiles hfill hsave hscan hv
    rw [(holds_iff K hv).1 (hvalue v hv).2] at hseen
    simpa using hseen

/-- The length of a key, from a CPU to a NIC, and cleaned on the CPU. -/
def keylenCleaned (dmaCache : Bool) : Cleaned where
  producer := .cpu
  consumer := .nic
  not_both_nic := Device.cpu_to_nic
  states := request
  pipelineState := "request"
  live := [.field "keylen"]
  live_nodup := by decide
  extras := []
  extras_not_live := by simp
  vars := [⟨.field "keylen", .int, .plain⟩]
  vars_eq := rfl
  scalar := by simp [CType.IsScalar]
  special_pointer := by simp [Var.special]
  words := by simp [Path.Words, Path.fields, Path.field, isWord]
  specials := []
  specials_perm := noSpecials
  entryName := "entry_queue0"
  cleaner := .cpu
  dmaCache := dmaCache
  not_both_clean := by decide
  plain := by simp

end Cleaned
end Smart
end Floem
