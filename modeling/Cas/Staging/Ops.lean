import Cas.Staging.Live
import Mathlib.Data.List.Forall2

/-!
# What the operations of the staging log leave in its file

A log is meant to hold the operations it was given, in their order, each in its own slot. An
operation that fails has written the first of its records, and perhaps one that is torn.
-/

namespace Cas.Staging

open Bytes List

/-- One record, as an operation on the image. -/
inductive Op
  | write (offset : Nat) (block : Bytes)
  | zero (offset length : Nat)
  | fence
  deriving DecidableEq, Repr

namespace Op

def of (kind : RecordKind) (offset length : Nat) (payload : Bytes) : Op :=
  match kind with
  | .write => .write offset payload
  | .zero => .zero offset length
  | .fence => .fence

/-- The blocks of the image by their offset, after one more operation. -/
def apply (image : Nat → Bytes) : Op → Nat → Bytes
  | .write offset block => Function.update image offset block
  | .zero offset length => fun o =>
    if o < offset ∨ offset + length ≤ o then image o else zeros BLOCK_SIZE
  | .fence => image

end Op

/-- The image after some operations. -/
def imageAfter (ops : List Op) : Nat → Bytes := ops.foldl Op.apply fun _ => zeros BLOCK_SIZE

/-- The operations of a write. -/
def writeOps (offset : Nat) (bytes : Bytes) : List Op :=
  (StagingLog.blocksOf bytes).zipIdx.map fun (block, i) => .write (offset + i * BLOCK_SIZE) block

/-- The operations of a zeroed range, none if it is empty. -/
def zeroOps (offset length : Nat) : List Op := if length = 0 then [] else [.zero offset length]

/-- The operations of a flush, none if there is nothing to flush. -/
def flushOps (log : StagingLog) : List Op := if log.appended ≠ log.durable then [.fence] else []

variable [Digest]

/-- The operation of a record. -/
def opOf (b : Bytes) : Option Op :=
  (decode b).map fun r => .of r.kind r.offset r.length (b.drop BLOCK_SIZE)

/-- A slot that was given an operation. -/
def Codes (b : Bytes) (op : Op) : Prop := opOf b = some op ∨ decode b = none

theorem isFence_iff {b : Bytes} : StagingLog.isFence b = true ↔ opOf b = some .fence := by
  rw [StagingLog.isFence, opOf]
  cases decode b with
  | none => exact iff_of_false nofun nofun
  | some r =>
    obtain ⟨kind, sequence, offset, length⟩ := r
    cases kind with
    | write => exact iff_of_false nofun nofun
    | zero => exact iff_of_false nofun nofun
    | fence => exact iff_of_true rfl rfl

theorem applyRecord_eq {b : Bytes} {op : Op} (h : opOf b = some op) (image : Nat → Bytes) :
    applyRecord image b = op.apply image := by
  obtain ⟨r, hd, rfl⟩ := Option.map_eq_some_iff.1 h
  rw [applyRecord, hd]
  obtain ⟨kind, sequence, offset, length⟩ := r
  cases kind <;> rfl

theorem contents_eq {log : List Bytes} {ops : List Op}
    (h : List.Forall₂ (fun b op => opOf b = some op) log ops) : contents log = imageAfter ops := by
  rw [contents, imageAfter]
  generalize (fun _ => zeros BLOCK_SIZE : Nat → Bytes) = image
  induction h generalizing image with
  | nil => rfl
  | cons hop _ ih => rw [foldl_cons, foldl_cons, applyRecord_eq hop, ih]

namespace StagingLog

variable {log log' log₁ : StagingLog} {file file' file₁ : Bytes} {ops ops₁ : List Op} {ok : Bool}

/-- An operation took a log to another, and wrote some of its records. -/
structure Extends (log : StagingLog) (file : Bytes) (ops : List Op) (ok : Bool) (log' : StagingLog)
    (file' : Bytes) : Prop where
  image : log'.imageBytes = log.imageBytes
  durable : log'.durable = log.durable
  appended : log.appended ≤ log'.appended
  grown : file <+: file'
  written : ∃ bs, records file' = records file ++ bs ∧ List.Forall₂ Codes bs (ops.take bs.length)
  live : log'.poisoned = false → log'.Live file'
  pending : log'.poisoned = false → log' = log ∧ file' = file ∨ log'.durable < log'.appended
  done : ok = true → log'.poisoned = false ∧ slots file' = slots file + ops.length

namespace Extends

theorem refl (h : log.Live file) (hops : ok = true → ops = []) : Extends log file ops ok log file where
  image := rfl
  durable := rfl
  appended := le_refl _
  grown := prefix_rfl
  written := ⟨[], (append_nil _).symm, .nil⟩
  live _ := h
  pending _ := .inl ⟨rfl, rfl⟩
  done hok := ⟨h.healthy, by rw [hops hok, length_nil, add_zero]⟩

/-- The records that were written are among those that were to be. -/
theorem length_written {bs : List Bytes} (h : List.Forall₂ Codes bs (ops.take bs.length)) :
    bs.length ≤ ops.length := by
  have := h.length_eq
  rw [length_take] at this
  omega

theorem stop (h : Extends log file ops false log' file') (more : List Op) :
    Extends log file (ops ++ more) false log' file' := by
  obtain ⟨bs, hrec, hbs⟩ := h.written
  refine { h with written := ⟨bs, hrec, ?_⟩, done := nofun }
  rwa [take_append_of_le_length (length_written hbs)]

theorem trans (h₁ : Extends log file ops₁ true log₁ file₁)
    (h : Extends log₁ file₁ ops ok log' file') : Extends log file (ops₁ ++ ops) ok log' file' := by
  obtain ⟨bs₁, hrec₁, hbs₁⟩ := h₁.written
  obtain ⟨bs, hrec, hbs⟩ := h.written
  obtain ⟨hp₁, hslots₁⟩ := h₁.done rfl
  have hlen : bs₁.length = ops₁.length := by
    have := congrArg length hrec₁
    rw [length_records, length_append, length_records, hslots₁] at this
    omega
  refine ⟨h.image.trans h₁.image, h.durable.trans h₁.durable, h₁.appended.trans h.appended,
    h₁.grown.trans h.grown, ⟨bs₁ ++ bs, by rw [hrec, hrec₁, append_assoc], ?_⟩, h.live,
    fun hp => ?_, fun hok => ?_⟩
  · rw [length_append, hlen, take_length_add_append]
    rw [hlen, take_length] at hbs₁
    exact rel_append hbs₁ hbs
  · rcases h.pending hp with ⟨rfl, rfl⟩ | hlt
    · exact h₁.pending hp
    · exact .inr hlt
  · obtain ⟨hp, hslots⟩ := h.done hok
    exact ⟨hp, by rw [hslots, hslots₁, length_append, add_assoc]⟩

end Extends

/-! ## One record -/

omit [Digest] in
theorem records_short {b : Bytes} (hl : file.length = position (slots file))
    (hb : b.length < RECORD_SIZE) : records (file ++ b) = records file := by
  have hslots : slots (file ++ b) = slots file := by
    have hlen : (file ++ b).length = position (slots file) + b.length := by
      rw [length_append, hl]
    generalize slots file = k at hlen
    rw [slots, hlen]
    simp only [position, BLOCK_SIZE, RECORD_SIZE] at hb ⊢
    omega
  rw [records, hslots, records]
  exact map_congr_left fun i hi => slot_append (mem_range.1 hi)

theorem records_torn {record : Bytes} (hl : file.length = position (slots file))
    (hr : record.length = RECORD_SIZE) {op : Op} (hop : opOf record = some op) (torn : Torn) :
    ∃ bs, records (file ++ torn.bytes record) = records file ++ bs ∧
      List.Forall₂ Codes bs ([op].take bs.length) := by
  cases torn with
  | short b hb => exact ⟨[], by rw [append_nil]; exact records_short hl hb, .nil⟩
  | damaged b hb hd => exact ⟨[b], records_append hl hb, .cons (.inr hd) .nil⟩
  | intact => exact ⟨[record], records_append hl hr, .cons (.inl hop) .nil⟩

variable {n offset length : Nat} {kind : RecordKind} {payload : Bytes}

theorem opOf_encode {sequence : Nat}
    (hs : sequence < U64) (h : Fits n kind offset length payload) :
    opOf (encode ⟨kind, sequence, offset, length⟩ payload) = some (.of kind offset length payload) := by
  have hw : Record.Writable ⟨kind, sequence, offset, length⟩ payload := Fits.writable hs h
  rw [opOf, decode_encode hw, Option.map_some]
  cases kind with
  | write => rw [payload_encode hw rfl]
  | zero => simp only [Op.of]
  | fence => simp only [Op.of]

theorem Live.extends_torn (h : log.Live file)
    (hfits : Fits log.imageBytes kind offset length payload) {sequence : Nat}
    (hs : sequence < U64) (torn : Torn) :
    Extends log file [.of kind offset length payload] false { log with poisoned := true }
      (file ++ torn.bytes (encode ⟨kind, sequence, offset, length⟩ payload)) where
  image := rfl
  durable := rfl
  appended := le_refl _
  grown := prefix_append _ _
  written := records_torn (h.length.trans h.next) (length_encode ..) (opOf_encode hs hfits) torn
  live := nofun
  pending := nofun
  done := nofun

theorem Appended.op {record : Record}
    (h : Appended log log' file file' record payload) (hl : log'.appended < U64) :
    opOf (encode record payload) = some (.of record.kind record.offset record.length payload) :=
  opOf_encode (h.sequence ▸ hl) h.fits

theorem Appended.slots_eq {record : Record}
    (h : Appended log log' file file' record payload) : slots file' = slots file + 1 := by
  have := congrArg List.length h.records_eq
  rwa [length_records, List.length_append, length_records] at this

theorem Live.append_extends (h : log.Live file)
    (hfits : Fits log.imageBytes kind offset length payload)
    (hk : kind ≠ .fence) (write : Outcome) {r : Except Error Nat}
    (hx : log.append file kind offset length payload write = (log', file', r)) :
    Extends log file [.of kind offset length payload] r.isOk log' file' := by
  rcases h.append hfits write hx with ⟨e, rfl, hfail⟩ | ⟨sequence, rfl, ha⟩
  · cases hfail with
    | exhausted => exact .refl h nofun
    | torn hs torn => exact h.extends_torn hfits hs torn
  · have hreads := ha.reads
    rw [if_neg hk] at hreads
    have hnum := ha.numbered
    rw [nextSequence, if_neg hk] at hnum
    obtain ⟨hnum, hlt⟩ := checkedAdd_eq_some.1 hnum
    exact {
      image := ha.image
      durable := ha.durable
      appended := by omega
      grown := ha.file_eq ▸ prefix_append _ _
      written := ⟨_, ha.records_eq, .cons (.inl (ha.op hlt)) .nil⟩
      live := fun _ => ⟨ha.healthy, ha.next, ha.length, hreads⟩
      pending := fun _ => .inr (by have := h.reads.durable_le; rw [ha.durable]; omega)
      done := fun _ => ⟨ha.healthy, ha.slots_eq⟩ }

/-! ## Operations -/

theorem Live.appendBlocks_extends (offset : Nat) (writes : Nat → Outcome) (blocks : List Bytes)
    {index : Nat} (h : log.Live file)
    (hfits : ∀ p ∈ blocks.zipIdx index,
      Fits log.imageBytes .write (offset + p.2 * BLOCK_SIZE) BLOCK_SIZE p.1)
    {r : Except Error Unit}
    (hx : appendBlocks offset writes index blocks log file = (log', file', r)) :
    Extends log file
      ((blocks.zipIdx index).map fun (block, i) => .write (offset + i * BLOCK_SIZE) block)
      r.isOk log' file' := by
  induction blocks generalizing index log file with
  | nil =>
    cases hx
    exact .refl h fun _ => rfl
  | cons block blocks ih =>
    rw [zipIdx_cons] at hfits ⊢
    rw [map_cons, ← singleton_append]
    rw [appendBlocks] at hx
    split at hx
    · next log₁ file₁ s happ =>
      have h₁ := h.append_extends (hfits _ mem_cons_self) nofun (writes index) happ
      have hfits₁ := fun p hp => hfits p (mem_cons_of_mem _ hp)
      rw [← h₁.image] at hfits₁
      exact h₁.trans (ih (h₁.live (h₁.done rfl).1) hfits₁ hx)
    · next log₁ file₁ e happ =>
      cases hx
      exact (h.append_extends (hfits _ mem_cons_self) nofun (writes index) happ).stop _

omit [Digest] in
theorem ValidRange.block {i : Nat} (h : ValidRange n offset length)
    (hi : i < length / BLOCK_SIZE) : ValidRange n (offset + i * BLOCK_SIZE) BLOCK_SIZE := by
  obtain ⟨hlt, hle⟩ := ValidRange.lt h
  obtain ⟨ho, -, -⟩ := h
  simp only [BLOCK_SIZE] at hi ho ⊢
  have hadd : checkedAdd (offset + i * 4096) 4096 = some (offset + i * 4096 + 4096) :=
    checkedAdd_eq_some.2 ⟨rfl, by omega⟩
  refine ⟨by simp only [BLOCK_SIZE]; omega, Nat.mod_self _, ?_⟩
  rw [hadd, Option.any_some, decide_eq_true_iff]
  omega

omit [Digest] in
theorem blocksOf_fits {bytes : Bytes} (h : ValidRange n offset bytes.length) :
    ∀ p ∈ (blocksOf bytes).zipIdx,
      Fits n .write (offset + p.2 * BLOCK_SIZE) BLOCK_SIZE p.1 := by
  rintro ⟨block, i⟩ hp
  obtain ⟨hi, hblock⟩ := mem_zipIdx' hp
  rw [blocksOf, length_map, length_range] at hi
  refine ⟨ValidRange.block h hi, rfl, ?_⟩
  simp only [blocksOf, getElem_map, getElem_range] at hblock
  rw [hblock]
  refine length_slice_of_le ?_
  simp only [BLOCK_SIZE] at hi ⊢
  omega

omit [Digest] in
theorem admits_ok (h : log.admits offset length = .ok ()) :
    ValidRange log.imageBytes offset length := by
  obtain ⟨⟨⟩, -, h⟩ := Except.bind_eq_ok.1 h
  exact validateRange_eq_ok.1 h

theorem Live.write_extends (h : log.Live file) {bytes : Bytes}
    {writes : Nat → Outcome} {r : Except Error (Option Nat)}
    (hx : log.write file offset bytes writes = (log', file', r)) :
    Extends log file (writeOps offset bytes) r.isOk log' file' := by
  rw [StagingLog.write] at hx
  split at hx
  · cases hx
    exact .refl h nofun
  · next hadm =>
    split at hx
    · cases hx
      exact .refl h nofun
    · have hfits := blocksOf_fits (admits_ok hadm)
      split at hx
      · next log₁ file₁ happ =>
        cases hx
        exact h.appendBlocks_extends offset writes _ hfits happ
      · next log₁ file₁ e happ =>
        cases hx
        exact h.appendBlocks_extends offset writes _ hfits happ

theorem Live.zero_extends (h : log.Live file) {write : Outcome}
    {r : Except Error (Option Nat)}
    (hx : log.zero file offset length write = (log', file', r)) :
    Extends log file (zeroOps offset length) r.isOk log' file' := by
  rw [StagingLog.zero] at hx
  rw [zeroOps]
  split at hx
  · cases hx
    exact .refl h nofun
  · next hadm =>
    split at hx
    · next hl =>
      cases hx
      rw [if_pos hl]
      exact .refl h fun _ => rfl
    · next hl =>
      rw [if_neg hl]
      generalize happ : log.append file .zero offset length [] write = x at hx
      obtain ⟨log₁, file₁, r₁⟩ := x
      cases hx
      have hfits : Fits log.imageBytes .zero offset length [] :=
        ⟨admits_ok hadm, Nat.pos_of_ne_zero hl, rfl⟩
      have := h.append_extends hfits nofun write happ
      cases r₁ with
      | error e => exact this
      | ok s => exact this

/-- What a flush does: nothing, a fence that is synced, or a fence that may be torn. -/
inductive Flushed (log : StagingLog) (file : Bytes) (log' : StagingLog) (file' : Bytes) :
    Except Error Nat → Prop
  | clean (same : log.appended = log.durable) (log_eq : log' = log) (file_eq : file' = file) :
    Flushed log file log' file' (.ok log.durable)
  | synced (dirty : log.appended ≠ log.durable) (image : log'.imageBytes = log.imageBytes)
    (grown : file <+: file') (live : log'.Live file') (durable : log'.appended = log'.durable)
    {b : Bytes} (written : records file' = records file ++ [b]) (fence : opOf b = some .fence) :
    Flushed log file log' file' (.ok log'.appended)
  | failed {e : Error} (image : log'.imageBytes = log.imageBytes) (grown : file <+: file')
    {bs : List Bytes} (written : records file' = records file ++ bs)
    (codes : List.Forall₂ Codes bs (flushOps log |>.take bs.length))
    (same : log'.poisoned = false → log' = log ∧ file' = file) :
    Flushed log file log' file' (.error e)

theorem Live.flush_cases (h : log.Live file) {write : Outcome} {sync : Option IoError}
    {r : Except Error Nat} (hx : log.flush file write sync = (log', file', r)) :
    Flushed log file log' file' r := by
  have hfits : Fits log.imageBytes .fence 0 0 [] := ⟨rfl, rfl, rfl⟩
  have hhealthy : log.healthy = .ok () := by
    rw [StagingLog.healthy, h.healthy]
    rfl
  rw [StagingLog.flush, hhealthy] at hx
  dsimp only at hx
  split at hx
  · next hne =>
    have hops : flushOps log = [.fence] := if_pos hne
    generalize happ : log.append file .fence 0 0 [] write = x at hx
    obtain ⟨log₁, file₁, r₁⟩ := x
    rcases h.append hfits write happ with ⟨e, rfl, hfail⟩ | ⟨sequence, rfl, ha⟩
    · cases hx
      cases hfail with
      | exhausted =>
        exact .failed rfl prefix_rfl (append_nil _).symm .nil fun _ => ⟨rfl, rfl⟩
      | torn hs torn =>
        obtain ⟨bs, hrec, hbs⟩ := (h.extends_torn hfits hs torn).written
        exact .failed rfl (prefix_append _ _) hrec (hops ▸ hbs) fun hp => by cases hp
    · have hop : opOf (encode ⟨.fence, sequence, 0, 0⟩ []) = some .fence :=
        ha.op ha.reads.appended_lt
      have hcodes : List.Forall₂ Codes [encode ⟨.fence, sequence, 0, 0⟩ []]
          ((flushOps log).take 1) := by
        rw [hops]
        exact .cons (.inl hop) .nil
      have hgrown : file <+: file₁ := ha.file_eq ▸ prefix_append _ _
      have hreads := ha.reads
      rw [if_pos rfl] at hreads
      dsimp only at hx
      split at hx
      · cases hx
        exact .failed ha.image hgrown ha.records_eq hcodes fun hp => by cases hp
      · cases hx
        have hlive : Live { log₁ with durable := log₁.appended } file' :=
          ⟨ha.healthy, ha.next, ha.length, hreads⟩
        exact .synced hne ha.image hgrown hlive rfl ha.records_eq hop
  · next heq =>
    cases hx
    exact .clean (not_not.1 heq) rfl rfl

end StagingLog

end Cas.Staging
