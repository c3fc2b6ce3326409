import Cas.Staging.Replay

/-!
# An open staging log

An open log has the state that a replay of its file would give, so that reads return what the records
leave behind and the next record has the next number.
-/

namespace Cas.Staging

open Bytes List

variable [Digest]

namespace StagingLog

/-- A log that is open on a file, and not poisoned. -/
structure Live (log : StagingLog) (file : Bytes) : Prop where
  healthy : log.poisoned = false
  next : log.nextOffset = position (slots file)
  length : file.length = log.nextOffset
  reads : log.Reads (records file)

variable {log log' : StagingLog} {file file' : Bytes}

/-! ## Reading -/

theorem Live.readBlock (h : log.Live file) (o : Nat) :
    log.readBlock file o = .ok (contents (records file) o) := by
  have hm := h.reads.maps o
  rw [StagingLog.readBlock]
  split
  · next hb =>
    rw [hb] at hm
    exact congrArg Except.ok hm.symm
  · next p hb =>
    rw [hb] at hm
    obtain ⟨i, b, r, rfl, hi, hd, hk, ho, hc⟩ := hm
    have hlt : i < slots file := length_records file ▸ (List.getElem?_eq_some_iff.1 hi).1
    rw [records_getElem? hlt] at hi
    cases hi
    rw [readSlot_eq hlt, Except.ok_bind, hd]
    dsimp only
    rw [if_neg (by simp [hk, ho]), hc]

/-- What a read returns of some contents. -/
def blocksAt (contents : Nat → Bytes) (offset length : Nat) : Bytes :=
  ((List.range (length / BLOCK_SIZE)).map fun i => contents (offset + i * BLOCK_SIZE)).flatten

variable {offset length : Nat}

theorem Live.read (h : log.Live file)
    (hrange : ValidRange log.imageBytes offset length) (hlen : length ≤ MAX_REQUEST_BYTES) :
    log.read file offset length = .ok (blocksAt (contents (records file)) offset length) := by
  have hadmits : log.admits offset length = .ok () := by
    rw [admits, StagingLog.healthy, h.healthy, validateRange_eq_ok.2 hrange]
    rfl
  rw [StagingLog.read, hadmits, Except.ok_bind, if_neg (not_lt.2 hlen),
    Except.mapM_ok fun i => h.readBlock (offset + i * BLOCK_SIZE)]
  rfl

/-! ## Appending -/

variable {b : Bytes}

omit [Digest] in
theorem slots_append (hl : file.length = position (slots file))
    (hb : b.length = RECORD_SIZE) : slots (file ++ b) = slots file + 1 := by
  have hlen : (file ++ b).length = position (slots file + 1) := by
    rw [length_append, hl, hb, position_succ]
  generalize slots file = k at hlen
  rw [slots, hlen]
  simp only [position, BLOCK_SIZE, RECORD_SIZE]
  omega

omit [Digest] in
theorem slot_append {i : Nat} (hi : i < slots file) : slot (file ++ b) i = slot file i := by
  rw [lt_slots, position_succ] at hi
  exact slice_append_left hi

omit [Digest] in
theorem records_append (hl : file.length = position (slots file))
    (hb : b.length = RECORD_SIZE) : records (file ++ b) = records file ++ [b] := by
  have hlast : slot (file ++ b) (slots file) = b := by
    rw [slot, slice_append_right (Nat.le_of_eq hl), hl, Nat.sub_self, ← hb, slice_zero_length]
  rw [records, slots_append hl hb, range_succ, map_append, map_singleton, hlast,
    records]
  congr 1
  exact map_congr_left fun i hi => slot_append (mem_range.1 hi)

omit [Digest] in
theorem ValidRange.lt {n : Nat} (h : ValidRange n offset length) :
    offset + length < U64 ∧ offset + length ≤ n := by
  obtain ⟨-, -, h⟩ := h
  rw [checkedAdd] at h
  split at h
  · next hlt => exact ⟨hlt, by simpa using h⟩
  · cases h

/-- The number of a record, which is the next one unless it is a fence. -/
def nextSequence (log : StagingLog) (kind : RecordKind) : Option Nat :=
  if kind = .fence then some log.appended else checkedAdd log.appended 1

/-- A record that is within the image, with the payload its kind calls for. -/
def Fits (imageBytes : Nat) (kind : RecordKind) (offset length : Nat) (payload : Bytes) : Prop :=
  match kind with
  | .write => ValidRange imageBytes offset length ∧ length = BLOCK_SIZE ∧ payload.length = BLOCK_SIZE
  | .zero => ValidRange imageBytes offset length ∧ 0 < length ∧ payload = []
  | .fence => offset = 0 ∧ length = 0 ∧ payload = []

/-- The record that an append writes. -/
structure Appended (log log' : StagingLog) (file file' : Bytes) (record : Record) (payload : Bytes) :
    Prop where
  healthy : log'.poisoned = false
  image : log'.imageBytes = log.imageBytes
  durable : log'.durable = log.durable
  next : log'.nextOffset = position (slots file')
  length : file'.length = log'.nextOffset
  file_eq : file' = file ++ encode record payload
  records_eq : records file' = records file ++ [encode record payload]
  decodes : decode (encode record payload) = some record
  fits : Fits log.imageBytes record.kind record.offset record.length payload
  numbered : log.nextSequence record.kind = some log'.appended
  sequence : record.sequence = log'.appended
  reads : Replays log'.imageBytes (records file') log'.appended
    (if record.kind = .fence then log'.appended else log'.durable) log'.blocks

/-- A failed append leaves the log as it was, or poisoned with a torn record at the end of its
file. -/
inductive Failed (log : StagingLog) (file : Bytes) (kind : RecordKind) (offset length : Nat)
    (payload : Bytes) : StagingLog → Bytes → Prop
  | exhausted : Failed log file kind offset length payload log file
  | torn {sequence : Nat} (lt : sequence < U64) (torn : Torn) :
    Failed log file kind offset length payload { log with poisoned := true }
      (file ++ torn.bytes (encode ⟨kind, sequence, offset, length⟩ payload))

variable {payload : Bytes}

omit [Digest] in
theorem Fits.writable {n : Nat} {record : Record} (hs : record.sequence < U64)
    (h : Fits n record.kind record.offset record.length payload) : record.Writable payload := by
  obtain ⟨kind, sequence, offset, length⟩ := record
  cases kind with
  | write =>
    obtain ⟨hr, hl, hp⟩ := h
    have := ValidRange.lt hr
    dsimp only at this
    exact ⟨hs, by dsimp only; omega, by dsimp only; omega, hl, hp⟩
  | zero =>
    obtain ⟨hr, hl, hp⟩ := h
    have := ValidRange.lt hr
    dsimp only at this
    exact ⟨hs, by dsimp only; omega, by dsimp only; omega, hl, hp⟩
  | fence =>
    obtain ⟨ho, hl, hp⟩ := h
    exact ⟨hs, by rw [ho]; decide, by rw [hl]; decide, ho, hl, hp⟩

variable {kind : RecordKind}

theorem Live.nextSequence_lt (h : log.Live file) {sequence : Nat}
    (hs : log.nextSequence kind = some sequence) : sequence < U64 := by
  rw [nextSequence] at hs
  split at hs
  · cases hs
    exact h.reads.appended_lt
  · exact (checkedAdd_eq_some.1 hs).2

theorem Live.appended (h : log.Live file)
    (hfits : Fits log.imageBytes kind offset length payload) {sequence stop : Nat}
    (hs : log.nextSequence kind = some sequence)
    (hstop : checkedAdd log.nextOffset RECORD_SIZE = some stop) :
    Appended log
      { log.apply ⟨kind, sequence, offset, length⟩ log.nextOffset with
        nextOffset := stop, appended := sequence }
      file (writeBytes file log.nextOffset (encode ⟨kind, sequence, offset, length⟩ payload))
      ⟨kind, sequence, offset, length⟩ payload := by
  let record : Record := ⟨kind, sequence, offset, length⟩
  have hlt : sequence < U64 := h.nextSequence_lt hs
  have hd : decode (encode record payload) = some record := decode_encode (Fits.writable hlt hfits)
  have hl : file.length = position (slots file) := h.length.trans h.next
  have hb : (encode record payload).length = RECORD_SIZE := length_encode ..
  have hfile : writeBytes file log.nextOffset (encode record payload) = file ++ encode record payload :=
    writeBytes_end h.length
  have hrecords := records_append hl hb
  have hstop' : stop = position (slots (file ++ encode record payload)) := by
    rw [slots_append hl hb, position_succ, ← h.next]
    exact (checkedAdd_eq_some.1 hstop).1.symm
  have hpos : log.nextOffset = position (records file).length := by rw [length_records, h.next]
  have hr := h.reads
  rw [hfile]
  have hlen : (file ++ encode record payload).length = stop := by
    rw [length_append, hb, h.length]
    exact (checkedAdd_eq_some.1 hstop).1
  cases kind with
  | write =>
    refine ⟨h.healthy, rfl, rfl, hstop', hlen, rfl, hrecords, hd, hfits, hs, rfl, ?_⟩
    rw [hrecords, hpos]
    exact Replays.write hr hd rfl hs hfits.1
  | zero =>
    refine ⟨h.healthy, rfl, rfl, hstop', hlen, rfl, hrecords, hd, hfits, hs, rfl, ?_⟩
    rw [hrecords]
    exact Replays.zero hr hd rfl hs hfits.1
  | fence =>
    refine ⟨h.healthy, rfl, rfl, hstop', hlen, rfl, hrecords, hd, hfits, hs, rfl, ?_⟩
    rw [hrecords]
    cases hs
    exact Replays.fence hr hd rfl rfl

theorem Live.append (h : log.Live file)
    (hfits : Fits log.imageBytes kind offset length payload) (write : Outcome)
    {r : Except Error Nat}
    (hx : log.append file kind offset length payload write = (log', file', r)) :
    (∃ e, r = .error e ∧ Failed log file kind offset length payload log' file') ∨
      ∃ sequence, r = .ok sequence ∧
        Appended log log' file file' ⟨kind, sequence, offset, length⟩ payload := by
  rw [StagingLog.append] at hx
  split at hx
  · cases hx
    exact .inl ⟨_, rfl, .exhausted⟩
  · next sequence hs =>
    split at hx
    · cases hx
      exact .inl ⟨_, rfl, .exhausted⟩
    · next stop hstop =>
      split at hx
      · cases hx
        have htake : file.take log.nextOffset = file := by rw [← h.length, take_length]
        rw [htake]
        exact .inl ⟨_, rfl, .torn (h.nextSequence_lt hs) _⟩
      · cases hx
        exact .inr ⟨sequence, rfl, h.appended hfits hs hstop⟩

end StagingLog

end Cas.Staging
