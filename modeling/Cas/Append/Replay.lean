import Cas.Append.Recovery
import Cas.Append.Room

/-!
# What inspection accepts

A record is accepted exactly when its bytes decode and continue the log where the scan stands; the
scan then moves by `Scan.after`, a function of the accepted record alone. Conversely a record the file
holds intact is accepted and a torn one is rejected: a record is intact when its header block is and,
above the manifest prefix, its payload is too.
-/

namespace Cas.Append

open Bytes
open Except (bind_eq_ok ok_bind)
open Interval (Ordered replay)

/-! ## Stored records -/

namespace Record

/-- The file holds the bytes of the record at its place. -/
def Stored (file : Bytes) (r : Record) : Prop :=
  r.stop ≤ file.length ∧ file.slice r.offset r.length = r.batch.bytes

/-- The record that the file holds at `offset`, under a decoded envelope. -/
def read (file : Bytes) (offset : Nat) (e : Envelope) : Record :=
  ⟨offset, ⟨file.slice offset (BLOCK_SIZE + e.payloadBytes), e⟩⟩

section

variable {file : Bytes} {r : Record}

theorem Stored.header_bytes (hs : r.Stored file) :
    file.slice r.offset BLOCK_SIZE = r.batch.bytes.slice 0 BLOCK_SIZE := by
  rw [← hs.2, slice_slice]
  · rfl
  · simp only [Record.length, Header.length]
    omega

theorem Stored.payload_bytes (hs : r.Stored file) :
    file.slice (r.offset + BLOCK_SIZE) r.envelope.payloadBytes = r.payload := by
  rw [Record.payload, ← hs.2, slice_slice]
  simp only [Record.length, Header.length, Record.header]
  omega

theorem bytes_read {offset : Nat} {e : Envelope} :
    (read file offset e).batch.bytes = file.slice offset (BLOCK_SIZE + e.payloadBytes) := by
  rw [read, Batch.bytes, take_eq_slice, slice_slice (by simp), add_zero]

theorem stored_read {offset : Nat} {e : Envelope}
    (h : offset + (BLOCK_SIZE + e.payloadBytes) ≤ file.length) : (read file offset e).Stored file :=
  ⟨h, bytes_read.symm⟩

theorem header_read {offset : Nat} {e : Envelope} :
    (read file offset e).header = ⟨e, file.slice offset BLOCK_SIZE⟩ := by
  rw [Record.header, bytes_read, slice_slice (by omega), add_zero]
  rfl

end

theorem entries_eq (number : Nat) (r : Record) :
    (r.mutations number).map Placed.entry = r.header.descriptors.map (located number r.offset) := by
  rw [Record.mutations, List.map_map]
  rfl

theorem verified_of_empty [Digest] {h : SegmentHeader} {p : Place} {r : Record}
    (ha : p.Accepts h r) (hz : r.envelope.payloadBytes = 0) : r.Verified := by
  rw [Verified, Header.verifyPayload, requireFormat_bind_eq_ok, requireFormat_eq_ok]
  refine ⟨?_, fun d hd hk => ?_⟩
  · rw [payload, hz]
    show _ = r.envelope.payloadBytes
    rw [hz]
    exact List.length_eq_zero_iff.2 (List.take_zero)
  · have hin := ha.inRecord d hd
    obtain ⟨h1, -, h3⟩ := hin.write hk
    have := (validRange_iff.1 hin.range).1
    omega

end Record

/-- The file holds the segment: its header block and its records. -/
structure SegmentTrace.StoredIn [Digest] (t : SegmentTrace) (c : Candidate) : Prop where
  number : c.number = t.header.number
  length : BLOCK_SIZE ≤ c.bytes.length
  header : SegmentHeader.decode (c.bytes.slice 0 BLOCK_SIZE) = .ok t.header
  records : ∀ r ∈ t.records, r.Stored c.bytes

/-! ## One record -/

namespace Scan

def place (s : Scan) : Place := ⟨s.offset, s.nextBatch, s.published⟩

/-- The scan after an accepted record of segment `number`. -/
def after (s : Scan) (number base : Nat) (r : Record) : Scan :=
  { s with
    index := if r.envelope.fence = true ∨ r.envelope.last ≤ base then s.index
      else ⟨replay s.index.map ((r.mutations number).map Placed.entry), s.index.limit⟩
    offset := s.offset + r.length
    nextBatch := s.nextBatch + 1
    published := r.envelope.last
    cursor := if r.envelope.last = base then
      some ⟨number, s.offset + r.length, s.nextBatch + 1, base⟩ else s.cursor
    encodedBytes := s.encodedBytes + r.length }

variable [Digest] {s s' : Scan} {config : Config} {limits : Limits} {segment : Segment}
  {file : Bytes} {base : Nat}

theorem verifies_eq_ok {h : Header} {v : Bool} (hv : s.verifies file h = .ok v) :
    v = true ↔ h.envelope.payloadBytes = 0 ∨
      h.verifyPayload (file.slice (s.offset + BLOCK_SIZE) h.envelope.payloadBytes) = .ok () := by
  unfold verifies at hv
  by_cases hz : h.envelope.payloadBytes = 0
  · rw [if_neg (by simpa using hz)] at hv
    simp [hz, ← Except.ok.inj hv]
  · rw [if_pos hz] at hv
    obtain ⟨payload, hp, hv⟩ := bind_eq_ok.1 hv
    obtain ⟨-, -, rfl⟩ := readBytes_eq_ok.1 (Except.mapError_eq_ok.1 hp)
    simp only [pure, Except.pure, Except.ok.injEq] at hv
    rw [← hv]
    cases h.verifyPayload (file.slice (s.offset + BLOCK_SIZE) h.envelope.payloadBytes) with
    | error e => simp [hz, Except.isOk, Except.toBool]
    | ok u => simp [Except.isOk, Except.toBool]

/-- What holds of a record the scan accepts. -/
structure Takes (s : Scan) (limits : Limits) (segment : Segment) (base : Nat) (r : Record) :
    Prop where
  accepts : s.place.Accepts segment.header r
  uncut : r.envelope.fence = false → r.envelope.last ≤ base ∨ base < r.envelope.first
  room : r.envelope.fence = false → base < r.envelope.last →
    s.index.map.length + 2 * r.envelope.descriptors ≤ limits.intervals
  verified : base < r.envelope.last → r.Verified

theorem Takes.entries_in {r : Record} (ht : s.Takes limits segment base r) (number : Nat) :
    ∀ e ∈ (r.mutations number).map Placed.entry, Entry.In segment.header.imageBytes e := by
  intro e he
  obtain ⟨m, hm, rfl⟩ := List.mem_map.1 he
  obtain ⟨d, hd, rfl⟩ := List.mem_map.1 hm
  obtain ⟨h1, -, -, -, h2⟩ := validRange_iff.1 (ht.accepts.inRecord d hd).range
  exact ⟨Nat.lt_add_of_pos_right (Nat.pos_of_ne_zero h1), h2⟩

theorem advance_eq_ok {length : Nat} : s.advance segment base length = .ok s' ↔
    s.nextBatch + 1 < U64 ∧ s' = { s with
      offset := s.offset + length
      encodedBytes := s.encodedBytes + length
      nextBatch := s.nextBatch + 1
      cursor := if s.published = base then
        some ⟨segment.header.number, s.offset + length, s.nextBatch + 1, base⟩ else s.cursor } := by
  unfold advance checkedAdd
  by_cases h : s.nextBatch + 1 < U64
  · simp [h, eq_comm]
  · simp [h]

/-- What a data batch past the framing checks does to the scan. -/
theorem replayData_some {h : Header} (hr : s.replayData limits segment file base h = .ok (some s')) :
    (h.envelope.last ≤ base ∧ s' = { s with published := h.envelope.last }) ∨
      (base < h.envelope.first ∧ base < h.envelope.last ∧
        s.index.map.length + 2 * h.envelope.descriptors ≤ limits.intervals ∧
        (h.envelope.payloadBytes = 0 ∨
          h.verifyPayload (file.slice (s.offset + BLOCK_SIZE) h.envelope.payloadBytes) = .ok ()) ∧
        ∃ index, Log.publishEntries s.index
            (h.descriptors.map (located segment.header.number s.offset)) = some index ∧
          s' = { s with index, published := h.envelope.last }) := by
  unfold replayData at hr
  simp only at hr
  split at hr
  · cases hr
  rename_i hcut
  split at hr
  · rename_i hle
    exact Or.inl ⟨hle, (Option.some.inj (Except.ok.inj hr)).symm⟩
  rename_i hlt
  split at hr
  · cases hr
  rename_i hroom
  obtain ⟨v, hv, hr⟩ := bind_eq_ok.1 hr
  cases v with
  | false => cases hr
  | true =>
    simp only [Bool.true_eq_false, if_false] at hr
    obtain ⟨s₁, hp, hr⟩ := bind_eq_ok.1 hr
    have hs : s₁ = s' := Option.some.inj (Except.ok.inj hr)
    subst hs
    unfold publish at hp
    simp only at hp
    split at hp
    · cases hp
    · rename_i index hindex
      exact Or.inr ⟨by omega, by omega, by omega, (verifies_eq_ok hv).1 rfl, index, hindex,
        (Except.ok.inj hp).symm⟩

/-- An accepted record is stored, continues the log, and moves the scan by itself alone. -/
theorem replayOne_some (himage : segment.header.imageBytes = config.imageBytes)
    (ho : Ordered 0 config.imageBytes s.index.map)
    (h : s.replayOne config limits segment file base = .ok (some s')) :
    ∃ r, s.Takes limits segment base r ∧ r.Stored file ∧
      s' = s.after segment.header.number base r ∧ s.offset % BLOCK_SIZE = 0 ∧
      s.nextBatch + 1 < U64 := by
  unfold replayOne at h
  split at h
  · cases h
  obtain ⟨buffer, hb, h⟩ := bind_eq_ok.1 h
  obtain ⟨haligned, hlen, rfl⟩ := readBytes_eq_ok.1 (Except.mapError_eq_ok.1 hb)
  split at h
  · cases h
  rename_i hd hdec
  split at h
  · cases h
  rename_i hf
  have hf : hd.follows segment.header s.nextBatch s.published s.offset file.length = true := by
    simpa using hf
  obtain ⟨replayed, hrep, h⟩ := bind_eq_ok.1 h
  cases replayed with
  | none => cases h
  | some s₁ =>
    simp only at h
    obtain ⟨s₂, hadv, h⟩ := bind_eq_ok.1 h
    have hs : s₂ = s' := Option.some.inj (Except.ok.inj h)
    subst hs
    obtain ⟨hbatch, hs₂⟩ := advance_eq_ok.1 hadv
    -- the record is what the file holds here
    have hfo := Header.follows_iff.1 hf
    have hhd : hd = ⟨hd.envelope, file.slice s.offset BLOCK_SIZE⟩ := by
      have := Header.bytes_of_decode hdec
      rw [← this]
    set r := Record.read file s.offset hd.envelope with hrdef
    have hhead : r.header = hd := by rw [hrdef, Record.header_read]; exact hhd.symm
    have hstop : s.offset + (BLOCK_SIZE + hd.envelope.payloadBytes) ≤ file.length :=
      hfo.2.2.1.2.1
    have hacc : s.place.Accepts segment.header r := by
      refine ⟨rfl, ?_, ?_, ?_⟩
      · rw [hrdef, Record.bytes_read, length_slice_of_le hstop]
        rfl
      · rw [hrdef, Record.bytes_read, slice_slice (by omega), add_zero, himage, ← hrdef, hhead]
        exact hdec
      · rw [hhead]
        obtain ⟨h1, h2, ⟨h3, -, h5, h6⟩, h7⟩ := hfo
        exact Header.follows_iff.2 ⟨h1, h2, ⟨h3, h5, h5, h6⟩, h7⟩
    have hsto : r.Stored file := Record.stored_read hstop
    have hpay : r.payload = file.slice (s.offset + BLOCK_SIZE) hd.envelope.payloadBytes :=
      hsto.payload_bytes.symm
    have hlenr : r.length = hd.length := by rw [Record.length, hhead]
    have hmk : ∀ index published, s₁ = { s with index := index, published := published } →
        published = r.envelope.last →
        (index = if r.envelope.fence = true ∨ r.envelope.last ≤ base then s.index
          else ⟨replay s.index.map ((r.mutations segment.header.number).map Placed.entry),
            s.index.limit⟩) → s₂ = s.after segment.header.number base r ∧
          s.offset % BLOCK_SIZE = 0 ∧ s.nextBatch + 1 < U64 := by
      intro index published h1 h2 h3
      subst h1 h2 h3
      refine ⟨?_, (of_decide_eq_true haligned).2.2, hbatch⟩
      rw [hs₂, ← hlenr]
      rfl
    by_cases hfence : hd.envelope.fence = true
    · rw [if_pos hfence] at hrep
      have hs₁ : s = s₁ := Option.some.inj (Except.ok.inj hrep)
      subst hs₁
      refine ⟨r, ⟨hacc, ?_, ?_, ?_⟩, hsto, ?_⟩
      · intro hn
        cases hn.symm.trans hfence
      · intro hn
        cases hn.symm.trans hfence
      · exact fun _ => Record.verified_of_empty hacc (hacc.valid.fence hfence).2.1
      · exact hmk s.index s.published rfl (hfo.2.2.2.1 hfence).symm
          (if_pos (Or.inl hfence)).symm
    · rw [if_neg hfence] at hrep
      rcases replayData_some hrep with ⟨hle, hs₁⟩ | ⟨hfirst, hlast, hroom, hver, index, hindex, hs₁⟩
      · subst hs₁
        refine ⟨r, ⟨hacc, fun _ => Or.inl hle, ?_, ?_⟩, hsto, ?_⟩
        · intro _ hlt
          exact absurd hlt (not_lt.2 hle)
        · intro hlt
          exact absurd hlt (not_lt.2 hle)
        · exact hmk s.index _ rfl rfl (if_pos (Or.inr hle)).symm
      · subst hs₁
        have htakes : s.Takes limits segment base r := by
          refine ⟨hacc, fun _ => Or.inr hfirst, fun _ _ => hroom, fun _ => ?_⟩
          rcases hver with hz | hv
          · exact Record.verified_of_empty hacc hz
          · rw [Record.Verified, hhead, hpay]
            exact hv
        refine ⟨r, htakes, hsto, ?_⟩
        have hent : hd.descriptors.map (located segment.header.number s.offset) =
            (r.mutations segment.header.number).map Placed.entry := by
          rw [Record.entries_eq, hhead]
          rfl
        rw [hent] at hindex
        have hin := htakes.entries_in segment.header.number
        rw [himage] at hin
        refine hmk index _ rfl rfl ?_
        have hneg : ¬ (r.envelope.fence = true ∨ r.envelope.last ≤ base) := by
          rintro (h | h)
          · exact hfence h
          · exact absurd hlast (not_lt.2 h)
        rw [if_neg hneg]
        exact Log.publishEntries_eq hin ho hindex

end Scan

/-! ## The converse: intact and torn records -/

namespace Record

/-- The file holds the record as far as a recovery above `base` reads it. -/
structure Intact (file : Bytes) (base : Nat) (r : Record) : Prop where
  stop_le : r.stop ≤ file.length
  header : file.slice r.offset BLOCK_SIZE = r.header.bytes
  payload : base < r.envelope.last →
    file.slice (r.offset + BLOCK_SIZE) r.envelope.payloadBytes = r.payload

/-- The record did not reach the file: the header block is missing or does not decode, or the
payload does not verify under an intact header. -/
def Torn [Digest] (file : Bytes) (imageBytes : Nat) (r : Record) : Prop :=
  file.length < r.offset + BLOCK_SIZE ∨
    (∃ e, Header.decode (file.slice r.offset BLOCK_SIZE) imageBytes = .error e) ∨
    file.slice r.offset BLOCK_SIZE = r.header.bytes ∧ ¬ (r.stop ≤ file.length ∧
      r.header.verifyPayload (file.slice (r.offset + BLOCK_SIZE) r.envelope.payloadBytes) = .ok ())

theorem Stored.intact {file : Bytes} {r : Record} (h : r.Stored file) (base : Nat) :
    r.Intact file base :=
  ⟨h.1, h.header_bytes, fun _ => h.payload_bytes⟩

end Record

namespace Scan

variable [Digest] {s : Scan} {config : Config} {limits : Limits} {segment : Segment}
  {file : Bytes} {base : Nat} {r : Record}

theorem readBytes_header (hoff : s.offset % BLOCK_SIZE = 0)
    (hlen : s.offset + BLOCK_SIZE ≤ file.length) :
    readBytes file s.offset BLOCK_SIZE = .ok (file.slice s.offset BLOCK_SIZE) :=
  readBytes_eq_ok.2 ⟨by simpa [aligned] using hoff, hlen, rfl⟩

/-- Reading the payload of a complete record decides its verification. -/
theorem verifies_eq {h : Header} (hz : h.envelope.payloadBytes ≠ 0)
    (hoff : s.offset % BLOCK_SIZE = 0) (hpay : h.envelope.payloadBytes % BLOCK_SIZE = 0)
    (hlen : s.offset + BLOCK_SIZE + h.envelope.payloadBytes ≤ file.length) :
    s.verifies file h = .ok (h.verifyPayload
      (file.slice (s.offset + BLOCK_SIZE) h.envelope.payloadBytes)).isOk := by
  have hread : readBytes file (s.offset + BLOCK_SIZE) h.envelope.payloadBytes =
      .ok (file.slice (s.offset + BLOCK_SIZE) h.envelope.payloadBytes) :=
    readBytes_eq_ok.2 ⟨by simp [aligned, hz, hpay, Nat.add_mod, hoff], hlen, rfl⟩
  rw [verifies, if_pos hz, hread]
  rfl

theorem advance_of_lt {length : Nat} (h : s.nextBatch + 1 < U64) :
    s.advance segment base length = .ok { s with
      offset := s.offset + length
      encodedBytes := s.encodedBytes + length
      nextBatch := s.nextBatch + 1
      cursor := if s.published = base then
        some ⟨segment.header.number, s.offset + length, s.nextBatch + 1, base⟩ else s.cursor } :=
  advance_eq_ok.2 ⟨h, rfl⟩

/-- A data batch that the scan can take is published, or skipped when the manifest has it. -/
theorem replayData_takes (ht : s.Takes limits segment base r) (hi : r.Intact file base)
    (hf : r.envelope.fence = false) (hoff : s.offset % BLOCK_SIZE = 0)
    (ho : Ordered 0 segment.header.imageBytes s.index.map)
    (hlimit : s.index.limit = limits.intervals) :
    s.replayData limits segment file base r.header = .ok (some { s with
      index := if r.envelope.last ≤ base then s.index
        else ⟨replay s.index.map ((r.mutations segment.header.number).map Placed.entry),
          s.index.limit⟩
      published := r.envelope.last }) := by
  have hroff : r.offset = s.offset := ht.accepts.offset
  have hstop : s.offset + (BLOCK_SIZE + r.envelope.payloadBytes) ≤ file.length := by
    have := hi.stop_le
    rwa [Record.stop, hroff] at this
  unfold replayData
  show (if r.envelope.first ≤ base ∧ base < r.envelope.last then _
    else if r.envelope.last ≤ base then _ else _) = _
  rw [if_neg (by have := ht.uncut hf; omega)]
  by_cases hle : r.envelope.last ≤ base
  · rw [if_pos hle, if_pos hle]
    rfl
  · have hlt : base < r.envelope.last := Nat.lt_of_not_le hle
    have hroom := ht.room hf hlt
    have hver : s.verifies file r.header = .ok true := by
      by_cases hz : r.envelope.payloadBytes = 0
      · exact if_neg (not_not.2 hz)
      · rw [verifies_eq (h := r.header) hz hoff ht.accepts.valid.payload_aligned
          (by rw [add_assoc]; exact hstop)]
        have hpay := hi.payload hlt
        rw [hroff] at hpay
        have hv := ht.verified hlt
        rw [Record.Verified, ← hpay] at hv
        show Except.ok (Except.isOk (r.header.verifyPayload
          (file.slice (s.offset + BLOCK_SIZE) r.envelope.payloadBytes))) = _
        rw [hv]
        rfl
    have hpub : s.publish segment r.header = .ok { s with
        index := ⟨replay s.index.map ((r.mutations segment.header.number).map Placed.entry),
          s.index.limit⟩
        published := r.envelope.last } := by
      have hent : r.header.descriptors.map (located segment.header.number s.offset) =
          (r.mutations segment.header.number).map Placed.entry := by
        rw [Record.entries_eq, hroff]
      have hds : (r.mutations segment.header.number).length = r.envelope.descriptors := by
        simp [Record.mutations, Record.descriptors, Header.descriptors, Record.header]
      unfold publish
      simp only
      rw [hent, Log.publishEntries_of_room (ht.entries_in _) ho
        (by rw [List.length_map, hds, hlimit]; exact hroom)]
      rfl
    rw [if_neg hle, if_neg hle]
    show (if s.index.map.length + 2 * r.envelope.descriptors > limits.intervals then _ else _) = _
    rw [if_neg (not_lt.2 hroom), hver]
    simp only [ok_bind, Bool.true_eq_false, if_false, hpub]
    rfl

theorem replayOne_intact (ht : s.Takes limits segment base r) (hi : r.Intact file base)
    (himage : segment.header.imageBytes = config.imageBytes)
    (ho : Ordered 0 config.imageBytes s.index.map) (hlimit : s.index.limit = limits.intervals)
    (hoff : s.offset % BLOCK_SIZE = 0) (hbatch : s.nextBatch + 1 < U64) :
    s.replayOne config limits segment file base =
      .ok (some (s.after segment.header.number base r)) := by
  have hroff : r.offset = s.offset := ht.accepts.offset
  have hstop : s.offset + (BLOCK_SIZE + r.envelope.payloadBytes) ≤ file.length := by
    have := hi.stop_le
    rwa [Record.stop, hroff] at this
  have hdec : Header.decode (file.slice s.offset BLOCK_SIZE) config.imageBytes = .ok r.header := by
    rw [← hroff, hi.header, ← himage]
    exact ht.accepts.decodes
  have hfollows : r.header.follows segment.header s.nextBatch s.published s.offset file.length =
      true := ht.accepts.follows_of_le hi.stop_le
  unfold replayOne
  rw [if_neg (by omega), readBytes_header hoff (by omega)]
  simp only [Except.mapError, ok_bind, hdec, hfollows, Bool.true_eq_false, if_false]
  by_cases hf : r.envelope.fence = true
  · have hlast : r.envelope.last = s.published :=
      (Header.follows_iff.1 ht.accepts.follows).2.2.2.1 hf
    rw [if_pos (show r.header.envelope.fence = true from hf)]
    simp only [ok_bind]
    rw [advance_of_lt hbatch, ok_bind]
    simp only [after, hf, true_or, if_true, hlast]
    rfl
  · have hf' : r.envelope.fence = false := by simpa using hf
    rw [if_neg (show ¬ r.header.envelope.fence = true from hf),
      replayData_takes ht hi hf' hoff (by rw [himage]; exact ho) hlimit]
    simp only [ok_bind]
    rw [advance_of_lt, ok_bind]
    · simp only [after, hf', Bool.false_eq_true, false_or]
      rfl
    · exact hbatch

/-- The scan rejects a torn record above the manifest prefix. -/
theorem replayOne_torn (ht : s.Takes limits segment base r)
    (htorn : r.Torn file config.imageBytes) (himage : segment.header.imageBytes = config.imageBytes)
    (hoff : s.offset % BLOCK_SIZE = 0)
    (hlast : r.envelope.fence = false → base < r.envelope.last) :
    s.replayOne config limits segment file base = .ok none := by
  have hroff : r.offset = s.offset := ht.accepts.offset
  unfold replayOne
  split
  · rfl
  rename_i hlen
  have hread : s.offset + BLOCK_SIZE ≤ file.length := by
    simp only [BLOCK_SIZE] at hlen ⊢
    omega
  rw [readBytes_header hoff hread]
  simp only [Except.mapError, ok_bind]
  rw [Record.Torn, hroff] at htorn
  rcases htorn with h | ⟨e, he⟩ | ⟨hbytes, hnot⟩
  · omega
  · rw [he]
  · have hdec : Header.decode (file.slice s.offset BLOCK_SIZE) config.imageBytes =
        .ok r.header := by
      rw [hbytes, ← himage]
      exact ht.accepts.decodes
    rw [hdec]
    simp only
    by_cases hstop : s.offset + (BLOCK_SIZE + r.envelope.payloadBytes) ≤ file.length
    · have hfollows : r.header.follows segment.header s.nextBatch s.published s.offset
          file.length = true :=
        ht.accepts.follows_of_le (by rw [Record.stop, hroff]; exact hstop)
      have hver : r.header.verifyPayload
          (file.slice (s.offset + BLOCK_SIZE) r.envelope.payloadBytes) ≠ .ok () := by
        intro hv
        exact hnot ⟨by rw [Record.stop, hroff]; exact hstop, hv⟩
      -- a batch without payload would verify
      have hz : r.envelope.payloadBytes ≠ 0 := by
        intro hz
        have hempty := Record.verified_of_empty ht.accepts hz
        rw [Record.Verified, Record.payload, hz] at hempty
        refine hver ?_
        rw [hz]
        simpa [Bytes.slice] using hempty
      have hf : r.envelope.fence = false := by
        cases hf : r.envelope.fence with
        | false => rfl
        | true => exact absurd (ht.accepts.valid.fence hf).2.1 hz
      have hlt := hlast hf
      rw [hfollows]
      simp only [Bool.true_eq_false, if_false]
      rw [if_neg (show ¬ r.header.envelope.fence = true by rw [Bool.not_eq_true]; exact hf)]
      have hdata : s.replayData limits segment file base r.header = .ok none := by
        unfold replayData
        show (if r.envelope.first ≤ base ∧ base < r.envelope.last then _
          else if r.envelope.last ≤ base then _
          else if s.index.map.length + 2 * r.envelope.descriptors > limits.intervals then _
          else _) = _
        rw [if_neg (by have := ht.uncut hf; omega), if_neg (not_le.2 hlt),
          if_neg (not_lt.2 (ht.room hf hlt)), verifies_eq (h := r.header) hz hoff
            ht.accepts.valid.payload_aligned (by rw [add_assoc]; exact hstop)]
        have hno : (r.header.verifyPayload (file.slice (s.offset + BLOCK_SIZE)
            r.header.envelope.payloadBytes)).isOk = false := by
          cases hv : r.header.verifyPayload (file.slice (s.offset + BLOCK_SIZE)
              r.header.envelope.payloadBytes) with
          | error e => rfl
          | ok u => exact absurd hv hver
        rw [hno]
        rfl
      rw [hdata]
      rfl
    · have hnf : r.header.follows segment.header s.nextBatch s.published s.offset file.length =
          false := by
        rw [← Bool.not_eq_true, Header.follows_iff]
        intro h
        exact hstop h.2.2.1.2.1
      rw [hnf]
      rfl

end Scan

end Cas.Append
