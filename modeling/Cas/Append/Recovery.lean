import Cas.Append.Log
import Cas.Direct

/-!
# Inspection of a staging directory (`append/recovery.rs`, `append/segment.rs`)

Recovery reads every segment file in number order and replays its records until the first one that
does not continue the log. Inspection changes no file. The log under inspection is a `Scan`: the
fields of `Log` that inspection writes.
-/

namespace Cas.Append

open Bytes

/-- A segment file with the space it occupies. -/
structure Candidate where
  number : Nat
  bytes : Bytes
  allocated : Nat

/-- A staging directory: its segment files and the numbers of the archived rejected ones. File names
are distinct. -/
structure Directory where
  files : List Candidate
  archived : List Nat
  distinct : (files.map Candidate.number).Nodup

namespace Directory

/-- `segment::candidates`: the files in number order. -/
def candidates (d : Directory) : List Candidate := d.files.mergeSort fun a b => a.number ≤ b.number

/-- The highest number in use, archived files included. -/
def highest (d : Directory) : Nat :=
  (d.files.map Candidate.number ++ d.archived).foldl max 0

end Directory

def otherError (message : String) : LogError := .io ⟨.other, message⟩

/-- `Error::Invalid` as the text of an IO error. -/
def FormatError.toIo : FormatError → IoError
  | .invalid message => ⟨.other, message⟩

/-- The fields of the log that inspection writes. -/
structure Scan where
  segments : List Segment
  index : Index
  offset : Nat
  nextBatch : Nat
  published : Nat
  cursor : Option ScanPosition
  encodedBytes : Nat
  allocatedBytes : Nat

variable [Digest]

/-- `Segment::open`. -/
def Segment.openFile (number : Nat) (file : Bytes) : Except IoError Segment := do
  let buffer ← readBytes file 0 BLOCK_SIZE
  let header ← (SegmentHeader.decode buffer).mapError FormatError.toIo
  if header.number ≠ number then .error ⟨.other, "segment filename/header mismatch"⟩
  else if header.capacity / BLOCK_SIZE ≥ 2 ^ 32 then
    .error ⟨.other, "staging pin table exceeds address bound"⟩
  else .ok ⟨header, file.length⟩

namespace Scan

/-- Read and verify the payload of a batch; a batch without payload has nothing to read. -/
def verifies (s : Scan) (file : Bytes) (h : Header) : Except LogError Bool :=
  if h.envelope.payloadBytes ≠ 0 then do
    let payload ← (readBytes file (s.offset + BLOCK_SIZE) h.envelope.payloadBytes).mapError LogError.io
    return (h.verifyPayload payload).isOk
  else .ok true

/-- `Log::publish` on the log under inspection. -/
def publish (s : Scan) (segment : Segment) (h : Header) : Except LogError Scan :=
  let entries := h.descriptors.map (located segment.header.number s.offset)
  match Log.publishEntries s.index entries with
  | none => .error .assertion
  | some index => .ok { s with index, published := h.envelope.last }

/-- The part of `replay_one` for a data batch that continues the log; `none` rejects it. -/
def replayData (s : Scan) (limits : Limits) (segment : Segment) (file : Bytes) (base : Nat)
    (h : Header) : Except LogError (Option Scan) :=
  let e := h.envelope
  if e.first ≤ base ∧ base < e.last then .error (otherError "manifest D splits a staging batch")
  else if e.last ≤ base then .ok (some { s with published := e.last })
  else if s.index.map.length + 2 * e.descriptors > limits.intervals then .error .capacity
  else do
    let verified ← s.verifies file h
    if verified = false then .ok none
    else do
      let s ← s.publish segment h
      return some s

/-- The end of `replay_one`: the record is behind the scan. -/
def advance (s : Scan) (segment : Segment) (base length : Nat) : Except LogError Scan :=
  match checkedAdd s.nextBatch 1 with
  | none => .error .exhausted
  | some nextBatch =>
    let s := { s with
      offset := s.offset + length
      encodedBytes := s.encodedBytes + length
      nextBatch }
    let here : ScanPosition := ⟨segment.header.number, s.offset, s.nextBatch, base⟩
    .ok { s with cursor := if s.published = base then some here else s.cursor }

/-- `replay_one`; `none` is `Ok(false)`. -/
def replayOne (s : Scan) (config : Config) (limits : Limits) (segment : Segment) (file : Bytes)
    (base : Nat) : Except LogError (Option Scan) :=
  if file.length - s.offset < BLOCK_SIZE then .ok none
  else do
    let buffer ← (readBytes file s.offset BLOCK_SIZE).mapError LogError.io
    match Header.decode buffer config.imageBytes with
    | .error _ => .ok none
    | .ok h =>
      if h.follows segment.header s.nextBatch s.published s.offset file.length = false then .ok none
      else do
        let replayed ← (if h.envelope.fence then .ok (some s)
          else s.replayData limits segment file base h)
        match replayed with
        | none => .ok none
        | some s => do
          let s ← s.advance segment base h.length
          .ok (some s)

/-- The record loop of one segment. The flag says that a record was rejected. Every turn moves the
offset, so the length of the file bounds the turns. -/
def replayAll (config : Config) (limits : Limits) (segment : Segment) (file : Bytes) (base : Nat) :
    Nat → Scan → Except LogError (Scan × Bool)
  | 0, s => .ok (s, false)
  | fuel + 1, s =>
    if s.offset < file.length then do
      match ← s.replayOne config limits segment file base with
      | none => .ok (s, true)
      | some s => replayAll config limits segment file base fuel s
    else .ok (s, false)

/-- A segment enters the log under inspection. -/
def enter (s : Scan) (segment : Segment) (allocated : Nat) : Scan :=
  { s with
    segments := s.segments ++ [segment]
    offset := BLOCK_SIZE
    nextBatch := 1
    encodedBytes := s.encodedBytes + BLOCK_SIZE
    allocatedBytes := s.allocatedBytes + allocated }

/-- The end of the last segment is where its replay stopped. -/
def leave (s : Scan) (segment : Segment) : Scan :=
  { s with segments := s.segments.dropLast ++ [{ segment with stop := s.offset }] }

/-- The segment loop of `inspect_in` from candidate `i` on. The result names the first rejected
candidate and the offset of its rejected part. -/
def inspectFrom (config : Config) (limits : Limits) (base : Nat) :
    List Candidate → Nat → Scan → Except LogError (Scan × Option (Nat × Nat))
  | [], _, s => .ok (s, none)
  | c :: cs, i, s =>
    match Segment.openFile c.number c.bytes with
    | .error e => if e.kind = .unexpectedEof then .ok (s, some (i, 0)) else .error (.io e)
    | .ok segment =>
      if config.matchesHeader segment.header = false ∨
          segment.header.precedingSequence ≠ s.published ∨
          (s.segments.getLast?.any fun previous => segment.header.epoch < previous.header.epoch) then
        .error (otherError "inconsistent staging segment chain")
      else do
        let (s, rejected) ← replayAll config limits segment c.bytes base c.bytes.length
          (s.enter segment c.allocated)
        let s := s.leave segment
        if rejected then .ok (s, some (i, s.offset))
        else inspectFrom config limits base cs (i + 1) s

end Scan

/-- A finished inspection. -/
structure Recovery where
  log : Log
  candidates : List Candidate
  rejected : Option (Nat × Nat)

/-- The log made of a finished scan; a scan without a segment has no log. -/
def Scan.log (s : Scan) (config : Config) (limits : Limits) (highest : Nat) : Option Log :=
  s.segments.getLast?.map fun current => {
    config, limits
    older := s.segments.dropLast
    current
    index := s.index
    offset := s.offset
    nextBatch := s.nextBatch
    highestSegment := highest
    base := none
    cursor := s.cursor
    published := s.published
    issued := s.published
    pendingDescriptors := 0
    cohort := none
    durable := 0
    encodedBytes := s.encodedBytes
    allocatedBytes := s.allocatedBytes
    rejectedBytes := 0
    failed := false
    fenced := false
    rotating := false }

/-- `Log::inspect_in`, for manifest prefix `base`. -/
def Log.inspectIn (d : Directory) (limits : Limits) (base : Nat) : Except LogError Recovery :=
  match d.candidates with
  | [] => .error (otherError "no valid image segment")
  | c :: cs => do
    let first ← (Segment.openFile c.number c.bytes).mapError LogError.io
    let h := first.header
    if h.precedingSequence > base then
      .error (otherError "missing staging prefix above manifest D")
    else
      let config : Config := ⟨h.store, h.image, h.imageBytes, h.capacity⟩
      if config.segmentBytes < MAX_BATCH_BYTES + 2 * BLOCK_SIZE then .error .capacity
      else do
        let (s, rejected) ← Scan.inspectFrom config limits base (c :: cs) 0 {
          segments := []
          index := ⟨[], limits.intervals⟩
          offset := BLOCK_SIZE
          nextBatch := 1
          published := h.precedingSequence
          cursor := none
          encodedBytes := 0
          allocatedBytes := 0 }
        if s.published < base then .error (.short s.published base)
        else match s.log config limits d.highest with
          | none => .error .assertion
          | some log => .ok ⟨log, c :: cs, rejected⟩

end Cas.Append
