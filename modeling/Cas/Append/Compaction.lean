import Cas.Append.Recovery
import Cas.Manifest.Format

/-!
# Selection of a compaction (`append/compaction.rs`, `append/compaction/output.rs`)

A compaction takes whole batches from the durable log, in order, until the next one does not fit. Its
scan starts at the first retained segment or at a saved position, decodes every batch it passes, and
copies the payload of those above D. Its preparation drops edits that a later one covers and hashes
the blocks of the others. Memory budgets and the pins of the scan are left out.
-/

namespace Cas.Append

open Bytes
open Manifest (View Extent Hash)

@[simp] abbrev MAX_CHANGES : Nat := 256 + 62

/-- `Selection`. The end of a span is the end of its segment at capture. -/
structure Selection where
  base : View
  cursor : Option ScanPosition
  through : Nat
  spans : List Segment

/-- `select_compaction`. -/
def Log.selectCompaction (l : Log) : Except LogError (Option Selection) := do
  l.healthy
  match l.base with
  | none => .error (otherError "compaction requires a manifest-backed log")
  | some base =>
    let durable := base.commit.durable
    if durable = l.durable then .ok none
    else if ¬ durable < l.durable then .error (invalidData "manifest D exceeds durable WAL")
    else .ok (some {
      base
      cursor := l.cursor.filter fun cursor => cursor.sequence = durable ∧
        l.segments.any fun segment =>
          segment.header.number = cursor.segment ∧ cursor.offset ≤ segment.stop
      through := l.durable
      spans := l.segments })

/-- A range of blocks, with the place of its bytes in the payload of the input; a ZERO has none. -/
structure Edit where
  start : Nat
  stop : Nat
  payload : Option Nat
  deriving DecidableEq, Repr

/-- `Input`: the batches above D that were taken. -/
structure Input where
  base : View
  cursor : Option ScanPosition
  through : Nat
  payload : Bytes
  payloadBytes : Nat
  edits : List Edit

/-- How many edits a descriptor makes. -/
def Descriptor.editCount (d : Descriptor) : Nat :=
  if d.kind = .write then d.payloadLength / BLOCK_SIZE else 1

/-- The edits of a descriptor whose batch has its payload at `payloadBytes` of the input. -/
def Descriptor.edits (d : Descriptor) (payloadBytes : Nat) : List Edit :=
  let start := d.offset / BLOCK_SIZE
  match d.kind with
  | .zero => [⟨start, start + d.length / BLOCK_SIZE, none⟩]
  | .write => (List.range (d.payloadLength / BLOCK_SIZE)).map fun block =>
      ⟨start + block, start + block + 1, some (payloadBytes + d.payloadOffset + block * BLOCK_SIZE)⟩

def Header.editCount (h : Header) : Nat := (h.descriptors.map Descriptor.editCount).sum

/-- The payload of the record at `offset`; an empty one is not read. -/
def Header.readPayload (h : Header) (file : Bytes) (offset : Nat) : Except IoError Bytes :=
  if h.envelope.payloadBytes = 0 then .ok []
  else readBytes file (offset + BLOCK_SIZE) h.envelope.payloadBytes

variable [Digest]

namespace Input

/-- The part of `Selection::load` for a data batch above D; `none` means that it does not fit. -/
def take (input : Input) (file : Bytes) (offset base through : Nat) (h : Header) :
    Except IoError (Option Input) := do
  let e := h.envelope
  require (e.first > base ∧ e.last ≤ through) "compaction cut splits a batch"
  if input.edits.length + h.editCount > MAX_CHANGES ∨
      input.payloadBytes + e.payloadBytes > MAX_REQUEST_BYTES then .ok none
  else do
    let data ← h.readPayload file offset
    (h.verifyPayload data).mapError FormatError.toIo
    return some { input with
      edits := input.edits ++ h.descriptors.flatMap fun d => d.edits input.payloadBytes
      payload := input.payload.put input.payloadBytes data
      payloadBytes := input.payloadBytes + e.payloadBytes
      through := e.last }

/-- The batches up to D and the fences are passed over. -/
def scan (input : Input) (file : Bytes) (offset base through : Nat) (h : Header) :
    Except IoError (Option Input) :=
  if h.envelope.fence = false ∧ h.envelope.last > base then input.take file offset base through h
  else .ok (some input)

end Input

/-- The variables of the scan. -/
structure Load where
  sequence : Nat
  input : Input

/-- How the record loop of a segment ends: at the end of the segment, or with the whole scan, which
then reached E or met a batch that does not fit. -/
inductive Flow
  | next
  | stop (bounded : Bool)
  deriving DecidableEq, Repr

/-- What one scan reads and respects. -/
structure Load.Bounds where
  imageBytes : Nat
  base : Nat
  through : Nat

namespace Load

/-- The record loop of one segment. Every turn moves the offset. -/
def records (b : Bounds) (segment : Segment) (file : Bytes) :
    (fuel offset batch : Nat) → Load → Except IoError (Load × Flow)
  | 0, _, _, l => .ok (l, .next)
  | fuel + 1, offset, batch, l =>
    if offset < segment.stop then
      if l.sequence = b.through then .ok (l, .stop false)
      else do
        let buffer ← readBytes file offset BLOCK_SIZE
        let h ← (Header.decode buffer b.imageBytes).mapError FormatError.toIo
        require (h.follows segment.header batch l.sequence offset segment.stop)
          "invalid durable compaction batch"
        let e := h.envelope
        match ← l.input.scan file offset b.base b.through h with
        | none => .ok (l, .stop true)
        | some input =>
          let sequence := if e.fence then l.sequence else e.last
          match checkedAdd batch 1 with
          | none => .error ⟨.other, "compaction batch overflow"⟩
          | some batch =>
            let cursor : ScanPosition := ⟨segment.header.number, offset + h.length, batch, sequence⟩
            records b segment file fuel (offset + h.length) batch
              ⟨sequence, { input with cursor := some cursor }⟩
    else .ok (l, .next)

/-- The segment loop. The flag says that a batch did not fit. -/
def segments (b : Bounds) (files : Nat → Bytes) (cursor : Option ScanPosition) :
    List Segment → Load → Except IoError (Load × Bool)
  | [], l => .ok (l, false)
  | span :: spans, l =>
    if cursor.any fun c => span.header.number < c.segment then segments b files cursor spans l
    else do
      let resume := cursor.filter fun c => span.header.number = c.segment
      require (resume.isSome ∨ span.header.precedingSequence = l.sequence) "compaction segment gap"
      let (l, flow) ← records b span (files span.header.number) span.stop
        (resume.elim BLOCK_SIZE ScanPosition.offset) (resume.elim 1 ScanPosition.batch) l
      match flow with
      | .next => segments b files cursor spans l
      | .stop bounded => .ok (l, bounded)

end Load

/-- `Selection::load`, over the files of the segments by their numbers. -/
def Selection.load (s : Selection) (files : Nat → Bytes) : Except IoError Input :=
  match s.spans with
  | [] => .error ⟨.other, "no compaction segments"⟩
  | first :: _ => do
    let base := s.base.commit.durable
    let sequence := s.cursor.elim first.header.precedingSequence ScanPosition.sequence
    require (sequence ≤ base) "compaction starts above D"
    let (l, bounded) ← Load.segments ⟨s.base.commit.imageBytes, base, s.through⟩ files s.cursor s.spans
      ⟨sequence, {
        base := s.base
        cursor := s.cursor
        through := base
        payload := zeros MAX_REQUEST_BYTES
        payloadBytes := 0
        edits := [] }⟩
    require (bounded ∨ l.sequence = s.through) "compaction scan ended below E"
    require (l.input.through > base) "durable compaction prefix is unavailable"
    return l.input

/-! ## Preparation -/

/-- `Chunk`: a nonzero block with its hash. -/
structure Chunk where
  bytes : Bytes
  hash : Hash

/-- `Chunk::new`. Zero content is a hole. -/
def Chunk.new (bytes : Bytes) : Option Chunk :=
  if isZero bytes then none else some ⟨bytes, Digest.blake3 bytes⟩

omit [Digest] in
/-- `ArrayVec::push`; `none` is its panic. -/
def pushWithin {α : Type} (capacity : Nat) (l : List α) (a : α) : Option (List α) :=
  if l.length < capacity then some (l ++ [a]) else none

/-- The loop of `Input::prepare` over the edits from one on, with the changes and the chunks so far.
`none` is a panic: a full array, or a block outside of the payload buffer. -/
def Input.prepareFrom (payload : Bytes) :
    List Edit → List Extent → List Chunk → Option (List Extent × List Chunk)
  | [], changes, chunks => some (changes, chunks)
  | edit :: later, changes, chunks =>
    if later.any fun l => l.start ≤ edit.start ∧ l.stop ≥ edit.stop then
      prepareFrom payload later changes chunks
    else do
      let chunk ← match edit.payload with
        | none => some none
        | some offset => if offset + BLOCK_SIZE ≤ payload.length then
            some (Chunk.new (payload.slice offset BLOCK_SIZE)) else none
      let changes ← pushWithin MAX_CHANGES changes ⟨edit.start, edit.stop, chunk.map Chunk.hash⟩
      let chunks ← match chunk with
        | none => some chunks
        | some chunk => pushWithin (MAX_REQUEST_BYTES / BLOCK_SIZE) chunks chunk
      prepareFrom payload later changes chunks

/-- `Input::prepare`, up to the manifest transaction that it builds from the changes. -/
def Input.prepare (i : Input) : Option (List Extent × List Chunk) :=
  Input.prepareFrom i.payload i.edits [] []

end Cas.Append
