import Cas.Encoding

/-!
# The v2 staging layout (`append/format.rs`)

Segment headers, batch headers with their descriptors, and the builder that packs them. Payload
never supplies framing: every decision of the reader comes from a checked 4 KiB header.
-/

namespace Cas.Append

open Bytes

@[simp] abbrev MAX_DESCRIPTORS : Nat := 63
@[simp] abbrev MAX_BATCH_BYTES : Nat := BLOCK_SIZE + MAX_REQUEST_BYTES
@[simp] abbrev ENVELOPE_BYTES : Nat := 64
@[simp] abbrev DESCRIPTOR_BYTES : Nat := 64

/-- `format::require`. -/
def requireFormat (condition : Prop) [Decidable condition] (message : String) :
    Except FormatError Unit :=
  Except.ensure condition (.invalid message)

def validRange (offset length imageBytes : Nat) : Bool :=
  length ≠ 0 ∧ offset % BLOCK_SIZE = 0 ∧ length % BLOCK_SIZE = 0 ∧
    (checkedAdd offset length).any fun stop => stop ≤ imageBytes

/-! ## Segment headers -/

structure SegmentHeader where
  store : FixedBytes 16
  image : FixedBytes 16
  epoch : Nat
  number : Nat
  capacity : Nat
  imageBytes : Nat
  precedingSequence : Nat
  deriving DecidableEq

namespace SegmentHeader

/-- `b"CASSEG02"`. -/
def magic : Bytes := [67, 65, 83, 83, 69, 71, 48, 50]

def validate (h : SegmentHeader) : Except FormatError Unit := do
  requireFormat (h.store ≠ .zero 16 ∧ h.image ≠ .zero 16) "empty identity"
  requireFormat (h.epoch ≠ 0 ∧ h.number ≠ 0) "empty epoch or segment number"
  requireFormat (h.capacity ≥ 3 * BLOCK_SIZE ∧ h.capacity % BLOCK_SIZE = 0) "segment capacity"
  requireFormat (h.imageBytes ≠ 0 ∧ h.imageBytes % BLOCK_SIZE = 0) "image capacity"

/-- The fields of the header block, before its checksum. -/
def fields (h : SegmentHeader) : Bytes :=
  let b := (zeros BLOCK_SIZE).put 0 magic
  let b := put32 b 8 2
  let b := put32 b 12 BLOCK_SIZE
  let b := b.put 16 h.store.1
  let b := b.put 32 h.image.1
  let b := put64 b 48 h.epoch
  let b := put64 b 56 h.number
  let b := put64 b 64 h.capacity
  let b := put64 b 72 h.imageBytes
  put64 b 80 h.precedingSequence

variable [Digest]

def encode (h : SegmentHeader) : Except FormatError Bytes := do
  h.validate
  return put32 h.fields 4092 (checksum h.fields 4092)

def decode (b : Bytes) : Except FormatError SegmentHeader := do
  requireFormat (b.length = BLOCK_SIZE) "segment header length"
  requireFormat (b.slice 0 8 = magic ∧ u32At b 8 = 2) "segment version"
  requireFormat (u32At b 12 = BLOCK_SIZE) "segment header size"
  requireFormat (isZero (b.slice 88 (4092 - 88))) "segment reserved bytes"
  requireFormat (u32At b 4092 = checksum b 4092) "segment checksum"
  let value : SegmentHeader := {
    store := .read 16 b 16
    image := .read 16 b 32
    epoch := u64At b 48
    number := u64At b 56
    capacity := u64At b 64
    imageBytes := u64At b 72
    precedingSequence := u64At b 80 }
  value.validate
  return value

end SegmentHeader

/-! ## Batch headers -/

structure RequestId where
  serial : Nat
  attachment : Nat
  queue : Nat
  head : Nat
  deriving DecidableEq, Repr

inductive Kind
  | write
  | zero
  deriving DecidableEq, Repr

/-- `self.kind as u16`. -/
def Kind.tag : Kind → Nat
  | .write => 1
  | .zero => 2

structure Descriptor where
  id : RequestId
  sequence : Nat
  offset : Nat
  length : Nat
  payloadOffset : Nat
  payloadLength : Nat
  payloadCrc : Nat
  kind : Kind
  deriving DecidableEq, Repr

namespace Descriptor

def encode (d : Descriptor) (b : Bytes) : Bytes :=
  let b := put64 b 0 d.id.serial
  let b := put64 b 8 d.sequence
  let b := put64 b 16 d.id.attachment
  let b := put64 b 24 d.offset
  let b := put64 b 32 d.length
  let b := put32 b 40 d.payloadOffset
  let b := put32 b 44 d.payloadLength
  let b := put32 b 48 d.payloadCrc
  let b := put16 b 52 d.kind.tag
  let b := put16 b 54 d.id.queue
  put16 b 56 d.id.head

/-- Called only on fixed-size descriptor slots after checking the kind tag. -/
def decode (b : Bytes) : Descriptor where
  id := {
    serial := u64At b 0
    attachment := u64At b 16
    queue := u16At b 54
    head := u16At b 56 }
  sequence := u64At b 8
  offset := u64At b 24
  length := u64At b 32
  payloadOffset := u32At b 40
  payloadLength := u32At b 44
  payloadCrc := u32At b 48
  kind := if u16At b 52 = 1 then .write else .zero

end Descriptor

structure Envelope where
  segment : Nat
  batch : Nat
  descriptors : Nat
  payloadBytes : Nat
  first : Nat
  last : Nat
  fence : Bool
  deriving DecidableEq, Repr

/-- `b"CASBAT02"`. -/
def Envelope.magic : Bytes := [67, 65, 83, 66, 65, 84, 48, 50]

/-- The envelope fields, before the header checksum. -/
def Envelope.fields (e : Envelope) (b : Bytes) : Bytes :=
  let b := b.put 0 Envelope.magic
  let b := put16 b 8 2
  let b := put16 b 10 (if e.fence then 2 else 1)
  let b := put16 b 12 e.descriptors
  let b := put64 b 16 e.segment
  let b := put64 b 24 e.batch
  let b := put32 b 32 (BLOCK_SIZE + e.payloadBytes)
  let b := put32 b 36 e.payloadBytes
  let b := put64 b 40 e.first
  put64 b 48 e.last

def Envelope.encode [Digest] (e : Envelope) (b : Bytes) : Bytes :=
  put32 (e.fields b) 56 (checksum (e.fields b) 56)

/-- Slot `i` of a batch header. -/
def descriptorSlot (b : Bytes) (i : Nat) : Bytes :=
  b.slice (ENVELOPE_BYTES + DESCRIPTOR_BYTES * i) DESCRIPTOR_BYTES

structure Header where
  envelope : Envelope
  bytes : Bytes
  deriving DecidableEq

namespace Header

def descriptors (h : Header) : List Descriptor :=
  (List.range h.envelope.descriptors).map fun i => Descriptor.decode (descriptorSlot h.bytes i)

/-- The descriptor loop of `Header::decode`: the slots from `index` on, the payload bytes already
claimed and the last request serial. Returns the end of the claimed payload. -/
def validateSlots (e : Envelope) (imageBytes : Nat) :
    List Bytes → (index payloadEnd previousSerial : Nat) → Except FormatError Nat
  | [], _, payloadEnd, _ => .ok payloadEnd
  | slot :: slots, index, payloadEnd, previousSerial => do
    requireFormat (u16At slot 52 = 1 ∨ u16At slot 52 = 2) "mutation kind"
    requireFormat (isZero (slot.drop 58)) "descriptor reserved bytes"
    let d := Descriptor.decode slot
    requireFormat (d.sequence = e.first + index) "mutation sequence"
    requireFormat (d.id.serial > previousSerial ∧ d.id.attachment ≠ 0) "request identity"
    requireFormat (validRange d.offset d.length imageBytes) "logical range"
    match d.kind with
    | .write =>
      requireFormat (d.length = d.payloadLength ∧ d.payloadOffset = payloadEnd)
        "WRITE payload range"
      requireFormat (payloadEnd + d.payloadLength ≤ e.payloadBytes) "payload exceeds batch"
      validateSlots e imageBytes slots (index + 1) (payloadEnd + d.payloadLength) d.id.serial
    | .zero =>
      requireFormat (d.payloadOffset = 0 ∧ d.payloadLength = 0 ∧ d.payloadCrc = 0) "ZERO payload"
      validateSlots e imageBytes slots (index + 1) payloadEnd d.id.serial

/-- The envelope fields as stored. -/
def readEnvelope (b : Bytes) : Envelope where
  segment := u64At b 16
  batch := u64At b 24
  descriptors := u16At b 12
  payloadBytes := u32At b 36
  first := u64At b 40
  last := u64At b 48
  fence := u16At b 10 = 2

/-- A fence carries nothing; a data batch names its dense mutation range. -/
def checkBounds (e : Envelope) : Except FormatError Unit :=
  if e.fence then
    requireFormat (e.descriptors = 0 ∧ e.payloadBytes = 0 ∧ e.first = e.last) "fence contents"
  else
    requireFormat (e.descriptors ≠ 0 ∧ e.first ≠ 0 ∧
      checkedAdd e.first (e.descriptors - 1) = some e.last) "mutation bounds"

def decode [Digest] (b : Bytes) (imageBytes : Nat) : Except FormatError Header := do
  requireFormat (b.length = BLOCK_SIZE) "batch header length"
  requireFormat (b.slice 0 8 = Envelope.magic ∧ u16At b 8 = 2) "batch version"
  requireFormat (u16At b 10 = 1 ∨ u16At b 10 = 2) "batch kind"
  requireFormat (u32At b 56 = checksum b 56) "batch checksum"
  let e := readEnvelope b
  requireFormat (e.segment ≠ 0 ∧ e.batch ≠ 0) "batch identity"
  requireFormat (e.descriptors ≤ MAX_DESCRIPTORS) "descriptor count"
  requireFormat (e.payloadBytes ≤ MAX_REQUEST_BYTES ∧ e.payloadBytes % BLOCK_SIZE = 0)
    "payload length"
  requireFormat (u32At b 32 = BLOCK_SIZE + e.payloadBytes) "batch length"
  requireFormat (u16At b 14 = 0 ∧ u32At b 60 = 0) "envelope reserved bytes"
  requireFormat (isZero (b.drop (ENVELOPE_BYTES + DESCRIPTOR_BYTES * e.descriptors)))
    "unused descriptor bytes"
  checkBounds e
  let payloadEnd ← validateSlots e imageBytes
    ((List.range e.descriptors).map (descriptorSlot b)) 0 0 0
  requireFormat (payloadEnd = e.payloadBytes) "payload coverage"
  return ⟨e, b⟩

/-- Bytes of the whole record. -/
def length (h : Header) : Nat := BLOCK_SIZE + h.envelope.payloadBytes

/-- The record continues segment `segment` at this batch number, mutation prefix and offset. -/
def follows (h : Header) (segment : SegmentHeader) (batch preceding offset stop : Nat) : Bool :=
  let e := h.envelope
  e.segment = segment.number ∧ e.batch = batch ∧
    (checkedAdd offset h.length).any (fun after =>
      after ≤ stop ∧ after ≤ segment.capacity ∧
        (e.fence ∨ (checkedAdd after BLOCK_SIZE).any fun fenced => fenced ≤ segment.capacity)) ∧
    (if e.fence then e.last = preceding else checkedAdd preceding 1 = some e.first)

def verifyPayload [Digest] (h : Header) (payload : Bytes) : Except FormatError Unit := do
  requireFormat (payload.length = h.envelope.payloadBytes) "short batch payload"
  requireFormat (∀ d ∈ h.descriptors, d.kind = .write →
    (Digest.crc32 (payload.slice d.payloadOffset d.payloadLength)).toNat = d.payloadCrc)
    "payload checksum"

end Header

/-! ## The builder -/

/-- The allocation is final before the first payload byte is gathered. -/
structure Builder where
  buffer : Bytes
  imageBytes : Nat
  descriptors : Nat
  payloadBytes : Nat
  lastSerial : Nat

structure Batch where
  buffer : Bytes
  envelope : Envelope

namespace Batch

def bytes (b : Batch) : Bytes := b.buffer.take (BLOCK_SIZE + b.envelope.payloadBytes)

def fence [Digest] (segment batch boundary : Nat) : Except FormatError Batch := do
  requireFormat (segment ≠ 0 ∧ batch ≠ 0) "fence identity"
  let envelope : Envelope := {
    segment, batch, descriptors := 0, payloadBytes := 0, first := boundary, last := boundary
    fence := true }
  return ⟨envelope.encode (zeros BLOCK_SIZE), envelope⟩

end Batch

namespace Builder

def new (imageBytes payloadCapacity : Nat) : Except FormatError Builder := do
  requireFormat (imageBytes ≠ 0 ∧ imageBytes % BLOCK_SIZE = 0) "image capacity"
  requireFormat (payloadCapacity ≤ MAX_REQUEST_BYTES ∧ payloadCapacity % BLOCK_SIZE = 0)
    "packing capacity"
  return {
    buffer := zeros (BLOCK_SIZE + payloadCapacity)
    imageBytes, descriptors := 0, payloadBytes := 0, lastSerial := 0 }

def allocationBytes (b : Builder) : Nat := b.buffer.length

def isEmpty (b : Builder) : Bool := b.descriptors = 0

/-- `Builder::admit`. -/
def admits (b : Builder) (id : RequestId) (offset length payload : Nat) :
    Except FormatError Unit := do
  requireFormat (b.descriptors < MAX_DESCRIPTORS) "full descriptor batch"
  requireFormat (id.serial > b.lastSerial ∧ id.attachment ≠ 0) "request identity"
  requireFormat (validRange offset length b.imageBytes) "logical range"
  requireFormat (payload ≤ b.allocationBytes - BLOCK_SIZE - b.payloadBytes) "full payload batch"

def push (b : Builder) (d : Descriptor) : Builder :=
  let start := ENVELOPE_BYTES + b.descriptors * DESCRIPTOR_BYTES
  { b with
    buffer := b.buffer.put start (d.encode (b.buffer.slice start DESCRIPTOR_BYTES))
    descriptors := b.descriptors + 1
    lastSerial := d.id.serial }

/-- The outcome of a gather: the bytes it stored in the destination, which stay there even when it
reports an error. -/
structure Gathered where
  bytes : Bytes
  failed : Bool

/-- `Builder::write`. A failed gather has already overwritten its destination. -/
def write [Digest] (b : Builder) (id : RequestId) (offset length : Nat) (gather : Gathered) :
    Builder × Except FormatError Unit :=
  match b.admits id offset length length with
  | .error e => (b, .error e)
  | .ok () =>
    let start := BLOCK_SIZE + b.payloadBytes
    let b := { b with buffer := b.buffer.put start (gather.bytes.take length) }
    if gather.failed then (b, .error (.invalid "gather"))
    else
      let b' := b.push {
        id, sequence := 0, offset, length
        payloadOffset := b.payloadBytes
        payloadLength := length
        payloadCrc := (Digest.crc32 (b.buffer.slice start length)).toNat
        kind := .write }
      ({ b' with payloadBytes := b.payloadBytes + length }, .ok ())

/-- `Builder::zero`. -/
def zero (b : Builder) (id : RequestId) (offset length : Nat) : Builder × Except FormatError Unit :=
  match b.admits id offset length 0 with
  | .error e => (b, .error e)
  | .ok () =>
    (b.push {
      id, sequence := 0, offset, length, payloadOffset := 0, payloadLength := 0, payloadCrc := 0
      kind := .zero }, .ok ())

/-- Store `first + index` in the sequence field of the slots below `n`. -/
def stampSequences (first : Nat) : Nat → Bytes → Bytes
  | 0, b => b
  | n + 1, b =>
    put64 (stampSequences first n b) (ENVELOPE_BYTES + n * DESCRIPTOR_BYTES + 8) (first + n)

/-- `Builder::seal`. The image sequencer assigns dense mutations and physical framing together. -/
def sealBatch [Digest] (b : Builder) (segment batch first : Nat) : Except FormatError Batch := do
  requireFormat (¬ b.isEmpty ∧ first ≠ 0 ∧ segment ≠ 0 ∧ batch ≠ 0) "empty batch identity"
  match checkedAdd first (b.descriptors - 1) with
  | none => .error (.invalid "sequence exhausted")
  | some last =>
    let buffer := stampSequences first b.descriptors b.buffer
    let envelope : Envelope := {
      segment, batch, descriptors := b.descriptors, payloadBytes := b.payloadBytes, first, last
      fence := false }
    return ⟨buffer.put 0 (envelope.encode (buffer.take BLOCK_SIZE)), envelope⟩

end Builder

end Cas.Append
