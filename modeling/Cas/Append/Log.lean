import Cas.Append.Index
import Cas.Manifest.Format

/-!
# The staging log (`append.rs`, `append/submission.rs`, `append/rotation.rs`)

Physical reservations and ordered publication. The log is sequenced: every operation takes the log
and returns the changed log or an error, and an error leaves the log as it was unless it says
otherwise. A log owns its current segment apart from the older ones, so it is never without one.
Memory budgets are not modelled: an allocation succeeds.
-/

namespace Cas.Append

open Manifest (Commit View)

@[simp] abbrev MAX_SEGMENT : Nat := 2 ^ 48 - 1

/-- `append::Error`. A failed assertion of the source is listed as an error of its own. -/
inductive LogError
  | io (error : IoError)
  | format (error : FormatError)
  | failed
  | exhausted
  | capacity
  | pending
  | rollover
  | short (recovered required : Nat)
  | assertion
  deriving DecidableEq, Repr

structure Limits where
  stagingBytes : Nat
  intervals : Nat
  deriving DecidableEq, Repr

structure Config where
  store : FixedBytes 16
  image : FixedBytes 16
  imageBytes : Nat
  segmentBytes : Nat
  deriving DecidableEq

namespace Config

def header (c : Config) (epoch number precedingSequence : Nat) : SegmentHeader where
  store := c.store
  image := c.image
  epoch := epoch
  number := number
  capacity := c.segmentBytes
  imageBytes := c.imageBytes
  precedingSequence := precedingSequence

def validate (c : Config) (limits : Limits) : Except LogError Unit := do
  (c.header 1 1 0).validate.mapError .format
  if c.segmentBytes < MAX_BATCH_BYTES + 2 * BLOCK_SIZE ∨ c.segmentBytes > limits.stagingBytes ∨
      limits.intervals < 2 * MAX_DESCRIPTORS then .error .capacity
  else .ok ()

def matchesHeader (c : Config) (h : SegmentHeader) : Bool :=
  c.store = h.store ∧ c.image = h.image ∧ c.imageBytes = h.imageBytes ∧ c.segmentBytes = h.capacity

theorem imageBytes_of_matches {c : Config} {h : SegmentHeader} (hm : c.matchesHeader h = true) :
    c.imageBytes = h.imageBytes := by
  simp only [matchesHeader, decide_eq_true_eq] at hm
  exact hm.2.2.1

end Config

/-- `segment::Segment`, as the log sees it: the header and the end of the reserved records. -/
structure Segment where
  header : SegmentHeader
  stop : Nat
  deriving DecidableEq

structure ScanPosition where
  segment : Nat
  offset : Nat
  batch : Nat
  sequence : Nat
  deriving DecidableEq, Repr

/-- `submission::Submission`. -/
structure Submission where
  batch : Batch
  segment : Nat
  offset : Nat

structure Cohort where
  segment : Nat
  batch : Nat
  boundary : Nat
  deriving DecidableEq, Repr

def Submission.cohort (s : Submission) : Cohort where
  segment := s.batch.envelope.segment
  batch := s.batch.envelope.batch
  boundary := s.batch.envelope.last

structure Position where
  segment : Nat
  capacity : Nat
  stop : Nat
  issued : Nat
  fenced : Nat
  initialFence : Bool
  deriving DecidableEq, Repr

structure Log where
  config : Config
  limits : Limits
  older : List Segment
  current : Segment
  index : Index
  offset : Nat
  nextBatch : Nat
  highestSegment : Nat
  base : Option View
  cursor : Option ScanPosition
  published : Nat
  issued : Nat
  pendingDescriptors : Nat
  cohort : Option Cohort
  durable : Nat
  encodedBytes : Nat
  allocatedBytes : Nat
  rejectedBytes : Nat
  failed : Bool
  fenced : Bool
  rotating : Bool

/-- The index entry of a descriptor whose record is at `offset` of a segment. The block number of the
record fits `u32` because the pin table of the segment was allocated. -/
def located (segment offset : Nat) (d : Descriptor) : Entry :=
  (d.offset, {
    stop := d.offset + d.length
    sequence := d.sequence
    source := if d.kind = .write then some ({
        segment
        offset := offset + BLOCK_SIZE + d.payloadOffset
        bytes := d.payloadLength
        sequence := d.sequence
        crc := d.payloadCrc
        batchBlock := offset / BLOCK_SIZE }, 0) else none })

namespace Log

def segments (l : Log) : List Segment := l.older ++ [l.current]

/-- D, the durable prefix of the manifest. -/
def compacted (l : Log) : Nat := l.base.elim 0 fun v => v.commit.durable

def healthy (l : Log) : Except LogError Unit := if l.failed then .error .failed else .ok ()

def position (l : Log) : Position where
  segment := l.current.header.number
  capacity := l.config.segmentBytes
  stop := l.offset
  issued := l.issued
  fenced := l.cohort.elim l.durable Cohort.boundary
  initialFence := ¬ l.fenced ∧ l.cohort = none

def coversFlush (l : Log) (boundary : Nat) : Bool := l.fenced ∧ l.durable ≥ boundary

def appendCapacity (l : Log) : Nat :=
  (l.limits.intervals - l.index.map.length) / 2 - l.pendingDescriptors

/-! ## Submissions -/

def checkAppend (l : Log) (b : Builder) : Except LogError Unit := do
  l.healthy
  if l.cohort.isSome ∨ l.rotating then .error .pending
  else if b.isEmpty ∨ b.imageBytes ≠ l.config.imageBytes then
    .error (.format (.invalid "empty append or builder image mismatch"))
  else if b.descriptors > l.appendCapacity then .error .capacity
  else if checkedAdd l.issued b.descriptors = none ∨ checkedAdd l.nextBatch 1 = none then
    .error .exhausted
  else if l.offset + (BLOCK_SIZE + b.payloadBytes) + BLOCK_SIZE > l.config.segmentBytes then
    .error .rollover
  else .ok ()

/-- Take the next physical range for a record. -/
def reserve (l : Log) (batch : Batch) : Submission × Log :=
  let offset := l.offset + batch.bytes.length
  (⟨batch, l.current.header.number, l.offset⟩,
    { l with
      offset
      current := { l.current with stop := offset }
      encodedBytes := l.encodedBytes + batch.bytes.length
      nextBatch := l.nextBatch + 1 })

/-- Submissions are compared by the segment they belong to. -/
def owns (l : Log) (s : Submission) : Except LogError Unit :=
  if s.segment = l.current.header.number then .ok ()
  else .error (.format (.invalid "submission belongs to another writer or segment"))

/-- The index after each entry replaced its range; `none` is a failed assertion. -/
def publishEntries (i : Index) (entries : List Entry) : Option Index :=
  entries.foldlM (fun i e => i.replace e.1 e.2) i

def publish (l : Log) (h : Header) (segment offset : Nat) : Except LogError Log :=
  match publishEntries l.index (h.descriptors.map (located segment offset)) with
  | none => .error .assertion
  | some index => .ok { l with index, published := h.envelope.last }

variable [Digest]

def prepareAppend (l : Log) (b : Builder) : Except LogError (Submission × Log) := do
  l.checkAppend b
  let batch ← (b.sealBatch l.current.header.number l.nextBatch (l.issued + 1)).mapError .format
  let (s, l) := l.reserve batch
  return (s, { l with
    issued := s.batch.envelope.last
    pendingDescriptors := l.pendingDescriptors + b.descriptors })

def publishAppend (l : Log) (s : Submission) : Except LogError Log := do
  l.healthy
  l.owns s
  let h ← (Header.decode (s.batch.bytes.slice 0 BLOCK_SIZE) l.config.imageBytes).mapError .format
  if h.envelope.fence ∨ h.envelope.first ≤ l.published then
    .error (.format (.invalid "not an unpublished append"))
  else if checkedAdd l.published 1 ≠ some h.envelope.first then .error .pending
  else do
    let l ← l.publish h s.segment s.offset
    return { l with pendingDescriptors := l.pendingDescriptors - h.envelope.descriptors }

def prepareFence (l : Log) : Except LogError (Submission × Log) := do
  l.healthy
  if l.cohort.isSome ∨ l.rotating then .error .pending
  else if l.offset + BLOCK_SIZE > l.config.segmentBytes then .error .rollover
  else if checkedAdd l.nextBatch 1 = none then .error .exhausted
  else do
    let batch ← (Batch.fence l.current.header.number l.nextBatch l.issued).mapError .format
    let (s, l) := l.reserve batch
    return (s, { l with cohort := some s.cohort })

omit [Digest] in
def readyToSync (l : Log) (s : Submission) : Except LogError Bool := do
  l.healthy
  l.owns s
  if s.batch.envelope.fence = false ∨ l.cohort ≠ some s.cohort then
    .error (.format (.invalid "fence does not identify the active cohort"))
  else .ok (l.pendingDescriptors = 0 ∧ l.published = s.batch.envelope.last)

omit [Digest] in
def completeSync (l : Log) (s : Submission) : Except LogError Log := do
  if ← l.readyToSync s then
    return { l with durable := s.batch.envelope.last, fenced := true, cohort := none }
  else .error .pending

/-! ## Rotation -/

omit [Digest] in
def drained (l : Log) : Except LogError Unit := do
  l.healthy
  if l.rotating ∨ l.cohort.isSome ∨ l.pendingDescriptors ≠ 0 ∨ l.issued ≠ l.published ∨
      l.durable ≠ l.published then .error .pending
  else .ok ()

end Log

/-- `rotation::Boundary`. -/
structure Boundary where
  segment : Nat
  offset : Nat
  nextBatch : Nat
  issued : Nat
  published : Nat
  durable : Nat
  deriving DecidableEq, Repr

/-- A prepared rotation. `epoch = none` asks for a fresh epoch. -/
structure Rotation where
  boundary : Boundary
  config : Config
  highest : Nat
  epoch : Option Nat

/-- The receipt of a created segment. -/
structure Rotated where
  boundary : Boundary
  segment : Segment
  allocated : Nat

inductive RotationKind
  | rollover
  | freshAttachment
  deriving DecidableEq, Repr

/-- The epoch a rotation of this kind asks for. -/
def RotationKind.epoch (kind : RotationKind) (current : Nat) : Option Nat :=
  match kind with
  | .rollover => some current
  | .freshAttachment => none

namespace Log

def boundary (l : Log) : Boundary where
  segment := l.current.header.number
  offset := l.offset
  nextBatch := l.nextBatch
  issued := l.issued
  published := l.published
  durable := l.durable

def rotation (l : Log) (epoch : Option Nat) : Except LogError (Rotation × Log) := do
  l.healthy
  if l.rotating ∨ l.cohort.isSome ∨ l.issued ≠ l.published then .error .pending
  else if ((checkedAdd l.allocatedBytes l.config.segmentBytes).all fun bytes =>
      bytes > l.limits.stagingBytes) then .error .capacity
  else if checkedAdd l.encodedBytes BLOCK_SIZE = none then .error .exhausted
  else if l.config.segmentBytes / BLOCK_SIZE ≥ 2 ^ 32 then
    .error (.io ⟨.other, "staging pin table exceeds address bound"⟩)
  else .ok (⟨l.boundary, l.config, l.highestSegment, epoch⟩, { l with rotating := true })

def prepareRotation (l : Log) (kind : RotationKind) : Except LogError (Rotation × Log) := do
  l.drained
  l.rotation (kind.epoch l.current.header.epoch)

def boundaryMatches (l : Log) (b : Boundary) : Except LogError Unit :=
  if l.rotating ∧ b = l.boundary then .ok ()
  else .error (.io ⟨.invalidData, "rotation no longer owns its sequenced boundary"⟩)

def cancelRotation (l : Log) (r : Rotation) : Except LogError Log := do
  l.healthy
  l.boundaryMatches r.boundary
  return { l with rotating := false }

/-- `install_rotation`. A segment past the staging limit also fails the log. -/
def installRotation (l : Log) (r : Rotated) : Log × Except LogError Unit :=
  match (do l.healthy; l.boundaryMatches r.boundary : Except LogError Unit) with
  | .error e => (l, .error e)
  | .ok () =>
    match (checkedAdd l.allocatedBytes r.allocated).filter fun bytes => bytes ≤ l.limits.stagingBytes with
    | none => ({ l with failed := true }, .error .capacity)
    | some allocated =>
      ({ l with
        highestSegment := r.segment.header.number
        allocatedBytes := allocated
        older := l.older ++ [l.current]
        current := r.segment
        offset := BLOCK_SIZE
        nextBatch := 1
        fenced := false
        rotating := false
        encodedBytes := l.encodedBytes + BLOCK_SIZE }, .ok ())

end Log

/-! ## Receipts of background work -/

/-- `compaction::Compacted`: verified chunks and a synced manifest. -/
structure Compacted where
  previous : View
  cursor : ScanPosition
  view : View

/-- `reclaim::Change`: what reclamation did to one segment. -/
structure Change where
  number : Nat
  before : Nat
  after : Nat
  removed : Bool
  deriving DecidableEq, Repr

structure Reclaimed where
  base : View
  changes : List Change

def invalidData (message : String) : LogError := .io ⟨.invalidData, message⟩

namespace Log

/-- `publish_compaction`. `View::same` compares the commit, the end and the one manifest file. -/
def publishCompaction (l : Log) (c : Compacted) : Except LogError Log := do
  l.healthy
  match l.base with
  | none => .error (.io ⟨.other, "missing compaction base"⟩)
  | some base =>
    let durable := c.view.commit.durable
    if ¬ (base = c.previous ∧ durable > base.commit.durable ∧ durable ≤ l.durable) then
      .error (invalidData "stale or non-durable compaction receipt")
    else if c.cursor.sequence ≠ durable then
      .error (invalidData "compaction cursor differs from D")
    else .ok { l with
      index := l.index.retainAfter durable
      cursor := some c.cursor
      base := some c.view }

/-- One turn of `apply_reclamation`. -/
def applyChange (l : Log) (c : Change) : Log × Except LogError Unit :=
  if c.removed ∧ c.number = l.current.header.number then
    (l, .error (invalidData "cannot remove current staging segment"))
  else
    let l := if c.removed then
      { l with older := l.older.filter fun s => s.header.number ≠ c.number } else l
    if l.allocatedBytes < c.before ∨ checkedAdd (l.allocatedBytes - c.before) c.after = none then
      (l, .error (.io ⟨.other, "staging allocation accounting diverged"⟩))
    else ({ l with allocatedBytes := l.allocatedBytes - c.before + c.after }, .ok ())

/-- The changes are applied in order; an error keeps those before it. -/
def applyChanges (l : Log) : List Change → Log × Except LogError Unit
  | [] => (l, .ok ())
  | c :: cs =>
    match l.applyChange c with
    | (l, .ok ()) => l.applyChanges cs
    | (l, .error e) => (l, .error e)

def applyReclamation (l : Log) (r : Reclaimed) : Log × Except LogError Unit :=
  if l.failed then (l, .error .failed)
  else if l.base ≠ some r.base then (l, .error (invalidData "reclamation base changed"))
  else l.applyChanges r.changes

end Log

namespace Rotation

/-- The header of the segment created under `number`. -/
def header (r : Rotation) (number : Nat) : SegmentHeader :=
  r.config.header (r.epoch.getD number) number r.boundary.published

end Rotation

/-- The number `segment::create` assigns: the next shared ticket, or the next number of the log. -/
def nextNumber (tickets : Option Nat) (highest : Nat) : Option Nat :=
  match tickets with
  | some last => (checkedAdd last 1).filter fun number => number ≤ MAX_SEGMENT
  | none => checkedAdd highest 1

namespace Log

/-- A new log over its first segment. -/
def createIn (config : Config) (limits : Limits) (base : Option View) (number allocated : Nat) :
    Except LogError Log := do
  config.validate limits
  if config.segmentBytes / BLOCK_SIZE ≥ 2 ^ 32 then
    .error (.io ⟨.other, "staging pin table exceeds address bound"⟩)
  else if allocated > limits.stagingBytes then .error .capacity
  else .ok {
    config, limits
    older := []
    current := ⟨config.header number number 0, BLOCK_SIZE⟩
    index := ⟨[], limits.intervals⟩
    offset := BLOCK_SIZE
    nextBatch := 1
    highestSegment := number
    base
    cursor := none
    published := 0
    issued := 0
    pendingDescriptors := 0
    cohort := none
    durable := 0
    encodedBytes := BLOCK_SIZE
    allocatedBytes := allocated
    rejectedBytes := 0
    failed := false
    fenced := false
    rotating := false }

end Log

end Cas.Append
