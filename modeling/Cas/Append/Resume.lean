import Cas.Append.Recovery

/-!
# The end of a recovery (`append.rs`, `append/recovery.rs`, `append/shared.rs`)

A recovered log serves only after its files were repaired and a fence of its own was synced. A fresh
recovery opens a new epoch; a live one first appends the mutations that still have an owner. Both
drop the log when a step fails, so the operations here return the changed log or the error alone.
Writes and syncs of files succeed; the creation of a segment file is described by a `Creation`.
-/

namespace Cas.Append

open Bytes
open Manifest (View)

/-- What `segment::create` meets: the highest ticket of the shared allocator, and the space the new
file occupies. -/
structure Creation where
  tickets : Option Nat
  allocated : Nat

variable [Digest]

/-- `Rotation::create`. -/
def Rotation.create (r : Rotation) (c : Creation) : Except IoError Rotated :=
  match nextNumber c.tickets r.highest with
  | none => .error ⟨.other, "segment tickets exhausted"⟩
  | some number => do
    let _ ← (r.header number).encode.mapError FormatError.toIo
    return ⟨r.boundary, ⟨r.header number, BLOCK_SIZE⟩, c.allocated⟩

namespace Log

/-- `Log::create`, and `Log::create_shared` with the view of the new image's manifest. The identity
check of the shared form is left to the caller. -/
def create (config : Config) (limits : Limits) (base : Option View) (c : Creation) :
    Except LogError Log := do
  if (base.any fun v => v.commit.durable ≠ 0) then
    .error (invalidData "new staging namespace requires D=0")
  else do
    config.validate limits
    match nextNumber c.tickets 0 with
    | none => .error (otherError "segment tickets exhausted")
    | some number => createIn config limits base number c.allocated

def rotate (l : Log) (epoch : Option Nat) (c : Creation) : Except LogError Log := do
  let (prepared, l) ← l.rotation epoch
  let created ← (prepared.create c).mapError LogError.io
  match l.installRotation created with
  | (l, .ok ()) => .ok l
  | (_, .error e) => .error e

def rollover (l : Log) (c : Creation) : Except LogError Log := do
  l.drained
  l.rotate (some l.current.header.epoch) c

/-- The fence of `flush`, after a rollover when the segment is full. -/
def flushFence (l : Log) (c : Creation) : Except LogError (Submission × Log) :=
  match l.prepareFence with
  | .error .rollover => do
    let l ← l.rollover c
    l.prepareFence
  | other => other

def flush (l : Log) (c : Creation) : Except LogError Log := do
  l.healthy
  if l.cohort.isSome ∨ l.issued ≠ l.published then .error .pending
  else if l.coversFlush l.published then .ok l
  else do
    let (fence, l) ← l.flushFence c
    l.completeSync fence

/-- The log in which `append` places its batch. -/
def appendTarget (l : Log) (b : Builder) (c₁ c₂ : Creation) : Except LogError Log :=
  match l.checkAppend b with
  | .error .rollover => do
    let l ← l.flush c₁
    l.rollover c₂
  | .error e => .error e
  | .ok () => .ok l

def append (l : Log) (b : Builder) (c₁ c₂ : Creation) : Except LogError Log := do
  let l ← l.appendTarget b c₁ c₂
  let (s, l) ← l.prepareAppend b
  l.publishAppend s

end Log

/-- `recovery::Mutation`: the identity part of a descriptor. -/
structure Mutation where
  id : RequestId
  sequence : Nat
  offset : Nat
  length : Nat
  kind : Kind
  deriving DecidableEq, Repr

def Descriptor.mutation (d : Descriptor) : Mutation := ⟨d.id, d.sequence, d.offset, d.length, d.kind⟩

namespace Recovery

omit [Digest] in
def requirePrefix (r : Recovery) (required : Nat) : Except LogError Unit :=
  if r.log.published < required then .error (.short r.log.published required) else .ok ()

omit [Digest] in
/-- The rejected part of the candidates, from the first rejected one on. -/
def rejectedParts (r : Recovery) : List Bytes :=
  match r.rejected with
  | none => []
  | some (i, offset) => (r.candidates.drop i).mapIdx fun j c =>
      if j = 0 then c.bytes.drop offset else c.bytes

omit [Digest] in
/-- `repair`: the rejected parts are archived and counted. -/
def repair (r : Recovery) : Log :=
  { r.log with
    rejectedBytes := r.log.rejectedBytes + (r.rejectedParts.map List.length).sum }

omit [Digest] in
/-- The files that `repair` leaves: the first rejected one is cut, the later ones are removed. -/
def repaired (r : Recovery) : List Candidate :=
  match r.rejected with
  | none => r.candidates
  | some (i, offset) => r.candidates.take i ++
      if offset = 0 then [] else ((r.candidates.drop i).take 1).map fun c =>
        { c with bytes := c.bytes.take offset }

omit [Digest] in
/-- `Candidate::stabilize`: the selected manifest view is durable and becomes the base. A log without
a manifest has none. -/
def stabilized (r : Recovery) (base : Option View) : Recovery :=
  { r with log := { r.log with base } }

def fresh (r : Recovery) (required : Nat) (c₁ c₂ : Creation) : Except LogError Log := do
  r.requirePrefix required
  let l ← r.repair.rotate none c₁
  l.flush c₂

/-! ## Live replacement -/

omit [Digest] in
/-- The checks of `prepare_live` on one mutation, given the one before it. -/
def admissible (r : Recovery) (highestIssued : Nat) (previous : Option Mutation) (m : Mutation) :
    Bool :=
  m.sequence ≠ 0 ∧ m.sequence ≤ highestIssued ∧ m.id.attachment ≠ 0 ∧ m.id.serial ≠ 0 ∧
    m.id.queue < 4 ∧ m.id.head < 256 ∧ m.length ≠ 0 ∧ m.offset % BLOCK_SIZE = 0 ∧
    m.length % BLOCK_SIZE = 0 ∧
    (checkedAdd m.offset m.length).any (fun stop => stop ≤ r.log.config.imageBytes) ∧
    (m.kind = .write → m.length ≤ MAX_REQUEST_BYTES) ∧
    previous.all fun p => p.sequence ≠ m.sequence ∧ p.id.serial < m.id.serial

omit [Digest] in
/-- The loop of `prepare_live` over the sorted mutations. `next` is the last mutation that is
retained or has an owner. -/
def ownedTail (r : Recovery) (highestIssued : Nat) :
    Option Mutation → Nat → List Mutation → Except LogError Nat
  | _, next, [] => .ok next
  | previous, next, m :: ms =>
    if r.admissible highestIssued previous m = false then
      .error (otherError "invalid or duplicate live mutation identity")
    else if m.sequence > r.log.published then
      match checkedAdd next 1 with
      | none => .error .exhausted
      | some next =>
        if m.sequence ≠ next then .error (otherError "missing tail mutation has no inflight owner")
        else ownedTail r highestIssued (some m) next ms
    else ownedTail r highestIssued (some m) next ms

omit [Digest] in
/-- Compare the descriptors of one batch with the live mutations; the result counts the matches. -/
def matchDescriptors (ms : List Mutation) : List Descriptor → Nat → Except LogError Nat
  | [], found => .ok found
  | d :: ds, found =>
    match ms.find? fun m => m.sequence = d.sequence with
    | none => matchDescriptors ms ds found
    | some m =>
      if m ≠ d.mutation then .error (otherError "retained mutation identity or range differs")
      else matchDescriptors ms ds (found + 1)

/-- The record loop of `verify_identities` in one file. Every turn moves the offset. -/
def matchRecords (imageBytes : Nat) (ms : List Mutation) (file : Bytes) (limit : Nat) :
    Nat → Nat → Nat → Except LogError Nat
  | 0, _, found => .ok found
  | fuel + 1, offset, found =>
    if offset < limit then do
      let buffer ← (readBytes file offset BLOCK_SIZE).mapError LogError.io
      let h ← (Header.decode buffer imageBytes).mapError LogError.format
      let found ← matchDescriptors ms h.descriptors found
      matchRecords imageBytes ms file limit fuel (offset + h.length) found
    else .ok found

/-- The segment loop of `verify_identities`. The last segment ends at the write offset. -/
def matchSegments (r : Recovery) (ms : List Mutation) : List Candidate → Nat → Except LogError Nat
  | [], found => .ok found
  | c :: cs, found => do
    let limit := if cs.isEmpty then r.log.offset else c.bytes.length
    let found ← matchRecords r.log.config.imageBytes ms c.bytes limit limit BLOCK_SIZE found
    matchSegments r ms cs found

def verifyIdentities (r : Recovery) (ms : List Mutation) : Except LogError Unit :=
  let expected := (ms.filter fun m => m.sequence ≤ r.log.published).length
  if expected = 0 then .ok ()
  else do
    let found ← r.matchSegments ms (r.candidates.take r.log.segments.length) 0
    if found ≠ expected then .error (otherError "retained inflight mutation was not found")
    else .ok ()

end Recovery

/-- `LivePlan`: the inspected log and the mutations it lost, in sequence order. -/
structure LivePlan where
  recovery : Recovery
  remaining : List Mutation
  epoch : Nat

def Recovery.prepareLive (r : Recovery) (required epoch highestIssued : Nat)
    (mutations : List Mutation) : Except LogError LivePlan := do
  r.requirePrefix required
  if epoch ≠ r.log.current.header.epoch ∨ r.log.published > highestIssued then
    .error (otherError "live epoch, issued prefix or replay bound differs")
  else if mutations.length > 1024 then
    .error (otherError "live mutation count exceeds replay bound")
  else do
    let ms := mutations.mergeSort fun a b => a.sequence ≤ b.sequence
    let next ← r.ownedTail highestIssued none r.log.published ms
    if next ≠ highestIssued then .error (otherError "issued tail has no inflight owner")
    else do
      r.verifyIdentities ms
      return ⟨r, ms.filter fun m => m.sequence > r.log.published, epoch⟩

/-- `LiveRecovery`, with the mutations that are still to be replayed. -/
structure LiveRecovery where
  log : Log
  remaining : List Mutation

/-- `LivePlan::start`. A retained fence may fill its segment. -/
def LivePlan.start (p : LivePlan) (c : Creation) : Except LogError LiveRecovery :=
  let l := p.recovery.repair
  if l.offset + BLOCK_SIZE > l.config.segmentBytes then do
    let l ← l.rotate (some p.epoch) c
    return ⟨l, p.remaining⟩
  else .ok ⟨l, p.remaining⟩

namespace LiveRecovery

/-- The batch of one replayed mutation. -/
def batchOf (imageBytes : Nat) (m : Mutation) (gather : Builder.Gathered) :
    Except FormatError Builder := do
  let b ← Builder.new imageBytes (if m.kind = .write then m.length else 0)
  let (b, result) := match m.kind with
    | .write => b.write m.id m.offset m.length gather
    | .zero => b.zero m.id m.offset m.length
  result
  return b

/-- `replay_next`. -/
def replayNext (r : LiveRecovery) (gather : Builder.Gathered) (c₁ c₂ : Creation) :
    Except LogError LiveRecovery :=
  match r.remaining with
  | [] => .error (otherError "no missing mutation to replay")
  | m :: ms => do
    let b ← (batchOf r.log.config.imageBytes m gather).mapError LogError.format
    if checkedAdd r.log.published 1 ≠ some m.sequence then
      .error (otherError "replay is not the next original mutation")
    else do
      let l ← r.log.append b c₁ c₂
      return ⟨l, ms⟩

def finish (r : LiveRecovery) (c : Creation) : Except LogError Log :=
  if r.remaining ≠ [] then .error (otherError "replay has unresolved mutations")
  else r.log.flush c

end LiveRecovery

end Cas.Append
