import Cas.Direct
import Cas.Staging.Format

/-!
# The reference staging log (`staging.rs`)

One writer appends writes, zeroed ranges and fences to a file of fixed slots, and syncs after a fence.
Opening a log looks for its last fence, replays the records up to it and cuts off the rest.
-/

namespace Cas.Staging

open Bytes

inductive Error
  | io (error : IoError)
  | header
  | corrupt (position : Nat)
  | range
  | requestTooLarge
  | poisoned
  | exhausted
  deriving DecidableEq, Repr

structure StagingLog where
  imageBytes : Nat
  nextOffset : Nat
  appended : Nat
  durable : Nat
  blocks : Nat → Option Nat
  poisoned : Bool
  recoveredTailBytes : Nat

/-- Where a slot starts. -/
def position (slot : Nat) : Nat := BLOCK_SIZE + slot * RECORD_SIZE

/-- What a failed write of a record leaves in its slot: less than a record, a record that does not
decode, or the record. -/
inductive Torn [Digest]
  | short (bytes : Bytes) (short : bytes.length < RECORD_SIZE)
  | damaged (bytes : Bytes) (length : bytes.length = RECORD_SIZE) (damaged : decode bytes = none)
  | intact

def Torn.bytes [Digest] (record : Bytes) : Torn → Bytes
  | .short bytes _ | .damaged bytes _ _ => bytes
  | .intact => record

/-- What becomes of a write: `none` if it is done. -/
abbrev Outcome [Digest] := Option (IoError × Torn)

namespace StagingLog

def empty (imageBytes : Nat) : StagingLog := ⟨imageBytes, BLOCK_SIZE, 0, 0, fun _ => none, false, 0⟩

def healthy (log : StagingLog) : Except Error Unit :=
  if log.poisoned then .error .poisoned else .ok ()

def validateRange (log : StagingLog) (offset length : Nat) : Except Error Unit :=
  if offset % BLOCK_SIZE = 0 ∧ length % BLOCK_SIZE = 0 ∧
      (checkedAdd offset length).any fun stop => stop ≤ log.imageBytes then .ok ()
  else .error .range

def apply (log : StagingLog) (record : Record) (position : Nat) : StagingLog :=
  match record.kind with
  | .write => { log with blocks := Function.update log.blocks record.offset (some position) }
  | .zero =>
    { log with
      blocks := fun offset =>
        if offset < record.offset ∨ record.offset + record.length ≤ offset then log.blocks offset
        else none }
  | .fence => log

section
variable [Digest]

/-- The file and the log of a new image. -/
def create (imageBytes : Nat) : Except Error (StagingLog × Bytes) :=
  if imageBytes = 0 ∨ imageBytes % BLOCK_SIZE ≠ 0 then .error .range
  else .ok (empty imageBytes, encodeHeader imageBytes)

/-- `direct::read`. -/
def readSlot (file : Bytes) (position : Nat) : Except Error Bytes :=
  (readBytes file position RECORD_SIZE).mapError .io

/-- The slots up to the last fence, of the first `slots`. -/
def committed (file : Bytes) : Nat → Except Error Nat
  | 0 => .ok 0
  | slot + 1 => do
    let buffer ← readSlot file (position slot)
    if (decode buffer).any (·.kind = .fence) then .ok (slot + 1) else committed file slot

/-- One record of the committed prefix. -/
def replayRecord (log : StagingLog) (position : Nat) (buffer : Bytes) : Except Error StagingLog :=
  match decode buffer with
  | none => .error (.corrupt position)
  | some record =>
    if record.kind = .fence then
      if record.sequence = log.appended then .ok { log with durable := record.sequence }
      else .error (.corrupt position)
    else if checkedAdd log.appended 1 = some record.sequence ∧
        log.validateRange record.offset record.length = .ok () then
      .ok { log.apply record position with appended := record.sequence }
    else .error (.corrupt position)

/-- The slots from `slot` on, as many as given. -/
def replay (file : Bytes) : Nat → Nat → StagingLog → Except Error StagingLog
  | _, 0, log => .ok log
  | slot, count + 1, log => do
    let buffer ← readSlot file (position slot)
    let log ← log.replayRecord (position slot) buffer
    replay file (slot + 1) count log

/-- `open`: the log, and the file after its suffix was cut off. -/
def openLog (file : Bytes) : Except Error (StagingLog × Bytes) :=
  if file.length < BLOCK_SIZE then .error .header
  else do
    let header ← (readBytes file 0 BLOCK_SIZE).mapError .io
    match decodeHeader header with
    | none => .error .header
    | some imageBytes =>
      let slots ← committed file ((file.length - BLOCK_SIZE) / RECORD_SIZE)
      let log ← replay file 0 slots { empty imageBytes with nextOffset := position slots }
      .ok ({ log with recoveredTailBytes := file.length - log.nextOffset },
        file.take log.nextOffset)

/-- One record at the end of the log. -/
def append (log : StagingLog) (file : Bytes) (kind : RecordKind) (offset length : Nat)
    (payload : Bytes) (write : Outcome) : StagingLog × Bytes × Except Error Nat :=
  match if kind = .fence then some log.appended else checkedAdd log.appended 1 with
  | none => (log, file, .error .exhausted)
  | some sequence =>
    match checkedAdd log.nextOffset RECORD_SIZE with
    | none => (log, file, .error .exhausted)
    | some stop =>
      let record : Record := ⟨kind, sequence, offset, length⟩
      match write with
      | some (error, torn) =>
        ({ log with poisoned := true },
          file.take log.nextOffset ++ torn.bytes (encode record payload), .error (.io error))
      | none =>
        ({ log.apply record log.nextOffset with nextOffset := stop, appended := sequence },
          writeBytes file log.nextOffset (encode record payload), .ok sequence)

/-- The blocks of a write, from the given one on. -/
def appendBlocks (offset : Nat) (writes : Nat → Outcome) :
    Nat → List Bytes → StagingLog → Bytes → StagingLog × Bytes × Except Error Unit
  | _, [], log, file => (log, file, .ok ())
  | index, block :: blocks, log, file =>
    match log.append file .write (offset + index * BLOCK_SIZE) BLOCK_SIZE block (writes index) with
    | (log, file, .ok _) => appendBlocks offset writes (index + 1) blocks log file
    | (log, file, .error e) => (log, file, .error e)

/-- `as_chunks::<BLOCK_SIZE>`. -/
def blocksOf (bytes : Bytes) : List Bytes :=
  (List.range (bytes.length / BLOCK_SIZE)).map fun i => bytes.slice (i * BLOCK_SIZE) BLOCK_SIZE

/-- What has to hold before anything is written. -/
def admits (log : StagingLog) (offset length : Nat) : Except Error Unit := do
  log.healthy
  log.validateRange offset length

def write (log : StagingLog) (file : Bytes) (offset : Nat) (bytes : Bytes)
    (writes : Nat → Outcome) : StagingLog × Bytes × Except Error (Option Nat) :=
  match log.admits offset bytes.length with
  | .error e => (log, file, .error e)
  | .ok () =>
    if bytes.length > MAX_REQUEST_BYTES then (log, file, .error .requestTooLarge)
    else
      match appendBlocks offset writes 0 (blocksOf bytes) log file with
      | (log, file, .ok ()) => (log, file, .ok (if bytes = [] then none else some log.appended))
      | (log, file, .error e) => (log, file, .error e)

def zero (log : StagingLog) (file : Bytes) (offset length : Nat) (write : Outcome) :
    StagingLog × Bytes × Except Error (Option Nat) :=
  match log.admits offset length with
  | .error e => (log, file, .error e)
  | .ok () =>
    if length = 0 then (log, file, .ok none)
    else
      let (log, file, r) := log.append file .zero offset length [] write
      (log, file, r.map some)

def flush (log : StagingLog) (file : Bytes) (write : Outcome) (sync : Option IoError) :
    StagingLog × Bytes × Except Error Nat :=
  match log.healthy with
  | .error e => (log, file, .error e)
  | .ok () =>
    if log.appended ≠ log.durable then
      match log.append file .fence 0 0 [] write with
      | (log, file, .error e) => (log, file, .error e)
      | (log, file, .ok _) =>
        match sync with
        | some error => ({ log with poisoned := true }, file, .error (.io error))
        | none => ({ log with durable := log.appended }, file, .ok log.appended)
    else (log, file, .ok log.durable)

/-- One block of a read. -/
def readBlock (log : StagingLog) (file : Bytes) (offset : Nat) : Except Error Bytes :=
  match log.blocks offset with
  | none => .ok (zeros BLOCK_SIZE)
  | some position => do
    let buffer ← readSlot file position
    match decode buffer with
    | none => .error (.corrupt position)
    | some record =>
      if record.kind ≠ .write ∨ record.offset ≠ offset then .error (.corrupt position)
      else .ok (buffer.drop BLOCK_SIZE)

def read (log : StagingLog) (file : Bytes) (offset length : Nat) : Except Error Bytes := do
  log.admits offset length
  if length > MAX_REQUEST_BYTES then .error .requestTooLarge
  else do
    let blocks ← (List.range (length / BLOCK_SIZE)).mapM fun i =>
      log.readBlock file (offset + i * BLOCK_SIZE)
    .ok blocks.flatten

end

end StagingLog

end Cas.Staging
