import Cas.Append.Serving
import Cas.Daemon.Reactor

/-!
# The frontend of an image (`daemon/src/local.rs`)

`Local` admits requests on the queue thread and gathers writes straight into the append batch that is
sent to the reactor. What the budgets, the host and the WAL window answer to an admission, and whether
the mailbox takes a command, are inputs. Metrics, traces and the credits a permit only holds are left
out.
-/

namespace Cas.Daemon

open Cas.Append (Builder Descriptor RequestId MAX_DESCRIPTORS)
open Bytes

/-- `storage::QueueHead`. -/
structure QueueHead where
  queue : Fin (2 ^ 16)
  head : Fin (2 ^ 16)

namespace Local

inductive Kind
  | read (bytes : Nat)
  | write (bytes : Nat)
  | control
  deriving DecidableEq

/-- `matches!(kind, Kind::Write(_))`. -/
def Kind.isWrite : Kind → Bool
  | .write _ => true
  | _ => false

/-- `pressure::Reason`. -/
inductive Reason
  | hostAdmission
  | requestCredits
  | readCredits
  | readOwnerAllocation
  | staging
  | physical
  | walRotation
  | walIndex
  | appendCredits
  deriving DecidableEq

/-- `pressure::Decision`. -/
inductive Decision (α : Type)
  | ready (value : α)
  | waiting (reason : Reason)

/-- `window::Slot`: the physical bytes reserved for one write. -/
structure Slot where
  bytes : Nat

def Slot.matches (s : Slot) (payload : Nat) : Bool := checkedAdd payload BLOCK_SIZE = some s.bytes

structure Permit where
  window : Option Slot

inductive Written
  | data (bytes : Nat)
  | zero (bytes : Nat)
  deriving DecidableEq

def Written.payloadBytes : Written → Nat
  | .data bytes => bytes
  | .zero _ => 0

structure Write where
  id : Nat
  data : Written
  permit : Permit

structure Packing where
  builder : Builder
  credits : Nat
  writes : List Write

/-- `Command`, as far as admission sends it. -/
inductive Command
  | append (batch : Packing)
  | io (io : Io)

def Command.writes : Command → List Write
  | .append batch => batch.writes
  | .io _ => []

/-- The requests a command carries, for which `reject` leaves a completion each. -/
def Command.ids : Command → List Nat
  | .append batch => batch.writes.map Write.id
  | .io i => [i.id]

/-- `storage::Operation`. -/
inductive Operation
  | read
  | write
  | flush
  deriving DecidableEq

/-- Whether the mailbox takes each command, and whether the reactor can be woken for it. -/
structure Mailbox where
  accepts : Command → Bool
  wakes : Command → Bool

/-- What the shared budgets, the host and the WAL window answer during one admission. -/
structure Answers where
  admissionFailed : Bool
  entered : Bool
  request : Bool
  read : Bool
  readOwner : Bool
  window : Except IoError (Option Reason)
  append : Bool
  writes : Bool

/-- `Shared`: whether the image belongs to a host with a global admission and a WAL window. -/
structure Shared where
  admission : Bool
  window : Bool

/-- `Window::reserve`. -/
def reserveSlot (a : Answers) (bytes : Nat) : Except IoError (Decision Slot) :=
  if bytes > MAX_REQUEST_BYTES ∨ bytes % BLOCK_SIZE ≠ 0 then
    .error ⟨.invalidInput, "invalid WAL write length"⟩
  else
    match a.window with
    | .error e => .error e
    | .ok (some reason) => .ok (.waiting reason)
    | .ok none => .ok (.ready ⟨bytes + BLOCK_SIZE⟩)

namespace Shared

def reserveWithEntry (s : Shared) (a : Answers) (kind : Kind) : Except IoError (Decision Permit) :=
  if a.request = false then .ok (.waiting .requestCredits)
  else
    match kind with
    | .control => .ok (.ready ⟨none⟩)
    | .read _ =>
      if a.read = false then .ok (.waiting .readCredits)
      else if a.readOwner = false then .ok (.waiting .readOwnerAllocation)
      else .ok (.ready ⟨none⟩)
    | .write bytes =>
      if s.window = false then .ok (.ready ⟨none⟩)
      else
        match reserveSlot a bytes with
        | .error e => .error e
        | .ok (.waiting reason) => .ok (.waiting reason)
        | .ok (.ready slot) => .ok (.ready ⟨some slot⟩)

def admitKind (s : Shared) (a : Answers) (kind : Kind) : Except IoError (Decision Permit) :=
  if s.admission = false then s.reserveWithEntry a kind
  else if a.admissionFailed then .error ⟨.other, "host admission failed"⟩
  else if a.entered = false then .ok (.waiting .hostAdmission)
  else s.reserveWithEntry a kind

end Shared

end Local

/-- `sent` are the commands the mailbox took, oldest first; `rejected` the requests that were answered
with an error because it did not. -/
structure Local where
  shared : Local.Shared
  epoch : Nat
  imageBytes : Nat
  inputWake : Bool
  admitted : Nat
  packing : Option Local.Packing
  paused : Bool
  sent : List Local.Command
  rejected : List Nat

namespace Local

/-- `Local::start`. -/
def start (shared : Shared) (inputWake : Bool) (log : Append.Log) : Local where
  shared
  epoch := log.current.header.epoch
  imageBytes := log.config.imageBytes
  inputWake
  admitted := log.published
  packing := none
  paused := false
  sent := []
  rejected := []

def send (l : Local) (m : Mailbox) (c : Command) : Local × Except IoError Unit :=
  if m.accepts c = false then
    ({ l with rejected := l.rejected ++ c.ids }, .error ⟨.other, "mailbox refused the command"⟩)
  else if l.inputWake ∧ m.wakes c = false then
    ({ l with sent := l.sent ++ [c] }, .error ⟨.other, "reactor was not woken"⟩)
  else ({ l with sent := l.sent ++ [c] }, .ok ())

/-- `Local::seal`. -/
def sealBatch (l : Local) (m : Mailbox) : Local × Except IoError Unit :=
  match l.packing with
  | none => (l, .ok ())
  | some batch =>
    if batch.builder.isEmpty then ({ l with packing := none }, .ok ())
    else { l with packing := none }.send m (.append batch)

/-- The open batch cannot take another write of `bytes`. -/
def Packing.full (batch : Packing) (bytes : Nat) : Bool :=
  batch.builder.descriptors = MAX_DESCRIPTORS ∨
    batch.builder.payloadBytes + bytes > batch.builder.allocationBytes - BLOCK_SIZE

/-- Seal before the request is looked at, or because it does not fit. -/
def sealIf (l : Local) (m : Mailbox) (condition : Bool) : Local × Except IoError Unit :=
  if condition then l.sealBatch m else (l, .ok ())

/-- A batch for a write of `bytes` when none is open. -/
def openBatch (l : Local) (a : Answers) (bytes : Nat) : Local × Except IoError (Decision Unit) :=
  match l.packing with
  | some _ => (l, .ok (.ready ()))
  | none =>
    let payloadCapacity := if bytes = 0 then 0 else MAX_REQUEST_BYTES
    let allocationBytes := BLOCK_SIZE + payloadCapacity
    if a.append = false then (l, .ok (.waiting .appendCredits))
    else
      match Builder.new l.imageBytes payloadCapacity with
      | .error e => (l, .error (Append.FormatError.toIo e))
      | .ok builder =>
        -- `assert_eq!` of the source
        if builder.allocationBytes ≠ allocationBytes then (l, .error ⟨.other, "assertion failed"⟩)
        else if a.writes = false then (l, .error ⟨.outOfMemory, "out of memory"⟩)
        else ({ l with packing := some ⟨builder, allocationBytes, []⟩ }, .ok (.ready ()))

/-- What `admit` does for a write once the shared budgets let it through. -/
def admitWrite (l : Local) (m : Mailbox) (a : Answers) (bytes : Nat) (permit : Permit) :
    Local × Except IoError (Decision Permit) :=
  match l.sealIf m (l.packing.any fun batch => batch.full bytes) with
  | (l, .error e) => (l, .error e)
  | (l, .ok ()) =>
    match l.openBatch a bytes with
    | (l, .error e) => (l, .error e)
    | (l, .ok (.waiting reason)) => (l, .ok (.waiting reason))
    | (l, .ok (.ready ())) => (l, .ok (.ready permit))

def admitKind (l : Local) (m : Mailbox) (a : Answers) (kind : Kind) :
    Local × Except IoError (Decision Permit) :=
  if l.paused then (l, .error ⟨.other, "local admission is paused"⟩)
  else
    match l.sealIf m (!kind.isWrite) with
    | (l, .error e) => (l, .error e)
    | (l, .ok ()) =>
      match l.shared.admitKind a kind with
      | .error e => (l, .error e)
      | .ok (.waiting reason) =>
        -- an unsealed batch holds admitted WAL slots the reactor never sees
        match l.sealIf m l.shared.window with
        | (l, .error e) => (l, .error e)
        | (l, .ok ()) => (l, .ok (.waiting reason))
      | .ok (.ready permit) =>
        match kind with
        | .write bytes => l.admitWrite m a bytes permit
        | _ => (l, .ok (.ready permit))

def pack (l : Local) (id : Nat) (head : QueueHead) (permit : Permit) (data : Written)
    (encode : Builder → RequestId → Builder × Except FormatError Unit) :
    Local × Except IoError Unit :=
  if permit.window.any fun slot => !slot.matches data.payloadBytes then
    (l, .error ⟨.invalidInput, "mutation differs from WAL reservation"⟩)
  else
    match l.packing with
    | none => (l, .error ⟨.other, "mutation without append reservation"⟩)
    | some batch =>
      match checkedAdd id 1, checkedAdd l.admitted 1 with
      | none, _ => (l, .error ⟨.other, "operation serial exhausted"⟩)
      | some _, none => (l, .error ⟨.other, "mutation sequence exhausted"⟩)
      | some serial, some mutation =>
        match encode batch.builder ⟨serial, l.epoch, head.queue, head.head⟩ with
        | (builder, .error e) => ({ l with packing := some { batch with builder } }, .error (Append.FormatError.toIo e))
        | (builder, .ok ()) =>
          ({ l with
            admitted := mutation
            packing := some ⟨builder, batch.credits, batch.writes ++ [⟨id, data, permit⟩]⟩ }, .ok ())

def gather [Digest] (l : Local) (id : Nat) (head : QueueHead) (offset length : Nat) (permit : Permit)
    (gather : Builder.Gathered) : Local × Except IoError Unit :=
  l.pack id head permit (.data length) fun builder identity =>
    builder.write identity offset length gather

def zero (l : Local) (id : Nat) (head : QueueHead) (offset length : Nat) (permit : Permit) :
    Local × Except IoError Unit :=
  l.pack id head permit (.zero length) fun builder identity => builder.zero identity offset length

def enqueue (l : Local) (m : Mailbox) (id : Nat) (operation : Operation) :
    Local × Except IoError Unit :=
  if operation = .write then
    (l, .error ⟨.other, "local writes must gather directly into an append batch"⟩)
  else
    let command : Command := .io ⟨id, operation = .read, l.admitted⟩
    if l.paused then
      ({ l with rejected := l.rejected ++ command.ids },
        .error ⟨.other, "local admission is paused"⟩)
    else
      match l.sealBatch m with
      | (l, .error e) => ({ l with rejected := l.rejected ++ command.ids }, .error e)
      | (l, .ok ()) => l.send m command

end Local

end Cas.Daemon
