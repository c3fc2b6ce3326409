import Cas.Encoding

/-!
# Guest requests (`daemon/src/request.rs`, `daemon/src/inflight.rs`)

`parse` decodes the virtio wire format of a descriptor chain once, so that execution receives
validated operations: the ranges of data and zero requests carry the bound `parse` checked.
`inflight` is the identity under which a request is ordered and retained.
-/

namespace Cas

/-- `request::invalid` and `inflight::invalid`. -/
def invalid (message : String) : IoError := ⟨.invalidData, message⟩

namespace Inflight

inductive Kind
  | read
  | write
  | zero
  | flush
  | protocol
  | discard
  | zeroUnmap
  deriving DecidableEq, Repr

/-- `Kind::zero`. -/
def Kind.isZero (k : Kind) : Bool := k = .zero ∨ k = .discard ∨ k = .zeroUnmap

structure Request where
  kind : Kind
  queue : Nat
  head : Nat
  available : Nat
  offset : Nat
  length : Nat
  deriving DecidableEq, Repr

def Request.mutates (r : Request) : Bool := (r.kind = .write ∨ r.kind.isZero) ∧ r.length ≠ 0

def Request.validate (r : Request) (imageBytes : Nat) : Except IoError Unit :=
  match r.kind with
  | .flush | .protocol =>
    if r.offset = 0 ∧ r.length = 0 then .ok ()
    else .error (invalid "control request has a payload range")
  | kind =>
    if ¬ BLOCK_SIZE ∣ r.offset ∨ ¬ BLOCK_SIZE ∣ r.length ∨
        ((checkedAdd r.offset r.length).all fun stop => decide (stop > imageBytes)) ∨
        (¬ kind.isZero ∧ (r.length = 0 ∨ r.length > MAX_REQUEST_BYTES)) then
      .error (invalid "invalid inflight logical range")
    else .ok ()

end Inflight

namespace Daemon

open Bytes (toNat)

/-- Virtio addresses use 512-byte sectors even for a 4096-byte logical device. -/
abbrev SECTOR_BYTES : Nat := 512

/-- The length of `DEVICE_ID`. -/
abbrev DEVICE_ID_BYTES : Nat := 20

abbrev VIRTIO_BLK_T_IN : Nat := 0
abbrev VIRTIO_BLK_T_OUT : Nat := 1
abbrev VIRTIO_BLK_T_FLUSH : Nat := 4
abbrev VIRTIO_BLK_T_GET_ID : Nat := 8
abbrev VIRTIO_BLK_T_DISCARD : Nat := 11
abbrev VIRTIO_BLK_T_WRITE_ZEROES : Nat := 13
abbrev VIRTIO_BLK_F_DISCARD : Nat := 13
abbrev VIRTIO_BLK_F_WRITE_ZEROES : Nat := 14

inductive Permissions
  | read
  | write
  deriving DecidableEq

/-- The mapped guest memory: its bytes and which of them may be accessed. -/
structure GuestMemory where
  byte : Nat → UInt8
  allows : Nat → Permissions → Bool

namespace GuestMemory

def checkRange (mem : GuestMemory) (addr len : Nat) (access : Permissions) : Bool :=
  addr + len ≤ U64 ∧ (List.range len).all fun i => mem.allows (addr + i) access

def readSlice (mem : GuestMemory) (addr len : Nat) : Except IoError Bytes :=
  if mem.checkRange addr len .read then .ok ((List.range len).map fun i => mem.byte (addr + i))
  else .error ⟨.other, "invalid guest address"⟩

end GuestMemory

structure Segment where
  addr : Nat
  len : Nat
  writable : Bool
  deriving DecidableEq, Repr

structure Completion where
  head : Nat
  status : Nat
  deriving DecidableEq, Repr

/-- The status byte is the last byte of the last nonempty descriptor. -/
def Completion.fromDescriptors (mem : GuestMemory) (head : Nat) (descriptors : List Segment) :
    Option Completion := do
  let last ← descriptors.reverse.find? fun segment => segment.len ≠ 0
  let status ← checkedAdd last.addr (last.len - 1)
  if last.writable ∧ mem.checkRange status 1 .write then some ⟨head, status⟩ else none

/-- The range of a READ or WRITE. -/
structure DataRequest where
  completion : Completion
  offset : Nat
  segments : List Segment
  len : Nat
  fits : offset + len < U64
  deriving DecidableEq, Repr

/-- The range of a WRITE_ZEROES or DISCARD. -/
structure ZeroRequest where
  completion : Completion
  offset : Nat
  len : Nat
  kind : Inflight.Kind
  fits : offset + len < U64
  zeroes : kind.isZero
  deriving DecidableEq, Repr

inductive Request
  | read (data : DataRequest)
  | write (data : DataRequest)
  | zero (range : ZeroRequest)
  | flush (completion : Completion)
  | getId (completion : Completion) (segments : List Segment)
  | unsupported (completion : Completion)
  | invalid (completion : Completion)
  deriving DecidableEq, Repr

namespace Request

def completion : Request → Completion
  | read data | write data => data.completion
  | zero range => range.completion
  | flush completion | unsupported completion | invalid completion | getId completion _ => completion

def isRead : Request → Bool
  | read _ => true
  | _ => false

/-- The kind, offset and length a request is ordered by. -/
def span : Request → Inflight.Kind × Nat × Nat
  | read data => (.read, data.offset, data.len)
  | write data => (.write, data.offset, data.len)
  | zero range => (range.kind, range.offset, range.len)
  | flush _ => (.flush, 0, 0)
  | _ => (.protocol, 0, 0)

def inflight (r : Request) (queue available : Nat) : Inflight.Request :=
  { kind := r.span.1, queue, head := r.completion.head, available, offset := r.span.2.1
    length := r.span.2.2 }

/-- A zero request the frontend did not negotiate is unsupported. -/
def negotiated (r : Request) (features : Nat) : Request :=
  match r with
  | zero range =>
    if features.testBit (if range.kind = .discard then VIRTIO_BLK_F_DISCARD
        else VIRTIO_BLK_F_WRITE_ZEROES) then r
    else unsupported range.completion
  | _ => r

@[simp] theorem inflight_kind (r : Request) (q a : Nat) : (r.inflight q a).kind = r.span.1 := rfl
@[simp] theorem inflight_offset (r : Request) (q a : Nat) : (r.inflight q a).offset = r.span.2.1 := rfl
@[simp] theorem inflight_length (r : Request) (q a : Nat) : (r.inflight q a).length = r.span.2.2 := rfl

/-- A parsed range ends below `2 ^ 64`. -/
theorem span_fits (r : Request) : r.span.2.1 + r.span.2.2 < U64 := by
  cases r with
  | read data => exact data.fits
  | write data => exact data.fits
  | zero range => exact range.fits
  | flush _ | getId _ _ | unsupported _ | invalid _ => show 0 + 0 < U64; decide

end Request

/-- The checks on the descriptors and their total length. -/
def checkDescriptors (mem : GuestMemory) :
    (writableSeen : Bool) → (total : Nat) → List Segment → Except IoError Nat
  | _, total, [] => .ok total
  | writableSeen, total, s :: rest =>
    if writableSeen ∧ ¬ s.writable then
      .error (invalid "readable descriptor after writable descriptor")
    else if ¬ mem.checkRange s.addr s.len (if s.writable then .write else .read) then
      .error (invalid "descriptor outside guest memory")
    else match checkedAdd total s.len with
      | none => .error (invalid "length overflow")
      | some total => checkDescriptors mem (writableSeen || s.writable) total rest

/-- Copies the next `need` header bytes and advances the descriptors past them. -/
def readHeader (mem : GuestMemory) :
    (need : Nat) → List Segment → Except IoError (Bytes × List Segment)
  | 0, segments => .ok ([], segments)
  | _ + 1, [] => .error (invalid "missing request header")
  | need + 1, s :: rest => do
    Except.ensure (s.writable = false) (invalid "request header is not entirely readable")
    let count := min s.len (need + 1)
    let bytes ← mem.readSlice s.addr count
    let addr ← if s.len - count = 0 then .ok s.addr else
      match checkedAdd s.addr count with
      | some addr => .ok addr
      | none => .error (invalid "address overflow")
    let (tail, rest) ← readHeader mem (need + 1 - count) rest
    .ok (bytes ++ tail, ⟨addr, s.len - count, s.writable⟩ :: rest)

/-- The bytes of readable segments, in order. -/
def readSegments (mem : GuestMemory) : List Segment → Except IoError Bytes
  | [] => .ok []
  | s :: rest => do
    let bytes ← mem.readSlice s.addr s.len
    let tail ← readSegments mem rest
    .ok (bytes ++ tail)

/-- `request::zero`: at most one range, in sectors. -/
def parseZero (mem : GuestMemory) (completion : Completion) (segments : List Segment)
    (kind len capacity : Nat) : Except IoError Request := do
  Except.ensure ((len = 0 ∨ len = 16) ∧ segments.all fun s => !s.writable)
    (invalid "zero/discard requires at most one readable range")
  let bytes ← readSegments mem segments
  let range := bytes ++ List.replicate (16 - bytes.length) 0
  let sector := toNat (range.take 8)
  let sectors := toNat (range.slice 8 4)
  let flags := toNat (range.drop 12)
  -- the only known flag is unmap
  if flags > 1 ∨ (kind = VIRTIO_BLK_T_DISCARD ∧ flags ≠ 0) then
    .ok (.unsupported completion)
  else if sector * SECTOR_BYTES ≥ U64 then .error (invalid "range sector overflow")
  else
    let offset := sector * SECTOR_BYTES
    let size := sectors * SECTOR_BYTES
    if h : size ≤ MAX_REQUEST_BYTES ∧ BLOCK_SIZE ∣ offset ∧ BLOCK_SIZE ∣ size ∧
        offset + size < U64 ∧ offset + size ≤ capacity then
      .ok (.zero ⟨completion, offset, size,
        if kind = VIRTIO_BLK_T_DISCARD then .discard else if flags = 1 then .zeroUnmap else .zero,
        h.2.2.2.1, by split <;> [rfl; (split <;> rfl)]⟩)
    else .error (invalid "invalid zero/discard range, size or alignment")

/-- The request with a decoded header. -/
def parseBody (mem : GuestMemory) (completion : Completion) (segments : List Segment)
    (kind sector len capacity : Nat) : Except IoError Request :=
  if kind = VIRTIO_BLK_T_DISCARD ∨ kind = VIRTIO_BLK_T_WRITE_ZEROES then
    parseZero mem completion segments kind len capacity
  else if kind = VIRTIO_BLK_T_IN ∨ kind = VIRTIO_BLK_T_OUT then
    if sector * SECTOR_BYTES ≥ U64 then .error (invalid "sector overflow")
    else if h : len ≠ 0 ∧ BLOCK_SIZE ∣ len ∧ BLOCK_SIZE ∣ sector * SECTOR_BYTES ∧
        sector * SECTOR_BYTES + len < U64 ∧ sector * SECTOR_BYTES + len ≤ capacity ∧
        segments.all (fun s => s.writable = (kind = VIRTIO_BLK_T_IN)) then
      let data : DataRequest := ⟨completion, sector * SECTOR_BYTES, segments, len, h.2.2.2.1⟩
      .ok (if kind = VIRTIO_BLK_T_IN then .read data else .write data)
    else .error (invalid "invalid data range, alignment, or direction")
  else if kind = VIRTIO_BLK_T_FLUSH then
    if len = 0 then .ok (.flush completion) else .error (invalid "FLUSH has data descriptors")
  else if kind = VIRTIO_BLK_T_GET_ID then
    if len = DEVICE_ID_BYTES ∧ segments.all (fun s => s.writable) then
      .ok (.getId completion segments)
    else .error (invalid "invalid GET_ID buffer")
  else .ok (.unsupported completion)

/-- The descriptors without their last byte, the status. -/
def dropStatus : List Segment → List Segment
  | [] => []
  | [s] => [{ s with len := s.len - 1 }]
  | s :: rest => s :: dropStatus rest

def parse (mem : GuestMemory) (head : Nat) (descriptors : List Segment) (capacity : Nat) :
    Except IoError Request := do
  let descriptors := descriptors.filter fun s => s.len ≠ 0
  let some completion := Completion.fromDescriptors mem head descriptors
    | .error (invalid "missing writable status byte")
  let total ← checkDescriptors mem false 0 descriptors
  Except.ensure (17 ≤ total) (invalid "missing request header")
  let len := total - 17
  Except.ensure (len ≤ MAX_REQUEST_BYTES) (invalid "request exceeds size limit")
  -- framing is in bytes, not descriptor boundaries
  let (header, descriptors) ← readHeader mem 16 descriptors
  let segments := (dropStatus descriptors).filter fun s => s.len ≠ 0
  parseBody mem completion segments (toNat (header.take 4)) (toNat (header.drop 8)) len capacity

/-- `backend::decode_chain`: a malformed chain with a status byte is an invalid request. -/
def decodeChain (mem : GuestMemory) (head : Nat) (descriptors : List Segment) (capacity : Nat) :
    Except IoError Request :=
  match parse mem head descriptors capacity with
  | .ok request => .ok request
  | .error _ =>
    match Completion.fromDescriptors mem head descriptors with
    | some completion => .ok (.invalid completion)
    | none => .error ⟨.other, "malformed request without writable status"⟩

end Daemon

end Cas
