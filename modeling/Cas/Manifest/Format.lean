import Cas.Encoding

/-!
# Manifest pages (`manifest/format.rs`)

Bounded 4 KiB tree and COMMIT pages. An encoder starts from a zeroed page, so its output depends on
its arguments only, and every encoder ends by decoding what it wrote.
-/

namespace Cas.Manifest

open Bytes

@[simp] abbrev LEAF_CAPACITY : Nat := 63
@[simp] abbrev BRANCH_CAPACITY : Nat := 252
@[simp] abbrev MAX_HEIGHT : Nat := 8

/-- `chunk_index::Hash`. -/
abbrev Hash := FixedBytes 32

inductive Kind
  | leaf
  | branch
  | commit
  | file
  deriving DecidableEq, Repr

def Kind.tag : Kind → Nat
  | .leaf => 1
  | .branch => 2
  | .commit => 3
  | .file => 4

def Kind.ofTag : Nat → Option Kind
  | 1 => some .leaf
  | 2 => some .branch
  | 3 => some .commit
  | 4 => some .file
  | _ => none

/-- Blocks `start .. stop`; no hash denotes ZERO. -/
structure Extent where
  start : Nat
  stop : Nat
  hash : Option Hash
  deriving DecidableEq

namespace Extent

def decode (slot : Bytes) : Extent where
  start := u64At slot 0
  stop := u64At slot 8
  hash := if u16At slot 52 = 1 then some (FixedBytes.read 32 slot 16) else none

/-- The leaf slot of an extent. -/
def encode (e : Extent) : Bytes :=
  let b := put64 (zeros 64) 0 e.start
  let b := put64 b 8 e.stop
  let b := match e.hash with
    | some hash => b.put 16 hash.1
    | none => b
  put16 b 52 (if e.hash.isSome then 1 else 2)

end Extent

structure Child where
  start : Nat
  offset : Nat
  deriving DecidableEq

namespace Child

def decode (slot : Bytes) : Child where
  start := u64At slot 0
  offset := u64At slot 8

/-- The branch slot of a child. -/
def encode (c : Child) : Bytes := put64 (put64 (zeros 16) 0 c.start) 8 c.offset

end Child

structure Root where
  offset : Nat
  height : Nat
  deriving DecidableEq

/-- `Root::default`: the empty tree. -/
def Root.empty : Root := ⟨0, 0⟩

structure Commit where
  store : FixedBytes 16
  image : FixedBytes 16
  generation : Nat
  root : Root
  durable : Nat
  imageBytes : Nat
  deriving DecidableEq

/-- `file::View` and `file::SnapshotKey`: a COMMIT and the byte after it, of one manifest file. -/
structure View where
  commit : Commit
  stop : Nat
  deriving DecidableEq

structure FileHeader where
  store : FixedBytes 16
  imageBytes : Nat
  deriving DecidableEq

def pageOffset (offset : Nat) : Bool := offset ≠ 0 ∧ offset % BLOCK_SIZE = 0

/-- `Commit::validate`, for a COMMIT page at `offset`. -/
def Commit.validate (c : Commit) (offset : Nat) : Except IoError Unit := do
  require (pageOffset offset ∧ c.store ≠ .zero 16 ∧ c.image ≠ .zero 16 ∧ c.generation ≠ 0 ∧
    c.imageBytes ≠ 0 ∧ c.imageBytes % BLOCK_SIZE = 0) "manifest COMMIT identity/capacity"
  require (if c.root.offset = 0 then c.root.height = 0
    else pageOffset c.root.offset ∧ c.root.offset < offset ∧
      1 ≤ c.root.height ∧ c.root.height ≤ MAX_HEIGHT) "manifest COMMIT root"

structure Page where
  bytes : Bytes
  kind : Kind
  count : Nat
  deriving DecidableEq

namespace Page

/-- `b"CASMAN02"`. -/
def magic : Bytes := [67, 65, 83, 77, 65, 78, 48, 50]

def offset (p : Page) : Nat := u64At p.bytes 16
def level (p : Page) : Nat := u16At p.bytes 12

/-- The leaf slots in use. -/
def extentSlots (p : Page) : List Bytes :=
  (List.range p.count).map fun i => p.bytes.slice (64 + 64 * i) 64

/-- The branch slots in use. -/
def childSlots (p : Page) : List Bytes :=
  (List.range p.count).map fun i => p.bytes.slice (64 + 16 * i) 16

/-- A leaf slot holds one chunk or a ZERO range. -/
def checkExtentKind (slot : Bytes) : Except IoError Unit :=
  match u16At slot 52 with
  | 1 => require ((Extent.decode slot).stop - (Extent.decode slot).start = 1)
      "fixed chunk extent length"
  | 2 => require (slot.slice 16 32 = zeros 32) "ZERO extent hash"
  | _ => .error ⟨.invalidData, "manifest extent kind"⟩

/-- The slot loop of `validate_leaf`; `stop` is the end of the previous extent. -/
def validateExtents (blocks : Nat) : List Bytes → (stop : Nat) → Except IoError Unit
  | [], _ => .ok ()
  | slot :: slots, stop => do
    let extent := Extent.decode slot
    require (extent.start ≥ stop ∧ extent.start < extent.stop ∧ extent.stop ≤ blocks)
      "manifest extent bounds/order"
    require (u32At slot 48 = 0 ∧ isZero (slot.drop 54)) "manifest extent offset/reserved"
    checkExtentKind slot
    validateExtents blocks slots extent.stop

def validateLeaf (p : Page) (blocks : Nat) : Except IoError Unit := do
  require (p.level = 0 ∧ 1 ≤ p.count ∧ p.count ≤ LEAF_CAPACITY) "manifest leaf shape"
  require (isZero (p.bytes.drop (64 + 64 * p.count))) "unused manifest leaf entries"
  validateExtents blocks p.extentSlots 0

/-- The slot loop of `validate_branch`; `previous` is the start of the previous child. -/
def validateChildren (blocks offset : Nat) :
    List Bytes → (previous : Option Nat) → Except IoError Unit
  | [], _ => .ok ()
  | slot :: slots, previous => do
    let child := Child.decode slot
    require (child.start < blocks ∧ previous.all (· < child.start)) "manifest child order"
    require (pageOffset child.offset ∧ child.offset < offset) "manifest child address"
    validateChildren blocks offset slots (some child.start)

def validateBranch (p : Page) (blocks : Nat) : Except IoError Unit := do
  require (1 ≤ p.level ∧ p.level < MAX_HEIGHT ∧ 1 ≤ p.count ∧ p.count ≤ BRANCH_CAPACITY)
    "manifest branch shape"
  require (isZero (p.bytes.drop (64 + 16 * p.count))) "unused manifest children"
  validateChildren blocks p.offset p.childSlots none

def extents (p : Page) : Except IoError (List Extent) := do
  require (p.kind = .leaf) "expected manifest leaf"
  return p.extentSlots.map Extent.decode

def children (p : Page) : Except IoError (List Child) := do
  require (p.kind = .branch) "expected manifest branch"
  return p.childSlots.map Child.decode

/-- The COMMIT fields as stored. -/
def readCommit (p : Page) : Commit where
  store := FixedBytes.read 16 p.bytes 64
  image := FixedBytes.read 16 p.bytes 80
  generation := u64At p.bytes 96
  root := ⟨u64At p.bytes 104, p.level⟩
  durable := u64At p.bytes 112
  imageBytes := u64At p.bytes 120

def commit (p : Page) : Except IoError Commit := do
  require (p.kind = .commit) "expected manifest COMMIT"
  return p.readCommit

/-- The part of `Page::decode` that depends on the page kind. -/
def validate (p : Page) (offset imageBytes : Nat) : Except IoError Unit :=
  match p.kind with
  | .leaf => p.validateLeaf (imageBytes / BLOCK_SIZE)
  | .branch => p.validateBranch (imageBytes / BLOCK_SIZE)
  | .file => do
    require (p.level = 0 ∧ p.count = 0) "manifest FILE shape"
    require (p.bytes.slice 64 16 ≠ zeros 16 ∧ u64At p.bytes 80 = imageBytes)
      "manifest FILE identity/capacity"
    require (isZero (p.bytes.drop 88)) "manifest FILE reserved bytes"
  | .commit => do
    let commit ← p.commit
    require (p.count = 0 ∧ commit.imageBytes = imageBytes) "manifest COMMIT shape/capacity"
    commit.validate offset
    require (isZero (p.bytes.drop 128)) "manifest COMMIT reserved bytes"

def decode [Digest] (b : Bytes) (offset imageBytes : Nat) : Except IoError Page := do
  require (b.length = BLOCK_SIZE) "manifest page size"
  require (b.slice 0 8 = magic ∧ u16At b 8 = 2) "manifest page version"
  require (u32At b 56 = checksum b 56) "manifest page CRC"
  require (u64At b 16 = offset ∧ offset % BLOCK_SIZE = 0) "manifest page address"
  require (imageBytes ≠ 0 ∧ imageBytes % BLOCK_SIZE = 0) "manifest image capacity"
  require (isZero (b.slice 24 32) ∧ u32At b 60 = 0) "manifest reserved header"
  match Kind.ofTag (u16At b 10) with
  | none => .error ⟨.invalidData, "manifest page kind"⟩
  | some kind =>
    require (kind = .file ↔ offset = 0) "manifest file/page address"
    let page : Page := ⟨b, kind, u16At b 14⟩
    page.validate offset imageBytes
    return page

end Page

/-! ## Encoders -/

/-- A zeroed page with its header fields. -/
def start (kind : Kind) (offset level count : Nat) : Bytes :=
  let b := (zeros BLOCK_SIZE).put 0 Page.magic
  let b := put16 b 8 2
  let b := put16 b 10 kind.tag
  let b := put16 b 12 level
  let b := put16 b 14 count
  put64 b 16 offset

/-- Checksum the page and require that it decodes. -/
def finish [Digest] (b : Bytes) (offset imageBytes : Nat) : Except IoError Bytes := do
  let b := put32 b 56 (checksum b 56)
  let _ ← Page.decode b offset imageBytes
  return b

def leafInto [Digest] (offset imageBytes : Nat) (extents : List Extent) : Except IoError Bytes := do
  require (extents.length ≤ LEAF_CAPACITY) "manifest leaf capacity"
  finish ((start .leaf offset 0 extents.length).put 64 (extents.flatMap Extent.encode))
    offset imageBytes

def branchInto [Digest] (offset imageBytes level : Nat) (children : List Child) :
    Except IoError Bytes := do
  require (children.length ≤ BRANCH_CAPACITY) "manifest branch capacity"
  finish ((start .branch offset level children.length).put 64 (children.flatMap Child.encode))
    offset imageBytes

/-- A COMMIT page before its checksum. -/
def Commit.fields (c : Commit) (offset : Nat) : Bytes :=
  let b := start .commit offset c.root.height 0
  let b := b.put 64 c.store.1
  let b := b.put 80 c.image.1
  let b := put64 b 96 c.generation
  let b := put64 b 104 c.root.offset
  let b := put64 b 112 c.durable
  put64 b 120 c.imageBytes

def Commit.encode [Digest] (c : Commit) (offset : Nat) : Except IoError Bytes :=
  finish (c.fields offset) offset c.imageBytes

namespace FileHeader

def encode [Digest] (h : FileHeader) : Except IoError Bytes :=
  let b := (start .file 0 0 0).put 64 h.store.1
  finish (put64 b 80 h.imageBytes) 0 h.imageBytes

def decode [Digest] (b : Bytes) : Except IoError FileHeader := do
  require (b.length = BLOCK_SIZE) "manifest FILE length"
  let imageBytes := u64At b 80
  let page ← Page.decode b 0 imageBytes
  require (page.kind = .file) "expected manifest FILE"
  return ⟨FixedBytes.read 16 b 64, imageBytes⟩

end FileHeader

end Cas.Manifest
