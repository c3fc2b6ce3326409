import Cas.Lib.Search
import Cas.Manifest.File

/-!
# The catalog table (`catalog/format.rs`)

The catalog is one packed table of fixed-size records, sorted by ID, behind a 64-byte header. A
change copies the records around the changed one into a fresh zeroed buffer; nothing is decoded on the
way. `memory` says which buffer sizes the metadata budget grants.
-/

namespace Cas.Catalog

open Bytes Manifest

@[simp] abbrev HEADER : Nat := 64
@[simp] abbrev ENTRY : Nat := 128
@[simp] abbrev CRC : Nat := 12

abbrev Id := FixedBytes 16

inductive Kind
  | image (imageBytes : Nat)
  | snapshot (key : View)
  deriving DecidableEq

structure Entry where
  id : Id
  kind : Kind
  deriving DecidableEq

inductive Change
  | insert (entry : Entry)
  | remove (id : Id)

/-! ## Records -/

namespace Entry

def validate (e : Entry) (store : Id) : Except IoError Unit := do
  require (e.id ≠ .zero 16) "catalog entry ID is zero"
  match e.kind with
  | .image imageBytes =>
    Commit.validate {
      store, image := e.id, imageBytes, generation := 1, root := .empty, durable := 0 } BLOCK_SIZE
  | .snapshot key =>
    require (key.commit.store = store) "snapshot belongs to another store"
    key.validate

/-- `format::encode`, into the slot `b`. -/
def encode (e : Entry) (b : Bytes) : Bytes :=
  let b := b.put 0 e.id.1
  match e.kind with
  | .image imageBytes => put64 (put16 b 16 1) 24 imageBytes
  | .snapshot key =>
    let b := put16 b 16 2
    let b := put64 b 24 key.commit.imageBytes
    let b := b.put 32 key.commit.image.1
    let b := put64 b 48 key.commit.generation
    let b := put64 b 56 key.commit.root.offset
    let b := put64 b 64 key.commit.durable
    let b := put64 b 72 key.stop
    put16 b 80 key.commit.root.height

/-- `format::decode`. -/
def decode (b : Bytes) (store : Id) : Entry where
  id := .read 16 b 0
  kind := if u16At b 16 = 1 then .image (u64At b 24)
    else .snapshot {
      commit := {
        store
        image := .read 16 b 32
        imageBytes := u64At b 24
        generation := u64At b 48
        root := ⟨u64At b 56, u16At b 80⟩
        durable := u64At b 64 }
      stop := u64At b 72 }

end Entry

/-! ## The header -/

/-- `b"CASCAT02"`. -/
def magic : Bytes := [67, 65, 83, 67, 65, 84, 48, 50]

/-- `u64::checked_mul`. -/
def checkedMul (a b : Nat) : Option Nat := if a * b < U64 then some (a * b) else none

/-- `u64::checked_next_multiple_of`. -/
def checkedNextMultipleOf (a b : Nat) : Option Nat :=
  let next := (a + (b - 1)) / b * b
  if next < U64 then some next else none

def encodedSize (count : Nat) : Except IoError Nat :=
  let size := (checkedMul count ENTRY).bind fun size => (checkedAdd size HEADER).bind fun size =>
    (checkedNextMultipleOf size BLOCK_SIZE).filter (· ≤ I64_MAX)
  match size with
  | some size => .ok size
  | none => .error ⟨.invalidData, "catalog length overflow"⟩

def header (b : Bytes) (store : Id) : Except IoError Nat := do
  require (b.length ≥ HEADER) "short catalog header"
  require (b.slice 0 8 = magic ∧ u16At b 8 = 2 ∧ u16At b 10 = ENTRY) "catalog version"
  require (store ≠ .zero 16 ∧ FixedBytes.read 16 b 16 = store ∧ u64At b 32 ≠ 0)
    "catalog identity/generation"
  require (isZero (b.slice 56 8)) "catalog header reserved bytes"
  let size ← encodedSize (u64At b 40)
  require (u64At b 48 = size) "catalog encoded length"
  return size

/-- `AlignedBuffer::try_new_in` under the metadata budget. -/
def buffer (memory : Nat → Bool) (size : Nat) : Except IoError Bytes :=
  if memory size then .ok (zeros size)
  else .error ⟨.outOfMemory, "aligned buffer allocation denied"⟩

/-! ## Contents -/

/-- Validated encoded state. -/
structure Contents where
  bytes : Bytes
  deriving DecidableEq

namespace Contents

def store (c : Contents) : Id := .read 16 c.bytes 16

def generation (c : Contents) : Nat := u64At c.bytes 32

def len (c : Contents) : Nat := u64At c.bytes 40

def records (c : Contents) : List Bytes :=
  (List.range c.len).map fun i => c.bytes.slice (HEADER + ENTRY * i) ENTRY

def entries (c : Contents) : List Entry := c.records.map (Entry.decode · c.store)

def position (c : Contents) (id : Id) : Except Nat Nat :=
  binarySearch (c.records.map fun record => FixedBytes.read 16 record 0) id

def get (c : Contents) (id : Id) : Option Entry :=
  match c.position id with
  | .ok index => c.records[index]?.map (Entry.decode · c.store)
  | .error _ => none

/-- The header fields of a table, before its checksum. -/
def fields (b : Bytes) (store : Id) (generation count size : Nat) : Bytes :=
  let b := b.put 0 magic
  let b := put16 b 8 2
  let b := put16 b 10 ENTRY
  let b := b.put 16 store.1
  let b := put64 b 32 generation
  let b := put64 b 40 count
  put64 b 48 size

/-- `Contents::allocate`: a zeroed buffer with its header fields, unsealed. -/
def allocate (memory : Nat → Bool) (store : Id) (generation count : Nat) : Except IoError Bytes := do
  require (store ≠ .zero 16 ∧ generation ≠ 0) "catalog identity/generation"
  let size ← encodedSize count
  let b ← buffer memory size
  return fields b store generation count size

/-- The record loop of `Contents::initial`: the entries from `index` on, after the ID `previous`. -/
def fill (store : Id) : List Entry → (index : Nat) → (previous : Id) → Bytes → Except IoError Bytes
  | [], _, _, b => .ok b
  | e :: es, index, previous, b => do
    e.validate store
    require (previous < e.id) "catalog IDs are not sorted and unique"
    let offset := HEADER + index * ENTRY
    fill store es (index + 1) e.id (b.put offset (e.encode (b.slice offset ENTRY)))

/-- What a change does to the table: the position, how many records it takes out there, and the
record it puts in. -/
structure Splice where
  position : Nat
  removed : Nat
  inserted : Option Entry

def locate (c : Contents) : Change → Except IoError Splice
  | .insert entry => do
    entry.validate c.store
    match c.position entry.id with
    | .ok _ => .error ⟨.alreadyExists, "catalog ID already exists"⟩
    | .error position => return ⟨position, 0, some entry⟩
  | .remove id =>
    match c.position id with
    | .ok position => return ⟨position, 1, none⟩
    | .error _ => .error ⟨.notFound, "catalog ID does not exist"⟩

/-- `usize::from(inserted.is_some())`. -/
def Splice.added (s : Splice) : Nat := if s.inserted.isSome then 1 else 0

/-- The records of `c` around the change, and the changed one, copied into the fresh buffer `b`. -/
def splice (c : Contents) (s : Splice) (b : Bytes) : Bytes :=
  let offset := HEADER + s.position * ENTRY
  let b := b.put HEADER (c.bytes.slice HEADER (offset - HEADER))
  let target := offset + s.added * ENTRY
  let source := offset + s.removed * ENTRY
  let b := b.put target (c.bytes.slice source (HEADER + c.len * ENTRY - source))
  match s.inserted with
  | some entry => b.put offset (entry.encode (b.slice offset ENTRY))
  | none => b

variable [Digest]

/-- `Contents::seal`. -/
def sealBytes (b : Bytes) : Contents := ⟨put32 b CRC (checksum b CRC)⟩

def initial (memory : Nat → Bool) (store : Id) (entries : List Entry) : Except IoError Contents := do
  let b ← allocate memory store 1 entries.length
  let b ← fill store entries 0 (.zero 16) b
  return sealBytes b

def empty (memory : Nat → Bool) (store : Id) : Except IoError Contents := initial memory store []

def changed (memory : Nat → Bool) (c : Contents) (change : Change) : Except IoError Contents := do
  let s ← c.locate change
  match checkedAdd (c.len - s.removed) s.added, checkedAdd c.generation 1 with
  | none, _ => .error ⟨.other, "catalog entry count exhausted"⟩
  | some _, none => .error ⟨.other, "catalog generations exhausted"⟩
  | some count, some generation =>
    let b ← allocate memory c.store generation count
    return sealBytes (c.splice s b)

/-- The record loop of `Contents::validate`. -/
def validateRecords (store : Id) : List Bytes → (previous : Id) → Except IoError Unit
  | [], _ => .ok ()
  | record :: records, previous => do
    require (u16At record 16 = 1 ∨ u16At record 16 = 2) "catalog entry kind"
    require (isZero (record.slice 18 6) ∧ isZero (record.drop 82) ∧
      (u16At record 16 = 2 ∨ isZero (record.slice 32 50))) "catalog entry reserved bytes"
    let entry := Entry.decode record store
    entry.validate store
    require (previous < entry.id) "catalog IDs are not sorted and unique"
    validateRecords store records entry.id

def validate (c : Contents) (store : Id) : Except IoError Unit := do
  let size ← header c.bytes store
  require (size = c.bytes.length) "catalog buffer size"
  require (u32At c.bytes CRC = checksum c.bytes CRC) "catalog CRC"
  validateRecords store c.records (.zero 16)
  require (isZero (c.bytes.drop (HEADER + c.len * ENTRY))) "catalog padding"

/-- The whole catalog, of which the first block is already read. -/
def readRest (memory : Nat → Bool) (file first : Bytes) (size : Nat) : Except IoError Bytes :=
  if size > BLOCK_SIZE then do
    let full ← buffer memory size
    let rest ← readBytes file BLOCK_SIZE (size - BLOCK_SIZE)
    return (full.put 0 first).put BLOCK_SIZE rest
  else .ok first

def read (memory : Nat → Bool) (file : Bytes) (store : Id) : Except IoError Contents := do
  require (file.length ≥ BLOCK_SIZE) "short catalog file"
  let _ ← buffer memory BLOCK_SIZE
  let first ← readBytes file 0 BLOCK_SIZE
  let size ← header first store
  require (file.length = size) "catalog EOF differs from header"
  let b ← readRest memory file first size
  let contents : Contents := ⟨b⟩
  contents.validate store
  return contents

end Contents

end Cas.Catalog
