import Cas.Encoding

/-!
# The content census (`census.rs`, `chunk.rs`)

A census reads a list of images chunk by chunk, the first of them the base, and counts in one pass
which chunks were there before: at the same place of the base, elsewhere in the base, in an earlier
image, or earlier in the same image. The other images are the descendants of the base.
-/

namespace Cas.Census

abbrev Hash := FixedBytes 32

def CHUNK_SIZES : List Nat := [4096, 16384]

@[ext]
structure Descendants where
  independentlyUniqueBytes : Nat
  fleetUniqueBytes : Nat
  basePresentUniqueBytes : Nat
  baseContentDuplicateBytes : Nat
  novelContentDuplicateBytes : Nat
  deriving DecidableEq, Repr

structure Image where
  path : String
  blake3 : Hash
  logicalBytes : Nat
  zeroChunkBytes : Nat
  nonzeroChunkBytes : Nat
  uniqueBytes : Nat
  baseInPlaceBytes : Nat
  baseElsewhereBytes : Nat
  priorImageOnlyBytes : Nat
  withinImageOnlyBytes : Nat
  newUniqueBytes : Nat
  deriving DecidableEq

/-- The result; the structure `Census` of the source. -/
structure Report where
  chunkBytes : Nat
  images : List Image
  nonzeroChunkBytes : Nat
  independentlyUniqueBytes : Nat
  fleetUniqueBytes : Nat
  withinImageDuplicateBytes : Nat
  crossImageDuplicateBytes : Nat
  descendants : Descendants
  deriving DecidableEq

/-! ## Inputs -/

/-- What one call of `read` does; a short read fills one byte more than the number given, or as many
as there are. -/
inductive Reading
  | interrupted
  | failed (error : IoError)
  | short (more : Nat)
  deriving DecidableEq, Repr

structure Metadata where
  len : Nat
  modified : Nat
  deriving DecidableEq, Repr

/-- A path, and what the system calls on it return. When the list of readings is over, reads are not
cut short. -/
structure Source where
  path : String
  opened : Except IoError Unit
  regular : Except IoError Bool
  content : Bytes
  readings : List Reading
  before : Except IoError Metadata
  after : Except IoError Metadata

/-- What is still to be read. -/
structure Input where
  readings : List Reading
  content : Bytes

/-- `room` is the part of the buffer that is still to be filled. -/
def readChunk : List Reading → Bytes → Nat → Except IoError (Bytes × Input)
  | readings, content, 0 => .ok ([], ⟨readings, content⟩)
  | [], content, room + 1 => .ok (content.take (room + 1), ⟨[], content.drop (room + 1)⟩)
  | .interrupted :: readings, content, room + 1 => readChunk readings content (room + 1)
  | .failed error :: _, _, _ + 1 => .error error
  | .short more :: readings, content, room + 1 =>
    let len := min (min (more + 1) (room + 1)) content.length
    if len = 0 then .ok ([], ⟨readings, content⟩)
    else
      (readChunk readings (content.drop len) (room + 1 - len)).map fun r =>
        (content.take len ++ r.1, r.2)

section
variable [Digest]

/-- `chunk::nonzero_hash`. -/
def nonzeroHash (bytes : Bytes) : Option Hash :=
  if bytes.isZero then none else some (Digest.blake3 bytes)

/-! ## Counting -/

/-- What is counted across the images. `seen` has the first and the last image of a chunk. -/
structure Fleet where
  seen : Hash → Option (Nat × Nat)
  baseOffsets : List (Option Hash)
  fleetUniqueBytes : Nat
  descendants : Descendants

/-- What is counted within one image. -/
structure Scan where
  image : Image
  locals : List Hash
  digest : Bytes
  offset : Nat

def Fleet.new : Fleet := ⟨fun _ => none, [], 0, ⟨0, 0, 0, 0, 0⟩⟩

def Scan.new (path : String) : Scan := ⟨⟨path, .zero 32, 0, 0, 0, 0, 0, 0, 0, 0, 0⟩, [], [], 0⟩

/-- A chunk of a descendant that is in the base; the first such one if `last` is the base. -/
def Descendants.countBase (d : Descendants) (len last : Nat) (locallyNew : Bool) : Descendants :=
  if last = 0 then
    { d with
      fleetUniqueBytes := d.fleetUniqueBytes + len
      basePresentUniqueBytes := d.basePresentUniqueBytes + len }
  else if locallyNew then
    { d with baseContentDuplicateBytes := d.baseContentDuplicateBytes + len }
  else d

/-- A chunk of a descendant that is not in the base but in an earlier descendant. -/
def Descendants.countNovel (d : Descendants) (len : Nat) (locallyNew : Bool) : Descendants :=
  if locallyNew then { d with novelContentDuplicateBytes := d.novelContentDuplicateBytes + len }
  else d

/-- A chunk that is in the base, at the same offset or elsewhere. -/
def Image.countBase (image : Image) (len : Nat) (inPlace : Bool) : Image :=
  if inPlace then { image with baseInPlaceBytes := image.baseInPlaceBytes + len }
  else { image with baseElsewhereBytes := image.baseElsewhereBytes + len }

/-- A nonzero chunk that was seen before: in the base, in an earlier image, or in this one. -/
def again (index len : Nat) (hash : Hash) (locallyNew : Bool) (first last offset : Nat)
    (f : Fleet) (image : Image) : Fleet × Image :=
  let seen := Function.update f.seen hash (some (first, index))
  if first = 0 ∧ 0 < index then
    ({ f with seen, descendants := f.descendants.countBase len last locallyNew },
      image.countBase len (f.baseOffsets[offset]? = some (some hash)))
  else if first < index then
    ({ f with seen, descendants := f.descendants.countNovel len locallyNew },
      { image with priorImageOnlyBytes := image.priorImageOnlyBytes + len })
  else (f, { image with withinImageOnlyBytes := image.withinImageOnlyBytes + len })

/-- A nonzero chunk that was not seen before. -/
def fresh (index len : Nat) (hash : Hash) (f : Fleet) (image : Image) : Fleet × Image :=
  let unique := f.descendants.fleetUniqueBytes
  ({ seen := Function.update f.seen hash (some (index, index))
     baseOffsets := f.baseOffsets
     fleetUniqueBytes := f.fleetUniqueBytes + len
     descendants :=
       { f.descendants with fleetUniqueBytes := unique + if 0 < index then len else 0 } },
    { image with newUniqueBytes := image.newUniqueBytes + len })

/-- A nonzero chunk, once its bytes are counted. -/
def category (index len : Nat) (hash : Hash) (locallyNew : Bool) (offset : Nat) (f : Fleet)
    (image : Image) : Fleet × Image :=
  match f.seen hash with
  | some (first, last) => again index len hash locallyNew first last offset f image
  | none => fresh index len hash f image

/-- A nonzero chunk. -/
def visitHash (index len : Nat) (hash : Hash) (f : Fleet) (s : Scan) : Fleet × Scan :=
  let locallyNew : Bool := hash ∉ s.locals
  let r := category index len hash locallyNew s.offset f
    { s.image with
      nonzeroChunkBytes := s.image.nonzeroChunkBytes + len
      uniqueBytes := s.image.uniqueBytes + if locallyNew then len else 0 }
  (r.1, { s with image := r.2, locals := hash :: s.locals, offset := s.offset + 1 })

/-- A zero chunk. -/
def visitZero (len : Nat) (s : Scan) : Scan :=
  { s with
    image := { s.image with zeroChunkBytes := s.image.zeroChunkBytes + len }
    offset := s.offset + 1 }

/-- The bytes of a chunk. -/
def Scan.update (s : Scan) (bytes : Bytes) : Scan :=
  { s with
    digest := s.digest ++ bytes
    image := { s.image with logicalBytes := s.image.logicalBytes + bytes.length } }

/-- The chunks of the base in order. -/
def Fleet.pushBase (f : Fleet) (index : Nat) (hash : Option Hash) : Fleet :=
  { f with baseOffsets := if index = 0 then f.baseOffsets ++ [hash] else f.baseOffsets }

/-- One iteration over an image. -/
def visit (index : Nat) (fs : Fleet × Scan) (bytes : Bytes) : Fleet × Scan :=
  let f := fs.1.pushBase index (nonzeroHash bytes)
  let s := fs.2.update bytes
  match nonzeroHash bytes with
  | some hash => visitHash index bytes.length hash f s
  | none => (f, visitZero bytes.length s)

/-- The loop over an image, which reads at least one byte in each iteration but the last. -/
def loop (index chunkBytes : Nat) : Nat → Input → Fleet × Scan → Except IoError (Fleet × Scan)
  | 0, _, fs => .ok fs
  | fuel + 1, input, fs => do
    let (bytes, input) ← readChunk input.readings input.content chunkBytes
    if bytes.length = 0 then .ok fs
    else loop index chunkBytes fuel input (visit index fs bytes)

/-- The image after its last chunk. -/
def finish (index : Nat) (fs : Fleet × Scan) : Fleet × Image :=
  let image := { fs.2.image with blake3 := Digest.blake3 fs.2.digest }
  let d := fs.1.descendants
  let unique := d.independentlyUniqueBytes + if 0 < index then image.uniqueBytes else 0
  ({ fs.1 with descendants := { d with independentlyUniqueBytes := unique } }, image)

def scanImage (index chunkBytes : Nat) (source : Source) (f : Fleet) :
    Except IoError (Fleet × Image) := do
  source.opened
  let regular ← source.regular
  Except.ensure regular ⟨.invalidInput, "expected a regular raw file"⟩
  let before ← source.before
  let input : Input := ⟨source.readings, source.content⟩
  let fs ← loop index chunkBytes (source.content.length + 1) input (f, .new source.path)
  let after ← source.after
  Except.ensure
    (before.len = fs.2.image.logicalBytes ∧ after.len = before.len ∧
      after.modified = before.modified)
    ⟨.other, "image changed while scanning: " ++ source.path⟩
  .ok (finish index fs)

def scanImages (chunkBytes : Nat) : Nat → List Source → Fleet → Except IoError (Fleet × List Image)
  | _, [], f => .ok (f, [])
  | index, source :: sources, f => do
    let (f, image) ← scanImage index chunkBytes source f
    let (f, images) ← scanImages chunkBytes (index + 1) sources f
    .ok (f, image :: images)

/-- The totals; `none` if a subtraction underflows. -/
def report (chunkBytes : Nat) (f : Fleet) (images : List Image) : Option Report := do
  let nonzero := (images.map (·.nonzeroChunkBytes)).sum
  let unique := (images.map (·.uniqueBytes)).sum
  let within ← checkedSub nonzero unique
  let cross ← checkedSub unique f.fleetUniqueBytes
  some
    { chunkBytes, images
      nonzeroChunkBytes := nonzero
      independentlyUniqueBytes := unique
      fleetUniqueBytes := f.fleetUniqueBytes
      withinImageDuplicateBytes := within
      crossImageDuplicateBytes := cross
      descendants := f.descendants }

/-- `scan`; `none` is a panic. -/
def scan (sources : List Source) (chunkBytes : Nat) : Except IoError (Option Report) :=
  if sources = [] ∨ chunkBytes ∉ CHUNK_SIZES then
    .error ⟨.invalidInput, "census requires images and a 4096 or 16384 byte chunk size"⟩
  else do
    let (f, images) ← scanImages chunkBytes 0 sources .new
    .ok (report chunkBytes f images)

end

end Cas.Census
