import Cas.Manifest.Editor
import Cas.Lib.Registry

/-!
# The manifest file (`manifest/file.rs`, `file/pins.rs`, `file/reclaim.rs`, `file/snapshot.rs`)

One owner publishes transactions at the end of the file; views and lookups pin the roots they read,
and reclamation punches the pages that no pinned root reaches. Recovery selects the newest COMMIT
whose tree is complete. Page caches, allocation budgets and repair permits are not modelled.
-/

namespace Cas.Manifest

open Bytes

/-! ## Identities and keys -/

structure Identity where
  store : FixedBytes 16
  image : FixedBytes 16
  imageBytes : Nat
  deriving DecidableEq

namespace Identity

def initial (i : Identity) : Commit where
  store := i.store
  image := i.image
  imageBytes := i.imageBytes
  generation := 1
  root := .empty
  durable := 0

/-- `Identity::matches`. -/
def agrees (i : Identity) (c : Commit) : Bool :=
  i.store = c.store ∧ i.image = c.image ∧ i.imageBytes = c.imageBytes

end Identity

/-- `SnapshotKey::validate`. -/
def View.validate (key : View) : Except IoError Unit := do
  require (key.stop ≥ 2 * BLOCK_SIZE ∧ key.stop ≤ I64_MAX ∧ key.stop % BLOCK_SIZE = 0)
    "snapshot end is invalid"
  key.commit.validate (key.stop - BLOCK_SIZE)

/-! ## Root pins -/

/-- `pins::Registry`: the pinned roots by the end of their COMMIT. -/
abbrev Pins := List (Registry.Entry View)

namespace Pins

/-- `Pin::insert`. -/
def insert (pins : Pins) (key : View) : Except IoError Pins :=
  match Registry.find View.stop pins key.stop with
  | some entry => do
    require (entry.key = key) "different roots at one manifest COMMIT end"
    return Registry.bump View.stop pins key.stop
  | none => .ok (pins ++ [⟨key, 1⟩])

/-- `Pin::successor`; on an empty registry, `Pin::new`. -/
def successor (pins : Pins) (key : View) : Except IoError Pins := do
  key.validate
  pins.insert key

/-- The entry of a live pin; its absence is a failed assertion of the source. -/
def owned (pins : Pins) (stop : Nat) : Except IoError Unit :=
  if (Registry.find View.stop pins stop).isSome then .ok ()
  else .error ⟨.other, "a live pin has a registered root"⟩

/-- `Pin::clone`. -/
def clone (pins : Pins) (stop : Nat) : Except IoError Pins := do
  pins.owned stop
  return Registry.bump View.stop pins stop

/-- `Pin::drop`. -/
def drop (pins : Pins) (stop : Nat) : Except IoError Pins := do
  pins.owned stop
  return Registry.release View.stop pins stop

/-- `Pin::capture`: the registered roots in file order. -/
def capture (pins : Pins) : List View :=
  (pins.map Registry.Entry.key).mergeSort fun a b => decide (a.stop ≤ b.stop)

end Pins

/-! ## Page reclamation -/

abbrev PUNCH_WINDOW_PAGES : Nat := 32 * 1024

structure ReclaimedPages where
  roots : Nat
  fileBytes : Nat
  windows : Nat
  treePageReads : Nat
  retainedPages : Nat
  punchCalls : Nat
  punchedLogicalBytes : Nat

/-- The punching loop: everything below `first` is decided. -/
structure Punching where
  file : Bytes
  first : Nat
  calls : Nat
  bytes : Nat

namespace Punching

/-- Punch up to `offset`, one window at a time. -/
def upTo (s : Punching) (offset : Nat) : Punching :=
  if s.first < offset then
    let next := min offset (s.first + PUNCH_WINDOW_PAGES * BLOCK_SIZE)
    upTo { file := punch s.file s.first (next - s.first), first := next, calls := s.calls + 1
           bytes := s.bytes + (next - s.first) } offset
  else s
termination_by offset - s.first
decreasing_by
  simp only [PUNCH_WINDOW_PAGES, BLOCK_SIZE]
  omega

/-- Keep the page at `offset`. -/
def keep (s : Punching) (offset : Nat) : Punching :=
  { s.upTo offset with first := offset + BLOCK_SIZE }

end Punching

section Reclaim

variable [Digest]

/-- The root checks of `reclaim::Prepared::run`. -/
def checkRoots (file : Bytes) (keys : List View) : Except IoError Unit := do
  require (file.length = (keys.getLast?).elim 0 View.stop)
    "manifest reclamation requires exact owned EOF"
  let bytes ← readBytes file 0 BLOCK_SIZE
  let header ← FileHeader.decode bytes
  keys.forM fun key => do
    require (header.store = key.commit.store ∧ header.imageBytes = key.commit.imageBytes)
      "retained root differs from FILE identity"
    let bytes ← readBytes file (key.stop - BLOCK_SIZE) BLOCK_SIZE
    let page ← Page.decode bytes (key.stop - BLOCK_SIZE) key.commit.imageBytes
    let commit ← page.commit
    require (commit = key.commit) "retained COMMIT differs from its root pin"

/-- Mark the pages of one root: the live addresses so far and the tree pages read. -/
def markRoot (file : Bytes) (s : List Nat × Nat) (key : View) : Except IoError (List Nat × Nat) := do
  let tree ← Tree.new (filePages file) key.commit key.stop
  let (live, reads) ← tree.walkPages (fun (s : List Nat × Nat) o => .ok (s.1 ++ [o], s.2 + 1))
    (fun s _ => .ok s) (s.1 ++ [key.stop - BLOCK_SIZE], 0)
  match checkedAdd s.2 reads with
  | none => .error ⟨.other, "manifest reclamation page counter exhausted"⟩
  | some total => return (live, total)

/-- Checks and marking, before the first destructive operation. -/
def markRoots (file : Bytes) (keys : List View) : Except IoError (List Nat × Nat) := do
  checkRoots file keys
  keys.foldlM (markRoot file) ([0], 0)

/-- `reclaim::Prepared::run`: the file it leaves, whatever the result. -/
def reclaimRoots (file : Bytes) (keys : List View) : Bytes × Except IoError ReclaimedPages :=
  match markRoots file keys with
  | .error e => (file, .error e)
  | .ok (live, reads) =>
    let live := (live.mergeSort fun a b => decide (a ≤ b)).dedup
    let s := live.foldl Punching.keep ⟨file, 0, 0, 0⟩
    let stop := (keys.getLast?).elim 0 View.stop
    (s.file, do
      require (s.first = stop) "reclamation omitted the current COMMIT"
      return {
        roots := keys.length
        fileBytes := stop
        windows := (stop / BLOCK_SIZE + PUNCH_WINDOW_PAGES - 1) / PUNCH_WINDOW_PAGES
        treePageReads := reads
        retainedPages := live.length
        punchCalls := s.calls
        punchedLogicalBytes := s.bytes })

end Reclaim

/-! ## The owner -/

/-- `file::Manifest`, with the registry its pin shares with the views. -/
structure Manifest where
  file : Bytes
  current : Commit
  stop : Nat
  failed : Bool
  pins : Pins
  /-- the end the owner's own pin names -/
  pin : Nat

/-- How preallocation, write and sync of a transaction end: all pages are on disk, or an error leaves
`tail` after the committed pages. -/
inductive Output
  | synced
  | failed (tail : Bytes)

namespace Manifest

def key (m : Manifest) : View := ⟨m.current, m.stop⟩

def healthy (m : Manifest) : Except IoError Unit :=
  if m.failed then .error ⟨.other, "manifest owner failed; explicit recovery required"⟩ else .ok ()

/-- `Manifest::view`: the view and the owner after its pin was cloned. -/
def view (m : Manifest) : Except IoError (View × Manifest) := do
  m.healthy
  let pins ← m.pins.clone m.pin
  return (m.key, { m with pins })

variable [Digest]

/-- `Manifest::create`. -/
def create (identity : Identity) : Except IoError Manifest := do
  let current := identity.initial
  current.validate BLOCK_SIZE
  let stop := 2 * BLOCK_SIZE
  let pins ← Pins.successor [] ⟨current, stop⟩
  let header ← FileHeader.encode ⟨identity.store, identity.imageBytes⟩
  let commit ← current.encode BLOCK_SIZE
  return { file := header ++ commit, current, stop, failed := false, pins, pin := stop }

def prepare (m : Manifest) (changes : List Extent) (durable : Nat) : Except IoError Prepared := do
  m.healthy
  Prepared.build (filePages m.file) m.current m.stop changes durable

omit [Digest] in
/-- The checks of `Manifest::publish` before any output, with the successor pin. -/
def checkPublish (m : Manifest) (p : Prepared) : Except IoError Pins := do
  m.healthy
  require (p.previous = m.current ∧ p.offset = m.stop) "stale manifest transaction"
  m.pins.successor ⟨p.commit, m.stop + p.bytes.length⟩

omit [Digest] in
/-- `Manifest::publish`. Replacing the owner's pin drops the old one. -/
def publish (m : Manifest) (p : Prepared) (output : Output) : Manifest × Except IoError Commit :=
  match m.checkPublish p with
  | .error e => (m, .error e)
  | .ok pins =>
    match output with
    | .failed tail =>
      ({ m with file := m.file.take m.stop ++ tail, failed := true },
        .error ⟨.other, "manifest output failed"⟩)
    | .synced =>
      let m := { m with
        file := writeBytes m.file m.stop p.bytes
        failed := true }
      match pins.drop m.pin with
      | .error e => (m, .error e)
      | .ok pins =>
        ({ m with
            stop := m.stop + p.bytes.length
            current := p.commit
            pins
            pin := m.stop + p.bytes.length
            failed := false }, .ok p.commit)

/-- `Manifest::reclaim_pages`. -/
def reclaimPages (m : Manifest) : Manifest × Except IoError ReclaimedPages :=
  match m.healthy with
  | .error e => (m, .error e)
  | .ok () =>
    match reclaimRoots m.file m.pins.capture with
    | (file, .error e) => ({ m with file, failed := true }, .error e)
    | (file, .ok reclaimed) => ({ m with file }, .ok reclaimed)

end Manifest

/-! ## Recovery -/

structure Selected where
  commit : Commit
  stop : Nat
  fileBytes : Nat
  scannedPages : Nat
  incompleteCommits : Nat

variable [Digest]

/-- The backward scan of `select`, from a block down to the first; `newer` is the COMMIT found last. -/
def selectFrom (file : Bytes) (identity : Identity) (required : Nat) :
    (block scanned : Nat) → (newer : Option Commit) → (incomplete : Nat) → Except IoError Selected
  | 0, _, _, _ => .error ⟨.invalidData, "manifest has no complete COMMIT"⟩
  | block + 1, scanned, newer, incomplete => do
    let offset := (block + 1) * BLOCK_SIZE
    let bytes ← readBytes file offset BLOCK_SIZE
    match Page.decode bytes offset identity.imageBytes with
    | .error _ => selectFrom file identity required block (scanned + 1) newer incomplete
    | .ok page =>
      if page.kind ≠ .commit then
        selectFrom file identity required block (scanned + 1) newer incomplete
      else do
        let commit ← page.commit
        require (identity.agrees commit) "manifest COMMIT does not match catalog"
        require (newer.all fun n => commit.generation < n.generation ∧ commit.durable ≤ n.durable)
          "manifest COMMIT order regressed"
        let stop := offset + BLOCK_SIZE
        let tree ← Tree.new (filePages file) commit stop
        match tree.walk (fun (_ : Unit) _ => .ok ()) () with
        | .ok () =>
          require (commit.durable ≥ required) "manifest below required D"
          return ⟨commit, stop, file.length, scanned + 1, incomplete⟩
        | .error e =>
          if e.kind = .invalidData then
            selectFrom file identity required block (scanned + 1) (some commit) (incomplete + 1)
          else .error e

def select (file : Bytes) (identity : Identity) (required : Nat) : Except IoError Selected := do
  require (2 * BLOCK_SIZE ≤ file.length ∧ file.length ≤ I64_MAX) "manifest file length"
  let bytes ← readBytes file 0 BLOCK_SIZE
  let header ← FileHeader.decode bytes
  require (header.store = identity.store ∧ header.imageBytes = identity.imageBytes)
    "manifest FILE does not match catalog"
  selectFrom file identity required (file.length / BLOCK_SIZE - 1) 0 none 0

/-- `Manifest::inspect`; `verifyChunk` rejects a hash without durable data. -/
def inspect (file : Bytes) (identity : Identity) (required : Nat)
    (verifyChunk : Hash → Except IoError Unit) : Except IoError (Manifest × Selected) := do
  identity.initial.validate BLOCK_SIZE
  let selected ← select file identity required
  let tree ← Tree.new (filePages file) selected.commit selected.stop
  tree.walk (fun (_ : Unit) extent => match extent.hash with
    | some hash => verifyChunk hash
    | none => .ok ()) ()
  let pins ← Pins.successor [] ⟨selected.commit, selected.stop⟩
  return ({ file, current := selected.commit, stop := selected.stop, failed := true, pins,
            pin := selected.stop }, selected)

omit [Digest] in
/-- `Inspection::recover`: cut the rejected suffix and stabilize the rest. -/
def recover (inspection : Manifest × Selected) : Manifest :=
  { inspection.1 with
    file := if inspection.2.fileBytes > inspection.1.stop then
      inspection.1.file.take inspection.1.stop else inspection.1.file
    failed := false }

/-! ## Snapshots -/

/-- `SnapshotKey::verify`. -/
def View.verify (key : View) (file : Bytes) : Except IoError Unit := do
  key.validate
  require (file.length = key.stop) "snapshot EOF differs from its catalog key"
  let bytes ← readBytes file 0 BLOCK_SIZE
  let header ← FileHeader.decode bytes
  require (header.store = key.commit.store ∧ header.imageBytes = key.commit.imageBytes)
    "snapshot FILE differs from its catalog key"
  let bytes ← readBytes file (key.stop - BLOCK_SIZE) BLOCK_SIZE
  let page ← Page.decode bytes (key.stop - BLOCK_SIZE) key.commit.imageBytes
  let commit ← page.commit
  require (commit = key.commit) "snapshot COMMIT differs from its catalog key"

/-- `file::Snapshot`. -/
structure Snapshot where
  file : Bytes
  key : View
  failed : Bool
  pins : Pins

/-- `Reflink::create`: share the source file and cut it after the key. -/
def reflink (source : Bytes) (key : View) : Except IoError Bytes := do
  key.validate
  let file := source.take key.stop
  key.verify file
  return file

namespace Snapshot

def healthy (s : Snapshot) : Except IoError Unit :=
  if s.failed then .error ⟨.other, "snapshot failed; explicit recovery required"⟩ else .ok ()

/-- `Snapshot::create`, from the file of a view. -/
def create (source : Bytes) (key : View) : Except IoError Snapshot := do
  let pins ← Pins.successor [] key
  let file ← reflink source key
  return ⟨file, key, false, pins⟩

def reclaimPages (s : Snapshot) : Snapshot × Except IoError ReclaimedPages :=
  match s.healthy with
  | .error e => (s, .error e)
  | .ok () =>
    match reclaimRoots s.file s.pins.capture with
    | (file, .error e) => ({ s with file, failed := true }, .error e)
    | (file, .ok reclaimed) => ({ s with file }, .ok reclaimed)

end Snapshot

/-- `Manifest::clone_snapshot`: a new image whose first COMMIT shares the tree of the snapshot. -/
def Manifest.cloneSnapshot (source : Snapshot) (identity : Identity) : Except IoError Manifest := do
  source.healthy
  require (identity.store = source.key.commit.store ∧
    identity.imageBytes = source.key.commit.imageBytes ∧ identity.image ≠ source.key.commit.image)
    "clone requires a new image in the same store and geometry"
  let current := { identity.initial with root := source.key.commit.root }
  current.validate source.key.stop
  match (checkedAdd source.key.stop BLOCK_SIZE).filter (· ≤ I64_MAX) with
  | none => .error ⟨.other, "clone manifest end exhausted"⟩
  | some stop =>
    let pins ← Pins.successor [] ⟨current, stop⟩
    let file ← reflink source.file source.key
    let page ← current.encode source.key.stop
    return { file := writeBytes file source.key.stop page, current, stop, failed := false, pins,
             pin := stop }

end Cas.Manifest
