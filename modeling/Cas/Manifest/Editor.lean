import Cas.Manifest.Lookup

/-!
# Copy-on-write preparation (`manifest/tree/editor.rs`)

Edits are applied one at a time to a draft: pages are appended to a bounded buffer that follows the
committed pages, old pages are shared. A final pass emits the draft pages that are still reachable
into a second buffer and appends the new COMMIT. Nothing is written to the file here.
-/

namespace Cas.Manifest

@[simp] abbrev MAX_CHANGES : Nat := 256 + 62
@[simp] abbrev MAX_TRANSACTION_BYTES : Nat := 128 * 1024 * 1024

/-- `ArrayVec::try_push`. -/
def tryPush {α : Type} (capacity : Nat) (l : List α) (a : α) : Except IoError (List α) :=
  if l.length < capacity then .ok (l ++ [a]) else .error ⟨.other, "insufficient capacity"⟩

/-- `ArrayVec::try_extend_from_slice`. -/
def tryExtend {α : Type} (capacity : Nat) (l a : List α) : Except IoError (List α) :=
  if l.length + a.length ≤ capacity then .ok (l ++ a) else .error ⟨.other, "insufficient capacity"⟩

/-- `AlignedPages::push_zeroed`: room for one more page of the plan. -/
def pushZeroed (limit : Nat) (pages : List Bytes) : Except IoError Unit :=
  if pages.length = limit then .error ⟨.outOfMemory, "page plan exhausted"⟩ else .ok ()

/-- The turns of `slice::chunks`. -/
def chunksAux {α : Type} (width : Nat) : Nat → List α → List (List α)
  | 0, _ => []
  | fuel + 1, l => if l = [] then [] else l.take width :: chunksAux width fuel (l.drop width)

/-- `slice::chunks`, for a positive width. -/
def chunks {α : Type} (width : Nat) (l : List α) : List (List α) := chunksAux width l.length l

/-- The draft of one transaction. The draft pages follow the committed ones. -/
structure Editor where
  tree : Tree
  buffer : List Bytes
  limit : Nat
  root : Root

namespace Editor

def imageBytes (e : Editor) : Nat := e.tree.commit.imageBytes

def nextOffset (e : Editor) : Nat := e.tree.stop + e.buffer.length * BLOCK_SIZE

/-- The cursor of the draft root. -/
def rootCursor (e : Editor) : Cursor where
  offset := e.root.offset
  level := e.root.height - 1
  minimum := none
  lower := 0
  upper := e.imageBytes / BLOCK_SIZE

/-- Append one draft page and link it. -/
def writePart (e : Editor) (links : List Child) (write : Nat → Except IoError Bytes)
    (start : Nat) : Except IoError (List Child × Editor) := do
  pushZeroed e.limit e.buffer
  let page ← write e.nextOffset
  let links ← tryPush 2 links ⟨start, e.nextOffset⟩
  return (links, { e with buffer := e.buffer ++ [page] })

/-- Write the entries of one node, split near the middle when they exceed its capacity. -/
def writeParts {α : Type} (e : Editor) (capacity : Nat) (start : α → Nat)
    (write : Nat → List α → Except IoError Bytes) (entries : List α) :
    Except IoError (List Child × Editor) :=
  let width := if entries.length > capacity then (entries.length + 1) / 2
    else max entries.length 1
  (chunks width entries).foldlM
    (fun (s : List Child × Editor) part =>
      s.2.writePart s.1 (fun offset => write offset part) ((part.head?).elim 0 start))
    ([], e)

variable [Digest]

def leaves (e : Editor) (entries : List Extent) : Except IoError (List Child × Editor) :=
  e.writeParts LEAF_CAPACITY Extent.start (fun offset part => leafInto offset e.imageBytes part)
    entries

def branches (e : Editor) (level : Nat) (children : List Child) :
    Except IoError (List Child × Editor) :=
  e.writeParts BRANCH_CAPACITY Child.start
    (fun offset part => branchInto offset e.imageBytes level part) children

/-- A draft page. -/
def draft (e : Editor) (offset : Nat) : Except IoError Page := do
  let start := offset - e.tree.stop
  require (start % BLOCK_SIZE = 0 ∧ start < e.buffer.length * BLOCK_SIZE)
    "manifest points to an unwritten transaction page"
  Page.decode (e.buffer.getD (start / BLOCK_SIZE) []) offset e.imageBytes

def read (e : Editor) (c : Cursor) : Except IoError Node :=
  if c.offset < e.tree.stop then e.tree.readNode c
  else do
    let page ← e.draft c.offset
    Node.decode page c

/-- What is left of one entry of a leaf outside the edit. -/
def keepOutside (edit : Extent) (entries : List Extent) (entry : Extent) :
    Except IoError (List Extent) :=
  if entry.stop ≤ edit.start ∨ entry.start ≥ edit.stop then
    tryPush (LEAF_CAPACITY + 2) entries entry
  else do
    let entries ← (if entry.start < edit.start then
      tryPush (LEAF_CAPACITY + 2) entries { entry with stop := edit.start } else .ok entries)
    if entry.stop > edit.stop then
      tryPush (LEAF_CAPACITY + 2) entries { entry with start := edit.stop } else .ok entries

/-- The entries of a leaf after an edit. -/
def leafEntries (original : List Extent) (edit : Extent) : Except IoError (List Extent) := do
  let entries ← original.foldlM (keepOutside edit) []
  let entries ← (if edit.hash.isSome then tryPush (LEAF_CAPACITY + 2) entries edit else .ok entries)
  return entries.mergeSort fun a b => decide (a.start ≤ b.start)

/-- One child of a branch under an edit: kept, detached when a ZERO range covers it, or modified in
turn by `modify`. -/
def modifyChild (edit : Extent)
    (modify : Editor → Node → Cursor → Except IoError (List Child × Editor))
    (s : List Child × Editor) (next : Child × Cursor) : Except IoError (List Child × Editor) :=
  if edit.stop ≤ next.2.lower ∨ edit.start ≥ next.2.upper then do
    let children ← tryPush (BRANCH_CAPACITY + 2) s.1 next.1
    return (children, s.2)
  else if edit.hash.isNone ∧ edit.start ≤ next.2.lower ∧ edit.stop ≥ next.2.upper then
    .ok s
  else do
    let node ← s.2.read next.2
    let (replacement, e) ← modify s.2 node next.2
    let children ← tryExtend (BRANCH_CAPACITY + 2) s.1 replacement
    return (children, e)

/-- `Editor::modify`: the links that replace the node under `c`. The recursion is bounded by the
level, as in `Tree.visit`. -/
def modify (edit : Extent) : Nat → Editor → Node → Cursor → Except IoError (List Child × Editor)
  | 0, _, _, _ => .error ⟨.other, "unreachable"⟩
  | fuel + 1, e, node, c =>
    let unchanged : Child := ⟨node.minimum, c.offset⟩
    match node with
    | .leaf original => do
      let entries ← leafEntries original edit
      if entries = original then return ([unchanged], e) else e.leaves entries
    | .branch original => do
      let (children, e) ← (original.zip (c.kids original)).foldlM
        (modifyChild edit (modify edit fuel)) ([], e)
      if children = original then return ([unchanged], e) else e.branches c.level children

/-- Replace the root by the links that came back from its modification. -/
def regrow (e : Editor) (links : List Child) : Except IoError Editor :=
  match links with
  | [] => .ok { e with root := .empty }
  | [link] => .ok { e with root := ⟨link.offset, e.root.height⟩ }
  | _ => do
    require (e.root.height < MAX_HEIGHT) "manifest height exhausted"
    let (top, e) ← e.branches e.root.height links
    return { e with root := ⟨(top.head?).elim 0 Child.offset, e.root.height + 1⟩ }

/-- Drop root branches with one child. The turns are bounded by the height. -/
def collapse : Nat → Editor → Except IoError Editor
  | 0, e => .ok e
  | fuel + 1, e =>
    if e.root.height > 1 then do
      match ← e.read e.rootCursor with
      | .leaf _ => .error ⟨.other, "unreachable"⟩
      | .branch children =>
        match children with
        | [child] => collapse fuel { e with root := ⟨child.offset, e.root.height - 1⟩ }
        | _ => return e
    else .ok e

def apply (e : Editor) (edit : Extent) : Except IoError Editor :=
  if edit.hash = none ∧ edit.start = 0 ∧ edit.stop = e.imageBytes / BLOCK_SIZE then
    .ok { e with root := .empty }
  else if e.root.offset = 0 then
    if edit.hash.isSome then do
      let (links, e) ← e.leaves [edit]
      return { e with root := ⟨(links.head?).elim 0 Child.offset, 1⟩ }
    else .ok e
  else do
    let node ← e.read e.rootCursor
    let (links, e) ← modify edit e.root.height e node e.rootCursor
    let e ← e.regrow links
    collapse e.root.height e

/-- Emit the draft pages under `c`, children first; committed pages are shared. The starts of the
children do not change, so their cursors are those computed before the loop. -/
def emit (e : Editor) : Nat → Cursor → List Bytes → Except IoError (Nat × List Bytes)
  | 0, _, _ => .error ⟨.other, "unreachable"⟩
  | fuel + 1, c, output =>
    if c.offset < e.tree.stop then .ok (c.offset, output)
    else do
      match ← e.read c with
      | .leaf entries =>
        let offset := e.tree.stop + output.length * BLOCK_SIZE
        pushZeroed e.limit output
        let page ← leafInto offset e.imageBytes entries
        return (offset, output ++ [page])
      | .branch children => do
        let (children, output) ← (children.zip (c.kids children)).foldlM
          (fun (s : List Child × List Bytes) (next : Child × Cursor) => do
            let (offset, output) ← emit e fuel next.2 s.2
            return (s.1 ++ [{ next.1 with offset }], output))
          ([], output)
        let offset := e.tree.stop + output.length * BLOCK_SIZE
        pushZeroed e.limit output
        let page ← branchInto offset e.imageBytes c.level children
        return (offset, output ++ [page])

/-- One turn of the edit loop of `Prepared::build`, with the largest page count of an edit. -/
def applyBounded (s : Editor × Nat) (edit : Extent) : Except IoError (Editor × Nat) := do
  let bound := 8 * max s.1.root.height 1 + 8
  let e ← s.1.apply edit
  let emitted := e.buffer.length - s.1.buffer.length
  require (emitted ≤ bound) "COW edit exceeded 8H+8 pages"
  return (e, max s.2 emitted)

/-- The reachable pages of the draft and its root after rebasing. -/
def emitRoot (e : Editor) : Except IoError (Root × List Bytes) :=
  if e.root.offset = 0 then .ok (e.root, [])
  else do
    let (offset, output) ← e.emit e.root.height e.rootCursor []
    return (⟨offset, e.root.height⟩, output)

end Editor

/-- A complete transaction, owned until its caller has completed the IO. -/
structure Prepared where
  pages : List Bytes
  previous : Commit
  commit : Commit
  offset : Nat
  maxPagesPerChange : Nat

namespace Prepared

def bytes (p : Prepared) : Bytes := p.pages.flatten

/-- The entry checks on the edits of a transaction. -/
def checkEdits (current : Commit) (edits : List Extent) (durable : Nat) :
    Except IoError Unit := do
  require (edits.length ≤ MAX_CHANGES ∧ durable ≥ current.durable ∧
    (edits = [] ∨ durable > current.durable)) "manifest transaction bounds"
  require (∀ edit ∈ edits, edit.start < edit.stop ∧ edit.stop ≤ current.imageBytes / BLOCK_SIZE ∧
    (edit.hash = none ∨ edit.stop - edit.start = 1)) "manifest edit range"

/-- Pages reserved for a transaction: the bound for each edit and one COMMIT. -/
def plan (edits : List Extent) : Nat := edits.length * (8 * MAX_HEIGHT + 8) + 1

def build [Digest] (source : PageReader) (current : Commit) (stop : Nat) (edits : List Extent)
    (durable : Nat) : Except IoError Prepared := do
  checkEdits current edits durable
  match checkedAdd current.generation 1 with
  | none => .error ⟨.other, "manifest generations exhausted"⟩
  | some generation =>
    require (plan edits * BLOCK_SIZE ≤ MAX_TRANSACTION_BYTES ∧
      (checkedAdd stop (plan edits * BLOCK_SIZE)).any fun n => n ≤ I64_MAX) "manifest output bound"
    let tree ← Tree.new source current stop
    let (editor, maxPagesPerChange) ← edits.foldlM Editor.applyBounded
      (⟨tree, [], plan edits, current.root⟩, 0)
    let (root, output) ← editor.emitRoot
    let commit := { current with root, generation, durable }
    pushZeroed (plan edits) output
    let page ← commit.encode (stop + output.length * BLOCK_SIZE)
    return {
      pages := output ++ [page], previous := current, commit, offset := stop, maxPagesPerChange }

end Prepared

end Cas.Manifest
