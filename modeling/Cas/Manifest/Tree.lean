import Cas.Direct
import Cas.Manifest.Pages

/-!
# Checked tree traversal (`manifest/tree.rs`, `tree/node.rs`, `tree/lookup.rs`)

A page source answers one aligned page read. Walking and lookup decode every page they read and
check it against the bounds inherited from its parent. The traversal recursion is bounded by the
level of the cursor, which every step down lowers by one; a page of level 0 is never a branch, so
the bound is never what stops it.
-/

namespace Cas.Manifest

/-- `tree::PageReader`: read exactly one aligned page. -/
abbrev PageReader := Nat → Except IoError Bytes

/-- `impl PageReader for File`. -/
def filePages (file : Bytes) : PageReader := fun offset => readBytes file offset BLOCK_SIZE

/-- Tree pages precede the COMMIT page that ends a view. -/
def requireBeforeCommit (offset stop : Nat) : Except IoError Unit :=
  require (offset < stop - BLOCK_SIZE) "tree page beyond COMMIT"

def validateView (commit : Commit) (stop : Nat) : Except IoError Unit := do
  require (stop ≥ 2 * BLOCK_SIZE ∧ stop % BLOCK_SIZE = 0 ∧ stop ≤ I64_MAX) "manifest committed end"
  commit.validate (stop - BLOCK_SIZE)

/-! ## Nodes -/

/-- A page to read, with what its parent says about it. -/
structure Cursor where
  offset : Nat
  level : Nat
  minimum : Option Nat
  lower : Nat
  upper : Nat

namespace Cursor

def root (commit : Commit) : Cursor where
  offset := commit.root.offset
  level := commit.root.height - 1
  minimum := none
  lower := 0
  upper := commit.imageBytes / BLOCK_SIZE

def child (c : Cursor) (children : List Child) (index : Nat) : Cursor :=
  let child := children.getD index ⟨0, 0⟩
  { offset := child.offset
    level := c.level - 1
    minimum := some child.start
    lower := if index = 0 then c.lower else child.start
    upper := (children[index + 1]?).elim c.upper Child.start }

/-- The cursors of all children of a branch, in order. -/
def kids (c : Cursor) (children : List Child) : List Cursor :=
  (List.range children.length).map (c.child children)

end Cursor

inductive Node
  | leaf (entries : List Extent)
  | branch (children : List Child)
  deriving DecidableEq

namespace Node

/-- A decoded node has an entry; the default is never read. -/
def minimum : Node → Nat
  | leaf entries => (entries.head?).elim 0 Extent.start
  | branch children => (children.head?).elim 0 Child.start

/-- The entries of a tree page, checked against the bounds its parent gives it. -/
def read (page : Page) (cursor : Cursor) : Except IoError Node :=
  match page.kind with
  | .leaf => do
    let entries ← page.extents
    require (∀ e ∈ entries, e.start ≥ cursor.lower ∧ e.stop ≤ cursor.upper)
      "manifest leaf escapes parent bounds"
    return .leaf entries
  | .branch => do
    let children ← page.children
    require (∀ c ∈ children, c.start ≥ cursor.lower ∧ c.start < cursor.upper)
      "manifest branch escapes parent bounds"
    return .branch children
  | _ => .error ⟨.invalidData, "tree points to a non-tree page"⟩

/-- `Node::decode`. -/
def decode (page : Page) (cursor : Cursor) : Except IoError Node := do
  require (page.level = cursor.level) "manifest child level"
  let node ← read page cursor
  require (cursor.minimum.all (· = node.minimum)) "manifest child minimum differs from parent"
  return node

end Node

/-! ## Traversal -/

/-- A committed view over a page source. `stop` is the byte after the committed transaction. -/
structure Tree where
  source : PageReader
  commit : Commit
  stop : Nat

namespace Tree

/-- `Tree::new`. -/
def new (source : PageReader) (commit : Commit) (stop : Nat) : Except IoError Tree := do
  validateView commit stop
  return ⟨source, commit, stop⟩

variable [Digest]

def readNode (t : Tree) (c : Cursor) : Except IoError Node := do
  requireBeforeCommit c.offset t.stop
  let bytes ← t.source c.offset
  let page ← Page.decode bytes c.offset t.commit.imageBytes
  Node.decode page c

/-- `Tree::visit` with a state threaded through both visitors. -/
def visit {σ : Type} (t : Tree) (page : σ → Nat → Except IoError σ)
    (visitor : σ → Extent → Except IoError σ) : Nat → Cursor → σ → Except IoError σ
  | 0, _, _ => .error ⟨.other, "unreachable"⟩
  | fuel + 1, c, s => do
    let node ← t.readNode c
    let s ← page s c.offset
    match node with
    | .leaf entries => entries.foldlM visitor s
    | .branch children => (c.kids children).foldlM (fun s c => visit t page visitor fuel c s) s

def walkPages {σ : Type} (t : Tree) (page : σ → Nat → Except IoError σ)
    (visitor : σ → Extent → Except IoError σ) (s : σ) : Except IoError σ :=
  if t.commit.root.offset ≠ 0 then
    t.visit page visitor ((Cursor.root t.commit).level + 1) (Cursor.root t.commit) s
  else .ok s

def walk {σ : Type} (t : Tree) (visitor : σ → Extent → Except IoError σ) (s : σ) :
    Except IoError σ :=
  t.walkPages (fun s _ => .ok s) visitor s

end Tree

/-! ## Lookup -/

inductive LookupState
  | page (offset level : Nat)
  | complete (hash : Option Hash)
  deriving DecidableEq

/-- One checked descent, driven either by synchronous reads or page completions. -/
structure Lookup where
  imageBytes : Nat
  stop : Nat
  block : Nat
  cursor : Option Cursor
  result : Option Hash
  failed : Bool

/-- `Iterator::rposition`. -/
def rposition {α : Type} (p : α → Bool) (l : List α) : Option Nat :=
  (List.range l.length).reverse.find? fun i => (l[i]?).any p

namespace Lookup

def new (commit : Commit) (stop block : Nat) : Except IoError Lookup := do
  validateView commit stop
  require (block < commit.imageBytes / BLOCK_SIZE) "manifest lookup outside image"
  return {
    imageBytes := commit.imageBytes, stop, block
    cursor := if commit.root.offset ≠ 0 then some (Cursor.root commit) else none
    result := none, failed := false }

def state (l : Lookup) : Except IoError LookupState := do
  require (l.failed = false) "manifest lookup failed"
  match l.cursor with
  | some cursor =>
    requireBeforeCommit cursor.offset l.stop
    return .page cursor.offset cursor.level
  | none => return .complete l.result

/-- The step of `accept` on a decoded node. -/
def follow (l : Lookup) (cursor : Cursor) : Node → Lookup
  | .leaf entries =>
    { l with
      result := (entries.find? fun e => e.start ≤ l.block ∧ l.block < e.stop).bind Extent.hash
      cursor := none }
  | .branch children =>
    { l with
      cursor := (rposition (fun child => child.start ≤ l.block) children).map
        (cursor.child children) }

/-- The node of the page offered for `cursor`. -/
def offered [Digest] (l : Lookup) (cursor : Cursor) (offset : Nat) (bytes : Bytes) :
    Except IoError Node := do
  require (offset = cursor.offset) "manifest lookup completion offset"
  let page ← Page.decode bytes offset l.imageBytes
  Node.decode page cursor

/-- Accept only the requested full page. Invalid input poisons this lookup; a completed lookup
cannot accept another page. -/
def accept [Digest] (l : Lookup) (offset : Nat) (bytes : Bytes) :
    Lookup × Except IoError LookupState :=
  match l.state with
  | .error e => (l, .error e)
  | .ok _ =>
    match l.cursor with
    | none => (l, .error ⟨.other, "manifest lookup already complete"⟩)
    | some cursor =>
      match l.offered cursor offset bytes with
      | .error e => ({ l with failed := true }, .error e)
      | .ok node => (l.follow cursor node, (l.follow cursor node).state)

/-- The loop of `Tree::get`. -/
def run [Digest] (source : PageReader) : Nat → Lookup → Except IoError (Option Hash)
  | 0, _ => .error ⟨.other, "unreachable"⟩
  | fuel + 1, l => do
    match ← l.state with
    | .complete hash => return hash
    | .page offset _ =>
      let bytes ← source offset
      let (l, accepted) := l.accept offset bytes
      let _ ← accepted
      run source fuel l

end Lookup

def Tree.get [Digest] (t : Tree) (block : Nat) : Except IoError (Option Hash) := do
  let lookup ← Lookup.new t.commit t.stop block
  lookup.run t.source (t.commit.root.height + 1)

end Cas.Manifest
