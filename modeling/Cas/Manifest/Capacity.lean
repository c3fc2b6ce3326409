import Cas.Manifest.Build

/-!
# One edit fits its bounds

An edit rewrites the nodes on the paths to its two ends and no others, so it grows a node by two
entries at most and appends two pages for each node it rewrites (`Editor.modify_ok`). None of the
fixed-capacity vectors of the editor overflows, and every page it writes passes its own decoder
(`Editor.apply_ok`).
-/

namespace Cas.Manifest

open List
open Except (bind_eq_ok ok_bind)

open Interval (Ordered cut assign)

/-! ## Nodes -/

/-- A chunk is one block. -/
def Extent.OneBlock (e : Extent) : Prop := e.hash.isSome = true → e.stop = e.start + 1

section Nodes

variable [Digest] {imageBytes : Nat} {P : PageMap} (hP : P.Decoded imageBytes) {c : Cursor}
include hP

theorem leaf_capacity_of_nodeAt {entries : List Extent} (h : nodeAt P c = .ok (.leaf entries)) :
    entries.length ≤ LEAF_CAPACITY ∧ ∀ e ∈ entries, e.OneBlock := by
  obtain ⟨p, hp, hd⟩ := bind_eq_ok.1 h
  obtain ⟨b, hb⟩ := hP _ _ hp
  obtain ⟨-, hr, -⟩ := Node.decode_eq_ok.1 hd
  obtain ⟨hk, rfl, -⟩ := Node.read_eq_leaf.1 hr
  have hv := Page.validate_of_decode hb
  rw [Page.validate, hk] at hv
  obtain ⟨⟨-, -, hcount⟩, -⟩ := require_bind_eq_ok.1 hv
  refine ⟨by simpa [Page.extentSlots] using hcount, fun e he hs => ?_⟩
  obtain ⟨slot, hslot, rfl⟩ := mem_map.1 he
  obtain ⟨-, -, ho, hcan⟩ := Page.leaf_of_decode hb hk
  have hlt := (ho.mem _ he).2.1
  simp only [Interval.start, Interval.stop] at hlt
  obtain ⟨-, ⟨-, hone⟩ | ⟨hzero, -⟩⟩ := hcan slot hslot
  · omega
  · rw [Extent.decode, hzero] at hs
    simp at hs

theorem branch_capacity_of_nodeAt {children : List Child}
    (h : nodeAt P c = .ok (.branch children)) : children.length ≤ BRANCH_CAPACITY := by
  obtain ⟨p, hp, hd⟩ := bind_eq_ok.1 h
  obtain ⟨b, hb⟩ := hP _ _ hp
  obtain ⟨-, hr, -⟩ := Node.decode_eq_ok.1 hd
  obtain ⟨hk, rfl, -⟩ := Node.read_eq_branch.1 hr
  have hv := Page.validate_of_decode hb
  rw [Page.validate, hk] at hv
  obtain ⟨⟨-, -, -, hcount⟩, -⟩ := require_bind_eq_ok.1 hv
  simpa [Page.childSlots] using hcount

end Nodes

theorem Forest.pairwise {γ : Type} {W : Cursor → List γ → Prop} {level upper : Nat} :
    ∀ {lower : Nat} {cs : List Child} {out : List γ}, Forest W level lower upper cs out →
      cs.Pairwise (·.start < ·.start)
  | _, [], _, _ => List.Pairwise.nil
  | _, _ :: _, _, ⟨_, h2, _, _, _, _, h5⟩ =>
    pairwise_cons.2
      ⟨fun d hd => lt_of_lt_of_le h2 (h5.bounds d hd).1, h5.pairwise⟩

/-! ## Writing parts -/

theorem length_chunksAux {α : Type} {width : Nat} : ∀ {fuel k : Nat} {l : List α},
    l.length ≤ k * width →
      (chunksAux width fuel l).length ≤ k ∧ ∀ part ∈ chunksAux width fuel l, part.length ≤ width
  | 0, _, _, _ => ⟨Nat.zero_le _, fun _ hp => by cases hp⟩
  | fuel + 1, k, l, h => by
    rw [chunksAux]
    split
    · exact ⟨Nat.zero_le _, fun _ hp => by cases hp⟩
    · rename_i hne
      have hpos := length_pos_iff.2 hne
      cases k with
      | zero => omega
      | succ k =>
        have hrest : (l.drop width).length ≤ k * width := by
          rw [length_drop]
          rw [Nat.succ_mul] at h
          omega
        obtain ⟨h1, h2⟩ := length_chunksAux hrest
        exact ⟨by rw [length_cons]; omega,
          forall_mem_cons.2 ⟨by rw [length_take]; omega, h2⟩⟩

/-- Entries that outgrew their node by two at most make two parts that fit. -/
theorem chunks_fit {α : Type} {capacity : Nat} {l : List α} (hcap : 3 ≤ capacity)
    (hl : l.length ≤ capacity + 2) :
    let width := if l.length > capacity then (l.length + 1) / 2 else max l.length 1
    (chunks width l).length ≤ 2 ∧ ∀ part ∈ chunks width l,
      part ≠ [] ∧ part.length ≤ capacity ∧ part <:+: l := by
  intro width
  have hw := width_pos capacity l.length
  have hwc : width ≤ capacity := by
    simp only [width]
    split <;> omega
  have hlw : l.length ≤ 2 * width := by
    simp only [width]
    split <;> omega
  have hchunks : (chunks width l).length ≤ 2 ∧ ∀ part ∈ chunks width l, part.length ≤ width :=
    length_chunksAux hlw
  obtain ⟨hlen, hparts⟩ := hchunks
  obtain ⟨hflat, hne⟩ := flatten_chunks hw l
  refine ⟨hlen, fun part hp => ⟨hne part hp, (hparts part hp).trans hwc, ?_⟩⟩
  have := infix_of_mem_flatten hp
  rwa [hflat] at this

namespace Editor

/-- Where the pages of a transaction go: after a whole number of pages, within the address space. -/
structure Placed (e : Editor) : Prop where
  image : e.imageBytes ≠ 0 ∧ e.imageBytes % BLOCK_SIZE = 0
  bytes : e.imageBytes < U64
  stop : e.tree.stop ≠ 0 ∧ e.tree.stop % BLOCK_SIZE = 0
  bound : e.tree.stop + e.limit * BLOCK_SIZE < U64

theorem Placed.of_extends {e e' : Editor} (h : e.Placed) (hx : e.Extends e') : e'.Placed := by
  obtain ⟨h1, h2, h3, h4⟩ := h
  refine ⟨?_, ?_, ?_, ?_⟩
  · rwa [hx.imageBytes]
  · rwa [hx.imageBytes]
  · rwa [hx.tree]
  · rwa [hx.tree, hx.limit]

theorem Placed.nextOffset {e : Editor} (h : e.Placed) (hroom : e.buffer.length < e.limit) :
    e.nextOffset < U64 ∧ e.nextOffset ≠ 0 ∧ e.nextOffset % BLOCK_SIZE = 0 := by
  obtain ⟨h1, h2⟩ := h.stop
  have hle : e.buffer.length * BLOCK_SIZE ≤ e.limit * BLOCK_SIZE :=
    Nat.mul_le_mul_right _ hroom.le
  unfold Editor.nextOffset
  refine ⟨lt_of_le_of_lt (Nat.add_le_add_left hle _) h.bound, ?_, ?_⟩
  · exact ne_of_gt (lt_of_lt_of_le (Nat.pos_of_ne_zero h1) (Nat.le_add_right _ _))
  · rw [Nat.add_mul_mod_self_right]
    exact h2

theorem Extends.nextOffset {e e' : Editor} (h : e.Extends e') : e.nextOffset ≤ e'.nextOffset := by
  unfold Editor.nextOffset
  rw [h.tree]
  exact Nat.add_le_add_left (Nat.mul_le_mul_right _ h.buffer.length_le) _

theorem foldlM_writePart_ok {α : Type} {start : α → Nat}
    {write : Nat → List α → Except IoError Bytes} {e₀ : Editor} {parts : List (List α)}
    (hwrite : ∀ e : Editor, e₀.Extends e → e.buffer.length < e.limit → ∀ part ∈ parts,
      ∃ page, write e.nextOffset part = .ok page) :
    ∀ {e : Editor} (links : List Child), e₀.Extends e → links.length + parts.length ≤ 2 →
      e.buffer.length + parts.length ≤ e.limit →
      ∃ links' e', parts.foldlM (fun (s : List Child × Editor) part =>
        s.2.writePart s.1 (fun offset => write offset part) ((part.head?).elim 0 start))
        (links, e) = .ok (links', e') ∧ e'.buffer.length = e.buffer.length + parts.length := by
  induction parts with
  | nil =>
    intro e links _ _ _
    exact ⟨links, e, rfl, rfl⟩
  | cons part parts ih =>
    intro e links hx hlinks hroom
    rw [length_cons] at hlinks hroom
    obtain ⟨page, hpage⟩ := hwrite e hx (by omega) part (by simp)
    have hstep : e.Extends { e with buffer := e.buffer ++ [page] } :=
      ⟨rfl, rfl, rfl, prefix_append _ _⟩
    have hone : e.writePart links (fun offset => write offset part) ((part.head?).elim 0 start) =
        .ok (links ++ [⟨(part.head?).elim 0 start, e.nextOffset⟩],
          { e with buffer := e.buffer ++ [page] }) :=
      bind_eq_ok.2 ⟨(), pushZeroed_eq_ok.2 (by omega), bind_eq_ok.2 ⟨page, hpage,
        bind_eq_ok.2 ⟨_, tryPush_eq_ok.2 ⟨by omega, rfl⟩, rfl⟩⟩⟩
    obtain ⟨links', e', hfold, hlen⟩ := ih
      (fun e hx hr p hp => hwrite e hx hr p (mem_cons_of_mem _ hp))
      (links ++ [⟨(part.head?).elim 0 start, e.nextOffset⟩]) (hx.trans hstep)
      (by rw [length_append, length_singleton]; omega)
      (by rw [length_append, length_singleton]; simp only; omega)
    refine ⟨links', e', ?_, ?_⟩
    · rw [foldlM_cons, hone]
      exact hfold
    · rw [hlen, length_append, length_singleton, length_cons]
      omega

/-- Entries that outgrew their node by two at most are written in two pages. -/
theorem writeParts_ok {α : Type} {e : Editor} {capacity : Nat} {start : α → Nat}
    {write : Nat → List α → Except IoError Bytes} {entries : List α} (hcap : 3 ≤ capacity)
    (hlen : entries.length ≤ capacity + 2) (hroom : e.buffer.length + 2 ≤ e.limit)
    (hwrite : ∀ e' : Editor, e.Extends e' → e'.buffer.length < e'.limit → ∀ part, part ≠ [] →
      part.length ≤ capacity → part <:+: entries → ∃ page, write e'.nextOffset part = .ok page) :
    ∃ links e', e.writeParts capacity start write entries = .ok (links, e') ∧
      e'.buffer.length ≤ e.buffer.length + 2 := by
  obtain ⟨hcount, hparts⟩ := chunks_fit hcap hlen
  unfold writeParts
  obtain ⟨links, e', h, hb⟩ := foldlM_writePart_ok (fun e' hx hr part hp =>
    hwrite e' hx hr part (hparts part hp).1 (hparts part hp).2.1 (hparts part hp).2.2) []
    (Extends.refl e) (by simpa using hcount) (by omega)
  exact ⟨links, e', h, by omega⟩

variable [Digest]

theorem offset_lt_nextOffset {e : Editor} {c : Cursor} {node : Node}
    (h : nodeAt e.pages c = .ok node) : c.offset < e.nextOffset := by
  obtain ⟨p, hp, -⟩ := bind_eq_ok.1 h
  unfold nextOffset
  unfold pages at hp
  split at hp
  · omega
  · have := (draft_eq_ok.1 hp).1.2
    omega

/-- The children of a forest in the draft may be linked by its next page. -/
theorem links_of_forest {e : Editor} {n lo hi : Nat} {children : List Child} {es : List Extent}
    (hhi : hi ≤ e.imageBytes / BLOCK_SIZE) (hf : Forest (Holds e.pages n) n lo hi children es) :
    ∀ d ∈ children, d.start < e.imageBytes / BLOCK_SIZE ∧
      (d.offset ≠ 0 ∧ d.offset % BLOCK_SIZE = 0) ∧ d.offset < e.nextOffset := by
  intro d hd
  obtain ⟨c, a, hc, ha⟩ := hf.exists_of_mem d hd
  obtain ⟨node, hnode⟩ := ha.nodeAt
  rw [← hc]
  exact ⟨lt_of_lt_of_le (hf.bounds d hd).2 hhi, offset_of_nodeAt e.pages_decoded hnode,
    offset_lt_nextOffset hnode⟩

section Write

variable {e : Editor} (he : e.Placed) (hroom : e.buffer.length + 2 ≤ e.limit)
include he hroom

theorem leaves_ok {entries : List Extent} (hlen : entries.length ≤ LEAF_CAPACITY + 2)
    (hord : Ordered 0 (e.imageBytes / BLOCK_SIZE) entries) (hone : ∀ x ∈ entries, x.OneBlock) :
    ∃ links e', e.leaves entries = .ok (links, e') ∧ e'.buffer.length ≤ e.buffer.length + 2 := by
  refine writeParts_ok (by decide) hlen hroom fun e' hx hr part hne hcap hsub => ?_
  obtain ⟨h1, h2⟩ := (he.of_extends hx).nextOffset hr
  exact leafInto_ok h1 h2 he.image he.bytes hne hcap (hord.contiguous hsub)
    fun x hx => hone x (hsub.subset hx)

theorem branches_ok (level : Nat) {n lo hi : Nat} {children : List Child} {es : List Extent}
    (hlevel : 1 ≤ level ∧ level < MAX_HEIGHT) (hlen : children.length ≤ BRANCH_CAPACITY + 2)
    (hhi : hi ≤ e.imageBytes / BLOCK_SIZE)
    (hf : Forest (Holds e.pages n) n lo hi children es) :
    ∃ links e', e.branches level children = .ok (links, e') ∧
      e'.buffer.length ≤ e.buffer.length + 2 := by
  refine writeParts_ok (by decide) hlen hroom fun e' hx hr part hne hcap hsub => ?_
  obtain ⟨h1, h2⟩ := (he.of_extends hx).nextOffset hr
  refine branchInto_ok h1 h2 he.image he.bytes hlevel hne hcap
    (hf.pairwise.sublist hsub.sublist) fun d hd => ?_
  obtain ⟨h3, h4, h5⟩ := links_of_forest hhi hf d (hsub.subset hd)
  exact ⟨h3, h4, lt_of_lt_of_le h5 hx.nextOffset⟩

end Write

/-! ## The entries of a leaf -/

omit [Digest] in
theorem keepOutside_ok {edit entry : Extent} {acc : List Extent}
    (h : acc.length + (Interval.pieces edit.start edit.stop entry).length ≤ LEAF_CAPACITY + 2) :
    keepOutside edit acc entry = .ok (acc ++ Interval.pieces edit.start edit.stop entry) := by
  change acc.length + length (if entry.stop ≤ edit.start ∨ entry.start ≥ edit.stop then [entry]
    else (if entry.start < edit.start then [{ entry with stop := edit.start }] else []) ++
      (if entry.stop > edit.stop then [{ entry with start := edit.stop }] else [])) ≤ _ at h
  change _ = Except.ok (acc ++ if entry.stop ≤ edit.start ∨ entry.start ≥ edit.stop then [entry] else
    (if entry.start < edit.start then [{ entry with stop := edit.start }] else []) ++
      (if entry.stop > edit.stop then [{ entry with start := edit.stop }] else []))
  unfold keepOutside
  split
  · rename_i ho
    rw [if_pos ho, length_singleton] at h
    exact tryPush_eq_ok.2 ⟨by omega, rfl⟩
  · rename_i ho
    rw [if_neg ho] at h
    by_cases hl : entry.start < edit.start <;> by_cases hr : entry.stop > edit.stop <;>
    simp only [hl, hr, if_true, if_false, length_append, length_singleton,
      length_nil, append_nil, nil_append] at h ⊢
    · rw [tryPush_eq_ok.2 ⟨by omega, rfl⟩, ok_bind,
        tryPush_eq_ok.2 ⟨by rw [length_append, length_singleton]; omega, rfl⟩,
        append_assoc]
    · rw [tryPush_eq_ok.2 ⟨by omega, rfl⟩]
      rfl
    · rw [ok_bind, tryPush_eq_ok.2 ⟨by omega, rfl⟩]
    · rfl

omit [Digest] in
theorem foldlM_keepOutside_ok {edit : Extent} : ∀ {original acc : List Extent},
    acc.length + (cut edit.start edit.stop original).length ≤ LEAF_CAPACITY + 2 →
      original.foldlM (keepOutside edit) acc = .ok (acc ++ cut edit.start edit.stop original)
  | [], acc, _ => by
    rw [Interval.cut_nil, append_nil]
    rfl
  | entry :: original, acc, h => by
    rw [Interval.cut_cons, length_append] at h
    rw [foldlM_cons, keepOutside_ok (by omega), ok_bind,
      foldlM_keepOutside_ok (by rw [length_append]; omega), Interval.cut_cons,
      append_assoc]

omit [Digest] in
theorem leafEntries_ok (edit : Extent) {original : List Extent} {lo hi : Nat}
    (hlen : original.length ≤ LEAF_CAPACITY) (ho : Ordered lo hi original) :
    ∃ entries, leafEntries original edit = .ok entries ∧ entries.length ≤ LEAF_CAPACITY + 2 := by
  have hcut := Interval.length_cut_le (s := edit.start) (e := edit.stop) ho
  unfold leafEntries
  rw [foldlM_keepOutside_ok (by rw [length_nil]; omega), ok_bind, nil_append]
  split
  · rw [tryPush_eq_ok.2 ⟨by omega, rfl⟩]
    exact ⟨_, rfl, by rw [length_mergeSort, length_append, length_singleton]; omega⟩
  · exact ⟨_, rfl, by rw [length_mergeSort]; omega⟩

omit [Digest] in
theorem oneBlock_applyEdit {edit : Extent} (he : edit.Proper) {lo hi : Nat} {es : List Extent}
    (ho : Ordered lo hi es) (h : ∀ x ∈ es, x.OneBlock) : ∀ x ∈ applyEdit edit es, x.OneBlock := by
  have hcut : ∀ x ∈ cut edit.start edit.stop es, x.OneBlock := by
    intro x hx
    obtain ⟨a, ha, hx⟩ := mem_flatMap.1 hx
    have hone := h a ha
    unfold Interval.pieces at hx
    split at hx
    · rw [mem_singleton.1 hx]
      exact hone
    · rename_i hmeet
      simp only [Interval.start, Interval.stop] at hmeet hx
      -- what is left of an entry keeps its hash
      rcases mem_append.1 hx with hx | hx <;> split at hx
      · rename_i hl
        rw [mem_singleton.1 hx]
        intro hs
        have := hone hs
        omega
      · cases hx
      · rename_i hr
        rw [mem_singleton.1 hx]
        intro hs
        have := hone hs
        omega
      · cases hx
  unfold applyEdit
  split
  · intro x hx
    have hperm : (assign edit es).Perm (edit :: cut edit.start edit.stop es) := by
      rw [assign, ho.cut_eq he.nonempty]
      exact perm_middle
    rcases mem_cons.1 (hperm.subset hx) with rfl | hx
    · exact he.chunk
    · exact hcut x hx
  · exact hcut

/-! ## The paths of an edit -/

/-- How many of the two ends of an edit lie in `[lo, hi)`: its first block and its last. -/
def ends (edit : Extent) (lo hi : Nat) : Nat :=
  (if lo ≤ edit.start ∧ edit.start < hi then 1 else 0) +
    (if lo < edit.stop ∧ edit.stop ≤ hi then 1 else 0)

omit [Digest] in
theorem ends_add (edit : Extent) {lo mid hi : Nat} (h1 : lo ≤ mid) (h2 : mid ≤ hi) :
    ends edit lo hi = ends edit lo mid + ends edit mid hi := by
  unfold ends
  split <;> split <;> split <;> split <;> split <;> split <;> omega

omit [Digest] in
theorem ends_le_two (edit : Extent) (lo hi : Nat) : ends edit lo hi ≤ 2 := by
  unfold ends
  split <;> split <;> omega

omit [Digest] in
/-- A range that an edit meets and that no ZERO edit covers holds an end of it. -/
theorem ends_pos {edit : Extent} (he : edit.Proper) {lo hi : Nat}
    (hmeet : ¬ (edit.stop ≤ lo ∨ edit.start ≥ hi))
    (hcover : ¬ (edit.hash.isNone = true ∧ edit.start ≤ lo ∧ edit.stop ≥ hi)) :
    1 ≤ ends edit lo hi := by
  have hne := he.nonempty
  have hcase : edit.stop = edit.start + 1 ∨ ¬ (edit.start ≤ lo ∧ edit.stop ≥ hi) := by
    cases hh : edit.hash with
    | none => exact .inr fun h => hcover ⟨by rw [hh]; rfl, h⟩
    | some v => exact .inl (he.chunk (by rw [hh]; rfl))
  unfold ends
  split <;> split <;> omega

section Children

variable {edit : Extent} {n : Nat}
  {modify : Editor → Node → Cursor → Except IoError (List Child × Editor)}
  (he : edit.Proper)
  (hforest : ∀ {e e' : Editor} {node : Node} {c : Cursor} {links : List Child} {es : List Extent},
    Holds e.pages n c es → c.upper < U64 → nodeAt e.pages c = .ok node →
    (edit.hash.isSome = true → c.lower ≤ edit.start ∧ edit.stop ≤ c.upper) →
    modify e node c = .ok (links, e') →
    e.Extends e' ∧ Forest (Holds e'.pages n) n c.lower c.upper links (applyEdit edit es))
  (hlength : ∀ {e e' : Editor} {node : Node} {c : Cursor} {links : List Child},
    modify e node c = .ok (links, e') → links.length ≤ 2)
  (hmodify : ∀ {e : Editor} {node : Node} {c : Cursor} {es : List Extent}, e.Placed →
    Holds e.pages n c es → c.upper ≤ e.imageBytes / BLOCK_SIZE → nodeAt e.pages c = .ok node →
    (edit.hash.isSome = true → c.lower ≤ edit.start ∧ edit.stop ≤ c.upper) →
    1 ≤ ends edit c.lower c.upper →
    e.buffer.length + 2 * (n + 1) * ends edit c.lower c.upper ≤ e.limit →
    ∃ links e', modify e node c = .ok (links, e') ∧
      e'.buffer.length ≤ e.buffer.length + 2 * (n + 1) * ends edit c.lower c.upper)

include he hlength hmodify in
/-- A child grows by as many links as it has ends of the edit, and costs pages only if it has one. -/
theorem modifyChild_ok {s : List Child × Editor} (child : Child) {c : Cursor} {es : List Extent}
    (hp : s.2.Placed) (hu : c.upper ≤ s.2.imageBytes / BLOCK_SIZE) (hh : Holds s.2.pages n c es)
    (hcount : s.1.length + 1 + ends edit c.lower c.upper ≤ BRANCH_CAPACITY + 2)
    (hroom : s.2.buffer.length + 2 * (n + 1) * ends edit c.lower c.upper ≤ s.2.limit) :
    ∃ s', modifyChild edit modify s (child, c) = .ok s' ∧
      s'.1.length ≤ s.1.length + 1 + ends edit c.lower c.upper ∧
      s'.2.buffer.length ≤ s.2.buffer.length + 2 * (n + 1) * ends edit c.lower c.upper := by
  unfold modifyChild
  split
  · rw [tryPush_eq_ok.2 ⟨by omega, rfl⟩, ok_bind]
    exact ⟨_, rfl, by rw [length_append, length_singleton]; omega, by simp only; omega⟩
  · split
    · exact ⟨_, rfl, by omega, by omega⟩
    · rename_i hmeet hcover
      have hin : edit.hash.isSome = true → c.lower ≤ edit.start ∧ edit.stop ≤ c.upper := by
        intro hs
        have := he.chunk hs
        simp only [not_or, not_le, ge_iff_le] at hmeet
        omega
      have hpos : 1 ≤ ends edit c.lower c.upper := ends_pos he hmeet hcover
      obtain ⟨node, hnode⟩ := hh.nodeAt
      obtain ⟨links, e', hmod, hbuf⟩ := hmodify hp hh hu hnode hin hpos hroom
      have hlen := hlength hmod
      rw [read_eq, hnode, ok_bind, hmod, ok_bind]
      dsimp only
      rw [tryExtend_eq_ok.2 ⟨by omega, rfl⟩]
      exact ⟨_, rfl, by rw [length_append]; omega, hbuf⟩

include he hforest hlength hmodify in
theorem foldlM_modifyChild_ok {upper : Nat} : ∀ {cs : List Child} {lower : Nat} {es : List Extent}
    {s : List Child × Editor}, s.2.Placed → upper ≤ s.2.imageBytes / BLOCK_SIZE → lower ≤ upper →
    Forest (Holds s.2.pages n) n lower upper cs es →
    s.1.length + cs.length + ends edit lower upper ≤ BRANCH_CAPACITY + 2 →
    s.2.buffer.length + 2 * (n + 1) * ends edit lower upper ≤ s.2.limit →
    ∃ s', (cs.zip (kidsFrom n lower upper cs)).foldlM (modifyChild edit modify) s = .ok s' ∧
      s'.1.length ≤ s.1.length + cs.length + ends edit lower upper ∧
      s'.2.buffer.length ≤ s.2.buffer.length + 2 * (n + 1) * ends edit lower upper := by
  intro cs
  induction cs with
  | nil =>
    intro lower es s _ _ _ _ _ _
    exact ⟨s, rfl, by omega, by omega⟩
  | cons child cs ih =>
    rintro lower es s hp hu hlo ⟨h1, h2, a, b, rfl, hw, hrest⟩ hcount hroom
    have hnext := hrest.nextStart_le
    have hlt : nextStart upper cs < U64 :=
      lt_of_le_of_lt (hnext.trans hu) (upper_lt hp.bytes)
    have hends := ends_add edit (show lower ≤ nextStart upper cs by omega) hnext
    rw [hends, mul_add] at hroom
    rw [hends, length_cons] at hcount
    obtain ⟨s₁, hs1, hlen1, hbuf1⟩ := modifyChild_ok he hlength hmodify child
      (c := ⟨child.offset, n, some child.start, lower, nextStart upper cs⟩) hp (hnext.trans hu)
      hw (by simp only; omega) (by simp only; omega)
    obtain ⟨new, -, hext, -⟩ := modifyChild_forest he hforest rfl h1 h2 hlt hw hs1
    simp only at hlen1 hbuf1
    obtain ⟨s₂, hs2, hlen2, hbuf2⟩ := ih (s := s₁) (hp.of_extends hext)
      (by rw [hext.imageBytes]; exact hu) hnext (hrest.mono fun _ _ => Holds.mono hext.pages)
      (by omega) (by rw [hext.limit]; omega)
    refine ⟨s₂, ?_, ?_, ?_⟩
    · rw [kidsFrom, zip_cons_cons, foldlM_cons, hs1]
      exact hs2
    · rw [hends, length_cons]
      omega
    · rw [hends, mul_add]
      omega

end Children

/-- An edit rewrites at most the nodes on the paths to its ends, each in two pages. -/
theorem modify_ok {edit : Extent} (he : edit.Proper) : ∀ {n : Nat} (fuel : Nat) {e : Editor}
    {node : Node} {c : Cursor} {es : List Extent}, n < fuel → e.Placed → Holds e.pages n c es →
    c.upper ≤ e.imageBytes / BLOCK_SIZE → nodeAt e.pages c = .ok node →
    (edit.hash.isSome = true → c.lower ≤ edit.start ∧ edit.stop ≤ c.upper) →
    1 ≤ ends edit c.lower c.upper →
    e.buffer.length + 2 * (n + 1) * ends edit c.lower c.upper ≤ e.limit →
    ∃ links e', modify edit fuel e node c = .ok (links, e') ∧
      e'.buffer.length ≤ e.buffer.length + 2 * (n + 1) * ends edit c.lower c.upper := by
  intro n
  induction n with
  | zero =>
    intro fuel e node c es hfuel hp hh hu hnode hin hpos hroom
    obtain ⟨fuel, rfl⟩ : ∃ k, fuel = k + 1 := ⟨fuel - 1, by omega⟩
    have hord := (hh.good e.pages_decoded).ordered
    have hleaf := hh.2
    rw [hnode] at hleaf
    cases hleaf
    obtain ⟨hcap, hone⟩ := leaf_capacity_of_nodeAt e.pages_decoded hnode
    obtain ⟨entries, hent, hlen⟩ := leafEntries_ok edit hcap hord
    have happly := leafEntries_eq hent hord he hin
    rw [modify, hent, ok_bind]
    split
    · exact ⟨_, _, rfl, by omega⟩
    · have hord' : Ordered 0 (e.imageBytes / BLOCK_SIZE) entries :=
        happly ▸ (ordered_applyEdit hord he hin).mono (Nat.zero_le _) hu
      obtain ⟨links, e', h, hb⟩ := leaves_ok hp (by omega) hlen hord'
        (happly ▸ oneBlock_applyEdit he hord hone)
      exact ⟨links, e', h, by omega⟩
  | succ n ih =>
    intro fuel e node c es hfuel hp hh hu hnode hin hpos hroom
    obtain ⟨fuel, rfl⟩ : ∃ k, fuel = k + 1 := ⟨fuel - 1, by omega⟩
    have hord := (hh.good e.pages_decoded).ordered
    have hle := hord.bounds_le (hh.good e.pages_decoded).nonempty
    obtain ⟨hlev, original, hbranch, hf⟩ := hh
    rw [hnode] at hbranch
    cases hbranch
    obtain ⟨hl, hne, -⟩ := branch_of_nodeAt e.pages_decoded hnode
    have hcap := branch_capacity_of_nodeAt e.pages_decoded hnode
    have htwo := ends_le_two edit c.lower c.upper
    have hcost : 2 * (n + 1 + 1) * ends edit c.lower c.upper =
        2 * (n + 1) * ends edit c.lower c.upper + 2 * ends edit c.lower c.upper := by
      rw [← add_mul]
      congr 1
    rw [hcost] at hroom
    have hchild : ∀ {e : Editor} {node : Node} {c : Cursor} {es : List Extent}, e.Placed →
        Holds e.pages n c es → c.upper ≤ e.imageBytes / BLOCK_SIZE → nodeAt e.pages c = .ok node →
        (edit.hash.isSome = true → c.lower ≤ edit.start ∧ edit.stop ≤ c.upper) →
        1 ≤ ends edit c.lower c.upper →
        e.buffer.length + 2 * (n + 1) * ends edit c.lower c.upper ≤ e.limit →
        ∃ links e', modify edit fuel e node c = .ok (links, e') ∧
          e'.buffer.length ≤ e.buffer.length + 2 * (n + 1) * ends edit c.lower c.upper :=
      fun hp hh hu hn hin hpos hroom => ih fuel (by omega) hp hh hu hn hin hpos hroom
    obtain ⟨⟨children, e₁⟩, hfold, hlen, hbuf⟩ := foldlM_modifyChild_ok he
      (fun hh hu hn hin h => modify_forest he hh hu hn hin h) modify_length hchild
      (s := ([], e)) hp hu hle hf (by simp only [length_nil]; omega) (by simp only; omega)
    have hup : c.upper < U64 := lt_of_le_of_lt hu (upper_lt hp.bytes)
    obtain ⟨new, hnew, hext, hf'⟩ := foldlM_modifyChild_forest he
      (fun hh hu hn hin h => modify_forest he hh hu hn hin h) hup hle (fun h => (hne h).elim) hf hfold
    rw [nil_append] at hnew
    rw [← hnew] at hf'
    simp only [length_nil, zero_add] at hlen hbuf hext hf'
    rw [modify, Cursor.kids_eq, hlev, Nat.add_sub_cancel, hfold, Except.ok_bind]
    dsimp only
    rw [hcost]
    split
    · exact ⟨_, _, rfl, by omega⟩
    · obtain ⟨links, e', h, hb⟩ := branches_ok (hp.of_extends hext)
        (by rw [hext.limit]; omega) (n + 1) (by rw [← hlev]; exact hl) (by omega)
        (by rw [hext.imageBytes]; exact hu) hf'
      exact ⟨links, e', h, by omega⟩

/-! ## The draft root -/

/-- The one bound of an edit that a tree can reach. -/
def heightExhausted : IoError := ⟨.invalidData, "manifest height exhausted"⟩

section Root

variable {e : Editor} {es : List Extent} (hp : e.Placed)
include hp

theorem regrow_ok {links : List Child} (hlen : links.length ≤ 2) (hpos : 1 ≤ e.root.height)
    (hf : Forest (Holds e.pages (e.root.height - 1)) (e.root.height - 1) 0
      (e.imageBytes / BLOCK_SIZE) links es) (hroom : e.buffer.length + 2 ≤ e.limit) :
    (∃ e', e.regrow links = .ok e' ∧ e'.buffer.length ≤ e.buffer.length + 2) ∨
      e.regrow links = .error heightExhausted := by
  unfold regrow
  split
  · exact .inl ⟨_, rfl, by simp⟩
  · exact .inl ⟨_, rfl, by simp⟩
  · by_cases hheight : e.root.height < MAX_HEIGHT
    · obtain ⟨top, e', h, hb⟩ := branches_ok hp hroom e.root.height ⟨hpos, hheight⟩
        (hlen.trans (by decide)) le_rfl hf
      refine .inl ⟨_, require_bind_eq_ok.2 ⟨hheight, bind_eq_ok.2 ⟨_, h, rfl⟩⟩, hb⟩
    · rw [require, Except.ensure_of_not hheight]
      exact .inr rfl

omit hp in
theorem collapse_ok : ∀ (fuel : Nat) {e : Editor}, e.RootHolds es →
    ∃ e', collapse fuel e = .ok e' ∧ e'.buffer = e.buffer
  | 0, e, _ => ⟨e, rfl, rfl⟩
  | fuel + 1, e, hr => by
    unfold collapse
    split
    · rename_i hheight
      have hr' := hr
      rw [RootHolds] at hr'
      split at hr'
      · omega
      · obtain ⟨⟨-, hmax⟩, hh⟩ := hr'
        obtain ⟨n, hn⟩ : ∃ n, e.root.height = n + 2 := ⟨e.root.height - 2, by omega⟩
        rw [hn] at hh
        obtain ⟨-, children, hnode, hf⟩ := hh
        rw [read_eq, hnode, ok_bind]
        dsimp only
        split
        · rename_i child
          have hone : ({ e with root := ⟨child.offset, e.root.height - 1⟩ } : Editor).RootHolds es :=
            rootHolds_link (n := n) (by omega) (by omega) hf
          obtain ⟨e', h, hb⟩ := collapse_ok fuel hone
          exact ⟨e', h, hb⟩
        · exact ⟨e, rfl, rfl⟩
    · exact ⟨e, rfl, rfl⟩

/-- One edit of the draft, in at most four pages for each level and two for a new root. -/
theorem apply_ok {edit : Extent} (he : edit.Proper) (hin : edit.stop ≤ e.imageBytes / BLOCK_SIZE)
    (hr : e.RootHolds es)
    (hroom : e.buffer.length + (4 * max e.root.height 1 + 2) ≤ e.limit) :
    (∃ e', e.apply edit = .ok e' ∧
      e'.buffer.length ≤ e.buffer.length + (4 * max e.root.height 1 + 2)) ∨
      e.apply edit = .error heightExhausted := by
  have hne := he.nonempty
  unfold apply
  split
  · exact .inl ⟨_, rfl, by simp⟩
  · split
    · split
      · have hord : Ordered 0 (e.imageBytes / BLOCK_SIZE) [edit] :=
          ⟨Nat.zero_le _, hne, hin, trivial⟩
        obtain ⟨links, e', h, hb⟩ := leaves_ok hp (by omega) (by simp) hord
          (forall_mem_singleton.2 he.chunk)
        rw [h]
        exact .inl ⟨_, rfl, by simp only; omega⟩
      · exact .inl ⟨_, rfl, by omega⟩
    · rename_i h0
      rw [RootHolds, if_neg h0] at hr
      obtain ⟨⟨hpos, hmax⟩, hh⟩ := hr
      obtain ⟨node, hnode⟩ := hh.nodeAt
      have hends : ends edit e.rootCursor.lower e.rootCursor.upper = 2 := by
        unfold ends
        rw [if_pos ⟨Nat.zero_le _, Nat.lt_of_lt_of_le hne hin⟩,
          if_pos ⟨Nat.lt_of_le_of_lt (Nat.zero_le _) hne, hin⟩]
      have hlevels : 2 * (e.root.height - 1 + 1) * ends edit e.rootCursor.lower e.rootCursor.upper =
          4 * e.root.height := by
        rw [hends, Nat.sub_add_cancel hpos]
        omega
      rw [Nat.max_eq_left hpos] at hroom ⊢
      obtain ⟨links, e₁, h1, hb1⟩ := modify_ok he e.root.height (by omega) hp hh
        (Nat.le_refl _) hnode (fun _ => ⟨Nat.zero_le _, hin⟩) (by omega) (by rw [hlevels]; omega)
      rw [hlevels] at hb1
      obtain ⟨hext, hf⟩ := modify_forest he hh (upper_lt hp.bytes) hnode
        (fun _ => ⟨Nat.zero_le _, hin⟩) h1
      have hp1 := hp.of_extends hext
      rw [← hext.root] at hf hpos hmax
      have hf1 : Forest (Holds e₁.pages (e₁.root.height - 1)) (e₁.root.height - 1) 0
          (e₁.imageBytes / BLOCK_SIZE) links (applyEdit edit es) := by
        rw [hext.imageBytes]
        exact hf
      rw [read_eq, hnode, ok_bind, h1, ok_bind]
      dsimp only
      obtain ⟨e₂, h2, hb2⟩ | h2 := regrow_ok hp1 (modify_length h1) hpos hf1
        (by rw [hext.limit]; omega)
      · obtain ⟨-, -, hr2⟩ := regrow_holds hp1.bytes (modify_length h1) hpos hmax hf1 h2
        obtain ⟨e₃, h3, hb3⟩ := collapse_ok e₂.root.height hr2
        rw [h2, ok_bind]
        exact .inl ⟨e₃, h3, by rw [hb3]; omega⟩
      · rw [h2]
        exact .inr rfl

end Root

/-- The edits of a transaction, in at most `8H + 8` pages each. -/
theorem foldlM_applyBounded_ok : ∀ {edits es : List Extent} {s : Editor × Nat}, s.1.Placed →
    EditsIn (s.1.imageBytes / BLOCK_SIZE) edits → s.1.RootHolds es →
    s.1.buffer.length + edits.length * (8 * MAX_HEIGHT + 8) ≤ s.1.limit →
    (∃ s', edits.foldlM applyBounded s = .ok s' ∧
      s'.1.buffer.length ≤ s.1.buffer.length + edits.length * (8 * MAX_HEIGHT + 8)) ∨
      edits.foldlM applyBounded s = .error heightExhausted
  | [], _, s, _, _, _, _ => .inl ⟨s, rfl, by omega⟩
  | edit :: edits, es, s, hp, he, hr, hroom => by
    obtain ⟨hproper, hin⟩ := he edit (by simp)
    have hheight : max s.1.root.height 1 ≤ MAX_HEIGHT := by
      unfold RootHolds at hr
      split at hr
      · rw [hr.1]
        decide
      · exact Nat.max_le.2 ⟨hr.1.2, by decide⟩
    rw [length_cons, Nat.succ_mul] at hroom
    simp only [MAX_HEIGHT] at hheight hroom
    rw [foldlM_cons]
    obtain ⟨e', h, hb⟩ | h := apply_ok hp hproper hin hr (by omega)
    · obtain ⟨ht, hl, hr'⟩ := apply_holds hp.bytes hproper hin hr h
      have himg : e'.imageBytes = s.1.imageBytes := by rw [imageBytes, ht, imageBytes]
      have hp' : e'.Placed := by
        obtain ⟨h1, h2, h3, h4⟩ := hp
        exact ⟨himg ▸ h1, himg ▸ h2, ht ▸ h3, by rw [ht, hl]; exact h4⟩
      have hbound : e'.buffer.length - s.1.buffer.length ≤ 8 * max s.1.root.height 1 + 8 := by
        omega
      have hone : applyBounded s edit =
          .ok (e', max s.2 (e'.buffer.length - s.1.buffer.length)) :=
        bind_eq_ok.2 ⟨e', h, require_bind_eq_ok.2 ⟨hbound, rfl⟩⟩
      rw [hone, ok_bind]
      obtain ⟨s', hs, hb'⟩ | hs := foldlM_applyBounded_ok
        (s := (e', max s.2 (e'.buffer.length - s.1.buffer.length))) hp'
        (by rw [himg]; exact fun x hx => he x (mem_cons_of_mem _ hx)) hr'
        (by simp only [hl, MAX_HEIGHT]; omega)
      · refine .inl ⟨s', hs, ?_⟩
        rw [length_cons, Nat.succ_mul]
        simp only [MAX_HEIGHT] at hb' ⊢
        omega
      · exact .inr hs
    · rw [applyBounded, h]
      exact .inr rfl

end Editor

end Cas.Manifest
