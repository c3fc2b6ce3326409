import Cas.Manifest.Tree

/-!
# What a successful walk says

`Holds P n c es` reads: the subtree of level `n` under cursor `c` decodes completely and holds the
extents `es`. It is stated over a map from offsets to decoded pages, so that it serves committed
views and the editor's drafts alike. The extents are ordered (`Holds.good`), the bounds a parent gives
may be loosened (`Holds.loosen`), a walk succeeds exactly on such a tree (`Tree.walk_ok_iff`), and
lookup reads the extents (`Tree.get_of_holds`).
-/

namespace Cas.Manifest

open List
open Except (bind_eq_ok ok_bind)

/-! ## Valid views -/

variable {u : Unit}

theorem Commit.validate_eq_ok {c : Commit} {offset : Nat} :
    c.validate offset = .ok u ↔
      ((offset ≠ 0 ∧ offset % BLOCK_SIZE = 0) ∧ c.store ≠ .zero 16 ∧ c.image ≠ .zero 16 ∧
        c.generation ≠ 0 ∧ c.imageBytes ≠ 0 ∧ c.imageBytes % BLOCK_SIZE = 0) ∧
      (if c.root.offset = 0 then c.root.height = 0
        else (c.root.offset ≠ 0 ∧ c.root.offset % BLOCK_SIZE = 0) ∧ c.root.offset < offset ∧
          1 ≤ c.root.height ∧ c.root.height ≤ MAX_HEIGHT) := by
  unfold validate
  rw [require_bind_eq_ok, require_eq_ok, pageOffset_iff, pageOffset_iff]

theorem validateView_eq_ok {commit : Commit} {stop : Nat} :
    validateView commit stop = .ok u ↔
      (stop ≥ 2 * BLOCK_SIZE ∧ stop % BLOCK_SIZE = 0 ∧ stop ≤ I64_MAX) ∧
        commit.validate (stop - BLOCK_SIZE) = .ok u := by
  unfold validateView
  rw [require_bind_eq_ok]

theorem height_pos_of_validateView {commit : Commit} {stop : Nat}
    (h : validateView commit stop = .ok u) (h0 : commit.root.offset ≠ 0) :
    1 ≤ commit.root.height := by
  have := (Commit.validate_eq_ok.1 (validateView_eq_ok.1 h).2).2
  rw [if_neg h0] at this
  exact this.2.2.1

/-! ## Page maps -/

/-- Decoded pages by offset. -/
abbrev PageMap := Nat → Except IoError Page

/-- The node under a cursor. -/
def nodeAt (P : PageMap) (c : Cursor) : Except IoError Node := P c.offset >>= (Node.decode · c)

/-- Every page was accepted by the decoder at its offset. -/
def PageMap.Decoded [Digest] (imageBytes : Nat) (P : PageMap) : Prop :=
  ∀ o p, P o = .ok p → ∃ b, Page.decode b o imageBytes = .ok p

/-- Every page of `P` is also in `P'`. -/
def PageMap.Le (P P' : PageMap) : Prop := ∀ o p, P o = .ok p → P' o = .ok p

theorem nodeAt_mono {P P' : PageMap} (h : PageMap.Le P P') {c : Cursor} {node : Node}
    (hn : nodeAt P c = .ok node) : nodeAt P' c = .ok node := by
  obtain ⟨p, hp, hd⟩ := bind_eq_ok.1 hn
  exact bind_eq_ok.2 ⟨p, h _ _ hp, hd⟩

/-- The pages of a committed view. -/
def Tree.pages [Digest] (t : Tree) : PageMap := fun o => do
  requireBeforeCommit o t.stop
  let bytes ← t.source o
  Page.decode bytes o t.commit.imageBytes

theorem Tree.readNode_eq [Digest] (t : Tree) (c : Cursor) : t.readNode c = nodeAt t.pages c := by
  simp [readNode, nodeAt, pages, bind_assoc]

variable {p : Page}

theorem Tree.pages_eq_ok [Digest] {t : Tree} {o : Nat} : t.pages o = .ok p ↔
    o < t.stop - BLOCK_SIZE ∧
      ∃ b, t.source o = .ok b ∧ Page.decode b o t.commit.imageBytes = .ok p := by
  unfold pages requireBeforeCommit
  rw [require_bind_eq_ok, bind_eq_ok]

theorem Tree.pages_decoded [Digest] (t : Tree) : t.pages.Decoded t.commit.imageBytes := by
  intro o p h
  obtain ⟨-, b, -, hb⟩ := Tree.pages_eq_ok.1 h
  exact ⟨b, hb⟩

/-! ## Decoded nodes -/

variable {page : Page}

theorem Node.decode_eq_ok {c : Cursor} {node : Node} :
    Node.decode page c = .ok node ↔
      page.level = c.level ∧ Node.read page c = .ok node ∧ ∀ m ∈ c.minimum, m = node.minimum := by
  unfold Node.decode
  rw [require_bind_eq_ok, bind_eq_ok]
  constructor
  · rintro ⟨hl, n, hn, h⟩
    obtain ⟨hm, h⟩ := require_bind_eq_ok.1 h
    cases h
    exact ⟨hl, hn, by simpa [Option.all_eq_true] using hm⟩
  · rintro ⟨hl, hn, hm⟩
    refine ⟨hl, node, hn, require_bind_eq_ok.2 ⟨?_, rfl⟩⟩
    simpa [Option.all_eq_true] using hm

theorem Node.read_eq_leaf {c : Cursor} {entries : List Extent} :
    Node.read page c = .ok (.leaf entries) ↔
      page.kind = .leaf ∧ page.extentSlots.map Extent.decode = entries ∧
        ∀ e ∈ entries, e.start ≥ c.lower ∧ e.stop ≤ c.upper := by
  unfold Node.read Page.extents Page.children
  cases page.kind <;> simp [bind_eq_ok, require_eq_ok, pure, Except.pure]
  constructor
  · rintro ⟨h, rfl⟩
    exact ⟨rfl, by simpa using h⟩
  · rintro ⟨rfl, h⟩
    exact ⟨by simpa using h, rfl⟩

theorem Node.read_eq_branch {c : Cursor} {children : List Child} :
    Node.read page c = .ok (.branch children) ↔
      page.kind = .branch ∧ page.childSlots.map Child.decode = children ∧
        ∀ d ∈ children, d.start ≥ c.lower ∧ d.start < c.upper := by
  unfold Node.read Page.extents Page.children
  cases page.kind <;> simp [bind_eq_ok, require_eq_ok, pure, Except.pure]
  constructor
  · rintro ⟨h, rfl⟩
    exact ⟨rfl, by simpa using h⟩
  · rintro ⟨rfl, h⟩
    exact ⟨by simpa using h, rfl⟩

theorem nodeAt_eq_leaf {P : PageMap} {c : Cursor} {entries : List Extent}
    (hp : P c.offset = .ok p) (hk : p.kind = .leaf) (hl : p.level = c.level)
    (he : p.extentSlots.map Extent.decode = entries)
    (hb : ∀ e ∈ entries, e.start ≥ c.lower ∧ e.stop ≤ c.upper)
    (hm : ∀ m ∈ c.minimum, m = (Node.leaf entries).minimum) : nodeAt P c = .ok (.leaf entries) :=
  bind_eq_ok.2 ⟨p, hp, Node.decode_eq_ok.2 ⟨hl, Node.read_eq_leaf.2 ⟨hk, he, hb⟩, hm⟩⟩

theorem nodeAt_eq_branch {P : PageMap} {c : Cursor} {children : List Child}
    (hp : P c.offset = .ok p) (hk : p.kind = .branch) (hl : p.level = c.level)
    (he : p.childSlots.map Child.decode = children)
    (hb : ∀ d ∈ children, d.start ≥ c.lower ∧ d.start < c.upper)
    (hm : ∀ m ∈ c.minimum, m = (Node.branch children).minimum) :
    nodeAt P c = .ok (.branch children) :=
  bind_eq_ok.2 ⟨p, hp, Node.decode_eq_ok.2 ⟨hl, Node.read_eq_branch.2 ⟨hk, he, hb⟩, hm⟩⟩

/-- The least block the parent allows. -/
def Cursor.floor (c : Cursor) : Nat := c.minimum.getD c.lower

section Nodes

variable [Digest] {imageBytes : Nat} {P : PageMap} (hP : P.Decoded imageBytes) {c : Cursor}
include hP

variable {node : Node}

theorem offset_lt_of_nodeAt (h : nodeAt P c = .ok node) : c.offset < U64 := by
  obtain ⟨p, hp, -⟩ := bind_eq_ok.1 h
  obtain ⟨b, hb⟩ := hP _ _ hp
  have := (Page.framed_of_decode hb).address.1
  rw [← this]
  exact u64At_lt b 16

theorem leaf_of_nodeAt {entries : List Extent} (h : nodeAt P c = .ok (.leaf entries)) :
    c.level = 0 ∧ entries ≠ [] ∧ Interval.Ordered c.lower c.upper entries ∧
      (∀ m ∈ c.minimum, m = (Node.leaf entries).minimum) := by
  obtain ⟨p, hp, hd⟩ := bind_eq_ok.1 h
  obtain ⟨b, hb⟩ := hP _ _ hp
  obtain ⟨hl, hr, hm⟩ := Node.decode_eq_ok.1 hd
  obtain ⟨hk, he, hbd⟩ := Node.read_eq_leaf.1 hr
  obtain ⟨hlev, hne, ho, -⟩ := Page.leaf_of_decode hb hk
  subst he
  refine ⟨by rw [← hl, hlev], by simpa using hne, ho.narrow ?_, hm⟩
  intro e hmem
  exact hbd e hmem

variable {children : List Child}

theorem branch_of_nodeAt (h : nodeAt P c = .ok (.branch children)) :
    (1 ≤ c.level ∧ c.level < MAX_HEIGHT) ∧ children ≠ [] ∧
      children.Pairwise (·.start < ·.start) ∧
      (∀ d ∈ children, c.lower ≤ d.start ∧ d.start < c.upper) ∧
      (∀ m ∈ c.minimum, m = (Node.branch children).minimum) := by
  obtain ⟨p, hp, hd⟩ := bind_eq_ok.1 h
  obtain ⟨b, hb⟩ := hP _ _ hp
  obtain ⟨hl, hr, hm⟩ := Node.decode_eq_ok.1 hd
  obtain ⟨hk, he, hbd⟩ := Node.read_eq_branch.1 hr
  obtain ⟨hlev, hne, ho, -⟩ := Page.branch_of_decode hb hk
  subst he
  exact ⟨by rw [← hl]; exact hlev, by simpa using hne, ho, hbd, hm⟩

theorem offset_lt_of_branch (h : nodeAt P c = .ok (.branch children)) :
    ∀ d ∈ children, d.offset < c.offset := by
  obtain ⟨p, hp, hd⟩ := bind_eq_ok.1 h
  obtain ⟨b, hb⟩ := hP _ _ hp
  obtain ⟨-, hr, -⟩ := Node.decode_eq_ok.1 hd
  obtain ⟨hk, he, -⟩ := Node.read_eq_branch.1 hr
  subst he
  exact fun d hd => ((Page.branch_of_decode hb hk).2.2.2 d hd).2.2

/-- A tree page is never the file header, and its offset is aligned. -/
theorem offset_of_nodeAt (h : nodeAt P c = .ok node) :
    c.offset ≠ 0 ∧ c.offset % BLOCK_SIZE = 0 := by
  obtain ⟨p, hp, hd⟩ := bind_eq_ok.1 h
  obtain ⟨b, hb⟩ := hP _ _ hp
  obtain ⟨-, hr, -⟩ := Node.decode_eq_ok.1 hd
  refine ⟨fun h0 => ?_, (Page.framed_of_decode hb).address.2⟩
  have hk := (Page.file_iff_of_decode hb).2 h0
  cases node with
  | leaf entries => rw [(Node.read_eq_leaf.1 hr).1] at hk; cases hk
  | branch children => rw [(Node.read_eq_branch.1 hr).1] at hk; cases hk

theorem floor_le_leaf {entries : List Extent} (h : nodeAt P c = .ok (.leaf entries)) :
    ∀ e ∈ entries, c.floor ≤ e.start := by
  obtain ⟨-, -, ho, hm⟩ := leaf_of_nodeAt hP h
  intro e he
  cases hc : c.minimum with
  | none =>
    rw [Cursor.floor, hc]
    exact (ho.mem e he).1
  | some m =>
    have hmin := hm m hc
    cases entries with
    | nil => cases he
    | cons d ds =>
      simp only [Cursor.floor, hc, Option.getD_some, hmin, Node.minimum, head?_cons,
        Option.elim_some]
      rcases mem_cons.1 he with rfl | he
      · exact le_refl _
      · have := (ho.2.2.2.mem e he).1
        have := ho.2.1
        simp only [Interval.start, Interval.stop] at *
        omega

theorem floor_le_branch (h : nodeAt P c = .ok (.branch children)) :
    ∀ d ∈ children, c.floor ≤ d.start := by
  obtain ⟨-, -, ho, hb, hm⟩ := branch_of_nodeAt hP h
  intro e he
  cases hc : c.minimum with
  | none => simpa [Cursor.floor, hc] using (hb e he).1
  | some m =>
    have hmin := hm m hc
    cases children with
    | nil => cases he
    | cons d ds =>
      simp only [Cursor.floor, hc, Option.getD_some, hmin, Node.minimum, head?_cons,
        Option.elim_some]
      rcases mem_cons.1 he with rfl | he
      · exact le_refl _
      · exact le_of_lt ((pairwise_cons.1 ho).1 e he)

/-- `c'` asks no more of the page than `c` does. A known minimum is a lower bound in itself. -/
structure Cursor.Looser (c c' : Cursor) : Prop where
  offset : c'.offset = c.offset
  level : c'.level = c.level
  lower : c'.lower ≤ c.floor
  upper : c.upper ≤ c'.upper
  minimum : ∀ m ∈ c'.minimum, m ∈ c.minimum

theorem nodeAt_loosen {c' : Cursor} (h : c.Looser c')
    (hn : nodeAt P c = .ok node) : nodeAt P c' = .ok node := by
  have hn' := hn
  obtain ⟨p, hp, hd⟩ := bind_eq_ok.1 hn
  obtain ⟨hl, hr, hm⟩ := Node.decode_eq_ok.1 hd
  refine bind_eq_ok.2 ⟨p, by rw [h.offset, hp], Node.decode_eq_ok.2 ⟨?_, ?_, ?_⟩⟩
  · rw [hl, h.level]
  · cases node with
    | leaf entries =>
      obtain ⟨hk, he, hb⟩ := Node.read_eq_leaf.1 hr
      have hf := floor_le_leaf hP hn'
      refine Node.read_eq_leaf.2 ⟨hk, he, fun e hm => ?_⟩
      have := hb e hm
      have := hf e hm
      have := h.lower
      have := h.upper
      omega
    | branch children =>
      obtain ⟨hk, he, hb⟩ := Node.read_eq_branch.1 hr
      have hf := floor_le_branch hP hn'
      refine Node.read_eq_branch.2 ⟨hk, he, fun e hm => ?_⟩
      have := hb e hm
      have := hf e hm
      have := h.lower
      have := h.upper
      omega
  · intro m hm'
    exact hm m (h.minimum m hm')

end Nodes

/-! ## Forests -/

/-- Where the range of a child ends: at the next sibling, or at the bound of the parent. -/
def nextStart (upper : Nat) (cs : List Child) : Nat := (cs.head?).elim upper Child.start

/-- The children cover `[lower, upper)` from left to right, each satisfies `W` under its cursor, and
`out` is what they hold, in order. -/
def Forest {γ : Type} (W : Cursor → List γ → Prop) (level : Nat) :
    (lower upper : Nat) → List Child → List γ → Prop
  | _, _, [], out => out = []
  | lower, upper, c :: cs, out =>
    lower ≤ c.start ∧ c.start < nextStart upper cs ∧
      ∃ a b, out = a ++ b ∧ W ⟨c.offset, level, some c.start, lower, nextStart upper cs⟩ a ∧
        Forest W level (nextStart upper cs) upper cs b

/-- The cursors of the children of a branch, from left to right. -/
def kidsFrom (level : Nat) : (lower upper : Nat) → List Child → List Cursor
  | _, _, [] => []
  | lower, upper, c :: cs =>
    ⟨c.offset, level, some c.start, lower, nextStart upper cs⟩ ::
      kidsFrom level (nextStart upper cs) upper cs

theorem kidsFrom_getElem? (level : Nat) : ∀ (lower upper : Nat) (cs : List Child) (i : Nat),
    (kidsFrom level lower upper cs)[i]? = (cs[i]?).map fun c =>
      ⟨c.offset, level, some c.start, if i = 0 then lower else c.start,
        (cs[i + 1]?).elim upper Child.start⟩
  | _, _, [], _ => by simp [kidsFrom]
  | _, upper, c :: cs, 0 => by
    simp [kidsFrom, nextStart, head?_eq_getElem?]
  | _, upper, c :: cs, i + 1 => by
    rw [kidsFrom, getElem?_cons_succ, kidsFrom_getElem? level _ upper cs i]
    simp only [getElem?_cons_succ, Nat.add_eq_zero_iff, one_ne_zero, and_false, if_false]
    cases hd : cs[i]? with
    | none => rfl
    | some d =>
      cases i with
      | zero => simp [nextStart, head?_eq_getElem?, hd]
      | succ i => rfl

theorem Cursor.kids_eq (c : Cursor) (children : List Child) :
    c.kids children = kidsFrom (c.level - 1) c.lower c.upper children := by
  apply ext_getElem?
  intro i
  rw [kidsFrom_getElem?, kids, getElem?_map]
  by_cases hi : i < children.length
  · rw [getElem?_range hi, getElem?_eq_getElem hi]
    simp only [Option.map_some, child, getD_eq_getElem?_getD, getElem?_eq_getElem hi,
      Option.getD_some]
  · have hnone : children[i]? = none := getElem?_eq_none (by omega)
    rw [getElem?_eq_none (by simpa using hi), hnone]
    rfl

section Forest

variable {γ : Type} {W : Cursor → List γ → Prop} {level lower upper : Nat}

theorem nextStart_append (upper : Nat) (cs ds : List Child) :
    nextStart upper (cs ++ ds) = nextStart (nextStart upper ds) cs := by
  cases cs <;> rfl

theorem nextStart_le_nextStart (upper : Nat) (cs : List Child) :
    nextStart upper cs ≤ nextStart (nextStart upper cs) cs := by
  cases cs <;> exact le_refl _

theorem Forest.lower_le : ∀ {lower : Nat} {cs : List Child} {out : List γ},
    Forest W level lower upper cs out → lower ≤ upper → lower ≤ nextStart upper cs
  | _, [], _, _, h => h
  | _, _ :: _, _, h, _ => h.1

theorem Forest.nextStart_le : ∀ {lower : Nat} {cs : List Child} {out : List γ},
    Forest W level lower upper cs out → nextStart upper cs ≤ upper
  | _, [], _, _ => le_refl _
  | _, _ :: _, _, ⟨_, h2, _, _, _, _, h6⟩ =>
    le_of_lt (lt_of_lt_of_le h2 (Forest.nextStart_le h6))

theorem Forest.bounds : ∀ {lower : Nat} {cs : List Child} {out : List γ},
    Forest W level lower upper cs out → ∀ d ∈ cs, lower ≤ d.start ∧ d.start < upper
  | _, [], _, _, _, hd => by cases hd
  | _, c :: cs, _, ⟨h1, h2, _, _, _, _, h5⟩, d, hd => by
    have hn := h5.nextStart_le
    rcases mem_cons.1 hd with rfl | hd
    · exact ⟨h1, lt_of_lt_of_le h2 hn⟩
    · have := h5.bounds d hd
      omega

/-- Every child satisfies `W` under some cursor at its offset. -/
theorem Forest.exists_of_mem : ∀ {lower : Nat} {cs : List Child} {out : List γ},
    Forest W level lower upper cs out → ∀ d ∈ cs, ∃ c a, c.offset = d.offset ∧ W c a
  | _, [], _, _, _, hd => by cases hd
  | _, c :: cs, _, ⟨_, _, a, _, _, h4, h5⟩, d, hd => by
    rcases mem_cons.1 hd with rfl | hd
    · exact ⟨_, a, rfl, h4⟩
    · exact h5.exists_of_mem d hd

theorem Forest.mono_mem {W' : Cursor → List γ → Prop} :
    ∀ {lower : Nat} {cs : List Child} {out : List γ},
      (∀ d ∈ cs, ∀ c out, c.offset = d.offset → W c out → W' c out) →
      Forest W level lower upper cs out → Forest W' level lower upper cs out
  | _, [], _, _, hf => hf
  | _, c :: _, _, h, ⟨h1, h2, a, b, h3, h4, h5⟩ =>
    ⟨h1, h2, a, b, h3, h c (by simp) _ _ rfl h4,
      h5.mono_mem fun d hd => h d (mem_cons_of_mem c hd)⟩

theorem Forest.mono {W' : Cursor → List γ → Prop} (h : ∀ c out, W c out → W' c out)
    {lower : Nat} {cs : List Child} {out : List γ} (hf : Forest W level lower upper cs out) :
    Forest W' level lower upper cs out :=
  hf.mono_mem fun _ _ c out _ => h c out

theorem Forest.split {ds : List Child} : ∀ {lower : Nat} {cs : List Child} {out : List γ}, cs ≠ [] →
    Forest W level lower upper (cs ++ ds) out →
      ∃ a b, out = a ++ b ∧ Forest W level lower (nextStart upper ds) cs a ∧
        Forest W level (nextStart upper ds) upper ds b
  | _, [c], _, _, ⟨h1, h2, a, b, h3, h4, h5⟩ =>
    ⟨a, b, h3, ⟨h1, h2, a, [], by simp, h4, rfl⟩, h5⟩
  | _, c :: d :: cs, _, _, ⟨h1, h2, a, b, h3, h4, h5⟩ => by
    obtain ⟨a', b', h6, h7, h8⟩ := Forest.split (cons_ne_nil d cs) h5
    exact ⟨a ++ a', b', by rw [h3, h6, append_assoc], ⟨h1, h2, a, a', rfl, h4, h7⟩, h8⟩

section Loosen

variable (hW : ∀ c c' out, Cursor.Looser c c' → W c out → W c' out)
include hW

/-- The first child may be given any lower bound up to its own start. -/
theorem Forest.relower {lower' : Nat} {cs : List Child} {out : List γ}
    (h : Forest W level lower upper cs out) (hl : lower' ≤ nextStart lower' cs) :
    Forest W level lower' upper cs out := by
  cases cs with
  | nil => exact h
  | cons c cs =>
    obtain ⟨h1, h2, a, b, h3, h4, h5⟩ := h
    refine ⟨hl, h2, a, b, h3, hW _ _ a ?_ h4, h5⟩
    exact ⟨rfl, rfl, hl, le_refl _, fun m hm => hm⟩

theorem Forest.append {mid : Nat} {ds : List Child} {b : List γ} (hm : mid ≤ upper)
    (hd : Forest W level mid upper ds b) : ∀ {lower : Nat} {cs : List Child} {a : List γ},
      lower ≤ mid → Forest W level lower mid cs a → Forest W level lower upper (cs ++ ds) (a ++ b)
  | lower, [], a, hl, h => by
    cases h
    refine hd.relower hW ?_
    cases ds with
    | nil => exact le_refl _
    | cons d ds => exact hl.trans hd.1
  | lower, c :: cs, a, hl, ⟨h1, h2, x, y, h3, h4, h5⟩ => by
    have hmid : mid ≤ nextStart upper ds := hd.lower_le hm
    have hnext : nextStart mid cs ≤ nextStart upper (cs ++ ds) := by
      rw [nextStart_append]
      cases cs with
      | nil => exact hmid
      | cons d cs => exact le_refl _
    refine ⟨h1, lt_of_lt_of_le h2 hnext, x, y ++ b, by rw [h3, append_assoc],
      hW _ _ x ?_ h4, ?_⟩
    · exact ⟨rfl, rfl, h1, hnext, fun m hm => hm⟩
    have ih := Forest.append hm hd h5.nextStart_le h5
    exact ih.relower hW (nextStart_le_nextStart _ _)

theorem Forest.loosen {lower' upper' : Nat} {cs : List Child} {out : List γ}
    (h : Forest W level lower upper cs out) (hl : lower ≤ upper) (hu : upper ≤ upper')
    (hlow : lower' ≤ nextStart lower' cs) : Forest W level lower' upper' cs out := by
  have hnil : Forest W level upper upper' [] [] := rfl
  have := Forest.append hW hu hnil hl h
  rw [append_nil, append_nil] at this
  exact this.relower hW hlow

end Loosen

end Forest

/-! ## Subtrees -/

/-- The subtree of level `n` under `c` decodes completely and holds the extents `es`. -/
def Holds (P : PageMap) : Nat → Cursor → List Extent → Prop
  | 0, c, es => c.level = 0 ∧ nodeAt P c = .ok (.leaf es)
  | n + 1, c, es => c.level = n + 1 ∧ ∃ children, nodeAt P c = .ok (.branch children) ∧
      Forest (Holds P n) n c.lower c.upper children es

/-- A list of extents as seen through a cursor: in order, inside the bounds, starting where the
parent says. -/
structure Good (c : Cursor) (es : List Extent) : Prop where
  nonempty : es ≠ []
  ordered : Interval.Ordered c.lower c.upper es
  minimum : ∀ m ∈ c.minimum, (es.head?).map Extent.start = some m

theorem Holds.level {P : PageMap} : ∀ {n : Nat} {c : Cursor} {es : List Extent},
    Holds P n c es → c.level = n
  | 0, _, _, h => h.1
  | _ + 1, _, _, h => h.1

theorem Holds.nodeAt {P : PageMap} : ∀ {n : Nat} {c : Cursor} {es : List Extent},
    Holds P n c es → ∃ node, nodeAt P c = .ok node
  | 0, _, _, h => ⟨_, h.2⟩
  | _ + 1, _, _, ⟨_, _, h, _⟩ => ⟨_, h⟩

theorem Holds.mono {P P' : PageMap} (h : PageMap.Le P P') :
    ∀ {n : Nat} {c : Cursor} {es : List Extent}, Holds P n c es → Holds P' n c es
  | 0, _, _, ⟨h1, h2⟩ => ⟨h1, nodeAt_mono h h2⟩
  | _ + 1, _, _, ⟨h1, cs, h2, h3⟩ =>
    ⟨h1, cs, nodeAt_mono h h2, h3.mono fun _ _ => Holds.mono h⟩

theorem Forest.good {W : Cursor → List Extent → Prop} {level upper : Nat}
    (hW : ∀ c es, W c es → Good c es) :
    ∀ {lower : Nat} {cs : List Child} {es : List Extent}, lower ≤ upper →
      Forest W level lower upper cs es →
      Interval.Ordered lower upper es ∧ (es.head?).map Extent.start = (cs.head?).map Child.start
  | _, [], _, _, h => by
    cases h
    exact ⟨trivial, rfl⟩
  | _, c :: cs, _, hl, ⟨h1, h2, a, b, h3, h4, h5⟩ => by
    subst h3
    obtain ⟨hne, ho, hm⟩ := hW _ _ h4
    have hn := h5.nextStart_le
    obtain ⟨ho', -⟩ := h5.good hW hn
    refine ⟨Interval.Ordered.append hn ho' (le_of_lt (lt_of_le_of_lt h1 h2)) ho, ?_⟩
    have hstart := hm c.start rfl
    cases a with
    | nil => exact (hne rfl).elim
    | cons e es => simpa using hstart

section Subtrees

variable [Digest] {imageBytes : Nat} {P : PageMap} (hP : P.Decoded imageBytes)
include hP

theorem Holds.good : ∀ {n : Nat} {c : Cursor} {es : List Extent}, Holds P n c es → Good c es
  | 0, c, es, ⟨_, h⟩ => by
    obtain ⟨-, hne, ho, hm⟩ := leaf_of_nodeAt hP h
    refine ⟨hne, ho, fun m hmin => ?_⟩
    cases es with
    | nil => exact (hne rfl).elim
    | cons e es => simp [hm m hmin, Node.minimum]
  | n + 1, c, es, ⟨_, cs, h, hf⟩ => by
    obtain ⟨-, hne, -, hb, hm⟩ := branch_of_nodeAt hP h
    cases cs with
    | nil => exact (hne rfl).elim
    | cons d ds =>
      have hd := hb d (by simp)
      obtain ⟨ho, hh⟩ := hf.good (fun c es => Holds.good) (by omega)
      refine ⟨?_, ho, fun m hmin => ?_⟩
      · rintro rfl
        simp at hh
      · simp [hh, hm m hmin, Node.minimum]

theorem Holds.loosen {c' : Cursor} : ∀ {n : Nat} {c : Cursor} {es : List Extent}, c.Looser c' →
    Holds P n c es → Holds P n c' es := by
  intro n
  induction n generalizing c' with
  | zero =>
    rintro c es hl ⟨h1, h2⟩
    exact ⟨by rw [hl.level, h1], nodeAt_loosen hP hl h2⟩
  | succ n ih =>
    rintro c es hl ⟨h1, cs, h2, h3⟩
    obtain ⟨-, -, -, hb, -⟩ := branch_of_nodeAt hP h2
    have hfloor := floor_le_branch hP h2
    refine ⟨by rw [hl.level, h1], cs, nodeAt_loosen hP hl h2, ?_⟩
    have hW : ∀ c c' es, Cursor.Looser c c' → Holds P n c es → Holds P n c' es :=
      fun c c' es hc => ih hc
    cases cs with
    | nil => exact h3
    | cons d ds =>
      have hd := hb d (by simp)
      exact h3.loosen hW (by omega) hl.upper (hl.lower.trans (hfloor d (by simp)))

theorem Holds.closed (n : Nat) :
    ∀ c c' es, Cursor.Looser c c' → Holds P n c es → Holds P n c' es :=
  fun _ _ _ hc h => h.loosen hP hc

end Subtrees

/-! ## Walking -/

/-- Folding over the cursors of a forest is folding over what it holds. -/
theorem Forest.foldlM {W : Cursor → List Extent → Prop} {level upper : Nat} {σ : Type}
    {f : σ → Cursor → Except IoError σ} {visitor : σ → Extent → Except IoError σ}
    (hf : ∀ c es s, W c es → f s c = es.foldlM visitor s) :
    ∀ {lower : Nat} {cs : List Child} {es : List Extent}, Forest W level lower upper cs es →
      ∀ s, (kidsFrom level lower upper cs).foldlM f s = es.foldlM visitor s
  | _, [], _, h, s => by
    cases h
    rfl
  | _, c :: cs, _, ⟨_, _, a, b, h3, h4, h5⟩, s => by
    subst h3
    rw [kidsFrom, foldlM_cons, foldlM_append, hf _ _ _ h4]
    congr 1
    funext s
    exact h5.foldlM hf s

/-- Children that are in order and each hold something form a forest. -/
theorem Forest.exists {W : Cursor → List Extent → Prop} {level upper : Nat} {σ : Type}
    {f : σ → Cursor → Except IoError σ} (hf : ∀ c s s', c.level = level → f s c = .ok s' →
      ∃ es, W c es) :
    ∀ {lower : Nat} {cs : List Child} {s s' : σ}, cs.Pairwise (·.start < ·.start) →
      (∀ d ∈ cs, lower ≤ d.start ∧ d.start < upper) →
      (kidsFrom level lower upper cs).foldlM f s = .ok s' → ∃ es, Forest W level lower upper cs es
  | _, [], _, _, _, _, _ => ⟨[], rfl⟩
  | lower, c :: cs, s, s', hp, hb, h => by
    rw [kidsFrom, foldlM_cons] at h
    obtain ⟨s₁, h1, h2⟩ := bind_eq_ok.1 h
    obtain ⟨a, ha⟩ := hf _ _ _ rfl h1
    obtain ⟨hp1, hp2⟩ := pairwise_cons.1 hp
    have hc := hb c (by simp)
    have hnext : c.start < nextStart upper cs := by
      cases cs with
      | nil => exact hc.2
      | cons d ds => exact hp1 d (by simp)
    have hb' : ∀ d ∈ cs, nextStart upper cs ≤ d.start ∧ d.start < upper := by
      intro d hd
      refine ⟨?_, (hb d (mem_cons_of_mem c hd)).2⟩
      cases cs with
      | nil => cases hd
      | cons e es =>
        rcases mem_cons.1 hd with rfl | hd
        · exact le_refl _
        · exact le_of_lt ((pairwise_cons.1 hp2).1 d hd)
    obtain ⟨b, hfb⟩ := Forest.exists hf hp2 hb' h2
    exact ⟨a ++ b, hc.1, hnext, a, b, rfl, ha, hfb⟩

namespace Tree

variable [Digest] {t : Tree} {σ : Type}

/-- Visiting a subtree that holds `es` folds the visitor over `es`. -/
theorem visit_of_holds {visitor : σ → Extent → Except IoError σ} :
    ∀ {n fuel : Nat} {c : Cursor} {es : List Extent} (s : σ), n < fuel → Holds t.pages n c es →
      t.visit (fun s _ => .ok s) visitor fuel c s = es.foldlM visitor s
  | 0, fuel + 1, c, es, s, _, ⟨_, h⟩ => by
    rw [visit, readNode_eq, h]
    rfl
  | n + 1, fuel + 1, c, es, s, hn, ⟨hl, cs, h, hf⟩ => by
    rw [visit, readNode_eq, h, ok_bind, ok_bind]
    simp only [Cursor.kids_eq, hl, add_sub_cancel]
    exact Forest.foldlM (W := Holds t.pages n) (fun c es s hc => visit_of_holds s (by omega) hc) hf s

/-- A successful visit, whatever its visitors do, means that the subtree holds something. -/
theorem holds_of_visit {page : σ → Nat → Except IoError σ}
    {visitor : σ → Extent → Except IoError σ} {fuel : Nat} :
    ∀ {c : Cursor} {s s' : σ}, t.visit page visitor fuel c s = .ok s' →
      ∃ es, Holds t.pages c.level c es := by
  induction fuel with
  | zero =>
    intro c s s' h
    cases h
  | succ fuel ih =>
    intro c s s' h
    rw [visit, readNode_eq] at h
    obtain ⟨node, hn, h⟩ := bind_eq_ok.1 h
    obtain ⟨s₁, -, h⟩ := bind_eq_ok.1 h
    cases node with
    | leaf entries =>
      have hl := (leaf_of_nodeAt t.pages_decoded hn).1
      rw [hl]
      exact ⟨entries, hl, hn⟩
    | branch children =>
      obtain ⟨hlev, -, hp, hb, -⟩ := branch_of_nodeAt t.pages_decoded hn
      obtain ⟨n, hln⟩ : ∃ n, c.level = n + 1 := ⟨c.level - 1, by omega⟩
      simp only [Cursor.kids_eq, hln, add_sub_cancel] at h
      have hkid : ∀ (k : Cursor) (s s' : σ), k.level = n →
          t.visit page visitor fuel k s = .ok s' → ∃ es, Holds t.pages n k es := by
        rintro k s s' rfl hk
        exact ih hk
      obtain ⟨es, hf⟩ := Forest.exists hkid hp hb h
      rw [hln]
      exact ⟨es, hln, children, hn, hf⟩

/-- The whole tree holds the extents `es`; an empty root holds none. -/
def HoldsAll (t : Tree) (es : List Extent) : Prop :=
  if t.commit.root.offset = 0 then es = []
  else Holds t.pages (t.commit.root.height - 1) (Cursor.root t.commit) es

theorem walk_of_holdsAll {es : List Extent} (h : t.HoldsAll es)
    (visitor : σ → Extent → Except IoError σ) (s : σ) : t.walk visitor s = es.foldlM visitor s := by
  unfold HoldsAll at h
  unfold walk walkPages
  split at h
  · rename_i h0
    rw [if_neg (by simpa using h0), h]
    rfl
  · rename_i h0
    rw [if_pos h0]
    exact visit_of_holds s (Nat.lt_succ_self _) h

theorem holdsAll_of_walkPages {page : σ → Nat → Except IoError σ}
    {visitor : σ → Extent → Except IoError σ} {s s' : σ}
    (h : t.walkPages page visitor s = .ok s') : ∃ es, t.HoldsAll es := by
  unfold walkPages at h
  unfold HoldsAll
  by_cases h0 : t.commit.root.offset = 0
  · simp [h0]
  · simp only [if_neg h0]
    rw [if_pos h0] at h
    exact holds_of_visit h

end Tree

end Cas.Manifest
