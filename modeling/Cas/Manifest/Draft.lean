import Cas.Manifest.Editor

/-!
# The editor's draft pages

The pages of a draft (`Editor.pages`) are the committed pages followed by the draft buffer. Writing
only appends to the buffer (`Editor.Extends`), so whatever a subtree held it still holds.
`leaves_forest` and `branches_forest` say that the entries of a node, written out in one or two
pages, are held by the links that come back.
-/

namespace Cas.Manifest

open List

/-! ## Chunks -/

theorem flatten_chunksAux {α : Type} {width : Nat} (hw : 1 ≤ width) :
    ∀ {fuel : Nat} {l : List α}, l.length ≤ fuel → (chunksAux width fuel l).flatten = l ∧
      ∀ part ∈ chunksAux width fuel l, part ≠ []
  | 0, l, h => by
    have : l = [] := eq_nil_of_length_eq_zero (by omega)
    simp [chunksAux, this]
  | fuel + 1, l, h => by
    rw [chunksAux]
    split
    · simp_all
    · rename_i hne
      have hpos := length_pos_iff.2 hne
      have hrest : (l.drop width).length ≤ fuel := by
        rw [length_drop]
        omega
      obtain ⟨h1, h2⟩ := flatten_chunksAux hw hrest
      refine ⟨by rw [flatten_cons, h1, take_append_drop], ?_⟩
      intro part hp
      rcases mem_cons.1 hp with rfl | hp
      · intro hnil
        have := congrArg length hnil
        simp only [length_take, length_nil] at this
        omega
      · exact h2 part hp

theorem flatten_chunks {α : Type} {width : Nat} (hw : 1 ≤ width) (l : List α) :
    (chunks width l).flatten = l ∧ ∀ part ∈ chunks width l, part ≠ [] :=
  flatten_chunksAux hw (le_refl _)

theorem chunks_length {α : Type} {l : List α} (h : l ≠ []) : chunks l.length l = [l] := by
  have hpos := length_pos_iff.2 h
  obtain ⟨n, hn⟩ : ∃ n, l.length = n + 1 := ⟨l.length - 1, by omega⟩
  rw [chunks]
  conv => lhs; arg 2; rw [hn]
  rw [chunksAux, if_neg h, take_length, drop_length]
  cases n <;> simp [chunksAux]

theorem width_pos (capacity n : Nat) : 1 ≤ if n > capacity then (n + 1) / 2 else max n 1 := by
  split <;> omega

namespace Editor

/-- The draft grew: more pages, the same root and the same committed tree below. -/
structure Extends (e e' : Editor) : Prop where
  tree : e'.tree = e.tree
  limit : e'.limit = e.limit
  root : e'.root = e.root
  buffer : e.buffer <+: e'.buffer

theorem Extends.refl (e : Editor) : e.Extends e := ⟨rfl, rfl, rfl, prefix_refl _⟩

theorem Extends.trans {e e' e'' : Editor} (h : e.Extends e') (h' : e'.Extends e'') :
    e.Extends e'' :=
  ⟨h'.tree.trans h.tree, h'.limit.trans h.limit, h'.root.trans h.root, h.buffer.trans h'.buffer⟩

theorem Extends.imageBytes {e e' : Editor} (h : e.Extends e') : e'.imageBytes = e.imageBytes := by
  rw [Editor.imageBytes, h.tree, Editor.imageBytes]

variable [Digest]

/-- Committed pages below the transaction, draft pages in it. -/
def pages (e : Editor) : PageMap := fun o => if o < e.tree.stop then e.tree.pages o else e.draft o

theorem read_eq (e : Editor) (c : Cursor) : e.read c = nodeAt e.pages c := by
  unfold read nodeAt pages
  split
  · exact Tree.readNode_eq _ _
  · rfl

theorem pages_decoded (e : Editor) : e.pages.Decoded e.imageBytes := by
  intro o p h
  unfold pages at h
  split at h
  · exact e.tree.pages_decoded o p h
  · unfold draft at h
    exact ⟨_, (require_bind_eq_ok.1 h).2⟩

theorem draft_eq_ok {e : Editor} {o : Nat} {p : Page} : e.draft o = .ok p ↔
    ((o - e.tree.stop) % BLOCK_SIZE = 0 ∧ o - e.tree.stop < e.buffer.length * BLOCK_SIZE) ∧
      Page.decode (e.buffer.getD ((o - e.tree.stop) / BLOCK_SIZE) []) o e.imageBytes = .ok p :=
  require_bind_eq_ok

theorem Extends.draft {e e' : Editor} (h : e.Extends e') {o : Nat} {p : Page}
    (hp : e.draft o = .ok p) : e'.draft o = .ok p := by
  rw [draft_eq_ok] at hp ⊢
  rw [h.tree, h.imageBytes]
  obtain ⟨⟨h1, h2⟩, hp⟩ := hp
  obtain ⟨more, hmore⟩ := h.buffer
  have hlt : (o - e.tree.stop) / BLOCK_SIZE < e.buffer.length :=
    Nat.div_lt_of_lt_mul (by rw [mul_comm]; exact h2)
  have hlen : e.buffer.length ≤ e'.buffer.length := by rw [← hmore]; simp
  refine ⟨⟨h1, lt_of_lt_of_le h2 (Nat.mul_le_mul_right _ hlen)⟩, ?_⟩
  rw [← hp, ← hmore, getD_eq_getElem?_getD, getD_eq_getElem?_getD,
    getElem?_append_left hlt]

theorem Extends.pages {e e' : Editor} (h : e.Extends e') : PageMap.Le e.pages e'.pages := by
  intro o p hp
  unfold Editor.pages at *
  rw [h.tree]
  split at hp
  · rename_i ho
    rw [if_pos ho]
    exact hp
  · rename_i ho
    rw [if_neg ho]
    exact h.draft hp

theorem pages_nextOffset (e : Editor) (page : Bytes) :
    ({ e with buffer := e.buffer ++ [page] } : Editor).pages e.nextOffset =
      Page.decode page e.nextOffset e.imageBytes := by
  have hstart : e.nextOffset - e.tree.stop = e.buffer.length * BLOCK_SIZE := by
    rw [nextOffset, Nat.add_sub_cancel_left]
  unfold pages draft
  simp only [Editor.imageBytes]
  rw [if_neg (by rw [nextOffset]; omega), hstart, Nat.mul_mod_left,
    Nat.mul_div_cancel _ (by decide)]
  rw [require, Except.ensure_of, Except.ok_bind]
  · rw [List.getD_eq_getElem?_getD, List.getElem?_append_right (Nat.le_refl _), Nat.sub_self]
    rfl
  · refine ⟨rfl, ?_⟩
    rw [length_append, length_singleton, add_mul]
    simp

omit [Digest] in
theorem writePart_eq_ok {e e' : Editor} {links links' : List Child}
    {write : Nat → Except IoError Bytes} {start : Nat}
    (h : e.writePart links write start = .ok (links', e')) :
    ∃ page, write e.nextOffset = .ok page ∧ links' = links ++ [⟨start, e.nextOffset⟩] ∧
      e' = { e with buffer := e.buffer ++ [page] } ∧ e.buffer.length ≠ e.limit := by
  unfold writePart pushZeroed tryPush at h
  obtain ⟨u, h1, h⟩ := Except.bind_eq_ok.1 h
  obtain ⟨page, h2, h⟩ := Except.bind_eq_ok.1 h
  obtain ⟨l, h3, h⟩ := Except.bind_eq_ok.1 h
  cases h
  split at h1
  · cases h1
  · split at h3
    · cases h3
      exact ⟨page, h2, rfl, rfl, ‹_›⟩
    · cases h3

/-! ## One written page -/

section Page

variable {e : Editor} {c : Cursor} {page : Bytes} (hc : c.offset = e.nextOffset)
  (hu : c.upper < U64)
include hc hu

theorem holds_leaf_page {entries : List Extent} (hl : c.level = 0)
    (ho : Interval.Ordered c.lower c.upper entries)
    (hm : ∀ m ∈ c.minimum, m = (Node.leaf entries).minimum)
    (hw : leafInto e.nextOffset e.imageBytes entries = .ok page) :
    Holds ({ e with buffer := e.buffer ++ [page] } : Editor).pages 0 c entries := by
  have hfit : ∀ x ∈ entries, x.start < U64 ∧ x.stop < U64 := by
    intro x hx
    have := ho.mem x hx
    simp only [Interval.start, Interval.stop] at this
    omega
  obtain ⟨p, hp, hk, hl0, hent⟩ := leafInto_eq_ok hfit hw
  rw [← pages_nextOffset, ← hc] at hp
  refine ⟨hl, nodeAt_eq_leaf hp hk (by rw [hl0, hl]) hent ?_ hm⟩
  intro y hy
  have := ho.mem y hy
  exact ⟨this.1, this.2.2⟩

theorem nodeAt_branch_page {n : Nat} {children : List Child} {es : List Extent}
    (hmax : c.level < 2 ^ 16)
    (hf : Forest (Holds ({ e with buffer := e.buffer ++ [page] } : Editor).pages n) n c.lower
      c.upper children es)
    (hm : ∀ m ∈ c.minimum, m = (Node.branch children).minimum)
    (hw : branchInto e.nextOffset e.imageBytes c.level children = .ok page) :
    nodeAt ({ e with buffer := e.buffer ++ [page] } : Editor).pages c = .ok (.branch children) := by
  have hfit : ∀ d ∈ children, d.start < U64 ∧ d.offset < U64 := by
    intro d hd
    have hbd := hf.bounds d hd
    obtain ⟨c, a, hc, ha⟩ := hf.exists_of_mem d hd
    obtain ⟨node, hnode⟩ := ha.nodeAt
    have := offset_lt_of_nodeAt (pages_decoded _) hnode
    rw [hc] at this
    exact ⟨by omega, this⟩
  obtain ⟨p, hp, hk, hlp, hent⟩ := branchInto_eq_ok hmax hfit hw
  rw [← pages_nextOffset, ← hc] at hp
  refine nodeAt_eq_branch hp hk hlp hent ?_ hm
  intro y hy
  exact hf.bounds y hy

theorem holds_branch_page {n : Nat} {children : List Child} {es : List Extent}
    (hl : c.level = n + 1) (hmax : c.level < 2 ^ 16)
    (hf : Forest (Holds ({ e with buffer := e.buffer ++ [page] } : Editor).pages n) n c.lower
      c.upper children es)
    (hm : ∀ m ∈ c.minimum, m = (Node.branch children).minimum)
    (hw : branchInto e.nextOffset e.imageBytes c.level children = .ok page) :
    Holds ({ e with buffer := e.buffer ++ [page] } : Editor).pages (n + 1) c es :=
  ⟨hl, children, nodeAt_branch_page hc hu hmax hf hm hw, hf⟩

end Page

/-! ## Writing the entries of a node -/

section Parts

variable {α : Type} (level imageBytes bound : Nat) {start : α → Nat}
  {write : Nat → List α → Except IoError Bytes}
  {F : PageMap → Nat → Nat → List α → List Extent → Prop}
  (hmono : ∀ {P P' lo hi l es}, PageMap.Le P P' → F P lo hi l es → F P' lo hi l es)
  (hnil : ∀ {P lo hi es}, F P lo hi [] es → es = [])
  (hsplit : ∀ {P lo hi l l' es}, l ≠ [] → lo ≤ hi → F P lo hi (l ++ l') es →
    ∃ mid a b, lo ≤ mid ∧ mid ≤ hi ∧ es = a ++ b ∧ F P lo mid l a ∧ F P mid hi l' b)
  (hpage : ∀ {e : Editor} {page l lo hi es}, l ≠ [] → hi ≤ bound → e.imageBytes = imageBytes →
    write e.nextOffset l = .ok page →
    F ({ e with buffer := e.buffer ++ [page] } : Editor).pages lo hi l es →
    lo ≤ (l.head?).elim 0 start ∧ (l.head?).elim 0 start < hi ∧
      Holds ({ e with buffer := e.buffer ++ [page] } : Editor).pages level
        ⟨e.nextOffset, level, some ((l.head?).elim 0 start), lo, hi⟩ es)

include hmono hnil hsplit hpage in
/-- Writing parts one after the other appends links that hold what the parts stand for. -/
theorem foldlM_writePart_forest {parts : List (List α)} :
    ∀ {e e' : Editor} {links links' : List Child} {lo hi : Nat} {es : List Extent},
      (∀ part ∈ parts, part ≠ []) → lo ≤ hi → hi ≤ bound → e.imageBytes = imageBytes →
      F e.pages lo hi parts.flatten es →
      parts.foldlM (fun (s : List Child × Editor) part =>
        s.2.writePart s.1 (fun offset => write offset part) ((part.head?).elim 0 start))
        (links, e) = .ok (links', e') →
      ∃ new, links' = links ++ new ∧ e.Extends e' ∧
        Forest (Holds e'.pages level) level lo hi new es := by
  induction parts with
  | nil =>
    intro e e' links links' lo hi es _ _ _ _ hF h
    cases h
    exact ⟨[], by simp, Extends.refl _, hnil hF⟩
  | cons part rest ih =>
    intro e e' links links' lo hi es hne hlo hhi himg hF h
    rw [foldlM_cons] at h
    obtain ⟨⟨links₁, e₁⟩, h1, h2⟩ := Except.bind_eq_ok.1 h
    have hpart := hne part (by simp)
    obtain ⟨page, hw, hlinks, he₁, -⟩ := writePart_eq_ok h1
    have hext : e.Extends e₁ := by
      rw [he₁]
      exact ⟨rfl, rfl, rfl, prefix_append _ _⟩
    rw [flatten_cons] at hF
    obtain ⟨mid, a, b, hm1, hm2, hes, hFa, hFb⟩ := hsplit hpart hlo hF
    obtain ⟨new, hnew, hext', hforest⟩ := ih (fun p hp => hne p (mem_cons_of_mem part hp)) hm2
      hhi (by rw [hext.imageBytes, himg]) (hmono hext.pages hFb) h2
    have hFa' := hmono hext.pages hFa
    rw [he₁] at hFa'
    obtain ⟨hs1, hs2, hholds⟩ := hpage hpart (hm2.trans hhi) himg hw hFa'
    rw [← he₁] at hholds
    refine ⟨⟨(part.head?).elim 0 start, e.nextOffset⟩ :: new, ?_, hext.trans hext', ?_⟩
    · rw [hnew, hlinks, append_assoc, singleton_append]
    · have hsingle : Forest (Holds e'.pages level) level lo mid
          [⟨(part.head?).elim 0 start, e.nextOffset⟩] a :=
        ⟨hs1, hs2, a, [], by simp, hholds.mono hext'.pages, rfl⟩
      rw [hes]
      exact Forest.append (Holds.closed e'.pages_decoded level) hm2 hforest hm1 hsingle

end Parts

theorem leaves_forest {e e' : Editor} {entries : List Extent} {links : List Child} {lo hi : Nat}
    (hlo : lo ≤ hi) (hhi : hi < U64) (ho : Interval.Ordered lo hi entries)
    (h : e.leaves entries = .ok (links, e')) :
    e.Extends e' ∧ Forest (Holds e'.pages 0) 0 lo hi links entries := by
  obtain ⟨hflat, hne⟩ := flatten_chunks (width_pos LEAF_CAPACITY entries.length) entries
  have := foldlM_writePart_forest 0 e.imageBytes hi
    (F := fun _ lo hi l es => es = l ∧ Interval.Ordered lo hi l)
    (fun _ h => h) (fun h => h.1) ?_ ?_ hne hlo (le_refl _) rfl ⟨rfl, by rw [hflat]; exact ho⟩ h
  · obtain ⟨new, hnew, hext, hf⟩ := this
    rw [nil_append] at hnew
    rw [hnew]
    rw [hflat] at hf
    exact ⟨hext, hf⟩
  · rintro P lo hi l l' es - hlo ⟨rfl, ho⟩
    obtain ⟨mid, h1, h2, h3, h4⟩ := ho.split hlo
    exact ⟨mid, l, l', h1, h2, rfl, ⟨rfl, h3⟩, rfl, h4⟩
  · rintro e₀ page l lo hi _ hl hb himg hw ⟨rfl, ho⟩
    rename_i l
    rw [← himg] at hw
    cases l with
    | nil => exact (hl rfl).elim
    | cons x xs =>
      refine ⟨ho.1, lt_of_lt_of_le ho.2.1 ho.2.2.1, ?_⟩
      refine holds_leaf_page rfl (lt_of_le_of_lt hb hhi) rfl ho ?_ hw
      intro m hm
      cases hm
      rfl

theorem branches_forest {e e' : Editor} {level n : Nat} {children links : List Child} {lo hi : Nat}
    {es : List Extent} (hlevel : level = n + 1) (hmax : level < 2 ^ 16) (hlo : lo ≤ hi)
    (hhi : hi < U64) (hf : Forest (Holds e.pages n) n lo hi children es)
    (h : e.branches level children = .ok (links, e')) :
    e.Extends e' ∧ Forest (Holds e'.pages level) level lo hi links es := by
  obtain ⟨hflat, hne⟩ := flatten_chunks (width_pos BRANCH_CAPACITY children.length) children
  have := foldlM_writePart_forest level e.imageBytes hi
    (F := fun P lo hi l es => Forest (Holds P n) n lo hi l es)
    (fun hP h => h.mono fun _ _ => Holds.mono hP) (fun h => h) ?_ ?_ hne hlo (le_refl _) rfl
    (by rw [hflat]; exact hf) h
  · obtain ⟨new, hnew, hext, hf⟩ := this
    rw [nil_append] at hnew
    rw [hnew]
    exact ⟨hext, hf⟩
  · intro P lo hi l l' es hl hlo hf
    obtain ⟨a, b, hab, h1, h2⟩ := hf.split hl
    refine ⟨nextStart hi l', a, b, ?_, h2.nextStart_le, hab, h1, h2⟩
    cases l with
    | nil => exact (hl rfl).elim
    | cons c cs =>
      have := h1.bounds c (by simp)
      omega
  · intro e₀ page l lo hi es hl hb himg hw hf
    rw [← himg] at hw
    cases l with
    | nil => exact (hl rfl).elim
    | cons x xs =>
      have hx := hf.bounds x (by simp)
      subst hlevel
      refine ⟨hx.1, hx.2, ?_⟩
      refine holds_branch_page rfl (lt_of_le_of_lt hb hhi) rfl hmax hf ?_ hw
      intro m hm
      cases hm
      rfl

end Editor

end Cas.Manifest
