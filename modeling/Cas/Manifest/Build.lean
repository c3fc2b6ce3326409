import Cas.Manifest.Commit
import Cas.Manifest.Links

/-!
# A complete transaction

`emit_visits`: the final pass writes the reachable draft pages again, children first, and the emitted
tree holds what the draft held. `Prepared.build_visits` puts the edit loop, the final pass and the
COMMIT together: the committed pages followed by the transaction are a valid view that holds the
edited extents.
-/

namespace Cas.Manifest

open List
open Except (bind_eq_ok ok_bind)

open Interval (Ordered)

theorem pushZeroed_eq_ok {limit : Nat} {pages : List Bytes} {u : Unit} :
    pushZeroed limit pages = .ok u ↔ pages.length ≠ limit := by
  unfold pushZeroed
  split <;> simp [*]

section Length

variable [Digest] {offset imageBytes : Nat} {b : Bytes}

theorem length_finish {b' : Bytes} (h : finish b offset imageBytes = .ok b') :
    b'.length = BLOCK_SIZE := by
  obtain ⟨⟨p, hp⟩, -⟩ := finish_eq_ok h
  exact (Page.framed_of_decode hp).length

theorem length_leafInto {extents : List Extent} (h : leafInto offset imageBytes extents = .ok b) :
    b.length = BLOCK_SIZE :=
  length_finish (require_bind_eq_ok.1 h).2

theorem length_branchInto {level : Nat} {children : List Child}
    (h : branchInto offset imageBytes level children = .ok b) : b.length = BLOCK_SIZE :=
  length_finish (require_bind_eq_ok.1 h).2

end Length

/-- Pages written within the plan. -/
structure Emitted (limit : Nat) (output : List Bytes) : Prop where
  length_le : output.length ≤ limit
  page : ∀ p ∈ output, p.length = BLOCK_SIZE

theorem Emitted.push {limit : Nat} {output : List Bytes} {page : Bytes}
    (h : Emitted limit output) (hroom : output.length ≠ limit)
    (hp : page.length = BLOCK_SIZE) : Emitted limit (output ++ [page]) := by
  have := h.length_le
  refine ⟨by rw [length_append, length_singleton]; omega, fun p hm => ?_⟩
  rcases mem_append.1 hm with hm | hm
  · exact h.page p hm
  · rw [mem_singleton.1 hm, hp]

namespace Editor

variable [Digest]

/-! ## Committed subtrees -/

theorem tree_pages_le (e : Editor) : PageMap.Le e.tree.pages e.pages := by
  intro o p h
  have := (Tree.pages_eq_ok.1 h).1
  rw [pages, if_pos (by omega)]
  exact h

/-- A subtree whose root page is committed is committed as a whole: children lie below their parent
in the file. -/
theorem holds_committed {e : Editor} : ∀ {n : Nat} {c : Cursor} {es : List Extent},
    c.offset < e.tree.stop → Holds e.pages n c es → Holds e.tree.pages n c es := by
  intro n
  induction n with
  | zero =>
    rintro c es hc ⟨hl, hn⟩
    refine ⟨hl, ?_⟩
    rwa [nodeAt, pages, if_pos hc] at hn
  | succ n ih =>
    rintro c es hc ⟨hl, cs, hn, hf⟩
    have hbelow := offset_lt_of_branch e.pages_decoded hn
    refine ⟨hl, cs, ?_, hf.mono_mem fun d hd c' es' hc' h => ih ?_ h⟩
    · rwa [nodeAt, pages, if_pos hc] at hn
    · have := hbelow d hd
      omega

/-! ## Emission -/

theorem extends_of_le (e : Editor) {out out' : List Bytes} (h : out <+: out') :
    ({ e with buffer := out } : Editor).Extends { e with buffer := out' } := ⟨rfl, rfl, rfl, h⟩

/-- What a traversal of emitted pages visits: all output pages after the first `n`, and below the
transaction only pages of `S`. -/
structure Covers (S : Nat → Prop) (stop n : Nat) (output : List Bytes) (vs : List Visit) : Prop where
  output : ∀ i, n ≤ i → i < output.length → stop + i * BLOCK_SIZE ∈ pagesOf vs
  shared : ∀ o ∈ pagesOf vs, o < stop → S o

section Emit

variable {S : Nat → Prop} {e : Editor} {fuel n : Nat}
  (hemit : ∀ {c : Cursor} {es : List Extent} {out out' : List Bytes} {o : Nat},
    Holds e.pages n c es → (c.offset < e.tree.stop → S c.offset) → c.upper < U64 →
    Emitted e.limit out → e.emit fuel c out = .ok (o, out') →
    Emitted e.limit out' ∧ out <+: out' ∧
      ∃ vs, Visits ({ e with buffer := out' } : Editor).pages n { c with offset := o } vs ∧
        extentsOf vs = es ∧ Covers S e.tree.stop out.length out' vs)

include hemit in
/-- The children of a branch are emitted from left to right; only their offsets change. -/
theorem foldlM_emit_forest {upper : Nat} (hu : upper < U64) :
    ∀ {cs acc acc' : List Child} {lower : Nat} {es : List Extent} {out out' : List Bytes},
      Forest (Holds e.pages n) n lower upper cs es → (∀ d ∈ cs, d.Linked S e.tree.stop) →
      Emitted e.limit out →
      (cs.zip (kidsFrom n lower upper cs)).foldlM
        (fun (s : List Child × List Bytes) (next : Child × Cursor) => do
          let (offset, output) ← emit e fuel next.2 s.2
          return (s.1 ++ [{ next.1 with offset }], output)) (acc, out) = .ok (acc', out') →
      ∃ new vs, acc' = acc ++ new ∧ new.map Child.start = cs.map Child.start ∧
        Emitted e.limit out' ∧ out <+: out' ∧
        Forest (Visits ({ e with buffer := out' } : Editor).pages n) n lower upper new vs ∧
        extentsOf vs = es ∧ Covers S e.tree.stop out.length out' vs := by
  intro cs
  induction cs with
  | nil =>
    intro acc acc' lower es out out' hf _ ho h
    cases h
    cases hf
    exact ⟨[], [], by simp, rfl, ho, prefix_refl _, rfl, rfl, fun i h1 h2 => by omega, by simp [pagesOf]⟩
  | cons child cs ih =>
    rintro acc acc' lower es out out' ⟨h1, h2, a, b, rfl, hw, hrest⟩ hl ho h
    rw [kidsFrom, zip_cons_cons, foldlM_cons] at h
    obtain ⟨⟨acc₁, out₁⟩, hs1, hs2⟩ := bind_eq_ok.1 h
    obtain ⟨⟨o, out₂⟩, hs3, hs4⟩ := bind_eq_ok.1 hs1
    cases hs4
    have hnext := hrest.nextStart_le
    obtain ⟨ho₁, hp₁, va, hva, hea, hca⟩ := hemit hw (hl child (by simp)).inside
      (lt_of_le_of_lt hnext hu) ho hs3
    obtain ⟨new, vb, hnew, hstarts, ho', hp', hf', heb, hcb⟩ :=
      ih hrest (fun d hd => hl d (mem_cons_of_mem _ hd)) ho₁ hs2
    have hsame : nextStart upper new = nextStart upper cs := by
      have := congrArg head? hstarts
      simp only [head?_map] at this
      unfold nextStart
      cases hn : new.head? <;> cases hc : cs.head? <;> simp_all
    refine ⟨{ child with offset := o } :: new, va ++ vb, ?_, by simp [hstarts], ho', hp₁.trans hp', ?_,
      by rw [extentsOf_append, hea, heb], fun i hi hlt => ?_, fun o' ho' hlt => ?_⟩
    · rw [hnew, append_assoc, singleton_append]
    · refine ⟨h1, by rw [hsame]; exact h2, va, vb, rfl, ?_, by rw [hsame]; exact hf'⟩
      rw [hsame]
      exact hva.mono (extends_of_le e hp').pages
    · rw [pagesOf_append]
      by_cases hi' : i < out₁.length
      · exact mem_append_left _ (hca.output i hi hi')
      · exact mem_append_right _ (hcb.output i (not_lt.1 hi') hlt)
    · rw [pagesOf_append] at ho'
      rcases mem_append.1 ho' with ho' | ho'
      · exact hca.shared o' ho' hlt
      · exact hcb.shared o' ho' hlt

end Emit

/-- The emitted pages hold what the draft holds, each of them is visited, and the committed pages they
share are those the draft links. -/
theorem emit_visits {S : Nat → Prop} {e : Editor} (he : e.Linked S) :
    ∀ {n fuel : Nat} {c : Cursor} {es : List Extent} {out out' : List Bytes} {o : Nat},
    Holds e.pages n c es → (c.offset < e.tree.stop → S c.offset) → c.upper < U64 →
    Emitted e.limit out → e.emit fuel c out = .ok (o, out') →
    Emitted e.limit out' ∧ out <+: out' ∧
      ∃ vs, Visits ({ e with buffer := out' } : Editor).pages n { c with offset := o } vs ∧
        extentsOf vs = es ∧ Covers S e.tree.stop out.length out' vs := by
  -- a committed subtree is shared and adds no page
  have hshared : ∀ {n : Nat} {c : Cursor} {es : List Extent} (out : List Bytes),
      c.offset < e.tree.stop → (c.offset < e.tree.stop → S c.offset) → Holds e.pages n c es →
      ∃ vs, Visits ({ e with buffer := out } : Editor).pages n c vs ∧ extentsOf vs = es ∧
        Covers S e.tree.stop out.length out vs := by
    intro n c es out hc hS hh
    obtain ⟨vs, hv, hes⟩ := (holds_committed hc hh).visits
    refine ⟨vs, hv.mono (tree_pages_le { e with buffer := out }), hes, fun i h1 h2 => by omega, ?_⟩
    exact (hv.mono (tree_pages_le e)).within (S := fun o => o < e.tree.stop → S o)
      (fun k cs hk hb d hd => (he.pages k cs hk hb d hd).inside) hS
  intro n
  induction n with
  | zero =>
    intro fuel c es out out' o hh hS hu ho h
    cases fuel with
    | zero => cases h
    | succ fuel =>
      rw [emit] at h
      split at h
      · rename_i hc
        cases h
        exact ⟨ho, prefix_refl _, hshared _ hc hS hh⟩
      · obtain ⟨hl, hn⟩ := hh
        rw [read_eq, hn, ok_bind] at h
        obtain ⟨u, hroom, h⟩ := bind_eq_ok.1 h
        obtain ⟨page, hw, h⟩ := bind_eq_ok.1 h
        cases h
        obtain ⟨-, -, hord, hm⟩ := leaf_of_nodeAt e.pages_decoded hn
        refine ⟨ho.push (pushZeroed_eq_ok.1 hroom) (length_leafInto hw), prefix_append _ _, ?_⟩
        have hleaf := holds_leaf_page (e := { e with buffer := out })
          (c := { c with offset := e.tree.stop + out.length * BLOCK_SIZE }) rfl hu hl hord hm hw
        refine ⟨.inl (e.tree.stop + out.length * BLOCK_SIZE) :: es.map .inr,
          ⟨hleaf.1, es, hleaf.2, rfl⟩, by simp, fun i hi hlt => ?_, fun o ho hlt => ?_⟩
        · rw [length_append, length_singleton] at hlt
          rw [show i = out.length by omega]
          simp
        · simp only [pagesOf_page, pagesOf_map_extent, mem_singleton] at ho
          omega
  | succ n ih =>
    intro fuel c es out out' o hh hS hu ho h
    cases fuel with
    | zero => cases h
    | succ fuel =>
      rw [emit] at h
      split at h
      · rename_i hc
        cases h
        exact ⟨ho, prefix_refl _, hshared _ hc hS hh⟩
      · obtain ⟨hl, children, hn, hf⟩ := hh
        rw [read_eq, hn, ok_bind] at h
        obtain ⟨⟨new, out₁⟩, hfold, h⟩ := bind_eq_ok.1 h
        obtain ⟨u, hroom, h⟩ := bind_eq_ok.1 h
        obtain ⟨page, hw, h⟩ := bind_eq_ok.1 h
        cases h
        rw [Cursor.kids_eq, hl, Nat.add_sub_cancel] at hfold
        obtain ⟨new', vs, hnew, hstarts, ho₁, hp₁, hf₁, he₁, hc₁⟩ :=
          foldlM_emit_forest (fun hh hS hu ho h => ih hh hS hu ho h) hu hf
            (he.pages c children hS hn) ho hfold
        rw [nil_append] at hnew
        subst hnew
        obtain ⟨hlev, -, -, -, hm⟩ := branch_of_nodeAt e.pages_decoded hn
        have hmin : (Node.branch new).minimum = (Node.branch children).minimum := by
          have := congrArg head? hstarts
          simp only [head?_map] at this
          unfold Node.minimum
          cases hn : new.head? <;> cases hc : children.head? <;> simp_all
        have hgrow : out₁ <+: out₁ ++ [page] := prefix_append _ _
        have hf₂ : Forest (Visits ({ e with buffer := out₁ ++ [page] } : Editor).pages n) n c.lower
            c.upper new vs := hf₁.mono fun _ _ => Visits.mono (extends_of_le e hgrow).pages
        have hnode := nodeAt_branch_page (e := { e with buffer := out₁ })
          (c := { c with offset := e.tree.stop + out₁.length * BLOCK_SIZE }) rfl hu
          (by simp only [MAX_HEIGHT] at hlev; simp only; omega)
          hf₂.holds (by rw [hmin]; exact hm) hw
        refine ⟨ho₁.push (pushZeroed_eq_ok.1 hroom) (length_branchInto hw), hp₁.trans hgrow,
          .inl (e.tree.stop + out₁.length * BLOCK_SIZE) :: vs, ⟨hl, new, vs, hnode, rfl, hf₂⟩, he₁,
          fun i hi hlt => ?_, fun o ho hlt => ?_⟩
        · rw [length_append, length_singleton] at hlt
          rw [pagesOf_page]
          by_cases hi' : i < out₁.length
          · exact mem_cons_of_mem _ (hc₁.output i hi hi')
          · rw [show i = out₁.length by omega]
            exact mem_cons_self
        · rw [pagesOf_page] at ho
          rcases mem_cons.1 ho with ho | ho
          · omega
          · exact hc₁.shared o ho hlt

/-- The draft root is traversed as `vs`. -/
def RootVisits (e : Editor) (vs : List Visit) : Prop :=
  if e.root.offset = 0 then e.root.height = 0 ∧ vs = []
  else (1 ≤ e.root.height ∧ e.root.height ≤ MAX_HEIGHT) ∧
    Visits e.pages (e.root.height - 1) e.rootCursor vs

theorem emitRoot_visits {S : Nat → Prop} {e : Editor} {es : List Extent} {root : Root}
    {output : List Bytes} (hS : e.Linked S) (hu : e.imageBytes < U64) (hr : e.RootHolds es)
    (h : e.emitRoot = .ok (root, output)) :
    Emitted e.limit output ∧ ∃ vs,
      ({ e with buffer := output, root := root } : Editor).RootVisits vs ∧ extentsOf vs = es ∧
        Covers S e.tree.stop 0 output vs := by
  have hnil : Emitted e.limit [] := ⟨Nat.zero_le _, by simp⟩
  unfold emitRoot at h
  unfold RootHolds at hr
  split at h
  · rename_i h0
    cases h
    rw [if_pos h0] at hr
    exact ⟨hnil, [], by unfold RootVisits; simp only [if_pos h0, and_true]; exact hr.1, hr.2.symm,
      fun i _ hi => absurd hi (Nat.not_lt_zero i), fun o ho => absurd ho not_mem_nil⟩
  · rename_i h0
    rw [if_neg h0] at hr
    obtain ⟨hheight, hh⟩ := hr
    obtain ⟨⟨o, out⟩, hemit, h⟩ := bind_eq_ok.1 h
    cases h
    obtain ⟨ho, -, vs, hv, he, hc⟩ := emit_visits hS hh (hS.root h0) (upper_lt hu) hnil hemit
    refine ⟨ho, vs, ?_, he, hc⟩
    obtain ⟨node, hnode⟩ := hv.holds.nodeAt
    have hne := (offset_of_nodeAt (pages_decoded _) hnode).1
    unfold RootVisits
    rw [if_neg hne]
    exact ⟨hheight, hv⟩

end Editor

/-! ## The edit loop -/

/-- The effect of a list of edits, in order. -/
def applyEdits (edits : List Extent) (es : List Extent) : List Extent :=
  edits.foldl (fun es edit => applyEdit edit es) es

/-- What `checkEdits` requires of each edit of an image of `blocks` blocks. -/
def EditsIn (blocks : Nat) (edits : List Extent) : Prop :=
  ∀ edit ∈ edits, edit.Proper ∧ edit.stop ≤ blocks

theorem EditsIn.fits {imageBytes : Nat} {edits : List Extent} (hu : imageBytes < U64)
    (h : EditsIn (imageBytes / BLOCK_SIZE) edits) :
    ∀ edit ∈ edits, edit.start < U64 ∧ edit.stop < U64 := by
  intro edit he
  obtain ⟨hp, hin⟩ := h edit he
  have := hp.nonempty
  have := Nat.div_le_self imageBytes BLOCK_SIZE
  omega

theorem Editor.foldlM_applyBounded [Digest] : ∀ {edits es : List Extent} {s s' : Editor × Nat},
    s.1.imageBytes < U64 → EditsIn (s.1.imageBytes / BLOCK_SIZE) edits → s.1.RootHolds es →
    edits.foldlM applyBounded s = .ok s' →
    s'.1.tree = s.1.tree ∧ s'.1.limit = s.1.limit ∧ s'.1.RootHolds (applyEdits edits es)
  | [], es, s, s', _, _, hr, h => by
    cases h
    exact ⟨rfl, rfl, hr⟩
  | edit :: edits, es, s, s', hu, he, hr, h => by
    rw [foldlM_cons] at h
    obtain ⟨⟨e₁, m⟩, h1, h2⟩ := bind_eq_ok.1 h
    obtain ⟨e₂, h3, h4⟩ := bind_eq_ok.1 h1
    obtain ⟨-, h4⟩ := require_bind_eq_ok.1 h4
    cases h4
    obtain ⟨hp, hin⟩ := he edit (by simp)
    obtain ⟨ht, hl, hr'⟩ := apply_holds hu hp hin hr h3
    have himg : e₁.imageBytes = s.1.imageBytes := by rw [imageBytes, ht, imageBytes]
    obtain ⟨ht', hl', hr''⟩ := foldlM_applyBounded (s := (e₁, max s.2 _)) (by rw [himg]; exact hu)
      (by rw [himg]; exact fun x hx => he x (mem_cons_of_mem edit hx)) hr' h2
    exact ⟨ht'.trans ht, hl'.trans hl, hr''⟩

/-! ## The new view -/

/-- A page source followed by a transaction at `stop`. -/
def appendedPages (source : PageReader) (stop : Nat) (bytes : Bytes) : PageReader := fun offset =>
  if offset < stop then source offset else filePages bytes (offset - stop)

theorem flatten_pages {limit : Nat} {pages : List Bytes} (h : Emitted limit pages) :
    pages.flatten.length = BLOCK_SIZE * pages.length ∧ ∀ {i : Nat} {page : Bytes},
      pages[i]? = some page → Bytes.slice pages.flatten (BLOCK_SIZE * i) BLOCK_SIZE = page := by
  rw [← flatMap_id]
  exact ⟨Bytes.length_flatMap_records h.page, fun hi => Bytes.slice_flatMap_records h.page hi⟩

/-- The draft pages are found in the file after the transaction was appended. -/
theorem Editor.pages_le_appended [Digest] {e : Editor} {page : Bytes} {limit : Nat}
    {commit : Commit} (hout : Emitted limit (e.buffer ++ [page]))
    (himg : commit.imageBytes = e.imageBytes) :
    PageMap.Le e.pages
      (Tree.mk (appendedPages e.tree.source e.tree.stop (e.buffer ++ [page]).flatten) commit
        (e.tree.stop + (e.buffer ++ [page]).flatten.length)).pages := by
  obtain ⟨hlen, hslice⟩ := flatten_pages hout
  rw [length_append, length_singleton] at hlen
  intro o p hp
  rw [Tree.pages_eq_ok]
  dsimp only [appendedPages]
  unfold pages at hp
  split at hp
  · rename_i ho
    obtain ⟨-, b, hb, hd⟩ := Tree.pages_eq_ok.1 hp
    have hlt' : o < e.tree.stop + BLOCK_SIZE * (e.buffer.length + 1) - BLOCK_SIZE := by
      rw [Nat.mul_succ, ← Nat.add_assoc, Nat.add_sub_cancel]
      exact lt_of_lt_of_le ho (Nat.le_add_right _ _)
    rw [hlen, if_pos ho, himg]
    exact ⟨hlt', b, hb, hd⟩
  · rename_i ho
    obtain ⟨⟨h1, h2⟩, hd⟩ := draft_eq_ok.1 hp
    obtain ⟨i, hi⟩ : ∃ i, o - e.tree.stop = BLOCK_SIZE * i := Nat.dvd_of_mod_eq_zero h1
    have hib : i < e.buffer.length := by
      simp only [BLOCK_SIZE] at h2 hi
      omega
    have hpage : e.buffer[i]? = some e.buffer[i] := getElem?_eq_getElem hib
    have hmem : (e.buffer ++ [page])[i]? = some e.buffer[i] := by
      rw [getElem?_append_left hib, hpage]
    have hlt : o < e.tree.stop + BLOCK_SIZE * (e.buffer.length + 1) - BLOCK_SIZE := by
      simp only [BLOCK_SIZE] at hi ⊢
      omega
    have hfit : BLOCK_SIZE * i + BLOCK_SIZE ≤ BLOCK_SIZE * (e.buffer.length + 1) := by
      simp only [BLOCK_SIZE]
      omega
    have hread : filePages (e.buffer ++ [page]).flatten (o - e.tree.stop) = .ok e.buffer[i] := by
      rw [filePages, hi]
      refine readBytes_eq_ok.2 ⟨by simp [aligned], hlen ▸ hfit, (hslice hmem).symm⟩
    rw [if_neg ho, himg, hlen]
    refine ⟨hlt, e.buffer[i], hread, ?_⟩
    simp only [hi, Nat.mul_div_cancel_left i (show 0 < BLOCK_SIZE by decide),
      getD_eq_getElem?_getD, hpage, Option.getD_some] at hd
    exact hd

/-- A view that has the pages of the draft is traversed as the draft is. -/
theorem Editor.RootVisits.view [Digest] {e : Editor} {t : Tree} {vs : List Visit}
    (hroot : t.commit.root = e.root) (himg : t.commit.imageBytes = e.imageBytes)
    (hle : PageMap.Le e.pages t.pages) (hr : e.RootVisits vs) :
    t.VisitsAll vs ∧ (if t.commit.root.offset = 0 then t.commit.root.height = 0
      else (t.commit.root.offset ≠ 0 ∧ t.commit.root.offset % BLOCK_SIZE = 0) ∧
        t.commit.root.offset < t.stop - BLOCK_SIZE ∧
        1 ≤ t.commit.root.height ∧ t.commit.root.height ≤ MAX_HEIGHT) := by
  unfold Tree.VisitsAll
  unfold RootVisits at hr
  rw [← hroot] at hr
  by_cases h0 : t.commit.root.offset = 0
  · rw [if_pos h0] at hr ⊢
    rw [if_pos h0]
    exact ⟨hr.2, hr.1⟩
  · rw [if_neg h0] at hr ⊢
    rw [if_neg h0]
    have hcursor : e.rootCursor = Cursor.root t.commit := by
      unfold rootCursor Cursor.root
      rw [hroot, himg]
    obtain ⟨hheight, hh⟩ := hr
    rw [hcursor] at hh
    obtain ⟨node, hnode⟩ := (hh.mono hle).holds.nodeAt
    obtain ⟨q, hq, -⟩ := bind_eq_ok.1 hnode
    exact ⟨hh.mono hle, offset_of_nodeAt t.pages_decoded hnode, (Tree.pages_eq_ok.1 hq).1, hheight⟩

namespace Prepared

/-- The view of a transaction once its pages follow the committed ones. -/
def view (p : Prepared) (source : PageReader) : Tree :=
  ⟨appendedPages source p.offset p.bytes, p.commit, p.offset + p.bytes.length⟩

theorem checkEdits_eq_ok {current : Commit} {edits : List Extent} {durable : Nat} {u : Unit} :
    checkEdits current edits durable = .ok u ↔
      (edits.length ≤ MAX_CHANGES ∧ durable ≥ current.durable ∧
        (edits = [] ∨ durable > current.durable)) ∧
      EditsIn (current.imageBytes / BLOCK_SIZE) edits := by
  unfold checkEdits
  rw [require_bind_eq_ok, require_eq_ok]
  refine and_congr_right fun _ => ⟨fun h edit he => ?_, fun h edit he => ?_⟩
  · obtain ⟨h1, h2, h3⟩ := h edit he
    refine ⟨⟨h1, fun hs => ?_⟩, h2⟩
    rcases h3 with h3 | h3
    · rw [h3] at hs
      cases hs
    · omega
  · obtain ⟨⟨h1, h2⟩, h3⟩ := h edit he
    refine ⟨h1, h3, ?_⟩
    cases hh : edit.hash with
    | none => exact Or.inl rfl
    | some v =>
      have := h2 (by rw [hh]; rfl)
      exact Or.inr (by omega)

variable [Digest] {source : PageReader} {current : Commit} {stop durable : Nat}
  {edits : List Extent} {p : Prepared}

omit [Digest] in
theorem outputBound_iff {planned : Nat} :
    (checkedAdd stop (planned * BLOCK_SIZE)).any (fun n => n ≤ I64_MAX) = true ↔
      stop + planned * BLOCK_SIZE ≤ I64_MAX := by
  have hmax : I64_MAX < U64 := by decide
  cases hc : checkedAdd stop (planned * BLOCK_SIZE) with
  | none =>
    have : ¬ stop + planned * BLOCK_SIZE < U64 := by
      intro h
      rw [checkedAdd, if_pos h] at hc
      cases hc
    simp only [Option.any_none, Bool.false_eq_true, false_iff]
    omega
  | some n =>
    rw [(checkedAdd_eq_some.1 hc).1]
    simp only [Option.any_some, decide_eq_true_eq]

theorem build_eq_ok : build source current stop edits durable = .ok p ↔
    ∃ editor root output page m,
      checkEdits current edits durable = .ok () ∧ current.generation + 1 < U64 ∧
      (plan edits * BLOCK_SIZE ≤ MAX_TRANSACTION_BYTES ∧
        stop + plan edits * BLOCK_SIZE ≤ I64_MAX) ∧ validateView current stop = .ok () ∧
      edits.foldlM Editor.applyBounded (⟨⟨source, current, stop⟩, [], plan edits, current.root⟩, 0) =
        .ok (editor, m) ∧
      editor.emitRoot = .ok (root, output) ∧ output.length ≠ plan edits ∧
      Commit.encode { current with root, generation := current.generation + 1, durable }
        (stop + output.length * BLOCK_SIZE) = .ok page ∧
      p = ⟨output ++ [page], current,
        { current with root, generation := current.generation + 1, durable }, stop, m⟩ := by
  unfold build
  constructor
  · intro h
    obtain ⟨u, hcheck, h⟩ := bind_eq_ok.1 h
    split at h
    · cases h
    rename_i generation hgen
    obtain ⟨hgen, hlt⟩ := checkedAdd_eq_some.1 hgen
    subst hgen
    obtain ⟨⟨hplan, hbound⟩, h⟩ := require_bind_eq_ok.1 h
    obtain ⟨tree, htree, h⟩ := bind_eq_ok.1 h
    obtain ⟨v, hview, htree⟩ := bind_eq_ok.1 htree
    simp only [pure, Except.pure, Except.ok.injEq] at htree
    subst htree
    obtain ⟨⟨editor, m⟩, hfold, h⟩ := bind_eq_ok.1 h
    obtain ⟨⟨root, output⟩, hemit, h⟩ := bind_eq_ok.1 h
    obtain ⟨w, hroom, h⟩ := bind_eq_ok.1 h
    obtain ⟨page, hpage, h⟩ := bind_eq_ok.1 h
    simp only [pure, Except.pure, Except.ok.injEq] at h
    exact ⟨editor, root, output, page, m, hcheck, hlt, ⟨hplan, outputBound_iff.1 hbound⟩, hview,
      hfold, hemit, pushZeroed_eq_ok.1 hroom, hpage, h.symm⟩
  · rintro ⟨editor, root, output, page, m, hcheck, hlt, ⟨hplan, hbound⟩, hview, hfold, hemit, hroom,
      hpage, rfl⟩
    refine bind_eq_ok.2 ⟨(), hcheck, ?_⟩
    rw [checkedAdd_eq_some.2 ⟨rfl, hlt⟩]
    refine require_bind_eq_ok.2 ⟨⟨hplan, outputBound_iff.2 hbound⟩, ?_⟩
    refine bind_eq_ok.2 ⟨_, bind_eq_ok.2 ⟨(), hview, rfl⟩, ?_⟩
    refine bind_eq_ok.2 ⟨_, hfold, bind_eq_ok.2 ⟨_, hemit, ?_⟩⟩
    exact bind_eq_ok.2 ⟨(), pushZeroed_eq_ok.2 hroom, bind_eq_ok.2 ⟨page, hpage, rfl⟩⟩

/-- The draft before the first edit holds what the committed view holds. -/
theorem rootHolds_start {es : List Extent} (limit : Nat)
    (hv : validateView current stop = .ok ()) (hes : (Tree.mk source current stop).HoldsAll es) :
    (Editor.mk ⟨source, current, stop⟩ [] limit current.root).RootHolds es := by
  have hroot := (Commit.validate_eq_ok.1 (validateView_eq_ok.1 hv).2).2
  unfold Tree.HoldsAll at hes
  unfold Editor.RootHolds
  dsimp only at *
  by_cases h0 : current.root.offset = 0
  · rw [if_pos h0] at hes hroot ⊢
    exact ⟨hroot, hes⟩
  · rw [if_neg h0] at hes hroot ⊢
    exact ⟨hroot.2.2, hes.mono (Editor.tree_pages_le ⟨⟨source, current, stop⟩, [], limit, _⟩)⟩

omit [Digest] in
/-- A COMMIT that keeps the identity of the old one is valid after whole pages were appended. -/
theorem validateView_appended {commit : Commit} {n len : Nat}
    (hv : validateView current stop = .ok ()) (hgen : commit.generation ≠ 0)
    (hstore : commit.store = current.store) (himage : commit.image = current.image)
    (hbytes : commit.imageBytes = current.imageBytes) (hlen : len = BLOCK_SIZE * (n + 1))
    (hbound : stop + BLOCK_SIZE * (n + 1) ≤ I64_MAX)
    (hroot : if commit.root.offset = 0 then commit.root.height = 0
      else (commit.root.offset ≠ 0 ∧ commit.root.offset % BLOCK_SIZE = 0) ∧
        commit.root.offset < stop + len - BLOCK_SIZE ∧
        1 ≤ commit.root.height ∧ commit.root.height ≤ MAX_HEIGHT) :
    validateView commit (stop + len) = .ok () := by
  obtain ⟨⟨hstop, hmod, -⟩, hcommit⟩ := validateView_eq_ok.1 hv
  obtain ⟨⟨-, h1, h2, -, h3⟩, -⟩ := Commit.validate_eq_ok.1 hcommit
  subst hlen
  have hend : stop + BLOCK_SIZE * (n + 1) - BLOCK_SIZE = stop + BLOCK_SIZE * n := by
    rw [Nat.mul_succ, ← Nat.add_assoc, Nat.add_sub_cancel]
  have hpos : 2 * BLOCK_SIZE ≤ stop + BLOCK_SIZE * n := hstop.trans (Nat.le_add_right _ _)
  refine validateView_eq_ok.2 ⟨⟨hstop.trans (Nat.le_add_right _ _), ?_, hbound⟩, ?_⟩
  · rw [Nat.add_mul_mod_self_left]
    exact hmod
  · refine Commit.validate_eq_ok.2 ⟨⟨?_, ?_, ?_, hgen, ?_⟩, hroot⟩
    · rw [hend, Nat.add_mul_mod_self_left]
      exact ⟨ne_of_gt (lt_of_lt_of_le (by decide) hpos), hmod⟩
    · rw [hstore]
      exact h1
    · rw [himage]
      exact h2
    · rw [hbytes]
      exact h3

/-- The draft before the first edit links the pages of the committed view. -/
theorem linked_start {vs : List Visit} (limit : Nat) (hvs : (Tree.mk source current stop).VisitsAll vs) :
    (Editor.mk ⟨source, current, stop⟩ [] limit current.root).Linked (· ∈ pagesOf vs) := by
  unfold Tree.VisitsAll at hvs
  dsimp only at hvs
  refine ⟨fun h0 _ => ?_, fun c cs hc hn => ?_⟩
  · rw [if_neg h0] at hvs
    exact hvs.offset_mem
  · -- no page of the empty transaction decodes
    have hlt : c.offset < stop := by
      by_contra hge
      obtain ⟨p, hp, -⟩ := bind_eq_ok.1 hn
      unfold Editor.pages at hp
      rw [if_neg hge] at hp
      simpa using (Editor.draft_eq_ok.1 hp).1.2
    rw [nodeAt, Editor.pages, if_pos hlt] at hn
    intro d hd
    have hslot := Editor.slot_lt_of_branch (P := Tree.pages _) hn d hd
    refine ⟨fun _ => ?_, hslot.1, hslot.2⟩
    split at hvs
    · rw [hvs] at hc
      cases hc hlt
    · obtain ⟨k, node, hk, hnode, hcs⟩ := hvs.closed c.offset (hc hlt)
      exact hcs cs (node_of_nodeAt hk.symm hnode hn) d hd

/-- The new view is valid and holds the edited extents; it visits every page of the transaction but
the COMMIT, and of the committed pages only those of the old view. -/
theorem build_visits {vs : List Visit} (hu : current.imageBytes < U64)
    (hvs : (Tree.mk source current stop).VisitsAll vs)
    (h : build source current stop edits durable = .ok p) :
    validateView p.commit (p.offset + p.bytes.length) = .ok () ∧ ∃ vs',
      (p.view source).VisitsAll vs' ∧ extentsOf vs' = applyEdits edits (extentsOf vs) ∧
        (∀ i, i + 1 < p.pages.length → stop + i * BLOCK_SIZE ∈ pagesOf vs') ∧
        ∀ o ∈ pagesOf vs', o < stop → o ∈ pagesOf vs := by
  obtain ⟨editor, root, output, page, m, hcheck, hgen, ⟨-, hbound⟩, hv, hfold, hemit, hroom, hpage,
    rfl⟩ := build_eq_ok.1 h
  have hedits := (checkEdits_eq_ok.1 hcheck).2
  obtain ⟨htree, hlimit, hr⟩ := Editor.foldlM_applyBounded
    (s := (⟨⟨source, current, stop⟩, [], plan edits, current.root⟩, 0)) hu hedits
    (rootHolds_start _ hv hvs.holdsAll) hfold
  have hlinked := (Editor.foldlM_applyBounded_linked (S := (· ∈ pagesOf vs))
    (s := (⟨⟨source, current, stop⟩, [], plan edits, current.root⟩, 0)) (EditsIn.fits hu hedits)
    (linked_start _ hvs) hfold).2
  obtain ⟨tree, buffer, limit, draftRoot⟩ := editor
  dsimp only at htree hlimit hr hlinked
  subst htree hlimit
  obtain ⟨hout, vs', hr', he, hcover⟩ := Editor.emitRoot_visits
    (e := ⟨⟨source, current, stop⟩, buffer, plan edits, draftRoot⟩) hlinked hu hr hemit
  have hall : Emitted (plan edits) (output ++ [page]) := hout.push hroom (length_finish hpage)
  have hlen := (flatten_pages hall).1
  have hfit := hall.length_le
  rw [length_append, length_singleton] at hlen hfit
  obtain ⟨hvisits, hroot⟩ := hr'.view (t := view ⟨output ++ [page], current,
    { current with root, generation := current.generation + 1, durable }, stop, m⟩ source) rfl rfl
    (Editor.pages_le_appended (e := ⟨⟨source, current, stop⟩, output, plan edits, root⟩) hall rfl)
  refine ⟨validateView_appended hv (Nat.succ_ne_zero _) rfl rfl rfl hlen ?_ hroot, vs', hvisits, he,
    fun i hi => hcover.output i (Nat.zero_le _) ?_, hcover.shared⟩
  · have : BLOCK_SIZE * (output.length + 1) ≤ plan edits * BLOCK_SIZE := by
      rw [mul_comm]
      exact Nat.mul_le_mul_right _ hfit
    exact (Nat.add_le_add_left this stop).trans hbound
  · rw [length_append, length_singleton] at hi
    omega

/-- A COMMIT of an empty tree over an image of two blocks. -/
def emptyCommit : Commit where
  store := .fill 16 1
  image := .fill 16 2
  generation := 1
  root := .empty
  durable := 0
  imageBytes := 2 * BLOCK_SIZE

/-- A source without pages. -/
def noPages : PageReader := fun _ => .error ⟨.unexpectedEof, "failed to fill whole buffer"⟩

end Prepared

end Cas.Manifest
