import Cas.Manifest.Modify

/-!
# The draft root

After the root node was modified, its replacement may be nothing, one link or two; the root then
disappears, moves or grows a level, and loses levels that have a single child. In all cases the
draft holds the edited extents (`Editor.apply_holds`).
-/

namespace Cas.Manifest

open Except (bind_eq_ok)

open Interval (Ordered)

namespace Editor

/-! ## How many links come back -/

theorem foldlM_writePart_length {α : Type} {start : α → Nat}
    {write : Nat → List α → Except IoError Bytes} :
    ∀ {parts : List (List α)} {s s' : List Child × Editor}, s.1.length ≤ 2 →
      parts.foldlM (fun (s : List Child × Editor) part =>
        s.2.writePart s.1 (fun offset => write offset part) ((part.head?).elim 0 start)) s = .ok s' →
      s'.1.length ≤ 2
  | [], s, s', hs, h => by
    cases h
    exact hs
  | part :: parts, s, s', hs, h => by
    rw [List.foldlM_cons] at h
    obtain ⟨s₁, h1, h2⟩ := bind_eq_ok.1 h
    refine foldlM_writePart_length ?_ h2
    unfold writePart at h1
    obtain ⟨u, -, h1⟩ := bind_eq_ok.1 h1
    obtain ⟨page, -, h1⟩ := bind_eq_ok.1 h1
    obtain ⟨links, h3, h1⟩ := bind_eq_ok.1 h1
    cases h1
    obtain ⟨hlt, rfl⟩ := tryPush_eq_ok.1 h3
    rw [List.length_append, List.length_singleton]
    exact hlt

theorem writeParts_single {α : Type} {e e' : Editor} {capacity : Nat} {start : α → Nat}
    {write : Nat → List α → Except IoError Bytes} {entries : List α} {links : List Child}
    (hne : entries ≠ []) (hfit : entries.length ≤ capacity)
    (h : e.writeParts capacity start write entries = .ok (links, e')) : ∃ link, links = [link] := by
  have hpos := List.length_pos_iff.2 hne
  simp only [writeParts, if_neg (not_lt.2 hfit), Nat.max_eq_left hpos, chunks_length hne,
    List.foldlM_cons] at h
  obtain ⟨⟨links₁, e₁⟩, h1, h2⟩ := bind_eq_ok.1 h
  cases h2
  obtain ⟨page, -, hlinks, -⟩ := writePart_eq_ok h1
  exact ⟨_, hlinks⟩

variable [Digest]

theorem modify_length {edit : Extent} {fuel : Nat} {e e' : Editor} {node : Node} {c : Cursor}
    {links : List Child} (h : modify edit fuel e node c = .ok (links, e')) : links.length ≤ 2 := by
  cases fuel with
  | zero => cases h
  | succ fuel =>
    cases node with
    | leaf original =>
      obtain ⟨entries, -, h⟩ := bind_eq_ok.1 h
      split at h
      · cases h
        simp
      · exact foldlM_writePart_length (s := ([], e)) (by simp) h
    | branch original =>
      obtain ⟨⟨children, e₁⟩, -, h⟩ := bind_eq_ok.1 h
      simp only at h
      split at h
      · cases h
        simp
      · exact foldlM_writePart_length (s := ([], e₁)) (by simp) h

/-! ## What the draft holds -/

/-- The draft root holds the extents `es`. -/
def RootHolds (e : Editor) (es : List Extent) : Prop :=
  if e.root.offset = 0 then e.root.height = 0 ∧ es = []
  else (1 ≤ e.root.height ∧ e.root.height ≤ MAX_HEIGHT) ∧
    Holds e.pages (e.root.height - 1) e.rootCursor es

theorem rootHolds_empty (e : Editor) : ({ e with root := .empty } : Editor).RootHolds [] := by
  unfold RootHolds
  exact ⟨rfl, rfl⟩

/-- A single link that holds `es` may become the root. -/
theorem rootHolds_link {e : Editor} {link : Child} {height n : Nat} {es : List Extent}
    (hn : height = n + 1) (hmax : height ≤ MAX_HEIGHT)
    (hf : Forest (Holds e.pages n) n 0 (e.imageBytes / BLOCK_SIZE) [link] es) :
    ({ e with root := ⟨link.offset, height⟩ } : Editor).RootHolds es := by
  obtain ⟨h1, h2, a, b, rfl, hw, hb⟩ := hf
  cases hb
  obtain ⟨node, hnode⟩ := hw.nodeAt
  have ho := (offset_of_nodeAt e.pages_decoded hnode).1
  rw [RootHolds, if_neg ho, List.append_nil]
  subst hn
  refine ⟨⟨Nat.le_add_left _ _, hmax⟩, Holds.loosen e.pages_decoded ?_ hw⟩
  exact ⟨rfl, Nat.add_sub_cancel _ _, Nat.zero_le _, Nat.le_refl _, fun m hm => by cases hm⟩

theorem RootHolds.ordered {e : Editor} {es : List Extent} (h : e.RootHolds es) :
    Ordered 0 (e.imageBytes / BLOCK_SIZE) es := by
  unfold RootHolds at h
  split at h
  · rw [h.2]
    trivial
  · exact (h.2.good e.pages_decoded).ordered

section Apply

variable {e e' : Editor} {es : List Extent} (hu : e.imageBytes < U64)
include hu

omit [Digest] in
theorem upper_lt : e.imageBytes / BLOCK_SIZE < U64 := lt_of_le_of_lt (Nat.div_le_self _ _) hu

theorem regrow_holds {links : List Child} (hlen : links.length ≤ 2) (hpos : 1 ≤ e.root.height)
    (hmax : e.root.height ≤ MAX_HEIGHT)
    (hf : Forest (Holds e.pages (e.root.height - 1)) (e.root.height - 1) 0
      (e.imageBytes / BLOCK_SIZE) links es)
    (h : e.regrow links = .ok e') :
    e'.tree = e.tree ∧ e'.limit = e.limit ∧ e'.RootHolds es := by
  obtain ⟨n, hn⟩ : ∃ n, e.root.height = n + 1 := ⟨e.root.height - 1, by omega⟩
  rw [hn, Nat.add_sub_cancel] at hf
  cases links with
  | nil =>
    cases h
    cases hf
    exact ⟨rfl, rfl, rootHolds_empty e⟩
  | cons link rest =>
    cases rest with
    | nil =>
      cases h
      exact ⟨rfl, rfl, rootHolds_link hn hmax hf⟩
    | cons link' rest =>
      unfold regrow at h
      obtain ⟨hheight, h⟩ := require_bind_eq_ok.1 h
      obtain ⟨⟨top, e₁⟩, h1, h⟩ := bind_eq_ok.1 h
      cases h
      obtain ⟨hext, hf'⟩ := branches_forest hn (by simp only [MAX_HEIGHT] at *; omega)
        (Nat.zero_le _) (upper_lt hu) hf h1
      have hfit : (link :: link' :: rest).length ≤ BRANCH_CAPACITY :=
        hlen.trans (by decide)
      obtain ⟨l, rfl⟩ := writeParts_single (by simp) hfit h1
      rw [← hext.imageBytes, ← hext.root] at hf'
      rw [← hext.root] at hheight
      exact ⟨hext.tree, hext.limit, rootHolds_link rfl hheight hf'⟩

omit hu in
theorem collapse_holds : ∀ {fuel : Nat} {e : Editor}, e.RootHolds es →
    collapse fuel e = .ok e' → e'.tree = e.tree ∧ e'.limit = e.limit ∧ e'.RootHolds es
  | 0, e, hr, h => by
    cases h
    exact ⟨rfl, rfl, hr⟩
  | fuel + 1, e, hr, h => by
    unfold collapse at h
    split at h
    · rename_i hheight
      obtain ⟨node, hread, h⟩ := bind_eq_ok.1 h
      have hr' := hr
      rw [RootHolds] at hr'
      split at hr'
      · omega
      · obtain ⟨⟨-, hmax⟩, hh⟩ := hr'
        obtain ⟨n, hn⟩ : ∃ n, e.root.height = n + 2 := ⟨e.root.height - 2, by omega⟩
        rw [hn] at hh
        obtain ⟨-, children, hnode, hf⟩ := hh
        rw [read_eq, hnode] at hread
        cases hread
        simp only at h
        split at h
        · rename_i child
          have hone : ({ e with root := ⟨child.offset, e.root.height - 1⟩ } : Editor).RootHolds es :=
            rootHolds_link (n := n) (by omega) (by omega) hf
          have hrest := collapse_holds hone h
          exact hrest
        · cases h
          exact ⟨rfl, rfl, hr⟩
    · cases h
      exact ⟨rfl, rfl, hr⟩

theorem apply_holds {edit : Extent} (he : edit.Proper)
    (hin : edit.stop ≤ e.imageBytes / BLOCK_SIZE) (hr : e.RootHolds es)
    (h : e.apply edit = .ok e') :
    e'.tree = e.tree ∧ e'.limit = e.limit ∧ e'.RootHolds (applyEdit edit es) := by
  have hord := hr.ordered
  unfold apply at h
  split at h
  · -- a ZERO range over the whole image
    rename_i hall
    cases h
    obtain ⟨hnone, h0, hstop⟩ := hall
    have : applyEdit edit es = [] := by
      rw [applyEdit, if_neg (by simp [hnone])]
      refine Interval.cut_of_inside fun a ha => ?_
      have := hord.mem a ha
      omega
    rw [this]
    exact ⟨rfl, rfl, rootHolds_empty e⟩
  · split at h
    · rename_i h0
      rw [RootHolds, if_pos h0] at hr
      obtain ⟨hheight, rfl⟩ := hr
      split at h
      · -- the first chunk of an empty tree
        rename_i hs
        obtain ⟨⟨links, e₁⟩, h1, h⟩ := bind_eq_ok.1 h
        cases h
        have hedit : applyEdit edit [] = [edit] := by rw [applyEdit, if_pos hs]; rfl
        obtain ⟨hext, hf⟩ := leaves_forest (Nat.zero_le _) (upper_lt hu)
          (show Ordered 0 _ [edit] from ⟨Nat.zero_le _, he.nonempty, hin, trivial⟩) h1
        obtain ⟨l, rfl⟩ := writeParts_single (by simp) (by simp) h1
        rw [← hext.imageBytes] at hf
        rw [hedit]
        exact ⟨hext.tree, hext.limit, rootHolds_link rfl (by decide) hf⟩
      · rename_i hs
        cases h
        rw [applyEdit, if_neg hs, Interval.cut_nil]
        refine ⟨rfl, rfl, ?_⟩
        rw [RootHolds, if_pos h0]
        exact ⟨hheight, rfl⟩
    · rename_i h0
      rw [RootHolds, if_neg h0] at hr
      obtain ⟨⟨hpos, hmax⟩, hh⟩ := hr
      obtain ⟨node, hread, h⟩ := bind_eq_ok.1 h
      obtain ⟨⟨links, e₁⟩, h1, h⟩ := bind_eq_ok.1 h
      obtain ⟨e₂, h2, h3⟩ := bind_eq_ok.1 h
      rw [read_eq] at hread
      obtain ⟨hext, hf⟩ := modify_forest he hh (upper_lt hu) hread
        (fun _ => ⟨Nat.zero_le _, hin⟩) h1
      rw [← hext.root] at hf hpos hmax
      obtain ⟨ht2, hl2, hr2⟩ := regrow_holds (by rw [hext.imageBytes]; exact hu) (modify_length h1)
        hpos hmax (by rw [hext.imageBytes]; exact hf) h2
      obtain ⟨ht3, hl3, hr3⟩ := collapse_holds hr2 h3
      exact ⟨by rw [ht3, ht2, hext.tree], by rw [hl3, hl2, hext.limit], hr3⟩

end Apply

end Editor

end Cas.Manifest
