import Cas.Manifest.Apply
import Cas.Manifest.Visits

/-!
# What a draft shares

The draft links its own pages and committed ones. Let `S` be a set of committed pages that is closed
under children and holds the old root, such as the pages of the old tree. Then every committed page
that the draft links is in `S` (`Editor.apply_linked`): an edit copies links, it never invents one.
-/

namespace Cas.Manifest

open List
open Except (bind_eq_ok)

/-- A link into the transaction or to a page of `S`, with fields that fit a slot. -/
structure Child.Linked (S : Nat → Prop) (stop : Nat) (d : Child) : Prop where
  inside : d.offset < stop → S d.offset
  start_lt : d.start < U64
  offset_lt : d.offset < U64

theorem elim_head_lt {α : Type} {l : List α} {f : α → Nat} (h : ∀ a ∈ l, f a < U64) :
    (l.head?).elim 0 f < U64 := by
  cases l with
  | nil => exact Nat.two_pow_pos 64
  | cons a l => exact h a (by simp)

namespace Editor

variable [Digest] {S : Nat → Prop}

/-- The draft links committed pages of `S` only. -/
structure Linked (S : Nat → Prop) (e : Editor) : Prop where
  root : e.root.offset ≠ 0 → e.root.offset < e.tree.stop → S e.root.offset
  pages : ∀ c cs, (c.offset < e.tree.stop → S c.offset) → nodeAt e.pages c = .ok (.branch cs) →
    ∀ d ∈ cs, d.Linked S e.tree.stop

/-! ## Writing pages -/

theorem pages_of_append {e : Editor} {page : Bytes} {o : Nat} {p : Page} (ho : o ≠ e.nextOffset)
    (h : ({ e with buffer := e.buffer ++ [page] } : Editor).pages o = .ok p) : e.pages o = .ok p := by
  unfold pages at *
  dsimp only at *
  split
  · rename_i hlt
    rwa [if_pos hlt] at h
  · rename_i hge
    rw [if_neg hge] at h
    obtain ⟨⟨h1, h2⟩, hd⟩ := draft_eq_ok.1 h
    dsimp only at h1 h2 hd
    have hlt : o - e.tree.stop < e.buffer.length * BLOCK_SIZE := by
      rw [nextOffset] at ho
      rw [length_append, length_singleton] at h2
      obtain ⟨i, hi⟩ : ∃ i, o - e.tree.stop = BLOCK_SIZE * i := Nat.dvd_of_mod_eq_zero h1
      have hlt : i < e.buffer.length + 1 := by
        rw [hi, mul_comm] at h2
        exact Nat.lt_of_mul_lt_mul_right h2
      have hne : i ≠ e.buffer.length := by
        rintro rfl
        rw [mul_comm, ← hi] at ho
        omega
      rw [hi, mul_comm]
      exact Nat.mul_lt_mul_of_pos_right (by omega) (by decide)
    have hi : (o - e.tree.stop) / BLOCK_SIZE < e.buffer.length :=
      Nat.div_lt_of_lt_mul (by rw [mul_comm]; exact hlt)
    refine draft_eq_ok.2 ⟨⟨h1, hlt⟩, ?_⟩
    rwa [getD_append _ _ _ _ hi] at hd

/-- An appended page keeps the links of the draft when its own children are linked. -/
theorem Linked.append {e : Editor} (h : e.Linked S) {page : Bytes}
    (hp : ∀ c cs, c.offset = e.nextOffset →
      nodeAt ({ e with buffer := e.buffer ++ [page] } : Editor).pages c = .ok (.branch cs) →
      ∀ d ∈ cs, d.Linked S e.tree.stop) :
    ({ e with buffer := e.buffer ++ [page] } : Editor).Linked S := by
  refine ⟨h.root, fun c cs hc hn => ?_⟩
  by_cases ho : c.offset = e.nextOffset
  · exact hp c cs ho hn
  · obtain ⟨p, hpage, hd⟩ := bind_eq_ok.1 hn
    exact h.pages c cs hc (bind_eq_ok.2 ⟨p, pages_of_append ho hpage, hd⟩)

section Parts

variable {α : Type} {start : α → Nat} {write : Nat → List α → Except IoError Bytes}
  {P : α → Prop} {tree : Tree}

theorem foldlM_writePart_linked (hstart : ∀ a, P a → start a < U64)
    (hwrite : ∀ {e : Editor} {part page}, (∀ a ∈ part, P a) → e.tree = tree →
      write e.nextOffset part = .ok page → e.nextOffset < U64 ∧
      ∀ c cs, c.offset = e.nextOffset →
        nodeAt ({ e with buffer := e.buffer ++ [page] } : Editor).pages c = .ok (.branch cs) →
        ∀ d ∈ cs, d.Linked S tree.stop) :
    ∀ {parts : List (List α)} {e e' : Editor} {links links' : List Child},
      (∀ part ∈ parts, ∀ a ∈ part, P a) → e.tree = tree → e.Linked S →
      (∀ d ∈ links, d.Linked S tree.stop) →
      parts.foldlM (fun (s : List Child × Editor) part =>
        s.2.writePart s.1 (fun offset => write offset part) ((part.head?).elim 0 start))
        (links, e) = .ok (links', e') →
      e.Extends e' ∧ e'.Linked S ∧ ∀ d ∈ links', d.Linked S tree.stop
  | [], e, e', links, links', _, _, he, hl, h => by
    cases h
    exact ⟨Extends.refl _, he, hl⟩
  | part :: parts, e, e', links, links', hok, htree, he, hl, h => by
    rw [foldlM_cons] at h
    obtain ⟨⟨links₁, e₁⟩, h1, h2⟩ := bind_eq_ok.1 h
    obtain ⟨page, hw, rfl, rfl, -⟩ := writePart_eq_ok h1
    obtain ⟨hlt, hpage⟩ := hwrite (hok part (by simp)) htree hw
    have hlink : Child.Linked S tree.stop ⟨(part.head?).elim 0 start, e.nextOffset⟩ := by
      refine ⟨fun h => ?_, ?_, hlt⟩
      · simp only [nextOffset, htree] at h
        omega
      · exact elim_head_lt fun a ha => hstart a (hok part (by simp) a ha)
    obtain ⟨hext, he', hl'⟩ := foldlM_writePart_linked hstart hwrite
      (e := { e with buffer := e.buffer ++ [page] })
      (fun p hp => hok p (mem_cons_of_mem _ hp)) htree
      (he.append fun c cs hc hn => htree ▸ hpage c cs hc hn)
      (fun d hd => by
        rcases mem_append.1 hd with hd | hd
        · exact hl d hd
        · rw [mem_singleton.1 hd]
          exact hlink) h2
    have hstep : e.Extends { e with buffer := e.buffer ++ [page] } :=
      ⟨rfl, rfl, rfl, prefix_append _ _⟩
    exact ⟨hstep.trans hext, he', hl'⟩

end Parts

omit [Digest] in
theorem mem_of_mem_chunks {α : Type} {width : Nat} (hw : 1 ≤ width) {l part : List α} {a : α}
    (hp : part ∈ chunks width l) (ha : a ∈ part) : a ∈ l := by
  rw [← (flatten_chunks hw l).1]
  exact mem_flatten.2 ⟨part, hp, ha⟩

theorem nextOffset_lt_of_decode {e : Editor} {page : Bytes} {imageBytes : Nat} {p : Page}
    (h : Page.decode page e.nextOffset imageBytes = .ok p) : e.nextOffset < U64 := by
  rw [← (Page.framed_of_decode h).address.1]
  exact u64At_lt _ _

theorem leaves_linked {e e' : Editor} {entries : List Extent} {links : List Child}
    (he : e.Linked S) (hfit : ∀ x ∈ entries, x.start < U64 ∧ x.stop < U64)
    (h : e.leaves entries = .ok (links, e')) :
    e.Extends e' ∧ e'.Linked S ∧ ∀ d ∈ links, d.Linked S e.tree.stop := by
  refine foldlM_writePart_linked (P := fun x : Extent => x.start < U64 ∧ x.stop < U64)
    (fun a ha => ha.1) ?_
    (fun part hp a ha => hfit a (mem_of_mem_chunks (width_pos _ _) hp ha)) rfl he (by simp) h
  intro e₀ part page hok htree hw
  obtain ⟨p, hp, hk, -, -⟩ := leafInto_eq_ok hok hw
  refine ⟨nextOffset_lt_of_decode hp, fun c cs hc hn => ?_⟩
  obtain ⟨q, hq, hd⟩ := bind_eq_ok.1 hn
  rw [hc, pages_nextOffset, imageBytes, htree] at hq
  rw [imageBytes, hq] at hp
  cases hp
  rw [(Node.read_eq_branch.1 (Node.decode_eq_ok.1 hd).2.1).1] at hk
  cases hk

theorem branches_linked {e e' : Editor} {level : Nat} {children links : List Child}
    (he : e.Linked S) (hmax : level < 2 ^ 16) (hc : ∀ d ∈ children, d.Linked S e.tree.stop)
    (h : e.branches level children = .ok (links, e')) :
    e.Extends e' ∧ e'.Linked S ∧ ∀ d ∈ links, d.Linked S e.tree.stop := by
  refine foldlM_writePart_linked (P := fun d => Child.Linked S e.tree.stop d)
    (fun a ha => ha.start_lt) ?_
    (fun part hp a ha => hc a (mem_of_mem_chunks (width_pos _ _) hp ha)) rfl he (by simp) h
  intro e₀ part page hok htree hw
  obtain ⟨p, hp, -, -, hcs⟩ := branchInto_eq_ok hmax
    (fun d hd => ⟨(hok d hd).start_lt, (hok d hd).offset_lt⟩) hw
  refine ⟨nextOffset_lt_of_decode hp, fun c cs hoff hn => ?_⟩
  obtain ⟨q, hq, hd⟩ := bind_eq_ok.1 hn
  rw [hoff, pages_nextOffset, imageBytes, htree] at hq
  rw [imageBytes, hq] at hp
  cases hp
  rw [← (Node.read_eq_branch.1 (Node.decode_eq_ok.1 hd).2.1).2.1, hcs]
  exact hok

/-! ## One edit -/

omit [Digest] in
theorem fits_of_leaf {P : PageMap} {c : Cursor} {entries : List Extent}
    (h : nodeAt P c = .ok (.leaf entries)) : ∀ x ∈ entries, x.start < U64 ∧ x.stop < U64 := by
  obtain ⟨p, -, hd⟩ := bind_eq_ok.1 h
  obtain ⟨-, rfl, -⟩ := Node.read_eq_leaf.1 (Node.decode_eq_ok.1 hd).2.1
  intro x hx
  obtain ⟨slot, -, rfl⟩ := mem_map.1 hx
  exact ⟨u64At_lt _ _, u64At_lt _ _⟩

omit [Digest] in
theorem fits_leafEntries {original entries : List Extent} {edit : Extent}
    (h : leafEntries original edit = .ok entries) (ho : ∀ x ∈ original, x.start < U64 ∧ x.stop < U64)
    (he : edit.start < U64 ∧ edit.stop < U64) : ∀ x ∈ entries, x.start < U64 ∧ x.stop < U64 := by
  unfold leafEntries at h
  obtain ⟨kept, h1, h⟩ := bind_eq_ok.1 h
  obtain ⟨all, h2, h⟩ := bind_eq_ok.1 h
  have hkept := foldlM_keepOutside h1
  rw [nil_append] at hkept
  cases h
  have hcut : ∀ x ∈ kept, x.start < U64 ∧ x.stop < U64 := by
    rw [hkept]
    intro x hx
    obtain ⟨a, ha, hx⟩ := mem_flatMap.1 hx
    obtain ⟨h3, h4⟩ := ho a ha
    unfold Interval.pieces at hx
    split at hx
    · rw [mem_singleton.1 hx]
      exact ⟨h3, h4⟩
    · rcases mem_append.1 hx with hx | hx <;> split at hx
      · rw [mem_singleton.1 hx]
        exact ⟨h3, he.1⟩
      · cases hx
      · rw [mem_singleton.1 hx]
        exact ⟨he.2, h4⟩
      · cases hx
  intro x hx
  have hx := mem_mergeSort.1 hx
  split at h2
  · rw [(tryPush_eq_ok.1 h2).2] at hx
    rcases mem_append.1 hx with hx | hx
    · exact hcut x hx
    · rw [mem_singleton.1 hx]
      exact he
  · cases h2
    exact hcut x hx

theorem linked_unchanged {e : Editor} {c : Cursor} {node : Node} (he : e.Linked S)
    (hc : c.offset < e.tree.stop → S c.offset) (hn : nodeAt e.pages c = .ok node) :
    Child.Linked S e.tree.stop ⟨node.minimum, c.offset⟩ := by
  refine ⟨hc, ?_, offset_lt_of_nodeAt e.pages_decoded hn⟩
  cases node with
  | leaf entries => exact elim_head_lt fun x hx => (fits_of_leaf hn x hx).1
  | branch children => exact elim_head_lt fun d hd => (he.pages c children hc hn d hd).start_lt

omit [Digest] in
theorem kids_linked {S : Nat → Prop} {level stop : Nat} : ∀ {lower upper : Nat} {cs : List Child},
    (∀ d ∈ cs, d.Linked S stop) → ∀ next ∈ cs.zip (kidsFrom level lower upper cs),
      next.1.Linked S stop ∧ next.2.offset = next.1.offset
  | _, _, [], _, _, h => by cases h
  | _, _, c :: cs, hl, next, h => by
    rw [kidsFrom, zip_cons_cons] at h
    rcases mem_cons.1 h with rfl | h
    · exact ⟨hl c (by simp), rfl⟩
    · exact kids_linked (fun d hd => hl d (mem_cons_of_mem _ hd)) next h

section Children

variable {edit : Extent} {tree : Tree}
  {modify : Editor → Node → Cursor → Except IoError (List Child × Editor)}
  (hmodify : ∀ {e e' : Editor} {node : Node} {c : Cursor} {links : List Child}, e.tree = tree →
    e.Linked S → (c.offset < tree.stop → S c.offset) → nodeAt e.pages c = .ok node →
    modify e node c = .ok (links, e') →
    e.Extends e' ∧ e'.Linked S ∧ ∀ d ∈ links, d.Linked S tree.stop)

include hmodify in
theorem foldlM_modifyChild_linked : ∀ {next : List (Child × Cursor)} {s s' : List Child × Editor},
    s.2.tree = tree → s.2.Linked S → (∀ d ∈ s.1, d.Linked S tree.stop) →
    (∀ x ∈ next, x.1.Linked S tree.stop ∧ x.2.offset = x.1.offset) →
    next.foldlM (modifyChild edit modify) s = .ok s' →
    s.2.Extends s'.2 ∧ s'.2.Linked S ∧ ∀ d ∈ s'.1, d.Linked S tree.stop
  | [], s, s', _, he, hl, _, h => by
    cases h
    exact ⟨Extends.refl _, he, hl⟩
  | (child, c) :: next, s, s', ht, he, hl, hnext, h => by
    rw [foldlM_cons] at h
    obtain ⟨s₁, h1, h2⟩ := bind_eq_ok.1 h
    obtain ⟨hchild, hoff⟩ := hnext (child, c) (by simp)
    have hstep : s.2.Extends s₁.2 ∧ s₁.2.Linked S ∧ ∀ d ∈ s₁.1, d.Linked S tree.stop := by
      unfold modifyChild at h1
      split at h1
      · obtain ⟨children, h3, h4⟩ := bind_eq_ok.1 h1
        cases h4
        refine ⟨Extends.refl _, he, ?_⟩
        rw [(tryPush_eq_ok.1 h3).2]
        intro d hd
        rcases mem_append.1 hd with hd | hd
        · exact hl d hd
        · rw [mem_singleton.1 hd]
          exact hchild
      · split at h1
        · cases h1
          exact ⟨Extends.refl _, he, hl⟩
        · obtain ⟨node, h3, h1⟩ := bind_eq_ok.1 h1
          obtain ⟨⟨replacement, e⟩, h4, h1⟩ := bind_eq_ok.1 h1
          obtain ⟨children, h5, h1⟩ := bind_eq_ok.1 h1
          cases h1
          rw [read_eq] at h3
          obtain ⟨hext, he', hl'⟩ := hmodify ht he (fun h => by
            rw [hoff] at h ⊢
            exact hchild.inside h) h3 h4
          refine ⟨hext, he', ?_⟩
          rw [(tryExtend_eq_ok.1 h5).2]
          intro d hd
          rcases mem_append.1 hd with hd | hd
          · exact hl d hd
          · exact hl' d hd
    obtain ⟨hext, he₁, hl₁⟩ := hstep
    obtain ⟨hext', he', hl'⟩ := foldlM_modifyChild_linked (hext.tree.trans ht) he₁ hl₁
      (fun x hx => hnext x (mem_cons_of_mem _ hx)) h2
    exact ⟨hext.trans hext', he', hl'⟩

end Children

theorem modify_linked {edit : Extent} (hedit : edit.start < U64 ∧ edit.stop < U64) {tree : Tree} :
    ∀ {fuel : Nat} {e e' : Editor} {node : Node} {c : Cursor} {links : List Child}, e.tree = tree →
      e.Linked S → (c.offset < tree.stop → S c.offset) → nodeAt e.pages c = .ok node →
      modify edit fuel e node c = .ok (links, e') →
      e.Extends e' ∧ e'.Linked S ∧ ∀ d ∈ links, d.Linked S tree.stop := by
  intro fuel
  induction fuel with
  | zero =>
    intro e e' node c links _ _ _ _ h
    cases h
  | succ fuel ih =>
    intro e e' node c links ht he hc hn h
    have hkeep := linked_unchanged he (by rw [ht]; exact hc) hn
    rw [ht] at hkeep
    have hsame : ∀ d ∈ [(⟨node.minimum, c.offset⟩ : Child)], d.Linked S tree.stop := by
      intro d hd
      rw [mem_singleton.1 hd]
      exact hkeep
    cases node with
    | leaf original =>
      obtain ⟨entries, h1, h⟩ := bind_eq_ok.1 h
      split at h
      · cases h
        exact ⟨Extends.refl _, he, hsame⟩
      · rw [← ht]
        exact leaves_linked he (fits_leafEntries h1 (fits_of_leaf hn) hedit) h
    | branch original =>
      obtain ⟨⟨children, e₁⟩, h1, h⟩ := bind_eq_ok.1 h
      have horig := he.pages c original (by rw [ht]; exact hc) hn
      rw [ht] at horig
      rw [Cursor.kids_eq] at h1
      obtain ⟨hext, he₁, hl₁⟩ := foldlM_modifyChild_linked (fun ht he hc hn h => ih ht he hc hn h)
        (s := ([], e)) ht he (by simp) (kids_linked horig) h1
      simp only at hext he₁ hl₁ h
      split at h
      · cases h
        exact ⟨hext, he₁, hsame⟩
      · have hlev := (branch_of_nodeAt e.pages_decoded hn).1.2
        have ht₁ : e₁.tree = tree := hext.tree.trans ht
        obtain ⟨hext', he', hl'⟩ := branches_linked he₁
          (lt_of_lt_of_le hlev (by decide)) (by rw [ht₁]; exact hl₁) h
        rw [ht₁] at hl'
        exact ⟨hext.trans hext', he', hl'⟩

/-! ## The draft root -/

theorem Linked.withRoot {e : Editor} (h : e.Linked S) (root : Root)
    (hr : root.offset ≠ 0 → root.offset < e.tree.stop → S root.offset) :
    ({ e with root := root } : Editor).Linked S := ⟨hr, h.pages⟩

omit [Digest] in
theorem head_inside {links : List Child} {stop : Nat} (hl : ∀ d ∈ links, d.Linked S stop) :
    (links.head?).elim 0 Child.offset ≠ 0 → (links.head?).elim 0 Child.offset < stop →
      S ((links.head?).elim 0 Child.offset) := by
  cases hh : links.head? with
  | none => exact fun h => (h rfl).elim
  | some d => exact fun _ h => (hl d (mem_of_mem_head? hh)).inside h

theorem regrow_linked {e e' : Editor} {links : List Child} (he : e.Linked S)
    (hl : ∀ d ∈ links, d.Linked S e.tree.stop) (h : e.regrow links = .ok e') :
    e'.tree = e.tree ∧ e'.Linked S := by
  unfold regrow at h
  split at h
  · cases h
    exact ⟨rfl, he.withRoot _ fun h => (h rfl).elim⟩
  · cases h
    exact ⟨rfl, he.withRoot _ fun _ => (hl _ (by simp)).inside⟩
  · obtain ⟨hheight, h⟩ := require_bind_eq_ok.1 h
    obtain ⟨⟨top, e₁⟩, h1, h⟩ := bind_eq_ok.1 h
    cases h
    obtain ⟨hext, he₁, hl₁⟩ := branches_linked he (lt_trans hheight (by decide)) hl h1
    refine ⟨hext.tree, he₁.withRoot _ ?_⟩
    rw [hext.tree]
    exact head_inside hl₁

theorem collapse_linked {e' : Editor} : ∀ {fuel : Nat} {e : Editor}, e.Linked S →
    collapse fuel e = .ok e' → e'.tree = e.tree ∧ e'.Linked S
  | 0, e, he, h => by
    cases h
    exact ⟨rfl, he⟩
  | fuel + 1, e, he, h => by
    unfold collapse at h
    split at h
    · obtain ⟨node, hread, h⟩ := bind_eq_ok.1 h
      rw [read_eq] at hread
      cases node with
      | leaf entries => cases h
      | branch children =>
        simp only at h
        split at h
        · rename_i child
          have hroot := (offset_of_nodeAt e.pages_decoded hread).1
          have hchild := he.pages e.rootCursor [child] (he.root hroot) hread child (by simp)
          have hrest := collapse_linked (e := { e with root := ⟨child.offset, e.root.height - 1⟩ })
            (he.withRoot _ fun _ => hchild.inside) h
          exact hrest
        · cases h
          exact ⟨rfl, he⟩
    · cases h
      exact ⟨rfl, he⟩

theorem apply_linked {e e' : Editor} {edit : Extent} (hedit : edit.start < U64 ∧ edit.stop < U64)
    (he : e.Linked S) (h : e.apply edit = .ok e') : e'.tree = e.tree ∧ e'.Linked S := by
  unfold apply at h
  split at h
  · cases h
    exact ⟨rfl, he.withRoot _ fun h => (h rfl).elim⟩
  · split at h
    · split at h
      · obtain ⟨⟨links, e₁⟩, h1, h⟩ := bind_eq_ok.1 h
        cases h
        obtain ⟨hext, he₁, hl₁⟩ := leaves_linked he (by simpa using hedit) h1
        refine ⟨hext.tree, he₁.withRoot _ ?_⟩
        rw [hext.tree]
        exact head_inside hl₁
      · cases h
        exact ⟨rfl, he⟩
    · rename_i h0
      obtain ⟨node, hread, h⟩ := bind_eq_ok.1 h
      obtain ⟨⟨links, e₁⟩, h1, h⟩ := bind_eq_ok.1 h
      obtain ⟨e₂, h2, h3⟩ := bind_eq_ok.1 h
      rw [read_eq] at hread
      obtain ⟨hext, he₁, hl₁⟩ := modify_linked hedit rfl he (he.root h0) hread h1
      obtain ⟨ht₂, he₂⟩ := regrow_linked he₁ (by rw [hext.tree]; exact hl₁) h2
      obtain ⟨ht₃, he₃⟩ := collapse_linked he₂ h3
      exact ⟨ht₃.trans (ht₂.trans hext.tree), he₃⟩

theorem foldlM_applyBounded_linked : ∀ {edits : List Extent} {s s' : Editor × Nat},
    (∀ edit ∈ edits, edit.start < U64 ∧ edit.stop < U64) → s.1.Linked S →
    edits.foldlM applyBounded s = .ok s' → s'.1.tree = s.1.tree ∧ s'.1.Linked S
  | [], s, s', _, he, h => by
    cases h
    exact ⟨rfl, he⟩
  | edit :: edits, s, s', hedits, he, h => by
    rw [foldlM_cons] at h
    obtain ⟨⟨e₁, m⟩, h1, h2⟩ := bind_eq_ok.1 h
    obtain ⟨e₂, h3, h4⟩ := bind_eq_ok.1 h1
    obtain ⟨-, h4⟩ := require_bind_eq_ok.1 h4
    cases h4
    obtain ⟨ht, he₁⟩ := apply_linked (hedits edit (by simp)) he h3
    obtain ⟨ht', he'⟩ := foldlM_applyBounded_linked (s := (e₁, max s.2 _))
      (fun x hx => hedits x (mem_cons_of_mem _ hx)) he₁ h2
    exact ⟨ht'.trans ht, he'⟩

omit [Digest] in
theorem slot_lt_of_branch {P : PageMap} {c : Cursor} {cs : List Child}
    (h : nodeAt P c = .ok (.branch cs)) : ∀ d ∈ cs, d.start < U64 ∧ d.offset < U64 := by
  obtain ⟨p, -, hd⟩ := bind_eq_ok.1 h
  obtain ⟨-, rfl, -⟩ := Node.read_eq_branch.1 (Node.decode_eq_ok.1 hd).2.1
  intro d hd
  obtain ⟨slot, -, rfl⟩ := mem_map.1 hd
  exact ⟨u64At_lt _ _, u64At_lt _ _⟩

theorem linked_true (e : Editor) : e.Linked fun _ => True :=
  ⟨fun _ _ => trivial, fun _ _ _ hn d hd =>
    ⟨fun _ => trivial, (slot_lt_of_branch hn d hd).1, (slot_lt_of_branch hn d hd).2⟩⟩

end Editor

end Cas.Manifest
