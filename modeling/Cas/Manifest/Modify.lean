import Cas.Manifest.Draft

/-!
# One edit of the draft

`applyEdit` is what an edit means for the extents of a tree: a ZERO range is cut out, a chunk
overwrites its block. `modify_forest` is the induction over the levels: the links that replace a
node hold the edited extents of that node. It rests on the bounds of the children being a partition
of the bounds of their parent: an edit changes only the children whose range it meets, and a chunk
meets exactly one of them.
-/

namespace Cas.Manifest

open List
open Except (bind_eq_ok)

open Interval (Ordered cut assign)

/-- The effect of one edit on a list of extents. -/
def applyEdit (edit : Extent) (es : List Extent) : List Extent :=
  if edit.hash.isSome then assign edit es else cut edit.start edit.stop es

/-- What the editor requires of an edit. -/
structure Extent.Proper (edit : Extent) : Prop where
  nonempty : edit.start < edit.stop
  chunk : edit.hash.isSome = true → edit.stop = edit.start + 1

section Effect

variable {edit : Extent} {lo hi : Nat} {es : List Extent}

theorem ordered_applyEdit (h : Ordered lo hi es) (he : edit.Proper)
    (hin : edit.hash.isSome = true → lo ≤ edit.start ∧ edit.stop ≤ hi) :
    Ordered lo hi (applyEdit edit es) := by
  unfold applyEdit
  split
  · rename_i hs
    exact h.assign (hin hs).1 he.nonempty (hin hs).2
  · exact h.cut he.nonempty

/-- The effect of an edit on the extents of the range `[lo, hi)`: a chunk belongs to one range. -/
def editIn (edit : Extent) (lo hi : Nat) (es : List Extent) : List Extent :=
  if edit.hash.isSome ∧ ¬ (lo ≤ edit.start ∧ edit.stop ≤ hi) then es else applyEdit edit es

theorem editIn_eq (hin : edit.hash.isSome = true → lo ≤ edit.start ∧ edit.stop ≤ hi) :
    editIn edit lo hi es = applyEdit edit es :=
  if_neg fun h => h.2 (hin h.1)

theorem editIn_of_outside (h : Ordered lo hi es) (he : edit.Proper) (hlo : lo ≤ hi)
    (ho : edit.stop ≤ lo ∨ hi ≤ edit.start) : editIn edit lo hi es = es := by
  have := he.nonempty
  by_cases hs : edit.hash.isSome = true
  · exact if_pos ⟨hs, by omega⟩
  · rw [editIn, if_neg fun h => hs h.1, applyEdit, if_neg hs]
    refine Interval.cut_of_outside fun a ha => ?_
    have := h.mem a ha
    omega

theorem editIn_empty (he : edit.Proper) : editIn edit lo lo [] = [] := by
  have := he.nonempty
  by_cases hs : edit.hash.isSome = true
  · exact if_pos ⟨hs, by omega⟩
  · rw [editIn, if_neg fun h => hs h.1, applyEdit, if_neg hs, Interval.cut_nil]

theorem editIn_append {mid : Nat} {es' : List Extent} (h : Ordered lo mid es)
    (h' : Ordered mid hi es') (he : edit.Proper) (hlo : lo ≤ mid) (hhi : mid ≤ hi) :
    editIn edit lo hi (es ++ es') = editIn edit lo mid es ++ editIn edit mid hi es' := by
  have hne := he.nonempty
  unfold editIn applyEdit
  by_cases hs : edit.hash.isSome = true
  · have hone := he.chunk hs
    simp only [hs, true_and, if_true]
    by_cases hin : lo ≤ edit.start ∧ edit.stop ≤ hi
    · rw [if_neg (not_not.2 hin)]
      by_cases hm : edit.stop ≤ mid
      · rw [if_neg (by omega), if_pos (by omega)]
        refine Interval.assign_append_left hne fun b hb => ?_
        have := h'.mem b hb
        exact ⟨hm.trans this.1, this.2.1⟩
      · rw [if_pos (by omega), if_neg (by omega)]
        refine Interval.assign_append_right hne fun b hb => ?_
        have := h.mem b hb
        exact ⟨this.2.1, this.2.2.trans (show mid ≤ edit.start by omega)⟩
    · rw [if_pos hin, if_pos (by omega), if_pos (by omega)]
  · simp only [hs, false_and, if_false]
    exact Interval.cut_append _ _ _ _

end Effect

/-! ## Leaves -/

theorem tryPush_eq_ok {α : Type} {capacity : Nat} {l l' : List α} {a : α} :
    tryPush capacity l a = .ok l' ↔ l.length < capacity ∧ l' = l ++ [a] := by
  unfold tryPush
  split
  · simp [*, eq_comm]
  · simp [*]

theorem tryExtend_eq_ok {α : Type} {capacity : Nat} {l l' a : List α} :
    tryExtend capacity l a = .ok l' ↔ l.length + a.length ≤ capacity ∧ l' = l ++ a := by
  unfold tryExtend
  split
  · simp [*, eq_comm]
  · simp [*]

theorem mergeSort_eq {lo hi : Nat} {es es' : List Extent} (h : Ordered lo hi es')
    (hp : es.Perm es') : es.mergeSort (fun a b => decide (a.start ≤ b.start)) = es' := by
  have hs : es'.Pairwise fun a b => decide (a.start ≤ b.start) = true :=
    h.pairwise.imp fun h => decide_eq_true (le_of_lt h)
  have hperm := (mergeSort_perm es fun a b => decide (a.start ≤ b.start)).trans hp
  have hsorted : (es.mergeSort fun a b => decide (a.start ≤ b.start)).Pairwise
      fun a b => decide (a.start ≤ b.start) = true :=
    pairwise_mergeSort (by simp; omega) (by simp; omega) es
  refine List.Perm.eq_of_pairwise ?_ hsorted hs hperm
  intro a b ha hb hab hba
  have ha' := hperm.subset ha
  simp only [decide_eq_true_eq] at hab hba
  exact h.eq_of_start (le_antisymm hab hba) ha' hb

namespace Editor

theorem keepOutside_eq_ok {edit entry : Extent} {acc entries : List Extent}
    (h : keepOutside edit acc entry = .ok entries) :
    entries = acc ++ Interval.pieces edit.start edit.stop entry := by
  unfold keepOutside at h
  change entries = acc ++ if entry.stop ≤ edit.start ∨ entry.start ≥ edit.stop then [entry] else
    (if entry.start < edit.start then [{ entry with stop := edit.start }] else []) ++
      (if entry.stop > edit.stop then [{ entry with start := edit.stop }] else [])
  by_cases ho : entry.stop ≤ edit.start ∨ entry.start ≥ edit.stop
  · rw [if_pos ho] at h ⊢
    exact (tryPush_eq_ok.1 h).2
  · rw [if_neg ho] at h ⊢
    obtain ⟨m, h3, h4⟩ := bind_eq_ok.1 h
    have hm : m = acc ++ if entry.start < edit.start then [{ entry with stop := edit.start }]
        else [] := by
      by_cases hs : entry.start < edit.start
      · rw [if_pos hs] at h3 ⊢
        exact (tryPush_eq_ok.1 h3).2
      · rw [if_neg hs] at h3 ⊢
        cases h3
        rw [append_nil]
    rw [hm] at h4
    by_cases hs : entry.stop > edit.stop
    · rw [if_pos hs] at h4 ⊢
      rw [← append_assoc]
      exact (tryPush_eq_ok.1 h4).2
    · rw [if_neg hs] at h4 ⊢
      cases h4
      rw [append_nil]

/-- The loop of the leaf case collects what is left outside the edit. -/
theorem foldlM_keepOutside {edit : Extent} : ∀ {original acc entries : List Extent},
    original.foldlM (keepOutside edit) acc = .ok entries →
      entries = acc ++ cut edit.start edit.stop original
  | [], acc, entries, h => by
    cases h
    simp
  | entry :: original, acc, entries, h => by
    rw [foldlM_cons] at h
    obtain ⟨mid, h1, h2⟩ := bind_eq_ok.1 h
    rw [foldlM_keepOutside h2, keepOutside_eq_ok h1, Interval.cut_cons, append_assoc]

theorem leafEntries_eq {original entries : List Extent} {edit : Extent} {lo hi : Nat}
    (h : leafEntries original edit = .ok entries) (ho : Ordered lo hi original)
    (he : edit.Proper) (hin : edit.hash.isSome = true → lo ≤ edit.start ∧ edit.stop ≤ hi) :
    entries = applyEdit edit original := by
  unfold leafEntries at h
  obtain ⟨kept, h1, h⟩ := bind_eq_ok.1 h
  obtain ⟨all, h2, h⟩ := bind_eq_ok.1 h
  have hkept := foldlM_keepOutside h1
  rw [nil_append] at hkept
  cases h
  refine mergeSort_eq (ordered_applyEdit ho he hin) ?_
  unfold applyEdit
  split at h2
  · rename_i hs
    rw [if_pos hs, (tryPush_eq_ok.1 h2).2, hkept, ho.cut_eq he.nonempty, assign]
    rw [append_assoc]
    exact List.Perm.append_left _ perm_append_comm
  · rename_i hs
    cases h2
    rw [if_neg hs, hkept]

/-! ## Branches -/

variable [Digest]

theorem forest_unchanged {P : PageMap} {imageBytes n : Nat} (hP : P.Decoded imageBytes)
    {c : Cursor} {node : Node} {es : List Extent} (hnode : nodeAt P c = .ok node)
    (h : Holds P n c es) : Forest (Holds P n) n c.lower c.upper [⟨node.minimum, c.offset⟩] es := by
  have hmin : nodeAt P ⟨c.offset, n, some node.minimum, c.lower, c.upper⟩ = .ok node := by
    obtain ⟨p, hp, hd⟩ := bind_eq_ok.1 hnode
    obtain ⟨hl, hr, -⟩ := Node.decode_eq_ok.1 hd
    refine bind_eq_ok.2 ⟨p, hp, Node.decode_eq_ok.2 ⟨by rw [hl, h.level], ?_, ?_⟩⟩
    · exact hr
    · intro m hm
      cases hm
      rfl
  have hholds : Holds P n ⟨c.offset, n, some node.minimum, c.lower, c.upper⟩ es := by
    cases n with
    | zero =>
      obtain ⟨-, h2⟩ := h
      rw [hnode] at h2
      cases h2
      exact ⟨rfl, hmin⟩
    | succ n =>
      obtain ⟨-, cs, h2, h3⟩ := h
      rw [hnode] at h2
      cases h2
      exact ⟨rfl, cs, hmin, h3⟩
  obtain ⟨hne, ho, hstart⟩ := hholds.good hP
  cases es with
  | nil => exact (hne rfl).elim
  | cons x xs =>
    have hx : x.start = node.minimum := by simpa using hstart _ rfl
    have hb := ho.mem x (by simp)
    simp only [Interval.start, Interval.stop, hx] at hb
    exact ⟨hb.1, lt_of_lt_of_le hb.2.1 hb.2.2, x :: xs, [], by simp, hholds, rfl⟩

section Children

variable {edit : Extent} {n : Nat}
  {modify : Editor → Node → Cursor → Except IoError (List Child × Editor)}
  (he : edit.Proper)
  (hmodify : ∀ {e e' : Editor} {node : Node} {c : Cursor} {links : List Child} {es : List Extent},
    Holds e.pages n c es → c.upper < U64 → nodeAt e.pages c = .ok node →
    (edit.hash.isSome = true → c.lower ≤ edit.start ∧ edit.stop ≤ c.upper) →
    modify e node c = .ok (links, e') →
    e.Extends e' ∧ Forest (Holds e'.pages n) n c.lower c.upper links (applyEdit edit es))

include he hmodify in
/-- One child is replaced by links that hold its edited extents. -/
theorem modifyChild_forest {s s' : List Child × Editor} {child : Child} {c : Cursor}
    {es : List Extent} (hc : c = ⟨child.offset, n, some child.start, c.lower, c.upper⟩)
    (hlo : c.lower ≤ child.start) (hhi : child.start < c.upper) (hu : c.upper < U64)
    (hh : Holds s.2.pages n c es) (h : modifyChild edit modify s (child, c) = .ok s') :
    ∃ new, s'.1 = s.1 ++ new ∧ s.2.Extends s'.2 ∧
      Forest (Holds s'.2.pages n) n c.lower c.upper new (editIn edit c.lower c.upper es) := by
  have hord := (hh.good s.2.pages_decoded).ordered
  have hne := he.nonempty
  unfold modifyChild at h
  split at h
  · -- beside the edit
    rename_i ho
    obtain ⟨children, h1, h2⟩ := bind_eq_ok.1 h
    cases h2
    refine ⟨[child], (tryPush_eq_ok.1 h1).2, Extends.refl _, ?_⟩
    rw [editIn_of_outside hord he (by omega) ho]
    rw [hc] at hh
    exact ⟨hlo, hhi, es, [], by simp, hh, rfl⟩
  · split at h
    · -- inside a ZERO range
      rename_i hcov
      cases h
      refine ⟨[], by simp, Extends.refl _, ?_⟩
      obtain ⟨hnone, h1, h2⟩ := hcov
      have hs : ¬ edit.hash.isSome = true := by simpa using hnone
      rw [editIn_eq fun h => (hs h).elim, applyEdit, if_neg hs]
      refine Interval.cut_of_inside fun a ha => ?_
      have := hord.mem a ha
      simp only [Interval.start, Interval.stop] at *
      omega
    · rename_i hmeet hcov
      obtain ⟨node, h1, h⟩ := bind_eq_ok.1 h
      obtain ⟨⟨replacement, e⟩, h2, h⟩ := bind_eq_ok.1 h
      obtain ⟨children, h3, h⟩ := bind_eq_ok.1 h
      cases h
      rw [read_eq] at h1
      -- a chunk that meets the range of the child lies in it
      have hin : edit.hash.isSome = true → c.lower ≤ edit.start ∧ edit.stop ≤ c.upper := by
        intro hs
        have := he.chunk hs
        simp only [not_or, not_le, ge_iff_le] at hmeet
        omega
      obtain ⟨hext, hf⟩ := hmodify hh hu h1 hin h2
      rw [editIn_eq hin]
      exact ⟨replacement, (tryExtend_eq_ok.1 h3).2, hext, hf⟩

include he hmodify in
/-- The children of a branch are replaced by links that hold the edited extents of the branch. -/
theorem foldlM_modifyChild_forest {upper : Nat} (hu : upper < U64) :
    ∀ {cs : List Child} {lower : Nat} {es : List Extent} {s s' : List Child × Editor},
      lower ≤ upper → (cs = [] → lower = upper) → Forest (Holds s.2.pages n) n lower upper cs es →
      (cs.zip (kidsFrom n lower upper cs)).foldlM (modifyChild edit modify) s = .ok s' →
      ∃ new, s'.1 = s.1 ++ new ∧ s.2.Extends s'.2 ∧
        Forest (Holds s'.2.pages n) n lower upper new (editIn edit lower upper es) := by
  intro cs
  induction cs with
  | nil =>
    intro lower es s s' hlo hnil hf h
    cases h
    cases hf
    refine ⟨[], by simp, Extends.refl _, ?_⟩
    rw [hnil rfl]
    exact editIn_empty he
  | cons child cs ih =>
    rintro lower es s s' hlo - ⟨h1, h2, a, b, hes, hw, hrest⟩ h
    rw [kidsFrom, zip_cons_cons, foldlM_cons] at h
    obtain ⟨s₁, hs1, hs2⟩ := bind_eq_ok.1 h
    have hnext := hrest.nextStart_le
    obtain ⟨new, hnew, hext, hf⟩ := modifyChild_forest he hmodify rfl h1 h2
      (lt_of_le_of_lt hnext hu) hw hs1
    obtain ⟨new', hnew', hext', hf'⟩ := ih hnext (by rintro rfl; rfl)
      (hrest.mono fun _ _ => Holds.mono hext.pages) hs2
    have hlow : lower ≤ nextStart upper cs := by omega
    refine ⟨new ++ new', by rw [hnew', hnew, append_assoc], hext.trans hext', ?_⟩
    have hord := (hw.good s.2.pages_decoded).ordered
    have hord' := (hrest.good (fun _ _ => Holds.good s.2.pages_decoded) hnext).1
    rw [hes, editIn_append hord hord' he hlow hnext]
    exact Forest.append (Holds.closed s'.2.pages_decoded n) hnext hf' hlow
      (hf.mono fun _ _ => Holds.mono hext'.pages)

end Children

theorem modify_forest {edit : Extent} (he : edit.Proper) :
    ∀ {n fuel : Nat} {e e' : Editor} {node : Node} {c : Cursor} {links : List Child}
      {es : List Extent}, Holds e.pages n c es → c.upper < U64 → nodeAt e.pages c = .ok node →
      (edit.hash.isSome = true → c.lower ≤ edit.start ∧ edit.stop ≤ c.upper) →
      modify edit fuel e node c = .ok (links, e') →
      e.Extends e' ∧ Forest (Holds e'.pages n) n c.lower c.upper links (applyEdit edit es) := by
  intro n
  induction n with
  | zero =>
    intro fuel e e' node c links es hh hu hnode hin h
    have hord := (hh.good e.pages_decoded).ordered
    have hle := hord.bounds_le (hh.good e.pages_decoded).nonempty
    have hes := hh.2
    rw [hnode] at hes
    cases hes
    cases fuel with
    | zero => cases h
    | succ fuel =>
      obtain ⟨entries, h1, h2⟩ := bind_eq_ok.1 h
      have hent := leafEntries_eq h1 hord he hin
      split at h2
      · rename_i hsame
        cases h2
        rw [← hent, hsame]
        exact ⟨Extends.refl _, forest_unchanged e.pages_decoded hnode hh⟩
      · rw [hent] at h2
        exact leaves_forest hle hu (ordered_applyEdit hord he hin) h2
  | succ n ih =>
    intro fuel e e' node c links es hh hu hnode hin h
    have hord := (hh.good e.pages_decoded).ordered
    have hle := hord.bounds_le (hh.good e.pages_decoded).nonempty
    obtain ⟨hlev, original, hbranch, hf⟩ := hh
    rw [hnode] at hbranch
    cases hbranch
    obtain ⟨hl, hne, -⟩ := branch_of_nodeAt e.pages_decoded hnode
    cases fuel with
    | zero => cases h
    | succ fuel =>
      obtain ⟨⟨children, e₁⟩, h1, h2⟩ := bind_eq_ok.1 h
      rw [Cursor.kids_eq, hlev, Nat.add_sub_cancel] at h1
      obtain ⟨new, hnew, hext, hf'⟩ := foldlM_modifyChild_forest he
        (fun hh hu hn hin h => ih hh hu hn hin h) hu hle (fun h => (hne h).elim) hf h1
      rw [nil_append] at hnew
      rw [← hnew, editIn_eq hin] at hf'
      simp only at hext hf' h2
      split at h2
      · rename_i hsame
        cases h2
        refine ⟨hext, ?_⟩
        have hnode' := nodeAt_mono hext.pages hnode
        rw [hsame] at hf'
        exact forest_unchanged e'.pages_decoded hnode' ⟨hlev, original, hnode', hf'⟩
      · have := hl.2
        obtain ⟨hext', hf''⟩ := branches_forest hlev (by simp only [MAX_HEIGHT] at *; omega) hle hu
          hf' h2
        rw [hlev] at hf''
        exact ⟨hext.trans hext', hf''⟩

end Editor

end Cas.Manifest
