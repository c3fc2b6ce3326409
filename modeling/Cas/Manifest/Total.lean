import Cas.Manifest.Capacity

/-!
# A transaction fits its plan

The final pass emits each reachable draft page once (`Editor.emit_ok`), so it needs no more pages than
the draft has, and the plan of a transaction has room for them and for the COMMIT. Over a tree that
walks, `Prepared.build` fails only where a counter, the file or the height of the tree is exhausted
(`Prepared.build_ok`).
-/

namespace Cas.Manifest

open List
open Except (bind_eq_ok ensure_of ok_bind)

open Interval (Ordered)

/-- The draft pages of a traversal. -/
def draftPages (stop : Nat) (vs : List Visit) : List Nat := (pagesOf vs).filter (stop ≤ ·)

theorem draftPages_append (stop : Nat) (vs ws : List Visit) :
    draftPages stop (vs ++ ws) = draftPages stop vs ++ draftPages stop ws := by
  rw [draftPages, pagesOf_append, filter_append]
  rfl

namespace Editor

variable [Digest]

theorem draftPages_committed {e : Editor} {n : Nat} {c : Cursor} {vs : List Visit}
    (hc : c.offset < e.tree.stop) (h : Visits e.pages n c vs) : draftPages e.tree.stop vs = [] := by
  refine filter_eq_nil_iff.2 fun o ho => ?_
  have := h.le_offset e.pages_decoded o ho
  simp only [decide_eq_true_eq]
  omega

theorem length_draftPages_le {e : Editor} {n : Nat} {c : Cursor} {vs : List Visit}
    (h : Visits e.pages n c vs) : (draftPages e.tree.stop vs).length ≤ e.buffer.length := by
  have hsub : draftPages e.tree.stop vs ⊆
      (range e.buffer.length).map fun i => e.tree.stop + i * BLOCK_SIZE := by
    intro o ho
    obtain ⟨ho, hge⟩ := mem_filter.1 ho
    simp only [decide_eq_true_eq] at hge
    obtain ⟨k, node, rfl, hnode, -⟩ := h.closed o ho
    obtain ⟨p, hp, -⟩ := bind_eq_ok.1 hnode
    rw [pages, if_neg (not_lt.2 hge)] at hp
    obtain ⟨h1, h2⟩ := (draft_eq_ok.1 hp).1
    obtain ⟨i, hi⟩ : ∃ i, k.offset - e.tree.stop = BLOCK_SIZE * i := Nat.dvd_of_mod_eq_zero h1
    rw [mul_comm] at hi
    rw [hi] at h2
    refine mem_map.2 ⟨i, mem_range.2 (Nat.lt_of_mul_lt_mul_right h2), ?_⟩
    rw [← hi, Nat.add_sub_cancel' hge]
  have hnodup : (draftPages e.tree.stop vs).Nodup := (h.nodup e.pages_decoded).filter _
  have hle := (hnodup.subperm hsub).length_le
  rwa [length_map, length_range] at hle

theorem Placed.withBuffer {e : Editor} (h : e.Placed) (buffer : List Bytes) :
    ({ e with buffer := buffer } : Editor).Placed := ⟨h.image, h.bytes, h.stop, h.bound⟩

section Emit

variable {e : Editor} {fuel n : Nat}
  (hemit : ∀ {c : Cursor} {vs : List Visit} {out : List Bytes}, Visits e.pages n c vs →
    c.upper ≤ e.imageBytes / BLOCK_SIZE → Emitted e.limit out →
    out.length + (draftPages e.tree.stop vs).length ≤ e.limit →
    ∃ o out', e.emit fuel c out = .ok (o, out') ∧ Emitted e.limit out' ∧
      out'.length = out.length + (draftPages e.tree.stop vs).length)

include hemit in
theorem foldlM_emit_ok {upper : Nat} (hu : upper ≤ e.imageBytes / BLOCK_SIZE) :
    ∀ {cs : List Child} (acc : List Child) {lower : Nat} {vs : List Visit} {out : List Bytes},
      Forest (Visits e.pages n) n lower upper cs vs → Emitted e.limit out →
      out.length + (draftPages e.tree.stop vs).length ≤ e.limit →
      ∃ acc' out', (cs.zip (kidsFrom n lower upper cs)).foldlM
        (fun (s : List Child × List Bytes) (next : Child × Cursor) => do
          let (offset, output) ← emit e fuel next.2 s.2
          return (s.1 ++ [{ next.1 with offset }], output)) (acc, out) = .ok (acc', out') ∧
        out'.length = out.length + (draftPages e.tree.stop vs).length
  | [], acc, _, _, out, hf, _, _ => by
    cases hf
    exact ⟨acc, out, rfl, rfl⟩
  | child :: cs, acc, lower, _, out, ⟨h1, h2, a, b, h3, hw, hrest⟩, ho, hroom => by
    subst h3
    rw [draftPages_append, length_append] at hroom
    obtain ⟨o, out₁, hone, ho₁, hlen⟩ := hemit hw (hrest.nextStart_le.trans hu) ho (by omega)
    obtain ⟨acc', out', hfold, hlen'⟩ := foldlM_emit_ok hu (acc ++ [{ child with offset := o }]) hrest
      ho₁ (by omega)
    refine ⟨acc', out', ?_, ?_⟩
    · rw [kidsFrom, zip_cons_cons, foldlM_cons]
      refine bind_eq_ok.2 ⟨_, bind_eq_ok.2 ⟨_, hone, rfl⟩, hfold⟩
    · rw [hlen', hlen, draftPages_append, length_append, add_assoc]

end Emit

theorem emit_ok {e : Editor} (he : e.Placed) : ∀ {n : Nat} (fuel : Nat) {c : Cursor}
    {vs : List Visit} {out : List Bytes}, n < fuel → Visits e.pages n c vs →
    c.upper ≤ e.imageBytes / BLOCK_SIZE → Emitted e.limit out →
    out.length + (draftPages e.tree.stop vs).length ≤ e.limit →
    ∃ o out', e.emit fuel c out = .ok (o, out') ∧ Emitted e.limit out' ∧
      out'.length = out.length + (draftPages e.tree.stop vs).length := by
  intro n
  induction n with
  | zero =>
    intro fuel c vs out hfuel hv hu ho hroom
    obtain ⟨fuel, rfl⟩ : ∃ k, fuel = k + 1 := ⟨fuel - 1, by omega⟩
    rw [emit]
    split
    · rename_i hc
      exact ⟨_, _, rfl, ho, by rw [draftPages_committed hc hv]; rfl⟩
    · rename_i hc
      obtain ⟨hl, es, hn, rfl⟩ := hv
      have hdraft : draftPages e.tree.stop (.inl c.offset :: es.map .inr) = [c.offset] := by
        rw [draftPages, pagesOf_page, pagesOf_map_extent, filter_singleton]
        simp [not_lt.1 hc]
      rw [hdraft, length_singleton] at hroom ⊢
      obtain ⟨-, hne, hord, -⟩ := leaf_of_nodeAt e.pages_decoded hn
      obtain ⟨hcap, hone⟩ := leaf_capacity_of_nodeAt e.pages_decoded hn
      obtain ⟨h1, h2⟩ := (he.withBuffer out).nextOffset (show out.length < e.limit by omega)
      obtain ⟨page, hw⟩ := leafInto_ok h1 h2 he.image he.bytes hne hcap
        (hord.mono (Nat.zero_le _) hu) hone
      have hfull : out.length ≠ e.limit := by omega
      rw [read_eq, hn, ok_bind]
      refine ⟨_, _, bind_eq_ok.2 ⟨(), pushZeroed_eq_ok.2 hfull,
        bind_eq_ok.2 ⟨page, hw, rfl⟩⟩, ho.push hfull (length_leafInto hw), by simp⟩
  | succ n ih =>
    intro fuel c vs out hfuel hv hu ho hroom
    obtain ⟨fuel, rfl⟩ : ∃ k, fuel = k + 1 := ⟨fuel - 1, by omega⟩
    rw [emit]
    split
    · rename_i hc
      exact ⟨_, _, rfl, ho, by rw [draftPages_committed hc hv]; rfl⟩
    · rename_i hc
      obtain ⟨hl, children, rest, hn, rfl, hf⟩ := hv
      have hdraft : draftPages e.tree.stop (.inl c.offset :: rest) =
          c.offset :: draftPages e.tree.stop rest := by
        rw [draftPages, pagesOf_page, filter_cons_of_pos (by simpa using not_lt.1 hc)]
        rfl
      rw [hdraft, length_cons] at hroom ⊢
      obtain ⟨new, out₁, hfold, hlen⟩ := foldlM_emit_ok
        (fun hv hu ho hr => ih fuel (by omega) hv hu ho hr) hu [] hf ho (by omega)
      have hup : c.upper < U64 := lt_of_le_of_lt hu (upper_lt he.bytes)
      obtain ⟨new', vs', hnew, hstarts, ho₁, -, hf', -⟩ := foldlM_emit_forest
        (fun hh hS hu ho h => emit_visits (linked_true e) hh hS hu ho h) hup hf.holds
        ((linked_true e).pages c children (fun _ => trivial) hn) ho hfold
      rw [nil_append] at hnew
      subst hnew
      obtain ⟨hlev, hne, -⟩ := branch_of_nodeAt e.pages_decoded hn
      have hcount : new.length = children.length := by
        simpa using congrArg length hstarts
      have hcap := branch_capacity_of_nodeAt e.pages_decoded hn
      have hnil : new ≠ [] := fun h => hne (eq_nil_of_length_eq_zero (by rw [← hcount, h]; rfl))
      obtain ⟨h1, h2⟩ := (he.withBuffer out₁).nextOffset (show out₁.length < e.limit by omega)
      obtain ⟨page, hw⟩ := branchInto_ok h1 h2 he.image he.bytes hlev hnil (by omega)
        hf'.pairwise (links_of_forest (e := { e with buffer := out₁ }) hu hf'.holds)
      have hfull : out₁.length ≠ e.limit := by omega
      rw [read_eq, hn, ok_bind]
      dsimp only
      rw [Cursor.kids_eq, hl, Nat.add_sub_cancel, hfold, Except.ok_bind]
      rw [hl] at hw
      dsimp only
      refine ⟨_, _, bind_eq_ok.2 ⟨(), pushZeroed_eq_ok.2 hfull,
        bind_eq_ok.2 ⟨page, hw, rfl⟩⟩, ho₁.push hfull (length_branchInto hw), ?_⟩
      rw [length_append, length_singleton]
      omega

theorem emitRoot_ok {e : Editor} {es : List Extent} (he : e.Placed) (hr : e.RootHolds es)
    (hroom : e.buffer.length ≤ e.limit) :
    ∃ root output, e.emitRoot = .ok (root, output) ∧ output.length ≤ e.buffer.length := by
  have hnil : Emitted e.limit [] := ⟨Nat.zero_le _, by simp⟩
  unfold emitRoot
  unfold RootHolds at hr
  split
  · exact ⟨_, _, rfl, Nat.zero_le _⟩
  · rename_i h0
    rw [if_neg h0] at hr
    obtain ⟨⟨hpos, -⟩, hh⟩ := hr
    obtain ⟨vs, hv, -⟩ := hh.visits
    have hle := length_draftPages_le hv
    obtain ⟨o, out, h, -, hlen⟩ := emit_ok he e.root.height (by omega) hv le_rfl hnil
      (by rw [length_nil]; omega)
    rw [h]
    exact ⟨_, _, rfl, by rw [hlen, length_nil]; omega⟩

end Editor

namespace Prepared

variable [Digest] {source : PageReader} {current : Commit} {stop durable : Nat}
  {edits : List Extent}

/-- The generation counter is at its end. -/
def generationsExhausted : IoError := ⟨.other, "manifest generations exhausted"⟩

/-- The transaction does not fit the file. -/
def outputBound : IoError := ⟨.invalidData, "manifest output bound"⟩

/-- The COMMIT that closes the emitted pages passes its own check. -/
theorem encode_ok {e : Editor} {es : List Extent} {root : Root} {output : List Bytes}
    {generation : Nat} (he : e.Placed) (hr : e.RootHolds es) (hd : durable < U64)
    (hid : e.tree.commit.store ≠ .zero 16 ∧ e.tree.commit.image ≠ .zero 16)
    (hgen : generation ≠ 0 ∧ generation < U64) (h : e.emitRoot = .ok (root, output))
    (hroom : output.length < e.limit) :
    ∃ page, Commit.encode { e.tree.commit with root, generation, durable }
      (e.tree.stop + output.length * BLOCK_SIZE) = .ok page := by
  obtain ⟨-, vs, hroot, -⟩ := Editor.emitRoot_visits (Editor.linked_true e) he.bytes hr h
  have he' : ({ e with buffer := output, root := root } : Editor).Placed :=
    ⟨he.image, he.bytes, he.stop, he.bound⟩
  obtain ⟨ho, ha⟩ := he'.nextOffset hroom
  have hvalid : if root.offset = 0 then root.height = 0 else
      (root.offset ≠ 0 ∧ root.offset % BLOCK_SIZE = 0) ∧
        root.offset < e.tree.stop + output.length * BLOCK_SIZE ∧
        1 ≤ root.height ∧ root.height ≤ MAX_HEIGHT := by
    unfold Editor.RootVisits at hroot
    dsimp only at hroot
    split at hroot
    · rename_i h0
      rw [if_pos h0]
      exact hroot.1
    · rename_i h0
      rw [if_neg h0]
      obtain ⟨hheight, hvs⟩ := hroot
      obtain ⟨node, hnode⟩ := hvs.holds.nodeAt
      exact ⟨offset_of_nodeAt (Editor.pages_decoded _) hnode, Editor.offset_lt_nextOffset hnode,
        hheight⟩
  have hlt : root.offset < U64 := by
    split at hvalid
    · rename_i h0
      rw [h0]
      exact Nat.two_pow_pos 64
    · exact hvalid.2.1.trans ho
  obtain ⟨page, -, hpage, -⟩ := Commit.decode_encode
    (c := { e.tree.commit with root, generation, durable })
    ⟨hgen.2, hlt, hd, he.bytes⟩ ho
    (Commit.validate_eq_ok.2 ⟨⟨ha, hid.1, hid.2, hgen.1, he.image⟩, hvalid⟩)
  exact ⟨page, hpage⟩

/-- Over a tree that walks, edits that pass the entry checks are prepared, unless the generations, the
file or the height of the tree is exhausted. -/
theorem build_ok {es : List Extent} (hu : current.imageBytes < U64) (hd : durable < U64)
    (hv : validateView current stop = .ok ()) (hes : (Tree.mk source current stop).HoldsAll es)
    (hcheck : checkEdits current edits durable = .ok ()) :
    (∃ p, build source current stop edits durable = .ok p) ∨
      build source current stop edits durable = .error generationsExhausted ∨
      build source current stop edits durable = .error outputBound ∨
      build source current stop edits durable = .error Editor.heightExhausted := by
  obtain ⟨⟨hstop, hmod, -⟩, hcommit⟩ := validateView_eq_ok.1 hv
  obtain ⟨⟨-, hstore, hident, -, himage⟩, -⟩ := Commit.validate_eq_ok.1 hcommit
  have hedits := (checkEdits_eq_ok.1 hcheck).2
  by_cases hgen : current.generation + 1 < U64
  · by_cases hbound : plan edits * BLOCK_SIZE ≤ MAX_TRANSACTION_BYTES ∧
        stop + plan edits * BLOCK_SIZE ≤ I64_MAX
    · have hstart : (Editor.mk ⟨source, current, stop⟩ [] (plan edits) current.root).Placed :=
        ⟨himage, hu, ⟨ne_of_gt (lt_of_lt_of_le (by decide) hstop), hmod⟩,
          lt_of_le_of_lt hbound.2 (by decide)⟩
      obtain ⟨⟨editor, m⟩, hfold, hbuf⟩ | hfold := Editor.foldlM_applyBounded_ok
        (s := (⟨⟨source, current, stop⟩, [], plan edits, current.root⟩, 0)) hstart hedits
        (rootHolds_start _ hv hes) (by simp only [length_nil, plan]; omega)
      · obtain ⟨htree, hlimit, hr⟩ := Editor.foldlM_applyBounded
          (s := (⟨⟨source, current, stop⟩, [], plan edits, current.root⟩, 0)) hu hedits
          (rootHolds_start _ hv hes) hfold
        obtain ⟨tree, buffer, limit, draftRoot⟩ := editor
        dsimp only at htree hlimit hr hbuf
        subst htree hlimit
        have hplaced : (Editor.mk ⟨source, current, stop⟩ buffer (plan edits) draftRoot).Placed :=
          ⟨hstart.image, hstart.bytes, hstart.stop, hstart.bound⟩
        have hroom : buffer.length < plan edits := by
          simp only [length_nil, zero_add] at hbuf
          unfold plan
          omega
        obtain ⟨root, output, hemit, hlen⟩ := Editor.emitRoot_ok hplaced hr hroom.le
        have hout : output.length < plan edits := lt_of_le_of_lt hlen hroom
        obtain ⟨page, hpage⟩ := encode_ok hplaced hr hd ⟨hstore, hident⟩ ⟨Nat.succ_ne_zero _, hgen⟩ hemit hout
        exact .inl ⟨_, build_eq_ok.2 ⟨_, root, output, page, m, hcheck, hgen, hbound, hv, hfold, hemit,
          hout.ne, hpage, rfl⟩⟩
      · refine .inr (.inr (.inr ?_))
        unfold build
        rw [hcheck, ok_bind, checkedAdd_eq_some.2 ⟨rfl, hgen⟩]
        dsimp only
        rw [require, ensure_of ⟨hbound.1, outputBound_iff.2 hbound.2⟩, ok_bind, Tree.new,
          hv, ok_bind, pure_bind, hfold]
        rfl
    · refine .inr (.inr (.inl ?_))
      unfold build
      rw [hcheck, ok_bind, checkedAdd_eq_some.2 ⟨rfl, hgen⟩]
      dsimp only
      rw [require, Except.ensure_of_not fun h => hbound ⟨h.1, outputBound_iff.1 h.2⟩]
      rfl
  · refine .inr (.inl ?_)
    unfold build
    rw [hcheck, ok_bind, checkedAdd, if_neg hgen]
    rfl

end Prepared

end Cas.Manifest
