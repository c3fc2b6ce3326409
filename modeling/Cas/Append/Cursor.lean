import Cas.Append.Capacity
import Cas.Append.Fence
import Cas.Append.Position

/-!
# The saved scan position

A compaction leaves its scan position in the log, and the next one starts there if the position is at
the published D and its segment is retained. The position only saves the scan of older segments:
whatever ran before, it is right after a record of the log, so a load that starts there takes what a
load from the first retained segment takes.
-/

namespace Cas.Append

open Bytes List

variable [Digest]

/-! ## Runs with compactions -/

/-- A receipt of the compaction that took the input: the manifest it published has the input's end as
its prefix, and the same image. -/
structure Compacted.From (c : Compacted) (i : Input) : Prop where
  previous : c.previous = i.base
  cursor : i.cursor = some c.cursor
  durable : c.view.commit.durable = i.through
  image : c.view.commit.imageBytes = i.base.commit.imageBytes

/-- The runs of a log, with the selections captured and the inputs loaded so far. A compaction selects,
loads and publishes at any times; its load reads files that have the headers of the records up to its
E. Rotations are cut into their calls, and reclamation may remove any older segments. -/
inductive Staging.Compacting : Staging → List Selection → List Input → Prop
  | start {s : Staging} (hs : s.log.Starts) (hq : s.Quiet)
      (hi : ∀ v, s.log.base = some v → v.commit.imageBytes = s.log.config.imageBytes) :
      Compacting s [] []
  | step {s s' : Staging} {sels : List Selection} {ins : List Input} (h : Compacting s sels ins)
      (hs : s.Step s') (hb : s'.log.base = s.log.base) : Compacting s' sels ins
  | rotate {s : Staging} {sels : List Selection} {ins : List Input} {kind : RotationKind}
      {r : Rotation} {l : Log} (h : Compacting s sels ins)
      (hr : s.log.prepareRotation kind = .ok (r, l)) : Compacting { s with log := l } sels ins
  | cancel {s : Staging} {sels : List Selection} {ins : List Input} {r : Rotation} {l : Log}
      (h : Compacting s sels ins) (hr : s.log.cancelRotation r = .ok l) :
      Compacting { s with log := l } sels ins
  | install {s : Staging} {sels : List Selection} {ins : List Input} {header : SegmentHeader}
      {r : Rotated} {l : Log} (h : Compacting s sels ins) (hh : s.Continues header)
      (hseg : r.segment = ⟨header, BLOCK_SIZE⟩) (hr : s.log.installRotation r = (l, .ok ())) :
      Compacting (s.rotated header l) sels ins
  | reclaim {s : Staging} {sels : List Selection} {ins : List Input} (h : Compacting s sels ins)
      (r : Reclaimed) : Compacting { s with log := (s.log.applyReclamation r).1 } sels ins
  | select {s : Staging} {sels : List Selection} {ins : List Input} {sel : Selection}
      (h : Compacting s sels ins) (hs : s.log.selectCompaction = .ok (some sel)) :
      Compacting s (sel :: sels) ins
  | load {s : Staging} {sels : List Selection} {ins : List Input} {sel : Selection}
      {files : Nat → Bytes} {input : Input} (h : Compacting s sels ins) (hs : sel ∈ sels)
      (hf : ∀ t ∈ s.trace, ∀ r ∈ t.records, r.Before sel.through →
        r.HeaderIn (files t.header.number))
      (hl : sel.load files = .ok input) : Compacting s sels (input :: ins)
  | publish {s : Staging} {sels : List Selection} {ins : List Input} {input : Input} {c : Compacted}
      {l : Log} (h : Compacting s sels ins) (hi : input ∈ ins) (hc : c.From input)
      (hp : s.log.publishCompaction c = .ok l) : Compacting { s with log := l } sels ins

omit [Digest] in
/-- Reclamation touches the older segments and the allocation count only. -/
theorem Log.applyReclamation_spec (l : Log) (r : Reclaimed) :
    ∃ older allocated, List.Sublist older l.older ∧
      (l.applyReclamation r).1 = { l with older, allocatedBytes := allocated } := by
  unfold Log.applyReclamation
  split
  · exact ⟨l.older, l.allocatedBytes, List.Sublist.refl _, rfl⟩
  · split
    · exact ⟨l.older, l.allocatedBytes, List.Sublist.refl _, rfl⟩
    · obtain ⟨gone, allocated, -, heq⟩ := l.applyChanges_spec r.changes
      exact ⟨_, allocated, filter_sublist, heq⟩

namespace Staging

/-- What a run with compactions keeps. -/
structure Scanned (s : Staging) (sels : List Selection) (ins : List Input) : Prop where
  inv : s.Inv
  sized : s.Sized
  marked : s.Marked
  image : ∀ v, s.log.base = some v → v.commit.imageBytes = s.log.config.imageBytes
  selected : ∀ sel ∈ sels, ∃ ks, sel.Over ks ∧ ks.Grows s.trace
  taken : ∀ i ∈ ins, ∃ c, i.cursor = some c ∧ s.trace.Marks c ∧ c.sequence = i.through

variable {s s' : Staging} {sels : List Selection} {ins : List Input}

/-- A step that leaves the base alone leaves the position, and only adds to the history. -/
theorem Step.scans (h : s.Step s') (hb : s'.log.base = s.log.base) :
    s'.log.cursor = s.log.cursor ∧ s'.log.config = s.log.config ∧ s.trace.Grows s'.trace := by
  cases h with
  | append hb h =>
    obtain ⟨-, batch, -, -, rfl⟩ := Log.prepareAppend_eq_ok.1 h
    exact ⟨rfl, rfl, .push _ _ _⟩
  | publish hsub h =>
    obtain ⟨_, _, _, _, _, _, _, _, _, rfl⟩ := Log.publishAppend_eq_ok.1 h
    exact ⟨rfl, rfl, .refl _⟩
  | fence h =>
    obtain ⟨-, batch, -, -, rfl⟩ := Log.prepareFence_eq_ok.1 h
    exact ⟨rfl, rfl, .push _ _ _⟩
  | sync h =>
    obtain ⟨-, -, -, -, -, -, rfl⟩ := Log.completeSync_eq_ok.1 h
    exact ⟨rfl, rfl, .refl _⟩
  | rollover h hc hm hinst =>
    obtain ⟨rfl, -, -⟩ := prepareRotation_eq_ok h
    obtain ⟨-, allocated, rfl⟩ := installRotation_eq_ok hinst
    exact ⟨rfl, rfl, .enter _ _⟩
  | compact h hu =>
    obtain ⟨-, hbase, hlt, -, -, rfl⟩ := Log.publishCompaction_eq_ok.1 h
    rw [hbase] at hb
    rw [Option.some.inj hb] at hlt
    exact absurd hlt (lt_irrefl _)

omit [Digest] in
theorem grows_trans {ts us vs : Trace} (h : ts.Grows us) (h' : us.Grows vs) : ts.Grows vs := by
  intro t ht
  obtain ⟨u, hu, hh, hr⟩ := h t ht
  obtain ⟨v, hv, hh', hr'⟩ := h' u hu
  exact ⟨v, hv, hh'.trans hh, hr.trans hr'⟩

/-- A change of the log that keeps its base and position keeps what was selected and taken. -/
theorem Scanned.grow (h : s.Scanned sels ins) (hi : s'.Inv) (hz : s'.Sized)
    (hbase : s'.log.base = s.log.base) (hcursor : s'.log.cursor = s.log.cursor)
    (hconfig : s'.log.config = s.log.config) (hg : s.trace.Grows s'.trace) :
    s'.Scanned sels ins := by
  refine ⟨hi, hz, h.marked.of_grows hcursor hg, ?_, ?_, ?_⟩
  · rw [hbase, hconfig]
    exact h.image
  · intro sel hsel
    obtain ⟨ks, ho, hks⟩ := h.selected sel hsel
    exact ⟨ks, ho, grows_trans hks hg⟩
  · intro i hin
    obtain ⟨c, hc, hm, hseq⟩ := h.taken i hin
    exact ⟨c, hc, hm.grow hg, hseq⟩

theorem Compacting.scanned (h : s.Compacting sels ins) : s.Scanned sels ins := by
  induction h with
  | start hs hq hi => exact ⟨hq.inv, hq.sized, hq.marked, hi, by simp, by simp⟩
  | step _ hs hb ih =>
    obtain ⟨hcursor, hconfig, hg⟩ := hs.scans hb
    obtain ⟨hi, hz⟩ := hs.keeps ih.inv ih.sized
    exact ih.grow hi hz hb hcursor hconfig hg
  | rotate _ hr ih =>
    have hi := ih.inv.prepareRotation hr
    obtain ⟨rfl, -⟩ := prepareRotation_eq_ok hr
    exact ih.grow hi (ih.sized.of_log rfl rfl rfl) rfl rfl rfl (.refl _)
  | cancel _ hr ih =>
    have hi := ih.inv.cancelRotation hr
    obtain ⟨-, -, -, rfl⟩ := Log.cancelRotation_eq_ok.1 hr
    exact ih.grow hi (ih.sized.of_log rfl rfl rfl) rfl rfl rfl (.refl _)
  | install _ hh hseg hr ih =>
    have hi := ih.inv.install hr hseg hh
    obtain ⟨-, allocated, rfl⟩ := installRotation_eq_ok hr
    exact ih.grow hi (ih.sized.enter _ rfl rfl rfl) rfl rfl rfl (.enter _ _)
  | @reclaim s sels ins _ r ih =>
    obtain ⟨older, allocated, ho, heq⟩ := s.log.applyReclamation_spec r
    have hi := ih.inv.adjust s.log.failed s.log.rotating allocated ho ih.inv.rotating
    rw [heq]
    exact ih.grow hi (ih.sized.of_log rfl rfl rfl) rfl rfl rfl (.refl _)
  | select _ hs ih =>
    refine ⟨ih.inv, ih.sized, ih.marked, ih.image, ?_, ih.taken⟩
    intro sel hsel
    rcases mem_cons.1 hsel with rfl | hsel
    · obtain ⟨hsub, -⟩ := ih.inv.toPositions.retained_eq
      exact ⟨_, ih.inv.toPositions.select_over ih.marked hs, fun t ht =>
        ⟨t, hsub.subset ht, rfl, prefix_rfl⟩⟩
    · exact ih.selected sel hsel
  | load _ hs hf hl ih =>
    refine ⟨ih.inv, ih.sized, ih.marked, ih.image, ih.selected, ?_⟩
    intro i hin
    rcases mem_cons.1 hin with rfl | hin
    · obtain ⟨ks, ho, hg⟩ := ih.selected _ hs
      obtain ⟨c, hc, hm, hseq⟩ := ho.load_marks (fun t ht r hr hb => by
        obtain ⟨u, hu, hh, hp⟩ := hg t ht
        rw [← hh]
        exact hf u hu r (hp.subset hr) hb) hl
      exact ⟨c, hc, hm.grow hg, hseq⟩
    · exact ih.taken i hin
  | publish _ hin hc hp ih =>
    obtain ⟨c', hc', hm, hseq⟩ := ih.taken _ hin
    obtain rfl := Option.some.inj (hc.cursor.symm.trans hc')
    have hu := hm.uncut ih.inv.trace
    rw [hseq, ← hc.durable] at hu
    have hi := (ih.inv.compact hp hu).1
    have hz := ih.sized.compact ih.inv.toPositions hp
    obtain ⟨-, hbase, -, -, -, rfl⟩ := Log.publishCompaction_eq_ok.1 hp
    refine ⟨hi, hz, ?_, ?_, ih.selected, ih.taken⟩
    · intro x hx
      obtain rfl := Option.some.inj hx
      exact hm
    · intro v hv
      obtain rfl := Option.some.inj hv
      rw [hc.image, ← hc.previous]
      exact ih.image _ hbase

end Staging

/-! ## The position does not change a load -/

/-- Each segment continues the one before it. -/
def Trace.Contiguous (ts : Trace) : Prop :=
  ts.IsChain fun a b => b.header.precedingSequence = a.place.sequence

/-- Contiguous segments of a trace are a trace of their own. -/
theorem Trace.Contiguous.wf {config : Config} : ∀ {ks : Trace} {p : Tail},
    (∀ t ∈ ks, config.matchesHeader t.header = true ∧ t.Wf) →
    ks.Pairwise (fun a b => a.header.number < b.header.number) → ks.Contiguous →
    (∀ t, ks.head? = some t → p.number < t.header.number ∧ t.header.precedingSequence = p.sequence) →
    ks.Wf p config
  | [], _, _, _, _, _ => trivial
  | t :: ks, p, hw, hs, hc, hp => by
    obtain ⟨hlt, hs⟩ := pairwise_cons.1 hs
    obtain ⟨h1, h2⟩ := hp t rfl
    obtain ⟨hconfig, hwf⟩ := hw t mem_cons_self
    refine ⟨⟨h1, h2, hconfig, hwf⟩, Trace.Contiguous.wf (fun u hu => hw u (mem_cons_of_mem _ hu)) hs
      hc.tail ?_⟩
    intro u hu
    cases ks with
    | nil => cases hu
    | cons v vs =>
      obtain rfl : v = u := Option.some.inj hu
      exact ⟨hlt v mem_cons_self, (isChain_cons_cons.1 hc).1⟩

namespace Staging

variable {s : Staging} {sels : List Selection} {ins : List Input} {sel : Selection}

/-- The files have every synced record, with its payload above D. -/
def InFiles (s : Staging) (files : Nat → Bytes) : Prop :=
  ∀ t ∈ s.trace, ∀ r ∈ t.records, s.Synced t.header.number r →
    r.Intact (files t.header.number) s.log.compacted

theorem Positions.retained_wf (hp : s.Positions) (hcont : s.retained.Contiguous)
    {first : SegmentTrace} {rest : Trace} (hfirst : s.retained = first :: rest) :
    s.retained.Wf ⟨0, first.header.precedingSequence⟩ s.log.config := by
  obtain ⟨hsub, -⟩ := hp.retained_eq
  refine hcont.wf (fun t ht => hp.trace.accepts (hsub.subset ht))
    ((Trace.numbers_pairwise hp.trace).sublist hsub) ?_
  intro t ht
  rw [hfirst] at ht
  obtain rfl : first = t := Option.some.inj ht
  have hwf := (hp.trace.accepts (hsub.subset (show first ∈ s.retained by rw [hfirst]; simp))).2
  exact ⟨Nat.pos_of_ne_zero (SegmentHeader.validate_eq_ok.1 hwf.valid).2.1.2, rfl⟩

/-- The segment of a saved position is retained, so the retained ones start at or below D. -/
theorem Scanned.starts (h : s.Scanned sels ins) (hsel : s.log.selectCompaction = .ok (some sel))
    {c : ScanPosition} (hc : sel.cursor = some c) (hcont : s.retained.Contiguous) :
    ∀ t, s.retained.head? = some t → t.header.precedingSequence ≤ sel.base.commit.durable := by
  intro first hhead
  have hp := h.inv.toPositions
  obtain ⟨rest, hfirst⟩ := head?_eq_some_iff.1 hhead
  have hw := hp.retained_wf hcont hfirst
  obtain ⟨⟨t, ht, before, after, hr, -, rfl⟩, hseq⟩ := (hp.select_over h.marked hsel).marked c hc
  have hseq : (SegmentTrace.place ⟨t.header, before⟩).sequence = sel.base.commit.durable := hseq
  obtain ⟨us, vs, hsplit⟩ := append_of_mem ht
  rw [hsplit] at hw
  obtain ⟨hus, ha, -⟩ := Chain.append.1 hw
  have hchain := ha.wf.chain
  rw [hr, Chain.append] at hchain
  calc first.header.precedingSequence
      ≤ (final Tail.next ⟨0, first.header.precedingSequence⟩ us).sequence :=
        Trace.final_sequence_le hus
    _ = t.header.precedingSequence := ha.sequence.symm
    _ ≤ (SegmentTrace.place ⟨t.header, before⟩).sequence := Place.final_sequence_le hchain.1
    _ = sel.base.commit.durable := hseq

/-- A selection of contiguous segments that start at or below D is over a durable log. -/
theorem Scanned.durable (h : s.Scanned sels ins) (hsel : s.log.selectCompaction = .ok (some sel))
    (hstart : ∀ t, s.retained.head? = some t →
      t.header.precedingSequence ≤ sel.base.commit.durable)
    (hcont : s.retained.Contiguous) {files : Nat → Bytes} (hfiles : s.InFiles files) :
    ∃ origin, sel.Durable files origin s.log.config s.retained := by
  have hp := h.inv.toPositions
  obtain ⟨hsub, -, ks, hks⟩ := hp.retained_eq
  have hover := hp.select_over h.marked hsel
  obtain ⟨base, hbase, hlt, hdef⟩ := Log.selectCompaction_eq_ok hsel
  have hcompacted : s.log.compacted = base.commit.durable := by rw [Log.compacted, hbase]; rfl
  have hbasesel : sel.base = base := by rw [hdef]
  have hthrough : sel.through = s.log.durable := by rw [hdef]
  obtain ⟨first, rest, hfirst⟩ : ∃ first rest, s.retained = first :: rest :=
    exists_cons_of_ne_nil (by rw [hks]; simp)
  have hmem : ∀ t ∈ s.retained, t ∈ s.trace := fun t ht => hsub.subset ht
  have hw : s.retained.Wf ⟨0, first.header.precedingSequence⟩ s.log.config :=
    hp.retained_wf hcont hfirst
  refine ⟨_, hw, hover.spans, ?_, hstart first (by rw [hfirst]; rfl), hover.below, ?_, ?_, hover.marked⟩
  · rw [hbasesel]
    exact h.image base hbase
  · rw [hthrough, hks, final_concat]
    exact hp.durable.trans (hp.published_le.trans hp.issued.le)
  · intro t ht r hr
    rw [hthrough, hbasesel, ← hcompacted]
    refine ⟨h.inv.uncut t (hmem t ht) r hr, hp.uncut_durable t (hmem t ht) r hr, ?_, ?_⟩
    · intro hb
      exact hfiles t (hmem t ht) r hr (hp.synced_of_before (hmem t ht) hr hb)
    · exact fun _ => h.inv.verified t (hmem t ht) r hr

end Staging

/-! ## A log that goes on -/

/-- The records of a segment one after the other, as its file has them. -/
def SegmentTrace.file (t : SegmentTrace) : Bytes :=
  zeros BLOCK_SIZE ++ t.records.flatMap fun r => r.batch.bytes

theorem Place.stored_flatMap {h : SegmentHeader} : ∀ {rs : List Record} {p : Place} {front : Bytes},
    Chain (Place.Accepts h) Place.next p rs → front.length = p.offset →
    ∀ r ∈ rs, r.Stored (front ++ rs.flatMap fun r => r.batch.bytes)
  | r :: rs, p, front, ⟨ha, hc⟩, hf, x, hx => by
    rw [flatMap_cons]
    rcases mem_cons.1 hx with rfl | hx
    · refine ⟨?_, ?_⟩
      · rw [Record.stop, ha.offset, ← ha.length, length_append, length_append, hf]
        omega
      · rw [ha.offset, ← hf, ← append_assoc, ← ha.length]
        exact slice_append_mid _ _ _
    · rw [← append_assoc]
      refine stored_flatMap hc ?_ x hx
      rw [length_append, hf, ha.length]
      rfl

theorem Trace.Wf.exists_files {origin : Tail} {config : Config} {ts : Trace}
    (hw : ts.Wf origin config) :
    ∃ files : Nat → Bytes, ∀ t ∈ ts, ∀ r ∈ t.records, r.Stored (files t.header.number) := by
  refine ⟨fun n => (ts.find? fun t => t.header.number = n).elim [] SegmentTrace.file, ?_⟩
  intro t ht r hr
  obtain ⟨u, hu⟩ : ∃ u, ts.find? (fun u => u.header.number = t.header.number) = some u := by
    rw [← Option.isSome_iff_exists, find?_isSome]
    exact ⟨t, ht, by simp⟩
  obtain rfl : u = t := hw.eq_of_number (mem_of_find?_eq_some hu) ht
    (by simpa using find?_some hu)
  simp only [hu, Option.elim_some]
  exact Place.stored_flatMap (hw.accepts ht).2.chain (length_zeros _) r hr

omit [Digest] in
theorem Log.CanAppend.pos {l : Log} {b : Builder} (h : l.CanAppend b) : 0 < b.descriptors := by
  have := h.nonempty
  simpa [Builder.isEmpty, Nat.pos_iff_ne_zero] using this

namespace Staging
variable {s : Staging}

theorem Positions.append_ok (hp : s.Positions) {b : Builder} (hc : s.log.CanAppend b) :
    ∃ sub l, s.log.prepareAppend b = .ok (sub, l) := by
  have hnum : s.log.current.header.number ≠ 0 := by
    rw [hp.current]
    exact (SegmentHeader.validate_eq_ok.1 hp.active_accepts.2.valid).2.1.2
  have hbatch : s.log.nextBatch ≠ 0 := by
    rw [hp.nextBatch, SegmentTrace.place, Place.final_batch]
    simp [Place.start]
  have hissued := hc.issued
  have hne := hc.pos
  obtain ⟨batch, hseal⟩ : ∃ batch, b.sealBatch s.log.current.header.number s.log.nextBatch
      (s.log.issued + 1) = .ok batch := by
    have hadd : checkedAdd (s.log.issued + 1) (b.descriptors - 1) =
        some (s.log.issued + b.descriptors) := checkedAdd_eq_some.2 ⟨by omega, hissued⟩
    unfold Builder.sealBatch
    rw [hadd]
    exact ⟨_, requireFormat_bind_eq_ok.2
      ⟨⟨by simp [hc.nonempty], Nat.succ_ne_zero _, hnum, hbatch⟩, rfl⟩⟩
  exact ⟨_, _, Log.prepareAppend_eq_ok.2 ⟨hc, batch, hseal, rfl, rfl⟩⟩

theorem Inv.publish_ok (hi : s.Inv) (hd : s.log.issued = s.log.published) {b : Builder} (hb : b.Built)
    {sub : Submission} {l : Log} (h : s.log.prepareAppend b = .ok (sub, l)) :
    (s.pushed sub l).Issued sub ∧ ∃ l', l.publishAppend sub = .ok l' := by
  obtain ⟨ds, hw⟩ := hb.wf
  have hi' := hi.append hw h
  obtain ⟨-, hcan, hseg, -, ha, -, hdesc, hf, hcount, -⟩ := hi.toPositions.append_record hw h
  obtain ⟨-, batch, hseal, rfl, rfl⟩ := Log.prepareAppend_eq_ok.1 h
  refine ⟨Serving.issued_new hseg, ?_⟩
  have hdec : Header.decode (batch.bytes.slice 0 BLOCK_SIZE) s.log.config.imageBytes =
      .ok (Record.header ⟨s.log.offset, batch⟩) := by
    rw [hi.config_eq.1]
    exact ha.decodes
  have hfirst : batch.envelope.first = s.log.issued + 1 := by
    rw [hi.issued]
    exact ((Header.follows_iff.1 ha.follows).2.2.2.2 hf).1
  have hlt := hi.toPositions.issued_lt
  have hissued := hcan.issued
  have hne := hcan.pos
  have hentries : (Record.header ⟨s.log.offset, batch⟩).descriptors.map
      (located s.log.current.header.number s.log.offset) =
        (Record.mutations s.active.header.number ⟨s.log.offset, batch⟩).map Placed.entry := by
    rw [← hseg]
    exact (Record.entries_eq _ ⟨s.log.offset, batch⟩).symm
  obtain ⟨index, hindex⟩ : ∃ index, Log.publishEntries s.log.index
      ((Record.header ⟨s.log.offset, batch⟩).descriptors.map
        (located s.log.current.header.number s.log.offset)) = some index := by
    have hin := hi'.toPositions.entries_in (show (s.active.push ⟨s.log.offset, batch⟩).records =
      s.active.records ++ ⟨s.log.offset, batch⟩ :: [] from rfl)
    have hroom : s.log.index.map.length + 2 * (s.log.pendingDescriptors + b.descriptors) ≤
        s.log.limits.intervals := hi'.room
    rw [hentries]
    refine ⟨_, Log.publishEntries_of_room hin hi.ordered ?_⟩
    have hlen : (Record.descriptors ⟨s.log.offset, batch⟩).length = b.descriptors := by
      rw [hcount]
      exact (congrArg length hdesc).trans (length_stamped _ _)
    rw [length_map, length_mutations, hi.limit, hlen]
    omega
  refine ⟨_, Log.publishAppend_eq_ok.2 ⟨hcan.healthy, rfl, _, hdec, hf, ?_, ?_, index, hindex, rfl⟩⟩
  · show s.log.published + 1 = batch.envelope.first
    omega
  · show batch.envelope.first < U64
    omega

/-- A log with nothing pending makes what it published durable. -/
theorem Positions.flush_ok (hp : s.Positions) (hc : s.log.CanFence)
    (hd : s.log.pendingDescriptors = 0) (hi : s.log.issued = s.log.published) :
    ∃ sub l l', s.log.prepareFence = .ok (sub, l) ∧ l.completeSync sub = .ok l' ∧
      l'.drained = .ok () := by
  have hnum : s.log.current.header.number ≠ 0 := by
    rw [hp.current]
    exact (SegmentHeader.validate_eq_ok.1 hp.active_accepts.2.valid).2.1.2
  have hbatch : s.log.nextBatch ≠ 0 := by
    rw [hp.nextBatch, SegmentTrace.place, Place.final_batch]
    simp [Place.start]
  obtain ⟨batch, hfence⟩ : ∃ batch, Batch.fence s.log.current.header.number s.log.nextBatch
      s.log.issued = .ok batch := ⟨_, requireFormat_bind_eq_ok.2 ⟨⟨hnum, hbatch⟩, rfl⟩⟩
  have hprep := Log.prepareFence_eq_ok.2 ⟨hc, batch, hfence, rfl, rfl⟩
  have henv := (hp.fence_record hprep).2.2.2.2.2.2
  have hlast : batch.envelope.last = s.log.issued := congrArg Envelope.last henv
  have hf : batch.envelope.fence = true := congrArg Envelope.fence henv
  refine ⟨_, _, _, hprep, Log.completeSync_eq_ok.2 ⟨hc.healthy, rfl, hf, rfl, hd, ?_, rfl⟩, ?_⟩
  · exact hi.symm.trans hlast.symm
  · exact Log.drained_eq_ok.2 ⟨hc.healthy, hc.rotating, rfl, hd, hi, hlast.trans hi⟩

/-- A drained log that can take a batch makes it durable, and is drained again. -/
theorem Compacting.cycle {sels : List Selection} {ins : List Input} (h : s.Compacting sels ins)
    (hd : s.log.drained = .ok ()) {b : Builder} (hb : b.Built) (hc : s.log.CanAppend b)
    (hn : s.log.nextBatch + 2 < U64) :
    ∃ s' : Staging, s'.Compacting sels ins ∧ s'.log.drained = .ok () ∧
      s'.log.durable = s.log.durable + b.descriptors ∧ s'.log.base = s.log.base ∧
      s'.log.cursor = s.log.cursor ∧ s'.log.config = s.log.config ∧ s'.closed = s.closed ∧
      s'.log.nextBatch = s.log.nextBatch + 2 ∧
      s'.log.offset = s.log.offset + (BLOCK_SIZE + b.payloadBytes) + BLOCK_SIZE ∧
      s.log.appendCapacity ≤ s'.log.appendCapacity + b.descriptors := by
  have hi := h.scanned.inv
  obtain ⟨ds, hw⟩ := hb.wf
  obtain ⟨-, -, -, hpend, hiss, hdur⟩ := Log.drained_eq_ok.1 hd
  obtain ⟨sub, l₁, hprep⟩ := hi.toPositions.append_ok hc
  obtain ⟨hissued, l₂, hpub⟩ := hi.publish_ok hiss hb hprep
  obtain ⟨-, -, -, -, ha, -, -, hf, hcount, hlast⟩ := hi.toPositions.append_record hw hprep
  obtain ⟨-, batch, hseal, rfl, hl₁⟩ := Log.prepareAppend_eq_ok.1 hprep
  have hbytes : batch.bytes.length = BLOCK_SIZE + b.payloadBytes := by
    have hnum : s.log.current.header.number < U64 := by
      rw [hi.current]
      exact hi.active_accepts.2.fits.number
    obtain ⟨hreads, henv, -⟩ := hw.sealBatch hnum (by omega) hseal
    rw [hreads.length, henv]
  have h₁ : (s.pushed _ l₁).Compacting sels ins := h.step (.append hb hprep) (by rw [hl₁]; rfl)
  have hi₁ := h₁.scanned.inv
  obtain ⟨-, -, index, -, -, -, -, -, -, hdesc, -, hl₂⟩ := hi₁.toPositions.publish_record hissued hpub
  have hcap := (hi₁.toPositions.publish_roomed hi₁.roomed hissued hpub).2
  have h₂ : Compacting { s.pushed _ l₁ with log := l₂ } sels ins :=
    h₁.step (.publish hissued hpub) (by rw [hl₂])
  -- what the two operations made of the log
  subst hl₁
  have hoff₂ : l₂.offset = s.log.offset + (BLOCK_SIZE + b.payloadBytes) := by
    rw [hl₂, ← hbytes]
    rfl
  have hnext₂ : l₂.nextBatch = s.log.nextBatch + 1 := by
    rw [hl₂]
    rfl
  have hdesc : batch.envelope.descriptors = batch.envelope.last - s.log.published := hdesc
  have hlast : batch.envelope.last = s.log.issued + ds.length := hlast
  have hpend₂ : l₂.pendingDescriptors = 0 := by
    rw [hl₂]
    show s.log.pendingDescriptors + b.descriptors - batch.envelope.descriptors = 0
    omega
  have hiss₂ : l₂.issued = l₂.published := by
    rw [hl₂]
    rfl
  have hpub₂ : l₂.published = s.log.durable + b.descriptors := by
    rw [hl₂]
    show batch.envelope.last = _
    omega
  have hcan₂ : l₂.CanFence := by
    have hroom := hc.room
    have hconfig : l₂.config = s.log.config := by rw [hl₂]; rfl
    refine ⟨?_, ?_, ?_, by rw [hoff₂, hconfig]; exact hroom, by rw [hnext₂]; exact hn⟩
    · rw [hl₂]
      exact hc.healthy
    · rw [hl₂]
      exact hc.cohort
    · rw [hl₂]
      exact hc.rotating
  obtain ⟨f, l₃, l₄, hfence, hsync, hdrained⟩ :=
    h₂.scanned.inv.toPositions.flush_ok hcan₂ hpend₂ hiss₂
  have hbf : f.batch.bytes.length = BLOCK_SIZE := by
    obtain ⟨-, -, -, -, haf, -, henv⟩ := h₂.scanned.inv.toPositions.fence_record hfence
    have hempty : f.batch.envelope.payloadBytes = 0 := by rw [henv]
    exact haf.length.trans (congrArg (BLOCK_SIZE + ·) hempty)
  obtain ⟨-, fb, -, hfsub, hl₃⟩ := Log.prepareFence_eq_ok.1 hfence
  obtain ⟨-, -, -, -, -, hpub₃, hl₄⟩ := Log.completeSync_eq_ok.1 hsync
  have h₃ := h₂.step (.fence hfence) (by rw [hl₃]; rfl)
  have h₄ := h₃.step (.sync hsync) (by rw [hl₄]; rfl)
  refine ⟨_, h₄, hdrained, ?_, ?_, ?_, ?_, rfl, ?_, ?_, ?_⟩
  · show l₄.durable = _
    rw [hl₄, ← hpub₂, ← hpub₃, hl₃]
    rfl
  · show l₄.base = _
    rw [hl₄, hl₃, hl₂]
    rfl
  · show l₄.cursor = _
    rw [hl₄, hl₃, hl₂]
    rfl
  · show l₄.config = _
    rw [hl₄, hl₃, hl₂]
    rfl
  · show l₄.nextBatch = _
    rw [hl₄, hl₃]
    show l₂.nextBatch + 1 = _
    omega
  · show l₄.offset = _
    rw [hfsub] at hbf
    rw [hl₄, hl₃, ← hoff₂, ← hbf]
    rfl
  · have hsame : l₄.appendCapacity = l₂.appendCapacity := by
      rw [hl₄, hl₃]
      rfl
    have hless : s.log.appendCapacity ≤ ((s.log.limits.intervals - s.log.index.map.length) / 2 -
        (s.log.pendingDescriptors + b.descriptors)) + b.descriptors := by
      rw [Log.appendCapacity]
      omega
    have hcap : (s.log.limits.intervals - s.log.index.map.length) / 2 -
        (s.log.pendingDescriptors + b.descriptors) ≤ l₂.appendCapacity := hcap
    show s.log.appendCapacity ≤ l₄.appendCapacity + b.descriptors
    omega

/-- A log of one segment: it is contiguous, and starts at or below D. -/
theorem Inv.retained_single (hi : s.Inv) (hc : s.closed = []) :
    s.retained = [s.active] ∧ s.retained.Contiguous ∧
      s.active.header.precedingSequence ≤ s.log.compacted := by
  obtain ⟨hsub, -, ks, hks⟩ := hi.toPositions.retained_eq
  have htrace : s.trace = [s.active] := by rw [Staging.trace, hc]; rfl
  have heq : s.retained = [s.active] := by
    rw [hks, htrace] at hsub
    have hlen := hsub.length_le
    rw [length_append, length_singleton] at hlen
    obtain rfl : ks = [] := eq_nil_of_length_eq_zero (by omega)
    exact hks
  refine ⟨heq, by rw [heq]; exact isChain_singleton _, ?_⟩
  have hw := hi.trace
  rw [htrace] at hw
  rw [hw.1.sequence]
  exact hi.origin

omit [Digest] in
theorem InFiles.of_stored {files : Nat → Bytes}
    (h : ∀ t ∈ s.trace, ∀ r ∈ t.records, r.Stored (files t.header.number)) : s.InFiles files :=
  fun t ht r hr _ => (h t ht r hr).intact _

/-- A log of one segment with durable batches above D can be compacted. -/
theorem Compacting.compact_single (h : s.Compacting sels ins) (hc : s.closed = [])
    (hd : s.log.drained = .ok ()) {v : Manifest.View} (hb : s.log.base = some v)
    (hlt : v.commit.durable < s.log.durable) : ∃ (sel : Selection) (input : Input) (c : ScanPosition),
      s.Compacting (sel :: sels) (input :: ins) ∧ input.base = v ∧ input.cursor = some c ∧
      v.commit.durable < input.through ∧ input.through ≤ s.log.durable ∧ c.sequence = input.through := by
  have hs := h.scanned
  have hp := hs.inv.toPositions
  obtain ⟨sel, hsel⟩ := Log.selectCompaction_of (Log.drained_eq_ok.1 hd).1 hb hlt
  obtain ⟨base, hbase, -, hdef⟩ := Log.selectCompaction_eq_ok hsel
  obtain rfl : v = base := Option.some.inj (hb.symm.trans hbase)
  have hselbase : sel.base = v := by rw [hdef]
  have hthrough : sel.through = s.log.durable := by rw [hdef]
  obtain ⟨files, hfiles⟩ := hp.trace.exists_files
  have hin : s.InFiles files := .of_stored hfiles
  obtain ⟨hretained, hcont, hprec⟩ := hs.inv.retained_single hc
  obtain ⟨origin, hdurable⟩ := hs.durable hsel (by
    intro t ht
    rw [hretained] at ht
    obtain rfl := Option.some.inj ht
    rw [hselbase]
    rw [Log.compacted, hb] at hprec
    exact hprec) hcont hin
  obtain ⟨input, hrun, htakes⟩ := hdurable.run_takes
  have hload := (Selection.load_eq hdurable).trans hrun
  obtain ⟨c, hc, -, hseq⟩ := htakes.cursor
  have habove := htakes.above
  have hwithin := htakes.within
  rw [hselbase] at habove
  rw [hthrough] at hwithin
  refine ⟨sel, input, c, (h.select hsel).load mem_cons_self ?_ hload,
    (hdurable.load_base hload).trans hselbase, hc, habove, hwithin, hseq⟩
  exact fun t ht r hr _ => (hfiles t ht r hr).header_bytes

end Staging

/-- A load from the saved position takes what a load from the first retained segment takes. -/
theorem Staging.Compacting.load_position {s : Staging} {sels : List Selection} {ins : List Input}
    (h : s.Compacting sels ins) {sel : Selection} (hsel : s.log.selectCompaction = .ok (some sel))
    {c : ScanPosition} (hc : sel.cursor = some c) (hcont : s.retained.Contiguous)
    {files : Nat → Bytes} (hfiles : s.InFiles files) :
    ∃ input : Input, sel.load files = .ok input ∧
      { sel with cursor := none }.load files = .ok input := by
  obtain ⟨origin, hd⟩ := h.scanned.durable hsel (h.scanned.starts hsel hc hcont) hcont hfiles
  obtain ⟨input, hrun, -⟩ := hd.run_takes
  refine ⟨input, (Selection.load_eq hd).trans hrun, ?_⟩
  have hnone : Selection.Durable { sel with cursor := none } files origin s.log.config s.retained :=
    ⟨hd.wf, hd.spans, hd.image, hd.starts, hd.below, hd.reaches, hd.readable, nofun⟩
  exact (Selection.load_eq hnone).trans hrun

omit [Digest] in
/-- The second compaction of a log starts at the position the first one left. -/
theorem Staging.Compacting.load_position_second :
    let _ := nullDigest
    ∃ (s : Staging) (sels : List Selection) (ins : List Input) (sel : Selection) (c : ScanPosition)
      (files : Nat → Bytes), s.Compacting sels ins ∧ s.log.selectCompaction = .ok (some sel) ∧
      sel.cursor = some c ∧ s.retained.Contiguous ∧ s.InFiles files ∧
      ∃ input : Input, sel.load files = .ok input ∧
        { sel with cursor := none }.load files = .ok input := by
  intro _
  let view : Nat → Manifest.View := fun d => ⟨⟨.zero 16, .zero 16, 1, .empty, d, 1048576⟩, 0⟩
  have hcreate : ∃ l, Log.create ⟨⟨List.replicate 16 1, rfl⟩, ⟨List.replicate 16 2, rfl⟩, 1048576,
      1060864⟩ ⟨1060864, 126⟩ (some (view 0)) ⟨none, 1060864⟩ = .ok l ∧ l.nextBatch = 1 ∧
      l.issued = 0 ∧ l.drained = .ok () ∧ l.offset = BLOCK_SIZE ∧ l.limits.intervals = 126 ∧
      l.index.map.length = 0 ∧ l.pendingDescriptors = 0 ∧
      l.config.imageBytes = 1048576 ∧ l.config.segmentBytes = 1060864 ∧ l.base = some (view 0) ∧
      l.durable = 0 :=
    ⟨_, rfl, rfl, rfl, rfl, rfl, rfl, rfl, rfl, rfl, rfl, rfl, rfl⟩
  obtain ⟨l, hl, hnb, hiss, hdrained, hoff, hint, hlen, hpend, himg, hseg, hbase, hdur⟩ := hcreate
  have hcap : l.appendCapacity = 63 := by rw [Log.appendCapacity, hint, hlen, hpend]
  have hquiet := (Log.create_quiet ⟨by decide, by decide⟩ hl).1
  have h₀ : (Staging.created l).Compacting [] [] := by
    refine .start (.created ⟨by decide, by decide⟩ hl) hquiet ?_
    intro v hv
    obtain rfl := Option.some.inj (hbase.symm.trans hv)
    exact himg.symm
  obtain ⟨b, hb, hbd, hbp, hbi⟩ :=
    Builder.Built.single 1048576 BLOCK_SIZE (by decide) (by decide) (by decide)
  have hcan : ∀ l' : Log, l'.drained = .ok () → l'.config = l.config → 1 ≤ l'.appendCapacity →
      l'.issued + 1 < U64 → l'.nextBatch + 1 < U64 → l'.offset + 3 * BLOCK_SIZE ≤ 1060864 →
      l'.CanAppend b := by
    intro l' hd hc hcap hissued hbatch hroom
    obtain ⟨hf, hr, hco, -⟩ := Log.drained_eq_ok.1 hd
    refine ⟨hf, hco, hr, by simp [Builder.isEmpty, hbd], by rw [hc, himg, hbi], by rw [hbd]; exact hcap,
      by rw [hbd]; exact hissued, hbatch, ?_⟩
    rw [hbp, hc, hseg]
    omega
  -- one batch becomes durable
  obtain ⟨s₁, h₁, hd₁, hdur₁, hbase₁, -, hconf₁, hclosed₁, hnb₁, hoff₁, hcap₁⟩ := h₀.cycle hdrained hb
    (hcan l hdrained rfl (by rw [hcap]; decide) (by rw [hiss]; decide) (by rw [hnb]; decide)
      (by rw [hoff]; decide)) (by show l.nextBatch + 2 < U64; rw [hnb]; decide)
  rw [hbd] at hdur₁ hcap₁
  rw [hbp] at hoff₁
  have hdur₁ : s₁.log.durable = 1 := by rw [hdur₁]; exact congrArg (· + 1) hdur
  have hbase₁ : s₁.log.base = some (view 0) := hbase₁.trans hbase
  -- the first compaction takes it
  obtain ⟨sel₁, input, c, h₂, hibase, hic, habove, hwithin, hcseq⟩ := h₁.compact_single hclosed₁ hd₁ hbase₁
    (by rw [hdur₁]; decide)
  have hthrough : input.through = 1 := by
    rw [hdur₁] at hwithin
    have : 0 < input.through := habove
    omega
  obtain ⟨l₂, hpub⟩ : ∃ l₂, s₁.log.publishCompaction ⟨view 0, c, view 1⟩ = .ok l₂ :=
    ⟨_, Log.publishCompaction_eq_ok.2 ⟨(Log.drained_eq_ok.1 hd₁).1, hbase₁, Nat.zero_lt_one,
      hdur₁.ge, hcseq.trans hthrough, rfl⟩⟩
  have h₃ := h₂.publish List.mem_cons_self ⟨hibase.symm, hic, hthrough.symm, by rw [hibase]⟩ hpub
  have hcap₂ := (Log.publishCompaction_roomed h₁.scanned.inv.roomed hpub).2
  obtain ⟨-, -, -, -, -, rfl⟩ := Log.publishCompaction_eq_ok.1 hpub
  -- a second batch becomes durable
  have hiss₁ : s₁.log.issued = 1 := by
    obtain ⟨-, -, -, -, h1, h2⟩ := Log.drained_eq_ok.1 hd₁
    omega
  have hoff₁ : s₁.log.offset = BLOCK_SIZE + (BLOCK_SIZE + BLOCK_SIZE) + BLOCK_SIZE := by
    rw [hoff₁]
    exact congrArg (· + (BLOCK_SIZE + BLOCK_SIZE) + BLOCK_SIZE) hoff
  have hnb₁ : s₁.log.nextBatch = 3 := hnb₁.trans (congrArg (· + 2) hnb)
  have hcap₁ : 62 ≤ s₁.log.appendCapacity := by
    have : 63 ≤ s₁.log.appendCapacity + 1 := hcap ▸ hcap₁
    omega
  obtain ⟨s₄, h₄, hd₄, hdur₄, hbase₄, hcur₄, -, hclosed₄, -⟩ := h₃.cycle
    (Log.drained_eq_ok.2 (Log.drained_eq_ok.1 hd₁)) hb
    (hcan _ (Log.drained_eq_ok.2 (Log.drained_eq_ok.1 hd₁)) hconf₁
      ((show 1 ≤ 62 by decide).trans (hcap₁.trans hcap₂))
      (by show s₁.log.issued + 1 < U64; rw [hiss₁]; decide)
      (by show s₁.log.nextBatch + 1 < U64; rw [hnb₁]; decide)
      (by show s₁.log.offset + 3 * BLOCK_SIZE ≤ 1060864; rw [hoff₁]; decide))
    (by show s₁.log.nextBatch + 2 < U64; rw [hnb₁]; decide)
  have hsingle : s₄.closed = [] := hclosed₄.trans hclosed₁
  have hdur₄ : s₄.log.durable = 2 := by
    rw [hdur₄, hbd]
    exact congrArg (· + 1) hdur₁
  have hbase₄ : s₄.log.base = some (view 1) := hbase₄
  have hcur₄ : s₄.log.cursor = some c := hcur₄
  obtain ⟨sel, hsel⟩ := Log.selectCompaction_of (Log.drained_eq_ok.1 hd₄).1 hbase₄
    (by rw [hdur₄]; decide)
  have hi := h₄.scanned.inv
  have hselc : sel.cursor = some c := by
    obtain ⟨base, hb', -, rfl⟩ := Log.selectCompaction_eq_ok hsel
    obtain rfl := Option.some.inj (hbase₄.symm.trans hb')
    refine Option.filter_eq_some_iff.2 ⟨hcur₄, decide_eq_true ⟨hcseq.trans hthrough, ?_⟩⟩
    obtain ⟨t, ht, before, after, hr, -, rfl⟩ := h₄.scanned.marked c hcur₄
    rw [Staging.trace, hsingle] at ht
    obtain rfl := List.mem_singleton.1 ht
    refine List.any_eq_true.2 ⟨s₄.log.current, by simp [Log.segments], decide_eq_true ?_⟩
    rw [hi.current]
    refine ⟨rfl, ?_⟩
    have hchain := hi.active_accepts.2.chain
    rw [hr, Chain.append] at hchain
    show (SegmentTrace.place ⟨s₄.active.header, before⟩).offset ≤ s₄.active.place.offset
    rw [SegmentTrace.place, SegmentTrace.place, hr, final_append]
    exact Place.final_offset_le hchain.2
  obtain ⟨files, hfiles⟩ := hi.trace.exists_files
  obtain ⟨-, hcont, -⟩ := hi.retained_single hsingle
  have hin : s₄.InFiles files := .of_stored hfiles
  exact ⟨s₄, _, _, sel, c, files, h₄, hsel, hselc, hcont, hin, h₄.load_position hsel hselc hcont hin⟩

end Cas.Append
