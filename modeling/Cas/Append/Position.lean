import Cas.Append.Selection

/-!
# Where a load leaves its position

A load that succeeds leaves its position right after a record of the segments it was given, at the end
of what it took. This needs only the headers in the files: neither the payloads nor a log without
gaps. A selection of a log is over the segments that the log retains.
-/

namespace Cas.Append

open Bytes List
open Except (bind_eq_ok ok_bind)

/-! ## The loops -/

/-- The file has the header block of the record. -/
def Record.HeaderIn (file : Bytes) (r : Record) : Prop :=
  file.slice r.offset BLOCK_SIZE = r.header.bytes

variable [Digest]

/-- A batch that is taken moves the end of the input there. -/
theorem Input.scan_through {i i' : Input} {file : Bytes} {offset base through : Nat} {h : Header}
    (hs : i.scan file offset base through h = .ok (some i')) :
    i'.through = if h.envelope.fence = false ∧ h.envelope.last > base then h.envelope.last
      else i.through := by
  unfold Input.scan at hs
  by_cases habove : h.envelope.fence = false ∧ h.envelope.last > base
  · rw [if_pos habove] at hs ⊢
    obtain ⟨-, hs⟩ := require_bind_eq_ok.1 hs
    split at hs
    · cases hs
    · obtain ⟨data, -, hs⟩ := bind_eq_ok.1 hs
      obtain ⟨u, -, hs⟩ := bind_eq_ok.1 hs
      obtain rfl := Option.some.inj (Except.ok.inj hs)
      rfl
  · rw [if_neg habove] at hs ⊢
    obtain rfl := Option.some.inj (Except.ok.inj hs)
    rfl

namespace Load

variable {b : Bounds} {segment : Segment} {file : Bytes} {p : Place} {r : Record} {l l' : Load}
  {flow : Flow}

/-- What one turn of the record loop does when it succeeds, whatever payload the file has. -/
theorem records_ok {fuel : Nat} (ha : p.Accepts segment.header r) (hin : r.HeaderIn file)
    (hlt : p.offset < segment.stop) (hne : l.sequence ≠ b.through) (hseq : l.sequence = p.sequence)
    (h : records b segment file (fuel + 1) p.offset p.batch l = .ok (l', flow)) :
    l' = l ∨ ∃ input : Input,
      input.through = (if r.Above b.base then r.envelope.last else l.input.through) ∧
      records b segment file fuel (p.next r).offset (p.next r).batch ⟨r.envelope.last, { input with
        cursor := some ((p.next r).position segment.header.number) }⟩ = .ok (l', flow) := by
  rw [records, if_pos hlt, if_neg hne] at h
  obtain ⟨buffer, hbuf, h⟩ := bind_eq_ok.1 h
  obtain ⟨hd, hdec, h⟩ := bind_eq_ok.1 h
  obtain rfl : hd = r.header := by
    have hslice := (readBytes_eq_ok.1 hbuf).2.2
    rw [← ha.offset, hin] at hslice
    have hdec := (Header.decode_eq_ok_iff.1 (Except.mapError_eq_ok.1 hdec)).1
    rw [hslice] at hdec
    rw [hdec]
    exact (Header.decode_eq_ok_iff.1 ha.decodes).1.symm
  obtain ⟨-, h⟩ := require_bind_eq_ok.1 h
  obtain ⟨taken, hscan, h⟩ := bind_eq_ok.1 h
  cases taken with
  | none => exact Or.inl (congrArg Prod.fst (Except.ok.inj h)).symm
  | some input =>
    have hsequence : (if r.envelope.fence = true then l.sequence else r.envelope.last) =
        r.envelope.last := by
      split
      · rename_i hf
        rw [hseq]
        exact ((Header.follows_iff.1 ha.follows).2.2.2.1 hf).symm
      · rfl
    simp only at h
    cases hnext : checkedAdd p.batch 1 with
    | none =>
      rw [hnext] at h
      cases h
    | some batch =>
      obtain ⟨rfl, -⟩ := checkedAdd_eq_some.1 hnext
      rw [hnext] at h
      refine Or.inr ⟨input, Input.scan_through hscan, ?_⟩
      rw [← h]
      exact congrArg (fun q => records b segment file fuel (p.offset + r.length) (p.batch + 1)
        ⟨q, { input with
          cursor := some ⟨segment.header.number, p.offset + r.length, p.batch + 1, q⟩ }⟩)
        hsequence.symm

/-- The scan is within `e`, and past `d` its position is one of the trace. -/
structure Marked (ts : Trace) (d e : Nat) (l : Load) : Prop where
  within : l.sequence ≤ e
  through : l.input.through = max d l.sequence
  cursor : l.sequence ≤ d ∨
    ∃ c, l.input.cursor = some c ∧ ts.Marks c ∧ c.sequence = l.sequence

/-- One record past the place `p` keeps the scan on the trace. -/
theorem Marked.next {ts : Trace} {d e : Nat} {h : SegmentHeader} (hm : l.Marked ts d e)
    (ha : p.Accepts h r) (hseq : l.sequence = p.sequence) (hlast : r.envelope.last ≤ e)
    (hmarks : ts.Marks ((p.next r).position h.number)) {input : Input}
    (hthrough : input.through = if r.Above d then r.envelope.last else l.input.through) :
    Marked ts d e ⟨r.envelope.last, { input with
      cursor := some ((p.next r).position h.number) }⟩ := by
  refine ⟨hlast, ?_, Or.inr ⟨_, rfl, hmarks, rfl⟩⟩
  show input.through = max d r.envelope.last
  rw [hthrough]
  by_cases habove : r.Above d
  · rw [if_pos habove, Nat.max_eq_right (le_of_lt habove.2)]
  · rw [if_neg habove, hm.through]
    cases hf : r.envelope.fence with
    | true =>
      have : r.envelope.last = p.sequence := (Header.follows_iff.1 ha.follows).2.2.2.1 hf
      rw [this, hseq]
    | false =>
      have hle : ¬ d < r.envelope.last := fun hlt => habove ⟨hf, hlt⟩
      have := ha.sequences.1
      omega

theorem records_marked {ts : Trace} {t : SegmentTrace} (ht : t ∈ ts) (hw : t.Wf)
    (hcut : ∀ r ∈ t.records, r.envelope.fence = false →
      r.envelope.last ≤ b.through ∨ b.through < r.envelope.first)
    (hin : ∀ r ∈ t.records, r.Before b.through → r.HeaderIn file) :
    ∀ {rs before : List Record} {fuel : Nat} {l : Load}, t.records = before ++ rs →
      l.sequence = (SegmentTrace.place ⟨t.header, before⟩).sequence →
      l.Marked ts b.base b.through →
      records b t.segment file fuel (SegmentTrace.place ⟨t.header, before⟩).offset
        (SegmentTrace.place ⟨t.header, before⟩).batch l = .ok (l', flow) →
      l'.Marked ts b.base b.through
  | _, _, 0, _, _, _, hm, h => by
    obtain rfl : _ = l' := congrArg Prod.fst (Except.ok.inj h)
    exact hm
  | [], before, fuel + 1, l, hr, _, hm, h => by
    have hplace : t.segment.stop = (SegmentTrace.place ⟨t.header, before⟩).offset := by
      rw [SegmentTrace.segment, SegmentTrace.place, hr, append_nil]
      rfl
    rw [records, if_neg (by rw [hplace]; exact lt_irrefl _)] at h
    obtain rfl : l = l' := congrArg Prod.fst (Except.ok.inj h)
    exact hm
  | r :: rs, before, fuel + 1, l, hr, hseq, hm, h => by
    have hc := hw.chain
    rw [hr, Chain.append] at hc
    obtain ⟨-, ha, hrest⟩ := hc
    have hmem : r ∈ t.records := by rw [hr]; simp
    have hlt : (SegmentTrace.place ⟨t.header, before⟩).offset < t.segment.stop := by
      have hle := Place.final_offset_le hrest
      have hlen : BLOCK_SIZE ≤ r.length := Nat.le_add_right _ _
      have hstop : t.segment.stop = (final Place.next
          ((SegmentTrace.place ⟨t.header, before⟩).next r) rs).offset := by
        rw [SegmentTrace.segment, SegmentTrace.place, hr, final_append, final_cons]
        rfl
      have hle : (SegmentTrace.place ⟨t.header, before⟩).offset + r.length ≤ t.segment.stop := by
        rw [hstop]
        exact hle
      simp only [BLOCK_SIZE] at hlen
      omega
    by_cases he : l.sequence = b.through
    · rw [records, if_pos hlt, if_pos he] at h
      obtain rfl : l = l' := congrArg Prod.fst (Except.ok.inj h)
      exact hm
    · have hbelow : (SegmentTrace.place ⟨t.header, before⟩).sequence < b.through := by
        rw [← hseq]
        exact lt_of_le_of_ne hm.within he
      obtain ⟨hbefore, hlast⟩ := before_of_cut ha (hcut r hmem) hbelow
      rcases records_ok ha (hin r hmem hbefore) hlt he hseq h with rfl | ⟨input, hthrough, h⟩
      · exact hm
      · have hplace : SegmentTrace.place ⟨t.header, before ++ [r]⟩ =
            (SegmentTrace.place ⟨t.header, before⟩).next r := final_concat _ _
        have hr' : t.records = (before ++ [r]) ++ rs := by rw [hr]; simp
        have hmarks : ts.Marks (((SegmentTrace.place ⟨t.header, before⟩).next r).position
            t.header.number) := ⟨t, ht, before ++ [r], rs, hr', by simp, by rw [hplace]⟩
        rw [← hplace] at h
        refine records_marked ht hw hcut hin hr' (by rw [hplace]; rfl) ?_ h
        rw [hplace]
        exact hm.next ha hseq hlast hmarks hthrough

/-- The segment loop keeps the scan on the trace, also over segments that leave gaps: it stops at
a gap with an error. -/
theorem segments_marked_ok {ts : Trace} {files : Nat → Bytes} {cursor : Option ScanPosition}
    (hts : ts.Pairwise fun a b => a.header.number < b.header.number) (hw : ∀ t ∈ ts, t.Wf)
    (hcut : ts.Uncut b.through)
    (hin : ∀ t ∈ ts, ∀ r ∈ t.records, r.Before b.through → r.HeaderIn (files t.header.number))
    (hcursor : ∀ c, cursor = some c → ts.Marks c) :
    ∀ {ks : Trace} {l l' : Load} {bounded : Bool}, (∀ t ∈ ks, t ∈ ts) →
      ks.Pairwise (fun a b => a.header.number < b.header.number) →
      (∀ c, cursor = some c → (∃ t ∈ ks, t.header.number = c.segment) → l.sequence = c.sequence) →
      l.Marked ts b.base b.through →
      segments b files cursor (ks.map SegmentTrace.segment) l = .ok (l', bounded) →
      l'.Marked ts b.base b.through
  | [], _, _, _, _, _, _, hm, h => by
    obtain rfl := congrArg Prod.fst (Except.ok.inj h)
    exact hm
  | t :: ks, l, l', bounded, hks, hsorted, hat, hm, h => by
    obtain ⟨hlt, hsorted⟩ := pairwise_cons.1 hsorted
    have hks' : ∀ u ∈ ks, u ∈ ts := fun u hu => hks u (mem_cons_of_mem _ hu)
    have ht := hks t mem_cons_self
    -- the rest of the segments, after one that the loop entered at `p`
    have hrest : ∀ {before after : List Record}, t.records = before ++ after →
        l.sequence = (SegmentTrace.place ⟨t.header, before⟩).sequence →
        (∀ c, cursor = some c → c.segment ≤ t.header.number) →
        (records b t.segment (files t.header.number) t.segment.stop
          (SegmentTrace.place ⟨t.header, before⟩).offset (SegmentTrace.place ⟨t.header, before⟩).batch l
          >>= onward b files cursor (ks.map SegmentTrace.segment)) = .ok (l', bounded) →
        l'.Marked ts b.base b.through := by
      intro before after hr hseq hle h
      obtain ⟨⟨l₁, flow⟩, hrec, h⟩ := bind_eq_ok.1 h
      have hm₁ := records_marked ht (hw t ht) (hcut t ht) (hin t ht) hr hseq hm hrec
      cases flow with
      | stop bounded =>
        obtain rfl := congrArg Prod.fst (Except.ok.inj h)
        exact hm₁
      | next =>
        refine segments_marked_ok hts hw hcut hin hcursor hks' hsorted ?_ hm₁ h
        rintro c hc ⟨u, hu, hnum⟩
        have h1 := hle c hc
        have h2 := hlt u hu
        omega
    have henter : (∀ c, cursor = some c → c.segment < t.header.number) →
        l'.Marked ts b.base b.through := by
      intro hbelow
      rw [map_cons, segments_enter hbelow] at h
      obtain ⟨hseq, h⟩ := require_bind_eq_ok.1 h
      exact hrest (nil_append _).symm hseq.symm (fun c hc => le_of_lt (hbelow c hc)) h
    cases hc : cursor with
    | none => exact henter fun c h => by cases hc.symm.trans h
    | some c =>
      rcases lt_trichotomy t.header.number c.segment with hlow | heq | hhigh
      · rw [hc, map_cons, ← singleton_append,
          show [t.segment] = [t].map SegmentTrace.segment from rfl,
          segments_skip _ _ (by simpa using hlow), ← hc] at h
        refine segments_marked_ok hts hw hcut hin hcursor hks' hsorted ?_ hm h
        rintro c hc ⟨u, hu, hnum⟩
        exact hat c hc ⟨u, mem_cons_of_mem _ hu, hnum⟩
      · -- the position is in this segment
        obtain ⟨u, hu, before, after, hr, -, rfl⟩ := hcursor c hc
        obtain rfl : t = u := Trace.eq_of_sorted hts ht hu heq
        rw [hc, map_cons, segments_resume heq.symm, ← hc] at h
        refine hrest hr (hat _ hc ⟨t, mem_cons_self, heq⟩) ?_ h
        intro c' hc'
        rw [hc] at hc'
        obtain rfl := Option.some.inj hc'
        exact heq.ge
      · refine henter ?_
        intro c' hc'
        rw [hc] at hc'
        obtain rfl := Option.some.inj hc'
        exact hhigh

end Load

/-- The selection is over segments `ks` of the log as they were at its capture. -/
structure Selection.Over (s : Selection) (ks : Trace) : Prop where
  sorted : ks.Pairwise fun a b => a.header.number < b.header.number
  wf : ∀ t ∈ ks, t.Wf
  spans : s.spans = ks.map SegmentTrace.segment
  below : s.base.commit.durable < s.through
  cut : ks.Uncut s.through
  marked : ∀ c, s.cursor = some c → ks.Marks c ∧ c.sequence = s.base.commit.durable

/-- A load that succeeds leaves its position at the end of what it took. -/
theorem Selection.Over.load_marks {s : Selection} {ks : Trace} (ho : s.Over ks) {files : Nat → Bytes}
    (hin : ∀ t ∈ ks, ∀ r ∈ t.records, r.Before s.through → r.HeaderIn (files t.header.number))
    {input : Input} (h : s.load files = .ok input) :
    ∃ c, input.cursor = some c ∧ ks.Marks c ∧ c.sequence = input.through := by
  unfold Selection.load at h
  split at h
  · cases h
  rename_i first rest hspans
  obtain ⟨hle, h⟩ := require_bind_eq_ok.1 h
  obtain ⟨⟨l, bounded⟩, hseg, h⟩ := bind_eq_ok.1 h
  obtain ⟨-, h⟩ := require_bind_eq_ok.1 h
  obtain ⟨hlt, h⟩ := require_bind_eq_ok.1 h
  obtain rfl : l.input = input := Except.ok.inj h
  rw [ho.spans] at hseg
  have hm : l.Marked ks s.base.commit.durable s.through := by
    refine Load.segments_marked_ok (b := ⟨_, _, _⟩) ho.sorted ho.wf ho.cut hin
      (fun c hc => (ho.marked c hc).1) (fun t ht => ht) ho.sorted ?_ ?_ hseg
    · rintro c hc -
      rw [hc]
      rfl
    · exact ⟨hle.trans (le_of_lt ho.below), (Nat.max_eq_left hle).symm, Or.inl hle⟩
  have hthrough := hm.through
  have hlt : s.base.commit.durable < l.input.through := hlt
  rcases hm.cursor with hd | ⟨c, hc, hmarks, hseq⟩
  · omega
  · exact ⟨c, hc, hmarks, by omega⟩

/-! ## Boundaries of a history -/

namespace Trace

variable {origin : Tail} {config : Config}

theorem Wf.uncut_place {us vs : Trace} {t : SegmentTrace} {before after : List Record}
    (hw : Trace.Wf origin config (us ++ t :: vs)) (hr : t.records = before ++ after) :
    Trace.Uncut (us ++ t :: vs) (SegmentTrace.place ⟨t.header, before⟩).sequence := by
  obtain ⟨e, hlast⟩ : ∃ e, Trace.Uncut (us ++ t :: vs) e :=
    ⟨_, fun u hu r hmem _ => Or.inl (Trace.last_le hw hu hmem)⟩
  obtain ⟨hu, ha, -⟩ := Chain.append.1 hw
  have hus : Trace.Uncut us e := fun u hu => hlast u (mem_append_left _ hu)
  have hchain := (Trace.visits_chain hw hlast).1
  have hsplit : Trace.visits (us ++ t :: vs) =
      (Trace.visits us ++ Place.visits t.header.number (Place.start t.header) before) ++
        (Place.visits t.header.number (SegmentTrace.place ⟨t.header, before⟩) after ++ vs.visits) := by
    rw [Trace.visits_append, Trace.visits_cons, SegmentTrace.visits, hr, Place.visits_append]
    simp [SegmentTrace.place]
  rw [hsplit, Chain.append, final_append, (Trace.visits_chain hu hus).2, ← ha.sequence] at hchain
  have hc := ha.wf.chain
  rw [hr, Chain.append] at hc
  have hplace := (Place.visits_chain t.header.number hc.1 fun r hmem =>
    hlast t (by simp) r (by rw [hr]; exact mem_append_left _ hmem)).2
  have hxs := hchain.2
  rw [show final Visit.next t.header.precedingSequence
    (Place.visits t.header.number (Place.start t.header) before) = _ from hplace] at hxs
  exact Trace.uncut_of_split hsplit (hw.last_le_place hr) hxs

theorem Marks.uncut {ts : Trace} {c : ScanPosition} (h : ts.Marks c) (hw : ts.Wf origin config) :
    ts.Uncut c.sequence := by
  obtain ⟨t, ht, before, after, hr, -, rfl⟩ := h
  obtain ⟨us, vs, rfl⟩ := append_of_mem ht
  exact hw.uncut_place hr

end Trace

/-- Past a place, batches end past its prefix and fences not below it. -/
theorem Place.last_ge {h : SegmentHeader} {p : Place} {rs : List Record}
    (hc : Chain (Place.Accepts h) Place.next p rs) :
    ∀ r ∈ rs, ¬ r.Before p.sequence := by
  intro r hr
  obtain ⟨before, after, rfl, hb, ha, -⟩ := hc.exists_of_mem hr
  have hle := Place.final_sequence_le hb
  have hge := ha.sequences.1
  rintro (hlt | ⟨hf, heq⟩)
  · omega
  · have := ha.lt_of_data hf
    omega

namespace Staging

variable {s : Staging}

theorem Positions.uncut_durable (hp : s.Positions) : s.trace.Uncut s.log.durable := by
  obtain ⟨k, hk⟩ := hp.frontier
  rw [hk.durable]
  exact Trace.Wf.uncut_place hp.trace (take_append_drop k s.active.records).symm

theorem Positions.synced_of_before (hp : s.Positions) {t : SegmentTrace} (ht : t ∈ s.trace)
    {r : Record} (hr : r ∈ t.records) (hb : r.Before s.log.durable) : s.Synced t.header.number r := by
  rcases mem_append.1 ht with ht | ht
  · exact hp.closedSynced t ht r hr
  · obtain ⟨k, hk⟩ := hp.frontier
    obtain rfl := mem_singleton.1 ht
    rw [← take_append_drop k s.active.records] at hr
    rcases mem_append.1 hr with hr | hr
    · exact hk.synced r hr
    · have hc := hp.active_accepts.2.chain
      rw [← take_append_drop k s.active.records, Chain.append] at hc
      rw [hk.durable] at hb
      exact absurd hb (Place.last_ge hc.2 r hr)

/-- The segments of the history that the log retains. -/
def retained (s : Staging) : Trace :=
  s.trace.filter fun t => s.log.segments.any fun g => g.header.number = t.header.number

omit [Digest] in
/-- A sublist of a sorted trace is what its numbers select. -/
theorem filter_of_sublist {ks ts : Trace} (h : ks.Sublist ts)
    (hs : ts.Pairwise fun a b => a.header.number < b.header.number) :
    (ts.filter fun t => ks.any fun k => k.header.number = t.header.number) = ks := by
  induction h with
  | slnil => rfl
  | @cons ks ts t h ih =>
    obtain ⟨hlt, hs⟩ := pairwise_cons.1 hs
    rw [filter_cons_of_neg, ih hs]
    simp only [any_eq_true, decide_eq_true_eq, not_exists, not_and]
    intro k hk heq
    have := hlt k (h.subset hk)
    omega
  | @cons_cons ks ts t h ih =>
    obtain ⟨hlt, hs⟩ := pairwise_cons.1 hs
    rw [filter_cons_of_pos (by simp)]
    refine congrArg _ (Eq.trans (filter_congr fun u hu => ?_) (ih hs))
    have := hlt u hu
    simp only [any_cons, Bool.or_eq_right_iff_imp, decide_eq_true_eq]
    omega

theorem Positions.retained_eq (hp : s.Positions) :
    s.retained.Sublist s.trace ∧ s.retained.map SegmentTrace.segment = s.log.segments ∧
      ∃ ks, s.retained = ks ++ [s.active] := by
  obtain ⟨ks, hks, holder⟩ := sublist_map_iff.1 hp.older
  have hsub : (ks ++ [s.active]).Sublist s.trace := hks.append (List.Sublist.refl _)
  have hsegments : (ks ++ [s.active]).map SegmentTrace.segment = s.log.segments := by
    rw [map_append, ← holder, Log.segments, hp.current]
    rfl
  have heq : s.retained = ks ++ [s.active] := by
    rw [← filter_of_sublist hsub (Trace.numbers_pairwise hp.trace), retained, ← hsegments]
    simp only [any_map]
    rfl
  rw [heq]
  exact ⟨hsub, hsegments, ks, rfl⟩

end Staging

/-! ## Selections of a log -/

omit [Digest] in
theorem Log.selectCompaction_eq_ok {l : Log} {sel : Selection}
    (h : l.selectCompaction = .ok (some sel)) : ∃ base, l.base = some base ∧
      base.commit.durable < l.durable ∧ sel = {
        base
        cursor := l.cursor.filter fun cursor => cursor.sequence = base.commit.durable ∧
          l.segments.any fun segment =>
            segment.header.number = cursor.segment ∧ cursor.offset ≤ segment.stop
        through := l.durable
        spans := l.segments } := by
  obtain ⟨u, -, h⟩ := bind_eq_ok.1 h
  split at h
  · cases h
  · rename_i base hbase
    simp only at h
    split at h
    · cases h
    · split at h
      · cases h
      · rename_i hlt
        exact ⟨base, hbase, not_not.1 hlt, (Option.some.inj (Except.ok.inj h)).symm⟩

omit [Digest] in
theorem Log.selectCompaction_of {l : Log} {base : Manifest.View} (hf : l.failed = false)
    (hb : l.base = some base) (hlt : base.commit.durable < l.durable) :
    ∃ sel, l.selectCompaction = .ok (some sel) := by
  unfold Log.selectCompaction
  rw [show l.healthy = .ok () from Log.healthy_eq_ok.2 hf, ok_bind, hb]
  simp only
  rw [if_neg (ne_of_lt hlt), if_neg (not_not.2 hlt)]
  exact ⟨_, rfl⟩

namespace Staging

variable {s : Staging} {sel : Selection}

/-- A selection is over the retained segments, and its position is one of theirs. -/
theorem Positions.select_over (hp : s.Positions) (hm : s.Marked)
    (h : s.log.selectCompaction = .ok (some sel)) : sel.Over s.retained := by
  obtain ⟨base, -, hlt, rfl⟩ := Log.selectCompaction_eq_ok h
  obtain ⟨hsub, hsegments, -⟩ := hp.retained_eq
  refine ⟨(Trace.numbers_pairwise hp.trace).sublist hsub,
    fun t ht => (hp.trace.accepts (hsub.subset ht)).2, hsegments.symm, hlt,
    fun t ht => hp.uncut_durable t (hsub.subset ht), ?_⟩
  intro c hc
  obtain ⟨hc, hfilter⟩ := Option.filter_eq_some_iff.1 hc
  obtain ⟨hseq, hany⟩ := of_decide_eq_true hfilter
  obtain ⟨t, ht, before, after, hr, hne, rfl⟩ := hm c hc
  refine ⟨⟨t, ?_, before, after, hr, hne, rfl⟩, hseq⟩
  obtain ⟨g, hg, hnum⟩ := any_eq_true.1 hany
  exact mem_filter.2 ⟨ht, any_eq_true.2 ⟨g, hg, decide_eq_true (of_decide_eq_true hnum).1⟩⟩

end Staging

end Cas.Append
