import Cas.Append.Operations

/-!
# A log and its history

`Staging` pairs a log with the trace of what it wrote and the trace it had at its last completed
sync. The invariant `Staging.Inv` ties the two: the write position is the end of the trace, the index
is the overwrite of exactly the published mutations above D, and what lies past the last sync is
data, followed by at most the one fence of the active cohort. Each operation of the log keeps it.
-/

namespace Cas.Append

open Bytes List
open Interval (Ordered replay)

/-! ## Publishing entries -/

/-- The entry covers a non-empty range of the image. -/
def Entry.In (imageBytes : Nat) (e : Entry) : Prop := e.1 < e.2.stop ∧ e.2.stop ≤ imageBytes

section Publish

variable {imageBytes : Nat} {es : List Entry}

theorem Entry.In.bounds (h : ∀ e ∈ es, Entry.In imageBytes e) :
    ∀ e ∈ es, 0 ≤ Interval.start e ∧ Interval.start e < Interval.stop e ∧
      Interval.stop e ≤ imageBytes :=
  fun e he => ⟨Nat.zero_le _, h e he⟩

/-- Published entries overwrite the index one after the other. -/
theorem Log.publishEntries_eq (h : ∀ e ∈ es, Entry.In imageBytes e) :
    ∀ {i i' : Index}, Ordered 0 imageBytes i.map → Log.publishEntries i es = some i' →
      i' = ⟨replay i.map es, i.limit⟩ := by
  induction es with
  | nil =>
    intro i i' _ hp
    exact (Option.some.inj hp).symm
  | cons e es ih =>
    intro i i' ho hp
    obtain ⟨h1, h2⟩ := h e (by simp)
    simp only [Log.publishEntries, foldlM_cons, Option.bind_eq_bind, Option.bind_eq_some_iff]
      at hp
    obtain ⟨j, hj, hp⟩ := hp
    rw [Index.replace_eq ho h1] at hj
    split at hj
    · have hj := (Option.some.inj hj).symm
      subst hj
      exact ih (fun x hx => h x (mem_cons_of_mem e hx))
        (ho.assign (Nat.zero_le _) h1 h2) hp
    · cases hj

/-- With room for two intervals per entry no assertion fails. -/
theorem Log.publishEntries_of_room (h : ∀ e ∈ es, Entry.In imageBytes e) :
    ∀ {i : Index}, Ordered 0 imageBytes i.map → i.map.length + 2 * es.length ≤ i.limit →
      Log.publishEntries i es = some ⟨replay i.map es, i.limit⟩ := by
  induction es with
  | nil => intro i _ _; rfl
  | cons e es ih =>
    intro i ho hroom
    obtain ⟨h1, h2⟩ := h e (by simp)
    have hlen := Interval.length_assign_le e i.map ho h1
    have hrest := ih (fun x hx => h x (mem_cons_of_mem e hx))
      (i := ⟨Interval.assign e i.map, i.limit⟩) (ho.assign (Nat.zero_le _) h1 h2)
      (by simp only [length_cons] at hroom ⊢; omega)
    simp only [Log.publishEntries, foldlM_cons, Option.bind_eq_bind] at hrest ⊢
    rw [Index.replace_eq ho h1, if_pos (by rw [length_cons] at hroom; omega)]
    exact hrest

end Publish

/-! ## Histories -/

/-- A log with the trace of its segments, what the first of them continues, and the trace at its last
completed sync. -/
structure Staging where
  log : Log
  origin : Tail
  closed : Trace
  active : SegmentTrace
  synced : Trace

namespace Trace

/-- The cut `d` falls between batches. -/
def Uncut (ts : Trace) (d : Nat) : Prop :=
  ∀ t ∈ ts, ∀ r ∈ t.records, r.envelope.fence = false → r.envelope.last ≤ d ∨ d < r.envelope.first

/-- The index entries of the mutations above `d` up to `p`, overwritten in their order. -/
def indexed (ts : Trace) (d p : Nat) : List Entry :=
  replay [] ((within d p ts.mutations).map Placed.entry)

/-- The payloads of the records above `d` verify. -/
def VerifiedAbove [Digest] (ts : Trace) (d : Nat) : Prop :=
  ∀ t ∈ ts, ∀ r ∈ t.records, d < r.envelope.last → r.Verified

end Trace

namespace Staging

def trace (s : Staging) : Trace := s.closed ++ [s.active]

/-- The record was in its segment at the last completed sync. -/
def Synced (s : Staging) (number : Nat) (r : Record) : Prop :=
  ∃ t ∈ s.synced, t.header.number = number ∧ r ∈ t.records

/-- The submission was returned by this log. -/
def Issued (s : Staging) (sub : Submission) : Prop :=
  ∃ t ∈ s.trace, t.header.number = sub.segment ∧ ⟨sub.offset, sub.batch⟩ ∈ t.records

/-- The first `k` records of the active segment are synced; data follows, then the fence of the
active cohort. -/
structure Frontier (s : Staging) (k : Nat) : Prop where
  le : k ≤ s.active.records.length
  synced : ∀ r ∈ s.active.records.take k, s.Synced s.active.header.number r
  durable : s.log.durable =
    (final Place.next (Place.start s.active.header) (s.active.records.take k)).sequence
  data : s.log.cohort = none → ∀ r ∈ s.active.records.drop k, r.envelope.fence = false
  fence : ∀ c, s.log.cohort = some c → ∃ data f, s.active.records.drop k = data ++ [f] ∧
    (∀ r ∈ data, r.envelope.fence = false) ∧ f.envelope.fence = true ∧
    c = ⟨f.envelope.segment, f.envelope.batch, f.envelope.last⟩

/-- The log stands where its trace ends, and its prefixes are in order. -/
structure Positions [Digest] (s : Staging) : Prop where
  trace : s.trace.Wf s.origin s.log.config
  current : s.log.current = s.active.segment
  highest : s.active.header.number ≤ s.log.highestSegment
  older : s.log.older.Sublist (s.closed.map SegmentTrace.segment)
  offset : s.log.offset = s.active.place.offset
  nextBatch : s.log.nextBatch = s.active.place.batch
  issued : s.log.issued = s.active.place.sequence
  published : ∃ done rest, s.active.records = done ++ rest ∧
    s.log.published = (final Place.next (Place.start s.active.header) done).sequence
  pending : s.log.pendingDescriptors = s.log.issued - s.log.published
  compacted : s.log.compacted ≤ s.log.durable
  durable : s.log.durable ≤ s.log.published
  closedSynced : ∀ t ∈ s.closed, ∀ r ∈ t.records, s.Synced t.header.number r
  frontier : ∃ k, s.Frontier k
  rotating : s.log.rotating = true →
    s.log.issued = s.log.published ∧ s.log.durable = s.log.published ∧ s.log.cohort = none

/-- The index is the overwrite of the published mutations above D, which the trace has in full. -/
structure Inv [Digest] (s : Staging) : Prop extends Positions s where
  origin : s.origin.sequence ≤ s.log.compacted
  verified : s.trace.VerifiedAbove s.log.compacted
  index : s.log.index.map = s.trace.indexed s.log.compacted s.log.published
  limit : s.log.index.limit = s.log.limits.intervals
  room : s.log.index.map.length + 2 * s.log.pendingDescriptors ≤ s.log.limits.intervals
  uncut : s.trace.Uncut s.log.compacted

end Staging

/-! ## Facts about traces -/

namespace Trace

variable [Digest] {origin : Tail} {config : Config}

variable {ts : Trace} {t : SegmentTrace}

theorem Wf.split (h : Wf origin config (ts ++ [t])) :
    Wf origin config ts ∧ Tail.Accepts config (final Tail.next origin ts) t :=
  Chain.concat.1 h

theorem Wf.concat (h : Wf origin config ts)
    (ht : Tail.Accepts config (final Tail.next origin ts) t) : Wf origin config (ts ++ [t]) :=
  Chain.concat.2 ⟨h, ht⟩

theorem Wf.accepts (h : Wf origin config ts) (ht : t ∈ ts) :
    config.matchesHeader t.header = true ∧ t.Wf := by
  obtain ⟨_, _, -, -, ha, -⟩ := Chain.exists_of_mem h ht
  exact ⟨ha.config, ha.wf⟩

omit [Digest] in
theorem eq_of_sorted (hp : ts.Pairwise fun a b => a.header.number < b.header.number)
    {u : SegmentTrace} (ht : t ∈ ts) (hu : u ∈ ts) (hn : t.header.number = u.header.number) :
    t = u := by
  obtain ⟨l₁, l₂, rfl⟩ := append_of_mem ht
  obtain ⟨-, hp2, hp3⟩ := pairwise_append.1 hp
  rcases mem_append.1 hu with hu | hu
  · have := hp3 u hu t (by simp)
    omega
  · rcases mem_cons.1 hu with rfl | hu
    · rfl
    · have := (pairwise_cons.1 hp2).1 u hu
      omega

theorem Wf.eq_of_number (h : Wf origin config ts) {u : SegmentTrace} (ht : t ∈ ts)
    (hu : u ∈ ts) (hn : t.header.number = u.header.number) : t = u :=
  eq_of_sorted (numbers_pairwise h) ht hu hn

theorem Wf.push (h : Wf origin config (ts ++ [t])) {r : Record}
    (ha : t.place.Accepts t.header r) : Wf origin config (ts ++ [t.push r]) := by
  obtain ⟨h1, h2⟩ := h.split
  exact h1.concat ⟨h2.number, h2.sequence, h2.config, h2.wf.push ha⟩

theorem entry_in (h : Wf origin config ts) :
    ∀ m ∈ ts.mutations, m.entry.In config.imageBytes := by
  intro m hm
  obtain ⟨t, ht, hm⟩ := mem_flatMap.1 hm
  obtain ⟨r, hr, hm⟩ := mem_flatMap.1 hm
  obtain ⟨d, hd, rfl⟩ := mem_map.1 hm
  obtain ⟨hc, hw⟩ := h.accepts ht
  obtain ⟨_, _, -, -, ha, -⟩ := hw.chain.exists_of_mem hr
  obtain ⟨h1, -, -, -, h2⟩ := validRange_iff.1 (ha.inRecord d hd).range
  rw [Config.imageBytes_of_matches hc]
  exact ⟨Nat.lt_add_of_pos_right (Nat.pos_of_ne_zero h1), h2⟩

theorem indexed_ordered (h : Wf origin config ts) (d p : Nat) :
    Ordered 0 config.imageBytes (ts.indexed d p) := by
  refine Interval.Ordered.replay (Entry.In.bounds ?_) (Interval.ordered_nil _ _)
  intro e he
  obtain ⟨m, hm, rfl⟩ := mem_map.1 he
  exact entry_in h m (mem_within.1 hm).1

variable {d p : Nat}

theorem indexed_above (h : Wf origin config ts) {d' : Nat} (hd : d ≤ d')
    (hp : d' ≤ p) : (ts.indexed d p).filter (fun e => e.2.sequence > d') = ts.indexed d' p := by
  have hseq : ∀ m : Placed, m.entry.2.sequence = m.sequence := fun _ => rfl
  rw [indexed, within_split hd hp (sequences_pairwise h), map_append, Interval.replay_append,
    Interval.filter_replay (q := fun e : Entry => e.2.sequence > d') (fun _ _ => rfl)
      (fun _ _ => rfl)]
  · rw [indexed]
    congr 1
    rw [filter_eq_nil_iff]
    apply Interval.forall_replay
    · exact fun a p ha _ _ => ha
    · exact fun a p ha _ _ => ha
    · intro e he
      obtain ⟨m, hm, rfl⟩ := mem_map.1 he
      have := (mem_within.1 hm).2.2
      simp only [hseq, gt_iff_lt, decide_eq_true_eq]
      omega
    · simp
  · intro e he
    obtain ⟨m, hm, rfl⟩ := mem_map.1 he
    simpa [hseq] using (mem_within.1 hm).2.1

theorem length_indexed_above (h : Wf origin config ts) {e : Nat} (hd : d ≤ e)
    (hp : e ≤ p) : (ts.indexed e p).length ≤ (ts.indexed d p).length := by
  rw [← indexed_above h hd hp]
  exact length_filter_le _ _

/-- A range of sequences has at most as many mutations as it is long. -/
theorem length_within_le (h : Wf origin config ts) (q p : Nat) :
    (within q p ts.mutations).length ≤ p - q := by
  have hnodup : ((within q p ts.mutations).map Placed.sequence).Nodup :=
    pairwise_map.2 (((sequences_pairwise h).filter _).imp fun hlt => ne_of_lt hlt)
  have hsub : ((within q p ts.mutations).map Placed.sequence).toFinset ⊆ Finset.Ioc q p := by
    intro x hx
    obtain ⟨m, hm, rfl⟩ := mem_map.1 (mem_toFinset.1 hx)
    exact Finset.mem_Ioc.2 (mem_within.1 hm).2
  have hcard := Finset.card_le_card hsub
  rwa [toFinset_card_of_nodup hnodup, length_map, Nat.card_Ioc] at hcard

theorem length_indexed_le (h : Wf origin config ts) {q : Nat} (hd : d ≤ q)
    (hp : q ≤ p) : (ts.indexed d p).length ≤ (ts.indexed d q).length + 2 * (p - q) := by
  have hin : ∀ e ∈ (within q p ts.mutations).map Placed.entry, Entry.In config.imageBytes e := by
    intro e he
    obtain ⟨m, hm, rfl⟩ := mem_map.1 he
    exact entry_in h m (mem_within.1 hm).1
  have hlen := Interval.length_replay_le (Entry.In.bounds hin) (indexed_ordered h d q)
  have hcount := length_within_le h q p
  have hsplit : ts.indexed d p = replay (ts.indexed d q) ((within q p ts.mutations).map Placed.entry) := by
    rw [indexed, within_split hd hp (sequences_pairwise h), map_append, Interval.replay_append]
    rfl
  rw [length_map] at hlen
  rw [hsplit]
  omega

end Trace

theorem Place.Accepts.lt_of_data [Digest] {h : SegmentHeader} {p : Place} {r : Record}
    (ha : p.Accepts h r) (hf : r.envelope.fence = false) : p.sequence < r.envelope.last := by
  obtain ⟨-, -, -, -, hda⟩ := Header.follows_iff.1 ha.follows
  have h1 : r.envelope.first = p.sequence + 1 := (hda hf).1
  have h2 : r.envelope.first + (r.envelope.descriptors - 1) = r.envelope.last :=
    (ha.valid.data hf).2.2.1
  omega

namespace Staging

/-- The log placed a record. -/
def pushed (s : Staging) (sub : Submission) (l : Log) : Staging :=
  { s with log := l, active := s.active.push ⟨sub.offset, sub.batch⟩ }

/-- The log completed a sync. -/
def syncedNow (s : Staging) (l : Log) : Staging := { s with log := l, synced := s.trace }

/-- The log went on to a new segment. -/
def rotated (s : Staging) (h : SegmentHeader) (l : Log) : Staging :=
  { s with log := l, closed := s.trace, active := ⟨h, []⟩ }

section Basics

variable [Digest] {s : Staging}

theorem Positions.active_accepts (hi : s.Positions) :
    s.log.config.matchesHeader s.active.header = true ∧ s.active.Wf :=
  hi.trace.accepts (by simp [Staging.trace])

theorem Positions.config_eq (hi : s.Positions) :
    s.log.config.imageBytes = s.active.header.imageBytes ∧
      s.log.config.segmentBytes = s.active.header.capacity := by
  have h := hi.active_accepts.1
  simp only [Config.matchesHeader, decide_eq_true_eq] at h
  exact h.2.2

theorem Positions.published_le (hi : s.Positions) : s.log.published ≤ s.log.issued := by
  obtain ⟨done, rest, hr, hp⟩ := hi.published
  have hc := hi.active_accepts.2.chain
  rw [hr, Chain.append] at hc
  have := Place.final_sequence_le hc.2
  rw [hp, hi.issued, SegmentTrace.place, hr, final_append]
  exact this

theorem Inv.ordered (hi : s.Inv) : Ordered 0 s.log.config.imageBytes s.log.index.map := by
  rw [hi.index]
  exact Trace.indexed_ordered hi.trace _ _

theorem Positions.final_sequence (hi : s.Positions) :
    (final Tail.next s.origin s.trace).sequence = s.log.issued := by
  rw [Staging.trace, final_concat, hi.issued]
  rfl

end Basics

/-! ## Placing a record -/

section Placing

variable [Digest] {s : Staging}

variable {batch : Batch} {ds : List Descriptor}

theorem accepts_of_reads {h : SegmentHeader} {p : Place}
    (hr : batch.Reads h.imageBytes ds)
    (hf : (⟨batch.envelope, batch.bytes.slice 0 BLOCK_SIZE⟩ : Header).follows h p.batch p.sequence
      p.offset h.capacity = true) : p.Accepts h ⟨p.offset, batch⟩ where
  offset := rfl
  length := hr.length
  decodes := hr.header
  follows := hf

/-- The log after it placed a batch, with the fields that depend on the kind of the batch. -/
def withRecord (s : Staging) (batch : Batch) (pending : Nat) (cohort : Option Cohort) : Staging :=
  { s with
    log := { s.log.placed batch with
      issued := batch.envelope.last
      pendingDescriptors := pending
      cohort := cohort }
    active := s.active.push ⟨s.log.offset, batch⟩ }

theorem mem_withRecord {pending : Nat} {cohort : Option Cohort} {t : SegmentTrace}
    (ht : t ∈ (s.withRecord batch pending cohort).trace) {r : Record} (hr : r ∈ t.records) :
    r = ⟨s.log.offset, batch⟩ ∨ ∃ u ∈ s.trace, r ∈ u.records := by
  rcases mem_append.1 ht with ht | ht
  · exact Or.inr ⟨t, mem_append_left _ ht, hr⟩
  · rw [mem_singleton.1 ht] at hr
    rcases mem_append.1 hr with hr | hr
    · exact Or.inr ⟨s.active, by simp [Staging.trace], hr⟩
    · exact Or.inl (mem_singleton.1 hr)

theorem Positions.place (hi : s.Positions) (pending : Nat) (cohort : Option Cohort)
    (ha : s.active.place.Accepts s.active.header ⟨s.log.offset, batch⟩)
    (hp : pending = batch.envelope.last - s.log.published)
    (hrot : s.log.rotating = false) (hnone : s.log.cohort = none)
    (hcohort : batch.envelope.fence = false ∧ cohort = none ∨ batch.envelope.fence = true ∧
      cohort = some ⟨batch.envelope.segment, batch.envelope.batch, batch.envelope.last⟩) :
    (s.withRecord batch pending cohort).Positions := by
  have hlen : batch.bytes.length = Record.length ⟨s.log.offset, batch⟩ := ha.length
  obtain ⟨k, hk⟩ := hi.frontier
  refine ⟨hi.trace.push ha, ?_, hi.highest, hi.older, ?_, ?_, ?_, ?_, hp, hi.compacted, hi.durable,
    hi.closedSynced, ⟨k, ?_⟩, ?_⟩
  · show ({ s.log.current with stop := s.log.offset + batch.bytes.length } : Segment) = _
    rw [hi.current, hi.offset, hlen, SegmentTrace.segment, SegmentTrace.segment, withRecord,
      SegmentTrace.push_place, hi.offset]
    rfl
  · show s.log.offset + batch.bytes.length = _
    rw [withRecord, SegmentTrace.push_place, Place.next, hlen, hi.offset]
  · show s.log.nextBatch + 1 = _
    rw [withRecord, SegmentTrace.push_place, Place.next, hi.nextBatch]
  · rw [withRecord, SegmentTrace.push_place]
    rfl
  · obtain ⟨done, rest, hr, hpd⟩ := hi.published
    exact ⟨done, rest ++ [⟨s.log.offset, batch⟩], by simp [withRecord, hr], hpd⟩
  · have htake : (s.active.push ⟨s.log.offset, batch⟩).records.take k = s.active.records.take k := by
      rw [SegmentTrace.push_records, take_append_of_le_length hk.le]
    have hdrop : (s.active.push ⟨s.log.offset, batch⟩).records.drop k =
        s.active.records.drop k ++ [⟨s.log.offset, batch⟩] := by
      rw [SegmentTrace.push_records, drop_append_of_le_length hk.le]
    refine ⟨?_, ?_, ?_, ?_, ?_⟩
    · have := hk.le
      simp only [withRecord, SegmentTrace.push_records, length_append]
      omega
    · intro r hr
      rw [withRecord, htake] at hr
      exact hk.synced r hr
    · rw [withRecord, htake]
      exact hk.durable
    · intro hc r hr
      rw [withRecord, hdrop] at hr
      rcases mem_append.1 hr with hr | hr
      · exact hk.data hnone r hr
      · rw [mem_singleton.1 hr]
        rcases hcohort with ⟨hf, -⟩ | ⟨-, hsome⟩
        · exact hf
        · cases hsome.symm.trans hc
    · intro c hc
      rcases hcohort with ⟨-, hn⟩ | ⟨hf, hsome⟩
      · cases hn.symm.trans hc
      · exact ⟨_, _, hdrop, hk.data hnone, hf, (Option.some.inj (hsome.symm.trans hc)).symm⟩
  · intro h
    cases hrot.symm.trans h

theorem Inv.place (hi : s.Inv) (pending : Nat) (cohort : Option Cohort)
    (hpos : (s.withRecord batch pending cohort).Positions)
    (ha : s.active.place.Accepts s.active.header ⟨s.log.offset, batch⟩)
    (hv : Record.Verified ⟨s.log.offset, batch⟩)
    (hroom : s.log.index.map.length + 2 * pending ≤ s.log.limits.intervals) :
    (s.withRecord batch pending cohort).Inv := by
  obtain ⟨hle, -, hseq⟩ := ha.sequences
  have hissued := hi.issued
  have hpub := hi.published_le
  have hcomp := hi.compacted
  have hdur := hi.durable
  have hnew : ∀ m ∈ Record.mutations s.active.header.number ⟨s.log.offset, batch⟩,
      s.log.issued < m.sequence := by
    intro m hm
    have hmem := mem_map_of_mem (f := Placed.sequence) hm
    rw [Record.map_sequence_mutations, hseq, mem_range'_1] at hmem
    omega
  have hmut : (s.withRecord batch pending cohort).trace.mutations =
      s.trace.mutations ++ Record.mutations s.active.header.number ⟨s.log.offset, batch⟩ := by
    rw [Staging.trace, Staging.trace, withRecord, Trace.mutations_concat,
      SegmentTrace.push_mutations, Trace.mutations_concat, append_assoc]
  refine ⟨hpos, hi.origin, ?_, ?_, hi.limit, hroom, ?_⟩
  · intro t ht r hr hlt
    rcases mem_withRecord ht hr with rfl | ⟨u, hu, hr⟩
    · exact hv
    · exact hi.verified u hu r hr hlt
  · show s.log.index.map = Trace.indexed _ s.log.compacted s.log.published
    have hnil : Trace.within s.log.compacted s.log.published
        (Record.mutations s.active.header.number ⟨s.log.offset, batch⟩) = [] := by
      apply Trace.within_eq_nil
      intro m hm
      right
      have := hnew m hm
      omega
    rw [hi.index, Trace.indexed, Trace.indexed, hmut, Trace.within_append, hnil, append_nil]
  · -- the new batch starts above everything issued
    intro t ht r hr hf
    show r.envelope.last ≤ s.log.compacted ∨ s.log.compacted < r.envelope.first
    rcases mem_withRecord ht hr with rfl | ⟨u, hu, hr⟩
    · have h1 : batch.envelope.first = s.active.place.sequence + 1 :=
        ((Header.follows_iff.1 ha.follows).2.2.2.2 hf).1
      right
      show s.log.compacted < batch.envelope.first
      omega
    · exact hi.uncut u hu r hr hf

variable {b : Builder} {sub : Submission} {l : Log}

/-- What `prepare_append` returns: the packed descriptors numbered from the issued prefix on. -/
theorem Positions.append_record (hi : s.Positions)
    (hb : b.Wf ds) (h : s.log.prepareAppend b = .ok (sub, l)) :
    s.pushed sub l =
        s.withRecord sub.batch (s.log.pendingDescriptors + b.descriptors) s.log.cohort ∧
      s.log.CanAppend b ∧ sub.segment = s.active.header.number ∧ sub.offset = s.log.offset ∧
      s.active.place.Accepts s.active.header ⟨s.log.offset, sub.batch⟩ ∧
      Record.Verified ⟨s.log.offset, sub.batch⟩ ∧
      Record.descriptors ⟨s.log.offset, sub.batch⟩ = stamped (s.log.issued + 1) ds ∧
      sub.batch.envelope.fence = false ∧ b.descriptors = ds.length ∧
      sub.batch.envelope.last = s.log.issued + ds.length := by
  obtain ⟨hc, batch, hseal, rfl, rfl⟩ := Log.prepareAppend_eq_ok.1 h
  have hw := hi.active_accepts.2
  obtain ⟨himage, hbytes⟩ := hi.config_eq
  have hnum : s.log.current.header.number = s.active.header.number := by rw [hi.current]; rfl
  have hnb := hc.batch
  obtain ⟨hreads, henv, hne, -, hlast⟩ := hb.sealBatch
    (by rw [hnum]; exact hw.fits.number) (by omega) hseal
  have hpos : 0 < ds.length := length_pos_iff.2 hne
  have hcount := hb.count
  have hcap := hw.fits.capacity
  have hroom := hc.room
  have hissued := hc.issued
  rw [hc.image, himage] at hreads
  refine ⟨rfl, hc, hnum, rfl, ?_, hreads.payload, hreads.descriptors, by rw [henv], hcount, ?_⟩
  · rw [hi.offset]
    refine accepts_of_reads hreads ?_
    rw [Header.follows_iff, henv, Header.length, ← hi.nextBatch, ← hi.issued, ← hi.offset]
    simp only [Bool.false_eq_true, false_implies, true_implies, true_and]
    exact ⟨hnum, ⟨by omega, by omega, by omega, by omega, by omega⟩, by omega⟩
  · rw [henv]
    simp only
    omega

theorem Positions.append (hi : s.Positions) (hb : b.Wf ds)
    (h : s.log.prepareAppend b = .ok (sub, l)) :
    (s.pushed sub l).Positions := by
  obtain ⟨heq, hc, -, -, ha, -, -, hf, hcount, hlast⟩ := hi.append_record hb h
  have hpend := hi.pending
  have hpub := hi.published_le
  rw [heq]
  exact hi.place _ _ ha (by omega) hc.rotating hc.cohort (Or.inl ⟨hf, hc.cohort⟩)

/-- `prepare_append` keeps the invariant. -/
theorem Inv.append (hi : s.Inv) (hb : b.Wf ds)
    (h : s.log.prepareAppend b = .ok (sub, l)) :
    (s.pushed sub l).Inv := by
  have hpos := hi.toPositions.append hb h
  obtain ⟨heq, hc, -, -, ha, hv, -⟩ := hi.append_record hb h
  have hcapa := hc.capacity
  have hroom := hi.room
  rw [heq] at hpos ⊢
  exact hi.place _ _ hpos ha hv (by rw [Log.appendCapacity] at hcapa; omega)

/-- Every number the log has assigned is a `u64` value. -/
theorem Positions.issued_lt (hi : s.Positions) : s.log.issued < U64 := by
  -- the issued number is the preceding sequence or the last mutation of a record
  have hw := hi.active_accepts.2
  rw [hi.issued, SegmentTrace.place]
  rcases eq_nil_or_concat s.active.records with hn | ⟨rs, r, hr⟩
  · rw [hn]
    exact hw.fits.precedingSequence
  · have hch := hw.chain
    rw [hr, concat_eq_append, Chain.concat] at hch
    rw [hr, concat_eq_append, final_concat]
    have hread := (Header.decode_eq_ok_iff.1 hch.2.decodes).1
    have henv : r.envelope = Header.readEnvelope r.header.bytes := congrArg Header.envelope hread
    show r.envelope.last < U64
    rw [henv]
    exact u64At_lt _ _

/-- What `prepare_fence` returns: a fence at the issued prefix. -/
theorem Positions.fence_record (hi : s.Positions)
    (h : s.log.prepareFence = .ok (sub, l)) :
    s.pushed sub l = s.withRecord sub.batch s.log.pendingDescriptors (some sub.cohort) ∧
      s.log.CanFence ∧ sub.segment = s.active.header.number ∧ sub.offset = s.log.offset ∧
      s.active.place.Accepts s.active.header ⟨s.log.offset, sub.batch⟩ ∧
      Record.Verified ⟨s.log.offset, sub.batch⟩ ∧
      sub.batch.envelope = ⟨s.active.header.number, s.log.nextBatch, 0, 0, s.log.issued,
        s.log.issued, true⟩ := by
  obtain ⟨hc, batch, hfence, rfl, rfl⟩ := Log.prepareFence_eq_ok.1 h
  have hw := hi.active_accepts.2
  obtain ⟨himage, hbytes⟩ := hi.config_eq
  have hnum : s.log.current.header.number = s.active.header.number := by rw [hi.current]; rfl
  have hnb := hc.batch
  have hcap := hw.fits.capacity
  have hroom := hc.room
  obtain ⟨hreads, henv⟩ : batch.Reads s.active.header.imageBytes [] ∧ _ :=
    Batch.reads_fence (by rw [hnum]; exact hw.fits.number) (by omega) hi.issued_lt hfence
  refine ⟨?_, hc, hnum, rfl, ?_, hreads.payload, by rw [henv, hnum]⟩
  · have hlast : batch.envelope.last = s.log.issued := by rw [henv]
    rw [pushed, withRecord, hlast]
    rfl
  · rw [hi.offset]
    refine accepts_of_reads hreads ?_
    rw [Header.follows_iff, henv, Header.length, ← hi.nextBatch, ← hi.issued, ← hi.offset]
    simp only [Bool.true_eq_false, false_implies, true_implies, and_true]
    exact ⟨hnum, trivial, by omega, by omega, by omega⟩

theorem Positions.fence (hi : s.Positions)
    (h : s.log.prepareFence = .ok (sub, l)) : (s.pushed sub l).Positions := by
  obtain ⟨heq, hc, -, -, ha, -, henv⟩ := hi.fence_record h
  rw [heq]
  refine hi.place _ _ ha ?_ hc.rotating hc.cohort (Or.inr ⟨by rw [henv], rfl⟩)
  rw [henv]
  exact hi.pending

/-- `prepare_fence` keeps the invariant. -/
theorem Inv.fence (hi : s.Inv)
    (h : s.log.prepareFence = .ok (sub, l)) : (s.pushed sub l).Inv := by
  have hpos := hi.toPositions.fence h
  obtain ⟨heq, -, -, -, ha, hv, -⟩ := hi.fence_record h
  rw [heq] at hpos ⊢
  exact hi.place _ _ hpos ha hv hi.room

end Placing

/-! ## Publication -/

section Publication

variable [Digest] {s : Staging}

/-- The mutations of a record of the active segment are those between the places around it. -/
theorem Positions.within_record (hi : s.Positions) {l₁ l₂ : List Record} {r : Record}
    (hr : s.active.records = l₁ ++ r :: l₂) :
    Trace.within (final Place.next (Place.start s.active.header) l₁).sequence r.envelope.last
      s.trace.mutations = r.mutations s.active.header.number := by
  have hc := hi.active_accepts.2.chain
  rw [hr, Chain.append] at hc
  obtain ⟨h1, h2, h3⟩ := hc
  obtain ⟨hclosed, hacc⟩ := hi.trace.split
  have hle := Place.final_sequence_le h1
  have hmut : s.trace.mutations = (s.closed.mutations ++
      l₁.flatMap fun r => r.mutations s.active.header.number) ++
        (r.mutations s.active.header.number ++
          l₂.flatMap fun r => r.mutations s.active.header.number) := by
    rw [Staging.trace, Trace.mutations_concat, SegmentTrace.mutations, hr, flatMap_append,
      flatMap_cons, append_assoc]
  have hbefore : ∀ m ∈ s.closed.mutations ++
      l₁.flatMap fun r => r.mutations s.active.header.number,
      m.sequence ≤ (final Place.next (Place.start s.active.header) l₁).sequence := by
    intro m hm
    rcases mem_append.1 hm with hm | hm
    · have := (Trace.sequence_bounds hclosed m hm).2
      rw [← hacc.sequence] at this
      exact this.trans hle
    · exact (Place.sequence_bounds h1 m hm).2
  have hrecord : ∀ m ∈ r.mutations s.active.header.number,
      (final Place.next (Place.start s.active.header) l₁).sequence < m.sequence ∧
        m.sequence ≤ r.envelope.last := by
    intro m hm
    have hmem := mem_map_of_mem (f := Placed.sequence) hm
    rw [Record.map_sequence_mutations, h2.sequences.2.2, mem_range'_1] at hmem
    omega
  have hafter : ∀ m ∈ l₂.flatMap fun r => r.mutations s.active.header.number,
      r.envelope.last < m.sequence := fun m hm => (Place.sequence_bounds h3 m hm).1
  rw [hmut, Trace.within_append, Trace.within_eq_nil fun m hm => Or.inl (hbefore m hm),
    nil_append, Trace.within_append, Trace.within_eq_self hrecord,
    Trace.within_eq_nil fun m hm => Or.inr (hafter m hm), append_nil]

variable {sub : Submission}

/-- An issued submission of the current segment is a record of the active one. -/
theorem Positions.record_of_issued (hi : s.Positions) (hs : s.Issued sub)
    (hn : sub.segment = s.log.current.header.number) :
    ⟨sub.offset, sub.batch⟩ ∈ s.active.records := by
  obtain ⟨t, ht, hnum, hr⟩ := hs
  have hact : s.active ∈ s.trace := by simp [Staging.trace]
  have : t = s.active := by
    refine hi.trace.eq_of_number ht hact ?_
    rw [hnum, hn, hi.current]
    rfl
  rwa [this] at hr

/-- The submission that continues the published prefix is a record of the active segment. -/
theorem Positions.next_record (hi : s.Positions) (hs : s.Issued sub)
    (hn : sub.segment = s.log.current.header.number) {h : Header}
    (hd : Header.decode (sub.batch.bytes.slice 0 BLOCK_SIZE) s.log.config.imageBytes = .ok h)
    (hf : h.envelope.fence = false) (hfirst : s.log.published + 1 = h.envelope.first) :
    h = Record.header ⟨sub.offset, sub.batch⟩ ∧ sub.segment = s.active.header.number ∧
      ∃ l₁ l₂, s.active.records = l₁ ++ ⟨sub.offset, sub.batch⟩ :: l₂ ∧
      s.log.published = (final Place.next (Place.start s.active.header) l₁).sequence ∧
      s.log.published < sub.batch.envelope.last ∧ sub.batch.envelope.last ≤ s.log.issued ∧
      sub.batch.envelope.descriptors = sub.batch.envelope.last - s.log.published := by
  obtain ⟨l₁, l₂, hr, h1, h2, h3⟩ :=
    hi.active_accepts.2.chain.exists_of_mem (hi.record_of_issued hs hn)
  have hdec := h2.decodes
  rw [hi.config_eq.1] at hd
  rw [hd] at hdec
  have hdec := Except.ok.inj hdec
  subst hdec
  have hfirst : s.log.published + 1 = sub.batch.envelope.first := hfirst
  have hfirst' : sub.batch.envelope.first =
      (final Place.next (Place.start s.active.header) l₁).sequence + 1 :=
    ((Header.follows_iff.1 h2.follows).2.2.2.2 hf).1
  have hpub : s.log.published = (final Place.next (Place.start s.active.header) l₁).sequence := by
    omega
  have hlt : (final Place.next (Place.start s.active.header) l₁).sequence <
      sub.batch.envelope.last := h2.lt_of_data hf
  have hcount : sub.batch.envelope.descriptors = sub.batch.envelope.last - s.log.published := by
    have hl := h2.sequences.2.1
    rw [hpub]
    simpa [Record.descriptors, Header.descriptors, Record.header, Record.envelope] using hl
  have hnum : sub.segment = s.active.header.number := by rw [hn, hi.current]; rfl
  refine ⟨rfl, hnum, l₁, l₂, hr, hpub, by omega, ?_, hcount⟩
  rw [hi.issued, SegmentTrace.place, hr, final_append, final_cons]
  exact Place.final_sequence_le h3

variable {l : Log}

/-- What a successful `publish_append` publishes: the next record of the active segment. -/
theorem Positions.publish_record (hi : s.Positions) (hs : s.Issued sub)
    (h : s.log.publishAppend sub = .ok l) : ∃ l₁ l₂ index,
      s.active.records = l₁ ++ ⟨sub.offset, sub.batch⟩ :: l₂ ∧
      s.log.published = (final Place.next (Place.start s.active.header) l₁).sequence ∧
      s.log.published < sub.batch.envelope.last ∧ sub.batch.envelope.last ≤ s.log.issued ∧
      sub.batch.envelope.fence = false ∧ s.log.published + 1 = sub.batch.envelope.first ∧
      sub.batch.envelope.descriptors = sub.batch.envelope.last - s.log.published ∧
      Log.publishEntries s.log.index ((Record.mutations s.active.header.number
        ⟨sub.offset, sub.batch⟩).map Placed.entry) = some index ∧
      l = { s.log with
        index
        published := sub.batch.envelope.last
        pendingDescriptors := s.log.pendingDescriptors - sub.batch.envelope.descriptors } := by
  obtain ⟨-, hn, h, hd, hf, hfirst, -, index, hindex, rfl⟩ := Log.publishAppend_eq_ok.1 h
  obtain ⟨rfl, hnum, l₁, l₂, hr, hpub, hlt, hle, hcount⟩ := hi.next_record hs hn hd hf hfirst
  refine ⟨l₁, l₂, index, hr, hpub, hlt, hle, hf, hfirst, hcount, ?_, rfl⟩
  rw [Record.mutations, map_map, ← hnum]
  exact hindex

/-- The mutations of an issued record cover ranges of the image. -/
theorem Positions.entries_in (hi : s.Positions) {l₁ l₂ : List Record} {r : Record}
    (hr : s.active.records = l₁ ++ r :: l₂) :
    ∀ e ∈ (r.mutations s.active.header.number).map Placed.entry,
      Entry.In s.log.config.imageBytes e := by
  intro e he
  obtain ⟨m, hm, rfl⟩ := mem_map.1 he
  rw [← hi.within_record hr] at hm
  exact Trace.entry_in hi.trace m (Trace.mem_within.1 hm).1

theorem Positions.publish (hi : s.Positions) (hs : s.Issued sub)
    (h : s.log.publishAppend sub = .ok l) : Positions { s with log := l } := by
  obtain ⟨l₁, l₂, index, hr, hpub, hlt, hle, -, -, hcount, -, rfl⟩ := hi.publish_record hs h
  have hpend := hi.pending
  obtain ⟨k, hk⟩ := hi.frontier
  refine ⟨hi.trace, hi.current, hi.highest, hi.older, hi.offset, hi.nextBatch, hi.issued, ?_, ?_,
    hi.compacted, hi.durable.trans (le_of_lt hlt), hi.closedSynced,
    ⟨k, hk.le, hk.synced, hk.durable, hk.data, hk.fence⟩, ?_⟩
  · exact ⟨l₁ ++ [⟨sub.offset, sub.batch⟩], l₂, by simp [hr], by rw [final_concat]; rfl⟩
  · show s.log.pendingDescriptors - sub.batch.envelope.descriptors =
      s.log.issued - sub.batch.envelope.last
    omega
  · intro hrot
    have := hi.rotating hrot
    omega

/-- `publish_append` adds the mutations of the record to the index. -/
theorem Inv.publish (hi : s.Inv) (hs : s.Issued sub)
    (h : s.log.publishAppend sub = .ok l) : Inv { s with log := l } := by
  have hpos := hi.toPositions.publish hs h
  obtain ⟨l₁, l₂, index, hr, hpub, hlt, hle, -, -, hcount, hindex, rfl⟩ := hi.publish_record hs h
  have hwithin := hi.within_record hr
  rw [← hpub] at hwithin
  have hsplit : Trace.within s.log.compacted sub.batch.envelope.last s.trace.mutations =
      Trace.within s.log.compacted s.log.published s.trace.mutations ++
        Record.mutations s.active.header.number ⟨sub.offset, sub.batch⟩ := by
    rw [Trace.within_split (hi.compacted.trans hi.durable) (le_of_lt hlt)
      (Trace.sequences_pairwise hi.trace)]
    exact congrArg _ hwithin
  have hin := hi.entries_in hr
  have hidx := Log.publishEntries_eq hin hi.ordered hindex
  refine ⟨hpos, hi.origin, hi.verified, ?_, ?_, ?_, hi.uncut⟩
  · show index.map = Trace.indexed s.trace s.log.compacted sub.batch.envelope.last
    rw [hidx, hi.index, Trace.indexed, Trace.indexed, hsplit, map_append,
      Interval.replay_append]
  · rw [hidx]
    exact hi.limit
  · show index.map.length + 2 * (s.log.pendingDescriptors - sub.batch.envelope.descriptors) ≤ _
    have hlen := Interval.length_replay_le (Entry.In.bounds hin) hi.ordered
    have hds : (Record.mutations s.active.header.number ⟨sub.offset, sub.batch⟩).length =
        sub.batch.envelope.descriptors := by
      simp [Record.mutations, Record.descriptors, Header.descriptors, Record.header,
        Record.envelope]
    rw [length_map, hds] at hlen
    have hroom := hi.room
    have hpend := hi.pending
    rw [hidx]
    show (replay s.log.index.map _).length + _ ≤ s.log.limits.intervals
    omega

end Publication

/-! ## Syncs, rotations and background receipts -/

section Control

variable [Digest] {s : Staging}

variable {l : Log}

/-- `complete_sync` makes everything written durable. -/
theorem Positions.sync (hi : s.Positions) {sub : Submission}
    (h : s.log.completeSync sub = .ok l) :
    (s.syncedNow l).Positions ∧ l.durable = s.log.issued := by
  obtain ⟨-, -, -, hcohort, hpend, hpub, rfl⟩ := Log.completeSync_eq_ok.1 h
  have hle := hi.published_le
  have hissued : sub.batch.envelope.last = s.log.issued := by
    have := hi.pending
    omega
  have hdur := hi.durable
  refine ⟨⟨hi.trace, hi.current, hi.highest, hi.older, hi.offset, hi.nextBatch, hi.issued,
    hi.published, hi.pending, ?_, ?_, ?_,
    ⟨s.active.records.length, le_refl _, ?_, ?_, ?_, ?_⟩, ?_⟩, hissued⟩
  · show s.log.compacted ≤ sub.batch.envelope.last
    have := hi.compacted
    omega
  · exact hpub.ge
  · exact fun t ht r hr => ⟨t, mem_append_left _ ht, rfl, hr⟩
  · intro r hr
    exact ⟨s.active, by simp [syncedNow, Staging.trace], rfl, mem_of_mem_take hr⟩
  · show sub.batch.envelope.last = _
    simp only [syncedNow]
    rw [take_length, hissued, hi.issued]
    rfl
  · intro _ r hr
    simp [syncedNow] at hr
  · intro c hc
    cases hc
  · intro hrot
    obtain ⟨-, -, hn⟩ := hi.rotating hrot
    rw [hn] at hcohort
    cases hcohort

theorem Inv.sync (hi : s.Inv) {sub : Submission} (h : s.log.completeSync sub = .ok l) :
    (s.syncedNow l).Inv := by
  have hpos := (hi.toPositions.sync h).1
  obtain ⟨-, -, -, -, -, -, rfl⟩ := Log.completeSync_eq_ok.1 h
  exact ⟨hpos, hi.origin, hi.verified, hi.index, hi.limit, hi.room, hi.uncut⟩

/-- With nothing in flight, everything in the active segment is synced. -/
theorem Positions.all_synced (hi : s.Positions) (hd : s.log.durable = s.log.issued)
    (hc : s.log.cohort = none) : ∀ r ∈ s.active.records, s.Synced s.active.header.number r := by
  obtain ⟨k, hk⟩ := hi.frontier
  have hnil : s.active.records.drop k = [] := by
    cases hdrop : s.active.records.drop k with
    | nil => rfl
    | cons r rs =>
      -- data past the sync would have a sequence above the durable one
      have hchain := hi.active_accepts.2.chain
      have hparts : s.active.records = s.active.records.take k ++ r :: rs := by
        rw [← hdrop, take_append_drop]
      rw [hparts, Chain.append] at hchain
      obtain ⟨-, ha, hrest⟩ := hchain
      have hf := hk.data hc r (by simp [hdrop])
      have hlt := ha.lt_of_data hf
      have hle := Place.final_sequence_le hrest
      rw [hi.issued, hk.durable, SegmentTrace.place] at hd
      conv at hd =>
        rhs
        rw [hparts, final_append, final_cons]
      simp only [Place.next] at hle hd
      omega
  intro r hr
  apply hk.synced
  rw [← take_append_drop k s.active.records, hnil, append_nil] at hr
  exact hr

/-- Flags, allocation and removed segments are free of the rest of the state. -/
theorem Positions.adjust (hi : s.Positions) (failed rotating : Bool) (allocated : Nat)
    {older : List Segment} (ho : older.Sublist s.log.older)
    (hr : rotating = true → s.log.issued = s.log.published ∧ s.log.durable = s.log.published ∧
      s.log.cohort = none) : Positions
        { s with log := { s.log with failed, rotating, older, allocatedBytes := allocated } } := by
  obtain ⟨k, hk⟩ := hi.frontier
  exact ⟨hi.trace, hi.current, hi.highest, ho.trans hi.older, hi.offset, hi.nextBatch, hi.issued,
    hi.published, hi.pending, hi.compacted, hi.durable, hi.closedSynced,
    ⟨k, hk.le, hk.synced, hk.durable, hk.data, hk.fence⟩, hr⟩

theorem Inv.adjust (hi : s.Inv) (failed rotating : Bool) (allocated : Nat) {older : List Segment}
    (ho : older.Sublist s.log.older)
    (hr : rotating = true → s.log.issued = s.log.published ∧ s.log.durable = s.log.published ∧
      s.log.cohort = none) :
    Inv { s with log := { s.log with failed, rotating, older, allocatedBytes := allocated } } :=
  ⟨hi.toPositions.adjust failed rotating allocated ho hr, hi.origin, hi.verified, hi.index, hi.limit,
    hi.room, hi.uncut⟩

variable {kind : RotationKind} {r : Rotation}

theorem prepareRotation_eq_ok {l' : Log}
    (h : l.prepareRotation kind = .ok (r, l')) :
    l' = { l with rotating := true } ∧
      r = ⟨l.boundary, l.config, l.highestSegment, kind.epoch l.current.header.epoch⟩ ∧
      l.issued = l.published ∧ l.durable = l.published ∧ l.cohort = none ∧ l.rotating = false := by
  obtain ⟨u, hd, h⟩ := Except.bind_eq_ok.1 h
  obtain ⟨-, -, hc, -, h1, h2⟩ := Log.drained_eq_ok.1 hd
  obtain ⟨-, hrot, -, -, -, hr, hl⟩ := Log.rotation_eq_ok h
  exact ⟨hl, hr, h1, h2, hc, hrot⟩

theorem Positions.prepareRotation (hi : s.Positions)
    (h : s.log.prepareRotation kind = .ok (r, l)) : Positions { s with log := l } := by
  obtain ⟨rfl, -, h1, h2, h3, -⟩ := prepareRotation_eq_ok h
  exact hi.adjust s.log.failed true s.log.allocatedBytes (List.Sublist.refl _)
    fun _ => ⟨h1, h2, h3⟩

theorem Inv.prepareRotation (hi : s.Inv)
    (h : s.log.prepareRotation kind = .ok (r, l)) : Inv { s with log := l } := by
  obtain ⟨rfl, -, h1, h2, h3, -⟩ := prepareRotation_eq_ok h
  exact hi.adjust s.log.failed true s.log.allocatedBytes (List.Sublist.refl _)
    fun _ => ⟨h1, h2, h3⟩

theorem Positions.cancelRotation (hi : s.Positions)
    (h : s.log.cancelRotation r = .ok l) : Positions { s with log := l } := by
  obtain ⟨-, -, -, rfl⟩ := Log.cancelRotation_eq_ok.1 h
  exact hi.adjust s.log.failed false s.log.allocatedBytes (List.Sublist.refl _) nofun

theorem Inv.cancelRotation (hi : s.Inv)
    (h : s.log.cancelRotation r = .ok l) : Inv { s with log := l } := by
  obtain ⟨-, -, -, rfl⟩ := Log.cancelRotation_eq_ok.1 h
  exact hi.adjust s.log.failed false s.log.allocatedBytes (List.Sublist.refl _) nofun

/-- A header that continues the active segment with a new one. -/
structure Continues (s : Staging) (h : SegmentHeader) : Prop where
  valid : h.validate = .ok ()
  fits : h.Fits
  config : s.log.config.matchesHeader h = true
  number : s.active.header.number < h.number
  sequence : h.precedingSequence = s.log.published

theorem installRotation_eq_ok {l' : Log} {r : Rotated}
    (h : l.installRotation r = (l', .ok ())) :
    l.rotating = true ∧ ∃ allocated, l' = l.entered r.segment allocated := by
  obtain ⟨-, hrot, -, allocated, heq⟩ | ⟨e, heq | heq⟩ := l.installRotation_cases r
  · exact ⟨hrot, allocated, (Prod.mk.inj (heq.symm.trans h)).1.symm⟩
  · cases heq.symm.trans h
  · cases heq.symm.trans h

variable {h : SegmentHeader}

/-- A drained log closes its active segment and goes on to the next one. -/
theorem Positions.enter (hi : s.Positions) (hissued : s.log.issued = s.log.published)
    (hdur : s.log.durable = s.log.published) (hcohort : s.log.cohort = none)
    (hh : s.Continues h) (allocated : Nat) :
    (s.rotated h (s.log.entered ⟨h, BLOCK_SIZE⟩ allocated)).Positions := by
  refine ⟨?_, rfl, le_refl _, ?_, rfl, rfl, ?_, ⟨[], [], rfl, ?_⟩, hi.pending, hi.compacted,
    hi.durable, ?_, ⟨0, Nat.zero_le _, ?_, ?_, ?_, ?_⟩, ?_⟩
  · refine hi.trace.concat ⟨?_, ?_, hh.config, hh.valid, hh.fits, trivial⟩
    · rw [Staging.trace, final_concat]
      exact hh.number
    · rw [hi.final_sequence, hissued]
      exact hh.sequence
  · simp only [rotated, Staging.trace, map_append, map_cons, map_nil, Log.entered]
    rw [hi.current]
    exact hi.older.append (List.Sublist.refl _)
  · exact hissued.trans hh.sequence.symm
  · exact hh.sequence.symm
  · intro t ht
    rcases mem_append.1 ht with ht | ht
    · exact hi.closedSynced t ht
    · rw [mem_singleton.1 ht]
      exact hi.all_synced (by omega) hcohort
  · intro r hr
    cases hr
  · exact hdur.trans hh.sequence.symm
  · intro _ r hr
    cases hr
  · intro c hc
    cases hcohort.symm.trans hc
  · intro hf
    cases hf

theorem Inv.enter (hi : s.Inv) (hissued : s.log.issued = s.log.published)
    (hdur : s.log.durable = s.log.published) (hcohort : s.log.cohort = none)
    (hh : s.Continues h) (allocated : Nat) :
    (s.rotated h (s.log.entered ⟨h, BLOCK_SIZE⟩ allocated)).Inv := by
  have hmut : Trace.mutations (s.trace ++ [⟨h, []⟩]) = s.trace.mutations := by
    rw [Trace.mutations_concat]
    exact append_nil _
  refine ⟨hi.toPositions.enter hissued hdur hcohort hh allocated, hi.origin, ?_, ?_, hi.limit,
    hi.room, ?_⟩
  · intro t ht
    rcases mem_append.1 ht with ht | ht
    · exact hi.verified t ht
    · rw [mem_singleton.1 ht]
      intro r hr
      cases hr
  · show s.log.index.map = Trace.indexed (s.trace ++ [⟨h, []⟩]) s.log.compacted s.log.published
    rw [Trace.indexed, hmut]
    exact hi.index
  · intro t ht
    rcases mem_append.1 ht with ht | ht
    · exact hi.uncut t ht
    · rw [mem_singleton.1 ht]
      intro r hr
      cases hr

/-- `install_rotation` closes the active segment and goes on to the created one. -/
theorem Positions.install (hi : s.Positions) {r : Rotated}
    (hinst : s.log.installRotation r = (l, .ok ())) (hseg : r.segment = ⟨h, BLOCK_SIZE⟩)
    (hh : s.Continues h) : (s.rotated h l).Positions := by
  obtain ⟨hrot, allocated, rfl⟩ := installRotation_eq_ok hinst
  obtain ⟨hissued, hdur, hcohort⟩ := hi.rotating hrot
  rw [hseg]
  exact hi.enter hissued hdur hcohort hh allocated

theorem Inv.install (hi : s.Inv) {r : Rotated}
    (hinst : s.log.installRotation r = (l, .ok ())) (hseg : r.segment = ⟨h, BLOCK_SIZE⟩)
    (hh : s.Continues h) : (s.rotated h l).Inv := by
  obtain ⟨hrot, allocated, rfl⟩ := installRotation_eq_ok hinst
  obtain ⟨hissued, hdur, hcohort⟩ := hi.rotating hrot
  rw [hseg]
  exact hi.enter hissued hdur hcohort hh allocated

/-- `publish_compaction` moves D up. -/
theorem Positions.compact (hi : s.Positions) {c : Compacted}
    (h : s.log.publishCompaction c = .ok l) : Positions { s with log := l } := by
  obtain ⟨-, -, -, hle, -, rfl⟩ := Log.publishCompaction_eq_ok.1 h
  obtain ⟨k, hk⟩ := hi.frontier
  exact ⟨hi.trace, hi.current, hi.highest, hi.older, hi.offset, hi.nextBatch, hi.issued,
    hi.published, hi.pending, hle, hi.durable, hi.closedSynced,
    ⟨k, hk.le, hk.synced, hk.durable, hk.data, hk.fence⟩, hi.rotating⟩

/-- With D at a batch boundary the index keeps what it needs. -/
theorem Inv.compact (hi : s.Inv) {c : Compacted}
    (h : s.log.publishCompaction c = .ok l) (hu : s.trace.Uncut c.view.commit.durable) :
    Inv { s with log := l } ∧ l.compacted = c.view.commit.durable := by
  have hpos := hi.toPositions.compact h
  obtain ⟨-, hbase, hlt, hle, -, rfl⟩ := Log.publishCompaction_eq_ok.1 h
  have hcomp : s.log.compacted = c.previous.commit.durable := by rw [Log.compacted, hbase]; rfl
  have hindex := Trace.indexed_above hi.trace (le_of_lt (hcomp ▸ hlt)) (hle.trans hi.durable)
  have hlen : (s.log.index.retainAfter c.view.commit.durable).map.length ≤
      s.log.index.map.length := length_filter_le _ _
  refine ⟨⟨hpos, hi.origin.trans (le_of_lt (hcomp ▸ hlt)), ?_, ?_, hi.limit,
    (Nat.add_le_add_right hlen _).trans hi.room, hu⟩, rfl⟩
  · intro t ht r hr hlast
    have hlast : c.view.commit.durable < r.envelope.last := hlast
    exact hi.verified t ht r hr (by omega)
  · show s.log.index.map.filter _ = Trace.indexed _ c.view.commit.durable s.log.published
    rw [hi.index]
    exact hindex

end Control

end Staging

end Cas.Append
