import Cas.Append.Segments

/-!
# A successful inspection has no silent gap

`Recovery.Sound` says what a successful `inspect_in` proves about the files it read, whatever their
bytes were: the accepted batches are one gap-free run, the manifest prefix falls between two of
them, and the recovered log is a function of the accepted records alone.
-/

namespace Cas.Append

open Bytes List
open Interval (Ordered replay)

/-- What the accepted files and names determine of a recovered log. -/
def Log.ofTrace (limits : Limits) (base highest allocated : Nat) (closed : Trace)
    (active : SegmentTrace) : Log where
  config := ⟨active.header.store, active.header.image, active.header.imageBytes,
    active.header.capacity⟩
  limits := limits
  older := closed.map SegmentTrace.segment
  current := active.segment
  index := ⟨Trace.indexed (closed ++ [active]) base active.place.sequence, limits.intervals⟩
  offset := active.place.offset
  nextBatch := active.place.batch
  highestSegment := highest
  base := none
  cursor := Trace.cursor base (closed ++ [active])
  published := active.place.sequence
  issued := active.place.sequence
  pendingDescriptors := 0
  cohort := none
  durable := 0
  encodedBytes := ((closed ++ [active]).map fun t => t.place.offset).sum
  allocatedBytes := allocated
  rejectedBytes := 0
  failed := false
  fenced := false
  rotating := false

/-- The bytes a mapping points at are in a file of the directory and have its checksum. -/
def Payload.VerifiedIn [Digest] (p : Payload) (d : Directory) : Prop :=
  ∃ c ∈ d.files, c.number = p.segment ∧ p.offset + p.bytes ≤ c.bytes.length ∧
    (Digest.crc32 (c.bytes.slice p.offset p.bytes)).toNat = p.crc

/-- A recovery of the directory `d` under the manifest prefix `base`, with the accepted records of
the segments `closed ++ [active]`. -/
structure Recovery.Sound [Digest] (rec : Recovery) (d : Directory) (limits : Limits) (base : Nat)
    (closed : Trace) (active : SegmentTrace) : Prop where
  /-- The accepted records are those of the first files, up to the cut. -/
  accepted : ∃ done rest, d.candidates = done ++ rest ∧
    List.Forall₂ SegmentTrace.StoredIn (closed ++ [active]) done ∧
    Scan.Ends (closed ++ [active]) done rest rec.rejected
  /-- Each accepted record continues the one before it, each segment the one before it. -/
  chain : ∃ first, (closed ++ [active]).head? = some first ∧
    first.header.precedingSequence ≤ base ∧
    Trace.Wf ⟨0, first.header.precedingSequence⟩ rec.log.config (closed ++ [active]) ∧
    (Trace.mutations (closed ++ [active])).map Placed.sequence =
      List.range' (first.header.precedingSequence + 1)
        (rec.log.published - first.header.precedingSequence)
  reached : base ≤ rec.log.published
  /-- The manifest prefix falls between two batches. -/
  boundary : Trace.Uncut (closed ++ [active]) base
  batches : ∀ t ∈ closed ++ [active],
    t.records.map (fun r => r.envelope.batch) = List.range' 1 t.records.length
  fences : ∀ t ∈ closed ++ [active], ∀ before r after, t.records = before ++ r :: after →
    r.envelope.fence = true →
      r.envelope.last = (final Place.next (Place.start t.header) before).sequence
  mappings : ∀ e ∈ rec.log.index.map, base < e.2.sequence ∧
    ∀ p skip, e.2.source = some (p, skip) → p.VerifiedIn d
  verified : Trace.VerifiedAbove (closed ++ [active]) base
  room : rec.log.index.map.length ≤ limits.intervals
  /-- A recovery under a later prefix has the room too. -/
  roomy : Trace.Roomy (closed ++ [active]) limits base
  pins : rec.log.config.segmentBytes / BLOCK_SIZE < 2 ^ 32
  bytes : MAX_BATCH_BYTES + 2 * BLOCK_SIZE ≤ rec.log.config.segmentBytes
  /-- Nothing else of the files reaches the log. -/
  determined : rec.log = Log.ofTrace limits base d.highest
    ((d.candidates.take (closed.length + 1)).map Candidate.allocated).sum closed active

section Batches

variable [Digest] {h : SegmentHeader}

theorem Place.batches : ∀ {p : Place} {l : List Record},
    Chain (Place.Accepts h) Place.next p l →
      l.map (fun r => r.envelope.batch) = range' p.batch l.length
  | _, [], _ => rfl
  | p, r :: l, ⟨h1, h2⟩ => by
    have hb : r.envelope.batch = p.batch := (Header.follows_iff.1 h1.follows).2.1
    have ih := Place.batches h2
    rw [map_cons, length_cons, range'_succ, hb, ih]
    rfl

end Batches

/-- Cutting an entry keeps its mutation and the payload it points into. -/
theorem Trace.mem_indexed {ts : Trace} {d p : Nat} : ∀ e ∈ ts.indexed d p,
    ∃ m ∈ Trace.within d p ts.mutations, e.2.sequence = m.sequence ∧
      e.2.source.map Prod.fst = m.entry.2.source.map Prod.fst := by
  apply Interval.forall_replay
  · rintro a q ⟨m, hm, h1, h2⟩ - -
    exact ⟨m, hm, h1, h2⟩
  · rintro a q ⟨m, hm, h1, h2⟩ - -
    refine ⟨m, hm, h1, ?_⟩
    rw [← h2]
    show (a.2.source.map _).map Prod.fst = _
    rw [Option.map_map]
    rfl
  · intro e he
    obtain ⟨m, hm, rfl⟩ := mem_map.1 he
    exact ⟨m, hm, rfl, rfl⟩
  · simp

/-- A mutation of a trace, with the segment, record and place it has there. -/
theorem Trace.mem_mutations [Digest] {origin : Tail} {config : Config} {ts : Trace}
    (hw : ts.Wf origin config) {m : Placed} (hm : m ∈ ts.mutations) :
    ∃ t ∈ ts, m.segment = t.header.number ∧ m.record ∈ t.records ∧
      m.descriptor ∈ m.record.descriptors ∧ m.sequence ≤ m.record.envelope.last ∧
      m.descriptor.InRecord t.header.imageBytes m.record.envelope.payloadBytes := by
  obtain ⟨t, ht, hm⟩ := mem_flatMap.1 hm
  obtain ⟨r, hr, hm⟩ := mem_flatMap.1 hm
  obtain ⟨x, hx, rfl⟩ := mem_map.1 hm
  obtain ⟨_, _, -, -, ha, -⟩ := (hw.accepts ht).2.chain.exists_of_mem hr
  refine ⟨t, ht, rfl, hr, hx, ?_, ha.inRecord x hx⟩
  have hmem := mem_map_of_mem (f := Descriptor.sequence) hx
  rw [ha.sequences.2.2, mem_range'_1] at hmem
  have := ha.sequences.1
  show x.sequence ≤ r.envelope.last
  omega

/-- The payload of an accepted and verified mutation has its checksum in the file. -/
theorem Placed.verifiedIn [Digest] {m : Placed} {t : SegmentTrace} {c : Candidate} {d : Directory}
    (hc : c ∈ d.files) (hs : t.StoredIn c) (hr : m.record ∈ t.records)
    (hx : m.descriptor ∈ m.record.descriptors) (hseg : m.segment = t.header.number)
    (hin : m.descriptor.InRecord t.header.imageBytes m.record.envelope.payloadBytes)
    (hv : m.record.Verified) {p : Payload} (hp : m.entry.2.source.map Prod.fst = some p) :
    p.VerifiedIn d := by
  have hk : m.descriptor.kind = .write := by
    by_contra hk
    simp [Placed.entry, located, hk] at hp
  have hp : p = ⟨m.segment, m.record.offset + BLOCK_SIZE + m.descriptor.payloadOffset,
      m.descriptor.payloadLength, m.descriptor.sequence, m.descriptor.payloadCrc,
      m.record.offset / BLOCK_SIZE⟩ := by
    simp only [Placed.entry, located, hk, if_true, Option.map_some, Option.some.injEq] at hp
    exact hp.symm
  subst hp
  have hst := hs.records _ hr
  obtain ⟨-, -, hle⟩ := hin.write hk
  have hstop : m.record.offset + (BLOCK_SIZE + m.record.envelope.payloadBytes) ≤ c.bytes.length :=
    hst.1
  refine ⟨c, hc, by rw [hs.number, hseg], ?_, ?_⟩
  · show m.record.offset + BLOCK_SIZE + m.descriptor.payloadOffset + m.descriptor.payloadLength ≤ _
    omega
  · rw [Record.Verified, Header.verifyPayload, requireFormat_bind_eq_ok, requireFormat_eq_ok] at hv
    have hcrc := hv.2 m.descriptor hx hk
    rw [← hst.payload_bytes, slice_slice hle] at hcrc
    exact hcrc

theorem Directory.mem_candidates (d : Directory) {c : Candidate} :
    c ∈ d.candidates ↔ c ∈ d.files :=
  mem_mergeSort

theorem Directory.candidates_pairwise (d : Directory) :
    d.candidates.Pairwise fun a b => a.number < b.number := by
  have hsorted : d.candidates.Pairwise fun a b => a.number ≤ b.number := by
    have : d.candidates.Pairwise fun a b => decide (a.number ≤ b.number) = true :=
      pairwise_mergeSort (fun a b c h1 h2 => by simp only [decide_eq_true_eq] at *; omega)
        (fun a b => by simp only [Bool.or_eq_true, decide_eq_true_eq]; omega) d.files
    exact this.imp fun h => of_decide_eq_true h
  have hnodup : (d.candidates.map Candidate.number).Nodup :=
    ((mergeSort_perm d.files _).map _).nodup_iff.2 d.distinct
  have hne : d.candidates.Pairwise fun a b => a.number ≠ b.number := pairwise_map.1 hnodup
  exact hsorted.imp₂ (fun a b h1 h2 => lt_of_le_of_ne h1 h2) hne

section Sound

variable [Digest] {d : Directory} {limits : Limits} {base : Nat} {rec : Recovery}

theorem Scan.matches_start (config : Config) (limits : Limits) (base published : Nat) :
    Scan.Matches ⟨[], ⟨[], limits.intervals⟩, BLOCK_SIZE, 1, published, none, 0, 0⟩
      ⟨0, published⟩ config limits base [] 0 where
  wf := trivial
  published := rfl
  place := by simp
  index := rfl
  room := Nat.zero_le _
  roomy := by simp [Trace.Roomy]
  uncut := by simp [Trace.Uncut]
  verified := by simp [Trace.VerifiedAbove]
  cursor := rfl
  encoded := rfl
  segments := rfl
  allocated := rfl

/-- A scan that accepted the segments of a trace makes the log of that trace. -/
theorem Scan.Matches.log {s : Scan} {origin : Tail} {config : Config} {closed : Trace}
    {active : SegmentTrace} {allocated highest : Nat}
    (hm : s.Matches origin config limits base (closed ++ [active]) allocated) :
    s.log config limits highest = some (Log.ofTrace limits base highest allocated closed active) := by
  have hplace := hm.place active (getLast?_concat ..)
  have hpub : s.published = active.place.sequence := congrArg Place.sequence hplace
  have hoff : s.offset = active.place.offset := congrArg Place.offset hplace
  have hbat : s.nextBatch = active.place.batch := congrArg Place.batch hplace
  have hconf : config = ⟨active.header.store, active.header.image, active.header.imageBytes,
      active.header.capacity⟩ := by
    have hc := (hm.wf.accepts (t := active) (by simp)).1
    simp only [Config.matchesHeader, decide_eq_true_eq] at hc
    obtain ⟨h1, h2, h3, h4⟩ := hc
    rw [← h1, ← h2, ← h3, ← h4]
  rw [Scan.log, hm.segments, map_append, map_cons, map_nil, getLast?_concat,
    dropLast_concat, Option.map_some, hm.index, hoff, hbat, hpub, hm.cursor, hm.encoded,
    hm.allocated, Log.ofTrace, ← hconf]

/-- Inspection accepts a run of records without a gap, for any bytes in the directory. Under a later
manifest prefix that splits none of them it accepts the same records. -/
theorem Log.sound_above (h : Log.inspectIn d limits base = .ok rec) :
    ∃ closed active, rec.Sound d limits base closed active ∧
      ∀ later, base ≤ later → later ≤ rec.log.published → Trace.Uncut (closed ++ [active]) later →
        ∃ rec', Log.inspectIn d limits later = .ok rec' ∧ rec'.rejected = rec.rejected ∧
          rec'.log = Log.ofTrace limits later d.highest rec.log.allocatedBytes closed active := by
  unfold Log.inspectIn at h
  split at h
  · cases h
  rename_i c cs hcand
  obtain ⟨first, hopen, h⟩ := Except.bind_eq_ok.1 h
  have hopen := Except.mapError_eq_ok.1 hopen
  simp only [Except.ite_error_eq_ok, not_lt, gt_iff_lt] at h
  obtain ⟨hprec, hbytes, h⟩ := h
  obtain ⟨⟨s, rejected⟩, hscan, h⟩ := Except.bind_eq_ok.1 h
  simp only at h
  rw [Except.ite_error_eq_ok] at h
  obtain ⟨hreached, h⟩ := h
  set config : Config :=
    ⟨first.header.store, first.header.image, first.header.imageBytes, first.header.capacity⟩
  have hsorted := d.candidates_pairwise
  rw [hcand] at hsorted
  have hnone : List.Forall₂ SegmentTrace.StoredIn [] [] := .nil
  obtain ⟨ts, done, rest, hparts, hm, hstored, hends, -, hlater⟩ := Scan.inspectFrom_ok
    (Scan.matches_start config limits base first.header.precedingSequence) hnone (by simp)
    (fun _ => rfl) hsorted (by simp) hscan
  rw [nil_append] at hparts
  cases hlog : s.log config limits d.highest with
  | none =>
    rw [hlog] at h
    cases h
  | some log =>
    rw [hlog] at h
    have h := Except.ok.inj h
    subst h
    rcases eq_nil_or_concat ts with rfl | ⟨closed, active, rfl⟩
    · rw [Scan.log, hm.segments] at hlog
      cases hlog
    rw [concat_eq_append] at hm hstored hends hlater
    have hplace := hm.place active (getLast?_concat ..)
    have hpub : s.published = active.place.sequence := congrArg Place.sequence hplace
    have hdet : log = Log.ofTrace limits base d.highest s.allocatedBytes closed active := by
      rw [Option.some.inj (hlog.symm.trans hm.log), hm.allocated]
    have hconf : log.config = config := by
      obtain ⟨current, -, hc⟩ := Option.map_eq_some_iff.1 hlog
      rw [← hc]
    -- the first accepted segment is the first file
    obtain ⟨head, tail, hht⟩ : ∃ head tail, closed ++ [active] = head :: tail := by
      cases closed with
      | nil => exact ⟨active, [], rfl⟩
      | cons t ts => exact ⟨t, ts ++ [active], rfl⟩
    have hheadprec : head.header.precedingSequence = first.header.precedingSequence := by
      have hw := hm.wf
      rw [hht] at hw
      exact hw.1.sequence
    have hfinal := hm.published
    refine ⟨closed, active, ⟨⟨done, rest, by rw [hcand, hparts], hstored, hends⟩, ?_, ?_, hm.uncut,
      ?_, ?_, ?_, hm.verified, ?_, hm.roomy, ?_, ?_, ?_⟩, ?_⟩
    · refine ⟨head, by rw [hht]; rfl, by rw [hheadprec]; exact hprec, ?_, ?_⟩
      · rw [hheadprec]
        show Trace.Wf _ log.config _
        rw [hconf]
        exact hm.wf
      · have hseq := Trace.sequences hm.wf
        rw [← hfinal, hpub] at hseq
        rw [hheadprec, hdet]
        exact hseq
    · rw [hdet]
      show base ≤ active.place.sequence
      omega
    · intro t ht
      exact Place.batches (hm.wf.accepts ht).2.chain
    · intro t ht before r after hr hf
      have hc := (hm.wf.accepts ht).2.chain
      rw [hr, Chain.append] at hc
      exact (Header.follows_iff.1 hc.2.1.follows).2.2.2.1 hf
    · intro e he
      rw [hdet] at he
      obtain ⟨m, hmem, hseq, hsrc⟩ := Trace.mem_indexed e he
      obtain ⟨hmem, hlo, -⟩ := Trace.mem_within.1 hmem
      obtain ⟨t, ht, hseg, hr, hx, hle, hin⟩ := Trace.mem_mutations hm.wf hmem
      refine ⟨by omega, ?_⟩
      intro p skip hp
      have hv := hm.verified t ht m.record hr (by omega)
      obtain ⟨c', hc', hst⟩ := forall₂_exists hstored ht
      have hfile : c' ∈ d.files := by
        rw [← d.mem_candidates, hcand, hparts]
        exact mem_append_left _ hc'
      refine Placed.verifiedIn hfile hst hr hx hseg hin hv ?_
      rw [← hsrc, hp]
      rfl
    · have hroom := hm.room
      rw [hm.index, hpub] at hroom
      rw [hdet]
      exact hroom
    · show log.config.segmentBytes / BLOCK_SIZE < 2 ^ 32
      rw [hconf]
      exact (Scan.openFile_eq_ok hopen).2.2.2.1
    · show _ ≤ log.config.segmentBytes
      rw [hconf]
      exact hbytes
    · have hlen : done.length = closed.length + 1 := by
        rw [← hstored.length_eq, length_append, length_singleton]
      rw [hdet, hcand, hparts, ← hlen, take_left, hm.allocated]
    · intro later hle hpub' hcut
      have hpub₂ : later ≤ s.published := by
        rw [hpub]
        rwa [hdet] at hpub'
      obtain ⟨s₃, hrun, hm₃⟩ := hlater hle (Scan.matches_start config limits later _) hcut hpub₂
      have hpub₃ : s₃.published = s.published := hm₃.published.trans hm.published.symm
      have hdet' : log.allocatedBytes = s.allocatedBytes := by rw [hdet]; rfl
      refine ⟨⟨Log.ofTrace limits later d.highest log.allocatedBytes closed active, c :: cs, rejected⟩,
        ?_, rfl, rfl⟩
      unfold Log.inspectIn
      rw [hcand]
      simp only [hopen, Except.mapError, Except.ok_bind]
      rw [if_neg (by omega), if_neg (by simpa using hbytes)]
      simp only [length_nil] at hrun
      rw [hrun]
      simp only [Except.ok_bind]
      rw [if_neg (by omega), hm₃.log, hdet', hm.allocated]

theorem Log.sound_of_inspectIn (h : Log.inspectIn d limits base = .ok rec) :
    ∃ closed active, rec.Sound d limits base closed active := by
  obtain ⟨closed, active, hs, -⟩ := Log.sound_above h
  exact ⟨closed, active, hs⟩

end Sound

end Cas.Append
