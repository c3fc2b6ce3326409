import Cas.Append.Inspect

/-!
# Inspection of the files a log left

The converse of `Cas.Append.Segments`: files that hold what a trace wrote, up to a torn record, are
accepted, and the recovered log is the one of the surviving records.
-/

namespace Cas.Append

open Bytes List
open Except (ok_bind)
open Interval (Ordered replay)

/-! ## A segment -/

/-- Batch numbers stay far below the machine bound, since every record takes a block. -/
theorem Place.batch_le [Digest] {h : SegmentHeader} : ∀ {p : Place} {l : List Record},
    Chain (Place.Accepts h) Place.next p l →
      (final Place.next p l).batch ≤ p.batch + ((final Place.next p l).offset - p.offset)
  | _, [], _ => Nat.le_add_right _ _
  | p, r :: l, ⟨_, h2⟩ => by
    have ih := Place.batch_le h2
    have hle := Place.final_offset_le h2
    have hlen : BLOCK_SIZE ≤ r.length := Nat.le_add_right _ _
    simp only [final_cons, Place.next, BLOCK_SIZE] at ih hle hlen ⊢
    omega

namespace Trace

/-- What a recovery above `base` needs of the records it replays. -/
structure Recoverable [Digest] (ts : Trace) (limits : Limits) (base : Nat) : Prop where
  uncut : ts.Uncut base
  verified : ts.VerifiedAbove base
  room : ∀ t ∈ ts, ∀ r ∈ t.records, r.envelope.fence = false → base < r.envelope.last →
    (ts.indexed base (r.envelope.first - 1)).length + 2 * r.envelope.descriptors ≤ limits.intervals

/-- Mutations past `p` do not show in the index up to `p`. -/
theorem indexed_partial [Digest] {origin : Tail} {config : Config} {us vs : Trace}
    {h : SegmentHeader} {before rest : List Record}
    (hw : Trace.Wf origin config (us ++ ⟨h, before ++ rest⟩ :: vs)) (d : Nat) :
    indexed (us ++ ⟨h, before ++ rest⟩ :: vs) d
        (final Place.next (Place.start h) before).sequence =
      indexed (us ++ [⟨h, before⟩]) d (final Place.next (Place.start h) before).sequence := by
  set p := (final Place.next (Place.start h) before).sequence with hp
  rw [show us ++ (⟨h, before ++ rest⟩ : SegmentTrace) :: vs =
    (us ++ [⟨h, before ++ rest⟩]) ++ vs by simp, Trace.Wf, Chain.append] at hw
  obtain ⟨hfront, hback⟩ := hw
  have hchain : Chain (Place.Accepts h) Place.next (Place.start h) (before ++ rest) :=
    (Trace.Wf.accepts hfront (t := ⟨h, before ++ rest⟩) (by simp)).2.chain
  rw [Chain.append] at hchain
  have hend : p ≤ (final Place.next (Place.start h) (before ++ rest)).sequence := by
    rw [final_append]
    exact Place.final_sequence_le hchain.2
  have hmut : mutations (us ++ ⟨h, before ++ rest⟩ :: vs) =
      mutations (us ++ [⟨h, before⟩]) ++
        ((rest.flatMap fun r => r.mutations h.number) ++ mutations vs) := by
    simp [mutations, SegmentTrace.mutations, flatMap_append]
  have hnil : within d p ((rest.flatMap fun r => r.mutations h.number) ++ mutations vs) = [] := by
    apply within_eq_nil
    intro m hm
    right
    rcases mem_append.1 hm with hm | hm
    · exact (Place.sequence_bounds hchain.2 m hm).1
    · have := (Trace.sequence_bounds hback m hm).1
      rw [final_concat] at this
      exact lt_of_le_of_lt hend this
  rw [indexed, indexed, hmut, within_append, hnil, append_nil]

end Trace

/-- The file holds the segment up to a torn record; `kept` are the records before it. -/
structure SegmentTrace.Survives [Digest] (t : SegmentTrace) (c : Candidate) (imageBytes base : Nat)
    (kept : List Record) : Prop where
  number : c.number = t.header.number
  length : BLOCK_SIZE ≤ c.bytes.length
  header : SegmentHeader.decode (c.bytes.slice 0 BLOCK_SIZE) = .ok t.header
  records : ∃ lost, t.records = kept ++ lost ∧ (∀ r ∈ kept, r.Intact c.bytes base) ∧
    (lost = [] ∧ c.bytes.length = t.place.offset ∨ ∃ r rest, lost = r :: rest ∧
      r.Torn c.bytes imageBytes ∧ (r.envelope.fence = false → base < r.envelope.last))

namespace Scan

variable [Digest] {config : Config} {limits : Limits} {segment : Segment} {file : Bytes}
  {base : Nat} {origin : Tail} {us vs : Trace} {h : SegmentHeader}

theorem Replayed.takes {s : Scan} {before after : List Record} {r : Record}
    (hw : Trace.Wf origin config (us ++ ⟨h, before ++ r :: after⟩ :: vs))
    (hrec : Trace.Recoverable (us ++ ⟨h, before ++ r :: after⟩ :: vs) limits base)
    (hr : s.Replayed origin config limits base us ⟨h, before⟩) (hh : segment.header = h) :
    s.Takes limits segment base r ∧ s.offset % BLOCK_SIZE = 0 ∧ s.nextBatch + 1 < U64 := by
  have hmem : (⟨h, before ++ r :: after⟩ : SegmentTrace) ∈
      us ++ ⟨h, before ++ r :: after⟩ :: vs := by simp
  have hrmem : r ∈ before ++ r :: after := by simp
  have hseg := (hw.accepts hmem).2
  have hchain : Chain (Place.Accepts h) Place.next (Place.start h) (before ++ r :: after) :=
    hseg.chain
  rw [Chain.append] at hchain
  obtain ⟨hbefore, hacc, -⟩ := hchain
  have hplace : s.place = final Place.next (Place.start h) before := hr.place
  have hpub : s.published = (final Place.next (Place.start h) before).sequence :=
    congrArg Place.sequence hplace
  rw [← hplace] at hacc
  refine ⟨⟨by rw [hh]; exact hacc, hrec.uncut _ hmem r hrmem, ?_, hrec.verified _ hmem r hrmem⟩,
    ?_, ?_⟩
  · intro hf hlt
    have hroom := hrec.room _ hmem r hrmem hf hlt
    have hfirst : r.envelope.first = s.published + 1 :=
      ((Header.follows_iff.1 hacc.follows).2.2.2.2 hf).1
    rw [hfirst, Nat.add_sub_cancel, hpub, Trace.indexed_partial hw, ← hpub] at hroom
    rw [hr.index]
    exact hroom
  · rw [show s.offset = s.place.offset from rfl, hplace]
    exact (Place.records_aligned hbefore (Nat.mod_self _)).2
  · have hbatch := Place.batch_le hbefore
    have hstop := hacc.stop_le
    rw [Record.stop, hacc.offset, hplace] at hstop
    have hcap := hseg.fits.capacity
    have hlen : BLOCK_SIZE ≤ r.length := Nat.le_add_right _ _
    show s.place.batch + 1 < U64
    rw [hplace]
    simp only [Place.start, BLOCK_SIZE] at hbatch hstop hlen ⊢
    simp only at hcap
    omega

/-- The record loop takes the intact records and stops before a torn one. -/
theorem replayAll_survives {lost : List Record} (hh : segment.header = h) :
    ∀ {kept before : List Record} {s : Scan} {fuel : Nat},
      Trace.Wf origin config (us ++ ⟨h, before ++ (kept ++ lost)⟩ :: vs) →
      Trace.Recoverable (us ++ ⟨h, before ++ (kept ++ lost)⟩ :: vs) limits base →
      s.Replayed origin config limits base us ⟨h, before⟩ → (∀ r ∈ kept, r.Intact file base) →
      (lost = [] ∧ file.length = (final Place.next (Place.start h) (before ++ kept)).offset ∨
        ∃ r rest, lost = r :: rest ∧ r.Torn file config.imageBytes ∧
          (r.envelope.fence = false → base < r.envelope.last)) →
      file.length < s.offset + fuel →
      ∃ s', replayAll config limits segment file base fuel s =
          .ok (s', decide (s'.offset < file.length)) ∧
        s'.Replayed origin config limits base us ⟨h, before ++ kept⟩ ∧
        s'.segments = s.segments ∧ s'.allocatedBytes = s.allocatedBytes
  | [], before, s, 0, _, _, hr, _, _, hfuel => by
    refine ⟨s, ?_, by simpa using hr, rfl, rfl⟩
    rw [replayAll, decide_eq_false (by omega)]
  | [], before, s, fuel + 1, hw, hrec, hr, _, hlost, hfuel => by
    refine ⟨s, ?_, by simpa using hr, rfl, rfl⟩
    rw [replayAll]
    split
    · rename_i hlt
      rcases hlost with ⟨-, hlen⟩ | ⟨r, rest, rfl, htorn, hlast⟩
      · have hoff : s.offset = (final Place.next (Place.start h) before).offset :=
          congrArg Place.offset hr.place
        rw [append_nil] at hlen
        omega
      · obtain ⟨htakes, hoff, -⟩ := Replayed.takes hw hrec hr hh
        rw [replayOne_torn htakes htorn (by rw [hh]; exact hr.imageBytes) hoff hlast,
          decide_eq_true hlt]
        rfl
    · rename_i hge
      rw [decide_eq_false hge]
  | r :: kept, before, s, fuel, hw, hrec, hr, hk, hlost, hfuel => by
    rw [cons_append] at hw hrec
    obtain ⟨htakes, hoff, hbatch⟩ := Replayed.takes hw hrec hr hh
    have hi := hk r (by simp)
    have hroff : r.offset = s.offset := htakes.accepts.offset
    have hlen : BLOCK_SIZE ≤ r.length := Nat.le_add_right _ _
    have hstop := hi.stop_le
    rw [Record.stop, hroff] at hstop
    have hlt : s.offset < file.length := by
      simp only [BLOCK_SIZE] at hlen
      omega
    obtain ⟨fuel, rfl⟩ : ∃ k, fuel = k + 1 := Nat.exists_eq_succ_of_ne_zero (by omega)
    have hpush := hr.push htakes hh
    rw [show before ++ r :: (kept ++ lost) = (before ++ [r]) ++ (kept ++ lost) by simp] at hw hrec
    rw [show before ++ r :: kept = (before ++ [r]) ++ kept by simp] at hlost ⊢
    have hfuel' : file.length < (s.after h.number base r).offset + fuel := by
      show file.length < s.offset + r.length + fuel
      simp only [BLOCK_SIZE] at hlen
      omega
    obtain ⟨s', h1, h2, h3, h4⟩ := replayAll_survives hh hw hrec hpush
      (fun x hx => hk x (mem_cons_of_mem r hx)) hlost hfuel'
    refine ⟨s', ?_, h2, h3, h4⟩
    rw [replayAll, if_pos hlt, replayOne_intact htakes hi (by rw [hh]; exact hr.imageBytes)
      hr.ordered (by rw [hr.index]) hoff hbatch, hh]
    exact h1

/-- A file with the header of a segment opens as that segment. -/
theorem openFile_survives {t : SegmentTrace} {c : Candidate} {kept : List Record}
    (hs : t.Survives c config.imageBytes base kept) (hpins : t.header.capacity / BLOCK_SIZE < 2 ^ 32) :
    Segment.openFile c.number c.bytes = .ok ⟨t.header, c.bytes.length⟩ := by
  have hread : readBytes c.bytes 0 BLOCK_SIZE = .ok (c.bytes.slice 0 BLOCK_SIZE) :=
    readBytes_eq_ok.2 ⟨by decide, by have := hs.length; omega, rfl⟩
  unfold Segment.openFile
  simp only [hread, ok_bind, hs.header, Except.mapError, hs.number, ne_eq, not_true_eq_false,
    if_false, ge_iff_le, not_le.2 hpins]

theorem replaySegment_survives {done : Trace} {t : SegmentTrace} {c : Candidate}
    {kept : List Record} {s : Scan} {allocated : Nat}
    (hw : Trace.Wf origin config (done ++ t :: vs))
    (hrec : Trace.Recoverable (done ++ t :: vs) limits base)
    (hpins : config.segmentBytes / BLOCK_SIZE < 2 ^ 32)
    (hm : s.Matches origin config limits base done allocated)
    (hs : t.Survives c config.imageBytes base kept) :
    Segment.openFile c.number c.bytes = .ok ⟨t.header, c.bytes.length⟩ ∧
      config.matchesHeader t.header = true ∧ t.header.precedingSequence = s.published ∧
      ∃ s', replayAll config limits ⟨t.header, c.bytes.length⟩ c.bytes base c.bytes.length
          (s.enter ⟨t.header, c.bytes.length⟩ c.allocated) =
            .ok (s', decide (s'.offset < c.bytes.length)) ∧
        s'.offset = (SegmentTrace.place ⟨t.header, kept⟩).offset ∧
        (s'.leave ⟨t.header, c.bytes.length⟩).Matches origin config limits base
          (done ++ [⟨t.header, kept⟩]) (allocated + c.allocated) := by
  have hpart := hw
  rw [Trace.Wf, Chain.append] at hpart
  have ha : Tail.Accepts config (final Tail.next origin done) t := hpart.2.1
  have hconf := ha.config
  have hcap : config.segmentBytes = t.header.capacity := by
    simp only [Config.matchesHeader, decide_eq_true_eq] at hconf
    exact hconf.2.2.2
  have hopen := openFile_survives hs (by rw [← hcap]; exact hpins)
  have hprec : t.header.precedingSequence = s.published := by rw [ha.sequence, hm.published]
  have henter := hm.enter hopen hconf hprec ha.number
  obtain ⟨lost, hrecords, hkept, hlost⟩ := hs.records
  have ht : t = ⟨t.header, [] ++ (kept ++ lost)⟩ := by
    rw [nil_append, ← hrecords]
  rw [ht] at hw hrec
  have hlost' : lost = [] ∧
      c.bytes.length = (final Place.next (Place.start t.header) ([] ++ kept)).offset ∨
        ∃ r rest, lost = r :: rest ∧ r.Torn c.bytes config.imageBytes ∧
          (r.envelope.fence = false → base < r.envelope.last) := by
    rcases hlost with ⟨rfl, hlen⟩ | h
    · rw [SegmentTrace.place, hrecords, append_nil] at hlen
      exact Or.inl ⟨rfl, by rw [nil_append]; exact hlen⟩
    · exact Or.inr h
  have hself : (⟨t.header, c.bytes.length⟩ : Segment).header = t.header := rfl
  obtain ⟨s', hall, hrep, hseg, hal⟩ := replayAll_survives hself hw hrec henter hkept hlost' (by
    show c.bytes.length < BLOCK_SIZE + c.bytes.length
    simp only [BLOCK_SIZE]
    omega)
  refine ⟨hopen, hconf, hprec, s', hall, ?_, ?_⟩
  · exact congrArg Place.offset hrep.place
  · have hleave := hrep.leave (by rw [hseg, ← hm.segments]; rfl) rfl
    have hsum : s'.allocatedBytes = allocated + c.allocated := by
      rw [hal, ← hm.allocated]
      rfl
    rw [hsum] at hleave
    exact hleave

/-- The segment loop accepts whole files, and the last one up to its torn record. -/
theorem inspectFrom_survives {t : SegmentTrace} {c : Candidate} {kept : List Record}
    (hpins : config.segmentBytes / BLOCK_SIZE < 2 ^ 32)
    (hlast : t.Survives c config.imageBytes base kept) :
    ∀ {rest : Trace} {cs : List Candidate} {done : Trace} {s : Scan} {allocated i : Nat},
      Trace.Wf origin config (done ++ rest ++ [t]) →
      Trace.Recoverable (done ++ rest ++ [t]) limits base →
      (done ++ rest ++ [t]).Pairwise (fun a b => a.header.epoch ≤ b.header.epoch) →
      List.Forall₂ (fun u b => SegmentTrace.Survives u b config.imageBytes base u.records) rest cs →
      s.Matches origin config limits base done allocated →
      ∃ s', inspectFrom config limits base (cs ++ [c]) i s =
          .ok (s', if (SegmentTrace.place ⟨t.header, kept⟩).offset < c.bytes.length then
            some (i + cs.length, (SegmentTrace.place ⟨t.header, kept⟩).offset) else none) ∧
        s'.Matches origin config limits base (done ++ rest ++ [⟨t.header, kept⟩])
          (allocated + ((cs ++ [c]).map Candidate.allocated).sum) := by
  -- the chain check of one segment
  have hchain : ∀ {done : Trace} {u : SegmentTrace} {vs : Trace} {s : Scan} {allocated : Nat},
      (done ++ u :: vs).Pairwise (fun a b => a.header.epoch ≤ b.header.epoch) →
      s.Matches origin config limits base done allocated →
      (s.segments.getLast?.any fun previous => u.header.epoch < previous.header.epoch) = false := by
    intro done u vs s allocated hp hm
    rw [hm.segments]
    rcases eq_nil_or_concat done with rfl | ⟨ds, x, rfl⟩
    · rfl
    · rw [concat_eq_append] at hp ⊢
      rw [map_append, map_cons, map_nil, getLast?_concat]
      have := (pairwise_append.1 hp).2.2 x (by simp) u (by simp)
      simpa [SegmentTrace.segment] using this
  intro rest
  induction rest with
  | nil =>
    intro cs done s allocated i hw hrec hep hf hm
    cases hf
    rw [append_nil] at hw hrec hep ⊢
    obtain ⟨hopen, hconf, hprec, s', hall, hoff, hleave⟩ :=
      replaySegment_survives hw hrec hpins hm hlast
    refine ⟨_, ?_, by simpa using hleave⟩
    rw [nil_append, inspectFrom, hopen]
    simp only [hconf, hprec, hchain hep hm, Bool.true_eq_false, Bool.false_eq_true, ne_eq,
      not_true_eq_false, or_self, if_false, hall, ok_bind]
    rw [← hoff]
    by_cases hlt : s'.offset < c.bytes.length
    · rw [if_pos (decide_eq_true hlt), if_pos hlt]
      rfl
    · rw [if_neg (by simpa using hlt), if_neg hlt]
      rfl
  | cons u rest ih =>
    intro cs done s allocated i hw hrec hep hf hm
    cases hf with
    | @cons _ b _ cs hu hf =>
    rw [show done ++ u :: rest ++ [t] = done ++ u :: (rest ++ [t]) by simp] at hw hrec hep
    obtain ⟨hopen, hconf, hprec, s', hall, hoff, hleave⟩ :=
      replaySegment_survives hw hrec hpins hm hu
    have hchk := hchain hep hm
    rw [show done ++ u :: (rest ++ [t]) = (done ++ [u]) ++ rest ++ [t] by simp] at hw hrec hep
    obtain ⟨s₁, h1, h2⟩ := ih (i := i + 1) hw hrec hep hf hleave
    -- the whole file was read
    have hend : ¬ s'.offset < b.bytes.length := by
      obtain ⟨lost, hrecords, -, hl⟩ := hu.records
      have hnil : lost = [] := by simpa using hrecords
      rcases hl with ⟨-, hlen⟩ | ⟨r, rs, hr, -⟩
      · rw [hoff, hlen]
        exact lt_irrefl _
      · cases hnil.symm.trans hr
    refine ⟨s₁, ?_, ?_⟩
    · rw [cons_append, inspectFrom, hopen]
      simp only [hconf, hprec, hchk, Bool.true_eq_false, Bool.false_eq_true, ne_eq,
        not_true_eq_false, or_self, if_false, hall, ok_bind]
      rw [if_neg (by simpa using hend), h1, length_cons, add_assoc, add_comm 1]
    · rw [show done ++ u :: rest ++ [(⟨t.header, kept⟩ : SegmentTrace)] =
        (done ++ [u]) ++ rest ++ [⟨t.header, kept⟩] by simp]
      rw [cons_append, map_cons, sum_cons, ← add_assoc]
      exact h2

end Scan

/-! ## The directory -/

section Directory

variable [Digest] {d : Directory} {config : Config} {limits : Limits} {base : Nat} {origin : Tail}
  {closed : Trace} {active : SegmentTrace} {cs : List Candidate} {c : Candidate}
  {kept : List Record}

/-- The number before the first segment does not matter to a recovery. -/
theorem Trace.Wf.forget {ts : Trace} (hw : ts.Wf origin config) :
    ts.Wf ⟨0, origin.sequence⟩ config := by
  cases ts with
  | nil => trivial
  | cons t ts => exact ⟨⟨Nat.zero_lt_of_lt hw.1.number, hw.1.sequence, hw.1.config, hw.1.wf⟩, hw.2⟩

theorem Directory.candidates_eq {l : List Candidate} (hp : d.files.Perm l)
    (hs : l.Pairwise fun a b => a.number < b.number) : d.candidates = l := by
  have hperm : d.candidates.Perm l := (mergeSort_perm _ _).trans hp
  refine hperm.eq_of_pairwise ?_ d.candidates_pairwise hs
  intro a b _ _ h1 h2
  omega

/-- The first file opens with the header of the first segment. -/
theorem Trace.Wf.opens_first (hw : (closed ++ [active]).Wf origin config)
    (hpins : config.segmentBytes / BLOCK_SIZE < 2 ^ 32)
    (hclosed : List.Forall₂
      (fun u b => SegmentTrace.Survives u b config.imageBytes base u.records) closed cs)
    (hactive : active.Survives c config.imageBytes base kept) :
    ∃ c₀ cs₀, ∃ h₀ : SegmentHeader, cs ++ [c] = c₀ :: cs₀ ∧
      Segment.openFile c₀.number c₀.bytes = .ok ⟨h₀, c₀.bytes.length⟩ ∧
      h₀.precedingSequence = origin.sequence ∧
      config = ⟨h₀.store, h₀.image, h₀.imageBytes, h₀.capacity⟩ := by
  obtain ⟨c₀, cs₀, t₀, ts₀, k₀, hcs, hts, hs₀⟩ : ∃ c₀ cs₀ t₀ ts₀ k₀, cs ++ [c] = c₀ :: cs₀ ∧
      closed ++ [active] = t₀ :: ts₀ ∧
      SegmentTrace.Survives t₀ c₀ config.imageBytes base k₀ := by
    cases hclosed with
    | nil => exact ⟨c, [], active, [], kept, rfl, rfl, hactive⟩
    | cons h hf => exact ⟨_, _, _, _, _, rfl, rfl, h⟩
  have ha₀ : Tail.Accepts config origin t₀ := by
    rw [hts] at hw
    exact hw.1
  have hconf : config = ⟨t₀.header.store, t₀.header.image, t₀.header.imageBytes,
      t₀.header.capacity⟩ := by
    have hc := ha₀.config
    simp only [Config.matchesHeader, decide_eq_true_eq] at hc
    obtain ⟨h1, h2, h3, h4⟩ := hc
    rw [← h1, ← h2, ← h3, ← h4]
  have hcap : t₀.header.capacity = config.segmentBytes := by rw [hconf]
  exact ⟨c₀, cs₀, t₀.header, hcs, Scan.openFile_survives hs₀ (by rw [hcap]; exact hpins),
    ha₀.sequence, hconf⟩

/-- Inspection of the files a log left: all closed segments, and the active one up to its first torn
record. -/
theorem Log.inspectIn_survives (hd : d.candidates = cs ++ [c])
    (hw : (closed ++ [active]).Wf origin config)
    (hrec : Trace.Recoverable (closed ++ [active]) limits base)
    (hep : (closed ++ [active]).Pairwise fun a b => a.header.epoch ≤ b.header.epoch)
    (hpins : config.segmentBytes / BLOCK_SIZE < 2 ^ 32)
    (hbytes : MAX_BATCH_BYTES + 2 * BLOCK_SIZE ≤ config.segmentBytes)
    (hclosed : List.Forall₂
      (fun u b => SegmentTrace.Survives u b config.imageBytes base u.records) closed cs)
    (hactive : active.Survives c config.imageBytes base kept) (horigin : origin.sequence ≤ base)
    (hreached : base ≤ (SegmentTrace.place ⟨active.header, kept⟩).sequence) :
    Log.inspectIn d limits base = .ok ⟨Log.ofTrace limits base d.highest
        ((d.candidates).map Candidate.allocated).sum closed ⟨active.header, kept⟩, d.candidates,
      if (SegmentTrace.place ⟨active.header, kept⟩).offset < c.bytes.length then
        some (cs.length, (SegmentTrace.place ⟨active.header, kept⟩).offset) else none⟩ := by
  obtain ⟨c₀, cs₀, h₀, hcs, hopen, hprec, hconf⟩ := hw.opens_first hpins hclosed hactive
  have hcap : h₀.capacity = config.segmentBytes := by rw [hconf]
  have hstart := Scan.matches_start config limits base h₀.precedingSequence
  rw [hprec] at hstart
  have hw₀ := hw.forget
  rw [← nil_append (closed ++ [active]), ← append_assoc] at hw₀ hrec hep
  obtain ⟨s', hscan, hm⟩ := Scan.inspectFrom_survives (i := 0) hpins hactive
    hw₀ hrec hep hclosed hstart
  rw [nil_append] at hm
  have hpub : s'.published = (SegmentTrace.place ⟨active.header, kept⟩).sequence :=
    congrArg Place.sequence (hm.place _ (getLast?_concat ..))
  unfold Log.inspectIn
  rw [hd, hcs]
  simp only [hopen, Except.mapError, ok_bind]
  rw [if_neg (by rw [hprec]; exact not_lt.2 horigin),
    if_neg (by rw [hcap]; exact not_lt.2 hbytes), ← hconf, ← hcs, hprec, hscan]
  simp only [ok_bind]
  rw [if_neg (by rw [hpub]; exact not_lt.2 hreached), hm.log, zero_add, zero_add]

end Directory

end Cas.Append
