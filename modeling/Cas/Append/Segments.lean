import Cas.Append.Replay

/-!
# The loops of an inspection

`Replayed` is the invariant of the record loop and `Matches` that of the segment loop: the scan is
what the accepted records make it, and every accepted record is stored in its file. An inspection
under a later manifest prefix accepts the same records, unless the prefix splits one of them.
-/

namespace Cas.Append

open Bytes List
open Except (bind_eq_ok ite_error_eq_ok ok_bind)
open Interval (Ordered replay)

namespace Scan

variable [Digest] {s s' : Scan} {config : Config} {limits : Limits} {segment : Segment}
  {file : Bytes} {base : Nat}

/-! ## One segment -/

/-- The scan is what the accepted records of `ts` and of the segment `t` under replay make it. -/
structure Replayed (s : Scan) (origin : Tail) (config : Config) (limits : Limits) (base : Nat)
    (ts : Trace) (t : SegmentTrace) : Prop where
  wf : (ts ++ [t]).Wf origin config
  place : s.place = t.place
  index : s.index = ⟨(ts ++ [t]).indexed base s.published, limits.intervals⟩
  room : s.index.map.length ≤ limits.intervals
  roomy : (ts ++ [t]).Roomy limits base
  uncut : (ts ++ [t]).Uncut base
  verified : (ts ++ [t]).VerifiedAbove base
  cursor : s.cursor = (ts ++ [t]).cursor base
  encoded : s.encodedBytes = ((ts ++ [t]).map fun t => t.place.offset).sum

section Segment

variable {origin : Tail} {ts : Trace} {t : SegmentTrace}

theorem Replayed.active (hr : s.Replayed origin config limits base ts t) :
    config.matchesHeader t.header = true ∧ t.Wf :=
  hr.wf.accepts (by simp)

theorem Replayed.imageBytes (hr : s.Replayed origin config limits base ts t) :
    t.header.imageBytes = config.imageBytes :=
  (Config.imageBytes_of_matches hr.active.1).symm

theorem Replayed.ordered (hr : s.Replayed origin config limits base ts t) :
    Ordered 0 config.imageBytes s.index.map := by
  rw [hr.index]
  exact Trace.indexed_ordered hr.wf _ _

theorem Replayed.push (hr : s.Replayed origin config limits base ts t) {r : Record}
    (ht : s.Takes limits segment base r) (hh : segment.header = t.header) :
    (s.after t.header.number base r).Replayed origin config limits base ts (t.push r) := by
  have hacc : t.place.Accepts t.header r := by
    have := ht.accepts
    rwa [hr.place, hh] at this
  have hseq : s.published = t.place.sequence := congrArg Place.sequence hr.place
  obtain ⟨hle, -, hnum⟩ := hacc.sequences
  have hfinal : (final Tail.next origin (ts ++ [t])).sequence = s.published := by
    rw [final_concat, hseq]
    rfl
  have hold : ∀ m ∈ Trace.mutations (ts ++ [t]), m.sequence ≤ s.published := by
    intro m hm
    rw [← hfinal]
    exact (Trace.sequence_bounds hr.wf m hm).2
  have hnew : ∀ m ∈ r.mutations t.header.number,
      s.published < m.sequence ∧ m.sequence ≤ r.envelope.last := by
    intro m hm
    have hmem := mem_map_of_mem (f := Placed.sequence) hm
    rw [Record.map_sequence_mutations, hnum, mem_range'_1] at hmem
    omega
  have hoff : s.offset = t.place.offset := congrArg Place.offset hr.place
  have hbat : s.nextBatch = t.place.batch := congrArg Place.batch hr.place
  refine ⟨hr.wf.push hacc, ?_, ?_, ?_, ?_, ?_, ?_, ?_, ?_⟩
  · rw [SegmentTrace.push_place, ← hr.place]
    rfl
  · -- the index grows by the record's mutations when they lie above `base`
    show (if r.envelope.fence = true ∨ r.envelope.last ≤ base then s.index else _) =
      ⟨Trace.indexed _ base r.envelope.last, limits.intervals⟩
    have hkeep : Trace.within base r.envelope.last (Trace.mutations (ts ++ [t])) =
        Trace.within base s.published (Trace.mutations (ts ++ [t])) := by
      apply filter_congr
      intro m hm
      have := hold m hm
      simp only [decide_eq_decide]
      omega
    rw [Trace.indexed, Trace.mutations_push, Trace.within_append, hkeep, map_append,
      Interval.replay_append, hr.index]
    split
    · rename_i hcase
      have hnil : Trace.within base r.envelope.last (r.mutations t.header.number) = [] := by
        apply Trace.within_eq_nil
        intro m hm
        have := hnew m hm
        rcases hcase with hf | hle'
        · -- a fence has no mutation
          have hlast : r.envelope.last = t.place.sequence :=
            (Header.follows_iff.1 hacc.follows).2.2.2.1 hf
          omega
        · exact Or.inl (by omega)
      rw [hnil]
      rfl
    · rename_i hcase
      have hself : Trace.within base r.envelope.last (r.mutations t.header.number) =
          r.mutations t.header.number := by
        apply Trace.within_eq_self
        intro m hm
        have h1 := hnew m hm
        have hf : r.envelope.fence = false := by
          cases hf : r.envelope.fence with
          | true => exact absurd (Or.inl hf) hcase
          | false => rfl
        rcases ht.uncut hf with h2 | h2
        · exact absurd (Or.inr h2) hcase
        · have hfirst : r.envelope.first = t.place.sequence + 1 :=
            ((Header.follows_iff.1 hacc.follows).2.2.2.2 hf).1
          omega
      rw [hself]
      rfl
  · show (if r.envelope.fence = true ∨ r.envelope.last ≤ base then s.index else _ : Index).map.length ≤ _
    split
    · exact hr.room
    · rename_i hcase
      simp only [not_or, Bool.not_eq_true, not_le] at hcase
      have hin := ht.entries_in t.header.number
      rw [hh, hr.imageBytes] at hin
      have hlen := Interval.length_replay_le (Entry.In.bounds hin) hr.ordered
      have hds : (r.mutations t.header.number).length = r.envelope.descriptors := by
        simp [Record.mutations, Record.descriptors, Header.descriptors, Record.header]
      rw [length_map, hds] at hlen
      exact hlen.trans (ht.room hcase.1 hcase.2)
  · refine hr.roomy.push hr.wf hacc fun hf hlt => ?_
    have hroom := ht.room hf hlt
    rwa [hr.index, hseq] at hroom
  · intro u hu x hx hf
    rcases Trace.mem_push hu hx with rfl | ⟨v, hv, hx⟩
    · exact ht.uncut hf
    · exact hr.uncut v hv x hx hf
  · intro u hu x hx hlt
    rcases Trace.mem_push hu hx with rfl | ⟨v, hv, hx⟩
    · exact ht.verified hlt
    · exact hr.verified v hv x hx hlt
  · rw [Trace.cursor_concat, SegmentTrace.push_cursor, ← Trace.cursor_concat, ← hr.cursor]
    simp only [after, Place.next, ← hoff, ← hbat]
  · have henc := hr.encoded
    simp only [map_append, map_cons, map_nil, sum_append, sum_cons,
      sum_nil, SegmentTrace.push_place] at henc ⊢
    show s.encodedBytes + r.length = _
    simp only [Place.next]
    omega

/-! A second scan `s₂` has accepted the same records under a later manifest prefix. -/

section Above

variable {later : Nat} {s₂ : Scan} {r : Record}

theorem Replayed.place_above (hr : s.Replayed origin config limits base ts t)
    (hr₂ : s₂.Replayed origin config limits later ts t) :
    s₂.offset = s.offset ∧ s₂.nextBatch = s.nextBatch ∧ s₂.published = s.published := by
  have h : s₂.place = s.place := hr₂.place.trans hr.place.symm
  exact ⟨congrArg Place.offset h, congrArg Place.batch h, congrArg Place.sequence h⟩

theorem Replayed.length_above (hr : s.Replayed origin config limits base ts t)
    (hr₂ : s₂.Replayed origin config limits later ts t) (hle : base ≤ later)
    (hpub : later ≤ s.published) : s₂.index.map.length ≤ s.index.map.length := by
  rw [hr.index, hr₂.index, (hr.place_above hr₂).2.2]
  exact Trace.length_indexed_above hr.wf hle hpub

theorem Replayed.takes_above (hr : s.Replayed origin config limits base ts t)
    (hr₂ : s₂.Replayed origin config limits later ts t) (hle : base ≤ later)
    (ht : s.Takes limits segment base r)
    (hcut : r.envelope.fence = false → r.envelope.last ≤ later ∨ later < r.envelope.first) :
    s₂.Takes limits segment later r := by
  refine ⟨?_, hcut, ?_, fun hlt => ht.verified (lt_of_le_of_lt hle hlt)⟩
  · rw [hr₂.place, ← hr.place]
    exact ht.accepts
  · intro hf hlt
    have hfirst : r.envelope.first = s.published + 1 :=
      ((Header.follows_iff.1 ht.accepts.follows).2.2.2.2 hf).1
    have hlen := hr.length_above hr₂ hle (by have := hcut hf; omega)
    exact (Nat.add_le_add_right hlen _).trans (ht.room hf (lt_of_le_of_lt hle hlt))

theorem Replayed.replayOne_above (hr : s.Replayed origin config limits base ts t)
    (hr₂ : s₂.Replayed origin config limits later ts t) (hh : segment.header = t.header)
    (ht : s₂.Takes limits segment later r) (hst : r.Stored file) (hoff : s.offset % BLOCK_SIZE = 0)
    (hbatch : s.nextBatch + 1 < U64) :
    s₂.replayOne config limits segment file later =
      .ok (some (s₂.after segment.header.number later r)) := by
  obtain ⟨ho, hb, -⟩ := hr.place_above hr₂
  refine replayOne_intact ht (hst.intact _) (by rw [hh, hr.imageBytes]) hr₂.ordered ?_
    (by rw [ho]; exact hoff) (by rw [hb]; exact hbatch)
  rw [hr₂.index]

/-- What the first scan rejects past the later prefix the second one rejects too. -/
theorem Replayed.replayOne_none_above (hr : s.Replayed origin config limits base ts t)
    (hr₂ : s₂.Replayed origin config limits later ts t) (hle : base ≤ later)
    (hpub : later ≤ s.published) (h : s.replayOne config limits segment file base = .ok none) :
    s₂.replayOne config limits segment file later = .ok none := by
  obtain ⟨ho, hb, hp⟩ := hr.place_above hr₂
  have hlen := hr.length_above hr₂ hle hpub
  unfold replayOne at h ⊢
  rw [ho, hb, hp]
  split at h
  · rename_i hshort
    rw [if_pos hshort]
  rename_i hshort
  rw [if_neg hshort]
  obtain ⟨buffer, hbuf, h⟩ := bind_eq_ok.1 h
  rw [hbuf, ok_bind]
  cases hdec : Header.decode buffer config.imageBytes with
  | error e => rfl
  | ok hd =>
    rw [hdec] at h
    simp only at h ⊢
    split at h
    · rename_i hf
      rw [if_pos hf]
    rename_i hf
    rw [if_neg hf]
    obtain ⟨replayed, hrep, h⟩ := bind_eq_ok.1 h
    cases replayed with
    | some s₁ =>
      obtain ⟨s₃, -, h⟩ := bind_eq_ok.1 h
      cases h
    | none =>
      have hfollows := Header.follows_iff.1 (by simpa using hf)
      split at hrep
      · cases hrep
      rename_i hfence
      rw [if_neg hfence]
      have hfirst : hd.envelope.first = s.published + 1 :=
        (hfollows.2.2.2.2 (by simpa using hfence)).1
      have hlast : hd.envelope.first ≤ hd.envelope.last := by
        have := ((Header.valid_of_decode hdec).data (by simpa using hfence)).2.2.1
        omega
      have hver : s₂.verifies file hd = s.verifies file hd := by rw [verifies, verifies, ho]
      suffices s₂.replayData limits segment file later hd = .ok none by rw [this]; rfl
      -- the batch lies past both prefixes, so both scans read its payload
      unfold replayData at hrep ⊢
      simp only at hrep ⊢
      rw [if_neg (by omega), if_neg (by omega)] at hrep ⊢
      split at hrep
      · cases hrep
      rename_i hroom
      rw [if_neg (by omega), hver]
      obtain ⟨verified, hv, hrep⟩ := bind_eq_ok.1 hrep
      rw [hv, ok_bind]
      cases verified with
      | false => rfl
      | true =>
        obtain ⟨_, -, hrep⟩ := bind_eq_ok.1 hrep
        cases hrep

end Above

/-- The record loop accepts a run of stored records and stops at the end of the file, or before a
record it rejects. A scan under a later manifest prefix does the same, unless the prefix splits an
accepted record or lies past the rejected one. -/
theorem replayAll_ok : ∀ {fuel : Nat} {s s' : Scan} {t : SegmentTrace} {rejected : Bool},
    s.Replayed origin config limits base ts t → segment.header = t.header →
    replayAll config limits segment file base fuel s = .ok (s', rejected) →
    ∃ rs, s'.Replayed origin config limits base ts ⟨t.header, t.records ++ rs⟩ ∧
      (∀ r ∈ rs, r.Stored file) ∧ s'.segments = s.segments ∧
      s'.allocatedBytes = s.allocatedBytes ∧ (rejected = true → s'.offset < file.length) ∧
      (rejected = false → file.length ≤ s.offset + fuel → file.length ≤ s'.offset) ∧
      ∀ {later : Nat} {s₂ : Scan}, base ≤ later → s₂.Replayed origin config limits later ts t →
        Trace.Uncut [⟨t.header, rs⟩] later → (rejected = true → later ≤ s'.published) →
        ∃ s₃, replayAll config limits segment file later fuel s₂ = .ok (s₃, rejected) ∧
          s₃.Replayed origin config limits later ts ⟨t.header, t.records ++ rs⟩ ∧
          s₃.segments = s₂.segments ∧ s₃.allocatedBytes = s₂.allocatedBytes
  | 0, s, s', t, rejected, hr, _, h => by
    obtain ⟨rfl, rfl⟩ := Prod.mk.inj (Except.ok.inj h)
    exact ⟨[], by simpa using hr, by simp, rfl, rfl, nofun, fun _ hf => by simpa using hf,
      fun _ hr₂ _ _ => ⟨_, rfl, by simpa using hr₂, rfl, rfl⟩⟩
  | fuel + 1, s, s', t, rejected, hr, hh, h => by
    rw [replayAll] at h
    split at h
    · rename_i hlt
      obtain ⟨o, ho, h⟩ := bind_eq_ok.1 h
      cases o with
      | none =>
        obtain ⟨rfl, rfl⟩ := Prod.mk.inj (Except.ok.inj h)
        refine ⟨[], by simpa using hr, by simp, rfl, rfl, fun _ => hlt, nofun, ?_⟩
        intro later s₂ hle hr₂ _ hpub
        refine ⟨s₂, ?_, by simpa using hr₂, rfl, rfl⟩
        rw [replayAll, (hr.place_above hr₂).1, if_pos hlt,
          hr.replayOne_none_above hr₂ hle (hpub rfl) ho]
        rfl
      | some s₁ =>
        obtain ⟨r, ht, hst, rfl, hoff, hbatch⟩ :=
          replayOne_some (by rw [hh, hr.imageBytes]) hr.ordered ho
        have hpush := hr.push ht hh
        rw [hh] at h
        obtain ⟨rs, h1, h2, h3, h4, h5, h6, h7⟩ := replayAll_ok hpush hh h
        refine ⟨r :: rs, ?_, ?_, h3, h4, h5, ?_, ?_⟩
        · simpa [SegmentTrace.push] using h1
        · exact forall_mem_cons.2 ⟨hst, h2⟩
        · intro hf hfuel
          apply h6 hf
          show file.length ≤ s.offset + r.length + fuel
          simp only [Record.length, Header.length, BLOCK_SIZE]
          omega
        · intro later s₂ hle hr₂ hcut hpub
          have ht₂ := hr.takes_above hr₂ hle ht
            (hcut ⟨t.header, r :: rs⟩ (mem_singleton.2 rfl) r mem_cons_self)
          have hcut' : Trace.Uncut [⟨t.header, rs⟩] later := by
            intro u hu r' hr'
            obtain rfl := mem_singleton.1 hu
            exact hcut ⟨t.header, r :: rs⟩ (mem_singleton.2 rfl) r' (mem_cons_of_mem _ hr')
          have hpush₂ := hr₂.push ht₂ hh
          obtain ⟨s₃, hall, hr₃, hseg, hal⟩ := h7 hle hpush₂ hcut' hpub
          refine ⟨s₃, ?_, by simpa [SegmentTrace.push] using hr₃, hseg, hal⟩
          rw [replayAll, (hr.place_above hr₂).1, if_pos hlt,
            hr.replayOne_above hr₂ hh ht₂ hst hoff hbatch, hh]
          exact hall
    · rename_i hge
      obtain ⟨rfl, rfl⟩ := Prod.mk.inj (Except.ok.inj h)
      refine ⟨[], by simpa using hr, by simp, rfl, rfl, nofun, fun _ _ => not_lt.1 hge, ?_⟩
      intro later s₂ _ hr₂ _ _
      refine ⟨s₂, ?_, by simpa using hr₂, rfl, rfl⟩
      rw [replayAll, (hr.place_above hr₂).1, if_neg hge]

end Segment

/-! ## All segments -/

/-- `Segment::open` reads the header block of a file of this name. -/
theorem openFile_eq_ok {number : Nat} {g : Segment} (h : Segment.openFile number file = .ok g) :
    BLOCK_SIZE ≤ file.length ∧ SegmentHeader.decode (file.slice 0 BLOCK_SIZE) = .ok g.header ∧
      g.header.number = number ∧ g.header.capacity / BLOCK_SIZE < 2 ^ 32 ∧
      g = ⟨g.header, file.length⟩ := by
  obtain ⟨buffer, hb, h⟩ := bind_eq_ok.1 h
  obtain ⟨-, hlen, rfl⟩ := readBytes_eq_ok.1 hb
  obtain ⟨header, hd, h⟩ := bind_eq_ok.1 h
  rw [ite_error_eq_ok, ite_error_eq_ok] at h
  obtain ⟨h1, h2, h3⟩ := h
  have h3 := Except.ok.inj h3
  subst h3
  exact ⟨by omega, Except.mapError_eq_ok.1 hd, not_not.1 h1, Nat.lt_of_not_le h2, rfl⟩

/-- Only a file shorter than its header block opens with `UnexpectedEof`. -/
theorem openFile_eof {number : Nat} {e : IoError} (h : Segment.openFile number file = .error e)
    (hk : e.kind = .unexpectedEof) : file.length < BLOCK_SIZE := by
  unfold Segment.openFile at h
  cases hb : readBytes file 0 BLOCK_SIZE with
  | error e' =>
    unfold readBytes at hb
    rw [if_neg (by decide)] at hb
    split at hb
    · cases hb
    · omega
  | ok buffer =>
    exfalso
    rw [hb, ok_bind] at h
    cases hd : SegmentHeader.decode buffer with
    | error f =>
      rw [hd] at h
      cases f with
      | invalid m =>
        have h := Except.error.inj h
        subst h
        cases hk
    | ok header =>
      rw [hd] at h
      simp only [Except.mapError, ok_bind] at h
      split at h
      · have h := Except.error.inj h
        subst h
        cases hk
      · split at h
        · have h := Except.error.inj h
          subst h
          cases hk
        · cases h

/-- The scan between two segments: it accepted `ts`, in files that occupy `allocated` bytes. -/
structure Matches (s : Scan) (origin : Tail) (config : Config) (limits : Limits) (base : Nat)
    (ts : Trace) (allocated : Nat) : Prop where
  wf : ts.Wf origin config
  published : s.published = (final Tail.next origin ts).sequence
  place : ∀ t, ts.getLast? = some t → s.place = t.place
  index : s.index = ⟨ts.indexed base s.published, limits.intervals⟩
  room : s.index.map.length ≤ limits.intervals
  roomy : ts.Roomy limits base
  uncut : ts.Uncut base
  verified : ts.VerifiedAbove base
  cursor : s.cursor = ts.cursor base
  encoded : s.encodedBytes = (ts.map fun t => t.place.offset).sum
  segments : s.segments = ts.map SegmentTrace.segment
  allocated : s.allocatedBytes = allocated

section Segments

variable {origin : Tail} {ts : Trace} {done : List Candidate} {c : Candidate}

theorem Matches.enter {allocated : Nat} (hm : s.Matches origin config limits base ts allocated)
    (hopen : Segment.openFile c.number c.bytes = .ok segment)
    (hconf : config.matchesHeader segment.header = true)
    (hprec : segment.header.precedingSequence = s.published)
    (hnum : (final Tail.next origin ts).number < segment.header.number) :
    (s.enter segment c.allocated).Replayed origin config limits base ts ⟨segment.header, []⟩ := by
  obtain ⟨-, hdec, -⟩ := openFile_eq_ok hopen
  obtain ⟨hv, hf⟩ := SegmentHeader.valid_of_decode hdec
  refine ⟨hm.wf.concat ⟨hnum, ?_, hconf, hv, hf, trivial⟩, ?_, ?_, hm.room, hm.roomy.enter _, ?_, ?_,
    ?_, ?_⟩
  · rw [hprec, hm.published]
  · show Place.mk BLOCK_SIZE 1 s.published = _
    rw [← hprec]
    rfl
  · show s.index = _
    rw [hm.index, Trace.indexed, Trace.indexed, Trace.mutations_enter]
    rfl
  · intro u hu
    rcases mem_append.1 hu with hu | hu
    · exact hm.uncut u hu
    · rw [mem_singleton.1 hu]
      intro r hr
      cases hr
  · intro u hu
    rcases mem_append.1 hu with hu | hu
    · exact hm.verified u hu
    · rw [mem_singleton.1 hu]
      intro r hr
      cases hr
  · rw [Trace.cursor_concat, ← hm.cursor]
    rfl
  · show s.encodedBytes + BLOCK_SIZE = _
    rw [hm.encoded]
    simp only [map_append, map_cons, map_nil, sum_append, sum_cons,
      sum_nil]
    rfl

/-- A replayed segment is accepted with the records it has. -/
theorem Replayed.leave {t : SegmentTrace} (hr : s.Replayed origin config limits base ts t)
    (hseg : s.segments = ts.map SegmentTrace.segment ++ [segment]) (hh : segment.header = t.header) :
    (s.leave segment).Matches origin config limits base (ts ++ [t]) s.allocatedBytes := by
  have hoff : s.offset = t.place.offset := congrArg Place.offset hr.place
  refine ⟨hr.wf, ?_, ?_, hr.index, hr.room, hr.roomy, hr.uncut, hr.verified, hr.cursor, hr.encoded, ?_,
    rfl⟩
  · rw [final_concat]
    exact congrArg Place.sequence hr.place
  · intro u hu
    rw [getLast?_concat] at hu
    rw [← Option.some.inj hu]
    exact hr.place
  · show s.segments.dropLast ++ [{ segment with stop := s.offset }] = _
    rw [hseg, dropLast_concat, map_append, hoff, hh]
    rfl

/-- How the accepted files end: everything was read, or a cut separates the accepted records from
the rejected rest. -/
structure Ends (ts : Trace) (done rest : List Candidate) (rejected : Option (Nat × Nat)) : Prop where
  whole : ∀ (i : Nat) (t : SegmentTrace) (c : Candidate), ts[i]? = some t → done[i]? = some c →
    rejected.map Prod.fst ≠ some i → t.place.offset = c.bytes.length
  all : rejected = none → rest = []
  cut : ∀ j o, rejected = some (j, o) →
    (o = 0 ∧ j = done.length ∧ ∃ c cs, rest = c :: cs ∧ c.bytes.length < BLOCK_SIZE) ∨
      ∃ t c, ts.getLast? = some t ∧ done.getLast? = some c ∧ j + 1 = done.length ∧
        o = t.place.offset ∧ o < c.bytes.length

omit [Digest] in
theorem getElem?_concat {α : Type} {l : List α} {a b : α} {i : Nat}
    (h : (l ++ [a])[i]? = some b) : l[i]? = some b ∨ i = l.length ∧ a = b := by
  rcases Nat.lt_or_ge i l.length with hi | hi
  · rw [List.getElem?_append_left hi] at h
    exact Or.inl h
  · rw [List.getElem?_append_right hi] at h
    obtain ⟨hlt, hget⟩ := List.getElem?_eq_some_iff.1 h
    rw [List.length_singleton] at hlt
    right
    have : i - l.length = 0 := by omega
    simp only [this, List.getElem_cons_zero] at hget
    exact ⟨by omega, hget⟩

theorem place_offset_le {t : SegmentTrace} (hw : t.Wf) (hs : t.StoredIn c) :
    t.place.offset ≤ c.bytes.length := by
  rcases eq_nil_or_concat t.records with hn | ⟨rs, r, hr⟩
  · rw [SegmentTrace.place, hn]
    exact hs.length
  · rw [concat_eq_append] at hr
    have hc := hw.chain
    rw [hr, Chain.concat] at hc
    rw [SegmentTrace.place, hr, final_concat, Place.next, ← hc.2.offset]
    exact (hs.records r (by simp [hr])).1

theorem inspectFrom_ok : ∀ {cs done : List Candidate} {s s' : Scan} {ts : Trace}
    {rejected : Option (Nat × Nat)},
    s.Matches origin config limits base ts (done.map Candidate.allocated).sum →
    List.Forall₂ SegmentTrace.StoredIn ts done →
    (∀ t c, ts.getLast? = some t → c ∈ cs → t.header.number < c.number) →
    (ts = [] → origin.number = 0) →
    cs.Pairwise (fun a b => a.number < b.number) →
    (∀ (i : Nat) (t : SegmentTrace) (c : Candidate), ts[i]? = some t → done[i]? = some c →
      t.place.offset = c.bytes.length) →
    inspectFrom config limits base cs done.length s = .ok (s', rejected) →
    ∃ ts' done' rest, done ++ cs = done' ++ rest ∧
      s'.Matches origin config limits base ts' (done'.map Candidate.allocated).sum ∧
      List.Forall₂ SegmentTrace.StoredIn ts' done' ∧ Ends ts' done' rest rejected ∧ ts <+: ts' ∧
      ∀ {later : Nat} {s₂ : Scan}, base ≤ later →
        s₂.Matches origin config limits later ts (done.map Candidate.allocated).sum →
        ts'.Uncut later → later ≤ s'.published →
        ∃ s₃, inspectFrom config limits later cs done.length s₂ = .ok (s₃, rejected) ∧
          s₃.Matches origin config limits later ts' (done'.map Candidate.allocated).sum
  | [], done, s, s', ts, rejected, hm, hstored, _, _, _, hwhole, h => by
    obtain ⟨rfl, rfl⟩ := Prod.mk.inj (Except.ok.inj h)
    exact ⟨ts, done, [], rfl, hm, hstored,
      ⟨fun i t c ht hc _ => hwhole i t c ht hc, fun _ => rfl, nofun⟩, prefix_rfl,
      fun _ hm₂ _ _ => ⟨_, rfl, hm₂⟩⟩
  | c :: cs, done, s, s', ts, rejected, hm, hstored, hlast, hfirst, hsorted, hwhole, h => by
    rw [inspectFrom] at h
    split at h
    · -- a file too short for a header ends the log
      rename_i e hopen
      split at h
      · rename_i hk
        obtain ⟨rfl, rfl⟩ := Prod.mk.inj (Except.ok.inj h)
        refine ⟨ts, done, c :: cs, rfl, hm, hstored,
          ⟨fun i t c ht hc _ => hwhole i t c ht hc, nofun, ?_⟩, prefix_rfl, ?_⟩
        · intro j o hj
          obtain ⟨rfl, rfl⟩ := Prod.mk.inj (Option.some.inj hj)
          exact Or.inl ⟨rfl, rfl, c, cs, rfl, openFile_eof hopen hk⟩
        · intro later s₂ _ hm₂ _ _
          exact ⟨s₂, by simp only [inspectFrom, hopen, hk, if_true], hm₂⟩
      · cases h
    · rename_i segment hopen
      rw [ite_error_eq_ok] at h
      obtain ⟨hchain, h⟩ := h
      simp only [not_or, Bool.not_eq_false, ne_eq, not_not] at hchain
      obtain ⟨hconf, hprec, hepoch⟩ := hchain
      obtain ⟨⟨s₁, rej⟩, hall, h⟩ := bind_eq_ok.1 h
      obtain ⟨hblock, hdec, hnumber, -, hgeq⟩ := openFile_eq_ok hopen
      have hv := (SegmentHeader.validate_eq_ok.1 (SegmentHeader.valid_of_decode hdec).1).2.1
      have hnum : (final Tail.next origin ts).number < segment.header.number := by
        rcases eq_nil_or_concat ts with rfl | ⟨us, u, rfl⟩
        · rw [final_nil, hfirst rfl]
          exact Nat.pos_of_ne_zero hv.2
        · rw [concat_eq_append] at hlast ⊢
          rw [final_concat, hnumber]
          exact hlast u c (getLast?_concat ..) (by simp)
      have hrep := hm.enter hopen hconf hprec hnum
      obtain ⟨rs, h1, h2, h3, h4, h5, h6, h7⟩ := replayAll_ok hrep rfl hall
      simp only [nil_append] at h1
      have hst : SegmentTrace.StoredIn ⟨segment.header, rs⟩ c :=
        ⟨hnumber.symm, hblock, hdec, h2⟩
      have hleave := h1.leave (by rw [h3, ← hm.segments]; rfl) rfl
      have hsum : s₁.allocatedBytes = ((done ++ [c]).map Candidate.allocated).sum := by
        rw [h4, map_append, sum_append, ← hm.allocated]
        simp [enter]
      rw [hsum] at hleave
      have hall' := rel_append hstored (List.Forall₂.cons hst List.Forall₂.nil)
      have hlen := hstored.length_eq
      have hoff : s₁.offset = (SegmentTrace.place ⟨segment.header, rs⟩).offset :=
        congrArg Place.offset h1.place
      -- the same segment under a later prefix
      have hlater : ∀ {later : Nat} {s₂ : Scan}, base ≤ later →
          s₂.Matches origin config limits later ts (done.map Candidate.allocated).sum →
          Trace.Uncut (ts ++ [⟨segment.header, rs⟩]) later → (rej = true → later ≤ s₁.published) →
          ∃ s₃, inspectFrom config limits later (c :: cs) done.length s₂ =
              (if rej then .ok (s₃, some (done.length, s₃.offset))
                else inspectFrom config limits later cs (done.length + 1) s₃) ∧
            s₃.Matches origin config limits later (ts ++ [⟨segment.header, rs⟩])
              ((done ++ [c]).map Candidate.allocated).sum := by
        intro later s₂ hle hm₂ hcut hpub
        have hpub₂ : s₂.published = s.published := hm₂.published.trans hm.published.symm
        have hseg₂ : s₂.segments = s.segments := hm₂.segments.trans hm.segments.symm
        have hrep₂ := hm₂.enter hopen hconf (hprec.trans hpub₂.symm) hnum
        obtain ⟨s₃, hall₂, hr₃, hs₃, ha₃⟩ := h7 hle hrep₂
          (fun u hu => hcut u (mem_append_right _ hu)) hpub
        simp only [nil_append] at hr₃
        have hleave₂ := hr₃.leave (by rw [hs₃, ← hm₂.segments]; rfl) rfl
        have hsum₂ : s₃.allocatedBytes = ((done ++ [c]).map Candidate.allocated).sum := by
          rw [ha₃, map_append, sum_append, ← hm₂.allocated]
          simp [enter]
        rw [hsum₂] at hleave₂
        refine ⟨s₃.leave segment, ?_, hleave₂⟩
        rw [inspectFrom, hopen]
        simp only [hconf, hpub₂, hseg₂, hprec, hepoch, ne_eq, not_true_eq_false, Bool.true_eq_false,
          or_self, if_false, hall₂, ok_bind, Bool.false_eq_true]
      simp only at h
      cases rej with
      | true =>
        rw [if_pos rfl] at h
        obtain ⟨rfl, rfl⟩ := Prod.mk.inj (Except.ok.inj h)
        refine ⟨_, done ++ [c], cs, by simp, hleave, hall', ⟨?_, nofun, ?_⟩,
          prefix_append _ _, ?_⟩
        · intro i t c' ht hc' hne
          rcases getElem?_concat ht with ht | ⟨hi, -⟩
          · rcases getElem?_concat hc' with hc' | ⟨hi, -⟩
            · exact hwhole i t c' ht hc'
            · have := (List.getElem?_eq_some_iff.1 ht).1
              omega
          · rw [hi, hlen] at hne
            exact absurd rfl hne
        · intro j o hj
          obtain ⟨rfl, rfl⟩ := Prod.mk.inj (Option.some.inj hj)
          refine Or.inr ⟨_, c, getLast?_concat .., getLast?_concat .., by simp, hoff, ?_⟩
          exact h5 rfl
        · intro later s₂ hle hm₂ hcut hpub
          obtain ⟨s₃, hrun, hm₃⟩ := hlater hle hm₂ hcut fun _ => hpub
          have hoff₃ : s₃.offset = (s₁.leave segment).offset := congrArg Place.offset
            ((hm₃.place _ (getLast?_concat ..)).trans
              (hleave.place _ (getLast?_concat ..)).symm)
          exact ⟨s₃, by rw [hrun, if_pos rfl, hoff₃], hm₃⟩
      | false =>
        rw [if_neg (by simp)] at h
        have hend : (SegmentTrace.place ⟨segment.header, rs⟩).offset = c.bytes.length := by
          have hge := h6 rfl (Nat.le_add_left _ _)
          have hle := place_offset_le h1.active.2 hst
          omega
        rw [show done.length + 1 = (done ++ [c]).length by simp] at h
        obtain ⟨hhead, htail⟩ := pairwise_cons.1 hsorted
        obtain ⟨ts', done', rest, heq, hm', hs', he, hext, hrest⟩ := inspectFrom_ok hleave hall'
          (fun t c' ht hc' => by
            rw [getLast?_concat] at ht
            rw [← Option.some.inj ht]
            show segment.header.number < c'.number
            rw [hnumber]
            exact hhead c' hc')
          (fun hnil => absurd hnil (by simp)) htail
          (fun i t c' ht hc' => by
            rcases getElem?_concat ht with ht | ⟨hi, rfl⟩
            · rcases getElem?_concat hc' with hc' | ⟨hi, -⟩
              · exact hwhole i t c' ht hc'
              · have := (List.getElem?_eq_some_iff.1 ht).1
                omega
            · rcases getElem?_concat hc' with hc' | ⟨-, rfl⟩
              · have := (List.getElem?_eq_some_iff.1 hc').1
                omega
              · exact hend) h
        refine ⟨ts', done', rest, by simpa using heq, hm', hs', he,
          (prefix_append _ _).trans hext, ?_⟩
        intro later s₂ hle hm₂ hcut hpub
        obtain ⟨s₃, hrun, hm₃⟩ := hlater hle hm₂ (fun u hu => hcut u (hext.subset hu)) nofun
        obtain ⟨s₄, hrun', hm₄⟩ := hrest hle hm₃ hcut hpub
        refine ⟨s₄, ?_, hm₄⟩
        rw [hrun, if_neg (by simp)]
        simpa using hrun'

end Segments

end Scan

end Cas.Append
