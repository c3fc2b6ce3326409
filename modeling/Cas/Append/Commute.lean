import Cas.Append.Canonical
import Cas.Append.Crash

/-!
# Recovery commutes with compaction

Compaction under a live log discards the mappings it made durable; recovery never replays them. Both
give the same index: overwriting cuts the older entries, but what it leaves of an entry keeps its
mutation, so discarding by sequence may come before or after.
-/

namespace Cas.Append

open Bytes List

theorem Log.exists_inspectIn_zero :
    let _ := nullDigest
    ∃ (d : Directory) (rec : Recovery), Log.inspectIn d ⟨1060864, 126⟩ 0 = .ok rec ∧
      rec.log.published = 1 ∧ rec.log.index.map = [(0, ⟨4096, 1, none⟩)] := by
  intro _
  let h : SegmentHeader :=
    ⟨⟨replicate 16 1, rfl⟩, ⟨replicate 16 2, rfl⟩, 1, 1, 1060864, 4096, 0⟩
  have hv : h.validate = .ok () := SegmentHeader.validate_eq_ok.2 (by decide)
  have hfits : h.Fits := ⟨by decide, by decide, by decide, by decide, by decide⟩
  obtain ⟨b, hb⟩ : ∃ b, h.encode = .ok b := by
    rw [SegmentHeader.encode, hv]
    exact ⟨_, rfl⟩
  obtain ⟨hdec, hlen⟩ := SegmentHeader.decode_encode hfits hb
  -- the record of the ZERO
  let id : RequestId := ⟨1, 1, 0, 0⟩
  obtain ⟨builder, hnew⟩ : ∃ b, Builder.new 4096 0 = .ok b := ⟨_, rfl⟩
  obtain ⟨himage, hcount, hpayload, hserial⟩ : builder.imageBytes = 4096 ∧ builder.descriptors = 0 ∧
      builder.payloadBytes = 0 ∧ builder.lastSerial = 0 := by
    cases hnew
    exact ⟨rfl, rfl, rfl, rfl⟩
  have hadmits : builder.admits id 0 BLOCK_SIZE 0 = .ok () := by
    rw [Builder.admits_eq_ok, himage, hcount, hserial]
    exact ⟨by decide, by decide, by decide, Nat.zero_le _⟩
  let x : Descriptor := ⟨id, 0, 0, BLOCK_SIZE, 0, 0, 0, .zero⟩
  have hzero : builder.zero id 0 BLOCK_SIZE = (builder.push x, .ok ()) := by
    rw [Builder.zero, hadmits]
  obtain ⟨record, hseal⟩ : ∃ record, (builder.push x).sealBatch 1 1 1 = .ok record := by
    have hd : (builder.push x).descriptors = 1 := by rw [Builder.push, hcount]
    simp [Builder.sealBatch, requireFormat, Except.ensure, Builder.isEmpty, hd, checkedAdd]
  obtain ⟨y, hy, hbuilt⟩ : ∃ y, Builder.Added id .zero 0 BLOCK_SIZE y ∧ (builder.push x).Wf [y] := by
    have hid : RequestId.Fits id := ⟨by decide, by decide, by decide, by decide⟩
    rcases (Builder.wf_new hnew).zero hid 0 BLOCK_SIZE with ⟨-, y, hy, hw⟩ | ⟨⟨e, he⟩, -⟩
    · rw [hzero] at hw
      exact ⟨y, hy, hw⟩
    · rw [hzero] at he
      cases he
  obtain ⟨hreads, henv, -⟩ := hbuilt.sealBatch (by decide) (by decide) hseal
  have hempty : (builder.push x).payloadBytes = 0 := hpayload
  rw [hempty] at henv
  have henv : record.envelope = ⟨1, 1, 1, 0, 1, 1, false⟩ := henv
  have hnone : record.envelope.payloadBytes = 0 := congrArg Envelope.payloadBytes henv
  rw [show (builder.push x).imageBytes = 4096 from himage] at hreads
  let r : Record := ⟨4096, record⟩
  have hrenv : r.envelope = ⟨1, 1, 1, 0, 1, 1, false⟩ := henv
  have hrlen : r.header.length = BLOCK_SIZE := by
    show BLOCK_SIZE + record.envelope.payloadBytes = BLOCK_SIZE
    rw [hnone]
  have hdescs : r.descriptors = [{ y with sequence := 1 }] := hreads.descriptors
  have hacc : (Place.start h).Accepts h r := by
    refine ⟨rfl, hreads.length, hreads.header, Header.follows_iff.2 ?_⟩
    rw [hrlen, show r.header.envelope = ⟨1, 1, 1, 0, 1, 1, false⟩ from henv]
    exact ⟨rfl, rfl, ⟨by decide, by decide, by decide, fun _ => ⟨by decide, by decide⟩⟩,
      (fun hp => by cases hp), fun _ => ⟨rfl, by decide⟩⟩
  have hw : Trace.Wf ⟨0, 0⟩ ⟨h.store, h.image, 4096, 1060864⟩ ([] ++ [⟨h, [r]⟩]) :=
    ⟨⟨zero_lt_one, rfl, decide_eq_true ⟨rfl, rfl, rfl, rfl⟩, hv, hfits, hacc, trivial⟩, trivial⟩
  have honly : ∀ t ∈ ([] ++ [⟨h, [r]⟩] : Trace), ∀ r' ∈ t.records, r' = r := by
    intro t ht r' hr'
    obtain rfl := mem_singleton.1 ht
    exact mem_singleton.1 hr'
  have hrec : Trace.Recoverable ([] ++ [⟨h, [r]⟩]) ⟨1060864, 126⟩ 0 := by
    refine ⟨?_, ?_, ?_⟩
    · intro t ht r' hr' _
      rw [honly t ht r' hr', hrenv]
      exact Or.inr zero_lt_one
    · intro t ht r' hr' _
      rw [honly t ht r' hr']
      exact hreads.payload
    · intro t ht r' hr' _ _
      rw [honly t ht r' hr', hrenv, Trace.indexed, Trace.within_eq_nil]
      · decide
      · intro m _
        show m.sequence ≤ 0 ∨ 0 < m.sequence
        omega
  -- the file holds the header and the record
  let file : Bytes := b ++ record.bytes
  have hrbytes : record.bytes.length = BLOCK_SIZE := by rw [hreads.length, hnone]
  have hfile : file.length = 2 * BLOCK_SIZE := by
    rw [length_append, hlen, hrbytes, two_mul]
  have hblock : ∀ {v : Bytes}, v.length = BLOCK_SIZE → v.slice 0 BLOCK_SIZE = v := by
    intro v hv
    rw [← hv]
    simp [Bytes.slice]
  have htail : file.slice 4096 BLOCK_SIZE = record.bytes.slice 0 BLOCK_SIZE := by
    rw [slice_append_right hlen.le, hlen, Nat.sub_self]
  let d : Directory := ⟨[⟨1, file, 1060864⟩], [], by simp⟩
  have hd : d.candidates = [] ++ [⟨1, file, 1060864⟩] := mergeSort_singleton _
  have hsurvives : SegmentTrace.Survives ⟨h, [r]⟩ ⟨1, file, 1060864⟩ 4096 0 [r] := by
    refine ⟨rfl, by show BLOCK_SIZE ≤ file.length; omega, ?_, [], rfl, ?_, Or.inl ⟨rfl, ?_⟩⟩
    · show SegmentHeader.decode (file.slice 0 BLOCK_SIZE) = .ok h
      rw [slice_append_left (by rw [hlen, zero_add]), hblock hlen]
      exact hdec
    · intro r' hr'
      obtain rfl := mem_singleton.1 hr'
      refine ⟨?_, ?_, ?_⟩
      · show BLOCK_SIZE + r.header.length ≤ file.length
        rw [hrlen, hfile, two_mul]
      · exact htail
      · intro _
        show file.slice (4096 + BLOCK_SIZE) record.envelope.payloadBytes =
          record.bytes.slice BLOCK_SIZE record.envelope.payloadBytes
        rw [hnone]
        simp [Bytes.slice]
    · show file.length = BLOCK_SIZE + r.header.length
      rw [hrlen, hfile, two_mul]
  have hin := Log.inspectIn_survives hd hw hrec (by simp) (by decide) (by decide) .nil hsurvives
    (by decide) (Nat.zero_le _)
  have hpub : (SegmentTrace.place ⟨h, [r]⟩).sequence = 1 := congrArg Envelope.last hrenv
  refine ⟨d, _, hin, hpub, ?_⟩
  show Interval.replay [] ((Trace.within 0 _ _).map Placed.entry) = _
  have hmut : Trace.mutations ([] ++ [⟨h, [r]⟩]) = [⟨1, r, { y with sequence := 1 }⟩] := by
    simp [Trace.mutations, SegmentTrace.mutations, Record.mutations, hdescs, h]
  rw [hmut, hpub, Trace.within_eq_self (by simp [Placed.sequence])]
  simp [Interval.replay, Interval.assign, Placed.entry, located, hy.kind, hy.offset, hy.length]

section Commutes

variable [Digest] {d : Directory} {limits : Limits} {base : Nat} {rec : Recovery}

theorem Log.ofTrace_above {origin : Tail} {config : Config} {closed : Trace} {active : SegmentTrace}
    (hw : (closed ++ [active]).Wf origin config) {later : Nat} (hle : base ≤ later)
    (hpub : later ≤ active.place.sequence) (highest allocated : Nat) :
    Log.ofTrace limits later highest allocated closed active =
      { Log.ofTrace limits base highest allocated closed active with
        index := (Log.ofTrace limits base highest allocated closed active).index.retainAfter later
        cursor := Trace.cursor later (closed ++ [active]) } := by
  unfold Log.ofTrace
  simp only [Index.retainAfter, Trace.indexed_above hw hle hpub]

/-- All mutations of a trace, replayed into an index with room for them. -/
theorem Trace.publishEntries_mutations {origin : Tail} {config : Config} {ts : Trace}
    (hw : ts.Wf origin config) {limit : Nat} (hroom : 2 * ts.mutations.length ≤ limit) :
    Log.publishEntries ⟨[], limit⟩ (ts.mutations.map Placed.entry) =
      some ⟨ts.indexed origin.sequence (final Tail.next origin ts).sequence, limit⟩ := by
  have hin : ∀ e ∈ ts.mutations.map Placed.entry, Entry.In config.imageBytes e := by
    intro e he
    obtain ⟨m, hm, rfl⟩ := mem_map.1 he
    exact Trace.entry_in hw m hm
  rw [Log.publishEntries_of_room hin (Interval.ordered_nil _ _) (by simpa using hroom),
    Trace.indexed, Trace.within_eq_self (Trace.sequence_bounds hw)]

/-- **Recovery commutes with compaction.** The index that recovery builds above the manifest prefix
is that of all accepted batches after their mappings at or below the prefix were discarded. For a
later prefix between two accepted batches recovery accepts the same batches, and its index is the
first one with the mappings at or below the later prefix discarded. -/
theorem Log.inspectIn_commutes (h : Log.inspectIn d limits base = .ok rec) :
    ∃ closed active, rec.Sound d limits base closed active ∧
      (∀ limit, 2 * (Trace.mutations (closed ++ [active])).length ≤ limit →
        ∃ all, Log.publishEntries ⟨[], limit⟩
            ((Trace.mutations (closed ++ [active])).map Placed.entry) = some all ∧
          rec.log.index.map = (all.retainAfter base).map) ∧
      ∀ later, base ≤ later → later ≤ rec.log.published → Trace.Uncut (closed ++ [active]) later →
        ∃ rec', Log.inspectIn d limits later = .ok rec' ∧
          rec'.log = { rec.log with
            index := rec.log.index.retainAfter later
            cursor := rec'.log.cursor } ∧ rec'.rejected = rec.rejected := by
  obtain ⟨closed, active, hs, habove⟩ := Log.sound_above h
  obtain ⟨first, -, hfirst, hw, -⟩ := hs.chain
  have hdet := hs.determined
  have hfinal : (final Tail.next ⟨0, first.header.precedingSequence⟩ (closed ++ [active])).sequence =
      active.place.sequence := by
    rw [final_concat]
    rfl
  have hpub : rec.log.published = active.place.sequence := by rw [hdet]; rfl
  refine ⟨closed, active, hs, ?_, ?_⟩
  · intro limit hroom
    refine ⟨_, Trace.publishEntries_mutations hw hroom, ?_⟩
    rw [hfinal]
    show _ = List.filter _ (Trace.indexed _ _ _)
    rw [Trace.indexed_above hw hfirst (hpub ▸ hs.reached), hdet]
    rfl
  · intro later hle hlater hcut
    obtain ⟨rec', hin, hrej, hlog⟩ := habove later hle hlater hcut
    have hal : rec.log = Log.ofTrace limits base d.highest rec.log.allocatedBytes closed active := by
      conv_lhs => rw [hdet]
      congr 1
      rw [hdet]
      rfl
    refine ⟨rec', hin, ?_, hrej⟩
    rw [Log.ofTrace_above hw hle (hpub ▸ hlater), ← hal] at hlog
    rw [hlog]

end Commutes

/-- The manifest prefix 1 has all of a log of one ZERO. -/
theorem Log.inspectIn_commutes_zero :
    let _ := nullDigest
    ∃ (d : Directory) (rec rec' : Recovery), Log.inspectIn d ⟨1060864, 126⟩ 0 = .ok rec ∧
      rec.log.index.map = [(0, ⟨4096, 1, none⟩)] ∧ Log.inspectIn d ⟨1060864, 126⟩ 1 = .ok rec' ∧
      rec'.log.index = rec.log.index.retainAfter 1 := by
  intro _
  obtain ⟨d, rec, hin, hpub, hindex⟩ := Log.exists_inspectIn_zero
  obtain ⟨closed, active, hsound, -, hlater⟩ := Log.inspectIn_commutes hin
  have hcut : Trace.Uncut (closed ++ [active]) 1 := by
    obtain ⟨first, -, -, hwf, -⟩ := hsound.chain
    have hend := congrArg Log.published hsound.determined
    intro t ht r' hr' _
    have := Trace.last_le hwf ht hr'
    rw [final_concat] at this
    exact Or.inl (this.trans (le_of_eq (hend.symm.trans hpub)))
  obtain ⟨rec', hin', hlog, -⟩ := hlater 1 (Nat.zero_le _) hpub.ge hcut
  exact ⟨d, rec, rec', hin, hindex, hin', congrArg Log.index hlog⟩

end Cas.Append
