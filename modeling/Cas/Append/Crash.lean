import Cas.Append.Resumed
import Cas.Append.Survive

/-!
# Crash recovery of the staging log

A crash keeps what was written before the last completed sync. Each record placed after it either
reached its file or is torn. Inspection then recovers a prefix of what the log issued, never less
than its durable prefix: past the last sync the active segment holds data, and at most the one fence
of the open cohort at its end.
-/

namespace Cas.Append

open Bytes List
open Manifest (View)

namespace Staging

/-- What later recoveries need of a log besides its invariant. -/
structure Replayable (s : Staging) : Prop where
  epochs : s.trace.Pairwise fun a b => a.header.epoch ≤ b.header.epoch
  epoch_le : ∀ t ∈ s.trace, t.header.epoch ≤ t.header.number
  room : ∀ t ∈ s.trace, ∀ r ∈ t.records, r.envelope.fence = false →
    s.log.compacted < r.envelope.last →
      (s.trace.indexed s.log.compacted (r.envelope.first - 1)).length +
        2 * r.envelope.descriptors ≤ s.log.limits.intervals
  pins : s.log.config.segmentBytes / BLOCK_SIZE < 2 ^ 32
  bytes : MAX_BATCH_BYTES + 2 * BLOCK_SIZE ≤ s.log.config.segmentBytes

theorem Replayable.sized {s : Staging} (hp : s.Replayable) : s.Sized := ⟨hp.room, hp.pins, hp.bytes⟩

theorem Replayable.of_sized {s : Staging}
    (h1 : s.trace.Pairwise fun a b => a.header.epoch ≤ b.header.epoch)
    (h2 : ∀ t ∈ s.trace, t.header.epoch ≤ t.header.number) (h : s.Sized) : s.Replayable :=
  ⟨h1, h2, h.roomy, h.pins, h.bytes⟩

section Keep

variable [Digest] {s : Staging}

omit [Digest] in
/-- A placed record does not change the headers of the segments. -/
theorem Replayable.pushed (hp : s.Replayable) {sub : Submission} {l : Log}
    (h : (s.pushed sub l).Sized) : (s.pushed sub l).Replayable := by
  have hep := hp.epochs
  rw [Staging.trace, pairwise_append] at hep
  refine .of_sized ?_ ?_ h
  · show (s.closed ++ [s.active.push ⟨sub.offset, sub.batch⟩]).Pairwise _
    rw [pairwise_append]
    refine ⟨hep.1, pairwise_singleton _ _, ?_⟩
    intro a hmem b hb
    rw [mem_singleton.1 hb]
    exact hep.2.2 a hmem s.active (by simp)
  · intro t ht
    rcases mem_append.1 ht with ht | ht
    · exact hp.epoch_le t (mem_append_left _ ht)
    · rw [mem_singleton.1 ht]
      exact hp.epoch_le s.active (by simp [Staging.trace])

theorem Replayable.enter (hp : s.Replayable) {h : SegmentHeader} {l : Log} (hh : s.Continues h)
    (hle : h.epoch ≤ h.number) (hepoch : h.epoch = s.active.header.epoch ∨ h.epoch = h.number)
    (hs : (s.rotated h l).Sized) : (s.rotated h l).Replayable := by
  have htrace : (s.rotated h l).trace = s.trace ++ [⟨h, []⟩] := rfl
  refine .of_sized ?_ ?_ hs
  · rw [htrace, pairwise_append]
    refine ⟨hp.epochs, pairwise_singleton _ _, ?_⟩
    intro a hmem b hb
    rw [mem_singleton.1 hb]
    have hact : a.header.epoch ≤ s.active.header.epoch := by
      rcases mem_append.1 hmem with hm | hm
      · have hep := hp.epochs
        rw [Staging.trace, pairwise_append] at hep
        exact hep.2.2 a hm s.active (by simp)
      · rw [mem_singleton.1 hm]
    rcases hepoch with he | he
    · show a.header.epoch ≤ h.epoch
      rw [he]
      exact hact
    · have h1 := hp.epoch_le s.active (by simp [Staging.trace])
      have h2 := hh.number
      show a.header.epoch ≤ h.epoch
      omega
  · intro t ht
    rw [htrace] at ht
    rcases mem_append.1 ht with ht | ht
    · exact hp.epoch_le t ht
    · rw [mem_singleton.1 ht]
      exact hle

/-- A recovery may start from any batch boundary that the manifest can have reached. -/
theorem Sized.recoverable (h : s.Sized) (hi : s.Inv) {base : Nat} (hbase : s.log.compacted ≤ base)
    (hu : s.trace.Uncut base) : s.trace.Recoverable s.log.limits base :=
  ⟨hu, fun t ht r hr hlt => hi.verified t ht r hr (by omega), h.roomy.above hi.trace hbase⟩

end Keep

/-! ## Runs -/

/-- One step of a running log. Submissions are published in any order the log allows; the creation
and installation of a segment is one step. A compaction receipt ends at a batch boundary. -/
inductive Step [Digest] : Staging → Staging → Prop
  | append {s : Staging} {b : Builder} {sub : Submission} {l : Log} (hb : b.Built)
      (h : s.log.prepareAppend b = .ok (sub, l)) : Step s (s.pushed sub l)
  | publish {s : Staging} {sub : Submission} {l : Log} (hsub : s.Issued sub)
      (h : s.log.publishAppend sub = .ok l) : Step s { s with log := l }
  | fence {s : Staging} {sub : Submission} {l : Log} (h : s.log.prepareFence = .ok (sub, l)) :
      Step s (s.pushed sub l)
  | sync {s : Staging} {sub : Submission} {l : Log} (h : s.log.completeSync sub = .ok l) :
      Step s (s.syncedNow l)
  | rollover {s : Staging} {kind : RotationKind} {r : Rotation} {l l' : Log} {c : Creation}
      {made : Rotated} (h : s.log.prepareRotation kind = .ok (r, l)) (hc : c.Follows s.log)
      (hm : r.create c = .ok made) (hi : l.installRotation made = (l', .ok ())) :
      Step s (s.rotated made.segment.header l')
  | compact {s : Staging} {c : Compacted} {l : Log} (h : s.log.publishCompaction c = .ok l)
      (hu : s.trace.Uncut c.view.commit.durable) : Step s { s with log := l }

/-- The runs of a log from its creation, step by step as in `Step`. -/
inductive Run [Digest] : Staging → Prop
  | create {config : Config} {limits : Limits} {base : Option View} {c : Creation} {l : Log}
      (hfit : config.Fits) (h : Log.create config limits base c = .ok l) : Run (created l)
  | append {s : Staging} {b : Builder} {sub : Submission} {l : Log} (hs : Run s) (hb : b.Built)
      (h : s.log.prepareAppend b = .ok (sub, l)) : Run (s.pushed sub l)
  | publish {s : Staging} {sub : Submission} {l : Log} (hs : Run s) (hsub : s.Issued sub)
      (h : s.log.publishAppend sub = .ok l) : Run { s with log := l }
  | fence {s : Staging} {sub : Submission} {l : Log} (hs : Run s)
      (h : s.log.prepareFence = .ok (sub, l)) : Run (s.pushed sub l)
  | sync {s : Staging} {sub : Submission} {l : Log} (hs : Run s)
      (h : s.log.completeSync sub = .ok l) : Run (s.syncedNow l)
  | rollover {s : Staging} {kind : RotationKind} {r : Rotation} {l l' : Log} {c : Creation}
      {made : Rotated} (hs : Run s) (h : s.log.prepareRotation kind = .ok (r, l))
      (hc : c.Follows s.log) (hm : r.create c = .ok made)
      (hi : l.installRotation made = (l', .ok ())) : Run (s.rotated made.segment.header l')
  | compact {s : Staging} {c : Compacted} {l : Log} (hs : Run s)
      (h : s.log.publishCompaction c = .ok l) (hu : s.trace.Uncut c.view.commit.durable) :
      Run { s with log := l }

section Runs

variable [Digest] {s : Staging}

theorem Inv.rollover (hi : s.Inv) {kind : RotationKind} {r : Rotation} {l l' : Log} {c : Creation}
    {made : Rotated} (h : s.log.prepareRotation kind = .ok (r, l)) (hc : c.Follows s.log)
    (hm : r.create c = .ok made) (hinst : l.installRotation made = (l', .ok ())) :
    (s.rotated made.segment.header l').Inv ∧ s.Continues made.segment.header ∧
      made.segment.header.epoch = (kind.epoch s.active.header.epoch).getD made.segment.header.number ∧
      l'.compacted = s.log.compacted ∧ l'.limits = s.log.limits ∧ l'.config = s.log.config := by
  have hinv := hi.prepareRotation h
  obtain ⟨rfl, rfl, -⟩ := prepareRotation_eq_ok h
  obtain ⟨number, hn, hv, rfl⟩ := Rotation.create_eq_ok hm
  have hcur : s.log.current.header.epoch = s.active.header.epoch := by rw [hi.current]; rfl
  have hepoch : ∀ e, kind.epoch s.log.current.header.epoch = some e → e < U64 := by
    intro e he
    cases kind with
    | rollover =>
      rw [← Option.some.inj he, hcur]
      exact hi.active_accepts.2.fits.epoch
    | freshAttachment => cases he
  have hcont := hinv.toPositions.continues hepoch hn hc hv
  have hcont' : s.Continues _ :=
    ⟨hcont.valid, hcont.fits, hcont.config, hcont.number, hcont.sequence⟩
  refine ⟨hinv.install hinst rfl hcont, hcont', ?_, ?_⟩
  · rw [← hcur]
    rfl
  · obtain ⟨-, allocated, rfl⟩ := installRotation_eq_ok hinst
    exact ⟨rfl, rfl, rfl⟩

/-- A step keeps the history under the log, and the room of a later recovery. -/
theorem Step.keeps {s' : Staging} (h : s.Step s') (hi : s.Inv) (hz : s.Sized) :
    s'.Inv ∧ s'.Sized := by
  cases h with
  | append hb h =>
    obtain ⟨ds, hw⟩ := hb.wf
    exact ⟨hi.append hw h, hz.append hi hw h⟩
  | publish hsub h =>
    obtain ⟨_, _, _, -, -, -, -, -, -, -, -, heq⟩ := hi.publish_record hsub h
    refine ⟨hi.publish hsub h, ?_⟩
    rw [heq]
    exact hz.of_log rfl rfl rfl
  | fence h => exact ⟨hi.fence h, hz.fence hi.toPositions h⟩
  | sync h =>
    obtain ⟨-, -, -, -, -, -, heq⟩ := Log.completeSync_eq_ok.1 h
    refine ⟨hi.sync h, ?_⟩
    rw [heq]
    exact hz.of_log rfl rfl rfl
  | rollover h hc hm hinst =>
    obtain ⟨hinv, -, -, hd, hl, hcfg⟩ := hi.rollover h hc hm hinst
    exact ⟨hinv, hz.enter _ hd hl hcfg⟩
  | compact h hu => exact ⟨(hi.compact h hu).1, hz.compact hi.toPositions h⟩

/-- Every log of a run stands on its history, and can be recovered. -/
theorem Run.holds (hs : s.Run) : s.Inv ∧ s.Replayable ∧ s.origin = Tail.first := by
  induction hs with
  | @create config limits base c l hfit h =>
    obtain ⟨hq, -, -, -, hepoch⟩ := Log.create_quiet hfit h
    have htrace : (created l).trace = [⟨l.current.header, []⟩] := rfl
    refine ⟨hq.inv, .of_sized ?_ ?_ hq.sized, rfl⟩
    · rw [htrace]
      exact pairwise_singleton _ _
    · intro t ht
      rw [htrace] at ht
      rw [mem_singleton.1 ht]
      exact hepoch.le
  | append _ hb h ih =>
    obtain ⟨hi, hp, ho⟩ := ih
    obtain ⟨hi', hz⟩ := (Step.append hb h).keeps hi hp.sized
    exact ⟨hi', hp.pushed hz, ho⟩
  | publish _ hsub h ih =>
    obtain ⟨hi, hp, ho⟩ := ih
    obtain ⟨hi', hz⟩ := (Step.publish hsub h).keeps hi hp.sized
    exact ⟨hi', .of_sized hp.epochs hp.epoch_le hz, ho⟩
  | fence _ h ih =>
    obtain ⟨hi, hp, ho⟩ := ih
    obtain ⟨hi', hz⟩ := (Step.fence h).keeps hi hp.sized
    exact ⟨hi', hp.pushed hz, ho⟩
  | sync _ h ih =>
    obtain ⟨hi, hp, ho⟩ := ih
    obtain ⟨hi', hz⟩ := (Step.sync h).keeps hi hp.sized
    exact ⟨hi', .of_sized hp.epochs hp.epoch_le hz, ho⟩
  | @rollover s kind r l l' c made _ h hc hm hinst ih =>
    obtain ⟨hi, hp, ho⟩ := ih
    obtain ⟨hi', hz⟩ := (Step.rollover h hc hm hinst).keeps hi hp.sized
    obtain ⟨-, hcont, hepoch, -, -, -⟩ := hi.rollover h hc hm hinst
    have hact := hp.epoch_le s.active (by simp [Staging.trace])
    have hnum := hcont.number
    refine ⟨hi', hp.enter hcont ?_ ?_ hz, ho⟩
    · cases kind with
      | rollover =>
        have hepoch : made.segment.header.epoch = s.active.header.epoch := hepoch
        omega
      | freshAttachment => exact hepoch.le
    · cases kind with
      | rollover => exact Or.inl hepoch
      | freshAttachment => exact Or.inr hepoch
  | compact _ h hu ih =>
    obtain ⟨hi, hp, ho⟩ := ih
    obtain ⟨hi', hz⟩ := (Step.compact h hu).keeps hi hp.sized
    exact ⟨hi', .of_sized hp.epochs hp.epoch_le hz, ho⟩

end Runs

/-! ## Crashes -/

/-- A file after a crash: no byte past the placed records, and each record complete, or torn if no
completed sync covers it. -/
structure Leaves [Digest] (s : Staging) (t : SegmentTrace) (c : Candidate) : Prop where
  number : c.number = t.header.number
  header : SegmentHeader.decode (c.bytes.slice 0 BLOCK_SIZE) = .ok t.header
  lower : BLOCK_SIZE ≤ c.bytes.length
  upper : c.bytes.length ≤ t.place.offset
  records : ∀ r ∈ t.records, r.Stored c.bytes ∨
    ¬ s.Synced t.header.number r ∧ r.Torn c.bytes s.log.config.imageBytes

section Crashes

variable [Digest] {s : Staging} {t : SegmentTrace} {c : Candidate}

theorem exists_cut {α : Type} (p : α → Prop) : ∀ l : List α, ∃ kept lost, l = kept ++ lost ∧
    (∀ x ∈ kept, p x) ∧ (lost = [] ∨ ∃ x rest, lost = x :: rest ∧ ¬ p x)
  | [] => ⟨[], [], rfl, nofun, Or.inl rfl⟩
  | x :: l => by
    by_cases hx : p x
    · obtain ⟨kept, lost, rfl, h1, h2⟩ := exists_cut p l
      exact ⟨x :: kept, lost, rfl, forall_mem_cons.2 ⟨hx, h1⟩, h2⟩
    · exact ⟨[], x :: l, rfl, nofun, Or.inr ⟨x, l, rfl, hx⟩⟩

/-- A file whose records are all complete ends with the last one. -/
theorem Leaves.length_eq (h : s.Leaves t c) (hw : t.Wf) (hall : ∀ r ∈ t.records, r.Stored c.bytes) :
    c.bytes.length = t.place.offset :=
  le_antisymm h.upper (Scan.place_offset_le hw ⟨h.number, h.lower, h.header, hall⟩)

theorem Leaves.whole (h : s.Leaves t c) (hw : t.Wf) (hall : ∀ r ∈ t.records, r.Stored c.bytes)
    (imageBytes base : Nat) : t.Survives c imageBytes base t.records :=
  ⟨h.number, h.lower, h.header, [], (append_nil _).symm, fun r hr => (hall r hr).intact base,
    Or.inl ⟨rfl, h.length_eq hw hall⟩⟩

/-- The active segment survives up to its first torn record, which no sync covers. -/
theorem Positions.active_survives (hi : s.Positions) (h : s.Leaves s.active c) {base : Nat}
    (hbase : base ≤ s.log.durable) : ∃ kept lost, s.active.records = kept ++ lost ∧
      s.active.Survives c s.log.config.imageBytes base kept ∧
      (∀ r ∈ kept, r.Stored c.bytes) ∧
      s.log.durable ≤ (SegmentTrace.place ⟨s.active.header, kept⟩).sequence ∧
      (lost = [] ∨ ∃ r rest, lost = r :: rest ∧ ¬ r.Stored c.bytes) := by
  obtain ⟨-, hw⟩ := hi.active_accepts
  obtain ⟨kept, lost, hparts, hkept, hlost⟩ :=
    exists_cut (fun r : Record => r.Stored c.bytes) s.active.records
  obtain ⟨k, hk⟩ := hi.frontier
  have hchain := hw.chain
  -- the synced records are all before the cut
  have hkle : k ≤ kept.length := by
    rcases hlost with rfl | ⟨r, rest, rfl, hr⟩
    · rw [append_nil] at hparts
      rw [← hparts]
      exact hk.le
    · by_contra hlt
      have hmem : r ∈ s.active.records.take k := by
        have hget : s.active.records[kept.length]? = some r := by
          rw [hparts, List.getElem?_append_right (Nat.le_refl _), Nat.sub_self]
          rfl
        apply mem_of_getElem? (i := kept.length)
        rw [getElem?_take_of_lt (by omega), hget]
      have hrmem : r ∈ s.active.records := by rw [hparts]; simp
      rcases h.records r hrmem with hst | ⟨hns, -⟩
      · exact hr hst
      · exact hns (hk.synced r hmem)
  have hdur : s.log.durable ≤ (SegmentTrace.place ⟨s.active.header, kept⟩).sequence := by
    rw [hk.durable, hparts, take_append_of_le_length hkle]
    rw [hparts, Chain.append, ← take_append_drop k kept, Chain.append] at hchain
    have hle := Place.final_sequence_le hchain.1.2
    rw [← final_append, take_append_drop] at hle
    exact hle
  refine ⟨kept, lost, hparts, ⟨h.number, h.lower, h.header, lost, hparts,
    fun r hr => (hkept r hr).intact base, ?_⟩, hkept, hdur, hlost⟩
  rcases hlost with rfl | ⟨r, rest, rfl, hr⟩
  · refine Or.inl ⟨rfl, h.length_eq hw ?_⟩
    rw [hparts, append_nil]
    exact hkept
  · refine Or.inr ⟨r, rest, rfl, ?_, ?_⟩
    · have hrmem : r ∈ s.active.records := by rw [hparts]; simp
      rcases h.records r hrmem with hst | ⟨-, ht⟩
      · exact absurd hst hr
      · exact ht
    · intro hf
      rw [hparts, Chain.append] at hchain
      have hlt := hchain.2.1.lt_of_data hf
      exact lt_of_le_of_lt (hbase.trans hdur) hlt

end Crashes

end Staging

end Cas.Append
