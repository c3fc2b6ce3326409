import Cas.Append.Crash
import Cas.Append.Serving

/-!
# The interval capacity of the index

`check_append` counts two intervals for each descriptor in flight, so a publication finds its room
and a completed one gives back at least what it took. A recovery replays batch by batch, over an
index that a newer manifest prefix only makes smaller, and it asks before each batch for no more
than the live log had reserved. It may stop for another reason, never for the interval limit.
-/

namespace Cas.Append

open Bytes List
open Interval (Ordered replay)
open Manifest (View)

/-! ## Live admission -/

/-- The index is ordered and has the room that is reserved in it. -/
structure Log.Roomed (l : Log) : Prop where
  ordered : Ordered 0 l.config.imageBytes l.index.map
  limit : l.index.limit = l.limits.intervals
  room : l.index.map.length + 2 * l.pendingDescriptors ≤ l.limits.intervals

theorem Log.Roomed.congr {l l' : Log} (h : l.Roomed) (hi : l'.index = l.index)
    (hp : l'.pendingDescriptors = l.pendingDescriptors) (hc : l'.config = l.config)
    (hl : l'.limits = l.limits) : l'.Roomed := by
  obtain ⟨h1, h2, h3⟩ := h
  refine ⟨?_, ?_, ?_⟩
  · rw [hc, hi]
    exact h1
  · rw [hi, hl]
    exact h2
  · rw [hi, hp, hl]
    exact h3

theorem Staging.Inv.roomed [Digest] {s : Staging} (hi : s.Inv) : s.log.Roomed :=
  ⟨hi.ordered, hi.limit, hi.room⟩

section Publication

variable [Digest] {s : Staging} {sub : Submission} {l : Log}

/-- A publication gives back the two intervals of each of its descriptors. -/
theorem Staging.Positions.publish_roomed (hi : s.Positions) (hr : s.log.Roomed)
    (hs : s.Issued sub) (h : s.log.publishAppend sub = .ok l) :
    l.Roomed ∧ s.log.appendCapacity ≤ l.appendCapacity := by
  obtain ⟨l₁, l₂, index, hrec, -, hlt, hle, -, -, hcount, hindex, rfl⟩ := hi.publish_record hs h
  have hin := hi.entries_in hrec
  have hidx := Log.publishEntries_eq hin hr.ordered hindex
  have hlen := Interval.length_replay_le (Entry.In.bounds hin) hr.ordered
  have hds : (Record.mutations s.active.header.number ⟨sub.offset, sub.batch⟩).length =
      sub.batch.envelope.descriptors := by
    simp [Record.mutations, Record.descriptors, Header.descriptors, Record.header, Record.envelope]
  rw [length_map, hds] at hlen
  have hlen : index.map.length ≤
      s.log.index.map.length + 2 * sub.batch.envelope.descriptors := by
    rw [hidx]
    exact hlen
  have hroom := hr.room
  have hpend := hi.pending
  refine ⟨⟨?_, ?_, ?_⟩, ?_⟩
  · show Ordered 0 s.log.config.imageBytes index.map
    rw [hidx]
    exact Interval.Ordered.replay (Entry.In.bounds hin) hr.ordered
  · show index.limit = s.log.limits.intervals
    rw [hidx]
    exact hr.limit
  · show index.map.length + 2 * (s.log.pendingDescriptors - sub.batch.envelope.descriptors) ≤
      s.log.limits.intervals
    omega
  · show (s.log.limits.intervals - s.log.index.map.length) / 2 - s.log.pendingDescriptors ≤
      (s.log.limits.intervals - index.map.length) / 2 -
        (s.log.pendingDescriptors - sub.batch.envelope.descriptors)
    omega

/-- The reserved room is enough for the publication of an issued append. -/
theorem Staging.Positions.publish_ne_assertion (hi : s.Positions) (hr : s.log.Roomed)
    (hs : s.Issued sub) : s.log.publishAppend sub ≠ .error .assertion := by
  intro he
  have hfails : (s.log.publishAppend sub).FailsOnly fun e => e ≠ .assertion := by
    unfold Log.publishAppend
    refine .bind (Log.healthy_failsOnly (by simp)) fun _ _ => .bind ?_ fun _ ho => ?_
    · unfold Log.owns
      exact .ite (fun _ => .ok ()) fun _ => .error (by simp)
    · refine .bind (.mapError fun e => by simp) fun h hd => .ite (fun _ => .error (by simp)) ?_
      intro hq
      refine .ite (fun _ => .error (by simp)) fun hfirst => .bind ?_ fun _ _ => .ok _
      have hf : h.envelope.fence = false := by
        rw [← Bool.not_eq_true]
        exact fun hf => hq (.inl hf)
      obtain ⟨rfl, hnum, l₁, l₂, hrec, -, hlt, hle, hcount⟩ := hi.next_record hs
        (Log.owns_eq_ok.1 ho) (Except.mapError_eq_ok.1 hd) hf
        (checkedAdd_eq_some.1 (not_not.1 hfirst)).1
      have hroom : s.log.index.map.length + 2 * ((Record.mutations s.active.header.number
          ⟨sub.offset, sub.batch⟩).map Placed.entry).length ≤ s.log.index.limit := by
        have hds : ((Record.mutations s.active.header.number ⟨sub.offset, sub.batch⟩).map
            Placed.entry).length = sub.batch.envelope.descriptors := by
          simp [Record.mutations, Record.descriptors, Header.descriptors, Record.header,
            Record.envelope]
        have h1 := hr.room
        have h2 := hi.pending
        rw [hds, hr.limit]
        omega
      have hsome := Log.publishEntries_of_room (hi.entries_in hrec) hr.ordered hroom
      rw [Record.mutations, map_map, ← hnum] at hsome
      have hpub : s.log.publish (Record.header ⟨sub.offset, sub.batch⟩) sub.segment sub.offset =
          .ok _ := Log.publish_eq_ok.2 ⟨_, hsome, rfl⟩
      rw [hpub]
      exact .ok _
  exact hfails _ he rfl

end Publication

theorem Log.publishCompaction_roomed {l l' : Log} {c : Compacted} (hr : l.Roomed)
    (h : l.publishCompaction c = .ok l') : l'.Roomed ∧ l.appendCapacity ≤ l'.appendCapacity := by
  obtain ⟨-, -, -, -, -, rfl⟩ := Log.publishCompaction_eq_ok.1 h
  have hlen : (l.index.retainAfter c.view.commit.durable).map.length ≤ l.index.map.length :=
    length_filter_le _ _
  refine ⟨⟨hr.ordered.filter _, hr.limit, ?_⟩, ?_⟩
  · have hroom := hr.room
    show (l.index.retainAfter c.view.commit.durable).map.length + 2 * l.pendingDescriptors ≤
      l.limits.intervals
    omega
  · show (l.limits.intervals - l.index.map.length) / 2 - l.pendingDescriptors ≤
      (l.limits.intervals - (l.index.retainAfter c.view.commit.durable).map.length) / 2 -
        l.pendingDescriptors
    omega

namespace Serving

variable [Digest] {s s' : Serving} {st : Staging} {c : Call} {result : Except LogError Unit}

theorem Holds.call_roomed (h : s.Holds st) (hr : s.log.Roomed)
    (hcall : s.call c = some (s', result)) : s'.log.Roomed := by
  cases c with
  | prepareAppend b =>
    obtain ⟨rfl, -⟩ := Prod.mk.inj (Option.some.inj hcall)
    cases hp : s.log.prepareAppend b with
    | error e => exact hr
    | ok p =>
      obtain ⟨sub, l⟩ := p
      obtain ⟨hcan, _, -, -, rfl⟩ := Log.prepareAppend_eq_ok.1 hp
      have hcap := hcan.capacity
      have hroom := hr.room
      rw [Log.appendCapacity] at hcap
      refine ⟨hr.ordered, hr.limit, ?_⟩
      show s.log.index.map.length + 2 * (s.log.pendingDescriptors + b.descriptors) ≤
        s.log.limits.intervals
      omega
  | publishAppend i =>
    obtain ⟨sub, hsub, heq⟩ := Option.map_eq_some_iff.1 hcall
    obtain ⟨rfl, -⟩ := Prod.mk.inj heq
    cases hp : s.log.publishAppend sub with
    | error e => exact hr
    | ok l =>
      rw [← h.log] at hp hr
      exact (h.positions.publish_roomed hr (h.issued sub (mem_of_getElem? hsub)) hp).1
  | prepareFence =>
    obtain ⟨rfl, -⟩ := Prod.mk.inj (Option.some.inj hcall)
    cases hp : s.log.prepareFence with
    | error e => exact hr
    | ok p =>
      obtain ⟨sub, l⟩ := p
      obtain ⟨-, _, -, -, rfl⟩ := Log.prepareFence_eq_ok.1 hp
      exact hr.congr rfl rfl rfl rfl
  | completeSync i =>
    obtain ⟨sub, -, heq⟩ := Option.map_eq_some_iff.1 hcall
    obtain ⟨rfl, -⟩ := Prod.mk.inj heq
    cases hp : s.log.completeSync sub with
    | error e => exact hr
    | ok l =>
      obtain ⟨-, -, -, -, -, -, rfl⟩ := Log.completeSync_eq_ok.1 hp
      exact hr.congr rfl rfl rfl rfl
  | prepareRotation kind =>
    obtain ⟨rfl, -⟩ := Prod.mk.inj (Option.some.inj hcall)
    cases hp : s.log.prepareRotation kind with
    | error e => exact hr
    | ok p =>
      obtain ⟨r, l⟩ := p
      obtain ⟨rfl, -⟩ := Staging.prepareRotation_eq_ok hp
      exact hr.congr rfl rfl rfl rfl
  | cancelRotation =>
    obtain ⟨r, -, heq⟩ := Option.map_eq_some_iff.1 hcall
    obtain ⟨rfl, -⟩ := Prod.mk.inj heq
    cases hp : s.log.cancelRotation r with
    | error e => exact hr
    | ok l =>
      obtain ⟨-, -, -, rfl⟩ := Log.cancelRotation_eq_ok.1 hp
      exact hr.congr rfl rfl rfl rfl
  | installRotation =>
    obtain ⟨r, -, heq⟩ := Option.map_eq_some_iff.1 hcall
    obtain ⟨rfl, -⟩ := Prod.mk.inj heq
    show (s.log.installRotation r).1.Roomed
    obtain ⟨-, -, -, allocated, hi⟩ | ⟨e, hi | hi⟩ := s.log.installRotation_cases r
    · rw [hi]
      exact hr.congr rfl rfl rfl rfl
    · rw [hi]
      exact hr
    · rw [hi]
      exact hr.congr rfl rfl rfl rfl
  | publishCompaction cp =>
    obtain ⟨rfl, -⟩ := Prod.mk.inj (Option.some.inj hcall)
    cases hp : s.log.publishCompaction cp with
    | error e => exact hr
    | ok l => exact (Log.publishCompaction_roomed hr hp).1

theorem Reachable.roomed (h : s.Reachable) : s.log.Roomed := by
  induction h with
  | start h =>
    obtain ⟨st, rfl, hq⟩ := h.quiet
    exact hq.inv.roomed
  | call hs _ h ih =>
    obtain ⟨st, hst⟩ := hs.holds
    exact hst.call_roomed ih h
  | create _ _ _ ih => exact ih
  | ticket _ _ _ ih => exact ih

end Serving

/-! ## Recovery -/

namespace Scan

variable [Digest] {config : Config} {limits : Limits} {base : Nat} {origin : Tail}

/-- The segment loop over surviving files may find the chain of segments broken, but it has room for
every batch. -/
theorem inspectFrom_failsOnly {t : SegmentTrace} {c : Candidate} {kept : List Record}
    (hpins : config.segmentBytes / BLOCK_SIZE < 2 ^ 32)
    (hlast : t.Survives c config.imageBytes base kept) :
    ∀ {rest : Trace} {cs : List Candidate} {done : Trace} {s : Scan} {allocated i : Nat},
      Trace.Wf origin config (done ++ rest ++ [t]) →
      Trace.Recoverable (done ++ rest ++ [t]) limits base →
      List.Forall₂ (fun u b => SegmentTrace.Survives u b config.imageBytes base u.records) rest cs →
      s.Matches origin config limits base done allocated →
      (inspectFrom config limits base (cs ++ [c]) i s).FailsOnly fun e => e ≠ .capacity := by
  intro rest
  induction rest with
  | nil =>
    intro cs done s allocated i hw hrec hf hm
    cases hf
    rw [append_nil] at hw hrec
    obtain ⟨hopen, -, -, s', hall, -⟩ := replaySegment_survives hw hrec hpins hm hlast
    rw [nil_append, inspectFrom, hopen]
    refine .ite (fun _ => .error (by simp [otherError])) fun _ => ?_
    rw [hall, Except.ok_bind]
    exact .ite (fun _ => .ok _) fun _ => .ok _
  | cons u rest ih =>
    intro cs done s allocated i hw hrec hf hm
    cases hf with
    | @cons _ b _ cs hu hf =>
    rw [show done ++ u :: rest ++ [t] = done ++ u :: (rest ++ [t]) by simp] at hw hrec
    obtain ⟨hopen, -, -, s', hall, -, hleave⟩ := replaySegment_survives hw hrec hpins hm hu
    rw [show done ++ u :: (rest ++ [t]) = (done ++ [u]) ++ rest ++ [t] by simp] at hw hrec
    rw [cons_append, inspectFrom, hopen]
    refine .ite (fun _ => .error (by simp [otherError])) fun _ => ?_
    rw [hall, Except.ok_bind]
    exact .ite (fun _ => .ok _) fun _ => ih hw hrec hf hleave

end Scan

section Recovery

variable [Digest]

theorem Log.inspectIn_failsOnly {d : Directory} {config : Config} {limits : Limits} {base : Nat}
    {origin : Tail} {closed : Trace} {active : SegmentTrace} {cs : List Candidate} {c : Candidate}
    {kept : List Record} (hd : d.candidates = cs ++ [c])
    (hw : (closed ++ [active]).Wf origin config)
    (hrec : origin.sequence ≤ base → Trace.Recoverable (closed ++ [active]) limits base)
    (hpins : config.segmentBytes / BLOCK_SIZE < 2 ^ 32)
    (hbytes : MAX_BATCH_BYTES + 2 * BLOCK_SIZE ≤ config.segmentBytes)
    (hclosed : List.Forall₂
      (fun u b => SegmentTrace.Survives u b config.imageBytes base u.records) closed cs)
    (hactive : active.Survives c config.imageBytes base kept) :
    (Log.inspectIn d limits base).FailsOnly fun e => e ≠ .capacity := by
  obtain ⟨c₀, cs₀, h₀, hcs, hopen, hprec, hconf⟩ := hw.opens_first hpins hclosed hactive
  have hcap : h₀.capacity = config.segmentBytes := by rw [hconf]
  unfold Log.inspectIn
  rw [hd, hcs]
  simp only [hopen, Except.mapError, Except.ok_bind]
  refine .ite (fun _ => .error (by simp [otherError])) fun hle => ?_
  rw [if_neg (by rw [hcap]; exact not_lt.2 hbytes), ← hconf, ← hcs]
  rw [hprec, not_lt] at hle
  have hstart := Scan.matches_start config limits base h₀.precedingSequence
  rw [hprec] at hstart ⊢
  have hw₀ := hw.forget
  have hrec₀ := hrec hle
  rw [← nil_append (closed ++ [active]), ← append_assoc] at hw₀ hrec₀
  refine .bind (Scan.inspectFrom_failsOnly hpins hactive hw₀ hrec₀ hclosed hstart) fun p _ => ?_
  refine .ite (fun _ => .error (by simp)) fun _ => ?_
  split
  · exact .error (by simp)
  · exact .ok _

namespace Staging

/-- A log that started to serve and ran. -/
def Ran (s : Staging) : Prop :=
  ∃ s₀ : Staging, s₀.log.Starts ∧ s₀.Quiet ∧ Relation.ReflTransGen Step s₀ s

/-- The directory after a crash: the segments before some point may have been reclaimed, and each
later one is left as by a crash. -/
def Retained (s : Staging) (d : Directory) : Prop :=
  ∃ gone kept cs, s.trace = gone ++ kept ∧ d.files.Perm cs ∧ List.Forall₂ s.Leaves kept cs

variable {s : Staging}

theorem Ran.holds (h : s.Ran) : s.Inv ∧ s.Sized := by
  obtain ⟨s₀, -, hq, hsteps⟩ := h
  induction hsteps with
  | refl => exact ⟨hq.inv, hq.sized⟩
  | tail _ hstep ih => exact hstep.keeps ih.1 ih.2

/-- The retained segments are recoverable where the reclaimed ones were compacted. -/
theorem Sized.recoverable_suffix (h : s.Sized) (hi : s.Inv) {gone kept : Trace}
    (htrace : s.trace = gone ++ kept) {limits : Limits}
    (hlim : limits.intervals = s.log.limits.intervals) {base : Nat}
    (hbase : s.log.compacted ≤ base) (hu : s.trace.Uncut base)
    (hgone : (final Tail.next s.origin gone).sequence ≤ base) : kept.Recoverable limits base := by
  have hmem : ∀ t ∈ kept, t ∈ s.trace := by
    intro t ht
    rw [htrace]
    exact mem_append_right _ ht
  have hrec := h.recoverable hi hbase hu
  have hw := hi.trace
  rw [htrace] at hw
  refine ⟨fun t ht => hu t (hmem t ht), fun t ht => hrec.verified t (hmem t ht), ?_⟩
  intro t ht r hr hf hlt
  have hroom := hrec.room t (hmem t ht) r hr hf hlt
  rw [htrace, Trace.indexed_suffix hw hgone] at hroom
  rw [hlim]
  exact hroom

/-- A recovery of what a crash left has room for every batch. -/
theorem Inv.retained_failsOnly (hi : s.Inv) (hz : s.Sized) {d : Directory} (hd : s.Retained d)
    {limits : Limits} (hlim : limits.intervals = s.log.limits.intervals) {base : Nat}
    (hlow : s.log.compacted ≤ base) (hhigh : base ≤ s.log.durable) (hu : s.trace.Uncut base) :
    (Log.inspectIn d limits base).FailsOnly fun e => e ≠ .capacity := by
  obtain ⟨gone, kept, all, htrace, hperm, hf⟩ := hd
  have hwf := hi.trace
  rw [htrace, Trace.Wf, Chain.append] at hwf
  have hcand : d.candidates = all := by
    refine Directory.candidates_eq hperm ?_
    have hnum := pairwise_map.2 (Trace.numbers_pairwise hwf.2)
    rw [forall₂_map_eq (fun t c (h : s.Leaves t c) => h.number.symm) hf] at hnum
    exact pairwise_map.1 hnum
  rcases eq_nil_or_concat kept with rfl | ⟨closed, active, rfl⟩
  · cases hf
    unfold Log.inspectIn
    rw [hcand]
    exact .error (by simp [otherError])
  rw [concat_eq_append] at htrace hf hwf
  -- the last segment is the active one, and the others were closed
  have hends : s.closed = gone ++ closed ∧ s.active = active := by
    rw [Staging.trace, ← append_assoc] at htrace
    exact ⟨(append_inj' htrace rfl).1, cons.inj (append_inj' htrace rfl).2 |>.1⟩
  obtain ⟨cs, c, rfl, hcs, hc⟩ := forall₂_concat_left hf
  rw [← hends.2] at hc
  obtain ⟨records, lost, -, hsurvives, -⟩ := hi.toPositions.active_survives hc hhigh
  rw [hends.2] at hsurvives
  refine Log.inspectIn_failsOnly hcand hwf.2 ?_ hz.pins hz.bytes ?_ hsurvives
  · exact fun hle => hz.recoverable_suffix hi htrace hlim hlow hu hle
  · refine forall₂_imp_mem hcs fun t ht b _ hb => ?_
    have hmem : t ∈ s.closed := by
      rw [hends.1]
      exact mem_append_right _ ht
    refine hb.whole (hi.trace.accepts (mem_append_left _ hmem)).2 ?_ _ _
    intro r hr
    rcases hb.records r hr with hst | ⟨hns, -⟩
    · exact hst
    · exact absurd (hi.closedSynced t hmem r hr) hns

end Staging

/-- The admission of appends is enough for the index. Whatever was called on a serving log, the
publication of a held append never fails the assertion of `Index::replace`, and neither a publication
nor a compaction lowers `append_capacity`. Whatever a crash leaves of a log that ran, and however far
the manifest is by then, a recovery with the same interval limit does not run out of intervals. -/
theorem Log.capacity_suffices :
    (∀ s : Serving, s.Reachable →
      (∀ sub ∈ s.handles, s.log.publishAppend sub ≠ .error .assertion) ∧
      (∀ sub ∈ s.handles, ∀ l, s.log.publishAppend sub = .ok l →
        s.log.appendCapacity ≤ l.appendCapacity) ∧
      ∀ c l, s.log.publishCompaction c = .ok l → s.log.appendCapacity ≤ l.appendCapacity) ∧
    ∀ s : Staging, s.Ran → ∀ d, s.Retained d → ∀ limits : Limits,
      limits.intervals = s.log.limits.intervals → ∀ base, s.log.compacted ≤ base →
      base ≤ s.log.durable → s.trace.Uncut base →
      Log.inspectIn d limits base ≠ .error .capacity := by
  refine ⟨?_, ?_⟩
  · intro s hs
    obtain ⟨st, hst⟩ := hs.holds
    have hroomed := hs.roomed
    refine ⟨?_, ?_, fun c l h => (Log.publishCompaction_roomed hroomed h).2⟩
    · intro sub hsub
      rw [← hst.log] at hroomed ⊢
      exact hst.positions.publish_ne_assertion hroomed (hst.issued sub hsub)
    · intro sub hsub l h
      rw [← hst.log] at hroomed h ⊢
      exact (hst.positions.publish_roomed hroomed (hst.issued sub hsub) h).2
  · intro s hs d hd limits hlim base hlow hhigh hu he
    obtain ⟨hi, hz⟩ := hs.holds
    exact hi.retained_failsOnly hz hd hlim hlow hhigh hu _ he rfl

end Recovery

end Cas.Append
