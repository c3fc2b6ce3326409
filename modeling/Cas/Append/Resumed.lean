import Cas.Append.Inspect
import Cas.Append.Marks
import Cas.Append.Resume

/-!
# A finished recovery is a serving log

While a recovery runs, the log has not established E: its durable prefix is behind what its files
hold. `Staging.Recovering` therefore speaks about the settled log, whose durable prefix is the
published one. Every step of a recovery keeps it, and the last flush makes the settled log the real
one.
-/

namespace Cas.Append

open Bytes List
open Except (bind_eq_ok ite_error_eq_ok)
open Manifest (View)

/-- Tickets never fall behind the segments of a log, since every retained name was scanned. -/
def Creation.Follows (c : Creation) (l : Log) : Prop :=
  ∀ last, c.tickets = some last → l.highestSegment ≤ last

section Create

variable [Digest]

theorem nextNumber_eq_some {tickets : Option Nat} {highest number : Nat}
    (h : nextNumber tickets highest = some number)
    (hf : ∀ last, tickets = some last → highest ≤ last) : highest < number ∧ number < U64 := by
  unfold nextNumber at h
  split at h
  · rename_i last
    obtain ⟨h1, h2⟩ := Option.filter_eq_some_iff.1 h
    obtain ⟨h3, h4⟩ := checkedAdd_eq_some.1 h1
    have := hf last rfl
    omega
  · obtain ⟨h3, h4⟩ := checkedAdd_eq_some.1 h
    omega

theorem Rotation.create_eq_ok {r : Rotation} {c : Creation} {made : Rotated}
    (h : r.create c = .ok made) : ∃ number, nextNumber c.tickets r.highest = some number ∧
      (r.header number).validate = .ok () ∧
      made = ⟨r.boundary, ⟨r.header number, BLOCK_SIZE⟩, c.allocated⟩ := by
  unfold Rotation.create at h
  split at h
  · cases h
  rename_i number hn
  obtain ⟨b, hb, h⟩ := bind_eq_ok.1 h
  obtain ⟨u, hv, -⟩ := bind_eq_ok.1 (Except.mapError_eq_ok.1 hb)
  exact ⟨number, hn, hv, (Except.ok.inj h).symm⟩

/-- A created segment continues the log it was prepared from. -/
theorem Staging.Positions.continues {s : Staging} (hi : s.Positions) {epoch : Option Nat}
    {tickets : Option Nat} {number : Nat} (he : ∀ e, epoch = some e → e < U64)
    (hn : nextNumber tickets s.log.highestSegment = some number)
    (ht : ∀ last, tickets = some last → s.log.highestSegment ≤ last)
    (hv : (s.log.config.header (epoch.getD number) number s.log.published).validate = .ok ()) :
    s.Continues (s.log.config.header (epoch.getD number) number s.log.published) := by
  obtain ⟨h1, h2⟩ := nextNumber_eq_some hn ht
  obtain ⟨hconf, hw⟩ := hi.active_accepts
  obtain ⟨himage, hbytes⟩ := hi.config_eq
  refine ⟨hv, ⟨?_, h2, ?_, ?_, ?_⟩, ?_, ?_, rfl⟩
  · show epoch.getD number < U64
    cases epoch with
    | none => exact h2
    | some e => exact he e rfl
  · show s.log.config.segmentBytes < U64
    rw [hbytes]
    exact hw.fits.capacity
  · show s.log.config.imageBytes < U64
    rw [himage]
    exact hw.fits.imageBytes
  · exact lt_of_le_of_lt hi.published_le hi.issued_lt
  · simp [Config.matchesHeader, Config.header]
  · exact lt_of_le_of_lt hi.highest h1

end Create

namespace Staging

/-- Everything published counts as durable. -/
def settled (s : Staging) : Staging :=
  { s with log := { s.log with durable := s.log.published }, synced := s.trace }

section Settled

variable [Digest] {s : Staging}

theorem Positions.settle (hi : s.Positions) (hd : s.log.issued = s.log.published)
    (hc : s.log.cohort = none) : s.settled.Positions := by
  refine ⟨hi.trace, hi.current, hi.highest, hi.older, hi.offset, hi.nextBatch, hi.issued,
    hi.published, hi.pending, hi.compacted.trans hi.durable, le_refl _, ?_,
    ⟨s.active.records.length, le_refl _, ?_, ?_, ?_, ?_⟩, fun _ => ⟨hd, rfl, hc⟩⟩
  · exact fun t ht r hr => ⟨t, mem_append_left _ ht, rfl, hr⟩
  · intro r hr
    exact ⟨s.active, by simp [settled, Staging.trace], rfl, mem_of_mem_take hr⟩
  · show s.log.published = _
    simp only [settled, take_length]
    rw [← hd, hi.issued]
    rfl
  · intro _ r hr
    simp [settled] at hr
  · intro c hc'
    cases hc.symm.trans hc'

theorem Inv.settle (hi : s.Inv) (hd : s.log.issued = s.log.published)
    (hc : s.log.cohort = none) : s.settled.Inv :=
  ⟨hi.toPositions.settle hd hc, hi.origin, hi.verified, hi.index, hi.limit, hi.room, hi.uncut⟩

/-- A recovery that has nothing in flight. -/
structure Recovering (s : Staging) : Prop where
  inv : s.settled.Inv
  sized : s.Sized
  marked : s.Marked
  cohort : s.log.cohort = none
  rotating : s.log.rotating = false
  issued : s.log.issued = s.log.published
  durable : s.log.durable ≤ s.log.published

theorem Recovering.settled_sized (hr : s.Recovering) : s.settled.Sized :=
  hr.sized.of_log rfl rfl rfl

/-- A recovery whose flush has nothing to do is settled already. -/
theorem Recovering.finished (hr : s.Recovering) (hd : s.log.published ≤ s.log.durable) :
    Inv { s with synced := s.trace } ∧ s.log.durable = s.log.published := by
  have heq : s.log.durable = s.log.published := le_antisymm hr.durable hd
  have hlog : ({ s.log with durable := s.log.published } : Log) = s.log := by rw [← heq]
  refine ⟨?_, heq⟩
  have := hr.inv
  rw [settled, hlog] at this
  exact this

/-- The second history has the mutations of the first one, on a log that serves the same image. -/
structure Keeps (s s' : Staging) : Prop where
  origin : s'.origin = s.origin
  mutations : s'.trace.mutations = s.trace.mutations
  published : s'.log.published = s.log.published
  config : s'.log.config = s.log.config
  base : s'.log.base = s.log.base

omit [Digest] in
theorem Keeps.refl (s : Staging) : s.Keeps s := ⟨rfl, rfl, rfl, rfl, rfl⟩

omit [Digest] in
theorem Keeps.trans {s₁ s₂ s₃ : Staging} (h : s₁.Keeps s₂) (h' : s₂.Keeps s₃) : s₁.Keeps s₃ :=
  ⟨h'.origin.trans h.origin, h'.mutations.trans h.mutations, h'.published.trans h.published,
    h'.config.trans h.config, h'.base.trans h.base⟩

omit [Digest] in
theorem rotated_mutations (h : SegmentHeader) (l : Log) :
    (s.rotated h l).trace.mutations = s.trace.mutations := by
  show Trace.mutations (s.trace ++ [⟨h, []⟩]) = _
  exact Trace.mutations_enter _ _

omit [Digest] in
theorem pushed_mutations (sub : Submission) (l : Log) :
    (s.pushed sub l).trace.mutations =
      s.trace.mutations ++ Record.mutations s.active.header.number ⟨sub.offset, sub.batch⟩ := by
  rw [Staging.trace, Staging.trace, pushed, Trace.mutations_concat, SegmentTrace.push_mutations,
    Trace.mutations_concat, append_assoc]

variable {c : Creation} {l : Log}

theorem Recovering.rotate (hr : s.Recovering) {epoch : Option Nat}
    (he : ∀ e, epoch = some e → e < U64) (hc : c.Follows s.log)
    (h : s.log.rotate epoch c = .ok l) :
    ∃ s', s'.log = l ∧ s'.Recovering ∧ s.Keeps s' := by
  obtain ⟨⟨prepared, l₁⟩, hrot, h⟩ := bind_eq_ok.1 h
  obtain ⟨hf, hnr, hco, hissued, -, rfl, rfl⟩ := Log.rotation_eq_ok hrot
  obtain ⟨made, hmade, h⟩ := bind_eq_ok.1 h
  obtain ⟨number, hn, hv, rfl⟩ := Rotation.create_eq_ok (Except.mapError_eq_ok.1 hmade)
  split at h
  case h_2 => cases h
  rename_i l₂ hinst
  obtain ⟨-, allocated, rfl⟩ := installRotation_eq_ok hinst
  have hl := Except.ok.inj h
  subst hl
  have hcont := hr.inv.toPositions.continues he hn hc hv
  have hinv := (hr.inv.enter hissued rfl hco hcont allocated).settle hissued hco
  exact ⟨s.rotated (s.log.config.header (epoch.getD number) number s.log.published) _, rfl,
    ⟨hinv, hr.sized.enter _ rfl rfl rfl, hr.marked.rotated rfl, hco, rfl, hissued, hr.durable⟩, rfl, rotated_mutations _ _,
    rfl, rfl, rfl⟩

theorem Recovering.epoch_lt (hr : s.Recovering) : s.log.current.header.epoch < U64 := by
  have hcur : s.log.current = s.active.segment := hr.inv.current
  have hw : s.active.Wf := hr.inv.active_accepts.2
  rw [hcur]
  exact hw.fits.epoch

theorem Recovering.rollover (hr : s.Recovering) (hc : c.Follows s.log)
    (h : s.log.rollover c = .ok l) : ∃ s', s'.log = l ∧ s'.Recovering ∧ s.Keeps s' := by
  obtain ⟨-, -, h⟩ := bind_eq_ok.1 h
  refine hr.rotate (fun e he => ?_) hc h
  rw [← Option.some.inj he]
  exact hr.epoch_lt

/-- A log with everything written is synced, and nothing is in flight. -/
structure Quiet (s : Staging) : Prop where
  inv : s.Inv
  sized : s.Sized
  marked : s.Marked
  cohort : s.log.cohort = none
  rotating : s.log.rotating = false
  issued : s.log.issued = s.log.published
  durable : s.log.durable = s.log.published

theorem Quiet.recovering (hq : s.Quiet) : s.Recovering :=
  ⟨hq.inv.settle hq.issued hq.cohort, hq.sized, hq.marked, hq.cohort, hq.rotating, hq.issued, hq.durable.le⟩

theorem Recovering.fence (hr : s.Recovering) {sub : Submission} {l₁ l₂ : Log}
    (hf : s.log.prepareFence = .ok (sub, l₁)) (hs : l₁.completeSync sub = .ok l₂) :
    ∃ s', s'.log = l₂ ∧ s'.Quiet ∧ s.Keeps s' := by
  obtain ⟨hcan, batch, hb, hsub, hl₁⟩ := Log.prepareFence_eq_ok.1 hf
  have hf' : s.settled.log.prepareFence =
      .ok (sub, { l₁ with durable := s.log.published }) :=
    Log.prepareFence_eq_ok.2 ⟨⟨hcan.healthy, hcan.cohort, hcan.rotating, hcan.room, hcan.batch⟩,
      batch, hb, hsub, by rw [hl₁]; rfl⟩
  have henv := (hr.inv.fence_record hf').2.2.2.2.2.2
  obtain ⟨h1, h2, h3, h4, h5, h6, rfl⟩ := Log.completeSync_eq_ok.1 hs
  have hs' : ({ l₁ with durable := s.log.published } : Log).completeSync sub =
      .ok { l₁ with durable := sub.batch.envelope.last, fenced := true, cohort := none } :=
    Log.completeSync_eq_ok.2 ⟨h1, h2, h3, h4, h5, h6, rfl⟩
  have hinv := (hr.inv.fence hf').sync hs'
  have hlast : sub.batch.envelope.last = s.log.issued := by rw [henv]; rfl
  have hpub : l₁.published = s.log.published := by rw [hl₁]; rfl
  have hmut : Record.mutations s.active.header.number ⟨sub.offset, sub.batch⟩ = [] := by
    have hd : Record.descriptors ⟨sub.offset, sub.batch⟩ = [] := by
      rw [Record.descriptors, Header.descriptors]
      show map _ (range sub.batch.envelope.descriptors) = []
      rw [henv]
      rfl
    rw [Record.mutations, hd, map_nil]
  have hsized := hr.settled_sized.fence hr.inv.toPositions hf'
  refine ⟨_, rfl, ⟨hinv, hsized.of_log rfl rfl rfl, hr.marked.pushed (by rw [hl₁]; rfl), rfl, ?_, ?_, ?_⟩, rfl, ?_, hpub,
    by rw [hl₁]; rfl, by rw [hl₁]; rfl⟩
  · show l₁.rotating = false
    rw [hl₁]
    exact hcan.rotating
  · show l₁.issued = l₁.published
    rw [hl₁]
    exact hr.issued
  · show sub.batch.envelope.last = l₁.published
    rw [hlast, hpub]
    exact hr.issued
  · show (s.settled.pushed sub l₁).trace.mutations = _
    rw [pushed_mutations]
    show s.trace.mutations ++ Record.mutations s.active.header.number ⟨sub.offset, sub.batch⟩ = _
    rw [hmut, append_nil]

theorem Recovering.flush (hr : s.Recovering) (hc : c.Follows s.log)
    (h : s.log.flush c = .ok l) : ∃ s', s'.log = l ∧ s'.Quiet ∧ s.Keeps s' := by
  obtain ⟨-, -, h⟩ := bind_eq_ok.1 h
  rw [ite_error_eq_ok] at h
  obtain ⟨-, h⟩ := h
  split at h
  · rename_i hcov
    have hl := Except.ok.inj h
    subst hl
    have hd : s.log.published ≤ s.log.durable := (of_decide_eq_true hcov).2
    obtain ⟨hinv, hdur⟩ := hr.finished hd
    exact ⟨{ s with synced := s.trace }, rfl,
      ⟨hinv, hr.sized.of_log rfl rfl rfl, hr.marked, hr.cohort, hr.rotating, hr.issued, hdur⟩,
      rfl, rfl, rfl, rfl, rfl⟩
  · obtain ⟨⟨sub, l₁⟩, hfence, hs⟩ := bind_eq_ok.1 h
    unfold Log.flushFence at hfence
    split at hfence
    · obtain ⟨l₀, hroll, hfence⟩ := bind_eq_ok.1 hfence
      obtain ⟨s₀, rfl, hr₀, hk₀⟩ := hr.rollover hc hroll
      obtain ⟨s', hl, hq, hk⟩ := hr₀.fence hfence hs
      exact ⟨s', hl, hq, hk₀.trans hk⟩
    · exact hr.fence hfence hs

variable {b : Builder}

/-- Where `append` places its batch, the recovery has the same mutations. -/
theorem Recovering.appendTarget (hr : s.Recovering) {c₁ c₂ : Creation}
    (hc₁ : c₁.Follows s.log) (hc₂ : ∀ l', s.log.flush c₁ = .ok l' → c₂.Follows l')
    (h : s.log.appendTarget b c₁ c₂ = .ok l) : ∃ s', s'.log = l ∧ s'.Recovering ∧ s.Keeps s' := by
  unfold Log.appendTarget at h
  split at h
  · obtain ⟨l₀, hflush, h⟩ := bind_eq_ok.1 h
    obtain ⟨s₀, rfl, hq₀, hk₀⟩ := hr.flush hc₁ hflush
    obtain ⟨s', hl, hr', hk⟩ := hq₀.recovering.rollover (hc₂ _ hflush) h
    exact ⟨s', hl, hr', hk₀.trans hk⟩
  · cases h
  · have hl := Except.ok.inj h
    subst hl
    exact ⟨s, rfl, hr, .refl s⟩

theorem settled_prepareAppend {sub : Submission}
    (h : s.log.prepareAppend b = .ok (sub, l)) :
    s.settled.log.prepareAppend b = .ok (sub, { l with durable := s.log.published }) := by
  obtain ⟨hcan, batch, hseal, hsub, hl⟩ := Log.prepareAppend_eq_ok.1 h
  exact Log.prepareAppend_eq_ok.2 ⟨⟨hcan.healthy, hcan.cohort, hcan.rotating, hcan.nonempty,
    hcan.image, hcan.capacity, hcan.issued, hcan.batch, hcan.room⟩, batch, hseal, hsub,
    by rw [hl]; rfl⟩

/-- An append during recovery adds the mutations of its builder. -/
theorem Recovering.append (hr : s.Recovering) {ds : List Descriptor} (hb : b.Wf ds)
    {c₁ c₂ : Creation} (hc₁ : c₁.Follows s.log)
    (hc₂ : ∀ l', s.log.flush c₁ = .ok l' → c₂.Follows l') (h : s.log.append b c₁ c₂ = .ok l) :
    ∃ (s' : Staging) (r : Record), s'.log = l ∧ s'.Recovering ∧ s'.origin = s.origin ∧ l.config = s.log.config ∧
      l.base = s.log.base ∧ l.published = s.log.published + ds.length ∧
      s'.trace.mutations = s.trace.mutations ++ Record.mutations s'.active.header.number r ∧
      r.descriptors = stamped (s.log.published + 1) ds := by
  obtain ⟨l₀, htarget, h⟩ := bind_eq_ok.1 h
  obtain ⟨s₀, rfl, hr₀, hk⟩ := hr.appendTarget hc₁ hc₂ htarget
  obtain ⟨⟨sub, l₁⟩, hprep, hpub⟩ := bind_eq_ok.1 h
  obtain ⟨hcan, batch, hseal, hsub, hl₁⟩ := Log.prepareAppend_eq_ok.1 hprep
  have hprep' := settled_prepareAppend hprep
  have hinv₁ := hr₀.inv.append hb hprep'
  obtain ⟨-, -, hseg, hoff, -, -, hdesc, -, hcount, hlast⟩ := hr₀.inv.append_record hb hprep'
  have hissued : (s₀.settled.pushed sub { l₁ with durable := s₀.log.published }).Issued sub :=
    ⟨s₀.active.push ⟨sub.offset, sub.batch⟩, mem_append_right _ (mem_singleton_self _),
      hseg.symm, mem_append_right _ (mem_singleton_self _)⟩
  obtain ⟨h1, h2, hd, h3, h4, h5, h6, index, h7, rfl⟩ := Log.publishAppend_eq_ok.1 hpub
  have hpub' : ({ l₁ with durable := s₀.log.published } : Log).publishAppend sub = .ok _ :=
    Log.publishAppend_eq_ok.2 ⟨h1, h2, hd, h3, h4, h5, h6, index, h7, rfl⟩
  have hinv₂ := hinv₁.publish hissued hpub'
  obtain ⟨_, _, _, -, -, -, -, -, -, -, -, heq⟩ := hinv₁.publish_record hissued hpub'
  have hend : hd.envelope.last = sub.batch.envelope.last := congrArg Log.published heq
  have hsame : l₁.issued = sub.batch.envelope.last := by rw [hl₁, hsub]
  have hco : l₁.cohort = none := by
    rw [hl₁]
    exact hcan.cohort
  refine ⟨⟨_, s₀.origin, s₀.closed, s₀.active.push ⟨sub.offset, sub.batch⟩, s₀.trace⟩,
    ⟨sub.offset, sub.batch⟩, rfl, ⟨?_, ?_, ?_, hco, ?_, ?_, ?_⟩, hk.origin, ?_, ?_, ?_, ?_, ?_⟩
  · exact hinv₂.settle (hsame.trans hend.symm) hco
  · exact (hr₀.settled_sized.append hr₀.inv hb hprep').of_log rfl rfl rfl
  · exact hr₀.marked.pushed (by rw [hl₁]; rfl)
  · show l₁.rotating = false
    rw [hl₁]
    exact hcan.rotating
  · exact hsame.trans hend.symm
  · have h8 := hr₀.durable
    have h9 : l₁.durable = s₀.log.durable := by rw [hl₁]; rfl
    have h10 := hr₀.issued
    have h11 : sub.batch.envelope.last = s₀.log.issued + ds.length := hlast
    show l₁.durable ≤ hd.envelope.last
    omega
  · show l₁.config = _
    rw [hl₁]
    exact hk.config
  · show l₁.base = _
    rw [hl₁]
    exact hk.base
  · show hd.envelope.last = _
    rw [hend, hlast, ← hk.published]
    exact congrArg (· + ds.length) hr₀.issued
  · rw [← hk.mutations]
    exact pushed_mutations (s := s₀) sub l₁
  · rw [hoff, hdesc, ← hk.published]
    exact congrArg (fun n => stamped (n + 1) ds) hr₀.issued

end Settled

end Staging

/-! ## Where a serving log comes from -/

section Start

variable [Digest]

variable {d : Directory}

theorem Directory.le_highest {c : Candidate} (hc : c ∈ d.files) :
    c.number ≤ d.highest := by
  have hmax : ∀ (l : List Nat) (a : Nat), a ≤ l.foldl max a ∧ ∀ x ∈ l, x ≤ l.foldl max a := by
    intro l
    induction l with
    | nil => simp
    | cons y l ih =>
      intro a
      obtain ⟨h1, h2⟩ := ih (max a y)
      refine ⟨(le_max_left a y).trans h1, ?_⟩
      intro x hx
      rcases mem_cons.1 hx with rfl | hx
      · exact (le_max_right a x).trans h1
      · exact h2 x hx
  exact (hmax _ 0).2 _ (mem_append_left _ (mem_map_of_mem hc))

variable {rec : Recovery} {limits : Limits}

/-- An inspected log under its manifest view is a recovery with nothing in flight. -/
theorem Recovery.Sound.recovering {base : Nat}
    {closed : Trace} {active : SegmentTrace} (h : rec.Sound d limits base closed active)
    {view : Option View} (hv : (view.elim 0 fun v => v.commit.durable) = base) (rejected : Nat) :
    ∃ origin, Staging.Recovering ⟨{ rec.log with base := view, rejectedBytes := rejected }, origin,
      closed, active, closed ++ [active]⟩ := by
  obtain ⟨first, -, hfirst, hwf, -⟩ := h.chain
  have hroom := h.room
  have hreached := h.reached
  have hmem : active ∈ closed ++ [active] := by simp
  have hnumber : active.header.number ≤ d.highest := by
    obtain ⟨done, rest, hparts, hstored, -⟩ := h.accepted
    obtain ⟨c, hc, hs⟩ := forall₂_exists hstored hmem
    rw [← hs.number]
    refine Directory.le_highest ?_
    rw [← d.mem_candidates, hparts]
    exact mem_append_left _ hc
  have hpins := h.pins
  have hbytes := h.bytes
  rw [h.determined] at hwf hroom hreached hpins hbytes ⊢
  refine ⟨⟨0, first.header.precedingSequence⟩, ⟨⟨⟨hwf, rfl, hnumber, List.Sublist.refl _, rfl, rfl,
    rfl, ⟨active.records, [], by simp [Staging.settled], rfl⟩, ?_, ?_, le_refl _, ?_,
    ⟨active.records.length, le_refl _, ?_, ?_, ?_, nofun⟩, nofun⟩, ?_, ?_, ?_, rfl, hroom, ?_⟩,
    ⟨?_, hpins, hbytes⟩, fun c hc => (Trace.cursor_marks base _ c hc).1, rfl, rfl, rfl, Nat.zero_le _⟩⟩
  · exact (Nat.sub_self _).symm
  · exact hv.le.trans hreached
  · exact fun t ht r hr => ⟨t, mem_append_left _ ht, rfl, hr⟩
  · intro r hr
    exact ⟨active, hmem, rfl, mem_of_mem_take hr⟩
  · simp only [Staging.settled, take_length]
    rfl
  · intro _ r hr
    simp [Staging.settled] at hr
  · exact hfirst.trans hv.ge
  · show Trace.VerifiedAbove _ (view.elim 0 fun v => v.commit.durable)
    rw [hv]
    exact h.verified
  · show Trace.indexed _ base _ = Trace.indexed _ (view.elim 0 fun v => v.commit.durable) _
    rw [hv]
    rfl
  · show Trace.Uncut _ (view.elim 0 fun v => v.commit.durable)
    rw [hv]
    exact h.boundary
  · show Trace.Roomy _ limits (view.elim 0 fun v => v.commit.durable)
    rw [hv]
    exact h.roomy

/-- The fields of a configuration are machine numbers. -/
structure Config.Fits (c : Config) : Prop where
  imageBytes : c.imageBytes < U64
  segmentBytes : c.segmentBytes < U64

/-- The history of a new log. -/
def Staging.created (l : Log) : Staging := ⟨l, Tail.first, [], ⟨l.current.header, []⟩, []⟩

variable {c : Creation} {l : Log}

theorem Log.create_quiet {config : Config} {base : Option View}
    (hfit : config.Fits) (h : Log.create config limits base c = .ok l) :
    (Staging.created l).Quiet ∧ l.config = config ∧ l.limits = limits ∧ l.base = base ∧
      l.current.header.epoch = l.current.header.number := by
  unfold Log.create at h
  rw [ite_error_eq_ok] at h
  obtain ⟨hbase, h⟩ := h
  obtain ⟨_, hval, h⟩ := bind_eq_ok.1 h
  split at h
  · cases h
  rename_i number hn
  obtain ⟨hn1, hn2⟩ := nextNumber_eq_some hn (by simp)
  unfold Config.validate at hval
  obtain ⟨_, hv, hbytes⟩ := bind_eq_ok.1 hval
  simp only [ite_error_eq_ok, not_or, not_lt] at hbytes
  have hv := SegmentHeader.validate_eq_ok.1 (Except.mapError_eq_ok.1 hv)
  obtain ⟨hstore, -, hcap, himage⟩ := hv
  unfold Log.createIn at h
  obtain ⟨-, -, h⟩ := bind_eq_ok.1 h
  simp only [ite_error_eq_ok, Except.ok.injEq, ge_iff_le, not_le] at h
  obtain ⟨hpins, -, rfl⟩ := h
  have hvalid : (config.header number number 0).validate = .ok () :=
    SegmentHeader.validate_eq_ok.2 ⟨hstore, ⟨by simp [Config.header]; omega,
      by simp [Config.header]; omega⟩, hcap, himage⟩
  have hd : (base.elim 0 fun v => v.commit.durable) = 0 := by
    cases base with
    | none => rfl
    | some v => simpa using hbase
  refine ⟨⟨⟨⟨?_, rfl, le_refl _, nil_sublist _, rfl, rfl, rfl, ⟨[], [], rfl, rfl⟩, rfl, ?_,
      Nat.le_refl _, nofun, ⟨0, Nat.le_refl _, nofun, rfl, nofun, nofun⟩, nofun⟩, Nat.zero_le _, ?_,
      rfl, rfl, Nat.zero_le _, ?_⟩, ⟨?_, hpins, hbytes.1.1⟩, nofun, rfl, rfl, rfl, rfl⟩, rfl, rfl, rfl, rfl⟩
  · refine ⟨⟨hn1, rfl, by simp [Staging.created, Config.matchesHeader, Config.header], hvalid, ?_,
      trivial⟩, trivial⟩
    exact ⟨hn2, hn2, hfit.segmentBytes, hfit.imageBytes, Nat.two_pow_pos 64⟩
  · exact hd.le
  · intro t ht r hr
    rw [mem_singleton.1 ht] at hr
    cases hr
  · intro t ht r hr
    rw [mem_singleton.1 ht] at hr
    cases hr
  · intro t ht r hr
    rw [mem_singleton.1 ht] at hr
    cases hr

theorem Recovery.fresh_quiet {base : Nat}
    {view : Option View} {required : Nat} {c₁ c₂ : Creation}
    (hin : Log.inspectIn d limits base = .ok rec)
    (hv : (view.elim 0 fun v => v.commit.durable) = base) (hc₁ : c₁.Follows rec.log)
    (hc₂ : ∀ l', (rec.stabilized view).repair.rotate none c₁ = .ok l' → c₂.Follows l')
    (h : (rec.stabilized view).fresh required c₁ c₂ = .ok l) :
    ∃ s : Staging, s.log = l ∧ s.Quiet := by
  obtain ⟨closed, active, hsound⟩ := Log.sound_of_inspectIn hin
  obtain ⟨-, -, h⟩ := bind_eq_ok.1 h
  obtain ⟨l₁, hrot, h⟩ := bind_eq_ok.1 h
  obtain ⟨origin, hr⟩ := hsound.recovering hv (rec.stabilized view).repair.rejectedBytes
  obtain ⟨s₁, rfl, hr₁, -⟩ := hr.rotate (by simp) hc₁ hrot
  obtain ⟨s₂, hl, hq, -⟩ := hr₁.flush (hc₂ _ hrot) h
  exact ⟨s₂, hl, hq⟩

/-- Turns of `replay_next`, each with segment numbers that follow the log. -/
inductive LiveRecovery.Replays : LiveRecovery → LiveRecovery → Prop
  | refl (r : LiveRecovery) : Replays r r
  | step {r r₁ r₂ : LiveRecovery} {gather : Builder.Gathered} {c₁ c₂ : Creation}
      (h : Replays r r₁) (hc₁ : c₁.Follows r₁.log)
      (hc₂ : ∀ l', r₁.log.flush c₁ = .ok l' → c₂.Follows l')
      (hn : r₁.replayNext gather c₁ c₂ = .ok r₂) : Replays r r₂

theorem LiveRecovery.batchOf_built {imageBytes : Nat} {m : Mutation} {gather : Builder.Gathered}
    {b : Builder} (hid : m.id.Fits) (h : batchOf imageBytes m gather = .ok b) : b.Built := by
  obtain ⟨b₀, hnew, h⟩ := bind_eq_ok.1 h
  have h₀ := Builder.Built.new hnew
  cases hk : m.kind with
  | write =>
    simp only [hk] at h
    obtain ⟨_, -, h⟩ := bind_eq_ok.1 h
    rw [← Except.ok.inj h]
    exact h₀.write hid m.offset m.length gather
  | zero =>
    simp only [hk] at h
    obtain ⟨_, -, h⟩ := bind_eq_ok.1 h
    rw [← Except.ok.inj h]
    exact h₀.zero hid m.offset m.length

variable {r : LiveRecovery}

/-- One turn of `replay_next` appends the batch of its mutation. -/
theorem LiveRecovery.replayNext_eq_ok {r' : LiveRecovery} {gather : Builder.Gathered}
    {c₁ c₂ : Creation} (h : r.replayNext gather c₁ c₂ = .ok r') :
    ∃ m b, r.remaining = m :: r'.remaining ∧ batchOf r.log.config.imageBytes m gather = .ok b ∧
      r.log.published + 1 = m.sequence ∧ r.log.append b c₁ c₂ = .ok r'.log := by
  unfold replayNext at h
  split at h
  · cases h
  rename_i m ms hrem
  obtain ⟨b, hb, h⟩ := bind_eq_ok.1 h
  rw [ite_error_eq_ok] at h
  obtain ⟨hseq, h⟩ := h
  obtain ⟨l, happ, h⟩ := bind_eq_ok.1 h
  have hr := Except.ok.inj h
  subst hr
  exact ⟨m, b, hrem, Except.mapError_eq_ok.1 hb, (checkedAdd_eq_some.1 (not_not.1 hseq)).1, happ⟩

theorem LiveRecovery.Replays.recovering {r' : LiveRecovery} (h : r.Replays r')
    (hid : ∀ m ∈ r.remaining, m.id.Fits) {s : Staging} (hlog : s.log = r.log) (hs : s.Recovering) :
    (∀ m ∈ r'.remaining, m.id.Fits) ∧ ∃ s' : Staging, s'.log = r'.log ∧ s'.Recovering := by
  induction h with
  | refl => exact ⟨hid, s, hlog, hs⟩
  | step _ hc₁ hc₂ hn ih =>
    obtain ⟨hid₁, s₁, hlog₁, hs₁⟩ := ih
    obtain ⟨m, b, hrem, hb, -, happ⟩ := replayNext_eq_ok hn
    rw [hrem] at hid₁
    obtain ⟨ds, hw⟩ := (batchOf_built (hid₁ m (by simp)) hb).wf
    rw [← hlog₁] at hc₁ hc₂ happ
    obtain ⟨s₂, -, hl₂, hs₂, -⟩ := hs₁.append hw hc₁ hc₂ happ
    exact ⟨fun m hm => hid₁ m (mem_cons_of_mem _ hm), s₂, hl₂, hs₂⟩

theorem Recovery.prepareLive_eq_ok {required epoch highest : Nat}
    {ms : List Mutation} {p : LivePlan} (h : rec.prepareLive required epoch highest ms = .ok p) :
    p.recovery = rec ∧ p.epoch = rec.log.current.header.epoch ∧ p.epoch = epoch ∧
      rec.log.published ≤ highest ∧ ms.length ≤ 1024 ∧
      rec.ownedTail highest none rec.log.published
        (ms.mergeSort fun a b => a.sequence ≤ b.sequence) = .ok highest ∧
      rec.verifyIdentities (ms.mergeSort fun a b => a.sequence ≤ b.sequence) = .ok () ∧
      p.remaining = (ms.mergeSort fun a b => a.sequence ≤ b.sequence).filter
        fun m => m.sequence > rec.log.published := by
  obtain ⟨-, -, h⟩ := bind_eq_ok.1 h
  simp only [ite_error_eq_ok, not_or, ne_eq, not_not, not_lt, gt_iff_lt] at h
  obtain ⟨⟨he, hle⟩, hlen, h⟩ := h
  obtain ⟨next, htail, hnext⟩ := bind_eq_ok.1 h
  rw [ite_error_eq_ok, not_not] at hnext
  obtain ⟨hn, hnext⟩ := hnext
  obtain ⟨u, hv, hp⟩ := bind_eq_ok.1 hnext
  have hp := Except.ok.inj hp
  subst hp
  rw [hn] at htail
  exact ⟨rfl, he, rfl, hle, hlen, htail, hv, rfl⟩

theorem LivePlan.start_recovering {p : LivePlan} {s : Staging}
    (hlog : s.log = p.recovery.repair) (hs : s.Recovering)
    (hepoch : p.epoch = p.recovery.log.current.header.epoch) (hc : c.Follows p.recovery.log)
    (h : p.start c = .ok r) :
    r.remaining = p.remaining ∧ ∃ s' : Staging, s'.log = r.log ∧ s'.Recovering ∧ s.Keeps s' := by
  unfold LivePlan.start at h
  simp only at h
  split at h
  · obtain ⟨l, hrot, h⟩ := bind_eq_ok.1 h
    have hr := Except.ok.inj h
    subst hr
    rw [← hlog] at hrot
    have hcs : c.Follows s.log := by rw [hlog]; exact hc
    obtain ⟨s', hl, hs', hk⟩ := hs.rotate (fun e he => by
      rw [← Option.some.inj he, hepoch]
      have := hs.epoch_lt
      rw [hlog] at this
      exact this) hcs hrot
    exact ⟨rfl, s', hl, hs', hk⟩
  · have hr := Except.ok.inj h
    subst hr
    exact ⟨rfl, s, hlog, hs, .refl s⟩

theorem LiveRecovery.finish_quiet {s : Staging}
    (hlog : s.log = r.log) (hs : s.Recovering) (hc : c.Follows r.log) (h : r.finish c = .ok l) :
    r.remaining = [] ∧ ∃ s' : Staging, s'.log = l ∧ s'.Quiet ∧ s.Keeps s' := by
  unfold finish at h
  rw [ite_error_eq_ok, not_not] at h
  obtain ⟨hnil, h⟩ := h
  rw [← hlog] at h hc
  exact ⟨hnil, hs.flush hc h⟩

end Start

end Cas.Append
