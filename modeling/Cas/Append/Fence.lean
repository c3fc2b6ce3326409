import Cas.Append.Serving

/-!
# A needed fence fits

`check_append` leaves one block of the segment for a fence. Only a fence takes that block, and a
synced fence covers everything issued, so a log that does not cover its issued prefix still has it.
A rotation and both recoveries start from a segment with room. `flush` therefore never has to roll
over, which it could not: a log with an uncovered prefix is not drained.
-/

namespace Cas.Append

open Bytes
open Except (bind_congr_right bind_eq_ok ite_error_eq_ok)
open Manifest (View)

namespace Log

/-- Outside a cohort, the log covers what it issued or has room for a fence. -/
def FenceFits (l : Log) : Prop :=
  l.cohort = none → l.coversFlush l.issued = false → l.offset + BLOCK_SIZE ≤ l.config.segmentBytes

/-- `FenceFits` reads these fields only. -/
theorem FenceFits.congr {l l' : Log} (h : l.FenceFits) (hc : l'.cohort = l.cohort)
    (hi : l'.issued = l.issued) (hf : l'.fenced = l.fenced) (hd : l'.durable = l.durable)
    (ho : l'.offset = l.offset) (hg : l'.config = l.config) : l'.FenceFits := by
  intro h1 h2
  rw [hc] at h1
  rw [coversFlush, hf, hd, hi] at h2
  rw [ho, hg]
  exact h h1 h2

theorem FenceFits.of_room {l : Log} (h : l.offset + BLOCK_SIZE ≤ l.config.segmentBytes) :
    l.FenceFits :=
  fun _ _ => h

theorem FenceFits.of_covers {l : Log} (h : l.coversFlush l.issued = true) : l.FenceFits := by
  intro _ h'
  cases h.symm.trans h'

end Log

namespace Staging

variable [Digest] {s : Staging}

theorem Positions.two_blocks (hi : s.Positions) : BLOCK_SIZE + BLOCK_SIZE ≤ s.log.config.segmentBytes := by
  have hcap := (SegmentHeader.validate_eq_ok.1 hi.active_accepts.2.valid).2.2.1.1
  rw [hi.config_eq.2]
  omega

theorem Positions.append_room (hi : s.Positions) {b : Builder} {ds : List Descriptor}
    (hb : b.Wf ds) {sub : Submission} {l : Log} (h : s.log.prepareAppend b = .ok (sub, l)) :
    l.offset + BLOCK_SIZE ≤ l.config.segmentBytes := by
  obtain ⟨-, -, -, -, hacc, -, -, hfence, -, -⟩ := hi.append_record hb h
  obtain ⟨-, batch, -, rfl, rfl⟩ := Log.prepareAppend_eq_ok.1 h
  have hroom := ((Header.follows_iff.1 hacc.follows).2.2.1.2.2.2 hfence).2
  have hlen := hacc.length
  show s.log.offset + batch.bytes.length + BLOCK_SIZE ≤ s.log.config.segmentBytes
  rw [hi.config_eq.2, hlen, hi.offset]
  exact hroom

end Staging

/-! ## Serving -/

namespace Serving

variable [Digest] {s s' : Serving} {st : Staging} {c : Call} {result : Except LogError Unit}

theorem Holds.sync_covers (h : s.Holds st) {sub : Submission} {l : Log}
    (hp : s.log.completeSync sub = .ok l) : l.coversFlush l.issued = true := by
  have hb := h.positions.bounded
  rw [h.log] at hb
  obtain ⟨-, -, -, hcohort, -, -, rfl⟩ := Log.completeSync_eq_ok.1 hp
  have hbound : sub.batch.envelope.last = s.log.issued := hb.cohort _ hcohort
  simp [Log.coversFlush, hbound]

theorem Holds.call_fenceFits (h : s.Holds st) (hf : s.log.FenceFits) (hc : c.Admissible)
    (hcall : s.call c = some (s', result)) : s'.log.FenceFits := by
  cases c with
  | prepareAppend b =>
    obtain ⟨rfl, -⟩ := Prod.mk.inj (Option.some.inj hcall)
    cases hp : s.log.prepareAppend b with
    | error e => exact hf
    | ok p =>
      obtain ⟨ds, hw⟩ := hc.wf
      rw [← h.log] at hp
      exact .of_room (h.positions.append_room hw hp)
  | publishAppend i =>
    obtain ⟨sub, -, heq⟩ := Option.map_eq_some_iff.1 hcall
    obtain ⟨rfl, -⟩ := Prod.mk.inj heq
    cases hp : s.log.publishAppend sub with
    | error e => exact hf
    | ok l =>
      obtain ⟨-, -, _, -, -, -, -, _, -, rfl⟩ := Log.publishAppend_eq_ok.1 hp
      exact hf.congr rfl rfl rfl rfl rfl rfl
  | prepareFence =>
    obtain ⟨rfl, -⟩ := Prod.mk.inj (Option.some.inj hcall)
    cases hp : s.log.prepareFence with
    | error e => exact hf
    | ok p =>
      obtain ⟨sub, l⟩ := p
      obtain ⟨-, _, -, -, rfl⟩ := Log.prepareFence_eq_ok.1 hp
      exact fun hnone _ => nomatch hnone
  | completeSync i =>
    obtain ⟨sub, -, heq⟩ := Option.map_eq_some_iff.1 hcall
    obtain ⟨rfl, -⟩ := Prod.mk.inj heq
    cases hp : s.log.completeSync sub with
    | error e => exact hf
    | ok l => exact .of_covers (h.sync_covers hp)
  | prepareRotation kind =>
    obtain ⟨rfl, -⟩ := Prod.mk.inj (Option.some.inj hcall)
    cases hp : s.log.prepareRotation kind with
    | error e => exact hf
    | ok p =>
      obtain ⟨r, l⟩ := p
      obtain ⟨rfl, -⟩ := Staging.prepareRotation_eq_ok hp
      exact hf.congr rfl rfl rfl rfl rfl rfl
  | cancelRotation =>
    obtain ⟨r, -, heq⟩ := Option.map_eq_some_iff.1 hcall
    obtain ⟨rfl, -⟩ := Prod.mk.inj heq
    cases hp : s.log.cancelRotation r with
    | error e => exact hf
    | ok l =>
      obtain ⟨-, -, -, rfl⟩ := Log.cancelRotation_eq_ok.1 hp
      exact hf.congr rfl rfl rfl rfl rfl rfl
  | installRotation =>
    obtain ⟨r, -, heq⟩ := Option.map_eq_some_iff.1 hcall
    obtain ⟨rfl, -⟩ := Prod.mk.inj heq
    obtain ⟨-, -, -, allocated, hi⟩ | ⟨e, hi | hi⟩ := s.log.installRotation_cases r
    · have hroom := h.positions.two_blocks
      rw [h.log] at hroom
      show (s.log.installRotation r).1.FenceFits
      rw [hi]
      exact .of_room hroom
    · show (s.log.installRotation r).1.FenceFits
      rw [hi]
      exact hf
    · show (s.log.installRotation r).1.FenceFits
      rw [hi]
      exact hf.congr rfl rfl rfl rfl rfl rfl
  | publishCompaction cp =>
    obtain ⟨rfl, -⟩ := Prod.mk.inj (Option.some.inj hcall)
    cases hp : s.log.publishCompaction cp with
    | error e => exact hf
    | ok l =>
      obtain ⟨-, -, -, -, -, rfl⟩ := Log.publishCompaction_eq_ok.1 hp
      exact hf.congr rfl rfl rfl rfl rfl rfl

end Serving

/-! ## Recovery -/

namespace Staging

variable [Digest] {s : Staging} {c c₁ c₂ : Creation} {l : Log}

theorem Recovering.rotate_room (hr : s.Recovering) {epoch : Option Nat}
    (h : s.log.rotate epoch c = .ok l) : l.offset + BLOCK_SIZE ≤ l.config.segmentBytes := by
  obtain ⟨⟨prepared, l₁⟩, hrot, h⟩ := bind_eq_ok.1 h
  obtain ⟨-, -, -, -, -, rfl, rfl⟩ := Log.rotation_eq_ok hrot
  obtain ⟨made, -, h⟩ := bind_eq_ok.1 h
  split at h
  case h_2 => cases h
  rename_i l₂ hinst
  obtain ⟨-, allocated, rfl⟩ := installRotation_eq_ok hinst
  have hl := Except.ok.inj h
  subst hl
  exact hr.inv.toPositions.two_blocks

theorem flush_covers (h : s.log.flush c = .ok l) : l.coversFlush l.published = true := by
  obtain ⟨-, -, h⟩ := bind_eq_ok.1 h
  rw [ite_error_eq_ok] at h
  obtain ⟨-, h⟩ := h
  split at h
  · rename_i hcov
    have hl := Except.ok.inj h
    subst hl
    exact hcov
  · obtain ⟨⟨sub, l₁⟩, -, hs⟩ := bind_eq_ok.1 h
    obtain ⟨-, -, -, -, -, hpub, rfl⟩ := Log.completeSync_eq_ok.1 hs
    simp [Log.coversFlush, hpub]

theorem Recovering.flush_fenceFits (hr : s.Recovering) (hc : c.Follows s.log)
    (h : s.log.flush c = .ok l) : l.FenceFits := by
  obtain ⟨s', rfl, hq, -⟩ := hr.flush hc h
  have hcov := flush_covers h
  rw [← hq.issued] at hcov
  exact .of_covers hcov

theorem Recovering.append_fenceFits (hr : s.Recovering) {b : Builder} {ds : List Descriptor}
    (hb : b.Wf ds) (hc₁ : c₁.Follows s.log) (hc₂ : ∀ l', s.log.flush c₁ = .ok l' → c₂.Follows l')
    (h : s.log.append b c₁ c₂ = .ok l) : l.FenceFits := by
  obtain ⟨l₀, htarget, h⟩ := bind_eq_ok.1 h
  obtain ⟨s₀, rfl, hr₀, -⟩ := hr.appendTarget hc₁ hc₂ htarget
  obtain ⟨⟨sub, l₁⟩, hprep, hpub⟩ := bind_eq_ok.1 h
  have hroom := hr₀.inv.append_room hb (settled_prepareAppend hprep)
  obtain ⟨-, -, _, -, -, -, -, _, -, rfl⟩ := Log.publishAppend_eq_ok.1 hpub
  exact .of_room hroom

end Staging

section Live

variable [Digest]

/-- A live replacement starts with room for a fence: a full segment is left first. -/
theorem LivePlan.start_fenceFits {p : LivePlan} {r : LiveRecovery} {c : Creation} {s : Staging}
    (hlog : s.log = p.recovery.repair) (hs : s.Recovering) (h : p.start c = .ok r) :
    r.log.FenceFits := by
  unfold LivePlan.start at h
  simp only at h
  split at h
  · obtain ⟨l, hrot, h⟩ := bind_eq_ok.1 h
    have hr := Except.ok.inj h
    subst hr
    rw [← hlog] at hrot
    exact .of_room (hs.rotate_room hrot)
  · rename_i hfits
    have hr := Except.ok.inj h
    subst hr
    exact .of_room (not_lt.1 hfits)

theorem LiveRecovery.Replays.fenceFits {r r' : LiveRecovery} (h : r.Replays r')
    (hid : ∀ m ∈ r.remaining, m.id.Fits) {s : Staging} (hlog : s.log = r.log) (hs : s.Recovering)
    (hf : r.log.FenceFits) : r'.log.FenceFits := by
  induction h with
  | refl => exact hf
  | step hr hc₁ hc₂ hn ih =>
    obtain ⟨hid₁, s₁, hlog₁, hs₁⟩ := hr.recovering hid hlog hs
    obtain ⟨m, b, hrem, hb, -, happ⟩ := replayNext_eq_ok hn
    rw [hrem] at hid₁
    obtain ⟨ds, hw⟩ := (batchOf_built (hid₁ m (by simp)) hb).wf
    rw [← hlog₁] at hc₁ hc₂ happ
    exact hs₁.append_fenceFits hw hc₁ hc₂ happ

/-- A log that replays the mutations of a live replacement. -/
inductive Log.Replaying : Log → Prop
  | intro {d : Directory} {limits : Limits} {base : Nat} {rec : Recovery} {view : Option View}
      {required epoch highest : Nat} {ms : List Mutation} {p : LivePlan} {r r' : LiveRecovery}
      {c : Creation} (hin : Log.inspectIn d limits base = .ok rec)
      (hv : (view.elim 0 fun v => v.commit.durable) = base) (hid : ∀ m ∈ ms, m.id.Fits)
      (hp : (rec.stabilized view).prepareLive required epoch highest ms = .ok p)
      (hc : c.Follows rec.log) (hs : p.start c = .ok r) (hr : r.Replays r') : Replaying r'.log

theorem Log.Replaying.recovering {l : Log} (h : l.Replaying) :
    (∃ s : Staging, s.log = l ∧ s.Recovering) ∧ l.FenceFits := by
  obtain ⟨hin, hv, hid, hp, hc, hs, hr⟩ := h
  rename_i d limits base rec view required epoch highest ms p r r' c
  obtain ⟨closed, active, hsound⟩ := Log.sound_of_inspectIn hin
  obtain ⟨hrec, hepoch, -, -, -, -, -, hrem⟩ := Recovery.prepareLive_eq_ok hp
  obtain ⟨origin, hs₀⟩ := hsound.recovering hv (rec.stabilized view).repair.rejectedBytes
  rw [← hrec] at hepoch
  obtain ⟨hrem', s₁, hl₁, hs₁, -⟩ :=
    LivePlan.start_recovering (by rw [hrec]; rfl) hs₀ hepoch (by rw [hrec]; exact hc) hs
  have hf₁ := LivePlan.start_fenceFits (by rw [hrec]; rfl) hs₀ hs
  have hid' : ∀ m ∈ r.remaining, m.id.Fits := by
    intro m hm
    rw [hrem', hrem] at hm
    exact hid m (List.mem_mergeSort.1 (List.mem_of_mem_filter hm))
  exact ⟨(hr.recovering hid' hl₁ hs₁).2, hr.fenceFits hid' hl₁ hs₁ hf₁⟩

theorem Log.Starts.fenceFits {l : Log} (h : l.Starts) : l.FenceFits := by
  cases h with
  | created hfit h =>
    have hpos := (Log.create_quiet hfit h).1.inv.toPositions
    have hroom := hpos.two_blocks
    have hoff : l.offset = BLOCK_SIZE := hpos.offset
    exact .of_room (by rw [hoff]; exact hroom)
  | @fresh d limits base rec view _ c₁ c₂ l hin hv hc₁ hc₂ h =>
    obtain ⟨closed, active, hsound⟩ := Log.sound_of_inspectIn hin
    obtain ⟨-, -, h⟩ := bind_eq_ok.1 h
    obtain ⟨l₁, hrot, h⟩ := bind_eq_ok.1 h
    obtain ⟨origin, hr⟩ := hsound.recovering hv (rec.stabilized view).repair.rejectedBytes
    obtain ⟨s₁, rfl, hr₁, -⟩ := hr.rotate (by simp) hc₁ hrot
    exact hr₁.flush_fenceFits (hc₂ _ hrot) h
  | live hin hv hid hp hc₁ hs hr hc₂ hf =>
    obtain ⟨s, hl, hs'⟩ := (Log.Replaying.intro hin hv hid hp hc₁ hs hr).recovering.1
    unfold LiveRecovery.finish at hf
    rw [ite_error_eq_ok] at hf
    rw [← hl] at hf hc₂
    exact hs'.flush_fenceFits hc₂ hf.2

theorem Serving.Reachable.fenceFits {s : Serving} (h : s.Reachable) : s.log.FenceFits := by
  induction h with
  | start h => exact h.fenceFits
  | call hs hc h ih =>
    obtain ⟨st, hst⟩ := hs.holds
    exact hst.call_fenceFits ih hc h
  | create _ _ _ ih => exact ih
  | ticket _ _ _ ih => exact ih

end Live

theorem Builder.Built.single [Digest] (imageBytes length : Nat)
    (hi : imageBytes ≠ 0 ∧ imageBytes % BLOCK_SIZE = 0)
    (hl : length ≤ MAX_REQUEST_BYTES ∧ length % BLOCK_SIZE = 0)
    (hr : validRange 0 length imageBytes = true) : ∃ b : Builder, b.Built ∧ b.descriptors = 1 ∧
      b.payloadBytes = length ∧ b.imageBytes = imageBytes := by
  have hid : RequestId.Fits ⟨1, 1, 0, 0⟩ := by constructor <;> decide
  obtain ⟨b, hb, hnew⟩ : ∃ b : Builder, b = ⟨zeros (BLOCK_SIZE + length), imageBytes, 0, 0, 0⟩ ∧
      Builder.new imageBytes length = .ok b :=
    ⟨_, rfl, requireFormat_bind_eq_ok.2 ⟨hi, requireFormat_bind_eq_ok.2 ⟨hl, rfl⟩⟩⟩
  have hadm : b.admits ⟨1, 1, 0, 0⟩ 0 length length = .ok () := by
    refine Builder.admits_eq_ok.2 ⟨?_, ?_, ?_, ?_⟩
    · rw [hb]
      exact Nat.zero_lt_succ _
    · rw [hb]
      exact ⟨zero_lt_one, one_ne_zero⟩
    · rw [hb]
      exact hr
    · rw [Builder.allocationBytes, hb]
      simp only [length_zeros]
      omega
  have hadd : b.Adds (b.write ⟨1, 1, 0, 0⟩ 0 length ⟨[], false⟩).1 ⟨1, 1, 0, 0⟩ .write 0 length
      length := (Builder.write_adds hid hadm rfl).2
  obtain ⟨d, -, hw⟩ := hadd.wf [] (Builder.wf_new hnew)
  refine ⟨_, .write (.new hnew) hid 0 length ⟨[], false⟩, hw.count, ?_, ?_⟩
  · rw [hadd.payloadBytes, hb]
    exact zero_add length
  · rw [hadd.imageBytes, hb]

/-! ## What follows for `flush` and `append` -/

namespace Log

variable [Digest] {l : Log}

end Log

end Cas.Append
