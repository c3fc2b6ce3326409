import Cas.Append.Trace

/-!
# What each operation of the log does

One lemma per operation of `Cas.Append.Log`: when it succeeds, its checks held and the new log is
the stated update of the old one. Later modules use these and never unfold an operation.
-/

namespace Cas.Append

open Bytes
open Except (bind_eq_ok ite_error_eq_ok)

namespace Log

variable {l : Log} {u : Unit}

theorem healthy_eq_ok : l.healthy = .ok u ↔ l.failed = false := by
  unfold healthy
  cases l.failed <;> simp

theorem healthy_failsOnly {P : LogError → Prop} (h : P .failed) :
    Except.FailsOnly P l.healthy := by
  unfold healthy
  exact .ite (fun _ => .error h) fun _ => .ok ()

variable {s : Submission}

theorem owns_eq_ok :
    l.owns s = .ok u ↔ s.segment = l.current.header.number := by
  unfold owns
  split <;> simp [*]

/-- The checks of `check_append`. -/
structure CanAppend (l : Log) (b : Builder) : Prop where
  healthy : l.failed = false
  cohort : l.cohort = none
  rotating : l.rotating = false
  nonempty : b.isEmpty = false
  image : b.imageBytes = l.config.imageBytes
  capacity : b.descriptors ≤ l.appendCapacity
  issued : l.issued + b.descriptors < U64
  batch : l.nextBatch + 1 < U64
  room : l.offset + (BLOCK_SIZE + b.payloadBytes) + BLOCK_SIZE ≤ l.config.segmentBytes

theorem checkedAdd_eq_none {a b : Nat} : checkedAdd a b = none ↔ U64 ≤ a + b := by
  unfold checkedAdd
  split <;> simp <;> omega

theorem checkAppend_eq_ok {b : Builder} :
    l.checkAppend b = .ok u ↔ l.CanAppend b := by
  unfold checkAppend
  simp only [bind_eq_ok, ite_error_eq_ok, healthy_eq_ok, checkedAdd_eq_none, not_or,
    Bool.not_eq_true, ne_eq, not_not, not_lt, not_le, Option.isSome_eq_false_iff,
    Option.isNone_iff_eq_none, gt_iff_lt, and_true]
  constructor
  · rintro ⟨u, hh, ⟨h1, h2⟩, ⟨h3, h4⟩, h5, ⟨h6, h7⟩, h8⟩
    exact ⟨hh, h1, h2, h3, h4, h5, h6, h7, h8⟩
  · rintro ⟨hh, h1, h2, h3, h4, h5, h6, h7, h8⟩
    exact ⟨u, hh, ⟨h1, h2⟩, ⟨h3, h4⟩, h5, ⟨h6, h7⟩, h8⟩

variable [Digest]

/-- The log after a record was placed in the current segment. -/
@[simp] def placed (l : Log) (batch : Batch) : Log :=
  { l with
    offset := l.offset + batch.bytes.length
    current := { l.current with stop := l.offset + batch.bytes.length }
    encodedBytes := l.encodedBytes + batch.bytes.length
    nextBatch := l.nextBatch + 1 }

variable {l' : Log}

theorem prepareAppend_eq_ok {b : Builder} :
    l.prepareAppend b = .ok (s, l') ↔ l.CanAppend b ∧
      ∃ batch, b.sealBatch l.current.header.number l.nextBatch (l.issued + 1) = .ok batch ∧
        s = ⟨batch, l.current.header.number, l.offset⟩ ∧
        l' = { l.placed batch with
          issued := batch.envelope.last
          pendingDescriptors := l.pendingDescriptors + b.descriptors } := by
  unfold prepareAppend
  simp only [bind_eq_ok, checkAppend_eq_ok, Except.mapError_eq_ok, reserve, pure,
    Except.pure, Except.ok.injEq, Prod.mk.injEq, placed]
  constructor
  · rintro ⟨u, hc, batch, hb, hs, hl⟩
    exact ⟨hc, batch, hb, hs.symm, hl.symm⟩
  · rintro ⟨hc, batch, hb, hs, hl⟩
    exact ⟨(), hc, batch, hb, hs.symm, hl.symm⟩

theorem publish_eq_ok {h : Header} {segment offset : Nat} :
    l.publish h segment offset = .ok l' ↔
      ∃ index, publishEntries l.index (h.descriptors.map (located segment offset)) = some index ∧
        l' = { l with index, published := h.envelope.last } := by
  unfold publish
  cases publishEntries l.index (h.descriptors.map (located segment offset)) with
  | none => simp
  | some index => simp [eq_comm]

theorem publishAppend_eq_ok :
    l.publishAppend s = .ok l' ↔ l.failed = false ∧ s.segment = l.current.header.number ∧
      ∃ h, Header.decode (s.batch.bytes.slice 0 BLOCK_SIZE) l.config.imageBytes = .ok h ∧
        h.envelope.fence = false ∧ l.published + 1 = h.envelope.first ∧ h.envelope.first < U64 ∧
        ∃ index, publishEntries l.index (h.descriptors.map (located s.segment s.offset)) =
            some index ∧
          l' = { l with
            index
            published := h.envelope.last
            pendingDescriptors := l.pendingDescriptors - h.envelope.descriptors } := by
  unfold publishAppend
  simp only [bind_eq_ok, ite_error_eq_ok, healthy_eq_ok, owns_eq_ok,
    Except.mapError_eq_ok, publish_eq_ok, not_or, Bool.not_eq_true, not_le, ne_eq, not_not,
    checkedAdd_eq_some, pure, Except.pure, Except.ok.injEq]
  constructor
  · rintro ⟨u, hh, v, ho, h, hd, ⟨hf, -⟩, ⟨h1, h2⟩, l₁, ⟨index, hi, rfl⟩, rfl⟩
    exact ⟨hh, ho, h, hd, hf, h1, h2, index, hi, rfl⟩
  · rintro ⟨hh, ho, h, hd, hf, h1, h2, index, hi, rfl⟩
    exact ⟨(), hh, (), ho, h, hd, ⟨hf, by omega⟩, ⟨h1, h2⟩, _, ⟨index, hi, rfl⟩, rfl⟩

/-- The checks of `prepare_fence`. -/
structure CanFence (l : Log) : Prop where
  healthy : l.failed = false
  cohort : l.cohort = none
  rotating : l.rotating = false
  room : l.offset + BLOCK_SIZE ≤ l.config.segmentBytes
  batch : l.nextBatch + 1 < U64

theorem prepareFence_eq_ok :
    l.prepareFence = .ok (s, l') ↔ l.CanFence ∧
      ∃ batch, Batch.fence l.current.header.number l.nextBatch l.issued = .ok batch ∧
        s = ⟨batch, l.current.header.number, l.offset⟩ ∧
        l' = { l.placed batch with cohort := some s.cohort } := by
  unfold prepareFence
  simp only [bind_eq_ok, ite_error_eq_ok, healthy_eq_ok, Except.mapError_eq_ok,
    reserve, not_or, Option.isSome_eq_false_iff, Option.isNone_iff_eq_none, Bool.not_eq_true,
    not_lt, not_le, gt_iff_lt, checkedAdd_eq_none, pure, Except.pure, Except.ok.injEq,
    Prod.mk.injEq, placed]
  constructor
  · rintro ⟨u, hh, ⟨h1, h2⟩, h3, h4, batch, hb, rfl, hl⟩
    exact ⟨⟨hh, h1, h2, h3, h4⟩, batch, hb, rfl, hl.symm⟩
  · rintro ⟨⟨hh, h1, h2, h3, h4⟩, batch, hb, rfl, hl⟩
    exact ⟨(), hh, ⟨h1, h2⟩, h3, h4, batch, hb, rfl, hl.symm⟩

omit [Digest]

theorem readyToSync_eq_ok {r : Bool} :
    l.readyToSync s = .ok r ↔ l.failed = false ∧ s.segment = l.current.header.number ∧
      s.batch.envelope.fence = true ∧ l.cohort = some s.cohort ∧
      r = decide (l.pendingDescriptors = 0 ∧ l.published = s.batch.envelope.last) := by
  unfold readyToSync
  simp only [bind_eq_ok, ite_error_eq_ok, healthy_eq_ok, owns_eq_ok, not_or,
    Bool.not_eq_false, ne_eq, not_not, Except.ok.injEq]
  constructor
  · rintro ⟨u, hh, v, ho, ⟨hf, hc⟩, rfl⟩
    exact ⟨hh, ho, hf, hc, rfl⟩
  · rintro ⟨hh, ho, hf, hc, rfl⟩
    exact ⟨(), hh, (), ho, ⟨hf, hc⟩, rfl⟩

theorem completeSync_eq_ok :
    l.completeSync s = .ok l' ↔ l.failed = false ∧ s.segment = l.current.header.number ∧
      s.batch.envelope.fence = true ∧ l.cohort = some s.cohort ∧
      l.pendingDescriptors = 0 ∧ l.published = s.batch.envelope.last ∧
      l' = { l with durable := s.batch.envelope.last, fenced := true, cohort := none } := by
  unfold completeSync
  simp only [bind_eq_ok, readyToSync_eq_ok]
  constructor
  · rintro ⟨r, ⟨hh, ho, hf, hc, hr⟩, h⟩
    cases r with
    | false => cases h
    | true =>
      have hr := of_decide_eq_true hr.symm
      simp only [if_true, pure, Except.pure, Except.ok.injEq] at h
      exact ⟨hh, ho, hf, hc, hr.1, hr.2, h.symm⟩
  · rintro ⟨hh, ho, hf, hc, h1, h2, rfl⟩
    exact ⟨true, ⟨hh, ho, hf, hc, by simp [h1, h2]⟩, rfl⟩

theorem drained_eq_ok :
    l.drained = .ok u ↔ l.failed = false ∧ l.rotating = false ∧ l.cohort = none ∧
      l.pendingDescriptors = 0 ∧ l.issued = l.published ∧ l.durable = l.published := by
  unfold drained
  simp only [bind_eq_ok, ite_error_eq_ok, healthy_eq_ok, not_or, Bool.not_eq_true,
    ne_eq, not_not, Option.isSome_eq_false_iff, Option.isNone_iff_eq_none, and_true, exists_const]

theorem rotation_eq_ok {epoch : Option Nat} {r : Rotation}
    (h : l.rotation epoch = .ok (r, l')) : l.failed = false ∧ l.rotating = false ∧
      l.cohort = none ∧ l.issued = l.published ∧ l.config.segmentBytes / BLOCK_SIZE < 2 ^ 32 ∧
      r = ⟨l.boundary, l.config, l.highestSegment, epoch⟩ ∧ l' = { l with rotating := true } := by
  unfold rotation at h
  simp only [bind_eq_ok, ite_error_eq_ok, healthy_eq_ok, not_or, Bool.not_eq_true,
    ne_eq, not_not, Option.isSome_eq_false_iff, Option.isNone_iff_eq_none, not_le, ge_iff_le,
    Except.ok.injEq, Prod.mk.injEq] at h
  obtain ⟨u, hh, ⟨h1, h2, h3⟩, -, -, h4, h5, h6⟩ := h
  exact ⟨hh, h1, h2, h3, h4, h5.symm, h6.symm⟩

theorem boundaryMatches_eq_ok {b : Boundary} :
    l.boundaryMatches b = .ok u ↔ l.rotating = true ∧ b = l.boundary := by
  unfold boundaryMatches
  split <;> simp_all

theorem cancelRotation_eq_ok {r : Rotation} :
    l.cancelRotation r = .ok l' ↔ l.failed = false ∧ l.rotating = true ∧ r.boundary = l.boundary ∧
      l' = { l with rotating := false } := by
  unfold cancelRotation
  simp only [bind_eq_ok, healthy_eq_ok, boundaryMatches_eq_ok, pure, Except.pure,
    Except.ok.injEq, exists_const, and_assoc, eq_comm (a := l')]

/-- The log after a created segment became its current one. -/
def entered (l : Log) (segment : Segment) (allocated : Nat) : Log :=
  { l with
    highestSegment := segment.header.number
    allocatedBytes := allocated
    older := l.older ++ [l.current]
    current := segment
    offset := BLOCK_SIZE
    nextBatch := 1
    fenced := false
    rotating := false
    encodedBytes := l.encodedBytes + BLOCK_SIZE }

/-- An installation either makes the created segment the current one, or fails; then the log is
unchanged or failed. -/
theorem installRotation_cases (l : Log) (r : Rotated) :
    (l.failed = false ∧ l.rotating = true ∧ r.boundary = l.boundary ∧
      ∃ allocated, l.installRotation r = (l.entered r.segment allocated, .ok ())) ∨
    ∃ e, l.installRotation r = (l, .error e) ∨
      l.installRotation r = ({ l with failed := true }, .error e) := by
  unfold installRotation
  cases hm : (do l.healthy; l.boundaryMatches r.boundary : Except LogError Unit) with
  | error e => exact Or.inr ⟨e, Or.inl rfl⟩
  | ok u =>
    simp only [bind_eq_ok, healthy_eq_ok, boundaryMatches_eq_ok] at hm
    obtain ⟨-, hh, hr, hb⟩ := hm
    cases ha : (checkedAdd l.allocatedBytes r.allocated).filter
        fun bytes => bytes ≤ l.limits.stagingBytes with
    | none => exact Or.inr ⟨_, Or.inr rfl⟩
    | some allocated => exact Or.inl ⟨hh, hr, hb, allocated, rfl⟩

theorem publishCompaction_eq_ok {c : Compacted} :
    l.publishCompaction c = .ok l' ↔ l.failed = false ∧ l.base = some c.previous ∧
      c.previous.commit.durable < c.view.commit.durable ∧ c.view.commit.durable ≤ l.durable ∧
      c.cursor.sequence = c.view.commit.durable ∧
      l' = { l with
        index := l.index.retainAfter c.view.commit.durable
        cursor := some c.cursor
        base := some c.view } := by
  unfold publishCompaction
  simp only [bind_eq_ok, healthy_eq_ok]
  cases l.base with
  | none => simp
  | some base =>
    simp only [ite_error_eq_ok, not_not, ne_eq, Except.ok.injEq, Option.some.injEq]
    constructor
    · rintro ⟨u, hh, ⟨rfl, h1, h2⟩, h3, rfl⟩
      exact ⟨hh, rfl, h1, h2, h3, rfl⟩
    · rintro ⟨hh, rfl, h1, h2, h3, rfl⟩
      exact ⟨(), hh, ⟨rfl, h1, h2⟩, h3, rfl⟩

/-- Applying reclamation results touches the older segments and the allocation count only, and it
removes only segments that a change names. -/
theorem applyChanges_spec (l : Log) (cs : List Change) :
    ∃ gone : List Nat, ∃ allocated,
      (∀ n ∈ gone, n ≠ l.current.header.number ∧ ∃ c ∈ cs, c.removed = true ∧ c.number = n) ∧
      (l.applyChanges cs).1 = { l with
        older := l.older.filter fun s => s.header.number ∉ gone
        allocatedBytes := allocated } := by
  induction cs generalizing l with
  | nil => exact ⟨[], l.allocatedBytes, by simp, by simp [applyChanges]⟩
  | cons c cs ih =>
    have step : ∃ gone : List Nat, ∃ allocated,
        (∀ n ∈ gone, n ≠ l.current.header.number ∧ c.removed = true ∧ c.number = n) ∧
        (l.applyChange c).1 = { l with
          older := l.older.filter fun s => s.header.number ∉ gone
          allocatedBytes := allocated } := by
      unfold applyChange
      by_cases h1 : c.removed = true ∧ c.number = l.current.header.number
      · rw [if_pos h1]
        exact ⟨[], l.allocatedBytes, by simp, by simp⟩
      · rw [if_neg h1]
        cases hr : c.removed with
        | false =>
          simp only [Bool.false_eq_true, if_false]
          split
          · exact ⟨[], l.allocatedBytes, by simp, by simp⟩
          · exact ⟨[], _, by simp, by simp; rfl⟩
        | true =>
          have hne : c.number ≠ l.current.header.number := fun h => h1 ⟨hr, h⟩
          simp only [if_true]
          split
          · exact ⟨[c.number], l.allocatedBytes, by simpa using hne, by simp⟩
          · exact ⟨[c.number], _, by simpa using hne, by simp; rfl⟩
    obtain ⟨gone, allocated, hg, hl⟩ := step
    have hsame : ∀ n ∈ gone, n ≠ l.current.header.number ∧
        ∃ c' ∈ c :: cs, c'.removed = true ∧ c'.number = n := fun n hn =>
      ⟨(hg n hn).1, c, by simp, (hg n hn).2⟩
    rw [applyChanges]
    cases hc : l.applyChange c with
    | mk l₁ r =>
      rw [hc] at hl
      simp only at hl
      subst hl
      cases r with
      | error e => exact ⟨gone, allocated, hsame, rfl⟩
      | ok u =>
        obtain ⟨gone', allocated', hg', hl'⟩ := ih
          { l with
            older := l.older.filter fun s => s.header.number ∉ gone
            allocatedBytes := allocated }
        refine ⟨gone ++ gone', allocated', ?_, ?_⟩
        · intro n hn
          rcases List.mem_append.1 hn with hn | hn
          · exact hsame n hn
          · obtain ⟨h2, c', hc', h3⟩ := hg' n hn
            exact ⟨h2, c', List.mem_cons_of_mem c hc', h3⟩
        · simp only
          rw [hl']
          simp only [List.filter_filter, List.mem_append, not_or, Bool.decide_and]
          congr 2
          funext s
          rw [Bool.and_comm]

end Log

end Cas.Append
