import Cas.Append.Resumed

/-!
# The calls of a serving log

The image sequencer drives a serving log through a handful of calls, while a worker creates the
segment files of prepared rotations. `Serving` is the log with everything its callers hold: the
submissions it returned, the rotation it prepared and the segment created for it. A refused call
returns its error; all but `install_rotation` then leave the log as it was.
-/

namespace Cas.Append

open Bytes List
open Manifest (View)

/-- A log that serves was just created, or its recovery has finished. -/
inductive Log.Starts [Digest] : Log → Prop
  | created {config : Config} {limits : Limits} {base : Option View} {c : Creation} {l : Log}
      (hfit : config.Fits) (h : Log.create config limits base c = .ok l) : Starts l
  | fresh {d : Directory} {limits : Limits} {base : Nat} {rec : Recovery} {view : Option View}
      {required : Nat} {c₁ c₂ : Creation} {l : Log} (hin : Log.inspectIn d limits base = .ok rec)
      (hv : (view.elim 0 fun v => v.commit.durable) = base) (hc₁ : c₁.Follows rec.log)
      (hc₂ : ∀ l', (rec.stabilized view).repair.rotate none c₁ = .ok l' → c₂.Follows l')
      (h : (rec.stabilized view).fresh required c₁ c₂ = .ok l) : Starts l
  | live {d : Directory} {limits : Limits} {base : Nat} {rec : Recovery} {view : Option View}
      {required epoch highest : Nat} {ms : List Mutation} {p : LivePlan} {r r' : LiveRecovery}
      {c₁ c₂ : Creation} {l : Log} (hin : Log.inspectIn d limits base = .ok rec)
      (hv : (view.elim 0 fun v => v.commit.durable) = base) (hid : ∀ m ∈ ms, m.id.Fits)
      (hp : (rec.stabilized view).prepareLive required epoch highest ms = .ok p)
      (hc₁ : c₁.Follows rec.log) (hs : p.start c₁ = .ok r) (hr : r.Replays r')
      (hc₂ : c₂.Follows r'.log) (hf : r'.finish c₂ = .ok l) : Starts l

/-- A log that starts to serve has everything it wrote synced. -/
theorem Log.Starts.quiet [Digest] {l : Log} (h : l.Starts) : ∃ s : Staging, s.log = l ∧ s.Quiet := by
  cases h with
  | created hfit h =>
    exact ⟨Staging.created _, rfl, (Log.create_quiet hfit h).1⟩
  | fresh hin hv hc₁ hc₂ h => exact Recovery.fresh_quiet hin hv hc₁ hc₂ h
  | @live d limits base rec view _ _ _ ms p r r' c₁ c₂ l hin hv hid hp hc₁ hs hr hc₂ hf =>
    obtain ⟨closed, active, hsound⟩ := Log.sound_of_inspectIn hin
    obtain ⟨hrec, hepoch, -, -, -, -, -, hrem⟩ := Recovery.prepareLive_eq_ok hp
    obtain ⟨origin, hs₀⟩ := hsound.recovering hv (rec.stabilized view).repair.rejectedBytes
    rw [← hrec] at hepoch
    obtain ⟨hrem', s₁, hl₁, hs₁, -⟩ :=
      LivePlan.start_recovering (by rw [hrec]; rfl) hs₀ hepoch (by rw [hrec]; exact hc₁) hs
    have hid' : ∀ m ∈ r.remaining, m.id.Fits := by
      intro m hm
      rw [hrem', hrem] at hm
      exact hid m (mem_mergeSort.1 (mem_of_mem_filter hm))
    obtain ⟨-, s₂, hl₂, hs₂⟩ := hr.recovering hid' hl₁ hs₁
    obtain ⟨-, s₃, hl₃, hq, -⟩ := LiveRecovery.finish_quiet hl₂ hs₂ hc₂ hf
    exact ⟨s₃, hl₃, hq⟩

/-- A serving log and what its callers hold. `tickets` is the last number of the shared allocator. -/
structure Serving where
  log : Log
  handles : List Submission
  rotation : Option Rotation
  created : Option Rotated
  tickets : Option Nat

/-- The calls on a serving log. A submission is named by its place among the handles. -/
inductive Call
  | prepareAppend (b : Builder)
  | publishAppend (i : Nat)
  | prepareFence
  | completeSync (i : Nat)
  | prepareRotation (kind : RotationKind)
  | cancelRotation
  | installRotation
  | publishCompaction (c : Compacted)

/-- Builders come from their own operations. -/
def Call.Admissible [Digest] : Call → Prop
  | .prepareAppend b => b.Built
  | _ => True

namespace Serving

variable [Digest]

omit [Digest] in
/-- A call that changes the log only, or is refused. -/
def update (s : Serving) : Except LogError Log → Serving × Except LogError Unit
  | .ok l => ({ s with log := l }, .ok ())
  | .error e => (s, .error e)

omit [Digest] in
/-- A call that returns a submission, or is refused. -/
def submit (s : Serving) : Except LogError (Submission × Log) → Serving × Except LogError Unit
  | .ok (sub, l) => ({ s with log := l, handles := s.handles ++ [sub] }, .ok ())
  | .error e => (s, .error e)

/-- One call. There is none on a handle the caller does not hold. -/
def call (s : Serving) : Call → Option (Serving × Except LogError Unit)
  | .prepareAppend b => some (s.submit (s.log.prepareAppend b))
  | .publishAppend i => s.handles[i]?.map fun sub => s.update (s.log.publishAppend sub)
  | .prepareFence => some (s.submit s.log.prepareFence)
  | .completeSync i => s.handles[i]?.map fun sub => s.update (s.log.completeSync sub)
  | .prepareRotation kind => some <| match s.log.prepareRotation kind with
    | .ok (r, l) => ({ s with log := l, rotation := some r }, .ok ())
    | .error e => (s, .error e)
  | .cancelRotation => s.rotation.map fun r =>
    { s with rotation := none }.update (s.log.cancelRotation r)
  | .installRotation => s.created.map fun r =>
    let (l, result) := s.log.installRotation r
    ({ s with log := l, created := none }, result)
  | .publishCompaction c => some (s.update (s.log.publishCompaction c))

/-- The states of a serving log: calls of the sequencer, segments created by the worker, and numbers
other logs take from the shared allocator. -/
inductive Reachable : Serving → Prop
  | start {l : Log} {tickets : Option Nat} (h : l.Starts)
      (ht : ∀ last, tickets = some last → l.highestSegment ≤ last) :
      Reachable ⟨l, [], none, none, tickets⟩
  | call {s s' : Serving} {c : Call} {result : Except LogError Unit} (hs : Reachable s)
      (hc : c.Admissible) (h : s.call c = some (s', result)) : Reachable s'
  | create {s : Serving} {r : Rotation} {made : Rotated} {allocated : Nat} (hs : Reachable s)
      (hr : s.rotation = some r) (hm : r.create ⟨s.tickets, allocated⟩ = .ok made) :
      Reachable { s with
        rotation := none
        created := some made
        tickets := s.tickets.map fun _ => made.segment.header.number }
  | ticket {s : Serving} {last later : Nat} (hs : Reachable s) (ht : s.tickets = some last)
      (hle : last ≤ later) : Reachable { s with tickets := some later }

/-! ## What every call keeps -/

/-- The log stands on a history, and what its callers hold belongs to it. -/
structure Holds (s : Serving) (st : Staging) : Prop where
  log : st.log = s.log
  positions : st.Positions
  issued : ∀ sub ∈ s.handles, st.Issued sub
  tickets : ∀ last, s.tickets = some last → s.log.highestSegment ≤ last
  rotation : ∀ r, s.rotation = some r → s.log.rotating = true ∧ s.created = none ∧
    r.boundary = s.log.boundary ∧ r.config = s.log.config ∧ r.highest = s.log.highestSegment ∧
    ∀ e, r.epoch = some e → e < U64
  created : ∀ r, s.created = some r → s.log.rotating = true ∧ ∃ h, r.segment = ⟨h, BLOCK_SIZE⟩ ∧
    st.Continues h ∧ ∀ last, s.tickets = some last → h.number ≤ last

section Steps

variable {s : Serving} {st : Staging}

variable {sub : Submission} {l : Log}

omit [Digest] in
theorem issued_pushed {x : Submission} (h : st.Issued x) :
    (st.pushed sub l).Issued x := by
  obtain ⟨t, ht, hn, hr⟩ := h
  rcases mem_append.1 ht with ht | ht
  · exact ⟨t, mem_append_left _ ht, hn, hr⟩
  · rw [mem_singleton.1 ht] at hn hr
    exact ⟨st.active.push ⟨sub.offset, sub.batch⟩,
      mem_append_right _ (mem_singleton_self _), hn, mem_append_left _ hr⟩

omit [Digest] in
theorem issued_new (h : sub.segment = st.active.header.number) :
    (st.pushed sub l).Issued sub :=
  ⟨st.active.push ⟨sub.offset, sub.batch⟩, mem_append_right _ (mem_singleton_self _),
    h.symm, mem_append_right _ (mem_singleton_self _)⟩

theorem Holds.idle (h : s.Holds st) (hrot : s.log.rotating = false) :
    s.rotation = none ∧ s.created = none := by
  constructor
  · cases hr : s.rotation with
    | none => rfl
    | some r => cases hrot.symm.trans (h.rotation r hr).1
  · cases hr : s.created with
    | none => rfl
    | some r => cases hrot.symm.trans (h.created r hr).1

theorem Holds.change (h : s.Holds st) (hrot : s.log.rotating = false) {st' : Staging}
    (hpos : st'.Positions) (hhigh : st'.log.highestSegment = s.log.highestSegment)
    {handles : List Submission} (hiss : ∀ sub ∈ handles, st'.Issued sub) :
    Holds { s with log := st'.log, handles } st' := by
  obtain ⟨hr, hc⟩ := h.idle hrot
  refine ⟨rfl, hpos, hiss, ?_, ?_, ?_⟩
  · intro last hl
    exact hhigh.le.trans (h.tickets last hl)
  · intro r hr'
    cases hr.symm.trans hr'
  · intro r hr'
    cases hc.symm.trans hr'

theorem Holds.submitted (h : s.Holds st) (hrot : s.log.rotating = false)
    (hpos : (st.pushed sub l).Positions) (hseg : sub.segment = st.active.header.number)
    (hhigh : l.highestSegment = s.log.highestSegment) :
    Holds { s with log := l, handles := s.handles ++ [sub] } (st.pushed sub l) := by
  refine h.change hrot hpos hhigh ?_
  intro x hx
  rcases mem_append.1 hx with hx | hx
  · exact issued_pushed (h.issued x hx)
  · rw [mem_singleton.1 hx]
    exact issued_new hseg

theorem Holds.prepareAppend (h : s.Holds st) {b : Builder} (hb : b.Built)
    (hp : s.log.prepareAppend b = .ok (sub, l)) :
    Holds { s with log := l, handles := s.handles ++ [sub] } (st.pushed sub l) := by
  obtain ⟨ds, hw⟩ := hb.wf
  obtain ⟨hcan, batch, -, -, hl⟩ := Log.prepareAppend_eq_ok.1 hp
  rw [← h.log] at hp
  refine h.submitted hcan.rotating (h.positions.append hw hp) (h.positions.append_record hw hp).2.2.1 ?_
  rw [hl]
  rfl

theorem Holds.prepareFence (h : s.Holds st)
    (hp : s.log.prepareFence = .ok (sub, l)) :
    Holds { s with log := l, handles := s.handles ++ [sub] } (st.pushed sub l) := by
  obtain ⟨hcan, batch, -, -, hl⟩ := Log.prepareFence_eq_ok.1 hp
  rw [← h.log] at hp
  refine h.submitted hcan.rotating (h.positions.fence hp) (h.positions.fence_record hp).2.2.1 ?_
  rw [hl]
  rfl

theorem Holds.publishAppend (h : s.Holds st) (hsub : sub ∈ s.handles)
    (hp : s.log.publishAppend sub = .ok l) :
    Holds { s with log := l } { st with log := l } ∧ s.log.published + 1 = sub.batch.envelope.first ∧
      l.published = sub.batch.envelope.last ∧ s.log.published < l.published ∧
      l.durable = s.log.durable := by
  rw [← h.log] at hp
  have hiss := h.issued sub hsub
  obtain ⟨_, _, _, -, -, hlt, hle, -, hfirst, -, -, heq⟩ := h.positions.publish_record hiss hp
  have hrot : s.log.rotating = false := by
    rw [← h.log, ← Bool.not_eq_true]
    intro hr
    have := h.positions.rotating hr
    omega
  have hpos := h.positions.publish hiss hp
  rw [h.log] at hlt hfirst
  refine ⟨h.change hrot hpos ?_ h.issued, hfirst, ?_, ?_, ?_⟩
  · show l.highestSegment = _
    rw [heq, ← h.log]
  · rw [heq]
  · rw [heq]
    exact hlt
  · rw [heq, ← h.log]

theorem Holds.completeSync (h : s.Holds st)
    (hp : s.log.completeSync sub = .ok l) :
    Holds { s with log := l } (st.syncedNow l) ∧ s.log.cohort = some sub.cohort ∧
      l.durable = sub.cohort.boundary ∧ l.durable = s.log.published ∧
      l.published = s.log.published := by
  obtain ⟨-, -, -, hcohort, -, hpub, hl⟩ := Log.completeSync_eq_ok.1 hp
  rw [← h.log] at hp
  have hrot : s.log.rotating = false := by
    rw [← Bool.not_eq_true]
    intro hr
    rw [← h.log] at hr hcohort
    cases (h.positions.rotating hr).2.2.symm.trans hcohort
  have hpos := (h.positions.sync hp).1
  subst hl
  exact ⟨h.change hrot hpos rfl h.issued, hcohort, rfl, hpub.symm, rfl⟩

variable {r : Rotation}

theorem Holds.prepareRotation (h : s.Holds st) {kind : RotationKind}
    (hp : s.log.prepareRotation kind = .ok (r, l)) :
    Holds { s with log := l, rotation := some r } { st with log := l } := by
  obtain ⟨hl, hr, -, -, -, hrot⟩ := Staging.prepareRotation_eq_ok hp
  obtain ⟨-, hcreated⟩ := h.idle hrot
  rw [← h.log] at hp
  have hpos := h.positions.prepareRotation hp
  have hepoch : s.log.current.header.epoch < U64 := by
    rw [← h.log, h.positions.current]
    exact h.positions.active_accepts.2.fits.epoch
  refine ⟨rfl, hpos, h.issued, ?_, ?_, ?_⟩
  · intro last ht
    rw [hl]
    exact h.tickets last ht
  · intro r' hr'
    have hr' := Option.some.inj hr'
    subst hr'
    rw [hl, hr]
    refine ⟨rfl, hcreated, rfl, rfl, rfl, ?_⟩
    intro e he
    cases kind with
    | rollover =>
      rw [← Option.some.inj he]
      exact hepoch
    | freshAttachment => cases he
  · intro r' hr'
    cases hcreated.symm.trans hr'

theorem Holds.cancelRotation (h : s.Holds st) (hr : s.rotation = some r)
    (hp : s.log.cancelRotation r = .ok l) :
    Holds { s with log := l, rotation := none } { st with log := l } := by
  obtain ⟨-, hcreated, -⟩ := h.rotation r hr
  obtain ⟨-, -, -, hl⟩ := Log.cancelRotation_eq_ok.1 hp
  rw [← h.log] at hp
  refine ⟨rfl, h.positions.cancelRotation hp, h.issued, ?_, nofun, ?_⟩
  · intro last ht
    rw [hl]
    exact h.tickets last ht
  · intro r' hr'
    cases hcreated.symm.trans hr'

theorem Holds.drop (h : s.Holds st) : Holds { s with rotation := none, created := none } st :=
  ⟨h.log, h.positions, h.issued, h.tickets, nofun, nofun⟩

theorem Holds.installRotation (h : s.Holds st) {r : Rotated} (hr : s.created = some r)
    {result : Except LogError Unit} (hp : s.log.installRotation r = (l, result)) :
    (∃ st', Holds { s with log := l, created := none } st') ∧ l.durable = s.log.durable ∧
      l.published = s.log.published := by
  obtain ⟨hrot, hd, hseg, hcont, hlast⟩ := h.created r hr
  have hrotation : s.rotation = none := by
    cases hro : s.rotation with
    | none => rfl
    | some r' => cases (h.rotation r' hro).2.1.symm.trans hr
  obtain ⟨-, -, -, allocated, heq⟩ | ⟨e, heq | heq⟩ := s.log.installRotation_cases r
  · obtain ⟨hl, hres⟩ := Prod.mk.inj (heq.symm.trans hp)
    rw [← h.log, ← hres] at hp
    have hpos := h.positions.install hp hseg hcont
    refine ⟨⟨st.rotated hd l, rfl, hpos, ?_, ?_, ?_, nofun⟩, by rw [← hl]; rfl, by rw [← hl]; rfl⟩
    · intro sub hsub
      obtain ⟨t, ht, hn, hrec⟩ := h.issued sub hsub
      exact ⟨t, mem_append_left _ ht, hn, hrec⟩
    · intro last ht
      rw [← hl]
      show r.segment.header.number ≤ last
      rw [hseg]
      exact hlast last ht
    · intro r' hr'
      cases hrotation.symm.trans hr'
  · obtain ⟨rfl, -⟩ := Prod.mk.inj (heq.symm.trans hp)
    refine ⟨⟨st, ?_⟩, rfl, rfl⟩
    have := h.drop
    rwa [← hrotation] at this
  · obtain ⟨rfl, -⟩ := Prod.mk.inj (heq.symm.trans hp)
    have hpos := h.positions.adjust true st.log.rotating st.log.allocatedBytes (List.Sublist.refl _)
      h.positions.rotating
    refine ⟨⟨_, by rw [h.log], hpos, h.issued, h.tickets, ?_, nofun⟩, rfl, rfl⟩
    intro r' hr'
    cases hrotation.symm.trans hr'

theorem Holds.publishCompaction (h : s.Holds st) {c : Compacted}
    (hp : s.log.publishCompaction c = .ok l) :
    Holds { s with log := l } { st with log := l } ∧ l.durable = s.log.durable ∧
      l.published = s.log.published := by
  obtain ⟨-, -, -, -, -, hl⟩ := Log.publishCompaction_eq_ok.1 hp
  rw [← h.log] at hp
  have hpos := h.positions.compact hp
  subst hl
  refine ⟨⟨rfl, hpos, h.issued, h.tickets, h.rotation, ?_⟩, rfl, rfl⟩
  intro r hr
  obtain ⟨hrot, hd, hseg, hcont, hlast⟩ := h.created r hr
  refine ⟨hrot, hd, hseg, ⟨hcont.valid, hcont.fits, ?_, hcont.number, ?_⟩, hlast⟩
  · have := hcont.config
    rwa [h.log] at this
  · have := hcont.sequence
    rwa [h.log] at this

theorem Holds.create (h : s.Holds st) (hr : s.rotation = some r) {made : Rotated}
    {allocated : Nat} (hm : r.create ⟨s.tickets, allocated⟩ = .ok made) :
    Holds { s with
      rotation := none
      created := some made
      tickets := s.tickets.map fun _ => made.segment.header.number } st := by
  obtain ⟨hrot, -, hbound, hconf, hhigh, hepoch⟩ := h.rotation r hr
  obtain ⟨number, hn, hv, rfl⟩ := Rotation.create_eq_ok hm
  have hhead : r.header number =
      st.log.config.header (r.epoch.getD number) number st.log.published := by
    rw [Rotation.header, hconf, hbound, h.log]
    rfl
  rw [hhigh] at hn
  obtain ⟨hlt, -⟩ := nextNumber_eq_some hn h.tickets
  refine ⟨h.log, h.positions, h.issued, ?_, nofun, ?_⟩
  · intro last ht
    obtain ⟨last', -, hlast⟩ := Option.map_eq_some_iff.1 ht
    rw [← hlast]
    exact le_of_lt hlt
  · intro r' hr'
    have hr' := Option.some.inj hr'
    subst hr'
    refine ⟨hrot, r.header number, rfl, ?_, ?_⟩
    · rw [hhead] at hv ⊢
      rw [← h.log] at hn
      exact h.positions.continues hepoch hn (by rw [h.log]; exact h.tickets) hv
    · intro last ht
      obtain ⟨last', -, hlast⟩ := Option.map_eq_some_iff.1 ht
      exact hlast.le

end Steps

/-- What one call does to the prefixes of the log. -/
structure Advances (s : Serving) (c : Call) (s' : Serving) (result : Except LogError Unit) :
    Prop where
  /-- E moves only to the boundary of the open cohort, and only when all of it is published. -/
  durable : s'.log.durable = s.log.durable ∨ ∃ cohort, s.log.cohort = some cohort ∧
    s'.log.durable = cohort.boundary ∧ cohort.boundary = s'.log.published
  /-- P moves only over the submission that continues it. -/
  published : s'.log.published = s.log.published ∨ ∃ sub ∈ s.handles,
    sub.batch.envelope.first = s.log.published + 1 ∧ s.log.published < s'.log.published ∧
      s'.log.published = sub.batch.envelope.last
  refused : ∀ e, result = .error e → c ≠ .installRotation → s'.log = s.log

section Run

variable {s s' : Serving} {st : Staging} {c : Call} {result : Except LogError Unit}

omit [Digest] in
theorem Advances.of_log_eq (h : s'.log = s.log) : s.Advances c s' result :=
  ⟨Or.inl (by rw [h]), Or.inl (by rw [h]), fun _ _ _ => h⟩

omit [Digest] in
theorem Advances.of_ok (h1 : s'.log.durable = s.log.durable)
    (h2 : s'.log.published = s.log.published) : s.Advances c s' (.ok ()) :=
  ⟨Or.inl h1, Or.inl h2, nofun⟩

/-- One call keeps the invariant and moves the prefixes as stated. -/
theorem Holds.call (h : s.Holds st) (hc : c.Admissible) (hcall : s.call c = some (s', result)) :
    (∃ st', s'.Holds st') ∧ s.Advances c s' result := by
  cases c with
  | prepareAppend b =>
    obtain ⟨rfl, rfl⟩ := Prod.mk.inj (Option.some.inj hcall)
    cases hp : s.log.prepareAppend b with
    | error e => exact ⟨⟨st, h⟩, .of_log_eq rfl⟩
    | ok p =>
      obtain ⟨sub, l⟩ := p
      obtain ⟨-, batch, -, -, hl⟩ := Log.prepareAppend_eq_ok.1 hp
      exact ⟨⟨_, h.prepareAppend hc hp⟩, .of_ok (by show l.durable = _; rw [hl]; rfl)
        (by show l.published = _; rw [hl]; rfl)⟩
  | publishAppend i =>
    obtain ⟨sub, hsub, heq⟩ := Option.map_eq_some_iff.1 hcall
    obtain ⟨rfl, rfl⟩ := Prod.mk.inj heq
    cases hp : s.log.publishAppend sub with
    | error e => exact ⟨⟨st, h⟩, .of_log_eq rfl⟩
    | ok l =>
      have hmem := mem_of_getElem? hsub
      obtain ⟨hh, hfirst, hlast, hlt, hdur⟩ := h.publishAppend hmem hp
      exact ⟨⟨_, hh⟩, Or.inl hdur, Or.inr ⟨sub, hmem, hfirst.symm, hlt, hlast⟩, nofun⟩
  | prepareFence =>
    obtain ⟨rfl, rfl⟩ := Prod.mk.inj (Option.some.inj hcall)
    cases hp : s.log.prepareFence with
    | error e => exact ⟨⟨st, h⟩, .of_log_eq rfl⟩
    | ok p =>
      obtain ⟨sub, l⟩ := p
      obtain ⟨-, batch, -, -, hl⟩ := Log.prepareFence_eq_ok.1 hp
      exact ⟨⟨_, h.prepareFence hp⟩, .of_ok (by show l.durable = _; rw [hl]; rfl)
        (by show l.published = _; rw [hl]; rfl)⟩
  | completeSync i =>
    obtain ⟨sub, hsub, heq⟩ := Option.map_eq_some_iff.1 hcall
    obtain ⟨rfl, rfl⟩ := Prod.mk.inj heq
    cases hp : s.log.completeSync sub with
    | error e => exact ⟨⟨st, h⟩, .of_log_eq rfl⟩
    | ok l =>
      obtain ⟨hh, hcohort, hbound, hdur, hpub⟩ := h.completeSync hp
      refine ⟨⟨_, hh⟩, Or.inr ⟨sub.cohort, hcohort, hbound, ?_⟩, Or.inl hpub, nofun⟩
      exact hbound.symm.trans (hdur.trans hpub.symm)
  | prepareRotation kind =>
    obtain ⟨rfl, rfl⟩ := Prod.mk.inj (Option.some.inj hcall)
    cases hp : s.log.prepareRotation kind with
    | error e => exact ⟨⟨st, h⟩, .of_log_eq rfl⟩
    | ok p =>
      obtain ⟨hl, -⟩ := Staging.prepareRotation_eq_ok hp
      exact ⟨⟨_, h.prepareRotation hp⟩, .of_ok (by show p.2.durable = _; rw [hl])
        (by show p.2.published = _; rw [hl])⟩
  | cancelRotation =>
    obtain ⟨r, hr, heq⟩ := Option.map_eq_some_iff.1 hcall
    obtain ⟨rfl, rfl⟩ := Prod.mk.inj heq
    cases hp : s.log.cancelRotation r with
    | error e =>
      obtain ⟨-, hcreated, -⟩ := h.rotation r hr
      have hd := h.drop
      rw [← hcreated] at hd
      exact ⟨⟨st, hd⟩, .of_log_eq rfl⟩
    | ok l =>
      obtain ⟨-, -, -, hl⟩ := Log.cancelRotation_eq_ok.1 hp
      exact ⟨⟨_, h.cancelRotation hr hp⟩, .of_ok (by show l.durable = _; rw [hl])
        (by show l.published = _; rw [hl])⟩
  | installRotation =>
    obtain ⟨r, hr, heq⟩ := Option.map_eq_some_iff.1 hcall
    obtain ⟨rfl, rfl⟩ := Prod.mk.inj heq
    obtain ⟨hh, hdur, hpub⟩ := h.installRotation hr (Prod.mk.eta (p := s.log.installRotation r)).symm
    exact ⟨hh, Or.inl hdur, Or.inl hpub, fun _ _ hne => absurd rfl hne⟩
  | publishCompaction cp =>
    obtain ⟨rfl, rfl⟩ := Prod.mk.inj (Option.some.inj hcall)
    cases hp : s.log.publishCompaction cp with
    | error e => exact ⟨⟨st, h⟩, .of_log_eq rfl⟩
    | ok l =>
      obtain ⟨hh, hdur, hpub⟩ := h.publishCompaction hp
      exact ⟨⟨_, hh⟩, .of_ok hdur hpub⟩

theorem Reachable.holds (hs : s.Reachable) : ∃ st, s.Holds st := by
  induction hs with
  | start h ht =>
    obtain ⟨st, hl, hq⟩ := h.quiet
    exact ⟨st, hl, hq.inv.toPositions, nofun, ht, nofun, nofun⟩
  | call _ hc h ih =>
    obtain ⟨st, hst⟩ := ih
    exact (hst.call hc h).1
  | create _ hr hm ih =>
    obtain ⟨st, hst⟩ := ih
    exact ⟨st, hst.create hr hm⟩
  | @ticket s last later _ ht hle ih =>
    obtain ⟨st, hst⟩ := ih
    refine ⟨st, hst.log, hst.positions, hst.issued, ?_, hst.rotation, ?_⟩
    · intro n hn
      rw [← Option.some.inj hn]
      exact (hst.tickets last ht).trans hle
    · intro r hr
      obtain ⟨h1, hd, h2, h3, h4⟩ := hst.created r hr
      refine ⟨h1, hd, h2, h3, ?_⟩
      intro n hn
      rw [← Option.some.inj hn]
      exact (h4 last ht).trans hle

end Run

end Serving

/-- The prefixes of a log are in order, and its positions are within the segment. -/
structure Log.Bounded (l : Log) : Prop where
  compacted : l.compacted ≤ l.durable
  durable : l.durable ≤ l.published
  published : l.published ≤ l.issued
  pending : l.pendingDescriptors = l.issued - l.published
  aligned : l.offset % BLOCK_SIZE = 0
  within : l.offset ≤ l.config.segmentBytes
  cohort : ∀ c, l.cohort = some c → c.boundary = l.issued

theorem Staging.Positions.bounded [Digest] {s : Staging} (hi : s.Positions) : s.log.Bounded := by
  obtain ⟨-, hw⟩ := hi.active_accepts
  refine ⟨hi.compacted, hi.durable, hi.published_le, hi.pending, ?_, ?_, ?_⟩
  · rw [hi.offset]
    exact (Place.records_aligned hw.chain (Nat.mod_self _)).2
  · rw [hi.offset, hi.config_eq.2]
    rcases eq_nil_or_concat s.active.records with hn | ⟨rs, r, hr⟩
    · have hcap := (SegmentHeader.validate_eq_ok.1 hw.valid).2.2.1.1
      rw [SegmentTrace.place, hn]
      show BLOCK_SIZE ≤ _
      omega
    · have hch := hw.chain
      rw [hr, concat_eq_append, Chain.concat] at hch
      have hstop := hch.2.stop_le
      rw [Record.stop, hch.2.offset] at hstop
      rw [SegmentTrace.place, hr, concat_eq_append, final_concat]
      exact hstop
  · intro c hc
    obtain ⟨k, hk⟩ := hi.frontier
    obtain ⟨data, f, hdrop, -, -, rfl⟩ := hk.fence c hc
    have hparts : s.active.records = (s.active.records.take k ++ data) ++ [f] := by
      rw [append_assoc, ← hdrop, take_append_drop]
    rw [hi.issued, SegmentTrace.place, hparts, final_concat]
    rfl

end Cas.Append
