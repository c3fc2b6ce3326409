import Cas.Append.Compaction
import Cas.Append.Marks
import Cas.Append.Survive

/-!
# The scan of a compaction over a trace

`Load.run` goes through the records of a trace in their order and needs no file. On files that hold
the durable records, the loops of `Selection::load` compute it: `Selection.load_eq` says so for a scan
from the first segment and, with the same result, for a scan from a saved position.
-/

namespace Cas.Append

open Bytes List
open Except (ok_bind)

/-! ## Visits -/

/-- A record in the order of a scan, with the place after it. -/
structure Visit where
  number : Nat
  place : Place
  record : Record

/-- The scan position after the record. -/
def Visit.position (v : Visit) : ScanPosition := v.place.position v.number

/-- The visits of the records from a place of a segment on. -/
def Place.visits (number : Nat) : Place → List Record → List Visit
  | _, [] => []
  | p, r :: rs => ⟨number, p.next r, r⟩ :: Place.visits number (p.next r) rs

def SegmentTrace.visits (t : SegmentTrace) : List Visit :=
  Place.visits t.header.number (Place.start t.header) t.records

def Trace.visits (ts : Trace) : List Visit := ts.flatMap SegmentTrace.visits

theorem Place.visits_append (number : Nat) : ∀ (p : Place) (rs ss : List Record),
    Place.visits number p (rs ++ ss) =
      Place.visits number p rs ++ Place.visits number (final Place.next p rs) ss
  | _, [], _ => rfl
  | p, r :: rs, ss => by
    rw [cons_append, Place.visits, Place.visits, visits_append, cons_append, final_cons]

theorem Place.map_record_visits (number : Nat) : ∀ (p : Place) (rs : List Record),
    (Place.visits number p rs).map Visit.record = rs
  | _, [] => rfl
  | p, r :: rs => by rw [Place.visits, map_cons, map_record_visits]

@[simp] theorem Trace.visits_cons (t : SegmentTrace) (ts : Trace) :
    Trace.visits (t :: ts) = t.visits ++ Trace.visits ts := rfl

@[simp] theorem Trace.visits_append (ts us : Trace) :
    Trace.visits (ts ++ us) = Trace.visits ts ++ Trace.visits us := flatMap_append

/-! ## One visit -/

/-- A data batch that the prefix `d` lacks. -/
def Record.Above (d : Nat) (r : Record) : Prop := r.envelope.fence = false ∧ d < r.envelope.last

instance (d : Nat) (r : Record) : Decidable (r.Above d) :=
  inferInstanceAs (Decidable (_ ∧ _))

namespace Input

/-- The batch fits what is left of the bounds. -/
def Fits (i : Input) (r : Record) : Prop :=
  i.edits.length + r.header.editCount ≤ MAX_CHANGES ∧
    i.payloadBytes + r.envelope.payloadBytes ≤ MAX_REQUEST_BYTES

instance (i : Input) (r : Record) : Decidable (i.Fits r) := inferInstanceAs (Decidable (_ ∧ _))

/-- The input with one more batch. -/
def add (i : Input) (r : Record) : Input := { i with
  edits := i.edits ++ r.descriptors.flatMap fun d => d.edits i.payloadBytes
  payload := i.payload.put i.payloadBytes r.payload
  payloadBytes := i.payloadBytes + r.envelope.payloadBytes
  through := r.envelope.last }

end Input

namespace Load

/-- One record of the scan; `none` says that its batch does not fit. -/
def visit (d : Nat) (l : Load) (v : Visit) : Option Load :=
  if v.record.Above d then
    if l.input.Fits v.record then
      some ⟨v.record.envelope.last, { l.input.add v.record with cursor := some v.position }⟩
    else none
  else some ⟨v.record.envelope.last, { l.input with cursor := some v.position }⟩

/-- The scan: it ends at the prefix `e`, or at a batch that does not fit. -/
def run (d e : Nat) : List Visit → Load → Load × Flow
  | [], l => (l, .next)
  | v :: vs, l =>
    if l.sequence = e then (l, .stop false)
    else match l.visit d v with
      | none => (l, .stop true)
      | some l => run d e vs l

theorem visit_base {d : Nat} {l l' : Load} {v : Visit} (h : l.visit d v = some l') :
    l'.input.base = l.input.base := by
  unfold visit at h
  split at h
  · split at h
    · cases h
      rfl
    · cases h
  · cases h
    rfl

theorem run_base (d e : Nat) : ∀ (vs : List Visit) (l : Load),
    (run d e vs l).1.input.base = l.input.base
  | [], _ => rfl
  | v :: vs, l => by
    rw [run]
    split
    · rfl
    · cases hv : l.visit d v with
      | none => rfl
      | some l₁ => exact (run_base d e vs l₁).trans (visit_base hv)

/-- What follows a part of a scan that did not end it. -/
def andThen (r : Load × Flow) (f : Load → Load × Flow) : Load × Flow :=
  match r.2 with
  | .next => f r.1
  | .stop bounded => (r.1, .stop bounded)

theorem visit_sequence {d : Nat} {l l' : Load} {v : Visit} (h : l.visit d v = some l') :
    l'.sequence = v.record.envelope.last := by
  unfold visit at h
  split at h
  · split at h
    · cases h
      rfl
    · cases h
  · cases h
    rfl

theorem run_append (d e : Nat) : ∀ (vs ws : List Visit) (l : Load),
    run d e (vs ++ ws) l = andThen (run d e vs l) (run d e ws)
  | [], _, _ => rfl
  | v :: vs, ws, l => by
    rw [cons_append, run, run]
    split
    · rfl
    · cases l.visit d v with
      | none => rfl
      | some l => exact run_append d e vs ws l

/-- A scan passes over records up to D and keeps only its place. -/
theorem run_below {d e : Nat} (hde : d < e) (v : Visit) (ws : List Visit) :
    ∀ {vs : List Visit} {l : Load}, l.sequence ≤ d → (∀ x ∈ vs ++ [v], x.record.envelope.last ≤ d) →
      run d e (vs ++ v :: ws) l =
        run d e ws ⟨v.record.envelope.last, { l.input with cursor := some v.position }⟩ := by
  have hone : ∀ {x : Visit} {xs : List Visit} {l : Load}, l.sequence ≤ d →
      x.record.envelope.last ≤ d → run d e (x :: xs) l =
        run d e xs ⟨x.record.envelope.last, { l.input with cursor := some x.position }⟩ := by
    intro x xs l hl hx
    have habove : ¬ x.record.Above d := fun h => absurd h.2 (not_lt.2 hx)
    rw [run, if_neg (by omega), visit, if_neg habove]
  intro vs
  induction vs with
  | nil =>
    intro l hl hle
    exact hone hl (hle v (by simp))
  | cons x vs ih =>
    intro l hl hle
    have hx := hle x (by simp)
    rw [cons_append, hone hl hx]
    exact ih hx fun y hy => hle y (mem_cons_of_mem _ hy)

end Load

/-! ## The record loop -/

/-- A scan that stops at `e` comes to the record. -/
def Record.Before (e : Nat) (r : Record) : Prop :=
  r.envelope.last < e ∨ r.envelope.fence = false ∧ r.envelope.last = e

/-- What a scan from D to E needs of a record: neither cut splits it, and its file holds it if the
scan comes to it. -/
structure Record.Readable [Digest] (file : Bytes) (d e : Nat) (r : Record) : Prop where
  base : r.envelope.fence = false → r.envelope.last ≤ d ∨ d < r.envelope.first
  through : r.envelope.fence = false → r.envelope.last ≤ e ∨ e < r.envelope.first
  intact : r.Before e → r.Intact file d
  verified : r.Before e → d < r.envelope.last → r.Verified

namespace Load

variable [Digest] {b : Bounds} {segment : Segment} {file : Bytes} {p : Place} {r : Record} {l : Load}

/-- A scan below `e` does not pass it. -/
theorem before_of_cut {h : SegmentHeader} {e : Nat} (ha : p.Accepts h r)
    (hcut : r.envelope.fence = false → r.envelope.last ≤ e ∨ e < r.envelope.first)
    (hlt : p.sequence < e) : r.Before e ∧ r.envelope.last ≤ e := by
  obtain ⟨-, -, -, hfe, hda⟩ := Header.follows_iff.1 ha.follows
  cases hf : r.envelope.fence with
  | true =>
    have hlast : r.envelope.last = p.sequence := hfe hf
    exact ⟨Or.inl (by omega), by omega⟩
  | false =>
    have hfirst : r.envelope.first = p.sequence + 1 := (hda hf).1
    have hle : r.envelope.last ≤ e := (hcut hf).resolve_right (by omega)
    rcases Nat.lt_or_eq_of_le hle with hlt | heq
    · exact ⟨Or.inl hlt, hle⟩
    · exact ⟨Or.inr ⟨hf, heq⟩, hle⟩

/-- The payload of a batch above D is read and verified as the writer had it. -/
theorem take_eq {h : SegmentHeader} (i : Input) (ha : p.Accepts h r) (hoff : p.offset % BLOCK_SIZE = 0)
    (hr : r.Readable file b.base b.through) (hbefore : r.Before b.through)
    (hlast : r.envelope.last ≤ b.through) (habove : r.Above b.base) :
    i.take file p.offset b.base b.through r.header =
      .ok (if i.Fits r then some (i.add r) else none) := by
  obtain ⟨hf, hlt⟩ := habove
  have hfirst : b.base < r.envelope.first := (hr.base hf).resolve_left (by omega)
  have hi := hr.intact hbefore
  have hdata : r.header.readPayload file p.offset = .ok r.payload := by
    have hpay := hi.payload hlt
    rw [ha.offset] at hpay
    show (if r.envelope.payloadBytes = 0 then _ else readBytes file _ r.envelope.payloadBytes) = _
    split
    · rename_i hz
      rw [Record.payload, hz]
      simp [Bytes.slice]
    · rename_i hz
      have hal : r.envelope.payloadBytes % BLOCK_SIZE = 0 := ha.valid.payload_aligned
      have hstop := hi.stop_le
      rw [Record.stop, Record.length, Header.length, ha.offset, ← add_assoc] at hstop
      exact readBytes_eq_ok.2 ⟨by simp [aligned, hz, hal, hoff], hstop, hpay.symm⟩
  have hver : r.header.verifyPayload r.payload = .ok () := hr.verified hbefore hlt
  refine require_bind_eq_ok.2 ⟨⟨hfirst, hlast⟩, ?_⟩
  by_cases hfit : i.Fits r
  · rw [if_pos hfit, if_neg (by simp only [not_or, not_lt]; exact hfit), hdata, ok_bind,
      hver]
    rfl
  · rw [if_neg hfit, if_pos]
    simp only [Input.Fits, not_and_or, not_le] at hfit
    exact hfit

theorem records_visit {fuel : Nat} (ha : p.Accepts segment.header r)
    (himage : b.imageBytes = segment.header.imageBytes) (hoff : p.offset % BLOCK_SIZE = 0)
    (hbatch : p.batch + 1 < U64) (hstop : r.stop ≤ segment.stop)
    (hr : r.Readable file b.base b.through) (hseq : l.sequence = p.sequence)
    (hlt : p.sequence < b.through) :
    records b segment file (fuel + 1) p.offset p.batch l =
      match l.visit b.base ⟨segment.header.number, p.next r, r⟩ with
      | none => .ok (l, .stop true)
      | some l => records b segment file fuel (p.next r).offset (p.next r).batch l := by
  obtain ⟨hbefore, hlast⟩ := before_of_cut ha hr.through hlt
  have hi := hr.intact hbefore
  have hlen : BLOCK_SIZE ≤ r.length := Nat.le_add_right _ _
  have hpos : 0 < BLOCK_SIZE := by decide
  have hread : readBytes file p.offset BLOCK_SIZE = .ok r.header.bytes := by
    have hin := hi.stop_le
    rw [Record.stop, ha.offset] at hin
    refine readBytes_eq_ok.2 ⟨by simpa [aligned] using hoff, by omega, ?_⟩
    rw [← hi.header, ha.offset]
  have hdec : Header.decode r.header.bytes b.imageBytes = .ok r.header := by
    rw [himage]
    exact ha.decodes
  have hfollows : r.header.follows segment.header p.batch l.sequence p.offset segment.stop = true := by
    rw [hseq]
    exact ha.follows_of_le hstop
  have hsequence : (if r.envelope.fence = true then l.sequence else r.envelope.last) =
      r.envelope.last := by
    split
    · rename_i hf
      rw [hseq]
      exact ((Header.follows_iff.1 ha.follows).2.2.2.1 hf).symm
    · rfl
  have hscan : l.input.scan file p.offset b.base b.through r.header =
      .ok (if r.Above b.base then if l.input.Fits r then some (l.input.add r) else none
        else some l.input) := by
    unfold Input.scan
    by_cases habove : r.Above b.base
    · rw [if_pos habove]
      exact (if_pos habove).trans (take_eq l.input ha hoff hr hbefore hlast habove)
    · rw [if_neg habove]
      exact if_neg habove
  rw [Record.stop, ha.offset] at hstop
  rw [records, if_pos (by omega), if_neg (by omega), hread, ok_bind, hdec]
  have hcheck : require (r.header.follows segment.header p.batch l.sequence p.offset segment.stop = true)
      "invalid durable compaction batch" = .ok () := require_eq_ok.2 hfollows
  have hnext : checkedAdd p.batch 1 = some (p.batch + 1) := checkedAdd_eq_some.2 ⟨rfl, hbatch⟩
  simp only [Except.mapError, ok_bind, hcheck, hscan, hnext, visit]
  by_cases habove : r.Above b.base
  · by_cases hfit : l.input.Fits r
    · simp only [if_pos habove, if_pos hfit]
      exact congrArg (fun q => records b segment file fuel (p.offset + r.length) (p.batch + 1)
        ⟨q, { l.input.add r with
          cursor := some ⟨segment.header.number, p.offset + r.length, p.batch + 1, q⟩ }⟩) hsequence
    · simp only [if_pos habove, if_neg hfit]
  · simp only [if_neg habove]
    exact congrArg (fun q => records b segment file fuel (p.offset + r.length) (p.batch + 1)
      ⟨q, { l.input with
        cursor := some ⟨segment.header.number, p.offset + r.length, p.batch + 1, q⟩ }⟩) hsequence

/-- The record loop makes the visits of the records it passes. A loop that comes to the end of its
segment stands at the prefix reached there. -/
theorem records_run (himage : b.imageBytes = segment.header.imageBytes)
    (hcap : segment.stop < U64) : ∀ {rs : List Record} {p : Place} {l : Load} {fuel : Nat},
    Chain (Place.Accepts segment.header) Place.next p rs →
    segment.stop = (final Place.next p rs).offset → segment.stop ≤ p.offset + fuel →
    p.offset % BLOCK_SIZE = 0 → p.batch ≤ p.offset →
    (∀ r ∈ rs, r.Readable file b.base b.through) → l.sequence = p.sequence →
    p.sequence ≤ b.through →
    records b segment file fuel p.offset p.batch l =
        .ok (run b.base b.through (Place.visits segment.header.number p rs) l) ∧
      ∀ l', run b.base b.through (Place.visits segment.header.number p rs) l = (l', .next) →
        l'.sequence = (final Place.next p rs).sequence ∧ l'.sequence ≤ b.through
  | [], p, l, fuel, _, hstop, _, _, _, _, hseq, hle => by
    refine ⟨?_, ?_⟩
    · cases fuel with
      | zero => rfl
      | succ fuel =>
        rw [records, if_neg (by rw [hstop]; exact lt_irrefl _)]
        rfl
    · intro l' h
      have hl : l = l' := congrArg Prod.fst h
      rw [← hl, hseq]
      exact ⟨rfl, hle⟩
  | r :: rs, p, l, fuel, hc, hstop, hfuel, hoff, hbatch, hread, hseq, hle => by
    obtain ⟨ha, hc⟩ := hc
    have hlen : BLOCK_SIZE ≤ r.length := Nat.le_add_right _ _
    have hin : (p.next r).offset ≤ segment.stop := by
      rw [hstop]
      exact Place.final_offset_le hc
    have hnext : p.offset + r.length ≤ segment.stop := hin
    cases fuel with
    | zero => exact absurd hfuel (by simp only [BLOCK_SIZE] at hlen; omega)
    | succ fuel =>
      by_cases he : p.sequence = b.through
      · -- the loop is at E, which it notices before the next record
        have hle' : l.sequence = b.through := hseq.trans he
        rw [records, if_pos (by simp only [BLOCK_SIZE] at hlen; omega), if_pos hle', Place.visits, run,
          if_pos hle']
        exact ⟨rfl, fun l' h => by cases congrArg Prod.snd h⟩
      · have hlt : p.sequence < b.through := lt_of_le_of_ne hle he
        have hr := hread r mem_cons_self
        obtain ⟨-, hlast⟩ := before_of_cut ha hr.through hlt
        rw [records_visit ha himage hoff (by simp only [BLOCK_SIZE] at hlen; omega)
          (by rw [Record.stop, ha.offset]; exact hnext) hr hseq hlt, Place.visits, run,
          if_neg (by rw [hseq]; exact he)]
        cases hv : l.visit b.base ⟨segment.header.number, p.next r, r⟩ with
        | none => exact ⟨rfl, fun l' h => by cases congrArg Prod.snd h⟩
        | some l₁ =>
          have hal : r.envelope.payloadBytes % BLOCK_SIZE = 0 := ha.valid.payload_aligned
          refine records_run himage hcap hc hstop ?_ ?_ ?_ (fun x hx => hread x (mem_cons_of_mem _ hx))
            (visit_sequence hv) hlast
          · simp only [Place.next, BLOCK_SIZE] at hlen ⊢
            omega
          · simp only [Place.next, Record.length, Header.length, Record.header, BLOCK_SIZE] at hal hoff ⊢
            omega
          · simp only [Place.next, BLOCK_SIZE] at hlen ⊢
            omega

end Load

/-! ## The segment loop -/

theorem SegmentTrace.Wf.stop_le [Digest] {t : SegmentTrace} (hw : t.Wf) :
    t.place.offset ≤ t.header.capacity := by
  obtain ⟨h, rs⟩ := t
  rcases eq_nil_or_concat rs with rfl | ⟨rs, r, rfl⟩
  · have := (SegmentHeader.validate_eq_ok.1 hw.valid).2.2.1.1
    show BLOCK_SIZE ≤ h.capacity
    simp only [BLOCK_SIZE] at this ⊢
    omega
  · have hc := hw.chain
    rw [concat_eq_append] at hc ⊢
    have ha := (Chain.concat.1 hc).2
    have := ha.stop_le
    rw [Record.stop, ha.offset] at this
    rw [SegmentTrace.place, final_concat]
    exact this

/-- Every record of the trace is one that a scan from D to E can read. -/
def Trace.Readable [Digest] (ts : Trace) (files : Nat → Bytes) (d e : Nat) : Prop :=
  ∀ t ∈ ts, ∀ r ∈ t.records, r.Readable (files t.header.number) d e

def Flow.bounded : Flow → Bool
  | .next => false
  | .stop bounded => bounded

namespace Load

variable [Digest] {b : Bounds} {files : Nat → Bytes} {config : Config} {cursor : Option ScanPosition}

theorem segments_skip {c : ScanPosition} (spans : List Segment) (l : Load) : ∀ {us : Trace},
    (∀ u ∈ us, u.header.number < c.segment) →
    segments b files (some c) (us.map SegmentTrace.segment ++ spans) l =
      segments b files (some c) spans l
  | [], _ => rfl
  | u :: us, h => by
    rw [map_cons, cons_append, segments, if_pos]
    · exact segments_skip spans l fun x hx => h x (mem_cons_of_mem _ hx)
    · exact decide_eq_true (h u mem_cons_self)

/-- What the loop does after the records of a segment. -/
def onward (b : Bounds) (files : Nat → Bytes) (cursor : Option ScanPosition) (spans : List Segment)
    (r : Load × Flow) : Except IoError (Load × Bool) :=
  match r.2 with
  | .next => segments b files cursor spans r.1
  | .stop bounded => .ok (r.1, bounded)

/-- Where the loop enters a segment that the saved position does not name. -/
theorem segments_enter {t : SegmentTrace} {spans : List Segment} {l : Load}
    (hcursor : ∀ c, cursor = some c → c.segment < t.header.number) :
    segments b files cursor (t.segment :: spans) l = (do
      require (t.header.precedingSequence = l.sequence) "compaction segment gap"
      records b t.segment (files t.header.number) t.segment.stop BLOCK_SIZE 1 l >>=
        onward b files cursor spans) := by
  have hskip : cursor.any (fun c => decide (t.segment.header.number < c.segment)) = false := by
    cases cursor with
    | none => rfl
    | some c => exact decide_eq_false (not_lt.2 (le_of_lt (hcursor c rfl)))
  have hresume : cursor.filter (fun c => decide (t.segment.header.number = c.segment)) = none := by
    cases cursor with
    | none => rfl
    | some c =>
      rw [Option.filter_some, if_neg]
      intro heq
      exact absurd (of_decide_eq_true heq) (ne_of_gt (hcursor c rfl))
  rw [segments, hskip, if_neg (by decide), hresume]
  have hcheck : require ((none : Option ScanPosition).isSome = true ∨
      t.segment.header.precedingSequence = l.sequence) "compaction segment gap" =
        require (t.header.precedingSequence = l.sequence) "compaction segment gap" := by
    simp [require, Except.ensure, SegmentTrace.segment]
  simp only [hcheck]
  rfl

theorem segments_run : ∀ {ts : Trace} {p : Tail} {l : Load},
    Chain (Tail.Accepts config) Tail.next p ts → b.imageBytes = config.imageBytes →
    (∀ c, cursor = some c → ∀ t ∈ ts, c.segment < t.header.number) →
    ts.Readable files b.base b.through → l.sequence = p.sequence → p.sequence ≤ b.through →
    segments b files cursor (ts.map SegmentTrace.segment) l =
      .ok ((run b.base b.through ts.visits l).1, (run b.base b.through ts.visits l).2.bounded)
  | [], _, _, _, _, _, _, _, _ => rfl
  | t :: ts, p, l, ⟨ha, hc⟩, himage, hcursor, hread, hseq, hle => by
    have hw := ha.wf
    have hcap : t.segment.stop < U64 := lt_of_le_of_lt hw.stop_le hw.fits.capacity
    have hstart : (Place.start t.header).batch ≤ (Place.start t.header).offset := by
      simp [Place.start, BLOCK_SIZE]
    have hrecords : records b t.segment (files t.header.number) t.segment.stop BLOCK_SIZE 1 l =
        .ok (run b.base b.through t.visits l) ∧
        ∀ l', run b.base b.through t.visits l = (l', .next) →
          l'.sequence = t.place.sequence ∧ l'.sequence ≤ b.through :=
      records_run (himage.trans (Config.imageBytes_of_matches ha.config)) hcap hw.chain rfl
        (Nat.le_add_left _ _) (Nat.mod_self _) hstart (hread t mem_cons_self)
        (hseq.trans ha.sequence.symm) (by rw [← ha.sequence] at hle; exact hle)
    have hcheck : require (t.header.precedingSequence = l.sequence) "compaction segment gap" =
        .ok () := require_eq_ok.2 (ha.sequence.trans hseq.symm)
    rw [map_cons, segments_enter fun c hcur => hcursor c hcur t mem_cons_self, hcheck,
      ok_bind, hrecords.1, ok_bind, Trace.visits_cons, run_append, andThen]
    cases hrun : run b.base b.through t.visits l with
    | mk l' flow =>
      cases flow with
      | stop bounded => rfl
      | next =>
        obtain ⟨hl', hle'⟩ := hrecords.2 l' hrun
        exact segments_run hc himage (fun c hcur x hx => hcursor c hcur x (mem_cons_of_mem _ hx))
          (fun x hx => hread x (mem_cons_of_mem _ hx)) hl' (by rw [hl'] at hle'; exact hle')

end Load

/-! ## A saved position -/

section Position

variable [Digest] {origin : Tail} {config : Config}

theorem Place.last_le_final {h : SegmentHeader} {p : Place} {rs : List Record}
    (hc : Chain (Place.Accepts h) Place.next p rs) :
    ∀ r ∈ rs, r.envelope.last ≤ (final Place.next p rs).sequence := by
  intro r hr
  obtain ⟨before, after, rfl, -, -, hafter⟩ := hc.exists_of_mem hr
  rw [final_append, final_cons]
  exact Place.final_sequence_le hafter

/-- The place after the first records of a segment: aligned, and with a batch number that fits. -/
theorem SegmentTrace.Wf.place_of {t : SegmentTrace} (hw : t.Wf) {before after : List Record}
    (hr : t.records = before ++ after) :
    (SegmentTrace.place ⟨t.header, before⟩).offset % BLOCK_SIZE = 0 ∧
      (SegmentTrace.place ⟨t.header, before⟩).batch ≤ (SegmentTrace.place ⟨t.header, before⟩).offset := by
  have hc := hw.chain
  rw [hr, Chain.append] at hc
  have hbatch := Place.batch_le hc.1
  have hoff := Place.final_offset_le hc.1
  refine ⟨(Place.records_aligned hc.1 (Nat.mod_self _)).2, ?_⟩
  simp only [SegmentTrace.place, Place.start, BLOCK_SIZE] at hbatch hoff ⊢
  omega

namespace Load

variable {b : Bounds} {files : Nat → Bytes}

theorem segments_resume {t : SegmentTrace} {spans : List Segment} {l : Load} {c : ScanPosition}
    (hc : c.segment = t.header.number) :
    segments b files (some c) (t.segment :: spans) l =
      records b t.segment (files t.header.number) t.segment.stop c.offset c.batch l >>=
        onward b files (some c) spans := by
  have hskip : (some c).any (fun c => decide (t.segment.header.number < c.segment)) = false :=
    decide_eq_false (by rw [hc]; exact lt_irrefl _)
  have hresume : (some c).filter (fun c => decide (t.segment.header.number = c.segment)) = some c := by
    rw [Option.filter_some]
    exact if_pos (decide_eq_true hc.symm)
  rw [segments, hskip, if_neg (by decide), hresume]
  have hcheck : require ((some c).isSome = true ∨ t.segment.header.precedingSequence = l.sequence)
      "compaction segment gap" = .ok () := require_eq_ok.2 (Or.inl rfl)
  simp only [hcheck, ok_bind]
  rfl

/-- A scan from a saved position makes the visits after it. -/
theorem segments_marked {us vs : Trace} {t : SegmentTrace} {before after : List Record} {l : Load}
    (hw : Trace.Wf origin config (us ++ t :: vs)) (hr : t.records = before ++ after)
    (himage : b.imageBytes = config.imageBytes)
    (hread : Trace.Readable (us ++ t :: vs) files b.base b.through)
    (hseq : l.sequence = (SegmentTrace.place ⟨t.header, before⟩).sequence)
    (hle : l.sequence ≤ b.through) :
    segments b files (some ((SegmentTrace.place ⟨t.header, before⟩).position t.header.number))
        ((us ++ t :: vs).map SegmentTrace.segment) l =
      .ok ((run b.base b.through (Place.visits t.header.number (SegmentTrace.place ⟨t.header, before⟩)
          after ++ vs.visits) l).1,
        (run b.base b.through (Place.visits t.header.number (SegmentTrace.place ⟨t.header, before⟩)
          after ++ vs.visits) l).2.bounded) := by
  obtain ⟨hu, ha, hv⟩ := Chain.append.1 hw
  have hwt := ha.wf
  obtain ⟨hoff, hbatch⟩ := hwt.place_of hr
  have hcap : t.segment.stop < U64 := lt_of_le_of_lt hwt.stop_le hwt.fits.capacity
  have hchain := hwt.chain
  rw [hr, Chain.append] at hchain
  have hstop : t.segment.stop = (final Place.next (SegmentTrace.place ⟨t.header, before⟩) after).offset := by
    rw [SegmentTrace.segment, SegmentTrace.place, hr, final_append]
    rfl
  have hbelow : ∀ u ∈ us, u.header.number < t.header.number := fun u hmem =>
    lt_of_le_of_lt (Trace.number_bounds hu u hmem).2 ha.number
  have habove : ∀ x ∈ vs, t.header.number < x.header.number := fun x hmem =>
    (Trace.number_bounds hv x hmem).1
  have hrecords : records b t.segment (files t.header.number) t.segment.stop
        (SegmentTrace.place ⟨t.header, before⟩).offset (SegmentTrace.place ⟨t.header, before⟩).batch l =
      .ok (run b.base b.through (Place.visits t.header.number _ after) l) ∧
      ∀ l', run b.base b.through (Place.visits t.header.number _ after) l = (l', .next) →
        l'.sequence = (final Place.next (SegmentTrace.place ⟨t.header, before⟩) after).sequence ∧
          l'.sequence ≤ b.through :=
    records_run (himage.trans (Config.imageBytes_of_matches ha.config)) hcap hchain.2 hstop
      (Nat.le_add_left _ _) hoff hbatch
      (fun r hmem => hread t (by simp) r (by rw [hr]; exact mem_append_right _ hmem)) hseq
      (by rw [← hseq]; exact hle)
  rw [map_append, segments_skip _ _ hbelow, map_cons, segments_resume rfl]
  simp only [Place.position]
  rw [hrecords.1, ok_bind, run_append, andThen]
  cases hrun : run b.base b.through
      (Place.visits t.header.number (SegmentTrace.place ⟨t.header, before⟩) after) l with
  | mk l' flow =>
    cases flow with
    | stop bounded => rfl
    | next =>
      obtain ⟨hl', hle'⟩ := hrecords.2 l' hrun
      have hplace : l'.sequence = t.place.sequence := by
        rw [hl', SegmentTrace.place, SegmentTrace.place, hr, final_append]
      refine segments_run hv himage ?_ (fun x hx => hread x (by simp [hx])) hplace
        (by rw [hplace] at hle'; exact hle')
      intro c hcur x hx
      obtain rfl := Option.some.inj hcur
      exact habove x hx

end Load

end Position

/-! ## The whole scan -/

/-- The scan before its first record. -/
def Load.start (v : Manifest.View) (sequence : Nat) : Load := ⟨sequence, {
  base := v
  cursor := none
  through := v.commit.durable
  payload := zeros MAX_REQUEST_BYTES
  payloadBytes := 0
  edits := [] }⟩

/-- The last checks of `Selection::load`. -/
def Load.finish (d e : Nat) (r : Load × Flow) : Except IoError Input := do
  require (r.2.bounded ∨ r.1.sequence = e) "compaction scan ended below E"
  require (r.1.input.through > d) "durable compaction prefix is unavailable"
  return r.1.input

/-- The selection is over a contiguous log `ts` that holds the batches from D to E: both cuts fall
between batches, and the files hold every record before E, with its payload above D. A saved position
is one of the log, at D. -/
structure Selection.Durable [Digest] (s : Selection) (files : Nat → Bytes) (origin : Tail)
    (config : Config) (ts : Trace) : Prop where
  wf : ts.Wf origin config
  spans : s.spans = ts.map SegmentTrace.segment
  image : s.base.commit.imageBytes = config.imageBytes
  starts : origin.sequence ≤ s.base.commit.durable
  below : s.base.commit.durable < s.through
  reaches : s.through ≤ (final Tail.next origin ts).sequence
  readable : ts.Readable files s.base.commit.durable s.through
  marked : ∀ c, s.cursor = some c → ts.Marks c ∧ c.sequence = s.base.commit.durable

section Whole

variable [Digest] {s : Selection} {files : Nat → Bytes} {origin : Tail} {config : Config} {ts : Trace}

/-- Up to a place of the trace every record is within the prefix there. -/
theorem Trace.Wf.last_le_place {us vs : Trace} {t : SegmentTrace} {before after : List Record}
    (hw : Trace.Wf origin config (us ++ t :: vs)) (hr : t.records = before ++ after) :
    ∀ v ∈ Trace.visits us ++ Place.visits t.header.number (Place.start t.header) before,
      v.record.envelope.last ≤ (SegmentTrace.place ⟨t.header, before⟩).sequence := by
  obtain ⟨hu, ha, -⟩ := Chain.append.1 hw
  have hc := ha.wf.chain
  rw [hr, Chain.append] at hc
  intro v hv
  rcases mem_append.1 hv with hv | hv
  · obtain ⟨u, hmem, hv⟩ := mem_flatMap.1 hv
    have hrec : v.record ∈ u.records := by
      rw [← Place.map_record_visits u.header.number (Place.start u.header) u.records]
      exact mem_map_of_mem hv
    obtain ⟨us₁, us₂, rfl, -, hau, hu₂⟩ := Chain.exists_of_mem hu hmem
    calc v.record.envelope.last
        ≤ u.place.sequence := Place.last_le_final hau.wf.chain _ hrec
      _ ≤ (final Tail.next origin (us₁ ++ u :: us₂)).sequence := by
          rw [final_append, final_cons]
          exact Trace.final_sequence_le hu₂
      _ = t.header.precedingSequence := ha.sequence.symm
      _ ≤ (SegmentTrace.place ⟨t.header, before⟩).sequence := Place.final_sequence_le hc.1
  · have hrec : v.record ∈ before := by
      rw [← Place.map_record_visits t.header.number (Place.start t.header) before]
      exact mem_map_of_mem hv
    exact Place.last_le_final hc.1 _ hrec

/-- The first visits of a scan, up to a saved position at D, only bring it there. -/
theorem Load.run_marked {us vs : Trace} {t : SegmentTrace} {before after : List Record} {d e : Nat}
    (hw : Trace.Wf origin config (us ++ t :: vs)) (hr : t.records = before ++ after) (hne : before ≠ [])
    (hd : (SegmentTrace.place ⟨t.header, before⟩).sequence = d) (hde : d < e) {l : Load}
    (hl : l.sequence ≤ d) :
    Load.run d e (Trace.visits (us ++ t :: vs)) l =
      Load.run d e (Place.visits t.header.number (SegmentTrace.place ⟨t.header, before⟩) after ++
        vs.visits) ⟨d, { l.input with
          cursor := some ((SegmentTrace.place ⟨t.header, before⟩).position t.header.number) }⟩ := by
  have hle := hw.last_le_place hr
  obtain ⟨before, r, rfl⟩ := (eq_nil_or_concat before).resolve_left hne
  rw [concat_eq_append] at *
  have hlast : r.envelope.last = d := by
    rw [← hd, SegmentTrace.place, final_concat]
    rfl
  rw [hd, Place.visits_append, ← append_assoc] at hle
  have hvisits : Trace.visits (us ++ t :: vs) =
      (Trace.visits us ++ Place.visits t.header.number (Place.start t.header) before) ++
        ⟨t.header.number, SegmentTrace.place ⟨t.header, before ++ [r]⟩, r⟩ ::
          (Place.visits t.header.number (SegmentTrace.place ⟨t.header, before ++ [r]⟩) after ++
            vs.visits) := by
    rw [Trace.visits_append, Trace.visits_cons, SegmentTrace.visits, hr, Place.visits_append,
      Place.visits_append]
    simp [Place.visits, SegmentTrace.place]
  rw [hvisits, Load.run_below hde _ _ hl]
  · rw [hlast]
    rfl
  · intro x hx
    rcases mem_append.1 hx with hx | hx
    · exact hle x (mem_append_left _ hx)
    · rw [mem_singleton.1 hx]
      exact le_of_eq hlast

theorem Selection.load_of_segments {first : Segment} {rest : List Segment} {q : Nat}
    {r : Load × Flow} (hspans : s.spans = first :: rest)
    (hq : s.cursor.elim first.header.precedingSequence ScanPosition.sequence = q)
    (hle : q ≤ s.base.commit.durable)
    (hr : Load.segments ⟨s.base.commit.imageBytes, s.base.commit.durable, s.through⟩ files s.cursor
      s.spans ⟨q, { (Load.start s.base q).input with cursor := s.cursor }⟩ = .ok (r.1, r.2.bounded)) :
    s.load files = Load.finish s.base.commit.durable s.through r := by
  have hcheck : require (q ≤ s.base.commit.durable) "compaction starts above D" = .ok () :=
    require_eq_ok.2 hle
  unfold Selection.load
  rw [hspans] at hr ⊢
  simp only [Load.start] at hr
  simp only [hq, hcheck, ok_bind, hr]
  rfl

/-- A load computes the scan from the first segment, also when it starts at a saved position. -/
theorem Selection.load_eq (h : s.Durable files origin config ts) :
    s.load files = Load.finish s.base.commit.durable s.through
      (Load.run s.base.commit.durable s.through ts.visits (Load.start s.base origin.sequence)) := by
  have hnil : ts ≠ [] := by
    rintro rfl
    exact absurd (lt_of_lt_of_le h.below h.reaches) (not_lt.2 h.starts)
  obtain ⟨t₀, ts', hts⟩ := exists_cons_of_ne_nil hnil
  have hspans : s.spans = t₀.segment :: ts'.map SegmentTrace.segment := by rw [h.spans, hts, map_cons]
  have hfirst : t₀.header.precedingSequence = origin.sequence := by
    have hw := h.wf
    rw [hts] at hw
    exact hw.1.sequence
  have hbelow := le_of_lt h.below
  cases hcur : s.cursor with
  | none =>
    refine Selection.load_of_segments hspans (by rw [hcur]; exact hfirst) h.starts ?_
    rw [hcur, h.spans]
    exact Load.segments_run h.wf h.image nofun h.readable rfl (h.starts.trans hbelow)
  | some c =>
    obtain ⟨⟨t, ht, before, after, hr, hne, rfl⟩, hd⟩ := h.marked c hcur
    have hd : (SegmentTrace.place ⟨t.header, before⟩).sequence = s.base.commit.durable := hd
    obtain ⟨us, vs, rfl⟩ := append_of_mem ht
    rw [Load.run_marked h.wf hr hne hd h.below h.starts]
    refine Selection.load_of_segments hspans (by rw [hcur]; exact hd) (le_refl _) ?_
    rw [hcur, h.spans]
    exact Load.segments_marked h.wf hr h.image h.readable hd.symm hbelow

theorem Selection.Durable.load_base (h : s.Durable files origin config ts) {input : Input}
    (hl : s.load files = .ok input) : input.base = s.base := by
  rw [Selection.load_eq h] at hl
  obtain ⟨-, hl⟩ := require_bind_eq_ok.1 hl
  obtain ⟨-, hl⟩ := require_bind_eq_ok.1 hl
  rw [← Except.ok.inj hl]
  exact Load.run_base _ _ _ _

end Whole

end Cas.Append
