import Cas.Append.Log
import Cas.Append.Packing
import Cas.Lib.Chain

/-!
# What a log has written

A trace is the list of the segments a log ever created with the records it placed in them. Each
record is accepted where it stands by the same framing check that recovery, compaction and
reclamation make on the bytes (`Header.follows`), so a trace is at once the history of the writer
and what a reader can rely on. The mutations of a trace carry the dense sequences `1, 2, …`.
-/

namespace Cas.Append

open Bytes List

/-! ## Records -/

/-- A record at its place in a segment. -/
structure Record where
  offset : Nat
  batch : Batch

namespace Record

def envelope (r : Record) : Envelope := r.batch.envelope

def header (r : Record) : Header := ⟨r.envelope, r.batch.bytes.slice 0 BLOCK_SIZE⟩

def descriptors (r : Record) : List Descriptor := r.header.descriptors

def payload (r : Record) : Bytes := r.batch.bytes.slice BLOCK_SIZE r.envelope.payloadBytes

def length (r : Record) : Nat := r.header.length

def stop (r : Record) : Nat := r.offset + r.length

/-- The payload has the checksums its descriptors name. -/
def Verified [Digest] (r : Record) : Prop := r.header.verifyPayload r.payload = .ok ()

end Record

/-- Where the next record of a segment goes, and what it must continue. -/
structure Place where
  offset : Nat
  batch : Nat
  sequence : Nat
  deriving DecidableEq, Repr

namespace Place

def start (h : SegmentHeader) : Place := ⟨BLOCK_SIZE, 1, h.precedingSequence⟩

def next (p : Place) (r : Record) : Place := ⟨p.offset + r.length, p.batch + 1, r.envelope.last⟩

/-- The header of the record decodes to itself and continues the segment at this place. -/
structure Accepts [Digest] (h : SegmentHeader) (p : Place) (r : Record) : Prop where
  offset : r.offset = p.offset
  length : r.batch.bytes.length = r.length
  decodes : Header.decode (r.batch.bytes.slice 0 BLOCK_SIZE) h.imageBytes = .ok r.header
  follows : r.header.follows h p.batch p.sequence p.offset h.capacity = true

end Place

/-- What `Header::follows` checks. -/
theorem Header.follows_iff {h : Header} {segment : SegmentHeader}
    {batch preceding offset stop : Nat} :
    h.follows segment batch preceding offset stop = true ↔
      h.envelope.segment = segment.number ∧ h.envelope.batch = batch ∧
        (offset + h.length < U64 ∧ offset + h.length ≤ stop ∧ offset + h.length ≤ segment.capacity ∧
          (h.envelope.fence = false → offset + h.length + BLOCK_SIZE < U64 ∧
            offset + h.length + BLOCK_SIZE ≤ segment.capacity)) ∧
        (h.envelope.fence = true → h.envelope.last = preceding) ∧
        (h.envelope.fence = false → h.envelope.first = preceding + 1 ∧ preceding + 1 < U64) := by
  have hany : ∀ (a b : Nat) (f : Nat → Bool),
      (checkedAdd a b).any f = true ↔ a + b < U64 ∧ f (a + b) = true := by
    intro a b f
    unfold checkedAdd
    split <;> simp [*]
  unfold Header.follows
  simp only [decide_eq_true_eq, hany, Bool.decide_and, Bool.and_eq_true, Bool.decide_or,
    Bool.or_eq_true, checkedAdd_eq_some]
  cases h.envelope.fence
  · simp only [Bool.false_eq_true, false_or, if_false, forall_const, false_implies, true_and,
      eq_comm (a := preceding + 1), true_implies]
    constructor
    · rintro ⟨h1, h2, h3, h4, h5⟩
      exact ⟨h1, h2, h3, h4, h4 ▸ h5⟩
    · rintro ⟨h1, h2, h3, h4, h5⟩
      exact ⟨h1, h2, h3, h4, h4 ▸ h5⟩
  · simp

/-! ## Descriptors of an accepted record -/

/-- One descriptor of an accepted header: its range is in the image, and a WRITE takes its bytes from
the payload of the record. -/
structure Descriptor.InRecord (imageBytes payloadBytes : Nat) (d : Descriptor) : Prop where
  range : validRange d.offset d.length imageBytes = true
  write : d.kind = .write →
    d.length = d.payloadLength ∧ d.payloadOffset % BLOCK_SIZE = 0 ∧
      d.payloadOffset + d.payloadLength ≤ payloadBytes

namespace SlotsValid

variable {e : Envelope} {imageBytes : Nat}

theorem sequences : ∀ {ds : List Descriptor} {index payloadEnd serial : Nat},
    SlotsValid e imageBytes ds index payloadEnd serial →
      ds.map Descriptor.sequence = range' (e.first + index) ds.length
  | [], _, _, _, _ => rfl
  | d :: ds, index, payloadEnd, serial, h => by
    obtain ⟨hseq, -, -, hk⟩ := h
    have ih : ds.map Descriptor.sequence = range' (e.first + (index + 1)) ds.length := by
      cases hkd : d.kind with
      | write =>
        simp only [hkd] at hk
        exact sequences hk.2.2
      | zero =>
        simp only [hkd] at hk
        exact sequences hk.2
    rw [map_cons, length_cons, range'_succ, hseq, ih, add_assoc]

theorem inRecord : ∀ {ds : List Descriptor} {index payloadEnd serial : Nat},
    SlotsValid e imageBytes ds index payloadEnd serial → payloadEnd % BLOCK_SIZE = 0 →
      ∀ d ∈ ds, d.InRecord imageBytes e.payloadBytes
  | [], _, _, _, _, _, d, hd => by cases hd
  | d :: ds, index, payloadEnd, serial, h, ha, d', hd' => by
    obtain ⟨-, -, hr, hk⟩ := h
    have hlen := (validRange_iff.1 hr).2.2.1
    cases hkd : d.kind with
    | write =>
      simp only [hkd] at hk
      obtain ⟨⟨h1, h2⟩, h3, h4⟩ := hk
      rcases mem_cons.1 hd' with rfl | hd'
      · exact ⟨hr, fun _ => ⟨h1, by rw [h2]; exact ha, by omega⟩⟩
      · refine inRecord h4 ?_ d' hd'
        simp only [BLOCK_SIZE] at ha hlen ⊢
        omega
    | zero =>
      simp only [hkd] at hk
      rcases mem_cons.1 hd' with rfl | hd'
      · exact ⟨hr, fun hw => by rw [hkd] at hw; cases hw⟩
      · exact inRecord hk.2 ha d' hd'

end SlotsValid

namespace Place.Accepts

variable [Digest] {h : SegmentHeader} {p : Place} {r : Record}

theorem valid (ha : Accepts h p r) : r.header.Valid h.imageBytes :=
  Header.valid_of_decode ha.decodes

theorem stop_le (ha : Accepts h p r) : r.stop ≤ h.capacity := by
  have := (Header.follows_iff.1 ha.follows).2.2.1.2.1
  rwa [Record.stop, ha.offset]

/-- The mutations of the record continue the sequence of its place without a gap. -/
theorem sequences (ha : Accepts h p r) :
    p.sequence ≤ r.envelope.last ∧ r.descriptors.length = r.envelope.last - p.sequence ∧
      r.descriptors.map Descriptor.sequence =
        range' (p.sequence + 1) (r.envelope.last - p.sequence) := by
  obtain ⟨-, -, -, hfe, hda⟩ := Header.follows_iff.1 ha.follows
  have hlen : r.descriptors.length = r.envelope.descriptors := by
    simp [Record.descriptors, Header.descriptors, Record.header]
  cases hf : r.envelope.fence with
  | true =>
    have hlast : r.envelope.last = p.sequence := hfe hf
    have hz : r.envelope.descriptors = 0 := (ha.valid.fence hf).1
    rw [hz] at hlen
    rw [hlast, Nat.sub_self, List.eq_nil_of_length_eq_zero hlen]
    exact ⟨le_refl _, rfl, rfl⟩
  | false =>
    obtain ⟨hfirst, -⟩ := hda hf
    obtain ⟨hne, -, hsum, -⟩ := ha.valid.data hf
    have hsum : r.envelope.first + (r.envelope.descriptors - 1) = r.envelope.last := hsum
    have hfirst : r.envelope.first = p.sequence + 1 := hfirst
    have hne : r.envelope.descriptors ≠ 0 := hne
    have hcount : r.descriptors.length = r.envelope.last - p.sequence := by omega
    refine ⟨by omega, hcount, ?_⟩
    have hseq := ha.valid.slots.sequences
    rw [← hcount, ← hfirst]
    exact hseq

theorem inRecord (ha : Accepts h p r) :
    ∀ d ∈ r.descriptors, d.InRecord h.imageBytes r.envelope.payloadBytes :=
  ha.valid.slots.inRecord (Nat.zero_mod _)

/-- The checks of a scan that stops at `stop` pass on the record. -/
theorem follows_of_le (ha : Accepts h p r) {stop : Nat} (hs : r.stop ≤ stop) :
    r.header.follows h p.batch p.sequence p.offset stop = true := by
  obtain ⟨h1, h2, ⟨h3, h4, h5, h6⟩, h7⟩ := Header.follows_iff.1 ha.follows
  refine Header.follows_iff.2 ⟨h1, h2, ⟨h3, ?_, h5, h6⟩, h7⟩
  rwa [Record.stop, ha.offset] at hs

end Place.Accepts

/-! ## Segments -/

/-- A segment with the records placed in it. -/
structure SegmentTrace where
  header : SegmentHeader
  records : List Record

/-- A mutation in the record that carries it. -/
structure Placed where
  segment : Nat
  record : Record
  descriptor : Descriptor

namespace Placed

def sequence (m : Placed) : Nat := m.descriptor.sequence

/-- The index entry of the mutation. -/
def entry (m : Placed) : Entry := located m.segment m.record.offset m.descriptor

/-- The bytes a WRITE stores; `none` for ZERO. -/
def data (m : Placed) : Option Bytes :=
  if m.descriptor.kind = .write then
    some (m.record.payload.slice m.descriptor.payloadOffset m.descriptor.payloadLength)
  else none

end Placed

def Record.mutations (segment : Nat) (r : Record) : List Placed :=
  r.descriptors.map fun d => ⟨segment, r, d⟩

namespace SegmentTrace

def place (t : SegmentTrace) : Place := final Place.next (Place.start t.header) t.records

/-- The segment as the log holds it. -/
def segment (t : SegmentTrace) : Segment := ⟨t.header, t.place.offset⟩

def push (t : SegmentTrace) (r : Record) : SegmentTrace := { t with records := t.records ++ [r] }

def mutations (t : SegmentTrace) : List Placed :=
  t.records.flatMap fun r => r.mutations t.header.number

structure Wf [Digest] (t : SegmentTrace) : Prop where
  valid : t.header.validate = .ok ()
  fits : t.header.Fits
  chain : Chain (Place.Accepts t.header) Place.next (Place.start t.header) t.records

@[simp] theorem push_header (t : SegmentTrace) (r : Record) : (t.push r).header = t.header := rfl

@[simp] theorem push_records (t : SegmentTrace) (r : Record) :
    (t.push r).records = t.records ++ [r] := rfl

@[simp] theorem push_place (t : SegmentTrace) (r : Record) : (t.push r).place = t.place.next r :=
  final_concat _ _

theorem push_mutations (t : SegmentTrace) (r : Record) :
    (t.push r).mutations = t.mutations ++ r.mutations t.header.number := by
  simp [mutations]

theorem Wf.push [Digest] {t : SegmentTrace} (hw : t.Wf) {r : Record}
    (ha : t.place.Accepts t.header r) : (t.push r).Wf where
  valid := hw.valid
  fits := hw.fits
  chain := Chain.concat.2 ⟨hw.chain, ha⟩

/-- One record of a scan that looks for the batch boundary `base`. -/
def cursorStep (base number : Nat) (st : Place × Option ScanPosition) (r : Record) :
    Place × Option ScanPosition :=
  let p := st.1.next r
  (p, if p.sequence = base then some ⟨number, p.offset, p.batch, base⟩ else st.2)

/-- The last place in the segment that `base` ends at, or the one found before. -/
def cursor (base : Nat) (t : SegmentTrace) (found : Option ScanPosition) : Option ScanPosition :=
  (t.records.foldl (cursorStep base t.header.number) (Place.start t.header, found)).2

theorem foldl_cursorStep (base number : Nat) (l : List Record) (st : Place × Option ScanPosition) :
    (l.foldl (cursorStep base number) st).1 = final Place.next st.1 l := by
  induction l generalizing st with
  | nil => rfl
  | cons r l ih => rw [foldl_cons, ih, final_cons, cursorStep]

theorem push_cursor (base : Nat) (t : SegmentTrace) (r : Record) (found : Option ScanPosition) :
    (t.push r).cursor base found = if r.envelope.last = base then
      some ⟨t.header.number, (t.place.next r).offset, (t.place.next r).batch, base⟩
    else t.cursor base found := by
  rw [cursor, push_records, foldl_append, foldl_cons, foldl_nil, cursorStep,
    foldl_cursorStep]
  rfl

end SegmentTrace

section Records

variable [Digest] {h : SegmentHeader}

theorem length_mutations (segment : Nat) (r : Record) :
    (r.mutations segment).length = r.descriptors.length := length_map _

theorem Record.map_sequence_mutations (segment : Nat) (r : Record) :
    (r.mutations segment).map Placed.sequence = r.descriptors.map Descriptor.sequence := by
  simp only [Record.mutations, map_map]
  rfl

variable {l : List Record}

theorem Place.final_offset_le {p : Place}
    (hc : Chain (Place.Accepts h) Place.next p l) : p.offset ≤ (final Place.next p l).offset :=
  hc.le_final (m := Place.offset) fun s a _ => Nat.le_add_right _ _

theorem Place.final_sequence_le {p : Place}
    (hc : Chain (Place.Accepts h) Place.next p l) : p.sequence ≤ (final Place.next p l).sequence :=
  hc.le_final (m := Place.sequence) fun _ _ ha => ha.sequences.1

theorem Place.final_batch {p : Place} (l : List Record) :
    (final Place.next p l).batch = p.batch + l.length := by
  induction l generalizing p with
  | nil => rfl
  | cons r l ih =>
    rw [final_cons, ih, length_cons]
    simp only [Place.next]
    omega

theorem Place.records_aligned : ∀ {p : Place} {l : List Record},
    Chain (Place.Accepts h) Place.next p l → p.offset % BLOCK_SIZE = 0 →
      (∀ r ∈ l, r.offset % BLOCK_SIZE = 0) ∧ (final Place.next p l).offset % BLOCK_SIZE = 0
  | _, [], _, ha => ⟨by simp, ha⟩
  | p, r :: l, ⟨h1, h2⟩, ha => by
    have hp : r.envelope.payloadBytes % BLOCK_SIZE = 0 := h1.valid.payload_aligned
    have hn : (p.next r).offset % BLOCK_SIZE = 0 := by
      simp only [Place.next, Record.length, Header.length, Record.header, BLOCK_SIZE] at hp ha ⊢
      omega
    obtain ⟨h3, h4⟩ := Place.records_aligned h2 hn
    refine ⟨forall_mem_cons.2 ⟨by rw [h1.offset]; exact ha, h3⟩, h4⟩

/-- The mutations between two places are numbered without a gap. -/
theorem Place.sequences (segment : Nat) : ∀ {p : Place} {l : List Record},
    Chain (Place.Accepts h) Place.next p l →
      (l.flatMap fun r => r.mutations segment).map Placed.sequence =
        range' (p.sequence + 1) ((final Place.next p l).sequence - p.sequence)
  | p, [], _ => by simp
  | p, r :: l, ⟨h1, h2⟩ => by
    obtain ⟨hle, -, hseq⟩ := h1.sequences
    have hle' : r.envelope.last ≤ (final Place.next (p.next r) l).sequence :=
      Place.final_sequence_le h2
    have ih := Place.sequences segment h2
    rw [flatMap_cons, map_append, ih, Record.map_sequence_mutations, hseq, final_cons]
    have hcat := range'_append_1 (s := p.sequence + 1) (m := r.envelope.last - p.sequence)
      (n := (final Place.next (p.next r) l).sequence - r.envelope.last)
    simp only [Place.next] at hcat ⊢
    rw [show p.sequence + 1 + (r.envelope.last - p.sequence) = r.envelope.last + 1 by omega] at hcat
    rw [hcat]
    congr 1
    simp only [Place.next] at hle'
    omega

theorem Place.sequence_bounds {segment : Nat} {p : Place}
    (hc : Chain (Place.Accepts h) Place.next p l) :
    ∀ m ∈ l.flatMap fun r => r.mutations segment,
      p.sequence < m.sequence ∧ m.sequence ≤ (final Place.next p l).sequence := by
  intro m hm
  have hmem : m.sequence ∈ (l.flatMap fun r => r.mutations segment).map Placed.sequence :=
    mem_map_of_mem hm
  rw [Place.sequences segment hc, mem_range'_1] at hmem
  have := Place.final_sequence_le hc
  omega

end Records

/-! ## Traces -/

/-- What the next segment of a trace must continue. -/
structure Tail where
  number : Nat
  sequence : Nat
  deriving DecidableEq, Repr

namespace Tail

/-- Before the first segment of a new log. -/
def first : Tail := ⟨0, 0⟩

def next (_ : Tail) (t : SegmentTrace) : Tail :=
  ⟨t.header.number, t.place.sequence⟩

structure Accepts [Digest] (config : Config) (p : Tail) (t : SegmentTrace) : Prop where
  number : p.number < t.header.number
  sequence : t.header.precedingSequence = p.sequence
  config : config.matchesHeader t.header = true
  wf : t.Wf

end Tail

abbrev Trace := List SegmentTrace

namespace Trace

def mutations (ts : Trace) : List Placed := ts.flatMap SegmentTrace.mutations

/-- Every segment continues the one before it, the first one what `origin` names. -/
def Wf [Digest] (origin : Tail) (config : Config) (ts : Trace) : Prop :=
  Chain (Tail.Accepts config) Tail.next origin ts

/-- The mutations above `d` and up to `p`. -/
def within (d p : Nat) (ms : List Placed) : List Placed :=
  ms.filter fun m => d < m.sequence ∧ m.sequence ≤ p

/-- The last place of the trace that `base` ends at. -/
def cursor (base : Nat) (ts : Trace) : Option ScanPosition :=
  ts.foldl (fun found t => t.cursor base found) none

theorem cursor_concat (base : Nat) (ts : Trace) (t : SegmentTrace) :
    cursor base (ts ++ [t]) = t.cursor base (cursor base ts) := by
  rw [cursor, foldl_append]
  rfl

theorem mutations_concat (ts : Trace) (t : SegmentTrace) :
    mutations (ts ++ [t]) = mutations ts ++ t.mutations := by
  simp [mutations]

section Within

theorem within_append (d p : Nat) (ms ns : List Placed) :
    within d p (ms ++ ns) = within d p ms ++ within d p ns := filter_append _ _

variable {d : Nat} {ms : List Placed}

theorem within_eq_nil {p : Nat}
    (h : ∀ m ∈ ms, m.sequence ≤ d ∨ p < m.sequence) : within d p ms = [] := by
  rw [within, filter_eq_nil_iff]
  intro m hm
  have := h m hm
  simp only [decide_eq_true_eq]
  omega

theorem within_eq_self {p : Nat}
    (h : ∀ m ∈ ms, d < m.sequence ∧ m.sequence ≤ p) : within d p ms = ms := by
  rw [within, filter_eq_self]
  intro m hm
  simpa using h m hm

theorem mem_within {p : Nat} {m : Placed} :
    m ∈ within d p ms ↔ m ∈ ms ∧ d < m.sequence ∧ m.sequence ≤ p := by
  simp [within]

theorem within_split {q p : Nat} (hd : d ≤ q) (hp : q ≤ p) :
    ∀ {ms : List Placed}, ms.Pairwise (fun a b => a.sequence < b.sequence) →
      within d p ms = within d q ms ++ within q p ms
  | [], _ => rfl
  | m :: ms, h => by
    obtain ⟨h1, h2⟩ := pairwise_cons.1 h
    have ih := within_split hd hp h2
    have hcons : ∀ a b, within a b (m :: ms) =
        if a < m.sequence ∧ m.sequence ≤ b then m :: within a b ms else within a b ms := by
      intro a b
      rw [within, filter_cons]
      simp only [decide_eq_true_eq]
      rfl
    rw [hcons, hcons, hcons]
    by_cases hq : m.sequence ≤ q
    · rw [if_neg (c := q < m.sequence ∧ m.sequence ≤ p) (by omega), ih]
      by_cases hdm : d < m.sequence
      · rw [if_pos ⟨hdm, by omega⟩, if_pos ⟨hdm, hq⟩, cons_append]
      · rw [if_neg (by omega), if_neg (by omega)]
    · -- everything from `m` on is above `q`
      have hnil : within d q ms = [] :=
        within_eq_nil fun b hb => Or.inr (by have := h1 b hb; omega)
      rw [if_neg (c := d < m.sequence ∧ m.sequence ≤ q) (by omega), ih, hnil]
      by_cases hmp : m.sequence ≤ p
      · rw [if_pos ⟨by omega, hmp⟩, if_pos ⟨by omega, hmp⟩]
        rfl
      · rw [if_neg (by omega), if_neg (by omega)]

end Within

section Numbering

variable [Digest] {config : Config}

variable {ts : Trace}

theorem final_sequence_le {p : Tail}
    (hc : Chain (Tail.Accepts config) Tail.next p ts) :
    p.sequence ≤ (final Tail.next p ts).sequence :=
  hc.le_final (m := Tail.sequence) fun _ t ha => by
    have := Place.final_sequence_le ha.wf.chain
    rw [← ha.sequence]
    exact this

theorem final_number_le {p : Tail}
    (hc : Chain (Tail.Accepts config) Tail.next p ts) :
    p.number ≤ (final Tail.next p ts).number :=
  hc.le_final (m := Tail.number) fun _ _ ha => le_of_lt ha.number

theorem number_bounds {p : Tail} (hc : Chain (Tail.Accepts config) Tail.next p ts) :
    ∀ t ∈ ts, p.number < t.header.number ∧ t.header.number ≤ (final Tail.next p ts).number := by
  intro t ht
  obtain ⟨l₁, l₂, rfl, h1, h2, h3⟩ := hc.exists_of_mem ht
  have hle := final_number_le h1
  have hge := final_number_le h3
  rw [final_append, final_cons]
  exact ⟨lt_of_le_of_lt hle h2.number, hge⟩

theorem numbers_pairwise : ∀ {p : Tail} {ts : Trace},
    Chain (Tail.Accepts config) Tail.next p ts →
      ts.Pairwise fun a b => a.header.number < b.header.number
  | _, [], _ => List.Pairwise.nil
  | _, _ :: _, ⟨_, h2⟩ =>
    pairwise_cons.2 ⟨fun b hb => (number_bounds h2 b hb).1, numbers_pairwise h2⟩

theorem sequences : ∀ {p : Tail} {ts : Trace}, Chain (Tail.Accepts config) Tail.next p ts →
    (mutations ts).map Placed.sequence =
      range' (p.sequence + 1) ((final Tail.next p ts).sequence - p.sequence)
  | p, [], _ => by simp [mutations]
  | p, t :: ts, ⟨h1, h2⟩ => by
    have hle := Place.final_sequence_le h1.wf.chain
    have hle' : t.place.sequence ≤ (final Tail.next (p.next t) ts).sequence := final_sequence_le h2
    have ht := Place.sequences t.header.number h1.wf.chain
    have ih := sequences h2
    have hs : (Place.start t.header).sequence = p.sequence := h1.sequence
    rw [mutations, flatMap_cons, map_append, final_cons]
    simp only [mutations] at ih
    rw [ih, SegmentTrace.mutations, ht, hs]
    rw [hs] at hle
    have hle : p.sequence ≤ t.place.sequence := hle
    have hcat := range'_append_1 (s := p.sequence + 1) (m := t.place.sequence - p.sequence)
      (n := (final Tail.next (p.next t) ts).sequence - t.place.sequence)
    rw [show p.sequence + 1 + (t.place.sequence - p.sequence) = t.place.sequence + 1 by omega]
      at hcat
    refine hcat.trans ?_
    congr 1
    omega

theorem sequences_pairwise {p : Tail}
    (hc : Chain (Tail.Accepts config) Tail.next p ts) :
    (mutations ts).Pairwise fun a b => a.sequence < b.sequence := by
  have h : ((mutations ts).map Placed.sequence).Pairwise (· < ·) := by
    rw [sequences hc]
    exact pairwise_lt_range'
  exact pairwise_map.1 h

theorem sequence_bounds {p : Tail} (hc : Chain (Tail.Accepts config) Tail.next p ts) :
    ∀ m ∈ mutations ts,
      p.sequence < m.sequence ∧ m.sequence ≤ (final Tail.next p ts).sequence := by
  intro m hm
  have hmem : m.sequence ∈ (mutations ts).map Placed.sequence := mem_map_of_mem hm
  rw [sequences hc, mem_range'_1] at hmem
  have := final_sequence_le hc
  omega

end Numbering

end Trace

end Cas.Append
