import Cas.Append.Packing

/-!
# The record format is lossless and canonical

Any series of builder calls, refused and failed ones included, seals to a record that reads back as
exactly the accepted calls (`Builder.Wf.run`). In the other direction a header that decodes is
the encoding of its envelope and its descriptors (`Header.encode_decode`): every byte of the block is
either a field that the decoder returns, a checked constant, or checked to be zero.
-/

namespace Cas.Append

open Bytes List

/-! ## Reading a header and writing it again -/

theorem Descriptor.encode_decode {slot : Bytes} (hl : slot.length = DESCRIPTOR_BYTES)
    (hc : SlotCanonical slot) : (decode slot).encode (zeros DESCRIPTOR_BYTES) = slot := by
  have hl : slot.length = 64 := hl
  have hz : (zeros 64).length = 64 := length_zeros 64
  have htag : ofNat 2 (decode slot).kind.tag = slot.slice 52 2 := by
    rw [← ofNat_u16At (by omega)]
    congr 1
    unfold decode
    rcases hc.1 with h | h
    · rw [if_pos h, h]
      rfl
    · rw [if_neg (by omega), h]
      rfl
  have hpad : slot.slice 58 6 = zeros 6 := by
    have h := isZero_iff.1 hc.2
    rwa [length_drop, hl, drop_eq_slice (show slot.length = 58 + 6 by omega)] at h
  have hw : ∀ o, o + 8 ≤ 64 → ofNat 8 (u64At slot o) = slot.slice o 8 :=
    fun o ho => ofNat_u64At (by omega)
  have hd : ∀ o, o + 4 ≤ 64 → ofNat 4 (u32At slot o) = slot.slice o 4 :=
    fun o ho => ofNat_u32At (by omega)
  have hh : ∀ o, o + 2 ≤ 64 → ofNat 2 (u16At slot o) = slot.slice o 2 :=
    fun o ho => ofNat_u16At (by omega)
  have hzero : (zeros 64).slice 58 6 = zeros 6 := slice_zeros (by omega)
  refine eq_of_agree [8, 8, 8, 8, 8, 4, 4, 4, 2, 2, 2, 6] ?_ hl ?_
  · simp [encode]
  unfold encode
  rw [show DESCRIPTOR_BYTES = 64 from rfl]
  generalize zeros 64 = z at hz hzero
  simp only [put64, put32, put16]
  refine ⟨?_, ?_, ?_, ?_, ?_, ?_, ?_, ?_, ?_, ?_, ?_, ?_, trivial⟩ <;>
  simp only [slice_put_disjoint, slice_put_self, length_ofNat, length_put, hz, hzero, hpad,
    Nat.reduceAdd, Nat.reduceLeDiff, true_or, or_true] <;>
  first
  | exact hw _ (by decide)
  | exact hd _ (by decide)
  | exact hh _ (by decide)
  | exact htag

/-- The header block of an envelope and its descriptors, as `Builder::push` and `Envelope::encode`
store them in a zeroed buffer. -/
def encodeHeader [Digest] (e : Envelope) (ds : List Descriptor) : Bytes :=
  e.encode ((zeros BLOCK_SIZE).put ENVELOPE_BYTES
    (ds.flatMap fun d => d.encode (zeros DESCRIPTOR_BYTES)))

/-- Everything the envelope writes is what an accepted header holds there. -/
theorem Envelope.encode_readEnvelope [Digest] {b c : Bytes} (hb : Header.Framed b)
    (hl : c.length = BLOCK_SIZE) (hz : c.slice 0 ENVELOPE_BYTES = zeros ENVELOPE_BYTES)
    (hrest : c.slice ENVELOPE_BYTES (BLOCK_SIZE - ENVELOPE_BYTES) =
      b.slice ENVELOPE_BYTES (BLOCK_SIZE - ENVELOPE_BYTES)) :
    (Header.readEnvelope b).encode c = b := by
  have hbl : b.length = 4096 := hb.length
  have hl : c.length = 4096 := hl
  have hrest : c.slice 64 4032 = b.slice 64 4032 := hrest
  have hzero : ∀ o n, o + n ≤ 64 → c.slice o n = zeros n := by
    intro o n h
    have := slice_slice (b := c) (o := 0) (n := 64) h
    rw [zero_add] at this
    rw [← this, show c.slice 0 64 = zeros 64 from hz, slice_zeros h]
  have hw : ∀ o, o + 8 ≤ 4096 → ofNat 8 (u64At b o) = b.slice o 8 := fun o ho => ofNat_u64At (by omega)
  have hd : ∀ o, o + 4 ≤ 4096 → ofNat 4 (u32At b o) = b.slice o 4 := fun o ho => ofNat_u32At (by omega)
  have hh : ∀ o, o + 2 ≤ 4096 → ofNat 2 (u16At b o) = b.slice o 2 := fun o ho => ofNat_u16At (by omega)
  have hversion : ofNat 2 2 = b.slice 8 2 := by rw [← hh 8 (by decide), hb.version.2]
  have hkind : ofNat 2 (if (Header.readEnvelope b).fence then 2 else 1) = b.slice 10 2 := by
    rw [← hh 10 (by decide)]
    congr 1
    unfold Header.readEnvelope
    rcases hb.kind with h | h <;> simp [h]
  have hsize : ofNat 4 (BLOCK_SIZE + (Header.readEnvelope b).payloadBytes) = b.slice 32 4 := by
    rw [← hb.size, hd 32 (by decide)]
  have hpad2 : zeros 2 = b.slice 14 2 := by
    rw [← hh 14 (by decide), hb.reserved.1]
    rfl
  have hpad4 : zeros 4 = b.slice 60 4 := by
    rw [← hd 60 (by decide), hb.reserved.2]
    rfl
  have hm : Envelope.magic.length = 8 := rfl
  refine put32_checksum_eq hb.sum (by omega) ?_
  refine eq_of_agree [8, 2, 2, 2, 2, 8, 8, 4, 4, 8, 8, 4, 4, 4032] ?_ ?_ ?_
  · simp [fields, hl]
  · simp [hbl]
  unfold fields
  simp only [put64, put32, put16]
  refine ⟨?_, ?_, ?_, ?_, ?_, ?_, ?_, ?_, ?_, ?_, ?_, ?_, ?_, ?_, trivial⟩ <;>
  simp only [slice_put_disjoint, slice_put_self, length_ofNat, length_put, hl, hbl, hm, hzero, hrest,
    Nat.reduceAdd, Nat.reduceLeDiff, true_or, or_true] <;>
  first
  | exact hw _ (by decide)
  | exact hd _ (by decide)
  | exact hh _ (by decide)
  | exact hversion
  | exact hkind
  | exact hsize
  | exact hpad2
  | exact hpad4
  | exact hb.version.1.symm

namespace Header

variable [Digest] {b : Bytes} {imageBytes : Nat} {h : Header}

/-- **The header format is canonical.** An accepted header, data or fence, is the encoding of its
envelope and descriptors. -/
theorem encode_decode (hd : decode b imageBytes = .ok h) :
    encodeHeader h.envelope h.descriptors = b := by
  obtain ⟨rfl, hframed, hvalid, hcan⟩ := decode_eq_ok_iff.1 hd
  have hbl : b.length = 4096 := hframed.length
  have hcount : (readEnvelope b).descriptors ≤ 63 := hvalid.count_le
  have hbody : ((Header.mk (readEnvelope b) b).descriptors.flatMap fun d =>
      d.encode (zeros DESCRIPTOR_BYTES)) = b.slice 64 (64 * (readEnvelope b).descriptors) := by
    rw [descriptors, flatMap_map, ← flatMap_range_slice]
    refine flatMap_congr fun i hi => ?_
    have hi := mem_range.1 hi
    exact Descriptor.encode_decode (length_slice_of_le (by simp at hi ⊢; omega)) (hcan i hi)
  have hunused : b.slice (64 + 64 * (readEnvelope b).descriptors)
      (4032 - 64 * (readEnvelope b).descriptors) =
      zeros (4032 - 64 * (readEnvelope b).descriptors) := by
    have h := isZero_iff.1 hframed.unused
    rwa [drop_eq_slice (n := 4032 - 64 * (readEnvelope b).descriptors) (by simp; omega),
      length_slice_of_le (by simp; omega)] at h
  unfold encodeHeader
  rw [hbody]
  refine Envelope.encode_readEnvelope hframed (by simp) ?_ ?_
  · rw [slice_put_disjoint (Or.inl (by simp))]
    exact slice_zeros (by decide)
  · refine slice_put_front (k := 64 * (readEnvelope b).descriptors) (by simp; omega) (by simp; omega)
      (by simp) ?_
    exact (slice_zeros (by simp; omega)).trans hunused.symm

end Header

/-! ## Series of builder calls -/

namespace Builder

/-- One call on a builder. -/
inductive Call
  | write (id : RequestId) (offset length : Nat) (gather : Gathered)
  | zero (id : RequestId) (offset length : Nat)

def Call.id : Call → RequestId
  | .write id _ _ _ => id
  | .zero id _ _ => id

/-- The payload gathered so far. -/
def payload (b : Builder) : Bytes := b.buffer.slice BLOCK_SIZE b.payloadBytes

/-- The descriptor of an accepted call. A WRITE owns the payload range that holds what its gather
stored. -/
def Call.Describes [Digest] (payload : Bytes) (d : Descriptor) : Call → Prop
  | .write id offset length gather => Added id .write offset length d ∧ d.payloadLength = length ∧
      d.payloadOffset + length ≤ payload.length ∧
      d.payloadCrc = (Digest.crc32 (payload.slice d.payloadOffset length)).toNat ∧
      payload.slice d.payloadOffset (min length gather.bytes.length) = gather.bytes.take length
  | .zero id offset length => Added id .zero offset length d ∧ d.payloadOffset = 0 ∧
      d.payloadLength = 0 ∧ d.payloadCrc = 0

/-- The descriptors are those of the accepted calls, in order. -/
def Recorded [Digest] (payload : Bytes) : List (Call × Except FormatError Unit) → List Descriptor → Prop
  | [], ds => ds = []
  | (_, .error _) :: calls, ds => Recorded payload calls ds
  | (call, .ok ()) :: calls, ds => ∃ d ds', ds = d :: ds' ∧ call.Describes payload d ∧
      Recorded payload calls ds'

variable [Digest]

def call (b : Builder) : Call → Builder × Except FormatError Unit
  | .write id offset length gather => b.write id offset length gather
  | .zero id offset length => b.zero id offset length

/-- A series of calls with their results. -/
def run : Builder → List Call → Builder × List (Except FormatError Unit)
  | b, [] => (b, [])
  | b, c :: cs => ((run (b.call c).1 cs).1, (b.call c).2 :: (run (b.call c).1 cs).2)

/-- What was gathered stays. -/
structure Grows (b b' : Builder) : Prop where
  imageBytes : b'.imageBytes = b.imageBytes
  payloadBytes : b.payloadBytes ≤ b'.payloadBytes
  payload : b'.buffer.slice BLOCK_SIZE b.payloadBytes = b.buffer.slice BLOCK_SIZE b.payloadBytes

omit [Digest] in
theorem Grows.trans {b b' b'' : Builder} (h : Grows b b') (h' : Grows b' b'') : Grows b b'' := by
  refine ⟨h'.imageBytes.trans h.imageBytes, h.payloadBytes.trans h'.payloadBytes, ?_⟩
  have hsub : ∀ a : Bytes, a.slice BLOCK_SIZE b.payloadBytes =
      (a.slice BLOCK_SIZE b'.payloadBytes).slice 0 b.payloadBytes := by
    intro a
    rw [slice_slice (by have := h.payloadBytes; omega), add_zero]
  rw [hsub, h'.payload, ← hsub, h.payload]

omit [Digest] in
theorem grows_push {b : Builder} (hroom : b.descriptors < MAX_DESCRIPTORS) (d : Descriptor) {p : Nat}
    (hp : b.payloadBytes ≤ p) : Grows b { b.push d with payloadBytes := p } := by
  refine ⟨rfl, hp, ?_⟩
  have hlen : (d.encode (b.buffer.slice (ENVELOPE_BYTES + b.descriptors * DESCRIPTOR_BYTES)
      DESCRIPTOR_BYTES)).length ≤ 64 := by
    rw [Descriptor.length_encode, length_slice]
    exact Nat.min_le_left _ _
  exact slice_put_disjoint (Or.inr (by simp at hroom hlen ⊢; omega))

omit [Digest] in
theorem grows_gather (b : Builder) (v : Bytes) :
    Grows b { b with buffer := b.buffer.put (BLOCK_SIZE + b.payloadBytes) v } :=
  ⟨rfl, le_refl _, slice_put_disjoint (Or.inl (le_refl _))⟩

theorem grows_call (b : Builder) (c : Call) : Grows b (b.call c).1 := by
  have hrefl : Grows b b := ⟨rfl, le_refl _, rfl⟩
  cases c with
  | write id offset length gather =>
    show Grows b (b.write id offset length gather).1
    unfold write
    cases hadm : b.admits id offset length length with
    | error e => exact hrefl
    | ok u =>
      dsimp only
      split
      · exact grows_gather b _
      · refine (grows_gather b (gather.bytes.take length)).trans (grows_push ?_ _ ?_)
        · exact (admits_eq_ok.1 hadm).1
        · exact Nat.le_add_right _ _
  | zero id offset length =>
    show Grows b (b.zero id offset length).1
    unfold zero
    cases hadm : b.admits id offset length 0 with
    | error e => exact hrefl
    | ok u => exact grows_push (admits_eq_ok.1 hadm).1 _ (le_refl _)

theorem grows_run : ∀ (cs : List Call) (b : Builder), Grows b (b.run cs).1
  | [], _ => ⟨rfl, le_refl _, rfl⟩
  | c :: cs, b => (grows_call b c).trans (grows_run cs _)

theorem write_gathered {b : Builder} {id : RequestId} {offset length : Nat} {gather : Gathered}
    (hfit : BLOCK_SIZE + b.payloadBytes ≤ b.buffer.length)
    (h : (b.write id offset length gather).2 = .ok ()) :
    (b.write id offset length gather).1.payloadBytes = b.payloadBytes + length ∧
      (b.write id offset length gather).1.buffer.slice (BLOCK_SIZE + b.payloadBytes)
        (min length gather.bytes.length) = gather.bytes.take length := by
  unfold write at h ⊢
  cases hadm : b.admits id offset length length with
  | error e =>
    rw [hadm] at h
    cases h
  | ok u =>
    rw [hadm] at h
    obtain ⟨hroom, -, -, hpay⟩ := admits_eq_ok.1 hadm
    dsimp only at h ⊢
    split at h
    · cases h
    · rename_i hf
      rw [if_neg hf]
      refine ⟨rfl, ?_⟩
      have hlen : (Descriptor.encode
          { id, sequence := 0, offset, length, payloadOffset := b.payloadBytes, payloadLength := length
            payloadCrc := (Digest.crc32 ((b.buffer.put (BLOCK_SIZE + b.payloadBytes)
              (gather.bytes.take length)).slice (BLOCK_SIZE + b.payloadBytes) length)).toNat
            kind := .write }
          ((b.buffer.put (BLOCK_SIZE + b.payloadBytes) (gather.bytes.take length)).slice
            (ENVELOPE_BYTES + b.descriptors * DESCRIPTOR_BYTES) DESCRIPTOR_BYTES)).length ≤ 64 := by
        rw [Descriptor.length_encode, length_slice]
        exact Nat.min_le_left _ _
      simp only [push]
      rw [slice_put_disjoint (Or.inr (by simp at hroom hlen ⊢; omega))]
      refine slice_put_self ?_ (by rw [length_take])
      simp only [allocationBytes] at hpay
      omega

end Builder

/-! ## Payload offsets have no gaps -/

/-- A WRITE descriptor starts where the payload of the ones before it ends. -/
def GapFree (ds : List Descriptor) : Prop :=
  ∀ i d, ds[i]? = some d → d.kind = .write →
    d.payloadOffset = ((ds.take i).map Descriptor.payloadLength).sum

theorem PackedFrom.offsets [Digest] {imageBytes : Nat} {payload : Bytes} :
    ∀ {ds : List Descriptor} {st st' : Nat × Nat}, PackedFrom imageBytes payload ds st st' →
      st'.1 = st.1 + (ds.map Descriptor.payloadLength).sum ∧
      ∀ i d, ds[i]? = some d → d.kind = .write →
        d.payloadOffset = st.1 + ((ds.take i).map Descriptor.payloadLength).sum := by
  intro ds
  induction ds with
  | nil =>
    intro st st' h
    obtain rfl : st = st' := h
    exact ⟨rfl, fun i d hd => by simp at hd⟩
  | cons a ds ih =>
    rintro st st' ⟨ha, hds⟩
    obtain ⟨h1, h2⟩ := ih hds
    refine ⟨?_, fun i d hd hk => ?_⟩
    · rw [h1, map_cons, sum_cons, advance]
      exact add_assoc _ _ _
    · cases i with
      | zero =>
        cases hd
        have hkind := ha.2.2.2
        rw [hk] at hkind
        exact hkind.2.1
      | succ i =>
        rw [h2 i d hd hk, take_succ_cons, map_cons, sum_cons, advance]
        exact add_assoc _ _ _

theorem PackedFrom.accepts [Digest] {imageBytes : Nat} {payload : Bytes} :
    ∀ {ds : List Descriptor} {st st' : Nat × Nat}, PackedFrom imageBytes payload ds st st' →
      ∀ d ∈ ds, ∃ st₀, Accepts imageBytes payload st₀ d := by
  intro ds
  induction ds with
  | nil =>
    intro st st' _ d hd
    cases hd
  | cons a ds ih =>
    rintro st st' ⟨ha, hds⟩ d hd
    rcases mem_cons.1 hd with rfl | hd
    · exact ⟨st, ha⟩
    · exact ih hds d hd

theorem stamped_take (first i : Nat) (ds : List Descriptor) :
    ((stamped first ds).take i).map Descriptor.payloadLength =
      (ds.take i).map Descriptor.payloadLength := by
  induction ds generalizing first i with
  | nil => rfl
  | cons d ds ih =>
    cases i with
    | zero => rfl
    | succ i => rw [stamped_cons, take_succ_cons, take_succ_cons, map_cons,
        map_cons, ih]

theorem getElem?_stamped {first i : Nat} {ds : List Descriptor} {d : Descriptor}
    (h : (stamped first ds)[i]? = some d) :
    ∃ d₀, ds[i]? = some d₀ ∧ d = { d₀ with sequence := first + i } := by
  rw [stamped, getElem?_mapIdx, Option.map_eq_some_iff] at h
  obtain ⟨d₀, h₀, rfl⟩ := h
  exact ⟨d₀, h₀, rfl⟩


namespace Builder

variable [Digest]

theorem Wf.length_payload {b : Builder} {ds : List Descriptor} (hw : b.Wf ds) :
    b.payload.length = b.payloadBytes := length_slice_of_le hw.fits

/-- The descriptor of a call stays right while the builder grows. -/
theorem Grows.describes {b b' : Builder} {ds ds' : List Descriptor} (h : Grows b b') (hw : b.Wf ds)
    (hw' : b'.Wf ds') {c : Call} {d : Descriptor} (hd : c.Describes b.payload d) :
    c.Describes b'.payload d := by
  cases c with
  | zero id offset length => exact hd
  | write id offset length gather =>
    obtain ⟨hadd, hlen, hle, hcrc, hbytes⟩ := hd
    rw [hw.length_payload] at hle
    have hgrow := h.payloadBytes
    have hsame : ∀ n ≤ length, b'.payload.slice d.payloadOffset n = b.payload.slice d.payloadOffset n := by
      intro n hn
      rw [Builder.payload, Builder.payload, ← h.payload, slice_slice (by omega),
        slice_slice (by omega)]
    refine ⟨hadd, hlen, by rw [hw'.length_payload]; omega, ?_, ?_⟩
    · rw [hsame length (le_refl _), hcrc]
    · rw [hsame _ (Nat.min_le_left _ _), hbytes]

/-- One call: a refused or failed one leaves the accepted descriptors, an accepted one adds its
own. -/
theorem Wf.call {b : Builder} {ds : List Descriptor} (hw : b.Wf ds) {c : Call} (hid : c.id.Fits) :
    ((b.call c).2 = .ok () ∧ ∃ d, (b.call c).1.Wf (ds ++ [d]) ∧ c.Describes (b.call c).1.payload d) ∨
      (∃ e, (b.call c).2 = .error e) ∧ (b.call c).1.Wf ds := by
  cases c with
  | zero id offset length =>
    have hid : id.Fits := hid
    rcases hw.zero hid offset length with ⟨hok, d, hadd, hw'⟩ | ⟨herr, hb⟩
    · obtain ⟨st, -, -, -, hkind⟩ := hw'.packed.accepts d (by simp)
      rw [hadd.kind] at hkind
      exact Or.inl ⟨hok, d, hw', hadd, hkind⟩
    · exact Or.inr ⟨herr, by rw [Builder.call, hb]; exact hw⟩
  | write id offset length gather =>
    have hid : id.Fits := hid
    simp only [Builder.call]
    rcases hw.write hid offset length gather with ⟨hok, d, hadd, hw'⟩ | ⟨herr, hw'⟩
    · obtain ⟨hbytes, hstored⟩ := write_gathered hw.fits hok
      -- the descriptor claims the payload from the old end on
      have hoff : d.payloadOffset = b.payloadBytes := by
        have hnew := hw'.packed.offsets.2 ds.length d (by simp) hadd.kind
        have hold := hw.packed.offsets.1
        rw [take_left] at hnew
        exact hnew.trans hold.symm
      obtain ⟨st, -, -, -, hkind⟩ := hw'.packed.accepts d (by simp)
      rw [hadd.kind] at hkind
      obtain ⟨hlen, hst, -, hcrc⟩ := hkind
      have hlen : d.payloadLength = length := hlen.symm.trans hadd.length
      refine Or.inl ⟨hok, d, hw', hadd, hlen, ?_, ?_, ?_⟩
      · rw [hw'.length_payload, hoff, hbytes]
      · rw [hlen] at hcrc
        rw [hst]
        exact hcrc.symm
      · rw [hoff, payload, hbytes, slice_slice (by omega)]
        exact hstored
    · exact Or.inr ⟨herr, hw'⟩

theorem Wf.sealed_payload {b : Builder} {ds : List Descriptor} (hw : b.Wf ds)
    {segment batch first : Nat} {record : Batch}
    (h : b.sealBatch segment batch first = .ok record) :
    record.bytes.slice BLOCK_SIZE record.envelope.payloadBytes = b.payload := by
  obtain ⟨-, h⟩ := requireFormat_bind_eq_ok.1 h
  split at h
  · cases h
  · cases h
    have hcl := hw.count_le
    rw [Batch.slice_payload, hw.count]
    exact slice_stampSequences (Or.inr (by simp at hcl ⊢; omega))

theorem Wf.run : ∀ {cs : List Call} {b : Builder} {ds : List Descriptor}, b.Wf ds →
    (∀ c ∈ cs, c.id.Fits) →
    ∃ ds', (b.run cs).1.Wf (ds ++ ds') ∧ Recorded (b.run cs).1.payload (cs.zip (b.run cs).2) ds' := by
  intro cs
  induction cs with
  | nil =>
    intro b ds hw _
    exact ⟨[], by rw [append_nil]; exact hw, rfl⟩
  | cons c cs ih =>
    intro b ds hw hids
    have hrest : ∀ c ∈ cs, c.id.Fits := fun c hc => hids c (mem_cons_of_mem _ hc)
    simp only [Builder.run, zip_cons_cons]
    rcases hw.call (hids c mem_cons_self) with ⟨hok, d, hw', hd⟩ | ⟨⟨e, herr⟩, hw'⟩
    · obtain ⟨ds', hwf, hrec⟩ := ih hw' hrest
      refine ⟨d :: ds', by rw [append_cons]; exact hwf, ?_⟩
      rw [hok]
      exact ⟨d, ds', rfl, (grows_run cs _).describes hw' hwf hd, hrec⟩
    · obtain ⟨ds', hwf, hrec⟩ := ih hw' hrest
      refine ⟨ds', hwf, ?_⟩
      rw [herr]
      exact hrec

/-- Numbering the descriptors does not change what they record. -/
theorem Recorded.stamped {payload : Bytes} :
    ∀ {calls : List (Call × Except FormatError Unit)} {ds : List Descriptor} (first : Nat),
      Recorded payload calls ds → Recorded payload calls (Append.stamped first ds) := by
  intro calls
  induction calls with
  | nil =>
    rintro ds first rfl
    rfl
  | cons x calls ih =>
    obtain ⟨c, r⟩ := x
    intro ds first h
    cases r with
    | error e => exact ih first h
    | ok u =>
      obtain ⟨d, ds', rfl, hd, hrec⟩ := h
      refine ⟨{ d with sequence := first }, _, stamped_cons first d ds', ?_, ih (first + 1) hrec⟩
      cases c with
      | write id offset length gather =>
        obtain ⟨⟨h1, h2, h3, h4⟩, hrest⟩ := hd
        exact ⟨⟨h1, h2, h3, h4⟩, hrest⟩
      | zero id offset length =>
        obtain ⟨⟨h1, h2, h3, h4⟩, hrest⟩ := hd
        exact ⟨⟨h1, h2, h3, h4⟩, hrest⟩

end Builder

/-- **The record format is lossless and canonical.** Sealing after any series of builder calls gives a
record whose header decodes to the accepted calls, densely numbered and without gaps in the payload,
and whose payload verifies; a header that decodes is the encoding of what it decodes to. -/
theorem Header.record_roundtrips [Digest] :
    (∀ (imageBytes capacity segment batch first : Nat) (b : Builder) (calls : List Builder.Call)
        (record : Batch), segment < U64 → batch < U64 → (∀ c ∈ calls, c.id.Fits) →
      Builder.new imageBytes capacity = .ok b →
      (b.run calls).1.sealBatch segment batch first = .ok record →
      ∃ h, Header.decode (record.bytes.slice 0 BLOCK_SIZE) imageBytes = .ok h ∧
        h.envelope = record.envelope ∧
        record.bytes.length = BLOCK_SIZE + record.envelope.payloadBytes ∧
        Builder.Recorded (record.bytes.slice BLOCK_SIZE record.envelope.payloadBytes)
          (calls.zip (b.run calls).2) h.descriptors ∧
        (∀ i d, h.descriptors[i]? = some d → d.sequence = first + i) ∧ GapFree h.descriptors ∧
        (h.descriptors.map Descriptor.payloadLength).sum = record.envelope.payloadBytes ∧
        h.verifyPayload (record.bytes.slice BLOCK_SIZE record.envelope.payloadBytes) = .ok ()) ∧
    ∀ (bytes : Bytes) (imageBytes : Nat) (h : Header), Header.decode bytes imageBytes = .ok h →
      encodeHeader h.envelope h.descriptors = bytes := by
  refine ⟨?_, fun bytes imageBytes h hd => encode_decode hd⟩
  intro imageBytes capacity segment batch first b calls record hs hb hids hnew hseal
  obtain ⟨ds, hw, hrec⟩ := (Builder.wf_new hnew).run hids
  rw [List.nil_append] at hw
  obtain ⟨hreads, henv, -, -, -⟩ := hw.sealBatch hs hb hseal
  have himage : (b.run calls).1.imageBytes = imageBytes := by
    rw [(Builder.grows_run calls b).imageBytes]
    obtain ⟨-, hnew⟩ := requireFormat_bind_eq_ok.1 hnew
    obtain ⟨-, hnew⟩ := requireFormat_bind_eq_ok.1 hnew
    cases hnew
    rfl
  have hpayload : record.bytes.slice BLOCK_SIZE record.envelope.payloadBytes =
      (b.run calls).1.payload := hw.sealed_payload hseal
  obtain ⟨hsum, hoffsets⟩ := hw.packed.offsets
  rw [himage] at hreads
  refine ⟨_, hreads.header, rfl, hreads.length, ?_, ?_, ?_, ?_, hreads.payload⟩
  · rw [hreads.descriptors, hpayload]
    exact hrec.stamped first
  · intro i d hd
    rw [hreads.descriptors] at hd
    obtain ⟨d₀, -, rfl⟩ := getElem?_stamped hd
    rfl
  · intro i d hd hk
    rw [hreads.descriptors] at hd ⊢
    obtain ⟨d₀, hd₀, rfl⟩ := getElem?_stamped hd
    rw [stamped_take]
    exact (hoffsets i d₀ hd₀ hk).trans (Nat.zero_add _)
  · have htake := stamped_take first (stamped first ds).length ds
    rw [List.take_length, length_stamped, List.take_length] at htake
    rw [hreads.descriptors, htake, henv]
    exact (Nat.zero_add _).symm.trans hsum.symm

/-- A record of one ZERO after a refused call. -/
theorem Header.record_roundtrips_zero : let _ := nullDigest
    ∃ b record h, Builder.new (2 * BLOCK_SIZE) 0 = .ok b ∧
      (b.run [.zero ⟨1, 0, 0, 0⟩ 0 BLOCK_SIZE, .zero ⟨1, 1, 0, 0⟩ 0 BLOCK_SIZE]).1.sealBatch 1 1 1 =
        .ok record ∧
      Header.decode (record.bytes.slice 0 BLOCK_SIZE) (2 * BLOCK_SIZE) = .ok h ∧
      GapFree h.descriptors ∧ encodeHeader h.envelope h.descriptors = record.bytes.slice 0 BLOCK_SIZE := by
  let _ := nullDigest
  have hnew : ∃ b, Builder.new (2 * BLOCK_SIZE) 0 = .ok b := ⟨_, rfl⟩
  obtain ⟨b, hnew⟩ := hnew
  have hseal : ∃ record, (b.run [.zero ⟨1, 0, 0, 0⟩ 0 BLOCK_SIZE,
      .zero ⟨1, 1, 0, 0⟩ 0 BLOCK_SIZE]).1.sealBatch 1 1 1 = .ok record := by
    cases hnew
    exact ⟨_, rfl⟩
  obtain ⟨record, hseal⟩ := hseal
  have hids : ∀ c ∈ [Builder.Call.zero ⟨1, 0, 0, 0⟩ 0 BLOCK_SIZE, .zero ⟨1, 1, 0, 0⟩ 0 BLOCK_SIZE],
      c.id.Fits := by
    intro c hc
    simp only [List.mem_cons, List.not_mem_nil, or_false] at hc
    rcases hc with rfl | rfl
    · exact ⟨by decide, by decide, by decide, by decide⟩
    · exact ⟨by decide, by decide, by decide, by decide⟩
  obtain ⟨hlossless, hcanonical⟩ := Header.record_roundtrips
  obtain ⟨h, hdec, -, -, -, -, hgap, -⟩ := hlossless _ _ 1 1 1 b _ record (by decide) (by decide) hids
    hnew hseal
  exact ⟨b, record, h, hnew, hseal, hdec, hgap, hcanonical _ _ h hdec⟩

end Cas.Append
