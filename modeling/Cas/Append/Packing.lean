import Cas.Append.Decode

/-!
# Packed batches decode to what was packed

The builder's invariant (`Builder.Wf`) names the accepted descriptors: their slots hold exactly
their encoding, everything after them is zero, and their payload ranges tile the gathered payload.
Every `write` and `zero` call keeps it, also one whose gather fails midway. `sealBatch_spec` is the
round trip: the sealed bytes decode to the accepted descriptors with dense sequences, and the
payload verifies.
-/

namespace Cas.Append

open Bytes List

/-- The identity fields are values of their machine types. -/
structure RequestId.Fits (id : RequestId) : Prop where
  serial : id.serial < U64
  attachment : id.attachment < U64
  queue : id.queue < 2 ^ 16
  head : id.head < 2 ^ 16

/-- The descriptor fields are values of their machine types. -/
structure Descriptor.Fits (d : Descriptor) : Prop where
  id : d.id.Fits
  sequence : d.sequence < U64
  offset : d.offset < U64
  length : d.length < U64
  payloadOffset : d.payloadOffset < 2 ^ 32
  payloadLength : d.payloadLength < 2 ^ 32
  payloadCrc : d.payloadCrc < 2 ^ 32

/-! ## Descriptor slots -/

namespace Descriptor

@[simp] theorem length_encode (d : Descriptor) (b : Bytes) : (d.encode b).length = b.length := by
  simp [encode]

/-- A slot stamped with a sequence decodes to the descriptor with that sequence. -/
theorem decode_stamped {d : Descriptor} (hf : d.Fits) {b : Bytes} (hb : b.length = 64) {s : Nat}
    (hs : s < U64) : decode (put64 (d.encode b) 8 s) = { d with sequence := s } := by
  obtain ⟨⟨h1, h2, h3, h4⟩, -, h6, h7, h8, h9, h10⟩ := hf
  have ht : d.kind.tag < 2 ^ 16 := by cases d.kind <;> decide
  have hkind : (if d.kind.tag = 1 then Kind.write else Kind.zero) = d.kind := by
    cases d.kind <;> rfl
  obtain ⟨id, sequence, offset, length, payloadOffset, payloadLength, payloadCrc, kind⟩ := d
  simp only [decode, encode, u64At, u32At, u16At, put64, put32, put16]
  simp only [slice_put_self, slice_put_disjoint, length_ofNat, length_put, toNat_ofNat8,
    toNat_ofNat4, toNat_ofNat2, Nat.reduceAdd, Nat.reduceLeDiff, true_or, or_true, *]

theorem slotCanonical_stamped (d : Descriptor) {b : Bytes} (hb : b.length = 64)
    (hz : isZero (b.drop 58) = true) (s : Nat) : SlotCanonical (put64 (d.encode b) 8 s) := by
  have ht : d.kind.tag = 1 ∨ d.kind.tag = 2 := by cases d.kind <;> simp [Kind.tag]
  constructor
  · have : u16At (put64 (d.encode b) 8 s) 52 = d.kind.tag := by
      simp only [encode, u16At, put64, put32, put16]
      simp only [slice_put_self, slice_put_disjoint, length_ofNat, length_put, hb,
        Nat.reduceAdd, Nat.reduceLeDiff, true_or, or_true]
      exact toNat_ofNat2 (by omega)
    rw [this]
    exact ht
  · have hd : ∀ c : Bytes, c.length = 64 → c.drop 58 = c.slice 58 6 := by
      intro c hc
      rw [slice, take_of_length_le (by simp [hc])]
    rw [hd _ (by simp [hb])]
    rw [hd _ hb] at hz
    simp only [encode, put64, put32, put16]
    simp only [slice_put_disjoint, length_ofNat, Nat.reduceAdd, Nat.reduceLeDiff, or_true, hz]

end Descriptor

/-! ## Accepted descriptors tile the payload -/

/-- The descriptor continues a batch with `st.1` payload bytes claimed and last serial `st.2`. -/
def Accepts [Digest] (imageBytes : Nat) (payload : Bytes) (st : Nat × Nat) (d : Descriptor) :
    Prop :=
  d.Fits ∧ (d.id.serial > st.2 ∧ d.id.attachment ≠ 0) ∧
    validRange d.offset d.length imageBytes = true ∧
    match d.kind with
    | .write => d.length = d.payloadLength ∧ d.payloadOffset = st.1 ∧
        st.1 + d.payloadLength ≤ payload.length ∧
        (Digest.crc32 (payload.slice st.1 d.payloadLength)).toNat = d.payloadCrc
    | .zero => d.payloadOffset = 0 ∧ d.payloadLength = 0 ∧ d.payloadCrc = 0

/-- The batch state after a descriptor. -/
def advance (st : Nat × Nat) (d : Descriptor) : Nat × Nat := (st.1 + d.payloadLength, d.id.serial)

/-- The descriptors are accepted one after the other, from state `st` to `st'`. -/
def PackedFrom [Digest] (imageBytes : Nat) (payload : Bytes) :
    List Descriptor → Nat × Nat → Nat × Nat → Prop
  | [], st, st' => st = st'
  | d :: ds, st, st' =>
    Accepts imageBytes payload st d ∧ PackedFrom imageBytes payload ds (advance st d) st'

/-- Number the descriptors densely from `first`. -/
def stamped (first : Nat) (ds : List Descriptor) : List Descriptor :=
  ds.mapIdx fun i d => { d with sequence := first + i }

@[simp] theorem length_stamped (first : Nat) (ds : List Descriptor) :
    (stamped first ds).length = ds.length := by simp [stamped]

theorem stamped_cons (first : Nat) (d : Descriptor) (ds : List Descriptor) :
    stamped first (d :: ds) = { d with sequence := first } :: stamped (first + 1) ds := by
  simp only [stamped, mapIdx_cons, add_zero, cons.injEq, true_and]
  congr 1
  funext i d
  rw [add_assoc, add_comm 1 i]

section Packed

variable [Digest] {imageBytes : Nat} {payload payload' : Bytes}

theorem PackedFrom.snoc {d : Descriptor} :
    ∀ {ds : List Descriptor} {st st' : Nat × Nat}, PackedFrom imageBytes payload ds st st' →
      Accepts imageBytes payload st' d →
      PackedFrom imageBytes payload (ds ++ [d]) st (advance st' d)
  | [], _, _, h, ha => by
    cases h
    exact ⟨ha, rfl⟩
  | _ :: _, _, _, h, ha => ⟨h.1, PackedFrom.snoc h.2 ha⟩

theorem Accepts.mono (hp : ∀ o n, o + n ≤ payload.length → payload'.slice o n = payload.slice o n)
    (hl : payload.length ≤ payload'.length) {st : Nat × Nat} {d : Descriptor}
    (h : Accepts imageBytes payload st d) : Accepts imageBytes payload' st d := by
  obtain ⟨hf, hi, hr, hk⟩ := h
  refine ⟨hf, hi, hr, ?_⟩
  cases hkd : d.kind with
  | zero => simpa only [hkd] using hk
  | write =>
    simp only [hkd] at hk ⊢
    obtain ⟨h1, h2, h3, h4⟩ := hk
    exact ⟨h1, h2, by omega, by rw [hp _ _ h3]; exact h4⟩

theorem PackedFrom.mono
    (hp : ∀ o n, o + n ≤ payload.length → payload'.slice o n = payload.slice o n)
    (hl : payload.length ≤ payload'.length) :
    ∀ {ds : List Descriptor} {st st' : Nat × Nat}, PackedFrom imageBytes payload ds st st' →
      PackedFrom imageBytes payload' ds st st'
  | [], _, _, h => h
  | _ :: _, _, _, h => ⟨h.1.mono hp hl, PackedFrom.mono hp hl h.2⟩

/-- Packed descriptors, once numbered, are what the decoder accepts. -/
theorem PackedFrom.slotsValid {e : Envelope} {last : Nat} :
    ∀ {ds : List Descriptor} {st : Nat × Nat} (index : Nat),
      PackedFrom imageBytes payload ds st (e.payloadBytes, last) →
      payload.length = e.payloadBytes →
      SlotsValid e imageBytes (stamped (e.first + index) ds) index st.1 st.2
  | [], st, _, h, _ => by
    cases h
    simp [stamped, SlotsValid]
  | d :: ds, st, index, h, hl => by
    obtain ⟨⟨hf, hi, hr, hk⟩, hrest⟩ := h
    have ih := PackedFrom.slotsValid (index + 1) hrest hl
    rw [stamped_cons, SlotsValid]
    refine ⟨rfl, hi, hr, ?_⟩
    cases hkd : d.kind with
    | write =>
      simp only [hkd] at hk ⊢
      obtain ⟨h1, h2, h3, -⟩ := hk
      exact ⟨⟨h1, h2⟩, by omega, by simpa [advance, add_assoc] using ih⟩
    | zero =>
      simp only [hkd] at hk ⊢
      refine ⟨hk, ?_⟩
      simpa [advance, hk.2.1, add_assoc] using ih

theorem PackedFrom.crc :
    ∀ {ds : List Descriptor} {st st' : Nat × Nat}, PackedFrom imageBytes payload ds st st' →
      ∀ d ∈ ds, d.kind = .write →
        (Digest.crc32 (payload.slice d.payloadOffset d.payloadLength)).toNat = d.payloadCrc
  | [], _, _, _, d, hd => by cases hd
  | d :: ds, _, _, h, d', hd' => by
    intro hk
    rcases mem_cons.1 hd' with rfl | hd'
    · obtain ⟨-, -, -, hw⟩ := h.1
      simp only [hk] at hw
      rw [hw.2.1]
      exact hw.2.2.2
    · exact PackedFrom.crc h.2 d' hd' hk

theorem PackedFrom.fits :
    ∀ {ds : List Descriptor} {st st' : Nat × Nat}, PackedFrom imageBytes payload ds st st' →
      ∀ d ∈ ds, d.Fits
  | [], _, _, _, d, hd => by cases hd
  | d :: ds, _, _, h, d', hd' => by
    rcases mem_cons.1 hd' with rfl | hd'
    · exact h.1.1
    · exact PackedFrom.fits h.2 d' hd'

end Packed

/-! ## The builder's invariant -/

/-- The builder holds exactly the accepted descriptors `ds`, not yet numbered. -/
structure Builder.Wf [Digest] (b : Builder) (ds : List Descriptor) : Prop where
  image : b.imageBytes ≠ 0 ∧ b.imageBytes % BLOCK_SIZE = 0
  fits : BLOCK_SIZE + b.payloadBytes ≤ b.buffer.length
  bounded : b.buffer.length ≤ MAX_BATCH_BYTES
  aligned : b.payloadBytes % BLOCK_SIZE = 0
  count : b.descriptors = ds.length
  count_le : ds.length ≤ MAX_DESCRIPTORS
  envelope : b.buffer.slice 0 ENVELOPE_BYTES = zeros ENVELOPE_BYTES
  slots : ∀ (i : Nat) (d : Descriptor), ds[i]? = some d →
    descriptorSlot b.buffer i = d.encode (zeros DESCRIPTOR_BYTES)
  unused : ∀ o n, ENVELOPE_BYTES + DESCRIPTOR_BYTES * ds.length ≤ o → o + n ≤ BLOCK_SIZE →
    b.buffer.slice o n = zeros n
  packed : PackedFrom b.imageBytes (b.buffer.slice BLOCK_SIZE b.payloadBytes) ds (0, 0)
    (b.payloadBytes, b.lastSerial)

namespace Builder

theorem admits_eq_ok {b : Builder} {id : RequestId} {offset length payload : Nat} {u : Unit} :
    b.admits id offset length payload = .ok u ↔
      b.descriptors < MAX_DESCRIPTORS ∧ (id.serial > b.lastSerial ∧ id.attachment ≠ 0) ∧
        validRange offset length b.imageBytes = true ∧
        payload ≤ b.allocationBytes - BLOCK_SIZE - b.payloadBytes := by
  unfold admits
  simp only [requireFormat_bind_eq_ok, requireFormat_eq_ok]

@[simp] theorem length_stampSequences (first n : Nat) (b : Bytes) :
    (stampSequences first n b).length = b.length := by
  induction n with
  | zero => rfl
  | succ n ih => rw [stampSequences, length_put64, ih]

/-- Stamping touches nothing outside the first `n` slots. -/
theorem slice_stampSequences {first n : Nat} {b : Bytes} {o k : Nat}
    (h : o + k ≤ ENVELOPE_BYTES ∨ ENVELOPE_BYTES + DESCRIPTOR_BYTES * n ≤ o) :
    (stampSequences first n b).slice o k = b.slice o k := by
  simp only [ENVELOPE_BYTES, DESCRIPTOR_BYTES] at h
  induction n with
  | zero => rfl
  | succ n ih =>
    rw [stampSequences, slice_put64 (by simp; omega)]
    exact ih (by omega)

theorem descriptorSlot_stampSequences {first n i : Nat} {b : Bytes} (hi : i < n) :
    descriptorSlot (stampSequences first n b) i = put64 (descriptorSlot b i) 8 (first + i) := by
  induction n with
  | zero => omega
  | succ n ih =>
    rw [stampSequences]
    rcases Nat.lt_succ_iff_lt_or_eq.1 hi with hlt | rfl
    · rw [← ih hlt, descriptorSlot, slice_put64 (by simp; omega)]
      rfl
    · rw [descriptorSlot, put64, mul_comm i, slice_put_sub]
      rw [slice_stampSequences (Or.inr (le_refl _))]
      rfl

variable [Digest]

theorem wf_new {imageBytes payloadCapacity : Nat} {b : Builder}
    (h : new imageBytes payloadCapacity = .ok b) : b.Wf [] := by
  obtain ⟨himage, h⟩ := requireFormat_bind_eq_ok.1 h
  obtain ⟨hcap, h⟩ := requireFormat_bind_eq_ok.1 h
  simp only [pure, Except.pure, Except.ok.injEq] at h
  subst h
  refine ⟨himage, by simp, ?_, rfl, rfl, by simp, ?_, by simp, ?_, rfl⟩
  · simp only [length_zeros, MAX_BATCH_BYTES]
    omega
  · exact slice_zeros (by simp; omega)
  · intro o n _ hn
    exact slice_zeros (by omega)

/-- The gather destination lies past everything the invariant describes. -/
theorem Wf.gather {b : Builder} {ds : List Descriptor} (hw : b.Wf ds) (v : Bytes) :
    ({ b with buffer := b.buffer.put (BLOCK_SIZE + b.payloadBytes) v } : Builder).Wf ds := by
  have hcount := hw.count_le
  simp only [MAX_DESCRIPTORS] at hcount
  refine ⟨hw.image, by simpa using hw.fits, by simpa using hw.bounded, hw.aligned, hw.count,
    hw.count_le, ?_, ?_, ?_, ?_⟩
  · rw [slice_put_disjoint (Or.inl (by simp; omega))]
    exact hw.envelope
  · intro i d hd
    have hi : i < ds.length := (List.getElem?_eq_some_iff.1 hd).1
    rw [descriptorSlot, slice_put_disjoint (Or.inl (by simp; omega))]
    exact hw.slots i d hd
  · intro o n ho hn
    rw [slice_put_disjoint (Or.inl (by omega))]
    exact hw.unused o n ho hn
  · simp only
    rw [slice_put_disjoint (Or.inl (le_refl _))]
    exact hw.packed

/-- Pushing a descriptor that continues the packed payload keeps the invariant. -/
theorem Wf.push {b : Builder} {ds : List Descriptor} (hw : b.Wf ds) {d : Descriptor} {p : Nat}
    (hroom : b.descriptors < MAX_DESCRIPTORS) (hp : p = b.payloadBytes + d.payloadLength)
    (hfit : BLOCK_SIZE + p ≤ b.buffer.length) (hal : d.payloadLength % BLOCK_SIZE = 0)
    (hacc : Accepts b.imageBytes (b.buffer.slice BLOCK_SIZE p) (b.payloadBytes, b.lastSerial) d) :
    ({ b.push d with payloadBytes := p } : Builder).Wf (ds ++ [d]) := by
  have hcount := hw.count
  have haligned := hw.aligned
  simp only [MAX_DESCRIPTORS, BLOCK_SIZE] at *
  set start := ENVELOPE_BYTES + b.descriptors * DESCRIPTOR_BYTES with hstart
  simp only [ENVELOPE_BYTES, DESCRIPTOR_BYTES] at hstart
  have hslot : b.buffer.slice start 64 = zeros 64 := hw.unused _ _ (by simp; omega) (by simp; omega)
  have hlen : (d.encode (b.buffer.slice start 64)).length = 64 := by
    rw [hslot]
    simp
  -- outside the new slot the header block is unchanged
  have hout : ∀ o n, o + n ≤ start ∨ start + 64 ≤ o →
      (b.push d).buffer.slice o n = b.buffer.slice o n := by
    intro o n h
    exact slice_put_disjoint (by rw [hlen]; exact h)
  refine ⟨hw.image, by simpa [Builder.push] using hfit, by simpa [Builder.push] using hw.bounded,
    ?_, ?_, ?_, ?_, ?_, ?_, ?_⟩
  · simp only [BLOCK_SIZE]
    omega
  · simp [Builder.push, hcount]
  · simp only [length_append, length_singleton, MAX_DESCRIPTORS]
    omega
  · simp only [hout 0 64 (Or.inl (by omega))]
    exact hw.envelope
  · intro i d' hd'
    rw [getElem?_append] at hd'
    split at hd'
    · rename_i hi
      simp only [descriptorSlot, ENVELOPE_BYTES, DESCRIPTOR_BYTES]
      rw [hout _ _ (Or.inl (by omega))]
      exact hw.slots i d' hd'
    · have hi : i = ds.length ∧ d = d' := by
        have := List.getElem?_eq_some_iff.1 hd'
        obtain ⟨hlt, hget⟩ := this
        simp only [length_singleton] at hlt
        exact ⟨by omega, by simpa [show i - ds.length = 0 by omega] using hget⟩
      obtain ⟨rfl, rfl⟩ := hi
      simp only [descriptorSlot, ENVELOPE_BYTES, DESCRIPTOR_BYTES, Builder.push]
      rw [show 64 + 64 * ds.length = start by omega, ← hstart]
      rw [slice_put_self (by omega) hlen, hslot]
  · intro o n ho hn
    simp only [length_append, length_singleton, ENVELOPE_BYTES, DESCRIPTOR_BYTES] at ho
    simp only [hout o n (Or.inr (by omega))]
    exact hw.unused o n (by simp; omega) hn
  · have hpay : (b.push d).buffer.slice 4096 p = b.buffer.slice 4096 p :=
      hout _ _ (Or.inr (by omega))
    simp only [BLOCK_SIZE, hpay]
    have hmono : PackedFrom b.imageBytes (b.buffer.slice 4096 p) ds (0, 0)
        (b.payloadBytes, b.lastSerial) := by
      apply PackedFrom.mono _ _ hw.packed
      · intro o n hon
        rw [length_slice_of_le (by simp; omega)] at hon
        rw [slice_slice (by omega), slice_slice hon]
      · rw [length_slice_of_le (by simp; omega), length_slice_of_le (by omega)]
        omega
    have := hmono.snoc hacc
    rw [advance] at this
    simpa [Builder.push, hp] using this

/-- What a successful `write` or `zero` call adds to the builder. -/
structure Added (id : RequestId) (kind : Kind) (offset length : Nat) (d : Descriptor) : Prop where
  id : d.id = id
  kind : d.kind = kind
  offset : d.offset = offset
  length : d.length = length

/-- `write` adds one descriptor, or fails and leaves the accepted ones as they were. -/
theorem Wf.write {b : Builder} {ds : List Descriptor} (hw : b.Wf ds) {id : RequestId}
    (hid : id.Fits) (offset length : Nat) (gather : Gathered) :
    ((b.write id offset length gather).2 = .ok () ∧
      ∃ d, Added id .write offset length d ∧
        (b.write id offset length gather).1.Wf (ds ++ [d])) ∨
    ((∃ e, (b.write id offset length gather).2 = .error e) ∧
      (b.write id offset length gather).1.Wf ds) := by
  unfold Builder.write
  cases hadm : b.admits id offset length length with
  | error e => exact Or.inr ⟨⟨e, rfl⟩, hw⟩
  | ok u =>
    obtain ⟨hroom, hident, hrange, hpay⟩ := admits_eq_ok.1 hadm
    have hg := hw.gather (gather.bytes.take length)
    cases hf : gather.failed with
    | true => exact Or.inr ⟨⟨_, rfl⟩, hg⟩
    | false =>
      refine Or.inl ⟨rfl, _, ⟨rfl, rfl, rfl, rfl⟩, hg.push hroom rfl ?_ ?_ ?_⟩
      · simp only [allocationBytes, length_put] at hpay ⊢
        have := hw.fits
        omega
      · exact (validRange_iff.1 hrange).2.2.1
      · have hb := hw.fits
        have hbd := hw.bounded
        simp only [MAX_BATCH_BYTES, BLOCK_SIZE, MAX_REQUEST_BYTES] at hbd hpay hb
        simp only [allocationBytes] at hpay
        have hrange' := validRange_iff.1 hrange
        refine ⟨⟨hid, ?_, ?_, ?_, ?_, ?_, ?_⟩, hident, hrange, rfl, rfl, ?_, ?_⟩
        · simp
        · simp only; omega
        · simp only; omega
        · simp only; omega
        · simp only; omega
        · exact UInt32.toNat_lt _
        · simp only [BLOCK_SIZE]
          rw [length_slice_of_le (by simp; omega)]
        · simp only [BLOCK_SIZE]
          rw [slice_slice (by omega)]

/-- `zero` adds one descriptor, or fails and changes nothing. -/
theorem Wf.zero {b : Builder} {ds : List Descriptor} (hw : b.Wf ds) {id : RequestId}
    (hid : id.Fits) (offset length : Nat) :
    ((b.zero id offset length).2 = .ok () ∧
      ∃ d, Added id .zero offset length d ∧ (b.zero id offset length).1.Wf (ds ++ [d])) ∨
    ((∃ e, (b.zero id offset length).2 = .error e) ∧ (b.zero id offset length).1 = b) := by
  unfold Builder.zero
  cases hadm : b.admits id offset length 0 with
  | error e => exact Or.inr ⟨⟨e, rfl⟩, rfl⟩
  | ok u =>
    obtain ⟨hroom, hident, hrange, -⟩ := admits_eq_ok.1 hadm
    have hrange' := validRange_iff.1 hrange
    refine Or.inl ⟨rfl, ⟨id, 0, offset, length, 0, 0, 0, .zero⟩, ⟨rfl, rfl, rfl, rfl⟩, ?_⟩
    refine hw.push hroom rfl hw.fits rfl ?_
    exact ⟨⟨hid, by simp, by simp only; omega, by simp only; omega, by simp, by simp, by simp⟩,
      hident, hrange, rfl, rfl, rfl⟩

end Builder

/-! ## One more mutation -/

/-- A call that added one mutation with `payload` bytes to the builder and left the payload before it
alone. -/
structure Builder.Adds [Digest] (b b' : Builder) (id : RequestId) (kind : Kind)
    (offset length payload : Nat) : Prop where
  wf : ∀ ds, b.Wf ds → ∃ d, Builder.Added id kind offset length d ∧ b'.Wf (ds ++ [d])
  imageBytes : b'.imageBytes = b.imageBytes
  lastSerial : b'.lastSerial = id.serial
  payloadBytes : b'.payloadBytes = b.payloadBytes + payload
  before : b'.buffer.slice BLOCK_SIZE b.payloadBytes = b.buffer.slice BLOCK_SIZE b.payloadBytes

/-- A failed call that touched at most the room after the payload. -/
structure Builder.Spares [Digest] (b b' : Builder) : Prop where
  wf : ∀ ds, b.Wf ds → b'.Wf ds
  imageBytes : b'.imageBytes = b.imageBytes
  lastSerial : b'.lastSerial = b.lastSerial
  payloadBytes : b'.payloadBytes = b.payloadBytes
  before : b'.buffer.slice BLOCK_SIZE b.payloadBytes = b.buffer.slice BLOCK_SIZE b.payloadBytes

namespace Builder

theorem slice_push {b : Builder} {d : Descriptor} (h : b.descriptors < MAX_DESCRIPTORS) (n : Nat) :
    (b.push d).buffer.slice BLOCK_SIZE n = b.buffer.slice BLOCK_SIZE n := by
  simp only [MAX_DESCRIPTORS] at h
  refine slice_put_disjoint (Or.inr ?_)
  have hlen := length_slice b.buffer (ENVELOPE_BYTES + b.descriptors * DESCRIPTOR_BYTES)
    DESCRIPTOR_BYTES
  rw [Descriptor.length_encode, hlen]
  simp only [ENVELOPE_BYTES, DESCRIPTOR_BYTES, BLOCK_SIZE]
  omega

variable [Digest] {b : Builder} {id : RequestId} {offset length : Nat}

theorem write_adds (hid : id.Fits) (h : b.admits id offset length length = .ok ())
    {gather : Gathered} (hg : gather.failed = false) :
    (b.write id offset length gather).2 = .ok () ∧
      b.Adds (b.write id offset length gather).1 id .write offset length length := by
  let filled : Builder :=
    { b with buffer := b.buffer.put (BLOCK_SIZE + b.payloadBytes) (gather.bytes.take length) }
  obtain ⟨d, hd, hz⟩ : ∃ d : Descriptor, d.id = id ∧ b.write id offset length gather =
      ({ filled.push d with payloadBytes := b.payloadBytes + length }, .ok ()) := by
    unfold write
    rw [h]
    simp only [hg]
    exact ⟨_, rfl, rfl⟩
  have hwf := fun ds (hw : b.Wf ds) => hw.write hid offset length gather
  rw [hz] at hwf ⊢
  have hbefore : (filled.push d).buffer.slice BLOCK_SIZE b.payloadBytes =
      b.buffer.slice BLOCK_SIZE b.payloadBytes :=
    (slice_push (b := filled) (admits_eq_ok.1 h).1 _).trans
      (slice_put_disjoint (Or.inl (le_refl _)))
  refine ⟨rfl, ⟨fun ds hw => ?_, rfl, congrArg RequestId.serial hd, rfl, hbefore⟩⟩
  rcases hwf ds hw with ⟨-, hadd⟩ | ⟨⟨e, he⟩, -⟩
  · exact hadd
  · cases he

theorem write_spares (h : b.admits id offset length length = .ok ())
    {gather : Gathered} (hg : gather.failed = true) :
    (∃ e, (b.write id offset length gather).2 = .error e) ∧
      b.Spares (b.write id offset length gather).1 := by
  unfold write
  rw [h]
  simp only [hg, if_true]
  exact ⟨⟨_, rfl⟩, fun ds hw => hw.gather _, rfl, rfl, rfl,
    slice_put_disjoint (Or.inl (le_refl _))⟩

theorem zero_adds (hid : id.Fits) (h : b.admits id offset length 0 = .ok ()) :
    (b.zero id offset length).2 = .ok () ∧
      b.Adds (b.zero id offset length).1 id .zero offset length 0 := by
  have hz : b.zero id offset length = (b.push ⟨id, 0, offset, length, 0, 0, 0, .zero⟩, .ok ()) := by
    unfold zero
    rw [h]
  have hwf := fun ds (hw : b.Wf ds) => hw.zero hid offset length
  rw [hz] at hwf ⊢
  refine ⟨rfl, ⟨fun ds hw => ?_, rfl, rfl, rfl, slice_push (admits_eq_ok.1 h).1 _⟩⟩
  rcases hwf ds hw with ⟨-, hadd⟩ | ⟨⟨e, he⟩, -⟩
  · exact hadd
  · cases he

end Builder

/-! ## Sealed records -/

/-- The envelope fields are values of their machine types. -/
structure Envelope.Fits (e : Envelope) : Prop where
  segment : e.segment < U64
  batch : e.batch < U64
  descriptors : e.descriptors ≤ MAX_DESCRIPTORS
  payloadBytes : e.payloadBytes ≤ MAX_REQUEST_BYTES
  first : e.first < U64
  last : e.last < U64

namespace Envelope

@[simp] theorem length_fields (e : Envelope) (b : Bytes) : (e.fields b).length = b.length := by
  simp [fields]

variable [Digest] {e : Envelope} {b : Bytes}

@[simp] theorem length_encode (e : Envelope) (b : Bytes) : (e.encode b).length = b.length := by
  simp [encode]

theorem slice_encode {o n : Nat} (h : ENVELOPE_BYTES ≤ o) :
    (e.encode b).slice o n = b.slice o n := by
  simp only [ENVELOPE_BYTES] at h
  rw [encode, slice_put32 (by omega)]
  simp only [fields, put64, put32, put16]
  have hm : magic.length = 8 := rfl
  repeat rw [slice_put_disjoint (by simp only [length_ofNat, hm]; omega)]

theorem descriptorSlot_encode (i : Nat) : descriptorSlot (e.encode b) i = descriptorSlot b i :=
  slice_encode (by simp)

theorem drop_encode {n : Nat} (h : ENVELOPE_BYTES ≤ n) : (e.encode b).drop n = b.drop n := by
  have hd : ∀ c : Bytes, c.length = b.length → c.drop n = c.slice n b.length := by
    intro c hc
    rw [slice, take_of_length_le (by simp; omega)]
  rw [hd _ (by simp), hd b rfl, slice_encode h]

theorem readEnvelope_encode (hf : e.Fits) (hb : b.length = BLOCK_SIZE) :
    Header.readEnvelope (e.encode b) = e := by
  obtain ⟨h1, h2, h3, h4, h5, h6⟩ := hf
  simp only [BLOCK_SIZE, MAX_DESCRIPTORS, MAX_REQUEST_BYTES] at hb h3 h4
  have hd : e.descriptors < 2 ^ 16 := by omega
  have hp : e.payloadBytes < 2 ^ 32 := by omega
  have hk : (if e.fence = true then 2 else 1) < 2 ^ 16 := by split <;> decide
  have hkind : decide ((if e.fence = true then 2 else 1) = 2) = e.fence := by
    cases e.fence <;> rfl
  obtain ⟨segment, batch, descriptors, payloadBytes, first, last, fence⟩ := e
  simp only [Header.readEnvelope, encode, u64At, u32At, u16At, put32]
  simp only [slice_put_disjoint, length_ofNat, Nat.reduceAdd, Nat.reduceLeDiff, true_or]
  simp only [fields, put64, put32, put16]
  simp only [slice_put_self, slice_put_disjoint, length_ofNat, length_put, toNat_ofNat8,
    toNat_ofNat4, toNat_ofNat2, Nat.reduceAdd, Nat.reduceLeDiff, true_or, *]

/-- The envelope of a header block whose envelope area was zero is well framed. -/
theorem framed_encode (hf : e.Fits) (hb : b.length = BLOCK_SIZE)
    (hz : b.slice 0 ENVELOPE_BYTES = zeros ENVELOPE_BYTES)
    (hu : isZero (b.drop (ENVELOPE_BYTES + DESCRIPTOR_BYTES * e.descriptors)) = true) :
    Header.Framed (e.encode b) := by
  have hread := readEnvelope_encode hf hb
  obtain ⟨h1, h2, h3, h4, h5, h6⟩ := hf
  simp only [BLOCK_SIZE, MAX_DESCRIPTORS, MAX_REQUEST_BYTES, ENVELOPE_BYTES] at hb h3 h4 hz
  have hm : magic.length = 8 := rfl
  have hzero : ∀ o n, o + n ≤ 64 → b.slice o n = zeros n := by
    intro o n hon
    have := slice_slice (b := b) (o := 0) hon
    rw [hz, slice_zeros hon, zero_add] at this
    exact this.symm
  have hk : (if e.fence = true then 2 else 1) < 2 ^ 16 := by split <;> decide
  have low : ∀ o n, o + n ≤ 56 ∨ 60 ≤ o → (e.encode b).slice o n = (e.fields b).slice o n :=
    fun o n h => slice_put32 (by omega)
  refine ⟨by simp [hb], ⟨?_, ?_⟩, ?_, ?_, ?_, ⟨?_, ?_⟩, ?_⟩
  · rw [low _ _ (by omega)]
    simp [fields, put64, put32, put16, slice_put_self, slice_put_disjoint, hb, hm]
  · rw [u16At, low _ _ (by omega)]
    simp [fields, put64, put32, put16, slice_put_self, slice_put_disjoint, hb, toNat_ofNat2]
  · rw [u16At, low _ _ (by omega)]
    simp only [fields, put64, put32, put16]
    simp only [slice_put_self, slice_put_disjoint, length_ofNat, length_put, hb,
      Nat.reduceAdd, Nat.reduceLeDiff, true_or]
    rw [toNat_ofNat2 hk]
    cases e.fence <;> simp
  · rw [encode, u32At_put32 (by simp [hb]) (checksum_lt _ _), checksum_put32_self]
  · rw [hread, u32At, low _ _ (by omega)]
    simp only [fields, put64, put32, put16]
    simp only [slice_put_self, slice_put_disjoint, length_ofNat, length_put, hb,
      Nat.reduceAdd, Nat.reduceLeDiff, true_or]
    exact toNat_ofNat4 (by simp only [BLOCK_SIZE]; omega)
  · rw [u16At, low _ _ (by omega)]
    simp only [fields, put64, put32, put16]
    simp only [slice_put_disjoint, length_ofNat, hm, Nat.reduceAdd, Nat.reduceLeDiff, true_or,
      or_true, hzero]
    decide
  · rw [u32At, low _ _ (by omega)]
    simp only [fields, put64, put32, put16]
    simp only [slice_put_disjoint, length_ofNat, hm, Nat.reduceAdd, Nat.reduceLeDiff,
      or_true, hzero]
    decide
  · rw [hread, drop_encode (by simp)]
    exact hu

/-- A header block decodes to its envelope when its descriptors are valid. -/
theorem decode_encode {imageBytes : Nat} (hf : e.Fits) (hb : b.length = BLOCK_SIZE)
    (hz : b.slice 0 ENVELOPE_BYTES = zeros ENVELOPE_BYTES)
    (hu : isZero (b.drop (ENVELOPE_BYTES + DESCRIPTOR_BYTES * e.descriptors)) = true)
    (hcan : ∀ i < e.descriptors, SlotCanonical (descriptorSlot b i))
    (hv : Header.Valid imageBytes ⟨e, e.encode b⟩) :
    Header.decode (e.encode b) imageBytes = .ok ⟨e, e.encode b⟩ := by
  rw [Header.decode_eq_ok_iff, readEnvelope_encode hf hb]
  refine ⟨rfl, framed_encode hf hb hz hu, hv, ?_⟩
  intro i hi
  rw [descriptorSlot_encode]
  exact hcan i hi

end Envelope

/-- A sealed batch reads back: its header block decodes to its envelope and to the descriptors
`ds`, and its payload verifies. -/
structure Batch.Reads [Digest] (batch : Batch) (imageBytes : Nat) (ds : List Descriptor) :
    Prop where
  length : batch.bytes.length = BLOCK_SIZE + batch.envelope.payloadBytes
  header : Header.decode (batch.bytes.slice 0 BLOCK_SIZE) imageBytes =
    .ok ⟨batch.envelope, batch.bytes.slice 0 BLOCK_SIZE⟩
  descriptors : (Header.mk batch.envelope (batch.bytes.slice 0 BLOCK_SIZE)).descriptors = ds
  payload : (Header.mk batch.envelope (batch.bytes.slice 0 BLOCK_SIZE)).verifyPayload
    (batch.bytes.slice BLOCK_SIZE batch.envelope.payloadBytes) = .ok ()

section Sealed

variable [Digest]

theorem Batch.reads_fence {segment batch boundary imageBytes : Nat} {bt : Batch}
    (hs : segment < U64) (hb : batch < U64) (hp : boundary < U64)
    (h : Batch.fence segment batch boundary = .ok bt) :
    bt.Reads imageBytes [] ∧ bt.envelope = ⟨segment, batch, 0, 0, boundary, boundary, true⟩ := by
  obtain ⟨hid, h⟩ := requireFormat_bind_eq_ok.1 h
  simp only [pure, Except.pure, Except.ok.injEq] at h
  subst h
  have hzl : (zeros BLOCK_SIZE).length = BLOCK_SIZE := length_zeros _
  have hze : (zeros BLOCK_SIZE).slice 0 ENVELOPE_BYTES = zeros ENVELOPE_BYTES :=
    slice_zeros (by decide)
  have hzu : ∀ n, isZero ((zeros BLOCK_SIZE).drop n) = true := by
    intro n
    unfold zeros
    rw [drop_replicate]
    exact isZero_zeros _
  generalize zeros BLOCK_SIZE = z at hzl hze hzu ⊢
  set e : Envelope := ⟨segment, batch, 0, 0, boundary, boundary, true⟩ with he
  have hf : e.Fits := ⟨hs, hb, by simp [e], by simp [e], hp, hp⟩
  have hlen : (e.encode z).length = BLOCK_SIZE := by rw [e.length_encode, hzl]
  have hbytes : Batch.bytes ⟨e.encode z, e⟩ = e.encode z := by
    unfold Batch.bytes
    exact take_of_length_le (by simp only [hlen]; omega)
  have hhead : (e.encode z).slice 0 BLOCK_SIZE = e.encode z := by
    rw [← hlen, slice_zero_length]
  have hds : (Header.mk e (e.encode z)).descriptors = [] := by simp [Header.descriptors, e]
  have hv : Header.Valid imageBytes ⟨e, e.encode z⟩ := by
    refine ⟨hlen, hid, by simp [e], by simp [e], rfl, fun _ => ⟨rfl, rfl, rfl⟩, ?_, ?_⟩
    · intro h
      cases h
    · rw [hds]
      rfl
  refine ⟨⟨?_, ?_, ?_, ?_⟩, he⟩
  · rw [hbytes, hlen]
    rfl
  · rw [hbytes, hhead]
    exact Envelope.decode_encode hf hzl hze (hzu _) (fun i hi => absurd hi (by simp [e])) hv
  · rw [hbytes, hhead]
    exact hds
  · unfold Header.verifyPayload
    rw [requireFormat_bind_eq_ok, requireFormat_eq_ok, hbytes, hhead, hds]
    refine ⟨?_, by simp⟩
    simp [length_slice, e]

theorem Batch.slice_header {buffer : Bytes} {e : Envelope}
    (h : BLOCK_SIZE + e.payloadBytes ≤ buffer.length) :
    (Batch.bytes ⟨buffer.put 0 (e.encode (buffer.take BLOCK_SIZE)), e⟩).slice 0 BLOCK_SIZE =
      e.encode (buffer.take BLOCK_SIZE) := by
  have hbytes : Batch.bytes ⟨buffer.put 0 (e.encode (buffer.take BLOCK_SIZE)), e⟩ =
    (buffer.put 0 (e.encode (buffer.take BLOCK_SIZE))).slice 0 (BLOCK_SIZE + e.payloadBytes) := rfl
  rw [hbytes, slice_slice (by omega), zero_add]
  exact slice_put_self (by omega) (by rw [e.length_encode, length_take]; omega)

theorem Batch.slice_payload {buffer : Bytes} {e : Envelope} :
    (Batch.bytes ⟨buffer.put 0 (e.encode (buffer.take BLOCK_SIZE)), e⟩).slice BLOCK_SIZE
      e.payloadBytes = buffer.slice BLOCK_SIZE e.payloadBytes := by
  have hbytes : Batch.bytes ⟨buffer.put 0 (e.encode (buffer.take BLOCK_SIZE)), e⟩ =
    (buffer.put 0 (e.encode (buffer.take BLOCK_SIZE))).slice 0 (BLOCK_SIZE + e.payloadBytes) := rfl
  rw [hbytes, slice_slice (le_refl _), zero_add, slice_put_disjoint]
  right
  rw [e.length_encode, length_take]
  omega

section Seal

variable {b : Builder} {ds : List Descriptor} (hw : b.Wf ds) (first : Nat)
include hw

theorem Builder.Wf.slot_stamped {i : Nat} {d : Descriptor} (hd : ds[i]? = some d) :
    descriptorSlot ((stampSequences first ds.length b.buffer).take BLOCK_SIZE) i =
      put64 (d.encode (zeros DESCRIPTOR_BYTES)) 8 (first + i) := by
  have hi : i < ds.length := (List.getElem?_eq_some_iff.1 hd).1
  have hcl := hw.count_le
  simp only [MAX_DESCRIPTORS] at hcl
  rw [descriptorSlot, take_eq_slice, slice_slice (by simp; omega), zero_add, ← descriptorSlot,
    descriptorSlot_stampSequences hi, hw.slots i d hd]

/-- The decoded slots of the sealed header are the numbered descriptors. -/
theorem Builder.Wf.descriptors_stamped {e : Envelope} (he : e.descriptors = ds.length)
    (hlast : first + (ds.length - 1) < U64) :
    (Header.mk e (e.encode ((stampSequences first ds.length b.buffer).take BLOCK_SIZE))).descriptors
      = stamped first ds := by
  apply ext_getElem?
  intro i
  rw [Header.descriptors, getElem?_map, stamped, getElem?_mapIdx]
  by_cases hi : i < ds.length
  · have hd := getElem?_eq_getElem hi
    have hfits := hw.packed.fits _ (getElem_mem hi)
    rw [getElem?_range (by rw [he]; exact hi), hd]
    simp only [Option.map_some, Envelope.descriptorSlot_encode]
    rw [hw.slot_stamped first hd, Descriptor.decode_stamped hfits (length_zeros _) (by omega)]
  · rw [getElem?_eq_none (by simp only [length_range, he]; omega),
      getElem?_eq_none (by omega)]
    rfl

/-- Bytes of the header block after the last slot are zero. -/
theorem Builder.Wf.unused_stamped :
    isZero (((stampSequences first ds.length b.buffer).take BLOCK_SIZE).drop
      (ENVELOPE_BYTES + DESCRIPTOR_BYTES * ds.length)) = true := by
  have hcl := hw.count_le
  simp only [MAX_DESCRIPTORS] at hcl
  set n := ENVELOPE_BYTES + DESCRIPTOR_BYTES * ds.length with hn
  have hslice : ∀ c : Bytes, (c.take BLOCK_SIZE).drop n = c.slice n (BLOCK_SIZE - n) := by
    intro c
    rw [slice, drop_take]
  rw [hslice, slice_stampSequences (Or.inr (le_refl _)), hw.unused _ _ (le_refl _)]
  · exact isZero_zeros _
  · simp only [hn, ENVELOPE_BYTES, DESCRIPTOR_BYTES, BLOCK_SIZE]
    omega

end Seal

/-- A sealed builder reads back as the accepted descriptors with dense sequences. -/
theorem Builder.Wf.sealBatch {b : Builder} {ds : List Descriptor} (hw : b.Wf ds)
    {segment batch first : Nat} {bt : Batch} (hs : segment < U64) (hb : batch < U64)
    (h : b.sealBatch segment batch first = .ok bt) :
    bt.Reads b.imageBytes (stamped first ds) ∧
      bt.envelope = ⟨segment, batch, ds.length, b.payloadBytes, first, first + (ds.length - 1),
        false⟩ ∧
      ds ≠ [] ∧ first ≠ 0 ∧ first + (ds.length - 1) < U64 := by
  obtain ⟨⟨hne, hfirst, hid⟩, h⟩ := requireFormat_bind_eq_ok.1 h
  have hne : ds ≠ [] := by
    rintro rfl
    exact hne (by simp [Builder.isEmpty, hw.count])
  have hpos : 0 < ds.length := length_pos_iff.2 hne
  cases hadd : checkedAdd first (b.descriptors - 1) with
  | none => rw [hadd] at h; cases h
  | some last =>
    obtain ⟨hlast, hsum⟩ := checkedAdd_eq_some.1 hadd
    rw [hadd] at h
    simp only [hw.count, pure, Except.pure, Except.ok.injEq] at h hlast
    subst h
    have hbd := hw.bounded
    have hfit := hw.fits
    have hcl := hw.count_le
    simp only [MAX_BATCH_BYTES, MAX_REQUEST_BYTES] at hbd hcl
    set e : Envelope := ⟨segment, batch, ds.length, b.payloadBytes, first, last, false⟩ with he
    have hf : e.Fits := ⟨hs, hb, hcl, by simp only [e, MAX_REQUEST_BYTES]; omega,
      by simp only [e]; omega, hsum⟩
    have hds := hw.descriptors_stamped first (e := e) rfl (by omega)
    have hslot := fun i d => hw.slot_stamped first (i := i) (d := d)
    have hunused := hw.unused_stamped first
    have hpay : (stampSequences first ds.length b.buffer).slice BLOCK_SIZE b.payloadBytes =
        b.buffer.slice BLOCK_SIZE b.payloadBytes :=
      slice_stampSequences (Or.inr (by simp at hcl ⊢; omega))
    have henv : slice ((stampSequences first ds.length b.buffer).take BLOCK_SIZE) 0 ENVELOPE_BYTES =
        zeros ENVELOPE_BYTES := by
      rw [take_eq_slice, slice_slice (by decide), slice_stampSequences (Or.inl (by decide))]
      exact hw.envelope
    have hbl : BLOCK_SIZE + e.payloadBytes ≤ (stampSequences first ds.length b.buffer).length := by
      simpa [e] using hfit
    generalize stampSequences first ds.length b.buffer = buffer at *
    have hblock : (buffer.take BLOCK_SIZE).length = BLOCK_SIZE := by
      rw [length_take]
      omega
    have hpl : (b.buffer.slice BLOCK_SIZE b.payloadBytes).length = b.payloadBytes :=
      length_slice_of_le hfit
    have hv : Header.Valid b.imageBytes ⟨e, e.encode (buffer.take BLOCK_SIZE)⟩ := by
      refine ⟨by rw [e.length_encode, hblock], hid, hcl, hf.payloadBytes, hw.aligned, ?_, ?_, ?_⟩
      · intro h
        cases h
      · intro _
        exact ⟨by simp only [e]; omega, hfirst, hlast, hsum⟩
      · rw [hds]
        have := PackedFrom.slotsValid (e := e) 0 hw.packed hpl
        simpa [e] using this
    refine ⟨⟨?_, ?_, ?_, ?_⟩, by rw [hlast], hne, hfirst, by omega⟩
    · rw [Batch.bytes, length_take, length_put]
      exact min_eq_left hbl
    · rw [Batch.slice_header hbl]
      refine Envelope.decode_encode hf hblock henv hunused ?_ hv
      intro i hi
      rw [hslot i _ (getElem?_eq_getElem hi)]
      exact Descriptor.slotCanonical_stamped _ (length_zeros _) (by decide) _
    · rw [Batch.slice_header hbl, hds]
    · unfold Header.verifyPayload
      rw [requireFormat_bind_eq_ok, requireFormat_eq_ok, Batch.slice_header hbl,
        Batch.slice_payload, hds, hpay]
      refine ⟨hpl, ?_⟩
      intro d hd hk
      obtain ⟨i, hi, rfl⟩ := mem_mapIdx.1 hd
      exact hw.packed.crc ds[i] (getElem_mem hi) hk

end Sealed

/-- Builders as their callers make them. A refused or failed call leaves a builder in use. -/
inductive Builder.Built [Digest] : Builder → Prop
  | new {imageBytes payloadCapacity : Nat} {b : Builder}
      (h : Builder.new imageBytes payloadCapacity = .ok b) : Built b
  | write {b : Builder} (hb : Built b) {id : RequestId} (hid : id.Fits) (offset length : Nat)
      (gather : Builder.Gathered) : Built (b.write id offset length gather).1
  | zero {b : Builder} (hb : Built b) {id : RequestId} (hid : id.Fits) (offset length : Nat) :
      Built (b.zero id offset length).1

theorem Builder.Built.wf [Digest] {b : Builder} (h : b.Built) : ∃ ds, b.Wf ds := by
  induction h with
  | new h => exact ⟨[], Builder.wf_new h⟩
  | write _ hid offset length gather ih =>
    obtain ⟨ds, hw⟩ := ih
    rcases hw.write hid offset length gather with ⟨-, d, -, hw⟩ | ⟨-, hw⟩
    · exact ⟨ds ++ [d], hw⟩
    · exact ⟨ds, hw⟩
  | zero _ hid offset length ih =>
    obtain ⟨ds, hw⟩ := ih
    rcases hw.zero hid offset length with ⟨-, d, -, hw⟩ | ⟨-, hb⟩
    · exact ⟨ds ++ [d], hw⟩
    · exact ⟨ds, by rw [hb]; exact hw⟩

end Cas.Append
