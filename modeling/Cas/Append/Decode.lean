import Cas.Append.Format

/-!
# What an accepted batch header says

`Header.decode_eq_ok_iff` reads the decoder as one predicate, and `Header.Valid` collects the facts
about an accepted header that the log, recovery and compaction rely on: dense sequences, strictly
increasing serials, in-image ranges and a gap-free payload.
-/

namespace Cas.Append

open Bytes List
open Except (bind_eq_ok ok_bind)

theorem requireFormat_bind_eq_ok {c : Prop} [Decidable c] {m : String} {β : Type}
    {f : Unit → Except FormatError β} {r : β} :
    requireFormat c m >>= f = .ok r ↔ c ∧ f () = .ok r :=
  Except.ensure_bind_eq_ok

theorem requireFormat_eq_ok {c : Prop} [Decidable c] {m : String} {u : Unit} :
    requireFormat c m = .ok u ↔ c :=
  Except.ensure_eq_ok

theorem validRange_iff {offset length imageBytes : Nat} :
    validRange offset length imageBytes = true ↔
      length ≠ 0 ∧ offset % BLOCK_SIZE = 0 ∧ length % BLOCK_SIZE = 0 ∧
        offset + length < U64 ∧ offset + length ≤ imageBytes := by
  unfold validRange checkedAdd
  by_cases h : offset + length < U64 <;> simp [h]

/-! ## Segment headers -/

variable {h : SegmentHeader}

theorem SegmentHeader.validate_eq_ok {u : Unit} :
    h.validate = .ok u ↔
      (h.store ≠ .zero 16 ∧ h.image ≠ .zero 16) ∧ (h.epoch ≠ 0 ∧ h.number ≠ 0) ∧
        (h.capacity ≥ 3 * BLOCK_SIZE ∧ h.capacity % BLOCK_SIZE = 0) ∧
        (h.imageBytes ≠ 0 ∧ h.imageBytes % BLOCK_SIZE = 0) := by
  unfold validate
  simp only [requireFormat_bind_eq_ok, requireFormat_eq_ok]

/-- The integer fields are `u64` values. -/
structure SegmentHeader.Fits (h : SegmentHeader) : Prop where
  epoch : h.epoch < U64
  number : h.number < U64
  capacity : h.capacity < U64
  imageBytes : h.imageBytes < U64
  precedingSequence : h.precedingSequence < U64

/-- A segment header block decodes to the header it was made from. -/
theorem SegmentHeader.decode_encode [Digest] {b : Bytes} (hf : h.Fits)
    (he : h.encode = .ok b) : decode b = .ok h ∧ b.length = BLOCK_SIZE := by
  obtain ⟨u, hv, hb⟩ := bind_eq_ok.1 he
  simp only [pure, Except.pure, Except.ok.injEq] at hb
  subst hb
  have hs := h.store.2
  have hi := h.image.2
  have hfl : h.fields.length = 4096 := by simp [fields, BLOCK_SIZE]
  have hck : u32At (put32 h.fields 4092 (checksum h.fields 4092)) 4092 =
      checksum (put32 h.fields 4092 (checksum h.fields 4092)) 4092 := by
    rw [u32At_put32 (by simp [hfl]) (checksum_lt _ _), checksum_put32_self]
  have key : ∀ o n, o + n ≤ 4092 →
      (put32 h.fields 4092 (checksum h.fields 4092)).slice o n = h.fields.slice o n :=
    fun o n hon => slice_put32 (Or.inl hon)
  refine ⟨?_, by simp [hfl]⟩
  unfold decode
  simp only [requireFormat_bind_eq_ok, hck, length_put32, hfl]
  refine ⟨trivial, ⟨?_, ?_⟩, ?_, ?_, trivial, ?_⟩
  · rw [key _ _ (by decide)]
    simp [fields, put32, put64, slice_put_self, slice_put_disjoint, hs, hi, magic]
  · rw [u32At, key _ _ (by decide)]
    simp [fields, put32, put64, slice_put_self, slice_put_disjoint, hs, hi, toNat_ofNat4]
  · rw [u32At, key _ _ (by decide)]
    simp [fields, put32, put64, slice_put_self, slice_put_disjoint, hs, hi, toNat_ofNat4,
      BLOCK_SIZE]
  · rw [key _ _ (by decide)]
    simp [fields, put32, put64, slice_put_disjoint, hs, hi, slice_zeros, magic]
  · have hfields : ∀ {o v : Nat}, v < U64 → h.fields.slice o 8 = Bytes.ofNat 8 v → o + 8 ≤ 4092 →
        u64At (put32 h.fields 4092 (checksum h.fields 4092)) o = v := by
      intro o v hv hsl ho
      rw [u64At, key _ _ ho, hsl, toNat_ofNat8 hv]
    have hst : FixedBytes.read 16 (put32 h.fields 4092 (checksum h.fields 4092)) 16 = h.store := by
      apply FixedBytes.read_eq
      rw [key _ _ (by decide)]
      simp [fields, put32, put64, slice_put_self, slice_put_disjoint, hs, hi]
    have him : FixedBytes.read 16 (put32 h.fields 4092 (checksum h.fields 4092)) 32 = h.image := by
      apply FixedBytes.read_eq
      rw [key _ _ (by decide)]
      simp [fields, put32, put64, slice_put_self, slice_put_disjoint, hi]
    have e1 := hfields (o := 48) hf.epoch
      (by simp [fields, put32, put64, slice_put_self, slice_put_disjoint]) (by decide)
    have e2 := hfields (o := 56) hf.number
      (by simp [fields, put32, put64, slice_put_self, slice_put_disjoint]) (by decide)
    have e3 := hfields (o := 64) hf.capacity
      (by simp [fields, put32, put64, slice_put_self, slice_put_disjoint]) (by decide)
    have e4 := hfields (o := 72) hf.imageBytes
      (by simp [fields, put32, put64, slice_put_self, slice_put_disjoint]) (by decide)
    have e5 := hfields (o := 80) hf.precedingSequence
      (by simp [fields, put32, put64, slice_put_self]) (by decide)
    simp only [hst, him, e1, e2, e3, e4, e5]
    rw [hv]
    rfl

/-- A decoded segment header is valid, and its fields are `u64` values. -/
theorem SegmentHeader.valid_of_decode [Digest] {b : Bytes}
    (hd : decode b = .ok h) : h.validate = .ok () ∧ h.Fits := by
  unfold decode at hd
  simp only [requireFormat_bind_eq_ok] at hd
  obtain ⟨-, -, -, -, -, hd⟩ := hd
  obtain ⟨u, hv, hd⟩ := bind_eq_ok.1 hd
  have hd := Except.ok.inj hd
  subst hd
  exact ⟨hv, ⟨u64At_lt _ _, u64At_lt _ _, u64At_lt _ _, u64At_lt _ _, u64At_lt _ _⟩⟩

/-! ## Descriptor lists -/

/-- The descriptors from `index` on continue a batch whose payload is claimed up to `payloadEnd`
and whose last request serial is `serial`, and they claim the rest of the payload exactly. -/
def SlotsValid (e : Envelope) (imageBytes : Nat) :
    List Descriptor → (index payloadEnd serial : Nat) → Prop
  | [], _, payloadEnd, _ => payloadEnd = e.payloadBytes
  | d :: ds, index, payloadEnd, serial =>
    d.sequence = e.first + index ∧ (d.id.serial > serial ∧ d.id.attachment ≠ 0) ∧
      validRange d.offset d.length imageBytes = true ∧
      match d.kind with
      | .write => (d.length = d.payloadLength ∧ d.payloadOffset = payloadEnd) ∧
          payloadEnd + d.payloadLength ≤ e.payloadBytes ∧
          SlotsValid e imageBytes ds (index + 1) (payloadEnd + d.payloadLength) d.id.serial
      | .zero => (d.payloadOffset = 0 ∧ d.payloadLength = 0 ∧ d.payloadCrc = 0) ∧
          SlotsValid e imageBytes ds (index + 1) payloadEnd d.id.serial

/-- The bytes of a slot outside its typed fields are the canonical ones. -/
def SlotCanonical (slot : Bytes) : Prop :=
  (u16At slot 52 = 1 ∨ u16At slot 52 = 2) ∧ isZero (slot.drop 58) = true

namespace Header

variable {imageBytes : Nat}

theorem validateSlots_eq_ok {e : Envelope} :
    ∀ {slots : List Bytes} {index payloadEnd serial : Nat},
      validateSlots e imageBytes slots index payloadEnd serial = .ok e.payloadBytes ↔
        (∀ slot ∈ slots, SlotCanonical slot) ∧
          SlotsValid e imageBytes (slots.map Descriptor.decode) index payloadEnd serial := by
  intro slots
  induction slots with
  | nil => intro index payloadEnd serial; simp [validateSlots, SlotsValid]
  | cons slot slots ih =>
    intro index payloadEnd serial
    rw [validateSlots, map_cons, SlotsValid]
    simp only [requireFormat_bind_eq_ok, forall_mem_cons, SlotCanonical]
    cases (Descriptor.decode slot).kind with
    | write => simp only [requireFormat_bind_eq_ok, ih, SlotCanonical]; tauto
    | zero => simp only [requireFormat_bind_eq_ok, ih, SlotCanonical]; tauto

theorem checkBounds_eq_ok {e : Envelope} {u : Unit} :
    checkBounds e = .ok u ↔
      (e.fence = true → e.descriptors = 0 ∧ e.payloadBytes = 0 ∧ e.first = e.last) ∧
        (e.fence = false → e.descriptors ≠ 0 ∧ e.first ≠ 0 ∧
          e.first + (e.descriptors - 1) = e.last ∧ e.last < U64) := by
  unfold checkBounds
  cases e.fence <;> simp [requireFormat_eq_ok, checkedAdd_eq_some]

/-- Facts about the header of an accepted record. -/
structure Valid (imageBytes : Nat) (h : Header) : Prop where
  bytes_length : h.bytes.length = BLOCK_SIZE
  identity : h.envelope.segment ≠ 0 ∧ h.envelope.batch ≠ 0
  count_le : h.envelope.descriptors ≤ MAX_DESCRIPTORS
  payload_le : h.envelope.payloadBytes ≤ MAX_REQUEST_BYTES
  payload_aligned : h.envelope.payloadBytes % BLOCK_SIZE = 0
  fence : h.envelope.fence = true →
    h.envelope.descriptors = 0 ∧ h.envelope.payloadBytes = 0 ∧ h.envelope.first = h.envelope.last
  data : h.envelope.fence = false →
    h.envelope.descriptors ≠ 0 ∧ h.envelope.first ≠ 0 ∧
      h.envelope.first + (h.envelope.descriptors - 1) = h.envelope.last ∧ h.envelope.last < U64
  slots : SlotsValid h.envelope imageBytes h.descriptors 0 0 0

variable [Digest]

/-- Raw conditions of the batch header decoder outside the descriptor list. -/
structure Framed (b : Bytes) : Prop where
  length : b.length = BLOCK_SIZE
  version : b.slice 0 8 = Envelope.magic ∧ u16At b 8 = 2
  kind : u16At b 10 = 1 ∨ u16At b 10 = 2
  sum : u32At b 56 = checksum b 56
  size : u32At b 32 = BLOCK_SIZE + (readEnvelope b).payloadBytes
  reserved : u16At b 14 = 0 ∧ u32At b 60 = 0
  unused : isZero (b.drop (ENVELOPE_BYTES + DESCRIPTOR_BYTES * (readEnvelope b).descriptors)) = true

variable {b : Bytes} {h : Header}

theorem decode_eq_ok_iff :
    decode b imageBytes = .ok h ↔
      h = ⟨readEnvelope b, b⟩ ∧ Framed b ∧ Valid imageBytes h ∧
        ∀ i < (readEnvelope b).descriptors, SlotCanonical (descriptorSlot b i) := by
  have hslots : (⟨readEnvelope b, b⟩ : Header).descriptors =
      ((range (readEnvelope b).descriptors).map (descriptorSlot b)).map Descriptor.decode := by
    simp [descriptors, Function.comp_def]
  unfold decode
  simp only [requireFormat_bind_eq_ok]
  constructor
  · rintro ⟨hl, hv, hk, hs, hid, hc, hp, hz, hr, hu, hd⟩
    obtain ⟨u, hkind, hd⟩ := bind_eq_ok.1 hd
    obtain ⟨p, hval, hd⟩ := bind_eq_ok.1 hd
    obtain ⟨hpe, hd⟩ := requireFormat_bind_eq_ok.1 hd
    simp only [pure, Except.pure, Except.ok.injEq] at hd
    subst hd hpe
    obtain ⟨hcan, hsv⟩ := validateSlots_eq_ok.1 hval
    obtain ⟨hfe, hda⟩ := checkBounds_eq_ok.1 hkind
    refine ⟨rfl, ⟨hl, hv, hk, hs, hz, hr, hu⟩, ?_, ?_⟩
    · exact ⟨hl, hid, hc, hp.1, hp.2, hfe, hda, by rw [hslots]; exact hsv⟩
    · intro i hi
      exact hcan _ (mem_map.2 ⟨i, mem_range.2 hi, rfl⟩)
  · rintro ⟨rfl, hfr, hva, hcan⟩
    refine ⟨hfr.length, hfr.version, hfr.kind, hfr.sum, hva.identity, hva.count_le,
      ⟨hva.payload_le, hva.payload_aligned⟩, hfr.size, hfr.reserved, hfr.unused, ?_⟩
    have hkind : checkBounds (readEnvelope b) = .ok () :=
      checkBounds_eq_ok.2 ⟨hva.fence, hva.data⟩
    have hval : validateSlots (readEnvelope b) imageBytes
        ((range (readEnvelope b).descriptors).map (descriptorSlot b)) 0 0 0 =
          .ok (readEnvelope b).payloadBytes := by
      rw [validateSlots_eq_ok]
      refine ⟨?_, by rw [← hslots]; exact hva.slots⟩
      intro slot hslot
      obtain ⟨i, hi, rfl⟩ := mem_map.1 hslot
      exact hcan i (mem_range.1 hi)
    rw [hkind, ok_bind, hval, ok_bind, requireFormat_bind_eq_ok]
    exact ⟨rfl, rfl⟩

theorem valid_of_decode
    (hd : decode b imageBytes = .ok h) : Valid imageBytes h :=
  (decode_eq_ok_iff.1 hd).2.2.1

theorem bytes_of_decode
    (hd : decode b imageBytes = .ok h) : h.bytes = b := by
  rw [(decode_eq_ok_iff.1 hd).1]

end Header

end Cas.Append
