import Cas.Encoding

/-!
# The v1 staging layout (`staging/format.rs`)

A log is a header block and then records of a fixed size, each a block of framing and a block of
payload. The checksum covers all of a record but the four bytes that hold it.
-/

namespace Cas.Staging

open Bytes

@[simp] abbrev RECORD_SIZE : Nat := 2 * BLOCK_SIZE

/-- `b"CASLOG01"`. -/
def FILE_MAGIC : Bytes := [67, 65, 83, 76, 79, 71, 48, 49]

/-- `b"CASREC01"`. -/
def RECORD_MAGIC : Bytes := [67, 65, 83, 82, 69, 67, 48, 49]

inductive RecordKind
  | write
  | zero
  | fence
  deriving DecidableEq, Repr

/-- `record.kind as u64`. -/
def RecordKind.tag : RecordKind → Nat
  | .write => 1
  | .zero => 2
  | .fence => 3

def RecordKind.ofTag : Nat → Option RecordKind
  | 1 => some .write
  | 2 => some .zero
  | 3 => some .fence
  | _ => none

structure Record where
  kind : RecordKind
  sequence : Nat
  offset : Nat
  length : Nat
  deriving DecidableEq, Repr

section
variable [Digest]

def checksum (b : Bytes) : Nat := (Digest.crc32 (b.take 4092 ++ b.drop BLOCK_SIZE)).toNat

/-- `seal`. -/
def sealed (b : Bytes) : Bytes := put32 b 4092 (checksum b)

def checksumValid (b : Bytes) : Bool := checksum b = u32At b 4092

/-- What the kind of a record says about the rest of it. -/
def wellFormed (b : Bytes) (r : Record) : Bool :=
  match r.kind with
  | .write => r.length = BLOCK_SIZE
  | .zero => 0 < r.length ∧ isZero (b.drop BLOCK_SIZE)
  | .fence => r.offset = 0 ∧ r.length = 0 ∧ isZero (b.drop BLOCK_SIZE)

def decode (b : Bytes) : Option Record :=
  if b.slice 0 8 ≠ RECORD_MAGIC ∨ checksumValid b = false then none
  else do
    let kind ← RecordKind.ofTag (u64At b 8)
    let record : Record := ⟨kind, u64At b 16, u64At b 24, u64At b 32⟩
    if wellFormed b record then some record else none

/-- The framing of a record, written into an empty buffer. -/
def Record.framing (r : Record) (b : Bytes) : Bytes :=
  let b := b.put 0 RECORD_MAGIC
  let b := put64 b 8 r.kind.tag
  let b := put64 b 16 r.sequence
  let b := put64 b 24 r.offset
  put64 b 32 r.length

/-- A record before its checksum. -/
def Record.fields (r : Record) (payload : Bytes) : Bytes :=
  (r.framing (zeros RECORD_SIZE)).put BLOCK_SIZE payload

def encode (r : Record) (payload : Bytes) : Bytes := sealed (r.fields payload)

/-- The header before its checksum. -/
def headerFields (imageBytes : Nat) : Bytes :=
  let b := (zeros BLOCK_SIZE).put 0 FILE_MAGIC
  let b := put64 b 8 imageBytes
  put64 b 16 RECORD_SIZE

def encodeHeader (imageBytes : Nat) : Bytes := sealed (headerFields imageBytes)

def decodeHeader (b : Bytes) : Option Nat :=
  let imageBytes := u64At b 8
  if b.slice 0 8 = FILE_MAGIC ∧ checksumValid b = true ∧ u64At b 16 = RECORD_SIZE ∧
      imageBytes > 0 ∧ imageBytes % BLOCK_SIZE = 0 then
    some imageBytes
  else none

/-! ## Reading back -/

/-- A record as `append` writes it. -/
structure Record.Writable (r : Record) (payload : Bytes) : Prop where
  sequence : r.sequence < U64
  offset : r.offset < U64
  length : r.length < U64
  kind : match r.kind with
    | .write => r.length = BLOCK_SIZE ∧ payload.length = BLOCK_SIZE
    | .zero => 0 < r.length ∧ payload = []
    | .fence => r.offset = 0 ∧ r.length = 0 ∧ payload = []

omit [Digest] in
@[simp] theorem length_fields (r : Record) (payload : Bytes) :
    (r.fields payload).length = RECORD_SIZE := by
  simp only [Record.fields, Record.framing, length_put, length_put64, length_zeros]

theorem length_sealed (b : Bytes) : (sealed b).length = b.length := length_put32

theorem slice_sealed {b : Bytes} {o n : Nat} (h : o + n ≤ 4092 ∨ BLOCK_SIZE ≤ o) :
    (sealed b).slice o n = b.slice o n := slice_put32 h

theorem drop_sealed (b : Bytes) : (sealed b).drop BLOCK_SIZE = b.drop BLOCK_SIZE := by
  have h : (sealed b).slice BLOCK_SIZE b.length = b.slice BLOCK_SIZE b.length :=
    slice_sealed (.inr (le_refl _))
  rw [slice, slice, List.take_of_length_le (by rw [List.length_drop, length_sealed]; omega),
    List.take_of_length_le (by rw [List.length_drop]; omega)] at h
  exact h

theorem checksumValid_sealed {b : Bytes} (h : BLOCK_SIZE ≤ b.length) :
    checksumValid (sealed b) = true := by
  have ht : (sealed b).take 4092 = b.take 4092 := slice_sealed (o := 0) (.inl (by decide))
  have hsum : checksum (sealed b) = checksum b := by rw [checksum, ht, drop_sealed, checksum]
  have hlt : checksum b < 2 ^ 32 := UInt32.toNat_lt _
  rw [checksumValid, decide_eq_true_iff, hsum, sealed, u32At_put32 h hlt]

theorem u64At_sealed {b : Bytes} {o : Nat} (h : o + 8 ≤ 4092) : u64At (sealed b) o = u64At b o := by
  rw [u64At, u64At, slice_sealed (.inl h)]

omit [Digest] in
theorem framing_spec {r : Record} {b : Bytes} (hb : b.length = 8192) (hs : r.sequence < U64)
    (ho : r.offset < U64) (hl : r.length < U64) :
    (r.framing b).slice 0 8 = RECORD_MAGIC ∧ u64At (r.framing b) 8 = r.kind.tag ∧
      u64At (r.framing b) 16 = r.sequence ∧ u64At (r.framing b) 24 = r.offset ∧
      u64At (r.framing b) 32 = r.length ∧ (r.framing b).slice 4096 4096 = b.slice 4096 4096 := by
  have hm : RECORD_MAGIC.length = 8 := rfl
  have ht : r.kind.tag < U64 := by cases r.kind <;> decide
  simp only [Record.framing, u64At, put64]
  refine ⟨?_, ?_, ?_, ?_, ?_, ?_⟩ <;>
  simp only [slice_put_disjoint, slice_put_self, length_ofNat, length_put, hb, hm, Nat.reduceAdd,
    Nat.reduceLeDiff, true_or, or_true]
  · exact toNat_ofNat8 ht
  · exact toNat_ofNat8 hs
  · exact toNat_ofNat8 ho
  · exact toNat_ofNat8 hl

omit [Digest] in
theorem Record.Writable.payload {r : Record} {payload : Bytes} (h : r.Writable payload) :
    payload.length = 4096 ∨ payload = [] := by
  have hk := h.kind
  revert hk
  cases r.kind with
  | write => exact fun hk => .inl hk.2
  | zero => exact fun hk => .inr hk.2
  | fence => exact fun hk => .inr hk.2.2

omit [Digest] in
theorem fields_spec {r : Record} {payload : Bytes} (h : r.Writable payload) :
    (r.fields payload).slice 0 8 = RECORD_MAGIC ∧ u64At (r.fields payload) 8 = r.kind.tag ∧
      u64At (r.fields payload) 16 = r.sequence ∧ u64At (r.fields payload) 24 = r.offset ∧
      u64At (r.fields payload) 32 = r.length ∧
      (r.fields payload).drop BLOCK_SIZE = payload ++ zeros (4096 - payload.length) := by
  have hz : (zeros RECORD_SIZE).length = 8192 := length_zeros 8192
  obtain ⟨hmagic, htag, hseq, hoff, hlen, hrest⟩ :=
    framing_spec (r := r) hz h.sequence h.offset h.length
  have hlow (o n : Nat) (hn : o + n ≤ 4096) :
      (r.fields payload).slice o n = (r.framing (zeros RECORD_SIZE)).slice o n :=
    slice_put_disjoint (.inl hn)
  rw [u64At] at htag hseq hoff hlen
  refine ⟨?_, ?_, ?_, ?_, ?_, ?_⟩
  · rw [hlow _ _ (by decide), hmagic]
  · rw [u64At, hlow _ _ (by decide), htag]
  · rw [u64At, hlow _ _ (by decide), hseq]
  · rw [u64At, hlow _ _ (by decide), hoff]
  · rw [u64At, hlow _ _ (by decide), hlen]
  · rw [drop_eq_slice (n := 4096) (length_fields r payload), Record.fields]
    have hb : (r.framing (zeros RECORD_SIZE)).length = 8192 := by
      simp only [Record.framing, length_put, length_put64, hz]
    rcases h.payload with hp | rfl
    · rw [slice_put_self (by rw [hb]) hp, hp, Nat.sub_self]
      exact (List.append_nil payload).symm
    · exact (slice_put_disjoint (.inr (le_refl 4096))).trans
        (hrest.trans (slice_zeros (by decide)))

theorem decode_encode {r : Record} {payload : Bytes} (h : r.Writable payload) :
    decode (encode r payload) = some r := by
  obtain ⟨hmagic, htag, hseq, hoff, hlen, hrest⟩ := fields_spec h
  have hvalid : checksumValid (encode r payload) = true :=
    checksumValid_sealed (by rw [length_fields]; decide)
  have hkind : RecordKind.ofTag r.kind.tag = some r.kind := by cases r.kind <;> rfl
  have hwf : wellFormed (encode r payload) r = true := by
    have hk := h.kind
    rw [wellFormed, encode, drop_sealed, hrest]
    revert hk
    cases r.kind with
    | write => exact fun hk => decide_eq_true hk.1
    | zero =>
      rintro ⟨hk, rfl⟩
      exact decide_eq_true ⟨hk, isZero_zeros _⟩
    | fence =>
      rintro ⟨ho, hl, rfl⟩
      exact decide_eq_true ⟨ho, hl, isZero_zeros _⟩
  have hno : ¬((encode r payload).slice 0 8 ≠ RECORD_MAGIC ∨
      checksumValid (encode r payload) = false) := by
    rw [encode, slice_sealed (.inl (by decide)), hmagic, ← encode, hvalid]
    simp
  rw [decode, if_neg hno]
  simp only [encode, u64At_sealed (show (8 : Nat) + 8 ≤ 4092 by decide),
    u64At_sealed (show (16 : Nat) + 8 ≤ 4092 by decide),
    u64At_sealed (show (24 : Nat) + 8 ≤ 4092 by decide),
    u64At_sealed (show (32 : Nat) + 8 ≤ 4092 by decide), htag, hseq, hoff, hlen, hkind]
  exact if_pos hwf

theorem length_encode (r : Record) (payload : Bytes) : (encode r payload).length = RECORD_SIZE := by
  rw [encode, length_sealed, length_fields]

theorem payload_encode {r : Record} {payload : Bytes} (h : r.Writable payload)
    (hk : r.kind = .write) : (encode r payload).drop BLOCK_SIZE = payload := by
  have hlen : payload.length = 4096 := by
    have := h.kind
    rw [hk] at this
    exact this.2
  rw [encode, drop_sealed, (fields_spec h).2.2.2.2.2, hlen]
  exact List.append_nil payload

theorem decodeHeader_encodeHeader {n : Nat} (hn : n < U64) (hpos : 0 < n)
    (hmod : n % BLOCK_SIZE = 0) : decodeHeader (encodeHeader n) = some n := by
  have hz : (zeros BLOCK_SIZE).length = 4096 := length_zeros 4096
  have hm : FILE_MAGIC.length = 8 := rfl
  have hlen : (headerFields n).length = 4096 := by
    simp only [headerFields, length_put, length_put64, hz]
  have hvalid : checksumValid (encodeHeader n) = true := checksumValid_sealed (by rw [hlen])
  have hmagic : (headerFields n).slice 0 8 = FILE_MAGIC := by
    simp only [headerFields, put64, slice_put_disjoint, slice_put_self, length_ofNat, hz, hm,
      Nat.reduceAdd, Nat.reduceLeDiff, true_or]
  have hbytes : u64At (headerFields n) 8 = n := by
    simp only [headerFields, u64At, put64, slice_put_disjoint, slice_put_self, length_ofNat,
      length_put, hz, Nat.reduceAdd, Nat.reduceLeDiff, true_or]
    exact toNat_ofNat8 hn
  have hsize : u64At (headerFields n) 16 = RECORD_SIZE := by
    simp only [headerFields, u64At, put64, slice_put_self, length_ofNat, length_put, hz,
      Nat.reduceAdd, Nat.reduceLeDiff]
    exact toNat_ofNat8 (by decide)
  have hmagic' : (encodeHeader n).slice 0 8 = FILE_MAGIC := by
    rw [encodeHeader, slice_sealed (.inl (by decide)), hmagic]
  have hbytes' : u64At (encodeHeader n) 8 = n := (u64At_sealed (by decide)).trans hbytes
  have hsize' : u64At (encodeHeader n) 16 = RECORD_SIZE := (u64At_sealed (by decide)).trans hsize
  rw [decodeHeader, hbytes', hsize']
  exact if_pos ⟨hmagic', hvalid, rfl, hpos, hmod⟩

theorem length_encodeHeader (n : Nat) : (encodeHeader n).length = BLOCK_SIZE := by
  rw [encodeHeader, length_sealed]
  simp only [headerFields, length_put, length_put64, length_zeros]

end

end Cas.Staging
