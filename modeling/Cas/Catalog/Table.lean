import Cas.Catalog.Format
import Cas.Manifest.Commit

/-!
# The packed table holds its entries

`Contents.Holds` says what the bytes of a catalog are: a header, the records of sorted valid entries,
and zeros up to the end of the last block. Such bytes decode to those entries (`Holds.entries_eq`), the
reader accepts them (`Holds.read_eq`), and splicing a change into them gives the bytes of the changed
entries (`Holds.changed_insert`, `Holds.changed_remove`).
-/

namespace Cas.Catalog

open Bytes Manifest List
open Except (bind_eq_ok ensure_of ok_bind)

/-! ## Records -/

/-- Fields that fit their place in the record. -/
def Kind.Fits : Kind → Prop
  | .image imageBytes => imageBytes < U64
  | .snapshot key => key.commit.Fits

namespace Entry

variable {e : Entry} {store : Id}

/-- The record of an entry. -/
def slot (e : Entry) : Bytes := e.encode (zeros ENTRY)

@[simp] theorem length_slot (e : Entry) : e.slot.length = ENTRY := by
  unfold slot encode
  cases e.kind <;> simp

theorem id_ne_zero (h : e.validate store = .ok ()) : e.id ≠ .zero 16 :=
  (require_bind_eq_ok.1 h).1

theorem read_slot (e : Entry) : FixedBytes.read 16 e.slot 0 = e.id := by
  have hid : e.id.1.length = 16 := e.id.2
  have hz : (zeros ENTRY).length = 128 := length_zeros _
  apply FixedBytes.read_eq
  unfold slot encode
  generalize zeros ENTRY = z at hz
  cases e.kind with
  | image imageBytes =>
    simp only [put64, put16, slice_put_disjoint, slice_put_self, length_ofNat, hid, hz, Nat.reduceAdd,
      Nat.reduceLeDiff, true_or]
  | snapshot key =>
    have himage : key.commit.image.1.length = 16 := key.commit.image.2
    simp only [put64, put16, slice_put_disjoint, slice_put_self, length_ofNat, hid, himage, hz,
      Nat.reduceAdd, Nat.reduceLeDiff, true_or]

/-- What the reader checks of a record before it decodes it. -/
structure Canonical (record : Bytes) : Prop where
  kind : u16At record 16 = 1 ∨ u16At record 16 = 2
  reserved : isZero (record.slice 18 6) = true ∧ isZero (record.drop 82) = true ∧
    (u16At record 16 = 2 ∨ isZero (record.slice 32 50) = true)

/-- `record[16..18]` of the entry. -/
theorem u16At_slot (e : Entry) :
    u16At e.slot 16 = match e.kind with | .image _ => 1 | .snapshot _ => 2 := by
  have hz : (zeros ENTRY).length = 128 := length_zeros _
  unfold slot encode u16At
  generalize zeros ENTRY = z at hz
  cases e.kind with
  | image imageBytes =>
    simp only [put64, put16, slice_put_disjoint, slice_put_self, length_ofNat, length_put, hz,
      Nat.reduceAdd, Nat.reduceLeDiff, true_or]
    exact toNat_ofNat2 (by decide)
  | snapshot key =>
    have himage : key.commit.image.1.length = 16 := key.commit.image.2
    simp only [put64, put16, slice_put_disjoint, slice_put_self, length_ofNat, length_put, himage, hz,
      Nat.reduceAdd, Nat.reduceLeDiff, true_or]
    exact toNat_ofNat2 (by decide)

/-- The bytes between the fields, and those after an image, stay zero. -/
theorem slice_slot (e : Entry) : e.slot.slice 18 6 = zeros 6 ∧ e.slot.slice 82 46 = zeros 46 ∧
    ∀ imageBytes, e.kind = .image imageBytes → e.slot.slice 32 50 = zeros 50 := by
  have hid : e.id.1.length = 16 := e.id.2
  have hzero : ∀ o n, o + n ≤ 128 → (zeros ENTRY).slice o n = zeros n := fun o n h => slice_zeros h
  unfold slot encode
  generalize zeros ENTRY = z at hzero
  cases e.kind with
  | image imageBytes =>
    refine ⟨?_, ?_, fun _ _ => ?_⟩ <;>
    simp only [put64, put16, slice_put_disjoint, length_ofNat, hid, hzero, Nat.reduceAdd,
      Nat.reduceLeDiff, true_or, or_true]
  | snapshot key =>
    have himage : key.commit.image.1.length = 16 := key.commit.image.2
    refine ⟨?_, ?_, fun _ h => by cases h⟩ <;>
    simp only [put64, put16, slice_put_disjoint, length_ofNat, hid, himage, hzero, Nat.reduceAdd,
      Nat.reduceLeDiff, true_or, or_true]

theorem canonical_slot (e : Entry) : Canonical e.slot := by
  obtain ⟨h18, h82, h32⟩ := e.slice_slot
  have hdrop : e.slot.drop 82 = e.slot.slice 82 46 := drop_eq_slice (by rw [length_slot])
  have htag := e.u16At_slot
  cases hk : e.kind with
  | image imageBytes =>
    rw [hk] at htag
    exact ⟨Or.inl htag, by rw [h18]; exact isZero_zeros _, by rw [hdrop, h82]; exact isZero_zeros _,
      Or.inr (by rw [h32 _ hk]; exact isZero_zeros _)⟩
  | snapshot key =>
    rw [hk] at htag
    exact ⟨Or.inr htag, by rw [h18]; exact isZero_zeros _, by rw [hdrop, h82]; exact isZero_zeros _,
      Or.inl htag⟩

theorem decode_slot (hf : e.kind.Fits) (hv : e.validate store = .ok ()) :
    decode e.slot store = e := by
  have hid := e.read_slot
  have htag := e.u16At_slot
  have hz : (zeros ENTRY).length = 128 := length_zeros _
  obtain ⟨id, kind⟩ := e
  unfold decode
  rw [hid, htag]
  unfold slot encode
  generalize zeros ENTRY = z at hz
  cases kind with
  | image imageBytes =>
    dsimp only
    rw [if_pos rfl, u64At_put64 (by simp [hz]) hf]
  | snapshot key =>
    obtain ⟨hstore, hkey⟩ := require_bind_eq_ok.1 (require_bind_eq_ok.1 hv).2
    obtain ⟨⟨-, hstop, -⟩, hcommit⟩ := require_bind_eq_ok.1 hkey
    have hheight : key.commit.root.height < 2 ^ 16 := by
      have hroot := (Commit.validate_eq_ok.1 hcommit).2
      split at hroot
      · omega
      · simp only [MAX_HEIGHT] at hroot
        omega
    have hstop : key.stop < U64 := lt_of_le_of_lt hstop (by decide)
    have himage : key.commit.image.1.length = 16 := key.commit.image.2
    obtain ⟨⟨cstore, image, generation, ⟨offset, height⟩, durable, imageBytes⟩, stop⟩ := key
    dsimp only at *
    rw [if_neg (by decide)]
    simp only [u16At, u64At, put64, put16]
    rw [FixedBytes.read_eq (v := image) (by
      simp only [slice_put_disjoint, slice_put_self, length_ofNat, length_put, himage, hz,
        Nat.reduceAdd, Nat.reduceLeDiff, true_or])]
    simp only [slice_put_disjoint, slice_put_self, length_ofNat, length_put, himage, hz,
      Nat.reduceAdd, Nat.reduceLeDiff, true_or]
    rw [toNat_ofNat2 hheight, toNat_ofNat8 hstop, toNat_ofNat8 hf.generation, toNat_ofNat8 hf.root,
      toNat_ofNat8 hf.durable, toNat_ofNat8 hf.imageBytes, hstore]

end Entry

/-! ## The header -/

/-- The length of a table of `count` records. -/
def tableBytes (count : Nat) : Nat := (count * ENTRY + HEADER + (BLOCK_SIZE - 1)) / BLOCK_SIZE * BLOCK_SIZE

theorem le_tableBytes (count : Nat) : HEADER + ENTRY * count ≤ tableBytes count := by
  unfold tableBytes
  simp only [HEADER, ENTRY, BLOCK_SIZE]
  omega

theorem checkedNextMultipleOf_tableBytes (count : Nat) :
    checkedNextMultipleOf (count * ENTRY + HEADER) BLOCK_SIZE =
      if tableBytes count < U64 then some (tableBytes count) else none := rfl

theorem encodedSize_eq (count : Nat) : encodedSize count =
    if tableBytes count ≤ I64_MAX then .ok (tableBytes count)
    else .error ⟨.invalidData, "catalog length overflow"⟩ := by
  have hle : count * ENTRY + HEADER ≤ tableBytes count := by
    have := le_tableBytes count
    rwa [mul_comm, add_comm] at this
  have hu : I64_MAX < U64 := by decide
  unfold encodedSize checkedMul checkedAdd
  by_cases hfit : tableBytes count ≤ I64_MAX
  · rw [if_pos hfit, if_pos (by omega), Option.bind_some, if_pos (by omega), Option.bind_some,
      checkedNextMultipleOf_tableBytes, if_pos (by omega), Option.filter_some,
      if_pos (decide_eq_true hfit)]
  · rw [if_neg hfit]
    by_cases h1 : count * ENTRY < U64
    · rw [if_pos h1, Option.bind_some]
      by_cases h2 : count * ENTRY + HEADER < U64
      · rw [if_pos h2, Option.bind_some, checkedNextMultipleOf_tableBytes]
        by_cases h3 : tableBytes count < U64
        · rw [if_pos h3, Option.filter_some, if_neg (by simpa using hfit)]
        · rw [if_neg h3]
          rfl
      · rw [if_neg h2]
        rfl
    · rw [if_neg h1]
      rfl

variable {size : Nat}

theorem encodedSize_eq_ok {count : Nat} :
    encodedSize count = .ok size ↔ size = tableBytes count ∧ tableBytes count ≤ I64_MAX := by
  rw [encodedSize_eq]
  split <;> simp [*, eq_comm]

theorem header_eq_ok {b : Bytes} {store : Id} : header b store = .ok size ↔
    HEADER ≤ b.length ∧ (b.slice 0 8 = magic ∧ u16At b 8 = 2 ∧ u16At b 10 = ENTRY) ∧
      (store ≠ .zero 16 ∧ FixedBytes.read 16 b 16 = store ∧ u64At b 32 ≠ 0) ∧
      isZero (b.slice 56 8) = true ∧ encodedSize (u64At b 40) = .ok size ∧ u64At b 48 = size := by
  unfold header
  rw [require_bind_eq_ok, require_bind_eq_ok, require_bind_eq_ok, require_bind_eq_ok,
    bind_eq_ok]
  simp only [require_bind_eq_ok]
  constructor
  · rintro ⟨h1, h2, h3, h4, a, h5, h6, h7⟩
    obtain rfl := Except.ok.inj h7
    exact ⟨h1, h2, h3, h4, h5, h6⟩
  · rintro ⟨h1, h2, h3, h4, h5, h6⟩
    exact ⟨h1, h2, h3, h4, size, h5, h6, rfl⟩

/-- The header is read from the first 64 bytes, its checksum apart. -/
theorem header_congr {a b : Bytes} {store : Id} (ha : header a store = .ok size)
    (hb : HEADER ≤ b.length)
    (h : ∀ o n, o + n ≤ 12 ∨ 16 ≤ o ∧ o + n ≤ 64 → b.slice o n = a.slice o n) :
    header b store = .ok size := by
  rw [header_eq_ok] at ha ⊢
  unfold u64At u16At FixedBytes.read at ha ⊢
  simp only [h 0 8 (by decide), h 8 2 (by decide), h 10 2 (by decide), h 16 16 (by decide),
    h 32 8 (by decide), h 40 8 (by decide), h 48 8 (by decide), h 56 8 (by decide)]
  exact ⟨hb, ha.2⟩

/-- An unsealed table with its header. -/
structure Framed (b : Bytes) (store : Id) (generation count : Nat) : Prop where
  header : header b store = .ok b.length
  generation : u64At b 32 = generation
  count : u64At b 40 = count

namespace Framed

variable {b : Bytes} {store : Id} {generation count : Nat}

theorem length (h : Framed b store generation count) : b.length = tableBytes count := by
  obtain ⟨-, -, -, -, hs, -⟩ := header_eq_ok.1 h.header
  rw [h.count] at hs
  exact (encodedSize_eq_ok.1 hs).1

theorem tableBytes_le (h : Framed b store generation count) : tableBytes count ≤ I64_MAX := by
  obtain ⟨-, -, -, -, hs, -⟩ := header_eq_ok.1 h.header
  rw [h.count] at hs
  exact (encodedSize_eq_ok.1 hs).2

theorem congr (h : Framed b store generation count) {c : Bytes} (hl : c.length = b.length)
    (hc : ∀ o n, o + n ≤ 12 ∨ 16 ≤ o ∧ o + n ≤ 64 → c.slice o n = b.slice o n) :
    Framed c store generation count := by
  have hb := (header_eq_ok.1 h.header).1
  refine ⟨?_, ?_, ?_⟩
  · rw [hl]
    exact header_congr h.header (by rw [hl]; exact hb) hc
  · rw [u64At, hc 32 8 (by decide)]
    exact h.generation
  · rw [u64At, hc 40 8 (by decide)]
    exact h.count

end Framed

theorem slice_fields {b : Bytes} (store : Id) (generation count size : Nat) (hb : HEADER ≤ b.length)
    (hz : b.slice 56 8 = zeros 8) :
    let h := Contents.fields b store generation count size
    (h.slice 0 8 = magic ∧ h.slice 8 2 = ofNat 2 2 ∧ h.slice 10 2 = ofNat 2 ENTRY) ∧
      h.slice 16 16 = store.1 ∧ h.slice 32 8 = ofNat 8 generation ∧ h.slice 40 8 = ofNat 8 count ∧
      h.slice 48 8 = ofNat 8 size ∧ h.slice 56 8 = zeros 8 := by
  have hstore : store.1.length = 16 := store.2
  have hmagic : magic.length = 8 := rfl
  have hin : ∀ k, k ≤ 64 → k ≤ b.length := fun k hk => hk.trans hb
  dsimp only
  unfold Contents.fields
  simp only [put64, put16]
  refine ⟨⟨?_, ?_, ?_⟩, ?_, ?_, ?_, ?_, ?_⟩ <;>
  simp only [slice_put_disjoint, slice_put_self, length_ofNat, length_put, hstore, hmagic, hin, hz,
    Nat.reduceAdd, Nat.reduceLeDiff, true_or, or_true]

theorem length_fields {b : Bytes} (store : Id) (generation count size : Nat) :
    (Contents.fields b store generation count size).length = b.length := by
  simp [Contents.fields]

theorem framed_fields {store : Id} {generation count : Nat} (hs : store ≠ .zero 16)
    (hg : generation ≠ 0 ∧ generation < U64) (hc : count < U64) (hfit : tableBytes count ≤ I64_MAX) :
    Framed (Contents.fields (zeros (tableBytes count)) store generation count (tableBytes count))
      store generation count := by
  have hle := le_tableBytes count
  simp only [HEADER, ENTRY] at hle
  have hlen : (zeros (tableBytes count)).length = tableBytes count := length_zeros _
  obtain ⟨⟨h0, h8, h10⟩, h16, h32, h40, h48, h56⟩ := slice_fields store generation count
    (tableBytes count) (b := zeros (tableBytes count)) (by rw [hlen]; simp only [HEADER]; omega)
    (slice_zeros (by omega))
  have hgen : u64At (Contents.fields (zeros (tableBytes count)) store generation count
      (tableBytes count)) 32 = generation := by rw [u64At, h32, toNat_ofNat8 hg.2]
  have hcount : u64At (Contents.fields (zeros (tableBytes count)) store generation count
      (tableBytes count)) 40 = count := by rw [u64At, h40, toNat_ofNat8 hc]
  refine ⟨header_eq_ok.2 ⟨?_, ⟨h0, ?_, ?_⟩, ⟨hs, FixedBytes.read_eq h16, by rw [hgen]; exact hg.1⟩,
    by rw [h56]; exact isZero_zeros _, ?_, ?_⟩, hgen, hcount⟩
  · rw [length_fields, hlen]
    simp only [HEADER]
    omega
  · rw [u16At, h8]
    exact toNat_ofNat2 (by decide)
  · rw [u16At, h10]
    exact toNat_ofNat2 (by decide)
  · rw [hcount, length_fields, hlen]
    exact encodedSize_eq_ok.2 ⟨rfl, hfit⟩
  · rw [u64At, h48, length_fields, hlen]
    exact toNat_ofNat8 (lt_of_le_of_lt hfit (by decide))

theorem drop_fields {n : Nat} (store : Id) (generation count size : Nat) (hn : HEADER ≤ n) :
    (Contents.fields (zeros n) store generation count size).drop HEADER = zeros (n - HEADER) := by
  have hstore : store.1.length = 16 := store.2
  have hmagic : magic.length = 8 := rfl
  have hz : (zeros n).slice 64 (n - 64) = zeros (n - 64) := slice_zeros (by simp only [HEADER] at hn; omega)
  rw [drop_eq_slice (n := n - HEADER) (by rw [length_fields, length_zeros]; omega)]
  unfold Contents.fields
  simp only [put64, put16, HEADER]
  simp only [slice_put_disjoint, length_ofNat, hstore, hmagic, hz, Nat.reduceAdd, Nat.reduceLeDiff,
    or_true]

/-- Why no buffer for a table of `count` records is to be had. -/
inductive Denied (memory : Nat → Bool) (count : Nat) : IoError → Prop
  | length : I64_MAX < tableBytes count → Denied memory count ⟨.invalidData, "catalog length overflow"⟩
  | memory : memory (tableBytes count) = false →
      Denied memory count ⟨.outOfMemory, "aligned buffer allocation denied"⟩

/-- A buffer is allocated unless the length or the memory runs out. -/
theorem allocate_spec (memory : Nat → Bool) {store : Id} {generation count : Nat}
    (hs : store ≠ .zero 16) (hg : generation ≠ 0 ∧ generation < U64) (hc : count < U64) :
    (∃ b, Contents.allocate memory store generation count = .ok b ∧
        Framed b store generation count ∧ b.drop HEADER = zeros (tableBytes count - HEADER)) ∨
      ∃ e, Contents.allocate memory store generation count = .error e ∧ Denied memory count e := by
  have hle : HEADER ≤ tableBytes count := Nat.le_of_add_right_le (le_tableBytes count)
  unfold Contents.allocate require
  rw [ensure_of ⟨hs, hg.1⟩, ok_bind, encodedSize_eq]
  by_cases hfit : tableBytes count ≤ I64_MAX
  · rw [if_pos hfit, ok_bind, buffer]
    cases hm : memory (tableBytes count) with
    | false => exact Or.inr ⟨_, rfl, .memory hm⟩
    | true => exact Or.inl ⟨_, rfl, framed_fields hs hg hc hfit, drop_fields _ _ _ _ hle⟩
  · rw [if_neg hfit]
    exact Or.inr ⟨_, rfl, .length (not_le.1 hfit)⟩

variable {memory : Nat → Bool}

theorem buffer_eq_ok {n : Nat} (h : memory n = true) :
    buffer memory n = .ok (zeros n) := if_pos h

theorem readRest_eq {b : Bytes} (hdvd : BLOCK_SIZE ∣ b.length)
    (hlen : BLOCK_SIZE ≤ b.length) (hm : memory b.length = true) :
    Contents.readRest memory b (b.slice 0 BLOCK_SIZE) b.length = .ok b := by
  unfold Contents.readRest
  by_cases hlong : b.length > BLOCK_SIZE
  · rw [if_pos hlong]
    have ha := Nat.mod_eq_zero_of_dvd (Nat.dvd_sub hdvd (dvd_refl BLOCK_SIZE))
    have hrest : readBytes b BLOCK_SIZE (b.length - BLOCK_SIZE) =
        .ok (b.slice BLOCK_SIZE (b.length - BLOCK_SIZE)) :=
      readBytes_eq_ok.2 ⟨decide_eq_true ⟨by omega, ha, by decide⟩, by omega, rfl⟩
    refine bind_eq_ok.2 ⟨_, buffer_eq_ok hm, bind_eq_ok.2 ⟨_, hrest, ?_⟩⟩
    exact congrArg Except.ok (put_put_slices hlen (length_zeros _))
  · rw [if_neg hlong]
    have heq : b.length = BLOCK_SIZE := by omega
    rw [← heq, slice_zero_length]

theorem eq_of_readRest {b r : Bytes} (hdvd : BLOCK_SIZE ∣ b.length)
    (hlen : BLOCK_SIZE ≤ b.length)
    (h : Contents.readRest memory b (b.slice 0 BLOCK_SIZE) b.length = .ok r) : r = b := by
  cases hm : memory b.length with
  | true => exact Except.ok.inj (h.symm.trans (readRest_eq hdvd hlen hm))
  | false =>
    unfold Contents.readRest at h
    split at h
    · rw [buffer, hm] at h
      cases h
    · next hlong =>
      have heq : b.length = BLOCK_SIZE := by omega
      rw [← heq, slice_zero_length] at h
      exact (Except.ok.inj h).symm

/-! ## Tables of entries -/

/-- The bytes after the header: the records, and zeros up to the end of the last block. -/
def body (es : List Entry) : Bytes :=
  es.flatMap Entry.slot ++ zeros (tableBytes es.length - HEADER - ENTRY * es.length)

theorem length_slots (es : List Entry) : (es.flatMap Entry.slot).length = ENTRY * es.length :=
  length_flatMap_records fun e _ => e.length_slot

theorem length_body (es : List Entry) : (body es).length = tableBytes es.length - HEADER := by
  have hle := le_tableBytes es.length
  rw [body, length_append, length_slots, length_zeros]
  omega

namespace Contents

/-- Sealed bytes of sorted valid entries. -/
structure Holds [Digest] (c : Contents) (store : Id) (generation : Nat) (es : List Entry) : Prop where
  framed : Framed c.bytes store generation es.length
  crc : u32At c.bytes CRC = checksum c.bytes CRC
  body : c.bytes.drop HEADER = body es
  fits : ∀ e ∈ es, e.kind.Fits
  valid : ∀ e ∈ es, e.validate store = .ok ()
  sorted : (es.map Entry.id).Pairwise (· < ·)

variable [Digest] {c : Contents} {store : Id} {generation : Nat} {es : List Entry}

theorem holds_sealBytes {b : Bytes} (hb : Framed b store generation es.length)
    (hf : ∀ e ∈ es, e.kind.Fits) (hv : ∀ e ∈ es, e.validate store = .ok ())
    (hs : (es.map Entry.id).Pairwise (· < ·)) :
    (sealBytes (b.take HEADER ++ Catalog.body es)).Holds store generation es := by
  have hlen : HEADER ≤ b.length := (header_eq_ok.1 hb.header).1
  have hhead : (b.take HEADER).length = HEADER := by rw [length_take, Nat.min_eq_left hlen]
  have hframed : Framed (b.take HEADER ++ Catalog.body es) store generation es.length := by
    refine hb.congr ?_ fun o n h => ?_
    · rw [length_append, hhead, length_body, hb.length, Nat.add_sub_of_le (hb.length ▸ hlen)]
    · have hon : o + n ≤ HEADER := by
        simp only [HEADER]
        omega
      rw [slice_append_left (by rw [hhead]; exact hon), take_eq_slice, slice_slice hon, zero_add]
  have hbody : (b.take HEADER ++ Catalog.body es).drop HEADER = Catalog.body es :=
    drop_left' hhead
  have hlen' := (header_eq_ok.1 hframed.header).1
  generalize b.take HEADER ++ Catalog.body es = b' at hframed hbody hlen'
  refine ⟨hframed.congr length_put32 fun o n h => slice_put32 ?_, ?_, ?_, hf, hv, hs⟩
  · simp only [CRC]
    omega
  · rw [sealBytes, u32At_put32 (le_trans (by decide) hlen') (checksum_lt _ _), checksum_put32_self]
  · rw [sealBytes, drop_eq_slice (n := b'.length - HEADER) (by rw [length_put32]; omega),
      slice_put32 (Or.inr (by decide)), ← drop_eq_slice (by omega), hbody]

namespace Holds

variable (h : c.Holds store generation es)

include h

theorem store_eq : c.store = store := (header_eq_ok.1 h.framed.header).2.2.1.2.1

theorem store_ne : store ≠ .zero 16 := (header_eq_ok.1 h.framed.header).2.2.1.1

theorem generation_eq : c.generation = generation := h.framed.generation

theorem len_eq : c.len = es.length := h.framed.count

theorem length_eq : c.bytes.length = tableBytes es.length := h.framed.length

theorem records_eq : c.records = es.map Entry.slot := by
  have hrec : c.records = (range es.length).map fun i => c.bytes.slice (HEADER + ENTRY * i) ENTRY :=
    h.len_eq ▸ rfl
  rw [hrec]
  refine map_slice_records (fun e _ => e.length_slot) fun o n hn => ?_
  have hdrop : c.bytes.slice (HEADER + o) n = slice (c.bytes.drop HEADER) o n := by
    unfold slice
    rw [drop_drop]
  rw [hdrop, h.body, Catalog.body, slice_append_left hn]

theorem entries_eq : c.entries = es := by
  rw [entries, h.records_eq, h.store_eq, map_map]
  conv => rhs; rw [← map_id es]
  exact map_congr_left fun e he => Entry.decode_slot (h.fits e he) (h.valid e he)

theorem position_eq (id : Id) : c.position id = binarySearch (es.map Entry.id) id := by
  rw [position, h.records_eq, map_map]
  congr 1
  exact map_congr_left fun e _ => e.read_slot

theorem validateRecords_eq : validateRecords store c.records (.zero 16) = .ok () := by
  rw [h.records_eq]
  have hfirst : ∀ e ∈ es, FixedBytes.zero 16 < e.id := fun e he =>
    lt_of_le_of_ne (FixedBytes.zero_le _) (Ne.symm (Entry.id_ne_zero (h.valid e he)))
  have hfits := h.fits
  have hvalid := h.valid
  have hsorted := h.sorted
  generalize FixedBytes.zero 16 = previous at hfirst
  clear h
  induction es generalizing previous with
  | nil => rfl
  | cons e es ih =>
    have hdec := Entry.decode_slot (hfits e (by simp)) (hvalid e (by simp))
    obtain ⟨hk, hr⟩ := e.canonical_slot
    rw [map_cons, pairwise_cons] at hsorted
    rw [map_cons, validateRecords]
    refine require_bind_eq_ok.2 ⟨hk, require_bind_eq_ok.2 ⟨hr, ?_⟩⟩
    rw [hdec]
    refine bind_eq_ok.2 ⟨(), hvalid e (by simp), require_bind_eq_ok.2 ⟨hfirst e (by simp), ?_⟩⟩
    refine ih (fun x hx => hfits x (mem_cons_of_mem e hx))
      (fun x hx => hvalid x (mem_cons_of_mem e hx)) hsorted.2 e.id fun x hx => ?_
    exact hsorted.1 _ (mem_map_of_mem hx)

theorem validate_eq : c.validate store = .ok () := by
  refine bind_eq_ok.2 ⟨_, h.framed.header, require_bind_eq_ok.2 ⟨rfl,
    require_bind_eq_ok.2 ⟨h.crc, bind_eq_ok.2 ⟨(), h.validateRecords_eq, require_eq_ok.2 ?_⟩⟩⟩⟩
  rw [← drop_drop, h.body, h.len_eq, Catalog.body, mul_comm, drop_left' (length_slots es)]
  exact isZero_zeros _

theorem dvd_length : BLOCK_SIZE ∣ c.bytes.length := by
  rw [h.length_eq, tableBytes]
  exact Nat.dvd_mul_left _ _

theorem block_le_length : BLOCK_SIZE ≤ c.bytes.length :=
  Nat.le_of_dvd (lt_of_lt_of_le (by decide) (header_eq_ok.1 h.framed.header).1) h.dvd_length

theorem header_slice : header (c.bytes.slice 0 BLOCK_SIZE) store = .ok c.bytes.length := by
  have hlen := h.block_le_length
  refine header_congr h.framed.header (by rw [length_slice_of_le (by omega)]; decide) fun o n hon => ?_
  rw [slice_slice (by simp only [BLOCK_SIZE]; omega), zero_add]

theorem readBytes_eq : readBytes c.bytes 0 BLOCK_SIZE = .ok (c.bytes.slice 0 BLOCK_SIZE) :=
  readBytes_eq_ok.2 ⟨by decide, by rw [zero_add]; exact h.block_le_length, rfl⟩

theorem read_eq {memory : Nat → Bool} (hm : memory BLOCK_SIZE = true)
    (hm' : memory c.bytes.length = true) : read memory c.bytes store = .ok c :=
  require_bind_eq_ok.2 ⟨h.block_le_length, bind_eq_ok.2 ⟨_, buffer_eq_ok hm,
    bind_eq_ok.2 ⟨_, h.readBytes_eq, bind_eq_ok.2 ⟨_, h.header_slice,
      require_bind_eq_ok.2 ⟨rfl, bind_eq_ok.2 ⟨c.bytes,
        readRest_eq h.dvd_length h.block_le_length hm',
        bind_eq_ok.2 ⟨(), h.validate_eq, rfl⟩⟩⟩⟩⟩⟩⟩

theorem eq_of_read {memory : Nat → Bool} {c' : Contents}
    (hr : read memory c.bytes store = .ok c') : c' = c := by
  obtain ⟨-, hr⟩ := require_bind_eq_ok.1 hr
  obtain ⟨_, -, hr⟩ := bind_eq_ok.1 hr
  obtain ⟨first, hfirst, hr⟩ := bind_eq_ok.1 hr
  obtain rfl := Except.ok.inj (h.readBytes_eq.symm.trans hfirst)
  obtain ⟨size, hsize, hr⟩ := bind_eq_ok.1 hr
  obtain rfl := Except.ok.inj (h.header_slice.symm.trans hsize)
  obtain ⟨-, hr⟩ := require_bind_eq_ok.1 hr
  obtain ⟨b, hb, hr⟩ := bind_eq_ok.1 hr
  obtain ⟨_, -, hr⟩ := bind_eq_ok.1 hr
  obtain rfl := eq_of_readRest h.dvd_length h.block_le_length hb
  exact (Except.ok.inj hr).symm

end Holds

/-! ## Initial tables -/

omit [Digest] in
/-- The record loop accepts sorted valid entries only, and stores them one after the other. -/
theorem fill_eq {store : Id} : ∀ {es : List Entry} (done : List Entry) {previous : Id} {b head : Bytes} {k : Nat}
    {r : Bytes}, fill store es done.length previous b = .ok r → head.length = HEADER →
    b = head ++ done.flatMap Entry.slot ++ zeros (ENTRY * es.length + k) →
    r = head ++ (done ++ es).flatMap Entry.slot ++ zeros k ∧ (∀ e ∈ es, e.validate store = .ok ()) ∧
      (previous :: es.map Entry.id).Pairwise (· < ·)
  | [], done, previous, b, head, k, r, h, _, hb => by
    obtain rfl := Except.ok.inj h
    simpa using hb
  | e :: es, done, previous, b, head, k, r, h, hh, hb => by
    obtain ⟨_, hv, h⟩ := bind_eq_ok.1 h
    obtain ⟨hlt, h⟩ := require_bind_eq_ok.1 h
    have hoff : HEADER + done.length * ENTRY = (head ++ done.flatMap Entry.slot).length := by
      rw [length_append, hh, length_slots, mul_comm]
    have hsplit : b = head ++ done.flatMap Entry.slot ++ zeros ENTRY ++
        zeros (ENTRY * es.length + k) := by
      rw [hb, append_assoc _ (zeros ENTRY), ← zeros_add, length_cons, Nat.mul_succ]
      congr 2
      omega
    have hslice : b.slice (HEADER + done.length * ENTRY) ENTRY = zeros ENTRY := by
      have := slice_append_mid (head ++ done.flatMap Entry.slot) (zeros ENTRY)
        (zeros (ENTRY * es.length + k))
      rwa [← hsplit, ← hoff, length_zeros] at this
    have hput : b.put (HEADER + done.length * ENTRY) e.slot =
        head ++ (done ++ [e]).flatMap Entry.slot ++ zeros (ENTRY * es.length + k) := by
      rw [hoff, hsplit, put_append_mid (by rw [Entry.length_slot, length_zeros]), flatMap_append,
        flatMap_singleton, ← append_assoc]
    dsimp only at h
    rw [hslice] at h
    have hlen : done.length + 1 = (done ++ [e]).length := by simp
    rw [hlen] at h
    obtain ⟨hr, hvs, hsorted⟩ := fill_eq _ h hh hput
    refine ⟨by simpa using hr, ?_, ?_⟩
    · intro x hx
      rcases mem_cons.1 hx with rfl | hx
      · exact hv
      · exact hvs x hx
    · rw [map_cons]
      refine pairwise_cons.2 ⟨?_, hsorted⟩
      intro i hi
      rcases mem_cons.1 hi with rfl | hi
      · exact hlt
      · exact hlt.trans ((pairwise_cons.1 hsorted).1 i hi)

theorem holds_initial {memory : Nat → Bool} (hf : ∀ e ∈ es, e.kind.Fits)
    (h : initial memory store es = .ok c) : c.Holds store 1 es := by
  obtain ⟨b, hb, h⟩ := bind_eq_ok.1 h
  obtain ⟨r, hr, h⟩ := bind_eq_ok.1 h
  obtain rfl := Except.ok.inj h
  obtain ⟨⟨hs, -⟩, hsize⟩ := require_bind_eq_ok.1 hb
  obtain ⟨size, hsize, -⟩ := bind_eq_ok.1 hsize
  have hle := (le_tableBytes es.length).trans (encodedSize_eq_ok.1 hsize).2
  have hcount : es.length < U64 := by
    simp only [HEADER, ENTRY, I64_MAX, U64] at hle ⊢
    omega
  rcases allocate_spec memory hs ⟨one_ne_zero, by decide⟩ hcount with
    ⟨b', hb', hframed, hz⟩ | ⟨e, he, -⟩
  · obtain rfl := Except.ok.inj (hb'.symm.trans hb)
    have hhead : (b'.take HEADER).length = HEADER := by
      rw [length_take, Nat.min_eq_left (header_eq_ok.1 hframed.header).1]
    have hroom := le_tableBytes es.length
    obtain ⟨hr, hv, hsorted⟩ := fill_eq (k := tableBytes es.length - HEADER - ENTRY * es.length) []
      hr hhead (by
        rw [flatMap_nil, append_nil, Nat.add_sub_cancel' (by omega), ← hz,
          take_append_drop])
    rw [hr, nil_append, append_assoc]
    exact holds_sealBytes hframed hf hv (pairwise_cons.1 hsorted).2
  · rw [he] at hb
    cases hb

/-! ## Changes -/

variable {s : Splice}

omit [Digest] in
/-- The copies of a change, by the parts of the two tables. -/
theorem splice_parts {b : Bytes} (old new p g q z : Bytes) (k : Nat)
    (hc : c.bytes = old ++ p ++ g ++ q ++ z) (hold : old.length = HEADER)
    (hb : b = new ++ zeros (p.length + s.added * ENTRY + q.length + k)) (hnew : new.length = HEADER)
    (hp : s.position * ENTRY = p.length) (hg : s.removed * ENTRY = g.length)
    (hq : c.len * ENTRY = p.length + g.length + q.length) :
    c.splice s b = new ++ p ++ s.inserted.toList.flatMap Entry.slot ++ q ++ zeros k := by
  have n1 : HEADER + p.length - HEADER = p.length := by omega
  have n2 : HEADER + (p.length + g.length + q.length) - (HEADER + p.length + g.length) = q.length := by
    omega
  have key := put_around new old p g q z (s.added * ENTRY) k
  rw [← hb, ← hc, hold, hnew] at key
  unfold splice
  simp only [hp, hg, hq, n1, n2, key]
  unfold Splice.added
  cases s.inserted with
  | none => simp [zeros]
  | some entry =>
    have hgap : (if (some entry).isSome then 1 else 0) * ENTRY = ENTRY := rfl
    have hslice : slice (new ++ p ++ zeros ENTRY ++ (q ++ zeros k)) (HEADER + p.length) ENTRY =
        zeros ENTRY := by
      have := slice_append_mid (new ++ p) (zeros ENTRY) (q ++ zeros k)
      rwa [length_append, hnew, length_zeros] at this
    have hput : put (new ++ p ++ zeros ENTRY ++ (q ++ zeros k)) (HEADER + p.length) entry.slot =
        new ++ p ++ entry.slot ++ (q ++ zeros k) := by
      have := put_append_mid (a := new ++ p) (v := zeros ENTRY) (w := entry.slot) (c := q ++ zeros k)
        (by rw [Entry.length_slot, length_zeros])
      rwa [length_append, hnew] at this
    simp only [hgap, Option.toList_some, flatMap_singleton]
    rw [append_assoc _ q, append_assoc _ q, hslice]
    exact hput

/-- The spliced buffer holds the records around the removed ones and the inserted one. -/
theorem splice_eq {pre gone post : List Entry} (h : c.Holds store generation (pre ++ gone ++ post))
    (hp : s.position = pre.length) (hr : s.removed = gone.length) {b : Bytes}
    {generation' : Nat} (hb : Framed b store generation' (pre ++ s.inserted.toList ++ post).length)
    (hz : b.drop HEADER = zeros (b.length - HEADER)) :
    c.splice s b = b.take HEADER ++ Catalog.body (pre ++ s.inserted.toList ++ post) := by
  have hle := le_tableBytes (pre ++ s.inserted.toList ++ post).length
  rw [← hb.length] at hle
  have hadd : s.added = s.inserted.toList.length := by
    unfold Splice.added
    cases s.inserted <;> rfl
  have hroom : b.length - HEADER = (pre.flatMap Entry.slot).length + s.added * ENTRY +
      (post.flatMap Entry.slot).length +
        (b.length - HEADER - ENTRY * (pre ++ s.inserted.toList ++ post).length) := by
    rw [length_slots, length_slots, hadd]
    simp only [length_append, HEADER, ENTRY] at hle ⊢
    omega
  rw [splice_parts (c.bytes.take HEADER) (b.take HEADER) (pre.flatMap Entry.slot)
    (gone.flatMap Entry.slot) (post.flatMap Entry.slot)
    (zeros (tableBytes (pre ++ gone ++ post).length - HEADER - ENTRY * (pre ++ gone ++ post).length))
    (b.length - HEADER - ENTRY * (pre ++ s.inserted.toList ++ post).length)]
  · rw [Catalog.body, hb.length, flatMap_append, flatMap_append]
    simp only [append_assoc]
  · have hbody := h.body
    rw [Catalog.body, flatMap_append, flatMap_append] at hbody
    conv => lhs; rw [← take_append_drop HEADER c.bytes, hbody]
    simp only [append_assoc]
  · have := (header_eq_ok.1 h.framed.header).1
    rw [length_take, Nat.min_eq_left this]
  · rw [← hroom, ← hz, take_append_drop]
  · rw [length_take]
    omega
  · rw [hp, length_slots, mul_comm]
  · rw [hr, length_slots, mul_comm]
  · rw [h.len_eq, length_slots, length_slots, length_slots]
    simp only [length_append, ENTRY]
    omega
/-- Why a change that the map allows is still refused. -/
inductive Exhausted (memory : Nat → Bool) (generation count : Nat) : IoError → Prop
  | generation : generation + 1 = U64 →
      Exhausted memory generation count ⟨.other, "catalog generations exhausted"⟩
  | denied {e : IoError} : Denied memory count e → Exhausted memory generation count e

/-- A located change gives the table of the changed entries, short of exhaustion. -/
theorem Holds.changed_eq {pre gone post : List Entry}
    (h : c.Holds store generation (pre ++ gone ++ post)) {change : Change}
    (hl : c.locate change = .ok s) (hp : s.position = pre.length) (hr : s.removed = gone.length)
    (hf : ∀ e ∈ pre ++ s.inserted.toList ++ post, e.kind.Fits)
    (hv : ∀ e ∈ pre ++ s.inserted.toList ++ post, e.validate store = .ok ())
    (hs : ((pre ++ s.inserted.toList ++ post).map Entry.id).Pairwise (· < ·)) (memory : Nat → Bool) :
    (∃ c', c.changed memory change = .ok c' ∧
        c'.Holds store (generation + 1) (pre ++ s.inserted.toList ++ post)) ∨
      ∃ e, c.changed memory change = .error e ∧
        Exhausted memory generation (pre ++ s.inserted.toList ++ post).length e := by
  have hadd : s.added = s.inserted.toList.length := by
    unfold Splice.added
    cases s.inserted <;> rfl
  have hcount : c.len - s.removed + s.added = (pre ++ s.inserted.toList ++ post).length := by
    rw [h.len_eq, hr, hadd]
    simp only [length_append]
    omega
  have hone : s.inserted.toList.length ≤ 1 := by cases s.inserted <;> simp
  have hroom : c.len - s.removed + s.added < U64 := by
    have hlen := (le_tableBytes _).trans h.framed.tableBytes_le
    rw [h.len_eq, hadd]
    simp only [HEADER, ENTRY, I64_MAX, U64] at hlen ⊢
    omega
  have hgen : generation < U64 := h.generation_eq ▸ u64At_lt _ _
  unfold changed checkedAdd
  rw [hl, ok_bind, if_pos hroom, h.generation_eq, h.store_eq, hcount]
  by_cases hlast : generation + 1 < U64
  · rw [if_pos hlast]
    dsimp only
    rcases allocate_spec memory h.store_ne ⟨Nat.succ_ne_zero generation, hlast⟩ (hcount ▸ hroom) with
      ⟨b, hb, hframed, hz⟩ | ⟨e, he, hdenied⟩
    · have hz' : b.drop HEADER = zeros (b.length - HEADER) := by rw [hz, hframed.length]
      have hsplice := splice_eq h hp hr hframed hz'
      rw [hb, ok_bind]
      refine Or.inl ⟨_, rfl, ?_⟩
      rw [hsplice]
      exact holds_sealBytes hframed hf hv hs
    · rw [he]
      exact Or.inr ⟨e, rfl, .denied hdenied⟩
  · rw [if_neg hlast]
    exact Or.inr ⟨_, rfl, .generation (by omega)⟩

end Contents

end Cas.Catalog
