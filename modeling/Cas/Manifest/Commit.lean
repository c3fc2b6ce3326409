import Cas.Manifest.Walk

/-!
# COMMIT pages

A COMMIT that passes its own check encodes, and the page decodes to the same COMMIT
(`Commit.decode_encode`).
-/

namespace Cas.Manifest

open Bytes

/-- Fields that fit their place in the page. -/
structure Commit.Fits (c : Commit) : Prop where
  generation : c.generation < U64
  root : c.root.offset < U64
  durable : c.durable < U64
  imageBytes : c.imageBytes < U64

variable [Digest]

theorem framed_finish (kind : Kind) (level count : Nat) {offset imageBytes : Nat} {b : Bytes}
    (ho : offset < U64) (ha : offset % BLOCK_SIZE = 0)
    (hi : imageBytes ≠ 0 ∧ imageBytes % BLOCK_SIZE = 0) (hb : b.length = BLOCK_SIZE)
    (hlow : ∀ o n, o + n ≤ 64 → b.slice o n = (start kind offset level count).slice o n) :
    Page.Framed (put32 b 56 (checksum b 56)) offset imageBytes := by
  have hz : (zeros BLOCK_SIZE).length = 4096 := length_zeros _
  have hzero : ∀ o n, o + n ≤ 4096 → (zeros BLOCK_SIZE).slice o n = zeros n :=
    fun o n h => slice_zeros h
  have hm : Page.magic.length = 8 := rfl
  have low : ∀ o n, o + n ≤ 56 ∨ (60 ≤ o ∧ o + n ≤ 64) →
      (put32 b 56 (checksum b 56)).slice o n = (start kind offset level count).slice o n := by
    intro o n h
    rw [slice_put32 (by omega), hlow o n (by omega)]
  refine ⟨by simpa using hb, ⟨?_, ?_⟩, ?_, ⟨?_, ha⟩, hi, ⟨?_, ?_⟩⟩
  · rw [low _ _ (by omega)]
    unfold start
    generalize zeros BLOCK_SIZE = z at hz hzero
    simp only [put64, put16]
    simp only [slice_put_disjoint, slice_put_self, length_ofNat, length_put, hm, hz, Nat.reduceAdd,
      Nat.reduceLeDiff, true_or]
  · rw [u16At, low _ _ (by omega)]
    unfold start
    generalize zeros BLOCK_SIZE = z at hz hzero
    simp only [put64, put16]
    simp only [slice_put_disjoint, slice_put_self, length_ofNat, length_put, hz, Nat.reduceAdd,
      Nat.reduceLeDiff, true_or]
    exact toNat_ofNat2 (by decide)
  · rw [u32At_put32 (by rw [hb]; decide) (checksum_lt _ _), checksum_put32_self]
  · rw [u64At, low _ _ (by omega)]
    unfold start
    generalize zeros BLOCK_SIZE = z at hz hzero
    simp only [put64, put16]
    simp only [slice_put_self, length_ofNat, length_put, hz, Nat.reduceAdd, Nat.reduceLeDiff]
    exact toNat_ofNat8 ho
  · rw [low _ _ (by omega)]
    unfold start
    generalize zeros BLOCK_SIZE = z at hz hzero
    simp only [put64, put16]
    simp only [slice_put_disjoint, length_ofNat, hm, Nat.reduceAdd, Nat.reduceLeDiff, or_true, hzero,
      isZero_zeros]
  · rw [u32At, low _ _ (by omega)]
    unfold start
    generalize zeros BLOCK_SIZE = z at hz hzero
    simp only [put64, put16]
    simp only [slice_put_disjoint, length_ofNat, hm, Nat.reduceAdd, Nat.reduceLeDiff, or_true, hzero]
    decide

namespace Commit

variable {c : Commit} (offset : Nat)

omit [Digest] in
theorem length_fields : (c.fields offset).length = BLOCK_SIZE := by
  simp only [fields, length_put64, length_put, length_start]

omit [Digest] in
theorem slice_fields_low (o n : Nat) (h : o + n ≤ 64) :
    (c.fields offset).slice o n = (start .commit offset c.root.height 0).slice o n := by
  have h1 : c.store.1.length = 16 := c.store.2
  have h2 : c.image.1.length = 16 := c.image.2
  simp only [fields, put64]
  rw [slice_put_disjoint (Or.inl (by omega)), slice_put_disjoint (Or.inl (by omega)),
    slice_put_disjoint (Or.inl (by omega)), slice_put_disjoint (Or.inl (by omega)),
    slice_put_disjoint (Or.inl (by omega)), slice_put_disjoint (Or.inl (by omega))]

omit [Digest] in
theorem slice_fields :
    (c.fields offset).slice 64 16 = c.store.1 ∧ (c.fields offset).slice 80 16 = c.image.1 ∧
      (c.fields offset).slice 96 8 = ofNat 8 c.generation ∧
      (c.fields offset).slice 104 8 = ofNat 8 c.root.offset ∧
      (c.fields offset).slice 112 8 = ofNat 8 c.durable ∧
      (c.fields offset).slice 120 8 = ofNat 8 c.imageBytes := by
  have hs : (start .commit offset c.root.height 0).length = 4096 := length_start _ _ _ _
  have h1 : c.store.1.length = 16 := c.store.2
  have h2 : c.image.1.length = 16 := c.image.2
  unfold fields
  generalize start .commit offset c.root.height 0 = z at hs
  simp only [put64]
  refine ⟨?_, ?_, ?_, ?_, ?_, ?_⟩ <;>
  simp only [slice_put_disjoint, slice_put_self, length_ofNat, length_put, h1, h2, hs, Nat.reduceAdd,
    Nat.reduceLeDiff, true_or]

omit [Digest] in
theorem slice_fields_high : (c.fields offset).slice 128 3968 = zeros 3968 := by
  have h1 : c.store.1.length = 16 := c.store.2
  have h2 : c.image.1.length = 16 := c.image.2
  have hm : Page.magic.length = 8 := rfl
  have hz : (zeros BLOCK_SIZE).slice 128 3968 = zeros 3968 := slice_zeros (by decide)
  unfold fields start
  generalize zeros BLOCK_SIZE = z at hz
  simp only [put64, put16]
  simp only [slice_put_disjoint, length_ofNat, h1, h2, hm, Nat.reduceAdd, Nat.reduceLeDiff, or_true, hz]

omit [Digest] in
theorem reserved_fields (x : Nat) : isZero ((put32 (c.fields offset) 56 x).drop 128) = true := by
  rw [drop_eq_slice (n := 3968) (by rw [length_put32, length_fields offset]), slice_put32 (by omega),
    slice_fields_high]
  exact isZero_zeros _

omit [Digest] in
theorem readCommit_fields (kind : Kind) (count x : Nat) (hf : c.Fits) (hh : c.root.height < 2 ^ 16) :
    (Page.mk (put32 (c.fields offset) 56 x) kind count).readCommit = c := by
  have hlevel : u16At (put32 (c.fields offset) 56 x) 12 = c.root.height := by
    have hl := (fields_start .commit offset hh (show 0 < 2 ^ 16 by decide)).2.1
    rw [u16At] at hl ⊢
    rw [slice_put32 (by omega), slice_fields_low offset 12 2 (by decide), hl]
  obtain ⟨h1, h2, h3, h4, h5, h6⟩ := slice_fields (c := c) offset
  have low : ∀ o n, 60 ≤ o → (put32 (c.fields offset) 56 x).slice o n = (c.fields offset).slice o n :=
    fun o n h => slice_put32 (by omega)
  have hword : ∀ o v, 60 ≤ o → (c.fields offset).slice o 8 = ofNat 8 v → v < U64 →
      u64At (put32 (c.fields offset) 56 x) o = v := by
    intro o v ho hs hv
    rw [u64At, low o 8 ho, hs, toNat_ofNat8 hv]
  have hstore : FixedBytes.read 16 (put32 (c.fields offset) 56 x) 64 = c.store :=
    FixedBytes.read_eq (by rw [low 64 16 (by decide), h1])
  have himage : FixedBytes.read 16 (put32 (c.fields offset) 56 x) 80 = c.image :=
    FixedBytes.read_eq (by rw [low 80 16 (by decide), h2])
  unfold Page.readCommit Page.level
  dsimp only
  rw [hstore, himage, hword 96 _ (by decide) h3 hf.generation, hword 104 _ (by decide) h4 hf.root,
    hword 112 _ (by decide) h5 hf.durable, hword 120 _ (by decide) h6 hf.imageBytes, hlevel]

theorem decode_encode {offset : Nat} (hf : c.Fits) (ho : offset < U64) (hv : c.validate offset = .ok ()) :
    ∃ b p, c.encode offset = .ok b ∧ Page.decode b offset c.imageBytes = .ok p ∧
      p.kind = .commit ∧ p.readCommit = c := by
  obtain ⟨⟨⟨hne, ha⟩, -, -, -, hi⟩, hroot⟩ := Commit.validate_eq_ok.1 hv
  have hh : c.root.height < 2 ^ 16 := by
    split at hroot
    · omega
    · simp only [MAX_HEIGHT] at hroot
      omega
  have hframed := framed_finish .commit c.root.height 0 ho ha hi
    (b := c.fields offset) (length_fields offset) (slice_fields_low offset)
  have hread := readCommit_fields offset .commit 0 (checksum (c.fields offset) 56) hf hh
  have hres := reserved_fields (c := c) offset (checksum (c.fields offset) 56)
  have hfield : ∀ o, o + 2 ≤ 56 → u16At (put32 (c.fields offset) 56 (checksum (c.fields offset) 56)) o
      = u16At (start .commit offset c.root.height 0) o := by
    intro o h
    rw [u16At, slice_put32 (by omega), slice_fields_low offset o 2 (by omega), u16At]
  obtain ⟨hk, -, hcount⟩ := fields_start .commit offset hh
    (show 0 < 2 ^ 16 by decide)
  have henc : c.encode offset = finish (c.fields offset) offset c.imageBytes := rfl
  unfold finish at henc
  generalize put32 (c.fields offset) 56 (checksum (c.fields offset) 56) = b at *
  have hdec : Page.decode b offset c.imageBytes = .ok ⟨b, .commit, 0⟩ := by
    refine Page.decode_eq_ok_iff.2 ⟨hframed, ?_, ?_, ?_, ?_⟩
    · rw [hfield 10 (by decide), hk]
      rfl
    · rw [hfield 14 (by decide), hcount]
    · simp [hne]
    · refine Except.bind_eq_ok.2 ⟨c, ?_, require_bind_eq_ok.2 ⟨⟨rfl, rfl⟩, ?_⟩⟩
      · rw [Page.commit, hread]
        exact require_bind_eq_ok.2 ⟨rfl, rfl⟩
      · exact Except.bind_eq_ok.2 ⟨(), hv, require_eq_ok.2 hres⟩
  refine ⟨b, ⟨b, .commit, 0⟩, ?_, hdec, rfl, hread⟩
  rw [henc]
  exact Except.bind_eq_ok.2 ⟨_, hdec, rfl⟩

end Commit

end Cas.Manifest
