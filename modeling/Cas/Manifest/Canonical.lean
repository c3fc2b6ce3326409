import Cas.Manifest.Owner

/-!
# The page format is lossless and canonical

What the encoders accept reads back (`leafInto_eq_ok`, `branchInto_eq_ok`, `Commit.encode_eq_ok`,
`FileHeader.decode_encode`), and a page that decodes is what the encoder of its kind writes for its
contents (`Page.encode_decode`).
-/

namespace Cas.Manifest

open Bytes List
open Except (bind_eq_ok)

/-! ## Entries -/

theorem Extent.encode_decode {slot : Bytes} (hl : slot.length = 64) (hc : Page.ExtentCanonical slot) :
    (decode slot).encode = slot := by
  obtain ⟨⟨h48, hpad⟩, hkind⟩ := hc
  have hz : (zeros 64).length = 64 := length_zeros 64
  have hzero : ∀ o n, o + n ≤ 64 → (zeros 64).slice o n = zeros n := fun o n h => slice_zeros h
  have hw : ∀ o, o + 8 ≤ 64 → ofNat 8 (u64At slot o) = slot.slice o 8 :=
    fun o ho => ofNat_u64At (by omega)
  have hgap : zeros 4 = slot.slice 48 4 := by
    rw [← ofNat_u32At (by omega), h48]
    rfl
  have htail : zeros 10 = slot.slice 54 10 := by
    have h := isZero_iff.1 hpad
    rw [length_drop, hl, drop_eq_slice (show slot.length = 54 + 10 by omega)] at h
    exact h.symm
  have htag : ∀ v, u16At slot 52 = v → ofNat 2 v = slot.slice 52 2 := by
    rintro v rfl
    exact ofNat_u16At (by omega)
  refine eq_of_agree [8, 8, 32, 4, 2, 10] (by simp) hl ?_
  rcases hkind with ⟨h, -⟩ | ⟨h, hhash⟩
  · -- a chunk: the hash field is read back
    have hread : (FixedBytes.read 32 slot 16).1 = slot.slice 16 32 :=
      FixedBytes.read_val (by omega)
    have hhl : (slot.slice 16 32).length = 32 := length_slice_of_le (by omega)
    unfold encode decode
    simp only [if_pos h, hread, Option.isSome_some, if_true, put64, put16]
    generalize zeros 64 = z at hz hzero
    refine ⟨?_, ?_, ?_, ?_, ?_, ?_, trivial⟩ <;>
    simp only [slice_put_disjoint, slice_put_self, length_ofNat, length_put, hz, hzero, hhl,
      Nat.reduceAdd, Nat.reduceLeDiff, true_or, or_true] <;>
    first
    | exact hw _ (by decide)
    | exact hgap
    | exact htag 1 h
    | exact htail
  · -- ZERO: the hash field is zero
    have hne : ¬ u16At slot 52 = 1 := by omega
    unfold encode decode
    simp only [if_neg hne, Option.isSome_none, Bool.false_eq_true, if_false, put64, put16]
    generalize zeros 64 = z at hz hzero
    refine ⟨?_, ?_, ?_, ?_, ?_, ?_, trivial⟩ <;>
    simp only [slice_put_disjoint, slice_put_self, length_ofNat, length_put, hz, hzero,
      Nat.reduceAdd, Nat.reduceLeDiff, true_or, or_true] <;>
    first
    | exact hw _ (by decide)
    | exact hhash.symm
    | exact hgap
    | exact htag 2 h
    | exact htail

theorem Child.encode_decode {slot : Bytes} (hl : slot.length = 16) : (decode slot).encode = slot := by
  have hz : (zeros 16).length = 16 := length_zeros 16
  refine eq_of_agree [8, 8] (by simp) hl ?_
  unfold encode decode
  generalize zeros 16 = z at hz
  simp only [put64]
  refine ⟨?_, ?_, trivial⟩ <;>
  simp only [slice_put_disjoint, slice_put_self, length_ofNat, length_put, hz, Nat.reduceAdd,
    Nat.reduceLeDiff, true_or] <;>
  exact ofNat_u64At (by omega)

/-! ## Pages -/

theorem Kind.tag_of_ofTag {n : Nat} {k : Kind} (h : Kind.ofTag n = some k) : k.tag = n := by
  unfold ofTag at h
  split at h <;> cases h <;> rfl

variable [Digest]

namespace Page

variable {b c : Bytes} {offset imageBytes : Nat} {p : Page} (h : decode b offset imageBytes = .ok p)
include h

/-- An encoder that writes the header fields of an accepted page and the same bytes after them
reproduces the page. -/
theorem finish_of_decode (hl : c.length = BLOCK_SIZE)
    (hlow : ∀ o n, o + n ≤ 64 → c.slice o n = (start p.kind offset p.level p.count).slice o n)
    (hbody : c.slice 64 4032 = b.slice 64 4032) : finish c offset imageBytes = .ok b := by
  have hf := framed_of_decode h
  have hbl : b.length = 4096 := hf.length
  have hl : c.length = 4096 := hl
  obtain ⟨-, htag, -, -, -⟩ := decode_eq_ok_iff.1 h
  have hz : (zeros BLOCK_SIZE).length = 4096 := length_zeros _
  have hzero : ∀ o n, o + n ≤ 4096 → (zeros BLOCK_SIZE).slice o n = zeros n :=
    fun o n h => slice_zeros h
  have hm : magic.length = 8 := rfl
  have hh : ∀ o, o + 2 ≤ 4096 → ofNat 2 (u16At b o) = b.slice o 2 := fun o ho => ofNat_u16At (by omega)
  have hversion : ofNat 2 2 = b.slice 8 2 := by rw [← hh 8 (by decide), hf.version.2]
  have hkind : ofNat 2 p.kind.tag = b.slice 10 2 := by
    rw [← hh 10 (by decide), Kind.tag_of_ofTag htag]
  have hlevel : ofNat 2 p.level = b.slice 12 2 := by
    rw [level, bytes_of_decode h, hh 12 (by decide)]
  have hcount : ofNat 2 p.count = b.slice 14 2 := by
    rw [count_of_decode h, hh 14 (by decide)]
  have haddress : ofNat 8 offset = b.slice 16 8 := by
    rw [← hf.address.1]
    exact ofNat_u64At (by omega)
  have hreserved : zeros 32 = b.slice 24 32 := by
    have := isZero_iff.1 hf.reserved.1
    rw [length_slice_of_le (by omega)] at this
    exact this.symm
  have hpad : zeros 4 = b.slice 60 4 := by
    rw [← ofNat_u32At (by omega), hf.reserved.2]
    rfl
  have hput : put32 c 56 (checksum c 56) = b := by
    refine put32_checksum_eq hf.sum (by omega) ?_
    refine eq_of_agree [8, 2, 2, 2, 2, 8, 32, 4, 4, 4032] (by simp [hl]) (by simp [hbl]) ?_
    simp only [put32]
    refine ⟨?_, ?_, ?_, ?_, ?_, ?_, ?_, ?_, ?_, ?_, trivial⟩ <;>
    simp only [slice_put_disjoint, slice_put_self, length_ofNat, hl, hbl, hbody, hlow,
      Nat.reduceAdd, Nat.reduceLeDiff, true_or, or_true] <;>
    unfold start <;>
    generalize zeros BLOCK_SIZE = z at hz hzero <;>
    simp only [put64, put16] <;>
    simp only [slice_put_disjoint, slice_put_self, length_ofNat, length_put, hm, hz, hzero,
      Nat.reduceAdd, Nat.reduceLeDiff, true_or, or_true] <;>
    first
    | exact hf.version.1.symm
    | exact hversion
    | exact hkind
    | exact hlevel
    | exact hcount
    | exact haddress
    | exact hreserved
    | exact hpad
  refine bind_eq_ok.2 ⟨p, ?_, ?_⟩
  · rw [hput, h]
  · rw [hput]
    rfl

/-- The body of a page is its records, with nothing after them. -/
theorem body_of_decode {w : Nat} (hw : w * p.count ≤ 4032)
    (hz : isZero (b.drop (64 + w * p.count)) = true) {level count : Nat} {kind : Kind} :
    ((start kind offset level count).put 64 (b.slice 64 (w * p.count))).slice 64 4032 =
      b.slice 64 4032 := by
  have hbl : b.length = 4096 := (framed_of_decode h).length
  have hsl : (start kind offset level count).length = 4096 := length_start _ _ _ _
  refine slice_put_front hw (by omega) (by omega) ?_
  have hend := isZero_iff.1 hz
  rw [drop_eq_slice (n := 4032 - w * p.count) (by omega), length_slice_of_le (by omega)] at hend
  rw [hend]
  exact slice_start_body (by omega) (by simp only [BLOCK_SIZE]; omega)

theorem leafInto_of_decode (hk : p.kind = .leaf) :
    leafInto offset imageBytes (p.extentSlots.map Extent.decode) = .ok b := by
  have hv := validate_of_decode h
  rw [validate, hk] at hv
  obtain ⟨⟨hlevel, -, hcount⟩, hv⟩ := require_bind_eq_ok.1 hv
  obtain ⟨hzero, -⟩ := require_bind_eq_ok.1 hv
  have hcount : p.count ≤ 63 := hcount
  have hbl : b.length = 4096 := (framed_of_decode h).length
  have hlen : (p.extentSlots.map Extent.decode).length = p.count := by simp [extentSlots]
  have hbody : (p.extentSlots.map Extent.decode).flatMap Extent.encode = b.slice 64 (64 * p.count) := by
    rw [extentSlots, map_map, flatMap_map, ← flatMap_range_slice]
    refine flatMap_congr fun i hi => ?_
    have hi' := mem_range.1 hi
    have hcan := (leaf_of_decode h hk).2.2.2 _ (mem_map.2 ⟨i, hi, rfl⟩)
    rw [bytes_of_decode h] at hcan
    simp only [Function.comp, bytes_of_decode h]
    exact Extent.encode_decode (length_slice_of_le (by omega)) hcan
  rw [bytes_of_decode h] at hzero
  refine require_bind_eq_ok.2 ⟨by rw [hlen]; exact hcount, ?_⟩
  rw [hbody, hlen]
  refine finish_of_decode h (by simp) (fun o n ho => ?_) (body_of_decode h (by omega) hzero)
  rw [slice_put_disjoint (Or.inl ho), hk, hlevel]

theorem branchInto_of_decode (hk : p.kind = .branch) :
    branchInto offset imageBytes p.level (p.childSlots.map Child.decode) = .ok b := by
  have hv := validate_of_decode h
  rw [validate, hk] at hv
  obtain ⟨⟨-, -, -, hcount⟩, hv⟩ := require_bind_eq_ok.1 hv
  obtain ⟨hzero, -⟩ := require_bind_eq_ok.1 hv
  have hcount : p.count ≤ 252 := hcount
  have hbl : b.length = 4096 := (framed_of_decode h).length
  have hlen : (p.childSlots.map Child.decode).length = p.count := by simp [childSlots]
  have hbody : (p.childSlots.map Child.decode).flatMap Child.encode = b.slice 64 (16 * p.count) := by
    rw [childSlots, map_map, flatMap_map, ← flatMap_range_slice]
    refine flatMap_congr fun i hi => ?_
    have hi := mem_range.1 hi
    simp only [Function.comp, bytes_of_decode h]
    exact Child.encode_decode (length_slice_of_le (by omega))
  rw [bytes_of_decode h] at hzero
  refine require_bind_eq_ok.2 ⟨by rw [hlen]; exact hcount, ?_⟩
  rw [hbody, hlen]
  refine finish_of_decode h (by simp) (fun o n ho => ?_) (body_of_decode h (by omega) hzero)
  rw [slice_put_disjoint (Or.inl ho), hk]

theorem commit_of_decode (hk : p.kind = .commit) :
    p.commit = .ok p.readCommit ∧ p.readCommit.imageBytes = imageBytes ∧
      p.readCommit.encode offset = .ok b := by
  have hv := validate_of_decode h
  rw [validate, hk] at hv
  obtain ⟨c, hc, hv⟩ := bind_eq_ok.1 hv
  obtain ⟨⟨hcount, himg⟩, hv⟩ := require_bind_eq_ok.1 hv
  obtain ⟨-, -, hv⟩ := bind_eq_ok.1 hv
  have hzero := require_eq_ok.1 hv
  obtain ⟨-, hc'⟩ := require_bind_eq_ok.1 hc
  cases hc'
  refine ⟨hc, himg, ?_⟩
  have hbl : b.length = 4096 := (framed_of_decode h).length
  rw [bytes_of_decode h] at hzero
  have hend : b.slice 128 3968 = zeros 3968 := by
    have := isZero_iff.1 hzero
    rwa [drop_eq_slice (n := 3968) (by omega), length_slice_of_le (by omega)] at this
  have hw : ∀ o, o + 8 ≤ 4096 → ofNat 8 (u64At b o) = b.slice o 8 := fun o ho => ofNat_u64At (by omega)
  obtain ⟨h1, h2, h3, h4, h5, h6⟩ := Commit.slice_fields (c := p.readCommit) offset
  have hread : ∀ o, o + 16 ≤ 4096 → (FixedBytes.read 16 b o).1 = b.slice o 16 :=
    fun o ho => FixedBytes.read_val (by omega)
  unfold Commit.encode
  rw [himg]
  refine finish_of_decode h (Commit.length_fields offset) (fun o n ho => ?_) ?_
  · rw [Commit.slice_fields_low offset o n ho, hk, hcount]
    rfl
  · refine @AgreeFrom.slice_eq _ _ [16, 16, 8, 8, 8, 8, 3968] _ ⟨?_, ?_, ?_, ?_, ?_, ?_, ?_, trivial⟩
    · rw [h1, readCommit, bytes_of_decode h, hread 64 (by decide)]
    · rw [h2, readCommit, bytes_of_decode h, hread 80 (by decide)]
    · rw [h3, readCommit, bytes_of_decode h, hw 96 (by decide)]
    · rw [h4, readCommit, bytes_of_decode h, hw 104 (by decide)]
    · rw [h5, readCommit, bytes_of_decode h, hw 112 (by decide)]
    · rw [h6, readCommit, bytes_of_decode h, hw 120 (by decide)]
    · rw [hend]
      exact Commit.slice_fields_high offset

theorem file_of_decode (hk : p.kind = .file) :
    FileHeader.encode ⟨FixedBytes.read 16 b 64, imageBytes⟩ = .ok b := by
  obtain rfl := (file_iff_of_decode h).1 hk
  have hv := validate_of_decode h
  rw [validate, hk] at hv
  obtain ⟨⟨hlevel, hcount⟩, hv⟩ := require_bind_eq_ok.1 hv
  obtain ⟨⟨-, himg⟩, hv⟩ := require_bind_eq_ok.1 hv
  have hzero := require_eq_ok.1 hv
  rw [bytes_of_decode h] at hzero himg
  have hbl : b.length = 4096 := (framed_of_decode h).length
  have hend : b.slice 88 4008 = zeros 4008 := by
    have := isZero_iff.1 hzero
    rwa [drop_eq_slice (n := 4008) (by omega), length_slice_of_le (by omega)] at this
  have hsl : (start .file 0 0 0).length = 4096 := length_start _ _ _ _
  have hread : (FixedBytes.read 16 b 64).1 = b.slice 64 16 := FixedBytes.read_val (by omega)
  have hrl : (b.slice 64 16).length = 16 := length_slice_of_le (by omega)
  unfold FileHeader.encode
  dsimp only
  rw [hread]
  refine finish_of_decode h (by simp) (fun o n ho => ?_) ?_
  · rw [slice_put64 (Or.inl (by omega)), slice_put_disjoint (Or.inl ho), hk, hlevel, hcount]
  · refine @AgreeFrom.slice_eq _ _ [16, 8, 4008] _ ⟨?_, ?_, ?_, trivial⟩
    · rw [slice_put64 (Or.inl (by omega)), slice_put_self (by omega) hrl]
    · rw [put64, slice_put_self (by rw [length_put]; omega) (length_ofNat _ _), ← himg]
      exact ofNat_u64At (by omega)
    · rw [slice_put64 (Or.inr (by omega)), slice_put_disjoint (Or.inr (by omega)),
        slice_start_body (by omega) (by simp), hend]

end Page

theorem Commit.encode_eq_ok {c : Commit} {offset : Nat} {b : Bytes} (hf : c.Fits)
    (hh : c.root.height < 2 ^ 16) (h : c.encode offset = .ok b) :
    ∃ p, Page.decode b offset c.imageBytes = .ok p ∧ p.commit = .ok c := by
  unfold encode finish at h
  dsimp only at h
  generalize hb : put32 (c.fields offset) 56 (checksum (c.fields offset) 56) = b' at h
  obtain ⟨p, hp, h⟩ := bind_eq_ok.1 h
  obtain rfl : b' = b := Except.ok.inj h
  refine ⟨p, hp, ?_⟩
  have hkind : p.kind = .commit := by
    obtain ⟨-, htag, -⟩ := Page.decode_eq_ok_iff.1 hp
    rw [← hb] at htag
    obtain ⟨hstart, -⟩ := fields_start .commit offset hh (show 0 < 2 ^ 16 by decide)
    rw [u16At, slice_put32 (by omega), slice_fields_low offset 10 2 (by decide), ← u16At, hstart] at htag
    exact (Option.some.inj htag).symm
  have hread := readCommit_fields offset p.kind p.count (checksum (c.fields offset) 56) hf hh
  refine require_bind_eq_ok.2 ⟨hkind, ?_⟩
  rw [hb, ← Page.bytes_of_decode hp] at hread
  rw [← hread]
  rfl

theorem FileHeader.decode_of_page {b : Bytes} {offset imageBytes : Nat} {p : Page}
    (h : Page.decode b offset imageBytes = .ok p) (hk : p.kind = .file) :
    u64At b 80 = imageBytes ∧
      FileHeader.decode p.bytes = .ok ⟨FixedBytes.read 16 b 64, imageBytes⟩ := by
  obtain rfl := (Page.file_iff_of_decode h).1 hk
  have hv := Page.validate_of_decode h
  rw [Page.validate, hk] at hv
  obtain ⟨-, hv⟩ := require_bind_eq_ok.1 hv
  obtain ⟨⟨-, himg⟩, -⟩ := require_bind_eq_ok.1 hv
  rw [Page.bytes_of_decode h] at himg ⊢
  refine ⟨himg, require_bind_eq_ok.2 ⟨(Page.framed_of_decode h).length, ?_⟩⟩
  rw [himg]
  exact bind_eq_ok.2 ⟨p, h, require_bind_eq_ok.2 ⟨hk, rfl⟩⟩

namespace Page

/-- The contents of a page, encoded again at an offset. -/
def encode (p : Page) (offset imageBytes : Nat) : Except IoError Bytes :=
  match p.kind with
  | .leaf => do leafInto offset imageBytes (← p.extents)
  | .branch => do branchInto offset imageBytes p.level (← p.children)
  | .commit => do (← p.commit).encode offset
  | .file => do (← FileHeader.decode p.bytes).encode

/-- The rules that the entries of a page at `offset` satisfy. -/
def EntryRules (p : Page) (offset imageBytes : Nat) : Prop :=
  match p.kind with
  | .leaf => ∃ extents, p.extents = .ok extents ∧ 1 ≤ extents.length ∧
      extents.length ≤ LEAF_CAPACITY ∧ Interval.Ordered 0 (imageBytes / BLOCK_SIZE) extents ∧
      ∀ e ∈ extents, e.hash.isSome → e.stop = e.start + 1
  | .branch => ∃ children, p.children = .ok children ∧ 1 ≤ children.length ∧
      children.length ≤ BRANCH_CAPACITY ∧ 1 ≤ p.level ∧ p.level < MAX_HEIGHT ∧
      children.Pairwise (·.start < ·.start) ∧
      ∀ c ∈ children, c.start < imageBytes / BLOCK_SIZE ∧ c.offset ≠ 0 ∧
        c.offset % BLOCK_SIZE = 0 ∧ c.offset < offset
  | _ => True

variable {b : Bytes} {offset imageBytes : Nat} {p : Page} (h : decode b offset imageBytes = .ok p)
include h

theorem encode_decode : p.encode offset imageBytes = .ok b := by
  unfold encode
  cases hk : p.kind with
  | leaf =>
    have hextents : p.extents = .ok (p.extentSlots.map Extent.decode) :=
      require_bind_eq_ok.2 ⟨hk, rfl⟩
    exact bind_eq_ok.2 ⟨_, hextents, leafInto_of_decode h hk⟩
  | branch =>
    have hchildren : p.children = .ok (p.childSlots.map Child.decode) :=
      require_bind_eq_ok.2 ⟨hk, rfl⟩
    exact bind_eq_ok.2 ⟨_, hchildren, branchInto_of_decode h hk⟩
  | commit =>
    obtain ⟨hcommit, -, hencode⟩ := commit_of_decode h hk
    exact bind_eq_ok.2 ⟨_, hcommit, hencode⟩
  | file =>
    obtain ⟨-, hfile⟩ := FileHeader.decode_of_page h hk
    exact bind_eq_ok.2 ⟨_, hfile, file_of_decode h hk⟩

theorem entryRules : p.EntryRules offset imageBytes := by
  have hv := validate_of_decode h
  unfold EntryRules
  cases hk : p.kind with
  | leaf =>
    obtain ⟨-, -, hordered, hcan⟩ := leaf_of_decode h hk
    rw [validate, hk] at hv
    obtain ⟨⟨-, hpos, hcount⟩, -⟩ := require_bind_eq_ok.1 hv
    have hlen : (p.extentSlots.map Extent.decode).length = p.count := by simp [extentSlots]
    refine ⟨_, require_bind_eq_ok.2 ⟨hk, rfl⟩, by omega, by omega, hordered, fun e he hsome => ?_⟩
    obtain ⟨slot, hslot, rfl⟩ := mem_map.1 he
    have hlt := (hordered.mem _ he).2.1
    rcases (hcan slot hslot).2 with ⟨-, hone⟩ | ⟨hzero, -⟩
    · omega
    · simp [Extent.decode, hzero] at hsome
  | branch =>
    obtain ⟨⟨hl, hl'⟩, -, hpair, hall⟩ := branch_of_decode h hk
    rw [validate, hk] at hv
    obtain ⟨⟨-, -, hpos, hcount⟩, -⟩ := require_bind_eq_ok.1 hv
    have hlen : (p.childSlots.map Child.decode).length = p.count := by simp [childSlots]
    refine ⟨_, require_bind_eq_ok.2 ⟨hk, rfl⟩, by omega, by omega, hl, hl', hpair, fun c hc => ?_⟩
    obtain ⟨h1, ⟨h2, h3⟩, h4⟩ := hall c hc
    exact ⟨h1, h2, h3, h4⟩
  | commit => trivial
  | file => trivial

end Page

/-- **The page format is lossless and canonical.** What an encoder accepts decodes to its input; a page
that decodes satisfies the entry rules and is what its contents encode to. -/
theorem Page.page_roundtrips :
    (∀ (offset imageBytes : Nat) (extents : List Extent) (b : Bytes),
      (∀ e ∈ extents, e.start < U64 ∧ e.stop < U64) → leafInto offset imageBytes extents = .ok b →
      ∃ p, Page.decode b offset imageBytes = .ok p ∧ p.level = 0 ∧ p.extents = .ok extents) ∧
    (∀ (offset imageBytes level : Nat) (children : List Child) (b : Bytes), level < 2 ^ 16 →
      (∀ c ∈ children, c.start < U64 ∧ c.offset < U64) →
      branchInto offset imageBytes level children = .ok b →
      ∃ p, Page.decode b offset imageBytes = .ok p ∧ p.level = level ∧ p.children = .ok children) ∧
    (∀ (offset : Nat) (c : Commit) (b : Bytes), c.Fits → c.root.height < 2 ^ 16 →
      c.encode offset = .ok b →
      ∃ p, Page.decode b offset c.imageBytes = .ok p ∧ p.commit = .ok c) ∧
    (∀ (header : FileHeader) (b : Bytes), header.encode = .ok b → FileHeader.decode b = .ok header) ∧
    (∀ (b : Bytes) (offset imageBytes : Nat) (p : Page), Page.decode b offset imageBytes = .ok p →
      p.encode offset imageBytes = .ok b ∧ p.EntryRules offset imageBytes) ∧
    ∀ (b : Bytes) (header : FileHeader), FileHeader.decode b = .ok header → header.encode = .ok b := by
  refine ⟨fun offset imageBytes extents b hf h => ?_, fun offset imageBytes level children b hl hf h => ?_,
    fun offset c b hf hh h => Commit.encode_eq_ok hf hh h,
    fun header b h => (FileHeader.decode_encode h).1,
    fun b offset imageBytes p h => ⟨encode_decode h, entryRules h⟩, fun b header h => ?_⟩
  · obtain ⟨p, hp, hk, hlevel, hextents⟩ := leafInto_eq_ok hf h
    exact ⟨p, hp, hlevel, require_bind_eq_ok.2 ⟨hk, by rw [hextents]; rfl⟩⟩
  · obtain ⟨p, hp, hk, hlevel, hchildren⟩ := branchInto_eq_ok hl hf h
    exact ⟨p, hp, hlevel, require_bind_eq_ok.2 ⟨hk, by rw [hchildren]; rfl⟩⟩
  · obtain ⟨-, h⟩ := require_bind_eq_ok.1 h
    obtain ⟨p, hp, h⟩ := Except.bind_eq_ok.1 h
    obtain ⟨hk, h⟩ := require_bind_eq_ok.1 h
    cases h
    exact file_of_decode hp hk

omit [Digest] in
/-- The COMMIT of an empty tree, written and written again. -/
theorem Page.page_roundtrips_commit : let _ := nullDigest
    ∃ b p, Prepared.emptyCommit.encode BLOCK_SIZE = .ok b ∧
      Page.decode b BLOCK_SIZE (2 * BLOCK_SIZE) = .ok p ∧ p.commit = .ok Prepared.emptyCommit ∧
      p.encode BLOCK_SIZE (2 * BLOCK_SIZE) = .ok b := by
  let _ := nullDigest
  have hfits : Prepared.emptyCommit.Fits := ⟨by decide, by decide, by decide, by decide⟩
  obtain ⟨b, -, hb, -⟩ := Commit.decode_encode hfits (show BLOCK_SIZE < U64 by decide)
    (Commit.validate_eq_ok.2 ⟨by decide, by decide⟩)
  obtain ⟨-, -, hcommit, -, hagain, -⟩ := Page.page_roundtrips
  obtain ⟨p, hp, hc⟩ := hcommit _ _ b hfits (by decide) hb
  exact ⟨b, p, hb, hp, hc, (hagain b _ _ p hp).1⟩

end Cas.Manifest
