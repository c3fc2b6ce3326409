import Cas.Lib.Interval
import Cas.Manifest.Format

/-!
# What an accepted manifest page says

The decoder as one predicate (`Page.decode_eq_ok_iff`), the order of the entries of an accepted leaf
or branch, and the round trip of the two tree page encoders: a page that `leafInto` or `branchInto`
returned decodes to the entries it was given.
-/

namespace Cas.Manifest

open Bytes List

/-- Extents are intervals of blocks that carry one hash. -/
instance : Interval Extent (Option Hash) where
  start := Extent.start
  stop := Extent.stop
  value e _ := e.hash
  before e p := { e with stop := p }
  after e p := { e with start := p }
  start_before _ _ := rfl
  stop_before _ _ := rfl
  start_after _ _ := rfl
  stop_after _ _ := rfl
  value_before _ _ _ := rfl
  value_after _ _ _ _ _ := rfl

theorem pageOffset_iff {offset : Nat} :
    pageOffset offset = true ↔ offset ≠ 0 ∧ offset % BLOCK_SIZE = 0 := by
  simp [pageOffset]

namespace Page

/-! ## Entry loops -/

/-- The bytes of a leaf slot outside its bounds are canonical. -/
def ExtentCanonical (slot : Bytes) : Prop :=
  (u32At slot 48 = 0 ∧ isZero (slot.drop 54) = true) ∧
    (u16At slot 52 = 1 ∧ (Extent.decode slot).stop - (Extent.decode slot).start = 1 ∨
      u16At slot 52 = 2 ∧ slot.slice 16 32 = zeros 32)

theorem checkExtentKind_eq_ok {slot : Bytes} {u : Unit} :
    checkExtentKind slot = .ok u ↔
      u16At slot 52 = 1 ∧ (Extent.decode slot).stop - (Extent.decode slot).start = 1 ∨
        u16At slot 52 = 2 ∧ slot.slice 16 32 = zeros 32 := by
  unfold checkExtentKind
  split
  · rename_i h
    simp [require_eq_ok, h]
  · rename_i h
    simp [require_eq_ok, h]
  · rename_i h1 h2
    constructor
    · intro h
      cases h
    · rintro (⟨h, -⟩ | ⟨h, -⟩)
      · exact (h1 h).elim
      · exact (h2 h).elim

theorem validateExtents_eq_ok {blocks : Nat} :
    ∀ {slots : List Bytes} {stop : Nat} {u : Unit}, validateExtents blocks slots stop = .ok u ↔
      Interval.Ordered stop blocks (slots.map Extent.decode) ∧
        ∀ slot ∈ slots, ExtentCanonical slot := by
  intro slots
  induction slots with
  | nil => intro stop u; simp [validateExtents]
  | cons slot slots ih =>
    intro stop u
    rw [validateExtents, map_cons, Interval.ordered_cons]
    simp only [require_eq_ok, forall_mem_cons, Except.bind_eq_ok, checkExtentKind_eq_ok, ih,
      exists_and_left, exists_const, ExtentCanonical, Interval.start, Interval.stop]
    tauto

/-- The children are in strictly increasing order after `previous`. -/
def Ascending (previous : Option Nat) (children : List Child) : Prop :=
  (∀ c ∈ children, ∀ p ∈ previous, p < c.start) ∧ children.Pairwise (·.start < ·.start)

theorem ascending_cons {previous : Option Nat} {c : Child} {cs : List Child} :
    Ascending previous (c :: cs) ↔ (∀ p ∈ previous, p < c.start) ∧ Ascending (some c.start) cs := by
  simp only [Ascending, forall_mem_cons, pairwise_cons, Option.mem_def, Option.some.injEq,
    forall_eq']
  constructor
  · rintro ⟨⟨h1, h2⟩, h3, h4⟩
    exact ⟨h1, h3, h4⟩
  · rintro ⟨h1, h3, h4⟩
    exact ⟨⟨h1, fun d hd p hp => (h1 p hp).trans (h3 d hd)⟩, h3, h4⟩

theorem validateChildren_eq_ok {blocks offset : Nat} :
    ∀ {slots : List Bytes} {previous : Option Nat} {u : Unit},
      validateChildren blocks offset slots previous = .ok u ↔
        Ascending previous (slots.map Child.decode) ∧
          ∀ c ∈ slots.map Child.decode,
            c.start < blocks ∧ (c.offset ≠ 0 ∧ c.offset % BLOCK_SIZE = 0) ∧ c.offset < offset := by
  intro slots
  induction slots with
  | nil => intro previous u; simp [validateChildren, Ascending]
  | cons slot slots ih =>
    intro previous u
    rw [validateChildren, map_cons, ascending_cons]
    simp only [require_bind_eq_ok, forall_mem_cons, ih, pageOffset_iff, Option.all_eq_true,
      decide_eq_true_eq]
    tauto

/-! ## The page decoder -/

/-- Conditions of the page decoder that do not depend on the page kind. -/
structure Framed [Digest] (b : Bytes) (offset imageBytes : Nat) : Prop where
  length : b.length = BLOCK_SIZE
  version : b.slice 0 8 = magic ∧ u16At b 8 = 2
  sum : u32At b 56 = checksum b 56
  address : u64At b 16 = offset ∧ offset % BLOCK_SIZE = 0
  image : imageBytes ≠ 0 ∧ imageBytes % BLOCK_SIZE = 0
  reserved : isZero (b.slice 24 32) = true ∧ u32At b 60 = 0

variable [Digest]

theorem decode_eq_ok_iff {b : Bytes} {offset imageBytes : Nat} {p : Page} :
    decode b offset imageBytes = .ok p ↔
      Framed b offset imageBytes ∧ Kind.ofTag (u16At b 10) = some p.kind ∧
        p = ⟨b, p.kind, u16At b 14⟩ ∧ (p.kind = .file ↔ offset = 0) ∧
        p.validate offset imageBytes = .ok () := by
  unfold decode
  simp only [require_bind_eq_ok]
  constructor
  · rintro ⟨h1, h2, h3, h4, h5, h6, h⟩
    refine ⟨⟨h1, h2, h3, h4, h5, h6⟩, ?_⟩
    split at h
    · cases h
    · rename_i kind hk
      obtain ⟨hf, h⟩ := require_bind_eq_ok.1 h
      obtain ⟨u, hv, h⟩ := Except.bind_eq_ok.1 h
      cases h
      exact ⟨hk, rfl, hf, hv⟩
  · rintro ⟨⟨h1, h2, h3, h4, h5, h6⟩, hk, hp, hf, hv⟩
    refine ⟨h1, h2, h3, h4, h5, h6, ?_⟩
    rw [hk]
    simp only [require_bind_eq_ok]
    refine ⟨hf, ?_⟩
    rw [hp] at hv ⊢
    rw [hv]
    rfl

section Decoded

variable {b : Bytes} {offset imageBytes : Nat} {p : Page} (h : decode b offset imageBytes = .ok p)
include h

theorem framed_of_decode : Framed b offset imageBytes := (decode_eq_ok_iff.1 h).1

theorem bytes_of_decode : p.bytes = b := by rw [(decode_eq_ok_iff.1 h).2.2.1]

theorem count_of_decode : p.count = u16At b 14 := by rw [(decode_eq_ok_iff.1 h).2.2.1]

theorem offset_of_decode : p.offset = offset := by
  rw [Page.offset, bytes_of_decode h]
  exact (framed_of_decode h).address.1

theorem file_iff_of_decode : p.kind = .file ↔ offset = 0 := (decode_eq_ok_iff.1 h).2.2.2.1

theorem validate_of_decode : p.validate offset imageBytes = .ok () := (decode_eq_ok_iff.1 h).2.2.2.2

theorem leaf_of_decode (hk : p.kind = .leaf) :
    p.level = 0 ∧ p.extentSlots ≠ [] ∧
      Interval.Ordered 0 (imageBytes / BLOCK_SIZE) (p.extentSlots.map Extent.decode) ∧
      ∀ slot ∈ p.extentSlots, ExtentCanonical slot := by
  have hv := validate_of_decode h
  rw [validate, hk] at hv
  unfold validateLeaf at hv
  simp only [require_bind_eq_ok, validateExtents_eq_ok] at hv
  obtain ⟨⟨hl, hc, -⟩, -, ho, hcan⟩ := hv
  refine ⟨hl, ?_, ho, hcan⟩
  intro hnil
  have := congrArg length hnil
  simp only [extentSlots, length_map, length_range, length_nil] at this
  omega

theorem branch_of_decode (hk : p.kind = .branch) :
    (1 ≤ p.level ∧ p.level < MAX_HEIGHT) ∧ p.childSlots ≠ [] ∧
      (p.childSlots.map Child.decode).Pairwise (·.start < ·.start) ∧
      ∀ c ∈ p.childSlots.map Child.decode,
        c.start < imageBytes / BLOCK_SIZE ∧ (c.offset ≠ 0 ∧ c.offset % BLOCK_SIZE = 0) ∧
          c.offset < offset := by
  have hv := validate_of_decode h
  rw [validate, hk] at hv
  unfold validateBranch at hv
  simp only [require_bind_eq_ok, validateChildren_eq_ok, offset_of_decode h] at hv
  obtain ⟨⟨hl, hl', hc, -⟩, -, ho, hcan⟩ := hv
  refine ⟨⟨hl, hl'⟩, ?_, ho.2, hcan⟩
  intro hnil
  have := congrArg length hnil
  simp only [childSlots, length_map, length_range, length_nil] at this
  omega

end Decoded

end Page

/-! ## Encoded pages -/

@[simp] theorem Extent.length_encode (e : Extent) : e.encode.length = 64 := by
  unfold encode
  cases e.hash <;> simp

@[simp] theorem Child.length_encode (c : Child) : c.encode.length = 16 := by simp [encode]

theorem Extent.decode_encode {e : Extent} (h1 : e.start < U64) (h2 : e.stop < U64) :
    decode e.encode = e := by
  obtain ⟨start, stop, hash⟩ := e
  have hz : (zeros 64).length = 64 := length_zeros 64
  cases hash with
  | none =>
    simp only [decode, encode, u64At, u16At, put64, put16]
    simp only [slice_put_self, slice_put_disjoint, length_ofNat, length_put, hz, Nat.reduceAdd,
      Nat.reduceLeDiff, true_or, toNat_ofNat8 h1, toNat_ofNat8 h2]
    simp [toNat_ofNat2]
  | some hash =>
    have hh := hash.2
    have hread : FixedBytes.read 32 (encode ⟨start, stop, some hash⟩) 16 = hash := by
      apply FixedBytes.read_eq
      simp only [encode, put64, put16]
      simp only [slice_put_self, slice_put_disjoint, length_ofNat, length_put, hz, hh, Nat.reduceAdd,
        Nat.reduceLeDiff, true_or]
    rw [decode, hread]
    simp only [encode, u64At, u16At, put64, put16]
    simp only [slice_put_self, slice_put_disjoint, length_ofNat, length_put, hz, hh, Nat.reduceAdd,
      Nat.reduceLeDiff, true_or, toNat_ofNat8 h1, toNat_ofNat8 h2]
    simp [toNat_ofNat2]

theorem Child.decode_encode {c : Child} (h1 : c.start < U64) (h2 : c.offset < U64) :
    decode c.encode = c := by
  have hz : (zeros 16).length = 16 := length_zeros 16
  simp only [decode, encode, u64At, put64]
  simp only [slice_put_self, slice_put_disjoint, length_ofNat, length_put, hz, Nat.reduceAdd,
    Nat.reduceLeDiff, true_or, toNat_ofNat8 h1, toNat_ofNat8 h2]

@[simp] theorem length_start (kind : Kind) (offset level count : Nat) :
    (start kind offset level count).length = BLOCK_SIZE := by
  simp only [start, length_put64, length_put16, length_put]
  exact length_zeros _

/-- The header fields of a page that starts with `start`. -/
theorem fields_start (kind : Kind) (offset : Nat) {level count : Nat} (hl : level < 2 ^ 16)
    (hc : count < 2 ^ 16) :
    u16At (start kind offset level count) 10 = kind.tag ∧
      u16At (start kind offset level count) 12 = level ∧
      u16At (start kind offset level count) 14 = count := by
  have hz : (zeros BLOCK_SIZE).length = 4096 := length_zeros _
  have ht : kind.tag < 2 ^ 16 := by cases kind <;> decide
  unfold start
  generalize zeros BLOCK_SIZE = z at hz
  simp only [u16At, put64, put16]
  simp only [slice_put_self, slice_put_disjoint, length_ofNat, length_put, hz, Nat.reduceAdd,
    Nat.reduceLeDiff, true_or]
  exact ⟨toNat_ofNat ht, toNat_ofNat hl, toNat_ofNat hc⟩

variable [Digest]

/-- A finished page is its input with the checksum filled in, and it decodes. -/
theorem finish_eq_ok {b b' : Bytes} {offset imageBytes : Nat}
    (h : finish b offset imageBytes = .ok b') :
    (∃ p, Page.decode b' offset imageBytes = .ok p) ∧ b'.length = b.length ∧
      ∀ o n, o + n ≤ 56 ∨ 60 ≤ o → b'.slice o n = b.slice o n := by
  unfold finish at h
  obtain ⟨p, hp, h⟩ := Except.bind_eq_ok.1 h
  simp only [pure, Except.pure, Except.ok.injEq] at h
  subst h
  exact ⟨⟨p, hp⟩, by simp, fun o n hon => slice_put32 (by omega)⟩

/-- A finished tree page with `count` entries encoded from `64` on. -/
theorem decode_finish {kind : Kind} {offset imageBytes level count : Nat} {body b : Bytes}
    (hl : level < 2 ^ 16) (hc : count < 2 ^ 16) (hb : 64 + body.length ≤ BLOCK_SIZE)
    (h : finish ((start kind offset level count).put 64 body) offset imageBytes = .ok b) :
    Page.decode b offset imageBytes = .ok ⟨b, kind, count⟩ ∧ (Page.mk b kind count).level = level ∧
      (∀ o n, o + n ≤ body.length → b.slice (64 + o) n = body.slice o n) := by
  obtain ⟨⟨p, hp⟩, hlen, hs⟩ := finish_eq_ok h
  obtain ⟨f1, f2, f3⟩ := fields_start kind offset hl hc
  have hfield : ∀ o, o + 2 ≤ 56 → u16At b o = u16At (start kind offset level count) o := by
    intro o ho
    rw [u16At, u16At, hs _ _ (Or.inl ho), slice_put_disjoint (Or.inl (by omega))]
  obtain ⟨-, hk, hpe, -⟩ := Page.decode_eq_ok_iff.1 hp
  rw [hfield 10 (by omega), f1] at hk
  have hkind : p.kind = kind := by
    cases kind <;> simpa [Kind.ofTag, Kind.tag] using hk.symm
  rw [hkind, hfield 14 (by omega), f3] at hpe
  refine ⟨by rw [hp, hpe], ?_, ?_⟩
  · rw [Page.level, hfield 12 (by omega), f2]
  · intro o n hon
    rw [hs _ _ (Or.inr (by omega))]
    rw [slice_put_inside (by rw [length_start]; omega) (by omega) (by omega), Nat.add_sub_cancel_left]

theorem leafInto_eq_ok {offset imageBytes : Nat} {extents : List Extent} {b : Bytes}
    (hf : ∀ e ∈ extents, e.start < U64 ∧ e.stop < U64)
    (h : leafInto offset imageBytes extents = .ok b) :
    ∃ p, Page.decode b offset imageBytes = .ok p ∧ p.kind = .leaf ∧ p.level = 0 ∧
      p.extentSlots.map Extent.decode = extents := by
  obtain ⟨hc, h⟩ := require_bind_eq_ok.1 h
  have hbody := length_flatMap_records fun e (_ : e ∈ extents) => e.length_encode
  simp only [LEAF_CAPACITY] at hc
  obtain ⟨hp, hl, hs⟩ := decode_finish (by decide) (by omega) (by simp only [BLOCK_SIZE]; omega) h
  refine ⟨_, hp, rfl, hl, ?_⟩
  apply ext_getElem?
  intro i
  simp only [Page.extentSlots, map_map, getElem?_map]
  by_cases hi : i < extents.length
  · have he := getElem?_eq_getElem hi
    obtain ⟨h1, h2⟩ := hf _ (getElem_mem hi)
    rw [getElem?_range hi, he]
    simp only [Option.map_some, Function.comp]
    rw [hs _ _ (by omega), slice_flatMap_records (fun e _ => e.length_encode) he,
      Extent.decode_encode h1 h2]
  · rw [getElem?_eq_none (by simpa using hi), getElem?_eq_none (by omega)]
    rfl

theorem branchInto_eq_ok {offset imageBytes level : Nat} {children : List Child} {b : Bytes}
    (hlevel : level < 2 ^ 16) (hf : ∀ c ∈ children, c.start < U64 ∧ c.offset < U64)
    (h : branchInto offset imageBytes level children = .ok b) :
    ∃ p, Page.decode b offset imageBytes = .ok p ∧ p.kind = .branch ∧ p.level = level ∧
      p.childSlots.map Child.decode = children := by
  obtain ⟨hc, h⟩ := require_bind_eq_ok.1 h
  have hbody := length_flatMap_records fun c (_ : c ∈ children) => c.length_encode
  simp only [BRANCH_CAPACITY] at hc
  obtain ⟨hp, hl, hs⟩ := decode_finish hlevel (by omega) (by simp only [BLOCK_SIZE]; omega) h
  refine ⟨_, hp, rfl, hl, ?_⟩
  apply ext_getElem?
  intro i
  simp only [Page.childSlots, map_map, getElem?_map]
  by_cases hi : i < children.length
  · have he := getElem?_eq_getElem hi
    obtain ⟨h1, h2⟩ := hf _ (getElem_mem hi)
    rw [getElem?_range hi, he]
    simp only [Option.map_some, Function.comp]
    rw [hs _ _ (by omega), slice_flatMap_records (fun c _ => c.length_encode) he,
      Child.decode_encode h1 h2]
  · rw [getElem?_eq_none (by simpa using hi), getElem?_eq_none (by omega)]
    rfl

end Cas.Manifest
