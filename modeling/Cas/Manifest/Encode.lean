import Cas.Manifest.Commit

/-!
# What the tree page encoders accept

Every encoder checks its page with the decoder before it hands it out. Extents in order and inside
the image pass (`leafInto_ok`), and so do children in order that lie below their page
(`branchInto_ok`).
-/

namespace Cas.Manifest

open Bytes List

theorem slice_start_body {kind : Kind} {offset level count o n : Nat} (h : 64 ≤ o)
    (hn : o + n ≤ BLOCK_SIZE) : (start kind offset level count).slice o n = zeros n := by
  have hm : Page.magic.length = 8 := rfl
  unfold start
  rw [slice_put64 (by omega), slice_put16 (by omega), slice_put16 (by omega), slice_put16 (by omega),
    slice_put16 (by omega), slice_put_disjoint (by omega), slice_zeros hn]

variable [Digest]

theorem exists_finish (kind : Kind) (level count : Nat) (body : Bytes) {offset imageBytes : Nat}
    (hkind : kind ≠ .file) (ho : offset < U64) (ha : offset ≠ 0 ∧ offset % BLOCK_SIZE = 0)
    (hi : imageBytes ≠ 0 ∧ imageBytes % BLOCK_SIZE = 0) (hl : level < 2 ^ 16) (hc : count < 2 ^ 16)
    (hb : 64 + body.length ≤ BLOCK_SIZE)
    (hvalid : ∀ b : Bytes, u64At b 16 = offset → u16At b 12 = level →
      isZero (b.drop (64 + body.length)) = true →
      (∀ o n, o + n ≤ body.length → b.slice (64 + o) n = body.slice o n) →
      (Page.mk b kind count).validate offset imageBytes = .ok ()) :
    ∃ b, finish ((start kind offset level count).put 64 body) offset imageBytes = .ok b := by
  have hs : (start kind offset level count).length = 4096 := length_start _ _ _ _
  have hb' : 64 + body.length ≤ 4096 := hb
  have hlow : ∀ o n, o + n ≤ 64 → ((start kind offset level count).put 64 body).slice o n =
      (start kind offset level count).slice o n := fun o n h => slice_put_disjoint (Or.inl h)
  have hframed := framed_finish kind level count ho ha.2 hi (by rw [length_put, length_start]) hlow
  obtain ⟨f1, f2, f3⟩ := fields_start kind offset hl hc
  unfold finish
  generalize hx : checksum ((start kind offset level count).put 64 body) 56 = x at *
  have hfield : ∀ o, o + 2 ≤ 56 → u16At (put32 ((start kind offset level count).put 64 body) 56 x) o =
      u16At (start kind offset level count) o := by
    intro o h
    rw [u16At, slice_put32 (by omega), hlow o 2 (by omega), u16At]
  have hzero : isZero ((put32 ((start kind offset level count).put 64 body) 56 x).drop
      (64 + body.length)) = true := by
    rw [drop_eq_slice (n := 4032 - body.length) (by rw [length_put32, length_put, hs]; omega),
      slice_put32 (by omega), slice_put_disjoint (Or.inr (le_refl _)),
      slice_start_body (by omega) (by simp only [BLOCK_SIZE]; omega)]
    exact isZero_zeros _
  have hbody : ∀ o n, o + n ≤ body.length →
      (put32 ((start kind offset level count).put 64 body) 56 x).slice (64 + o) n =
        body.slice o n := by
    intro o n h
    rw [slice_put32 (by omega), slice_put_inside (by rw [hs]; omega) (by omega) (by omega),
      Nat.add_sub_cancel_left]
  have hv := hvalid _ hframed.address.1 (by rw [hfield 12 (by decide), f2]) hzero hbody
  refine ⟨_, Except.bind_eq_ok.2 ⟨⟨_, kind, count⟩, Page.decode_eq_ok_iff.2
    ⟨hframed, ?_, ?_, ?_, hv⟩, rfl⟩⟩
  · rw [hfield 10 (by decide), f1]
    cases kind <;> rfl
  · rw [hfield 14 (by decide), f3]
  · exact iff_of_false hkind ha.1

omit [Digest] in
theorem Extent.canonical_encode {e : Extent} (h1 : e.start < U64) (h2 : e.stop < U64)
    (hchunk : e.hash.isSome = true → e.stop = e.start + 1) : Page.ExtentCanonical e.encode := by
  have hz : (zeros 64).length = 64 := length_zeros 64
  have hzero : ∀ o n, o + n ≤ 64 → (zeros 64).slice o n = zeros n := fun o n h => slice_zeros h
  unfold Page.ExtentCanonical
  rw [Extent.decode_encode h1 h2, drop_eq_slice (n := 10) (by rw [e.length_encode])]
  obtain ⟨start, stop, hash⟩ := e
  cases hash with
  | none =>
    unfold encode
    simp only [u32At, u16At, put64, put16, Option.isSome_none, Bool.false_eq_true, if_false]
    generalize zeros 64 = z at hz hzero
    simp only [slice_put_disjoint, slice_put_self, length_ofNat, length_put, hz, hzero,
      Nat.reduceAdd, Nat.reduceLeDiff, true_or, or_true]
    exact ⟨⟨rfl, isZero_zeros _⟩, .inr ⟨rfl, trivial⟩⟩
  | some hash =>
    have hh := hash.2
    have hone := hchunk rfl
    unfold encode
    simp only [u32At, u16At, put64, put16, Option.isSome_some, if_true]
    generalize zeros 64 = z at hz hzero
    simp only [slice_put_disjoint, slice_put_self, length_ofNat, length_put, hz, hzero, hh,
      Nat.reduceAdd, Nat.reduceLeDiff, true_or, or_true]
    exact ⟨⟨rfl, isZero_zeros _⟩, .inl ⟨rfl, by simp only at hone; omega⟩⟩

section Encoders

variable {offset imageBytes : Nat} (ho : offset < U64)
  (ha : offset ≠ 0 ∧ offset % BLOCK_SIZE = 0) (hi : imageBytes ≠ 0 ∧ imageBytes % BLOCK_SIZE = 0)
include ho ha hi

/-- Extents in order, inside the image, chunks of one block, fit a leaf. -/
theorem leafInto_ok {extents : List Extent} (hu : imageBytes < U64) (hne : extents ≠ [])
    (hcap : extents.length ≤ LEAF_CAPACITY)
    (hord : Interval.Ordered 0 (imageBytes / BLOCK_SIZE) extents)
    (hchunk : ∀ e ∈ extents, e.hash.isSome = true → e.stop = e.start + 1) :
    ∃ b, leafInto offset imageBytes extents = .ok b := by
  have hpos := length_pos_iff.2 hne
  have hlen := length_flatMap_records fun e (_ : e ∈ extents) => e.length_encode
  have hcap' : extents.length ≤ 63 := hcap
  have hfit : ∀ e ∈ extents, e.start < U64 ∧ e.stop < U64 := by
    intro e he
    have := hord.mem e he
    have := Nat.div_le_self imageBytes BLOCK_SIZE
    simp only [Interval.start, Interval.stop] at *
    omega
  obtain ⟨b, hb⟩ := exists_finish .leaf 0 extents.length
    (extents.flatMap Extent.encode) (by simp) ho ha hi (by decide) (by omega)
    (by rw [hlen]; simp only [BLOCK_SIZE]; omega) fun b _ hlevel hzero hbody => by
      have hslots := map_slice_records (fun e (_ : e ∈ extents) => e.length_encode) hbody
      rw [hlen] at hzero
      refine require_bind_eq_ok.2 ⟨⟨hlevel, hpos, hcap⟩, require_bind_eq_ok.2 ⟨hzero, ?_⟩⟩
      rw [Page.validateExtents_eq_ok]
      unfold Page.extentSlots
      rw [hslots, map_map]
      have hread : extents.map (Extent.decode ∘ Extent.encode) = extents := by
        conv => rhs; rw [← map_id extents]
        exact map_congr_left fun e he => Extent.decode_encode (hfit e he).1 (hfit e he).2
      rw [hread]
      refine ⟨hord, fun slot hslot => ?_⟩
      obtain ⟨e, he, rfl⟩ := mem_map.1 hslot
      exact Extent.canonical_encode (hfit e he).1 (hfit e he).2 (hchunk e he)
  exact ⟨b, require_bind_eq_ok.2 ⟨hcap, hb⟩⟩

theorem branchInto_ok {level : Nat} {children : List Child} (hu : imageBytes < U64)
    (hlevel : 1 ≤ level ∧ level < MAX_HEIGHT) (hne : children ≠ [])
    (hcap : children.length ≤ BRANCH_CAPACITY) (hord : children.Pairwise (·.start < ·.start))
    (hin : ∀ d ∈ children, d.start < imageBytes / BLOCK_SIZE ∧
      (d.offset ≠ 0 ∧ d.offset % BLOCK_SIZE = 0) ∧ d.offset < offset) :
    ∃ b, branchInto offset imageBytes level children = .ok b := by
  have hpos := length_pos_iff.2 hne
  have hlen := length_flatMap_records fun d (_ : d ∈ children) => d.length_encode
  have hcap' : children.length ≤ 252 := hcap
  have hfit : ∀ d ∈ children, d.start < U64 ∧ d.offset < U64 := by
    intro d hd
    have := hin d hd
    have := Nat.div_le_self imageBytes BLOCK_SIZE
    omega
  obtain ⟨b, hb⟩ := exists_finish .branch level children.length
    (children.flatMap Child.encode) (by simp) ho ha hi
    (lt_of_lt_of_le hlevel.2 (by decide)) (by omega)
    (by rw [hlen]; simp only [BLOCK_SIZE]; omega) fun b hoffset hlev hzero hbody => by
      have hslots := map_slice_records (fun d (_ : d ∈ children) => d.length_encode) hbody
      rw [hlen] at hzero
      have hlev' : (Page.mk b .branch children.length).level = level := hlev
      refine require_bind_eq_ok.2 ⟨⟨by rw [hlev']; exact hlevel.1, by rw [hlev']; exact hlevel.2,
        hpos, hcap⟩, require_bind_eq_ok.2 ⟨hzero, ?_⟩⟩
      rw [Page.validateChildren_eq_ok]
      unfold Page.childSlots Page.offset
      rw [hslots, map_map, hoffset]
      have hread : children.map (Child.decode ∘ Child.encode) = children := by
        conv => rhs; rw [← map_id children]
        exact map_congr_left fun d hd => Child.decode_encode (hfit d hd).1 (hfit d hd).2
      rw [hread]
      exact ⟨⟨fun _ _ _ h => (by cases h), hord⟩, hin⟩
  exact ⟨b, require_bind_eq_ok.2 ⟨hcap, hb⟩⟩

end Encoders

end Cas.Manifest
