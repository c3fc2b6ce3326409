import Cas.Append.Format
import Cas.Daemon.Request

/-!
# What the parser accepts, later layers accept

The range of a request is checked three times: by the parser in sectors, by the carrier of retained
requests in bytes, and by the WAL builder in blocks of one image. `Request.Accepted` is what the parser
guarantees, and it implies the other two checks.
-/

namespace Cas.Daemon

open Cas.Append (Builder RequestId requireFormat validRange)

/-- An aligned range inside the image, of at most the request size. -/
structure AcceptedRange (capacity offset len : Nat) : Prop where
  start : BLOCK_SIZE ∣ offset
  blocks : BLOCK_SIZE ∣ len
  size : len ≤ MAX_REQUEST_BYTES
  fits : offset + len < U64
  inside : offset + len ≤ capacity

/-- The range of a request is accepted, and that of a data request is not empty. -/
def Request.Accepted (capacity : Nat) : Request → Prop
  | .read data | .write data => data.len ≠ 0 ∧ AcceptedRange capacity data.offset data.len
  | .zero range => AcceptedRange capacity range.offset range.len
  | .flush _ | .getId _ _ | .unsupported _ | .invalid _ => True

/-! ## The parser -/

section Parse

variable {mem : GuestMemory} {completion : Completion} {segments : List Segment} {r : Request}
  {kind sector len capacity head : Nat}

theorem parseZero_accepted (h : parseZero mem completion segments kind len capacity = .ok r) :
    r.Accepted capacity := by
  obtain ⟨-, h⟩ := Except.ensure_bind_eq_ok.1 h
  obtain ⟨bytes, -, h⟩ := Except.bind_eq_ok.1 h
  dsimp only at h
  split at h
  · obtain rfl := Except.ok.inj h
    trivial
  · split at h
    · cases h
    · split at h
      · next hrange =>
        obtain rfl := Except.ok.inj h
        exact ⟨hrange.2.1, hrange.2.2.1, hrange.1, hrange.2.2.2.1, hrange.2.2.2.2⟩
      · cases h

theorem parseBody_accepted (hlen : len ≤ MAX_REQUEST_BYTES)
    (h : parseBody mem completion segments kind sector len capacity = .ok r) :
    r.Accepted capacity := by
  unfold parseBody at h
  split at h
  · exact parseZero_accepted h
  · split at h
    · split at h
      · cases h
      · split at h
        · rename_i hrange
          obtain rfl := Except.ok.inj h
          have hacc : AcceptedRange capacity (sector * SECTOR_BYTES) len :=
            ⟨hrange.2.2.1, hrange.2.1, hlen, hrange.2.2.2.1, hrange.2.2.2.2.1⟩
          split
          · exact ⟨hrange.1, hacc⟩
          · exact ⟨hrange.1, hacc⟩
        · cases h
    · split at h
      · split at h
        · obtain rfl := Except.ok.inj h
          trivial
        · cases h
      · split at h
        · split at h
          · obtain rfl := Except.ok.inj h
            trivial
          · cases h
        · obtain rfl := Except.ok.inj h
          trivial

theorem parse_accepted {descriptors : List Segment}
    (h : parse mem head descriptors capacity = .ok r) : r.Accepted capacity := by
  unfold parse at h
  dsimp only at h
  split at h
  · next completion hc =>
    obtain ⟨total, -, h⟩ := Except.bind_eq_ok.1 h
    obtain ⟨-, h⟩ := Except.ensure_bind_eq_ok.1 h
    obtain ⟨hlen, h⟩ := Except.ensure_bind_eq_ok.1 h
    obtain ⟨⟨header, rest⟩, -, h⟩ := Except.bind_eq_ok.1 h
    exact parseBody_accepted hlen h
  · cases h

theorem decodeChain_accepted {descriptors : List Segment}
    (h : decodeChain mem head descriptors capacity = .ok r) : r.Accepted capacity := by
  unfold decodeChain at h
  split at h
  · next request hp =>
    obtain rfl := Except.ok.inj h
    exact parse_accepted hp
  · split at h
    · obtain rfl := Except.ok.inj h
      trivial
    · cases h

theorem negotiated_accepted (features : Nat) (h : r.Accepted capacity) :
    (r.negotiated features).Accepted capacity := by
  cases r with
  | zero range =>
    unfold Request.negotiated
    dsimp only
    generalize (if range.kind = .discard then VIRTIO_BLK_F_DISCARD else VIRTIO_BLK_F_WRITE_ZEROES) = bit
    split
    · exact h
    · trivial
  | read _ | write _ | flush _ | getId _ _ | unsupported _ | invalid _ => exact h

end Parse

/-! ## The carrier and the builder -/

section Later

variable {capacity offset len : Nat} {r : Request}

/-- An accepted range passes the carrier's check, whatever kind of range it is. -/
theorem AcceptedRange.validate {q : Inflight.Request} (h : AcceptedRange capacity q.offset q.length)
    (hk : q.kind ≠ .flush ∧ q.kind ≠ .protocol) (hne : q.kind.isZero = false → q.length ≠ 0) :
    q.validate capacity = .ok () := by
  have hin := h.inside
  have hsize := h.size
  have hover : ((checkedAdd q.offset q.length).all fun stop => decide (stop > capacity)) = false := by
    rw [checkedAdd, if_pos h.fits, Option.all_some, decide_eq_false (by omega)]
  have hpass : ¬ (¬ BLOCK_SIZE ∣ q.offset ∨ ¬ BLOCK_SIZE ∣ q.length ∨
      ((checkedAdd q.offset q.length).all fun stop => decide (stop > capacity)) = true ∨
      (¬ q.kind.isZero = true ∧ (q.length = 0 ∨ q.length > MAX_REQUEST_BYTES))) := by
    rintro (hc | hc | hc | ⟨hz, hc⟩)
    · exact hc h.start
    · exact hc h.blocks
    · rw [hover] at hc
      cases hc
    · have := hne (by simpa using hz)
      omega
  unfold Inflight.Request.validate
  cases hkind : q.kind with
  | flush => exact absurd hkind hk.1
  | protocol => exact absurd hkind hk.2
  | read | write | zero | discard | zeroUnmap =>
    rw [hkind] at hpass
    exact if_neg hpass

theorem Request.Accepted.validate (h : r.Accepted capacity) (queue available : Nat) :
    (r.inflight queue available).validate capacity = .ok () := by
  cases r with
  | read data => exact h.2.validate ⟨nofun, nofun⟩ fun _ => h.1
  | write data => exact h.2.validate ⟨nofun, nofun⟩ fun _ => h.1
  | zero range =>
    have hz := range.zeroes
    refine AcceptedRange.validate (q := (Request.zero range).inflight queue available) h ⟨?_, ?_⟩ ?_
    · intro hk
      rw [show range.kind = .flush from hk] at hz
      cases hz
    · intro hk
      rw [show range.kind = .protocol from hk] at hz
      cases hz
    · intro hk
      exact absurd (hz.symm.trans hk) (by decide)
  | flush _ | getId _ _ | unsupported _ | invalid _ => rfl

theorem AcceptedRange.validRange (h : AcceptedRange capacity offset len) (hne : len ≠ 0) :
    validRange offset len capacity = true := by
  have hin := h.inside
  unfold Append.validRange
  rw [checkedAdd, if_pos h.fits]
  simp only [Option.any_some, decide_eq_true_eq]
  exact ⟨hne, Nat.mod_eq_zero_of_dvd h.start, Nat.mod_eq_zero_of_dvd h.blocks, hin⟩

/-- A builder of the image refuses an accepted range only for its own room or the request's identity. -/
theorem AcceptedRange.admits (h : AcceptedRange capacity offset len) (hne : len ≠ 0) {b : Builder}
    (hb : b.imageBytes = capacity) (id : RequestId) (payload : Nat) :
    b.admits id offset len payload = (do
      requireFormat (b.descriptors < Append.MAX_DESCRIPTORS) "full descriptor batch"
      requireFormat (id.serial > b.lastSerial ∧ id.attachment ≠ 0) "request identity"
      requireFormat (payload ≤ b.allocationBytes - BLOCK_SIZE - b.payloadBytes)
        "full payload batch") := by
  unfold Builder.admits
  rw [hb, h.validRange hne]
  rfl

end Later

/-- The mutation a request asks of the log: its range, and how much of it is payload. -/
def Request.mutation : Request → Option (Nat × Nat × Nat)
  | .write data => some (data.offset, data.len, data.len)
  | .zero range => if range.len = 0 then none else some (range.offset, range.len, 0)
  | .read _ | .flush _ | .getId _ _ | .unsupported _ | .invalid _ => none

/-- **What the parser accepts, the later layers accept.** A parsed and negotiated request passes the
carrier's check, its range does not overflow, and its mutation, if it has one, is refused by a builder
of the image only for want of room or for the request's identity; an empty builder of the request size
has that room. -/
theorem accepted_by_later_layers {mem : GuestMemory} {head capacity : Nat} {descriptors : List Segment}
    {r : Request} (h : decodeChain mem head descriptors capacity = .ok r)
    (features queue available : Nat) :
    ((r.negotiated features).inflight queue available).validate capacity = .ok () ∧
      (r.negotiated features).span.2.1 + (r.negotiated features).span.2.2 < U64 ∧
      ∀ offset len payload, (r.negotiated features).mutation = some (offset, len, payload) →
        (∀ (b : Builder) (id : RequestId), b.imageBytes = capacity →
          b.admits id offset len payload = (do
            requireFormat (b.descriptors < Append.MAX_DESCRIPTORS) "full descriptor batch"
            requireFormat (id.serial > b.lastSerial ∧ id.attachment ≠ 0) "request identity"
            requireFormat (payload ≤ b.allocationBytes - BLOCK_SIZE - b.payloadBytes)
              "full payload batch")) ∧
        ∀ (b : Builder) (id : RequestId), Builder.new capacity MAX_REQUEST_BYTES = .ok b →
          id.serial ≠ 0 → id.attachment ≠ 0 → b.admits id offset len payload = .ok () := by
  have hacc := negotiated_accepted features (decodeChain_accepted h)
  refine ⟨hacc.validate queue available, (r.negotiated features).span_fits, ?_⟩
  intro offset len payload hm
  have hrange : len ≠ 0 ∧ AcceptedRange capacity offset len ∧ payload ≤ MAX_REQUEST_BYTES := by
    generalize r.negotiated features = r' at hacc hm
    cases r' with
    | write data =>
      obtain ⟨rfl, rfl, rfl⟩ : data.offset = offset ∧ data.len = len ∧ data.len = payload := by
        simpa [Request.mutation] using hm
      exact ⟨hacc.1, hacc.2, hacc.2.size⟩
    | zero range =>
      simp only [Request.mutation] at hm
      split at hm
      · cases hm
      · next hne =>
        obtain ⟨rfl, rfl, rfl⟩ : range.offset = offset ∧ range.len = len ∧ 0 = payload := by
          simpa using hm
        exact ⟨hne, hacc, Nat.zero_le _⟩
    | read _ | flush _ | getId _ _ | unsupported _ | invalid _ => cases hm
  obtain ⟨hne, hr, hp⟩ := hrange
  refine ⟨fun b id hb => hr.admits hne hb id payload, ?_⟩
  intro b id hb hs ha
  obtain ⟨-, hb⟩ := Except.ensure_bind_eq_ok.1 hb
  obtain ⟨-, hb⟩ := Except.ensure_bind_eq_ok.1 hb
  obtain rfl := Except.ok.inj hb
  rw [hr.admits hne rfl]
  refine Except.ensure_bind_eq_ok.2 ⟨show 0 < 63 by decide, Except.ensure_bind_eq_ok.2
    ⟨⟨Nat.pos_of_ne_zero hs, ha⟩, Except.ensure_eq_ok.2 ?_⟩⟩
  simpa [Builder.allocationBytes] using hp

/-- A memory that holds a WRITE_ZEROES request of eight sectors at its start. -/
def zeroesMemory : GuestMemory where
  byte := fun i => if i = 0 then 13 else if i = 24 then 8 else 0
  allows := fun _ _ => true

/-- The request of that memory, for a device of one block. -/
theorem accepted_by_later_layers_zeroes :
    let r := Request.zero ⟨⟨3, 32⟩, 0, BLOCK_SIZE, .zero, by decide, rfl⟩
    decodeChain zeroesMemory 3 [⟨0, 32, false⟩, ⟨32, 1, true⟩] BLOCK_SIZE = .ok r ∧
      ((r.negotiated (2 ^ 14)).inflight 0 0).validate BLOCK_SIZE = .ok () := by
  have h : decodeChain zeroesMemory 3 [⟨0, 32, false⟩, ⟨32, 1, true⟩] BLOCK_SIZE =
      .ok (.zero ⟨⟨3, 32⟩, 0, BLOCK_SIZE, .zero, by decide, rfl⟩) := by decide +kernel
  exact ⟨h, (accepted_by_later_layers h (2 ^ 14) 0 0).1⟩

end Cas.Daemon
