import Cas.Lib.Bytes
import Cas.Lib.Except

/-!
# Fixed-size storage records (`encoding.rs`, `lib.rs`)

Errors, digests and the little-endian fields of length-checked blocks. The two digests come from
third-party crates and are parameters of the whole development.
-/

namespace Cas

@[simp] abbrev BLOCK_SIZE : Nat := 4096

/-- Maximum byte payload accepted by staging and VM adapter. -/
@[simp] abbrev MAX_REQUEST_BYTES : Nat := 1024 * 1024

/-- One past the largest `u64`. -/
abbrev U64 : Nat := 2 ^ 64

/-- `i64::MAX as u64`. -/
abbrev I64_MAX : Nat := 2 ^ 63 - 1

/-- `u64::checked_add`. -/
def checkedAdd (a b : Nat) : Option Nat := if a + b < U64 then some (a + b) else none

/-- `u64::checked_sub`, and `-` where it would panic. -/
def checkedSub (a b : Nat) : Option Nat := if b ≤ a then some (a - b) else none

/-- `u64::saturating_add`. -/
def saturatingAdd (a b : Nat) : Nat := min (a + b) (U64 - 1)

/-- `io::ErrorKind`, as far as the storage code distinguishes kinds. -/
inductive ErrorKind
  | invalidData
  | invalidInput
  | unexpectedEof
  | notFound
  | alreadyExists
  | wouldBlock
  | outOfMemory
  | other
  deriving DecidableEq, Repr

/-- `io::Error`. -/
structure IoError where
  kind : ErrorKind
  message : String
  deriving DecidableEq, Repr

/-- `crc32fast::hash` and `blake3::hash`. -/
class Digest where
  crc32 : Bytes → UInt32
  blake3 : Bytes → FixedBytes 32

/-- The least discriminating digests, for concrete runs. -/
@[reducible] def nullDigest : Digest := ⟨fun _ => 0, fun _ => .zero 32⟩

/-- `encoding::require`. -/
def require (condition : Prop) [Decidable condition] (message : String) : Except IoError Unit :=
  Except.ensure condition ⟨.invalidData, message⟩

def u16At (b : Bytes) (o : Nat) : Nat := (b.slice o 2).toNat
def u32At (b : Bytes) (o : Nat) : Nat := (b.slice o 4).toNat
def u64At (b : Bytes) (o : Nat) : Nat := (b.slice o 8).toNat

def put16 (b : Bytes) (o v : Nat) : Bytes := b.put o (Bytes.ofNat 2 v)
def put32 (b : Bytes) (o v : Nat) : Bytes := b.put o (Bytes.ofNat 4 v)
def put64 (b : Bytes) (o v : Nat) : Bytes := b.put o (Bytes.ofNat 8 v)

/-- CRC of a block with the four checksum bytes at `field` read as zero. -/
def checksum [Digest] (b : Bytes) (field : Nat) : Nat :=
  (Digest.crc32 (b.take field ++ Bytes.zeros 4 ++ b.drop (field + 4))).toNat

/-- Error of the WAL record format (`append::format::Error`). -/
inductive FormatError
  | invalid (message : String)
  deriving DecidableEq, Repr

theorem require_bind_eq_ok {c : Prop} [Decidable c] {m : String} {β : Type}
    {f : Unit → Except IoError β} {r : β} : require c m >>= f = .ok r ↔ c ∧ f () = .ok r :=
  Except.ensure_bind_eq_ok

theorem require_eq_ok {c : Prop} [Decidable c] {m : String} {u : Unit} :
    require c m = .ok u ↔ c :=
  Except.ensure_eq_ok

/-! ## Field access after field writes -/

theorem checkedSub_of_le {a b : Nat} (h : b ≤ a) : checkedSub a b = some (a - b) := if_pos h

theorem checkedAdd_eq_some {a b c : Nat} : checkedAdd a b = some c ↔ a + b = c ∧ c < U64 := by
  unfold checkedAdd
  split <;> simp <;> omega

theorem u64At_lt (b : Bytes) (o : Nat) : u64At b o < U64 := by
  have h := Bytes.toNat_lt (b.slice o 8)
  have : (b.slice o 8).length ≤ 8 := by rw [Bytes.length_slice]; omega
  exact h.trans_le ((Nat.pow_le_pow_right (by decide) this).trans (by decide))

theorem checksum_lt [Digest] (b : Bytes) (field : Nat) : checksum b field < 2 ^ 32 :=
  (Digest.crc32 _).toNat_lt

theorem toNat_ofNat8 {v : Nat} (h : v < U64) : (Bytes.ofNat 8 v).toNat = v :=
  Bytes.toNat_ofNat h

theorem toNat_ofNat4 {v : Nat} (h : v < 2 ^ 32) : (Bytes.ofNat 4 v).toNat = v :=
  Bytes.toNat_ofNat h

theorem toNat_ofNat2 {v : Nat} (h : v < 2 ^ 16) : (Bytes.ofNat 2 v).toNat = v :=
  Bytes.toNat_ofNat h

section Fields

variable {b : Bytes} {o v : Nat}

@[simp] theorem length_put16 : (put16 b o v).length = b.length := Bytes.length_put _ _ _

@[simp] theorem length_put32 : (put32 b o v).length = b.length := Bytes.length_put _ _ _

@[simp] theorem length_put64 : (put64 b o v).length = b.length := Bytes.length_put _ _ _

theorem u32At_put32 (h : o + 4 ≤ b.length) (hv : v < 2 ^ 32) : u32At (put32 b o v) o = v := by
  rw [u32At, put32, Bytes.slice_put_self h (by simp), Bytes.toNat_ofNat hv]

theorem u64At_put64 (h : o + 8 ≤ b.length) (hv : v < U64) : u64At (put64 b o v) o = v := by
  rw [u64At, put64, Bytes.slice_put_self h (by simp), Bytes.toNat_ofNat hv]

theorem slice_put16 {o' n : Nat} (h : o' + n ≤ o ∨ o + 2 ≤ o') :
    (put16 b o v).slice o' n = b.slice o' n :=
  Bytes.slice_put_disjoint (by simpa using h)

theorem slice_put32 {o' n : Nat} (h : o' + n ≤ o ∨ o + 4 ≤ o') :
    (put32 b o v).slice o' n = b.slice o' n :=
  Bytes.slice_put_disjoint (by simpa using h)

theorem slice_put64 {o' n : Nat} (h : o' + n ≤ o ∨ o + 8 ≤ o') :
    (put64 b o v).slice o' n = b.slice o' n :=
  Bytes.slice_put_disjoint (by simpa using h)

end Fields

/-- Writing the checksum field does not change the checksum. -/
theorem checksum_put32_self [Digest] (b : Bytes) (field v : Nat) :
    checksum (put32 b field v) field = checksum b field := by
  have ht : (put32 b field v).take field = b.take field := by
    have hs : (put32 b field v).slice 0 field = b.slice 0 field := slice_put32 (Or.inl (by omega))
    simpa [Bytes.slice] using hs
  have hd : (put32 b field v).drop (field + 4) = b.drop (field + 4) := by
    have hs : (put32 b field v).slice (field + 4) b.length = b.slice (field + 4) b.length :=
      slice_put32 (Or.inr (le_refl _))
    simpa [Bytes.slice, List.take_of_length_le] using hs
  rw [checksum, checksum, ht, hd]

/-! ## Reading a record and writing it again -/

section Again

variable {b : Bytes} {o : Nat}

theorem ofNat_u16At (h : o + 2 ≤ b.length) : Bytes.ofNat 2 (u16At b o) = b.slice o 2 := by
  have := Bytes.ofNat_toNat (b.slice o 2)
  rwa [Bytes.length_slice_of_le h] at this

theorem ofNat_u32At (h : o + 4 ≤ b.length) : Bytes.ofNat 4 (u32At b o) = b.slice o 4 := by
  have := Bytes.ofNat_toNat (b.slice o 4)
  rwa [Bytes.length_slice_of_le h] at this

theorem ofNat_u64At (h : o + 8 ≤ b.length) : Bytes.ofNat 8 (u64At b o) = b.slice o 8 := by
  have := Bytes.ofNat_toNat (b.slice o 8)
  rwa [Bytes.length_slice_of_le h] at this

/-- A block whose checksum field is right is rebuilt from a block equal to it elsewhere. -/
theorem put32_checksum_eq [Digest] {c : Bytes} (hs : u32At b o = checksum b o)
    (hl : o + 4 ≤ b.length) (hc : put32 c o 0 = put32 b o 0) : put32 c o (checksum c o) = b := by
  have hsum : checksum c o = u32At b o := by
    rw [hs, ← checksum_put32_self c o 0, hc, checksum_put32_self]
  have hput : ∀ (a : Bytes) (v : Nat), put32 a o v = put32 (put32 a o 0) o v := by
    intro a v
    simp only [put32]
    rw [Bytes.put_put (by simp)]
  rw [hsum, hput c, hc, ← hput b, put32, ofNat_u32At hl]
  exact Bytes.put_slice_self hl

end Again

end Cas
