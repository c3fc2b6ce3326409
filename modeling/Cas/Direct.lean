import Cas.Encoding

/-!
# Files (`direct.rs`)

A file is the list of its bytes up to its end. Reads and writes are aligned and full, or they fail.
A write past the end leaves a hole of zeros; punching a hole keeps the length.
-/

namespace Cas

open Bytes List

/-- `direct::aligned`, for a buffer of `n` bytes. -/
def aligned (n offset : Nat) : Bool := n ≠ 0 ∧ n % BLOCK_SIZE = 0 ∧ offset % BLOCK_SIZE = 0

/-- `direct::read_bytes`. -/
def readBytes (file : Bytes) (offset n : Nat) : Except IoError Bytes :=
  if aligned n offset = false then .error ⟨.invalidInput, "unaligned direct IO"⟩
  else if offset + n ≤ file.length then .ok (file.slice offset n)
  else .error ⟨.unexpectedEof, "short direct read"⟩

/-- The file after a full write. -/
def writeBytes (file : Bytes) (offset : Nat) (v : Bytes) : Bytes :=
  file.take offset ++ zeros (offset - file.length) ++ v ++ file.drop (offset + v.length)

/-- The file after punching a hole. -/
def punch (file : Bytes) (offset n : Nat) : Bytes := file.put offset (zeros n)

theorem readBytes_eq_ok {file : Bytes} {offset n : Nat} {b : Bytes} :
    readBytes file offset n = .ok b ↔
      aligned n offset = true ∧ offset + n ≤ file.length ∧ b = file.slice offset n := by
  unfold readBytes
  cases ha : aligned n offset with
  | false => simp
  | true =>
    by_cases hl : offset + n ≤ file.length
    · simp [hl, eq_comm]
    · simp [hl]

section Write

variable {file v : Bytes} {offset : Nat}

theorem length_writeBytes :
    (writeBytes file offset v).length = max file.length (offset + v.length) := by
  simp only [writeBytes, length_append, length_take, length_drop, length_zeros]
  omega

theorem writeBytes_end (h : file.length = offset) : writeBytes file offset v = file ++ v := by
  unfold writeBytes
  rw [← h, List.take_length, Nat.sub_self, List.drop_of_length_le (by omega)]
  simp [zeros]

theorem slice_writeBytes_disjoint {o n : Nat} (hin : o + n ≤ file.length)
    (h : o + n ≤ offset ∨ offset + v.length ≤ o) :
    (writeBytes file offset v).slice o n = file.slice o n := by
  unfold writeBytes
  rcases h with h | h
  · rw [append_assoc, append_assoc, slice_append_left (by rw [length_take]; omega)]
    unfold slice
    rw [drop_take, take_take, min_eq_left (by omega)]
  · have hlen : (file.take offset ++ zeros (offset - file.length) ++ v).length =
        offset + v.length := by
      simp only [length_append, length_take, length_zeros]
      omega
    rw [slice_append_right (by rw [hlen]; exact h), hlen]
    unfold slice
    rw [drop_drop]
    congr 2
    omega

end Write

@[simp] theorem length_punch (file : Bytes) (offset n : Nat) :
    (punch file offset n).length = file.length := length_put _ _ _

theorem slice_punch_disjoint {file : Bytes} {offset n o k : Nat} (h : o + k ≤ offset ∨ offset + n ≤ o) :
    (punch file offset n).slice o k = file.slice o k :=
  slice_put_disjoint (by simpa using h)

end Cas
