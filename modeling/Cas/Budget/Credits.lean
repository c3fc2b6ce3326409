import Cas.Encoding

/-!
# Budgets (`budget.rs`)

Credits precede allocations and are returned when the resource is released. A subtraction that
underflows makes the code panic (`none`).
-/

namespace Cas

structure Amount where
  bytes : Nat
  requests : Nat
  deriving DecidableEq, Repr

structure Usage where
  current : Amount
  peak : Amount
  admitted : Nat
  released : Nat
  rejected : Nat
  deriving DecidableEq, Repr

structure Budget where
  limit : Amount
  usage : Usage
  deriving DecidableEq, Repr

namespace Budget

def new (limit : Amount) : Budget := ⟨limit, ⟨⟨0, 0⟩, ⟨0, 0⟩, 0, 0, 0⟩⟩

def claim (b : Budget) (amount : Amount) : Option (Bool × Budget) := do
  let bytes ← checkedSub b.limit.bytes b.usage.current.bytes
  let requests ← checkedSub b.limit.requests b.usage.current.requests
  if amount.bytes > bytes ∨ amount.requests > requests then
    return (false, { b with usage.rejected := saturatingAdd b.usage.rejected 1 })
  let current : Amount :=
    ⟨b.usage.current.bytes + amount.bytes, b.usage.current.requests + amount.requests⟩
  return (true, { b with usage := { b.usage with
    current
    peak := ⟨max b.usage.peak.bytes current.bytes, max b.usage.peak.requests current.requests⟩
    admitted := saturatingAdd b.usage.admitted 1 } })

def release (b : Budget) (amount : Amount) : Option Budget := do
  let bytes ← checkedSub b.usage.current.bytes amount.bytes
  let requests ← checkedSub b.usage.current.requests amount.requests
  return { b with usage := { b.usage with
    current := ⟨bytes, requests⟩
    released := saturatingAdd b.usage.released 1 } }

section Bytes

variable {b : Budget} {limit used n : Nat}

/-- A claim of bytes alone is granted when they fit below the limit. -/
theorem claim_bytes (hl : b.limit = ⟨limit, 0⟩) (hu : b.usage.current = ⟨used, 0⟩)
    (hle : used ≤ limit) (n : Nat) :
    ∃ b', b.claim ⟨n, 0⟩ = some (decide (used + n ≤ limit), b') ∧ b'.limit = b.limit ∧
      b'.usage.current = ⟨if used + n ≤ limit then used + n else used, 0⟩ := by
  obtain ⟨l, ⟨c, peak, admitted, released, rejected⟩⟩ := b
  obtain rfl : l = ⟨limit, 0⟩ := hl
  obtain rfl : c = ⟨used, 0⟩ := hu
  unfold claim
  rw [checkedSub_of_le hle, checkedSub_of_le (le_refl 0)]
  simp only [Option.bind_eq_bind, Option.bind_some]
  by_cases hn : used + n ≤ limit
  · rw [decide_eq_true hn, if_pos hn, if_neg (by show ¬ (n > limit - used ∨ 0 > 0 - 0); omega)]
    exact ⟨_, rfl, rfl, rfl⟩
  · rw [decide_eq_false hn, if_neg hn, if_pos (by show n > limit - used ∨ 0 > 0 - 0; omega)]
    exact ⟨_, rfl, rfl, rfl⟩

theorem release_bytes (hu : b.usage.current = ⟨used, 0⟩) (hle : n ≤ used) :
    ∃ b', b.release ⟨n, 0⟩ = some b' ∧ b'.limit = b.limit ∧
      b'.usage.current = ⟨used - n, 0⟩ := by
  unfold release
  rw [hu, checkedSub_of_le hle, checkedSub_of_le (le_refl 0)]
  exact ⟨_, rfl, rfl, rfl⟩

end Bytes

end Budget

end Cas
