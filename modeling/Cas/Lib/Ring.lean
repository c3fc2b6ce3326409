import Mathlib.Data.Nat.Basic
import Mathlib.Tactic.Common

/-!
# Positions on a ring

The positions `0, …, n - 1` in cyclic order, from some start on: every position is reached after less
than one turn, and by one offset only. As the start moves on, the position it passes becomes the last
one and the others come one earlier.
-/

namespace Cas.Ring

variable {n : Nat}

theorem exists_offset (start : Nat) {i : Nat} (hi : i < n) : ∃ o < n, (start + o) % n = i := by
  have hr : start % n < n := Nat.mod_lt _ (Nat.zero_lt_of_lt hi)
  by_cases hle : start % n ≤ i
  · refine ⟨i - start % n, by omega, ?_⟩
    rw [← Nat.mod_add_mod, Nat.add_sub_cancel' hle, Nat.mod_eq_of_lt hi]
  · refine ⟨i + n - start % n, by omega, ?_⟩
    rw [← Nat.mod_add_mod, show start % n + (i + n - start % n) = i + n by omega,
      Nat.add_mod_right, Nat.mod_eq_of_lt hi]

theorem offset_ne (start : Nat) {i j : Nat} (hij : i < j) (hj : j < n) :
    (start + i) % n ≠ (start + j) % n := by
  intro h
  have h0 := Nat.sub_mod_eq_zero_of_mod_eq h.symm
  rw [Nat.add_sub_add_left, Nat.mod_eq_of_lt (by omega)] at h0
  omega

/-- How many positions after `start` the position `i` comes. -/
def distance (n start i : Nat) : Nat := if start ≤ i then i - start else i + n - start

variable {start i j : Nat}

@[simp] theorem distance_self : distance n start start = 0 := by
  rw [distance, if_pos (Nat.le_refl start), Nat.sub_self]

theorem distance_lt (hs : start < n) (hi : i < n) : distance n start i < n := by
  unfold distance
  split <;> omega

theorem succ_mod (hs : start < n) : (start + 1) % n = if start + 1 = n then 0 else start + 1 := by
  split
  · next h => rw [h, Nat.mod_self]
  · exact Nat.mod_eq_of_lt (by omega)

theorem distance_passed (hs : start < n) : distance n ((start + 1) % n) start + 1 = n := by
  rw [succ_mod hs, distance]
  split <;> split <;> omega

theorem distance_succ (hs : start < n) (hi : i < n) (hne : i ≠ start) :
    distance n ((start + 1) % n) i + 1 = distance n start i := by
  rw [succ_mod hs, distance, distance]
  split <;> split <;> split <;> omega

/-- Which of two positions comes first, once the start has moved on. -/
theorem distance_lt_succ (hs : start < n) (hi : i < n) (hj : j < n) (hne : i ≠ j) :
    distance n ((start + 1) % n) j < distance n ((start + 1) % n) i ↔
      j ≠ start ∧ (i = start ∨ distance n start j < distance n start i) := by
  by_cases hjs : j = start
  · subst hjs
    have hp := distance_passed hs
    have hi' := distance_succ hs hi hne
    have hlt := distance_lt hs hi
    omega
  · have hj' := distance_succ hs hj hjs
    by_cases his : i = start
    · subst his
      have hp := distance_passed hs
      have hlt := distance_lt hs hj
      omega
    · have hi' := distance_succ hs hi his
      omega

end Cas.Ring
