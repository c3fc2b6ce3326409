import Cas.Encoding
import Cas.Lib.Ring

/-!
# Fixed rings (`budget/queue.rs`)

A queue of fixed capacity in a ring of slots. `Queue.Holds q l` says that the occupied slots, from
the head on, hold the list `l`; pushing and popping are those of the list.
-/

namespace Cas.Budget

open List

structure Queue (α : Type) where
  slots : List (Option α)
  head : Nat
  len : Nat

namespace Queue

variable {α : Type}

def withCapacity (capacity : Nat) : Except IoError (Queue α) :=
  if capacity = 0 then .error ⟨.invalidInput, "invalid input parameter"⟩
  else .ok ⟨List.replicate capacity none, 0, 0⟩

def capacity (q : Queue α) : Nat := q.slots.length

/-- A full queue hands the value back. -/
def tryPushBack (q : Queue α) (value : α) : Except α (Queue α) :=
  if q.len = q.capacity then .error value
  else .ok { q with
    slots := q.slots.set ((q.head + q.len) % q.capacity) (some value)
    len := q.len + 1 }

def popFront (q : Queue α) : Option α × Queue α :=
  if q.len = 0 then (none, q)
  else (q.slots[q.head]?.join, ⟨q.slots.set q.head none, (q.head + 1) % q.capacity, q.len - 1⟩)

structure Holds (q : Queue α) (l : List α) : Prop where
  head : q.head < q.capacity
  len : q.len = l.length
  bound : l.length ≤ q.capacity
  slots : ∀ {i : Nat} {v : α}, l[i]? = some v →
    q.slots[(q.head + i) % q.capacity]? = some (some v)

namespace Holds

variable {q : Queue α} {l : List α}

theorem withCapacity {n : Nat} (h : Queue.withCapacity n = .ok q) : q.Holds [] ∧ q.capacity = n := by
  unfold Queue.withCapacity at h
  split at h
  · cases h
  · next hn =>
    cases h
    have hcap : capacity (⟨replicate n none, 0, 0⟩ : Queue α) = n := length_replicate
    refine ⟨⟨?_, rfl, Nat.zero_le _, ?_⟩, hcap⟩
    · rw [hcap]
      exact Nat.pos_of_ne_zero hn
    · intro i v hv
      cases hv

theorem tryPushBack_full (h : q.Holds l) (hfull : l.length = q.capacity) (v : α) :
    q.tryPushBack v = .error v := if_pos (h.len.trans hfull)

theorem tryPushBack (h : q.Holds l) (hroom : l.length ≠ q.capacity) (v : α) :
    ∃ q', q.tryPushBack v = .ok q' ∧ q'.Holds (l ++ [v]) ∧ q'.capacity = q.capacity := by
  have hlt : l.length < q.capacity := lt_of_le_of_ne h.bound hroom
  have hcap : ∀ o : Option α, (q.slots.set ((q.head + q.len) % q.capacity) o).length = q.capacity :=
    fun o => length_set
  refine ⟨_, if_neg (by rw [h.len]; exact hroom), ⟨?_, ?_, ?_, ?_⟩, hcap _⟩
  · show q.head < (q.slots.set _ _).length
    rw [hcap]
    exact h.head
  · show q.len + 1 = _
    rw [h.len, length_append]
    rfl
  · show _ ≤ (q.slots.set _ _).length
    rw [hcap, length_append]
    exact hlt
  · intro i w hw
    show (q.slots.set _ _)[(q.head + i) % (q.slots.set _ _).length]? = _
    rw [hcap, h.len]
    have htail : (q.head + l.length) % q.capacity < q.slots.length := Nat.mod_lt _ (by omega)
    rcases lt_trichotomy i l.length with hi | rfl | hi
    · rw [getElem?_append_left hi] at hw
      rw [getElem?_set_ne (Ring.offset_ne q.head hi hlt).symm]
      exact h.slots hw
    · rw [getElem?_concat_length] at hw
      rw [getElem?_set_self htail, ← hw]
    · rw [getElem?_eq_none (by simp; omega)] at hw
      cases hw

theorem popFront_nil (h : q.Holds []) : q.popFront = (none, q) := if_pos h.len

theorem popFront {v : α} (h : q.Holds (v :: l)) :
    ∃ q', q.popFront = (some v, q') ∧ q'.Holds l ∧ q'.capacity = q.capacity := by
  have hlen : q.len = l.length + 1 := h.len
  have hbound : l.length + 1 ≤ q.capacity := h.bound
  have hcap : (q.slots.set q.head none).length = q.capacity := length_set
  have hfront : q.slots[q.head]? = some (some v) := by
    have := h.slots (i := 0) (v := v) rfl
    rwa [add_zero, Nat.mod_eq_of_lt h.head] at this
  refine ⟨⟨q.slots.set q.head none, (q.head + 1) % q.capacity, q.len - 1⟩, ?_, ⟨?_, ?_, ?_, ?_⟩, hcap⟩
  · rw [Queue.popFront, if_neg (by omega), hfront]
    rfl
  · show _ % _ < (q.slots.set q.head none).length
    rw [hcap]
    exact Nat.mod_lt _ (by omega)
  · show q.len - 1 = _
    omega
  · show _ ≤ (q.slots.set q.head none).length
    rw [hcap]
    omega
  · intro i w hw
    have hi : i < l.length := (List.getElem?_eq_some_iff.1 hw).1
    show (q.slots.set q.head none)[((q.head + 1) % q.capacity + i) % (q.slots.set q.head none).length]? = _
    rw [hcap, Nat.mod_add_mod, add_assoc, add_comm 1 i]
    have hne : q.head ≠ (q.head + (i + 1)) % q.capacity := by
      have := Ring.offset_ne q.head (n := q.capacity) (i := 0) (j := i + 1) (by omega) (by omega)
      rwa [add_zero, Nat.mod_eq_of_lt h.head] at this
    rw [getElem?_set_ne hne]
    exact h.slots (i := i + 1) (by rw [getElem?_cons_succ]; exact hw)

end Holds

end Queue

end Cas.Budget
