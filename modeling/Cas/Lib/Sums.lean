import Mathlib

/-!
# Sums over a list of which one entry changes

The statements add on both sides, so that no subtraction is truncated.
-/

namespace Cas.Sums

variable {α : Type} (f : α → Nat) {l : List α} {i : Nat} {a : α}

theorem sum_set (h : l[i]? = some a) (b : α) :
    ((l.set i b).map f).sum + f a = (l.map f).sum + f b := by
  obtain ⟨hi, rfl⟩ := List.getElem?_eq_some_iff.1 h
  have hset := ((List.set_perm_cons_eraseIdx hi b).map f).sum_eq
  have hget := ((List.getElem_cons_eraseIdx_perm hi).map f).sum_eq
  rw [List.map_cons, List.sum_cons] at hset hget
  omega

theorem sum_eraseIdx (h : l[i]? = some a) :
    ((l.eraseIdx i).map f).sum + f a = (l.map f).sum := by
  obtain ⟨hi, rfl⟩ := List.getElem?_eq_some_iff.1 h
  have hget := ((List.getElem_cons_eraseIdx_perm hi).map f).sum_eq
  rw [List.map_cons, List.sum_cons] at hget
  omega

theorem le_sum (h : l[i]? = some a) : f a ≤ (l.map f).sum := by
  have := sum_eraseIdx f h
  omega

theorem map_set {β : Type} {g : α → β} {b : α} (h : l[i]? = some a) (hb : g b = g a) :
    (l.set i b).map g = l.map g := by
  obtain ⟨hi, rfl⟩ := List.getElem?_eq_some_iff.1 h
  rw [List.map_set, hb, ← List.map_set, List.set_getElem_self]

theorem forall_mem_set {p : α → Prop} {b : α} (h : ∀ x ∈ l, p x) (hb : p b) :
    ∀ x ∈ l.set i b, p x :=
  fun x hx => (List.mem_or_eq_of_mem_set hx).elim (h x) (· ▸ hb)

end Cas.Sums
