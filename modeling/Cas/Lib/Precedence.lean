import Mathlib.Data.List.Nodup
import Mathlib.Tactic.Common

/-!
# Histories that respect a precedence

A scheduler sees items one after another and releases them in an order of its own. `Respects R` are
the histories in which an item is only released once every earlier item that `R` puts before it was.
In such a history the releases of two items related by `R` come in the order the items were seen.
-/

namespace Cas.Precedence

open List

/-- The items seen and those released, both in time order. -/
structure History (α : Type) where
  seen : List α
  released : List α

variable {α : Type} {R : α → α → Prop} {h : History α} {a b x : α}

/-- Every item is seen once, and released once at most and after those that precede it. -/
inductive Respects (R : α → α → Prop) : History α → Prop
  | nil : Respects R ⟨[], []⟩
  | see {h : History α} {x : α} (hr : Respects R h) (hx : x ∉ h.seen) :
      Respects R ⟨h.seen ++ [x], h.released⟩
  | release {h : History α} {x : α} (hr : Respects R h) (hx : x ∈ h.seen) (hn : x ∉ h.released)
      (hp : ∀ y, [y, x].Sublist h.seen → R y x → y ∈ h.released) :
      Respects R ⟨h.seen, h.released ++ [x]⟩

theorem pair_sublist_append {l : List α} :
    [a, b].Sublist (l ++ [x]) ↔ [a, b].Sublist l ∨ a ∈ l ∧ b = x := by
  constructor
  · intro hs
    obtain ⟨l₁, l₂, hl, h₁, h₂⟩ := sublist_append_iff.1 hs
    match l₁, l₂, hl with
    | [], _, rfl => simpa using h₂.length_le
    | [_], [_], rfl => exact .inr ⟨h₁.subset (by simp), by simpa using h₂⟩
    | [_, _], [], rfl => exact .inl h₁
  · rintro (hs | ⟨ha, rfl⟩)
    · exact hs.trans (sublist_append_left l _)
    · exact List.Sublist.append (singleton_sublist.2 ha) (List.Sublist.refl [b])

namespace Respects

theorem released_subset (hr : Respects R h) : h.released ⊆ h.seen := by
  induction hr with
  | nil => exact List.Subset.refl _
  | see _ _ ih => exact List.Subset.trans ih (subset_append_left _ _)
  | release _ hx _ _ ih => exact append_subset.2 ⟨ih, by simpa using hx⟩

theorem nodup_released (hr : Respects R h) : h.released.Nodup := by
  induction hr with
  | nil => exact nodup_nil
  | see _ _ ih => exact ih
  | release _ _ hn _ ih => simpa using ih.concat hn

/-- Related items are released in the order in which they were seen. -/
theorem pair_sublist (hr : Respects R h) (hs : [a, b].Sublist h.seen) (hR : R a b)
    (hb : b ∈ h.released) : [a, b].Sublist h.released := by
  induction hr with
  | nil => cases hb
  | see hr hx ih =>
    rcases pair_sublist_append.1 hs with hs | ⟨-, rfl⟩
    · exact ih hs hb
    · exact (hx (hr.released_subset hb)).elim
  | @release h x hr _ _ hp ih =>
    rcases mem_append.1 hb with hb | hb
    · exact pair_sublist_append.2 (.inl (ih hs hb))
    · obtain rfl := mem_singleton.1 hb
      exact pair_sublist_append.2 (.inr ⟨hp a hs hR, rfl⟩)

end Respects

end Cas.Precedence
