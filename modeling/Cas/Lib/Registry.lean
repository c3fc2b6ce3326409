import Mathlib.Data.Finset.Card
import Mathlib.Data.List.Count
import Mathlib.Data.List.Nodup
import Mathlib.Tactic.Common

/-!
# Reference-counted registries

A registry holds the keys that have owners, each with the number of its owners, and finds a key by a
tag. `Counts tag r pins` says that `r` counts the owners listed in `pins`: this is what an insert, a
clone or a drop keeps (`Counts.insert`, `Counts.bump`, `Counts.release`), as long as two owners with
one tag own the same key.
-/

namespace Cas.Registry

open List

/-- A registered key and the number of its owners. -/
structure Entry (κ : Type) where
  key : κ
  owners : Nat
  deriving DecidableEq

variable {κ : Type} (tag : κ → Nat)

/-- The entry with a tag. -/
def find (r : List (Entry κ)) (t : Nat) : Option (Entry κ) := r.find? fun e => tag e.key = t

/-- One more owner of the key with a tag. -/
def bump (r : List (Entry κ)) (t : Nat) : List (Entry κ) :=
  r.map fun e => if tag e.key = t then { e with owners := e.owners + 1 } else e

/-- One owner less; a key without owners is removed. -/
def release (r : List (Entry κ)) (t : Nat) : List (Entry κ) :=
  r.filterMap fun e =>
    if tag e.key = t then if e.owners - 1 = 0 then none else some { e with owners := e.owners - 1 }
    else some e

/-- The registry counts the owners `pins`. -/
structure Counts [DecidableEq κ] (r : List (Entry κ)) (pins : List κ) : Prop where
  nodup : (r.map fun e => tag e.key).Nodup
  owners : ∀ e ∈ r, e.owners = pins.count e.key ∧ 0 < e.owners
  mem : ∀ k ∈ pins, ∃ e ∈ r, e.key = k

variable {tag} {r : List (Entry κ)} {pins : List κ}

theorem find_some {t : Nat} {e : Entry κ} (h : find tag r t = some e) : e ∈ r ∧ tag e.key = t :=
  ⟨mem_of_find?_eq_some h, by simpa using find?_some h⟩

namespace Counts

variable [DecidableEq κ]

theorem eq_of_tag (h : Counts tag r pins) {e e' : Entry κ} (he : e ∈ r) (he' : e' ∈ r)
    (ht : tag e.key = tag e'.key) : e = e' := by
  have := inj_on_of_nodup_map h.nodup he he' ht
  exact this

theorem mem_keys (h : Counts tag r pins) {k : κ} : (∃ e ∈ r, e.key = k) ↔ k ∈ pins := by
  refine ⟨?_, h.mem k⟩
  rintro ⟨e, he, rfl⟩
  obtain ⟨ho, hpos⟩ := h.owners e he
  exact count_pos_iff.1 (ho ▸ hpos)

theorem find_of_mem (h : Counts tag r pins) {k : κ} (hk : k ∈ pins) :
    ∃ e, find tag r (tag k) = some e ∧ e.key = k := by
  obtain ⟨e, he, rfl⟩ := h.mem k hk
  cases hf : find tag r (tag e.key) with
  | none => exact (find?_eq_none.1 hf e he (decide_eq_true rfl)).elim
  | some e' =>
    obtain ⟨he', ht⟩ := find_some hf
    exact ⟨e', rfl, by rw [h.eq_of_tag he' he ht]⟩

theorem length_eq (h : Counts tag r pins) : r.length = pins.toFinset.card := by
  have hnd : (r.map (·.key)).Nodup := by
    refine List.Nodup.of_map tag ?_
    rw [map_map]
    exact h.nodup
  have hmem : (r.map (·.key)).toFinset = pins.toFinset := by
    ext k
    simp only [mem_toFinset, mem_map]
    exact h.mem_keys
  rw [← hmem, toFinset_card_of_nodup hnd, length_map]

theorem nil : Counts tag ([] : List (Entry κ)) [] :=
  ⟨nodup_nil, by simp, by simp⟩

theorem perm (h : Counts tag r pins) {pins' : List κ} (hp : pins.Perm pins') : Counts tag r pins' :=
  ⟨h.nodup, fun e he => hp.count_eq e.key ▸ h.owners e he, fun k hk => h.mem k (hp.mem_iff.2 hk)⟩

theorem insert (h : Counts tag r pins) {k : κ} (hf : find tag r (tag k) = none) :
    Counts tag (r ++ [⟨k, 1⟩]) (k :: pins) := by
  have hnew : ∀ e ∈ r, tag e.key ≠ tag k := by
    intro e he
    simpa using find?_eq_none.1 hf e he
  have hk : k ∉ pins := by
    intro hk
    obtain ⟨e, he, rfl⟩ := h.mem k hk
    exact hnew e he rfl
  refine ⟨?_, ?_, ?_⟩
  · rw [map_append, nodup_append]
    refine ⟨h.nodup, by simp, ?_⟩
    intro t ht t' ht'
    obtain ⟨e, he, rfl⟩ := mem_map.1 ht
    simp only [map_cons, map_nil, mem_singleton] at ht'
    rw [ht']
    exact hnew e he
  · intro e he
    rcases mem_append.1 he with he | he
    · have hne : e.key ≠ k := fun h' => hnew e he (by rw [h'])
      rw [count_cons_of_ne hne.symm]
      exact h.owners e he
    · rw [mem_singleton.1 he, count_cons_self, count_eq_zero_of_not_mem hk]
      exact ⟨rfl, Nat.one_pos⟩
  · intro k' hk'
    rcases mem_cons.1 hk' with rfl | hk'
    · exact ⟨⟨k', 1⟩, by simp, rfl⟩
    · obtain ⟨e, he, hek⟩ := h.mem k' hk'
      exact ⟨e, mem_append_left _ he, hek⟩

theorem bump (h : Counts tag r pins) {k : κ} (hk : k ∈ pins) :
    Counts tag (bump tag r (tag k)) (k :: pins) := by
  have hkey : ∀ e ∈ r, tag e.key = tag k → e.key = k := by
    intro e he ht
    obtain ⟨e', he', rfl⟩ := h.mem k hk
    rw [h.eq_of_tag he he' ht]
  refine ⟨?_, ?_, ?_⟩
  · have : (Registry.bump tag r (tag k)).map (fun e => tag e.key) = r.map fun e => tag e.key := by
      rw [Registry.bump, map_map]
      refine map_congr_left fun e _ => ?_
      simp only [Function.comp]
      split <;> rfl
    rw [this]
    exact h.nodup
  · intro e he
    obtain ⟨e₀, he₀, rfl⟩ := mem_map.1 he
    obtain ⟨h1, h2⟩ := h.owners e₀ he₀
    by_cases ht : tag e₀.key = tag k
    · simp only [if_pos ht]
      rw [hkey e₀ he₀ ht, count_cons_self, ← hkey e₀ he₀ ht, ← h1]
      exact ⟨rfl, Nat.succ_pos _⟩
    · simp only [if_neg ht]
      rw [count_cons_of_ne fun h' => ht (by rw [h'])]
      exact ⟨h1, h2⟩
  · intro k' hk'
    have hk' : k' ∈ pins := by
      rcases mem_cons.1 hk' with rfl | hk'
      · exact hk
      · exact hk'
    obtain ⟨e, he, rfl⟩ := h.mem k' hk'
    refine ⟨_, mem_map.2 ⟨e, he, rfl⟩, ?_⟩
    split <;> rfl

theorem release (h : Counts tag r pins) {k : κ} (hk : k ∈ pins) :
    Counts tag (release tag r (tag k)) (pins.erase k) := by
  have hkey : ∀ e ∈ r, tag e.key = tag k → e.key = k := by
    intro e he ht
    obtain ⟨e', he', rfl⟩ := h.mem k hk
    rw [h.eq_of_tag he he' ht]
  have hmem : ∀ e' ∈ Registry.release tag r (tag k), ∃ e ∈ r, e'.key = e.key ∧
      (tag e.key = tag k ∧ e'.owners = e.owners - 1 ∧ 0 < e'.owners ∨ tag e.key ≠ tag k ∧ e' = e) := by
    intro e' he'
    obtain ⟨e, he, hs⟩ := mem_filterMap.1 he'
    by_cases ht : tag e.key = tag k
    · rw [if_pos ht] at hs
      split at hs
      · cases hs
      · rename_i hpos
        cases hs
        exact ⟨e, he, rfl, Or.inl ⟨ht, rfl, Nat.pos_of_ne_zero hpos⟩⟩
    · rw [if_neg ht, Option.some.injEq] at hs
      exact ⟨e, he, by rw [hs], Or.inr ⟨ht, hs.symm⟩⟩
  refine ⟨?_, ?_, ?_⟩
  · have hsub : ((Registry.release tag r (tag k)).map fun e => tag e.key).Sublist
        (r.map fun e => tag e.key) := by
      unfold Registry.release
      clear hmem hkey h
      induction r with
      | nil => exact List.Sublist.refl _
      | cons e r ih =>
        rw [filterMap_cons]
        split
        · exact ih.cons _
        · rename_i e' he'
          have : tag e'.key = tag e.key := by
            split at he'
            · split at he'
              · cases he'
              · cases he'
                rfl
            · cases he'
              rfl
          rw [map_cons, map_cons, this]
          exact ih.cons_cons _
    exact h.nodup.sublist hsub
  · intro e' he'
    obtain ⟨e, he, hk', hcase⟩ := hmem e' he'
    obtain ⟨h1, h2⟩ := h.owners e he
    rcases hcase with ⟨ht, ho, hpos⟩ | ⟨ht, rfl⟩
    · rw [hk', hkey e he ht, count_erase_self, ho, h1, hkey e he ht]
      rw [ho, h1, hkey e he ht] at hpos
      exact ⟨rfl, hpos⟩
    · rw [count_erase_of_ne fun h' => ht (by rw [h'])]
      exact ⟨h1, h2⟩
  · intro k' hk'
    obtain ⟨e, he, rfl⟩ := h.mem k' (mem_of_mem_erase hk')
    by_cases ht : tag e.key = tag k
    · have hek := hkey e he ht
      obtain ⟨h1, -⟩ := h.owners e he
      have hpos : 0 < e.owners - 1 := by
        rw [h1, hek, ← count_erase_self]
        rw [hek] at hk'
        exact count_pos_iff.2 hk'
      refine ⟨{ e with owners := e.owners - 1 }, mem_filterMap.2 ⟨e, he, ?_⟩, rfl⟩
      rw [if_pos ht, if_neg (ne_of_gt hpos)]
    · exact ⟨e, mem_filterMap.2 ⟨e, he, by rw [if_neg ht]⟩, rfl⟩

end Counts

end Cas.Registry
