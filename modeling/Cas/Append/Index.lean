import Cas.Append.Format
import Cas.Lib.Interval

/-!
# The staging index (`append/index.rs`)

A disjoint interval map from image bytes to immutable payloads. The ordered map of the source is a
list of entries with increasing keys. `Index.replace` is written as the code computes it, with its
splits and its removal loop; `replace_eq` says that on an ordered map it overwrites one interval.
-/

namespace Cas.Append

open List

/-- `index::Payload`. A segment is shared by reference; its number identifies it. -/
structure Payload where
  segment : Nat
  offset : Nat
  bytes : Nat
  sequence : Nat
  crc : Nat
  batchBlock : Nat
  deriving DecidableEq, Repr

/-- `index::Mapping`; the map key is the start. -/
structure Mapping where
  stop : Nat
  sequence : Nat
  source : Option (Payload × Nat)
  deriving DecidableEq, Repr

/-- The mapping from `skip` bytes on. -/
def Mapping.suffix (m : Mapping) (skip : Nat) : Mapping where
  stop := m.stop
  sequence := m.sequence
  source := m.source.map fun s => (s.1, s.2 + skip)

/-- An entry of the ordered map. -/
abbrev Entry := Nat × Mapping

/-- What a byte of the image is mapped to: a mutation, and a byte of its payload. -/
abbrev Mapped := Nat × Option (Payload × Nat)

instance : Interval Entry Mapped where
  start e := e.1
  stop e := e.2.stop
  value e p := (e.2.sequence, e.2.source.map fun s => (s.1, s.2 + (p - e.1)))
  before e p := (e.1, { e.2 with stop := p })
  after e p := (p, e.2.suffix (p - e.1))
  start_before _ _ := rfl
  stop_before _ _ := rfl
  start_after _ _ := rfl
  stop_after _ _ := rfl
  value_before _ _ _ := rfl
  value_after e p q h1 h2 := by
    simp only [Mapping.suffix, Option.map_map, Prod.mk.injEq, true_and]
    congr 1
    funext s
    simp only [Function.comp, Prod.mk.injEq, true_and]
    omega

@[simp] theorem start_entry (e : Entry) : Interval.start e = e.1 := rfl

@[simp] theorem stop_entry (e : Entry) : Interval.stop e = e.2.stop := rfl

/-! ## The ordered map -/

/-- `BTreeMap::insert`. -/
def insertKey (k : Nat) (m : Mapping) : List Entry → List Entry
  | [] => [(k, m)]
  | e :: l => if e.1 < k then e :: insertKey k m l else if e.1 = k then (k, m) :: l else (k, m) :: e :: l

/-- `BTreeMap::remove`. -/
def removeKey (k : Nat) (l : List Entry) : List Entry := l.filter fun e => e.1 ≠ k

structure Index where
  map : List Entry
  limit : Nat

namespace Index

/-- The predecessor of `start` can straddle either or both boundaries. -/
def trim (start stop : Nat) (map : List Entry) : List Entry :=
  match (map.filter fun e => e.1 < start).getLast? with
  | none => map
  | some (oldStart, old) =>
    if old.stop > start then
      let map := if old.stop > stop then insertKey stop (old.suffix (stop - oldStart)) map else map
      map.map fun e => if e.1 = oldStart then (e.1, { e.2 with stop := start }) else e
    else map

/-- The removal loop. Each turn takes one key of the range out, which bounds the turns. -/
def clear (start stop : Nat) : Nat → List Entry → List Entry
  | 0, map => map
  | fuel + 1, map =>
    match map.find? fun e => start ≤ e.1 ∧ e.1 < stop with
    | none => map
    | some (oldStart, old) =>
      let map := removeKey oldStart map
      clear start stop fuel
        (if old.stop > stop then insertKey stop (old.suffix (stop - oldStart)) map else map)

/-- `Index::replace` past its assertion. -/
def replaceMap (start : Nat) (mapping : Mapping) (map : List Entry) : List Entry :=
  let map := trim start mapping.stop map
  insertKey start mapping (clear start mapping.stop map.length map)

/-- `Index::replace`; `none` is the failed assertion. -/
def replace (i : Index) (start : Nat) (mapping : Mapping) : Option Index :=
  if i.map.length + 2 ≤ i.limit then some { i with map := replaceMap start mapping i.map } else none

def retainAfter (i : Index) (durable : Nat) : Index :=
  { i with map := i.map.filter fun e => e.2.sequence > durable }

/-- `Index::overlapping`. -/
def overlapping (i : Index) (start stop : Nat) : List Entry :=
  let first := ((i.map.filter fun e => e.1 ≤ start).getLast?).elim start Prod.fst
  (i.map.filter fun e => first ≤ e.1 ∧ e.1 < stop).filter fun e => e.2.stop > start

/-! ## Refinement -/

variable {k : Nat} {m : Mapping} {r : List Entry}

theorem insertKey_append (hr : ∀ e ∈ r, k < e.1) :
    ∀ {l : List Entry}, (∀ e ∈ l, e.1 < k) → insertKey k m (l ++ r) = l ++ (k, m) :: r
  | [], _ => by
    cases r with
    | nil => rfl
    | cons e r =>
      have := hr e (by simp)
      rw [nil_append, insertKey, if_neg (by omega), if_neg (by omega), nil_append]
  | e :: l, hl => by
    rw [cons_append, insertKey, if_pos (hl e (by simp)),
      insertKey_append hr fun x hx => hl x (mem_cons_of_mem e hx), cons_append]

variable {l : List Entry}

theorem removeKey_append (hl : ∀ e ∈ l, e.1 < k)
    (hr : ∀ e ∈ r, k < e.1) : removeKey k (l ++ (k, m) :: r) = l ++ r := by
  have hkeep : ∀ {x : List Entry}, (∀ e ∈ x, e.1 ≠ k) → x.filter (fun e => e.1 ≠ k) = x := by
    intro x hx
    rw [filter_eq_self]
    intro e he
    simpa using hx e he
  rw [removeKey, filter_append, filter_cons_of_neg (by simp),
    hkeep fun e he => ne_of_lt (hl e he), hkeep fun e he => ne_of_gt (hr e he)]

open Interval (Ordered assign leftOf rightOf)

variable {stop lo hi : Nat}

theorem filterMap_rightOf (hr : Ordered lo hi r)
    (h : stop ≤ lo) : r.filterMap (rightOf stop) = r := by
  have hsome : r.filterMap (rightOf stop) = r.filterMap some := by
    apply filterMap_congr
    intro e he
    obtain ⟨h1, h2, -⟩ := hr.mem e he
    rw [rightOf, if_pos (by omega), if_pos (by omega)]
  rw [hsome, filterMap_some]

variable {start : Nat}

theorem clear_of_outside (fuel : Nat) {map : List Entry}
    (h : ∀ e ∈ map, e.1 < start ∨ stop ≤ e.1) : clear start stop fuel map = map := by
  have hnone : map.find? (fun e => start ≤ e.1 ∧ e.1 < stop) = none := by
    rw [find?_eq_none]
    intro e he
    have := h e he
    simp only [decide_eq_true_eq]
    omega
  cases fuel with
  | zero => rfl
  | succ fuel => rw [clear, hnone]

/-- The loop leaves the parts of the later entries that lie after the range. -/
theorem clear_append (hl : ∀ e ∈ l, e.1 < start)
    (hle : start ≤ stop) : ∀ {fuel lo : Nat} {r : List Entry}, Ordered lo hi r → start ≤ lo →
      r.length ≤ fuel → clear start stop fuel (l ++ r) = l ++ r.filterMap (rightOf stop) := by
  intro fuel
  induction fuel with
  | zero =>
    intro lo r hr hlo hf
    have : r = [] := eq_nil_of_length_eq_zero (by omega)
    rw [this]
    rfl
  | succ fuel ih =>
    intro lo r hr hlo hf
    have hfl : l.find? (fun e => start ≤ e.1 ∧ e.1 < stop) = none := by
      rw [find?_eq_none]
      intro e he
      have := hl e he
      simp only [decide_eq_true_eq]
      omega
    rw [clear, find?_append, hfl, Option.none_or]
    cases r with
    | nil => rfl
    | cons e r =>
      obtain ⟨h1, h2, h3, h4⟩ := hr
      have hkey : lo ≤ e.1 := h1
      by_cases he : e.1 < stop
      · -- the first entry of the range goes; its end may lie past the range
        rw [find?_cons_of_pos (by simp only [decide_eq_true_eq]; omega)]
        have hr' : ∀ x ∈ r, e.1 < x.1 := fun x hx => by
          have := (h4.mem x hx).1
          exact lt_of_lt_of_le h2 this
        have hl' : ∀ x ∈ l, x.1 < e.1 := fun x hx => by
          have := hl x hx
          omega
        simp only [removeKey_append hl' hr']
        by_cases hs : e.2.stop > stop
        · have hafter : ∀ x ∈ r, stop < x.1 := fun x hx => by
            have := (h4.mem x hx).1
            exact lt_of_lt_of_le hs this
          have hsplit : Ordered stop hi ((stop, e.2.suffix (stop - e.1)) :: r) :=
            ⟨le_refl _, hs, h3, h4⟩
          have hright : rightOf stop e = some (stop, e.2.suffix (stop - e.1)) := by
            have hs' : stop < Interval.stop e := hs
            have he' : ¬ stop ≤ Interval.start e := not_le.2 he
            rw [rightOf, if_pos hs', if_neg he']
            rfl
          have hdone : ∀ x ∈ l ++ (stop, e.2.suffix (stop - e.1)) :: r, x.1 < start ∨ stop ≤ x.1 := by
            intro x hx
            rcases mem_append.1 hx with hx | hx
            · exact Or.inl (hl x hx)
            · exact Or.inr (hsplit.mem x hx).1
          rw [if_pos hs, insertKey_append hafter fun x hx => by have := hl x hx; omega,
            clear_of_outside fuel hdone, filterMap_cons_some hright,
            filterMap_rightOf h4 (le_of_lt hs)]
        · have hright : rightOf stop e = none := if_neg hs
          rw [if_neg hs, ih h4 (le_trans hlo (le_of_lt (lt_of_le_of_lt h1 h2)))
            (by simpa using hf), filterMap_cons_none hright]
      · have hwhole : Ordered stop hi (e :: r) := ⟨not_lt.1 he, h2, h3, h4⟩
        have hout : ∀ x ∈ e :: r, ¬ (start ≤ x.1 ∧ x.1 < stop) := by
          intro x hx
          have : stop ≤ x.1 := (hwhole.mem x hx).1
          omega
        rw [find?_eq_none.2 (by simpa using hout), filterMap_rightOf hwhole (le_refl _)]

/-- Entries that end before a point are kept whole below it. -/
theorem filterMap_leftOf (hl : Ordered lo hi l)
    (h : hi ≤ start) : l.filterMap (leftOf start) = l := by
  have hsome : l.filterMap (leftOf start) = l.filterMap some := by
    apply filterMap_congr
    intro e he
    obtain ⟨-, h2, h3⟩ := hl.mem e he
    rw [leftOf, if_pos (by omega), if_pos (by omega)]
  rw [hsome, filterMap_some]

theorem filterMap_rightOf_eq_nil (hl : Ordered lo hi l)
    (h : hi ≤ stop) : l.filterMap (rightOf stop) = [] := by
  rw [filterMap_eq_nil_iff]
  intro e he
  have := (hl.mem e he).2.2
  exact if_neg (by omega)

/-- Shortening the entry at `k` leaves the others alone. -/
theorem map_key (hl : ∀ e ∈ l, e.1 ≠ k)
    (hr : ∀ e ∈ r, e.1 ≠ k) :
    (l ++ (k, m) :: r).map (fun e => if e.1 = k then (e.1, { e.2 with stop := start }) else e) =
      l ++ (k, { m with stop := start }) :: r := by
  have hkeep : ∀ {x : List Entry}, (∀ e ∈ x, e.1 ≠ k) →
      x.map (fun e => if e.1 = k then (e.1, { e.2 with stop := start }) else e) = x := by
    intro x hx
    rw [map_congr_left (g := id), map_id]
    intro e he
    rw [if_neg (hx e he)]
    rfl
  rw [map_append, map_cons, hkeep hl, hkeep hr, if_pos rfl]

/-- The entries that start below the range are trimmed to it; one that straddles the whole range
leaves a second part. -/
theorem trim_append (h : Ordered lo hi (l ++ r))
    (hl : ∀ e ∈ l, e.1 < start) (hr : ∀ e ∈ r, start ≤ e.1) (hlt : start < stop) :
    trim start stop (l ++ r) = l.filterMap (leftOf start) ++ (l.filterMap (rightOf stop) ++ r) := by
  have hfilter : (l ++ r).filter (fun e => e.1 < start) = l := by
    rw [filter_append, filter_eq_self.2 (by simpa using hl), filter_eq_nil_iff.2]
    · simp
    · intro e he
      have := hr e he
      simp only [decide_eq_true_eq]
      omega
  unfold trim
  rw [hfilter]
  rcases eq_nil_or_concat l with rfl | ⟨l', e, rfl⟩
  · rfl
  rw [concat_eq_append] at *
  obtain ⟨k, m⟩ := e
  obtain ⟨mid, -, -, hleft, hright⟩ := h.split (h.bounds_le (by simp))
  obtain ⟨mid', -, -, hl', hone⟩ := hleft.split (hleft.bounds_le (by simp))
  obtain ⟨hk1, hk2, hk3, -⟩ := hone
  have hk : k < start := hl (k, m) (by simp)
  change mid' ≤ k at hk1
  change k < m.stop at hk2
  change m.stop ≤ mid at hk3
  have hbefore : ∀ e ∈ l', e.1 < k := fun e he => by
    obtain ⟨-, h2, h3⟩ := hl'.mem e he
    have : e.1 < e.2.stop := h2
    have : e.2.stop ≤ mid' := h3
    omega
  have hafter : ∀ e ∈ r, m.stop ≤ e.1 := fun e he => by
    have : mid ≤ e.1 := (hright.mem e he).1
    omega
  have hl1 : l'.filterMap (leftOf start) = l' := filterMap_leftOf hl' (by omega)
  have hl2 : l'.filterMap (rightOf stop) = [] := filterMap_rightOf_eq_nil hl' (by omega)
  have hlast : (l' ++ [(k, m)]).getLast? = some (k, m) := by simp
  rw [hlast, filterMap_append, filterMap_append, hl1, hl2, nil_append]
  have hl3 : ∀ e ∈ l', e.1 ≠ k := fun e he => ne_of_lt (hbefore e he)
  have hr3 : ∀ e ∈ r, e.1 ≠ k := fun e he => by
    have := hafter e he
    omega
  by_cases hs : m.stop > start
  · have hleftOf : leftOf start ((k, m) : Entry) = some (k, { m with stop := start }) := by
      have h1 : Interval.start ((k, m) : Entry) < start := hk
      have h2 : ¬ Interval.stop ((k, m) : Entry) ≤ start := not_le.2 hs
      rw [leftOf, if_pos h1, if_neg h2]
      rfl
    simp only [if_pos hs, filterMap_cons_some hleftOf, filterMap_nil]
    by_cases hs' : m.stop > stop
    · have hrightOf : rightOf stop ((k, m) : Entry) = some (stop, m.suffix (stop - k)) := by
        have h1 : stop < Interval.stop ((k, m) : Entry) := hs'
        have h2 : ¬ stop ≤ Interval.start ((k, m) : Entry) := by
          change ¬ stop ≤ k
          omega
        rw [rightOf, if_pos h1, if_neg h2]
        rfl
      have hr4 : ∀ e ∈ (stop, m.suffix (stop - k)) :: r, e.1 ≠ k := by
        intro e he
        rcases mem_cons.1 he with rfl | he
        · change stop ≠ k
          omega
        · exact hr3 e he
      rw [if_pos hs', insertKey_append (fun e he => lt_of_lt_of_le hs' (hafter e he))
        (fun e he => lt_trans (hl e he) hlt), append_assoc, singleton_append,
        map_key hl3 hr4, filterMap_cons_some hrightOf]
      simp
    · have hrightOf : rightOf stop ((k, m) : Entry) = none := if_neg hs'
      rw [if_neg hs', append_assoc, singleton_append, map_key hl3 hr3,
        filterMap_cons_none hrightOf]
      simp
  · have hleftOf : leftOf start ((k, m) : Entry) = some (k, m) := by
      have h1 : Interval.start ((k, m) : Entry) < start := hk
      have h2 : Interval.stop ((k, m) : Entry) ≤ start := not_lt.1 hs
      rw [leftOf, if_pos h1, if_pos h2]
    have hrightOf : rightOf stop ((k, m) : Entry) = none := by
      have h1 : ¬ stop < Interval.stop ((k, m) : Entry) := by
        change ¬ stop < m.stop
        omega
      exact if_neg h1
    simp only [if_neg hs, filterMap_cons_some hleftOf, filterMap_cons_none hrightOf,
      filterMap_nil, nil_append]

/-- On an ordered map the code overwrites the range of one mapping. -/
theorem replaceMap_eq {map : List Entry}
    (h : Ordered lo hi map) (hlt : start < m.stop) :
    replaceMap start m map = assign (start, m) map := by
  by_cases hne : map = []
  · subst hne
    rfl
  have hparts := h.filter_append start
  generalize hl : map.filter (fun e => Interval.start e < start) = l at hparts
  generalize hr : map.filter (fun e => start ≤ Interval.start e) = r at hparts
  have hl' : ∀ e ∈ l, e.1 < start := by
    intro e he
    rw [← hl] at he
    simpa using (mem_filter.1 he).2
  have hr' : ∀ e ∈ r, start ≤ e.1 := by
    intro e he
    rw [← hr] at he
    simpa using (mem_filter.1 he).2
  subst hparts
  obtain ⟨mid, -, hmid, hleft, hright⟩ := h.split (h.bounds_le hne)
  -- what is left of the lower part, and what follows it
  have hL : Ordered lo start (l.filterMap (leftOf start)) := hleft.left
  have hR : Ordered (max lo m.stop) mid (l.filterMap (rightOf m.stop)) := hleft.right
  have hrest : Ordered start hi (l.filterMap (rightOf m.stop) ++ r) := by
    by_cases hnil : l.filterMap (rightOf m.stop) = []
    · rw [hnil, nil_append]
      exact hright.narrow fun e he => ⟨hr' e he, (hright.mem e he).2.2⟩
    · have := hR.bounds_le hnil
      exact (Ordered.append hmid hright this hR).mono (by omega) (le_refl _)
  have hkeep : (l.filterMap (rightOf m.stop)).filterMap (rightOf m.stop) =
      l.filterMap (rightOf m.stop) := filterMap_rightOf hR (Nat.le_max_right _ _)
  have hnone : r.filterMap (leftOf start) = [] := by
    rw [filterMap_eq_nil_iff]
    intro e he
    exact if_neg (not_lt.2 (hr' e he))
  have hlow : ∀ e ∈ l.filterMap (leftOf start), e.1 < start := fun e he => by
    obtain ⟨-, h2, h3⟩ := hL.mem e he
    exact lt_of_lt_of_le h2 h3
  have hhigh : ∀ e ∈ (l.filterMap (rightOf m.stop) ++ r).filterMap (rightOf m.stop), start < e.1 := by
    intro e he
    have h1 := (hrest.right.mem e he).1
    rw [start_entry] at h1
    omega
  unfold replaceMap
  simp only [trim_append h hl' hr' hlt]
  rw [clear_append hlow (le_of_lt hlt) hrest (le_refl _)
    (by simp only [length_append]; omega),
    insertKey_append hhigh hlow, filterMap_append, hkeep, assign]
  simp only [start_entry, stop_entry, filterMap_append, hnone, append_nil]

theorem replace_eq {i : Index} (h : Ordered lo hi i.map)
    (hlt : start < m.stop) : i.replace start m =
      if i.map.length + 2 ≤ i.limit then some ⟨assign (start, m) i.map, i.limit⟩ else none := by
  rw [replace, replaceMap_eq h hlt]

end Index

end Cas.Append
