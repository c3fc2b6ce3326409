import Mathlib.Data.List.Basic
import Mathlib.Tactic.Common

/-!
# Lists of disjoint intervals

An `Interval` is a half-open range of naturals that carries a value at each of its points and can be
cut from either side without changing the values it keeps. `Ordered lo hi l` says that the
intervals of `l` are nonempty, disjoint, in increasing order and inside `[lo, hi)`. `cut` removes a
range from such a list, `assign` overwrites one, and `lookup` reads the value at a point.
-/

namespace Cas

open List

/-- A range `[start, stop)` with a value at each point, closed under taking sub-ranges. -/
class Interval (α : Type) (β : outParam Type) where
  start : α → Nat
  stop : α → Nat
  /-- The value at a point of the range. -/
  value : α → Nat → β
  /-- The part below a point. -/
  before : α → Nat → α
  /-- The part from a point on. -/
  after : α → Nat → α
  start_before : ∀ a p, start (before a p) = start a
  stop_before : ∀ a p, stop (before a p) = p
  start_after : ∀ a p, start (after a p) = p
  stop_after : ∀ a p, stop (after a p) = stop a
  value_before : ∀ a p q, value (before a p) q = value a q
  value_after : ∀ a p q, start a ≤ p → p ≤ q → value (after a p) q = value a q

namespace Interval

variable {α β : Type} [Interval α β]

attribute [simp] start_before stop_before start_after stop_after value_before

/-- Nonempty, disjoint and increasing intervals inside `[lo, hi)`. -/
def Ordered (lo hi : Nat) : List α → Prop
  | [] => True
  | a :: l => lo ≤ start a ∧ start a < stop a ∧ stop a ≤ hi ∧ Ordered (stop a) hi l

/-- The interval contains the point. -/
def Covers (a : α) (p : Nat) : Prop := start a ≤ p ∧ p < stop a

instance (a : α) (p : Nat) : Decidable (Covers a p) := inferInstanceAs (Decidable (_ ∧ _))

/-- The value at `p` of the first interval that covers it. -/
def lookup : List α → Nat → Option β
  | [], _ => none
  | a :: l, p => if Covers a p then some (value a p) else lookup l p

/-- What is left of one interval when `[s, e)` is removed. -/
def pieces (s e : Nat) (a : α) : List α :=
  if stop a ≤ s ∨ e ≤ start a then [a]
  else (if start a < s then [before a s] else []) ++ (if e < stop a then [after a e] else [])

/-- Remove the range `[s, e)`. -/
def cut (s e : Nat) (l : List α) : List α := l.flatMap (pieces s e)

/-- The part of an interval below `s`. -/
def leftOf (s : Nat) (a : α) : Option α :=
  if start a < s then some (if stop a ≤ s then a else before a s) else none

/-- The part of an interval from `e` on. -/
def rightOf (e : Nat) (a : α) : Option α :=
  if e < stop a then some (if e ≤ start a then a else after a e) else none

/-- Overwrite the range of `a`. -/
def assign (a : α) (l : List α) : List α :=
  l.filterMap (leftOf (start a)) ++ a :: l.filterMap (rightOf (stop a))

/-! ## Order -/

@[simp] theorem ordered_nil (lo hi : Nat) : Ordered lo hi ([] : List α) := trivial

theorem ordered_cons {lo hi : Nat} {a : α} {l : List α} :
    Ordered lo hi (a :: l) ↔ lo ≤ start a ∧ start a < stop a ∧ stop a ≤ hi ∧ Ordered (stop a) hi l :=
  Iff.rfl

theorem Ordered.mono {lo hi lo' hi' : Nat} (hlo : lo' ≤ lo) (hhi : hi ≤ hi') :
    ∀ {l : List α}, Ordered lo hi l → Ordered lo' hi' l
  | [], _ => trivial
  | _ :: _, ⟨h1, h2, h3, h4⟩ => ⟨by omega, h2, by omega, h4.mono (Nat.le_refl _) hhi⟩

theorem Ordered.mem {lo hi : Nat} : ∀ {l : List α}, Ordered lo hi l → ∀ a ∈ l,
    lo ≤ start a ∧ start a < stop a ∧ stop a ≤ hi
  | [], _, _, ha => by cases ha
  | b :: l, ⟨h1, h2, h3, h4⟩, a, ha => by
    rcases mem_cons.1 ha with rfl | ha
    · exact ⟨h1, h2, h3⟩
    · obtain ⟨h5, h6, h7⟩ := h4.mem a ha
      exact ⟨by omega, h6, h7⟩

theorem Ordered.bounds_le {lo hi : Nat} {l : List α} (h : Ordered lo hi l) (hne : l ≠ []) :
    lo ≤ hi := by
  obtain ⟨a, ha⟩ := exists_mem_of_ne_nil l hne
  obtain ⟨h1, h2, h3⟩ := h.mem a ha
  omega

theorem Ordered.pairwise {lo hi : Nat} : ∀ {l : List α}, Ordered lo hi l →
    l.Pairwise fun a b => start a < start b
  | [], _ => List.Pairwise.nil
  | a :: l, ⟨_, h2, _, h4⟩ => by
    refine pairwise_cons.2 ⟨fun b hb => ?_, h4.pairwise⟩
    exact Nat.lt_of_lt_of_le h2 (h4.mem b hb).1

theorem Ordered.disjoint {lo hi : Nat} : ∀ {l : List α}, Ordered lo hi l →
    l.Pairwise fun a b => stop a ≤ start b
  | [], _ => List.Pairwise.nil
  | _ :: _, ⟨_, _, _, h4⟩ =>
    pairwise_cons.2 ⟨fun b hb => (h4.mem b hb).1, h4.disjoint⟩

/-- The intervals of an ordered list are determined by where they start. -/
theorem Ordered.eq_of_start {lo hi : Nat} {a b : α} (hs : start a = start b) :
    ∀ {l : List α}, Ordered lo hi l → a ∈ l → b ∈ l → a = b
  | [], _, ha, _ => by cases ha
  | c :: l, ⟨h1, h2, h3, h4⟩, ha, hb => by
    rcases mem_cons.1 ha with hac | ha'
    · rcases mem_cons.1 hb with hbc | hb'
      · rw [hac, hbc]
      · have := (h4.mem b hb').1
        rw [hac] at hs
        omega
    · rcases mem_cons.1 hb with hbc | hb'
      · have := (h4.mem a ha').1
        rw [hbc] at hs
        omega
      · exact h4.eq_of_start hs ha' hb'

theorem Ordered.narrow {lo hi lo' hi' : Nat} : ∀ {l : List α}, Ordered lo hi l →
    (∀ a ∈ l, lo' ≤ start a ∧ stop a ≤ hi') → Ordered lo' hi' l
  | [], _, _ => trivial
  | a :: l, ⟨_, h2, _, h4⟩, h => by
    obtain ⟨h5, h6⟩ := h a (by simp)
    refine ⟨h5, h2, h6, h4.narrow fun b hb => ?_⟩
    exact ⟨(h4.mem b hb).1, (h b (mem_cons_of_mem a hb)).2⟩

/-- Lists on either side of `mid` join. -/
theorem Ordered.append {lo mid hi : Nat} (hm : mid ≤ hi) {l' : List α} (h' : Ordered mid hi l') :
    ∀ {l : List α}, lo ≤ mid → Ordered lo mid l → Ordered lo hi (l ++ l')
  | [], hlo, _ => h'.mono hlo (Nat.le_refl _)
  | _ :: _, _, ⟨h1, h2, h3, h4⟩ => ⟨h1, h2, by omega, Ordered.append hm h' h3 h4⟩

theorem Ordered.split {hi : Nat} {l' : List α} : ∀ {lo : Nat} {l : List α}, lo ≤ hi →
    Ordered lo hi (l ++ l') → ∃ mid, lo ≤ mid ∧ mid ≤ hi ∧ Ordered lo mid l ∧ Ordered mid hi l'
  | lo, [], hlo, h => ⟨lo, Nat.le_refl _, hlo, trivial, h⟩
  | lo, a :: l, _, ⟨h1, h2, h3, h4⟩ => by
    obtain ⟨mid, h5, h6, h7, h8⟩ := Ordered.split h3 h4
    exact ⟨mid, by omega, h6, ⟨h1, h2, h5, h7⟩, h8⟩

theorem Ordered.of_append_left {lo hi : Nat} {l' : List α} :
    ∀ {l : List α}, Ordered lo hi (l ++ l') → Ordered lo hi l
  | [], _ => trivial
  | _ :: _, ⟨h1, h2, h3, h4⟩ => ⟨h1, h2, h3, h4.of_append_left⟩

theorem Ordered.of_append_right {lo hi : Nat} {l' : List α} :
    ∀ {l : List α}, Ordered lo hi (l ++ l') → Ordered lo hi l'
  | [], h => h
  | a :: _, ⟨h1, h2, _, h4⟩ => (h4.of_append_right).mono (by omega) (Nat.le_refl _)

theorem Ordered.contiguous {lo hi : Nat} {l l' : List α} (h : Ordered lo hi l) (hs : l' <:+: l) :
    Ordered lo hi l' := by
  obtain ⟨s, t, rfl⟩ := hs
  exact h.of_append_left.of_append_right

theorem Ordered.filter {lo hi : Nat} (q : α → Bool) :
    ∀ {l : List α}, Ordered lo hi l → Ordered lo hi (l.filter q)
  | [], _ => trivial
  | a :: l, ⟨h1, h2, h3, h4⟩ => by
    rw [filter_cons]
    split
    · exact ⟨h1, h2, h3, h4.filter q⟩
    · exact (h4.filter q).mono (by omega) (Nat.le_refl _)

/-- An ordered list is the intervals that start below a point, then the others. -/
theorem Ordered.filter_append (s : Nat) : ∀ {lo hi : Nat} {l : List α}, Ordered lo hi l →
    l = (l.filter fun a => start a < s) ++ l.filter fun a => s ≤ start a
  | _, _, [], _ => rfl
  | _, _, a :: l, ⟨_, h2, _, h4⟩ => by
    by_cases ha : start a < s
    · rw [filter_cons_of_pos (by simpa using ha), filter_cons_of_neg (by simpa using ha),
        cons_append, ← h4.filter_append s]
    · have hnil : l.filter (fun a => decide (start a < s)) = [] := by
        rw [filter_eq_nil_iff]
        intro b hb
        have := (h4.mem b hb).1
        simp only [decide_eq_true_eq]
        omega
      have hall : l.filter (fun a => decide (s ≤ start a)) = l := by
        rw [filter_eq_self]
        intro b hb
        have := (h4.mem b hb).1
        simp only [decide_eq_true_eq]
        omega
      rw [filter_cons_of_neg (by simpa using ha), filter_cons_of_pos (by simp; omega), hnil,
        hall, nil_append]

/-! ## Lookup -/

theorem lookup_cons (a : α) (l : List α) (p : Nat) :
    lookup (a :: l) p = if Covers a p then some (value a p) else lookup l p := rfl

theorem lookup_append (l l' : List α) (p : Nat) :
    lookup (l ++ l') p = (lookup l p).or (lookup l' p) := by
  induction l with
  | nil => rfl
  | cons a l ih =>
    rw [cons_append, lookup_cons, lookup_cons, ih]
    split <;> rfl

variable {p : Nat}

theorem lookup_eq_none {l : List α} (h : ∀ a ∈ l, ¬ Covers a p) : lookup l p = none := by
  induction l with
  | nil => rfl
  | cons a l ih =>
    rw [lookup_cons, if_neg (h a (by simp))]
    exact ih fun b hb => h b (mem_cons_of_mem a hb)

theorem Ordered.lookup_outside {lo hi : Nat} {l : List α} (h : Ordered lo hi l)
    (hp : p < lo ∨ hi ≤ p) : lookup l p = none := by
  apply lookup_eq_none
  rintro a ha ⟨h1, h2⟩
  obtain ⟨h3, -, h4⟩ := h.mem a ha
  omega

theorem Ordered.lookup_of_mem {lo hi : Nat} {a : α} (hc : Covers a p) :
    ∀ {l : List α}, Ordered lo hi l → a ∈ l → lookup l p = some (value a p)
  | [], _, ha => by cases ha
  | b :: l, ⟨h1, h2, h3, h4⟩, ha => by
    rcases mem_cons.1 ha with rfl | ha
    · rw [lookup_cons, if_pos hc]
    · have hm := h4.mem a ha
      rw [lookup_cons, if_neg]
      · exact h4.lookup_of_mem hc ha
      · rintro ⟨-, h5⟩
        have := hc.1
        omega

/-! ## Cutting a range out -/

@[simp] theorem cut_nil (s e : Nat) : cut s e ([] : List α) = [] := rfl

theorem cut_cons (s e : Nat) (a : α) (l : List α) : cut s e (a :: l) = pieces s e a ++ cut s e l :=
  rfl

theorem cut_append (s e : Nat) (l l' : List α) : cut s e (l ++ l') = cut s e l ++ cut s e l' :=
  flatMap_append

variable {s e : Nat}

theorem pieces_of_outside {a : α} (h : stop a ≤ s ∨ e ≤ start a) :
    pieces s e a = [a] := if_pos h

/-- A list that ends before the range, or begins after it, is unchanged. -/
theorem cut_of_outside {l : List α} (h : ∀ a ∈ l, stop a ≤ s ∨ e ≤ start a) :
    cut s e l = l := by
  induction l with
  | nil => rfl
  | cons a l ih =>
    rw [cut_cons, pieces_of_outside (h a (by simp)),
      ih fun b hb => h b (mem_cons_of_mem a hb), singleton_append]

theorem cut_of_inside {l : List α}
    (h : ∀ a ∈ l, s ≤ start a ∧ start a < stop a ∧ stop a ≤ e) : cut s e l = [] := by
  induction l with
  | nil => rfl
  | cons a l ih =>
    obtain ⟨h1, h2, h3⟩ := h a (by simp)
    rw [cut_cons, ih fun b hb => h b (mem_cons_of_mem a hb), append_nil, pieces,
      if_neg (by omega), if_neg (by omega), if_neg (by omega), append_nil]

theorem Ordered.pieces {lo hi : Nat} (h : s < e) {a : α} (h1 : lo ≤ start a)
    (h2 : start a < stop a) (h3 : stop a ≤ hi) : Ordered lo hi (pieces s e a) := by
  unfold Interval.pieces
  split
  · exact ⟨h1, h2, h3, trivial⟩
  · rename_i hd
    split <;> split
    · exact ⟨by simpa, by simpa, by simp; omega, by simp; omega, by simpa, by simpa, trivial⟩
    · exact ⟨by simpa, by simpa, by simp; omega, trivial⟩
    · exact ⟨by simp; omega, by simpa, by simpa, trivial⟩
    · trivial

theorem Ordered.cut (h : s < e) {hi : Nat} :
    ∀ {lo : Nat} {l : List α}, Ordered lo hi l → Ordered lo hi (cut s e l)
  | _, [], _ => trivial
  | lo, a :: l, ⟨h1, h2, h3, h4⟩ =>
    Ordered.append h3 (h4.cut h) (by omega) (Ordered.pieces h h1 h2 (Nat.le_refl _))

/-! ## Overwriting a range -/

/-- Cutting a range is keeping what is left of it and what is right of it. -/
theorem Ordered.cut_eq (h : s < e) {hi : Nat} :
    ∀ {lo : Nat} {l : List α}, Ordered lo hi l →
      Interval.cut s e l = l.filterMap (leftOf s) ++ l.filterMap (rightOf e)
  | _, [], _ => rfl
  | _, a :: l, ⟨h1, h2, h3, h4⟩ => by
    rw [cut_cons, h4.cut_eq h, filterMap_cons, filterMap_cons]
    -- once an interval reaches past `s`, the later ones have nothing left of it
    have hleft : s < stop a → l.filterMap (leftOf s) = [] := by
      intro hs
      rw [filterMap_eq_nil_iff]
      intro b hb
      have := (h4.mem b hb).1
      exact if_neg (by omega)
    unfold Interval.pieces leftOf rightOf
    by_cases c1 : stop a ≤ s
    · simp only [if_pos (Or.inl c1), if_pos (show start a < s by omega), if_pos c1,
        if_neg (show ¬ e < stop a by omega), cons_append, nil_append]
    · have hl := hleft (by omega)
      unfold leftOf at hl
      rw [hl]
      by_cases c2 : e ≤ start a
      · simp only [if_pos (Or.inr c2), if_neg (show ¬ start a < s by omega),
          if_pos (show e < stop a by omega), if_pos c2, nil_append, cons_append]
      · rw [if_neg (by omega)]
        by_cases c3 : start a < s <;> by_cases c4 : e < stop a <;> simp [c1, c2, c3, c4]

section Assign

variable {lo hi : Nat} {a : α} {l : List α}

/-- The parts left of a point are an ordered list that ends there. -/
theorem Ordered.left {s : Nat} : ∀ {lo : Nat} {l : List α}, Ordered lo hi l →
    Ordered lo s (l.filterMap (leftOf s))
  | _, [], _ => trivial
  | _, a :: l, ⟨h1, h2, h3, h4⟩ => by
    rw [filterMap_cons]
    unfold leftOf at *
    by_cases c1 : start a < s
    · by_cases c2 : stop a ≤ s
      · simp only [if_pos c1, if_pos c2]
        exact ⟨h1, h2, c2, h4.left⟩
      · have : l.filterMap (leftOf s) = [] := by
          rw [filterMap_eq_nil_iff]
          intro b hb
          have := (h4.mem b hb).1
          exact if_neg (by omega)
        unfold leftOf at this
        simp only [if_pos c1, if_neg c2, this]
        exact ⟨by simpa, by simpa, by simp, trivial⟩
    · simp only [if_neg c1]
      exact h4.left.mono (by omega) (Nat.le_refl _)

/-- The parts right of a point are an ordered list that begins there. -/
theorem Ordered.right {e : Nat} : ∀ {lo : Nat} {l : List α}, Ordered lo hi l →
    Ordered (max lo e) hi (l.filterMap (rightOf e))
  | _, [], _ => trivial
  | lo, a :: l, ⟨h1, h2, h3, h4⟩ => by
    rw [filterMap_cons]
    have ih := h4.right (e := e)
    unfold rightOf at *
    by_cases c1 : e < stop a
    · by_cases c2 : e ≤ start a
      · simp only [if_pos c1, if_pos c2]
        exact ⟨by omega, h2, h3, ih.mono (by omega) (Nat.le_refl _)⟩
      · simp only [if_pos c1, if_neg c2]
        exact ⟨by simp; omega, by simpa, by simpa, ih.mono (stop_after a e ▸ Nat.le_max_left _ _) (Nat.le_refl _)⟩
    · simp only [if_neg c1]
      exact ih.mono (by omega) (Nat.le_refl _)

theorem Ordered.assign (h : Ordered lo hi l) (h1 : lo ≤ start a) (h2 : start a < stop a)
    (h3 : stop a ≤ hi) : Ordered lo hi (assign a l) := by
  have hr : Ordered (stop a) hi (l.filterMap (rightOf (stop a))) :=
    h.right.mono (by omega) (Nat.le_refl _)
  have hm : Ordered (start a) hi (a :: l.filterMap (rightOf (stop a))) := ⟨Nat.le_refl _, h2, h3, hr⟩
  exact Ordered.append (by omega) hm h1 h.left

theorem length_cut_le {s e : Nat} : ∀ {lo : Nat} {l : List α}, Ordered lo hi l →
    (Interval.cut s e l).length ≤ l.length + 1
  | _, [], _ => by simp
  | lo, b :: l, ⟨h3, h4, h5, h6⟩ => by
    rw [cut_cons, length_append, length_cons]
    by_cases hb : e < stop b
    · -- whatever follows starts after the range
      rw [cut_of_outside (l := l)]
      · unfold Interval.pieces
        split
        · simp; omega
        · rw [length_append]
          split <;> simp <;> omega
      · intro c hc
        have := (h6.mem c hc).1
        omega
    · have := length_cut_le (s := s) (e := e) h6
      have : (Interval.pieces s e b).length ≤ 1 := by
        unfold Interval.pieces
        split
        · simp
        · split <;> simp
      omega

theorem length_assign_le (a : α) (l : List α) (h : Ordered lo hi l) (h2 : start a < stop a) :
    (Interval.assign a l).length ≤ l.length + 2 := by
  have hcut := length_cut_le (s := start a) (e := stop a) h
  rw [h.cut_eq h2, length_append] at hcut
  unfold Interval.assign
  rw [length_append, length_cons]
  omega

theorem assign_append_left {l' : List α} (h2 : start a < stop a)
    (h : ∀ b ∈ l', stop a ≤ start b ∧ start b < stop b) :
    assign a (l ++ l') = assign a l ++ l' := by
  have hl : l'.filterMap (leftOf (start a)) = [] := by
    rw [filterMap_eq_nil_iff]
    intro b hb
    exact if_neg (by have := h b hb; omega)
  have hr : l'.filterMap (rightOf (stop a)) = l' := by
    rw [filterMap_congr (g := some), filterMap_some]
    intro b hb
    obtain ⟨h3, h4⟩ := h b hb
    rw [rightOf, if_pos (by omega), if_pos h3]
  rw [Interval.assign, Interval.assign, filterMap_append, filterMap_append, hl, hr]
  simp

theorem assign_append_right {l' : List α} (h2 : start a < stop a)
    (h : ∀ b ∈ l, start b < stop b ∧ stop b ≤ start a) :
    assign a (l ++ l') = l ++ assign a l' := by
  have hl : l.filterMap (leftOf (start a)) = l := by
    rw [filterMap_congr (g := some), filterMap_some]
    intro b hb
    obtain ⟨h3, h4⟩ := h b hb
    rw [leftOf, if_pos (by omega), if_pos h4]
  have hr : l.filterMap (rightOf (stop a)) = [] := by
    rw [filterMap_eq_nil_iff]
    intro b hb
    exact if_neg (by have := h b hb; omega)
  rw [Interval.assign, Interval.assign, filterMap_append, filterMap_append, hl, hr]
  simp

end Assign

/-! ## Overwriting in turn -/

/-- The list after overwriting with each interval in turn. -/
def replay (l : List α) (as : List α) : List α := as.foldl (fun l a => assign a l) l

@[simp] theorem replay_nil (l : List α) : replay l [] = l := rfl

theorem replay_cons (l : List α) (a : α) (as : List α) :
    replay l (a :: as) = replay (assign a l) as := rfl

theorem replay_append (l as bs : List α) : replay l (as ++ bs) = replay (replay l as) bs :=
  foldl_append

section Replay

variable {lo hi : Nat} {as : List α}
  (has : ∀ a ∈ as, lo ≤ start a ∧ start a < stop a ∧ stop a ≤ hi)
include has

theorem Ordered.replay {l : List α} (h : Ordered lo hi l) : Ordered lo hi (replay l as) := by
  induction as generalizing l with
  | nil => exact h
  | cons a as ih =>
    obtain ⟨h1, h2, h3⟩ := has a (by simp)
    exact ih (fun b hb => has b (mem_cons_of_mem a hb)) (h.assign h1 h2 h3)

theorem length_replay_le {l : List α} (h : Ordered lo hi l) :
    (Interval.replay l as).length ≤ l.length + 2 * as.length := by
  induction as generalizing l with
  | nil => simp
  | cons a as ih =>
    obtain ⟨h1, h2, h3⟩ := has a (by simp)
    have := ih (fun b hb => has b (mem_cons_of_mem a hb)) (h.assign h1 h2 h3)
    have := length_assign_le a l h h2
    rw [replay_cons, length_cons]
    omega

end Replay

/-- Overwriting commutes with dropping intervals, when cutting an interval does not change whether
it is dropped. -/
theorem filter_assign {q : α → Bool} (hb : ∀ a p, q (before a p) = q a)
    (ha : ∀ a p, q (after a p) = q a) {a : α} (hq : q a = true) (l : List α) :
    (assign a l).filter q = assign a (l.filter q) := by
  have hl : ∀ b, (leftOf (start a) b).filter q = if q b then leftOf (start a) b else none := by
    intro b
    unfold leftOf
    split
    · split <;> cases hqb : q b <;> simp [Option.filter, hqb, hb]
    · simp
  have hr : ∀ b, (rightOf (stop a) b).filter q = if q b then rightOf (stop a) b else none := by
    intro b
    unfold rightOf
    split
    · split <;> cases hqb : q b <;> simp [Option.filter, hqb, ha]
    · simp
  have key : ∀ f : α → Option α, (∀ b, (f b).filter q = if q b then f b else none) →
      (l.filterMap f).filter q = (l.filter q).filterMap f := by
    intro f hf
    rw [filter_filterMap, filterMap_filter]
    congr 1
    funext b
    exact hf b
  rw [assign, assign, filter_append, filter_cons, if_pos hq, key _ hl, key _ hr]

section Forall

variable {P : α → Prop} (hb : ∀ a p, P a → start a < p → p < stop a → P (before a p))
  (ha : ∀ a p, P a → start a < p → p < stop a → P (after a p))
include hb ha

/-- What holds of the intervals and of their parts holds after overwriting. -/
theorem forall_assign {a : α} {l : List α} (hl : ∀ x ∈ l, P x) (h : P a) : ∀ x ∈ assign a l, P x := by
  intro x hx
  rcases mem_append.1 hx with hx | hx
  · obtain ⟨y, hy, hxy⟩ := mem_filterMap.1 hx
    unfold leftOf at hxy
    split at hxy
    · split at hxy
      · cases hxy
        exact hl x hy
      · cases hxy
        exact hb y _ (hl y hy) (by assumption) (by omega)
    · cases hxy
  · rcases mem_cons.1 hx with rfl | hx
    · exact h
    · obtain ⟨y, hy, hxy⟩ := mem_filterMap.1 hx
      unfold rightOf at hxy
      split at hxy
      · split at hxy
        · cases hxy
          exact hl x hy
        · cases hxy
          exact ha y _ (hl y hy) (by omega) (by assumption)
      · cases hxy

theorem forall_replay {as : List α} (has : ∀ a ∈ as, P a) {l : List α} (hl : ∀ x ∈ l, P x) :
    ∀ x ∈ replay l as, P x := by
  induction as generalizing l with
  | nil => exact hl
  | cons a as ih =>
    exact ih (fun b hb => has b (mem_cons_of_mem a hb)) (forall_assign hb ha hl (has a (by simp)))

end Forall

/-- Dropping intervals commutes with overwriting by intervals that are kept. -/
theorem filter_replay {q : α → Bool} (hb : ∀ a p, q (before a p) = q a)
    (ha : ∀ a p, q (after a p) = q a) {as : List α} (hq : ∀ a ∈ as, q a = true) (l : List α) :
    (replay l as).filter q = replay (l.filter q) as := by
  induction as generalizing l with
  | nil => rfl
  | cons a as ih =>
    rw [replay_cons, ih (fun b hb => hq b (mem_cons_of_mem a hb)),
      filter_assign hb ha (hq a (by simp)), replay_cons]

end Interval

end Cas
