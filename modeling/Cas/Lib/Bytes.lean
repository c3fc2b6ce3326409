import Mathlib

/-!
# Byte strings: slices, in-place writes and little-endian fields

A buffer or a file is the list of its bytes. `slice` reads a range, `put` overwrites one in place,
and `ofNat`/`toNat` are the little-endian codec of fixed-width fields. The lemmas say how reads and
writes compose: a read of the written range returns what was written, a read of a disjoint range
does not see the write.
-/

/-- A byte string. -/
abbrev Bytes := List UInt8

namespace Bytes

open List

/-- The bytes `[o, o + n)`, cut short at the end of `b`. -/
def slice (b : Bytes) (o n : Nat) : Bytes := (b.drop o).take n

/-- Overwrite `b` from `o` on with `v`; the length of `b` does not change. -/
def put (b : Bytes) (o : Nat) (v : Bytes) : Bytes :=
  b.mapIdx fun i x => if o ≤ i then v.getD (i - o) x else x

/-- A run of zero bytes. -/
def zeros (n : Nat) : Bytes := List.replicate n 0

/-- Every byte is zero. -/
def isZero (b : Bytes) : Bool := b.all (· == 0)

/-- Little-endian encoding in `w` bytes. -/
def ofNat : Nat → Nat → Bytes
  | 0, _ => []
  | w + 1, n => UInt8.ofNat n :: ofNat w (n / 256)

/-- Little-endian decoding. -/
def toNat : Bytes → Nat
  | [] => 0
  | b :: bs => b.toNat + 256 * toNat bs

/-! ## Slices -/

theorem length_slice (b : Bytes) (o n : Nat) : (b.slice o n).length = min n (b.length - o) := by
  simp [slice]

variable {b : Bytes} {o n : Nat}

theorem length_slice_of_le (h : o + n ≤ b.length) :
    (b.slice o n).length = n := by
  rw [length_slice]; omega

theorem slice_zero_length (b : Bytes) : b.slice 0 b.length = b := by
  simp [slice]

theorem take_eq_slice (b : Bytes) (n : Nat) : b.take n = b.slice 0 n := rfl

theorem drop_eq_slice (h : b.length = o + n) : b.drop o = b.slice o n := by
  rw [slice, take_of_length_le]
  rw [length_drop]
  omega

variable {o' : Nat}

theorem slice_slice {n' : Nat} (h : o' + n' ≤ n) :
    (b.slice o n).slice o' n' = b.slice (o + o') n' := by
  unfold slice
  rw [drop_take, drop_drop, take_take, min_eq_left (by omega)]

variable {a : Bytes}

theorem slice_append_left (h : o + n ≤ a.length) :
    slice (a ++ b) o n = a.slice o n := by
  unfold slice
  rw [drop_append_of_le_length (by omega), take_append_of_le_length (by simp; omega)]

theorem slice_append_right (h : a.length ≤ o) :
    slice (a ++ b) o n = b.slice (o - a.length) n := by
  unfold slice
  rw [drop_append, drop_of_length_le h, nil_append]

theorem slice_append_mid (a v c : Bytes) : slice (a ++ v ++ c) a.length v.length = v := by
  simp [slice]

theorem getElem?_slice (b : Bytes) (o n i : Nat) :
    (b.slice o n)[i]? = if i < n then b[o + i]? else none := by
  simp [slice, getElem?_take]

theorem slice_add (b : Bytes) (o m n : Nat) :
    b.slice o (m + n) = b.slice o m ++ b.slice (o + m) n := by
  unfold slice
  rw [take_add, drop_drop]

/-- Two byte strings agree on consecutive pieces of the given sizes, from an offset on. -/
def AgreeFrom (a b : Bytes) : Nat → List Nat → Prop
  | _, [] => True
  | o, n :: ns => a.slice o n = b.slice o n ∧ AgreeFrom a b (o + n) ns

theorem AgreeFrom.slice_eq : ∀ {ns : List Nat} {o : Nat}, AgreeFrom a b o ns →
    a.slice o ns.sum = b.slice o ns.sum
  | [], _, _ => rfl
  | n :: ns, o, ⟨h, hs⟩ => by
    rw [sum_cons, slice_add, slice_add, h, hs.slice_eq]

theorem eq_of_agree (ns : List Nat) (ha : a.length = ns.sum) (hb : b.length = ns.sum)
    (h : AgreeFrom a b 0 ns) : a = b := by
  have := h.slice_eq
  rwa [← ha, slice_zero_length, ha, ← hb, slice_zero_length] at this

/-! ## In-place writes -/

@[simp] theorem length_put (b : Bytes) (o : Nat) (v : Bytes) : (b.put o v).length = b.length := by
  simp [put]

theorem getElem?_put (b : Bytes) (o : Nat) (v : Bytes) (i : Nat) :
    (b.put o v)[i]? = b[i]?.map fun x => if o ≤ i then v.getD (i - o) x else x := by
  simp [put]

variable {v : Bytes}

/-- A read of a range disjoint from the written one does not see the write. -/
theorem slice_put_disjoint (h : o' + n ≤ o ∨ o + v.length ≤ o') :
    (b.put o v).slice o' n = b.slice o' n := by
  apply ext_getElem?
  intro i
  rw [getElem?_slice, getElem?_slice, getElem?_put]
  split
  · next hi =>
    cases hb : b[o' + i]? with
    | none => rfl
    | some x =>
      simp only [Option.map_some, Option.some.injEq]
      split
      · exact getD_eq_default _ _ (by omega)
      · rfl
  · rfl

/-- A read inside the written range reads the written bytes. -/
theorem slice_put_inside (hb : o' + n ≤ b.length)
    (h₁ : o ≤ o') (h₂ : o' + n ≤ o + v.length) : (b.put o v).slice o' n = v.slice (o' - o) n := by
  apply ext_getElem?
  intro i
  rw [getElem?_slice, getElem?_slice, getElem?_put]
  split
  · next hi =>
    rw [getElem?_eq_getElem (by omega : o' + i < b.length), Option.map_some,
      if_pos (by omega), getElem?_eq_getElem (by omega : o' - o + i < v.length)]
    congr 1
    rw [getD_eq_getElem _ _ (by omega : o' + i - o < v.length)]
    congr 1
    omega
  · rfl

theorem slice_put_self (hb : o + n ≤ b.length) (hn : v.length = n) :
    (b.put o v).slice o n = v := by
  rw [slice_put_inside hb (le_refl o) (by omega), Nat.sub_self, ← hn, slice_zero_length]

theorem put_put {w : Bytes} (h : v.length = w.length) :
    (b.put o v).put o w = b.put o w := by
  apply ext_getElem?
  intro i
  rw [getElem?_put, getElem?_put, getElem?_put, Option.map_map]
  congr 1
  funext x
  simp only [Function.comp]
  split
  · by_cases hi : i - o < w.length
    · rw [getD_eq_getElem _ _ hi, getD_eq_getElem _ _ hi]
    · rw [getD_eq_default _ _ (by omega), getD_eq_default _ _ (by omega),
        getD_eq_default _ _ (by omega)]
  · rfl

theorem put_slice_self (h : o + n ≤ b.length) : b.put o (b.slice o n) = b := by
  have hn := length_slice_of_le h
  refine eq_of_agree [o, n, b.length - (o + n)] (by simp; omega) (by simp; omega) ⟨?_, ?_, ?_, trivial⟩
  · exact slice_put_disjoint (Or.inl (by omega))
  · rw [zero_add]
    exact slice_put_self h hn
  · exact slice_put_disjoint (Or.inr (by omega))

theorem put_put_slices {z : Bytes} {k : Nat} (hk : k ≤ b.length) (hz : z.length = b.length) :
    (z.put 0 (b.slice 0 k)).put k (b.slice k (b.length - k)) = b := by
  have h1 : (b.slice 0 k).length = k := length_slice_of_le (by omega)
  have h2 : (b.slice k (b.length - k)).length = b.length - k := length_slice_of_le (by omega)
  refine eq_of_agree [k, b.length - k] (by simp; omega) (by simp; omega) ⟨?_, ?_, trivial⟩
  · rw [slice_put_disjoint (Or.inl (by omega)), slice_put_self (by omega) h1]
  · rw [zero_add, slice_put_self (by rw [length_put]; omega) h2]

/-- A slice of an overwritten string is the overwritten slice. -/
theorem slice_put_sub (b v : Bytes) (o k n : Nat) :
    (b.put (o + k) v).slice o n = (b.slice o n).put k v := by
  apply ext_getElem?
  intro i
  rw [getElem?_slice, getElem?_put, getElem?_put, getElem?_slice]
  by_cases hi : i < n
  · have : o + i - (o + k) = i - k := by omega
    simp [hi, this]
  · simp [hi]

theorem put_append_mid {w c : Bytes} (h : w.length = v.length) :
    put (a ++ v ++ c) a.length w = a ++ w ++ c := by
  refine eq_of_agree [a.length, v.length, c.length] (by simp) (by simp [h])
    ⟨?_, ?_, ?_, trivial⟩
  · rw [slice_put_disjoint (Or.inl (by omega)), append_assoc, append_assoc,
      slice_append_left (by omega), slice_append_left (by omega)]
  · rw [zero_add, slice_put_self (by simp) h, ← h]
    exact (slice_append_mid a w c).symm
  · rw [slice_put_disjoint (Or.inr (by omega)), slice_append_right (by simp),
      slice_append_right (by simp [h])]
    simp [h]

/-! ## Arrays of fixed-size records -/

section Records

variable {α : Type} {f : α → Bytes} {w : Nat}

theorem length_flatMap_records : ∀ {l : List α}, (∀ x ∈ l, (f x).length = w) →
    (l.flatMap f).length = w * l.length
  | [], _ => rfl
  | x :: l, hf => by
    rw [flatMap_cons, length_append, hf x (by simp),
      length_flatMap_records fun y hy => hf y (mem_cons_of_mem x hy), length_cons]
    ring

/-- Record `i` of an array of records. -/
theorem slice_flatMap_records : ∀ {l : List α}, (∀ x ∈ l, (f x).length = w) →
    ∀ {i : Nat} {x : α}, l[i]? = some x → slice (l.flatMap f) (w * i) w = f x
  | [], _, _, _, h => by simp at h
  | y :: l, hf, 0, x, h => by
    simp only [getElem?_cons_zero, Option.some.injEq] at h
    subst h
    have hy := hf y (by simp)
    have := slice_append_left (a := f y) (b := l.flatMap f) (o := 0) (n := w) (by simp [hy])
    rw [flatMap_cons, mul_zero, this]
    conv => lhs; rw [← hy]
    exact slice_zero_length _
  | y :: l, hf, i + 1, x, h => by
    have hy := hf y (by simp)
    rw [getElem?_cons_succ] at h
    rw [flatMap_cons, slice_append_right (by rw [hy, Nat.mul_succ]; omega), hy, Nat.mul_succ,
      Nat.add_sub_cancel]
    exact slice_flatMap_records (fun z hz => hf z (mem_cons_of_mem y hz)) h

/-- The slots of a table, from `base` on, into which records were written. -/
theorem map_slice_records {l : List α} {b : Bytes} {base : Nat}
    (hf : ∀ x ∈ l, (f x).length = w)
    (hb : ∀ o n, o + n ≤ (l.flatMap f).length → b.slice (base + o) n = slice (l.flatMap f) o n) :
    ((range l.length).map fun i => b.slice (base + w * i) w) = l.map f := by
  have hlen := length_flatMap_records hf
  apply ext_getElem?
  intro i
  simp only [getElem?_map]
  by_cases hi : i < l.length
  · have hx := getElem?_eq_getElem hi
    have hfit : w * i + w ≤ w * l.length := by
      rw [← Nat.mul_succ]
      exact Nat.mul_le_mul_left w hi
    rw [getElem?_range hi, hx, Option.map_some, Option.map_some, hb _ _ (hlen ▸ hfit),
      slice_flatMap_records hf hx]
  · rw [getElem?_eq_none (by simpa using hi), getElem?_eq_none (by omega)]
    rfl

theorem flatMap_range_slice (b : Bytes) (o w n : Nat) :
    ((range n).flatMap fun i => b.slice (o + w * i) w) = b.slice o (w * n) := by
  induction n with
  | zero => simp [slice]
  | succ n ih => rw [range_succ, flatMap_append, ih, flatMap_singleton, Nat.mul_succ,
      slice_add]

/-- Writing the front of a range over a string that agrees on the rest of it gives the range. -/
theorem slice_put_front {b c : Bytes} {o k n : Nat} (hk : k ≤ n) (hb : o + n ≤ b.length)
    (hc : o + n ≤ c.length) (h : c.slice (o + k) (n - k) = b.slice (o + k) (n - k)) :
    (c.put o (b.slice o k)).slice o n = b.slice o n := by
  have hlen : (b.slice o k).length = k := length_slice_of_le (by omega)
  rw [← Nat.add_sub_of_le hk, slice_add, slice_put_self (by omega) hlen,
    slice_put_disjoint (Or.inr (by omega)), h, ← slice_add]

end Records

/-! ## Zero runs -/

@[simp] theorem length_zeros (n : Nat) : (zeros n).length = n := by simp [zeros]

theorem zeros_add (m n : Nat) : zeros (m + n) = zeros m ++ zeros n :=
  (replicate_append_replicate ..).symm

theorem slice_zeros {k : Nat} (h : o + k ≤ n) : (zeros n).slice o k = zeros k := by
  unfold slice zeros
  rw [drop_replicate, take_replicate, min_eq_left (by omega)]

@[simp] theorem isZero_zeros (n : Nat) : (zeros n).isZero = true := by
  simp [isZero, zeros]

theorem isZero_iff : b.isZero = true ↔ b = zeros b.length := by
  unfold isZero zeros
  rw [all_eq_true, eq_replicate_iff]
  simp

/-- Copying what stands before and after a gap into a zeroed string, with another gap between. -/
theorem put_around (a o p g q z : Bytes) (i k : Nat) :
    ((a ++ zeros (p.length + i + q.length + k)).put a.length
        (slice (o ++ p ++ g ++ q ++ z) o.length p.length)).put (a.length + p.length + i)
      (slice (o ++ p ++ g ++ q ++ z) (o.length + p.length + g.length) q.length) =
    a ++ p ++ zeros i ++ q ++ zeros k := by
  have h1 : slice (o ++ p ++ g ++ q ++ z) o.length p.length = p := by
    have := slice_append_mid o p (g ++ q ++ z)
    simpa only [append_assoc] using this
  have h2 : slice (o ++ p ++ g ++ q ++ z) (o.length + p.length + g.length) q.length = q := by
    have := slice_append_mid (o ++ p ++ g) q z
    simpa only [length_append] using this
  have h3 : put (a ++ zeros p.length ++ (zeros i ++ zeros q.length ++ zeros k)) a.length p =
      a ++ p ++ (zeros i ++ zeros q.length ++ zeros k) := put_append_mid (by simp)
  have h4 : put (a ++ p ++ zeros i ++ zeros q.length ++ zeros k) (a.length + p.length + i) q =
      a ++ p ++ zeros i ++ q ++ zeros k := by
    have := put_append_mid (a := a ++ p ++ zeros i) (v := zeros q.length) (w := q) (c := zeros k)
      (by simp)
    simpa only [length_append, length_zeros] using this
  rw [h1, h2, zeros_add, zeros_add, zeros_add]
  simp only [append_assoc] at h3 h4 ⊢
  rw [h3, h4]
/-! ## Little-endian fields -/

@[simp] theorem length_ofNat (w n : Nat) : (ofNat w n).length = w := by
  induction w generalizing n with
  | zero => rfl
  | succ w ih => simp [ofNat, ih]

theorem toNat_lt (b : Bytes) : b.toNat < 256 ^ b.length := by
  induction b with
  | nil => simp [toNat]
  | cons x b ih =>
    simp only [toNat, length_cons, pow_succ]
    have := x.toNat_lt
    omega

theorem toNat_ofNat {w : Nat} (h : n < 256 ^ w) : (ofNat w n).toNat = n := by
  induction w generalizing n with
  | zero => simp only [pow_zero] at h; simp [ofNat, toNat]; omega
  | succ w ih =>
    have hlt : n / 256 < 256 ^ w := Nat.div_lt_of_lt_mul (by rwa [pow_succ, mul_comm] at h)
    simp only [ofNat, toNat, ih hlt, UInt8.toNat_ofNat']
    omega

theorem ofNat_toNat (b : Bytes) : ofNat b.length b.toNat = b := by
  induction b with
  | nil => rfl
  | cons x b ih =>
    have hx := x.toNat_lt
    have hdiv : (x.toNat + 256 * toNat b) / 256 = toNat b := by omega
    simp only [length_cons, toNat, ofNat, hdiv, ih, cons.injEq, and_true]
    apply UInt8.toNat.inj
    rw [UInt8.toNat_ofNat']
    omega

end Bytes

/-! ## Fixed-size arrays -/

/-- Bytes, and with them byte strings, are ordered as numbers and lexicographically. -/
instance linearOrderByte : LinearOrder UInt8 where
  le_refl := UInt8.le_refl
  le_trans := fun _ _ _ => UInt8.le_trans
  le_antisymm := fun _ _ => UInt8.le_antisymm
  le_total := UInt8.le_total
  lt_iff_le_not_ge := fun a b => by
    rw [UInt8.lt_iff_toNat_lt, UInt8.le_iff_toNat_le, UInt8.le_iff_toNat_le]
    omega
  toDecidableLE := inferInstance
  toDecidableEq := inferInstance
  toDecidableLT := inferInstance

/-- A byte array of a fixed size. -/
abbrev FixedBytes (n : Nat) := {b : Bytes // b.length = n}

namespace FixedBytes

/-- All zero. -/
def zero (n : Nat) : FixedBytes n := ⟨Bytes.zeros n, Bytes.length_zeros n⟩

/-- The byte `b`, `n` times. -/
def fill (n : Nat) (b : UInt8) : FixedBytes n := ⟨List.replicate n b, List.length_replicate⟩

/-- The `n` bytes of `b` at `o`; a range past the end reads as zero. -/
def read (n : Nat) (b : Bytes) (o : Nat) : FixedBytes n :=
  if h : (b.slice o n).length = n then ⟨b.slice o n, h⟩ else zero n

variable {n : Nat}

theorem zero_le (v : FixedBytes n) : zero n ≤ v := by
  obtain ⟨v, rfl⟩ := v
  change Bytes.zeros v.length ≤ v
  induction v with
  | nil => exact le_refl _
  | cons x v ih =>
    have hx : (0 : UInt8) ≤ x := UInt8.le_iff_toNat_le.2 (Nat.zero_le _)
    rw [← not_lt] at ih ⊢
    intro h
    rcases List.cons_lt_cons_iff.1 h with h | ⟨-, h⟩
    · exact absurd h (not_lt.2 hx)
    · exact ih h

theorem read_val {b : Bytes} {o : Nat} (h : o + n ≤ b.length) :
    (read n b o).1 = b.slice o n := by
  unfold read
  rw [dif_pos (Bytes.length_slice_of_le h)]

theorem read_eq {b : Bytes} {o : Nat} {v : FixedBytes n} (h : b.slice o n = v.1) :
    read n b o = v := by
  unfold read
  have hl : (b.slice o n).length = n := by rw [h]; exact v.2
  rw [dif_pos hl]
  exact Subtype.ext h

end FixedBytes
