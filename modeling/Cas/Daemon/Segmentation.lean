import Cas.Daemon.Request

/-!
# Framing is in bytes, not in descriptors

A descriptor chain is read as the sequence of its byte addresses (`cells`). `parseCells` is the parser
of such a sequence, and `parse` is that parser after any way of cutting the sequence into descriptors,
empty ones included (`parse_eq_parseCells`).
-/

namespace Cas.Daemon

open List
open Except (bind_eq_ok ensure_of ok_bind)

open Bytes (toNat)

/-! ## Chains as byte sequences -/

/-- The bytes of a descriptor: their addresses, and whether they are writable. -/
def Segment.cells (s : Segment) : List (Nat × Bool) :=
  (List.range s.len).map fun i => (s.addr + i, s.writable)

def cells (segments : List Segment) : List (Nat × Bool) := segments.flatMap Segment.cells

/-- One descriptor a byte. -/
def bytewise (cs : List (Nat × Bool)) : List Segment := cs.map fun c => ⟨c.1, 1, c.2⟩

/-- The same request, with its data cut into bytes. -/
def Request.bytewise : Request → Request
  | .read data => .read { data with segments := Daemon.bytewise (cells data.segments) }
  | .write data => .write { data with segments := Daemon.bytewise (cells data.segments) }
  | .getId completion segments => .getId completion (Daemon.bytewise (cells segments))
  | .zero range => .zero range
  | .flush completion => .flush completion
  | .unsupported completion => .unsupported completion
  | .invalid completion => .invalid completion

/-- The access a byte of a chain is for. -/
def access (writable : Bool) : Permissions := if writable then .write else .read

/-- Every byte of the chain is mapped for its access. -/
def Inside (mem : GuestMemory) (cs : List (Nat × Bool)) : Prop :=
  ∀ c ∈ cs, c.1 < U64 ∧ mem.allows c.1 (access c.2) = true

@[simp] theorem cells_nil : cells [] = [] := rfl

@[simp] theorem cells_cons (s : Segment) (l : List Segment) : cells (s :: l) = s.cells ++ cells l := rfl

@[simp] theorem cells_append (l l' : List Segment) : cells (l ++ l') = cells l ++ cells l' :=
  flatMap_append

@[simp] theorem Segment.length_cells (s : Segment) : s.cells.length = s.len := by simp [Segment.cells]

variable {s : Segment}

theorem Segment.cells_of_len_zero (h : s.len = 0) : s.cells = [] := by
  simp [Segment.cells, h]

theorem Segment.snd_of_mem_cells {c : Nat × Bool} (h : c ∈ s.cells) :
    c.2 = s.writable := by
  obtain ⟨i, -, rfl⟩ := mem_map.1 h
  rfl

theorem Segment.cells_ne_nil (h : s.len ≠ 0) : s.cells ≠ [] := by
  rw [← length_pos_iff, s.length_cells]
  omega

theorem cells_filter (l : List Segment) : cells (l.filter fun s => s.len ≠ 0) = cells l := by
  induction l with
  | nil => rfl
  | cons s l ih =>
    by_cases h : s.len = 0
    · rw [filter_cons_of_neg (by simpa using h), ih, cells_cons, Segment.cells_of_len_zero h,
        nil_append]
    · rw [filter_cons_of_pos (by simpa using h), cells_cons, cells_cons, ih]

theorem cells_bytewise (cs : List (Nat × Bool)) : cells (bytewise cs) = cs := by
  induction cs with
  | nil => rfl
  | cons c cs ih =>
    rw [bytewise, map_cons, cells_cons, ← bytewise, ih]
    simp [Segment.cells]

section Memory

variable {mem : GuestMemory} {cs cs' : List (Nat × Bool)}

theorem Inside.left (h : Inside mem (cs ++ cs')) : Inside mem cs :=
  fun c hc => h c (mem_append_left _ hc)

theorem Inside.right (h : Inside mem (cs ++ cs')) : Inside mem cs' :=
  fun c hc => h c (mem_append_right _ hc)

theorem checkRange_of_allows {addr len : Nat} {a : Permissions} (hlen : len ≠ 0)
    (h : ∀ i < len, addr + i < U64 ∧ mem.allows (addr + i) a = true) :
    mem.checkRange addr len a = true := by
  refine decide_eq_true ⟨?_, ?_⟩
  · have := (h (len - 1) (by omega)).1
    omega
  · rw [all_eq_true]
    exact fun i hi => (h i (mem_range.1 hi)).2

theorem checkRange_of_inside {s : Segment} (hs : s.len ≠ 0) (h : Inside mem s.cells) :
    mem.checkRange s.addr s.len (access s.writable) = true :=
  checkRange_of_allows hs fun i hi =>
    h (s.addr + i, s.writable) (mem_map.2 ⟨i, mem_range.2 hi, rfl⟩)

/-- What guest memory holds at the bytes of a chain. -/
def GuestMemory.read (mem : GuestMemory) (cs : List (Nat × Bool)) : Bytes :=
  cs.map fun c => mem.byte c.1

theorem readSlice_front {s : Segment} (hw : s.writable = false) (h : Inside mem s.cells) {n : Nat}
    (hn : n ≤ s.len) (h0 : n ≠ 0) :
    mem.readSlice s.addr n = .ok (mem.read (s.cells.take n)) := by
  have hcheck : mem.checkRange s.addr n .read = true := by
    refine checkRange_of_allows h0 fun i hi => ?_
    have := h (s.addr + i, s.writable) (mem_map.2 ⟨i, mem_range.2 (by omega), rfl⟩)
    rwa [hw] at this
  rw [GuestMemory.readSlice, if_pos hcheck, GuestMemory.read, Segment.cells, ← map_take,
    take_range, Nat.min_eq_left hn, map_map]
  rfl

end Memory

/-! ## The parser of a byte sequence -/

/-- The direction of the bytes, and their number. -/
def checkCells : (writableSeen : Bool) → (total : Nat) → List (Nat × Bool) → Except IoError Nat
  | _, total, [] => .ok total
  | writableSeen, total, c :: rest =>
    if writableSeen ∧ ¬ c.2 then
      .error (invalid "readable descriptor after writable descriptor")
    else match checkedAdd total 1 with
      | none => .error (invalid "length overflow")
      | some total => checkCells (writableSeen || c.2) total rest

/-- The status is the last byte, if it is writable. -/
def cellStatus (head : Nat) (cs : List (Nat × Bool)) : Option Completion :=
  cs.getLast?.bind fun c => if c.2 then some ⟨head, c.1⟩ else none

/-- `parse`, of a byte sequence inside guest memory: a header of 16 readable bytes, the payload, and
the status. -/
def parseCells (mem : GuestMemory) (head : Nat) (cs : List (Nat × Bool)) (capacity : Nat) :
    Except IoError Request := do
  let some completion := cellStatus head cs
    | .error (invalid "missing writable status byte")
  let total ← checkCells false 0 cs
  Except.ensure (17 ≤ total) (invalid "missing request header")
  Except.ensure (total - 17 ≤ MAX_REQUEST_BYTES) (invalid "request exceeds size limit")
  Except.ensure ((cs.take 16).all fun c => !c.2) (invalid "request header is not entirely readable")
  let header := mem.read (cs.take 16)
  parseBody mem completion (bytewise (cs.drop 16).dropLast) (toNat (header.take 4))
    (toNat (header.drop 8)) (total - 17) capacity

/-! ## Each step of the parser by its bytes -/

theorem checkCells_append {w : Bool} {rest : List (Nat × Bool)} :
    ∀ {cs : List (Nat × Bool)} {seen : Bool} {total : Nat}, (∀ c ∈ cs, c.2 = w) → cs ≠ [] →
      checkCells seen total (cs ++ rest) =
        if seen ∧ ¬ w then .error (invalid "readable descriptor after writable descriptor")
        else match checkedAdd total cs.length with
          | none => .error (invalid "length overflow")
          | some total => checkCells (seen || w) total rest
  | [], _, _, _, hne => absurd rfl hne
  | c :: cs, seen, total, hw, _ => by
    have hc : c.2 = w := hw c (by simp)
    have htail : ∀ x ∈ cs, x.2 = w := fun x hx => hw x (mem_cons_of_mem c hx)
    rw [cons_append, checkCells, hc]
    by_cases hs : seen = true ∧ ¬ w = true
    · rw [if_pos hs, if_pos hs]
    rw [if_neg hs, if_neg hs]
    cases cs with
    | nil => rfl
    | cons c' cs =>
      -- the direction of the first byte is that of all of them
      have hs' : ¬ ((seen || w) = true ∧ ¬ w = true) := by
        cases w <;> simp_all
      by_cases h1 : total + 1 < U64
      · have hadd : checkedAdd (total + 1) (c' :: cs).length =
            checkedAdd total (c :: c' :: cs).length := by
          simp only [checkedAdd, length_cons]
          congr 2 <;> omega
        have hor : (seen || w || w) = (seen || w) := by rw [Bool.or_assoc, Bool.or_self]
        rw [show checkedAdd total 1 = some (total + 1) from if_pos h1]
        dsimp only
        rw [checkCells_append htail (cons_ne_nil _ _), if_neg hs', hadd, hor]
      · have hnone : checkedAdd total (c :: c' :: cs).length = none :=
          if_neg (by simp only [length_cons]; omega)
        rw [show checkedAdd total 1 = none from if_neg h1, hnone]

theorem checkDescriptors_eq {mem : GuestMemory} : ∀ {l : List Segment} {seen : Bool} {total : Nat},
    (∀ s ∈ l, s.len ≠ 0) → Inside mem (cells l) →
      checkDescriptors mem seen total l = checkCells seen total (cells l)
  | [], _, _, _, _ => rfl
  | s :: l, seen, total, hne, hin => by
    have hs := hne s (by simp)
    have hcheck := checkRange_of_inside hs hin.left
    rw [cells_cons, checkCells_append (fun c => Segment.snd_of_mem_cells) (Segment.cells_ne_nil hs),
      s.length_cells, checkDescriptors]
    split
    · rfl
    · rw [if_neg (by rw [← access, hcheck]; simp)]
      cases checkedAdd total s.len with
      | none => rfl
      | some total => exact checkDescriptors_eq (fun x hx => hne x (mem_cons_of_mem s hx)) hin.right

theorem eq_length_of_checkCells : ∀ {cs : List (Nat × Bool)} {seen : Bool} {total n : Nat},
    checkCells seen total cs = .ok n → n = total + cs.length
  | [], _, _, _, h => (Except.ok.inj h).symm
  | c :: cs, seen, total, n, h => by
    rw [checkCells] at h
    split at h
    · cases h
    · split at h
      · cases h
      · next total' ht =>
        obtain ⟨rfl, -⟩ := checkedAdd_eq_some.1 ht
        rw [eq_length_of_checkCells h, length_cons]
        omega

variable {l : List Segment}

/-- The last byte of a chain is that of its last descriptor. -/
theorem getLast?_cells (hs : s.len ≠ 0) :
    (cells (l ++ [s])).getLast? = some (s.addr + (s.len - 1), s.writable) := by
  have hrange : range s.len = range (s.len - 1) ++ [s.len - 1] := by
    conv => lhs; rw [show s.len = s.len - 1 + 1 by omega, range_succ]
  have hcells : s.cells = (range (s.len - 1)).map (fun i => (s.addr + i, s.writable)) ++
      [(s.addr + (s.len - 1), s.writable)] := by
    rw [Segment.cells, hrange, map_append]
    rfl
  rw [cells_append, cells_cons, cells_nil, append_nil, hcells, ← append_assoc,
    getLast?_concat]

theorem fromDescriptors_eq {mem : GuestMemory} {head : Nat}
    (hne : ∀ s ∈ l, s.len ≠ 0) (hin : Inside mem (cells l)) :
    Completion.fromDescriptors mem head l = cellStatus head (cells l) := by
  rcases eq_nil_or_concat l with rfl | ⟨l, s, rfl⟩
  · rfl
  rw [concat_eq_append] at hne hin ⊢
  have hs : s.len ≠ 0 := hne s (by simp)
  have hlast := getLast?_cells (l := l) hs
  obtain ⟨hlt, hallow⟩ := hin _ (mem_of_getLast? hlast)
  have hfind : (l ++ [s]).reverse.find? (fun segment => segment.len ≠ 0) = some s := by
    rw [reverse_append, reverse_singleton, singleton_append,
      find?_cons_of_pos (by simpa using hs)]
  unfold Completion.fromDescriptors cellStatus
  rw [hfind, hlast, Option.bind_eq_bind, Option.bind_some, Option.bind_some]
  rw [show checkedAdd s.addr (s.len - 1) = some (s.addr + (s.len - 1)) from if_pos hlt]
  cases hw : s.writable with
  | false => simp
  | true =>
    have hcheck : mem.checkRange (s.addr + (s.len - 1)) 1 .write = true := by
      refine checkRange_of_allows one_ne_zero fun i hi => ?_
      obtain rfl : i = 0 := by omega
      rw [hw] at hallow
      exact ⟨hlt, hallow⟩
    simp [hcheck]

section Header

variable {mem : GuestMemory}

/-- A descriptor whose first `n` bytes were read. -/
def Segment.advance (s : Segment) (n : Nat) : Segment :=
  ⟨if s.len - n = 0 then s.addr else s.addr + n, s.len - n, s.writable⟩

theorem Segment.cells_advance (s : Segment) (n : Nat) : (s.advance n).cells = s.cells.drop n := by
  unfold Segment.advance
  by_cases h : s.len - n = 0
  · rw [if_pos h, Segment.cells_of_len_zero h, drop_of_length_le (by rw [s.length_cells]; omega)]
  · rw [if_neg h]
    apply ext_getElem?
    intro i
    simp only [Segment.cells, getElem?_drop, getElem?_map]
    by_cases hi : i < s.len - n
    · rw [getElem?_range hi, getElem?_range (by omega)]
      simp [add_assoc]
    · rw [getElem?_eq_none (by simpa using hi), getElem?_eq_none (by simp; omega)]
      rfl

theorem readHeader_cons {s : Segment} {l : List Segment} {need : Nat} (hs : s.len ≠ 0)
    (hw : s.writable = false) (hin : Inside mem s.cells) :
    readHeader mem (need + 1) (s :: l) = (do
      let (tail, rest) ← readHeader mem (need + 1 - min s.len (need + 1)) l
      .ok (mem.read (s.cells.take (need + 1)) ++ tail, s.advance (min s.len (need + 1)) :: rest)) := by
  have hread := readSlice_front hw hin (n := min s.len (need + 1)) (Nat.min_le_left _ _) (by omega)
  have htake : s.cells.take (min s.len (need + 1)) = s.cells.take (need + 1) := by
    conv => lhs; rw [← s.length_cells, Nat.min_comm, ← take_eq_take_min]
  rw [htake] at hread
  rw [readHeader, ensure_of hw, ok_bind]
  dsimp only
  rw [hread, ok_bind]
  have hlast := (hin (s.addr + (s.len - 1), s.writable)
    (mem_map.2 ⟨s.len - 1, mem_range.2 (by omega), rfl⟩)).1
  unfold Segment.advance
  by_cases hend : s.len - min s.len (need + 1) = 0
  · rw [if_pos hend, if_pos hend]
    rfl
  · have hadd : checkedAdd s.addr (min s.len (need + 1)) = some (s.addr + min s.len (need + 1)) :=
      if_pos (by dsimp only at hlast; omega)
    rw [if_neg hend, if_neg hend, hadd]
    rfl

theorem take_cells_cons (s : Segment) (l : List Segment) (need : Nat) :
    (cells (s :: l)).take need = s.cells.take need ++ (cells l).take (need - s.len) := by
  rw [cells_cons, take_append, s.length_cells]

theorem readHeader_error : ∀ {l : List Segment} {need : Nat}, (∀ s ∈ l, s.len ≠ 0) →
    Inside mem (cells l) → ((cells l).take need).all (fun c => !c.2) = false →
    readHeader mem need l = .error (invalid "request header is not entirely readable")
  | l, 0, _, _, h => by simp at h
  | [], need + 1, _, _, h => by simp at h
  | s :: l, need + 1, hne, hin, h => by
    have hs := hne s (by simp)
    cases hw : s.writable with
    | true =>
      rw [readHeader, Except.ensure_of_not (by simp [hw])]
      rfl
    | false =>
      have hfirst : (s.cells.take (need + 1)).all (fun c => !c.2) = true := by
        rw [all_eq_true]
        intro c hc
        rw [Segment.snd_of_mem_cells (mem_of_mem_take hc), hw]
        rfl
      rw [take_cells_cons, all_append, hfirst, Bool.true_and] at h
      have hneed : need + 1 - min s.len (need + 1) = need + 1 - s.len := by omega
      rw [readHeader_cons hs hw hin.left, hneed,
        readHeader_error (fun x hx => hne x (mem_cons_of_mem s hx)) hin.right h]
      rfl

/-- A readable header is copied, and the descriptors go on after it. A writable last descriptor is
not touched. -/
theorem readHeader_ok : ∀ {l : List Segment} {n : Nat}, (∀ s ∈ l, s.len ≠ 0) →
    Inside mem (cells l) → ((cells l).take n).all (fun c => !c.2) = true →
    n ≤ (cells l).length →
    ∃ rest, readHeader mem n l = .ok (mem.read ((cells l).take n), rest) ∧
      cells rest = (cells l).drop n ∧
      ∀ s, l.getLast? = some s → s.writable = true → rest.getLast? = some s
  | l, 0, _, _, _, _ => ⟨l, by rw [readHeader, take_zero]; rfl, by simp, fun s hs _ => hs⟩
  | [], need + 1, _, _, _, hlen => by simp at hlen
  | s :: l, need + 1, hne, hin, h, hlen => by
    have hs := hne s (by simp)
    have hw : s.writable = false := by
      have hfirst : (s.addr + 0, s.writable) ∈ (cells (s :: l)).take (need + 1) := by
        rw [take_cells_cons, Segment.cells, ← map_take, take_range]
        exact mem_append_left _ (mem_map.2 ⟨0, mem_range.2 (by omega), rfl⟩)
      simpa using all_eq_true.1 h _ hfirst
    rw [take_cells_cons, all_append, Bool.and_eq_true] at h
    rw [cells_cons, length_append, s.length_cells] at hlen
    have hneed : need + 1 - min s.len (need + 1) = need + 1 - s.len := by omega
    obtain ⟨rest, hread, hcells, hlast⟩ := readHeader_ok (n := need + 1 - s.len)
      (fun x hx => hne x (mem_cons_of_mem s hx)) hin.right h.2 (by omega)
    refine ⟨s.advance (min s.len (need + 1)) :: rest, ?_, ?_, ?_⟩
    · rw [readHeader_cons hs hw hin.left, hneed, hread, take_cells_cons, GuestMemory.read,
        GuestMemory.read, GuestMemory.read, map_append]
      rfl
    · rw [cells_cons, Segment.cells_advance, hcells, cells_cons, drop_append, s.length_cells]
      congr 1
      rcases le_total s.len (need + 1) with hle | hle
      · rw [Nat.min_eq_left hle, drop_of_length_le (by rw [s.length_cells]),
          drop_of_length_le (by rw [s.length_cells]; exact hle)]
      · rw [Nat.min_eq_right hle]
    · intro x hx hxw
      cases l with
      | nil =>
        obtain rfl : s = x := by simpa using hx
        rw [hw] at hxw
        cases hxw
      | cons y l =>
        rw [getLast?_cons_cons] at hx
        have hrest := hlast x hx hxw
        cases rest with
        | nil => cases hrest
        | cons z rest =>
          rw [getLast?_cons_cons]
          exact hrest

end Header

theorem dropStatus_concat (l : List Segment) (s : Segment) :
    dropStatus (l ++ [s]) = l ++ [{ s with len := s.len - 1 }] := by
  induction l with
  | nil => rfl
  | cons x l ih =>
    have hne : l ++ [s] ≠ [] := by simp
    rw [cons_append, dropStatus, ih, cons_append]
    exact hne

theorem cells_dropStatus (hl : l.getLast? = some s)
    (hs : s.len ≠ 0) : cells (dropStatus l) = (cells l).dropLast := by
  obtain ⟨l', rfl⟩ := getLast?_eq_some_iff.1 hl
  have hrange : range s.len = range (s.len - 1) ++ [s.len - 1] := by
    conv => lhs; rw [show s.len = s.len - 1 + 1 by omega, range_succ]
  have hcells : s.cells = Segment.cells { s with len := s.len - 1 } ++
      [(s.addr + (s.len - 1), s.writable)] := by
    rw [Segment.cells, hrange, map_append]
    rfl
  rw [dropStatus_concat, cells_append, cells_append, cells_cons, cells_cons, cells_nil,
    append_nil, append_nil, hcells, ← append_assoc, dropLast_concat]

/-! ## The body -/

section Body

variable {mem : GuestMemory} {segments : List Segment}

/-- A condition on the direction of descriptors is one on the direction of their bytes. -/
theorem all_bytewise (hne : ∀ s ∈ segments, s.len ≠ 0) (p : Bool → Bool) :
    (bytewise (cells segments)).all (fun s => p s.writable) = segments.all fun s => p s.writable := by
  rw [Bool.eq_iff_iff, all_eq_true, all_eq_true]
  constructor
  · intro h s hs
    have hcell : (s.addr + 0, s.writable) ∈ cells segments :=
      mem_flatMap.2 ⟨s, hs, mem_map.2 ⟨0, mem_range.2 (Nat.pos_of_ne_zero (hne s hs)), rfl⟩⟩
    exact h ⟨s.addr + 0, 1, s.writable⟩ (mem_map.2 ⟨_, hcell, rfl⟩)
  · intro h x hx
    obtain ⟨c, hc, rfl⟩ := mem_map.1 hx
    obtain ⟨s, hs, hc⟩ := mem_flatMap.1 hc
    dsimp only
    rw [Segment.snd_of_mem_cells hc]
    exact h s hs

theorem readSegments_eq (hne : ∀ s ∈ segments, s.len ≠ 0) (hin : Inside mem (cells segments))
    (hw : (segments.all fun s => !s.writable) = true) :
    readSegments mem segments = .ok (mem.read (cells segments)) := by
  induction segments with
  | nil => rfl
  | cons s l ih =>
    rw [all_cons, Bool.and_eq_true] at hw
    have hread := readSlice_front (by simpa using hw.1) hin.left (le_refl s.len) (hne s (by simp))
    rw [take_of_length_le (by rw [s.length_cells])] at hread
    rw [readSegments, hread, ok_bind,
      ih (fun x hx => hne x (mem_cons_of_mem s hx)) hin.right hw.2, ok_bind, cells_cons,
      GuestMemory.read, GuestMemory.read, GuestMemory.read, map_append]

theorem len_of_mem_bytewise {cs : List (Nat × Bool)} : ∀ s ∈ bytewise cs, s.len ≠ 0 := by
  intro s hs
  obtain ⟨c, -, rfl⟩ := mem_map.1 hs
  exact one_ne_zero

theorem parseZero_bytewise (hne : ∀ s ∈ segments, s.len ≠ 0) (hin : Inside mem (cells segments))
    (completion : Completion) (kind len capacity : Nat) :
    parseZero mem completion (bytewise (cells segments)) kind len capacity =
      parseZero mem completion segments kind len capacity := by
  have hall := all_bytewise hne (fun w => !w)
  unfold parseZero
  rw [hall]
  by_cases hc : (len = 0 ∨ len = 16) ∧ (segments.all fun s => !s.writable) = true
  · rw [ensure_of hc, ok_bind, ok_bind, readSegments_eq hne hin hc.2,
      readSegments_eq len_of_mem_bytewise (by rw [cells_bytewise]; exact hin) (hall.trans hc.2),
      cells_bytewise]
  · rw [Except.ensure_of_not hc]
    rfl

theorem parseBody_bytewise (hne : ∀ s ∈ segments, s.len ≠ 0) (hin : Inside mem (cells segments))
    (completion : Completion) (kind sector len capacity : Nat) :
    (parseBody mem completion (bytewise (cells segments)) kind sector len capacity).map
        Request.bytewise =
      (parseBody mem completion segments kind sector len capacity).map Request.bytewise := by
  have hdata := all_bytewise hne fun w => decide ((w = true) = (kind = VIRTIO_BLK_T_IN))
  have hid := all_bytewise hne fun w => w
  unfold parseBody
  rw [parseZero_bytewise hne hin]
  split
  · rfl
  · split
    · split
      · rfl
      · split
        · next hc =>
          have hc' := hc
          rw [hdata] at hc'
          rw [dif_pos hc']
          dsimp only
          split
          · simp only [Except.map, Request.bytewise, cells_bytewise]
          · simp only [Except.map, Request.bytewise, cells_bytewise]
        · next hc =>
          rw [hdata] at hc
          rw [dif_neg hc]
    · split
      · rfl
      · split
        · rw [hid]
          split
          · simp only [Except.map, Request.bytewise, cells_bytewise]
          · rfl
        · rfl

end Body

/-! ## The parser -/

/-- The data of a request. -/
def Request.data : Request → Option (List Segment)
  | .read data | .write data => some data.segments
  | .getId _ segments => some segments
  | .zero _ | .flush _ | .unsupported _ | .invalid _ => none

section Parse

variable {mem : GuestMemory} {descriptors : List Segment}

variable {head : Nat} {completion : Completion}

/-- The data the body gets: what is left after the header and before the status. -/
theorem exists_payload {l : List Segment} (hne : ∀ s ∈ l, s.len ≠ 0)
    (hin : Inside mem (cells l))
    (hc : cellStatus head (cells l) = some completion) (hlen : 17 ≤ (cells l).length)
    (hr : ((cells l).take 16).all (fun c => !c.2) = true) :
    ∃ rest, readHeader mem 16 l = .ok (mem.read ((cells l).take 16), rest) ∧
      (∃ s, rest.getLast? = some s ∧ s.len ≠ 0) ∧
      cells (dropStatus rest) = ((cells l).drop 16).dropLast := by
  obtain ⟨rest, hread, hcells, hlast⟩ := readHeader_ok hne hin hr (by omega)
  rcases eq_nil_or_concat l with rfl | ⟨l, s, rfl⟩
  · simp at hlen
  rw [concat_eq_append] at *
  have hs : s.len ≠ 0 := hne s (by simp)
  have hw : s.writable = true := by
    rw [cellStatus, getLast?_cells hs, Option.bind_some] at hc
    dsimp only at hc
    split at hc
    · assumption
    · cases hc
  have hrest := hlast s (getLast?_concat ..) hw
  exact ⟨rest, hread, ⟨s, hrest, hs⟩, by rw [cells_dropStatus hrest hs, hcells]⟩

/-- **Framing is in bytes.** A chain inside guest memory is parsed as the sequence of its bytes. -/
theorem parse_eq_parseCells (head : Nat) (hin : Inside mem (cells descriptors)) (capacity : Nat) :
    (parse mem head descriptors capacity).map Request.bytewise =
      (parseCells mem head (cells descriptors) capacity).map Request.bytewise := by
  rw [← cells_filter] at hin ⊢
  unfold parse parseCells
  have hne : ∀ s ∈ descriptors.filter (fun s => s.len ≠ 0), s.len ≠ 0 := by simp
  generalize (descriptors.filter fun s => s.len ≠ 0) = l at hin hne
  dsimp only
  rw [fromDescriptors_eq hne hin, checkDescriptors_eq hne hin]
  cases hc : cellStatus head (cells l) with
  | none => rfl
  | some completion =>
    dsimp only
    cases ht : checkCells false 0 (cells l) with
    | error e => rfl
    | ok total =>
      rw [ok_bind, ok_bind]
      by_cases h17 : 17 ≤ total
      · rw [ensure_of h17, ok_bind, ok_bind]
        by_cases hmax : total - 17 ≤ MAX_REQUEST_BYTES
        · rw [ensure_of hmax, ok_bind, ok_bind]
          have hlen := eq_length_of_checkCells ht
          cases hr : ((cells l).take 16).all (fun c => !c.2) with
          | false =>
            rw [readHeader_error hne hin hr]
            rfl
          | true =>
            obtain ⟨rest, hread, -, hcells⟩ := exists_payload hne hin hc (by omega) hr
            have hin' : Inside mem (cells ((dropStatus rest).filter fun s => s.len ≠ 0)) := by
              rw [cells_filter, hcells]
              exact fun c hc => hin c (mem_of_mem_drop (mem_of_mem_dropLast hc))
            have hbody := parseBody_bytewise (by simp) hin' completion
              (toNat ((mem.read ((cells l).take 16)).take 4))
              (toNat ((mem.read ((cells l).take 16)).drop 8)) (total - 17) capacity
            rw [cells_filter, hcells] at hbody
            rw [hread]
            exact hbody.symm
        · rw [Except.ensure_of_not hmax]
          rfl
      · rw [Except.ensure_of_not h17]
        rfl

/-- The slices and indices of the parser: the header is filled, a last descriptor with a status byte
is left after it, and the data segments end inside the data. -/
def InBounds (mem : GuestMemory) (head : Nat) (descriptors : List Segment) : Prop :=
  let l := descriptors.filter fun s => s.len ≠ 0
  ∀ completion total header rest, Completion.fromDescriptors mem head l = some completion →
    checkDescriptors mem false 0 l = .ok total → 17 ≤ total →
    readHeader mem 16 l = .ok (header, rest) →
      header.length = 16 ∧ (∃ s, rest.getLast? = some s ∧ s.len ≠ 0) ∧
      ∀ pre s post, ((dropStatus rest).filter fun s => s.len ≠ 0) = pre ++ s :: post →
        (cells pre).length + s.len ≤ total - 17

/-- What the header loop leaves, once the checks before it passed. -/
theorem rest_of_readHeader {total : Nat} {l : List Segment} (hne : ∀ s ∈ l, s.len ≠ 0)
    (hin : Inside mem (cells l)) {header : Bytes} {rest : List Segment}
    (hc : Completion.fromDescriptors mem head l = some completion)
    (ht : checkDescriptors mem false 0 l = .ok total) (h17 : 17 ≤ total)
    (hread : readHeader mem 16 l = .ok (header, rest)) :
    total = (cells l).length ∧ header = mem.read ((cells l).take 16) ∧
      (∃ s, rest.getLast? = some s ∧ s.len ≠ 0) ∧
      cells (dropStatus rest) = ((cells l).drop 16).dropLast := by
  rw [fromDescriptors_eq hne hin] at hc
  rw [checkDescriptors_eq hne hin] at ht
  have hlen := eq_length_of_checkCells ht
  rw [zero_add] at hlen
  have hr : ((cells l).take 16).all (fun c => !c.2) = true := by
    by_contra hr
    rw [readHeader_error hne hin (by simpa using hr)] at hread
    cases hread
  obtain ⟨rest', hread', hlast, hcells⟩ := exists_payload hne hin hc (by omega) hr
  obtain ⟨rfl, rfl⟩ : mem.read ((cells l).take 16) = header ∧ rest' = rest := by
    simpa using hread'.symm.trans hread
  exact ⟨hlen, rfl, hlast, hcells⟩

theorem inBounds (head : Nat) (hin : Inside mem (cells descriptors)) :
    InBounds mem head descriptors := by
  rw [← cells_filter] at hin
  unfold InBounds
  have hne : ∀ s ∈ descriptors.filter (fun s => s.len ≠ 0), s.len ≠ 0 := by simp
  generalize (descriptors.filter fun s => s.len ≠ 0) = l at hin hne
  dsimp only
  intro completion total header rest hc ht h17 hread
  obtain ⟨rfl, rfl, hlast, hcells⟩ := rest_of_readHeader hne hin hc ht h17 hread
  refine ⟨by simp [GuestMemory.read]; omega, hlast, ?_⟩
  intro pre s post hsplit
  have hparts := cells_filter (dropStatus rest)
  rw [hsplit, hcells] at hparts
  have hsum := congrArg length hparts
  simp only [cells_append, cells_cons, length_append, Segment.length_cells, length_dropLast,
    length_drop] at hsum
  omega

variable {r : Request} {capacity : Nat}

theorem data_of_parseZero {segments : List Segment}
    {kind len : Nat} (h : parseZero mem completion segments kind len capacity = .ok r) :
    r.data = none := by
  obtain ⟨-, h⟩ := Except.ensure_bind_eq_ok.1 h
  obtain ⟨bytes, -, h⟩ := bind_eq_ok.1 h
  dsimp only at h
  split at h
  · obtain rfl := Except.ok.inj h
    rfl
  · split at h
    · cases h
    · split at h
      · obtain rfl := Except.ok.inj h
        rfl
      · cases h

theorem data_of_parseBody {segments data : List Segment}
    {kind sector len : Nat}
    (h : parseBody mem completion segments kind sector len capacity = .ok r)
    (hd : r.data = some data) : data = segments := by
  unfold parseBody at h
  split at h
  · rw [data_of_parseZero h] at hd
    cases hd
  · split at h
    · split at h
      · cases h
      · split at h
        · obtain rfl := Except.ok.inj h
          split at hd
          · exact (Option.some.inj hd).symm
          · exact (Option.some.inj hd).symm
        · cases h
    · split at h
      · split at h
        · obtain rfl := Except.ok.inj h
          cases hd
        · cases h
      · split at h
        · split at h
          · obtain rfl := Except.ok.inj h
            exact (Option.some.inj hd).symm
          · cases h
        · obtain rfl := Except.ok.inj h
          cases hd

theorem cells_data (hin : Inside mem (cells descriptors))
    (h : parse mem head descriptors capacity = .ok r) {data : List Segment} (hd : r.data = some data) :
    cells data = ((cells descriptors).drop 16).dropLast := by
  rw [← cells_filter descriptors] at hin ⊢
  unfold parse at h
  have hne : ∀ s ∈ descriptors.filter (fun s => s.len ≠ 0), s.len ≠ 0 := by simp
  generalize (descriptors.filter fun s => s.len ≠ 0) = l at hin hne h ⊢
  dsimp only at h
  split at h
  · next completion hc =>
    obtain ⟨total, ht, h⟩ := bind_eq_ok.1 h
    obtain ⟨h17, h⟩ := Except.ensure_bind_eq_ok.1 h
    obtain ⟨-, h⟩ := Except.ensure_bind_eq_ok.1 h
    obtain ⟨⟨header, rest⟩, hread, h⟩ := bind_eq_ok.1 h
    obtain ⟨-, -, -, hcells⟩ := rest_of_readHeader hne hin hc ht h17 hread
    rw [data_of_parseBody h hd, cells_filter, ← hcells]
  · cases h

/-- **Request parsing ignores descriptor boundaries.** Two chains of the same bytes inside guest
memory parse to the same error or to the same request, whose data are the bytes between header and
status, and the parser stays inside its buffers. -/
theorem segmentation_irrelevant {descriptors' : List Segment}
    (h : cells descriptors = cells descriptors') (hin : Inside mem (cells descriptors))
    (head capacity : Nat) :
    (parse mem head descriptors capacity).map Request.bytewise =
        (parse mem head descriptors' capacity).map Request.bytewise ∧
      (∀ r data, parse mem head descriptors capacity = .ok r → r.data = some data →
        cells data = ((cells descriptors).drop 16).dropLast) ∧
      InBounds mem head descriptors := by
  refine ⟨?_, fun r data hp hd => cells_data hin hp hd, inBounds head hin⟩
  rw [parse_eq_parseCells head hin, h, parse_eq_parseCells head (h ▸ hin)]

end Parse

/-- The chain of a FLUSH request, cut in two ways. -/
theorem segmentation_irrelevant_flush :
    let mem : GuestMemory := ⟨fun i => if i = 0 then 4 else 0, fun _ _ => true⟩
    (parse mem 0 [⟨0, 16, false⟩, ⟨16, 1, true⟩] 0).map Request.bytewise =
      (parse mem 0 [⟨0, 3, false⟩, ⟨9, 0, true⟩, ⟨3, 13, false⟩, ⟨16, 1, true⟩] 0).map
        Request.bytewise := by
  refine (segmentation_irrelevant (by decide) ?_ 0 0).1
  intro c hc
  refine ⟨?_, rfl⟩
  have hlt : ∀ c ∈ cells [⟨0, 16, false⟩, ⟨16, 1, true⟩], c.1 < U64 := by decide
  exact hlt c hc

end Cas.Daemon
