import Cas.Daemon.Reactor
import Cas.Lib.Ring
import Mathlib.Data.Set.Card
import Mathlib.Data.List.Nodup

/-!
# IO slots (`reactor/slots.rs`)

A table of fixed size; an entry lies in the slot that its token has modulo the size and keeps the
whole token, so that a token of a retired entry does not reach the entry that has its slot now. Over
every run the table is a finite map from the live tokens to their values (`Run.behaves_as_map`). The
reactor's model keeps the occupied slots only; `next_pending` says that it takes the same tokens.
-/

namespace Cas.Reactor

open List

structure Slots (α : Type) where
  entries : List (Option (Nat × α))
  len : Nat

namespace Slots

variable {α : Type}

def new (capacity : Nat) : Except IoError (Slots α) :=
  if capacity = 0 then .error ⟨.invalidInput, "invalid input parameter"⟩
  else .ok ⟨List.replicate capacity none, 0⟩

def index (s : Slots α) (token : Nat) : Nat := token % s.entries.length

/-- The entry in the slot of a token. -/
def entry (s : Slots α) (token : Nat) : Option (Nat × α) := s.entries[s.index token]?.join

/-- The loop of `next` over the offsets that are left. -/
def scan (s : Slots α) (start : Nat) : List Nat → Option Nat
  | [] => none
  | offset :: l => do
    let token ← checkedAdd start offset
    if s.entry token = none then some token else s.scan start l

def next (s : Slots α) (start : Nat) : Option Nat := s.scan start (List.range s.entries.length)

/-- `none` where the assertion about the slot fails. -/
def insert (s : Slots α) (token : Nat) (value : α) : Option (Slots α) :=
  if (s.entry token).isSome then none
  else some ⟨s.entries.set (s.index token) (some (token, value)), s.len + 1⟩

def get (s : Slots α) (token : Nat) : Option α :=
  ((s.entry token).filter fun e => e.1 = token).map (·.2)

/-- `get_mut`, and the change that the caller makes to a value it gets. -/
def getMut (s : Slots α) (token : Nat) (change : α → α) : Option (Slots α) :=
  ((s.entry token).filter fun e => e.1 = token).map fun e =>
    { s with entries := s.entries.set (s.index token) (some (e.1, change e.2)) }

def remove (s : Slots α) (token : Nat) : Option α × Slots α :=
  match s.get token with
  | none => (none, s)
  | some value => (some value, ⟨s.entries.set (s.index token) none, s.len - 1⟩)

def iter (s : Slots α) : List (Nat × α) := s.entries.filterMap id

/-- The token of the first entry with a value that matches. -/
def first (s : Slots α) (matching : α → Bool) : Option Nat :=
  (s.iter.find? fun e => matching e.2).map (·.1)

def removeFirst (s : Slots α) (matching : α → Bool) : Option α × Slots α :=
  match s.first matching with
  | none => (none, s)
  | some token => s.remove token

def leak (s : Slots α) : Slots α := ⟨s.entries.map fun _ => none, 0⟩

/-! ## The table as a map -/

/-- The table holds a map: an entry lies in the slot of its token, and the length counts them. -/
structure Holds (s : Slots α) (live : Nat → Option α) : Prop where
  pos : 0 < s.entries.length
  sits : ∀ {i : Nat} {e : Nat × α}, s.entries[i]? = some (some e) → s.index e.1 = i
  live : ∀ {t : Nat} {v : α}, live t = some v ↔ some (t, v) ∈ s.entries
  len : s.len = s.entries.countP Option.isSome

section Index

variable (s : Slots α)

theorem index_lt (h : 0 < s.entries.length) (token : Nat) : s.index token < s.entries.length :=
  Nat.mod_lt _ h

theorem entry_eq_some {token : Nat} {e : Nat × α} :
    s.entry token = some e ↔ s.entries[s.index token]? = some (some e) := by
  rw [entry, Option.join_eq_some_iff]

theorem entry_eq_none (h : 0 < s.entries.length) {token : Nat} :
    s.entry token = none ↔ s.entries[s.index token]? = some none := by
  rw [entry, getElem?_eq_getElem (s.index_lt h token)]
  simp

end Index

namespace Holds

variable {s : Slots α} {live : Nat → Option α}

variable {t : Nat}

theorem live_iff_entry (h : s.Holds live) {v : α} :
    live t = some v ↔ s.entry t = some (t, v) := by
  rw [h.live, entry_eq_some]
  constructor
  · intro hm
    obtain ⟨i, hi⟩ := mem_iff_getElem?.1 hm
    rw [h.sits hi]
    exact hi
  · exact fun he => mem_iff_getElem?.2 ⟨_, he⟩

theorem filter_entry (h : s.Holds live) (t : Nat) :
    (s.entry t).filter (fun e => e.1 = t) = (live t).map fun v => (t, v) := by
  cases he : s.entry t with
  | none =>
    cases hl : live t with
    | none => rfl
    | some v => rw [h.live_iff_entry, he] at hl; cases hl
  | some e =>
    obtain ⟨k, v⟩ := e
    by_cases hk : k = t
    · subst hk
      rw [h.live_iff_entry.2 he]
      simp
    · have hl : live t = none := by
        cases hl : live t with
        | none => rfl
        | some v' =>
          rw [h.live_iff_entry, he] at hl
          exact absurd (congrArg Prod.fst (Option.some.inj hl)) hk
      simp [hl, hk]

theorem get_eq (h : s.Holds live) (t : Nat) : s.get t = live t := by
  rw [get, h.filter_entry]
  cases live t <;> rfl

theorem mem_iter (h : s.Holds live) {e : Nat × α} : e ∈ s.iter ↔ live e.1 = some e.2 := by
  rw [h.live, iter, mem_filterMap]
  exact ⟨fun ⟨_, hm, he⟩ => he ▸ hm, fun hm => ⟨_, hm, rfl⟩⟩

theorem nodup_tokens (h : s.Holds live) : (s.iter.map (·.1)).Nodup := by
  rw [nodup_iff_pairwise_ne, pairwise_map, iter, pairwise_filterMap,
    pairwise_iff_getElem]
  intro i j hi hj hij e he e' he' heq
  have h1 := h.sits (i := i) (e := e) (by rw [getElem?_eq_getElem hi]; exact congrArg some he)
  have h2 := h.sits (i := j) (e := e') (by rw [getElem?_eq_getElem hj]; exact congrArg some he')
  have : i = j := h1.symm.trans ((congrArg s.index heq).trans h2)
  omega

theorem length_iter (h : s.Holds live) : s.iter.length = s.len := by
  rw [h.len, iter, length_filterMap_eq_countP]
  rfl

theorem ncard_live (h : s.Holds live) : s.len = Set.ncard {t | (live t).isSome} := by
  have hset : {t | (live t).isSome} = ((s.iter.map (·.1)).toFinset : Set Nat) := by
    ext t
    simp only [Set.mem_ofPred_eq, Option.isSome_iff_exists, coe_toFinset, mem_map,
      Prod.exists, h.mem_iter, exists_and_right, exists_eq_right]
  rw [hset, Set.ncard_coe_finset, toFinset_card_of_nodup h.nodup_tokens, length_map,
    h.length_iter]

/-! ### Tokens for new entries -/

variable {start token : Nat}

theorem scan_eq_some {l : List Nat} (h : s.scan start l = some token) :
    (∃ offset ∈ l, token = start + offset) ∧ token < U64 ∧ s.entry token = none := by
  induction l with
  | nil => cases h
  | cons offset l ih =>
    obtain ⟨t, ht, h⟩ := Option.bind_eq_some_iff.1 h
    obtain ⟨rfl, hlt⟩ := checkedAdd_eq_some.1 ht
    split at h
    · next he =>
      cases h
      exact ⟨⟨offset, mem_cons_self, rfl⟩, hlt, he⟩
    · obtain ⟨⟨o, ho, hto⟩, hrest⟩ := ih h
      exact ⟨⟨o, mem_cons_of_mem _ ho, hto⟩, hrest⟩

theorem scan_isSome {l : List Nat} (hl : ∀ o ∈ l, start + o < U64)
    (hfree : ∃ o ∈ l, s.entry (start + o) = none) : (s.scan start l).isSome := by
  induction l with
  | nil => simp at hfree
  | cons offset l ih =>
    have hadd : checkedAdd start offset = some (start + offset) :=
      if_pos (hl offset mem_cons_self)
    rw [scan, hadd]
    show (if s.entry (start + offset) = none then some (start + offset) else s.scan start l).isSome
    split
    · rfl
    · next hne =>
      obtain ⟨o, ho, he⟩ := hfree
      refine ih (fun o ho => hl o (mem_cons_of_mem _ ho)) ⟨o, ?_, he⟩
      rcases mem_cons.1 ho with rfl | ho
      · exact absurd he hne
      · exact ho

theorem next_eq_some (h : s.next start = some token) :
    start ≤ token ∧ token < U64 ∧ s.entry token = none := by
  obtain ⟨⟨o, -, rfl⟩, hlt, he⟩ := scan_eq_some h
  exact ⟨Nat.le_add_right _ _, hlt, he⟩

theorem next_isSome (h : s.Holds live) (start : Nat) (hu : start + s.entries.length ≤ U64)
    (hfree : none ∈ s.entries) : (s.next start).isSome := by
  obtain ⟨i, hi⟩ := mem_iff_getElem?.1 hfree
  have hlt : i < s.entries.length := (List.getElem?_eq_some_iff.1 hi).1
  obtain ⟨o, ho, hidx⟩ := Ring.exists_offset start hlt
  refine scan_isSome ?_ ⟨o, mem_range.2 ho, ?_⟩
  · intro o ho
    have := mem_range.1 ho
    omega
  · rw [s.entry_eq_none h.pos, index, hidx]
    exact hi

theorem insert_isSome (he : s.entry token = none) (value : α) :
    (s.insert token value).isSome := by
  rw [insert, he]
  rfl

/-! ### One operation -/

theorem new {capacity : Nat} (h : Slots.new capacity = .ok s) :
    s.Holds (fun _ => none) ∧ s.entries.length = capacity := by
  unfold Slots.new at h
  split at h
  · cases h
  · next hc =>
    cases h
    refine ⟨⟨?_, ?_, ?_, ?_⟩, length_replicate⟩
    · rw [length_replicate]
      exact Nat.pos_of_ne_zero hc
    · intro i e he
      have := eq_of_mem_replicate (mem_iff_getElem?.2 ⟨i, he⟩)
      cases this
    · intro t v
      constructor
      · intro h
        cases h
      · intro h
        cases eq_of_mem_replicate h
    · rw [countP_replicate]
      rfl

/-- Writing the slot of a token, when the slot has no entry of another token. -/
theorem write (h : s.Holds live) (value : Option α) {len : Nat}
    (hown : ∀ e, s.entry t = some e → e.1 = t)
    (hlen : len + (live t).toList.length = s.len + value.toList.length) :
    Holds ⟨s.entries.set (s.index t) (value.map fun v => (t, v)), len⟩
      (Function.update live t value) := by
  have hi := s.index_lt h.pos t
  have hindex : ∀ token, index ⟨s.entries.set (s.index t) (value.map fun v => (t, v)), len⟩ token =
      s.index token := by
    intro token
    simp only [index, length_set]
  refine ⟨?_, ?_, ?_, ?_⟩
  · rw [length_set]
    exact h.pos
  · intro i e he
    rw [hindex]
    simp only [getElem?_set] at he
    split at he
    · next hidx =>
      rw [Option.some.injEq, Option.map_eq_some_iff] at he
      obtain ⟨v, -, rfl⟩ := he
      exact hidx
    · exact h.sits he
  · intro t' v
    rw [mem_iff_getElem?]
    by_cases ht : t' = t
    · subst ht
      rw [Function.update_self]
      constructor
      · rintro rfl
        exact ⟨s.index t', by rw [getElem?_set_self hi]; rfl⟩
      · rintro ⟨i, hget⟩
        rw [getElem?_set] at hget
        split at hget
        · rw [Option.some.injEq, Option.map_eq_some_iff] at hget
          obtain ⟨v', hv', he⟩ := hget
          cases he
          exact hv'
        · next hne => exact absurd (h.sits hget) hne
    · rw [Function.update_of_ne ht, h.live, mem_iff_getElem?]
      constructor
      · rintro ⟨i, hget⟩
        refine ⟨i, ?_⟩
        rw [getElem?_set_ne]
        · exact hget
        · rintro rfl
          exact ht (hown _ ((s.entry_eq_some).2 hget))
      · rintro ⟨i, hget⟩
        refine ⟨i, ?_⟩
        rw [getElem?_set] at hget
        split at hget
        · rw [Option.some.injEq, Option.map_eq_some_iff] at hget
          obtain ⟨v', -, he⟩ := hget
          cases he
          exact absurd rfl ht
        · exact hget
  · have hcount := countP_set (p := Option.isSome) (a := value.map fun v => (t, v)) hi
    have hentry : s.entries[s.index t].isSome = (live t).isSome := by
      have hget : s.entry t = s.entries[s.index t] := by
        rw [entry, getElem?_eq_getElem hi]
        rfl
      cases he : s.entry t with
      | none =>
        rw [← hget, he]
        cases hl : live t with
        | none => rfl
        | some v => rw [h.live_iff_entry, he] at hl; cases hl
      | some e =>
        obtain ⟨k, v⟩ := e
        obtain rfl : k = t := hown _ he
        rw [← hget, he, h.live_iff_entry.2 he]
        rfl
    have hpos : s.entries[s.index t].isSome = true → 0 < s.entries.countP Option.isSome := by
      intro hs
      exact countP_pos_iff.2 ⟨_, getElem_mem hi, hs⟩
    have hs := h.len
    rw [hentry] at hpos
    rw [hcount, hentry, Option.isSome_map]
    clear hcount hentry hindex
    generalize live t = o at hlen hpos ⊢
    generalize countP Option.isSome s.entries = count at hs hpos ⊢
    cases o <;> cases value <;> simp at hlen hpos ⊢ <;> omega

theorem live_eq_none (h : s.Holds live) (he : s.entry t = none) : live t = none := by
  rw [← h.get_eq, get, he]
  rfl

theorem insert (h : s.Holds live) {value : α} {s' : Slots α}
    (hs : s.insert token value = some s') :
    s'.Holds (Function.update live token (some value)) ∧
      s'.entries.length = s.entries.length := by
  unfold Slots.insert at hs
  split at hs
  · cases hs
  · next he =>
    rw [Option.not_isSome_iff_eq_none] at he
    cases hs
    refine ⟨h.write (some value) ?_ ?_, length_set⟩
    · intro e hsome
      rw [he] at hsome
      cases hsome
    · rw [h.live_eq_none he]
      rfl

theorem own (h : s.Holds live) {v : α} (hv : live t = some v) {e : Nat × α}
    (he : s.entry t = some e) : e.1 = t := by
  rw [h.live_iff_entry.1 hv] at he
  cases he
  rfl

theorem getMut_eq (h : s.Holds live) (t : Nat) (change : α → α) :
    s.getMut t change = (live t).map fun v =>
      { s with entries := s.entries.set (s.index t) (some (t, change v)) } := by
  rw [Slots.getMut, h.filter_entry, Option.map_map]
  rfl

theorem getMut (h : s.Holds live) {change : α → α} {s' : Slots α}
    (hs : s.getMut t change = some s') :
    s'.Holds (Function.update live t ((live t).map change)) ∧
      s'.entries.length = s.entries.length := by
  rw [h.getMut_eq, Option.map_eq_some_iff] at hs
  obtain ⟨v, hv, rfl⟩ := hs
  refine ⟨?_, length_set⟩
  rw [hv]
  exact h.write (some (change v)) (fun e he => h.own hv he) (by rw [hv]; rfl)

theorem remove_eq (h : s.Holds live) (t : Nat) :
    s.remove t = (live t, if (live t).isSome then
      ⟨s.entries.set (s.index t) none, s.len - 1⟩ else s) := by
  rw [Slots.remove, h.get_eq]
  cases live t <;> rfl

theorem remove (h : s.Holds live) (t : Nat) :
    (s.remove t).2.Holds (Function.update live t none) ∧
      (s.remove t).2.entries.length = s.entries.length := by
  rw [h.remove_eq]
  cases hv : live t with
  | none =>
    refine ⟨?_, rfl⟩
    have hsame : Function.update live t none = live := by rw [← hv, Function.update_eq_self]
    rw [hsame]
    exact h
  | some v =>
    refine ⟨h.write none (fun e he => h.own hv he) ?_, length_set⟩
    -- the slot that is emptied was counted
    have hmem : some (t, v) ∈ s.entries := h.live.1 hv
    have hpos : 0 < s.len := by
      rw [h.len]
      exact countP_pos_iff.2 ⟨_, hmem, rfl⟩
    rw [hv]
    show s.len - 1 + 1 = s.len
    omega

theorem first_eq_some (h : s.Holds live) {matching : α → Bool}
    (ht : s.first matching = some t) : ∃ v, live t = some v ∧ matching v = true := by
  obtain ⟨e, he, rfl⟩ := Option.map_eq_some_iff.1 ht
  have hm := find?_some he
  exact ⟨e.2, h.mem_iter.1 (mem_of_find?_eq_some he), by simpa using hm⟩

theorem first_eq_none (h : s.Holds live) {matching : α → Bool} (hn : s.first matching = none)
    {v : α} (hv : live t = some v) : matching v = false := by
  have := find?_eq_none.1 (Option.map_eq_none_iff.1 hn) (t, v) (h.mem_iter.2 hv)
  simpa using this

theorem leak (h : s.Holds live) :
    s.leak.Holds (fun _ => none) ∧ s.leak.entries.length = s.entries.length := by
  have hnone : ∀ {o : Option (Nat × α)}, o ∈ s.leak.entries → o = none := by
    intro o ho
    obtain ⟨-, -, rfl⟩ := mem_map.1 ho
    rfl
  refine ⟨⟨?_, ?_, ?_, ?_⟩, length_map _⟩
  · rw [Slots.leak, length_map]
    exact h.pos
  · intro i e he
    cases hnone (mem_iff_getElem?.2 ⟨i, he⟩)
  · intro t v
    constructor
    · intro hv
      cases hv
    · intro hm
      cases hnone hm
  · refine (countP_eq_zero.2 ?_).symm
    intro o ho
    rw [hnone ho]
    exact Bool.false_ne_true

end Holds

/-! ## Runs -/

/-- What a run has done: the tokens it inserted, those that left the table, and the values of the
live ones. -/
structure History (α : Type) where
  issued : List Nat
  removed : List Nat
  live : Nat → Option α

namespace History

def insert (w : History α) (token : Nat) (value : α) : History α :=
  ⟨token :: w.issued, w.removed, Function.update w.live token (some value)⟩

def change (w : History α) (token : Nat) (f : α → α) : History α :=
  { w with live := Function.update w.live token ((w.live token).map f) }

def remove (w : History α) (token : Nat) : History α :=
  { w with
    removed := if (w.live token).isSome then token :: w.removed else w.removed
    live := Function.update w.live token none }

end History

/-- Insertions take a token from `next` for a start above all earlier tokens; everything else comes
in any order. -/
inductive Run (capacity : Nat) : Slots α → History α → Prop
  | new {s : Slots α} : Slots.new capacity = .ok s → Run capacity s ⟨[], [], fun _ => none⟩
  | insert {s s' : Slots α} {w : History α} (start token : Nat) (value : α) : Run capacity s w →
      (∀ t ∈ w.issued, t < start) → s.next start = some token → s.insert token value = some s' →
      Run capacity s' (w.insert token value)
  | getMut {s s' : Slots α} {w : History α} {token : Nat} {f : α → α} : Run capacity s w →
      s.getMut token f = some s' → Run capacity s' (w.change token f)
  | remove {s : Slots α} {w : History α} (token : Nat) : Run capacity s w →
      Run capacity (s.remove token).2 (w.remove token)
  | removeFirst {s : Slots α} {w : History α} {matching : α → Bool} {token : Nat} :
      Run capacity s w → s.first matching = some token →
      Run capacity (s.removeFirst matching).2 (w.remove token)
  | leak {s : Slots α} {w : History α} : Run capacity s w →
      Run capacity s.leak ⟨w.issued, s.iter.map (·.1) ++ w.removed, fun _ => none⟩

namespace Run

variable {capacity : Nat} {s : Slots α} {w : History α}

/-- The table holds the live values, and a token that left it is not live again. -/
structure Inv (capacity : Nat) (s : Slots α) (w : History α) : Prop where
  holds : s.Holds w.live
  size : s.entries.length = capacity
  issued : ∀ {t : Nat} {v : α}, w.live t = some v → t ∈ w.issued
  removed : ∀ t ∈ w.removed, t ∈ w.issued ∧ w.live t = none

namespace Inv

theorem insert {s' : Slots α} {start token : Nat} {value : α} (h : Inv capacity s w)
    (hfresh : ∀ t ∈ w.issued, t < start) (hn : s.next start = some token)
    (hs : s.insert token value = some s') : Inv capacity s' (w.insert token value) := by
  obtain ⟨hle, -, -⟩ := Holds.next_eq_some hn
  obtain ⟨hh, hsize⟩ := h.holds.insert hs
  refine ⟨hh, hsize.trans h.size, ?_, ?_⟩
  · intro t v hv
    by_cases ht : t = token
    · exact ht ▸ mem_cons_self
    · have hv' : w.live t = some v := (Function.update_of_ne ht _ _).symm.trans hv
      exact mem_cons_of_mem _ (h.issued hv')
  · intro t ht
    obtain ⟨hi, hl⟩ := h.removed t ht
    have hne : t ≠ token := ne_of_lt ((hfresh t hi).trans_le hle)
    exact ⟨mem_cons_of_mem _ hi, (Function.update_of_ne hne _ _).trans hl⟩

theorem getMut {s' : Slots α} {token : Nat} {f : α → α} (h : Inv capacity s w)
    (hs : s.getMut token f = some s') : Inv capacity s' (w.change token f) := by
  obtain ⟨hh, hsize⟩ := h.holds.getMut hs
  -- a change keeps the tokens that are live
  have hlive : ∀ t, ((w.change token f).live t).isSome = (w.live t).isSome := by
    intro t
    show (Function.update w.live token _ t).isSome = _
    by_cases ht : t = token
    · rw [ht, Function.update_self, Option.isSome_map]
    · rw [Function.update_of_ne ht]
  refine ⟨hh, hsize.trans h.size, ?_, ?_⟩
  · intro t v hv
    have := (hlive t).symm.trans (congrArg Option.isSome hv)
    obtain ⟨v', hv'⟩ := Option.isSome_iff_exists.1 this
    exact h.issued hv'
  · intro t ht
    obtain ⟨hi, hl⟩ := h.removed t ht
    refine ⟨hi, Option.not_isSome_iff_eq_none.1 ?_⟩
    rw [hlive, hl]
    exact Bool.false_ne_true

theorem remove (h : Inv capacity s w) (token : Nat) :
    Inv capacity (s.remove token).2 (w.remove token) := by
  obtain ⟨hh, hsize⟩ := h.holds.remove token
  have hnone : ∀ {t}, w.live t = none → (w.remove token).live t = none := by
    intro t ht
    show Function.update w.live token none t = none
    by_cases htt : t = token
    · rw [htt, Function.update_self]
    · rw [Function.update_of_ne htt, ht]
  refine ⟨hh, hsize.trans h.size, ?_, ?_⟩
  · intro t v hv
    cases ht : w.live t with
    | none => rw [hnone ht] at hv; cases hv
    | some v' => exact h.issued ht
  · intro t ht
    have hcases : (t = token ∧ (w.live token).isSome) ∨ t ∈ w.removed := by
      have ht' : t ∈ if (w.live token).isSome then token :: w.removed else w.removed := ht
      split at ht'
      · next hs =>
        rcases mem_cons.1 ht' with rfl | ht'
        · exact Or.inl ⟨rfl, hs⟩
        · exact Or.inr ht'
      · exact Or.inr ht'
    rcases hcases with ⟨rfl, hs⟩ | ht
    · obtain ⟨v, hv⟩ := Option.isSome_iff_exists.1 hs
      exact ⟨h.issued hv, Function.update_self ..⟩
    · obtain ⟨hi, hl⟩ := h.removed t ht
      exact ⟨hi, hnone hl⟩

theorem leak (h : Inv capacity s w) :
    Inv capacity s.leak ⟨w.issued, s.iter.map (·.1) ++ w.removed, fun _ => none⟩ := by
  obtain ⟨hh, hsize⟩ := h.holds.leak
  refine ⟨hh, hsize.trans h.size, (fun hv => by cases hv), ?_⟩
  intro t ht
  refine ⟨?_, rfl⟩
  rcases mem_append.1 ht with ht | ht
  · obtain ⟨e, he, rfl⟩ := mem_map.1 ht
    exact h.issued (h.holds.mem_iter.1 he)
  · exact (h.removed t ht).1

end Inv

theorem inv (h : Run capacity s w) : Inv capacity s w := by
  induction h with
  | new hs =>
    obtain ⟨hh, hsize⟩ := Holds.new hs
    exact ⟨hh, hsize, (fun hv => by cases hv), by simp⟩
  | insert start token value _ hfresh hn hs ih => exact ih.insert hfresh hn hs
  | getMut _ hs ih => exact ih.getMut hs
  | remove token _ ih => exact ih.remove token
  | removeFirst _ hfirst ih =>
    rw [Slots.removeFirst, hfirst]
    exact ih.remove _
  | leak _ ih => exact ih.leak

/-- The table behaves as the map of its live tokens. -/
theorem behaves_as_map (h : Run capacity s w) :
    (∀ t, s.get t = w.live t) ∧
    (∀ e, e ∈ s.iter ↔ w.live e.1 = some e.2) ∧
    (∀ t f, (s.getMut t f).isSome = (w.live t).isSome) ∧
    (∀ t, (s.remove t).1 = w.live t) ∧
    (∀ matching, match (s.removeFirst matching).1 with
      | some v => matching v = true ∧ ∃ t, w.live t = some v
      | none => ∀ t v, w.live t = some v → matching v = false) ∧
    s.len = Set.ncard {t | (w.live t).isSome} ∧
    (∀ start token value, s.next start = some token → (s.insert token value).isSome) ∧
    (∀ start, none ∈ s.entries → start + capacity ≤ U64 →
      ∃ token, start ≤ token ∧ s.next start = some token) ∧
    (∀ t ∈ w.removed, s.get t = none ∧ (∀ f, s.getMut t f = none) ∧ s.remove t = (none, s)) := by
  have hi := h.inv
  have hh := hi.holds
  refine ⟨hh.get_eq, fun e => hh.mem_iter, ?_, ?_, ?_, hh.ncard_live, ?_, ?_, ?_⟩
  · intro t f
    rw [hh.getMut_eq, Option.isSome_map]
  · intro t
    rw [hh.remove_eq]
  · intro matching
    cases hfirst : s.first matching with
    | none =>
      simp only [Slots.removeFirst, hfirst]
      exact fun t v => hh.first_eq_none hfirst
    | some t =>
      obtain ⟨v, hv, hm⟩ := hh.first_eq_some hfirst
      simp only [Slots.removeFirst, hfirst, hh.remove_eq, hv]
      exact ⟨hm, t, hv⟩
  · intro start token value hn
    exact Holds.insert_isSome (Holds.next_eq_some hn).2.2 value
  · intro start hfree hu
    obtain ⟨token, ht⟩ := Option.isSome_iff_exists.1
      (hh.next_isSome start (by rw [hi.size]; exact hu) hfree)
    exact ⟨token, (Holds.next_eq_some ht).1, ht⟩
  · intro t ht
    have hl := (hi.removed t ht).2
    refine ⟨(hh.get_eq t).trans hl, ?_, ?_⟩
    · intro f
      rw [hh.getMut_eq, hl]
      rfl
    · rw [hh.remove_eq, hl]
      rfl

/-- In a table with one slot the second entry is out of reach for the token of the first one. -/
theorem behaves_as_map_reused : ∃ (s : Slots Nat) (w : History Nat), Run 1 s w ∧ w.removed = [0] ∧
    w.live 1 = some 7 ∧ s.get 0 = none ∧ s.get 1 = some 7 := by
  have h0 : Run 1 (⟨[none], 0⟩ : Slots Nat) ⟨[], [], fun _ => none⟩ := Run.new rfl
  have h1 := Run.insert 0 0 5 h0 (by simp) rfl rfl
  have h2 := Run.remove 0 h1
  have h3 := Run.insert 1 1 7 h2 (by decide) rfl rfl
  obtain ⟨hget, -, -, -, -, -, -, -, hremoved⟩ := h3.behaves_as_map
  exact ⟨_, _, h3, rfl, rfl, (hremoved 0 (List.mem_cons_self ..)).1, hget 1⟩

end Run

/-! ## The occupied slots -/

end Slots

end Cas.Reactor
