import Cas.Catalog.Table

/-!
# The catalog table is a finite map

`Membership` is what a catalog is for: a map from IDs to kinds with a generation. Each contents
represents one, and a change of the contents is a change of the map: refused with the error the map
gives (`Represents.changed_refused`), or giving the contents of the changed map
(`Represents.changed_allowed`).
-/

namespace Cas.Catalog

open Bytes Manifest List

/-! ## The map -/

/-- The entries by their IDs, and the number of changes so far. -/
structure Membership where
  generation : Nat
  kind : Id → Option Kind

namespace Membership

def change (m : Membership) : Change → Except ErrorKind Membership
  | .insert e =>
    if (m.kind e.id).isSome then .error .alreadyExists
    else .ok ⟨m.generation + 1, Function.update m.kind e.id (some e.kind)⟩
  | .remove id =>
    if (m.kind id).isSome then .ok ⟨m.generation + 1, Function.update m.kind id none⟩
    else .error .notFound

theorem generation_of_change {m m' : Membership} {change : Change} (h : m.change change = .ok m') :
    m'.generation = m.generation + 1 := by
  cases change with
  | insert e =>
    simp only [Membership.change] at h
    split at h
    · cases h
    · obtain rfl := Except.ok.inj h
      rfl
  | remove id =>
    simp only [Membership.change] at h
    split at h
    · obtain rfl := Except.ok.inj h
      rfl
    · cases h

end Membership

/-- The fields of an inserted entry are what their types in the source can hold. -/
def Change.Fits : Change → Prop
  | .insert e => e.kind.Fits
  | .remove _ => True

/-- An inserted entry is valid. -/
def Change.Valid (store : Id) : Change → Prop
  | .insert e => e.kind.Fits ∧ e.validate store = .ok ()
  | .remove _ => True

/-- The number of entries after the change. -/
def Change.count (n : Nat) : Change → Nat
  | .insert _ => n + 1
  | .remove _ => n - 1

section Represents

variable [Digest]

/-- A table of the entries of a map. -/
structure Contents.Represents (c : Contents) (store : Id) (m : Membership) : Prop where
  holds : c.Holds store m.generation c.entries
  mem : ∀ e, e ∈ c.entries ↔ m.kind e.id = some e.kind

namespace Contents.Represents

variable {c : Contents} {store : Id} {m : Membership}

theorem of_holds {es : List Entry} (h : c.Holds store m.generation es)
    (hmem : ∀ e, e ∈ es ↔ m.kind e.id = some e.kind) : c.Represents store m := by
  have he := h.entries_eq
  exact ⟨he.symm ▸ h, he.symm ▸ hmem⟩

variable (h : c.Represents store m)

include h

theorem isSome_iff (id : Id) : (m.kind id).isSome ↔ id ∈ c.entries.map Entry.id := by
  rw [mem_map, Option.isSome_iff_exists]
  constructor
  · rintro ⟨kind, hk⟩
    exact ⟨⟨id, kind⟩, (h.mem _).2 hk, rfl⟩
  · rintro ⟨e, he, rfl⟩
    exact ⟨e.kind, (h.mem e).1 he⟩

theorem position_ok {id : Id} {i : Nat} (hp : c.position id = .ok i) :
    ∃ pre e post, c.entries = pre ++ [e] ++ post ∧ pre.length = i ∧ e.id = id := by
  have hspec := binarySearch_spec h.holds.sorted id
  rw [← h.holds.position_eq, hp] at hspec
  dsimp only at hspec
  rw [List.getElem?_map] at hspec
  obtain ⟨e, he, rfl⟩ := Option.map_eq_some_iff.1 hspec
  obtain ⟨hi, rfl⟩ := List.getElem?_eq_some_iff.1 he
  refine ⟨c.entries.take i, c.entries[i], c.entries.drop (i + 1), ?_, ?_, rfl⟩
  · rw [List.append_assoc, List.singleton_append, ← List.drop_eq_getElem_cons hi, List.take_append_drop]
  · rw [List.length_take, Nat.min_eq_left hi.le]

theorem position_error {id : Id} {i : Nat} (hp : c.position id = .error i) :
    ∃ pre post, c.entries = pre ++ [] ++ post ∧ pre.length = i ∧ (∀ e ∈ pre, e.id < id) ∧
      ∀ e ∈ post, id < e.id := by
  have hspec := binarySearch_spec h.holds.sorted id
  rw [← h.holds.position_eq, hp] at hspec
  obtain ⟨hi, hlow, hhigh⟩ := hspec
  rw [length_map] at hi
  rw [← map_take] at hlow
  rw [← map_drop] at hhigh
  refine ⟨c.entries.take i, c.entries.drop i, ?_, ?_, ?_, ?_⟩
  · rw [append_nil, take_append_drop]
  · rw [length_take, Nat.min_eq_left hi]
  · exact fun e he => hlow _ (mem_map_of_mem he)
  · exact fun e he => hhigh _ (mem_map_of_mem he)

theorem position_isOk (id : Id) : (∃ i, c.position id = .ok i) ↔ (m.kind id).isSome := by
  rw [h.isSome_iff]
  constructor
  · rintro ⟨i, hi⟩
    obtain ⟨pre, e, post, he, -, rfl⟩ := h.position_ok hi
    rw [he]
    exact mem_map_of_mem (by simp)
  · intro hid
    cases hp : c.position id with
    | ok i => exact ⟨i, rfl⟩
    | error i =>
      obtain ⟨pre, post, he, -, hlow, hhigh⟩ := h.position_error hp
      obtain ⟨e, hmem, rfl⟩ := mem_map.1 hid
      rw [he, append_nil, mem_append] at hmem
      exact absurd rfl (hmem.elim (fun hm => (hlow e hm).ne) fun hm => (hhigh e hm).ne')

/-- A change that the map refuses is refused with the kind the map gives. -/
theorem changed_refused {change : Change} (hv : change.Valid store) {kind : ErrorKind}
    (hm : m.change change = .error kind) (memory : Nat → Bool) :
    ∃ message, c.changed memory change = .error ⟨kind, message⟩ := by
  have hfail : ∀ e, c.locate change = .error e → c.changed memory change = .error e := by
    intro e he
    rw [Contents.changed, he]
    rfl
  cases change with
  | insert e =>
    simp only [Membership.change] at hm
    split at hm
    · next hsome =>
      obtain rfl := Except.error.inj hm
      obtain ⟨i, hi⟩ := (h.position_isOk e.id).2 hsome
      refine ⟨"catalog ID already exists", hfail _ ?_⟩
      rw [Contents.locate, h.holds.store_eq, hv.2, hi]
      rfl
    · cases hm
  | remove id =>
    simp only [Membership.change] at hm
    split at hm
    · cases hm
    · next hnone =>
      obtain rfl := Except.error.inj hm
      cases hp : c.position id with
      | ok i => exact absurd ((h.position_isOk id).1 ⟨i, hp⟩) hnone
      | error i =>
        refine ⟨"catalog ID does not exist", hfail _ ?_⟩
        rw [Contents.locate, hp]

theorem mem_insert {e : Entry} {pre post : List Entry} (he : c.entries = pre ++ [] ++ post)
    (hnone : ¬ (m.kind e.id).isSome) (x : Entry) :
    x ∈ pre ++ [e] ++ post ↔ Function.update m.kind e.id (some e.kind) x.id = some x.kind := by
  have hx := h.mem x
  rw [he, append_nil] at hx
  by_cases hid : x.id = e.id
  · rw [hid, Function.update_self, Option.some.injEq]
    have hnot : x ∉ pre ++ post := fun hmem =>
      hnone (Option.isSome_iff_exists.2 ⟨x.kind, hid ▸ hx.1 hmem⟩)
    simp only [mem_append, mem_singleton] at hnot ⊢
    constructor
    · rintro ((hp | rfl) | hp)
      · exact absurd (Or.inl hp) hnot
      · rfl
      · exact absurd (Or.inr hp) hnot
    · intro hk
      exact Or.inl (Or.inr (by cases x; cases e; simp_all))
  · rw [Function.update_of_ne hid, ← hx]
    simp only [mem_append, mem_singleton]
    have hne : x ≠ e := fun hc => hid (hc ▸ rfl)
    simp only [hne, or_false]

theorem mem_remove {e : Entry} {pre post : List Entry} (he : c.entries = pre ++ [e] ++ post)
    (x : Entry) :
    x ∈ pre ++ [] ++ post ↔ Function.update m.kind e.id none x.id = some x.kind := by
  have hx := h.mem x
  rw [he] at hx
  have hsorted := h.holds.sorted
  rw [he, append_assoc, map_append, pairwise_append] at hsorted
  obtain ⟨-, hpost, hcross⟩ := hsorted
  rw [singleton_append, map_cons, pairwise_cons] at hpost
  by_cases hid : x.id = e.id
  · rw [hid, Function.update_self]
    simp only [append_nil, mem_append, reduceCtorEq, iff_false, not_or]
    constructor
    · intro hp
      have hlt := hcross _ (mem_map_of_mem hp) e.id (by simp)
      exact hlt.ne hid
    · intro hp
      have hlt := hpost.1 _ (mem_map_of_mem hp)
      exact hlt.ne' hid
  · rw [Function.update_of_ne hid, ← hx]
    have hne : x ≠ e := fun hc => hid (hc ▸ rfl)
    simp only [append_nil, mem_append, mem_singleton, hne, or_false]

theorem changed_insert {e : Entry} (hf : e.kind.Fits) (hv : e.validate store = .ok ())
    (hnone : ¬ (m.kind e.id).isSome) (memory : Nat → Bool) :
    (∃ c', c.changed memory (.insert e) = .ok c' ∧
        c'.Represents store ⟨m.generation + 1, Function.update m.kind e.id (some e.kind)⟩) ∨
      ∃ x, c.changed memory (.insert e) = .error x ∧
        Contents.Exhausted memory m.generation (c.entries.length + 1) x := by
  have hholds := h.holds
  cases hp : c.position e.id with
  | ok i => exact absurd ((h.position_isOk e.id).1 ⟨i, hp⟩) hnone
  | error i =>
    have hl : c.locate (.insert e) = .ok ⟨i, 0, some e⟩ := by
      rw [Contents.locate, hholds.store_eq, hv, hp]
      rfl
    obtain ⟨pre, post, he, hi, hlow, hhigh⟩ := h.position_error hp
    have hcount : (pre ++ [e] ++ post).length = c.entries.length + 1 := by
      rw [he]
      simp only [length_append, length_singleton, length_nil]
      omega
    have hmem := h.mem_insert he hnone
    rw [he] at hholds
    have hold : ∀ x, x ∈ pre ++ [e] ++ post → x ∈ pre ++ [] ++ post ∨ x = e := by
      intro x
      simp only [mem_append, mem_singleton, append_nil]
      tauto
    have hsorted : ((pre ++ [e] ++ post).map Entry.id).Pairwise (· < ·) := by
      rw [append_assoc, singleton_append, map_append, map_cons]
      exact pairwise_lt_insert (by simpa using hholds.sorted) (by simpa using hlow)
        (by simpa using hhigh)
    rcases hholds.changed_eq hl hi.symm rfl
      (fun x hx => (hold x hx).elim (hholds.fits x) (fun hc => hc ▸ hf))
      (fun x hx => (hold x hx).elim (hholds.valid x) (fun hc => hc ▸ hv)) hsorted memory with
      ⟨c', hc', hh⟩ | ⟨x, hx, hex⟩
    · exact Or.inl ⟨c', hc', of_holds hh hmem⟩
    · exact Or.inr ⟨x, hx, hcount ▸ hex⟩

theorem changed_remove {id : Id} (hsome : (m.kind id).isSome) (memory : Nat → Bool) :
    (∃ c', c.changed memory (.remove id) = .ok c' ∧
        c'.Represents store ⟨m.generation + 1, Function.update m.kind id none⟩) ∨
      ∃ x, c.changed memory (.remove id) = .error x ∧
        Contents.Exhausted memory m.generation (c.entries.length - 1) x := by
  have hholds := h.holds
  obtain ⟨i, hp⟩ := (h.position_isOk id).2 hsome
  have hl : c.locate (.remove id) = .ok ⟨i, 1, none⟩ := by
    rw [Contents.locate, hp]
    rfl
  obtain ⟨pre, e, post, he, hi, rfl⟩ := h.position_ok hp
  have hcount : (pre ++ [] ++ post).length = c.entries.length - 1 := by
    rw [he, append_nil, append_assoc, length_append, length_append,
      length_append, length_singleton]
    omega
  have hmem := h.mem_remove he
  rw [he] at hholds
  have hsub : (pre ++ [] ++ post).Sublist (pre ++ [e] ++ post) :=
    ((nil_sublist [e]).append_left pre).append_right post
  rcases hholds.changed_eq hl hi.symm rfl (fun x hx => hholds.fits x (hsub.subset hx))
    (fun x hx => hholds.valid x (hsub.subset hx)) (hholds.sorted.sublist (hsub.map _)) memory with
    ⟨c', hc', hh⟩ | ⟨x, hx, hex⟩
  · exact Or.inl ⟨c', hc', of_holds hh hmem⟩
  · exact Or.inr ⟨x, hx, hcount ▸ hex⟩

/-- A change that the map allows gives a table of the changed map, short of exhaustion. -/
theorem changed_allowed {change : Change} (hv : change.Valid store) {m' : Membership}
    (hm : m.change change = .ok m') (memory : Nat → Bool) :
    (∃ c', c.changed memory change = .ok c' ∧ c'.Represents store m') ∨
      ∃ e, c.changed memory change = .error e ∧
        Contents.Exhausted memory m.generation (change.count c.entries.length) e := by
  cases change with
  | insert e =>
    simp only [Membership.change] at hm
    split at hm
    · cases hm
    · next hnone =>
      obtain rfl := Except.ok.inj hm
      exact h.changed_insert hv.1 hv.2 hnone memory
  | remove id =>
    simp only [Membership.change] at hm
    split at hm
    · next hsome =>
      obtain rfl := Except.ok.inj hm
      exact h.changed_remove hsome memory
    · cases hm

theorem of_changed {change : Change} (hf : change.Fits) {memory : Nat → Bool} {c' : Contents}
    (hc : c.changed memory change = .ok c') :
    ∃ m', m.change change = .ok m' ∧ c'.Represents store m' := by
  have hv : change.Valid store := by
    cases change with
    | insert e =>
      obtain ⟨s, hs, -⟩ := Except.bind_eq_ok.1 hc
      obtain ⟨_, hv, -⟩ := Except.bind_eq_ok.1 hs
      exact ⟨hf, h.holds.store_eq ▸ hv⟩
    | remove id => trivial
  cases hm : m.change change with
  | error kind =>
    obtain ⟨message, he⟩ := h.changed_refused hv hm memory
    rw [he] at hc
    cases hc
  | ok m' =>
    rcases h.changed_allowed hv hm memory with ⟨c'', hc'', hr⟩ | ⟨e, he, -⟩
    · obtain rfl := Except.ok.inj (hc''.symm.trans hc)
      exact ⟨m', rfl, hr⟩
    · rw [he] at hc
      cases hc

end Contents.Represents

/-- The map of a list of entries. -/
def Membership.ofEntries (generation : Nat) (es : List Entry) : Membership where
  generation
  kind := fun id => (es.find? fun e => e.id = id).map Entry.kind

theorem represents_initial {memory : Nat → Bool} {store : Id} {es : List Entry} {c : Contents}
    (hf : ∀ e ∈ es, e.kind.Fits) (h : Contents.initial memory store es = .ok c) :
    c.Represents store (.ofEntries 1 es) := by
  have hholds := Contents.holds_initial hf h
  refine .of_holds hholds fun e => ?_
  have hnodup : (es.map Entry.id).Nodup := hholds.sorted.imp ne_of_lt
  rw [Membership.ofEntries, Option.map_eq_some_iff]
  constructor
  · intro he
    refine ⟨e, ?_, rfl⟩
    cases hx : es.find? fun x => x.id = e.id with
    | none => exact absurd (find?_eq_none.1 hx e he) (by simp)
    | some x =>
      have hid : x.id = e.id := by simpa using find?_some hx
      rw [inj_on_of_nodup_map hnodup (mem_of_find?_eq_some hx) he hid]
  · rintro ⟨x, hx, hk⟩
    have hid : x.id = e.id := by simpa using find?_some hx
    have hxe : x = e := by
      cases x
      cases e
      simp_all
    exact hxe ▸ mem_of_find?_eq_some hx

end Represents

end Cas.Catalog
