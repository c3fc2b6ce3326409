import Cas.Cache.Lru

/-!
# The cache entries in the order of use

What the linked table of a cache is for: a list of keys with their values, from the least to the most
recently used one. The operations of the table are those of the list (`Lru.refines_recency`), and the
list is ordered by the last operation that inserted, got or promoted a key.
-/

namespace Cas.Cache

open List

inductive Op (κ α : Type)
  | get (key : κ)
  | buffer (key : κ)
  | insert (key : κ) (buffer : α)
  | promote (key : κ)
  | evict

inductive Reply (α : Type)
  | buffer (found : Option α)
  | evicted (found : Bool)
  | done
  deriving DecidableEq

variable {κ α : Type} [DecidableEq κ]

/-- The table's methods. -/
def Lru.step (s : Lru κ α) : Op κ α → Option (Reply α × Lru κ α)
  | .get k => (s.get k).map fun r => (.buffer r.1, r.2)
  | .buffer k => some (.buffer (s.buffer k), s)
  | .insert k v => (s.insert k v).map fun s => (.done, s)
  | .promote k => (s.promote k).map fun s => (.done, s)
  | .evict => s.evict.map fun r => (.evicted r.1, r.2)

/-- The state after some operations, the latest one first. -/
def Lru.after (s : Lru κ α) : List (Op κ α) → Option (Lru κ α)
  | [] => some s
  | op :: past => do
    let s ← s.after past
    let r ← s.step op
    return r.2

namespace Recency

def lookup (l : List (κ × α)) (k : κ) : Option α := (l.find? fun e => e.1 = k).map (·.2)

/-- A key becomes the most recently used one. -/
def touch (l : List (κ × α)) (k : κ) : List (κ × α) :=
  l.filter (fun e => e.1 ≠ k) ++ l.filter fun e => e.1 = k

def step (l : List (κ × α)) : Op κ α → Reply α × List (κ × α)
  | .get k => (.buffer (lookup l k), touch l k)
  | .buffer k => (.buffer (lookup l k), l)
  | .insert k v => (.done, l ++ [(k, v)])
  | .promote k => (.done, touch l k)
  | .evict => (.evicted !l.isEmpty, l.tail)

def after : List (Op κ α) → List (κ × α)
  | [] => []
  | op :: past => (step (after past) op).2

/-- Callers insert absent keys below the capacity and promote resident keys. -/
def Allows (capacity : Nat) (l : List (κ × α)) : Op κ α → Prop
  | .insert k _ => k ∉ l.map (·.1) ∧ l.length < capacity
  | .promote k => k ∈ l.map (·.1)
  | _ => True

instance (capacity : Nat) (l : List (κ × α)) (op : Op κ α) : Decidable (Allows capacity l op) :=
  match op with
  | .insert _ _ => inferInstanceAs (Decidable (_ ∧ _))
  | .promote _ => inferInstanceAs (Decidable (_ ∈ _))
  | .get _ | .buffer _ | .evict => inferInstanceAs (Decidable True)

def AllowsAll (capacity : Nat) : List (Op κ α) → Prop
  | [] => True
  | op :: past => AllowsAll capacity past ∧ Allows capacity (after past) op

/-! ## When a key was used -/

/-- An operation that inserts, gets or promotes a key uses it. -/
def uses : Op κ α → Option κ
  | .get k => some k
  | .insert k _ => some k
  | .promote k => some k
  | _ => none

/-- The number of the last operation that used a key. -/
def lastUse : List (Op κ α) → κ → Nat
  | [], _ => 0
  | op :: past, k => if uses op = some k then past.length + 1 else lastUse past k

/-- The value that was last inserted for a key. -/
def lastInserted : List (Op κ α) → κ → Option α
  | [], _ => none
  | .insert k' v :: past, k => if k' = k then some v else lastInserted past k
  | _ :: past, k => lastInserted past k

section Touch

variable {l a b : List (κ × α)} {k : κ} {v : α}

theorem filter_ne_of_notMem (h : k ∉ l.map (·.1)) :
    l.filter (fun e => e.1 ≠ k) = l ∧ l.filter (fun e => e.1 = k) = [] := by
  have hne : ∀ e ∈ l, e.1 ≠ k := by
    rintro e he rfl
    exact h (mem_map.2 ⟨e, he, rfl⟩)
  constructor
  · exact filter_eq_self.2 fun e he => by simpa using hne e he
  · exact filter_eq_nil_iff.2 fun e he => by simpa using hne e he

theorem touch_of_notMem (h : k ∉ l.map (·.1)) : touch l k = l := by
  obtain ⟨h1, h2⟩ := filter_ne_of_notMem h
  rw [touch, h1, h2, append_nil]

theorem touch_append (ha : k ∉ a.map (·.1)) (hb : k ∉ b.map (·.1)) :
    touch (a ++ (k, v) :: b) k = a ++ b ++ [(k, v)] := by
  obtain ⟨ha1, ha2⟩ := filter_ne_of_notMem ha
  obtain ⟨hb1, hb2⟩ := filter_ne_of_notMem hb
  rw [touch, filter_append, filter_append, filter_cons_of_neg (by simp),
    filter_cons_of_pos (by simp), ha1, ha2, hb1, hb2, nil_append]

theorem lookup_of_notMem (h : k ∉ l.map (·.1)) : lookup l k = none := by
  rw [lookup, Option.map_eq_none_iff, find?_eq_none]
  intro e he hk
  exact h (mem_map.2 ⟨e, he, by simpa using hk⟩)

theorem lookup_append (ha : k ∉ a.map (·.1)) : lookup (a ++ (k, v) :: b) k = some v := by
  have hnone : a.find? (fun e => e.1 = k) = none := by
    have := lookup_of_notMem ha
    rwa [lookup, Option.map_eq_none_iff] at this
  rw [lookup, find?_append, hnone, find?_cons_of_pos (by simp)]
  rfl

omit [DecidableEq κ] in
theorem exists_split (hnd : (l.map (·.1)).Nodup) (hk : k ∈ l.map (·.1)) :
    ∃ a b v, l = a ++ (k, v) :: b ∧ k ∉ a.map (·.1) ∧ k ∉ b.map (·.1) := by
  obtain ⟨⟨k', v⟩, he, rfl⟩ := mem_map.1 hk
  obtain ⟨a, b, rfl⟩ := append_of_mem he
  rw [map_append, map_cons, perm_middle.nodup_iff, nodup_cons,
    mem_append, not_or] at hnd
  exact ⟨a, b, v, rfl, hnd.1⟩

end Touch

/-! ## The order of the list -/

theorem lastUse_le (past : List (Op κ α)) (k : κ) : lastUse past k ≤ past.length := by
  induction past with
  | nil => exact le_refl _
  | cons op past ih =>
    rw [lastUse]
    split
    · exact le_refl _
    · exact ih.trans (Nat.le_succ _)

theorem lastUse_cons_of_ne {op : Op κ α} {past : List (Op κ α)} {k : κ} (h : uses op ≠ some k) :
    lastUse (op :: past) k = lastUse past k := if_neg h

theorem lastUse_cons_self {op : Op κ α} {past : List (Op κ α)} {k : κ} (h : uses op = some k) :
    lastUse (op :: past) k = past.length + 1 := if_pos h

theorem lastInserted_cons {op : Op κ α} (past : List (Op κ α)) {k : κ}
    (h : ∀ v, op ≠ .insert k v) : lastInserted (op :: past) k = lastInserted past k := by
  cases op with
  | insert k' v =>
    refine if_neg ?_
    rintro rfl
    exact h v rfl
  | get | buffer | promote | evict => rfl

/-- The list is ordered by the last use of its keys and holds the values inserted last. -/
structure Ordered (past : List (Op κ α)) (l : List (κ × α)) : Prop where
  order : (l.map (·.1)).Pairwise fun k k' => lastUse past k < lastUse past k'
  values : ∀ k v, (k, v) ∈ l → lastInserted past k = some v

namespace Ordered

variable {past : List (Op κ α)} {op : Op κ α} {l m : List (κ × α)} {k : κ}

/-- An operation that uses none of the keys keeps the order. -/
theorem skip (h : Ordered past l) (hm : m.Sublist l) (hu : ∀ k ∈ m.map (·.1), uses op ≠ some k) :
    Ordered (op :: past) m := by
  have hsub : (m.map (·.1)).Sublist (l.map (·.1)) := hm.map _
  refine ⟨(h.order.sublist hsub).imp_of_mem ?_, ?_⟩
  · intro k k' hk hk' hlt
    rw [lastUse_cons_of_ne (hu k hk), lastUse_cons_of_ne (hu k' hk')]
    exact hlt
  · intro k v hv
    rw [lastInserted_cons past, h.values k v (hm.subset hv)]
    rintro v' rfl
    exact hu k (mem_map.2 ⟨_, hv, rfl⟩) rfl

theorem use (h : Ordered past l) (hm : m.Sublist l) (hu : uses op = some k)
    (hk : k ∉ m.map (·.1)) {v : α} (hv : lastInserted (op :: past) k = some v) :
    Ordered (op :: past) (m ++ [(k, v)]) := by
  have hne : ∀ k' ∈ m.map (·.1), uses op ≠ some k' := by
    intro k' hk' he
    rw [hu] at he
    cases he
    exact hk hk'
  have hm' := h.skip hm hne
  refine ⟨?_, ?_⟩
  · rw [map_append, pairwise_append]
    refine ⟨hm'.order, pairwise_singleton _ _, ?_⟩
    intro k' hk' k'' hk''
    obtain rfl : k'' = k := by simpa using hk''
    rw [lastUse_cons_of_ne (hne k' hk'), lastUse_cons_self hu]
    exact Nat.lt_succ_of_le (lastUse_le past k')
  · intro k' v' hmem
    rcases mem_append.1 hmem with hmem | hmem
    · exact hm'.values k' v' hmem
    · cases mem_singleton.1 hmem
      exact hv

theorem touch (h : Ordered past l) (hnd : (l.map (·.1)).Nodup) (hu : uses op = some k)
    (hop : ∀ v, op ≠ .insert k v) : Ordered (op :: past) (touch l k) := by
  by_cases hk : k ∈ l.map (·.1)
  · obtain ⟨a, b, v, rfl, ha, hb⟩ := exists_split hnd hk
    rw [touch_append ha hb]
    refine h.use (List.Sublist.append_left (sublist_cons_self _ b) a) hu ?_ ?_
    · rw [map_append, mem_append, not_or]
      exact ⟨ha, hb⟩
    · rw [lastInserted_cons past hop]
      exact h.values k v (by simp)
  · rw [touch_of_notMem hk]
    refine h.skip (List.Sublist.refl l) ?_
    intro k' hk' he
    rw [hu] at he
    cases he
    exact hk hk'

theorem step (h : Ordered past l) (hnd : (l.map (·.1)).Nodup) {capacity : Nat}
    (hop : Allows capacity l op) : Ordered (op :: past) (Recency.step l op).2 := by
  cases op with
  | get k => exact h.touch hnd rfl (by intro v; simp)
  | buffer k => exact h.skip (List.Sublist.refl l) (by intro k' _ he; cases he)
  | insert k v => exact h.use (List.Sublist.refl l) rfl hop.1 (if_pos rfl)
  | promote k => exact h.touch hnd rfl (by intro v; simp)
  | evict => exact h.skip (tail_sublist l) (by intro k' _ he; cases he)

end Ordered

end Recency

open Recency

namespace Lru.Represents

variable {s : Lru κ α} {l : List (κ × α)} {k : κ}

theorem buffer_eq (h : s.Represents l) (k : κ) : s.buffer k = lookup l k := by
  by_cases hk : k ∈ l.map (·.1)
  · obtain ⟨a, b, v, rfl, ha, -⟩ := exists_split h.linked.nodup hk
    rw [lookup_append ha, h.buffer_eq_some]
    simp
  · rw [lookup_of_notMem hk, buffer, Option.map_eq_none_iff, ← Option.not_isSome_iff_eq_none,
      find_isSome, h.keys.mem_iff]
    exact hk

theorem promote_touch (h : s.Represents l) (hk : k ∈ l.map (·.1)) :
    ∃ s', s.promote k = some s' ∧ s'.Represents (touch l k) ∧ Same s s' := by
  obtain ⟨a, b, v, rfl, ha, hb⟩ := exists_split h.linked.nodup hk
  rw [touch_append ha hb]
  exact h.promote

/-- The table's counters are not part of what it represents. -/
theorem counted (h : s.Represents l) (c : Counters) : Represents { s with counters := c } l :=
  ⟨h.linked, h.contents, h.bound⟩

theorem get (h : s.Represents l) (k : κ) :
    ∃ s', s.get k = some (lookup l k, s') ∧ s'.Represents (touch l k) ∧
      s'.capacity = s.capacity := by
  unfold Lru.get
  rw [h.buffer_eq]
  by_cases hk : k ∈ l.map (·.1)
  · obtain ⟨s', hs, hr, hsame⟩ := h.promote_touch hk
    obtain ⟨a, b, v, rfl, ha, -⟩ := exists_split h.linked.nodup hk
    rw [lookup_append ha, hs]
    exact ⟨_, rfl, hr.counted _, hsame.capacity⟩
  · rw [lookup_of_notMem hk, touch_of_notMem hk]
    exact ⟨_, rfl, h.counted _, rfl⟩

theorem step (h : s.Represents l) {op : Op κ α} (hop : Allows s.capacity l op) :
    ∃ s', s.step op = some ((Recency.step l op).1, s') ∧ s'.Represents (Recency.step l op).2 ∧
      s'.capacity = s.capacity := by
  cases op with
  | get k =>
    obtain ⟨s', hs, hr, hc⟩ := h.get k
    exact ⟨s', by rw [Lru.step, hs]; rfl, hr, hc⟩
  | buffer k => exact ⟨s, by rw [Lru.step, h.buffer_eq]; rfl, h, rfl⟩
  | insert k v =>
    obtain ⟨s', hs, hr, hc⟩ := h.insert (v := v) hop.1 (by rw [h.length_eq]; exact hop.2)
    exact ⟨s', by rw [Lru.step, hs]; rfl, hr, hc⟩
  | promote k =>
    obtain ⟨s', hs, hr, hsame⟩ := h.promote_touch hop
    exact ⟨s', by rw [Lru.step, hs]; rfl, hr, hsame.capacity⟩
  | evict =>
    cases l with
    | nil => exact ⟨s, by rw [Lru.step, h.evict_nil]; rfl, h, rfl⟩
    | cons e b =>
      obtain ⟨s', hs, hr, hc⟩ := h.evict (k := e.1) (v := e.2)
      exact ⟨s', by rw [Lru.step, hs]; rfl, hr, hc⟩

theorem after {s₀ : Lru κ α} (h₀ : s₀.Represents []) : ∀ {past : List (Op κ α)},
    AllowsAll s₀.capacity past →
    ∃ s, s₀.after past = some s ∧ s.Represents (Recency.after past) ∧ s.capacity = s₀.capacity
  | [], _ => ⟨s₀, rfl, h₀, rfl⟩
  | op :: past, hp => by
    obtain ⟨s, hs, hr, hc⟩ := after h₀ hp.1
    obtain ⟨s', hs', hr', hc'⟩ := hr.step (by rw [hc]; exact hp.2)
    refine ⟨s', ?_, hr', hc'.trans hc⟩
    rw [Lru.after, hs, Option.bind_eq_bind, Option.bind_some, hs']
    rfl

theorem ordered {s₀ : Lru κ α} (h₀ : s₀.Represents []) : ∀ {past : List (Op κ α)},
    AllowsAll s₀.capacity past → Ordered past (Recency.after past)
  | [], _ => ⟨List.Pairwise.nil, by simp [Recency.after]⟩
  | op :: past, hp => by
    obtain ⟨s, -, hr, -⟩ := after h₀ hp.1
    exact (ordered h₀ hp.1).step hr.linked.nodup hp.2

end Lru.Represents

/-- The keys met along the newer links from the oldest one. -/
def Lru.forward (s : Lru κ α) : List κ := Links.follow s.links.newer s.len s.oldest

/-- The keys met along the older links from the newest one. -/
def Lru.backward (s : Lru κ α) : List κ := Links.follow s.links.older s.len s.newest

/-- After every sequence of operations the links form one chain through all entries, from the least
to the most recently used one, and the next operation does and answers what it does on the list. -/
theorem Lru.refines_recency {capacity : Nat} {s₀ : Lru κ α} (h₀ : Lru.new capacity = .ok s₀)
    (past : List (Op κ α)) (hp : AllowsAll capacity past) :
    ∃ s, s₀.after past = some s ∧
      s.forward = (Recency.after past).map (·.1) ∧
      s.backward = ((Recency.after past).map (·.1)).reverse ∧
      s.contents.Perm (Recency.after past) ∧
      ((Recency.after past).map (·.1)).Nodup ∧
      ((Recency.after past).map (·.1)).Pairwise (fun k k' => lastUse past k < lastUse past k') ∧
      (∀ k v, s.buffer k = some v → lastInserted past k = some v) ∧
      ∀ op, Allows capacity (Recency.after past) op →
        ∃ s', s.step op = some ((Recency.step (Recency.after past) op).1, s') := by
  obtain ⟨hr₀, rfl⟩ : s₀.Represents [] ∧ s₀.capacity = capacity := by
    unfold Lru.new at h₀
    split at h₀
    · cases h₀
      exact ⟨Represents.nil rfl rfl rfl, rfl⟩
    · cases h₀
  obtain ⟨s, hs, hr, hc⟩ := Represents.after hr₀ hp
  have ho := Represents.ordered hr₀ hp
  have hlen : s.len = ((Recency.after past).map (·.1)).length := by
    rw [List.length_map, hr.length_eq]
  refine ⟨s, hs, ?_, ?_, hr.contents, hr.linked.nodup, ho.order, ?_, ?_⟩
  · rw [forward, hlen]
    exact hr.linked.forward
  · rw [backward, hlen]
    exact hr.linked.backward
  · intro k v hv
    exact ho.values k v (hr.buffer_eq_some.1 hv)
  · intro op hop
    obtain ⟨s', hs', -, -⟩ := hr.step (by rw [hc]; exact hop)
    exact ⟨s', hs'⟩

/-- Two keys, the older one got again: the other one is evicted next. -/
theorem Lru.refines_recency_two : ∃ s₀ s : Lru Nat Nat, Lru.new 2 = .ok s₀ ∧
    s₀.after [.get 1, .insert 2 8, .insert 1 7] = some s ∧ s.forward = [2, 1] ∧
    s.backward = [1, 2] ∧ ∃ s', s.step .evict = some (.evicted true, s') := by
  have h₀ : Lru.new 2 = .ok (⟨[], 2, none, none, ⟨0, 0, 0, 0, 0⟩⟩ : Lru Nat Nat) := rfl
  obtain ⟨s, hs, hf, hb, -, -, -, -, hstep⟩ := Lru.refines_recency h₀
    [.get 1, .insert 2 8, .insert 1 7] ⟨⟨⟨trivial, by decide⟩, by decide⟩, trivial⟩
  exact ⟨_, s, h₀, hs, hf, hb, hstep .evict trivial⟩

end Cas.Cache
