import Cas.Encoding
import Cas.Lib.Linked

/-!
# The recency list of a cache (`cache/lru.rs`)

The entries of a cache lie in a hash table, and each names its neighbours in the order of use. The
table holds a key once; what it computes from a key's bucket is the entry with that key. A link that
names no entry makes the code panic (`none`).
-/

namespace Cas.Cache

open List

structure Counters where
  hits : Nat
  misses : Nat
  fills : Nat
  evictions : Nat
  refused : Nat
  deriving DecidableEq, Repr

structure Entry (κ α : Type) where
  key : κ
  buffer : α
  older : Option κ
  newer : Option κ

structure Lru (κ α : Type) where
  entries : List (Entry κ α)
  capacity : Nat
  oldest : Option κ
  newest : Option κ
  counters : Counters

namespace Lru

variable {κ α : Type}

/-- The table reserves twice the capacity. -/
def new (capacity : Nat) : Except IoError (Lru κ α) :=
  if capacity * 2 < U64 then .ok ⟨[], capacity, none, none, ⟨0, 0, 0, 0, 0⟩⟩
  else .error ⟨.outOfMemory, "out of memory"⟩

def len (s : Lru κ α) : Nat := s.entries.length

variable [DecidableEq κ]

def find (s : Lru κ α) (key : κ) : Option (Entry κ α) := s.entries.find? fun e => e.key = key

def buffer (s : Lru κ α) (key : κ) : Option α := (s.find key).map (·.buffer)

/-- Write to the entry of a key, `Lru::entry`. -/
def update (s : Lru κ α) (key : κ) (f : Entry κ α → Entry κ α) : Option (Lru κ α) :=
  if (s.find key).isSome then
    some { s with entries := s.entries.map fun e => if e.key = key then f e else e }
  else none

/-- The key after `older` is now `newer`; without an older key it is the oldest one. -/
def setNewer (s : Lru κ α) (older newer : Option κ) : Option (Lru κ α) :=
  match older with
  | some older => s.update older fun e => { e with newer }
  | none => some { s with oldest := newer }

/-- The key before `newer` is now `older`; without a newer key it is the newest one. -/
def setOlder (s : Lru κ α) (newer older : Option κ) : Option (Lru κ α) :=
  match newer with
  | some newer => s.update newer fun e => { e with older }
  | none => some { s with newest := older }

def unlink (s : Lru κ α) (key : κ) : Option (Lru κ α) := do
  let entry ← s.find key
  let s ← s.setNewer entry.older entry.newer
  s.setOlder entry.newer entry.older

def linkNewest (s : Lru κ α) (key : κ) : Option (Lru κ α) := do
  let s' ← s.update key fun e => { e with older := s.newest, newer := none }
  let s' ← s'.setNewer s.newest (some key)
  return { s' with newest := some key }

def promote (s : Lru κ α) (key : κ) : Option (Lru κ α) :=
  if s.newest = some key then some s
  else do
    let s ← s.unlink key
    s.linkNewest key

def get (s : Lru κ α) (key : κ) : Option (Option α × Lru κ α) :=
  match s.buffer key with
  | none => some (none, { s with counters.misses := s.counters.misses + 1 })
  | some buffer => do
    let s ← s.promote key
    return (some buffer, { s with counters.hits := s.counters.hits + 1 })

/-- `none` also where the assertion about the capacity fails. -/
def insert (s : Lru κ α) (key : κ) (buffer : α) : Option (Lru κ α) :=
  if s.entries.length < s.capacity then do
    let s ← linkNewest { s with entries := s.entries ++ [⟨key, buffer, none, none⟩] } key
    return { s with counters.fills := s.counters.fills + 1 }
  else none

def evict (s : Lru κ α) : Option (Bool × Lru κ α) :=
  match s.oldest with
  | none => some (false, s)
  | some key => do
    let s ← s.unlink key
    let _ ← s.find key
    return (true, { s with
      entries := s.entries.eraseP fun e => e.key = key
      counters.evictions := s.counters.evictions + 1 })

/-! ## The links of the table -/

/-- The links that the entries hold. -/
def links (s : Lru κ α) : Links κ :=
  ⟨fun k => (s.find k).bind (·.older), fun k => (s.find k).bind (·.newer), s.oldest, s.newest⟩

/-- What the table holds, in no particular order. -/
def contents (s : Lru κ α) : List (κ × α) := s.entries.map fun e => (e.key, e.buffer)

/-- The table holds the pairs `l`, linked from the least to the most recently used one. -/
structure Represents (s : Lru κ α) (l : List (κ × α)) : Prop where
  linked : s.links.Linked (l.map (·.1))
  contents : s.contents.Perm l
  bound : s.len ≤ s.capacity

section Find

variable {s s' : Lru κ α} {k : κ}

omit [DecidableEq κ] in
theorem length_contents : s.contents.length = s.len := length_map _

theorem find_isSome : (s.find k).isSome ↔ k ∈ s.contents.map (·.1) := by
  simp [find, contents, find?_isSome]

theorem find_key {e : Entry κ α} (h : s.find k = some e) : e.key = k := by
  simpa using find?_some h

theorem find_map {f : Entry κ α → Entry κ α} (hf : ∀ e, (f e).key = e.key) (l : List (Entry κ α))
    (x : κ) : (l.map fun e => if e.key = k then f e else e).find? (fun e => e.key = x) =
      if x = k then (l.find? fun e => e.key = x).map f else l.find? fun e => e.key = x := by
  induction l with
  | nil => split <;> rfl
  | cons e l ih =>
    rw [map_cons, find?_cons, find?_cons, ih]
    by_cases hk : e.key = k
    · by_cases hx : k = x
      · simp [hk, hx, hf]
      · simp [hk, hx, hf, Ne.symm hx]
    · by_cases hx : e.key = x
      · have : x ≠ k := by rintro rfl; exact hk hx
        simp [hx, this]
      · simp [hk, hx]

/-- A write to an entry that is there changes this entry only. -/
theorem update_eq {f : Entry κ α → Entry κ α} (hk : k ∈ s.contents.map (·.1))
    (hf : ∀ e, (f e).key = e.key ∧ (f e).buffer = e.buffer) :
    ∃ s', s.update k f = some s' ∧
      (∀ x, s'.find x = if x = k then (s.find x).map f else s.find x) ∧
      s'.contents = s.contents ∧ s'.capacity = s.capacity ∧ s'.counters = s.counters ∧
      s'.oldest = s.oldest ∧ s'.newest = s.newest := by
  refine ⟨_, if_pos (find_isSome.2 hk), ?_, ?_, rfl, rfl, rfl, rfl⟩
  · exact find_map (fun e => (hf e).1) s.entries
  · rw [contents, map_map]
    refine map_congr_left fun e _ => ?_
    simp only [Function.comp]
    split
    · rw [(hf e).1, (hf e).2]
    · rfl

/-- The parts of a table that a change of links keeps. -/
structure Same (s s' : Lru κ α) : Prop where
  contents : s'.contents = s.contents
  capacity : s'.capacity = s.capacity
  counters : s'.counters = s.counters

omit [DecidableEq κ] in
theorem Same.trans {s'' : Lru κ α} (h : Same s s') (h' : Same s' s'') : Same s s'' :=
  ⟨h'.contents.trans h.contents, h'.capacity.trans h.capacity, h'.counters.trans h.counters⟩

theorem update_links (o n : Option κ → Option κ) (hk : k ∈ s.contents.map (·.1)) :
    ∃ s', s.update k (fun e => { e with older := o e.older, newer := n e.newer }) = some s' ∧
      Same s s' ∧ s'.links = { s.links with
        older := Function.update s.links.older k (o (s.links.older k))
        newer := Function.update s.links.newer k (n (s.links.newer k)) } := by
  obtain ⟨s', hs, hfind, hc, hcap, hcount, hold, hnew⟩ := update_eq
    (f := fun e => { e with older := o e.older, newer := n e.newer }) hk fun _ => ⟨rfl, rfl⟩
  refine ⟨s', hs, ⟨hc, hcap, hcount⟩, ?_⟩
  obtain ⟨e, he⟩ := Option.isSome_iff_exists.1 (find_isSome.2 hk)
  unfold links
  rw [hold, hnew]
  congr 1
  · funext x
    rw [hfind]
    by_cases hx : x = k
    · subst hx
      simp [he]
    · simp [hx]
  · funext x
    rw [hfind]
    by_cases hx : x = k
    · subst hx
      simp [he]
    · simp [hx]

theorem update_newer (v : Option κ) (hk : k ∈ s.contents.map (·.1)) :
    ∃ s', s.update k (fun e => { e with newer := v }) = some s' ∧ Same s s' ∧
      s'.links = s.links.setNewer k v := by
  obtain ⟨s', hs, hsame, hl⟩ := update_links id (fun _ => v) hk
  refine ⟨s', hs, hsame, hl.trans ?_⟩
  rw [id, Function.update_eq_self]
  rfl

theorem update_older (v : Option κ) (hk : k ∈ s.contents.map (·.1)) :
    ∃ s', s.update k (fun e => { e with older := v }) = some s' ∧ Same s s' ∧
      s'.links = s.links.setOlder k v := by
  obtain ⟨s', hs, hsame, hl⟩ := update_links (fun _ => v) id hk
  refine ⟨s', hs, hsame, hl.trans ?_⟩
  rw [id, Function.update_eq_self]
  rfl

end Find

/-! ## The operations on the chain -/

section Chain

variable {s : Lru κ α} {k : κ} {a b l : List κ}

theorem unlink_links (h : s.links.Linked (a ++ k :: b))
    (hc : (s.contents.map (·.1)).Perm (a ++ k :: b)) :
    ∃ s', s.unlink k = some s' ∧ Same s s' ∧ s'.links = s.links.unlink k := by
  have hmem : ∀ {x}, x ∈ a ++ k :: b → x ∈ s.contents.map (·.1) := hc.mem_iff.2
  obtain ⟨e, he⟩ := Option.isSome_iff_exists.1 (find_isSome.2 (hmem (x := k) (by simp)))
  obtain ⟨ho, hn⟩ := h.links rfl
  have hlo : s.links.older k = e.older := by simp [links, he]
  have hln : s.links.newer k = e.newer := by simp [links, he]
  -- the link of the older neighbour
  obtain ⟨s₁, hs₁, hsame₁, hl₁⟩ : ∃ s₁, s.setNewer e.older e.newer = some s₁ ∧ Same s s₁ ∧
      s₁.links = (match s.links.older k with
        | some o => s.links.setNewer o (s.links.newer k)
        | none => { s.links with oldest := s.links.newer k }) := by
    rw [hlo, hln]
    cases hold : e.older with
    | none => exact ⟨_, rfl, ⟨rfl, rfl, rfl⟩, rfl⟩
    | some o =>
      have hoa : a.getLast? = some o := by rw [← ho, hlo, hold]
      exact update_newer e.newer (hmem (mem_append_left _ (mem_of_getLast? hoa)))
  -- and that of the newer one
  obtain ⟨s₂, hs₂, hsame₂, hl₂⟩ : ∃ s₂, s₁.setOlder e.newer e.older = some s₂ ∧ Same s₁ s₂ ∧
      s₂.links = (match s.links.newer k with
        | some n => s₁.links.setOlder n (s.links.older k)
        | none => { s₁.links with newest := s.links.older k }) := by
    rw [hlo, hln]
    cases hnew : e.newer with
    | none => exact ⟨_, rfl, ⟨rfl, rfl, rfl⟩, rfl⟩
    | some n =>
      have hnb : b.head? = some n := by rw [← hn, hln, hnew]
      refine update_older e.older ?_
      rw [hsame₁.contents]
      exact hmem (by simp [mem_of_head? hnb])
  refine ⟨s₂, ?_, hsame₁.trans hsame₂, ?_⟩
  · rw [unlink, he, Option.bind_eq_bind, Option.bind_some, hs₁]
    exact hs₂
  · rw [hl₂, hl₁]
    rfl

theorem linkNewest_links (h : s.links.Linked l) (hk : k ∈ s.contents.map (·.1))
    (hc : ∀ x ∈ l, x ∈ s.contents.map (·.1)) :
    ∃ s', s.linkNewest k = some s' ∧ Same s s' ∧ s'.links = s.links.linkNewest k := by
  obtain ⟨s₁, hs₁, hsame₁, hl₁⟩ := update_links (fun _ => s.newest) (fun _ => none) hk
  have hl₁' : s₁.links = (s.links.setOlder k s.links.newest).setNewer k none := hl₁
  obtain ⟨s₂, hs₂, hsame₂, hl₂⟩ : ∃ s₂, s₁.setNewer s.newest (some k) = some s₂ ∧ Same s₁ s₂ ∧
      s₂.links = (match s.links.newest with
        | some n => s₁.links.setNewer n (some k)
        | none => { s₁.links with oldest := some k }) := by
    have hnewest : s.links.newest = s.newest := rfl
    rw [hnewest]
    cases hnew : s.newest with
    | none => exact ⟨_, rfl, ⟨rfl, rfl, rfl⟩, rfl⟩
    | some n =>
      refine update_newer (some k) ?_
      rw [hsame₁.contents]
      refine hc n (mem_of_getLast? ?_)
      rw [← h.newest, hnewest, hnew]
  refine ⟨{ s₂ with newest := some k }, ?_, (hsame₁.trans hsame₂).trans ⟨rfl, rfl, rfl⟩, ?_⟩
  · rw [linkNewest, hs₁, Option.bind_eq_bind, Option.bind_some, hs₂]
    rfl
  · show { s₂.links with newest := some k } = _
    rw [hl₂, hl₁', Links.linkNewest]
    cases s.links.newest <;> rfl

end Chain

/-! ## The operations on the pairs -/

theorem find_eraseP (l : List (Entry κ α)) {k x : κ} (hx : x ≠ k) :
    (l.eraseP fun e => e.key = k).find? (fun e => e.key = x) = l.find? fun e => e.key = x := by
  induction l with
  | nil => rfl
  | cons e l ih =>
    by_cases hk : e.key = k
    · have hne : e.key ≠ x := fun h => hx (h.symm.trans hk)
      rw [eraseP_cons_of_pos (by simpa using hk), find?_cons_of_neg (by simpa using hne)]
    · rw [eraseP_cons_of_neg (by simpa using hk), find?_cons, find?_cons, ih]

namespace Represents

variable {s : Lru κ α} {l a b : List (κ × α)} {k : κ} {v : α}

theorem keys (h : s.Represents l) : (s.contents.map (·.1)).Perm (l.map (·.1)) :=
  h.contents.map _

theorem eq_of_mem (h : s.Represents l) {w : α} (hv : (k, v) ∈ l) (hw : (k, w) ∈ l) : v = w := by
  have := inj_on_of_nodup_map h.linked.nodup hv hw rfl
  exact (Prod.mk.inj this).2

theorem buffer_eq_some (h : s.Represents l) : s.buffer k = some v ↔ (k, v) ∈ l := by
  have hmem : ∀ {w}, s.buffer k = some w → (k, w) ∈ l := by
    intro w hw
    obtain ⟨e, he, rfl⟩ := Option.map_eq_some_iff.1 hw
    rw [← h.contents.mem_iff, ← find_key he]
    exact mem_map.2 ⟨e, mem_of_find?_eq_some he, rfl⟩
  refine ⟨hmem, fun hv => ?_⟩
  have hk : k ∈ s.contents.map (·.1) :=
    h.keys.mem_iff.2 (mem_map.2 ⟨_, hv, rfl⟩)
  obtain ⟨e, he⟩ := Option.isSome_iff_exists.1 (find_isSome.2 hk)
  have hb : s.buffer k = some e.buffer := by rw [buffer, he]; rfl
  rw [hb, h.eq_of_mem (hmem hb) hv]

theorem nil {s : Lru κ α} (hs : s.entries = []) (ho : s.oldest = none) (hn : s.newest = none) :
    s.Represents [] := by
  refine ⟨?_, ?_, ?_⟩
  · have hl : s.links = ⟨fun _ => none, fun _ => none, none, none⟩ := by
      simp [links, find, hs, ho, hn]
    rw [hl]
    exact Links.Linked.nil
  · rw [Lru.contents, hs]
    exact List.Perm.refl _
  · rw [len, hs]
    exact Nat.zero_le _

theorem length_eq (h : s.Represents l) : s.len = l.length := by
  rw [← length_contents]
  exact h.contents.length_eq

/-- Changes of links do not change how much the table holds. -/
theorem of_same {s' : Lru κ α} {l' : List (κ × α)} (h : s.Represents l) (hsame : Same s s')
    (hl : s'.links.Linked (l'.map (·.1))) (hp : l.Perm l') : s'.Represents l' := by
  have hc : s'.contents.Perm l' := by
    rw [hsame.contents]
    exact h.contents.trans hp
  refine ⟨hl, hc, ?_⟩
  rw [← length_contents, hsame.contents, length_contents, hsame.capacity]
  exact h.bound

theorem promote (h : s.Represents (a ++ (k, v) :: b)) :
    ∃ s', s.promote k = some s' ∧ s'.Represents (a ++ b ++ [(k, v)]) ∧ Same s s' := by
  have hlinked : s.links.Linked (a.map (·.1) ++ k :: b.map (·.1)) := by
    have := h.linked
    rwa [map_append, map_cons] at this
  unfold Lru.promote
  by_cases hnew : s.newest = some k
  · rw [if_pos hnew]
    refine ⟨s, rfl, ?_, ⟨rfl, rfl, rfl⟩⟩
    have hb : b = [] := by
      cases b with
      | nil => rfl
      | cons y b =>
        have hlast := hlinked.newest
        rw [show s.links.newest = s.newest from rfl, hnew, map_cons,
          getLast?_append_cons, getLast?_cons_cons] at hlast
        have hnd := (nodup_append.1 hlinked.nodup).2.1
        exact absurd (mem_of_getLast? hlast.symm) (nodup_cons.1 hnd).1
    subst hb
    simpa using h
  · rw [if_neg hnew]
    have hkeys : (s.contents.map (·.1)).Perm (a.map (·.1) ++ k :: b.map (·.1)) := by
      have := h.keys
      rwa [map_append, map_cons] at this
    obtain ⟨s₁, hs₁, hsame₁, hl₁⟩ := unlink_links hlinked hkeys
    have hlinked₁ : s₁.links.Linked (a.map (·.1) ++ b.map (·.1)) := by
      rw [hl₁]
      exact hlinked.unlink
    have hnot : k ∉ a.map (·.1) ++ b.map (·.1) := by
      have hnd := (perm_middle.nodup_iff).1 hlinked.nodup
      exact (nodup_cons.1 hnd).1
    have hmem : ∀ x ∈ a.map (·.1) ++ k :: b.map (·.1), x ∈ s₁.contents.map (·.1) := by
      intro x hx
      rw [hsame₁.contents]
      exact hkeys.mem_iff.2 hx
    obtain ⟨s₂, hs₂, hsame₂, hl₂⟩ := linkNewest_links hlinked₁ (hmem k (by simp)) (by
      intro x hx
      refine hmem x ?_
      rcases mem_append.1 hx with hx | hx
      · exact mem_append_left _ hx
      · exact mem_append_right _ (mem_cons_of_mem _ hx))
    refine ⟨s₂, ?_, ?_, hsame₁.trans hsame₂⟩
    · rw [hs₁]
      exact hs₂
    · refine h.of_same (hsame₁.trans hsame₂) ?_ ?_
      · rw [hl₂]
        have := hlinked₁.linkNewest hnot
        simpa using this
      · rw [append_assoc]
        exact List.Perm.append_left a (perm_append_singleton _ b).symm

theorem insert (h : s.Represents l) (hk : k ∉ l.map (·.1)) (hlen : s.len < s.capacity) :
    ∃ s', s.insert k v = some s' ∧ s'.Represents (l ++ [(k, v)]) ∧ s'.capacity = s.capacity := by
  set s₀ : Lru κ α := { s with entries := s.entries ++ [⟨k, v, none, none⟩] } with hs₀
  have hfind : ∀ x, s₀.find x = (s.find x).or (if k = x then some ⟨k, v, none, none⟩ else none) := by
    intro x
    rw [find, hs₀, find?_append, find?_singleton]
    simp only [decide_eq_true_eq]
    rfl
  -- the new entry has no links yet
  have hlinks : s₀.links = s.links := by
    unfold links
    congr 1
    · funext x
      rw [hfind]
      cases s.find x with
      | some e => rfl
      | none => simp only [Option.none_or]; split <;> rfl
    · funext x
      rw [hfind]
      cases s.find x with
      | some e => rfl
      | none => simp only [Option.none_or]; split <;> rfl
  have hcontents : s₀.contents = s.contents ++ [(k, v)] := by simp [Lru.contents, hs₀]
  obtain ⟨s₁, hs₁, hsame₁, hl₁⟩ := linkNewest_links (s := s₀) (k := k) (by rw [hlinks]; exact h.linked)
    (by rw [hcontents]; simp) (by
      intro x hx
      rw [hcontents, map_append]
      exact mem_append_left _ (h.keys.mem_iff.2 hx))
  refine ⟨{ s₁ with counters.fills := s₁.counters.fills + 1 }, ?_, ⟨?_, ?_, ?_⟩, hsame₁.capacity⟩
  · have hlen' : s.entries.length < s.capacity := hlen
    rw [Lru.insert, if_pos hlen', ← hs₀, hs₁]
    rfl
  · show s₁.links.Linked _
    rw [hl₁, hlinks, map_append]
    exact h.linked.linkNewest hk
  · show s₁.contents.Perm _
    rw [hsame₁.contents, hcontents]
    exact h.contents.append_right _
  · show s₁.len ≤ s₁.capacity
    rw [← length_contents, hsame₁.contents, hcontents, length_append, length_contents,
      hsame₁.capacity]
    exact hlen

theorem evict (h : s.Represents ((k, v) :: b)) :
    ∃ s', s.evict = some (true, s') ∧ s'.Represents b ∧ s'.capacity = s.capacity := by
  have hlinked : s.links.Linked ([] ++ k :: b.map (·.1)) := h.linked
  obtain ⟨s₁, hs₁, hsame₁, hl₁⟩ := unlink_links hlinked h.keys
  have hlinked₁ : s₁.links.Linked (b.map (·.1)) := by
    rw [hl₁]
    exact hlinked.unlink
  have hk : k ∉ b.map (·.1) := (nodup_cons.1 h.linked.nodup).1
  have holdest : s.oldest = some k := h.linked.oldest
  have hmem : k ∈ s₁.contents.map (·.1) := by
    rw [hsame₁.contents]
    exact h.keys.mem_iff.2 (by simp)
  obtain ⟨e, he⟩ := Option.isSome_iff_exists.1 (find_isSome.2 hmem)
  set s₂ : Lru κ α := { s₁ with
    entries := s₁.entries.eraseP fun e => e.key = k
    counters.evictions := s₁.counters.evictions + 1 } with hs₂
  have hcontents : s₂.contents.Perm b := by
    obtain ⟨e', x, y, -, hek, hxy, herase⟩ :=
      exists_of_eraseP (p := fun e => e.key = k) (mem_of_find?_eq_some he)
        (by simpa using find_key he)
    have hek : e'.key = k := by simpa using hek
    have h1 : s₁.contents.Perm ((k, e'.buffer) :: s₂.contents) := by
      rw [Lru.contents, Lru.contents, hxy, hs₂, herase, ← hek, map_append, map_append,
        map_cons]
      exact perm_middle
    have h2 : ((k, e'.buffer) :: s₂.contents).Perm ((k, v) :: b) := by
      refine h1.symm.trans ?_
      rw [hsame₁.contents]
      exact h.contents
    have h3 : e'.buffer = v := h.eq_of_mem (k := k) (h2.mem_iff.1 (by simp)) (by simp)
    rw [h3] at h2
    exact h2.cons_inv
  refine ⟨s₂, ?_, ⟨?_, hcontents, ?_⟩, hsame₁.capacity⟩
  · rw [Lru.evict, holdest]
    simp only [hs₁, Option.bind_eq_bind, Option.bind_some, he]
    rfl
  · refine hlinked₁.congr rfl rfl ?_
    intro x hx
    have hne : x ≠ k := by
      rintro rfl
      exact hk hx
    have : s₂.find x = s₁.find x := find_eraseP _ hne
    simp only [links, this, and_self]
  · have hb := h.bound
    rw [h.length_eq, length_cons] at hb
    show s₂.len ≤ s₁.capacity
    rw [← length_contents, hcontents.length_eq, hsame₁.capacity]
    omega

theorem evict_nil (h : s.Represents []) : s.evict = some (false, s) := by
  have : s.oldest = none := h.linked.oldest
  rw [Lru.evict, this]

end Represents

end Lru

end Cas.Cache
