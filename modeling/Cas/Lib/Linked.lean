import Mathlib.Data.List.Nodup
import Mathlib.Data.List.Basic
import Mathlib.Logic.Function.Basic
import Mathlib.Tactic.Common

/-!
# Doubly linked chains of keys

Links between keys: each key names the next older and the next newer one, and the two ends are known
by name. `Links.Linked s l` says that the links describe the chain `l`, from the oldest to the
newest key. Unlinking a key removes it from the chain (`Linked.unlink`), linking a key as the newest
one appends it (`Linked.linkNewest`), and following the links from an end lists the chain
(`Linked.forward`, `Linked.backward`).
-/

namespace Cas

open List

structure Links (κ : Type) where
  older : κ → Option κ
  newer : κ → Option κ
  oldest : Option κ
  newest : Option κ

namespace Links

variable {κ : Type}

structure Linked (s : Links κ) (l : List κ) : Prop where
  nodup : l.Nodup
  oldest : s.oldest = l.head?
  newest : s.newest = l.getLast?
  links : ∀ {a b : List κ} {k : κ}, l = a ++ k :: b → s.older k = a.getLast? ∧ s.newer k = b.head?

/-- The keys met from `k` on, at most `n`. -/
def follow (next : κ → Option κ) : Nat → Option κ → List κ
  | 0, _ => []
  | _ + 1, none => []
  | n + 1, some k => k :: follow next n (next k)

section Update

variable [DecidableEq κ]

def setNewer (s : Links κ) (k : κ) (v : Option κ) : Links κ :=
  { s with newer := Function.update s.newer k v }

def setOlder (s : Links κ) (k : κ) (v : Option κ) : Links κ :=
  { s with older := Function.update s.older k v }

/-- The neighbours of a key are linked to each other. -/
def unlink (s : Links κ) (k : κ) : Links κ :=
  let s' :=
    match s.older k with
    | some o => s.setNewer o (s.newer k)
    | none => { s with oldest := s.newer k }
  match s.newer k with
  | some n => s'.setOlder n (s.older k)
  | none => { s' with newest := s.older k }

/-- A key becomes the newest one. -/
def linkNewest (s : Links κ) (k : κ) : Links κ :=
  let s' := (s.setOlder k s.newest).setNewer k none
  match s.newest with
  | some n => { s'.setNewer n (some k) with newest := some k }
  | none => { s' with oldest := some k, newest := some k }

end Update

namespace Linked

variable {s : Links κ} {l a b : List κ} {k : κ}

theorem nil : Linked (⟨fun _ => none, fun _ => none, none, none⟩ : Links κ) [] :=
  ⟨nodup_nil, rfl, rfl, by simp⟩

theorem congr {s' : Links κ} (h : s.Linked l) (hold : s'.oldest = s.oldest)
    (hnew : s'.newest = s.newest)
    (hk : ∀ k ∈ l, s'.older k = s.older k ∧ s'.newer k = s.newer k) : s'.Linked l := by
  refine ⟨h.nodup, hold.trans h.oldest, hnew.trans h.newest, ?_⟩
  intro a b k hl
  obtain ⟨h1, h2⟩ := hk k (by rw [hl]; simp)
  rw [h1, h2]
  exact h.links hl

section Update

variable [DecidableEq κ]

theorem unlink_oldest (h : s.Linked (a ++ k :: b)) : (s.unlink k).oldest = (a ++ b).head? := by
  obtain ⟨ho, hn⟩ := h.links rfl
  have h1 := h.oldest
  unfold Links.unlink
  cases a with
  | nil =>
    rw [ho, hn]
    cases b <;> rfl
  | cons x a =>
    rw [ho, hn]
    cases hb : b <;> cases hl : (x :: a).getLast? <;> simp_all [setOlder, setNewer]

theorem unlink_newest (h : s.Linked (a ++ k :: b)) : (s.unlink k).newest = (a ++ b).getLast? := by
  obtain ⟨ho, hn⟩ := h.links rfl
  have h1 := h.newest
  unfold Links.unlink
  cases b with
  | nil =>
    rw [ho, hn]
    cases hl : a.getLast? <;> simp_all [setNewer]
  | cons x b =>
    rw [ho, hn]
    cases hl : a.getLast? <;> simp_all [setOlder, setNewer, getLast?_append]

/-- What unlinking changes: the newer link of the next older key, the older link of the next newer
one. -/
theorem unlink_newer (h : s.Linked (a ++ k :: b)) (x : κ) :
    (s.unlink k).newer x = if a.getLast? = some x then b.head? else s.newer x := by
  obtain ⟨ho, hn⟩ := h.links rfl
  unfold Links.unlink
  rw [ho, hn]
  cases ha : a.getLast? with
  | none => cases b <;> rfl
  | some o =>
    have : (s.setNewer o b.head?).newer x = if some o = some x then b.head? else s.newer x := by
      by_cases hx : x = o
      · subst hx
        simp [setNewer]
      · rw [if_neg fun h' => hx (Option.some.inj h').symm]
        exact Function.update_of_ne hx _ _
    cases b <;> exact this

theorem unlink_older (h : s.Linked (a ++ k :: b)) (x : κ) :
    (s.unlink k).older x = if b.head? = some x then a.getLast? else s.older x := by
  obtain ⟨ho, hn⟩ := h.links rfl
  unfold Links.unlink
  rw [ho, hn]
  cases hb : b.head? with
  | none => cases a.getLast? <;> rfl
  | some n =>
    have : ∀ (s' : Links κ) (v : Option κ), s'.older = s.older →
        (s'.setOlder n v).older x = if some n = some x then v else s.older x := by
      intro s' v hs'
      by_cases hx : x = n
      · subst hx
        simp [setOlder]
      · rw [if_neg fun h' => hx (Option.some.inj h').symm, ← hs']
        exact Function.update_of_ne hx _ _
    cases a.getLast? <;> exact this _ _ rfl

theorem unlink (h : s.Linked (a ++ k :: b)) : (s.unlink k).Linked (a ++ b) := by
  have hnd := h.nodup
  refine ⟨hnd.sublist (List.Sublist.append_left (sublist_cons_self k b) a), h.unlink_oldest,
    h.unlink_newest, ?_⟩
  intro a' b' x hx
  rw [h.unlink_newer, h.unlink_older]
  -- `x` is older or newer than the removed key
  rcases append_eq_append_iff.1 hx with ⟨c, rfl, hb⟩ | ⟨c, ha, hb⟩
  · obtain ⟨ho, hn⟩ := h.links (a := a ++ k :: c) (b := b') (k := x) (by simp [hb])
    have hxa : a.getLast? ≠ some x := by
      intro hl
      have hmem := mem_of_getLast? hl
      rw [nodup_append] at hnd
      exact hnd.2.2 x hmem x (by simp [hb]) rfl
    rw [if_neg hxa, ho, hn]
    refine ⟨?_, rfl⟩
    cases c with
    | nil =>
      subst hb
      simp
    | cons y c =>
      have hne : b.head? ≠ some x := by
        intro hh
        rw [hb] at hh hnd
        obtain rfl : y = x := by simpa using hh
        simp [nodup_append] at hnd
      rw [if_neg hne]
      simp [getLast?_append, getLast?_cons]
  · cases c with
    | nil =>
      obtain rfl : x :: b' = b := by simpa using hb
      obtain rfl : a = a' := by simpa using ha
      obtain ⟨ho, hn⟩ := h.links (a := a ++ [k]) (b := b') (k := x) (by simp)
      have hxa : a.getLast? ≠ some x := by
        intro hl
        have hmem := mem_of_getLast? hl
        rw [nodup_append] at hnd
        exact hnd.2.2 x hmem x (by simp) rfl
      rw [if_neg hxa, hn]
      simp
    | cons y c =>
      obtain ⟨rfl, rfl⟩ : x = y ∧ b' = c ++ b := by simpa using hb
      subst ha
      obtain ⟨ho, hn⟩ := h.links (a := a') (b := c ++ k :: b) (k := x) (by simp)
      have hxb : b.head? ≠ some x := by
        intro hh
        have hmem := mem_of_head? hh
        rw [nodup_append] at hnd
        exact hnd.2.2 x (by simp) x (mem_cons_of_mem _ hmem) rfl
      rw [if_neg hxb, ho, hn]
      refine ⟨rfl, ?_⟩
      cases c with
      | nil => simp
      | cons z c =>
        have hne : (a' ++ x :: z :: c).getLast? ≠ some x := by
          intro hl
          have hmem : x ∈ z :: c := by
            rw [getLast?_append_cons, getLast?_cons_cons] at hl
            exact mem_of_getLast? hl
          have := (nodup_append.1 (nodup_append.1 hnd).1).2.1
          exact (nodup_cons.1 this).1 hmem
        rw [if_neg hne]
        rfl

theorem linkNewest_newer (h : s.Linked l) (hk : k ∉ l) (x : κ) :
    (s.linkNewest k).newer x =
      if x = k then none else if l.getLast? = some x then some k else s.newer x := by
  have hnewer : ∀ v, (((s.setOlder k s.newest).setNewer k none).setNewer v (some k)).newer x =
      if x = v then some k else if x = k then none else s.newer x := by
    intro v
    simp [setNewer, setOlder, Function.update_apply]
  unfold Links.linkNewest
  rw [h.newest]
  cases hl : l.getLast? with
  | none => simp [setNewer, setOlder, Function.update_apply]
  | some n =>
    have hne : n ≠ k := by
      rintro rfl
      exact hk (mem_of_getLast? hl)
    rw [h.newest, hl] at hnewer
    refine (hnewer n).trans ?_
    by_cases hxn : x = n
    · subst hxn
      simp [hne]
    · simp [hxn, Ne.symm hxn]

theorem linkNewest_older (h : s.Linked l) (x : κ) :
    (s.linkNewest k).older x = if x = k then l.getLast? else s.older x := by
  have holder : ∀ v, (s.setOlder k v).older x = if x = k then v else s.older x := by
    intro v
    simp [setOlder, Function.update_apply]
  unfold Links.linkNewest
  rw [h.newest]
  cases l.getLast? <;> exact holder _

theorem linkNewest (h : s.Linked l) (hk : k ∉ l) : (s.linkNewest k).Linked (l ++ [k]) := by
  have hends : (s.linkNewest k).oldest = (l ++ [k]).head? ∧ (s.linkNewest k).newest = some k := by
    have h1 := h.oldest
    unfold Links.linkNewest
    rw [h.newest]
    cases l with
    | nil => exact ⟨rfl, rfl⟩
    | cons y l =>
      cases hl : (y :: l).getLast? with
      | none => simp at hl
      | some n => exact ⟨h1, rfl⟩
  refine ⟨?_, hends.1, by rw [hends.2, getLast?_concat], ?_⟩
  · rw [nodup_append]
    refine ⟨h.nodup, nodup_singleton k, ?_⟩
    rintro x hx y hy rfl
    exact hk (mem_singleton.1 hy ▸ hx)
  · intro a b x hx
    rw [h.linkNewest_newer hk, h.linkNewest_older]
    -- `x` is the new key, or it was in the chain before
    rcases eq_nil_or_concat b with rfl | ⟨b, y, rfl⟩
    · obtain ⟨rfl, hkx⟩ := append_inj' hx rfl
      obtain rfl : k = x := by simpa using hkx
      simp
    · have hx' : l ++ [k] = (a ++ x :: b) ++ [y] := by rw [hx]; simp
      obtain ⟨rfl, hky⟩ := append_inj' hx' rfl
      obtain rfl : k = y := by simpa using hky
      obtain ⟨ho, hn⟩ := h.links rfl
      have hxk : x ≠ k := by
        rintro rfl
        exact hk (by simp)
      rw [if_neg hxk, if_neg hxk, ho, hn]
      refine ⟨rfl, ?_⟩
      cases b with
      | nil => simp
      | cons z b =>
        have hne : (a ++ x :: z :: b).getLast? ≠ some x := by
          intro hl
          rw [getLast?_append_cons, getLast?_cons_cons] at hl
          have := (nodup_append.1 h.nodup).2.1
          exact (nodup_cons.1 this).1 (mem_of_getLast? hl)
        rw [if_neg hne]
        rfl

end Update

/-! ## Following the links -/

theorem follow_newer (h : s.Linked l) : ∀ {a b : List κ}, l = a ++ b →
    ∀ n, b.length ≤ n → follow s.newer n b.head? = b
  | _, [], _, 0, _ => rfl
  | _, [], _, _ + 1, _ => rfl
  | a, k :: b, hl, n + 1, hn => by
    have hk := (h.links hl).2
    rw [head?_cons, follow, hk]
    have ih := h.follow_newer (a := a ++ [k]) (b := b) (by rw [hl]; simp) n
      (by simpa using hn)
    rw [ih]

theorem follow_older (h : s.Linked l) : ∀ (a : List κ) {b : List κ}, l = a.reverse ++ b →
    ∀ n, a.length ≤ n → follow s.older n a.head? = a
  | [], _, _, 0, _ => rfl
  | [], _, _, _ + 1, _ => rfl
  | k :: a, b, hl, n + 1, hn => by
    have hk := (h.links (a := a.reverse) (k := k) (b := b) (by rw [hl]; simp)).1
    rw [getLast?_reverse] at hk
    rw [head?_cons, follow, hk]
    have ih := h.follow_older a (b := k :: b) (by rw [hl]; simp) n (by simpa using hn)
    rw [ih]

theorem forward (h : s.Linked l) : follow s.newer l.length s.oldest = l := by
  rw [h.oldest]
  exact h.follow_newer (a := []) rfl _ (Nat.le_refl _)

/-- From the newest key on the older links list it backwards. -/
theorem backward (h : s.Linked l) : follow s.older l.length s.newest = l.reverse := by
  rw [h.newest, ← head?_reverse]
  exact h.follow_older l.reverse (b := []) (by simp) _ (by simp)

end Linked

end Links

end Cas
