import Cas.Manifest.Encode

/-!
# Lookup reads what the tree holds

One descent follows, at every branch, the last child that starts at or before the block. In a tree
that walks this is the only child that can hold the block, so the descent ends with the hash of the
extent that covers the block, or with a hole.
-/

namespace Cas.Manifest

open List
open Except (bind_eq_ok ok_bind)

/-! ## The last child at or before a block -/

theorem rposition_cons {α : Type} (p : α → Bool) (a : α) (l : List α) :
    rposition p (a :: l) =
      match rposition p l with
      | some i => some (i + 1)
      | none => if p a then some 0 else none := by
  unfold rposition
  rw [length_cons, range_succ_eq_map, reverse_cons, find?_append,
    ← map_reverse, find?_map]
  have : (fun i => ((a :: l)[i]?).any p) ∘ Nat.succ = fun i => (l[i]?).any p := by
    funext i
    simp
  rw [this]
  cases (range l.length).reverse.find? fun i => (l[i]?).any p with
  | none => cases h : p a <;> simp [h]
  | some i => simp

theorem rposition_some {α : Type} {p : α → Bool} {l : List α} {i : Nat}
    (h : rposition p l = some i) : ∃ a ∈ l, p a = true := by
  have := find?_some h
  cases hl : l[i]? with
  | none => simp [hl] at this
  | some a => exact ⟨a, mem_of_getElem? hl, by simpa [hl] using this⟩

section Route

variable {W : Cursor → List Extent → Prop} {level upper : Nat}

theorem Good.ordered_minimum {c : Cursor} {es : List Extent} (h : Good c es) {m : Nat}
    (hm : c.minimum = some m) : Interval.Ordered m c.upper es := by
  have hmin := h.minimum m hm
  have ho := h.ordered
  cases es with
  | nil => trivial
  | cons e es =>
    simp only [head?_cons, Option.map_some, Option.some.injEq] at hmin
    exact ⟨le_of_eq hmin.symm, ho.2⟩

/-- Only the last child that starts at or before a block can hold it. -/
theorem Forest.route (hW : ∀ c es, W c es → Good c es) (block : Nat) :
    ∀ {lower : Nat} {cs : List Child} {es : List Extent}, lower ≤ upper →
      Forest W level lower upper cs es →
      match rposition (fun child => decide (child.start ≤ block)) cs with
      | none => Interval.lookup es block = none
      | some i => ∃ k a, (kidsFrom level lower upper cs)[i]? = some k ∧ W k a ∧
          Interval.lookup es block = Interval.lookup a block
  | _, [], _, _, h => by
    cases h
    rfl
  | lower, c :: cs, _, hl, ⟨h1, h2, a, b, h3, h4, h5⟩ => by
    subst h3
    have hn := h5.nextStart_le
    have ih := h5.route hW block hn
    have ha := hW _ _ h4
    rw [rposition_cons, Interval.lookup_append]
    cases hr : rposition (fun child => decide (child.start ≤ block)) cs with
    | some i =>
      rw [hr] at ih
      obtain ⟨k, x, hk, hx, hlook⟩ := ih
      obtain ⟨d, hd, hle⟩ := rposition_some hr
      have hge := (h5.bounds d hd).1
      simp only [decide_eq_true_eq] at hle
      have hnone : Interval.lookup a block = none := ha.ordered.lookup_outside (Or.inr (by simp; omega))
      exact ⟨k, x, by rw [kidsFrom, getElem?_cons_succ, hk], hx, by
        rw [hnone, Option.none_or, hlook]⟩
    | none =>
      rw [hr] at ih
      rw [ih, Option.or_none]
      by_cases hc : c.start ≤ block
      · simp only [hc, decide_true, if_true]
        exact ⟨_, a, rfl, h4, rfl⟩
      · simp only [hc, decide_false]
        exact (ha.ordered_minimum rfl).lookup_outside (Or.inl (by omega))

end Route

/-! ## The descent -/

theorem find?_bind_hash (es : List Extent) (block : Nat) :
    (es.find? fun e => decide (e.start ≤ block ∧ block < e.stop)).bind Extent.hash =
      (Interval.lookup es block).join := by
  induction es with
  | nil => rfl
  | cons e es ih =>
    rw [find?_cons, Interval.lookup_cons]
    by_cases h : Interval.Covers e block
    · rw [if_pos h]
      simp only [show decide (e.start ≤ block ∧ block < e.stop) = true from decide_eq_true h]
      rfl
    · rw [if_neg h]
      simp only [show decide (e.start ≤ block ∧ block < e.stop) = false from decide_eq_false h]
      exact ih

variable {c : Cursor}

theorem Cursor.child_of_kidsFrom {k : Cursor} {cs : List Child} {i : Nat}
    (h : (kidsFrom (c.level - 1) c.lower c.upper cs)[i]? = some k) : c.child cs i = k := by
  rw [← Cursor.kids_eq, kids, getElem?_map] at h
  obtain ⟨j, hj, hk⟩ := Option.map_eq_some_iff.1 h
  rw [List.getElem?_range (by simpa using (List.getElem?_eq_some_iff.1 hj).1)] at hj
  rw [Option.some.inj hj, hk]

variable [Digest]

variable {t : Tree}

/-- Accepting the page of the current cursor follows its node. -/
theorem Lookup.accept_of_nodeAt {l : Lookup} {node : Node}
    (hi : l.imageBytes = t.commit.imageBytes) (hs : l.stop = t.stop) (hc : l.cursor = some c)
    (hf : l.failed = false) (h : nodeAt t.pages c = .ok node) :
    l.state = .ok (.page c.offset c.level) ∧
      ∃ bytes, t.source c.offset = .ok bytes ∧
        l.accept c.offset bytes = (l.follow c node, (l.follow c node).state) := by
  obtain ⟨p, hp, hd⟩ := bind_eq_ok.1 h
  obtain ⟨hlt, bytes, hb, hpd⟩ := Tree.pages_eq_ok.1 hp
  have hstate : l.state = .ok (.page c.offset c.level) := by
    unfold state requireBeforeCommit
    rw [require_bind_eq_ok, hc]
    simp only [require_bind_eq_ok]
    exact ⟨hf, by rw [hs]; exact hlt, rfl⟩
  have hnode : l.offered c c.offset bytes = .ok node := by
    unfold offered
    rw [require_bind_eq_ok, bind_eq_ok]
    exact ⟨rfl, p, by rw [hi]; exact hpd, hd⟩
  refine ⟨hstate, bytes, hb, ?_⟩
  unfold accept
  rw [hstate]
  simp only [hc, hnode]

theorem Lookup.run_step {l : Lookup} {node : Node} {st : LookupState}
    (fuel : Nat) (hi : l.imageBytes = t.commit.imageBytes) (hs : l.stop = t.stop)
    (hc : l.cursor = some c) (hf : l.failed = false) (h : nodeAt t.pages c = .ok node)
    (hst : (l.follow c node).state = .ok st) :
    Lookup.run t.source (fuel + 1) l = Lookup.run t.source fuel (l.follow c node) := by
  obtain ⟨hstate, bytes, hb, hacc⟩ := accept_of_nodeAt hi hs hc hf h
  rw [run, hstate, ok_bind]
  simp only [hb, ok_bind, hacc, hst]

variable {block : Nat}

/-- The descent from a cursor returns what the subtree holds at the block. -/
theorem Lookup.run_of_holds {n : Nat} :
    ∀ {fuel : Nat} {c : Cursor} {es : List Extent}, n + 1 < fuel → Holds t.pages n c es →
      Lookup.run t.source fuel ⟨t.commit.imageBytes, t.stop, block, some c, none, false⟩ =
        .ok (Interval.lookup es block).join := by
  induction n with
  | zero =>
    rintro fuel c es hn ⟨-, h⟩
    obtain ⟨fuel, rfl⟩ : ∃ k, fuel = k + 2 := ⟨fuel - 2, by omega⟩
    rw [run_step (fuel + 1) rfl rfl rfl rfl h rfl, ← find?_bind_hash]
    rfl
  | succ n ih =>
    rintro fuel c es hn ⟨hl, cs, h, hf⟩
    obtain ⟨fuel, rfl⟩ : ∃ k, fuel = k + 2 := ⟨fuel - 2, by omega⟩
    have hb := branch_of_nodeAt t.pages_decoded h
    have hle : c.lower ≤ c.upper := by
      cases cs with
      | nil => exact (hb.2.1 rfl).elim
      | cons d ds =>
        have := hb.2.2.2.1 d (by simp)
        omega
    have hroute := hf.route (fun c es hc => hc.good t.pages_decoded) block hle
    cases hr : rposition (fun child => decide (child.start ≤ block)) cs with
    | none =>
      rw [hr] at hroute
      have hfollow : Lookup.follow ⟨t.commit.imageBytes, t.stop, block, some c, none, false⟩ c
          (.branch cs) = ⟨t.commit.imageBytes, t.stop, block, none, none, false⟩ := by
        simp [follow, hr]
      rw [run_step (fuel + 1) rfl rfl rfl rfl h (by rw [hfollow]; rfl), hfollow, hroute]
      rfl
    | some i =>
      rw [hr] at hroute
      obtain ⟨k, a, hk, hka, hlook⟩ := hroute
      have hchild : c.child cs i = k := Cursor.child_of_kidsFrom (by rw [hl]; exact hk)
      have hfollow : Lookup.follow ⟨t.commit.imageBytes, t.stop, block, some c, none, false⟩ c
          (.branch cs) = ⟨t.commit.imageBytes, t.stop, block, some k, none, false⟩ := by
        simp [follow, hr, hchild]
      obtain ⟨node, hnode⟩ := hka.nodeAt
      have hstate := (accept_of_nodeAt
        (l := ⟨t.commit.imageBytes, t.stop, block, some k, none, false⟩) rfl rfl rfl rfl hnode).1
      rw [run_step (fuel + 1) rfl rfl rfl rfl h (by rw [hfollow]; exact hstate), hfollow, hlook]
      exact ih (by omega) hka

omit [Digest] in
theorem Lookup.new_eq_ok {commit : Commit} {stop : Nat}
    (hv : validateView commit stop = .ok ()) (hb : block < commit.imageBytes / BLOCK_SIZE) :
    Lookup.new commit stop block = .ok ⟨commit.imageBytes, stop, block,
      if commit.root.offset ≠ 0 then some (Cursor.root commit) else none, none, false⟩ :=
  bind_eq_ok.2 ⟨(), hv, require_bind_eq_ok.2 ⟨hb, rfl⟩⟩

variable {es : List Extent}

/-- `get` on a view that walks. -/
theorem Tree.get_of_holdsAll (h : t.HoldsAll es)
    (hv : validateView t.commit t.stop = .ok ())
    (hb : block < t.commit.imageBytes / BLOCK_SIZE) :
    t.get block = .ok (Interval.lookup es block).join := by
  rw [get, Lookup.new_eq_ok hv hb, ok_bind]
  unfold HoldsAll at h
  by_cases h0 : t.commit.root.offset = 0
  · rw [if_pos h0] at h
    rw [if_neg (by simpa using h0), h]
    rfl
  · have hh := height_pos_of_validateView hv h0
    rw [if_neg h0] at h
    rw [if_pos h0]
    exact Lookup.run_of_holds (by omega) h

theorem Tree.get_outside (hv : validateView t.commit t.stop = .ok ())
    (hb : ¬ block < t.commit.imageBytes / BLOCK_SIZE) :
    t.get block = .error ⟨.invalidData, "manifest lookup outside image"⟩ := by
  unfold get Lookup.new
  rw [hv, ok_bind, require, Except.ensure_of_not hb]
  rfl

/-! ## Lookup and walk -/

/-- The extents that `walk` hands to its visitor. -/
def Tree.visited (t : Tree) : Except IoError (List Extent) := t.walk (fun es e => .ok (es ++ [e])) []

omit [Digest] in
theorem foldlM_push (es : List Extent) : ∀ acc : List Extent,
    es.foldlM (fun es e => (.ok (es ++ [e]) : Except IoError _)) acc = .ok (acc ++ es) := by
  induction es with
  | nil => intro acc; simp [pure, Except.pure]
  | cons e es ih =>
    intro acc
    rw [foldlM_cons, ok_bind, ih, append_assoc, singleton_append]

theorem Tree.visited_eq_ok : t.visited = .ok es ↔ t.HoldsAll es := by
  constructor
  · intro h
    obtain ⟨es', hes⟩ := holdsAll_of_walkPages h
    rw [visited, walk_of_holdsAll hes, foldlM_push, nil_append] at h
    cases h
    exact hes
  · intro h
    rw [visited, walk_of_holdsAll h, foldlM_push, nil_append]

theorem Tree.HoldsAll.ordered (h : t.HoldsAll es) :
    Interval.Ordered 0 (t.commit.imageBytes / BLOCK_SIZE) es := by
  unfold HoldsAll at h
  split at h
  · rw [h]
    trivial
  · exact (h.good t.pages_decoded).ordered

/-- **Lookup agrees with walk.** Where a view walks, it visits increasing disjoint extents inside the
image, and `get` returns for each block the hash of the extent that contains it, or a hole. -/
theorem Tree.get_agrees_walk {source : PageReader} {commit : Commit} {stop : Nat} {t : Tree}
    {es : List Extent} (hnew : Tree.new source commit stop = .ok t) (hwalk : t.visited = .ok es) :
    es.Pairwise (fun a b => a.start < b.start ∧ a.stop ≤ b.start) ∧
      (∀ e ∈ es, e.start < e.stop ∧ e.stop ≤ commit.imageBytes / BLOCK_SIZE) ∧
      ∀ block < commit.imageBytes / BLOCK_SIZE,
        (∀ e ∈ es, e.start ≤ block → block < e.stop → t.get block = .ok e.hash) ∧
        ((∀ e ∈ es, ¬ (e.start ≤ block ∧ block < e.stop)) → t.get block = .ok none) := by
  obtain ⟨u, hv, h⟩ := Except.bind_eq_ok.1 hnew
  cases h
  have hholds := Tree.visited_eq_ok.1 hwalk
  have hord := hholds.ordered
  refine ⟨?_, fun e he => ?_, fun block hb => ⟨fun e he h1 h2 => ?_, fun hnone => ?_⟩⟩
  · exact hord.pairwise.and hord.disjoint
  · exact (hord.mem e he).2
  · rw [Tree.get_of_holdsAll hholds hv hb, hord.lookup_of_mem ⟨h1, h2⟩ he]
    rfl
  · rw [Tree.get_of_holdsAll hholds hv hb, Interval.lookup_eq_none hnone]
    rfl

/-- A chunk and a ZERO range in an image of three blocks. -/
def sampleExtents : List Extent := [⟨0, 1, some (.zero 32)⟩, ⟨1, 3, none⟩]

/-- The COMMIT of a tree whose root is a leaf at the first page. -/
def sampleCommit : Commit where
  store := ⟨List.replicate 16 1, rfl⟩
  image := ⟨List.replicate 16 2, rfl⟩
  generation := 1
  root := ⟨BLOCK_SIZE, 1⟩
  durable := 0
  imageBytes := 3 * BLOCK_SIZE

omit [Digest] in
theorem sample_holds : let _ := nullDigest
    ∃ source, Tree.new source sampleCommit (3 * BLOCK_SIZE) =
        .ok ⟨source, sampleCommit, 3 * BLOCK_SIZE⟩ ∧
      (Tree.mk source sampleCommit (3 * BLOCK_SIZE)).HoldsAll sampleExtents := by
  let _ := nullDigest
  obtain ⟨b, hb⟩ := leafInto_ok (show BLOCK_SIZE < U64 by decide) (by decide)
    (show sampleCommit.imageBytes ≠ 0 ∧ sampleCommit.imageBytes % BLOCK_SIZE = 0 by decide)
    (by decide) (show sampleExtents ≠ [] by decide) (by decide)
    (show Interval.Ordered 0 (sampleCommit.imageBytes / BLOCK_SIZE) sampleExtents from
      ⟨by decide, by decide, by decide, by decide, by decide, by decide, trivial⟩) (by decide)
  obtain ⟨p, hp, hk, hl, he⟩ := leafInto_eq_ok (by decide) hb
  have hview : validateView sampleCommit (3 * BLOCK_SIZE) = .ok () :=
    validateView_eq_ok.2 ⟨by decide, Commit.validate_eq_ok.2 ⟨by decide, by decide⟩⟩
  have hpage : (Tree.mk (fun _ => .ok b) sampleCommit (3 * BLOCK_SIZE)).pages BLOCK_SIZE = .ok p :=
    Tree.pages_eq_ok.2 ⟨show BLOCK_SIZE < 3 * BLOCK_SIZE - BLOCK_SIZE by decide, b, rfl, hp⟩
  refine ⟨fun _ => .ok b, bind_eq_ok.2 ⟨(), hview, rfl⟩, ?_⟩
  unfold Tree.HoldsAll
  rw [if_neg (show sampleCommit.root.offset ≠ 0 by decide)]
  exact ⟨rfl, nodeAt_eq_leaf hpage hk hl he (show ∀ e ∈ sampleExtents,
    e.start ≥ (Cursor.root sampleCommit).lower ∧ e.stop ≤ (Cursor.root sampleCommit).upper by decide)
    nofun⟩

omit [Digest] in
theorem Tree.get_agrees_walk_leaf : let _ := nullDigest
    ∃ (source : PageReader) (t : Tree), Tree.new source sampleCommit (3 * BLOCK_SIZE) = .ok t ∧
      t.visited = .ok sampleExtents ∧ t.get 0 = .ok (some (.zero 32)) ∧ t.get 2 = .ok none := by
  let _ := nullDigest
  obtain ⟨source, hnew, hholds⟩ := sample_holds
  have hvisited := Tree.visited_eq_ok.2 hholds
  obtain ⟨-, -, hget⟩ := Tree.get_agrees_walk hnew hvisited
  refine ⟨source, _, hnew, hvisited, ?_, ?_⟩
  · exact (hget 0 (by decide)).1 ⟨0, 1, some (.zero 32)⟩ (by decide) (by decide) (by decide)
  · exact (hget 2 (by decide)).1 ⟨1, 3, none⟩ (by decide) (by decide) (by decide)

end Cas.Manifest
