import Cas.Manifest.Lookup

/-!
# Traversal of hostile pages (`tree.rs`, `tree/lookup.rs`)

Nothing here assumes that the pages of a file were written by this program. A page is checked alone,
when it is read: a branch that passes puts its children at nonzero aligned offsets below its own and
one level down. From that single step follow the bounds of every path a walk can take and of every
request a lookup can make, whatever bytes are offered to it.
-/

namespace Cas.Manifest

open List
open Except (bind_congr_right bind_eq_ok error_bind ok_bind)

/-- An offset that a view over `[0, stop)` may read a tree page at. -/
structure InView (stop offset : Nat) : Prop where
  ne_zero : offset ≠ 0
  aligned : offset % BLOCK_SIZE = 0
  below : offset < stop - BLOCK_SIZE

/-- `k` is one level below `c` in the tree and before it in the file. -/
structure Cursor.Under (k c : Cursor) : Prop where
  offset_lt : k.offset < c.offset
  level_eq : k.level + 1 = c.level

theorem Cursor.root_inView {commit : Commit} {stop : Nat} {u : Unit}
    (h : validateView commit stop = .ok u) (h0 : commit.root.offset ≠ 0) :
    InView stop (Cursor.root commit).offset := by
  have hv := (Commit.validate_eq_ok.1 (validateView_eq_ok.1 h).2).2
  rw [if_neg h0] at hv
  exact ⟨h0, hv.1.2, hv.2.1⟩

theorem rposition_lt {α : Type} {p : α → Bool} {l : List α} {i : Nat}
    (h : rposition p l = some i) : i < l.length := by
  have := mem_of_find?_eq_some h
  simpa using this

section Step

variable [Digest] {imageBytes stop : Nat} {P : PageMap} (hP : P.Decoded imageBytes) {c : Cursor}
include hP

/-- What one accepted branch says about each of its children. -/
theorem Cursor.child_under {children : List Child} (h : nodeAt P c = .ok (.branch children))
    (hv : InView stop c.offset) {i : Nat} (hi : i < children.length) :
    InView stop (c.child children i).offset ∧ (c.child children i).Under c := by
  have hlevel := (branch_of_nodeAt hP h).1.1
  obtain ⟨p, hp, hd⟩ := bind_eq_ok.1 h
  obtain ⟨b, hb⟩ := hP _ _ hp
  obtain ⟨hk, he, -⟩ := Node.read_eq_branch.1 (Node.decode_eq_ok.1 hd).2.1
  have hmem : children.getD i ⟨0, 0⟩ ∈ p.childSlots.map Child.decode := by
    rw [he, getD_eq_getElem _ _ hi]
    exact getElem_mem hi
  obtain ⟨-, ⟨hne, hal⟩, hlt⟩ := (Page.branch_of_decode hb hk).2.2.2 _ hmem
  exact ⟨⟨hne, hal, lt_trans hlt hv.below⟩, hlt, Nat.sub_add_cancel hlevel⟩

end Step

/-! ## Walking -/

namespace Tree

variable [Digest]

/-- The pages a walk reads on its way down to one page, that page first. -/
inductive Path (t : Tree) : List Cursor → Prop
  | root : t.commit.root.offset ≠ 0 → Path t [Cursor.root t.commit]
  | child {c : Cursor} {path : List Cursor} {children : List Child} {i : Nat} :
    Path t (c :: path) → t.readNode c = .ok (.branch children) → i < children.length →
      Path t (c.child children i :: c :: path)

variable {t : Tree}

/-- Everything there is to say about the pages of one path. -/
structure Descent (t : Tree) (path : List Cursor) : Prop where
  inView : ∀ c ∈ path, InView t.stop c.offset
  decreasing : path.Pairwise (·.offset < ·.offset)
  level : ∀ c ∈ path.head?, path.length + c.level = t.commit.root.height

omit [Digest] in
theorem Descent.length_le {path : List Cursor} (h : t.Descent path) :
    path.length ≤ t.commit.root.height := by
  cases path with
  | nil => exact Nat.zero_le _
  | cons c path =>
    have := h.level c rfl
    omega

theorem Path.descent {u : Unit} (hv : validateView t.commit t.stop = .ok u) {path : List Cursor}
    (h : t.Path path) : t.Descent path := by
  induction h with
  | root h0 =>
    have hh := height_pos_of_validateView hv h0
    refine ⟨?_, pairwise_singleton _ _, ?_⟩
    · intro c hc
      rw [mem_singleton.1 hc]
      exact Cursor.root_inView hv h0
    · intro c hc
      cases hc
      show 1 + (t.commit.root.height - 1) = t.commit.root.height
      omega
  | @child c path children i _ hn hi ih =>
    rw [readNode_eq] at hn
    obtain ⟨hin, hunder⟩ :=
      Cursor.child_under t.pages_decoded hn (ih.inView c mem_cons_self) hi
    refine ⟨?_, ?_, ?_⟩
    · intro d hd
      rcases mem_cons.1 hd with rfl | hd
      · exact hin
      · exact ih.inView d hd
    · refine pairwise_cons.2 ⟨fun d hd => ?_, ih.decreasing⟩
      rcases mem_cons.1 hd with rfl | hd
      · exact hunder.offset_lt
      · exact lt_trans hunder.offset_lt ((pairwise_cons.1 ih.decreasing).1 d hd)
    · intro d hd
      cases hd
      have := ih.level c rfl
      have := hunder.level_eq
      simp only [length_cons] at *
      omega

/-- A branch is never on level 0, so that the level of its children is one less. -/
theorem level_pos_of_branch {c : Cursor} {children : List Child}
    (h : t.readNode c = .ok (.branch children)) : 1 ≤ c.level := by
  rw [readNode_eq] at h
  exact (branch_of_nodeAt t.pages_decoded h).1.1

theorem visit_branch {σ : Type} {page : σ → Nat → Except IoError σ}
    {visitor : σ → Extent → Except IoError σ} {fuel : Nat} {c : Cursor} {children : List Child}
    (h : t.readNode c = .ok (.branch children)) (s : σ) :
    t.visit page visitor (fuel + 1) c s = page s c.offset >>= fun s =>
      (c.kids children).foldlM (fun s k => t.visit page visitor fuel k s) s := by
  rw [visit, h]
  rfl

theorem readNode_of_source {source : PageReader} {c : Cursor}
    (h : source c.offset = t.source c.offset) :
    Tree.readNode ⟨source, t.commit, t.stop⟩ c = t.readNode c :=
  bind_congr_right fun _ => by simp only [h]

/-- Visiting depends only on the pages of the paths through the cursor. -/
theorem visit_of_path {σ : Type} {page : σ → Nat → Except IoError σ}
    {visitor : σ → Extent → Except IoError σ} {source : PageReader}
    (hs : ∀ path, t.Path path → ∀ c ∈ path, source c.offset = t.source c.offset) {fuel : Nat} :
    ∀ {c : Cursor} {path : List Cursor} (s : σ), t.Path (c :: path) →
      Tree.visit ⟨source, t.commit, t.stop⟩ page visitor fuel c s =
        t.visit page visitor fuel c s := by
  induction fuel with
  | zero => exact fun _ _ => rfl
  | succ fuel ih =>
    intro c path s hp
    have hread := readNode_of_source (hs _ hp c mem_cons_self)
    cases hn : t.readNode c with
    | error e => rw [visit, visit, hread, hn, error_bind, error_bind]
    | ok node =>
      cases node with
      | leaf entries => rw [visit, visit, hread, hn, ok_bind, ok_bind]
      | branch children =>
        rw [visit_branch hn, visit_branch (hread.trans hn)]
        refine bind_congr_right fun s => Except.foldlM_congr fun s k hk => ?_
        obtain ⟨i, hi, rfl⟩ := mem_map.1 hk
        exact ih s (hp.child hn (mem_range.1 hi))

/-- The recursion of a visit is stopped by the levels, never by its bound. -/
theorem visit_fuel {σ : Type} {page : σ → Nat → Except IoError σ}
    {visitor : σ → Extent → Except IoError σ} :
    ∀ {fuel : Nat} {c : Cursor} (s : σ), c.level < fuel →
      t.visit page visitor fuel c s = t.visit page visitor (c.level + 1) c s
  | fuel + 1, c, s, hf => by
    cases hn : t.readNode c with
    | error e => rw [visit, visit, hn]; rfl
    | ok node =>
      cases node with
      | leaf entries => rw [visit, visit, hn]; rfl
      | branch children =>
        have hlevel := level_pos_of_branch hn
        rw [visit_branch hn, visit_branch hn]
        refine bind_congr_right fun s => Except.foldlM_congr fun s k hk => ?_
        obtain ⟨i, -, rfl⟩ := mem_map.1 hk
        have hk : (c.child children i).level + 1 = c.level := Nat.sub_add_cancel hlevel
        rw [visit_fuel s (by omega), hk]

end Tree

/-! ## Lookup -/

namespace Lookup

variable [Digest] {l : Lookup}

/-- What a lookup shows before the first and after each of the given completions. -/
def shown (l : Lookup) : List (Nat × Bytes) → List (Except IoError LookupState)
  | [] => [l.state]
  | (offset, bytes) :: rest => l.state :: (l.accept offset bytes).1.shown rest

/-- The page that a state asks for, with its level. -/
def request : Except IoError LookupState → Option (Nat × Nat)
  | .ok (.page offset level) => some (offset, level)
  | _ => none

/-- Every request of `asked` is in the view, and each is before and below the one before it. -/
structure Requests (stop offset level : Nat) (asked : List (Nat × Nat)) : Prop where
  inView : ∀ q ∈ asked, InView stop q.1
  below : ∀ q ∈ asked, q.1 < offset ∧ q.2 < level
  decreasing : asked.Pairwise fun a b => b.1 < a.1 ∧ b.2 < a.2
  length_le : asked.length ≤ level

namespace Requests

variable {stop offset level : Nat} {asked : List (Nat × Nat)}

omit [Digest] in
theorem nil : Requests stop offset level [] :=
  ⟨nofun, nofun, List.Pairwise.nil, Nat.zero_le _⟩

omit [Digest] in
theorem cons {o n : Nat} (hv : InView stop o) (ho : o < offset) (hn : n < level)
    (h : Requests stop o n asked) : Requests stop offset level ((o, n) :: asked) := by
  refine ⟨?_, ?_, pairwise_cons.2 ⟨h.below, h.decreasing⟩, ?_⟩
  · intro q hq
    rcases mem_cons.1 hq with rfl | hq
    · exact hv
    · exact h.inView q hq
  · intro q hq
    rcases mem_cons.1 hq with rfl | hq
    · exact ⟨ho, hn⟩
    · have := h.below q hq
      omega
  · have := h.length_le
    simp only [length_cons]
    omega

end Requests

/-- A cursor that a lookup follows is at an offset of its view. -/
def Safe (l : Lookup) : Prop := ∀ c, l.cursor = some c → InView l.stop c.offset

omit [Digest] in
theorem Safe.of_new {commit : Commit} {stop block : Nat} (h : Lookup.new commit stop block = .ok l) :
    l.Safe ∧ l.stop = stop ∧ ∀ c, l.cursor = some c → c.level + 1 = commit.root.height := by
  obtain ⟨u, hv, h⟩ := bind_eq_ok.1 h
  obtain ⟨-, h⟩ := require_bind_eq_ok.1 h
  cases h
  refine ⟨?_, rfl, ?_⟩
  · intro c hc
    simp only [Option.ite_none_right_eq_some, Option.some.injEq] at hc
    obtain ⟨h0, rfl⟩ := hc
    exact Cursor.root_inView hv h0
  · intro c hc
    simp only [Option.ite_none_right_eq_some, Option.some.injEq] at hc
    obtain ⟨h0, rfl⟩ := hc
    exact Nat.sub_add_cancel (height_pos_of_validateView hv h0)

omit [Digest] in
theorem state_of_none {hash : LookupState} (hc : l.cursor = none) (h : l.state = .ok hash) :
    hash = .complete l.result := by
  unfold state at h
  rw [require_bind_eq_ok, hc] at h
  exact (Except.ok.inj h.2).symm

omit [Digest] in
theorem state_of_some {c : Cursor} {shown : LookupState} (hc : l.cursor = some c)
    (h : l.state = .ok shown) : shown = .page c.offset c.level := by
  unfold state at h
  rw [require_bind_eq_ok, hc] at h
  exact (Except.ok.inj (require_bind_eq_ok.1 h.2).2).symm

omit [Digest] in
theorem state_of_failed : ∃ e, ({ l with failed := true } : Lookup).state = .error e :=
  ⟨_, rfl⟩

section Accept

variable {st : LookupState} {c : Cursor} {offset : Nat} {bytes : Bytes}

theorem accept_refused {e : IoError} (hl : l.state = .ok st) (hc : l.cursor = some c)
    (hn : l.offered c offset bytes = .error e) :
    l.accept offset bytes = ({ l with failed := true }, .error e) := by
  unfold accept
  rw [hl]
  simp only [hc, hn]

theorem accept_followed {node : Node} (hl : l.state = .ok st) (hc : l.cursor = some c)
    (hn : l.offered c offset bytes = .ok node) :
    l.accept offset bytes = (l.follow c node, (l.follow c node).state) := by
  unfold accept
  rw [hl]
  simp only [hc, hn]

end Accept

/-- The node of an offered page is the node of the page map that holds only this page. -/
theorem nodeAt_of_offered {c : Cursor} {offset : Nat} {bytes : Bytes} {node : Node}
    (h : l.offered c offset bytes = .ok node) :
    nodeAt (fun o => Page.decode bytes o l.imageBytes) c = .ok node := by
  unfold offered at h
  obtain ⟨rfl, h⟩ := require_bind_eq_ok.1 h
  exact h

/-- What a lookup follows after an accepted page is under the cursor it followed before. -/
theorem follow_under {c : Cursor} {offset : Nat} {bytes : Bytes} {node : Node}
    (h : l.offered c offset bytes = .ok node) (hv : InView l.stop c.offset) {k : Cursor}
    (hk : (l.follow c node).cursor = some k) : InView l.stop k.offset ∧ k.Under c := by
  cases node with
  | leaf entries => cases hk
  | branch children =>
    obtain ⟨i, hi, rfl⟩ := Option.map_eq_some_iff.1 hk
    exact Cursor.child_under (fun o p hp => ⟨bytes, hp⟩) (nodeAt_of_offered h) hv (rposition_lt hi)

omit [Digest] in
@[simp] theorem follow_stop (l : Lookup) (c : Cursor) (node : Node) :
    (l.follow c node).stop = l.stop := by
  cases node <;> rfl

theorem Safe.follow {c : Cursor} {offset : Nat} {bytes : Bytes} {node : Node} (h : l.Safe)
    (hc : l.cursor = some c) (hn : l.offered c offset bytes = .ok node) :
    (l.follow c node).Safe := by
  intro k hk
  rw [follow_stop]
  exact (follow_under hn (h c hc) hk).1

theorem shown_of_error {e : IoError} (h : l.state = .error e) (inputs : List (Nat × Bytes)) :
    ∀ x ∈ l.shown inputs, x = .error e := by
  induction inputs with
  | nil =>
    intro x hx
    rw [mem_singleton.1 hx, h]
  | cons input inputs ih =>
    intro x hx
    have hacc : (l.accept input.1 input.2).1 = l := by
      unfold accept
      rw [h]
    rcases mem_cons.1 hx with rfl | hx
    · exact h
    · rw [hacc] at hx
      exact ih x hx

theorem shown_of_none (h : l.cursor = none) (inputs : List (Nat × Bytes)) :
    (l.shown inputs).filterMap request = [] := by
  have hs : request l.state = none := by
    cases hl : l.state with
    | error e => rfl
    | ok st => rw [state_of_none h hl]; rfl
  induction inputs with
  | nil => rw [shown, filterMap_cons_none hs, filterMap_nil]
  | cons input inputs ih =>
    have hacc : (l.accept input.1 input.2).1 = l := by
      unfold accept
      cases l.state with
      | error e => rfl
      | ok st => simp only [h]
    rw [shown, filterMap_cons_none hs, hacc, ih]

theorem filterMap_shown_of_error {e : IoError} (h : l.state = .error e)
    (inputs : List (Nat × Bytes)) : (l.shown inputs).filterMap request = [] := by
  rw [filterMap_eq_nil_iff]
  intro x hx
  rw [shown_of_error h inputs x hx]
  rfl

/-- A lookup descends: by induction on the completions offered to it, with the cursor it waits at
bounding everything it will still ask for. -/
theorem Safe.requests (inputs : List (Nat × Bytes)) :
    ∀ {l : Lookup} {offset level : Nat}, l.Safe →
      (∀ c, l.cursor = some c → c.offset < offset ∧ c.level < level) →
      Requests l.stop offset level ((l.shown inputs).filterMap request) := by
  induction inputs with
  | nil =>
    intro l offset level h hb
    rw [shown]
    cases hl : l.state with
    | error e => exact Requests.nil
    | ok st =>
      cases hc : l.cursor with
      | none =>
        rw [state_of_none hc hl]
        exact Requests.nil
      | some c =>
        rw [state_of_some hc hl]
        exact Requests.nil.cons (h c hc) (hb c hc).1 (hb c hc).2
  | cons input inputs ih =>
    intro l offset level h hb
    cases hl : l.state with
    | error e =>
      rw [filterMap_shown_of_error hl]
      exact Requests.nil
    | ok st =>
      cases hc : l.cursor with
      | none =>
        rw [shown_of_none hc]
        exact Requests.nil
      | some c =>
        rw [shown, hl, state_of_some hc hl]
        refine Requests.cons (h c hc) (hb c hc).1 (hb c hc).2 ?_
        cases hn : l.offered c input.1 input.2 with
        | error e =>
          obtain ⟨e', he'⟩ := state_of_failed (l := l)
          rw [accept_refused hl hc hn, filterMap_shown_of_error he']
          exact Requests.nil
        | ok node =>
          rw [accept_followed hl hc hn]
          have hbound : ∀ k, (l.follow c node).cursor = some k →
              k.offset < c.offset ∧ k.level < c.level := by
            intro k hk
            have hu := (follow_under hn (h c hc) hk).2
            exact ⟨hu.offset_lt, by have := hu.level_eq; omega⟩
          have := ih (h.follow hc hn) hbound
          rwa [follow_stop] at this

/-- A page that is refused while the lookup waits for one poisons it. -/
theorem shown_of_refused {o level offset : Nat} {bytes : Bytes} {e : IoError}
    (h : l.state = .ok (.page o level)) (hr : (l.accept offset bytes).2 = .error e)
    (inputs : List (Nat × Bytes)) :
    ∀ x ∈ (l.accept offset bytes).1.shown inputs, ∃ e, x = .error e := by
  have hstate : ∃ e, (l.accept offset bytes).1.state = .error e := by
    cases hc : l.cursor with
    | none => cases state_of_none hc h
    | some c =>
      cases hn : l.offered c offset bytes with
      | error e' =>
        rw [accept_refused h hc hn]
        exact state_of_failed
      | ok node =>
        rw [accept_followed h hc hn] at hr ⊢
        exact ⟨e, hr⟩
  obtain ⟨e', he'⟩ := hstate
  exact fun x hx => ⟨e', shown_of_error he' inputs x hx⟩

theorem accept_of_unexpected {o level offset : Nat} (bytes : Bytes)
    (h : l.state = .ok (.page o level)) (hne : offset ≠ o) :
    ∃ e, (l.accept offset bytes).2 = .error e := by
  cases hc : l.cursor with
  | none => cases state_of_none hc h
  | some c =>
    obtain ⟨rfl, -⟩ := LookupState.page.inj (state_of_some hc h)
    have hn : l.offered c offset bytes =
        .error ⟨.invalidData, "manifest lookup completion offset"⟩ := by
      unfold offered require
      rw [Except.ensure_of_not hne]
      rfl
    rw [accept_refused h hc hn]
    exact ⟨_, rfl⟩

/-- The loop reads only pages of the view, and a page for each level is enough for it. -/
theorem Safe.run {source source' : PageReader} {fuel : Nat} :
    ∀ {l : Lookup} {fuel' : Nat}, l.Safe → (∀ o, InView l.stop o → source' o = source o) →
      0 < fuel → 0 < fuel' →
      (∀ c, l.cursor = some c → c.level + 1 < fuel ∧ c.level + 1 < fuel') →
      l.run source' fuel' = l.run source fuel := by
  induction fuel with
  | zero => exact fun _ _ h => absurd h (lt_irrefl 0)
  | succ fuel ih =>
    intro l fuel' h hs _ hf' hb
    obtain ⟨fuel', rfl⟩ : ∃ n, fuel' = n + 1 := ⟨fuel' - 1, by omega⟩
    rw [Lookup.run, Lookup.run]
    cases hl : l.state with
    | error e => rfl
    | ok st =>
      cases hc : l.cursor with
      | none =>
        rw [state_of_none hc hl]
        rfl
      | some c =>
        have hlt := hb c hc
        rw [state_of_some hc hl, ok_bind, ok_bind]
        simp only [hs _ (h c hc)]
        refine bind_congr_right fun bytes => ?_
        cases hn : l.offered c c.offset bytes with
        | error e => simp only [accept_refused hl hc hn]; rfl
        | ok node =>
          simp only [accept_followed hl hc hn]
          refine bind_congr_right fun _ => ?_
          refine ih (h.follow hc hn) (by rwa [follow_stop]) (by omega) (by omega) ?_
          intro k hk
          have := (follow_under hn (h c hc) hk).2.level_eq
          omega

end Lookup

/-! ## Safety of the whole traversal -/

/-- Traversal of an accepted view over arbitrary pages. A walk reads only pages that lie on a path,
a path has at most one page for each level of the root, and its offsets are nonzero, aligned, below
COMMIT and strictly decreasing. Branches are above level 0, so no level underflows, and neither
bound on the recursion is ever what ends it. The same holds for all that a lookup asks for, under any
completions, and a lookup that refuses a page it waited for shows only errors from then on. -/
theorem traversal_safe [Digest] {commit : Commit} {stop : Nat} {u : Unit}
    (hv : validateView commit stop = .ok u) :
    (∀ source, let t : Tree := ⟨source, commit, stop⟩
      (∀ path, t.Path path → (∀ c ∈ path, InView stop c.offset) ∧
        path.Pairwise (·.offset < ·.offset) ∧ path.length ≤ commit.root.height) ∧
      (∀ c children, t.readNode c = .ok (.branch children) → 1 ≤ c.level) ∧
      ∀ (σ : Type) (page : σ → Nat → Except IoError σ) (visitor : σ → Extent → Except IoError σ)
        (s : σ),
        (∀ source', (∀ path, t.Path path → ∀ c ∈ path, source' c.offset = source c.offset) →
          Tree.walkPages ⟨source', commit, stop⟩ page visitor s = t.walkPages page visitor s) ∧
        (commit.root.offset ≠ 0 → ∀ fuel ≥ commit.root.height,
          t.visit page visitor fuel (Cursor.root commit) s = t.walkPages page visitor s)) ∧
    (∀ block l, Lookup.new commit stop block = .ok l →
      (∀ inputs, Lookup.Requests stop (stop - BLOCK_SIZE) commit.root.height
        ((l.shown inputs).filterMap Lookup.request)) ∧
      ∀ source source', (∀ o, InView stop o → source' o = source o) →
        ∀ fuel > commit.root.height,
          l.run source' fuel = l.run source (commit.root.height + 1)) ∧
    ∀ (l : Lookup) (o level offset : Nat) (bytes : Bytes), l.state = .ok (.page o level) →
      (offset ≠ o → ∃ e, (l.accept offset bytes).2 = .error e) ∧
      ∀ e, (l.accept offset bytes).2 = .error e →
        ∀ inputs, ∀ x ∈ (l.accept offset bytes).1.shown inputs, ∃ e, x = .error e := by
  refine ⟨fun source => ⟨?_, ?_, ?_⟩, ?_, ?_⟩
  · intro path hp
    have hd := hp.descent hv
    exact ⟨hd.inView, hd.decreasing, hd.length_le⟩
  · exact fun c children h => Tree.level_pos_of_branch h
  · intro σ page visitor s
    constructor
    · intro source' hs
      unfold Tree.walkPages
      by_cases h0 : commit.root.offset ≠ 0
      · rw [if_pos h0, if_pos h0]
        exact Tree.visit_of_path (t := ⟨source, commit, stop⟩) hs s (.root h0)
      · rw [if_neg h0, if_neg h0]
    · intro h0 fuel hf
      have hh := height_pos_of_validateView hv h0
      rw [Tree.walkPages, if_pos h0]
      exact Tree.visit_fuel s (by simp only [Cursor.root]; omega)
  · intro block l hl
    obtain ⟨hsafe, hstop, hlevel⟩ := Lookup.Safe.of_new hl
    constructor
    · intro inputs
      rw [← hstop]
      refine hsafe.requests inputs fun c hc => ⟨(hsafe c hc).below, ?_⟩
      have := hlevel c hc
      omega
    · intro source source' hs fuel hf
      refine hsafe.run (by rwa [hstop]) (Nat.succ_pos _) (by omega) fun c hc => ?_
      have := hlevel c hc
      omega
  · intro l o level offset bytes hl
    exact ⟨fun hne => Lookup.accept_of_unexpected bytes hl hne,
      fun e he inputs => Lookup.shown_of_refused hl he inputs⟩

/-- A view whose root is a leaf is asked for one page, whatever is offered. -/
theorem traversal_safe_leaf : let _ := nullDigest
    validateView sampleCommit (3 * BLOCK_SIZE) = .ok () ∧
      ∃ l, Lookup.new sampleCommit (3 * BLOCK_SIZE) 2 = .ok l ∧ l.state = .ok (.page BLOCK_SIZE 0) ∧
        ∀ inputs, ((l.shown inputs).filterMap Lookup.request).length ≤ 1 := by
  let _ := nullDigest
  have hv : validateView sampleCommit (3 * BLOCK_SIZE) = .ok () :=
    validateView_eq_ok.2 ⟨by decide, Commit.validate_eq_ok.2 ⟨by decide, by decide⟩⟩
  have hl : Lookup.new sampleCommit (3 * BLOCK_SIZE) 2 =
      .ok ⟨3 * BLOCK_SIZE, 3 * BLOCK_SIZE, 2, some (Cursor.root sampleCommit), none, false⟩ :=
    Except.bind_eq_ok.2 ⟨(), hv, require_bind_eq_ok.2 ⟨by decide, rfl⟩⟩
  exact ⟨hv, _, hl, rfl, fun inputs => (((traversal_safe hv).2.1 2 _ hl).1 inputs).length_le⟩

end Cas.Manifest
