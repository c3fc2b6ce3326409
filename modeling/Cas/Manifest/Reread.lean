import Cas.Manifest.Total

/-!
# Page reads that fail

A page source may fail to read a page again that it read during an earlier walk. The editor gives up
on the first failed read (`Prepared.build_follows`), so up to there it does what it does over a source
that never fails.
-/

namespace Cas.Manifest

open Except (Follows)

/-- A read of the source failed with this error. -/
def SourceError (source : PageReader) (e : IoError) : Prop := ∃ o, source o = .error e

/-- The same view over another source. -/
def Tree.reread (t : Tree) (source : PageReader) : Tree := { t with source }

namespace Editor

/-- The same draft over another source. -/
def reread (e : Editor) (source : PageReader) : Editor := { e with tree := e.tree.reread source }

section Follows

variable {source flaky : PageReader} (hflaky : ∀ o b, flaky o = .ok b → source o = .ok b)

/-- The same draft, over the flaky source. -/
def Rereads (source flaky : PageReader) (e' e : Editor) : Prop :=
  e.tree.source = source ∧ e' = e.reread flaky

/-- The same links and the same draft, over the flaky source. -/
def RereadsLinks (source flaky : PageReader) (s' s : List Child × Editor) : Prop :=
  s'.1 = s.1 ∧ Rereads source flaky s'.2 s.2

variable {e e' : Editor}

theorem writePart_follows (h : Rereads source flaky e' e) (links : List Child)
    (write : Nat → Except IoError Bytes) (start : Nat) :
    Follows (SourceError flaky) (RereadsLinks source flaky) (e'.writePart links write start)
      (e.writePart links write start) := by
  obtain ⟨hs, rfl⟩ := h
  refine (Follows.of_eq (x := pushZeroed e.limit e.buffer) rfl).bind fun _ _ _ => ?_
  refine (Follows.of_eq (x := write e.nextOffset) rfl).bind ?_
  rintro page _ rfl
  refine (Follows.of_eq (x := tryPush 2 links ⟨start, e.nextOffset⟩) rfl).bind ?_
  rintro links' _ rfl
  exact .ok ⟨rfl, hs, rfl⟩

theorem writeParts_follows {α : Type} (h : Rereads source flaky e' e)
    (capacity : Nat) (start : α → Nat) (write : Nat → List α → Except IoError Bytes)
    (entries : List α) :
    Follows (SourceError flaky) (RereadsLinks source flaky)
      (e'.writeParts capacity start write entries) (e.writeParts capacity start write entries) := by
  refine Follows.foldlM (fun s s' part hs => ?_) _ ⟨rfl, h⟩
  obtain ⟨links, e₁⟩ := s
  obtain ⟨links', e₁'⟩ := s'
  obtain ⟨rfl, hs⟩ := hs
  exact writePart_follows hs _ _ _

variable [Digest]

include hflaky in
theorem read_follows (h : Rereads source flaky e' e) (c : Cursor) :
    Follows (SourceError flaky) Eq (e'.read c) (e.read c) := by
  obtain ⟨hs, rfl⟩ := h
  unfold read
  by_cases hc : c.offset < e.tree.stop
  · rw [if_pos hc, if_pos (show c.offset < (e.reread flaky).tree.stop from hc)]
    refine (Follows.of_eq rfl).bind fun _ _ _ => ?_
    have hsource : Follows (SourceError flaky) Eq (flaky c.offset) (e.tree.source c.offset) := by
      cases hf : flaky c.offset with
      | error err => exact .stopped _ ⟨_, hf⟩
      | ok b =>
        rw [hs, hflaky _ _ hf]
        exact .ok rfl
    refine hsource.bind ?_
    rintro b _ rfl
    exact .of_eq rfl
  · rw [if_neg hc, if_neg (show ¬ c.offset < (e.reread flaky).tree.stop from hc)]
    exact .of_eq rfl

theorem leaves_follows (h : Rereads source flaky e' e) (entries : List Extent) :
    Follows (SourceError flaky) (RereadsLinks source flaky) (e'.leaves entries) (e.leaves entries) := by
  have hw := writeParts_follows h LEAF_CAPACITY Extent.start
    (fun offset part => leafInto offset e.imageBytes part) entries
  obtain ⟨hs, rfl⟩ := h
  exact hw

theorem branches_follows (h : Rereads source flaky e' e) (level : Nat)
    (children : List Child) :
    Follows (SourceError flaky) (RereadsLinks source flaky) (e'.branches level children)
      (e.branches level children) := by
  have hw := writeParts_follows h BRANCH_CAPACITY Child.start
    (fun offset part => branchInto offset e.imageBytes level part) children
  obtain ⟨hs, rfl⟩ := h
  exact hw

include hflaky in
theorem modifyChild_follows {edit : Extent}
    {modify : Editor → Node → Cursor → Except IoError (List Child × Editor)}
    (hmodify : ∀ e' e node c, Rereads source flaky e' e →
      Follows (SourceError flaky) (RereadsLinks source flaky) (modify e' node c) (modify e node c))
    (s' s : List Child × Editor) (next : Child × Cursor) (h : RereadsLinks source flaky s' s) :
    Follows (SourceError flaky) (RereadsLinks source flaky) (modifyChild edit modify s' next)
      (modifyChild edit modify s next) := by
  obtain ⟨links', e'⟩ := s'
  obtain ⟨links, e⟩ := s
  obtain ⟨rfl, h⟩ := h
  unfold modifyChild
  split
  · refine (Follows.of_eq rfl).bind ?_
    rintro children _ rfl
    exact .ok ⟨rfl, h⟩
  · split
    · exact .ok ⟨rfl, h⟩
    · refine (read_follows hflaky h next.2).bind ?_
      rintro node _ rfl
      refine (hmodify e' e node next.2 h).bind ?_
      rintro ⟨replacement', e₁'⟩ ⟨replacement, e₁⟩ ⟨hr, h₁⟩
      simp only at hr h₁
      subst hr
      refine (Follows.of_eq rfl).bind ?_
      rintro children _ rfl
      exact .ok ⟨rfl, h₁⟩

include hflaky in
theorem modify_follows (edit : Extent) : ∀ (fuel : Nat) (e' e : Editor) (node : Node) (c : Cursor),
    Rereads source flaky e' e →
    Follows (SourceError flaky) (RereadsLinks source flaky) (modify edit fuel e' node c)
      (modify edit fuel e node c)
  | 0, _, _, _, _, _ => .error _
  | fuel + 1, e', e, .leaf original, c, h => by
    refine (Follows.of_eq (x := leafEntries original edit) rfl).bind ?_
    rintro entries _ rfl
    split
    · exact .ok ⟨rfl, h⟩
    · exact leaves_follows h entries
  | fuel + 1, e', e, .branch original, c, h => by
    refine (Follows.foldlM (fun s' s next hs =>
      modifyChild_follows hflaky (modify_follows edit fuel) s' s next hs)
      (original.zip (c.kids original)) (s := ([], e')) (t := ([], e)) ⟨rfl, h⟩).bind ?_
    rintro ⟨children', e₁'⟩ ⟨children, e₁⟩ ⟨hc, h₁⟩
    simp only at hc h₁
    subst hc
    dsimp only
    split
    · exact .ok ⟨rfl, h₁⟩
    · exact branches_follows h₁ c.level children'

omit [Digest] in
theorem Rereads.withRoot (h : Rereads source flaky e' e) (root : Root) :
    Rereads source flaky { e' with root := root } { e with root := root } := by
  obtain ⟨hs, rfl⟩ := h
  exact ⟨hs, rfl⟩

omit [Digest] in
theorem Rereads.root_eq (h : Rereads source flaky e' e) : e'.root = e.root := by
  rw [h.2]
  rfl

theorem regrow_follows (h : Rereads source flaky e' e) (links : List Child) :
    Follows (SourceError flaky) (Rereads source flaky) (e'.regrow links) (e.regrow links) := by
  unfold regrow
  rw [h.root_eq]
  split
  · exact .ok (h.withRoot _)
  · exact .ok (h.withRoot _)
  · refine (Follows.of_eq rfl).bind fun _ _ _ => ?_
    refine (branches_follows h _ _).bind ?_
    rintro ⟨top', e₁'⟩ ⟨top, e₁⟩ ⟨ht, h₁⟩
    simp only at ht h₁
    subst ht
    dsimp only
    rw [show e₁'.root.height = e₁.root.height by rw [h₁.root_eq]]
    exact .ok (h₁.withRoot _)

include hflaky in
theorem collapse_follows : ∀ (fuel : Nat) {e e' : Editor}, Rereads source flaky e' e →
    Follows (SourceError flaky) (Rereads source flaky) (collapse fuel e') (collapse fuel e)
  | 0, _, _, h => .ok h
  | fuel + 1, e, e', h => by
    unfold collapse
    rw [h.root_eq]
    split
    · have hc : e'.rootCursor = e.rootCursor := by
        rw [h.2]
        rfl
      rw [hc]
      refine (read_follows hflaky h e.rootCursor).bind ?_
      rintro node _ rfl
      cases node with
      | leaf entries => exact .error _
      | branch children =>
        dsimp only
        split
        · exact collapse_follows fuel (h.withRoot _)
        · exact .ok h
    · exact .ok h

include hflaky in
theorem apply_follows (h : Rereads source flaky e' e) (edit : Extent) :
    Follows (SourceError flaky) (Rereads source flaky) (e'.apply edit) (e.apply edit) := by
  have himage : e'.imageBytes = e.imageBytes := by
    rw [h.2]
    rfl
  have hc : e'.rootCursor = e.rootCursor := by
    rw [h.2]
    rfl
  unfold apply
  rw [himage, h.root_eq, hc]
  split
  · exact .ok (h.withRoot _)
  · split
    · split
      · refine (leaves_follows h _).bind ?_
        rintro ⟨links', e₁'⟩ ⟨links, e₁⟩ ⟨hl, h₁⟩
        simp only at hl h₁
        subst hl
        exact .ok (h₁.withRoot _)
      · exact .ok h
    · refine (read_follows hflaky h e.rootCursor).bind ?_
      rintro node _ rfl
      refine (modify_follows hflaky edit _ e' e node _ h).bind ?_
      rintro ⟨links', e₁'⟩ ⟨links, e₁⟩ ⟨hl, h₁⟩
      simp only at hl h₁
      subst hl
      refine (regrow_follows h₁ links').bind fun e₂' e₂ h₂ => ?_
      rw [h₂.root_eq]
      exact collapse_follows hflaky _ h₂

include hflaky in
theorem applyBounded_follows (s' s : Editor × Nat) (edit : Extent)
    (h : Rereads source flaky s'.1 s.1 ∧ s'.2 = s.2) :
    Follows (SourceError flaky) (fun s' s => Rereads source flaky s'.1 s.1 ∧ s'.2 = s.2)
      (applyBounded s' edit) (applyBounded s edit) := by
  obtain ⟨e', m'⟩ := s'
  obtain ⟨e, m⟩ := s
  obtain ⟨h, rfl⟩ := h
  simp only at h
  have hbuf : e'.buffer = e.buffer := by
    rw [h.2]
    rfl
  unfold applyBounded
  dsimp only
  rw [h.root_eq, hbuf]
  refine (apply_follows hflaky h edit).bind fun e₁' e₁ h₁ => ?_
  have hbuf₁ : e₁'.buffer = e₁.buffer := by
    rw [h₁.2]
    rfl
  rw [hbuf₁]
  exact (Follows.of_eq rfl).bind fun _ _ _ => .ok ⟨h₁, rfl⟩

include hflaky in
theorem emit_follows (h : Rereads source flaky e' e) :
    ∀ (fuel : Nat) (c : Cursor) (output : List Bytes),
      Follows (SourceError flaky) Eq (e'.emit fuel c output) (e.emit fuel c output)
  | 0, _, _ => .error _
  | fuel + 1, c, output => by
    have hread := read_follows hflaky h c
    have ih := emit_follows h fuel
    obtain ⟨hs, rfl⟩ := h
    unfold emit
    by_cases hc : c.offset < e.tree.stop
    · rw [if_pos hc, if_pos (show c.offset < (e.reread flaky).tree.stop from hc)]
      exact .ok rfl
    · rw [if_neg hc, if_neg (show ¬ c.offset < (e.reread flaky).tree.stop from hc)]
      refine hread.bind ?_
      rintro node _ rfl
      cases node with
      | leaf entries => exact .of_eq rfl
      | branch children =>
        refine (Follows.foldlM (r := Eq) ?_ _ rfl).bind ?_
        · rintro s _ next rfl
          refine (ih next.2 s.2).bind ?_
          rintro x _ rfl
          exact .ok rfl
        · rintro x _ rfl
          exact .of_eq rfl

include hflaky in
theorem emitRoot_follows (h : Rereads source flaky e' e) :
    Follows (SourceError flaky) Eq e'.emitRoot e.emitRoot := by
  have hc : e'.rootCursor = e.rootCursor := by
    rw [h.2]
    rfl
  unfold emitRoot
  rw [h.root_eq, hc]
  split
  · exact .ok rfl
  · refine (emit_follows hflaky h _ _ _).bind ?_
    rintro x _ rfl
    exact .ok rfl

end Follows

end Editor

namespace Prepared

variable [Digest] {source flaky : PageReader} {current : Commit} {stop durable : Nat}
  {edits : List Extent}

/-- Over a source that fails some reads, a transaction is prepared as it is over the source, or not at
all. -/
theorem build_follows (hflaky : ∀ o b, flaky o = .ok b → source o = .ok b) :
    Follows (SourceError flaky) Eq (build flaky current stop edits durable)
      (build source current stop edits durable) := by
  unfold build
  refine (Follows.of_eq rfl).bind fun _ _ _ => ?_
  split
  · exact .error _
  · refine (Follows.of_eq rfl).bind fun _ _ _ => ?_
    have hnew : Follows (SourceError flaky) (fun t' t => t.source = source ∧ t' = t.reread flaky)
        (Tree.new flaky current stop) (Tree.new source current stop) :=
      (Follows.of_eq rfl).bind fun _ _ _ => .ok ⟨rfl, rfl⟩
    refine hnew.bind ?_
    rintro _ t ⟨ht, rfl⟩
    have hstart : Editor.Rereads source flaky ⟨t.reread flaky, [], plan edits, current.root⟩
        ⟨t, [], plan edits, current.root⟩ := ⟨ht, rfl⟩
    refine (Follows.foldlM (Editor.applyBounded_follows hflaky) edits
      (s := (⟨t.reread flaky, [], plan edits, current.root⟩, 0))
      (t := (⟨t, [], plan edits, current.root⟩, 0)) ⟨hstart, rfl⟩).bind ?_
    rintro ⟨e', m'⟩ ⟨e, m⟩ ⟨h, hm⟩
    simp only at h hm
    subst hm
    refine (Editor.emitRoot_follows hflaky h).bind ?_
    rintro x _ rfl
    exact .of_eq rfl

/-- **No internal error is reachable.** Over a view that walks, a transaction whose edits pass the entry
checks fails only where the generations, the file or the height of the tree is exhausted, or where a
page cannot be read. -/
theorem build_fails_only {t : Tree} (hu : current.imageBytes < U64) (hd : durable < U64)
    (hnew : Tree.new source current stop = .ok t)
    (hwalk : t.walk (fun (_ : Unit) _ => .ok ()) () = .ok ())
    (hflaky : ∀ o b, flaky o = .ok b → source o = .ok b)
    (hcheck : checkEdits current edits durable = .ok ()) :
    (build flaky current stop edits durable).FailsOnly fun e =>
      e = generationsExhausted ∨ e = outputBound ∨ e = Editor.heightExhausted ∨
        SourceError flaky e := by
  obtain ⟨u, hv, h⟩ := Except.bind_eq_ok.1 hnew
  cases h
  obtain ⟨es, hes⟩ := Tree.holdsAll_of_walkPages hwalk
  intro e he
  have hfollows : Follows (SourceError flaky) Eq (build flaky current stop edits durable)
      (build source current stop edits durable) := build_follows hflaky
  rw [he] at hfollows
  -- the run stopped on a failed read, or it fails as it does over the source
  obtain ⟨p, hp⟩ | hg | ho | hh := build_ok hu hd hv hes hcheck
  · rw [hp] at hfollows
    cases hfollows with
    | stopped _ hs => exact .inr (.inr (.inr hs))
  · rw [hg] at hfollows
    cases hfollows with
    | error => exact .inl rfl
    | stopped _ hs => exact .inr (.inr (.inr hs))
  · rw [ho] at hfollows
    cases hfollows with
    | error => exact .inr (.inl rfl)
    | stopped _ hs => exact .inr (.inr (.inr hs))
  · rw [hh] at hfollows
    cases hfollows with
    | error => exact .inr (.inr (.inl rfl))
    | stopped _ hs => exact .inr (.inr (.inr hs))

omit [Digest] in
/-- A chunk edit of a tree of one leaf, over a source that fails every read. -/
theorem build_fails_only_unread : let _ := nullDigest
    ∃ source : PageReader, Tree.new source sampleCommit (3 * BLOCK_SIZE) =
        .ok ⟨source, sampleCommit, 3 * BLOCK_SIZE⟩ ∧
      (build noPages sampleCommit (3 * BLOCK_SIZE) [⟨1, 2, some (.zero 32)⟩] 1).FailsOnly fun e =>
        e = generationsExhausted ∨ e = outputBound ∨ e = Editor.heightExhausted ∨
          SourceError noPages e := by
  let _ := nullDigest
  obtain ⟨source, hnew, hholds⟩ := sample_holds
  refine ⟨source, hnew, build_fails_only (by decide) (by decide) hnew ?_ nofun ?_⟩
  · exact Tree.walk_of_holdsAll hholds _ _
  · exact checkEdits_eq_ok.2 ⟨by decide, List.forall_mem_singleton.2
      ⟨⟨by decide, by decide⟩, by decide⟩⟩

end Prepared

end Cas.Manifest
