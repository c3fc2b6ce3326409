import Cas.Manifest.Views

/-!
# Complete roots and page reclamation

`Rooted file key vs` says that a root is complete in a file: FILE and COMMIT decode, and the tree is
traversed as `vs`. It depends on the marked pages of the root only (`Rooted.transfer`). Reclamation
keeps the marked pages of every captured root (`reclaimRoots_keeps`), so all of them stay complete.
-/

namespace Cas.Manifest

open Bytes List
open Except (bind_eq_ok ok_bind)

/-- The tree of a view over the bytes of its file. -/
abbrev View.tree (key : View) (file : Bytes) : Tree := ⟨filePages file, key.commit, key.stop⟩

/-- The pages that reclamation marks for a root: FILE, COMMIT and tree. -/
def View.marks (key : View) (vs : List Visit) : List Nat :=
  0 :: (key.stop - BLOCK_SIZE) :: pagesOf vs

theorem readBytes_page {file : Bytes} {o : Nat} (ha : o % BLOCK_SIZE = 0)
    (hl : o + BLOCK_SIZE ≤ file.length) :
    readBytes file o BLOCK_SIZE = .ok (file.slice o BLOCK_SIZE) :=
  readBytes_eq_ok.2 ⟨by simp only [aligned, ha]; decide, hl, rfl⟩

variable [Digest]

/-- The root `key` is complete in `file`, and its tree is traversed as `vs`. -/
structure Rooted (file : Bytes) (key : View) (vs : List Visit) : Prop where
  valid : validateView key.commit key.stop = .ok ()
  stop_le : key.stop ≤ file.length
  header : ∃ h, FileHeader.decode (file.slice 0 BLOCK_SIZE) = .ok h ∧
    h.store = key.commit.store ∧ h.imageBytes = key.commit.imageBytes
  commit : ∃ p, Page.decode (file.slice (key.stop - BLOCK_SIZE) BLOCK_SIZE) (key.stop - BLOCK_SIZE)
    key.commit.imageBytes = .ok p ∧ p.commit = .ok key.commit
  visits : (key.tree file).VisitsAll vs

namespace Rooted

variable {file file' : Bytes} {key : View} {vs : List Visit}

/-- The marked pages lie below the end of the root, at page offsets. -/
theorem marks_le (h : Rooted file key vs) :
    ∀ o ∈ key.marks vs, o % BLOCK_SIZE = 0 ∧ o + BLOCK_SIZE ≤ key.stop := by
  obtain ⟨⟨hstop, hmod, -⟩, -⟩ := validateView_eq_ok.1 h.valid
  have hsub : (key.stop - BLOCK_SIZE) % BLOCK_SIZE = 0 := by
    rw [← Nat.mod_eq_sub_mod ((Nat.le_mul_of_pos_left _ Nat.two_pos).trans hstop)]
    exact hmod
  intro o ho
  rcases mem_cons.1 ho with h0 | ho
  · rw [h0]
    exact ⟨rfl, by omega⟩
  · rcases mem_cons.1 ho with hc | ho
    · rw [hc]
      exact ⟨hsub, by omega⟩
    · obtain ⟨-, h2, h3⟩ := h.visits.lt_stop o ho
      have h3 : o < key.stop - BLOCK_SIZE := h3
      exact ⟨h2, by omega⟩

theorem imageBytes_lt (h : Rooted file key vs) : key.commit.imageBytes < U64 := by
  obtain ⟨hdr, hdec, -, himg⟩ := h.header
  obtain ⟨-, hdec⟩ := require_bind_eq_ok.1 hdec
  obtain ⟨q, -, hdec⟩ := bind_eq_ok.1 hdec
  obtain ⟨-, hdec⟩ := require_bind_eq_ok.1 hdec
  cases hdec
  rw [← himg]
  exact u64At_lt _ _

theorem transfer (h : Rooted file key vs) (hlen : key.stop ≤ file'.length)
    (hs : ∀ o ∈ key.marks vs, file'.slice o BLOCK_SIZE = file.slice o BLOCK_SIZE) :
    Rooted file' key vs := by
  refine ⟨h.valid, hlen, ?_, ?_, h.visits.congr fun o ho => ?_⟩
  · rw [hs 0 (by simp [View.marks])]
    exact h.header
  · rw [hs _ (by simp [View.marks])]
    exact h.commit
  · have hmem : o ∈ key.marks vs := by simp [View.marks, ho]
    obtain ⟨ha, hle⟩ := h.marks_le o hmem
    show readBytes file' o BLOCK_SIZE = readBytes file o BLOCK_SIZE
    rw [readBytes_page ha (hle.trans hlen), readBytes_page ha (hle.trans h.stop_le), hs o hmem]

/-- A root stays complete while the file stays the same below its end. -/
theorem transfer_below (h : Rooted file key vs) (hlen : key.stop ≤ file'.length)
    (hs : ∀ o n, o + n ≤ key.stop → file'.slice o n = file.slice o n) : Rooted file' key vs :=
  h.transfer hlen fun o ho => hs o BLOCK_SIZE (h.marks_le o ho).2

theorem walk {σ : Type} (h : Rooted file key vs) (visitor : σ → Extent → Except IoError σ) (s : σ) :
    (key.tree file).walk visitor s = (extentsOf vs).foldlM visitor s :=
  Tree.walk_of_holdsAll h.visits.holdsAll visitor s

/-- Two files in which a root is traversed alike answer its lookups alike. -/
theorem get_eq (h : Rooted file key vs) (h' : Rooted file' key vs) (block : Nat) :
    (key.tree file').get block = (key.tree file).get block := by
  by_cases hb : block < key.commit.imageBytes / BLOCK_SIZE
  · rw [Tree.get_of_holdsAll h.visits.holdsAll h.valid hb,
      Tree.get_of_holdsAll h'.visits.holdsAll h'.valid hb]
  · rw [Tree.get_outside h.valid hb, Tree.get_outside h'.valid hb]

end Rooted

/-! ## Punching -/

omit [Digest]

namespace Punching

/-- Punching up to an offset touches nothing below the start and nothing from the offset on. -/
theorem upTo_spec (s : Punching) (offset : Nat) :
    (s.upTo offset).file.length = s.file.length ∧
      ∀ o n, o + n ≤ s.first ∨ offset ≤ o → (s.upTo offset).file.slice o n = s.file.slice o n := by
  fun_induction upTo s offset with
  | case1 s hlt next ih =>
    obtain ⟨h1, h2⟩ := ih
    have hnext : s.first ≤ next ∧ next ≤ offset := by
      simp only [next, PUNCH_WINDOW_PAGES, BLOCK_SIZE]
      omega
    refine ⟨by rw [h1, length_punch], fun o n ho => ?_⟩
    rw [h2 o n (ho.imp_left fun h => h.trans hnext.1)]
    exact slice_punch_disjoint (by omega)
  | case2 s hge => exact ⟨rfl, fun _ _ _ => rfl⟩

theorem foldl_keep_spec : ∀ {live : List Nat} {s : Punching},
    live.Pairwise (fun a b => a + BLOCK_SIZE ≤ b) → (∀ o ∈ live, s.first ≤ o) →
    (live.foldl keep s).file.length = s.file.length ∧
      (∀ o n, o + n ≤ s.first → (live.foldl keep s).file.slice o n = s.file.slice o n) ∧
      ∀ o ∈ live, (live.foldl keep s).file.slice o BLOCK_SIZE = s.file.slice o BLOCK_SIZE
  | [], s, _, _ => ⟨rfl, fun _ _ _ => rfl, fun _ h => by cases h⟩
  | o :: live, s, hp, hge => by
    obtain ⟨hp1, hp2⟩ := pairwise_cons.1 hp
    obtain ⟨hlen, hsame⟩ := upTo_spec s o
    obtain ⟨h1, h2, h3⟩ := foldl_keep_spec (s := s.keep o) hp2 hp1
    have hfirst := hge o (by simp)
    refine ⟨h1.trans hlen, fun p n hpn => ?_, fun p hp => ?_⟩
    · exact (h2 p n (show p + n ≤ o + BLOCK_SIZE by omega)).trans (hsame p n (Or.inl hpn))
    · rcases mem_cons.1 hp with rfl | hp
      · exact (h2 p BLOCK_SIZE (le_refl _)).trans (hsame p BLOCK_SIZE (Or.inr (le_refl _)))
      · have hle := hp1 p hp
        exact (h3 p hp).trans (hsame p BLOCK_SIZE (Or.inr (by omega)))

end Punching

/-- Sorting and removing repetitions spaces page offsets out. -/
theorem pairwise_pages {live : List Nat} (h : ∀ o ∈ live, o % BLOCK_SIZE = 0) :
    (live.mergeSort fun a b => decide (a ≤ b)).dedup.Pairwise fun a b => a + BLOCK_SIZE ≤ b := by
  have hsorted : (live.mergeSort fun a b => decide (a ≤ b)).Pairwise fun a b => decide (a ≤ b) = true :=
    pairwise_mergeSort (by simp; omega) (by simp; omega) live
  have hlt := (hsorted.sublist (dedup_sublist _)).and (nodup_dedup _)
  refine hlt.imp_of_mem fun ha hb hab => ?_
  have ha := h _ (mem_mergeSort.1 (mem_dedup.1 ha))
  have hb := h _ (mem_mergeSort.1 (mem_dedup.1 hb))
  obtain ⟨hle, hne⟩ := hab
  simp only [decide_eq_true_eq, BLOCK_SIZE] at *
  omega

/-! ## Marking -/

variable [Digest] {file file' : Bytes} {keys : List View}

omit [Digest] in
theorem foldlM_mark (vs : List Visit) : ∀ s : List Nat × Nat,
    vs.foldlM (visitWith (fun (s : List Nat × Nat) o => Except.ok (s.1 ++ [o], s.2 + 1))
      (fun s _ => .ok s)) s = (.ok (s.1 ++ pagesOf vs, s.2 + (pagesOf vs).length) : Except IoError _) := by
  induction vs with
  | nil =>
    intro s
    simp [pagesOf, pure, Except.pure]
  | cons v vs ih =>
    intro s
    rw [foldlM_cons]
    cases v with
    | inl o =>
      rw [visitWith, ok_bind, ih, pagesOf_page, length_cons, append_assoc,
        singleton_append]
      congr 2
      omega
    | inr e =>
      rw [visitWith, ok_bind, ih]
      rfl

theorem markRoot_eq_ok {key : View} {vs : List Visit} {s s' : List Nat × Nat}
    (hk : Rooted file key vs) (h : markRoot file s key = .ok s') :
    s'.1 = s.1 ++ (key.stop - BLOCK_SIZE) :: pagesOf vs := by
  unfold markRoot at h
  obtain ⟨tree, ht, h⟩ := bind_eq_ok.1 h
  obtain ⟨u, -, ht⟩ := bind_eq_ok.1 ht
  cases ht
  rw [hk.visits.walkPages, foldlM_mark, ok_bind] at h
  dsimp only at h
  split at h
  · cases h
  · cases h
    simp

/-- Marking collects the marked pages of every root, and no others. -/
theorem foldlM_markRoot : ∀ {keys : List View} {s s' : List Nat × Nat},
    (∀ key ∈ keys, ∃ vs, Rooted file key vs) → keys.foldlM (markRoot file) s = .ok s' →
    s.1 ⊆ s'.1 ∧
      (∀ key ∈ keys, ∀ vs, Rooted file key vs → (key.stop - BLOCK_SIZE) :: pagesOf vs ⊆ s'.1) ∧
      ∀ o ∈ s'.1, o ∈ s.1 ∨ ∃ key ∈ keys, ∃ vs, Rooted file key vs ∧ o ∈ key.marks vs
  | [], s, s', _, h => by
    cases h
    exact ⟨List.Subset.refl _, by simp, fun o ho => Or.inl ho⟩
  | key :: keys, s, s', hk, h => by
    rw [foldlM_cons] at h
    obtain ⟨s₁, h1, h2⟩ := bind_eq_ok.1 h
    obtain ⟨hsub, hmem, honly⟩ := foldlM_markRoot (fun k hk' => hk k (mem_cons_of_mem _ hk')) h2
    obtain ⟨vs, hvs⟩ := hk key (by simp)
    have hs₁ := markRoot_eq_ok hvs h1
    refine ⟨fun o ho => hsub (hs₁ ▸ mem_append_left _ ho), fun k hk' ws hws => ?_, fun o ho => ?_⟩
    · rcases mem_cons.1 hk' with rfl | hk'
      · rw [markRoot_eq_ok hws h1] at hsub
        exact fun o ho => hsub (mem_append_right _ ho)
      · exact hmem k hk' ws hws
    · rcases honly o ho with ho | ⟨k, hk', ws, hws, ho⟩
      · rw [hs₁] at ho
        rcases mem_append.1 ho with ho | ho
        · exact Or.inl ho
        · exact Or.inr ⟨key, by simp, vs, hvs, mem_cons_of_mem _ ho⟩
      · exact Or.inr ⟨k, mem_cons_of_mem _ hk', ws, hws, ho⟩

/-- **Reclamation keeps the marked pages of every captured root**, whatever its result. -/
theorem reclaimRoots_keeps (hk : ∀ key ∈ keys, ∃ vs, Rooted file key vs) :
    (reclaimRoots file keys).1.length = file.length ∧
      ∀ key ∈ keys, ∀ vs, Rooted file key vs → ∀ o ∈ key.marks vs,
        (reclaimRoots file keys).1.slice o BLOCK_SIZE = file.slice o BLOCK_SIZE := by
  unfold reclaimRoots
  split
  · exact ⟨rfl, fun _ _ _ _ _ _ => rfl⟩
  · rename_i live reads hmark
    obtain ⟨u, -, hmark⟩ := bind_eq_ok.1 hmark
    obtain ⟨hsub, hmem, honly⟩ := foldlM_markRoot hk hmark
    dsimp only at hsub hmem honly
    have halign : ∀ o ∈ live, o % BLOCK_SIZE = 0 := by
      intro o ho
      rcases honly o ho with ho | ⟨key, -, vs, hvs, ho⟩
      · rw [mem_singleton.1 ho]
        rfl
      · exact (hvs.marks_le o ho).1
    obtain ⟨hlen, -, hkeep⟩ := Punching.foldl_keep_spec (s := ⟨file, 0, 0, 0⟩) (pairwise_pages halign)
      (fun o _ => Nat.zero_le o)
    refine ⟨hlen, fun key hkey vs hvs o ho => hkeep o ?_⟩
    refine mem_dedup.2 (mem_mergeSort.2 ?_)
    rcases mem_cons.1 ho with rfl | ho
    · exact hsub (by simp)
    · exact hmem key hkey vs hvs ho

end Cas.Manifest
