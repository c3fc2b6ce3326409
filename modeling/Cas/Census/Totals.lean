import Cas.Census.Read

/-!
# What the totals of a census are

Equal chunks have equal sizes, unless there is a collision. So every total is the size of a set of
chunks: of those in the base, in an image, in some descendant, or of a sum of such sets over the
descendants. The counters reach them in one pass, since the first and the last image of a chunk tell
which of these sets it is in already.
-/

namespace Cas.Census

open List

section Weights
variable (size : Hash → Nat) {h : Hash} {s t : Finset Hash}

/-- The bytes of a set of chunks. -/
def weight (s : Finset Hash) : Nat := ∑ h ∈ s, size h

theorem weight_insert : weight size (insert h s) = weight size s + if h ∈ s then 0 else size h := by
  by_cases hs : h ∈ s
  · rw [Finset.insert_eq_of_mem hs, if_pos hs, add_zero]
  · rw [weight, Finset.sum_insert hs, if_neg hs, add_comm, weight]

theorem weight_insert_inter :
    weight size (insert h s ∩ t) = weight size (s ∩ t) + if h ∈ t ∧ h ∉ s then size h else 0 := by
  by_cases ht : h ∈ t
  · rw [Finset.insert_inter_of_mem ht, weight_insert]
    by_cases hs : h ∈ s
    · rw [if_pos (Finset.mem_inter.2 ⟨hs, ht⟩), if_neg (fun h => h.2 hs)]
    · rw [if_neg (fun h => hs (Finset.mem_inter.1 h).1), if_pos ⟨ht, hs⟩]
  · rw [Finset.insert_inter_of_notMem ht, if_neg (fun h => ht h.1), add_zero]

theorem weight_insert_sdiff :
    weight size (insert h s \ t) = weight size (s \ t) + if h ∉ t ∧ h ∉ s then size h else 0 := by
  by_cases ht : h ∈ t
  · rw [Finset.insert_sdiff_of_mem s ht, if_neg (fun h => h.1 ht), add_zero]
  · rw [Finset.insert_sdiff_of_notMem s ht, weight_insert]
    by_cases hs : h ∈ s
    · rw [if_pos (Finset.mem_sdiff.2 ⟨hs, ht⟩), if_neg (fun h => h.2 hs)]
    · rw [if_neg (fun h => hs (Finset.mem_sdiff.1 h).1), if_pos ⟨ht, hs⟩]

theorem weight_inter_add_sdiff : weight size (s ∩ t) + weight size (s \ t) = weight size s :=
  Finset.sum_inter_add_sum_sdiff ..

theorem weight_mono (hst : s ⊆ t) : weight size s ≤ weight size t :=
  Finset.sum_le_sum_of_subset hst

theorem weight_union_le : weight size (s ∪ t) ≤ weight size s + weight size t := by
  rw [weight, weight, weight, ← Finset.sum_union_inter]
  exact Nat.le_add_right _ _

end Weights

/-- The chunks of some descendant. -/
def union (ds : List (Finset Hash)) : Finset Hash := ds.foldr (· ∪ ·) ∅

theorem mem_union {ds : List (Finset Hash)} {h : Hash} : h ∈ union ds ↔ ∃ d ∈ ds, h ∈ d := by
  induction ds with
  | nil => simp [union]
  | cons d ds ih =>
    rw [union, foldr_cons, Finset.mem_union, ← union, ih]
    simp

theorem union_append (ds : List (Finset Hash)) (d : Finset Hash) :
    union (ds ++ [d]) = union ds ∪ d := by
  ext h
  rw [Finset.mem_union, mem_union, mem_union]
  simp [or_and_right, exists_or]

/-! ## The counters -/

/-- What is known of a chunk from its first and its last image: it is in the base, and in some
descendant or not; it is in an earlier descendant; it is in this image only; or it is new. `u` are
the chunks of the earlier descendants, `l` those of this one so far. -/
inductive Seen (b u l : Finset Hash) (index : Nat) (h : Hash) : Option (Nat × Nat) → Prop
  | base (last : Nat) (base : h ∈ b) (first : last = 0 ↔ h ∉ u ∧ h ∉ l) :
      Seen b u l index h (some (0, last))
  | prior (first last : Nat) (base : h ∉ b) (prior : h ∈ u) (pos : 0 < first) (lt : first < index) :
      Seen b u l index h (some (first, last))
  | here (last : Nat) (base : h ∉ b) (prior : h ∉ u) (here : h ∈ l) :
      Seen b u l index h (some (index, last))
  | none (base : h ∉ b) (prior : h ∉ u) (here : h ∉ l) : Seen b u l index h none

variable {l : Finset Hash}

theorem Seen.insert {b u : Finset Hash} {index : Nat} {h h' : Hash} {o : Option (Nat × Nat)}
    (hs : Seen b u l index h' o) (hne : h' ≠ h) : Seen b u (insert h l) index h' o := by
  have hl : h' ∈ Insert.insert h l ↔ h' ∈ l := by simp [hne]
  cases hs with
  | base last hb hfirst => exact .base last hb (by rw [hl]; exact hfirst)
  | prior first last hb hu hpos hlt => exact .prior first last hb hu hpos hlt
  | here last hb hu hh => exact .here last hb hu (hl.2 hh)
  | none hb hu hh => exact .none hb hu (mt hl.1 hh)

theorem seen_update {b u : Finset Hash} {index : Nat} {seen : Hash → Option (Nat × Nat)} {h : Hash}
    (hs : ∀ h, Seen b u l index h (seen h)) {o : Option (Nat × Nat)}
    (ho : Seen b u (insert h l) index h o) (h' : Hash) :
    Seen b u (insert h l) index h' (Function.update seen h o h') := by
  by_cases hne : h' = h
  · subst hne
    rwa [Function.update_self]
  · rw [Function.update_of_ne hne]
    exact (hs h').insert hne

/-- The counters between two chunks of a descendant. `inside` and `outside` are the bytes in the base,
and not in the base, summed over the earlier descendants. -/
structure Counts (size : Hash → Nat) (b u : Finset Hash) (inside outside : Nat) (l : Finset Hash)
    (d : Descendants) (unique : Nat) : Prop where
  fleet : d.fleetUniqueBytes = weight size (u ∪ l)
  present : d.basePresentUniqueBytes = weight size ((u ∪ l) ∩ b)
  base : d.baseContentDuplicateBytes + weight size ((u ∪ l) ∩ b) = inside + weight size (l ∩ b)
  novel : d.novelContentDuplicateBytes + weight size ((u ∪ l) \ b) = outside + weight size (l \ b)
  unique : unique = weight size (b ∪ (u ∪ l))

/-- The counters after one more chunk, according to where it was seen before. -/
theorem Counts.insert {size : Hash → Nat} {b u : Finset Hash} {inside outside unique unique' : Nat}
    {d d' : Descendants} (hc : Counts size b u inside outside l d unique) {h : Hash}
    (hfleet : d'.fleetUniqueBytes = d.fleetUniqueBytes + if h ∈ u ∪ l then 0 else size h)
    (hpresent : d'.basePresentUniqueBytes =
      d.basePresentUniqueBytes + if h ∈ b ∧ h ∉ u ∪ l then size h else 0)
    (hbase : d'.baseContentDuplicateBytes =
      d.baseContentDuplicateBytes + if h ∈ b ∧ h ∈ u ∧ h ∉ l then size h else 0)
    (hnovel : d'.novelContentDuplicateBytes =
      d.novelContentDuplicateBytes + if h ∉ b ∧ h ∈ u ∧ h ∉ l then size h else 0)
    (htotal : unique' = unique + if h ∈ b ∪ (u ∪ l) then 0 else size h) :
    Counts size b u inside outside (insert h l) d' unique' := by
  have hinter : (if h ∈ b ∧ h ∉ l then size h else 0) =
      (if h ∈ b ∧ h ∈ u ∧ h ∉ l then size h else 0) + if h ∈ b ∧ h ∉ u ∪ l then size h else 0 := by
    by_cases h1 : h ∈ b <;> by_cases h2 : h ∈ u <;> by_cases h3 : h ∈ l <;> simp [h1, h2, h3]
  have hsdiff : (if h ∉ b ∧ h ∉ l then size h else 0) =
      (if h ∉ b ∧ h ∈ u ∧ h ∉ l then size h else 0) + if h ∉ b ∧ h ∉ u ∪ l then size h else 0 := by
    by_cases h1 : h ∈ b <;> by_cases h2 : h ∈ u <;> by_cases h3 : h ∈ l <;> simp [h1, h2, h3]
  constructor
  · rw [hfleet, hc.fleet, Finset.union_insert, weight_insert]
  · rw [hpresent, hc.present, Finset.union_insert, weight_insert_inter]
  · have := hc.base
    rw [hbase, Finset.union_insert, weight_insert_inter, weight_insert_inter, hinter]
    omega
  · have := hc.novel
    rw [hnovel, Finset.union_insert, weight_insert_sdiff, weight_insert_sdiff, hsdiff]
    omega
  · rw [htotal, hc.unique, Finset.union_insert, Finset.union_insert, weight_insert]

/-- A descendant between two of its chunks. -/
structure Mid (size : Hash → Nat) (b u : Finset Hash) (index inside outside : Nat) (f : Fleet)
    (l : Finset Hash) : Prop where
  seen : ∀ h, Seen b u l index h (f.seen h)
  counts : Counts size b u inside outside l f.descendants f.fleetUniqueBytes

theorem Mid.category {size : Hash → Nat} {b u : Finset Hash} {index inside outside : Nat} {f : Fleet}
    (hm : Mid size b u index inside outside f l) (hindex : 0 < index) {h : Hash} {new : Bool}
    (hnew : new = true ↔ h ∉ l) (offset : Nat) (image : Image) :
    Mid size b u index inside outside (category index (size h) h new offset f image).1 (insert h l) := by
  have hs := hm.seen h
  rw [Census.category]
  split
  · next first last ho =>
    rw [ho] at hs
    rw [again]
    cases hs with
    | base _ hb hlast =>
      rw [if_pos ⟨rfl, hindex⟩]
      refine ⟨seen_update hm.seen (.base index hb (by simp; omega)), hm.counts.insert ?_ ?_ ?_ ?_ ?_⟩ <;>
        by_cases hu : h ∈ u <;> by_cases hl : h ∈ l <;> simp_all [Descendants.countBase]
    | prior _ _ hb hu hpos hlt =>
      rw [if_neg (fun h => hpos.ne' h.1), if_pos hlt]
      refine ⟨seen_update hm.seen (.prior first index hb hu hpos hlt), hm.counts.insert ?_ ?_ ?_ ?_ ?_⟩ <;>
        by_cases hl : h ∈ l <;> simp_all [Descendants.countNovel]
    | here _ hb hu hl =>
      rw [if_neg (fun h => hindex.ne' h.1), if_neg (lt_irrefl _), Finset.insert_eq_of_mem hl]
      exact hm
  · next ho =>
    rw [ho] at hs
    cases hs with
    | none hb hu hl =>
    refine ⟨seen_update hm.seen (.here index hb hu (Finset.mem_insert_self ..)),
      hm.counts.insert ?_ ?_ ?_ ?_ ?_⟩ <;>
      simp_all [fresh]

/-! ## Images -/

section
variable [Digest] {size : Hash → Nat} {b u : Finset Hash} {index inside outside : Nat}
  {fs : Fleet × Scan}

/-- The nonzero chunks among the given ones. -/
def hashes (cs : List Bytes) : Finset Hash := (cs.filterMap nonzeroHash).toFinset

/-- The size of a chunk depends on its hash only. -/
def Sized (size : Hash → Nat) (cs : List Bytes) : Prop :=
  ∀ c ∈ cs, ∀ h, nonzeroHash c = some h → c.length = size h

/-- What an image counts for itself: the chunks it has, each once. -/
def Scan.Counts (size : Hash → Nat) (s : Scan) : Prop :=
  s.image.uniqueBytes = weight size s.locals.toFinset

theorem visit_locals (index : Nat) (fs : Fleet × Scan) (bytes : Bytes) :
    (visit index fs bytes).2.locals = (nonzeroHash bytes).toList ++ fs.2.locals := by
  rw [visit]
  cases nonzeroHash bytes <;> rfl

theorem foldl_locals (index : Nat) (cs : List Bytes) (fs : Fleet × Scan) :
    (cs.foldl (visit index) fs).2.locals.toFinset = fs.2.locals.toFinset ∪ hashes cs := by
  induction cs generalizing fs with
  | nil => simp [hashes]
  | cons c cs ih =>
    rw [foldl_cons, ih, visit_locals, hashes, hashes, filterMap_cons]
    cases nonzeroHash c with
    | none => rfl
    | some h =>
      ext h'
      simp

omit [Digest] in
theorem visitHash_unique (index len : Nat) (hash : Hash) (f : Fleet) (s : Scan) :
    (visitHash index len hash f s).2.image.uniqueBytes =
      s.image.uniqueBytes + if hash ∈ s.locals then 0 else len := by
  refine (category_counted ..).unique.trans (congrArg (s.image.uniqueBytes + ·) ?_)
  by_cases hl : hash ∈ s.locals <;> simp [hl]

variable {bytes : Bytes}

theorem visit_counts (index : Nat) (hs : fs.2.Counts size)
    (hsized : Sized size [bytes]) : (visit index fs bytes).2.Counts size := by
  rw [Scan.Counts, visit_locals, visit]
  cases hh : nonzeroHash bytes with
  | none => exact hs
  | some hash =>
    have hlen := hsized bytes (mem_singleton_self _) hash hh
    have hu : (fs.2.update bytes).image.uniqueBytes = weight size fs.2.locals.toFinset := hs
    refine (visitHash_unique ..).trans ?_
    rw [hu, hlen, Option.toList_some, singleton_append, toFinset_cons, weight_insert]
    simp only [mem_toFinset]
    rfl

/-- A descendant between two of its chunks, its own counters included. -/
structure Scanning (size : Hash → Nat) (b u : Finset Hash) (index inside outside : Nat)
    (fs : Fleet × Scan) : Prop where
  mid : Mid size b u index inside outside fs.1 fs.2.locals.toFinset
  own : fs.2.Counts size

theorem Scanning.visit (hs : Scanning size b u index inside outside fs) (hindex : 0 < index)
    (hsized : Sized size [bytes]) :
    Scanning size b u index inside outside (visit index fs bytes) := by
  refine ⟨?_, visit_counts index hs.own hsized⟩
  have hpush (o : Option Hash) :
      Mid size b u index inside outside (fs.1.pushBase index o) fs.2.locals.toFinset :=
    ⟨hs.mid.seen, hs.mid.counts⟩
  rw [visit_locals, Census.visit]
  cases hh : nonzeroHash bytes with
  | none => exact hpush none
  | some hash =>
    rw [Option.toList_some, singleton_append, toFinset_cons,
      hsized bytes (mem_singleton_self _) hash hh]
    refine (hpush (some hash)).category hindex ?_ _ _
    rw [decide_eq_true_iff, mem_toFinset]
    rfl

variable {cs : List Bytes}

theorem Sized.head {c : Bytes} (h : Sized size (c :: cs)) :
    Sized size [c] := by
  intro c' hc'
  rw [mem_singleton.1 hc']
  exact h c mem_cons_self

theorem Sized.tail {c : Bytes} (h : Sized size (c :: cs)) : Sized size cs :=
  fun c' hc' => h c' (mem_cons_of_mem _ hc')

theorem Scanning.foldl (cs : List Bytes) (hs : Scanning size b u index inside outside fs)
    (hindex : 0 < index) (hsized : Sized size cs) :
    Scanning size b u index inside outside (cs.foldl (Census.visit index) fs) := by
  induction cs generalizing fs with
  | nil => exact hs
  | cons c cs ih =>
    exact ih (hs.visit hindex hsized.head) hsized.tail

/-- The base between two of its chunks. -/
structure ScanningBase (size : Hash → Nat) (fs : Fleet × Scan) : Prop where
  seen : ∀ h, fs.1.seen h = if h ∈ fs.2.locals then some (0, 0) else none
  descendants : fs.1.descendants = ⟨0, 0, 0, 0, 0⟩
  unique : fs.1.fleetUniqueBytes = weight size fs.2.locals.toFinset
  own : fs.2.Counts size

theorem ScanningBase.visit (hs : ScanningBase size fs)
    (hsized : Sized size [bytes]) : ScanningBase size (visit 0 fs bytes) := by
  have hown := visit_counts 0 hs.own hsized
  cases hh : nonzeroHash bytes with
  | none =>
    rw [Census.visit, hh] at hown ⊢
    exact ⟨hs.seen, hs.descendants, hs.unique, hown⟩
  | some hash =>
    have hlocals : (Census.visit 0 fs bytes).2.locals = hash :: fs.2.locals := by
      rw [visit_locals, hh]
      rfl
    have hseen : (fs.1.pushBase 0 (some hash)).seen hash =
        if hash ∈ fs.2.locals then some (0, 0) else none := hs.seen hash
    by_cases hl : hash ∈ fs.2.locals
    · -- It was seen in the base already.
      rw [if_pos hl] at hseen
      have hf : (Census.visit 0 fs bytes).1 = fs.1.pushBase 0 (some hash) := by
        rw [Census.visit, hh]
        dsimp only
        rw [visitHash, category, hseen]
        rfl
      refine ⟨fun h => ?_, ?_, ?_, hown⟩
      · rw [hf, hlocals]
        refine (hs.seen h).trans (if_congr ?_ rfl rfl)
        rw [mem_cons, or_iff_right_of_imp (fun h => h ▸ hl)]
      · rw [hf]
        exact hs.descendants
      · rw [hf, hlocals, toFinset_cons, Finset.insert_eq_of_mem (mem_toFinset.2 hl)]
        exact hs.unique
    · rw [if_neg hl] at hseen
      have hf : (Census.visit 0 fs bytes).1 =
          { fs.1.pushBase 0 (some hash) with
            seen := Function.update fs.1.seen hash (some (0, 0))
            fleetUniqueBytes := fs.1.fleetUniqueBytes + bytes.length } := by
        rw [Census.visit, hh]
        dsimp only
        rw [visitHash, category, hseen]
        rfl
      refine ⟨fun h => ?_, ?_, ?_, hown⟩
      · rw [hf, hlocals]
        by_cases hne : h = hash
        · subst hne
          rw [if_pos mem_cons_self]
          exact Function.update_self ..
        · refine (Function.update_of_ne hne ..).trans ((hs.seen h).trans (if_congr ?_ rfl rfl))
          rw [mem_cons, or_iff_right hne]
      · rw [hf]
        exact hs.descendants
      · rw [hf, hlocals, toFinset_cons, weight_insert,
          if_neg (mt mem_toFinset.1 hl), ← hs.unique,
          hsized bytes (mem_singleton_self _) hash hh]

theorem ScanningBase.foldl (cs : List Bytes) (hs : ScanningBase size fs) (hsized : Sized size cs) :
    ScanningBase size (cs.foldl (Census.visit 0) fs) := by
  induction cs generalizing fs with
  | nil => exact hs
  | cons c cs ih => exact ih (hs.visit hsized.head) hsized.tail

omit [Digest] in
theorem category_independent (index len : Nat) (hash : Hash) (new : Bool) (offset : Nat) (f : Fleet)
    (image : Image) :
    (category index len hash new offset f image).1.descendants.independentlyUniqueBytes =
      f.descendants.independentlyUniqueBytes := by
  rw [category]
  split
  · rw [again]
    split
    · simp only [Descendants.countBase]
      split
      · rfl
      · split <;> rfl
    · split
      · simp only [Descendants.countNovel]
        split <;> rfl
      · rfl
  · rfl

theorem foldl_independent (index : Nat) (cs : List Bytes) (fs : Fleet × Scan) :
    (cs.foldl (Census.visit index) fs).1.descendants.independentlyUniqueBytes =
      fs.1.descendants.independentlyUniqueBytes := by
  induction cs generalizing fs with
  | nil => rfl
  | cons c cs ih =>
    refine (ih _).trans ?_
    rw [Census.visit]
    split
    · exact category_independent ..
    · rfl

/-! ## The fleet -/

/-- The counters between two images: the base and the descendants `ds` were scanned. -/
structure Done (size : Hash → Nat) (b : Finset Hash) (ds : List (Finset Hash)) (f : Fleet) :
    Prop where
  mid : Mid size b (union ds) (ds.length + 1) (ds.map fun d => weight size (d ∩ b)).sum
    (ds.map fun d => weight size (d \ b)).sum f ∅
  independent : f.descendants.independentlyUniqueBytes = (ds.map (weight size)).sum

omit [Digest] in
/-- The chunks of an image are those of an earlier one from then on. -/
theorem Seen.done {l : Finset Hash} {h : Hash} {o : Option (Nat × Nat)} (hs : Seen b u l index h o)
    (hindex : 0 < index) : Seen b (u ∪ l) ∅ (index + 1) h o := by
  cases hs with
  | base last hb hfirst =>
    refine .base last hb (hfirst.trans ?_)
    simp
  | prior first last hb hu hpos hlt =>
    exact .prior first last hb (Finset.mem_union_left _ hu) hpos (Nat.lt_succ_of_lt hlt)
  | here last hb hu hl =>
    exact .prior index last hb (Finset.mem_union_right _ hl) hindex (Nat.lt_succ_self _)
  | none hb hu hl => exact .none hb (by simp [hu, hl]) (Finset.notMem_empty h)

variable {ds : List (Finset Hash)} {f : Fleet}

theorem Done.countImage (hd : Done size b ds f) (path : String)
    (hsized : Sized size cs) :
    Done size b (ds ++ [hashes cs]) (countImage (ds.length + 1) f path cs).1 ∧
      (countImage (ds.length + 1) f path cs).2.uniqueBytes = weight size (hashes cs) := by
  have hstart : Scanning size b (union ds) (ds.length + 1) _ _ (f, Scan.new path) := ⟨hd.mid, rfl⟩
  obtain ⟨⟨hseen, hcounts⟩, hown⟩ := hstart.foldl cs (Nat.zero_lt_succ _) hsized
  have hlocals := foldl_locals (ds.length + 1) cs (f, Scan.new path)
  rw [show (Scan.new path).locals.toFinset = ∅ from rfl, Finset.empty_union] at hlocals
  rw [Scan.Counts, hlocals] at hown
  rw [hlocals] at hseen hcounts
  refine ⟨⟨⟨fun h => ?_, ?_⟩, ?_⟩, hown⟩
  · rw [union_append, length_append]
    exact (hseen h).done (Nat.zero_lt_succ _)
  · obtain ⟨hfleet, hpresent, hbase, hnovel, hunique⟩ := hcounts
    rw [union_append]
    constructor
    · rw [Finset.union_empty]
      exact hfleet
    · rw [Finset.union_empty]
      exact hpresent
    · rw [Finset.union_empty]
      refine hbase.trans ?_
      simp [weight]
    · rw [Finset.union_empty]
      refine hnovel.trans ?_
      simp [weight]
    · rw [Finset.union_empty]
      exact hunique
  · have hi := foldl_independent (ds.length + 1) cs (f, Scan.new path)
    rw [map_append, sum_append, ← hd.independent, map_singleton, sum_singleton,
      ← hown]
    exact congrArg (· + _) hi

theorem Done.base (path : String) (hsized : Sized size cs) :
    Done size (hashes cs) [] (Census.countImage 0 .new path cs).1 ∧
      (Census.countImage 0 .new path cs).2.uniqueBytes = weight size (hashes cs) := by
  have hstart : ScanningBase size (Fleet.new, Scan.new path) := ⟨fun _ => rfl, rfl, rfl, rfl⟩
  obtain ⟨hseen, hdesc, hunique, hown⟩ := hstart.foldl cs hsized
  have hlocals := foldl_locals 0 cs (Fleet.new, Scan.new path)
  rw [show (Scan.new path).locals.toFinset = ∅ from rfl, Finset.empty_union] at hlocals
  rw [Scan.Counts, hlocals] at hown
  rw [hlocals] at hunique
  have hfinal : (Census.countImage 0 .new path cs).1.descendants = ⟨0, 0, 0, 0, 0⟩ := by
    rw [Census.countImage, finish, hdesc]
    rfl
  refine ⟨⟨⟨fun h => ?_, ?_⟩, by rw [hfinal]; rfl⟩, hown⟩
  · change Seen _ _ _ _ h ((cs.foldl (Census.visit 0) (Fleet.new, Scan.new path)).1.seen h)
    rw [hseen h, ← hlocals]
    split
    · next hl =>
      refine .base 0 (mem_toFinset.2 hl) (iff_of_true rfl ⟨?_, ?_⟩) <;>
        exact Finset.notMem_empty h
    · next hl =>
      exact .none (mt mem_toFinset.1 hl) (Finset.notMem_empty h) (Finset.notMem_empty h)
  · rw [hfinal]
    constructor
    · rfl
    · simp [union, weight]
    · simp [union, weight]
    · simp [union, weight]
    · simp only [union, foldr_nil, Finset.union_empty]
      exact hunique

theorem Done.countImages (hd : Done size b ds f)
    (is : List (String × List Bytes)) (hsized : ∀ i ∈ is, Sized size i.2) :
    Done size b (ds ++ is.map fun i => hashes i.2) (Census.countImages (ds.length + 1) is f).1 ∧
      (Census.countImages (ds.length + 1) is f).2.map (·.uniqueBytes) =
        is.map fun i => weight size (hashes i.2) := by
  induction is generalizing ds f with
  | nil =>
    rw [map_nil, append_nil]
    exact ⟨hd, rfl⟩
  | cons i is ih =>
    obtain ⟨hd', hi⟩ := hd.countImage i.1 (hsized i mem_cons_self)
    obtain ⟨hdone, his⟩ := ih hd' fun i' hi' => hsized i' (mem_cons_of_mem _ hi')
    rw [length_append, length_singleton] at hdone his
    rw [append_assoc, singleton_append] at hdone
    refine ⟨hdone, ?_⟩
    rw [Census.countImages, map_cons, map_cons, hi]
    exact congrArg (_ :: ·) his

/-- The totals over the descendants, by the sets of their chunks. -/
def totals (size : Hash → Nat) (b : Finset Hash) (ds : List (Finset Hash)) : Descendants where
  independentlyUniqueBytes := (ds.map (weight size)).sum
  fleetUniqueBytes := weight size (union ds)
  basePresentUniqueBytes := weight size (union ds ∩ b)
  baseContentDuplicateBytes :=
    (ds.map fun d => weight size (d ∩ b)).sum - weight size (union ds ∩ b)
  novelContentDuplicateBytes :=
    (ds.map fun d => weight size (d \ b)).sum - weight size (union ds \ b)

omit [Digest] in
theorem Done.counts (hd : Done size b ds f) :
    f.descendants.fleetUniqueBytes = weight size (union ds) ∧
      f.descendants.basePresentUniqueBytes = weight size (union ds ∩ b) ∧
      f.descendants.baseContentDuplicateBytes + weight size (union ds ∩ b) =
        (ds.map fun d => weight size (d ∩ b)).sum ∧
      f.descendants.novelContentDuplicateBytes + weight size (union ds \ b) =
        (ds.map fun d => weight size (d \ b)).sum ∧
      f.fleetUniqueBytes = weight size (b ∪ union ds) := by
  obtain ⟨hfleet, hpresent, hbase, hnovel, hunique⟩ := hd.mid.counts
  rw [Finset.union_empty] at hfleet hpresent hbase hnovel hunique
  rw [Finset.empty_inter] at hbase
  rw [Finset.empty_sdiff] at hnovel
  exact ⟨hfleet, hpresent, hbase, hnovel, hunique⟩

omit [Digest] in
theorem Done.totals (hd : Done size b ds f) :
    f.descendants = totals size b ds := by
  obtain ⟨hfleet, hpresent, hbase, hnovel, -⟩ := hd.counts
  exact Descendants.ext hd.independent hfleet hpresent (Nat.eq_sub_of_add_eq hbase)
    (Nat.eq_sub_of_add_eq hnovel)

omit [Digest] in
theorem totals_perm {ds' : List (Finset Hash)} (h : ds.Perm ds') :
    Census.totals size b ds = Census.totals size b ds' := by
  have hu : union ds = union ds' := by
    ext x
    rw [mem_union, mem_union]
    simp only [h.mem_iff]
  have hsum (g : Finset Hash → Nat) : (ds.map g).sum = (ds'.map g).sum := (h.map g).sum_eq
  rw [Census.totals, Census.totals, hu, hsum, hsum, hsum]

omit [Digest] in
/-- What is in several descendants is counted once for each of them, and once for the fleet. -/
theorem Done.split (hd : Done size b ds f) :
    f.descendants.independentlyUniqueBytes = f.descendants.fleetUniqueBytes +
      f.descendants.baseContentDuplicateBytes + f.descendants.novelContentDuplicateBytes := by
  obtain ⟨hfleet, -, hbase, hnovel, -⟩ := hd.counts
  have hsum : (ds.map (weight size)).sum =
      (ds.map fun d => weight size (d ∩ b)).sum + (ds.map fun d => weight size (d \ b)).sum := by
    rw [← sum_map_add]
    simp only [weight_inter_add_sdiff]
  have hu := weight_inter_add_sdiff size (s := union ds) (t := b)
  rw [hd.independent]
  omega

omit [Digest] in
theorem weight_union_le_sum (ds : List (Finset Hash)) :
    weight size (union ds) ≤ (ds.map (weight size)).sum := by
  induction ds with
  | nil => exact le_refl _
  | cons d ds ih =>
    rw [map_cons, sum_cons]
    exact (weight_union_le size).trans (Nat.add_le_add_left ih _)

theorem countImages_balanced (index : Nat) (is : List (String × List Bytes)) (f : Fleet) :
    (countImages index is f).2.map (·.nonzeroChunkBytes) = is.map (nonzeroBytes ·.2) ∧
      ∀ i ∈ (countImages index is f).2,
        i.uniqueBytes ≤ i.nonzeroChunkBytes ∧ i.categories = i.nonzeroChunkBytes := by
  induction is generalizing index f with
  | nil => exact ⟨rfl, (fun i hi => by cases hi)⟩
  | cons i is ih =>
    have hb := countImage_balanced index f i.1 i.2
    obtain ⟨hmap, hall⟩ := ih (index + 1) (countImage index f i.1 i.2).1
    rw [countImages]
    refine ⟨?_, fun i' hi' => ?_⟩
    · rw [map_cons, map_cons, hb.nonzero, hmap]
    · obtain rfl | hi' := mem_cons.1 hi'
      · exact ⟨hb.unique, hb.categories⟩
      · exact hall i' hi'

theorem countFleet (i : String × List Bytes) (is : List (String × List Bytes))
    (hsized : ∀ i' ∈ i :: is, Sized size i'.2) :
    Done size (hashes i.2) (is.map fun i => hashes i.2) (countImages 0 (i :: is) .new).1 ∧
      (countImages 0 (i :: is) .new).2.map (·.uniqueBytes) =
        (i :: is).map fun i => weight size (hashes i.2) := by
  obtain ⟨hbase, hi⟩ := Done.base i.1 (hsized i mem_cons_self)
  obtain ⟨hdone, his⟩ := hbase.countImages is fun i' hi' => hsized i' (mem_cons_of_mem _ hi')
  refine ⟨hdone, ?_⟩
  rw [countImages, map_cons, map_cons, hi]
  exact congrArg (_ :: ·) his

/-- No two different chunks of the images have the same hash. -/
def NoCollision (chunkBytes : Nat) (sources : List Source) : Prop :=
  ∀ s ∈ sources, ∀ s' ∈ sources,
    ∀ c ∈ chunks chunkBytes s.content, ∀ c' ∈ chunks chunkBytes s'.content,
      nonzeroHash c ≠ none → nonzeroHash c = nonzeroHash c' → c = c'

variable {chunkBytes : Nat}

theorem NoCollision.sized {sources : List Source}
    (h : NoCollision chunkBytes sources) :
    ∃ size, ∀ s ∈ sources, Sized size (chunks chunkBytes s.content) := by
  let all := sources.flatMap fun s => chunks chunkBytes s.content
  refine ⟨fun hash => ((all.find? fun c => nonzeroHash c = some hash).map length).getD 0, ?_⟩
  intro s hs c hc hash hh
  have hmem : c ∈ all := mem_flatMap.2 ⟨s, hs, hc⟩
  obtain ⟨c', hc'⟩ := Option.isSome_iff_exists.1
    (find?_isSome (p := fun c => decide (nonzeroHash c = some hash)).2
      ⟨c, hmem, decide_eq_true hh⟩)
  have hh' : nonzeroHash c' = some hash := by simpa using find?_some hc'
  obtain ⟨s', hs', hc''⟩ := mem_flatMap.1 (mem_of_find?_eq_some hc')
  have heq : c = c' :=
    h s hs s' hs' c hc c' hc'' (by rw [hh]; exact Option.some_ne_none _) (hh.trans hh'.symm)
  dsimp only
  rw [hc', heq]
  rfl

omit [Digest] in
theorem chunkBytes_pos (h : chunkBytes ∈ CHUNK_SIZES) : 0 < chunkBytes := by
  simp only [CHUNK_SIZES, mem_cons, not_mem_nil, or_false] at h
  omega

/-- The result of a census whose images are all readable. -/
def result (sources : List Source) (chunkBytes : Nat) : Option Report :=
  let r := countImages 0 (sources.map (·.chunks chunkBytes)) .new
  report chunkBytes r.1 r.2

theorem scan_eq_ok {sources : List Source} {r : Option Report} :
    scan sources chunkBytes = .ok r ↔ sources ≠ [] ∧ chunkBytes ∈ CHUNK_SIZES ∧
      (∀ s ∈ sources, s.Readable chunkBytes) ∧ r = result sources chunkBytes := by
  rw [scan]
  split
  · next hbad =>
    refine iff_of_false nofun fun h => ?_
    exact hbad.elim h.1 fun hc => hc h.2.1
  · next hgood =>
    obtain ⟨hne, hsize⟩ := not_or.1 hgood
    have hsize := not_not.1 hsize
    rw [Except.bind_eq_ok]
    constructor
    · rintro ⟨x, hx, hr⟩
      obtain ⟨hall, rfl⟩ := (scanImages_eq_ok (chunkBytes_pos hsize)).1 hx
      cases hr
      exact ⟨hne, hsize, hall, rfl⟩
    · rintro ⟨-, -, hall, rfl⟩
      exact ⟨_, (scanImages_eq_ok (chunkBytes_pos hsize)).2 ⟨hall, rfl⟩, rfl⟩

/-- What is counted of a base and its descendants. -/
structure Report.Conserves (size : Hash → Nat) (chunkBytes : Nat) (base : Source)
    (ds : List Source) (c : Report) : Prop where
  images : c.images.length = (base :: ds).length
  nonzero : c.images.map (·.nonzeroChunkBytes) =
    (base :: ds).map fun s => nonzeroBytes (chunks chunkBytes s.content)
  categories : ∀ i ∈ c.images, i.categories = i.nonzeroChunkBytes
  unique : c.independentlyUniqueBytes = (c.images.map (·.uniqueBytes)).sum
  cross : c.fleetUniqueBytes + c.crossImageDuplicateBytes = c.independentlyUniqueBytes
  total : c.nonzeroChunkBytes = (c.images.map (·.nonzeroChunkBytes)).sum
  within : c.fleetUniqueBytes + c.crossImageDuplicateBytes + c.withinImageDuplicateBytes =
    c.nonzeroChunkBytes
  split : c.descendants.independentlyUniqueBytes = c.descendants.fleetUniqueBytes +
    c.descendants.baseContentDuplicateBytes + c.descendants.novelContentDuplicateBytes
  present : c.descendants.basePresentUniqueBytes ≤ c.descendants.fleetUniqueBytes
  totals : c.descendants = totals size (hashes (chunks chunkBytes base.content))
    (ds.map fun s => hashes (chunks chunkBytes s.content))

omit [Digest] in
theorem report_eq_some {images : List Image}
    (hcross : f.fleetUniqueBytes ≤ (images.map (·.uniqueBytes)).sum)
    (hwithin : (images.map (·.uniqueBytes)).sum ≤ (images.map (·.nonzeroChunkBytes)).sum) :
    report chunkBytes f images = some
      { chunkBytes, images
        nonzeroChunkBytes := (images.map (·.nonzeroChunkBytes)).sum
        independentlyUniqueBytes := (images.map (·.uniqueBytes)).sum
        fleetUniqueBytes := f.fleetUniqueBytes
        withinImageDuplicateBytes :=
          (images.map (·.nonzeroChunkBytes)).sum - (images.map (·.uniqueBytes)).sum
        crossImageDuplicateBytes := (images.map (·.uniqueBytes)).sum - f.fleetUniqueBytes
        descendants := f.descendants } := by
  rw [report, checkedSub_of_le hwithin, checkedSub_of_le hcross]
  rfl

theorem result_conserves {base : Source} {ds : List Source}
    (hsized : ∀ s ∈ base :: ds, Sized size (chunks chunkBytes s.content)) :
    ∃ c, result (base :: ds) chunkBytes = some c ∧ c.Conserves size chunkBytes base ds := by
  let is := ds.map (·.chunks chunkBytes)
  have hsized' : ∀ i ∈ base.chunks chunkBytes :: is, Sized size i.2 := by
    intro i hi
    obtain ⟨s, hs, rfl⟩ := mem_map.1 (show i ∈ (base :: ds).map (·.chunks chunkBytes) from hi)
    exact hsized s hs
  obtain ⟨hdone, hunique⟩ := countFleet (base.chunks chunkBytes) is hsized'
  obtain ⟨hnonzero, hbalanced⟩ := countImages_balanced 0 (base.chunks chunkBytes :: is) .new
  obtain ⟨hfleet, hpresent, -, -, htotal⟩ := hdone.counts
  rw [result, map_cons]
  change ∃ c, report chunkBytes (countImages 0 (base.chunks chunkBytes :: is) .new).1 _ = some c ∧ _
  generalize countImages 0 (base.chunks chunkBytes :: is) .new = r at *
  -- Nothing is counted twice for the fleet, nor for an image.
  have hcross : r.1.fleetUniqueBytes ≤ (r.2.map (·.uniqueBytes)).sum := by
    rw [hunique, htotal, map_cons, sum_cons]
    refine (weight_union_le size).trans (Nat.add_le_add_left ?_ _)
    refine (weight_union_le_sum _).trans (le_of_eq ?_)
    rw [map_map]
    rfl
  have hwithin : (r.2.map (·.uniqueBytes)).sum ≤ (r.2.map (·.nonzeroChunkBytes)).sum :=
    sum_le_sum fun i hi => (hbalanced i hi).1
  have hmap : (base.chunks chunkBytes :: is).map (nonzeroBytes ·.2) =
      (base :: ds).map fun s => nonzeroBytes (chunks chunkBytes s.content) := by
    rw [map_cons, map_map]
    rfl
  have htotals := hdone.totals
  rw [map_map] at htotals
  refine ⟨_, report_eq_some hcross hwithin, ?_⟩
  constructor
  case images =>
    have := congrArg length (hnonzero.trans hmap)
    rwa [length_map, length_map] at this
  case nonzero => exact hnonzero.trans hmap
  case categories => exact fun i hi => (hbalanced i hi).2
  case unique => rfl
  case cross => exact Nat.add_sub_cancel' hcross
  case total => rfl
  case within =>
    dsimp only
    omega
  case split => exact hdone.split
  case present =>
    dsimp only
    rw [hfleet, hpresent]
    exact weight_mono size Finset.inter_subset_left
  case totals => exact htotals

/-- The counters of a census balance, and none of its subtractions underflows, for any images that
are read without a collision: the five categories of an image add up to its nonzero bytes; the unique
bytes of the fleet and the duplicates across images add up to the unique bytes of the images, and
with the duplicates within images to all nonzero bytes; the unique bytes of the descendants are those
of their fleet and the duplicates of base and of novel content; what of them is in the base is at
most all of them; and the totals of the descendants do not depend on their order. Images that do not
change are read. -/
theorem scan_conserves (sources : List Source) (chunkBytes : Nat)
    (hno : NoCollision chunkBytes sources) :
    (sources ≠ [] → chunkBytes ∈ CHUNK_SIZES → (∀ s ∈ sources, s.Stable) →
      ∃ r, scan sources chunkBytes = .ok r) ∧
    ∀ r, scan sources chunkBytes = .ok r → ∃ c, r = some c ∧
      c.images.map (·.nonzeroChunkBytes) =
        sources.map (fun s => nonzeroBytes (chunks chunkBytes s.content)) ∧
      (∀ i ∈ c.images, i.baseInPlaceBytes + i.baseElsewhereBytes + i.priorImageOnlyBytes +
        i.withinImageOnlyBytes + i.newUniqueBytes = i.nonzeroChunkBytes) ∧
      c.fleetUniqueBytes + c.crossImageDuplicateBytes = (c.images.map (·.uniqueBytes)).sum ∧
      c.fleetUniqueBytes + c.crossImageDuplicateBytes + c.withinImageDuplicateBytes =
        (c.images.map (·.nonzeroChunkBytes)).sum ∧
      c.descendants.independentlyUniqueBytes = c.descendants.fleetUniqueBytes +
        c.descendants.baseContentDuplicateBytes + c.descendants.novelContentDuplicateBytes ∧
      c.descendants.basePresentUniqueBytes ≤ c.descendants.fleetUniqueBytes ∧
      ∀ base ds ds', sources = base :: ds → ds.Perm ds' →
        ∃ c', scan (base :: ds') chunkBytes = .ok (some c') ∧ c'.descendants = c.descendants := by
  obtain ⟨size, hsized⟩ := hno.sized
  constructor
  · intro hne hsize hstable
    refine ⟨_, scan_eq_ok.2 ⟨hne, hsize, fun s hs => ?_, rfl⟩⟩
    exact (hstable s hs).readable (chunkBytes_pos hsize)
  · intro r hr
    obtain ⟨hne, hsize, hall, rfl⟩ := scan_eq_ok.1 hr
    obtain ⟨base, ds, rfl⟩ := List.exists_cons_of_ne_nil hne
    obtain ⟨c, hc, h⟩ := result_conserves hsized
    refine ⟨c, hc, h.nonzero, h.categories, h.cross.trans h.unique, h.within.trans h.total, h.split,
      h.present, ?_⟩
    intro base' ds₁ ds' heq hperm
    cases heq
    have hmem : ∀ s ∈ base :: ds', s ∈ base :: ds := fun s hs => (hperm.cons base).mem_iff.2 hs
    obtain ⟨c', hc', h'⟩ := result_conserves fun s hs => hsized s (hmem s hs)
    refine ⟨c', scan_eq_ok.2 ⟨List.cons_ne_nil _ _, hsize, fun s hs => hall s (hmem s hs), hc'.symm⟩,
      ?_⟩
    rw [h.totals, h'.totals]
    exact (totals_perm (hperm.map _)).symm

omit [Digest] in
/-- An image of one byte, and a copy of it. -/
theorem scan_conserves_copy : let _ := nullDigest
    ∃ (source : Source) (c : Report), scan [source, source] 4096 = .ok (some c) ∧
      (c.images.map (·.nonzeroChunkBytes)).sum = 2 ∧
      c.fleetUniqueBytes + c.crossImageDuplicateBytes + c.withinImageDuplicateBytes = 2 := by
  let _ := nullDigest
  let source : Source :=
    ⟨"image", .ok (), .ok true, [7], [.interrupted, .short 0], .ok ⟨1, 0⟩, .ok ⟨1, 0⟩⟩
  have hsources : ∀ s ∈ [source, source], s = source := by simp
  have hno : NoCollision 4096 [source, source] := by
    intro s hs s' hs' c hc c' hc' _ _
    rw [hsources s hs] at hc
    rw [hsources s' hs'] at hc'
    exact (List.mem_singleton.1 hc).trans (List.mem_singleton.1 hc').symm
  have hstable : source.Stable := by
    refine ⟨rfl, rfl, ?_, 0, rfl, rfl⟩
    intro r hr
    fin_cases hr <;> trivial
  obtain ⟨hread, hcounts⟩ := scan_conserves [source, source] 4096 hno
  obtain ⟨r, hr⟩ := hread (List.cons_ne_nil _ _) List.mem_cons_self
    fun s hs => hsources s hs ▸ hstable
  obtain ⟨c, rfl, hnonzero, -, -, hsum, -⟩ := hcounts r hr
  have htotal : (c.images.map (·.nonzeroChunkBytes)).sum = 2 := by
    rw [hnonzero]
    rfl
  exact ⟨source, c, hr, htotal, hsum.trans htotal⟩

end

end Cas.Census
