import Cas.Manifest.Lookup

/-!
# The pages of a tree

`Visits P n c vs` refines `Holds`: `vs` lists, in the order of the traversal, every page of the
subtree under `c` and every extent. A traversal is a fold over that list (`Tree.visit_of_visits`), so
it depends on the pages in the list and on no other (`Visits.congr`).
-/

namespace Cas.Manifest

open List

/-- One call of a visitor: a page address or an extent. -/
abbrev Visit := Nat ⊕ Extent

/-- The page addresses of a traversal. -/
def pagesOf (vs : List Visit) : List Nat := vs.filterMap Sum.getLeft?

/-- The extents of a traversal. -/
def extentsOf (vs : List Visit) : List Extent := vs.filterMap Sum.getRight?

@[simp] theorem pagesOf_append (vs ws : List Visit) : pagesOf (vs ++ ws) = pagesOf vs ++ pagesOf ws :=
  filterMap_append

@[simp] theorem extentsOf_append (vs ws : List Visit) :
    extentsOf (vs ++ ws) = extentsOf vs ++ extentsOf ws := filterMap_append

@[simp] theorem pagesOf_page (o : Nat) (vs : List Visit) :
    pagesOf (.inl o :: vs) = o :: pagesOf vs := rfl

@[simp] theorem extentsOf_page (o : Nat) (vs : List Visit) : extentsOf (.inl o :: vs) = extentsOf vs :=
  rfl

@[simp] theorem pagesOf_map_extent (es : List Extent) : pagesOf (es.map .inr) = [] := by
  simp [pagesOf, filterMap_map, Function.comp_def]

@[simp] theorem extentsOf_map_extent (es : List Extent) : extentsOf (es.map .inr) = es := by
  simp [extentsOf, filterMap_map, Function.comp_def]

theorem mem_pagesOf {vs : List Visit} {o : Nat} : o ∈ pagesOf vs ↔ Sum.inl o ∈ vs := by
  simp [pagesOf, mem_filterMap, Sum.getLeft?_eq_some_iff]

/-! ## Forests -/

section Forest

variable {γ δ : Type} {level upper : Nat}

theorem Forest.exists_map {W : Cursor → List γ → Prop} {V : Cursor → List δ → Prop}
    {f : List δ → List γ} (hnil : f [] = []) (happ : ∀ a b, f (a ++ b) = f a ++ f b)
    (h : ∀ c out, W c out → ∃ vs, V c vs ∧ f vs = out) :
    ∀ {lower : Nat} {cs : List Child} {out : List γ}, Forest W level lower upper cs out →
      ∃ vs, Forest V level lower upper cs vs ∧ f vs = out
  | _, [], _, rfl => ⟨[], rfl, hnil⟩
  | _, _ :: _, _, ⟨h1, h2, a, b, h3, h4, h5⟩ => by
    obtain ⟨va, hva, rfl⟩ := h _ _ h4
    obtain ⟨vb, hvb, rfl⟩ := h5.exists_map hnil happ h
    exact ⟨va ++ vb, ⟨h1, h2, va, vb, rfl, hva, hvb⟩, by rw [happ, h3]⟩

theorem Forest.map {W : Cursor → List γ → Prop} {V : Cursor → List δ → Prop}
    {f : List γ → List δ} (hnil : f [] = []) (happ : ∀ a b, f (a ++ b) = f a ++ f b)
    (h : ∀ c out, W c out → V c (f out)) :
    ∀ {lower : Nat} {cs : List Child} {out : List γ}, Forest W level lower upper cs out →
      Forest V level lower upper cs (f out)
  | _, [], _, rfl => hnil
  | _, _ :: _, _, ⟨h1, h2, a, b, h3, h4, h5⟩ =>
    ⟨h1, h2, f a, f b, by rw [h3, happ], h _ _ h4, h5.map hnil happ h⟩

theorem Forest.mono_subset {W W' : Cursor → List γ → Prop} {all : List γ}
    (h : ∀ c out, out ⊆ all → W c out → W' c out) :
    ∀ {lower : Nat} {cs : List Child} {out : List γ}, out ⊆ all →
      Forest W level lower upper cs out → Forest W' level lower upper cs out
  | _, [], _, _, hf => hf
  | _, _ :: _, _, hs, ⟨h1, h2, a, b, h3, h4, h5⟩ => by
    subst h3
    obtain ⟨ha, hb⟩ := append_subset.1 hs
    exact ⟨h1, h2, a, b, rfl, h _ _ ha h4, h5.mono_subset h hb⟩

theorem Forest.subset_of_mem {W : Cursor → List γ → Prop} :
    ∀ {lower : Nat} {cs : List Child} {out : List γ}, Forest W level lower upper cs out →
      ∀ d ∈ cs, ∃ c a, c.offset = d.offset ∧ a ⊆ out ∧ W c a
  | _, [], _, _, _, hd => by cases hd
  | _, _ :: _, _, ⟨_, _, a, b, h3, h4, h5⟩, d, hd => by
    subst h3
    rcases mem_cons.1 hd with rfl | hd
    · exact ⟨_, a, rfl, subset_append_left _ _, h4⟩
    · obtain ⟨c, x, hc, hx, hw⟩ := h5.subset_of_mem d hd
      exact ⟨c, x, hc, List.Subset.trans hx (subset_append_right _ _), hw⟩

/-- Everything in the forest comes from one of its children. -/
theorem Forest.exists_mem {W : Cursor → List γ → Prop} {x : γ} :
    ∀ {lower : Nat} {cs : List Child} {out : List γ}, Forest W level lower upper cs out → x ∈ out →
      ∃ d ∈ cs, ∃ c a, c.offset = d.offset ∧ a ⊆ out ∧ x ∈ a ∧ W c a
  | _, [], _, h, hx => by
    cases h
    cases hx
  | _, d :: _, _, ⟨_, _, a, b, h3, h4, h5⟩, hx => by
    subst h3
    rcases mem_append.1 hx with hx | hx
    · exact ⟨d, by simp, _, a, rfl, subset_append_left _ _, hx, h4⟩
    · obtain ⟨d', hd', c, y, hc, hy, hxy, hw⟩ := h5.exists_mem hx
      exact ⟨d', mem_cons_of_mem _ hd', c, y, hc,
        List.Subset.trans hy (subset_append_right _ _), hxy, hw⟩

end Forest

/-! ## Subtrees -/

/-- The subtree of level `n` under `c` decodes completely and is traversed as `vs`. -/
def Visits (P : PageMap) : Nat → Cursor → List Visit → Prop
  | 0, c, vs => c.level = 0 ∧ ∃ es, nodeAt P c = .ok (.leaf es) ∧ vs = .inl c.offset :: es.map .inr
  | n + 1, c, vs => c.level = n + 1 ∧ ∃ children rest, nodeAt P c = .ok (.branch children) ∧
      vs = .inl c.offset :: rest ∧ Forest (Visits P n) n c.lower c.upper children rest

theorem Visits.holds {P : PageMap} : ∀ {n : Nat} {c : Cursor} {vs : List Visit},
    Visits P n c vs → Holds P n c (extentsOf vs)
  | 0, _, _, ⟨h1, es, h2, h3⟩ => ⟨h1, by rw [h3, extentsOf_page, extentsOf_map_extent]; exact h2⟩
  | _ + 1, _, _, ⟨h1, cs, rest, h2, h3, h4⟩ => by
    refine ⟨h1, cs, h2, ?_⟩
    rw [h3, extentsOf_page]
    exact Forest.map rfl extentsOf_append (fun c vs (h : Visits P _ c vs) => h.holds) h4

theorem Forest.holds {P : PageMap} {n level lower upper : Nat} {cs : List Child} {vs : List Visit}
    (h : Forest (Visits P n) level lower upper cs vs) :
    Forest (Holds P n) level lower upper cs (extentsOf vs) :=
  Forest.map (W := Visits P n) (V := Holds P n) rfl extentsOf_append (fun _ _ => Visits.holds) h

theorem Holds.visits {P : PageMap} : ∀ {n : Nat} {c : Cursor} {es : List Extent},
    Holds P n c es → ∃ vs, Visits P n c vs ∧ extentsOf vs = es
  | 0, c, es, ⟨h1, h2⟩ => ⟨_, ⟨h1, es, h2, rfl⟩, by simp⟩
  | _ + 1, c, es, ⟨h1, cs, h2, h3⟩ => by
    obtain ⟨rest, hf, he⟩ := Forest.exists_map rfl extentsOf_append
      (fun c es (h : Holds P _ c es) => h.visits) h3
    exact ⟨.inl c.offset :: rest, ⟨h1, cs, rest, h2, rfl, hf⟩, by rw [extentsOf_page, he]⟩

theorem Visits.mono {P P' : PageMap} (h : PageMap.Le P P') :
    ∀ {n : Nat} {c : Cursor} {vs : List Visit}, Visits P n c vs → Visits P' n c vs
  | 0, _, _, ⟨h1, es, h2, h3⟩ => ⟨h1, es, nodeAt_mono h h2, h3⟩
  | _ + 1, _, _, ⟨h1, cs, rest, h2, h3, h4⟩ =>
    ⟨h1, cs, rest, nodeAt_mono h h2, h3, h4.mono fun _ _ => Visits.mono h⟩

theorem nodeAt_congr {P P' : PageMap} {c : Cursor} (h : P' c.offset = P c.offset) :
    nodeAt P' c = nodeAt P c := by rw [nodeAt, h, nodeAt]

/-- **Frame law.** A subtree depends on its own pages only. -/
theorem Visits.congr {P P' : PageMap} : ∀ {n : Nat} {c : Cursor} {vs : List Visit},
    Visits P n c vs → (∀ o ∈ pagesOf vs, P' o = P o) → Visits P' n c vs
  | 0, c, _, ⟨h1, es, h2, h3⟩, hP => by
    subst h3
    exact ⟨h1, es, by rw [nodeAt_congr (hP c.offset (by simp)), h2], rfl⟩
  | n + 1, c, _, ⟨h1, cs, rest, h2, h3, h4⟩, hP => by
    subst h3
    refine ⟨h1, cs, rest, by rw [nodeAt_congr (hP c.offset (by simp)), h2], rfl, ?_⟩
    refine h4.mono_subset (fun k vs hsub hk => Visits.congr hk fun o ho => ?_)
      (List.Subset.refl rest)
    exact hP o (mem_cons_of_mem _ (mem_pagesOf.2 (hsub (mem_pagesOf.1 ho))))

theorem Visits.offset_mem {P : PageMap} : ∀ {n : Nat} {c : Cursor} {vs : List Visit},
    Visits P n c vs → c.offset ∈ pagesOf vs
  | 0, _, _, ⟨_, _, _, h⟩ => by rw [h]; simp
  | _ + 1, _, _, ⟨_, _, _, _, h, _⟩ => by rw [h]; simp

theorem node_of_nodeAt {P : PageMap} {c c' : Cursor} {node node' : Node}
    (ho : c'.offset = c.offset) (h : nodeAt P c = .ok node) (h' : nodeAt P c' = .ok node') :
    node = node' := by
  obtain ⟨p, hp, hd⟩ := Except.bind_eq_ok.1 h
  obtain ⟨p', hp', hd'⟩ := Except.bind_eq_ok.1 h'
  rw [ho, hp] at hp'
  cases hp'
  have hr := (Node.decode_eq_ok.1 hd).2.1
  have hr' := (Node.decode_eq_ok.1 hd').2.1
  cases node with
  | leaf es =>
    obtain ⟨hk, hes, -⟩ := Node.read_eq_leaf.1 hr
    cases node' with
    | leaf es' => rw [← hes, (Node.read_eq_leaf.1 hr').2.1]
    | branch cs =>
      rw [(Node.read_eq_branch.1 hr').1] at hk
      cases hk
  | branch cs =>
    obtain ⟨hk, hcs, -⟩ := Node.read_eq_branch.1 hr
    cases node' with
    | leaf es =>
      rw [(Node.read_eq_leaf.1 hr').1] at hk
      cases hk
    | branch cs' => rw [← hcs, (Node.read_eq_branch.1 hr').2.1]

/-- Every page of a subtree is a tree page, and its children are pages of the subtree. -/
theorem Visits.closed {P : PageMap} : ∀ {n : Nat} {c : Cursor} {vs : List Visit}, Visits P n c vs →
    ∀ o ∈ pagesOf vs, ∃ k node, k.offset = o ∧ nodeAt P k = .ok node ∧
      ∀ cs, node = .branch cs → ∀ d ∈ cs, d.offset ∈ pagesOf vs
  | 0, c, _, ⟨_, es, h2, h3⟩, o, ho => by
    subst h3
    simp only [pagesOf_page, pagesOf_map_extent, mem_singleton] at ho
    exact ⟨c, _, ho.symm, h2, by rintro cs ⟨⟩⟩
  | n + 1, c, _, ⟨_, cs, rest, h2, h3, h4⟩, o, ho => by
    subst h3
    rcases mem_cons.1 ho with rfl | ho
    · refine ⟨c, _, rfl, h2, ?_⟩
      rintro _ ⟨⟩ d hd
      obtain ⟨k, a, hk, hsub, hv⟩ := h4.subset_of_mem d hd
      rw [← hk]
      exact mem_cons_of_mem _ (mem_pagesOf.2 (hsub (mem_pagesOf.1 hv.offset_mem)))
    · obtain ⟨d, -, k, a, -, hsub, hin, hv⟩ := h4.exists_mem (mem_pagesOf.1 ho)
      obtain ⟨k', node, hk', hnode, hcs⟩ := hv.closed o (mem_pagesOf.2 hin)
      refine ⟨k', node, hk', hnode, fun cs hb d hd => ?_⟩
      exact mem_cons_of_mem _ (mem_pagesOf.2 (hsub (mem_pagesOf.1 (hcs cs hb d hd))))

/-- The pages of a subtree that lie in a set closed under children. -/
theorem Visits.within {P : PageMap} {S : Nat → Prop}
    (hS : ∀ k cs, S k.offset → nodeAt P k = .ok (.branch cs) → ∀ d ∈ cs, S d.offset) :
    ∀ {n : Nat} {c : Cursor} {vs : List Visit}, Visits P n c vs → S c.offset →
      ∀ o ∈ pagesOf vs, S o
  | 0, c, _, ⟨_, _, _, h3⟩, hc, o, ho => by
    subst h3
    simp only [pagesOf_page, pagesOf_map_extent, mem_singleton] at ho
    rw [ho]
    exact hc
  | n + 1, c, _, ⟨_, cs, rest, h2, h3, h4⟩, hc, o, ho => by
    subst h3
    rcases mem_cons.1 ho with rfl | ho
    · exact hc
    · obtain ⟨d, hd, k, a, hk, -, hin, hv⟩ := h4.exists_mem (mem_pagesOf.1 ho)
      exact hv.within hS (hk ▸ hS c cs hc h2 d hd) o (mem_pagesOf.2 hin)

theorem Visits.le_offset [Digest] {imageBytes : Nat} {P : PageMap} (hP : P.Decoded imageBytes)
    {n : Nat} {c : Cursor} {vs : List Visit} (h : Visits P n c vs) :
    ∀ o ∈ pagesOf vs, o ≤ c.offset :=
  h.within (S := fun o => o ≤ c.offset)
    (fun _ _ hk hb d hd => (le_of_lt (offset_lt_of_branch hP hb d hd)).trans hk) (le_refl _)

/-! ## Distinct pages -/

section Distinct

/-- Everything in the forest comes from a child inside its bounds. -/
theorem Forest.exists_between {γ : Type} {W : Cursor → List γ → Prop} {level upper : Nat} {x : γ} :
    ∀ {lower : Nat} {cs : List Child} {out : List γ}, Forest W level lower upper cs out → x ∈ out →
      ∃ c a, lower ≤ c.lower ∧ c.upper ≤ upper ∧ x ∈ a ∧ W c a
  | _, [], _, h, hx => by
    cases h
    cases hx
  | lower, d :: cs, _, ⟨h1, h2, a, b, h3, h4, h5⟩, hx => by
    subst h3
    have hnext := h5.nextStart_le
    rcases mem_append.1 hx with hx | hx
    · exact ⟨_, a, le_refl _, hnext, hx, h4⟩
    · obtain ⟨c, y, hlow, hup, hy, hw⟩ := h5.exists_between hx
      exact ⟨c, y, (le_of_lt (lt_of_le_of_lt h1 h2)).trans hlow, hup, hy, hw⟩

variable [Digest] {imageBytes : Nat} {P : PageMap} (hP : P.Decoded imageBytes)
include hP

theorem Visits.minimum : ∀ {n : Nat} {c : Cursor} {vs : List Visit}, Visits P n c vs →
    ∀ o ∈ pagesOf vs, ∃ k node, k.offset = o ∧ nodeAt P k = .ok node ∧
      c.lower ≤ node.minimum ∧ node.minimum < c.upper
  | 0, c, _, ⟨_, es, h2, h3⟩, o, ho => by
    subst h3
    simp only [pagesOf_page, pagesOf_map_extent, mem_singleton] at ho
    obtain ⟨-, hne, hord, -⟩ := leaf_of_nodeAt hP h2
    cases es with
    | nil => exact (hne rfl).elim
    | cons e es => exact ⟨c, _, ho.symm, h2, hord.1, lt_of_lt_of_le hord.2.1 hord.2.2.1⟩
  | n + 1, c, _, ⟨_, cs, rest, h2, h3, h4⟩, o, ho => by
    subst h3
    rcases mem_cons.1 ho with rfl | ho
    · obtain ⟨-, hne, -, hb, -⟩ := branch_of_nodeAt hP h2
      cases cs with
      | nil => exact (hne rfl).elim
      | cons d ds => exact ⟨c, _, rfl, h2, hb d (by simp)⟩
    · obtain ⟨k, a, hlow, hup, hin, hv⟩ := h4.exists_between (mem_pagesOf.1 ho)
      obtain ⟨k', node, hk', hnode, h5, h6⟩ := hv.minimum o (mem_pagesOf.2 hin)
      exact ⟨k', node, hk', hnode, hlow.trans h5, lt_of_lt_of_le h6 hup⟩

/-- Subtrees of disjoint ranges share no page: a page starts in one of them. -/
theorem Forest.nodup {n level upper : Nat}
    (hW : ∀ c vs, Visits P n c vs → (pagesOf vs).Nodup) :
    ∀ {lower : Nat} {cs : List Child} {vs : List Visit},
      Forest (Visits P n) level lower upper cs vs → (pagesOf vs).Nodup
  | _, [], _, h => by
    cases h
    exact nodup_nil
  | _, d :: cs, _, ⟨_, _, a, b, h3, h4, h5⟩ => by
    subst h3
    rw [pagesOf_append]
    refine nodup_append'.2 ⟨hW _ _ h4, h5.nodup hW, fun o ha hb => ?_⟩
    obtain ⟨k, node, hk, hnode, -, hlt⟩ := h4.minimum hP o ha
    obtain ⟨c, y, hlow, -, hy, hw⟩ := h5.exists_between (mem_pagesOf.1 hb)
    obtain ⟨k', node', hk', hnode', hle, -⟩ := hw.minimum hP o (mem_pagesOf.2 hy)
    rw [node_of_nodeAt (hk'.trans hk.symm) hnode hnode'] at hlt
    exact absurd (hlow.trans hle) (not_le.2 hlt)

theorem Visits.nodup : ∀ {n : Nat} {c : Cursor} {vs : List Visit}, Visits P n c vs →
    (pagesOf vs).Nodup
  | 0, _, _, ⟨_, es, _, h3⟩ => by
    subst h3
    simp
  | n + 1, c, _, ⟨_, cs, rest, h2, h3, h4⟩ => by
    subst h3
    rw [pagesOf_page]
    refine nodup_cons.2 ⟨fun hin => ?_, h4.nodup hP fun _ _ => Visits.nodup⟩
    obtain ⟨d, hd, k, a, hk, -, hx, hv⟩ := h4.exists_mem (mem_pagesOf.1 hin)
    have hle := hv.le_offset hP _ (mem_pagesOf.2 hx)
    have hlt := offset_lt_of_branch hP h2 d hd
    omega

end Distinct

/-! ## Traversal -/

/-- The visitors of a traversal as one. -/
def visitWith {σ : Type} (page : σ → Nat → Except IoError σ)
    (visitor : σ → Extent → Except IoError σ) (s : σ) : Visit → Except IoError σ
  | .inl o => page s o
  | .inr e => visitor s e

section Fold

variable {σ : Type} {page : σ → Nat → Except IoError σ} {visitor : σ → Extent → Except IoError σ}

theorem foldlM_map_extent (es : List Extent) (s : σ) :
    (es.map Sum.inr).foldlM (visitWith page visitor) s = es.foldlM visitor s := by
  rw [foldlM_map]
  rfl

theorem Forest.foldlM_visits {W : Cursor → List Visit → Prop} {level upper : Nat}
    {f : σ → Cursor → Except IoError σ}
    (hf : ∀ c vs s, W c vs → f s c = vs.foldlM (visitWith page visitor) s) :
    ∀ {lower : Nat} {cs : List Child} {vs : List Visit}, Forest W level lower upper cs vs →
      ∀ s, (kidsFrom level lower upper cs).foldlM f s = vs.foldlM (visitWith page visitor) s
  | _, [], _, h, s => by
    cases h
    rfl
  | _, c :: cs, _, ⟨_, _, a, b, h3, h4, h5⟩, s => by
    subst h3
    rw [kidsFrom, foldlM_cons, foldlM_append, hf _ _ _ h4]
    congr 1
    funext s
    exact h5.foldlM_visits hf s

theorem Tree.visit_of_visits [Digest] {t : Tree} : ∀ {n fuel : Nat} {c : Cursor} {vs : List Visit}
    (s : σ), n < fuel → Visits t.pages n c vs →
      t.visit page visitor fuel c s = vs.foldlM (visitWith page visitor) s
  | 0, fuel + 1, c, _, s, _, ⟨_, es, h, hv⟩ => by
    subst hv
    rw [visit, readNode_eq, h, Except.ok_bind, foldlM_cons]
    simp only [foldlM_map_extent, visitWith]
  | n + 1, fuel + 1, c, _, s, hn, ⟨hl, cs, rest, h, hv, hf⟩ => by
    subst hv
    rw [visit, readNode_eq, h, Except.ok_bind, foldlM_cons]
    simp only [Cursor.kids_eq, hl, add_sub_cancel, visitWith]
    refine bind_congr fun s => ?_
    exact Forest.foldlM_visits (W := Visits t.pages n)
      (fun c vs s hc => visit_of_visits s (by omega) hc) hf s

end Fold

namespace Tree

variable [Digest] {t : Tree} {vs : List Visit}

/-- The whole tree is traversed as `vs`; an empty root has no pages. -/
def VisitsAll (t : Tree) (vs : List Visit) : Prop :=
  if t.commit.root.offset = 0 then vs = []
  else Visits t.pages (t.commit.root.height - 1) (Cursor.root t.commit) vs

theorem VisitsAll.holdsAll (h : t.VisitsAll vs) : t.HoldsAll (extentsOf vs) := by
  unfold VisitsAll at h
  unfold HoldsAll
  split
  · rename_i h0
    rw [if_pos h0] at h
    rw [h]
    rfl
  · rename_i h0
    rw [if_neg h0] at h
    exact h.holds

theorem HoldsAll.visitsAll {es : List Extent} (h : t.HoldsAll es) :
    ∃ vs, t.VisitsAll vs ∧ extentsOf vs = es := by
  unfold HoldsAll at h
  unfold VisitsAll
  split at h
  · rename_i h0
    exact ⟨[], by rw [if_pos h0], by rw [h]; rfl⟩
  · rename_i h0
    obtain ⟨vs, hv, he⟩ := h.visits
    exact ⟨vs, by rw [if_neg h0]; exact hv, he⟩

theorem VisitsAll.walkPages {σ : Type} (h : t.VisitsAll vs) (page : σ → Nat → Except IoError σ)
    (visitor : σ → Extent → Except IoError σ) (s : σ) :
    t.walkPages page visitor s = vs.foldlM (visitWith page visitor) s := by
  unfold VisitsAll at h
  unfold Tree.walkPages
  split at h
  · rename_i h0
    rw [if_neg (by simpa using h0), h]
    rfl
  · rename_i h0
    rw [if_pos h0]
    exact visit_of_visits s (Nat.lt_succ_self _) h

/-- **Frame law** for views: two sources that agree on the pages of a view give the same view. -/
theorem VisitsAll.congr (h : t.VisitsAll vs) {source : PageReader}
    (hs : ∀ o ∈ pagesOf vs, source o = t.source o) :
    (Tree.mk source t.commit t.stop).VisitsAll vs := by
  unfold VisitsAll at *
  split at h
  · rename_i h0
    rw [if_pos h0, h]
  · rename_i h0
    rw [if_neg h0]
    refine h.congr fun o ho => ?_
    simp only [Tree.pages, hs o ho]

theorem VisitsAll.lt_stop (h : t.VisitsAll vs) : ∀ o ∈ pagesOf vs, o ≠ 0 ∧ o % BLOCK_SIZE = 0 ∧
    o < t.stop - BLOCK_SIZE := by
  unfold VisitsAll at h
  intro o ho
  split at h
  · rw [h] at ho
    cases ho
  · obtain ⟨k, node, hk, hnode, -⟩ := h.closed o ho
    obtain ⟨p, hp, -⟩ := Except.bind_eq_ok.1 hnode
    obtain ⟨h1, h2⟩ := offset_of_nodeAt t.pages_decoded hnode
    rw [← hk]
    exact ⟨h1, h2, (Tree.pages_eq_ok.1 hp).1⟩

end Tree

end Cas.Manifest
