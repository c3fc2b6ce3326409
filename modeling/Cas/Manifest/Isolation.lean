import Cas.Manifest.Owner

/-!
# Snapshots and clones are isolated

A `World` is a host's manifests: images with their handles, and immutable snapshots. A snapshot shares
the source file up to its key, and a clone appends one COMMIT of its own to such a copy, so both map
what the source root mapped. Reflinked files share no later write: every operation changes one file,
and within that file it keeps the pages of all pinned roots (`Handles.Step.keeps`). Selection on a
clone ends at the last COMMIT of the clone, above everything inherited.
-/

namespace Cas.Manifest

open Bytes List
open Except (bind_eq_ok)

/-! ## Mappings -/

section Mapping

variable [Digest]

end Mapping

/-! ## Operations on one manifest -/

namespace Handles

variable [Digest] {s s' : Handles}

/-- Every root pinned by the owner or a handle is complete, failed output or not. -/
def AllRooted (s : Handles) : Prop := ∀ key ∈ s.pinned, ∃ vs, Rooted s.manifest.file key vs

/-- An operation keeps every pinned root complete and its traversal the same. -/
theorem Step.keeps (hs : Step s s') (h : s.Holds) (hr : s.AllRooted) {key : View} {vs : List Visit}
    (hk : key ∈ s.pinned) (hv : Rooted s.manifest.file key vs) : Rooted s'.manifest.file key vs := by
  cases hs with
  | view hview =>
    obtain ⟨u, -, hview⟩ := bind_eq_ok.1 hview
    obtain ⟨pins, -, hview⟩ := bind_eq_ok.1 hview
    cases hview
    exact hv
  | cloneView => exact hv
  | dropView => exact hv
  | lookup => exact hv
  | accept => exact hv
  | dropRead => exact hv
  | prepare => exact hv
  | @publish p hp output =>
    cases hc : s.manifest.checkPublish p with
    | error e =>
      have hsame : (s.manifest.publish p output).1 = s.manifest := by
        unfold Manifest.publish
        rw [hc]
      rw [hsame]
      exact hv
    | ok pins =>
      obtain ⟨hf, -⟩ := checkPublish_eq_ok hc
      have hlen := (h.sound hf).length
      have hext := Manifest.extends_publish (le_of_eq hlen.symm) p output
      have hstop : key.stop ≤ s.manifest.stop := hlen ▸ hv.stop_le
      exact hv.transfer_below (hstop.trans (hext.stop_le.trans hext.length_le))
        fun o n hn => hext.slice o n (hn.trans hstop)
  | reclaim =>
    have hkeep := reclaimRoots_keeps (fun k hk => hr k (h.mem_capture.1 hk))
    have hroot : Rooted (reclaimRoots s.manifest.file s.manifest.pins.capture).1 key vs :=
      hv.transfer (by rw [hkeep.1]; exact hv.stop_le) (hkeep.2 key (h.mem_capture.2 hk) vs hv)
    unfold Manifest.reclaimPages
    split
    · exact hv
    · split
      · rename_i hrun
        rw [hrun] at hroot
        exact hroot
      · rename_i hrun
        rw [hrun] at hroot
        exact hroot

theorem Step.pinned_subset (hs : Step s s') : s'.pinned ⊆ s.pinned ∨ s'.manifest.failed = false := by
  cases hs with
  | view hview =>
    obtain ⟨u, -, hview⟩ := bind_eq_ok.1 hview
    obtain ⟨pins, -, hview⟩ := bind_eq_ok.1 hview
    cases hview
    refine Or.inl fun key hkey => ?_
    simp only [pinned, live, mem_cons, cons_append] at hkey ⊢
    tauto
  | cloneView hv hc =>
    refine Or.inl fun key hkey => ?_
    simp only [pinned, live, withPins, Manifest.key, mem_cons, mem_append] at hkey ⊢
    rcases hkey with hkey | (rfl | hkey) | hkey
    · exact Or.inl hkey
    · exact Or.inr (Or.inl hv)
    · exact Or.inr (Or.inl hkey)
    · exact Or.inr (Or.inr hkey)
  | dropView hv hd =>
    refine Or.inl fun key hkey => ?_
    simp only [pinned, live, withPins, Manifest.key, mem_cons, mem_append] at hkey ⊢
    exact hkey.imp_right (Or.imp_left mem_of_mem_erase)
  | lookup hv hl hc =>
    refine Or.inl fun key hkey => ?_
    simp only [pinned, live, withPins, Manifest.key, mem_cons, mem_append,
      map_cons] at hkey ⊢
    rcases hkey with hkey | hkey | rfl | hkey
    · exact Or.inl hkey
    · exact Or.inr (Or.inl hkey)
    · exact Or.inr (Or.inl hv)
    · exact Or.inr (Or.inr hkey)
  | accept hr offset bytes =>
    refine Or.inl fun key hkey => ?_
    simp only [pinned, live, hr, map_append, map_cons] at hkey ⊢
    exact hkey
  | dropRead hr hd =>
    refine Or.inl fun key hkey => ?_
    simp only [pinned, live, withPins, Manifest.key, hr, map_append, map_cons, mem_cons,
      mem_append] at hkey ⊢
    tauto
  | prepare => exact Or.inl fun key hkey => hkey
  | @publish p hp output =>
    unfold Manifest.publish
    split
    · exact Or.inl fun key hkey => hkey
    · split
      · exact Or.inl fun key hkey => hkey
      · dsimp only
        split
        · exact Or.inl fun key hkey => hkey
        · exact Or.inr rfl
  | reclaim =>
    refine Or.inl fun key hkey => ?_
    have hkey' : s.manifest.reclaimPages.1.key = s.manifest.key := by
      unfold Manifest.reclaimPages
      split
      · rfl
      · split <;> rfl
    simp only [pinned, hkey'] at hkey ⊢
    exact hkey

theorem Reachable.allRooted (h : Reachable s) : s.AllRooted := by
  induction h with
  | start h =>
    intro key hkey
    rw [mem_singleton.1 hkey]
    exact h.fresh.1.rooted
  | @step s s' h hs ih =>
    rcases hs.pinned_subset with hsub | hf
    · intro key hkey
      obtain ⟨vs, hvs⟩ := ih key (hsub hkey)
      exact ⟨vs, hs.keeps h.holds ih (hsub hkey) hvs⟩
    · exact ((h.step hs).holds.sound hf).rooted

/-- Any number of operations. -/
abbrev Run : Handles → Handles → Prop := Relation.ReflTransGen Step

theorem Reachable.run (h : Reachable s) (hr : Run s s') : Reachable s' := by
  induction hr with
  | refl => exact h
  | tail _ hs ih => exact ih.step hs

variable {identity : Identity}

theorem Step.agrees (hs : Step s s') (h : s.Holds)
    (hid : identity.agrees s.manifest.current = true) :
    identity.agrees s'.manifest.current = true := by
  cases hs with
  | view hview =>
    obtain ⟨u, -, hview⟩ := bind_eq_ok.1 hview
    obtain ⟨pins, -, hview⟩ := bind_eq_ok.1 hview
    cases hview
    exact hid
  | cloneView => exact hid
  | dropView => exact hid
  | lookup => exact hid
  | accept => exact hid
  | dropRead => exact hid
  | prepare => exact hid
  | @publish p hp output =>
    unfold Manifest.publish
    cases hc : s.manifest.checkPublish p with
    | error e => exact hid
    | ok pins =>
      obtain ⟨h1, h2, h3⟩ := of_decide_eq_true hid
      obtain ⟨i1, i2, i3⟩ := (h.transaction hp hc).identity
      dsimp only
      split
      · exact hid
      · split
        · exact hid
        · exact decide_eq_true ⟨h1.trans i1.symm, h2.trans i2.symm, h3.trans i3.symm⟩
  | reclaim =>
    unfold Manifest.reclaimPages
    split
    · exact hid
    · split
      · exact hid
      · exact hid

theorem Run.agrees (h : Reachable s) (hr : Run s s')
    (hid : identity.agrees s.manifest.current = true) :
    identity.agrees s'.manifest.current = true := by
  induction hr with
  | refl => exact hid
  | tail hr hs ih => exact hs.agrees (h.run hr).holds ih

/-- A crash image in which the last synced COMMIT, its tree and FILE are intact; every other page may
hold anything. -/
structure Intact (s : Handles) (file : Bytes) : Prop where
  length : file.length = s.manifest.file.length
  pages : ∀ vs, Rooted s.manifest.file s.manifest.key vs → ∀ o ∈ s.manifest.key.marks vs,
    file.slice o BLOCK_SIZE = s.manifest.file.slice o BLOCK_SIZE

end Handles

/-! ## Snapshots -/

namespace Snapshot

variable [Digest]

/-- `Snapshot::inspect` followed by `SnapshotInspection::recover`. -/
def inspect (file : Bytes) (key : View) (verifyChunk : Hash → Except IoError Unit) :
    Except IoError Snapshot := do
  key.validate
  key.verify file
  let tree ← Tree.new (filePages file) key.commit key.stop
  tree.walk (fun (_ : Unit) extent => match extent.hash with
    | some hash => verifyChunk hash
    | none => .ok ()) ()
  let pins ← Pins.successor [] key
  return ⟨file, key, false, pins⟩

/-- A snapshot pins its one complete root. -/
structure Sound (snap : Snapshot) : Prop where
  pins : snap.pins = [⟨snap.key, 1⟩]
  rooted : ∃ vs, Rooted snap.file snap.key vs

variable {key : View} {vs : List Visit} {snap : Snapshot}

theorem sound_create {source : Bytes}
    (hs : Rooted source key vs) (h : Snapshot.create source key = .ok snap) :
    snap.Sound ∧ snap.key = key ∧ Rooted snap.file key vs := by
  obtain ⟨pins, hpins, h⟩ := bind_eq_ok.1 h
  obtain ⟨file, hfile, h⟩ := bind_eq_ok.1 h
  cases h
  obtain ⟨u, -, hfile⟩ := bind_eq_ok.1 hfile
  obtain ⟨w, -, hfile⟩ := bind_eq_ok.1 hfile
  cases hfile
  have hroot : Rooted (source.take key.stop) key vs := by
    refine hs.transfer_below ?_ fun o n hn => ?_
    · rw [length_take]
      exact Nat.le_min.2 ⟨le_refl _, hs.stop_le⟩
    · rw [take_eq_slice, slice_slice (by omega), zero_add]
  exact ⟨⟨Pins.successor_nil hpins, vs, hroot⟩, rfl, hroot⟩

theorem sound_inspect {file : Bytes} {verifyChunk : Hash → Except IoError Unit}
    (h : Snapshot.inspect file key verifyChunk = .ok snap) : snap.Sound := by
  obtain ⟨u, -, h⟩ := bind_eq_ok.1 h
  obtain ⟨v, hverify, h⟩ := bind_eq_ok.1 h
  obtain ⟨tree, htree, h⟩ := bind_eq_ok.1 h
  obtain ⟨w, hwalk, h⟩ := bind_eq_ok.1 h
  obtain ⟨pins, hpins, h⟩ := bind_eq_ok.1 h
  cases h
  obtain ⟨x, hvalid, htree⟩ := bind_eq_ok.1 htree
  cases htree
  obtain ⟨y, -, hverify⟩ := bind_eq_ok.1 hverify
  obtain ⟨hlen, hverify⟩ := require_bind_eq_ok.1 hverify
  obtain ⟨b0, hb0, hverify⟩ := bind_eq_ok.1 hverify
  obtain ⟨header, hheader, hverify⟩ := bind_eq_ok.1 hverify
  obtain ⟨⟨hstore, himg⟩, hverify⟩ := require_bind_eq_ok.1 hverify
  obtain ⟨b1, hb1, hverify⟩ := bind_eq_ok.1 hverify
  obtain ⟨page, hpage, hverify⟩ := bind_eq_ok.1 hverify
  obtain ⟨commit, hcommit, hverify⟩ := bind_eq_ok.1 hverify
  obtain rfl := require_eq_ok.1 hverify
  obtain ⟨-, -, rfl⟩ := readBytes_eq_ok.1 hb0
  obtain ⟨-, -, hb1⟩ := readBytes_eq_ok.1 hb1
  rw [hb1] at hpage
  obtain ⟨es, hes⟩ := Tree.holdsAll_of_walkPages hwalk
  obtain ⟨vs, hvs, -⟩ := hes.visitsAll
  have hroot : Rooted file key vs := by
    refine ⟨hvalid, le_of_eq hlen.symm, ⟨header, ?_, hstore, himg⟩, ⟨page, ?_, ?_⟩, hvs⟩
    · exact hheader
    · exact hpage
    · exact hcommit
  exact ⟨Pins.successor_nil hpins, vs, hroot⟩

/-- Reclamation keeps the root of a snapshot, whatever its result. -/
theorem Sound.reclaim (h : snap.Sound)
    (hv : Rooted snap.file snap.key vs) :
    snap.reclaimPages.1.Sound ∧ snap.reclaimPages.1.key = snap.key ∧
      Rooted snap.reclaimPages.1.file snap.key vs := by
  have hcap : snap.pins.capture = [snap.key] := by
    rw [h.pins]
    simp [Pins.capture]
  have hroots : ∀ key ∈ snap.pins.capture, ∃ vs, Rooted snap.file key vs := by
    rw [hcap]
    intro key hkey
    rw [mem_singleton.1 hkey]
    exact h.rooted
  have hkeep := reclaimRoots_keeps hroots
  have hroot : Rooted (reclaimRoots snap.file snap.pins.capture).1 snap.key vs :=
    hv.transfer (by rw [hkeep.1]; exact hv.stop_le) (hkeep.2 snap.key (by rw [hcap]; simp) vs hv)
  unfold reclaimPages
  split
  · exact ⟨h, rfl, hv⟩
  · split
    · rename_i hrun
      rw [hrun] at hroot
      exact ⟨⟨h.pins, vs, hroot⟩, rfl, hroot⟩
    · rename_i hrun
      rw [hrun] at hroot
      exact ⟨⟨h.pins, vs, hroot⟩, rfl, hroot⟩

end Snapshot

/-! ## A host's manifests -/

/-- Images and snapshots, each with a file of its own. -/
structure World where
  images : List Handles
  snapshots : List Snapshot

namespace World

variable {i : Nat}

/-- An element of a list with one more is an old one or the new one. -/
theorem getElem?_concat_cases {α : Type} {l : List α} {a b : α}
    (h : (l ++ [a])[i]? = some b) : l[i]? = some b ∨ b = a := by
  rcases lt_or_ge i l.length with hi | hi
  · rw [getElem?_append_left hi] at h
    exact Or.inl h
  · rw [getElem?_append_right hi] at h
    exact Or.inr (mem_singleton.1 (mem_of_getElem? h))

/-- An element of an updated list is the new one or an old one at another place. -/
theorem getElem?_set_cases {α : Type} {l : List α} {a b : α} {j : Nat}
    (h : (l.set i a)[j]? = some b) : (j = i ∧ b = a) ∨ (j ≠ i ∧ l[j]? = some b) := by
  by_cases hij : j = i
  · subst hij
    refine Or.inl ⟨rfl, ?_⟩
    rw [getElem?_set_self'] at h
    obtain ⟨x, -, hx⟩ := Option.map_eq_some_iff.1 h
    exact hx.symm
  · rw [getElem?_set_ne (Ne.symm hij)] at h
    exact Or.inr ⟨hij, h⟩

variable [Digest]

/-- One operation on one image or snapshot, or a new one. -/
inductive Step : World → World → Prop
  | start {w : World} {m : Manifest} (h : m.Starts) :
    Step w { w with images := w.images ++ [⟨m, [], [], []⟩] }
  | image {w : World} {i : Nat} {s s' : Handles} (hi : w.images[i]? = some s)
    (hs : Handles.Step s s') : Step w { w with images := w.images.set i s' }
  | snapshot {w : World} {i : Nat} {s : Handles} {v : View} {snap : Snapshot}
    (hi : w.images[i]? = some s) (hv : v ∈ s.views)
    (h : Snapshot.create s.manifest.file v = .ok snap) :
    Step w { w with snapshots := w.snapshots ++ [snap] }
  | inspect {w : World} {file : Bytes} {key : View} {verifyChunk : Hash → Except IoError Unit}
    {snap : Snapshot} (h : Snapshot.inspect file key verifyChunk = .ok snap) :
    Step w { w with snapshots := w.snapshots ++ [snap] }
  | reclaim {w : World} {k : Nat} {snap : Snapshot} (hk : w.snapshots[k]? = some snap) :
    Step w { w with snapshots := w.snapshots.set k snap.reclaimPages.1 }
  | clone {w : World} {k : Nat} {snap : Snapshot} {identity : Identity} {m : Manifest}
    (hk : w.snapshots[k]? = some snap) (h : Manifest.cloneSnapshot snap identity = .ok m) :
    Step w { w with images := w.images ++ [⟨m, [], [], []⟩] }

abbrev Run : World → World → Prop := Relation.ReflTransGen Step

/-- The worlds of every history. -/
def Reachable (w : World) : Prop := Run ⟨[], []⟩ w

/-- What holds of every image and snapshot. -/
structure Holds (w : World) : Prop where
  images : ∀ (i : Nat) (s : Handles), w.images[i]? = some s → s.Reachable
  snapshots : ∀ (k : Nat) (snap : Snapshot), w.snapshots[k]? = some snap → snap.Sound

variable {w w' : World}

theorem Holds.step (h : w.Holds) (hs : Step w w') : w'.Holds := by
  cases hs with
  | start hm =>
    refine ⟨fun i s hi => ?_, h.snapshots⟩
    rcases getElem?_concat_cases hi with hi | rfl
    · exact h.images i s hi
    · exact .start hm
  | image hi hs =>
    refine ⟨fun j t hj => ?_, h.snapshots⟩
    rcases getElem?_set_cases hj with ⟨rfl, rfl⟩ | ⟨-, hj⟩
    · exact (h.images _ _ hi).step hs
    · exact h.images j t hj
  | snapshot hi hv hsnap =>
    refine ⟨h.images, fun k t hk => ?_⟩
    rcases getElem?_concat_cases hk with hk | rfl
    · exact h.snapshots k t hk
    · obtain ⟨vs, hvs⟩ := (h.images _ _ hi).allRooted _
        (mem_cons_of_mem _ (mem_append_left _ hv))
      exact (Snapshot.sound_create hvs hsnap).1
  | inspect hsnap =>
    refine ⟨h.images, fun k t hk => ?_⟩
    rcases getElem?_concat_cases hk with hk | rfl
    · exact h.snapshots k t hk
    · exact Snapshot.sound_inspect hsnap
  | reclaim hk =>
    refine ⟨h.images, fun j t hj => ?_⟩
    rcases getElem?_set_cases hj with ⟨rfl, rfl⟩ | ⟨-, hj⟩
    · obtain ⟨vs, hvs⟩ := (h.snapshots _ _ hk).rooted
      exact ((h.snapshots _ _ hk).reclaim hvs).1
    · exact h.snapshots j t hj
  | clone hk hm =>
    refine ⟨fun i s hi => ?_, h.snapshots⟩
    rcases getElem?_concat_cases hi with hi | rfl
    · exact h.images i s hi
    · obtain ⟨vs, hvs⟩ := (h.snapshots _ _ hk).rooted
      exact .start (.clone hvs hm)

theorem Reachable.holds (h : Reachable w) : w.Holds := by
  induction h with
  | refl => exact ⟨fun i s hi => by simp at hi, fun k snap hk => by simp at hk⟩
  | tail _ hs ih => exact ih.step hs

end World

end Cas.Manifest
