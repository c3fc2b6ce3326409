import Cas.Staging.Ops

/-!
# Opening a staging log after a crash

The last fence that decodes is looked for before it is known whether all records up to it survived.
A replay that succeeds has decoded each of them, and a slot that decodes holds what was written to it.
-/

namespace Cas.Staging

open Bytes List

variable [Digest]

/-- What a crash may leave of the records that were written: those that are synced, and of each
later slot its record, nothing, or something that does not decode. -/
structure Survives (header : Bytes) (written : List Bytes) (synced : Nat) (file : Bytes) : Prop where
  length : BLOCK_SIZE ≤ file.length
  header : file.take BLOCK_SIZE = header
  intact : ∀ i < synced, i < slots file ∧ written[i]? = some (slot file i)
  later : ∀ i < slots file, synced ≤ i →
    written[i]? = some (slot file i) ∨ decode (slot file i) = none

variable {header file file' : Bytes} {written : List Bytes} {synced n : Nat} {log : StagingLog}

theorem Survives.slot_eq (h : Survives header written synced file) {i : Nat} (hi : i < slots file)
    (hd : decode (slot file i) ≠ none) : written[i]? = some (slot file i) := by
  rcases lt_or_ge i synced with hlt | hge
  · exact (h.intact i hlt).2
  · exact (h.later i hi hge).resolve_right hd

theorem Survives.records (hlen : BLOCK_SIZE ≤ file.length) (hs : synced ≤ slots file) :
    Survives (file.take BLOCK_SIZE) (records file) synced file where
  length := hlen
  header := rfl
  intact i hi := ⟨by omega, records_getElem? (by omega)⟩
  later i hi _ := .inl (records_getElem? hi)

/-! ## Cutting off the suffix -/

omit [Digest] in
theorem slots_take {k : Nat} (hk : k ≤ slots file) (hlen : BLOCK_SIZE ≤ file.length) :
    slots (file.take (position k)) = k ∧ (file.take (position k)).length = position k := by
  have hle : position k ≤ file.length := by
    simp only [slots, position, BLOCK_SIZE, RECORD_SIZE] at hk hlen ⊢
    omega
  have hl : (file.take (position k)).length = position k := length_take_of_le hle
  refine ⟨?_, hl⟩
  rw [slots, hl]
  simp only [position, BLOCK_SIZE, RECORD_SIZE]
  omega

omit [Digest] in
theorem records_take {k : Nat} (hk : k ≤ slots file) (hlen : BLOCK_SIZE ≤ file.length) :
    records (file.take (position k)) = (range k).map (slot file) := by
  have hslots := (slots_take hk hlen).1
  rw [records, hslots]
  refine map_congr_left fun i hi => ?_
  have hi : i < slots (file.take (position k)) := by
    rw [hslots]
    exact mem_range.1 hi
  have := StagingLog.slot_append (b := file.drop (position k)) hi
  rwa [take_append_drop, eq_comm] at this

namespace Replays

variable {appended durable : Nat} {blocks : Nat → Option Nat} {l : List Bytes}

theorem decodes (h : Replays n l appended durable blocks) : ∀ b ∈ l, decode b ≠ none := by
  have snoc : ∀ {l : List Bytes} {b : Bytes} {r : Record}, (∀ b ∈ l, decode b ≠ none) →
      decode b = some r → ∀ b' ∈ l ++ [b], decode b' ≠ none := by
    intro l b r hl hd b' hb'
    rcases mem_append.1 hb' with hb' | hb'
    · exact hl b' hb'
    · rw [mem_singleton.1 hb', hd]
      nofun
  induction h with
  | nil => nofun
  | fence _ hd _ _ ih => exact snoc ih hd
  | write _ hd _ _ _ ih => exact snoc ih hd
  | zero _ hd _ _ _ ih => exact snoc ih hd

end Replays

/-! ## What opening returns -/

/-- A log that was opened on the records up to a fence. -/
structure Recovered (n : Nat) (header : Bytes) (written : List Bytes) (synced : Nat)
    (log : StagingLog) (file : Bytes) : Prop where
  header : file.take BLOCK_SIZE = header
  length : BLOCK_SIZE ≤ file.length
  synced_le : synced ≤ slots file
  records_eq : records file = written.take (slots file)
  fence : ∀ b, (records file).getLast? = some b → opOf b = some .fence
  image : log.imageBytes = n
  live : log.Live file

omit [Digest] in
theorem getLast?_slots {k : Nat} :
    ((range (k + 1)).map (slot file)).getLast? = some (slot file k) := by
  rw [range_succ, map_append, map_singleton, getLast?_concat]

theorem Survives.take_eq (h : Survives header written synced file) {k : Nat} (hk : k ≤ slots file)
    (hd : ∀ b ∈ (range k).map (slot file), decode b ≠ none) :
    (range k).map (slot file) = written.take k := by
  refine ext_getElem? fun i => ?_
  rw [getElem?_map, getElem?_take]
  split
  · next hi =>
    rw [getElem?_range hi, h.slot_eq (by omega)
      (hd _ (mem_map_of_mem (mem_range.2 hi)))]
    rfl
  · next hi =>
    rw [getElem?_eq_none (by rw [length_range]; omega)]
    rfl

theorem Survives.openLog (h : Survives header written synced file)
    (hheader : decodeHeader header = some n)
    (hfence : synced = 0 ∨ ∃ i b, synced = i + 1 ∧ written[i]? = some b ∧ opOf b = some .fence) :
    (∃ p, StagingLog.openLog file = .error (.corrupt p)) ∨
      ∃ log file', StagingLog.openLog file = .ok (log, file') ∧
        Recovered n header written synced log file' := by
  have hread : readBytes file 0 BLOCK_SIZE = .ok header :=
    readBytes_eq_ok.2 ⟨by decide, by simpa using h.length, h.header.symm⟩
  obtain ⟨k, hk, hcommit, hlast, hnone⟩ := StagingLog.committed_ok (le_refl (slots file))
  have hsynced : synced ≤ k := by
    rcases hfence with h0 | ⟨i, b, hi, hb, hop⟩
    · omega
    · by_contra hlt
      obtain ⟨hin, hslot⟩ := h.intact i (by omega)
      rw [hb] at hslot
      cases hslot
      have := hnone i (by omega) hin
      rw [isFence_iff.2 hop] at this
      cases this
  rw [StagingLog.openLog, if_neg (not_lt.2 h.length), hread, Except.mapError, Except.ok_bind,
    hheader]
  dsimp only
  rw [← slots, hcommit, Except.ok_bind]
  cases hreplay : StagingLog.replay file 0 k
      { StagingLog.empty n with nextOffset := position k } with
  | error e =>
    obtain ⟨p, rfl⟩ := StagingLog.replay_error k (by omega) hreplay
    exact .inl ⟨p, rfl⟩
  | ok log =>
    have hstart : StagingLog.Reads { StagingLog.empty n with nextOffset := position k }
        ((range 0).map (slot file)) := .nil
    obtain ⟨hreads, hsame⟩ := StagingLog.replay_ok k (by omega) hstart hreplay
    rw [zero_add] at hreads
    have hnext : log.nextOffset = position k := hsame.nextOffset
    obtain ⟨hslots, hlen⟩ := slots_take hk h.length
    have hrecords := records_take hk h.length
    have hpos : BLOCK_SIZE ≤ position k := Nat.le_add_right _ _
    refine .inr ⟨_, _, rfl, ?_⟩
    rw [hnext]
    exact {
      header := by
        rw [take_take, Nat.min_eq_left hpos, h.header]
      length := by
        rw [hlen]
        exact hpos
      synced_le := by rw [hslots]; exact hsynced
      records_eq := by rw [hslots, hrecords, h.take_eq hk hreads.decodes]
      fence := by
        rw [hrecords]
        intro b hb
        rcases hlast with rfl | ⟨i, rfl, hf⟩
        · cases hb
        · rw [getLast?_slots] at hb
          cases hb
          exact isFence_iff.1 hf
      image := hsame.imageBytes
      live := ⟨hsame.poisoned, congrArg position hslots.symm, hlen,
        hrecords ▸ hreads⟩ }

end Cas.Staging
