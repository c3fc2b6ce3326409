import Cas.Staging.Log

/-!
# What a replay of the staging log establishes

A log is the list of its records. A replay accepts it if its operations are numbered without gaps
and every fence has the number of the last of them; the blocks it maps are those the records leave
behind. A log that is written to stays a log that a replay would accept.
-/

namespace Cas.Staging

open Bytes List

variable [Digest]

/-! ## Slots -/

/-- The bytes of a slot. -/
def slot (file : Bytes) (i : Nat) : Bytes := file.slice (position i) RECORD_SIZE

/-- The slots that are complete. -/
def slots (file : Bytes) : Nat := (file.length - BLOCK_SIZE) / RECORD_SIZE

/-- The records of a file. -/
def records (file : Bytes) : List Bytes := (List.range (slots file)).map (slot file)

omit [Digest] in
theorem position_succ (i : Nat) : position (i + 1) = position i + RECORD_SIZE := by
  rw [position, position, Nat.succ_mul, add_assoc]

omit [Digest] in
theorem position_mod (i : Nat) : position i % BLOCK_SIZE = 0 := by
  simp only [position, BLOCK_SIZE, RECORD_SIZE]
  omega

omit [Digest] in
theorem lt_slots {file : Bytes} {i : Nat} : i < slots file ↔ position (i + 1) ≤ file.length := by
  simp only [slots, position, BLOCK_SIZE, RECORD_SIZE]
  omega

omit [Digest] in
theorem readSlot_eq {file : Bytes} {i : Nat} (h : i < slots file) :
    StagingLog.readSlot file (position i) = .ok (slot file i) := by
  rw [lt_slots, position_succ] at h
  have hread : readBytes file (position i) RECORD_SIZE = .ok (slot file i) :=
    readBytes_eq_ok.2 ⟨decide_eq_true ⟨by decide, by decide, position_mod i⟩, h, rfl⟩
  rw [StagingLog.readSlot, hread]
  rfl

omit [Digest] in
@[simp] theorem length_records (file : Bytes) : (records file).length = slots file := by
  rw [records, length_map, length_range]

omit [Digest] in
theorem records_getElem? {file : Bytes} {i : Nat} (h : i < slots file) :
    (records file)[i]? = some (slot file i) := by
  rw [records, getElem?_map, getElem?_range h]
  rfl

/-! ## Contents -/

/-- The blocks of the image by their offset, after one more record. -/
def applyRecord (contents : Nat → Bytes) (record : Bytes) : Nat → Bytes :=
  match decode record with
  | none => contents
  | some r =>
    match r.kind with
    | .write => Function.update contents r.offset (record.drop BLOCK_SIZE)
    | .zero => fun o =>
      if o < r.offset ∨ r.offset + r.length ≤ o then contents o else zeros BLOCK_SIZE
    | .fence => contents

/-- The blocks of the image after the records of a log. -/
def contents (log : List Bytes) : Nat → Bytes := log.foldl applyRecord fun _ => zeros BLOCK_SIZE

/-- The numbers of the operations of a log. -/
def sequences (log : List Bytes) : List Nat :=
  log.filterMap fun b => (decode b).bind fun r => if r.kind = .fence then none else some r.sequence

/-- A range of an image of the given size. -/
def ValidRange (imageBytes offset length : Nat) : Prop :=
  offset % BLOCK_SIZE = 0 ∧ length % BLOCK_SIZE = 0 ∧
    (checkedAdd offset length).any (fun stop => stop ≤ imageBytes) = true

/-- What a replay makes of the records of a log. -/
inductive Replays (imageBytes : Nat) : List Bytes → Nat → Nat → (Nat → Option Nat) → Prop
  | nil : Replays imageBytes [] 0 0 fun _ => none
  | fence {log : List Bytes} {appended durable : Nat} {blocks : Nat → Option Nat} {b : Bytes}
      {r : Record} (before : Replays imageBytes log appended durable blocks)
      (decodes : decode b = some r) (kind : r.kind = .fence) (sequence : r.sequence = appended) :
      Replays imageBytes (log ++ [b]) appended appended blocks
  | write {log : List Bytes} {appended durable : Nat} {blocks : Nat → Option Nat} {b : Bytes}
      {r : Record} (before : Replays imageBytes log appended durable blocks)
      (decodes : decode b = some r) (kind : r.kind = .write)
      (sequence : checkedAdd appended 1 = some r.sequence)
      (range : ValidRange imageBytes r.offset r.length) :
      Replays imageBytes (log ++ [b]) r.sequence durable
        (Function.update blocks r.offset (some (position log.length)))
  | zero {log : List Bytes} {appended durable : Nat} {blocks : Nat → Option Nat} {b : Bytes}
      {r : Record} (before : Replays imageBytes log appended durable blocks)
      (decodes : decode b = some r) (kind : r.kind = .zero)
      (sequence : checkedAdd appended 1 = some r.sequence)
      (range : ValidRange imageBytes r.offset r.length) :
      Replays imageBytes (log ++ [b]) r.sequence durable fun o =>
        if o < r.offset ∨ r.offset + r.length ≤ o then blocks o else none

theorem contents_append (log : List Bytes) (b : Bytes) :
    contents (log ++ [b]) = applyRecord (contents log) b := by
  rw [contents, foldl_append]
  rfl

namespace Replays

variable {imageBytes : Nat} {log : List Bytes} {appended durable : Nat} {blocks : Nat → Option Nat}

theorem durable_le (h : Replays imageBytes log appended durable blocks) : durable ≤ appended := by
  induction h with
  | nil => exact le_refl _
  | fence _ _ _ _ _ => exact le_refl _
  | write _ _ _ hs _ ih =>
    obtain ⟨hs, -⟩ := checkedAdd_eq_some.1 hs
    omega
  | zero _ _ _ hs _ ih =>
    obtain ⟨hs, -⟩ := checkedAdd_eq_some.1 hs
    omega

theorem appended_lt (h : Replays imageBytes log appended durable blocks) : appended < U64 := by
  induction h with
  | nil => decide
  | fence _ _ _ _ ih => exact ih
  | write _ _ _ hs _ _ => exact (checkedAdd_eq_some.1 hs).2
  | zero _ _ _ hs _ _ => exact (checkedAdd_eq_some.1 hs).2

theorem dense (h : Replays imageBytes log appended durable blocks) :
    sequences log = range' 1 appended := by
  induction h with
  | nil => rfl
  | fence _ hd hk _ ih => simp [sequences, hd, hk, ← ih]
  | write _ hd hk hs _ ih =>
    obtain ⟨hs, -⟩ := checkedAdd_eq_some.1 hs
    rw [← hs, range'_1_concat, ← ih]
    simp [sequences, hd, hk, ← hs, add_comm]
  | zero _ hd hk hs _ ih =>
    obtain ⟨hs, -⟩ := checkedAdd_eq_some.1 hs
    rw [← hs, range'_1_concat, ← ih]
    simp [sequences, hd, hk, ← hs, add_comm]

/-- A mapped block is the payload of the record it is mapped to. -/
def Maps (log : List Bytes) (o : Nat) : Option Nat → Prop
  | none => contents log o = zeros BLOCK_SIZE
  | some p => ∃ i b r, p = position i ∧ log[i]? = some b ∧ decode b = some r ∧ r.kind = .write ∧
      r.offset = o ∧ contents log o = b.drop BLOCK_SIZE

theorem Maps.append {o : Nat} {p : Option Nat} (h : Maps log o p) (b : Bytes)
    (hc : contents (log ++ [b]) o = contents log o) : Maps (log ++ [b]) o p := by
  cases p with
  | none => exact hc.trans h
  | some p =>
    obtain ⟨i, b', r, hp, hi, hd, hk, ho, hcont⟩ := h
    refine ⟨i, b', r, hp, ?_, hd, hk, ho, hc.trans hcont⟩
    rw [List.getElem?_append_left (List.getElem?_eq_some_iff.1 hi).1, hi]

theorem maps (h : Replays imageBytes log appended durable blocks) (o : Nat) :
    Maps log o (blocks o) := by
  induction h with
  | nil => rfl
  | @fence log _ _ _ b r _ hd hk _ ih =>
    refine ih.append b ?_
    rw [contents_append, applyRecord, hd]
    simp only [hk]
  | @write log _ _ blocks b r _ hd hk _ _ ih =>
    have hc : contents (log ++ [b]) = Function.update (contents log) r.offset (b.drop BLOCK_SIZE) := by
      rw [contents_append, applyRecord, hd]
      simp only [hk]
    by_cases ho : o = r.offset
    · subst ho
      rw [Function.update_self]
      refine ⟨log.length, b, r, rfl, getElem?_concat_length, hd, hk, rfl, ?_⟩
      rw [hc, Function.update_self]
    · rw [Function.update_of_ne ho]
      exact ih.append b (by rw [hc, Function.update_of_ne ho])
  | @zero log _ _ blocks b r _ hd hk _ _ ih =>
    have hc : contents (log ++ [b]) o =
        if o < r.offset ∨ r.offset + r.length ≤ o then contents log o else zeros BLOCK_SIZE := by
      rw [contents_append, applyRecord, hd]
      simp only [hk]
    dsimp only
    split
    · next ho => exact ih.append b (by rw [hc, if_pos ho])
    · next ho => exact hc.trans (if_neg ho)

end Replays

/-! ## Opening a log -/

namespace StagingLog

/-- The parts of a log that its records do not determine. -/
structure Same (log log' : StagingLog) : Prop where
  imageBytes : log'.imageBytes = log.imageBytes
  nextOffset : log'.nextOffset = log.nextOffset
  poisoned : log'.poisoned = log.poisoned

omit [Digest] in
theorem validateRange_eq_ok {log : StagingLog} {offset length : Nat} :
    log.validateRange offset length = .ok () ↔ ValidRange log.imageBytes offset length := by
  rw [validateRange]
  split
  · next h => exact iff_of_true rfl h
  · next h => exact iff_of_false nofun h

/-- The log has the state that a replay of the records gives. -/
def Reads (log : StagingLog) (l : List Bytes) : Prop :=
  Replays log.imageBytes l log.appended log.durable log.blocks

theorem replayRecord_ok {log log' : StagingLog} {l : List Bytes} {b : Bytes} (hr : log.Reads l)
    (h : log.replayRecord (position l.length) b = .ok log') :
    log'.Reads (l ++ [b]) ∧ Same log log' := by
  rw [replayRecord] at h
  split at h
  · cases h
  · next r hd =>
    split at h
    · next hk =>
      split at h
      · next hs =>
        cases h
        refine ⟨?_, rfl, rfl, rfl⟩
        have := Replays.fence hr hd hk hs
        rw [Reads]
        dsimp only
        rwa [hs]
      · cases h
    · next hk =>
      split at h
      · next hok =>
        obtain ⟨hs, hrange⟩ := hok
        have hrange := validateRange_eq_ok.1 hrange
        cases h
        cases hkind : r.kind with
        | write =>
          simp only [apply, hkind]
          exact ⟨Replays.write hr hd hkind hs hrange, rfl, rfl, rfl⟩
        | zero =>
          simp only [apply, hkind]
          exact ⟨Replays.zero hr hd hkind hs hrange, rfl, rfl, rfl⟩
        | fence => exact absurd hkind hk
      · cases h

theorem replayRecord_error {log : StagingLog} {p : Nat} {b : Bytes} {e : Error}
    (h : log.replayRecord p b = .error e) : e = .corrupt p := by
  rw [replayRecord] at h
  split at h
  · cases h
    rfl
  · split at h
    · split at h
      · cases h
      · cases h
        rfl
    · split at h
      · cases h
      · cases h
        rfl

theorem replay_ok {file : Bytes} (count : Nat) {i : Nat} {log log' : StagingLog}
    (hin : i + count ≤ slots file) (hr : log.Reads ((range i).map (slot file)))
    (h : replay file i count log = .ok log') :
    log'.Reads ((range (i + count)).map (slot file)) ∧ Same log log' := by
  induction count generalizing i log with
  | zero =>
    cases h
    exact ⟨hr, rfl, rfl, rfl⟩
  | succ count ih =>
    rw [replay, readSlot_eq (by omega), Except.ok_bind] at h
    obtain ⟨log₁, h₁, h⟩ := Except.bind_eq_ok.1 h
    have hlen : ((range i).map (slot file)).length = i := by simp
    obtain ⟨hr₁, hs₁⟩ := replayRecord_ok (b := slot file i) hr (by rw [hlen]; exact h₁)
    rw [show (range i).map (slot file) ++ [slot file i] =
      (range (i + 1)).map (slot file) by rw [range_succ, map_append]; rfl] at hr₁
    obtain ⟨hr₂, hs₂⟩ := ih (by omega) hr₁ h
    rw [add_assoc, add_comm 1 count] at hr₂
    exact ⟨hr₂, hs₂.imageBytes.trans hs₁.imageBytes, hs₂.nextOffset.trans hs₁.nextOffset,
      hs₂.poisoned.trans hs₁.poisoned⟩

theorem replay_error {file : Bytes} (count : Nat) {i : Nat} {log : StagingLog} {e : Error}
    (hin : i + count ≤ slots file) (h : replay file i count log = .error e) :
    ∃ p, e = .corrupt p := by
  induction count generalizing i log with
  | zero => cases h
  | succ count ih =>
    rw [replay, readSlot_eq (by omega), Except.ok_bind] at h
    cases hrec : log.replayRecord (position i) (slot file i) with
    | error e' =>
      rw [hrec] at h
      cases h
      exact ⟨_, replayRecord_error hrec⟩
    | ok log₁ =>
      rw [hrec] at h
      exact ih (by omega) h

/-- A record that is a fence. -/
def isFence (b : Bytes) : Bool := (decode b).any (·.kind = .fence)

theorem committed_ok {file : Bytes} {m : Nat} (hm : m ≤ slots file) :
    ∃ k ≤ m, committed file m = .ok k ∧ (k = 0 ∨ ∃ i, k = i + 1 ∧ isFence (slot file i) = true) ∧
      ∀ i, k ≤ i → i < m → isFence (slot file i) = false := by
  induction m with
  | zero => exact ⟨0, le_refl _, rfl, .inl rfl, fun i _ hi => absurd hi (Nat.not_lt_zero i)⟩
  | succ m ih =>
    rw [committed, readSlot_eq hm, Except.ok_bind]
    split
    · next hf =>
      exact ⟨m + 1, le_refl _, rfl, .inr ⟨m, rfl, hf⟩, fun i h1 h2 => absurd h1 (by omega)⟩
    · next hf =>
      obtain ⟨k, hk, hc, hlast, hnone⟩ := ih (by omega)
      refine ⟨k, by omega, hc, hlast, fun i h1 h2 => ?_⟩
      rcases Nat.lt_succ_iff_lt_or_eq.1 h2 with h2 | rfl
      · exact hnone i h1 h2
      · exact Bool.eq_false_iff.2 hf

end StagingLog

end Cas.Staging
