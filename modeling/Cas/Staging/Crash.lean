import Cas.Staging.Recover
import Mathlib.Logic.Relation

/-!
# The crash contract of the staging log

A world is a log with the operations it was given. They are numbered by slot, and a crash keeps at
least those up to the last flush that was acknowledged. Opening what a crash leaves is refused, or
gives the image of the operations up to some fence.
-/

namespace Cas.Staging

open Bytes List

variable [Digest]

structure World where
  file : Bytes
  log : Option StagingLog
  /-- The records as they were last written, by slot. -/
  written : List Bytes
  /-- The operations that they are for. -/
  ops : List Op
  /-- The slots that a sync has returned for. -/
  synced : Nat
  /-- The slots before the last flush that was acknowledged. -/
  acked : Nat

namespace World

/-- A new image. -/
def created (log : StagingLog) (file : Bytes) : World := ⟨file, some log, [], [], 0, 0⟩

/-- The crashes of a world. -/
def Crash (w : World) (file : Bytes) : Prop :=
  Survives (w.file.take BLOCK_SIZE) w.written w.synced file

/-- After an operation that was to write some records. An operation that fails has written some of
them. -/
def after (w : World) (log : StagingLog) (file : Bytes) (ops : List Op) (ok : Bool) : World :=
  { w with
    file := file
    log := some log
    written := records file
    ops := w.ops ++ if ok then ops else ops.take (slots file - slots w.file) }

/-- After a flush, which syncs unless all operations are durable already. -/
def afterFlush (w : World) (log log' : StagingLog) (file : Bytes) (ok : Bool) : World :=
  { w.after log' file (flushOps log) ok with
    synced := if ok ∧ log.appended ≠ log.durable then slots file else w.synced
    acked := if ok then slots file else w.acked }

/-- After the log was opened, with its suffix cut off and synced. -/
def reopened (w : World) (log : StagingLog) (file : Bytes) : World :=
  { w with
    file := file
    log := some log
    written := records file
    ops := w.ops.take (slots file)
    synced := slots file }

inductive Step (w : World) : World → Prop
  | write {log log' : StagingLog} {file : Bytes} {r : Except Error (Option Nat)}
      (opened : w.log = some log) (offset : Nat) (bytes : Bytes) (writes : Nat → Outcome)
      (returns : log.write w.file offset bytes writes = (log', file, r)) :
      Step w (w.after log' file (writeOps offset bytes) r.isOk)
  | zero {log log' : StagingLog} {file : Bytes} {r : Except Error (Option Nat)}
      (opened : w.log = some log) (offset length : Nat) (write : Outcome)
      (returns : log.zero w.file offset length write = (log', file, r)) :
      Step w (w.after log' file (zeroOps offset length) r.isOk)
  | flush {log log' : StagingLog} {file : Bytes} {r : Except Error Nat}
      (opened : w.log = some log) (write : Outcome) (sync : Option IoError)
      (returns : log.flush w.file write sync = (log', file, r)) :
      Step w (w.afterFlush log log' file r.isOk)
  | close : Step w { w with log := none }
  | crash (file : Bytes) (crash : w.Crash file) : Step w { w with file := file, log := none }
  | reopen {log : StagingLog} {file : Bytes} (closed : w.log = none)
      (returns : StagingLog.openLog w.file = .ok (log, file)) : Step w (w.reopened log file)
  -- the suffix was cut off, and the sync failed
  | interrupted {log : StagingLog} {file : Bytes} (closed : w.log = none)
      (returns : StagingLog.openLog w.file = .ok (log, file)) : Step w { w with file := file }

/-- The worlds that a new image of the given size can get to. -/
def Reachable (n : Nat) (w : World) : Prop :=
  ∃ log file, StagingLog.create n = .ok (log, file) ∧
    Relation.ReflTransGen Step (created log file) w

/-! ## The invariant -/

/-- An open log, which has the state of its file unless it is poisoned. -/
structure Opened (n : Nat) (w : World) (log : StagingLog) : Prop where
  written : w.written = records w.file
  image : log.imageBytes = n
  live : log.poisoned = false → log.Live w.file
  durable : log.poisoned = false → log.appended = log.durable → w.synced = slots w.file

/-- Some slots end with a fence. -/
def EndsWithFence (written : List Bytes) (slots : Nat) : Prop :=
  slots = 0 ∨ ∃ i b, slots = i + 1 ∧ written[i]? = some b ∧ opOf b = some .fence

structure Inv (n : Nat) (w : World) : Prop where
  header : decodeHeader (w.file.take BLOCK_SIZE) = some n
  survives : w.Crash w.file
  codes : List.Forall₂ Codes w.written w.ops
  acked_le : w.acked ≤ w.synced
  fence : EndsWithFence w.written w.synced
  opened : ∀ log, w.log = some log → Opened n w log

variable {n : Nat} {w w' : World} {log log' : StagingLog} {file : Bytes}

variable {written : List Bytes}

theorem EndsWithFence.append {k : Nat} (h : EndsWithFence written k)
    (bs : List Bytes) : EndsWithFence (written ++ bs) k := by
  rcases h with h | ⟨i, b, hi, hb, hop⟩
  · exact .inl h
  · refine .inr ⟨i, b, hi, ?_, hop⟩
    rw [List.getElem?_append_left (List.getElem?_eq_some_iff.1 hb).1, hb]

theorem EndsWithFence.le {k : Nat} (h : EndsWithFence written k) :
    k ≤ written.length := by
  rcases h with rfl | ⟨i, b, rfl, hb, -⟩
  · exact Nat.zero_le _
  · exact (List.getElem?_eq_some_iff.1 hb).1

theorem EndsWithFence.of_getLast?
    (h : ∀ b, written.getLast? = some b → opOf b = some .fence) :
    EndsWithFence written written.length := by
  cases written using reverseRecOn with
  | nil => exact .inl rfl
  | append_singleton l b =>
    refine .inr ⟨l.length, b, by simp, getElem?_concat_length, h b getLast?_concat⟩

theorem Inv.empty (hlen : file.length = BLOCK_SIZE) (hheader : decodeHeader file = some n) :
    Inv n (World.created (.empty n) file) := by
  have hslots : slots file = 0 := by rw [slots, hlen, Nat.sub_self, Nat.zero_div]
  have hrecords : records file = [] :=
    List.eq_nil_of_length_eq_zero ((length_records _).trans hslots)
  have htake : file.take BLOCK_SIZE = file := List.take_of_length_le (Nat.le_of_eq hlen)
  have hcrash := Survives.records (Nat.le_of_eq hlen.symm) (Nat.zero_le (slots file))
  rw [hrecords] at hcrash
  refine ⟨?_, hcrash, .nil, Nat.le_refl _, .inl rfl, ?_⟩
  · rw [World.created, htake, hheader]
  · rintro _ ⟨⟩
    have hnext : (StagingLog.empty n).nextOffset = position (slots file) := by
      rw [hslots]
      rfl
    have hreads : (StagingLog.empty n).Reads (records file) := by
      rw [hrecords]
      exact .nil
    exact ⟨hrecords.symm, rfl, fun _ => ⟨rfl, hnext, hlen, hreads⟩, fun _ _ => hslots.symm⟩

theorem Inv.created (hn : n < U64) (h : StagingLog.create n = .ok (log, file)) :
    Inv n (created log file) := by
  rw [StagingLog.create] at h
  split at h
  · cases h
  · next hvalid =>
    cases h
    obtain ⟨hpos, hmod⟩ := not_or.1 hvalid
    exact .empty (length_encodeHeader n)
      (decodeHeader_encodeHeader hn (Nat.pos_of_ne_zero hpos) (not_not.1 hmod))

variable {ops : List Op}

theorem Inv.extend (h : Inv n w) (ho : w.log = some log) (ok : Bool)
    {bs : List Bytes} (synced acked : Nat) (grown : w.file <+: file)
    (written : records file = records w.file ++ bs)
    (codes : List.Forall₂ Codes bs (ops.take bs.length)) (done : ok = true → bs.length = ops.length)
    (image : log'.imageBytes = log.imageBytes) (live : log'.poisoned = false → log'.Live file)
    (durable : log'.poisoned = false → log'.appended = log'.durable → synced = slots file)
    (acked_le : acked ≤ synced) (fence : EndsWithFence (records file) synced) :
    Inv n { w.after log' file ops ok with synced := synced, acked := acked } := by
  have hopen := h.opened log ho
  have hlen := h.survives.length
  have hle := grown.length_le
  have htake : file.take BLOCK_SIZE = w.file.take BLOCK_SIZE := by
    obtain ⟨tail, rfl⟩ := grown
    exact take_append_of_le_length hlen
  have hwritten : (if ok then ops else ops.take (slots file - slots w.file)) = ops.take bs.length := by
    have := congrArg length written
    rw [length_append, length_records, length_records] at this
    split
    · next hok => rw [done hok, take_length]
    · rw [this, Nat.add_sub_cancel_left]
  refine ⟨?_, ?_, ?_, acked_le, fence, ?_⟩
  · exact htake.symm ▸ h.header
  · have hs := fence.le
    rw [length_records] at hs
    exact Survives.records (hlen.trans hle) hs
  · have hc := h.codes
    rw [hopen.written] at hc
    simp only [after]
    rw [written, hwritten]
    exact rel_append hc codes
  · rintro _ ⟨⟩
    exact ⟨rfl, image.trans hopen.image, live, durable⟩

theorem Inv.refused (h : Inv n w) (ho : w.log = some log) (ops : List Op) :
    Inv n (w.after log w.file ops false) := by
  have hopen := h.opened log ho
  exact h.extend ho false w.synced w.acked prefix_rfl
    (append_nil _).symm .nil nofun rfl hopen.live hopen.durable h.acked_le
    (hopen.written ▸ h.fence)

theorem Inv.extends (h : Inv n w) (ho : w.log = some log) {ok : Bool}
    (he : StagingLog.Extends log w.file ops ok log' file) : Inv n (w.after log' file ops ok) := by
  have hopen := h.opened log ho
  obtain ⟨bs, hrec, hcodes⟩ := he.written
  refine h.extend ho ok w.synced w.acked he.grown hrec hcodes (fun hok => ?_)
    he.image he.live (fun hp hd => ?_) h.acked_le ?_
  · have hslots := (he.done hok).2
    have := congrArg length hrec
    rw [length_append, length_records, length_records] at this
    omega
  · rcases he.pending hp with ⟨rfl, rfl⟩ | hlt
    · exact hopen.durable hp hd
    · omega
  · rw [hrec]
    exact (hopen.written ▸ h.fence).append bs

theorem Inv.afterFlush (h : Inv n w) (ho : w.log = some log) {r : Except Error Nat}
    (hf : StagingLog.Flushed log w.file log' file r) (hp : log.poisoned = false) :
    Inv n (w.afterFlush log log' file r.isOk) := by
  have hopen := h.opened log ho
  have hlive := hopen.live hp
  have hfence : EndsWithFence (records w.file) w.synced := hopen.written ▸ h.fence
  cases hf with
  | clean same hlog hfile =>
    subst log' file
    have hsynced := hopen.durable hp same
    have hok : (Except.ok log.durable : Except Error Nat).isOk = true := rfl
    have hops : (flushOps log).length = 0 := by rw [flushOps, if_neg (not_not.2 same)]; rfl
    have := h.extend ho true w.synced (slots w.file) prefix_rfl (append_nil _).symm .nil
      (fun _ => hops.symm) rfl hopen.live hopen.durable (le_of_eq hsynced.symm) hfence
    rw [hok, World.afterFlush, if_neg (not_and_of_not_right _ (not_not.2 same)), if_pos rfl]
    exact this
  | @synced dirty image grown live durable b hrec hop =>
    have hok : (Except.ok log'.appended : Except Error Nat).isOk = true := rfl
    have hops : flushOps log = [.fence] := if_pos dirty
    have hslots : slots file = slots w.file + 1 := by
      have := congrArg length hrec
      rwa [length_append, length_records, length_records] at this
    have hlast : EndsWithFence (records file) (slots file) := by
      refine .inr ⟨slots w.file, b, hslots, ?_, hop⟩
      rw [hrec, ← length_records, getElem?_concat_length]
    have hcodes : List.Forall₂ Codes [b] ((flushOps log).take 1) := by
      rw [hops]
      exact .cons (.inl hop) .nil
    have hone : (flushOps log).length = 1 := by rw [hops, length_singleton]
    have := h.extend ho true (slots file) (slots file) grown hrec hcodes (fun _ => hone.symm) image
      (fun _ => live) (fun _ _ => rfl) (le_refl _) hlast
    rw [hok, World.afterFlush, if_pos ⟨rfl, dirty⟩, if_pos rfl]
    exact this
  | @failed e image grown bs hrec hcodes same =>
    have hok : (Except.error e : Except Error Nat).isOk = false := rfl
    have hlive' : log'.poisoned = false → log'.Live file := by
      intro hp'
      obtain ⟨rfl, rfl⟩ := same hp'
      exact hlive
    have hdurable : log'.poisoned = false → log'.appended = log'.durable →
        w.synced = slots file := by
      intro hp'
      obtain ⟨rfl, rfl⟩ := same hp'
      exact hopen.durable hp
    rw [hok, World.afterFlush, if_neg (not_and_of_not_left _ nofun), if_neg nofun]
    exact h.extend ho false w.synced w.acked grown hrec hcodes nofun image hlive' hdurable
      h.acked_le (hrec ▸ hfence.append bs)

/-! ## Steps -/

theorem Inv.crash (h : Inv n w) {file : Bytes} (hc : w.Crash file) :
    Inv n { w with file := file, log := none } := by
  refine ⟨?_, ?_, h.codes, h.acked_le, h.fence, nofun⟩
  · exact hc.header ▸ h.header
  · rw [Crash, hc.header]
    exact hc

/-- The records that were recovered are those of the operations up to a fence. -/
theorem Inv.recovered_codes (h : Inv n w)
    (hr : Recovered n (w.file.take BLOCK_SIZE) w.written w.synced log file) :
    List.Forall₂ (fun b op => opOf b = some op) (records file) (w.ops.take (slots file)) := by
  have hcodes := forall₂_take (slots file) h.codes
  rw [← hr.records_eq] at hcodes
  have hd := hr.live.reads.decodes
  exact ((forall₂_and_left _ _).2 ⟨hd, hcodes⟩).imp fun b op hb => hb.2.resolve_right hb.1

theorem Inv.reopened (h : Inv n w)
    (hr : Recovered n (w.file.take BLOCK_SIZE) w.written w.synced log file) :
    Inv n (w.reopened log file) := by
  have hfence : EndsWithFence (records file) (slots file) := by
    have := EndsWithFence.of_getLast? hr.fence
    rwa [length_records] at this
  refine ⟨?_, ?_, ?_, h.acked_le.trans hr.synced_le, hfence, ?_⟩
  · exact hr.header.symm ▸ h.header
  · exact Survives.records hr.length (le_refl _)
  · exact (h.recovered_codes hr).imp fun _ _ hb => .inl hb
  · rintro _ ⟨⟩
    exact ⟨rfl, hr.image, fun _ => hr.live, fun _ _ => rfl⟩

theorem Inv.interrupted (h : Inv n w) (hclosed : w.log = none)
    (hr : Recovered n (w.file.take BLOCK_SIZE) w.written w.synced log file) :
    Inv n { w with file := file } := by
  have hget : ∀ i < slots file, w.written[i]? = some (slot file i) := by
    intro i hi
    rw [← records_getElem? hi, hr.records_eq, getElem?_take, if_pos hi]
  refine ⟨hr.header.symm ▸ h.header, ⟨hr.length, rfl, fun i hi => ?_, fun i hi _ => .inl (hget i hi)⟩,
    h.codes, h.acked_le, h.fence, ?_⟩
  · have hi : i < slots file := lt_of_lt_of_le hi hr.synced_le
    exact ⟨hi, hget i hi⟩
  · intro log hlog
    rw [hclosed] at hlog
    cases hlog

theorem Inv.recovered (h : Inv n w) (hx : StagingLog.openLog w.file = .ok (log, file)) :
    Recovered n (w.file.take BLOCK_SIZE) w.written w.synced log file := by
  rcases h.survives.openLog h.header h.fence with ⟨p, he⟩ | ⟨log', file', hok, hr⟩
  · rw [he] at hx
    cases hx
  · rw [hok] at hx
    cases hx
    exact hr

theorem Inv.step (h : Inv n w) (hs : Step w w') : Inv n w' := by
  cases hs with
  | @write log log' file r ho offset bytes writes hx =>
    cases hp : log.poisoned with
    | false => exact h.extends ho (((h.opened log ho).live hp).write_extends hx)
    | true =>
      rw [StagingLog.write, StagingLog.admits, StagingLog.healthy, hp] at hx
      cases hx
      exact h.refused ho _
  | @zero log log' file r ho offset length write hx =>
    cases hp : log.poisoned with
    | false => exact h.extends ho (((h.opened log ho).live hp).zero_extends hx)
    | true =>
      rw [StagingLog.zero, StagingLog.admits, StagingLog.healthy, hp] at hx
      cases hx
      exact h.refused ho _
  | @flush log log' file r ho write sync hx =>
    cases hp : log.poisoned with
    | false => exact h.afterFlush ho (((h.opened log ho).live hp).flush_cases hx) hp
    | true =>
      rw [StagingLog.flush, StagingLog.healthy, hp] at hx
      cases hx
      exact h.refused ho _
  | close => exact h.crash h.survives
  | crash file hc => exact h.crash hc
  | reopen _ hx => exact h.reopened (h.recovered hx)
  | interrupted hclosed hx => exact h.interrupted hclosed (h.recovered hx)

theorem Reachable.inv (hn : n < U64) (h : Reachable n w) : Inv n w := by
  obtain ⟨log, file, hx, hsteps⟩ := h
  induction hsteps with
  | refl => exact .created hn hx
  | tail _ hs ih => exact ih.step hs

/-! ## The contract -/

/-- A log that is open on some operations: reads return their image, its records are numbered
without gaps, and the next one goes right after them. -/
structure Holds (n : Nat) (ops : List Op) (log : StagingLog) (file : Bytes) : Prop where
  read : ∀ offset length, ValidRange n offset length → length ≤ MAX_REQUEST_BYTES →
    log.read file offset length = .ok (StagingLog.blocksAt (imageAfter ops) offset length)
  recorded : List.Forall₂ (fun b op => opOf b = some op) (records file) ops
  dense : sequences (records file) = List.range' 1 log.appended
  next : log.nextOffset = position ops.length
  length : file.length = log.nextOffset

theorem Holds.of_live (h : log.Live file) (himage : log.imageBytes = n)
    (hops : List.Forall₂ (fun b op => opOf b = some op) (records file) ops) :
    Holds n ops log file where
  read offset length hrange hlen := by
    rw [h.read (himage ▸ hrange) hlen, contents_eq hops]
  recorded := hops
  dense := h.reads.dense
  next := by rw [h.next, ← length_records, hops.length_eq]
  length := h.length

/-- Every healthy log that is open holds the operations it was given. -/
theorem Inv.holds (h : Inv n w) (ho : w.log = some log) (hp : log.poisoned = false) :
    Holds n w.ops log w.file := by
  have hopen := h.opened log ho
  have hlive := hopen.live hp
  have hcodes := h.codes
  rw [hopen.written] at hcodes
  refine .of_live hlive hopen.image ?_
  exact ((forall₂_and_left _ _).2 ⟨hlive.reads.decodes, hcodes⟩).imp
    fun b op hb => hb.2.resolve_right hb.1

end World

end Cas.Staging
