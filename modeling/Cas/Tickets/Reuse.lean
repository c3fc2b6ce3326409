import Cas.Lib.Durable
import Cas.Tickets.Names
import Mathlib.Data.Fin.Basic
import Mathlib.Data.List.FinRange
import Mathlib.Logic.Function.Basic

/-!
# Tickets over the life of a store (`segments.rs` and its callers)

The segment files of the chunk store and of every image share one sequence of tickets. A ticket is
taken when a segment is created; WAL reclamation, chunk collection and recovery remove names; a
restart starts again from the greatest name it finds. The steps below interleave freely, and a
power loss may come between any two of them.
-/

namespace Cas.Tickets

open List

/-- The chunk directory and the staging directories of `k` images. -/
inductive Place (k : Nat)
  | chunks
  | staging (image : Fin k)
  deriving DecidableEq

/-- In the order in which `Tickets::open` visits them. -/
def places (k : Nat) : List (Place k) := .chunks :: (List.finRange k).map .staging

theorem mem_places {k : Nat} (p : Place k) : p ∈ places k := by
  cases p <;> simp [places]

/-- A directory entry: a segment file, counted in the order of creation, or the subdirectory
`rejected`. -/
@[ext] structure Entry where
  name : FileName
  segment : Option Nat
  deriving DecidableEq

/-- How far `Segment::create` has come with its file. -/
inductive Stage
  | taken
  | opened
  | written
  | synced
  | listed
  deriving DecidableEq

structure Creating (k : Nat) where
  place : Place k
  ticket : Nat
  file : Nat
  stage : Stage

/-- How far `Directory::archive` has come: `rejected` is created but not synced, it is usable, the
archive is created but not synced. -/
inductive ArchiveStage
  | made
  | ready
  | opened
  deriving DecidableEq

structure Archiving (k : Nat) where
  place : Place k
  ticket : Nat
  stage : ArchiveStage

/-- The running owner of a store: its tickets, the segment and the archive that are being created,
and the segments whose removal was decided. -/
structure Owner (k : Nat) where
  status : Status
  creating : Option (Creating k)
  archiving : Option (Archiving k)
  doomed : List (Place k × Nat)

structure World (k : Nat) where
  live : Place k → Durable Entry
  /-- The contents of the `rejected` subdirectories. -/
  archives : Place k → Durable FileName
  /-- The tickets of all segment files ever created, in the order of creation. -/
  created : List Nat
  /-- The files whose header became durable. -/
  headers : List Nat
  /-- The files whose directory entry became durable. -/
  entries : List Nat
  owner : Option (Owner k)

variable {k : Nat}

/-- An empty store without a running owner. -/
def World.init (k : Nat) : World k :=
  ⟨fun _ => .settled [], fun _ => .settled [], [], [], [], none⟩

namespace World

variable (w : World k)

/-- What `Tickets::open` reads. -/
def listing : List (List FileName × List FileName) :=
  (places k).map fun p => ((w.live p).seen.map Entry.name, (w.archives p).seen)

def setLive (p : Place k) (d : Durable Entry) : World k :=
  { w with live := Function.update w.live p d }

/-- `Directory::sync`: the entries of the directory become durable. -/
def syncLive (p : Place k) : World k :=
  { w.setLive p (w.live p).sync with
    entries := (w.live p).seen.filterMap Entry.segment ++ w.entries }

def setArchives (p : Place k) (d : Durable FileName) : World k :=
  { w with archives := Function.update w.archives p d }

def own (o : Owner k) : World k := { w with owner := some o }

/-- A power loss leaves the entries `s` and the archives `t` of the directories that are left. -/
def lost (s : Place k → List Entry) (t : Place k → List FileName) (headers : List Nat) :
    World k where
  live p := .settled (s p)
  archives p := .settled (if rejected ∈ (s p).map Entry.name then t p else [])
  created := w.created
  headers := headers ++ w.headers
  entries := ((places k).flatMap s).filterMap Entry.segment ++ w.entries
  owner := none

/-- The header and the directory entry of a segment file became durable. -/
def Lasting (i : Nat) : Prop := i ∈ w.headers ∧ i ∈ w.entries

/-- The tickets of durable segments increase in the order of creation. -/
def Increasing : Prop :=
  ∀ i j a b, i < j → w.Lasting i → w.Lasting j → w.created[i]? = some a → w.created[j]? = some b →
    a < b

/-- Every name the next scan reads is durable. -/
def Settled : Prop := ∀ p, (w.live p).seen ⊆ (w.live p).kept ∧ (w.archives p).seen ⊆ (w.archives p).kept

end World

def Owner.create (o : Owner k) (c : Creating k) (stage : Stage) : Owner k :=
  { o with creating := some { c with stage } }

def Owner.archive (o : Owner k) (place : Place k) (ticket : Nat) (stage : ArchiveStage) : Owner k :=
  { o with archiving := some ⟨place, ticket, stage⟩ }

def Owner.doom (o : Owner k) (p : Place k) (n : Nat) : Owner k :=
  { o with doomed := (p, n) :: o.doomed }

inductive Step : World k → World k → Prop
  /-- A restart: `Tickets::open`. -/
  | scan {w : World k} {st : Status} (ho : w.owner = none) (h : «open» w.listing = .ok st) :
      Step w (w.own ⟨st, none, none, []⟩)
  /-- `Tickets::allocate` marks its owner failed before it calls `create`. -/
  | take {w : World k} {o : Owner k} {n : Nat} (p : Place k) (ho : w.owner = some o)
      (hn : o.status.next = .ok n) :
      Step w (w.own { o with
        status := { o.status with failed := true }
        creating := some ⟨p, n, w.created.length, .taken⟩ })
  /-- `direct::open(.., true)` fails if the name exists. -/
  | openNew {w : World k} {o : Owner k} {c : Creating k} (ho : w.owner = some o)
      (hc : o.creating = some c) (hs : c.stage = .taken)
      (hnew : ∀ e ∈ (w.live c.place).seen, e.name ≠ name c.ticket) :
      Step w { (w.setLive c.place
          ((w.live c.place).create ⟨name c.ticket, some c.file⟩)).own (o.create c .opened) with
        created := w.created ++ [c.ticket] }
  | write {w : World k} {o : Owner k} {c : Creating k} (ho : w.owner = some o)
      (hc : o.creating = some c) (hs : c.stage = .opened) : Step w (w.own (o.create c .written))
  | syncFile {w : World k} {o : Owner k} {c : Creating k} (ho : w.owner = some o)
      (hc : o.creating = some c) (hs : c.stage = .written) :
      Step w { w.own (o.create c .synced) with headers := c.file :: w.headers }
  | syncDirectory {w : World k} {o : Owner k} {c : Creating k} (ho : w.owner = some o)
      (hc : o.creating = some c) (hs : c.stage = .synced) :
      Step w ((w.syncLive c.place).own (o.create c .listed))
  | finish {w : World k} {o : Owner k} {c : Creating k} (ho : w.owner = some o)
      (hc : o.creating = some c) (hs : c.stage = .listed) :
      Step w (w.own { o with status := ⟨c.ticket, false⟩, creating := none })
  /-- `create` returns an error, at any point; the owner stays failed. -/
  | refuse {w : World k} {o : Owner k} (ho : w.owner = some o) :
      Step w (w.own { o with creating := none })
  /-- `Reclamation::run_with` decides to remove a covered segment. -/
  | reclaim {w : World k} {o : Owner k} {n : Nat} (image : Fin k) (ho : w.owner = some o)
      (hn : n < o.status.highest) : Step w (w.own (o.doom (.staging image) n))
  /-- `Collection::clean` decides to remove a victim; it keeps the name of the greatest ticket. -/
  | collect {w : World k} {o : Owner k} {n : Nat} (ho : w.owner = some o)
      (hf : o.status.failed = false) (hn : n < o.status.highest) :
      Step w (w.own (o.doom .chunks n))
  /-- Recovery starts to archive one of the files it listed before the owner created any. -/
  | archive {w : World k} {o : Owner k} {p : Place k} {n : Nat} {e : Entry}
      (ho : w.owner = some o) (ha : o.archiving = none) (he : e ∈ (w.live p).seen)
      (hn : number e.name = some n) (hle : n ≤ o.status.highest)
      (hr : rejected ∈ (w.live p).seen.map Entry.name) :
      Step w (w.own (o.archive p n .ready))
  | makeRejected {w : World k} {o : Owner k} {p : Place k} {n : Nat} {e : Entry}
      (ho : w.owner = some o) (ha : o.archiving = none) (he : e ∈ (w.live p).seen)
      (hn : number e.name = some n) (hle : n ≤ o.status.highest)
      (hr : rejected ∉ (w.live p).seen.map Entry.name) :
      Step w ((w.setLive p ((w.live p).create ⟨rejected, none⟩)).own (o.archive p n .made))
  | syncRejected {w : World k} {o : Owner k} {p : Place k} {n : Nat} (ho : w.owner = some o)
      (ha : o.archiving = some ⟨p, n, .made⟩) :
      Step w ((w.syncLive p).own (o.archive p n .ready))
  | openArchive {w : World k} {o : Owner k} {p : Place k} {n : Nat} (offset attempt : Nat)
      (ho : w.owner = some o) (ha : o.archiving = some ⟨p, n, .ready⟩)
      (hnew : archiveName n offset attempt ∉ (w.archives p).seen) :
      Step w ((w.setArchives p ((w.archives p).create (archiveName n offset attempt))).own
        (o.archive p n .opened))
  /-- The archive is durable, and its segment may go. -/
  | syncArchive {w : World k} {o : Owner k} {p : Place k} {n : Nat} (ho : w.owner = some o)
      (ha : o.archiving = some ⟨p, n, .opened⟩) :
      Step w ((w.setArchives p (w.archives p).sync).own { o.doom p n with archiving := none })
  | unlink {w : World k} {o : Owner k} {p : Place k} {n : Nat} (ho : w.owner = some o)
      (hd : (p, n) ∈ o.doomed) :
      Step w (w.setLive p ((w.live p).remove fun e => decide (e.name = name n)))
  | sync {w : World k} {o : Owner k} (p : Place k) (ho : w.owner = some o) : Step w (w.syncLive p)
  /-- The owner is gone: it was dropped, or its process died. -/
  | kill {w : World k} : Step w { w with owner := none }
  | lose {w : World k} {s : Place k → List Entry} {t : Place k → List FileName} {headers : List Nat}
      (hs : ∀ p, (w.live p).Survives (s p)) (hu : ∀ p, ((s p).map Entry.name).Nodup)
      (ht : ∀ p, (w.archives p).Survives (t p)) (hh : ∀ i ∈ headers, i < w.created.length) :
      Step w (w.lost s t headers)

/-- The worlds that runs reach whose restarts all happen in worlds with `Q`. -/
inductive Reachable (Q : World k → Prop) : World k → Prop
  | init : Reachable Q (World.init k)
  | step {w w' : World k} : Reachable Q w → (w.owner = none → w'.owner.isSome → Q w) → Step w w' →
      Reachable Q w'

/-! ## What is on disk -/

theorem Shows.mono {d d' : List FileName × List FileName} {n : Nat} (h : Shows d n)
    (h1 : d.1 ⊆ d'.1) (h2 : d.2 ⊆ d'.2) : Shows d' n := by
  rcases h with ⟨f, hf, hn⟩ | ⟨hr, f, hf, hn⟩
  · exact Or.inl ⟨f, h1 hf, hn⟩
  · exact Or.inr ⟨h1 hr, f, h2 hf, hn⟩

namespace World

variable (w : World k)

/-- The names of a directory that a power loss keeps. -/
def kept (p : Place k) : List FileName × List FileName :=
  ((w.live p).kept.map Entry.name, (w.archives p).kept)

def seen (p : Place k) : List FileName × List FileName :=
  ((w.live p).seen.map Entry.name, (w.archives p).seen)

/-- A segment file whose directory entry is, was or may become durable. -/
def Alive (i : Nat) : Prop :=
  i ∈ w.entries ∨ ∃ p, ∃ e ∈ (w.live p).maybe, e.segment = some i

/-- The archive of a segment is durable. -/
def Archived (p : Place k) (n : Nat) : Prop :=
  rejected ∈ (w.kept p).1 ∧ ∃ f ∈ (w.kept p).2, number f = some n

/-- The segment of an allocation that failed or is under way: whatever became durable of it is still
there. -/
def Unfinished (i a : Nat) : Prop :=
  (∃ p, ⟨name a, some i⟩ ∈ (w.live p).seen) ∧
    (i ∈ w.entries → ∃ p, ⟨name a, some i⟩ ∈ (w.live p).kept)

/-- What holds of the files and names, whoever runs. -/
structure Wf : Prop where
  owned : ∀ p, ∀ e ∈ (w.live p).maybe, (e.segment = none ∧ e.name = rejected) ∨
    ∃ i t, e.segment = some i ∧ w.created[i]? = some t ∧ e.name = name t
  tickets : ∀ t ∈ w.created, t ≠ 0 ∧ t ≤ MAX_SEGMENT
  entries : ∀ i ∈ w.entries, i < w.created.length
  order : ∀ i j a b, i < j → w.Alive i → w.Alive j → w.created[i]? = some a →
    w.created[j]? = some b → a < b

/-- What holds without an owner: the names cover all tickets, and those a power loss keeps cover the
durable ones. -/
structure Down : Prop where
  seen : ∀ i a, w.Alive i → w.created[i]? = some a → ∃ n p, a ≤ n ∧ Shows (w.seen p) n
  kept : ∀ i a, i ∈ w.entries → w.created[i]? = some a → ∃ n p, a ≤ n ∧ Shows (w.kept p) n

/-- What holds under an owner: the greatest ticket has a durable name. -/
structure Up (o : Owner k) : Prop where
  top : o.status.highest = 0 ∨ ∃ p, Shows (w.kept p) o.status.highest
  below : ∀ i a, w.Alive i → w.created[i]? = some a → a ≤ o.status.highest ∨
    o.status.failed = true ∧ (∀ c, o.creating = some c → c.stage ≠ .taken) ∧
      a = o.status.highest + 1 ∧ w.Unfinished i a
  creating : ∀ c, o.creating = some c → o.status.failed = true ∧
    c.ticket = o.status.highest + 1 ∧ c.ticket ≤ MAX_SEGMENT ∧
    (c.stage = .taken → c.file = w.created.length) ∧
    (c.stage = .listed → ⟨name c.ticket, some c.file⟩ ∈ (w.live c.place).kept) ∧
    (c.stage ≠ .taken → ⟨name c.ticket, some c.file⟩ ∈ (w.live c.place).seen)
  archiving : ∀ c, o.archiving = some c → c.ticket ≠ 0 ∧ c.ticket ≤ o.status.highest ∧
    c.ticket ≤ MAX_SEGMENT ∧ rejected ∈ (w.seen c.place).1 ∧
    (c.stage ≠ .made → rejected ∈ (w.kept c.place).1) ∧
    (c.stage = .opened → ∃ f ∈ (w.seen c.place).2, number f = some c.ticket)
  rejected : ∀ p, rejected ∈ (w.seen p).1 → rejected ∈ (w.kept p).1 ∨
    ∃ n, o.archiving = some ⟨p, n, .made⟩
  doomed : ∀ p n, (p, n) ∈ o.doomed →
    n < o.status.highest ∨ n ≤ o.status.highest ∧ w.Archived p n

section Lemmas

variable {w} {w' : World k} {o : Owner k} {p : Place k}

@[simp] theorem setLive_live (w : World k) (p q : Place k) (d : Durable Entry) :
    (w.setLive p d).live q = if q = p then d else w.live q :=
  Function.update_apply ..

@[simp] theorem syncLive_live (w : World k) (p q : Place k) :
    (w.syncLive p).live q = if q = p then (w.live p).sync else w.live q :=
  setLive_live ..

@[simp] theorem setArchives_archives (w : World k) (p q : Place k) (d : Durable FileName) :
    (w.setArchives p d).archives q = if q = p then d else w.archives q :=
  Function.update_apply ..

variable {i : Nat}

theorem Wf.lt_of_alive (h : w.Wf) (hi : w.Alive i) : i < w.created.length := by
  rcases hi with hi | ⟨p, e, he, hs⟩
  · exact h.entries i hi
  · rcases h.owned p e he with ⟨hn, -⟩ | ⟨j, t, hj, ht, -⟩
    · rw [hs] at hn
      cases hn
    · obtain rfl := Option.some.inj (hs.symm.trans hj)
      exact (List.getElem?_eq_some_iff.1 ht).1

variable {a : Nat}

theorem Wf.ticket (h : w.Wf) (ha : w.created[i]? = some a) : a ≠ 0 ∧ a ≤ MAX_SEGMENT :=
  h.tickets a (mem_of_getElem? ha)

theorem Wf.number_name (h : w.Wf) (ha : w.created[i]? = some a) :
    number (name a) = some a :=
  Tickets.number_name (h.ticket ha).1 (h.ticket ha).2

variable {e : Entry}

theorem Wf.entry_eq (h : w.Wf) (he : e ∈ (w.live p).maybe)
    (hs : e.segment = some i) (ha : w.created[i]? = some a) : e = ⟨name a, some i⟩ := by
  rcases h.owned p e he with ⟨hn, -⟩ | ⟨j, t, hj, ht, hname⟩
  · rw [hs] at hn
    cases hn
  · obtain rfl := Option.some.inj (hs.symm.trans hj)
    obtain rfl := Option.some.inj (ha.symm.trans ht)
    exact Entry.ext hname hs

/-- No new entries on disk, and only known files became durable. -/
theorem Wf.mono (h : w.Wf) (hc : w'.created = w.created)
    (hm : ∀ p, (w'.live p).maybe ⊆ (w.live p).maybe) (he : ∀ i ∈ w'.entries, w.Alive i) :
    w'.Wf := by
  have halive : ∀ i, w'.Alive i → w.Alive i := by
    rintro i (hi | ⟨p, e, hp, hs⟩)
    · exact he i hi
    · exact Or.inr ⟨p, e, hm p hp, hs⟩
  refine ⟨?_, ?_, ?_, ?_⟩
  · intro p e hp
    rw [hc]
    exact h.owned p e (hm p hp)
  · rw [hc]
    exact h.tickets
  · intro i hi
    rw [hc]
    exact h.lt_of_alive (he i hi)
  · intro i j a b hij hi hj ha hb
    rw [hc] at ha hb
    exact h.order i j a b hij (halive i hi) (halive j hj) ha hb

theorem Wf.own (h : w.Wf) (o : Owner k) : (w.own o).Wf :=
  h.mono rfl (fun _ => List.Subset.refl _) fun _ hi => Or.inl hi

/-! ### A directory sync -/

theorem seen_syncLive (w : World k) (p q : Place k) :
    ((w.syncLive p).live q).seen = (w.live q).seen := by
  rw [syncLive_live]
  split
  · next h =>
    subst h
    rfl
  · rfl

theorem kept_syncLive (w : World k) (p q : Place k) :
    (w.live q).kept ⊆ ((w.syncLive p).live q).kept := by
  rw [syncLive_live]
  split
  · next h =>
    subst h
    exact (w.live q).kept_seen
  · exact List.Subset.refl _

theorem maybe_syncLive (w : World k) (p q : Place k) :
    ((w.syncLive p).live q).maybe ⊆ (w.live q).maybe := by
  rw [syncLive_live]
  split
  · next h =>
    subst h
    exact (w.live q).seen_maybe
  · exact List.Subset.refl _

theorem mem_kept_syncLive (he : e ∈ (w.live p).seen) :
    e ∈ ((w.syncLive p).live p).kept := by
  rw [syncLive_live, if_pos rfl]
  exact he

theorem mem_entries_syncLive (h : i ∈ (w.syncLive p).entries) :
    i ∈ w.entries ∨ ∃ e ∈ (w.live p).seen, e.segment = some i := by
  rcases mem_append.1 h with h | h
  · exact Or.inr (mem_filterMap.1 h)
  · exact Or.inl h

theorem alive_syncLive (h : (w.syncLive p).Alive i) : w.Alive i := by
  rcases h with h | ⟨q, e, he, hs⟩
  · rcases mem_entries_syncLive h with h | ⟨e, he, hs⟩
    · exact Or.inl h
    · exact Or.inr ⟨p, e, (w.live p).seen_maybe he, hs⟩
  · exact Or.inr ⟨q, e, maybe_syncLive w p q he, hs⟩

theorem Wf.syncLive (h : w.Wf) (p : Place k) : (w.syncLive p).Wf :=
  h.mono rfl (maybe_syncLive w p) fun _ hi => alive_syncLive (Or.inl hi)

theorem map_kept_syncLive (w : World k) (p q : Place k) :
    (w.kept q).1 ⊆ ((w.syncLive p).kept q).1 :=
  map_subset _ (kept_syncLive w p q)

theorem map_seen_syncLive (w : World k) (p q : Place k) :
    ((w.syncLive p).seen q).1 = (w.seen q).1 :=
  congrArg (map Entry.name) (seen_syncLive w p q)

theorem Up.syncLive (hu : w.Up o) (hw : w.Wf) (p : Place k) : (w.syncLive p).Up o := by
  have hk := map_kept_syncLive w p
  refine ⟨?_, ?_, ?_, ?_, ?_, ?_⟩
  · refine hu.top.imp id ?_
    rintro ⟨q, hq⟩
    exact ⟨q, hq.mono (hk q) (List.Subset.refl _)⟩
  · intro i a hi ha
    refine (hu.below i a (alive_syncLive hi) ha).imp id ?_
    rintro ⟨hf, hc, he, ⟨q, hq⟩, hkept⟩
    refine ⟨hf, hc, he, ⟨q, by rw [seen_syncLive]; exact hq⟩, ?_⟩
    intro hent
    rcases mem_entries_syncLive hent with hent | ⟨e, hseen, hs⟩
    · obtain ⟨r, hr⟩ := hkept hent
      exact ⟨r, kept_syncLive w p r hr⟩
    · rw [← hw.entry_eq ((w.live p).seen_maybe hseen) hs ha]
      exact ⟨p, mem_kept_syncLive hseen⟩
  · intro c hc
    obtain ⟨h1, h2, h3, h4, h5, h6⟩ := hu.creating c hc
    refine ⟨h1, h2, h3, h4, fun hs => kept_syncLive w p _ (h5 hs), fun hs => ?_⟩
    rw [seen_syncLive]
    exact h6 hs
  · intro c hc
    obtain ⟨h1, h2, h3, h4, h5, h6⟩ := hu.archiving c hc
    refine ⟨h1, h2, h3, ?_, fun hs => hk _ (h5 hs), h6⟩
    rw [map_seen_syncLive]
    exact h4
  · intro q hq
    rw [map_seen_syncLive] at hq
    exact (hu.rejected q hq).imp (fun h => hk q h) id
  · intro q n hd
    refine (hu.doomed q n hd).imp id ?_
    rintro ⟨hle, hr, hf⟩
    exact ⟨hle, hk q hr, hf⟩

/-! ### Archives -/

theorem Up.setArchives (hu : w.Up o) {d : Durable FileName} (hs : (w.archives p).seen ⊆ d.seen)
    (hk : (w.archives p).kept ⊆ d.kept) : (w.setArchives p d).Up o := by
  have hk : ∀ q, (w.kept q).2 ⊆ ((w.setArchives p d).kept q).2 := by
    intro q
    show _ ⊆ ((w.setArchives p d).archives q).kept
    rw [setArchives_archives]
    split
    · next h =>
      subst h
      exact hk
    · exact List.Subset.refl _
  have hs : ∀ q, (w.seen q).2 ⊆ ((w.setArchives p d).seen q).2 := by
    intro q
    show _ ⊆ ((w.setArchives p d).archives q).seen
    rw [setArchives_archives]
    split
    · next h =>
      subst h
      exact hs
    · exact List.Subset.refl _
  refine ⟨?_, hu.below, hu.creating, ?_, hu.rejected, ?_⟩
  · refine hu.top.imp id ?_
    rintro ⟨q, hq⟩
    exact ⟨q, hq.mono (List.Subset.refl _) (hk q)⟩
  · intro c hc
    obtain ⟨h1, h2, h3, h4, h5, h6⟩ := hu.archiving c hc
    refine ⟨h1, h2, h3, h4, h5, fun h => ?_⟩
    obtain ⟨f, hf, hn⟩ := h6 h
    exact ⟨f, hs _ hf, hn⟩
  · intro q n hd
    refine (hu.doomed q n hd).imp id ?_
    rintro ⟨hle, hr, f, hf, hn⟩
    exact ⟨hle, hr, f, hk q hf, hn⟩

theorem Wf.setArchives (h : w.Wf) (p : Place k) (d : Durable FileName) : (w.setArchives p d).Wf :=
  h.mono rfl (fun _ => List.Subset.refl _) fun _ hi => Or.inl hi

/-- The `rejected` directory is created. -/
def made (w : World k) (p : Place k) : World k :=
  w.setLive p ((w.live p).create ⟨Tickets.rejected, none⟩)

theorem kept_made (w : World k) (p q : Place k) : ((w.made p).live q).kept = (w.live q).kept := by
  rw [made, setLive_live]
  split
  · next h =>
    subst h
    rfl
  · rfl

theorem seen_made (w : World k) (p q : Place k) : (w.live q).seen ⊆ ((w.made p).live q).seen := by
  rw [made, setLive_live]
  split
  · next h =>
    subst h
    exact subset_cons_self ..
  · exact List.Subset.refl _

theorem mem_maybe_made {q : Place k} (h : e ∈ ((w.made p).live q).maybe) :
    e = ⟨Tickets.rejected, none⟩ ∨ e ∈ (w.live q).maybe := by
  rw [made, setLive_live] at h
  split at h
  · next hq =>
    subst hq
    exact mem_cons.1 h
  · exact Or.inr h

theorem alive_made (h : (w.made p).Alive i) : w.Alive i := by
  rcases h with h | ⟨q, e, he, hs⟩
  · exact Or.inl h
  · rcases mem_maybe_made he with rfl | he
    · cases hs
    · exact Or.inr ⟨q, e, he, hs⟩

theorem Wf.made (h : w.Wf) (p : Place k) : (w.made p).Wf := by
  refine ⟨?_, h.tickets, h.entries, ?_⟩
  · intro q e he
    rcases mem_maybe_made he with rfl | he
    · exact Or.inl ⟨rfl, rfl⟩
    · exact h.owned q e he
  · intro i j a b hij hi hj ha hb
    exact h.order i j a b hij (alive_made hi) (alive_made hj) ha hb

theorem map_kept_made (w : World k) (p q : Place k) : (w.made p).kept q = w.kept q :=
  congrArg (fun l => (map Entry.name l, (w.archives q).kept)) (kept_made w p q)

theorem Up.made (hu : w.Up o) {n : Nat} (ha : o.archiving = none) (hn : n ≠ 0)
    (hle : n ≤ o.status.highest) (hmax : n ≤ MAX_SEGMENT) (p : Place k) :
    (w.made p).Up (o.archive p n .made) := by
  have hself : ∀ q, q = p → Tickets.rejected ∈ ((w.made p).seen q).1 := by
    rintro q rfl
    show _ ∈ ((w.made q).live q).seen.map Entry.name
    rw [World.made, setLive_live, if_pos rfl]
    exact mem_cons_self
  refine ⟨?_, ?_, ?_, ?_, ?_, ?_⟩
  · simp only [map_kept_made]
    exact hu.top
  · intro i a hi hc
    refine (hu.below i a (alive_made hi) hc).imp id ?_
    rintro ⟨hf, hs, he, ⟨q, hq⟩, hkept⟩
    refine ⟨hf, hs, he, ⟨q, seen_made w p q hq⟩, ?_⟩
    simp only [kept_made]
    exact hkept
  · intro c hc
    obtain ⟨h1, h2, h3, h4, h5, h6⟩ := hu.creating c hc
    refine ⟨h1, h2, h3, h4, ?_, fun hs => seen_made w p _ (h6 hs)⟩
    rw [kept_made]
    exact h5
  · intro c hc
    obtain rfl := Option.some.inj hc
    exact ⟨hn, hle, hmax, hself p rfl, fun h => absurd rfl h, fun h => by cases h⟩
  · intro q hq
    by_cases hp : q = p
    · subst hp
      exact Or.inr ⟨n, rfl⟩
    · rw [map_kept_made]
      have hseen : ((w.made p).seen q).1 = (w.seen q).1 := by
        show ((w.made p).live q).seen.map Entry.name = _
        rw [World.made, setLive_live, if_neg hp]
        rfl
      rw [hseen] at hq
      rcases hu.rejected q hq with h | ⟨m, hm⟩
      · exact Or.inl h
      · rw [ha] at hm
        cases hm
  · intro q m hd
    refine (hu.doomed q m hd).imp id ?_
    rintro ⟨hle, hr, hf⟩
    refine ⟨hle, ?_, ?_⟩
    · rw [map_kept_made]
      exact hr
    · rw [map_kept_made]
      exact hf

/-! ### Removal -/

def unlinked (w : World k) (p : Place k) (n : Nat) : World k :=
  w.setLive p ((w.live p).remove fun e => decide (e.name = name n))

theorem maybe_unlinked (w : World k) (p : Place k) (n : Nat) (q : Place k) :
    ((w.unlinked p n).live q).maybe = (w.live q).maybe := by
  rw [unlinked, setLive_live]
  split
  · next hq =>
    subst hq
    rfl
  · rfl

theorem mem_kept_unlinked {n : Nat} {q : Place k} (he : e ∈ (w.live q).kept)
    (hne : e.name ≠ name n) : e ∈ ((w.unlinked p n).live q).kept := by
  rw [unlinked, setLive_live]
  split
  · next hq =>
    subst hq
    exact mem_filter.2 ⟨he, by simp [hne]⟩
  · exact he

theorem mem_seen_unlinked {n : Nat} {q : Place k} (he : e ∈ (w.live q).seen)
    (hne : e.name ≠ name n) : e ∈ ((w.unlinked p n).live q).seen := by
  rw [unlinked, setLive_live]
  split
  · next hq =>
    subst hq
    exact mem_filter.2 ⟨he, by simp [hne]⟩
  · exact he

theorem seen_unlinked_subset (w : World k) (p : Place k) (n : Nat) (q : Place k) :
    ((w.unlinked p n).live q).seen ⊆ (w.live q).seen := by
  rw [unlinked, setLive_live]
  split
  · next hq =>
    subst hq
    exact filter_subset_self _
  · exact List.Subset.refl _

theorem rejected_kept_unlinked {n : Nat} {q : Place k} (h : Tickets.rejected ∈ (w.kept q).1) :
    Tickets.rejected ∈ ((w.unlinked p n).kept q).1 := by
  obtain ⟨e, he, hr⟩ := mem_map.1 h
  exact mem_map.2 ⟨e, mem_kept_unlinked he (hr ▸ rejected_ne_name n), hr⟩

theorem alive_unlinked {n : Nat} : (w.unlinked p n).Alive i ↔ w.Alive i := by
  simp only [Alive, maybe_unlinked]
  rfl

theorem Wf.unlinked (h : w.Wf) (p : Place k) (n : Nat) : (w.unlinked p n).Wf :=
  h.mono rfl (fun q _ he => maybe_unlinked w p n q ▸ he) fun _ hi => Or.inl hi

/-- The durable name of a ticket stays when another one is removed. -/
theorem shows_unlinked (hw : w.Wf) {m n : Nat} {q : Place k} (h : Shows (w.kept q) m) (hn : n < m) :
    Shows ((w.unlinked p n).kept q) m := by
  rcases h with ⟨f, hf, hm⟩ | ⟨hr, hf⟩
  · obtain ⟨e, he, rfl⟩ := mem_map.1 hf
    have hmax : m ≤ MAX_SEGMENT := by
      rcases hw.owned q e ((w.live q).kept_maybe he) with ⟨-, hname⟩ | ⟨i, t, -, ht, hname⟩
      · rw [hname, number_rejected] at hm
        cases hm
      · rw [hname, hw.number_name ht] at hm
        exact Option.some.inj hm ▸ (hw.ticket ht).2
    exact Or.inl ⟨e.name, mem_map_of_mem
      (mem_kept_unlinked he (ne_name hm (by omega) (by omega))), hm⟩
  · exact Or.inr ⟨rejected_kept_unlinked hr, hf⟩

/-- A name that may go is covered by the greatest ticket or by an archive. -/
theorem Up.unlink (hu : w.Up o) (hw : w.Wf) {n : Nat} (hd : (p, n) ∈ o.doomed) :
    (w.unlinked p n).Up o := by
  have hle : n ≤ o.status.highest := (hu.doomed p n hd).elim le_of_lt And.left
  refine ⟨?_, ?_, ?_, ?_, ?_, ?_⟩
  · rcases hu.doomed p n hd with hlt | ⟨-, hr, hf⟩
    · refine hu.top.imp id ?_
      rintro ⟨q, hq⟩
      exact ⟨q, shows_unlinked hw hq hlt⟩
    · rcases Nat.eq_or_lt_of_le hle with rfl | hlt
      · exact Or.inr ⟨p, Or.inr ⟨rejected_kept_unlinked hr, hf⟩⟩
      · refine hu.top.imp id ?_
        rintro ⟨q, hq⟩
        exact ⟨q, shows_unlinked hw hq hlt⟩
  · intro i a hi ha
    have ha' : w.created[i]? = some a := ha
    refine (hu.below i a (alive_unlinked.1 hi) ha').imp id ?_
    rintro ⟨hf, hs, rfl, ⟨q, hq⟩, hkept⟩
    have hne : name (o.status.highest + 1) ≠ name n :=
      ne_name (hw.number_name ha') (by omega) (by have := (hw.ticket ha').2; omega)
    refine ⟨hf, hs, rfl, ⟨q, mem_seen_unlinked hq hne⟩, fun hent => ?_⟩
    obtain ⟨r, hr⟩ := hkept hent
    exact ⟨r, mem_kept_unlinked hr hne⟩
  · intro c hc
    obtain ⟨h1, h2, h3, h4, h5, h6⟩ := hu.creating c hc
    have hne : name c.ticket ≠ name n :=
      ne_name (number_name (by omega) h3) (by omega) (by omega)
    exact ⟨h1, h2, h3, h4, fun hs => mem_kept_unlinked (h5 hs) hne,
      fun hs => mem_seen_unlinked (h6 hs) hne⟩
  · intro c hc
    obtain ⟨h1, h2, h3, h4, h5, h6⟩ := hu.archiving c hc
    obtain ⟨e, he, hr⟩ := mem_map.1 h4
    exact ⟨h1, h2, h3,
      mem_map.2 ⟨e, mem_seen_unlinked he (hr ▸ rejected_ne_name n), hr⟩,
      fun hs => rejected_kept_unlinked (h5 hs), h6⟩
  · intro q hq
    refine (hu.rejected q ?_).imp rejected_kept_unlinked id
    exact map_subset _ (seen_unlinked_subset w p n q) hq
  · intro q m hd
    refine (hu.doomed q m hd).imp id ?_
    rintro ⟨hm, hr, hf⟩
    exact ⟨hm, rejected_kept_unlinked hr, hf⟩

/-! ### A new segment file -/

def opened (w : World k) (c : Creating k) : World k :=
  { w.setLive c.place ((w.live c.place).create ⟨name c.ticket, some c.file⟩) with
    created := w.created ++ [c.ticket] }

section Opened

variable {c : Creating k}

theorem kept_opened (w : World k) (c : Creating k) (q : Place k) :
    ((w.opened c).live q).kept = (w.live q).kept := by
  show ((w.setLive _ _).live q).kept = _
  rw [setLive_live]
  split
  · next h =>
    subst h
    rfl
  · rfl

theorem mem_seen_opened {q : Place k} {e : Entry} :
    e ∈ ((w.opened c).live q).seen ↔
      q = c.place ∧ e = ⟨name c.ticket, some c.file⟩ ∨ e ∈ (w.live q).seen := by
  show e ∈ ((w.setLive _ _).live q).seen ↔ _
  rw [setLive_live]
  split
  · next h =>
    subst h
    simp [Durable.create]
  · next h => simp [h]

theorem mem_maybe_opened {q : Place k} {e : Entry} :
    e ∈ ((w.opened c).live q).maybe ↔
      q = c.place ∧ e = ⟨name c.ticket, some c.file⟩ ∨ e ∈ (w.live q).maybe := by
  show e ∈ ((w.setLive _ _).live q).maybe ↔ _
  rw [setLive_live]
  split
  · next h =>
    subst h
    simp [Durable.create]
  · next h => simp [h]

theorem alive_opened {i : Nat} (h : (w.opened c).Alive i) : i = c.file ∨ w.Alive i := by
  rcases h with h | ⟨q, e, he, hs⟩
  · exact Or.inr (Or.inl h)
  · rcases mem_maybe_opened.1 he with ⟨-, rfl⟩ | he
    · exact Or.inl (Option.some.inj hs).symm
    · exact Or.inr (Or.inr ⟨q, e, he, hs⟩)

theorem created_opened (hw : w.Wf) {i a : Nat} (hi : w.Alive i)
    (ha : (w.opened c).created[i]? = some a) : w.created[i]? = some a := by
  have ha : (w.created ++ [c.ticket])[i]? = some a := ha
  rwa [getElem?_append_left (hw.lt_of_alive hi)] at ha

theorem created_opened_self (hf : c.file = w.created.length) :
    (w.opened c).created[c.file]? = some c.ticket := by
  show (w.created ++ [c.ticket])[c.file]? = _
  rw [hf, getElem?_concat_length]

/-- Every earlier segment that is or may become durable has a smaller ticket. -/
theorem Wf.opened (hw : w.Wf) (hf : c.file = w.created.length) (h0 : c.ticket ≠ 0)
    (hmax : c.ticket ≤ MAX_SEGMENT)
    (hlt : ∀ i a, w.Alive i → w.created[i]? = some a → a < c.ticket) : (w.opened c).Wf := by
  refine ⟨?_, ?_, ?_, ?_⟩
  · intro q e he
    rcases mem_maybe_opened.1 he with ⟨-, rfl⟩ | he
    · exact Or.inr ⟨c.file, c.ticket, rfl, created_opened_self hf, rfl⟩
    · refine (hw.owned q e he).imp id ?_
      rintro ⟨i, t, hs, ht, hn⟩
      exact ⟨i, t, hs, List.getElem?_append_left (List.getElem?_eq_some_iff.1 ht).1 ▸ ht, hn⟩
  · intro t ht
    rcases List.mem_append.1 ht with ht | ht
    · exact hw.tickets t ht
    · rw [List.mem_singleton.1 ht]
      exact ⟨h0, hmax⟩
  · intro i hi
    show i < (w.created ++ [c.ticket]).length
    rw [List.length_append]
    exact Nat.lt_add_right _ (hw.entries i hi)
  · intro i j a b hij hi hj ha hb
    have hbound : ∀ {m}, (w.opened c).Alive m → m ≤ c.file := by
      intro m hm
      rcases alive_opened hm with rfl | hm
      · exact Nat.le_refl _
      · exact hf ▸ Nat.le_of_lt (hw.lt_of_alive hm)
    have hi' : w.Alive i := by
      rcases alive_opened hi with rfl | hi
      · exact absurd (hbound hj) (by omega)
      · exact hi
    have ha := created_opened hw hi' ha
    rcases alive_opened hj with rfl | hj'
    · rw [created_opened_self hf] at hb
      exact Option.some.inj hb ▸ hlt i a hi' ha
    · exact hw.order i j a b hij hi' hj' ha (created_opened hw hj' hb)

theorem Up.opened (hu : w.Up o) (hw : w.Wf) (hc : o.creating = some c) (hs : c.stage = .taken) :
    (w.opened c).Up (o.create c .opened) := by
  obtain ⟨hfailed, hticket, hmax, hfile, -, -⟩ := hu.creating c hc
  have hfile := hfile hs
  have hnot : ∀ i a, w.Alive i → w.created[i]? = some a → a ≤ o.status.highest := by
    intro i a hi ha
    rcases hu.below i a hi ha with h | ⟨-, hno, -⟩
    · exact h
    · exact absurd hs (hno c hc)
  have hkept : ∀ q, (w.opened c).kept q = w.kept q := fun q =>
    congrArg (fun l => (map Entry.name l, (w.archives q).kept)) (kept_opened w c q)
  have hseen : ∀ q, Tickets.rejected ∈ ((w.opened c).seen q).1 ↔ Tickets.rejected ∈ (w.seen q).1 := by
    intro q
    simp only [World.seen, mem_map, mem_seen_opened]
    constructor
    · rintro ⟨e, ⟨-, rfl⟩ | he, hr⟩
      · exact absurd hr.symm (rejected_ne_name _)
      · exact ⟨e, he, hr⟩
    · rintro ⟨e, he, hr⟩
      exact ⟨e, Or.inr he, hr⟩
  refine ⟨?_, ?_, ?_, ?_, ?_, ?_⟩
  · simp only [hkept]
    exact hu.top
  · intro i a hi ha
    rcases alive_opened hi with rfl | hi
    · rw [created_opened_self hfile] at ha
      obtain rfl := Option.some.inj ha
      refine Or.inr ⟨hfailed, ?_, hticket, ⟨c.place, mem_seen_opened.2 (Or.inl ⟨rfl, rfl⟩)⟩, ?_⟩
      · rintro _ ⟨⟩
        nofun
      · intro hent
        exact absurd (hw.entries c.file hent) (by omega)
    · exact Or.inl (hnot i a hi (created_opened hw hi ha))
  · rintro _ ⟨⟩
    exact ⟨hfailed, hticket, hmax, nofun, nofun,
      fun _ => mem_seen_opened.2 (Or.inl ⟨rfl, rfl⟩)⟩
  · intro a ha
    obtain ⟨h1, h2, h3, h4, h5, h6⟩ := hu.archiving a ha
    refine ⟨h1, h2, h3, (hseen _).2 h4, ?_, h6⟩
    rw [hkept]
    exact h5
  · intro q hq
    rw [hkept]
    exact hu.rejected q ((hseen q).1 hq)
  · intro q n hd
    refine (hu.doomed q n hd).imp id ?_
    rintro ⟨hle, h⟩
    rw [Archived, hkept]
    exact ⟨hle, h⟩

end Opened

/-! ### Restarts -/

/-- The owner goes away and its directories stay as they are. -/
theorem Up.kill (hu : w.Up o) (hw : w.Wf) : w.Down := by
  have hpos : ∀ {i a : Nat}, w.created[i]? = some a → a ≤ o.status.highest →
      ∃ p, Shows (w.kept p) o.status.highest := by
    intro i a ha hle
    rcases hu.top with h0 | h
    · exact absurd (hw.ticket ha).1 (by omega)
    · exact h
  refine ⟨?_, ?_⟩
  · intro i a hi ha
    rcases hu.below i a hi ha with hle | ⟨-, -, -, ⟨p, hp⟩, -⟩
    · obtain ⟨p, hp⟩ := hpos ha hle
      exact ⟨_, p, hle, hp.mono (map_subset _ (w.live p).kept_seen) (w.archives p).kept_seen⟩
    · exact ⟨a, p, le_refl a, Or.inl ⟨name a, mem_map.2 ⟨_, hp, rfl⟩, hw.number_name ha⟩⟩
  · intro i a hi ha
    rcases hu.below i a (Or.inl hi) ha with hle | ⟨-, -, -, -, hkept⟩
    · obtain ⟨p, hp⟩ := hpos ha hle
      exact ⟨_, p, hle, hp⟩
    · obtain ⟨p, hp⟩ := hkept hi
      exact ⟨a, p, le_refl a, Or.inl ⟨name a, mem_map.2 ⟨_, hp, rfl⟩, hw.number_name ha⟩⟩

section Lost

variable {s : Place k → List Entry} {t : Place k → List FileName} {headers : List Nat}

theorem mem_entries_lost {i : Nat} (h : i ∈ (w.lost s t headers).entries) :
    i ∈ w.entries ∨ ∃ p, ∃ e ∈ s p, e.segment = some i := by
  rcases mem_append.1 h with h | h
  · obtain ⟨e, he, hs⟩ := mem_filterMap.1 h
    obtain ⟨p, -, hp⟩ := mem_flatMap.1 he
    exact Or.inr ⟨p, e, hp, hs⟩
  · exact Or.inl h

theorem Wf.lost (hw : w.Wf) (hs : ∀ p, (w.live p).Survives (s p)) : (w.lost s t headers).Wf := by
  refine hw.mono rfl (fun p => (hs p).2) ?_
  intro i hi
  rcases mem_entries_lost hi with h | ⟨p, e, he, hseg⟩
  · exact Or.inl h
  · exact Or.inr ⟨p, e, (hs p).2 he, hseg⟩

theorem Down.lost (hd : w.Down) (hw : w.Wf) (hs : ∀ p, (w.live p).Survives (s p))
    (ht : ∀ p, (w.archives p).Survives (t p)) : (w.lost s t headers).Down := by
  have hshows : ∀ p n, Shows (w.kept p) n → Shows ((w.lost s t headers).kept p) n := by
    rintro p n (⟨f, hf, hn⟩ | ⟨hr, f, hf, hn⟩)
    · exact Or.inl ⟨f, map_subset _ (hs p).1 hf, hn⟩
    · have hr := map_subset Entry.name (hs p).1 hr
      refine Or.inr ⟨hr, f, ?_, hn⟩
      show f ∈ if _ then _ else _
      rw [if_pos hr]
      exact (ht p).1 hf
  have hentries : ∀ i a, i ∈ (w.lost s t headers).entries → w.created[i]? = some a →
      ∃ n p, a ≤ n ∧ Shows ((w.lost s t headers).kept p) n := by
    intro i a hi ha
    rcases mem_entries_lost hi with h | ⟨p, e, he, hseg⟩
    · obtain ⟨n, p, hle, hp⟩ := hd.kept i a h ha
      exact ⟨n, p, hle, hshows p n hp⟩
    · have hname := hw.entry_eq ((hs p).2 he) hseg ha
      exact ⟨a, p, le_refl a,
        Or.inl ⟨name a, mem_map.2 ⟨e, he, by rw [hname]⟩, hw.number_name ha⟩⟩
  refine ⟨?_, hentries⟩
  rintro i a (hi | ⟨p, e, he, hseg⟩) ha
  · exact hentries i a hi ha
  · refine hentries i a (mem_append_left _ ?_) ha
    exact mem_filterMap.2 ⟨e, mem_flatMap.2 ⟨p, mem_places p, he⟩, hseg⟩

end Lost

theorem Down.scan (hd : w.Down) (hq : w.Settled) {st : Status} (h : «open» w.listing = .ok st) :
    w.Up ⟨st, none, none, []⟩ := by
  obtain ⟨hf, hle, htop⟩ := open_eq_ok h
  refine ⟨?_, ?_, nofun, nofun, ?_, nofun⟩
  · refine htop.imp id ?_
    rintro ⟨d, hd, hn⟩
    obtain ⟨p, -, rfl⟩ := mem_map.1 hd
    exact ⟨p, hn.mono (map_subset _ (hq p).1) (hq p).2⟩
  · intro i a hi ha
    obtain ⟨n, p, han, hp⟩ := hd.seen i a hi ha
    exact Or.inl (han.trans (hle _ (mem_map.2 ⟨p, mem_places p, rfl⟩) n hp))
  · intro p hp
    exact Or.inl (map_subset _ (hq p).1 hp)

end Lemmas

/-- The invariant of every run. -/
structure Inv : Prop where
  wf : w.Wf
  down : w.owner = none → w.Down
  up : ∀ o, w.owner = some o → w.Up o

variable {w}

theorem inv_of_up (hw : w.Wf) {o : Owner k} (ho : w.owner = some o) (hu : w.Up o) : w.Inv := by
  refine ⟨hw, fun h => absurd (h.symm.trans ho) nofun, fun o' ho' => ?_⟩
  rwa [← Option.some.inj (ho.symm.trans ho')]

theorem inv_own (hw : w.Wf) {o : Owner k} (hu : w.Up o) : (w.own o).Inv :=
  inv_of_up (hw.own o) rfl ⟨hu.top, hu.below, hu.creating, hu.archiving, hu.rejected, hu.doomed⟩

theorem Inv.toDown (h : w.Inv) : w.Down := by
  cases ho : w.owner with
  | none => exact h.down ho
  | some o => exact (h.up o ho).kill h.wf

/-! ### The steps of an owner -/

section Owner

variable {o : Owner k}

theorem Up.take (hu : w.Up o) {n : Nat} (hn : o.status.next = .ok n) (p : Place k) :
    w.Up { o with
      status := { o.status with failed := true }
      creating := some ⟨p, n, w.created.length, .taken⟩ } := by
  obtain ⟨hf, rfl, hmax⟩ := Status.next_eq_ok.1 hn
  refine ⟨hu.top, ?_, ?_, hu.archiving, hu.rejected, hu.doomed⟩
  · intro i a hi ha
    -- a healthy owner has no unfinished segment
    rcases hu.below i a hi ha with h | ⟨h, -⟩
    · exact Or.inl h
    · rw [hf] at h
      cases h
  · rintro _ ⟨⟩
    exact ⟨rfl, rfl, hmax, fun _ => rfl, nofun, fun h => absurd rfl h⟩

theorem Up.create (hu : w.Up o) {c : Creating k} (hc : o.creating = some c) {stage : Stage}
    (hs : c.stage ≠ .taken) (hs' : stage ≠ .taken)
    (hl : stage = .listed → ⟨name c.ticket, some c.file⟩ ∈ (w.live c.place).kept) :
    w.Up (o.create c stage) := by
  obtain ⟨h1, h2, h3, -, -, h6⟩ := hu.creating c hc
  refine ⟨hu.top, ?_, ?_, hu.archiving, hu.rejected, hu.doomed⟩
  · intro i a hi ha
    refine (hu.below i a hi ha).imp id ?_
    rintro ⟨hf, -, h⟩
    refine ⟨hf, ?_, h⟩
    rintro _ ⟨⟩
    exact hs'
  · rintro _ ⟨⟩
    exact ⟨h1, h2, h3, fun h => absurd h hs', hl, fun _ => h6 hs⟩

theorem Up.finish (hu : w.Up o) {c : Creating k} (hc : o.creating = some c)
    (hs : c.stage = .listed) : w.Up { o with status := ⟨c.ticket, false⟩, creating := none } := by
  obtain ⟨-, h2, h3, -, h5, -⟩ := hu.creating c hc
  have hnumber : number (name c.ticket) = some c.ticket := number_name (by omega) h3
  refine ⟨?_, ?_, nofun, ?_, hu.rejected, ?_⟩
  · exact Or.inr ⟨c.place, Or.inl ⟨_, mem_map.2 ⟨_, h5 hs, rfl⟩, hnumber⟩⟩
  · intro i a hi ha
    rcases hu.below i a hi ha with h | ⟨-, -, h, -⟩
    · exact Or.inl (by show a ≤ c.ticket; omega)
    · exact Or.inl (by show a ≤ c.ticket; omega)
  · intro a ha
    obtain ⟨g1, g2, g3, g4⟩ := hu.archiving a ha
    exact ⟨g1, by show a.ticket ≤ c.ticket; omega, g3, g4⟩
  · intro p n hd
    rcases hu.doomed p n hd with h | ⟨h, -⟩
    · exact Or.inl (by show n < c.ticket; omega)
    · exact Or.inl (by show n < c.ticket; omega)

theorem Up.refuse (hu : w.Up o) : w.Up { o with creating := none } := by
  refine ⟨hu.top, ?_, nofun, hu.archiving, hu.rejected, hu.doomed⟩
  intro i a hi ha
  refine (hu.below i a hi ha).imp id ?_
  rintro ⟨hf, -, h⟩
  exact ⟨hf, nofun, h⟩

theorem Up.doom (hu : w.Up o) {p : Place k} {n : Nat}
    (h : n < o.status.highest ∨ n ≤ o.status.highest ∧ w.Archived p n) : w.Up (o.doom p n) := by
  refine ⟨hu.top, hu.below, hu.creating, hu.archiving, hu.rejected, ?_⟩
  intro q m hd
  rcases mem_cons.1 hd with he | hd
  · obtain ⟨rfl, rfl⟩ := Prod.mk.inj he
    exact h
  · exact hu.doomed q m hd

theorem Up.archive (hu : w.Up o) {p : Place k} {n : Nat} {stage : ArchiveStage} (hn : n ≠ 0)
    (hle : n ≤ o.status.highest) (hmax : n ≤ MAX_SEGMENT) (hr : Tickets.rejected ∈ (w.kept p).1)
    (hs : stage = .opened → ∃ f ∈ (w.seen p).2, number f = some n)
    (ha : ∀ q m, o.archiving = some ⟨q, m, .made⟩ → q = p) : w.Up (o.archive p n stage) := by
  refine ⟨hu.top, hu.below, hu.creating, ?_, ?_, hu.doomed⟩
  · rintro _ ⟨⟩
    exact ⟨hn, hle, hmax, map_subset _ (w.live p).kept_seen hr, fun _ => hr, hs⟩
  · intro q hq
    rcases hu.rejected q hq with h | ⟨m, hm⟩
    · exact Or.inl h
    · exact Or.inl (ha q m hm ▸ hr)

theorem Up.archived (hu : w.Up o) {p : Place k} {n : Nat}
    (ha : o.archiving = some ⟨p, n, .opened⟩)
    (hk : (w.archives p).seen ⊆ (w.archives p).kept) :
    w.Up { o.doom p n with archiving := none } := by
  obtain ⟨-, hle, -, -, hr, hf⟩ := hu.archiving _ ha
  obtain ⟨f, hf, hn⟩ := hf rfl
  have hdoom := hu.doom (Or.inr ⟨hle, hr nofun, f, hk hf, hn⟩)
  refine ⟨hdoom.top, hdoom.below, hdoom.creating, nofun, ?_, hdoom.doomed⟩
  intro q hq
  rcases hu.rejected q hq with h | ⟨m, hm⟩
  · exact Or.inl h
  · rw [ha] at hm
    cases hm

theorem Wf.candidate (hw : w.Wf) {p : Place k} {e : Entry} {n : Nat} (he : e ∈ (w.live p).seen)
    (hn : number e.name = some n) : n ≠ 0 ∧ n ≤ MAX_SEGMENT := by
  rcases hw.owned p e ((w.live p).seen_maybe he) with ⟨-, hname⟩ | ⟨i, t, -, ht, hname⟩
  · rw [hname, number_rejected] at hn
    cases hn
  · rw [hname, hw.number_name ht] at hn
    exact Option.some.inj hn ▸ hw.ticket ht

end Owner

end World

open World

theorem Step.inv {w w' : World k} (hstep : Step w w') (h : w.Inv)
    (hq : w.owner = none → w'.owner.isSome → w.Settled) : w'.Inv := by
  have hw := h.wf
  cases hstep with
  | scan ho hopen => exact inv_own hw ((h.down ho).scan (hq ho rfl) hopen)
  | take p ho hn => exact inv_own hw ((h.up _ ho).take hn p)
  | @openNew o c ho hc hs hnew =>
    have hu := h.up _ ho
    obtain ⟨-, hticket, hmax, hfile, -, -⟩ := hu.creating c hc
    refine inv_own (w := w.opened c) (hw.opened (hfile hs) (by omega) hmax ?_) (hu.opened hw hc hs)
    intro i a hi ha
    rcases hu.below i a hi ha with hle | ⟨-, hno, -⟩
    · omega
    · exact absurd hs (hno c hc)
  | write ho hc hs => exact inv_own hw ((h.up _ ho).create hc (by rw [hs]; nofun) nofun nofun)
  | syncFile ho hc hs =>
    have hu : w.Up (Owner.create _ _ .synced) :=
      (h.up _ ho).create hc (by rw [hs]; nofun) nofun nofun
    exact inv_of_up (hw.mono rfl (fun _ => List.Subset.refl _) fun _ hi => Or.inl hi) rfl
      ⟨hu.top, hu.below, hu.creating, hu.archiving, hu.rejected, hu.doomed⟩
  | @syncDirectory o c ho hc hs =>
    have hseen := ((h.up _ ho).creating c hc).2.2.2.2.2 (by rw [hs]; nofun)
    exact inv_own (hw.syncLive _) (((h.up _ ho).syncLive hw _).create hc (by rw [hs]; nofun) nofun
      fun _ => mem_kept_syncLive hseen)
  | finish ho hc hs => exact inv_own hw ((h.up _ ho).finish hc hs)
  | refuse ho => exact inv_own hw (h.up _ ho).refuse
  | reclaim image ho hn => exact inv_own hw ((h.up _ ho).doom (Or.inl hn))
  | collect ho _ hn => exact inv_own hw ((h.up _ ho).doom (Or.inl hn))
  | @archive o p n e ho ha he hn hle hr =>
    have hu := h.up _ ho
    have hkept : rejected ∈ (w.kept p).1 := by
      rcases hu.rejected p hr with hr | ⟨m, hm⟩
      · exact hr
      · rw [ha] at hm
        cases hm
    refine inv_own hw (hu.archive (hw.candidate he hn).1 hle (hw.candidate he hn).2 hkept nofun ?_)
    intro q m hm
    rw [ha] at hm
    cases hm
  | makeRejected ho ha he hn hle _ =>
    exact inv_own (hw.made _)
      ((h.up _ ho).made ha (hw.candidate he hn).1 hle (hw.candidate he hn).2 _)
  | @syncRejected o p n ho ha =>
    have hu := (h.up _ ho).syncLive hw p
    obtain ⟨h1, h2, h3, h4, -, -⟩ := (h.up _ ho).archiving _ ha
    obtain ⟨e, he, hr⟩ := mem_map.1 h4
    refine inv_own (hw.syncLive p) (hu.archive h1 h2 h3
      (mem_map.2 ⟨e, mem_kept_syncLive he, hr⟩) nofun ?_)
    intro q m hm
    rw [ha] at hm
    cases hm
    rfl
  | @openArchive o p n offset attempt ho ha hnew =>
    obtain ⟨h1, h2, h3, h4, h5, -⟩ := (h.up _ ho).archiving _ ha
    have hu := (h.up _ ho).setArchives (p := p)
      (d := (w.archives p).create (archiveName n offset attempt))
      (subset_cons_self ..) (List.Subset.refl _)
    refine inv_own (hw.setArchives p _) (hu.archive h1 h2 h3 (h5 nofun) ?_ ?_)
    · intro _
      refine ⟨_, ?_, number_archiveName h1 h3 offset attempt⟩
      show _ ∈ ((w.setArchives p _).archives p).seen
      rw [setArchives_archives, if_pos rfl]
      exact mem_cons_self
    · intro q m hm
      rw [ha] at hm
      cases hm
  | @syncArchive o p n ho ha =>
    have hu := (h.up _ ho).setArchives (p := p) (d := (w.archives p).sync) (List.Subset.refl _)
      (w.archives p).kept_seen
    refine inv_own (hw.setArchives p _) (hu.archived ha ?_)
    rw [setArchives_archives, if_pos rfl]
    exact List.Subset.refl _
  | unlink ho hd => exact inv_of_up (hw.unlinked _ _) ho ((h.up _ ho).unlink hw hd)
  | sync p ho => exact inv_of_up (hw.syncLive p) ho ((h.up _ ho).syncLive hw p)
  | kill =>
    refine ⟨hw.mono rfl (fun _ => List.Subset.refl _) fun _ hi => Or.inl hi, fun _ => ?_, nofun⟩
    exact ⟨h.toDown.seen, h.toDown.kept⟩
  | lose hs _ ht _ =>
    exact ⟨hw.lost hs, fun _ => h.toDown.lost hw hs ht, nofun⟩

theorem World.inv_init : (World.init k).Inv := by
  refine ⟨⟨nofun, nofun, nofun, ?_⟩, fun _ => ⟨?_, nofun⟩, nofun⟩
  · rintro i j a b - - - ⟨⟩
  · rintro i a - ⟨⟩

theorem Reachable.inv {w : World k} (h : Reachable World.Settled w) : w.Inv := by
  induction h with
  | init => exact World.inv_init
  | step _ hq hstep ih => exact hstep.inv ih hq

section Allocate

variable {Q : World k → Prop} {w w' : World k} {o : Owner k} {n : Nat} {p : Place k}

theorem Reachable.next (h : Reachable Q w) (ho : w.owner.isSome) (hs : Step w w') :
    Reachable Q w' :=
  h.step (fun hn => by simp [hn] at ho) hs

/-- What a successful `Tickets::allocate` leaves. -/
def World.allocated (w : World k) (o : Owner k) (p : Place k) (n : Nat) : World k :=
  let c : Creating k := ⟨p, n, w.created.length, .synced⟩
  let w' := (w.opened c).syncLive p
  { w'.own { o with status := ⟨n, false⟩, creating := none } with headers := c.file :: w.headers }

theorem Reachable.allocate (h : Reachable Q w) (ho : w.owner = some o)
    (hn : o.status.next = .ok n) (hnew : ∀ e ∈ (w.live p).seen, e.name ≠ name n) :
    Reachable Q (w.allocated o p n) := by
  have h1 := h.next (by rw [ho]; rfl) (.take p ho hn)
  have h2 := h1.next rfl (.openNew rfl rfl rfl hnew)
  have h3 := h2.next rfl (.write rfl rfl rfl)
  have h4 := h3.next rfl (.syncFile rfl rfl rfl)
  have h5 := h4.next rfl (.syncDirectory rfl rfl rfl)
  have h6 := h5.next rfl (.finish rfl rfl rfl)
  exact h6

end Allocate

theorem forall_place_one {P : Place 1 → Prop} (hc : P .chunks) (hs : P (.staging 0)) (p : Place 1) :
    P p := by
  cases p with
  | chunks => exact hc
  | staging i => exact Subsingleton.elim 0 i ▸ hs

/-- As long as a restart finds durable names only, a ticket is never handed out twice. -/
theorem Reachable.increasing {w : World k} (h : Reachable World.Settled w) : w.Increasing := by
  intro i j a b hij hi hj ha hb
  exact h.inv.wf.order i j a b hij (Or.inl hi.2) (Or.inl hj.2) ha hb

/-- The image's first segment and a chunk segment, with a power loss and a restart after them. -/
theorem Reachable.increasing_restarted :
    ∃ w : World 1, Reachable World.Settled w ∧ w.created = [1, 2, 3] ∧ w.entries.length = 6 ∧
      w.Increasing := by
  have h0 : Reachable World.Settled (World.init 1) := .init
  have h1 := h0.step (fun _ _ => fun p => ⟨List.Subset.refl _, List.Subset.refl _⟩)
    (@Step.scan 1 _ ⟨0, false⟩ rfl (by decide))
  have h2 := h1.allocate (p := .staging 0) (n := 1) rfl rfl nofun
  have h3 := h2.allocate (p := .chunks) (n := 2) rfl rfl nofun
  have h4 := h3.next rfl (@Step.lose 1 _ _ _ [] (fun p => Durable.survives_seen _)
    (forall_place_one (by decide) (by decide)) (fun p => Durable.survives_seen _) nofun)
  have h5 := h4.step (fun _ _ => fun p => ⟨List.Subset.refl _, List.Subset.refl _⟩)
    (@Step.scan 1 _ ⟨2, false⟩ rfl (by decide))
  have h6 := h5.allocate (p := .staging 0) (n := 3) rfl rfl (by decide)
  exact ⟨_, h6, rfl, by decide, h6.increasing⟩

/-- The owner dies while it creates the third segment, after the header is written and before the
directory is synced. The next owner sees the name, so collection may remove the dead chunk segment
with ticket 2. When a power loss then takes the unsynced name, ticket 2 is handed out again. -/
theorem Reachable.reuses_ticket :
    ∃ w : World 1, Reachable (fun _ => True) w ∧ w.created = [1, 2, 3, 2] ∧ w.Lasting 1 ∧
      w.Lasting 3 ∧ ¬ w.Increasing := by
  have h0 : Reachable (fun _ => True) (World.init 1) := .init
  have h1 := h0.step (fun _ _ => trivial) (@Step.scan 1 _ ⟨0, false⟩ rfl (by decide))
  have h2 := h1.allocate (p := .staging 0) (n := 1) rfl rfl nofun
  have h3 := h2.allocate (p := .chunks) (n := 2) rfl rfl nofun
  have h4 := h3.next rfl (.take (.staging 0) rfl rfl)
  have h5 := h4.next rfl (.openNew rfl rfl rfl (by decide))
  have h6 := h5.next rfl (.write rfl rfl rfl)
  have h7 := h6.next rfl .kill
  have h8 := h7.step (fun _ _ => trivial) (@Step.scan 1 _ ⟨3, false⟩ rfl (by decide))
  have h9 := h8.next rfl (.collect (n := 2) rfl rfl (by decide))
  have h10 := h9.next rfl (.unlink (p := .chunks) (n := 2) rfl (by decide))
  have h11 := h10.next rfl (.sync .chunks rfl)
  have h12 := h11.next rfl (@Step.lose 1 _
    (fun p => if p = .chunks then [] else [⟨name 1, some 0⟩]) (fun _ => []) []
    (forall_place_one (by decide) (by decide))
    (forall_place_one (by decide) (by decide))
    (forall_place_one (by decide) (by decide)) nofun)
  have h13 := h12.step (fun _ _ => trivial) (@Step.scan 1 _ ⟨1, false⟩ rfl (by decide))
  have h14 := h13.allocate (p := .chunks) (n := 2) rfl rfl nofun
  exact ⟨_, h14, rfl, ⟨by decide, by decide⟩, ⟨by decide, by decide⟩,
    fun h => absurd (h 1 3 2 2 (by decide) ⟨by decide, by decide⟩ ⟨by decide, by decide⟩ rfl rfl)
      (by decide)⟩

end Cas.Tickets
