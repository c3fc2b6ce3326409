import Cas.Daemon.Request
import Cas.Lib.Precedence

/-!
# Discovered requests (`daemon/src/backend/frontier.rs`)

The backend owns the descriptors of a request before storage admits it. Every queue holds the
requests discovered on it; only reads may pass the head of their queue, and nothing passes an older
request it conflicts with. `Backend` is the frontier with the history of its discoveries and
admissions; what storage answers to an admission attempt is left open.
-/

namespace Cas.Daemon

open List

open Precedence (History Respects)

abbrev CONCURRENT_QUEUES : Nat := 4
abbrev CONCURRENT_QUEUE_SIZE : Nat := 256

structure Discovered where
  request : Request
  available : Nat
  order : Nat
  deriving DecidableEq

structure Frontier where
  queues : Fin CONCURRENT_QUEUES → List Discovered
  nextOrder : Nat
  bypassed : Nat

/-- Additions wrap: the ranges are those of parsed requests, see `conflicts_iff`. -/
def conflicts (older later : Inflight.Request) : Bool :=
  if older.kind = .flush ∨ older.kind = .protocol ∨ later.kind = .flush ∨ later.kind = .protocol then
    true
  else if older.length = 0 ∨ later.length = 0 ∨ (older.kind = .read ∧ later.kind = .read) then false
  else older.offset < (later.offset + later.length) % U64 ∧
    later.offset < (older.offset + older.length) % U64

namespace Frontier

def new : Frontier := ⟨fun _ => [], 0, 0⟩

def isEmpty (f : Frontier) : Bool := (List.finRange CONCURRENT_QUEUES).all fun q => (f.queues q).isEmpty

/-- The requests of all queues. -/
def waiting (f : Frontier) : List Discovered := (List.finRange CONCURRENT_QUEUES).flatMap f.queues

def restore (f : Frontier) (queue : Fin CONCURRENT_QUEUES) (d : Discovered) : Except IoError Frontier :=
  if (f.queues queue).length = CONCURRENT_QUEUE_SIZE then
    .error ⟨.other, "discovered queue exceeds capacity"⟩
  else .ok { f with
    queues := Function.update f.queues queue (f.queues queue ++ [d])
    nextOrder := max f.nextOrder d.order }

/-- All comparisons use the order in which this frontend observed headers. -/
def eligible (f : Frontier) (queue : Fin CONCURRENT_QUEUES) (index : Nat) : Bool :=
  match (f.queues queue)[index]? with
  | none => false
  | some candidate =>
    if index ≠ 0 ∧ ¬ candidate.request.isRead then false
    else (f.waiting.filter fun older => older.order < candidate.order).all fun older =>
      !conflicts (older.request.inflight 0 0) (candidate.request.inflight queue candidate.available)

/-- `remove`, and the count of the reads that passed a head. -/
def remove (f : Frontier) (queue : Fin CONCURRENT_QUEUES) (candidate : Nat) : Frontier :=
  { f with
    queues := Function.update f.queues queue ((f.queues queue).eraseIdx candidate)
    bypassed := if candidate ≠ 0 then f.bypassed + 1 else f.bypassed }

end Frontier

/-- A request with the queue it was discovered on. -/
abbrev Entry := Fin CONCURRENT_QUEUES × Discovered

/-- The frontier, with the discoveries and the admissions so far. -/
structure Backend where
  frontier : Frontier
  history : History Entry

/-- The answer of `prepare_admission`. -/
inductive Admission
  | accepted
  | waiting
  deriving DecidableEq

/-- A chain found on the ring: its decoded request, the cursor behind it and what the carrier, if
there is one, answers to its discovery. -/
structure NextChain where
  decoded : Except IoError Request
  nextAvail : Nat
  carrier : Option (Except IoError Nat)

/-- A carrier that is attached counts discoveries too. -/
def NextChain.checkCarrier (next : NextChain) (order : Nat) : Except IoError Unit :=
  match next.carrier with
  | none => .ok ()
  | some answer => do
    let discovery ← answer
    Except.ensure (discovery = order) ⟨.other, "discovery order differs from carrier"⟩

/-- A call of `progress_queue` and everything it reads from its surroundings. `ring` are the answers
of `peek`; `attempt round candidate` and `accept round` are those of storage. -/
structure Visit where
  queue : Fin CONCURRENT_QUEUES
  blocked : Bool
  ready : Bool
  queueSize : Nat
  features : Nat
  discover : Bool
  ring : List (Except IoError NextChain)
  attempt : Nat → Nat → Except IoError Admission
  accept : Nat → Except IoError Unit

namespace Backend

/-- One pass of the discovery loop. -/
def discoverNext (b : Backend) (v : Visit) (next : NextChain) : Except IoError Backend := do
  let request ← next.decoded
  let request := request.negotiated v.features
  let some order := checkedAdd b.frontier.nextOrder 1
    | .error ⟨.other, "discovery IDs exhausted"⟩
  next.checkCarrier order
  let d := ⟨request, (next.nextAvail + 65535) % 65536, order⟩
  let frontier ← b.frontier.restore v.queue d
  .ok ⟨frontier, ⟨b.history.seen ++ [(v.queue, d)], b.history.released⟩⟩

/-- One ring's worth per visit, including malformed and immediate requests. -/
def discoverAll (v : Visit) : (rounds : Nat) → List (Except IoError NextChain) → Backend →
    Backend × Except IoError Unit
  | 0, _, b => (b, .ok ())
  | _ + 1, [], b => (b, .ok ())
  | n + 1, peeked :: ring, b =>
    if (b.frontier.queues v.queue).length = v.queueSize then (b, .ok ())
    else match peeked.bind (b.discoverNext v) with
      | .error e => (b, .error e)
      | .ok b' => discoverAll v n ring b'

/-- The first candidate that is eligible and accepted. One read candidate that waits ends the scan. -/
def select (f : Frontier) (queue : Fin CONCURRENT_QUEUES) (attempt : Nat → Except IoError Admission) :
    (candidates : List Nat) → Except IoError (Option Nat)
  | [] => .ok none
  | i :: candidates =>
    if ¬ f.eligible queue i then select f queue attempt candidates
    else match attempt i with
      | .error e => .error e
      | .ok .accepted => .ok (some i)
      | .ok .waiting =>
        if ((f.queues queue)[i]?.any fun d => d.request.isRead) then .ok none
        else select f queue attempt candidates

/-- The candidate leaves the frontier for `accept`. -/
def admitAt (b : Backend) (queue : Fin CONCURRENT_QUEUES) (candidate : Nat) : Backend :=
  ⟨b.frontier.remove queue candidate, b.history.seen,
    b.history.released ++ ((b.frontier.queues queue)[candidate]?.map (queue, ·)).toList⟩

def admitAll (v : Visit) : (rounds : Nat) → Backend → Backend × Except IoError Unit
  | 0, b => (b, .ok ())
  | n + 1, b =>
    if (b.frontier.queues v.queue).isEmpty then (b, .ok ())
    else match select b.frontier v.queue (v.attempt n)
        (List.range (b.frontier.queues v.queue).length) with
      | .error e => (b, .error e)
      | .ok none => (b, .ok ())
      | .ok (some candidate) =>
        match v.accept n with
        | .error e => (b.admitAt v.queue candidate, .error e)
        | .ok () => admitAll v n (b.admitAt v.queue candidate)

def progressQueue (b : Backend) (v : Visit) : Backend × Except IoError Unit :=
  if v.blocked ∨ ¬ v.ready then (b, .ok ())
  else
    let (b, discovered) := if v.discover then discoverAll v v.queueSize v.ring b else (b, .ok ())
    match discovered with
    | .error e => (b, .error e)
    | .ok () => admitAll v v.queueSize b

/-- The discovered requests a recovered carrier hands back, in its order. -/
def replay (b : Backend) : List Entry → Except IoError Backend
  | [] => .ok b
  | (queue, d) :: rest => do
    let frontier ← b.frontier.restore queue d
    replay ⟨frontier, ⟨b.history.seen ++ [(queue, d)], b.history.released⟩⟩ rest

/-- A backend attaches with nothing waiting, or with what its carrier retained: the carrier sorts
the retained discoveries and rejects one that occurs twice. -/
inductive Starts : Backend → Prop
  | fresh {f : Frontier} (h : f.isEmpty) : Starts ⟨{ f with nextOrder := 0 }, [], []⟩
  | recovered {highest : Nat} {entries : List Entry} {b : Backend}
      (hs : entries.Pairwise fun e e' => e.2.order < e'.2.order)
      (h : replay ⟨{ Frontier.new with nextOrder := highest }, [], []⟩ entries = .ok b) : Starts b

/-- Any visits of the queues, whatever they discover and whatever storage answers. -/
inductive Reachable : Backend → Prop
  | start {b : Backend} (h : Starts b) : Reachable b
  | visit {b : Backend} (h : Reachable b) (v : Visit) : Reachable (b.progressQueue v).1

end Backend

/-! ### Conflicts -/

namespace Request

/-- FLUSH and protocol requests. -/
def IsBarrier (r : Request) : Prop := r.span.1 = .flush ∨ r.span.1 = .protocol

/-- The image byte lies in the request's range. -/
def Covers (r : Request) (byte : Nat) : Prop := r.span.2.1 ≤ byte ∧ byte < r.span.2.1 + r.span.2.2

/-- A nonempty WRITE, ZERO or DISCARD. -/
def Mutates (r : Request) : Prop := (r.inflight 0 0).mutates

/-- Two requests whose order a guest can observe. -/
def Ordered (a b : Request) : Prop :=
  a.IsBarrier ∨ b.IsBarrier ∨ (∃ byte, a.Covers byte ∧ b.Covers byte) ∧ (a.Mutates ∨ b.Mutates)

end Request

/-- Ranges overlap exactly when neither is empty and each starts before the other ends. -/
theorem Request.overlap_iff {a b : Request} :
    (∃ byte, a.Covers byte ∧ b.Covers byte) ↔
      a.span.2.2 ≠ 0 ∧ b.span.2.2 ≠ 0 ∧ a.span.2.1 < b.span.2.1 + b.span.2.2 ∧
        b.span.2.1 < a.span.2.1 + a.span.2.2 := by
  unfold Covers
  constructor
  · rintro ⟨byte, ha, hb⟩
    omega
  · rintro ⟨ha, hb, hab, hba⟩
    exact ⟨max a.span.2.1 b.span.2.1, by omega, by omega⟩

/-- A request with a nonempty range that is no barrier mutates unless it reads. -/
theorem Request.mutates_iff {a : Request} (hb : ¬ a.IsBarrier) (hn : a.span.2.2 ≠ 0) :
    a.Mutates ↔ a.span.1 ≠ .read := by
  have hm : a.Mutates ↔ (a.span.1 = .write ∨ a.span.1.isZero = true) ∧ a.span.2.2 ≠ 0 :=
    decide_eq_true_iff
  rw [hm]
  unfold IsBarrier at hb
  generalize a.span.1 = kind at hb ⊢
  cases kind <;> simp_all [Inflight.Kind.isZero]

/-- On parsed requests the comparisons of `conflicts` do not overflow. -/
theorem conflicts_iff {a b : Request} {q i q' i' : Nat} :
    conflicts (a.inflight q i) (b.inflight q' i') = true ↔ a.Ordered b := by
  have ha := a.span_fits
  have hb := b.span_fits
  unfold conflicts Request.Ordered
  simp only [Request.inflight_kind, Request.inflight_offset, Request.inflight_length,
    Nat.mod_eq_of_lt ha, Nat.mod_eq_of_lt hb]
  by_cases hbar : a.IsBarrier ∨ b.IsBarrier
  · rw [if_pos (by unfold Request.IsBarrier at hbar; tauto)]
    exact ⟨fun _ => by tauto, fun _ => rfl⟩
  · rw [if_neg (by unfold Request.IsBarrier at hbar; tauto)]
    obtain ⟨hna, hnb⟩ := not_or.1 hbar
    simp only [hna, hnb, false_or, Request.overlap_iff]
    by_cases hlen : a.span.2.2 = 0 ∨ b.span.2.2 = 0
    · rw [if_pos (by tauto)]
      exact ⟨(nomatch ·), fun h => by tauto⟩
    · obtain ⟨hla, hlb⟩ := not_or.1 hlen
      rw [Request.mutates_iff hna hla, Request.mutates_iff hnb hlb]
      split
      · rename_i h
        exact ⟨(nomatch ·), fun h' => by tauto⟩
      · rename_i h
        rw [decide_eq_true_eq]
        tauto

/-! ### The frontier against its history -/

/-- `b` may not be admitted before the older `a`: their order is observable, or `b` is no read and
shares the queue of `a`. -/
def Entry.Before (a b : Entry) : Prop :=
  a.2.request.Ordered b.2.request ∨ a.1 = b.1 ∧ b.2.request.isRead = false

namespace Frontier

variable {f : Frontier} {q : Fin CONCURRENT_QUEUES} {i : Nat}

theorem mem_waiting {d : Discovered} : d ∈ f.waiting ↔ ∃ q, d ∈ f.queues q := by
  simp [waiting]

theorem isEmpty_iff : f.isEmpty = true ↔ ∀ q, f.queues q = [] := by
  simp [isEmpty]

theorem restore_eq_ok {d : Discovered} {f' : Frontier} (h : f.restore q d = .ok f') :
    f'.queues = Function.update f.queues q (f.queues q ++ [d]) ∧
      f'.nextOrder = max f.nextOrder d.order := by
  unfold restore at h
  obtain ⟨-, h⟩ := Except.ite_error_eq_ok.1 h
  cases h
  exact ⟨rfl, rfl⟩

/-- An eligible request has no conflict with an older one, and heads its queue unless it reads. -/
theorem eligible_iff :
    f.eligible q i = true ↔ ∃ d, (f.queues q)[i]? = some d ∧ (i = 0 ∨ d.request.isRead = true) ∧
      ∀ q', ∀ d' ∈ f.queues q', d'.order < d.order → ¬ d'.request.Ordered d.request := by
  unfold eligible
  cases hd : (f.queues q)[i]? with
  | none => simp
  | some d =>
    simp only [Option.some.injEq, exists_eq_left']
    split
    · rename_i h
      simp only [Bool.false_eq_true, false_iff]
      tauto
    · rename_i h
      simp only [all_eq_true, mem_filter, mem_waiting, decide_eq_true_eq, and_imp,
        Bool.not_eq_true', ← Bool.not_eq_true, conflicts_iff]
      exact ⟨fun hc => ⟨by tauto, fun q' d' hd' ho => hc d' ⟨q', hd'⟩ ho⟩,
        fun ⟨_, hc⟩ d' ⟨q', hd'⟩ ho => hc q' d' hd' ho⟩

end Frontier

namespace Backend

/-- What every visit keeps. -/
structure Holds (b : Backend) : Prop where
  respects : Respects Entry.Before b.history
  increasing : b.history.seen.Pairwise fun e e' => e.2.order < e'.2.order
  bound : ∀ e ∈ b.history.seen, e.2.order ≤ b.frontier.nextOrder
  sorted : ∀ q, (b.frontier.queues q).Pairwise fun d d' => d.order < d'.order
  mem : ∀ q d, d ∈ b.frontier.queues q ↔ (q, d) ∈ b.history.seen ∧ (q, d) ∉ b.history.released

namespace Holds

variable {b : Backend}

theorem empty {f : Frontier} (h : ∀ q, f.queues q = []) : Holds ⟨f, [], []⟩ where
  respects := .nil
  increasing := List.Pairwise.nil
  bound := by simp
  sorted q := by rw [h q]; exact List.Pairwise.nil
  mem q d := by simp [h q]

/-- A discovery after all others keeps the frontier sorted. -/
theorem discovered (hb : b.Holds) {q : Fin CONCURRENT_QUEUES} {d : Discovered} {f : Frontier}
    (hnew : ∀ e ∈ b.history.seen, e.2.order < d.order) (h : b.frontier.restore q d = .ok f) :
    Holds ⟨f, b.history.seen ++ [(q, d)], b.history.released⟩ := by
  obtain ⟨hq, hn⟩ := Frontier.restore_eq_ok h
  have hfresh : ∀ q', (q', d) ∉ b.history.seen := fun q' hm => lt_irrefl _ (hnew _ hm)
  refine ⟨hb.respects.see (hfresh q), ?_, ?_, ?_, ?_⟩
  · refine pairwise_append.2 ⟨hb.increasing, pairwise_singleton _ _, ?_⟩
    simpa using fun q' d' hm => hnew (q', d') hm
  · intro e he
    rcases mem_append.1 he with he | he
    · exact (hb.bound e he).trans (hn ▸ le_max_left _ _)
    · rw [mem_singleton.1 he, hn]
      exact le_max_right _ _
  · intro q'
    rw [hq]
    rcases eq_or_ne q' q with rfl | hne
    · rw [Function.update_self]
      refine pairwise_append.2 ⟨hb.sorted q', pairwise_singleton _ _, ?_⟩
      simpa using fun d' hd' => hnew (q', d') ((hb.mem q' d').1 hd').1
    · rw [Function.update_of_ne hne]
      exact hb.sorted q'
  · intro q' d'
    rw [hq]
    rcases eq_or_ne q' q with rfl | hne
    · have := hb.respects.released_subset
      rw [Function.update_self, mem_append, hb.mem, mem_singleton, mem_append,
        mem_singleton]
      constructor
      · rintro (⟨hs, hr⟩ | rfl)
        · exact ⟨.inl hs, hr⟩
        · exact ⟨.inr rfl, fun hr => hfresh q' (this hr)⟩
      · rintro ⟨hs | hs, hr⟩
        · exact .inl ⟨hs, hr⟩
        · exact .inr (Prod.mk.inj hs).2
    · rw [Function.update_of_ne hne, hb.mem]
      simp [hne]

/-- Older entries of the history that wait stand in the frontier with a smaller order. -/
theorem older (hb : b.Holds) {x y : Entry} (hs : [y, x].Sublist b.history.seen) :
    y.2.order < x.2.order := by
  simpa using hb.increasing.sublist hs

/-- Admitting an eligible candidate respects the precedence of requests. -/
theorem admitted (hb : b.Holds) {q : Fin CONCURRENT_QUEUES} {i : Nat}
    (h : b.frontier.eligible q i = true) : (b.admitAt q i).Holds := by
  obtain ⟨d, hd, hread, hconf⟩ := Frontier.eligible_iff.1 h
  obtain ⟨hi, hget⟩ := List.getElem?_eq_some_iff.1 hd
  have hmem : d ∈ b.frontier.queues q := List.mem_of_getElem? hd
  obtain ⟨hseen, hrel⟩ := (hb.mem q d).1 hmem
  have hhist : (b.admitAt q i).history = ⟨b.history.seen, b.history.released ++ [(q, d)]⟩ := by
    simp [admitAt, hd]
  refine ⟨?_, by rw [hhist]; exact hb.increasing, by rw [hhist]; exact hb.bound, ?_, ?_⟩
  · rw [hhist]
    refine hb.respects.release hseen hrel fun y hs hy => by_contra fun hny => ?_
    have hlt : y.2.order < d.order := hb.older hs
    have hw : y.2 ∈ b.frontier.queues y.1 := (hb.mem _ _).2 ⟨hs.subset (by simp), hny⟩
    rcases hy with hy | ⟨hqueue, hnr⟩
    · exact hconf _ _ hw hlt hy
    · -- a request that is no read is the head, the oldest of its queue
      have hi0 : i = 0 := hread.resolve_right (by simp [hnr])
      subst hi0
      have hw' : y.2 ∈ b.frontier.queues q := by rwa [show y.1 = q from hqueue] at hw
      have hsorted := hb.sorted q
      cases hl : b.frontier.queues q with
      | nil => rw [hl] at hw'; cases hw'
      | cons head tail =>
        rw [hl] at hd hw' hsorted
        obtain rfl : head = d := by simpa using hd
        rcases List.mem_cons.1 hw' with he | he
        · rw [he] at hlt
          exact lt_irrefl _ hlt
        · exact lt_asymm hlt ((List.pairwise_cons.1 hsorted).1 _ he)
  · intro q'
    rcases eq_or_ne q' q with rfl | hne
    · simpa [admitAt, Frontier.remove] using (hb.sorted q').sublist (List.eraseIdx_sublist _ _)
    · simpa [admitAt, Frontier.remove, hne] using hb.sorted q'
  · intro q' d'
    rw [hhist]
    rcases eq_or_ne q' q with rfl | hne
    · have hnodup : (b.frontier.queues q').Nodup :=
        (hb.sorted q').imp fun hlt => by rintro rfl; exact lt_irrefl _ hlt
      have : d' ∈ (b.frontier.queues q').eraseIdx i ↔ d' ∈ b.frontier.queues q' ∧ d' ≠ d := by
        rw [← hnodup.erase_getElem i hi, hnodup.mem_erase_iff, hget, and_comm]
      simp only [admitAt, Frontier.remove, Function.update_self, this, hb.mem]
      simp only [List.mem_append, List.mem_singleton, Prod.mk.injEq, true_and]
      tauto
    · simp only [admitAt, Frontier.remove, Function.update_of_ne hne, hb.mem]
      simp [hne]

end Holds

variable {b b' : Backend} {v : Visit}

theorem discoverNext_holds (hb : b.Holds) {next : NextChain} (h : b.discoverNext v next = .ok b') :
    b'.Holds := by
  unfold discoverNext at h
  obtain ⟨request, -, h⟩ := Except.bind_eq_ok.1 h
  cases ho : checkedAdd b.frontier.nextOrder 1 with
  | none => simp [ho] at h
  | some order =>
    have horder : b.frontier.nextOrder < order := by
      rw [← (checkedAdd_eq_some.1 ho).1]
      exact Nat.lt_succ_self _
    simp only [ho] at h
    obtain ⟨-, -, h⟩ := Except.bind_eq_ok.1 h
    obtain ⟨f, hf, h⟩ := Except.bind_eq_ok.1 h
    cases h
    exact hb.discovered (fun e he => (hb.bound e he).trans_lt horder) hf

theorem discoverAll_holds (hb : b.Holds) (n : Nat) (ring : List (Except IoError NextChain)) :
    (discoverAll v n ring b).1.Holds := by
  induction n generalizing ring b with
  | zero => exact hb
  | succ n ih =>
    cases ring with
    | nil => exact hb
    | cons peeked ring =>
      unfold discoverAll
      split
      · exact hb
      · cases peeked with
        | error e => exact hb
        | ok next =>
          cases hd : b.discoverNext v next with
          | error e => simpa [Except.bind, hd] using hb
          | ok b' => simpa [Except.bind, hd] using ih (discoverNext_holds hb hd) ring

theorem select_eligible {f : Frontier} {q : Fin CONCURRENT_QUEUES}
    {attempt : Nat → Except IoError Admission} {candidates : List Nat} {i : Nat}
    (h : select f q attempt candidates = .ok (some i)) : f.eligible q i = true := by
  induction candidates with
  | nil => cases h
  | cons j candidates ih =>
    unfold select at h
    split at h
    · exact ih h
    · rename_i he
      split at h
      · cases h
      · cases h
        simpa using he
      · split at h
        · cases h
        · exact ih h

theorem admitAll_holds (hb : b.Holds) (n : Nat) : (admitAll v n b).1.Holds := by
  induction n generalizing b with
  | zero => exact hb
  | succ n ih =>
    unfold admitAll
    split
    · exact hb
    · split
      · exact hb
      · exact hb
      · rename_i hs
        have hadmitted := hb.admitted (select_eligible hs)
        split
        · exact hadmitted
        · exact ih hadmitted

/-- A visit keeps the invariant, whether it succeeds or fails. -/
theorem progressQueue_holds (hb : b.Holds) (v : Visit) : (b.progressQueue v).1.Holds := by
  unfold progressQueue
  split
  · exact hb
  · have hd : (if v.discover then discoverAll v v.queueSize v.ring b else (b, .ok ())).1.Holds := by
      split
      · exact discoverAll_holds hb _ _
      · exact hb
    revert hd
    generalize (if v.discover then discoverAll v v.queueSize v.ring b else (b, .ok ())) = r
    obtain ⟨b', discovered⟩ := r
    intro hd
    cases discovered with
    | error e => exact hd
    | ok _ => exact admitAll_holds hd _

theorem replay_holds {entries : List Entry} (hb : b.Holds)
    (hs : (b.history.seen ++ entries).Pairwise fun e e' => e.2.order < e'.2.order)
    (h : b.replay entries = .ok b') : b'.Holds := by
  induction entries generalizing b with
  | nil =>
    cases h
    exact hb
  | cons e entries ih =>
    obtain ⟨q, d⟩ := e
    obtain ⟨f, hf, h⟩ := Except.bind_eq_ok.1 h
    have hnew : ∀ e ∈ b.history.seen, e.2.order < d.order := fun e he =>
      (pairwise_append.1 hs).2.2 e he (q, d) mem_cons_self
    exact ih (hb.discovered hnew hf) (by simpa using hs) h

theorem Reachable.holds (h : b.Reachable) : b.Holds := by
  induction h with
  | start h =>
    cases h with
    | fresh h => exact .empty (Frontier.isEmpty_iff.1 h)
    | recovered hs h => exact replay_holds (.empty fun _ => rfl) (by simpa using hs) h
  | visit _ v ih => exact progressQueue_holds ih v

/-- The oldest request that waits heads its queue and is eligible. -/
theorem Holds.oldest (hb : b.Holds) {q : Fin CONCURRENT_QUEUES} {d : Discovered}
    (hd : d ∈ b.frontier.queues q)
    (hold : ∀ q', ∀ d' ∈ b.frontier.queues q', d.order ≤ d'.order) :
    (b.frontier.queues q).head? = some d ∧ b.frontier.eligible q 0 = true := by
  have hhead : (b.frontier.queues q).head? = some d := by
    have hsorted := hb.sorted q
    have hold' := hold q
    cases hl : b.frontier.queues q with
    | nil => rw [hl] at hd; cases hd
    | cons head tail =>
      rw [hl] at hd hsorted hold'
      rcases mem_cons.1 hd with rfl | hd
      · rfl
      · exact absurd ((pairwise_cons.1 hsorted).1 d hd) (not_lt.2 (hold' head mem_cons_self))
  refine ⟨hhead, Frontier.eligible_iff.2 ⟨d, by rw [← head?_eq_getElem?, hhead], .inl rfl, ?_⟩⟩
  intro q' d' hd' hlt
  exact absurd hlt (not_lt.2 (hold q' d' hd'))

/-- Requests whose order a guest can observe are admitted in the order of their discovery, only
reads pass an older request of their queue, and the oldest request that waits can always go next. -/
theorem Reachable.admits_in_order (h : b.Reachable) :
    b.history.seen.Pairwise (fun e e' => e.2.order < e'.2.order) ∧ b.history.released.Nodup ∧
    (∀ older later, [older, later].Sublist b.history.seen →
      older.2.request.Ordered later.2.request → later ∈ b.history.released →
      [older, later].Sublist b.history.released) ∧
    (∀ older later, [older, later].Sublist b.history.seen → older.1 = later.1 →
      later ∈ b.history.released → ¬ [older, later].Sublist b.history.released →
      later.2.request.isRead = true) ∧
    (b.frontier.isEmpty = true ↔ ∀ e ∈ b.history.seen, e ∈ b.history.released) ∧
    ∀ oldest ∈ b.history.seen, oldest ∉ b.history.released →
      (∀ e ∈ b.history.seen, e ∉ b.history.released → oldest.2.order ≤ e.2.order) →
      (b.frontier.queues oldest.1).head? = some oldest.2 ∧
        b.frontier.eligible oldest.1 0 = true := by
  have hb := h.holds
  refine ⟨hb.increasing, hb.respects.nodup_released, ?_, ?_, ?_, ?_⟩
  · intro older later hs ho hl
    exact hb.respects.pair_sublist hs (.inl ho) hl
  · intro older later hs hq hl hn
    by_contra hread
    exact hn (hb.respects.pair_sublist hs (.inr ⟨hq, by simpa using hread⟩) hl)
  · rw [Frontier.isEmpty_iff]
    constructor
    · intro he e hs
      by_contra hn
      have : e.2 ∈ b.frontier.queues e.1 := (hb.mem _ _).2 ⟨hs, hn⟩
      rw [he] at this
      cases this
    · intro hall q
      refine List.eq_nil_iff_forall_not_mem.2 fun d hd => ?_
      obtain ⟨hs, hn⟩ := (hb.mem q d).1 hd
      exact hn (hall _ hs)
  · intro oldest hs hn hold
    refine hb.oldest ((hb.mem _ _).2 ⟨hs, hn⟩) fun q' d' hd' => ?_
    obtain ⟨hs', hn'⟩ := (hb.mem q' d').1 hd'
    exact hold _ hs' hn'

/-- A write and a read of other blocks on queue 0; storage refuses the write and takes the read. -/
def passingRead : Visit where
  queue := 0
  blocked := false
  ready := true
  queueSize := 2
  features := 0
  discover := true
  ring := [.ok ⟨.ok (.write ⟨⟨0, 8192⟩, 0, [], 4096, by decide⟩), 1, none⟩,
    .ok ⟨.ok (.read ⟨⟨1, 8193⟩, 4096, [], 4096, by decide⟩), 2, none⟩]
  attempt _ candidate := .ok (if candidate = 0 then .waiting else .accepted)
  accept _ := .ok ()

/-- The read passes the write, which stays the oldest request and eligible. -/
theorem admits_in_order_passing_read :
    let b := ((⟨Frontier.new, [], []⟩ : Backend).progressQueue passingRead).1
    b.history.released.map (·.2.order) = [2] ∧ b.frontier.bypassed = 1 ∧
      b.frontier.eligible 0 0 = true := by
  intro b
  have hr : b.Reachable := .visit (.start (.fresh (f := Frontier.new) rfl)) passingRead
  refine ⟨by decide, by decide, ?_⟩
  exact (hr.admits_in_order.2.2.2.2.2
    (0, ⟨.write ⟨⟨0, 8192⟩, 0, [], 4096, by decide⟩, 0, 1⟩) (by decide) (by decide) (by decide)).2

end Backend

end Cas.Daemon
