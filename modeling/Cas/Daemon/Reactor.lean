import Cas.Encoding
import Cas.Lib.Effect
import Mathlib.Data.List.Sort

/-!
# The reactor of an image (`daemon/src/local/reactor.rs`)

The reactor owns every accepted storage request until it answers it: in its mailbox, in the command
and read queues, in an append batch, among the waiters of a fence. This is the program that moves
requests between these places, with its error paths. What the log, the read state machine, the
scheduler, the ring and other threads decide at each call is left to an environment that answers
questions.
-/

namespace Cas.Daemon

/-- `Io`: a read or a flush. -/
structure Io where
  id : Nat
  isRead : Bool
  boundary : Nat
  deriving DecidableEq, Repr

/-- `Command`; an append carries the requests of its batch. -/
inductive Command
  | append (writes : List Nat)
  | io (io : Io)
  | pause
  | newAttachment (rotated : Bool)
  | resume
  deriving DecidableEq, Repr

/-- The requests that a command carries. -/
def Command.ids : Command → List Nat
  | .append writes => writes
  | .io i => [i.id]
  | _ => []

/-- `Work`; a read that only waits for another reader's fetch is `waiting`. -/
inductive Work
  | append (writes : List Nat)
  | read (io : Io) (waiting : Bool)
  | fence (waiters : List Io) (syncing rollover : Bool)
  deriving DecidableEq, Repr

structure Pending where
  work : Work
  submitted : Bool
  ready : Bool
  cancelRequested : Bool
  deriving DecidableEq, Repr

namespace Pending

def dependency (p : Pending) : Bool :=
  match p.work with
  | .read _ waiting => waiting
  | _ => false

def inKernel (p : Pending) : Bool := p.submitted && !p.ready

def bulk (p : Pending) : Bool :=
  match p.work with
  | .append _ => true
  | .read _ waiting => !waiting
  | .fence .. => false

end Pending

/-- `Slots<Pending>`: the occupied slots with their tokens. -/
abbrev Slots := List (Nat × Pending)

namespace Slots

/-- The first token from `first` on whose slot is free. -/
def next (capacity : Nat) (slots : Slots) (first : Nat) : Option Nat :=
  (((List.range capacity).map (first + ·)).find? fun token =>
    slots.all fun e => e.1 % capacity ≠ token % capacity).filter fun token => token + 1 < U64

def lookup : Slots → Nat → Option Pending
  | [], _ => none
  | (t, p) :: l, token => if t = token then some p else lookup l token

def remove : Slots → Nat → Slots
  | [], _ => []
  | (t, p) :: l, token => if t = token then l else (t, p) :: remove l token

def update (f : Pending → Pending) : Slots → Nat → Slots
  | [], _ => []
  | (t, p) :: l, token => if t = token then (t, f p) :: l else (t, p) :: update f l token

end Slots

/-- Where the reactor looks at the gate that other threads may fail. -/
inductive Site
  | check
  | publish
  | sync
  | execute
  deriving DecidableEq, Repr

/-- What the reactor learns from the rest of the system. -/
inductive Question
  /-- Another thread has recorded a failure of the image or of the host. -/
  | failure (site : Site)
  | fault
  | ringFull
  | granted
  | publishFails
  | advanceFails
  | advanceDone
  | waits
  | completeSyncFails
  | readyToSyncFails
  | readyToSync
  | beforeSyncFails
  | controlExhausted
  | fenceRollover
  | fenceFails
  | rotateFails
  | quiescing
  | acknowledgeFails
  | coversFlush (boundary : Nat)
  | coversPublished
  | rotating
  | portPending
  | checkPending
  | checkRollover
  | checkFails
  | settled
  | appendFails
  | beyondFence (boundary : Nat)
  | isPublished (boundary : Nat)
  | planFails
  | allocationFails
  | prepareFails
  | readDone
  | wantsFence
  | wantsDrain
  | wantsRotation
  | idle
  | appended
  | closedDeadline
  | deadline
  | pollFails
  | windowFails
  | submitFails
  deriving DecidableEq, Repr

/-- The answer to each call, in the order in which the calls are made. -/
abbrev Environment := Nat → Question → Bool

/-- Which parts a reactor has. -/
structure Parts where
  capacity : Nat
  port : Bool
  window : Bool
  scheduler : Bool

structure Reactor where
  /-- Commands in the mailbox. -/
  input : List Command
  /-- The mailbox takes no more commands. -/
  disconnected : Bool
  commands : List Command
  reads : List Io
  pending : Slots
  bulk : List Nat
  appends : List Nat
  nextToken : Nat
  cohort : Option Nat
  closed : Bool
  failed : Bool
  admissionPaused : Bool
  /-- The gate's failure, as this reactor has seen it. -/
  failure : Bool
  /-- The completions sent, with their results. -/
  answered : List (Nat × Bool)
  /-- Requests whose owner was dropped without a completion. -/
  dropped : List Nat
  /-- The requests that entered the mailbox. -/
  accepted : List Nat
  calls : Nat
  deriving DecidableEq

namespace Reactor

/-- `Reactor::new`. -/
def new : Reactor where
  input := []
  disconnected := false
  commands := []
  reads := []
  pending := []
  bulk := []
  appends := []
  nextToken := 1
  cohort := none
  closed := false
  failed := false
  admissionPaused := false
  failure := false
  answered := []
  dropped := []
  accepted := []
  calls := 0

abbrev M := Effect Reactor String

open Effect

variable (env : Environment) (c : Parts)

def ask (q : Question) : M Bool := fun s =>
  (.ok (env s.calls q), { s with calls := s.calls + 1 })

/-- Lock the gate and look for a failure. -/
def gate (site : Site) : M Bool := fun s =>
  let failure := s.failure || env s.calls (.failure site)
  (.ok failure, { s with failure, calls := s.calls + 1 })

/-- Fail with a message if the environment says so. -/
def raiseIf (q : Question) (message : String) : M Unit := do
  if ← ask env q then raise message

/-- A branch without an alternative. -/
def onlyIf (b : Bool) (m : M Unit) : M Unit := if b then m else pure ()

def whenAsked (q : Question) (m : M Unit) : M Unit := do onlyIf (← ask env q) m

def whenHealthy (m : M Unit) : M Unit := do onlyIf (!(← get).failed) m

/-- An error here drops the requests `ids`. -/
def owning {α : Type} (ids : List Nat) (m : M α) : M α :=
  holding (fun s => { s with dropped := ids ++ s.dropped }) m

/-- `Worker::send`. -/
def send (id : Nat) (ok : Bool) : M Unit :=
  modify fun s => { s with answered := (id, ok) :: s.answered, failure := s.failure || !ok }

/-- `Worker::complete_writes`, and the completions of the waiters of a fence. -/
def sendAll (ids : List Nat) (ok : Bool) : M Unit := each (send · ok) ids

def fail : M Unit :=
  modify fun s => { s with failed := true, failure := true, appends := [] }

def reject : Work → M Unit
  | .append writes => sendAll writes false
  | .read io _ => send io.id false
  | .fence waiters _ _ => do
    modify fun s => { s with cohort := none }
    sendAll (waiters.map Io.id) false

def pushNow (token : Nat) : M Unit := do
  raiseIf env .ringFull "submission queue is full"
  modify fun s => { s with
    pending := s.pending.update (fun p => { p with submitted := true, ready := false }) token }

def push (token : Nat) : M Unit := do
  match (← get).pending.lookup token with
  | none => raise "owned IO before SQE"
  | some p =>
    if c.scheduler && p.bulk then
      modify fun s => { s with
        pending := s.pending.update (fun p => { p with submitted := false, ready := false }) token
        bulk := s.bulk ++ [token] }
    else pushNow env token

/-- Take the entry that a token owns out of its slot and answer its requests with an error. -/
def rejectAt (token : Nat) : M Unit := do
  match (← get).pending.lookup token with
  | none => return ()
  | some p =>
    modify fun s => { s with pending := s.pending.remove token }
    reject p.work

def submitBulk : List Nat → M Unit
  | [] => pure ()
  | token :: rest => do
    if ← ask env .granted then
      modify fun s => { s with bulk := rest }
      catching (pushNow env token) fun e => do
        fail
        rejectAt token
        raise e
      submitBulk rest

def enqueue (work : Work) : M (Option Nat) := do
  let s ← get
  match Slots.next c.capacity s.pending s.nextToken with
  | none =>
    fail
    reject work
    return none
  | some token =>
    modify fun s => { s with
      nextToken := token + 1
      pending := (token, ⟨work, false, true, false⟩) :: s.pending }
    catching (do push env c token; return some token) fun _ => do
      fail
      rejectAt token
      return none

/-- `receive`; a command to pause ends the loop of a healthy reactor. -/
def receive : List Command → Reactor → Reactor
  | [], s => { s with input := [], closed := s.closed || s.disconnected }
  | .io io :: rest, s =>
    if io.isRead then receive rest { s with reads := s.reads ++ [io] }
    else receive rest { s with commands := s.commands ++ [.io io] }
  | .pause :: rest, s =>
    if s.failed then receive rest { s with commands := s.commands ++ [.pause] }
    else { s with commands := s.commands ++ [.pause], input := rest }
  | command :: rest, s => receive rest { s with commands := s.commands ++ [command] }

/-- The result of a completed IO: all its bytes, fewer, or an error. -/
inductive Outcome
  | full
  | short
  | failed
  deriving DecidableEq

/-- `CANCEL_CQE`. -/
abbrev CANCEL_CQE : Nat := U64 - 1

def completeCqe (token : Nat) (outcome : Outcome) : M Unit := do
  if token = CANCEL_CQE then return ()
  match (← get).pending.lookup token with
  | none => raise "unknown local CQE"
  | some p =>
    if p.ready then raise "duplicate local CQE"
    modify fun s => { s with pending := s.pending.update (fun p => { p with ready := true }) token }
    if p.cancelRequested then return ()
    match outcome with
    | .full =>
      match p.work with
      | .append _ | .fence _ true _ => raiseIf env .fault "injected fault"
      | _ => return ()
    | _ => fail

def publish : Nat → M Unit
  | 0 => pure ()
  | n + 1 => do
    let s ← get
    match s.appends with
    | [] => return ()
    | token :: rest =>
      match s.pending.lookup token with
      | some ⟨.append writes, _, ready, _⟩ =>
        if !ready then return ()
        if ← gate env .publish then return ()
        -- the failure this records in the gate is the one `stop` records for the error
        raiseIf env .publishFails "append publication failed"
        modify fun s => { s with pending := s.pending.remove token, appends := rest }
        sendAll writes true
        publish n
      | _ => raise "ordered append owner"

def rotate : M Unit := raiseIf env .rotateFails "rotation failed"

/-- `fail_io`. -/
def failIo (io : Io) : M Unit := do
  fail
  send io.id false

/-- One entry of `finish_ready`. -/
def finishOne (token : Nat) : M Unit := do
  let s ← get
  match s.pending.lookup token with
  | none => return ()
  | some p =>
    modify fun s => { s with pending := s.pending.remove token }
    if s.failed then reject p.work
    else
      match p.work with
      | .append _ => modify fun s => { s with pending := (token, p) :: s.pending }
      | .read io _ =>
        if ← ask env .advanceFails then failIo io
        else if ← ask env .advanceDone then send io.id true
        else
          let waiting ← ask env .waits
          modify fun s => { s with pending := (token, { p with work := .read io waiting }) :: s.pending }
          push env c token
      | .fence waiters true rollover =>
        owning (waiters.map Io.id) do
          if ← gate env .sync then raise "image failed"
          raiseIf env .completeSyncFails "sync completion failed"
        modify fun s => { s with cohort := none }
        sendAll (waiters.map Io.id) true
        if rollover then rotate env
      | .fence waiters false rollover =>
        let sync ← owning (waiters.map Io.id) do
          raiseIf env .readyToSyncFails "fence is not next"
          let sync ← ask env .readyToSync
          if sync then raiseIf env .beforeSyncFails "injected fault"
          return sync
        if sync then
          modify fun s => { s with
            pending := (token, { p with work := .fence waiters true rollover }) :: s.pending }
          push env c token
        else modify fun s => { s with pending := (token, p) :: s.pending }

def finishReady : M Unit := do
  let ready := ((← get).pending.filter fun e => e.2.ready).map Prod.fst
  each (finishOne env c) (ready.insertionSort (· ≤ ·))

/-- The rest of `start_fence` once its record is prepared. -/
def enqueueFence (waiter : Option Io) (rollover : Bool) : M Unit := do
  let cohort ← enqueue env c (.fence waiter.toList false rollover)
  modify fun s => { s with cohort }

def startFence (waiter : Option Io) (rollover : Bool) : M Unit := do
  owning (waiter.toList.map Io.id) (raiseIf env .controlExhausted
    "internal fence control reserve exhausted")
  if ← ask env .fenceRollover then
    if c.port then
      modify fun s => { s with commands := waiter.toList.map .io ++ s.commands }
      rotate env
    else
      owning (waiter.toList.map Io.id) do
        rotate env
        raiseIf env .fenceFails "fence preparation failed"
      enqueueFence env c waiter rollover
  else
    owning (waiter.toList.map Io.id) (raiseIf env .fenceFails "fence preparation failed")
    enqueueFence env c waiter rollover

/-- `Worker::execute`. -/
def execute : Command → M Unit
  | .append writes => do
    let failed ← gate env .execute
    let appended ← ask env .appended
    sendAll writes (!failed && appended)
  | .io io => do
    let failed ← gate env .execute
    let done ← ask env .appended
    send io.id (!failed && done)
  | _ => return ()

def startRead (io : Io) : M Unit := do
  if ← ask env .planFails then failIo io
  else if ← ask env .allocationFails then failIo io
  else if ← ask env .prepareFails then failIo io
  else if ← ask env .readDone then send io.id true
  else
    let waiting ← ask env .waits
    let _ ← enqueue env c (.read io waiting)

/-- A flush joins the open fence if that covers its boundary. -/
def joinFence (token : Nat) (io : Io) (rest : List Command) : M Bool := do
  if ← ask env (.beyondFence io.boundary) then return false
  else
    match (← get).pending.lookup token with
    | none => raise "cohort owner"
    | some p =>
      match p.work with
      | .fence waiters syncing rollover =>
        modify fun s => { s with
          commands := rest
          pending := s.pending.update
            (fun p => { p with work := .fence (waiters ++ [io]) syncing rollover }) token }
        return true
      | _ => raise "cohort owner"

/-- Whether the worker is making a segment; then only finished prefixes are answered. -/
def rotating : M Bool := do
  return (← ask env .rotating) && c.port

def dispatchIo (io : Io) (rest : List Command) : M Bool := do
  if ← ask env (.coversFlush io.boundary) then
    modify fun s => { s with commands := rest }
    send io.id true
    return true
  else if ← rotating env c then return false
  else if (← get).admissionPaused then raise "IO during storage pause"
  else
    match (← get).cohort with
    | some token => joinFence env token io rest
    | none =>
      modify fun s => { s with commands := rest }
      startFence env c (some io) false
      return true

/-- A batch that the log has accepted. -/
def submitAppend (writes : List Nat) : M Unit := do
  owning writes (raiseIf env .appendFails "append preparation failed")
  match ← enqueue env c (.append writes) with
  | some token => modify fun s => { s with appends := s.appends ++ [token] }
  | none => return ()

def dispatchAppend (writes : List Nat) (rest : List Command) : M Bool := do
  if ← rotating env c then return false
  else if (← get).admissionPaused then raise "IO during storage pause"
  else if ← ask env .checkPending then return false
  else if ← ask env .checkRollover then
    if c.window then raise "admitted WRITE exceeded its WAL window"
    else
      if ← ask env .settled then rotate env else startFence env c none true
      return true
  else
    raiseIf env .checkFails "append check failed"
    modify fun s => { s with commands := rest }
    submitAppend env c writes
    return true

def dispatchPause (rest : List Command) : M Bool := do
  if ← rotating env c then return false
  else
    let s ← get
    let portPending ← ask env .portPending
    if !s.pending.isEmpty || !s.reads.isEmpty || (c.port && portPending) then return false
    else
      modify fun s => { s with admissionPaused := true, commands := rest }
      execute env .pause
      return false

def dispatchResume (rest : List Command) : M Bool := do
  if ← rotating env c then return false
  else
    modify fun s => { s with admissionPaused := false, commands := rest }
    return true

def dispatchAttachment (rotated : Bool) (rest : List Command) : M Bool := do
  if ← rotating env c then return false
  else
    let s ← get
    if !s.admissionPaused then raise "attachment requires storage pause"
    else if !s.pending.isEmpty || !s.reads.isEmpty then return false
    else if !(← ask env .coversPublished) then
      startFence env c none false
      return false
    else if !rotated then
      modify fun s => { s with commands := .newAttachment true :: rest }
      rotate env
      if !c.port then startFence env c none false
      return false
    else
      modify fun s => { s with commands := rest }
      execute env (.newAttachment rotated)
      return true

/-- One turn of the command loop of `dispatch`; whether the loop goes on. -/
def dispatchOne (rest : List Command) : Command → M Bool
  | .io io => dispatchIo env c io rest
  | .append writes => dispatchAppend env c writes rest
  | .pause => dispatchPause env c rest
  | .resume => dispatchResume env c rest
  | .newAttachment rotated => dispatchAttachment env c rotated rest

def dispatchCommands : Nat → M Unit
  | 0 => return ()
  | n + 1 => do
    match (← get).commands with
    | [] => return ()
    | command :: rest => if ← dispatchOne env c rest command then dispatchCommands n

/-- Start the reads whose boundary is published. -/
def dispatchReads : Nat → M Unit
  | 0 => return ()
  | n + 1 => do
    let s ← get
    match s.reads with
    | [] => return ()
    | io :: rest =>
      if s.failed then return ()
      if ← ask env (.isPublished io.boundary) then
        modify fun s => { s with reads := rest }
        startRead env c io
        dispatchReads n

def rejectQueued : M Unit := do
  let bulk := (← get).bulk
  modify fun s => { s with bulk := [] }
  each rejectAt bulk
  let commands := (← get).commands
  modify fun s => { s with commands := [] }
  each (execute env) commands
  let reads := (← get).reads
  modify fun s => { s with reads := [] }
  sendAll (reads.map Io.id) false

def drainWindow : M Unit := do
  if ← ask env .wantsDrain then startFence env c none false
  else whenAsked env .wantsRotation (rotate env)

/-- `sync_for_compaction`, `drain_window` and the fence of an idle image. -/
def maintain : M Unit := do
  whenAsked env .wantsFence (startFence env c none false)
  drainWindow env c
  whenAsked env .idle (startFence env c none false)

/-- The quiescing branch of `dispatch`: guest owners have drained, later commands stay queued. -/
def quiesce : M Unit := do
  let s ← get
  if s.pending.isEmpty && s.reads.isEmpty && s.appends.isEmpty then
    if ← ask env .coversPublished then raiseIf env .acknowledgeFails "acknowledgement failed"
    else startFence env c none false
  else return ()

def dispatch (fuel : Nat) : M Unit := do
  if (← ask env .quiescing) && c.port then quiesce env c
  else
    dispatchCommands env c fuel
    dispatchReads env c (← get).reads.length
    if (← get).failed then rejectQueued env else maintain env c

def cancelDependencies : M Unit := do
  raiseIf env .submitFails "submission failed"
  modify fun s => { s with
    pending := s.pending.map fun e =>
      (e.1, if e.2.inKernel && e.2.dependency then { e.2 with cancelRequested := true } else e.2) }

def stop : M Unit := do
  fail
  modify fun s => { s with disconnected := true }
  modify fun s => receive s.input s
  attempt (rejectQueued env)
  attempt (cancelDependencies env)

/-- A failure that another thread has recorded fails the reactor. -/
def checkFailure : M Unit := do onlyIf (← gate env .check) fail

/-- `Port::poll` and the publication of completed appends. -/
def poll : M Unit := do
  onlyIf c.port (raiseIf env .pollFails "poll failed")
  publish env (← get).appends.length
  onlyIf c.window (raiseIf env .windowFails "window failed")

def serve (fuel : Nat) : M Unit := do
  if (← get).failed then
    rejectQueued env
    cancelDependencies env
  else dispatch env c fuel

/-- The body of the loop of `run`, after `receive`, with the CQEs that have arrived. -/
def turn (cqes : List (Nat × Outcome)) (fuel : Nat) : M Unit := do
  each (fun cqe => completeCqe env cqe.1 cqe.2) cqes
  checkFailure env
  whenHealthy (whenAsked env .closedDeadline fail)
  whenHealthy (whenAsked env .deadline fail)
  whenHealthy (poll env c)
  finishReady env c
  serve env c fuel
  whenHealthy (do submitBulk env (← get).bulk)
  raiseIf env .submitFails "submission failed"

/-- `Drop`: the ring is drained, so every entry has left the kernel and is answered. -/
def drop : M Unit := do
  let pending := (← get).pending
  modify fun s => { s with pending := [] }
  each (fun e => reject e.2.work) pending

/-- A running reactor: commands arrive, the last sender goes away, a turn of its loop succeeds. -/
inductive Step : Reactor → Reactor → Prop
  | accept {s : Reactor} (k : Command) (hopen : s.disconnected = false)
      (hnodup : k.ids.Nodup) (hfresh : ∀ i ∈ k.ids, i ∉ s.accepted) :
      Step s { s with input := s.input ++ [k], accepted := s.accepted ++ k.ids }
  | disconnect {s : Reactor} : Step s { s with disconnected := true }
  | turn {s s' : Reactor} (cqes : List (Nat × Outcome)) (fuel : Nat)
      (h : turn env c cqes fuel (receive s.input s) = (.ok (), s')) : Step s s'

inductive Reachable : Reactor → Prop
  | new : Reachable new
  | step {s s' : Reactor} : Reachable s → Step env c s s' → Reachable s'

/-- The end of `run` and the drop of the reactor: after an error of a turn, an error while it waits,
or a turn that leaves a closed reactor without work. -/
inductive Gone : Reactor → Reactor → Prop
  | error {s s' : Reactor} {e : String} (cqes : List (Nat × Outcome)) (fuel : Nat)
      (h : turn env c cqes fuel (receive s.input s) = (.error e, s')) :
      Gone s (drop (stop env s').2).2
  | wait {s s' : Reactor} (cqes : List (Nat × Outcome)) (fuel : Nat)
      (h : turn env c cqes fuel (receive s.input s) = (.ok (), s')) :
      Gone s (drop (stop env s').2).2
  | closed {s s' : Reactor} (cqes : List (Nat × Outcome)) (fuel : Nat)
      (h : turn env c cqes fuel (receive s.input s) = (.ok (), s')) (hclosed : s'.closed = true)
      (hpending : s'.pending = []) (hcommands : s'.commands = []) (hreads : s'.reads = []) :
      Gone s (drop s').2

end Reactor

end Cas.Daemon
