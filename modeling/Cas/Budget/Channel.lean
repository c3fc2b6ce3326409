import Cas.Budget.Queue

/-!
# Bounded channels (`budget/channel.rs`)

A queue of messages under a lock, with the number of its senders. A thread that panics while it holds
the lock poisons it, and whoever takes the lock next fails the channel. Every method takes the lock
once; a receiver that waits takes it again when it is woken up, and its drop takes it once for each
message left. The methods of all threads interleave.
-/

namespace Cas.Budget

/-- `channel::Queue`, with its lock. -/
structure Channel (α : Type) where
  messages : Queue α
  senders : Nat
  closed : Bool
  failed : Bool
  poisoned : Bool

/-- `TrySendError`, `TryRecvError` and what the methods return otherwise. -/
inductive Answer (α : Type)
  | done
  | full (value : α)
  | refused (value : α)
  | received (value : α)
  | empty
  | disconnected
  deriving DecidableEq

namespace Channel

variable {α : Type}

def bounded (capacity : Nat) : Except IoError (Channel α) := do
  let messages ← Queue.withCapacity capacity
  return ⟨messages, 1, false, false, false⟩

/-- Taking a poisoned lock fails the channel. -/
def lock (c : Channel α) : Channel α :=
  if c.poisoned then { c with failed := true, closed := true } else c

def trySend (c : Channel α) (value : α) : Answer α × Channel α :=
  let c := c.lock
  if c.closed then (.refused value, c)
  else
    match c.messages.tryPushBack value with
    | .error value => (.full value, c)
    | .ok messages => (.done, { c with messages })

/-- The count of senders overflows under the lock. -/
def cloneSender (c : Channel α) : Channel α :=
  let c := c.lock
  if c.senders + 1 < U64 then { c with senders := c.senders + 1 } else { c with poisoned := true }

def dropSender (c : Channel α) : Channel α :=
  let c := c.lock
  { c with senders := c.senders - 1 }

def close (c : Channel α) : Channel α := { c.lock with closed := true }

/-- One round of a receive call: `try_recv` returns that the queue is empty, `recv` waits then, and
`recv_timeout` waits or gives up. -/
def receive (c : Channel α) : Answer α × Channel α :=
  let c := c.lock
  if c.failed then (.disconnected, c)
  else
    match c.messages.popFront with
    | (some value, messages) => (.received value, { c with messages })
    | (none, _) => (if c.closed ∨ c.senders = 0 then .disconnected else .empty, c)

/-- One round of the receiver's drop. -/
def discard (c : Channel α) : Channel α :=
  let c := c.lock
  { c with messages := c.messages.popFront.2 }

/-! ## All threads -/

inductive Action (α : Type)
  | send (value : α)
  | cloneSender
  | dropSender
  | close
  | receive
  | dropReceiver
  | discard
  /-- A thread panics while it holds the lock. -/
  | poison

/-- The channel with its endpoints, what was accepted and what was received. -/
structure World (α : Type) where
  channel : Channel α
  handles : Nat
  receiving : Bool
  accepted : List α
  received : List α

namespace World

/-- An endpoint that is gone does nothing. -/
def step (w : World α) : Action α → Answer α × World α
  | .send value =>
    if w.handles = 0 then (.done, w)
    else
      let r := w.channel.trySend value
      (r.1, { w with
        channel := r.2
        accepted := match r.1 with
          | .done => w.accepted ++ [value]
          | _ => w.accepted })
  | .cloneSender =>
    if w.handles = 0 then (.done, w)
    else (.done, { w with
      channel := w.channel.cloneSender
      handles := if w.channel.senders + 1 < U64 then w.handles + 1 else w.handles })
  | .dropSender =>
    if w.handles = 0 then (.done, w)
    else (.done, { w with channel := w.channel.dropSender, handles := w.handles - 1 })
  | .close => if w.receiving then (.done, { w with channel := w.channel.close }) else (.done, w)
  | .receive =>
    if w.receiving then
      let r := w.channel.receive
      (r.1, { w with
        channel := r.2
        received := match r.1 with
          | .received value => w.received ++ [value]
          | _ => w.received })
    else (.done, w)
  | .dropReceiver => (.done, { w with channel := w.channel.close, receiving := false })
  | .discard => if w.receiving then (.done, w) else (.done, { w with channel := w.channel.discard })
  | .poison => (.done, { w with channel.poisoned := true })

def after (w : World α) (actions : List (Action α)) : World α :=
  actions.foldl (fun w a => (w.step a).2) w

def start (c : Channel α) : World α := ⟨c, 1, true, [], []⟩

/-! ## The messages that are queued -/

/-- The queue holds the accepted messages that were not received, as long as there is a receiver. -/
structure Inv (capacity : Nat) (w : World α) (queued : List α) : Prop where
  holds : w.channel.messages.Holds queued
  size : w.channel.messages.capacity = capacity
  handles : w.channel.senders = w.handles
  delivered : w.receiving = true → w.accepted = w.received ++ queued
  gone : w.receiving = false → w.channel.closed = true
  failed : w.channel.failed = true → w.channel.closed = true

end World

section Lock

variable (c : Channel α)

@[simp] theorem lock_messages : c.lock.messages = c.messages := by
  unfold lock
  split <;> rfl

@[simp] theorem lock_senders : c.lock.senders = c.senders := by
  unfold lock
  split <;> rfl

theorem lock_closed (h : c.closed = true) : c.lock.closed = true := by
  unfold lock
  split
  · rfl
  · exact h

theorem lock_failed (h : c.failed = true → c.closed = true) :
    c.lock.failed = true → c.lock.closed = true := by
  unfold lock
  split
  · exact fun _ => rfl
  · exact h

end Lock

section Methods

variable {c : Channel α} {queued : List α}

/-- A send is refused with its value when the channel is closed or full. -/
theorem trySend_cases (h : c.messages.Holds queued) (v : α) :
    (c.trySend v = (.refused v, c.lock) ∧ c.lock.closed = true) ∨
    (c.trySend v = (.full v, c.lock) ∧ queued.length = c.messages.capacity) ∨
    ∃ messages, c.trySend v = (.done, { c.lock with messages }) ∧ c.lock.closed = false ∧
      messages.Holds (queued ++ [v]) ∧ messages.capacity = c.messages.capacity := by
  unfold trySend
  simp only [lock_messages]
  cases hc : c.lock.closed with
  | true => exact Or.inl ⟨if_pos rfl, rfl⟩
  | false =>
    rw [if_neg Bool.false_ne_true]
    by_cases hfull : queued.length = c.messages.capacity
    · rw [h.tryPushBack_full hfull]
      exact Or.inr (Or.inl ⟨rfl, hfull⟩)
    · obtain ⟨q, hq, hholds, hcap⟩ := h.tryPushBack hfull v
      rw [hq]
      exact Or.inr (Or.inr ⟨q, rfl, rfl, hholds, hcap⟩)

/-- A receive takes the first message; it reports the end of the channel when there is none and
none can come. -/
theorem receive_cases (h : c.messages.Holds queued) :
    (c.receive = (.disconnected, c.lock) ∧ c.lock.failed = true) ∨
    (∃ v rest messages, queued = v :: rest ∧ c.receive = (.received v, { c.lock with messages }) ∧
      messages.Holds rest ∧ messages.capacity = c.messages.capacity) ∨
    (queued = [] ∧ c.receive = (.disconnected, c.lock) ∧
      (c.lock.closed = true ∨ c.senders = 0)) ∨
    (queued = [] ∧ c.receive = (.empty, c.lock)) := by
  unfold receive
  simp only [lock_messages, lock_senders]
  cases hf : c.lock.failed with
  | true => exact Or.inl ⟨if_pos rfl, rfl⟩
  | false =>
    rw [if_neg Bool.false_ne_true]
    cases queued with
    | nil =>
      rw [h.popFront_nil]
      by_cases hend : c.lock.closed = true ∨ c.senders = 0
      · exact Or.inr (Or.inr (Or.inl ⟨rfl, congrArg (·, c.lock) (if_pos hend), hend⟩))
      · exact Or.inr (Or.inr (Or.inr ⟨rfl, congrArg (·, c.lock) (if_neg hend)⟩))
    | cons v rest =>
      obtain ⟨q, hq, hholds, hcap⟩ := h.popFront
      rw [hq]
      exact Or.inr (Or.inl ⟨v, rest, q, rfl, rfl, hholds, hcap⟩)

end Methods

namespace World

variable {capacity : Nat} {w : World α} {queued : List α}

theorem Inv.locked (h : Inv capacity w queued) :
    Inv capacity { w with channel := w.channel.lock } queued := by
  refine ⟨?_, ?_, ?_, h.delivered, fun hr => w.channel.lock_closed (h.gone hr),
    w.channel.lock_failed h.failed⟩
  · rw [lock_messages]
    exact h.holds
  · rw [lock_messages]
    exact h.size
  · rw [lock_senders]
    exact h.handles

theorem Inv.send (h : Inv capacity w queued) (v : α) :
    ∃ queued', Inv capacity (w.step (.send v)).2 queued' := by
  simp only [step]
  split
  · exact ⟨queued, h⟩
  · rcases trySend_cases h.holds v with ⟨hs, -⟩ | ⟨hs, -⟩ | ⟨messages, hs, hclosed, hholds, hcap⟩
    · rw [hs]
      exact ⟨queued, h.locked⟩
    · rw [hs]
      exact ⟨queued, h.locked⟩
    · rw [hs]
      refine ⟨queued ++ [v], hholds, hcap.trans h.size, h.locked.handles, ?_, h.locked.gone,
        h.locked.failed⟩
      intro hr
      show w.accepted ++ [v] = w.received ++ (queued ++ [v])
      rw [h.delivered hr, List.append_assoc]

theorem Inv.receive (h : Inv capacity w queued) :
    ∃ queued', Inv capacity (w.step .receive).2 queued' := by
  simp only [step]
  split
  · next hr =>
    rcases receive_cases h.holds with ⟨hs, -⟩ | ⟨v, rest, messages, rfl, hs, hholds, hcap⟩ |
      ⟨-, hs, -⟩ | ⟨-, hs⟩
    · rw [hs]
      exact ⟨queued, h.locked⟩
    · rw [hs]
      refine ⟨rest, hholds, hcap.trans h.size, h.locked.handles, ?_, h.locked.gone, h.locked.failed⟩
      intro _
      show w.accepted = w.received ++ [v] ++ rest
      rw [h.delivered hr, List.append_assoc]
      rfl
    · rw [hs]
      exact ⟨queued, h.locked⟩
    · rw [hs]
      exact ⟨queued, h.locked⟩
  · exact ⟨queued, h⟩

theorem Inv.discard (h : Inv capacity w queued) :
    ∃ queued', Inv capacity (w.step .discard).2 queued' := by
  simp only [step]
  split
  · exact ⟨queued, h⟩
  · next hr =>
    have hr : w.receiving = false := by simpa using hr
    have hgone : ∀ {rest : List α}, w.receiving = true → w.accepted = w.received ++ rest := by
      intro rest hr'
      rw [hr] at hr'
      cases hr'
    unfold Channel.discard
    cases queued with
    | nil =>
      refine ⟨[], ?_, ?_, h.locked.handles, hgone, h.locked.gone, h.locked.failed⟩
      · show (w.channel.lock.messages.popFront.2).Holds []
        rw [lock_messages, h.holds.popFront_nil]
        exact h.holds
      · show (w.channel.lock.messages.popFront.2).capacity = capacity
        rw [lock_messages, h.holds.popFront_nil]
        exact h.size
    | cons v rest =>
      obtain ⟨q, hq, hholds, hcap⟩ := h.holds.popFront
      refine ⟨rest, ?_, ?_, h.locked.handles, hgone, h.locked.gone, h.locked.failed⟩
      · show (w.channel.lock.messages.popFront.2).Holds rest
        rw [lock_messages, hq]
        exact hholds
      · show (w.channel.lock.messages.popFront.2).capacity = capacity
        rw [lock_messages, hq]
        exact hcap.trans h.size

theorem Inv.cloneSender (h : Inv capacity w queued) :
    Inv capacity (w.step .cloneSender).2 queued := by
  simp only [step]
  split
  · exact h
  · have hl := h.locked
    unfold Channel.cloneSender
    simp only [lock_senders]
    split
    · exact ⟨hl.holds, hl.size, congrArg (· + 1) h.handles, hl.delivered, hl.gone, hl.failed⟩
    · exact ⟨hl.holds, hl.size, h.handles, hl.delivered, hl.gone, hl.failed⟩

theorem Inv.dropSender (h : Inv capacity w queued) :
    Inv capacity (w.step .dropSender).2 queued := by
  simp only [step]
  split
  · exact h
  · have hl := h.locked
    exact ⟨hl.holds, hl.size, congrArg (· - 1) hl.handles, hl.delivered, hl.gone, hl.failed⟩

theorem Inv.step (h : Inv capacity w queued) (a : Action α) :
    ∃ queued', Inv capacity (w.step a).2 queued' := by
  have hl := h.locked
  cases a with
  | send v => exact h.send v
  | cloneSender => exact ⟨queued, h.cloneSender⟩
  | dropSender => exact ⟨queued, h.dropSender⟩
  | close =>
    simp only [World.step]
    split
    · exact ⟨queued, hl.holds, hl.size, hl.handles, hl.delivered, fun _ => rfl, fun _ => rfl⟩
    · exact ⟨queued, h⟩
  | receive => exact h.receive
  | dropReceiver =>
    exact ⟨queued, hl.holds, hl.size, hl.handles, (fun hr => by cases hr), fun _ => rfl, fun _ => rfl⟩
  | discard => exact h.discard
  | poison => exact ⟨queued, h.holds, h.size, h.handles, h.delivered, h.gone, h.failed⟩

theorem Inv.after (h : Inv capacity w queued) (actions : List (Action α)) :
    ∃ queued', Inv capacity (w.after actions) queued' := by
  induction actions generalizing w queued with
  | nil => exact ⟨queued, h⟩
  | cons a actions ih =>
    obtain ⟨queued', h'⟩ := h.step a
    exact ih h'

/-! ## The end of a channel -/

/-- No message can be added any more. -/
def Ended (w : World α) : Prop := w.channel.closed = true ∨ w.handles = 0

theorem closed_methods {c : Channel α} (h : c.closed = true) :
    (∀ v, c.trySend v = (.refused v, c.lock)) ∧ c.cloneSender.closed = true ∧
      c.dropSender.closed = true ∧ c.receive.2.closed = true ∧ c.discard.closed = true := by
  have hl := c.lock_closed h
  refine ⟨fun v => if_pos hl, ?_, hl, ?_, hl⟩
  · simp only [Channel.cloneSender]
    split <;> exact hl
  · simp only [Channel.receive]
    split
    · exact hl
    · split <;> exact hl

theorem Ended.step (h : w.Ended) (a : Action α) :
    (w.step a).2.Ended ∧ (w.step a).2.accepted = w.accepted := by
  rcases h with hc | h0
  · obtain ⟨hsend, hclone, hdrop, hreceive, hdiscard⟩ := closed_methods hc
    cases a with
    | send v =>
      simp only [World.step, hsend]
      split
      · exact ⟨Or.inl hc, rfl⟩
      · exact ⟨Or.inl (w.channel.lock_closed hc), rfl⟩
    | cloneSender =>
      simp only [World.step]
      split
      · exact ⟨Or.inl hc, rfl⟩
      · exact ⟨Or.inl hclone, rfl⟩
    | dropSender =>
      simp only [World.step]
      split
      · exact ⟨Or.inl hc, rfl⟩
      · exact ⟨Or.inl hdrop, rfl⟩
    | close =>
      simp only [World.step]
      split
      · exact ⟨Or.inl rfl, rfl⟩
      · exact ⟨Or.inl hc, rfl⟩
    | receive =>
      simp only [World.step]
      split
      · exact ⟨Or.inl hreceive, rfl⟩
      · exact ⟨Or.inl hc, rfl⟩
    | dropReceiver => exact ⟨Or.inl rfl, rfl⟩
    | discard =>
      simp only [World.step]
      split
      · exact ⟨Or.inl hc, rfl⟩
      · exact ⟨Or.inl hdiscard, rfl⟩
    | poison => exact ⟨Or.inl hc, rfl⟩
  · -- without a sender nothing is sent, and nothing clones a sender
    have hsame : (w.step a).2.handles = w.handles ∧ (w.step a).2.accepted = w.accepted := by
      cases a with
      | send | cloneSender | dropSender =>
        simp only [World.step, if_pos h0, and_self]
      | close | receive | discard =>
        simp only [World.step]
        split <;> exact ⟨rfl, rfl⟩
      | dropReceiver | poison => exact ⟨rfl, rfl⟩
    exact ⟨Or.inr (hsame.1.trans h0), hsame.2⟩

theorem Ended.after (h : w.Ended) (actions : List (Action α)) :
    (w.after actions).accepted = w.accepted := by
  induction actions generalizing w with
  | nil => rfl
  | cons a actions ih =>
    obtain ⟨h', ha⟩ := h.step a
    exact (ih h').trans ha

theorem start_inv {c : Channel α} (h : bounded capacity = .ok c) : Inv capacity (start c) [] := by
  obtain ⟨messages, hm, h⟩ := Except.bind_eq_ok.1 h
  cases h
  obtain ⟨hholds, hcap⟩ := Queue.Holds.withCapacity hm
  exact ⟨hholds, hcap, rfl, fun _ => rfl, (fun hr => by cases hr), (fun hf => by cases hf)⟩

/-- The channel after some interleaving of its methods. -/
def Reachable (capacity : Nat) (w : World α) : Prop :=
  ∃ c actions, bounded capacity = .ok c ∧ w = (start c).after actions

/-- In every interleaving the accepted messages are the received ones followed by the queued ones,
at most as many as the capacity; a receive takes the first queued message of an unfailed channel and
reports its end only when everything was received and nothing can be accepted later; a send is
refused with its value only when the channel is full, or closed or failed. -/
theorem delivers (hw : Reachable capacity w) :
    ∃ queued, w.channel.messages.Holds queued ∧ queued.length ≤ capacity ∧
      (w.receiving = true → w.accepted = w.received ++ queued) ∧
      (w.receiving = true → w.channel.lock.failed = false →
        (∀ v rest, queued = v :: rest → (w.step .receive).1 = .received v) ∧
        ((w.step .receive).1 = .disconnected → w.accepted = w.received ∧
          ∀ later, ((w.step .receive).2.after later).accepted = w.accepted)) ∧
      (0 < w.handles → ∀ v,
        ((w.step (.send v)).1 = .done ∧ (w.step (.send v)).2.accepted = w.accepted ++ [v]) ∨
        ((w.step (.send v)).1 = .full v ∧ queued.length = capacity) ∨
        ((w.step (.send v)).1 = .refused v ∧
          (w.channel.closed = true ∨ w.channel.lock.failed = true))) := by
  obtain ⟨c, actions, h₀, rfl⟩ := hw
  obtain ⟨queued, h⟩ := (start_inv h₀).after actions
  generalize (start c).after actions = w at h
  have hbound := h.holds.bound
  rw [h.size] at hbound
  refine ⟨queued, h.holds, hbound, h.delivered, ?_, ?_⟩
  · intro hr hf
    rcases receive_cases h.holds with ⟨-, hfailed⟩ | ⟨v, rest, messages, rfl, hs, -, -⟩ |
      ⟨rfl, hs, hend⟩ | ⟨rfl, hs⟩
    · rw [hf] at hfailed
      cases hfailed
    · simp only [World.step, hr, if_true, hs]
      refine ⟨?_, fun hd => by cases hd⟩
      rintro v' rest' ⟨rfl, rfl⟩
      rfl
    · refine ⟨(fun v rest hq => by cases hq), fun _ => ⟨by simpa using h.delivered hr, ?_⟩⟩
      intro later
      have hended : (w.step .receive).2.Ended := by
        simp only [World.step, hr, if_true, hs]
        rcases hend with hclosed | h0
        · exact Or.inl hclosed
        · exact Or.inr (h.handles.symm.trans h0)
      rw [hended.after later]
      simp only [World.step, hr, if_true]
    · simp only [World.step, hr, if_true, hs]
      exact ⟨(fun v rest hq => by cases hq), (fun hd => by cases hd)⟩
  · intro hpos v
    have hne : w.handles ≠ 0 := Nat.ne_of_gt hpos
    rcases trySend_cases h.holds v with ⟨hs, hc⟩ | ⟨hs, hfull⟩ | ⟨messages, hs, -, -, -⟩
    · simp only [World.step, if_neg hne, hs]
      refine Or.inr (Or.inr ⟨trivial, ?_⟩)
      unfold lock at hc ⊢
      split at hc
      · next hp => exact Or.inr (by rw [if_pos hp])
      · exact Or.inl hc
    · simp only [World.step, if_neg hne, hs]
      exact Or.inr (Or.inl ⟨trivial, hfull.trans h.size⟩)
    · simp only [World.step, if_neg hne, hs]
      exact Or.inl ⟨trivial, trivial⟩

/-- Two messages through a queue of one: the second one is handed back until the first is received. -/
theorem delivers_one : ∃ w : World Nat, Reachable 1 w ∧ w.receiving = true ∧ 0 < w.handles ∧
    w.accepted = [5] ∧ (w.step .receive).1 = .received 5 ∧ (w.step (.send 6)).1 = .full 6 := by
  have hw : Reachable 1 ((start ⟨⟨[none], 0, 0⟩, 1, false, false, false⟩ : World Nat).after [.send 5]) :=
    ⟨_, _, rfl, rfl⟩
  obtain ⟨queued, -, -, hdelivered, hreceive, hsend⟩ := delivers hw
  have hqueued : queued = [5] := (hdelivered rfl).symm
  refine ⟨_, hw, rfl, by decide, rfl, (hreceive rfl rfl).1 5 [] hqueued, ?_⟩
  rcases hsend (by decide) 6 with ⟨h, -⟩ | ⟨h, -⟩ | ⟨h, -⟩
  · cases h
  · exact h
  · cases h

end World

end Channel

end Cas.Budget
