import Cas.Encoding
import Cas.Lib.Machine
import Cas.Lib.Ring
import Mathlib.Data.List.Infix
import Mathlib.Logic.Function.Basic

/-!
# The admission scheduler (`daemon/src/local/host/fair.rs`)

Every image has a queue of requests that wait for admission. Images take turns: a visit adds one
quantum to the deficit of an image that cannot pay for its first eligible request, and lasts while
the deficit pays for it. A turn is granted to one request at a time and ends in a commit, which pays
for the request, or in a refusal, after which the request stands behind the others of its image.

Each method below is what happens under one acquisition of the scheduler's lock. Commits, refusals,
dropped tickets and releases take it a second time, for `wake` or for the end of a committed turn,
and other threads may come in between.
-/

namespace Cas.Fair

def QUANTUM : Nat := MAX_REQUEST_BYTES

def HEADS : Nat := 8

/-- `local::Kind`. -/
inductive Kind
  | control
  | read (bytes : Nat)
  | write (bytes : Nat)
  deriving DecidableEq, Repr

structure Request where
  id : Nat
  bytes : Nat
  ready : Bool
  deriving DecidableEq, Repr

structure Image where
  queue : List Request
  deficit : Nat
  admittedBytes : Nat
  admitted : Nat
  canceled : Nat
  deferred : Nat
  deriving DecidableEq, Repr

/-- The position of a request: its image and its identity. -/
abbrev Grant (n : Nat) := Fin n × Nat

structure State (n : Nat) where
  images : Fin n → Image
  cursor : Fin n
  replenish : Bool
  nextId : Nat
  granted : Option (Grant n)
  releasedDuringTurn : Bool

/-- The request with the given identity becomes eligible. -/
def mark (id : Nat) : List Request → List Request
  | [] => []
  | r :: l => if r.id = id then { r with ready := true } :: l else r :: mark id l

namespace State

variable {n : Nat}

def new (images : Nat) : Except IoError (State images) :=
  if h : images = 0 then .error ⟨.invalidInput, "invalid input parameter"⟩
  else .ok
    { images := fun _ => ⟨[], 0, 0, 0, 0, 0⟩
      cursor := ⟨0, Nat.pos_of_ne_zero h⟩
      replenish := true
      nextId := 1
      granted := none
      releasedDuringTurn := false }

def modify (s : State n) (image : Fin n) (f : Image → Image) : State n :=
  { s with images := Function.update s.images image (f (s.images image)) }

def advance (s : State n) : State n :=
  { s with
    cursor := ⟨(s.cursor + 1) % n, Nat.mod_lt _ s.cursor.pos⟩
    replenish := true }

/-- The first eligible request of an image. -/
def eligible (s : State n) (i : Fin n) : Option Request := (s.images i).queue.find? (·.ready)

/-- What a visit makes of the deficit of the image at the cursor. -/
def visited (s : State n) (request : Request) : Nat :=
  if s.replenish = true ∧ (s.images s.cursor).deficit < request.bytes then
    (s.images s.cursor).deficit + QUANTUM
  else (s.images s.cursor).deficit

def visit (s : State n) (request : Request) : State n :=
  { s.modify s.cursor fun i => { i with deficit := s.visited request } with replenish := false }

/-- One iteration of `choose`: a request that can be granted, or on to the next image. -/
def pass (s : State n) : Option (Grant n) × State n :=
  match s.eligible s.cursor with
  | none => (none, (s.modify s.cursor fun i => { i with deficit := 0 }).advance)
  | some request =>
    if request.bytes ≤ s.visited request then (some (s.cursor, request.id), s.visit request)
    else (none, (s.visit request).advance)

def passes : Nat → State n → Option (Grant n) × State n
  | 0, s => (none, s)
  | k + 1, s =>
    match s.pass with
    | (some g, s) => (some g, s)
    | (none, s) => s.passes k

def choose (s : State n) : Option (Grant n) × State n :=
  if s.granted.isSome then (none, s) else s.passes (n + 1)

/-- `wake_next`. -/
def wake (s : State n) : State n := s.choose.2

/-- `resources_released`, before it wakes up the next image. -/
def release (s : State n) : State n :=
  { s with
    releasedDuringTurn := if s.granted.isSome then true else s.releasedDuringTurn
    images := fun i =>
      { s.images i with queue := (s.images i).queue.map fun r => { r with ready := true } } }

def push (s : State n) (image : Fin n) (bytes : Nat) : State n :=
  { s.modify image fun i => { i with queue := i.queue ++ [⟨s.nextId, bytes, true⟩] } with
    nextId := s.nextId + 1 }

/-- `Port::ticket` for a request of the given size. -/
def enqueue (s : State n) (image bytes : Nat) : Except IoError (Option (Grant n) × State n) :=
  if bytes > QUANTUM then .error ⟨.invalidInput, "invalid input parameter"⟩
  else
    match checkedAdd s.nextId 1 with
    | none => .error ⟨.other, "admission ticket IDs exhausted"⟩
    | some _ =>
      if h : image < n then
        if (s.images ⟨image, h⟩).queue.length = HEADS then
          .error ⟨.other, "image admission head capacity exceeded"⟩
        else .ok (some (⟨image, h⟩, s.nextId), s.push ⟨image, h⟩ bytes)
      else .error ⟨.invalidInput, "invalid input parameter"⟩

/-- `Port::ticket`. -/
def ticket (s : State n) (image : Nat) : Kind → Except IoError (Option (Grant n) × State n)
  | .control => .ok (none, s)
  | .read bytes => s.enqueue image (max bytes BLOCK_SIZE)
  | .write bytes => s.enqueue image (max bytes BLOCK_SIZE)

/-- The request becomes eligible. -/
def marked (s : State n) (image : Fin n) (id : Nat) : State n :=
  s.modify image fun i => { i with queue := mark id i.queue }

/-- `Ticket::turn`: whether the turn is granted. If not, the image whose turn it is is woken up. -/
def turn (s : State n) (image : Fin n) (id : Nat) : Except IoError (Bool × State n) :=
  if (s.images image).queue.any (·.id = id) then
    let (next, s) := (s.marked image id).choose
    if next = some (image, id) then
      .ok (true, { s with granted := next, releasedDuringTurn := false })
    else .ok (false, s)
  else .error ⟨.other, "admission ticket already consumed"⟩

/-- `Turn::commit`; `none` is a panic: an assertion, or an underflow of the deficit. -/
def commit (s : State n) (image : Fin n) (id : Nat) : Option (State n) :=
  if s.granted = some (image, id) then
    match (s.images image).queue.find? (·.id = id) with
    | none => none
    | some head =>
      if head.bytes ≤ (s.images image).deficit then
        some (s.modify image fun i =>
          { i with
            queue := i.queue.eraseP (·.id = id)
            deficit := i.deficit - head.bytes
            admittedBytes := i.admittedBytes + head.bytes
            admitted := i.admitted + 1 })
      else none
  else none

/-- A committed turn is dropped; `none` is a panic. -/
def close (s : State n) (image : Fin n) (id : Nat) : Option (State n) :=
  if s.granted = some (image, id) then some { s with granted := none } else none

/-- A turn is dropped without a commit; `none` is a panic. -/
def refuse (s : State n) (image : Fin n) (id : Nat) : Option (State n) :=
  if s.granted = some (image, id) then
    match (s.images image).queue.find? (·.id = id) with
    | none => none
    | some head =>
      -- The request goes behind the others of its image.
      let deferred := s.modify image fun i =>
        { i with
          deferred := i.deferred + 1
          queue := i.queue.eraseP (·.id = id) ++ [{ head with ready := s.releasedDuringTurn }] }
      some { deferred with granted := none }.advance
  else none

/-- A ticket is dropped. -/
def dropTicket (s : State n) (image : Fin n) (id : Nat) : State n :=
  if (s.images image).queue.any (·.id = id) then
    s.modify image fun i =>
      { i with queue := i.queue.eraseP (·.id = id), canceled := i.canceled + 1 }
  else s

end State

/-- A `Turn` that somebody holds; a committed one is only there to be dropped. -/
structure Turn (n : Nat) where
  image : Fin n
  id : Nat
  committed : Bool
  deriving DecidableEq

/-- The scheduler and the turns that its users hold. -/
structure World (n : Nat) where
  state : State n
  turns : List (Turn n)

inductive Action (n : Nat)
  | ticket (image : Nat) (kind : Kind)
  | turn (image : Fin n) (id : Nat)
  | commit (image : Fin n) (id : Nat)
  | close (image : Fin n) (id : Nat)
  | refuse (image : Fin n) (id : Nat)
  | dropTicket (image : Fin n) (id : Nat)
  | release
  | wake

namespace World

variable {n : Nat}

/-- One method; `none` is a panic. Only a turn that is held can be committed, closed or refused, and
a ticket outlives its turns. -/
def step (w : World n) : Action n → Option (World n)
  | .ticket image kind =>
    match w.state.ticket image kind with
    | .ok (_, s) => some { w with state := s }
    | .error _ => some w
  | .turn image id =>
    match w.state.turn image id with
    | .ok (true, s) => some ⟨s, ⟨image, id, false⟩ :: w.turns⟩
    | .ok (false, s) => some { w with state := s }
    | .error _ => some w
  | .commit image id =>
    if ⟨image, id, false⟩ ∈ w.turns then
      (w.state.commit image id).map fun s =>
        ⟨s, ⟨image, id, true⟩ :: w.turns.erase ⟨image, id, false⟩⟩
    else some w
  | .close image id =>
    if ⟨image, id, true⟩ ∈ w.turns then
      (w.state.close image id).map fun s => ⟨s, w.turns.erase ⟨image, id, true⟩⟩
    else some w
  | .refuse image id =>
    if ⟨image, id, false⟩ ∈ w.turns then
      (w.state.refuse image id).map fun s => ⟨s, w.turns.erase ⟨image, id, false⟩⟩
    else some w
  | .dropTicket image id =>
    if w.turns.any fun t => t.image = image ∧ t.id = id then some w
    else some { w with state := w.state.dropTicket image id }
  | .release => some { w with state := w.state.release }
  | .wake => some { w with state := w.state.wake }

/-- What the users of a scheduler of `n` images can bring about. -/
def Reachable (w : World n) : Prop :=
  ∃ s₀ past, State.new n = .ok s₀ ∧ Machine.run step ⟨s₀, []⟩ past = some w

end World

namespace State

variable {n : Nat} {s t u : State n}

@[simp] theorem modify_images_self (s : State n) (i : Fin n) (f : Image → Image) :
    (s.modify i f).images i = f (s.images i) := Function.update_self ..

theorem modify_images_of_ne (s : State n) {i j : Fin n} (f : Image → Image) (h : j ≠ i) :
    (s.modify i f).images j = s.images j := Function.update_of_ne h ..

/-- Choosing moves the cursor and the deficits only. -/
structure Moved (s t : State n) : Prop where
  image : ∀ i, t.images i = { s.images i with deficit := (t.images i).deficit }
  granted : t.granted = s.granted
  nextId : t.nextId = s.nextId
  released : t.releasedDuringTurn = s.releasedDuringTurn

namespace Moved

theorem refl (s : State n) : Moved s s := ⟨fun _ => rfl, rfl, rfl, rfl⟩

theorem trans (h : Moved s t) (h' : Moved t u) : Moved s u := by
  refine ⟨fun i => ?_, h'.granted.trans h.granted, h'.nextId.trans h.nextId,
    h'.released.trans h.released⟩
  rw [h'.image i, h.image i]

theorem queue (h : Moved s t) (i : Fin n) : (t.images i).queue = (s.images i).queue := by
  rw [h.image i]

theorem eligible (h : Moved s t) (i : Fin n) : t.eligible i = s.eligible i := by
  rw [State.eligible, State.eligible, h.queue i]

theorem modify (s : State n) (i : Fin n) (deficit : Nat) :
    Moved s (s.modify i fun image => { image with deficit }) := by
  refine ⟨fun j => ?_, rfl, rfl, rfl⟩
  by_cases hj : j = i
  · subst hj
    rw [modify_images_self]
  · rw [modify_images_of_ne s _ hj]

end Moved

/-- An iteration of `choose`: nothing waits, or the deficit pays for the first eligible request, or
it does not. -/
inductive Pass (s : State n) : Option (Grant n) → State n → Prop
  | idle (none : s.eligible s.cursor = none) :
      Pass s .none (s.modify s.cursor fun i => { i with deficit := 0 }).advance
  | paid (r : Request) (eligible : s.eligible s.cursor = some r) (pays : r.bytes ≤ s.visited r) :
      Pass s (some (s.cursor, r.id)) (s.visit r)
  | short (r : Request) (eligible : s.eligible s.cursor = some r) (short : s.visited r < r.bytes) :
      Pass s none (s.visit r).advance

theorem pass_spec {g : Option (Grant n)} (h : s.pass = (g, t)) : Pass s g t := by
  rw [pass] at h
  split at h
  · next hn =>
    cases h
    exact .idle hn
  · next r hr =>
    split at h
    · next hp =>
      cases h
      exact .paid r hr hp
    · next hp =>
      cases h
      exact .short r hr (Nat.lt_of_not_le hp)

theorem visit_moved (s : State n) (r : Request) : Moved s (s.visit r) :=
  let h := Moved.modify s s.cursor (s.visited r)
  ⟨h.image, h.granted, h.nextId, h.released⟩

theorem advance_moved (s : State n) : Moved s s.advance := ⟨fun _ => rfl, rfl, rfl, rfl⟩

theorem Pass.moved {g : Option (Grant n)} (h : Pass s g t) : Moved s t := by
  cases h with
  | idle _ => exact (Moved.modify s s.cursor 0).trans (advance_moved _)
  | paid r _ _ => exact visit_moved s r
  | short r _ _ => exact (visit_moved s r).trans (advance_moved _)

/-- The loop of `choose`, iteration by iteration. -/
inductive Passes : Nat → State n → Option (Grant n) → State n → Prop
  | done (s : State n) : Passes 0 s none s
  | found {k : Nat} {s t : State n} {g : Grant n} (pass : Pass s (some g) t) :
      Passes (k + 1) s (some g) t
  | next {k : Nat} {s t u : State n} {g : Option (Grant n)} (pass : Pass s none t)
      (rest : Passes k t g u) : Passes (k + 1) s g u

theorem passes_spec (k : Nat) (s : State n) : Passes k s (s.passes k).1 (s.passes k).2 := by
  induction k generalizing s with
  | zero => exact .done s
  | succ k ih =>
    rw [passes]
    split
    · next h => exact .found (pass_spec h)
    · next t h => exact .next (pass_spec h) (ih t)

theorem Passes.moved {k : Nat} {g : Option (Grant n)} (h : Passes k s g t) : Moved s t := by
  induction h with
  | done s => exact .refl s
  | found pass => exact pass.moved
  | next pass _ ih => exact pass.moved.trans ih

theorem Pass.advanced (h : Pass s none t) :
    (t.cursor : Nat) = (s.cursor + 1) % n ∧ t.replenish = true := by
  cases h <;> exact ⟨rfl, rfl⟩

/-- The state in which the request at the cursor can be granted. -/
structure Settled (s : State n) (g : Grant n) : Prop where
  cursor : s.cursor = g.1
  replenish : s.replenish = false
  request : ∃ r, s.eligible g.1 = some r ∧ r.id = g.2 ∧ r.bytes ≤ (s.images g.1).deficit

theorem Pass.settled {g : Grant n} (h : Pass s (some g) t) : Settled t g := by
  cases h with
  | paid r he hp =>
    refine ⟨rfl, rfl, r, ((visit_moved s r).eligible s.cursor).trans he, rfl, ?_⟩
    rw [visit, modify_images_self]
    exact hp

theorem Passes.settled {k : Nat} {g : Grant n} (h : Passes k s (some g) t) : Settled t g := by
  generalize hg : some g = result at h
  induction h with
  | done s => cases hg
  | found pass =>
    cases hg
    exact pass.settled
  | next _ _ ih => exact ih hg

theorem Settled.pass {g : Grant n} (h : Settled s g) : s.pass = (some g, s) := by
  obtain ⟨i, id⟩ := g
  obtain ⟨rfl, hr, r, he, rfl, hp⟩ := h
  have hv : s.visited r = (s.images s.cursor).deficit :=
    if_neg fun h => Bool.false_ne_true (hr.symm.trans h.1)
  have hs : s.visit r = s := by
    rw [visit, hv, modify, Function.update_eq_self, ← hr]
  rw [State.pass, he]
  dsimp only
  rw [hv, hs, if_pos hp]

/-- A new visit can serve every request: one iteration more than there are images is enough. -/
theorem Passes.isSome {k o : Nat} {g : Option (Grant n)} {i : Fin n} {r : Request}
    (h : Passes k s g t) (he : s.eligible i = some r) (hb : r.bytes ≤ QUANTUM) (ho : o < k)
    (hi : (s.cursor + o) % n = i) (hrep : 0 < o ∨ s.replenish = true) : g.isSome := by
  induction h generalizing o with
  | done s => omega
  | found pass => rfl
  | @next k s t u g pass rest ih =>
    cases o with
    | zero =>
      rw [add_zero, Nat.mod_eq_of_lt s.cursor.isLt] at hi
      obtain rfl : s.cursor = i := Fin.ext hi
      cases pass with
      | idle hn =>
        rw [he] at hn
        cases hn
      | short r' he' hs =>
        cases he.symm.trans he'
        rw [visited] at hs
        split at hs
        · omega
        · next hn => exact absurd ⟨hrep.resolve_left (lt_irrefl 0), hs⟩ hn
    | succ o =>
      obtain ⟨hc, hr⟩ := pass.advanced
      refine ih ((pass.moved.eligible i).trans he) (Nat.lt_of_succ_lt_succ ho) ?_ (.inr hr)
      rw [hc, Nat.mod_add_mod, add_assoc, add_comm 1 o]
      exact hi

theorem choose_isSome {i : Fin n} {r : Request} (hg : s.granted = none)
    (he : s.eligible i = some r) (hb : r.bytes ≤ QUANTUM) : s.choose.1.isSome := by
  rw [choose, hg]
  have h := passes_spec (n + 1) s
  obtain ⟨o, ho, hi⟩ := Ring.exists_offset (s.cursor : Nat) i.isLt
  by_cases hrep : 0 < o ∨ s.replenish = true
  · exact h.isSome he hb (Nat.lt_succ_of_lt ho) hi hrep
  · -- The visit of the image at the cursor goes on; the next one is a whole round later.
    have h0 : o = 0 := by omega
    subst h0
    refine h.isSome he hb (Nat.lt_succ_self n) ?_ (.inl i.pos)
    rw [Nat.add_mod_right]
    exact hi

theorem choose_moved (s : State n) : Moved s s.choose.2 := by
  rw [choose]
  split
  · exact .refl s
  · exact (passes_spec (n + 1) s).moved

theorem choose_settled {g : Grant n} (h : s.choose.1 = some g) : Settled s.choose.2 g := by
  rw [choose] at h ⊢
  split at h
  · cases h
  · next hg =>
    rw [if_neg hg]
    have hp := passes_spec (n + 1) s
    rw [h] at hp
    exact hp.settled

theorem choose_choose (hb : ∀ i r, s.eligible i = some r → r.bytes ≤ QUANTUM) :
    s.choose.2.choose.1 = s.choose.1 := by
  have hm := choose_moved s
  cases hc : s.choose.1 with
  | some g =>
    have hg : ¬ s.granted.isSome = true := by
      intro hg
      rw [choose, if_pos hg] at hc
      cases hc
    rw [choose, hm.granted, if_neg hg, passes, (choose_settled hc).pass]
  | none =>
    by_contra hne
    obtain ⟨g, hg⟩ := Option.ne_none_iff_exists'.1 hne
    obtain ⟨r, he, -⟩ := (choose_settled hg).request
    rw [(choose_moved s.choose.2).eligible, hm.eligible] at he
    have hgr : s.granted = none := by
      by_contra hgr
      rw [choose, hm.granted, if_pos (Option.isSome_iff_ne_none.2 hgr)] at hg
      cases hg
    have := choose_isSome hgr he (hb _ r he)
    rw [hc] at this
    cases this

theorem choose_iterate (hb : ∀ i r, s.eligible i = some r → r.bytes ≤ QUANTUM) (k : Nat) :
    (wake^[k] s).choose.1 = s.choose.1 := by
  induction k generalizing s with
  | zero => rfl
  | succ k ih =>
    have hm := choose_moved s
    exact (ih fun i r he => hb i r ((hm.eligible i).symm.trans he)).trans (choose_choose hb)

end State

end Cas.Fair
