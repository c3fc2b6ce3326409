import Cas.Encoding
import Cas.Lib.Machine
import Mathlib.Algebra.BigOperators.Group.List.Basic
import Mathlib.Data.List.Count

/-!
# The physical space account (`space.rs`, `space/filesystem.rs`)

A host store accounts for its allocated bytes and for the bytes promised to operations under way.
Foreground operations leave a reserve alone that the one background operation may borrow. The
operations of all threads interleave; each takes the account's lock as often as it does in the
source. An arithmetic overflow or underflow gets the account stuck (`none`).
-/

namespace Cas.Space

open List

structure Limits where
  capacity : Nat
  reserve : Nat
  bounded : capacity < U64

structure Status where
  allocated : Nat
  promised : Nat
  peakUsed : Nat
  pressured : Bool
  backgroundActive : Bool
  rejected : Nat
  failed : Bool
  deriving DecidableEq, Repr

/-- `allocated + promised`, where the source does not saturate. -/
def Status.used (s : Status) : Nat := s.allocated + s.promised

structure Reservation where
  remaining : Nat
  background : Bool
  deriving DecidableEq, Repr

def updatePressure (l : Limits) (s : Status) : Option Status := do
  let usable ← checkedSub l.capacity l.reserve
  return { s with
    peakUsed := max s.peakUsed (min s.used (U64 - 1))
    pressured :=
      if usable ≤ s.used then true
      else if s.used * 100 < l.capacity * 60 then false
      else s.pressured }

def observed (l : Limits) (s : Status) : Option (Except IoError Unit × Status) := do
  let s ← updatePressure l s
  if s.used > l.capacity then
    return (.error ⟨.other, "observed filesystem allocation exceeds capacity"⟩,
      { s with failed := true })
  return (.ok (), s)

/-- `Space::new`. -/
def new (l : Limits) (allocated : Nat) : Option (Except IoError Status) := do
  if l.reserve = 0 ∨ l.reserve ≥ l.capacity ∨ allocated > l.capacity then
    return .error ⟨.invalidInput, "invalid initial disk accounting"⟩
  let s ← updatePressure l ⟨allocated, 0, allocated, false, false, 0, false⟩
  return .ok s

/-- How far requests of a kind may fill the account. -/
def limit (l : Limits) (background : Bool) : Option Nat :=
  if background then some l.capacity else checkedSub l.capacity l.reserve

/-- `Space::reserve`. -/
def reserve (l : Limits) (s : Status) (bytes : Nat) (background : Bool) :
    Option (Except IoError Reservation × Status) := do
  let used := saturatingAdd s.allocated s.promised
  let limit ← limit l background
  if s.failed then
    return (.error ⟨.other, "disk account failed; explicit recovery required"⟩, s)
  if bytes = 0 ∨ bytes > limit - used ∨
      (background ∧ (s.backgroundActive ∨ bytes > l.reserve)) ∨ (¬ background ∧ s.pressured) then
    -- a request that could fit an empty account has reached the prospective foreground cap
    let pressured := s.pressured || (!background && decide (bytes ≤ limit ∧ bytes > limit - used))
    return (.error ⟨.wouldBlock, "disk admission waits for reclamation or the background owner"⟩,
      { s with pressured, rejected := saturatingAdd s.rejected 1 })
  let promised ← checkedAdd s.promised bytes
  let s ← updatePressure l { s with promised, backgroundActive := s.backgroundActive || background }
  return (.ok ⟨bytes, background⟩, s)

namespace Reservation

/-- What is left of a reservation that was finished or given up. -/
def spent : Reservation := ⟨0, false⟩

/-- `Reservation::finish`; the reservation is `spent` after it. -/
def finish (l : Limits) (s : Status) (r : Reservation) (previous allocated : Nat) :
    Option (Except IoError Unit × Status) := do
  let promised ← checkedSub s.promised r.remaining
  let (result, s) ← observed l { s with
    allocated, promised, backgroundActive := s.backgroundActive && !r.background }
  match result with
  | .error e => return (.error e, s)
  | .ok () =>
    if allocated - previous > r.remaining then
      return (.error ⟨.other, "observed output exceeds its disk promise"⟩, { s with failed := true })
    return (.ok (), s)

/-- `Drop`. -/
def drop (l : Limits) (s : Status) (r : Reservation) : Option Status := do
  let promised ← checkedSub s.promised r.remaining
  updatePressure l { s with promised, backgroundActive := s.backgroundActive && !r.background }

end Reservation

/-! ## The governor -/

structure Domain where
  device : Nat
  filesystem : Nat
  capacity : Nat
  unit : Nat
  deriving DecidableEq, Repr

structure Observation where
  domain : Domain
  allocated : Nat
  deriving DecidableEq, Repr

/-- How far `Permit::run_with` is: its operation runs, its outcome is recorded, its reservation is
dropped. -/
inductive Stage
  | running
  | recorded
  | dropped
  deriving DecidableEq, Repr

/-- `Attempt`, with the owner's lock; `panicked` says that the operation unwinds. -/
structure Attempt where
  reservation : Reservation
  previous : Nat
  stage : Stage
  panicked : Bool

structure Governor where
  limits : Limits
  domain : Domain
  status : Status
  /-- The reservations of permits that do not run. -/
  permits : List Reservation
  attempt : Option Attempt
  /-- A thread panicked under the owner's lock. -/
  poisoned : Bool
  /-- Promises of operations whose outcome could not be measured. -/
  retained : Nat

/-- What a thread does next. -/
inductive Op
  | foreground (bytes : Nat)
  | background (bytes : Nat)
  /-- A permit is dropped before it runs. -/
  | cancel (permit : Nat)
  /-- `run_with` takes the owner's lock. -/
  | start (permit : Nat)
  /-- Its operation ended, and the filesystem is sampled. -/
  | finish (sample : Except IoError Observation) (panicked : Bool)
  /-- The reservation is dropped. -/
  | release
  /-- The attempt and the owner's lock are dropped. -/
  | leave
  | refresh (sample : Except IoError Observation)

namespace Governor

/-- `Governor::open`, given the first sample. -/
def «open» (l : Limits) (initial : Observation) : Option (Except IoError Governor) := do
  if initial.domain.capacity < l.capacity then
    return .error ⟨.invalidData, "admission capacity exceeds filesystem"⟩
  match ← new l initial.allocated with
  | .error e => return .error e
  | .ok s => return .ok ⟨l, initial.domain, s, [], none, false, 0⟩

variable (g : Governor)

/-- `Governor::lock`, once no other thread has the lock. -/
def lock : Except IoError Unit := do
  if g.poisoned then .error ⟨.other, "filesystem owner panicked"⟩
  else require (g.status.failed = false) "filesystem account failed; explicit recovery required"

/-- `Governor::observe`. -/
def observe (sample : Except IoError Observation) : Except IoError Observation := do
  let sample ← sample
  require (sample.domain = g.domain) "filesystem allocation domain changed"
  return sample

/-- `Governor::foreground` and `Governor::background`. -/
def permit (bytes : Nat) (background : Bool) : Option Governor := do
  let (result, status) ← reserve g.limits g.status bytes background
  match result with
  | .error _ => return { g with status }
  | .ok r => return { g with status, permits := r :: g.permits }

def cancel (i : Nat) : Option Governor :=
  match g.permits[i]? with
  | none => some g
  | some r => do
    let status ← r.drop g.limits g.status
    return { g with status, permits := g.permits.eraseIdx i }

/-- A permit whose owner's lock is refused is dropped. -/
def start (i : Nat) : Option Governor :=
  match g.permits[i]?, g.attempt with
  | some r, none =>
    match g.lock with
    | .error _ => g.cancel i
    | .ok () => some { g with
        permits := g.permits.eraseIdx i
        attempt := some ⟨r, g.status.allocated, .running, false⟩ }
  | _, _ => some g

/-- `Attempt::finish` up to the drop of the reservation. -/
def finish (sample : Except IoError Observation) (panicked : Bool) : Option Governor :=
  match g.attempt with
  | some ⟨r, previous, .running, _⟩ =>
    let attempt := some ⟨.spent, previous, .recorded, panicked⟩
    match g.observe sample with
    | .ok sample => do
      let (_, status) ← r.finish g.limits g.status previous sample.allocated
      return { g with status, attempt }
    | .error _ =>
      some { g with
        status := { g.status with failed := true }
        attempt
        retained := g.retained + r.remaining }
  | _ => some g

def release : Option Governor :=
  match g.attempt with
  | some ⟨r, previous, .recorded, panicked⟩ => do
    let status ← r.drop g.limits g.status
    return { g with status, attempt := some ⟨.spent, previous, .dropped, panicked⟩ }
  | _ => some g

def leave : Option Governor :=
  match g.attempt with
  | some ⟨_, _, .dropped, panicked⟩ =>
    some { g with
      status := { g.status with failed := g.status.failed || panicked }
      attempt := none
      poisoned := g.poisoned || panicked }
  | _ => some g

/-- `Governor::refresh`, once no other thread has the lock. -/
def refresh (sample : Except IoError Observation) : Option Governor :=
  match g.attempt, g.lock with
  | none, .ok () =>
    match g.observe sample with
    | .ok sample => do
      let (_, status) ← observed g.limits { g.status with allocated := sample.allocated }
      return { g with status }
    | .error _ => some { g with status := { g.status with failed := true } }
  | _, _ => some g

def step : Op → Option Governor
  | .foreground bytes => g.permit bytes false
  | .background bytes => g.permit bytes true
  | .cancel i => g.cancel i
  | .start i => g.start i
  | .finish sample panicked => g.finish sample panicked
  | .release => g.release
  | .leave => g.leave
  | .refresh sample => g.refresh sample

/-- The reservations that exist. -/
def live : List Reservation := g.permits ++ (g.attempt.map Attempt.reservation).toList

end Governor

/-! ## What each operation does to the account -/

section Account

variable {l : Limits} {s : Status}

/-- The promises that an account has to keep. -/
structure Holds (l : Limits) (s : Status) (live : List Reservation) (retained : Nat) : Prop where
  promised : s.promised = (live.map Reservation.remaining).sum + retained
  fits : s.failed = false → s.used ≤ l.capacity
  retained : s.failed = false → retained = 0
  background : live.countP Reservation.background ≤ 1
  active : 0 < live.countP Reservation.background → s.backgroundActive = true
  idle : s.failed = false → live.countP Reservation.background = 0 → s.backgroundActive = false

variable {live : List Reservation} {retained : Nat}

theorem Holds.perm {live' : List Reservation} (h : Holds l s live retained) (hp : live.Perm live') :
    Holds l s live' retained := by
  have hsum := (hp.map Reservation.remaining).sum_eq
  have hcount := hp.countP_eq Reservation.background
  exact ⟨hsum ▸ h.promised, h.fits, h.retained, hcount ▸ h.background, hcount ▸ h.active,
    hcount ▸ h.idle⟩

theorem Holds.congr {s' : Status} (h : Holds l s live retained) (ha : s'.allocated = s.allocated)
    (hp : s'.promised = s.promised) (hb : s'.backgroundActive = s.backgroundActive)
    (hf : s'.failed = s.failed) : Holds l s' live retained := by
  refine ⟨hp ▸ h.promised, ?_, hf ▸ h.retained, h.background, hb ▸ h.active, ?_⟩
  · rw [hf, Status.used, ha, hp]
    exact h.fits
  · rw [hf, hb]
    exact h.idle

theorem Holds.fail (h : Holds l s live retained) : Holds l { s with failed := true } live retained :=
  ⟨h.promised, nofun, nofun, h.background, h.active, nofun⟩

theorem Holds.spent (h : Holds l s live retained) : Holds l s (.spent :: live) retained :=
  ⟨by simpa [Reservation.spent] using h.promised, h.fits, h.retained,
    by simpa [Reservation.spent] using h.background, by simpa [Reservation.spent] using h.active,
    by simpa [Reservation.spent] using h.idle⟩

theorem updatePressure_spec (h : l.reserve < l.capacity) (s : Status) :
    ∃ peakUsed pressured, updatePressure l s = some { s with peakUsed, pressured } := by
  rw [updatePressure, checkedSub_of_le h.le]
  exact ⟨_, _, rfl⟩

theorem Holds.without {r : Reservation} (h : Holds l s (r :: live) retained) :
    Holds l { s with
      promised := s.promised - r.remaining
      backgroundActive := s.backgroundActive && !r.background } live retained := by
  have hsum := h.promised
  have hcount := h.background
  have hactive := h.active
  have hidle := h.idle
  rw [map_cons, sum_cons] at hsum
  rw [countP_cons] at hcount hactive hidle
  refine ⟨by simp only; omega, fun hf => ?_, h.retained, by omega, ?_, ?_⟩
  · have := h.fits hf
    simp only [Status.used] at this ⊢
    omega
  · intro hpos
    cases hb : r.background with
    | true =>
      simp only [hb, if_true] at hcount
      omega
    | false => simpa using hactive (by omega)
  · intro hf hzero
    cases hb : r.background with
    | true => simp
    | false =>
      simp only [hb] at hidle
      simpa using hidle hf hzero

/-- `Reservation::unknown`: the promise of an outcome that was not measured stays. -/
theorem Holds.unknown {r : Reservation} (h : Holds l s (r :: live) retained) :
    Holds l { s with failed := true } live (retained + r.remaining) := by
  have hsum := h.promised
  have hcount := h.background
  rw [map_cons, sum_cons] at hsum
  rw [countP_cons] at hcount
  refine ⟨by simp only; omega, nofun, nofun, by omega, fun hpos => h.active ?_, nofun⟩
  rw [countP_cons]
  omega

theorem Reservation.drop_spec (hl : l.reserve < l.capacity) {r : Reservation}
    (h : Holds l s (r :: live) retained) :
    ∃ s', r.drop l s = some s' ∧ Holds l s' live retained := by
  have hle : r.remaining ≤ s.promised := by
    rw [h.promised, map_cons, sum_cons]
    omega
  obtain ⟨peakUsed, pressured, hp⟩ := updatePressure_spec hl { s with
    promised := s.promised - r.remaining
    backgroundActive := s.backgroundActive && !r.background }
  rw [drop, checkedSub_of_le hle]
  exact ⟨_, hp, h.without.congr rfl rfl rfl rfl⟩

/-- A new observation is recorded; the account fails if it does not fit. -/
theorem observed_spec (hl : l.reserve < l.capacity) (h : Holds l s live retained)
    (allocated : Nat) :
    ∃ result s', observed l { s with allocated } = some (result, s') ∧
      Holds l s' live retained := by
  obtain ⟨peakUsed, pressured, hp⟩ := updatePressure_spec hl { s with allocated }
  have hsum : ∀ b, Holds l { s with failed := true, allocated, peakUsed, pressured := b } live
      retained := fun _ => ⟨h.promised, nofun, nofun, h.background, h.active, nofun⟩
  rw [observed, hp]
  simp only [Option.bind_eq_bind, Option.bind_some]
  split
  · exact ⟨_, _, rfl, hsum pressured⟩
  · next hfit =>
    exact ⟨_, _, rfl, h.promised, fun _ => Nat.le_of_not_lt hfit, h.retained, h.background, h.active,
      h.idle⟩

theorem Reservation.finish_spec (hl : l.reserve < l.capacity) {r : Reservation}
    (h : Holds l s (r :: live) retained) (previous allocated : Nat) :
    ∃ result s', r.finish l s previous allocated = some (result, s') ∧
      Holds l s' live retained := by
  have hle : r.remaining ≤ s.promised := by
    rw [h.promised, map_cons, sum_cons]
    omega
  obtain ⟨result, s', hs, h'⟩ := observed_spec hl h.without allocated
  rw [finish, checkedSub_of_le hle]
  simp only [Option.bind_eq_bind, Option.bind_some, hs]
  cases result with
  | error e => exact ⟨_, _, rfl, h'⟩
  | ok u =>
    dsimp only
    split
    · exact ⟨_, _, rfl, h'.fail⟩
    · exact ⟨_, _, rfl, h'⟩

/-- What `reserve` refuses. -/
def Refused (l : Limits) (s : Status) (bytes : Nat) (background : Bool) : Prop :=
  bytes = 0 ∨ bytes > (if background then l.capacity else l.capacity - l.reserve) - s.used ∨
    (background = true ∧ (s.backgroundActive = true ∨ bytes > l.reserve)) ∨
    (background = false ∧ s.pressured = true)

/-- Where the account is healthy nothing saturates, so a reservation is refused exactly where it
has to be. -/
theorem reserve_spec (hl : l.reserve < l.capacity) (hf : s.failed = false)
    (hfits : s.used ≤ l.capacity) (bytes : Nat) (background : Bool) :
    (Refused l s bytes background ∧ ∃ e pressured rejected,
      reserve l s bytes background = some (.error e, { s with pressured, rejected })) ∨
    (¬ Refused l s bytes background ∧ ∃ peakUsed pressured,
      reserve l s bytes background = some (.ok ⟨bytes, background⟩, { s with
        promised := s.promised + bytes
        backgroundActive := s.backgroundActive || background
        peakUsed, pressured })) := by
  have hcap := l.bounded
  have hused : saturatingAdd s.allocated s.promised = s.used := by
    simp only [saturatingAdd, Status.used] at hfits ⊢
    omega
  have hlimit : limit l background =
      some (if background then l.capacity else l.capacity - l.reserve) := by
    rw [limit, checkedSub_of_le hl.le]
    cases background <;> rfl
  unfold reserve
  simp only [hused, hlimit, Option.bind_eq_bind, Option.bind_some, hf]
  by_cases hr : Refused l s bytes background
  · refine .inl ⟨hr, ?_⟩
    rw [Refused] at hr
    simp only [Bool.false_eq_true, if_false, Bool.not_eq_true, if_pos hr]
    exact ⟨_, _, _, rfl⟩
  · refine .inr ⟨hr, ?_⟩
    obtain ⟨peakUsed, pressured, hp⟩ := updatePressure_spec hl { s with
      promised := s.promised + bytes
      backgroundActive := s.backgroundActive || background }
    refine ⟨peakUsed, pressured, ?_⟩
    rw [Refused] at hr
    have hadd : checkedAdd s.promised bytes = some (s.promised + bytes) := by
      rw [checkedAdd_eq_some]
      simp only [Status.used] at hfits hr
      refine ⟨rfl, ?_⟩
      split at hr <;> omega
    simp only [Bool.false_eq_true, if_false, Bool.not_eq_true, if_neg hr, hadd, Option.bind_some]
    rw [← hf, hp]
    rfl

theorem reserve_failed (hl : l.reserve < l.capacity) (hf : s.failed = true) (bytes : Nat)
    (background : Bool) : ∃ e, reserve l s bytes background = some (.error e, s) := by
  have hlimit : ∃ n, limit l background = some n := by
    rw [limit, checkedSub_of_le hl.le]
    cases background <;> exact ⟨_, rfl⟩
  obtain ⟨n, hn⟩ := hlimit
  unfold reserve
  simp only [hn, Option.bind_eq_bind, Option.bind_some, hf, if_true]
  exact ⟨_, rfl⟩

theorem Holds.promise (h : Holds l s live retained) {bytes : Nat} {background : Bool}
    (hr : ¬ Refused l s bytes background) (hf : s.failed = false) (peakUsed : Nat)
    (pressured : Bool) :
    Holds l { s with
      promised := s.promised + bytes
      backgroundActive := s.backgroundActive || background
      peakUsed, pressured } (⟨bytes, background⟩ :: live) retained := by
  have hsum := h.promised
  have hcount := h.background
  have hfits := h.fits hf
  rw [Refused] at hr
  refine ⟨by simp only [map_cons, sum_cons]; omega, fun _ => ?_, h.retained, ?_, ?_, ?_⟩
  · simp only [Status.used] at hfits hr ⊢
    split at hr <;> omega
  · cases background with
    | false => simpa using hcount
    | true =>
      -- the flag is down, so no background reservation is live
      have hzero : live.countP Reservation.background = 0 := by
        by_contra hne
        exact hr (.inr (.inr (.inl ⟨rfl, .inl (h.active (Nat.pos_of_ne_zero hne))⟩)))
      simp [hzero]
  · intro hpos
    cases background with
    | false => simpa using h.active (by simpa using hpos)
    | true => simp
  · intro _ hzero
    cases background with
    | false => simpa using h.idle hf (by simpa using hzero)
    | true => simp at hzero

theorem Holds.reserve (hl : l.reserve < l.capacity) (h : Holds l s live retained) (bytes : Nat)
    (background : Bool) :
    (∃ e s', reserve l s bytes background = some (.error e, s') ∧ Holds l s' live retained) ∨
    (∃ s', reserve l s bytes background = some (.ok ⟨bytes, background⟩, s') ∧
      Holds l s' (⟨bytes, background⟩ :: live) retained) := by
  cases hf : s.failed with
  | true =>
    obtain ⟨e, he⟩ := reserve_failed hl hf bytes background
    exact .inl ⟨e, s, he, h⟩
  | false =>
    obtain ⟨-, e, pressured, rejected, he⟩ | ⟨hr, peakUsed, pressured, ho⟩ :=
      reserve_spec hl hf (h.fits hf) bytes background
    · exact .inl ⟨e, _, he, h.congr rfl rfl rfl rfl⟩
    · exact .inr ⟨_, ho, h.promise hr hf peakUsed pressured⟩

end Account

/-! ## Every interleaving -/

namespace Governor

/-- An outcome that was recorded has spent its reservation. -/
structure Inv (l : Limits) (g : Governor) : Prop where
  same : g.limits = l
  limits : g.limits.reserve < g.limits.capacity
  holds : Holds g.limits g.status g.live g.retained
  spent : ∀ a, g.attempt = some a → a.stage ≠ .running → a.reservation = .spent

variable {l : Limits} {g : Governor}

theorem live_perm_cons {i : Nat} {r : Reservation} (hr : g.permits[i]? = some r) :
    g.live.Perm (r :: (g.permits.eraseIdx i ++ (g.attempt.map Attempt.reservation).toList)) := by
  obtain ⟨hi, rfl⟩ := List.getElem?_eq_some_iff.1 hr
  exact ((List.getElem_cons_eraseIdx_perm hi).symm.append_right _)

theorem Inv.permit (h : g.Inv l) (bytes : Nat) (background : Bool) :
    ∃ g', g.permit bytes background = some g' ∧ g'.Inv l := by
  unfold Governor.permit
  obtain ⟨e, s', hs, h'⟩ | ⟨s', hs, h'⟩ := h.holds.reserve h.limits bytes background
  · rw [hs]
    exact ⟨_, rfl, h.same, h.limits, h', h.spent⟩
  · rw [hs]
    exact ⟨_, rfl, h.same, h.limits, h', h.spent⟩

theorem Inv.cancel (h : g.Inv l) (i : Nat) : ∃ g', g.cancel i = some g' ∧ g'.Inv l := by
  unfold Governor.cancel
  cases hr : g.permits[i]? with
  | none => exact ⟨g, rfl, h⟩
  | some r =>
    obtain ⟨s', hs, h'⟩ := Reservation.drop_spec h.limits (h.holds.perm (live_perm_cons hr))
    simp only [hs]
    exact ⟨_, rfl, h.same, h.limits, h', h.spent⟩

theorem Inv.start (h : g.Inv l) (i : Nat) : ∃ g', g.start i = some g' ∧ g'.Inv l := by
  unfold Governor.start
  cases hr : g.permits[i]? with
  | none => exact ⟨g, rfl, h⟩
  | some r =>
    cases ha : g.attempt with
    | some a => exact ⟨g, rfl, h⟩
    | none =>
      dsimp only
      cases g.lock with
      | error e => exact h.cancel i
      | ok u =>
        refine ⟨_, rfl, h.same, h.limits, h.holds.perm ?_, ?_⟩
        · have hp := live_perm_cons hr
          rw [ha] at hp
          simp only [Option.map_none, Option.toList_none, append_nil] at hp
          exact hp.trans (perm_append_singleton r _).symm
        · rintro a ⟨⟩ hrun
          exact absurd rfl hrun

theorem live_perm_attempt {a : Attempt} (ha : g.attempt = some a) :
    g.live.Perm (a.reservation :: g.permits) := by
  rw [live, ha]
  exact perm_append_singleton _ _

theorem Holds.recorded {s : Status} {permits : List Reservation} {retained : Nat}
    (h : Holds l s permits retained) : Holds l s (permits ++ [.spent]) retained :=
  h.spent.perm (perm_append_singleton _ _).symm

theorem Inv.finish (h : g.Inv l) (sample : Except IoError Observation) (panicked : Bool) :
    ∃ g', g.finish sample panicked = some g' ∧ g'.Inv l := by
  unfold Governor.finish
  split
  · next r previous unwound ha =>
    have hr := h.holds.perm (live_perm_attempt ha)
    dsimp only at hr
    dsimp only
    cases g.observe sample with
    | ok sample =>
      obtain ⟨result, s', hs, h'⟩ := Reservation.finish_spec h.limits hr previous sample.allocated
      simp only [hs]
      refine ⟨_, rfl, h.same, h.limits, Holds.recorded h', ?_⟩
      rintro a ⟨⟩ _
      rfl
    | error e =>
      refine ⟨_, rfl, h.same, h.limits, Holds.recorded hr.unknown, ?_⟩
      rintro a ⟨⟩ _
      rfl
  · exact ⟨g, rfl, h⟩

theorem Inv.release (h : g.Inv l) : ∃ g', g.release = some g' ∧ g'.Inv l := by
  unfold Governor.release
  split
  · next r previous panicked ha =>
    obtain ⟨s', hs, h'⟩ :=
      Reservation.drop_spec h.limits (h.holds.perm (live_perm_attempt ha))
    dsimp only at hs
    simp only [hs]
    refine ⟨_, rfl, h.same, h.limits, Holds.recorded h', ?_⟩
    rintro a ⟨⟩ _
    rfl
  · exact ⟨g, rfl, h⟩

theorem Inv.leave (h : g.Inv l) : ∃ g', g.leave = some g' ∧ g'.Inv l := by
  unfold Governor.leave
  split
  · next r previous panicked ha =>
    have hspent : r = .spent := h.spent _ ha nofun
    have hr := h.holds.perm (live_perm_attempt ha)
    dsimp only at hr
    rw [hspent] at hr
    have hp : Holds g.limits g.status g.permits g.retained := by
      refine ⟨?_, hr.fits, hr.retained, ?_, ?_, ?_⟩
      · simpa [Reservation.spent] using hr.promised
      · simpa [Reservation.spent] using hr.background
      · simpa [Reservation.spent] using hr.active
      · simpa [Reservation.spent] using hr.idle
    refine ⟨_, rfl, h.same, h.limits, ?_, nofun⟩
    rw [live, Option.map_none, Option.toList_none, append_nil]
    cases panicked with
    | true => simpa using hp.fail
    | false => simpa using hp
  · exact ⟨g, rfl, h⟩

theorem Inv.refresh (h : g.Inv l) (sample : Except IoError Observation) :
    ∃ g', g.refresh sample = some g' ∧ g'.Inv l := by
  unfold Governor.refresh
  split
  · cases g.observe sample with
    | ok sample =>
      obtain ⟨result, s', hs, h'⟩ := observed_spec h.limits h.holds sample.allocated
      simp only [hs]
      exact ⟨_, rfl, h.same, h.limits, h', h.spent⟩
    | error e => exact ⟨_, rfl, h.same, h.limits, h.holds.fail, h.spent⟩
  · exact ⟨g, rfl, h⟩

theorem progress : Machine.Progress step (Inv l) := by
  intro g op h
  cases op with
  | foreground bytes => exact h.permit bytes false
  | background bytes => exact h.permit bytes true
  | cancel i => exact h.cancel i
  | start i => exact h.start i
  | finish sample panicked => exact h.finish sample panicked
  | release => exact h.release
  | leave => exact h.leave
  | refresh sample => exact h.refresh sample

theorem Inv.of_open {initial : Observation} (h : «open» l initial = some (.ok g)) : g.Inv l := by
  simp only [«open», new] at h
  split at h
  · cases h
  · split at h
    · cases h
    · next hvalid =>
      have hl : l.reserve < l.capacity := by omega
      obtain ⟨peakUsed, pressured, hp⟩ := updatePressure_spec hl
        ⟨initial.allocated, 0, initial.allocated, false, false, 0, false⟩
      simp only [hp, Option.pure_def, Option.bind_eq_bind, Option.bind_some, Option.some.injEq,
        Except.ok.injEq] at h
      subst h
      refine ⟨rfl, hl, ⟨rfl, fun _ => ?_, fun _ => rfl, Nat.zero_le 1, nofun, fun _ _ => rfl⟩, nofun⟩
      simp only [Status.used]
      omega

/-- Whatever the threads do and whatever is observed, the account never gets stuck: the promised
bytes are those of the live reservations and of the outcomes that could not be measured, a healthy
account fits its capacity, at most one background reservation is live, a foreground grant leaves
the reserve alone, and a background request within the reserve is granted where the reserve is
free. -/
theorem accounts {initial : Observation} {g₀ : Governor}
    (hopen : «open» l initial = some (.ok g₀)) (ops : List Op) :
    ∃ g, Machine.run step g₀ ops = some g ∧
      g.status.promised = (g.live.map Reservation.remaining).sum + g.retained ∧
      (g.status.failed = false →
        g.retained = 0 ∧ g.status.allocated + g.status.promised ≤ l.capacity) ∧
      g.live.countP Reservation.background ≤ 1 ∧
      (∀ bytes r s, reserve l g.status bytes false = some (.ok r, s) →
        s.allocated + s.promised ≤ l.capacity - l.reserve) ∧
      (∀ bytes, 1 ≤ bytes → bytes ≤ l.reserve → g.status.failed = false →
        g.live.countP Reservation.background = 0 →
        g.status.allocated + g.status.promised ≤ l.capacity - l.reserve →
        ∃ s, reserve l g.status bytes true = some (.ok ⟨bytes, true⟩, s)) := by
  obtain ⟨g, hrun, rfl, hl, h, -⟩ := progress.run ops (Inv.of_open hopen)
  refine ⟨g, hrun, h.promised, fun hf => ⟨h.retained hf, h.fits hf⟩, h.background, ?_, ?_⟩
  · intro bytes r s hs
    cases hf : g.status.failed with
    | true =>
      obtain ⟨e, he⟩ := reserve_failed hl hf bytes false
      rw [he] at hs
      cases hs
    | false =>
      obtain ⟨-, e, pressured, rejected, he⟩ | ⟨hr, peakUsed, pressured, ho⟩ :=
        reserve_spec hl hf (h.fits hf) bytes false
      · rw [he] at hs
        cases hs
      · rw [ho] at hs
        cases hs
        simp only [Refused, Status.used, Bool.false_eq_true, if_false] at hr
        simp only
        omega
  · intro bytes hpos hle hf hnone hfree
    have hidle := h.idle hf hnone
    obtain ⟨hr, -⟩ | ⟨-, peakUsed, pressured, ho⟩ := reserve_spec hl hf (h.fits hf) bytes true
    · simp only [Refused, Status.used, hidle, Bool.false_eq_true, if_true] at hr
      obtain hr | hr | ⟨-, hr | hr⟩ | ⟨hr, -⟩ := hr
      · omega
      · omega
      · cases hr
      · omega
      · cases hr
    · exact ⟨_, ho⟩

/-- A hundred bytes with a reserve of twenty, ten of them allocated. -/
def sampleLimits : Limits := ⟨100, 20, by decide⟩

def sampleDomain : Domain := ⟨1, 7, 100, 1⟩

def sampleOpened : Governor :=
  ⟨sampleLimits, sampleDomain, ⟨10, 0, 10, false, false, 0, false⟩, [], none, false, 0⟩

/-- A foreground operation ends while a background permit waits. -/
theorem accounts_two_permits :
    «open» sampleLimits ⟨sampleDomain, 10⟩ = some (.ok sampleOpened) ∧
    ∃ g, Machine.run step sampleOpened
        [.foreground 30, .background 20, .start 1, .finish (.ok ⟨sampleDomain, 25⟩) false,
          .release, .leave] = some g ∧
      g.status.promised = (g.live.map Reservation.remaining).sum + g.retained := by
  have hopen : «open» sampleLimits ⟨sampleDomain, 10⟩ = some (.ok sampleOpened) := rfl
  obtain ⟨g, hrun, hsum, -⟩ := accounts hopen
    [.foreground 30, .background 20, .start 1, .finish (.ok ⟨sampleDomain, 25⟩) false, .release,
      .leave]
  exact ⟨hopen, g, hrun, hsum⟩

end Governor

end Cas.Space
