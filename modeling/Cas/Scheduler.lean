import Cas.Encoding
import Cas.Lib.Ring
import Mathlib.Data.List.Infix

/-!
# Bulk IO opportunities (`scheduler.rs`)

Images with ready bulk IO and the compactor share submission opportunities: the images in turn, and
every fourth opportunity the compactor, or whoever else is ready. Every method takes the scheduler's
lock once; the compactor waits in rounds, one each time it is woken up.
-/

namespace Cas.Scheduler

open List

inductive Selected
  | demand (image : Nat)
  | background
  deriving DecidableEq, Repr

/-- `wake`: an event descriptor is bound. -/
structure Image where
  ready : Bool
  wake : Bool
  deriving DecidableEq, Repr

structure Counters where
  demand : Nat
  background : Nat
  borrowedDemand : Nat
  borrowedBackground : Nat
  demandRequestedBytes : Nat
  backgroundRequestedBytes : Nat
  deriving DecidableEq, Repr

structure State where
  images : List Image
  nextImage : Nat
  opportunity : Nat
  backgroundReady : Bool
  counters : Counters
  deriving DecidableEq, Repr

namespace State

def new (images : Nat) : Except IoError State :=
  if images = 0 then .error ⟨.invalidInput, "invalid input parameter"⟩
  else .ok ⟨List.replicate images ⟨false, false⟩, 0, 0, false, ⟨0, 0, 0, 0, 0, 0⟩⟩

/-- An image that has bulk IO to submit. -/
def isReady (s : State) (image : Nat) : Bool := (s.images[image]?.map (·.ready)).getD false

/-- The first ready image, from the next one on. -/
def demand (s : State) : Option Nat :=
  ((List.range s.images.length).map fun offset =>
    (s.nextImage + offset) % s.images.length).find? s.isReady

def selected (s : State) : Option Selected :=
  if s.backgroundReady = true ∧ (s.opportunity = 0 ∨ s.demand = none) then some .background
  else s.demand.map .demand

def setReady (s : State) (image : Nat) (ready : Bool) : State :=
  { s with images := s.images.modify image fun i => { i with ready } }

def grant (s : State) (selected : Selected) (bytes : Nat) : State :=
  match selected with
  | .demand image =>
    { s.setReady image false with
      nextImage := (image + 1) % s.images.length
      counters := { s.counters with
        demand := s.counters.demand + 1
        demandRequestedBytes := s.counters.demandRequestedBytes + bytes
        borrowedDemand := s.counters.borrowedDemand + if s.opportunity = 0 then 1 else 0 }
      opportunity := (s.opportunity + 1) % 4 }
  | .background =>
    { s with
      backgroundReady := false
      counters := { s.counters with
        background := s.counters.background + 1
        backgroundRequestedBytes := s.counters.backgroundRequestedBytes + bytes
        borrowedBackground := s.counters.borrowedBackground + if s.opportunity ≠ 0 then 1 else 0 }
      opportunity := (s.opportunity + 1) % 4 }

/-- A candidate that can be woken up. -/
def bound (s : State) : Selected → Bool
  | .background => true
  | .demand image => (s.images[image]?.map (·.wake)).getD false

/-- Whom `notify` wakes up. -/
def notify (s : State) : Option Selected := s.selected.filter s.bound

/-- What one method does: the new state, who was granted an opportunity, and who was notified. -/
structure Outcome where
  state : State
  granted : Option Selected
  notified : Option Selected

/-- Nothing is granted or notified. -/
def silent (s : State) : Outcome := ⟨s, none, none⟩

def bind (s : State) (image : Nat) : Outcome :=
  match s.images[image]? with
  | some ⟨_, false⟩ => silent { s with images := s.images.modify image fun i => { i with wake := true } }
  | _ => s.silent

/-- `Port::ready`. -/
def ready (s : State) (image : Nat) (ready : Bool) : Outcome :=
  let s := s.setReady image ready
  ⟨s, none, s.notify⟩

/-- `Port::take`. -/
def take (s : State) (image bytes : Nat) (moreReady : Bool) : Outcome :=
  if s.selected = some (.demand image) then
    let s := (s.grant (.demand image) bytes).setReady image moreReady
    ⟨s, some (.demand image), s.notify⟩
  else s.silent

/-- One round of the compactor's wait. -/
def round (s : State) (bytes : Nat) (expired notifyFails : Bool) : Outcome :=
  if s.selected = some .background then
    let s := s.grant .background bytes
    ⟨s, some .background, s.notify⟩
  else if expired then
    let s := { s with backgroundReady := false }
    ⟨s, none, s.notify⟩
  else if notifyFails then ⟨{ s with backgroundReady := false }, none, s.notify⟩
  else ⟨s, none, s.notify⟩

/-- `wait_background` until its first wait; there is one compactor at a time. -/
def waitBackground (s : State) (bytes : Nat) (expired notifyFails : Bool) : Outcome :=
  if s.backgroundReady then s.silent
  else round { s with backgroundReady := true } bytes expired notifyFails

inductive Action
  | bind (image : Nat)
  | ready (image : Nat) (ready : Bool)
  | take (image bytes : Nat) (moreReady : Bool)
  | waitBackground (bytes : Nat) (expired notifyFails : Bool)
  /-- The waiting compactor wakes up. -/
  | round (bytes : Nat) (expired notifyFails : Bool)
  deriving DecidableEq, Repr

def step (s : State) : Action → Outcome
  | .bind image => s.bind image
  | .ready image ready => s.ready image ready
  | .take image bytes moreReady => s.take image bytes moreReady
  | .waitBackground bytes expired fails => s.waitBackground bytes expired fails
  | .round bytes expired fails => if s.backgroundReady then s.round bytes expired fails else s.silent

def after (s : State) : List Action → State
  | [] => s
  | a :: l => (s.step a).state.after l

/-- The opportunities granted to images. -/
def demandGrants (s : State) : List Action → List Nat
  | [] => []
  | a :: l =>
    match (s.step a).granted with
    | some (.demand image) => image :: (s.step a).state.demandGrants l
    | _ => (s.step a).state.demandGrants l

/-- States that a scheduler of `n` images can be in. -/
def Reachable (n : Nat) (s : State) : Prop := ∃ s₀ past, new n = .ok s₀ ∧ s = s₀.after past

/-- The candidate's own attempt is the one that succeeds. -/
def Grantable (s : State) : Selected → Prop
  | .demand image =>
    s.isReady image = true ∧ ∀ bytes more, (s.take image bytes more).granted = some (.demand image)
  | .background =>
    s.backgroundReady = true ∧
      ∀ bytes expired fails, (s.round bytes expired fails).granted = some .background

theorem demand_eq_some {s : State} {i : Nat} (h : s.demand = some i) :
    ∃ o < s.images.length, (s.nextImage + o) % s.images.length = i ∧ s.isReady i = true ∧
      ∀ p < o, s.isReady ((s.nextImage + p) % s.images.length) = false := by
  rw [demand, find?_map, Option.map_eq_some_iff] at h
  obtain ⟨o, ho, rfl⟩ := h
  obtain ⟨hr, hm, hp⟩ := find?_range_eq_some.1 ho
  exact ⟨o, mem_range.1 hm, rfl, hr, fun p hlt => by simpa using hp p hlt⟩

theorem isReady_lt {s : State} {i : Nat} (h : s.isReady i = true) : i < s.images.length := by
  by_contra hlt
  simp [isReady, List.getElem?_eq_none (Nat.le_of_not_lt hlt)] at h

theorem demand_ne_none {s : State} {i : Nat} (h : s.isReady i = true) : s.demand ≠ none := by
  intro hn
  obtain ⟨o, ho, rfl⟩ := Ring.exists_offset s.nextImage (isReady_lt h)
  rw [demand, find?_eq_none] at hn
  exact hn _ (mem_map.2 ⟨o, mem_range.2 ho, rfl⟩) h

theorem selected_demand {s : State} {i : Nat} (h : s.selected = some (.demand i)) :
    s.demand = some i ∧ (s.backgroundReady = true → s.opportunity ≠ 0) := by
  rw [selected] at h
  split at h
  · cases h
  · next hb =>
    refine ⟨?_, fun hr h0 => hb ⟨hr, .inl h0⟩⟩
    obtain ⟨j, hj, hji⟩ := Option.map_eq_some_iff.1 h
    cases hji
    exact hj

theorem selected_background {s : State} (h : s.selected = some .background) :
    s.backgroundReady = true := by
  rw [selected] at h
  split at h
  · next hb => exact hb.1
  · obtain ⟨_, _, hj⟩ := Option.map_eq_some_iff.1 h
    cases hj

theorem selected_of_ready {s : State}
    (h : s.backgroundReady = true ∨ ∃ i, s.isReady i = true) : ∃ c, s.selected = some c := by
  rw [selected]
  split
  · exact ⟨_, rfl⟩
  · next hb =>
    -- The compactor is passed over only for an image.
    have hd : s.demand ≠ none := by
      rcases h with h | ⟨i, h⟩
      · exact fun hn => hb ⟨h, .inr hn⟩
      · exact demand_ne_none h
    obtain ⟨i, hi⟩ := Option.ne_none_iff_exists'.1 hd
    exact ⟨.demand i, by rw [hi]; rfl⟩

theorem grantable_iff {s : State} {c : Selected} : s.Grantable c ↔ s.selected = some c := by
  cases c with
  | demand i =>
    constructor
    · intro h
      by_contra hn
      have hg := h.2 0 false
      rw [take, if_neg hn] at hg
      cases hg
    · intro h
      obtain ⟨_, -, -, hr, -⟩ := demand_eq_some (selected_demand h).1
      exact ⟨hr, fun bytes more => by rw [take, if_pos h]⟩
  | background =>
    constructor
    · intro h
      by_contra hn
      have hg := h.2 0 true false
      rw [round, if_neg hn] at hg
      cases hg
    · exact fun h => ⟨selected_background h, fun bytes expired fails => by rw [round, if_pos h]⟩

/-- What a method does to the turns: they pass to whoever it grants an opportunity. -/
inductive Turn (s : State) (r : Outcome) : Prop
  | kept (granted : r.granted = none) (opportunity : r.state.opportunity = s.opportunity)
      (next : r.state.nextImage = s.nextImage)
  | demand (i : Nat) (granted : r.granted = some (.demand i))
      (selected : s.selected = some (.demand i))
      (opportunity : r.state.opportunity = (s.opportunity + 1) % 4)
      (next : r.state.nextImage = (i + 1) % s.images.length)
  | background (granted : r.granted = some .background)
      (ready : r.state.backgroundReady = false)
      (opportunity : r.state.opportunity = (s.opportunity + 1) % 4)
      (next : r.state.nextImage = s.nextImage)

/-- A round looks at the compactor's own readiness and nobody else's. -/
theorem turn_round (s : State) (ready : Bool) (bytes : Nat) (expired fails : Bool) :
    Turn s (round { s with backgroundReady := ready } bytes expired fails) := by
  rw [round]
  split
  · exact .background rfl rfl rfl rfl
  · split
    · exact .kept rfl rfl rfl
    · split <;> exact .kept rfl rfl rfl

theorem turn_step (s : State) (a : Action) : Turn s (s.step a) := by
  cases a with
  | bind i =>
    rw [step, bind]
    split <;> exact .kept rfl rfl rfl
  | ready i r => exact .kept rfl rfl rfl
  | take i bytes more =>
    rw [step, take]
    split
    · next h => exact .demand i rfl h rfl rfl
    · exact .kept rfl rfl rfl
  | waitBackground bytes expired fails =>
    rw [step, waitBackground]
    split
    · exact .kept rfl rfl rfl
    · exact turn_round s true bytes expired fails
  | round bytes expired fails =>
    rw [step]
    split
    · exact turn_round s s.backgroundReady bytes expired fails
    · exact .kept rfl rfl rfl

theorem length_round (s : State) (bytes : Nat) (expired fails : Bool) :
    (s.round bytes expired fails).state.images.length = s.images.length := by
  rw [round]
  split
  · rfl
  · split
    · rfl
    · split <;> rfl

theorem length_step (s : State) (a : Action) :
    (s.step a).state.images.length = s.images.length := by
  cases a with
  | bind i =>
    rw [step, bind]
    split
    · exact length_modify ..
    · rfl
  | ready i r => exact length_modify ..
  | take i bytes more =>
    rw [step, take]
    split
    · exact (length_modify ..).trans (length_modify ..)
    · rfl
  | waitBackground bytes expired fails =>
    rw [step, waitBackground]
    split
    · rfl
    · exact length_round ..
  | round bytes expired fails =>
    rw [step]
    split
    · exact length_round ..
    · rfl

/-- A scheduler of `n` images, between its methods. -/
structure Wf (n : Nat) (s : State) : Prop where
  length : s.images.length = n
  next : s.nextImage < n
  opportunity : s.opportunity < 4

namespace Wf

variable {n : Nat} {s : State}

theorem step (h : Wf n s) (a : Action) : Wf n (s.step a).state := by
  have hl := (length_step s a).trans h.length
  have hn : 0 < n := Nat.zero_lt_of_lt h.next
  have ho : (s.opportunity + 1) % 4 < 4 := Nat.mod_lt _ (by decide)
  cases turn_step s a with
  | kept _ hopp hnext => exact ⟨hl, hnext ▸ h.next, hopp ▸ h.opportunity⟩
  | demand i _ _ hopp hnext =>
    exact ⟨hl, by rw [hnext, h.length]; exact Nat.mod_lt _ hn, hopp ▸ ho⟩
  | background _ _ hopp hnext => exact ⟨hl, hnext ▸ h.next, hopp ▸ ho⟩

theorem after (h : Wf n s) (actions : List Action) : Wf n (s.after actions) := by
  induction actions generalizing s with
  | nil => exact h
  | cons a l ih => exact ih (h.step a)

theorem new (h : State.new n = .ok s) : Wf n s := by
  rw [State.new] at h
  split at h
  · cases h
  · next h0 =>
    cases h
    exact ⟨length_replicate, Nat.pos_of_ne_zero h0, Nat.zero_lt_succ 3⟩

theorem of_reachable (h : Reachable n s) : Wf n s := by
  obtain ⟨s₀, past, hnew, rfl⟩ := h
  exact (new hnew).after past

end Wf

/-- Opportunities until the compactor's turn. -/
def untilBackground (s : State) : Nat := (4 - s.opportunity) % 4

theorem untilBackground_step {n : Nat} {s : State} (h : Wf n s) {a : Action} {i : Nat}
    (hb : s.backgroundReady = true) (hg : (s.step a).granted = some (.demand i)) :
    (s.step a).state.untilBackground + 1 = s.untilBackground := by
  have ho := h.opportunity
  cases turn_step s a with
  | kept hn => rw [hg] at hn; cases hn
  | background hn => rw [hg] at hn; cases hn
  | demand j _ hs hopp _ =>
    have h0 := (selected_demand hs).2 hb
    rw [untilBackground, untilBackground, hopp]
    omega

/-- While the compactor is ready, images are granted at most the opportunities before its turn. -/
theorem demandGrants_background {n : Nat} {s : State} (h : Wf n s) (actions : List Action)
    (ready : ∀ p, p <+: actions → (s.after p).backgroundReady = true) :
    (s.demandGrants actions).length ≤ s.untilBackground := by
  induction actions generalizing s with
  | nil => exact Nat.zero_le _
  | cons a l ih =>
    have hs : s.backgroundReady = true := ready [] nil_prefix
    have hl : ∀ p, p <+: l → ((s.step a).state.after p).backgroundReady = true :=
      fun p hp => ready (a :: p) ((prefix_cons_inj a).2 hp)
    have hih := ih (h.step a) hl
    rw [demandGrants]
    split
    · next i hg =>
      rw [← untilBackground_step h hs hg]
      exact Nat.succ_le_succ hih
    · next hg =>
      cases turn_step s a with
      | kept _ hopp _ => rwa [untilBackground, hopp] at hih
      | demand i hd => exact absurd hd (hg i)
      | background _ hr =>
        -- A grant would have taken the compactor's readiness back.
        have := hl [] nil_prefix
        rw [after, hr] at this
        cases this

/-- An image granted an opportunity comes no later than a ready one, which moves up behind it. -/
theorem offset_step {n : Nat} {s : State} (h : Wf n s) {i j d : Nat} (hd : d < n)
    (hi : (s.nextImage + d) % n = i) (ready : s.isReady i = true) (hj : s.demand = some j)
    (hne : j ≠ i) : ∃ e, e + 1 ≤ d ∧ ((j + 1) % n + e) % n = i := by
  obtain ⟨o, ho, rfl, -, hbefore⟩ := demand_eq_some hj
  rw [h.length] at ho hbefore hne ⊢
  have hlt : o < d := by
    rcases lt_trichotomy o d with hlt | rfl | hlt
    · exact hlt
    · exact absurd hi hne
    · have := hbefore d hlt
      rw [hi, ready] at this
      cases this
  refine ⟨d - o - 1, by omega, ?_⟩
  rw [← hi, Nat.mod_add_mod, add_assoc, Nat.mod_add_mod]
  congr 1
  omega

/-- While an image is ready, other images are granted at most the opportunities before its turn. -/
theorem demandGrants_image {n : Nat} {s : State} (h : Wf n s) {i d : Nat} (hd : d < n)
    (hi : (s.nextImage + d) % n = i) (actions : List Action)
    (ready : ∀ p, p <+: actions → (s.after p).isReady i = true)
    (hne : i ∉ s.demandGrants actions) : (s.demandGrants actions).length ≤ d := by
  induction actions generalizing s d with
  | nil => exact Nat.zero_le _
  | cons a l ih =>
    have hs : s.isReady i = true := ready [] nil_prefix
    have hl : ∀ p, p <+: l → ((s.step a).state.after p).isReady i = true :=
      fun p hp => ready (a :: p) ((prefix_cons_inj a).2 hp)
    rw [demandGrants] at hne ⊢
    cases turn_step s a with
    | kept hg _ hnext =>
      rw [hg] at hne ⊢
      exact ih (h.step a) hd (hnext ▸ hi) hl hne
    | background hg _ _ hnext =>
      rw [hg] at hne ⊢
      exact ih (h.step a) hd (hnext ▸ hi) hl hne
    | demand j hg hsel _ hnext =>
      rw [hg] at hne ⊢
      obtain ⟨hji, hrest⟩ := not_or.1 (mt mem_cons.2 hne)
      obtain ⟨e, hed, hei⟩ := offset_step h hd hi hs (selected_demand hsel).1 (Ne.symm hji)
      rw [← h.length, ← hnext, h.length] at hei
      exact (Nat.succ_le_succ (ih (h.step a) (by omega) hei hl hrest)).trans hed

/-- A compactor that is not selected may leave: the selected image stays the same. -/
theorem selected_leave {s : State} (h : s.selected ≠ some .background) :
    selected { s with backgroundReady := false } = s.selected := by
  have hb : ¬(s.backgroundReady = true ∧ (s.opportunity = 0 ∨ s.demand = none)) :=
    fun hb => h (by rw [selected, if_pos hb])
  rw [selected, selected, if_neg hb, if_neg (fun h => Bool.false_ne_true h.1)]
  rfl

theorem notified_round (s : State) (bytes : Nat) (expired fails : Bool) :
    (s.round bytes expired fails).notified = (s.round bytes expired fails).state.notify := by
  rw [round]
  split
  · rfl
  · next h =>
    split
    · rfl
    · split
      · exact (congrArg (Option.filter s.bound) (selected_leave h)).symm
      · rfl

theorem isReady_bind (s : State) (i j : Nat) : (s.bind i).state.isReady j = s.isReady j := by
  rw [bind]
  split
  · rw [isReady, isReady, silent, getElem?_modify]
    cases s.images[j]? with
    | none => rfl
    | some image => split <;> rfl
  · rfl

theorem selected_bind (s : State) (i : Nat) : (s.bind i).state.selected = s.selected := by
  have hl : (s.bind i).state.images.length = s.images.length := length_step s (.bind i)
  have hr : (s.bind i).state.isReady = s.isReady := funext (isReady_bind s i)
  have hd : (s.bind i).state.demand = s.demand := by
    rw [demand, demand, hl, hr]
    rw [bind]
    split <;> rfl
  rw [selected, selected, hd]
  rw [bind]
  split <;> rfl

/-- Whom a method notifies: the candidate it leaves selected, or nobody if that is still the one
that was selected before. -/
theorem notified_step (s : State) (a : Action) :
    (s.step a).notified = (s.step a).state.notify ∨
      ((s.step a).notified = none ∧ (s.step a).granted = none ∧
        (s.step a).state.selected = s.selected) := by
  cases a with
  | bind i =>
    refine .inr ⟨?_, ?_, selected_bind s i⟩ <;>
    · rw [step, bind]
      split <;> rfl
  | ready i r => exact .inl rfl
  | take i bytes more =>
    rw [step, take]
    split
    · exact .inl rfl
    · exact .inr ⟨rfl, rfl, rfl⟩
  | waitBackground bytes expired fails =>
    rw [step, waitBackground]
    split
    · exact .inr ⟨rfl, rfl, rfl⟩
    · exact .inl (notified_round ..)
  | round bytes expired fails =>
    rw [step]
    split
    · exact .inl (notified_round ..)
    · exact .inr ⟨rfl, rfl, rfl⟩

/-- Nobody who stays ready is passed over for long. In every reachable state of a scheduler of `n`
images, and for every sequence of methods from there on: while the compactor stays ready at most
three opportunities go to images; while an image stays ready and is granted none, at most `n - 1` go
to the other images. Whenever anybody is ready exactly one attempt would succeed, that of the
selected candidate, and a method that may have changed the selection notifies the new one, unless it
is an image that nothing is bound to. -/
theorem bounded_bypass {n : Nat} {s : State} (h : Reachable n s) :
    (∀ actions, (∀ p, p <+: actions → (s.after p).backgroundReady = true) →
      (s.demandGrants actions).length ≤ 3) ∧
    (∀ actions i, (∀ p, p <+: actions → (s.after p).isReady i = true) →
      i ∉ s.demandGrants actions → (s.demandGrants actions).length ≤ n - 1) ∧
    ((s.backgroundReady = true ∨ ∃ i, s.isReady i = true) →
      ∃! c, s.Grantable c ∧ s.selected = some c) ∧
    (∀ c, s.Grantable c ↔ s.selected = some c) ∧
    (∀ a, (s.step a).notified = (s.step a).state.selected.filter (s.step a).state.bound ∨
      ((s.step a).notified = none ∧ (s.step a).granted = none ∧
        (s.step a).state.selected = s.selected)) := by
  have hwf := Wf.of_reachable h
  refine ⟨fun actions ready => ?_, fun actions i ready hne => ?_, fun ready => ?_,
    fun c => grantable_iff, notified_step s⟩
  · have hle := demandGrants_background hwf actions ready
    have hlt : s.untilBackground < 4 := Nat.mod_lt _ (by decide)
    omega
  · have hi : i < n := hwf.length ▸ isReady_lt (ready [] List.nil_prefix)
    obtain ⟨d, hd, hdi⟩ := Ring.exists_offset s.nextImage hi
    have hle := demandGrants_image hwf hd hdi actions ready hne
    omega
  · obtain ⟨c, hc⟩ := selected_of_ready ready
    refine ⟨c, ⟨grantable_iff.2 hc, hc⟩, ?_⟩
    rintro c' ⟨-, hc'⟩
    exact Option.some.inj (hc'.symm.trans hc)

/-- The compactor has just had its turn and waits again; image 1 stays ready all along. -/
theorem bounded_bypass_three :
    ∃ s : State, s.Reachable 2 ∧
      (s.demandGrants [.take 0 4096 true, .take 1 4096 true, .take 0 4096 true]).length ≤ 3 := by
  let run : List Action := [.waitBackground 4096 false false, .ready 0 true, .ready 1 true,
    .waitBackground 4096 false false]
  let s₀ : State := ⟨List.replicate 2 ⟨false, false⟩, 0, 0, false, ⟨0, 0, 0, 0, 0, 0⟩⟩
  have hr : Reachable 2 (s₀.after run) := ⟨s₀, run, rfl, rfl⟩
  refine ⟨s₀.after run, hr, (bounded_bypass hr).1 _ ?_⟩
  intro p hp
  rw [← List.mem_inits] at hp
  revert p
  decide

end State

end Cas.Scheduler
