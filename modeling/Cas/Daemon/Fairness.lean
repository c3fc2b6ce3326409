import Cas.Daemon.Turns
import Mathlib.Algebra.Order.Ring.Int

/-!
# Byte fairness of admission

Two images that always have something to admit are visited in turn. An image that is visited gains
one quantum, unless its deficit pays for the first request already, which can be so at the first
visit of a run only: a visit ends when the deficit does not pay. So what two images were admitted,
with their deficits, differs by what the one whose turn comes next will gain.
-/

namespace Cas.Fair

open List

namespace State

variable {n : Nat} {s t u : State n} {i j k : Fin n}

/-- The image whose visit starts next. -/
def next (s : State n) : Nat := if s.replenish then s.cursor else (s.cursor + 1) % n

/-- The quantum that an image is ahead by, once it was visited and the other not yet. -/
def ahead (s : State n) (i j : Fin n) : Nat :=
  if Ring.distance n s.next j < Ring.distance n s.next i then QUANTUM else 0

/-- The quantum that an image does not gain at its next visit, as its deficit pays already. -/
def skips (s : State n) (i : Fin n) : Nat :=
  if (s.cursor = i → s.replenish = true) ∧
      (s.eligible i).any (fun r => r.bytes ≤ (s.images i).deficit) = true then QUANTUM
  else 0

/-- What an image was admitted or may still be, apart from the quantum it does not gain. -/
def credit (s : State n) (i : Fin n) : Int :=
  (s.images i).admittedBytes + (s.images i).deficit - s.skips i

/-- A visit of the image starts. -/
def gains (s : State n) (i : Fin n) : Nat := if s.cursor = i ∧ s.replenish = true then QUANTUM else 0

theorem skips_visiting (hc : s.cursor = i) (hr : s.replenish = false) : s.skips i = 0 :=
  if_neg fun h => Bool.false_ne_true (hr.symm.trans (h.1 hc))

theorem skips_congr (hs : s.cursor = i → s.replenish = true) (ht : t.cursor = i → t.replenish = true)
    (he : t.eligible i = s.eligible i) (hd : (t.images i).deficit = (s.images i).deficit) :
    t.skips i = s.skips i :=
  if_congr (and_congr (iff_of_true ht hs) (by rw [he, hd])) rfl rfl

theorem skips_le (s : State n) (i : Fin n) : s.skips i ≤ QUANTUM := by
  rw [skips]
  split
  · exact le_refl _
  · exact Nat.zero_le _

theorem ahead_le (s : State n) (i j : Fin n) : s.ahead i j ≤ QUANTUM := by
  rw [ahead]
  split
  · exact le_refl _
  · exact Nat.zero_le _

theorem Moved.admitted (h : Moved s t) (i : Fin n) :
    (t.images i).admittedBytes = (s.images i).admittedBytes := by
  rw [h.image i]

/-- A step of the scheduler as an image sees it: its credit rises by what it gains, and it does not
skip a gain that it would not have skipped before. -/
structure Gains (s t : State n) (i : Fin n) (gain : Nat) : Prop where
  credit : t.credit i = s.credit i + gain
  skips : t.skips i ≤ s.skips i

theorem Gains.of_same (hs : s.cursor = i → s.replenish = true) (ht : t.cursor = i → t.replenish = true)
    (he : t.eligible i = s.eligible i) (hi : t.images i = s.images i) : Gains s t i 0 := by
  have hk := skips_congr hs ht he (congrArg Image.deficit hi)
  exact ⟨by rw [State.credit, State.credit, hi, hk, Nat.cast_zero, add_zero], hk.le⟩

/-- The image at the cursor, after the visit began or went on. -/
theorem Gains.visit {r : Request} (he : s.eligible s.cursor = some r)
    (hd : (t.images s.cursor).deficit = s.visited r)
    (ha : (t.images s.cursor).admittedBytes = (s.images s.cursor).admittedBytes)
    (hk : t.skips s.cursor = 0) : Gains s t s.cursor (s.gains s.cursor) := by
  refine ⟨?_, hk ▸ Nat.zero_le _⟩
  rw [State.credit, State.credit, hk, hd, ha, visited, gains, State.skips, he, Option.any_some]
  by_cases hr : s.replenish = true
  · by_cases hp : r.bytes ≤ (s.images s.cursor).deficit
    · rw [if_neg (fun h => not_lt.2 hp h.2), if_pos ⟨fun _ => hr, decide_eq_true hp⟩,
        if_pos ⟨rfl, hr⟩]
      omega
    · rw [if_pos ⟨hr, Nat.lt_of_not_le hp⟩, if_neg (fun h => hp (of_decide_eq_true h.2)),
        if_pos ⟨rfl, hr⟩]
      omega
  · rw [if_neg (fun h => hr h.1), if_neg (fun h => hr (h.1 rfl)), if_neg (fun h => hr h.2)]
    omega

theorem Pass.gains {g : Option (Grant n)} (h : Pass s g t) {r : Request}
    (he : s.eligible i = some r) : Gains s t i (s.gains i) := by
  have hm := h.moved
  by_cases hi : s.cursor = i
  · subst hi
    cases h with
    | idle hn =>
      rw [he] at hn
      cases hn
    | paid r' he' _ =>
      refine .visit he' ?_ (hm.admitted _) (skips_visiting rfl rfl)
      rw [State.visit, modify_images_self]
    | short r' he' hs =>
      have hd : ((s.visit r').advance.images s.cursor).deficit = s.visited r' := by
        rw [advance, State.visit, modify_images_self]
      refine .visit he' hd (hm.admitted _) (if_neg fun hk => ?_)
      rw [hm.eligible, he', Option.any_some, hd] at hk
      exact absurd (of_decide_eq_true hk.2) (not_le.2 hs)
  · rw [State.gains, if_neg (fun h => hi h.1)]
    have hne := Ne.symm hi
    refine .of_same (absurd · hi) ?_ (hm.eligible i) ?_
    · cases h with
      | idle _ => exact fun _ => rfl
      | paid _ _ _ => exact (absurd · hi)
      | short _ _ _ => exact fun _ => rfl
    · cases h with
      | idle _ => exact Function.update_of_ne hne ..
      | paid _ _ _ => exact Function.update_of_ne hne ..
      | short _ _ _ => exact Function.update_of_ne hne ..

theorem Pass.next {g : Option (Grant n)} (h : Pass s g t) : t.next = (s.cursor + 1) % n := by
  cases h <;> rfl

theorem Pass.ahead {g : Option (Grant n)} (h : Pass s g t) (hij : i ≠ j) :
    t.ahead i j + s.gains j = s.ahead i j + s.gains i := by
  have hne : (i : Nat) ≠ j := fun h => hij (Fin.ext h)
  rw [State.ahead, State.ahead, h.next]
  by_cases hr : s.replenish = true
  · have hs : s.next = s.cursor := if_pos hr
    have hlt := Ring.distance_lt_succ s.cursor.isLt i.isLt j.isLt hne
    rw [hs]
    by_cases hi : s.cursor = i
    · -- It is last now, and was first before.
      subst hi
      have hgi : s.gains s.cursor = QUANTUM := if_pos ⟨rfl, hr⟩
      have hgj : s.gains j = 0 := if_neg fun h => hij h.1
      rw [hgi, hgj, if_pos (hlt.2 ⟨hne.symm, .inl rfl⟩), Ring.distance_self,
        if_neg (Nat.not_lt_zero _), add_zero, zero_add]
    · have hgi : s.gains i = 0 := if_neg fun h => hi h.1
      have hi' : (i : Nat) ≠ s.cursor := fun h => hi (Fin.ext h).symm
      by_cases hj : s.cursor = j
      · subst hj
        have hgj : s.gains s.cursor = QUANTUM := if_pos ⟨rfl, hr⟩
        have hpos : 0 < Ring.distance n s.cursor i := by
          rw [← Ring.distance_succ s.cursor.isLt i.isLt hi']
          exact Nat.zero_lt_succ _
        rw [hgi, hgj, if_neg (fun h => (hlt.1 h).1 rfl), Ring.distance_self, if_pos hpos,
          add_zero, zero_add]
      · have hgj : s.gains j = 0 := if_neg fun h => hj h.1
        have hj' : (j : Nat) ≠ s.cursor := fun h => hj (Fin.ext h).symm
        rw [hgi, hgj]
        refine congrArg (· + 0) (if_congr (hlt.trans ?_) rfl rfl)
        rw [and_iff_right hj', or_iff_right hi']
  · have hs : s.next = (s.cursor + 1) % n := if_neg hr
    have hg (k : Fin n) : s.gains k = 0 := if_neg fun h => hr h.2
    rw [hs, hg, hg]

/-- How far one image is before another, counted at the same point of their turns. -/
def lead (s : State n) (i j : Fin n) : Int := s.credit i - s.credit j - s.ahead i j

/-- The lead of one image over another stays, and none of them skips a gain anew. -/
structure Level (i j : Fin n) (s t : State n) : Prop where
  lead : t.lead i j = s.lead i j
  left : t.skips i ≤ s.skips i
  right : t.skips j ≤ s.skips j

namespace Level

theorem refl (s : State n) : Level i j s s := ⟨rfl, le_refl _, le_refl _⟩

theorem trans (h : Level i j s t) (h' : Level i j t u) : Level i j s u :=
  ⟨h'.lead.trans h.lead, h'.left.trans h.left, h'.right.trans h.right⟩

theorem of_gains (hi : Gains s t i 0) (hj : Gains s t j 0) (hn : t.next = s.next) :
    Level i j s t := by
  refine ⟨?_, hi.skips, hj.skips⟩
  rw [State.lead, State.lead, hi.credit, hj.credit, State.ahead, State.ahead, hn]
  omega

theorem pass {g : Option (Grant n)} (h : Pass s g t) (hij : i ≠ j)
    (hi : (s.eligible i).isSome) (hj : (s.eligible j).isSome) : Level i j s t := by
  obtain ⟨_, hi⟩ := Option.isSome_iff_exists.1 hi
  obtain ⟨_, hj⟩ := Option.isSome_iff_exists.1 hj
  have hgi := h.gains hi
  have hgj := h.gains hj
  have ha := h.ahead hij
  refine ⟨?_, hgi.skips, hgj.skips⟩
  rw [State.lead, State.lead, hgi.credit, hgj.credit]
  omega

theorem passes {k : Nat} {g : Option (Grant n)} (h : Passes k s g t) (hij : i ≠ j)
    (hi : (s.eligible i).isSome) (hj : (s.eligible j).isSome) : Level i j s t := by
  induction h with
  | done s => exact .refl s
  | found hp => exact .pass hp hij hi hj
  | next hp _ ih =>
    have hm := hp.moved
    exact (pass hp hij hi hj).trans (ih (by rwa [hm.eligible]) (by rwa [hm.eligible]))

theorem choose (hij : i ≠ j) (hi : (s.eligible i).isSome) (hj : (s.eligible j).isSome) :
    Level i j s s.choose.2 := by
  rw [State.choose]
  split
  · exact .refl s
  · exact passes (passes_spec (n + 1) s) hij hi hj

end Level

theorem Gains.of_still (hc : t.cursor = s.cursor) (hr : t.replenish = s.replenish)
    (he : t.eligible i = s.eligible i) (hd : (t.images i).deficit = (s.images i).deficit)
    (ha : (t.images i).admittedBytes = (s.images i).admittedBytes) : Gains s t i 0 := by
  have hk : t.skips i = s.skips i := by rw [State.skips, State.skips, hc, hr, he, hd]
  exact ⟨by rw [State.credit, State.credit, ha, hd, hk, Nat.cast_zero, add_zero], hk.le⟩

/-- Both images have something to admit, and every request is eligible. -/
structure Busy (s : State n) (i j : Fin n) : Prop where
  left : (s.images i).queue ≠ []
  right : (s.images j).queue ≠ []
  ready : ∀ k, ∀ r ∈ (s.images k).queue, r.ready = true

theorem eligible_isSome (h : (s.images i).queue ≠ [])
    (ready : ∀ r ∈ (s.images i).queue, r.ready = true) : (s.eligible i).isSome := by
  obtain ⟨r, hr⟩ := exists_mem_of_ne_nil _ h
  exact find?_isSome.2 ⟨r, hr, ready r hr⟩

theorem mark_of_ready {id : Nat} {q : List Request} (h : ∀ r ∈ q, r.ready = true) :
    mark id q = q := by
  induction q with
  | nil => rfl
  | cons r l ih =>
    rw [mark, ih fun r hr => h r (mem_cons_of_mem _ hr)]
    split
    · rw [← h r mem_cons_self]
    · rfl

theorem marked_of_ready {id : Nat} (h : ∀ r ∈ (s.images k).queue, r.ready = true) :
    s.marked k id = s := by
  rw [marked, modify, mark_of_ready h, Function.update_eq_self]

theorem Gains.push (k : Fin n) (bytes : Nat) (h : (s.eligible i).isSome) :
    Gains s (s.push k bytes) i 0 := by
  obtain ⟨r, hr⟩ := Option.isSome_iff_exists.1 h
  by_cases hk : i = k
  · subst hk
    have hi : (s.push i bytes).images i =
        { s.images i with queue := (s.images i).queue ++ [⟨s.nextId, bytes, true⟩] } :=
      Function.update_self ..
    have he : (s.push i bytes).eligible i = s.eligible i := by
      rw [State.eligible, hi, find?_append]
      change (s.eligible i).or _ = s.eligible i
      rw [hr, Option.some_or]
    exact .of_still rfl rfl he (by rw [hi]) (by rw [hi])
  · have hi : (s.push k bytes).images i = s.images i := Function.update_of_ne hk ..
    exact .of_still rfl rfl (by rw [State.eligible, State.eligible, hi]) (by rw [hi]) (by rw [hi])

theorem Gains.release (h : ∀ r ∈ (s.images i).queue, r.ready = true) : Gains s s.release i 0 := by
  have hq : (s.images i).queue.map (fun r => { r with ready := true }) = (s.images i).queue := by
    refine (map_congr_left fun r hr => ?_).trans (map_id _)
    rw [← h r hr]
    rfl
  have hi : s.release.images i = s.images i := by
    simp only [State.release]
    rw [hq]
  exact .of_still rfl rfl (by rw [State.eligible, State.eligible, hi]) (by rw [hi]) (by rw [hi])

/-- The image being visited pays from its deficit for what it is admitted. -/
theorem Gains.pay {image : Fin n} (hc : s.cursor = image) (hr : s.replenish = false)
    (f : Image → Image)
    (hf : (f (s.images image)).admittedBytes + (f (s.images image)).deficit =
      (s.images image).admittedBytes + (s.images image).deficit) (i : Fin n) :
    Gains s (s.modify image f) i 0 := by
  by_cases hi : i = image
  · subst hi
    have hs : s.skips i = 0 := skips_visiting hc hr
    have ht : (s.modify i f).skips i = 0 := skips_visiting hc hr
    refine ⟨?_, ht.trans_le (Nat.zero_le _)⟩
    rw [State.credit, State.credit, hs, ht, modify_images_self]
    omega
  · have hsame := modify_images_of_ne s f hi
    exact .of_still rfl rfl (by rw [State.eligible, State.eligible, hsame]) (by rw [hsame])
      (by rw [hsame])

theorem Level.commit {image : Fin n} {id : Nat} (hc : s.cursor = image) (hr : s.replenish = false)
    (h : s.commit image id = some t) : Level i j s t := by
  rw [State.commit] at h
  split at h
  · split at h
    · cases h
    · split at h
      · next hle =>
        cases h
        refine .of_gains (.pay hc hr _ ?_ i) (.pay hc hr _ ?_ j) rfl <;>
        · dsimp only
          omega
      · cases h
  · cases h

end State

/-- Neither a refusal nor a cancellation. A ticket that is dropped after its commit does no more than
`wake`. -/
def Action.Admits {n : Nat} : Action n → Prop
  | .refuse .. | .dropTicket .. => False
  | _ => True

namespace World

open State

variable {n : Nat} {w w' : World n} {i j : Fin n}

theorem level_step (h : Inv w) (hij : i ≠ j) (hb : w.state.Busy i j) {a : Action n}
    (ha : a.Admits) (hw : w.step a = some w') : Level i j w.state w'.state := by
  have hi := eligible_isSome hb.left (hb.ready i)
  have hj := eligible_isSome hb.right (hb.ready j)
  cases a with
  | ticket image kind =>
    simp only [step] at hw
    split at hw
    · next hs =>
      cases hw
      obtain rfl | ⟨k, bytes, -, rfl⟩ := ticket_spec hs
      · exact .refl _
      · exact .of_gains (.push k bytes hi) (.push k bytes hj) rfl
    · cases hw
      exact .refl _
  | turn image id =>
    have hc : Level i j w.state (w.state.marked image id).choose.2 := by
      rw [marked_of_ready (hb.ready image)]
      exact .choose hij hi hj
    simp only [step] at hw
    split at hw
    · next hs =>
      cases hw
      obtain ⟨h0, _⟩ | ⟨-, -, rfl⟩ := turn_spec hs
      · cases h0
      · exact ⟨hc.lead, hc.left, hc.right⟩
    · next hs =>
      cases hw
      obtain ⟨-, rfl⟩ | ⟨h0, _⟩ := turn_spec hs
      · exact hc
      · cases h0
    · cases hw
      exact .refl _
  | commit image id =>
    rw [step] at hw
    split at hw
    · next ht =>
      obtain ⟨-, hold⟩ := h.holds ht
      obtain ⟨s, hs, rfl⟩ := Option.map_eq_some_iff.1 hw
      exact .commit hold.cursor hold.replenish hs
    · cases hw
      exact .refl _
  | close image id =>
    rw [step] at hw
    split at hw
    · obtain ⟨s, hs, rfl⟩ := Option.map_eq_some_iff.1 hw
      rw [State.close] at hs
      split at hs
      · cases hs
        exact ⟨rfl, le_refl _, le_refl _⟩
      · cases hs
    · cases hw
      exact .refl _
  | refuse image id => cases ha
  | dropTicket image id => cases ha
  | release =>
    cases hw
    exact .of_gains (.release (hb.ready i)) (.release (hb.ready j)) rfl
  | wake =>
    cases hw
    exact .choose hij hi hj

theorem level_run (actions : List (Action n)) (h : Inv w) (hij : i ≠ j)
    (hrun : Machine.run step w actions = some w') (ha : ∀ a ∈ actions, a.Admits)
    (hb : ∀ p u, p <+: actions → Machine.run step w p = some u → u.state.Busy i j) :
    Level i j w.state w'.state := by
  induction actions generalizing w with
  | nil =>
    cases hrun
    exact .refl _
  | cons a l ih =>
    obtain ⟨w₁, hw₁, hinv₁⟩ := step_progress w a h
    have h₁ := level_step h hij (hb [] w nil_prefix rfl) (ha a mem_cons_self) hw₁
    rw [Machine.run, hw₁] at hrun
    refine h₁.trans (ih hinv₁ hrun (fun a hm => ha a (mem_cons_of_mem _ hm)) ?_)
    intro p u hp hu
    refine hb (a :: p) u ((prefix_cons_inj a).2 hp) ?_
    rw [Machine.run, hw₁]
    exact hu

/-- What an image was admitted since. -/
def admittedSince (w w' : World n) (i : Fin n) : Int :=
  (w'.state.images i).admittedBytes - (w.state.images i).admittedBytes

/-- From any reachable state, and over any run of arrivals, selections and commits, of any sizes and
in any order: two images that always have something to admit, while every request is eligible, are
admitted the same number of bytes up to less than six quanta. -/
theorem admits_evenly (h : Reachable w) (actions : List (Action n))
    (hrun : Machine.run step w actions = some w') (ha : ∀ a ∈ actions, a.Admits) (i j : Fin n)
    (hb : ∀ p u, p <+: actions → Machine.run step w p = some u → u.state.Busy i j) :
    |admittedSince w w' i - admittedSince w w' j| < 6 * QUANTUM := by
  have hinv := h.inv
  obtain ⟨u, hu, hinv'⟩ := step_progress.run actions hinv
  cases hrun.symm.trans hu
  have hi := hinv.wf.deficit i
  have hj := hinv.wf.deficit j
  have hi' := hinv'.wf.deficit i
  have hj' := hinv'.wf.deficit j
  by_cases hij : i = j
  · subst hij
    rw [sub_self, abs_zero]
    omega
  · have hl := level_run actions hinv hij hrun ha hb
    have hlead := hl.lead
    have hleft := hl.left
    have hright := hl.right
    have hski := skips_le w.state i
    have hskj := skips_le w.state j
    have hahead := ahead_le w.state i j
    have hahead' := ahead_le w'.state i j
    simp only [State.lead, State.credit] at hlead
    rw [abs_lt]
    simp only [admittedSince]
    omega

/-- One of two images is admitted a request of one block, and each still has one that waits. -/
theorem admits_evenly_block : ∃ w w' : World 2,
    Machine.run step w [.turn 0 1, .commit 0 1, .close 0 1] = some w' ∧
      admittedSince w w' 0 = 4096 ∧
      |admittedSince w w' 0 - admittedSince w w' 1| < 6 * QUANTUM := by
  obtain ⟨s₀, hs₀⟩ : ∃ s₀, State.new 2 = .ok s₀ := ⟨_, rfl⟩
  let arrivals : List (Action 2) := [.ticket 0 (.read 0), .ticket 0 (.read 0), .ticket 1 (.write 8192)]
  obtain ⟨w, hw, hinv⟩ := step_progress.run arrivals (Inv.new hs₀)
  obtain ⟨w', hw', -⟩ := step_progress.run [.turn 0 1, .commit 0 1, .close 0 1] hinv
  have hsince : admittedSince w w' 0 = 4096 := by
    cases hs₀
    cases hw
    cases hw'
    decide
  refine ⟨w, w', hw', hsince, admits_evenly ⟨s₀, arrivals, hs₀, hw⟩ _ hw' ?_ 0 1 ?_⟩
  · intro a ha
    fin_cases ha <;> trivial
  · intro p u hp hu
    cases hs₀
    cases hw
    rw [← List.mem_inits] at hp
    fin_cases hp <;> cases hu <;> exact ⟨by decide, by decide, by decide⟩

end World

end Cas.Fair
