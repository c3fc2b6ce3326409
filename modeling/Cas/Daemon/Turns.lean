import Cas.Daemon.Fair
import Mathlib.Data.List.Perm.Subperm

/-!
# Turns of the admission scheduler

Requests keep their identity and size while they wait, and a turn is granted to one of them that its
image can pay for. Nothing that the other users of the scheduler do takes it away again.
-/

namespace Cas.Fair

open List

/-- What stays the same of a request while it waits. -/
def Request.tag (r : Request) : Nat × Nat := (r.id, r.bytes)

theorem mark_tags (id : Nat) (q : List Request) :
    (mark id q).map Request.tag = q.map Request.tag := by
  induction q with
  | nil => rfl
  | cons r l ih =>
    rw [mark]
    split
    · rfl
    · rw [map_cons, map_cons, ih]

theorem eraseP_perm {q : List Request} {id : Nat} {r : Request}
    (h : q.find? (·.id = id) = some r) :
    (r :: q.eraseP (·.id = id)).Perm q := by
  induction q with
  | nil => cases h
  | cons a l ih =>
    rw [find?_cons] at h
    rw [eraseP_cons]
    split at h
    · next ha =>
      cases h
      rw [ha]
      exact .refl _
    · next ha =>
      rw [ha]
      exact (List.Perm.swap a r _).trans ((ih h).cons a)

/-- Queued requests: distinct, numbered so far, and no larger than a quantum. -/
structure Queued (bound : Nat) (tags : List (Nat × Nat)) : Prop where
  bytes : ∀ p ∈ tags, p.2 ≤ QUANTUM
  fresh : ∀ p ∈ tags, p.1 < bound
  ids : (tags.map Prod.fst).Nodup

namespace Queued

variable {bound : Nat} {q q' : List (Nat × Nat)}

theorem subperm (h : Queued bound q) (hs : q'.Subperm q) : Queued bound q' := by
  refine ⟨fun p hp => h.bytes p (hs.subset hp), fun p hp => h.fresh p (hs.subset hp), ?_⟩
  obtain ⟨l, hperm, hsub⟩ := hs
  exact (hperm.map Prod.fst).nodup_iff.1 ((hsub.map Prod.fst).nodup h.ids)

theorem push (h : Queued bound q) {bytes : Nat} (hb : bytes ≤ QUANTUM) :
    Queued (bound + 1) (q ++ [(bound, bytes)]) := by
  refine ⟨fun p hp => ?_, fun p hp => ?_, ?_⟩
  · rcases mem_append.1 hp with hp | hp
    · exact h.bytes p hp
    · rw [mem_singleton.1 hp]
      exact hb
  · rcases mem_append.1 hp with hp | hp
    · exact Nat.lt_succ_of_lt (h.fresh p hp)
    · rw [mem_singleton.1 hp]
      exact Nat.lt_succ_self bound
  · rw [map_append, nodup_append]
    refine ⟨h.ids, nodup_singleton _, fun a ha b hb hab => ?_⟩
    obtain ⟨p, hp, rfl⟩ := mem_map.1 ha
    cases mem_singleton.1 hb
    exact ne_of_lt (h.fresh p hp) hab

theorem mono (h : Queued bound q) {bound' : Nat} (hle : bound ≤ bound') : Queued bound' q :=
  ⟨h.bytes, fun p hp => (h.fresh p hp).trans_le hle, h.ids⟩

theorem find {l : List Request} (h : Queued bound (l.map Request.tag)) {id bytes : Nat}
    (hm : (id, bytes) ∈ l.map Request.tag) :
    ∃ r, l.find? (·.id = id) = some r ∧ r.tag = (id, bytes) := by
  obtain ⟨r, hr, htag⟩ := mem_map.1 hm
  have hid : r.id = id := congrArg Prod.fst htag
  have hsome : (l.find? (·.id = id)).isSome :=
    find?_isSome.2 ⟨r, hr, by simpa using hid⟩
  obtain ⟨r', hr'⟩ := Option.isSome_iff_exists.1 hsome
  have hid' : r'.id = id := by simpa using find?_some hr'
  have hmem : r'.tag ∈ l.map Request.tag := mem_map_of_mem (mem_of_find?_eq_some hr')
  refine ⟨r', hr', ?_⟩
  rw [← htag]
  exact inj_on_of_nodup_map h.ids hmem (htag ▸ hm) (hid'.trans hid.symm)

end Queued

namespace State

variable {n : Nat} {s t : State n}

def tags (s : State n) (i : Fin n) : List (Nat × Nat) := (s.images i).queue.map Request.tag

structure Wf (s : State n) : Prop where
  queued : ∀ i, Queued s.nextId (s.tags i)
  deficit : ∀ i, (s.images i).deficit < 2 * QUANTUM

theorem tags_modify (s : State n) (i j : Fin n) (f : Image → Image) :
    (s.modify i f).tags j = if j = i then (f (s.images i)).queue.map Request.tag else s.tags j := by
  by_cases hj : j = i
  · subst hj
    rw [if_pos rfl, tags, modify_images_self]
  · rw [if_neg hj, tags, modify_images_of_ne s f hj, tags]

theorem deficit_modify (s : State n) (i j : Fin n) (f : Image → Image) :
    ((s.modify i f).images j).deficit =
      if j = i then (f (s.images i)).deficit else (s.images j).deficit := by
  by_cases hj : j = i
  · subst hj
    rw [if_pos rfl, modify_images_self]
  · rw [if_neg hj, modify_images_of_ne s f hj]

theorem release_tags (s : State n) (i : Fin n) : s.release.tags i = s.tags i := by
  rw [tags, tags, release, map_map]
  rfl

theorem eligible_tag {i : Fin n} {r : Request} (h : s.eligible i = some r) : r.tag ∈ s.tags i :=
  mem_map_of_mem (mem_of_find?_eq_some h)

namespace Wf

/-- An image may take requests out of its queue, or order it anew. -/
theorem modify (h : Wf s) (i : Fin n) (f : Image → Image)
    (hq : ((f (s.images i)).queue.map Request.tag).Subperm (s.tags i))
    (hd : (f (s.images i)).deficit < 2 * QUANTUM) : Wf (s.modify i f) := by
  constructor
  · intro j
    rw [tags_modify]
    split
    · exact (h.queued i).subperm hq
    · exact h.queued j
  · intro j
    rw [deficit_modify]
    split
    · exact hd
    · exact h.deficit j

theorem visited (h : Wf s) {r : Request} (he : s.eligible s.cursor = some r) :
    s.visited r < 2 * QUANTUM := by
  have hb : r.bytes ≤ QUANTUM := (h.queued s.cursor).bytes _ (eligible_tag he)
  have hd := h.deficit s.cursor
  rw [State.visited]
  split
  · omega
  · exact hd

theorem visit (h : Wf s) {r : Request} (he : s.eligible s.cursor = some r) : Wf (s.visit r) :=
  let hm := h.modify s.cursor (fun i => { i with deficit := s.visited r }) (.refl _) (h.visited he)
  ⟨hm.queued, hm.deficit⟩

theorem advance (h : Wf s) : Wf s.advance := ⟨h.queued, h.deficit⟩

theorem pass {g : Option (Grant n)} (h : Wf s) (hp : Pass s g t) : Wf t := by
  cases hp with
  | idle _ =>
    have h0 : 0 < 2 * QUANTUM := Nat.zero_lt_of_lt (h.deficit s.cursor)
    exact (h.modify s.cursor (fun i => { i with deficit := 0 }) (.refl _) h0).advance
  | paid r he _ => exact h.visit he
  | short r he _ => exact (h.visit he).advance

theorem passes {k : Nat} {g : Option (Grant n)} (h : Wf s) (hp : Passes k s g t) : Wf t := by
  induction hp with
  | done s => exact h
  | found hp => exact h.pass hp
  | next hp _ ih => exact ih (h.pass hp)

theorem choose (h : Wf s) : Wf s.choose.2 := by
  rw [State.choose]
  split
  · exact h
  · exact h.passes (passes_spec (n + 1) s)

theorem marked (h : Wf s) (i : Fin n) (id : Nat) : Wf (s.marked i id) :=
  h.modify i _ (by rw [mark_tags]; exact .refl _) (h.deficit i)

theorem release (h : Wf s) : Wf s.release := by
  refine ⟨fun i => ?_, h.deficit⟩
  rw [release_tags]
  exact h.queued i

theorem dropTicket (h : Wf s) (i : Fin n) (id : Nat) : Wf (s.dropTicket i id) := by
  rw [State.dropTicket]
  split
  · refine h.modify i _ ?_ ?_
    · exact (eraseP_sublist.map _).subperm
    · exact h.deficit i
  · exact h

theorem push (h : Wf s) (i : Fin n) {bytes : Nat} (hb : bytes ≤ QUANTUM) :
    Wf (s.push i bytes) := by
  let f : Image → Image := fun image =>
    { image with queue := image.queue ++ [⟨s.nextId, bytes, true⟩] }
  constructor
  · intro j
    change Queued (s.nextId + 1) ((s.modify i f).tags j)
    rw [tags_modify]
    split
    · rw [map_append]
      exact (h.queued i).push hb
    · exact (h.queued j).mono (Nat.le_succ _)
  · intro j
    change ((s.modify i f).images j).deficit < _
    rw [deficit_modify]
    split
    · exact h.deficit i
    · exact h.deficit j

end Wf

theorem choose_of_granted {g : Grant n} (h : s.granted = some g) : s.choose = (none, s) := by
  rw [choose, h]
  rfl

theorem enqueue_spec {image bytes : Nat} {g : Option (Grant n)}
    (h : s.enqueue image bytes = .ok (g, t)) :
    ∃ i : Fin n, bytes ≤ QUANTUM ∧ t = s.push i bytes := by
  rw [enqueue] at h
  split at h
  · cases h
  · next hb =>
    split at h
    · cases h
    · split at h
      · next hi =>
        split at h
        · cases h
        · cases h
          exact ⟨⟨image, hi⟩, Nat.le_of_not_lt hb, rfl⟩
      · cases h

theorem ticket_spec {image : Nat} {kind : Kind} {g : Option (Grant n)}
    (h : s.ticket image kind = .ok (g, t)) :
    t = s ∨ ∃ (i : Fin n) (bytes : Nat), bytes ≤ QUANTUM ∧ t = s.push i bytes := by
  cases kind with
  | control =>
    cases h
    exact .inl rfl
  | read bytes =>
    obtain ⟨i, hb, ht⟩ := enqueue_spec h
    exact .inr ⟨i, _, hb, ht⟩
  | write bytes =>
    obtain ⟨i, hb, ht⟩ := enqueue_spec h
    exact .inr ⟨i, _, hb, ht⟩

theorem marked_tags (s : State n) (image i : Fin n) (id : Nat) :
    (s.marked image id).tags i = s.tags i := by
  rw [marked, tags_modify]
  split
  · next h => rw [mark_tags, h, tags]
  · rfl

theorem turn_spec {image : Fin n} {id : Nat} {granted : Bool}
    (h : s.turn image id = .ok (granted, t)) :
    (granted = false ∧ t = (s.marked image id).choose.2) ∨
      (granted = true ∧ (s.marked image id).choose.1 = some (image, id) ∧
        t = { (s.marked image id).choose.2 with
              granted := some (image, id), releasedDuringTurn := false }) := by
  rw [turn] at h
  split at h
  · split at h
    next next s' hc =>
    rw [hc]
    split at h
    · next hn =>
      cases h
      exact .inr ⟨rfl, hn, by rw [hn]⟩
    · cases h
      exact .inl ⟨rfl, rfl⟩
  · cases h

/-- A turn that is held: the one that is granted, at the image being visited. Until the commit the
deficit pays for its request, which is still queued. -/
structure Holds (s : State n) (t : Turn n) : Prop where
  granted : s.granted = some (t.image, t.id)
  cursor : s.cursor = t.image
  replenish : s.replenish = false
  request : t.committed = false →
    ∃ bytes, (t.id, bytes) ∈ s.tags t.image ∧ bytes ≤ (s.images t.image).deficit

namespace Holds

variable {h : Turn n}

/-- The turn goes on while its request stays queued and nobody moves. -/
theorem congr (hold : Holds s h) (granted : t.granted = s.granted) (cursor : t.cursor = s.cursor)
    (replenish : t.replenish = s.replenish)
    (tags : ∀ bytes, (h.id, bytes) ∈ s.tags h.image → (h.id, bytes) ∈ t.tags h.image)
    (deficit : (t.images h.image).deficit = (s.images h.image).deficit) : Holds t h := by
  refine ⟨granted.trans hold.granted, cursor.trans hold.cursor, replenish.trans hold.replenish,
    fun hc => ?_⟩
  obtain ⟨bytes, hm, hle⟩ := hold.request hc
  exact ⟨bytes, tags bytes hm, deficit ▸ hle⟩

theorem push (hold : Holds s h) (i : Fin n) (bytes : Nat) : Holds (s.push i bytes) h := by
  let f : Image → Image := fun image =>
    { image with queue := image.queue ++ [⟨s.nextId, bytes, true⟩] }
  refine hold.congr rfl rfl rfl (fun b hm => ?_) ?_
  · change _ ∈ (s.modify i f).tags h.image
    rw [tags_modify]
    split
    · next hi =>
      rw [map_append]
      exact mem_append_left _ (hi ▸ hm)
    · exact hm
  · change ((s.modify i f).images h.image).deficit = _
    rw [deficit_modify]
    split
    · next hi => rw [hi]
    · rfl

theorem marked (hold : Holds s h) (i : Fin n) (id : Nat) : Holds (s.marked i id) h := by
  refine hold.congr rfl rfl rfl (fun b hm => ?_) ?_
  · rwa [marked_tags]
  · rw [State.marked, deficit_modify]
    split
    · next hi => rw [hi]
    · rfl

theorem release (hold : Holds s h) : Holds s.release h :=
  hold.congr rfl rfl rfl (fun b hm => by rwa [release_tags]) rfl

theorem dropTicket (hold : Holds s h) {i : Fin n} {id : Nat} (hne : ¬(h.image = i ∧ h.id = id)) :
    Holds (s.dropTicket i id) h := by
  rw [State.dropTicket]
  split
  · refine hold.congr rfl rfl rfl (fun b hm => ?_) ?_
    · rw [tags_modify]
      split
      · next hi =>
        obtain ⟨r, hr, htag⟩ := mem_map.1 hm
        have hid : r.id = h.id := congrArg Prod.fst htag
        have hkeep : ¬ decide (r.id = id) = true := by
          rw [decide_eq_true_iff, hid]
          exact fun h => hne ⟨hi, h⟩
        have hmem : r ∈ (s.images i).queue.eraseP (·.id = id) :=
          (mem_eraseP_of_neg (p := fun r => decide (r.id = id)) hkeep).2 (hi ▸ hr)
        exact mem_map.2 ⟨r, hmem, htag⟩
      · exact hm
    · rw [deficit_modify]
      split
      · next hi => rw [hi]
      · rfl
  · exact hold

end Holds

end State

namespace World

variable {n : Nat} {w : World n}

structure Inv (w : World n) : Prop where
  wf : w.state.Wf
  turns : (w.turns = [] ∧ w.state.granted = none) ∨ ∃ t, w.turns = [t] ∧ w.state.Holds t

theorem Inv.ticket (h : Inv w) (image : Nat) (kind : Kind) :
    ∃ w', w.step (.ticket image kind) = some w' ∧ Inv w' := by
  simp only [step]
  split
  · next s ht =>
    refine ⟨_, rfl, ?_⟩
    obtain rfl | ⟨i, bytes, hb, rfl⟩ := State.ticket_spec ht
    · exact h
    · refine ⟨h.wf.push i hb, ?_⟩
      obtain ⟨h0, hg⟩ | ⟨t, ht, hold⟩ := h.turns
      · exact .inl ⟨h0, hg⟩
      · exact .inr ⟨t, ht, hold.push i bytes⟩
  · exact ⟨w, rfl, h⟩

theorem Inv.turn (h : Inv w) (image : Fin n) (id : Nat) :
    ∃ w', w.step (.turn image id) = some w' ∧ Inv w' := by
  have hwf := h.wf.marked image id
  simp only [step]
  split
  · next s ht =>
    obtain ⟨h0, _⟩ | ⟨-, hc, rfl⟩ := State.turn_spec ht
    · cases h0
    · have hs := State.choose_settled hc
      obtain ⟨r, he, hid, hle⟩ := hs.request
      obtain rfl : r.id = id := hid
      refine ⟨_, rfl, ⟨hwf.choose.queued, hwf.choose.deficit⟩, ?_⟩
      obtain ⟨h0, hg⟩ | ⟨t, -, hold⟩ := h.turns
      · exact .inr ⟨⟨image, r.id, false⟩, by rw [h0], rfl, hs.cursor, hs.replenish,
          fun _ => ⟨r.bytes, State.eligible_tag he, hle⟩⟩
      · -- Nothing is chosen while a turn is granted.
        rw [State.choose_of_granted (hold.marked image r.id).granted] at hc
        cases hc
  · next s ht =>
    obtain ⟨-, rfl⟩ | ⟨h0, _⟩ := State.turn_spec ht
    · refine ⟨_, rfl, hwf.choose, ?_⟩
      obtain ⟨h0, hg⟩ | ⟨t, ht, hold⟩ := h.turns
      · exact .inl ⟨h0, (State.choose_moved _).granted.trans hg⟩
      · refine .inr ⟨t, ht, ?_⟩
        have hm := hold.marked image id
        rw [State.choose_of_granted hm.granted]
        exact hm
    · cases h0
  · exact ⟨w, rfl, h⟩

theorem Inv.holds (h : Inv w) {t : Turn n} (ht : t ∈ w.turns) :
    w.turns = [t] ∧ w.state.Holds t := by
  obtain ⟨h0, -⟩ | ⟨t', ht', hold⟩ := h.turns
  · rw [h0] at ht
    cases ht
  · rw [ht'] at ht
    cases mem_singleton.1 ht
    exact ⟨ht', hold⟩

theorem Inv.commit (h : Inv w) (image : Fin n) (id : Nat) :
    ∃ w', w.step (.commit image id) = some w' ∧ Inv w' := by
  rw [step]
  split
  · next ht =>
    obtain ⟨hturns, hold⟩ := h.holds ht
    obtain ⟨bytes, hm, hle⟩ := hold.request rfl
    obtain ⟨head, hf, htag⟩ := (h.wf.queued image).find hm
    have hbytes : head.bytes = bytes := congrArg Prod.snd htag
    have hlt := h.wf.deficit image
    rw [State.commit, if_pos hold.granted, hf]
    dsimp only
    rw [if_pos (hbytes.trans_le hle)]
    refine ⟨_, rfl, ?_, .inr ⟨⟨image, id, true⟩, ?_, ?_⟩⟩
    · dsimp only
      refine h.wf.modify image _ ?_ ?_
      · exact (eraseP_sublist.map _).subperm
      · exact (Nat.sub_le _ _).trans_lt hlt
    · rw [hturns, erase_cons_head]
    · exact ⟨hold.granted, hold.cursor, hold.replenish, (fun hc => by cases hc)⟩
  · exact ⟨w, rfl, h⟩

theorem Inv.close (h : Inv w) (image : Fin n) (id : Nat) :
    ∃ w', w.step (.close image id) = some w' ∧ Inv w' := by
  rw [step]
  split
  · next ht =>
    obtain ⟨hturns, hold⟩ := h.holds ht
    rw [State.close, if_pos hold.granted]
    refine ⟨_, rfl, ⟨h.wf.queued, h.wf.deficit⟩, .inl ⟨?_, rfl⟩⟩
    rw [hturns, erase_cons_head]
  · exact ⟨w, rfl, h⟩

/-- A refusal puts the request behind the others of its image, and lets it be chosen again only if
resources were released in the meantime. -/
theorem refuse_spec (h : Inv w) {image : Fin n} {id : Nat} (ht : ⟨image, id, false⟩ ∈ w.turns) :
    ∃ w' head, w.step (.refuse image id) = some w' ∧ Inv w' ∧ head.id = id ∧
      head.ready = w.state.releasedDuringTurn ∧ head ∈ (w'.state.images image).queue := by
  obtain ⟨hturns, hold⟩ := h.holds ht
  obtain ⟨bytes, hm, hle⟩ := hold.request rfl
  obtain ⟨head, hf, htag⟩ := (h.wf.queued image).find hm
  have hid : head.id = id := congrArg Prod.fst htag
  let behind : Request := { head with ready := w.state.releasedDuringTurn }
  let f : Image → Image := fun i =>
    { i with deferred := i.deferred + 1, queue := i.queue.eraseP (·.id = id) ++ [behind] }
  have hperm : ((f (w.state.images image)).queue.map Request.tag).Perm (w.state.tags image) := by
    refine ((perm_append_singleton behind _).map Request.tag).trans ?_
    exact (eraseP_perm hf).map Request.tag
  have hwf := h.wf.modify image f hperm.subperm (h.wf.deficit image)
  rw [step, if_pos ht, State.refuse, if_pos hold.granted, hf]
  refine ⟨_, behind, rfl, ⟨⟨hwf.queued, hwf.deficit⟩, .inl ⟨?_, rfl⟩⟩, hid, rfl, ?_⟩
  · rw [hturns, erase_cons_head]
  · change behind ∈ ((w.state.modify image f).images image).queue
    rw [State.modify_images_self]
    exact mem_append_right _ (mem_singleton_self _)

theorem Inv.dropTicket (h : Inv w) (image : Fin n) (id : Nat) :
    ∃ w', w.step (.dropTicket image id) = some w' ∧ Inv w' := by
  rw [step]
  split
  · exact ⟨w, rfl, h⟩
  · next hany =>
    refine ⟨_, rfl, h.wf.dropTicket image id, ?_⟩
    obtain ⟨h0, hg⟩ | ⟨t, ht, hold⟩ := h.turns
    · refine .inl ⟨h0, ?_⟩
      rw [State.dropTicket]
      split <;> exact hg
    · refine .inr ⟨t, ht, hold.dropTicket fun hne => hany ?_⟩
      rw [ht, any_cons, decide_eq_true hne]
      rfl

theorem Inv.wake (h : Inv w) : Inv { w with state := w.state.wake } := by
  refine ⟨h.wf.choose, ?_⟩
  obtain ⟨h0, hg⟩ | ⟨t, ht, hold⟩ := h.turns
  · exact .inl ⟨h0, (State.choose_moved _).granted.trans hg⟩
  · refine .inr ⟨t, ht, ?_⟩
    rw [State.wake, State.choose_of_granted hold.granted]
    exact hold

theorem Inv.release (h : Inv w) : Inv { w with state := w.state.release } := by
  refine ⟨h.wf.release, ?_⟩
  obtain ⟨h0, hg⟩ | ⟨t, ht, hold⟩ := h.turns
  · exact .inl ⟨h0, hg⟩
  · exact .inr ⟨t, ht, hold.release⟩

theorem step_progress : Machine.Progress (step (n := n)) Inv := by
  intro w a h
  cases a with
  | ticket image kind => exact h.ticket image kind
  | turn image id => exact h.turn image id
  | commit image id => exact h.commit image id
  | close image id => exact h.close image id
  | refuse image id =>
    by_cases ht : ⟨image, id, false⟩ ∈ w.turns
    · obtain ⟨w', _, hw, hinv, _⟩ := refuse_spec h ht
      exact ⟨w', hw, hinv⟩
    · exact ⟨w, by rw [step, if_neg ht], h⟩
  | dropTicket image id => exact h.dropTicket image id
  | release => exact ⟨_, rfl, h.release⟩
  | wake => exact ⟨_, rfl, h.wake⟩

theorem Inv.new {s : State n} (h : State.new n = .ok s) : Inv ⟨s, []⟩ := by
  rw [State.new] at h
  split at h
  · cases h
  · cases h
    refine ⟨⟨fun i => ?_, fun i => ?_⟩, .inl ⟨rfl, rfl⟩⟩
    · exact ⟨(fun p hp => by cases hp), (fun p hp => by cases hp), nodup_nil⟩
    · change 0 < 2 * QUANTUM
      decide

theorem Reachable.inv (h : Reachable w) : Inv w := by
  obtain ⟨s₀, past, hnew, hrun⟩ := h
  obtain ⟨w', hw', hinv⟩ := step_progress.run past (Inv.new hnew)
  cases hrun.symm.trans hw'
  exact hinv

/-- A release during a turn is remembered to the end of the turn. -/
theorem released_step (h : Inv w) {t : Turn n} (ht : t ∈ w.turns)
    (hr : w.state.releasedDuringTurn = true) {a : Action n} {w' : World n}
    (hw : w.step a = some w') : w'.state.releasedDuringTurn = true := by
  have hold := (h.holds ht).2
  cases a with
  | ticket image kind =>
    simp only [step] at hw
    split at hw
    · next hs =>
      cases hw
      obtain rfl | ⟨i, bytes, -, rfl⟩ := State.ticket_spec hs <;> exact hr
    · cases hw
      exact hr
  | turn image id =>
    have hc := State.choose_of_granted (hold.marked image id).granted
    simp only [step] at hw
    split at hw
    · next hs =>
      obtain ⟨h0, _⟩ | ⟨-, hg, -⟩ := State.turn_spec hs
      · cases h0
      · rw [hc] at hg
        cases hg
    · next hs =>
      cases hw
      obtain ⟨-, rfl⟩ | ⟨h0, _⟩ := State.turn_spec hs
      · rw [hc]
        exact hr
      · cases h0
    · cases hw
      exact hr
  | commit image id =>
    rw [step] at hw
    split at hw
    · obtain ⟨s, hs, rfl⟩ := Option.map_eq_some_iff.1 hw
      rw [State.commit] at hs
      split at hs
      · split at hs
        · cases hs
        · split at hs
          · cases hs
            exact hr
          · cases hs
      · cases hs
    · cases hw
      exact hr
  | close image id =>
    rw [step] at hw
    split at hw
    · obtain ⟨s, hs, rfl⟩ := Option.map_eq_some_iff.1 hw
      rw [State.close] at hs
      split at hs
      · cases hs
        exact hr
      · cases hs
    · cases hw
      exact hr
  | refuse image id =>
    rw [step] at hw
    split at hw
    · obtain ⟨s, hs, rfl⟩ := Option.map_eq_some_iff.1 hw
      rw [State.refuse] at hs
      split at hs
      · split at hs
        · cases hs
        · cases hs
          exact hr
      · cases hs
    · cases hw
      exact hr
  | dropTicket image id =>
    rw [step] at hw
    split at hw
    · cases hw
      exact hr
    · cases hw
      dsimp only
      rw [State.dropTicket]
      split <;> exact hr
  | release =>
    cases hw
    exact if_pos (hold.granted ▸ rfl)
  | wake =>
    cases hw
    rw [State.wake, State.choose_of_granted hold.granted]
    exact hr

theorem released_run {t : Turn n} (mid : List (Action n)) (h : Inv w)
    (hr : w.state.releasedDuringTurn = true) {w' : World n}
    (hrun : Machine.run step w mid = some w')
    (hheld : ∀ p u, p <+: mid → Machine.run step w p = some u → t ∈ u.turns) :
    w'.state.releasedDuringTurn = true := by
  induction mid generalizing w with
  | nil =>
    cases hrun
    exact hr
  | cons a l ih =>
    obtain ⟨w₁, hw₁, hinv₁⟩ := step_progress w a h
    rw [Machine.run, hw₁] at hrun
    have hr₁ := released_step h (hheld [] w nil_prefix rfl) hr hw₁
    refine ih hinv₁ hr₁ hrun fun p u hp hu => ?_
    refine hheld (a :: p) u ((prefix_cons_inj a).2 hp) ?_
    rw [Machine.run, hw₁]
    exact hu

/-- A request whose turn is refused after a release can be chosen again. -/
theorem refuse_released (h : Inv w) {image : Fin n} {id : Nat} {mid : List (Action n)}
    {w' : World n} (ht : ⟨image, id, false⟩ ∈ w.turns)
    (hrun : Machine.run step w (.release :: mid) = some w')
    (hheld : ∀ p u, p <+: mid → Machine.run step w (.release :: p) = some u →
      ⟨image, id, false⟩ ∈ u.turns) :
    ∃ u, w'.step (.refuse image id) = some u ∧
      ∃ r ∈ (u.state.images image).queue, r.id = id ∧ r.ready = true := by
  have hrel : w.state.release.releasedDuringTurn = true :=
    if_pos ((h.holds ht).2.granted ▸ rfl)
  obtain ⟨w₂, hw₂, hinv⟩ := step_progress.run mid h.release
  cases hrun.symm.trans hw₂
  have hr := released_run mid h.release hrel hrun hheld
  obtain ⟨u, r, hu, -, hid, hready, hmem⟩ :=
    refuse_spec hinv (hheld mid w' prefix_rfl hrun)
  exact ⟨u, hu, r, hmem, hid, hready.trans hr⟩

theorem Inv.bytes (h : Inv w) {i : Fin n} {r : Request} (he : w.state.eligible i = some r) :
    r.bytes ≤ QUANTUM :=
  (h.wf.queued i).bytes _ (State.eligible_tag he)

theorem Inv.chooses (h : Inv w) (hg : w.state.granted = none) {i : Fin n} {r : Request}
    (hr : r ∈ (w.state.images i).queue) (hready : r.ready = true) :
    ∃ g, w.state.choose.1 = some g ∧
      ∃ r ∈ (w.state.images g.1).queue, r.id = g.2 ∧ r.ready = true := by
  obtain ⟨first, he⟩ : ∃ first, w.state.eligible i = some first :=
    Option.isSome_iff_exists.1 (find?_isSome.2 ⟨r, hr, hready⟩)
  obtain ⟨g, hc⟩ := Option.isSome_iff_exists.1 (State.choose_isSome hg he (h.bytes he))
  obtain ⟨r', he', hid, -⟩ := (State.choose_settled hc).request
  rw [(State.choose_moved w.state).eligible] at he'
  exact ⟨g, hc, r', mem_of_find?_eq_some he', hid, find?_some he'⟩

theorem Inv.pays (h : Inv w) {t : Turn n} (ht : t ∈ w.turns) (hc : t.committed = false) :
    ∃ r ∈ (w.state.images t.image).queue,
      r.id = t.id ∧ r.bytes ≤ (w.state.images t.image).deficit := by
  obtain ⟨bytes, hm, hle⟩ := (h.holds ht).2.request hc
  obtain ⟨r, hr, htag⟩ := mem_map.1 hm
  have hid : r.id = t.id := congrArg Prod.fst htag
  have hbytes : r.bytes = bytes := congrArg Prod.snd htag
  exact ⟨r, hr, hid, hbytes.trans_le hle⟩

/-- The scheduler in any interleaving of its methods, over any number of images: none of them
panics, and afterwards
* if a request is eligible and no turn is granted, one is chosen, and choosing again gives the same;
* at most one turn is held, it is the one that is granted, and until its commit the request is
  queued and the deficit of its image pays for it;
* no deficit reaches two quanta;
* a turn that is refused after a release leaves its request eligible. -/
theorem work_conserving {n : Nat} {s₀ : State n} (h : State.new n = .ok s₀)
    (actions : List (Action n)) :
    ∃ w, Machine.run step ⟨s₀, []⟩ actions = some w ∧
      (w.state.granted = none → (∃ i, ∃ r ∈ (w.state.images i).queue, r.ready = true) →
        ∃ g, w.state.choose.1 = some g ∧
          ∃ r ∈ (w.state.images g.1).queue, r.id = g.2 ∧ r.ready = true) ∧
      (∀ k, (State.wake^[k] w.state).choose.1 = w.state.choose.1) ∧
      (w.turns.length ≤ 1 ∧ w.state.granted = w.turns.head?.map fun t => (t.image, t.id)) ∧
      (∀ t ∈ w.turns, t.committed = false → ∃ r ∈ (w.state.images t.image).queue,
        r.id = t.id ∧ r.bytes ≤ (w.state.images t.image).deficit) ∧
      (∀ i, (w.state.images i).deficit < 2 * QUANTUM) ∧
      (∀ image id mid w', ⟨image, id, false⟩ ∈ w.turns →
        Machine.run step w (.release :: mid) = some w' →
        (∀ p u, p <+: mid → Machine.run step w (.release :: p) = some u →
          ⟨image, id, false⟩ ∈ u.turns) →
        ∃ u, w'.step (.refuse image id) = some u ∧
          ∃ r ∈ (u.state.images image).queue, r.id = id ∧ r.ready = true) := by
  obtain ⟨w, hrun, hinv⟩ := step_progress.run actions (Inv.new h)
  refine ⟨w, hrun, ?_, ?_, ?_, fun t ht hc => hinv.pays ht hc, hinv.wf.deficit, ?_⟩
  · rintro hg ⟨i, r, hr, hready⟩
    exact hinv.chooses hg hr hready
  · exact State.choose_iterate fun i r he => hinv.bytes he
  · obtain ⟨h0, hg⟩ | ⟨t, ht, hold⟩ := hinv.turns
    · exact ⟨by rw [h0]; exact Nat.zero_le 1, by rw [h0, hg]; rfl⟩
    · exact ⟨by rw [ht]; exact Nat.le_refl 1, by rw [ht, hold.granted]; rfl⟩
  · intro image id mid w' ht hr hheld
    exact refuse_released hinv ht hr hheld

/-- The only request is granted its turn, and refused after a release. -/
theorem work_conserving_released :
    ∃ (s₀ : State 1) (w : World 1),
      Machine.run step ⟨s₀, []⟩ [.ticket 0 (.read 4096), .turn 0 1] = some w ∧
        w.turns = [⟨0, 1, false⟩] ∧
        ∃ u, step { w with state := w.state.release } (.refuse 0 1) = some u ∧
          ∃ r ∈ (u.state.images 0).queue, r.id = 1 ∧ r.ready = true := by
  obtain ⟨s₀, hs₀⟩ : ∃ s₀, State.new 1 = .ok s₀ := ⟨_, rfl⟩
  obtain ⟨w, hrun, -, -, -, -, -, hrefuse⟩ :=
    work_conserving hs₀ [.ticket 0 (.read 4096), .turn 0 1]
  have hturns : w.turns = [⟨0, 1, false⟩] := by
    cases hs₀
    cases hrun
    rfl
  have ht : (⟨0, 1, false⟩ : Turn 1) ∈ w.turns := hturns ▸ List.mem_singleton_self _
  refine ⟨s₀, w, hrun, hturns, hrefuse 0 1 [] _ ht rfl ?_⟩
  intro p u hp hu
  cases List.prefix_nil.1 hp
  cases hu
  exact ht

end World

end Cas.Fair
