import Cas.Append.Staging

/-!
# Room for a later recovery

`append_capacity` reserves two index intervals for each descriptor in flight. A recovery replays the
records batch by batch and asks for the same room before each one. `Trace.Roomy` is the history's
side of that: every batch above D had the room over the index of the mutations before it. A record
placed by a log has it, and a higher D only makes the index smaller.
-/

namespace Cas.Append

open Bytes List

namespace Trace

section Push

variable {ts : Trace} {t : SegmentTrace} {r : Record}

/-- The mutations of a pushed record follow those of the trace. -/
theorem mutations_push (ts : Trace) (t : SegmentTrace) (r : Record) :
    Trace.mutations (ts ++ [t.push r]) =
      Trace.mutations (ts ++ [t]) ++ r.mutations t.header.number := by
  rw [Trace.mutations_concat, Trace.mutations_concat, SegmentTrace.push_mutations,
    append_assoc]

theorem mem_push {u : SegmentTrace} (hu : u ∈ ts ++ [t.push r]) {x : Record} (hx : x ∈ u.records) :
    x = r ∨ ∃ v ∈ ts ++ [t], x ∈ v.records := by
  rcases mem_append.1 hu with hu | hu
  · exact Or.inr ⟨u, mem_append_left _ hu, hx⟩
  · rw [mem_singleton.1 hu, SegmentTrace.push_records] at hx
    rcases mem_append.1 hx with hx | hx
    · exact Or.inr ⟨t, by simp, hx⟩
    · exact Or.inl (mem_singleton.1 hx)

theorem mutations_enter (ts : Trace) (h : SegmentHeader) :
    Trace.mutations (ts ++ [⟨h, []⟩]) = ts.mutations := by
  rw [Trace.mutations_concat]
  exact append_nil _

end Push

/-- Every batch above `d` had two intervals for each of its mutations, over the index before it. -/
def Roomy (ts : Trace) (limits : Limits) (d : Nat) : Prop :=
  ∀ t ∈ ts, ∀ r ∈ t.records, r.envelope.fence = false → d < r.envelope.last →
    (ts.indexed d (r.envelope.first - 1)).length + 2 * r.envelope.descriptors ≤ limits.intervals

section Roomy

variable [Digest] {origin : Tail} {config : Config} {limits : Limits} {ts : Trace}
  {t : SegmentTrace} {r : Record} {d : Nat}

theorem last_le (hw : ts.Wf origin config) (ht : t ∈ ts) (hr : r ∈ t.records) :
    r.envelope.last ≤ (final Tail.next origin ts).sequence := by
  obtain ⟨us, vs, rfl, -, ha, hvs⟩ := Chain.exists_of_mem hw ht
  obtain ⟨l₁, l₂, hrec, -, -, h₂⟩ := ha.wf.chain.exists_of_mem hr
  have h1 : r.envelope.last ≤ t.place.sequence := by
    rw [SegmentTrace.place, hrec, final_append, final_cons]
    exact Place.final_sequence_le h₂
  have h2 := Trace.final_sequence_le hvs
  rw [final_append, final_cons]
  exact h1.trans h2

/-- The first mutation of a batch comes before its last one. -/
theorem first_le (hw : ts.Wf origin config) (ht : t ∈ ts) (hr : r ∈ t.records)
    (hf : r.envelope.fence = false) : r.envelope.first ≤ r.envelope.last := by
  obtain ⟨_, _, -, -, hacc, -⟩ := (hw.accepts ht).2.chain.exists_of_mem hr
  have h : r.envelope.first + (r.envelope.descriptors - 1) = r.envelope.last :=
    (hacc.valid.data hf).2.2.1
  omega

theorem indexed_push (ha : t.place.Accepts t.header r) (d : Nat) {p : Nat}
    (hp : p ≤ t.place.sequence) :
    indexed (ts ++ [t.push r]) d p = indexed (ts ++ [t]) d p := by
  have hnil : within d p (r.mutations t.header.number) = [] := by
    apply within_eq_nil
    intro m hm
    have hmem := mem_map_of_mem (f := Placed.sequence) hm
    rw [Record.map_sequence_mutations, ha.sequences.2.2, mem_range'_1] at hmem
    omega
  rw [indexed, indexed, mutations_push, within_append, hnil, append_nil]

theorem Roomy.push (h : Roomy (ts ++ [t]) limits d) (hw : Wf origin config (ts ++ [t]))
    (ha : t.place.Accepts t.header r)
    (hroom : r.envelope.fence = false → d < r.envelope.last →
      (indexed (ts ++ [t]) d t.place.sequence).length + 2 * r.envelope.descriptors ≤
        limits.intervals) : Roomy (ts ++ [t.push r]) limits d := by
  intro u hu x hx hf hlt
  rcases mem_push hu hx with rfl | ⟨v, hv, hx⟩
  · have hfirst : x.envelope.first = t.place.sequence + 1 :=
      ((Header.follows_iff.1 ha.follows).2.2.2.2 hf).1
    rw [hfirst, Nat.add_sub_cancel, indexed_push ha d (Nat.le_refl _)]
    exact hroom hf hlt
  · have hle := last_le hw hv hx
    rw [final_concat] at hle
    have hle : x.envelope.last ≤ t.place.sequence := hle
    have hfl := first_le hw hv hx hf
    rw [indexed_push ha d (by omega)]
    exact h v hv x hx hf hlt

omit [Digest] in
theorem Roomy.enter (h : ts.Roomy limits d) (header : SegmentHeader) :
    Roomy (ts ++ [⟨header, []⟩]) limits d := by
  intro u hu x hx hf hlt
  rw [indexed, mutations_enter]
  rcases mem_append.1 hu with hu | hu
  · exact h u hu x hx hf hlt
  · rw [mem_singleton.1 hu] at hx
    cases hx

theorem Roomy.above (h : ts.Roomy limits d) (hw : ts.Wf origin config) {e : Nat} (hle : d ≤ e) :
    ts.Roomy limits e := by
  intro u hu x hx hf hlt
  have hroom := h u hu x hx hf (by omega)
  rcases lt_or_ge (x.envelope.first - 1) e with hcut | hcut
  · -- D splits this batch: nothing before it is indexed
    have hnil : ts.indexed e (x.envelope.first - 1) = [] := by
      rw [indexed, within_eq_nil]
      · rfl
      · intro m _
        omega
    rw [hnil, length_nil, zero_add]
    omega
  · have hmono := length_indexed_above hw hle hcut
    omega

/-- The segments whose mutations are all compacted do not matter. -/
theorem indexed_suffix {gone : Trace} (hw : Wf origin config (gone ++ ts))
    (hd : (final Tail.next origin gone).sequence ≤ d) (p : Nat) :
    indexed (gone ++ ts) d p = indexed ts d p := by
  rw [Wf, Chain.append] at hw
  have hnil : within d p (mutations gone) = [] := by
    apply within_eq_nil
    intro m hm
    exact Or.inl ((sequence_bounds hw.1 m hm).2.trans hd)
  rw [indexed, mutations, flatMap_append, within_append]
  exact congrArg (fun ms => Interval.replay [] (map Placed.entry ms))
    (by rw [show flatMap SegmentTrace.mutations gone = mutations gone from rfl, hnil]; rfl)

end Roomy

end Trace

namespace Staging

/-- What a later recovery needs of the sizes of a log. -/
structure Sized (s : Staging) : Prop where
  roomy : s.trace.Roomy s.log.limits s.log.compacted
  pins : s.log.config.segmentBytes / BLOCK_SIZE < 2 ^ 32
  bytes : MAX_BATCH_BYTES + 2 * BLOCK_SIZE ≤ s.log.config.segmentBytes

theorem Sized.of_log {s : Staging} (h : s.Sized) {l : Log} {synced : Trace}
    (hd : l.compacted = s.log.compacted) (hl : l.limits = s.log.limits)
    (hc : l.config = s.log.config) : Sized { s with log := l, synced } := by
  refine ⟨?_, ?_, ?_⟩
  · show s.trace.Roomy l.limits l.compacted
    rw [hd, hl]
    exact h.roomy
  · show l.config.segmentBytes / BLOCK_SIZE < 2 ^ 32
    rw [hc]
    exact h.pins
  · show _ ≤ l.config.segmentBytes
    rw [hc]
    exact h.bytes

section Keep

variable [Digest] {s : Staging} {sub : Submission} {l : Log}

/-- A placed record keeps the sizes when its batch had room. -/
theorem Sized.pushed (h : s.Sized) (hi : s.Positions)
    (ha : s.active.place.Accepts s.active.header ⟨sub.offset, sub.batch⟩)
    (hroom : sub.batch.envelope.fence = false →
      (s.trace.indexed s.log.compacted s.log.issued).length +
        2 * sub.batch.envelope.descriptors ≤ s.log.limits.intervals)
    (hd : l.compacted = s.log.compacted) (hl : l.limits = s.log.limits)
    (hc : l.config = s.log.config) : (s.pushed sub l).Sized := by
  have hroomy : Trace.Roomy (s.closed ++ [s.active.push ⟨sub.offset, sub.batch⟩]) s.log.limits
      s.log.compacted := by
    refine Trace.Roomy.push h.roomy hi.trace ha fun hf _ => ?_
    rw [← hi.issued]
    exact hroom hf
  refine ⟨?_, ?_, ?_⟩
  · show Trace.Roomy (s.closed ++ [s.active.push ⟨sub.offset, sub.batch⟩]) l.limits l.compacted
    rw [hd, hl]
    exact hroomy
  · show l.config.segmentBytes / BLOCK_SIZE < 2 ^ 32
    rw [hc]
    exact h.pins
  · show _ ≤ l.config.segmentBytes
    rw [hc]
    exact h.bytes

theorem Sized.append (h : s.Sized) (hi : s.Inv) {b : Builder} {ds : List Descriptor}
    (hb : b.Wf ds) (hp : s.log.prepareAppend b = .ok (sub, l)) : (s.pushed sub l).Sized := by
  obtain ⟨-, hcan, -, hoff, ha, -, hdesc, -, hcount, -⟩ := hi.append_record hb hp
  obtain ⟨-, batch, -, -, rfl⟩ := Log.prepareAppend_eq_ok.1 hp
  rw [← hoff] at ha
  refine h.pushed hi.toPositions ha (fun _ => ?_) rfl rfl rfl
  -- the reserved room covers the mutations that are still to be published
  have hlen := Trace.length_indexed_le hi.trace (hi.compacted.trans hi.durable) hi.published_le
  rw [← hi.index, ← hi.pending] at hlen
  have hcapa := hcan.capacity
  rw [Log.appendCapacity] at hcapa
  have hds : sub.batch.envelope.descriptors = b.descriptors := by
    have := congrArg length hdesc
    rw [length_stamped] at this
    rw [hcount, ← this]
    simp [Record.descriptors, Header.descriptors, Record.header, Record.envelope]
  have hpos := hcan.nonempty
  simp only [Builder.isEmpty, decide_eq_false_iff_not] at hpos
  omega

theorem Sized.fence (h : s.Sized) (hi : s.Positions) (hp : s.log.prepareFence = .ok (sub, l)) :
    (s.pushed sub l).Sized := by
  obtain ⟨-, -, -, hoff, ha, -, henv⟩ := hi.fence_record hp
  obtain ⟨-, batch, -, -, rfl⟩ := Log.prepareFence_eq_ok.1 hp
  rw [← hoff] at ha
  refine h.pushed hi ha (fun hf => ?_) rfl rfl rfl
  rw [henv] at hf
  cases hf

omit [Digest] in
theorem Sized.enter (h : s.Sized) (header : SegmentHeader) (hd : l.compacted = s.log.compacted)
    (hl : l.limits = s.log.limits) (hc : l.config = s.log.config) :
    (s.rotated header l).Sized := by
  refine ⟨?_, ?_, ?_⟩
  · show Trace.Roomy (s.trace ++ [⟨header, []⟩]) l.limits l.compacted
    rw [hd, hl]
    exact h.roomy.enter header
  · show l.config.segmentBytes / BLOCK_SIZE < 2 ^ 32
    rw [hc]
    exact h.pins
  · show _ ≤ l.config.segmentBytes
    rw [hc]
    exact h.bytes

theorem Sized.compact (h : s.Sized) (hi : s.Positions) {c : Compacted}
    (hp : s.log.publishCompaction c = .ok l) : Sized { s with log := l } := by
  obtain ⟨-, hbase, hlt, -, -, rfl⟩ := Log.publishCompaction_eq_ok.1 hp
  have hcomp : s.log.compacted = c.previous.commit.durable := by rw [Log.compacted, hbase]; rfl
  exact ⟨h.roomy.above hi.trace (by rw [hcomp]; exact le_of_lt hlt), h.pins, h.bytes⟩

end Keep

end Staging

end Cas.Append
