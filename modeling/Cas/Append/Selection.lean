import Cas.Append.Commute
import Cas.Append.Visits

/-!
# What a compaction takes

A load takes whole batches above D, in order, until E or until the next batch passes a bound. A batch
has at most 63 descriptors and its writes share one payload of 256 blocks, so it makes at most
256 + 62 edits: the first batch above D always fits, and a load always moves D. The same count keeps
the arrays of the preparation within their sizes.
-/

namespace Cas.Append

open Bytes List

/-! ## Edits of a batch -/

theorem Descriptor.length_edits (d : Descriptor) (n : Nat) : (d.edits n).length = d.editCount := by
  unfold Descriptor.edits Descriptor.editCount
  cases d.kind <;> simp

/-- The edits with a payload. -/
def payloadEdits (es : List Edit) : Nat := es.countP fun e => e.payload.isSome

/-- Every payload of the edits ends within the first `n` bytes. -/
def EditsWithin (n : Nat) (es : List Edit) : Prop :=
  ∀ e ∈ es, ∀ o, e.payload = some o → o + BLOCK_SIZE ≤ n

theorem EditsWithin.mono {m n : Nat} {es : List Edit} (h : EditsWithin m es) (hmn : m ≤ n) :
    EditsWithin n es := fun e he o ho => (h e he o ho).trans hmn

theorem EditsWithin.append {n : Nat} {es fs : List Edit} (he : EditsWithin n es)
    (hf : EditsWithin n fs) : EditsWithin n (es ++ fs) := fun e hm =>
  (mem_append.1 hm).elim (he e) (hf e)

theorem Descriptor.payloadEdits_edits (d : Descriptor) (n : Nat) :
    payloadEdits (d.edits n) = if d.kind = .write then d.payloadLength / BLOCK_SIZE else 0 := by
  unfold payloadEdits Descriptor.edits
  cases d.kind with
  | zero => simp
  | write =>
    rw [countP_map, countP_eq_length.2 (by simp)]
    simp

theorem Descriptor.edits_within {d : Descriptor} {imageBytes payloadBytes : Nat}
    (h : d.InRecord imageBytes payloadBytes) (n : Nat) :
    EditsWithin (n + payloadBytes) (d.edits n) := by
  intro e he o ho
  unfold Descriptor.edits at he
  cases hk : d.kind with
  | zero =>
    rw [hk] at he
    rw [mem_singleton.1 he] at ho
    cases ho
  | write =>
    rw [hk] at he
    obtain ⟨i, hi, rfl⟩ := mem_map.1 he
    obtain ⟨-, -, hle⟩ := h.write hk
    have hi := mem_range.1 hi
    obtain rfl := Option.some.inj ho
    have hblock : (i + 1) * BLOCK_SIZE ≤ d.payloadLength :=
      (Nat.mul_le_mul_right _ hi).trans (Nat.div_mul_le_self _ _)
    rw [add_mul, one_mul] at hblock
    omega

/-- The WRITEs among valid descriptors share what is left of the payload, in blocks. -/
theorem SlotsValid.editCounts {e : Envelope} {imageBytes : Nat} :
    ∀ {ds : List Descriptor} {index payloadEnd serial : Nat},
      SlotsValid e imageBytes ds index payloadEnd serial → payloadEnd % BLOCK_SIZE = 0 →
      ∃ blocks zeroes, payloadEnd + blocks * BLOCK_SIZE = e.payloadBytes ∧
        (ds.map Descriptor.editCount).sum = blocks + zeroes ∧ zeroes ≤ ds.length ∧
        (zeroes = ds.length → blocks = 0) ∧
        ∀ n, payloadEdits (ds.flatMap fun d => d.edits n) = blocks
  | [], _, payloadEnd, _, h, _ =>
    ⟨0, 0, by rw [zero_mul]; exact h, rfl, le_refl _, fun _ => rfl, fun _ => rfl⟩
  | d :: ds, index, payloadEnd, serial, h, ha => by
    obtain ⟨-, -, hr, hk⟩ := h
    have hcons : ∀ n, payloadEdits ((d :: ds).flatMap fun d => d.edits n) =
        payloadEdits (d.edits n) + payloadEdits (ds.flatMap fun d => d.edits n) := fun n =>
      countP_append
    have hlen := (validRange_iff.1 hr).2.2.1
    cases hkd : d.kind with
    | write =>
      simp only [hkd] at hk
      obtain ⟨⟨hpl, -⟩, -, hrest⟩ := hk
      rw [hpl] at hlen
      obtain ⟨blocks, zeroes, h1, h2, h3, -, h5⟩ := hrest.editCounts
        (by simp only [BLOCK_SIZE] at ha hlen ⊢; omega)
      refine ⟨d.payloadLength / BLOCK_SIZE + blocks, zeroes, ?_, ?_, ?_, ?_, fun n => ?_⟩
      · rw [add_mul, Nat.div_mul_cancel (Nat.dvd_of_mod_eq_zero hlen), ← h1]
        omega
      · rw [map_cons, sum_cons, h2, Descriptor.editCount, if_pos hkd]
        omega
      · exact h3.trans (Nat.le_succ _)
      · intro hz
        rw [length_cons] at hz
        omega
      · rw [hcons, h5, Descriptor.payloadEdits_edits, if_pos hkd]
    | zero =>
      simp only [hkd] at hk
      obtain ⟨blocks, zeroes, h1, h2, h3, h4, h5⟩ := hk.2.editCounts ha
      refine ⟨blocks, zeroes + 1, h1, ?_, ?_, ?_, fun n => ?_⟩
      · rw [map_cons, sum_cons, h2, Descriptor.editCount, if_neg (by rw [hkd]; decide)]
        omega
      · rw [length_cons]
        omega
      · intro hz
        rw [length_cons] at hz
        exact h4 (by omega)
      · rw [hcons, h5, Descriptor.payloadEdits_edits, if_neg (by rw [hkd]; decide), zero_add]

theorem Header.Valid.fits {imageBytes : Nat} {h : Header} (hv : h.Valid imageBytes) :
    h.editCount ≤ MAX_CHANGES ∧
      ∀ n, payloadEdits (h.descriptors.flatMap fun d => d.edits n) * BLOCK_SIZE =
        h.envelope.payloadBytes := by
  obtain ⟨blocks, zeroes, h1, h2, h3, h4, h5⟩ := hv.slots.editCounts (Nat.zero_mod _)
  have hlen : h.descriptors.length = h.envelope.descriptors := by simp [Header.descriptors]
  have hcount := hv.count_le
  have hbytes := hv.payload_le
  refine ⟨?_, fun n => by rw [h5, ← h1, zero_add]⟩
  rw [Header.editCount, h2]
  simp only [MAX_CHANGES, MAX_DESCRIPTORS, MAX_REQUEST_BYTES, BLOCK_SIZE] at *
  omega

/-! ## Edits of a list of batches -/

/-- The edits of batches whose payloads follow each other from `n` on. -/
def editsFrom : Nat → List Record → List Edit
  | _, [] => []
  | n, r :: rs => (r.descriptors.flatMap fun d => d.edits n) ++
      editsFrom (n + r.envelope.payloadBytes) rs

def editTotal (rs : List Record) : Nat := (rs.map fun r => r.header.editCount).sum

def payloadTotal (rs : List Record) : Nat := (rs.map fun r => r.envelope.payloadBytes).sum

theorem payloadTotal_concat (rs : List Record) (r : Record) :
    payloadTotal (rs ++ [r]) = payloadTotal rs + r.envelope.payloadBytes := by
  simp [payloadTotal]

theorem length_flatMap_edits (r : Record) (n : Nat) :
    (r.descriptors.flatMap fun d => d.edits n).length = r.header.editCount := by
  rw [length_flatMap, Header.editCount]
  exact congrArg sum (map_congr_left fun d _ => d.length_edits n)

theorem editsFrom_concat (r : Record) : ∀ (n : Nat) (rs : List Record),
    editsFrom n (rs ++ [r]) =
      editsFrom n rs ++ r.descriptors.flatMap fun d => d.edits (n + payloadTotal rs)
  | n, [] => by simp [editsFrom, payloadTotal]
  | n, s :: rs => by
    rw [cons_append, editsFrom, editsFrom, editsFrom_concat, append_assoc]
    simp [payloadTotal, add_assoc]

theorem length_editsFrom : ∀ (n : Nat) (rs : List Record),
    (editsFrom n rs).length = editTotal rs
  | _, [] => rfl
  | n, r :: rs => by
    rw [editsFrom, length_append, length_flatMap_edits, length_editsFrom, editTotal, editTotal,
      map_cons, sum_cons]

/-- The payload edits of valid batches are the blocks of their payloads, and stay within them. -/
theorem editsFrom_blocks : ∀ {n : Nat} {rs : List Record},
    (∀ r ∈ rs, ∃ imageBytes, r.header.Valid imageBytes) →
    payloadEdits (editsFrom n rs) * BLOCK_SIZE = payloadTotal rs ∧
      EditsWithin (n + payloadTotal rs) (editsFrom n rs)
  | _, [], _ => ⟨zero_mul _, nofun⟩
  | n, r :: rs, h => by
    obtain ⟨imageBytes, hv⟩ := h r mem_cons_self
    obtain ⟨hcount, hin⟩ := editsFrom_blocks (n := n + r.envelope.payloadBytes)
      fun x hx => h x (mem_cons_of_mem _ hx)
    have htotal : payloadTotal (r :: rs) = r.envelope.payloadBytes + payloadTotal rs := rfl
    have hrecord : EditsWithin (n + r.envelope.payloadBytes) (r.descriptors.flatMap fun d => d.edits n) := by
      intro e he
      obtain ⟨d, hd, he⟩ := mem_flatMap.1 he
      exact Descriptor.edits_within (hv.slots.inRecord (Nat.zero_mod _) d hd) n e he
    rw [htotal]
    refine ⟨?_, ?_⟩
    · rw [editsFrom, payloadEdits, countP_append, add_mul]
      exact congrArg₂ (· + ·) (hv.fits.2 n) hcount
    · rw [editsFrom, ← add_assoc]
      exact (hrecord.mono (Nat.le_add_right _ _)).append hin

/-- The input is made of the batches `rs`. -/
structure Input.Holds (i : Input) (rs : List Record) : Prop where
  edits : i.edits = editsFrom 0 rs
  bytes : i.payloadBytes = payloadTotal rs
  payload : i.payload.slice 0 i.payloadBytes = rs.flatMap Record.payload
  buffer : i.payload.length = MAX_REQUEST_BYTES
  few : i.edits.length ≤ MAX_CHANGES
  small : i.payloadBytes ≤ MAX_REQUEST_BYTES

theorem Input.Holds.add {i : Input} {rs : List Record} {r : Record} (h : i.Holds rs)
    (hf : i.Fits r) (hlen : r.payload.length = r.envelope.payloadBytes) :
    (i.add r).Holds (rs ++ [r]) := by
  have hbuf : i.payloadBytes + r.envelope.payloadBytes ≤ i.payload.length := by
    rw [h.buffer]
    exact hf.2
  refine ⟨?_, ?_, ?_, ?_, ?_, hf.2⟩
  · rw [editsFrom_concat, ← h.edits, zero_add, ← h.bytes]
    rfl
  · rw [payloadTotal_concat, ← h.bytes]
    rfl
  · -- the new payload follows the old one
    show (i.payload.put i.payloadBytes r.payload).slice 0 (i.payloadBytes + r.envelope.payloadBytes) = _
    rw [slice_add, zero_add, slice_put_disjoint (Or.inl (by omega)), h.payload,
      slice_put_self hbuf hlen, flatMap_append]
    simp
  · rw [← h.buffer]
    exact length_put _ _ _
  · show (i.edits ++ r.descriptors.flatMap fun d => d.edits i.payloadBytes).length ≤ _
    rw [length_append, length_flatMap_edits]
    exact hf.1

/-! ## Preparation -/

theorem pushWithin_some {α : Type} {capacity : Nat} {l : List α} (a : α) (h : l.length < capacity) :
    pushWithin capacity l a = some (l ++ [a]) := if_pos h

/-- The arrays of a preparation have room, and every block is in the buffer. -/
theorem Input.prepareFrom_some [Digest] {payload : Bytes} : ∀ {es : List Edit}
    {changes : List Manifest.Extent} {chunks : List Chunk}, EditsWithin payload.length es →
    changes.length + es.length ≤ MAX_CHANGES →
    chunks.length + payloadEdits es ≤ MAX_REQUEST_BYTES / BLOCK_SIZE →
    ∃ r, Input.prepareFrom payload es changes chunks = some r
  | [], _, _, _, _, _ => ⟨_, rfl⟩
  | e :: later, changes, chunks, hin, hchanges, hchunks => by
    have hlater : EditsWithin payload.length later := fun x hx => hin x (mem_cons_of_mem _ hx)
    have hcons : payloadEdits (e :: later) =
        payloadEdits later + if e.payload.isSome then 1 else 0 := countP_cons
    rw [length_cons] at hchanges
    rw [Input.prepareFrom]
    split
    · exact prepareFrom_some hlater (by omega) (by omega)
    cases hp : e.payload with
    | none =>
      rw [hp] at hcons
      simp only [Option.bind_eq_bind, Option.bind_some]
      rw [pushWithin_some _ (by omega)]
      exact prepareFrom_some hlater (by rw [length_append, length_singleton]; omega) (by omega)
    | some o =>
      rw [hp] at hcons
      have hcons : payloadEdits (e :: later) = payloadEdits later + 1 := hcons
      simp only [Option.bind_eq_bind, if_pos (hin e mem_cons_self o hp), Option.bind_some]
      rw [pushWithin_some _ (by omega), Option.bind_some]
      cases Chunk.new (payload.slice o BLOCK_SIZE) with
      | none => exact prepareFrom_some hlater (by rw [length_append, length_singleton]; omega) (by omega)
      | some chunk =>
        simp only
        rw [pushWithin_some chunk (by omega), Option.bind_some]
        exact prepareFrom_some hlater (by rw [length_append, length_singleton]; omega)
          (by rw [length_append, length_singleton]; omega)

/-! ## The order of the visits -/

/-- The visit continues the prefix `q`, and `e` does not split its batch. -/
structure Visit.Follows (e q : Nat) (v : Visit) : Prop where
  sequence : v.place.sequence = v.record.envelope.last
  fence : v.record.envelope.fence = true → v.record.envelope.last = q
  data : v.record.envelope.fence = false →
    v.record.envelope.first = q + 1 ∧ q < v.record.envelope.last
  cut : v.record.envelope.fence = false →
    v.record.envelope.last ≤ e ∨ e < v.record.envelope.first
  valid : ∃ imageBytes, v.record.header.Valid imageBytes
  payload : v.record.payload.length = v.record.envelope.payloadBytes

def Visit.next (_ : Nat) (v : Visit) : Nat := v.record.envelope.last

theorem Visit.Follows.le {e q : Nat} {v : Visit} (h : v.Follows e q) : q ≤ v.record.envelope.last := by
  cases hf : v.record.envelope.fence with
  | true => exact (h.fence hf).ge
  | false => exact le_of_lt (h.data hf).2

/-- A scan below `e` does not pass it. -/
theorem Visit.Follows.last_le {e q : Nat} {v : Visit} (h : v.Follows e q) (hlt : q < e) :
    v.record.envelope.last ≤ e := by
  cases hf : v.record.envelope.fence with
  | true => exact (h.fence hf).le.trans (le_of_lt hlt)
  | false => exact (h.cut hf).resolve_right (by have := (h.data hf).1; omega)

section Order

variable [Digest] {origin : Tail} {config : Config} {h : SegmentHeader}

theorem Place.Accepts.follows_visit {p : Place} {r : Record} {e : Nat} (ha : p.Accepts h r)
    (number : Nat) (hcut : r.envelope.fence = false → r.envelope.last ≤ e ∨ e < r.envelope.first) :
    Visit.Follows e p.sequence ⟨number, p.next r, r⟩ := by
  obtain ⟨-, -, -, hfe, hda⟩ := Header.follows_iff.1 ha.follows
  refine ⟨rfl, hfe, fun hf => ⟨(hda hf).1, ha.lt_of_data hf⟩, hcut, ⟨_, ha.valid⟩, ?_⟩
  · show (r.batch.bytes.slice BLOCK_SIZE r.envelope.payloadBytes).length = r.envelope.payloadBytes
    exact length_slice_of_le ha.length.ge

theorem Place.visits_chain {e : Nat} (number : Nat) : ∀ {rs : List Record} {p : Place},
    Chain (Place.Accepts h) Place.next p rs →
    (∀ r ∈ rs, r.envelope.fence = false → r.envelope.last ≤ e ∨ e < r.envelope.first) →
    Chain (Visit.Follows e) Visit.next p.sequence (Place.visits number p rs) ∧
      final Visit.next p.sequence (Place.visits number p rs) = (final Place.next p rs).sequence
  | [], _, _, _ => ⟨trivial, rfl⟩
  | r :: rs, p, ⟨ha, hc⟩, hcut => by
    obtain ⟨ih, hfinal⟩ := visits_chain number hc fun x hx => hcut x (mem_cons_of_mem _ hx)
    exact ⟨⟨ha.follows_visit number (hcut r mem_cons_self), ih⟩, hfinal⟩

/-- The visits of a trace continue each other, across its segments. -/
theorem Trace.visits_chain {e : Nat} : ∀ {ts : Trace} {p : Tail},
    Chain (Tail.Accepts config) Tail.next p ts → ts.Uncut e →
    Chain (Visit.Follows e) Visit.next p.sequence ts.visits ∧
      final Visit.next p.sequence ts.visits = (final Tail.next p ts).sequence
  | [], _, _, _ => ⟨trivial, rfl⟩
  | t :: ts, p, ⟨ha, hc⟩, hcut => by
    obtain ⟨ih, hfinal⟩ := visits_chain hc fun x hx => hcut x (mem_cons_of_mem _ hx)
    obtain ⟨hseg, hend⟩ := Place.visits_chain t.header.number ha.wf.chain (hcut t mem_cons_self)
    have hstart : (Place.start t.header).sequence = p.sequence := ha.sequence
    rw [hstart] at hseg hend
    have hend : final Visit.next p.sequence t.visits = t.place.sequence := hend
    rw [Trace.visits_cons, Chain.append, final_append, hend]
    exact ⟨⟨hseg, ih⟩, hfinal⟩

end Order

theorem Trace.marks_of_visit {ts : Trace} {v : Visit} (hv : v ∈ ts.visits) : ts.Marks v.position := by
  obtain ⟨t, ht, hv⟩ := mem_flatMap.1 hv
  have hplace : ∀ (rs : List Record) (p : Place), v ∈ Place.visits t.header.number p rs →
      ∃ before after, rs = before ++ after ∧ before ≠ [] ∧
        v.position = (final Place.next p before).position t.header.number := by
    intro rs
    induction rs with
    | nil =>
      intro p hv
      cases hv
    | cons r rs ih =>
      intro p hv
      rcases mem_cons.1 hv with rfl | hv
      · exact ⟨[r], rs, rfl, by simp, rfl⟩
      · obtain ⟨before, after, rfl, -, hpos⟩ := ih _ hv
        exact ⟨r :: before, after, rfl, by simp, hpos⟩
  obtain ⟨before, after, hr, hne, hpos⟩ := hplace _ _ hv
  exact ⟨t, ht, before, after, hr, hne, hpos⟩

/-! ## The run -/

namespace Load

/-- The scan has made the visits `us`. -/
structure Passed (d : Nat) (l : Load) (us : List Visit) : Prop where
  holds : l.input.Holds ((us.map Visit.record).filter fun r => r.Above d)
  cursor : l.input.cursor = us.getLast?.map Visit.position
  through : l.input.through = max d l.sequence
  within : ∀ u ∈ us, u.record.envelope.last ≤ l.sequence

/-- How a scan stands at its end, with the visits `xs` left. -/
def Ends (d e : Nat) (l : Load) (xs : List Visit) : Flow → Prop
  | .next => xs = []
  | .stop false => l.sequence = e
  | .stop true => ∃ v rest, xs = v :: rest ∧ v.record.Above d ∧ ¬ l.input.Fits v.record

variable {d e : Nat} {l l' : Load} {us : List Visit} {v : Visit}

theorem Passed.visit (h : l.Passed d us) (hv : v.Follows e l.sequence)
    (hs : l.visit d v = some l') : l'.Passed d (us ++ [v]) := by
  have hle := hv.le
  have hwithin : ∀ u ∈ us ++ [v], u.record.envelope.last ≤ v.record.envelope.last := by
    intro u hu
    rcases mem_append.1 hu with hu | hu
    · exact (h.within u hu).trans hle
    · rw [mem_singleton.1 hu]
  have hthrough := h.through
  unfold Load.visit at hs
  split at hs
  · rename_i habove
    split at hs
    · rename_i hfit
      obtain rfl := Option.some.inj hs
      refine ⟨?_, by simp, ?_, hwithin⟩
      · have hadd := h.holds.add hfit hv.payload
        rw [map_append, filter_append, map_singleton, filter_singleton,
          decide_eq_true habove, cond_true]
        exact ⟨hadd.edits, hadd.bytes, hadd.payload, hadd.buffer, hadd.few, hadd.small⟩
      · exact (Nat.max_eq_right (le_of_lt habove.2)).symm
    · cases hs
  · rename_i habove
    obtain rfl := Option.some.inj hs
    refine ⟨?_, by simp, ?_, hwithin⟩
    · rw [map_append, filter_append, map_singleton, filter_singleton,
        decide_eq_false habove, cond_false, append_nil]
      exact ⟨h.holds.edits, h.holds.bytes, h.holds.payload, h.holds.buffer, h.holds.few, h.holds.small⟩
    · -- a fence keeps the prefix, and a batch up to D leaves the input at D
      show l.input.through = max d v.record.envelope.last
      rw [hthrough]
      cases hf : v.record.envelope.fence with
      | true => rw [hv.fence hf]
      | false =>
        have : ¬ d < v.record.envelope.last := fun hlt => habove ⟨hf, hlt⟩
        omega

theorem run_passed (d e : Nat) : ∀ {vs us : List Visit} {l : Load}, l.Passed d us →
    Chain (Visit.Follows e) Visit.next l.sequence vs → l.sequence ≤ e →
    ∃ ws xs, vs = ws ++ xs ∧ (run d e vs l).1.Passed d (us ++ ws) ∧
      (run d e vs l).1.sequence = final Visit.next l.sequence ws ∧ (run d e vs l).1.sequence ≤ e ∧
      (run d e vs l).1.Ends d e xs (run d e vs l).2
  | [], us, l, hp, _, hle => ⟨[], [], rfl, by rw [append_nil]; exact hp, rfl, hle, rfl⟩
  | v :: vs, us, l, hp, ⟨hv, hc⟩, hle => by
    rw [run]
    by_cases he : l.sequence = e
    · rw [if_pos he]
      exact ⟨[], v :: vs, rfl, by simpa using hp, rfl, hle, he⟩
    · rw [if_neg he]
      cases hs : l.visit d v with
      | none =>
        refine ⟨[], v :: vs, rfl, by simpa using hp, rfl, hle, v, vs, rfl, ?_⟩
        unfold Load.visit at hs
        split at hs
        · rename_i habove
          split at hs
          · cases hs
          · rename_i hfit
            exact ⟨habove, hfit⟩
        · cases hs
      | some l₁ =>
        have hseq : l₁.sequence = v.record.envelope.last := visit_sequence hs
        have hle₁ : l₁.sequence ≤ e := by
          rw [hseq]
          exact hv.last_le (lt_of_le_of_ne hle he)
        obtain ⟨ws, xs, rfl, h1, h2, h3, h4⟩ := run_passed d e (hp.visit hv hs)
          (show Chain _ _ l₁.sequence vs by rw [hseq]; exact hc) hle₁
        refine ⟨v :: ws, xs, rfl, by simpa using h1, ?_, h3, h4⟩
        rw [h2, hseq]
        rfl

end Load

/-! ## A recovered log -/

/-- The bytes of the file with this number. -/
def Directory.contents (d : Directory) (number : Nat) : Bytes :=
  (d.files.find? fun c => c.number = number).elim [] Candidate.bytes

theorem Directory.contents_eq (d : Directory) {c : Candidate} (hc : c ∈ d.files) :
    d.contents c.number = c.bytes := by
  obtain ⟨x, hx⟩ : ∃ x, d.files.find? (fun x => x.number = c.number) = some x := by
    rw [← Option.isSome_iff_exists, find?_isSome]
    exact ⟨c, hc, by simp⟩
  have hmem := mem_of_find?_eq_some hx
  have hnum : x.number = c.number := by simpa using find?_some hx
  rw [Directory.contents, hx, Option.elim_some,
    inj_on_of_nodup_map d.distinct hmem hc hnum]

/-- The log that a recovery leaves is durable for a compaction from its manifest prefix, with the
position the recovery saved. -/
theorem Recovery.Sound.durable [Digest] {rec : Recovery} {d : Directory} {limits : Limits} {base : Nat}
    {closed : Trace} {active : SegmentTrace} (h : rec.Sound d limits base closed active)
    (v : Manifest.View) (hv : v.commit.durable = base)
    (himage : v.commit.imageBytes = rec.log.config.imageBytes) (hlt : base < rec.log.published) :
    ∃ origin, Selection.Durable ⟨v, rec.log.cursor, rec.log.published, rec.log.segments⟩ d.contents
      origin rec.log.config (closed ++ [active]) := by
  obtain ⟨first, -, hprec, hw, -⟩ := h.chain
  obtain ⟨done, rest, hparts, hstored, -⟩ := h.accepted
  have hpub : rec.log.published = active.place.sequence := by rw [h.determined]; rfl
  have hend : (final Tail.next ⟨0, first.header.precedingSequence⟩ (closed ++ [active])).sequence =
      rec.log.published := by
    rw [final_concat, hpub]
    rfl
  subst hv
  refine ⟨_, hw, ?_, himage, hprec, hlt, hend.ge, ?_, ?_⟩
  · rw [h.determined, map_append]
    rfl
  · intro t ht r hr
    have hlast : r.envelope.last ≤ rec.log.published := by
      rw [← hend]
      exact Trace.last_le hw ht hr
    refine ⟨h.boundary t ht r hr, fun _ => Or.inl hlast, fun _ => ?_, fun _ => h.verified t ht r hr⟩
    obtain ⟨c, hc, hst⟩ := forall₂_exists hstored ht
    have hfile : c ∈ d.files := by
      rw [← d.mem_candidates, hparts]
      exact mem_append_left _ hc
    rw [← hst.number, d.contents_eq hfile]
    exact (hst.records r hr).intact _
  · intro c hc
    rw [h.determined] at hc
    exact Trace.cursor_marks _ _ c hc

/-! ## The batches of a prefix -/

/-- The batches above `d` up to `q`. -/
def Trace.batches (ts : Trace) (d q : Nat) : List Record :=
  (ts.flatMap SegmentTrace.records).filter fun r => r.Above d ∧ r.envelope.last ≤ q

/-- The input is the longest prefix of whole batches above `d` and up to `e` that is within the
bounds, and its position is right after it. -/
structure Input.Takes (i : Input) (ts : Trace) (d e : Nat) : Prop where
  above : d < i.through
  within : i.through ≤ e
  boundary : ts.Uncut i.through
  holds : i.Holds (ts.batches d i.through)
  maximal : ∀ q, i.through < q → q ≤ e → ts.Uncut q →
    MAX_CHANGES < editTotal (ts.batches d q) ∨ MAX_REQUEST_BYTES < payloadTotal (ts.batches d q)
  cursor : ∃ c, i.cursor = some c ∧ ts.Marks c ∧ c.sequence = i.through

theorem Trace.map_record_visits : ∀ ts : Trace,
    ts.visits.map Visit.record = ts.flatMap SegmentTrace.records
  | [] => rfl
  | t :: ts => by
    rw [Trace.visits_cons, map_append, SegmentTrace.visits, Place.map_record_visits,
      Trace.map_record_visits ts, flatMap_cons]

theorem Visit.lt_of_chain {e : Nat} : ∀ {xs : List Visit} {q : Nat},
    Chain (Visit.Follows e) Visit.next q xs → ∀ v ∈ xs, v.record.envelope.fence = false →
      q < v.record.envelope.first ∧ q < v.record.envelope.last
  | v :: xs, q, ⟨hv, hc⟩, x, hx, hf => by
    rcases mem_cons.1 hx with rfl | hx
    · obtain ⟨h1, h2⟩ := hv.data hf
      exact ⟨by omega, h2⟩
    · obtain ⟨h1, h2⟩ := lt_of_chain hc x hx hf
      exact ⟨lt_of_le_of_lt hv.le h1, lt_of_le_of_lt hv.le h2⟩

section Batches

variable {ts : Trace} {us xs : List Visit} {d e q : Nat}

theorem Trace.batches_eq (hsplit : ts.visits = us ++ xs) (d q : Nat) : ts.batches d q =
    ((us.map Visit.record).filter fun r => r.Above d ∧ r.envelope.last ≤ q) ++
      (xs.map Visit.record).filter fun r => r.Above d ∧ r.envelope.last ≤ q := by
  rw [Trace.batches, ← Trace.map_record_visits, hsplit, map_append, filter_append]

/-- Up to a prefix that the first visits are within, they are the ones that count. -/
theorem filter_within (hus : ∀ u ∈ us, u.record.envelope.last ≤ q) (d : Nat) :
    ((us.map Visit.record).filter fun r => r.Above d ∧ r.envelope.last ≤ q) =
      (us.map Visit.record).filter fun r => r.Above d := by
  apply filter_congr
  intro r hr
  obtain ⟨u, hu, rfl⟩ := mem_map.1 hr
  simp [hus u hu]

theorem Trace.batches_of_split (hsplit : ts.visits = us ++ xs)
    (hus : ∀ u ∈ us, u.record.envelope.last ≤ q) (hxs : Chain (Visit.Follows e) Visit.next q xs) :
    ts.batches d q = (us.map Visit.record).filter fun r => r.Above d := by
  have hnone : ((xs.map Visit.record).filter fun r => r.Above d ∧ r.envelope.last ≤ q) = [] := ?_
  · rw [Trace.batches_eq hsplit, filter_within hus, hnone, append_nil]
  apply filter_eq_nil_iff.2
  intro r hr
  obtain ⟨x, hx, rfl⟩ := mem_map.1 hr
  simp only [decide_eq_true_eq, not_and, not_le]
  exact fun habove => (Visit.lt_of_chain hxs x hx habove.1).2

/-- The cut between two parts of a scan falls between batches. -/
theorem Trace.uncut_of_split (hsplit : ts.visits = us ++ xs)
    (hus : ∀ u ∈ us, u.record.envelope.last ≤ q) (hxs : Chain (Visit.Follows e) Visit.next q xs) :
    ts.Uncut q := by
  intro t ht r hr hf
  have hmem : r ∈ ts.visits.map Visit.record := by
    rw [Trace.map_record_visits]
    exact mem_flatMap.2 ⟨t, ht, hr⟩
  rw [hsplit, map_append] at hmem
  rcases mem_append.1 hmem with hmem | hmem
  · obtain ⟨u, hu, rfl⟩ := mem_map.1 hmem
    exact Or.inl (hus u hu)
  · obtain ⟨x, hx, rfl⟩ := mem_map.1 hmem
    exact Or.inr (Visit.lt_of_chain hxs x hx hf).1

/-- A longer prefix has the batches of a shorter one and the next batch. -/
theorem Trace.batches_next {v : Visit} {rest : List Visit} {q' : Nat}
    (hsplit : ts.visits = us ++ v :: rest) (hus : ∀ u ∈ us, u.record.envelope.last ≤ q)
    (hv : v.Follows e q) (habove : v.record.Above d) (hq : q < q') (hcut : ts.Uncut q') :
    ∃ more, ts.batches d q' =
      ((us.map Visit.record).filter fun r => r.Above d) ++ v.record :: more := by
  have hlast : v.record.envelope.last ≤ q' := by
    have hmem : v.record ∈ ts.flatMap SegmentTrace.records := by
      rw [← Trace.map_record_visits, hsplit]
      simp
    obtain ⟨t, ht, hr⟩ := mem_flatMap.1 hmem
    have hfirst := (hv.data habove.1).1
    exact (hcut t ht _ hr habove.1).resolve_right (by omega)
  refine ⟨(rest.map Visit.record).filter fun r => r.Above d ∧ r.envelope.last ≤ q', ?_⟩
  rw [Trace.batches_eq hsplit, filter_within fun u hu => (hus u hu).trans (le_of_lt hq),
    map_cons, filter_cons_of_pos (by simpa using ⟨habove, hlast⟩)]

end Batches

theorem Load.Passed.fits {d e : Nat} {l : Load} {us : List Visit} {v : Visit} (h : l.Passed d us)
    (hle : l.sequence ≤ d) (hv : v.Follows e l.sequence) : l.input.Fits v.record := by
  have hnone : ((us.map Visit.record).filter fun r => r.Above d) = [] := by
    apply filter_eq_nil_iff.2
    intro r hr
    obtain ⟨u, hu, rfl⟩ := mem_map.1 hr
    have hlast := (h.within u hu).trans hle
    exact fun habove => absurd (of_decide_eq_true habove).2 (not_lt.2 hlast)
  obtain ⟨imageBytes, hvalid⟩ := hv.valid
  have hedits := h.holds.edits
  have hbytes := h.holds.bytes
  rw [hnone] at hedits hbytes
  refine ⟨?_, ?_⟩
  · rw [hedits]
    simpa [editsFrom] using hvalid.fits.1
  · rw [hbytes]
    simpa [payloadTotal, Record.header] using hvalid.payload_le

theorem Load.start_passed (v : Manifest.View) {q : Nat} (hq : q ≤ v.commit.durable) :
    (Load.start v q).Passed v.commit.durable [] := by
  refine ⟨⟨rfl, rfl, rfl, ?_, Nat.zero_le _, Nat.zero_le _⟩, rfl, (Nat.max_eq_left hq).symm, by simp⟩
  exact length_zeros _

section Takes

variable [Digest] {s : Selection} {files : Nat → Bytes} {origin : Tail} {config : Config} {ts : Trace}

theorem Selection.Durable.uncut (h : s.Durable files origin config ts) : ts.Uncut s.through :=
  fun t ht r hr => (h.readable t ht r hr).through

/-- The scan of a durable log passes both checks at its end and has taken all that fits. -/
theorem Selection.Durable.run_takes (h : s.Durable files origin config ts) :
    ∃ input : Input, Load.finish s.base.commit.durable s.through
        (Load.run s.base.commit.durable s.through ts.visits (Load.start s.base origin.sequence)) =
          .ok input ∧ input.Takes ts s.base.commit.durable s.through := by
  obtain ⟨hchain, hend⟩ := Trace.visits_chain h.wf h.uncut
  obtain ⟨us, xs, hsplit, hp, hseq, hle, hends⟩ := Load.run_passed s.base.commit.durable s.through
    (Load.start_passed s.base h.starts) hchain (h.starts.trans (le_of_lt h.below))
  rw [nil_append] at hp
  rw [hsplit, Chain.append] at hchain
  have hxs := hchain.2
  rw [← show _ = final Visit.next origin.sequence us from hseq] at hxs
  generalize Load.run s.base.commit.durable s.through ts.visits (Load.start s.base origin.sequence) =
    r at *
  obtain ⟨l, flow⟩ := r
  have hreached : flow.bounded = false → l.sequence = s.through := by
    intro hb
    match flow, hends with
    | .stop false, hends => exact hends
    | .next, hnil =>
      -- all visits were made, and the log reaches E
      obtain rfl : xs = [] := hnil
      rw [append_nil] at hsplit
      have hreach := h.reaches
      rw [← hend, hsplit] at hreach
      exact le_antisymm hle (hreach.trans hseq.ge)
  have habove : s.base.commit.durable < l.sequence := by
    by_contra hlt
    match flow, hends with
    | .next, _ => exact hlt (h.below.trans_eq (hreached rfl).symm)
    | .stop false, _ => exact hlt (h.below.trans_eq (hreached rfl).symm)
    | .stop true, ⟨v, rest, hx, _, hfit⟩ =>
      rw [hx] at hxs
      exact hfit (hp.fits (not_lt.1 hlt) hxs.1)
  have hthrough : l.input.through = l.sequence :=
    hp.through.trans (Nat.max_eq_right (le_of_lt habove))
  have hbatches := Trace.batches_of_split (d := s.base.commit.durable) hsplit hp.within hxs
  refine ⟨l.input, ?_, ?_, ?_, ?_, ?_, ?_, ?_⟩
  · refine require_bind_eq_ok.2 ⟨?_, require_bind_eq_ok.2 ⟨by rw [hthrough]; exact habove, rfl⟩⟩
    cases hb : flow.bounded with
    | true => exact Or.inl rfl
    | false => exact Or.inr (hreached hb)
  · rw [hthrough]
    exact habove
  · rw [hthrough]
    exact hle
  · rw [hthrough]
    exact Trace.uncut_of_split hsplit hp.within hxs
  · rw [hthrough, hbatches]
    exact hp.holds
  · intro q hq hqe hcut
    rw [hthrough] at hq
    match flow, hends with
    | .next, _ => exact absurd hqe (by have := hreached rfl; omega)
    | .stop false, _ => exact absurd hqe (by have := hreached rfl; omega)
    | .stop true, ⟨v, rest, hx, hv, hfit⟩ =>
      rw [hx] at hsplit hxs
      obtain ⟨more, hmore⟩ := Trace.batches_next hsplit hp.within hxs.1 hv hq hcut
      have hedits := hp.holds.edits
      have hbytes := hp.holds.bytes
      rw [Input.Fits, hedits, length_editsFrom, hbytes] at hfit
      rw [hmore]
      simp only [editTotal, payloadTotal, map_append, map_cons, sum_append,
        sum_cons] at hfit ⊢
      omega
  · -- some visit was made, since the scan left D behind
    have hne : us ≠ [] := by
      rintro rfl
      have : l.sequence = origin.sequence := hseq
      have := h.starts
      omega
    obtain ⟨us', u, rfl⟩ := (eq_nil_or_concat us).resolve_left hne
    rw [concat_eq_append] at *
    refine ⟨u.position, by rw [hp.cursor]; simp, ?_, ?_⟩
    · apply Trace.marks_of_visit
      rw [hsplit]
      simp
    · rw [hthrough, show l.sequence = final Visit.next origin.sequence (us' ++ [u]) from hseq,
        final_concat]
      exact (Chain.concat.1 hchain.1).2.sequence

/-- The preparation of an input of valid batches completes. -/
theorem Input.Holds.prepare {i : Input} {rs : List Record} (h : i.Holds rs)
    (hv : ∀ r ∈ rs, ∃ imageBytes, r.header.Valid imageBytes) : ∃ r, i.prepare = some r := by
  obtain ⟨hcount, hin⟩ := editsFrom_blocks (n := 0) hv
  rw [← h.edits, ← h.bytes] at hcount hin
  refine Input.prepareFrom_some (hin.mono ?_) (by simpa using h.few) ?_
  · rw [zero_add, h.buffer]
    exact h.small
  · rw [length_nil, zero_add, Nat.le_div_iff_mul_le (by decide), hcount]
    exact h.small

/-- A load over a durable log takes the longest prefix of whole batches within its bounds, which ends
above D, and the arrays of its preparation hold it. -/
theorem Selection.load_takes (h : s.Durable files origin config ts) :
    ∃ input : Input, s.load files = .ok input ∧
      input.Takes ts s.base.commit.durable s.through ∧
      ∃ changes chunks, input.prepare = some (changes, chunks) := by
  obtain ⟨input, hload, htakes⟩ := h.run_takes
  obtain ⟨r, hr⟩ := htakes.holds.prepare fun r hr => by
    obtain ⟨t, ht, hr⟩ := List.mem_flatMap.1 (List.mem_filter.1 hr).1
    obtain ⟨_, _, -, -, ha, -⟩ := (h.wf.accepts ht).2.chain.exists_of_mem hr
    exact ⟨_, ha.valid⟩
  exact ⟨input, (Selection.load_eq h).trans hload, htakes, r.1, r.2, hr⟩

omit [Digest] in
/-- The compaction of a log of one ZERO, at the prefix 0. -/
theorem Selection.load_takes_zero :
    let _ := nullDigest
    ∃ (s : Selection) (files : Nat → Bytes) (origin : Tail) (config : Config) (ts : Trace),
      s.Durable files origin config ts ∧ s.base.commit.durable = 0 ∧ s.through = 1 ∧
      ∃ input : Input, s.load files = .ok input ∧ input.Takes ts 0 1 ∧
        ∃ changes chunks, input.prepare = some (changes, chunks) := by
  intro _
  obtain ⟨d, rec, hin, hpub, -⟩ := Log.exists_inspectIn_zero
  obtain ⟨closed, active, hsound⟩ := Log.sound_of_inspectIn hin
  let v : Manifest.View := ⟨⟨.zero 16, .zero 16, 1, .empty, 0, rec.log.config.imageBytes⟩, 0⟩
  obtain ⟨origin, hd⟩ := hsound.durable v rfl rfl (by rw [hpub]; decide)
  obtain ⟨input, hload, htakes, hprepare⟩ := Selection.load_takes hd
  rw [hpub] at hd hload htakes
  exact ⟨_, _, _, _, _, hd, rfl, rfl, input, hload, htakes, hprepare⟩

end Takes

end Cas.Append
