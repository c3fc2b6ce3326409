import Cas.Append.Staging

/-!
# Scan positions of a trace

A saved scan position names the place right after a record. A log only grows, so a position it once
had stays one: segments get new records at their ends, and new segments follow them.
-/

namespace Cas.Append

open List

/-- The scan position at a place of a segment. -/
def Place.position (p : Place) (number : Nat) : ScanPosition :=
  ⟨number, p.offset, p.batch, p.sequence⟩

namespace Trace

/-- The position is right after a record of the trace, and has the prefix reached there. -/
def Marks (ts : Trace) (c : ScanPosition) : Prop :=
  ∃ t ∈ ts, ∃ before after, t.records = before ++ after ∧ before ≠ [] ∧
    c = (SegmentTrace.place ⟨t.header, before⟩).position t.header.number

/-- The second trace has every segment of the first one, with its records or more. -/
def Grows (ts us : Trace) : Prop :=
  ∀ t ∈ ts, ∃ u ∈ us, u.header = t.header ∧ t.records <+: u.records

theorem Grows.refl (ts : Trace) : ts.Grows ts := fun t ht => ⟨t, ht, rfl, prefix_rfl⟩

theorem Grows.push (ts : Trace) (t : SegmentTrace) (r : Record) :
    Grows (ts ++ [t]) (ts ++ [t.push r]) := by
  intro u hu
  rcases mem_append.1 hu with hu | hu
  · exact ⟨u, mem_append_left _ hu, rfl, prefix_rfl⟩
  · rw [mem_singleton.1 hu]
    exact ⟨t.push r, by simp, rfl, prefix_append _ _⟩

theorem Grows.enter (ts : Trace) (t : SegmentTrace) : Grows ts (ts ++ [t]) :=
  fun u hu => ⟨u, mem_append_left _ hu, rfl, prefix_rfl⟩

theorem Marks.grow {ts us : Trace} {c : ScanPosition} (h : ts.Marks c) (hg : ts.Grows us) :
    us.Marks c := by
  obtain ⟨t, ht, before, after, hr, hne, hc⟩ := h
  obtain ⟨u, hu, hh, rest, hrest⟩ := hg t ht
  refine ⟨u, hu, before, after ++ rest, ?_, hne, ?_⟩
  · rw [← hrest, hr, append_assoc]
  · rw [hh]
    exact hc

end Trace

/-! ## The position a recovery leaves -/

/-- The last position at the prefix `base` in a segment, or the one found before it. -/
theorem SegmentTrace.cursor_eq (base : Nat) (h : SegmentHeader) (found : Option ScanPosition) :
    ∀ rs : List Record, SegmentTrace.cursor base ⟨h, rs⟩ found = found ∨
      ∃ before after, rs = before ++ after ∧ before ≠ [] ∧
        (SegmentTrace.place ⟨h, before⟩).sequence = base ∧
        SegmentTrace.cursor base ⟨h, rs⟩ found =
          some ((SegmentTrace.place ⟨h, before⟩).position h.number) := by
  intro rs
  induction rs using reverseRecOn with
  | nil => exact Or.inl rfl
  | append_singleton rs r ih =>
    have hpush : (⟨h, rs ++ [r]⟩ : SegmentTrace) = SegmentTrace.push ⟨h, rs⟩ r := rfl
    rw [hpush, SegmentTrace.push_cursor]
    by_cases hlast : r.envelope.last = base
    · rw [if_pos hlast]
      refine Or.inr ⟨rs ++ [r], [], by simp, by simp, ?_, ?_⟩
      · exact (congrArg Place.sequence (SegmentTrace.push_place ⟨h, rs⟩ r)).trans hlast
      · have hplace : SegmentTrace.place ⟨h, rs ++ [r]⟩ = (SegmentTrace.place ⟨h, rs⟩).next r :=
          SegmentTrace.push_place ⟨h, rs⟩ r
        rw [hplace, Place.position]
        simp only [Place.next, hlast]
    · rw [if_neg hlast]
      rcases ih with ih | ⟨before, after, hr, hne, hseq, ih⟩
      · exact Or.inl ih
      · exact Or.inr ⟨before, after ++ [r], by simp [hr], hne, hseq, ih⟩

theorem Trace.cursor_marks (base : Nat) : ∀ (ts : Trace) (c : ScanPosition),
    ts.cursor base = some c → ts.Marks c ∧ c.sequence = base := by
  intro ts
  induction ts using reverseRecOn with
  | nil =>
    intro c h
    cases h
  | append_singleton ts t ih =>
    intro c h
    rw [Trace.cursor_concat] at h
    obtain ⟨header, rs⟩ := t
    rcases SegmentTrace.cursor_eq base header (Trace.cursor base ts) rs with hsame | hfound
    · rw [hsame] at h
      obtain ⟨hm, hs⟩ := ih c h
      exact ⟨hm.grow (.enter ts _), hs⟩
    · obtain ⟨before, after, hr, hne, hseq, heq⟩ := hfound
      rw [heq] at h
      have hc := Option.some.inj h
      subst hc
      exact ⟨⟨⟨header, rs⟩, by simp, before, after, hr, hne, rfl⟩, hseq⟩

namespace Staging

/-- The saved position of the log is one of its history. -/
def Marked (s : Staging) : Prop := ∀ c, s.log.cursor = some c → s.trace.Marks c

theorem Marked.of_grows {s s' : Staging} (h : s.Marked) (hc : s'.log.cursor = s.log.cursor)
    (hg : s.trace.Grows s'.trace) : s'.Marked := by
  intro c hc'
  rw [hc] at hc'
  exact (h c hc').grow hg

theorem Marked.pushed {s : Staging} (h : s.Marked) {sub : Submission} {l : Log}
    (hc : l.cursor = s.log.cursor) : (s.pushed sub l).Marked :=
  h.of_grows hc (.push _ _ _)

theorem Marked.rotated {s : Staging} (h : s.Marked) {header : SegmentHeader} {l : Log}
    (hc : l.cursor = s.log.cursor) : (s.rotated header l).Marked :=
  h.of_grows hc (.enter _ _)

end Staging

end Cas.Append
