import Mathlib.Data.List.Basic
import Mathlib.Tactic.Common

/-!
# Runs of partial machines

A machine takes one operation at a time and may get stuck. An invariant under which no operation
gets stuck, and which every operation keeps, holds at the end of every run, and every run ends.
-/

namespace Cas.Machine

variable {σ α : Type}

/-- The state after a list of operations, unless one of them gets stuck. -/
def run (step : σ → α → Option σ) : σ → List α → Option σ
  | s, [] => some s
  | s, a :: l => (step s a).bind fun s' => run step s' l

/-- One operation goes on, and the invariant with it. -/
def Progress (step : σ → α → Option σ) (inv : σ → Prop) : Prop :=
  ∀ s a, inv s → ∃ s', step s a = some s' ∧ inv s'

theorem Progress.run {step : σ → α → Option σ} {inv : σ → Prop} (h : Progress step inv) :
    ∀ (l : List α) {s : σ}, inv s → ∃ s', run step s l = some s' ∧ inv s'
  | [], s, hs => ⟨s, rfl, hs⟩
  | a :: l, s, hs => by
    obtain ⟨s₁, h1, hs1⟩ := h s a hs
    obtain ⟨s₂, h2, hs2⟩ := h.run l hs1
    refine ⟨s₂, ?_, hs2⟩
    rw [Machine.run, h1]
    exact h2

end Cas.Machine
