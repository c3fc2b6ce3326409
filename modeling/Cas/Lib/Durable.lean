import Mathlib.Data.List.Basic
import Mathlib.Tactic.Common

/-!
# Directories across a power loss

A directory is what running processes see of it, together with the entries that a power loss is
bound to keep and those it may keep. An entry that is created or removed is at risk until the
directory is synced; a process that dies alone loses nothing.
-/

namespace Cas

structure Durable (α : Type) where
  seen : List α
  /-- On disk whatever happens. -/
  kept : List α
  /-- On disk as far as one can tell. -/
  maybe : List α
  kept_seen : kept ⊆ seen
  seen_maybe : seen ⊆ maybe

namespace Durable

variable {α : Type}

/-- All entries are synced, and nothing else is on disk. -/
def settled (l : List α) : Durable α := ⟨l, l, l, List.Subset.refl l, List.Subset.refl l⟩

def create (d : Durable α) (a : α) : Durable α where
  seen := a :: d.seen
  kept := d.kept
  maybe := a :: d.maybe
  kept_seen := List.Subset.trans d.kept_seen (List.subset_cons_self a d.seen)
  seen_maybe := List.cons_subset_cons a d.seen_maybe

/-- Unlink the entries with `p`. -/
def remove (d : Durable α) (p : α → Bool) : Durable α where
  seen := d.seen.filter fun a => !p a
  kept := d.kept.filter fun a => !p a
  maybe := d.maybe
  kept_seen := by
    intro a ha
    rw [List.mem_filter] at ha ⊢
    exact ⟨d.kept_seen ha.1, ha.2⟩
  seen_maybe := List.Subset.trans (List.filter_subset_self _) d.seen_maybe

def sync (d : Durable α) : Durable α := settled d.seen

/-- A power loss may leave exactly the entries `l`. -/
def Survives (d : Durable α) (l : List α) : Prop := d.kept ⊆ l ∧ l ⊆ d.maybe

instance [DecidableEq α] (d : Durable α) (l : List α) : Decidable (d.Survives l) :=
  inferInstanceAs (Decidable (_ ∧ _))

theorem survives_seen (d : Durable α) : d.Survives d.seen := ⟨d.kept_seen, d.seen_maybe⟩

theorem kept_maybe (d : Durable α) : d.kept ⊆ d.maybe :=
  List.Subset.trans d.kept_seen d.seen_maybe

end Durable

end Cas
