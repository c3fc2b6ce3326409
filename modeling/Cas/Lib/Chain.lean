import Mathlib.Data.List.Forall2
import Mathlib.Tactic.Common

/-!
# Chains: lists read from left to right with a state

A log, a packed record or a scan is read in one direction: each element is accepted in the state
that the elements before it left. `Chain ok next s l` says that every element of `l` is accepted when
the reading starts in `s`, and `final next s l` is the state after `l`.
-/

namespace Cas

open List

section Forall₂

variable {α β γ : Type*} {R S : α → β → Prop}

theorem forall₂_concat_left {a : α} : ∀ {l : List α} {m : List β}, List.Forall₂ R (l ++ [a]) m →
    ∃ m' b, m = m' ++ [b] ∧ List.Forall₂ R l m' ∧ R a b
  | [], _, .cons h .nil => ⟨[], _, rfl, .nil, h⟩
  | _ :: _, _, .cons h hf => by
    obtain ⟨m', b, rfl, h1, h2⟩ := forall₂_concat_left hf
    exact ⟨_ :: m', b, rfl, .cons h h1, h2⟩

/-- A relation may be weakened on the elements of the lists. -/
theorem forall₂_imp_mem : ∀ {l : List α} {m : List β}, List.Forall₂ R l m →
    (∀ a ∈ l, ∀ b ∈ m, R a b → S a b) → List.Forall₂ S l m
  | _, _, .nil, _ => .nil
  | _, _, .cons h hf, hi =>
    .cons (hi _ (by simp) _ (by simp) h) (forall₂_imp_mem hf fun a ha b hb =>
      hi a (mem_cons_of_mem _ ha) b (mem_cons_of_mem _ hb))

theorem forall₂_map_eq {f : α → γ} {g : β → γ} (hi : ∀ a b, R a b → f a = g b) :
    ∀ {l : List α} {m : List β}, List.Forall₂ R l m → l.map f = m.map g
  | _, _, .nil => rfl
  | _, _, .cons h hf => by rw [map_cons, map_cons, hi _ _ h, forall₂_map_eq hi hf]

end Forall₂


/-- Each element of the left list is related to one of the right list. -/
theorem forall₂_exists {α β : Type} {R : α → β → Prop} {l : List α} {m : List β}
    (h : List.Forall₂ R l m) {a : α} (ha : a ∈ l) : ∃ b ∈ m, R a b := by
  induction h with
  | nil => cases ha
  | cons hab _ ih =>
    rcases mem_cons.1 ha with rfl | ha
    · exact ⟨_, mem_cons_self, hab⟩
    · obtain ⟨b, hb, hR⟩ := ih ha
      exact ⟨b, mem_cons_of_mem _ hb, hR⟩

variable {σ α : Type}

/-- The state after reading `l` from `s`. -/
def final (next : σ → α → σ) (s : σ) (l : List α) : σ := l.foldl next s

/-- Every element of `l` is accepted in the state it is read in. -/
def Chain (ok : σ → α → Prop) (next : σ → α → σ) : σ → List α → Prop
  | _, [] => True
  | s, a :: l => ok s a ∧ Chain ok next (next s a) l

section Final

variable {next : σ → α → σ} {s : σ}

@[simp] theorem final_nil : final next s [] = s := rfl

@[simp] theorem final_cons (a : α) (l : List α) : final next s (a :: l) = final next (next s a) l :=
  rfl

@[simp] theorem final_append (l l' : List α) :
    final next s (l ++ l') = final next (final next s l) l' := foldl_append

theorem final_concat (l : List α) (a : α) :
    final next s (l ++ [a]) = next (final next s l) a := by
  rw [final_append, final_cons, final_nil]

end Final

namespace Chain

variable {ok : σ → α → Prop} {next : σ → α → σ}

@[simp] theorem nil (s : σ) : Chain ok next s [] := trivial

theorem append {l' : List α} : ∀ {s : σ} {l : List α},
    Chain ok next s (l ++ l') ↔ Chain ok next s l ∧ Chain ok next (final next s l) l'
  | _, [] => by simp
  | s, a :: l => by
    rw [cons_append, Chain, Chain, append, and_assoc, final_cons]

theorem concat {s : σ} {l : List α} {a : α} :
    Chain ok next s (l ++ [a]) ↔ Chain ok next s l ∧ ok (final next s l) a := by
  rw [append]
  exact and_congr_right fun _ => and_iff_left trivial

/-- Each element is accepted in the state after those before it. -/
theorem exists_of_mem {s : σ} {l : List α} (h : Chain ok next s l) {a : α} (ha : a ∈ l) :
    ∃ l₁ l₂, l = l₁ ++ a :: l₂ ∧ Chain ok next s l₁ ∧ ok (final next s l₁) a ∧
      Chain ok next (next (final next s l₁) a) l₂ := by
  obtain ⟨l₁, l₂, rfl⟩ := append_of_mem ha
  obtain ⟨h1, h2, h3⟩ := append.1 h
  exact ⟨l₁, l₂, rfl, h1, h2, h3⟩

/-- A measure that no accepted element lowers does not decrease along a chain. -/
theorem le_final {m : σ → Nat} (h : ∀ s a, ok s a → m s ≤ m (next s a)) :
    ∀ {s : σ} {l : List α}, Chain ok next s l → m s ≤ m (final next s l)
  | _, [], _ => Nat.le_refl _
  | _, _ :: _, ⟨h1, h2⟩ => Nat.le_trans (h _ _ h1) (h2.le_final h)

end Chain

end Cas
