import Mathlib

/-!
# Fallible computations

Inversion and forward rules for `Except` binds, and `ensure`, the guard every checked decoder is
made of.
-/

namespace Except

open List

universe u v w

variable {ε : Type u} {α : Type v} {β : Type w}

@[simp] theorem ok_bind (a : α) {β : Type v} (f : α → Except ε β) :
    (Except.ok a >>= f : Except ε β) = f a := rfl

@[simp] theorem error_bind (e : ε) {β : Type v} (f : α → Except ε β) :
    (Except.error e >>= f : Except ε β) = .error e := rfl

theorem bind_eq_ok {α β : Type v} {x : Except ε α} {f : α → Except ε β} {r : β} :
    x >>= f = .ok r ↔ ∃ a, x = .ok a ∧ f a = .ok r := by
  cases x with
  | error e => simp
  | ok a => simp

theorem map_eq_ok {α β : Type v} {x : Except ε α} {f : α → β} {r : β} :
    f <$> x = .ok r ↔ ∃ a, x = .ok a ∧ f a = r := by
  cases x with
  | error e => simp [Functor.map, Except.map]
  | ok a => simp [Functor.map, Except.map]

theorem mapError_eq_ok {ε' : Type w} {f : ε → ε'} {x : Except ε α} {a : α} :
    x.mapError f = .ok a ↔ x = .ok a := by
  cases x <;> simp [Except.mapError]

/-- An early return with an error succeeds exactly when it is not taken. -/
theorem ite_error_eq_ok {c : Prop} [Decidable c] {e : ε} {x : Except ε α} {r : α} :
    (if c then .error e else x) = .ok r ↔ ¬ c ∧ x = .ok r := by
  split <;> simp [*]

/-- Fail with `e` unless `c` holds. -/
def ensure (c : Prop) [Decidable c] (e : ε) : Except ε Unit :=
  if c then .ok () else .error e

section Ensure

variable {c : Prop} [Decidable c] {e : ε}

@[simp] theorem ensure_eq_ok {u : Unit} : ensure c e = .ok u ↔ c := by
  unfold ensure
  split <;> simp_all

theorem ensure_of (h : c) : ensure c e = .ok () := by simp [ensure, h]

theorem ensure_of_not (h : ¬ c) : ensure c e = .error e := by simp [ensure, h]

theorem ensure_bind_eq_ok {β : Type} {f : Unit → Except ε β} {r : β} :
    ensure c e >>= f = .ok r ↔ c ∧ f () = .ok r := by
  rw [bind_eq_ok]
  constructor
  · rintro ⟨u, hu, hf⟩
    exact ⟨ensure_eq_ok.1 hu, hf⟩
  · rintro ⟨hc, hf⟩
    exact ⟨(), ensure_of hc, hf⟩

end Ensure

theorem bind_congr_right {α β : Type v} {x : Except ε α} {f g : α → Except ε β}
    (h : ∀ a, f a = g a) : x >>= f = x >>= g := by rw [funext h]

theorem mapM_ok {α β ε : Type} {f : α → Except ε β} {g : α → β} (h : ∀ a, f a = .ok (g a))
    (l : List α) : l.mapM f = .ok (l.map g) := by
  induction l with
  | nil => rfl
  | cons a l ih =>
    rw [mapM_cons, h a, ih]
    rfl

theorem foldlM_congr {α σ : Type} {ε : Type} {f g : σ → α → Except ε σ} :
    ∀ {l : List α} {s : σ}, (∀ s, ∀ a ∈ l, f s a = g s a) → l.foldlM f s = l.foldlM g s
  | [], _, _ => rfl
  | a :: l, s, h => by
    rw [foldlM_cons, foldlM_cons, h s a mem_cons_self]
    exact bind_congr_right fun s => foldlM_congr fun s b hb => h s b (mem_cons_of_mem a hb)

/-- Every error of `x` satisfies `P`. -/
def FailsOnly (P : ε → Prop) (x : Except ε α) : Prop := ∀ e, x = .error e → P e

namespace FailsOnly

variable {P : ε → Prop}

theorem ok (a : α) : FailsOnly P (.ok a : Except ε α) := nofun

theorem error {e : ε} (h : P e) : FailsOnly P (.error e : Except ε α) := by
  rintro _ ⟨⟩
  exact h

theorem bind {α β : Type v} {x : Except ε α} {f : α → Except ε β} (hx : FailsOnly P x)
    (hf : ∀ a, x = .ok a → FailsOnly P (f a)) : FailsOnly P (x >>= f) := by
  cases x with
  | error e => exact error (hx e rfl)
  | ok a => exact hf a rfl

theorem ensure {c : Prop} [Decidable c] {e : ε} (h : P e) : FailsOnly P (ensure c e) := by
  unfold Except.ensure
  split
  · exact ok ()
  · exact error h

theorem ite {c : Prop} [Decidable c] {x y : Except ε α} (hx : c → FailsOnly P x)
    (hy : ¬ c → FailsOnly P y) : FailsOnly P (if c then x else y) := by
  split
  · exact hx ‹_›
  · exact hy ‹_›

theorem mapError {ε' : Type w} {Q : ε' → Prop} {f : ε → ε'} {x : Except ε α} (h : ∀ e, Q (f e)) :
    FailsOnly Q (x.mapError f) := by
  cases x with
  | error e => exact error (h e)
  | ok a => exact ok a

theorem foldlM {α σ : Type} {ε : Type} {P : ε → Prop} {f : σ → α → Except ε σ} :
    ∀ {l : List α} {s : σ}, (∀ s, ∀ a ∈ l, FailsOnly P (f s a)) → FailsOnly P (l.foldlM f s)
  | [], s, _ => ok s
  | a :: l, s, h => by
    rw [foldlM_cons]
    exact bind (h s a (by simp)) fun s' _ => foldlM fun s b hb => h s b (mem_cons_of_mem a hb)

end FailsOnly

/-- `x` goes as `y` does, with results related by `r`, unless it stops with an error of `S`. -/
inductive Follows {α β : Type v} (S : ε → Prop) (r : α → β → Prop) :
    Except ε α → Except ε β → Prop
  | ok {a : α} {b : β} : r a b → Follows S r (.ok a) (.ok b)
  | error (e : ε) : Follows S r (.error e) (.error e)
  | stopped {e : ε} (y : Except ε β) : S e → Follows S r (.error e) y

namespace Follows

variable {S : ε → Prop}

theorem of_eq {α : Type v} {x y : Except ε α} (h : x = y) : Follows S Eq x y := by
  subst h
  cases x with
  | error e => exact error e
  | ok a => exact ok rfl

theorem bind {α β α' β' : Type v} {r : α → β → Prop} {r' : α' → β' → Prop} {x : Except ε α}
    {y : Except ε β} {f : α → Except ε α'} {g : β → Except ε β'} (h : Follows S r x y)
    (hf : ∀ a b, r a b → Follows S r' (f a) (g b)) : Follows S r' (x >>= f) (y >>= g) := by
  cases h with
  | ok hr => exact hf _ _ hr
  | error e => exact error e
  | stopped y he => exact stopped _ he

theorem foldlM {γ σ σ' : Type} {ε : Type} {S : ε → Prop} {r : σ → σ' → Prop}
    {f : σ → γ → Except ε σ} {g : σ' → γ → Except ε σ'}
    (h : ∀ s t c, r s t → Follows S r (f s c) (g t c)) :
    ∀ (l : List γ) {s : σ} {t : σ'}, r s t → Follows S r (l.foldlM f s) (l.foldlM g t)
  | [], _, _, hr => ok hr
  | c :: l, _, _, hr => by
    rw [foldlM_cons, foldlM_cons]
    exact bind (h _ _ c hr) fun _ _ hr => foldlM h l hr

end Follows

end Except
