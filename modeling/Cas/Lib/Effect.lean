import Mathlib.Tactic.Common

/-!
# Methods that change their receiver and may fail

A method with `&mut self` and a fallible result: when it fails, the changes it has made so far stay.
`holding` is what happens to a value that the caller owns while it makes a fallible call: on a
failure the value is dropped.
-/

namespace Cas

/-- A computation on a state `σ` that returns an `α` or fails with an `ε`. -/
def Effect (σ ε α : Type) := σ → Except ε α × σ

namespace Effect

variable {σ ε α β : Type}

instance : Monad (Effect σ ε) where
  pure a := fun s => (.ok a, s)
  bind m f := fun s =>
    match m s with
    | (.ok a, s') => f a s'
    | (.error e, s') => (.error e, s')

def raise (e : ε) : Effect σ ε α := fun s => (.error e, s)

def get : Effect σ ε σ := fun s => (.ok s, s)

def modify (f : σ → σ) : Effect σ ε Unit := fun s => (.ok (), f s)

/-- Ignore a failure. -/
def attempt (m : Effect σ ε α) : Effect σ ε Unit := fun s => (.ok (), (m s).2)

/-- Handle a failure. -/
def catching (m : Effect σ ε α) (h : ε → Effect σ ε α) : Effect σ ε α := fun s =>
  match m s with
  | (.ok a, s') => (.ok a, s')
  | (.error e, s') => h e s'

/-- Run `m` while owning a value that `lose` drops. -/
def holding (lose : σ → σ) (m : Effect σ ε α) : Effect σ ε α := fun s =>
  match m s with
  | (.ok a, s') => (.ok a, s')
  | (.error e, s') => (.error e, lose s')

/-- Run `f` on every element, as long as it does not fail. -/
def each (f : α → Effect σ ε Unit) : List α → Effect σ ε Unit
  | [] => pure ()
  | a :: l => do
    f a
    each f l

@[simp] theorem pure_apply (a : α) (s : σ) : (pure a : Effect σ ε α) s = (.ok a, s) := rfl

@[simp] theorem raise_apply (e : ε) (s : σ) : (raise e : Effect σ ε α) s = (.error e, s) := rfl

@[simp] theorem modify_apply (f : σ → σ) (s : σ) :
    (modify f : Effect σ ε Unit) s = (.ok (), f s) := rfl

@[simp] theorem get_bind (f : σ → Effect σ ε β) (s : σ) : ((get : Effect σ ε σ) >>= f) s = f s s :=
  rfl

@[simp] theorem modify_bind (g : σ → σ) (f : Unit → Effect σ ε β) (s : σ) :
    ((modify g : Effect σ ε Unit) >>= f) s = f () (g s) := rfl

theorem bind_ok {m : Effect σ ε α} {f : α → Effect σ ε β} {s s' : σ} {a : α}
    (h : m s = (.ok a, s')) : (m >>= f) s = f a s' := by
  show (match m s with | (.ok a, s') => f a s' | (.error e, s') => (.error e, s')) = _
  rw [h]

theorem bind_error {m : Effect σ ε α} {f : α → Effect σ ε β} {s s' : σ} {e : ε}
    (h : m s = (.error e, s')) : (m >>= f) s = (.error e, s') := by
  show (match m s with | (.ok a, s') => f a s' | (.error e, s') => (.error e, s')) = _
  rw [h]

theorem holding_ok {lose : σ → σ} {m : Effect σ ε α} {s s' : σ} {a : α} (h : m s = (.ok a, s')) :
    holding lose m s = (.ok a, s') := by
  unfold holding
  rw [h]

theorem holding_error {lose : σ → σ} {m : Effect σ ε α} {s s' : σ} {e : ε}
    (h : m s = (.error e, s')) : holding lose m s = (.error e, lose s') := by
  unfold holding
  rw [h]

theorem catching_ok {m : Effect σ ε α} {g : ε → Effect σ ε α} {s s' : σ} {a : α}
    (h : m s = (.ok a, s')) : catching m g s = (.ok a, s') := by
  unfold catching
  rw [h]

theorem catching_error {m : Effect σ ε α} {g : ε → Effect σ ε α} {s s' : σ} {e : ε}
    (h : m s = (.error e, s')) : catching m g s = g e s' := by
  unfold catching
  rw [h]

/-- A bind ends where its first part fails, or where its second part ends. -/
theorem bind_cases {P : Except ε β × σ → Prop} {m : Effect σ ε α} {f : α → Effect σ ε β} {s : σ}
    (hok : ∀ a s', m s = (.ok a, s') → P (f a s'))
    (herror : ∀ e s', m s = (.error e, s') → P (.error e, s')) : P ((m >>= f) s) := by
  rcases h : m s with ⟨a | e, s'⟩
  · rw [bind_error h]
    exact herror _ _ h
  · rw [bind_ok h]
    exact hok _ _ h

end Effect

end Cas
