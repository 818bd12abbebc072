import Mathlib.Tactic.SplitIfs

/-!
# Chains of checks

A fallible operation is a chain of checks in `Except`. The rules below take a
chain that succeeded apart, one bind at a time.
-/

namespace Cairn.Verified

universe u v

variable {ε : Type u} {α β : Type v}

/-- One check of a chain. -/
def ensure (p : Prop) [Decidable p] (error : ε) : Except ε Unit :=
  if p then .ok () else .error error

@[simp] theorem ensure_eq_ok {p : Prop} [Decidable p] {error : ε} {u : Unit} :
    ensure p error = .ok u ↔ p := by
  unfold ensure
  split_ifs with h
  · simp [h]
  · simp [h]

variable {x : Except ε α}

@[simp] theorem bind_eq_ok {f : α → Except ε β} {b : β} :
    (x >>= f) = .ok b ↔ ∃ a, x = .ok a ∧ f a = .ok b := by
  cases x with
  | error e => simp [bind, Except.bind]
  | ok a => simp [bind, Except.bind]

theorem ensure_eq_error {p : Prop} [Decidable p] {error e : ε} :
    ensure p error = .error e ↔ ¬p ∧ error = e := by
  unfold ensure
  split_ifs with h
  · simp [h]
  · simp [h]

/-- The first check that fails is the one reported. -/
theorem bind_eq_error {f : α → Except ε β} {e : ε} :
    (x >>= f) = .error e ↔ x = .error e ∨ ∃ a, x = .ok a ∧ f a = .error e := by
  cases x with
  | error error => simp [bind, Except.bind]
  | ok a => simp [bind, Except.bind]

theorem mapError_eq_error {ε' : Type u} {f : ε → ε'} {e : ε'} :
    x.mapError f = .error e ↔ ∃ error, x = .error error ∧ f error = e := by
  cases x with
  | error error => simp [Except.mapError]
  | ok b => simp [Except.mapError]

@[simp] theorem mapError_eq_ok {ε' : Type u} {f : ε → ε'} {a : α} :
    x.mapError f = .ok a ↔ x = .ok a := by
  cases x with
  | error e => simp [Except.mapError]
  | ok b => simp [Except.mapError]

@[simp] theorem map_eq_ok {f : α → β} {b : β} :
    x.map f = .ok b ↔ ∃ a, x = .ok a ∧ f a = b := by
  cases x with
  | error e => simp [Except.map]
  | ok a => simp [Except.map]

end Cairn.Verified
