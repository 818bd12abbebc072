import Cairn.Verified.Checks
import Mathlib.Logic.Basic

/-!
# Code that may panic

A computation that ends in a value, in an error of its own, or in a panic. To
return is to end in one of the first two.
-/

namespace Cairn.Verified

universe u

inductive Abort (ε : Type u) where
  | error (e : ε)
  | panic
deriving DecidableEq

variable {ε α β : Type}

/-- Ends in a value or in an error. -/
def Returns (x : Except (Abort ε) α) : Prop := x ≠ .error .panic

instance [DecidableEq ε] [DecidableEq α] (x : Except (Abort ε) α) : Decidable (Returns x) :=
  match x with
  | .ok _ => .isTrue nofun
  | .error (.error _) => .isTrue nofun
  | .error .panic => .isFalse fun h => h rfl

@[simp] theorem returns_ok (a : α) : Returns (.ok a : Except (Abort ε) α) := nofun

@[simp] theorem returns_error (e : ε) : Returns (.error (.error e) : Except (Abort ε) α) := nofun

@[simp] theorem not_returns_panic : ¬Returns (.error .panic : Except (Abort ε) α) := fun h => h rfl

variable {f : α → Except (Abort ε) β} {o : Option α} {fails : α → Prop}

theorem returns_bind {x : Except (Abort ε) α} :
    Returns (x >>= f) ↔ Returns x ∧ ∀ a, x = .ok a → Returns (f a) := by
  cases x with
  | ok a => simp [bind, Except.bind]
  | error e =>
    cases e with
    | error e => simp [bind, Except.bind]
    | panic => simp [bind, Except.bind]

theorem not_returns {x : Except (Abort ε) α} : ¬Returns x ↔ x = .error .panic := not_not

/-- A value where there is one, else an error. -/
def orError (e : ε) : Option α → Except (Abort ε) α
  | some a => .ok a
  | none => .error (.error e)

@[simp] theorem returns_orError (e : ε) (o : Option α) : Returns (orError e o) := by
  cases o <;> simp [orError]

@[simp] theorem orError_eq_ok {e : ε} {a : α} : orError e o = .ok a ↔ o = some a := by
  cases o <;> simp [orError]

@[simp] theorem orError_ne_panic (e : ε) (o : Option α) : orError e o ≠ .error .panic :=
  returns_orError e o

/-- A value where there is one, else a panic: an index, a slice, an `expect`. -/
def orPanic : Option α → Except (Abort ε) α
  | some a => .ok a
  | none => .error .panic

@[simp] theorem returns_orPanic : Returns (orPanic o : Except (Abort ε) α) ↔ o.isSome = true := by
  cases o <;> simp [orPanic]

@[simp] theorem orPanic_eq_ok {a : α} : (orPanic o : Except (Abort ε) α) = .ok a ↔ o = some a := by
  cases o <;> simp [orPanic]

/-- Code that does not panic, with its error turned into one of the caller's. -/
def calling {ε' : Type} (f : ε' → ε) (x : Except ε' α) : Except (Abort ε) α :=
  x.mapError fun e => .error (f e)

@[simp] theorem returns_calling {ε' : Type} (f : ε' → ε) (x : Except ε' α) :
    Returns (calling f x) := by
  cases x <;> simp [calling, Except.mapError]

@[simp] theorem calling_eq_ok {ε' : Type} {f : ε' → ε} {x : Except ε' α} {a : α} :
    calling f x = .ok a ↔ x = .ok a := mapError_eq_ok

/-- A refusal unless a condition holds. -/
def require (p : Prop) [Decidable p] (e : ε) : Except (Abort ε) Unit :=
  if p then .ok () else .error (.error e)

@[simp] theorem returns_require (p : Prop) [Decidable p] (e : ε) : Returns (require p e) := by
  unfold require
  split <;> simp

@[simp] theorem require_ne_panic (p : Prop) [Decidable p] (e : ε) :
    require p e ≠ .error .panic := returns_require p e

@[simp] theorem require_eq_ok {p : Prop} [Decidable p] {e : ε} {u : Unit} :
    require p e = .ok u ↔ p := by
  unfold require
  split <;> simp_all

/-- Go through a list up to the first item that gives no value. -/
def collect (f : α → Except (Abort ε) β) : List α → Except (Abort ε) (List β)
  | [] => .ok []
  | x :: xs => do
      let y ← f x
      let ys ← collect f xs
      .ok (y :: ys)

theorem collect_map_ok {γ : Type} {f : γ → Except (Abort ε) β} {g : α → γ} {k : α → β}
    {xs : List α} (h : ∀ x ∈ xs, f (g x) = .ok (k x)) : collect f (xs.map g) = .ok (xs.map k) := by
  induction xs with
  | nil => rfl
  | cons x xs ih =>
    rw [List.map_cons, List.map_cons]
    unfold collect
    rw [h x List.mem_cons_self, ih fun y hy => h y (List.mem_cons_of_mem _ hy)]
    rfl

/-- Some item does not return, and all before it give a value. -/
def FirstFails (f : α → Except (Abort ε) β) (fails : α → Prop) (xs : List α) : Prop :=
  ∃ pre x post, xs = pre ++ x :: post ∧ (∀ y ∈ pre, ∃ b, f y = .ok b) ∧ fails x

theorem firstFails_cons {x : α} {xs : List α} :
    FirstFails f fails (x :: xs) ↔ fails x ∨ (∃ b, f x = .ok b) ∧ FirstFails f fails xs := by
  constructor
  · rintro ⟨pre, y, post, hxs, hpre, hfails⟩
    cases pre with
    | nil =>
      rw [List.nil_append, List.cons_eq_cons] at hxs
      exact .inl (hxs.1 ▸ hfails)
    | cons z pre =>
      rw [List.cons_append, List.cons_eq_cons] at hxs
      rcases hxs with ⟨rfl, rfl⟩
      exact .inr ⟨hpre _ List.mem_cons_self, pre, y, post, rfl,
        fun w hw => hpre w (List.mem_cons_of_mem _ hw), hfails⟩
  · rintro (hfails | ⟨hok, pre, y, post, rfl, hpre, hfails⟩)
    · exact ⟨[], x, xs, rfl, (fun _ h => by cases h), hfails⟩
    · refine ⟨x :: pre, y, post, rfl, fun w hw => ?_, hfails⟩
      rcases List.mem_cons.mp hw with rfl | hw
      · exact hok
      · exact hpre w hw

theorem firstFails_range {f : Nat → Except (Abort ε) β} {fails : Nat → Prop} {n : Nat} :
    FirstFails f fails (List.range n) ↔
      ∃ k < n, (∀ j < k, ∃ b, f j = .ok b) ∧ fails k := by
  constructor
  · rintro ⟨pre, k, post, hrange, hpre, hfails⟩
    have hlength := congrArg List.length hrange
    rw [List.length_range, List.length_append, List.length_cons] at hlength
    have hat : ∀ j < n, (pre ++ k :: post)[j]? = some j := by
      intro j hj
      rw [← hrange, List.getElem?_range hj]
    have hk : pre.length = k := by
      have hmiddle := hat pre.length (by omega)
      rw [List.getElem?_append_right (Nat.le_refl _), Nat.sub_self] at hmiddle
      exact (Option.some.inj hmiddle).symm
    refine ⟨k, by omega, fun j hj => ?_, hfails⟩
    have hin : j ∈ pre := by
      have hget := hat j (by omega)
      rw [List.getElem?_append_left (by omega)] at hget
      exact List.mem_of_getElem? hget
    exact hpre j hin
  · rintro ⟨k, hk, hok, hfails⟩
    refine ⟨List.range k, k, (List.range (n - k - 1)).map (k + 1 + ·), ?_, fun j hj =>
      hok j (List.mem_range.mp hj), hfails⟩
    have hsum : k + (1 + (n - k - 1)) = n := by omega
    have hrange : List.range (k + (1 + (n - k - 1))) =
        List.range k ++ k :: (List.range (n - k - 1)).map (k + 1 + ·) := by
      rw [List.range_add, List.range_add]
      simp [List.range_succ, Function.comp_def, Nat.add_assoc]
    rwa [hsum] at hrange

/-- The items are gone through without a panic unless the first that gives no
value panics. -/
theorem returns_collect (hf : ∀ x, Returns (f x) ↔ ¬fails x) (xs : List α) :
    Returns (collect f xs) ↔ ¬FirstFails f fails xs := by
  induction xs with
  | nil =>
    refine iff_of_true (returns_ok _) ?_
    rintro ⟨pre, x, post, hnil, -⟩
    exact absurd hnil.symm (by simp)
  | cons x xs ih =>
    unfold collect
    rw [returns_bind, firstFails_cons, hf, not_or, not_and]
    refine and_congr_right fun _ => ?_
    constructor
    · rintro hrest ⟨b, hb⟩
      rw [← ih]
      exact (returns_bind.mp (hrest b hb)).1
    · intro hrest b hb
      rw [returns_bind]
      exact ⟨ih.mpr (hrest ⟨b, hb⟩), fun _ _ => returns_ok _⟩

/-- A list panics where the first item that gives no value does. -/
theorem collect_eq_panic (hf : ∀ x, f x = .error .panic ↔ fails x) (xs : List α) :
    collect f xs = .error .panic ↔ FirstFails f fails xs := by
  have hcollect := returns_collect (fun x => not_congr (hf x)) xs
  unfold Returns at hcollect
  rwa [ne_eq, not_iff_not] at hcollect

/-- Items none of which panics. -/
theorem returns_collect_of (hf : ∀ x, Returns (f x)) (xs : List α) : Returns (collect f xs) := by
  have hnever : ∀ x, Returns (f x) ↔ ¬(fun _ => False) x := fun x => iff_of_true (hf x) not_false
  rw [returns_collect hnever]
  rintro ⟨-, -, -, -, -, hfalse⟩
  exact hfalse

end Cairn.Verified
