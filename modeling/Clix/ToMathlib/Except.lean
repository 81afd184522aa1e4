import Mathlib.Tactic.Basic
import Mathlib.Logic.Basic

/-! # Inverting computations that may fail

Fallible programs are binds of `Except` values. The lemmas here take a successful bind apart, and
carry an invariant through a monadic left fold that did not fail. `refuseIf` is the early return
of a guard: it fails exactly when its condition holds.
-/

namespace Except

variable {ε α β : Type}

theorem bind_eq_ok {x : Except ε α} {f : α → Except ε β} {b : β} :
    x >>= f = .ok b ↔ ∃ a, x = .ok a ∧ f a = .ok b := by
  cases x with
  | error e => simp [bind, Except.bind]
  | ok a => simp [bind, Except.bind]

@[simp] theorem ok_bind (a : α) (f : α → Except ε β) : (Except.ok a : Except ε α) >>= f = f a := rfl

@[simp] theorem error_bind (e : ε) (f : α → Except ε β) :
    (Except.error e : Except ε α) >>= f = .error e := rfl

@[simp] theorem pure_eq_ok (a : α) : (pure a : Except ε α) = .ok a := rfl

@[simp] theorem throw_eq_error (e : ε) : (throw e : Except ε α) = .error e := rfl

/-- Fail with `e` when the condition holds, as an early return does. -/
def refuseIf (c : Prop) [Decidable c] (e : ε) : Except ε Unit :=
  if c then .error e else .ok ()

@[simp] theorem refuseIf_eq_ok {c : Prop} [Decidable c] {e : ε} {u : Unit} :
    refuseIf c e = .ok u ↔ ¬c := by
  by_cases holds : c <;> simp [refuseIf, holds]

@[simp] theorem refuseIf_eq_error {c : Prop} [Decidable c] {e e' : ε} :
    refuseIf c e = .error e' ↔ c ∧ e = e' := by
  by_cases holds : c <;> simp [refuseIf, holds]

theorem refuseIf_bind_eq_ok {c : Prop} [Decidable c] {e : ε} {f : Unit → Except ε β} {b : β} :
    refuseIf c e >>= f = .ok b ↔ ¬c ∧ f () = .ok b := by
  by_cases holds : c <;> simp [refuseIf, holds]

theorem refuseIf_neg {c : Prop} [Decidable c] {e : ε} (fails : ¬c) :
    refuseIf c e = .ok () := refuseIf_eq_ok.mpr fails

end Except

namespace List

variable {ε α σ : Type}

/-- A relation that every successful step respects holds across a successful fold. -/
theorem foldlM_except_rel {f : σ → α → Except ε σ} {R : σ → σ → Prop} {l : List α} {s t : σ}
    (refl : ∀ x, R x x) (trans : ∀ x y z, R x y → R y z → R x z)
    (step : ∀ a ∈ l, ∀ x y, f x a = .ok y → R x y) (success : l.foldlM f s = .ok t) : R s t := by
  induction l generalizing s with
  | nil =>
    obtain rfl : s = t := by simpa using success
    exact refl s
  | cons a rest ih =>
    rw [foldlM_cons, Except.bind_eq_ok] at success
    obtain ⟨middle, first, others⟩ := success
    exact trans _ _ _ (step a mem_cons_self s middle first)
      (ih (fun b member => step b (mem_cons_of_mem _ member)) others)

/-- An invariant that every successful step keeps survives a successful fold. -/
theorem foldlM_except_inv {f : σ → α → Except ε σ} {P : σ → Prop} {l : List α} {s t : σ}
    (step : ∀ a ∈ l, ∀ x y, P x → f x a = .ok y → P y) (initial : P s)
    (success : l.foldlM f s = .ok t) : P t :=
  foldlM_except_rel (R := fun x y => P x → P y) (fun _ h => h) (fun _ _ _ f g h => g (f h))
    (fun a member x y ran h => step a member x y h ran) success initial

end List
