/-
What holds of a result, if there is one.

A reader that fails promises nothing.  `Yields r P` says of a computation that
may fail that its result, if it has one, is as `P` says; a sequence of steps is
dealt with one step after the other by `Yields.bind`, and a chain of tests one
test after the other by `Yields.ite`.
-/

namespace GrammarRecords

def Yields {ε α : Type} (r : Except ε α) (P : α → Prop) : Prop :=
  ∀ a, r = .ok a → P a

namespace Yields

variable {ε ε' α β : Type} {r : Except ε α} {P P' : α → Prop} {Q : β → Prop}

theorem ok {a : α} (h : P a) : Yields (.ok a : Except ε α) P := by
  rintro b he
  exact Except.ok.inj he ▸ h

theorem error (e : ε) : Yields (.error e) P :=
  fun _ he => nomatch he

theorem any (r : Except ε α) : Yields r fun _ => True :=
  fun _ _ => trivial

theorem self (r : Except ε α) : Yields r fun a => r = .ok a :=
  fun _ ha => ha

theorem mono (h : Yields r P) (himp : ∀ a, P a → P' a) : Yields r P' :=
  fun a ha => himp a (h a ha)

theorem and (h : Yields r P) (h' : Yields r P') : Yields r fun a => P a ∧ P' a :=
  fun a ha => ⟨h a ha, h' a ha⟩

theorem le_trans {size : α → Nat} {m n : Nat} (h : Yields r fun a => size a ≤ m) (hle : m ≤ n) :
    Yields r fun a => size a ≤ n :=
  h.mono fun _ ha => Nat.le_trans ha hle

theorem bind {f : α → Except ε β} (h : Yields r P) (hf : ∀ a, P a → Yields (f a) Q) :
    Yields (r >>= f) Q := by
  cases r with
  | error e => exact error e
  | ok a => exact hf a (h a rfl)

theorem map {f : α → β} (h : Yields r P) (hf : ∀ a, P a → Q (f a)) : Yields (f <$> r) Q := by
  cases r with
  | error e => exact error e
  | ok a => exact ok (hf a (h a rfl))

theorem mapError {f : ε → ε'} (h : Yields r P) : Yields (r.mapError f) P := by
  cases r with
  | error e => exact error (f e)
  | ok a => exact ok (h a rfl)

theorem ite {p : Prop} [Decidable p] {r' : Except ε α} (h : p → Yields r P)
    (h' : ¬ p → Yields r' P) : Yields (if p then r else r') P := by
  by_cases hp : p
  · rw [if_pos hp]
    exact h hp
  · rw [if_neg hp]
    exact h' hp

end Yields
end GrammarRecords
