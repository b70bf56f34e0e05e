import Mathlib.Algebra.Order.Ring.Int
import AtmKoala.Lib.Numerals

/-!
Runs of a labelled transition system, and the rule that carries an invariant
along them.

`Run step ok s as t` is a run from `s` to `t` performing the actions `as`, in
which every action `a` was allowed (`ok`) by the state it was performed in. A
run ends in every state it passes through (its prefixes are runs), so a
property of the last state of every run is a property of every state reached.
-/

namespace AtmKoala.Lib

variable {σ α : Type}

/-- Runs of `step` all of whose steps meet the side condition `ok`. -/
inductive Run (step : σ → α → σ → Prop) (ok : σ → α → Prop) : σ → List α → σ → Prop where
  | nil (s : σ) : Run step ok s [] s
  | snoc {s t u : σ} {as : List α} {a : α} :
      Run step ok s as t → ok t a → step t a u → Run step ok s (as ++ [a]) u

/-- The side condition that allows everything. -/
def Anything (_ : σ) (_ : α) : Prop := True

instance (s : σ) (a : α) : Decidable (Anything s a) := isTrue trivial

/-- Perform actions one after the other as long as each is allowed. -/
def runAll (perform : σ → α → Option σ) (ok : σ → α → Prop) [∀ s a, Decidable (ok s a)] :
    σ → List α → Option σ
  | s, [] => some s
  | s, a :: as => if ok s a then (perform s a).bind fun t => runAll perform ok t as else none

namespace Run

variable {step : σ → α → σ → Prop} {ok ok' : σ → α → Prop}

/-- **Invariant rule.** What holds at the start and is preserved by every
allowed step holds in every state reached. -/
theorem invariant {P : σ → Prop} {s t : σ} {as : List α}
    (run : Run step ok s as t) (init : P s)
    (preserved : ∀ {x a y}, P x → ok x a → step x a y → P y) : P t := by
  induction run with
  | nil => exact init
  | snoc _ allowed taken ih => exact preserved ih allowed taken

/-- A run under a stronger side condition is a run under a weaker one. -/
theorem mono {s t : σ} {as : List α} (run : Run step ok s as t)
    (weaker : ∀ {x a}, ok x a → ok' x a) : Run step ok' s as t := by
  induction run with
  | nil => exact .nil _
  | snoc _ allowed taken ih => exact ih.snoc (weaker allowed) taken

/-- A run of no step goes nowhere. -/
theorem eq_of_nil {s t : σ} (run : Run step ok s [] t) : t = s := by
  generalize h : ([] : List α) = as at run
  cases run with
  | nil => rfl
  | snoc => simp at h

/-- Runs compose. -/
theorem append {s t u : σ} {as bs : List α} (first : Run step ok s as t)
    (second : Run step ok t bs u) : Run step ok s (as ++ bs) u := by
  induction second with
  | nil => simpa using first
  | snoc _ allowed taken ih => simpa [List.append_assoc] using ih.snoc allowed taken

/-- A run of one step. -/
theorem single {s t : σ} {a : α} (allowed : ok s a) (taken : step s a t) :
    Run step ok s [a] t :=
  show Run step ok s ([] ++ [a]) t from (Run.nil s).snoc allowed taken

/-- A run that starts with a step. -/
theorem cons {s t u : σ} {a : α} {as : List α} (allowed : ok s a) (taken : step s a t)
    (rest : Run step ok t as u) : Run step ok s (a :: as) u :=
  (single allowed taken).append rest

/-- An execution of a deterministic system is a run of it. -/
theorem of_runAll {perform : σ → α → Option σ} [∀ s a, Decidable (ok s a)] {s t : σ} {as : List α}
    (done : runAll perform ok s as = some t) :
    Run (fun s a t => perform s a = some t) ok s as t := by
  induction as generalizing s with
  | nil =>
    obtain rfl : s = t := Option.some.inj done
    exact .nil s
  | cons a as ih =>
    unfold runAll at done
    split at done
    · rename_i allowed
      obtain ⟨u, taken, rest⟩ := Option.bind_eq_some_iff.mp done
      exact cons allowed taken (ih rest)
    · cases done

end Run

end AtmKoala.Lib
