import Mathlib.Data.List.Basic

/-!
Computations that make requests.

An `Io ρ σ α` acts on a state `σ`, makes a list of requests `ρ` while it does so, and comes to
an `α`. `Only P m` says that all requests of `m` satisfy `P`, whatever the state it starts
from, and `Tries P m` says it of a computation that may fail. `Keeps m` says that `m` only looks
at the state, `Yields m s a` that it does so at `s` and comes to `a`. The rules below follow the
ways in which computations are put together.
-/

namespace AtmKoala.Lib

def Io (ρ σ α : Type) : Type := σ → α × σ × List ρ

namespace Io

variable {ρ σ α β : Type} {P : ρ → Prop} {m : Io ρ σ α}

instance : Monad (Io ρ σ) where
  pure a s := (a, s, [])
  bind m f s := ((f (m s).1 (m s).2.1).1, (f (m s).1 (m s).2.1).2.1,
    (m s).2.2 ++ (f (m s).1 (m s).2.1).2.2)

/-- What `m` comes to. -/
def value (m : Io ρ σ α) (s : σ) : α := (m s).1

/-- The state `m` leaves. -/
def after (m : Io ρ σ α) (s : σ) : σ := (m s).2.1

/-- The requests `m` makes. -/
def requests (m : Io ρ σ α) (s : σ) : List ρ := (m s).2.2

/-- All requests satisfy `P`. -/
def Only (P : ρ → Prop) (m : Io ρ σ α) : Prop := ∀ s, ∀ r ∈ m.requests s, P r

theorem only_pure (a : α) : Only P (pure a : Io ρ σ α) := fun _ _ mem => absurd mem List.not_mem_nil

theorem Only.bind {f : α → Io ρ σ β} (first : Only P m) (rest : ∀ a, Only P (f a)) :
    Only P (m >>= f) := by
  intro s r mem
  rcases List.mem_append.mp mem with here | later
  · exact first s r here
  · exact rest _ _ r later

/-- What follows a computation may use what it comes to. -/
theorem Only.bind_of {f : α → Io ρ σ β} (first : Only P m)
    (rest : ∀ s, Only P (f (m.value s))) : Only P (m >>= f) := by
  intro s r mem
  rcases List.mem_append.mp mem with here | later
  · exact first s r here
  · exact rest s _ r later

/-- All requests of a computation that may fail satisfy `P`. -/
def Tries (P : ρ → Prop) (m : OptionT (Io ρ σ) α) : Prop := Only P m.run

theorem tries_pure (a : α) : Tries P (pure a : OptionT (Io ρ σ) α) := only_pure _

theorem tries_failure : Tries P (failure : OptionT (Io ρ σ) α) := only_pure _

theorem Tries.bind {m : OptionT (Io ρ σ) α} {f : α → OptionT (Io ρ σ) β} (first : Tries P m)
    (rest : ∀ a, Tries P (f a)) : Tries P (m >>= f) := by
  show Only P (m.run >>= fun result => match result with
    | some a => (f a).run
    | none => pure none)
  refine Only.bind first fun result => ?_
  cases result with
  | none => exact only_pure _
  | some a => exact rest a

theorem Tries.ite {c : Prop} [Decidable c] {m m' : OptionT (Io ρ σ) α} (yes : c → Tries P m)
    (no : ¬c → Tries P m') : Tries P (if c then m else m') := by
  split
  · exact yes ‹c›
  · exact no ‹¬c›

/-- A computation that succeeds has succeeded step by step. -/
theorem value_of_bind {m : OptionT (Io ρ σ) α} {f : α → OptionT (Io ρ σ) β} {s : σ} {b : β}
    (done : (m >>= f).run.value s = some b) :
    ∃ a, m.run.value s = some a ∧ (f a).run.value (m.run.after s) = some b := by
  change (match m.run.value s with
    | some a => (f a).run
    | none => pure none : Io ρ σ (Option β)).value (m.run.after s) = some b at done
  cases first : m.run.value s with
  | none =>
    rw [first] at done
    cases done
  | some a =>
    rw [first] at done
    exact ⟨a, rfl, done⟩

theorem value_bind_of_some {m : OptionT (Io ρ σ) α} {f : α → OptionT (Io ρ σ) β} {s : σ} {a : α}
    (first : m.run.value s = some a) :
    (m >>= f).run.value s = (f a).run.value (m.run.after s) := by
  show (match m.run.value s with
    | some a => (f a).run
    | none => pure none : Io ρ σ (Option β)).value (m.run.after s) = _
  rw [first]

theorem after_bind_of_some {m : OptionT (Io ρ σ) α} {f : α → OptionT (Io ρ σ) β} {s : σ} {a : α}
    (first : m.run.value s = some a) :
    (m >>= f).run.after s = (f a).run.after (m.run.after s) := by
  show (match m.run.value s with
    | some a => (f a).run
    | none => pure none : Io ρ σ (Option β)).after (m.run.after s) = _
  rw [first]

theorem value_bind_of_none {m : OptionT (Io ρ σ) α} {f : α → OptionT (Io ρ σ) β} {s : σ}
    (first : m.run.value s = none) : (m >>= f).run.value s = none := by
  show (match m.run.value s with
    | some a => (f a).run
    | none => pure none : Io ρ σ (Option β)).value (m.run.after s) = _
  rw [first]
  rfl

/-- `m` comes to `a` and leaves the state as it is. -/
def Yields (m : OptionT (Io ρ σ) α) (s : σ) (a : α) : Prop :=
  m.run.value s = some a ∧ m.run.after s = s

theorem yields_pure (a : α) (s : σ) : Yields (pure a : OptionT (Io ρ σ) α) s a := ⟨rfl, rfl⟩

theorem Yields.bind {m : OptionT (Io ρ σ) α} {f : α → OptionT (Io ρ σ) β} {s : σ} {a : α} {b : β}
    (first : Yields m s a) (rest : Yields (f a) s b) : Yields (m >>= f) s b := by
  constructor
  · rw [value_bind_of_some first.1, first.2]
    exact rest.1
  · rw [after_bind_of_some first.1, first.2]
    exact rest.2

/-- `m` leaves every state as it is. -/
def Keeps (m : OptionT (Io ρ σ) α) : Prop := ∀ s, m.run.after s = s

/-- A property that holds of a computation if it holds of its parts. -/
structure Composes (Q : (α : Type) → OptionT (Io ρ σ) α → Prop) : Prop where
  pure : ∀ {α : Type} (a : α), Q α (pure a)
  failure : ∀ {α : Type}, Q α failure
  bind : ∀ {α β : Type} {m : OptionT (Io ρ σ) α} {f : α → OptionT (Io ρ σ) β}, Q α m →
    (∀ a, Q β (f a)) → Q β (m >>= f)

theorem Composes.ite {Q : (α : Type) → OptionT (Io ρ σ) α → Prop} (_ : Composes Q) {c : Prop}
    [Decidable c] {m m' : OptionT (Io ρ σ) α} (yes : c → Q α m) (no : ¬c → Q α m') :
    Q α (if c then m else m') := by
  split
  · exact yes ‹c›
  · exact no ‹¬c›

theorem tries_composes (P : ρ → Prop) :
    Composes (σ := σ) fun _ m => Tries P m where
  pure := tries_pure
  failure := tries_failure
  bind := Tries.bind

theorem keeps_composes : Composes (ρ := ρ) (σ := σ) fun _ m => Keeps m where
  pure _ _ := rfl
  failure _ := rfl
  bind {_ _ m f} first rest s := by
    cases found : m.run.value s with
    | some a => rw [after_bind_of_some found, first, rest]
    | none =>
      show (match m.run.value s with
        | some a => (f a).run
        | none => Pure.pure none : Io ρ σ (Option _)).after (m.run.after s) = s
      rw [found]
      exact first s

/-- `m` only looks at the state, and cannot tell states that `R` relates. -/
def Blind (R : σ → σ → Prop) (m : OptionT (Io ρ σ) α) : Prop :=
  Keeps m ∧ ∀ s t, R s t → m.run.value s = m.run.value t

theorem blind_composes (R : σ → σ → Prop) : Composes (ρ := ρ) fun _ m => Blind R m where
  pure a := ⟨keeps_composes.pure a, fun _ _ _ => rfl⟩
  failure := ⟨keeps_composes.failure, fun _ _ _ => rfl⟩
  bind {_ _ m _} first rest := by
    refine ⟨keeps_composes.bind first.1 fun a => (rest a).1, fun s t alike => ?_⟩
    have same := first.2 s t alike
    cases found : m.run.value t with
    | none => rw [value_bind_of_none found, value_bind_of_none (same.trans found)]
    | some a =>
      rw [value_bind_of_some found, value_bind_of_some (same.trans found), first.1, first.1]
      exact (rest a).2 s t alike

end Io

end AtmKoala.Lib
