import AtmKoala.Lib.Trace
import Mathlib.Data.List.Range

/-!
Rows of writes that a power cut tears.

An object of `n` sectors is written as a `row`. `applyWrites_row` says what a torn row leaves:
new contents in front of the cut, old ones behind it. `take_flatMap` finds the phase a cut
falls into when objects are written one after the other.
-/

namespace AtmKoala.Lib

section Rows

variable {A V : Type}

/-- Writes to `n` addresses in a row. -/
def row (addr : Nat → A) (v : Nat → V) (n : Nat) : List (A × V) :=
  (List.range n).map fun j => (addr j, v j)

theorem take_row (addr : Nat → A) (v : Nat → V) (n m : Nat) :
    (row addr v n).take m = row addr v (min m n) := by
  unfold row
  rw [← List.map_take, List.take_range]

theorem row_succ (addr : Nat → A) (v : Nat → V) (n : Nat) :
    row addr v (n + 1) = row addr v n ++ [(addr n, v n)] := by
  unfold row
  rw [List.range_succ, List.map_append]
  rfl

theorem row_cons (addr : Nat → A) (v : Nat → V) (n : Nat) :
    row addr v (n + 1) = (addr 0, v 0) :: row (fun j => addr (j + 1)) (fun j => v (j + 1)) n := by
  unfold row
  rw [List.range_succ_eq_map, List.map_cons, List.map_map]
  rfl

variable [DecidableEq A]

/-- What a row of writes that is cut after `m` has left at one of its addresses. -/
theorem applyWrites_row {addr : Nat → A} {v : Nat → V} {d : A → V} {n : Nat}
    (apart : ∀ i j, i < n → j < n → addr i = addr j → i = j) (m : Nat) {j : Nat} (less : j < n) :
    applyWrites d ((row addr v n).take m) (addr j) = if j < m then v j else d (addr j) := by
  have done : ∀ k, k ≤ n →
      applyWrites d (row addr v k) (addr j) = if j < k then v j else d (addr j) := by
    intro k small
    induction k with
    | zero => rfl
    | succ k ih =>
      rw [row_succ, applyWrites_append, applyWrites_cons, applyWrites_nil]
      by_cases here : j = k
      · rw [here, Function.update_self, if_pos (Nat.lt_succ_self k)]
      · have elsewhere : addr j ≠ addr k := fun same => here (apart j k less (by omega) same)
        rw [Function.update_of_ne elsewhere, ih (by omega)]
        by_cases before : j < k
        · rw [if_pos before, if_pos (by omega)]
        · rw [if_neg before, if_neg (by omega)]
  rw [take_row, done _ (Nat.min_le_right m n)]
  by_cases before : j < m
  · rw [if_pos before, if_pos (by omega)]
  · rw [if_neg before, if_neg (by omega)]

/-- Other addresses keep their contents. -/
theorem applyWrites_row_other {addr : Nat → A} {v : Nat → V} {d : A → V} {n m : Nat} {a : A}
    (other : ∀ j, j < n → addr j ≠ a) : applyWrites d ((row addr v n).take m) a = d a := by
  refine applyWrites_of_forall_ne fun w mem => ?_
  obtain ⟨j, less, rfl⟩ := List.mem_map.mp (List.mem_of_mem_take mem)
  exact other j (List.mem_range.mp less)

end Rows

/-- A cut through phases falls into one of them. -/
theorem take_flatMap {ι α : Type} {f : ι → List α} {L : List ι} (some : L ≠ []) (k : Nat) :
    ∃ done i rest m, L = done ++ i :: rest ∧
      (L.flatMap f).take k = done.flatMap f ++ (f i).take m := by
  induction L generalizing k with
  | nil => exact absurd rfl some
  | cons i L ih =>
    by_cases within : k ≤ (f i).length
    · refine ⟨[], i, L, k, rfl, ?_⟩
      rw [List.flatMap_cons, List.take_append_of_le_length within]
      rfl
    · cases L with
      | nil =>
        refine ⟨[], i, [], k, rfl, ?_⟩
        simp
      | cons j L =>
        obtain ⟨done, i', rest, m, split, cut⟩ := ih (List.cons_ne_nil j L) (k - (f i).length)
        refine ⟨i :: done, i', rest, m, by rw [split]; rfl, ?_⟩
        rw [List.flatMap_cons, List.take_append, List.take_of_length_le (by omega), cut,
          List.flatMap_cons, List.append_assoc]

end AtmKoala.Lib
