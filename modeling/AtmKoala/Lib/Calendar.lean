import Mathlib.Algebra.Order.Ring.Int

/-!
Counting off units of different sizes.

Units are numbered by integers and unit `x` has size `size x`: years by their days, the
months of a year by theirs. `total` is the size of some units in a row and `advance` finds
the unit in which a point lies. `advance_total` and `total_advance` say that they are
inverse to one another. `countOff` is `advance` without a last unit.
-/

namespace AtmKoala.Lib

variable {size : Int → Int} {limit x r : Int} {k n : Nat}

/-- The size of the `k` units from unit `x` on. -/
def total (size : Int → Int) (x : Int) : Nat → Int
  | 0 => 0
  | k + 1 => size x + total size (x + 1) k

/-- Units are taken off `r` from unit `x` on, `limit` at the latest: what is left, and in which
unit. -/
def advance (size : Int → Int) (limit : Int) : Nat → Int → Int → Int × Int
  | 0, r, x => (r, x)
  | n + 1, r, x =>
    if size x ≤ r ∧ x < limit then advance size limit n (r - size x) (x + 1) else (r, x)

theorem total_nonneg (nonneg : ∀ y, 0 ≤ size y) (x : Int) (k : Nat) : 0 ≤ total size x k := by
  induction k generalizing x with
  | zero => exact le_refl 0
  | succ k ih =>
    have first := nonneg x
    have rest := ih (x + 1)
    rw [total]
    omega

/-- **A point in unit `x + k` is found there.** -/
theorem advance_total (nonneg : ∀ y, 0 ≤ size y) (start : 0 ≤ r) (inside : r < size (x + k))
    (below : x + k ≤ limit) (enough : k ≤ n) :
    advance size limit n (total size x k + r) x = (r, x + k) := by
  induction k generalizing x n with
  | zero =>
    rw [total, zero_add]
    have here : r < size x := by simpa using inside
    cases n with
    | zero => simp [advance]
    | succ n =>
      rw [advance, if_neg fun taken => absurd taken.1 (not_le.mpr here)]
      simp
  | succ k ih =>
    obtain ⟨n, rfl⟩ : ∃ m, n = m + 1 := ⟨n - 1, by omega⟩
    have rest := total_nonneg nonneg (x + 1) k
    have shift : x + ((k + 1 : Nat) : Int) = x + 1 + (k : Int) := by omega
    rw [shift] at inside below ⊢
    rw [advance, total, if_pos ⟨by omega, by omega⟩]
    have left : size x + total size (x + 1) k + r - size x = total size (x + 1) k + r := by omega
    rw [left]
    exact ih inside below (by omega)

/-- **What is left and the units taken off make up the whole.** -/
theorem total_advance (size : Int → Int) (limit : Int) (n : Nat) (r x : Int) :
    ∃ k : Nat, (advance size limit n r x).2 = x + k ∧
      total size x k + (advance size limit n r x).1 = r := by
  induction n generalizing r x with
  | zero => exact ⟨0, by simp [advance], by simp [advance, total]⟩
  | succ n ih =>
    rw [advance]
    split
    · obtain ⟨k, unit, whole⟩ := ih (r - size x) (x + 1)
      refine ⟨k + 1, ?_, ?_⟩
      · rw [unit]
        omega
      · rw [total]
        omega
    · exact ⟨0, by simp, by simp [total]⟩

/-- Units are taken off `r` from unit `x` on, `n` of them at the most: what is left, and in which
unit. -/
def countOff (size : Int → Int) : Nat → Int → Int → Int × Int
  | 0, r, x => (r, x)
  | n + 1, r, x => if size x ≤ r then countOff size n (r - size x) (x + 1) else (r, x)

/-- **A point within `k` units is found in one of them.** -/
theorem countOff_within (start : 0 ≤ r) (inside : r < total size x k) (enough : k ≤ n + 1) :
    ∃ j : Nat, j < k ∧ (countOff size n r x).2 = x + j ∧
      total size x j + (countOff size n r x).1 = r ∧
      0 ≤ (countOff size n r x).1 ∧ (countOff size n r x).1 < size (x + j) := by
  induction k generalizing n r x with
  | zero => exact absurd start (not_le.mpr inside)
  | succ k ih =>
    by_cases here : size x ≤ r
    · have more : k ≠ 0 := by
        rintro rfl
        rw [total, total] at inside
        omega
      obtain ⟨m, rfl⟩ : ∃ m, n = m + 1 := ⟨n - 1, by omega⟩
      rw [countOff, if_pos here]
      rw [total] at inside
      obtain ⟨j, below, unit, whole, left, fits⟩ :=
        ih (n := m) (r := r - size x) (x := x + 1) (by omega) (by omega) (by omega)
      have shift : x + ((j + 1 : Nat) : Int) = x + 1 + (j : Int) := by omega
      refine ⟨j + 1, by omega, by rw [unit, shift], ?_, left, by rwa [shift]⟩
      rw [total]
      omega
    · have found : countOff size n r x = (r, x) := by
        cases n with
        | zero => rfl
        | succ n => rw [countOff, if_neg here]
      rw [found]
      exact ⟨0, by omega, by simp, by simp [total], start, by simpa using here⟩

/-- Unit `x + j` and those before it come before the end of `k` units. -/
theorem total_add_size_le (nonneg : ∀ y, 0 ≤ size y) {j : Nat} (below : j < k) :
    total size x j + size (x + j) ≤ total size x k := by
  induction j generalizing k x with
  | zero =>
    obtain ⟨k, rfl⟩ : ∃ m, k = m + 1 := ⟨k - 1, by omega⟩
    have rest := total_nonneg nonneg (x + 1) k
    simp only [total, Nat.cast_zero, add_zero, zero_add]
    omega
  | succ j ih =>
    obtain ⟨k, rfl⟩ : ∃ m, k = m + 1 := ⟨k - 1, by omega⟩
    have later := ih (k := k) (x := x + 1) (by omega)
    have shift : x + ((j + 1 : Nat) : Int) = x + 1 + (j : Int) := by omega
    rw [shift, total, total]
    omega

end AtmKoala.Lib
