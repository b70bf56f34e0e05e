import Mathlib.Logic.Function.Basic
import Mathlib.Algebra.Order.Ring.Int
import AtmKoala.Lib.Numerals

/-!
Copies in a flat memory.

A memory gives every address its byte. `memcpy` copies byte by byte, upwards.
`Copied m m' dst src n` says that `m'` comes from `m` by a copy of `n` bytes
from the addresses `src` to the addresses `dst`, which need not follow each
other: a copy made in pieces is one copy (`Copied.append`).
-/

namespace AtmKoala.Lib

abbrev Memory : Type := Nat → UInt8

/-- `n` bytes from `src` on go to `dst` and behind, the lowest first. -/
def memcpy (m : Memory) (dst src : Nat) : Nat → Memory
  | 0 => m
  | n + 1 => memcpy (Function.update m dst (m src)) (dst + 1) (src + 1) n

/-- Byte `src k` of `m` is byte `dst k` of `m'`, and nothing else has changed. -/
structure Copied (m m' : Memory) (dst src : Nat → Nat) (n : Nat) : Prop where
  moved : ∀ k < n, m' (dst k) = m (src k)
  kept : ∀ p, (∀ k < n, p ≠ dst k) → m' p = m p

variable {m m' m'' : Memory} {dst src : Nat → Nat} {n k : Nat}

theorem memcpy_kept {d s p : Nat} (outside : p < d ∨ d + n ≤ p) : memcpy m d s n p = m p := by
  induction n generalizing m d s with
  | zero => rfl
  | succ n ih =>
    rw [memcpy, ih (by omega)]
    exact Function.update_of_ne (by omega) _ _

/-- Two ranges that do not meet. -/
theorem memcpy_copied {d s : Nat} (apart : ∀ i < n, ∀ j < n, d + i ≠ s + j) :
    Copied m (memcpy m d s n) (d + ·) (s + ·) n := by
  refine ⟨fun k less => ?_, fun p outside => memcpy_kept ?_⟩
  · induction n generalizing m d s k with
    | zero => cases less
    | succ n ih =>
      rw [memcpy]
      cases k with
      | zero =>
        show memcpy _ (d + 1) (s + 1) n d = m s
        rw [memcpy_kept (.inl (by omega)), Function.update_self]
      | succ k =>
        have step := ih (m := Function.update m d (m s)) (d := d + 1) (s := s + 1)
          (fun i hi j hj => by have := apart (i + 1) (by omega) (j + 1) (by omega); omega) k
          (by omega)
        have differ := apart 0 (by omega) (k + 1) less
        rw [Nat.add_right_comm, Nat.add_assoc, Nat.add_right_comm s, Nat.add_assoc s] at step
        rw [step]
        exact Function.update_of_ne (by omega) _ _
  · by_contra inside
    exact outside (p - d) (by omega) (by omega)

namespace Copied

/-- **Copies in pieces.** A copy of the first `n` bytes and one of the `k` bytes behind them
make one copy, if no byte is written twice or read after it has been written. -/
theorem append (first : Copied m m' dst src n)
    (second : Copied m' m'' (fun i => dst (n + i)) (fun i => src (n + i)) k)
    (once : ∀ i < n + k, ∀ j < n + k, dst i = dst j → i = j)
    (apart : ∀ i < n + k, ∀ j < n + k, dst i ≠ src j) : Copied m m'' dst src (n + k) := by
  refine ⟨fun i less => ?_, fun p outside => ?_⟩
  · by_cases early : i < n
    · rw [second.kept (dst i) fun j hj same => ?_, first.moved i early]
      have := once i less (n + j) (by omega) same
      omega
    · have moved := second.moved (i - n) (by omega)
      rw [show n + (i - n) = i by omega] at moved
      rw [moved, first.kept]
      exact fun j hj => (apart j (by omega) i less).symm
  · rw [second.kept p fun j hj => outside _ (by omega), first.kept p fun j hj => outside _ (by omega)]

theorem nothing : Copied m m dst src 0 := ⟨fun _ less => absurd less (Nat.not_lt_zero _),
  fun _ _ => rfl⟩

/-- The addresses may be given in another form. -/
theorem congr {dst' src' : Nat → Nat} (copied : Copied m m' dst src n)
    (dsts : ∀ i < n, dst' i = dst i) (srcs : ∀ i < n, src' i = src i) :
    Copied m m' dst' src' n := by
  refine ⟨fun i less => ?_, fun p outside => copied.kept p fun i less => ?_⟩
  · rw [dsts i less, srcs i less, copied.moved i less]
  · rw [← dsts i less]
    exact outside i less

/-- What has been copied there comes back. -/
theorem back {mid : Nat → Nat} (there : Copied m m' mid src n) (back : Copied m' m'' dst mid n)
    (i : Nat) (less : i < n) : m'' (dst i) = m (src i) := by
  rw [back.moved i less, there.moved i less]

end Copied

end AtmKoala.Lib
