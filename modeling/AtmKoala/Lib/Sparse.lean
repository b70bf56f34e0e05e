/-!
Sparse arrays: what a file without storage limits would hold.

A `Sparse` array has a length and a byte at every position, zero from the length
on; a write beyond the end therefore leaves zeros in the gap, and cutting the
array forgets what it cuts off. `after` is the array that a history of writes and
cuts leads to; `after_unwritten` says that a position that has not been written
since the length last dropped to or below it reads as zero.
-/

namespace AtmKoala.Lib

/-- An array of `length` elements, continued by zeros. -/
structure Sparse (α : Type) [Zero α] where
  length : Nat
  byte : Nat → α
  beyond : ∀ k, length ≤ k → byte k = 0

namespace Sparse

variable {α : Type} [Zero α]

/-- The empty array. -/
def empty : Sparse α := ⟨0, fun _ => 0, fun _ _ => rfl⟩

/-- Write `data` at `off`; the array grows if it has to. -/
def write (s : Sparse α) (off : Nat) (data : List α) : Sparse α where
  length := max s.length (off + data.length)
  byte k := if off ≤ k ∧ k < off + data.length then data.getD (k - off) 0 else s.byte k
  beyond k outside := by
    rw [if_neg (by omega)]
    exact s.beyond k (by omega)

/-- Cut the array to `n` elements, or extend it with zeros. -/
def truncate (s : Sparse α) (n : Nat) : Sparse α where
  length := n
  byte k := if k < n then s.byte k else 0
  beyond k outside := if_neg (by omega)

/-- The elements from `off` on, `n` at most. -/
def read (s : Sparse α) (off n : Nat) : List α :=
  (List.range (min n (s.length - off))).map fun k => s.byte (off + k)

/-! ### Histories -/

/-- A change of an array. -/
inductive Event (α : Type) where
  | wrote (off : Nat) (data : List α)
  | cut (n : Nat)

/-- The array that the events lead to, the latest first. -/
def after : List (Event α) → Sparse α
  | [] => empty
  | .wrote off data :: past => (after past).write off data
  | .cut n :: past => (after past).truncate n

/-- Position `k` has not been written since the length last dropped to or below
it. -/
def Unwritten (k : Nat) : List (Event α) → Prop
  | [] => True
  | .wrote off data :: past => ¬(off ≤ k ∧ k < off + data.length) ∧ Unwritten k past
  | .cut n :: past => n ≤ k ∨ Unwritten k past

/-- **Holes read as zero.** -/
theorem after_unwritten {k : Nat} {past : List (Event α)} (unwritten : Unwritten k past) :
    (after past).byte k = 0 := by
  induction past with
  | nil => rfl
  | cons event past ih =>
    cases event with
    | wrote off data => exact (if_neg unwritten.1).trans (ih unwritten.2)
    | cut n =>
      by_cases kept : k < n
      · exact (if_pos kept).trans (ih (unwritten.resolve_left (by omega)))
      · exact if_neg kept

end Sparse

end AtmKoala.Lib
