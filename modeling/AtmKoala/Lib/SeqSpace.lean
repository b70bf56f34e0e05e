import Mathlib.Data.List.Basic
import Mathlib.Algebra.Order.Ring.Int

/-!
Byte streams numbered modulo 2^32.

`PartAt stream o part` places a segment in a stream. `seqAt first o` is the
number of offset `o` when the stream starts at the number `first`; in a stream
shorter than 2^32 bytes the number determines the offset (`seqAt_inj`), wherever
the numbers wrap around. `Ahead a b` is the order of numbers that are less than
half the space apart.
-/

namespace AtmKoala.Lib

/-! ### Segments of a stream -/

/-- `part` is what `stream` holds from offset `o` on. -/
def PartAt {α : Type} (stream : List α) (o : Nat) (part : List α) : Prop :=
  o ≤ stream.length ∧ part <+: stream.drop o

instance {α : Type} [DecidableEq α] (stream : List α) (o : Nat) (part : List α) :
    Decidable (PartAt stream o part) := inferInstanceAs (Decidable (_ ∧ _))

namespace PartAt

variable {α : Type} {stream part : List α} {o : Nat}

theorem end_le (h : PartAt stream o part) : o + part.length ≤ stream.length := by
  have bound := h.2.length_le
  have start := h.1
  rw [List.length_drop] at bound
  omega

/-- What precedes a segment and the segment are what precedes its end. -/
theorem take_append (h : PartAt stream o part) :
    stream.take o ++ part = stream.take (o + part.length) := by
  obtain ⟨rest, split⟩ := h.2
  rw [List.take_add, ← split, List.take_left]

end PartAt

/-! ### Sequence numbers -/

/-- The number of offset `o` in a stream that starts at `first`. -/
def seqAt (first : UInt32) (o : Nat) : UInt32 := first + UInt32.ofNat o

theorem seqAt_zero (first : UInt32) : seqAt first 0 = first := UInt32.add_zero first

theorem seqAt_add (first : UInt32) (o n : Nat) :
    seqAt first o + UInt32.ofNat n = seqAt first (o + n) := by
  rw [seqAt, seqAt, UInt32.add_assoc, ← UInt32.ofNat_add]

/-- In a stream shorter than 2^32 bytes a number belongs to one offset. -/
theorem seqAt_inj {first : UInt32} {o o' : Nat} (bound : o < 2 ^ 32) (bound' : o' < 2 ^ 32)
    (same : seqAt first o = seqAt first o') : o = o' := by
  have offsets : UInt32.ofNat o = UInt32.ofNat o' := by
    simpa [seqAt] using same
  have values := congrArg UInt32.toNat offsets
  rw [UInt32.toNat_ofNat_of_lt' bound, UInt32.toNat_ofNat_of_lt' bound'] at values
  exact values

/-- How far `b` is ahead of `a`, going up modulo 2^32. -/
def distance (a b : UInt32) : Nat := (b - a).toNat

/-- `b` is not behind `a`: the way up from `a` to `b` is the shorter one. -/
def Ahead (a b : UInt32) : Prop := distance a b < 2 ^ 31

instance (a b : UInt32) : Decidable (Ahead a b) := inferInstanceAs (Decidable (_ < _))

/-- Going up no further than to `b` brings it nearer by as much. -/
theorem distance_add {a b : UInt32} {n : Nat} (within : n ≤ distance a b) :
    distance (a + UInt32.ofNat n) b = distance a b - n := by
  have boundA := a.toNat_lt
  have boundB := b.toNat_lt
  have small : (UInt32.ofNat n).toNat = n :=
    UInt32.toNat_ofNat_of_lt' (Nat.lt_of_le_of_lt within (b - a).toNat_lt)
  simp only [distance, UInt32.toNat_sub, UInt32.toNat_add, small] at *
  omega

/-- What is ahead stays ahead of a number that does not pass it. -/
theorem Ahead.add {a b : UInt32} {n : Nat} (ahead : Ahead a b) (within : n ≤ distance a b) :
    Ahead (a + UInt32.ofNat n) b := by
  unfold Ahead at *
  rw [distance_add within]
  omega

end AtmKoala.Lib
