import Mathlib.Data.List.GetD
import AtmKoala.Lib.Memory

/-!
Texts in a flat memory.

`Holds m p l` says that the bytes of `l` are in memory from address `p` on. `memmove` and
`memput` move a text, over itself if need be, and put one; `cstring` reads up to the NUL,
if there is one in a memory of that size.
-/

namespace AtmKoala.Lib

variable {m m' : Memory} {p dst src n size : Nat} {l a b : List UInt8}

/-- `n` bytes from `src` on go to `dst`, all of them read before any is written. -/
def memmove (m : Memory) (dst src n : Nat) : Memory := fun i =>
  if dst ≤ i ∧ i < dst + n then m (src + (i - dst)) else m i

/-- The bytes of `l` go to `dst`. -/
def memput (m : Memory) (dst : Nat) (l : List UInt8) : Memory := fun i =>
  if dst ≤ i ∧ i < dst + l.length then l.getD (i - dst) 0 else m i

/-- The bytes before the first NUL of a memory of `size` bytes, if there is one. -/
def cstring (size : Nat) (m : Memory) : Option (List UInt8) :=
  let l := (List.range size).map m
  if (0 : UInt8) ∈ l then some (l.takeWhile (· ≠ 0)) else none

def Holds (m : Memory) (p : Nat) (l : List UInt8) : Prop := ∀ i, i < l.length → l[i]? = some (m (p + i))

theorem holds_nil (m : Memory) (p : Nat) : Holds m p [] := fun i lt => absurd lt (Nat.not_lt_zero i)

theorem holds_append : Holds m p (a ++ b) ↔ Holds m p a ∧ Holds m (p + a.length) b := by
  constructor
  · intro holds
    constructor
    · intro i lt
      have inside : (a ++ b)[i]? = a[i]? := List.getElem?_append_left lt
      rw [← inside]
      exact holds i (by rw [List.length_append]; omega)
    · intro i lt
      have at_ := holds (a.length + i) (by rw [List.length_append]; omega)
      rwa [List.getElem?_append_right (Nat.le_add_right _ _), Nat.add_sub_cancel_left, ← Nat.add_assoc] at at_
  · rintro ⟨front, back⟩ i lt
    rw [List.length_append] at lt
    by_cases first : i < a.length
    · rw [List.getElem?_append_left first]
      exact front i first
    · have at_ := back (i - a.length) (by omega)
      rw [List.getElem?_append_right (by omega), at_]
      congr 2
      omega

theorem holds_singleton {x : UInt8} : Holds m p [x] ↔ m p = x := by
  constructor
  · intro holds
    exact (Option.some.inj (holds 0 Nat.zero_lt_one)).symm
  · rintro rfl i lt
    obtain rfl : i = 0 := Nat.lt_one_iff.mp lt
    rfl

/-- Only the bytes of the text matter. -/
theorem Holds.congr (holds : Holds m p l) (same : ∀ i, p ≤ i → i < p + l.length → m' i = m i) :
    Holds m' p l := by
  intro i lt
  rw [same (p + i) (by omega) (by omega)]
  exact holds i lt

theorem Holds.moved (holds : Holds m src l) : Holds (memmove m dst src l.length) dst l := by
  intro i lt
  rw [holds i lt, memmove, if_pos (by omega), Nat.add_sub_cancel_left]

theorem Holds.move_apart (holds : Holds m p l) (apart : p + l.length ≤ dst ∨ dst + n ≤ p) :
    Holds (memmove m dst src n) p l :=
  holds.congr fun i low high => if_neg (by omega)

theorem holds_put (m : Memory) (dst : Nat) (l : List UInt8) : Holds (memput m dst l) dst l := by
  intro i lt
  rw [memput, if_pos (by omega), Nat.add_sub_cancel_left, List.getD_eq_getElem _ _ lt,
    List.getElem?_eq_getElem lt]

theorem Holds.put_apart (holds : Holds m p l) (apart : p + l.length ≤ dst ∨ dst + a.length ≤ p) :
    Holds (memput m dst a) p l :=
  holds.congr fun i low high => if_neg (by omega)

/-- The first `l.length` bytes are those of the text. -/
theorem Holds.map_range (holds : Holds m p l) : (List.range l.length).map (fun i => m (p + i)) = l := by
  refine List.ext_getElem? fun i => ?_
  by_cases lt : i < l.length
  · rw [List.getElem?_map, List.getElem?_range lt, holds i lt]
    rfl
  · rw [List.getElem?_eq_none (by simpa using lt), List.getElem?_eq_none (by omega)]

/-- A text without NUL in front of one is read back. -/
theorem Holds.cstring (holds : Holds m 0 (l ++ [0])) (plain : ∀ x ∈ l, x ≠ 0) (fits : l.length < size) :
    Lib.cstring size m = some l := by
  obtain ⟨text, stop⟩ := holds_append.mp holds
  rw [Nat.zero_add, holds_singleton] at stop
  obtain ⟨k, rfl⟩ : ∃ k, size = l.length + (1 + k) := ⟨size - l.length - 1, by omega⟩
  have first : (List.range l.length).map m = l := by
    have read := text.map_range
    simp only [Nat.zero_add] at read
    exact read
  have split : (List.range (l.length + (1 + k))).map m =
      l ++ 0 :: ((List.range k).map fun i => m (l.length + (1 + i))) := by
    rw [List.range_add, List.map_append, first, List.range_add, List.map_append, List.map_append]
    simp only [List.range_one, List.map_cons, List.map_nil, Nat.add_zero, stop, List.map_map]
    rfl
  have all : ∀ x ∈ l, decide (x ≠ 0) = true := fun x mem => decide_eq_true (plain x mem)
  unfold Lib.cstring
  dsimp only
  rw [split, if_pos (List.mem_append_right _ List.mem_cons_self), List.takeWhile_append_of_pos all,
    List.takeWhile_cons_of_neg (by decide), List.append_nil]

end AtmKoala.Lib
