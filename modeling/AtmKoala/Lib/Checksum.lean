import Mathlib.Algebra.Order.Ring.Int

/-!
One's complement checksums of byte strings.

`netWords` cuts a byte string into 16-bit words in network order, `onesSum` adds
them with end-around carry, and a string that contains its own checksum is
intact (`ChecksumValid`) when the sum is all ones. The sum only depends on the
plain sum modulo 65535 (`onesSum_eq_ones`), so it can be computed on the words
read in the other byte order (`netSum_swap`) and with the carries folded in at
the end (`ones_of_folded`).
-/

namespace AtmKoala.Lib

/-! ### The abstract checksum -/

/-- The 16-bit words of a byte string in network order; an odd last byte is
padded with a zero byte. -/
def netWords : List UInt8 → List Nat
  | a :: b :: rest => (256 * a.toNat + b.toNat) :: netWords rest
  | [a] => [256 * a.toNat]
  | [] => []

/-- One's complement addition of 16-bit words: the carry goes around the end. -/
def onesAdd (x y : Nat) : Nat := if x + y < 65536 then x + y else x + y - 65535

/-- The one's complement sum. -/
def onesSum (ws : List Nat) : Nat := ws.foldr onesAdd 0

/-- A byte string that contains its checksum is intact: its one's complement sum
is all ones. -/
def ChecksumValid (bs : List UInt8) : Prop := onesSum (netWords bs) = 65535

instance (bs : List UInt8) : Decidable (ChecksumValid bs) :=
  inferInstanceAs (Decidable (_ = _))

theorem netWords_lt {bs : List UInt8} {w : Nat} (mem : w ∈ netWords bs) : w < 65536 := by
  induction bs using netWords.induct with
  | case1 a b rest ih =>
    have ha := a.toNat_lt
    have hb := b.toNat_lt
    rcases List.mem_cons.mp mem with rfl | mem
    · omega
    · exact ih mem
  | case2 a =>
    have ha := a.toNat_lt
    obtain rfl := List.mem_singleton.mp mem
    omega
  | case3 => cases mem

/-- The carry that goes around is a multiple of 65535, and it never turns a sum
into zero. -/
theorem onesSum_spec {ws : List Nat} (words : ∀ w ∈ ws, w < 65536) :
    onesSum ws < 65536 ∧ onesSum ws % 65535 = ws.sum % 65535 ∧ (onesSum ws = 0 ↔ ws.sum = 0) := by
  induction ws with
  | nil => simp [onesSum]
  | cons w ws ih =>
    obtain ⟨below, congr, zero⟩ := ih fun x hx => words x (List.mem_cons_of_mem _ hx)
    have wordW := words w List.mem_cons_self
    have unfolded : onesSum (w :: ws) = onesAdd w (onesSum ws) := rfl
    rw [unfolded, List.sum_cons]
    unfold onesAdd
    split
    · omega
    · omega

/-- The one's complement sum is all ones exactly if the plain sum is a positive
multiple of 65535. -/
theorem onesSum_eq_ones {ws : List Nat} (words : ∀ w ∈ ws, w < 65536) :
    onesSum ws = 65535 ↔ ws.sum % 65535 = 0 ∧ ws.sum ≠ 0 := by
  obtain ⟨below, congr, zero⟩ := onesSum_spec words
  omega

/-! ### The other byte order -/

/-- The plain sum of the 16-bit words in little-endian order. -/
def hostSum : List UInt8 → Nat
  | a :: b :: rest => a.toNat + 256 * b.toNat + hostSum rest
  | [a] => a.toNat
  | [] => 0

/-- Swapping the bytes of every word multiplies the sum by 256 modulo 65535. -/
theorem netSum_swap (bs : List UInt8) :
    (netWords bs).sum % 65535 = 256 * hostSum bs % 65535 := by
  induction bs using netWords.induct with
  | case1 a b rest ih =>
    simp only [netWords, hostSum, List.sum_cons]
    omega
  | case2 a => simp [netWords, hostSum]
  | case3 => rfl

theorem netSum_zero (bs : List UInt8) : (netWords bs).sum = 0 ↔ hostSum bs = 0 := by
  induction bs using netWords.induct with
  | case1 a b rest ih =>
    simp only [netWords, hostSum, List.sum_cons]
    omega
  | case2 a =>
    simp only [netWords, hostSum, List.sum_cons, List.sum_nil]
    omega
  | case3 => simp [netWords, hostSum]

/-- A string of words sums to little enough to be added up in 32 bits. -/
theorem hostSum_le (bs : List UInt8) : hostSum bs ≤ 65535 * (bs.length / 2 + 1) := by
  induction bs using netWords.induct with
  | case1 a b rest ih =>
    have ha := a.toNat_lt
    have hb := b.toNat_lt
    simp only [hostSum, List.length_cons]
    omega
  | case2 a =>
    have ha := a.toNat_lt
    simp only [hostSum, List.length_cons, List.length_nil]
    omega
  | case3 => exact Nat.zero_le _

/-- **Byte order does not matter.** A string is intact exactly if its
little-endian words sum to a positive multiple of 65535. -/
theorem checksumValid_iff_hostSum (bs : List UInt8) :
    ChecksumValid bs ↔ hostSum bs % 65535 = 0 ∧ hostSum bs ≠ 0 := by
  have swap := netSum_swap bs
  have zero := netSum_zero bs
  unfold ChecksumValid
  rw [onesSum_eq_ones fun w hw => netWords_lt hw]
  omega

/-- **Carries may be folded at the end.** A 16-bit value that is congruent to the
sum and vanishes with it only is all ones exactly on the intact strings. -/
theorem ones_of_folded {bs : List UInt8} {v : Nat} (below : v < 65536)
    (congr : v % 65535 = hostSum bs % 65535) (zero : v = 0 ↔ hostSum bs = 0) :
    v = 65535 ↔ ChecksumValid bs := by
  rw [checksumValid_iff_hostSum]
  omega

end AtmKoala.Lib
