import Mathlib.Logic.Function.Basic
import Mathlib.Data.List.FinRange
import Mathlib.Algebra.Order.Ring.Int
import AtmKoala.Lib.Numerals

/-!
Packed little-endian records.

A packed C record is a byte stream `Nat → UInt8` of which a fixed number of
bytes is meaningful; a buffer of `n` bytes is a `Block n`. `blit` is a bounded
memory copy into a buffer, and `u16At`/`u32At` read machine words out of a
stream. The two round trips (`u32At_eq_of_bytes`, `u32Byte_u32At` and their
16-bit versions) are the only facts about the encoding that a record codec
needs; everything about copies is `byteAt_blit`.
-/

namespace AtmKoala.Lib

/-- A buffer of `n` bytes. -/
def Block (n : Nat) : Type := Fin n → UInt8

namespace Block

variable {n : Nat}

/-- The buffer of `n` zero bytes. -/
def zero (n : Nat) : Block n := fun _ => 0

/-- Byte `k` of the buffer as a stream; past the end the stream is zero. -/
def byteAt (b : Block n) (k : Nat) : UInt8 := if h : k < n then b ⟨k, h⟩ else 0

/-- Copy `len` bytes of `src` to offset `off`; nothing is written past the end. -/
def blit (b : Block n) (off : Nat) (src : Nat → UInt8) (len : Nat) : Block n := fun i =>
  if off ≤ i.val ∧ i.val < off + len then src (i.val - off) else b i

@[simp] theorem byteAt_zero (k : Nat) : (zero n).byteAt k = 0 := by
  simp [byteAt, zero]

/-- A copy replaces exactly the bytes it covers. -/
theorem byteAt_blit (b : Block n) (off : Nat) (src : Nat → UInt8) (len k : Nat) (h : k < n) :
    (b.blit off src len).byteAt k =
      if off ≤ k ∧ k < off + len then src (k - off) else b.byteAt k := by
  simp [byteAt, blit, h]

end Block

/-! ### Texts -/

/-- What holds of every byte of a text is decided along the text, not by trying all bytes. -/
instance decidableForallMem {p : UInt8 → Prop} [DecidablePred p] (l : List UInt8) :
    Decidable (∀ b ∈ l, p b) := List.decidableBAll p l

instance decidableForallOption {p : UInt8 → Prop} [DecidablePred p] (o : Option UInt8) :
    Decidable (∀ b ∈ o, p b) := Option.decidableForallMem o

/-! ### Words -/

/-- Byte `k` of the little-endian form of a 32-bit word. -/
def u32Byte (v : UInt32) (k : Nat) : UInt8 := UInt8.ofNat (v.toNat / 256 ^ k)

/-- Byte `k` of the little-endian form of a 16-bit word. -/
def u16Byte (v : UInt16) (k : Nat) : UInt8 := UInt8.ofNat (v.toNat / 256 ^ k)

/-- The little-endian 32-bit word at offset `off`. -/
def u32At (f : Nat → UInt8) (off : Nat) : UInt32 :=
  UInt32.ofNat ((f off).toNat + 256 * (f (off + 1)).toNat + 65536 * (f (off + 2)).toNat
    + 16777216 * (f (off + 3)).toNat)

/-- The little-endian 16-bit word at offset `off`. -/
def u16At (f : Nat → UInt8) (off : Nat) : UInt16 :=
  UInt16.ofNat ((f off).toNat + 256 * (f (off + 1)).toNat)

/-- Four consecutive bytes of `v` read back as `v`. -/
theorem u32At_eq_of_bytes {f : Nat → UInt8} {off : Nat} {v : UInt32}
    (h : ∀ k, k < 4 → f (off + k) = u32Byte v k) : u32At f off = v := by
  have h0 := h 0 (by omega)
  have h1 := h 1 (by omega)
  have h2 := h 2 (by omega)
  have h3 := h 3 (by omega)
  apply UInt32.toNat_inj.mp
  have hv := v.toNat_lt
  simp only [Nat.add_zero] at h0
  simp only [u32At, h0, h1, h2, h3, u32Byte, UInt8.toNat_ofNat', UInt32.toNat_ofNat']
  omega

/-- Two consecutive bytes of `v` read back as `v`. -/
theorem u16At_eq_of_bytes {f : Nat → UInt8} {off : Nat} {v : UInt16}
    (h : ∀ k, k < 2 → f (off + k) = u16Byte v k) : u16At f off = v := by
  have h0 := h 0 (by omega)
  have h1 := h 1 (by omega)
  apply UInt16.toNat_inj.mp
  have hv := v.toNat_lt
  simp only [Nat.add_zero] at h0
  simp only [u16At, h0, h1, u16Byte, UInt8.toNat_ofNat', UInt16.toNat_ofNat']
  omega

/-- A word is determined by the four bytes it is read from. -/
theorem u32At_congr {f g : Nat → UInt8} {off off' : Nat}
    (h : ∀ k, k < 4 → f (off + k) = g (off' + k)) : u32At f off = u32At g off' := by
  have h0 := h 0 (by omega)
  simp only [Nat.add_zero] at h0
  simp only [u32At, h0, h 1 (by omega), h 2 (by omega), h 3 (by omega)]

theorem u16At_congr {f g : Nat → UInt8} {off off' : Nat}
    (h : ∀ k, k < 2 → f (off + k) = g (off' + k)) : u16At f off = u16At g off' := by
  have h0 := h 0 (by omega)
  simp only [Nat.add_zero] at h0
  simp only [u16At, h0, h 1 (by omega)]

/-- Reading a word and taking its bytes gives back the bytes read. -/
theorem u32Byte_u32At (f : Nat → UInt8) (off k : Nat) (hk : k < 4) :
    u32Byte (u32At f off) k = f (off + k) := by
  apply UInt8.toNat_inj.mp
  have b0 := (f off).toNat_lt
  have b1 := (f (off + 1)).toNat_lt
  have b2 := (f (off + 2)).toNat_lt
  have b3 := (f (off + 3)).toNat_lt
  simp only [u32Byte, u32At, UInt8.toNat_ofNat', UInt32.toNat_ofNat']
  obtain rfl | rfl | rfl | rfl : k = 0 ∨ k = 1 ∨ k = 2 ∨ k = 3 := by omega
  · simp only [Nat.add_zero]; omega
  · omega
  · omega
  · omega

/-- Byte `k` of the little-endian form of a 64-bit word. -/
def u64Byte (v : UInt64) (k : Nat) : UInt8 := UInt8.ofNat (v.toNat / 256 ^ k)

/-- The little-endian 64-bit word at offset `off`. -/
def u64At (f : Nat → UInt8) (off : Nat) : UInt64 :=
  UInt64.ofNat ((u32At f off).toNat + 4294967296 * (u32At f (off + 4)).toNat)

/-- Eight consecutive bytes of `v` read back as `v`. -/
theorem u64At_eq_of_bytes {f : Nat → UInt8} {off : Nat} {v : UInt64}
    (h : ∀ k, k < 8 → f (off + k) = u64Byte v k) : u64At f off = v := by
  have low : u32At f off = UInt32.ofNat v.toNat := u32At_eq_of_bytes fun k less => by
    rw [h k (by omega)]
    apply UInt8.toNat_inj.mp
    simp only [u64Byte, u32Byte, UInt8.toNat_ofNat', UInt32.toNat_ofNat']
    obtain rfl | rfl | rfl | rfl : k = 0 ∨ k = 1 ∨ k = 2 ∨ k = 3 := by omega
    all_goals omega
  have high : u32At f (off + 4) = UInt32.ofNat (v.toNat / 4294967296) :=
    u32At_eq_of_bytes fun k less => by
      rw [Nat.add_assoc, h (4 + k) (by omega)]
      apply UInt8.toNat_inj.mp
      simp only [u64Byte, u32Byte, UInt8.toNat_ofNat', UInt32.toNat_ofNat']
      obtain rfl | rfl | rfl | rfl : k = 0 ∨ k = 1 ∨ k = 2 ∨ k = 3 := by omega
      all_goals omega
  have bound := v.toNat_lt
  apply UInt64.toNat_inj.mp
  simp only [u64At, low, high, UInt64.toNat_ofNat', UInt32.toNat_ofNat']
  omega

theorem u64At_congr {f g : Nat → UInt8} {off off' : Nat}
    (h : ∀ k, k < 8 → f (off + k) = g (off' + k)) : u64At f off = u64At g off' := by
  have low : u32At f off = u32At g off' := u32At_congr fun k less => h k (by omega)
  have high : u32At f (off + 4) = u32At g (off' + 4) := u32At_congr fun k less => by
    rw [Nat.add_assoc, Nat.add_assoc]
    exact h (4 + k) (by omega)
  unfold u64At
  rw [low, high]

@[simp] theorem u32At_zero_stream (off : Nat) : u32At (fun _ => 0) off = 0 := rfl

/-- The lowest `n` bytes of a number, the lowest first. -/
def leBytes : Nat → Nat → List UInt8
  | 0, _ => []
  | n + 1, v => .ofNat v :: leBytes n (v / 256)

/-- The number that bytes stand for, the lowest first. -/
def leNat : List UInt8 → Nat
  | [] => 0
  | b :: bs => b.toNat + 256 * leNat bs

@[simp] theorem length_leBytes (n v : Nat) : (leBytes n v).length = n := by
  induction n generalizing v with
  | zero => rfl
  | succ n ih => rw [leBytes, List.length_cons, ih]

theorem leNat_leBytes (n v : Nat) : leNat (leBytes n v) = v % 256 ^ n := by
  induction n generalizing v with
  | zero => rw [leBytes, leNat, Nat.pow_zero, Nat.mod_one]
  | succ n ih =>
    have split : v % (256 * 256 ^ n) = v % 256 + 256 * (v / 256 % 256 ^ n) := Nat.mod_mul
    rw [leBytes, leNat, ih, UInt8.toNat_ofNat', Nat.pow_succ' (n := n), split]

theorem leNat_lt (bs : List UInt8) : leNat bs < 256 ^ bs.length := by
  induction bs with
  | nil => exact Nat.one_pos
  | cons b bs ih =>
    have byte := b.toNat_lt
    rw [leNat, List.length_cons, Nat.pow_succ]
    omega

/-! ### Byte arrays -/

/-- The array `xs` with `data` written at offset `off`. -/
def overwrite (xs : List UInt8) (off : Nat) (data : List UInt8) : List UInt8 :=
  xs.take off ++ data ++ xs.drop (off + data.length)

theorem length_overwrite {xs data : List UInt8} {off : Nat} (inside : off ≤ xs.length) :
    (overwrite xs off data).length = max xs.length (off + data.length) := by
  simp only [overwrite, List.length_append, List.length_take, List.length_drop]
  omega

/-- A write within or at the end of the array replaces exactly the bytes it
covers. -/
theorem getElem?_overwrite {xs : List UInt8} {off : Nat} (inside : off ≤ xs.length)
    (data : List UInt8) (k : Nat) :
    (overwrite xs off data)[k]? =
      if off ≤ k ∧ k < off + data.length then data[k - off]? else xs[k]? := by
  have front : (xs.take off).length = off := by simp [inside]
  unfold overwrite
  rw [List.append_assoc, List.getElem?_append, front]
  by_cases before : k < off
  · rw [if_pos before, if_neg (by omega), List.getElem?_take_of_lt before]
  · rw [if_neg before, List.getElem?_append]
    by_cases covered : k - off < data.length
    · rw [if_pos covered, if_pos (by omega)]
    · rw [if_neg covered, if_neg (by omega), List.getElem?_drop]
      congr 1
      omega

/-- A write into the zero bytes behind `front`. -/
theorem overwrite_zeros (front data : List UInt8) (off gap k left : Nat)
    (start : front.length + gap = off) (fits : gap + data.length + left = k) :
    overwrite (front ++ List.replicate k 0) off data =
      front ++ List.replicate gap 0 ++ data ++ List.replicate left 0 := by
  have whole : front ++ List.replicate k 0 = (front ++ List.replicate gap 0) ++
      (List.replicate data.length 0 ++ List.replicate left 0) := by
    rw [← fits, List.append_assoc, List.replicate_append_replicate,
      List.replicate_append_replicate, Nat.add_assoc]
  have behind : off + data.length =
      (front ++ List.replicate gap 0 ++ List.replicate data.length (0 : UInt8)).length := by
    simp only [List.length_append, List.length_replicate]
    omega
  rw [overwrite, whole]
  congr 1
  · rw [List.take_left' (by rw [List.length_append, List.length_replicate, start])]
  · rw [behind, ← List.append_assoc, List.drop_left]

end AtmKoala.Lib
