import Mathlib.Data.List.TakeWhile
import AtmKoala.Users.Model

/-!
The hash of the passwords is SHA-256.

* `digest` is the function of FIPS 180-4: constants from the roots of the first primes, padding
  to whole blocks, one compression a block.
* `sha256UpdateBlocks` is `sha256_update` with its copies of up to a block; byte by byte it is
  `sha256Update` (`sha256UpdateBlocks_eq`).
* `Absorbed` says what a context holds of the bytes that it was given. `sha256_digest`: however
  these were cut into pieces, `sha256_final` gives their digest.
-/

namespace AtmKoala.Users

open Lib Package

/-! ### FIPS 180-4 -/

/-- The largest number below `2 ^ 40` whose `k`-th power is at most `n`. -/
def rootFloor (k n : Nat) : Nat :=
  (List.range 40).foldl
    (fun r i => if (r + 2 ^ (39 - i)) ^ k ≤ n then r + 2 ^ (39 - i) else r) 0

/-- The first 32 bits of the fractional part of the `k`-th root of `p`. -/
def rootBits (k p : Nat) : UInt32 := UInt32.ofNat (rootFloor k (p * 2 ^ (32 * k)))

def firstPrimes : List Nat :=
  [2, 3, 5, 7, 11, 13, 17, 19, 23, 29, 31, 37, 41, 43, 47, 53, 59, 61, 67, 71, 73, 79, 83, 89, 97,
    101, 103, 107, 109, 113, 127, 131, 137, 139, 149, 151, 157, 163, 167, 173, 179, 181, 191, 193,
    197, 199, 211, 223, 227, 229, 233, 239, 241, 251, 257, 263, 269, 271, 277, 281, 283, 293, 307,
    311]

/-- The constant of round `t`. -/
def constantOf (t : Nat) : UInt32 := rootBits 3 (firstPrimes.getD t 0)

/-- The initial hash value. -/
def initialHash : Words :=
  ⟨rootBits 2 2, rootBits 2 3, rootBits 2 5, rootBits 2 7, rootBits 2 11, rootBits 2 13,
    rootBits 2 17, rootBits 2 19⟩

def smallSigma0 (x : UInt32) : UInt32 := rotr32 x 7 ^^^ rotr32 x 18 ^^^ (x >>> 3)
def smallSigma1 (x : UInt32) : UInt32 := rotr32 x 17 ^^^ rotr32 x 19 ^^^ (x >>> 10)
def bigSigma0 (x : UInt32) : UInt32 := rotr32 x 2 ^^^ rotr32 x 13 ^^^ rotr32 x 22
def bigSigma1 (x : UInt32) : UInt32 := rotr32 x 6 ^^^ rotr32 x 11 ^^^ rotr32 x 25
def choose (x y z : UInt32) : UInt32 := (x &&& y) ^^^ (~~~x &&& z)
def majority (x y z : UInt32) : UInt32 := (x &&& y) ^^^ (x &&& z) ^^^ (y &&& z)

/-- A word of a block, the first byte highest. -/
def wordOf (block : Bytes) (t : Nat) : UInt32 :=
  UInt32.ofNat ((block.getD (t * 4) 0).toNat * 2 ^ 24 + (block.getD (t * 4 + 1) 0).toNat * 2 ^ 16 +
    (block.getD (t * 4 + 2) 0).toNat * 2 ^ 8 + (block.getD (t * 4 + 3) 0).toNat)

/-- The message schedule. -/
def messageWord (block : Bytes) (t : Nat) : UInt32 :=
  if t < 16 then wordOf block t
  else
    smallSigma1 (messageWord block (t - 2)) + messageWord block (t - 7) +
      smallSigma0 (messageWord block (t - 15)) + messageWord block (t - 16)

/-- A round, on the working variables. -/
def roundOf (v : Words) (k w : UInt32) : Words :=
  let t1 := v.h + bigSigma1 v.e + choose v.e v.f v.g + k + w
  let t2 := bigSigma0 v.a + majority v.a v.b v.c
  { a := t1 + t2, b := v.a, c := v.b, d := v.c, e := v.d + t1, f := v.e, g := v.f, h := v.g }

/-- The hash value behind a block. -/
def compress (s : Words) (block : Bytes) : Words :=
  let v := (List.range 64).foldl (fun v t => roundOf v (constantOf t) (messageWord block t)) s
  { a := v.a + s.a, b := v.b + s.b, c := v.c + s.c, d := v.d + s.d,
    e := v.e + s.e, f := v.f + s.f, g := v.g + s.g, h := v.h + s.h }

/-- Block `i` of a text. -/
def blockOf (text : Bytes) (i : Nat) : Bytes := (text.drop (64 * i)).take 64

/-- The hash value behind the first `n` blocks. -/
def hashBlocks (text : Bytes) (n : Nat) : Words :=
  (List.range n).foldl (fun s i => compress s (blockOf text i)) initialHash

/-- The number `v` in `n` bytes, the highest first. -/
def beBytes (n v : Nat) : Bytes := (List.range n).map fun i => UInt8.ofNat (v / 256 ^ (n - 1 - i))

/-- The padded message: a bit, as few zeros as make the blocks whole, and the number of bits. -/
def padded (text : Bytes) : Bytes :=
  text ++ ([0x80] ++ List.replicate ((119 - text.length % 64) % 64) 0 ++ beBytes 8 (8 * text.length))

/-- **SHA-256** of a text of less than `2 ^ 64` bits. -/
def digest (text : Bytes) : Bytes :=
  let s := hashBlocks (padded text) ((padded text).length / 64)
  [s.a, s.b, s.c, s.d, s.e, s.f, s.g, s.h].flatMap fun w => beBytes 4 w.toNat

/-! ### Blocks -/

theorem constants_eq : sha256K = (List.range 64).map constantOf := by decide +kernel

theorem initialHash_eq : sha256Init.state = initialHash := by decide +kernel

theorem blockWord_eq (p : Bytes) (i : Nat) : blockWord p i = wordOf p i := by
  apply UInt32.toNat_inj.mp
  unfold blockWord wordOf
  generalize p.getD (i * 4) 0 = b0
  generalize p.getD (i * 4 + 1) 0 = b1
  generalize p.getD (i * 4 + 2) 0 = b2
  generalize p.getD (i * 4 + 3) 0 = b3
  have h0 := b0.toNat_lt
  have h1 := b1.toNat_lt
  have h2 := b2.toNat_lt
  have h3 := b3.toNat_lt
  have s0 : (b0.toUInt32 <<< 24).toNat = b0.toNat <<< 24 := by
    simp [Nat.shiftLeft_eq]
    omega
  have s1 : (b1.toUInt32 <<< 16).toNat = b1.toNat * 2 ^ 16 := by
    simp [Nat.shiftLeft_eq]
    omega
  have s2 : (b2.toUInt32 <<< 8).toNat = b2.toNat * 2 ^ 8 := by
    simp [Nat.shiftLeft_eq]
    omega
  rw [UInt32.toNat_or, UInt32.toNat_or, UInt32.toNat_or, s0, s1, s2, UInt8.toNat_toUInt32,
    ← Nat.shiftLeft_add_eq_or_of_lt (by omega), UInt32.toNat_ofNat']
  have e1 : b0.toNat <<< 24 + b1.toNat * 2 ^ 16 = (b0.toNat * 2 ^ 8 + b1.toNat) <<< 16 := by
    rw [Nat.shiftLeft_eq, Nat.shiftLeft_eq]
    omega
  rw [e1, ← Nat.shiftLeft_add_eq_or_of_lt (by omega)]
  have e2 : (b0.toNat * 2 ^ 8 + b1.toNat) <<< 16 + b2.toNat * 2 ^ 8 =
      (b0.toNat * 2 ^ 16 + b1.toNat * 2 ^ 8 + b2.toNat) <<< 8 := by
    rw [Nat.shiftLeft_eq, Nat.shiftLeft_eq]
    omega
  rw [e2, ← Nat.shiftLeft_add_eq_or_of_lt (by omega), Nat.shiftLeft_eq]
  omega

/-- The loop of the words is the message schedule. -/
theorem schedule_eq (p : Bytes) : schedule p = (List.range 64).map (messageWord p) := by
  have loop : ∀ n, (List.range n).foldl (fun w _ => w ++ [nextWord w])
      ((List.range 16).map (blockWord p)) = (List.range (16 + n)).map (messageWord p) := by
    intro n
    induction n with
    | zero =>
      apply List.map_congr_left
      intro t inside
      rw [messageWord, if_pos (List.mem_range.mp inside), blockWord_eq]
    | succ n ih =>
      have words : ∀ k, 1 ≤ k → k ≤ 16 →
          ((List.range (16 + n)).map (messageWord p)).getD (16 + n - k) 0 =
            messageWord p (16 + n - k) := by
        intro k low high
        rw [List.getD_eq_getElem?_getD, List.getElem?_map, List.getElem?_range (by omega)]
        rfl
      have more : List.range (n + 1) = List.range n ++ [n] := List.range_succ
      have more' : List.range (16 + (n + 1)) = List.range (16 + n) ++ [16 + n] := List.range_succ
      rw [more, more', List.foldl_append, ih, List.map_append]
      refine congrArg (fun w => _ ++ [w]) ?_
      rw [messageWord, if_neg (by omega)]
      unfold nextWord
      simp only [List.length_map, List.length_range]
      rw [words 15 (by omega) (by omega), words 2 (by omega) (by omega),
        words 7 (by omega) (by omega), words 16 (by omega) (by omega)]
      unfold smallSigma0 smallSigma1
      ac_rfl
  exact loop 48

theorem sha256Block_eq (s : Words) (p : Bytes) : sha256Block s p = compress s p := by
  have rounds : (sha256K.zip (schedule p)).foldl sha256Round s =
      (List.range 64).foldl (fun v t => roundOf v (constantOf t) (messageWord p t)) s := by
    rw [constants_eq, schedule_eq, List.zip_map', List.foldl_map]
    exact congrArg (fun f => (List.range 64).foldl f s) rfl
  unfold sha256Block compress
  rw [rounds]
  simp only [UInt32.add_comm]

theorem hashBlocks_succ (text : Bytes) (n : Nat) :
    hashBlocks text (n + 1) = compress (hashBlocks text n) (blockOf text n) := by
  rw [hashBlocks, List.range_succ, List.foldl_append]
  rfl

/-- What comes behind the blocks does not count. -/
theorem hashBlocks_append {text : Bytes} {n : Nat} (inside : 64 * n ≤ text.length) (more : Bytes) :
    hashBlocks (text ++ more) n = hashBlocks text n := by
  induction n with
  | zero => simp only [hashBlocks, List.range_zero, List.foldl_nil]
  | succ n ih =>
    have block : blockOf (text ++ more) n = blockOf text n := by
      rw [blockOf, blockOf, List.drop_append_of_le_length (by omega),
        List.take_append_of_le_length (by rw [List.length_drop]; omega)]
    rw [hashBlocks_succ, hashBlocks_succ, ih (by omega), block]

/-! ### Pieces -/

/-- **What a context holds**: the hash value of the whole blocks of a text, its rest and the
number of its bits. -/
structure Absorbed (ctx : Sha256) (text : Bytes) : Prop where
  state : ctx.state = hashBlocks text (text.length / 64)
  block : ctx.block = text.drop (64 * (text.length / 64))
  bits : ctx.bits = text.length.toUInt64 * 8

theorem Absorbed.length {ctx : Sha256} {text : Bytes} (absorbed : Absorbed ctx text) :
    ctx.block.length = text.length % 64 := by
  rw [absorbed.block, List.length_drop]
  omega

theorem absorbed_init : Absorbed sha256Init [] where
  state := initialHash_eq
  block := rfl
  bits := rfl

/-- The parts of a context but for the count. -/
theorem pushByte_text {ctx : Sha256} {text : Bytes} (b : UInt8)
    (state : ctx.state = hashBlocks text (text.length / 64))
    (block : ctx.block = text.drop (64 * (text.length / 64))) :
    (pushByte ctx b).state = hashBlocks (text ++ [b]) ((text ++ [b]).length / 64) ∧
      (pushByte ctx b).block = (text ++ [b]).drop (64 * ((text ++ [b]).length / 64)) ∧
      (pushByte ctx b).bits = ctx.bits := by
  have whole : ctx.block ++ [b] = (text ++ [b]).drop (64 * (text.length / 64)) := by
    rw [block, List.drop_append_of_le_length (by omega)]
  have length : (ctx.block ++ [b]).length = text.length % 64 + 1 := by
    rw [whole, List.length_drop, List.length_append, List.length_singleton]
    omega
  have count : (text ++ [b]).length = text.length + 1 := by
    rw [List.length_append, List.length_singleton]
  unfold pushByte
  by_cases full : text.length % 64 + 1 = 64
  · have next : (text ++ [b]).length / 64 = text.length / 64 + 1 := by omega
    have last : blockOf (text ++ [b]) (text.length / 64) = ctx.block ++ [b] := by
      rw [blockOf, ← whole, List.take_of_length_le (by omega)]
    rw [if_pos (length.trans full), next, hashBlocks_succ, last,
      hashBlocks_append (by omega), sha256Block_eq, state]
    refine ⟨rfl, ?_, rfl⟩
    rw [List.drop_eq_nil_of_le (by omega)]
  · have same : (text ++ [b]).length / 64 = text.length / 64 := by omega
    rw [if_neg (by omega), same, hashBlocks_append (by omega)]
    exact ⟨state, whole, rfl⟩

/-- **One more piece.** -/
theorem Absorbed.update {ctx : Sha256} {text : Bytes} (absorbed : Absorbed ctx text)
    (data : Bytes) : Absorbed (sha256Update ctx data) (text ++ data) := by
  have push : ∀ (data : Bytes) (text : Bytes) (ctx : Sha256),
      ctx.state = hashBlocks text (text.length / 64) →
      ctx.block = text.drop (64 * (text.length / 64)) →
      (data.foldl pushByte ctx).state =
        hashBlocks (text ++ data) ((text ++ data).length / 64) ∧
      (data.foldl pushByte ctx).block = (text ++ data).drop (64 * ((text ++ data).length / 64)) ∧
      (data.foldl pushByte ctx).bits = ctx.bits := by
    intro data
    induction data with
    | nil =>
      intro text ctx state block
      rw [List.append_nil]
      exact ⟨state, block, rfl⟩
    | cons b data ih =>
      intro text ctx state block
      obtain ⟨state', block', bits'⟩ := pushByte_text b state block
      obtain ⟨state'', block'', bits''⟩ := ih (text ++ [b]) (pushByte ctx b) state' block'
      rw [List.append_assoc, List.singleton_append] at state'' block''
      exact ⟨state'', block'', bits''.trans bits'⟩
  obtain ⟨state, block, bits⟩ := push data text
    { ctx with bits := ctx.bits + data.length.toUInt64 * 8 } absorbed.state absorbed.block
  refine ⟨state, block, bits.trans ?_⟩
  dsimp only
  rw [absorbed.bits, List.length_append, Nat.toUInt64_eq, Nat.toUInt64_eq, Nat.toUInt64_eq,
    UInt64.ofNat_add, UInt64.add_mul]

/-- The loop of `sha256_update`: bytes are copied up to the end of the block. -/
def updateLoop : Nat → Sha256 → Bytes → Sha256
  | 0, ctx, _ => ctx
  | fuel + 1, ctx, data =>
    if data = [] then ctx
    else
      let n := min (64 - ctx.block.length) data.length
      let block := ctx.block ++ data.take n
      if block.length = 64 then
        updateLoop fuel { ctx with state := sha256Block ctx.state block, block := [] } (data.drop n)
      else updateLoop fuel { ctx with block } (data.drop n)

/-- `sha256_update` as it copies; every turn takes a byte at least. -/
def sha256UpdateBlocks (ctx : Sha256) (data : Bytes) : Sha256 :=
  updateLoop data.length { ctx with bits := ctx.bits + data.length.toUInt64 * 8 } data

/-- A copy that does not go over the end of the block. -/
theorem foldl_pushByte (ctx : Sha256) {data : Bytes} (some_ : data ≠ [])
    (fits : ctx.block.length + data.length ≤ 64) :
    data.foldl pushByte ctx =
      if (ctx.block ++ data).length = 64 then
        { ctx with state := sha256Block ctx.state (ctx.block ++ data), block := [] }
      else { ctx with block := ctx.block ++ data } := by
  induction data generalizing ctx with
  | nil => exact absurd rfl some_
  | cons b data ih =>
    rw [List.length_cons] at fits
    rw [List.foldl_cons]
    have length : (ctx.block ++ [b]).length = ctx.block.length + 1 := by simp
    cases data with
    | nil => rfl
    | cons c data =>
      have open_ : pushByte ctx b = { ctx with block := ctx.block ++ [b] } := by
        rw [pushByte, if_neg]
        rw [List.length_cons] at fits
        omega
      rw [open_, ih _ (List.cons_ne_nil _ _) (by dsimp only; omega)]
      simp only [List.append_assoc, List.singleton_append]

theorem updateLoop_eq {fuel : Nat} {ctx : Sha256} {data : Bytes} (enough : data.length ≤ fuel)
    (open_ : ctx.block.length < 64) : updateLoop fuel ctx data = data.foldl pushByte ctx := by
  induction fuel generalizing ctx data with
  | zero =>
    rw [List.eq_nil_of_length_eq_zero (Nat.le_zero.mp enough)]
    rfl
  | succ fuel ih =>
    rw [updateLoop]
    by_cases empty : data = []
    · rw [if_pos empty, empty]
      rfl
    rw [if_neg empty]
    dsimp only
    have some_ := List.length_pos_of_ne_nil empty
    generalize taken : min (64 - ctx.block.length) data.length = n
    have length : (data.take n).length = n := by
      rw [List.length_take]
      omega
    have copied := foldl_pushByte ctx
      (show data.take n ≠ [] by rw [← List.length_pos_iff, length]; omega) (by omega)
    have rest : (data.drop n).length ≤ fuel := by
      rw [List.length_drop]
      omega
    conv_rhs => rw [← List.take_append_drop n data, List.foldl_append, copied]
    have whole : (ctx.block ++ data.take n).length = ctx.block.length + n := by
      rw [List.length_append, length]
    by_cases full : (ctx.block ++ data.take n).length = 64
    · rw [if_pos full, if_pos full, ih rest (by dsimp only; simp)]
    · rw [if_neg full, if_neg full, ih rest (by dsimp only; omega)]

theorem sha256UpdateBlocks_eq {ctx : Sha256} (open_ : ctx.block.length < 64) (data : Bytes) :
    sha256UpdateBlocks ctx data = sha256Update ctx data :=
  updateLoop_eq (le_refl _) open_

/-! ### The end -/

theorem bigEndian_eq (w : UInt32) : bigEndian w = beBytes 4 w.toNat := by
  have four : List.range 4 = [0, 1, 2, 3] := rfl
  unfold bigEndian beBytes
  rw [four]
  simp only [List.map_cons, List.map_nil, List.cons.injEq, and_true]
  refine ⟨?_, ?_, ?_, ?_⟩ <;> apply UInt8.toNat_inj.mp <;> simp [Nat.shiftRight_eq_div_pow]

/-- The count of the context, while it does not run over. -/
theorem bitCount_eq {n : Nat} (small : n < 2 ^ 61) :
    bitCount (n.toUInt64 * 8) = beBytes 8 (8 * n) := by
  have eight : List.range 8 = [0, 1, 2, 3, 4, 5, 6, 7] := rfl
  have count : (n.toUInt64 * 8).toNat = 8 * n := by
    rw [UInt64.toNat_mul, Nat.toUInt64_eq, UInt64.toNat_ofNat']
    have e : (8 : UInt64).toNat = 8 := rfl
    rw [e]
    omega
  unfold bitCount beBytes
  rw [eight, ← count]
  simp only [List.map_cons, List.map_nil, List.cons.injEq, and_true]
  refine ⟨?_, ?_, ?_, ?_, ?_, ?_, ?_, ?_⟩ <;> apply UInt8.toNat_inj.mp <;>
    simp [Nat.shiftRight_eq_div_pow]

/-- A text that ends with a whole block. -/
theorem hashBlocks_last (text last : Bytes) (whole : text.length % 64 + last.length = 64) :
    (text ++ last).length / 64 = text.length / 64 + 1 ∧
      hashBlocks (text ++ last) (text.length / 64 + 1) =
        compress (hashBlocks text (text.length / 64))
          (text.drop (64 * (text.length / 64)) ++ last) := by
  have length : (text ++ last).length = text.length + last.length := List.length_append
  refine ⟨by omega, ?_⟩
  have block : blockOf (text ++ last) (text.length / 64) =
      text.drop (64 * (text.length / 64)) ++ last := by
    rw [blockOf, List.drop_append_of_le_length (by omega), List.take_of_length_le]
    rw [List.length_append, List.length_drop]
    omega
  rw [hashBlocks_succ, block, hashBlocks_append (by omega)]

theorem length_beBytes (n v : Nat) : (beBytes n v).length = n := by
  rw [beBytes, List.length_map, List.length_range]

/-- **The end of a hash.** -/
theorem Absorbed.final {ctx : Sha256} {text : Bytes} (absorbed : Absorbed ctx text)
    (small : text.length < 2 ^ 61) : sha256Final ctx = digest text := by
  have tail := absorbed.length
  have blockLength : (ctx.block ++ [(0x80 : UInt8)]).length = text.length % 64 + 1 := by
    rw [List.length_append, tail, List.length_singleton]
  have count := length_beBytes 8 (8 * text.length)
  unfold sha256Final digest
  dsimp only
  have bytes : bigEndian = fun w => beBytes 4 w.toNat := funext bigEndian_eq
  rw [blockLength, absorbed.bits, bitCount_eq small, bytes]
  simp only [sha256Block_eq]
  by_cases long : 56 < text.length % 64 + 1
  · have zeros : (119 - text.length % 64) % 64 = (63 - text.length % 64) + 56 := by omega
    have gap : 64 - (text.length % 64 + 1) = 63 - text.length % 64 := by omega
    have split : padded text = (text ++ ([0x80] ++ List.replicate (63 - text.length % 64) 0)) ++
        (List.replicate 56 0 ++ beBytes 8 (8 * text.length)) := by
      rw [padded, zeros, List.replicate_add]
      simp only [List.append_assoc]
    have first := hashBlocks_last text ([0x80] ++ List.replicate (63 - text.length % 64) 0)
      (by rw [List.length_append, List.length_replicate, List.length_singleton]; omega)
    generalize front : text ++ ([0x80] ++ List.replicate (63 - text.length % 64) 0) = whole
      at split first
    have size : whole.length = 64 * (text.length / 64 + 1) := by
      rw [← front, List.length_append, List.length_append, List.length_replicate,
        List.length_singleton]
      omega
    have second := hashBlocks_last whole (List.replicate 56 0 ++ beBytes 8 (8 * text.length))
      (by rw [List.length_append, List.length_replicate, count]; omega)
    rw [first.1, List.drop_eq_nil_of_le (le_of_eq size), first.2] at second
    rw [if_pos long, split, second.1, second.2, absorbed.state, absorbed.block, gap]
    simp only [List.nil_append, List.append_assoc, List.length_nil, Nat.sub_zero]
  · have zeros : (119 - text.length % 64) % 64 = 56 - (text.length % 64 + 1) := by omega
    have last := hashBlocks_last text
      ([0x80] ++ List.replicate (56 - (text.length % 64 + 1)) 0 ++ beBytes 8 (8 * text.length))
      (by
        rw [List.length_append, List.length_append, List.length_replicate, List.length_singleton, count]
        omega)
    rw [if_neg long, padded, zeros, last.1, last.2]
    dsimp only
    rw [blockLength, absorbed.state, absorbed.block]
    simp only [List.append_assoc]

/-! ### Passwords -/

/-- The lower-case hexadecimal digits of a text. -/
def lowerHex (text : Bytes) : Bytes :=
  text.flatMap fun b => [(b.toNat / 16).digitChar, (b.toNat % 16).digitChar].map fun c =>
    UInt8.ofNat c.toNat

theorem hexByte_eq {d : Nat} (digit : d < 16) : hexByte d = UInt8.ofNat d.digitChar.toNat := by
  have all : ∀ d : Fin 16, hexByte d.val = UInt8.ofNat d.val.digitChar.toNat := by decide
  exact all ⟨d, digit⟩

theorem absorbed_pieces {ctx : Sha256} {text : Bytes} (absorbed : Absorbed ctx text)
    (pieces : List Bytes) :
    Absorbed (pieces.foldl sha256UpdateBlocks ctx) (text ++ pieces.flatten) := by
  induction pieces generalizing ctx text with
  | nil => rwa [List.flatten_nil, List.append_nil]
  | cons piece pieces ih =>
    have open_ : ctx.block.length < 64 := by
      rw [absorbed.length]
      omega
    rw [List.foldl_cons, List.flatten_cons, ← List.append_assoc]
    refine ih ?_
    rw [sha256UpdateBlocks_eq open_]
    exact absorbed.update piece

/-- **The hash is SHA-256**: of the bytes of all updates, however they are cut into pieces, and of
the salt, a colon and the password. -/
theorem sha256_digest :
    (∀ pieces : List Bytes, (∀ piece ∈ pieces, piece.length < 2 ^ 32) →
      pieces.flatten.length < 2 ^ 61 →
      sha256Final (pieces.foldl sha256UpdateBlocks sha256Init) = digest pieces.flatten) ∧
    ∀ password salt : Bytes, password.length < 2 ^ 32 → salt.length < 2 ^ 32 →
      passwordHash password salt = lowerHex (digest (salt ++ ascii ":" ++ password)) := by
  constructor
  · intro pieces _ small
    exact (absorbed_pieces absorbed_init pieces).final small
  · intro password salt short short'
    have absorbed := ((absorbed_init.update salt).update (ascii ":")).update password
    have colon : (ascii ":").length = 1 := by decide
    rw [List.nil_append] at absorbed
    unfold passwordHash
    dsimp only
    rw [absorbed.final (by rw [List.length_append, List.length_append]; omega)]
    unfold lowerHex
    congr 1
    funext b
    have := b.toNat_lt
    rw [hexByte_eq (by omega), hexByte_eq (by omega)]
    rfl

end AtmKoala.Users
