import Mathlib.Data.List.TakeWhile
import Mathlib.Data.Nat.Digits.Lemmas
import Mathlib.Tactic.NormNum
import AtmKoala.Package.Archive

/-!
The entries that `tar_write_file` writes.

* Octal, hexadecimal and decimal numbers are read back.
* `entryBytes` is an archive entry as `tar_write_file` leaves it, and `tarNext_entry` what
  `tar_next` reads back.
* `payloadPath_safe`: the path of a program is safe, unless the program is called `..`.
-/

namespace AtmKoala.Package

open Lib

variable {name data text tar front rest s : Bytes} {size pos fuel k n : Nat}

/-! ### Numbers -/

/-- **Octal numbers** are read back. -/
theorem octalDigits_text (m v acc : Nat) (below : acc * 8 ^ n + v % 8 ^ n < 2 ^ 32) :
    octalDigits (n + m) acc (octalText n v ++ s) =
      octalDigits m (acc * 8 ^ n + v % 8 ^ n) s := by
  induction n generalizing v m s with
  | zero => simp [octalText, Nat.mod_one]
  | succ n ih =>
    have shape : v % 8 ^ (n + 1) = v % 8 + 8 * (v / 8 % 8 ^ n) := by
      rw [Nat.pow_succ', Nat.mod_mul]
    have digit : (UInt8.ofNat (48 + v % 8)).toNat = 48 + v % 8 := by
      rw [UInt8.toNat_ofNat']
      omega
    have mul : acc * 8 ^ (n + 1) = 8 * (acc * 8 ^ n) := by rw [Nat.pow_succ', Nat.mul_left_comm]
    rw [shape, mul] at below
    rw [octalText, List.append_assoc, Nat.add_right_comm, Nat.add_assoc, ih (m + 1) (v / 8) (by omega),
      List.singleton_append, octalDigits, if_neg, digit, if_neg (by omega), u32_of_lt (by omega),
      shape, mul]
    · congr 1
      omega
    · intro zero
      rw [zero] at digit
      have : (0 : UInt8).toNat = 0 := rfl
      omega

theorem length_octalText (n v : Nat) : (octalText n v).length = n := by
  induction n generalizing v with
  | zero => rfl
  | succ n ih => rw [octalText, List.length_append, ih]; rfl

/-- The size in a header. -/
theorem octalDigits_field {v : Nat} (below : v < 2 ^ 32) :
    octalDigits 12 0 (tarOctalWrite 12 v ++ s) = .ok v := by
  have wide : v % 8 ^ 11 = v := Nat.mod_eq_of_lt (below.trans_le (by norm_num))
  have digits := octalDigits_text (s := 0 :: s) (n := 11) 1 v 0
    (by rw [wide, Nat.zero_mul, Nat.zero_add]; exact below)
  rw [wide, Nat.zero_mul, Nat.zero_add, octalDigits, if_pos rfl] at digits
  rw [tarOctalWrite, if_neg (by decide), List.append_assoc]
  exact digits

theorem hexByte_toNat {d : Nat} (small : d < 16) :
    (hexByte d).toNat = if d < 10 then 48 + d else 87 + d := by
  unfold hexByte
  split
  · rw [UInt8.toNat_ofNat']
    omega
  · rw [UInt8.toNat_ofNat']
    omega

/-- One digit of a hexadecimal number. -/
theorem hexDigits_cons {count v d : Nat} (small : d < 16) (few : count < 8) :
    hexDigits count v (hexByte d :: s) = hexDigits (count + 1) (u32 (v * 16 + d)) s := by
  have byte := hexByte_toNat small
  have blank : isBlank (hexByte d) = false := by
    rw [isBlank, Bool.or_eq_false_iff, decide_eq_false_iff_not, decide_eq_false_iff_not]
    constructor
    · intro same
      rw [same] at byte
      have : (32 : UInt8).toNat = 32 := rfl
      split at byte <;> omega
    · intro same
      rw [same] at byte
      have : (9 : UInt8).toNat = 9 := rfl
      split at byte <;> omega
  rw [hexDigits, blank, if_neg Bool.false_ne_true, byte]
  by_cases low : d < 10
  · rw [if_pos low, if_pos (by omega)]
    dsimp only
    rw [if_neg (by omega)]
    congr 3
    omega
  · rw [if_neg low, if_neg (by omega), if_pos (by omega)]
    dsimp only
    rw [if_neg (by omega)]
    congr 3
    omega

/-- The value of the digits read so far. -/
theorem hexValue_step {c : Nat} (below : c < 2 ^ 32) (i : Nat) :
    u32 (c / 16 ^ (i + 1) * 16 + c / 16 ^ i % 16) = c / 16 ^ i := by
  have shift : c / 16 ^ (i + 1) = c / 16 ^ i / 16 := by rw [Nat.pow_succ, Nat.div_div_eq_div_mul]
  have small := Nat.div_le_self c (16 ^ i)
  rw [shift, Nat.div_add_mod', u32_of_lt (by omega)]

/-- **Checksums** are read back. -/
theorem hexU32_hexText {c : Nat} (below : c < 2 ^ 32) : hexU32 (hexText c) = some c := by
  have digit : ∀ i, c / 16 ^ i % 16 < 16 := fun i => Nat.mod_lt _ (by decide)
  have step := hexValue_step below
  have first : u32 (0 * 16 + c / 16 ^ 7 % 16) = c / 16 ^ 7 := by
    have all := step 7
    rwa [Nat.div_eq_of_lt (show c < 16 ^ (7 + 1) from below)] at all
  rw [hexU32, hexText]
  simp only [List.map_cons, List.map_nil]
  rw [hexDigits_cons (digit 7) (by decide), first, hexDigits_cons (digit 6) (by decide), step 6,
    hexDigits_cons (digit 5) (by decide), step 5, hexDigits_cons (digit 4) (by decide), step 4,
    hexDigits_cons (digit 3) (by decide), step 3, hexDigits_cons (digit 2) (by decide), step 2,
    hexDigits_cons (digit 1) (by decide), step 1, hexDigits_cons (digit 0) (by decide), step 0,
    hexDigits, if_pos rfl, Nat.pow_zero, Nat.div_one]

theorem digitByte_toNat {d : Nat} (small : d < 10) : (UInt8.ofNat (48 + d)).toNat = 48 + d := by
  rw [UInt8.toNat_ofNat']
  omega

/-- The digits of a number, the highest first. -/
theorem foldl_digits {n acc : Nat} (below : acc * 10 ^ (Nat.digits 10 n).length + n < 2 ^ 32) :
    ((Nat.digits 10 n).reverse.map fun d => UInt8.ofNat (48 + d)).foldl
        (fun v b => u32 (v * 10 + (b.toNat - 48))) acc =
      acc * 10 ^ (Nat.digits 10 n).length + n := by
  induction n using Nat.strongRecOn with
  | ind n ih =>
    by_cases zero : n = 0
    · subst zero
      simp
    · have digits : Nat.digits 10 n = n % 10 :: Nat.digits 10 (n / 10) :=
        Nat.digits_def' (by decide) (Nat.pos_of_ne_zero zero)
      rw [digits, List.length_cons, Nat.pow_succ, ← Nat.mul_assoc] at below
      rw [digits, List.reverse_cons, List.map_append, List.foldl_append, ih (n / 10) (by omega)
        (by omega), List.map_cons, List.map_nil, List.foldl_cons, List.foldl_nil,
        digitByte_toNat (by omega), u32_of_lt (by omega), List.length_cons, Nat.pow_succ,
        ← Nat.mul_assoc]
      omega

theorem kuitoa_digits (n : Nat) : ∀ b ∈ kuitoa n, isDigit b = true := by
  intro b mem
  unfold kuitoa at mem
  split at mem
  · obtain rfl := List.mem_singleton.mp mem
    decide
  · obtain ⟨d, inside, rfl⟩ := List.mem_map.mp mem
    have small := Nat.digits_lt_base (by decide : 1 < 10) (List.mem_reverse.mp inside)
    rw [isDigit, digitByte_toNat small]
    simp only [Bool.and_eq_true, decide_eq_true_eq]
    omega

/-- **Sizes** are read back. -/
theorem decU32_kuitoa {n : Nat} (below : n < 2 ^ 32) : decU32 (kuitoa n) = n := by
  rw [decU32, List.takeWhile_eq_self_iff.mpr (kuitoa_digits n), kuitoa]
  split
  · rename_i zero
    rw [zero]
    rfl
  · rw [foldl_digits (by omega)]
    omega

theorem length_kuitoa {n : Nat} (below : n < 10 ^ 10) : (kuitoa n).length ≤ 10 := by
  unfold kuitoa
  split
  · decide
  · rw [List.length_map, List.length_reverse]
    exact (Nat.digits_length_le_iff (by decide) n).mpr below

/-! ### Headers -/

theorem length_kstrncpy (short : name.length ≤ n) : (kstrncpy name n).length = n := by
  rw [kstrncpy, List.length_append, List.length_take, List.length_replicate]
  omega

theorem length_tarOctalWrite (n v : Nat) : (tarOctalWrite n v).length = n := by
  unfold tarOctalWrite
  split
  · rename_i zero
    rw [zero]
    rfl
  · rw [List.length_append, length_octalText, List.length_singleton]
    omega

/-- The fields of a header, one behind the other. -/
theorem tarHeader_eq (short : name.length ≤ 99) (size : Nat) :
    tarHeader name size = kstrncpy name 99 ++ List.replicate 1 0 ++ tarOctalWrite 8 0o755 ++
      List.replicate 16 0 ++ tarOctalWrite 12 size ++ List.replicate 20 0 ++ [48] ++
      List.replicate 100 0 ++ ustarMagic ++ List.replicate 0 0 ++ [48, 48] ++
      List.replicate 248 0 := by
  have lenName := length_kstrncpy short
  have lenMode := length_tarOctalWrite 8 0o755
  have lenSize := length_tarOctalWrite 12 size
  have lenMagic : ustarMagic.length = 5 := by decide
  have lenType : ([48] : Bytes).length = 1 := rfl
  have lenVersion : ([48, 48] : Bytes).length = 2 := rfl
  have start : List.replicate tarBlock (0 : UInt8) = [] ++ List.replicate 512 0 := by
    rw [List.nil_append, tarBlock]
  rw [tarHeader, start, overwrite_zeros [] (kstrncpy name 99) 0 0 512 413 rfl (by rw [lenName]),
    overwrite_zeros _ (tarOctalWrite 8 0o755) 100 1 413 404 ?_ (by rw [lenMode]),
    overwrite_zeros _ (tarOctalWrite 12 size) 124 16 404 376 ?_ (by rw [lenSize]),
    overwrite_zeros _ [48] 156 20 376 355 ?_ (by rw [lenType]),
    overwrite_zeros _ ustarMagic 257 100 355 250 ?_ (by rw [lenMagic]),
    overwrite_zeros _ [48, 48] 262 0 250 248 ?_ (by rw [lenVersion])]
  · rfl
  all_goals
    simp only [List.length_append, List.length_replicate, List.length_nil, List.length_cons]
    omega

/-- A header begins with its name, if that is short. -/
theorem tarHeader_name (short : name.length ≤ 98) (size : Nat) :
    ∃ tail, tarHeader name size = name ++ 0 :: tail := by
  have padded : kstrncpy name 99 = name ++ 0 :: List.replicate (98 - name.length) 0 := by
    rw [kstrncpy, List.take_of_length_le (by omega), ← List.replicate_succ]
    congr 2
    omega
  rw [tarHeader_eq (by omega), padded]
  simp only [List.append_assoc, List.cons_append]
  exact ⟨_, rfl⟩

/-- The fields that `tar_next` reads, and where they are. -/
theorem tarHeader_fields (short : name.length ≤ 99) (size : Nat) :
    (tarHeader name size).length = tarBlock ∧
      (∃ front tail, front.length = 124 ∧
        tarHeader name size = front ++ (tarOctalWrite 12 size ++ tail)) ∧
      (∃ front tail, front.length = 156 ∧ tarHeader name size = front ++ 48 :: tail) ∧
      ∃ front tail, front.length = 257 ∧ tarHeader name size = front ++ (ustarMagic ++ tail) := by
  have lenName := length_kstrncpy short
  have lenMode := length_tarOctalWrite 8 0o755
  have lenSize := length_tarOctalWrite 12 size
  have lenMagic : ustarMagic.length = 5 := by decide
  have eq := tarHeader_eq short size
  refine ⟨?_, ⟨kstrncpy name 99 ++ List.replicate 1 0 ++ tarOctalWrite 8 0o755 ++
      List.replicate 16 0, List.replicate 20 0 ++ [48] ++ List.replicate 100 0 ++ ustarMagic ++
      List.replicate 0 0 ++ [48, 48] ++ List.replicate 248 0, ?_, ?_⟩,
    ⟨kstrncpy name 99 ++ List.replicate 1 0 ++ tarOctalWrite 8 0o755 ++ List.replicate 16 0 ++
      tarOctalWrite 12 size ++ List.replicate 20 0, List.replicate 100 0 ++ ustarMagic ++
      List.replicate 0 0 ++ [48, 48] ++ List.replicate 248 0, ?_, ?_⟩,
    ⟨kstrncpy name 99 ++ List.replicate 1 0 ++ tarOctalWrite 8 0o755 ++ List.replicate 16 0 ++
      tarOctalWrite 12 size ++ List.replicate 20 0 ++ [48] ++ List.replicate 100 0,
      List.replicate 0 0 ++ [48, 48] ++ List.replicate 248 0, ?_, ?_⟩⟩
  · rw [eq]
    simp only [List.length_append, List.length_replicate, List.length_cons, List.length_nil]
    unfold tarBlock
    omega
  · simp only [List.length_append, List.length_replicate]
    omega
  · rw [eq]
    simp only [List.append_assoc]
  · simp only [List.length_append, List.length_replicate]
    omega
  · rw [eq]
    simp only [List.append_assoc, List.cons_append, List.nil_append]
  · simp only [List.length_append, List.length_replicate, List.length_cons, List.length_nil]
    omega
  · rw [eq]
    simp only [List.append_assoc]

/-! ### Entries -/

/-- An entry of an archive: its header, its data and zero bytes up to a whole block. -/
def entryBytes (name data : Bytes) : Bytes :=
  tarHeader name data.length ++ data ++ List.replicate (align512 data.length - data.length) 0

theorem align512_le (below : size + 511 < 2 ^ 32) :
    size ≤ align512 size ∧ align512 size ≤ size + 511 := by
  rw [align512_eq below]
  unfold tarBlock
  omega

theorem length_entryBytes (short : name.length ≤ 99) (below : data.length + 511 < 2 ^ 32) :
    (entryBytes name data).length = tarBlock + align512 data.length := by
  have whole := (align512_le below).1
  rw [entryBytes, List.length_append, List.length_append, (tarHeader_fields short _).1,
    List.length_replicate]
  omega

/-- **A file written** behind what is there. -/
theorem tarWriteFile_zeros (cap left : Nat) (front name data : Bytes) (short : name.length ≤ 99)
    (safe : tarSafeName (name ++ [0]) = .ok true) (below : data.length < 2 ^ 30)
    (start : front.length < 2 ^ 30) (room : front.length + tarBlock + align512 data.length ≤ cap) :
    tarWriteFile (front ++ List.replicate (tarBlock + align512 data.length + left) 0) cap
        front.length name data =
      (front ++ entryBytes name data ++ List.replicate left 0,
        front.length + tarBlock + align512 data.length) := by
  have whole := align512_le (show data.length + 511 < 2 ^ 32 by omega)
  have block : tarBlock = 512 := rfl
  have lenHeader := (tarHeader_fields short data.length).1
  have next : u32 (front.length + tarBlock + align512 data.length) =
      front.length + tarBlock + align512 data.length := u32_of_lt (by omega)
  rw [tarWriteFile, next, if_neg (by
    rintro (long | unsafe_)
    · omega
    · exact unsafe_ safe)]
  rw [overwrite_zeros front _ front.length 0 _ (align512 data.length + left) rfl (by omega)]
  rw [overwrite_zeros _ data _ 0 _ (align512 data.length - data.length + left) (by
    rw [List.length_append, List.length_append, lenHeader, List.length_replicate]
    omega) (by omega)]
  have body : front ++ List.replicate 0 0 ++ tarHeader name data.length ++ List.replicate 0 0 ++
      data ++ List.replicate (align512 data.length - data.length + left) 0 =
      front ++ entryBytes name data ++ List.replicate left 0 := by
    rw [entryBytes, List.replicate_zero, List.append_nil, List.append_nil,
      ← List.replicate_append_replicate]
    simp only [List.append_assoc]
  rw [body]

theorem drop_front (front rest : Bytes) (n : Nat) :
    (front ++ rest).drop (front.length + n) = rest.drop n := by
  rw [← List.drop_drop, List.drop_left]

/-- The name of an entry, with its NUL. -/
theorem entryBytes_name (short : name.length ≤ 98) (data rest : Bytes) :
    ∃ tail, entryBytes name data ++ rest = name ++ 0 :: tail := by
  obtain ⟨tail, header⟩ := tarHeader_name short data.length
  rw [entryBytes, header]
  simp only [List.append_assoc, List.cons_append]
  exact ⟨_, rfl⟩

/-- **A file read back.** -/
theorem tarNext_entry (front rest : Bytes) (short : name.length ≤ 98) (named : name ≠ [])
    (live : 0 ∉ name)
    (small : (front ++ (entryBytes name data ++ rest)).length < 2 ^ 30) :
    tarNext (front ++ (entryBytes name data ++ rest)) front.length =
      .ok (.entry front.length (front.length + tarBlock) data.length 48
        (front.length + tarBlock + align512 data.length)) := by
  have block : tarBlock = 512 := rfl
  obtain ⟨lenHeader, ⟨front₁, tail₁, at₁, octal⟩, ⟨front₂, tail₂, at₂, type⟩,
    front₃, tail₃, at₃, magic⟩ := tarHeader_fields (show name.length ≤ 99 by omega) data.length
  have lengths := small
  rw [List.length_append, List.length_append, entryBytes, List.length_append, List.length_append,
    lenHeader] at lengths
  have whole := align512_le (show data.length + 511 < 2 ^ 32 by omega)
  have lenEntry := length_entryBytes (show name.length ≤ 99 by omega)
    (show data.length + 511 < 2 ^ 32 by omega)
  have field : ∀ {part tail : Bytes} (before : Bytes),
      tarHeader name data.length = before ++ (part ++ tail) →
      ∃ after, (front ++ (entryBytes name data ++ rest)).drop (front.length + before.length) =
        part ++ after := by
    intro part tail before same
    rw [drop_front, entryBytes, same]
    simp only [List.append_assoc, List.drop_left]
    exact ⟨_, rfl⟩
  have header : IsHeader (front ++ (entryBytes name data ++ rest)) front.length := by
    refine ⟨?_, ?_, ?_⟩
    · rw [List.length_append, List.length_append, lenEntry]
      omega
    · obtain ⟨tail, same⟩ := entryBytes_name short data rest
      rw [tarZero, List.drop_left, same]
      cases name with
      | nil => exact absurd rfl named
      | cons c name =>
        rw [block, List.cons_append, zeroBytes, if_pos]
        rintro rfl
        exact live List.mem_cons_self
    · obtain ⟨after, same⟩ := field front₃ magic
      rw [at₃] at same
      rw [same]
      exact List.take_left' (by decide)
  have size : sizeField (front ++ (entryBytes name data ++ rest)) front.length = data.length := by
    obtain ⟨after, same⟩ := field front₁ octal
    rw [at₁] at same
    rw [sizeField, tarOctal, same, octalDigits_field (by omega)]
    rfl
  have kind : (front ++ (entryBytes name data ++ rest)).getD (front.length + 156) 0 = 48 := by
    obtain ⟨after, same⟩ := field front₂ (show _ = front₂ ++ ([48] ++ tail₂) from type)
    rw [at₂] at same
    rw [List.getD_eq_getElem?_getD, ← List.head?_drop, same]
    rfl
  have step := tarNext_header (by omega) header
  rw [size, kind, u32_of_lt (by omega), u32_of_lt (by omega), if_neg (by
    rw [List.length_append, List.length_append, lenEntry]
    omega)] at step
  exact step

/-! ### Names -/

theorem cstr_name (live : 0 ∉ name) (rest : Bytes) : cstr (name ++ 0 :: rest) = .ok name := by
  induction name with
  | nil => rfl
  | cons b name ih =>
    have inner : b ≠ 0 := fun zero => live (zero ▸ List.mem_cons_self)
    rw [List.cons_append, cstr, if_neg inner, ih fun mem => live (List.mem_cons_of_mem _ mem)]
    rfl

/-- What stands behind the NUL does not matter. -/
theorem safeFrom_nul (prev : Option UInt8) (name rest : Bytes) :
    safeFrom prev (name ++ 0 :: rest) = safeFrom prev (name ++ [0]) := by
  induction name generalizing prev with
  | nil =>
    rw [List.nil_append, List.nil_append, safeFrom.eq_def, safeFrom.eq_def]
    rfl
  | cons c name ih =>
    rw [List.cons_append, List.cons_append, safeFrom.eq_def, safeFrom.eq_def prev (c :: _)]
    dsimp only
    cases name with
    | nil =>
      dsimp only [List.nil_append]
      rw [if_neg (show ¬((0 : UInt8) = dotByte ∧ _) from fun both => absurd both.1 (by decide)),
        if_neg (show ¬((0 : UInt8) = dotByte ∧ _) from fun both => absurd both.1 (by decide))]
      have next := ih (some c)
      rw [List.nil_append, List.nil_append] at next
      rw [next]
    | cons c' name =>
      have next := ih (some c)
      rw [List.cons_append, List.cons_append] at next
      rw [List.cons_append, List.cons_append]
      dsimp only
      rw [next]
      cases name with
      | nil => rfl
      | cons e name => rfl

theorem tarSafeName_nul (name rest : Bytes) :
    tarSafeName (name ++ 0 :: rest) = tarSafeName (name ++ [0]) := by
  cases name with
  | nil => rfl
  | cons c name =>
    have next := safeFrom_nul none (c :: name) rest
    rw [List.cons_append, List.cons_append] at next
    rw [List.cons_append, List.cons_append, tarSafeName, tarSafeName, next]

theorem safeFrom_plain {prev : Option UInt8} {c : UInt8} (live : c ≠ 0) (plain : c ≠ dotByte) :
    safeFrom prev (c :: s) = safeFrom (some c) s := by
  rw [safeFrom.eq_def]
  dsimp only
  rw [if_neg live, if_neg plain]

/-- Without a `/` there is no component `..` behind a byte of a name. -/
theorem safeFrom_inner {c : UInt8} (inner : c ≠ slashByte)
    (plain : ∀ b ∈ name, b ≠ 0 ∧ b ≠ slashByte) : safeFrom (some c) (name ++ [0]) = .ok true := by
  induction name generalizing c with
  | nil =>
    rw [List.nil_append, safeFrom.eq_def]
    rfl
  | cons b name ih =>
    obtain ⟨live, other⟩ := plain b List.mem_cons_self
    have next := ih other fun b mem => plain b (List.mem_cons_of_mem _ mem)
    by_cases dot : b = dotByte
    · rw [List.cons_append, safeFrom.eq_def]
      dsimp only
      rw [if_neg live, if_pos dot]
      cases name with
      | nil =>
        dsimp only [List.nil_append]
        rw [if_neg fun both => absurd both.1 (by decide)]
        exact next
      | cons c' name =>
        dsimp only [List.cons_append]
        rw [if_neg]
        · exact next
        · rintro ⟨-, none_ | same⟩
          · cases none_
          · exact inner (Option.some.inj same)
    · rw [List.cons_append, safeFrom_plain live dot]
      exact next

/-- The bytes of a package name. -/
theorem packageByte_plain {b : UInt8} (valid : packageByte b = true) :
    b ≠ 0 ∧ b ≠ slashByte ∧ b ≠ 32 ∧ b ≠ 9 ∧ b ≠ 10 ∧ b ≠ 13 := by
  refine ⟨?_, ?_, ?_, ?_, ?_, ?_⟩
  all_goals
    rintro rfl
    exact absurd valid (by decide)

/-- **The path of a program** is safe, unless the program is called `..`. -/
theorem payloadPath_safe (named : name ≠ []) (plain : ∀ b ∈ name, b ≠ 0 ∧ b ≠ slashByte)
    (real : name ≠ [dotByte, dotByte]) : tarSafeName (payloadPath name ++ [0]) = .ok true := by
  have folder : ascii "data/bin/" = [100, 97, 116, 97, 47, 98, 105, 110, 47] := by decide
  rw [payloadPath, folder]
  simp only [List.cons_append, List.nil_append]
  rw [tarSafeName, if_neg (by decide)]
  iterate 9 rw [safeFrom_plain (by decide) (by decide)]
  cases name with
  | nil => exact absurd rfl named
  | cons c name =>
    obtain ⟨live, other⟩ := plain c List.mem_cons_self
    have rest := fun b mem => plain b (List.mem_cons_of_mem c mem)
    have next := safeFrom_inner other rest
    by_cases dot : c = dotByte
    · rw [List.cons_append, safeFrom.eq_def]
      dsimp only
      rw [if_neg live, if_pos dot]
      cases name with
      | nil =>
        dsimp only [List.nil_append]
        rw [if_neg fun both => absurd both.1 (by decide)]
        exact next
      | cons c' name =>
        dsimp only [List.cons_append]
        split
        · rename_i both
          cases name with
          | nil => exact absurd (by rw [dot, both.1]) real
          | cons e name =>
            obtain ⟨live', other'⟩ := rest e (by simp)
            dsimp only [List.cons_append]
            rw [if_neg fun stop => stop.elim other' live']
            exact next
        · exact next
    · rw [List.cons_append, safeFrom_plain live dot]
      exact next

end AtmKoala.Package
