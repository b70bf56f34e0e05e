import AtmKoala.Lib.Access
import AtmKoala.Lib.Bytes
import AtmKoala.Paging.Copy

/-!
The vectors of `execve` (`strnlen_user`, `sys_exec_copy_vector`).

The strings of `argv` and `envp` are copied one behind the other into a payload of the
kernel, with a 16-bit offset for each. Addresses are sums modulo 2^64.

* `BytesAt`, `WordAt`, `StringAt`, `VectorAt` say what a program has at its addresses.
* `copyIn_iff`: a copy gets what is there.
* `sysExecCopyVector_ok`: a vector that is accepted is a vector of strings within the limits,
  and they are in the payload.
-/

namespace AtmKoala.Native

open Lib Paging

/-- `ATM_EFAULT` and `ATM_EINVAL`. -/
def efault : Int := 14
def einval : Int := 22

/-- `ATM_NATIVE_EXEC_STR_BYTES`, `ATM_NATIVE_EXEC_MAX_ARGS` and `ATM_NATIVE_EXEC_MAX_ENV`. -/
def execStrBytes : Nat := 2048
def execMaxArgs : Nat := 16
def execMaxEnv : Nat := 16

section

variable (s : UserSpace) (m : Memory) (buffer : Nat)

/-- `copy_from_user` to a variable of the kernel at `buffer`: what is there afterwards. -/
def copyIn (uaddr len : Nat) : Option Bytes :=
  match copyFromUser s m buffer (uaddr % 2 ^ 64) len with
  | (m, rc) => if rc < 0 then none else some ((List.range len).map fun i => m (buffer + i))

/-- The loop of `strnlen_user`, at byte `n`. -/
def strnlenLoop (addr : Nat) : Nat → Nat → Option Nat
  | 0, _ => none
  | fuel + 1, n =>
    match copyIn s m buffer (addr + n) 1 with
    | none => none
    | some c => if c = [0] then some n else strnlenLoop addr fuel (n + 1)

def strnlenUser (addr max : Nat) : Option Nat :=
  if addr = 0 ∨ max = 0 then none else strnlenLoop s m buffer addr max 0

/-- The loop of `sys_exec_copy_vector`, with `n` rounds left: the strings in the payload and
the offsets so far. -/
def copyVectorLoop (vector : Nat) : Nat → Nat → Bytes → List Nat → Except Int (Bytes × List Nat)
  | 0, i, strings, offs =>
    match copyIn s m buffer (vector + 8 * i) 8 with
    | none => .error (-efault)
    | some word => if leNat word ≠ 0 then .error (-einval) else .ok (strings, offs)
  | n + 1, i, strings, offs =>
    match copyIn s m buffer (vector + 8 * i) 8 with
    | none => .error (-efault)
    | some word =>
      if leNat word = 0 then .ok (strings, offs)
      else if execStrBytes ≤ strings.length then .error (-einval)
      else
        match strnlenUser s m buffer (leNat word) (execStrBytes - strings.length) with
        | none => .error (-efault)
        | some length =>
          match copyIn s m buffer (leNat word) (length + 1) with
          | none => .error (-efault)
          | some bytes => copyVectorLoop vector n (i + 1) (strings ++ bytes) (offs ++ [strings.length % 2 ^ 16])

def sysExecCopyVector (vector maximum : Nat) (strings : Bytes) : Except Int (Bytes × List Nat) :=
  if vector = 0 then .ok (strings, []) else copyVectorLoop s m buffer vector maximum 0 strings []

end

/-! ### What a program has at its addresses -/

/-- The bytes from `a` on. -/
def BytesAt (read : Nat → Option UInt8) (a : Nat) (bs : Bytes) : Prop :=
  ∀ i < bs.length, read (a + i) = some (bs.getD i 0)

/-- The 64-bit word at `a`. -/
def WordAt (read : Nat → Option UInt8) (a w : Nat) : Prop := w < 2 ^ 64 ∧ BytesAt read a (leBytes 8 w)

/-- The words from `a` on. -/
def WordsAt (read : Nat → Option UInt8) (a : Nat) (ws : List Nat) : Prop :=
  ∀ i < ws.length, WordAt read (a + 8 * i) (ws.getD i 0)

/-- The string at `a`, which ends with a zero. -/
def StringAt (read : Nat → Option UInt8) (a : Nat) (str : Bytes) : Prop := 0 ∉ str ∧ BytesAt read a (str ++ [0])

/-- The vector of strings at `a`: pointers up to a null pointer; the null pointer is the
empty vector. -/
def VectorAt (read : Nat → Option UInt8) (a : Nat) (strs : List Bytes) : Prop :=
  a = 0 ∧ strs = [] ∨
  a ≠ 0 ∧ ∃ ptrs, WordsAt read a (ptrs ++ [0]) ∧ List.Forall₂ (fun p str => p ≠ 0 ∧ StringAt read p str) ptrs strs

/-- The bytes of strings with the zeros behind them. -/
def packed (strs : List Bytes) : Bytes := (strs.map (· ++ [0])).flatten

/-- The string at offset `off` of a payload. -/
def StringIn (strings : Bytes) (off : Nat) (str : Bytes) : Prop := 0 ∉ str ∧ str ++ [0] <+: strings.drop off

variable {s : UserSpace} {pages : PageMap} {m : Memory} {buffer cap uaddr len n addr max : Nat}
  {read : Nat → Option UInt8} {a : Nat} {bs str strings : Bytes}

/-! ### Copies -/

/-- The kernel reads a space with frames of its own into a buffer of `cap` bytes. -/
structure Reads (s : UserSpace) (pages : PageMap) (buffer cap : Nat) : Prop where
  shows_ : Shows s pages
  unrelated : Unrelated pages
  buffer : KernelBuffer pages buffer cap

theorem shorter_buffer (whole : KernelBuffer pages buffer cap) (fits : len ≤ cap) :
    KernelBuffer pages buffer len :=
  ⟨whole.notNull, fun i x there => (whole.apart i x there).imp_right fun _ => by omega⟩

theorem userByte_isSome (shows_ : Shows s pages) (a : Nat) :
    (∃ b, userByte pages m a = some b) ↔ userWindow a = true ∧ ∃ x, pages (pageBase a) = some x := by
  unfold userByte
  constructor
  · rintro ⟨b, byte⟩
    obtain ⟨x, there, -⟩ := Option.map_eq_some_iff.mp byte
    exact ⟨shows_.window there, x, there⟩
  · rintro ⟨-, x, there⟩
    rw [there]
    exact ⟨_, rfl⟩

/-- **A copy** gets the bytes that are there, or fails because one is not. -/
theorem copyIn_iff (reads : Reads s pages buffer cap) (fits : len ≤ cap) (uaddr_lt : uaddr < 2 ^ 64) :
    copyIn s m buffer uaddr len = some bs ↔ bs.length = len ∧ BytesAt (userByte pages m) uaddr bs := by
  unfold copyIn copyFromUser
  rw [Nat.mod_eq_of_lt uaddr_lt]
  rcases userCopy_eq false m uaddr reads.shows_ reads.unrelated (shorter_buffer reads.buffer fits) with
    ⟨done, covered, copied⟩ | ⟨failed, uncovered⟩
  · have moved : ∀ i < len, userByte pages m (uaddr + i) =
        some ((userCopy s m uaddr buffer len false).1 (buffer + i)) := by
      intro i less
      obtain ⟨-, x, there, -⟩ := covered (uaddr + i) (by omega) (by omega)
      rw [userByte_eq there]
      exact congrArg some (copied.moved i less).symm
    cases copy : userCopy s m uaddr buffer len false with
    | mk m' rc =>
      rw [copy] at done moved
      dsimp only at done moved ⊢
      rw [if_neg (by omega), Option.some_inj]
      constructor
      · rintro rfl
        refine ⟨by simp, fun i less => ?_⟩
        rw [List.length_map, List.length_range] at less
        rw [moved i less]
        simp [less]
      · rintro ⟨rfl, at_⟩
        refine List.ext_getElem (by simp) fun i less less' => ?_
        have byte := at_ i less'
        rw [moved i less'] at byte
        simpa [less'] using Option.some.inj byte
  · rw [failed]
    refine iff_of_false (by simp) ?_
    rintro ⟨rfl, at_⟩
    refine uncovered fun b low high => ?_
    have byte := at_ (b - uaddr) (by omega)
    rw [Nat.add_sub_cancel' low] at byte
    obtain ⟨inside, x, there⟩ := (userByte_isSome reads.shows_ b).mp ⟨_, byte⟩
    exact ⟨inside, x, there, nofun⟩

/-- Addresses that wrap around are not in the window. -/
theorem copyIn_some (reads : Reads s pages buffer cap) (fits : len ≤ cap) (some_ : 0 < len)
    (uaddr_lt : uaddr < 2 ^ 64 + 2 ^ 20) (copied : copyIn s m buffer uaddr len = some bs) :
    bs.length = len ∧ BytesAt (userByte pages m) uaddr bs := by
  have wrapped : copyIn s m buffer (uaddr % 2 ^ 64) len = some bs := by
    unfold copyIn at copied ⊢
    rwa [Nat.mod_mod]
  obtain ⟨length, at_⟩ := (copyIn_iff reads fits (Nat.mod_lt _ (by decide))).mp wrapped
  have first := at_ 0 (by omega)
  rw [Nat.add_zero] at first
  have window := ((userByte_isSome reads.shows_ _).mp ⟨_, first⟩).1
  rw [window_iff] at window
  have small : uaddr % 2 ^ 64 = uaddr := by omega
  exact ⟨length, small ▸ at_⟩

/-! ### Bytes, words and strings -/

theorem bytesAt_cons {b : UInt8} : BytesAt read a (b :: bs) ↔ read a = some b ∧ BytesAt read (a + 1) bs := by
  constructor
  · intro at_
    refine ⟨at_ 0 (Nat.succ_pos _), fun i less => ?_⟩
    have next := at_ (i + 1) (Nat.succ_lt_succ less)
    rwa [← Nat.add_right_comm, Nat.add_assoc a i 1] at *
  · rintro ⟨first, rest⟩ i less
    cases i with
    | zero => exact first
    | succ i =>
      have next := rest i (Nat.lt_of_succ_lt_succ less)
      rwa [Nat.add_right_comm, Nat.add_assoc] at next

theorem bytesAt_unique {bs' : Bytes} (at_ : BytesAt read a bs) (at' : BytesAt read a bs')
    (same : bs.length = bs'.length) : bs = bs' := by
  refine List.ext_getElem same fun i less less' => ?_
  have byte := (at_ i less).symm.trans (at' i less')
  rw [Option.some_inj, List.getD_eq_getElem _ _ less, List.getD_eq_getElem _ _ less'] at byte
  exact byte

theorem wordAt_unique {w w' : Nat} (at_ : WordAt read a w) (at' : WordAt read a w') : w = w' := by
  have bytes := congrArg leNat (bytesAt_unique at_.2 at'.2 (by simp))
  rw [leNat_leBytes, leNat_leBytes] at bytes
  have := at_.1
  have := at'.1
  omega

theorem wordsAt_cons {w : Nat} {ws : List Nat} :
    WordsAt read a (w :: ws) ↔ WordAt read a w ∧ WordsAt read (a + 8) ws := by
  have shift : ∀ i, a + 8 + 8 * i = a + 8 * (i + 1) := fun i => by omega
  constructor
  · intro at_
    refine ⟨at_ 0 (Nat.succ_pos _), fun i less => ?_⟩
    rw [shift]
    exact at_ (i + 1) (Nat.succ_lt_succ less)
  · rintro ⟨first, rest⟩ i less
    cases i with
    | zero => exact first
    | succ i =>
      rw [← shift]
      exact rest i (Nat.lt_of_succ_lt_succ less)

theorem stringAt_nil : StringAt read a [] ↔ read a = some 0 := by
  unfold StringAt
  rw [List.nil_append, bytesAt_cons]
  constructor
  · rintro ⟨-, zero, -⟩
    exact zero
  · exact fun zero => ⟨List.not_mem_nil, zero, fun _ less => absurd less (Nat.not_lt_zero _)⟩

theorem stringAt_cons {b : UInt8} :
    StringAt read a (b :: str) ↔ b ≠ 0 ∧ read a = some b ∧ StringAt read (a + 1) str := by
  unfold StringAt
  rw [List.cons_append, bytesAt_cons, List.mem_cons, not_or, ne_comm]
  tauto

theorem stringAt_unique {str' : Bytes} (at_ : StringAt read a str) (at' : StringAt read a str') : str = str' := by
  induction str generalizing a str' with
  | nil =>
    cases str' with
    | nil => rfl
    | cons b str' =>
      obtain ⟨some_, byte, -⟩ := stringAt_cons.mp at'
      exact absurd (Option.some.inj (byte.symm.trans (stringAt_nil.mp at_))) some_
  | cons b str ih =>
    obtain ⟨some_, byte, rest⟩ := stringAt_cons.mp at_
    cases str' with
    | nil => exact absurd (Option.some.inj (byte.symm.trans (stringAt_nil.mp at'))) some_
    | cons b' str' =>
      obtain ⟨-, byte', rest'⟩ := stringAt_cons.mp at'
      obtain rfl := Option.some.inj (byte.symm.trans byte')
      rw [ih rest rest']

/-- A vector is one list of strings. -/
theorem vectorAt_unique {strs strs' : List Bytes} (at_ : VectorAt read a strs) (at' : VectorAt read a strs') :
    strs = strs' := by
  rcases at_ with ⟨null, rfl⟩ | ⟨some_, ptrs, words, each⟩
  · rcases at' with ⟨-, rfl⟩ | ⟨some_, -⟩
    · rfl
    · exact absurd null some_
  · rcases at' with ⟨null, -⟩ | ⟨-, ptrs', words', each'⟩
    · exact absurd null some_
    · clear some_
      induction each generalizing a ptrs' strs' with
      | nil =>
        cases each' with
        | nil => rfl
        | cons first' rest' =>
          exact absurd (wordAt_unique (wordsAt_cons.mp words').1 (wordsAt_cons.mp words).1) first'.1
      | cons first rest ih =>
        cases each' with
        | nil => exact absurd (wordAt_unique (wordsAt_cons.mp words).1 (wordsAt_cons.mp words').1) first.1
        | cons first' rest' =>
          obtain ⟨word, more⟩ := wordsAt_cons.mp words
          obtain ⟨word', more'⟩ := wordsAt_cons.mp words'
          obtain rfl := wordAt_unique word word'
          rw [stringAt_unique first.2 first'.2, ih more _ more' rest']

/-! ### `strnlen_user` -/

theorem strnlenLoop_some {k : Nat} (reads : Reads s pages buffer cap) (some_ : 0 < cap) (addr_lt : addr < 2 ^ 64)
    (short : n + max ≤ 2 ^ 20) (found : strnlenLoop s m buffer addr max n = some k) :
    n ≤ k ∧ k < n + max ∧ ∃ str, str.length = k - n ∧ StringAt (userByte pages m) (addr + n) str := by
  induction max generalizing n with
  | zero => cases found
  | succ max ih =>
    unfold strnlenLoop at found
    split at found
    · cases found
    · rename_i c copied
      obtain ⟨length, at_⟩ := copyIn_some reads some_ (Nat.succ_pos 0) (by omega) copied
      obtain ⟨b, rfl⟩ := List.length_eq_one_iff.mp length
      obtain ⟨byte, -⟩ := bytesAt_cons.mp at_
      split at found
      · rename_i zero
        obtain rfl := Option.some.inj found
        obtain rfl := List.singleton_injective zero
        exact ⟨Nat.le_refl _, by omega, [], (Nat.sub_self _).symm, stringAt_nil.mpr byte⟩
      · rename_i other
        obtain ⟨low, high, str, length, at'⟩ := ih (by omega) found
        refine ⟨by omega, by omega, b :: str, by rw [List.length_cons, length]; omega, ?_⟩
        exact stringAt_cons.mpr ⟨fun zero => other (zero ▸ rfl), byte, at'⟩

theorem strnlenUser_some {k : Nat} (reads : Reads s pages buffer cap) (some_ : 0 < cap) (addr_lt : addr < 2 ^ 64)
    (short : max ≤ 2 ^ 20) (found : strnlenUser s m buffer addr max = some k) :
    k < max ∧ ∃ str, str.length = k ∧ StringAt (userByte pages m) addr str := by
  unfold strnlenUser at found
  split at found
  · cases found
  · obtain ⟨-, less, str, length, at_⟩ := strnlenLoop_some reads some_ addr_lt (by omega) found
    exact ⟨by omega, str, length, at_⟩

/-! ### The vector -/

theorem leBytes_leNat (bs : Bytes) : leBytes bs.length (leNat bs) = bs := by
  induction bs with
  | nil => rfl
  | cons b bs ih =>
    have byte := b.toNat_lt
    have low : UInt8.ofNat (b.toNat + 256 * leNat bs) = b := by
      apply UInt8.toNat_inj.mp
      rw [UInt8.toNat_ofNat']
      omega
    have high : (b.toNat + 256 * leNat bs) / 256 = leNat bs := by omega
    rw [List.length_cons, leNat, leBytes, low, high, ih]

theorem wordAt_leNat {word : Bytes} (length : word.length = 8) (at_ : BytesAt read a word) :
    WordAt read a (leNat word) := by
  refine ⟨?_, ?_⟩
  · have below : leNat (leBytes 8 (leNat word)) < 2 ^ 64 := by
      rw [leNat_leBytes]
      exact Nat.mod_lt _ (by decide)
    rwa [← length, leBytes_leNat] at below
  · rw [← length, leBytes_leNat]
    exact at_

theorem packed_cons (str : Bytes) (strs : List Bytes) : packed (str :: strs) = str ++ [0] ++ packed strs := rfl

/-- A string stays where it is when others follow. -/
theorem StringIn.append {off : Nat} (in_ : StringIn strings off str) (more : Bytes) :
    StringIn (strings ++ more) off str := by
  refine ⟨in_.1, ?_⟩
  have short := in_.2.length_le
  rw [List.length_append, List.length_singleton, List.length_drop] at short
  rw [List.drop_append_of_le_length (by omega)]
  exact in_.2.trans (List.prefix_append _ _)

theorem stringIn_end (nonzero : 0 ∉ str) (more : Bytes) :
    StringIn (strings ++ (str ++ [0]) ++ more) strings.length str := by
  refine ⟨nonzero, ?_⟩
  rw [List.append_assoc, List.drop_left]
  exact List.prefix_append _ _

/-- **The loop** copies the strings of the vector behind those that are there. -/
theorem copyVectorLoop_ok {vector i : Nat} {offs offs' : List Nat} {strings' : Bytes}
    (reads : Reads s pages buffer execStrBytes) (vector_lt : vector < 2 ^ 64) (short : i + n ≤ 2 ^ 10)
    (room : strings.length ≤ execStrBytes)
    (done : copyVectorLoop s m buffer vector n i strings offs = .ok (strings', offs')) :
    ∃ ptrs strs more, WordsAt (userByte pages m) (vector + 8 * i) (ptrs ++ [0]) ∧
      List.Forall₂ (fun p str => p ≠ 0 ∧ StringAt (userByte pages m) p str) ptrs strs ∧ strs.length ≤ n ∧
      strings' = strings ++ packed strs ∧ strings'.length ≤ execStrBytes ∧ offs' = offs ++ more ∧
      List.Forall₂ (StringIn strings') more strs := by
  have eight : 8 ≤ execStrBytes := by decide
  induction n generalizing i strings offs with
  | zero =>
    unfold copyVectorLoop at done
    split at done
    · cases done
    · rename_i word copied
      obtain ⟨length, at_⟩ := copyIn_some reads eight (by omega) (by omega) copied
      have at' := wordAt_leNat length at_
      split at done
      · cases done
      · rename_i zero
        obtain ⟨rfl, rfl⟩ := Prod.mk.inj (Except.ok.inj done)
        rw [not_not.mp zero] at at'
        refine ⟨[], [], [], ?_, .nil, Nat.le_refl _, (List.append_nil _).symm, room, (List.append_nil _).symm, .nil⟩
        exact wordsAt_cons.mpr ⟨at', fun _ less => absurd less (Nat.not_lt_zero _)⟩
  | succ n ih =>
    unfold copyVectorLoop at done
    split at done
    · cases done
    · rename_i word copied
      obtain ⟨length, at_⟩ := copyIn_some reads eight (by omega) (by omega) copied
      have at' := wordAt_leNat length at_
      split at done
      · rename_i zero
        obtain ⟨rfl, rfl⟩ := Prod.mk.inj (Except.ok.inj done)
        rw [zero] at at'
        refine ⟨[], [], [], ?_, .nil, Nat.zero_le _, (List.append_nil _).symm, room, (List.append_nil _).symm, .nil⟩
        exact wordsAt_cons.mpr ⟨at', fun _ less => absurd less (Nat.not_lt_zero _)⟩
      · rename_i some_
        split at done
        · cases done
        · rename_i space
          split at done
          · cases done
          · rename_i k found
            have limit : execStrBytes - strings.length ≤ 2 ^ 20 := by
              unfold execStrBytes
              omega
            obtain ⟨less, str, strLength, nonzero, strAt⟩ := strnlenUser_some reads (by decide) at'.1 limit found
            split at done
            · cases done
            · rename_i bytes copied'
              have wrap := at'.1
              obtain ⟨bytesLength, bytesAt⟩ := copyIn_some reads (by omega) (Nat.succ_pos _) (by omega) copied'
              obtain rfl : bytes = str ++ [0] := bytesAt_unique bytesAt strAt (by
                rw [bytesLength, List.length_append, strLength]
                rfl)
              have room' : (strings ++ (str ++ [0])).length ≤ execStrBytes := by
                rw [List.length_append, bytesLength]
                omega
              obtain ⟨ptrs, strs, more, words, each, count, rfl, fits, rfl, ins⟩ := ih (by omega) room' done
              have off : strings.length % 2 ^ 16 = strings.length := by
                unfold execStrBytes at space
                exact Nat.mod_eq_of_lt (by omega)
              refine ⟨leNat word :: ptrs, str :: strs, strings.length :: more, ?_, .cons ⟨some_, nonzero, strAt⟩ each,
                Nat.succ_le_succ count, ?_, fits, ?_, .cons (stringIn_end nonzero _) ins⟩
              · exact wordsAt_cons.mpr ⟨at', words⟩
              · rw [packed_cons, List.append_assoc]
              · rw [off, List.append_assoc]
                rfl

/-- **The vector.** What is accepted is a vector of strings within the limits, and the
strings are in the payload at their offsets. -/
theorem sysExecCopyVector_ok {vector maximum : Nat} {offs : List Nat} {strings' : Bytes}
    (reads : Reads s pages buffer execStrBytes) (vector_lt : vector < 2 ^ 64) (short : maximum ≤ 2 ^ 10)
    (room : strings.length ≤ execStrBytes)
    (done : sysExecCopyVector s m buffer vector maximum strings = .ok (strings', offs)) :
    ∃ strs, VectorAt (userByte pages m) vector strs ∧ strs.length ≤ maximum ∧
      strings' = strings ++ packed strs ∧ strings'.length ≤ execStrBytes ∧
      List.Forall₂ (StringIn strings') offs strs := by
  unfold sysExecCopyVector at done
  split at done
  · rename_i null
    obtain ⟨rfl, rfl⟩ := Prod.mk.inj (Except.ok.inj done)
    exact ⟨[], .inl ⟨null, rfl⟩, Nat.zero_le _, (List.append_nil _).symm, room, .nil⟩
  · rename_i some_
    obtain ⟨ptrs, strs, more, words, each, count, rfl, fits, rfl, ins⟩ :=
      copyVectorLoop_ok reads vector_lt (by omega) room done
    exact ⟨strs, .inr ⟨some_, ptrs, words, each⟩, count, rfl, fits, ins⟩

end AtmKoala.Native
