import AtmKoala.Lib.Bytes
import AtmKoala.Native.Model
import AtmKoala.Paging.Copy
import AtmKoala.Vfs.Kernel

/-!
Directory listings for Linux programs (`linux_getdents64`, `native_fd_readdir`,
`vfs_fd_readdir`).

The driver of a directory is its `readdir`, which has the entries by position; an index
behind the last one is the end. A call reads entries until one does not fit. The entry
that does not fit has been read then, and no later call gets it.

* `records_walk`: a program that walks a buffer by its record lengths finds the entries.
* `call_spec`: what one call writes, and where it leaves the position.
* `getdents_complete_iff`: the listing is complete if and only if the first buffer takes
  all of it.
-/

namespace AtmKoala.Linux

open Lib Paging Native
open Sched (Slot)
open Function (update_of_ne update_self)

/-! ### The calls -/

/-- `atm_posix_dirent_t`, with the bytes of the name. -/
structure Dirent where
  ino : Nat
  dType : UInt8
  name : List UInt8
deriving DecidableEq

/-- What `vfs_fd_readdir` sees of a descriptor: whether it is a directory, its `readdir` if the
driver has one, what `vfs_require` says, and the position. -/
structure OpenInode where
  isDir : Bool
  readdir : Option (Nat → Option Dirent)
  permitted : Bool
  offset : Nat

abbrev Files : Type := Fin 64 → Option OpenInode

/-- The result of a reading. -/
inductive Got where
  | failed
  | done
  | entry (e : Dirent)
deriving DecidableEq

def vfsFdReaddir (fds : Files) (b : Fin 64) : Files × Got :=
  match fds b with
  | none => (fds, .failed)
  | some f =>
    match f.readdir with
    | none => (fds, .failed)
    | some readdir =>
      if !f.isDir || !f.permitted then (fds, .failed)
      else if 0xffffffff < f.offset then (fds, .done)
      else
        match readdir f.offset with
        | none => (fds, .done)
        | some e => (Function.update fds b (some { f with offset := f.offset + 1 }), .entry e)

def nativeFdReaddir (w : World) (fds : Files) (t : Slot) (fd : Int) : Files × Got :=
  if nativeSocketIsFd w t fd || nativePipeIsFd w t fd then (fds, .failed)
  else
    match fdValid w t fd with
    | none => (fds, .failed)
    | some (_, b) => vfsFdReaddir fds b

/-- A local variable of the kernel, which is on its stack. -/
def withLocal (m : Memory) (stack : Nat) (bytes : List UInt8) : Memory := fun p =>
  if stack ≤ p ∧ p < stack + bytes.length then bytes.getD (p - stack) 0 else m p

/-- Copies of locals to the user, one after the other; the first that fails is the last. -/
def copyLocals (s : UserSpace) (stack : Nat) : Memory → List (Nat × List UInt8) → Memory × Int
  | m, [] => (m, 0)
  | m, (uaddr, bytes) :: rest =>
    match copyToUser s (withLocal m stack bytes) uaddr stack bytes.length with
    | (m, code) => if code < 0 then (m, code) else copyLocals s stack m rest

/-- `reclen`, which is `(19 + name_len + 7) & ~7`. -/
def reclen (e : Dirent) : Nat := (19 + (e.name.length + 1) + 7) / 8 * 8

/-- `linux_dirent64_t` without the name. -/
def direntHead (e : Dirent) (ordinal : Nat) : List UInt8 :=
  leBytes 8 e.ino ++ leBytes 8 ordinal ++ leBytes 2 (reclen e) ++ [e.dType]

/-- The copies for an entry. -/
def direntLocals (e : Dirent) (ordinal user : Nat) : List (Nat × List UInt8) :=
  let nameLen := e.name.length + 1
  let padding := reclen e - 19 - nameLen
  [(user, direntHead e ordinal), (user + 19, e.name ++ [0])] ++
    if padding ≠ 0 then [(user + 19 + nameLen, List.replicate padding 0)] else []

def atmEinval : Int := 22
def atmEfault : Int := 14

/-- The loop of `linux_getdents64`. An entry takes some of the buffer, so `fuel` is more than the
loop needs. -/
def getdentsLoop (w : World) (t : Slot) (fd : Int) (s : UserSpace) (stack user size : Nat) :
    Nat → Files → Memory → Nat → Nat → Option (Files × Memory × Int)
  | 0, _, _, _, _ => none
  | fuel + 1, fds, m, written, ordinal =>
    match nativeFdReaddir w fds t fd with
    | (fds, .failed) => some (fds, m, if written ≠ 0 then written else -atmEinval)
    | (fds, .done) => some (fds, m, written)
    | (fds, .entry e) =>
      if size - written < reclen e then
        some (fds, m, if written ≠ 0 then written else -atmEinval)
      else
        match copyLocals s stack m (direntLocals e (ordinal + 1) (user + written)) with
        | (m, code) =>
          if code < 0 then some (fds, m, -atmEfault)
          else getdentsLoop w t fd s stack user size fuel fds m (written + reclen e) (ordinal + 1)

/-- `linux_getdents64` of a task with an address space. -/
def linuxGetdents64 (w : World) (t : Slot) (fd : Int) (s : UserSpace) (stack user size : Nat)
    (fds : Files) (m : Memory) : Option (Files × Memory × Int) :=
  if !s.valid || user = 0 || size < 280 || pagingUserRange s user size true < 0 then
    some (fds, m, -atmEinval)
  else getdentsLoop w t fd s stack user size (size + 1) fds m 0 0

/-! ### What a program reads -/

/-- An entry as the program finds it. -/
structure Listed where
  ino : Nat
  dType : UInt8
  name : List UInt8
deriving DecidableEq

/-- An inode number has 64 bits. -/
def listed (e : Dirent) : Listed := ⟨e.ino % 2 ^ 64, e.dType, e.name⟩

/-- A walk over a buffer of records. A record takes a multiple of 8 bytes, all of them in the
buffer, and its name ends in it; `fuel` is more than the number of records. -/
def walkFrom : Nat → List UInt8 → Option (List Listed)
  | 0, _ => none
  | fuel + 1, buffer =>
    if buffer = [] then some []
    else
      let length := leNat ((buffer.drop 16).take 2)
      let name := ((buffer.take length).drop 19).takeWhile (· ≠ 0)
      if length % 8 ≠ 0 || buffer.length < length || length ≤ 19 + name.length then none
      else
        (walkFrom fuel (buffer.drop length)).map
          (⟨leNat (buffer.take 8), buffer.getD 18 0, name⟩ :: ·)

def walk (buffer : List UInt8) : Option (List Listed) := walkFrom (buffer.length + 1) buffer

/-! ### Records -/

/-- What is written for an entry. -/
def record (e : Dirent) (ordinal : Nat) : List UInt8 :=
  direntHead e ordinal ++ (e.name ++ [0]) ++
    List.replicate (reclen e - 19 - (e.name.length + 1)) 0

/-- What is written for entries that follow each other. -/
def records : Nat → List Dirent → List UInt8
  | _, [] => []
  | ordinal, e :: es => record e (ordinal + 1) ++ records (ordinal + 1) es

/-- A name that fits `char name[VFS_NAME_MAX + 1]`. -/
def Named (e : Dirent) : Prop := e.name.length ≤ 255 ∧ 0 ∉ e.name

def total (es : List Dirent) : Nat := (es.map reclen).sum

theorem reclen_bounds (e : Dirent) : 20 + e.name.length ≤ reclen e ∧ reclen e % 8 = 0 := by
  unfold reclen
  omega

theorem reclen_le {e : Dirent} (named : Named e) : reclen e ≤ 280 := by
  have short := named.1
  unfold reclen
  omega

@[simp] theorem length_direntHead (e : Dirent) (ordinal : Nat) :
    (direntHead e ordinal).length = 19 := by
  simp [direntHead]

@[simp] theorem length_record (e : Dirent) (ordinal : Nat) :
    (record e ordinal).length = reclen e := by
  have room := (reclen_bounds e).1
  simp only [record, List.length_append, length_direntHead, List.length_singleton,
    List.length_replicate]
  omega

theorem length_records (ordinal : Nat) (es : List Dirent) :
    (records ordinal es).length = total es := by
  induction es generalizing ordinal with
  | nil => rfl
  | cons e es ih =>
    rw [records, List.length_append, length_record, ih]
    rfl

/-- The fields of a record. -/
theorem record_fields {e : Dirent} (named : Named e) (ordinal : Nat) :
    leNat ((record e ordinal).take 8) = e.ino % 2 ^ 64 ∧
      leNat (((record e ordinal).drop 16).take 2) = reclen e ∧
      (record e ordinal).getD 18 0 = e.dType ∧
      ((record e ordinal).drop 19).takeWhile (· ≠ 0) = e.name := by
  have short := reclen_le named
  refine ⟨?_, ?_, ?_, ?_⟩
  · have front : (record e ordinal).take 8 = leBytes 8 e.ino := by
      simp only [record, direntHead, List.append_assoc]
      exact List.take_left' (length_leBytes 8 _)
    rw [front, leNat_leBytes, show 256 ^ 8 = 2 ^ 64 by decide]
  · have middle : ((record e ordinal).drop 16).take 2 = leBytes 2 (reclen e) := by
      have split : record e ordinal = (leBytes 8 e.ino ++ leBytes 8 ordinal) ++
          (leBytes 2 (reclen e) ++ ([e.dType] ++ (e.name ++ [0]) ++
            List.replicate (reclen e - 19 - (e.name.length + 1)) 0)) := by
        simp only [record, direntHead, List.append_assoc]
      rw [split, List.drop_left' (by simp), List.take_left' (length_leBytes 2 _)]
    rw [middle, leNat_leBytes, Nat.mod_eq_of_lt (by omega)]
  · have split : record e ordinal = (leBytes 8 e.ino ++ leBytes 8 ordinal ++ leBytes 2 (reclen e)) ++
        e.dType :: (e.name ++ [0] ++ List.replicate (reclen e - 19 - (e.name.length + 1)) 0) := by
      simp only [record, direntHead, List.append_assoc, List.cons_append, List.nil_append]
    have front : (leBytes 8 e.ino ++ leBytes 8 ordinal ++ leBytes 2 (reclen e)).length = 18 := by simp
    rw [split, List.getD_eq_getElem?_getD, List.getElem?_append_right (Nat.le_of_eq front), front]
    rfl
  · have behind : (record e ordinal).drop 19 =
        e.name ++ 0 :: List.replicate (reclen e - 19 - (e.name.length + 1)) 0 := by
      rw [record, List.append_assoc, List.drop_left' (length_direntHead _ _), List.append_assoc]
      rfl
    rw [behind, List.takeWhile_append_of_pos, List.takeWhile_cons_of_neg (by simp),
      List.append_nil]
    intro b mem
    rw [decide_eq_true_iff]
    rintro rfl
    exact named.2 mem

/-- A walk gets past a record. -/
theorem walkFrom_record {e : Dirent} (named : Named e) (ordinal fuel : Nat) (rest : List UInt8) :
    walkFrom (fuel + 1) (record e ordinal ++ rest) = (walkFrom fuel rest).map (listed e :: ·) := by
  obtain ⟨ino, length, dType, name⟩ := record_fields named ordinal
  obtain ⟨room, even⟩ := reclen_bounds e
  have whole := length_record e ordinal
  have filled : record e ordinal ++ rest ≠ [] := by
    intro nothing
    have none_ := congrArg List.length nothing
    rw [List.length_append, whole, List.length_nil] at none_
    omega
  have length' : leNat (((record e ordinal ++ rest).drop 16).take 2) = reclen e := by
    rw [List.drop_append_of_le_length (by omega), List.take_append_of_le_length, length]
    rw [List.length_drop]
    omega
  have front : (record e ordinal ++ rest).take (reclen e) = record e ordinal :=
    List.take_left' whole
  have ino' : (record e ordinal ++ rest).take 8 = (record e ordinal).take 8 :=
    List.take_append_of_le_length (by omega)
  have dType' : (record e ordinal ++ rest).getD 18 0 = (record e ordinal).getD 18 0 := by
    rw [List.getD_eq_getElem?_getD, List.getD_eq_getElem?_getD, List.getElem?_append_left (by omega)]
  have fine : ¬((decide (reclen e % 8 ≠ 0) || decide ((record e ordinal ++ rest).length < reclen e) ||
      decide (reclen e ≤ 19 + e.name.length)) = true) := by
    simp only [Bool.or_eq_true, decide_eq_true_iff, List.length_append, whole]
    omega
  rw [walkFrom, if_neg filled]
  dsimp only
  rw [length', front, name, ino', ino, dType', dType, if_neg fine, List.drop_left' whole]
  rfl

theorem walkFrom_records {es : List Dirent} (named : ∀ e ∈ es, Named e) (ordinal : Nat)
    {fuel : Nat} (enough : es.length < fuel) :
    walkFrom fuel (records ordinal es) = some (es.map listed) := by
  induction es generalizing ordinal fuel with
  | nil =>
    obtain ⟨fuel, rfl⟩ := Nat.exists_eq_succ_of_ne_zero (Nat.ne_of_gt enough)
    rfl
  | cons e es ih =>
    obtain ⟨fuel, rfl⟩ := Nat.exists_eq_succ_of_ne_zero (Nat.ne_of_gt (Nat.zero_lt_of_lt enough))
    rw [records, walkFrom_record (named e List.mem_cons_self),
      ih (fun e mem => named e (List.mem_cons_of_mem _ mem)) _ (Nat.lt_of_succ_lt_succ enough)]
    rfl

theorem length_le_total (es : List Dirent) : es.length ≤ total es := by
  induction es with
  | nil => exact Nat.le_refl _
  | cons e es ih =>
    have room := (reclen_bounds e).1
    have split : total (e :: es) = reclen e + total es := List.sum_cons
    rw [List.length_cons, split]
    omega

/-- **A walk finds the entries.** -/
theorem records_walk {es : List Dirent} (named : ∀ e ∈ es, Named e) (ordinal : Nat) :
    walk (records ordinal es) = some (es.map listed) := by
  refine walkFrom_records named ordinal ?_
  have few := length_le_total es
  rw [length_records]
  omega

/-! ### The user's buffer -/

/-- What a call is given: a space with its pages, the memory, and a buffer that the program may
write to and that has room for the longest record. The locals are in no page of the space. -/
structure Buffer where
  space : UserSpace
  pages : PageMap
  memory : Memory
  stack : Nat
  user : Nat
  size : Nat
  shows_ : Shows space pages
  unrelated : Unrelated pages
  covered : Covered pages true user size
  room : 280 ≤ size
  locals_ : KernelBuffer pages stack 280

/-- The bytes at a user address. -/
def Holds (pages : PageMap) (m : Memory) (a : Nat) (bytes : List UInt8) : Prop :=
  ∀ i < bytes.length, userByte pages m (a + i) = bytes[i]?

/-- What a program reads of the first `n` bytes. -/
def userText (pages : PageMap) (m : Memory) (a n : Nat) : List UInt8 :=
  (List.range n).map fun i => (userByte pages m (a + i)).getD 0

variable {pages : PageMap} {m : Memory} {a : Nat} {bytes bytes' : List UInt8} {B : Buffer}

theorem Holds.userText (holds : Holds pages m a bytes) :
    userText pages m a bytes.length = bytes := by
  refine List.ext_getElem? fun i => ?_
  rw [Linux.userText, List.getElem?_map]
  by_cases inside : i < bytes.length
  · rw [List.getElem?_range inside, Option.map_some, holds i inside,
      List.getElem?_eq_getElem inside]
    rfl
  · rw [List.getElem?_eq_none (by simpa using Nat.le_of_not_lt inside),
      List.getElem?_eq_none (Nat.le_of_not_lt inside)]
    rfl

theorem Holds.append (front : Holds pages m a bytes)
    (back : Holds pages m (a + bytes.length) bytes') : Holds pages m a (bytes ++ bytes') := by
  intro i less
  rw [List.length_append] at less
  by_cases early : i < bytes.length
  · rw [List.getElem?_append_left early, front i early]
  · have late := back (i - bytes.length) (by omega)
    rw [List.getElem?_append_right (by omega), ← late]
    congr 1
    omega

/-- **A local is copied**: the user has its bytes then, and the other bytes it had. -/
theorem copyLocals_cons (B : Buffer) (m : Memory) (a : Nat) (bytes : List UInt8)
    (rest : List (Nat × List UInt8)) (lower : B.user ≤ a)
    (upper : a + bytes.length ≤ B.user + B.size) (short : bytes.length ≤ 280) :
    ∃ m', copyLocals B.space B.stack m ((a, bytes) :: rest) =
        copyLocals B.space B.stack m' rest ∧
      Holds B.pages m' a bytes ∧ ∀ x, x < a ∨ a + bytes.length ≤ x →
        userByte B.pages m' x = userByte B.pages m x := by
  have buffer : KernelBuffer B.pages B.stack bytes.length := by
    refine ⟨B.locals_.notNull, fun i x there => ?_⟩
    have := B.locals_.apart i x there
    omega
  have covered : Covered B.pages true a bytes.length :=
    fun p above below => B.covered p (by omega) (by omega)
  obtain ⟨done, moved, kept⟩ :=
    copyToUser_covered (withLocal m B.stack bytes) B.shows_ B.unrelated buffer covered
  have aside : ∀ x, userByte B.pages (withLocal m B.stack bytes) x = userByte B.pages m x := by
    intro x
    unfold userByte
    cases there : B.pages (pageBase x) with
    | none => rfl
    | some page =>
      have apart := B.locals_.apart _ _ there
      have := offset_lt x
      rw [Option.map_some, Option.map_some, withLocal, if_neg (by omega)]
  refine ⟨_, ?_, fun i less => ?_, fun x outside => (kept x outside).trans (aside x)⟩
  · rw [copyLocals]
    dsimp only
    rw [done, if_neg (by decide)]
  · rw [moved i less, withLocal, if_pos ⟨Nat.le_add_right _ _, by omega⟩, Nat.add_sub_cancel_left,
      List.getD_eq_getElem?_getD, List.getElem?_eq_getElem less]
    rfl

/-- **The copies for an entry** write its record. -/
theorem copyLocals_dirent (B : Buffer) (m : Memory) {e : Dirent} (named : Named e)
    (ordinal : Nat) {a : Nat} (lower : B.user ≤ a) (upper : a + reclen e ≤ B.user + B.size) :
    ∃ m', copyLocals B.space B.stack m (direntLocals e ordinal a) = (m', 0) ∧
      Holds B.pages m' a (record e ordinal) ∧
      ∀ x, x < a → userByte B.pages m' x = userByte B.pages m x := by
  have room := (reclen_bounds e).1
  have most := reclen_le named
  have nameLength : (e.name ++ [0]).length = e.name.length + 1 := by simp
  have headLength := length_direntHead e ordinal
  obtain ⟨m₁, first, head, kept₁⟩ := copyLocals_cons B m a (direntHead e ordinal)
    ((a + 19, e.name ++ [0]) :: if reclen e - 19 - (e.name.length + 1) ≠ 0 then
      [(a + 19 + (e.name.length + 1), List.replicate (reclen e - 19 - (e.name.length + 1)) 0)] else [])
    lower (by omega) (by omega)
  obtain ⟨m₂, second, name, kept₂⟩ := copyLocals_cons B m₁ (a + 19) (e.name ++ [0])
    (if reclen e - 19 - (e.name.length + 1) ≠ 0 then
      [(a + 19 + (e.name.length + 1), List.replicate (reclen e - 19 - (e.name.length + 1)) 0)] else [])
    (by omega) (by omega) (by omega)
  have both : Holds B.pages m₂ a (direntHead e ordinal ++ (e.name ++ [0])) := by
    refine Holds.append (fun i less => ?_) (by rw [headLength]; exact name)
    rw [kept₂ _ (by omega), head i less]
  have split : copyLocals B.space B.stack m (direntLocals e ordinal a) =
      copyLocals B.space B.stack m₂ (if reclen e - 19 - (e.name.length + 1) ≠ 0 then
        [(a + 19 + (e.name.length + 1), List.replicate (reclen e - 19 - (e.name.length + 1)) 0)]
        else []) := first.trans second
  rw [split]
  by_cases padding : reclen e - 19 - (e.name.length + 1) ≠ 0
  · rw [if_pos padding]
    have zeros : (List.replicate (reclen e - 19 - (e.name.length + 1)) (0 : UInt8)).length =
        reclen e - 19 - (e.name.length + 1) := List.length_replicate
    obtain ⟨m₃, third, behind, kept₃⟩ := copyLocals_cons B m₂ (a + 19 + (e.name.length + 1))
      (List.replicate (reclen e - 19 - (e.name.length + 1)) 0) [] (by omega) (by omega) (by omega)
    refine ⟨m₃, third, ?_, fun x before => ?_⟩
    · refine Holds.append (fun i less => ?_) ?_
      · rw [List.length_append] at less
        rw [kept₃ _ (by omega), both i (by rw [List.length_append]; exact less)]
      · rw [List.length_append, headLength, nameLength, ← Nat.add_assoc]
        exact behind
    · rw [kept₃ x (by omega), kept₂ x (by omega), kept₁ x (by omega)]
  · rw [if_neg padding]
    refine ⟨m₂, rfl, ?_, fun x before => ?_⟩
    · rw [record, not_not.mp padding, List.replicate_zero, List.append_nil]
      exact both
    · rw [kept₂ x (by omega), kept₁ x (by omega)]

/-! ### A call -/

/-- The entries whose records fit in `room` bytes. -/
def fitting : Nat → List Dirent → List Dirent
  | _, [] => []
  | room, e :: es => if room < reclen e then [] else e :: fitting (room - reclen e) es

/-- `fd` is a descriptor of a directory with these entries that the task may list. -/
structure Lists (w : World) (t : Slot) (fd : Int) (entries : List Dirent) (fds : Files)
    (position : Nat) : Prop where
  notSocket : nativeSocketIsFd w t fd = false
  notPipe : nativePipeIsFd w t fd = false
  found : ∃ k b, fdValid w t fd = some (k, b) ∧
    fds b = some ⟨true, some fun i => entries[i]?, true, position⟩

/-- The entries from a position on; `vfs_fd_readdir` gets no further than `0xffffffff`. -/
def ahead (entries : List Dirent) (position : Nat) : List Dirent :=
  (entries.take (2 ^ 32)).drop position

variable {w : World} {t : Slot} {fd : Int} {entries es : List Dirent} {fds : Files} {position : Nat}

/-- **A reading at the end.** -/
theorem nativeFdReaddir_done (lists : Lists w t fd entries fds position)
    (ends : ahead entries position = []) : nativeFdReaddir w fds t fd = (fds, .done) := by
  obtain ⟨k, b, valid, there⟩ := lists.found
  rw [nativeFdReaddir, lists.notSocket, lists.notPipe, valid]
  show vfsFdReaddir fds b = _
  rw [vfsFdReaddir, there]
  dsimp only
  rw [if_neg (by decide)]
  have behind := List.drop_eq_nil_iff.mp ends
  rw [List.length_take] at behind
  split
  · rfl
  · rw [List.getElem?_eq_none (by omega)]

/-- **A reading** takes the next entry, and moves the position. -/
theorem nativeFdReaddir_entry {e : Dirent} (lists : Lists w t fd entries fds position)
    (next : ahead entries position = e :: es) :
    ∃ fds', nativeFdReaddir w fds t fd = (fds', .entry e) ∧
      Lists w t fd entries fds' (position + 1) ∧ ahead entries (position + 1) = es := by
  obtain ⟨k, b, valid, there⟩ := lists.found
  have here : (entries.take (2 ^ 32))[position]? = some e := by
    rw [← Nat.add_zero position, ← List.getElem?_drop]
    exact congrArg (·[0]?) next
  have inside := (List.getElem?_eq_some_iff.mp here).1
  rw [List.length_take] at inside
  rw [List.getElem?_take_of_lt (by omega)] at here
  refine ⟨Function.update fds b (some ⟨true, some fun i => entries[i]?, true, position + 1⟩),
    ?_, ⟨lists.notSocket, lists.notPipe, k, b, valid, update_self ..⟩, ?_⟩
  · rw [nativeFdReaddir, lists.notSocket, lists.notPipe, valid]
    show vfsFdReaddir fds b = _
    rw [vfsFdReaddir, there]
    dsimp only
    rw [if_neg (by decide), if_neg (by omega), here]
  · rw [ahead, ← List.drop_drop]
    exact congrArg (List.drop 1) next

/-- **The loop** writes the entries that fit, and reads one more if there is one. -/
theorem getdentsLoop_spec (B : Buffer) (named : ∀ e ∈ es, Named e) {fuel written : Nat}
    (m : Memory) (ordinal : Nat) {bytes : List UInt8}
    (lists : Lists w t fd entries fds position) (rest : ahead entries position = es)
    (inside : written ≤ B.size) (enough : B.size - written < fuel)
    (before : Holds B.pages m B.user bytes) (filled : bytes.length = written) :
    ∃ fds' m', getdentsLoop w t fd B.space B.stack B.user B.size fuel fds m written ordinal =
        some (fds', m', ((written + total (fitting (B.size - written) es) : Nat) : Int)) ∧
      Holds B.pages m' B.user (bytes ++ records ordinal (fitting (B.size - written) es)) ∧
      Lists w t fd entries fds' (position + (fitting (B.size - written) es).length +
        if (fitting (B.size - written) es).length < es.length then 1 else 0) := by
  induction es generalizing fuel written m ordinal bytes fds position with
  | nil =>
    obtain ⟨fuel, rfl⟩ := Nat.exists_eq_succ_of_ne_zero (Nat.ne_of_gt (Nat.zero_lt_of_lt enough))
    rw [getdentsLoop, nativeFdReaddir_done lists rest]
    refine ⟨fds, m, rfl, ?_, lists⟩
    rw [fitting, records, List.append_nil]
    exact before
  | cons e es ih =>
    obtain ⟨fuel, rfl⟩ := Nat.exists_eq_succ_of_ne_zero (Nat.ne_of_gt (Nat.zero_lt_of_lt enough))
    obtain ⟨fds', read, lists', rest'⟩ := nativeFdReaddir_entry lists rest
    have short := reclen_le (named e List.mem_cons_self)
    have some_ := (reclen_bounds e).1
    have room := B.room
    rw [getdentsLoop, read]
    dsimp only
    by_cases full : B.size - written < reclen e
    · -- the entry has been read, and is not written
      rw [if_pos full, if_pos (by omega), fitting, if_pos full]
      refine ⟨fds', m, rfl, ?_, ?_⟩
      · rw [records, List.append_nil]
        exact before
      · rw [List.length_nil, if_pos (by simp)]
        exact lists'
    · obtain ⟨m', copied, written', kept⟩ := copyLocals_dirent B m (named e List.mem_cons_self)
        (ordinal + 1) (a := B.user + written) (by omega) (by omega)
      have before' : Holds B.pages m' B.user (bytes ++ record e (ordinal + 1)) := by
        refine Holds.append (fun i less => ?_) (by rw [filled]; exact written')
        rw [kept _ (by omega), before i less]
      obtain ⟨fds'', m'', ended, holds, lists''⟩ := ih
        (fun e mem => named e (List.mem_cons_of_mem _ mem)) m' (ordinal + 1) lists' rest'
        (show written + reclen e ≤ B.size by omega) (show _ < fuel by omega) before'
        (by rw [List.length_append, length_record, filled])
      have left : B.size - (written + reclen e) = B.size - written - reclen e := by omega
      rw [left] at ended holds lists''
      rw [if_neg full, copied]
      dsimp only
      rw [if_neg (by decide), ended, fitting, if_neg full]
      refine ⟨fds'', m'', ?_, ?_, ?_⟩
      · have sum : total (e :: fitting (B.size - written - reclen e) es) =
            reclen e + total (fitting (B.size - written - reclen e) es) := List.sum_cons
        rw [sum, Nat.add_assoc]
      · rw [records, ← List.append_assoc]
        exact holds
      · simp only [List.length_cons, Nat.add_lt_add_iff_right]
        rw [← Nat.add_assoc, Nat.add_right_comm position]
        exact lists''

theorem fitting_front (room : Nat) (es : List Dirent) : fitting room es <+: es := by
  induction es generalizing room with
  | nil => exact List.nil_prefix
  | cons e es ih =>
    rw [fitting]
    split
    · exact List.nil_prefix
    · exact List.cons_prefix_cons.mpr ⟨rfl, ih _⟩

theorem total_fitting_le (room : Nat) (es : List Dirent) : total (fitting room es) ≤ room := by
  induction es generalizing room with
  | nil => exact Nat.zero_le _
  | cons e es ih =>
    rw [fitting]
    split
    · exact Nat.zero_le _
    · have rest := ih (room - reclen e)
      have sum : total (e :: fitting (room - reclen e) es) =
          reclen e + total (fitting (room - reclen e) es) := List.sum_cons
      omega

theorem fitting_all {room : Nat} (fits : total es ≤ room) : fitting room es = es := by
  induction es generalizing room with
  | nil => rfl
  | cons e es ih =>
    have sum : total (e :: es) = reclen e + total es := List.sum_cons
    rw [fitting, if_neg (by omega), ih (by omega)]

theorem fitting_nil (room : Nat) (named : ∀ e ∈ es, Named e) (enough : 280 ≤ room) :
    fitting room es = [] ↔ es = [] := by
  cases es with
  | nil => exact Iff.rfl
  | cons e es =>
    have short := reclen_le (named e List.mem_cons_self)
    rw [fitting, if_neg (by omega)]
    exact iff_of_false (List.cons_ne_nil _ _) (List.cons_ne_nil _ _)

theorem mem_ahead (position : Nat) (named : ∀ e ∈ entries, Named e) :
    ∀ e ∈ ahead entries position, Named e :=
  fun e mem => named e (List.mem_of_mem_take (List.mem_of_mem_drop mem))

/-- The call with a buffer. -/
def getdents (w : World) (t : Slot) (fd : Int) (fds : Files) (B : Buffer) :
    Option (Files × Memory × Int) :=
  linuxGetdents64 w t fd B.space B.stack B.user B.size fds B.memory

/-- What a call lists. -/
def batch (entries : List Dirent) (position : Nat) (B : Buffer) : List Dirent :=
  fitting B.size (ahead entries position)

/-- Where a call leaves the position: behind what it lists, and behind the entry that did not
fit. -/
def leaves (entries : List Dirent) (position : Nat) (B : Buffer) : Nat :=
  position + (batch entries position B).length +
    if (batch entries position B).length < (ahead entries position).length then 1 else 0

/-- **One call.** -/
theorem call_spec (B : Buffer) (named : ∀ e ∈ entries, Named e)
    (lists : Lists w t fd entries fds position) :
    ∃ fds' m', getdents w t fd fds B =
        some (fds', m', ((total (batch entries position B) : Nat) : Int)) ∧
      userText B.pages m' B.user (total (batch entries position B)) =
        records 0 (batch entries position B) ∧
      Lists w t fd entries fds' (leaves entries position B) := by
  have room := B.room
  have window := window_iff.mp (B.covered B.user (Nat.le_refl _) (by omega)).1
  have range : pagingUserRange B.space B.user B.size true = 0 := by
    have filled : B.size ≠ 0 := by omega
    rcases pagingUserRange_eq true B.user B.shows_ filled with
      ⟨found, -⟩ | ⟨-, uncovered⟩
    · exact found
    · exact absurd B.covered uncovered
  have fine : ¬((!B.space.valid || decide (B.user = 0) || decide (B.size < 280) ||
      decide (pagingUserRange B.space B.user B.size true < 0)) = true) := by
    rw [B.shows_.valid, range]
    simp only [Bool.or_eq_true, decide_eq_true_iff]
    simp
    omega
  have nothing : Holds B.pages B.memory B.user [] := fun i less => absurd less (by simp)
  obtain ⟨fds', m', ended, holds, lists'⟩ := getdentsLoop_spec B (mem_ahead position named) B.memory 0 lists
    rfl (Nat.zero_le _) (Nat.lt_succ_self _) nothing rfl
  rw [Nat.zero_add] at ended
  refine ⟨fds', m', ?_, ?_, lists'⟩
  · rw [getdents, linuxGetdents64, if_neg fine]
    exact ended
  · have text := holds.userText
    rw [List.nil_append, length_records] at text
    exact text

/-! ### A listing -/

/-- Calls until one returns zero, with what each has written. -/
def listing (w : World) (t : Slot) (fd : Int) : Files → List Buffer → Option (List (List UInt8))
  | _, [] => none
  | fds, B :: Bs =>
    match getdents w t fd fds B with
    | none => none
    | some (fds, m, r) =>
      if r = 0 then some []
      else if r < 0 then none
      else (listing w t fd fds Bs).map (userText B.pages m B.user r.toNat :: ·)

theorem listing_cons (B : Buffer) (named : ∀ e ∈ entries, Named e)
    (lists : Lists w t fd entries fds position) :
    ∃ fds', Lists w t fd entries fds' (leaves entries position B) ∧
      ∀ Bs, listing w t fd fds (B :: Bs) = if ahead entries position = [] then some []
        else (listing w t fd fds' Bs).map (records 0 (batch entries position B) :: ·) := by
  obtain ⟨fds', m', done, text, lists'⟩ := call_spec B named lists
  refine ⟨fds', lists', fun Bs => ?_⟩
  have nothing := fitting_nil B.size (mem_ahead position named) B.room
  rw [listing, done]
  dsimp only
  by_cases ends : ahead entries position = []
  · have empty : batch entries position B = [] := nothing.mpr ends
    rw [empty, if_pos ends]
    rfl
  · have some_ : 0 < total (batch entries position B) := by
      have few := length_le_total (batch entries position B)
      have filled := List.length_pos_iff.mpr fun empty => ends (nothing.mp empty)
      exact Nat.lt_of_lt_of_le filled few
    rw [if_neg ends, if_neg (by omega), if_neg (by omega), Int.toNat_natCast, text]

theorem range_succ_map (n : Nat) (buffers : Nat → Buffer) :
    (List.range (n + 1)).map buffers =
      buffers 0 :: (List.range n).map fun i => buffers (i + 1) := by
  rw [List.range_succ_eq_map, List.map_cons, List.map_map]
  rfl

/-- What is well formed in a listing: the records fit, and a program can walk them. -/
structure WellFormed (buffers : Nat → Buffer) (outputs : List (List UInt8))
    (found : List (List Listed)) : Prop where
  fits : ∀ i x, outputs[i]? = some x → x.length ≤ (buffers i).size
  walked : outputs.mapM walk = some found

theorem WellFormed.cons {buffers : Nat → Buffer} {outputs : List (List UInt8)}
    {found : List (List Listed)} (position : Nat) (named : ∀ e ∈ entries, Named e)
    (rest : WellFormed (fun i => buffers (i + 1)) outputs found) :
    WellFormed buffers (records 0 (batch entries position (buffers 0)) :: outputs)
      ((batch entries position (buffers 0)).map listed :: found) := by
  constructor
  · intro i x there
    cases i with
    | zero =>
      cases there
      rw [length_records]
      exact total_fitting_le _ _
    | succ i => exact rest.fits i x there
  · have here : ∀ e ∈ batch entries position (buffers 0), Named e :=
      fun e mem => mem_ahead position named e ((fitting_front _ _).subset mem)
    rw [List.mapM_cons, records_walk here, rest.walked]
    rfl

/-- What is listed, and what is ahead behind it, is no more than was ahead. -/
theorem ahead_leaves (entries : List Dirent) (position : Nat) (B : Buffer) :
    (batch entries position B).length + (ahead entries (leaves entries position B)).length +
        (if (batch entries position B).length < (ahead entries position).length then 1 else 0) =
      (ahead entries position).length := by
  have part := (fitting_front B.size (ahead entries position)).length_le
  have behind : (ahead entries (leaves entries position B)).length =
      (ahead entries position).length - (leaves entries position B - position) := by
    rw [ahead, ahead, List.length_drop, List.length_drop]
    unfold leaves
    omega
  rw [behind]
  unfold leaves batch
  split
  · omega
  · omega

/-- **Every listing ends**, and lists no more than there is. -/
theorem listing_ends (named : ∀ e ∈ entries, Named e) (buffers : Nat → Buffer)
    (lists : Lists w t fd entries fds position) :
    ∃ n outputs found, listing w t fd fds ((List.range n).map buffers) = some outputs ∧
      WellFormed buffers outputs found ∧
      found.flatten.length ≤ (ahead entries position).length := by
  induction left : (ahead entries position).length using Nat.strong_induction_on
    generalizing position fds buffers with
  | _ left_ ih =>
    obtain ⟨fds', lists', next⟩ := listing_cons (buffers 0) named lists
    by_cases ends : ahead entries position = []
    · refine ⟨1, [], [], ?_, ⟨fun i x there => ?_, rfl⟩, Nat.zero_le _⟩
      · rw [range_succ_map, next, if_pos ends]
      · cases there
    · have nothing := fitting_nil (buffers 0).size (mem_ahead position named)
        (buffers 0).room
      have filled : 0 < (batch entries position (buffers 0)).length :=
        List.length_pos_iff.mpr fun empty => ends (nothing.mp empty)
      have count := ahead_leaves entries position (buffers 0)
      obtain ⟨n, outputs, found, rest, formed, few⟩ := ih _ (by omega)
        (fun i => buffers (i + 1)) lists' rfl
      refine ⟨n + 1, _, _, ?_, formed.cons position named, ?_⟩
      · rw [range_succ_map, next, if_neg ends, rest]
        rfl
      · rw [List.flatten_cons, List.length_append, List.length_map]
        omega

/-- **A listing is complete if and only if the first buffer takes all of it.** Whatever buffers a
program passes, its calls end with a zero and write records that fit and can be walked; they list
every entry once and in order just when the records of all entries fit in the first buffer. -/
theorem getdents_complete_iff (named : ∀ e ∈ entries, Named e) (buffers : Nat → Buffer)
    (lists : Lists w t fd entries fds 0) :
    ∃ n outputs found, listing w t fd fds ((List.range n).map buffers) = some outputs ∧
      WellFormed buffers outputs found ∧
      (found.flatten = entries.map listed ↔ total entries ≤ (buffers 0).size) := by
  obtain ⟨fds', lists', next⟩ := listing_cons (buffers 0) named lists
  obtain ⟨n, outputs, found, rest, formed, few⟩ :=
    listing_ends named (fun i => buffers (i + 1)) lists'
  have count := ahead_leaves entries 0 (buffers 0)
  have all : (ahead entries 0).length ≤ entries.length := by
    rw [ahead, List.drop_zero, List.length_take]
    omega
  by_cases ends : ahead entries 0 = []
  · have empty : entries = [] := by
      rw [ahead, List.drop_zero, List.take_eq_nil_iff] at ends
      exact ends.resolve_left (by decide)
    refine ⟨1, [], [], ?_, ⟨fun i x there => ?_, rfl⟩, ?_⟩
    · rw [range_succ_map, next, if_pos ends]
    · cases there
    · rw [empty]
      exact iff_of_true rfl (Nat.zero_le _)
  · refine ⟨n + 1, _, _, ?_, formed.cons 0 named, ?_⟩
    · rw [range_succ_map, next, if_neg ends, rest]
      rfl
    · rw [List.flatten_cons]
      constructor
      · intro complete
        have size := congrArg List.length complete
        rw [List.length_append, List.length_map, List.length_map] at size
        have whole : batch entries 0 (buffers 0) = entries := by
          have sub := (fitting_front (buffers 0).size (ahead entries 0)).trans
            (show ahead entries 0 <+: entries from List.take_prefix _ _)
          refine sub.eq_of_length ?_
          show (batch entries 0 (buffers 0)).length = _
          have part : (batch entries 0 (buffers 0)).length ≤ (ahead entries 0).length :=
            (fitting_front _ _).length_le
          split at count
          · omega
          · omega
        have fits := total_fitting_le (buffers 0).size (ahead entries 0)
        rw [← whole]
        exact fits
      · intro fits
        have room := (buffers 0).room
        have first := window_iff.mp ((buffers 0).covered (buffers 0).user (Nat.le_refl _)
          (by omega)).1
        have last := window_iff.mp ((buffers 0).covered ((buffers 0).user + (buffers 0).size - 1)
          (by omega) (by omega)).1
        have few' := length_le_total entries
        have whole : ahead entries 0 = entries := by
          rw [ahead, List.drop_zero, List.take_of_length_le (by omega)]
        have batch_ : batch entries 0 (buffers 0) = entries := by
          rw [batch, whole, fitting_all fits]
        rw [batch_, whole] at count
        have nothing : found.flatten = [] := List.length_eq_zero_iff.mp (by omega)
        rw [batch_, nothing, List.append_nil]

/-- A buffer of 280 bytes across the border of two pages. -/
def smallBuffer : Buffer where
  space := bordered.1
  pages := bordered.2
  memory := fun _ => 0
  stack := 0x1000
  user := 0x401fffc0
  size := 280
  shows_ := shows_run bordered_run
  unrelated := unrelated_run bordered_run
  covered := bordered_covered (by decide) (by decide)
  room := by decide
  locals_ := bordered_buffer (by decide)

/-- A task with one descriptor, of the VFS. -/
def lister : World :=
  booted.mapTable 0 fun table =>
    { table with ready := true, fdMap := fun k => if k = 3 then some 7 else none }

/-- Its directory is open, at the start. -/
def openDir (entries : List Dirent) : Files :=
  Function.update (fun _ => none) 7 (some ⟨true, some fun i => entries[i]?, true, 0⟩)

theorem lists_openDir (entries : List Dirent) : Lists lister 0 3 entries (openDir entries) 0 :=
  ⟨by decide, by decide, 3, 7, by decide, update_self ..⟩

/-- `n` regular files with names of one letter. -/
def letters (n : Nat) : List Dirent := (List.range n).map fun i => ⟨i, 8, [.ofNat (97 + i)]⟩

theorem getdents_complete_iff_eleven :
    ∃ n outputs, ∃ found : List (List Listed), listing lister 0 3 (openDir (letters 11))
        ((List.range n).map fun _ => smallBuffer) = some outputs ∧
      found.flatten = (letters 11).map listed := by
  have named : ∀ e ∈ letters 11, Named e := by
    unfold Named
    decide
  obtain ⟨n, outputs, found, done, -, complete⟩ :=
    getdents_complete_iff named (fun _ => smallBuffer) (lists_openDir _)
  exact ⟨n, outputs, found, done, complete.mpr (by decide)⟩

/-- **The twelfth entry is lost** with a buffer of 280 bytes: eleven records take 264 of them, and
the call has read the twelfth entry when it finds that its record does not fit. -/
theorem twelfth_is_lost :
    ∃ outputs, ∃ found : List (List Listed),
      listing lister 0 3 (openDir (letters 12)) [smallBuffer, smallBuffer] = some outputs ∧
      WellFormed (fun _ => smallBuffer) outputs found ∧
      found.flatten = (letters 11).map listed ∧ found.flatten ≠ (letters 12).map listed := by
  have named : ∀ e ∈ letters 12, Named e := by
    unfold Named
    decide
  obtain ⟨fds₁, lists₁, next₁⟩ := listing_cons smallBuffer named (lists_openDir (letters 12))
  obtain ⟨fds₂, lists₂, next₂⟩ := listing_cons smallBuffer named lists₁
  have eleven : batch (letters 12) 0 smallBuffer = letters 11 := by decide
  have some_ : ahead (letters 12) 0 ≠ [] := by decide
  have none_ : ahead (letters 12) (leaves (letters 12) 0 smallBuffer) = [] := by decide
  have nothing : WellFormed (fun _ => smallBuffer) [] [] :=
    ⟨fun i x there => absurd there (by simp), rfl⟩
  have formed : WellFormed (fun _ => smallBuffer) _ _ :=
    nothing.cons 0 named
  rw [eleven] at formed
  refine ⟨[records 0 (letters 11)], [(letters 11).map listed], ?_, formed, ?_, by decide⟩
  · rw [next₁, if_neg some_, next₂, if_pos none_, eleven]
    rfl
  · rw [List.flatten_singleton]

/-! ### The directories of the VFS -/

/-- `d_type` that `ramfs_readdir_impl` gives. -/
def dtOf : Vfs.FileType → UInt8
  | .dir => 4
  | .lnk => 10
  | .chr => 2
  | _ => 8

def direntOf (e : Vfs.Kernel.Dirent) : Dirent :=
  ⟨e.ino, dtOf e.type, e.name.map fun c => .ofNat c.toNat⟩

/-- `ramfs_readdir_impl` of an inode. -/
def readdirOf (k : Vfs.Kernel) (x : Vfs.Vnode) (index : Nat) : Option Dirent :=
  match x.content with
  | .dir children _ => ((k.ramfsReaddirImpl children index).bind id).map direntOf
  | _ => none

def openInode (k : Vfs.Kernel) (f : Vfs.FileDesc) : Option OpenInode :=
  (k.inodes f.inode).map fun x =>
    ⟨x.type = .dir, some (readdirOf k x), k.vfsAccess x (Vfs.permR + Vfs.permX), f.offset⟩

/-- The descriptors of the VFS, with the driver ramfs. -/
def filesOf (k : Vfs.Kernel) : Files := fun b => (k.fds b).bind (openInode k)

theorem filesOf_setFd (k : Vfs.Kernel) (b : Fin 64) (f : Option Vfs.FileDesc) :
    filesOf (k.setFd b f) = Function.update (filesOf k) b (f.bind (openInode k)) := by
  have fields : openInode (k.setFd b f) = openInode k := rfl
  funext b'
  rw [filesOf, fields]
  show (Function.update k.fds b f b').bind _ = _
  by_cases same : b' = b
  · rw [same, update_self, update_self]
  · rw [update_of_ne same, update_of_ne same, filesOf]

/-- What the result of a call of the VFS says. -/
def gotOf : Vfs.Kernel.Answer → Got
  | .entry e => .entry (direntOf e)
  | .number _ => .done
  | _ => .failed

/-- **The kernel of the VFS reads its directories so.** -/
theorem vfsFdReaddir_kernel {k k' : Vfs.Kernel} {answer : Vfs.Kernel.Answer} (b : Fin 64)
    (done : k.vfsFdReaddir b.val = some (k', answer)) :
    vfsFdReaddir (filesOf k) b = (filesOf k', gotOf answer) := by
  have index : Vfs.fdIndex b.val = some b := by
    rw [Vfs.fdIndex, dif_pos (by omega)]
    rfl
  unfold Vfs.Kernel.vfsFdReaddir Vfs.Kernel.fdOf at done
  rw [index, Option.bind_some] at done
  unfold vfsFdReaddir
  cases used : k.fds b with
  | none =>
    have nothing : filesOf k b = none := by rw [filesOf, used, Option.bind_none]
    rw [used] at done
    cases done
    rw [nothing]
    rfl
  | some f =>
    rw [used] at done
    cases inode : k.inodes f.inode with
    | none => simp [inode] at done
    | some x =>
      simp only [Option.map_some, inode, Option.bind_eq_bind, Option.bind_some] at done
      have here : filesOf k b = some ⟨x.type = .dir, some (readdirOf k x),
          k.vfsAccess x (Vfs.permR + Vfs.permX), f.offset⟩ := by
        rw [filesOf, used, Option.bind_some, openInode, inode, Option.map_some]
      rw [here]
      dsimp only
      by_cases refused : (decide (x.type ≠ .dir) || !k.vfsAccess x (Vfs.permR + Vfs.permX)) = true
      · rw [if_pos refused] at done
        cases done
        rw [if_pos (by simpa using refused)]
        rfl
      · rw [if_neg refused] at done
        rw [if_neg (by simpa using refused)]
        by_cases far : 0xffffffff < f.offset
        · rw [if_pos far] at done
          cases done
          rw [if_pos far]
          rfl
        · rw [if_neg far] at done
          rw [if_neg far, readdirOf]
          unfold Vfs.Kernel.readdirAnswer at done
          cases content : x.content with
          | dir children count =>
            rw [content] at done
            dsimp only at done ⊢
            cases read : k.ramfsReaddirImpl children f.offset with
            | none => simp [read] at done
            | some e =>
              rw [read] at done
              cases e with
              | none =>
                cases done
                rfl
              | some e =>
                cases done
                have next : (some { f with offset := f.offset + 1 }).bind (openInode k) =
                    some ⟨x.type = .dir, some (readdirOf k x),
                      k.vfsAccess x (Vfs.permR + Vfs.permX), f.offset + 1⟩ := by
                  rw [Option.bind_some, openInode, inode, Option.map_some]
                rw [filesOf_setFd, next]
                rfl
          | _ =>
            rw [content] at done
            cases done
            rfl

end AtmKoala.Linux
