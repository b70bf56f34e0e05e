import Mathlib.Data.UInt
import AtmKoala.Lib.Bytes
import AtmKoala.Lib.Run
import AtmKoala.Lib.Sparse

/-!
The contents of regular files in ramfs (`vfs.c`).

A file keeps its bytes in an allocated buffer of `capacity` bytes of which `size`
are the contents; bytes of the buffer behind the size may be left over from
before the file was cut. `Represents` connects a file with the sparse array it
stands for. Reading and truncating refine the array (`ramfsReadImpl_reads`,
`ramfsTruncateImpl_represents`), and so does a write that leaves no gap or a gap
of zeros (`ramfsWriteImpl_iff`): a write beyond the end skips over what is left
in the buffer.
-/

namespace AtmKoala.Vfs

open Lib

/-! ### Files -/

/-- `ramfs_file_t`; a null `data` pointer is the empty buffer. -/
structure RamfsFile where
  data : List UInt8
  size : Nat
  capacity : Nat
deriving DecidableEq

/-- A regular inode, as far as its contents go: its size, its times and
`inode->priv`. -/
structure Inode where
  size : Nat
  atime : Nat
  mtime : Nat
  ctime : Nat
  priv : Option RamfsFile
deriving DecidableEq

/-- `inode_touch_a`. -/
def inodeTouchA (i : Inode) (now : Nat) : Inode := { i with atime := now }

/-- `inode_touch_m`. -/
def inodeTouchM (i : Inode) (now : Nat) : Inode := { i with mtime := now, ctime := now }

/-- `EINVAL` and `ENOSPC`. -/
@[simp] def einval : Int := 22
@[simp] def enospc : Int := 28

/-- A buffer from `kmalloc((uint32_t)n)`, cleared by `kmemset`. -/
def zeroed (n : Nat) : List UInt8 := List.replicate (n % 2 ^ 32) 0

/-- `ramfs_create_impl`'s file: an empty one. -/
def newFile (now : Nat) : Inode := ⟨0, now, now, now, some ⟨[], 0, 0⟩⟩

/-- `ramfs_read_impl` on a regular file: the bytes copied to the caller, whose
number is returned. -/
def ramfsReadImpl (i : Inode) (now off size : Nat) : Inode × List UInt8 :=
  match i.priv with
  | none => (i, [])
  | some fp =>
    if off ≥ fp.size then (i, [])
    else (inodeTouchA i now, (fp.data.drop off).take (min size (fp.size - off)))

/-- The buffer of `ramfs_write_impl` when it has to grow to hold `need` bytes. -/
def grown (fp : RamfsFile) (need : Nat) : RamfsFile :=
  { fp with data := overwrite (zeroed (need + 512)) 0 (fp.data.take fp.size)
            capacity := need + 512 }

/-- The end of `ramfs_write_impl`: copy the bytes in and move the size. -/
def stored (i : Inode) (fp : RamfsFile) (now off : Nat) (buf : List UInt8) : Inode :=
  let size := if off + buf.length > fp.size then off + buf.length else fp.size
  inodeTouchM { i with priv := some { fp with data := overwrite fp.data off buf, size := size }
                       size := size } now

/-- `ramfs_write_impl`. `alloc` says whether `kmalloc` finds room, if it is
asked. -/
def ramfsWriteImpl (i : Inode) (alloc : Bool) (now off : Nat) (buf : List UInt8) : Inode × Int :=
  match i.priv with
  | none => (i, -einval)
  | some fp =>
    let need := off + buf.length
    if need > fp.capacity then
      if alloc = false then (i, -enospc) else (stored i (grown fp need) now off buf, buf.length)
    else (stored i fp now off buf, buf.length)

/-- `ramfs_truncate_impl`. -/
def ramfsTruncateImpl (i : Inode) (alloc : Bool) (now size : Nat) : Inode × Int :=
  match i.priv with
  | none => (i, -einval)
  | some fp =>
    let cut (fp : RamfsFile) : Inode × Int :=
      (inodeTouchM { i with priv := some fp, size := fp.size } now, 0)
    if size < fp.size then cut { fp with size := size }
    else if size > fp.capacity then
      if alloc = false then (i, -enospc)
      else cut ⟨overwrite (zeroed size) 0 (fp.data.take fp.size), size, size⟩
    else
      cut { fp with data := overwrite fp.data fp.size (List.replicate (size - fp.size) 0)
                    size := size }

/-! ### Refinement -/

/-- The buffer has the capacity it should, and the size is within it. -/
structure RamfsFile.Sound (fp : RamfsFile) : Prop where
  allocated : fp.data.length = fp.capacity
  within : fp.size ≤ fp.capacity

/-- The file holds the array. -/
structure Holds (fp : RamfsFile) (s : Sparse UInt8) : Prop extends fp.Sound where
  length : s.length = fp.size
  bytes : ∀ k, k < fp.size → fp.data[k]? = some (s.byte k)

/-- The inode stands for the array. -/
def Represents (i : Inode) (s : Sparse UInt8) : Prop :=
  ∃ fp, i.priv = some fp ∧ i.size = fp.size ∧ Holds fp s

theorem newFile_represents (now : Nat) : Represents (newFile now) Sparse.empty :=
  ⟨⟨[], 0, 0⟩, rfl, rfl, ⟨rfl, Nat.le_refl _⟩, rfl,
    fun _ below => absurd below (Nat.not_lt_zero _)⟩

/-- **Reading.** What is read are the array's bytes. -/
theorem ramfsReadImpl_reads {i : Inode} {s : Sparse UInt8} (h : Represents i s)
    (now off size : Nat) : (ramfsReadImpl i now off size).2 = s.read off size := by
  obtain ⟨fp, priv, -, holds⟩ := h
  have length := holds.length
  unfold ramfsReadImpl
  simp only [priv]
  split
  · rename_i past
    simp [Sparse.read, length, Nat.sub_eq_zero_of_le past]
  · rename_i inside
    apply List.ext_getElem?
    intro k
    by_cases covered : k < min size (fp.size - off)
    · have here := holds.bytes (off + k) (by omega)
      simp [Sparse.read, length, List.getElem?_take, List.getElem?_drop, covered, here]
    · simp [Sparse.read, length, List.getElem?_take, covered]

theorem ramfsReadImpl_represents {i : Inode} {s : Sparse UInt8} (h : Represents i s)
    (now off size : Nat) : Represents (ramfsReadImpl i now off size).1 s := by
  obtain ⟨fp, priv, rest⟩ := h
  unfold ramfsReadImpl
  simp only [priv]
  split
  · exact ⟨fp, priv, rest⟩
  · exact ⟨fp, priv, rest⟩

/-- A larger buffer, zero behind the old contents. -/
theorem enlarged_holds {fp : RamfsFile} {s : Sparse UInt8} (h : Holds fp s) {n : Nat}
    (fits : n < 2 ^ 32) (larger : fp.capacity < n) :
    Holds { fp with data := overwrite (zeroed n) 0 (fp.data.take fp.size), capacity := n } s ∧
      ∀ k, fp.size ≤ k → k < n →
        (overwrite (zeroed n) 0 (fp.data.take fp.size))[k]? = some 0 := by
  have allocated := h.allocated
  have within := h.within
  have room : (zeroed n).length = n := by
    rw [zeroed, List.length_replicate, Nat.mod_eq_of_lt fits]
  have copied : (fp.data.take fp.size).length = fp.size := by
    rw [List.length_take]
    omega
  have zero : ∀ k, k < n → (zeroed n)[k]? = some 0 := by
    intro k inside
    rw [zeroed, List.getElem?_replicate, Nat.mod_eq_of_lt fits, if_pos inside]
  have bytes := getElem?_overwrite (Nat.zero_le (zeroed n).length) (fp.data.take fp.size)
  refine ⟨⟨⟨?_, by simp only; omega⟩, h.length, fun k inside => ?_⟩, fun k outside inside => ?_⟩
  · rw [length_overwrite (Nat.zero_le _), room, copied]
    simp only
    omega
  · simp only at inside
    rw [bytes k, if_pos ⟨Nat.zero_le k, by omega⟩, Nat.sub_zero, List.getElem?_take_of_lt inside]
    exact h.bytes k inside
  · rw [bytes k, if_neg (by omega)]
    exact zero k inside

/-- Storing into a buffer with room writes the array exactly if the bytes skipped
over are zero. -/
theorem stored_iff {fp : RamfsFile} {s : Sparse UInt8} (h : Holds fp s) {off : Nat}
    {buf : List UInt8} (room : off + buf.length ≤ fp.capacity) (i : Inode) (now : Nat) :
    Represents (stored i fp now off buf) (s.write off buf) ↔
      ∀ k, fp.size ≤ k → k < off → fp.data[k]? = some 0 := by
  have allocated := h.allocated
  have within := h.within
  have length := h.length
  have inside : off ≤ fp.data.length := by omega
  have bytes := getElem?_overwrite inside buf
  constructor
  · rintro ⟨fp', priv, -, holds⟩ k behind before
    obtain rfl := Option.some.inj priv
    have here := holds.bytes k (by simp only; split <;> omega)
    simp only [Sparse.write] at here
    rw [bytes k, if_neg (by omega), if_neg (by omega), s.beyond k (by omega)] at here
    exact here
  · intro gap
    refine ⟨_, rfl, rfl, ⟨?_, ?_⟩, ?_, fun k below => ?_⟩
    · rw [length_overwrite inside]
      simp only
      omega
    · simp only
      split <;> omega
    · simp only [Sparse.write]
      split <;> omega
    · simp only [Sparse.write] at below ⊢
      rw [bytes k]
      by_cases covered : off ≤ k ∧ k < off + buf.length
      · have there : k - off < buf.length := by omega
        rw [if_pos covered, if_pos covered, List.getD_eq_getElem?_getD,
          List.getElem?_eq_getElem there, Option.getD_some]
      · rw [if_neg covered, if_neg covered]
        by_cases old : k < fp.size
        · exact h.bytes k old
        · rw [s.beyond k (by omega)]
          refine gap k (by omega) ?_
          split at below <;> omega

/-- The write does not skip over bytes left in the buffer: it starts within the
contents, or makes the buffer grow, or what it skips over is zero. -/
def LeavesNoGap (i : Inode) (off : Nat) (buf : List UInt8) : Prop :=
  ∀ fp, i.priv = some fp →
    off ≤ fp.size ∨ fp.capacity < off + buf.length ∨
      ∀ k, fp.size ≤ k → k < off → fp.data[k]? = some 0

/-- **Writing.** A write that succeeds writes the array exactly if it leaves no gap
of old bytes. -/
theorem ramfsWriteImpl_iff {i : Inode} {s : Sparse UInt8} (h : Represents i s) {alloc : Bool}
    {now off : Nat} {buf : List UInt8} (bound : off + buf.length + 512 < 2 ^ 32)
    (done : ¬(ramfsWriteImpl i alloc now off buf).2 < 0) :
    Represents (ramfsWriteImpl i alloc now off buf).1 (s.write off buf) ↔
      LeavesNoGap i off buf := by
  obtain ⟨fp, priv, -, holds⟩ := h
  have only : LeavesNoGap i off buf ↔ off ≤ fp.size ∨ fp.capacity < off + buf.length ∨
      ∀ k, fp.size ≤ k → k < off → fp.data[k]? = some 0 := by
    unfold LeavesNoGap
    rw [priv]
    constructor
    · exact fun all => all fp rfl
    · rintro holds fp' same
      obtain rfl := Option.some.inj same
      exact holds
  rw [only]
  unfold ramfsWriteImpl at *
  simp only [priv] at *
  by_cases grow : off + buf.length > fp.capacity
  · simp only [if_pos grow] at *
    cases alloc with
    | false => simp at done
    | true =>
      obtain ⟨larger, zero⟩ := enlarged_holds (n := off + buf.length + 512) holds bound (by omega)
      have room : off + buf.length ≤ off + buf.length + 512 := by omega
      have written := (stored_iff larger room i now).mpr fun k behind before => zero k behind (by omega)
      exact iff_of_true written (.inr (.inl grow))
  · simp only [if_neg grow]
    rw [stored_iff holds (by omega) i now]
    constructor
    · exact fun gap => .inr (.inr gap)
    · rintro (within | more | gap) k behind before
      · omega
      · omega
      · exact gap k behind before

/-- **Truncating.** -/
theorem ramfsTruncateImpl_represents {i : Inode} {s : Sparse UInt8} (h : Represents i s)
    {alloc : Bool} {now size : Nat} (bound : size < 2 ^ 32)
    (done : ¬(ramfsTruncateImpl i alloc now size).2 < 0) :
    Represents (ramfsTruncateImpl i alloc now size).1 (s.truncate size) := by
  obtain ⟨fp, priv, -, holds⟩ := h
  have allocated := holds.allocated
  have within := holds.within
  have length := holds.length
  unfold ramfsTruncateImpl at *
  simp only [priv] at *
  by_cases shrink : size < fp.size
  · simp only [if_pos shrink] at *
    refine ⟨_, rfl, rfl, ⟨allocated, by simp only; omega⟩, rfl, fun k below => ?_⟩
    simp only [Sparse.truncate] at below ⊢
    rw [if_pos below]
    exact holds.bytes k (by omega)
  simp only [if_neg shrink] at *
  by_cases grow : size > fp.capacity
  · simp only [if_pos grow] at *
    cases alloc with
    | false => simp at done
    | true =>
      obtain ⟨larger, zero⟩ := enlarged_holds holds bound grow
      refine ⟨_, rfl, rfl, ⟨larger.allocated, Nat.le_refl _⟩, rfl, fun k below => ?_⟩
      simp only [Sparse.truncate] at below ⊢
      rw [if_pos below]
      by_cases old : k < fp.size
      · exact larger.bytes k old
      · rw [s.beyond k (by omega)]
        exact zero k (by omega) below
  · simp only [if_neg grow]
    have bytes := getElem?_overwrite (show fp.size ≤ fp.data.length by omega)
      (List.replicate (size - fp.size) (0 : UInt8))
    refine ⟨_, rfl, rfl, ⟨?_, by simp only; omega⟩, rfl, fun k below => ?_⟩
    · rw [length_overwrite (by omega), List.length_replicate]
      simp only
      omega
    · simp only [Sparse.truncate] at below ⊢
      rw [if_pos below, bytes k]
      by_cases old : k < fp.size
      · rw [if_neg (by omega)]
        exact holds.bytes k old
      · have new : k - fp.size < size - fp.size := by omega
        rw [if_pos (by rw [List.length_replicate]; omega), List.getElem?_replicate,
          if_pos new, s.beyond k (by omega)]

/-! ### Runs -/

/-- A call on the file, with the outcome of its allocation and the time. -/
inductive Op where
  | write (alloc : Bool) (now off : Nat) (buf : List UInt8)
  | truncate (alloc : Bool) (now size : Nat)
  | read (now off size : Nat)

/-- A file with the changes that succeeded, the latest first. -/
structure Trial where
  inode : Inode
  past : List (Sparse.Event UInt8)

/-- Perform a call; it is a change of the file if it does not fail. -/
def Trial.perform (t : Trial) : Op → Trial
  | .write alloc now off buf =>
    let r := ramfsWriteImpl t.inode alloc now off buf
    ⟨r.1, if r.2 < 0 then t.past else .wrote off buf :: t.past⟩
  | .truncate alloc now size =>
    let r := ramfsTruncateImpl t.inode alloc now size
    ⟨r.1, if r.2 < 0 then t.past else .cut size :: t.past⟩
  | .read now off size => ⟨(ramfsReadImpl t.inode now off size).1, t.past⟩

/-- Offsets and sizes are below 2^32 - 512. -/
def InRange (_ : Trial) : Op → Prop
  | .write _ _ off buf => off + buf.length + 512 < 2 ^ 32
  | .truncate _ _ size => size + 512 < 2 ^ 32
  | .read _ _ _ => True

/-- In range, and a write leaves no gap of old bytes. -/
def Gapless (t : Trial) : Op → Prop
  | .write alloc now off buf =>
    InRange t (.write alloc now off buf) ∧ LeavesNoGap t.inode off buf
  | op => InRange t op

/-- A write that fails changes nothing. -/
theorem ramfsWriteImpl_fails {i : Inode} {alloc : Bool} {now off : Nat} {buf : List UInt8}
    (fails : (ramfsWriteImpl i alloc now off buf).2 < 0) :
    (ramfsWriteImpl i alloc now off buf).1 = i := by
  unfold ramfsWriteImpl at *
  cases priv : i.priv with
  | none => rfl
  | some fp =>
    simp only [priv] at fails
    simp only
    split
    · rename_i grow
      rw [if_pos grow] at fails
      cases alloc with
      | false => rfl
      | true => simp at fails; omega
    · rename_i fits
      rw [if_neg fits] at fails
      simp only at fails
      omega

/-- Nor does a truncation that fails. -/
theorem ramfsTruncateImpl_fails {i : Inode} {alloc : Bool} {now size : Nat}
    (fails : (ramfsTruncateImpl i alloc now size).2 < 0) :
    (ramfsTruncateImpl i alloc now size).1 = i := by
  unfold ramfsTruncateImpl at *
  cases priv : i.priv with
  | none => rfl
  | some fp =>
    simp only [priv] at fails
    simp only
    split
    · rename_i shrink
      rw [if_pos shrink] at fails
      cases fails
    · rename_i noShrink
      rw [if_neg noShrink] at fails
      split
      · rename_i grow
        rw [if_pos grow] at fails
        cases alloc with
        | false => rfl
        | true => cases fails
      · rename_i fits
        rw [if_neg fits] at fails
        cases fails

theorem Trial.perform_represents {t : Trial} {op : Op}
    (h : Represents t.inode (Sparse.after t.past)) (ok : Gapless t op) :
    Represents (t.perform op).inode (Sparse.after (t.perform op).past) := by
  cases op with
  | write alloc now off buf =>
    simp only [Trial.perform]
    by_cases fails : (ramfsWriteImpl t.inode alloc now off buf).2 < 0
    · rw [if_pos fails, ramfsWriteImpl_fails fails]
      exact h
    · rw [if_neg fails]
      exact (ramfsWriteImpl_iff h ok.1 fails).mpr ok.2
  | truncate alloc now size =>
    simp only [Trial.perform]
    have bound : size + 512 < 2 ^ 32 := ok
    by_cases fails : (ramfsTruncateImpl t.inode alloc now size).2 < 0
    · rw [if_pos fails, ramfsTruncateImpl_fails fails]
      exact h
    · rw [if_neg fails]
      exact ramfsTruncateImpl_represents h (by omega) fails
  | read now off size => exact ramfsReadImpl_represents h now off size

/-- **Contents refine sparse arrays.** In every run of calls in range whose writes
leave no gap of old bytes, the file has the length of the array that the
successful writes and truncations lead to, reads return the array's bytes, a byte
not written since the size last dropped to or below it is zero, and a call that
fails changes nothing. -/
theorem contents_refine {now : Nat} {ops : List Op} {t : Trial}
    (run : Run (fun t op u => t.perform op = u) Gapless ⟨newFile now, []⟩ ops t) :
    t.inode.size = (Sparse.after t.past).length ∧
      (∀ now off size,
        (ramfsReadImpl t.inode now off size).2 = (Sparse.after t.past).read off size) ∧
      (∀ k, Sparse.Unwritten k t.past → (Sparse.after t.past).byte k = 0) ∧
      (∀ alloc now off buf, (ramfsWriteImpl t.inode alloc now off buf).2 < 0 →
        (ramfsWriteImpl t.inode alloc now off buf).1 = t.inode) ∧
      ∀ alloc now size, (ramfsTruncateImpl t.inode alloc now size).2 < 0 →
        (ramfsTruncateImpl t.inode alloc now size).1 = t.inode := by
  have h := run.invariant (P := fun t => Represents t.inode (Sparse.after t.past))
    (newFile_represents now) fun {t op u} h ok step => step ▸ Trial.perform_represents h ok
  refine ⟨?_, fun now off size => ramfsReadImpl_reads h now off size,
    fun k unwritten => Sparse.after_unwritten unwritten,
    fun _ _ _ _ fails => ramfsWriteImpl_fails fails,
    fun _ _ _ fails => ramfsTruncateImpl_fails fails⟩
  obtain ⟨fp, -, size, holds⟩ := h
  exact size.trans holds.length.symm

/-- Two bytes are written, the file is cut to nothing, and then its second byte is
written. -/
def rewriting : List Op := [.write true 0 0 [1, 2], .truncate true 0 0, .write true 0 1 [9]]

/-- **Counterexample.** The first byte reads as the 1 that was cut off, though it
has not been written since the size dropped to 0. -/
theorem old_byte_read :
    ∃ t, Run (fun t op u => Trial.perform t op = u) InRange ⟨newFile 0, []⟩ rewriting t ∧
      (ramfsReadImpl t.inode 0 0 2).2 = [1, 9] ∧ Sparse.Unwritten 0 t.past := by
  refine ⟨_, .cons ?_ rfl (.cons ?_ rfl (.single ?_ rfl)), by decide,
    by simp, .inl (Nat.le_refl 0)⟩
  · show 0 + 2 + 512 < 2 ^ 32
    decide
  · show 0 + 512 < 2 ^ 32
    decide
  · show 1 + 1 + 512 < 2 ^ 32
    decide

/-- **Witness.** A gap behind the buffer reads as zero. -/
theorem contents_refine_gap :
    ∃ t, Run (fun t op u => Trial.perform t op = u) Gapless ⟨newFile 0, []⟩
        [.write true 0 600 [7]] t ∧ t.inode.size = 601 ∧
      (ramfsReadImpl t.inode 0 598 5).2 = [0, 0, 7] := by
  have run : Run (fun t op u => Trial.perform t op = u) Gapless ⟨newFile 0, []⟩
      [.write true 0 600 [7]] (Trial.perform ⟨newFile 0, []⟩ (.write true 0 600 [7])) := by
    refine .single ⟨?_, ?_⟩ rfl
    · show 600 + 1 + 512 < 2 ^ 32
      decide
    · rintro fp same
      obtain rfl := Option.some.inj same
      exact .inr (.inl (by decide))
  exact ⟨_, run, (contents_refine run).1.trans (by decide),
    ((contents_refine run).2.1 0 598 5).trans (by decide)⟩

end AtmKoala.Vfs
