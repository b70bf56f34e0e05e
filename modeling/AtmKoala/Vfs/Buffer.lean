import AtmKoala.Lib.Run
import AtmKoala.Kmalloc.Runs

/-!
The buffer of a ramfs file under 64-bit offsets and sizes (`vfs.c`).

`ramfs_write_impl` and `ramfs_truncate_impl` add and compare as `uint64_t` and ask
`kmalloc` for the low half of what they have computed. What is modelled here is where
they store, relative to `fp->data`, and what they take the buffer to hold.

* `File.Sound`: the size is within the capacity, and the capacity within the block the
  buffer is.
* `ramfsWriteImpl_kept`, `ramfsTruncateImpl_kept`: exactly when a call keeps that and
  stores inside the block, or fails and changes nothing.
* `Step.kept`, `run_bounded`: every run of calls that stay below 4 GiB.
* `past_allocation`: a write behind 4 GiB stores outside.
-/

namespace AtmKoala.Vfs.Buffer

open Lib

/-! ### Memory -/

/-- A block `kmalloc` returns: its usable bytes, and what is in them. -/
structure Block where
  bytes : Nat
  old : Nat → UInt8

/-- How `kmalloc` answers at some moment. A block is as large as asked for, and no block
has 4 GiB, for `heap_total` is a `uint32_t`. -/
structure Allocator where
  kmalloc : UInt32 → Option Block
  room : ∀ n b, kmalloc n = some b → 0 < n.toNat ∧ n.toNat ≤ b.bytes
  small : ∀ n b, kmalloc n = some b → b.bytes < 2 ^ 32

/-- What `kmalloc` returns on a heap. -/
def answer (h : Kmalloc.Heap) (old : Nat → UInt8) (n : UInt32) : Option Block :=
  match Kmalloc.kmalloc h n.toNat with
  | (h, ptr) => if ptr = 0 then none else some ⟨h.size (ptr - Kmalloc.headerSize), old⟩

theorem answer_room {s : Kmalloc.State} {bs : List Chunk} (sound : Kmalloc.Sound s bs)
    (few : Kmalloc.Few s.heap) {old : Nat → UInt8} {n : UInt32} {b : Block}
    (found : answer s.heap old n = some b) :
    (0 < n.toNat ∧ n.toNat ≤ b.bytes) ∧ b.bytes < 2 ^ 32 := by
  have bound := n.toNat_lt
  obtain ⟨s', bs', ran, sound', -⟩ := sound.kmalloc_ (show n.toNat ≤ 2 ^ 63 by omega) few
  obtain ⟨h, ptr, eq⟩ : ∃ h ptr, Kmalloc.kmalloc s.heap n.toNat = (h, ptr) := ⟨_, _, rfl⟩
  rw [Kmalloc.Sound.perform_kmalloc eq] at ran
  obtain rfl := Option.some.inj ran
  unfold answer at found
  rw [eq] at found
  dsimp only at found
  split at found
  · cases found
  · rename_i taken
    obtain rfl := Option.some.inj found
    obtain ⟨a, c, at_, used, pos, le⟩ := sound'.room (ptr, n.toNat) (by rw [if_neg taken]; simp)
    dsimp only at at_ pos le
    have placed := (mem_used.mp used).1
    obtain ⟨q, sits⟩ := sound'.chain.sits placed
    have size : h.size a = c.size := sits.size
    obtain ⟨low, high⟩ := bounds_of_mem placed
    have end_ := sound'.fits.end_
    have total := sound'.fits.total
    have here : ptr - Kmalloc.headerSize = a := by
      rw [at_]
      exact Nat.add_sub_cancel a 32
    dsimp only at low high end_ total ⊢
    rw [here, size]
    omega

/-- The allocator of a sound heap. -/
def allocatorOf {s : Kmalloc.State} {bs : List Chunk} (sound : Kmalloc.Sound s bs)
    (few : Kmalloc.Few s.heap) (old : Nat → UInt8) : Allocator where
  kmalloc := answer s.heap old
  room := fun _ _ found => (answer_room sound few found).1
  small := fun _ _ found => (answer_room sound few found).2

/-! ### Files -/

/-- `ramfs_file_t` with `inode->size`, and with what `data` points to: the bytes by their
distance from it and the usable bytes of its block, none for a null pointer. -/
structure File where
  data : Nat → UInt8
  block : Nat
  size : UInt64
  capacity : UInt64
  inodeSize : UInt64

/-- The file of `ramfs_create_impl`. -/
def File.new : File := ⟨fun _ => 0, 0, 0, 0, 0⟩

/-- The size is within the capacity, and the capacity is there. -/
structure File.Sound (f : File) : Prop where
  within : f.size ≤ f.capacity
  allocated : f.capacity.toNat ≤ f.block

/-- What a call leaves, returns and stores to: `stores k` if it stores to byte `k` of the
block the file has at its end. -/
structure Outcome where
  file : File
  result : Int
  stores : Nat → Prop

/-- A call that returns an error and does nothing else. -/
def refused (f : File) (e : Int) : Outcome := ⟨f, -e, fun _ => False⟩

def einval : Int := 22
def enospc : Int := 28

/-- The buffer after `kmalloc`, `kmemset` of `n` bytes and the copy of the contents. -/
def moved (f : File) (b : Block) (n : UInt32) : Nat → UInt8 := fun k =>
  if f.block ≠ 0 ∧ k < f.size.toNat then f.data k else if k < n.toNat then 0 else b.old k

/-- What that stores to. -/
def movedTo (f : File) (n : UInt32) (k : Nat) : Prop :=
  k < n.toNat ∨ f.block ≠ 0 ∧ k < f.size.toNat

/-- The place `off + i` is the one `k` bytes behind `data`, for some `i < size`. -/
def Covered (off size : UInt64) (k : Nat) : Prop :=
  k < 2 ^ 64 ∧ UInt64.ofNat k - off < size

instance (off size : UInt64) (k : Nat) : Decidable (Covered off size k) :=
  inferInstanceAs (Decidable (_ ∧ _))

/-- The file with a new buffer. -/
def grown (f : File) (b : Block) (newcap : UInt64) : File :=
  ⟨moved f b newcap.toUInt32, b.bytes, f.size, newcap, f.inodeSize⟩

/-- The end of `ramfs_write_impl`: the bytes are copied in and the size is moved. -/
def stored (f : File) (off size : UInt64) (buf : Nat → UInt8) : File :=
  let final := if off + size > f.size then off + size else f.size
  { f with
    data := fun k => if Covered off size k then buf (UInt64.ofNat k - off).toNat else f.data k
    size := final
    inodeSize := final }

def ramfsWriteImpl (f : File) (heap : Allocator) (off : UInt64) (buf : Nat → UInt8)
    (size : UInt64) : Outcome :=
  let need := off + size
  if need > f.capacity then
    let newcap := need + 512
    match heap.kmalloc newcap.toUInt32 with
    | none => refused f enospc
    | some b =>
      ⟨stored (grown f b newcap) off size buf, size.toInt64.toInt,
        fun k => movedTo f newcap.toUInt32 k ∨ Covered off size k⟩
  else ⟨stored f off size buf, size.toInt64.toInt, Covered off size⟩

def ramfsTruncateImpl (f : File) (heap : Allocator) (size : UInt64) : Outcome :=
  if size < f.size then ⟨{ f with size := size, inodeSize := size }, 0, fun _ => False⟩
  else if size > f.capacity then
    match heap.kmalloc size.toUInt32 with
    | none => refused f enospc
    | some b =>
      ⟨⟨moved f b size.toUInt32, b.bytes, size, size, size⟩, 0, movedTo f size.toUInt32⟩
  else
    ⟨{ f with
       data := fun k => if f.size.toNat ≤ k ∧ k < size.toNat then 0 else f.data k
       size := size
       inodeSize := size }, 0, fun k => f.size.toNat ≤ k ∧ k < size.toNat⟩

/-- **What a call must do**: fail and leave the file as it is, or keep it sound; and store
inside its block. -/
def Kept (f : File) (o : Outcome) : Prop :=
  (o.result < 0 ∧ o.file = f ∨ o.file.Sound) ∧ ∀ k, o.stores k → k < o.file.block

theorem kept_refused (f : File) {e : Int} (error : 0 < e) : Kept f (refused f e) :=
  ⟨.inl ⟨by show -e < 0; omega, rfl⟩, fun _ none_ => absurd none_ id⟩

/-! ### One call -/

section Calls

variable {f : File} {heap : Allocator} {off size : UInt64} {buf : Nat → UInt8}

theorem File.Sound.toNat_le (sound : f.Sound) : f.size.toNat ≤ f.capacity.toNat :=
  UInt64.le_iff_toNat_le.mp sound.within

theorem toNat_toUInt32 (n : UInt64) : n.toUInt32.toNat = n.toNat % 2 ^ 32 := UInt64.toNat_toUInt32 n

theorem covered_iff (nowrap : off.toNat + size.toNat < 2 ^ 64) {k : Nat} :
    Covered off size k ↔ off.toNat ≤ k ∧ k < off.toNat + size.toNat := by
  unfold Covered
  constructor
  · rintro ⟨small, inside⟩
    rw [UInt64.lt_iff_toNat_lt, UInt64.toNat_sub, UInt64.toNat_ofNat_of_lt' small] at inside
    omega
  · rintro ⟨low, high⟩
    have small : k < 2 ^ 64 := by omega
    refine ⟨small, ?_⟩
    rw [UInt64.lt_iff_toNat_lt, UInt64.toNat_sub, UInt64.toNat_ofNat_of_lt' small]
    omega

/-- If the sum wraps around, the last byte of the address space is stored to. -/
theorem covered_last (wraps : 2 ^ 64 ≤ off.toNat + size.toNat) : Covered off size (2 ^ 64 - 1) := by
  have low := off.toNat_lt
  refine ⟨by omega, ?_⟩
  rw [UInt64.lt_iff_toNat_lt, UInt64.toNat_sub, UInt64.toNat_ofNat_of_lt' (by decide)]
  omega

/-- The write stays inside the buffer, or below 4 GiB with the 512 bytes more that are
asked for, or needs a larger buffer and gets none. -/
def WriteFits (f : File) (heap : Allocator) (off size : UInt64) : Prop :=
  off.toNat + size.toNat ≤ f.capacity.toNat ∨ off.toNat + size.toNat + 512 < 2 ^ 32 ∨
    f.capacity < off + size ∧ heap.kmalloc (off + size + 512).toUInt32 = none

/-- The new size is within the capacity or below 4 GiB, or there is no memory for it. -/
def TruncateFits (f : File) (heap : Allocator) (size : UInt64) : Prop :=
  size ≤ f.capacity ∨ size.toNat < 2 ^ 32 ∨ heap.kmalloc size.toUInt32 = none

theorem size_stored (sound : f.Sound) (past : f.capacity < off + size) {g : File}
    (same : g.size = f.size) : (stored g off size buf).size = off + size := by
  have within := sound.toNat_le
  rw [UInt64.lt_iff_toNat_lt] at past
  have more : off + size > g.size := by
    rw [same, gt_iff_lt, UInt64.lt_iff_toNat_lt]
    omega
  exact if_pos more

/-- **Writing.** -/
theorem ramfsWriteImpl_kept (sound : f.Sound) (small : f.block < 2 ^ 32) :
    Kept f (ramfsWriteImpl f heap off buf size) ↔ WriteFits f heap off size := by
  have within := sound.toNat_le
  have allocated := sound.allocated
  have sum : (off + size).toNat = (off.toNat + size.toNat) % 2 ^ 64 := UInt64.toNat_add off size
  unfold ramfsWriteImpl WriteFits
  dsimp only
  by_cases grow : f.capacity < off + size
  · have past := UInt64.lt_iff_toNat_lt.mp grow
    rw [if_pos grow]
    cases found : heap.kmalloc (off + size + 512).toUInt32 with
    | none => exact iff_of_true (kept_refused f (by decide)) (.inr (.inr ⟨grow, rfl⟩))
    | some b =>
      obtain ⟨-, room⟩ := heap.room _ b found
      have bound := heap.small _ b found
      have newcap : (off + size + 512).toNat = ((off + size).toNat + 512) % 2 ^ 64 :=
        UInt64.toNat_add _ 512
      rw [toNat_toUInt32] at room
      dsimp only
      constructor
      · rintro ⟨kept, inside⟩
        by_contra unfit
        rw [not_or, not_or] at unfit
        -- a sum that wraps around stores at the end of the address space
        have nowrap : off.toNat + size.toNat < 2 ^ 64 := by
          by_contra wraps
          have last := inside (2 ^ 64 - 1) (.inr (covered_last (by omega)))
          dsimp only [stored, grown] at last
          omega
        rcases kept with ⟨-, same⟩ | kept
        · have moved := congrArg File.size same
          dsimp only at moved
          rw [size_stored (g := grown f b _) sound grow rfl] at moved
          rw [moved, UInt64.lt_iff_toNat_lt] at grow
          omega
        · have le := kept.toNat_le
          have held := kept.allocated
          dsimp only at le held
          rw [size_stored (g := grown f b _) sound grow rfl] at le
          dsimp only [stored, grown] at le held
          omega
      · rintro (fits | fits | ⟨-, none_⟩)
        · omega
        · have nowrap : off.toNat + size.toNat < 2 ^ 64 := by omega
          refine ⟨.inr ⟨?_, ?_⟩, fun k stores => ?_⟩
          · dsimp only
            rw [size_stored (g := grown f b _) sound grow rfl, UInt64.le_iff_toNat_le]
            dsimp only [stored, grown]
            omega
          · dsimp only [stored, grown]
            omega
          · dsimp only [stored, grown]
            rcases stores with (zeroed | ⟨-, copied⟩) | written
            · rw [toNat_toUInt32] at zeroed
              omega
            · omega
            · have := (covered_iff nowrap).mp written
              omega
        · cases none_
  · have inside := UInt64.le_iff_toNat_le.mp (UInt64.not_lt.mp grow)
    rw [if_neg grow]
    constructor
    · rintro ⟨-, stores⟩
      left
      by_contra past
      have last := stores (2 ^ 64 - 1) (covered_last (by omega))
      dsimp only [stored] at last
      omega
    · intro fits
      have nowrap : off.toNat + size.toNat < 2 ^ 64 := by
        rcases fits with fits | fits | ⟨grown, -⟩
        · omega
        · omega
        · exact absurd grown grow
      refine ⟨.inr ⟨?_, allocated⟩, fun k stores => ?_⟩
      · rw [UInt64.le_iff_toNat_le]
        dsimp only [stored]
        split <;> omega
      · have := (covered_iff nowrap).mp stores
        dsimp only [stored]
        omega

/-- **Truncating.** -/
theorem ramfsTruncateImpl_kept (sound : f.Sound) :
    Kept f (ramfsTruncateImpl f heap size) ↔ TruncateFits f heap size := by
  have within := sound.toNat_le
  have allocated := sound.allocated
  unfold ramfsTruncateImpl TruncateFits
  by_cases shrink : size < f.size
  · have less := UInt64.lt_iff_toNat_lt.mp shrink
    rw [if_pos shrink]
    refine iff_of_true ⟨.inr ⟨?_, allocated⟩, fun k none_ => absurd none_ id⟩ (.inl ?_)
    · rw [UInt64.le_iff_toNat_le]
      dsimp only
      omega
    · rw [UInt64.le_iff_toNat_le]
      omega
  rw [if_neg shrink]
  by_cases grow : f.capacity < size
  · have past := UInt64.lt_iff_toNat_lt.mp grow
    rw [if_pos grow]
    cases found : heap.kmalloc size.toUInt32 with
    | none => exact iff_of_true (kept_refused f (by decide)) (.inr (.inr rfl))
    | some b =>
      obtain ⟨-, room⟩ := heap.room _ b found
      have bound := heap.small _ b found
      rw [toNat_toUInt32] at room
      dsimp only
      constructor
      · rintro ⟨⟨impossible, -⟩ | kept, -⟩
        · exact absurd impossible (Int.lt_irrefl 0)
        · have held := kept.allocated
          dsimp only at held
          exact .inr (.inl (by omega))
      · rintro (fits | fits | none_)
        · exact absurd grow (UInt64.not_lt.mpr fits)
        · refine ⟨.inr ⟨UInt64.le_refl _, ?_⟩, fun k stores => ?_⟩
          · dsimp only
            omega
          · rcases stores with zeroed | ⟨-, copied⟩
            · rw [toNat_toUInt32] at zeroed
              dsimp only
              omega
            · dsimp only
              omega
        · cases none_
  · have inside := UInt64.le_iff_toNat_le.mp (UInt64.not_lt.mp grow)
    rw [if_neg grow]
    refine iff_of_true ⟨.inr ⟨UInt64.not_lt.mp grow, allocated⟩, fun k stores => ?_⟩
      (.inl (UInt64.not_lt.mp grow))
    dsimp only at stores ⊢
    omega

/-- The block of a file is one `kmalloc` has returned. -/
theorem block_write (small : f.block < 2 ^ 32) :
    (ramfsWriteImpl f heap off buf size).file.block < 2 ^ 32 := by
  unfold ramfsWriteImpl
  dsimp only
  split
  · split
    · exact small
    · rename_i b found
      exact heap.small _ b found
  · exact small

theorem block_truncate (small : f.block < 2 ^ 32) :
    (ramfsTruncateImpl f heap size).file.block < 2 ^ 32 := by
  unfold ramfsTruncateImpl
  split
  · exact small
  split
  · split
    · exact small
    · rename_i b found
      exact heap.small _ b found
  · exact small

end Calls

/-! ### The calls of the VFS -/

/-- `vfs_fd_t` of a descriptor of the file, with `flags & O_ACCMODE` and `O_APPEND`. -/
structure Fd where
  offset : UInt64
  access : Fin 4
  append : Bool

/-- The file and the descriptors it is open at. -/
structure State where
  file : File
  fds : Fin 64 → Option Fd

def used (s : State) (fd : Int) : Option (Fin 64 × Fd) :=
  if h : 0 ≤ fd ∧ fd < 64 then (s.fds ⟨fd.toNat, by omega⟩).map (⟨fd.toNat, by omega⟩, ·) else none

def setOffset (s : State) (k : Fin 64) (f : Fd) (offset : UInt64) : State :=
  { s with fds := Function.update s.fds k (some { f with offset := offset }) }

/-- `vfs_lseek`; a sum outside `int64_t` is undefined. -/
def vfsLseek (s : State) (fd : Int) (offset : Int64) (whence : Int) : Option (State × Outcome) :=
  match used s fd with
  | none => some (s, refused s.file 1)
  | some (k, f) =>
    let base? : Option Int64 :=
      if whence = 0 then some 0
      else if whence = 1 then some f.offset.toInt64
      else if whence = 2 then some s.file.inodeSize.toInt64
      else none
    match base? with
    | none => some (s, refused s.file 1)
    | some base =>
      let newoff := base.toInt + offset.toInt
      if newoff < -2 ^ 63 ∨ 2 ^ 63 ≤ newoff then none
      else if newoff < 0 then some (s, refused s.file 1)
      else some (setOffset s k f (UInt64.ofInt newoff), ⟨s.file, newoff, fun _ => False⟩)

/-- `vfs_write`. -/
def vfsWrite (s : State) (fd : Int) (buf : Nat → UInt8) (size : UInt64) (allowed : Bool)
    (heap : Allocator) : State × Outcome :=
  match used s fd with
  | none => (s, refused s.file 1)
  | some (k, f) =>
    if f.access = 0 ∨ !allowed then (s, refused s.file 1)
    else
      let off := if f.append then s.file.inodeSize else f.offset
      let o := ramfsWriteImpl s.file heap off buf size
      (setOffset { s with file := o.file } k f
        (if 0 < o.result then off + UInt64.ofInt o.result else off), o)

/-- `vfs_truncate` of the file's path. -/
def vfsTruncate (s : State) (size : UInt64) (allowed : Bool) (heap : Allocator) :
    State × Outcome :=
  if !allowed then (s, refused s.file 1)
  else
    let o := ramfsTruncateImpl s.file heap size
    ({ s with file := o.file }, o)

/-- `vfs_ftruncate`. -/
def vfsFtruncate (s : State) (fd : Int) (size : UInt64) (allowed : Bool) (heap : Allocator) :
    State × Outcome :=
  match used s fd with
  | none => (s, refused s.file 1)
  | some _ => vfsTruncate s size allowed heap

/-- A call on the file; whether the permissions allow it, and how `kmalloc` answers during
it, come with the call. -/
inductive Call where
  | lseek (fd : Int) (offset : Int64) (whence : Int)
  | write (fd : Int) (buf : Nat → UInt8) (size : UInt64) (allowed : Bool) (heap : Allocator)
  | truncate (size : UInt64) (allowed : Bool) (heap : Allocator)
  | ftruncate (fd : Int) (size : UInt64) (allowed : Bool) (heap : Allocator)

def perform (s : State) : Call → Option (State × Outcome)
  | .lseek fd offset whence => vfsLseek s fd offset whence
  | .write fd buf size allowed heap => some (vfsWrite s fd buf size allowed heap)
  | .truncate size allowed heap => some (vfsTruncate s size allowed heap)
  | .ftruncate fd size allowed heap => some (vfsFtruncate s fd size allowed heap)

/-- One completed call. -/
def Step (s : State) (c : Call) (t : State) : Prop := ∃ o, perform s c = some (t, o)

/-- The condition on a call: what it asks of the driver fits. -/
def Fits (s : State) : Call → Prop
  | .lseek _ _ _ => True
  | .write fd _ size allowed heap => ∀ k f, used s fd = some (k, f) → f.access ≠ 0 →
      allowed = true → WriteFits s.file heap (if f.append then s.file.inodeSize else f.offset) size
  | .truncate size allowed heap => allowed = true → TruncateFits s.file heap size
  | .ftruncate fd size allowed heap =>
    (used s fd).isSome = true → allowed = true → TruncateFits s.file heap size

section Runs

variable {s t : State} {c : Call} {o : Outcome}

/-- `vfs_lseek` leaves the file alone. -/
theorem lseek_idle {fd : Int} {offset : Int64} {whence : Int}
    (done : vfsLseek s fd offset whence = some (t, o)) :
    o.file = s.file ∧ t.file = s.file ∧ ∀ k, ¬o.stores k := by
  unfold vfsLseek at done
  split at done
  · cases done
    exact ⟨rfl, rfl, fun _ => id⟩
  · dsimp only at done
    split at done
    · cases done
      exact ⟨rfl, rfl, fun _ => id⟩
    · split at done
      · cases done
      · split at done
        · cases done
          exact ⟨rfl, rfl, fun _ => id⟩
        · cases done
          exact ⟨rfl, rfl, fun _ => id⟩

/-- What a call reports of the file is what it leaves. -/
theorem perform_file (done : perform s c = some (t, o)) : t.file = o.file := by
  cases c with
  | lseek fd offset whence =>
    obtain ⟨before, after, -⟩ := lseek_idle done
    exact after.trans before.symm
  | write fd buf size allowed heap =>
    simp only [perform, vfsWrite] at done
    split at done
    · cases done
      rfl
    · split at done
      · cases done
        rfl
      · cases done
        rfl
  | truncate size allowed heap =>
    simp only [perform, vfsTruncate] at done
    split at done
    · cases done
      rfl
    · cases done
      rfl
  | ftruncate fd size allowed heap =>
    simp only [perform, vfsFtruncate, vfsTruncate] at done
    split at done
    · cases done
      rfl
    · split at done
      · cases done
        rfl
      · cases done
        rfl

/-- **Step.** A call does what it must exactly if it fits. -/
theorem kept_iff (sound : s.file.Sound) (small : s.file.block < 2 ^ 32)
    (done : perform s c = some (t, o)) : Kept s.file o ↔ Fits s c := by
  have refusal : Kept s.file (refused s.file 1) := kept_refused s.file (by decide)
  cases c with
  | lseek fd offset whence =>
    obtain ⟨same, -, stores⟩ := lseek_idle done
    exact iff_of_true ⟨.inr (same ▸ sound), fun k stored => absurd stored (stores k)⟩ trivial
  | write fd buf size allowed heap =>
    simp only [perform, vfsWrite] at done
    simp only [Fits]
    split at done
    · rename_i unused
      cases done
      exact iff_of_true refusal fun k f here => by rw [unused] at here; cases here
    · rename_i k f here
      split at done
      · rename_i closed
        cases done
        refine iff_of_true refusal fun k' f' same writes permitted => ?_
        obtain ⟨rfl, rfl⟩ := Prod.mk.inj (Option.some.inj (same.symm.trans here))
        rcases closed with readOnly | denied
        · exact absurd readOnly writes
        · rw [permitted] at denied
          cases denied
      · rename_i passes
        cases done
        rw [not_or] at passes
        rw [ramfsWriteImpl_kept sound small]
        constructor
        · intro fits k' f' same _ _
          obtain ⟨rfl, rfl⟩ := Prod.mk.inj (Option.some.inj (same.symm.trans here))
          exact fits
        · exact fun fits => fits k f here passes.1 (by simpa using passes.2)
  | truncate size allowed heap =>
    simp only [perform, vfsTruncate] at done
    simp only [Fits]
    cases allowed with
    | false =>
      cases done
      exact iff_of_true refusal fun denied => by cases denied
    | true =>
      cases done
      rw [ramfsTruncateImpl_kept sound]
      exact ⟨fun fits _ => fits, fun fits => fits rfl⟩
  | ftruncate fd size allowed heap =>
    simp only [perform, vfsFtruncate, vfsTruncate] at done
    simp only [Fits]
    split at done
    · rename_i unused
      cases done
      exact iff_of_true refusal fun here => by rw [unused] at here; cases here
    · rename_i here
      cases allowed with
      | false =>
        cases done
        exact iff_of_true refusal fun _ denied => by cases denied
      | true =>
        cases done
        rw [ramfsTruncateImpl_kept sound]
        exact ⟨fun fits _ _ => fits, fun fits => fits (by rw [here]; rfl) rfl⟩

/-- No call makes a block of 4 GiB. -/
theorem block_perform (small : s.file.block < 2 ^ 32) (done : perform s c = some (t, o)) :
    t.file.block < 2 ^ 32 := by
  rw [perform_file done]
  cases c with
  | lseek fd offset whence =>
    rw [(lseek_idle done).1]
    exact small
  | write fd buf size allowed heap =>
    simp only [perform, vfsWrite] at done
    split at done
    · cases done
      exact small
    · split at done
      · cases done
        exact small
      · cases done
        exact block_write small
  | truncate size allowed heap =>
    simp only [perform, vfsTruncate] at done
    split at done
    · cases done
      exact small
    · cases done
      exact block_truncate small
  | ftruncate fd size allowed heap =>
    simp only [perform, vfsFtruncate, vfsTruncate] at done
    split at done
    · cases done
      exact small
    · split at done
      · cases done
        exact small
      · cases done
        exact block_truncate small

/-- What holds of the file in every state reached. -/
theorem Step.sound (kept : s.file.Sound ∧ s.file.block < 2 ^ 32) (fits : Fits s c)
    (step : Step s c t) : t.file.Sound ∧ t.file.block < 2 ^ 32 := by
  obtain ⟨o, done⟩ := step
  refine ⟨?_, block_perform kept.2 done⟩
  have file := perform_file done
  rcases ((kept_iff kept.1 kept.2 done).mpr fits).1 with ⟨-, same⟩ | sound
  · rw [file, same]
    exact kept.1
  · rw [file]
    exact sound

/-- **The buffer bound.** In every run of fitting calls from an empty file, the size is
within the capacity and the capacity within what is allocated, and a call that comes next
does what it must exactly if it fits. -/
theorem run_bounded {calls : List Call} (run : Run Step Fits s calls t)
    (start : s.file = File.new) :
    t.file.Sound ∧ ∀ c u o, perform t c = some (u, o) → (Kept t.file o ↔ Fits t c) := by
  have kept : t.file.Sound ∧ t.file.block < 2 ^ 32 := by
    refine run.invariant ?_ fun kept fits step => step.sound kept fits
    rw [start]
    exact ⟨⟨UInt64.le_refl _, Nat.le_refl _⟩, Nat.two_pow_pos 32⟩
  exact ⟨kept.1, fun c u o done => kept_iff kept.1 kept.2 done⟩

/-- A heap with a free block of 4096 bytes. -/
def page : Allocator where
  kmalloc n := if 0 < n.toNat ∧ n.toNat ≤ 4096 then some ⟨4096, fun _ => 0⟩ else none
  room := by
    intro n b found
    split at found
    · rename_i fits
      obtain rfl := Option.some.inj found
      exact fits
    · cases found
  small := by
    intro n b found
    split at found
    · obtain rfl := Option.some.inj found
      decide
    · cases found

/-- An empty file open for reading and writing at descriptor 3. -/
def opened : State := ⟨File.new, fun k => if k = 3 then some ⟨0, 2, false⟩ else none⟩

/-- A byte is written. -/
def oneByte : Call := .write 3 (fun _ => 7) 1 true page

theorem run_bounded_byte : ∃ t, Step opened oneByte t ∧ t.file.Sound := by
  obtain ⟨t, o, done⟩ : ∃ t o, perform opened oneByte = some (t, o) := ⟨_, _, rfl⟩
  have fits : Fits opened oneByte := by
    intro k f here _ _
    obtain ⟨rfl, rfl⟩ : 3 = k ∧ (⟨0, 2, false⟩ : Fd) = f :=
      Prod.mk.inj (Option.some.inj (show some (3, _) = _ from here))
    exact .inr (.inl (by decide))
  exact ⟨t, ⟨o, done⟩, (run_bounded (Run.single fits ⟨o, done⟩) rfl).1⟩

/-- The same, with the offset at 4 GiB. -/
def sought : State := setOffset opened 3 ⟨0, 2, false⟩ 4294967296

/-- A byte is written 4 GiB behind the start, into a block of 4096 bytes. -/
theorem past_allocation : Step opened (.lseek 3 4294967296 0) sought ∧
    ∃ t o, perform sought oneByte = some (t, o) ∧ ¬Kept sought.file o := by
  refine ⟨⟨⟨File.new, 4294967296, fun _ => False⟩, rfl⟩, _, _, rfl, fun kept => ?_⟩
  have stores := kept.2 4294967296 (.inr (by decide))
  exact absurd stores (by decide)

end Runs

end AtmKoala.Vfs.Buffer
