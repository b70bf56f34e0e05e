import AtmKoala.Ext2.Model

/-!
Accesses of an ext2 volume stay inside its partition.

* `Fits fs drive start count`: the blocks of the volume lie in the `count` sectors from `start`
  on, and these do not run over the end of the sector numbers. `stateOf_fits` reads it off what
  the mount checks.
* `readBlock_tries` and `writeBlock_tries` are the places where sectors are named; every function
  above them only has to be followed through its branches.
* `session_inside`: every sector asked for after a mount.
-/

namespace AtmKoala.Ext2

open Lib Partmgr
open Catfs (World)
open Io (Tries tries_pure tries_failure Composes tries_composes)

variable {fs : Ext2State} {P : Request → Prop} {drive : Int} {start count : Nat}

/-- The volume lies in the `count` sectors from `start` on. -/
structure Fits (fs : Ext2State) (drive : Int) (start count : Nat) : Prop where
  onDrive : fs.drive = drive
  first : fs.partLba.toNat = start
  blocks : fs.blocksCount.toNat * (sectorsPerBlock fs).toNat ≤ count
  range : start + count < 2 ^ 32

/-- A request for a sector in the range. -/
def InRange (drive : Int) (start count : Nat) (r : Request) : Prop :=
  r.drive = drive ∧ start ≤ r.lba.toNat ∧ r.lba.toNat < start + count

/-! ### Sectors -/

/-- Counting from the next sector. -/
theorem ofNat_add_one_from (lba : UInt32) (i : Nat) :
    lba + UInt32.ofNat (i + 1) = lba + 1 + UInt32.ofNat i := by
  rw [UInt32.ofNat_add, UInt32.add_assoc, UInt32.add_comm (UInt32.ofNat i)]
  rfl

theorem diskWrite_tries {f : Nat → UInt8} {lba : UInt32} {i n : Nat}
    (inside : ∀ i, i < n → P ⟨drive, lba + UInt32.ofNat i, true⟩) :
    Tries P (diskWrite drive f lba i n) := by
  induction n generalizing lba i with
  | zero => exact tries_pure _
  | succ n ih =>
    have first : ∀ sec, Tries P (diskWriteOne drive lba sec) := by
      intro sec w r mem
      obtain rfl := List.mem_singleton.mp mem
      simpa using inside 0 (Nat.succ_pos n)
    have rest : Tries P (diskWrite drive f (lba + 1) (i + 1) n) := by
      refine ih fun i less => ?_
      rw [← ofNat_add_one_from]
      exact inside (i + 1) (Nat.succ_lt_succ less)
    unfold diskWrite
    exact (first _).bind fun _ => rest

/-- Sector `i` of block `b` lies in the range. -/
theorem Fits.sector (fits : Fits fs drive start count) {b : UInt32} (block : b < fs.blocksCount)
    {i : Nat} (less : i < (sectorsPerBlock fs).toNat) (write : Bool) :
    InRange drive start count
      ⟨fs.drive, fs.partLba + b * sectorsPerBlock fs + UInt32.ofNat i, write⟩ := by
  have below : b.toNat + 1 ≤ fs.blocksCount.toNat := UInt32.lt_iff_toNat_lt.mp block
  have whole := Nat.mul_le_mul_right (sectorsPerBlock fs).toNat below
  rw [Nat.add_mul, Nat.one_mul] at whole
  have blocks := fits.blocks
  have range := fits.range
  have first := fits.first
  have product : (b * sectorsPerBlock fs).toNat = b.toNat * (sectorsPerBlock fs).toNat := by
    rw [UInt32.toNat_mul]
    exact Nat.mod_eq_of_lt (by omega)
  have sum : (fs.partLba + b * sectorsPerBlock fs + UInt32.ofNat i).toNat =
      start + b.toNat * (sectorsPerBlock fs).toNat + i := by
    rw [UInt32.toNat_add, UInt32.toNat_add, product, UInt32.toNat_ofNat', first]
    omega
  refine ⟨fits.onDrive, ?_, ?_⟩
  · rw [sum]
    omega
  · rw [sum]
    omega

/-- What holds of the reading of a block's sectors, and of a computation if it holds of its parts,
holds of the reading of the block. -/
theorem readBlock_reads {Q : (α : Type) → Try α → Prop} (composes : Composes Q) {b : UInt32}
    (inside : b < fs.blocksCount → ∀ i, i < (sectorsPerBlock fs).toNat →
      P ⟨fs.drive, fs.partLba + b * sectorsPerBlock fs + UInt32.ofNat i, false⟩)
    (one : ∀ lba, P ⟨fs.drive, lba, false⟩ → Q _ (diskReadOne fs.drive lba)) :
    Q _ (readBlock fs b) := by
  have sectors : ∀ n lba, (∀ i, i < n → P ⟨fs.drive, lba + UInt32.ofNat i, false⟩) →
      Q _ (diskRead fs.drive lba n) := by
    intro n
    induction n with
    | zero => exact fun lba _ => composes.pure _
    | succ n ih =>
      intro lba inside
      have first := one lba (by simpa using inside 0 (Nat.succ_pos n))
      refine composes.bind first fun _ => composes.bind (ih _ fun i less => ?_) fun _ => composes.pure _
      rw [← ofNat_add_one_from]
      exact inside (i + 1) (Nat.succ_lt_succ less)
  unfold readBlock
  refine composes.ite (fun _ => composes.failure) fun accepted => ?_
  simp only [not_or] at accepted
  have block : b < fs.blocksCount := UInt32.not_le.mp accepted.2.2.2
  exact composes.bind (sectors _ _ (inside block)) fun _ => composes.pure _

theorem readBlock_tries (fits : Fits fs drive start count) (b : UInt32) :
    Tries (InRange drive start count) (readBlock fs b) := by
  refine readBlock_reads (tries_composes _) (fun block i less => fits.sector block less false) ?_
  intro lba inside w r mem
  obtain rfl := List.mem_singleton.mp mem
  exact inside

theorem writeBlock_tries (fits : Fits fs drive start count) (b : UInt32) (f : Nat → UInt8) :
    Tries (InRange drive start count) (writeBlock fs b f) := by
  unfold writeBlock
  refine Tries.ite (fun _ => tries_failure) fun accepted => ?_
  simp only [not_or] at accepted
  have block : b < fs.blocksCount := UInt32.not_le.mp accepted.2.2
  exact diskWrite_tries fun i less => fits.sector block less true

/-! ### Reading

What holds of the reading of a block, and of a computation if it holds of its parts, holds of all
functions that read. -/

section Reads

variable {Q : (α : Type) → Try α → Prop} (composes : Composes Q) (read : ∀ b, Q _ (readBlock fs b))
include composes read

theorem inodeGet_reads (ino : UInt32) : Q _ (inodeGet fs ino) := by
  unfold inodeGet inodeAt
  refine composes.ite (fun _ => composes.failure) fun _ => composes.bind (read _) fun gdblk => ?_
  refine composes.bind (read _) fun raw => composes.ite (fun _ => ?_) fun _ => composes.pure _
  exact composes.bind (read _) fun next => composes.pure _

theorem pointerAt_reads (b : UInt32) (k : Nat) : Q _ (pointerAt fs b k) := by
  unfold pointerAt
  refine composes.ite (fun _ => composes.pure _) fun _ => ?_
  exact composes.bind (read _) fun f => composes.pure _

theorem fileBlock_reads (inode : Inode) (logical : UInt32) : Q _ (fileBlock fs inode logical) := by
  have pointer := pointerAt_reads composes read
  unfold fileBlock
  refine composes.ite (fun _ => composes.failure) fun _ => ?_
  split
  · exact composes.pure _
  · refine composes.ite (fun _ => pointer _ _) fun _ => ?_
    refine composes.ite (fun _ => ?_) fun _ => ?_
    · exact composes.bind (pointer _ _) fun a => pointer _ _
    · refine composes.ite (fun _ => ?_) fun _ => composes.failure
      exact composes.bind (pointer _ _) fun a => composes.bind (pointer _ _) fun b => pointer _ _

theorem lookupInDir_reads (dir : Inode) (name : Bytes) : Q _ (lookupInDir fs dir name) := by
  have blocks : ∀ n bi, Q _ (lookupBlocks fs dir name n bi) := by
    intro n
    induction n with
    | zero => exact fun bi => composes.failure
    | succ n ih =>
      intro bi
      unfold lookupBlocks
      refine composes.bind (fileBlock_reads composes read _ _) fun db => ?_
      refine composes.ite (fun _ => ih _) fun _ => composes.bind (read _) fun f => ?_
      dsimp only
      split
      · exact composes.pure _
      · exact composes.ite (fun _ => ih _) fun _ => composes.failure
  exact composes.ite (fun _ => composes.failure) fun _ => blocks _ _

theorem ext2Lookup_reads (path : Bytes) : Q _ (ext2Lookup fs path) := by
  have walk : ∀ names cur ty, Q _ (lookupFrom fs cur ty names) := by
    intro names
    induction names with
    | nil => exact fun cur ty => composes.pure _
    | cons name names ih =>
      intro cur ty
      unfold lookupFrom
      refine composes.bind (lookupInDir_reads composes read _ _) fun found => ?_
      exact composes.bind (inodeGet_reads composes read _) fun next => ih _ _
  unfold ext2Lookup
  refine composes.ite (fun _ => composes.failure) fun _ => ?_
  exact composes.bind (inodeGet_reads composes read _) fun root => walk _ _ _

theorem ext2Readdir_reads (path : Bytes) (size : Nat) : Q _ (ext2Readdir fs path size) := by
  have blocks : ∀ dir n out bi, Q _ (listBlocks fs dir size out n bi) := by
    intro dir n
    induction n with
    | zero => exact fun out bi => composes.pure _
    | succ n ih =>
      intro out bi
      unfold listBlocks
      refine composes.bind (fileBlock_reads composes read _ _) fun db => ?_
      refine composes.ite (fun _ => ih _ _) fun _ => composes.bind (read _) fun f => ?_
      exact composes.ite (fun _ => ih _ _) fun _ => composes.failure
  unfold ext2Readdir
  refine composes.bind (ext2Lookup_reads composes read _) fun dir => ?_
  exact composes.ite (fun _ => composes.failure) fun _ => blocks _ _ _ _

theorem inodeReadRange_reads (f : Inode) (offset : UInt32) (cap : Nat) :
    Q _ (inodeReadRange fs f offset cap) := by
  have loop : ∀ n done bi skip, Q _ (readLoop fs f offset.toNat cap n done bi skip) := by
    intro n
    induction n with
    | zero => exact fun done bi skip => composes.pure _
    | succ n ih =>
      intro done bi skip
      unfold readLoop
      refine composes.ite (fun _ => ?_) fun _ => composes.pure _
      refine composes.bind (fileBlock_reads composes read _ _) fun db => ?_
      refine composes.ite (fun _ => composes.pure _) fun _ => ?_
      exact composes.bind (read _) fun b => ih _ _ _
  exact composes.ite (fun _ => composes.pure _) fun _ => loop _ _ _ _

theorem ext2ReadRange_reads (path : Bytes) (offset : UInt32) (cap : Nat) :
    Q _ (ext2ReadRange fs path offset cap) := by
  unfold ext2ReadRange
  refine composes.bind (ext2Lookup_reads composes read _) fun f => ?_
  exact composes.ite (fun _ => composes.failure) fun _ => inodeReadRange_reads composes read _ _ _

theorem ext2Readlink_reads (path : Bytes) (cap : Nat) : Q _ (ext2Readlink fs path cap) := by
  unfold ext2Readlink
  refine composes.ite (fun _ => composes.failure) fun _ => ?_
  refine composes.bind (ext2Lookup_reads composes read _) fun f => ?_
  refine composes.ite (fun _ => composes.failure) fun _ => ?_
  exact composes.ite (fun _ => composes.pure _) fun _ => inodeReadRange_reads composes read _ _ _

end Reads

/-! ### Writing -/

theorem writeLoop_tries (fits : Fits fs drive start count) (f : Inode) (offset : UInt32)
    (data : Bytes) (n done : Nat) :
    Tries (InRange drive start count) (writeLoop fs f offset data n done) := by
  induction n generalizing done with
  | zero => exact tries_pure _
  | succ n ih =>
    unfold writeLoop
    refine Tries.ite (fun _ => ?_) fun _ => tries_pure _
    dsimp only
    split
    · refine (readBlock_tries fits _).bind fun old => ?_
      exact (writeBlock_tries fits _ _).bind fun _ => ih _
    · exact tries_failure

theorem ext2WriteRange_tries (fits : Fits fs drive start count) (path : Bytes) (offset : UInt32)
    (data : Bytes) : Tries (InRange drive start count) (ext2WriteRange fs path offset data) := by
  unfold ext2WriteRange
  refine Tries.ite (fun _ => tries_failure) fun _ => ?_
  refine (ext2Lookup_reads (tries_composes _) (readBlock_tries fits) _).bind fun f => ?_
  refine Tries.ite (fun _ => tries_failure) fun _ => ?_
  refine Tries.ite (fun _ => tries_failure) fun _ => ?_
  refine Tries.ite (fun _ => tries_failure) fun _ => ?_
  exact Tries.ite (fun _ => tries_failure) fun _ => writeLoop_tries fits _ _ _ _ _

/-! ### Sessions -/

/-- A call asks for sectors of the range only. -/
theorem perform_only (fits : Fits fs drive start count) (op : Op) :
    Io.Only (InRange drive start count) (perform fs op) := by
  have composes := tries_composes (σ := World) (InRange drive start count)
  have read := readBlock_tries fits
  cases op with
  | lookup path => exact Io.Only.bind (ext2Lookup_reads composes read _) fun _ => Io.only_pure _
  | readdir path size =>
    exact Io.Only.bind (ext2Readdir_reads composes read _ _) fun _ => Io.only_pure _
  | readfile path cap =>
    exact Io.Only.bind (ext2ReadRange_reads composes read _ _ _) fun _ => Io.only_pure _
  | readRange path offset cap =>
    exact Io.Only.bind (ext2ReadRange_reads composes read _ _ _) fun _ => Io.only_pure _
  | readlink path cap =>
    exact Io.Only.bind (ext2Readlink_reads composes read _ _) fun _ => Io.only_pure _
  | writeRange path offset data =>
    exact Io.Only.bind (ext2WriteRange_tries fits _ _ _) fun _ => Io.only_pure _
  | setWriteEnabled enabled => exact Io.only_pure _

/-- A call does not move the volume. -/
theorem perform_fits (fits : Fits fs drive start count) (op : Op) (w : World) :
    Fits ((perform fs op).value w) drive start count := by
  cases op with
  | setWriteEnabled enabled =>
    show Fits (ext2SetWriteEnabled fs enabled).1 drive start count
    unfold ext2SetWriteEnabled
    split
    · exact fits
    · split
      · exact ⟨fits.onDrive, fits.first, fits.blocks, fits.range⟩
      · split
        · exact fits
        · exact ⟨fits.onDrive, fits.first, fits.blocks, fits.range⟩
  | _ => exact fits

theorem session_only (fits : Fits fs drive start count) (ops : List Op) :
    Io.Only (InRange drive start count) (session fs ops) := by
  induction ops generalizing fs with
  | nil => exact Io.only_pure _
  | cons op ops ih =>
    unfold session
    exact (perform_only fits op).bind_of fun w => ih (perform_fits fits op w)

/-! ### Mounting -/

theorem stateOf_some {e : MbrEntry} {behind f : Nat → UInt8}
    (built : stateOf drive e behind f = some fs) :
    superAccepted e f ∧ stateFrom drive e behind f = fs := by
  unfold stateOf at built
  split at built
  · exact ⟨‹_›, Option.some.inj built⟩
  · cases built

/-- What the mount checks puts the blocks inside the entry. -/
theorem stateOf_fits {e : MbrEntry} {behind f : Nat → UInt8}
    (built : stateOf drive e behind f = some fs) (range : e.finish < 2 ^ 32) :
    Fits fs drive e.lbaStart.toNat e.sectorCount.toNat := by
  obtain ⟨accepted, rfl⟩ := stateOf_some built
  have blocks := accepted.2.2.2.2
  simp only [not_or, not_lt] at blocks
  exact ⟨rfl, rfl, blocks.2, range⟩

theorem mbrReadAct_value {w : World} {m : MbrTable}
    (read : (mbrReadAct drive).run.value w = some m) : (mbrRead w drive mbrInitEmpty).1 = m := by
  change (if (mbrRead w drive mbrInitEmpty).2 then some (mbrRead w drive mbrInitEmpty).1
    else none) = some m at read
  split at read
  · exact Option.some.inj read
  · cases read

/-- What a mount has found: an accepted table, and the entry of the volume in it. -/
theorem mount_found {behind : Nat → UInt8} {part : Int} {w : World}
    (mounted : (ext2MountPartition behind drive part).run.value w = some fs) {i : Fin 4}
    (this : (i.val : Int) = part) :
    ∃ secs, mbrValidateDrive w.drives drive (mbrRead w drive mbrInitEmpty).1 = true ∧
      ((mbrRead w drive mbrInitEmpty).1.entries i).sectorCount ≠ 0 ∧
      (diskRead drive (((mbrRead w drive mbrInitEmpty).1.entries i).lbaStart + 2) 1).run.value w =
        some secs ∧
      stateOf drive ((mbrRead w drive mbrInitEmpty).1.entries i) behind (bytesOf secs) = some fs := by
  unfold ext2MountPartition at mounted
  split at mounted
  · cases mounted
  · obtain ⟨raw, -, mounted⟩ := Io.value_of_bind mounted
    split at mounted
    · cases mounted
    · obtain ⟨m, read, mounted⟩ := Io.value_of_bind mounted
      obtain ⟨drives, found, mounted⟩ := Io.value_of_bind mounted
      have table : (mbrRead w drive mbrInitEmpty).1 = m := mbrReadAct_value read
      have known : w.drives = drives := Option.some.inj found
      have slot : i = ⟨part.toNat, by omega⟩ := Fin.ext (by show i.val = part.toNat; omega)
      split at mounted
      · cases mounted
      · rename_i accepted
        dsimp only at mounted
        split at mounted
        · cases mounted
        · rename_i sectors
          obtain ⟨secs, super, mounted⟩ := Io.value_of_bind mounted
          rw [table, known, slot]
          simp only [not_or, Bool.not_eq_false] at accepted
          exact ⟨secs, accepted.2, sectors, super, mounted⟩

/-- **A mounted volume stays inside its partition.** Whatever the image holds and whatever is
called, every sector asked for lies in the range of the entry; a drive of at most `2^28`
sectors gets the number that was meant. -/
theorem session_inside {behind : Nat → UInt8} {part : Int} {w : World}
    (mounted : (ext2MountPartition behind drive part).run.value w = some fs) {i : Fin 4}
    (this : (i.val : Int) = part) (ops : List Op) (now : World) :
    ∀ r ∈ (session fs ops).requests now, r.drive = drive ∧
      ((mbrRead w drive mbrInitEmpty).1.entries i).Covers r.lba.toNat ∧
      ((w.drives drive).sectors.toNat ≤ 2 ^ 28 → lba28 r.lba = r.lba.toNat) := by
  obtain ⟨secs, valid, sectors, -, built⟩ := mount_found mounted this
  have used := type_ne_empty (entryValid_of_validate valid i) sectors
  have onDrive := (Accepted.of_validate valid).onDrive i used
  have small := (w.drives drive).sectors.toNat_lt
  have fits := stateOf_fits built (by omega)
  intro r mem
  obtain ⟨same, low, high⟩ := session_only fits ops now r mem
  refine ⟨same, ⟨low, high⟩, fun lba => Nat.mod_eq_of_lt ?_⟩
  have inside : r.lba.toNat < ((mbrRead w drive mbrInitEmpty).1.entries i).finish := high
  omega

/-! ### An image of two groups -/

/-- The sector of the bytes `f`. -/
def sectorOf (f : Nat → UInt8) : Sector := fun k => f k.val

/-- One partition, of 40000 sectors from sector 64 on. -/
def twoGroupsTable : MbrTable where
  entries := fun i => if i = 0 then ⟨0, fun _ => 0, 0x83, fun _ => 0, 64, 40000⟩ else MbrEntry.zero
  valid := true

/-- 16 inodes and 16385 blocks of 1024 bytes, in groups of 8 inodes and 8192 blocks. -/
def twoGroupsSuper : Nat → UInt8
  | 0 => 16
  | 4 => 0x01
  | 5 => 0x40
  | 20 => 1
  | 33 => 0x20
  | 40 => 8
  | 56 => 0x53
  | 57 => 0xEF
  | 58 => 1
  | 88 => 128
  | _ => 0

/-- The inode tables are at blocks 10 and 8200; group 1 has 7 free inodes. -/
def twoGroupsDescriptors : Nat → UInt8
  | 8 => 10
  | 40 => 0x08
  | 41 => 0x20
  | 46 => 7
  | _ => 0

/-- Inode 9, the first of group 1: a regular file of 5 bytes at block 8300. -/
def twoGroupsInode : Nat → UInt8
  | 0 => 0xA4
  | 1 => 0x81
  | 4 => 5
  | 26 => 1
  | 28 => 2
  | 40 => 0x6C
  | 41 => 0x20
  | _ => 0

def twoGroups : World where
  drives := fun _ => ⟨true, 65536, fun _ => false, fun _ => false⟩
  disk := fun at' =>
    if at'.2 = 0 then mbrSector twoGroupsTable (Block.zero 512)
    else if at'.2 = 66 then sectorOf twoGroupsSuper
    else if at'.2 = 68 then sectorOf twoGroupsDescriptors
    else if at'.2 = 16464 then sectorOf twoGroupsInode
    else Block.zero 512
  issued := []
  catfs := Catfs.formatState 0 0 [] 0

theorem twoGroups_mounts : ((ext2MountPartition (fun _ => 0) 0 0).run.value twoGroups).isSome = true := by
  decide

theorem session_inside_lookup :
    (session (((ext2MountPartition (fun _ => 0) 0 0).run.value twoGroups).get twoGroups_mounts)
        [.lookup [47, 97]]).requests twoGroups ≠ [] ∧
    ∀ r ∈ (session (((ext2MountPartition (fun _ => 0) 0 0).run.value twoGroups).get twoGroups_mounts)
        [.lookup [47, 97]]).requests twoGroups,
      r.drive = 0 ∧ ((mbrRead twoGroups 0 mbrInitEmpty).1.entries 0).Covers r.lba.toNat ∧
      ((twoGroups.drives 0).sectors.toNat ≤ 2 ^ 28 → lba28 r.lba = r.lba.toNat) :=
  ⟨by decide +kernel,
    session_inside (Option.some_get twoGroups_mounts).symm rfl [.lookup [47, 97]] twoGroups⟩

end AtmKoala.Ext2
