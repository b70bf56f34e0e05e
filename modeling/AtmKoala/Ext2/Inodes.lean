import AtmKoala.Ext2.Inside

/-!
Inodes of an ext2 volume are found where the format puts them: in which cases.

* The format: `Conforming` of the bytes of a partition, with group descriptors of 32 bytes
  behind the block of the superblock, and `slotOf`, the place of an inode.
* The code: it takes descriptors to have 38 bytes (`groupDescSize`), so that it reads the inode
  table of a group from `strayAt`. `Leads` says that the place it comes to shows the same inode.
* `inodeGet_iff`: the inode in the slot is returned if and only if this place leads to it.
-/

namespace AtmKoala.Ext2

open Lib Partmgr
open Catfs (World)

/-! ### The format -/

/-- The bytes of a partition, as the drive shows them. -/
def image (w : World) (drive : Int) (e : MbrEntry) (n : Nat) : UInt8 :=
  (w.disk (drive, lba28 (e.lbaStart + UInt32.ofNat (n / 512)))).byteAt (n % 512)

section Format

variable (img : Nat → UInt8)

def inodesCountOf : Nat := (u32At img 1024).toNat
def blocksCountOf : Nat := (u32At img 1028).toNat
def firstDataBlockOf : Nat := (u32At img 1044).toNat
def logBlockSizeOf : Nat := (u32At img 1048).toNat
def blockSizeOf : Nat := 1024 * 2 ^ logBlockSizeOf img
def blocksPerGroupOf : Nat := (u32At img 1056).toNat
def inodesPerGroupOf : Nat := (u32At img 1064).toNat

/-- The first revision of the format has inodes of 128 bytes and no field for it. -/
def inodeSizeOf : Nat := if u16At img 1112 = 0 then 128 else (u16At img 1112).toNat

def groupsOf : Nat :=
  (blocksCountOf img - firstDataBlockOf img + blocksPerGroupOf img - 1) / blocksPerGroupOf img

/-- The descriptor of a group, of 32 bytes, in the table behind the block of the superblock. -/
def descriptorOf (group : Nat) : Nat := (1024 / blockSizeOf img + 1) * blockSizeOf img + 32 * group

/-- The inode table of a group. -/
def inodeTableOf (group : Nat) : Nat := (u32At img (descriptorOf img group + 8)).toNat * blockSizeOf img

def groupOf (ino : Nat) : Nat := (ino - 1) / inodesPerGroupOf img
def offsetOf (ino : Nat) : Nat := (ino - 1) % inodesPerGroupOf img * inodeSizeOf img

/-- The place of an inode. -/
def slotOf (ino : Nat) : Nat := inodeTableOf img (groupOf img ino) + offsetOf img ino

/-- An image in the format: a group is not larger than its bitmaps, of one block each, and
descriptors and inode tables lie on the volume. -/
structure Conforming : Prop where
  logBlockSize : logBlockSizeOf img ≤ 6
  firstDataBlock : firstDataBlockOf img = 1024 / blockSizeOf img
  blocksPerGroup : blocksPerGroupOf img ≤ 8 * blockSizeOf img
  inodesPerGroup : inodesPerGroupOf img ≤ 8 * blockSizeOf img
  inodesCount : inodesCountOf img = inodesPerGroupOf img * groupsOf img
  descriptors : descriptorOf img (groupsOf img) ≤ blocksCountOf img * blockSizeOf img
  tables : ∀ group, group < groupsOf img →
    inodeTableOf img group + inodesPerGroupOf img * inodeSizeOf img ≤
      blocksCountOf img * blockSizeOf img

end Format

/-- Two inodes in raw form with the same mode, size, link count and block pointers. -/
structure SameFields (f g : Nat → UInt8) : Prop where
  mode : u16At f 0 = u16At g 0
  size : u32At f 4 = u32At g 4
  linksCount : u16At f 26 = u16At g 26
  block : ∀ i : Fin 15, u32At f (40 + 4 * i.val) = u32At g (40 + 4 * i.val)

/-- The inode has the fields stored in `g`. -/
structure Inode.Shows (inode : Inode) (g : Nat → UInt8) : Prop where
  mode : inode.mode = u16At g 0
  size : inode.size = u32At g 4
  linksCount : inode.linksCount = u16At g 26
  block : ∀ i : Fin 15, inode.block i = u32At g (40 + 4 * i.val)

theorem shows_decode {ino : UInt32} {f g : Nat → UInt8} :
    (Inode.decode ino f).Shows g ↔ SameFields f g :=
  ⟨fun h => ⟨h.mode, h.size, h.linksCount, h.block⟩, fun h => ⟨h.mode, h.size, h.linksCount, h.block⟩⟩

/-- The fields lie in the first 128 bytes. -/
theorem SameFields.of_bytes {f g : Nat → UInt8} (same : ∀ k, k < diskInodeSize → f k = g k) :
    SameFields f g where
  mode := u16At_congr fun k less => same _ (by unfold diskInodeSize; omega)
  size := u32At_congr fun k less => same _ (by unfold diskInodeSize; omega)
  linksCount := u16At_congr fun k less => same _ (by unfold diskInodeSize; omega)
  block i := u32At_congr fun k less => same _ (by unfold diskInodeSize; omega)

theorem SameFields.trans {f g h : Nat → UInt8} (first : SameFields f g) (second : SameFields g h) :
    SameFields f h where
  mode := first.mode.trans second.mode
  size := first.size.trans second.size
  linksCount := first.linksCount.trans second.linksCount
  block i := (first.block i).trans (second.block i)

theorem SameFields.symm {f g : Nat → UInt8} (same : SameFields f g) : SameFields g f where
  mode := same.mode.symm
  size := same.size.symm
  linksCount := same.linksCount.symm
  block i := (same.block i).symm

/-- An inode decoded from bytes that agree in the part of the fields. -/
theorem decoded_iff {ino : UInt32} {f f' g : Nat → UInt8}
    (same : ∀ k, k < diskInodeSize → f k = f' k) :
    (∃ inode, some (Inode.decode ino f) = some inode ∧ inode.Shows g) ↔ SameFields f' g := by
  have fields := SameFields.of_bytes same
  constructor
  · rintro ⟨inode, found, agrees⟩
    obtain rfl := Option.some.inj found
    exact fields.symm.trans (shows_decode.mp agrees)
  · intro agrees
    exact ⟨_, rfl, shows_decode.mpr (fields.trans agrees)⟩

/-! ### The way the code takes -/

section Stray

variable (img : Nat → UInt8)

/-- Where the inode table of a group is read with descriptors of 38 bytes: the block, and the
place in it. -/
def strayBlock (group : Nat) : Nat :=
  firstDataBlockOf img + 1 + group / (blockSizeOf img / groupDescSize)

def strayAt (group : Nat) : Nat := group % (blockSizeOf img / groupDescSize) * groupDescSize + 8

/-- The block that is then taken for that of the inode, in 32 bits. -/
def strayInodeBlock (ino : Nat) : Nat :=
  ((u32At img (strayBlock img (groupOf img ino) * blockSizeOf img + strayAt img (groupOf img ino))).toNat +
    offsetOf img ino / blockSizeOf img) % 2 ^ 32

/-- The place the code comes to is on the volume and shows the same inode. -/
structure Leads (ino : Nat) : Prop where
  descriptor : strayBlock img (groupOf img ino) < blocksCountOf img
  first : strayInodeBlock img ino < blocksCountOf img
  second : blockSizeOf img < offsetOf img ino % blockSizeOf img + diskInodeSize →
    strayInodeBlock img ino + 1 < blocksCountOf img
  same : SameFields
    (fun k => img (strayInodeBlock img ino * blockSizeOf img + offsetOf img ino % blockSizeOf img + k))
    (fun k => img (slotOf img ino + k))

end Stray

/-! ### Mounting an image in the format -/

section Mounted

variable {img : Nat → UInt8} {fs : Ext2State}

/-- The volume has the geometry of the image. -/
structure Describes (img : Nat → UInt8) (fs : Ext2State) : Prop where
  mounted : fs.mounted = true
  blockSize : fs.blockSize.toNat = blockSizeOf img
  blockSizeLow : 1024 ≤ blockSizeOf img
  blockSizeHigh : blockSizeOf img ≤ 4096
  blocksCount : fs.blocksCount.toNat = blocksCountOf img
  groupsPos : 0 < blocksPerGroupOf img
  inodesPos : 0 < inodesPerGroupOf img
  inodesPerGroup : fs.inodesPerGroup.toNat = inodesPerGroupOf img
  inodeSize : fs.inodeSize.toNat = inodeSizeOf img
  inodeSizeLow : 128 ≤ inodeSizeOf img
  inodeSizeHigh : inodeSizeOf img ≤ blockSizeOf img
  groupDescBlock : fs.groupDescBlock.toNat = firstDataBlockOf img + 1
  groups : groupsOf img ≤ fs.groups.toNat

theorem Conforming.sectors (format : Conforming img) :
    blockSizeOf img = 512 * (blockSizeOf img / 512) := by
  unfold blockSizeOf
  omega

/-- The groups the mount counts are all groups of the format. -/
theorem groupsOf_le {count perGroup first : UInt32} (pos : 0 < perGroup.toNat)
    (small : count.toNat + perGroup.toNat ≤ 2 ^ 32) :
    (count.toNat - first.toNat + perGroup.toNat - 1) / perGroup.toNat ≤
      ((count + perGroup - 1) / perGroup).toNat := by
  have sum : (count + perGroup - 1).toNat = count.toNat + perGroup.toNat - 1 := by
    rw [UInt32.toNat_sub, UInt32.toNat_add]
    have one : (1 : UInt32).toNat = 1 := rfl
    omega
  rw [UInt32.toNat_div, sum]
  exact Nat.div_le_div_right (by omega)

theorem stateOf_describes {drive : Int} {e : MbrEntry} {behind f : Nat → UInt8}
    (built : stateOf drive e behind f = some fs) (format : Conforming img)
    (super : ∀ k, k < 512 → f k = img (1024 + k)) : Describes img fs := by
  have word : ∀ off, off + 4 ≤ 512 → u32At f off = u32At img (1024 + off) := fun off inside =>
    u32At_congr fun k less => by
      rw [super (off + k) (by omega), Nat.add_assoc]
  have half : u16At f 88 = u16At img 1112 := u16At_congr fun k less => by
    rw [super (88 + k) (by omega), ← Nat.add_assoc]
  obtain ⟨accepted, rfl⟩ := stateOf_some built
  obtain ⟨-, sizes, inodes, -, blocks⟩ := accepted
  rw [word 24 (by omega), word 32 (by omega), word 40 (by omega)] at sizes
  rw [half, word 24 (by omega)] at inodes
  rw [word 4 (by omega), word 24 (by omega)] at blocks
  have log := format.logBlockSize
  have size : ((1024 : UInt32) <<< u32At img 1048).toNat = blockSizeOf img := by
    rw [UInt32.toNat_shiftLeft, Nat.shiftLeft_eq]
    unfold blockSizeOf
    have power : 2 ^ logBlockSizeOf img ≤ 2 ^ 6 := Nat.pow_le_pow_right (by omega) log
    have exponent : (u32At img 1048).toNat % 32 = logBlockSizeOf img :=
      Nat.mod_eq_of_lt (by unfold logBlockSizeOf at log; omega)
    rw [exponent]
    exact Nat.mod_eq_of_lt (by
      show 1024 * 2 ^ logBlockSizeOf img < 2 ^ 32
      omega)
  simp only [not_or, gt_iff_lt, UInt32.lt_iff_toNat_lt, size] at sizes
  obtain ⟨low, high, groups, perGroup⟩ := sizes
  have low : 1024 ≤ blockSizeOf img := Nat.not_lt.mp low
  have high : blockSizeOf img ≤ 4096 := Nat.not_lt.mp high
  have groupsPos : 0 < blocksPerGroupOf img :=
    Nat.pos_of_ne_zero fun zero => groups (UInt32.toNat_inj.mp zero)
  have inodesPos : 0 < inodesPerGroupOf img :=
    Nat.pos_of_ne_zero fun zero => perGroup (UInt32.toNat_inj.mp zero)
  have inodeSize : (if u16At f 88 ≠ 0 then (u16At f 88).toUInt32 else 128).toNat = inodeSizeOf img := by
    rw [half]
    unfold inodeSizeOf
    by_cases given : u16At img 1112 = 0
    · rw [if_pos given, if_neg (not_not.mpr given)]
      rfl
    · rw [if_neg given, if_pos given]
      rfl
  have range : 128 ≤ inodeSizeOf img ∧ inodeSizeOf img ≤ blockSizeOf img := by
    unfold inodeSizeOf
    split
    · omega
    · rename_i given
      have bounds := not_and.mp inodes given
      simp only [not_or, gt_iff_lt, UInt32.lt_iff_toNat_lt, UInt16.lt_iff_toNat_lt, size] at bounds
      exact ⟨Nat.not_lt.mp bounds.1, Nat.not_lt.mp bounds.2⟩
  have count : blocksCountOf img * (blockSizeOf img / 512) ≤ e.sectorCount.toNat := by
    simp only [not_or, gt_iff_lt, UInt32.toNat_div, size] at blocks
    exact Nat.not_lt.mp blocks.2
  have perSector : 2 ≤ blockSizeOf img / 512 := by omega
  have twice := Nat.mul_le_mul_left (blocksCountOf img) perSector
  have sectors := e.sectorCount.toNat_lt
  have perGroupHigh := format.blocksPerGroup
  exact
    { mounted := rfl
      blockSize := by
        show ((1024 : UInt32) <<< u32At f 24).toNat = blockSizeOf img
        rw [word 24 (by omega)]
        exact size
      blockSizeLow := low
      blockSizeHigh := high
      blocksCount := by
        show (u32At f 4).toNat = blocksCountOf img
        rw [word 4 (by omega)]
        rfl
      groupsPos := groupsPos
      inodesPos := inodesPos
      inodesPerGroup := by
        show (u32At f 40).toNat = inodesPerGroupOf img
        rw [word 40 (by omega)]
        rfl
      inodeSize := inodeSize
      inodeSizeLow := range.1
      inodeSizeHigh := range.2
      groupDescBlock := by
        show (u32At f 20 + 1).toNat = firstDataBlockOf img + 1
        have first : (u32At f 20).toNat = firstDataBlockOf img := by
          rw [word 20 (by omega)]
          rfl
        have few : 1024 / blockSizeOf img ≤ 1024 := Nat.div_le_self _ _
        have one : (1 : UInt32).toNat = 1 := rfl
        rw [UInt32.toNat_add, first, one]
        have atMost := format.firstDataBlock
        omega
      groups := by
        show groupsOf img ≤ ((u32At f 4 + u32At f 32 - 1) / u32At f 32).toNat
        rw [word 4 (by omega), word 32 (by omega)]
        exact groupsOf_le groupsPos (by
          show blocksCountOf img + blocksPerGroupOf img ≤ 2 ^ 32
          omega) }

end Mounted

/-! ### Reading -/

/-- The drive answers for all sectors of the partition. -/
def Readable (w : World) (drive : Int) (e : MbrEntry) : Prop :=
  ∀ n, n < e.sectorCount.toNat → diskAnswers w.drives drive (e.lbaStart + UInt32.ofNat n)

theorem diskRead_value {w : World} {drive : Int} {lba : UInt32} {n : Nat}
    (answers : ∀ i, i < n → diskAnswers w.drives drive (lba + UInt32.ofNat i)) :
    ∃ secs, (diskRead drive lba n).run.value w = some secs ∧ (diskRead drive lba n).run.after w = w ∧
      ∀ i, i < n → secs.getD i (Block.zero 512) = w.disk (drive, lba28 (lba + UInt32.ofNat i)) := by
  induction n generalizing lba with
  | zero => exact ⟨[], rfl, rfl, fun i less => absurd less (Nat.not_lt_zero i)⟩
  | succ n ih =>
    have here : (diskReadOne drive lba).run.value w = some (w.disk (drive, lba28 lba)) := by
      have zero := answers 0 (Nat.succ_pos n)
      rw [show lba + UInt32.ofNat 0 = lba by simp] at zero
      show diskReadSector w.drives w.disk drive lba = _
      rw [diskReadSector_eq, if_pos zero]
    obtain ⟨secs, value, after, sectors⟩ := ih fun i less => by
      rw [← ofNat_add_one_from]
      exact answers (i + 1) (Nat.succ_lt_succ less)
    refine ⟨w.disk (drive, lba28 lba) :: secs, ?_, ?_, fun i less => ?_⟩
    · unfold diskRead
      rw [Io.value_bind_of_some here]
      show (diskRead drive (lba + 1) n >>= fun secs => pure (w.disk (drive, lba28 lba) :: secs)).run.value w = _
      rw [Io.value_bind_of_some value]
      rfl
    · unfold diskRead
      rw [Io.after_bind_of_some here]
      show (diskRead drive (lba + 1) n >>= fun secs => pure (w.disk (drive, lba28 lba) :: secs)).run.after w = _
      rw [Io.after_bind_of_some value, after]
      rfl
    · cases i with
      | zero => simp
      | succ i =>
        rw [ofNat_add_one_from]
        exact sectors i (Nat.lt_of_succ_lt_succ less)

/-- The sector the mount reads holds the superblock. -/
theorem superblock_bytes {w : World} {drive : Int} {e : MbrEntry} {secs : List Sector}
    (super : (diskRead drive (e.lbaStart + 2) 1).run.value w = some secs) {k : Nat} (less : k < 512) :
    bytesOf secs k = image w drive e (1024 + k) := by
  obtain ⟨sec, here, done⟩ := Io.value_of_bind super
  obtain ⟨none, rest, done⟩ := Io.value_of_bind done
  obtain rfl := Option.some.inj done
  have content : w.disk (drive, lba28 (e.lbaStart + 2)) = sec := by
    have read : diskReadSector w.drives w.disk drive (e.lbaStart + 2) = some sec := here
    rw [diskReadSector_eq] at read
    split at read
    · exact Option.some.inj read
    · cases read
  unfold bytesOf image
  rw [show k / 512 = 0 by omega, show (1024 + k) / 512 = 2 by omega, show (1024 + k) % 512 = k % 512 by omega,
    List.getD_cons_zero, ← content]
  rfl

section Blocks

variable {w : World} {drive : Int} {e : MbrEntry} {fs : Ext2State} {img : Nat → UInt8}

/-- The volume of the image is mounted, and the drive answers for it. -/
structure Serves (w : World) (drive : Int) (e : MbrEntry) (fs : Ext2State) (img : Nat → UInt8) :
    Prop where
  shown : image w drive e = img
  readable : Readable w drive e
  format : Conforming img
  geometry : Describes img fs
  fits : Fits fs drive e.lbaStart.toNat e.sectorCount.toNat

/-- What is mounted serves its image. -/
theorem serves_of_mount {behind : Nat → UInt8} {part : Int}
    (mounted : (ext2MountPartition behind drive part).run.value w = some fs) {i : Fin 4}
    (this : (i.val : Int) = part)
    (format : Conforming (image w drive ((mbrRead w drive mbrInitEmpty).1.entries i)))
    (readable : Readable w drive ((mbrRead w drive mbrInitEmpty).1.entries i)) :
    Serves w drive ((mbrRead w drive mbrInitEmpty).1.entries i) fs
      (image w drive ((mbrRead w drive mbrInitEmpty).1.entries i)) := by
  obtain ⟨secs, valid, sectors, super, built⟩ := mount_found mounted this
  have used := type_ne_empty (entryValid_of_validate valid i) sectors
  have onDrive := (Accepted.of_validate valid).onDrive i used
  have small := (w.drives drive).sectors.toNat_lt
  exact ⟨rfl, readable, format,
    stateOf_describes built format fun k less => superblock_bytes super less,
    stateOf_fits built (by omega)⟩

theorem readBlock_value (serves : Serves w drive e fs img) {b : UInt32}
    (block : b.toNat < blocksCountOf img) :
    ∃ f, (readBlock fs b).run.value w = some f ∧ (readBlock fs b).run.after w = w ∧
      ∀ k, k < blockSizeOf img →
        f k = img (b.toNat * blockSizeOf img + k) := by
  obtain ⟨shown, readable, format, geometry, fits⟩ := serves
  have whole := format.sectors
  have perBlock : (sectorsPerBlock fs).toNat = blockSizeOf img / 512 := by
    unfold sectorsPerBlock
    rw [UInt32.toNat_div, geometry.blockSize]
    rfl
  have start : fs.partLba = e.lbaStart := UInt32.toNat_inj.mp fits.first
  have sector : ∀ i, fs.partLba + b * sectorsPerBlock fs + UInt32.ofNat i =
      e.lbaStart + UInt32.ofNat (b.toNat * (blockSizeOf img / 512) + i) := by
    intro i
    rw [UInt32.ofNat_add, UInt32.ofNat_mul, UInt32.ofNat_toNat, ← perBlock, UInt32.ofNat_toNat, start,
      UInt32.add_assoc]
  have accepted : ¬(fs.mounted = false ∨ fs.blockSize < 1024 ∨ fs.blockSize > 4096 ∨
      b ≥ fs.blocksCount) := by
    simp only [not_or, not_lt, ge_iff_le, not_le, gt_iff_lt, UInt32.le_iff_toNat_le,
      UInt32.lt_iff_toNat_lt, geometry.blockSize, geometry.blocksCount, geometry.mounted]
    exact ⟨Bool.noConfusion, geometry.blockSizeLow, geometry.blockSizeHigh, block⟩
  have total := fits.blocks
  rw [perBlock, geometry.blocksCount] at total
  have below := Nat.mul_le_mul_right (blockSizeOf img / 512) (Nat.succ_le_of_lt block)
  rw [Nat.succ_mul] at below
  have answers : ∀ i, i < (sectorsPerBlock fs).toNat → diskAnswers w.drives fs.drive
      (fs.partLba + b * sectorsPerBlock fs + UInt32.ofNat i) := fun i less => by
    rw [sector, fits.onDrive]
    exact readable _ (by omega)
  obtain ⟨secs, value, after, sectors⟩ := diskRead_value answers
  unfold readBlock
  rw [if_neg accepted]
  refine ⟨_, Io.value_bind_of_some value, ?_, fun k less => ?_⟩
  · rw [Io.after_bind_of_some value, after]
    rfl
  · show (if k < fs.blockSize.toNat then bytesOf secs k else fs.behind k) = _
    rw [geometry.blockSize, if_pos less]
    have place : b.toNat * blockSizeOf img + k =
        512 * (b.toNat * (blockSizeOf img / 512)) + k := by
      rw [← Nat.mul_assoc, Nat.mul_comm 512, Nat.mul_assoc, ← whole]
    rw [place]
    unfold bytesOf
    rw [sectors _ (by omega), sector, fits.onDrive, ← shown]
    unfold image
    rw [Nat.mul_add_div (by omega), Nat.mul_add_mod]

theorem readBlock_none (w : World) (geometry : Describes img fs) {b : UInt32}
    (block : ¬b.toNat < blocksCountOf img) :
    (readBlock fs b).run.value w = none := by
  have beyond : b ≥ fs.blocksCount := by
    rw [ge_iff_le, UInt32.le_iff_toNat_le, geometry.blocksCount]
    omega
  unfold readBlock
  rw [if_pos (.inr (.inr (.inr beyond)))]
  rfl

/-- When the inode at a place is one with the fields `g`. -/
theorem inodeAt_iff (serves : Serves w drive e fs img) {ino b : UInt32} {boff : Nat}
    (inBlock : boff < blockSizeOf img) (g : Nat → UInt8) :
    (∃ inode, (inodeAt fs ino b boff).run.value w = some inode ∧ inode.Shows g) ↔
      b.toNat < blocksCountOf img ∧
      (blockSizeOf img < boff + diskInodeSize →
        b.toNat + 1 < blocksCountOf img) ∧
      SameFields (fun k => img (b.toNat * blockSizeOf img + boff + k)) g := by
  have geometry := serves.geometry
  have fits := serves.fits
  have low := geometry.blockSizeLow
  have next : b.toNat < blocksCountOf img → (b + 1).toNat = b.toNat + 1 := by
    intro block
    have total := fits.blocks
    have sectors := e.sectorCount.toNat_lt
    have one : (1 : UInt32).toNat = 1 := rfl
    have some := Nat.le_mul_of_pos_right fs.blocksCount.toNat
      (m := (sectorsPerBlock fs).toNat)
    have positive : 0 < (sectorsPerBlock fs).toNat := by
      unfold sectorsPerBlock
      rw [UInt32.toNat_div, geometry.blockSize]
      show 0 < _ / 512
      omega
    have few := some positive
    rw [geometry.blocksCount] at few total
    rw [UInt32.toNat_add, one]
    omega
  unfold inodeAt
  by_cases block : b.toNat < blocksCountOf img
  · obtain ⟨raw, value, after, bytes⟩ := readBlock_value serves block
    rw [Io.value_bind_of_some value, after, geometry.blockSize]
    by_cases crossing : blockSizeOf img < boff + diskInodeSize
    · rw [if_pos crossing]
      by_cases block' : b.toNat + 1 < blocksCountOf img
      · obtain ⟨raw', value', after', bytes'⟩ := readBlock_value serves
          (show (b + 1).toNat < _ by rwa [next block])
        rw [Io.value_bind_of_some value', after']
        refine (decoded_iff fun k less => ?_).trans
          ⟨fun fields => ⟨block, fun _ => block', fields⟩, fun h => h.2.2⟩
        by_cases here : k < blockSizeOf img - boff
        · rw [if_pos here, bytes _ (by omega), Nat.add_assoc]
        · have less : k < 128 := less
          rw [if_neg here, bytes' _ (by omega), next block, Nat.succ_mul]
          congr 1
          omega
      · have failed := readBlock_none w geometry (b := b + 1) (by rwa [next block])
        rw [Io.value_bind_of_none failed]
        constructor
        · rintro ⟨inode, found, -⟩
          cases found
        · intro ⟨_, second, _⟩
          exact absurd (second crossing) block'
    · rw [if_neg crossing]
      refine (decoded_iff fun k less => ?_).trans
        ⟨fun fields => ⟨block, fun over_ => absurd over_ crossing, fields⟩, fun h => h.2.2⟩
      rw [bytes _ (by omega), Nat.add_assoc]
  · rw [Io.value_bind_of_none (readBlock_none w geometry block)]
    constructor
    · rintro ⟨inode, found, -⟩
      cases found
    · intro ⟨first, _⟩
      exact absurd first block

/-- The numbers the code computes for an inode, and what it looks up for it. -/
theorem inodeGet_value (serves : Serves w drive e fs img) {ino : UInt32}
    (positive : 1 ≤ ino.toNat) (known : ino.toNat ≤ inodesCountOf img)
    (g : Nat → UInt8) :
    (∃ inode, (inodeGet fs ino).run.value w = some inode ∧ inode.Shows g) ↔
      strayBlock img (groupOf img ino.toNat) <
        blocksCountOf img ∧
      ∃ inode, (inodeAt fs ino
        (UInt32.ofNat (strayInodeBlock img ino.toNat))
        (offsetOf img ino.toNat % blockSizeOf img)).run.value w =
          some inode ∧ inode.Shows g := by
  have geometry := serves.geometry
  have format := serves.format
  have high := geometry.blockSizeHigh
  have low := geometry.blockSizeLow
  have one : (1 : UInt32).toNat = 1 := rfl
  have before : (ino - 1).toNat = ino.toNat - 1 :=
    UInt32.toNat_sub_of_le _ _ (UInt32.le_iff_toNat_le.mpr positive)
  have group : ((ino - 1) / fs.inodesPerGroup).toNat = groupOf img ino.toNat := by
    rw [UInt32.toNat_div, before, geometry.inodesPerGroup]
    rfl
  have offset : ((ino - 1) % fs.inodesPerGroup * fs.inodeSize).toNat =
      offsetOf img ino.toNat := by
    rw [UInt32.toNat_mul, UInt32.toNat_mod, before, geometry.inodesPerGroup, geometry.inodeSize]
    refine Nat.mod_eq_of_lt ?_
    have index := Nat.mod_lt (ino.toNat - 1) geometry.inodesPos
    have few := format.inodesPerGroup
    have small := geometry.inodeSizeHigh
    calc (ino.toNat - 1) % inodesPerGroupOf img * inodeSizeOf img
        ≤ 32768 * 4096 := Nat.mul_le_mul (by omega) (by omega)
      _ < 2 ^ 32 := by omega
  have per : (fs.blockSize / 38).toNat = blockSizeOf img / groupDescSize := by
    rw [UInt32.toNat_div, geometry.blockSize]
    rfl
  have perPos : 26 ≤ blockSizeOf img / groupDescSize := by
    show 26 ≤ blockSizeOf img / 38
    omega
  have groupLess : groupOf img ino.toNat < groupsOf img := by
    refine Nat.div_lt_of_lt_mul ?_
    have total := format.inodesCount
    omega
  have block : (fs.groupDescBlock + (ino - 1) / fs.inodesPerGroup / (fs.blockSize / 38)).toNat =
      strayBlock img (groupOf img ino.toNat) := by
    have wide := ino.toNat_lt
    have groupSmall : groupOf img ino.toNat ≤ ino.toNat - 1 := Nat.div_le_self _ _
    have quotient : groupOf img ino.toNat /
        (blockSizeOf img / groupDescSize) ≤ groupOf img ino.toNat / 26 :=
      Nat.div_le_div_left perPos (by omega)
    have first := format.firstDataBlock
    have few : 1024 / blockSizeOf img ≤ 1024 := Nat.div_le_self _ _
    rw [UInt32.toNat_add, UInt32.toNat_div, group, per, geometry.groupDescBlock]
    exact Nat.mod_eq_of_lt (by omega)
  have accepted : ¬(fs.mounted = false ∨ ino = 0 ∨ (ino - 1) / fs.inodesPerGroup ≥ fs.groups ∨
      fs.blockSize / 38 = 0) := by
    have groups := geometry.groups
    simp only [not_or, ge_iff_le, UInt32.le_iff_toNat_le, ← UInt32.toNat_inj, group, per,
      geometry.mounted]
    refine ⟨Bool.noConfusion, ?_, by omega, ?_⟩
    · show ino.toNat ≠ 0
      omega
    · show blockSizeOf img / groupDescSize ≠ 0
      omega
  unfold inodeGet
  dsimp only
  rw [if_neg accepted]
  by_cases descriptor : strayBlock img (groupOf img ino.toNat) <
      blocksCountOf img
  · obtain ⟨gdblk, value, after, bytes⟩ := readBlock_value serves
      (show (fs.groupDescBlock + (ino - 1) / fs.inodesPerGroup / (fs.blockSize / 38)).toNat < _ by
        rwa [block])
    have place : ((ino - 1) / fs.inodesPerGroup % (fs.blockSize / 38)).toNat * groupDescSize + 8 =
        strayAt img (groupOf img ino.toNat) := by
      rw [UInt32.toNat_mod, group, per]
      rfl
    have inBlock : strayAt img (groupOf img ino.toNat) + 4 ≤
        blockSizeOf img := by
      have slot := Nat.mod_lt (groupOf img ino.toNat)
        (show 0 < blockSizeOf img / groupDescSize by omega)
      have whole := Nat.div_mul_le_self (blockSizeOf img) groupDescSize
      have last := Nat.mul_le_mul_right groupDescSize slot
      have size : groupDescSize = 38 := rfl
      unfold strayAt
      rw [Nat.succ_mul] at last
      omega
    have table : u32At gdblk (strayAt img (groupOf img ino.toNat)) =
        u32At img
          (strayBlock img (groupOf img ino.toNat) *
            blockSizeOf img +
            strayAt img (groupOf img ino.toNat)) :=
      u32At_congr fun k less => by rw [bytes _ (by omega), block, Nat.add_assoc]
    have inode : u32At gdblk (strayAt img (groupOf img ino.toNat)) +
        (ino - 1) % fs.inodesPerGroup * fs.inodeSize / fs.blockSize =
        UInt32.ofNat (strayInodeBlock img ino.toNat) := by
      apply UInt32.toNat_inj.mp
      rw [UInt32.toNat_add, UInt32.toNat_div, offset, geometry.blockSize, table, UInt32.toNat_ofNat']
      exact (Nat.mod_mod _ _).symm
    have rest : ((ino - 1) % fs.inodesPerGroup * fs.inodeSize % fs.blockSize).toNat =
        offsetOf img ino.toNat % blockSizeOf img := by
      rw [UInt32.toNat_mod, offset, geometry.blockSize]
    rw [Io.value_bind_of_some value, after, place, inode, rest]
    exact ⟨fun found => ⟨descriptor, found⟩, fun h => h.2⟩
  · have failed := readBlock_none w geometry
      (show ¬(fs.groupDescBlock + (ino - 1) / fs.inodesPerGroup / (fs.blockSize / 38)).toNat < _ by
        rwa [block])
    rw [Io.value_bind_of_none failed]
    constructor
    · rintro ⟨inode, found, -⟩
      cases found
    · intro ⟨first, _⟩
      exact absurd first descriptor

end Blocks

/-- **Where the code finds inodes.** On an image in the format, the fields stored in the slot of
an inode are returned exactly where the word that is read with a stride of 38 bytes leads to
bytes with the same fields. -/
theorem inodeGet_iff {behind : Nat → UInt8} {drive part : Int} {w : World} {fs : Ext2State}
    (mounted : (ext2MountPartition behind drive part).run.value w = some fs) {i : Fin 4}
    (this : (i.val : Int) = part)
    (format : Conforming (image w drive ((mbrRead w drive mbrInitEmpty).1.entries i)))
    (readable : Readable w drive ((mbrRead w drive mbrInitEmpty).1.entries i)) {ino : UInt32}
    (positive : 1 ≤ ino.toNat)
    (known : ino.toNat ≤
      inodesCountOf (image w drive ((mbrRead w drive mbrInitEmpty).1.entries i))) :
    (∃ inode, (inodeGet fs ino).run.value w = some inode ∧ inode.Shows fun k =>
      image w drive ((mbrRead w drive mbrInitEmpty).1.entries i)
        (slotOf (image w drive ((mbrRead w drive mbrInitEmpty).1.entries i)) ino.toNat + k)) ↔
      Leads (image w drive ((mbrRead w drive mbrInitEmpty).1.entries i)) ino.toNat := by
  have serves := serves_of_mount mounted this format readable
  have low := serves.geometry.blockSizeLow
  rw [inodeGet_value serves positive known, inodeAt_iff serves (Nat.mod_lt _ (by omega)),
    UInt32.toNat_ofNat', Nat.mod_eq_of_lt (show strayInodeBlock _ _ < 2 ^ 32 from Nat.mod_lt _ (by omega))]
  constructor
  · rintro ⟨descriptor, first, second, same⟩
    exact ⟨descriptor, first, second, same⟩
  · intro leads
    exact ⟨leads.descriptor, leads.first, leads.second, leads.same⟩

/-! ### The image of two groups -/

/-- The entry of the volume. -/
def twoGroupsEntry : MbrEntry := (mbrRead twoGroups 0 mbrInitEmpty).1.entries 0

theorem twoGroups_conforming : Conforming (image twoGroups 0 twoGroupsEntry) := by
  have blockSize : blockSizeOf (image twoGroups 0 twoGroupsEntry) = 1024 := by decide
  have groups : groupsOf (image twoGroups 0 twoGroupsEntry) = 2 := by decide +kernel
  exact
    { logBlockSize := by decide +kernel
      firstDataBlock := by decide +kernel
      blocksPerGroup := by decide +kernel
      inodesPerGroup := by decide
      inodesCount := by decide
      descriptors := by decide
      tables := by
        rw [groups]
        decide }

theorem twoGroups_readable : Readable twoGroups 0 twoGroupsEntry :=
  fun _ _ => ⟨by decide, by decide, rfl, rfl⟩

theorem inodeGet_iff_root :
    (∃ inode, (inodeGet (((ext2MountPartition (fun _ => 0) 0 0).run.value twoGroups).get
      twoGroups_mounts) 2).run.value twoGroups = some inode ∧ inode.Shows fun k =>
        image twoGroups 0 twoGroupsEntry
          (slotOf (image twoGroups 0 twoGroupsEntry) (2 : UInt32).toNat + k)) ↔
      Leads (image twoGroups 0 twoGroupsEntry) (2 : UInt32).toNat :=
  inodeGet_iff (Option.some_get twoGroups_mounts).symm rfl twoGroups_conforming twoGroups_readable
    (by decide) (by decide)

/-- Inode 9 of an image in the format is a regular file, and comes back as nothing of the kind. -/
theorem second_group_lost : Conforming (image twoGroups 0 twoGroupsEntry) ∧
    Readable twoGroups 0 twoGroupsEntry ∧ 9 ≤ inodesCountOf (image twoGroups 0 twoGroupsEntry) ∧
    ¬∃ inode, (inodeGet (((ext2MountPartition (fun _ => 0) 0 0).run.value twoGroups).get
      twoGroups_mounts) 9).run.value twoGroups = some inode ∧ inode.Shows fun k =>
        image twoGroups 0 twoGroupsEntry (slotOf (image twoGroups 0 twoGroupsEntry) 9 + k) := by
  refine ⟨twoGroups_conforming, twoGroups_readable, by decide, ?_⟩
  rintro ⟨inode, found, agrees⟩
  have returned : ((inodeGet (((ext2MountPartition (fun _ => 0) 0 0).run.value twoGroups).get
      twoGroups_mounts) 9).run.value twoGroups).map Inode.mode = some 0 := by decide
  have stored : u16At (fun k => image twoGroups 0 twoGroupsEntry
      (slotOf (image twoGroups 0 twoGroupsEntry) 9 + k)) 0 = 0x81A4 := by decide
  rw [found, Option.map_some, agrees.mode, stored] at returned
  cases returned

end AtmKoala.Ext2
