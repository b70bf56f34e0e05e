import AtmKoala.Lib.Access
import AtmKoala.Lib.Requests
import AtmKoala.Partmgr

/-!
Ext2 volumes: `ext2.c`.

The functions act on the drives and record each sector they ask for. A buffer is the stream of
its bytes. `ext2State.behind` is what lies behind a block in the buffers: the code does not
check that the name of a directory entry ends inside its block.

Left out are the texts of errors, the fields of the superblock that nothing here reads, and
what a read that fails has copied before. The flush behind a write is taken to succeed.
-/

namespace AtmKoala.Ext2

open Lib Partmgr
open Catfs (World)

/-- A sector that is read or written. -/
structure Request where
  drive : Int
  lba : UInt32
  write : Bool

abbrev Act (α : Type) : Type := Io Request World α

/-- A function that may fail. -/
abbrev Try (α : Type) : Type := OptionT (Io Request World) α

/-! ### Sectors -/

def diskReadOne (drive : Int) (lba : UInt32) : Try Sector := OptionT.mk fun w =>
  (diskReadSector w.drives w.disk drive lba, w, [⟨drive, lba, false⟩])

def diskWriteOne (drive : Int) (lba : UInt32) (sec : Sector) : Try Unit := OptionT.mk fun w =>
  (if diskWritable w.drives drive lba then some () else none,
    if diskWritable w.drives drive lba then
      { w with
        disk := Function.update w.disk (drive, lba28 lba) sec
        issued := w.issued ++ [((drive, lba28 lba), sec)] }
    else w,
    [⟨drive, lba, true⟩])

/-- `disk_read`: the sectors, or the error at the first one that fails. -/
def diskRead (drive : Int) : UInt32 → Nat → Try (List Sector)
  | _, 0 => pure []
  | lba, n + 1 => do
    let sec ← diskReadOne drive lba
    let secs ← diskRead drive (lba + 1) n
    pure (sec :: secs)

/-- `disk_write` of the bytes `f`, a sector at a time. -/
def diskWrite (drive : Int) (f : Nat → UInt8) : UInt32 → Nat → Nat → Try Unit
  | _, _, 0 => pure ()
  | lba, i, n + 1 => do
    diskWriteOne drive lba fun k => f (i * 512 + k.val)
    diskWrite drive f (lba + 1) (i + 1) n

/-- The bytes of sectors in a row. -/
def bytesOf (secs : List Sector) (k : Nat) : UInt8 := (secs.getD (k / 512) (Block.zero 512)).byteAt (k % 512)

/-! ### Volumes -/

/-- `ext2_state_t`. -/
structure Ext2State where
  mounted : Bool
  drive : Int
  partLba : UInt32
  blockSize : UInt32
  blocksPerGroup : UInt32
  inodesPerGroup : UInt32
  inodeSize : UInt32
  groupDescBlock : UInt32
  groups : UInt32
  blocksCount : UInt32
  inodesCount : UInt32
  featureCompat : UInt32
  fsState : UInt16
  writeEnabled : Bool
  behind : Nat → UInt8

/-- `ext2_inode_t`. -/
structure Inode where
  inode : UInt32
  mode : UInt16
  linksCount : UInt16
  size : UInt32
  blocks : UInt32
  block : Fin 15 → UInt32

/-- The size of `ext2_disk_inode_t`. -/
def diskInodeSize : Nat := 128

/-- The size of `ext2_gd_t`: its last counts are words of 32 bits, and 14 bytes follow. -/
def groupDescSize : Nat := 38

/-- The fields of an `ext2_disk_inode_t`. -/
def Inode.decode (ino : UInt32) (f : Nat → UInt8) : Inode where
  inode := ino
  mode := u16At f 0
  size := u32At f 4
  linksCount := u16At f 26
  blocks := u32At f 28
  block i := u32At f (40 + 4 * i.val)

def ifMask : UInt16 := 0xF000
def ifReg : UInt16 := 0x8000
def ifDir : UInt16 := 0x4000
def ifLnk : UInt16 := 0xA000

variable (fs : Ext2State)

def sectorsPerBlock : UInt32 := fs.blockSize / 512

/-- `read_block`. -/
def readBlock (b : UInt32) : Try (Nat → UInt8) :=
  if fs.mounted = false ∨ fs.blockSize < 1024 ∨ fs.blockSize > 4096 ∨ b ≥ fs.blocksCount then failure
  else do
    let secs ← diskRead fs.drive (fs.partLba + b * sectorsPerBlock fs) (sectorsPerBlock fs).toNat
    pure fun k => if k < fs.blockSize.toNat then bytesOf secs k else fs.behind k

/-- `write_block`. -/
def writeBlock (b : UInt32) (f : Nat → UInt8) : Try Unit :=
  if fs.mounted = false ∨ fs.writeEnabled = false ∨ b ≥ fs.blocksCount then failure
  else diskWrite fs.drive f (fs.partLba + b * sectorsPerBlock fs) 0 (sectorsPerBlock fs).toNat

/-- The inode at byte `boff` of a block; it may run over into the next one. -/
def inodeAt (ino block : UInt32) (boff : Nat) : Try Inode := do
  let raw ← readBlock fs block
  if boff + diskInodeSize > fs.blockSize.toNat then
    let next ← readBlock fs (block + 1)
    let first := fs.blockSize.toNat - boff
    pure (Inode.decode ino fun k => if k < first then raw (boff + k) else next (k - first))
  else pure (Inode.decode ino fun k => raw (boff + k))

/-- `inode_get`. -/
def inodeGet (ino : UInt32) : Try Inode :=
  let group := (ino - 1) / fs.inodesPerGroup
  let off := (ino - 1) % fs.inodesPerGroup * fs.inodeSize
  let per := fs.blockSize / 38
  if fs.mounted = false ∨ ino = 0 ∨ group ≥ fs.groups ∨ per = 0 then failure
  else do
    let gdblk ← readBlock fs (fs.groupDescBlock + group / per)
    let inodeTable := u32At gdblk ((group % per).toNat * groupDescSize + 8)
    inodeAt fs ino (inodeTable + off / fs.blockSize) (off % fs.blockSize).toNat

/-- Entry `k` of the block of pointers `b`; there is no block 0. -/
def pointerAt (b : UInt32) (k : Nat) : Try UInt32 :=
  if b = 0 then pure 0
  else do
    let f ← readBlock fs b
    pure (u32At f (k * 4))

/-- `file_block`: the block behind logical block `logical`, 0 where there is a hole. -/
def fileBlock (inode : Inode) (logical : UInt32) : Try UInt32 :=
  let n := fs.blockSize.toNat / 4
  if n = 0 then failure
  else if direct : logical.toNat < 12 then pure (inode.block ⟨logical.toNat, by omega⟩)
  else
    let p := logical.toNat - 12
    if p < n then pointerAt fs (inode.block 12) p
    else
      let p := p - n
      if p < n * n then do
        let a ← pointerAt fs (inode.block 13) (p / n)
        pointerAt fs a (p % n)
      else
        let p := p - n * n
        if p < n * n * n then do
          let a ← pointerAt fs (inode.block 14) (p / (n * n))
          let b ← pointerAt fs a (p % (n * n) / n)
          pointerAt fs b (p % (n * n) % n)
        else failure

/-! ### Directories -/

/-- The head of a directory entry: inode, record length, name length and type. -/
structure DirEntry where
  ino : UInt32
  recLen : Nat
  len : Nat
  type : UInt8

def DirEntry.at (f : Nat → UInt8) (pos : Nat) : DirEntry where
  ino := u32At f pos
  recLen := (u16At f (pos + 4)).toNat
  len := (f (pos + 6)).toNat
  type := f (pos + 7)

/-- The bytes of the name of the entry at `pos`. -/
def nameAt (f : Nat → UInt8) (pos len : Nat) : Bytes := (List.range len).map fun k => f (pos + 8 + k)

/-- The entries of a directory block from `pos` on, and whether the block is in order. -/
def dirEntries (f : Nat → UInt8) (size pos : Nat) : List (Nat × DirEntry) × Bool :=
  if size < pos + 8 then ([], true)
  else
    let e := DirEntry.at f pos
    if e.recLen < 8 ∨ size < pos + e.recLen then ([], false)
    else
      let (rest, ok) := dirEntries f size (pos + e.recLen)
      ((pos, e) :: rest, ok)
termination_by size - pos
decreasing_by
  rename_i _ accepted
  have long : ¬(DirEntry.at f pos).recLen < 8 := fun short => accepted (.inl short)
  omega

/-- The blocks of `lookup_in_dir` from block `bi` on; a name that is not there is a failure too. -/
def lookupBlocks (dir : Inode) (name : Bytes) : Nat → UInt32 → Try (UInt32 × UInt8)
  | 0, _ => failure
  | n + 1, bi => do
    let db ← fileBlock fs dir bi
    if db = 0 then lookupBlocks dir name n (bi + 1)
    else
      let f ← readBlock fs db
      let (entries, ok) := dirEntries f fs.blockSize.toNat 0
      match entries.find? fun (pos, e) =>
          e.ino ≠ 0 ∧ e.len ≠ 0 ∧ nameAt f pos e.len = name with
      | some (_, e) => pure (e.ino, e.type)
      | none => if ok then lookupBlocks dir name n (bi + 1) else failure

/-- The number of blocks of a file, in 32 bits. -/
def blockCount (inode : Inode) : UInt32 := (inode.size + fs.blockSize - 1) / fs.blockSize

/-- `lookup_in_dir`. -/
def lookupInDir (dir : Inode) (name : Bytes) : Try (UInt32 × UInt8) :=
  if dir.mode &&& ifMask ≠ ifDir then failure
  else lookupBlocks fs dir name (blockCount fs dir).toNat 0

/-- The components of a path, 255 bytes each at most. -/
def components (path : Bytes) : List Bytes :=
  match eq : path.dropWhile (· = 47) with
  | [] => []
  | c :: rest =>
    let name := (rest.takeWhile (· ≠ 47)).take 254
    (c :: name) :: components (rest.drop name.length)
termination_by path.length
decreasing_by
  have whole := congrArg List.length eq
  have shorter := (List.dropWhile_suffix (l := path) (· = 47)).length_le
  simp only [List.length_cons, List.length_drop] at whole shorter ⊢
  omega

/-- The loop of `ext2_lookup` over the components. -/
def lookupFrom (cur : Inode) (ty : UInt8) : List Bytes → Try (Inode × UInt8)
  | [] => pure (cur, ty)
  | name :: names => do
    let (ino, ty) ← lookupInDir fs cur name
    let next ← inodeGet fs ino
    lookupFrom next ty names

/-- `ext2_lookup`. -/
def ext2Lookup (path : Bytes) : Try (Inode × UInt8) :=
  if fs.mounted = false then failure
  else do
    let root ← inodeGet fs 2
    lookupFrom fs root 2 (components path)

/-! ### Reading -/

/-- The lines of `list_dir` for one block: names whose lines still fit. -/
def listBlock (f : Nat → UInt8) (size : Nat) (out : Bytes) (entries : List (Nat × DirEntry)) : Bytes :=
  entries.foldl (fun out (pos, e) =>
    let name := (nameAt f pos e.len).takeWhile (· ≠ 0)
    if e.ino ≠ 0 ∧ e.len ≠ 0 ∧ name ≠ [] ∧ out.length + name.length + 1 < size then out ++ name ++ [10]
    else out) out

/-- The blocks of `list_dir`, in the short form. -/
def listBlocks (dir : Inode) (size : Nat) (out : Bytes) : Nat → UInt32 → Try Bytes
  | 0, _ => pure out
  | n + 1, bi => do
    let db ← fileBlock fs dir bi
    if db = 0 then listBlocks dir size out n (bi + 1)
    else
      let f ← readBlock fs db
      let (entries, ok) := dirEntries f fs.blockSize.toNat 0
      if ok then listBlocks dir size (listBlock f size out entries) n (bi + 1) else failure

/-- `ext2_readdir`. -/
def ext2Readdir (path : Bytes) (size : Nat) : Try Bytes := do
  let (dir, _) ← ext2Lookup fs path
  if size = 0 ∨ dir.mode &&& ifMask ≠ ifDir then failure
  else listBlocks fs dir size [] (blockCount fs dir).toNat 0

/-- The loop of `inode_read_range`, at most one round for each byte: `done` has been read, and
the block at hand is `bi`, from byte `skip` on. -/
def readLoop (f : Inode) (offset cap : Nat) : Nat → Bytes → UInt32 → Nat → Try Bytes
  | 0, done, _, _ => pure done
  | n + 1, done, bi, skip =>
    if done.length < cap ∧ offset + done.length < f.size.toNat then do
      let db ← fileBlock fs f bi
      if db = 0 then pure done
      else
        let b ← readBlock fs db
        let count := min (fs.blockSize.toNat - skip)
          (min (f.size.toNat - (offset + done.length)) (cap - done.length))
        readLoop f offset cap n (done ++ (List.range count).map fun k => b (skip + k)) (bi + 1) 0
    else pure done

/-- `inode_read_range`. -/
def inodeReadRange (f : Inode) (offset : UInt32) (cap : Nat) : Try Bytes :=
  if offset ≥ f.size then pure []
  else readLoop fs f offset.toNat cap cap [] (offset / fs.blockSize) (offset % fs.blockSize).toNat

/-- `ext2_read_range`. -/
def ext2ReadRange (path : Bytes) (offset : UInt32) (cap : Nat) : Try Bytes := do
  let (f, _) ← ext2Lookup fs path
  if f.mode &&& ifMask ≠ ifReg then failure else inodeReadRange fs f offset cap

/-- `ext2_readfile`. -/
def ext2Readfile (path : Bytes) (cap : Nat) : Try Bytes := ext2ReadRange fs path 0 cap

/-- `ext2_readlink`: a short target is in the inode itself. -/
def ext2Readlink (path : Bytes) (cap : Nat) : Try Bytes :=
  if cap = 0 then failure
  else do
    let (f, _) ← ext2Lookup fs path
    if f.mode &&& ifMask ≠ ifLnk then failure
    else
      let n := min f.size.toNat (cap - 1)
      if f.size ≤ 60 then
        pure ((List.range n).map fun k =>
          if small : k / 4 < 15 then u32Byte (f.block ⟨k / 4, small⟩) (k % 4) else 0)
      else inodeReadRange fs f 0 n

/-! ### Writing -/

/-- `ext2_set_write_enabled`. -/
def ext2SetWriteEnabled (enabled : Bool) : Ext2State × Bool :=
  if fs.mounted = false then (fs, false)
  else if !enabled then ({ fs with writeEnabled := false }, true)
  else if fs.fsState &&& 1 = 0 ∨ fs.featureCompat &&& 4 ≠ 0 then (fs, false)
  else ({ fs with writeEnabled := true }, true)

/-- The loop of `ext2_write_range`, at most one round for each byte. -/
def writeLoop (f : Inode) (offset : UInt32) (data : Bytes) : Nat → Nat → Try Nat
  | 0, done => pure done
  | n + 1, done =>
    if done < data.length then do
      let pos := offset + UInt32.ofNat done
      let logical := (pos / fs.blockSize).toNat
      let boff := (pos % fs.blockSize).toNat
      let count := min (fs.blockSize.toNat - boff) (data.length - done)
      if direct : logical < 15 then
        let b := f.block ⟨logical, direct⟩
        let old ← readBlock fs b
        let new := fun k =>
          if boff ≤ k ∧ k < boff + count then data.getD (done + (k - boff)) 0 else old k
        writeBlock fs b new
        writeLoop f offset data n (done + count)
      else failure
    else pure done

/-- `ext2_write_range`: the number of bytes written. -/
def ext2WriteRange (path : Bytes) (offset : UInt32) (data : Bytes) : Try Nat :=
  if fs.writeEnabled = false ∨ data = [] then failure
  else do
    let (f, _) ← ext2Lookup fs path
    if f.mode &&& ifMask ≠ ifReg then failure
    else if offset ≥ f.size ∨ data.length > f.size.toNat - offset.toNat then failure
    else
      let first := offset.toNat / fs.blockSize.toNat
      let last := (offset.toNat + data.length - 1) / fs.blockSize.toNat
      if 12 ≤ last then failure
      else if ∃ b : Fin 15, first ≤ b.val ∧ b.val ≤ last ∧
          (f.block b = 0 ∨ f.block b ≥ fs.blocksCount) then failure
      else writeLoop fs f offset data data.length 0

/-! ### Mounting -/

/-- `mbr_read` as an access. -/
def mbrReadAct (drive : Int) : Try MbrTable := OptionT.mk fun w =>
  let (m, ok) := mbrRead w drive mbrInitEmpty
  (if ok then some m else none, w, [⟨drive, 0, false⟩])

/-- The drives as they were found at boot. -/
def drivesFound : Try (Int → Drive) := OptionT.mk fun w => (some w.drives, w, [])

/-- The checks `ext2_mount_partition` makes of the superblock `f`. -/
def superAccepted (e : MbrEntry) (f : Nat → UInt8) : Prop :=
  let blocksCount := u32At f 4
  let blockSize := (1024 : UInt32) <<< u32At f 24
  let inodeSize := u16At f 88
  u16At f 56 = 0xEF53 ∧
  ¬(blockSize < 1024 ∨ blockSize > 4096 ∨ u32At f 32 = 0 ∨ u32At f 40 = 0) ∧
  ¬(inodeSize ≠ 0 ∧ (inodeSize < 128 ∨ inodeSize.toUInt32 > blockSize)) ∧
  u32At f 96 &&& 0x0040 = 0 ∧
  ¬(blocksCount = 0 ∨ blocksCount.toNat * (blockSize / 512).toNat > e.sectorCount.toNat)

instance (e : MbrEntry) (f : Nat → UInt8) : Decidable (superAccepted e f) := by
  unfold superAccepted
  infer_instance

/-- The state it builds from it. -/
def stateFrom (drive : Int) (e : MbrEntry) (behind f : Nat → UInt8) : Ext2State where
  mounted := true
  drive := drive
  partLba := e.lbaStart
  blockSize := (1024 : UInt32) <<< u32At f 24
  blocksPerGroup := u32At f 32
  inodesPerGroup := u32At f 40
  inodeSize := if u16At f 88 ≠ 0 then (u16At f 88).toUInt32 else 128
  groupDescBlock := u32At f 20 + 1
  groups := (u32At f 4 + u32At f 32 - 1) / u32At f 32
  blocksCount := u32At f 4
  inodesCount := u32At f 0
  featureCompat := u32At f 92
  fsState := u16At f 58
  writeEnabled := false
  behind := behind

def stateOf (drive : Int) (e : MbrEntry) (behind f : Nat → UInt8) : Option Ext2State :=
  if superAccepted e f then some (stateFrom drive e behind f) else none

theorem part_lt {drive part : Int} (known : ¬(drive < 0 ∨ part < 0 ∨ 4 ≤ part)) :
    part.toNat < 4 := by omega

/-- `ext2_mount_partition`. -/
def ext2MountPartition (behind : Nat → UInt8) (drive part : Int) : Try Ext2State :=
  if known : drive < 0 ∨ part < 0 ∨ 4 ≤ part then failure
  else do
    let raw ← diskReadOne drive 0
    if raw.byteAt 510 ≠ 0x55 ∨ raw.byteAt 511 ≠ 0xAA then failure
    else
      let m ← mbrReadAct drive
      let drives ← drivesFound
      if m.valid = false ∨ mbrValidateDrive drives drive m = false then failure
      else
        let e := m.entries ⟨part.toNat, part_lt known⟩
        if e.sectorCount = 0 then failure
        else
          let secs ← diskRead drive (e.lbaStart + 2) 1
          OptionT.mk (pure (stateOf drive e behind (bytesOf secs)))

/-! ### Sessions -/

/-- What can be asked of a volume. -/
inductive Op where
  | lookup (path : Bytes)
  | readdir (path : Bytes) (size : Nat)
  | readfile (path : Bytes) (cap : Nat)
  | readRange (path : Bytes) (offset : UInt32) (cap : Nat)
  | readlink (path : Bytes) (cap : Nat)
  | writeRange (path : Bytes) (offset : UInt32) (data : Bytes)
  | setWriteEnabled (enabled : Bool)

/-- The state of the volume after a call. -/
def perform (fs : Ext2State) : Op → Act Ext2State
  | .lookup path => do let _ ← (ext2Lookup fs path).run; pure fs
  | .readdir path size => do let _ ← (ext2Readdir fs path size).run; pure fs
  | .readfile path cap => do let _ ← (ext2Readfile fs path cap).run; pure fs
  | .readRange path offset cap => do let _ ← (ext2ReadRange fs path offset cap).run; pure fs
  | .readlink path cap => do let _ ← (ext2Readlink fs path cap).run; pure fs
  | .writeRange path offset data => do let _ ← (ext2WriteRange fs path offset data).run; pure fs
  | .setWriteEnabled enabled => pure (ext2SetWriteEnabled fs enabled).1

/-- Calls one after the other. -/
def session : Ext2State → List Op → Act Ext2State
  | fs, [] => pure fs
  | fs, op :: ops => do
    let fs ← perform fs op
    session fs ops

end AtmKoala.Ext2
