import AtmKoala.Catfs.Layout

/-!
CatFS v2 as `catfs.c` runs it: the mounted state, the journal, sector-precise
sync, format, mount, fsck, path lookup, and the file operations.

Conventions. `World` holds the drives, the global `catfs` and the list of
sectors handed to the driver so far (`issued`, oldest first), which is what a
power cut truncates. Functions that return a C status give the world back with
it; a `Bool` is a "not negative" status. `catfs_now()` is a parameter `now` of
the operations that read it. An `Option` result that is `none` means that the C
code has no defined result there: a `kstrcpy` past its buffer, or an endless
walk along parent links. Loops with a known range are folds; the two data loops
carry fuel that their callers set to the number of bytes still to move.
-/

namespace AtmKoala.Catfs

open Lib

/-- A NUL-terminated C string, without its terminator. -/
structure CString where
  chars : List UInt8
  noNul : 0 ∉ chars

/-- `'/'`. -/
@[simp] def slash : UInt8 := 0x2F

/-- The block bitmap, as bytes. -/
abbrev Bitmap : Type := Fin 2048 → UInt8

/-- `catfs_state_t` (the dirty range is never read). -/
structure State where
  diskDrive : Int
  partitionOffset : UInt32
  sb : Super
  jh : JournalHdr
  inodes : Fin 256 → Inode
  bitmap : Bitmap
  mounted : Bool
  nextSeq : UInt32

structure World where
  drives : Int → Drive
  disk : Disk
  issued : List ((Int × Nat) × Sector)
  catfs : State

namespace World

def mapCatfs (w : World) (f : State → State) : World := { w with catfs := f w.catfs }

def mapSb (w : World) (f : Super → Super) : World :=
  w.mapCatfs fun c => { c with sb := f c.sb }

def mapJh (w : World) (f : JournalHdr → JournalHdr) : World :=
  w.mapCatfs fun c => { c with jh := f c.jh }

def mapInode (w : World) (i : Fin 256) (f : Inode → Inode) : World :=
  w.mapCatfs fun c => { c with inodes := Function.update c.inodes i (f (c.inodes i)) }

/-- The physical address of a sector given relative to the start of the file
system. -/
def addr (w : World) (lba : UInt32) : Int × Nat :=
  (w.catfs.diskDrive, lba28 (w.catfs.partitionOffset + lba))

/-- The world after the drive took a sector. -/
def put (w : World) (lba : UInt32) (sec : Sector) : World :=
  { w with
    disk := Function.update w.disk (w.addr lba) sec
    issued := w.issued ++ [(w.addr lba, sec)] }

end World

/-! ### Bitmap -/

def bmTest (bm : Bitmap) (b : Nat) : Bool :=
  if h : b / 8 < 2048 then (bm ⟨b / 8, h⟩).toNat.testBit (b % 8) else false

def bmSet (bm : Bitmap) (b : Nat) : Bitmap := fun i =>
  if i.val = b / 8 then bm i ||| UInt8.ofNat (2 ^ (b % 8)) else bm i

def bmClr (bm : Bitmap) (b : Nat) : Bitmap := fun i =>
  if i.val = b / 8 then bm i &&& ~~~UInt8.ofNat (2 ^ (b % 8)) else bm i

/-- `bm_alloc`: the lowest clear bit. -/
def bmAlloc (c : State) : State × Option UInt32 :=
  match (List.range blocksMax).find? fun i => !bmTest c.bitmap i with
  | some i =>
    ({ c with
        bitmap := bmSet c.bitmap i
        sb := { c.sb with
          freeBlocks := if c.sb.freeBlocks > 0 then c.sb.freeBlocks - 1 else c.sb.freeBlocks } },
      some (UInt32.ofNat i))
  | none => (c, none)

def bmFree (c : State) (b : UInt32) : State :=
  if bmTest c.bitmap b.toNat then
    { c with
      bitmap := bmClr c.bitmap b.toNat
      sb := { c.sb with freeBlocks := c.sb.freeBlocks + 1 } }
  else c

/-! ### Disk access -/

def blockLba (c : State) (blk : UInt32) : UInt32 := c.sb.dataStartLba + blk

def dskRead (w : World) (lba : UInt32) : Option Sector :=
  diskReadSector w.drives w.disk w.catfs.diskDrive (w.catfs.partitionOffset + lba)

def dskWrite (w : World) (lba : UInt32) (sec : Sector) : World × Bool :=
  if diskWritable w.drives w.catfs.diskDrive (w.catfs.partitionOffset + lba) then
    (w.put lba sec, true)
  else (w, false)

/-- A loop that stops at the first iteration that reports failure. -/
def forEach {α : Type} (f : World → α → World × Bool) : World → List α → World × Bool
  | w, [] => (w, true)
  | w, a :: as =>
    match f w a with
    | (w, true) => forEach f w as
    | (w, false) => (w, false)

/-! ### Journal -/

def journalWriteRec (w : World) (r : JournalRec) : World × Bool :=
  let slot := w.catfs.jh.head.toNat % journalSlots
  let lba := UInt32.ofNat (journalLogLba + slot / recsPerSector)
  let offset := slot % recsPerSector * recSize
  match dskRead w lba with
  | none => (w, false)
  | some sec =>
    match dskWrite w lba (sec.blit offset r.encode recSize) with
    | (w, false) => (w, false)
    | (w, true) => (w.mapJh fun h => { h with head := h.head + 1 }, true)

def journalLog (w : World) (type : UInt8) (inodeIdx a b : UInt32) : World × Bool :=
  let w := w.mapCatfs fun c => { c with nextSeq := c.nextSeq + 1 }
  journalWriteRec w ⟨type, inodeIdx, a, b, w.catfs.nextSeq⟩

def journalFlushHeader (w : World) : World × Bool :=
  let w := w.mapJh fun h => { h with magic := magicV2 }
  dskWrite w (UInt32.ofNat journalHdrLba) ((Block.zero 512).blit 0 w.catfs.jh.encode 512)

def journalCommit (w : World) : World × Bool :=
  journalFlushHeader (w.mapJh fun h => { h with committedSeq := w.catfs.nextSeq })

/-- One iteration of `journal_check_torn`: whether slot number `slot` counts. -/
def tornAt (w : World) (slot : Nat) : Bool :=
  let s := slot % journalSlots
  match dskRead w (UInt32.ofNat (journalLogLba + s / recsPerSector)) with
  | none => false
  | some sec => sec.byteAt (s % recsPerSector * recSize) != jNone

/-- `journal_check_torn`: the number of torn records. -/
def journalCheckTorn (w : World) : Nat :=
  let lo := w.catfs.jh.committedSeq.toNat
  (List.range' lo (w.catfs.jh.head.toNat - lo)).countP (tornAt w)

/-! ### Sync -/

def syncSuperblock (w : World) : World × Bool :=
  dskWrite w (UInt32.ofNat sbLba) ((Block.zero 512).blit 0 w.catfs.sb.encode 512)

def syncInode (w : World) (idx : Fin 256) : World × Bool :=
  let lba := UInt32.ofNat (inodeTableLba + idx.val / inodesPerSector)
  match dskRead w lba with
  | none => (w, false)
  | some sec => dskWrite w lba (putInode sec (idx.val % inodesPerSector) (w.catfs.inodes idx))

/-- Sector `s` of the bitmap region as it is built from memory. -/
def bitmapSectorOf (bm : Bitmap) (s : Nat) : Sector :=
  let n := min (bitmapBytes - s * 512) 512
  (Block.zero 512).blit 0
    (fun k => if h : s * 512 + k < 2048 then bm ⟨s * 512 + k, h⟩ else 0) n

def syncBitmapSector (w : World) (s : Nat) : World × Bool :=
  dskWrite w (UInt32.ofNat (bitmapLba + s)) (bitmapSectorOf w.catfs.bitmap s)

def syncBitmapRegion (w : World) (firstBlock lastBlock : Nat) : World × Bool :=
  let firstSector := firstBlock / 8 / 512
  let lastSector := lastBlock / 8 / 512
  forEach syncBitmapSector w (List.range' firstSector (lastSector + 1 - firstSector))

/-- Number of inode slots used in sector `s` of the inode table. -/
def inodesInSector (s : Nat) : Nat :=
  if (s + 1) * inodesPerSector > inodeMax then inodeMax - s * inodesPerSector
  else inodesPerSector

/-- Sector `s` of the inode table as `catfs_sync` builds it from memory. -/
def inodeSectorOf (inodes : Fin 256 → Inode) (s : Nat) : Sector :=
  (Block.zero 512).blit 0
    (fun k => if h : s * inodesPerSector + k / inodeSize < 256
      then (inodes ⟨s * inodesPerSector + k / inodeSize, h⟩).encode (k % inodeSize) else 0)
    (inodesInSector s * inodeSize)

def syncInodeSector (w : World) (s : Nat) : World × Bool :=
  dskWrite w (UInt32.ofNat (inodeTableLba + s)) (inodeSectorOf w.catfs.inodes s)

def catfsSync (w : World) : World × Int :=
  if !w.catfs.mounted then (w, -1)
  else
    match syncSuperblock w with
    | (w, false) => (w, -1)
    | (w, true) =>
      match forEach syncInodeSector w (List.range inodeSectors) with
      | (w, false) => (w, -1)
      | (w, true) =>
        match syncBitmapRegion w 0 (blocksMax - 1) with
        | (w, false) => (w, -1)
        | (w, true) =>
          match syncSuperblock (w.mapSb fun sb => { sb with cleanUnmount := 1 }) with
          | (w, false) => (w, -1)
          | (w, true) =>
            match journalFlushHeader w with
            | (w, false) => (w, -1)
            | (w, true) => (w, 0)

/-! ### Format -/

/-- `kstrcpy` into a fixed array: the string, its NUL, and the old bytes after
it. The callers check the length. -/
def kstrcpy {n : Nat} (dst : Fin n → UInt8) (src : List UInt8) : Fin n → UInt8 := fun i =>
  if h : i.val < src.length then src[i.val] else if i.val = src.length then 0 else dst i

/-- The superblock `catfs_format_at` builds, before the root inode is counted. -/
def formatSuper (label : List UInt8) : Super where
  magic := magicV2
  version := 2
  totalBlocks := UInt32.ofNat blocksMax
  freeBlocks := UInt32.ofNat (blocksMax - 1)
  inodeCount := UInt32.ofNat inodeMax
  freeInodes := UInt32.ofNat inodeMax
  dataStartLba := UInt32.ofNat dataLba
  bitmapLba := UInt32.ofNat bitmapLba
  inodeTableLba := UInt32.ofNat inodeTableLba
  journalLba := UInt32.ofNat journalLogLba
  cleanUnmount := 1
  label := kstrcpy (fun _ => 0) label
  pad := fun _ => 0

def rootInode (now : UInt32) : Inode :=
  { Inode.zero with
    name := kstrcpy (fun _ => 0) [slash]
    type := typeDir
    perms := permDefaultDir
    parent := -1
    ctime := now
    mtime := now
    atime := now }

/-- The in-memory state `catfs_format_at` writes out. -/
def formatState (drive : Int) (lbaOffset : UInt32) (label : List UInt8) (now : UInt32) : State where
  diskDrive := drive
  partitionOffset := lbaOffset
  sb := { formatSuper label with freeInodes := (formatSuper label).freeInodes - 1 }
  jh := ⟨magicV2, 0, 0, fun _ => 0⟩
  inodes := Function.update (fun _ => Inode.zero) 0 (rootInode now)
  bitmap := bmSet (fun _ => 0) 0
  mounted := true
  nextSeq := 0

/-- `catfs_format_at`. A null label is `"catfs"`; a label of 32 or more bytes
overruns `sb.label`. -/
def catfsFormatAt (w : World) (drive : Int) (lbaOffset : UInt32) (label : CString)
    (now : UInt32) : Option (World × Int) :=
  if drive < 0 ∨ !(w.drives drive).present then some (w, -1)
  else if label.chars.length ≥ 32 then none
  else some (catfsSync { w with catfs := formatState drive lbaOffset label.chars now })

/-! ### Mount -/

def loadInodeSector (w : World) (s : Nat) : World × Bool :=
  match dskRead w (w.catfs.sb.inodeTableLba + UInt32.ofNat s) with
  | none => (w, false)
  | some sec =>
    let lo := s * inodesPerSector
    (w.mapCatfs fun c => { c with
      inodes := fun i => if lo ≤ i.val ∧ i.val < lo + inodesInSector s
        then inodeIn sec (i.val - lo) else c.inodes i }, true)

def loadBitmapSector (w : World) (s : Nat) : World × Bool :=
  match dskRead w (w.catfs.sb.bitmapLba + UInt32.ofNat s) with
  | none => (w, false)
  | some sec =>
    let lo := s * 512
    (w.mapCatfs fun c => { c with
      bitmap := fun i => if lo ≤ i.val ∧ i.val < lo + min (bitmapBytes - lo) 512
        then sec.byteAt (i.val - lo) else c.bitmap i }, true)

/-- The tail of `catfs_mount_at`, once everything is loaded. The status of the
superblock write is ignored, and the torn count it may compute is dropped. -/
def mountFinish (w : World) : World :=
  let w := w.mapCatfs fun c => { c with nextSeq := c.jh.committedSeq }
  let w := w.mapSb fun sb => { sb with cleanUnmount := 0 }
  let w := (syncSuperblock w).1
  w.mapCatfs fun c => { c with mounted := true }

def catfsMountAt (w : World) (drive : Int) (lbaOffset : UInt32) : World × Int :=
  if drive < 0 ∨ !(w.drives drive).present then (w, -1)
  else
    let w := w.mapCatfs fun c => { c with diskDrive := drive, partitionOffset := lbaOffset }
    match dskRead w (UInt32.ofNat sbLba) with
    | none => (w, -1)
    | some sec =>
      let w := w.mapSb fun _ => Super.decode sec.byteAt
      if w.catfs.sb.magic ≠ magicV2 then (w, -1)
      else
        match dskRead w (UInt32.ofNat journalHdrLba) with
        | none => (w, -1)
        | some sec =>
          let w := w.mapJh fun _ => JournalHdr.decode sec.byteAt
          match forEach loadInodeSector w (List.range inodeSectors) with
          | (w, false) => (w, -1)
          | (w, true) =>
            match forEach loadBitmapSector w (List.range bitmapSectors) with
            | (w, false) => (w, -1)
            | (w, true) => (mountFinish w, 0)

/-! ### fsck -/

/-- `seen[b/8] |= 1u << (b%8)` for a non-zero block number. -/
def fsckMark (seen : Bitmap) (b : UInt32) : Bitmap :=
  if b ≠ 0 then bmSet seen b.toNat else seen

def fsckMarkInode (seen : Bitmap) (n : Inode) : Bitmap :=
  if n.type = typeFree then seen
  else
    let seen := (List.finRange 16).foldl (fun seen d => fsckMark seen (n.blocks d)) seen
    fsckMark (fsckMark seen n.indirect) n.dindirect

def fsckSeen (inodes : Fin 256 → Inode) : Bitmap :=
  (List.finRange 256).foldl (fun seen i => fsckMarkInode seen (inodes i)) fun _ => 0

/-- One iteration of the bitmap pass. -/
def fsckBlock (repair : Bool) (seen : Bitmap) (acc : Nat × Bitmap) (b : Nat) : Nat × Bitmap :=
  let marked := bmTest acc.2 b
  let actual := bmTest seen b
  if marked && !actual then (acc.1 + 1, if repair then bmClr acc.2 b else acc.2)
  else if !marked && actual then (acc.1 + 1, if repair then bmSet acc.2 b else acc.2)
  else acc

def fsckBitmap (repair : Bool) (seen bm : Bitmap) : Nat × Bitmap :=
  (List.range' 1 (blocksMax - 1)).foldl (fsckBlock repair seen) (0, bm)

/-- Whether inode `i` has no directory above it. -/
def orphaned (c : State) (i : Fin 256) : Bool :=
  let p := (c.inodes i).parent
  if h : p.toInt < 0 ∨ p.toInt ≥ inodeMax then true
  else (c.inodes ⟨p.toInt.toNat, by simp at h; omega⟩).type != typeDir

/-- One iteration of the orphan pass. -/
def fsckOrphan (repair : Bool) (acc : Nat × State) (i : Fin 256) : Nat × State :=
  if (acc.2.inodes i).type = typeFree then acc
  else if orphaned acc.2 i then
    (acc.1 + 1,
      if repair then
        { acc.2 with
          inodes := Function.update acc.2.inodes i Inode.zero
          sb := { acc.2.sb with freeInodes := acc.2.sb.freeInodes + 1 } }
      else acc.2)
  else acc

def fsckOrphans (repair : Bool) (c : State) : Nat × State :=
  ((List.finRange 256).filter (· ≠ 0)).foldl (fsckOrphan repair) (0, c)

/-- What `catfs_fsck_at` does to the freshly mounted image; `seenOk` says
whether the `kmalloc` of the scratch bitmap succeeded. -/
def fsckMounted (w : World) (repair seenOk : Bool) : World × Nat :=
  let (n₁, bm) :=
    if seenOk then fsckBitmap repair (fsckSeen w.catfs.inodes) w.catfs.bitmap
    else (0, w.catfs.bitmap)
  let w := w.mapCatfs fun c => { c with bitmap := bm }
  let (n₂, c) := fsckOrphans repair w.catfs
  let w := { w with catfs := c }
  let torn := journalCheckTorn w
  let w :=
    if repair && torn != 0 then
      (journalFlushHeader (w.mapJh fun h => { h with head := h.committedSeq })).1
    else w
  let problems := n₁ + n₂ + torn
  if repair && problems != 0 then
    match catfsSync w with
    | (w, r) => (w, if r < 0 then problems + 1 else problems)
  else (w, problems)

def catfsFsckAt (w : World) (drive : Int) (lbaOffset : UInt32) (repair seenOk : Bool) :
    World × Int :=
  let saved := w.catfs
  match catfsMountAt w drive lbaOffset with
  | (w, r) =>
    if r < 0 then ({ w with catfs := saved }, -1)
    else
      match fsckMounted w repair seenOk with
      | (w, problems) => ({ w with catfs := saved }, problems)

/-! ### Paths -/

/-- Position of the last `'/'`, or the start when there is none. -/
def lastSlash (path : List UInt8) : Nat :=
  (List.range path.length).foldl (fun last i => if path[i]? = some slash then i else last) 0

/-- `split_last` into `dir[64]` and `base[CATFS_NAME_MAX]`; `none` when a part
does not fit, or when the path is empty (`path + 1` is then past the string). -/
def splitLast (path : List UInt8) : Option (List UInt8 × List UInt8) :=
  let n := lastSlash path
  let (dir, base) := if n = 0 then ([slash], path.drop 1) else (path.take n, path.drop (n + 1))
  if path = [] ∨ dir.length ≥ 64 ∨ base.length ≥ nameMax then none else some (dir, base)

/-- The stored name as a string: the bytes before the first NUL. -/
def nameOf (n : Inode) : List UInt8 := (List.ofFn n.name).takeWhile (· ≠ 0)

/-- The child of `cur` called `comp`, the lowest index winning. -/
def findChild (inodes : Fin 256 → Inode) (cur : Fin 256) (comp : List UInt8) : Option (Fin 256) :=
  (List.finRange 256).find? fun i =>
    i ≠ 0 ∧ (inodes i).type ≠ typeFree ∧ (inodes i).parent.toInt = cur.val ∧
      nameOf (inodes i) = comp

/-- The component loop of `catfs_lookup`. At most 55 characters are taken for
one component, so a longer one is looked up in pieces. Every iteration consumes
a character, so the path length is enough fuel. -/
def lookupFrom (inodes : Fin 256 → Inode) : Nat → Fin 256 → List UInt8 → Option (Fin 256)
  | 0, cur, _ => some cur
  | fuel + 1, cur, p =>
    if p = [] then some cur
    else
      let comp := (p.take (nameMax - 1)).takeWhile (· ≠ slash)
      let rest := p.drop comp.length
      let rest := if rest.head? = some slash then rest.drop 1 else rest
      if comp = [] then lookupFrom inodes fuel cur rest
      else
        match findChild inodes cur comp with
        | none => none
        | some i => lookupFrom inodes fuel i rest

def catfsLookup (c : State) (path : List UInt8) : Option (Fin 256) :=
  if !c.mounted then none
  else if path = [slash] then some 0
  else if (c.inodes 0).type ≠ typeDir then none
  else
    let p := if path.head? = some slash then path.drop 1 else path
    lookupFrom c.inodes p.length 0 p

/-! ### Namespace operations -/

/-- An `int` index that passed the range check `0 <= idx < CATFS_INODE_MAX`. -/
def inodeIdx (idx : Int) : Option (Fin 256) :=
  if h : 0 ≤ idx ∧ idx < 256 then some ⟨idx.toNat, by omega⟩ else none

/-- The inode `catfs_create` fills a free slot with. -/
def newInode (base : List UInt8) (type : UInt8) (parent : Fin 256) (now : UInt32) : Inode :=
  { Inode.zero with
    name := kstrcpy (fun _ => 0) base
    type := type
    perms := if type = typeDir then permDefaultDir else permDefaultFile
    parent := Int32.ofNat parent.val
    ctime := now
    mtime := now
    atime := now }

/-- The body of the slot loop of `catfs_create`, for the free slot `i`. The
statuses of the journal and of the three writes are ignored. -/
def createAt (w : World) (i parent : Fin 256) (base : List UInt8) (type : UInt8)
    (now : UInt32) : World :=
  let w := (journalLog w jCreate (UInt32.ofNat i.val) (UInt32.ofNat parent.val) type.toUInt32).1
  let w := w.mapInode i fun _ => newInode base type parent now
  let w := w.mapSb fun sb => { sb with freeInodes := sb.freeInodes - 1 }
  let w := (syncInode w i).1
  let w := (syncSuperblock w).1
  (journalCommit w).1

def catfsCreate (w : World) (path : CString) (type : UInt8) (now : UInt32) :
    Option (World × Int) :=
  if !w.catfs.mounted then some (w, -1)
  else
    match splitLast path.chars with
    | none => none
    | some (dir, base) =>
      match catfsLookup w.catfs dir with
      | none => some (w, -1)
      | some parent =>
        if (catfsLookup w.catfs path.chars).isSome then some (w, -1)
        else
          match (List.finRange 256).find? fun i => i ≠ 0 ∧ (w.catfs.inodes i).type = typeFree with
          | none => some (w, -1)
          | some i => some (createAt w i parent base type now, i.val)

/-- `bm_free` for every non-zero word of a pointer sector. -/
def freeSectorPtrs (c : State) (sec : Sector) : State :=
  (List.range ptrsPerBlock).foldl (fun c i => if ptr sec i ≠ 0 then bmFree c (ptr sec i) else c) c

/-- One iteration of the direct-block loops of `free_all_blocks` and
`free_blocks_from`. -/
def freeDirect (idx : Fin 256) (w : World) (i : Fin 16) : World :=
  let b := (w.catfs.inodes idx).blocks i
  if b ≠ 0 then
    (w.mapCatfs fun c => bmFree c b).mapInode idx fun n =>
      { n with blocks := Function.update n.blocks i 0 }
  else w

/-- One iteration of the double-indirect loop of `free_all_blocks`. -/
def freeAllL1 (l1 : Sector) (w : World) (i : Nat) : World :=
  if ptr l1 i = 0 then w
  else
    let w :=
      match dskRead w (blockLba w.catfs (ptr l1 i)) with
      | none => w
      | some sec => w.mapCatfs fun c => freeSectorPtrs c sec
    w.mapCatfs fun c => bmFree c (ptr l1 i)

/-- The indirect part of `free_all_blocks`. -/
def freeAllIndirect (w : World) (idx : Fin 256) : World :=
  let ind := (w.catfs.inodes idx).indirect
  if ind ≠ 0 then
    let w :=
      match dskRead w (blockLba w.catfs ind) with
      | none => w
      | some sec => w.mapCatfs fun c => freeSectorPtrs c sec
    (w.mapCatfs fun c => bmFree c ind).mapInode idx fun n => { n with indirect := 0 }
  else w

/-- The double-indirect part of `free_all_blocks`. -/
def freeAllDindirect (w : World) (idx : Fin 256) : World :=
  let dind := (w.catfs.inodes idx).dindirect
  if dind ≠ 0 then
    let w :=
      match dskRead w (blockLba w.catfs dind) with
      | none => w
      | some l1 => (List.range ptrsPerBlock).foldl (freeAllL1 l1) w
    (w.mapCatfs fun c => bmFree c dind).mapInode idx fun n => { n with dindirect := 0 }
  else w

def freeAllBlocks (w : World) (idx : Fin 256) : World :=
  freeAllDindirect (freeAllIndirect ((List.finRange 16).foldl (freeDirect idx) w) idx) idx

/-- `catfs_unlink` after its checks. -/
def unlinkAt (w : World) (i : Fin 256) : World :=
  let w := (journalLog w jUnlink (UInt32.ofNat i.val) 0 0).1
  let w := freeAllBlocks w i
  let w := w.mapInode i fun _ => Inode.zero
  let w := w.mapSb fun sb => { sb with freeInodes := sb.freeInodes + 1 }
  let w := (syncInode w i).1
  let w := (syncBitmapRegion w 0 (blocksMax - 1)).1
  let w := (syncSuperblock w).1
  (journalCommit w).1

/-- Whether some live inode other than 0 has parent `i`. -/
def hasChild (c : State) (i : Fin 256) : Bool :=
  (List.finRange 256).any fun j =>
    j ≠ 0 ∧ (c.inodes j).type ≠ typeFree ∧ (c.inodes j).parent.toInt = i.val

def catfsUnlink (w : World) (idx : Int) : World × Int :=
  if !w.catfs.mounted then (w, -1)
  else
    match inodeIdx idx with
    | none => (w, -1)
    | some i =>
      if i = 0 then (w, -1)
      else if (w.catfs.inodes i).type = typeFree then (w, -1)
      else if (w.catfs.inodes i).type = typeDir ∧ hasChild w.catfs i then (w, -1)
      else (unlinkAt w i, 0)

/-- The ancestor walk of `catfs_rename`: whether `idx` is met on the way up from
`p`. `none` is a parent index outside the table, or a walk that does not end
(256 links without an end go round in a circle). -/
def ancestorWalk (inodes : Fin 256 → Inode) (idx : Fin 256) : Nat → Int → Option Bool
  | 0, _ => none
  | fuel + 1, p =>
    if p < 0 then some false
    else if p = idx.val then some true
    else
      match inodeIdx p with
      | none => none
      | some q => ancestorWalk inodes idx fuel (inodes q).parent.toInt

/-- `catfs_rename` after its checks. -/
def renameAt (w : World) (i newParent : Fin 256) (newName : List UInt8) (now : UInt32) :
    World × Int :=
  let old := (w.catfs.inodes i).parent.toUInt32
  let w := (journalLog w jWriteMeta (UInt32.ofNat i.val) old (UInt32.ofNat newParent.val)).1
  let w := w.mapInode i fun n => { n with
    parent := Int32.ofNat newParent.val
    name := kstrcpy n.name newName
    mtime := now }
  match syncInode w i with
  | (w, false) => (w, -1)
  | (w, true) =>
    match syncSuperblock w with
    | (w, false) => (w, -1)
    | (w, true) =>
      match journalCommit w with
      | (w, false) => (w, -1)
      | (w, true) => (w, 0)

/-- Whether another live inode under `parent` already has this name. -/
def nameTaken (c : State) (i parent : Fin 256) (name : List UInt8) : Bool :=
  (List.finRange 256).any fun j =>
    j ≠ 0 ∧ j ≠ i ∧ (c.inodes j).type ≠ typeFree ∧ (c.inodes j).parent.toInt = parent.val ∧
      nameOf (c.inodes j) = name

def catfsRename (w : World) (idx newParent : Int) (newName : CString) (now : UInt32) :
    Option (World × Int) :=
  if !w.catfs.mounted then some (w, -1)
  else
    match inodeIdx idx, inodeIdx newParent with
    | some i, some p =>
      if i = 0 then some (w, -1)
      else if (w.catfs.inodes p).type ≠ typeDir then some (w, -1)
      else if newName.chars.length = 0 ∨ newName.chars.length ≥ nameMax then some (w, -1)
      else if (w.catfs.inodes i).type = typeFree then some (w, -1)
      else
        match ancestorWalk w.catfs.inodes i 257 p.val with
        | none => none
        | some true => some (w, -1)
        | some false =>
          if nameTaken w.catfs i p newName.chars then some (w, -1)
          else some (renameAt w i p newName.chars now)
    | _, _ => some (w, -1)

/-- `catfs_chmod` after its checks. -/
def chmodAt (w : World) (i : Fin 256) (perms : UInt16) (now : UInt32) : World × Int :=
  let old := (w.catfs.inodes i).perms.toUInt32
  let new := perms &&& 0x1FF
  let w := (journalLog w jWriteMeta (UInt32.ofNat i.val) old new.toUInt32).1
  let w := w.mapInode i fun n => { n with perms := new, mtime := now }
  match syncInode w i with
  | (w, false) => (w, -1)
  | (w, true) =>
    match syncSuperblock w with
    | (w, false) => (w, -1)
    | (w, true) =>
      match journalCommit w with
      | (w, false) => (w, -1)
      | (w, true) => (w, 0)

def catfsChmod (w : World) (idx : Int) (perms : UInt16) (now : UInt32) : World × Int :=
  if !w.catfs.mounted then (w, -1)
  else
    match inodeIdx idx with
    | none => (w, -1)
    | some i =>
      if (w.catfs.inodes i).type = typeFree then (w, -1) else chmodAt w i perms now

/-! ### Block map -/

/-- `bm_alloc` on the global state. -/
def allocBlock (w : World) : World × Option UInt32 :=
  match bmAlloc w.catfs with
  | (c, b) => ({ w with catfs := c }, b)

/-- `dsk_write(block_lba(b), zero)`, status ignored. -/
def zeroBlock (w : World) (b : UInt32) : World :=
  (dskWrite w (blockLba w.catfs b) (Block.zero 512)).1

/-- The direct regime of `resolve_block`. -/
def resolveDirect (w : World) (idx : Fin 256) (k : Fin 16) (create : Bool) :
    World × Option UInt32 :=
  let b := (w.catfs.inodes idx).blocks k
  if b ≠ 0 then (w, some b)
  else if !create then (w, none)
  else
    match allocBlock w with
    | (w, none) => (w, none)
    | (w, some nb) =>
      (w.mapInode idx fun n => { n with blocks := Function.update n.blocks k nb }, some nb)

/-- The entry of pointer block `pb` at position `k`, allocated if it is empty
and `create` is set. With `fresh` the new block is itself a pointer block and is
zeroed after it has been entered. Both pointer regimes end in this code. -/
def resolvePtr (w : World) (pb : UInt32) (k : Nat) (create fresh : Bool) :
    World × Option UInt32 :=
  match dskRead w (blockLba w.catfs pb) with
  | none => (w, none)
  | some sec =>
    if ptr sec k ≠ 0 then (w, some (ptr sec k))
    else if !create then (w, none)
    else
      match allocBlock w with
      | (w, none) => (w, none)
      | (w, some nb) =>
        match dskWrite w (blockLba w.catfs pb) (setPtr sec k nb) with
        | (w, false) => (w, none)
        | (w, true) => (if fresh then zeroBlock w nb else w, some nb)

/-- The single-indirect block of an inode, allocated and zeroed if missing. -/
def resolveIndirect (w : World) (idx : Fin 256) (create : Bool) : World × Option UInt32 :=
  let b := (w.catfs.inodes idx).indirect
  if b ≠ 0 then (w, some b)
  else if !create then (w, none)
  else
    match allocBlock w with
    | (w, none) => (w, none)
    | (w, some nb) => (zeroBlock (w.mapInode idx fun n => { n with indirect := nb }) nb, some nb)

/-- The double-indirect block of an inode, allocated and zeroed if missing. -/
def resolveDindirect (w : World) (idx : Fin 256) (create : Bool) : World × Option UInt32 :=
  let b := (w.catfs.inodes idx).dindirect
  if b ≠ 0 then (w, some b)
  else if !create then (w, none)
  else
    match allocBlock w with
    | (w, none) => (w, none)
    | (w, some nb) => (zeroBlock (w.mapInode idx fun n => { n with dindirect := nb }) nb, some nb)

/-- `resolve_block`: the block number of file block `blkI`. -/
def resolveBlock (w : World) (idx : Fin 256) (blkI : Nat) (create : Bool) :
    World × Option UInt32 :=
  if h : blkI < 16 then resolveDirect w idx ⟨blkI, h⟩ create
  else
    let blkI := blkI - directBlocks
    if blkI < ptrsPerBlock then
      match resolveIndirect w idx create with
      | (w, none) => (w, none)
      | (w, some pb) => resolvePtr w pb blkI create false
    else
      let blkI := blkI - ptrsPerBlock
      let l1Idx := blkI / ptrsPerBlock
      let l2Idx := blkI % ptrsPerBlock
      if l1Idx ≥ ptrsPerBlock then (w, none)
      else
        match resolveDindirect w idx create with
        | (w, none) => (w, none)
        | (w, some db) =>
          match resolvePtr w db l1Idx create true with
          | (w, none) => (w, none)
          | (w, some pb) => resolvePtr w pb l2Idx create false

/-! ### Read, write, truncate -/

/-- The loop of `catfs_read`; `done` counts the bytes delivered, `acc` holds
them. -/
def readLoop (w : World) (idx : Fin 256) (offset len : UInt32) :
    Nat → UInt32 → List UInt8 → List UInt8
  | 0, _, acc => acc
  | fuel + 1, done, acc =>
    if ¬done < len then acc
    else
      let blkI := (offset + done).toNat / blockSize
      let blkOff := (offset + done).toNat % blockSize
      match resolveBlock w idx blkI false with
      | (_, none) => acc
      | (_, some phys) =>
        match dskRead w (blockLba w.catfs phys) with
        | none => acc
        | some tmp =>
          let chunk := min (len - done).toNat (blockSize - blkOff)
          readLoop w idx offset len fuel (done + UInt32.ofNat chunk)
            (acc ++ (List.range chunk).map fun k => tmp.byteAt (blkOff + k))

/-- `catfs_read`: the status and the bytes copied out. -/
def catfsRead (w : World) (idx : Int) (offset len now : UInt32) : World × Int × List UInt8 :=
  if !w.catfs.mounted then (w, -1, [])
  else
    match inodeIdx idx with
    | none => (w, -1, [])
    | some i =>
      let n := w.catfs.inodes i
      if n.type = typeFree then (w, -1, [])
      else if offset ≥ n.size then (w, 0, [])
      else
        let len := if offset + len > n.size then n.size - offset else len
        let out := readLoop w i offset len len.toNat 0 []
        (w.mapInode i fun n => { n with atime := now }, out.length, out)

/-- The loop of `catfs_write`; the result is the world and the bytes written.
A whole block is overwritten without being read, so what `tmp` held before does
not matter there. -/
def writeLoop (idx : Fin 256) (offset : UInt32) (buf : Nat → UInt8) (len : UInt32) :
    Nat → World → UInt32 → World × UInt32
  | 0, w, written => (w, written)
  | fuel + 1, w, written =>
    if ¬written < len then (w, written)
    else
      let blkI := (offset + written).toNat / blockSize
      let blkOff := (offset + written).toNat % blockSize
      if blkI ≥ maxFileBlocks then (w, written)
      else
        match resolveBlock w idx blkI true with
        | (w, none) => (w, written)
        | (w, some phys) =>
          let tmp :=
            if blkOff ≠ 0 ∨ (len - written).toNat < blockSize then
              (dskRead w (blockLba w.catfs phys)).getD (Block.zero 512)
            else Block.zero 512
          let chunk := min (len - written).toNat (blockSize - blkOff)
          let tmp := tmp.blit blkOff (fun k => buf (written.toNat + k)) chunk
          match dskWrite w (blockLba w.catfs phys) tmp with
          | (w, false) => (w, written)
          | (w, true) => writeLoop idx offset buf len fuel w (written + UInt32.ofNat chunk)

/-- The tail of `catfs_write` for a write that moved at least one byte. The
statuses are ignored. -/
def writeFinish (w : World) (i : Fin 256) (fin : UInt32) (now : UInt32) : World :=
  let w := (journalLog w jWriteMeta (UInt32.ofNat i.val) (w.catfs.inodes i).size fin).1
  let w := w.mapInode i fun n => { n with
    size := if fin > n.size then fin else n.size
    mtime := now }
  let w := (syncInode w i).1
  let w := (syncSuperblock w).1
  let w := (syncBitmapRegion w 0 (blocksMax - 1)).1
  (journalCommit w).1

def catfsWrite (w : World) (idx : Int) (offset : UInt32) (buf : Nat → UInt8) (len now : UInt32) :
    World × Int :=
  if !w.catfs.mounted then (w, -1)
  else
    match inodeIdx idx with
    | none => (w, -1)
    | some i =>
      if (w.catfs.inodes i).type = typeFree ∨ (w.catfs.inodes i).type = typeDir then (w, -1)
      else
        match writeLoop i offset buf len len.toNat w 0 with
        | (w, written) =>
          (if written > 0 then writeFinish w i (offset + written) now else w, written.toNat)

/-- One iteration of the pointer loops of `free_blocks_from`; the `Bool` is `any`. -/
def freePtrStep (start : Nat) (acc : State × Sector × Bool) (i : Nat) : State × Sector × Bool :=
  let (c, sec, any) := acc
  if i ≥ start ∧ ptr sec i ≠ 0 then
    (bmFree c (ptr sec i), setPtr sec i 0, any || ptr (setPtr sec i 0) i != 0)
  else (c, sec, any || ptr sec i != 0)

/-- The pointer loop of `free_blocks_from`: free and clear every entry from
`start` on. The `Bool` says whether an entry remains. -/
def freePtrs (c : State) (sec : Sector) (start : Nat) : State × Sector × Bool :=
  (List.range ptrsPerBlock).foldl (freePtrStep start) (c, sec, false)

/-- The indirect part of `free_blocks_from`. -/
def freeIndirectFrom (w : World) (idx : Fin 256) (first : Nat) : World × Bool :=
  let ind := (w.catfs.inodes idx).indirect
  if ind = 0 then (w, true)
  else
    match dskRead w (blockLba w.catfs ind) with
    | none => (w, false)
    | some sec =>
      let (c, sec, any) := freePtrs w.catfs sec (first - directBlocks)
      let w := { w with catfs := c }
      if any then dskWrite w (blockLba w.catfs ind) sec
      else
        ((w.mapCatfs fun c => bmFree c ind).mapInode idx fun n => { n with indirect := 0 }, true)

/-- One iteration over the first-level pointers in `free_blocks_from`; the state
is the world, the level-one sector and `any_l1`. -/
def freeL1Entry (first i : Nat) (w : World) (l1 : Sector) (any : Bool) :
    (World × Sector × Bool) × Bool :=
  if ptr l1 i = 0 then ((w, l1, any), true)
  else
    let base := directBlocks + ptrsPerBlock + i * ptrsPerBlock
    if first ≥ base + ptrsPerBlock then ((w, l1, true), true)
    else
      match dskRead w (blockLba w.catfs (ptr l1 i)) with
      | none => ((w, l1, any), false)
      | some sec =>
        let (c, sec, anyL2) := freePtrs w.catfs sec (first - base)
        let w := { w with catfs := c }
        if anyL2 then
          match dskWrite w (blockLba w.catfs (ptr l1 i)) sec with
          | (w, ok) => ((w, l1, true), ok)
        else ((w.mapCatfs fun c => bmFree c (ptr l1 i), setPtr l1 i 0, any), true)

/-- The loop over the first-level pointers. -/
def freeL1From (first : Nat) : List Nat → World → Sector → Bool → (World × Sector × Bool) × Bool
  | [], w, l1, any => ((w, l1, any), true)
  | i :: rest, w, l1, any =>
    match freeL1Entry first i w l1 any with
    | (r, false) => (r, false)
    | ((w, l1, any), true) => freeL1From first rest w l1 any

/-- The double-indirect part of `free_blocks_from`. -/
def freeDindirectFrom (w : World) (idx : Fin 256) (first : Nat) : World × Bool :=
  let dind := (w.catfs.inodes idx).dindirect
  if dind = 0 then (w, true)
  else
    match dskRead w (blockLba w.catfs dind) with
    | none => (w, false)
    | some l1 =>
      match freeL1From first (List.range ptrsPerBlock) w l1 false with
      | ((w, _, _), false) => (w, false)
      | ((w, l1, any), true) =>
        if any then dskWrite w (blockLba w.catfs dind) l1
        else
          ((w.mapCatfs fun c => bmFree c dind).mapInode idx fun n => { n with dindirect := 0 },
            true)

def freeBlocksFrom (w : World) (idx : Fin 256) (first : Nat) : World × Bool :=
  let w := ((List.finRange 16).filter (first ≤ ·.val)).foldl (freeDirect idx) w
  match freeIndirectFrom w idx first with
  | (w, false) => (w, false)
  | (w, true) => freeDindirectFrom w idx first

/-- `catfs_truncate` after its checks. -/
def truncateAt (w : World) (i : Fin 256) (newSize now : UInt32) : World × Int :=
  match journalLog w jWriteMeta (UInt32.ofNat i.val) (w.catfs.inodes i).size newSize with
  | (w, false) => (w, -1)
  | (w, true) =>
    let (w, ok) :=
      if newSize < (w.catfs.inodes i).size then
        freeBlocksFrom w i ((newSize + 511).toNat / blockSize)
      else (w, true)
    if !ok then (w, -1)
    else
      let w := w.mapInode i fun n => { n with size := newSize, mtime := now }
      match syncInode w i with
      | (w, false) => (w, -1)
      | (w, true) =>
        match syncSuperblock w with
        | (w, false) => (w, -1)
        | (w, true) =>
          match syncBitmapRegion w 0 (blocksMax - 1) with
          | (w, false) => (w, -1)
          | (w, true) =>
            match journalCommit w with
            | (w, false) => (w, -1)
            | (w, true) => (w, 0)

def catfsTruncate (w : World) (idx : Int) (newSize now : UInt32) : World × Int :=
  if !w.catfs.mounted then (w, -1)
  else
    match inodeIdx idx with
    | none => (w, -1)
    | some i =>
      if (w.catfs.inodes i).type = typeFree ∨ (w.catfs.inodes i).type = typeDir then (w, -1)
      else truncateAt w i newSize now

end AtmKoala.Catfs
