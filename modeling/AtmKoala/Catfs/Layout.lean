import AtmKoala.Disk

/-!
On-disk layout of CatFS v2 (`catfs.h` and the layout macros of `catfs.c`): the
packed records, their byte codecs and the sector regions.

Every record is a flat structure of machine words. `encode` gives its bytes in
declaration order, `decode` reads them back; `decode_encode` is the round trip,
for the inode, the superblock and the journal header. A pointer sector is read and
patched one 32-bit word at a time (`ptr`, `setPtr`).
-/

namespace AtmKoala.Catfs

open Lib

/-! ### Constants -/

/-- `CATFS_MAGIC`. -/
@[simp] def magicV2 : UInt32 := 0xCAFE4002
/-- `CATFS_BLOCK_SIZE`. -/
@[simp] def blockSize : Nat := 512
/-- `CATFS_INODE_MAX`. -/
@[simp] def inodeMax : Nat := 256
/-- `CATFS_BLOCKS_MAX`. -/
@[simp] def blocksMax : Nat := 16384
/-- `CATFS_NAME_MAX`. -/
@[simp] def nameMax : Nat := 56
/-- `CATFS_DIRECT_BLOCKS`. -/
@[simp] def directBlocks : Nat := 16
/-- `CATFS_PTRS_PER_BLOCK`. -/
@[simp] def ptrsPerBlock : Nat := 128
/-- `CATFS_MAX_FILE_BLOCKS`. -/
@[simp] def maxFileBlocks : Nat := directBlocks + ptrsPerBlock + ptrsPerBlock * ptrsPerBlock

/-- `CATFS_TYPE_FREE`, `CATFS_TYPE_FILE`, `CATFS_TYPE_DIR`. The type is a byte
of the inode and every other value is stored as it is. -/
@[simp] def typeFree : UInt8 := 0
@[simp] def typeFile : UInt8 := 1
@[simp] def typeDir : UInt8 := 2

/-- `CATFS_PERM_DEFAULT_FILE` and `CATFS_PERM_DEFAULT_DIR` (octal 0644, 0755). -/
@[simp] def permDefaultFile : UInt16 := 0x1A4
@[simp] def permDefaultDir : UInt16 := 0x1ED

/-- Journal record types `CATFS_J_*`. -/
@[simp] def jNone : UInt8 := 0
@[simp] def jCreate : UInt8 := 1
@[simp] def jUnlink : UInt8 := 2
@[simp] def jWriteMeta : UInt8 := 3

/-- `sizeof(catfs_journal_rec_t)`, `sizeof(catfs_inode_t)` (both packed). -/
@[simp] def recSize : Nat := 20
@[simp] def inodeSize : Nat := 151

/-- `CATFS_JOURNAL_SLOTS`: eight sectors' worth of bytes, divided by the record
size. -/
def journalSlots : Nat := 8 * blockSize / recSize
/-- Records that fit whole into one sector. -/
def recsPerSector : Nat := 512 / recSize

@[simp] def sbLba : Nat := 0
@[simp] def journalHdrLba : Nat := 1
@[simp] def journalLogLba : Nat := 2
@[simp] def journalLogSectors : Nat := 8
def inodeTableLba : Nat := journalLogLba + journalLogSectors
def inodesPerSector : Nat := 512 / inodeSize
def inodeSectors : Nat := (inodeMax + inodesPerSector - 1) / inodesPerSector
def bitmapLba : Nat := inodeTableLba + inodeSectors
def bitmapBytes : Nat := blocksMax / 8
def bitmapSectors : Nat := (bitmapBytes + 512 - 1) / 512
def dataLba : Nat := bitmapLba + bitmapSectors

@[simp] theorem journalSlots_eq : journalSlots = 204 := rfl
@[simp] theorem recsPerSector_eq : recsPerSector = 25 := rfl
@[simp] theorem inodeTableLba_eq : inodeTableLba = 10 := rfl
@[simp] theorem inodesPerSector_eq : inodesPerSector = 3 := rfl
@[simp] theorem inodeSectors_eq : inodeSectors = 86 := rfl
@[simp] theorem bitmapLba_eq : bitmapLba = 96 := rfl
@[simp] theorem bitmapBytes_eq : bitmapBytes = 2048 := rfl
@[simp] theorem bitmapSectors_eq : bitmapSectors = 4 := rfl
@[simp] theorem dataLba_eq : dataLba = 100 := rfl

/-! ### Records -/

/-- `catfs_journal_rec_t` (its padding bytes are always written as zero). -/
structure JournalRec where
  type : UInt8
  inodeIdx : UInt32
  a : UInt32
  b : UInt32
  seq : UInt32
deriving DecidableEq

def JournalRec.encode (r : JournalRec) (k : Nat) : UInt8 :=
  if k < 1 then r.type
  else if k < 4 then 0
  else if k < 8 then u32Byte r.inodeIdx (k - 4)
  else if k < 12 then u32Byte r.a (k - 8)
  else if k < 16 then u32Byte r.b (k - 12)
  else u32Byte r.seq (k - 16)

/-- `catfs_journal_hdr_t`. -/
structure JournalHdr where
  magic : UInt32
  head : UInt32
  committedSeq : UInt32
  pad : Fin 500 → UInt8

def JournalHdr.encode (h : JournalHdr) (k : Nat) : UInt8 :=
  if k < 4 then u32Byte h.magic k
  else if k < 8 then u32Byte h.head (k - 4)
  else if k < 12 then u32Byte h.committedSeq (k - 8)
  else if hk : k - 12 < 500 then h.pad ⟨k - 12, hk⟩
  else 0

def JournalHdr.decode (f : Nat → UInt8) : JournalHdr where
  magic := u32At f 0
  head := u32At f 4
  committedSeq := u32At f 8
  pad := fun i => f (12 + i.val)

/-- `catfs_super_t`. -/
structure Super where
  magic : UInt32
  version : UInt32
  totalBlocks : UInt32
  freeBlocks : UInt32
  inodeCount : UInt32
  freeInodes : UInt32
  dataStartLba : UInt32
  bitmapLba : UInt32
  inodeTableLba : UInt32
  journalLba : UInt32
  cleanUnmount : UInt32
  label : Fin 32 → UInt8
  pad : Fin 436 → UInt8

def Super.encode (s : Super) (k : Nat) : UInt8 :=
  if k < 4 then u32Byte s.magic k
  else if k < 8 then u32Byte s.version (k - 4)
  else if k < 12 then u32Byte s.totalBlocks (k - 8)
  else if k < 16 then u32Byte s.freeBlocks (k - 12)
  else if k < 20 then u32Byte s.inodeCount (k - 16)
  else if k < 24 then u32Byte s.freeInodes (k - 20)
  else if k < 28 then u32Byte s.dataStartLba (k - 24)
  else if k < 32 then u32Byte s.bitmapLba (k - 28)
  else if k < 36 then u32Byte s.inodeTableLba (k - 32)
  else if k < 40 then u32Byte s.journalLba (k - 36)
  else if k < 44 then u32Byte s.cleanUnmount (k - 40)
  else if hk : k - 44 < 32 then s.label ⟨k - 44, hk⟩
  else if hk : k - 76 < 436 then s.pad ⟨k - 76, hk⟩
  else 0

def Super.decode (f : Nat → UInt8) : Super where
  magic := u32At f 0
  version := u32At f 4
  totalBlocks := u32At f 8
  freeBlocks := u32At f 12
  inodeCount := u32At f 16
  freeInodes := u32At f 20
  dataStartLba := u32At f 24
  bitmapLba := u32At f 28
  inodeTableLba := u32At f 32
  journalLba := u32At f 36
  cleanUnmount := u32At f 40
  label := fun i => f (44 + i.val)
  pad := fun i => f (76 + i.val)

/-- `catfs_inode_t`. `parent` is an `int32_t`. -/
structure Inode where
  name : Fin 56 → UInt8
  type : UInt8
  perms : UInt16
  size : UInt32
  parent : Int32
  ctime : UInt32
  mtime : UInt32
  atime : UInt32
  blocks : Fin 16 → UInt32
  indirect : UInt32
  dindirect : UInt32

def Inode.encode (n : Inode) (k : Nat) : UInt8 :=
  if hk : k < 56 then n.name ⟨k, hk⟩
  else if k < 57 then n.type
  else if k < 59 then u16Byte n.perms (k - 57)
  else if k < 63 then u32Byte n.size (k - 59)
  else if k < 67 then u32Byte n.parent.toUInt32 (k - 63)
  else if k < 71 then u32Byte n.ctime (k - 67)
  else if k < 75 then u32Byte n.mtime (k - 71)
  else if k < 79 then u32Byte n.atime (k - 75)
  else if hk : (k - 79) / 4 < 16 then u32Byte (n.blocks ⟨(k - 79) / 4, hk⟩) ((k - 79) % 4)
  else if k < 147 then u32Byte n.indirect (k - 143)
  else u32Byte n.dindirect (k - 147)

def Inode.decode (f : Nat → UInt8) : Inode where
  name := fun i => f i.val
  type := f 56
  perms := u16At f 57
  size := u32At f 59
  parent := (u32At f 63).toInt32
  ctime := u32At f 67
  mtime := u32At f 71
  atime := u32At f 75
  blocks := fun i => u32At f (79 + 4 * i.val)
  indirect := u32At f 143
  dindirect := u32At f 147

/-- An all-zero inode (`kmemset(in, 0, sizeof(*in))`). -/
def Inode.zero : Inode where
  name := fun _ => 0
  type := 0
  perms := 0
  size := 0
  parent := 0
  ctime := 0
  mtime := 0
  atime := 0
  blocks := fun _ => 0
  indirect := 0
  dindirect := 0

/-! ### Round trips -/

section RoundTrips

variable {f : Nat → UInt8}

/-- A stream that carries the bytes of an inode decodes to that inode. -/
theorem Inode.decode_encode {n : Inode} (h : ∀ k, k < 151 → f k = n.encode k) :
    Inode.decode f = n := by
  have word : ∀ {off : Nat} {v : UInt32}, off + 4 ≤ 151 →
      (∀ k, k < 4 → n.encode (off + k) = u32Byte v k) → u32At f off = v := by
    intro off v hoff hv
    exact u32At_eq_of_bytes fun k hk => by rw [h (off + k) (by omega), hv k hk]
  have hname : (fun i : Fin 56 => f i.val) = n.name := by
    funext i
    rw [h i.val (by omega)]
    simp [Inode.encode, i.isLt]
  have hperms : u16At f 57 = n.perms := u16At_eq_of_bytes fun k hk => by
    rw [h (57 + k) (by omega)]
    have h1 : ¬57 + k < 56 := by omega
    have h2 : ¬57 + k < 57 := by omega
    have h3 : 57 + k < 59 := by omega
    simp [Inode.encode, h1, h3]
  have hblocks : (fun i : Fin 16 => u32At f (79 + 4 * i.val)) = n.blocks := by
    funext i
    refine word (by omega) fun k hk => ?_
    have hdiv : (79 + 4 * i.val + k - 79) / 4 = i.val := by omega
    have hmod : (79 + 4 * i.val + k - 79) % 4 = k := by omega
    simp only [Inode.encode, hdiv, hmod, i.isLt, dif_pos]
    simp only [show ¬79 + 4 * i.val + k < 56 by omega, show ¬79 + 4 * i.val + k < 57 by omega,
      show ¬79 + 4 * i.val + k < 59 by omega, show ¬79 + 4 * i.val + k < 63 by omega,
      show ¬79 + 4 * i.val + k < 67 by omega, show ¬79 + 4 * i.val + k < 71 by omega,
      show ¬79 + 4 * i.val + k < 75 by omega, show ¬79 + 4 * i.val + k < 79 by omega,
      dif_neg, if_neg, not_false_eq_true]
  have hparent : u32At f 63 = n.parent.toUInt32 := by
    refine word (by omega) fun k hk => ?_
    grind [Inode.encode]
  have e1 : f 56 = n.type := by rw [h 56 (by omega)]; rfl
  have e2 : u32At f 59 = n.size := word (by omega) fun k hk => by grind [Inode.encode]
  have e3 : u32At f 67 = n.ctime := word (by omega) fun k hk => by grind [Inode.encode]
  have e4 : u32At f 71 = n.mtime := word (by omega) fun k hk => by grind [Inode.encode]
  have e5 : u32At f 75 = n.atime := word (by omega) fun k hk => by grind [Inode.encode]
  have e6 : u32At f 143 = n.indirect := word (by omega) fun k hk => by grind [Inode.encode]
  have e7 : u32At f 147 = n.dindirect := word (by omega) fun k hk => by grind [Inode.encode]
  cases n
  simp only [Inode.decode, Inode.mk.injEq]
  exact ⟨hname, e1, hperms, e2, by rw [hparent]; simp, e3, e4, e5, hblocks, e6, e7⟩

/-- A stream that carries the bytes of a superblock decodes to it. -/
theorem Super.decode_encode {s : Super} (h : ∀ k, k < 512 → f k = s.encode k) :
    Super.decode f = s := by
  have word : ∀ {off : Nat} {v : UInt32}, off + 4 ≤ 512 →
      (∀ k, k < 4 → s.encode (off + k) = u32Byte v k) → u32At f off = v := by
    intro off v hoff hv
    exact u32At_eq_of_bytes fun k hk => by rw [h (off + k) (by omega), hv k hk]
  have hlabel : (fun i : Fin 32 => f (44 + i.val)) = s.label := by
    funext i
    rw [h (44 + i.val) (by omega)]
    grind [Super.encode]
  have hpad : (fun i : Fin 436 => f (76 + i.val)) = s.pad := by
    funext i
    rw [h (76 + i.val) (by omega)]
    grind [Super.encode]
  have w0 : u32At f 0 = s.magic := word (by omega) fun k hk => by grind [Super.encode]
  have w1 : u32At f 4 = s.version := word (by omega) fun k hk => by grind [Super.encode]
  have w2 : u32At f 8 = s.totalBlocks := word (by omega) fun k hk => by grind [Super.encode]
  have w3 : u32At f 12 = s.freeBlocks := word (by omega) fun k hk => by grind [Super.encode]
  have w4 : u32At f 16 = s.inodeCount := word (by omega) fun k hk => by grind [Super.encode]
  have w5 : u32At f 20 = s.freeInodes := word (by omega) fun k hk => by grind [Super.encode]
  have w6 : u32At f 24 = s.dataStartLba := word (by omega) fun k hk => by grind [Super.encode]
  have w7 : u32At f 28 = s.bitmapLba := word (by omega) fun k hk => by grind [Super.encode]
  have w8 : u32At f 32 = s.inodeTableLba := word (by omega) fun k hk => by grind [Super.encode]
  have w9 : u32At f 36 = s.journalLba := word (by omega) fun k hk => by grind [Super.encode]
  have w10 : u32At f 40 = s.cleanUnmount := word (by omega) fun k hk => by grind [Super.encode]
  cases s
  simp only [Super.decode, Super.mk.injEq]
  exact ⟨w0, w1, w2, w3, w4, w5, w6, w7, w8, w9, w10, hlabel, hpad⟩

/-- A stream that carries the bytes of a journal header decodes to it. -/
theorem JournalHdr.decode_encode {r : JournalHdr} (h : ∀ k, k < 512 → f k = r.encode k) :
    JournalHdr.decode f = r := by
  have word : ∀ {off : Nat} {v : UInt32}, off + 4 ≤ 512 →
      (∀ k, k < 4 → r.encode (off + k) = u32Byte v k) → u32At f off = v := by
    intro off v hoff hv
    exact u32At_eq_of_bytes fun k hk => by rw [h (off + k) (by omega), hv k hk]
  have hpad : (fun i : Fin 500 => f (12 + i.val)) = r.pad := by
    funext i
    rw [h (12 + i.val) (by omega)]
    grind [JournalHdr.encode]
  have w0 : u32At f 0 = r.magic := word (by omega) fun k hk => by grind [JournalHdr.encode]
  have w1 : u32At f 4 = r.head := word (by omega) fun k hk => by grind [JournalHdr.encode]
  have w2 : u32At f 8 = r.committedSeq := word (by omega) fun k hk => by grind [JournalHdr.encode]
  cases r
  simp only [JournalHdr.decode, JournalHdr.mk.injEq]
  exact ⟨w0, w1, w2, hpad⟩

/-- Decoding an inode reads its 151 bytes and no others. -/
theorem Inode.decode_congr {g : Nat → UInt8} (h : ∀ k, k < 151 → f k = g k) :
    Inode.decode f = Inode.decode g := by
  have word : ∀ off, off + 4 ≤ 151 → u32At f off = u32At g off := fun off hoff =>
    u32At_congr fun k hk => h (off + k) (by omega)
  have hperms : u16At f 57 = u16At g 57 := u16At_congr fun k hk => h (57 + k) (by omega)
  simp only [Inode.decode, Inode.mk.injEq]
  refine ⟨?_, h 56 (by omega), hperms, word 59 (by omega), ?_, word 67 (by omega),
    word 71 (by omega), word 75 (by omega), ?_, word 143 (by omega), word 147 (by omega)⟩
  · funext i
    exact h i.val (by omega)
  · rw [word 63 (by omega)]
  · funext i
    exact word (79 + 4 * i.val) (by omega)

end RoundTrips

/-! ### Sectors of records -/

/-- Word `i` of a pointer sector (`((uint32_t *)sec)[i]`). -/
def ptr (sec : Sector) (i : Nat) : UInt32 := u32At sec.byteAt (4 * i)

/-- The pointer sector after `((uint32_t *)sec)[i] = v`. -/
def setPtr (sec : Sector) (i : Nat) (v : UInt32) : Sector := sec.blit (4 * i) (u32Byte v) 4

theorem ptr_setPtr_self (sec : Sector) {i : Nat} (v : UInt32) (hi : i < 128) :
    ptr (setPtr sec i v) i = v := by
  refine u32At_eq_of_bytes fun k hk => ?_
  rw [setPtr, Block.byteAt_blit _ _ _ _ _ (by omega)]
  simp [hk]

theorem ptr_setPtr_ne (sec : Sector) {i j : Nat} (v : UInt32) (hj : j < 128) (hij : i ≠ j) :
    ptr (setPtr sec i v) j = ptr sec j := by
  refine u32At_congr fun k hk => ?_
  rw [setPtr, Block.byteAt_blit _ _ _ _ _ (by omega), if_neg (by omega)]

@[simp] theorem ptr_zero (i : Nat) : ptr (Block.zero 512) i = 0 := by
  refine (u32At_congr fun k _ => ?_).trans (u32At_zero_stream (4 * i))
  simp

/-- Inode `slot` of an inode-table sector; slots start every 151 bytes. -/
def inodeIn (sec : Sector) (slot : Nat) : Inode :=
  Inode.decode fun k => sec.byteAt (slot * inodeSize + k)

/-- The inode-table sector after `kmemcpy(sec + slot * 151, in, 151)`. -/
def putInode (sec : Sector) (slot : Nat) (n : Inode) : Sector :=
  sec.blit (slot * inodeSize) n.encode inodeSize

theorem inodeIn_putInode_self (sec : Sector) {slot : Nat} (n : Inode) (h : slot < 3) :
    inodeIn (putInode sec slot n) slot = n := by
  refine Inode.decode_encode fun k hk => ?_
  simp only [putInode, inodeSize]
  rw [Block.byteAt_blit _ _ _ _ _ (by omega), if_pos (by omega)]
  congr 1
  omega

theorem inodeIn_putInode_ne (sec : Sector) {slot slot' : Nat} (n : Inode) (h : slot' < 3)
    (hne : slot ≠ slot') : inodeIn (putInode sec slot n) slot' = inodeIn sec slot' := by
  refine Inode.decode_congr fun k hk => ?_
  simp only [putInode, inodeSize]
  rw [Block.byteAt_blit _ _ _ _ _ (by omega), if_neg (by omega)]

end AtmKoala.Catfs
