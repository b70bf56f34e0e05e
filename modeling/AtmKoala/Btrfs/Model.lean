import AtmKoala.Lib.Access
import AtmKoala.Lib.Torn
import AtmKoala.Partmgr

/-!
Btrfs superblocks: `btrfs.c`.

A superblock is a block of 4096 bytes, of which a partition holds up to three mirrors.
`btrfsProbePartition` selects one of them, and `btrfsLabelSet` rewrites all that can be
trusted. The answer of the flush behind each write is a parameter.

Left out are the fields of `btrfs_state_t` that are only printed.
-/

namespace AtmKoala.Btrfs

open Lib Partmgr
open Catfs (World)

/-- `BTRFS_SUPER_SIZE` bytes. -/
abbrev Super : Type := Block 4096

/-- `BTRFS_MIRROR_0` and the others. -/
def mirrorOffset : Fin 3 → UInt64
  | 0 => 0x10000
  | 1 => 0x4000000
  | 2 => 0x4000000000

/-! ### Superblocks -/

def crcBit (c : UInt32) : UInt32 := (c >>> 1) ^^^ (if c &&& 1 ≠ 0 then 0x82F63B78 else 0)

def crcByte (c : UInt32) (b : UInt8) : UInt32 := crcBit^[8] (c ^^^ b.toUInt32)

/-- `crc32c_btrfs`. -/
def crc32cBtrfs (data : Bytes) : UInt32 := data.foldl crcByte 0xFFFFFFFF ^^^ 0xFFFFFFFF

/-- The checksum of the bytes behind the checksum area. -/
def superCrc (s : Super) : UInt32 := crc32cBtrfs ((List.range (4096 - 32)).map fun k => s.byteAt (32 + k))

/-- `pow2`. -/
def pow2 (v : UInt32) : Bool := v ≠ 0 ∧ v &&& (v - 1) = 0

/-- `geometry_ok`. -/
def geometryOk (s : Super) : Bool :=
  let sec := u32At s.byteAt 0x90
  let node := u32At s.byteAt 0x94
  pow2 sec ∧ pow2 node ∧ 512 ≤ sec ∧ sec ≤ 65536 ∧ sec ≤ node ∧ node ≤ 65536

/-- `_BHRfS_M`. -/
def magic : Bytes := [0x5F, 0x42, 0x48, 0x52, 0x66, 0x53, 0x5F, 0x4D]

def magicOk (s : Super) : Bool := (List.range 8).map (fun k => s.byteAt (0x40 + k)) = magic

def csumOk (s : Super) : Bool := u16At s.byteAt 0xC4 = 0 ∧ u32At s.byteAt 0 = superCrc s

/-- The bytes of a string of at most `n`. -/
def stringAt (s : Super) (off n : Nat) : Bytes :=
  ((List.range n).map fun k => s.byteAt (off + k)).takeWhile (· ≠ 0)

/-- `label_copy` of the label. -/
def labelCopy (s : Super) : Bytes := stringAt s 0x12B 256

/-- `super_valid_at`. -/
def superValidAt (s : Super) (off : UInt64) : Bool :=
  magicOk s ∧ geometryOk s ∧ u64At s.byteAt 0x30 = off ∧ csumOk s

/-! ### State -/

/-- `btrfs_mirror_t`. -/
structure Mirror where
  offset : UInt64
  bytenr : UInt64
  generation : UInt64
  present : Bool
  magicOk : Bool
  csumOk : Bool
  geometryOk : Bool

/-- `btrfs_state_t`. -/
structure BtrfsState where
  valid : Bool
  trusted : Bool
  writeEnabled : Bool
  drive : Int
  partLba : UInt32
  selectedMirror : Option (Fin 3)
  generation : UInt64
  csumType : UInt16
  label : Bytes
  mirrors : Fin 3 → Mirror

/-! ### Sectors -/

/-- The sector of a mirror, in 64 bits. -/
def mirrorLba (partLba : UInt32) (i : Fin 3) : Nat := partLba.toNat + (mirrorOffset i).toNat / 512

/-- `disk_read`. -/
def diskRead (w : World) (drive : Int) : UInt32 → Nat → Option (List Sector)
  | _, 0 => some []
  | lba, n + 1 =>
    match diskReadSector w.drives w.disk drive lba with
    | none => none
    | some sec =>
      match diskRead w drive (lba + 1) n with
      | none => none
      | some secs => some (sec :: secs)

def ofSectors (secs : List Sector) : Super := fun k =>
  (secs.getD (k.val / 512) (Block.zero 512)).byteAt (k.val % 512)

/-- `read_super_at` of a mirror. -/
def readSuper (w : World) (drive : Int) (partLba : UInt32) (i : Fin 3) : Option Super :=
  if 0xFFFFFFFF < mirrorLba partLba i then none
  else (diskRead w drive (UInt32.ofNat (mirrorLba partLba i)) 8).map ofSectors

def sector (s : Super) (j : Nat) : Sector := fun k => s.byteAt (j * 512 + k.val)

/-- The sectors of `disk_write` from sector `j` of the superblock on. -/
def diskWrite (drive : Int) (s : Super) : World → UInt32 → Nat → Nat → World × Bool
  | w, _, _, 0 => (w, true)
  | w, lba, j, n + 1 =>
    if diskWritable w.drives drive lba then
      diskWrite drive s
        { w with
          disk := Function.update w.disk (drive, lba28 lba) (sector s j)
          issued := w.issued ++ [((drive, lba28 lba), sector s j)] } (lba + 1) (j + 1) n
    else (w, false)

/-- `write_super_at` of a mirror. -/
def writeSuper (flush : Bool) (w : World) (drive : Int) (partLba : UInt32) (i : Fin 3) (s : Super) :
    World × Bool :=
  if 0xFFFFFFFF < mirrorLba partLba i then (w, false)
  else
    let (w, done) := diskWrite drive s w (UInt32.ofNat (mirrorLba partLba i)) 0 8
    (w, done && flush)

/-! ### Probing -/

/-- The superblock at a mirror, if it lies in the partition and can be read. -/
def found (w : World) (drive : Int) (e : MbrEntry) (i : Fin 3) : Option Super :=
  if (mirrorOffset i).toNat + 4096 > e.sectorCount.toNat * 512 then none
  else readSuper w drive e.lbaStart i

def Mirror.of (i : Fin 3) : Option Super → Mirror
  | none => ⟨mirrorOffset i, 0, 0, false, false, false, false⟩
  | some s =>
    ⟨mirrorOffset i, u64At s.byteAt 0x30, u64At s.byteAt 0x48, true, Btrfs.magicOk s, Btrfs.csumOk s,
      Btrfs.geometryOk s⟩

def mirrorsAt (w : World) (drive : Int) (e : MbrEntry) (i : Fin 3) : Mirror :=
  Mirror.of i (found w drive e i)

/-- The mirrors among which one is selected. -/
def Mirror.acceptable (m : Mirror) : Bool :=
  m.present ∧ m.magicOk ∧ m.geometryOk ∧ m.bytenr = m.offset

/-- The mirrors in the order in which they are read. -/
def readOrder : List (Fin 3) := [0, 1, 2]

/-- `better_mirror`. -/
def betterMirror (cand best : Mirror) : Bool :=
  if !best.present then true
  else if cand.csumOk ≠ best.csumOk then cand.csumOk && !best.csumOk
  else best.generation < cand.generation

/-- The loop of `btrfs_probe_partition` over the mirrors. -/
def select (mirrors : Fin 3 → Mirror) : Option (Fin 3) :=
  readOrder.foldl (fun best i =>
    if (mirrors i).acceptable then
      match best with
      | none => some i
      | some b => if betterMirror (mirrors i) (mirrors b) then some i else some b
    else best) none

/-- The state before a mirror is selected. -/
def probeStart (drive : Int) (e : MbrEntry) (mirrors : Fin 3 → Mirror) : BtrfsState where
  valid := false
  trusted := false
  writeEnabled := false
  drive := drive
  partLba := e.lbaStart
  selectedMirror := none
  generation := 0
  csumType := 0
  label := []
  mirrors := mirrors

/-- `copy_selected`. -/
def copySelected (st : BtrfsState) (s : Super) (i : Fin 3) : BtrfsState :=
  { st with
    selectedMirror := some i
    generation := u64At s.byteAt 0x48
    csumType := u16At s.byteAt 0xC4
    label := labelCopy s }

/-- The state with mirror `i` selected. -/
def selectedState (w : World) (drive : Int) (e : MbrEntry) (i : Fin 3) : BtrfsState :=
  { copySelected (probeStart drive e (mirrorsAt w drive e))
      ((found w drive e i).getD (Block.zero 4096)) i with
    valid := true
    trusted := (mirrorsAt w drive e i).csumOk }

/-- `btrfs_probe_partition`. -/
def btrfsProbePartition (w : World) (st : BtrfsState) (drive part : Int) : BtrfsState × Bool :=
  if known : drive < 0 ∨ part < 0 ∨ 4 ≤ part then (st, false)
  else
    let (m, ok) := mbrRead w drive mbrInitEmpty
    let e := m.entries ⟨part.toNat, by omega⟩
    if ok = false ∨ m.valid = false ∨ e.sectorCount = 0 then (st, false)
    else
      match select (mirrorsAt w drive e) with
      | none => (probeStart drive e (mirrorsAt w drive e), false)
      | some i => (selectedState w drive e i, true)

/-- `btrfs_set_write_enabled`. -/
def btrfsSetWriteEnabled (st : BtrfsState) (enabled : Bool) : BtrfsState × Bool :=
  if !enabled then ({ st with writeEnabled := false }, true)
  else if !st.valid ∨ !st.trusted ∨ st.csumType ≠ 0 then (st, false)
  else ({ st with writeEnabled := true }, true)

/-! ### The label -/

/-- `label_ok`, of the bytes in front of the NUL. -/
def labelOk (label : Bytes) : Bool :=
  label ≠ [] ∧ label.length ≤ 255 ∧ ∀ c ∈ label, 32 ≤ c ∧ c ≠ 47 ∧ c ≠ 92

/-- The superblock with its checksum. -/
def sealed (s : Super) : Super := s.blit 0 (u32Byte (superCrc s)) 4

/-- The superblock with a new generation and label. -/
def relabel (s : Super) (generation : UInt64) (label : Bytes) : Super :=
  let s := s.blit 0 (fun _ => 0) 32
  let s := s.blit 0x48 (u64Byte generation) 8
  let s := s.blit 0x12B (fun _ => 0) 256
  sealed (s.blit 0x12B (fun k => label.getD k 0) (label.length + 1))

/-- The mirrors that can be trusted. -/
def Mirror.usable (m : Mirror) : Bool := m.present && m.csumOk

/-- The preflight over the mirrors `order`: the first error. -/
def preflight (w : World) (st : BtrfsState) : List (Fin 3) → Except String Unit
  | [] => .ok ()
  | i :: order =>
    if (st.mirrors i).usable then
      match readSuper w st.drive st.partLba i with
      | none => .error "preflight read failed"
      | some s =>
        if superValidAt s (st.mirrors i).offset then preflight w st order
        else .error "preflight superblock verification failed"
    else preflight w st order

/-- The new contents of a mirror. -/
def transaction (w : World) (st : BtrfsState) (label : Bytes) (i : Fin 3) : Option Super :=
  if (st.mirrors i).usable then
    (readSuper w st.drive st.partLba i).map fun s => relabel s (st.generation + 1) label
  else none

/-- The writes of the mirrors `order`. -/
def writeMirrors (flush : Fin 3 → Bool) (st : BtrfsState) (tx : Fin 3 → Option Super) :
    World → List (Fin 3) → World × Except String Unit
  | w, [] => (w, .ok ())
  | w, i :: order =>
    match tx i with
    | none => writeMirrors flush st tx w order
    | some s =>
      let (w, done) := writeSuper (flush i) w st.drive st.partLba i s
      if done then writeMirrors flush st tx w order
      else (w, .error (if i = 0 then "primary mirror write failed" else "secondary mirror write failed"))

/-- The mirrors in the order in which they are written. -/
def writeOrder : List (Fin 3) := [2, 1, 0]

/-- A mirror that has been checked has the new generation. -/
def BtrfsState.updated (st : BtrfsState) (i : Fin 3) (generation : UInt64) : BtrfsState :=
  { st with mirrors := Function.update st.mirrors i { st.mirrors i with generation := generation } }

/-- The check of the mirrors `order` after the writes. -/
def verify (w : World) (next : UInt64) (label : Bytes) :
    BtrfsState → List (Fin 3) → BtrfsState × Except String Unit
  | st, [] => (st, .ok ())
  | st, i :: order =>
    if (st.mirrors i).usable then
      match readSuper w st.drive st.partLba i with
      | none => (st, .error "post-write read failed")
      | some s =>
        if !superValidAt s (st.mirrors i).offset then
          (st, .error "post-write checksum verification failed")
        else if u64At s.byteAt 0x48 ≠ next then (st, .error "post-write generation mismatch")
        else if stringAt s 0x12B (4096 - 0x12B) ≠ label then (st, .error "post-write label mismatch")
        else verify w next label (st.updated i next) order
    else verify w next label st order

/-- `btrfs_label_set`. -/
def btrfsLabelSet (flush : Fin 3 → Bool) (w : World) (st : BtrfsState) (label : Bytes) :
    World × BtrfsState × Except String Unit :=
  if !st.writeEnabled ∨ !st.valid ∨ !st.trusted ∨ !labelOk label then
    (w, st, .error "invalid label or write capability disabled")
  else
    match preflight w st readOrder with
    | .error e => (w, st, .error e)
    | .ok () =>
      if ∀ i, (st.mirrors i).usable = false then (w, st, .error "no trusted mirror available")
      else
        match writeMirrors flush st (transaction w st label) w writeOrder with
        | (w', .error e) => (w', st, .error e)
        | (w', .ok ()) =>
          match verify w' (st.generation + 1) label st readOrder with
          | (st, .error e) => (w', st, .error e)
          | (st, .ok ()) =>
            (w', { st with generation := st.generation + 1, label := label }, .ok ())

end AtmKoala.Btrfs
