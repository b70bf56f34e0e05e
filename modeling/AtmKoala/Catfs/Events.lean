import AtmKoala.Catfs.Bits

/-!
What CatFS does to a reliable drive, as events.

On a drive that answers every request, each routine of `catfs.c` is a change of
the in-memory state together with a list of sector writes. `Ev` names the
writes by what they are for: a journal record, one inode, a whole inode sector,
the superblock, a bitmap sector, the journal header, a data-area block. `Store`
is the volume seen from its own start (`World.sector`), `runEvents` plays
events on it, and `World.perform` is the world after a state change and a list
of events.

* `perform_perform`, `sector_perform`: performing composes, and the volume then
  shows what `runEvents` says.
* `physTrace_take`: a power cut after `k` writes is a cut after `k` events.
* `journalLog_eq` … `catfsSync_eq`: each writing routine in this form.
-/

namespace AtmKoala.Catfs

open Lib

/-- The sectors of a volume, numbered from the start of the file system. -/
abbrev Store : Type := Nat → Sector

/-- Sectors a CatFS volume uses: the metadata and all data blocks. -/
def volumeSectors : Nat := dataLba + blocksMax

@[simp] theorem volumeSectors_eq : volumeSectors = 16484 := rfl

/-! ### Events -/

/-- A sector write, by purpose. -/
inductive Ev where
  | record (slot : Fin 204) (r : JournalRec)
  | inode (i : Fin 256) (n : Inode)
  | table (s : Fin 86) (inodes : Fin 256 → Inode)
  | super (sb : Super)
  | bitmap (s : Fin 4) (bm : Bitmap)
  | header (jh : JournalHdr)
  | block (b : Fin 16384) (sec : Sector)

namespace Ev

/-- The sector an event writes. -/
def lba : Ev → Nat
  | record slot _ => journalLogLba + slot.val / recsPerSector
  | inode i _ => inodeTableLba + i.val / inodesPerSector
  | table s _ => inodeTableLba + s.val
  | super _ => sbLba
  | bitmap s _ => bitmapLba + s.val
  | header _ => journalHdrLba
  | block b _ => dataLba + b.val

/-- The contents it writes there, which may patch what the sector holds. -/
def content (σ : Store) : Ev → Sector
  | record slot r =>
    (σ (journalLogLba + slot.val / recsPerSector)).blit
      (slot.val % recsPerSector * recSize) r.encode recSize
  | inode i n => putInode (σ (inodeTableLba + i.val / inodesPerSector)) (i.val % inodesPerSector) n
  | table s inodes => inodeSectorOf inodes s.val
  | super sb => (Block.zero 512).blit 0 sb.encode 512
  | bitmap s bm => bitmapSectorOf bm s.val
  | header jh => (Block.zero 512).blit 0 jh.encode 512
  | block _ sec => sec

def apply (σ : Store) (e : Ev) : Store := Function.update σ e.lba (e.content σ)

theorem lba_lt (e : Ev) : e.lba < 16484 := by
  cases e <;> simp [lba] <;> omega

/-- Whether the write goes to the data area. -/
def isBlock : Ev → Bool
  | block _ _ => true
  | _ => false

theorem lba_lt_of_not_block {e : Ev} (h : e.isBlock = false) : e.lba < 100 := by
  cases e <;> simp [lba, isBlock] at h ⊢ <;> omega

end Ev

/-- The volume after a list of events, oldest first. -/
def runEvents (σ : Store) (es : List Ev) : Store := es.foldl Ev.apply σ

@[simp] theorem runEvents_nil (σ : Store) : runEvents σ [] = σ := rfl

@[simp] theorem runEvents_cons (σ : Store) (e : Ev) (es : List Ev) :
    runEvents σ (e :: es) = runEvents (e.apply σ) es := rfl

theorem runEvents_append (σ : Store) (es fs : List Ev) :
    runEvents σ (es ++ fs) = runEvents (runEvents σ es) fs := by
  simp [runEvents, List.foldl_append]

/-- A sector no event goes to keeps its contents. -/
theorem runEvents_of_forall_ne {σ : Store} {es : List Ev} {n : Nat} (h : ∀ e ∈ es, e.lba ≠ n) :
    runEvents σ es n = σ n := by
  induction es generalizing σ with
  | nil => rfl
  | cons e es ih =>
    rw [runEvents_cons, ih fun f hf => h f (List.mem_cons_of_mem _ hf)]
    exact Function.update_of_ne (h e List.mem_cons_self).symm _ _

/-! ### Physical sectors -/

/-- Relative sectors of one volume never share a physical sector. -/
theorem lba28_add_inj (off : UInt32) {a b : Nat} (ha : a < 16484) (hb : b < 16484)
    (same : lba28 (off + UInt32.ofNat a) = lba28 (off + UInt32.ofNat b)) : a = b := by
  unfold lba28 at same
  rw [UInt32.toNat_add, UInt32.toNat_add, UInt32.toNat_ofNat', UInt32.toNat_ofNat'] at same
  omega

/-- The physical writes of a list of events, on a volume whose sector `n` is at
physical address `at_ n`. -/
def physTrace (at_ : Nat → Int × Nat) : Store → List Ev → List ((Int × Nat) × Sector)
  | _, [] => []
  | σ, e :: es => (at_ e.lba, e.content σ) :: physTrace at_ (e.apply σ) es

theorem map_fst_physTrace (at_ : Nat → Int × Nat) (σ : Store) (es : List Ev) :
    (physTrace at_ σ es).map Prod.fst = es.map fun e => at_ e.lba := by
  induction es generalizing σ with
  | nil => rfl
  | cons e es ih => simp [physTrace, ih]

theorem physTrace_append (at_ : Nat → Int × Nat) (σ : Store) (es fs : List Ev) :
    physTrace at_ σ (es ++ fs) = physTrace at_ σ es ++ physTrace at_ (runEvents σ es) fs := by
  induction es generalizing σ with
  | nil => rfl
  | cons e es ih => simp [physTrace, ih]

/-- A cut after `k` physical writes is a cut after `k` events. -/
theorem physTrace_take (at_ : Nat → Int × Nat) (σ : Store) (es : List Ev) (k : Nat) :
    (physTrace at_ σ es).take k = physTrace at_ σ (es.take k) := by
  induction es generalizing σ k with
  | nil => simp [physTrace]
  | cons e es ih =>
    cases k with
    | zero => rfl
    | succ k => simp [physTrace, ih]

/-- Playing the physical writes on the disk plays the events on the volume. -/
theorem applyWrites_physTrace {at_ : Nat → Int × Nat} {d : Disk} {σ : Store} (es : List Ev)
    (inj : ∀ a b, a < 16484 → b < 16484 → at_ a = at_ b → a = b)
    (shows : ∀ n, n < 16484 → d (at_ n) = σ n) :
    ∀ n, n < 16484 → applyWrites d (physTrace at_ σ es) (at_ n) = runEvents σ es n := by
  induction es generalizing d σ with
  | nil => exact shows
  | cons e es ih =>
    refine ih fun n hn => ?_
    unfold Ev.apply
    by_cases hne : n = e.lba
    · subst hne
      simp
    · have haddr : at_ n ≠ at_ e.lba := fun h => hne (inj _ _ hn e.lba_lt h)
      simp [hne, haddr, shows n hn]

/-! ### Worlds -/

/-- Two states that live on the same volume. -/
structure SameVolume (c c' : State) : Prop where
  drive : c'.diskDrive = c.diskDrive
  offset : c'.partitionOffset = c.partitionOffset

namespace World

/-- Physical address of sector `n` of the volume. -/
def at_ (w : World) (n : Nat) : Int × Nat := w.addr (UInt32.ofNat n)

/-- Sector `n` of the volume; past its end there is nothing to see. -/
def sector (w : World) : Store := fun n =>
  if n < volumeSectors then w.disk (w.at_ n) else Block.zero 512

theorem sector_of_lt (w : World) {n : Nat} (hn : n < 16484) : w.sector n = w.disk (w.at_ n) :=
  if_pos hn

/-- The world after a change of the in-memory state and a list of events. -/
def perform (w : World) (c : State) (es : List Ev) : World :=
  { w with
    catfs := c
    disk := applyWrites w.disk (physTrace w.at_ w.sector es)
    issued := w.issued ++ physTrace w.at_ w.sector es }

@[simp] theorem perform_catfs (w : World) (c : State) (es : List Ev) :
    (w.perform c es).catfs = c := rfl

@[simp] theorem perform_drives (w : World) (c : State) (es : List Ev) :
    (w.perform c es).drives = w.drives := rfl

theorem at_inj (w : World) (a b : Nat) (ha : a < 16484) (hb : b < 16484)
    (same : w.at_ a = w.at_ b) : a = b :=
  lba28_add_inj w.catfs.partitionOffset ha hb (Prod.ext_iff.mp same).2

theorem at_perform {w : World} {c : State} (same : SameVolume w.catfs c) (es : List Ev) :
    (w.perform c es).at_ = w.at_ := by
  funext n
  simp [at_, addr, same.drive, same.offset]

theorem sector_perform {w : World} {c : State} (same : SameVolume w.catfs c) (es : List Ev) :
    (w.perform c es).sector = runEvents w.sector es := by
  funext n
  by_cases hn : n < 16484
  · rw [sector_of_lt _ hn, at_perform same]
    exact applyWrites_physTrace es w.at_inj (fun m hm => (w.sector_of_lt hm).symm) n hn
  · rw [runEvents_of_forall_ne fun e _ => by have := e.lba_lt; omega]
    simp [sector, hn]

/-- Performing twice is performing once. -/
theorem perform_perform {w : World} {c : State} (same : SameVolume w.catfs c) (c' : State)
    (es fs : List Ev) : (w.perform c es).perform c' fs = w.perform c' (es ++ fs) := by
  have htrace : physTrace (w.perform c es).at_ (w.perform c es).sector fs =
      physTrace w.at_ (runEvents w.sector es) fs := by
    rw [at_perform same, sector_perform same]
  unfold perform at htrace ⊢
  simp only [htrace, physTrace_append, applyWrites_append, List.append_assoc]

theorem perform_nil (w : World) : w.perform w.catfs [] = w := by
  simp [perform, physTrace]

theorem mapCatfs_eq_perform (w : World) (f : State → State) :
    w.mapCatfs f = w.perform (f w.catfs) [] := by
  simp [mapCatfs, perform, physTrace]

theorem put_eq_perform (w : World) (e : Ev) :
    w.put (UInt32.ofNat e.lba) (e.content w.sector) = w.perform w.catfs [e] := rfl

end World

/-- A mounted volume on a reliable drive, with the layout `catfs_format_at`
gives it. -/
structure Ready (w : World) : Prop where
  reliable : Reliable w.drives w.catfs.diskDrive
  mounted : w.catfs.mounted = true
  dataStart : w.catfs.sb.dataStartLba = UInt32.ofNat dataLba
  bitmapStart : w.catfs.sb.bitmapLba = UInt32.ofNat bitmapLba
  tableStart : w.catfs.sb.inodeTableLba = UInt32.ofNat inodeTableLba
  magic : w.catfs.sb.magic = magicV2

/-- What no routine of a mounted volume changes. -/
structure Frame (c c' : State) : Prop extends SameVolume c c' where
  mounted : c'.mounted = c.mounted
  sb : c'.sb = { c.sb with
    freeBlocks := c'.sb.freeBlocks
    freeInodes := c'.sb.freeInodes
    cleanUnmount := c'.sb.cleanUnmount }

theorem Frame.refl (c : State) : Frame c c := ⟨⟨rfl, rfl⟩, rfl, rfl⟩

theorem Frame.trans {a b c : State} (h : Frame a b) (k : Frame b c) : Frame a c where
  drive := k.drive.trans h.drive
  offset := k.offset.trans h.offset
  mounted := k.mounted.trans h.mounted
  sb := by rw [k.sb, h.sb]

theorem Ready.perform {w : World} {c : State} (h : Ready w) (frame : Frame w.catfs c)
    (es : List Ev) : Ready (w.perform c es) where
  reliable := by simpa [frame.drive] using h.reliable
  mounted := by simpa [frame.mounted] using h.mounted
  dataStart := (congrArg Super.dataStartLba frame.sb).trans h.dataStart
  bitmapStart := (congrArg Super.bitmapLba frame.sb).trans h.bitmapStart
  tableStart := (congrArg Super.inodeTableLba frame.sb).trans h.tableStart
  magic := (congrArg Super.magic frame.sb).trans h.magic

namespace Ready

variable {w : World}

theorem dskRead (h : Ready w) {n : Nat} (hn : n < 16484) :
    dskRead w (UInt32.ofNat n) = some (w.sector n) := by
  rw [w.sector_of_lt hn]
  exact h.reliable.read _ _

theorem dskWrite_event (h : Ready w) (e : Ev) :
    dskWrite w (UInt32.ofNat e.lba) (e.content w.sector) = (w.perform w.catfs [e], true) := by
  unfold Catfs.dskWrite
  rw [if_pos (h.reliable.write _), World.put_eq_perform]

theorem blockLba (h : Ready w) (b : UInt32) :
    blockLba w.catfs b = UInt32.ofNat (dataLba + b.toNat) := by
  unfold Catfs.blockLba
  rw [h.dataStart]
  simp

end Ready

/-- Block `b` of a volume. -/
def blockOf (σ : Store) (b : UInt32) : Sector := σ (dataLba + b.toNat)

theorem Ready.readBlock {w : World} (h : Ready w) {b : UInt32} (hb : b.toNat < 16384) :
    Catfs.dskRead w (Catfs.blockLba w.catfs b) = some (blockOf w.sector b) := by
  rw [h.blockLba]
  exact h.dskRead (by simp; omega)

theorem Ready.writeBlock {w : World} (h : Ready w) {b : UInt32} (hb : b.toNat < 16384)
    (sec : Sector) :
    Catfs.dskWrite w (Catfs.blockLba w.catfs b) sec =
      (w.perform w.catfs [.block ⟨b.toNat, hb⟩ sec], true) := by
  rw [h.blockLba]
  exact h.dskWrite_event (.block ⟨b.toNat, hb⟩ sec)

/-! ### The writing routines -/

namespace State

/-- The ring slot the next journal record goes to. -/
def ringSlot (c : State) : Fin 204 := ⟨c.jh.head.toNat % 204, Nat.mod_lt _ (by decide)⟩

/-- After `journal_log`. -/
def logged (c : State) : State :=
  { c with nextSeq := c.nextSeq + 1, jh := { c.jh with head := c.jh.head + 1 } }

/-- After `journal_flush_header`. -/
def stamped (c : State) : State := { c with jh := { c.jh with magic := magicV2 } }

/-- After `journal_commit`. -/
def committed (c : State) : State :=
  { c with jh := { c.jh with magic := magicV2, committedSeq := c.nextSeq } }

end State

/-- The four bitmap sectors, in order. -/
def bitmapEvents (bm : Bitmap) : List Ev := (List.finRange 4).map fun s => .bitmap s bm

/-- The inode sectors, in order. -/
def tableEvents (inodes : Fin 256 → Inode) : List Ev :=
  (List.finRange 86).map fun s => .table s inodes

section Routines

variable {w : World} (h : Ready w)

include h

theorem journalWriteRec_eq (r : JournalRec) :
    journalWriteRec w r =
      (w.perform { w.catfs with jh := { w.catfs.jh with head := w.catfs.jh.head + 1 } }
        [.record w.catfs.ringSlot r], true) := by
  have event := h.dskWrite_event (.record w.catfs.ringSlot r)
  simp only [Ev.lba, Ev.content, State.ringSlot] at event
  have read := h.dskRead (Ev.lba_lt (.record w.catfs.ringSlot r))
  simp only [Ev.lba, State.ringSlot] at read
  unfold journalWriteRec
  simp only [journalSlots_eq, read, event, World.mapJh, World.mapCatfs_eq_perform]
  rw [World.perform_perform (c := w.catfs) ⟨rfl, rfl⟩]
  rfl

theorem journalLog_eq (type : UInt8) (inodeIdx a b : UInt32) :
    journalLog w type inodeIdx a b =
      (w.perform w.catfs.logged
        [.record w.catfs.ringSlot ⟨type, inodeIdx, a, b, w.catfs.nextSeq + 1⟩], true) := by
  let c : State := { w.catfs with nextSeq := w.catfs.nextSeq + 1 }
  have ready : Ready (w.perform c []) := h.perform (c := c) ⟨⟨rfl, rfl⟩, rfl, rfl⟩ []
  unfold journalLog
  rw [World.mapCatfs_eq_perform, journalWriteRec_eq ready,
    World.perform_perform (c := c) ⟨rfl, rfl⟩]
  rfl

theorem journalFlushHeader_eq :
    journalFlushHeader w = (w.perform w.catfs.stamped [.header w.catfs.stamped.jh], true) := by
  have ready : Ready (w.perform w.catfs.stamped []) :=
    h.perform (c := w.catfs.stamped) ⟨⟨rfl, rfl⟩, rfl, rfl⟩ []
  have event := ready.dskWrite_event (.header w.catfs.stamped.jh)
  rw [World.perform_perform (c := w.catfs.stamped) ⟨rfl, rfl⟩] at event
  unfold journalFlushHeader
  simp only [World.mapJh, World.mapCatfs_eq_perform]
  exact event

theorem journalCommit_eq :
    journalCommit w = (w.perform w.catfs.committed [.header w.catfs.committed.jh], true) := by
  let c : State := { w.catfs with jh := { w.catfs.jh with committedSeq := w.catfs.nextSeq } }
  have ready : Ready (w.perform c []) := h.perform (c := c) ⟨⟨rfl, rfl⟩, rfl, rfl⟩ []
  unfold journalCommit
  simp only [World.mapJh, World.mapCatfs_eq_perform]
  rw [journalFlushHeader_eq ready, World.perform_perform (c := c) ⟨rfl, rfl⟩]
  rfl

theorem syncSuperblock_eq :
    syncSuperblock w = (w.perform w.catfs [.super w.catfs.sb], true) :=
  h.dskWrite_event (.super w.catfs.sb)

theorem syncInode_eq (idx : Fin 256) :
    syncInode w idx = (w.perform w.catfs [.inode idx (w.catfs.inodes idx)], true) := by
  have read := h.dskRead (Ev.lba_lt (.inode idx (w.catfs.inodes idx)))
  simp only [Ev.lba] at read
  unfold syncInode
  simp only [read]
  exact h.dskWrite_event (.inode idx (w.catfs.inodes idx))

theorem syncBitmapSector_eq (s : Fin 4) :
    syncBitmapSector w s.val = (w.perform w.catfs [.bitmap s w.catfs.bitmap], true) :=
  h.dskWrite_event (.bitmap s w.catfs.bitmap)

theorem syncInodeSector_eq (s : Fin 86) :
    syncInodeSector w s.val = (w.perform w.catfs [.table s w.catfs.inodes], true) :=
  h.dskWrite_event (.table s w.catfs.inodes)

/-- A loop of single writes that leave the in-memory state alone. -/
theorem forEach_perform {n : Nat} (f : World → Nat → World × Bool) (ev : State → Fin n → Ev)
    (writes : ∀ {v : World} (a : Fin n), Ready v →
      f v a.val = (v.perform v.catfs [ev v.catfs a], true)) (as : List (Fin n)) :
    forEach f w (as.map Fin.val) = (w.perform w.catfs (as.map (ev w.catfs)), true) := by
  induction as generalizing w with
  | nil => simp [forEach, World.perform_nil]
  | cons a as ih =>
    have ready := h.perform (Frame.refl w.catfs) [ev w.catfs a]
    simp only [List.map_cons, forEach, writes a h, ih ready, World.perform_catfs]
    rw [World.perform_perform ⟨rfl, rfl⟩]
    rfl

theorem syncBitmapRegion_eq :
    syncBitmapRegion w 0 (blocksMax - 1) =
      (w.perform w.catfs (bitmapEvents w.catfs.bitmap), true) := by
  have sectors : List.range' (0 / 8 / 512) ((blocksMax - 1) / 8 / 512 + 1 - 0 / 8 / 512) =
      (List.finRange 4).map Fin.val := by decide
  unfold syncBitmapRegion
  simp only [sectors]
  exact forEach_perform h syncBitmapSector (fun c s => .bitmap s c.bitmap)
    (fun s ready => syncBitmapSector_eq ready s) (List.finRange 4)

theorem syncInodeTable_eq :
    forEach syncInodeSector w (List.range inodeSectors) =
      (w.perform w.catfs (tableEvents w.catfs.inodes), true) := by
  have sectors : List.range inodeSectors = (List.finRange 86).map Fin.val := by
    rw [inodeSectors_eq, List.map_coe_finRange_eq_range]
  rw [sectors]
  exact forEach_perform h syncInodeSector (fun c s => .table s c.inodes)
    (fun s ready => syncInodeSector_eq ready s) (List.finRange 86)

/-- The state `catfs_sync` leaves. -/
def State.synced (c : State) : State :=
  { c with sb := { c.sb with cleanUnmount := 1 } }.stamped

/-- The writes of `catfs_sync`. -/
def syncEvents (c : State) : List Ev :=
  .super c.sb :: tableEvents c.inodes ++ bitmapEvents c.bitmap ++
    [.super c.synced.sb, .header c.synced.jh]

theorem catfsSync_eq : catfsSync w = (w.perform w.catfs.synced (syncEvents w.catfs), 0) := by
  unfold catfsSync
  rw [if_neg (by simp [h.mounted])]
  simp (disch := first | exact h | exact ⟨rfl, rfl⟩ |
      (refine h.perform ?_ _; exact ⟨⟨rfl, rfl⟩, rfl, rfl⟩))
    only [syncSuperblock_eq,
      syncInodeTable_eq, World.perform_perform, syncBitmapRegion_eq, World.perform_catfs,
      World.mapSb, World.mapCatfs_eq_perform, journalFlushHeader_eq]
  simp only [syncEvents, State.synced, State.stamped, List.append_nil, List.append_assoc,
    List.cons_append, List.nil_append]

end Routines

end AtmKoala.Catfs
