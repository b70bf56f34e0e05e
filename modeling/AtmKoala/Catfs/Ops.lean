import AtmKoala.Catfs.Write

/-!
The journaled operations, past their checks.

`catfs_create`, `catfs_rename`, `catfs_chmod`, `catfs_unlink`, `catfs_truncate`
and the tail of `catfs_write` all have one shape, `Journaled`: blocks are taken
for one inode, a journal record is written, blocks are given back, and then the
inode, the superblock, perhaps the bitmap and at last the journal header go to
the disk. `createAt_journaled` … `writeFinish_journaled` say so, each with the
inode it leaves behind.
-/

namespace AtmKoala.Catfs

open Lib
open Function (update_of_ne update_self)

/-! ### The last writes of an operation -/

section Finish

variable {w : World} (h : Ready w) (i : Fin 256)

include h

theorem finish_inode_super (c : State) (frame : Frame w.catfs c) :
    journalCommit (syncSuperblock (syncInode (w.perform c []) i).1).1 =
      (w.perform c.committed
        (.inode i (c.inodes i) :: ([.super c.sb] ++ [.header c.committed.jh])), true) := by
  have ready := fun es => h.perform frame es
  simp (disch := first | exact ready _ | exact frame.toSameVolume | exact ⟨rfl, rfl⟩)
    only [syncInode_eq, syncSuperblock_eq, journalCommit_eq, World.perform_perform,
      World.perform_catfs, List.nil_append, List.cons_append]

theorem finish_inode_super_bitmap (c : State) (frame : Frame w.catfs c) :
    journalCommit (syncBitmapRegion
        (syncSuperblock (syncInode (w.perform c []) i).1).1 0 (blocksMax - 1)).1 =
      (w.perform c.committed
        (.inode i (c.inodes i) :: (.super c.sb :: bitmapEvents c.bitmap ++
          [.header c.committed.jh])), true) := by
  have ready := fun es => h.perform frame es
  simp (disch := first | exact ready _ | exact frame.toSameVolume | exact ⟨rfl, rfl⟩)
    only [syncInode_eq, syncSuperblock_eq, syncBitmapRegion_eq, journalCommit_eq,
      World.perform_perform, World.perform_catfs, List.nil_append, List.cons_append]

theorem finish_inode_bitmap_super (c : State) (frame : Frame w.catfs c) :
    journalCommit (syncSuperblock
        (syncBitmapRegion (syncInode (w.perform c []) i).1 0 (blocksMax - 1)).1).1 =
      (w.perform c.committed
        (.inode i (c.inodes i) :: (bitmapEvents c.bitmap ++ [.super c.sb] ++
          [.header c.committed.jh])), true) := by
  have ready := fun es => h.perform frame es
  simp (disch := first | exact ready _ | exact frame.toSameVolume | exact ⟨rfl, rfl⟩)
    only [syncInode_eq, syncSuperblock_eq, syncBitmapRegion_eq, journalCommit_eq,
      World.perform_perform, World.perform_catfs, List.nil_append, List.cons_append,
      List.append_assoc]

end Finish

/-! ### Journaled changes -/

/-- What follows the inode: the superblock, and the bitmap if it changed. -/
inductive Tail (c c' : State) : List Ev → Prop where
  | super (same : c'.bitmap = c.bitmap) : Tail c c' [.super c'.sb]
  | superBitmap : Tail c c' (.super c'.sb :: bitmapEvents c'.bitmap)
  | bitmapSuper : Tail c c' (bitmapEvents c'.bitmap ++ [.super c'.sb])

theorem Tail.not_block {c c' : State} {tail : List Ev} (h : Tail c c' tail) :
    ∀ e ∈ tail, e.isBlock = false := by
  have bitmap : ∀ e ∈ bitmapEvents c'.bitmap, e.isBlock = false := by
    intro e he
    obtain ⟨s, -, rfl⟩ := List.mem_map.mp he
    rfl
  intro e he
  cases h with
  | super _ => rw [List.mem_singleton.mp he]; rfl
  | superBitmap =>
    rcases List.mem_cons.mp he with rfl | he
    · rfl
    · exact bitmap e he
  | bitmapSuper =>
    rcases List.mem_append.mp he with he | he
    · exact bitmap e he
    · rw [List.mem_singleton.mp he]; rfl

/-- Inode `i` replaced by `n`, with `free` free inodes. -/
def State.setInode (c : State) (i : Fin 256) (n : Inode) (free : UInt32) : State :=
  { c with
    inodes := Function.update c.inodes i n
    sb := { c.sb with freeInodes := free } }

/-- The types the operations log. -/
def JournalRec.Typed (r : JournalRec) : Prop :=
  r.type = jCreate ∨ r.type = jUnlink ∨ r.type = jWriteMeta

/-- **A journaled change of inode `i`.** Blocks are taken for it (`w` to `w₁`), a
record is logged, its places in `D` are given back (up to `w₂`), and then the
inode becomes `n` in memory and is written with the superblock, perhaps the
bitmap, and the journal header. -/
structure Journaled (i : Fin 256) (D : Pos → Prop) (n : Inode) (w w₁ w₂ w' : World) : Prop where
  grows : Grows i w w₁
  record : ∃ r, r.Typed ∧ r.seq = w.catfs.nextSeq + 1 ∧
    Drops i D (w₁.perform w₁.catfs.logged [.record w.catfs.ringSlot r]) w₂
  state : ∃ free, w'.catfs = (w₂.catfs.setInode i n free).committed
  events : ∃ tail, Tail w.catfs w'.catfs tail ∧
    w' = w₂.perform w'.catfs (.inode i n :: (tail ++ [.header w'.catfs.jh]))
  blocks : SameBlocks (w₂.catfs.inodes i) n
  free : n.type = typeFree → SameBlocks Inode.zero n

/-- Ownership only looks at block fields, types, the bitmap and the data area. -/
theorem owned_congr {w v : World} (owned : w.Owned)
    (same : ∀ j, SameBlocks (w.catfs.inodes j) (v.catfs.inodes j))
    (free : ∀ j, (v.catfs.inodes j).type = typeFree → SameBlocks Inode.zero (w.catfs.inodes j))
    (bits : v.catfs.bitmap = w.catfs.bitmap) (blocks : blockOf v.sector = blockOf w.sector) :
    v.Owned ∧ v.slots = w.slots := by
  have hslots : v.slots = w.slots := by
    unfold World.slots
    exact slots_congr same fun k _ _ => by rw [blocks]
  refine ⟨⟨owned.ledger.congr hslots fun b => by rw [bits], fun j hj => ?_⟩, hslots⟩
  have z := free j hj
  have s := same j
  exact ⟨s.blocks.trans z.blocks, s.indirect.trans z.indirect, s.dindirect.trans z.dindirect⟩

/-- Replacing an inode by one with the same blocks moves no block. -/
theorem owned_update {w v : World} {i : Fin 256} {n : Inode} (owned : w.Owned)
    (inodes : v.catfs.inodes = Function.update w.catfs.inodes i n)
    (same : SameBlocks (w.catfs.inodes i) n)
    (free : n.type = typeFree → SameBlocks Inode.zero n)
    (bits : v.catfs.bitmap = w.catfs.bitmap) (blocks : blockOf v.sector = blockOf w.sector) :
    v.Owned ∧ v.slots = w.slots := by
  refine owned_congr owned (fun j => ?_) (fun j hj => ?_) bits blocks
  · by_cases hji : j = i
    · rw [inodes, hji, update_self]
      exact same
    · rw [inodes, update_of_ne hji]
      exact ⟨rfl, rfl, rfl⟩
  · by_cases hji : j = i
    · rw [inodes, hji, update_self] at hj
      have zero := free hj
      rw [hji]
      exact ⟨same.blocks.symm.trans zero.blocks, same.indirect.symm.trans zero.indirect,
        same.dindirect.symm.trans zero.dindirect⟩
    · rw [inodes, update_of_ne hji] at hj
      exact owned.free j hj

/-! ### The journaled operations -/

section Journaling

variable {w w₁ w₂ : World}

theorem setInode_frame (c : State) (i : Fin 256) (n : Inode) (free : UInt32) :
    Frame c (c.setInode i n free) := ⟨⟨rfl, rfl⟩, rfl, rfl⟩

theorem logged_frame (c : State) : Frame c c.logged := ⟨⟨rfl, rfl⟩, rfl, rfl⟩

theorem committed_frame (c : State) : Frame c c.committed := ⟨⟨rfl, rfl⟩, rfl, rfl⟩

theorem mapInode_eq (w : World) (i : Fin 256) (f : Inode → Inode) :
    w.mapInode i f =
      w.perform (w.catfs.setInode i (f (w.catfs.inodes i)) w.catfs.sb.freeInodes) [] := by
  unfold World.mapInode
  rw [World.mapCatfs_eq_perform]
  rfl

theorem mapInode_mapSb_eq (w : World) (i : Fin 256) (f : Inode → Inode) (g : UInt32 → UInt32) :
    (w.mapInode i f).mapSb (fun sb => { sb with freeInodes := g sb.freeInodes }) =
      w.perform (w.catfs.setInode i (f (w.catfs.inodes i)) (g w.catfs.sb.freeInodes)) [] := by
  rw [mapInode_eq]
  unfold World.mapSb
  rw [World.mapCatfs_eq_perform, World.perform_perform (setInode_frame _ _ _ _).toSameVolume]
  rfl

section Finishing

variable {i : Fin 256} {D : Pos → Prop} (n : Inode) (grows : Grows i w w₁)
  (record : ∃ r, r.Typed ∧ r.seq = w.catfs.nextSeq + 1 ∧
    Drops i D (w₁.perform w₁.catfs.logged [.record w.catfs.ringSlot r]) w₂)
  (ready : Ready w₂) (blocks : SameBlocks (w₂.catfs.inodes i) n)
  (isFree : n.type = typeFree → SameBlocks Inode.zero n) (free : UInt32)

include grows record ready blocks isFree

theorem Journaled.inode_super (same : w₂.catfs.bitmap = w.catfs.bitmap) :
    Journaled i D n w w₁ w₂ (journalCommit (syncSuperblock
      (syncInode (w₂.perform (w₂.catfs.setInode i n free) []) i).1).1).1 := by
  rw [finish_inode_super ready i _ (setInode_frame _ _ _ _)]
  refine ⟨grows, record, ⟨free, rfl⟩, ⟨_, .super same, ?_⟩, blocks, isFree⟩
  simp only [State.setInode, update_self, State.committed, World.perform_catfs]

theorem Journaled.inode_super_bitmap :
    Journaled i D n w w₁ w₂ (journalCommit (syncBitmapRegion (syncSuperblock
      (syncInode (w₂.perform (w₂.catfs.setInode i n free) []) i).1).1 0 (blocksMax - 1)).1).1 := by
  rw [finish_inode_super_bitmap ready i _ (setInode_frame _ _ _ _)]
  refine ⟨grows, record, ⟨free, rfl⟩, ⟨_, .superBitmap, ?_⟩, blocks, isFree⟩
  simp only [State.setInode, update_self, State.committed, World.perform_catfs]

theorem Journaled.inode_bitmap_super :
    Journaled i D n w w₁ w₂ (journalCommit (syncSuperblock (syncBitmapRegion
      (syncInode (w₂.perform (w₂.catfs.setInode i n free) []) i).1 0 (blocksMax - 1)).1).1).1 := by
  rw [finish_inode_bitmap_super ready i _ (setInode_frame _ _ _ _)]
  refine ⟨grows, record, ⟨free, rfl⟩, ⟨_, .bitmapSuper, ?_⟩, blocks, isFree⟩
  simp only [State.setInode, update_self, State.committed, World.perform_catfs]

end Finishing

/-- The world once record `r` has been logged. -/
def logging (w : World) (r : JournalRec) : World :=
  w.perform w.catfs.logged [.record w.catfs.ringSlot r]

theorem logging_ready (ready : Ready w) (r : JournalRec) : Ready (logging w r) :=
  ready.perform (logged_frame _) _

/-- A change that takes no block and gives none back. -/
theorem Journaled.of_inode (ready : Ready w) {i : Fin 256} {n : Inode} (r : JournalRec)
    (free : UInt32) (hr : r.Typed) (seq : r.seq = w.catfs.nextSeq + 1)
    (blocks : SameBlocks (w.catfs.inodes i) n)
    (isFree : n.type = typeFree → SameBlocks Inode.zero n) :
    Journaled i (fun _ => False) n w w (logging w r) (journalCommit (syncSuperblock (syncInode
      ((logging w r).perform ((logging w r).catfs.setInode i n free) []) i).1).1).1 :=
  Journaled.inode_super n (Grows.refl i w) ⟨r, hr, seq, Drops.none i _⟩ (logging_ready ready r)
    blocks isFree free rfl

/-- `catfs_create`, once it has found a slot. -/
theorem createAt_journaled (ready : Ready w) (owned : w.Owned) {i : Fin 256}
    (isFree : (w.catfs.inodes i).type = typeFree) (parent : Fin 256) (base : List UInt8)
    (type : UInt8) (now : UInt32) :
    ∃ w₂, Journaled i (fun _ => False) (newInode base type parent now) w w w₂
      (createAt w i parent base type now) := by
  have zero := owned.free i isFree
  unfold createAt
  dsimp only
  rw [journalLog_eq ready, mapInode_mapSb_eq _ i _ (· - 1)]
  exact ⟨_, Journaled.of_inode ready ⟨jCreate, _, _, _, _⟩ _ (by simp [JournalRec.Typed]) rfl
    ⟨zero.blocks.symm, zero.indirect.symm, zero.dindirect.symm⟩ fun _ => ⟨rfl, rfl, rfl⟩⟩

/-- An inode that keeps its type stays live. -/
theorem live_not_free {n n' : Inode} (live : n.type ≠ typeFree) (type : n'.type = n.type) :
    n'.type = typeFree → SameBlocks Inode.zero n' := by
  intro h
  exact absurd (type.symm.trans h) live

/-- `catfs_rename`, once its checks have passed. -/
theorem renameAt_journaled (ready : Ready w) {i : Fin 256}
    (live : (w.catfs.inodes i).type ≠ typeFree) (newParent : Fin 256) (newName : List UInt8)
    (now : UInt32) :
    ∃ w₂ w', renameAt w i newParent newName now = (w', 0) ∧
      Journaled i (fun _ => False)
        { w.catfs.inodes i with
          parent := Int32.ofNat newParent.val
          name := kstrcpy (w.catfs.inodes i).name newName
          mtime := now } w w w₂ w' := by
  refine ⟨_, _, ?_, Journaled.of_inode ready ⟨jWriteMeta, UInt32.ofNat i.val,
    (w.catfs.inodes i).parent.toUInt32, UInt32.ofNat newParent.val, w.catfs.nextSeq + 1⟩
    w.catfs.sb.freeInodes (by simp [JournalRec.Typed]) rfl ⟨rfl, rfl, rfl⟩ (live_not_free live rfl)⟩
  unfold renameAt
  dsimp only
  rw [journalLog_eq ready, mapInode_eq]
  simp (disch := first | exact ready | exact ⟨rfl, rfl⟩ |
      (refine ready.perform ?_ _; exact ⟨⟨rfl, rfl⟩, rfl, rfl⟩))
    only [logging, syncInode_eq, syncSuperblock_eq, journalCommit_eq, World.perform_perform,
      World.perform_catfs]
  rfl

/-- `catfs_chmod`, once its checks have passed. -/
theorem chmodAt_journaled (ready : Ready w) {i : Fin 256}
    (live : (w.catfs.inodes i).type ≠ typeFree) (perms : UInt16) (now : UInt32) :
    ∃ w₂ w', chmodAt w i perms now = (w', 0) ∧
      Journaled i (fun _ => False)
        { w.catfs.inodes i with perms := perms &&& 0x1FF, mtime := now } w w w₂ w' := by
  refine ⟨_, _, ?_, Journaled.of_inode ready ⟨jWriteMeta, UInt32.ofNat i.val,
    (w.catfs.inodes i).perms.toUInt32, (perms &&& 0x1FF).toUInt32, w.catfs.nextSeq + 1⟩
    w.catfs.sb.freeInodes (by simp [JournalRec.Typed]) rfl ⟨rfl, rfl, rfl⟩ (live_not_free live rfl)⟩
  unfold chmodAt
  dsimp only
  rw [journalLog_eq ready, mapInode_eq]
  simp (disch := first | exact ready | exact ⟨rfl, rfl⟩ |
      (refine ready.perform ?_ _; exact ⟨⟨rfl, rfl⟩, rfl, rfl⟩))
    only [logging, syncInode_eq, syncSuperblock_eq, journalCommit_eq, World.perform_perform,
      World.perform_catfs]
  rfl

theorem blockOf_logging (w : World) (slot : Fin 204) (r : JournalRec) :
    blockOf (w.perform w.catfs.logged [.record slot r]).sector = blockOf w.sector := by
  rw [World.sector_perform (logged_frame _).toSameVolume, runEvents_cons, runEvents_nil]
  exact blockOf_apply_of_lt _ (Ev.lba_lt_of_not_block rfl)

/-- Logging a record moves no block. -/
theorem owned_logging (owned : w.Owned) (slot : Fin 204) (r : JournalRec) :
    (w.perform w.catfs.logged [.record slot r]).Owned ∧
      (w.perform w.catfs.logged [.record slot r]).slots = w.slots :=
  owned_congr owned (fun _ => ⟨rfl, rfl, rfl⟩) owned.free rfl (blockOf_logging w slot r)

/-- When everything is freed, the block fields are zero. -/
theorem Drops.all_zero {i : Fin 256} {v : World} (drops : Drops i (fun _ => True) w v) :
    SameBlocks (v.catfs.inodes i) Inode.zero where
  blocks := by
    funext k
    exact (drops.gone (.direct k) trivial).symm
  indirect := (drops.gone .indirect trivial).symm
  dindirect := (drops.gone .dindirect trivial).symm

/-- `catfs_unlink`, once its checks have passed. -/
theorem unlinkAt_journaled (ready : Ready w) (owned : w.Owned) (i : Fin 256) :
    ∃ w₂, Journaled i (fun _ => True) Inode.zero w w w₂ (unlinkAt w i) := by
  unfold unlinkAt
  dsimp only
  rw [journalLog_eq ready, mapInode_mapSb_eq _ i _ (· + 1)]
  have drops := freeAllBlocks_drops i (logging_ready ready ⟨jUnlink, UInt32.ofNat i.val,
    0, 0, w.catfs.nextSeq + 1⟩) (owned_logging owned _ _).1
  exact ⟨_, Journaled.inode_bitmap_super _ (Grows.refl i w) ⟨_, by simp [JournalRec.Typed], rfl, drops⟩
    (drops.ready (logging_ready ready _)) drops.all_zero (fun _ => ⟨rfl, rfl, rfl⟩) _⟩

/-- The places `catfs_truncate` to `newSize` gives back. -/
def Cut (w : World) (i : Fin 256) (newSize : UInt32) (p : Pos) : Prop :=
  newSize < (w.catfs.inodes i).size ∧
    ¬Kept (fun p => w.slots (i, p)) ((newSize + 511).toNat / 512) p

/-- The part of `catfs_truncate` between the record and the inode. -/
theorem truncate_drops (ready : Ready w) (owned : w.Owned) (i : Fin 256) (newSize : UInt32) :
    ∃ v, (if newSize < (w.catfs.inodes i).size then
        freeBlocksFrom w i ((newSize + 511).toNat / blockSize) else (w, true)) = (v, true) ∧
      Drops i (Cut w i newSize) w v := by
  by_cases shrink : newSize < (w.catfs.inodes i).size
  · obtain ⟨v, hv, drops⟩ := freeBlocksFrom_drops i ready owned ((newSize + 511).toNat / 512)
    refine ⟨v, ?_, drops.congr fun p _ => ?_⟩
    · rw [if_pos shrink]
      exact hv
    · simp [Cut, shrink]
  · refine ⟨w, if_neg shrink, (Drops.none i w).congr fun p _ => ?_⟩
    simp [Cut, shrink]

/-- `catfs_truncate`, once its checks have passed. -/
theorem truncateAt_journaled (ready : Ready w) (owned : w.Owned) {i : Fin 256}
    (live : (w.catfs.inodes i).type ≠ typeFree) (newSize now : UInt32) :
    ∃ w₂ w', truncateAt w i newSize now = (w', 0) ∧
      Journaled i (Cut w i newSize)
        { w₂.catfs.inodes i with size := newSize, mtime := now } w w w₂ w' := by
  let r : JournalRec :=
    ⟨jWriteMeta, UInt32.ofNat i.val, (w.catfs.inodes i).size, newSize, w.catfs.nextSeq + 1⟩
  have ready₁ := logging_ready ready r
  obtain ⟨owned₁, slots₁⟩ : (logging w r).Owned ∧ (logging w r).slots = w.slots :=
    owned_logging owned w.catfs.ringSlot r
  obtain ⟨w₂, hw₂, drops⟩ := truncate_drops ready₁ owned₁ i newSize
  have sameCut : Cut (logging w r) i newSize = Cut w i newSize := by
    unfold Cut
    rw [slots₁]
    rfl
  rw [sameCut] at drops
  have ready₂ := drops.ready ready₁
  refine ⟨w₂, _, ?_, Journaled.inode_super_bitmap _ (Grows.refl i w) ⟨r, by simp [r, JournalRec.Typed], rfl, drops⟩
    ready₂ ?_ ?_ w₂.catfs.sb.freeInodes⟩
  rotate_left
  · exact ⟨rfl, rfl, rfl⟩
  · exact live_not_free live (drops.only.type_eq i)
  unfold truncateAt
  rw [journalLog_eq ready]
  dsimp only
  unfold logging at hw₂
  rw [hw₂]
  dsimp only
  rw [mapInode_eq, if_neg (by simp)]
  simp (disch := first | exact ready₂ | exact ⟨rfl, rfl⟩ |
      (refine ready₂.perform ?_ _; exact ⟨⟨rfl, rfl⟩, rfl, rfl⟩))
    only [syncInode_eq, syncSuperblock_eq, syncBitmapRegion_eq, journalCommit_eq,
      World.perform_perform, World.perform_catfs]

/-- The tail of `catfs_write`. -/
theorem writeFinish_journaled (ready : Ready w) {i : Fin 256}
    (live : (w.catfs.inodes i).type ≠ typeFree) (grows : Grows i w w₁) (fin now : UInt32) :
    ∃ w₂, Journaled i (fun _ => False)
      { w₁.catfs.inodes i with
        size := if fin > (w.catfs.inodes i).size then fin else (w.catfs.inodes i).size
        mtime := now } w w₁ w₂ (writeFinish w₁ i fin now) := by
  have ready₁ := grows.ready ready
  have hslot : w₁.catfs.ringSlot = w.catfs.ringSlot := by
    unfold State.ringSlot
    simp only [grows.only.jh]
  let r : JournalRec :=
    ⟨jWriteMeta, UInt32.ofNat i.val, (w.catfs.inodes i).size, fin, w.catfs.nextSeq + 1⟩
  have hlog : (journalLog w₁ jWriteMeta (UInt32.ofNat i.val) (w₁.catfs.inodes i).size fin).1 =
      w₁.perform w₁.catfs.logged [.record w.catfs.ringSlot r] := by
    rw [journalLog_eq ready₁, hslot, grows.only.nextSeq, grows.only.size_eq i]
  refine ⟨w₁.perform w₁.catfs.logged [.record w.catfs.ringSlot r], ?_⟩
  unfold writeFinish
  dsimp only
  rw [hlog, mapInode_eq, ← grows.only.size_eq i]
  refine Journaled.inode_super_bitmap _ grows ⟨r, by simp [r, JournalRec.Typed], rfl, Drops.none i _⟩
    (ready₁.perform (logged_frame _) _) ?_ ?_ _
  · exact ⟨rfl, rfl, rfl⟩
  · exact live_not_free live (grows.only.type_eq i)

end Journaling

end AtmKoala.Catfs
