import AtmKoala.Catfs.Image

/-!
Agreement of disk and memory.

`Synced` says that the metadata on the disk decodes to the mounted state,
access times aside. `Journaled.image` gives the image a journaled change leaves:
exactly the target inode is replaced, the bitmap, the superblock and the header
are those in memory. What stands between this and agreement is the journal
record itself, when it lands on inode 0, and a write that takes blocks without
moving a byte. `Harmless` excludes the two, and then agreement holds along every
run (`run_synced`) and mounting gives the same files back
(`Synced.mount`).
-/

namespace AtmKoala.Catfs

open Lib
open Function (update_of_ne update_self)

/-- An inode without its access time. -/
def Inode.timeless (n : Inode) : Inode := { n with atime := 0 }

/-- The metadata on the disk is that in memory, access times aside. -/
structure Synced (w : World) : Prop where
  sb : imgSuper w.sector = w.catfs.sb
  jh : imgHeader w.sector = w.catfs.jh
  inodes : ∀ i, (imgInodes w.sector i).timeless = (w.catfs.inodes i).timeless
  bitmap : imgBitmap w.sector = w.catfs.bitmap

/-- A record lands alike on volumes with the same metadata. -/
theorem record_congr {σ τ : Store} (same : ∀ m, m < 100 → τ m = σ m) (slot : Fin 204)
    (r : JournalRec) {m : Nat} (hm : m < 100) :
    Ev.apply τ (.record slot r) m = Ev.apply σ (.record slot r) m := by
  unfold Ev.apply
  by_cases here : m = (Ev.record slot r).lba
  · subst here
    have log := same _ hm
    simp only [Ev.lba] at log
    rw [update_self, update_self]
    simp only [Ev.content, log]
  · rw [update_of_ne here, update_of_ne here, same m hm]

/-- Nothing but data blocks and access times changed. -/
theorem Synced.congr {w v : World} (h : Synced w) (sectors : ∀ n, n < 100 → v.sector n = w.sector n)
    (sb : v.catfs.sb = w.catfs.sb) (jh : v.catfs.jh = w.catfs.jh)
    (bitmap : v.catfs.bitmap = w.catfs.bitmap)
    (inodes : ∀ i, (v.catfs.inodes i).timeless = (w.catfs.inodes i).timeless) : Synced v where
  sb := by rw [imgSuper_congr (sectors 0 (by decide)), h.sb, sb]
  jh := by rw [imgHeader_congr (sectors 1 (by decide)), h.jh, jh]
  inodes := by
    intro i
    rw [imgInodes_congr fun n _ hn => sectors n (by omega), h.inodes, inodes]
  bitmap := by rw [imgBitmap_congr fun n _ hn => sectors n hn, h.bitmap, bitmap]

/-! ### The image a journaled change leaves -/

theorem bitmapEvents_lba {bm : Bitmap} : ∀ e ∈ bitmapEvents bm, 96 ≤ e.lba := by
  intro e he
  obtain ⟨s, -, rfl⟩ := List.mem_map.mp he
  simp [Ev.lba]

namespace Tail

variable {c c' : State} {tail : List Ev}

/-- The tail writes the superblock and the bitmap region, nothing else. -/
theorem lba (h : Tail c c' tail) : ∀ e ∈ tail, e.lba = 0 ∨ 96 ≤ e.lba := by
  have onSuper : (Ev.super c'.sb).lba = 0 := rfl
  intro e he
  cases h with
  | super _ => exact Or.inl (by rw [List.mem_singleton.mp he, onSuper])
  | superBitmap =>
    rcases List.mem_cons.mp he with rfl | he
    · exact Or.inl onSuper
    · exact Or.inr (bitmapEvents_lba e he)
  | bitmapSuper =>
    rcases List.mem_append.mp he with he | he
    · exact Or.inr (bitmapEvents_lba e he)
    · exact Or.inl (by rw [List.mem_singleton.mp he, onSuper])

theorem imgSuper_eq (h : Tail c c' tail) (σ : Store) : imgSuper (runEvents σ tail) = c'.sb := by
  cases h with
  | super _ => exact imgSuper_super _
  | superBitmap =>
    rw [runEvents_cons, imgSuper_runEvents fun e he => by have := bitmapEvents_lba e he; omega,
      imgSuper_super]
  | bitmapSuper =>
    rw [runEvents_append]
    exact imgSuper_super _

theorem imgBitmap_eq (h : Tail c c' tail) {σ : Store} (bits : imgBitmap σ = c.bitmap) :
    imgBitmap (runEvents σ tail) = c'.bitmap := by
  have onSuper : (Ev.super c'.sb).lba = 0 := rfl
  cases h with
  | super same => rw [imgBitmap_runEvents (by simp [onSuper]), bits, same]
  | superBitmap => exact imgBitmap_bitmapEvents _
  | bitmapSuper =>
    rw [runEvents_append, imgBitmap_runEvents (by simp [onSuper]), imgBitmap_bitmapEvents]

theorem imgInodes_eq (h : Tail c c' tail) (σ : Store) : imgInodes (runEvents σ tail) = imgInodes σ :=
  imgInodes_runEvents fun e he => (h.lba e he).imp_left fun h0 => by omega

end Tail

namespace Journaled

variable {i : Fin 256} {D : Pos → Prop} {n : Inode} {w w₁ w₂ w' : World}

theorem inodes_eq (h : Journaled i D n w w₁ w₂ w') (j : Fin 256) :
    w'.catfs.inodes j = if j = i then n else w.catfs.inodes j := by
  obtain ⟨r, -, -, drops⟩ := h.record
  obtain ⟨free, state⟩ := h.state
  rw [state]
  by_cases hj : j = i
  · subst hj
    rw [if_pos rfl]
    exact update_self _ _ _
  · rw [if_neg hj]
    have after : (w₂.catfs.setInode i n free).inodes j = w₂.catfs.inodes j :=
      update_of_ne hj _ _
    exact after.trans ((drops.only.others j hj).trans (h.grows.only.others j hj))

/-- The journal header moves on by one record, committed. -/
theorem jh_eq (h : Journaled i D n w w₁ w₂ w') :
    w'.catfs.jh = { w.catfs.jh with
      magic := magicV2, head := w.catfs.jh.head + 1, committedSeq := w.catfs.nextSeq + 1 } := by
  obtain ⟨r, -, -, drops⟩ := h.record
  obtain ⟨free, state⟩ := h.state
  have logged : w₂.catfs.jh = { w.catfs.jh with head := w.catfs.jh.head + 1 } := by
    rw [drops.only.jh, ← h.grows.only.jh]
    rfl
  have seq : w₂.catfs.nextSeq = w.catfs.nextSeq + 1 := by
    rw [drops.only.nextSeq, ← h.grows.only.nextSeq]
    rfl
  rw [state]
  show ({ w₂.catfs.jh with magic := magicV2, committedSeq := w₂.catfs.nextSeq } : JournalHdr) = _
  rw [logged, seq]

theorem nextSeq_eq (h : Journaled i D n w w₁ w₂ w') :
    w'.catfs.nextSeq = w.catfs.nextSeq + 1 := by
  obtain ⟨r, -, -, drops⟩ := h.record
  obtain ⟨free, state⟩ := h.state
  rw [state, ← h.grows.only.nextSeq]
  exact drops.only.nextSeq

/-- The metadata on the disk before the last phase: that of the start, with the
record in its place. -/
theorem sectors₂ (h : Journaled i D n w w₁ w₂ w') :
    ∃ r, r.Typed ∧ r.seq = w.catfs.nextSeq + 1 ∧
      ∀ m, m < 100 → w₂.sector m = Ev.apply w.sector (.record w.catfs.ringSlot r) m := by
  obtain ⟨r, typed, seq, drops⟩ := h.record
  refine ⟨r, typed, seq, fun m hm => ?_⟩
  rw [drops.sector_eq hm, World.sector_perform (logged_frame _).toSameVolume, runEvents_cons,
    runEvents_nil]
  exact record_congr (fun m hm => h.grows.sector_eq hm) _ r hm

/-- The superblock and the header on the disk are those in memory. -/
theorem super_header (h : Journaled i D n w w₁ w₂ w') :
    imgSuper w'.sector = w'.catfs.sb ∧ imgHeader w'.sector = w'.catfs.jh := by
  obtain ⟨tail, shape, events⟩ := h.events
  have sectors : w'.sector =
      runEvents (runEvents (Ev.apply w₂.sector (.inode i n)) tail) [.header w'.catfs.jh] := by
    rw [← runEvents_append, ← runEvents_cons]
    nth_rewrite 1 [events]
    exact World.sector_perform h.frame₂.toSameVolume _
  have onHeader : (Ev.header w'.catfs.jh).lba = 1 := rfl
  rw [sectors, imgSuper_runEvents (by simp [onHeader])]
  exact ⟨shape.imgSuper_eq _, imgHeader_header _⟩

/-- **Image.** The disk after a journaled change: the target inode is `n`, the
others are what the record left of them, and everything else is as in memory. -/
theorem image (h : Journaled i D n w w₁ w₂ w') (bits : imgBitmap w.sector = w.catfs.bitmap) :
    ∃ r, r.Typed ∧ r.seq = w.catfs.nextSeq + 1 ∧
      imgSuper w'.sector = w'.catfs.sb ∧ imgHeader w'.sector = w'.catfs.jh ∧
      imgBitmap w'.sector = w'.catfs.bitmap ∧
      ∀ j, imgInodes w'.sector j = if j = i then n
        else imgInodes (Ev.apply w.sector (.record w.catfs.ringSlot r)) j := by
  obtain ⟨r, typed, seq, before⟩ := h.sectors₂
  obtain ⟨tail, shape, events⟩ := h.events
  have sectors : w'.sector =
      runEvents w₂.sector (.inode i n :: (tail ++ [.header w'.catfs.jh])) := by
    rw [events]
    exact World.sector_perform h.frame₂.toSameVolume _
  rw [runEvents_cons, runEvents_append] at sectors
  have onInode : (Ev.inode i n).lba < 96 := by
    simp only [Ev.lba, inodeTableLba_eq, inodesPerSector_eq]
    omega
  have onRecord : (Ev.record w.catfs.ringSlot r).lba < 96 := by
    simp only [Ev.lba, recsPerSector_eq]
    show 2 + _ < 96
    omega
  have onHeader : (Ev.header w'.catfs.jh).lba = 1 := rfl
  have bits₂ : imgBitmap (Ev.apply w₂.sector (.inode i n)) = w.catfs.bitmap := by
    rw [← bits]
    have first := @imgBitmap_runEvents w₂.sector [Ev.inode i n] (by simp [onInode])
    have second := @imgBitmap_runEvents w.sector [Ev.record w.catfs.ringSlot r]
      (by simp [onRecord])
    rw [runEvents_cons, runEvents_nil] at first second
    rw [first, imgBitmap_congr fun m _ hm => before m hm, second]
  refine ⟨r, typed, seq, h.super_header.1, h.super_header.2, ?_, fun j => ?_⟩
  · rw [sectors, imgBitmap_runEvents (by simp [onHeader]), shape.imgBitmap_eq bits₂]
  · rw [sectors, imgInodes_runEvents (by simp [onHeader]), shape.imgInodes_eq, imgInodes_inode]
    by_cases hj : j = i
    · rw [if_pos hj, if_pos hj]
    · rw [if_neg hj, if_neg hj, imgInodes_congr fun m _ hm => before m (by omega)]

end Journaled

/-! ### Agreement along runs -/

/-- The steps that keep the disk in agreement: the write does not strand blocks,
and the record of a journaled change goes to one of the ring slots that lie in
the journal, unless the change rewrites inode 0 anyway. -/
def Harmless (w : World) (op : Op) : Prop :=
  ¬op.Strands w ∧ ∀ i, op.target w = some i → w.catfs.jh.head.toNat % 204 < 200 ∨ i = 0

theorem sector_sync (w : World) : (w.perform w.catfs.synced (syncEvents w.catfs)).sector =
    runEvents (runEvents (runEvents w.sector (.super w.catfs.sb :: tableEvents w.catfs.inodes))
      (bitmapEvents w.catfs.bitmap)) [.super w.catfs.synced.sb, .header w.catfs.synced.jh] := by
  have same : SameVolume w.catfs w.catfs.synced := ⟨rfl, rfl⟩
  rw [World.sector_perform same, ← runEvents_append, ← runEvents_append]
  rfl

theorem imgInodes_sync (w : World) :
    imgInodes (w.perform w.catfs.synced (syncEvents w.catfs)).sector = w.catfs.inodes := by
  have onSuper : ∀ sb, (Ev.super sb).lba = 0 := fun _ => rfl
  have onHeader : ∀ jh, (Ev.header jh).lba = 1 := fun _ => rfl
  rw [sector_sync, imgInodes_runEvents (by simp [onSuper, onHeader]),
    imgInodes_runEvents fun e he => Or.inr (bitmapEvents_lba e he), runEvents_cons,
    imgInodes_tableEvents]

/-- `catfs_sync` brings them into agreement. -/
theorem synced_sync (w : World) :
    Synced (w.perform w.catfs.synced (syncEvents w.catfs)) := by
  have onSuper : ∀ sb, (Ev.super sb).lba = 0 := fun _ => rfl
  have onHeader : ∀ jh, (Ev.header jh).lba = 1 := fun _ => rfl
  refine ⟨?_, ?_, fun i => ?_, ?_⟩
  · rw [sector_sync, runEvents_cons, imgSuper_runEvents (by simp [onHeader]), imgSuper_super]
    rfl
  · rw [sector_sync]
    exact imgHeader_header _
  · rw [imgInodes_sync]
    rfl
  · rw [sector_sync, imgBitmap_runEvents (by simp [onSuper, onHeader]), imgBitmap_bitmapEvents]
    rfl

/-- **Step.** A harmless operation keeps disk and memory in agreement. -/
theorem Synced.step {w w' : World} {op : Op} (h : Synced w) (sound : Sound w)
    (harmless : Harmless w op) (step : Step w op w') : Synced w' := by
  cases step_cases sound.ready sound.owned step with
  | same _ => exact h
  | touched i now _ =>
    refine h.congr (fun _ _ => rfl) rfl rfl rfl fun j => ?_
    by_cases hj : j = i
    · subst hj
      simp [World.mapInode, World.mapCatfs, Inode.timeless]
    · simp [World.mapInode, World.mapCatfs, hj]
  | synced _ => exact synced_sync w
  | stranded strands _ _ _ => exact absurd strands harmless.1
  | journaled target change _ _ _ =>
    obtain ⟨r, -, -, sb, jh, bitmap, inodes⟩ := change.image h.bitmap
    refine ⟨sb, jh, fun j => ?_, bitmap⟩
    rw [inodes, change.inodes_eq]
    split
    · rfl
    · next hj =>
      rw [imgInodes_record _ _ _ ?_]
      · exact h.inodes j
      · -- a slot past the journal is harmless only if inode 0 is rewritten
        refine (harmless.2 _ target).imp_right ?_
        rintro rfl
        exact hj

theorem Formatted.synced {w : World} (h : Formatted w) : Synced w := by
  obtain ⟨w₀, drive, off, label, now, -, -, rfl⟩ := h.eq
  exact synced_sync w₀

/-- **Run.** -/
theorem Synced.run {w w' : World} {ops : List Op} (h : Synced w) (sound : Sound w)
    (run : Run Step Harmless w ops w') : Synced w' ∧ Sound w' :=
  run.invariant (P := fun v => Synced v ∧ Sound v) ⟨h, sound⟩
    fun both harmless step => ⟨both.1.step both.2 harmless step, both.2.step step⟩

/-! ### Mounting a disk in agreement -/

/-- `v` shows the same files as `w`: the same inodes up to access times, the same
paths, and the same contents. -/
structure SameFiles (w v : World) : Prop where
  inodes : ∀ i, (v.catfs.inodes i).timeless = (w.catfs.inodes i).timeless
  bitmap : v.catfs.bitmap = w.catfs.bitmap
  sb : v.catfs.sb = { w.catfs.sb with cleanUnmount := v.catfs.sb.cleanUnmount }
  lookup : ∀ path, catfsLookup v.catfs path = catfsLookup w.catfs path
  read : ∀ idx offset len now,
    (catfsRead v idx offset len now).2 = (catfsRead w idx offset len now).2

section Timeless

variable {n n' : Inode} (same : n'.timeless = n.timeless)

include same

/-- What does not look at the access time. -/
theorem field_of_timeless {α : Type} (f : Inode → α) (blind : ∀ n : Inode, f n.timeless = f n) :
    f n' = f n := by
  rw [← blind n', same, blind]

theorem type_of_timeless : n'.type = n.type :=
  field_of_timeless same Inode.type fun _ => rfl

theorem sameBlocks_of_timeless : SameBlocks n n' where
  blocks := field_of_timeless same Inode.blocks fun _ => rfl
  indirect := field_of_timeless same Inode.indirect fun _ => rfl
  dindirect := field_of_timeless same Inode.dindirect fun _ => rfl

end Timeless

theorem findChild_congr {inodes inodes' : Fin 256 → Inode}
    (same : ∀ i, (inodes' i).timeless = (inodes i).timeless) (cur : Fin 256) (comp : List UInt8) :
    findChild inodes' cur comp = findChild inodes cur comp := by
  unfold findChild
  congr 1
  funext i
  have htype := type_of_timeless (same i)
  have hparent := field_of_timeless (same i) Inode.parent fun _ => rfl
  have hname := field_of_timeless (same i) nameOf fun _ => rfl
  rw [htype, hparent, hname]

theorem lookupFrom_congr {inodes inodes' : Fin 256 → Inode}
    (same : ∀ i, (inodes' i).timeless = (inodes i).timeless) (fuel : Nat) (cur : Fin 256)
    (p : List UInt8) : lookupFrom inodes' fuel cur p = lookupFrom inodes fuel cur p := by
  induction fuel generalizing cur p with
  | zero => rfl
  | succ fuel ih =>
    rw [lookupFrom, lookupFrom]
    simp only [findChild_congr same, ih]

/-- Two mounted volumes with the same inodes and blocks show the same files. -/
theorem SameFiles.of_image {w v : World} (sound : Sound w) (ready : Ready v) (owned : v.Owned)
    (slots : v.slots = w.slots) (inodes : ∀ i, (v.catfs.inodes i).timeless = (w.catfs.inodes i).timeless)
    (bitmap : v.catfs.bitmap = w.catfs.bitmap)
    (sb : v.catfs.sb = { w.catfs.sb with cleanUnmount := v.catfs.sb.cleanUnmount })
    (blocks : blockOf v.sector = blockOf w.sector) : SameFiles w v where
  inodes := inodes
  bitmap := bitmap
  sb := sb
  lookup := by
    intro path
    unfold catfsLookup
    rw [ready.mounted, sound.ready.mounted, type_of_timeless (inodes 0)]
    simp only [lookupFrom_congr inodes]
  read := by
    intro idx offset len now
    unfold catfsRead
    rw [ready.mounted, sound.ready.mounted]
    simp only [Bool.not_true, Bool.false_eq_true, if_false]
    cases hi : inodeIdx idx with
    | none => rfl
    | some i =>
      have htype := type_of_timeless (inodes i)
      have hsize := field_of_timeless (inodes i) Inode.size fun _ => rfl
      dsimp only
      rw [htype, hsize]
      have loop := fun l => @readLoop_congr i offset l _ _ sound.ready
        sound.owned ready owned slots (congrFun blocks) l.toNat 0 []
      simp only [loop]
      split
      · rfl
      · split
        · rfl
        · rfl

/-- The disk has the inodes and the bitmap in memory, and a superblock with the
layout and the same number of free blocks. -/
structure Consistent (w : World) : Prop where
  super : Mountable (imgSuper w.sector)
  free : (imgSuper w.sector).freeBlocks = w.catfs.sb.freeBlocks
  inodes : ∀ j, (imgInodes w.sector j).timeless = (w.catfs.inodes j).timeless
  bitmap : imgBitmap w.sector = w.catfs.bitmap

theorem Synced.consistent {w : World} (h : Synced w) (sound : Sound w) : Consistent w where
  super := by
    rw [h.sb]
    exact sound.ready.mountable
  free := by rw [h.sb]
  inodes := h.inodes
  bitmap := h.bitmap

/-- Mounting a consistent disk gives a sound volume, whatever the global state
held before. -/
theorem Consistent.mount {w : World} (h : Consistent w) (sound : Sound w) (c : State) :
    ∃ v, catfsMountAt { w with catfs := c } w.catfs.diskDrive w.catfs.partitionOffset = (v, 0) ∧
      v.catfs = mountState w.catfs.diskDrive w.catfs.partitionOffset w.sector ∧
      v.slots = w.slots ∧ Sound v ∧
      imgSuper v.sector = { imgSuper w.sector with cleanUnmount := 0 } ∧
      ∀ n, n ≠ 0 → v.sector n = w.sector n := by
  obtain ⟨v, mount, state, drives, super, sectors⟩ :=
    @catfsMountAt_state { w with catfs := c } _ w.catfs.partitionOffset
      sound.ready.reliable w.sector rfl h.super.magic h.super.tableStart h.super.bitmapStart
  have blocks : blockOf v.sector = blockOf w.sector :=
    funext fun b => sectors _ (by rw [dataLba_eq]; omega)
  have inodes : ∀ j, (v.catfs.inodes j).timeless = (w.catfs.inodes j).timeless := by
    rw [state]
    exact h.inodes
  have bitmap : v.catfs.bitmap = w.catfs.bitmap := by
    rw [state]
    exact h.bitmap
  have ready : Ready v := by
    refine ⟨?_, ?_, ?_, ?_, ?_, ?_⟩ <;> rw [state]
    · rw [drives]
      exact sound.ready.reliable
    · rfl
    · exact h.super.dataStart
    · exact h.super.bitmapStart
    · exact h.super.tableStart
    · exact h.super.magic
  obtain ⟨owned, slots⟩ := owned_congr sound.owned (v := v)
    (fun j => sameBlocks_of_timeless (inodes j))
    (fun j hj => sound.owned.free j ((type_of_timeless (inodes j)).symm.trans hj)) bitmap blocks
  have counted : Counted v.catfs := by
    have free : v.catfs.sb.freeBlocks = w.catfs.sb.freeBlocks := by
      rw [state]
      exact h.free
    unfold Counted
    rw [free, bitmap]
    exact sound.counted
  exact ⟨v, mount, state, slots, ⟨ready, owned, counted⟩, super, sectors⟩

/-- **Mount.** Mounting a disk in agreement gives the same files back, whatever
the global state held before, and the volume is sound and in agreement again. -/
theorem Synced.mount {w : World} (h : Synced w) (sound : Sound w) (c : State) :
    ∃ v, catfsMountAt { w with catfs := c } w.catfs.diskDrive w.catfs.partitionOffset = (v, 0) ∧
      v.catfs = mountState w.catfs.diskDrive w.catfs.partitionOffset w.sector ∧
      v.slots = w.slots ∧ Sound v ∧ Synced v ∧ SameFiles w v := by
  obtain ⟨v, mount, state, slots, sound', super, sectors⟩ := (h.consistent sound).mount sound c
  have synced : Synced v := by
    refine ⟨?_, ?_, fun j => ?_, ?_⟩
    · rw [super, state]
      rfl
    · rw [imgHeader_congr (sectors 1 (by decide)), state]
      rfl
    · rw [imgInodes_congr fun n lo _ => sectors n (by omega), state]
      rfl
    · rw [imgBitmap_congr fun n lo _ => sectors n (by omega), state]
      rfl
  refine ⟨v, mount, state, slots, sound', synced, SameFiles.of_image sound sound'.ready sound'.owned
    slots ?_ ?_ ?_ (funext fun b => sectors _ (by rw [dataLba_eq]; omega))⟩
  · rw [state]
    exact h.inodes
  · rw [state]
    exact h.bitmap
  · rw [state, ← h.sb]
    rfl

/-- **Disk and memory agree along every harmless run**, and mounting the disk in
any state reached gives the same files back. -/
theorem run_synced {w w' : World} {ops : List Op} (formatted : Formatted w)
    (run : Run Step Harmless w ops w') :
    Synced w' ∧ ∀ c, ∃ v, catfsMountAt { w' with catfs := c } w'.catfs.diskDrive
      w'.catfs.partitionOffset = (v, 0) ∧ SameFiles w' v := by
  obtain ⟨synced, sound⟩ := formatted.synced.run formatted.sound run
  refine ⟨synced, fun c => ?_⟩
  obtain ⟨v, mount, -, -, -, -, same⟩ := synced.mount sound c
  exact ⟨v, mount, same⟩

/-- The access rights of the root changed on a fresh volume. -/
theorem run_synced_chmod : Synced (catfsChmod freshWorld 0 0x1C0 7).1 := by
  have harmless : Harmless freshWorld (.chmod 0 0x1C0 7) :=
    ⟨id, fun _ _ => Or.inl (by decide)⟩
  exact (run_synced freshWorld_formatted
    (Run.single harmless ⟨(catfsChmod freshWorld 0 0x1C0 7).2, rfl⟩)).1

/-! ### A run that breaks the agreement -/

/-- `"/a"`. -/
def pathA : CString := ⟨[0x2F, 0x61], by decide⟩

/-- A fresh volume after the file `"/a"` was created; it is inode 1. -/
def createdWorld : World := ((catfsCreate freshWorld pathA typeFile 0).getD (freshWorld, 0)).1

theorem createdWorld_eq : catfsCreate freshWorld pathA typeFile 0 = some (createdWorld, 1) := by
  have runs : (catfsCreate freshWorld pathA typeFile 0).isSome = true := by decide
  have index : ((catfsCreate freshWorld pathA typeFile 0).getD (freshWorld, 0)).2 = 1 := by
    decide
  obtain ⟨⟨w, r⟩, hw⟩ := Option.isSome_iff_exists.mp runs
  rw [hw] at index
  have here : createdWorld = w := by
    unfold createdWorld
    rw [hw]
    rfl
  rw [hw, here]
  exact congrArg (fun r => some (w, r)) index

theorem createdWorld_step : Step freshWorld (.create pathA typeFile 0) createdWorld :=
  ⟨1, createdWorld_eq⟩

theorem createdWorld_synced : Synced createdWorld := by
  have harmless : Harmless freshWorld (.create pathA typeFile 0) :=
    ⟨id, fun _ _ => Or.inl (by decide)⟩
  exact freshWorld_formatted.synced.step freshWorld_formatted.sound harmless createdWorld_step

/-- The state of the run below after `k` records. -/
structure Busy (k : Nat) (w : World) : Prop where
  sound : Sound w
  bitmap : imgBitmap w.sector = w.catfs.bitmap
  head : w.catfs.jh.head.toNat = k
  file : (w.catfs.inodes 1).type = typeFile
  root : (w.catfs.inodes 0).name 0 = slash

theorem createdWorld_busy : Busy 1 createdWorld where
  sound := freshWorld_formatted.sound.step createdWorld_step
  bitmap := createdWorld_synced.bitmap
  head := by decide
  file := by decide
  root := by decide

theorem busy_chmod {k : Nat} {w : World} (h : Busy k w) (small : k < 1000) :
    ∃ w', Step w (.chmod 1 0x180 0) w' ∧ Busy (k + 1) w' ∧ (k = 200 →
      (imgInodes w'.sector 0).name 0 ≠ (w'.catfs.inodes 0).name 0) := by
  have target : (Op.chmod 1 0x180 0).target w = some 1 := by
    have index : inodeIdx 1 = some 1 := by decide
    simp only [Op.target, index]
    rw [Option.filter_some, if_pos]
    rw [decide_eq_true_iff, h.file]
    decide
  have step : Step w (.chmod 1 0x180 0) (catfsChmod w 1 0x180 0).1 := ⟨_, rfl⟩
  have done : catfsChmod w 1 0x180 0 =
      ((catfsChmod w 1 0x180 0).1, (catfsChmod w 1 0x180 0).2) := rfl
  rcases chmod_cases h.sound.ready done with ⟨-, none⟩ | ⟨i, w₂, some, -, change⟩
  · rw [target] at none
    cases none
  · obtain rfl : 1 = i := Option.some.inj (target.symm.trans some)
    obtain ⟨r, typed, -, -, -, bitmap, inodes⟩ := change.image h.bitmap
    have root : ((catfsChmod w 1 0x180 0).1.catfs.inodes 0).name 0 = slash := by
      rw [change.inodes_eq, if_neg (by decide)]
      exact h.root
    refine ⟨_, step, ⟨h.sound.step step, bitmap, ?_, ?_, root⟩, fun hk => ?_⟩
    · rw [change.jh_eq]
      have := h.head
      show (w.catfs.jh.head + 1).toNat = k + 1
      rw [UInt32.toNat_add, this]
      show (k + 1) % 4294967296 = k + 1
      omega
    · rw [change.inodes_eq, if_pos rfl]
      exact h.file
    · have slot : w.catfs.ringSlot.val = 200 := by
        simp only [State.ringSlot, h.head, hk]
      rw [root, inodes, if_neg (by decide), imgInodes_record_root slot]
      rcases typed with ht | ht | ht <;> rw [ht] <;> decide

/-- After one creation and 200 changes of the new file, all completed, the root
inode on the disk has lost its name. -/
theorem run_unsynced : ∃ w', Run Step Anything freshWorld
    (.create pathA typeFile 0 :: List.replicate 200 (.chmod 1 0x180 0)) w' ∧
    (imgInodes w'.sector 0).name 0 ≠ (w'.catfs.inodes 0).name 0 := by
  have chmods : ∀ k, k < 200 → ∃ w, Run Step Anything freshWorld
      (.create pathA typeFile 0 :: List.replicate k (.chmod 1 0x180 0)) w ∧ Busy (k + 1) w := by
    intro k
    induction k with
    | zero => exact fun _ => ⟨_, Run.single trivial createdWorld_step, createdWorld_busy⟩
    | succ k ih =>
      intro hk
      obtain ⟨w, run, busy⟩ := ih (by omega)
      obtain ⟨w', step, busy', -⟩ := busy_chmod busy (by omega)
      refine ⟨w', ?_, busy'⟩
      rw [List.replicate_succ', ← List.cons_append]
      exact run.snoc trivial step
  obtain ⟨w, run, busy⟩ := chmods 199 (by decide)
  obtain ⟨w', step, -, broken⟩ := busy_chmod busy (by decide)
  refine ⟨w', ?_, broken rfl⟩
  have last : List.replicate 200 (Op.chmod 1 0x180 0) =
      List.replicate 199 (Op.chmod 1 0x180 0) ++ [Op.chmod 1 0x180 0] := List.replicate_succ'
  rw [last, ← List.cons_append]
  exact run.snoc trivial step

end AtmKoala.Catfs
