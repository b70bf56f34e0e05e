import AtmKoala.Catfs.Fsck
import AtmKoala.Partmgr

/-!
CatFS inside its partition.

The installer and the disk manager format an entry of an accepted MBR table;
only the first sector of the entry is passed down. The layout takes 16484
sectors, whatever the entry has. `run_inside` says that an entry of at least that
size, on a drive that answers every request, contains all that format, file
operations, mounts of consistent disks and fsck write, with or without repair.
An entry of 50 sectors is accepted and formatted all the same
(`format_leaves_partition`).
-/

namespace AtmKoala.Catfs

open Lib Partmgr

/-! ### Who formats partitions -/

/-- `"atmkoala-root"`. -/
def installLabel : CString :=
  ⟨[0x61, 0x74, 0x6D, 0x6B, 0x6F, 0x61, 0x6C, 0x61, 0x2D, 0x72, 0x6F, 0x6F, 0x74], by decide⟩

/-- `"catfs"`. -/
def catfsLabel : CString := ⟨[0x63, 0x61, 0x74, 0x66, 0x73], by decide⟩

def installMinSectors : UInt32 := 2048

/-- `install_target_partition` up to its format: the new table, the slot of the
CatFS entry, and the world with the table written. `unmounted` says that no
CatFS was mounted in the VFS, or that it could be unmounted. -/
def installPrepare (w : World) (drv : Int) (start sectors : UInt32) (unmounted : Bool) :
    Option (World × MbrTable × Fin 4) :=
  if drv < 0 ∨ drv ≥ diskMaxDrives ∨ !(w.drives drv).present ∨ start = 0 ∨
      sectors < installMinSectors then none
  else if start.toNat + sectors.toNat > (w.drives drv).sectors.toNat then none
  else if !unmounted then none
  else
    match mbrAddPartition mbrInitEmpty partTypeCatfs start sectors false with
    | none => none
    | some (table, i) =>
      if !mbrValidateDrive w.drives drv table then none
      else
        match mbrWrite w drv table true with
        | (_, false) => none
        | (w, true) => some (w, table, i)

/-- The format action of the disk manager on entry `sel` of the table it has
loaded; `none` in the result says that no format was run. -/
def screenPartitionsFormat (w : World) (drive : Int) (table : MbrTable) (sel : Fin 4)
    (dirty confirmed : Bool) (now : UInt32) : Option (World × Option Int) :=
  if (table.entries sel).type ≠ partTypeCatfs then some (w, none)
  else if dirty then some (w, none)
  else if !confirmed then some (w, none)
  else (catfsFormatAt w drive (table.entries sel).lbaStart catfsLabel now).map
    fun (w, r) => (w, some r)

/-- Entry `i` of the table gets formatted, from `w` to `w'`. -/
inductive Formats (w : World) (drive : Int) (table : MbrTable) (i : Fin 4) : World → Prop where
  | installer {w₀ w' : World} {start sectors now : UInt32} {unmounted : Bool} {r : Int}
      (prepared : installPrepare w₀ drive start sectors unmounted = some (w, table, i))
      (format : catfsFormatAt w drive start installLabel now = some (w', r)) :
      Formats w drive table i w'
  | diskmgr {w' : World} {dirty confirmed : Bool} {now : UInt32} {r : Int}
      (format : screenPartitionsFormat w drive table i dirty confirmed now = some (w', some r)) :
      Formats w drive table i w'

theorem installPrepare_entry {w₀ w : World} {drive : Int} {start sectors : UInt32}
    {unmounted : Bool} {table : MbrTable} {i : Fin 4}
    (h : installPrepare w₀ drive start sectors unmounted = some (w, table, i)) :
    (table.entries i).lbaStart = start ∧ (table.entries i).type = partTypeCatfs := by
  unfold installPrepare at h
  split at h
  · cases h
  split at h
  · cases h
  split at h
  · cases h
  cases added : mbrAddPartition mbrInitEmpty partTypeCatfs start sectors false with
  | none => simp [added] at h
  | some found =>
    obtain ⟨tbl, j⟩ := found
    simp only [added] at h
    split at h
    · cases h
    split at h
    · cases h
    simp only [Option.some.injEq, Prod.mk.injEq] at h
    obtain ⟨-, rfl, rfl⟩ := h
    unfold mbrAddPartition at added
    split at added
    · cases added
    split at added
    · cases added
    split at added
    · cases added
    simp only [Option.some.injEq, Prod.mk.injEq] at added
    obtain ⟨rfl, rfl⟩ := added
    simp

/-- Both run `catfs_format_at` on the first sector of the entry. -/
theorem Formats.format {w w' : World} {drive : Int} {table : MbrTable} {i : Fin 4}
    (h : Formats w drive table i w') : (table.entries i).type = partTypeCatfs ∧
      ∃ label now r, label.chars.length < 32 ∧
        catfsFormatAt w drive (table.entries i).lbaStart label now = some (w', r) := by
  cases h with
  | @installer _ _ start _ now _ r prepared format =>
    obtain ⟨first, type⟩ := installPrepare_entry prepared
    refine ⟨type, installLabel, now, r, by decide, ?_⟩
    rw [first]
    exact format
  | @diskmgr _ dirty confirmed now r format =>
    unfold screenPartitionsFormat at format
    by_cases type : (table.entries i).type = partTypeCatfs
    swap
    · simp [type] at format
    refine ⟨type, catfsLabel, now, r, by decide, ?_⟩
    rw [if_neg (not_not.mpr type)] at format
    split at format
    · simp at format
    split at format
    · simp at format
    obtain ⟨⟨v, s⟩, run, eq⟩ := Option.map_eq_some_iff.mp format
    simp only [Prod.mk.injEq, Option.some.injEq] at eq
    obtain ⟨rfl, rfl⟩ := eq
    exact run

/-! ### Where writes go -/

/-- The writes lie in the 16484 sectors from `start` on. -/
def Inside (drive : Int) (start : UInt32) (writes : List ((Int × Nat) × Sector)) : Prop :=
  ∀ x ∈ writes, x.1.1 = drive ∧ start.toNat ≤ x.1.2 ∧ x.1.2 < start.toNat + 16484

theorem Inside.append {drive : Int} {start : UInt32} {xs ys : List ((Int × Nat) × Sector)}
    (h : Inside drive start xs) (k : Inside drive start ys) : Inside drive start (xs ++ ys) := by
  intro x hx
  rcases List.mem_append.mp hx with hx | hx
  · exact h x hx
  · exact k x hx

/-- Every event goes into the volume, as long as the volume does not run over the
28 bits of an LBA. -/
theorem inside_physTrace {w : World} (low : w.catfs.partitionOffset.toNat + 16484 ≤ 2 ^ 28)
    (σ : Store) (es : List Ev) :
    Inside w.catfs.diskDrive w.catfs.partitionOffset (physTrace w.at_ σ es) := by
  induction es generalizing σ with
  | nil => intro x hx; cases hx
  | cons e es ih =>
    intro x hx
    rcases List.mem_cons.mp hx with rfl | hx
    · have small := e.lba_lt
      have sum : (w.catfs.partitionOffset + UInt32.ofNat e.lba).toNat =
          w.catfs.partitionOffset.toNat + e.lba := by
        rw [UInt32.toNat_add, UInt32.toNat_ofNat']
        omega
      refine ⟨rfl, ?_⟩
      show _ ≤ lba28 _ ∧ lba28 _ < _
      unfold lba28
      rw [sum]
      omega
    · exact ih _ x hx

/-- What a completed operation does to the world is a list of events. -/
theorem step_performed {w w' : World} {op : Op} (sound : Sound w) (step : Step w op w') :
    SameVolume w.catfs w'.catfs ∧ ∃ es, w' = w.perform w'.catfs es := by
  cases step_cases sound.ready sound.owned step with
  | same _ => exact ⟨⟨rfl, rfl⟩, [], (World.perform_nil w).symm⟩
  | touched i now _ =>
    rw [mapInode_eq]
    exact ⟨⟨rfl, rfl⟩, [], rfl⟩
  | synced _ => exact ⟨⟨rfl, rfl⟩, _, rfl⟩
  | stranded _ _ grows _ =>
    obtain ⟨es, performed, -⟩ := grows.performed
    exact ⟨grows.only.sameVolume, es, performed⟩
  | journaled _ change _ _ _ =>
    obtain ⟨taken, r, shrunk, tail, trace⟩ := change.trace
    obtain ⟨record, -, -, drops⟩ := change.record
    have same₁ := change.grows.only.sameVolume
    have same₂ := drops.only.sameVolume
    have same₃ := change.frame₂.toSameVolume
    exact ⟨⟨same₃.drive.trans (same₂.drive.trans same₁.drive),
      same₃.offset.trans (same₂.offset.trans same₁.offset)⟩, _, trace.trace⟩

/-! ### Superblocks -/

theorem Frame.mountable {c c' : State} (frame : Frame c c') (h : Mountable c.sb) :
    Mountable c'.sb where
  magic := (congrArg Super.magic frame.sb).trans h.magic
  dataStart := (congrArg Super.dataStartLba frame.sb).trans h.dataStart
  bitmapStart := (congrArg Super.bitmapLba frame.sb).trans h.bitmapStart
  tableStart := (congrArg Super.inodeTableLba frame.sb).trans h.tableStart

/-- Events that leave the data area alone and write only superblocks with the
layout. -/
def Administrative (es : List Ev) : Prop :=
  ∀ e ∈ es, e.isBlock = false ∧ ∀ sb, e = .super sb → Mountable sb

theorem Administrative.append {es fs : List Ev} (h : Administrative es) (k : Administrative fs) :
    Administrative (es ++ fs) := by
  intro e he
  rcases List.mem_append.mp he with he | he
  · exact h e he
  · exact k e he

theorem Administrative.super {sb : Super} (h : Mountable sb) : Administrative [.super sb] := by
  intro e he
  rw [List.mem_singleton.mp he]
  refine ⟨rfl, fun sb' same => ?_⟩
  obtain rfl := Ev.super.inj same
  exact h

theorem Administrative.header (jh : JournalHdr) : Administrative [.header jh] := by
  intro e he
  rw [List.mem_singleton.mp he]
  exact ⟨rfl, fun sb same => by cases same⟩

theorem administrative_sync {c : State} (h : Mountable c.sb) : Administrative (syncEvents c) := by
  have frame : Frame c c.synced := ⟨⟨rfl, rfl⟩, rfl, rfl⟩
  intro e he
  refine ⟨syncEvents_not_block c e he, fun sb same => ?_⟩
  subst same
  simp only [syncEvents, tableEvents, bitmapEvents, List.cons_append, List.append_assoc,
    List.mem_cons, List.mem_append, List.mem_map, List.not_mem_nil, or_false, reduceCtorEq,
    and_false, exists_false, false_or, Ev.super.injEq] at he
  rcases he with rfl | rfl
  · exact h
  · exact frame.mountable h

theorem Administrative.mountable {es : List Ev} (h : Administrative es) {σ : Store}
    (good : Mountable (imgSuper σ)) : Mountable (imgSuper (runEvents σ es)) := by
  induction es generalizing σ with
  | nil => exact good
  | cons e es ih =>
    rw [runEvents_cons]
    refine ih (fun f hf => h f (List.mem_cons_of_mem _ hf)) ?_
    obtain ⟨-, layout⟩ := h e List.mem_cons_self
    by_cases zero : e.lba = 0
    · cases e with
      | super sb =>
        rw [imgSuper_super]
        exact layout sb rfl
      | _ => simp [Ev.lba, journalLogLba, inodeTableLba, bitmapLba, dataLba, journalHdrLba] at zero
    · rw [imgSuper_congr (apply_of_ne zero)]
      exact good

/-- The layout stays on the disk under every operation. -/
theorem mountable_step {w w' : World} {op : Op} (sound : Sound w)
    (good : Mountable (imgSuper w.sector)) (step : Step w op w') :
    Mountable (imgSuper w'.sector) := by
  cases step_cases sound.ready sound.owned step with
  | same _ => exact good
  | touched _ _ _ => exact good
  | synced _ =>
    rw [(synced_sync w).sb]
    exact (sound.step step).ready.mountable
  | stranded _ _ grows _ =>
    rw [imgSuper_congr (grows.sector_eq (by decide))]
    exact good
  | journaled _ change _ _ _ =>
    rw [change.super_header.1]
    exact (sound.step step).ready.mountable

/-! ### fsck -/

/-- `catfs_fsck_at` on a mounted image, with or without repair: metadata is
written, and never a superblock without the layout. -/
theorem fsckMounted_performed {v : World} (ready : Ready v) (repair seenOk : Bool) :
    ∃ c es, (fsckMounted v repair seenOk).1 = v.perform c es ∧ Frame v.catfs c ∧
      Administrative es := by
  unfold fsckMounted
  generalize (if seenOk then fsckBitmap repair (fsckSeen v.catfs.inodes) v.catfs.bitmap
    else (0, v.catfs.bitmap)) = bits
  obtain ⟨n₁, bm⟩ := bits
  dsimp only
  have orphans := fsckOrphans_frame repair (v.mapCatfs fun c => { c with bitmap := bm }).catfs
  generalize fsckOrphans repair (v.mapCatfs fun c => { c with bitmap := bm }).catfs = pass at orphans ⊢
  obtain ⟨n₂, c₂⟩ := pass
  dsimp only at orphans ⊢
  have frame₂ : Frame v.catfs c₂ :=
    Frame.trans (b := { v.catfs with bitmap := bm }) ⟨⟨rfl, rfl⟩, rfl, rfl⟩ orphans
  have state₂ : ({ v.mapCatfs fun c => { c with bitmap := bm } with catfs := c₂ } : World) =
      v.perform c₂ [] := by
    simp [World.perform, physTrace, World.mapCatfs]
  rw [state₂]
  generalize journalCheckTorn (v.perform c₂ []) = torn
  -- the header, if something is torn
  have flushed : ∃ c es, (if (repair && torn != 0) = true then (journalFlushHeader
      ((v.perform c₂ []).mapJh fun h => { h with head := h.committedSeq })).1
      else v.perform c₂ []) = v.perform c es ∧ Frame v.catfs c ∧ Administrative es := by
    split
    · have frame₃ : Frame v.catfs { c₂ with jh := { c₂.jh with head := c₂.jh.committedSeq } } :=
        frame₂.trans ⟨⟨rfl, rfl⟩, rfl, rfl⟩
      have state₃ : (v.perform c₂ []).mapJh (fun h => { h with head := h.committedSeq }) =
          v.perform { c₂ with jh := { c₂.jh with head := c₂.jh.committedSeq } } [] := rfl
      rw [state₃, journalFlushHeader_eq (ready.perform frame₃ [])]
      refine ⟨_, _, World.perform_perform frame₃.toSameVolume _ _ _, ?_, Administrative.header _⟩
      exact frame₃.trans ⟨⟨rfl, rfl⟩, rfl, rfl⟩
    · exact ⟨c₂, [], rfl, frame₂, by intro e he; cases he⟩
  obtain ⟨c₄, es₄, state₄, frame₄, quiet₄⟩ := flushed
  rw [state₄]
  split
  · rw [catfsSync_eq (ready.perform frame₄ es₄)]
    refine ⟨_, _, World.perform_perform frame₄.toSameVolume _ _ _, ?_, quiet₄.append
      (administrative_sync (frame₄.mountable ready.mountable))⟩
    exact frame₄.trans ⟨⟨rfl, rfl⟩, rfl, rfl⟩
  · exact ⟨c₄, es₄, rfl, frame₄, quiet₄⟩

/-- fsck of the mounted volume writes metadata only and gives the state in memory
back. -/
theorem fsck_performed {w w' : World} {repair seenOk : Bool} {r : Int} (sound : Sound w)
    (good : Mountable (imgSuper w.sector))
    (run : catfsFsckAt w w.catfs.diskDrive w.catfs.partitionOffset repair seenOk = (w', r)) :
    ∃ es, w' = w.perform w.catfs es ∧ Administrative es := by
  have mount := @catfsMountAt_eq _ _ w.catfs.partitionOffset sound.ready.reliable
    w.sector rfl good.magic good.tableStart good.bitmapStart
  have same : SameVolume w.catfs
      (mountState w.catfs.diskDrive w.catfs.partitionOffset w.sector) := ⟨rfl, rfl⟩
  have clean : Mountable { imgSuper w.sector with cleanUnmount := 0 } :=
    ⟨good.magic, good.dataStart, good.bitmapStart, good.tableStart⟩
  have ready : Ready ((w.onVolume w.catfs.diskDrive w.catfs.partitionOffset).perform
      (mountState w.catfs.diskDrive w.catfs.partitionOffset w.sector)
      [.super { imgSuper w.sector with cleanUnmount := 0 }]) :=
    ⟨sound.ready.reliable, rfl, clean.dataStart, clean.bitmapStart, clean.tableStart, clean.magic⟩
  obtain ⟨c, es, performed, frame, quiet⟩ := fsckMounted_performed ready repair seenOk
  unfold catfsFsckAt at run
  rw [mount] at run
  simp only [Int.reduceLT, if_false, Prod.mk.injEq] at run
  refine ⟨.super { imgSuper w.sector with cleanUnmount := 0 } :: es, ?_,
    (Administrative.super clean).append quiet⟩
  rw [← run.1, performed]
  have here : w.onVolume w.catfs.diskDrive w.catfs.partitionOffset = w := rfl
  rw [here, World.perform_perform same]
  rfl

/-! ### Runs on a partition -/

/-- What happens to a formatted partition: file operations, mounts, whatever the
global state held in between, and fsck. `seenOk` says that fsck got its scratch
memory. -/
inductive Action where
  | file (op : Op)
  | mount (c : State)
  | fsck (repair seenOk : Bool)

def ActionStep (w : World) (a : Action) (w' : World) : Prop :=
  match a with
  | .file op => Step w op w'
  | .mount c => ∃ r, catfsMountAt { w with catfs := c } w.catfs.diskDrive
      w.catfs.partitionOffset = (w', r)
  | .fsck repair seenOk => ∃ r, catfsFsckAt w w.catfs.diskDrive w.catfs.partitionOffset
      repair seenOk = (w', r)

theorem ActionStep.fsck (w : World) (repair seenOk : Bool) : ActionStep w (.fsck repair seenOk)
    (catfsFsckAt w w.catfs.diskDrive w.catfs.partitionOffset repair seenOk).1 := ⟨_, rfl⟩

/-- Mounts find a consistent disk. -/
def MountsConsistent (w : World) : Action → Prop
  | .mount _ => Consistent w
  | _ => True

/-- What holds between actions: the bookkeeping in memory is sound, the layout is
on the disk, and all writes since `base` were inside. -/
structure Housed (base : World) (drive : Int) (start : UInt32) (w : World) : Prop where
  sound : Sound w
  layout : Mountable (imgSuper w.sector)
  onDrive : w.catfs.diskDrive = drive
  onStart : w.catfs.partitionOffset = start
  inside : ∃ writes, w.issued = base.issued ++ writes ∧ Inside drive start writes

namespace Housed

variable {base w w' : World} {drive : Int} {start : UInt32}

/-- Events of the volume extend the writes inside. -/
theorem performed (h : Housed base drive start w) (low : start.toNat + 16484 ≤ 2 ^ 28)
    {c : State} {es : List Ev} (issued : w'.issued = (w.perform c es).issued) :
    ∃ writes, w'.issued = base.issued ++ writes ∧ Inside drive start writes := by
  obtain ⟨writes, before, inside⟩ := h.inside
  refine ⟨writes ++ physTrace w.at_ w.sector es, ?_, inside.append ?_⟩
  · rw [issued, ← List.append_assoc, ← before]
    rfl
  · have more := inside_physTrace (w := w) (by rw [h.onStart]; exact low) w.sector es
    rw [h.onDrive, h.onStart] at more
    exact more

/-- **Step.** -/
theorem step (h : Housed base drive start w) (low : start.toNat + 16484 ≤ 2 ^ 28) {a : Action}
    (consistent : MountsConsistent w a) (step : ActionStep w a w') :
    Housed base drive start w' := by
  cases a with
  | file op =>
    obtain ⟨same, es, performed⟩ := step_performed h.sound step
    exact ⟨h.sound.step step, mountable_step h.sound h.layout step, same.drive.trans h.onDrive,
      same.offset.trans h.onStart, h.performed low (congrArg World.issued performed)⟩
  | mount c =>
    obtain ⟨r, mount⟩ := step
    obtain ⟨v, mount', state, -, sound, super, -⟩ := Consistent.mount consistent h.sound c
    obtain rfl : v = w' := (Prod.mk.inj (mount'.symm.trans mount)).1
    have event := @catfsMountAt_eq { w with catfs := c } _ w.catfs.partitionOffset
      h.sound.ready.reliable w.sector rfl h.layout.magic h.layout.tableStart
      h.layout.bitmapStart
    refine ⟨sound, ?_, by rw [state]; exact h.onDrive, by rw [state]; exact h.onStart,
      @performed _ _ _ _ _ h low v.catfs [.super { imgSuper w.sector with cleanUnmount := 0 }] ?_⟩
    · rw [super]
      exact ⟨h.layout.magic, h.layout.dataStart, h.layout.bitmapStart, h.layout.tableStart⟩
    · have issued := congrArg (fun x => x.1.issued) (mount'.symm.trans event)
      exact issued
  | fsck repair seenOk =>
    obtain ⟨r, run⟩ := step
    obtain ⟨es, rfl, quiet⟩ := fsck_performed h.sound h.layout run
    have same : SameVolume w.catfs w.catfs := ⟨rfl, rfl⟩
    have blocks : blockOf (w.perform w.catfs es).sector = blockOf w.sector := by
      rw [World.sector_perform same]
      exact blockOf_runEvents_of_lt _ fun e he => Ev.lba_lt_of_not_block (quiet e he).1
    have owned := (owned_congr (v := w.perform w.catfs es) h.sound.owned
      (fun _ => ⟨rfl, rfl, rfl⟩) h.sound.owned.free rfl blocks).1
    refine ⟨⟨h.sound.ready.perform (Frame.refl _) es, owned, h.sound.counted⟩, ?_, h.onDrive,
      h.onStart, h.performed low rfl⟩
    rw [World.sector_perform same]
    exact quiet.mountable h.layout

end Housed

/-- A format that was not refused. -/
theorem Housed.of_format {w₀ w : World} {drive : Int} {start now : UInt32} {label : CString}
    {r : Int} (reliable : Reliable w₀.drives drive) (short : label.chars.length < 32)
    (format : catfsFormatAt w₀ drive start label now = some (w, r))
    (low : start.toNat + 16484 ≤ 2 ^ 28) : Housed w₀ drive start w := by
  let v : World := { w₀ with catfs := formatState drive start label.chars now }
  have result := catfsFormatAt_eq reliable start short now
  rw [result, Option.some.injEq, Prod.mk.injEq] at format
  have formatted : Formatted w := ⟨w₀, drive, start, label, now, reliable, by rw [result, format.1]⟩
  refine ⟨formatted.sound, formatted.settled.mountable, ?_, ?_,
    physTrace v.at_ v.sector (syncEvents v.catfs), ?_, ?_⟩
  · rw [← format.1]
    rfl
  · rw [← format.1]
    rfl
  · rw [← format.1]
    rfl
  · exact inside_physTrace (w := v) low _ _

/-- **CatFS stays inside its partition** if the partition is large enough for the
layout: on a drive that answers every request and below the end of 28-bit
addresses, with mounts of consistent disks only. No other entry of the table and
nothing past the end of the drive is written. -/
theorem run_inside {w₀ w w' : World} {drive : Int} {table : MbrTable} {i : Fin 4}
    {actions : List Action} (accepted : mbrValidateDrive w₀.drives drive table = true)
    (format : Formats w₀ drive table i w) (reliable : Reliable w₀.drives drive)
    (large : 16484 ≤ (table.entries i).sectorCount.toNat)
    (low : (table.entries i).lbaStart.toNat + 16484 ≤ 2 ^ 28)
    (run : Run ActionStep MountsConsistent w actions w') :
    ∃ writes, w'.issued = w₀.issued ++ writes ∧ ∀ x ∈ writes, x.1.1 = drive ∧
      (table.entries i).Covers x.1.2 ∧ x.1.2 < (w₀.drives drive).sectors.toNat ∧
      ∀ j, j ≠ i → (table.entries j).type ≠ partTypeEmpty → ¬(table.entries j).Covers x.1.2 := by
  obtain ⟨type, label, now, r, short, formatted⟩ := format.format
  have used : (table.entries i).type ≠ partTypeEmpty := by
    rw [type]
    decide
  have valid := Accepted.of_validate accepted
  have housed : Housed w₀ drive (table.entries i).lbaStart w' :=
    run.invariant (P := Housed w₀ drive (table.entries i).lbaStart)
      (Housed.of_format reliable short formatted low)
      fun h consistent step => h.step low consistent step
  obtain ⟨writes, issued, inside⟩ := housed.inside
  refine ⟨writes, issued, fun x hx => ?_⟩
  obtain ⟨onDrive, lo, hi⟩ := inside x hx
  have finish : (table.entries i).finish =
      (table.entries i).lbaStart.toNat + (table.entries i).sectorCount.toNat := rfl
  have covers : (table.entries i).Covers x.1.2 := ⟨lo, by omega⟩
  refine ⟨onDrive, covers, covers.2.trans_le (valid.onDrive i used), fun j other used' => ?_⟩
  rintro ⟨lo', hi'⟩
  have := valid.apart i j (fun h => other h.symm) used used'
  omega

/-- One CatFS entry of `sectors` sectors at sector 2048, and a Linux entry right
behind it. -/
def twoEntries (sectors : UInt32) : MbrTable where
  entries := fun i =>
    if i = 0 then ⟨0, fun _ => 0, partTypeCatfs, fun _ => 0, 2048, sectors⟩
    else if i = 1 then ⟨0, fun _ => 0, 0x83, fun _ => 0, 2048 + sectors, 4096⟩
    else MbrEntry.zero
  valid := true

/-- What the disk manager's format makes of the first entry. -/
def managedWorld : World :=
  let v : World := { blankWorld with catfs := formatState 0 2048 catfsLabel.chars 0 }
  v.perform v.catfs.synced (syncEvents v.catfs)

theorem managedWorld_eq (sectors : UInt32) :
    screenPartitionsFormat blankWorld 0 (twoEntries sectors) 0 false true 0 =
      some (managedWorld, some 0) := by
  have format := @catfsFormatAt_eq _ _ blankWorld_reliable 2048 catfsLabel (by decide) 0
  have entry : (twoEntries sectors).entries 0 =
      ⟨0, fun _ => 0, partTypeCatfs, fun _ => 0, 2048, sectors⟩ := rfl
  unfold screenPartitionsFormat
  rw [entry, if_neg (by simp), if_neg (by simp), if_neg (by simp), format]
  rfl

theorem run_inside_fsck : ∃ writes, (catfsFsckAt managedWorld 0 2048 true true).1.issued =
    blankWorld.issued ++ writes ∧ ∀ x ∈ writes, x.1.1 = 0 ∧
      ((twoEntries 16484).entries 0).Covers x.1.2 := by
  have run : Run ActionStep MountsConsistent managedWorld [.fsck true true]
      (catfsFsckAt managedWorld 0 2048 true true).1 :=
    Run.single trivial (ActionStep.fsck managedWorld true true)
  obtain ⟨writes, issued, inside⟩ := @run_inside _ _ _ _ (twoEntries 16484) 0 _
    (by decide) (.diskmgr (managedWorld_eq 16484)) blankWorld_reliable (by decide)
    (by decide) run
  exact ⟨writes, issued, fun x hx => ⟨(inside x hx).1, (inside x hx).2.1⟩⟩

/-- The disk manager formats an accepted entry of 50 sectors, and writes into the
entry behind it. -/
theorem format_leaves_partition : mbrValidateDrive blankWorld.drives 0 (twoEntries 50) = true ∧
    screenPartitionsFormat blankWorld 0 (twoEntries 50) 0 false true 0 =
      some (managedWorld, some 0) ∧
    ∃ x ∈ managedWorld.issued, ¬((twoEntries 50).entries 0).Covers x.1.2 ∧
      ((twoEntries 50).entries 1).Covers x.1.2 := by
  refine ⟨by decide, managedWorld_eq 50, ?_⟩
  let v : World := { blankWorld with catfs := formatState 0 2048 catfsLabel.chars 0 }
  have address : (v.at_ 96) ∈ managedWorld.issued.map Prod.fst := by
    show v.at_ 96 ∈ ([] ++ physTrace v.at_ v.sector (syncEvents v.catfs)).map Prod.fst
    rw [List.nil_append, map_fst_physTrace, List.mem_map]
    refine ⟨.bitmap 0 v.catfs.bitmap, ?_, rfl⟩
    simp [syncEvents, bitmapEvents]
  obtain ⟨x, hx, here⟩ := List.mem_map.mp address
  have sector : x.1.2 = 2144 := by
    rw [here]
    decide
  refine ⟨x, hx, ?_, ?_⟩
  · rw [sector]
    exact fun covers => absurd covers.2 (by decide)
  · rw [sector]
    exact ⟨by decide, by decide⟩

end AtmKoala.Catfs
