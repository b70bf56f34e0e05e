import AtmKoala.Catfs.Model

/-!
The MBR partition table of `partmgr.c`.

A table has four entries; `mbrValidate` accepts it if the entries in use have
ranges that are not empty, do not start at sector 0, do not run over the end of
the 32-bit numbers and do not overlap, and `mbrValidateDrive` if they also lie on
the drive. `Accepted.of_validate` says what an accepted table gives.
-/

namespace AtmKoala.Partmgr

open Lib
open Catfs (World)

def partTypeEmpty : UInt8 := 0x00
def partTypeCatfs : UInt8 := 0xC5

/-- `mbr_entry_t`. -/
structure MbrEntry where
  status : UInt8
  chsStart : Fin 3 → UInt8
  type : UInt8
  chsEnd : Fin 3 → UInt8
  lbaStart : UInt32
  sectorCount : UInt32

def MbrEntry.zero : MbrEntry := ⟨0, fun _ => 0, 0, fun _ => 0, 0, 0⟩

def MbrEntry.encode (e : MbrEntry) (k : Nat) : UInt8 :=
  if k < 1 then e.status
  else if hk : k - 1 < 3 then e.chsStart ⟨k - 1, hk⟩
  else if k < 5 then e.type
  else if hk : k - 5 < 3 then e.chsEnd ⟨k - 5, hk⟩
  else if k < 12 then u32Byte e.lbaStart (k - 8)
  else u32Byte e.sectorCount (k - 12)

def MbrEntry.decode (f : Nat → UInt8) : MbrEntry where
  status := f 0
  chsStart := fun i => f (1 + i.val)
  type := f 4
  chsEnd := fun i => f (5 + i.val)
  lbaStart := u32At f 8
  sectorCount := u32At f 12

/-- `mbr_table_t`. -/
structure MbrTable where
  entries : Fin 4 → MbrEntry
  valid : Bool

def mbrInitEmpty : MbrTable := ⟨fun _ => MbrEntry.zero, true⟩

/-- Byte offset of entry `i` in sector 0. -/
def entryOffset (i : Fin 4) : Nat := 0x1BE + i.val * 16

/-- `mbr_read`: on a read error the entries of `out` are left as they were. -/
def mbrRead (w : World) (drive : Int) (out : MbrTable) : MbrTable × Bool :=
  match diskReadSector w.drives w.disk drive 0 with
  | none => ({ out with valid := false }, false)
  | some sec =>
    let valid := sec.byteAt 510 == 0x55 && sec.byteAt 511 == 0xAA
    (⟨fun i => MbrEntry.decode fun k => sec.byteAt (entryOffset i + k), valid⟩, valid)

/-- Whether a range overlaps an entry in use, `ignoreIdx` aside. -/
def mbrOverlaps (tbl : MbrTable) (lbaStart sectors : UInt32) (ignoreIdx : Option (Fin 4)) : Bool :=
  if sectors = 0 ∨ lbaStart > 0xFFFFFFFF - sectors then true
  else
    (List.finRange 4).any fun i =>
      let e := tbl.entries i
      if some i = ignoreIdx ∨ e.type = partTypeEmpty then false
      else if e.sectorCount = 0 ∨ e.lbaStart > 0xFFFFFFFF - e.sectorCount then true
      else lbaStart < e.lbaStart + e.sectorCount ∧ lbaStart + sectors > e.lbaStart

/-- The checks `mbr_validate` makes of one entry. -/
def entryValid (tbl : MbrTable) (i : Fin 4) : Bool :=
  let e := tbl.entries i
  if e.type = partTypeEmpty then e.status = 0 ∧ e.lbaStart = 0 ∧ e.sectorCount = 0
  else (e.status = 0x00 ∨ e.status = 0x80) ∧
    ¬(e.sectorCount = 0 ∨ e.lbaStart < 1 ∨ e.lbaStart > 0xFFFFFFFF - e.sectorCount) ∧
    mbrOverlaps tbl e.lbaStart e.sectorCount (some i) = false

def mbrValidate (tbl : MbrTable) : Bool := (List.finRange 4).all (entryValid tbl)

def mbrValidateDrive (drives : Int → Drive) (drive : Int) (tbl : MbrTable) : Bool :=
  if !mbrValidate tbl ∨ drive < 0 ∨ drive ≥ diskMaxDrives ∨ !(drives drive).present then false
  else if (drives drive).sectors = 0 then false
  else (List.finRange 4).all fun i =>
    let e := tbl.entries i
    !(e.type ≠ partTypeEmpty ∧
      e.lbaStart.toNat + e.sectorCount.toNat > (drives drive).sectors.toNat)

/-- The boot sector `mbr_write` builds over the sector `base`. -/
def mbrSector (tbl : MbrTable) (base : Sector) : Sector :=
  let withEntries := (List.finRange 4).foldl
    (fun sec i => sec.blit (entryOffset i) (tbl.entries i).encode 16) base
  (withEntries.blit 510 (fun _ => 0x55) 1).blit 511 (fun _ => 0xAA) 1

def mbrWrite (w : World) (drive : Int) (tbl : MbrTable) (zeroBootcode : Bool) : World × Bool :=
  if !mbrValidateDrive w.drives drive tbl then (w, false)
  else
    let base :=
      if zeroBootcode then Block.zero 512
      else (diskReadSector w.drives w.disk drive 0).getD (Block.zero 512)
    if diskWritable w.drives drive 0 then
      ({ w with
        disk := Function.update w.disk (drive, 0) (mbrSector tbl base)
        issued := w.issued ++ [((drive, 0), mbrSector tbl base)] }, true)
    else (w, false)

/-- `mbr_add_partition`: the slot taken, and the table. -/
def mbrAddPartition (tbl : MbrTable) (type : UInt8) (lbaStart sectors : UInt32) (bootable : Bool) :
    Option (MbrTable × Fin 4) :=
  if lbaStart < 1 then none
  else if mbrOverlaps tbl lbaStart sectors none then none
  else
    match (List.finRange 4).find? fun i => (tbl.entries i).type = partTypeEmpty with
    | none => none
    | some i => some ({ tbl with
        entries := Function.update tbl.entries i
          ⟨if bootable then 0x80 else 0x00, fun _ => 0, type, fun _ => 0, lbaStart, sectors⟩ }, i)

def mbrRemovePartition (tbl : MbrTable) (i : Fin 4) : MbrTable :=
  { tbl with entries := Function.update tbl.entries i MbrEntry.zero }

/-! ### What an accepted table gives -/

/-- The first sector behind the range of an entry. -/
def MbrEntry.finish (e : MbrEntry) : Nat := e.lbaStart.toNat + e.sectorCount.toNat

/-- Sector `n` lies in the range of the entry. -/
def MbrEntry.Covers (e : MbrEntry) (n : Nat) : Prop := e.lbaStart.toNat ≤ n ∧ n < e.finish

/-- What an accepted table gives for the entries in use. -/
structure Accepted (drives : Int → Drive) (drive : Int) (tbl : MbrTable) : Prop where
  range : ∀ i, (tbl.entries i).type ≠ partTypeEmpty →
    1 ≤ (tbl.entries i).lbaStart.toNat ∧ 1 ≤ (tbl.entries i).sectorCount.toNat
  onDrive : ∀ i, (tbl.entries i).type ≠ partTypeEmpty →
    (tbl.entries i).finish ≤ (drives drive).sectors.toNat
  apart : ∀ i j, i ≠ j → (tbl.entries i).type ≠ partTypeEmpty →
    (tbl.entries j).type ≠ partTypeEmpty →
    (tbl.entries i).finish ≤ (tbl.entries j).lbaStart.toNat ∨
      (tbl.entries j).finish ≤ (tbl.entries i).lbaStart.toNat

/-- The sum of a range that does not run over. -/
theorem toNat_add_of_le {start count : UInt32} (h : ¬start > 0xFFFFFFFF - count) :
    (start + count).toNat = start.toNat + count.toNat := by
  have le : count ≤ 0xFFFFFFFF := by
    rw [UInt32.le_iff_toNat_le]
    have := count.toNat_lt
    show count.toNat ≤ 4294967295
    omega
  have bound := UInt32.le_iff_toNat_le.mp (UInt32.not_lt.mp h)
  rw [UInt32.toNat_sub_of_le _ _ le] at bound
  have top : (0xFFFFFFFF : UInt32).toNat = 4294967295 := rfl
  have small := UInt32.le_iff_toNat_le.mp le
  rw [UInt32.toNat_add]
  omega

/-- Two ranges that do not overlap lie one behind the other. -/
theorem apart_of_not_overlaps {tbl : MbrTable} {start sectors : UInt32} {i j : Fin 4}
    (clear : mbrOverlaps tbl start sectors (some i) = false) (other : j ≠ i)
    (used : (tbl.entries j).type ≠ partTypeEmpty) :
    start.toNat + sectors.toNat ≤ (tbl.entries j).lbaStart.toNat ∨
      (tbl.entries j).finish ≤ start.toNat := by
  unfold mbrOverlaps at clear
  by_cases bad : sectors = 0 ∨ start > 0xFFFFFFFF - sectors
  · rw [if_pos bad] at clear
    cases clear
  · rw [if_neg bad, List.any_eq_false] at clear
    have here := clear j (List.mem_finRange j)
    have notIgnored : ¬(some j = some i ∨ (tbl.entries j).type = partTypeEmpty) := by
      rintro (same | isEmpty)
      · exact other (Option.some.inj same)
      · exact used isEmpty
    dsimp only at here
    rw [if_neg notIgnored] at here
    by_cases badEntry : (tbl.entries j).sectorCount = 0 ∨
        (tbl.entries j).lbaStart > 0xFFFFFFFF - (tbl.entries j).sectorCount
    · rw [if_pos badEntry] at here
      exact absurd rfl here
    · rw [if_neg badEntry, decide_eq_true_iff] at here
      have sum := toNat_add_of_le fun h => bad (Or.inr h)
      have sumEntry := toNat_add_of_le fun h => badEntry (Or.inr h)
      simp only [gt_iff_lt, UInt32.lt_iff_toNat_lt, sum, sumEntry] at here
      unfold MbrEntry.finish
      omega

/-- An accepted table has accepted entries. -/
theorem entryValid_of_validate {drives : Int → Drive} {drive : Int} {tbl : MbrTable}
    (h : mbrValidateDrive drives drive tbl = true) (i : Fin 4) : entryValid tbl i = true := by
  unfold mbrValidateDrive at h
  by_cases bad : !mbrValidate tbl ∨ drive < 0 ∨ drive ≥ diskMaxDrives ∨ !(drives drive).present
  · rw [if_pos bad] at h
    cases h
  have all : mbrValidate tbl = true := by
    by_contra not
    exact bad (Or.inl (by simp [not]))
  exact List.all_eq_true.mp all i (List.mem_finRange i)

/-- An entry of an accepted table with sectors in it is in use. -/
theorem type_ne_empty {tbl : MbrTable} {i : Fin 4} (valid : entryValid tbl i = true)
    (sectors : (tbl.entries i).sectorCount ≠ 0) : (tbl.entries i).type ≠ partTypeEmpty := by
  intro unused
  unfold entryValid at valid
  dsimp only at valid
  rw [if_pos unused, decide_eq_true_iff] at valid
  exact sectors valid.2.2

theorem Accepted.of_validate {drives : Int → Drive} {drive : Int} {tbl : MbrTable}
    (h : mbrValidateDrive drives drive tbl = true) : Accepted drives drive tbl := by
  have valid := entryValid_of_validate h
  unfold mbrValidateDrive at h
  by_cases bad : !mbrValidate tbl ∨ drive < 0 ∨ drive ≥ diskMaxDrives ∨ !(drives drive).present
  · rw [if_pos bad] at h
    cases h
  rw [if_neg bad] at h
  by_cases none : (drives drive).sectors = 0
  · rw [if_pos none] at h
    cases h
  rw [if_neg none, List.all_eq_true] at h
  have parts : ∀ i, (tbl.entries i).type ≠ partTypeEmpty →
      ¬((tbl.entries i).sectorCount = 0 ∨ (tbl.entries i).lbaStart < 1 ∨
        (tbl.entries i).lbaStart > 0xFFFFFFFF - (tbl.entries i).sectorCount) ∧
      mbrOverlaps tbl (tbl.entries i).lbaStart (tbl.entries i).sectorCount (some i) = false := by
    intro i used
    have here := valid i
    unfold entryValid at here
    dsimp only at here
    rw [if_neg used, decide_eq_true_iff] at here
    exact here.2
  refine ⟨fun i used => ?_, fun i used => ?_, fun i j other used used' => ?_⟩
  · obtain ⟨good, -⟩ := parts i used
    have start : ¬(tbl.entries i).lbaStart < 1 := fun h => good (Or.inr (Or.inl h))
    have count : (tbl.entries i).sectorCount ≠ 0 := fun h => good (Or.inl h)
    have one : (1 : UInt32).toNat = 1 := rfl
    rw [UInt32.lt_iff_toNat_lt] at start
    have : (tbl.entries i).sectorCount.toNat ≠ 0 := fun h => count (UInt32.toNat_inj.mp h)
    omega
  · have here := h i (List.mem_finRange i)
    by_contra beyond
    have : (tbl.entries i).type ≠ partTypeEmpty ∧ (tbl.entries i).lbaStart.toNat +
        (tbl.entries i).sectorCount.toNat > (drives drive).sectors.toNat :=
      ⟨used, Nat.lt_of_not_le beyond⟩
    simp [this] at here
  · exact apart_of_not_overlaps (parts i used).2 (fun h => other h.symm) used'

end AtmKoala.Partmgr
