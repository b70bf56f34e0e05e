import AtmKoala.Lib.Bytes
import AtmKoala.Lib.Trace

/-!
The ATA drives as `disk.c` shows them to the file systems: 512-byte sectors
addressed by a 32-bit LBA of which the PIO driver puts 28 bits on the bus
(`lba28`). A drive may refuse single sectors (`readFails`, `writeFails`); a
drive that refuses none is `Reliable`.
-/

namespace AtmKoala

/-- One disk sector (`SECTOR_SIZE` = 512 bytes). -/
abbrev Sector : Type := Lib.Block 512

/-- `DISK_MAX_DRIVES`. -/
@[simp] def diskMaxDrives : Int := 4

/-- What the driver knows of one drive (`disk_drive_t`), and the sectors the
drive answers with an error. Model, serial and firmware texts are not read by
the file systems. -/
structure Drive where
  present : Bool
  sectors : UInt32
  readFails : Nat → Bool
  writeFails : Nat → Bool

/-- Contents of all drives, by drive number and physical sector. -/
abbrev Disk : Type := Int × Nat → Sector

/-- The sector number the LBA28 command puts on the bus: bits 24-27 go into the
drive-select register, bits 28-31 nowhere. -/
def lba28 (lba : UInt32) : Nat := lba.toNat % 2 ^ 28

/-- `disk_read_sector`: `none` is the error return. -/
def diskReadSector (drives : Int → Drive) (disk : Disk) (drv : Int) (lba : UInt32) :
    Option Sector :=
  if drv < 0 ∨ drv ≥ diskMaxDrives then none
  else if !(drives drv).present then none
  else if (drives drv).readFails (lba28 lba) then none
  else some (disk (drv, lba28 lba))

/-- Whether the drive answers a read of the sector. -/
def diskAnswers (drives : Int → Drive) (drv : Int) (lba : UInt32) : Prop :=
  0 ≤ drv ∧ drv < diskMaxDrives ∧ (drives drv).present = true ∧
    (drives drv).readFails (lba28 lba) = false

instance (drives : Int → Drive) (drv : Int) (lba : UInt32) :
    Decidable (diskAnswers drives drv lba) := by
  unfold diskAnswers
  infer_instance

theorem diskReadSector_eq (drives : Int → Drive) (disk : Disk) (drv : Int) (lba : UInt32) :
    diskReadSector drives disk drv lba =
      if diskAnswers drives drv lba then some (disk (drv, lba28 lba)) else none := by
  by_cases answers : diskAnswers drives drv lba
  · rw [if_pos answers]
    obtain ⟨low, high, present, reads⟩ := answers
    have range : ¬(drv < 0 ∨ drv ≥ diskMaxDrives) := by omega
    unfold diskReadSector
    rw [if_neg range, present, reads]
    rfl
  · rw [if_neg answers]
    unfold diskReadSector
    by_cases range : drv < 0 ∨ drv ≥ diskMaxDrives
    · rw [if_pos range]
    · rw [if_neg range]
      cases present : (drives drv).present with
      | false => rfl
      | true =>
        cases reads : (drives drv).readFails (lba28 lba) with
        | true => rfl
        | false => exact absurd ⟨by omega, by omega, present, reads⟩ answers

/-- Whether `disk_write_sector` accepts the sector. -/
def diskWritable (drives : Int → Drive) (drv : Int) (lba : UInt32) : Bool :=
  if drv < 0 ∨ drv ≥ diskMaxDrives then false
  else if !(drives drv).present then false
  else !(drives drv).writeFails (lba28 lba)

/-- A drive that is there and answers every request. -/
structure Reliable (drives : Int → Drive) (drv : Int) : Prop where
  lo : 0 ≤ drv
  hi : drv < 4
  present : (drives drv).present = true
  reads : ∀ n, (drives drv).readFails n = false
  writes : ∀ n, (drives drv).writeFails n = false

theorem Reliable.read {drives : Int → Drive} {drv : Int} (h : Reliable drives drv) (disk : Disk)
    (lba : UInt32) : diskReadSector drives disk drv lba = some (disk (drv, lba28 lba)) := by
  have hrange : ¬(drv < 0 ∨ drv ≥ 4) := by
    have := h.lo
    have := h.hi
    omega
  simp [diskReadSector, hrange, h.present, h.reads]

theorem Reliable.write {drives : Int → Drive} {drv : Int} (h : Reliable drives drv)
    (lba : UInt32) : diskWritable drives drv lba = true := by
  have hrange : ¬(drv < 0 ∨ drv ≥ 4) := by
    have := h.lo
    have := h.hi
    omega
  simp [diskWritable, hrange, h.present, h.writes]

end AtmKoala
