import AtmKoala.Catfs.Contents
import AtmKoala.Catfs.Reach
import AtmKoala.Catfs.ReadBounds

/-!
What `catfs_truncate` gives back.

`free_blocks_from` drops what `Kept` does not hold on to. Here this is compared with what a file
of the new size has no use for.

* `Spare`: the data blocks behind the new end, and the pointer blocks without an entry before it.
* `Truncated`: exactly these are given back, nothing else moves, and a longer file still fits
  the block map.
* `truncation`: the condition is met unless the file is made longer than the block map, the
  rounding of the new size wraps, or a pointer block far below the new end is empty.
-/

namespace AtmKoala.Catfs

open Lib

/-- `catfs_vfs_truncate`. -/
def catfsVfsTruncate (w : World) (priv size : Nat) (now : UInt32) : World × Int :=
  let idx := catfsVfsIndex priv
  if idx < 0 ∨ size > 0xFFFFFFFF then (w, -einval)
  else catfsTruncate w idx (UInt32.ofNat size) now

/-- Places a file of `blocks` blocks has no use for: data blocks from there on, and pointer
blocks all of whose entries lead there. -/
def Spare (s : Pos → UInt32) (blocks : Nat) : Pos → Prop
  | .direct i => blocks ≤ i.val
  | .indirect => ∀ i : Fin 128, s (.ind i) ≠ 0 → blocks ≤ 16 + i.val
  | .ind i => blocks ≤ 16 + i.val
  | .l1 i => ∀ j : Fin 128, s (.l2 i j) ≠ 0 → blocks ≤ 144 + i.val * 128 + j.val
  | .l2 i j => blocks ≤ 144 + i.val * 128 + j.val
  | .dindirect => ∀ i : Fin 128, s (.l1 i) ≠ 0 →
      ∀ j : Fin 128, s (.l2 i j) ≠ 0 → blocks ≤ 144 + i.val * 128 + j.val

/-- What a truncation of inode `i` is to give back: nothing where it does not make the file
shorter. -/
def World.Goes (w : World) (i : Fin 256) (newSize : UInt32) (p : Pos) : Prop :=
  newSize < (w.catfs.inodes i).size ∧
    Spare (fun p => w.slots (i, p)) ((newSize.toNat + 511) / 512) p

/-- **A truncation as it should be.** -/
structure Truncated (w : World) (i : Fin 256) (newSize : UInt32) (w' : World) : Prop where
  size : (w'.catfs.inodes i).size = newSize
  fits : (w.catfs.inodes i).size < newSize → newSize.toNat ≤ maxFileBlocks * 512
  bytes : ∀ k, k < newSize.toNat → w'.fileBlock i (k / 512) = w.fileBlock i (k / 512) ∧
    (w.fileBlock i (k / 512) ≠ 0 → w'.byte i k = w.byte i k)
  marks : ∀ b : UInt32, bmTest w'.catfs.bitmap b.toNat = true ↔
    bmTest w.catfs.bitmap b.toNat = true ∧ ¬(b ≠ 0 ∧ ∃ p, w.Goes i newSize p ∧ w.slots (i, p) = b)
  gone : ∀ p, w.Goes i newSize p → w'.slots (i, p) = 0
  kept : ∀ p, ¬w.Goes i newSize p → w'.slots (i, p) = w.slots (i, p)
  others : ∀ j, j ≠ i → ∀ p, w'.slots (j, p) = w.slots (j, p)
  contents : ∀ b : UInt32, (∀ q, q.isPtr = true → w.slots (i, q) ≠ 0 → w.slots (i, q) ≠ b) →
    blockOf w'.sector b = blockOf w.sector b

/-- The new size is rounded up in 32 bits, and either this is harmless and every pointer block
that lies before the new end as a whole has an entry, or there is no data to lose; and a longer
file fits the block map. -/
def World.Truncatable (w : World) (i : Fin 256) (newSize : UInt32) : Prop :=
  if newSize < (w.catfs.inodes i).size then
    if newSize.toNat + 511 < 4294967296 then
      ∀ a : Fin 128, w.slots (i, .l1 a) ≠ 0 →
        144 + a.val * 128 + 128 ≤ (newSize.toNat + 511) / 512 → ∃ j, w.slots (i, .l2 a j) ≠ 0
    else ∀ p : Pos, p.isPtr = false → w.slots (i, p) = 0
  else newSize = (w.catfs.inodes i).size ∨ newSize.toNat ≤ maxFileBlocks * 512

/-! ### What is kept and what is spare -/

section Places

variable {s : Pos → UInt32} {blocks : Nat}

/-- Without a wrap, the two differ at the pointer blocks without entries below the cut. -/
theorem kept_or_spare (filled : ∀ a : Fin 128, s (.l1 a) ≠ 0 →
      144 + a.val * 128 + 128 ≤ blocks → ∃ j, s (.l2 a j) ≠ 0) {p : Pos} (used : s p ≠ 0) :
    ¬Kept s blocks p ↔ Spare s blocks p := by
  -- a second-level block is held on to just where an entry of it stays
  have level : ∀ a : Fin 128, s (.l1 a) ≠ 0 → ((144 + a.val * 128 + 128 ≤ blocks ∨
      ∃ j : Fin 128, 144 + a.val * 128 + j.val < blocks ∧ s (.l2 a j) ≠ 0) ↔
        ∃ j : Fin 128, s (.l2 a j) ≠ 0 ∧ ¬blocks ≤ 144 + a.val * 128 + j.val) := by
    intro a ha
    constructor
    · rintro (before | ⟨j, less, hj⟩)
      · obtain ⟨j, hj⟩ := filled a ha before
        exact ⟨j, hj, by have := j.isLt; omega⟩
      · exact ⟨j, hj, by omega⟩
    · rintro ⟨j, hj, more⟩
      exact .inr ⟨j, by omega, hj⟩
  cases p with
  | direct i => simp only [Kept, Spare, not_lt]
  | indirect =>
    simp only [Kept, Spare, not_exists, not_and', not_lt]
  | ind i => simp only [Kept, Spare, not_lt]
  | l1 i =>
    simp only [Kept, Spare]
    rw [level i used]
    simp only [not_exists, not_and, not_not]
  | l2 i j => simp only [Kept, Spare, not_lt]
  | dindirect =>
    simp only [Kept, Spare]
    constructor
    · intro gone a ha j hj
      by_contra more
      exact gone ⟨a, ha, (level a ha).mpr ⟨j, hj, more⟩⟩
    · rintro spare ⟨a, ha, keep⟩
      obtain ⟨j, hj, more⟩ := (level a ha).mp keep
      exact more (spare a ha j hj)

/-- … and there they do differ. -/
theorem filled_of_spare (same : ∀ p, s p ≠ 0 → (¬Kept s blocks p ↔ Spare s blocks p))
    (a : Fin 128) (ha : s (.l1 a) ≠ 0) (before : 144 + a.val * 128 + 128 ≤ blocks) :
    ∃ j, s (.l2 a j) ≠ 0 := by
  by_contra none_
  have spare : Spare s blocks (.l1 a) := fun j hj => absurd ⟨j, hj⟩ none_
  exact (same _ ha).mpr spare (.inl before)

/-- Nothing is kept from block 0 on. -/
theorem not_kept_zero (s : Pos → UInt32) (p : Pos) : ¬Kept s 0 p := by
  cases p with
  | direct i => exact Nat.not_lt_zero _
  | indirect => rintro ⟨i, less, -⟩; omega
  | ind i => exact Nat.not_lt_zero _
  | l1 i => rintro (before | ⟨j, less, -⟩) <;> omega
  | l2 i j => exact Nat.not_lt_zero _
  | dindirect => rintro ⟨i, -, before | ⟨j, less, -⟩⟩ <;> omega

/-- No data block is spare in a file longer than the block map. -/
theorem not_spare_data {p : Pos} (data : p.isPtr = false) (long : 16528 ≤ blocks) :
    ¬Spare s blocks p := by
  cases p with
  | direct i => intro le; have := i.isLt; simp only [Spare] at le; omega
  | indirect => cases data
  | ind i => intro le; have := i.isLt; simp only [Spare] at le; omega
  | l1 i => cases data
  | l2 i j =>
    intro le
    have := i.isLt
    have := j.isLt
    simp only [Spare] at le
    omega
  | dindirect => cases data

/-- All pointer blocks of a file without data are spare. -/
theorem spare_ptr {p : Pos} (empty : ∀ q : Pos, q.isPtr = false → s q = 0) (pointer : p.isPtr = true) :
    Spare s blocks p := by
  cases p with
  | direct i => cases pointer
  | indirect => exact fun i hi => absurd (empty (.ind i) rfl) hi
  | ind i => cases pointer
  | l1 i => exact fun j hj => absurd (empty (.l2 i j) rfl) hj
  | l2 i j => cases pointer
  | dindirect => exact fun i _ j hj => absurd (empty (.l2 i j) rfl) hj

/-- Data blocks before the end are not spare. -/
theorem spare_dataPos {blk : Nat} (small : blk < 16528) :
    Spare s blocks (dataPos blk) ↔ blocks ≤ blk := by
  unfold dataPos
  by_cases h16 : blk < 16
  · rw [dif_pos h16]
    exact Iff.rfl
  · rw [dif_neg h16]
    by_cases h144 : blk - 16 < 128
    · rw [dif_pos h144]
      show blocks ≤ 16 + (blk - 16) ↔ _
      omega
    · rw [dif_neg h144]
      show blocks ≤ 144 + (blk - 144) / 128 % 128 * 128 + (blk - 144) % 128 ↔ _
      omega

end Places

/-! ### The call -/

section Call

variable {w w₂ w' : World} {i : Fin 256} {newSize : UInt32} {n : Inode}

/-- The places given back are the spare ones. -/
def World.DropsSpare (w : World) (i : Fin 256) (newSize : UInt32) : Prop :=
  ∀ p, w.slots (i, p) ≠ 0 → (Cut w i newSize p ↔ w.Goes i newSize p)

theorem dropsSpare_iff : w.DropsSpare i newSize ∧
      ((w.catfs.inodes i).size < newSize → newSize.toNat ≤ maxFileBlocks * 512) ↔
    w.Truncatable i newSize := by
  unfold World.DropsSpare Cut World.Goes World.Truncatable
  by_cases shorter : newSize < (w.catfs.inodes i).size
  · have not_longer : ¬(w.catfs.inodes i).size < newSize := fun more =>
      absurd (UInt32.lt_trans shorter more) (UInt32.lt_irrefl _)
    simp only [shorter, true_and, if_true, not_longer, false_implies, and_true]
    have rounded : (newSize + 511).toNat = (newSize.toNat + 511) % 4294967296 := UInt32.toNat_add _ _
    have top := newSize.toNat_lt
    rw [rounded]
    by_cases nowrap : newSize.toNat + 511 < 4294967296
    · rw [if_pos nowrap, Nat.mod_eq_of_lt nowrap]
      constructor
      · intro same a ha before
        exact filled_of_spare same a ha before
      · intro filled p used
        exact kept_or_spare filled used
    · rw [if_neg nowrap, show (newSize.toNat + 511) % 4294967296 / 512 = 0 by omega]
      have long : 16528 ≤ (newSize.toNat + 511) / 512 := by omega
      constructor
      · intro same p data
        by_contra used
        exact not_spare_data data long ((same p used).mp (not_kept_zero _ p))
      · intro empty p used
        refine iff_of_true (not_kept_zero _ p) (spare_ptr empty ?_)
        by_contra data
        exact used (empty p (Bool.eq_false_iff.mpr data))
  · simp only [shorter, false_and, if_false, implies_true, true_and]
    constructor
    · intro fits
      by_cases longer : (w.catfs.inodes i).size < newSize
      · exact .inr (fits longer)
      · exact .inl (UInt32.le_antisymm (UInt32.not_lt.mp longer) (UInt32.not_lt.mp shorter))
    · rintro (same | fits) longer
      · rw [same] at longer
        exact absurd longer (UInt32.lt_irrefl _)
      · exact fits

/-- What a journaled change with the places of `Cut` does, in terms of these. -/
theorem Journaled.cut (change : Journaled i (Cut w i newSize) n w w w₂ w') (owned : w.Owned) :
    (∀ b : UInt32, bmTest w'.catfs.bitmap b.toNat = true ↔
      bmTest w.catfs.bitmap b.toNat = true ∧
        ¬(b ≠ 0 ∧ ∃ p, Cut w i newSize p ∧ w.slots (i, p) = b)) ∧
    (∀ p, Cut w i newSize p → w'.slots (i, p) = 0) ∧
    (∀ p, ¬Cut w i newSize p → w'.slots (i, p) = w.slots (i, p)) ∧
    (∀ j, j ≠ i → ∀ p, w'.slots (j, p) = w.slots (j, p)) ∧
    ∀ b : UInt32, (∀ q, q.isPtr = true → w.slots (i, q) ≠ 0 → w.slots (i, q) ≠ b) →
      blockOf w'.sector b = blockOf w.sector b := by
  obtain ⟨r, -, -, drops⟩ := change.record
  obtain ⟨free, state⟩ := change.state
  obtain ⟨-, logged⟩ := owned_logging owned w.catfs.ringSlot r
  have slots := (change.owned owned).2
  refine ⟨fun b => ?_, fun p cut => ?_, fun p keep => ?_, fun j other p => ?_, fun b data => ?_⟩
  · have bits := drops.bits b
    rw [logged] at bits
    rw [state]
    exact bits
  · rw [slots]
    exact drops.gone p cut
  · rw [slots, drops.kept p keep, logged]
  · rw [slots, drops.others j other p, logged]
  · rw [change.blockOf_eq, drops.keeps, blockOf_logging]
    intro q pointer used
    rw [logged] at used ⊢
    exact data q pointer used

/-- A change that gives back the spare places is a truncation as it should be, and no other
change is. -/
theorem Journaled.truncated (change : Journaled i (Cut w i newSize) n w w w₂ w') (owned : w.Owned)
    (size : n.size = newSize) : Truncated w i newSize w' ↔ w.Truncatable i newSize := by
  obtain ⟨bits, gone, kept, others, contents⟩ := change.cut owned
  rw [← dropsSpare_iff]
  constructor
  · intro truncated
    refine ⟨fun p used => ⟨fun cut => ?_, fun goes => ?_⟩, truncated.fits⟩
    · by_contra stays
      exact used ((truncated.kept p stays).symm.trans (gone p cut))
    · by_contra keep
      exact used ((kept p keep).symm.trans (truncated.gone p goes))
  · rintro ⟨agrees, fits⟩
    -- an empty place is empty afterwards, whatever is said about it
    have empty : ∀ p, w.slots (i, p) = 0 → w'.slots (i, p) = 0 := by
      intro p zero
      by_cases cut : Cut w i newSize p
      · exact gone p cut
      · rw [kept p cut, zero]
    refine ⟨by rw [change.inodes_eq, if_pos rfl, size], fits, fun k less => ?_, fun b => ?_,
      fun p goes => ?_, fun p stays => ?_, others, contents⟩
    · by_cases mapped : w.fileBlock i (k / 512) = 0
      · refine ⟨?_, fun used => absurd mapped used⟩
        by_cases small : k / 512 < 16528
        · rw [World.fileBlock_of_lt _ _ small] at mapped ⊢
          rw [World.fileBlock_of_lt _ _ small, mapped]
          exact empty _ mapped
        · unfold World.fileBlock
          rw [if_neg small, if_neg small]
      · have small := World.lt_of_fileBlock mapped
        obtain ⟨block, byte⟩ := change.byte_eq owned mapped fun _ cut => by
          have used := mapped
          rw [World.fileBlock_of_lt _ _ small] at used
          have behind := (spare_dataPos small).mp ((agrees _ used).mp cut).2
          omega
        exact ⟨block, fun _ => byte⟩
    · rw [bits b]
      refine and_congr_right fun _ => not_congr (and_congr_right fun used => ?_)
      refine exists_congr fun p => and_congr_left fun here => ?_
      exact agrees p (by rw [here]; exact used)
    · by_cases used : w.slots (i, p) = 0
      · exact empty p used
      · exact gone p ((agrees p used).mpr goes)
    · by_cases used : w.slots (i, p) = 0
      · rw [empty p used, used]
      · exact kept p fun cut => stays ((agrees p used).mp cut)

/-- **Truncation.** On every volume in use, `catfs_truncate` of a file succeeds, and it is as it
should be just where the condition on the new size and the pointer blocks holds. -/
theorem truncation (reached : Reachable w) {idx : Int} (at_ : inodeIdx idx = some i)
    (file : Op.isFile w i = true) (newSize now : UInt32) :
    ∃ w', catfsTruncate w idx newSize now = (w', 0) ∧
      catfsVfsTruncate w (i.val + 1) newSize.toNat now = (w', 0) ∧
      (Truncated w i newSize w' ↔ w.Truncatable i newSize) := by
  have sound := reached.settled.sound
  have ready := sound.ready
  have isFile := isFile_iff.mp file
  obtain ⟨w₂, w', runs, change⟩ := truncateAt_journaled ready sound.owned
    (fun isFree => isFile (.inl isFree)) newSize now
  have call : ∀ {idx : Int}, inodeIdx idx = some i → catfsTruncate w idx newSize now = (w', 0) := by
    intro idx here
    unfold catfsTruncate
    rw [if_neg (by simp [ready.mounted])]
    simp only [here]
    rw [if_neg isFile, runs]
  refine ⟨w', call at_, ?_, change.truncated sound.owned rfl⟩
  have index : catfsVfsIndex (i.val + 1) = i.val := by
    rw [catfsVfsIndex, if_neg (Nat.succ_ne_zero _)]
    omega
  have top := newSize.toNat_lt
  unfold catfsVfsTruncate
  dsimp only
  rw [index, if_neg (by omega), UInt32.ofNat_toNat]
  exact call (inodeIdx_val i)

end Call

theorem step_write (w : World) (idx : Int) (offset : UInt32) (buf : Nat → UInt8) (len now : UInt32) :
    Step w (.write idx offset buf len now) (catfsWrite w idx offset buf len now).1 :=
  ⟨(catfsWrite w idx offset buf len now).2, rfl⟩

theorem step_truncate (w : World) (idx : Int) (newSize now : UInt32) :
    Step w (.truncate idx newSize now) (catfsTruncate w idx newSize now).1 :=
  ⟨(catfsTruncate w idx newSize now).2, rfl⟩

theorem twoBytes_reachable : Reachable twoBytes :=
  .step (.step (.format freshWorld_formatted) createdWorld_step) (step_write _ 1 0 _ 2 0)

/-- A file of two bytes cut to one. -/
theorem truncation_one : Truncated twoBytes 1 1 (catfsTruncate twoBytes 1 1 0).1 := by
  have file : Op.isFile twoBytes 1 = true := by decide +kernel
  obtain ⟨w', runs, -, iff_⟩ := @truncation _ 1 twoBytes_reachable 1 rfl file 1 0
  rw [runs]
  refine iff_.mpr ?_
  unfold World.Truncatable
  rw [twoBytes_size, if_pos (by decide), if_pos (by decide)]
  intro a _ before
  exact absurd before (by rw [show ((1 : UInt32).toNat + 511) / 512 = 1 from rfl]; omega)

/-- A file of two bytes made as long as a size can be. -/
def stretched : World := (catfsTruncate twoBytes 1 0xFFFFFFFF 0).1

/-- **Too long, and all gone.** The size of a file of two bytes can be set to 2^32 - 1, which the
block map does not reach; taking one byte off that frees every block of the file. -/
theorem stretched_truncation :
    (catfsTruncate twoBytes 1 0xFFFFFFFF 0).2 = 0 ∧ ¬Truncated twoBytes 1 0xFFFFFFFF stretched ∧
    Reachable stretched ∧ (catfsTruncate stretched 1 0xFFFFFFFE 0).2 = 0 ∧
    ¬Truncated stretched 1 0xFFFFFFFE (catfsTruncate stretched 1 0xFFFFFFFE 0).1 := by
  have held : stretched.fileBlock 1 0 ≠ 0 := by decide +kernel
  have lost : (catfsTruncate stretched 1 0xFFFFFFFE 0).1.fileBlock 1 0 = 0 := by decide +kernel
  refine ⟨by decide +kernel, fun truncated => ?_, ?_, by decide +kernel, fun truncated => ?_⟩
  · have fits := truncated.fits (by rw [twoBytes_size]; decide)
    exact absurd fits (by decide)
  · exact .step twoBytes_reachable (step_truncate _ 1 0xFFFFFFFF 0)
  · have first := (truncated.bytes 0 (by decide)).1
    rw [show (0 : Nat) / 512 = 0 from rfl, lost] at first
    exact held first.symm

end AtmKoala.Catfs
