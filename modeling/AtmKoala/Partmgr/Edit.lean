import AtmKoala.Partmgr
import Mathlib.Data.Set.Basic

/-!
Edits of an MBR table, and the way of a table to the disk and back.

`mbrValidate` decides `WellFormed` (`validate_iff`). `Edit.keeps` is the step:
a table that is well formed stays so under `mbr_add_partition` and
`mbr_remove_partition`, whatever start and length the caller asks for. `Edit.run`
takes a list of calls.
-/

namespace AtmKoala.Partmgr

open Lib
open Catfs (World)

/-! ### What `mbr_validate` decides -/

/-- **Well-formed tables.** An entry is in use and has a range that starts behind
sector 0 and ends within the 32-bit numbers, or it is blank; two ranges never
meet. -/
structure WellFormed (tbl : MbrTable) : Prop where
  blank : ∀ i, (tbl.entries i).type = partTypeEmpty →
    (tbl.entries i).status = 0 ∧ (tbl.entries i).lbaStart = 0 ∧ (tbl.entries i).sectorCount = 0
  status : ∀ i, (tbl.entries i).type ≠ partTypeEmpty →
    (tbl.entries i).status = 0x00 ∨ (tbl.entries i).status = 0x80
  range : ∀ i, (tbl.entries i).type ≠ partTypeEmpty →
    1 ≤ (tbl.entries i).lbaStart.toNat ∧ 1 ≤ (tbl.entries i).sectorCount.toNat ∧
      (tbl.entries i).finish < 2 ^ 32
  apart : ∀ i j, i ≠ j → (tbl.entries i).type ≠ partTypeEmpty →
    (tbl.entries j).type ≠ partTypeEmpty →
    (tbl.entries i).finish ≤ (tbl.entries j).lbaStart.toNat ∨
      (tbl.entries j).finish ≤ (tbl.entries i).lbaStart.toNat

/-- The guard of the three functions against a sum that runs over. -/
theorem not_runs_over_iff {start count : UInt32} :
    ¬start > 0xFFFFFFFF - count ↔ start.toNat + count.toNat < 2 ^ 32 := by
  have small := count.toNat_lt
  have top : (0xFFFFFFFF : UInt32).toNat = 4294967295 := rfl
  have le : count ≤ 0xFFFFFFFF := by
    rw [UInt32.le_iff_toNat_le]
    omega
  rw [gt_iff_lt, UInt32.not_lt, UInt32.le_iff_toNat_le, UInt32.toNat_sub_of_le _ _ le]
  omega

theorem ne_zero_iff {count : UInt32} : ¬count = 0 ↔ 1 ≤ count.toNat := by
  rw [← UInt32.toNat_inj]
  have zero : (0 : UInt32).toNat = 0 := rfl
  omega

theorem not_lt_one_iff {start : UInt32} : ¬start < 1 ↔ 1 ≤ start.toNat := by
  have one : (1 : UInt32).toNat = 1 := rfl
  rw [UInt32.lt_iff_toNat_lt]
  omega

/-- A range may be added if it is a range and stays clear of every entry in use. -/
theorem overlaps_eq_false_iff {tbl : MbrTable} {start sectors : UInt32} {ignore : Option (Fin 4)} :
    mbrOverlaps tbl start sectors ignore = false ↔
      (1 ≤ sectors.toNat ∧ start.toNat + sectors.toNat < 2 ^ 32) ∧
        ∀ j, some j ≠ ignore → (tbl.entries j).type ≠ partTypeEmpty →
          (1 ≤ (tbl.entries j).sectorCount.toNat ∧ (tbl.entries j).finish < 2 ^ 32) ∧
          (start.toNat + sectors.toNat ≤ (tbl.entries j).lbaStart.toNat ∨
            (tbl.entries j).finish ≤ start.toNat) := by
  have entry : ∀ j, (1 ≤ sectors.toNat ∧ start.toNat + sectors.toNat < 2 ^ 32) →
      ((if some j = ignore ∨ (tbl.entries j).type = partTypeEmpty then false
        else if (tbl.entries j).sectorCount = 0 ∨
          (tbl.entries j).lbaStart > 0xFFFFFFFF - (tbl.entries j).sectorCount then true
        else decide (start < (tbl.entries j).lbaStart + (tbl.entries j).sectorCount ∧
          start + sectors > (tbl.entries j).lbaStart)) = false ↔
      (some j ≠ ignore → (tbl.entries j).type ≠ partTypeEmpty →
          (1 ≤ (tbl.entries j).sectorCount.toNat ∧ (tbl.entries j).finish < 2 ^ 32) ∧
          (start.toNat + sectors.toNat ≤ (tbl.entries j).lbaStart.toNat ∨
            (tbl.entries j).finish ≤ start.toNat))) := by
    rintro j ⟨-, fits⟩
    by_cases skipped : some j = ignore ∨ (tbl.entries j).type = partTypeEmpty
    · rw [if_pos skipped]
      constructor
      · intro _ counted used
        exact (skipped.elim counted used).elim
      · intro _
        rfl
    rw [if_neg skipped]
    obtain ⟨counted, used⟩ := not_or.mp skipped
    by_cases bad : (tbl.entries j).sectorCount = 0 ∨
        (tbl.entries j).lbaStart > 0xFFFFFFFF - (tbl.entries j).sectorCount
    · rw [if_pos bad]
      constructor
      · intro h
        cases h
      · intro h
        obtain ⟨⟨some, ends⟩, -⟩ := h counted used
        exact (bad.elim (ne_zero_iff.mpr some) (not_runs_over_iff.mpr ends)).elim
    · rw [if_neg bad, decide_eq_false_iff_not]
      obtain ⟨some, ends⟩ := not_or.mp bad
      have sum := toNat_add_of_le (not_runs_over_iff.mpr fits)
      have sumEntry := toNat_add_of_le ends
      rw [gt_iff_lt, UInt32.lt_iff_toNat_lt, UInt32.lt_iff_toNat_lt, sum, sumEntry]
      have some := ne_zero_iff.mp some
      have ends := not_runs_over_iff.mp ends
      unfold MbrEntry.finish
      constructor
      · intro clear _ _
        omega
      · intro h
        have := h counted used
        omega
  unfold mbrOverlaps
  by_cases bad : sectors = 0 ∨ start > 0xFFFFFFFF - sectors
  · rw [if_pos bad]
    constructor
    · intro h
      cases h
    · rintro ⟨⟨some, ends⟩, -⟩
      exact (bad.elim (ne_zero_iff.mpr some) (not_runs_over_iff.mpr ends)).elim
  · rw [if_neg bad, List.any_eq_false]
    obtain ⟨some, ends⟩ := not_or.mp bad
    have range := And.intro (ne_zero_iff.mp some) (not_runs_over_iff.mp ends)
    constructor
    · intro h
      refine ⟨range, fun j => (entry j range).mp ?_⟩
      exact Bool.eq_false_iff.mpr (h j (List.mem_finRange j))
    · rintro ⟨-, h⟩ j -
      exact Bool.eq_false_iff.mp ((entry j range).mpr (h j))

/-- **The checker is exact.** `mbr_validate` accepts the well-formed tables. -/
theorem validate_iff {tbl : MbrTable} : mbrValidate tbl = true ↔ WellFormed tbl := by
  unfold mbrValidate
  rw [List.all_eq_true]
  constructor
  · intro all
    have blank : ∀ i, (tbl.entries i).type = partTypeEmpty → (tbl.entries i).status = 0 ∧
        (tbl.entries i).lbaStart = 0 ∧ (tbl.entries i).sectorCount = 0 := by
      intro i unused
      have here := all i (List.mem_finRange i)
      unfold entryValid at here
      dsimp only at here
      rw [if_pos unused, decide_eq_true_iff] at here
      exact here
    have parts : ∀ i, (tbl.entries i).type ≠ partTypeEmpty →
        ((tbl.entries i).status = 0x00 ∨ (tbl.entries i).status = 0x80) ∧
        ¬((tbl.entries i).sectorCount = 0 ∨ (tbl.entries i).lbaStart < 1 ∨
          (tbl.entries i).lbaStart > 0xFFFFFFFF - (tbl.entries i).sectorCount) ∧
        mbrOverlaps tbl (tbl.entries i).lbaStart (tbl.entries i).sectorCount (some i) = false := by
      intro i used
      have here := all i (List.mem_finRange i)
      unfold entryValid at here
      dsimp only at here
      rw [if_neg used, decide_eq_true_iff] at here
      exact here
    constructor
    · exact blank
    · intro i used
      exact (parts i used).1
    · intro i used
      obtain ⟨some, start, ends⟩ := (parts i used).2.1 |> not_or.mp |>.imp_right not_or.mp
      exact ⟨not_lt_one_iff.mp start, ne_zero_iff.mp some, not_runs_over_iff.mp ends⟩
    · intro i j other used used'
      have clear := (overlaps_eq_false_iff.mp (parts i used).2.2).2 j
      exact (clear (fun same => other (Option.some.inj same).symm) used').2
  · intro wf i _
    unfold entryValid
    dsimp only
    by_cases unused : (tbl.entries i).type = partTypeEmpty
    · rw [if_pos unused, decide_eq_true_iff]
      exact wf.blank i unused
    · rw [if_neg unused, decide_eq_true_iff]
      obtain ⟨start, some, ends⟩ := wf.range i unused
      refine ⟨wf.status i unused, ?_, ?_⟩
      · rintro (none | zero | beyond)
        · exact ne_zero_iff.mpr some none
        · exact not_lt_one_iff.mpr start zero
        · exact not_runs_over_iff.mpr ends beyond
      · refine overlaps_eq_false_iff.mpr ⟨⟨some, ends⟩, fun j other used => ?_⟩
        have apart := wf.apart i j (fun same => other (congrArg Option.some same.symm)) unused used
        exact ⟨(wf.range j used).2, apart⟩

/-! ### Edits -/

/-- One call of the functions that change a table. -/
inductive Edit where
  | add (type : UInt8) (lbaStart sectors : UInt32) (bootable : Bool)
  | remove (idx : Int)

/-- The table a call leaves, and its result. -/
def Edit.apply (tbl : MbrTable) : Edit → MbrTable × Int
  | .add type lbaStart sectors bootable =>
    match mbrAddPartition tbl type lbaStart sectors bootable with
    | none => (tbl, -1)
    | some (tbl', i) => (tbl', (i.val : Int))
  | .remove idx =>
    if h : idx < 0 ∨ idx ≥ 4 then (tbl, -1)
    else (mbrRemovePartition tbl ⟨idx.toNat, by omega⟩, 0)

/-- The call asks for a partition that has a type. -/
def Edit.Typed : Edit → Prop
  | .add type _ _ _ => type ≠ partTypeEmpty
  | .remove _ => True

def Edit.run (tbl : MbrTable) (edits : List Edit) : MbrTable :=
  edits.foldl (fun t e => (e.apply t).1) tbl

/-- The table with another entry in slot `i`. -/
def MbrTable.put (tbl : MbrTable) (i : Fin 4) (e : MbrEntry) : MbrTable :=
  { tbl with entries := Function.update tbl.entries i e }

@[simp] theorem MbrTable.put_self (tbl : MbrTable) (i : Fin 4) (e : MbrEntry) :
    (tbl.put i e).entries i = e := Function.update_self ..

theorem MbrTable.put_of_ne {i k : Fin 4} (tbl : MbrTable) (ne : k ≠ i) (e : MbrEntry) :
    (tbl.put i e).entries k = tbl.entries k := Function.update_of_ne ne ..

/-- What `mbr_add_partition` does where it succeeds. -/
theorem add_cases {tbl tbl' : MbrTable} {type : UInt8} {start sectors : UInt32} {bootable : Bool}
    {i : Fin 4} (h : mbrAddPartition tbl type start sectors bootable = some (tbl', i)) :
    1 ≤ start.toNat ∧ mbrOverlaps tbl start sectors none = false ∧
      tbl' = tbl.put i
        ⟨if bootable then 0x80 else 0x00, fun _ => 0, type, fun _ => 0, start, sectors⟩ := by
  unfold mbrAddPartition at h
  by_cases zero : start < 1
  · rw [if_pos zero] at h
    cases h
  rw [if_neg zero] at h
  cases clear : mbrOverlaps tbl start sectors none with
  | true =>
    rw [clear, if_pos rfl] at h
    cases h
  | false =>
    rw [clear, if_neg Bool.false_ne_true] at h
    cases slot : (List.finRange 4).find? fun i => (tbl.entries i).type = partTypeEmpty with
    | none =>
      rw [slot] at h
      cases h
    | some k =>
      rw [slot] at h
      cases h
      exact ⟨not_lt_one_iff.mp zero, rfl, rfl⟩

/-- A new entry keeps the table well formed if its range is clear. -/
theorem WellFormed.update {tbl : MbrTable} (wf : WellFormed tbl) (i : Fin 4) (e : MbrEntry)
    (typed : e.type ≠ partTypeEmpty) (status : e.status = 0x00 ∨ e.status = 0x80)
    (start : 1 ≤ e.lbaStart.toNat)
    (clear : mbrOverlaps tbl e.lbaStart e.sectorCount none = false) :
    WellFormed (tbl.put i e) := by
  obtain ⟨⟨some, ends⟩, clear⟩ := overlaps_eq_false_iff.mp clear
  constructor
  · intro k unused
    by_cases here : k = i
    · subst here
      rw [tbl.put_self] at unused
      exact absurd unused typed
    · rw [tbl.put_of_ne here] at unused ⊢
      exact wf.blank k unused
  · intro k used
    by_cases here : k = i
    · subst here
      rwa [tbl.put_self]
    · rw [tbl.put_of_ne here] at used ⊢
      exact wf.status k used
  · intro k used
    by_cases here : k = i
    · subst here
      rw [tbl.put_self]
      exact ⟨start, some, ends⟩
    · rw [tbl.put_of_ne here] at used ⊢
      exact wf.range k used
  · intro k l other used used'
    by_cases here : k = i
    · subst here
      have away : l ≠ k := fun same => other same.symm
      rw [tbl.put_of_ne away] at used' ⊢
      rw [tbl.put_self]
      exact (clear l (by simp) used').2
    · rw [tbl.put_of_ne here] at used ⊢
      by_cases there : l = i
      · subst there
        rw [tbl.put_self]
        exact (clear k (by simp) used).2.symm
      · rw [tbl.put_of_ne there] at used' ⊢
        exact wf.apart k l other used used'

theorem WellFormed.remove {tbl : MbrTable} (wf : WellFormed tbl) (i : Fin 4) :
    WellFormed (mbrRemovePartition tbl i) := by
  change WellFormed (tbl.put i MbrEntry.zero)
  have away : ∀ {k}, ((tbl.put i MbrEntry.zero).entries k).type ≠ partTypeEmpty → k ≠ i := by
    rintro k used rfl
    rw [tbl.put_self] at used
    exact used rfl
  constructor
  · intro k unused
    by_cases here : k = i
    · subst here
      rw [tbl.put_self]
      exact ⟨rfl, rfl, rfl⟩
    · rw [tbl.put_of_ne here] at unused ⊢
      exact wf.blank k unused
  · intro k used
    have here := away used
    rw [tbl.put_of_ne here] at used ⊢
    exact wf.status k used
  · intro k used
    have here := away used
    rw [tbl.put_of_ne here] at used ⊢
    exact wf.range k used
  · intro k l other used used'
    have here := away used
    have there := away used'
    rw [tbl.put_of_ne here] at used ⊢
    rw [tbl.put_of_ne there] at used' ⊢
    exact wf.apart k l other used used'

/-- A step keeps the table well formed. -/
theorem Edit.keeps {tbl : MbrTable} (wf : WellFormed tbl) (edit : Edit) (typed : edit.Typed) :
    WellFormed (edit.apply tbl).1 := by
  cases edit with
  | add type start sectors bootable =>
    cases added : mbrAddPartition tbl type start sectors bootable with
    | none =>
      simp only [Edit.apply, added]
      exact wf
    | some result =>
      obtain ⟨tbl', i⟩ := result
      obtain ⟨behind, clear, rfl⟩ := add_cases added
      simp only [Edit.apply, added]
      refine WellFormed.update wf i ⟨_, _, type, _, start, sectors⟩ typed ?_ behind clear
      cases bootable with
      | true => exact Or.inr rfl
      | false => exact Or.inl rfl
  | remove idx =>
    by_cases outside : idx < 0 ∨ idx ≥ 4
    · simp only [Edit.apply, dif_pos outside]
      exact wf
    · simp only [Edit.apply, dif_neg outside]
      exact wf.remove _

theorem Edit.run_keeps {tbl : MbrTable} (wf : WellFormed tbl) (edits : List Edit)
    (typed : ∀ e ∈ edits, e.Typed) : WellFormed (Edit.run tbl edits) := by
  induction edits generalizing tbl with
  | nil => exact wf
  | cons e edits ih =>
    exact ih (Edit.keeps wf e (typed e List.mem_cons_self))
      fun e' mem => typed e' (List.mem_cons_of_mem e mem)

/-! ### The table on the disk -/

/-- The sectors a partition takes. -/
def MbrEntry.range (e : MbrEntry) : Set Nat := {n | e.Covers n}

theorem MbrEntry.decode_encode {e : MbrEntry} {f : Nat → UInt8}
    (h : ∀ k, k < 16 → f k = e.encode k) : MbrEntry.decode f = e := by
  have word : ∀ {off : Nat} {v : UInt32}, off + 4 ≤ 16 →
      (∀ k, k < 4 → e.encode (off + k) = u32Byte v k) → u32At f off = v := by
    intro off v bound hv
    exact u32At_eq_of_bytes fun k less => by rw [h (off + k) (by omega), hv k less]
  have status : f 0 = e.status := h 0 (by omega)
  have type : f 4 = e.type := h 4 (by omega)
  have chsStart : (fun i : Fin 3 => f (1 + i.val)) = e.chsStart := by
    funext i
    rw [h (1 + i.val) (by omega)]
    grind [MbrEntry.encode]
  have chsEnd : (fun i : Fin 3 => f (5 + i.val)) = e.chsEnd := by
    funext i
    rw [h (5 + i.val) (by omega)]
    grind [MbrEntry.encode]
  have lbaStart : u32At f 8 = e.lbaStart := word (by omega) fun k less => by
    grind [MbrEntry.encode]
  have sectorCount : u32At f 12 = e.sectorCount := word (by omega) fun k less => by
    grind [MbrEntry.encode]
  cases e
  simp only [MbrEntry.decode, MbrEntry.mk.injEq]
  exact ⟨status, chsStart, type, chsEnd, lbaStart, sectorCount⟩

theorem byteAt_mbrSector (tbl : MbrTable) (base : Sector) {k : Nat} (inside : k < 512) :
    (mbrSector tbl base).byteAt k =
      if 511 ≤ k then 0xAA else if 510 ≤ k then 0x55
      else if 494 ≤ k then (tbl.entries 3).encode (k - 494)
      else if 478 ≤ k then (tbl.entries 2).encode (k - 478)
      else if 462 ≤ k then (tbl.entries 1).encode (k - 462)
      else if 446 ≤ k then (tbl.entries 0).encode (k - 446)
      else base.byteAt k := by
  have four : List.finRange 4 = [0, 1, 2, 3] := rfl
  have offsets : entryOffset 0 = 446 ∧ entryOffset 1 = 462 ∧ entryOffset 2 = 478 ∧
      entryOffset 3 = 494 := ⟨rfl, rfl, rfl, rfl⟩
  obtain ⟨first, second, third, fourth⟩ := offsets
  unfold mbrSector
  simp only [four, List.foldl_cons, List.foldl_nil, Block.byteAt_blit _ _ _ _ _ inside, first,
    second, third, fourth]
  grind

/-- An entry is found where `mbr_write` has put it. -/
theorem byteAt_mbrSector_entry (tbl : MbrTable) (base : Sector) (i : Fin 4) {k : Nat} (h : k < 16) :
    (mbrSector tbl base).byteAt (entryOffset i + k) = (tbl.entries i).encode k := by
  have inside : entryOffset i + k < 512 := by
    have := i.isLt
    unfold entryOffset
    omega
  rw [byteAt_mbrSector tbl base inside]
  obtain rfl | rfl | rfl | rfl : i = 0 ∨ i = 1 ∨ i = 2 ∨ i = 3 := by omega
  · have : entryOffset 0 = 446 := rfl
    grind
  · have : entryOffset 1 = 462 := rfl
    grind
  · have : entryOffset 2 = 478 := rfl
    grind
  · have : entryOffset 3 = 494 := rfl
    grind

/-- **There and back.** What `mbr_write` has put on a drive that answers, `mbr_read` finds, and
the boot code is as before. -/
theorem mbrRead_mbrWrite {w : World} {drive : Int} (reliable : Reliable w.drives drive)
    {tbl : MbrTable} (valid : mbrValidateDrive w.drives drive tbl = true) (out : MbrTable) :
    (mbrWrite w drive tbl false).2 = true ∧
      mbrRead (mbrWrite w drive tbl false).1 drive out = (⟨tbl.entries, true⟩, true) ∧
      ∀ k, k < 0x1BE → ((mbrWrite w drive tbl false).1.disk (drive, 0)).byteAt k =
        (w.disk (drive, 0)).byteAt k := by
  have zero : lba28 0 = 0 := rfl
  have written : mbrWrite w drive tbl false = ({ w with
      disk := Function.update w.disk (drive, 0) (mbrSector tbl (w.disk (drive, 0)))
      issued := w.issued ++ [((drive, 0), mbrSector tbl (w.disk (drive, 0)))] }, true) := by
    unfold mbrWrite
    rw [if_neg (by simp [valid]), if_pos (reliable.write 0), reliable.read w.disk 0, zero]
    rfl
  rw [written]
  refine ⟨rfl, ?_, ?_⟩
  · unfold mbrRead
    rw [reliable.read _ 0, zero]
    dsimp only
    rw [Function.update_self, byteAt_mbrSector _ _ (by omega), byteAt_mbrSector _ _ (by omega)]
    refine Prod.ext ?_ rfl
    have entries : (fun i => MbrEntry.decode fun k =>
        (mbrSector tbl (w.disk (drive, 0))).byteAt (entryOffset i + k)) = tbl.entries := by
      funext i
      exact MbrEntry.decode_encode fun k less => byteAt_mbrSector_entry _ _ i less
    rw [entries]
    rfl
  · intro k code
    dsimp only
    rw [Function.update_self, byteAt_mbrSector _ _ (by omega)]
    grind

/-! ### MBR tables -/

/-- **MBR tables are sound.** An accepted table has its partitions behind sector 0, on the drive
and apart; edits keep a valid table valid, and one that fails changes nothing; a table written to
a drive that answers is read back, with the boot code as it was. -/
theorem tables_sound (drive : Int) :
    (∀ drives tbl, mbrValidateDrive drives drive tbl = true →
      (∀ i, (tbl.entries i).type ≠ partTypeEmpty →
        (tbl.entries i).range.Nonempty ∧ 0 ∉ (tbl.entries i).range ∧
          ∀ n ∈ (tbl.entries i).range, n < (drives drive).sectors.toNat) ∧
      ∀ i j, i ≠ j → (tbl.entries i).type ≠ partTypeEmpty → (tbl.entries j).type ≠ partTypeEmpty →
        ∀ n ∈ (tbl.entries i).range, n ∉ (tbl.entries j).range) ∧
    (∀ tbl edits, mbrValidate tbl = true → (∀ e ∈ edits, Edit.Typed e) →
      mbrValidate (Edit.run tbl edits) = true) ∧
    (∀ tbl type start sectors bootable,
      ((Edit.add type start sectors bootable).apply tbl).2 < 0 →
        ((Edit.add type start sectors bootable).apply tbl).1 = tbl) ∧
    (∀ w tbl out, Reliable w.drives drive → mbrValidateDrive w.drives drive tbl = true →
      (mbrWrite w drive tbl false).2 = true ∧
        mbrRead (mbrWrite w drive tbl false).1 drive out = (⟨tbl.entries, true⟩, true) ∧
        ∀ k, k < 0x1BE → ((mbrWrite w drive tbl false).1.disk (drive, 0)).byteAt k =
          (w.disk (drive, 0)).byteAt k) := by
  refine ⟨?_, ?_, ?_, ?_⟩
  · intro drives tbl valid
    have accepted := Accepted.of_validate valid
    constructor
    · intro i used
      obtain ⟨start, some⟩ := accepted.range i used
      have onDrive := accepted.onDrive i used
      refine ⟨⟨_, le_refl _, ?_⟩, ?_, ?_⟩
      · unfold MbrEntry.finish
        omega
      · intro zero
        exact absurd (zero.1.trans (Nat.zero_le 0)) (by omega)
      · intro n inside
        exact lt_of_lt_of_le inside.2 onDrive
    · intro i j other used used'
      have apart := accepted.apart i j other used used'
      rintro n ⟨low, high⟩ ⟨low', high'⟩
      omega
  · intro tbl edits valid typed
    exact validate_iff.mpr (Edit.run_keeps (validate_iff.mp valid) edits typed)
  · intro tbl type start sectors bootable failed
    cases added : mbrAddPartition tbl type start sectors bootable with
    | none => simp only [Edit.apply, added]
    | some result =>
      simp only [Edit.apply, added] at failed
      omega
  · intro w tbl out reliable valid
    exact mbrRead_mbrWrite reliable valid out

end AtmKoala.Partmgr
