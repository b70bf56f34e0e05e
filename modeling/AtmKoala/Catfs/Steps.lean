import AtmKoala.Catfs.Ops

/-!
The file operations as a transition system.

`Op` lists the operations of a mounted volume, `Op.apply` runs one, `Step` is
the transition relation. `Op.target` is the inode an operation is going to
change if it passes its checks. On a ready volume with sound ownership,
`step_cases` says everything a step can do:

* nothing, or a new access time;
* `catfs_sync`;
* a write that moves no byte but has taken pointer blocks (`Op.Strands`);
* a journaled change of the target (`Journaled`).

Every later result about runs is derived from these cases. The first one is
block ownership: `Sound` holds after every run from a fresh volume.
-/

namespace AtmKoala.Catfs

open Lib

/-! ### Operations -/

/-- The operations of a mounted volume. `buf` is the caller's buffer. -/
inductive Op where
  | create (path : CString) (type : UInt8) (now : UInt32)
  | write (idx : Int) (offset : UInt32) (buf : Nat → UInt8) (len now : UInt32)
  | truncate (idx : Int) (newSize now : UInt32)
  | rename (idx newParent : Int) (newName : CString) (now : UInt32)
  | chmod (idx : Int) (perms : UInt16) (now : UInt32)
  | unlink (idx : Int)
  | sync
  | read (idx : Int) (offset len now : UInt32)

/-- Run one operation; `none` where the C code has no defined result. -/
def Op.apply (w : World) : Op → Option (World × Int)
  | .create path type now => catfsCreate w path type now
  | .write idx offset buf len now => some (catfsWrite w idx offset buf len now)
  | .truncate idx newSize now => some (catfsTruncate w idx newSize now)
  | .rename idx newParent newName now => catfsRename w idx newParent newName now
  | .chmod idx perms now => some (catfsChmod w idx perms now)
  | .unlink idx => some (catfsUnlink w idx)
  | .sync => some (catfsSync w)
  | .read idx offset len now =>
    some ((catfsRead w idx offset len now).1, (catfsRead w idx offset len now).2.1)

theorem write_apply (w : World) (idx : Int) (offset : UInt32) (buf : Nat → UInt8)
    (len now : UInt32) : (Op.write idx offset buf len now).apply w =
      some ((catfsWrite w idx offset buf len now).1, (catfsWrite w idx offset buf len now).2) := rfl

theorem truncate_apply (w : World) (idx : Int) (newSize now : UInt32) :
    (Op.truncate idx newSize now).apply w =
      some ((catfsTruncate w idx newSize now).1, (catfsTruncate w idx newSize now).2) := rfl

theorem inodeIdx_val (p : Fin 256) : inodeIdx p.val = some p := by
  have inside : (0 : Int) ≤ p.val ∧ (p.val : Int) < 256 := by omega
  rw [inodeIdx, dif_pos inside]
  exact congrArg some (Fin.ext (Int.toNat_natCast p.val))

theorem val_of_inodeIdx {k : Int} {p : Fin 256} (at_ : inodeIdx k = some p) : k = p.val := by
  unfold inodeIdx at at_
  split at at_
  · rename_i inside
    obtain rfl := Option.some.inj at_
    exact (Int.toNat_of_nonneg inside.1).symm
  · cases at_

/-- One completed operation. -/
def Step (w : World) (op : Op) (w' : World) : Prop := ∃ r, op.apply w = some (w', r)

namespace Op

/-- Whether `catfs_write` to inode `i` finds a first block for its data. -/
def startsAt (w : World) (i : Fin 256) (offset len : UInt32) : Bool :=
  0 < len ∧ offset.toNat / 512 < 16528 ∧
    (w.missing i (dataPos (offset.toNat / 512)).path).length ≤ clearBits w.catfs.bitmap

/-- A live inode that is no directory. -/
def isFile (w : World) (i : Fin 256) : Bool :=
  (w.catfs.inodes i).type ≠ typeFree ∧ (w.catfs.inodes i).type ≠ typeDir

/-- The inode the operation is going to journal a change of: the checks of the
operations, up to their first `journal_log`. -/
def target (w : World) : Op → Option (Fin 256)
  | .create path _ _ =>
    match splitLast path.chars with
    | none => none
    | some (dir, _) =>
      if (catfsLookup w.catfs dir).isSome && (catfsLookup w.catfs path.chars).isNone then
        (List.finRange 256).find? fun i => i ≠ 0 ∧ (w.catfs.inodes i).type = typeFree
      else none
  | .write idx offset _ len _ => (inodeIdx idx).filter fun i => isFile w i && startsAt w i offset len
  | .truncate idx _ _ => (inodeIdx idx).filter fun i => isFile w i
  | .rename idx newParent newName _ =>
    match inodeIdx newParent with
    | none => none
    | some p => (inodeIdx idx).filter fun i =>
        i ≠ 0 ∧ (w.catfs.inodes p).type = typeDir ∧ newName.chars.length ≠ 0 ∧
          newName.chars.length < nameMax ∧ (w.catfs.inodes i).type ≠ typeFree ∧
          ancestorWalk w.catfs.inodes i 257 p.val = some false ∧
          nameTaken w.catfs i p newName.chars = false
  | .chmod idx _ _ => (inodeIdx idx).filter fun i => (w.catfs.inodes i).type ≠ typeFree
  | .unlink idx => (inodeIdx idx).filter fun i =>
      i ≠ 0 ∧ (w.catfs.inodes i).type ≠ typeFree ∧
        ¬((w.catfs.inodes i).type = typeDir ∧ hasChild w.catfs i = true)
  | .sync => none
  | .read _ _ _ _ => none

/-- A write for which there are free blocks, but not enough for its first data
block and the pointer blocks above it. -/
def Strands (w : World) : Op → Prop
  | .write idx offset _ len _ => ∃ i, inodeIdx idx = some i ∧ isFile w i = true ∧ 0 < len ∧
      offset.toNat / 512 < 16528 ∧ clearBits w.catfs.bitmap ≠ 0 ∧
      clearBits w.catfs.bitmap < (w.missing i (dataPos (offset.toNat / 512)).path).length
  | _ => False

/-- A write that takes a block: there are free blocks, and one of the blocks in
its range is missing. -/
def Allocates (w : World) : Op → Prop
  | .write idx offset _ len _ => clearBits w.catfs.bitmap ≠ 0 ∧ ∃ i, inodeIdx idx = some i ∧
      isFile w i = true ∧ ∃ blk, offset.toNat / 512 ≤ blk ∧
        blk * 512 < offset.toNat + len.toNat ∧ blk < 16528 ∧ w.fileBlock i blk = 0
  | _ => False

end Op

/-! ### What each operation does -/

section Cases

variable {w w' : World} {r : Int}

theorem create_cases (ready : Ready w) (owned : w.Owned) {path : CString} {type : UInt8}
    {now : UInt32} (h : catfsCreate w path type now = some (w', r)) :
    w' = w ∧ (Op.create path type now).target w = none ∨
    ∃ i parent base w₂, (Op.create path type now).target w = some i ∧ i ≠ 0 ∧
      (w.catfs.inodes i).type = typeFree ∧
      Journaled i (fun _ => False) (newInode base type parent now) w w w₂ w' := by
  unfold catfsCreate at h
  rw [if_neg (by simp [ready.mounted])] at h
  simp only [Op.target]
  cases split : splitLast path.chars with
  | none => simp [split] at h
  | some parts =>
    obtain ⟨dir, base⟩ := parts
    simp only [split] at h ⊢
    cases up : catfsLookup w.catfs dir with
    | none =>
      simp only [up, Option.some.injEq, Prod.mk.injEq] at h
      exact Or.inl ⟨h.1.symm, by simp⟩
    | some parent =>
      simp only [up] at h
      cases taken : catfsLookup w.catfs path.chars with
      | some j =>
        simp only [taken, Option.isSome_some, if_true, Option.some.injEq, Prod.mk.injEq] at h
        exact Or.inl ⟨h.1.symm, by simp⟩
      | none =>
        simp only [taken, Option.isSome_none, Bool.false_eq_true, if_false] at h
        cases slot : (List.finRange 256).find?
            fun i => i ≠ 0 ∧ (w.catfs.inodes i).type = typeFree with
        | none =>
          simp only [slot, Option.some.injEq, Prod.mk.injEq] at h
          exact Or.inl ⟨h.1.symm, by simp⟩
        | some i =>
          simp only [slot, Option.some.injEq, Prod.mk.injEq] at h
          have found := List.find?_some slot
          simp only [decide_eq_true_eq] at found
          obtain ⟨w₂, journaled⟩ := createAt_journaled ready owned found.2 parent base type now
          rw [h.1] at journaled
          exact Or.inr ⟨i, parent, base, w₂, by simp, found.1, found.2, journaled⟩

theorem isFile_iff {i : Fin 256} : Op.isFile w i = true ↔
    ¬((w.catfs.inodes i).type = typeFree ∨ (w.catfs.inodes i).type = typeDir) := by
  rw [Op.isFile, decide_eq_true_iff, not_or]

theorem write_cases (ready : Ready w) (owned : w.Owned) {idx : Int} {offset len now : UInt32}
    {buf : Nat → UInt8} (h : catfsWrite w idx offset buf len now = (w', r)) :
    w' = w ∧ r = -1 ∧ (Op.write idx offset buf len now).target w = none ∨
    ∃ i w₁ n, inodeIdx idx = some i ∧ Op.isFile w i = true ∧ r = n.toNat ∧
      LoopSpec i offset buf len w 0 w₁ n ∧
      (n = 0 ∧ w' = w₁ ∨ n ≠ 0 ∧ ∃ w₂, Journaled i (fun _ => False)
        { w₁.catfs.inodes i with
          size := if offset + n > (w.catfs.inodes i).size then offset + n
            else (w.catfs.inodes i).size
          mtime := now } w w₁ w₂ w') := by
  unfold catfsWrite at h
  rw [if_neg (by simp [ready.mounted])] at h
  cases hi : inodeIdx idx with
  | none =>
    simp only [hi, Prod.mk.injEq] at h
    exact Or.inl ⟨h.1.symm, h.2.symm, by simp [Op.target, hi]⟩
  | some i =>
    simp only [hi] at h
    by_cases bad : (w.catfs.inodes i).type = typeFree ∨ (w.catfs.inodes i).type = typeDir
    · rw [if_pos bad, Prod.mk.injEq] at h
      refine Or.inl ⟨h.1.symm, h.2.symm, ?_⟩
      have : Op.isFile w i = false := by
        by_contra hf
        exact isFile_iff.mp (by simpa using hf) bad
      simp [Op.target, hi, this]
    · rw [if_neg bad] at h
      have live : (w.catfs.inodes i).type ≠ typeFree := fun hf => bad (Or.inl hf)
      obtain ⟨w₁, n, hloop, spec⟩ := @writeLoop_spec _ offset buf len _
        ready owned live len.toNat 0 (by simp) (by simp) (by simpa using offset.toNat_lt)
      simp only [hloop, Prod.mk.injEq] at h
      refine Or.inr ⟨i, w₁, n, rfl, isFile_iff.mpr bad, h.2.symm, spec, ?_⟩
      by_cases hn : n = 0
      · exact Or.inl ⟨hn, by rw [← h.1, if_neg (by simp [hn])]⟩
      · have pos : n > 0 := UInt32.pos_iff_ne_zero.mpr hn
        obtain ⟨w₂, journaled⟩ := writeFinish_journaled ready live spec.wrote.grows (offset + n) now
        rw [← h.1, if_pos pos]
        exact Or.inr ⟨hn, w₂, journaled⟩

theorem truncate_cases (ready : Ready w) (owned : w.Owned) {idx : Int} {newSize now : UInt32}
    (h : catfsTruncate w idx newSize now = (w', r)) :
    w' = w ∧ (Op.truncate idx newSize now).target w = none ∨
    ∃ i w₂, inodeIdx idx = some i ∧ (Op.truncate idx newSize now).target w = some i ∧
      Op.isFile w i = true ∧ Journaled i (Cut w i newSize)
        { w₂.catfs.inodes i with size := newSize, mtime := now } w w w₂ w' := by
  unfold catfsTruncate at h
  rw [if_neg (by simp [ready.mounted])] at h
  simp only [Op.target]
  cases hi : inodeIdx idx with
  | none =>
    simp only [hi, Prod.mk.injEq] at h
    exact Or.inl ⟨h.1.symm, by simp⟩
  | some i =>
    simp only [hi] at h
    by_cases bad : (w.catfs.inodes i).type = typeFree ∨ (w.catfs.inodes i).type = typeDir
    · rw [if_pos bad, Prod.mk.injEq] at h
      refine Or.inl ⟨h.1.symm, ?_⟩
      rw [Option.filter_some, if_neg]
      exact fun hf => isFile_iff.mp hf bad
    · rw [if_neg bad] at h
      have file := isFile_iff.mpr bad
      obtain ⟨w₂, v, hv, journaled⟩ := truncateAt_journaled ready owned
        (fun hf => bad (Or.inl hf)) newSize now
      rw [hv, Prod.mk.injEq] at h
      rw [h.1] at journaled
      exact Or.inr ⟨i, w₂, rfl, by rw [Option.filter_some, if_pos file], file, journaled⟩

theorem rename_cases (ready : Ready w) {idx newParent : Int} {newName : CString} {now : UInt32}
    (h : catfsRename w idx newParent newName now = some (w', r)) :
    w' = w ∧ (Op.rename idx newParent newName now).target w = none ∨
    ∃ i p w₂, (Op.rename idx newParent newName now).target w = some i ∧ i ≠ 0 ∧
      (w.catfs.inodes i).type ≠ typeFree ∧ Journaled i (fun _ => False)
        { w.catfs.inodes i with
          parent := Int32.ofNat p
          name := kstrcpy (w.catfs.inodes i).name newName.chars
          mtime := now } w w w₂ w' := by
  unfold catfsRename at h
  rw [if_neg (by simp [ready.mounted])] at h
  simp only [Op.target]
  cases hp : inodeIdx newParent with
  | none =>
    cases hi : inodeIdx idx <;> simp only [hi, hp, Option.some.injEq, Prod.mk.injEq] at h <;>
      exact Or.inl ⟨h.1.symm, rfl⟩
  | some p =>
    cases hi : inodeIdx idx with
    | none =>
      simp only [hi, Option.some.injEq, Prod.mk.injEq] at h
      exact Or.inl ⟨h.1.symm, rfl⟩
    | some i =>
      simp only [hi, hp] at h
      dsimp only
      rw [Option.filter_some]
      have refuse : ∀ P : Prop, [Decidable P] → ¬P →
          (if decide P = true then some i else none) = none := by
        intro P _ hP
        simp [hP]
      by_cases root : i = 0
      · rw [if_pos root, Option.some.injEq, Prod.mk.injEq] at h
        exact Or.inl ⟨h.1.symm, refuse _ fun all => all.1 root⟩
      rw [if_neg root] at h
      by_cases notDir : (w.catfs.inodes p).type ≠ typeDir
      · rw [if_pos notDir, Option.some.injEq, Prod.mk.injEq] at h
        exact Or.inl ⟨h.1.symm, refuse _ fun all => notDir all.2.1⟩
      rw [if_neg notDir] at h
      by_cases badName : newName.chars.length = 0 ∨ newName.chars.length ≥ nameMax
      · rw [if_pos badName, Option.some.injEq, Prod.mk.injEq] at h
        refine Or.inl ⟨h.1.symm, refuse _ fun all => ?_⟩
        exact badName.elim all.2.2.1 fun long => Nat.not_lt.mpr long all.2.2.2.1
      rw [if_neg badName] at h
      by_cases isFree : (w.catfs.inodes i).type = typeFree
      · rw [if_pos isFree, Option.some.injEq, Prod.mk.injEq] at h
        exact Or.inl ⟨h.1.symm, refuse _ fun all => all.2.2.2.2.1 isFree⟩
      rw [if_neg isFree] at h
      cases walk : ancestorWalk w.catfs.inodes i 257 p.val with
      | none => simp [walk] at h
      | some above =>
        cases above with
        | true =>
          simp only [walk, Option.some.injEq, Prod.mk.injEq] at h
          exact Or.inl ⟨h.1.symm, refuse _ fun all => by simp at all⟩
        | false =>
          simp only [walk] at h
          by_cases taken : nameTaken w.catfs i p newName.chars = true
          · rw [if_pos taken, Option.some.injEq, Prod.mk.injEq] at h
            exact Or.inl ⟨h.1.symm, refuse _ fun all => by simp [taken] at all⟩
          · rw [if_neg taken] at h
            obtain ⟨w₂, v, hv, journaled⟩ := renameAt_journaled ready isFree p newName.chars now
            rw [hv, Option.some.injEq, Prod.mk.injEq] at h
            rw [h.1] at journaled
            refine Or.inr ⟨i, p.val, w₂, if_pos ?_, root, isFree, journaled⟩
            rw [decide_eq_true_iff]
            exact ⟨root, not_not.mp notDir, fun h0 => badName (Or.inl h0),
              Nat.lt_of_not_le fun long => badName (Or.inr long), isFree, rfl, by simpa using taken⟩

theorem chmod_cases (ready : Ready w) {idx : Int} {perms : UInt16} {now : UInt32}
    (h : catfsChmod w idx perms now = (w', r)) :
    w' = w ∧ (Op.chmod idx perms now).target w = none ∨
    ∃ i w₂, (Op.chmod idx perms now).target w = some i ∧ (w.catfs.inodes i).type ≠ typeFree ∧
      Journaled i (fun _ => False)
        { w.catfs.inodes i with perms := perms &&& 0x1FF, mtime := now } w w w₂ w' := by
  unfold catfsChmod at h
  rw [if_neg (by simp [ready.mounted])] at h
  simp only [Op.target]
  cases hi : inodeIdx idx with
  | none =>
    simp only [hi, Prod.mk.injEq] at h
    exact Or.inl ⟨h.1.symm, rfl⟩
  | some i =>
    simp only [hi] at h
    rw [Option.filter_some]
    by_cases isFree : (w.catfs.inodes i).type = typeFree
    · rw [if_pos isFree, Prod.mk.injEq] at h
      exact Or.inl ⟨h.1.symm, if_neg (by rw [decide_eq_true_iff]; exact not_not.mpr isFree)⟩
    · rw [if_neg isFree] at h
      obtain ⟨w₂, v, hv, journaled⟩ := chmodAt_journaled ready isFree perms now
      rw [hv, Prod.mk.injEq] at h
      rw [h.1] at journaled
      exact Or.inr ⟨i, w₂, if_pos (by rw [decide_eq_true_iff]; exact isFree), isFree, journaled⟩

theorem unlink_cases (ready : Ready w) (owned : w.Owned) {idx : Int}
    (h : catfsUnlink w idx = (w', r)) :
    w' = w ∧ (Op.unlink idx).target w = none ∨
    ∃ i w₂, (Op.unlink idx).target w = some i ∧ i ≠ 0 ∧ (w.catfs.inodes i).type ≠ typeFree ∧
      Journaled i (fun _ => True) Inode.zero w w w₂ w' := by
  unfold catfsUnlink at h
  rw [if_neg (by simp [ready.mounted])] at h
  simp only [Op.target]
  cases hi : inodeIdx idx with
  | none =>
    simp only [hi, Prod.mk.injEq] at h
    exact Or.inl ⟨h.1.symm, rfl⟩
  | some i =>
    simp only [hi] at h
    rw [Option.filter_some]
    by_cases root : i = 0
    · rw [if_pos root, Prod.mk.injEq] at h
      exact Or.inl ⟨h.1.symm, if_neg (by rw [decide_eq_true_iff]; exact fun all => all.1 root)⟩
    rw [if_neg root] at h
    by_cases isFree : (w.catfs.inodes i).type = typeFree
    · rw [if_pos isFree, Prod.mk.injEq] at h
      exact Or.inl ⟨h.1.symm, if_neg (by rw [decide_eq_true_iff]; exact fun all => all.2.1 isFree)⟩
    rw [if_neg isFree] at h
    by_cases full : (w.catfs.inodes i).type = typeDir ∧ hasChild w.catfs i = true
    · rw [if_pos full, Prod.mk.injEq] at h
      exact Or.inl ⟨h.1.symm, if_neg (by rw [decide_eq_true_iff]; exact fun all => all.2.2 full)⟩
    · rw [if_neg full, Prod.mk.injEq] at h
      obtain ⟨w₂, journaled⟩ := unlinkAt_journaled ready owned i
      rw [h.1] at journaled
      refine Or.inr ⟨i, w₂, if_pos ?_, root, isFree, journaled⟩
      rw [decide_eq_true_iff]
      exact ⟨root, isFree, full⟩

theorem read_cases (ready : Ready w) {idx : Int} {offset len now : UInt32} :
    (catfsRead w idx offset len now).1 = w ∨
    ∃ i, (catfsRead w idx offset len now).1 = w.mapInode i fun n => { n with atime := now } := by
  unfold catfsRead
  rw [if_neg (by simp [ready.mounted])]
  cases hi : inodeIdx idx with
  | none => exact Or.inl rfl
  | some i =>
    dsimp only
    by_cases isFree : (w.catfs.inodes i).type = typeFree
    · exact Or.inl (by rw [if_pos isFree])
    rw [if_neg isFree]
    by_cases past : offset ≥ (w.catfs.inodes i).size
    · exact Or.inl (by rw [if_pos past])
    · exact Or.inr ⟨i, by rw [if_neg past]⟩

end Cases

/-! ### Everything a step can do -/

/-- The effect of a completed operation. -/
inductive Effect (w : World) (op : Op) : World → Prop where
  | same (refused : op.target w = none) : Effect w op w
  | touched (i : Fin 256) (now : UInt32) (reads : op.target w = none) :
      Effect w op (w.mapInode i fun n => { n with atime := now })
  | synced (sync : op = .sync) : Effect w op (w.perform w.catfs.synced (syncEvents w.catfs))
  | stranded {i : Fin 256} {w' : World} (strands : op.Strands w) (file : Op.isFile w i = true)
      (grows : Grows i w w')
      (idle : ∀ k, w.fileBlock i (k / 512) ≠ 0 → w'.byte i k = w.byte i k) : Effect w op w'
  | journaled {i : Fin 256} {D : Pos → Prop} {n : Inode} {w₁ w₂ w' : World}
      (target : op.target w = some i) (change : Journaled i D n w w₁ w₂ w')
      (grew : op.Allocates w ↔ Grew w w₁)
      (took : Grew w w₁ → (∀ p, ¬D p) ∧ n.type ≠ typeFree)
      (root : (w.catfs.inodes 0).type = typeDir → i = 0 → n.type = typeDir ∧ w₁ = w) :
      Effect w op w'

theorem write_target {w : World} {i : Fin 256} {idx : Int} {offset len now : UInt32}
    {buf : Nat → UInt8} (hi : inodeIdx idx = some i) (file : Op.isFile w i = true) :
    (Op.write idx offset buf len now).target w =
      if Op.startsAt w i offset len then some i else none := by
  simp [Op.target, hi, file, Option.filter_some]

theorem not_grew (w : World) : ¬Grew w w := by
  rintro ⟨a, before, after⟩
  rw [before] at after
  cases after

/-- A write takes a block exactly if one is missing and one is free. -/
theorem write_grew {w w₁ : World} {i : Fin 256} {idx : Int} {offset len now n : UInt32}
    {buf : Nat → UInt8} (hi : inodeIdx idx = some i) (file : Op.isFile w i = true)
    (spec : LoopSpec i offset buf len w 0 w₁ n) (moved : n ≠ 0) :
    (Op.write idx offset buf len now).Allocates w ↔ Grew w w₁ := by
  constructor
  · rintro ⟨room, j, hj, -, blk, lo, high, small, empty⟩
    obtain rfl : i = j := Option.some.inj (hi.symm.trans hj)
    exact spec.took (spec.started.mp moved).1 room blk (by simpa using lo) high small empty
  · rintro ⟨a, before, after⟩
    have room : clearBits w.catfs.bitmap ≠ 0 := by
      intro full
      rw [clearBits_eq_zero.mp full a (bmTest_lt after)] at before
      cases before
    by_contra none
    have same : w₁.catfs.bitmap = w.catfs.bitmap := by
      refine spec.quiet fun blk lo high small empty =>
        none ⟨room, i, hi, file, blk, ?_, high, small, empty⟩
      simpa using lo
    rw [same, before] at after
    cases after

theorem Op.Strands.allocates {w : World} {op : Op} (h : op.Strands w) : op.Allocates w := by
  cases op with
  | write idx offset buf len now =>
    obtain ⟨i, hi, file, more, small, room, full⟩ := h
    have pos := UInt32.lt_iff_toNat_lt.mp more
    have zero : (0 : UInt32).toNat = 0 := rfl
    refine ⟨room, i, hi, file, offset.toNat / 512, le_refl _, by omega, small, ?_⟩
    rw [World.fileBlock_of_lt _ _ small]
    by_contra present
    rw [missing_eq_nil present] at full
    exact absurd full (Nat.not_lt_zero _)
  | _ => exact h.elim

theorem Op.Strands.target {w : World} {op : Op} (h : op.Strands w) : op.target w = none := by
  cases op with
  | write idx offset buf len now =>
    obtain ⟨i, hi, file, -, -, -, full⟩ := h
    rw [write_target hi file, if_neg]
    intro starts
    rw [Op.startsAt, decide_eq_true_iff] at starts
    omega
  | _ => exact h.elim

theorem not_isFile_root {w : World} (dir : (w.catfs.inodes 0).type = typeDir) :
    ¬Op.isFile w 0 = true := fun file => isFile_iff.mp file (Or.inr dir)

theorem step_cases {w w' : World} {op : Op} (ready : Ready w) (owned : w.Owned)
    (step : Step w op w') : Effect w op w' := by
  obtain ⟨r, h⟩ := step
  cases op with
  | create path type now =>
    rcases create_cases ready owned h with ⟨rfl, none⟩ | ⟨i, parent, base, w₂, some, ne, -, change⟩
    · exact .same none
    · exact .journaled some change (iff_of_false id (not_grew w))
        (fun grew => absurd grew (not_grew w)) fun _ eq => absurd eq ne
  | write idx offset buf len now =>
    rcases write_cases ready owned (Option.some.inj h) with ⟨rfl, -, none⟩ |
      ⟨i, w₁, n, hi, file, -, spec, ⟨hn, rfl⟩ | ⟨hn, w₂, change⟩⟩
    · exact .same none
    · rcases spec.idle hn with rfl | ⟨more, small, nonzero, full⟩
      · refine .same ?_
        rw [write_target hi file, if_neg]
        intro starts
        rw [Op.startsAt, decide_eq_true_iff] at starts
        exact spec.started.mpr (by simpa using starts) hn
      · rw [UInt32.add_zero] at small full
        subst hn
        exact .stranded ⟨i, hi, file, more, small, nonzero, full⟩ file spec.wrote.grows
          fun k mapped => spec.wrote.kept k mapped (by simp)
    · refine .journaled (i := i) ?_ change (write_grew hi file spec hn)
        (fun _ => ⟨fun _ => id, ?_⟩) fun dir eq => absurd (eq ▸ file) (not_isFile_root dir)
      · rw [write_target hi file, if_pos]
        rw [Op.startsAt, decide_eq_true_iff]
        simpa using spec.started.mp hn
      · show (w₁.catfs.inodes i).type ≠ typeFree
        rw [spec.wrote.grows.only.type_eq]
        exact fun isFree => isFile_iff.mp file (Or.inl isFree)
  | truncate idx newSize now =>
    rcases truncate_cases ready owned (Option.some.inj h) with
      ⟨rfl, none⟩ | ⟨i, w₂, -, some, file, change⟩
    · exact .same none
    · exact .journaled some change (iff_of_false id (not_grew w))
        (fun grew => absurd grew (not_grew w))
        fun dir eq => absurd (eq ▸ file) (not_isFile_root dir)
  | rename idx newParent newName now =>
    rcases rename_cases ready h with ⟨rfl, none⟩ | ⟨i, p, w₂, some, ne, -, change⟩
    · exact .same none
    · exact .journaled some change (iff_of_false id (not_grew w))
        (fun grew => absurd grew (not_grew w)) fun _ eq => absurd eq ne
  | chmod idx perms now =>
    rcases chmod_cases ready (Option.some.inj h) with ⟨rfl, none⟩ | ⟨i, w₂, some, -, change⟩
    · exact .same none
    · refine .journaled some change (iff_of_false id (not_grew w))
        (fun grew => absurd grew (not_grew w)) fun dir eq => ⟨?_, rfl⟩
      subst eq
      exact dir
  | unlink idx =>
    rcases unlink_cases ready owned (Option.some.inj h) with
      ⟨rfl, none⟩ | ⟨i, w₂, some, ne, -, change⟩
    · exact .same none
    · exact .journaled some change (iff_of_false id (not_grew w))
        (fun grew => absurd grew (not_grew w)) fun _ eq => absurd eq ne
  | sync =>
    have := Option.some.inj h
    rw [catfsSync_eq ready, Prod.mk.injEq] at this
    rw [← this.1]
    exact .synced rfl
  | read idx offset len now =>
    have := (Prod.mk.injEq _ _ _ _ ▸ Option.some.inj h).1
    rw [← this]
    rcases read_cases ready with same | ⟨i, touched⟩
    · rw [same]
      exact .same rfl
    · rw [touched]
      exact .touched i now rfl

/-! ### Soundness -/

/-- A mounted volume whose bookkeeping is right. -/
structure Sound (w : World) : Prop where
  ready : Ready w
  owned : w.Owned
  counted : Counted w.catfs

namespace Journaled

variable {i : Fin 256} {D : Pos → Prop} {n : Inode} {w w₁ w₂ w' : World}

theorem ready₂ (h : Journaled i D n w w₁ w₂ w') (ready : Ready w) : Ready w₂ := by
  obtain ⟨r, -, -, drops⟩ := h.record
  exact drops.ready ((h.grows.ready ready).perform (logged_frame _) _)

theorem frame₂ (h : Journaled i D n w w₁ w₂ w') : Frame w₂.catfs w'.catfs := by
  obtain ⟨free, state⟩ := h.state
  rw [state]
  exact (setInode_frame _ _ _ _).trans (committed_frame _)

theorem ready (h : Journaled i D n w w₁ w₂ w') (ready : Ready w) : Ready w' := by
  obtain ⟨tail, -, events⟩ := h.events
  rw [events]
  exact (h.ready₂ ready).perform h.frame₂ _

/-- The last phase writes metadata only. -/
theorem blockOf_eq (h : Journaled i D n w w₁ w₂ w') :
    blockOf w'.sector = blockOf w₂.sector := by
  obtain ⟨tail, shape, events⟩ := h.events
  rw [events, World.sector_perform h.frame₂.toSameVolume]
  refine blockOf_runEvents_of_lt _ fun e he => ?_
  rcases List.mem_cons.mp he with rfl | he
  · exact Ev.lba_lt_of_not_block rfl
  rcases List.mem_append.mp he with he | he
  · exact Ev.lba_lt_of_not_block (shape.not_block e he)
  · rw [List.mem_singleton.mp he]
    exact Ev.lba_lt_of_not_block rfl

theorem owned₂ (h : Journaled i D n w w₁ w₂ w') (owned : w.Owned) : w₂.Owned := by
  obtain ⟨r, -, -, drops⟩ := h.record
  exact drops.owned (owned_logging (h.grows.owned owned) _ r).1

theorem owned (h : Journaled i D n w w₁ w₂ w') (owned : w.Owned) :
    w'.Owned ∧ w'.slots = w₂.slots := by
  obtain ⟨free, state⟩ := h.state
  refine owned_update (h.owned₂ owned) ?_ h.blocks h.free ?_ h.blockOf_eq
  · rw [state]
    rfl
  · rw [state]
    rfl

theorem counted (h : Journaled i D n w w₁ w₂ w') (counted : Counted w.catfs) :
    Counted w'.catfs := by
  obtain ⟨r, -, -, drops⟩ := h.record
  obtain ⟨free, state⟩ := h.state
  have before : Counted w₂.catfs := drops.counted (h.grows.counted counted)
  rw [state]
  exact before

end Journaled

theorem syncEvents_not_block (c : State) : ∀ e ∈ syncEvents c, e.isBlock = false := by
  intro e he
  simp only [syncEvents, tableEvents, bitmapEvents, List.cons_append, List.append_assoc,
    List.mem_cons, List.mem_append, List.mem_map, List.not_mem_nil, or_false] at he
  rcases he with rfl | ⟨s, -, rfl⟩ | ⟨s, -, rfl⟩ | rfl | rfl <;> rfl

/-- `catfs_sync` writes no block of the data area. -/
theorem blockOf_sync (w : World) :
    blockOf (w.perform w.catfs.synced (syncEvents w.catfs)).sector = blockOf w.sector := by
  have same : SameVolume w.catfs w.catfs.synced := ⟨rfl, rfl⟩
  rw [World.sector_perform same]
  exact blockOf_runEvents_of_lt _ fun e he =>
    Ev.lba_lt_of_not_block (syncEvents_not_block w.catfs e he)

theorem owned_sync {w : World} (owned : w.Owned) :
    (w.perform w.catfs.synced (syncEvents w.catfs)).Owned ∧
      (w.perform w.catfs.synced (syncEvents w.catfs)).slots = w.slots :=
  owned_congr owned (fun _ => ⟨rfl, rfl, rfl⟩) owned.free rfl (blockOf_sync w)

/-- A new access time moves no block. -/
theorem owned_touch {w : World} (owned : w.Owned) (i : Fin 256) (now : UInt32) :
    (w.mapInode i fun n => { n with atime := now }).Owned ∧
      (w.mapInode i fun n => { n with atime := now }).slots = w.slots := by
  refine owned_update owned rfl ⟨rfl, rfl, rfl⟩ (fun isFree => ?_) rfl rfl
  have zero := owned.free i isFree
  exact ⟨zero.blocks, zero.indirect, zero.dindirect⟩

/-- **Step.** Every operation keeps the bookkeeping right. -/
theorem Sound.step {w w' : World} {op : Op} (h : Sound w) (step : Step w op w') : Sound w' := by
  cases step_cases h.ready h.owned step with
  | same _ => exact h
  | touched i now _ =>
    refine ⟨?_, (owned_touch h.owned i now).1, h.counted⟩
    rw [mapInode_eq]
    exact h.ready.perform (setInode_frame _ _ _ _) []
  | synced _ =>
    have frame : Frame w.catfs w.catfs.synced := ⟨⟨rfl, rfl⟩, rfl, rfl⟩
    exact ⟨h.ready.perform frame _, (owned_sync h.owned).1, h.counted⟩
  | stranded _ _ grows _ =>
    exact ⟨grows.ready h.ready, grows.owned h.owned, grows.counted h.counted⟩
  | journaled _ change _ _ _ =>
    exact ⟨change.ready h.ready, (change.owned h.owned).1, change.counted h.counted⟩

/-! ### A fresh volume -/

/-- What `catfs_format_at` leaves on a reliable drive. -/
theorem catfsFormatAt_eq {w₀ : World} {drive : Int} (reliable : Reliable w₀.drives drive)
    (off : UInt32) {label : CString} (short : label.chars.length < 32) (now : UInt32) :
    catfsFormatAt w₀ drive off label now =
      some (({ w₀ with catfs := formatState drive off label.chars now } : World).perform
        (formatState drive off label.chars now).synced
        (syncEvents (formatState drive off label.chars now)), 0) := by
  have ready : Ready { w₀ with catfs := formatState drive off label.chars now } :=
    ⟨reliable, rfl, rfl, rfl, rfl, rfl⟩
  have there : ¬(drive < 0 ∨ !(w₀.drives drive).present) := by
    rintro (neg | absent)
    · exact absurd reliable.lo (by omega)
    · simp [reliable.present] at absent
  unfold catfsFormatAt
  rw [if_neg there, if_neg (by omega), catfsSync_eq ready]

/-- Volumes `catfs_format_at` has just made, on a reliable drive. -/
def Formatted (w : World) : Prop :=
  ∃ (w₀ : World) (drive : Int) (off : UInt32) (label : CString) (now : UInt32),
    Reliable w₀.drives drive ∧ catfsFormatAt w₀ drive off label now = some (w, 0)

theorem Formatted.eq {w : World} (h : Formatted w) :
    ∃ (w₀ : World) (drive : Int) (off : UInt32) (label : List UInt8) (now : UInt32),
      Reliable w₀.drives drive ∧ w₀.catfs = formatState drive off label now ∧
      w = w₀.perform w₀.catfs.synced (syncEvents w₀.catfs) := by
  obtain ⟨w₀, drive, off, label, now, reliable, format⟩ := h
  by_cases short : label.chars.length < 32
  · rw [catfsFormatAt_eq reliable off short now, Option.some.injEq, Prod.mk.injEq] at format
    exact ⟨{ w₀ with catfs := formatState drive off label.chars now }, drive, off, label.chars, now,
      reliable, rfl, format.1.symm⟩
  · have there : ¬(drive < 0 ∨ !(w₀.drives drive).present) := by
      rintro (neg | absent)
      · exact absurd reliable.lo (by omega)
      · simp [reliable.present] at absent
    rw [catfsFormatAt, if_neg there, if_pos (by omega)] at format
    cases format

/-- A fresh volume holds no block. -/
theorem formatState_slots (drive : Int) (off : UInt32) (label : List UInt8) (now : UInt32)
    (block : UInt32 → Sector) (k : Key) :
    slots (formatState drive off label now).inodes block k = 0 := by
  obtain ⟨i, p⟩ := k
  have zero : SameBlocks Inode.zero ((formatState drive off label now).inodes i) := by
    by_cases hi : i = 0
    · subst hi
      exact ⟨rfl, rfl, rfl⟩
    · have other : (formatState drive off label now).inodes i = Inode.zero := by
        simp [formatState, hi]
      rw [other]
      exact ⟨rfl, rfl, rfl⟩
  exact congrFun (slot_of_zero zero block) p

/-- A fresh volume is sound. -/
theorem Formatted.sound {w : World} (h : Formatted w) : Sound w := by
  obtain ⟨w₀, drive, off, label, now, reliable, state, rfl⟩ := h.eq
  have ready : Ready w₀ := by
    refine ⟨?_, ?_, ?_, ?_, ?_, ?_⟩ <;> rw [state]
    · exact reliable
    all_goals rfl
  have frame : Frame w₀.catfs w₀.catfs.synced := ⟨⟨rfl, rfl⟩, rfl, rfl⟩
  have empty : ∀ k, (w₀.perform w₀.catfs.synced (syncEvents w₀.catfs)).slots k = 0 := by
    intro k
    have := formatState_slots drive off label now
      (blockOf (w₀.perform w₀.catfs.synced (syncEvents w₀.catfs)).sector) k
    rw [← state] at this
    exact this
  have bits : w₀.catfs.bitmap = bmSet (fun _ => 0) 0 := by
    rw [state]
    rfl
  refine ⟨ready.perform frame _, ⟨⟨?_, ?_, ?_, ?_⟩, fun i _ => ?_⟩, ?_⟩
  · intro k l present _
    exact absurd (empty k) present
  · intro k present
    exact absurd (empty k) present
  · show bmTest w₀.catfs.bitmap 0 = true
    rw [bits, bmTest_bmSet _ (by decide)]
    simp
  · intro b marked hb
    have marked' : bmTest w₀.catfs.bitmap b.toNat = true := marked
    rw [bits, bmTest_bmSet _ (by decide)] at marked'
    simp only [bmTest_zero, Bool.false_or, decide_eq_true_eq] at marked'
    exact absurd (UInt32.toNat_inj.mp marked') hb
  · exact ⟨funext fun k => empty (i, .direct k), empty (i, .indirect), empty (i, .dindirect)⟩
  · have count := @clearBits_bmSet (fun _ => 0) 0 (by decide) (by simp)
    show w₀.catfs.sb.freeBlocks.toNat = clearBits w₀.catfs.bitmap
    rw [bits, state]
    rw [clearBits_zero] at count
    show (UInt32.ofNat 16383).toNat = _
    rw [UInt32.toNat_ofNat']
    omega

/-- **Run.** Every run keeps the bookkeeping right. -/
theorem Sound.run {ok : World → Op → Prop} {w w' : World} {ops : List Op} (h : Sound w)
    (run : Run Step ok w ops w') : Sound w' :=
  run.invariant h fun sound _ step => sound.step step

/-! ### Block ownership -/

/-- **Block ownership**, as seen from the live inodes and the bitmap: block
numbers are in range, stored once and marked, nothing else is marked, and the
superblock counts what is not. -/
structure BlocksOwned (w : World) : Prop where
  range : ∀ i p, (w.catfs.inodes i).type ≠ typeFree → w.slots (i, p) ≠ 0 →
    1 ≤ (w.slots (i, p)).toNat ∧ (w.slots (i, p)).toNat ≤ 16383
  once : ∀ i p j q, (w.catfs.inodes i).type ≠ typeFree → (w.catfs.inodes j).type ≠ typeFree →
    w.slots (i, p) ≠ 0 → w.slots (i, p) = w.slots (j, q) → i = j ∧ p = q
  marked : ∀ i p, (w.catfs.inodes i).type ≠ typeFree → w.slots (i, p) ≠ 0 →
    bmTest w.catfs.bitmap (w.slots (i, p)).toNat = true
  clear : ∀ b, b ≠ 0 →
    (∀ i p, (w.catfs.inodes i).type ≠ typeFree → (w.slots (i, p)).toNat ≠ b) →
    bmTest w.catfs.bitmap b = false
  counted : w.catfs.sb.freeBlocks.toNat = clearBits w.catfs.bitmap

theorem Sound.blocksOwned {w : World} (h : Sound w) : BlocksOwned w where
  range := by
    intro i p _ present
    have small : (w.slots (i, p)).toNat < 16384 := h.owned.lt (i, p)
    have nonzero : (w.slots (i, p)).toNat ≠ 0 := fun hz => present (UInt32.toNat_inj.mp hz)
    omega
  once := by
    intro i p j q _ _ present same
    exact Prod.ext_iff.mp (h.owned.ledger.inj present same)
  marked := fun i p _ present => h.owned.ledger.held present
  clear := by
    intro b hb unowned
    cases marked : bmTest w.catfs.bitmap b with
    | false => rfl
    | true =>
      have small := bmTest_lt marked
      have hback : (UInt32.ofNat b).toNat = b := by
        rw [UInt32.toNat_ofNat']
        omega
      have hne : UInt32.ofNat b ≠ 0 := by
        intro hz
        rw [hz] at hback
        exact hb hback.symm
      obtain ⟨⟨i, p⟩, held⟩ := h.owned.ledger.owned (v := UInt32.ofNat b)
        (by rw [hback]; exact marked) hne
      have held' : w.slots (i, p) = UInt32.ofNat b := held
      -- a free inode holds nothing, so the holder is live
      refine absurd (by rw [held', hback]) (unowned i p fun isFree => hne ?_)
      rw [← held']
      exact congrFun (slot_of_zero (h.owned.free i isFree) _) p
  counted := h.counted

/-- Four reliable drives with nothing on them. -/
def blankWorld : World where
  drives := fun _ => ⟨true, 65536, fun _ => false, fun _ => false⟩
  disk := fun _ => Block.zero 512
  issued := []
  catfs := formatState 0 2048 [] 0

theorem blankWorld_reliable : Reliable blankWorld.drives 0 :=
  ⟨by decide, by decide, rfl, fun _ => rfl, fun _ => rfl⟩

/-- A volume just formatted at sector 2048 of drive 0. -/
def freshWorld : World :=
  blankWorld.perform (formatState 0 2048 [] 0).synced (syncEvents (formatState 0 2048 [] 0))

theorem freshWorld_formatted : Formatted freshWorld :=
  ⟨blankWorld, 0, 2048, ⟨[], by simp⟩, 0, blankWorld_reliable,
    catfsFormatAt_eq blankWorld_reliable 2048 (by simp) 0⟩

end AtmKoala.Catfs
