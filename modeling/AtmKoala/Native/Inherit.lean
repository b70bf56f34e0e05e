import AtmKoala.Native.Sole

/-!
Inheriting a table of descriptors.

* `vfsDup`: what the descriptors of the VFS stand for, when one is copied.
* `Lending`: the child and the VFS while descriptors are passed on. Each round keeps it.
* `nativeFdTaskCleanup_returns`: a child that is put away gives back what it was lent.
* `run_inherit`: a child gets what its parent has, or all is as before.
-/

namespace AtmKoala.Native

open Lib
open Sched (Slot)
open Function (update_of_ne update_self)

variable {w w' w'' w₀ : World} {t u child parent : Slot} {k : Fd} {α : Type} {files files₀ : Fin 64 → α}

/-! ### What the descriptors of the VFS stand for -/

/-- `vfs_dup`: the entry of the new descriptor is a copy. -/
def vfsDup (w : World) (files : Fin 64 → α) (b : Fin 64) : Fin 64 → α :=
  match (atmPosixDup w b).2 with
  | none => files
  | some b' => Function.update files b' (files b)

/-- The files in a round of `native_fd_task_inherit`. -/
def inheritFdFiles (child parent : Slot) (w : World) (files : Fin 64 → α) (k : Fd) : Fin 64 → α :=
  if (inheritFd child parent w k).2 then
    match (w.tables parent).fdMap k with
    | some b => vfsDup w files b
    | none => files
  else files

def inheritFdsFiles (child parent : Slot) : World → (Fin 64 → α) → List Fd → Fin 64 → α
  | _, files, [] => files
  | w, files, k :: ks =>
    match inheritFd child parent w k with
    | (w', true) => inheritFdsFiles child parent w' (inheritFdFiles child parent w files k) ks
    | (_, false) => files

/-- What the descriptors of the VFS stand for after `native_fd_task_inherit`. Closing
those of a child that is put away leaves the others as they are. -/
def nativeFdTaskInheritFiles (w : World) (child parent : Slot) (files : Fin 64 → α) : Fin 64 → α :=
  if (w.tables parent).ready = false then files
  else
    let w := (freshTable w child).mapTable child fun table => { table with ready := true }
    if ∃ d, (w.tables parent).dirMap d = true then files
    else inheritFdsFiles child parent w files (List.finRange 32)

/-! ### A round -/

theorem fdExecSet_tables (value : Bool) : (fdExecSet w t k value).1.tables = w.tables := by
  obtain ⟨f, same⟩ := fdExecSet_changes w t k value
  rw [same]

theorem fdExecDrop_tables : (fdExecDrop w t).tables = w.tables := by
  obtain ⟨f, same⟩ := fdExecDrop_changes w t
  rw [same]

/-- The flags of a descriptor that is passed on. -/
def passFlags (child parent : Slot) (k : Fd) (n : UInt32) (w : World) : World :=
  (fdExecSet (w.setFlags child k n) child k (fdExecGet (w.setFlags child k n) parent k)).1

theorem passFlags_tables (n : UInt32) :
    (passFlags child parent k n w).tables = (w.setFlags child k n).tables := fdExecSet_tables _

theorem passFlags_vfsUsed (n : UInt32) : (passFlags child parent k n w).vfsUsed = w.vfsUsed :=
  ((untouched_setFlags n).trans (untouched_fdExecSet _)).vfsUsed

theorem atmPosixDup_some {b b' : Fin 64} (dup : atmPosixDup w b = (w', some b')) :
    w' = { w with vfsUsed := Function.update w.vfsUsed b' true } ∧ w.vfsUsed b = true ∧
      w.vfsUsed b' = false := by
  obtain ⟨made, free, -⟩ := atmPosixOpen_some dup
  refine ⟨made, ?_, free⟩
  by_contra unused
  rw [Bool.not_eq_true] at unused
  unfold atmPosixDup atmPosixOpen at dup
  rw [unused] at dup
  cases dup

theorem nativePipeInherit_cases (child parent : Slot) (w : World) (k : Fd) :
    nativePipeInherit w child parent k = (w, -1) ∨
      ∃ i e, (w.tables parent).pipeMap k = some (i, e) ∧
        nativePipeInherit w child parent k =
          ((w.mapPipe i (·.add e)).setPipe child k (some (i, e)), 0) := by
  unfold nativePipeInherit
  split
  · exact .inl rfl
  · split
    · exact .inl rfl
    · rename_i l i e decoded
      obtain ⟨idx, -, -, mapped, -⟩ := pipeDecode_some decoded
      obtain rfl : k = l := Option.some.inj ((fdIdx_val k).symm.trans idx)
      exact .inr ⟨i, e, mapped, rfl⟩

/-- A round ends the loop, or passes on a file, an end of a pipe, or nothing. -/
theorem inheritFd_cases (child parent : Slot) (w : World) (k : Fd) :
    inheritFd child parent w k = (w, false) ∨
      (w.tables parent).socketMap k = none ∧
        ((∃ b b', (w.tables parent).fdMap k = some b ∧ w.vfsUsed b = true ∧ w.vfsUsed b' = false ∧
            (atmPosixDup w b).2 = some b' ∧
            inheritFd child parent w k = (passFlags child parent k ((w.tables parent).flags k)
              (({ w with vfsUsed := Function.update w.vfsUsed b' true } : World).setFd child k (some b')),
              true)) ∨
          (∃ i e, (w.tables parent).fdMap k = none ∧ (w.tables parent).pipeMap k = some (i, e) ∧
            inheritFd child parent w k = (passFlags child parent k ((w.tables parent).flags k)
              ((w.mapPipe i (·.add e)).setPipe child k (some (i, e))), true)) ∨
          (w.tables parent).fdMap k = none ∧ (w.tables parent).pipeMap k = none ∧
            inheritFd child parent w k = (w, true)) := by
  unfold inheritFd
  dsimp only
  cases socket : (w.tables parent).socketMap k with
  | some n => exact .inl rfl
  | none =>
    rw [if_neg (by decide)]
    cases file : (w.tables parent).fdMap k with
    | some b =>
      dsimp only
      cases dup : atmPosixDup w b with
      | mk w₁ made =>
        cases made with
        | none => exact .inl (Prod.ext (atmPosixOpen_none dup) rfl)
        | some b' =>
          obtain ⟨made, used, free⟩ := atmPosixDup_some dup
          refine .inr ⟨rfl, .inl ⟨b, b', rfl, used, free, by rw [dup], ?_⟩⟩
          rw [made]
          rfl
    | none =>
      dsimp only
      cases pipe : (w.tables parent).pipeMap k with
      | none => exact .inr ⟨rfl, .inr (.inr ⟨rfl, rfl, rfl⟩)⟩
      | some p =>
        rcases nativePipeInherit_cases child parent w k with refused | ⟨i, e, mapped, done⟩
        · rw [refused]
          exact .inl rfl
        · rw [done]
          exact .inr ⟨rfl, .inr (.inl ⟨i, e, rfl, pipe.symm.trans mapped, rfl⟩)⟩

/-! ### The loop -/

/-- The child has at `k` what its parent has: no file or a copy of the parent's, the same
end of a pipe or none, no socket, and the same flags. -/
structure Copied (w : World) (files : Fin 64 → α) (child parent : Slot) (k : Fd) : Prop where
  file : (w.tables parent).fdMap k = none ∧ (w.tables child).fdMap k = none ∨
    ∃ b b', (w.tables parent).fdMap k = some b ∧ (w.tables child).fdMap k = some b' ∧
      w.vfsUsed b = true ∧ w.vfsUsed b' = true ∧ files b' = files b
  pipe : (w.tables child).pipeMap k = (w.tables parent).pipeMap k
  socket : (w.tables parent).socketMap k = none ∧ (w.tables child).socketMap k = none
  flags : (w.tables parent).free k = false → (w.tables child).flags k = (w.tables parent).flags k

/-- **While descriptors are passed on.** The numbers in `ks` are done. What the child has
from the VFS was not in use at the start, and all else is as it was. -/
structure Lending (child parent : Slot) (w₀ : World) (files₀ : Fin 64 → α) (ks : List Fd) (w : World)
    (files : Fin 64 → α) : Prop where
  others : ∀ u, u ≠ child → w.tables u = w₀.tables u
  used : ∀ b, w.vfsUsed b = true ↔ w₀.vfsUsed b = true ∨ ∃ k, (w.tables child).fdMap k = some b
  new : ∀ k b, (w.tables child).fdMap k = some b → w₀.vfsUsed b = false
  kept : ∀ b, w₀.vfsUsed b = true → files b = files₀ b
  left : ∀ k, k ∉ ks → (w.tables child).fdMap k = none ∧ (w.tables child).pipeMap k = none
  sockets : ∀ k, (w.tables child).socketMap k = none
  copied : ∀ k ∈ ks, Copied w files child parent k

/-- The tables after the flags of `k` are passed on. -/
theorem passFlags_table (n : UInt32) : (passFlags child parent k n w).tables child =
    { w.tables child with flags := Function.update (w.tables child).flags k n } := by
  rw [passFlags_tables, World.setFlags, mapTable_self]

theorem passFlags_others (n : UInt32) (ne : u ≠ child) :
    (passFlags child parent k n w).tables u = w.tables u := by
  rw [passFlags_tables, World.setFlags, mapTable_of_ne _ ne]

/-- A number that is done stays so while another one is passed on. -/
theorem Copied.frame {j : Fd} (copied : Copied w files child parent j)
    (same : w'.tables parent = w.tables parent)
    (fdMap : (w'.tables child).fdMap j = (w.tables child).fdMap j)
    (pipeMap : (w'.tables child).pipeMap j = (w.tables child).pipeMap j)
    (socketMap : (w'.tables child).socketMap j = (w.tables child).socketMap j)
    (flags : (w'.tables child).flags j = (w.tables child).flags j)
    {files' : Fin 64 → α} (used : ∀ b, w.vfsUsed b = true → w'.vfsUsed b = true ∧ files' b = files b) :
    Copied w' files' child parent j := by
  constructor
  case file =>
    rw [same, fdMap]
    refine copied.file.imp_right ?_
    rintro ⟨b, b', parents, childs, usedB, usedB', equal⟩
    exact ⟨b, b', parents, childs, (used b usedB).1, (used b' usedB').1,
      (used b' usedB').2.trans (equal.trans (used b usedB).2.symm)⟩
  case pipe => rw [pipeMap, same, copied.pipe]
  case socket =>
    rw [same, socketMap]
    exact copied.socket
  case flags =>
    rw [same, flags]
    exact copied.flags

/-- A file is passed on. -/
theorem Lending.file {ks : List Fd} {b b' : Fin 64} (lending : Lending child parent w₀ files₀ ks w files)
    (ne : child ≠ parent) (sole : ∀ k, (w₀.tables parent).fdMap k = none ∨ (w₀.tables parent).pipeMap k = none)
    (new : k ∉ ks) (noSocket : (w.tables parent).socketMap k = none)
    (file : (w.tables parent).fdMap k = some b) (used : w.vfsUsed b = true) (free : w.vfsUsed b' = false)
    (dup : (atmPosixDup w b).2 = some b') :
    Lending child parent w₀ files₀ (k :: ks) (passFlags child parent k ((w.tables parent).flags k)
      (({ w with vfsUsed := Function.update w.vfsUsed b' true } : World).setFd child k (some b')))
      (vfsDup w files b) := by
  obtain ⟨noFile, noPipe⟩ := lending.left k new
  have noPipe' : (w.tables parent).pipeMap k = none := by
    have alone := sole k
    rw [← lending.others parent ne.symm, file] at alone
    exact alone.resolve_left (by rintro ⟨⟩)
  have files' : vfsDup w files b = Function.update files b' (files b) := by
    unfold vfsDup
    rw [dup]
  rw [files']
  set n := (w.tables parent).flags k with n_eq
  set w' := passFlags child parent k n
    (({ w with vfsUsed := Function.update w.vfsUsed b' true } : World).setFd child k (some b'))
  have table : w'.tables child = { w.tables child with
      fdMap := Function.update (w.tables child).fdMap k (some b')
      flags := Function.update (w.tables child).flags k n } := by
    rw [passFlags_table, World.setFd, mapTable_self]
  have others : ∀ u, u ≠ child → w'.tables u = w.tables u := by
    intro u ne
    rw [passFlags_others _ ne, World.setFd, mapTable_of_ne _ ne]
  have vfs : w'.vfsUsed = Function.update w.vfsUsed b' true := passFlags_vfsUsed n
  have parents := others parent ne.symm
  have stays : ∀ c, w.vfsUsed c = true →
      w'.vfsUsed c = true ∧ Function.update files b' (files b) c = files c := by
    intro c usedC
    have differ : c ≠ b' := by
      rintro rfl
      rw [free] at usedC
      cases usedC
    rw [vfs, update_of_ne differ, update_of_ne differ]
    exact ⟨usedC, rfl⟩
  constructor
  case others => exact fun u ne => (others u ne).trans (lending.others u ne)
  case used =>
    intro c
    rw [vfs, table]
    dsimp only
    by_cases here : c = b'
    · rw [here, update_self]
      exact ⟨fun _ => .inr ⟨k, update_self ..⟩, fun _ => rfl⟩
    · rw [update_of_ne here, lending.used c]
      refine or_congr_right (exists_congr fun j => ?_)
      by_cases at_ : j = k
      · rw [at_, noFile, update_self]
        exact ⟨by rintro ⟨⟩, fun same => absurd (Option.some.inj same).symm here⟩
      · rw [update_of_ne at_]
  case new =>
    intro j c mapped
    rw [table] at mapped
    dsimp only at mapped
    by_cases at_ : j = k
    · rw [at_, update_self] at mapped
      obtain rfl := Option.some.inj mapped
      by_contra before
      rw [Bool.not_eq_false] at before
      rw [(lending.used b').mpr (.inl before)] at free
      cases free
    · rw [update_of_ne at_] at mapped
      exact lending.new j c mapped
  case kept =>
    intro c before
    rw [(stays c ((lending.used c).mpr (.inl before))).2]
    exact lending.kept c before
  case left =>
    intro j mem
    have at_ : j ≠ k := fun same => mem (same ▸ List.mem_cons_self ..)
    rw [table]
    dsimp only
    rw [update_of_ne at_]
    exact lending.left j fun mem' => mem (List.mem_cons_of_mem _ mem')
  case sockets =>
    intro j
    rw [table]
    exact lending.sockets j
  case copied =>
    intro j mem
    rcases List.mem_cons.mp mem with rfl | mem
    · constructor
      case file =>
        refine .inr ⟨b, b', by rw [parents, file], ?_, (stays b used).1, ?_, ?_⟩
        · rw [table]
          exact update_self ..
        · rw [vfs, update_self]
        · rw [update_self, (stays b used).2]
      case pipe =>
        rw [table, parents, noPipe']
        exact noPipe
      case socket =>
        rw [table, parents]
        exact ⟨noSocket, lending.sockets j⟩
      case flags =>
        rw [table, parents]
        exact fun _ => update_self ..
    · have at_ : j ≠ k := fun same => new (same ▸ mem)
      refine (lending.copied j mem).frame parents ?_ ?_ ?_ ?_ stays
      · rw [table]
        exact update_of_ne at_ ..
      · rw [table]
      · rw [table]
      · rw [table]
        exact update_of_ne at_ ..

/-- An end of a pipe is passed on. -/
theorem Lending.pipe {ks : List Fd} {i : Fin 8} {e : PipeEnd}
    (lending : Lending child parent w₀ files₀ ks w files) (ne : child ≠ parent)
    (new : k ∉ ks) (noSocket : (w.tables parent).socketMap k = none)
    (noFile' : (w.tables parent).fdMap k = none) (pipe : (w.tables parent).pipeMap k = some (i, e)) :
    Lending child parent w₀ files₀ (k :: ks) (passFlags child parent k ((w.tables parent).flags k)
      ((w.mapPipe i (·.add e)).setPipe child k (some (i, e)))) files := by
  obtain ⟨noFile, noPipe⟩ := lending.left k new
  set n := (w.tables parent).flags k with n_eq
  set w' := passFlags child parent k n ((w.mapPipe i (·.add e)).setPipe child k (some (i, e)))
  have table : w'.tables child = { w.tables child with
      pipeMap := Function.update (w.tables child).pipeMap k (some (i, e))
      flags := Function.update (w.tables child).flags k n } := by
    rw [passFlags_table, World.setPipe, mapTable_self]
    rfl
  have others : ∀ u, u ≠ child → w'.tables u = w.tables u := by
    intro u ne
    rw [passFlags_others _ ne, World.setPipe, mapTable_of_ne _ ne]
    rfl
  have vfs : w'.vfsUsed = w.vfsUsed := passFlags_vfsUsed n
  have parents := others parent ne.symm
  constructor
  case others => exact fun u ne => (others u ne).trans (lending.others u ne)
  case used =>
    rw [vfs, table]
    exact lending.used
  case new =>
    rw [table]
    exact lending.new
  case kept => exact lending.kept
  case left =>
    intro j mem
    have at_ : j ≠ k := fun same => mem (same ▸ List.mem_cons_self ..)
    rw [table]
    dsimp only
    rw [update_of_ne at_]
    exact lending.left j fun mem' => mem (List.mem_cons_of_mem _ mem')
  case sockets =>
    rw [table]
    exact lending.sockets
  case copied =>
    intro j mem
    rcases List.mem_cons.mp mem with rfl | mem
    · constructor
      case file =>
        rw [table, parents]
        exact .inl ⟨noFile', noFile⟩
      case pipe =>
        rw [table, parents, pipe]
        exact update_self ..
      case socket =>
        rw [table, parents]
        exact ⟨noSocket, lending.sockets j⟩
      case flags =>
        rw [table, parents]
        exact fun _ => update_self ..
    · have at_ : j ≠ k := fun same => new (same ▸ mem)
      refine (lending.copied j mem).frame parents ?_ ?_ ?_ ?_ fun c usedC => ⟨vfs ▸ usedC, rfl⟩
      · rw [table]
      · rw [table]
        exact update_of_ne at_ ..
      · rw [table]
      · rw [table]
        exact update_of_ne at_ ..

/-- A round that does not end the loop. -/
theorem Lending.round {ks : List Fd} (lending : Lending child parent w₀ files₀ ks w files)
    (ne : child ≠ parent) (sole : ∀ k, (w₀.tables parent).fdMap k = none ∨ (w₀.tables parent).pipeMap k = none)
    (new : k ∉ ks) (done : inheritFd child parent w k = (w', true)) :
    Lending child parent w₀ files₀ (k :: ks) w' (inheritFdFiles child parent w files k) := by
  have parents : w.tables parent = w₀.tables parent := lending.others parent ne.symm
  obtain ⟨noFile, noPipe⟩ := lending.left k new
  have other : ∀ {j}, j ∈ ks → j ≠ k := fun mem same => new (same ▸ mem)
  unfold inheritFdFiles
  rw [done]
  dsimp only
  rw [if_pos rfl]
  rcases inheritFd_cases child parent w k with stopped | ⟨noSocket, ⟨b, b', file, used, free, dup, made⟩ |
    ⟨i, e, none_, pipe, made⟩ | ⟨none_, none', made⟩⟩
  · cases stopped.symm.trans done
  · obtain rfl := (Prod.mk.inj (made.symm.trans done)).1
    rw [file]
    exact lending.file ne sole new noSocket file used free dup
  · obtain rfl := (Prod.mk.inj (made.symm.trans done)).1
    rw [none_]
    exact lending.pipe ne new noSocket none_ pipe
  · obtain rfl := (Prod.mk.inj (made.symm.trans done)).1
    rw [none_]
    dsimp only
    constructor
    case others => exact lending.others
    case used => exact lending.used
    case new => exact lending.new
    case kept => exact lending.kept
    case left => exact fun j mem => lending.left j fun mem' => mem (List.mem_cons_of_mem _ mem')
    case sockets => exact lending.sockets
    case copied =>
      intro j mem
      rcases List.mem_cons.mp mem with rfl | mem
      · refine ⟨.inl ⟨none_, noFile⟩, noPipe.trans none'.symm, ⟨noSocket, lending.sockets j⟩, fun free => ?_⟩
        simp [Table.free, none_, none', noSocket] at free
      · exact lending.copied j mem

/-- The loop goes through all numbers, or stops with some of them done. -/
theorem inheritFds_lending {ks ks' : List Fd} (lending : Lending child parent w₀ files₀ ks w files)
    (ne : child ≠ parent) (sole : ∀ k, (w₀.tables parent).fdMap k = none ∨ (w₀.tables parent).pipeMap k = none)
    (distinct : ks'.Nodup) (new : ∀ k ∈ ks', k ∉ ks) :
    ∃ all, Lending child parent w₀ files₀ all (inheritFds child parent w ks').1
        (inheritFdsFiles child parent w files ks') ∧
      ((inheritFds child parent w ks').2 = true → ∀ k ∈ ks', k ∈ all) ∧ ∀ k ∈ ks, k ∈ all := by
  induction ks' generalizing w files ks with
  | nil => exact ⟨ks, lending, fun _ k mem => absurd mem List.not_mem_nil, fun k mem => mem⟩
  | cons k ks' ih =>
    obtain ⟨notIn, distinct⟩ := List.nodup_cons.mp distinct
    unfold inheritFds inheritFdsFiles
    cases one : inheritFd child parent w k with
    | mk w' more =>
      cases more with
      | true =>
        have next := lending.round ne sole (new k (List.mem_cons_self ..)) one
        obtain ⟨all, lent, complete, before⟩ := ih next distinct fun j mem mem' => by
          rcases List.mem_cons.mp mem' with rfl | mem'
          · exact notIn mem
          · exact new j (List.mem_cons_of_mem _ mem) mem'
        refine ⟨all, lent, fun done j mem => ?_, fun j mem => before j (List.mem_cons_of_mem _ mem)⟩
        rcases List.mem_cons.mp mem with rfl | mem
        · exact before j (List.mem_cons_self ..)
        · exact complete done j mem
      | false =>
        have same : w' = w := by
          rcases inheritFd_cases child parent w k with stopped | ⟨-, ⟨b, b', -, -, -, -, made⟩ |
            ⟨i, e, -, -, made⟩ | ⟨-, -, made⟩⟩
          · exact (Prod.mk.inj (one.symm.trans stopped)).1
          · cases one.symm.trans made
          · cases one.symm.trans made
          · cases one.symm.trans made
        rw [same]
        exact ⟨ks, lending, by rintro ⟨⟩, fun j mem => mem⟩

/-! ### A child that is put away -/

theorem nativePipeClose_others (fd : Int) (ne : u ≠ t) :
    (nativePipeClose w t fd).1.tables u = w.tables u := by
  unfold nativePipeClose
  split
  · rfl
  · rename_i k i e _
    have closed : ((w.setPipe t k none).mapPipe i (·.drop e)).tables u = w.tables u := by
      show (w.setPipe t k none).tables u = w.tables u
      rw [World.setPipe, mapTable_of_ne _ ne]
    dsimp only
    unfold pipeMaybeFree
    split
    · exact (congrFun (wakeOther_tables _ i e).1 u).trans closed
    · exact (congrFun (wakeOther_tables _ i e).1 u).trans closed

theorem nativeSocketClose_others (fd : Int) (ne : u ≠ t) :
    (nativeSocketClose w t fd).1.tables u = w.tables u := by
  unfold nativeSocketClose
  split
  · rfl
  · split
    · rfl
    · split
      · exact (mapTable_of_ne (w := w) _ ne : (w.setSocket t _ none).tables u = w.tables u)
      · rfl

theorem nativePipeTaskCleanup_others (ne : u ≠ t) : (nativePipeTaskCleanup w t).tables u = w.tables u := by
  unfold nativePipeTaskCleanup
  refine List.foldlRecOn (motive := fun (w' : World) => w'.tables u = w.tables u) _ _ rfl fun w' same k _ => ?_
  split
  · exact (nativePipeClose_others _ ne).trans same
  · exact same

theorem nativeSocketTaskCleanup_others (ne : u ≠ t) :
    (nativeSocketTaskCleanup w t).tables u = w.tables u := by
  unfold nativeSocketTaskCleanup
  refine List.foldlRecOn (motive := fun (w' : World) => w'.tables u = w.tables u) _ _ rfl fun w' same k _ => ?_
  split
  · exact (nativeSocketClose_others _ ne).trans same
  · exact same

/-- Closing the files of a table. -/
def closeFile (t : Slot) (w : World) (k : Fd) : World :=
  (match (w.tables t).fdMap k with
    | none => w
    | some b => atmPosixClose w b).setFd t k none |>.setFlags t k 0

theorem closeFile_others (ne : u ≠ t) : (closeFile t w k).tables u = w.tables u := by
  unfold closeFile
  rw [World.setFlags, mapTable_of_ne _ ne, World.setFd, mapTable_of_ne _ ne]
  split
  · rfl
  · rfl

theorem closeFile_fdMap (j : Fd) : ((closeFile t w k).tables t).fdMap j =
    if j = k then none else (w.tables t).fdMap j := by
  unfold closeFile
  rw [World.setFlags, mapTable_self, World.setFd, mapTable_self]
  dsimp only
  rw [Function.update_apply]
  split
  · rfl
  · split
    · rfl
    · rfl

theorem closeFile_vfsUsed (b : Fin 64) : (closeFile t w k).vfsUsed b = true ↔
    w.vfsUsed b = true ∧ (w.tables t).fdMap k ≠ some b := by
  unfold closeFile
  split
  · rename_i none_
    rw [none_]
    exact ⟨fun used => ⟨used, nofun⟩, And.left⟩
  · rename_i c mapped
    rw [mapped]
    show Function.update w.vfsUsed c false b = true ↔ _
    by_cases here : b = c
    · rw [here, update_self]
      exact ⟨nofun, fun both => absurd rfl both.2⟩
    · rw [update_of_ne here]
      exact ⟨fun used => ⟨used, fun same => here (Option.some.inj same).symm⟩, And.left⟩

theorem closeFiles_spec (ks : List Fd) :
    (∀ u, u ≠ t → (ks.foldl (closeFile t) w).tables u = w.tables u) ∧
      ∀ b, (ks.foldl (closeFile t) w).vfsUsed b = true ↔
        w.vfsUsed b = true ∧ ∀ k ∈ ks, (w.tables t).fdMap k ≠ some b := by
  induction ks generalizing w with
  | nil => exact ⟨fun _ _ => rfl, fun b => ⟨fun used => ⟨used, fun k mem => absurd mem List.not_mem_nil⟩, And.left⟩⟩
  | cons k ks ih =>
    obtain ⟨others, used⟩ := ih (w := closeFile t w k)
    rw [List.foldl_cons]
    refine ⟨fun u ne => (others u ne).trans (closeFile_others ne), fun b => ?_⟩
    rw [used, closeFile_vfsUsed, and_assoc, List.forall_mem_cons]
    refine and_congr_right fun _ => and_congr_right fun elsewhere => forall₂_congr fun j _ => ?_
    rw [closeFile_fdMap]
    by_cases here : j = k
    · rw [if_pos here, here]
      exact ⟨fun _ => elsewhere, fun _ => nofun⟩
    · rw [if_neg here]

/-- **A table that is put away** gives its files back to the VFS, and no other table changes. -/
theorem nativeFdTaskCleanup_returns (ready : (w.tables t).ready = true) :
    (∀ u, u ≠ t → (nativeFdTaskCleanup w t).tables u = w.tables u) ∧
      ((nativeFdTaskCleanup w t).tables t).ready = false ∧
      ∀ b, (nativeFdTaskCleanup w t).vfsUsed b = true ↔
        w.vfsUsed b = true ∧ ∀ k, (w.tables t).fdMap k ≠ some b := by
  set w₁ := nativeSocketTaskCleanup (nativePipeTaskCleanup (nativeDirTaskInit w t) t) t with w₁_eq
  have dirs : Untouched w (nativeDirTaskInit w t) := untouched_mapTable (fun _ => rfl) fun _ => rfl
  have same : Untouched w w₁ :=
    (dirs.trans (untouched_nativePipeTaskCleanup (t := t))).trans (untouched_nativeSocketTaskCleanup (t := t))
  have others₁ : ∀ u, u ≠ t → w₁.tables u = w.tables u := by
    intro u ne
    rw [w₁_eq, nativeSocketTaskCleanup_others ne, nativePipeTaskCleanup_others ne]
    exact mapTable_of_ne _ ne
  obtain ⟨others, used⟩ := closeFiles_spec (t := t) (w := w₁) (List.finRange 32)
  set w₂ := (List.finRange 32).foldl (closeFile t) w₁ with w₂_eq
  have done : nativeFdTaskCleanup w t =
      fdExecDrop (w₂.mapTable t fun table => { table with ready := false }) t := by
    unfold nativeFdTaskCleanup
    rw [if_neg (by rw [ready]; decide)]
    rfl
  have drop := untouched_fdExecDrop (w := w₂.mapTable t fun table => { table with ready := false }) (t := t)
  have tables : (nativeFdTaskCleanup w t).tables =
      (w₂.mapTable t fun table => { table with ready := false }).tables := by
    rw [done]
    exact fdExecDrop_tables
  rw [tables]
  refine ⟨fun u ne => ?_, ?_, fun b => ?_⟩
  · rw [mapTable_of_ne _ ne, others u ne, others₁ u ne]
  · rw [mapTable_self]
  · rw [done, drop.vfsUsed]
    show w₂.vfsUsed b = true ↔ _
    rw [used, same.vfsUsed, same.fdMap]
    exact and_congr_right fun _ => ⟨fun all k => all k (List.mem_finRange k), fun all k _ => all k⟩

/-! ### Inheriting -/

/-- The table the child starts with. -/
theorem lending_start (ne : child ≠ parent) (files : Fin 64 → α) :
    let w₁ := (freshTable w child).mapTable child fun table => { table with ready := true }
    (w₁.tables child).ready = true ∧ w₁.tables parent = w.tables parent ∧ w₁.vfsUsed = w.vfsUsed ∧
      (∀ k, ¬Live w₁ child k) ∧ Lending child parent w files [] w₁ files := by
  intro w₁
  have ready : (w₁.tables child).ready = true := by
    show ((World.mapTable ..).tables child).ready = true
    rw [mapTable_self]
  have others : ∀ u, u ≠ child → w₁.tables u = w.tables u := by
    intro u ne
    show (World.mapTable ..).tables u = _
    rw [mapTable_of_ne _ ne, freshTable_tables_of_ne ne]
  have empty : ∀ k a, ¬holds w₁ child k a := fun k a held => (freshTable_holds ready_maps held).1 rfl
  have noFile : ∀ k, (w₁.tables child).fdMap k = none := fun k => by
    by_contra some_
    exact empty k .file ⟨ready, some_⟩
  have noPipe : ∀ k, (w₁.tables child).pipeMap k = none := fun k => by
    by_contra some_
    exact empty k .pipe ⟨ready, some_⟩
  have noSocket : ∀ k, (w₁.tables child).socketMap k = none := fun k => by
    by_contra some_
    obtain ⟨n, mapped⟩ := Option.ne_none_iff_exists'.mp some_
    exact empty k (.socket n) ⟨ready, mapped⟩
  refine ⟨ready, others parent ne.symm, freshTable_vfsUsed w, fun k ⟨a, held⟩ => empty k a held, ?_⟩
  constructor
  case others => exact others
  case used =>
    intro b
    have same : w₁.vfsUsed = w.vfsUsed := freshTable_vfsUsed w
    rw [same]
    refine ⟨.inl, fun either => either.resolve_right fun ⟨k, mapped⟩ => ?_⟩
    rw [noFile k] at mapped
    cases mapped
  case new =>
    intro k b mapped
    rw [noFile k] at mapped
    cases mapped
  case kept => exact fun _ _ => rfl
  case left => exact fun k _ => ⟨noFile k, noPipe k⟩
  case sockets => exact noSocket
  case copied => exact fun k mem => absurd mem List.not_mem_nil

/-- What a child that is put away leaves behind. -/
theorem Lending.returned {ks : List Fd} (lending : Lending child parent w₀ files₀ ks w files)
    (ready : (w.tables child).ready = true) :
    (∀ u, u ≠ child → (nativeFdTaskCleanup w child).tables u = w₀.tables u) ∧
      ((nativeFdTaskCleanup w child).tables child).ready = false ∧
      (nativeFdTaskCleanup w child).vfsUsed = w₀.vfsUsed := by
  obtain ⟨others, unready, used⟩ := nativeFdTaskCleanup_returns (t := child) ready
  refine ⟨fun u ne => (others u ne).trans (lending.others u ne), unready, ?_⟩
  funext b
  rw [Bool.eq_iff_iff, used, lending.used]
  constructor
  · rintro ⟨before | ⟨k, mapped⟩, none_⟩
    · exact before
    · exact absurd mapped (none_ k)
  · intro before
    refine ⟨.inl before, fun k mapped => ?_⟩
    rw [lending.new k b mapped] at before
    cases before

/-- A call that fails. -/
structure Refused (w w' : World) (files files' : Fin 64 → α) (parent : Slot) : Prop where
  table : w'.tables parent = w.tables parent
  refs : ∀ i e, (w'.pipes i).refs e = (w.pipes i).refs e
  vfsUsed : w'.vfsUsed = w.vfsUsed
  files : ∀ b, w.vfsUsed b = true → files' b = files b

/-- A call that succeeds. -/
structure Handed (w w' : World) (files files' : Fin 64 → α) (child parent : Slot) : Prop where
  ready : (w'.tables child).ready = true
  table : w'.tables parent = w.tables parent
  copied : ∀ k, Copied w' files' child parent k
  bits : ∀ k, Live w' child k → fdExecGet w' child k = fdExecGet w' parent k
  files : ∀ b, w.vfsUsed b = true → files' b = files b

theorem nativeFdTaskInherit_handed (sound : Sound w) (ne : child ≠ parent)
    (fresh : ∀ k, entry w child k = none) (files : Fin 64 → α) :
    (nativeFdTaskInherit w child parent).2 = 0 ∧
        Handed w (nativeFdTaskInherit w child parent).1 files (nativeFdTaskInheritFiles w child parent files)
          child parent ∨
      (nativeFdTaskInherit w child parent).2 = -1 ∧
        Refused w (nativeFdTaskInherit w child parent).1 files
          (nativeFdTaskInheritFiles w child parent files) parent := by
  have counted : Counted (nativeFdTaskInherit w child parent).1 :=
    sound.counted.moves (nativeFdTaskInherit_moves sound.counted fresh)
  revert counted
  unfold nativeFdTaskInherit nativeFdTaskInheritFiles
  by_cases unready : (w.tables parent).ready = false
  · rw [if_pos unready, if_pos unready]
    exact fun _ => .inr ⟨rfl, rfl, fun _ _ => rfl, rfl, fun _ _ => rfl⟩
  rw [if_neg unready, if_neg unready]
  rw [Bool.not_eq_false] at unready
  obtain ⟨ready, table, vfsUsed, closed, start⟩ := lending_start (w := w) ne files
  obtain ⟨recorded, entry₁, -⟩ := freshTable_recorded sound.recorded child
  have recorded₁ := recorded.mapTable entry₁ fun table => { table with ready := true }
  dsimp only
  generalize (freshTable w child).mapTable child (fun table => { table with ready := true }) = w₁ at *
  -- the references are counted again when the child is put away
  have refused : ∀ {ks w₂ files₂}, Lending child parent w files ks w₂ files₂ →
      (w₂.tables child).ready = true → Counted (nativeFdTaskCleanup w₂ child) →
      Refused w (nativeFdTaskCleanup w₂ child) files files₂ parent := by
    intro ks w₂ files₂ lending ready₂ counted
    obtain ⟨others, unready', used⟩ := lending.returned ready₂
    refine ⟨others parent ne.symm, fun i e => ?_, used, lending.kept⟩
    rw [counted.refs, sound.counted.refs]
    refine ends_congr (fun u j => ?_) i e
    by_cases here : u = child
    · rw [here, fresh]
      unfold entry
      rw [unready', if_neg (by decide)]
    · unfold entry
      rw [others u here]
  by_cases dirs : ∃ d, (w₁.tables parent).dirMap d = true
  · rw [if_pos dirs, if_pos dirs]
    exact fun counted => .inr ⟨rfl, refused start ready counted⟩
  · rw [if_neg dirs, if_neg dirs]
    have sole : ∀ k, (w.tables parent).fdMap k = none ∨ (w.tables parent).pipeMap k = none := by
      intro k
      by_contra both
      obtain ⟨file, pipe⟩ := not_or.mp both
      exact sound.sole parent k ⟨unready, file⟩ ⟨unready, pipe⟩
    obtain ⟨all, lending, complete, -⟩ := inheritFds_lending start ne sole (List.nodup_finRange 32)
      fun k _ => List.not_mem_nil
    have inherited := inheritFds_inherited recorded₁ ne ready ((congrArg Table.ready table).trans unready)
      (List.nodup_finRange 32) fun k _ => closed k
    have ready₂ := inherited.ready.trans ready
    cases loop : inheritFds child parent w₁ (List.finRange 32) with
    | mk w₂ more =>
      rw [loop] at lending complete inherited ready₂
      cases more with
      | true =>
        refine fun _ => .inl ⟨rfl, ready₂, lending.others parent ne.symm,
          fun k => lending.copied k (complete rfl k (List.mem_finRange k)), fun k live => ?_, lending.kept⟩
        rw [inherited.assigns.given (if_pos (List.mem_finRange k)) live, inherited.bits]
      | false => exact fun counted => .inr ⟨rfl, refused lending ready₂ counted⟩

/-- **A table is inherited, or nothing happens.** In every state reached, the call on a new
child of another task either returns 0 and gives the child at each number what its parent
has, with its flags and its bit, or returns -1 and the parent's table, the references of
all pipes and the open descriptors of the VFS are as before. -/
theorem run_inherit {w₀ : World} {rs : List Request} (boot : Boot w₀) (unused : ∀ i, w₀.execMeta i = none)
    (run : Run (fun w r w' => Request.perform w r = some w') Started w₀ rs w) (ne : child ≠ parent)
    (fresh : ∀ k, entry w child k = none) (files : Fin 64 → α) :
    (nativeFdTaskInherit w child parent).2 = 0 ∧
        Handed w (nativeFdTaskInherit w child parent).1 files (nativeFdTaskInheritFiles w child parent files)
          child parent ∨
      (nativeFdTaskInherit w child parent).2 = -1 ∧
        Refused w (nativeFdTaskInherit w child parent).1 files
          (nativeFdTaskInheritFiles w child parent files) parent :=
  nativeFdTaskInherit_handed (run_sound boot unused run) ne fresh files

/-- A parent with a file, a pipe and a socket that it closes again. -/
def parentRun : List Request :=
  [.call (.taskInit 0 fun _ => true), .call (.openFile 0 true oCloexec), .call (.pipe2 0 oNonblock),
    .call (.socketOpen 0)]

/-- The socket stops the call, and without it the call succeeds. -/
theorem run_inherit_socket :
    ∃ w w' : World, Run (fun w r w' => Request.perform w r = some w') Started booted parentRun w ∧
      Run (fun w r w' => Request.perform w r = some w') Started booted (parentRun ++ [.call (.close 0 6)]) w' ∧
      Refused w (nativeFdTaskInherit w 1 0).1 id (nativeFdTaskInheritFiles w 1 0 id) 0 ∧
      Handed w' (nativeFdTaskInherit w' 1 0).1 id (nativeFdTaskInheritFiles w' 1 0 id) 1 0 := by
  have done : ((runAll Request.perform Started booted parentRun).filter fun w =>
      (nativeFdTaskInherit w 1 0).2 = -1 ∧ ∀ k, entry w 1 k = none).isSome = true := by
    decide
  have done' : ((runAll Request.perform Started booted (parentRun ++ [.call (.close 0 6)])).filter fun w =>
      (nativeFdTaskInherit w 1 0).2 = 0 ∧ ∀ k, entry w 1 k = none).isSome = true := by
    decide
  obtain ⟨w, found⟩ := Option.isSome_iff_exists.mp done
  obtain ⟨w', found'⟩ := Option.isSome_iff_exists.mp done'
  obtain ⟨ran, held⟩ := Option.filter_eq_some_iff.mp found
  obtain ⟨ran', held'⟩ := Option.filter_eq_some_iff.mp found'
  obtain ⟨failed, fresh⟩ := of_decide_eq_true held
  obtain ⟨succeeded, fresh'⟩ := of_decide_eq_true held'
  refine ⟨w, w', .of_runAll ran, .of_runAll ran', ?_, ?_⟩
  · rcases run_inherit booted_boot (fun _ => rfl) (.of_runAll ran) (by decide : (1 : Slot) ≠ 0) fresh id with
      ⟨absurd_, -⟩ | ⟨-, refused⟩
    · cases failed.symm.trans absurd_
    · exact refused
  · rcases run_inherit booted_boot (fun _ => rfl) (.of_runAll ran') (by decide : (1 : Slot) ≠ 0) fresh' id with
      ⟨-, handed⟩ | ⟨absurd_, -⟩
    · exact handed
    · cases succeeded.symm.trans absurd_

end AtmKoala.Native
