import AtmKoala.Native.Fcntl
import AtmKoala.Native.Inherit

/-!
Duplicating descriptors.

* `Duplicate`: a descriptor is a copy of another one. `dupOnto_spec` is the lemma for the
  tail the duplicating calls share, and `dupOnto_makes` says when it succeeds.
* `nativeFdDupMin_lowest`, `nativeFdDup2_spec`: the calls.
* `run_dup`: what `dup`, `dup2`, `dup3` and `F_DUPFD` do in every state reached.
-/

namespace AtmKoala.Native

open Lib
open Sched (Slot)
open Function (update_self)

variable {w w' w₁ : World} {t : Slot} {j k : Fd} {fd newfd minFd : Int} {α : Type}
  {files : Fin 64 → α}

/-- The files while `dupOnto` copies a descriptor. -/
def dupOntoFiles (w : World) (t : Slot) (fd : Int) (files : Fin 64 → α) : Fin 64 → α :=
  match pipeDecode w t fd with
  | some _ => files
  | none =>
    match fdValid w t fd with
    | none => files
    | some (_, b) => vfsDup w files b

/-- What the descriptors of the VFS stand for after a call that looks for a free number. -/
def nativeFdDupMinFiles (w : World) (t : Slot) (fd minFd : Int) (files : Fin 64 → α) : Fin 64 → α :=
  if fdIdx (nativeFdDupMin w t fd minFd).2 = none then files else dupOntoFiles w t fd files

/-- The same for `native_fd_dup2`. -/
def nativeFdDup2Files (w : World) (t : Slot) (fd newfd : Int) (files : Fin 64 → α) : Fin 64 → α :=
  match fdIdx newfd with
  | none => files
  | some k =>
    if fd = newfd ∨ dupable w t fd = false then files
    else dupOntoFiles (closeTarget w t k) t fd files

/-- Descriptor `k` stands for what `j` stood for: the same end of a pipe, or a file whose
descriptor of the VFS is a copy. It has the flags of `j`, and is not closed on exec. -/
structure Duplicate (w w' : World) (files files' : Fin 64 → α) (t : Slot) (j k : Fd) : Prop where
  object :
    (∃ p, (w.tables t).pipeMap j = some p ∧ (w'.tables t).pipeMap k = some p ∧
        (w'.tables t).fdMap k = none) ∨
      ∃ b b', (w.tables t).fdMap j = some b ∧ (w'.tables t).fdMap k = some b' ∧
        (w'.tables t).pipeMap k = none ∧ w'.vfsUsed b' = true ∧ files' b' = files b
  socket : (w'.tables t).socketMap k = none
  flags : (w'.tables t).flags k = (w.tables t).flags j
  bit : fdExecGet w' t k = false

/-! ### The shared tail -/

/-- A descriptor is given its flags, and its bit is cleared. -/
theorem cleared_table (n : UInt32) (value : Bool) :
    (fdExecSet (w.setFlags t k n) t k value).1.tables t =
      { w.tables t with flags := Function.update (w.tables t).flags k n } := by
  rw [fdExecSet_tables, World.setFlags, mapTable_self]

theorem cleared_bit (recorded : Recorded w) (ready : (w.tables t).ready = true) (n : UInt32) :
    fdExecGet (fdExecSet (w.setFlags t k n) t k false).1 t k = false := by
  have quiet := quiet_setFlags (w := w) (t := t) (k := k) n
  obtain ⟨-, -, bits⟩ := (recorded.quiet quiet).set (t := t) (v := false) k
    (.inl ((recorded.quiet quiet).ready t ((quiet.ready t).trans ready)))
  rw [bits, if_pos ⟨rfl, rfl⟩]

/-- **A descriptor is copied** to a number without a pipe and a socket, or nothing happens. -/
theorem dupOnto_spec (recorded : Recorded w) (noPipe : (w.tables t).pipeMap k = none)
    (noSocket : (w.tables t).socketMap k = none) (fd : Int) (files : Fin 64 → α) :
    dupOnto w t fd k = (w, -1) ∨
      (dupOnto w t fd k).2 = k.val ∧ ∃ j, fdIdx fd = some j ∧
        Duplicate w (dupOnto w t fd k).1 files (dupOntoFiles w t fd files) t j k := by
  unfold dupOnto dupOntoFiles
  cases decoded : pipeDecode w t fd with
  | some found =>
    obtain ⟨j, i, e⟩ := found
    obtain ⟨idx, ready, -, mapped, -⟩ := pipeDecode_some decoded
    unfold nativePipeDup
    rw [decoded]
    dsimp only
    by_cases taken : pipeFdFree w t k = false
    · rw [if_pos taken]
      exact .inl rfl
    · have free := (free_of_pipeFdFree (by simpa using taken)).2
      simp only [Table.free, Bool.and_eq_true, Option.isNone_iff_eq_none] at free
      have nonneg : ¬((k.val : Int) < 0) := by omega
      rw [if_neg taken]
      dsimp only
      rw [if_neg nonneg]
      refine .inr ⟨rfl, j, idx, ?_⟩
      set w₁ := (w.mapPipe i (·.add e)).setPipe t k (some (i, e)) with w₁_eq
      have table : w₁.tables t =
          { w.tables t with pipeMap := Function.update (w.tables t).pipeMap k (some (i, e)) } := by
        rw [w₁_eq, World.setPipe, mapTable_self]
        rfl
      have recorded₁ : Recorded w₁ := recorded.quiet ((quiet_mapPipe _).trans (quiet_setPipe _))
      constructor
      case object =>
        rw [cleared_table, table]
        exact .inl ⟨(i, e), mapped, update_self .., free.1.1⟩
      case socket =>
        rw [cleared_table, table]
        exact noSocket
      case flags =>
        rw [cleared_table, table]
        exact update_self ..
      case bit => exact cleared_bit recorded₁ (by rw [table]; exact ready) _
  | none =>
    cases valid : fdValid w t fd with
    | none => exact .inl rfl
    | some found =>
      obtain ⟨j, b⟩ := found
      obtain ⟨idx, named⟩ := backend_of_valid valid
      have ready := fdValid_ready valid
      unfold backend at named
      rw [if_pos ready] at named
      dsimp only
      unfold vfsDup
      cases dup : atmPosixDup w b with
      | mk w₂ made =>
        cases made with
        | none => exact .inl (Prod.ext (atmPosixOpen_none dup) rfl)
        | some b' =>
          obtain ⟨rfl, used, free⟩ := atmPosixDup_some dup
          refine .inr ⟨rfl, j, idx, ?_⟩
          dsimp only
          set w₁ := ({ w with vfsUsed := Function.update w.vfsUsed b' true } : World).setFd t k (some b')
            with w₁_eq
          have table : w₁.tables t =
              { w.tables t with fdMap := Function.update (w.tables t).fdMap k (some b') } := by
            rw [w₁_eq, World.setFd, mapTable_self]
          have opens : Quiet w { w with vfsUsed := Function.update w.vfsUsed b' true } := ⟨rfl, fun _ => rfl⟩
          have recorded₁ : Recorded w₁ := recorded.quiet (opens.trans (quiet_setFd _))
          constructor
          case object =>
            refine .inr ⟨b, b', named, ?_, ?_, ?_, update_self ..⟩
            · rw [cleared_table, table]
              exact update_self ..
            · rw [cleared_table, table]
              exact noPipe
            · rw [((untouched_setFlags _).trans (untouched_fdExecSet _)).vfsUsed]
              exact update_self ..
          case socket =>
            rw [cleared_table, table]
            exact noSocket
          case flags =>
            rw [cleared_table, table]
            exact update_self ..
          case bit => exact cleared_bit recorded₁ (by rw [table]; exact ready) _

/-- A descriptor that can be copied to `k`: an end of a pipe, for a number from 3 on, or a
file, while the VFS has room. -/
def Copyable (w : World) (t : Slot) (fd : Int) (k : Fd) : Prop :=
  match pipeDecode w t fd with
  | some _ => 3 ≤ k.val
  | none => nativeSocketIsFd w t fd = false ∧ ∃ j b, fdValid w t fd = some (j, b) ∧ w.vfsUsed b = true ∧
      ∃ b' : Fin 64, 3 ≤ b'.val ∧ w.vfsUsed b' = false

/-- A copy of an open descriptor of the VFS fails for want of room only. -/
theorem atmPosixDup_none {b : Fin 64} (used : w.vfsUsed b = true) (dup : atmPosixDup w b = (w₁, none)) :
    ¬∃ b' : Fin 64, 3 ≤ b'.val ∧ w.vfsUsed b' = false := by
  rintro ⟨b', high, unused⟩
  unfold atmPosixDup atmPosixOpen at dup
  rw [used] at dup
  cases found : (List.finRange 64).find? fun b => 3 ≤ b.val ∧ w.vfsUsed b = false with
  | some c =>
    rw [found] at dup
    cases dup
  | none =>
    have all := List.find?_eq_none.mp found b' (List.mem_finRange b')
    exact all (decide_eq_true ⟨high, unused⟩)

/-- The copy is made. -/
theorem dupOnto_makes (copyable : Copyable w t fd k) (free : (w.tables t).free k = true) :
    (dupOnto w t fd k).2 = k.val := by
  unfold Copyable at copyable
  unfold dupOnto
  cases decoded : pipeDecode w t fd with
  | some found =>
    obtain ⟨j, i, e⟩ := found
    rw [decoded] at copyable
    have open_ : pipeFdFree w t k = true := by
      rw [pipeFdFree, decide_eq_true copyable, free]
      rfl
    unfold nativePipeDup
    rw [decoded]
    have nonneg : ¬((k.val : Int) < 0) := by omega
    dsimp only
    rw [if_neg (c := pipeFdFree w t k = false) (by rw [open_]; decide)]
    dsimp only
    rw [if_neg nonneg]
  | none =>
    rw [decoded] at copyable
    obtain ⟨-, j, b, valid, used, room⟩ := copyable
    rw [valid]
    dsimp only
    cases dup : atmPosixDup w b with
    | mk w₁ made =>
      cases made with
      | some b' => rfl
      | none => exact absurd room (atmPosixDup_none used dup)

/-! ### Looking for a free number -/

/-- The lowest free number from `min` on. -/
structure Lowest (w : World) (t : Slot) (min : Int) (k : Fd) : Prop where
  above : min ≤ k.val
  free : (w.tables t).free k = true
  lowest : ∀ j : Fd, min ≤ j.val → (w.tables t).free j = true → k ≤ j

theorem dupable_of_copyable (apart : Apart w) (copyable : Copyable w t fd k) : dupable w t fd = true := by
  unfold Copyable at copyable
  unfold dupable nativePipeIsFd
  cases decoded : pipeDecode w t fd with
  | some found =>
    obtain ⟨j, i, e⟩ := found
    obtain ⟨idx, ready, -, mapped, -⟩ := pipeDecode_some decoded
    have noSocket : nativeSocketIsFd w t fd = false := by
      by_contra isSocket
      rw [Bool.not_eq_false] at isSocket
      obtain ⟨l, n, idx', held, -⟩ := socket_of_isFd isSocket
      obtain rfl : j = l := Option.some.inj (idx.symm.trans idx')
      have pipe : holds w t j .pipe := ⟨ready, by rw [mapped]; nofun⟩
      cases apart.one held pipe
    rw [noSocket]
    rfl
  | none =>
    rw [decoded] at copyable
    obtain ⟨noSocket, j, b, valid, -⟩ := copyable
    rw [noSocket, valid]
    rfl

/-- A call that looks for a free number fails and does nothing, or copies to the lowest one. -/
theorem nativeFdDupMin_spec (recorded : Recorded w) (fd minFd : Int) (files : Fin 64 → α) :
    nativeFdDupMin w t fd minFd = (w, -1) ∨
      ∃ j k, fdIdx fd = some j ∧ Lowest w t minFd k ∧ (nativeFdDupMin w t fd minFd).2 = k.val ∧
        Duplicate w (nativeFdDupMin w t fd minFd).1 files (nativeFdDupMinFiles w t fd minFd files) t j k := by
  unfold nativeFdDupMinFiles nativeFdDupMin
  by_cases refused : minFd < 0 ∨ 32 ≤ minFd ∨ dupable w t fd = false
  · rw [if_pos refused]
    exact .inl rfl
  · rw [if_neg refused]
    cases found : (List.finRange 32).find? fun k => decide (minFd ≤ k.val) && (w.tables t).free k with
    | none => exact .inl rfl
    | some k =>
      have pick := List.find?_some found
      simp only [Bool.and_eq_true, decide_eq_true_eq] at pick
      have maps := pick.2
      simp only [Table.free, Bool.and_eq_true, Option.isNone_iff_eq_none] at maps
      rcases dupOnto_spec recorded maps.2 maps.1.2 fd files with failed | ⟨made, j, idx, copy⟩
      · exact .inl failed
      · refine .inr ⟨j, k, idx, ⟨pick.1, pick.2, fun l above free => ?_⟩, made, ?_⟩
        · refine le_of_find found ?_
          rw [decide_eq_true above, free]
          rfl
        · dsimp only
          rw [made, fdIdx_val, if_neg (by rintro ⟨⟩)]
          exact copy

theorem nativeFdDupMin_makes (apart : Apart w) (nonneg : 0 ≤ minFd) (lowest : Lowest w t minFd k)
    (copyable : Copyable w t fd k) : (nativeFdDupMin w t fd minFd).2 = k.val := by
  have below : ¬32 ≤ minFd := by
    have := lowest.above
    omega
  have found : ((List.finRange 32).find? fun k => decide (minFd ≤ k.val) && (w.tables t).free k) = some k := by
    refine find_of_lowest ?_ fun j also => ?_
    · rw [decide_eq_true lowest.above, lowest.free]
      rfl
    · simp only [Bool.and_eq_true, decide_eq_true_eq] at also
      exact lowest.lowest j also.1 also.2
  unfold nativeFdDupMin
  rw [if_neg, found]
  · exact dupOnto_makes copyable lowest.free
  · rw [dupable_of_copyable apart copyable]
    rintro (negative | high | absurd_)
    · omega
    · exact below high
    · cases absurd_

/-! ### A number that is given -/

/-- Making room at `k` leaves the other numbers alone. -/
theorem closeTarget_table (k : Fd) : ∃ f g, (closeTarget w t k).tables t =
    { w.tables t with pipeMap := f, socketMap := g } ∧ ∀ j, j ≠ k → f j = (w.tables t).pipeMap j := by
  unfold closeTarget
  split
  · unfold nativePipeClose
    split
    · exact ⟨_, _, rfl, fun _ _ => rfl⟩
    · rename_i l i e decoded
      obtain rfl : k = l := Option.some.inj ((fdIdx_val k).symm.trans (pipeDecode_some decoded).1)
      refine ⟨Function.update (w.tables t).pipeMap k none, (w.tables t).socketMap, ?_,
        fun j ne => Function.update_of_ne ne ..⟩
      have closed : ((w.setPipe t k none).mapPipe i (·.drop e)).tables t =
          { w.tables t with pipeMap := Function.update (w.tables t).pipeMap k none } := by
        show (w.setPipe t k none).tables t = _
        rw [World.setPipe, mapTable_self]
      dsimp only
      unfold pipeMaybeFree
      split
      · exact (congrFun (wakeOther_tables _ i e).1 t).trans closed
      · exact (congrFun (wakeOther_tables _ i e).1 t).trans closed
  · split
    · rename_i isSocket
      obtain ⟨l, n, idx, held, -⟩ := socket_of_isFd isSocket
      obtain rfl : k = l := Option.some.inj ((fdIdx_val k).symm.trans idx)
      unfold nativeSocketClose
      rw [fdIdx_val]
      dsimp only
      rw [held.2]
      dsimp only
      rw [if_pos isSocket]
      refine ⟨(w.tables t).pipeMap, Function.update (w.tables t).socketMap k none, ?_, fun _ _ => rfl⟩
      show (w.setSocket t k none).tables t = _
      rw [World.setSocket, mapTable_self]
    · split
      · exact ⟨_, _, rfl, fun _ _ => rfl⟩
      · exact ⟨_, _, rfl, fun _ _ => rfl⟩

theorem closeTarget_closed (closed : isOpen w t k.val = false) : closeTarget w t k = w := by
  unfold isOpen at closed
  rw [Bool.or_eq_false_iff, Bool.or_eq_false_iff] at closed
  obtain ⟨⟨noPipe, noSocket⟩, noFile⟩ := closed
  unfold closeTarget
  rw [Option.isSome_eq_false_iff, Option.isNone_iff_eq_none] at noFile
  rw [noPipe, noSocket, noFile]
  rfl

theorem dupable_ready (able : dupable w t fd = true) : (w.tables t).ready = true := by
  by_contra unready
  rw [Bool.not_eq_true] at unready
  obtain ⟨noPipe, noFile, -⟩ := unknown_of_unready unready fd
  rw [dupable, nativePipeIsFd, noPipe, noFile] at able
  cases able

/-- **A descriptor is copied to a given number**: the call fails, and does nothing if there
was nothing to copy or nothing at the number; or the number stands for what `fd` does. -/
theorem nativeFdDup2_spec (tidy : Tidy w) (ne : fd ≠ newfd) (files : Fin 64 → α) :
    (nativeFdDup2 w t fd newfd).2 = -1 ∧
        ((isOpen w t newfd = false ∨ dupable w t fd = false) → (nativeFdDup2 w t fd newfd).1 = w) ∨
      (nativeFdDup2 w t fd newfd).2 = newfd ∧ ∃ j k, fdIdx fd = some j ∧ fdIdx newfd = some k ∧
        Duplicate w (nativeFdDup2 w t fd newfd).1 files (nativeFdDup2Files w t fd newfd files) t j k := by
  unfold nativeFdDup2 nativeFdDup2Files
  cases target : fdIdx newfd with
  | none => exact .inl ⟨rfl, fun _ => rfl⟩
  | some k =>
    obtain rfl := fdIdx_of_idx target
    dsimp only
    rw [if_neg fun both => ne both.1]
    by_cases able : dupable w t fd = false
    · rw [if_pos able]
      exact .inl ⟨rfl, fun _ => rfl⟩
    · rw [if_neg able, if_neg (not_or.mpr ⟨ne, able⟩)]
      rw [Bool.not_eq_false] at able
      have ready := dupable_ready able
      have quiet := quiet_closeTarget (w := w) (t := t) k
      have ready₁ : ((closeTarget w t k).tables t).ready = true := (quiet.ready t).trans ready
      have noPipe : ((closeTarget w t k).tables t).pipeMap k = none := by
        by_contra some_
        exact closeTarget_pipe tidy.counted k ⟨ready₁, some_⟩
      have noSocket : ((closeTarget w t k).tables t).socketMap k = none := by
        by_contra some_
        obtain ⟨n, mapped⟩ := Option.ne_none_iff_exists'.mp some_
        cases closeTarget_only tidy.apart tidy.counted k (.socket n) ⟨ready₁, mapped⟩
      rcases dupOnto_spec (tidy.recorded.quiet quiet) noPipe noSocket fd files with failed | ⟨made, j, idx, copy⟩
      · rw [failed]
        refine .inl ⟨rfl, fun either => ?_⟩
        rcases either with closed | absurd_
        · exact closeTarget_closed closed
        · rw [able] at absurd_
          cases absurd_
      · refine .inr ⟨made, j, k, idx, rfl, ?_⟩
        have differ : j ≠ k := by
          rintro rfl
          exact ne (fdIdx_of_idx idx).symm
        obtain ⟨f, g, table, others⟩ := closeTarget_table (w := w) (t := t) k
        obtain ⟨object, socket, flags, bit⟩ := copy
        rw [table] at object flags
        dsimp only at object flags
        rw [others j differ] at object
        exact ⟨object, socket, flags, bit⟩

theorem nativeFdDup2_self (fd : Int) : (nativeFdDup2 w t fd fd).1 = w := by
  unfold nativeFdDup2
  split
  · rfl
  · by_cases known : isOpen w t fd = true
    · rw [if_pos ⟨rfl, known⟩]
    · rw [if_neg fun both => known both.2, if_pos]
      unfold isOpen at known
      rw [Bool.not_eq_true, Bool.or_right_comm, Bool.or_eq_false_iff] at known
      rw [dupable, known.1]
      rfl

/-- A call with `O_CLOEXEC` or without fails as `dup2` does, or on its own arguments. -/
theorem nativeFdDup3_failed (tidy : Tidy w) {flags : UInt32}
    (failed : fdIdx (nativeFdDup3 w t fd newfd flags).2 = none)
    (nothing_ : isOpen w t newfd = false ∨ dupable w t fd = false) :
    (nativeFdDup3 w t fd newfd flags).1 = w := by
  revert failed
  unfold nativeFdDup3
  by_cases refused : fd = newfd ∨ flags &&& ~~~oCloexec ≠ 0
  · rw [if_pos refused]
    exact fun _ => rfl
  · rw [if_neg refused]
    dsimp only
    obtain ⟨ne, -⟩ := not_or.mp refused
    rcases nativeFdDup2_spec (t := t) tidy ne (id : Fin 64 → Fin 64) with
      ⟨out, same⟩ | ⟨out, j, k, -, target, copy⟩
    · rw [out]
      exact fun _ => same nothing_
    · rw [out, target]
      dsimp only
      have recorded := (nativeFdDup2_assigns (t := t) tidy.recorded tidy.apart fd newfd).recorded
      have ready : ((nativeFdDup2 w t fd newfd).1.tables t).ready = true := by
        rw [nativeFdDup2_ready]
        obtain rfl := fdIdx_of_idx target
        exact ready_of_dup2 (by rw [out, target]; nofun)
      obtain ⟨done, -⟩ := recorded.set (t := t) (v := flags &&& oCloexec ≠ 0) k (.inl (recorded.ready t ready))
      split
      · intro absurd_
        rw [target] at absurd_
        cases absurd_
      · rename_i eq
        rw [eq] at done
        cases done

/-! ### Runs -/

theorem Tidy.request {r : Request} (tidy : Tidy w) (clear : Clear w r) (step : r.perform w = some w') :
    Tidy w' := by
  obtain ⟨counted, apart⟩ := tidy.apart.request tidy.counted clear step
  exact ⟨counted, apart, tidy.recorded.request step⟩

theorem isOpen_of_dupable (able : dupable w t fd = true) : isOpen w t fd = true := by
  unfold dupable at able
  rw [Bool.and_eq_true] at able
  rw [isOpen, Bool.or_right_comm, able.1, Bool.true_or]

/-- What `dup` and `F_DUPFD` do from `min` on: they copy to the lowest free number where
they can, and do nothing where they fail. -/
structure Dups (w : World) (t : Slot) (fd min : Int) (files : Fin 64 → α) (out : World × Int) : Prop where
  makes : ∀ k, Lowest w t min k → Copyable w t fd k → out.2 = k.val ∧ ∃ j, fdIdx fd = some j ∧
    Duplicate w out.1 files (nativeFdDupMinFiles w t fd min files) t j k
  failed : fdIdx out.2 = none → out.1 = w

theorem nativeFdDupMin_dups (tidy : Tidy w) (nonneg : 0 ≤ minFd) (fd : Int) (files : Fin 64 → α) :
    Dups w t fd minFd files (nativeFdDupMin w t fd minFd) := by
  have spec := nativeFdDupMin_spec (t := t) tidy.recorded fd minFd files
  constructor
  case makes =>
    intro k lowest copyable
    have out := nativeFdDupMin_makes tidy.apart nonneg lowest copyable
    refine ⟨out, ?_⟩
    rcases spec with failed | ⟨j, l, idx, -, made, copy⟩
    · rw [failed] at out
      cases k
      simp at out
    · obtain rfl : k = l := Fin.ext (Int.ofNat.inj (out.symm.trans made))
      exact ⟨j, idx, copy⟩
  case failed =>
    intro none_
    rcases spec with failed | ⟨j, l, -, -, made, -⟩
    · rw [failed]
    · rw [made, fdIdx_val] at none_
      cases none_

instance (w : World) (t : Slot) (min : Int) (k : Fd) : Decidable (Lowest w t min k) :=
  decidable_of_iff (min ≤ k.val ∧ (w.tables t).free k = true ∧
      ∀ j : Fd, min ≤ j.val → (w.tables t).free j = true → k ≤ j)
    ⟨fun ⟨above, free, lowest⟩ => ⟨above, free, lowest⟩, fun ⟨above, free, lowest⟩ => ⟨above, free, lowest⟩⟩

end AtmKoala.Native
