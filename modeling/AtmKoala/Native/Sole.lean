import AtmKoala.Native.CloseOnExec

/-!
Files, pipes and bits when accepts are not restricted.

An accept may give a socket a number that has a pipe, but no call gives a file and
a pipe one number.

* `Sole`: no descriptor is both a file and an end of a pipe. Each call keeps it.
* `Recorded.request`: each call keeps the side table of the bits in order.
* `run_sound`: `Counted`, `Sole` and `Recorded` hold in every state reached.
-/

namespace AtmKoala.Native

open Lib
open Sched (Slot)
open Option (map_eq_some_iff)

variable {w w' w'' w₁ : World} {t : Slot} {k : Fd} {a : Kind}

/-! ### One number, not a file and a pipe -/

/-- No descriptor is both a file and an end of a pipe. -/
def Sole (w : World) : Prop := ∀ t k, holds w t k .file → ¬holds w t k .pipe

/-- No file and no pipe is added. -/
def Thin (w w' : World) : Prop :=
  ∀ t k, (holds w' t k .file → holds w t k .file) ∧ (holds w' t k .pipe → holds w t k .pipe)

theorem Thin.refl (w : World) : Thin w w := fun _ _ => ⟨id, id⟩

theorem Thin.trans (first : Thin w w') (second : Thin w' w'') : Thin w w'' := fun t k =>
  ⟨(first t k).1 ∘ (second t k).1, (first t k).2 ∘ (second t k).2⟩

theorem Fewer.thin (fewer : Fewer w w') : Thin w w' := fun t k =>
  ⟨fun held => (fewer t k _ held).1, fun held => (fewer t k _ held).1⟩

theorem Level.thin (level : Level w w') : Thin w w' := level.fewer.thin

theorem Sole.thin (sole : Sole w) (thin : Thin w w') : Sole w' := fun t k file pipe =>
  sole t k ((thin t k).1 file) ((thin t k).2 pipe)

/-- A number without a pipe may be given a file, and one without a file a pipe. -/
theorem Sole.put (sole : Sole w) (put : Put w w' t k a) (file : a = .file → ¬holds w t k .pipe)
    (pipe : a = .pipe → ¬holds w t k .file) : Sole w' := by
  intro u j isFile isPipe
  rcases put.entries u j _ isFile with ⟨rfl, rfl, rfl⟩ | before
  · rcases put.entries _ _ _ isPipe with ⟨-, -, absurd_⟩ | before'
    · cases absurd_
    · exact file rfl before'
  · rcases put.entries u j _ isPipe with ⟨rfl, rfl, rfl⟩ | before'
    · exact pipe rfl before
    · exact sole u j before before'

theorem Sole.put_free (sole : Sole w) (put : Put w w' t k a) (free : (w.tables t).free k = true) :
    Sole w' :=
  sole.put put (fun _ => not_holds_of_free free _) (fun _ => not_holds_of_free free _)

/-! ### What each call does to files and pipes -/

theorem thin_setSocket (n : Option (Fin 16)) : Thin w (w.setSocket t k n) := by
  have same := untouched_setSocket (w := w) (t := t) (k := k) n
  have pipes := inert_setSocket (w := w) (t := t) (k := k) n
  refine fun u j => ⟨fun held => ?_, fun held => ?_⟩
  · rwa [holds, same.ready, same.fdMap] at held
  · rwa [holds, pipes.ready, pipes.pipeMap] at held

theorem thin_sockets (f : Fin 16 → Option Slot) : Thin w { w with sockets := f } :=
  fun _ _ => ⟨id, id⟩

theorem thin_of (same : Untouched w w') (inert : Inert w w') : Thin w w' := by
  refine fun u j => ⟨fun held => ?_, fun held => ?_⟩
  · rwa [holds, same.ready, same.fdMap] at held
  · rwa [holds, inert.ready, inert.pipeMap] at held

theorem thin_nativeSocketClose (fd : Int) : Thin w (nativeSocketClose w t fd).1 :=
  thin_of (untouched_nativeSocketClose fd) (inert_nativeSocketClose fd)

theorem nativeFdClose_thin (fd : Int) : Thin w (nativeFdClose w t fd).1 := by
  unfold nativeFdClose
  split
  · exact (nativePipeClose_fewer fd).thin.trans ((level_setFlags 0).trans (level_fdExecSet false)).thin
  · split
    · split
      · exact .refl w
      · exact (thin_nativeSocketClose fd).trans ((level_setFlags 0).trans (level_fdExecSet false)).thin
    · split
      · exact .refl w
      · exact (fewer_setFd_none.trans ((level_setFlags 0).trans
          ((level_fdExecSet false).trans (level_atmPosixClose _))).fewer).thin

theorem closeTarget_thin (newfd : Fd) : Thin w (closeTarget w t newfd) := by
  unfold closeTarget
  split
  · exact (nativePipeClose_fewer _).thin
  · split
    · exact thin_nativeSocketClose _
    · split
      · exact .refl w
      · exact (level_atmPosixClose _).thin

theorem thin_foldl {f : World → Fd → World} (round : ∀ w k, Thin w (f w k)) (ks : List Fd) :
    Thin w (ks.foldl f w) :=
  List.foldlRecOn _ _ (.refl w) fun _ thin k _ => thin.trans (round _ k)

theorem nativePipeTaskCleanup_thin : Thin w (nativePipeTaskCleanup w t) := by
  refine thin_foldl (fun w k => ?_) _
  split
  · exact (nativePipeClose_fewer _).thin
  · exact .refl w

theorem nativeFdTaskCleanup_thin : Thin w (nativeFdTaskCleanup w t) := by
  rw [nativeFdTaskCleanup_eq]
  split
  · exact .refl w
  · have pipes := (level_nativeDirTaskInit (w := w) (t := t)).thin.trans
      (nativePipeTaskCleanup_thin (t := t))
    have sockets := pipes.trans
      (thin_of (untouched_nativeSocketTaskCleanup (t := t)) inert_nativeSocketTaskCleanup)
    have files := sockets.trans (thin_foldl (f := cleanupTurn t) (fun w k => by
          unfold cleanupTurn
          split
          · exact (fewer_setFd_none.trans (level_setFlags 0).fewer).thin
          · exact ((level_atmPosixClose _).fewer.trans
              (fewer_setFd_none.trans (level_setFlags 0).fewer)).thin) (List.finRange 32))
    exact (files.trans fewer_unready.thin).trans level_fdExecDrop.thin

/-! ### The calls keep files and pipes apart -/

theorem nativePipeCreate_sole (sole : Sole w) : Sole (nativePipeCreate w t).1 := by
  unfold nativePipeCreate
  split
  · exact sole
  · split
    · exact sole
    · rename_i readFd found
      have freeRead := (free_of_pipeFdFree (List.find?_some found)).2
      split
      · exact sole
      · rename_i writeFd found'
        have pick := List.find?_some found'
        simp only [Bool.and_eq_true, decide_eq_true_eq] at pick
        have freeWrite := (free_of_pipeFdFree pick.2).2
        split
        · exact sole
        · rename_i i _
          have first := (sole.thin (level_mapPipe (i := i) (fun _ =>
            { Pipe.zero with used := true, readRefs := 1, writeRefs := 1 })).thin).put_free
              (put_setPipe (t := t) (some (i, .read))) freeRead
          refine first.put (put_setPipe (some (i, .write))) nofun fun _ held => ?_
          rcases (put_setPipe (some (i, .read))).entries _ _ _ held with ⟨-, -, absurd_⟩ | before
          · cases absurd_
          · exact not_holds_of_free freeWrite .file before

theorem nativeFdOpen_sole (sole : Sole w) (ok : Bool) (flags : UInt32) :
    Sole (nativeFdOpen w t ok flags).1 := by
  unfold nativeFdOpen
  split
  · exact sole
  · rename_i k slot
    have free : (w.tables t).free k = true := by
      unfold nativeFdSlot at slot
      split at slot
      · cases slot
      · exact (free_of_pipeFdFree (List.find?_some slot)).2
    have opened := level_atmPosixOpen (w := w) ok
    split
    · rename_i eq
      rw [eq] at opened
      exact sole.thin opened.thin
    · rename_i w₁ b eq
      rw [eq] at opened
      have stored : Sole (w₁.setFd t k (some b)) :=
        sole.put_free (.after opened (put_setFd (some b))) free
      have flagged := (level_setFlags (w := w₁.setFd t k (some b)) (t := t) (k := k)
        (flags &&& (oAccmode ||| oNonblock))).trans
          (level_fdExecSet (t := t) (k := k) (flags &&& oCloexec ≠ 0))
      dsimp only
      split
      · rename_i eq'
        rw [eq'] at flagged
        exact stored.thin flagged.thin
      · rename_i eq'
        rw [eq'] at flagged
        exact (stored.thin (flagged.trans (level_atmPosixClose b)).thin).thin fewer_setFd_none.thin

theorem nativeFdPipe2_sole (sole : Sole w) (flags : UInt32) : Sole (nativeFdPipe2 w t flags).1 := by
  unfold nativeFdPipe2
  split
  · exact sole
  · have made := nativePipeCreate_sole (t := t) sole
    split
    · rename_i eq
      rwa [eq] at made
    · rename_i w₁ readFd writeFd eq
      rw [eq] at made
      dsimp only
      set w₂ := (w₁.setFlags t readFd (flags &&& oNonblock)).setFlags t writeFd
        (1 ||| (flags &&& oNonblock))
      have flagged : Sole w₂ := made.thin ((level_setFlags _).trans (level_setFlags _)).thin
      have undone : ∀ w' : World, Sole w' →
          Sole (nativePipeClose (nativePipeClose w' t readFd.val).1 t writeFd.val).1 :=
        fun w' sole => (sole.thin (nativePipeClose_fewer _).thin).thin (nativePipeClose_fewer _).thin
      have first := flagged.thin (level_fdExecSet (t := t) (k := readFd) (flags &&& oCloexec ≠ 0)).thin
      split
      · rename_i eq₁
        rw [eq₁] at first
        exact undone _ first
      · rename_i w₃ eq₁
        rw [eq₁] at first
        have second := first.thin
          (level_fdExecSet (t := t) (k := writeFd) (flags &&& oCloexec ≠ 0)).thin
        split
        · rename_i eq₂
          rw [eq₂] at second
          exact undone _ second
        · rename_i eq₂
          rw [eq₂] at second
          exact second

/-- Copying onto a number without a pipe. -/
theorem dupOnto_sole (sole : Sole w) (fd : Int) {newfd : Fd} (only : ¬holds w t newfd .pipe) :
    Sole (dupOnto w t fd newfd).1 := by
  unfold dupOnto
  split
  · have dup : Sole (nativePipeDup w t fd newfd).1 := by
      unfold nativePipeDup
      split
      · exact sole
      · split
        · exact sole
        · rename_i free
          exact (sole.thin (level_mapPipe _).thin).put_free (put_setPipe _)
            (free_of_pipeFdFree (by simpa using free : pipeFdFree w t newfd = true)).2
    dsimp only
    split
    · exact dup
    · exact dup.thin ((level_setFlags _).trans (level_fdExecSet false)).thin
  · split
    · exact sole
    · rename_i k b _
      have opened := level_atmPosixOpen (w := w) (w.vfsUsed b)
      unfold atmPosixDup
      split
      · rename_i eq
        rw [eq] at opened
        exact sole.thin opened.thin
      · rename_i w₁ b' eq
        rw [eq] at opened
        exact (sole.put (.after opened (put_setFd (some b'))) (fun _ => only) nofun).thin
          ((level_setFlags _).trans (level_fdExecSet false)).thin

theorem nativeFdDupMin_sole (sole : Sole w) (fd minFd : Int) : Sole (nativeFdDupMin w t fd minFd).1 := by
  unfold nativeFdDupMin
  split
  · exact sole
  · split
    · exact sole
    · rename_i slot found
      have pick := List.find?_some found
      simp only [Bool.and_eq_true] at pick
      exact dupOnto_sole sole fd (not_holds_of_free pick.2 _)

/-- No pipe is left at the target of a `dup2`. -/
theorem closeTarget_pipe (counted : Counted w) (newfd : Fd) :
    ¬holds (closeTarget w t newfd) t newfd .pipe := by
  intro held
  obtain ⟨⟨i, e⟩, entered⟩ := entry_of_holds ((closeTarget_thin newfd t newfd).2 held)
  have decoded := counted.decode entered
  have isPipe : nativePipeIsFd w t newfd.val = true := by
    rw [nativePipeIsFd, decoded]
    rfl
  rw [closeTarget, if_pos isPipe] at held
  obtain ⟨p, there⟩ := entry_of_holds held
  rw [(nativePipeClose_move decoded).1, if_pos ⟨rfl, rfl⟩] at there
  cases there

theorem nativeFdDup2_sole (sole : Sole w) (counted : Counted w) (fd newfd : Int) :
    Sole (nativeFdDup2 w t fd newfd).1 := by
  unfold nativeFdDup2
  split
  · exact sole
  · split
    · exact sole
    · split
      · exact sole
      · exact dupOnto_sole (sole.thin (closeTarget_thin _)) fd (closeTarget_pipe counted _)

theorem nativeFdDup3_sole (sole : Sole w) (counted : Counted w) (fd newfd : Int) (flags : UInt32) :
    Sole (nativeFdDup3 w t fd newfd flags).1 := by
  unfold nativeFdDup3
  split
  · exact sole
  · have dup := nativeFdDup2_sole (t := t) sole counted fd newfd
    dsimp only
    split
    · exact dup
    · rename_i k _
      have set_ := dup.thin (level_fdExecSet (t := t) (k := k) (flags &&& oCloexec ≠ 0)).thin
      split
      · rename_i eq
        rwa [eq] at set_
      · rename_i eq
        rw [eq] at set_
        exact set_.thin (nativeFdClose_thin _)

theorem nativeFdFcntlDupfd_sole (sole : Sole w) (fd : Int) (arg : Int32) (cloexec : Bool) :
    Sole (nativeFdFcntlDupfd w t fd arg cloexec).1 := by
  unfold nativeFdFcntlDupfd
  split
  · exact sole
  · have dup := nativeFdDupMin_sole (t := t) sole fd arg.toInt
    dsimp only
    split
    · exact dup
    · split
      · exact dup
      · rename_i k _
        have set_ := dup.thin (level_fdExecSet (t := t) (k := k) true).thin
        split
        · rename_i eq
          rwa [eq] at set_
        · rename_i eq
          rw [eq] at set_
          exact set_.thin (nativeFdClose_thin _)

theorem nativeFdTaskInit_sole (sole : Sole w) (tty : Fin 3 → Bool) : Sole (nativeFdTaskInit w t tty) := by
  obtain ⟨tables, noPipe⟩ := nativeFdTaskInit_tables (w := w) (t := t) tty
  intro u j file pipe
  by_cases here : u = t
  · subst here
    exact pipe.2 (noPipe j)
  · exact sole u j ((holds_of_tables (tables u here)).mp file) ((holds_of_tables (tables u here)).mp pipe)

theorem inheritFds_sole {ks : List Fd} (sole : Sole w) (child parent : Slot) (distinct : ks.Nodup)
    (empty : ∀ k ∈ ks, ∀ a, ¬holds w child k a) : Sole (inheritFds child parent w ks).1 := by
  induction ks generalizing w with
  | nil => exact sole
  | cons k ks ih =>
    obtain ⟨a, put⟩ := inheritFd_put (w := w) child parent k
    obtain ⟨new, distinct⟩ := List.nodup_cons.mp distinct
    have none_ := empty k (List.mem_cons_self ..)
    have one := sole.put put (fun _ => none_ _) (fun _ => none_ _)
    unfold inheritFds
    split
    · rename_i w₁ eq
      rw [eq] at put one
      refine ih one distinct fun j mem b held => ?_
      rcases put.entries child j b held with ⟨-, rfl, -⟩ | before
      · exact new mem
      · exact empty j (List.mem_cons_of_mem _ mem) b before
    · rename_i eq
      rwa [eq] at one

theorem nativeFdTaskInherit_sole (sole : Sole w) (child parent : Slot) :
    Sole (nativeFdTaskInherit w child parent).1 := by
  unfold nativeFdTaskInherit
  split
  · exact sole
  · dsimp only
    have fresh := sole.thin (freshTable_fewer (t := child) ready_maps).thin
    split
    · exact fresh.thin nativeFdTaskCleanup_thin
    · have all := inheritFds_sole fresh child parent (List.nodup_finRange 32) fun k _ a held =>
        (freshTable_holds ready_maps held).1 rfl
      split
      · rename_i eq
        rwa [eq] at all
      · rename_i eq
        rw [eq] at all
        exact all.thin nativeFdTaskCleanup_thin

/-! ### The calls keep the side table in order -/

theorem Recorded.execSet (recorded : Recorded w) (t : Slot) (k : Fd) (value : Bool) :
    Recorded (fdExecSet w t k value).1 := by
  by_cases able : execEntry w t ≠ none ∨ value = true
  · exact (recorded.set k able).2.1
  · -- without an entry there is nothing to clear
    obtain ⟨none_, clear⟩ := not_or.mp able
    rw [not_not, execEntry, entryOf_eq_none_iff] at none_
    rw [Bool.not_eq_true] at clear
    unfold slotOf at none_
    unfold fdExecSet fdExecMetaFor
    rw [none_, clear]
    exact recorded

theorem nativeFdClose_recorded (recorded : Recorded w) (fd : Int) : Recorded (nativeFdClose w t fd).1 := by
  unfold nativeFdClose
  split
  · exact (recorded.quiet ((quiet_nativePipeClose fd).trans (quiet_setFlags 0))).execSet ..
  · split
    · split
      · exact recorded
      · exact (recorded.quiet ((quiet_nativeSocketClose fd).trans (quiet_setFlags 0))).execSet ..
    · split
      · exact recorded
      · rename_i k b _
        have set_ := (recorded.quiet ((quiet_setFd (t := t) (k := k) none).trans
          (quiet_setFlags (t := t) (k := k) 0))).execSet t k false
        exact set_.quiet ⟨rfl, fun _ => rfl⟩

theorem nativeFdTaskCleanup_recorded (recorded : Recorded w) : Recorded (nativeFdTaskCleanup w t) := by
  unfold nativeFdTaskCleanup
  split
  · exact recorded
  · dsimp only
    have quiet := ((quiet_nativeDirTaskInit (w := w) (t := t)).trans
      (quiet_nativePipeTaskCleanup (t := t))).trans (quiet_nativeSocketTaskCleanup (t := t))
    have all := recorded.quiet (quiet.trans (quiet_closeFiles (t := t) (List.finRange 32)))
    exact (all.unready t).1

theorem inheritFd_recorded (recorded : Recorded w) (child parent : Slot) (k : Fd) :
    Recorded (inheritFd child parent w k).1 := by
  unfold inheritFd
  dsimp only
  split
  · exact recorded
  · split
    · rename_i b _
      have quiet := quiet_atmPosixDup (w := w) b
      split
      · rename_i eq
        rw [eq] at quiet
        exact recorded.quiet quiet
      · rename_i eq
        rw [eq] at quiet
        exact (recorded.quiet ((quiet.trans (quiet_setFd _)).trans (quiet_setFlags _))).execSet ..
    · split
      · have quiet := quiet_nativePipeInherit (w := w) child parent k
        split
        · exact recorded.quiet quiet
        · exact (recorded.quiet (quiet.trans (quiet_setFlags _))).execSet ..
      · exact recorded

theorem inheritFds_recorded (recorded : Recorded w) (child parent : Slot) (ks : List Fd) :
    Recorded (inheritFds child parent w ks).1 := by
  induction ks generalizing w with
  | nil => exact recorded
  | cons k ks ih =>
    have one := inheritFd_recorded recorded child parent k
    unfold inheritFds
    split
    · rename_i eq
      rw [eq] at one
      exact ih one
    · rename_i eq
      rwa [eq] at one

theorem nativeFdTaskInherit_recorded (recorded : Recorded w) (child parent : Slot) :
    Recorded (nativeFdTaskInherit w child parent).1 := by
  unfold nativeFdTaskInherit
  split
  · exact recorded
  · dsimp only
    obtain ⟨fresh, entry, -⟩ := freshTable_recorded recorded child
    have start := fresh.mapTable entry fun table => { table with ready := true }
    split
    · exact nativeFdTaskCleanup_recorded start
    · have all := inheritFds_recorded start child parent (List.finRange 32)
      split
      · rename_i eq
        rwa [eq] at all
      · rename_i eq
        rw [eq] at all
        exact nativeFdTaskCleanup_recorded all

theorem nativeFdDup2_recorded (recorded : Recorded w) (fd newfd : Int) :
    Recorded (nativeFdDup2 w t fd newfd).1 := by
  unfold nativeFdDup2
  split
  · exact recorded
  · split
    · exact recorded
    · split
      · exact recorded
      · exact (dupOnto_assigns (recorded.quiet (quiet_closeTarget _)) _ _).recorded

theorem nativeFdDup3_recorded (recorded : Recorded w) (fd newfd : Int) (flags : UInt32) :
    Recorded (nativeFdDup3 w t fd newfd flags).1 := by
  unfold nativeFdDup3
  split
  · exact recorded
  · have dup := nativeFdDup2_recorded (t := t) recorded fd newfd
    dsimp only
    split
    · exact dup
    · rename_i k _
      have set_ := dup.execSet t k (flags &&& oCloexec ≠ 0)
      split
      · rename_i eq
        rwa [eq] at set_
      · rename_i eq
        rw [eq] at set_
        exact nativeFdClose_recorded set_ _

/-! ### Runs -/

/-- What holds of descriptors even where an accept takes the number of a pipe. -/
structure Sound (w : World) : Prop where
  counted : Counted w
  sole : Sole w
  recorded : Recorded w

/-- A table is set up for a task without pipe descriptors. -/
def Started (w : World) : Request → Prop
  | .call op => Fresh w op
  | .accept .. => True

instance (w : World) (r : Request) : Decidable (Started w r) := by
  apply r.casesOn (motive := fun r => Decidable (Started w r)) <;>
    (intros; dsimp only [Started]; infer_instance)

theorem Sole.step {op : Op} (sole : Sole w) (counted : Counted w) (step : perform w op = some w') :
    Sole w' := by
  cases op with
  | taskInit t tty =>
    cases step
    exact nativeFdTaskInit_sole sole tty
  | taskCleanup t =>
    cases step
    exact sole.thin nativeFdTaskCleanup_thin
  | closeOnExec t =>
    cases step
    unfold nativeFdCloseOnExec
    split
    · exact sole
    · refine sole.thin (thin_foldl (fun w k => ?_) _)
      split
      · exact nativeFdClose_thin _
      · exact .refl w
  | taskInherit child parent =>
    cases step
    exact nativeFdTaskInherit_sole sole child parent
  | openFile t ok flags =>
    cases step
    exact nativeFdOpen_sole sole ok flags
  | pipe2 t flags =>
    cases step
    exact nativeFdPipe2_sole sole flags
  | close t fd =>
    cases step
    exact sole.thin (nativeFdClose_thin fd)
  | dup t fd =>
    cases step
    exact nativeFdDupMin_sole sole fd 0
  | dup2 t fd newfd =>
    cases step
    exact nativeFdDup2_sole sole counted fd newfd
  | dup3 t fd newfd flags =>
    cases step
    exact nativeFdDup3_sole sole counted fd newfd flags
  | dupfd t fd arg cloexec =>
    cases step
    exact nativeFdFcntlDupfd_sole sole fd arg cloexec
  | socketOpen t =>
    cases step
    exact sole.thin (thin_of untouched_nativeSocketOpen inert_nativeSocketOpen)
  | dirOpen t ok =>
    cases step
    exact sole.thin (level_nativeDirOpen ok).thin
  | read t fd count nonblock =>
    exact perform_read sole (fun done => sole.thin (level_resumeRead done).thin) step
  | readAgain t i count nonblock =>
    obtain ⟨⟨w₁, r⟩, done, rfl⟩ := map_eq_some_iff.mp step
    exact sole.thin (level_resumeRead done).thin
  | write t fd data nonblock =>
    exact perform_write sole (fun done => sole.thin (level_resumeWrite done).thin) step
  | writeAgain t i data nonblock =>
    obtain ⟨⟨w₁, r⟩, done, rfl⟩ := map_eq_some_iff.mp step
    exact sole.thin (level_resumeWrite done).thin

theorem Recorded.step {op : Op} (recorded : Recorded w) (step : perform w op = some w') :
    Recorded w' := by
  cases op with
  | taskInit t tty =>
    cases step
    exact (nativeFdTaskInit_assigns recorded tty).recorded
  | taskCleanup t =>
    cases step
    exact nativeFdTaskCleanup_recorded recorded
  | closeOnExec t =>
    cases step
    unfold nativeFdCloseOnExec
    split
    · exact recorded
    · refine List.foldlRecOn _ _ recorded fun w' recorded k _ => ?_
      split
      · exact nativeFdClose_recorded recorded _
      · exact recorded
  | taskInherit child parent =>
    cases step
    exact nativeFdTaskInherit_recorded recorded child parent
  | openFile t ok flags =>
    cases step
    exact (nativeFdOpen_assigns recorded ok flags).recorded
  | pipe2 t flags =>
    cases step
    exact (nativeFdPipe2_assigns recorded flags).recorded
  | close t fd =>
    cases step
    exact nativeFdClose_recorded recorded fd
  | dup t fd =>
    cases step
    exact (nativeFdDupMin_assigns recorded fd 0).recorded
  | dup2 t fd newfd =>
    cases step
    exact nativeFdDup2_recorded recorded fd newfd
  | dup3 t fd newfd flags =>
    cases step
    exact nativeFdDup3_recorded recorded fd newfd flags
  | dupfd t fd arg cloexec =>
    cases step
    exact (nativeFdFcntlDupfd_assigns recorded fd arg cloexec).recorded
  | socketOpen t =>
    cases step
    exact recorded.quiet quiet_nativeSocketOpen
  | dirOpen t ok =>
    cases step
    exact recorded.quiet (quiet_nativeDirOpen ok)
  | read t fd count nonblock =>
    exact perform_read recorded (fun done => recorded.quiet (quiet_resumeRead done)) step
  | readAgain t i count nonblock =>
    obtain ⟨⟨w₁, r⟩, done, rfl⟩ := map_eq_some_iff.mp step
    exact recorded.quiet (quiet_resumeRead done)
  | write t fd data nonblock =>
    exact perform_write recorded (fun done => recorded.quiet (quiet_resumeWrite done)) step
  | writeAgain t i data nonblock =>
    obtain ⟨⟨w₁, r⟩, done, rfl⟩ := map_eq_some_iff.mp step
    exact recorded.quiet (quiet_resumeWrite done)

theorem thin_nativeSocketAccept (fd : Int) (listening established : Bool) :
    Thin w (nativeSocketAccept w t fd listening established).1 := by
  rcases nativeSocketAccept_cases (w := w) (t := t) fd listening established with
    ⟨level, -⟩ | ⟨k, n, -, -, -, -, -, -, -, -, done⟩
  · exact level.thin
  · rw [done]
    exact (thin_sockets _).trans (thin_setSocket _)

theorem Recorded.request {r : Request} (recorded : Recorded w) (step : r.perform w = some w') :
    Recorded w' := by
  cases r with
  | call op => exact recorded.step step
  | accept t fd listening established =>
    cases step
    exact recorded.quiet (quiet_nativeSocketAccept fd listening established)

theorem Sound.step {r : Request} (sound : Sound w) (started : Started w r)
    (step : r.perform w = some w') : Sound w' := by
  have recorded := sound.recorded.request step
  cases r with
  | call op => exact ⟨sound.counted.step started step, sound.sole.step sound.counted step, recorded⟩
  | accept t fd listening established =>
    cases step
    exact ⟨sound.counted.moves (inert_nativeSocketAccept.moves (t := t)),
      sound.sole.thin (thin_nativeSocketAccept fd listening established), recorded⟩

/-- **Sound in every state reached.** -/
theorem run_sound {w₀ : World} {rs : List Request} (boot : Boot w₀) (unused : ∀ i, w₀.execMeta i = none)
    (run : Run (fun w r w' => Request.perform w r = some w') Started w₀ rs w) : Sound w := by
  refine run.invariant (P := Sound) ⟨boot.counted, fun t k held => ?_, boot.recorded unused⟩ Sound.step
  have ready := holds_ready held
  rw [boot.tables t] at ready
  cases ready

end AtmKoala.Native
