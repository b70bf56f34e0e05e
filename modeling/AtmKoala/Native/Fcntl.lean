import AtmKoala.Native.CloseOnExec

/-!
`F_GETFD` and `F_SETFD`, and what they report along a run.

* A `Noted` machine keeps beside the code's bits the bit each descriptor was last given,
  as the calls and their results tell it.
* `Blank` is the condition under which opening a socket needs no clearing of bits.
* `run_noted`: `F_GETFD` reports the bit last given, and closing on exec goes by it.
-/

namespace AtmKoala.Native

open Lib
open Sched (Slot)

variable {w w' : World} {t : Slot} {k : Fd}

/-! ### Descriptor flags -/

/-- A descriptor of any kind. -/
def isOpen (w : World) (t : Slot) (fd : Int) : Bool :=
  nativePipeIsFd w t fd || nativeSocketIsFd w t fd || (fdValid w t fd).isSome

/-- `native_fd_fcntl` with `F_GETFD`. -/
def nativeFdFcntlGetfd (w : World) (t : Slot) (fd : Int) : Int :=
  if isOpen w t fd = false then -1
  else if (fdIdx fd).any (fdExecGet w t) then 1
  else 0

/-- `FD_CLOEXEC`. -/
def fdCloexec : UInt32 := 1

/-- `native_fd_fcntl` with `F_SETFD`. -/
def nativeFdFcntlSetfd (w : World) (t : Slot) (fd : Int) (arg : UInt32) : World × Int :=
  if isOpen w t fd = false ∨ arg &&& ~~~fdCloexec ≠ 0 then (w, -1)
  else
    match fdIdx fd with
    | none => (w, -1)
    | some k =>
      match fdExecSet w t k (arg &&& fdCloexec ≠ 0) with
      | (w, true) => (w, 0)
      | (w, false) => (w, -1)

/-- A flag that is set. -/
theorem nativeFdFcntlSetfd_cases (recorded : Recorded w) (fd : Int) (arg : UInt32) :
    nativeFdFcntlSetfd w t fd arg = (w, -1) ∨
      ∃ k, fdIdx fd = some k ∧ (w.tables t).ready = true ∧
        nativeFdFcntlSetfd w t fd arg = ((fdExecSet w t k (arg &&& fdCloexec ≠ 0)).1, 0) := by
  unfold nativeFdFcntlSetfd
  by_cases refused : isOpen w t fd = false ∨ arg &&& ~~~fdCloexec ≠ 0
  · rw [if_pos refused]
    exact .inl rfl
  · rw [if_neg refused]
    cases idx : fdIdx fd with
    | none => exact .inl rfl
    | some k =>
      have ready : (w.tables t).ready = true := by
        by_contra unready
        rw [Bool.not_eq_true] at unready
        obtain ⟨noPipe, noFile, noSocket⟩ := unknown_of_unready unready fd
        refine refused (.inl ?_)
        rw [isOpen, nativePipeIsFd, noPipe, noFile, noSocket]
        rfl
      obtain ⟨done, -⟩ := recorded.set (t := t) (v := arg &&& fdCloexec ≠ 0) k (.inl (recorded.ready t ready))
      refine .inr ⟨k, rfl, ready, ?_⟩
      dsimp only
      rw [show fdExecSet w t k (arg &&& fdCloexec ≠ 0) =
        ((fdExecSet w t k (arg &&& fdCloexec ≠ 0)).1, true) from Prod.ext rfl done]

theorem nativeFdFcntlSetfd_assigns (recorded : Recorded w) (fd : Int) (arg : UInt32) :
    Assigns t (if (nativeFdFcntlSetfd w t fd arg).2 = 0 then opened (fdIdx fd) (arg &&& fdCloexec ≠ 0)
      else nothing) w (nativeFdFcntlSetfd w t fd arg).1 := by
  rcases nativeFdFcntlSetfd_cases (t := t) recorded fd arg with refused | ⟨k, idx, ready, done⟩
  · rw [refused]
    exact .refl recorded
  · rw [done, idx]
    exact (Assigns.set recorded (.refl w) (fun live => .inl live) (.inl (recorded.ready t ready))).2

/-! ### A machine that notes the bits it gives -/

/-- The calls, with setting the flag of a descriptor. -/
inductive Invocation where
  | request (r : Request)
  | setfd (t : Slot) (fd : Int) (arg : UInt32)

def Invocation.task : Invocation → Slot
  | .request r => r.task
  | .setfd t _ _ => t

def Invocation.perform (w : World) : Invocation → Option World
  | .request r => r.perform w
  | .setfd t fd arg => some (nativeFdFcntlSetfd w t fd arg).1

/-- The bit each descriptor was last given is kept beside the world. -/
structure Noted where
  world : World
  last : Slot → Fd → Bool

/-- The bits a call gives to descriptors of its task: those it opens, as its result names
them, get the bit its flags ask for. A child gets its parent's. -/
def Noted.given (n : Noted) : Invocation → Fd → Option Bool
  | .request (.call (.taskInit _ _)) => fun _ => some false
  | .request (.call (.taskInherit _ parent)) => fun j =>
    if (n.world.tables parent).ready then some (n.last parent j) else none
  | .request (.call (.openFile t ok flags)) =>
    opened (fdIdx (nativeFdOpen n.world t ok flags).2) (flags &&& oCloexec ≠ 0)
  | .request (.call (.pipe2 t flags)) =>
    openedPair (if flags &&& ~~~(oCloexec ||| oNonblock) ≠ 0 then none
      else (nativePipeCreate n.world t).2) (flags &&& oCloexec ≠ 0)
  | .request (.call (.dup t fd)) => opened (fdIdx (nativeFdDup n.world t fd).2) false
  | .request (.call (.dup2 t fd newfd)) =>
    if fd = newfd then nothing else opened (fdIdx (nativeFdDup2 n.world t fd newfd).2) false
  | .request (.call (.dup3 t fd newfd flags)) =>
    opened (fdIdx (nativeFdDup3 n.world t fd newfd flags).2) (flags &&& oCloexec ≠ 0)
  | .request (.call (.dupfd t fd arg cloexec)) =>
    opened (fdIdx (nativeFdFcntlDupfd n.world t fd arg cloexec).2) cloexec
  | .request (.call (.socketOpen t)) => opened (nativeSocketOpen n.world t).2 false
  | .request (.accept t fd listening established) =>
    opened (fdIdx (nativeSocketAccept n.world t fd listening established).2) false
  | .setfd t fd arg =>
    if (nativeFdFcntlSetfd n.world t fd arg).2 = 0 then opened (fdIdx fd) (arg &&& fdCloexec ≠ 0)
    else nothing
  | _ => nothing

def Noted.perform (n : Noted) (i : Invocation) : Option Noted :=
  (i.perform n.world).map fun w =>
    ⟨w, Function.update n.last i.task fun j => (n.given i j).getD (n.last i.task j)⟩

/-- The lowest free number of a task that can open a socket has no bit left set. -/
def Blank (w : World) (t : Slot) : Prop :=
  (∃ n, w.sockets n = none) → ∀ k, (List.finRange 32).find? (pipeFdFree w t) = some k →
    fdExecGet w t k = false

/-- Each accept finds a number free of pipes, and each socket one whose bit is clear. -/
def Unmarked (n : Noted) : Invocation → Prop
  | .request (.call (.socketOpen t)) => Blank n.world t
  | .request (.accept t fd listening established) =>
    Clear n.world (.accept t fd listening established) ∧
      (nativeSocketIsFd n.world t fd = true → listening = true → established = true → Blank n.world t)
  | .request r => Clear n.world r
  | .setfd _ _ _ => True

/-! ### Steps -/

/-- The bit of each open descriptor is the one it was last given. -/
structure Noted.Faithful (n : Noted) : Prop where
  tidy : Tidy n.world
  last : ∀ u j, Live n.world u j → fdExecGet n.world u j = n.last u j

theorem Blank.socketOpen (blank : Blank w t) (made : (nativeSocketOpen w t).2 = some k) :
    fdExecGet w t k = false := by
  unfold nativeSocketOpen at made
  split at made
  · cases made
  · split at made
    · cases made
    · rename_i found
      split at made
      · cases made
      · rename_i n unused
        have nobody := List.find?_some unused
        rw [Option.isNone_iff_eq_none] at nobody
        cases made
        exact blank ⟨n, nobody⟩ _ found

theorem Blank.accept {fd : Int} {listening established : Bool}
    (clear : Clear w (.accept t fd listening established))
    (blank : nativeSocketIsFd w t fd = true → listening = true → established = true → Blank w t)
    (made : fdIdx (nativeSocketAccept w t fd listening established).2 = some k) :
    fdExecGet w t k = false := by
  rcases nativeSocketAccept_cases (w := w) (t := t) fd listening established with
    ⟨-, failed⟩ | ⟨l, n, open_, listens, up, nobody, low, noFile, noSocket, lowest, done⟩
  · rw [failed] at made
    cases made
  · rw [done, fdIdx_val] at made
    obtain rfl := Option.some.inj made
    have free := clear.free open_ listens up nobody noFile noSocket lowest
    refine blank open_ listens up ⟨n, nobody⟩ _ (find_of_lowest ?_ fun j unused => ?_)
    · rw [pipeFdFree, decide_eq_true low, free]
      rfl
    · simp only [pipeFdFree, Table.free, Bool.and_eq_true, decide_eq_true_eq, Option.isNone_iff_eq_none]
        at unused
      exact lowest j unused.1 unused.2.1.1 unused.2.1.2

theorem Assigns.of_level (recorded : Recorded w) (quiet : Quiet w w') (level : Level w w') :
    Assigns t nothing w w' := .of_fewer recorded quiet fun u j => (level.live u j).mp

theorem Tidy.closeOnExec (tidy : Tidy w) (t : Slot) : Assigns t nothing w (nativeFdCloseOnExec w t) := by
  unfold nativeFdCloseOnExec
  split
  · exact .refl tidy.recorded
  · exact (foldl_close tidy t (List.finRange 32)).1

/-- What each call gives to the descriptors of its task. -/
theorem Noted.Faithful.assigns {n : Noted} {i : Invocation} (faithful : n.Faithful)
    (unmarked : Unmarked n i) (step : i.perform n.world = some w') :
    Assigns i.task (n.given i) n.world w' := by
  obtain ⟨⟨counted, apart, recorded⟩, last⟩ := faithful
  cases i with
  | setfd t fd arg =>
    cases step
    exact nativeFdFcntlSetfd_assigns recorded fd arg
  | request r =>
    cases r with
    | accept t fd listening established =>
      cases step
      exact nativeSocketAccept_assigns recorded fd listening established fun k made =>
        Blank.accept unmarked.1 unmarked.2 made
    | call op =>
      cases op with
      | taskInit t tty =>
        cases step
        exact nativeFdTaskInit_assigns recorded tty
      | taskCleanup t =>
        cases step
        exact (nativeFdTaskCleanup_assigns recorded apart).1
      | closeOnExec t =>
        cases step
        exact Tidy.closeOnExec ⟨counted, apart, recorded⟩ t
      | taskInherit child parent =>
        cases step
        obtain ⟨assigns, source⟩ := nativeFdTaskInherit_assigns recorded apart child parent
        -- what the child has, the parent had, with the bit last given to it
        refine assigns.widen fun j => ?_
        show _ = (if (n.world.tables parent).ready then some (n.last parent j) else none) ∨ _
        by_cases ready : (n.world.tables parent).ready = true
        · by_cases live : Live (nativeFdTaskInherit n.world child parent).1 child j
          · rw [last parent j (source j ready live)]
            exact .inl rfl
          · exact .inr ⟨fun none_ => absurd ((if_pos ready).symm.trans none_) nofun, live⟩
        · rw [if_neg ready, if_neg ready]
          exact .inl rfl
      | openFile t ok flags =>
        cases step
        exact nativeFdOpen_assigns recorded ok flags
      | pipe2 t flags =>
        cases step
        exact nativeFdPipe2_assigns recorded flags
      | close t fd =>
        cases step
        exact nativeFdClose_assigns recorded apart counted fd
      | dup t fd =>
        cases step
        exact nativeFdDupMin_assigns recorded fd 0
      | dup2 t fd newfd =>
        cases step
        exact nativeFdDup2_assigns recorded apart fd newfd
      | dup3 t fd newfd flags =>
        cases step
        exact nativeFdDup3_assigns recorded apart fd newfd flags
      | dupfd t fd arg cloexec =>
        cases step
        exact nativeFdFcntlDupfd_assigns recorded fd arg cloexec
      | socketOpen t =>
        cases step
        exact nativeSocketOpen_assigns recorded fun k made => Blank.socketOpen unmarked made
      | dirOpen t ok =>
        cases step
        exact .of_level recorded (quiet_nativeDirOpen ok) (level_nativeDirOpen ok)
      | read t fd count nonblock =>
        exact perform_read (.refl recorded)
          (fun done => .of_level recorded (quiet_resumeRead done) (level_resumeRead done)) step
      | readAgain t i count nonblock =>
        obtain ⟨⟨w₁, r⟩, done, rfl⟩ := Option.map_eq_some_iff.mp step
        exact .of_level recorded (quiet_resumeRead done) (level_resumeRead done)
      | write t fd data nonblock =>
        exact perform_write (.refl recorded)
          (fun done => .of_level recorded (quiet_resumeWrite done) (level_resumeWrite done)) step
      | writeAgain t i data nonblock =>
        obtain ⟨⟨w₁, r⟩, done, rfl⟩ := Option.map_eq_some_iff.mp step
        exact .of_level recorded (quiet_resumeWrite done) (level_resumeWrite done)

theorem Unmarked.clear {n : Noted} {r : Request} (unmarked : Unmarked n (.request r)) : Clear n.world r := by
  cases r with
  | accept t fd listening established => exact unmarked.1
  | call op =>
    cases op <;> first | exact unmarked | exact trivial

theorem Noted.Faithful.step {n n' : Noted} {i : Invocation} (faithful : n.Faithful)
    (unmarked : Unmarked n i) (step : n.perform i = some n') : n'.Faithful := by
  obtain ⟨w', performed, rfl⟩ := Option.map_eq_some_iff.mp step
  have assigns := faithful.assigns unmarked performed
  have pipes : Counted w' ∧ Apart w' := by
    cases i with
    | request r => exact faithful.tidy.apart.request faithful.tidy.counted unmarked.clear performed
    | setfd t fd arg =>
      cases performed
      rcases nativeFdFcntlSetfd_cases (t := t) faithful.tidy.recorded fd arg with refused | ⟨k, -, -, done⟩
      · rw [refused]
        exact ⟨faithful.tidy.counted, faithful.tidy.apart⟩
      · rw [done]
        exact ⟨faithful.tidy.counted.moves ((inert_fdExecSet _).moves (t := t)),
          faithful.tidy.apart.level (level_fdExecSet _)⟩
  refine ⟨⟨pipes.1, pipes.2, assigns.recorded⟩, fun u j live => ?_⟩
  show fdExecGet w' u j = Function.update n.last i.task _ u j
  by_cases here : u = i.task
  · subst here
    rw [Function.update_self]
    cases given : n.given i j with
    | some value => exact assigns.given given live
    | none =>
      have before := (assigns.live live).resolve_right fun both => both.2 given
      exact (assigns.kept (fun _ => given) live).trans (faithful.last _ j before)
  · rw [Function.update_of_ne here]
    have before := (assigns.live live).resolve_right fun both => here both.1
    exact (assigns.kept (fun same => absurd same here) live).trans (faithful.last u j before)

/-! ### Runs -/

theorem Tidy.isOpen (tidy : Tidy w) (t : Slot) (k : Fd) : isOpen w t k.val = true ↔ Live w t k := by
  refine ⟨fun known => ?_, open_of_live tidy.apart tidy.counted⟩
  by_contra closed
  obtain ⟨noPipe, noSocket, noFile⟩ := unknown_of_closed closed
  rw [Native.isOpen, nativePipeIsFd, noPipe, noSocket, noFile] at known
  cases known

theorem Noted.Faithful.getfd {n : Noted} (faithful : n.Faithful) (known : isOpen n.world t k.val = true) :
    nativeFdFcntlGetfd n.world t k.val = if n.last t k then 1 else 0 := by
  rw [nativeFdFcntlGetfd, known, if_neg (by decide), fdIdx_val, Option.any_some,
    faithful.last t k ((faithful.tidy.isOpen t k).mp known)]

/-- What closing on exec leaves open. -/
theorem Noted.Faithful.closeOnExec {n : Noted} (faithful : n.Faithful) (t u : Slot) (j : Fd) :
    isOpen (nativeFdCloseOnExec n.world t) u j.val = true ↔
      isOpen n.world u j.val = true ∧ ¬(u = t ∧ n.last t j = true) := by
  obtain ⟨tidy, last⟩ := faithful
  have after : Tidy (nativeFdCloseOnExec n.world t) :=
    ⟨tidy.counted.moves nativeFdCloseOnExec_moves, nativeFdCloseOnExec_apart tidy.apart,
      (tidy.closeOnExec t).recorded⟩
  rw [after.isOpen, tidy.isOpen]
  have live : Live (nativeFdCloseOnExec n.world t) u j ↔
      Live n.world u j ∧ ¬(u = t ∧ fdExecGet n.world t j = true) := by
    unfold nativeFdCloseOnExec
    split
    · rename_i unready
      refine ⟨fun live => ⟨live, ?_⟩, And.left⟩
      rintro ⟨rfl, -⟩
      rw [ready_of_live live] at unready
      cases unready
    · obtain ⟨-, all⟩ := foldl_close tidy t (List.finRange 32)
      simp only [Live, all, List.mem_finRange, true_and, exists_and_right]
  rw [live]
  refine and_congr_right fun there => not_congr (and_congr_right ?_)
  rintro rfl
  rw [last u j there]

/-- **The bit last given.** From boot on, as long as each accept finds a number free of
pipes and each socket a number whose bit is clear, `F_GETFD` reports of an open descriptor
the bit it was last given, and closing on exec closes the open descriptors with the bit. -/
theorem run_noted {w₀ : World} {last₀ : Slot → Fd → Bool} {is : List Invocation} {n : Noted}
    (boot : Boot w₀) (unused : ∀ i, w₀.execMeta i = none)
    (run : Run (fun n i n' => Noted.perform n i = some n') Unmarked ⟨w₀, last₀⟩ is n) :
    (∀ t k, isOpen n.world t k.val = true →
      nativeFdFcntlGetfd n.world t k.val = if n.last t k then 1 else 0) ∧
      ∀ t u j, isOpen (nativeFdCloseOnExec n.world t) u j.val = true ↔
        isOpen n.world u j.val = true ∧ ¬(u = t ∧ n.last t j = true) := by
  have start : Noted.Faithful ⟨w₀, last₀⟩ := by
    refine ⟨⟨boot.counted, boot.apart, boot.recorded unused⟩, fun u j live => ?_⟩
    have ready := ready_of_live live
    rw [boot.tables u] at ready
    cases ready
  have faithful : n.Faithful := run.invariant start Noted.Faithful.step
  exact ⟨fun t k => faithful.getfd, faithful.closeOnExec⟩

instance (n : Noted) (i : Invocation) : Decidable (Unmarked n i) := by
  unfold Unmarked Blank
  split <;> infer_instance

/-- A pipe whose bits are set; its write end is copied, one bit is taken back, and all is
passed on to a child. -/
def childRun : List Invocation :=
  [.request (.call (.taskInit 0 fun _ => true)), .request (.call (.pipe2 0 oCloexec)),
    .request (.call (.dup 0 4)), .setfd 0 3 0, .request (.call (.taskInherit 1 0))]

theorem run_noted_child :
    ∃ n, Run (fun n i n' => Noted.perform n i = some n') Unmarked ⟨booted, fun _ _ => false⟩ childRun n ∧
      nativeFdFcntlGetfd n.world 1 3 = 0 ∧ nativeFdFcntlGetfd n.world 1 4 = 1 ∧
      isOpen (nativeFdCloseOnExec n.world 1) 1 3 = true ∧ isOpen (nativeFdCloseOnExec n.world 1) 1 4 = false := by
  have done : ((runAll Noted.perform Unmarked ⟨booted, fun _ _ => false⟩ childRun).filter fun n =>
      isOpen n.world 1 3 = true ∧ isOpen n.world 1 4 = true ∧ n.last 1 3 = false ∧
        n.last 1 4 = true).isSome = true := by
    decide
  obtain ⟨n, found⟩ := Option.isSome_iff_exists.mp done
  obtain ⟨ran, held⟩ := Option.filter_eq_some_iff.mp found
  obtain ⟨open₃, open₄, last₃, last₄⟩ := of_decide_eq_true held
  obtain ⟨getfd, closed⟩ := run_noted booted_boot (fun _ => rfl) (.of_runAll ran)
  refine ⟨n, .of_runAll ran, ?_, ?_, ?_, ?_⟩
  · exact (getfd 1 3 open₃).trans (if_neg (by rw [last₃]; decide))
  · exact (getfd 1 4 open₄).trans (if_pos last₄)
  · exact (closed 1 1 3).mpr ⟨open₃, fun both => absurd (last₃.symm.trans both.2) (by decide)⟩
  · by_contra still
    exact ((closed 1 1 4).mp (Bool.not_eq_false _ ▸ still)).2 ⟨rfl, last₄⟩

/-- Sixteen tasks have their consoles and one has thirteen files more, so that no descriptor
of the VFS is left. A file is then copied onto the read end of a pipe. -/
def crowdedRun : List Invocation :=
  (List.finRange 16).map (fun t => .request (.call (.taskInit t fun _ => true))) ++
    List.replicate 13 (.request (.call (.openFile 1 true 0))) ++
    [.request (.call (.pipe2 0 oCloexec)), .request (.call (.dup2 0 0 3)),
      .request (.call (.socketOpen 0))]

/-- **A bit left behind.** The copy fails after the read end is closed, its bit stays, and a
socket opened next at its number is reported to be closed on exec. -/
theorem socket_inherits_bit :
    ¬∀ (is : List Invocation) (n : Noted),
      Run (fun n i n' => Noted.perform n i = some n') Anything ⟨booted, fun _ _ => false⟩ is n →
        ∀ t k, isOpen n.world t k.val = true →
          nativeFdFcntlGetfd n.world t k.val = if n.last t k then 1 else 0 := by
  intro all
  have done : ((runAll Noted.perform Anything ⟨booted, fun _ _ => false⟩ crowdedRun).filter fun n =>
      isOpen n.world 0 3 = true ∧ n.last 0 3 = false ∧ nativeFdFcntlGetfd n.world 0 3 = 1).isSome = true := by
    decide +kernel
  obtain ⟨n, found⟩ := Option.isSome_iff_exists.mp done
  obtain ⟨ran, held⟩ := Option.filter_eq_some_iff.mp found
  obtain ⟨open_, last, reported⟩ := of_decide_eq_true held
  have given := all crowdedRun n (.of_runAll ran) 0 3 open_
  rw [last] at given
  exact absurd (reported.symm.trans given) (by decide)

end AtmKoala.Native
