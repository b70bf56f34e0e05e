import AtmKoala.Lib.RingBuffer
import AtmKoala.Sched.Steps

/-!
The descriptors of native tasks: `native_fd.c` and `native_pipe.c`.

A task has a table of 32 descriptors, each with a VFS, a socket and a pipe entry
of its own, where -1 is `none`. Behind them are the descriptors of the VFS, the
sockets and the pool of 8 pipes. Path names, permissions and the contents of files
do not matter here, so opening a file is given whether the path can be opened.
Left out is the accounting, and of a socket everything but its owner.

A blocking call on a pipe is the rounds of its loop; between two rounds the task
is off the processor.
-/

namespace AtmKoala.Native

open Lib
open Sched (Slot)

/-! ### State -/

inductive PipeEnd where
  | read | write
deriving DecidableEq

/-- `native_pipe_t`, with `ATM_PIPE_CAP` 1024. -/
structure Pipe where
  buffer : Fin 1024 → UInt8
  head : Fin 1024
  tail : Fin 1024
  count : Nat
  readRefs : Nat
  writeRefs : Nat
  readerWaiter : Option Slot
  writerWaiter : Option Slot
  used : Bool

def Pipe.zero : Pipe where
  buffer := fun _ => 0
  head := 0
  tail := 0
  count := 0
  readRefs := 0
  writeRefs := 0
  readerWaiter := none
  writerWaiter := none
  used := false

/-- A user descriptor, below `TASK_FD_MAX`. -/
abbrev Fd := Fin 32

/-- The descriptor fields of `task_t`. -/
structure Table where
  ready : Bool
  fdMap : Fd → Option (Fin 64)
  socketMap : Fd → Option (Fin 16)
  pipeMap : Fd → Option (Fin 8 × PipeEnd)
  flags : Fd → UInt32
  dirMap : Fin 16 → Bool

/-- `fd_exec_meta_t` of an owner. -/
structure ExecMeta where
  owner : Slot
  flags : Fd → Bool

/-- The scheduler, the tables of the tasks and what the descriptors stand for. -/
structure World where
  sched : Sched.State
  tables : Slot → Table
  pipes : Fin 8 → Pipe
  sockets : Fin 16 → Option Slot
  execMeta : Fin 32 → Option ExecMeta
  vfsUsed : Fin 64 → Bool

namespace World

def mapTable (w : World) (t : Slot) (f : Table → Table) : World :=
  { w with tables := Function.update w.tables t (f (w.tables t)) }

def mapPipe (w : World) (i : Fin 8) (f : Pipe → Pipe) : World :=
  { w with pipes := Function.update w.pipes i (f (w.pipes i)) }

def setFd (w : World) (t : Slot) (k : Fd) (b : Option (Fin 64)) : World :=
  w.mapTable t fun table => { table with fdMap := Function.update table.fdMap k b }

def setSocket (w : World) (t : Slot) (k : Fd) (n : Option (Fin 16)) : World :=
  w.mapTable t fun table => { table with socketMap := Function.update table.socketMap k n }

def setPipe (w : World) (t : Slot) (k : Fd) (p : Option (Fin 8 × PipeEnd)) : World :=
  w.mapTable t fun table => { table with pipeMap := Function.update table.pipeMap k p }

def setFlags (w : World) (t : Slot) (k : Fd) (n : UInt32) : World :=
  w.mapTable t fun table => { table with flags := Function.update table.flags k n }

end World

/-- A descriptor number in range. -/
def fdIdx (fd : Int) : Option Fd :=
  if h : 0 ≤ fd ∧ fd < 32 then some ⟨fd.toNat, by omega⟩ else none

/-! ### Descriptors of the VFS -/

/-- `vfs_open`: `ok` says whether the path names a file that may be opened. -/
def atmPosixOpen (w : World) (ok : Bool) : World × Option (Fin 64) :=
  if !ok then (w, none)
  else
    match (List.finRange 64).find? fun b => 3 ≤ b.val ∧ w.vfsUsed b = false with
    | none => (w, none)
    | some b => ({ w with vfsUsed := Function.update w.vfsUsed b true }, some b)

def atmPosixClose (w : World) (b : Fin 64) : World :=
  { w with vfsUsed := Function.update w.vfsUsed b false }

def atmPosixDup (w : World) (b : Fin 64) : World × Option (Fin 64) :=
  atmPosixOpen w (w.vfsUsed b)

/-! ### Close-on-exec flags -/

def fdExecMetaFor (w : World) (t : Slot) (create : Bool) : World × Option (Fin 32) :=
  match (List.finRange 32).find? fun i => (w.execMeta i).any (·.owner = t) with
  | some i => (w, some i)
  | none =>
    if !create then (w, none)
    else
      match (List.finRange 32).find? fun i => (w.execMeta i).isNone with
      | none => (w, none)
      | some i =>
        ({ w with execMeta := Function.update w.execMeta i (some ⟨t, fun _ => false⟩) }, some i)

def setExecMeta (w : World) (i : Fin 32) (m : Option ExecMeta) : World :=
  { w with execMeta := Function.update w.execMeta i m }

def fdExecReset (w : World) (t : Slot) : World :=
  match fdExecMetaFor w t true with
  | (w, none) => w
  | (w, some i) => setExecMeta w i (some ⟨t, fun _ => false⟩)

def fdExecDrop (w : World) (t : Slot) : World :=
  match fdExecMetaFor w t false with
  | (w, none) => w
  | (w, some i) => setExecMeta w i none

def fdExecGet (w : World) (t : Slot) (k : Fd) : Bool :=
  match (fdExecMetaFor w t false).2 with
  | none => false
  | some i => (w.execMeta i).any (·.flags k)

/-- `fd_exec_set`; the result says whether it succeeded. -/
def fdExecSet (w : World) (t : Slot) (k : Fd) (value : Bool) : World × Bool :=
  match fdExecMetaFor w t value with
  | (w, none) => (w, false)
  | (w, some i) =>
    (setExecMeta w i ((w.execMeta i).map fun m =>
      { m with flags := Function.update m.flags k value }), true)

/-! The functions for the side table change nothing else. -/

theorem fdExecMetaFor_changes (w : World) (t : Slot) (create : Bool) :
    ∃ f, (fdExecMetaFor w t create).1 = { w with execMeta := f } := by
  unfold fdExecMetaFor
  split
  · exact ⟨w.execMeta, rfl⟩
  · split
    · exact ⟨w.execMeta, rfl⟩
    · split
      · exact ⟨w.execMeta, rfl⟩
      · exact ⟨_, rfl⟩

theorem fdExecReset_changes (w : World) (t : Slot) :
    ∃ f, fdExecReset w t = { w with execMeta := f } := by
  obtain ⟨f, same⟩ := fdExecMetaFor_changes w t true
  unfold fdExecReset
  split
  · rename_i eq
    rw [eq] at same
    exact ⟨f, same⟩
  · rename_i eq
    rw [eq] at same
    dsimp only at same
    rw [same]
    exact ⟨_, rfl⟩

theorem fdExecDrop_changes (w : World) (t : Slot) :
    ∃ f, fdExecDrop w t = { w with execMeta := f } := by
  obtain ⟨f, same⟩ := fdExecMetaFor_changes w t false
  unfold fdExecDrop
  split
  · rename_i eq
    rw [eq] at same
    exact ⟨f, same⟩
  · rename_i eq
    rw [eq] at same
    dsimp only at same
    rw [same]
    exact ⟨_, rfl⟩

theorem fdExecSet_changes (w : World) (t : Slot) (k : Fd) (value : Bool) :
    ∃ f, (fdExecSet w t k value).1 = { w with execMeta := f } := by
  obtain ⟨f, same⟩ := fdExecMetaFor_changes w t value
  unfold fdExecSet
  split
  · rename_i eq
    rw [eq] at same
    exact ⟨f, same⟩
  · rename_i eq
    rw [eq] at same
    dsimp only at same
    rw [same]
    exact ⟨_, rfl⟩

/-! ### Pipes -/

def pipeDecode (w : World) (t : Slot) (fd : Int) : Option (Fd × Fin 8 × PipeEnd) :=
  match fdIdx fd with
  | none => none
  | some k =>
    if (w.tables t).ready = true ∧ 3 ≤ k.val then
      match (w.tables t).pipeMap k with
      | none => none
      | some (i, e) => if (w.pipes i).used then some (k, i, e) else none
    else none

/-- A descriptor with no entry. -/
def Table.free (table : Table) (k : Fd) : Bool :=
  (table.fdMap k).isNone && (table.socketMap k).isNone && (table.pipeMap k).isNone

def pipeFdFree (w : World) (t : Slot) (k : Fd) : Bool := decide (3 ≤ k.val) && (w.tables t).free k

/-- `task_unblock` of a published waiter that is blocked. -/
def wake (w : World) (waiter : Option Slot) : World :=
  match waiter with
  | none => w
  | some t =>
    if (w.sched.pool t).state = .blocked then { w with sched := Sched.taskUnblock w.sched t } else w

def pipeWakeReader (w : World) (i : Fin 8) : World := wake w (w.pipes i).readerWaiter

def pipeWakeWriter (w : World) (i : Fin 8) : World := wake w (w.pipes i).writerWaiter

def pipeMaybeFree (w : World) (i : Fin 8) : World :=
  if (w.pipes i).readRefs = 0 ∧ (w.pipes i).writeRefs = 0 then w.mapPipe i fun _ => Pipe.zero else w

def nativePipeIsFd (w : World) (t : Slot) (fd : Int) : Bool := (pipeDecode w t fd).isSome

/-- `native_pipe_create`, with the two descriptors. -/
def nativePipeCreate (w : World) (t : Slot) : World × Option (Fd × Fd) :=
  if (w.tables t).ready = false then (w, none)
  else
    match (List.finRange 32).find? (pipeFdFree w t) with
    | none => (w, none)
    | some readFd =>
      match (List.finRange 32).find? fun k => decide (readFd < k) && pipeFdFree w t k with
      | none => (w, none)
      | some writeFd =>
        match (List.finRange 8).find? fun i => (w.pipes i).used = false with
        | none => (w, none)
        | some i =>
          let w := w.mapPipe i fun _ => { Pipe.zero with used := true, readRefs := 1, writeRefs := 1 }
          ((w.setPipe t readFd (some (i, .read))).setPipe t writeFd (some (i, .write)),
            some (readFd, writeFd))

/-- One reference less. -/
def Pipe.drop (p : Pipe) : PipeEnd → Pipe
  | .read => { p with readRefs := p.readRefs - 1 }
  | .write => { p with writeRefs := p.writeRefs - 1 }

/-- One reference more. -/
def Pipe.add (p : Pipe) : PipeEnd → Pipe
  | .read => { p with readRefs := p.readRefs + 1 }
  | .write => { p with writeRefs := p.writeRefs + 1 }

/-- The other side is woken when an end is closed. -/
def wakeOther (w : World) (i : Fin 8) : PipeEnd → World
  | .read => pipeWakeWriter w i
  | .write => pipeWakeReader w i

def nativePipeClose (w : World) (t : Slot) (fd : Int) : World × Int :=
  match pipeDecode w t fd with
  | none => (w, -1)
  | some (k, i, e) =>
    let w := (w.setPipe t k none).mapPipe i (·.drop e)
    (pipeMaybeFree (wakeOther w i e) i, 0)

def nativePipeDup (w : World) (t : Slot) (oldfd : Int) (newfd : Fd) : World × Int :=
  match pipeDecode w t oldfd with
  | none => (w, -1)
  | some (_, i, e) =>
    if pipeFdFree w t newfd = false then (w, -1)
    else ((w.mapPipe i (·.add e)).setPipe t newfd (some (i, e)), newfd.val)

def nativePipeInherit (w : World) (child parent : Slot) (k : Fd) : World × Int :=
  if pipeFdFree w child k = false then (w, -1)
  else
    match pipeDecode w parent k.val with
    | none => (w, -1)
    | some (_, i, e) => ((w.mapPipe i (·.add e)).setPipe child k (some (i, e)), 0)

def nativePipeTaskInit (w : World) (t : Slot) : World :=
  w.mapTable t fun table => { table with pipeMap := fun _ => none }

def nativePipeTaskCleanup (w : World) (t : Slot) : World :=
  ((List.finRange 32).filter (3 ≤ ·.val)).foldl
    (fun w k => if ((w.tables t).pipeMap k).isSome then (nativePipeClose w t k.val).1 else w) w

/-- One round of `native_pipe_read` on pipe `i`: the result and the bytes, or
nothing when the task has published itself and has to block. -/
def pipeReadRound (w : World) (t : Slot) (i : Fin 8) (count : Nat) (nonblock : Bool) :
    World × Option (Int × List UInt8) :=
  let p := w.pipes i
  let leave (p : Pipe) : Pipe :=
    if p.readerWaiter = some t then { p with readerWaiter := none } else p
  if p.count ≠ 0 then
    let n := min count p.count
    let (bytes, tail) := takeFrom p.buffer n p.tail
    let w := w.mapPipe i fun p => leave { p with tail := tail, count := p.count - n }
    (pipeWakeWriter w i, some (n, bytes))
  else if p.writeRefs = 0 then (w.mapPipe i leave, some (0, []))
  else if nonblock then (w, some (-11, []))
  else (w.mapPipe i fun p => { p with readerWaiter := some t }, none)

/-- One round of `native_pipe_write`. -/
def pipeWriteRound (w : World) (t : Slot) (i : Fin 8) (data : List UInt8) (nonblock : Bool) :
    World × Option Int :=
  let p := w.pipes i
  let leave (p : Pipe) : Pipe :=
    if p.writerWaiter = some t then { p with writerWaiter := none } else p
  if p.readRefs = 0 then (w.mapPipe i leave, some (-32))
  else if p.count < 1024 then
    let n := min data.length (1024 - p.count)
    let (buffer, head) := putAt p.buffer (data.take n) p.head
    let w := w.mapPipe i fun p => leave { p with buffer := buffer, head := head, count := p.count + n }
    (pipeWakeReader w i, some n)
  else if nonblock then (w, some (-11))
  else (w.mapPipe i fun p => { p with writerWaiter := some t }, none)

/-- The way a task leaves the processor in a blocking call. -/
def blockInCall (w : World) (t : Slot) : Option World :=
  if (w.sched.pool t).hasAddressSpace then
    some { w with sched := Sched.taskBlockFromSyscall w.sched }
  else (Sched.taskBlock w.sched).map fun s => { w with sched := s }

/-- A round of a read, with the block it may end in. -/
def resumeRead (w : World) (t : Slot) (i : Fin 8) (count : Nat) (nonblock : Bool) :
    Option (World × Option (Int × List UInt8)) :=
  match pipeReadRound w t i count nonblock with
  | (w, some r) => some (w, some r)
  | (w, none) => (blockInCall w t).map (·, none)

def resumeWrite (w : World) (t : Slot) (i : Fin 8) (data : List UInt8) (nonblock : Bool) :
    Option (World × Option Int) :=
  match pipeWriteRound w t i data nonblock with
  | (w, some r) => some (w, some r)
  | (w, none) => (blockInCall w t).map (·, none)

/-! A round and the block it may end in change the scheduler and the pipes alone. -/

theorem wake_changes (w : World) (waiter : Option Slot) : ∃ s, wake w waiter = { w with sched := s } := by
  unfold wake
  split
  · exact ⟨w.sched, rfl⟩
  · split
    · exact ⟨_, rfl⟩
    · exact ⟨w.sched, rfl⟩

theorem blockInCall_changes {w w' : World} {t : Slot} (done : blockInCall w t = some w') :
    ∃ s, w' = { w with sched := s } := by
  unfold blockInCall at done
  split at done
  · exact ⟨_, (Option.some.inj done).symm⟩
  · obtain ⟨s, -, rfl⟩ := Option.map_eq_some_iff.mp done
    exact ⟨s, rfl⟩

theorem resumeRead_changes {w w' : World} {t : Slot} {i : Fin 8} {count : Nat} {nonblock : Bool}
    {r : Option (Int × List UInt8)} (done : resumeRead w t i count nonblock = some (w', r)) :
    ∃ s p, w' = { w with sched := s, pipes := p } := by
  have round : ∃ s p, (pipeReadRound w t i count nonblock).1 = { w with sched := s, pipes := p } := by
    unfold pipeReadRound
    dsimp only
    split
    · exact (wake_changes _ _).imp fun s same => ⟨_, same⟩
    · split
      · exact ⟨w.sched, _, rfl⟩
      · split
        · exact ⟨w.sched, w.pipes, rfl⟩
        · exact ⟨w.sched, _, rfl⟩
  unfold resumeRead at done
  split at done
  · rename_i eq
    rw [eq] at round
    cases done
    exact round
  · rename_i eq
    rw [eq] at round
    obtain ⟨s, p, rfl⟩ := round
    obtain ⟨w₂, blocked, same⟩ := Option.map_eq_some_iff.mp done
    cases same
    exact (blockInCall_changes blocked).imp fun s same => ⟨p, same⟩

theorem resumeWrite_changes {w w' : World} {t : Slot} {i : Fin 8} {data : List UInt8}
    {nonblock : Bool} {r : Option Int} (done : resumeWrite w t i data nonblock = some (w', r)) :
    ∃ s p, w' = { w with sched := s, pipes := p } := by
  have round : ∃ s p, (pipeWriteRound w t i data nonblock).1 = { w with sched := s, pipes := p } := by
    unfold pipeWriteRound
    dsimp only
    split
    · exact ⟨w.sched, _, rfl⟩
    · split
      · exact (wake_changes _ _).imp fun s same => ⟨_, same⟩
      · split
        · exact ⟨w.sched, w.pipes, rfl⟩
        · exact ⟨w.sched, _, rfl⟩
  unfold resumeWrite at done
  split at done
  · rename_i eq
    rw [eq] at round
    cases done
    exact round
  · rename_i eq
    rw [eq] at round
    obtain ⟨s, p, rfl⟩ := round
    obtain ⟨w₂, blocked, same⟩ := Option.map_eq_some_iff.mp done
    cases same
    exact (blockInCall_changes blocked).imp fun s same => ⟨p, same⟩

/-- `native_pipe_read` up to its first return or block. -/
def nativePipeRead (w : World) (t : Slot) (fd : Int) (count : Nat) (nonblock : Bool) :
    Option (World × Option (Int × List UInt8)) :=
  match pipeDecode w t fd with
  | some (_, i, .read) =>
    if count = 0 then some (w, some (0, [])) else resumeRead w t i count nonblock
  | _ => some (w, some (-1, []))

/-- `native_pipe_write` up to its first return or block. -/
def nativePipeWrite (w : World) (t : Slot) (fd : Int) (data : List UInt8) (nonblock : Bool) :
    Option (World × Option Int) :=
  match pipeDecode w t fd with
  | some (_, i, .write) =>
    if data = [] then some (w, some 0) else resumeWrite w t i data nonblock
  | _ => some (w, some (-1))

/-! ### Sockets -/

def nativeSocketIsFd (w : World) (t : Slot) (fd : Int) : Bool :=
  match fdIdx fd with
  | none => false
  | some k =>
    (w.tables t).ready && decide (3 ≤ k.val) &&
      ((w.tables t).socketMap k).any fun n => w.sockets n = some t

def nativeSocketOpen (w : World) (t : Slot) : World × Option Fd :=
  if (w.tables t).ready = false then (w, none)
  else
    match (List.finRange 32).find? (pipeFdFree w t) with
    | none => (w, none)
    | some k =>
      match (List.finRange 16).find? fun n => (w.sockets n).isNone with
      | none => (w, none)
      | some n =>
        ({ w with sockets := Function.update w.sockets n (some t) }.setSocket t k (some n), some k)

def nativeSocketClose (w : World) (t : Slot) (fd : Int) : World × Int :=
  match fdIdx fd with
  | none => (w, -1)
  | some k =>
    match (w.tables t).socketMap k with
    | none => (w, -1)
    | some n =>
      if nativeSocketIsFd w t fd then
        ({ w.setSocket t k none with sockets := Function.update w.sockets n none }, 0)
      else (w, -1)

def nativeSocketTaskInit (w : World) (t : Slot) : World :=
  w.mapTable t fun table => { table with socketMap := fun _ => none }

def nativeSocketTaskCleanup (w : World) (t : Slot) : World :=
  ((List.finRange 32).filter (3 ≤ ·.val)).foldl
    (fun w k => if ((w.tables t).socketMap k).isSome then (nativeSocketClose w t k.val).1 else w) w

/-! ### Directory streams -/

def nativeDirOpen (w : World) (t : Slot) (ok : Bool) : World :=
  if (w.tables t).ready = false then w
  else
    match (List.finRange 16).find? fun d => (w.tables t).dirMap d = false with
    | none => w
    | some d =>
      if ok then
        w.mapTable t fun table => { table with dirMap := Function.update table.dirMap d true }
      else w

/-- `native_dir_task_init`, and `native_dir_task_cleanup` as far as the table goes. -/
def nativeDirTaskInit (w : World) (t : Slot) : World :=
  w.mapTable t fun table => { table with dirMap := fun _ => false }

/-! ### Descriptors -/

def fdValid (w : World) (t : Slot) (fd : Int) : Option (Fd × Fin 64) :=
  match fdIdx fd with
  | none => none
  | some k => if (w.tables t).ready then ((w.tables t).fdMap k).map (k, ·) else none

/-- The tables `native_fd_task_init` and `native_fd_task_inherit` start from. -/
def freshTable (w : World) (t : Slot) : World :=
  let w := w.mapTable t fun table => { table with fdMap := fun _ => none, flags := fun _ => 0 }
  nativeDirTaskInit (nativePipeTaskInit (nativeSocketTaskInit (fdExecReset w t) t) t) t

/-- `native_fd_task_init`; `tty` says which opens of `/dev/tty` succeed. -/
def nativeFdTaskInit (w : World) (t : Slot) (tty : Fin 3 → Bool) : World :=
  let openTty (w : World) (k : Fin 3) : World :=
    match atmPosixOpen w (tty k) with
    | (w, b) => (w.setFd t (Fin.castLE (by decide) k) b).setFlags t (Fin.castLE (by decide) k)
        (if k = 0 then 0 else 1)
  ([0, 1, 2].foldl openTty (freshTable w t)).mapTable t fun table => { table with ready := true }

def nativeFdTaskCleanup (w : World) (t : Slot) : World :=
  if (w.tables t).ready = false then w
  else
    let w := nativeSocketTaskCleanup (nativePipeTaskCleanup (nativeDirTaskInit w t) t) t
    let closeFd (w : World) (k : Fd) : World :=
      let w := match (w.tables t).fdMap k with
        | none => w
        | some b => atmPosixClose w b
      (w.setFd t k none).setFlags t k 0
    let w := (List.finRange 32).foldl closeFd w
    fdExecDrop (w.mapTable t fun table => { table with ready := false }) t

/-- One turn of the loop of `native_fd_task_cleanup`. -/
def cleanupTurn (t : Slot) (w : World) (k : Fd) : World :=
  let w := match (w.tables t).fdMap k with
    | none => w
    | some b => atmPosixClose w b
  (w.setFd t k none).setFlags t k 0

theorem nativeFdTaskCleanup_eq (w : World) (t : Slot) :
    nativeFdTaskCleanup w t =
      if (w.tables t).ready = false then w
      else
        fdExecDrop (((List.finRange 32).foldl (cleanupTurn t)
          (nativeSocketTaskCleanup (nativePipeTaskCleanup (nativeDirTaskInit w t) t) t)).mapTable t
            fun table => { table with ready := false }) t := rfl

def nativeFdClose (w : World) (t : Slot) (fd : Int) : World × Int :=
  match pipeDecode w t fd with
  | some (k, _, _) =>
    let w := (nativePipeClose w t fd).1
    ((fdExecSet (w.setFlags t k 0) t k false).1, 0)
  | none =>
    if nativeSocketIsFd w t fd then
      match fdIdx fd with
      | none => (w, -1)
      | some k =>
        let w := (nativeSocketClose w t fd).1
        ((fdExecSet (w.setFlags t k 0) t k false).1, 0)
    else
      match fdValid w t fd with
      | none => (w, -1)
      | some (k, b) =>
        let w := (w.setFd t k none).setFlags t k 0
        (atmPosixClose (fdExecSet w t k false).1 b, 0)

def nativeFdCloseOnExec (w : World) (t : Slot) : World :=
  if (w.tables t).ready = false then w
  else
    (List.finRange 32).foldl
      (fun w k => if fdExecGet w t k then (nativeFdClose w t k.val).1 else w) w

/-- One descriptor of `native_fd_task_inherit`; `none` is the jump to `fail`. -/
def inheritFd (child parent : Slot) (w : World) (k : Fd) : World × Bool :=
  let table := w.tables parent
  if (table.socketMap k).isSome then (w, false)
  else
    let flag (w : World) : World :=
      let w := w.setFlags child k (table.flags k)
      (fdExecSet w child k (fdExecGet w parent k)).1
    match table.fdMap k with
    | some b =>
      match atmPosixDup w b with
      | (w, none) => (w, false)
      | (w, some b') => (flag (w.setFd child k (some b')), true)
    | none =>
      if (table.pipeMap k).isSome then
        match nativePipeInherit w child parent k with
        | (w, r) => if r < 0 then (w, false) else (flag w, true)
      else (w, true)

/-- The loop over the descriptors. -/
def inheritFds (child parent : Slot) : World → List Fd → World × Bool
  | w, [] => (w, true)
  | w, k :: ks =>
    match inheritFd child parent w k with
    | (w, true) => inheritFds child parent w ks
    | (w, false) => (w, false)

def nativeFdTaskInherit (w : World) (child parent : Slot) : World × Int :=
  if (w.tables parent).ready = false then (w, -1)
  else
    let w := (freshTable w child).mapTable child fun table => { table with ready := true }
    if ∃ d, (w.tables parent).dirMap d = true then (nativeFdTaskCleanup w child, -1)
    else
      match inheritFds child parent w (List.finRange 32) with
      | (w, true) => (w, 0)
      | (w, false) => (nativeFdTaskCleanup w child, -1)

def nativeFdSlot (w : World) (t : Slot) : Option Fd :=
  if (w.tables t).ready = false then none else (List.finRange 32).find? (pipeFdFree w t)

/-- `O_ACCMODE`, `O_CLOEXEC` and `O_NONBLOCK` of native descriptors. -/
def oAccmode : UInt32 := 3
def oCloexec : UInt32 := 0x2000
def oNonblock : UInt32 := 0x4000

def nativeFdOpen (w : World) (t : Slot) (ok : Bool) (flags : UInt32) : World × Int :=
  match nativeFdSlot w t with
  | none => (w, -1)
  | some k =>
    match atmPosixOpen w ok with
    | (w, none) => (w, -1)
    | (w, some b) =>
      let w := (w.setFd t k (some b)).setFlags t k (flags &&& (oAccmode ||| oNonblock))
      match fdExecSet w t k (flags &&& oCloexec ≠ 0) with
      | (w, true) => (w, k.val)
      | (w, false) => ((atmPosixClose w b).setFd t k none, -1)

def nativeFdPipe2 (w : World) (t : Slot) (flags : UInt32) : World × Int :=
  if flags &&& ~~~(oCloexec ||| oNonblock) ≠ 0 then (w, -1)
  else
    match nativePipeCreate w t with
    | (w, none) => (w, -1)
    | (w, some (readFd, writeFd)) =>
      let w := (w.setFlags t readFd (flags &&& oNonblock)).setFlags t writeFd
        (1 ||| (flags &&& oNonblock))
      let fail (w : World) : World × Int :=
        ((nativePipeClose (nativePipeClose w t readFd.val).1 t writeFd.val).1, -1)
      match fdExecSet w t readFd (flags &&& oCloexec ≠ 0) with
      | (w, false) => fail w
      | (w, true) =>
        match fdExecSet w t writeFd (flags &&& oCloexec ≠ 0) with
        | (w, false) => fail w
        | (w, true) => (w, 0)

/-- The tail shared by the duplicating calls: `fd` is copied to `newfd`. -/
def dupOnto (w : World) (t : Slot) (fd : Int) (newfd : Fd) : World × Int :=
  match pipeDecode w t fd with
  | some (k, _, _) =>
    match nativePipeDup w t fd newfd with
    | (w, r) =>
      if r < 0 then (w, r)
      else
        let w := w.setFlags t newfd ((w.tables t).flags k)
        ((fdExecSet w t newfd false).1, r)
  | none =>
    match fdValid w t fd with
    | none => (w, -1)
    | some (k, b) =>
      match atmPosixDup w b with
      | (w, none) => (w, -1)
      | (w, some b') =>
        let w := (w.setFd t newfd (some b')).setFlags t newfd ((w.tables t).flags k)
        ((fdExecSet w t newfd false).1, newfd.val)

/-- A descriptor that can be duplicated: one of a pipe or of the VFS. -/
def dupable (w : World) (t : Slot) (fd : Int) : Bool :=
  (nativePipeIsFd w t fd || (fdValid w t fd).isSome) && !nativeSocketIsFd w t fd

def nativeFdDupMin (w : World) (t : Slot) (fd minFd : Int) : World × Int :=
  if minFd < 0 ∨ 32 ≤ minFd ∨ dupable w t fd = false then (w, -1)
  else
    match (List.finRange 32).find? fun k => decide (minFd ≤ k.val) && (w.tables t).free k with
    | none => (w, -1)
    | some slot => dupOnto w t fd slot

def nativeFdDup (w : World) (t : Slot) (fd : Int) : World × Int := nativeFdDupMin w t fd 0

/-- `native_fd_dup2` makes room at `newfd`. -/
def closeTarget (w : World) (t : Slot) (newfd : Fd) : World :=
  if nativePipeIsFd w t newfd.val then (nativePipeClose w t newfd.val).1
  else if nativeSocketIsFd w t newfd.val then (nativeSocketClose w t newfd.val).1
  else
    match fdValid w t newfd.val with
    | none => w
    | some (_, b) => atmPosixClose w b

def nativeFdDup2 (w : World) (t : Slot) (fd newfd : Int) : World × Int :=
  match fdIdx newfd with
  | none => (w, -1)
  | some k =>
    if fd = newfd ∧ (nativePipeIsFd w t fd || nativeSocketIsFd w t fd || (fdValid w t fd).isSome) = true
      then (w, newfd)
    else if dupable w t fd = false then (w, -1)
    else dupOnto (closeTarget w t k) t fd k

def nativeFdDup3 (w : World) (t : Slot) (fd newfd : Int) (flags : UInt32) : World × Int :=
  if fd = newfd ∨ flags &&& ~~~oCloexec ≠ 0 then (w, -1)
  else
    match nativeFdDup2 w t fd newfd with
    | (w, out) =>
      match fdIdx out with
      | none => (w, out)
      | some k =>
        match fdExecSet w t k (flags &&& oCloexec ≠ 0) with
        | (w, true) => (w, out)
        | (w, false) => ((nativeFdClose w t out).1, -1)

/-- `native_fd_fcntl` with `F_DUPFD` and, for `cloexec`, `F_DUPFD_CLOEXEC`. -/
def nativeFdFcntlDupfd (w : World) (t : Slot) (fd : Int) (arg : Int32) (cloexec : Bool) :
    World × Int :=
  if (nativePipeIsFd w t fd || nativeSocketIsFd w t fd || (fdValid w t fd).isSome) = false then
    (w, -1)
  else
    match nativeFdDupMin w t fd arg.toInt with
    | (w, out) =>
      if !cloexec then (w, out)
      else
        match fdIdx out with
        | none => (w, -1)
        | some k =>
          match fdExecSet w t k true with
          | (w, true) => (w, out)
          | (w, false) => ((nativeFdClose w t out).1, -1)

/-! ### Calls -/

/-- The calls of a task, one operation each; a blocking call on a pipe goes on
with an operation of its own when the task is back on the processor. -/
inductive Op where
  | taskInit (t : Slot) (tty : Fin 3 → Bool)
  | taskCleanup (t : Slot)
  | closeOnExec (t : Slot)
  | taskInherit (child parent : Slot)
  | openFile (t : Slot) (ok : Bool) (flags : UInt32)
  | pipe2 (t : Slot) (flags : UInt32)
  | close (t : Slot) (fd : Int)
  | dup (t : Slot) (fd : Int)
  | dup2 (t : Slot) (fd newfd : Int)
  | dup3 (t : Slot) (fd newfd : Int) (flags : UInt32)
  | dupfd (t : Slot) (fd : Int) (arg : Int32) (cloexec : Bool)
  | socketOpen (t : Slot)
  | dirOpen (t : Slot) (ok : Bool)
  | read (t : Slot) (fd : Int) (count : Nat) (nonblock : Bool)
  | readAgain (t : Slot) (i : Fin 8) (count : Nat) (nonblock : Bool)
  | write (t : Slot) (fd : Int) (data : List UInt8) (nonblock : Bool)
  | writeAgain (t : Slot) (i : Fin 8) (data : List UInt8) (nonblock : Bool)

/-- The task whose table a call works on. -/
def Op.task : Op → Slot
  | .taskInit t _ => t
  | .taskCleanup t => t
  | .closeOnExec t => t
  | .taskInherit child _ => child
  | .openFile t _ _ => t
  | .pipe2 t _ => t
  | .close t _ => t
  | .dup t _ => t
  | .dup2 t _ _ => t
  | .dup3 t _ _ _ => t
  | .dupfd t _ _ _ => t
  | .socketOpen t => t
  | .dirOpen t _ => t
  | .read t _ _ _ => t
  | .readAgain t _ _ _ => t
  | .write t _ _ _ => t
  | .writeAgain t _ _ _ => t

/-- Perform a call; `none` only if the scheduler does not come back from a block. -/
def perform (w : World) : Op → Option World
  | .taskInit t tty => some (nativeFdTaskInit w t tty)
  | .taskCleanup t => some (nativeFdTaskCleanup w t)
  | .closeOnExec t => some (nativeFdCloseOnExec w t)
  | .taskInherit child parent => some (nativeFdTaskInherit w child parent).1
  | .openFile t ok flags => some (nativeFdOpen w t ok flags).1
  | .pipe2 t flags => some (nativeFdPipe2 w t flags).1
  | .close t fd => some (nativeFdClose w t fd).1
  | .dup t fd => some (nativeFdDup w t fd).1
  | .dup2 t fd newfd => some (nativeFdDup2 w t fd newfd).1
  | .dup3 t fd newfd flags => some (nativeFdDup3 w t fd newfd flags).1
  | .dupfd t fd arg cloexec => some (nativeFdFcntlDupfd w t fd arg cloexec).1
  | .socketOpen t => some (nativeSocketOpen w t).1
  | .dirOpen t ok => some (nativeDirOpen w t ok)
  | .read t fd count nonblock => (nativePipeRead w t fd count nonblock).map Prod.fst
  | .readAgain t i count nonblock => (resumeRead w t i count nonblock).map Prod.fst
  | .write t fd data nonblock => (nativePipeWrite w t fd data nonblock).map Prod.fst
  | .writeAgain t i data nonblock => (resumeWrite w t i data nonblock).map Prod.fst

def Step (w : World) (op : Op) (w' : World) : Prop := perform w op = some w'

/-- A call that reads gives up at once, or goes through the rounds. -/
theorem perform_read {Q : World → Prop} {w w' : World} {t : Slot} {fd : Int} {count : Nat}
    {nonblock : Bool} (here : Q w)
    (resumed : ∀ {i w' r}, resumeRead w t i count nonblock = some (w', r) → Q w')
    (step : perform w (.read t fd count nonblock) = some w') : Q w' := by
  obtain ⟨⟨w₁, r⟩, done, rfl⟩ := Option.map_eq_some_iff.mp step
  unfold nativePipeRead at done
  split at done
  · split at done
    · cases done
      exact here
    · exact resumed done
  · cases done
    exact here

theorem perform_write {Q : World → Prop} {w w' : World} {t : Slot} {fd : Int} {data : List UInt8}
    {nonblock : Bool} (here : Q w)
    (resumed : ∀ {i w' r}, resumeWrite w t i data nonblock = some (w', r) → Q w')
    (step : perform w (.write t fd data nonblock) = some w') : Q w' := by
  obtain ⟨⟨w₁, r⟩, done, rfl⟩ := Option.map_eq_some_iff.mp step
  unfold nativePipeWrite at done
  split at done
  · split at done
    · cases done
      exact here
    · exact resumed done
  · cases done
    exact here

/-- Before the first task has a table: no pipe is in use. -/
structure Boot (w : World) : Prop where
  tables : ∀ t, (w.tables t).ready = false
  pipes : ∀ i, w.pipes i = Pipe.zero

/-- The machine right after the scheduler has started. -/
def booted : World where
  sched := Sched.booted
  tables := fun _ => ⟨false, fun _ => none, fun _ => none, fun _ => none, fun _ => 0, fun _ => false⟩
  pipes := fun _ => Pipe.zero
  sockets := fun _ => none
  execMeta := fun _ => none
  vfsUsed := fun _ => false

theorem booted_boot : Boot booted := ⟨fun _ => rfl, fun _ => rfl⟩

end AtmKoala.Native
