import AtmKoala.Native.Model

/-!
Tasks, the processor and pipes together.

`Native.perform` runs a call whoever makes it. Here the calls are those of the
current task, a task that blocks in a read or a write of a pipe stays inside the
call (`Call`) until a later round of its loop returns, and the scheduler goes on in
between. Ending a task closes its descriptors, which may wake others.

A section of a pipe call between `pipe_irq_save` and `pipe_irq_restore` is one
step, together with the block that follows it. The slot of an ended task is given
back after its descriptors were closed, so that zeroing it changes nothing here.
-/

namespace AtmKoala.Native

open Sched (Slot)

/-! ### Ending a task -/

def taskMarkZombie (w : World) (t : Slot) (code : Int) (signal : UInt32) : World :=
  if (w.sched.pool t).pid = 0 ∨ (w.sched.pool t).state = .unused ∨
      (w.sched.pool t).state = .zombie then w
  else
    let w := nativeFdTaskCleanup { w with sched := Sched.marked w.sched t code signal } t
    { w with
      sched := Sched.taskOrphanChildren
        (Sched.taskWakeWaitingParent (Sched.queueRemove w.sched t) t) t }

def taskExit (w : World) (code : Int) : Option World :=
  if (w.sched.pool w.sched.current).pid = 0 then some w
  else
    let w := taskMarkZombie w w.sched.current code 0
    (Sched.schedTick w.sched).map fun s => { w with sched := s }

def taskExitFromSyscall (w : World) (code : Int) : World :=
  if (w.sched.pool w.sched.current).pid = 0 then w
  else
    let w := taskMarkZombie w w.sched.current code 0
    { w with sched := Sched.switchAway w.sched }

def taskKill (w : World) (pid : UInt32) (code : Int) : World :=
  if pid = 0 then w
  else
    match Sched.taskLookupPid w.sched pid with
    | none => w
    | some target => if target = w.sched.current then w else taskMarkZombie w target code 0

def taskSendSignal (w : World) (pid : Int32) (sig : Int) : World :=
  if sig = 0 ∨ pid ≤ 0 ∨ (sig ≠ 15 ∧ sig ≠ 9) then w
  else
    match Sched.taskLookupPid w.sched pid.toUInt32 with
    | none => w
    | some target =>
      if (w.sched.pool target).state = .zombie then w
      else if target = w.sched.current ∨
          (w.sched.pool target).ppid ≠ (w.sched.pool w.sched.current).pid then w
      else
        let signal := UInt32.ofNat sig.toNat
        let s := w.sched.mapTask target fun task => { task with pendingSignal := signal }
        taskMarkZombie { w with sched := s } target 0 signal

def taskDiscardUnstarted (w : World) (t : Slot) : World :=
  if Sched.Unstarted w.sched t then
    let w := nativeFdTaskCleanup { w with sched := Sched.queueRemove w.sched t } t
    { w with sched := (Sched.sleepCancelTask w.sched t).mapTask t fun _ => Sched.Task.zero }
  else w

/-- An operation of the scheduler, with the descriptors of the tasks it ends. -/
def schedPerform (w : World) : Sched.Op → Option World
  | .exit code => taskExit w code
  | .exitFromSyscall code => some (taskExitFromSyscall w code)
  | .kill pid code => some (taskKill w pid code)
  | .sendSignal pid sig => some (taskSendSignal w pid sig)
  | .discardUnstarted t => some (taskDiscardUnstarted w t)
  | op => (Sched.perform w.sched op).map fun s => { w with sched := s }

/-! ### Calls in progress -/

/-- A read or a write of pipe `i` that has not returned. -/
inductive Call where
  | read (i : Fin 8) (count : Nat) (nonblock : Bool)
  | write (i : Fin 8) (data : List UInt8) (nonblock : Bool)

/-- The end of the pipe the call is on. -/
def Call.on : Call → Fin 8 × PipeEnd
  | .read i _ _ => (i, .read)
  | .write i _ _ => (i, .write)

structure Machine where
  world : World
  calls : Slot → Option Call

namespace Machine

def current (m : Machine) : Slot := m.world.sched.current

def state (m : Machine) (t : Slot) : Sched.TaskState := (m.world.sched.pool t).state

/-- Task `t` is blocked inside a call on an end of a pipe. -/
def Blocked (m : Machine) (t : Slot) (i : Fin 8) (e : PipeEnd) : Prop :=
  m.state t = .blocked ∧ (m.calls t).map Call.on = some (i, e)

instance (m : Machine) (t : Slot) (i : Fin 8) (e : PipeEnd) : Decidable (m.Blocked t i e) :=
  inferInstanceAs (Decidable (_ ∧ _))

end Machine

/-- What happens on the machine: a call of the current task, the next round of the
call it is in, an operation of the scheduler. -/
inductive Act where
  | call (op : Op)
  | resume
  | sched (op : Sched.Op)

/-- A call of the current task; `none` is no call, or no return from the scheduler. -/
def performCall (m : Machine) : Op → Option Machine
  | .read t fd count nonblock =>
    match nativePipeRead m.world t fd count nonblock, pipeDecode m.world t fd with
    | some (w, some _), _ => some { m with world := w }
    | some (w, none), some (_, i, _) =>
      some ⟨w, Function.update m.calls t (some (.read i count nonblock))⟩
    | _, _ => none
  | .write t fd data nonblock =>
    match nativePipeWrite m.world t fd data nonblock, pipeDecode m.world t fd with
    | some (w, some _), _ => some { m with world := w }
    | some (w, none), some (_, i, _) =>
      some ⟨w, Function.update m.calls t (some (.write i data nonblock))⟩
    | _, _ => none
  | .readAgain .. => none
  | .writeAgain .. => none
  | op => (perform m.world op).map fun w => { m with world := w }

/-- The next round of a call of the current task. -/
def performResume (m : Machine) : Option Machine :=
  let t := m.current
  match m.calls t with
  | none => none
  | some (.read i count nonblock) =>
    (resumeRead m.world t i count nonblock).map fun r =>
      ⟨r.1, if r.2.isSome then Function.update m.calls t none else m.calls⟩
  | some (.write i data nonblock) =>
    (resumeWrite m.world t i data nonblock).map fun r =>
      ⟨r.1, if r.2.isSome then Function.update m.calls t none else m.calls⟩

/-- A task that has ended is in no call. -/
def performSched (m : Machine) (op : Sched.Op) : Option Machine :=
  (schedPerform m.world op).map fun w =>
    ⟨w, fun t => if (w.sched.pool t).state = .zombie ∨ (w.sched.pool t).state = .unused then none
      else m.calls t⟩

def Machine.perform (m : Machine) : Act → Option Machine
  | .call op => performCall m op
  | .resume => performResume m
  | .sched op => performSched m op

def Machine.Step (m : Machine) (act : Act) (m' : Machine) : Prop := m.perform act = some m'

end AtmKoala.Native
