import AtmKoala.Lib.Ring

/-!
The task scheduler of `sched.c`.

Tasks live in a pool of 16 slots; a pointer to a task is the number of its slot.
The run queue is a circular list through the `next` fields. `sched_init` makes
slot 0 the idle task and the current one, and nothing clears `current_task` after
that, so it is a slot and not an optional one.

Left out of `task_t` are the saved registers and the accounting, credential and
descriptor fields, which none of the functions here reads. A pointer that is only
compared with `NULL` or freed (`stack_base`, `address_space`) is a `Bool`. The
result `none` stands for a walk along the run queue that runs into a `NULL` link
or never ends.
-/

namespace AtmKoala.Sched

open Lib

inductive TaskState where
  | unused | ready | running | blocked | zombie
deriving DecidableEq

/-- `TASK_MAX` slots. -/
abbrev Slot := Fin 16

def taskNoParent : UInt32 := 0xFFFFFFFF
def taskWaitAny : UInt32 := 0xFFFFFFFF
def quantumBase : UInt32 := 2

/-- `task_t`. -/
structure Task where
  pid : UInt32
  ppid : UInt32
  pgid : UInt32
  sid : UInt32
  state : TaskState
  hasStack : Bool
  priority : UInt32
  exitCode : Int
  exitSignal : UInt32
  pendingSignal : UInt32
  waitTarget : UInt32
  waitActive : Bool
  hasAddressSpace : Bool
  next : Option Slot

/-- A slot after `kmemset(t, 0, sizeof(*t))`. -/
def Task.zero : Task where
  pid := 0
  ppid := 0
  pgid := 0
  sid := 0
  state := .unused
  hasStack := false
  priority := 0
  exitCode := 0
  exitSignal := 0
  pendingSignal := 0
  waitTarget := 0
  waitActive := false
  hasAddressSpace := false
  next := none

/-- `sched_sleep_meta_t`. -/
structure SleepMeta where
  deadline : UInt32
  active : Bool

/-- The static variables of `sched.c`. -/
structure State where
  pool : Slot → Task
  current : Slot
  runQueueHead : Option Slot
  nextPid : UInt32
  uptimeTicks : UInt32
  sleep : Slot → SleepMeta
  quantumCounter : UInt32

namespace State

/-- Change one task. -/
def mapTask (s : State) (t : Slot) (f : Task → Task) : State :=
  { s with pool := Function.update s.pool t (f (s.pool t)) }

/-- The links of the run queue. -/
def link (s : State) (t : Slot) : Option Slot := (s.pool t).next

def setNext (s : State) (t : Slot) (n : Option Slot) : State :=
  s.mapTask t fun task => { task with next := n }

def setState (s : State) (t : Slot) (st : TaskState) : State :=
  s.mapTask t fun task => { task with state := st }

end State

def sleepCancelTask (s : State) (t : Slot) : State :=
  { s with sleep := Function.update s.sleep t ⟨0, false⟩ }

/-! ### Slots and the run queue -/

def releaseZombieSlot (s : State) (t : Slot) : State :=
  if t = s.current ∨ (s.pool t).state ≠ .zombie then s
  else (sleepCancelTask s t).mapTask t fun _ => Task.zero

def allocTaskSlot (s : State) : State × Option Slot :=
  match (List.finRange 16).find? fun i => (s.pool i).state = .unused with
  | some i => (s, some i)
  | none =>
    match (List.finRange 16).find? fun i =>
        i ≠ 0 ∧ (s.pool i).state = .zombie ∧ (s.pool i).ppid = taskNoParent with
    | some i => (releaseZombieSlot s i, some i)
    | none => (s, none)

/-- `queue_add`; the result says whether it succeeded. -/
def queueAdd (s : State) (t : Slot) : State × Bool :=
  match s.runQueueHead with
  | none => ({ s with runQueueHead := some t }.setNext t (some t), true)
  | some head =>
    match before s.link head head 16 head with
    | none => (s, false)
    | some tail => ((s.setNext tail (some t)).setNext t (some head), true)

def queueRemove (s : State) (t : Slot) : State :=
  match s.runQueueHead with
  | none => s
  | some head =>
    if head = t ∧ (s.link t = none ∨ s.link t = some t) then
      { s with runQueueHead := none }.setNext t none
    else
      match before s.link t head 16 head with
      | none => s
      | some prev =>
        let s' := s.setNext prev (s.link t)
        let s' := if s'.runQueueHead = some t then { s' with runQueueHead := s'.link t } else s'
        s'.setNext t none

/-! ### Init -/

def schedInit (s : State) : State where
  pool := Function.update (fun _ => Task.zero) 0 { Task.zero with state := .ready, priority := 1 }
  current := 0
  runQueueHead := none
  nextPid := 1
  uptimeTicks := 0
  sleep := fun _ => ⟨0, false⟩
  quantumCounter := s.quantumCounter

/-! ### Creation -/

def clampPriority (priority : UInt32) : UInt32 :=
  if priority < 1 then 1 else if priority > 10 then 10 else priority

/-- The fields `task_create` fills in. The slot can be that of the current task,
whose pid is read after it has changed. -/
def fillSlot (s : State) (t : Slot) (priority : UInt32) : State :=
  let pid := s.nextPid
  let s := { s with nextPid := s.nextPid + 1 }.mapTask t fun task => { task with pid := pid }
  let cur := s.pool s.current
  let s := s.mapTask t fun task =>
    { task with
      ppid := cur.pid
      pgid := if cur.pid ≠ 0 then cur.pgid else pid
      sid := if cur.pid ≠ 0 then cur.sid else pid
      state := .ready
      hasStack := true
      priority := clampPriority priority
      exitCode := 0
      exitSignal := 0
      pendingSignal := 0
      waitTarget := taskWaitAny
      waitActive := false }
  sleepCancelTask s t

/-- `task_create`; `stackOk` says whether `kmalloc` had a stack. -/
def taskCreate (s : State) (priority : UInt32) (stackOk : Bool) : State × Option Slot :=
  match allocTaskSlot s with
  | (s, none) => (s, none)
  | (s, some t) =>
    if !stackOk then (s, none)
    else
      match queueAdd (fillSlot s t priority) t with
      | (s, true) => (s, some t)
      | (s, false) => (s.mapTask t fun _ => Task.zero, none)

def taskLookupPid (s : State) (pid : UInt32) : Option Slot :=
  (List.finRange 16).find? fun i => (s.pool i).state ≠ .unused ∧ (s.pool i).pid = pid

/-- What `task_suspend_unstarted` and `task_discard_unstarted` ask of their task. -/
def Unstarted (s : State) (t : Slot) : Prop :=
  t ≠ s.current ∧ (s.pool t).pid ≠ 0 ∧ (s.pool t).state = .ready

instance (s : State) (t : Slot) : Decidable (Unstarted s t) :=
  inferInstanceAs (Decidable (_ ∧ _))

def taskSuspendUnstarted (s : State) (t : Slot) : State × Int :=
  if Unstarted s t then ((queueRemove s t).setState t .blocked, 0) else (s, -1)

def taskDiscardUnstarted (s : State) (t : Slot) : State × Int :=
  if Unstarted s t then
    ((sleepCancelTask (queueRemove s t) t).mapTask t fun _ => Task.zero, 0)
  else (s, -1)

/-! ### Blocking -/

def taskUnblock (s : State) (t : Slot) : State :=
  if (s.pool t).state ≠ .blocked then s
  else
    match queueAdd (s.setState t .ready) t with
    | (s, true) => s
    | (s, false) => s.setState t .blocked

/-! ### Termination -/

/-- One round of `task_orphan_children`. -/
def orphanChild (parent : UInt32) (s : State) (i : Slot) : State :=
  if (s.pool i).state = .unused ∨ (s.pool i).ppid ≠ parent then s
  else
    let s := s.mapTask i fun task => { task with ppid := taskNoParent }
    if (s.pool i).state = .zombie then releaseZombieSlot s i else s

def taskOrphanChildren (s : State) (parent : Slot) : State :=
  ((List.finRange 16).filter (· ≠ 0)).foldl (orphanChild (s.pool parent).pid) s

def taskWakeWaitingParent (s : State) (child : Slot) : State :=
  let ppid := (s.pool child).ppid
  if ppid = taskNoParent then s
  else
    match (List.finRange 16).find? fun i => (s.pool i).state ≠ .unused ∧ (s.pool i).pid = ppid with
    | none => s
    | some p =>
      let parent := s.pool p
      if parent.state = .blocked ∧ parent.waitActive = true ∧
          (parent.waitTarget = taskWaitAny ∨ parent.waitTarget = (s.pool child).pid) then
        taskUnblock (s.mapTask p fun task => { task with waitActive := false }) p
      else s

/-- `task_mark_zombie`. Clearing the Linux thread id in user memory touches nothing
of the scheduler. Closing the descriptors may wake tasks that wait on a pipe; each
of these is a `task_unblock` of its own. -/
def taskMarkZombie (s : State) (t : Slot) (code : Int) (signal : UInt32) : State :=
  if (s.pool t).pid = 0 ∨ (s.pool t).state = .unused ∨ (s.pool t).state = .zombie then s
  else
    let s := (sleepCancelTask s t).mapTask t fun task =>
      { task with state := .zombie, exitCode := code, exitSignal := signal }
    taskOrphanChildren (taskWakeWaitingParent (queueRemove s t) t) t

def taskKill (s : State) (pid : UInt32) (code : Int) : State × Int :=
  if pid = 0 then (s, -1)
  else
    match taskLookupPid s pid with
    | none => (s, -1)
    | some target =>
      if target = s.current then (s, -1)
      else (taskMarkZombie s target code 0, 0)

def taskSignalProbe (s : State) (pid : Int32) : Int :=
  if pid ≤ 0 then -22
  else
    match taskLookupPid s pid.toUInt32 with
    | none => -3
    | some target =>
      if (s.pool target).state = .zombie then -3
      else if target = s.current ∨ (s.pool target).ppid = (s.pool s.current).pid then 0 else -1

def taskSendSignal (s : State) (pid : Int32) (sig : Int) : State × Int :=
  if sig = 0 then (s, taskSignalProbe s pid)
  else if pid ≤ 0 ∨ (sig ≠ 15 ∧ sig ≠ 9) then (s, -22)
  else
    match taskLookupPid s pid.toUInt32 with
    | none => (s, -3)
    | some target =>
      if (s.pool target).state = .zombie then (s, -3)
      else if target = s.current ∨ (s.pool target).ppid ≠ (s.pool s.current).pid then (s, -1)
      else
        let signal := UInt32.ofNat sig.toNat
        let s := s.mapTask target fun task => { task with pendingSignal := signal }
        (taskMarkZombie s target 0 signal, 0)

/-! ### The tick -/

/-- One round of the deadline loop of `sched_tick`. -/
def wakeSleeper (s : State) (i : Slot) : State :=
  if (s.sleep i).active = true ∧ (s.pool i).state = .blocked ∧
      (s.uptimeTicks - (s.sleep i).deadline).toInt32 ≥ 0 then
    taskUnblock { s with
      sleep := Function.update s.sleep i { s.sleep i with active := false } } i
  else s

/-- Make `t` the current task. -/
def switchTo (s : State) (t : Slot) : State :=
  { s with current := t }.setState t .running

/-- The deadline loop of `sched_tick`. -/
def wakeSleepers (s : State) : State :=
  ((List.finRange 16).filter (· ≠ 0)).foldl wakeSleeper s

/-- The quantum of the current task is used up with this tick. -/
def Due (s : State) : Prop :=
  (s.pool s.current).priority * quantumBase ≤ s.quantumCounter + 1

instance (s : State) : Decidable (Due s) := inferInstanceAs (Decidable (_ ≤ _))

/-- The rest of `sched_tick`: whether to switch, and to whom. -/
def selectNext (s : State) : Option State :=
  let cur := s.pool s.current
  match s.runQueueHead with
  | none =>
    if cur.pid ≠ 0 ∧ (cur.state = .zombie ∨ cur.state = .blocked) then some (switchTo s 0)
    else some s
  | some head =>
    if ¬Due s then some { s with quantumCounter := s.quantumCounter + 1 }
    else
      let s := { s with quantumCounter := 0 }
      match search s.link (fun t => (s.pool t).state = .ready ∧ t ≠ s.current) head 16 head with
      | none => none
      | some none => some s
      | some (some next) =>
        let s := if cur.state = .running then s.setState s.current .ready else s
        some (switchTo s next)

def schedTick (s : State) : Option State :=
  selectNext (wakeSleepers { s with uptimeTicks := s.uptimeTicks + 1 })

/-- The scan for a successor when a task leaves the processor inside a system call. -/
def nextReady (s : State) : Option Slot :=
  match s.runQueueHead with
  | none => none
  | some head => (search s.link (fun t => (s.pool t).state = .ready) head 16 head).join

/-- Switch away from a task that left the run queue, to the idle task if need be. -/
def switchAway (s : State) : State := switchTo s ((nextReady s).getD 0)

/-! ### Leaving the processor -/

/-- `task_exit`: `task_yield` raises the timer interrupt. -/
def taskExit (s : State) (code : Int) : Option State :=
  if (s.pool s.current).pid = 0 then some s
  else schedTick (taskMarkZombie s s.current code 0)

/-- `task_exit_from_syscall`; the idle task would halt here. -/
def taskExitFromSyscall (s : State) (code : Int) : State :=
  if (s.pool s.current).pid = 0 then s
  else switchAway (taskMarkZombie s s.current code 0)

def taskBlock (s : State) : Option State :=
  schedTick (queueRemove (s.setState s.current .blocked) s.current)

def taskBlockFromSyscall (s : State) : State :=
  if (s.pool s.current).pid = 0 then s
  else switchAway (queueRemove (s.setState s.current .blocked) s.current)

def taskSleepTicksFromSyscall (s : State) (ticks : UInt32) : State × Int :=
  let cur := s.pool s.current
  if cur.pid = 0 ∨ cur.hasAddressSpace = false then (s, -1)
  else if ticks = 0 then (s, 0)
  else if (s.sleep s.current).active then (s, -1)
  else
    (taskBlockFromSyscall { s with
      sleep := Function.update s.sleep s.current ⟨s.uptimeTicks + ticks, true⟩ }, 0)

/-! ### Waiting for a child -/

def taskIsDirectChild (s : State) (parent child : Slot) (pid : Int32) : Bool :=
  (s.pool child).state ≠ .unused ∧ (s.pool child).ppid = (s.pool parent).pid ∧
    (pid = -1 ∨ (s.pool child).pid = pid.toUInt32)

def taskWaitStatus (t : Task) : Int :=
  if t.exitSignal ≠ 0 then (t.exitSignal &&& 0x7f).toNat else t.exitCode % 256 * 256

/-- What `task_waitpid` comes back with: its result, and the status it stores. -/
structure Waited where
  result : Int
  status : Option Int

/-- One round of the loop of `task_waitpid`. Without a result the caller has left
the processor inside the round. -/
def waitpidRound (s : State) (pid : Int32) (options : UInt32) : Option (State × Option Waited) :=
  let parent := s.current
  let stopWaiting (s : State) := s.mapTask parent fun task => { task with waitActive := false }
  let children := (List.finRange 16).filter fun i => i ≠ 0 ∧ taskIsDirectChild s parent i pid
  match children.find? fun i => (s.pool i).state = .zombie with
  | some t =>
    some (releaseZombieSlot (stopWaiting s) t,
      some ⟨(s.pool t).pid.toInt32.toInt, some (taskWaitStatus (s.pool t))⟩)
  | none =>
    if children = [] then some (stopWaiting s, some ⟨-10, none⟩)
    else if options &&& 1 ≠ 0 then some (s, some ⟨0, none⟩)
    else
      let s := s.mapTask parent fun task =>
        { task with
          waitTarget := if pid < 0 then taskWaitAny else pid.toUInt32
          waitActive := true }
      if (s.pool parent).hasAddressSpace then some (taskBlockFromSyscall s, none)
      else (taskBlock s).map (·, none)

def taskWaitpid (s : State) (pid : Int32) (options : UInt32) : Option (State × Option Waited) :=
  if pid = 0 ∨ pid < -1 ∨ options &&& ~~~1 ≠ 0 then some (s, some ⟨-22, none⟩)
  else waitpidRound s pid options

/-- The next round, when the processor has come back to a task that left it in
`task_waitpid`. -/
def taskWaitpidResume (s : State) (pid : Int32) (options : UInt32) :
    Option (State × Option Waited) :=
  waitpidRound (s.mapTask s.current fun task => { task with waitActive := false }) pid options

/-! ### Groups and sessions -/

/-- `task_visible_target`: the caller or one of its children. -/
def taskVisibleTarget (s : State) (pid : Int32) : Option Slot :=
  if pid = 0 then some s.current
  else if pid < 0 then none
  else
    match taskLookupPid s pid.toUInt32 with
    | none => none
    | some target =>
      if target ≠ s.current ∧ (s.pool target).ppid ≠ (s.pool s.current).pid then none
      else some target

def taskSetpgid (s : State) (pid pgid : Int32) : State × Int :=
  match taskVisibleTarget s pid with
  | none => (s, -1)
  | some target =>
    if pgid < 0 ∨ (s.pool target).state = .zombie then (s, -1)
    else
      let newpgid := if pgid ≠ 0 then pgid.toUInt32 else (s.pool target).pid
      let allowed :=
        if newpgid ≠ (s.pool target).pid then
          match taskLookupPid s newpgid with
          | none => false
          | some leader => (s.pool leader).sid = (s.pool target).sid
        else true
      if allowed then (s.mapTask target fun task => { task with pgid := newpgid }, 0)
      else (s, -1)

def taskSetsid (s : State) : State × Int :=
  let t := s.pool s.current
  if t.pid = 0 ∨ t.pgid = t.pid then (s, -1)
  else
    (s.mapTask s.current fun task => { task with sid := task.pid, pgid := task.pid },
      t.pid.toInt32.toInt)

end AtmKoala.Sched
