import AtmKoala.Sched.Control

/-!
What each operation of the scheduler does to who the tasks are.

Queueing, waking and switching change the state, the link and the waiting fields
of a task. The rest, its pid, its parent, its group and session and how it ended,
is what its relatives see of it:

* `State.person`: this view of a slot;
* `Same`: nobody has changed. Most operations keep everybody
  (`schedTick_same`, `taskBlock_same`, …);
* `taskMarkZombie_person`: the end of a task (`buried`);
* `taskCreate_person`, `reaped_person`: births and reaping.

A zombie that `task_exit` returned to and that goes on to block is alive again, so
blocking asks for a caller that is not a zombie.
-/

namespace AtmKoala.Sched

open Lib
open Function (update_of_ne update_self)

variable {s s' : State} {q : List Slot} {t : Slot}

/-! ### The view -/

/-- A task as its relatives see it. -/
@[ext] structure Person where
  pid : UInt32
  ppid : UInt32
  pgid : UInt32
  sid : UInt32
  /-- The status its parent is told, once it has ended. -/
  ended : Option Int
deriving DecidableEq

def Task.person (task : Task) : Option Person :=
  if task.state = .unused then none
  else some
    { pid := task.pid
      ppid := task.ppid
      pgid := task.pgid
      sid := task.sid
      ended := if task.state = .zombie then some (taskWaitStatus task) else none }

/-- Who lives in slot `t`. -/
def State.person (s : State) (t : Slot) : Option Person := (s.pool t).person

/-- Neither free nor a zombie. -/
def Alive (task : Task) : Prop := task.state ≠ .unused ∧ task.state ≠ .zombie

instance (task : Task) : Decidable (Alive task) := inferInstanceAs (Decidable (_ ∧ _))

theorem Task.person_eq_none {task : Task} : task.person = none ↔ task.state = .unused := by
  unfold Task.person
  split <;> simp [*]

theorem Task.person_of_alive {task : Task} (alive : Alive task) :
    task.person = some ⟨task.pid, task.ppid, task.pgid, task.sid, none⟩ := by
  simp [Task.person, alive.1, alive.2]

theorem Task.person_of_zombie {task : Task} (zombie : task.state = .zombie) :
    task.person =
      some ⟨task.pid, task.ppid, task.pgid, task.sid, some (taskWaitStatus task)⟩ := by
  simp [Task.person, zombie]

@[simp] theorem Task.person_zero : Task.zero.person = none := by decide

theorem alive_of_runnable {task : Task} (runnable : Runnable task.state) : Alive task := by
  rcases runnable with ready | running
  · simp [Alive, ready]
  · simp [Alive, running]

/-- A task is alive if its person has not ended. -/
theorem alive_iff {task : Task} : Alive task ↔ ∃ p, task.person = some p ∧ p.ended = none := by
  constructor
  · intro alive
    exact ⟨_, Task.person_of_alive alive, rfl⟩
  · rintro ⟨p, eq, running⟩
    unfold Task.person at eq
    split at eq
    · cases eq
    · rename_i used
      obtain rfl := Option.some.inj eq
      refine ⟨used, fun zombie => ?_⟩
      simp [zombie] at running

theorem person_of_used {task : Task} (used : task.state ≠ .unused) :
    ∃ p, task.person = some p ∧ p.pid = task.pid ∧ p.ppid = task.ppid ∧
      (p.ended = none ↔ task.state ≠ .zombie) := by
  refine ⟨_, if_neg used, rfl, rfl, ?_⟩
  dsimp only
  split
  · rename_i zombie
    simp [zombie]
  · rename_i alive
    simp [alive]

/-! ### Operations that change nobody -/

/-- Nobody has changed. -/
structure Same (s s' : State) : Prop where
  person : s'.person = s.person
  nextPid : s'.nextPid = s.nextPid

theorem Same.refl (s : State) : Same s s := ⟨rfl, rfl⟩

theorem Same.trans {s'' : State} (first : Same s s') (second : Same s' s'') : Same s s'' :=
  ⟨second.person.trans first.person, second.nextPid.trans first.nextPid⟩

theorem same_relink (s : State) (links : Slot → Option Slot) (head : Option Slot) :
    Same s (s.relink links head) := ⟨rfl, rfl⟩

theorem same_mapTask (s : State) (t : Slot) {f : Task → Task}
    (keeps : (f (s.pool t)).person = (s.pool t).person) : Same s (s.mapTask t f) := by
  refine ⟨funext fun u => ?_, rfl⟩
  by_cases h : u = t
  · subst h
    exact (congrArg Task.person (State.mapTask_self ..)).trans keeps
  · exact congrArg Task.person (State.mapTask_of_ne _ _ h)

/-- A change between the states of a live task. -/
theorem same_setState {st : TaskState} (alive : Alive (s.pool t)) (used : st ≠ .unused)
    (running : st ≠ .zombie) : Same s (s.setState t st) := by
  refine same_mapTask s t ?_
  rw [Task.person_of_alive alive]
  simp [Task.person, used, running]

theorem taskUnblock_same (sound : Sound s q) (t : Slot) : Same s (taskUnblock s t) := by
  by_cases blocked : (s.pool t).state = .blocked
  · obtain ⟨links, head, eq, -⟩ := taskUnblock_eq sound blocked
    rw [eq]
    have alive : Alive (s.pool t) := by simp [Alive, blocked]
    exact (same_setState alive TaskState.noConfusion TaskState.noConfusion).trans
      (same_relink _ links head)
  · have unchanged : taskUnblock s t = s := by
      simp only [taskUnblock, ne_eq, blocked, not_false_eq_true, if_true]
    rw [unchanged]
    exact .refl s

theorem wakeSleepers_same (sound : Sound s q) : Same s (wakeSleepers s) := by
  unfold wakeSleepers
  generalize (List.finRange 16).filter (· ≠ 0) = slots
  induction slots generalizing s q with
  | nil => exact .refl s
  | cons i slots ih =>
    obtain ⟨woken, woke, -⟩ := wakeSleeper_woke sound i
    have first : Same s (wakeSleeper s i) := by
      unfold wakeSleeper
      split
      · have asleep := sound.sleep
          (Function.update s.sleep i { s.sleep i with active := false })
        have unblocked := taskUnblock_same asleep i
        exact ⟨unblocked.person, unblocked.nextPid⟩
      · exact .refl s
    exact first.trans (ih woke.sound)

/-- The processor goes to a live task. -/
theorem switchTo_same (alive : Alive (s.pool t)) : Same s (switchTo s t) := by
  have same : Same { s with current := t } (({ s with current := t } : State).setState t .running) :=
    same_setState alive TaskState.noConfusion TaskState.noConfusion
  exact ⟨same.person, same.nextPid⟩

theorem Sound.idle_alive (sound : Sound s q) : Alive (s.pool 0) :=
  ⟨sound.idleUsed, sound.idleAlive⟩

theorem pause_same (s : State) : Same s (pause s) := by
  unfold pause
  split
  · rename_i running
    exact same_setState (alive_of_runnable (.inr running)) TaskState.noConfusion
      TaskState.noConfusion
  · exact .refl s

theorem selectNext_same (sound : Sound s q) (selected : selectNext s = some s') : Same s s' := by
  rw [selectNext_eq sound] at selected
  obtain rfl := Option.some.inj selected
  split
  · split
    · exact switchTo_same sound.idle_alive
    · exact .refl s
  · split
    · exact ⟨rfl, rfl⟩
    · split
      · exact ⟨rfl, rfl⟩
      · rename_i next found
        have sound₁ := (sound.quantum 0).pause
        have alive := alive_of_runnable (sound₁.runnable next (List.mem_of_find?_eq_some found))
        have paused := pause_same { s with quantumCounter := 0 }
        have same := paused.trans (switchTo_same alive)
        exact ⟨same.person, same.nextPid⟩

theorem schedTick_same (sound : Sound s q) (ticked : schedTick s = some s') : Same s s' := by
  have sound₁ := sound.uptime (s.uptimeTicks + 1)
  obtain ⟨woken, woke, -⟩ := wakeSleepers_woke sound₁
  have slept := wakeSleepers_same sound₁
  have same := slept.trans (selectNext_same woke.sound ticked)
  exact ⟨same.person, same.nextPid⟩

theorem switchAway_same (sound : Sound s q) : Same s (switchAway s) := by
  refine switchTo_same ?_
  rcases nextReady_mem sound with mem | idle
  · exact alive_of_runnable (sound.runnable _ mem)
  · rw [idle]
    exact sound.idle_alive

/-- A live task stops and leaves the queue. -/
theorem stop_same (sound : Sound s q) (alive : Alive (s.pool s.current)) :
    Same s (queueRemove (s.setState s.current .blocked) s.current) := by
  obtain ⟨links, head, removed, -⟩ := blocked_sound sound
  rw [removed]
  exact (same_setState alive TaskState.noConfusion TaskState.noConfusion).trans
    (same_relink _ links head)

theorem taskBlock_same (sound : Sound s q) (alive : Alive (s.pool s.current))
    (done : taskBlock s = some s') : Same s s' := by
  have stopped := stop_same sound alive
  obtain ⟨links, head, removed, sound₁⟩ := blocked_sound sound
  unfold taskBlock at done
  rw [removed] at done stopped
  exact stopped.trans (schedTick_same sound₁ done)

theorem taskBlockFromSyscall_same (sound : Sound s q) (alive : Alive (s.pool s.current)) :
    Same s (taskBlockFromSyscall s) := by
  have stopped := stop_same sound alive
  obtain ⟨links, head, removed, sound₁⟩ := blocked_sound sound
  unfold taskBlockFromSyscall
  split
  · exact .refl s
  · rw [removed] at stopped ⊢
    exact stopped.trans (switchAway_same sound₁)

theorem taskWakeWaitingParent_same (sound : Sound s q) (child : Slot) :
    Same s (taskWakeWaitingParent s child) := by
  unfold taskWakeWaitingParent
  dsimp only
  split
  · exact .refl s
  · split
    · exact .refl s
    · split
      · rename_i p _ _
        have sound₁ : Sound (s.mapTask p fun task => { task with waitActive := false }) q :=
          sound.mapTask p (fun _ => rfl) (fun _ => rfl) (fun _ => rfl)
        exact (same_mapTask s p rfl).trans (taskUnblock_same sound₁ p)
      · exact .refl s

/-! ### The end of a task -/

/-- The status of a task that ended with this code and signal. -/
def endStatus (code : Int) (signal : UInt32) : Int :=
  if signal ≠ 0 then (signal &&& 0x7f).toNat else code % 256 * 256

/-- What `task_orphan_children` does to the person in slot `i` when the parent
`pid` ends while slot `current` has the processor. -/
def forsake (current : Slot) (pid : UInt32) (i : Slot) (p : Person) : Option Person :=
  if p.ppid = pid then
    if p.ended.isSome ∧ i ≠ current then none else some { p with ppid := taskNoParent }
  else some p

/-- The slots after the task in slot `t` has ended with `status`. -/
def buried (current t : Slot) (pid : UInt32) (status : Int) (people : Slot → Option Person) :
    Slot → Option Person :=
  let people := Function.update people t ((people t).map fun p => { p with ended := some status })
  fun i => if i = 0 then people 0 else (people i).bind (forsake current pid i)

theorem releaseZombieSlot_nextPid (s : State) (t : Slot) :
    (releaseZombieSlot s t).nextPid = s.nextPid := by
  unfold releaseZombieSlot
  split
  · rfl
  · rfl

/-- Slot `t` is freed if it holds a zombie that is not current. -/
theorem releaseZombieSlot_person (s : State) (t : Slot) :
    (releaseZombieSlot s t).person =
      if t ≠ s.current ∧ (s.pool t).state = .zombie then Function.update s.person t none
      else s.person := by
  unfold releaseZombieSlot
  by_cases refused : t = s.current ∨ (s.pool t).state ≠ .zombie
  · rw [if_pos refused, if_neg]
    exact fun h => refused.elim h.1 fun other => other h.2
  · rw [not_or, not_not] at refused
    rw [if_neg (by simp [refused]), if_pos refused]
    funext u
    by_cases h : u = t
    · subst h
      rw [update_self]
      exact (congrArg Task.person (State.mapTask_self ..)).trans Task.person_zero
    · rw [update_of_ne h]
      exact congrArg Task.person (State.mapTask_of_ne _ _ h)

theorem orphanChild_person (pid : UInt32) (s : State) (i : Slot) :
    (orphanChild pid s i).person =
      Function.update s.person i ((s.person i).bind (forsake s.current pid i)) := by
  have same : ∀ {value}, value = s.person i → s.person = Function.update s.person i value := by
    rintro _ rfl
    exact (Function.update_eq_self i s.person).symm
  unfold orphanChild
  by_cases free : (s.pool i).state = .unused
  · rw [if_pos (.inl free)]
    have nobody : s.person i = none := Task.person_eq_none.mpr free
    exact same (by rw [nobody]; rfl)
  by_cases stranger : (s.pool i).ppid ≠ pid
  · rw [if_pos (.inr stranger)]
    refine same ?_
    unfold State.person Task.person
    simp [free, forsake, stranger]
  rw [not_not] at stranger
  rw [if_neg (by simp [free, stranger])]
  dsimp only
  set s₁ := s.mapTask i fun task => { task with ppid := taskNoParent } with s₁_eq
  have cut : s₁.pool i = { s.pool i with ppid := taskNoParent } := State.mapTask_self ..
  have others : ∀ u, u ≠ i → s₁.person u = s.person u := fun u ne =>
    congrArg Task.person (State.mapTask_of_ne _ _ ne)
  by_cases zombie : (s.pool i).state = .zombie
  · rw [if_pos (by rw [cut]; exact zombie), releaseZombieSlot_person]
    have before : s.person i = some ⟨(s.pool i).pid, (s.pool i).ppid, (s.pool i).pgid,
        (s.pool i).sid, some (taskWaitStatus (s.pool i))⟩ := Task.person_of_zombie zombie
    by_cases current : i = s.current
    · rw [if_neg (fun h => h.1 current), before]
      funext u
      by_cases h : u = i
      · subst h
        rw [update_self]
        show (s₁.pool u).person = _
        rw [cut, Task.person_of_zombie (by exact zombie)]
        simp [forsake, stranger, ← current]
        rfl
      · rw [update_of_ne h, others u h]
    · rw [if_pos ⟨current, by rw [cut]; exact zombie⟩, before]
      funext u
      by_cases h : u = i
      · subst h
        simp [forsake, stranger, current]
      · rw [update_of_ne h, update_of_ne h, others u h]
  · rw [if_neg (by rw [cut]; exact zombie)]
    have before : s.person i = some ⟨(s.pool i).pid, (s.pool i).ppid, (s.pool i).pgid,
        (s.pool i).sid, none⟩ := Task.person_of_alive ⟨free, zombie⟩
    rw [before]
    funext u
    by_cases h : u = i
    · subst h
      rw [update_self]
      show (s₁.pool u).person = _
      rw [cut, Task.person_of_alive (by exact ⟨free, zombie⟩)]
      simp [forsake, stranger]
    · rw [update_of_ne h, others u h]

theorem orphanChild_nextPid (pid : UInt32) (s : State) (i : Slot) :
    (orphanChild pid s i).nextPid = s.nextPid := by
  unfold orphanChild
  split
  · rfl
  · dsimp only
    split
    · exact releaseZombieSlot_nextPid _ _
    · rfl

theorem taskOrphanChildren_nextPid (s : State) (t : Slot) :
    (taskOrphanChildren s t).nextPid = s.nextPid := by
  unfold taskOrphanChildren
  generalize (List.finRange 16).filter (· ≠ 0) = slots
  generalize (s.pool t).pid = pid
  induction slots generalizing s with
  | nil => rfl
  | cons i slots ih => exact (ih _).trans (orphanChild_nextPid pid s i)

/-- **The children of a parent that ends**: the zombies among them are freed, the
others have no parent from now on. -/
theorem taskOrphanChildren_person (s : State) (t : Slot) (i : Slot) :
    (taskOrphanChildren s t).person i =
      if i = 0 then s.person 0 else (s.person i).bind (forsake s.current (s.pool t).pid i) := by
  unfold taskOrphanChildren
  generalize (s.pool t).pid = pid
  have fold : ∀ (slots : List Slot) (s : State), slots.Nodup → (∀ i ∈ slots, i ≠ 0) →
      (slots.foldl (orphanChild pid) s).person i =
        if i ∈ slots then (s.person i).bind (forsake s.current pid i) else s.person i := by
    intro slots
    induction slots with
    | nil => exact fun s _ _ => rfl
    | cons j slots ih =>
      intro s apart nonzero
      obtain ⟨fresh, apart⟩ := List.nodup_cons.mp apart
      have kept := orphanChild_housekept pid s (nonzero j List.mem_cons_self)
      rw [List.foldl_cons, ih _ apart fun k mem => nonzero k (List.mem_cons_of_mem _ mem),
        orphanChild_person, kept.current]
      by_cases h : i = j
      · subst h
        rw [if_neg fresh, if_pos List.mem_cons_self, update_self]
      · rw [update_of_ne h]
        simp [h]
  rw [fold _ s ((List.nodup_finRange 16).filter _) fun i mem => by simpa using mem]
  by_cases h : i = 0
  · subst h
    simp
  · simp [h]

theorem taskMarkZombie_dead {code : Int} {signal : UInt32} (dead : ¬Alive (s.pool t)) :
    taskMarkZombie s t code signal = s := by
  refine taskMarkZombie_refused ?_
  by_contra live
  rw [not_or, not_or] at live
  exact dead live.2

/-- **The end of a task.** -/
theorem taskMarkZombie_person (sound : Sound s q) (code : Int) (signal : UInt32)
    (pid : (s.pool t).pid ≠ 0) (alive : Alive (s.pool t)) :
    (taskMarkZombie s t code signal).person =
        buried s.current t (s.pool t).pid (endStatus code signal) s.person ∧
      (taskMarkZombie s t code signal).nextPid = s.nextPid := by
  have only := only_marked s t code signal
  have task := marked_self s t code signal
  obtain ⟨links, head, sound₁, eq⟩ := taskMarkZombie_eq sound code signal pid alive.2 alive.1
  set s₁ := (marked s t code signal).relink links head with s₁_eq
  obtain ⟨woken, woke, -⟩ := taskWakeWaitingParent_woke sound₁ t
  have same := taskWakeWaitingParent_same sound₁ t
  have marks : s₁.person = Function.update s.person t
      ((s.person t).map fun p => { p with ended := some (endStatus code signal) }) := by
    funext u
    by_cases h : u = t
    · subst h
      rw [update_self]
      show (s₁.pool u).person = ((s.pool u).person).map _
      rw [Task.person_of_alive alive, s₁_eq, State.relink_pool, task,
        Task.person_of_zombie (by rfl)]
      rfl
    · rw [update_of_ne h]
      show (s₁.pool u).person = (s.pool u).person
      rw [s₁_eq, State.relink_pool, only.others u h]
      rfl
  have parentPid : ((taskWakeWaitingParent s₁ t).pool t).pid = (s.pool t).pid := by
    have here : (taskWakeWaitingParent s₁ t).person t = s₁.person t := congrFun same.person t
    rw [marks, update_self] at here
    have before : s.person t = some _ := Task.person_of_alive alive
    rw [before] at here
    have zombie : ((taskWakeWaitingParent s₁ t).pool t).state ≠ .unused := by
      intro free
      have nobody : (taskWakeWaitingParent s₁ t).person t = none := Task.person_eq_none.mpr free
      rw [nobody] at here
      cases here
    unfold State.person Task.person at here
    rw [if_neg zombie] at here
    exact congrArg Person.pid (Option.some.inj here)
  rw [eq]
  constructor
  · funext i
    rw [taskOrphanChildren_person, same.person, marks, parentPid, woke.steady.current]
    rfl
  · rw [taskOrphanChildren_nextPid, same.nextPid]
    rfl

/-- The task that the operation ends, and the status it ends with. A task that is a
zombie already stays as it is. -/
def victim (s : State) : Op → Option (Slot × Int)
  | .exit code | .exitFromSyscall code =>
    if (s.pool s.current).pid = 0 then none else some (s.current, endStatus code 0)
  | .kill pid code =>
    if pid = 0 then none
    else (taskLookupPid s pid).bind fun t =>
      if t = s.current then none else some (t, endStatus code 0)
  | .sendSignal pid sig =>
    if sig = 0 ∨ pid ≤ 0 ∨ (sig ≠ 15 ∧ sig ≠ 9) then none
    else (taskLookupPid s pid.toUInt32).bind fun t =>
      if (s.pool t).state = .zombie ∨ t = s.current ∨
          (s.pool t).ppid ≠ (s.pool s.current).pid then none
      else some (t, endStatus 0 (UInt32.ofNat sig.toNat))
  | _ => none

theorem taskLookupPid_some {pid : UInt32} (found : taskLookupPid s pid = some t) :
    (s.pool t).state ≠ .unused ∧ (s.pool t).pid = pid := by
  simpa using List.find?_some found

theorem toUInt32_ne_zero {pid : Int32} (positive : ¬pid ≤ 0) : pid.toUInt32 ≠ 0 := by
  intro zero
  have isZero : pid = 0 := by rw [← Int32.toInt32_toUInt32 pid, zero]; rfl
  rw [isZero] at positive
  exact positive (by decide)

/-- The ways in which an operation ends the task in slot `t`. -/
inductive Ending (s : State) (t : Slot) (status : Int) (s' : State) : Prop where
  | exit (code : Int) : t = s.current → status = endStatus code 0 →
      schedTick (taskMarkZombie s t code 0) = some s' → Ending s t status s'
  | exitFromSyscall (code : Int) : t = s.current → status = endStatus code 0 →
      s' = switchAway (taskMarkZombie s t code 0) → Ending s t status s'
  | kill (code : Int) : t ≠ s.current → status = endStatus code 0 →
      s' = taskMarkZombie s t code 0 → Ending s t status s'
  | signal (signal : UInt32) : t ≠ s.current → status = endStatus 0 signal →
      s' = taskMarkZombie (s.mapTask t fun task => { task with pendingSignal := signal }) t 0
        signal → Ending s t status s'

theorem ending_of_victim {op : Op} {status : Int} (target : victim s op = some (t, status))
    (done : perform s op = some s') : (s.pool t).pid ≠ 0 ∧ Ending s t status s' := by
  cases op with
  | exit code =>
    have done : taskExit s code = some s' := done
    simp only [victim] at target
    split at target
    · cases target
    · rename_i pid
      obtain ⟨rfl, rfl⟩ := Prod.mk.inj (Option.some.inj target)
      rw [taskExit, if_neg pid] at done
      exact ⟨pid, .exit code rfl rfl done⟩
  | exitFromSyscall code =>
    have done : taskExitFromSyscall s code = s' := Option.some.inj done
    simp only [victim] at target
    split at target
    · cases target
    · rename_i pid
      obtain ⟨rfl, rfl⟩ := Prod.mk.inj (Option.some.inj target)
      rw [taskExitFromSyscall, if_neg pid] at done
      exact ⟨pid, .exitFromSyscall code rfl rfl done.symm⟩
  | kill pid code =>
    have done : (taskKill s pid code).1 = s' := Option.some.inj done
    simp only [victim] at target
    split at target
    · cases target
    · rename_i nonzero
      obtain ⟨u, found, chosen⟩ := Option.bind_eq_some_iff.mp target
      split at chosen
      · cases chosen
      · rename_i other
        obtain ⟨rfl, rfl⟩ := Prod.mk.inj (Option.some.inj chosen)
        simp only [taskKill, nonzero, found, other, if_false] at done
        refine ⟨?_, .kill code other rfl done.symm⟩
        rw [(taskLookupPid_some found).2]
        exact nonzero
  | sendSignal pid sig =>
    have done : (taskSendSignal s pid sig).1 = s' := Option.some.inj done
    simp only [victim] at target
    split at target
    · cases target
    · rename_i valid
      rw [not_or, not_or] at valid
      obtain ⟨u, found, chosen⟩ := Option.bind_eq_some_iff.mp target
      split at chosen
      · cases chosen
      · rename_i permitted
        obtain ⟨rfl, rfl⟩ := Prod.mk.inj (Option.some.inj chosen)
        rw [not_or] at permitted
        have accepted : ¬(pid ≤ 0 ∨ sig ≠ 15 ∧ sig ≠ 9) := by
          rw [not_or]
          exact valid.2
        simp only [taskSendSignal, valid.1, accepted, found, permitted.1, permitted.2, if_false]
          at done
        refine ⟨?_, .signal _ (not_or.mp permitted.2).1 rfl done.symm⟩
        rw [(taskLookupPid_some found).2]
        exact toUInt32_ne_zero valid.2.1
  | _ => cases target

/-- The calls that end tasks. -/
def Fatal : Op → Prop
  | .exit _ | .exitFromSyscall _ | .kill _ _ | .sendSignal _ _ => True
  | _ => False

/-- Without a victim such a call does nothing. -/
theorem fatal_spared {op : Op} (fatal : Fatal op) (spared : victim s op = none)
    (done : perform s op = some s') : s' = s := by
  cases op with
  | exit code =>
    have done : taskExit s code = some s' := done
    simp only [victim] at spared
    split at spared
    · rename_i idle
      rw [taskExit, if_pos idle] at done
      exact (Option.some.inj done).symm
    · cases spared
  | exitFromSyscall code =>
    have done : taskExitFromSyscall s code = s' := Option.some.inj done
    simp only [victim] at spared
    split at spared
    · rename_i idle
      rw [taskExitFromSyscall, if_pos idle] at done
      exact done.symm
    · cases spared
  | kill pid code =>
    have done : (taskKill s pid code).1 = s' := Option.some.inj done
    rw [← done]
    simp only [victim] at spared
    unfold taskKill
    split
    · rfl
    · rename_i nonzero
      rw [if_neg nonzero] at spared
      split
      · rfl
      · rename_i t found
        rw [found, Option.bind_some] at spared
        split
        · rfl
        · rename_i other
          rw [if_neg other] at spared
          cases spared
  | sendSignal pid sig =>
    have done : (taskSendSignal s pid sig).1 = s' := Option.some.inj done
    rw [← done]
    simp only [victim] at spared
    unfold taskSendSignal
    split
    · rfl
    · rename_i probe
      split
      · rfl
      · rename_i valid
        rw [if_neg (by rw [not_or]; exact ⟨probe, valid⟩)] at spared
        split
        · rfl
        · rename_i t found
          rw [found, Option.bind_some] at spared
          split
          · rfl
          · rename_i ends
            split
            · rfl
            · rename_i permitted
              rw [if_neg (by rw [not_or]; exact ⟨ends, permitted⟩)] at spared
              cases spared
  | _ => exact fatal.elim

/-- What the marks of a signal leave as it was. -/
theorem same_pending (s : State) (t : Slot) (signal : UInt32) :
    Same s (s.mapTask t fun task => { task with pendingSignal := signal }) :=
  same_mapTask s t rfl

/-- **An operation that ends a task** buries it if it is alive, and changes nobody
if it is a zombie. -/
theorem perform_victim (sound : Sound s q) {op : Op} {status : Int}
    (target : victim s op = some (t, status)) (done : perform s op = some s') :
    (¬Alive (s.pool t) ∧ Same s s') ∨
      (Alive (s.pool t) ∧ s'.nextPid = s.nextPid ∧
        s'.person = buried s.current t (s.pool t).pid status s.person) := by
  obtain ⟨pid, ending⟩ := ending_of_victim target done
  -- The end of the task itself; what follows changes nobody.
  have marks : ∀ code signal,
      (¬Alive (s.pool t) ∧ Same s (taskMarkZombie s t code signal)) ∨
        (Alive (s.pool t) ∧ (taskMarkZombie s t code signal).nextPid = s.nextPid ∧
          (taskMarkZombie s t code signal).person =
            buried s.current t (s.pool t).pid (endStatus code signal) s.person) := by
    intro code signal
    by_cases alive : Alive (s.pool t)
    · have ends := taskMarkZombie_person sound code signal pid alive
      exact .inr ⟨alive, ends.2, ends.1⟩
    · left
      rw [taskMarkZombie_dead alive]
      exact ⟨alive, .refl s⟩
  have follow : ∀ {s₁ : State} {status : Int}, Same s₁ s' →
      (¬Alive (s.pool t) ∧ Same s s₁) ∨ (Alive (s.pool t) ∧ s₁.nextPid = s.nextPid ∧
        s₁.person = buried s.current t (s.pool t).pid status s.person) →
      (¬Alive (s.pool t) ∧ Same s s') ∨ (Alive (s.pool t) ∧ s'.nextPid = s.nextPid ∧
        s'.person = buried s.current t (s.pool t).pid status s.person) := by
    intro s₁ status same first
    rcases first with ⟨dead, early⟩ | ⟨alive, nextPid, person⟩
    · exact .inl ⟨dead, early.trans same⟩
    · exact .inr ⟨alive, same.nextPid.trans nextPid, same.person.trans person⟩
  cases ending with
  | exit code _ statusEq ticked =>
    subst statusEq
    obtain ⟨q', sound₁⟩ := taskMarkZombie_ordered sound t code 0
    exact follow (schedTick_same sound₁ ticked) (marks code 0)
  | exitFromSyscall code _ statusEq away =>
    subst statusEq away
    obtain ⟨q', sound₁⟩ := taskMarkZombie_ordered sound t code 0
    exact follow (switchAway_same sound₁) (marks code 0)
  | kill code _ statusEq marked =>
    subst statusEq marked
    exact marks code 0
  | signal signal _ statusEq marked =>
    subst statusEq
    have same := same_pending s t signal
    set s₁ := s.mapTask t fun task => { task with pendingSignal := signal } with s₁_eq
    have sound₁ : Sound s₁ q := sound.mapTask t (fun _ => rfl) (fun _ => rfl) (fun _ => rfl)
    have task : s₁.pool t = { s.pool t with pendingSignal := signal } := State.mapTask_self ..
    by_cases alive : Alive (s.pool t)
    · have ends := taskMarkZombie_person (s := s₁) (t := t) sound₁ 0 signal (by rw [task]; exact pid)
        (by rw [task]; exact alive)
      rw [marked, ends.1, ends.2, same.person, same.nextPid, task]
      exact .inr ⟨alive, rfl, rfl⟩
    · have dead : ¬Alive (s₁.pool t) := by
        rw [task]
        exact alive
      rw [marked, taskMarkZombie_dead dead]
      exact .inl ⟨alive, same⟩

/-! ### Births -/

/-- A slot `task_create` may take: free, or held by a zombie without a parent. -/
def Vacant (s : State) (t : Slot) : Prop :=
  s.person t = none ∨ ∃ p, s.person t = some p ∧ p.ended.isSome ∧ p.ppid = taskNoParent

/-- The person that `task_create` makes: a child of the caller, in the group and
session of a caller with a pid, else in those of its own. -/
def newcomer (s : State) : Person :=
  let caller := s.pool s.current
  { pid := s.nextPid
    ppid := caller.pid
    pgid := if caller.pid ≠ 0 then caller.pgid else s.nextPid
    sid := if caller.pid ≠ 0 then caller.sid else s.nextPid
    ended := none }

/-- A vacant slot has been emptied. -/
structure Emptied (s s' : State) (t : Slot) : Prop where
  notIdle : t ≠ 0
  notCurrent : t ≠ s.current
  vacant : Vacant s t
  person : s'.person = Function.update s.person t none
  nextPid : s'.nextPid = s.nextPid
  current : s'.current = s.current
  caller : s'.pool s.current = s.pool s.current

theorem allocTaskSlot_emptied (sound : Sound s q) (alive : Alive (s.pool s.current))
    (found : allocTaskSlot s = (s', some t)) : Emptied s s' t := by
  obtain ⟨notIdle, only, kept, free⟩ := allocTaskSlot_spec sound found
  have notCurrent : t ≠ s.current := by
    rintro rfl
    exact free.elim alive.1 alive.2
  have caller := only.others s.current (Ne.symm notCurrent)
  unfold allocTaskSlot at found
  split at found
  · rename_i i chosen
    obtain ⟨rfl, rfl⟩ := Prod.mk.inj found |>.imp id Option.some.inj
    have unused : (s.pool i).state = .unused := by simpa using List.find?_some chosen
    have nobody : s.person i = none := Task.person_eq_none.mpr unused
    refine ⟨notIdle, notCurrent, .inl nobody, ?_, rfl, rfl, rfl⟩
    rw [← nobody, Function.update_eq_self]
  · split at found
    · rename_i i orphan
      obtain ⟨rfl, rfl⟩ := Prod.mk.inj found |>.imp id Option.some.inj
      obtain ⟨-, zombie, parentless⟩ :
          i ≠ 0 ∧ (s.pool i).state = .zombie ∧ (s.pool i).ppid = taskNoParent := by
        simpa using List.find?_some orphan
      refine ⟨notIdle, notCurrent, .inr ⟨_, Task.person_of_zombie zombie, rfl, parentless⟩, ?_,
        releaseZombieSlot_nextPid s i, kept.current, caller⟩
      rw [releaseZombieSlot_person, if_pos ⟨notCurrent, zombie⟩]
    · simp at found

/-- **`task_create` adds one person**, or at most empties a vacant slot. -/
theorem taskCreate_person (sound : Sound s q) (alive : Alive (s.pool s.current))
    (priority : UInt32) (stackOk : Bool) :
    (∃ t, (taskCreate s priority stackOk).2 = some t ∧ t ≠ 0 ∧ t ≠ s.current ∧ Vacant s t ∧
      (taskCreate s priority stackOk).1.person =
        Function.update s.person t (some (newcomer s)) ∧
      (taskCreate s priority stackOk).1.nextPid = s.nextPid + 1) ∨
    ((taskCreate s priority stackOk).2 = none ∧
      (Same s (taskCreate s priority stackOk).1 ∨
        ∃ t, Emptied s (taskCreate s priority stackOk).1 t)) := by
  rcases alloc : allocTaskSlot s with ⟨s₁, _ | t⟩
  · right
    have same : s₁ = s := by
      have := allocTaskSlot_none (s := s) (by rw [alloc])
      rwa [alloc] at this
    subst same
    simp only [taskCreate, alloc, true_and]
    exact .inl (.refl s₁)
  · have emptied := allocTaskSlot_emptied sound alive alloc
    obtain ⟨-, only, kept, free⟩ := allocTaskSlot_spec sound alloc
    cases stackOk with
    | false =>
      right
      simp only [taskCreate, alloc, Bool.not_false, if_true, true_and]
      exact .inr ⟨t, emptied⟩
    | true =>
      left
      have off : ¬Runnable (s.pool t).state := by
        rcases free with h | h <;> simp [Runnable, h]
      have filled := only_fillSlot s₁ t priority
      have ready := fillSlot_state s₁ t priority
      obtain ⟨links, head, added, -⟩ := (sound.housekept kept).enter filled
        (sound.notMem_of_state off) ready (fun h => absurd h emptied.notIdle)
      refine ⟨t, ?_, emptied.notIdle, emptied.notCurrent, emptied.vacant, ?_, ?_⟩
      · simp only [taskCreate, alloc, Bool.not_true, Bool.false_eq_true, if_false, added]
      · simp only [taskCreate, alloc, Bool.not_true, Bool.false_eq_true, if_false, added]
        funext u
        show ((fillSlot s₁ t priority).pool u).person = _
        by_cases h : u = t
        · subst h
          have alive₁ : Alive ((fillSlot s₁ u priority).pool u) := by simp [Alive, ready]
          rw [update_self, Task.person_of_alive alive₁]
          have other : s.current ≠ u := Ne.symm emptied.notCurrent
          simp [fillSlot, sleepCancelTask, State.mapTask, newcomer, emptied.current, other,
            emptied.caller, emptied.nextPid]
        · rw [update_of_ne h, filled.others u h]
          show s₁.person u = s.person u
          rw [emptied.person, update_of_ne h]
      · simp only [taskCreate, alloc, Bool.not_true, Bool.false_eq_true, if_false, added]
        show s₁.nextPid + 1 = s.nextPid + 1
        rw [emptied.nextPid]

/-! ### Reaping -/

theorem same_unwaiting (s : State) : Same s (unwaiting s) := same_mapTask s s.current rfl

theorem same_awaiting (s : State) (pid : Int32) : Same s (awaiting s pid) :=
  same_mapTask s s.current rfl

/-- **`task_waitpid` takes its zombie out of the pool.** -/
theorem reaped_person (s : State) (zombie : (s.pool t).state = .zombie) (ne : t ≠ s.current) :
    (releaseZombieSlot (unwaiting s) t).person = Function.update s.person t none ∧
      (releaseZombieSlot (unwaiting s) t).nextPid = s.nextPid := by
  constructor
  · rw [releaseZombieSlot_person, (same_unwaiting s).person, if_pos]
    refine ⟨ne, ?_⟩
    rw [unwaiting, State.mapTask_of_ne _ _ ne]
    exact zombie
  · rw [releaseZombieSlot_nextPid, (same_unwaiting s).nextPid]

/-! ### Who has the processor -/

/-- A slot in use stays in use while nobody changes. -/
theorem Same.used (same : Same s s') (used : (s.pool t).state ≠ .unused) :
    (s'.pool t).state ≠ .unused := by
  intro free
  have nobody : s'.person t = none := Task.person_eq_none.mpr free
  rw [same.person] at nobody
  exact used (Task.person_eq_none.mp nobody)

/-- The processor stays or goes to somebody alive. -/
theorem schedTick_turn (sound : Sound s q) (ticked : schedTick s = some s') :
    s'.current = s.current ∨ Alive (s'.pool s'.current) := by
  obtain ⟨woken, woke, -⟩ := wakeSleepers_woke (sound.uptime (s.uptimeTicks + 1))
  rcases selectNext_current woke.sound ticked with same | ⟨running, -⟩
  · exact .inl (same.trans woke.steady.current)
  · exact .inr (alive_of_runnable (.inr running))

theorem switchAway_turn (s : State) : Alive ((switchAway s).pool (switchAway s).current) := by
  refine alive_of_runnable (.inr ?_)
  simp [switchAway, switchTo, State.setState]

theorem schedTick_used (sound : Sound s q) (used : (s.pool s.current).state ≠ .unused)
    (ticked : schedTick s = some s') : (s'.pool s'.current).state ≠ .unused := by
  rcases schedTick_turn sound ticked with same | alive
  · rw [same]
    exact (schedTick_same sound ticked).used used
  · exact alive.1

/-- The task that has the processor keeps its slot when some task ends. -/
theorem buried_current {current t : Slot} {pid : UInt32} {status : Int}
    {people : Slot → Option Person} (used : people current ≠ none) :
    buried current t pid status people current ≠ none := by
  obtain ⟨p, here⟩ := Option.ne_none_iff_exists'.mp used
  unfold buried
  split
  · rename_i first
    subst first
    by_cases h : (0 : Slot) = t
    · subst h
      simp [here]
    · simp [h, here]
  · have kept : ∀ p : Person, forsake current pid current p ≠ none := by
      intro p
      unfold forsake
      split
      · rw [if_neg fun h => h.2 rfl]
        exact Option.some_ne_none _
      · exact Option.some_ne_none _
    by_cases h : current = t
    · subst h
      simp [here, kept]
    · simp [h, here, kept]

theorem taskMarkZombie_used (sound : Sound s q) (code : Int) (signal : UInt32)
    (pid : (s.pool t).pid ≠ 0) (used : (s.pool s.current).state ≠ .unused) :
    ((taskMarkZombie s t code signal).pool (taskMarkZombie s t code signal).current).state ≠
      .unused := by
  by_cases alive : Alive (s.pool t)
  · obtain ⟨woken, ended⟩ := taskMarkZombie_ended sound code signal pid alive.2 alive.1
    rw [ended.steady.current]
    intro free
    have nobody : (taskMarkZombie s t code signal).person s.current = none :=
      Task.person_eq_none.mpr free
    rw [(taskMarkZombie_person sound code signal pid alive).1] at nobody
    refine buried_current (fun h => ?_) nobody
    exact used (Task.person_eq_none.mp h)
  · rw [taskMarkZombie_dead alive]
    exact used

theorem taskMarkZombie_stays (sound : Sound s q) (code : Int) (signal : UInt32)
    (pid : (s.pool t).pid ≠ 0) : (taskMarkZombie s t code signal).current = s.current := by
  by_cases alive : Alive (s.pool t)
  · obtain ⟨woken, ended⟩ := taskMarkZombie_ended sound code signal pid alive.2 alive.1
    exact ended.steady.current
  · rw [taskMarkZombie_dead alive]

/-- When a task has ended the processor has stayed or has gone to somebody alive. -/
theorem ending_turn (sound : Sound s q) {status : Int} (pid : (s.pool t).pid ≠ 0)
    (ending : Ending s t status s') : s'.current = s.current ∨ Alive (s'.pool s'.current) := by
  cases ending with
  | exit code _ _ ticked =>
    obtain ⟨q₁, sound₁⟩ := taskMarkZombie_ordered sound t code 0
    have turn := schedTick_turn sound₁ ticked
    rwa [taskMarkZombie_stays sound code 0 pid] at turn
  | exitFromSyscall code _ _ away =>
    subst away
    exact .inr (switchAway_turn _)
  | kill code _ _ marked =>
    subst marked
    exact .inl (taskMarkZombie_stays sound code 0 pid)
  | signal signal _ _ marked =>
    subst marked
    set s₁ := s.mapTask t fun task => { task with pendingSignal := signal } with s₁_eq
    have sound₁ : Sound s₁ q := sound.mapTask t (fun _ => rfl) (fun _ => rfl) (fun _ => rfl)
    have task : s₁.pool t = { s.pool t with pendingSignal := signal } := State.mapTask_self ..
    exact .inl (taskMarkZombie_stays sound₁ 0 signal (by rw [task]; exact pid))

theorem ending_used (sound : Sound s q) (used : (s.pool s.current).state ≠ .unused) {status : Int}
    (pid : (s.pool t).pid ≠ 0) (ending : Ending s t status s') :
    (s'.pool s'.current).state ≠ .unused := by
  cases ending with
  | exit code _ _ ticked =>
    obtain ⟨q₁, sound₁⟩ := taskMarkZombie_ordered sound t code 0
    exact schedTick_used sound₁ (taskMarkZombie_used sound code 0 pid used) ticked
  | exitFromSyscall code _ _ away =>
    subst away
    exact (switchAway_turn _).1
  | kill code _ _ marked =>
    subst marked
    exact taskMarkZombie_used sound code 0 pid used
  | signal signal _ _ marked =>
    subst marked
    set s₁ := s.mapTask t fun task => { task with pendingSignal := signal } with s₁_eq
    have sound₁ : Sound s₁ q := sound.mapTask t (fun _ => rfl) (fun _ => rfl) (fun _ => rfl)
    have task : s₁.pool t = { s.pool t with pendingSignal := signal } := State.mapTask_self ..
    exact taskMarkZombie_used sound₁ 0 signal (by rw [task]; exact pid)
      ((same_pending s t signal).used used)

theorem taskBlock_used (sound : Sound s q) (alive : Alive (s.pool s.current))
    (done : taskBlock s = some s') : (s'.pool s'.current).state ≠ .unused := by
  have stopped := stop_same sound alive
  obtain ⟨links, head, removed, sound₁⟩ := blocked_sound sound
  unfold taskBlock at done
  rw [removed] at done stopped
  exact schedTick_used sound₁ (stopped.used alive.1) done

theorem taskBlockFromSyscall_used (used : (s.pool s.current).state ≠ .unused) :
    ((taskBlockFromSyscall s).pool (taskBlockFromSyscall s).current).state ≠ .unused := by
  unfold taskBlockFromSyscall
  split
  · exact used
  · exact (switchAway_turn _).1

end AtmKoala.Sched
