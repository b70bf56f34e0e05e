import AtmKoala.Sched.Effects

/-!
The idle task stays off the run queue.

`sched_init` leaves slot 0 out of the queue, to be run when the queue is empty.
But the boot context runs as slot 0, and when it blocks, in `task_block` or in
`task_waitpid`, waking it up puts it on the queue like any other task.

* `WakesIdle`: the operations that do so;
* `perform_idle`: one operation from a queue without the idle task;
* `idle_excluded`: every run without such an operation;
* `idle_queued`: a run with one.
-/

namespace AtmKoala.Sched

open Lib

variable {s s' : State} {q : List Slot} {t : Slot}

/-- The operation wakes up the idle task, which is blocked: `task_unblock` on it,
or the end of a child that it waits for. -/
def WakesIdle (s : State) (op : Op) : Prop :=
  (match op with
    | .unblock t => t = 0 ∧ (s.pool 0).state = .blocked
    | _ => False) ∨
  ∃ v ∈ victim s op, Alive (s.pool v.1) ∧ WaitsFor s 0 v.1

instance (s : State) (p t : Slot) : Decidable (WaitsFor s p t) :=
  inferInstanceAs (Decidable (_ ∧ _))

instance (s : State) (op : Op) : Decidable (WakesIdle s op) := by
  apply op.casesOn (motive := fun op => Decidable (WakesIdle s op)) <;>
    (intros; dsimp only [WakesIdle]; infer_instance)

/-- The processor has gone to the idle task with no other task ready. -/
def LastResort (s s' : State) : Prop :=
  s.current ≠ 0 → s'.current = 0 → ∀ t, t ≠ 0 → (s'.pool t).state ≠ .ready

/-- An operation that puts the idle task on the queue if it `wakes` it, and gives
it the processor as a last resort only if it does not. -/
structure Idles (s s' : State) (wakes : Prop) : Prop where
  queue : ∃ q, Sound s' q ∧ ((0 : Slot) ∈ q ↔ wakes)
  turn : ¬wakes → LastResort s s'

theorem Idles.stays {wakes : Prop} (queue : ∃ q, Sound s' q ∧ ((0 : Slot) ∈ q ↔ wakes))
    (current : s'.current = s.current) : Idles s s' wakes := by
  refine ⟨queue, fun _ notIdle idle => ?_⟩
  rw [current] at idle
  exact absurd idle notIdle

/-- The queue that an operation finds may lack a task that has just left it. -/
theorem Idles.of_current {s₁ : State} {wakes : Prop} (idles : Idles s₁ s' wakes)
    (current : s₁.current = s.current) : Idles s s' wakes := by
  refine ⟨idles.queue, fun asleep => ?_⟩
  have turn := idles.turn asleep
  unfold LastResort at turn
  rwa [current] at turn

/-! ### Switching -/

theorem selectNext_idles (sound : Sound s q) (selected : selectNext s = some s') :
    Idles s s' ((0 : Slot) ∈ q) := by
  obtain ⟨s'', eq, sound'⟩ := selectNext_sound sound
  obtain rfl : s'' = s' := Option.some.inj (eq.symm.trans selected)
  refine ⟨⟨q, sound', Iff.rfl⟩, fun off notIdle idle t ne ready => ?_⟩
  rcases selectNext_current sound selected with same | ⟨-, queued | ⟨empty, -⟩⟩
  · exact notIdle (same ▸ idle)
  · exact off (idle ▸ queued)
  · have mem := sound'.member t ne (.inl ready)
    rw [empty] at mem
    exact List.not_mem_nil mem

theorem schedTick_idles (sound : Sound s q) (ticked : schedTick s = some s') :
    Idles s s' ((0 : Slot) ∈ q) := by
  obtain ⟨woken, woke, idle⟩ := wakeSleepers_woke (sound.uptime (s.uptimeTicks + 1))
  have idles := (selectNext_idles woke.sound ticked).of_current (s := s) woke.steady.current
  have same : (0 : Slot) ∈ q ++ woken ↔ (0 : Slot) ∈ q := by simp [idle]
  rwa [same] at idles

theorem switchAway_idles (sound : Sound s q) (stopped : (s.pool s.current).state ≠ .running) :
    Idles s (switchAway s) ((0 : Slot) ∈ q) := by
  refine ⟨⟨q, switchAway_sound sound stopped, Iff.rfl⟩, fun off notIdle idle t ne ready => ?_⟩
  have next : (nextReady s).getD 0 = 0 := idle
  have before : (s.pool t).state = .ready := by
    have other : (switchAway s).pool t = s.pool t := Function.update_of_ne (by rwa [next]) ..
    rwa [other] at ready
  have mem := sound.member t ne (.inl before)
  -- The scan meets the ready task, so it does not fall back on the idle one.
  unfold nextReady at next
  have headEq := sound.queued.head
  cases q with
  | nil => exact List.not_mem_nil mem
  | cons a xs =>
    rw [List.head?_cons] at headEq
    simp only [headEq, sound.queued.search_eq, Option.join_some] at next
    cases found : (a :: xs).find? fun t => (s.pool t).state = .ready with
    | none =>
      have := List.find?_eq_none.mp found t mem
      exact this (by simpa using before)
    | some u =>
      rw [found] at next
      obtain rfl : u = 0 := next
      exact off (List.mem_of_find?_eq_some found)

/-! ### The end of a task -/

/-- Unless it waits for the task that ends, the idle task stays blocked. -/
theorem taskMarkZombie_still (sound : Sound s q) (code : Int) (signal : UInt32)
    (pid : (s.pool t).pid ≠ 0) (alive : Alive (s.pool t)) (blocked : (s.pool 0).state = .blocked)
    (other : ¬WaitsFor s 0 t) : ((taskMarkZombie s t code signal).pool 0).state = .blocked := by
  have notIdle : (0 : Slot) ≠ t := by
    rintro rfl
    exact pid sound.idlePid
  have only := only_marked s t code signal
  have task := marked_self s t code signal
  obtain ⟨links, head, sound₁, eq⟩ := taskMarkZombie_eq sound code signal pid alive.2 alive.1
  set s₁ := (marked s t code signal).relink links head with s₁_eq
  have child : s₁.pool t = { s.pool t with
      state := .zombie, exitCode := code, exitSignal := signal, next := links t } := by
    rw [s₁_eq, State.relink_pool, task]
  have idle : s₁.pool 0 = { s.pool 0 with next := links 0 } := by
    rw [s₁_eq, State.relink_pool, only.others 0 notIdle]
  have found : taskLookupPid s₁ (s.pool t).ppid = taskLookupPid s (s.pool t).ppid := by
    refine List.find?_congr fun u _ => ?_
    by_cases h : u = t
    · subst h
      simp [child, alive.1]
    · simp [s₁_eq, only.others u h]
  have still : ((taskWakeWaitingParent s₁ t).pool 0).state = .blocked := by
    have before : (s₁.pool 0).state = .blocked := by
      rw [idle]
      exact blocked
    unfold taskWakeWaitingParent
    unfold taskLookupPid at found
    simp only [child]
    split
    · exact before
    · rename_i parented
      rw [found]
      split
      · exact before
      · rename_i p chosen
        split
        · rename_i waits
          -- The parent that is woken is another task.
          have ne : (0 : Slot) ≠ p := by
            rintro rfl
            rw [idle] at waits
            exact other ⟨chosen, parented, waits⟩
          have sound₂ : Sound (s₁.mapTask p fun task => { task with waitActive := false })
              (q.erase t) := sound₁.mapTask p (fun _ => rfl) (fun _ => rfl) (fun _ => rfl)
          obtain ⟨woken, woke, which⟩ := taskUnblock_woke sound₂ p
          rw [woke.states 0 (fun mem => ?_), State.mapTask_of_ne _ _ ne]
          · exact before
          · rw [which] at mem
            split at mem
            · exact ne (List.mem_singleton.mp mem)
            · exact List.not_mem_nil mem
        · exact before
  rw [eq]
  rcases (taskOrphanChildren_housekept (taskWakeWaitingParent s₁ t) t).state 0 with
    same | ⟨zombie, -⟩
  · exact same.trans still
  · rw [still] at zombie
    cases zombie

/-- **The end of a task queues the idle one if that waits for it.** -/
theorem taskMarkZombie_idle (sound : Sound s q) (off : (0 : Slot) ∉ q) (code : Int)
    (signal : UInt32) (pid : (s.pool t).pid ≠ 0) :
    ∃ q', Sound (taskMarkZombie s t code signal) q' ∧
      ((0 : Slot) ∈ q' ↔ Alive (s.pool t) ∧ WaitsFor s 0 t) ∧
      (taskMarkZombie s t code signal).current = s.current := by
  by_cases alive : Alive (s.pool t)
  · obtain ⟨woken, ended⟩ := taskMarkZombie_ended sound code signal pid alive.2 alive.1
    have notIdle : (0 : Slot) ≠ t := by
      rintro rfl
      exact pid sound.idlePid
    refine ⟨_, ended.sound, ?_, ended.steady.current⟩
    have onlyWoken : (0 : Slot) ∈ q.erase t ++ woken ↔ (0 : Slot) ∈ woken := by
      rw [List.mem_append]
      exact or_iff_right fun mem => off (List.mem_of_mem_erase mem)
    rw [onlyWoken]
    constructor
    · intro mem
      refine ⟨alive, ?_⟩
      by_contra other
      have still := taskMarkZombie_still sound code signal pid alive (ended.blocked 0 mem).2 other
      exact not_runnable_blocked still (ended.sound.runnable 0 (List.mem_append_right _ mem))
    · rintro ⟨-, waits⟩
      by_contra fresh
      have ready := taskMarkZombie_wakes sound code signal pid alive.2 alive.1 notIdle waits
      have blocked : (s.pool 0).state = .blocked := waits.2.2.1
      rcases ended.states 0 notIdle fresh with same | ⟨zombie, -⟩
      · rw [ready, blocked] at same
        cases same
      · rw [blocked] at zombie
        cases zombie
  · rw [taskMarkZombie_dead alive]
    exact ⟨q, sound, by simp [off, alive], rfl⟩

/-! ### One operation -/

/-- A fatal operation, by the way in which it ends its task. -/
theorem ending_idles (sound : Sound s q) (off : (0 : Slot) ∉ q) {status : Int}
    (pid : (s.pool t).pid ≠ 0) (ending : Ending s t status s') :
    Idles s s' (Alive (s.pool t) ∧ WaitsFor s 0 t) := by
  cases ending with
  | exit code _ _ ticked =>
    obtain ⟨q₁, sound₁, queued, current⟩ := taskMarkZombie_idle sound off code 0 pid
    have idles := (schedTick_idles sound₁ ticked).of_current current
    rwa [queued] at idles
  | exitFromSyscall code here _ away =>
    obtain ⟨q₁, sound₁, queued, current⟩ := taskMarkZombie_idle sound off code 0 pid
    subst here away
    have stopped : ((taskMarkZombie s s.current code 0).pool
        (taskMarkZombie s s.current code 0).current).state ≠ .running := by
      obtain ⟨-, -, stopped⟩ := taskMarkZombie_current sound code 0 pid
      exact stopped
    have idles := (switchAway_idles sound₁ stopped).of_current current
    rwa [queued] at idles
  | kill code _ _ marked =>
    subst marked
    obtain ⟨q₁, sound₁, queued, current⟩ := taskMarkZombie_idle sound off code 0 pid
    exact .stays ⟨q₁, sound₁, queued⟩ current
  | signal signal _ _ marked =>
    subst marked
    set s₁ := s.mapTask t fun task => { task with pendingSignal := signal } with s₁_eq
    have task : s₁.pool t = { s.pool t with pendingSignal := signal } := State.mapTask_self ..
    have sound₁ : Sound s₁ q := sound.mapTask t (fun _ => rfl) (fun _ => rfl) (fun _ => rfl)
    obtain ⟨q₂, sound₂, queued, current⟩ :=
      taskMarkZombie_idle (t := t) sound₁ off 0 signal (by rw [task]; exact pid)
    refine .stays ⟨q₂, sound₂, queued.trans ?_⟩ current
    -- The pending signal is nothing the idle task waits for.
    have notIdle : (0 : Slot) ≠ t := by
      rintro rfl
      exact pid sound.idlePid
    have idle : s₁.pool 0 = s.pool 0 := State.mapTask_of_ne _ _ notIdle
    have found : taskLookupPid s₁ (s.pool t).ppid = taskLookupPid s (s.pool t).ppid := by
      refine List.find?_congr fun u _ => ?_
      by_cases h : u = t
      · subst h
        rw [task]
      · rw [s₁_eq, State.mapTask_of_ne _ _ h]
    unfold WaitsFor
    rw [task, idle, found]
    rfl

theorem blocked_idles (sound : Sound s q) (off : (0 : Slot) ∉ q) :
    ∃ links head, queueRemove (s.setState s.current .blocked) s.current =
        (s.setState s.current .blocked).relink links head ∧
      Sound ((s.setState s.current .blocked).relink links head) (q.erase s.current) ∧
      (0 : Slot) ∉ q.erase s.current := by
  obtain ⟨links, head, removed, sound₁⟩ := blocked_sound sound
  exact ⟨links, head, removed, sound₁, fun mem => off (List.mem_of_mem_erase mem)⟩

theorem taskBlock_idles (sound : Sound s q) (off : (0 : Slot) ∉ q) (done : taskBlock s = some s') :
    Idles s s' False := by
  obtain ⟨links, head, removed, sound₁, off₁⟩ := blocked_idles sound off
  unfold taskBlock at done
  rw [removed] at done
  have idles := (schedTick_idles sound₁ done).of_current (s := s) rfl
  rwa [iff_false_intro off₁] at idles

theorem taskBlockFromSyscall_idles (sound : Sound s q) (off : (0 : Slot) ∉ q) :
    Idles s (taskBlockFromSyscall s) False := by
  unfold taskBlockFromSyscall
  split
  · exact .stays ⟨q, sound, by simp [off]⟩ rfl
  · obtain ⟨links, head, removed, sound₁, off₁⟩ := blocked_idles sound off
    rw [removed]
    have stopped : ((s.setState s.current .blocked).pool s.current).state ≠ .running := by
      simp [State.setState]
    have idles := (switchAway_idles sound₁ stopped).of_current (s := s) rfl
    rwa [iff_false_intro off₁] at idles

theorem waitpidRound_idles (sound : Sound s q) (off : (0 : Slot) ∉ q) {pid : Int32}
    {options : UInt32} {r : State × Option Waited} (done : waitpidRound s pid options = some r) :
    Idles s r.1 False := by
  have still : (0 : Slot) ∈ q ↔ False := iff_false_intro off
  cases waitpidRound_cases done with
  | reaped t ne _ _ =>
    have kept := releaseZombieSlot_housekept (unwaiting s) ne
    exact .stays ⟨q, sound.unwaiting.housekept kept, still⟩ kept.current
  | childless _ => exact .stays ⟨q, sound.unwaiting, still⟩ rfl
  | pending => exact .stays ⟨q, sound, still⟩ rfl
  | left _ _ => exact (taskBlockFromSyscall_idles (sound.awaiting pid) off).of_current rfl
  | blocked _ s' _ block => exact (taskBlock_idles (sound.awaiting pid) off block).of_current rfl

/-- **One operation.** From a queue without the idle task it puts it there exactly
when it wakes it up. -/
theorem perform_idle (sound : Sound s q) (off : (0 : Slot) ∉ q) {op : Op}
    (done : perform s op = some s') : Idles s s' (WakesIdle s op) := by
  have still : (0 : Slot) ∈ q ↔ False := iff_false_intro off
  -- The operations other than `task_unblock` that end nobody.
  have harmless : victim s op = none → (∀ t, op ≠ .unblock t) → Idles s s' False →
      Idles s s' (WakesIdle s op) := by
    intro spared notUnblock idles
    have sleeps : ¬WakesIdle s op := by
      unfold WakesIdle
      rw [spared]
      cases op with
      | unblock t => exact absurd rfl (notUnblock t)
      | _ => simp
    rwa [iff_false_intro sleeps]
  have fatal : Fatal op → Idles s s' (WakesIdle s op) := by
    intro fatal
    cases target : victim s op with
    | none =>
      obtain rfl := fatal_spared fatal target done
      refine harmless target ?_ (.stays ⟨q, sound, still⟩ rfl)
      rintro t rfl
      exact fatal.elim
    | some v =>
      obtain ⟨pid, ending⟩ := ending_of_victim target done
      have wakes : WakesIdle s op ↔ Alive (s.pool v.1) ∧ WaitsFor s 0 v.1 := by
        unfold WakesIdle
        rw [target]
        cases op with
        | unblock t => exact fatal.elim
        | _ => simp
      rw [wakes]
      exact ending_idles sound off pid ending
  cases op with
  | create priority stackOk =>
    cases done
    refine harmless rfl (fun _ => Op.noConfusion) ?_
    rcases taskCreate_cases sound priority stackOk with ⟨t, -, created⟩ | ⟨-, kept, -⟩
    · refine .stays ⟨_, created.sound, ?_⟩ created.current
      have ne : t ≠ 0 := by
        rintro rfl
        exact created.free.elim sound.idleUsed sound.idleAlive
      simp [off, Ne.symm ne]
    · exact .stays ⟨q, sound.housekept kept, still⟩ kept.current
  | suspendUnstarted t =>
    cases done
    refine harmless rfl (fun _ => Op.noConfusion) ?_
    unfold taskSuspendUnstarted
    split
    · rename_i unstarted
      have ne : t ≠ 0 := by
        rintro rfl
        exact unstarted.2.1 sound.idlePid
      obtain ⟨links, head, removed, after⟩ := sound.takeOff ne
      rw [removed]
      refine .stays ⟨_, after (State.setState _ t .blocked) (only_mapTask _ t _)
        (not_runnable_blocked ?_), iff_false_intro fun mem => off (List.mem_of_mem_erase mem)⟩ rfl
      rw [State.setState, State.mapTask_self]
    · exact .stays ⟨q, sound, still⟩ rfl
  | discardUnstarted t =>
    cases done
    refine harmless rfl (fun _ => Op.noConfusion) ?_
    unfold taskDiscardUnstarted
    split
    · rename_i unstarted
      have ne : t ≠ 0 := by
        rintro rfl
        exact unstarted.2.1 sound.idlePid
      obtain ⟨links, head, removed, after⟩ := sound.takeOff ne
      rw [removed]
      refine .stays ⟨_, after _ ⟨fun u h => Function.update_of_ne h .., rfl, rfl⟩ ?_,
        iff_false_intro fun mem => off (List.mem_of_mem_erase mem)⟩ rfl
      rw [State.mapTask_self]
      simp [Runnable, Task.zero]
    · exact .stays ⟨q, sound, still⟩ rfl
  | blockFromSyscall =>
    cases done
    exact harmless rfl (fun _ => Op.noConfusion) (taskBlockFromSyscall_idles sound off)
  | block => exact harmless rfl (fun _ => Op.noConfusion) (taskBlock_idles sound off done)
  | unblock t =>
    cases done
    obtain ⟨woken, woke, which⟩ := taskUnblock_woke sound t
    refine .stays ⟨_, woke.sound, ?_⟩ woke.steady.current
    have wakes : WakesIdle s (.unblock t) ↔ t = 0 ∧ (s.pool 0).state = .blocked := by
      simp [WakesIdle, victim]
    rw [wakes, which]
    by_cases h : t = 0
    · subst h
      by_cases blocked : (s.pool 0).state = .blocked
      · simp [blocked]
      · simp [blocked, off]
    · by_cases blocked : (s.pool t).state = .blocked
      · simp [blocked, off, h, Ne.symm h]
      · simp [blocked, off, h]
  | sleepTicks ticks =>
    cases done
    refine harmless rfl (fun _ => Op.noConfusion) ?_
    unfold taskSleepTicksFromSyscall
    dsimp only
    split
    · exact .stays ⟨q, sound, still⟩ rfl
    · split
      · exact .stays ⟨q, sound, still⟩ rfl
      · split
        · exact .stays ⟨q, sound, still⟩ rfl
        · exact (taskBlockFromSyscall_idles (sound.sleep _) off).of_current rfl
  | waitpid pid options =>
    obtain ⟨r, round, rfl⟩ := Option.map_eq_some_iff.mp done
    refine harmless rfl (fun _ => Op.noConfusion) ?_
    unfold taskWaitpid at round
    split at round
    · cases round
      exact .stays ⟨q, sound, still⟩ rfl
    · exact waitpidRound_idles sound off round
  | waitpidResume pid options =>
    obtain ⟨r, round, rfl⟩ := Option.map_eq_some_iff.mp done
    have stopped : Sound (s.mapTask s.current fun task => { task with waitActive := false }) q :=
      sound.mapTask s.current (fun _ => rfl) (fun _ => rfl) (fun _ => rfl)
    exact harmless rfl (fun _ => Op.noConfusion) ((waitpidRound_idles stopped off round).of_current rfl)
  | tick =>
    have idles := schedTick_idles sound done
    rw [still] at idles
    exact harmless rfl (fun _ => Op.noConfusion) idles
  | loadImage t present =>
    cases done
    refine harmless rfl (fun _ => Op.noConfusion) (.stays ⟨q, ?_, still⟩ rfl)
    exact sound.mapTask t (fun _ => rfl) (fun _ => rfl) (fun _ => rfl)
  | exit code => exact fatal trivial
  | exitFromSyscall code => exact fatal trivial
  | kill pid code => exact fatal trivial
  | sendSignal pid sig => exact fatal trivial

/-! ### Runs -/

/-- **Idle exclusion.** As long as nothing wakes up a blocked idle task, it is not
on the run queue, and it gets the processor only when no other task is ready. The
next operation that does wake it up puts it on the queue. -/
theorem idle_excluded {ops : List Op}
    (run : Run Step (fun s op => ¬WakesIdle s op) (schedInit s) ops s') :
    (0 : Slot) ∉ s'.queue ∧
      ∀ op s'', Step s' op s'' →
        ((0 : Slot) ∉ s''.queue ↔ ¬WakesIdle s' op) ∧ (¬WakesIdle s' op → LastResort s' s'') := by
  obtain ⟨q, sound, off⟩ : ∃ q, Sound s' q ∧ (0 : Slot) ∉ q := by
    refine run.invariant (P := fun s => ∃ q, Sound s q ∧ (0 : Slot) ∉ q)
      ⟨[], schedInit_sound s, List.not_mem_nil⟩ ?_
    rintro x op y ⟨q, sound, off⟩ asleep taken
    obtain ⟨q', sound', queued⟩ := (perform_idle sound off taken).queue
    exact ⟨q', sound', fun mem => asleep (queued.mp mem)⟩
  refine ⟨by rwa [sound.queued.queue_eq], fun op s'' taken => ?_⟩
  have idles := perform_idle sound off taken
  obtain ⟨q', sound', queued⟩ := idles.queue
  rw [sound'.queued.queue_eq, queued]
  exact ⟨Iff.rfl, idles.turn⟩

/-- The boot context creates two tasks, and the second one exits. -/
theorem idle_excluded_two_tasks :
    ∃ s, runAll perform (fun s op => ¬WakesIdle s op) booted
        [.create 1 true, .create 1 true, .tick, .tick, .exitFromSyscall 0] = some s ∧
      (0 : Slot) ∉ s.queue := by
  obtain ⟨s, done⟩ := Option.isSome_iff_exists.mp
    (show (runAll perform (fun s op => ¬WakesIdle s op) booted
      [.create 1 true, .create 1 true, .tick, .tick, .exitFromSyscall 0]).isSome by
      decide)
  exact ⟨s, done, (idle_excluded (Run.of_runAll done)).1⟩

/-- The boot context waits for a child and is put on the queue when it exits. The
next tick that switches gives it the processor, with another task ready. -/
theorem idle_queued :
    ∃ s s', Run Step Anything booted
        [.create 1 true, .create 1 true, .tick, .waitpid (-1) 0, .exitFromSyscall 0,
          .create 1 true, .tick] s ∧
      (0 : Slot) ∈ s.queue ∧ Step s .tick s' ∧ s.current ≠ 0 ∧ s'.current = 0 ∧
      ∃ t, t ≠ 0 ∧ (s'.pool t).state = .ready := by
  have holds : ((runAll perform Anything booted
      [.create 1 true, .create 1 true, .tick, .waitpid (-1) 0, .exitFromSyscall 0,
        .create 1 true, .tick]).bind fun s =>
      (perform s .tick).filter fun s' => 0 ∈ s.queue ∧ s.current ≠ 0 ∧ s'.current = 0 ∧
        ∃ t, t ≠ 0 ∧ (s'.pool t).state = .ready).isSome := by
    decide +kernel
  obtain ⟨s', found⟩ := Option.isSome_iff_exists.mp holds
  obtain ⟨s, done, ticked⟩ := Option.bind_eq_some_iff.mp found
  obtain ⟨taken, facts⟩ := Option.filter_eq_some_iff.mp ticked
  obtain ⟨queued, notIdle, idle, ready⟩ := of_decide_eq_true facts
  exact ⟨s, s', Run.of_runAll done, queued, taken, notIdle, idle, ready⟩

end AtmKoala.Sched
