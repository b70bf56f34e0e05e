import AtmKoala.Sched.Steps

/-!
Who is blocked.

* `Rouses`: nobody has been blocked. Most operations only wake tasks.
* `perform_blocked`: an operation blocks the task that performs it, or the task
  that `task_suspend_unstarted` names, and no other.
* `taskUnblock_marked`: tasks that are woken while another one ends might as well
  have been woken before.
-/

namespace AtmKoala.Sched

open Lib

variable {s s' s'' : State} {q : List Slot} {t u : Slot}

/-- Nobody has been blocked. -/
def Rouses (s s' : State) : Prop := ∀ u, (s'.pool u).state = .blocked → (s.pool u).state = .blocked

theorem Rouses.refl (s : State) : Rouses s s := fun _ => id

theorem Rouses.trans (first : Rouses s s') (second : Rouses s' s'') : Rouses s s'' :=
  fun u blocked => first u (second u blocked)

theorem rouses_of_states (states : ∀ u, (s'.pool u).state = (s.pool u).state) : Rouses s s' :=
  fun u blocked => (states u).symm.trans blocked

/-- A change of fields other than the state. -/
theorem rouses_mapTask (t : Slot) {f : Task → Task} (state : ∀ task, (f task).state = task.state) :
    Rouses s (s.mapTask t f) := by
  refine rouses_of_states fun u => ?_
  by_cases h : u = t
  · subst h
    rw [State.mapTask_self, state]
  · rw [State.mapTask_of_ne _ _ h]

theorem rouses_setState {st : TaskState} (awake : st ≠ .blocked) : Rouses s (s.setState t st) := by
  intro u blocked
  by_cases h : u = t
  · subst h
    rw [State.setState, State.mapTask_self] at blocked
    exact absurd blocked awake
  · rwa [State.setState, State.mapTask_of_ne _ _ h] at blocked

theorem Woke.rouses {woken : List Slot} (woke : Woke s s' q woken) : Rouses s s' := by
  intro u blocked
  by_cases mem : u ∈ woken
  · exact woke.blocked u mem
  · exact (woke.states u mem).symm.trans blocked

theorem Housekept.rouses (kept : Housekept s s') : Rouses s s' := by
  intro u blocked
  rcases kept.state u with same | ⟨-, free⟩
  · exact same.symm.trans blocked
  · rw [free] at blocked
    cases blocked

theorem taskMarkZombie_rouses (sound : Sound s q) (t : Slot) (code : Int) (signal : UInt32) :
    Rouses s (taskMarkZombie s t code signal) := by
  by_cases refused : (s.pool t).pid = 0 ∨ (s.pool t).state = .unused ∨ (s.pool t).state = .zombie
  · rw [taskMarkZombie_refused refused]
    exact .refl s
  · rw [not_or, not_or] at refused
    obtain ⟨woken, ended⟩ := taskMarkZombie_ended sound code signal refused.1 refused.2.2 refused.2.1
    intro u blocked
    by_cases h : u = t
    · subst h
      rcases ended.gone with zombie | ⟨-, free⟩
      · rw [zombie] at blocked
        cases blocked
      · rw [free] at blocked
        cases blocked
    · by_cases mem : u ∈ woken
      · exact (ended.blocked u mem).2
      · rcases ended.states u h mem with same | ⟨-, free⟩
        · exact same.symm.trans blocked
        · rw [free] at blocked
          cases blocked

theorem switchTo_rouses (s : State) (t : Slot) : Rouses s (switchTo s t) := by
  unfold switchTo
  exact rouses_setState (s := { s with current := t }) TaskState.noConfusion

theorem schedTick_rouses (sound : Sound s q) (ticked : schedTick s = some s') : Rouses s s' := by
  obtain ⟨woken, woke, -⟩ := wakeSleepers_woke (sound.uptime (s.uptimeTicks + 1))
  have selected : Rouses (wakeSleepers { s with uptimeTicks := s.uptimeTicks + 1 }) s' := by
    intro u blocked
    rcases selectNext_state woke.sound ticked u with same | ⟨runnable, -⟩
    · exact same.symm.trans blocked
    · exact absurd runnable (not_runnable_blocked blocked)
  have woken : Rouses s (wakeSleepers { s with uptimeTicks := s.uptimeTicks + 1 }) := woke.rouses
  exact woken.trans selected

/-- The task that leaves the processor is the one that gets blocked. -/
theorem stop_blocked (sound : Sound s q) :
    ∀ u, ((queueRemove (s.setState s.current .blocked) s.current).pool u).state = .blocked →
      (s.pool u).state = .blocked ∨ u = s.current := by
  intro u blocked
  obtain ⟨links, head, removed, -⟩ := blocked_sound sound
  rw [removed] at blocked
  by_cases h : u = s.current
  · exact .inr h
  · left
    exact (setState_state_of_ne .blocked h).symm.trans blocked

theorem taskBlock_blocked (sound : Sound s q) (done : taskBlock s = some s')
    (blocked : (s'.pool u).state = .blocked) : (s.pool u).state = .blocked ∨ u = s.current := by
  obtain ⟨links, head, removed, sound₁⟩ := blocked_sound sound
  have stopped := stop_blocked sound
  unfold taskBlock at done
  rw [removed] at done stopped
  exact stopped u (schedTick_rouses sound₁ done u blocked)

theorem taskBlockFromSyscall_blocked (sound : Sound s q)
    (blocked : ((taskBlockFromSyscall s).pool u).state = .blocked) :
    (s.pool u).state = .blocked ∨ u = s.current := by
  unfold taskBlockFromSyscall at blocked
  split at blocked
  · exact .inl blocked
  · exact stop_blocked sound u (switchTo_rouses _ _ u blocked)

theorem waitpidRound_blocked (sound : Sound s q) {pid : Int32} {options : UInt32}
    {r : State × Option Waited} (done : waitpidRound s pid options = some r)
    (blocked : (r.1.pool u).state = .blocked) : (s.pool u).state = .blocked ∨ u = s.current := by
  have unwaiting : Rouses s (unwaiting s) := rouses_mapTask _ fun _ => rfl
  have awaiting : Rouses s (awaiting s pid) := rouses_mapTask _ fun _ => rfl
  cases waitpidRound_cases done with
  | reaped t ne _ _ => exact .inl (unwaiting.trans (releaseZombieSlot_housekept _ ne).rouses u blocked)
  | childless _ => exact .inl (unwaiting u blocked)
  | pending => exact .inl blocked
  | left _ _ =>
    exact (taskBlockFromSyscall_blocked (sound.awaiting pid) blocked).imp_left (awaiting u)
  | blocked _ s' _ block =>
    exact (taskBlock_blocked (sound.awaiting pid) block blocked).imp_left (awaiting u)

/-- **Only the current task blocks**, apart from a task that is suspended before it
has started. -/
theorem perform_blocked (sound : Sound s q) {op : Op} (done : perform s op = some s')
    (blocked : (s'.pool u).state = .blocked) :
    (s.pool u).state = .blocked ∨ u = s.current ∨ op = .suspendUnstarted u := by
  -- The operations that block nobody.
  have roused : Rouses s s' →
      (s.pool u).state = .blocked ∨ u = s.current ∨ op = .suspendUnstarted u :=
    fun rouses => .inl (rouses u blocked)
  have own : (s.pool u).state = .blocked ∨ u = s.current →
      (s.pool u).state = .blocked ∨ u = s.current ∨ op = .suspendUnstarted u :=
    fun h => h.imp_right .inl
  cases op with
  | create priority stackOk =>
    cases done
    rcases taskCreate_cases sound priority stackOk with ⟨t, -, created⟩ | ⟨-, kept, -⟩
    · refine roused fun v blocked => ?_
      by_cases h : v = t
      · rw [h, created.ready] at blocked
        cases blocked
      · obtain ⟨n, same⟩ := created.others v h
        rw [same] at blocked
        exact blocked
    · exact roused kept.rouses
  | suspendUnstarted t =>
    cases done
    unfold taskSuspendUnstarted at blocked
    split at blocked
    · by_cases h : u = t
      · exact .inr (.inr (by rw [h]))
      · left
        obtain ⟨links, head, removed, -⟩ := queueRemove_eq sound.queued t
        rw [removed] at blocked
        exact (setState_state_of_ne (s := s.relink links head) .blocked h).symm.trans blocked
    · exact .inl blocked
  | discardUnstarted t =>
    cases done
    unfold taskDiscardUnstarted at blocked
    split at blocked
    · obtain ⟨links, head, removed, -⟩ := queueRemove_eq sound.queued t
      rw [removed] at blocked
      by_cases h : u = t
      · subst h
        rw [State.mapTask_self] at blocked
        cases blocked
      · rw [State.mapTask_of_ne _ _ h] at blocked
        exact .inl blocked
    · exact .inl blocked
  | exit code =>
    refine roused ?_
    have done : taskExit s code = some s' := done
    unfold taskExit at done
    split at done
    · cases done
      exact .refl s
    · obtain ⟨q', sound₁⟩ := taskMarkZombie_ordered sound s.current code 0
      exact (taskMarkZombie_rouses sound _ code 0).trans (schedTick_rouses sound₁ done)
  | exitFromSyscall code =>
    cases done
    refine roused ?_
    unfold taskExitFromSyscall
    split
    · exact .refl s
    · exact (taskMarkZombie_rouses sound _ code 0).trans (switchTo_rouses _ _)
  | kill pid code =>
    cases done
    refine roused ?_
    unfold taskKill
    split
    · exact .refl s
    · split
      · exact .refl s
      · split
        · exact .refl s
        · exact taskMarkZombie_rouses sound _ code 0
  | sendSignal pid sig =>
    cases done
    refine roused ?_
    unfold taskSendSignal
    split
    · exact .refl s
    · split
      · exact .refl s
      · split
        · exact .refl s
        · split
          · exact .refl s
          · split
            · exact .refl s
            · rename_i target _ _ _
              dsimp only
              set s₁ := s.mapTask target fun task => { task with pendingSignal := UInt32.ofNat sig.toNat }
              have sound₁ : Sound s₁ q :=
                sound.mapTask _ (fun _ => rfl) (fun _ => rfl) (fun _ => rfl)
              have same : Rouses s s₁ := rouses_mapTask _ fun _ => rfl
              exact same.trans (taskMarkZombie_rouses sound₁ _ 0 _)
  | blockFromSyscall =>
    cases done
    exact own (taskBlockFromSyscall_blocked sound blocked)
  | block => exact own (taskBlock_blocked sound done blocked)
  | unblock t =>
    cases done
    obtain ⟨woken, woke, -⟩ := taskUnblock_woke sound t
    exact roused woke.rouses
  | sleepTicks ticks =>
    cases done
    unfold taskSleepTicksFromSyscall at blocked
    dsimp only at blocked
    split at blocked
    · exact .inl blocked
    · split at blocked
      · exact .inl blocked
      · split at blocked
        · exact .inl blocked
        · have asleep := sound.sleep
            (Function.update s.sleep s.current ⟨s.uptimeTicks + ticks, true⟩)
          have stopped := taskBlockFromSyscall_blocked asleep blocked
          exact own stopped
  | waitpid pid options =>
    obtain ⟨r, round, rfl⟩ := Option.map_eq_some_iff.mp done
    unfold taskWaitpid at round
    split at round
    · cases round
      exact .inl blocked
    · exact own (waitpidRound_blocked sound round blocked)
  | waitpidResume pid options =>
    obtain ⟨r, round, rfl⟩ := Option.map_eq_some_iff.mp done
    have stopped : Sound (s.mapTask s.current fun task => { task with waitActive := false }) q :=
      sound.mapTask s.current (fun _ => rfl) (fun _ => rfl) (fun _ => rfl)
    rcases waitpidRound_blocked stopped round blocked with still | here
    · have same : Rouses s (s.mapTask s.current fun task => { task with waitActive := false }) :=
        rouses_mapTask _ fun _ => rfl
      exact .inl (same u still)
    · exact .inr (.inl here)
  | tick => exact roused (schedTick_rouses sound done)
  | loadImage t present =>
    cases done
    exact roused (rouses_mapTask t fun _ => rfl)

/-! ### Waking while a task ends -/

theorem link_marked (s : State) (t : Slot) (code : Int) (signal : UInt32) :
    (marked s t code signal).link = s.link := by
  funext v
  by_cases h : v = t
  · subst h
    simp [State.link, marked, sleepCancelTask]
  · exact congrArg Task.next ((only_marked s t code signal).others v h)

theorem setNext_marked (s : State) (t : Slot) (code : Int) (signal : UInt32) (v : Slot)
    (n : Option Slot) :
    (marked s t code signal).setNext v n = marked (s.setNext v n) t code signal := by
  unfold marked State.setNext State.mapTask sleepCancelTask
  by_cases h : v = t
  · subst h
    simp
  · simp [h, Ne.symm h, Function.update_comm h]

theorem setState_marked (s : State) {t v : Slot} (ne : v ≠ t) (code : Int) (signal : UInt32)
    (st : TaskState) :
    (marked s t code signal).setState v st = marked (s.setState v st) t code signal := by
  unfold marked State.setState State.mapTask sleepCancelTask
  simp [ne, Ne.symm ne, Function.update_comm ne]

theorem queueAdd_marked (s : State) (t : Slot) (code : Int) (signal : UInt32) (v : Slot) :
    queueAdd (marked s t code signal) v =
      (marked (queueAdd s v).1 t code signal, (queueAdd s v).2) := by
  unfold queueAdd
  rw [link_marked]
  have head : (marked s t code signal).runQueueHead = s.runQueueHead := rfl
  rw [head]
  split
  · exact congrArg (·, true) (setNext_marked { s with runQueueHead := some v } t code signal v (some v))
  · split
    · rfl
    · rw [setNext_marked, setNext_marked]

theorem taskUnblock_marked (s : State) {t v : Slot} (ne : v ≠ t) (code : Int) (signal : UInt32) :
    taskUnblock (marked s t code signal) v = marked (taskUnblock s v) t code signal := by
  have state : ((marked s t code signal).pool v).state = (s.pool v).state :=
    congrArg Task.state ((only_marked s t code signal).others v ne)
  unfold taskUnblock
  rw [state]
  split
  · rfl
  · rw [setState_marked s ne, queueAdd_marked]
    rcases queueAdd (s.setState v .ready) v with ⟨s₁, added⟩
    cases added with
    | true => rfl
    | false => exact setState_marked s₁ ne code signal .blocked

end AtmKoala.Sched
