import AtmKoala.Sched.Steps

/-!
Who has the processor after `task_exit` and `task_block`.

Both raise the timer interrupt to leave the processor, and `sched_tick` only
switches when the quantum of the task is used up, so the interrupt may return to
the task that has just left. `Leaves` is when it does not:

* `tick_left`: where the tick after an exit or a block goes;
* `Calm`: what holds while no task has come back that way, kept by every
  operation (`calm_step`);
* `control_left`: every run whose exits and blocks meet the condition.
-/

namespace AtmKoala.Sched

open Lib

variable {s s' : State} {q : List Slot}

/-- The tick that follows takes the processor away from the current task: its
quantum is used up when another task is queued; else the idle task takes over,
which must not be the one that leaves and must not be blocked itself. -/
def Leaves (s : State) : Prop :=
  if ∃ t ∈ s.queue, t ≠ s.current then Due s
  else (s.pool s.current).pid ≠ 0 ∧ (s.pool 0).state ≠ .blocked

instance (s : State) : Decidable (Leaves s) := by
  unfold Leaves
  infer_instance

/-- The operations considered, each with what it needs: an exit of a task with a
pid, and a block, have to leave the processor. -/
def Lets (s : State) : Op → Prop
  | .exit _ => (s.pool s.current).pid = 0 ∨ Leaves s
  | .block => Leaves s
  | .create _ _ | .unblock _ | .kill _ _ | .sendSignal _ _ | .tick => True
  | _ => False

instance (s : State) (op : Op) : Decidable (Lets s op) := by
  apply op.casesOn (motive := fun op => Decidable (Lets s op)) <;>
    (intros; dsimp only [Lets]; infer_instance)

/-- The operation makes the current task a zombie or blocks it. -/
def Departs (s : State) : Op → Prop
  | .exit _ => (s.pool s.current).pid ≠ 0
  | .block => True
  | _ => False

/-- **Calm**: the current task can run, and nobody waits for a child or a deadline. -/
structure Calm (s : State) (q : List Slot) : Prop where
  sound : Sound s q
  quiet : Quiet s
  current : Runnable (s.pool s.current).state

/-! ### The tick -/

/-- A tick changes no task apart from its state. -/
theorem selectNext_field {β : Type} (field : Task → β)
    (same : ∀ (task : Task) (st : TaskState), field { task with state := st } = field task)
    (sound : Sound s q) (selected : selectNext s = some s') (u : Slot) :
    field (s'.pool u) = field (s.pool u) := by
  rw [selectNext_eq sound] at selected
  obtain rfl := Option.some.inj selected
  have switched : ∀ (s₁ : State) (next : Slot),
      field ((switchTo s₁ next).pool u) = field (s₁.pool u) :=
    fun s₁ next => setState_field (s := { s₁ with current := next }) field .running u
      fun task => same task .running
  split
  · split
    · exact switched s 0
    · rfl
  · split
    · rfl
    · split
      · rfl
      · rename_i next _
        rw [switched]
        unfold pause
        split
        · exact setState_field (s := { s with quantumCounter := 0 }) field .ready u
            fun task => same task .ready
        · rfl

/-- A decision touches neither the deadlines nor the clock. -/
theorem selectNext_sleep (sound : Sound s q) (selected : selectNext s = some s') :
    s'.sleep = s.sleep ∧ s'.uptimeTicks = s.uptimeTicks := by
  rw [selectNext_eq sound] at selected
  obtain rfl := Option.some.inj selected
  split
  · split
    · exact ⟨rfl, rfl⟩
    · exact ⟨rfl, rfl⟩
  · split
    · exact ⟨rfl, rfl⟩
    · split
      · exact ⟨rfl, rfl⟩
      · unfold pause
        split
        · exact ⟨rfl, rfl⟩
        · exact ⟨rfl, rfl⟩

theorem selectNext_quiet (sound : Sound s q) (quiet : Quiet s) (selected : selectNext s = some s') :
    Quiet s' where
  waiting u := by
    rw [selectNext_field Task.waitActive (fun _ _ => rfl) sound selected]
    exact quiet.waiting u
  sleeping u := by
    rw [(selectNext_sleep sound selected).1]
    exact quiet.sleeping u

/-- Where the tick goes. -/
theorem selectNext_current (sound : Sound s q) (selected : selectNext s = some s') :
    s'.current = s.current ∨
      (s'.pool s'.current).state = .running ∧
        (s'.current ∈ q ∨ q = [] ∧ s'.current = 0 ∧
          ((s.pool s.current).state = .zombie ∨ (s.pool s.current).state = .blocked)) := by
  have running : ∀ (s₁ : State) (next : Slot), ((switchTo s₁ next).pool next).state = .running := by
    intro s₁ next
    simp [Sched.switchTo, State.setState]
  rw [selectNext_eq sound] at selected
  obtain rfl := Option.some.inj selected
  split
  · rename_i empty
    split
    · rename_i left
      exact .inr ⟨running s 0, .inr ⟨empty, rfl, left.2⟩⟩
    · exact .inl rfl
  · split
    · exact .inl rfl
    · split
      · exact .inl rfl
      · rename_i next found
        exact .inr ⟨running _ _, .inl (List.mem_of_find?_eq_some found)⟩

/-- Without sleepers a tick is the decision alone. -/
theorem schedTick_quiet (quiet : Quiet s) :
    schedTick s = selectNext { s with uptimeTicks := s.uptimeTicks + 1 } := by
  have quiet₁ : Quiet { s with uptimeTicks := s.uptimeTicks + 1 } := ⟨quiet.waiting, quiet.sleeping⟩
  rw [schedTick, wakeSleepers_still quiet₁.awake]

/-- **The tick of a task that has left the queue.** -/
theorem tick_left (sound : Sound s q) (quiet : Quiet s) (off : s.current ∉ q)
    (left : (s.pool s.current).state = .zombie ∨ (s.pool s.current).state = .blocked)
    (ticked : schedTick s = some s') :
    (s'.current ≠ s.current ∧ (s.pool s'.current).state ≠ .blocked) ↔
      if q = [] then (s.pool s.current).pid ≠ 0 ∧ (s.pool 0).state ≠ .blocked else Due s := by
  rw [schedTick_quiet quiet, selectNext_eq (sound.uptime _)] at ticked
  obtain rfl := Option.some.inj ticked
  by_cases empty : q = []
  · simp only [empty, if_true]
    by_cases pid : (s.pool s.current).pid = 0
    · simp [pid]
    · have ne : (0 : Slot) ≠ s.current := fun h => pid (h ▸ sound.idlePid)
      simp only [pid, left, ne_eq, not_false_eq_true, and_self, if_true, true_and]
      exact ⟨fun h => h.2, fun h => ⟨ne, h⟩⟩
  · simp only [empty, if_false]
    by_cases due : Due s
    · obtain ⟨a, xs, rfl⟩ := List.exists_cons_of_ne_nil empty
      have first : a ≠ s.current := fun h => off (h ▸ List.mem_cons_self)
      have found : (a :: xs).find? (· ≠ s.current) = some a := by
        simp [first]
      have due₁ : Due { s with uptimeTicks := s.uptimeTicks + 1 } := due
      simp only [due₁, not_true_eq_false, if_false, found, due, iff_true]
      refine ⟨first, fun blocked => ?_⟩
      exact not_runnable_blocked blocked (sound.runnable a List.mem_cons_self)
    · have due₁ : ¬Due { s with uptimeTicks := s.uptimeTicks + 1 } := due
      simp only [due₁, not_false_eq_true, if_true, due, iff_false]
      exact fun h => h.1 rfl

/-- After a good departure everything is calm again. -/
theorem tick_calm (sound : Sound s q) (quiet : Quiet s) (ticked : schedTick s = some s')
    (current : s'.current ≠ s.current ∨ Runnable (s.pool s.current).state) : Calm s' q := by
  rw [schedTick_quiet quiet] at ticked
  have sound₁ := sound.uptime (s.uptimeTicks + 1)
  have quiet₁ : Quiet { s with uptimeTicks := s.uptimeTicks + 1 } := ⟨quiet.waiting, quiet.sleeping⟩
  obtain ⟨s'', eq, sound'⟩ := selectNext_sound sound₁
  obtain rfl : s'' = s' := Option.some.inj (eq.symm.trans ticked)
  refine ⟨sound', selectNext_quiet sound₁ quiet₁ ticked, ?_⟩
  rcases selectNext_current sound₁ ticked with same | ⟨run, -⟩
  · have runs : Runnable (s.pool s.current).state := current.resolve_left fun h => h same
    rcases selectNext_state sound₁ ticked s''.current with kept | ⟨run, -⟩
    · rw [kept, same]
      exact runs
    · exact run
  · exact .inr run

/-- A blocked task is not the one a calm tick goes to. -/
theorem tick_blocked (sound : Sound s q) (quiet : Quiet s) (ticked : schedTick s = some s')
    {t : Slot} (blocked : (s.pool t).state = .blocked) (off : t ≠ s.current)
    (target : s'.current ≠ s.current → (s.pool s'.current).state ≠ .blocked) :
    (s'.pool t).state = .blocked := by
  rw [schedTick_quiet quiet] at ticked
  rcases selectNext_state (sound.uptime _) ticked t with kept | ⟨-, isCurrent | isNext⟩
  · rw [kept]
    exact blocked
  · exact absurd isCurrent off
  · subst isNext
    exact absurd blocked (target off)

/-! ### Departures -/

/-- What a departure leads to before its tick. -/
structure Departed (s s₁ : State) (q : List Slot) : Prop where
  sound : Sound s₁ (q.erase s.current)
  quiet : Quiet s₁
  steady : Steady s s₁
  left : (s₁.pool s.current).state = .zombie ∨ (s₁.pool s.current).state = .blocked
  states : ∀ u, u ≠ s.current → (s₁.pool u).state = (s.pool u).state ∨
    (s.pool u).state = .zombie ∧ (s₁.pool u).state = .unused

theorem departs_cases (calm : Calm s q) {op : Op} (departs : Departs s op) (taken : Step s op s') :
    ∃ s₁, Departed s s₁ q ∧ schedTick s₁ = some s' := by
  have alive : (s.pool s.current).state ≠ .zombie := fun h => not_runnable_zombie h calm.current
  have used : (s.pool s.current).state ≠ .unused := by
    intro h
    have run := calm.current
    simp [Runnable, h] at run
  cases op with
  | exit code =>
    have pid : (s.pool s.current).pid ≠ 0 := departs
    obtain ⟨woken, ended⟩ := taskMarkZombie_ended calm.sound code 0 pid alive used
    obtain ⟨rfl, quiet⟩ := ended.quiet calm.quiet
    refine ⟨taskMarkZombie s s.current code 0, ⟨?_, quiet, ended.steady, ?_, ?_⟩, ?_⟩
    · simpa using ended.sound
    · left
      rcases ended.gone with zombie | ⟨off, -⟩
      · exact zombie
      · exact absurd rfl off
    · intro u ne
      exact ended.states u ne List.not_mem_nil
    · have eq : taskExit s code = some s' := taken
      rwa [taskExit, if_neg pid] at eq
  | block =>
    obtain ⟨links, head, removed, sound₁⟩ := blocked_sound calm.sound
    refine ⟨(s.setState s.current .blocked).relink links head, ⟨sound₁, ⟨?_, calm.quiet.sleeping⟩,
      ⟨rfl, rfl, ?_, ?_⟩, .inr ?_, ?_⟩, ?_⟩
    · intro u
      exact (setState_field Task.waitActive .blocked u fun _ => rfl).trans (calm.quiet.waiting u)
    · exact setState_field Task.priority .blocked s.current fun _ => rfl
    · exact setState_field Task.pid .blocked s.current fun _ => rfl
    · exact congrArg Task.state (State.mapTask_self ..)
    · intro u ne
      exact .inl (setState_state_of_ne .blocked ne)
    · have eq : taskBlock s = some s' := taken
      rwa [taskBlock, removed] at eq
  | _ => exact departs.elim

theorem Departed.idle {s₁ : State} (departed : Departed s s₁ q) (sound : Sound s q) :
    s.current ≠ 0 → (s₁.pool 0).state = (s.pool 0).state := by
  intro ne
  rcases departed.states 0 (Ne.symm ne) with same | ⟨zombie, -⟩
  · exact same
  · exact absurd zombie sound.idleAlive

theorem erase_eq_nil_iff (nodup : q.Nodup) (c : Slot) :
    q.erase c = [] ↔ ¬∃ t ∈ q, t ≠ c := by
  rw [List.eq_nil_iff_forall_not_mem]
  constructor
  · rintro none ⟨t, mem, ne⟩
    exact none t ((List.mem_erase_of_ne ne).mpr mem)
  · intro none t mem
    rw [nodup.mem_erase_iff] at mem
    exact none ⟨t, mem.2, mem.1⟩

/-- **A departure leaves the processor exactly when it can.** -/
theorem departs_iff (calm : Calm s q) {op : Op} (departs : Departs s op) (taken : Step s op s') :
    (s'.current ≠ s.current ∧ (s.pool s'.current).state ≠ .blocked) ↔ Leaves s := by
  obtain ⟨s₁, departed, ticked⟩ := departs_cases calm departs taken
  have current := departed.steady.current
  have nodup := calm.sound.queued.ring.nodup
  have off : s₁.current ∉ q.erase s.current := by
    rw [current]
    exact nodup.not_mem_erase
  have left := departed.left
  rw [← current] at left
  have after := tick_left departed.sound departed.quiet off left ticked
  rw [current] at after
  -- Apart from the departing task the states are as before, as far as blocking goes.
  have blockedIff : s'.current ≠ s.current →
      ((s₁.pool s'.current).state ≠ .blocked ↔ (s.pool s'.current).state ≠ .blocked) := by
    intro ne
    rcases departed.states _ ne with same | ⟨zombie, free⟩
    · rw [same]
    · simp [zombie, free]
  have due : Due s₁ ↔ Due s := by
    unfold Due
    rw [current, departed.steady.priority, departed.steady.quantum]
  have stays : (s'.current ≠ s.current ∧ (s.pool s'.current).state ≠ .blocked) ↔
      (s'.current ≠ s.current ∧ (s₁.pool s'.current).state ≠ .blocked) :=
    and_congr_right fun ne => (blockedIff ne).symm
  rw [stays, after]
  unfold Leaves
  rw [calm.sound.queued.queue_eq]
  by_cases others : ∃ t ∈ q, t ≠ s.current
  · rw [if_neg (fun h => (erase_eq_nil_iff nodup _).mp h others), if_pos others, due]
  · rw [if_pos ((erase_eq_nil_iff nodup _).mpr others), if_neg others, departed.steady.pid]
    refine and_congr_right fun pid => ?_
    have ne : s.current ≠ 0 := fun h => pid (h ▸ calm.sound.idlePid)
    rw [departed.idle calm.sound ne]

/-! ### One operation -/

/-- A blocked task is still blocked, or it has been ended. -/
def StaysBlocked (s s' : State) : Prop :=
  ∀ t, (s.pool t).state = .blocked →
    (s'.pool t).state = .blocked ∨ (s'.pool t).state = .zombie ∨ (s'.pool t).state = .unused

theorem StaysBlocked.refl (s : State) : StaysBlocked s s := fun _ blocked => .inl blocked

theorem calm_housekept (calm : Calm s q) (kept : Housekept s s') :
    Calm s' q ∧ StaysBlocked s s' := by
  refine ⟨⟨calm.sound.housekept kept, kept.quiet calm.quiet, ?_⟩, fun t blocked => .inl ?_⟩
  · rw [kept.current]
    exact kept.runnable.mpr calm.current
  · rcases kept.state t with same | ⟨zombie, -⟩
    · rw [same]
      exact blocked
    · rw [blocked] at zombie
      cases zombie

theorem calm_create (calm : Calm s q) (priority : UInt32) (stackOk : Bool) :
    (∃ q', Calm (taskCreate s priority stackOk).1 q') ∧
      StaysBlocked s (taskCreate s priority stackOk).1 := by
  rcases taskCreate_cases calm.sound priority stackOk with ⟨t, -, created⟩ | ⟨-, kept, -⟩
  · have notFree : ∀ u, (s.pool u).state ≠ .unused → (s.pool u).state ≠ .zombie → u ≠ t := by
      rintro u used alive rfl
      rcases created.free with h | h
      · exact used h
      · exact alive h
    have same : ∀ u, u ≠ t →
        ((taskCreate s priority stackOk).1.pool u).state = (s.pool u).state := by
      intro u ne
      obtain ⟨n, eq⟩ := created.others u ne
      rw [eq]
    refine ⟨⟨_, created.sound, created.quiet calm.quiet, ?_⟩, fun u blocked => .inl ?_⟩
    · have run := calm.current
      rw [created.current, same _ (notFree _ ?_ ?_)]
      · exact run
      · intro h
        simp [Runnable, h] at run
      · exact fun h => not_runnable_zombie h run
    · rw [same u (notFree u ?_ ?_)]
      · exact blocked
      · rw [blocked]
        exact TaskState.noConfusion
      · rw [blocked]
        exact TaskState.noConfusion
  · exact ⟨⟨q, (calm_housekept calm kept).1⟩, (calm_housekept calm kept).2⟩

/-- The end of another task. -/
theorem calm_end (calm : Calm s q) {t : Slot} (other : t ≠ s.current) (code : Int)
    (signal : UInt32) :
    (∃ q', Calm (taskMarkZombie s t code signal) q') ∧
      StaysBlocked s (taskMarkZombie s t code signal) := by
  by_cases refused : (s.pool t).pid = 0 ∨ (s.pool t).state = .unused ∨ (s.pool t).state = .zombie
  · rw [taskMarkZombie_refused refused]
    exact ⟨⟨q, calm⟩, .refl s⟩
  · rw [not_or, not_or] at refused
    obtain ⟨woken, ended⟩ :=
      taskMarkZombie_ended calm.sound code signal refused.1 refused.2.2 refused.2.1
    obtain ⟨rfl, quiet⟩ := ended.quiet calm.quiet
    refine ⟨⟨_, ended.sound, quiet, ?_⟩, fun u blocked => ?_⟩
    · rw [ended.steady.current]
      rcases ended.states s.current (Ne.symm other) List.not_mem_nil with same | ⟨zombie, -⟩
      · rw [same]
        exact calm.current
      · exact absurd calm.current (not_runnable_zombie zombie)
    · by_cases h : u = t
      · subst h
        rcases ended.gone with zombie | ⟨-, free⟩
        · exact .inr (.inl zombie)
        · exact .inr (.inr free)
      · rcases ended.states u h List.not_mem_nil with same | ⟨-, free⟩
        · rw [same]
          exact .inl blocked
        · exact .inr (.inr free)

theorem calm_signal (calm : Calm s q) {t : Slot} (other : t ≠ s.current) (signal : UInt32) :
    (∃ q', Calm (taskMarkZombie
        (s.mapTask t fun task => { task with pendingSignal := signal }) t 0 signal) q') ∧
      StaysBlocked s (taskMarkZombie
        (s.mapTask t fun task => { task with pendingSignal := signal }) t 0 signal) := by
  set s₁ := s.mapTask t fun task => { task with pendingSignal := signal } with s₁_eq
  have fields : ∀ u, (s₁.pool u).state = (s.pool u).state ∧
      (s₁.pool u).waitActive = (s.pool u).waitActive := by
    intro u
    by_cases h : u = t
    · subst h
      simp [s₁_eq]
    · rw [s₁_eq, State.mapTask_of_ne _ _ h]
      exact ⟨rfl, rfl⟩
  have calm₁ : Calm s₁ q := by
    refine ⟨calm.sound.mapTask t (fun _ => rfl) (fun _ => rfl) (fun _ => rfl),
      ⟨fun u => ?_, calm.quiet.sleeping⟩, ?_⟩
    · rw [(fields u).2]
      exact calm.quiet.waiting u
    · show Runnable (s₁.pool s.current).state
      rw [(fields _).1]
      exact calm.current
  obtain ⟨kept, stays⟩ := calm_end calm₁ other 0 signal
  refine ⟨kept, fun u blocked => stays u ?_⟩
  rw [(fields u).1]
  exact blocked

theorem calm_unblock (calm : Calm s q) (t : Slot) :
    (∃ q', Calm (taskUnblock s t) q') ∧
      ∀ u, u ≠ t → (s.pool u).state = .blocked → ((taskUnblock s t).pool u).state = .blocked := by
  by_cases blocked : (s.pool t).state = .blocked
  · obtain ⟨links, head, eq, sound'⟩ := taskUnblock_eq calm.sound blocked
    rw [eq]
    have off : s.current ≠ t := by
      rintro rfl
      exact not_runnable_blocked blocked calm.current
    refine ⟨⟨_, sound', ⟨fun u => ?_, calm.quiet.sleeping⟩, ?_⟩, fun u ne h => ?_⟩
    · exact (setState_field Task.waitActive .ready u fun _ => rfl).trans (calm.quiet.waiting u)
    · show Runnable ((s.setState t .ready).pool s.current).state
      rw [setState_state_of_ne .ready off]
      exact calm.current
    · exact (setState_state_of_ne .ready ne).trans h
  · have unchanged : taskUnblock s t = s := by
      simp only [taskUnblock, ne_eq, blocked, not_false_eq_true, if_true]
    rw [unchanged]
    exact ⟨⟨q, calm⟩, fun _ _ h => h⟩

theorem calm_departs (calm : Calm s q) {op : Op} (departs : Departs s op) (leaves : Leaves s)
    (taken : Step s op s') : (∃ q', Calm s' q') ∧ StaysBlocked s s' := by
  obtain ⟨ne, target⟩ := (departs_iff calm departs taken).mpr leaves
  obtain ⟨s₁, departed, ticked⟩ := departs_cases calm departs taken
  have current := departed.steady.current
  refine ⟨⟨_, tick_calm departed.sound departed.quiet ticked (.inl ?_)⟩, fun t blocked => .inl ?_⟩
  · rw [current]
    exact ne
  · have off : t ≠ s.current := by
      rintro rfl
      exact not_runnable_blocked blocked calm.current
    have blocked₁ : (s₁.pool t).state = .blocked := by
      rcases departed.states t off with same | ⟨zombie, -⟩
      · rw [same]
        exact blocked
      · rw [blocked] at zombie
        cases zombie
    refine tick_blocked departed.sound departed.quiet ticked blocked₁ ?_ fun _ => ?_
    · rw [current]
      exact off
    · rcases departed.states _ ne with same | ⟨-, free⟩
      · rw [same]
        exact target
      · rw [free]
        exact TaskState.noConfusion

theorem calm_tick (calm : Calm s q) (ticked : schedTick s = some s') :
    Calm s' q ∧ StaysBlocked s s' := by
  refine ⟨tick_calm calm.sound calm.quiet ticked (.inr calm.current), fun t blocked => .inl ?_⟩
  refine tick_blocked calm.sound calm.quiet ticked blocked ?_ fun ne => ?_
  · rintro rfl
    exact not_runnable_blocked blocked calm.current
  · rw [schedTick_quiet calm.quiet] at ticked
    rcases selectNext_current (calm.sound.uptime _) ticked with same | ⟨-, mem | ⟨-, -, left⟩⟩
    · exact absurd same ne
    · exact fun h => not_runnable_blocked h (calm.sound.runnable _ mem)
    · rcases left with zombie | blocked'
      · exact absurd calm.current (not_runnable_zombie zombie)
      · exact absurd calm.current (not_runnable_blocked blocked')

/-- **One operation keeps the calm**, and unblocks no task but the one it is asked
to. -/
theorem calm_step (calm : Calm s q) {op : Op} (lets : Lets s op) (taken : Step s op s') :
    (∃ q', Calm s' q') ∧ ∀ t, (s.pool t).state = .blocked → op = .unblock t ∨
      (s'.pool t).state = .blocked ∨ (s'.pool t).state = .zombie ∨ (s'.pool t).state = .unused := by
  suffices (∃ u, op = .unblock u) ∨ (∃ q', Calm s' q') ∧ StaysBlocked s s' by
    rcases this with ⟨u, rfl⟩ | ⟨kept, stays⟩
    · obtain rfl : taskUnblock s u = s' := Option.some.inj taken
      obtain ⟨kept, others⟩ := calm_unblock calm u
      refine ⟨kept, fun t blocked => ?_⟩
      by_cases h : t = u
      · exact .inl (by rw [h])
      · exact .inr (.inl (others t h blocked))
    · exact ⟨kept, fun t blocked => .inr (stays t blocked)⟩
  cases op with
  | unblock t => exact .inl ⟨t, rfl⟩
  | create priority stackOk =>
    obtain rfl := Option.some.inj taken
    exact .inr (calm_create calm priority stackOk)
  | exit code =>
    right
    by_cases pid : (s.pool s.current).pid = 0
    · have eq : taskExit s code = some s' := taken
      rw [taskExit, if_pos pid] at eq
      obtain rfl := Option.some.inj eq
      exact ⟨⟨q, calm⟩, .refl s⟩
    · have leaves : Leaves s := lets.resolve_left pid
      have departs : Departs s (.exit code) := pid
      exact calm_departs calm departs leaves taken
  | block =>
    right
    have leaves : Leaves s := lets
    have departs : Departs s .block := trivial
    exact calm_departs calm departs leaves taken
  | kill pid code =>
    right
    obtain rfl := Option.some.inj taken
    unfold taskKill
    split
    · exact ⟨⟨q, calm⟩, .refl s⟩
    · split
      · exact ⟨⟨q, calm⟩, .refl s⟩
      · split
        · exact ⟨⟨q, calm⟩, .refl s⟩
        · rename_i other
          exact calm_end calm other code 0
  | sendSignal pid sig =>
    right
    obtain rfl := Option.some.inj taken
    unfold taskSendSignal
    split
    · exact ⟨⟨q, calm⟩, .refl s⟩
    · split
      · exact ⟨⟨q, calm⟩, .refl s⟩
      · split
        · exact ⟨⟨q, calm⟩, .refl s⟩
        · rename_i target _
          split
          · exact ⟨⟨q, calm⟩, .refl s⟩
          · split
            · exact ⟨⟨q, calm⟩, .refl s⟩
            · rename_i refused
              rw [not_or] at refused
              exact calm_signal calm refused.1 _
  | tick =>
    right
    have := calm_tick calm taken
    exact ⟨⟨q, this.1⟩, this.2⟩
  | _ => exact lets.elim

/-! ### Runs -/

theorem schedInit_calm (s : State) : Calm (schedInit s) [] where
  sound := schedInit_sound s
  quiet := by
    refine ⟨fun t => ?_, fun _ => rfl⟩
    by_cases h : t = 0
    · subst h
      simp [schedInit, Task.zero]
    · simp [schedInit, h, Task.zero]
  current := by simp [schedInit, Runnable]

theorem run_calm {ops : List Op} (run : Run Step Lets (schedInit s) ops s') : ∃ q, Calm s' q :=
  run.invariant (P := fun s => ∃ q, Calm s q) ⟨[], schedInit_calm s⟩
    fun ⟨_, calm⟩ lets taken => (calm_step calm lets taken).1

end AtmKoala.Sched
