import Mathlib.Data.List.Find
import AtmKoala.Lib.Run
import AtmKoala.Sched.Queue

/-!
What each operation of the scheduler does to the run queue.

* `taskUnblock_eq`, `wakeSleepers_woke`, `taskWakeWaitingParent_woke`: tasks enter
  the queue at its end.
* `taskMarkZombie_ended`: a task leaves it; `Housekept` is what reaping its
  children may change.
* `selectNext_eq`: the decision of a tick, on the list of queued slots.
* `perform` runs one operation, and `run_queue` is the invariant of every run.
-/

namespace AtmKoala.Sched

open Lib
open Function (update_of_ne update_self)

variable {s s' : State} {q : List Slot} {t : Slot}

/-! ### Waking -/

/-- The current task and its claim on the processor are the same. -/
structure Steady (s s' : State) : Prop where
  current : s'.current = s.current
  quantum : s'.quantumCounter = s.quantumCounter
  priority : (s'.pool s.current).priority = (s.pool s.current).priority
  pid : (s'.pool s.current).pid = (s.pool s.current).pid

theorem Steady.refl (s : State) : Steady s s := ⟨rfl, rfl, rfl, rfl⟩

theorem Steady.trans {s'' : State} (first : Steady s s') (second : Steady s' s'') :
    Steady s s'' where
  current := second.current.trans first.current
  quantum := second.quantum.trans first.quantum
  priority := by
    have h := second.priority
    rw [first.current] at h
    exact h.trans first.priority
  pid := by
    have h := second.pid
    rw [first.current] at h
    exact h.trans first.pid

/-- No task waits for a child or for a deadline. -/
structure Quiet (s : State) : Prop where
  waiting : ∀ t, (s.pool t).waitActive = false
  sleeping : ∀ t, (s.sleep t).active = false

/-- The blocked tasks `woken` have entered the queue. -/
structure Woke (s s' : State) (q woken : List Slot) : Prop where
  sound : Sound s' (q ++ woken)
  steady : Steady s s'
  blocked : ∀ u ∈ woken, (s.pool u).state = .blocked
  states : ∀ u, u ∉ woken → (s'.pool u).state = (s.pool u).state
  uptime : s'.uptimeTicks = s.uptimeTicks

theorem Woke.nothing (sound : Sound s q) : Woke s s q [] where
  sound := by simpa using sound
  steady := .refl s
  blocked := by simp
  states := fun _ _ => rfl
  uptime := rfl

theorem Woke.trans {s'' : State} {more woken : List Slot} (first : Woke s s' q woken)
    (second : Woke s' s'' (q ++ woken) more) : Woke s s'' q (woken ++ more) where
  sound := by simpa using second.sound
  steady := first.steady.trans second.steady
  blocked u mem := by
    rcases List.mem_append.mp mem with early | late
    · exact first.blocked u early
    · by_cases early : u ∈ woken
      · exact first.blocked u early
      · rw [← first.states u early]
        exact second.blocked u late
  states u fresh := by
    rw [List.mem_append, not_or] at fresh
    exact (second.states u fresh.2).trans (first.states u fresh.1)
  uptime := second.uptime.trans first.uptime

/-- A blocked task is not on the queue. -/
theorem Sound.notMem_of_state (sound : Sound s q) (off : ¬Runnable (s.pool t).state) : t ∉ q :=
  fun mem => off (sound.runnable t mem)

theorem not_runnable_blocked {task : Task} (blocked : task.state = .blocked) :
    ¬Runnable task.state := by
  simp [Runnable, blocked]

theorem not_runnable_zombie {task : Task} (zombie : task.state = .zombie) :
    ¬Runnable task.state := by
  simp [Runnable, zombie]

/-- Fields of a task that are not its pid, state and link may change. -/
theorem Sound.mapTask (sound : Sound s q) (t : Slot) {f : Task → Task}
    (link : ∀ task, (f task).next = task.next) (pid : ∀ task, (f task).pid = task.pid)
    (state : ∀ task, (f task).state = task.state) : Sound (s.mapTask t f) q := by
  refine sound.same (only_mapTask s t f) ?_ ?_ ?_
  · show ((s.mapTask t f).pool t).next = (s.pool t).next
    rw [State.mapTask_self, link]
  · rw [State.mapTask_self, pid]
  · rw [State.mapTask_self, state]

/-- **`task_unblock` never fails to queue a blocked task.** -/
theorem taskUnblock_eq (sound : Sound s q) (blocked : (s.pool t).state = .blocked) :
    ∃ links head, taskUnblock s t = (s.setState t .ready).relink links head ∧
      Sound ((s.setState t .ready).relink links head) (q ++ [t]) := by
  have fresh : t ∉ q := sound.notMem_of_state (not_runnable_blocked blocked)
  have only : Only t s (s.setState t .ready) := only_mapTask s t _
  have ready : ((s.setState t .ready).pool t).state = .ready := by
    simp [State.setState]
  have idle : t = 0 → ((s.setState t .ready).pool t).pid = 0 := by
    rintro rfl
    simpa [State.setState] using sound.idlePid
  obtain ⟨links, head, added, sound'⟩ := sound.enter only fresh ready idle
  refine ⟨links, head, ?_, sound'⟩
  simp only [taskUnblock, blocked, ne_eq, not_true_eq_false, if_false, added]

theorem setState_state_of_ne (st : TaskState) {u : Slot} (ne : u ≠ t) :
    ((s.setState t st).pool u).state = (s.pool u).state := by
  rw [State.setState, State.mapTask_of_ne _ _ ne]

/-- A change of the state of one task keeps its other fields. -/
theorem setState_field {β : Type} (field : Task → β) (st : TaskState) (u : Slot)
    (same : ∀ task : Task, field { task with state := st } = field task) :
    field ((s.setState t st).pool u) = field (s.pool u) := by
  by_cases h : u = t
  · subst h
    simp [State.setState, same]
  · rw [State.setState, State.mapTask_of_ne _ _ h]

theorem taskUnblock_woke (sound : Sound s q) (t : Slot) :
    ∃ woken, Woke s (taskUnblock s t) q woken ∧
      woken = if (s.pool t).state = .blocked then [t] else [] := by
  by_cases blocked : (s.pool t).state = .blocked
  · obtain ⟨links, head, eq, sound'⟩ := taskUnblock_eq sound blocked
    refine ⟨[t], ⟨?_, ⟨?_, ?_, ?_, ?_⟩, ?_, ?_, ?_⟩, by rw [if_pos blocked]⟩
    · rw [eq]
      exact sound'
    · rw [eq]
      rfl
    · rw [eq]
      rfl
    · rw [eq]
      exact setState_field Task.priority .ready s.current fun _ => rfl
    · rw [eq]
      exact setState_field Task.pid .ready s.current fun _ => rfl
    · intro u mem
      rw [List.mem_singleton.mp mem]
      exact blocked
    · intro u fresh
      rw [eq]
      exact setState_state_of_ne .ready fun h => fresh (List.mem_singleton.mpr h)
    · rw [eq]
      rfl
  · refine ⟨[], ?_, by rw [if_neg blocked]⟩
    have unchanged : taskUnblock s t = s := by
      simp only [taskUnblock, ne_eq, blocked, not_false_eq_true, if_true]
    rw [unchanged]
    exact .nothing sound

/-- Cancelling or finishing a sleep does not concern the queue. -/
theorem Sound.sleep (sound : Sound s q) (sleep : Slot → SleepMeta) :
    Sound { s with sleep := sleep } q :=
  sound.same (t := 0) ⟨fun _ _ => rfl, rfl, rfl⟩ rfl rfl rfl

theorem wakeSleeper_woke (sound : Sound s q) (i : Slot) :
    ∃ woken, Woke s (wakeSleeper s i) q woken ∧ woken ⊆ [i] := by
  unfold wakeSleeper
  split
  · set s₁ : State := { s with
      sleep := Function.update s.sleep i { s.sleep i with active := false } } with s₁_eq
    obtain ⟨woken, woke, which⟩ := taskUnblock_woke (sound.sleep _ : Sound s₁ q) i
    refine ⟨woken, ⟨woke.sound, ⟨woke.steady.current, woke.steady.quantum, woke.steady.priority,
      woke.steady.pid⟩, woke.blocked, woke.states, woke.uptime⟩, ?_⟩
    rw [which]
    split
    · exact List.Subset.refl _
    · exact List.nil_subset _
  · exact ⟨[], .nothing sound, List.nil_subset _⟩

/-- The deadline loop queues the tasks it wakes, and never the idle one. -/
theorem wakeSleepers_woke (sound : Sound s q) :
    ∃ woken, Woke s (wakeSleepers s) q woken ∧ (0 : Slot) ∉ woken := by
  unfold wakeSleepers
  suffices ∀ slots : List Slot, (0 : Slot) ∉ slots →
      ∃ woken, Woke s (slots.foldl wakeSleeper s) q woken ∧ (0 : Slot) ∉ woken from
    this _ (by simp)
  intro slots
  induction slots generalizing s q with
  | nil => exact fun _ => ⟨[], .nothing sound, List.not_mem_nil⟩
  | cons i slots ih =>
    intro fresh
    rw [List.mem_cons, not_or] at fresh
    obtain ⟨early, first, which⟩ := wakeSleeper_woke sound i
    obtain ⟨late, rest, notLate⟩ := ih first.sound fresh.2
    refine ⟨early ++ late, first.trans rest, ?_⟩
    rw [List.mem_append, not_or]
    exact ⟨fun mem => fresh.1 (List.mem_singleton.mp (which mem)), notLate⟩

/-- Task `i` is blocked until a deadline. -/
def Asleep (s : State) (i : Slot) : Prop :=
  i ≠ 0 ∧ (s.sleep i).active = true ∧ (s.pool i).state = .blocked

/-- The deadline of task `i` has come. -/
def Expired (s : State) (i : Slot) : Prop :=
  (s.uptimeTicks - (s.sleep i).deadline).toInt32 ≥ 0

theorem wakeSleepers_still (awake : ∀ i, ¬Asleep s i) : wakeSleepers s = s := by
  unfold wakeSleepers
  suffices ∀ slots : List Slot, (∀ i ∈ slots, i ≠ 0) → slots.foldl wakeSleeper s = s from
    this _ fun i mem => by simpa using mem
  intro slots
  induction slots with
  | nil => exact fun _ => rfl
  | cons i slots ih =>
    intro nonzero
    have still : wakeSleeper s i = s := by
      unfold wakeSleeper
      split
      · rename_i h
        exact absurd ⟨nonzero i List.mem_cons_self, h.1, h.2.1⟩ (awake i)
      · rfl
    rw [List.foldl_cons, still]
    exact ih fun j mem => nonzero j (List.mem_cons_of_mem _ mem)

theorem Quiet.awake (quiet : Quiet s) (i : Slot) : ¬Asleep s i := by
  rintro ⟨-, active, -⟩
  rw [quiet.sleeping i] at active
  cases active

/-- Waking another task does not touch a sleeper. -/
theorem wakeSleeper_other (sound : Sound s q) {i u : Slot} (ne : u ≠ i) :
    ((wakeSleeper s i).pool u).state = (s.pool u).state ∧
      (wakeSleeper s i).sleep u = s.sleep u := by
  unfold wakeSleeper
  split
  · rename_i h
    obtain ⟨links, head, eq, -⟩ := taskUnblock_eq (sound.sleep
      (Function.update s.sleep i { s.sleep i with active := false })) h.2.1
    rw [eq]
    exact ⟨setState_state_of_ne .ready ne, update_of_ne ne ..⟩
  · exact ⟨rfl, rfl⟩

/-- A sleeper whose deadline has come is made ready. -/
theorem wakeSleeper_self (sound : Sound s q) (asleep : Asleep s t) (expired : Expired s t) :
    ((wakeSleeper s t).pool t).state = .ready := by
  unfold wakeSleeper
  rw [if_pos ⟨asleep.2.1, asleep.2.2, expired⟩]
  obtain ⟨links, head, eq, -⟩ := taskUnblock_eq (sound.sleep
    (Function.update s.sleep t { s.sleep t with active := false })) asleep.2.2
  rw [eq]
  simp [State.setState]

/-- **The deadline loop** makes every sleeper ready whose deadline has come, and
leaves the others asleep. -/
theorem wakeSleepers_sleeper (sound : Sound s q) (asleep : Asleep s t) :
    (Expired s t → ((wakeSleepers s).pool t).state = .ready) ∧
    (¬Expired s t → Asleep (wakeSleepers s) t ∧ (wakeSleepers s).sleep t = s.sleep t) := by
  have mem : t ∈ (List.finRange 16).filter (· ≠ 0) := by
    simpa using asleep.1
  have apart : ((List.finRange 16).filter (· ≠ 0)).Nodup := (List.nodup_finRange 16).filter _
  unfold wakeSleepers
  obtain ⟨before, after, split⟩ := List.append_of_mem mem
  rw [split] at apart ⊢
  have fresh := List.nodup_append.mp apart
  have notBefore : t ∉ before := fun h => fresh.2.2 t h t List.mem_cons_self rfl
  have notAfter : t ∉ after := (List.nodup_cons.mp fresh.2.1).1
  -- Up to its own round and after it the sleeper is left alone.
  have others : ∀ (slots : List Slot) (s : State) (q : List Slot), Sound s q → t ∉ slots →
      ((slots.foldl wakeSleeper s).pool t).state = (s.pool t).state ∧
        (slots.foldl wakeSleeper s).sleep t = s.sleep t ∧
        (slots.foldl wakeSleeper s).uptimeTicks = s.uptimeTicks ∧
        ∃ q', Sound (slots.foldl wakeSleeper s) q' := by
    intro slots
    induction slots with
    | nil => exact fun s q sound _ => ⟨rfl, rfl, rfl, q, sound⟩
    | cons i slots ih =>
      intro s q sound fresh
      rw [List.mem_cons, not_or] at fresh
      obtain ⟨woken, woke, -⟩ := wakeSleeper_woke sound i
      obtain ⟨state, sleep⟩ := wakeSleeper_other sound fresh.1
      obtain ⟨state', sleep', uptime', sound'⟩ := ih _ _ woke.sound fresh.2
      exact ⟨state'.trans state, sleep'.trans sleep, uptime'.trans woke.uptime, sound'⟩
  rw [List.foldl_append, List.foldl_cons]
  obtain ⟨state₁, sleep₁, uptime₁, q₁, sound₁⟩ := others before s q sound notBefore
  set s₁ := before.foldl wakeSleeper s
  have asleep₁ : Asleep s₁ t := ⟨asleep.1, by rw [sleep₁, asleep.2.1], state₁.trans asleep.2.2⟩
  have same : Expired s₁ t ↔ Expired s t := by
    unfold Expired
    rw [uptime₁, sleep₁]
  obtain ⟨woken, woke, -⟩ := wakeSleeper_woke sound₁ t
  obtain ⟨state₂, sleep₂, -, -⟩ := others after _ _ woke.sound notAfter
  constructor
  · intro expired
    rw [state₂]
    exact wakeSleeper_self sound₁ asleep₁ (same.mpr expired)
  · intro early
    have skip : wakeSleeper s₁ t = s₁ := by
      unfold wakeSleeper
      exact if_neg fun h => early (same.mp h.2.2)
    rw [skip] at state₂ sleep₂
    rw [skip]
    refine ⟨⟨asleep.1, ?_, ?_⟩, sleep₂.trans sleep₁⟩
    · rw [sleep₂]
      exact asleep₁.2.1
    · rw [state₂]
      exact asleep₁.2.2

theorem taskWakeWaitingParent_quiet (quiet : Quiet s) (child : Slot) :
    taskWakeWaitingParent s child = s := by
  unfold taskWakeWaitingParent
  by_cases orphan : (s.pool child).ppid = taskNoParent
  · simp only [orphan, if_true]
  · simp only [orphan, if_false]
    split
    · rfl
    · simp [quiet.waiting]

/-- The end of a child wakes its waiting parent. -/
theorem taskWakeWaitingParent_woke (sound : Sound s q) (child : Slot) :
    ∃ woken, Woke s (taskWakeWaitingParent s child) q woken ∧ (Quiet s → woken = []) := by
  by_cases quiet : Quiet s
  · rw [taskWakeWaitingParent_quiet quiet child]
    exact ⟨[], .nothing sound, fun _ => rfl⟩
  suffices ∃ woken, Woke s (taskWakeWaitingParent s child) q woken by
    obtain ⟨woken, woke⟩ := this
    exact ⟨woken, woke, fun h => absurd h quiet⟩
  unfold taskWakeWaitingParent
  by_cases orphan : (s.pool child).ppid = taskNoParent
  · simp only [orphan, if_true]
    exact ⟨[], .nothing sound⟩
  · simp only [orphan, if_false]
    split
    · exact ⟨[], .nothing sound⟩
    · rename_i p _
      split
      · set s₁ := s.mapTask p fun task => { task with waitActive := false } with s₁_eq
        have fields : ∀ {β : Type} (field : Task → β)
            (_ : ∀ task : Task, field { task with waitActive := false } = field task) (u : Slot),
            field (s₁.pool u) = field (s.pool u) := by
          intro β field same u
          by_cases h : u = p
          · subst h
            simp [s₁_eq, same]
          · rw [s₁_eq, State.mapTask_of_ne _ _ h]
        have sound₁ : Sound s₁ q :=
          sound.same (only_mapTask s p _) (fields Task.next (fun _ => rfl) p)
            (fields Task.pid (fun _ => rfl) p) (fields Task.state (fun _ => rfl) p)
        obtain ⟨woken, woke, -⟩ := taskUnblock_woke sound₁ p
        refine ⟨woken, woke.sound, ⟨woke.steady.current, woke.steady.quantum, ?_, ?_⟩, ?_, ?_, ?_⟩
        · exact woke.steady.priority.trans (fields Task.priority (fun _ => rfl) _)
        · exact woke.steady.pid.trans (fields Task.pid (fun _ => rfl) _)
        · intro u mem
          exact (fields Task.state (fun _ => rfl) u).symm.trans (woke.blocked u mem)
        · intro u fresh
          exact (woke.states u fresh).trans (fields Task.state (fun _ => rfl) u)
        · exact woke.uptime
      · exact ⟨[], .nothing sound⟩

/-! ### Reaping -/

/-- Children have lost their parent, and zombies off the processor their slot. -/
structure Housekept (s s' : State) : Prop where
  current : s'.current = s.current
  quantum : s'.quantumCounter = s.quantumCounter
  head : s'.runQueueHead = s.runQueueHead
  tasks : ∀ u, (∃ p, s'.pool u = { s.pool u with ppid := p }) ∨
    u ≠ 0 ∧ u ≠ s.current ∧ (s.pool u).state = .zombie ∧
      (s'.pool u).state = .unused ∧ (s'.pool u).waitActive = false
  sleep : ∀ u, s'.sleep u = s.sleep u ∨ s'.sleep u = ⟨0, false⟩

theorem Housekept.refl (s : State) : Housekept s s :=
  ⟨rfl, rfl, rfl, fun _ => .inl ⟨_, rfl⟩, fun _ => .inl rfl⟩

theorem Housekept.trans {s'' : State} (first : Housekept s s') (second : Housekept s' s'') :
    Housekept s s'' where
  current := second.current.trans first.current
  quantum := second.quantum.trans first.quantum
  head := second.head.trans first.head
  tasks u := by
    rcases first.tasks u with ⟨p, eq⟩ | ⟨ne, off, zombie, free, silent⟩
    · rcases second.tasks u with ⟨p', eq'⟩ | ⟨ne, off, zombie, freed⟩
      · exact .inl ⟨p', by rw [eq', eq]⟩
      · rw [eq] at zombie
        exact .inr ⟨ne, first.current ▸ off, zombie, freed⟩
    · rcases second.tasks u with ⟨p', eq'⟩ | ⟨-, -, zombie', -⟩
      · refine .inr ⟨ne, off, zombie, ?_, ?_⟩
        · rw [eq']
          exact free
        · rw [eq']
          exact silent
      · rw [free] at zombie'
        cases zombie'
  sleep u := by
    rcases second.sleep u with eq | eq
    · rw [eq]
      exact first.sleep u
    · exact .inr eq

/-- What the scheduler reads of a task other than its link survives, unless the
task was a zombie. -/
theorem Housekept.state (kept : Housekept s s') (u : Slot) :
    (s'.pool u).state = (s.pool u).state ∨
      (s.pool u).state = .zombie ∧ (s'.pool u).state = .unused := by
  rcases kept.tasks u with ⟨p, eq⟩ | ⟨-, -, zombie, free, -⟩
  · exact .inl (by rw [eq])
  · exact .inr ⟨zombie, free⟩

theorem Housekept.atCurrent (kept : Housekept s s') :
    ∃ p, s'.pool s.current = { s.pool s.current with ppid := p } := by
  rcases kept.tasks s.current with same | ⟨-, ne, -⟩
  · exact same
  · exact absurd rfl ne

theorem Housekept.steady (kept : Housekept s s') : Steady s s' := by
  obtain ⟨p, eq⟩ := kept.atCurrent
  exact ⟨kept.current, kept.quantum, by rw [eq], by rw [eq]⟩

theorem Housekept.quiet (kept : Housekept s s') (quiet : Quiet s) : Quiet s' where
  waiting u := by
    rcases kept.tasks u with ⟨p, eq⟩ | ⟨-, -, -, -, silent⟩
    · rw [eq]
      exact quiet.waiting u
    · exact silent
  sleeping u := by
    rcases kept.sleep u with eq | eq
    · rw [eq]
      exact quiet.sleeping u
    · rw [eq]

/-- A runnable task after the housekeeping was one before it. -/
theorem Housekept.runnable (kept : Housekept s s') {u : Slot} :
    Runnable (s'.pool u).state ↔ Runnable (s.pool u).state := by
  rcases kept.state u with eq | ⟨zombie, free⟩
  · rw [eq]
  · simp [Runnable, zombie, free]

theorem Sound.housekept (sound : Sound s q) (kept : Housekept s s') : Sound s' q where
  queued := by
    refine sound.queued.congr (fun u mem => ?_) kept.head
    rcases kept.tasks u with ⟨p, eq⟩ | ⟨-, -, zombie, -⟩
    · show (s'.pool u).next = (s.pool u).next
      rw [eq]
    · exact absurd (sound.runnable u mem) (not_runnable_zombie zombie)
  runnable u mem := kept.runnable.mpr (sound.runnable u mem)
  member u ne run := sound.member u ne (kept.runnable.mp run)
  running u run := by
    rw [kept.current]
    rcases kept.state u with eq | ⟨-, free⟩
    · exact sound.running u (eq ▸ run)
    · rw [free] at run
      cases run
  idlePid := by
    rcases kept.tasks 0 with ⟨p, eq⟩ | ⟨ne, -⟩
    · rw [eq]
      exact sound.idlePid
    · exact absurd rfl ne
  idleUsed := by
    rcases kept.tasks 0 with ⟨p, eq⟩ | ⟨ne, -⟩
    · rw [eq]
      exact sound.idleUsed
    · exact absurd rfl ne
  idleAlive := by
    rcases kept.tasks 0 with ⟨p, eq⟩ | ⟨ne, -⟩
    · rw [eq]
      exact sound.idleAlive
    · exact absurd rfl ne

theorem releaseZombieSlot_housekept (s : State) (ne : t ≠ 0) :
    Housekept s (releaseZombieSlot s t) := by
  unfold releaseZombieSlot
  split
  · exact .refl s
  · rename_i free
    rw [not_or, not_not] at free
    refine ⟨rfl, rfl, rfl, fun u => ?_, fun u => ?_⟩
    · by_cases h : u = t
      · subst h
        refine .inr ⟨ne, free.1, free.2, ?_, ?_⟩
        · rw [State.mapTask_self]
          rfl
        · rw [State.mapTask_self]
          rfl
      · exact .inl ⟨(s.pool u).ppid, by rw [State.mapTask_of_ne _ _ h]; rfl⟩
    · by_cases h : u = t
      · subst h
        exact .inr (update_self ..)
      · exact .inl (update_of_ne h ..)

theorem orphanChild_housekept (parent : UInt32) (s : State) (ne : t ≠ 0) :
    Housekept s (orphanChild parent s t) := by
  unfold orphanChild
  split
  · exact .refl s
  · have cut : Housekept s (s.mapTask t fun task => { task with ppid := taskNoParent }) := by
      refine ⟨rfl, rfl, rfl, fun u => .inl ?_, fun _ => .inl rfl⟩
      by_cases h : u = t
      · subst h
        exact ⟨taskNoParent, State.mapTask_self ..⟩
      · exact ⟨(s.pool u).ppid, by rw [State.mapTask_of_ne _ _ h]⟩
    dsimp only
    split
    · exact cut.trans (releaseZombieSlot_housekept _ ne)
    · exact cut

theorem taskOrphanChildren_housekept (s : State) (parent : Slot) :
    Housekept s (taskOrphanChildren s parent) := by
  unfold taskOrphanChildren
  generalize (s.pool parent).pid = pid
  refine List.foldlRecOn _ _ (.refl s) fun s' kept i mem => ?_
  have ne : i ≠ 0 := by simpa using mem
  exact kept.trans (orphanChild_housekept pid s' ne)

/-! ### The end of a task -/

/-- Task `t` has ended: it is off the queue, its parent may have entered it, and
its children have been taken care of. -/
structure Ended (s s' : State) (q : List Slot) (t : Slot) (woken : List Slot) : Prop where
  sound : Sound s' (q.erase t ++ woken)
  steady : Steady s s'
  quiet : Quiet s → woken = [] ∧ Quiet s'
  gone : (s'.pool t).state = .zombie ∨ t ≠ s.current ∧ (s'.pool t).state = .unused
  blocked : ∀ u ∈ woken, u ≠ t ∧ (s.pool u).state = .blocked
  states : ∀ u, u ≠ t → u ∉ woken → (s'.pool u).state = (s.pool u).state ∨
    (s.pool u).state = .zombie ∧ (s'.pool u).state = .unused

/-- `task_mark_zombie` does nothing to the idle task and to a dead one. -/
theorem taskMarkZombie_refused {code : Int} {signal : UInt32}
    (refused : (s.pool t).pid = 0 ∨ (s.pool t).state = .unused ∨ (s.pool t).state = .zombie) :
    taskMarkZombie s t code signal = s := by
  simp only [taskMarkZombie, refused, if_true]

/-- The state of `task_mark_zombie` before it edits the queue. -/
def marked (s : State) (t : Slot) (code : Int) (signal : UInt32) : State :=
  (sleepCancelTask s t).mapTask t fun task =>
    { task with state := .zombie, exitCode := code, exitSignal := signal }

theorem only_marked (s : State) (t : Slot) (code : Int) (signal : UInt32) :
    Only t s (marked s t code signal) :=
  ⟨fun _ ne => update_of_ne ne .., rfl, rfl⟩

theorem marked_quiet {code : Int} {signal : UInt32} (quiet : Quiet s) :
    Quiet (marked s t code signal) where
  waiting u := by
    by_cases h : u = t
    · subst h
      exact (congrArg Task.waitActive (State.mapTask_self ..)).trans (quiet.waiting u)
    · rw [(only_marked s t code signal).others u h]
      exact quiet.waiting u
  sleeping u := by
    show (Function.update s.sleep t ⟨0, false⟩ u).active = false
    by_cases h : u = t
    · subst h
      rw [update_self]
    · rw [update_of_ne h]
      exact quiet.sleeping u

theorem marked_self (s : State) (t : Slot) (code : Int) (signal : UInt32) :
    (marked s t code signal).pool t =
      { s.pool t with state := .zombie, exitCode := code, exitSignal := signal } :=
  State.mapTask_self ..

/-- `task_mark_zombie` as its three phases: the mark and the queue, the parent, the
children. -/
theorem taskMarkZombie_eq (sound : Sound s q) (code : Int) (signal : UInt32)
    (pid : (s.pool t).pid ≠ 0) (alive : (s.pool t).state ≠ .zombie)
    (used : (s.pool t).state ≠ .unused) :
    ∃ links head, Sound ((marked s t code signal).relink links head) (q.erase t) ∧
      taskMarkZombie s t code signal =
        taskOrphanChildren
          (taskWakeWaitingParent ((marked s t code signal).relink links head) t) t := by
  have notIdle : t ≠ 0 := by
    rintro rfl
    exact pid sound.idlePid
  have task := marked_self s t code signal
  obtain ⟨links, head, removed, sound₁⟩ := sound.leave (only_marked s t code signal)
    (show ((marked s t code signal).pool t).next = (s.pool t).next by rw [task])
    (not_runnable_zombie (by rw [task])) (.of_ne notIdle)
  refine ⟨links, head, sound₁, ?_⟩
  have accepted : ¬((s.pool t).pid = 0 ∨ (s.pool t).state = .unused ∨
      (s.pool t).state = .zombie) := by
    simp [pid, used, alive]
  rw [← removed]
  simp only [taskMarkZombie, accepted, if_false]
  rfl

/-- **The end of a task takes it off the queue.** -/
theorem taskMarkZombie_ended (sound : Sound s q) (code : Int) (signal : UInt32)
    (pid : (s.pool t).pid ≠ 0) (alive : (s.pool t).state ≠ .zombie)
    (used : (s.pool t).state ≠ .unused) :
    ∃ woken, Ended s (taskMarkZombie s t code signal) q t woken := by
  have only := only_marked s t code signal
  have task := marked_self s t code signal
  have zombie : ((marked s t code signal).pool t).state = .zombie := by rw [task]
  obtain ⟨links, head, sound₁, eq⟩ := taskMarkZombie_eq sound code signal pid alive used
  set s₁ := (marked s t code signal).relink links head with s₁_eq
  obtain ⟨woken, woke, nobody⟩ := taskWakeWaitingParent_woke sound₁ t
  have kept := taskOrphanChildren_housekept (taskWakeWaitingParent s₁ t) t
  have steady₁ : Steady s s₁ := by
    refine ⟨rfl, rfl, ?_, ?_⟩
    · by_cases h : s.current = t
      · rw [s₁_eq, State.relink_pool, h, task]
      · rw [s₁_eq, State.relink_pool, only.others _ h]
    · by_cases h : s.current = t
      · rw [s₁_eq, State.relink_pool, h, task]
      · rw [s₁_eq, State.relink_pool, only.others _ h]
  have steady := (steady₁.trans woke.steady).trans kept.steady
  have notWoken : t ∉ woken := fun mem => by
    have := (woke.blocked t mem).symm.trans zombie
    cases this
  rw [eq]
  refine ⟨woken, woke.sound.housekept kept, steady, fun quiet => ?_, ?_, fun u mem => ?_,
    fun u ne fresh => ?_⟩
  · have quietMarked : Quiet (marked s t code signal) := marked_quiet quiet
    have quiet₁ : Quiet s₁ := ⟨quietMarked.waiting, quietMarked.sleeping⟩
    have still := taskWakeWaitingParent_quiet quiet₁ t
    exact ⟨nobody quiet₁, kept.quiet (still.symm ▸ quiet₁)⟩
  · have after : ((taskWakeWaitingParent s₁ t).pool t).state = .zombie :=
      (woke.states t notWoken).trans zombie
    rcases kept.tasks t with ⟨p, same⟩ | ⟨-, off, -, free, -⟩
    · left
      rw [same]
      exact after
    · right
      rw [woke.steady.current] at off
      exact ⟨off, free⟩
  · have ne : u ≠ t := fun h => notWoken (h ▸ mem)
    refine ⟨ne, ?_⟩
    have := woke.blocked u mem
    rwa [s₁_eq, State.relink_pool, only.others u ne] at this
  · have before : ((taskWakeWaitingParent s₁ t).pool u).state = (s.pool u).state := by
      rw [woke.states u fresh, s₁_eq, State.relink_pool, only.others u ne]
    rcases kept.state u with same | ⟨dead, free⟩
    · exact .inl (same.trans before)
    · exact .inr ⟨before.symm.trans dead, free⟩

/-- What a parent waits for: the end of the child `t`. -/
def WaitsFor (s : State) (p t : Slot) : Prop :=
  taskLookupPid s (s.pool t).ppid = some p ∧ (s.pool t).ppid ≠ taskNoParent ∧
    (s.pool p).state = .blocked ∧ (s.pool p).waitActive = true ∧
    ((s.pool p).waitTarget = taskWaitAny ∨ (s.pool p).waitTarget = (s.pool t).pid)

/-- No parent misses the end of the child it waits for. -/
theorem taskMarkZombie_wakes (sound : Sound s q) (code : Int) (signal : UInt32) {p : Slot}
    (pid : (s.pool t).pid ≠ 0) (alive : (s.pool t).state ≠ .zombie)
    (used : (s.pool t).state ≠ .unused) (other : p ≠ t) (waits : WaitsFor s p t) :
    ((taskMarkZombie s t code signal).pool p).state = .ready := by
  have only := only_marked s t code signal
  have task := marked_self s t code signal
  obtain ⟨links, head, sound₁, eq⟩ := taskMarkZombie_eq sound code signal pid alive used
  set s₁ := (marked s t code signal).relink links head with s₁_eq
  obtain ⟨looked, parented, blocked, active, target⟩ := waits
  have child : s₁.pool t = { s.pool t with
      state := .zombie, exitCode := code, exitSignal := signal, next := links t } := by
    rw [s₁_eq, State.relink_pool, task]
  have parent : s₁.pool p = { s.pool p with next := links p } := by
    rw [s₁_eq, State.relink_pool, only.others p other]
  -- The search for the parent sees the same pids, and the child is still in use.
  have found : taskLookupPid s₁ (s.pool t).ppid = some p := by
    rw [← looked]
    refine List.find?_congr fun u _ => ?_
    by_cases h : u = t
    · subst h
      simp [child, used]
    · simp [s₁_eq, only.others u h]
  have woken : ((taskWakeWaitingParent s₁ t).pool p).state = .ready := by
    unfold taskWakeWaitingParent
    unfold taskLookupPid at found
    simp only [child, parented, if_false, found]
    have ready : (s₁.pool p).state = .blocked ∧ (s₁.pool p).waitActive = true ∧
        ((s₁.pool p).waitTarget = taskWaitAny ∨ (s₁.pool p).waitTarget = (s.pool t).pid) := by
      rw [parent]
      exact ⟨blocked, active, target⟩
    rw [if_pos ready]
    have sound₂ : Sound (s₁.mapTask p fun task => { task with waitActive := false }) (q.erase t) :=
      sound₁.mapTask p (fun _ => rfl) (fun _ => rfl) (fun _ => rfl)
    have blocked₂ : ((s₁.mapTask p fun task => { task with waitActive := false }).pool p).state =
        .blocked := by
      rw [State.mapTask_self]
      exact ready.1
    obtain ⟨links', head', unblocked, -⟩ := taskUnblock_eq sound₂ blocked₂
    rw [unblocked]
    exact congrArg Task.state (State.mapTask_self ..)
  rw [eq]
  rcases (taskOrphanChildren_housekept (taskWakeWaitingParent s₁ t) t).state p with
    same | ⟨zombie, -⟩
  · exact same.trans woken
  · rw [woken] at zombie
    cases zombie

/-! ### Switching -/

/-- Giving the processor to a task of the queue, or to the idle one. -/
theorem Sound.switchTo (sound : Sound s q) (target : t ∈ q ∨ t = 0)
    (stopped : (s.pool s.current).state ≠ .running) : Sound (switchTo s t) q := by
  have state : ((Sched.switchTo s t).pool t).state = .running := by
    simp [Sched.switchTo, State.setState]
  have other : ∀ u, u ≠ t → ((Sched.switchTo s t).pool u) = s.pool u := by
    intro u ne
    exact update_of_ne ne ..
  have links : ∀ u, (Sched.switchTo s t).link u = s.link u := by
    intro u
    by_cases h : u = t
    · subst h
      simp [Sched.switchTo, State.setState, State.link]
    · exact congrArg Task.next (other u h)
  refine ⟨sound.queued.congr (fun u _ => links u) rfl, fun u mem => ?_, fun u ne run => ?_,
    fun u run => ?_, ?_, ?_, ?_⟩
  · by_cases h : u = t
    · exact .inr (h ▸ state)
    · rw [other u h]
      exact sound.runnable u mem
  · by_cases h : u = t
    · subst h
      exact target.resolve_right ne
    · rw [other u h] at run
      exact sound.member u ne run
  · show u = t
    by_contra h
    rw [other u h] at run
    exact stopped (sound.running u run ▸ run)
  · by_cases h : 0 = t
    · subst h
      have := sound.idlePid
      simpa [Sched.switchTo, State.setState] using this
    · rw [other 0 h]
      exact sound.idlePid
  · by_cases h : 0 = t
    · subst h
      rw [state]
      decide
    · rw [other 0 h]
      exact sound.idleUsed
  · by_cases h : 0 = t
    · subst h
      rw [state]
      decide
    · rw [other 0 h]
      exact sound.idleAlive

/-- A running task is put back to ready. -/
def pause (s : State) : State :=
  if (s.pool s.current).state = .running then s.setState s.current .ready else s

theorem pause_state_of_ne {u : Slot} (ne : u ≠ s.current) :
    ((pause s).pool u).state = (s.pool u).state := by
  unfold pause
  split
  · exact setState_state_of_ne .ready ne
  · rfl

theorem pause_stopped (s : State) : ((pause s).pool s.current).state ≠ .running := by
  unfold pause
  split
  · simp [State.setState]
  · assumption

theorem pause_current (s : State) : (pause s).current = s.current := by
  unfold pause
  split
  · rfl
  · rfl

theorem Sound.pause (sound : Sound s q) : Sound (pause s) q := by
  unfold Sched.pause
  split
  · rename_i running
    have task : ((s.setState s.current .ready).pool s.current) =
        { s.pool s.current with state := .ready } := State.mapTask_self ..
    refine sound.change (t := s.current) ?_ (fun u ne => setState_state_of_ne .ready ne)
      (fun u _ => setState_field Task.pid .ready u fun _ => rfl) rfl (fun _ _ => Iff.rfl) ?_ ?_ ?_ ?_
    · exact sound.queued.congr (fun u _ => setState_field Task.next .ready u fun _ => rfl) rfl
    · intro _
      rw [task]
      exact .inl rfl
    · intro ne _
      exact sound.member _ ne (.inr running)
    · exact fun _ => rfl
    · refine ⟨fun h => ?_, fun _ => ?_, fun _ => ?_⟩
      · rw [task, h]
        exact sound.idlePid
      · rw [task]
        exact TaskState.noConfusion
      · rw [task]
        exact TaskState.noConfusion
  · exact sound

/-- On the queue, ready and not current is the same as not current. -/
theorem Sound.find_ready (sound : Sound s q) :
    q.find? (fun t => (s.pool t).state = .ready ∧ t ≠ s.current) = q.find? (· ≠ s.current) := by
  refine List.find?_congr fun u mem => ?_
  by_cases h : u = s.current
  · simp [h]
  · have ready : (s.pool u).state = .ready :=
      (sound.runnable u mem).resolve_right fun run => h (sound.running u run)
    simp [ready, h]

/-- **The decision of a tick**, on the list of queued slots: the first one that is
not current gets the processor once the quantum is used up. -/
theorem selectNext_eq (sound : Sound s q) :
    selectNext s =
      some (if q = [] then
        if (s.pool s.current).pid ≠ 0 ∧
            ((s.pool s.current).state = .zombie ∨ (s.pool s.current).state = .blocked) then
          switchTo s 0 else s
      else if ¬Due s then { s with quantumCounter := s.quantumCounter + 1 }
      else
        match q.find? (· ≠ s.current) with
        | none => { s with quantumCounter := 0 }
        | some next => switchTo (pause { s with quantumCounter := 0 }) next) := by
  have headEq := sound.queued.head
  cases q with
  | nil =>
    rw [List.head?_nil] at headEq
    simp only [selectNext, headEq, if_true]
    split
    · rfl
    · rfl
  | cons a xs =>
    rw [List.head?_cons] at headEq
    simp only [selectNext, headEq, if_false, reduceCtorEq]
    by_cases due : Due s
    · simp only [due, not_true_eq_false, if_false]
      have found := sound.queued.search_eq
        (fun t => (s.pool t).state = .ready ∧ t ≠ s.current)
      rw [sound.find_ready] at found
      have found' : ∀ head, search ({ s with runQueueHead := head, quantumCounter := 0 } : State).link
          (fun t => (s.pool t).state = .ready ∧ t ≠ s.current) a 16 a =
          some ((a :: xs).find? (· ≠ s.current)) := fun _ => found
      rw [found']
      cases (a :: xs).find? (· ≠ s.current) with
      | none => rfl
      | some next => rfl
    · simp only [due, not_false_eq_true, if_true]

/-- The quantum does not concern the queue. -/
theorem Sound.quantum (sound : Sound s q) (n : UInt32) : Sound { s with quantumCounter := n } q :=
  sound.same (t := 0) ⟨fun _ _ => rfl, rfl, rfl⟩ rfl rfl rfl

/-- **A tick always ends**, and keeps the queue. -/
theorem selectNext_sound (sound : Sound s q) : ∃ s', selectNext s = some s' ∧ Sound s' q := by
  refine ⟨_, selectNext_eq sound, ?_⟩
  split
  · split
    · rename_i left
      refine sound.switchTo (.inr rfl) ?_
      rcases left.2 with zombie | blocked
      · rw [zombie]
        decide
      · rw [blocked]
        decide
    · exact sound
  · split
    · exact sound.quantum _
    · split
      · exact sound.quantum _
      · rename_i next found
        have mem := List.mem_of_find?_eq_some found
        refine ((sound.quantum 0).pause).switchTo (.inl mem) ?_
        rw [pause_current]
        exact pause_stopped _

/-- A tick makes the current task ready and another one running, and leaves the
other states alone. -/
theorem selectNext_state (sound : Sound s q) (selected : selectNext s = some s') (u : Slot) :
    (s'.pool u).state = (s.pool u).state ∨
      Runnable (s'.pool u).state ∧ (u = s.current ∨ u = s'.current) := by
  have switched : ∀ (s₁ : State) (next : Slot), u ≠ next →
      ((switchTo s₁ next).pool u).state = (s₁.pool u).state := by
    intro s₁ next h
    exact congrArg Task.state (update_of_ne h ..)
  have running : ∀ (s₁ : State) (next : Slot), ((switchTo s₁ next).pool next).state = .running := by
    intro s₁ next
    simp [Sched.switchTo, State.setState]
  rw [selectNext_eq sound] at selected
  obtain rfl := Option.some.inj selected
  split
  · split
    · by_cases h : u = 0
      · subst h
        exact .inr ⟨.inr (running s 0), .inr rfl⟩
      · exact .inl (switched s 0 h)
    · exact .inl rfl
  · split
    · exact .inl rfl
    · split
      · exact .inl rfl
      · rename_i next _
        by_cases chosen : u = next
        · subst chosen
          exact .inr ⟨.inr (running _ _), .inr rfl⟩
        · rw [switched _ next chosen]
          by_cases h : u = s.current
          · subst h
            unfold pause
            split
            · exact .inr ⟨.inl (congrArg Task.state (State.mapTask_self ..)), .inl rfl⟩
            · exact .inl rfl
          · exact .inl (pause_state_of_ne h)

theorem Sound.uptime (sound : Sound s q) (n : UInt32) : Sound { s with uptimeTicks := n } q :=
  sound.same (t := 0) ⟨fun _ _ => rfl, rfl, rfl⟩ rfl rfl rfl

theorem schedTick_sound (sound : Sound s q) :
    ∃ s' woken, schedTick s = some s' ∧ Sound s' (q ++ woken) ∧ (0 : Slot) ∉ woken := by
  obtain ⟨woken, woke, idle⟩ := wakeSleepers_woke (sound.uptime (s.uptimeTicks + 1))
  obtain ⟨s', eq, sound'⟩ := selectNext_sound woke.sound
  exact ⟨s', woken, eq, sound', idle⟩

/-- The successor is a queued task or the idle one. -/
theorem nextReady_mem (sound : Sound s q) : (nextReady s).getD 0 ∈ q ∨ (nextReady s).getD 0 = 0 := by
  unfold nextReady
  have headEq := sound.queued.head
  cases q with
  | nil =>
    rw [List.head?_nil] at headEq
    simp only [headEq]
    exact .inr rfl
  | cons a xs =>
    rw [List.head?_cons] at headEq
    simp only [headEq, sound.queued.search_eq, Option.join_some]
    cases found : (a :: xs).find? fun t => (s.pool t).state = .ready with
    | none => exact .inr rfl
    | some next => exact .inl (List.mem_of_find?_eq_some found)

theorem switchAway_sound (sound : Sound s q) (stopped : (s.pool s.current).state ≠ .running) :
    Sound (switchAway s) q :=
  sound.switchTo (nextReady_mem sound) stopped

/-- No sleeper misses its deadline. -/
theorem schedTick_wakes (sound : Sound s q) (asleep : Asleep s t)
    (expired : Expired { s with uptimeTicks := s.uptimeTicks + 1 } t)
    (ticked : schedTick s = some s') : (s'.pool t).state ≠ .blocked := by
  have sound₁ := sound.uptime (s.uptimeTicks + 1)
  obtain ⟨woken, woke, -⟩ := wakeSleepers_woke sound₁
  have ready := (wakeSleepers_sleeper sound₁ (t := t) asleep).1 expired
  rcases selectNext_state woke.sound ticked t with same | run
  · rw [same, ready]
    exact TaskState.noConfusion
  · exact fun blocked => not_runnable_blocked blocked run.1

/-! ### Creation -/

theorem allocTaskSlot_spec (sound : Sound s q) (found : allocTaskSlot s = (s', some t)) :
    t ≠ 0 ∧ Only t s s' ∧ Housekept s s' ∧
      ((s.pool t).state = .unused ∨ (s.pool t).state = .zombie) := by
  unfold allocTaskSlot at found
  split at found
  · rename_i i free
    obtain ⟨rfl, rfl⟩ := Prod.mk.inj found |>.imp id Option.some.inj
    have unused : (s.pool i).state = .unused := by simpa using List.find?_some free
    refine ⟨?_, ⟨fun _ _ => rfl, rfl, rfl⟩, .refl s, .inl unused⟩
    rintro rfl
    exact sound.idleUsed unused
  · split at found
    · rename_i i orphan
      obtain ⟨rfl, rfl⟩ := Prod.mk.inj found |>.imp id Option.some.inj
      obtain ⟨ne, zombie, -⟩ : i ≠ 0 ∧ (s.pool i).state = .zombie ∧ (s.pool i).ppid = taskNoParent := by
        simpa using List.find?_some orphan
      have kept := releaseZombieSlot_housekept s ne
      refine ⟨ne, ⟨fun u h => ?_, kept.head, kept.current⟩, kept, .inr zombie⟩
      unfold releaseZombieSlot
      split
      · rfl
      · exact update_of_ne h ..
    · simp at found

theorem allocTaskSlot_none (full : (allocTaskSlot s).2 = none) : (allocTaskSlot s).1 = s := by
  unfold allocTaskSlot at full ⊢
  split
  · rfl
  · split
    · simp_all
    · rfl

theorem only_fillSlot (s : State) (t : Slot) (priority : UInt32) :
    Only t s (fillSlot s t priority) :=
  ⟨fun _ ne => (update_of_ne ne ..).trans (update_of_ne ne ..), rfl, rfl⟩

theorem fillSlot_state (s : State) (t : Slot) (priority : UInt32) :
    ((fillSlot s t priority).pool t).state = .ready := by
  simp [fillSlot, sleepCancelTask]

theorem fillSlot_quiet (t : Slot) (priority : UInt32) (quiet : Quiet s) :
    Quiet (fillSlot s t priority) where
  waiting u := by
    by_cases h : u = t
    · subst h
      simp [fillSlot, sleepCancelTask]
    · rw [(only_fillSlot s t priority).others u h]
      exact quiet.waiting u
  sleeping u := by
    show (Function.update s.sleep t ⟨0, false⟩ u).active = false
    by_cases h : u = t
    · subst h
      rw [update_self]
    · rw [update_of_ne h]
      exact quiet.sleeping u

/-- Task `t` has been created and is at the end of the queue. -/
structure Created (s s' : State) (q : List Slot) (t : Slot) : Prop where
  sound : Sound s' (q ++ [t])
  free : (s.pool t).state = .unused ∨ (s.pool t).state = .zombie
  current : s'.current = s.current
  quantum : s'.quantumCounter = s.quantumCounter
  others : ∀ u, u ≠ t → ∃ n, s'.pool u = { s.pool u with next := n }
  ready : (s'.pool t).state = .ready
  quiet : Quiet s → Quiet s'

/-- **`task_create` fails only for want of a slot or of a stack.** -/
theorem taskCreate_cases (sound : Sound s q) (priority : UInt32) (stackOk : Bool) :
    (∃ t, (taskCreate s priority stackOk).2 = some t ∧
      Created s (taskCreate s priority stackOk).1 q t) ∨
    ((taskCreate s priority stackOk).2 = none ∧
      Housekept s (taskCreate s priority stackOk).1 ∧
      ((allocTaskSlot s).2 = none ∨ stackOk = false)) := by
  rcases alloc : allocTaskSlot s with ⟨s₁, _ | t⟩
  · right
    have same : s₁ = s := by
      have := allocTaskSlot_none (s := s) (by rw [alloc])
      rwa [alloc] at this
    subst same
    simp only [taskCreate, alloc, true_or, and_true, true_and]
    exact .refl s₁
  · obtain ⟨ne, only, kept, free⟩ := allocTaskSlot_spec sound alloc
    cases stackOk with
    | false =>
      right
      simp only [taskCreate, alloc, Bool.not_false, if_true, or_true, and_true, true_and]
      exact kept
    | true =>
      left
      have sound₁ : Sound s₁ q := sound.housekept kept
      have off : ¬Runnable (s.pool t).state := by
        rcases free with h | h <;> simp [Runnable, h]
      have ready := fillSlot_state s₁ t priority
      obtain ⟨links, head, added, sound'⟩ := sound₁.enter (only_fillSlot s₁ t priority)
        (sound.notMem_of_state off) ready (fun h => absurd h ne)
      refine ⟨t, ?_, ?_⟩
      · simp only [taskCreate, alloc, Bool.not_true, Bool.false_eq_true, if_false, added]
      · simp only [taskCreate, alloc, Bool.not_true, Bool.false_eq_true, if_false, added]
        refine ⟨sound', free, kept.current, kept.quantum, fun u h => ⟨links u, ?_⟩, ready, ?_⟩
        · rw [State.relink_pool, (only_fillSlot s₁ t priority).others u h, only.others u h]
        · intro quiet
          have filled := fillSlot_quiet t priority (kept.quiet quiet)
          exact ⟨filled.waiting, filled.sleeping⟩

/-! ### Operations -/

/-- The operations on the scheduler. Besides the calls there are the return of the
processor into `task_waitpid`, and the loader giving a task its address space. -/
inductive Op where
  | create (priority : UInt32) (stackOk : Bool)
  | suspendUnstarted (t : Slot)
  | discardUnstarted (t : Slot)
  | exit (code : Int)
  | exitFromSyscall (code : Int)
  | kill (pid : UInt32) (code : Int)
  | sendSignal (pid : Int32) (sig : Int)
  | blockFromSyscall
  | block
  | unblock (t : Slot)
  | sleepTicks (ticks : UInt32)
  | waitpid (pid : Int32) (options : UInt32)
  | waitpidResume (pid : Int32) (options : UInt32)
  | tick
  | loadImage (t : Slot) (present : Bool)

/-- Perform one operation; `none` when a walk of it does not end. -/
def perform (s : State) : Op → Option State
  | .create priority stackOk => some (taskCreate s priority stackOk).1
  | .suspendUnstarted t => some (taskSuspendUnstarted s t).1
  | .discardUnstarted t => some (taskDiscardUnstarted s t).1
  | .exit code => taskExit s code
  | .exitFromSyscall code => some (taskExitFromSyscall s code)
  | .kill pid code => some (taskKill s pid code).1
  | .sendSignal pid sig => some (taskSendSignal s pid sig).1
  | .blockFromSyscall => some (taskBlockFromSyscall s)
  | .block => taskBlock s
  | .unblock t => some (taskUnblock s t)
  | .sleepTicks ticks => some (taskSleepTicksFromSyscall s ticks).1
  | .waitpid pid options => (taskWaitpid s pid options).map Prod.fst
  | .waitpidResume pid options => (taskWaitpidResume s pid options).map Prod.fst
  | .tick => schedTick s
  | .loadImage t present => some (s.mapTask t fun task => { task with hasAddressSpace := present })

def Step (s : State) (op : Op) (s' : State) : Prop := perform s op = some s'

/-- Some list of slots is the run queue. -/
def Ordered (s : State) : Prop := ∃ q, Sound s q

theorem taskMarkZombie_ordered (sound : Sound s q) (t : Slot) (code : Int) (signal : UInt32) :
    Ordered (taskMarkZombie s t code signal) := by
  by_cases refused : (s.pool t).pid = 0 ∨ (s.pool t).state = .unused ∨ (s.pool t).state = .zombie
  · rw [taskMarkZombie_refused refused]
    exact ⟨q, sound⟩
  · rw [not_or, not_or] at refused
    obtain ⟨woken, ended⟩ := taskMarkZombie_ended sound code signal refused.1 refused.2.2 refused.2.1
    exact ⟨_, ended.sound⟩

/-- After its end the current task does not run. -/
theorem taskMarkZombie_current (sound : Sound s q) (code : Int) (signal : UInt32)
    (pid : (s.pool s.current).pid ≠ 0) :
    ∃ q', Sound (taskMarkZombie s s.current code signal) q' ∧
      ((taskMarkZombie s s.current code signal).pool
        (taskMarkZombie s s.current code signal).current).state ≠ .running := by
  by_cases refused : (s.pool s.current).state = .unused ∨ (s.pool s.current).state = .zombie
  · rw [taskMarkZombie_refused (.inr refused)]
    refine ⟨q, sound, ?_⟩
    rcases refused with h | h <;> rw [h] <;> exact TaskState.noConfusion
  · rw [not_or] at refused
    obtain ⟨woken, ended⟩ := taskMarkZombie_ended sound code signal pid refused.2 refused.1
    refine ⟨_, ended.sound, ?_⟩
    rw [ended.steady.current]
    rcases ended.gone with zombie | ⟨off, -⟩
    · rw [zombie]
      exact TaskState.noConfusion
    · exact absurd rfl off

/-- The current task stops and leaves the queue. -/
theorem blocked_sound (sound : Sound s q) :
    ∃ links head, queueRemove (s.setState s.current .blocked) s.current =
        (s.setState s.current .blocked).relink links head ∧
      Sound ((s.setState s.current .blocked).relink links head) (q.erase s.current) := by
  have task : ((s.setState s.current .blocked).pool s.current) =
      { s.pool s.current with state := .blocked } := State.mapTask_self ..
  refine sound.leave (only_mapTask s s.current _) ?_ ?_ ⟨fun h => ?_, fun _ => ?_, fun _ => ?_⟩
  · exact setState_field Task.next .blocked s.current fun _ => rfl
  · exact not_runnable_blocked (by rw [task])
  · rw [task, h]
    exact sound.idlePid
  · rw [task]
    exact TaskState.noConfusion
  · rw [task]
    exact TaskState.noConfusion

theorem taskBlock_ordered (sound : Sound s q) : ∃ s', taskBlock s = some s' ∧ Ordered s' := by
  obtain ⟨links, head, removed, sound₁⟩ := blocked_sound sound
  obtain ⟨s', woken, ticked, sound', -⟩ := schedTick_sound sound₁
  refine ⟨s', ?_, _, sound'⟩
  rw [taskBlock, removed, ticked]

theorem taskBlockFromSyscall_ordered (sound : Sound s q) : Ordered (taskBlockFromSyscall s) := by
  unfold taskBlockFromSyscall
  split
  · exact ⟨q, sound⟩
  · obtain ⟨links, head, removed, sound₁⟩ := blocked_sound sound
    rw [removed]
    refine ⟨_, switchAway_sound sound₁ ?_⟩
    have : ((s.setState s.current .blocked).pool s.current).state = .blocked := by
      simp [State.setState]
    show ((s.setState s.current .blocked).pool s.current).state ≠ .running
    rw [this]
    exact TaskState.noConfusion

/-- The caller of `task_waitpid` waits no longer. -/
def unwaiting (s : State) : State :=
  s.mapTask s.current fun task => { task with waitActive := false }

/-- The caller of `task_waitpid` waits for `pid`. -/
def awaiting (s : State) (pid : Int32) : State :=
  s.mapTask s.current fun task =>
    { task with
      waitTarget := if pid < 0 then taskWaitAny else pid.toUInt32
      waitActive := true }

theorem Sound.unwaiting (sound : Sound s q) : Sound (unwaiting s) q :=
  sound.mapTask s.current (fun _ => rfl) (fun _ => rfl) (fun _ => rfl)

theorem Sound.awaiting (sound : Sound s q) (pid : Int32) : Sound (awaiting s pid) q :=
  sound.mapTask s.current (fun _ => rfl) (fun _ => rfl) (fun _ => rfl)

/-- The ways in which a round of `task_waitpid` goes. -/
inductive Round (s : State) (pid : Int32) : State × Option Waited → Prop where
  | reaped (t : Slot) : t ≠ 0 → taskIsDirectChild s s.current t pid = true →
      (s.pool t).state = .zombie →
      Round s pid (releaseZombieSlot (unwaiting s) t,
        some ⟨(s.pool t).pid.toInt32.toInt, some (taskWaitStatus (s.pool t))⟩)
  | childless : (∀ t, t ≠ 0 → taskIsDirectChild s s.current t pid = false) →
      Round s pid (unwaiting s, some ⟨-10, none⟩)
  | pending : Round s pid (s, some ⟨0, none⟩)
  | left (t : Slot) : taskIsDirectChild s s.current t pid = true →
      Round s pid (taskBlockFromSyscall (awaiting s pid), none)
  | blocked (t : Slot) (s' : State) : taskIsDirectChild s s.current t pid = true →
      taskBlock (awaiting s pid) = some s' → Round s pid (s', none)

theorem waitpidRound_cases {pid : Int32} {options : UInt32} {r : State × Option Waited}
    (done : waitpidRound s pid options = some r) : Round s pid r := by
  unfold waitpidRound at done
  dsimp only at done
  split at done
  · rename_i t found
    cases done
    have mem := List.mem_of_find?_eq_some found
    rw [List.mem_filter] at mem
    simp only [decide_eq_true_eq] at mem
    exact .reaped t mem.2.1 mem.2.2 (by simpa using List.find?_some found)
  · split at done
    · rename_i none
      cases done
      refine .childless fun t ne => ?_
      have away := List.filter_eq_nil_iff.mp none t (List.mem_finRange t)
      simpa [ne] using away
    · rename_i some
      obtain ⟨t, mem⟩ := List.exists_mem_of_ne_nil _ some
      rw [List.mem_filter] at mem
      simp only [decide_eq_true_eq] at mem
      split at done
      · cases done
        exact .pending
      · change (if ((awaiting s pid).pool s.current).hasAddressSpace then
            Option.some (taskBlockFromSyscall (awaiting s pid), none)
          else (taskBlock (awaiting s pid)).map (·, none)) = Option.some r at done
        split at done
        · cases done
          exact .left t mem.2.2
        · obtain ⟨s', blocked, rfl⟩ := Option.map_eq_some_iff.mp done
          exact .blocked t s' mem.2.2 blocked

/-- A round of `task_waitpid` ends. -/
theorem waitpidRound_ordered (sound : Sound s q) (pid : Int32) (options : UInt32) :
    ∃ r, waitpidRound s pid options = some r ∧ Ordered r.1 := by
  obtain ⟨s', blocked, ordered⟩ := taskBlock_ordered (sound.awaiting pid)
  have total : ∃ r, waitpidRound s pid options = some r := by
    unfold waitpidRound
    dsimp only
    split
    · exact ⟨_, rfl⟩
    · split
      · exact ⟨_, rfl⟩
      · split
        · exact ⟨_, rfl⟩
        · change ∃ r, (if ((awaiting s pid).pool s.current).hasAddressSpace then
              some (taskBlockFromSyscall (awaiting s pid), none)
            else (taskBlock (awaiting s pid)).map (·, none)) = some r
          split
          · exact ⟨_, rfl⟩
          · exact ⟨(s', none), congrArg (Option.map (·, none)) blocked⟩
  obtain ⟨r, done⟩ := total
  refine ⟨r, done, ?_⟩
  cases waitpidRound_cases done with
  | reaped t ne _ _ => exact ⟨q, sound.unwaiting.housekept (releaseZombieSlot_housekept _ ne)⟩
  | childless _ => exact ⟨q, sound.unwaiting⟩
  | pending => exact ⟨q, sound⟩
  | left _ _ => exact taskBlockFromSyscall_ordered (sound.awaiting pid)
  | blocked _ s'' _ eq =>
    rw [blocked] at eq
    exact Option.some.inj eq ▸ ordered

/-- **One operation.** It always ends, and the run queue is in order after it. -/
theorem perform_ordered (ordered : Ordered s) (op : Op) :
    ∃ s', perform s op = some s' ∧ Ordered s' := by
  obtain ⟨q, sound⟩ := ordered
  cases op with
  | create priority stackOk =>
    refine ⟨_, rfl, ?_⟩
    rcases taskCreate_cases sound priority stackOk with ⟨t, -, created⟩ | ⟨-, kept, -⟩
    · exact ⟨_, created.sound⟩
    · exact ⟨q, sound.housekept kept⟩
  | suspendUnstarted t =>
    refine ⟨_, rfl, ?_⟩
    unfold taskSuspendUnstarted
    split
    · rename_i unstarted
      have ne : t ≠ 0 := by
        rintro rfl
        exact unstarted.2.1 sound.idlePid
      obtain ⟨links, head, removed, after⟩ := sound.takeOff ne
      rw [removed]
      refine ⟨_, after (State.setState _ t .blocked) (only_mapTask _ t _) (not_runnable_blocked ?_)⟩
      rw [State.setState, State.mapTask_self]
    · exact ⟨q, sound⟩
  | discardUnstarted t =>
    refine ⟨_, rfl, ?_⟩
    unfold taskDiscardUnstarted
    split
    · rename_i unstarted
      have ne : t ≠ 0 := by
        rintro rfl
        exact unstarted.2.1 sound.idlePid
      obtain ⟨links, head, removed, after⟩ := sound.takeOff ne
      rw [removed]
      refine ⟨_, after _ ⟨fun u h => update_of_ne h .., rfl, rfl⟩ ?_⟩
      rw [State.mapTask_self]
      simp [Runnable, Task.zero]
    · exact ⟨q, sound⟩
  | exit code =>
    show ∃ s', taskExit s code = some s' ∧ Ordered s'
    unfold taskExit
    split
    · exact ⟨s, rfl, q, sound⟩
    · obtain ⟨q', sound₁⟩ := taskMarkZombie_ordered sound s.current code 0
      obtain ⟨s', woken, ticked, sound', -⟩ := schedTick_sound sound₁
      exact ⟨s', ticked, _, sound'⟩
  | exitFromSyscall code =>
    refine ⟨_, rfl, ?_⟩
    unfold taskExitFromSyscall
    split
    · exact ⟨q, sound⟩
    · rename_i pid
      obtain ⟨q', sound', stopped⟩ := taskMarkZombie_current sound code 0 pid
      exact ⟨q', switchAway_sound sound' stopped⟩
  | kill pid code =>
    refine ⟨_, rfl, ?_⟩
    unfold taskKill
    split
    · exact ⟨q, sound⟩
    · split
      · exact ⟨q, sound⟩
      · split
        · exact ⟨q, sound⟩
        · exact taskMarkZombie_ordered sound _ code 0
  | sendSignal pid sig =>
    refine ⟨_, rfl, ?_⟩
    unfold taskSendSignal
    split
    · exact ⟨q, sound⟩
    · split
      · exact ⟨q, sound⟩
      · split
        · exact ⟨q, sound⟩
        · split
          · exact ⟨q, sound⟩
          · split
            · exact ⟨q, sound⟩
            · refine taskMarkZombie_ordered (q := q) ?_ _ 0 _
              exact sound.mapTask _ (fun _ => rfl) (fun _ => rfl) (fun _ => rfl)
  | blockFromSyscall => exact ⟨_, rfl, taskBlockFromSyscall_ordered sound⟩
  | block => exact taskBlock_ordered sound
  | unblock t =>
    obtain ⟨woken, woke, -⟩ := taskUnblock_woke sound t
    exact ⟨_, rfl, _, woke.sound⟩
  | sleepTicks ticks =>
    refine ⟨_, rfl, ?_⟩
    unfold taskSleepTicksFromSyscall
    dsimp only
    split
    · exact ⟨q, sound⟩
    · split
      · exact ⟨q, sound⟩
      · split
        · exact ⟨q, sound⟩
        · exact taskBlockFromSyscall_ordered (sound.sleep _)
  | waitpid pid options =>
    show ∃ s', (taskWaitpid s pid options).map Prod.fst = some s' ∧ Ordered s'
    unfold taskWaitpid
    split
    · exact ⟨s, rfl, q, sound⟩
    · obtain ⟨r, eq, ordered⟩ := waitpidRound_ordered sound pid options
      exact ⟨r.1, by rw [eq]; rfl, ordered⟩
  | waitpidResume pid options =>
    have stopped : Sound (s.mapTask s.current fun task => { task with waitActive := false }) q :=
      sound.mapTask s.current (fun _ => rfl) (fun _ => rfl) (fun _ => rfl)
    obtain ⟨r, eq, ordered⟩ := waitpidRound_ordered stopped pid options
    exact ⟨r.1, by rw [perform, taskWaitpidResume, eq]; rfl, ordered⟩
  | tick =>
    obtain ⟨s', woken, ticked, sound', -⟩ := schedTick_sound sound
    exact ⟨s', ticked, _, sound'⟩
  | loadImage t present =>
    exact ⟨_, rfl, q, sound.mapTask t (fun _ => rfl) (fun _ => rfl) (fun _ => rfl)⟩

/-! ### Runs -/

/-- The static variables before `sched_init`. -/
def statics : State where
  pool := fun _ => Task.zero
  current := 0
  runQueueHead := none
  nextPid := 1
  uptimeTicks := 0
  sleep := fun _ => ⟨0, false⟩
  quantumCounter := 0

/-- The scheduler after `sched_init`. -/
def booted : State := schedInit statics

theorem schedInit_sound (s : State) : Sound (schedInit s) [] where
  queued := ⟨trivial, rfl⟩
  runnable := by simp
  member t ne run := by
    have unused : ((schedInit s).pool t).state = .unused := by
      simp [schedInit, ne, Task.zero]
    simp [Runnable, unused] at run
  running t run := by
    by_cases h : t = 0
    · exact h
    · have unused : ((schedInit s).pool t).state = .unused := by
        simp [schedInit, h, Task.zero]
      rw [unused] at run
      cases run
  idlePid := by simp [schedInit, Task.zero]
  idleUsed := by simp [schedInit]
  idleAlive := by simp [schedInit]

theorem run_ordered {ops : List Op} (run : Run Step Anything (schedInit s) ops s') : Ordered s' :=
  run.invariant ⟨[], schedInit_sound s⟩ fun {x op y} ordered _ taken => by
    obtain ⟨y', eq, ordered'⟩ := perform_ordered ordered op
    obtain rfl : y' = y := Option.some.inj (eq.symm.trans taken)
    exact ordered'

/-- **The run queue.** After any operations the run queue is empty or a circular
list of distinct slots, on which a task with a pid is exactly when it is ready or
running. So the bounded walks come back to the head, `queue_add` succeeds for
every task off the list, and none of its callers sees it fail: a creation fails
only for want of a slot or a stack, a blocked task is made ready by
`task_unblock`, by the deadline it sleeps for and by the end of the child it waits
for. Every operation ends. -/
theorem run_queue {ops : List Op} (run : Run Step Anything (schedInit s) ops s') :
    (∃ q : List Slot, Ring s'.link q ∧ s'.runQueueHead = q.head? ∧
      (∀ t, (s'.pool t).pid ≠ 0 →
        (t ∈ q ↔ (s'.pool t).state = .ready ∨ (s'.pool t).state = .running)) ∧
      (∀ t, t ∉ q → (queueAdd s' t).2 = true) ∧
      (∀ a ∈ q.head?, (before s'.link a a 16 a).isSome ∧
        ∀ p, (search s'.link p a 16 a).isSome)) ∧
    (∀ priority stackOk, (taskCreate s' priority stackOk).2 = none →
      (allocTaskSlot s').2 = none ∨ stackOk = false) ∧
    (∀ t, (s'.pool t).state = .blocked → ((taskUnblock s' t).pool t).state = .ready) ∧
    (∀ t, Asleep s' t → Expired { s' with uptimeTicks := s'.uptimeTicks + 1 } t →
      ∀ s'', schedTick s' = some s'' → (s''.pool t).state ≠ .blocked) ∧
    (∀ t p code signal, (s'.pool t).pid ≠ 0 → (s'.pool t).state ≠ .zombie →
      (s'.pool t).state ≠ .unused → p ≠ t → WaitsFor s' p t →
      ((taskMarkZombie s' t code signal).pool p).state = .ready) ∧
    ∀ op, ∃ s'', Step s' op s'' := by
  obtain ⟨q, sound⟩ := run_ordered run
  refine ⟨⟨q, sound.queued.ring, sound.queued.head, ?_, ?_, ?_⟩, ?_, ?_, ?_, ?_, ?_⟩
  · intro t pid
    refine ⟨sound.runnable t, sound.member t ?_⟩
    rintro rfl
    exact pid sound.idlePid
  · intro t fresh
    obtain ⟨links, head, added, -⟩ := queueAdd_eq sound.queued fresh
    rw [added]
  · intro a isHead
    obtain ⟨xs, rfl⟩ : ∃ xs, q = a :: xs := List.head?_eq_some_iff.mp isHead
    rw [sound.queued.before_tail]
    refine ⟨rfl, fun p => ?_⟩
    rw [sound.queued.search_eq]
    rfl
  · intro priority stackOk failed
    rcases taskCreate_cases sound priority stackOk with ⟨t, made, -⟩ | ⟨-, -, reason⟩
    · rw [made] at failed
      cases failed
    · exact reason
  · intro t blocked
    obtain ⟨links, head, eq, -⟩ := taskUnblock_eq sound blocked
    rw [eq]
    exact congrArg Task.state (State.mapTask_self ..)
  · intro t asleep expired s'' ticked
    exact schedTick_wakes sound asleep expired ticked
  · intro t p code signal pid alive used other waits
    exact taskMarkZombie_wakes sound code signal pid alive used other waits
  · intro op
    obtain ⟨s'', eq, -⟩ := perform_ordered ⟨q, sound⟩ op
    exact ⟨s'', eq⟩

/-- Two tasks, one of which gets the processor and blocks in a system call. -/
theorem run_queue_two_tasks :
    ∃ s, runAll perform Anything booted
        [.create 5 true, .create 3 true, .tick, .tick, .blockFromSyscall] = some s ∧
      ∃ q : List Slot, Ring s.link q ∧ s.runQueueHead = q.head? := by
  obtain ⟨s, done⟩ := Option.isSome_iff_exists.mp
    (show (runAll perform Anything booted
      [.create 5 true, .create 3 true, .tick, .tick, .blockFromSyscall]).isSome by decide)
  obtain ⟨⟨q, ring, head, -⟩, -⟩ := run_queue (Run.of_runAll done)
  exact ⟨s, done, q, ring, head⟩

end AtmKoala.Sched
