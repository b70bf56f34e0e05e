import AtmKoala.Sched.Effects

/-!
Groups stay inside sessions.

Two live tasks of one group are in one session because a task joins a group only
from the session of the task that the group is named after (`leaders`), and takes
its own pid as a group only as that task. `task_setsid` moves its caller to the
group of its pid without looking whether that group still has members, which stay
behind in the old session.

* `Thins`: operations that change no pid, group or session;
* `taskCreate_enrols`: a birth;
* `sessions_contained`: every run in which `task_setsid` finds its group free.
-/

namespace AtmKoala.Sched

open Lib
open Function (update_of_ne update_self)

variable {s s' : State} {q : List Slot} {t : Slot}

/-- Operations with those on groups and sessions. -/
inductive SessionOp where
  | sched (op : Op)
  | setpgid (pid pgid : Int32)
  | setsid

def performSession (s : State) : SessionOp → Option State
  | .sched op => perform s op
  | .setpgid pid pgid => some (taskSetpgid s pid pgid).1
  | .setsid => some (taskSetsid s).1

def SessionStep (s : State) (op : SessionOp) (s' : State) : Prop := performSession s op = some s'

/-- In use. -/
def Used (task : Task) : Prop := task.state ≠ .unused

instance (task : Task) : Decidable (Used task) := inferInstanceAs (Decidable (¬_))

/-- The group numbered by the pid of the current task has nobody else in it from
another session than the one with that number. -/
def GroupFree (s : State) : Prop :=
  ∀ u, u ≠ s.current → Alive (s.pool u) → (s.pool u).pgid = (s.pool s.current).pid →
    (s.pool u).sid = (s.pool s.current).pid

instance (s : State) : Decidable (GroupFree s) := inferInstanceAs (Decidable (∀ _, _))

/-- The next pid is the pid or the group of no task in the pool. -/
def FreshPid (s : State) : Prop :=
  ∀ u, Used (s.pool u) → (s.pool u).pid ≠ s.nextPid ∧ (s.pool u).pgid ≠ s.nextPid

instance (s : State) : Decidable (FreshPid s) := inferInstanceAs (Decidable (∀ _, _))

/-- What the operations have to meet: a pid that a creation hands out is not in use,
and a `task_setsid` that succeeds finds its group free. -/
def Orderly (s : State) : SessionOp → Prop
  | .sched (.create _ _) => FreshPid s
  | .setsid => (s.pool s.current).pid = 0 ∨ (s.pool s.current).pgid = (s.pool s.current).pid ∨
      GroupFree s
  | _ => True

instance (s : State) (op : SessionOp) : Decidable (Orderly s op) := by
  unfold Orderly
  split <;> infer_instance

/-- Any two live tasks of one group are in one session. -/
def Contained (s : State) : Prop :=
  ∀ t u, Alive (s.pool t) → Alive (s.pool u) → (s.pool t).pgid = (s.pool u).pgid →
    (s.pool t).sid = (s.pool u).sid

instance (s : State) : Decidable (Contained s) := inferInstanceAs (Decidable (∀ _, _))

/-- A live task, or the one that has the processor, dead or alive. It can still make
children, and a dead one that blocks lives on. -/
def Active (s : State) (t : Slot) : Prop :=
  Used (s.pool t) ∧ ((s.pool t).state = .zombie → t = s.current)

theorem active_of_alive (alive : Alive (s.pool t)) : Active s t :=
  ⟨alive.1, fun zombie => absurd zombie alive.2⟩

theorem Active.alive (active : Active s t) (other : t ≠ s.current) : Alive (s.pool t) :=
  ⟨active.1, fun zombie => other (active.2 zombie)⟩

/-- **The invariant.** The pids in use are distinct, the active members of a group
are in one session, and in the session of the task with the number of the group. -/
structure Grouped (s : State) : Prop where
  ordered : Ordered s
  current : Used (s.pool s.current)
  distinct : ∀ {t u}, Used (s.pool t) → Used (s.pool u) → (s.pool t).pid = (s.pool u).pid → t = u
  members : ∀ {t u}, Active s t → Active s u → (s.pool t).pgid = (s.pool u).pgid →
    (s.pool t).sid = (s.pool u).sid
  leaders : ∀ {t l}, Active s t → Used (s.pool l) → (s.pool l).pid = (s.pool t).pgid →
    (s.pool l).sid = (s.pool t).sid

theorem Grouped.contained (grouped : Grouped s) : Contained s := fun _ _ alive alive' same =>
  grouped.members (active_of_alive alive) (active_of_alive alive') same

/-! ### Operations that keep groups and sessions -/

/-- The pid, group and session of a task are as they were. -/
def SameBadge (task task' : Task) : Prop :=
  task'.pid = task.pid ∧ task'.pgid = task.pgid ∧ task'.sid = task.sid

/-- Nobody has come, and nobody has a new pid, group or session. -/
structure Thins (s s' : State) : Prop where
  used : ∀ t, Used (s'.pool t) → Used (s.pool t) ∧ SameBadge (s.pool t) (s'.pool t)
  active : ∀ t, Active s' t → Active s t
  current : Used (s.pool s.current) → Used (s'.pool s'.current)

theorem Thins.refl (s : State) : Thins s s :=
  ⟨fun _ used => ⟨used, rfl, rfl, rfl⟩, fun _ => id, id⟩

theorem Thins.trans {s'' : State} (first : Thins s s') (second : Thins s' s'') : Thins s s'' where
  used t used := by
    obtain ⟨used', pid', pgid', sid'⟩ := second.used t used
    obtain ⟨used, pid, pgid, sid⟩ := first.used t used'
    exact ⟨used, pid'.trans pid, pgid'.trans pgid, sid'.trans sid⟩
  active t active := first.active t (second.active t active)
  current used := second.current (first.current used)

theorem Grouped.thins (grouped : Grouped s) (thins : Thins s s') (ordered : Ordered s') :
    Grouped s' where
  ordered := ordered
  current := thins.current grouped.current
  distinct {t u} used used' same := by
    obtain ⟨was, pid, -, -⟩ := thins.used t used
    obtain ⟨was', pid', -, -⟩ := thins.used u used'
    exact grouped.distinct was was' (pid.symm.trans (same.trans pid'))
  members {t u} active active' same := by
    obtain ⟨-, -, pgid, sid⟩ := thins.used t active.1
    obtain ⟨-, -, pgid', sid'⟩ := thins.used u active'.1
    rw [sid, sid']
    exact grouped.members (thins.active t active) (thins.active u active')
      (pgid.symm.trans (same.trans pgid'))
  leaders {t l} active used same := by
    obtain ⟨-, -, pgid, sid⟩ := thins.used t active.1
    obtain ⟨was, pid, -, sid'⟩ := thins.used l used
    rw [sid, sid']
    exact grouped.leaders (thins.active t active) was (pid.symm.trans (same.trans pgid))

/-- **The rule.** Everybody was there with the same pid, group and session, nobody
has come back to life, and the processor has stayed or has gone to somebody alive. -/
theorem thins_of_person
    (keeps : ∀ t p', s'.person t = some p' → ∃ p, s.person t = some p ∧ p'.pid = p.pid ∧
      p'.pgid = p.pgid ∧ p'.sid = p.sid ∧ (p'.ended = none → p.ended = none))
    (turn : s'.current = s.current ∨ Alive (s'.pool s'.current))
    (current : Used (s.pool s.current) → Used (s'.pool s'.current)) : Thins s s' where
  used t used := by
    have here : s'.person t = some _ := if_neg used
    obtain ⟨p, was, pid, pgid, sid, -⟩ := keeps t _ here
    have usedBefore : Used (s.pool t) := by
      intro free
      rw [State.person, Task.person_eq_none.mpr free] at was
      cases was
    rw [State.person, Task.person, if_neg usedBefore] at was
    obtain rfl := Option.some.inj was
    exact ⟨usedBefore, pid, pgid, sid⟩
  active t active := by
    have here : s'.person t = some _ := if_neg active.1
    obtain ⟨p, was, -, -, -, running⟩ := keeps t _ here
    have usedBefore : Used (s.pool t) := by
      intro free
      rw [State.person, Task.person_eq_none.mpr free] at was
      cases was
    refine ⟨usedBefore, fun dead => ?_⟩
    rw [State.person, Task.person_of_zombie dead] at was
    obtain rfl := Option.some.inj was
    have zombie : (s'.pool t).state = .zombie := by
      by_contra alive
      have impossible := running (if_neg alive)
      cases impossible
    have isCurrent := active.2 zombie
    rcases turn with stays | alive
    · rw [isCurrent, stays]
    · rw [← isCurrent] at alive
      exact absurd zombie alive.2
  current := current

theorem Same.thins (same : Same s s')
    (turn : s'.current = s.current ∨ Alive (s'.pool s'.current)) : Thins s s' := by
  refine thins_of_person (fun t p' here => ?_) turn fun used => ?_
  · rw [same.person] at here
    exact ⟨p', here, rfl, rfl, rfl, id⟩
  · rcases turn with stays | alive
    · rw [stays]
      exact same.used used
    · exact alive.1

theorem schedTick_thins (sound : Sound s q) (ticked : schedTick s = some s') : Thins s s' :=
  (schedTick_same sound ticked).thins (schedTick_turn sound ticked)

theorem switchAway_thins (sound : Sound s q) : Thins s (switchAway s) :=
  (switchAway_same sound).thins (.inr (switchAway_turn s))

/-- The current task stops. If it was dead it is alive again, with the badge it had. -/
theorem stop_thins (sound : Sound s q) (used : Used (s.pool s.current)) :
    Thins s (queueRemove (s.setState s.current .blocked) s.current) := by
  obtain ⟨links, head, removed, -⟩ := blocked_sound sound
  rw [removed]
  have self : (s.setState s.current .blocked).pool s.current =
      { s.pool s.current with state := .blocked } := State.mapTask_self ..
  have other : ∀ u, u ≠ s.current → (s.setState s.current .blocked).pool u = s.pool u :=
    fun u ne => State.mapTask_of_ne _ _ ne
  refine ⟨fun u used' => ?_, fun u active => ?_, fun _ => ?_⟩
  · by_cases h : u = s.current
    · subst h
      rw [State.relink_pool, self]
      exact ⟨used, rfl, rfl, rfl⟩
    · rw [State.relink_pool, other u h] at used' ⊢
      exact ⟨used', rfl, rfl, rfl⟩
  · by_cases h : u = s.current
    · subst h
      exact ⟨used, fun _ => rfl⟩
    · obtain ⟨used', current⟩ := active
      rw [State.relink_pool, other u h] at used' current
      exact ⟨used', current⟩
  · rw [State.relink_pool]
    show ((s.setState s.current .blocked).pool s.current).state ≠ .unused
    rw [self]
    exact TaskState.noConfusion

theorem taskBlock_thins (sound : Sound s q) (used : Used (s.pool s.current))
    (done : taskBlock s = some s') : Thins s s' := by
  have stopped := stop_thins sound used
  obtain ⟨links, head, removed, sound₁⟩ := blocked_sound sound
  unfold taskBlock at done
  rw [removed] at done stopped
  exact stopped.trans (schedTick_thins sound₁ done)

theorem taskBlockFromSyscall_thins (sound : Sound s q) (used : Used (s.pool s.current)) :
    Thins s (taskBlockFromSyscall s) := by
  have stopped := stop_thins sound used
  obtain ⟨links, head, removed, sound₁⟩ := blocked_sound sound
  unfold taskBlockFromSyscall
  split
  · exact .refl s
  · rw [removed] at stopped ⊢
    exact stopped.trans (switchAway_thins sound₁)

theorem forsake_some {current t : Slot} {pid : UInt32} {p p' : Person}
    (kept : forsake current pid t p = some p') :
    p'.pid = p.pid ∧ p'.pgid = p.pgid ∧ p'.sid = p.sid ∧ p'.ended = p.ended := by
  unfold forsake at kept
  split at kept
  · split at kept
    · cases kept
    · cases kept
      exact ⟨rfl, rfl, rfl, rfl⟩
  · cases kept
    exact ⟨rfl, rfl, rfl, rfl⟩

theorem marked_some {people : Slot → Option Person} {status : Int} {u : Slot} {p' : Person}
    (here : Function.update people t ((people t).map fun p => { p with ended := some status }) u =
      some p') :
    ∃ p, people u = some p ∧ p'.pid = p.pid ∧ p'.pgid = p.pgid ∧ p'.sid = p.sid ∧
      (p'.ended = none → p.ended = none) := by
  by_cases h : u = t
  · subst h
    rw [update_self] at here
    obtain ⟨p, was, rfl⟩ := Option.map_eq_some_iff.mp here
    exact ⟨p, was, rfl, rfl, rfl, fun ended => nomatch ended⟩
  · rw [update_of_ne h] at here
    exact ⟨p', here, rfl, rfl, rfl, id⟩

theorem buried_some {current : Slot} {pid : UInt32} {status : Int}
    {people : Slot → Option Person} {u : Slot} {p' : Person}
    (here : buried current t pid status people u = some p') :
    ∃ p, people u = some p ∧ p'.pid = p.pid ∧ p'.pgid = p.pgid ∧ p'.sid = p.sid ∧
      (p'.ended = none → p.ended = none) := by
  unfold buried at here
  split at here
  · rename_i first
    subst first
    exact marked_some here
  · obtain ⟨p₁, marks, kept⟩ := Option.bind_eq_some_iff.mp here
    obtain ⟨p, was, pid, pgid, sid, running⟩ := marked_some marks
    obtain ⟨pid', pgid', sid', ended⟩ := forsake_some kept
    exact ⟨p, was, pid'.trans pid, pgid'.trans pgid, sid'.trans sid,
      fun none => running (ended ▸ none)⟩

theorem fatal_thins (sound : Sound s q) {op : Op} (fatal : Fatal op)
    (done : perform s op = some s') : Thins s s' := by
  cases target : victim s op with
  | none =>
    obtain rfl := fatal_spared fatal target done
    exact .refl s'
  | some v =>
    obtain ⟨t, status⟩ := v
    obtain ⟨pid, ending⟩ := ending_of_victim target done
    have current := fun used => ending_used sound used pid ending
    have turn := ending_turn sound pid ending
    rcases perform_victim sound target done with ⟨-, same⟩ | ⟨-, -, person⟩
    · exact same.thins turn
    · refine thins_of_person (fun u p' here => ?_) turn current
      rw [person] at here
      exact buried_some here

theorem round_thins (sound : Sound s q) (used : Used (s.pool s.current)) {pid : Int32}
    {options : UInt32} {r : State × Option Waited} (done : waitpidRound s pid options = some r) :
    Thins s r.1 := by
  have caller : Used ((awaiting s pid).pool (awaiting s pid).current) := by
    rw [awaiting, State.mapTask_current, State.mapTask_self]
    exact used
  have expecting := (same_awaiting s pid).thins (.inl rfl)
  cases waitpidRound_cases done with
  | reaped t ne child zombie =>
    have kept := releaseZombieSlot_housekept (unwaiting s) ne
    have current : (releaseZombieSlot (unwaiting s) t).current = s.current := kept.current
    by_cases h : t = s.current
    · -- A task that is its own child and dead keeps its slot.
      have refused : releaseZombieSlot (unwaiting s) t = unwaiting s := if_pos (.inl h)
      show Thins s (releaseZombieSlot (unwaiting s) t)
      rw [refused]
      exact (same_unwaiting s).thins (.inl rfl)
    · obtain ⟨person, -⟩ := reaped_person s zombie h
      refine thins_of_person (fun u p' here => ?_) (.inl current) fun used => ?_
      · rw [person] at here
        by_cases same : u = t
        · subst same
          rw [update_self] at here
          cases here
        · rw [update_of_ne same] at here
          exact ⟨p', here, rfl, rfl, rfl, id⟩
      · intro free
        have nobody : (releaseZombieSlot (unwaiting s) t).person s.current = none := by
          rw [← current]
          exact Task.person_eq_none.mpr free
        rw [person, update_of_ne (Ne.symm h)] at nobody
        exact used (Task.person_eq_none.mp nobody)
  | childless _ => exact (same_unwaiting s).thins (.inl rfl)
  | pending => exact .refl s
  | left _ _ => exact expecting.trans (taskBlockFromSyscall_thins (sound.awaiting pid) caller)
  | blocked _ s' _ block => exact expecting.trans (taskBlock_thins (sound.awaiting pid) caller block)

/-! ### Births -/

/-- A task has come, with a pid of its own and the group and session of the caller or
its own. -/
structure Enrols (s s' : State) (t : Slot) : Prop where
  others : ∀ u, u ≠ t → ∃ n, s'.pool u = { s.pool u with next := n }
  alive : Alive (s'.pool t)
  pid : (s'.pool t).pid = s.nextPid
  group : ((s'.pool t).pgid = (s.pool s.current).pgid ∧ (s'.pool t).sid = (s.pool s.current).sid) ∨
    ((s'.pool t).pgid = s.nextPid ∧ (s'.pool t).sid = s.nextPid)
  current : s'.current = s.current

theorem allocTaskSlot_caller (found : allocTaskSlot s = (s', some t)) :
    s'.pool s.current = s.pool s.current ∧ s'.nextPid = s.nextPid := by
  unfold allocTaskSlot at found
  split at found
  · cases found
    exact ⟨rfl, rfl⟩
  · split at found
    · cases found
      refine ⟨?_, releaseZombieSlot_nextPid s _⟩
      unfold releaseZombieSlot
      split
      · rfl
      · rename_i free
        exact update_of_ne (fun h => free (.inl h.symm)) ..
    · cases found

theorem taskCreate_enrols (sound : Sound s q) (priority : UInt32) (stackOk : Bool) :
    (∃ t, Enrols s (taskCreate s priority stackOk).1 t) ∨
      Housekept s (taskCreate s priority stackOk).1 := by
  rcases taskCreate_cases sound priority stackOk with ⟨t, made, created⟩ | ⟨-, kept, -⟩
  · left
    have filled : ∃ s₁ n, allocTaskSlot s = (s₁, some t) ∧
        (taskCreate s priority stackOk).1.pool t =
          { (fillSlot s₁ t priority).pool t with next := n } := by
      rcases alloc : allocTaskSlot s with ⟨s₁, _ | u⟩
      · simp [taskCreate, alloc] at made
      · obtain ⟨ne, -, kept, free⟩ := allocTaskSlot_spec sound alloc
        have off : ¬Runnable (s.pool u).state := by
          rcases free with h | h <;> simp [Runnable, h]
        obtain ⟨links, head, added, -⟩ := (sound.housekept kept).enter
          (only_fillSlot s₁ u priority) (sound.notMem_of_state off) (fillSlot_state s₁ u priority)
          (fun h => absurd h ne)
        cases stackOk with
        | false => simp [taskCreate, alloc] at made
        | true =>
          have result : taskCreate s priority true =
              ((fillSlot s₁ u priority).relink links head, some u) := by
            simp only [taskCreate, alloc, Bool.not_true, Bool.false_eq_true, if_false, added]
          rw [result] at made ⊢
          obtain rfl : u = t := Option.some.inj made
          exact ⟨s₁, links u, rfl, rfl⟩
    obtain ⟨s₁, n, alloc, task⟩ := filled
    obtain ⟨caller, nextPid⟩ := allocTaskSlot_caller alloc
    have current : s₁.current = s.current := (allocTaskSlot_spec sound alloc).2.1.current
    refine ⟨t, created.others, by simp [Alive, created.ready], ?_, ?_, created.current⟩
    · rw [task]
      simp [fillSlot, sleepCancelTask, State.mapTask, nextPid]
    · rw [task]
      -- The caller's slot may be the one that is filled.
      by_cases own : s.current = t
      · subst own
        simp only [fillSlot, sleepCancelTask, State.mapTask, current, update_self, caller,
          nextPid]
        by_cases zero : s.nextPid = 0
        · simp [zero]
        · simp [zero]
      · simp only [fillSlot, sleepCancelTask, State.mapTask, current, update_self,
          update_of_ne own, caller, nextPid]
        by_cases zero : (s.pool s.current).pid = 0
        · simp [zero]
        · simp [zero]
  · exact .inr kept

theorem Housekept.thins (kept : Housekept s s') : Thins s s' := by
  refine thins_of_person (fun u p' here => ?_) (.inl kept.current) fun used => ?_
  · rcases kept.tasks u with ⟨p, same⟩ | ⟨-, -, -, free, -⟩
    · rw [State.person, same] at here
      unfold Task.person at here
      split at here
      · cases here
      · rename_i usedAfter
        obtain rfl := Option.some.inj here
        exact ⟨_, if_neg usedAfter, rfl, rfl, rfl, id⟩
    · rw [State.person, Task.person_eq_none.mpr free] at here
      cases here
  · obtain ⟨p, same⟩ := kept.atCurrent
    rw [kept.current, same]
    exact used

/-- **A birth keeps the groups**, if the pid of the child is new. -/
theorem Grouped.enrols (grouped : Grouped s) (fresh : FreshPid s) (enrols : Enrols s s' t)
    (ordered : Ordered s') : Grouped s' := by
  have other : ∀ {u}, u ≠ t → ∃ n, s'.pool u = { s.pool u with next := n } :=
    fun ne => enrols.others _ ne
  have usedBefore : ∀ {u}, u ≠ t → Used (s'.pool u) → Used (s.pool u) := by
    intro u ne used
    obtain ⟨n, same⟩ := other ne
    rw [same] at used
    exact used
  have activeBefore : ∀ {u}, u ≠ t → Active s' u → Active s u := by
    intro u ne active
    obtain ⟨n, same⟩ := other ne
    obtain ⟨used, current⟩ := active
    rw [same] at used current
    exact ⟨used, fun zombie => (current zombie).trans enrols.current⟩
  have caller : Active s s.current := ⟨grouped.current, fun _ => rfl⟩
  -- What the newcomer shares with its group and with the task its group is named after.
  have joins : ∀ {u}, u ≠ t → Active s u → (s'.pool t).pgid = (s.pool u).pgid →
      (s'.pool t).sid = (s.pool u).sid := by
    intro u ne active same
    rcases enrols.group with ⟨pgid, sid⟩ | ⟨pgid, -⟩
    · rw [sid]
      exact grouped.members caller active (pgid.symm.trans same)
    · exact absurd (same.symm.trans pgid) (fresh u active.1).2
  refine ⟨ordered, ?_, ?_, ?_, ?_⟩
  · rw [enrols.current]
    by_cases h : s.current = t
    · rw [h]
      exact enrols.alive.1
    · obtain ⟨n, same⟩ := other h
      rw [same]
      exact grouped.current
  · intro u v used used' same
    by_cases hu : u = t
    · by_cases hv : v = t
      · rw [hu, hv]
      · obtain ⟨n, eq⟩ := other hv
        rw [hu, enrols.pid, eq] at same
        exact absurd same.symm (fresh v (usedBefore hv used')).1
    · by_cases hv : v = t
      · obtain ⟨n, eq⟩ := other hu
        rw [hv, enrols.pid, eq] at same
        exact absurd same (fresh u (usedBefore hu used)).1
      · obtain ⟨n, eq⟩ := other hu
        obtain ⟨n', eq'⟩ := other hv
        rw [eq, eq'] at same
        exact grouped.distinct (usedBefore hu used) (usedBefore hv used') same
  · intro u v active active' same
    by_cases hu : u = t
    · by_cases hv : v = t
      · rw [hu, hv]
      · obtain ⟨n, eq⟩ := other hv
        rw [hu, eq] at same ⊢
        exact joins hv (activeBefore hv active') same
    · by_cases hv : v = t
      · obtain ⟨n, eq⟩ := other hu
        rw [hv, eq] at same ⊢
        exact (joins hu (activeBefore hu active) same.symm).symm
      · obtain ⟨n, eq⟩ := other hu
        obtain ⟨n', eq'⟩ := other hv
        rw [eq, eq'] at same ⊢
        exact grouped.members (activeBefore hu active) (activeBefore hv active') same
  · intro u l active used same
    by_cases hl : l = t
    · subst hl
      rw [enrols.pid] at same
      by_cases hu : u = l
      · rw [hu]
      · obtain ⟨n, eq⟩ := other hu
        rw [eq] at same
        exact absurd same.symm (fresh u (activeBefore hu active).1).2
    · have usedL := usedBefore hl used
      obtain ⟨n, eq⟩ := other hl
      rw [eq] at same ⊢
      by_cases hu : u = t
      · subst hu
        rcases enrols.group with ⟨pgid, sid⟩ | ⟨pgid, -⟩
        · rw [sid]
          exact grouped.leaders caller usedL (same.trans pgid)
        · exact absurd (same.trans pgid) (fresh l usedL).1
      · obtain ⟨n', eq'⟩ := other hu
        rw [eq'] at same ⊢
        exact grouped.leaders (activeBefore hu active) usedL same

/-! ### Groups and sessions -/

/-- At most the group and session of task `t` change. -/
theorem Grouped.moves (grouped : Grouped s) (pgid sid : UInt32)
    (members : ∀ {u}, u ≠ t → Active s u → (s.pool u).pgid = pgid → (s.pool u).sid = sid)
    (leaders : ∀ {l}, l ≠ t → Used (s.pool l) → (s.pool l).pid = pgid → (s.pool l).sid = sid)
    (followers : ∀ {u}, u ≠ t → Active s u → (s.pool t).pid = (s.pool u).pgid →
      sid = (s.pool u).sid) (active : Active s t) :
    Grouped (s.mapTask t fun task => { task with pgid := pgid, sid := sid }) := by
  set s₁ := s.mapTask t fun task => { task with pgid := pgid, sid := sid } with s₁_eq
  have self : s₁.pool t = { s.pool t with pgid := pgid, sid := sid } := State.mapTask_self ..
  have other : ∀ {u}, u ≠ t → s₁.pool u = s.pool u := fun ne => State.mapTask_of_ne _ _ ne
  have used : ∀ {u}, Used (s₁.pool u) → Used (s.pool u) := by
    intro u used
    by_cases h : u = t
    · rw [h]
      exact active.1
    · rwa [other h] at used
  have activeBefore : ∀ {u}, u ≠ t → Active s₁ u → Active s u := by
    intro u ne active
    obtain ⟨used, current⟩ := active
    rw [other ne] at used current
    exact ⟨used, current⟩
  have pid : ∀ u, (s₁.pool u).pid = (s.pool u).pid := by
    intro u
    by_cases h : u = t
    · rw [h, self]
    · rw [other h]
  refine ⟨?_, ?_, ?_, ?_, ?_⟩
  · obtain ⟨q, sound⟩ := grouped.ordered
    exact ⟨q, sound.mapTask t (fun _ => rfl) (fun _ => rfl) (fun _ => rfl)⟩
  · show Used (s₁.pool s.current)
    by_cases h : s.current = t
    · rw [h, self]
      exact active.1
    · rw [other h]
      exact grouped.current
  · intro u v hu hv same
    rw [pid, pid] at same
    exact grouped.distinct (used hu) (used hv) same
  · intro u v hu hv same
    by_cases first : u = t
    · by_cases second : v = t
      · rw [first, second]
      · rw [first, self, other second] at same ⊢
        exact (members second (activeBefore second hv) same.symm).symm
    · by_cases second : v = t
      · rw [second, self, other first] at same ⊢
        exact members first (activeBefore first hu) same
      · rw [other first, other second] at same ⊢
        exact grouped.members (activeBefore first hu) (activeBefore second hv) same
  · intro u l hu hl same
    rw [pid] at same
    by_cases first : u = t
    · by_cases second : l = t
      · rw [first, second]
      · rw [first, self] at same ⊢
        rw [other second]
        exact leaders second (used hl) same
    · rw [other first] at same ⊢
      by_cases second : l = t
      · rw [second, self]
        rw [second] at same
        exact followers first (activeBefore first hu) same
      · rw [other second]
        exact grouped.leaders (activeBefore first hu) (used hl) same

/-- **`task_setpgid` keeps the groups**: the target joins from the session of the
task its new group is named after, or takes its own pid. -/
theorem taskSetpgid_grouped (grouped : Grouped s) (pid pgid : Int32) :
    Grouped (taskSetpgid s pid pgid).1 := by
  unfold taskSetpgid
  split
  · exact grouped
  · rename_i target visible
    split
    · exact grouped
    · rename_i valid
      rw [not_or] at valid
      dsimp only
      generalize (if pgid ≠ 0 then pgid.toUInt32 else (s.pool target).pid) = newpgid
      have admitted : ∀ (joined : State) (allowed : Bool), (allowed = true → Grouped joined) →
          Grouped (if allowed = true then (joined, (0 : Int)) else (s, -1)).1 := by
        intro joined allowed joins
        cases allowed with
        | true => exact joins rfl
        | false => exact grouped
      refine admitted _ _ fun allowed => ?_
      have used : Used (s.pool target) := by
        unfold taskVisibleTarget at visible
        split at visible
        · obtain rfl := Option.some.inj visible
          exact grouped.current
        · split at visible
          · cases visible
          · split at visible
            · cases visible
            · rename_i found
              split at visible
              · cases visible
              · obtain rfl := Option.some.inj visible
                exact (taskLookupPid_some found).1
      have active : Active s target := ⟨used, fun zombie => absurd zombie valid.2⟩
      -- The tasks with the number of the new group are in the session of the target.
      have leaders : ∀ {l}, Used (s.pool l) → (s.pool l).pid = newpgid →
          (s.pool l).sid = (s.pool target).sid := by
        intro l usedL pidL
        by_cases own : newpgid = (s.pool target).pid
        · rw [grouped.distinct usedL used (pidL.trans own)]
        · rw [if_pos own] at allowed
          split at allowed
          · cases allowed
          · rename_i leader found
            obtain ⟨usedLeader, pidLeader⟩ := taskLookupPid_some found
            rw [grouped.distinct usedL usedLeader (pidL.trans pidLeader.symm)]
            simpa using allowed
      have named : ∃ l, Used (s.pool l) ∧ (s.pool l).pid = newpgid := by
        by_cases own : newpgid = (s.pool target).pid
        · exact ⟨target, used, own.symm⟩
        · rw [if_pos own] at allowed
          split at allowed
          · cases allowed
          · rename_i leader found
            exact ⟨leader, taskLookupPid_some found⟩
      obtain ⟨leader, usedLeader, pidLeader⟩ := named
      refine grouped.moves (t := target) newpgid (s.pool target).sid
        (fun _ active' same => ?_) (fun _ => leaders) (fun _ active' same => ?_) active
      · rw [← leaders usedLeader pidLeader]
        exact (grouped.leaders active' usedLeader (pidLeader.trans same.symm)).symm
      · exact grouped.leaders active' used same

/-- **`task_setsid` keeps the groups** if it finds the group of its pid free. -/
theorem taskSetsid_grouped (grouped : Grouped s) (orderly : Orderly s .setsid) :
    Grouped (taskSetsid s).1 := by
  unfold taskSetsid
  dsimp only
  split
  · exact grouped
  · rename_i valid
    rw [not_or] at valid
    have free : GroupFree s := (orderly.resolve_left valid.1).resolve_left valid.2
    refine grouped.moves (t := s.current) (s.pool s.current).pid (s.pool s.current).pid (fun ne active same => free _ ne (active.alive ne) same)
      (fun ne used same => ?_) (fun ne active same => ?_) ⟨grouped.current, fun _ => rfl⟩
    · exact absurd (grouped.distinct used grouped.current same) ne
    · exact (free _ ne (active.alive ne) same.symm).symm

/-- After a `task_setsid` of a live task that succeeds, the groups are in one session
each if and only if the group of its pid was free. -/
theorem taskSetsid_contained_iff (grouped : Grouped s) (alive : Alive (s.pool s.current))
    (pid : (s.pool s.current).pid ≠ 0) (member : (s.pool s.current).pgid ≠ (s.pool s.current).pid) :
    Contained (taskSetsid s).1 ↔ GroupFree s := by
  constructor
  · intro contained u ne aliveU same
    have result : (taskSetsid s).1 = s.mapTask s.current fun task =>
        { task with sid := task.pid, pgid := task.pid } := by
      unfold taskSetsid
      dsimp only
      rw [if_neg (by rw [not_or]; exact ⟨pid, member⟩)]
    rw [result] at contained
    have together := contained s.current u
    rw [State.mapTask_self, State.mapTask_of_ne _ _ ne] at together
    exact (together alive aliveU same.symm).symm
  · intro free
    exact (taskSetsid_grouped grouped (.inr (.inr free))).contained

/-! ### Runs -/

theorem perform_grouped (grouped : Grouped s) {op : Op} (orderly : Orderly s (.sched op))
    (done : perform s op = some s') : Grouped s' := by
  obtain ⟨q, sound⟩ := grouped.ordered
  have used := grouped.current
  have ordered : Ordered s' := by
    obtain ⟨s'', eq, ordered⟩ := perform_ordered grouped.ordered op
    rwa [← Option.some.inj (eq.symm.trans done)]
  suffices (∃ t, FreshPid s ∧ Enrols s s' t) ∨ Thins s s' by
    rcases this with ⟨t, fresh, enrols⟩ | thins
    · exact grouped.enrols fresh enrols ordered
    · exact grouped.thins thins ordered
  cases op with
  | create priority stackOk =>
    cases done
    rcases taskCreate_enrols sound priority stackOk with ⟨t, enrols⟩ | kept
    · exact .inl ⟨t, orderly, enrols⟩
    · exact .inr kept.thins
  | suspendUnstarted t =>
    cases done
    right
    unfold taskSuspendUnstarted
    split
    · rename_i unstarted
      obtain ⟨links, head, removed, -⟩ := queueRemove_eq sound.queued t
      rw [removed]
      have alive : Alive ((s.relink links head).pool t) := by
        simp [Alive, unstarted.2.2]
      exact ((same_relink s links head).trans
        (same_setState alive TaskState.noConfusion TaskState.noConfusion)).thins (.inl rfl)
    · exact .refl s
  | discardUnstarted t =>
    cases done
    right
    unfold taskDiscardUnstarted
    split
    · rename_i unstarted
      obtain ⟨links, head, removed, -⟩ := queueRemove_eq sound.queued t
      rw [removed]
      refine thins_of_person (fun u p' here => ?_) (.inl rfl) fun _ => ?_
      · by_cases h : u = t
        · subst h
          rw [State.person, State.mapTask_self, Task.person_zero] at here
          cases here
        · rw [State.person, State.mapTask_of_ne _ _ h] at here
          exact ⟨p', here, rfl, rfl, rfl, id⟩
      · show Used (((sleepCancelTask (s.relink links head) t).mapTask t fun _ =>
          Task.zero).pool s.current)
        rw [State.mapTask_of_ne _ _ (Ne.symm unstarted.1)]
        exact used
    · exact .refl s
  | blockFromSyscall =>
    cases done
    exact .inr (taskBlockFromSyscall_thins sound used)
  | block => exact .inr (taskBlock_thins sound used done)
  | unblock t =>
    cases done
    obtain ⟨woken, woke, -⟩ := taskUnblock_woke sound t
    exact .inr ((taskUnblock_same sound t).thins (.inl woke.steady.current))
  | sleepTicks ticks =>
    cases done
    right
    unfold taskSleepTicksFromSyscall
    dsimp only
    split
    · exact .refl s
    · split
      · exact .refl s
      · split
        · exact .refl s
        · have asleep := sound.sleep
            (Function.update s.sleep s.current ⟨s.uptimeTicks + ticks, true⟩)
          have thins := taskBlockFromSyscall_thins asleep used
          exact ⟨thins.used, thins.active, thins.current⟩
  | waitpid pid options =>
    obtain ⟨r, round, rfl⟩ := Option.map_eq_some_iff.mp done
    right
    unfold taskWaitpid at round
    split at round
    · cases round
      exact .refl s
    · exact round_thins sound used round
  | waitpidResume pid options =>
    obtain ⟨r, round, rfl⟩ := Option.map_eq_some_iff.mp done
    have same := same_unwaiting s
    have first := same.thins (.inl rfl)
    exact .inr (first.trans (round_thins sound.unwaiting (first.current used) round))
  | tick => exact .inr (schedTick_thins sound done)
  | loadImage t present =>
    cases done
    have same : Same s (s.mapTask t fun task => { task with hasAddressSpace := present }) :=
      same_mapTask s t rfl
    exact .inr (same.thins (.inl rfl))
  | exit code => exact .inr (fatal_thins sound (show Fatal (.exit code) from trivial) done)
  | exitFromSyscall code => exact .inr (fatal_thins sound (show Fatal (.exitFromSyscall code) from trivial) done)
  | kill pid code => exact .inr (fatal_thins sound (show Fatal (.kill pid code) from trivial) done)
  | sendSignal pid sig => exact .inr (fatal_thins sound (show Fatal (.sendSignal pid sig) from trivial) done)

theorem schedInit_grouped (s : State) : Grouped (schedInit s) where
  ordered := ⟨[], schedInit_sound s⟩
  current := by simp [schedInit, Used]
  distinct {t u} used used' _ := by
    have only : ∀ {t}, Used ((schedInit s).pool t) → t = 0 := by
      intro t used
      by_contra ne
      exact used (by simp [schedInit, Task.zero, ne])
    rw [only used, only used']
  members {t u} active active' _ := by
    have only : ∀ {t}, Used ((schedInit s).pool t) → t = 0 := by
      intro t used
      by_contra ne
      exact used (by simp [schedInit, Task.zero, ne])
    rw [only active.1, only active'.1]
  leaders {t l} active used _ := by
    have only : ∀ {t}, Used ((schedInit s).pool t) → t = 0 := by
      intro t used
      by_contra ne
      exact used (by simp [schedInit, Task.zero, ne])
    rw [only active.1, only used]

/-- **Session containment.** As long as pids are new when they are handed out and
`task_setsid` finds the group of its pid free, two live tasks of one group are in
one session. A next `task_setsid` that does not find it free breaks this. -/
theorem sessions_contained {ops : List SessionOp}
    (run : Run SessionStep Orderly (schedInit s) ops s') :
    Contained s' ∧
      (Alive (s'.pool s'.current) → (s'.pool s'.current).pid ≠ 0 →
        (s'.pool s'.current).pgid ≠ (s'.pool s'.current).pid →
        (Contained (taskSetsid s').1 ↔ GroupFree s')) := by
  have grouped : Grouped s' := by
    refine run.invariant (schedInit_grouped s) ?_
    rintro x op y grouped orderly taken
    cases op with
    | sched op => exact perform_grouped grouped orderly taken
    | setpgid pid pgid =>
      obtain rfl := Option.some.inj taken
      exact taskSetpgid_grouped grouped pid pgid
    | setsid =>
      obtain rfl := Option.some.inj taken
      exact taskSetsid_grouped grouped orderly
  exact ⟨grouped.contained, taskSetsid_contained_iff grouped⟩

/-- A shell with a child: the child leaves its group and starts a session. -/
theorem sessions_contained_child :
    ∃ s, runAll performSession Orderly booted
        [.sched (.create 1 true), .sched .tick, .sched .tick, .sched (.create 1 true),
          .sched .blockFromSyscall, .setsid] = some s ∧ Contained s ∧ (s.pool 2).sid = 2 := by
  have holds : ((runAll performSession Orderly booted
      [.sched (.create 1 true), .sched .tick, .sched .tick, .sched (.create 1 true),
        .sched .blockFromSyscall, .setsid]).filter fun s => (s.pool 2).sid = 2).isSome := by
    decide
  obtain ⟨s, found⟩ := Option.isSome_iff_exists.mp holds
  obtain ⟨done, facts⟩ := Option.filter_eq_some_iff.mp found
  exact ⟨s, done, (sessions_contained (Run.of_runAll done)).1, of_decide_eq_true facts⟩

/-- A task founds a group, has a child in it, goes back to the group of its parent and
starts a session: the child stays in the group with its pid, in the old session. -/
theorem setsid_splits_group :
    ∃ s, Run SessionStep Anything booted
        [.sched (.create 1 true), .sched .tick, .sched .tick, .sched (.create 1 true),
          .sched .blockFromSyscall, .setpgid 0 0, .sched (.create 1 true), .setpgid 0 1,
          .setsid] s ∧ ¬Contained s := by
  have holds : ((runAll performSession Anything booted
      [.sched (.create 1 true), .sched .tick, .sched .tick, .sched (.create 1 true),
        .sched .blockFromSyscall, .setpgid 0 0, .sched (.create 1 true), .setpgid 0 1,
        .setsid]).filter fun s => ¬Contained s).isSome := by
    decide
  obtain ⟨s, found⟩ := Option.isSome_iff_exists.mp holds
  obtain ⟨done, facts⟩ := Option.filter_eq_some_iff.mp found
  exact ⟨s, Run.of_runAll done, of_decide_eq_true facts⟩

end AtmKoala.Sched
