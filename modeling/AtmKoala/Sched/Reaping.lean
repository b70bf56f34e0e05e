import AtmKoala.Lib.Family
import AtmKoala.Sched.Effects

/-!
Who learns how a task ended.

The pool is a household (`household`): a pid is an identity, `TASK_NO_PARENT` is
nobody. `events` logs what an operation says about births, ends and children that
`task_waitpid` returns.

* `perform_change`: every operation is a change of the household with these events;
* `children_reaped`: what the log of a run says.

Two things break this. `task_exit` may return to the task that has ended (see
`exit_returns_to_zombie`), whose later children have a dead parent and which a call
that blocks brings back to life; and the last pid is `TASK_NO_PARENT` itself, so
the children of the task that gets it count as orphans. `Upright` leaves both out.
-/

namespace AtmKoala.Sched

open Lib Lib.Family
open Function (update_of_ne)

variable {s s' : State} {q : List Slot} {t : Slot}

abbrev Log := List (Event UInt32 Int)

def parentOf (ppid : UInt32) : Option UInt32 := if ppid = taskNoParent then none else some ppid

def Person.member (p : Person) : Member UInt32 Int := ⟨p.pid, parentOf p.ppid, p.ended⟩

/-- The pool as a household. -/
def household (people : Slot → Option Person) : Household Slot UInt32 Int :=
  fun t => (people t).map Person.member

/-- The child that a `task_waitpid` of the current task has returned. -/
def reapedBy (s : State) : Option (State × Option Waited) → Log
  | some (_, some ⟨result, some status⟩) =>
    [.reaped (s.pool s.current).pid (Int32.ofInt result).toUInt32 status]
  | _ => []

/-- What an operation adds to the log: the child it creates, the task it ends, be
that for the first time or not, and the child it returns. -/
def events (s : State) : Op → Log
  | .create priority stackOk =>
    match taskCreate s priority stackOk with
    | (s', some t) => [.born (s'.pool t).pid (s.pool s.current).pid]
    | (_, none) => []
  | .waitpid pid options => reapedBy s (taskWaitpid s pid options)
  | .waitpidResume pid options => reapedBy s (taskWaitpidResume s pid options)
  | op =>
    match victim s op with
    | some (t, status) => [.ended (s.pool t).pid status]
    | none => []

/-- The calls considered: a task that has ended creates no task and does not
block, and the next pid is not `TASK_NO_PARENT`. -/
def Upright (s : State) : Op → Prop
  | .create _ _ => Alive (s.pool s.current) ∧ s.nextPid ≠ taskNoParent
  | .block | .blockFromSyscall | .sleepTicks _ => Alive (s.pool s.current)
  | .discardUnstarted _ => False
  | _ => True

instance (s : State) (op : Op) : Decidable (Upright s op) := by
  apply op.casesOn (motive := fun op => Decidable (Upright s op)) <;>
    (intros; dsimp only [Upright]; infer_instance)

/-- The household is lawful, the idle task is its root and its own parent, and the
pids in use are below the next one. -/
structure Recorded (s : State) (log : Log) : Prop where
  ordered : Ordered s
  lawful : Lawful 0 (household s.person) log
  idle : ∃ p, s.person 0 = some p ∧ p.pid = 0 ∧ p.ppid = 0
  current : (s.pool s.current).state ≠ .unused
  small : ∀ a, Known 0 log a → a < s.nextPid

/-! ### The pool and the household -/

theorem household_some {people : Slot → Option Person} {i : Slot} {m : Member UInt32 Int}
    (member : household people i = some m) : ∃ p, people i = some p ∧ m = p.member := by
  obtain ⟨p, here, rfl⟩ := Option.map_eq_some_iff.mp member
  exact ⟨p, here, rfl⟩

theorem household_update (people : Slot → Option Person) (i : Slot) (p : Option Person) :
    household (Function.update people i p) =
      Function.update (household people) i (p.map Person.member) := by
  funext j
  by_cases h : j = i
  · subst h
    simp [household]
  · simp [household, h]

/-- A slot that `task_create` may take is vacant in the household. -/
theorem Vacant.household (vacant : Vacant s t) : Family.Vacant (household s.person) t := by
  intro m member
  obtain ⟨p, here, rfl⟩ := household_some member
  rcases vacant with free | ⟨z, zombie, ended, parentless⟩
  · rw [free] at here
    cases here
  · obtain rfl : p = z := Option.some.inj (here.symm.trans zombie)
    exact ⟨ended, if_pos parentless⟩

/-- Living in the household is being alive in the pool. -/
theorem lives_iff {a : UInt32} :
    Lives (household s.person) a ↔ ∃ t, Alive (s.pool t) ∧ (s.pool t).pid = a := by
  constructor
  · rintro ⟨t, m, member, rfl, running⟩
    obtain ⟨p, here, rfl⟩ := household_some member
    have alive : Alive (s.pool t) := alive_iff.mpr ⟨p, here, running⟩
    have same := here.symm.trans (Task.person_of_alive alive)
    refine ⟨t, alive, ?_⟩
    rw [Option.some.inj same]
    rfl
  · rintro ⟨t, alive, rfl⟩
    exact ⟨t, _, congrArg (Option.map Person.member) (Task.person_of_alive alive), rfl, rfl⟩

namespace Recorded

variable {log : Log}

theorem known_ne (recorded : Recorded s log) {a : UInt32} (known : Known 0 log a) :
    a ≠ taskNoParent := by
  rintro rfl
  have below := recorded.small _ known
  have top : (s.nextPid).toNat < 2 ^ 32 := s.nextPid.toNat_lt
  rw [UInt32.lt_iff_toNat_lt] at below
  have last : taskNoParent.toNat = 2 ^ 32 - 1 := rfl
  omega

theorem known (recorded : Recorded s log) (used : (s.pool t).state ≠ .unused) :
    Known 0 log (s.pool t).pid := by
  obtain ⟨p, here, pid, -⟩ := person_of_used used
  have member : household s.person t = some p.member := congrArg (Option.map Person.member) here
  have known := recorded.lawful.known_of_member member
  rwa [show p.member.id = p.pid from rfl, pid] at known

/-- Two tasks with one pid are one task. -/
theorem distinct (recorded : Recorded s log) {u : Slot} (used : (s.pool t).state ≠ .unused)
    (used' : (s.pool u).state ≠ .unused) (same : (s.pool t).pid = (s.pool u).pid) : t = u := by
  obtain ⟨p, here, pid, -⟩ := person_of_used used
  obtain ⟨p', here', pid', -⟩ := person_of_used used'
  refine recorded.lawful.distinct (congrArg (Option.map Person.member) here)
    (congrArg (Option.map Person.member) here') ?_
  exact pid.trans (same.trans pid'.symm)

/-- A parent pid that is not `TASK_NO_PARENT` belongs to a live task. -/
theorem parent (recorded : Recorded s log) (used : (s.pool t).state ≠ .unused)
    (parented : (s.pool t).ppid ≠ taskNoParent) :
    ∃ u, Alive (s.pool u) ∧ (s.pool u).pid = (s.pool t).ppid := by
  obtain ⟨p, here, -, ppid, -⟩ := person_of_used used
  refine lives_iff.mp (recorded.lawful.parentLives
    (congrArg (Option.map Person.member) here) ?_)
  show parentOf p.ppid = some (s.pool t).ppid
  rw [ppid, parentOf, if_neg parented]

/-- A change of the household with its events. -/
theorem change (recorded : Recorded s log) {more : Log} (ordered : Ordered s')
    (changed : Change 0 (household s.person) log more (household s'.person))
    (idle : s'.person 0 = s.person 0) (current : (s'.pool s'.current).state ≠ .unused)
    (small : ∀ a, Known 0 (log ++ more) a → a < s'.nextPid) : Recorded s' (log ++ more) where
  ordered := ordered
  lawful := recorded.lawful.change changed
  idle := idle ▸ recorded.idle
  current := current
  small := small

theorem small_append (recorded : Recorded s log) {more : Log} (noBirth : ∀ a p, .born a p ∉ more)
    {a : UInt32} (known : Known 0 (log ++ more) a) : a < s.nextPid := by
  refine recorded.small a (known.imp_right fun ⟨p, mem⟩ => ⟨p, ?_⟩)
  exact (List.mem_append.mp mem).resolve_right (noBirth a p)

theorem same (recorded : Recorded s log) (same : Same s s') (ordered : Ordered s')
    (current : (s'.pool s'.current).state ≠ .unused) : Recorded s' (log ++ []) := by
  refine recorded.change ordered ?_ (congrFun same.person 0) current fun a known => ?_
  · rw [same.person]
    exact .still
  · rw [same.nextPid]
    exact recorded.small_append (by simp) known

end Recorded

/-! ### One operation -/

/-- The burial of the pool is one of the household. -/
theorem buried_household {people : Slot → Option Person} {current : Slot} {pid : UInt32}
    {status : Int} (notParentless : pid ≠ taskNoParent)
    (idle : ∃ p, people 0 = some p ∧ p.ppid ≠ pid) (notIdle : t ≠ 0) :
    Buried (household people) t pid status (household (buried current t pid status people)) := by
  intro j
  cases here : people j with
  | none =>
    have member : household people j = none := congrArg (Option.map Person.member) here
    rw [member]
    show household (buried current t pid status people) j = none
    unfold household buried
    by_cases first : j = 0
    · subst first
      simp [Ne.symm notIdle, here]
    · by_cases h : j = t
      · subst h
        simp [first, here]
      · simp [first, h, here]
  | some p =>
    have member : household people j = some p.member := congrArg (Option.map Person.member) here
    rw [member]
    have isChild : p.member.parent = some pid ↔ p.ppid = pid := by
      show parentOf p.ppid = some pid ↔ p.ppid = pid
      unfold parentOf
      split
      · rename_i orphan
        simp [orphan, Ne.symm notParentless]
      · simp
    have mark : (if j = t then { p.member with ended := some status } else p.member) =
        (if j = t then { p with ended := some status } else p : Person).member := by
      split
      · rfl
      · rfl
    dsimp only
    rw [mark]
    set p' : Person := if j = t then { p with ended := some status } else p with p'_eq
    have parentEq : p'.ppid = p.ppid := by
      rw [p'_eq]
      split
      · rfl
      · rfl
    have after : buried current t pid status people j =
        if j = 0 then some p' else forsake current pid j p' := by
      unfold buried
      by_cases h : j = t
      · subst h
        rw [if_neg notIdle, if_neg notIdle]
        simp [here, p'_eq]
      · simp only [update_of_ne h, here, Option.bind_some, p'_eq, if_neg h]
        by_cases first : j = 0
        · subst first
          rw [if_pos rfl, if_pos rfl, update_of_ne h, here]
        · rw [if_neg first, if_neg first]
    have result : household (buried current t pid status people) j =
        (if j = 0 then some p' else forsake current pid j p').map Person.member := by
      rw [← after]
      rfl
    rw [result]
    by_cases child : p.ppid = pid
    · rw [if_pos (isChild.mpr child)]
      have notFirst : j ≠ 0 := by
        rintro rfl
        obtain ⟨p₀, here₀, other⟩ := idle
        obtain rfl : p = p₀ := Option.some.inj (here.symm.trans here₀)
        exact other child
      rw [if_neg notFirst, forsake, if_pos (parentEq.trans child)]
      split
      · rename_i gone
        exact .inr ⟨gone.1, rfl⟩
      · exact .inl rfl
    · have stranger : ¬p'.ppid = pid := by
        rw [parentEq]
        exact child
      have stays : forsake current pid j p' = some p' := if_neg stranger
      rw [if_neg (fun h => child (isChild.mp h)), stays, ite_self]
      rfl

theorem victim_used {op : Op} {status : Int} (target : victim s op = some (t, status))
    (current : (s.pool s.current).state ≠ .unused) : (s.pool t).state ≠ .unused := by
  cases op with
  | exit code | exitFromSyscall code =>
    simp only [victim] at target
    split at target
    · cases target
    · obtain ⟨rfl, -⟩ := Prod.mk.inj (Option.some.inj target)
      exact current
  | kill pid code =>
    simp only [victim] at target
    split at target
    · cases target
    · obtain ⟨u, found, chosen⟩ := Option.bind_eq_some_iff.mp target
      split at chosen
      · cases chosen
      · obtain ⟨rfl, -⟩ := Prod.mk.inj (Option.some.inj chosen)
        exact (taskLookupPid_some found).1
  | sendSignal pid sig =>
    simp only [victim] at target
    split at target
    · cases target
    · obtain ⟨u, found, chosen⟩ := Option.bind_eq_some_iff.mp target
      split at chosen
      · cases chosen
      · obtain ⟨rfl, -⟩ := Prod.mk.inj (Option.some.inj chosen)
        exact (taskLookupPid_some found).1
  | _ => cases target

theorem fatal_events {op : Op} (fatal : Fatal op) :
    events s op = match victim s op with
      | some (t, status) => [.ended (s.pool t).pid status]
      | none => [] := by
  cases op with
  | exit code | exitFromSyscall code | kill pid code | sendSignal pid sig => rfl
  | _ => exact fatal.elim

theorem fatal_recorded {log : Log} (recorded : Recorded s log) {op : Op} (fatal : Fatal op)
    (done : perform s op = some s') : Recorded s' (log ++ events s op) := by
  rw [fatal_events fatal]
  obtain ⟨q, sound⟩ := recorded.ordered
  cases target : victim s op with
  | none =>
    obtain rfl := fatal_spared fatal target done
    exact recorded.same (.refl s') recorded.ordered recorded.current
  | some v =>
    obtain ⟨t, status⟩ := v
    obtain ⟨pid, ending⟩ := ending_of_victim target done
    have used := victim_used target recorded.current
    have current := ending_used sound recorded.current pid ending
    have ordered : Ordered s' := by
      obtain ⟨s'', eq, ordered⟩ := perform_ordered recorded.ordered op
      rwa [← Option.some.inj (eq.symm.trans done)]
    obtain ⟨p, here, pidEq, ppidEq, running⟩ := person_of_used used
    have member : household s.person t = some p.member := congrArg (Option.map Person.member) here
    dsimp only
    rw [← pidEq, show p.pid = p.member.id from rfl]
    rcases perform_victim sound target done with ⟨dead, same⟩ | ⟨alive, nextPid, person⟩
    · have zombie : (s.pool t).state = .zombie := by
        by_contra h
        exact dead ⟨used, h⟩
      have ended : p.member.ended.isSome := by
        rw [Option.isSome_iff_ne_none]
        exact fun h => (running.mp h) zombie
      refine recorded.change ordered ?_ (congrFun same.person 0) current fun a known => ?_
      · rw [same.person]
        exact .again t _ status member ended
      · rw [same.nextPid]
        exact recorded.small_append (by simp) known
    · have notIdle : t ≠ 0 := by
        rintro rfl
        exact pid sound.idlePid
      have notParentless : p.pid ≠ taskNoParent := by
        rw [pidEq]
        exact recorded.known_ne (recorded.known used)
      refine recorded.change ordered ?_ ?_ current fun a known => ?_
      · rw [person, ← pidEq]
        rw [← pidEq] at pid
        refine .death t _ status _ member (running.mpr alive.2) pid ?_
        refine buried_household notParentless ?_ notIdle
        obtain ⟨p₀, here₀, -, ppid₀⟩ := recorded.idle
        exact ⟨p₀, here₀, by rw [ppid₀]; exact Ne.symm pid⟩
      · rw [person]
        unfold buried
        rw [if_pos rfl, update_of_ne (Ne.symm notIdle)]
      · rw [nextPid]
        exact recorded.small_append (by simp) known

theorem create_recorded {log : Log} (recorded : Recorded s log) {priority : UInt32} {stackOk : Bool}
    (alive : Alive (s.pool s.current)) (room : s.nextPid ≠ taskNoParent) :
    Recorded (taskCreate s priority stackOk).1 (log ++ events s (.create priority stackOk)) := by
  obtain ⟨q, sound⟩ := recorded.ordered
  have ordered : Ordered (taskCreate s priority stackOk).1 := by
    obtain ⟨s'', eq, ordered⟩ := perform_ordered recorded.ordered (.create priority stackOk)
    rwa [← Option.some.inj eq] at ordered
  have current : (taskCreate s priority stackOk).1.current = s.current := by
    rcases taskCreate_cases sound priority stackOk with ⟨t, -, created⟩ | ⟨-, kept, -⟩
    · exact created.current
    · exact kept.current
  have fresh : ¬Known 0 log s.nextPid := fun known =>
    absurd (recorded.small _ known) (UInt32.lt_irrefl _)
  rcases taskCreate_person sound alive priority stackOk with
    ⟨t, made, notIdle, notCurrent, vacant, person, nextPid⟩ | ⟨failed, unchanged⟩
  · have used : ((taskCreate s priority stackOk).1.pool s.current).state ≠ .unused := by
      intro free
      have nobody : (taskCreate s priority stackOk).1.person s.current = none :=
        Task.person_eq_none.mpr free
      rw [person, update_of_ne (Ne.symm notCurrent)] at nobody
      exact alive.1 (Task.person_eq_none.mp nobody)
    have pidEq : ((taskCreate s priority stackOk).1.pool t).pid = s.nextPid := by
      have here : (taskCreate s priority stackOk).1.person t = some (newcomer s) := by
        rw [person, Function.update_self]
      have taken : ((taskCreate s priority stackOk).1.pool t).state ≠ .unused := by
        intro free
        rw [State.person, Task.person_eq_none.mpr free] at here
        cases here
      obtain ⟨p, here', pid, -⟩ := person_of_used taken
      obtain rfl : p = newcomer s := Option.some.inj (here'.symm.trans here)
      exact pid.symm
    have log' : events s (.create priority stackOk) =
        [.born s.nextPid (s.pool s.current).pid] := by
      simp only [events]
      rcases eq : taskCreate s priority stackOk with ⟨s₁, _ | u⟩
      · rw [eq] at made
        cases made
      · rw [eq] at made pidEq
        obtain rfl : u = t := Option.some.inj made
        exact congrArg (fun pid => [Event.born pid (s.pool s.current).pid]) pidEq
    rw [log']
    have parent : parentOf (s.pool s.current).pid = some (s.pool s.current).pid :=
      if_neg (recorded.known_ne (recorded.known alive.1))
    have newborn : (newcomer s).member =
        ⟨s.nextPid, some (s.pool s.current).pid, none⟩ := by
      rw [← parent]
      rfl
    refine recorded.change ordered ?_ ?_ (by rw [current]; exact used) fun a known => ?_
    · rw [person, household_update, Option.map_some, newborn]
      exact .birth t s.nextPid _ vacant.household fresh (lives_iff.mpr ⟨_, alive, rfl⟩)
    · rw [person, update_of_ne (Ne.symm notIdle)]
    · have grown : s.nextPid < (taskCreate s priority stackOk).1.nextPid := by
        rw [nextPid, UInt32.lt_iff_toNat_lt, UInt32.toNat_add]
        have bound := s.nextPid.toNat_lt
        have notLast : s.nextPid.toNat ≠ 2 ^ 32 - 1 := fun h => room (UInt32.toNat_inj.mp h)
        have one : (1 : UInt32).toNat = 1 := rfl
        omega
      rcases known with isRoot | ⟨p, mem⟩
      · exact UInt32.lt_trans (recorded.small a (.inl isRoot)) grown
      · rcases List.mem_append.mp mem with old | new
        · exact UInt32.lt_trans (recorded.small a (.inr ⟨p, old⟩)) grown
        · rw [(Event.born.inj (List.mem_singleton.mp new)).1]
          exact grown
  · have log' : events s (.create priority stackOk) = [] := by
      simp only [events]
      rcases eq : taskCreate s priority stackOk with ⟨s₁, _ | u⟩
      · rfl
      · rw [eq] at failed
        cases failed
    rw [log']
    rcases unchanged with same | ⟨t, emptied⟩
    · exact recorded.same same ordered (by rw [current]; exact same.used alive.1)
    · refine recorded.change ordered ?_ ?_ ?_ fun a known => ?_
      · rw [emptied.person, household_update]
        exact .clear t emptied.vacant.household
      · rw [emptied.person, update_of_ne (Ne.symm emptied.notIdle)]
      · rw [current, emptied.caller]
        exact alive.1
      · rw [emptied.nextPid]
        exact recorded.small_append (by simp) known

/-- Nobody has a task as parent that has ended. -/
theorem Recorded.childless {log : Log} (recorded : Recorded s log) (dead : ¬Alive (s.pool s.current))
    (t : Slot) (pid : Int32) : taskIsDirectChild s s.current t pid = false := by
  by_contra child
  rw [Bool.not_eq_false] at child
  simp only [taskIsDirectChild, Bool.decide_and, Bool.and_eq_true, decide_eq_true_eq] at child
  obtain ⟨used, parent, -⟩ := child
  have notOrphan : (s.pool t).ppid ≠ taskNoParent := by
    rw [parent]
    exact recorded.known_ne (recorded.known recorded.current)
  obtain ⟨u, alive, pidEq⟩ := recorded.parent used notOrphan
  obtain rfl := recorded.distinct alive.1 recorded.current (pidEq.trans parent)
  exact dead alive

theorem round_recorded {log : Log} (recorded : Recorded s log) {pid : Int32} {options : UInt32}
    {r : State × Option Waited} (done : waitpidRound s pid options = some r) :
    Recorded r.1 (log ++ reapedBy s (some r)) := by
  obtain ⟨q, sound⟩ := recorded.ordered
  have ordered : Ordered r.1 := by
    obtain ⟨r', eq, ordered⟩ := waitpidRound_ordered sound pid options
    rwa [← Option.some.inj (eq.symm.trans done)]
  -- A task with a child is alive.
  have parental : ∀ {t}, taskIsDirectChild s s.current t pid = true → Alive (s.pool s.current) := by
    intro t child
    by_contra dead
    rw [recorded.childless dead t pid] at child
    cases child
  have asCaller : Alive (s.pool s.current) →
      Alive ((awaiting s pid).pool (awaiting s pid).current) := by
    intro alive
    rw [awaiting, State.mapTask_current, State.mapTask_self]
    exact alive
  cases waitpidRound_cases done with
  | reaped t ne child zombie =>
    have alive := parental child
    have notCurrent : t ≠ s.current := by
      rintro rfl
      exact alive.2 zombie
    simp only [taskIsDirectChild, Bool.decide_and, Bool.and_eq_true, decide_eq_true_eq] at child
    obtain ⟨used, parent, -⟩ := child
    obtain ⟨person, nextPid⟩ := reaped_person s zombie notCurrent
    have here : household s.person t = some
        ⟨(s.pool t).pid, parentOf (s.pool t).ppid, some (taskWaitStatus (s.pool t))⟩ :=
      congrArg (Option.map Person.member) (Task.person_of_zombie zombie)
    have hasParent : parentOf (s.pool t).ppid = some (s.pool s.current).pid := by
      rw [parent]
      exact if_neg (recorded.known_ne (recorded.known alive.1))
    have log' : reapedBy s (some (releaseZombieSlot (unwaiting s) t,
        some ⟨(s.pool t).pid.toInt32.toInt, some (taskWaitStatus (s.pool t))⟩)) =
        [.reaped (s.pool s.current).pid (s.pool t).pid (taskWaitStatus (s.pool t))] := by
      simp only [reapedBy, Int32.ofInt_toInt, UInt32.toUInt32_toInt32]
    rw [log']
    refine recorded.change ordered ?_ ?_ ?_ fun a known => ?_
    · rw [person, household_update]
      exact .reap t _ _ _ here hasParent rfl
    · rw [person, update_of_ne (Ne.symm ne)]
    · have kept := releaseZombieSlot_housekept (unwaiting s) ne
      show ((releaseZombieSlot (unwaiting s) t).pool _).state ≠ .unused
      rw [kept.current]
      intro free
      have nobody : (releaseZombieSlot (unwaiting s) t).person s.current = none :=
        Task.person_eq_none.mpr free
      rw [person, update_of_ne (Ne.symm notCurrent)] at nobody
      exact alive.1 (Task.person_eq_none.mp nobody)
    · show a < (releaseZombieSlot (unwaiting s) t).nextPid
      rw [nextPid]
      exact recorded.small_append (by simp) known
  | childless _ =>
    exact recorded.same (same_unwaiting s) ordered ((same_unwaiting s).used recorded.current)
  | pending => exact recorded.same (.refl s) ordered recorded.current
  | left t child =>
    have alive := asCaller (parental child)
    exact recorded.same ((same_awaiting s pid).trans
      (taskBlockFromSyscall_same (sound.awaiting pid) alive)) ordered
      (taskBlockFromSyscall_used alive.1)
  | blocked t s' child block =>
    have alive := asCaller (parental child)
    exact recorded.same ((same_awaiting s pid).trans
      (taskBlock_same (sound.awaiting pid) alive block)) ordered
      (taskBlock_used (sound.awaiting pid) alive block)

/-- **One operation is one change of the household.** -/
theorem perform_recorded {log : Log} (recorded : Recorded s log) {op : Op} (upright : Upright s op)
    (done : perform s op = some s') : Recorded s' (log ++ events s op) := by
  obtain ⟨q, sound⟩ := recorded.ordered
  have used := recorded.current
  have ordered : Ordered s' := by
    obtain ⟨s'', eq, ordered⟩ := perform_ordered recorded.ordered op
    rwa [← Option.some.inj (eq.symm.trans done)]
  cases op with
  | create priority stackOk =>
    cases done
    exact create_recorded recorded upright.1 upright.2
  | suspendUnstarted t =>
    cases done
    have kept : Same s (taskSuspendUnstarted s t).1 ∧ (taskSuspendUnstarted s t).1.current = s.current := by
      unfold taskSuspendUnstarted
      split
      · rename_i unstarted
        obtain ⟨links, head, removed, -⟩ := queueRemove_eq sound.queued t
        rw [removed]
        have alive : Alive ((s.relink links head).pool t) := by
          simp [Alive, unstarted.2.2]
        exact ⟨(same_relink s links head).trans
          (same_setState alive TaskState.noConfusion TaskState.noConfusion), rfl⟩
      · exact ⟨.refl s, rfl⟩
    exact recorded.same kept.1 ordered (by rw [kept.2]; exact kept.1.used used)
  | discardUnstarted t => exact upright.elim
  | blockFromSyscall =>
    cases done
    exact recorded.same (taskBlockFromSyscall_same sound upright) ordered
      (taskBlockFromSyscall_used used)
  | block =>
    exact recorded.same (taskBlock_same sound upright done) ordered
      (taskBlock_used sound upright done)
  | unblock t =>
    cases done
    have same := taskUnblock_same sound t
    obtain ⟨woken, woke, -⟩ := taskUnblock_woke sound t
    exact recorded.same same ordered (by rw [woke.steady.current]; exact same.used used)
  | sleepTicks ticks =>
    cases done
    have kept : Same s (taskSleepTicksFromSyscall s ticks).1 ∧
        ((taskSleepTicksFromSyscall s ticks).1.pool
          (taskSleepTicksFromSyscall s ticks).1.current).state ≠ .unused := by
      unfold taskSleepTicksFromSyscall
      dsimp only
      split
      · exact ⟨.refl s, used⟩
      · split
        · exact ⟨.refl s, used⟩
        · split
          · exact ⟨.refl s, used⟩
          · have asleep := sound.sleep
              (Function.update s.sleep s.current ⟨s.uptimeTicks + ticks, true⟩)
            have same := taskBlockFromSyscall_same asleep upright
            exact ⟨⟨same.person, same.nextPid⟩, taskBlockFromSyscall_used used⟩
    exact recorded.same kept.1 ordered kept.2
  | waitpid pid options =>
    obtain ⟨r, round, rfl⟩ := Option.map_eq_some_iff.mp done
    have logged : events s (.waitpid pid options) = reapedBy s (some r) := by
      show reapedBy s (taskWaitpid s pid options) = _
      rw [round]
    rw [logged]
    unfold taskWaitpid at round
    split at round
    · cases round
      exact recorded.same (.refl s) ordered used
    · exact round_recorded recorded round
  | waitpidResume pid options =>
    obtain ⟨r, round, rfl⟩ := Option.map_eq_some_iff.mp done
    have logged : events s (.waitpidResume pid options) = reapedBy s (some r) := by
      show reapedBy s (taskWaitpidResume s pid options) = _
      rw [round]
    have same := same_unwaiting s
    have resumed : Recorded (unwaiting s) (log ++ []) :=
      recorded.same same ⟨q, sound.unwaiting⟩ (same.used used)
    rw [List.append_nil] at resumed
    have caller : ((unwaiting s).pool s.current).pid = (s.pool s.current).pid := by
      rw [unwaiting, State.mapTask_self]
    have relogged : reapedBy s (some r) = reapedBy (unwaiting s) (some r) := by
      unfold reapedBy
      rw [show (unwaiting s).current = s.current from rfl, caller]
    rw [logged, relogged]
    exact round_recorded resumed round
  | tick =>
    exact recorded.same (schedTick_same sound done) ordered (schedTick_used sound used done)
  | loadImage t present =>
    cases done
    have same : Same s (s.mapTask t fun task => { task with hasAddressSpace := present }) :=
      same_mapTask s t rfl
    exact recorded.same same ordered (same.used used)
  | exit code | exitFromSyscall code | kill pid code | sendSignal pid sig =>
    exact fatal_recorded recorded trivial done

/-! ### Runs -/

/-- Perform an operation and keep the log. -/
def performLogged (x : State × Log) (op : Op) : Option (State × Log) :=
  (perform x.1 op).map fun s' => (s', x.2 ++ events x.1 op)

def LoggedStep (x : State × Log) (op : Op) (y : State × Log) : Prop := performLogged x op = some y

theorem schedInit_recorded (s : State) : Recorded (schedInit s) [] where
  ordered := ⟨[], schedInit_sound s⟩
  lawful := by
    have root : household (schedInit s).person 0 = some ⟨0, some 0, none⟩ := by
      simp [household, State.person, schedInit, Task.person, Task.zero, Person.member, parentOf,
        taskNoParent]
    have other : ∀ t : Slot, t ≠ 0 → household (schedInit s).person t = none := by
      intro t ne
      simp [household, State.person, schedInit, Task.person, Task.zero, ne]
    have only : ∀ {t m}, household (schedInit s).person t = some m →
        t = 0 ∧ m = ⟨0, some 0, none⟩ := by
      intro t m member
      by_cases h : t = 0
      · subst h
        exact ⟨rfl, (Option.some.inj (root.symm.trans member)).symm⟩
      · rw [other t h] at member
        cases member
    refine ⟨⟨0, _, root, rfl, rfl⟩, ?_, ?_, by simp, by simp, by simp, ?_, ?_, by simp [firstEnd],
      by simp, by simp, by simp⟩
    · intro i j m n member member' _
      rw [(only member).1, (only member').1]
    · intro i m member
      rw [(only member).2]
      exact .inl rfl
    · intro i m p member parent
      rw [(only member).2] at parent
      exact ⟨0, _, root, Option.some.inj parent, rfl⟩
    · intro i m member
      rw [(only member).2]
      rfl
  idle := by
    refine ⟨⟨0, 0, 0, 0, none⟩, ?_, rfl, rfl⟩
    simp [State.person, schedInit, Task.person, Task.zero]
  current := by simp [schedInit]
  small a known := by
    rcases known with rfl | ⟨p, mem⟩
    · show (0 : UInt32) < 1
      decide
    · cases mem

/-- **Child reaping.** In a run of upright calls, `task_waitpid` returns a child only
to the task it was born to, once, and with the status of its first end. The child
of a live parent that has ended is a zombie in the pool until then. The parent of
a live task is `TASK_NO_PARENT` or a live task. -/
theorem children_reaped {ops : List Op} {log : Log}
    (run : Run LoggedStep (fun x op => Upright x.1 op) (schedInit s, []) ops (s', log)) :
    (∀ l₁ parent child status l₂, log = l₁ ++ .reaped parent child status :: l₂ →
      .born child parent ∈ l₁ ∧ firstEnd l₁ child = some status ∧
        ∀ other status', .reaped other child status' ∉ l₁ ++ l₂) ∧
    (∀ child parent status, .born child parent ∈ log → firstEnd log child = some status →
      (∃ u, Alive (s'.pool u) ∧ (s'.pool u).pid = parent) →
      (∃ status', .reaped parent child status' ∈ log) ∨
        ∃ t, (s'.pool t).state = .zombie ∧ (s'.pool t).pid = child ∧
          taskWaitStatus (s'.pool t) = status) ∧
    (∀ t, Alive (s'.pool t) → (s'.pool t).ppid = taskNoParent ∨
      ∃ u, Alive (s'.pool u) ∧ (s'.pool u).pid = (s'.pool t).ppid) := by
  have recorded : Recorded s' log := by
    refine run.invariant (P := fun x => Recorded x.1 x.2) (schedInit_recorded s) ?_
    rintro ⟨x, l⟩ op ⟨y, l'⟩ recorded upright taken
    obtain ⟨z, done, eq⟩ := Option.map_eq_some_iff.mp taken
    obtain ⟨rfl, rfl⟩ := Prod.mk.inj eq
    exact perform_recorded recorded upright done
  refine ⟨fun l₁ parent child status l₂ split => recorded.lawful.told split, ?_, ?_⟩
  · intro child parent status born ended alive
    rcases recorded.lawful.held born (lives_iff.mpr alive) with ⟨t, m, member, rfl, -⟩ | reaped
    · right
      have told := (recorded.lawful.status member).symm.trans ended
      obtain ⟨p, here, rfl⟩ := household_some member
      have zombie : (s'.pool t).state = .zombie := by
        by_contra running
        have used : (s'.pool t).state ≠ .unused := by
          intro free
          rw [State.person, Task.person_eq_none.mpr free] at here
          cases here
        rw [State.person, Task.person_of_alive ⟨used, running⟩] at here
        obtain rfl := Option.some.inj here
        cases told
      rw [State.person, Task.person_of_zombie zombie] at here
      obtain rfl := Option.some.inj here
      exact ⟨t, zombie, rfl, Option.some.inj told⟩
    · exact .inl reaped
  · intro t alive
    by_cases orphan : (s'.pool t).ppid = taskNoParent
    · exact .inl orphan
    · exact .inr (recorded.parent alive.1 orphan)

/-- A child exits with code 7 and is reaped by the boot context. -/
theorem children_reaped_seven :
    ∃ s log, runAll performLogged (fun x op => Upright x.1 op) (booted, [])
        [.create 1 true, .tick, .tick, .exitFromSyscall 7, .waitpid (-1) 1] = some (s, log) ∧
      log = [.born 1 0, .ended 1 1792, .reaped 0 1 1792] ∧
      firstEnd [.born 1 0, .ended 1 1792] (1 : UInt32) = some (1792 : Int) := by
  have holds : ((runAll performLogged (fun x op => Upright x.1 op) (booted, [])
      [.create 1 true, .tick, .tick, .exitFromSyscall 7, .waitpid (-1) 1]).filter fun x =>
        x.2 = [.born 1 0, .ended 1 1792, .reaped 0 1 1792]).isSome := by
    decide
  obtain ⟨⟨s, log⟩, found⟩ := Option.isSome_iff_exists.mp holds
  obtain ⟨done, facts⟩ := Option.filter_eq_some_iff.mp found
  have logged := of_decide_eq_true facts
  refine ⟨s, log, done, logged, ?_⟩
  exact ((children_reaped (Run.of_runAll done)).1 [.born 1 0, .ended 1 1792] 0 1 1792 [] logged).2.1

/-- Two tasks. The first exits before its quantum is used up, goes on, and creates a
task: a live task whose parent is a zombie. -/
theorem zombie_has_child :
    ∃ s, Run Step Anything booted
        [.create 5 true, .create 5 true, .tick, .tick, .exit 0, .create 1 true] s ∧
      ∃ t, Alive (s.pool t) ∧ (s.pool t).ppid ≠ taskNoParent ∧
        ∀ u, (s.pool u).pid = (s.pool t).ppid → ¬Alive (s.pool u) := by
  have holds : ((runAll perform Anything booted
      [.create 5 true, .create 5 true, .tick, .tick, .exit 0, .create 1 true]).filter fun s =>
        ∃ t, Alive (s.pool t) ∧ (s.pool t).ppid ≠ taskNoParent ∧
          ∀ u, (s.pool u).pid = (s.pool t).ppid → ¬Alive (s.pool u)).isSome := by
    decide +kernel
  obtain ⟨s, found⟩ := Option.isSome_iff_exists.mp holds
  obtain ⟨done, facts⟩ := Option.filter_eq_some_iff.mp found
  exact ⟨s, Run.of_runAll done, of_decide_eq_true facts⟩

end AtmKoala.Sched
