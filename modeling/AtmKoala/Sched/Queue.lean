import Mathlib.Data.Fintype.Card
import AtmKoala.Sched.Model

/-!
The run queue as a ring of slots.

* `Queued s q`: the links of the pool close a circle through `q`, and the head of
  the run queue is the head of `q`.
* `queueAdd_eq` and `queueRemove_eq` say what the two edits do to `q`; each
  changes links and the head and nothing else (`State.relink`).
* `Queued.before_tail`, `Queued.search_eq`: the bounded walks end.
* `Sound s q` adds which tasks are on the queue, and `Sound.change` is the rule by
  which every operation keeps it.
-/

namespace AtmKoala.Sched

open Lib

namespace State

/-- Other links and another head of the run queue. -/
def relink (s : State) (links : Slot → Option Slot) (head : Option Slot) : State :=
  { s with
    pool := fun t => { s.pool t with next := links t }
    runQueueHead := head }

theorem relink_self (s : State) : s.relink s.link s.runQueueHead = s := rfl

@[simp] theorem relink_pool (s : State) (links : Slot → Option Slot) (head : Option Slot) (t : Slot) :
    (s.relink links head).pool t = { s.pool t with next := links t } := rfl

@[simp] theorem relink_link (s : State) (links : Slot → Option Slot) (head : Option Slot) :
    (s.relink links head).link = links := rfl

@[simp] theorem relink_runQueueHead (s : State) (links : Slot → Option Slot) (head : Option Slot) :
    (s.relink links head).runQueueHead = head := rfl

@[simp] theorem relink_relink (s : State) (links links' : Slot → Option Slot)
    (head head' : Option Slot) :
    (s.relink links head).relink links' head' = s.relink links' head' := rfl

theorem setNext_eq (s : State) (t : Slot) (n : Option Slot) :
    s.setNext t n = s.relink (Function.update s.link t n) s.runQueueHead := by
  have pool : (s.setNext t n).pool = (s.relink (Function.update s.link t n) s.runQueueHead).pool := by
    funext u
    by_cases h : u = t
    · subst h
      simp [setNext, mapTask, relink]
    · simp [setNext, mapTask, relink, h, link]
  exact congrArg (fun pool => { s with pool := pool }) pool

@[simp] theorem mapTask_self (s : State) (t : Slot) (f : Task → Task) :
    (s.mapTask t f).pool t = f (s.pool t) := Function.update_self ..

theorem mapTask_of_ne (s : State) {t u : Slot} (f : Task → Task) (ne : u ≠ t) :
    (s.mapTask t f).pool u = s.pool u := Function.update_of_ne ne ..

@[simp] theorem mapTask_current (s : State) (t : Slot) (f : Task → Task) :
    (s.mapTask t f).current = s.current := rfl

end State

/-! ### The ring -/

/-- The run queue holds the slots `q`, in this order. -/
structure Queued (s : State) (q : List Slot) : Prop where
  ring : Ring s.link q
  head : s.runQueueHead = q.head?

/-- What only touches the links of tasks off the queue keeps the queue. -/
theorem Queued.congr {s s' : State} {q : List Slot} (queued : Queued s q)
    (links : ∀ t ∈ q, s'.link t = s.link t) (head : s'.runQueueHead = s.runQueueHead) :
    Queued s' q :=
  ⟨queued.ring.congr links, head.trans queued.head⟩

theorem length_le_of_nodup {q : List Slot} (nodup : q.Nodup) : q.length ≤ 16 := by
  simpa using nodup.length_le_card

/-- The walk of `queue_add` finds the last task. -/
theorem Queued.before_tail {s : State} {a : Slot} {xs : List Slot} (queued : Queued s (a :: xs)) :
    before s.link a a 16 a = some (lastOf a xs) := by
  obtain ⟨nodup, path⟩ := queued.ring
  have short : (a :: xs).length ≤ 16 := length_le_of_nodup nodup
  have fresh : a ∉ xs := (List.nodup_cons.mp nodup).1
  exact before_eq_last path fresh fresh (by simpa [Nat.lt_succ_iff] using short)

/-- A scan along the run queue finds the first task with the property, or comes
back to the head. -/
theorem Queued.search_eq {s : State} {a : Slot} {xs : List Slot} (queued : Queued s (a :: xs))
    (p : Slot → Bool) : search s.link p a 16 a = some ((a :: xs).find? p) := by
  obtain ⟨nodup, path⟩ := queued.ring
  have short : (a :: xs).length ≤ 16 := length_le_of_nodup nodup
  exact search_eq_find path (List.nodup_cons.mp nodup).1 (by simpa [Nat.lt_succ_iff] using short)

/-- The slots on the run queue. -/
def State.queue (s : State) : List Slot :=
  match s.runQueueHead with
  | none => []
  | some head => around s.link head 16 head

theorem Queued.queue_eq {s : State} {q : List Slot} (queued : Queued s q) : s.queue = q := by
  have headEq := queued.head
  cases q with
  | nil =>
    rw [List.head?_nil] at headEq
    simp only [State.queue, headEq]
  | cons a xs =>
    rw [List.head?_cons] at headEq
    obtain ⟨nodup, path⟩ := queued.ring
    have short : (a :: xs).length ≤ 16 := length_le_of_nodup nodup
    simp only [State.queue, headEq]
    exact around_eq path (List.nodup_cons.mp nodup).1 (by simpa [Nat.lt_succ_iff] using short)

/-- **`queue_add` puts a new task at the end.** -/
theorem queueAdd_eq {s : State} {q : List Slot} (queued : Queued s q) {t : Slot} (fresh : t ∉ q) :
    ∃ links head, queueAdd s t = (s.relink links head, true) ∧
      Queued (s.relink links head) (q ++ [t]) := by
  have headEq := queued.head
  cases q with
  | nil =>
    refine ⟨Function.update s.link t (some t), some t, ?_, ?_, rfl⟩
    · simp only [List.head?_nil] at headEq
      simp only [queueAdd, headEq, State.setNext_eq]
      rfl
    · exact Ring.singleton (Function.update_self _ _ _)
  | cons a xs =>
    refine ⟨Function.update (Function.update s.link (lastOf a xs) (some t)) t (some a), some a,
      ?_, queued.ring.insert fresh, rfl⟩
    simp only [List.head?_cons] at headEq
    simp only [queueAdd, headEq, queued.before_tail, State.setNext_eq]
    rfl

/-- **`queue_remove` takes a task out**, and does nothing for one that is not on
the queue. -/
theorem queueRemove_eq {s : State} {q : List Slot} (queued : Queued s q) (t : Slot) :
    ∃ links head, queueRemove s t = s.relink links head ∧
      Queued (s.relink links head) (q.erase t) := by
  have headEq := queued.head
  cases q with
  | nil =>
    refine ⟨s.link, s.runQueueHead, ?_, queued⟩
    rw [State.relink_self]
    simp only [List.head?_nil] at headEq
    simp only [queueRemove, headEq]
  | cons a xs =>
    simp only [List.head?_cons] at headEq
    have nodup := queued.ring.nodup
    have path := queued.ring.2
    have short : (a :: xs).length ≤ 16 := length_le_of_nodup nodup
    obtain ⟨fresh, restNodup⟩ := List.nodup_cons.mp nodup
    by_cases first : a = t
    · subst first
      rw [List.erase_cons_head]
      cases xs with
      | nil =>
        have loop : s.link a = some a := path
        refine ⟨Function.update s.link a none, none, ?_, trivial, rfl⟩
        simp only [queueRemove, headEq, loop, or_true, and_self, if_true, State.setNext_eq]
        rfl
      | cons x xs =>
        have link : s.link a = some x := path.1
        have ne : x ≠ a := fun e => fresh (e ▸ List.mem_cons_self)
        have found : before s.link a a 16 a = some (lastOf x xs) := queued.before_tail
        have lastNe : lastOf x xs ≠ a := fun e => fresh (e ▸ lastOf_mem x xs)
        refine ⟨_, some x, ?_, queued.ring.remove_first, rfl⟩
        have several : ¬(s.link a = none ∨ s.link a = some a) := by
          simp [link, ne]
        have kept : Function.update s.link (lastOf x xs) (s.link a) a = some x := by
          rw [Function.update_of_ne (Ne.symm lastNe), link]
        simp only [queueRemove, headEq, several, found, State.setNext_eq, State.relink_link,
          State.relink_runQueueHead, true_and, if_true, if_false, kept]
        rfl
    · have notFirst : ¬(a = t ∧ (s.link t = none ∨ s.link t = some t)) := fun h => first h.1
      rw [List.erase_cons_tail (by simpa using first)]
      by_cases mem : t ∈ xs
      · obtain ⟨ys, zs, rfl, notEarlier⟩ := List.eq_append_cons_of_mem mem
        rw [List.erase_append_right _ notEarlier, List.erase_cons_head]
        have found : before s.link t a 16 a = some (lastOf a ys) := by
          refine before_eq_last (path_append.mp path).1 notEarlier ?_ ?_
          · exact fun h => fresh (List.mem_append_left _ h)
          · simp only [List.length_cons, List.length_append] at short
            omega
        refine ⟨_, some a, ?_, queued.ring.remove, rfl⟩
        simp only [queueRemove, headEq, found, State.setNext_eq, State.relink_link,
          State.relink_runQueueHead, State.relink_relink, false_and, if_false, Option.some.injEq,
          first]
        rfl
      · have gone : before s.link t a 16 a = none :=
          before_eq_none path mem fresh (fun e => first e.symm) 16
        refine ⟨s.link, s.runQueueHead, ?_, ?_⟩
        · rw [State.relink_self]
          simp only [queueRemove, headEq, notFirst, gone, if_false]
        · rwa [List.erase_of_not_mem mem]

/-! ### Which tasks are queued -/

/-- Ready to run, or running. -/
def Runnable (state : TaskState) : Prop := state = .ready ∨ state = .running

/-- **The invariant of the run queue.** The tasks on the queue are runnable, and a
runnable task that is not on it is the idle one, which keeps pid 0 and is never
freed. Only the current task is running. -/
structure Sound (s : State) (q : List Slot) : Prop where
  queued : Queued s q
  runnable : ∀ t ∈ q, Runnable (s.pool t).state
  member : ∀ t, t ≠ 0 → Runnable (s.pool t).state → t ∈ q
  running : ∀ t, (s.pool t).state = .running → t = s.current
  idlePid : (s.pool 0).pid = 0
  idleUsed : (s.pool 0).state ≠ .unused
  idleAlive : (s.pool 0).state ≠ .zombie

/-- At most the task in slot `t` differs. -/
structure Only (t : Slot) (s s' : State) : Prop where
  others : ∀ u, u ≠ t → s'.pool u = s.pool u
  head : s'.runQueueHead = s.runQueueHead
  current : s'.current = s.current

theorem only_mapTask (s : State) (t : Slot) (f : Task → Task) : Only t s (s.mapTask t f) :=
  ⟨fun _ ne => s.mapTask_of_ne f ne, rfl, rfl⟩

theorem Only.link {t u : Slot} {s s' : State} (only : Only t s s') (ne : u ≠ t) :
    s'.link u = s.link u :=
  congrArg Task.next (only.others u ne)

/-- What slot 0 has to keep when it is the slot that changes. -/
structure KeepsIdle (t : Slot) (task : Task) : Prop where
  pid : t = 0 → task.pid = 0
  used : t = 0 → task.state ≠ .unused
  alive : t = 0 → task.state ≠ .zombie

theorem KeepsIdle.of_ne {t : Slot} {task : Task} (ne : t ≠ 0) : KeepsIdle t task :=
  ⟨fun h => absurd h ne, fun h => absurd h ne, fun h => absurd h ne⟩

section Change

variable {s s' : State} {q q' : List Slot} {t : Slot}

/-- **The rule for the invariant**, for a change of one task and of its place on
the queue. -/
theorem Sound.change (sound : Sound s q) (queued : Queued s' q')
    (states : ∀ u, u ≠ t → (s'.pool u).state = (s.pool u).state)
    (pids : ∀ u, u ≠ t → (s'.pool u).pid = (s.pool u).pid)
    (current : s'.current = s.current)
    (others : ∀ u, u ≠ t → (u ∈ q' ↔ u ∈ q))
    (runnable : t ∈ q' → Runnable (s'.pool t).state)
    (member : t ≠ 0 → Runnable (s'.pool t).state → t ∈ q')
    (running : (s'.pool t).state = .running → t = s.current)
    (idle : KeepsIdle t (s'.pool t)) : Sound s' q' where
  queued := queued
  runnable u hu := by
    by_cases h : u = t
    · subst h
      exact runnable hu
    · rw [states u h]
      exact sound.runnable u ((others u h).mp hu)
  member u ne hu := by
    by_cases h : u = t
    · subst h
      exact member ne hu
    · rw [states u h] at hu
      exact (others u h).mpr (sound.member u ne hu)
  running u hu := by
    rw [current]
    by_cases h : u = t
    · subst h
      exact running hu
    · rw [states u h] at hu
      exact sound.running u hu
  idlePid := by
    by_cases h : 0 = t
    · subst h
      exact idle.pid rfl
    · rw [pids 0 h]
      exact sound.idlePid
  idleUsed := by
    by_cases h : 0 = t
    · subst h
      exact idle.used rfl
    · rw [states 0 h]
      exact sound.idleUsed
  idleAlive := by
    by_cases h : 0 = t
    · subst h
      exact idle.alive rfl
    · rw [states 0 h]
      exact sound.idleAlive

/-- A task keeps its idle part when neither its pid nor its state changes. -/
theorem Sound.keepsIdle (sound : Sound s q) {task : Task} (pid : task.pid = (s.pool t).pid)
    (state : task.state = (s.pool t).state) : KeepsIdle t task where
  pid h := by
    subst h
    rw [pid, sound.idlePid]
  used h := by
    subst h
    rw [state]
    exact sound.idleUsed
  alive h := by
    subst h
    rw [state]
    exact sound.idleAlive

/-- Fields that the scheduler does not look at for queueing may change. -/
theorem Sound.same (sound : Sound s q) (only : Only t s s') (link : s'.link t = s.link t)
    (pid : (s'.pool t).pid = (s.pool t).pid) (state : (s'.pool t).state = (s.pool t).state) :
    Sound s' q := by
  refine sound.change ?_ (fun u ne => by rw [only.others u ne]) (fun u ne => by rw [only.others u ne])
    only.current (fun u _ => Iff.rfl) ?_ ?_ ?_ (sound.keepsIdle pid state)
  · refine sound.queued.congr (fun u _ => ?_) only.head
    by_cases h : u = t
    · rw [h, link]
    · exact only.link h
  · intro mem
    rw [state]
    exact sound.runnable t mem
  · intro ne hu
    rw [state] at hu
    exact sound.member t ne hu
  · intro hu
    rw [state] at hu
    exact sound.running t hu

/-- A task off the queue that has become ready enters it. -/
theorem Sound.enter (sound : Sound s q) (only : Only t s s') (fresh : t ∉ q)
    (ready : (s'.pool t).state = .ready) (idle : t = 0 → (s'.pool t).pid = 0) :
    ∃ links head, queueAdd s' t = (s'.relink links head, true) ∧
      Sound (s'.relink links head) (q ++ [t]) := by
  have queued : Queued s' q :=
    sound.queued.congr (fun u mem => only.link (fun e => fresh (e ▸ mem))) only.head
  obtain ⟨links, head, eq, queued'⟩ := queueAdd_eq queued fresh
  refine ⟨links, head, eq, sound.change (t := t) queued' ?_ ?_ only.current ?_ ?_ ?_ ?_ ?_⟩
  · intro u ne
    rw [State.relink_pool, only.others u ne]
  · intro u ne
    rw [State.relink_pool, only.others u ne]
  · intro u ne
    simp [ne]
  · exact fun _ => Or.inl ready
  · exact fun _ _ => List.mem_append_right _ (List.mem_singleton_self t)
  · intro running
    have : (s'.pool t).state = .running := running
    rw [ready] at this
    cases this
  · refine ⟨idle, fun _ => ?_, fun _ => ?_⟩
    · show (s'.pool t).state ≠ .unused
      simp [ready]
    · show (s'.pool t).state ≠ .zombie
      simp [ready]

/-- A task that has stopped being runnable leaves the queue. -/
theorem Sound.leave (sound : Sound s q) (only : Only t s s') (link : s'.link t = s.link t)
    (off : ¬Runnable (s'.pool t).state) (idle : KeepsIdle t (s'.pool t)) :
    ∃ links head, queueRemove s' t = s'.relink links head ∧
      Sound (s'.relink links head) (q.erase t) := by
  have queued : Queued s' q := by
    refine sound.queued.congr (fun u _ => ?_) only.head
    by_cases h : u = t
    · rw [h, link]
    · exact only.link h
  obtain ⟨links, head, eq, queued'⟩ := queueRemove_eq queued t
  refine ⟨links, head, eq, sound.change (t := t) queued' ?_ ?_ only.current ?_ ?_ ?_ ?_ ?_⟩
  · intro u ne
    rw [State.relink_pool, only.others u ne]
  · intro u ne
    rw [State.relink_pool, only.others u ne]
  · intro u ne
    exact List.mem_erase_of_ne ne
  · exact fun mem => absurd mem sound.queued.ring.nodup.not_mem_erase
  · exact fun _ h => absurd h off
  · exact fun h => absurd (Or.inr h) off
  · exact ⟨idle.pid, idle.used, idle.alive⟩

/-- A task is taken off the queue first and stops being runnable then. -/
theorem Sound.takeOff (sound : Sound s q) (ne : t ≠ 0) :
    ∃ links head, queueRemove s t = s.relink links head ∧
      ∀ s'', Only t (s.relink links head) s'' → ¬Runnable (s''.pool t).state →
        Sound s'' (q.erase t) := by
  obtain ⟨links, head, eq, queued⟩ := queueRemove_eq sound.queued t
  have gone : t ∉ q.erase t := sound.queued.ring.nodup.not_mem_erase
  refine ⟨links, head, eq, fun s'' only off => ?_⟩
  refine sound.change (t := t) ?_ ?_ ?_ only.current ?_ ?_ ?_ ?_ (.of_ne ne)
  · exact queued.congr (fun u mem => only.link (fun e => gone (e ▸ mem))) only.head
  · intro u ne
    rw [only.others u ne]
    rfl
  · intro u ne
    rw [only.others u ne]
    rfl
  · intro u ne
    exact List.mem_erase_of_ne ne
  · exact fun mem => absurd mem gone
  · exact fun _ h => absurd h off
  · exact fun h => absurd (Or.inr h) off

end Change

/-! ### Adding where nobody knows about the queue -/

/-- A task that cannot be queued changes nothing. -/
theorem queueAdd_failed {s : State} {t : Slot} (failed : (queueAdd s t).2 = false) :
    (queueAdd s t).1 = s := by
  unfold queueAdd at failed ⊢
  split
  · rename_i head
    rw [head] at failed
    cases failed
  · rename_i h head
    rw [head] at failed
    dsimp only at failed ⊢
    split
    · rfl
    · rename_i tail found
      rw [found] at failed
      cases failed

theorem setNext_state (s : State) (t : Slot) (n : Option Slot) (u : Slot) :
    ((s.setNext t n).pool u).state = (s.pool u).state := by
  rw [State.setNext_eq]
  rfl

theorem queueAdd_state (s : State) (t u : Slot) :
    ((queueAdd s t).1.pool u).state = (s.pool u).state := by
  unfold queueAdd
  split
  · exact setNext_state ..
  · split
    · rfl
    · exact (setNext_state ..).trans (setNext_state ..)

/-- A task that `task_unblock` leaves blocked could not be queued, and nothing has changed. -/
theorem taskUnblock_blocked {s : State} {t : Slot} (blocked : (s.pool t).state = .blocked)
    (still : ((taskUnblock s t).pool t).state = .blocked) : taskUnblock s t = s := by
  have ready : ((queueAdd (s.setState t .ready) t).1.pool t).state = .ready := by
    rw [queueAdd_state, State.setState, State.mapTask_self]
  unfold taskUnblock at still ⊢
  rw [if_neg (not_not.mpr blocked)] at still ⊢
  split at still
  · rename_i s' added
    rw [added] at ready
    rw [ready] at still
    cases still
  · rename_i s' failed
    have kept := queueAdd_failed (s := s.setState t .ready) (t := t) (by rw [failed])
    rw [failed] at kept
    obtain rfl : s' = s.setState t .ready := kept
    have same : { s.pool t with state := .blocked } = s.pool t := by rw [← blocked]
    simp [State.setState, State.mapTask, same]

end AtmKoala.Sched
