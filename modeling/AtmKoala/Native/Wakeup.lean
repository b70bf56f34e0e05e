import AtmKoala.Sched.Blocking
import AtmKoala.Native.Machine
import AtmKoala.Native.Streams

/-!
Wakeups of pipes.

* `Waits`: the waiter of a pipe is the task that is blocked on this end, and there
  is nothing it could do.
* `Alert`: every task blocked inside a call on a pipe waits in this sense. Changes
  of descriptors keep it (`Alert.moves`), because whoever closes an end wakes the
  waiter of the other one, and so do the rounds of reads and writes.
* `Alone`: nobody blocks on an end of a pipe on which another task is blocked; a
  pipe has room for one waiter on each end.
* `run_alert`: every run in which tasks block alone.
-/

namespace AtmKoala.Native

open Lib
open Sched (Slot Rouses Ordered Sound)
open Option (map_eq_some_iff)
open Function (update_of_ne update_self)

variable {w w' w'' : World} {a t : Slot} {k : Fd} {i : Fin 8} {e : PipeEnd}
  {calls calls' : Slot → Option Call} {P : Sched.State → Prop}

/-! ### Waking -/

/-- A property of the scheduler under which `task_unblock` wakes. -/
structure Responsive (P : Sched.State → Prop) : Prop where
  kept : ∀ {s u}, P s → (s.pool u).state = .blocked → P (Sched.taskUnblock s u)
  rouses : ∀ {s u}, P s → (s.pool u).state = .blocked → Rouses s (Sched.taskUnblock s u)
  wakes : ∀ {s u}, P s → (s.pool u).state = .blocked →
    ((Sched.taskUnblock s u).pool u).state ≠ .blocked

theorem responsive_ordered : Responsive Ordered := by
  constructor
  · rintro s u ⟨q, sound⟩ blocked
    obtain ⟨woken, woke, -⟩ := Sched.taskUnblock_woke sound u
    exact ⟨_, woke.sound⟩
  · rintro s u ⟨q, sound⟩ blocked
    obtain ⟨woken, woke, -⟩ := Sched.taskUnblock_woke sound u
    exact woke.rouses
  · rintro s u ⟨q, sound⟩ blocked
    obtain ⟨links, head, eq, sound'⟩ := Sched.taskUnblock_eq sound blocked
    rw [eq]
    intro still
    have mem : u ∈ q ++ [u] := by simp
    exact Sched.not_runnable_blocked still (sound'.runnable u mem)

/-- A task is ending: the scheduler is in order up to the mark. -/
def Ending (c t : Slot) (code : Int) (signal : UInt32) (s : Sched.State) : Prop :=
  ∃ s', s = Sched.marked s' t code signal ∧ Ordered s' ∧ s'.current = c ∧
    ¬((s'.pool t).pid = 0 ∨ (s'.pool t).state = .unused ∨ (s'.pool t).state = .zombie)

theorem responsive_ending (c t : Slot) (code : Int) (signal : UInt32) :
    Responsive (Ending c t code signal) := by
  have others : ∀ {s' : Sched.State} {u}, u ≠ t →
      ((Sched.marked s' t code signal).pool u).state = (s'.pool u).state := fun ne =>
    congrArg Sched.Task.state ((Sched.only_marked _ t code signal).others _ ne)
  have target : ∀ {s' : Sched.State},
      ((Sched.marked s' t code signal).pool t).state = .zombie := by
    intro s'
    simp [Sched.marked]
  have notTarget : ∀ {s' : Sched.State} {u},
      ((Sched.marked s' t code signal).pool u).state = .blocked → u ≠ t := by
    rintro s' u blocked rfl
    rw [target] at blocked
    cases blocked
  constructor
  · rintro s u ⟨s', rfl, ⟨q, sound⟩, current, alive⟩ blocked
    have ne := notTarget blocked
    rw [others ne] at blocked
    obtain ⟨links, head, eq, sound'⟩ := Sched.taskUnblock_eq sound blocked
    refine ⟨Sched.taskUnblock s' u, Sched.taskUnblock_marked s' ne code signal, ?_, ?_, ?_⟩
    · rw [eq]
      exact ⟨_, sound'⟩
    · rw [eq]
      exact current
    · have same : (s'.setState u .ready).pool t = s'.pool t :=
        Sched.State.mapTask_of_ne _ _ (Ne.symm ne)
      rw [eq, Sched.State.relink_pool, same]
      exact alive
  · rintro s u ⟨s', rfl, ordered, -, -⟩ blocked v still
    have ne := notTarget blocked
    rw [Sched.taskUnblock_marked s' ne] at still
    have ne' := notTarget still
    rw [others ne'] at still ⊢
    rw [others ne] at blocked
    exact responsive_ordered.rouses ordered blocked v still
  · rintro s u ⟨s', rfl, ordered, -, -⟩ blocked
    have ne := notTarget blocked
    rw [Sched.taskUnblock_marked s' ne, others ne]
    rw [others ne] at blocked
    exact responsive_ordered.wakes ordered blocked

/-- What a published waiter is good for. -/
theorem Responsive.wake (responsive : Responsive P) (holds : P w.sched) (waiter : Option Slot) :
    P (wake w waiter).sched ∧ Rouses w.sched (wake w waiter).sched ∧
      ∀ u, waiter = some u → ((wake w waiter).sched.pool u).state ≠ .blocked := by
  unfold Native.wake
  split
  · exact ⟨holds, .refl _, nofun⟩
  · rename_i u
    split
    · rename_i blocked
      refine ⟨responsive.kept holds blocked, responsive.rouses holds blocked, ?_⟩
      rintro v same
      cases same
      exact responsive.wakes holds blocked
    · rename_i awake
      refine ⟨holds, .refl _, ?_⟩
      rintro v same
      cases same
      exact awake

/-! ### Waiting -/

/-- The other end of a pipe. -/
def PipeEnd.other : PipeEnd → PipeEnd
  | .read => .write
  | .write => .read

def Pipe.waiter (p : Pipe) : PipeEnd → Option Slot
  | .read => p.readerWaiter
  | .write => p.writerWaiter

/-- Nothing can be done on this end of a pipe, and somebody holds the other one. -/
def Pipe.Stuck (p : Pipe) : PipeEnd → Prop
  | .read => p.count = 0 ∧ p.writeRefs ≠ 0
  | .write => 1024 ≤ p.count ∧ p.readRefs ≠ 0

/-- Task `t` is the waiter, with reason. -/
def Waits (p : Pipe) (t : Slot) (e : PipeEnd) : Prop := p.waiter e = some t ∧ p.Stuck e

/-- **The invariant**: a task inside a call on a pipe holds a descriptor of it, and
it waits if it is blocked. -/
structure Alert (w : World) (calls : Slot → Option Call) : Prop where
  counted : Counted w
  held : ∀ t i e, (calls t).map Call.on = some (i, e) → ∃ k, entry w t k = some (i, e)
  waits : ∀ t i e, (calls t).map Call.on = some (i, e) → (w.sched.pool t).state = .blocked →
    Waits (w.pipes i) t e

/-- Calls may be forgotten. -/
theorem Alert.fewer (alert : Alert w calls) (fewer : ∀ t, calls' t = none ∨ calls' t = calls t) :
    Alert w calls' := by
  have old : ∀ t i e, (calls' t).map Call.on = some (i, e) → (calls t).map Call.on = some (i, e) := by
    intro t i e inside
    rcases fewer t with gone | same
    · rw [gone] at inside
      cases inside
    · rwa [same] at inside
  exact ⟨alert.counted, fun t i e inside => alert.held t i e (old t i e inside),
    fun t i e inside => alert.waits t i e (old t i e inside)⟩

/-- The scheduler may do anything that blocks nobody inside a call. -/
theorem Alert.sched (alert : Alert w calls) {s : Sched.State}
    (blocks : ∀ t, calls t ≠ none → (s.pool t).state = .blocked → (w.sched.pool t).state = .blocked) :
    Alert { w with sched := s } calls where
  counted := ⟨alert.counted.refs, alert.counted.used, alert.counted.low⟩
  held := alert.held
  waits t i e inside blocked := by
    refine alert.waits t i e inside (blocks t ?_ blocked)
    rintro none_
    rw [none_] at inside
    cases inside

/-! ### Changes of descriptors -/

theorem wakeOther_eq (w : World) (i : Fin 8) (e : PipeEnd) :
    wakeOther w i e = wake w ((w.pipes i).waiter e.other) := by
  cases e with
  | read => rfl
  | write => rfl

/-- A pipe that loses a reference to one end is the same for the waiter on that end. -/
theorem Waits.drop {p : Pipe} (waits : Waits p t e) : Waits (p.drop e) t e := by
  cases e with
  | read => exact waits
  | write => exact waits

theorem Waits.add {p : Pipe} {e' : PipeEnd} (waits : Waits p t e) : Waits (p.add e') t e := by
  obtain ⟨waiter, stuck⟩ := waits
  cases e with
  | read =>
    cases e' with
    | read => exact ⟨waiter, stuck⟩
    | write => exact ⟨waiter, stuck.1, Nat.succ_ne_zero _⟩
  | write =>
    cases e' with
    | read => exact ⟨waiter, stuck.1, Nat.succ_ne_zero _⟩
    | write => exact ⟨waiter, stuck⟩

theorem PipeEnd.eq_other_of_ne {e e' : PipeEnd} (ne : e' ≠ e) : e' = e.other := by
  cases e with
  | read =>
    cases e' with
    | read => exact absurd rfl ne
    | write => rfl
  | write =>
    cases e' with
    | read => rfl
    | write => exact absurd rfl ne

/-- **One change of descriptors.** -/
theorem Alert.move (alert : Alert w calls) (responsive : Responsive P) (holds : P w.sched)
    (free : calls a = none) (move : Move a w w') : P w'.sched ∧ Alert w' calls := by
  have counted := alert.counted.move move
  have notActor : ∀ {t i e}, (calls t).map Call.on = some (i, e) → t ≠ a := by
    rintro t i e inside rfl
    rw [free] at inside
    cases inside
  cases move with
  | same entries pipes sched =>
    refine ⟨sched ▸ holds, counted, fun t i e inside => ?_, fun t i e inside blocked => ?_⟩
    · simp only [entries]
      exact alert.held t i e inside
    · rw [sched] at blocked
      rw [pipes]
      exact alert.waits t i e inside blocked
  | dropped k i e held entries pipes sched =>
    rw [wakeOther_eq] at sched
    obtain ⟨kept, rouses, wakes⟩ := responsive.wake holds ((w.pipes i).waiter e.other)
    rw [← sched] at kept rouses wakes
    have still : ∀ t i e, (calls t).map Call.on = some (i, e) → ∃ k, entry w' t k = some (i, e) := by
      intro t j e' inside
      obtain ⟨k', held'⟩ := alert.held t j e' inside
      refine ⟨k', ?_⟩
      rw [entries, if_neg fun h => notActor inside h.1]
      exact held'
    refine ⟨kept, counted, still, fun t j e' inside blocked => ?_⟩
    have before := alert.waits t j e' inside (rouses t blocked)
    by_cases h : j = i
    · subst h
      by_cases same : e' = e
      · subst same
        -- The waiter holds a descriptor of this end, so the pipe stays.
        obtain ⟨k', held'⟩ := still t j e' inside
        have used := counted.used_of_entry held'
        rw [pipes, update_self] at used ⊢
        unfold Pipe.settle at used ⊢
        split at used
        · cases used
        · rename_i stays
          rw [if_neg stays]
          exact before.drop
      · rw [PipeEnd.eq_other_of_ne same] at before
        exact absurd blocked (wakes t before.1)
    · rw [pipes, update_of_ne h]
      exact before
  | added k i e none_ used _ low entries pipes sched =>
    refine ⟨sched ▸ holds, counted, fun t j e' inside => ?_, fun t j e' inside blocked => ?_⟩
    · obtain ⟨k', held'⟩ := alert.held t j e' inside
      refine ⟨k', ?_⟩
      rw [entries, if_neg fun h => notActor inside h.1]
      exact held'
    · rw [sched] at blocked
      have before := alert.waits t j e' inside blocked
      rw [pipes]
      by_cases h : j = i
      · subst h
        rw [update_self]
        exact before.add
      · rw [update_of_ne h]
        exact before

theorem Alert.moves (alert : Alert w calls) (responsive : Responsive P) (holds : P w.sched)
    (free : calls a = none) (moves : Moves a w w') : P w'.sched ∧ Alert w' calls := by
  induction moves with
  | refl => exact ⟨holds, alert⟩
  | tail _ move ih => exact ih.2.move responsive ih.1 free move

theorem Alert.made {k' : Fd} (alert : Alert w calls) (free : calls a = none)
    (made : Made w w' a k k' i) : Alert w' calls where
  counted := alert.counted.made made
  held t j e inside := by
    obtain ⟨k₁, held⟩ := alert.held t j e inside
    refine ⟨k₁, ?_⟩
    have ne : t ≠ a := by
      rintro rfl
      rw [free] at inside
      cases inside
    rw [made.entries, if_neg fun h => ne h.1, if_neg fun h => ne h.1]
    exact held
  waits t j e inside blocked := by
    rw [made.sched] at blocked
    obtain ⟨k₁, held⟩ := alert.held t j e inside
    have ne : j ≠ i := by
      rintro rfl
      have used := alert.counted.used_of_entry held
      rw [made.unused] at used
      cases used
    rw [made.pipes, update_of_ne ne]
    exact alert.waits t j e inside blocked

/-! ### Rounds -/

/-- After a section of a call of task `a` on pipe `i`, the other tasks still wait if
they are blocked. -/
structure Keeps (a : Slot) (w w' : World) (i : Fin 8) : Prop where
  transfer : Transfer w w' i
  ordered : Ordered w'.sched
  rouses : Rouses w.sched w'.sched
  waits : ∀ t e, t ≠ a → Waits (w.pipes i) t e → (w'.sched.pool t).state = .blocked →
    Waits (w'.pipes i) t e

theorem Alert.keeps (alert : Alert w calls) (keeps : Keeps a w w' i) :
    Alert w' (Function.update calls a none) := by
  have old : ∀ {t j e}, (Function.update calls a none t).map Call.on = some (j, e) →
      t ≠ a ∧ (calls t).map Call.on = some (j, e) := by
    intro t j e inside
    by_cases h : t = a
    · rw [h, update_self] at inside
      cases inside
    · rw [update_of_ne h] at inside
      exact ⟨h, inside⟩
  refine ⟨alert.counted.transfer keeps.transfer, fun t j e inside => ?_, fun t j e inside blocked => ?_⟩
  · obtain ⟨k, held⟩ := alert.held t j e (old inside).2
    exact ⟨k, (keeps.transfer.entry t k).trans held⟩
  · obtain ⟨ne, inside⟩ := old inside
    have before := alert.waits t j e inside (keeps.rouses t blocked)
    by_cases h : j = i
    · subst h
      exact keeps.waits t e ne before blocked
    · rw [keeps.transfer.others j h]
      exact before

theorem keeps_refl (ordered : Ordered w.sched) : Keeps a w w i where
  transfer := (Flows.refl w i).transfer
  ordered := ordered
  rouses := .refl _
  waits _ _ _ waits _ := waits

/-- A section that leaves nobody stuck on its own end and does not touch the
waiter of the other end. -/
theorem keeps_of_mapPipe {f : Pipe → Pipe} (ordered : Ordered w.sched)
    (refs : ∀ e, (f (w.pipes i)).refs e = (w.pipes i).refs e)
    (used : (f (w.pipes i)).used = (w.pipes i).used) (unstuck : ¬(w.pipes i).Stuck e)
    (waits : ∀ t, Waits (w.pipes i) t e.other → Waits (f (w.pipes i)) t e.other) :
    Keeps a w (w.mapPipe i f) i where
  transfer := (transfer_of_pipe (w := w) (i := i) (f := f) refs used none).1
  ordered := ordered
  rouses := .refl _
  waits t e' ne before blocked := by
    rw [show (w.mapPipe i f).pipes i = f (w.pipes i) from update_self ..]
    by_cases same : e' = e
    · subst same
      exact absurd before.2 unstuck
    · rw [PipeEnd.eq_other_of_ne same] at before ⊢
      exact waits t before

/-- A section that wakes the waiter of the other end. -/
theorem keeps_of_wake {f : Pipe → Pipe} (ordered : Ordered w.sched)
    (refs : ∀ e, (f (w.pipes i)).refs e = (w.pipes i).refs e)
    (used : (f (w.pipes i)).used = (w.pipes i).used) (unstuck : ¬(w.pipes i).Stuck e)
    (waiter : (f (w.pipes i)).waiter e.other = (w.pipes i).waiter e.other) :
    Keeps a w (wake (w.mapPipe i f) ((f (w.pipes i)).waiter e.other)) i := by
  have ordered' : Ordered (w.mapPipe i f).sched := ordered
  obtain ⟨kept, rouses, wakes⟩ :=
    responsive_ordered.wake ordered' ((f (w.pipes i)).waiter e.other)
  refine ⟨(transfer_of_pipe refs used _).1, kept, rouses, fun t e' ne before blocked => ?_⟩
  by_cases same : e' = e
  · subst same
    exact absurd before.2 unstuck
  · rw [PipeEnd.eq_other_of_ne same] at before
    exact absurd blocked (wakes t (waiter.trans before.1))

/-- **A read that returns.** -/
theorem pipeReadRound_keeps {count : Nat} {nonblock : Bool} {r : Int × List UInt8}
    (ordered : Ordered w.sched) (done : pipeReadRound w a i count nonblock = (w', some r)) :
    Keeps a w w' i := by
  unfold pipeReadRound at done
  dsimp only at done
  split at done
  · rename_i full
    cases done
    rw [pipeWakeWriter_mapPipe]
    refine keeps_of_wake (e := .read) ordered ?_ ?_ (fun stuck => full stuck.1) ?_
    · intro e
      split
      · cases e <;> rfl
      · cases e <;> rfl
    · split
      · rfl
      · rfl
    · split
      · rfl
      · rfl
  · split at done
    · rename_i closed
      cases done
      refine keeps_of_mapPipe (e := .read) ordered ?_ ?_ (fun stuck => stuck.2 closed) ?_
      · intro e
        split
        · cases e <;> rfl
        · rfl
      · split
        · rfl
        · rfl
      · intro t waits
        split
        · exact waits
        · exact waits
    · split at done
      · cases done
        exact keeps_refl ordered
      · cases done

/-- **A write that returns.** -/
theorem pipeWriteRound_keeps {data : List UInt8} {nonblock : Bool} {r : Int}
    (ordered : Ordered w.sched) (done : pipeWriteRound w a i data nonblock = (w', some r)) :
    Keeps a w w' i := by
  unfold pipeWriteRound at done
  dsimp only at done
  split at done
  · rename_i closed
    cases done
    refine keeps_of_mapPipe (e := .write) ordered ?_ ?_ (fun stuck => stuck.2 closed) ?_
    · intro e
      split
      · cases e <;> rfl
      · rfl
    · split
      · rfl
      · rfl
    · intro t waits
      split
      · exact waits
      · exact waits
  · split at done
    · rename_i room
      cases done
      rw [pipeWakeReader_mapPipe]
      refine keeps_of_wake (e := .write) ordered ?_ ?_ (fun stuck => absurd stuck.1 (not_le.mpr room)) ?_
      · intro e
        split
        · cases e <;> rfl
        · cases e <;> rfl
      · split
        · rfl
        · rfl
      · split
        · rfl
        · rfl
    · split at done
      · cases done
        exact keeps_refl ordered
      · cases done

/-! ### Blocking -/

/-- Task `a` has published itself as the waiter of one end of a pipe. -/
structure Publishes (a : Slot) (w w' : World) (i : Fin 8) (e : PipeEnd) : Prop where
  transfer : Transfer w w' i
  sched : w'.sched = w.sched
  waits : Waits (w'.pipes i) a e
  other : ∀ t, Waits (w.pipes i) t e.other → Waits (w'.pipes i) t e.other

theorem pipeReadRound_publishes {count : Nat} {nonblock : Bool}
    (done : pipeReadRound w a i count nonblock = (w', none)) : Publishes a w w' i .read := by
  unfold pipeReadRound at done
  dsimp only at done
  split at done
  · cases done
  · rename_i empty
    split at done
    · cases done
    · rename_i writers
      split at done
      · cases done
      · cases done
        have flows := flows_of_waiters (w := w) (i := i)
          (f := fun p => { p with readerWaiter := some a }) none ⟨_, _, rfl⟩
        have here : (w.mapPipe i fun p => { p with readerWaiter := some a }).pipes i =
            { w.pipes i with readerWaiter := some a } := update_self ..
        refine ⟨flows.transfer, rfl, ?_, fun t waits => ?_⟩
        · rw [here]
          exact ⟨rfl, not_not.mp empty, writers⟩
        · rw [here]
          exact waits

theorem pipeWriteRound_publishes {data : List UInt8} {nonblock : Bool}
    (done : pipeWriteRound w a i data nonblock = (w', none)) : Publishes a w w' i .write := by
  unfold pipeWriteRound at done
  dsimp only at done
  split at done
  · cases done
  · rename_i readers
    split at done
    · cases done
    · rename_i full
      split at done
      · cases done
      · cases done
        have flows := flows_of_waiters (w := w) (i := i)
          (f := fun p => { p with writerWaiter := some a }) none ⟨_, _, rfl⟩
        have here : (w.mapPipe i fun p => { p with writerWaiter := some a }).pipes i =
            { w.pipes i with writerWaiter := some a } := update_self ..
        refine ⟨flows.transfer, rfl, ?_, fun t waits => ?_⟩
        · rw [here]
          exact ⟨rfl, not_lt.mp full, readers⟩
        · rw [here]
          exact waits

theorem blockInCall_sched (ordered : Ordered w.sched) (done : blockInCall w a = some w') :
    Ordered w'.sched ∧ ∀ u, (w'.sched.pool u).state = .blocked →
      (w.sched.pool u).state = .blocked ∨ u = w.sched.current := by
  obtain ⟨q, sound⟩ := ordered
  unfold blockInCall at done
  split at done
  · cases done
    exact ⟨Sched.taskBlockFromSyscall_ordered sound,
      fun u blocked => Sched.taskBlockFromSyscall_blocked sound blocked⟩
  · obtain ⟨s, block, rfl⟩ := map_eq_some_iff.mp done
    obtain ⟨s', same, ordered⟩ := Sched.taskBlock_ordered sound
    obtain rfl := Option.some.inj (same.symm.trans block)
    exact ⟨ordered, fun u blocked => Sched.taskBlock_blocked sound block blocked⟩

/-- **A call that blocks**, where nobody else is blocked on this end of the pipe. -/
theorem Alert.blocks {c : Call} (alert : Alert w calls) (ordered : Ordered w.sched)
    (current : a = w.sched.current) (on : c.on = (i, e)) (held : entry w a k = some (i, e))
    (alone : ∀ t, t ≠ a → (w.sched.pool t).state = .blocked → (calls t).map Call.on ≠ some (i, e))
    (publishes : Publishes a w w' i e) (block : blockInCall w' a = some w'') :
    Ordered w''.sched ∧ Alert w'' (Function.update calls a (some c)) := by
  have ordered' : Ordered w'.sched := publishes.sched ▸ ordered
  obtain ⟨ordered'', blocked_⟩ := blockInCall_sched ordered' block
  have still := blockInCall_still block
  have entries : ∀ u j, entry w'' u j = entry w u j := fun u j =>
    (still.entry u j).trans (publishes.transfer.entry u j)
  refine ⟨ordered'', (alert.counted.transfer publishes.transfer).still still,
    fun t j e' inside => ?_, fun t j e' inside blocked => ?_⟩
  · by_cases h : t = a
    · subst h
      rw [update_self, Option.map_some, on] at inside
      cases inside
      exact ⟨k, (entries _ k).trans held⟩
    · rw [update_of_ne h] at inside
      obtain ⟨k', held'⟩ := alert.held t j e' inside
      exact ⟨k', (entries _ k').trans held'⟩
  · rw [still.pipes]
    by_cases h : t = a
    · subst h
      rw [update_self, Option.map_some, on] at inside
      cases inside
      exact publishes.waits
    · rw [update_of_ne h] at inside
      have before : (w.sched.pool t).state = .blocked := by
        rcases blocked_ t blocked with before | here
        · rwa [publishes.sched] at before
        · rw [publishes.sched, ← current] at here
          exact absurd here h
      have waits := alert.waits t j e' inside before
      by_cases hj : j = i
      · subst hj
        by_cases same : e' = e
        · subst same
          exact absurd inside (alone t h before)
        · rw [PipeEnd.eq_other_of_ne same] at waits ⊢
          exact publishes.other t waits
      · rw [publishes.transfer.others j hj]
        exact waits

/-! ### Ending a task -/

/-- The end of a task, with its calls forgotten. -/
theorem taskMarkZombie_alert (alert : Alert w calls) (ordered : Ordered w.sched) (t : Slot)
    (code : Int) (signal : UInt32) :
    Ordered (taskMarkZombie w t code signal).sched ∧
      Alert (taskMarkZombie w t code signal) (Function.update calls t none) ∧
      (taskMarkZombie w t code signal).sched.current = w.sched.current ∧
      (¬((w.sched.pool t).pid = 0 ∨ (w.sched.pool t).state = .unused ∨
        (w.sched.pool t).state = .zombie) →
        ((taskMarkZombie w t code signal).sched.pool t).state = .zombie ∨
        ((taskMarkZombie w t code signal).sched.pool t).state = .unused) := by
  have forgets : ∀ u, Function.update calls t none u = none ∨
      Function.update calls t none u = calls u := by
    intro u
    by_cases h : u = t
    · rw [h, update_self]
      exact .inl rfl
    · rw [update_of_ne h]
      exact .inr rfl
  unfold taskMarkZombie
  split
  · rename_i refused
    exact ⟨ordered, alert.fewer forgets, rfl, fun alive => absurd refused alive⟩
  · rename_i alive
    dsimp only
    have others : ∀ {s' : Sched.State} {u}, u ≠ t →
        ((Sched.marked s' t code signal).pool u).state = (s'.pool u).state := fun ne =>
      congrArg Sched.Task.state ((Sched.only_marked _ t code signal).others _ ne)
    have free : Function.update calls t none t = none := update_self ..
    -- The descriptors are closed while the scheduler is in order up to the mark.
    have alert₁ : Alert { w with sched := Sched.marked w.sched t code signal }
        (Function.update calls t none) := by
      refine (alert.fewer forgets).sched fun u inside blocked => ?_
      have ne : u ≠ t := by
        rintro rfl
        exact inside free
      rwa [others ne] at blocked
    have ending : Ending w.sched.current t code signal (Sched.marked w.sched t code signal) :=
      ⟨w.sched, rfl, ordered, rfl, alive⟩
    have moves := nativeFdTaskCleanup_moves (t := t) alert₁.counted
    obtain ⟨⟨s', sched', ⟨q, sound⟩, current, alive'⟩, alert₂⟩ :=
      alert₁.moves (responsive_ending w.sched.current t code signal) ending free moves
    set w₂ := nativeFdTaskCleanup { w with sched := Sched.marked w.sched t code signal } t
    have final : Sched.taskOrphanChildren
        (Sched.taskWakeWaitingParent (Sched.queueRemove w₂.sched t) t) t =
        Sched.taskMarkZombie s' t code signal := by
      rw [sched']
      unfold Sched.taskMarkZombie
      rw [if_neg alive']
      rfl
    rw [final]
    rw [not_or, not_or] at alive'
    obtain ⟨woken, ended⟩ := Sched.taskMarkZombie_ended sound code signal alive'.1 alive'.2.2 alive'.2.1
    refine ⟨⟨_, ended.sound⟩, alert₂.sched fun u inside blocked => ?_,
      ended.steady.current.trans current, fun _ => ?_⟩
    · have ne : u ≠ t := by
        rintro rfl
        exact inside free
      rw [sched', others ne]
      exact Sched.taskMarkZombie_rouses sound t code signal u blocked
    · exact ended.gone.imp_right And.right

/-! ### The scheduler -/

/-- The calls that go on in world `w`. -/
def ongoing (w : World) (calls : Slot → Option Call) : Slot → Option Call := fun t =>
  if (w.sched.pool t).state = .zombie ∨ (w.sched.pool t).state = .unused then none else calls t

theorem ongoing_fewer (w : World) (calls : Slot → Option Call) (t : Slot) :
    ongoing w calls t = none ∨ ongoing w calls t = calls t := by
  unfold ongoing
  split
  · exact .inl rfl
  · exact .inr rfl

/-- The end of another task. -/
theorem taskMarkZombie_ongoing (alert : Alert w calls) (ordered : Ordered w.sched) (t : Slot)
    (code : Int) (signal : UInt32) :
    Ordered (taskMarkZombie w t code signal).sched ∧
      Alert (taskMarkZombie w t code signal) (ongoing (taskMarkZombie w t code signal) calls) := by
  by_cases refused : (w.sched.pool t).pid = 0 ∨ (w.sched.pool t).state = .unused ∨
      (w.sched.pool t).state = .zombie
  · have same : taskMarkZombie w t code signal = w := by
      unfold taskMarkZombie
      rw [if_pos refused]
    rw [same]
    exact ⟨ordered, alert.fewer (ongoing_fewer w calls)⟩
  · obtain ⟨ordered', alert', -, gone⟩ := taskMarkZombie_alert alert ordered t code signal
    refine ⟨ordered', alert'.fewer fun u => ?_⟩
    by_cases h : u = t
    · left
      rw [h]
      unfold ongoing
      exact if_pos (gone refused)
    · rw [update_of_ne h]
      exact ongoing_fewer _ calls u

/-- The end of the current task, which is in no call. -/
theorem taskMarkZombie_current (alert : Alert w calls) (ordered : Ordered w.sched)
    (free : calls w.sched.current = none) (pid : (w.sched.pool w.sched.current).pid ≠ 0)
    (code : Int) (signal : UInt32) :
    let w' := taskMarkZombie w w.sched.current code signal
    Ordered w'.sched ∧ Alert w' calls ∧ (w'.sched.pool w'.sched.current).state ≠ .running := by
  obtain ⟨ordered', alert', current, gone⟩ :=
    taskMarkZombie_alert alert ordered w.sched.current code signal
  rw [← free, Function.update_eq_self] at alert'
  refine ⟨ordered', alert', ?_⟩
  rw [current]
  by_cases refused : (w.sched.pool w.sched.current).state = .unused ∨
      (w.sched.pool w.sched.current).state = .zombie
  · have same : taskMarkZombie w w.sched.current code signal = w := by
      unfold taskMarkZombie
      rw [if_pos (.inr refused)]
    rw [same]
    rcases refused with h | h
    · rw [h]
      exact Sched.TaskState.noConfusion
    · rw [h]
      exact Sched.TaskState.noConfusion
  · rcases gone (not_or.mpr ⟨pid, refused⟩) with h | h
    · rw [h]
      exact Sched.TaskState.noConfusion
    · rw [h]
      exact Sched.TaskState.noConfusion

/-- The scheduler goes on and nobody inside a call gets blocked. -/
theorem Alert.perform (alert : Alert w calls) (ordered : Ordered w.sched) {op : Sched.Op}
    {s : Sched.State} (done : Sched.perform w.sched op = some s)
    (blocks : ∀ t, calls t ≠ none → (s.pool t).state = .blocked → (w.sched.pool t).state = .blocked) :
    Ordered s ∧ Alert { w with sched := s } calls := by
  obtain ⟨s', same, ordered'⟩ := Sched.perform_ordered ordered op
  obtain rfl := Option.some.inj (same.symm.trans done)
  exact ⟨ordered', alert.sched blocks⟩

/-- An operation of the current task that is not inside a call. -/
theorem Alert.own (alert : Alert w calls) (ordered : Ordered w.sched) {op : Sched.Op}
    {s : Sched.State} (free : calls w.sched.current = none)
    (others : ∀ t, op = .suspendUnstarted t → calls t = none)
    (done : Sched.perform w.sched op = some s) :
    Ordered s ∧ Alert { w with sched := s } calls := by
  refine alert.perform ordered done fun t inside blocked => ?_
  obtain ⟨q, sound⟩ := ordered
  rcases Sched.perform_blocked sound done blocked with before | here | suspended
  · exact before
  · exact absurd (here ▸ free) inside
  · exact absurd (others t suspended) inside

/-- What the callers of the scheduler guarantee: a task inside a call does nothing
else, and a task is suspended or discarded before it has started. -/
def Callable (m : Machine) : Sched.Op → Prop
  | .tick => True
  | .unblock _ => True
  | .suspendUnstarted t => m.calls m.current = none ∧ m.calls t = none
  | .discardUnstarted t => m.calls m.current = none ∧ (m.world.tables t).ready = false
  | _ => m.calls m.current = none

theorem nativeFdTaskCleanup_unready (unready : (w.tables t).ready = false) :
    nativeFdTaskCleanup w t = w := by
  unfold nativeFdTaskCleanup
  rw [if_pos unready]

theorem taskSendSignal_alert (alert : Alert w calls) (ordered : Ordered w.sched) (pid : Int32)
    (sig : Int) :
    Ordered (taskSendSignal w pid sig).sched ∧
      Alert (taskSendSignal w pid sig) (ongoing (taskSendSignal w pid sig) calls) := by
  have same : Ordered w.sched ∧ Alert w (ongoing w calls) :=
    ⟨ordered, alert.fewer (ongoing_fewer w calls)⟩
  unfold taskSendSignal
  split
  · exact same
  · split
    · exact same
    · split
      · exact same
      · split
        · exact same
        · rename_i target _ _ _
          dsimp only
          obtain ⟨q, sound⟩ := ordered
          set s₁ := w.sched.mapTask target fun task =>
            { task with pendingSignal := UInt32.ofNat sig.toNat }
          have ordered₁ : Ordered s₁ :=
            ⟨q, sound.mapTask _ (fun _ => rfl) (fun _ => rfl) (fun _ => rfl)⟩
          have rouses : Rouses w.sched s₁ := Sched.rouses_mapTask _ fun _ => rfl
          exact taskMarkZombie_ongoing (alert.sched fun u _ => rouses u) ordered₁ target 0 _

/-- **The scheduler keeps everybody alert.** -/
theorem schedPerform_alert {m : Machine} {op : Sched.Op} (alert : Alert m.world m.calls)
    (ordered : Ordered m.world.sched) (callable : Callable m op)
    (done : schedPerform m.world op = some w') :
    Ordered w'.sched ∧ Alert w' (ongoing w' m.calls) := by
  have goesOn : ∀ {s}, Ordered s ∧ Alert { m.world with sched := s } m.calls →
      { m.world with sched := s } = w' → Ordered w'.sched ∧ Alert w' (ongoing w' m.calls) := by
    rintro s ⟨ordered, alert⟩ rfl
    exact ⟨ordered, alert.fewer (ongoing_fewer _ _)⟩
  have plain : (∀ t, op = .suspendUnstarted t → m.calls t = none) → m.calls m.current = none →
      (Sched.perform m.world.sched op).map (fun s => { m.world with sched := s }) = some w' →
      Ordered w'.sched ∧ Alert w' (ongoing w' m.calls) := by
    intro others free done
    obtain ⟨s, performed, same⟩ := map_eq_some_iff.mp done
    exact goesOn (alert.own ordered free others performed) same
  obtain ⟨q, sound⟩ := id ordered
  cases op with
  | exit code =>
    have done : taskExit m.world code = some w' := done
    unfold taskExit at done
    split at done
    · cases done
      exact ⟨ordered, alert.fewer (ongoing_fewer _ _)⟩
    · rename_i pid
      obtain ⟨⟨q', sound'⟩, alert', -⟩ := taskMarkZombie_current alert ordered callable pid code 0
      obtain ⟨s, ticked, rfl⟩ := map_eq_some_iff.mp done
      obtain ⟨s', woken, same, sound'', -⟩ := Sched.schedTick_sound sound'
      obtain rfl := Option.some.inj (same.symm.trans ticked)
      have rouses := Sched.schedTick_rouses sound' ticked
      exact ⟨⟨_, sound''⟩, (alert'.sched fun u _ => rouses u).fewer (ongoing_fewer _ _)⟩
  | exitFromSyscall code =>
    cases done
    unfold taskExitFromSyscall
    split
    · exact ⟨ordered, alert.fewer (ongoing_fewer _ _)⟩
    · rename_i pid
      obtain ⟨⟨q', sound'⟩, alert', stopped⟩ :=
        taskMarkZombie_current alert ordered callable pid code 0
      have rouses := Sched.switchTo_rouses
        (taskMarkZombie m.world m.world.sched.current code 0).sched
        ((Sched.nextReady (taskMarkZombie m.world m.world.sched.current code 0).sched).getD 0)
      exact ⟨⟨q', Sched.switchAway_sound sound' stopped⟩,
        (alert'.sched fun u _ => rouses u).fewer (ongoing_fewer _ _)⟩
  | kill pid code =>
    cases done
    unfold taskKill
    split
    · exact ⟨ordered, alert.fewer (ongoing_fewer _ _)⟩
    · split
      · exact ⟨ordered, alert.fewer (ongoing_fewer _ _)⟩
      · split
        · exact ⟨ordered, alert.fewer (ongoing_fewer _ _)⟩
        · exact taskMarkZombie_ongoing alert ordered _ code 0
  | sendSignal pid sig =>
    cases done
    exact taskSendSignal_alert alert ordered pid sig
  | discardUnstarted t =>
    cases done
    have same : taskDiscardUnstarted m.world t =
        { m.world with sched := (Sched.taskDiscardUnstarted m.world.sched t).1 } := by
      unfold taskDiscardUnstarted Sched.taskDiscardUnstarted
      split
      · rw [nativeFdTaskCleanup_unready (by exact callable.2)]
      · rfl
    have others : ∀ u, Sched.Op.discardUnstarted t = .suspendUnstarted u → m.calls u = none := nofun
    exact goesOn (alert.own ordered callable.1 others rfl) same.symm
  | suspendUnstarted t =>
    refine plain (fun u h => ?_) callable.1 done
    cases h
    exact callable.2
  | tick =>
    obtain ⟨s, ticked, same⟩ := map_eq_some_iff.mp done
    have rouses := Sched.schedTick_rouses sound ticked
    exact goesOn (alert.perform ordered ticked fun u _ => rouses u) same
  | unblock t =>
    have done : (Sched.perform m.world.sched (.unblock t)).map
        (fun s => { m.world with sched := s }) = some w' := done
    obtain ⟨s, performed, same⟩ := map_eq_some_iff.mp done
    obtain ⟨woken, woke, -⟩ := Sched.taskUnblock_woke sound t
    have eq : Sched.taskUnblock m.world.sched t = s := Option.some.inj performed
    exact goesOn (alert.perform ordered performed fun u _ => eq ▸ woke.rouses u) same
  | create priority stackOk => exact plain nofun callable done
  | blockFromSyscall => exact plain nofun callable done
  | block => exact plain nofun callable done
  | sleepTicks ticks => exact plain nofun callable done
  | waitpid pid options => exact plain nofun callable done
  | waitpidResume pid options => exact plain nofun callable done
  | loadImage t present => exact plain nofun callable done

/-! ### Calls -/

/-- The calls that set up or clear the table of a task, for another one. -/
def Op.Manages : Op → Prop
  | .taskInit _ _ => True
  | .taskCleanup _ => True
  | .taskInherit _ _ => True
  | _ => False

instance (op : Op) : Decidable op.Manages := by
  apply op.casesOn (motive := fun op => Decidable op.Manages) <;>
    (intros; dsimp only [Op.Manages]; infer_instance)

instance (m : Machine) (op : Sched.Op) : Decidable (Callable m op) := by
  apply op.casesOn (motive := fun op => Decidable (Callable m op)) <;>
    (intros; dsimp only [Callable]; infer_instance)

/-- **What can happen**: a task calls for itself, or it manages the table of a task
that is not inside a call. -/
def Possible (m : Machine) : Act → Prop
  | .call op => m.calls m.current = none ∧ m.calls op.task = none ∧ Fresh m.world op ∧
      (op.Manages ∨ op.task = m.current)
  | .resume => True
  | .sched op => Callable m op

instance (m : Machine) (act : Act) : Decidable (Possible m act) := by
  cases act <;> unfold Possible <;> infer_instance

/-- No other task is blocked on this end of the pipe. -/
def Machine.Only (m : Machine) (t : Slot) (i : Fin 8) (e : PipeEnd) : Prop :=
  ∀ u, u ≠ t → ¬m.Blocked u i e

instance (m : Machine) (t : Slot) (i : Fin 8) (e : PipeEnd) : Decidable (m.Only t i e) :=
  inferInstanceAs (Decidable (∀ u, u ≠ t → ¬m.Blocked u i e))

instance : Fintype PipeEnd := ⟨{.read, .write}, fun e => by cases e <;> decide⟩

/-- **Tasks block alone**: no task goes to block on an end of a pipe on which
another one is blocked. -/
def Alone (m : Machine) : Act → Prop
  | .call (.read t fd count nonblock) => count ≠ 0 → nonblock = false →
      ∀ i, (pipeDecode m.world t fd).map Prod.snd = some (i, .read) → m.Only t i .read
  | .call (.write t fd data nonblock) => data ≠ [] → nonblock = false →
      ∀ i, (pipeDecode m.world t fd).map Prod.snd = some (i, .write) → m.Only t i .write
  | .resume => ∀ i e, (m.calls m.current).map Call.on = some (i, e) → m.Only m.current i e
  | _ => True

instance (m : Machine) (act : Act) : Decidable (Alone m act) := by
  unfold Alone
  split <;> infer_instance

/-- Everybody is alert and the run queue is in order. -/
structure Awake (m : Machine) : Prop where
  ordered : Ordered m.world.sched
  alert : Alert m.world m.calls

theorem pipeReadRound_blocks {count : Nat} {nonblock : Bool}
    (done : pipeReadRound w a i count nonblock = (w', none)) : nonblock = false := by
  unfold pipeReadRound at done
  dsimp only at done
  split at done
  · cases done
  · split at done
    · cases done
    · split at done
      · cases done
      · rename_i blocking
        simpa using blocking

theorem pipeWriteRound_blocks {data : List UInt8} {nonblock : Bool}
    (done : pipeWriteRound w a i data nonblock = (w', none)) : nonblock = false := by
  unfold pipeWriteRound at done
  dsimp only at done
  split at done
  · cases done
  · split at done
    · cases done
    · split at done
      · cases done
      · rename_i blocking
        simpa using blocking

/-- A round of a read of the current task. -/
theorem resumeRead_alert {m : Machine} {count : Nat} {nonblock : Bool}
    {r : Option (Int × List UInt8)} (awake : Awake m)
    (held : entry m.world m.current k = some (i, .read))
    (alone : nonblock = false → m.Only m.current i .read)
    (done : resumeRead m.world m.current i count nonblock = some (w', r)) :
    Awake ⟨w', Function.update m.calls m.current
      (if r.isSome then none else some (.read i count nonblock))⟩ := by
  unfold resumeRead at done
  split at done
  · rename_i r₁ eq
    cases done
    have keeps := pipeReadRound_keeps awake.ordered eq
    exact ⟨keeps.ordered, awake.alert.keeps keeps⟩
  · rename_i w₁ eq
    obtain ⟨w₂, block, same⟩ := map_eq_some_iff.mp done
    cases same
    have publishes := pipeReadRound_publishes eq
    have only := alone (pipeReadRound_blocks eq)
    obtain ⟨ordered, alert⟩ := awake.alert.blocks (c := .read i count nonblock) awake.ordered rfl rfl
      held (fun u ne blocked inside => only u ne ⟨blocked, inside⟩) publishes block
    exact ⟨ordered, alert⟩

/-- A round of a write of the current task. -/
theorem resumeWrite_alert {m : Machine} {data : List UInt8} {nonblock : Bool} {r : Option Int}
    (awake : Awake m) (held : entry m.world m.current k = some (i, .write))
    (alone : nonblock = false → m.Only m.current i .write)
    (done : resumeWrite m.world m.current i data nonblock = some (w', r)) :
    Awake ⟨w', Function.update m.calls m.current
      (if r.isSome then none else some (.write i data nonblock))⟩ := by
  unfold resumeWrite at done
  split at done
  · rename_i r₁ eq
    cases done
    have keeps := pipeWriteRound_keeps awake.ordered eq
    exact ⟨keeps.ordered, awake.alert.keeps keeps⟩
  · rename_i w₁ eq
    obtain ⟨w₂, block, same⟩ := map_eq_some_iff.mp done
    cases same
    have publishes := pipeWriteRound_publishes eq
    have only := alone (pipeWriteRound_blocks eq)
    obtain ⟨ordered, alert⟩ := awake.alert.blocks (c := .write i data nonblock) awake.ordered rfl rfl
      held (fun u ne blocked inside => only u ne ⟨blocked, inside⟩) publishes block
    exact ⟨ordered, alert⟩

theorem Awake.resume {m m' : Machine} (awake : Awake m) (alone : Alone m .resume)
    (done : performResume m = some m') : Awake m' := by
  unfold performResume at done
  dsimp only at done
  split at done
  · cases done
  · rename_i i count nonblock inside
    have on : (m.calls m.current).map Call.on = some (i, .read) := by rw [inside]; rfl
    obtain ⟨k, held⟩ := awake.alert.held _ i .read on
    obtain ⟨⟨w, r⟩, round, rfl⟩ := map_eq_some_iff.mp done
    have after := resumeRead_alert awake held (fun _ => alone i .read on) round
    cases r with
    | none =>
      rw [if_neg (by exact Bool.false_ne_true), ← inside, Function.update_eq_self] at after
      exact after
    | some r => exact after
  · rename_i i data nonblock inside
    have on : (m.calls m.current).map Call.on = some (i, .write) := by rw [inside]; rfl
    obtain ⟨k, held⟩ := awake.alert.held _ i .write on
    obtain ⟨⟨w, r⟩, round, rfl⟩ := map_eq_some_iff.mp done
    have after := resumeWrite_alert awake held (fun _ => alone i .write on) round
    cases r with
    | none =>
      rw [if_neg (by exact Bool.false_ne_true), ← inside, Function.update_eq_self] at after
      exact after
    | some r => exact after

theorem Awake.read {m m' : Machine} {fd : Int} {count : Nat} {nonblock : Bool} (awake : Awake m)
    (free : m.calls m.current = none) (alone : Alone m (.call (.read m.current fd count nonblock)))
    (done : performCall m (.read m.current fd count nonblock) = some m') : Awake m' := by
  have same : Function.update m.calls m.current none = m.calls := by
    rw [← free, Function.update_eq_self]
  unfold performCall at done
  dsimp only at done
  cases call : nativePipeRead m.world m.current fd count nonblock with
  | none =>
    rw [call] at done
    cases done
  | some result =>
    obtain ⟨w, r⟩ := result
    rw [call] at done
    unfold nativePipeRead at call
    split at call
    · rename_i k i decoded
      split at call
      · cases call
        cases done
        exact awake
      · rename_i some_
        have held := entry_of_decode decoded
        have only : nonblock = false → m.Only m.current i .read := fun blocking =>
          alone some_ blocking i (by rw [decoded]; rfl)
        have after := resumeRead_alert awake held only call
        rw [decoded] at done
        cases r with
        | none =>
          cases done
          exact after
        | some r =>
          cases done
          rw [if_pos (by rfl), same] at after
          exact after
    · cases call
      cases done
      exact awake

theorem Awake.write {m m' : Machine} {fd : Int} {data : List UInt8} {nonblock : Bool}
    (awake : Awake m) (free : m.calls m.current = none)
    (alone : Alone m (.call (.write m.current fd data nonblock)))
    (done : performCall m (.write m.current fd data nonblock) = some m') : Awake m' := by
  have same : Function.update m.calls m.current none = m.calls := by
    rw [← free, Function.update_eq_self]
  unfold performCall at done
  dsimp only at done
  cases call : nativePipeWrite m.world m.current fd data nonblock with
  | none =>
    rw [call] at done
    cases done
  | some result =>
    obtain ⟨w, r⟩ := result
    rw [call] at done
    unfold nativePipeWrite at call
    split at call
    · rename_i k i decoded
      split at call
      · cases call
        cases done
        exact awake
      · rename_i some_
        have held := entry_of_decode decoded
        have only : nonblock = false → m.Only m.current i .write := fun blocking =>
          alone some_ blocking i (by rw [decoded]; rfl)
        have after := resumeWrite_alert awake held only call
        rw [decoded] at done
        cases r with
        | none =>
          cases done
          exact after
        | some r =>
          cases done
          rw [if_pos (by rfl), same] at after
          exact after
    · cases call
      cases done
      exact awake

/-- A call that moves no bytes. -/
theorem Awake.plain {m m' : Machine} {op : Op} (awake : Awake m) (free : m.calls op.task = none)
    (fresh : Fresh m.world op) (plain : ¬op.Copies)
    (done : (perform m.world op).map (fun w => { m with world := w }) = some m') : Awake m' := by
  obtain ⟨w, performed, rfl⟩ := map_eq_some_iff.mp done
  rcases perform_moves awake.alert.counted fresh plain performed with
    moves | ⟨w₁, k, k', i, made, moves⟩
  · obtain ⟨ordered, alert⟩ := awake.alert.moves responsive_ordered awake.ordered free moves
    exact ⟨ordered, alert⟩
  · have ordered₁ : Ordered w₁.sched := made.sched ▸ awake.ordered
    obtain ⟨ordered, alert⟩ := (awake.alert.made free made).moves responsive_ordered ordered₁ free moves
    exact ⟨ordered, alert⟩

/-- **Every step keeps everybody alert.** -/
theorem Awake.step {m m' : Machine} {act : Act} (awake : Awake m)
    (allowed : Possible m act ∧ Alone m act) (step : m.Step act m') : Awake m' := by
  obtain ⟨possible, alone⟩ := allowed
  cases act with
  | call op =>
    obtain ⟨free, freeTask, fresh, own⟩ := possible
    have done : performCall m op = some m' := step
    cases op with
    | read t fd count nonblock =>
      obtain rfl : t = m.current := own.resolve_left id
      exact awake.read free alone done
    | write t fd data nonblock =>
      obtain rfl : t = m.current := own.resolve_left id
      exact awake.write free alone done
    | readAgain t i count nonblock => cases done
    | writeAgain t i data nonblock => cases done
    | _ => exact awake.plain freeTask fresh id done
  | resume => exact awake.resume alone step
  | sched op =>
    obtain ⟨w, done, rfl⟩ := map_eq_some_iff.mp step
    obtain ⟨ordered, alert⟩ := schedPerform_alert awake.alert awake.ordered possible done
    exact ⟨ordered, alert⟩

/-! ### Runs -/

/-- The machine at boot: nobody is inside a call. -/
def Machine.boot (w : World) : Machine := ⟨w, fun _ => none⟩

/-- **No lost wakeup.** If tasks block alone, in every state reached a task blocked
inside a read of a pipe has nothing to read and there is a writer, and a task blocked
inside a write has no room and there is a reader. -/
theorem run_alert {w₀ : World} {acts : List Act} {m : Machine} (boot : Boot w₀)
    (ordered : Ordered w₀.sched)
    (run : Run Machine.Step (fun m act => Possible m act ∧ Alone m act) (.boot w₀) acts m) :
    (∀ t i, m.Blocked t i .read → (m.world.pipes i).count = 0 ∧ ends m.world i .write ≠ 0) ∧
      ∀ t i, m.Blocked t i .write →
        ¬(m.world.pipes i).count < 1024 ∧ ends m.world i .read ≠ 0 := by
  have start : Awake (.boot w₀) :=
    ⟨ordered, boot.counted, (fun _ _ _ inside => nomatch inside), (fun _ _ _ inside => nomatch inside)⟩
  have awake : Awake m := run.invariant start fun awake allowed step => awake.step allowed step
  have counted := awake.alert.counted
  constructor
  · rintro t i ⟨blocked, inside⟩
    obtain ⟨-, empty, writers⟩ := awake.alert.waits t i .read inside blocked
    exact ⟨empty, fun none_ => writers ((counted.refs i .write).trans none_)⟩
  · rintro t i ⟨blocked, inside⟩
    obtain ⟨-, full, readers⟩ := awake.alert.waits t i .write inside blocked
    exact ⟨not_lt.mpr full, fun none_ => readers ((counted.refs i .read).trans none_)⟩

/-- Three tasks share a pipe, and the first of them runs. -/
def sharing : List Act :=
  [.sched (.create 5 true), .sched (.create 5 true), .sched (.create 5 true),
    .call (.taskInit 0 fun _ => true), .call (.pipe2 0 0),
    .call (.taskInherit 1 0), .call (.taskInherit 2 0), .call (.taskInherit 3 0),
    .sched (.loadImage 1 true), .sched (.loadImage 2 true), .sched (.loadImage 3 true),
    .sched .tick, .sched .tick]

theorem booted_ordered : Ordered booted.sched := ⟨[], Sched.schedInit_sound Sched.statics⟩

/-- One of the tasks blocks in a read of the empty pipe. -/
theorem run_alert_reader :
    ∃ m, Run Machine.Step (fun m act => Possible m act ∧ Alone m act) (.boot booted)
        (sharing ++ [.call (.read 1 3 1 false)]) m ∧
      m.Blocked 1 0 .read ∧ (m.world.pipes 0).count = 0 := by
  have done : ((runAll Machine.perform (fun m act => Possible m act ∧ Alone m act) (.boot booted)
      (sharing ++ [.call (.read 1 3 1 false)])).filter fun m => m.Blocked 1 0 .read).isSome = true := by
    decide
  obtain ⟨m, found⟩ := Option.isSome_iff_exists.mp done
  obtain ⟨ran, blocked⟩ := Option.filter_eq_some_iff.mp found
  have blocked := of_decide_eq_true blocked
  exact ⟨m, .of_runAll ran, blocked,
    ((run_alert booted_boot booted_ordered (.of_runAll ran)).1 1 0 blocked).1⟩

/-- **Two readers.** Both block in a read of the empty pipe. A byte wakes the second
one, which is the published waiter, reads it and writes another byte: the first one
stays blocked, with a byte to read and nobody else inside a call. -/
theorem second_reader_forgotten :
    ¬∀ (acts : List Act) (m : Machine), Run Machine.Step Possible (.boot booted) acts m →
      (∀ t i, ¬(m.Blocked t i .read ∧
        ((m.world.pipes i).count ≠ 0 ∨ ends m.world i .write = 0) ∧
        ∀ u, u ≠ t → m.calls u = none)) ∧
      ∀ t i, ¬(m.Blocked t i .write ∧
        ((m.world.pipes i).count < 1024 ∨ ends m.world i .read = 0)) := by
  intro all
  have done : ((runAll Machine.perform Possible (.boot booted)
      (sharing ++ [.call (.read 1 3 1 false), .call (.read 2 3 1 false),
        .call (.write 3 4 [7] false), .sched .blockFromSyscall, .resume,
        .call (.write 2 4 [8] false)])).filter fun m => m.Blocked 1 0 .read ∧
      (m.world.pipes 0).count ≠ 0 ∧ ∀ u, u ≠ 1 → (m.calls u).isNone = true).isSome = true := by
    decide +kernel
  obtain ⟨m, found⟩ := Option.isSome_iff_exists.mp done
  obtain ⟨ran, facts⟩ := Option.filter_eq_some_iff.mp found
  obtain ⟨blocked, full, others⟩ := of_decide_eq_true facts
  refine (all _ m (.of_runAll ran)).1 1 0 ⟨blocked, .inl full, fun u ne => ?_⟩
  exact Option.isNone_iff_eq_none.mp (others u ne)

end AtmKoala.Native
