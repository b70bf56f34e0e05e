import AtmKoala.Sched.Control

/-!
Which tasks a sequence of ticks selects.

The scan of `sched_tick` starts at the head of the run queue each time, so the
processor goes back and forth between the first two tasks on it. That is fair for
a queue of two that no sleeper will join, and for no other:

* `tick_cases`: one tick on a queue of at least two tasks;
* `eventually_due`: a quantum is used up at some time;
* `alternates`: from some time on the first two tasks take turns;
* `fair_iff`: when ticks alone are fair.
-/

namespace AtmKoala.Sched

open Lib

variable {s s' : State} {q : List Slot}

/-- The states passed when only `sched_tick` is applied. -/
def Ticks (f : Nat → State) : Prop := ∀ n, schedTick (f n) = some (f (n + 1))

/-- Tick `n` makes `t` the current task. -/
def Selects (f : Nat → State) (n : Nat) (t : Slot) : Prop :=
  (f n).current ≠ t ∧ (f (n + 1)).current = t

/-- Between two consecutive selections of a task every other task that was ready
on the queue at the first of them is selected. -/
def Fair (f : Nat → State) : Prop :=
  ∀ t i j, i < j → Selects f i t → Selects f j t → (∀ k, i < k → k < j → ¬Selects f k t) →
    ∀ u, u ≠ t → u ∈ (f (i + 1)).queue → ((f (i + 1)).pool u).state = .ready →
      ∃ k, i < k ∧ k < j ∧ Selects f k u

/-! ### One tick -/

/-- The quantum that a decision leaves behind, and the task it goes to. -/
theorem selectNext_several {a b : Slot} {rest : List Slot} (sound : Sound s (a :: b :: rest))
    (selected : selectNext s = some s') :
    (¬Due s ∧ s'.current = s.current ∧ s'.quantumCounter = s.quantumCounter + 1) ∨
      (Due s ∧ s'.current = if s.current = a then b else a) := by
  have ne : a ≠ b := fun h => by simpa [h] using sound.queued.ring.nodup
  rw [selectNext_eq sound] at selected
  obtain rfl := Option.some.inj selected
  simp only [reduceCtorEq, if_false]
  by_cases due : Due s
  · right
    refine ⟨due, ?_⟩
    by_cases first : s.current = a
    · have found : (a :: b :: rest).find? (· ≠ s.current) = some b := by
        simp [first, Ne.symm ne]
      rw [if_pos first]
      simp only [due, not_true_eq_false, if_false, found]
      rfl
    · have found : (a :: b :: rest).find? (· ≠ s.current) = some a := by
        simp [Ne.symm first]
      rw [if_neg first]
      simp only [due, not_true_eq_false, if_false, found]
      rfl
  · left
    simp only [due, not_false_eq_true, if_true, and_self]

/-- **One tick on a queue of at least two tasks.** -/
theorem tick_cases {a b : Slot} {rest : List Slot} (sound : Sound s (a :: b :: rest))
    (ticked : schedTick s = some s') :
    ∃ woken, Sound s' (a :: b :: (rest ++ woken)) ∧
      ((¬Due s ∧ s'.current = s.current ∧ s'.quantumCounter = s.quantumCounter + 1) ∨
        (Due s ∧ s'.current = if s.current = a then b else a)) ∧
      (s'.pool s.current).priority = (s.pool s.current).priority := by
  obtain ⟨woken, woke, -⟩ := wakeSleepers_woke (sound.uptime (s.uptimeTicks + 1))
  set s₁ := wakeSleepers { s with uptimeTicks := s.uptimeTicks + 1 }
  have steady : Steady s s₁ := ⟨woke.steady.current, woke.steady.quantum, woke.steady.priority,
    woke.steady.pid⟩
  have due : Due s₁ ↔ Due s := by
    unfold Due
    rw [steady.current, steady.priority, steady.quantum]
  obtain ⟨s'', eq, sound'⟩ := selectNext_sound woke.sound
  obtain rfl : s'' = s' := Option.some.inj (eq.symm.trans ticked)
  refine ⟨woken, sound', ?_, ?_⟩
  · rw [← due, ← steady.current, ← steady.quantum]
    exact selectNext_several woke.sound eq
  · rw [selectNext_field Task.priority (fun _ _ => rfl) woke.sound eq]
    exact steady.priority

/-- A blocked task stays blocked through a decision, and keeps its deadline. -/
theorem selectNext_asleep {a : Slot} {rest : List Slot} {i : Slot} (sound : Sound s (a :: rest))
    (selected : selectNext s = some s') : Asleep s' i ↔ Asleep s i := by
  have sleep := (selectNext_sleep sound selected).1
  have state : (s'.pool i).state = .blocked ↔ (s.pool i).state = .blocked := by
    constructor
    · intro blocked
      rcases selectNext_state sound selected i with same | ⟨run, -⟩
      · rw [← same]
        exact blocked
      · exact absurd run (not_runnable_blocked blocked)
    · intro blocked
      have notNext : ∀ next, (a :: rest).find? (· ≠ s.current) = some next → i ≠ next := by
        rintro next found rfl
        exact not_runnable_blocked blocked (sound.runnable _ (List.mem_of_find?_eq_some found))
      rw [selectNext_eq sound] at selected
      obtain rfl := Option.some.inj selected
      simp only [reduceCtorEq, if_false]
      split
      · exact blocked
      · split
        · exact blocked
        · rename_i next found
          have other : i ≠ next := notNext next found
          have kept : ((pause { s with quantumCounter := 0 }).pool i).state = .blocked := by
            unfold pause
            split
            · rename_i running
              have off : i ≠ s.current := by
                rintro rfl
                rw [blocked] at running
                cases running
              exact (setState_state_of_ne (s := { s with quantumCounter := 0 }) .ready off).trans
                blocked
            · exact blocked
          exact (congrArg Task.state (Function.update_of_ne other ..)).trans kept
  unfold Asleep
  rw [sleep, state]

/-! ### Sequences of ticks -/

/-- `a` and `b` are the first two tasks on the queue, all along. -/
theorem Ticks.sound {f : Nat → State} (ticks : Ticks f) {a b : Slot} {rest : List Slot} {n : Nat}
    (sound : Sound (f n) (a :: b :: rest)) (m : Nat) :
    ∃ more, Sound (f (n + m)) (a :: b :: (rest ++ more)) := by
  induction m with
  | zero => exact ⟨[], by simpa using sound⟩
  | succ m ih =>
    obtain ⟨more, sound'⟩ := ih
    obtain ⟨woken, sound'', -⟩ := tick_cases sound' (ticks (n + m))
    exact ⟨more ++ woken, by simpa [Nat.add_assoc] using sound''⟩

/-- What is left of the quantum of the current task. -/
def remaining (s : State) : Nat :=
  ((s.pool s.current).priority * quantumBase).toNat - (s.quantumCounter + 1).toNat

theorem remaining_lt {a b : Slot} {rest : List Slot} (sound : Sound s (a :: b :: rest))
    (ticked : schedTick s = some s') (early : ¬Due s) : remaining s' < remaining s := by
  obtain ⟨woken, -, ⟨-, current, quantum⟩ | ⟨due, -⟩, priority⟩ := tick_cases sound ticked
  · unfold remaining
    rw [current, priority, quantum]
    unfold Due at early
    rw [UInt32.not_le, UInt32.lt_iff_toNat_lt] at early
    have bound := ((s.pool s.current).priority * quantumBase).toNat_lt
    have next : (s.quantumCounter + 1 + 1).toNat = (s.quantumCounter + 1).toNat + 1 := by
      rw [UInt32.toNat_add]
      have : (1 : UInt32).toNat = 1 := rfl
      omega
    omega
  · exact absurd due early

/-- **A quantum is used up at some time**, and until then the current task stays. -/
theorem eventually_due {f : Nat → State} (ticks : Ticks f) {a b : Slot} {rest : List Slot} {n : Nat}
    (sound : Sound (f n) (a :: b :: rest)) :
    ∃ m, n ≤ m ∧ Due (f m) ∧ ∀ k, n ≤ k → k ≤ m → (f k).current = (f n).current := by
  induction left : remaining (f n) using Nat.strong_induction_on generalizing n rest with
  | _ left ih =>
    by_cases due : Due (f n)
    · refine ⟨n, Nat.le_refl n, due, fun k low high => ?_⟩
      rw [Nat.le_antisymm high low]
    · obtain ⟨woken, sound', ⟨-, current, -⟩ | ⟨due', -⟩, -⟩ := tick_cases sound (ticks n)
      · have less := remaining_lt sound (ticks n) due
        obtain ⟨m, low, due', same⟩ := ih _ (left ▸ less) sound' rfl
        refine ⟨m, Nat.le_of_succ_le low, due', fun k hk high => ?_⟩
        rcases Nat.eq_or_lt_of_le hk with rfl | lt
        · rfl
        · rw [same k lt high, current]
      · exact absurd due' due

/-- The next selection goes to the first task, or to the second when the first one
is current. -/
theorem next_selection {f : Nat → State} (ticks : Ticks f) {a b : Slot} {rest : List Slot} {n : Nat}
    (sound : Sound (f n) (a :: b :: rest)) :
    ∃ m, n ≤ m ∧ Selects f m (if (f n).current = a then b else a) ∧
      ∀ k, n ≤ k → k ≤ m → (f k).current = (f n).current := by
  obtain ⟨m, low, due, same⟩ := eventually_due ticks sound
  obtain ⟨more, sound'⟩ := ticks.sound sound (m - n)
  rw [Nat.add_sub_cancel' low] at sound'
  have ne : a ≠ b := fun h => by simpa [h] using sound.queued.ring.nodup
  have current := same m low (Nat.le_refl m)
  obtain ⟨woken, -, ⟨early, -⟩ | ⟨-, next⟩, -⟩ := tick_cases sound' (ticks m)
  · exact absurd due early
  · refine ⟨m, low, ⟨?_, ?_⟩, same⟩
    · rw [current]
      split
      · rename_i first
        rw [first]
        exact ne
      · assumption
    · rw [next, current]

/-- **The first two tasks take turns.** -/
theorem alternates {f : Nat → State} (ticks : Ticks f) {a b : Slot} {rest : List Slot} {n : Nat}
    (sound : Sound (f n) (a :: b :: rest)) :
    ∃ i j, n ≤ i ∧ i < j ∧ Selects f i a ∧ Selects f j a ∧
      (∀ k, i < k → k < j → ¬Selects f k a) ∧
      ∀ k, i < k → k ≤ j → (f k).current = a ∨ (f k).current = b := by
  have ne : a ≠ b := fun h => by simpa [h] using sound.queued.ring.nodup
  have at' : ∀ m, n ≤ m → ∃ rest', Sound (f m) (a :: b :: rest') := by
    intro m low
    obtain ⟨more, sound'⟩ := ticks.sound sound (m - n)
    rw [Nat.add_sub_cancel' low] at sound'
    exact ⟨_, sound'⟩
  -- The first task gets the processor at the next selection, or at the one after it.
  obtain ⟨i, low, selected⟩ : ∃ i, n ≤ i ∧ Selects f i a := by
    obtain ⟨m, low, selected, -⟩ := next_selection ticks sound
    by_cases first : (f n).current = a
    · rw [if_pos first] at selected
      obtain ⟨rest', sound'⟩ := at' (m + 1) (Nat.le_succ_of_le low)
      obtain ⟨m', low', selected', -⟩ := next_selection ticks sound'
      rw [selected.2, if_neg (Ne.symm ne)] at selected'
      exact ⟨m', by omega, selected'⟩
    · rw [if_neg first] at selected
      exact ⟨m, low, selected⟩
  obtain ⟨rest₁, sound₁⟩ := at' (i + 1) (Nat.le_succ_of_le low)
  obtain ⟨j₁, low₁, selected₁, same₁⟩ := next_selection ticks sound₁
  rw [selected.2, if_pos rfl] at selected₁
  rw [selected.2] at same₁
  obtain ⟨rest₂, sound₂⟩ := at' (j₁ + 1) (by omega)
  obtain ⟨j, low₂, selected₂, same₂⟩ := next_selection ticks sound₂
  rw [selected₁.2, if_neg (Ne.symm ne)] at selected₂
  rw [selected₁.2] at same₂
  refine ⟨i, j, low, by omega, selected, selected₂, fun k above below again => ?_,
    fun k above below => ?_⟩
  · by_cases early : k ≤ j₁
    · exact again.1 (same₁ k above early)
    · exact ne (again.2.symm.trans (same₂ (k + 1) (by omega) below))
  by_cases early : k ≤ j₁
  · exact .inl (same₁ k above early)
  · exact .inr (same₂ k (by omega) below)

/-- A third task on the queue is not selected between two selections of the first. -/
theorem unfair_of_three {f : Nat → State} (ticks : Ticks f) {a b c : Slot} {rest : List Slot}
    {n : Nat} (sound : Sound (f n) (a :: b :: c :: rest)) : ¬Fair f := by
  intro fair
  obtain ⟨i, j, low, before, first, second, consecutive, between⟩ := alternates ticks sound
  obtain ⟨more, sound'⟩ := ticks.sound sound (i + 1 - n)
  rw [Nat.add_sub_cancel' (by omega)] at sound'
  have distinct := sound.queued.ring.nodup
  have ca : c ≠ a := fun h => by simp [h] at distinct
  have cb : c ≠ b := fun h => by simp [h] at distinct
  have mem : c ∈ a :: b :: (c :: rest ++ more) := by simp
  have ready : ((f (i + 1)).pool c).state = .ready := by
    refine (sound'.runnable c mem).resolve_right fun run => ?_
    exact ca ((sound'.running c run).trans first.2)
  obtain ⟨k, above, below, chosen⟩ := fair a i j before first second consecutive c ca
    (by rw [sound'.queued.queue_eq]; exact mem) ready
  rcases between (k + 1) (by omega) below with isFirst | isSecond
  · exact ca (chosen.2.symm.trans isFirst)
  · exact cb (chosen.2.symm.trans isSecond)

/-! ### Sleepers -/

/-- The ticks until the deadline of task `i`. -/
def untilDeadline (s : State) (i : Slot) : Nat :=
  ((s.sleep i).deadline - (s.uptimeTicks + 1)).toNat

theorem toNat_sub_one_lt {x : UInt32} (h : x ≠ 0) : (x - 1).toNat < x.toNat := by
  have pos : 0 < x.toNat := by
    refine Nat.pos_of_ne_zero fun zero => h ?_
    exact UInt32.toNat_inj.mp zero
  rw [UInt32.toNat_sub_of_le x 1 (by rw [UInt32.le_iff_toNat_le]; exact pos)]
  have : (1 : UInt32).toNat = 1 := rfl
  omega

/-- A deadline that has not come is not now. -/
theorem untilDeadline_lt {i : Slot} {n : UInt32} (early : ¬Expired { s with uptimeTicks := n } i) :
    (s.sleep i).deadline - n ≠ 0 := by
  intro now
  apply early
  have eq : (s.sleep i).deadline = n := by
    have := congrArg (· + n) now
    simpa using this
  unfold Expired
  simp only [eq, UInt32.sub_self]
  decide

/-- **A sleeper joins the queue at some time.** -/
theorem eventually_queued {f : Nat → State} (ticks : Ticks f) {a b : Slot} {rest : List Slot}
    {n : Nat} {i : Slot} (sound : Sound (f n) (a :: b :: rest)) (asleep : Asleep (f n) i) :
    ∃ m c rest', Sound (f m) (a :: b :: c :: rest') := by
  induction left : untilDeadline (f n) i using Nat.strong_induction_on generalizing n rest with
  | _ left ih =>
    have sound₁ := sound.uptime ((f n).uptimeTicks + 1)
    obtain ⟨woken, woke, -⟩ := wakeSleepers_woke sound₁
    obtain ⟨s', eq, sound'⟩ := selectNext_sound woke.sound
    obtain rfl : s' = f (n + 1) := Option.some.inj (eq.symm.trans (ticks n))
    obtain ⟨wakes, sleeps⟩ := wakeSleepers_sleeper sound₁ (t := i) asleep
    by_cases expired : Expired { f n with uptimeTicks := (f n).uptimeTicks + 1 } i
    · have mem := woke.sound.member i asleep.1 (.inl (wakes expired))
      have fresh : i ∉ a :: b :: rest :=
        sound.notMem_of_state (not_runnable_blocked asleep.2.2)
      have joined : i ∈ woken := (List.mem_append.mp mem).resolve_left fresh
      have several : rest ++ woken ≠ [] := by
        intro none
        rw [(List.append_eq_nil_iff.mp none).2] at joined
        cases joined
      obtain ⟨c, rest', split⟩ := List.exists_cons_of_ne_nil several
      refine ⟨n + 1, c, rest', ?_⟩
      rw [← split]
      exact sound'
    · obtain ⟨asleep₁, kept⟩ := sleeps expired
      have asleep' : Asleep (f (n + 1)) i := (selectNext_asleep woke.sound eq).mpr asleep₁
      obtain ⟨sleep', uptime'⟩ := selectNext_sleep woke.sound eq
      have uptime : (f (n + 1)).uptimeTicks = (f n).uptimeTicks + 1 := uptime'.trans woke.uptime
      have closer : ((f n).sleep i).deadline - ((f n).uptimeTicks + 1 + 1) =
          ((f n).sleep i).deadline - ((f n).uptimeTicks + 1) - 1 := by
        grind
      refine ih _ ?_ sound' asleep' rfl
      rw [← left]
      unfold untilDeadline
      rw [sleep', kept, uptime]
      show (((f n).sleep i).deadline - ((f n).uptimeTicks + 1 + 1)).toNat < _
      rw [closer]
      exact toNat_sub_one_lt (untilDeadline_lt expired)

/-! ### Two tasks -/

/-- A queue of two that no sleeper joins stays as it is. -/
theorem Ticks.pair {f : Nat → State} (ticks : Ticks f) {a b : Slot} (sound : Sound (f 0) [a, b])
    (awake : ∀ i, ¬Asleep (f 0) i) (n : Nat) : Sound (f n) [a, b] ∧ ∀ i, ¬Asleep (f n) i := by
  induction n with
  | zero => exact ⟨sound, awake⟩
  | succ n ih =>
    obtain ⟨sound', awake'⟩ := ih
    have sound₁ := sound'.uptime ((f n).uptimeTicks + 1)
    have still : wakeSleepers { f n with uptimeTicks := (f n).uptimeTicks + 1 } = _ :=
      wakeSleepers_still fun i asleep => awake' i asleep
    have selected := ticks n
    rw [schedTick, still] at selected
    obtain ⟨s', eq, sound''⟩ := selectNext_sound sound₁
    obtain rfl : s' = f (n + 1) := Option.some.inj (eq.symm.trans selected)
    refine ⟨sound'', fun i asleep => awake' i ?_⟩
    exact (selectNext_asleep sound₁ selected).mp asleep

/-- A property that is lost between two times is lost at a tick. -/
theorem exists_last {P : Nat → Prop} {i j : Nat} (le : i ≤ j) (start : P i) (stop : ¬P j) :
    ∃ k, i ≤ k ∧ k < j ∧ P k ∧ ¬P (k + 1) := by
  induction j, le using Nat.le_induction with
  | base => exact absurd start stop
  | succ j le ih =>
    by_cases h : P j
    · exact ⟨j, le, Nat.lt_succ_self j, h, stop⟩
    · obtain ⟨k, low, high, now, next⟩ := ih h
      exact ⟨k, low, Nat.lt_succ_of_lt high, now, next⟩

theorem fair_of_pair {f : Nat → State} (ticks : Ticks f) {a b : Slot} (sound : Sound (f 0) [a, b])
    (awake : ∀ i, ¬Asleep (f 0) i) : Fair f := by
  intro t i j before first second _ u other queued _
  have pair := fun n => (ticks.pair sound awake n).1
  have turn : ∀ n, (f (n + 1)).current = (f n).current ∨
      (f (n + 1)).current = if (f n).current = a then b else a := by
    intro n
    obtain ⟨woken, -, ⟨-, same, -⟩ | ⟨-, next⟩, -⟩ := tick_cases (pair n) (ticks n)
    · exact .inl same
    · exact .inr next
  rw [(pair (i + 1)).queued.queue_eq] at queued
  -- The selected task is one of the two, so `u` is the other one.
  have mine : t = if (f i).current = a then b else a := by
    rcases turn i with same | next
    · exact absurd (same.symm.trans first.2) first.1
    · exact first.2.symm.trans next
  obtain ⟨k, low, high, now, left⟩ := exists_last (P := fun k => (f k).current = t)
    before first.2 second.1
  refine ⟨k, low, high, ?_, ?_⟩
  · rw [now]
    exact Ne.symm other
  · rcases turn k with same | next
    · exact absurd (same.trans now) left
    · rw [next, now]
      rw [now] at next
      split
      · rename_i isFirst
        rcases List.mem_pair.mp queued with h | h
        · exact absurd (h.trans isFirst.symm) other
        · exact h.symm
      · rename_i notFirst
        rcases List.mem_pair.mp queued with h | h
        · exact h.symm
        · refine absurd ?_ other
          rw [h, mine]
          split
          · rfl
          · rename_i notCurrent
            rw [if_neg notCurrent] at mine
            exact absurd mine notFirst

/-! ### Fairness -/

/-- Ticks can be applied for ever. -/
theorem exists_ticks {s : State} (ordered : Ordered s) : ∃ f, f 0 = s ∧ Ticks f := by
  let f : Nat → State := fun n => Nat.rec s (fun _ s => (schedTick s).getD s) n
  have all : ∀ n, Ordered (f n) ∧ schedTick (f n) = some (f (n + 1)) := by
    intro n
    have next : ∀ m, Ordered (f m) → schedTick (f m) = some (f (m + 1)) ∧ Ordered (f (m + 1)) := by
      rintro m ⟨q, sound⟩
      obtain ⟨s', woken, ticked, sound', -⟩ := schedTick_sound sound
      have eq : f (m + 1) = s' := by
        show (schedTick (f m)).getD (f m) = s'
        rw [ticked, Option.getD_some]
      rw [eq]
      exact ⟨ticked, _, sound'⟩
    induction n with
    | zero => exact ⟨ordered, (next 0 ordered).1⟩
    | succ n ih =>
      have ordered' := (next n ih.1).2
      exact ⟨ordered', (next (n + 1) ordered').1⟩
  exact ⟨f, rfl, fun n => (all n).2⟩

/-- **When ticks are fair.** From a state reached by any operations, with at least
two tasks on the run queue, ticks alone are fair if and only if there are exactly
two and no task sleeps. -/
theorem fair_iff {ops : List Op} (run : Run Step Anything (schedInit s) ops s')
    (several : 2 ≤ s'.queue.length) :
    (∃ f, f 0 = s' ∧ Ticks f) ∧
      ∀ f, f 0 = s' → Ticks f → (Fair f ↔ s'.queue.length = 2 ∧ ∀ i, ¬Asleep s' i) := by
  obtain ⟨q, sound⟩ := run_ordered run
  rw [sound.queued.queue_eq] at several ⊢
  refine ⟨exists_ticks ⟨q, sound⟩, ?_⟩
  rintro f rfl ticks
  obtain ⟨a, b, rest, rfl⟩ : ∃ a b rest, q = a :: b :: rest := by
    match q, several with
    | a :: b :: rest, _ => exact ⟨a, b, rest, rfl⟩
  constructor
  · intro fair
    have two : rest = [] := by
      by_contra more
      obtain ⟨c, rest', rfl⟩ := List.exists_cons_of_ne_nil more
      exact unfair_of_three ticks sound fair
    subst two
    refine ⟨rfl, fun i asleep => ?_⟩
    obtain ⟨m, c, rest', sound'⟩ := eventually_queued ticks sound asleep
    exact unfair_of_three ticks sound' fair
  · rintro ⟨two, awake⟩
    obtain rfl : rest = [] := List.length_eq_zero_iff.mp (by simpa using two)
    exact fair_of_pair ticks sound awake

/-- Two tasks are fair to each other. -/
theorem fair_iff_two_tasks :
    ∃ s, runAll perform Anything booted [.create 5 true, .create 3 true, .tick] = some s ∧
      ∃ f, f 0 = s ∧ Ticks f ∧ Fair f := by
  have holds : ((runAll perform Anything booted [.create 5 true, .create 3 true, .tick]).filter
      fun s => s.queue.length = 2 ∧ ∀ i, (s.sleep i).active = false).isSome := by
    decide
  obtain ⟨s, found⟩ := Option.isSome_iff_exists.mp holds
  obtain ⟨done, facts⟩ := Option.filter_eq_some_iff.mp found
  obtain ⟨two, inactive⟩ := of_decide_eq_true facts
  obtain ⟨⟨f, start, ticks⟩, fair⟩ := fair_iff (Run.of_runAll done) (Nat.le_of_eq two.symm)
  refine ⟨s, done, f, start, ticks, (fair f start ticks).mpr ⟨two, fun i asleep => ?_⟩⟩
  have active := asleep.2.1
  rw [inactive i] at active
  cases active

/-- Three tasks are not: the third is never selected. -/
theorem third_task_starves :
    ∃ s, runAll perform Anything booted [.create 1 true, .create 1 true, .create 1 true] = some s ∧
      s.queue.length = 3 ∧ ∃ f, f 0 = s ∧ Ticks f ∧ ¬Fair f := by
  have holds : ((runAll perform Anything booted
      [.create 1 true, .create 1 true, .create 1 true]).filter
      fun s => s.queue.length = 3).isSome := by
    decide +kernel
  obtain ⟨s, found⟩ := Option.isSome_iff_exists.mp holds
  obtain ⟨done, facts⟩ := Option.filter_eq_some_iff.mp found
  have three : s.queue.length = 3 := of_decide_eq_true facts
  obtain ⟨q, sound⟩ := run_ordered (Run.of_runAll done)
  obtain ⟨f, rfl, ticks⟩ := exists_ticks ⟨q, sound⟩
  refine ⟨f 0, done, three, f, rfl, ticks, ?_⟩
  rw [sound.queued.queue_eq] at three
  match q, three with
  | [a, b, c], _ => exact unfair_of_three ticks sound

end AtmKoala.Sched
