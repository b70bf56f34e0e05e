import AtmKoala.Native.Streams

/-!
What `native_pipe_poll` says about an end of a pipe.

* `Extinct`: an end on which no descriptor is open stays so while the pipe is in use
  (`Extinct.moves`, `Extinct.step`), because a descriptor is made from one of the same end.
* `Drains`: a read gets what is in the pipe now and then 0, whatever is called meanwhile.
* `run_poll`: the events that are reported are what a read or a write would do.
-/

namespace AtmKoala.Native

open Lib
open Sched (Slot)

variable {w w' : World} {t : Slot} {fd : Int} {k : Fd} {i : Fin 8} {e : PipeEnd} {op : Op}

def pollIn : UInt16 := 0x0001
def pollOut : UInt16 := 0x0004
def pollErr : UInt16 := 0x0008
def pollHup : UInt16 := 0x0010
def pollNval : UInt16 := 0x0020

def nativePipePoll (w : World) (t : Slot) (fd : Int) (events : UInt16) : UInt16 :=
  match pipeDecode w t fd with
  | none => pollNval
  | some (_, i, .read) =>
    let p := w.pipes i
    (if events &&& pollIn ≠ 0 ∧ (p.count ≠ 0 ∨ p.writeRefs = 0) then pollIn else 0) |||
      (if p.writeRefs = 0 then pollHup else 0)
  | some (_, i, .write) =>
    let p := w.pipes i
    if p.readRefs = 0 then pollErr
    else if events &&& pollOut ≠ 0 ∧ p.count < 1024 then pollOut else 0

/-- The result of a read that may not block, if it comes to one. -/
def readNow (w : World) (t : Slot) (fd : Int) (count : Nat) : Option (Int × List UInt8) :=
  (nativePipeRead w t fd count true).bind Prod.snd

def writeNow (w : World) (t : Slot) (fd : Int) (data : List UInt8) : Option Int :=
  (nativePipeWrite w t fd data true).bind Prod.snd

/-- A call that goes on is the call of a task with a descriptor of that end. -/
def Continued (w : World) : Op → Prop
  | .readAgain t i _ _ => ∃ k, entry w t k = some (i, .read)
  | .writeAgain t i _ _ => ∃ k, entry w t k = some (i, .write)
  | _ => True

/-- **From here on a read only sees what is in the pipe now, and then 0.** -/
def Drains (w : World) (t : Slot) (k : Fd) (i : Fin 8) : Prop :=
  ∀ ops w', Run Step (fun w op => Fresh w op ∧ Continued w op ∧ entry w t k = some (i, .read))
      w ops w' →
    entry w' t k = some (i, .read) →
    ∃ gone, (w.pipes i).stream = gone ++ (w'.pipes i).stream ∧ ∀ count, 0 < count →
      readNow w' t k.val count =
        some (((min count (w'.pipes i).count : Nat) : Int), (w'.pipes i).stream.take count)

/-! ### Immediate reads and writes -/

theorem readNow_eq (decoded : pipeDecode w t fd = some (k, i, .read)) {count : Nat}
    (some_ : 0 < count) : readNow w t fd count = (pipeReadRound w t i count true).2 := by
  unfold readNow nativePipeRead resumeRead
  rw [decoded]
  dsimp only
  rw [if_neg (Nat.ne_of_gt some_)]
  split
  · rename_i w₁ r round
    rw [round]
    rfl
  · rename_i w₁ round
    unfold pipeReadRound at round
    dsimp only at round
    split at round
    · cases round
    · split at round
      · cases round
      · cases round

theorem take_contents (buf : Fin 1024 → UInt8) (tail : Fin 1024) (m n : Nat) :
    (contents buf tail n).take m = contents buf tail (min m n) := by
  unfold contents
  rw [← List.map_take, List.take_range]

/-- What is in the pipe, or 0 without writers, or `EAGAIN`. -/
theorem pipeReadRound_now (count : Nat) :
    (pipeReadRound w t i count true).2 =
      if (w.pipes i).count ≠ 0 then
        some (((min count (w.pipes i).count : Nat) : Int), (w.pipes i).stream.take count)
      else if (w.pipes i).writeRefs = 0 then some (0, []) else some (-11, []) := by
  unfold pipeReadRound
  dsimp only
  by_cases full : (w.pipes i).count ≠ 0
  · rw [if_pos full, if_pos full, takeFrom_eq]
    unfold Pipe.stream
    rw [take_contents]
  · rw [if_neg full, if_neg full]
    split
    · rfl
    · rfl

theorem writeNow_eq (decoded : pipeDecode w t fd = some (k, i, .write)) {data : List UInt8}
    (some_ : data ≠ []) : writeNow w t fd data = (pipeWriteRound w t i data true).2 := by
  unfold writeNow nativePipeWrite resumeWrite
  rw [decoded]
  dsimp only
  rw [if_neg some_]
  split
  · rename_i w₁ r round
    rw [round]
    rfl
  · rename_i w₁ round
    unfold pipeWriteRound at round
    dsimp only at round
    split at round
    · cases round
    · split at round
      · cases round
      · cases round

theorem pipeWriteRound_now (data : List UInt8) :
    (pipeWriteRound w t i data true).2 =
      if (w.pipes i).readRefs = 0 then some (-32)
      else if (w.pipes i).count < 1024 then
        some ((min data.length (1024 - (w.pipes i).count) : Nat) : Int)
      else some (-11) := by
  unfold pipeWriteRound
  dsimp only
  split
  · rfl
  · split
    · rfl
    · rfl

/-! ### Ends without descriptors -/

/-- The pipe is not in use, or no descriptor is open on this end. -/
def Extinct (w : World) (i : Fin 8) (e : PipeEnd) : Prop :=
  (w.pipes i).used = true → ∀ u j, entry w u j ≠ some (i, e)

theorem Extinct.move (extinct : Extinct w i e) (move : Move t w w') : Extinct w' i e := by
  cases move with
  | same entries pipes _ =>
    intro used u j
    rw [entries]
    exact extinct (pipes ▸ used) u j
  | dropped k j d held entries pipes _ =>
    intro used u l
    have before : (w.pipes i).used = true := (kept_update pipes (kept_drop _ d) i).used used
    rw [entries]
    split
    · nofun
    · exact extinct before u l
  | added k j d free _ copied low entries pipes _ =>
    intro used u l
    have before : (w.pipes i).used = true := (kept_update pipes (kept_add _ d) i).used used
    rw [entries]
    split
    · intro same
      obtain ⟨v, m, source⟩ := copied
      exact extinct before v m (source.trans same)
    · exact extinct before u l

theorem Extinct.moves (extinct : Extinct w i e) (moves : Moves t w w') : Extinct w' i e := by
  induction moves with
  | refl => exact extinct
  | tail _ move ih => exact ih.move move

theorem Extinct.made {k' : Fd} {n : Fin 8} (extinct : Extinct w i e) (made : Made w w' t k k' n)
    (used : (w.pipes i).used = true) : Extinct w' i e := by
  have ne : n ≠ i := by
    rintro rfl
    exact absurd used (by rw [made.unused]; exact Bool.false_ne_true)
  intro _ u j
  rw [made.entries]
  split
  · intro same
    exact ne (congrArg Prod.fst (Option.some.inj same))
  · split
    · intro same
      exact ne (congrArg Prod.fst (Option.some.inj same))
    · exact extinct used u j

/-- Nothing is written by those who cannot. -/
theorem bytesWritten_of_extinct (extinct : Extinct w i .write) (used : (w.pipes i).used = true)
    (continued : Continued w op) : bytesWritten w op i = [] := by
  have nobody := extinct used
  unfold bytesWritten writtenBy
  cases op with
  | write t fd data nonblock =>
    dsimp only
    cases decoded : pipeDecode w t fd with
    | none => rfl
    | some found =>
      obtain ⟨k, n, e⟩ := found
      cases e with
      | read => rfl
      | write =>
        have other : n ≠ i := by
          rintro rfl
          exact nobody t k (entry_of_decode decoded)
        dsimp only
        cases (nativePipeWrite w t fd data nonblock).bind Prod.snd with
        | none => rfl
        | some r => exact if_neg other
  | writeAgain t n data nonblock =>
    have other : n ≠ i := by
      rintro rfl
      obtain ⟨k, held⟩ := continued
      exact nobody t k held
    dsimp only
    cases (resumeWrite w t n data nonblock).bind Prod.snd with
    | none => rfl
    | some r => exact if_neg other
  | _ => rfl

/-! ### Draining -/

/-- References are counted, and the indices of pipes in use agree. -/
structure Orderly (w : World) : Prop where
  counted : Counted w
  streamed : ∃ log, Streamed w log

theorem Orderly.step (orderly : Orderly w) (fresh : Fresh w op) (step : perform w op = some w') :
    Orderly w' := by
  obtain ⟨counted, log, streamed⟩ := orderly
  exact ⟨counted.step fresh step, _, streamed.step counted fresh step⟩

/-- What is in pipe `i` was in it in `w₀`, and no writer is left. -/
structure Drained (w₀ : World) (i : Fin 8) (w : World) : Prop where
  orderly : Orderly w
  extinct : Extinct w i .write
  stream : (w.pipes i).used = true → ∃ gone, (w₀.pipes i).stream = gone ++ (w.pipes i).stream

theorem Drained.step {w₀ : World} (drained : Drained w₀ i w) (used : (w.pipes i).used = true)
    (fresh : Fresh w op) (continued : Continued w op) (step : perform w op = some w') :
    Drained w₀ i w' := by
  obtain ⟨orderly, extinct, stream⟩ := drained
  have orderly' := orderly.step fresh step
  obtain ⟨log, streamed⟩ := orderly.streamed
  obtain ⟨gone, split⟩ := stream used
  rcases perform_effect orderly.counted fresh step with
    ⟨moves | ⟨w₁, k, k', n, made, moves⟩, -⟩ | ⟨n, ⟨w₁, flows, still⟩, -⟩
  · refine ⟨orderly', extinct.moves moves, fun used' => ⟨gone, ?_⟩⟩
    rw [(moves.kept i).stream used']
    exact split
  · have same : w₁.pipes i = w.pipes i := by
      rw [made.pipes, Function.update_of_ne]
      rintro rfl
      exact absurd used (by rw [made.unused]; exact Bool.false_ne_true)
    refine ⟨orderly', (extinct.made made used).moves moves, fun used' => ⟨gone, ?_⟩⟩
    rw [(moves.kept i).stream used', same]
    exact split
  · have entries : ∀ u j, entry w' u j = entry w u j := fun u j =>
      (still.entry u j).trans (flows.transfer.entry u j)
    refine ⟨orderly', fun _ u j => ?_, fun _ => ?_⟩
    · rw [entries]
      exact extinct used u j
    · rw [still.pipes]
      by_cases here : i = n
      · subst here
        have come := bytesWritten_of_extinct extinct used continued
        have moved := flows.stream (streamed.ok i used)
        rw [come, List.append_nil] at moved
        exact ⟨gone ++ bytesRead w op i, by rw [split, moved, List.append_assoc]⟩
      · rw [flows.transfer.others i here]
        exact ⟨gone, split⟩

theorem Counted.refs_zero (counted : Counted w) (extinct : ∀ u j, entry w u j ≠ some (i, e)) :
    (w.pipes i).refs e = 0 := by
  rw [counted.refs]
  unfold ends occurrences
  rw [Finset.card_eq_zero, Finset.filter_eq_empty_iff]
  exact fun y _ => extinct y.1 y.2

theorem Counted.extinct (counted : Counted w) (none_ : (w.pipes i).refs e = 0) : Extinct w i e := by
  intro _ u j held
  have pos := ends_pos held
  rw [← counted.refs, none_] at pos
  exact absurd pos (Nat.lt_irrefl 0)

theorem readNow_drained (counted : Counted w) (held : entry w t k = some (i, .read))
    (none_ : (w.pipes i).writeRefs = 0) {count : Nat} (some_ : 0 < count) :
    readNow w t k.val count =
      some (((min count (w.pipes i).count : Nat) : Int), (w.pipes i).stream.take count) := by
  rw [readNow_eq (counted.decode held) some_, pipeReadRound_now]
  split
  · rfl
  · rename_i empty
    have zero : (w.pipes i).count = 0 := not_not.mp empty
    have stream : (w.pipes i).stream = [] := by
      unfold Pipe.stream
      rw [zero, contents_zero]
    rw [stream, zero, List.take_nil, Nat.min_zero]
    rfl

/-- Without writers a read end drains. -/
theorem drains_of_no_writer (orderly : Orderly w) (none_ : (w.pipes i).writeRefs = 0) :
    Drains w t k i := by
  intro ops w' run held
  have drained : Drained w i w' := by
    refine run.invariant ⟨orderly, orderly.counted.extinct none_, fun _ => ⟨[], rfl⟩⟩ ?_
    rintro x op y drained ⟨fresh, continued, held⟩ step
    exact drained.step (drained.orderly.counted.used_of_entry held) fresh continued step
  have counted := drained.orderly.counted
  have used := counted.used_of_entry held
  have writers : (w'.pipes i).refs .write = 0 := counted.refs_zero (drained.extinct used)
  obtain ⟨gone, split⟩ := drained.stream used
  exact ⟨gone, split, fun count some_ => readNow_drained counted held writers some_⟩

/-- With a writer, a read of all there is leaves a pipe that says `EAGAIN`. -/
theorem no_writer_of_drains (orderly : Orderly w) (held : entry w t k = some (i, .read))
    (drains : Drains w t k i) : (w.pipes i).writeRefs = 0 := by
  by_contra writers
  have decoded := orderly.counted.decode held
  -- an empty pipe with a writer, after some calls
  have stuck : ∃ ops w', Run Step (fun w op => Fresh w op ∧ Continued w op ∧
      entry w t k = some (i, .read)) w ops w' ∧ entry w' t k = some (i, .read) ∧ Counted w' ∧
      (w'.pipes i).count = 0 ∧ (w'.pipes i).writeRefs ≠ 0 := by
    by_cases empty : (w.pipes i).count = 0
    · exact ⟨[], w, .nil w, held, orderly.counted, empty, writers⟩
    · have flows := pipeReadRound_flows (w := w) t i (w.pipes i).count true
      have result := pipeReadRound_now (w := w) (t := t) (i := i) (w.pipes i).count
      rw [if_pos empty, Nat.min_self] at result
      have round : pipeReadRound w t i (w.pipes i).count true =
          ((pipeReadRound w t i (w.pipes i).count true).1, some (((w.pipes i).count : Int),
            (w.pipes i).stream.take (w.pipes i).count)) := Prod.ext rfl result
      obtain ⟨log, streamed⟩ := orderly.streamed
      have moved := flows.stream (streamed.ok i (orderly.counted.used_of_entry held))
      have step : perform w (.read t k.val (w.pipes i).count true) =
          some (pipeReadRound w t i (w.pipes i).count true).1 := by
        show (nativePipeRead w t k.val (w.pipes i).count true).map Prod.fst = _
        unfold nativePipeRead resumeRead
        rw [decoded]
        dsimp only
        rw [if_neg empty, round]
        rfl
      have counts : ∀ p : Pipe, p.stream.length = p.count := fun p => length_contents _ _ _
      refine ⟨[.read t k.val (w.pipes i).count true], _, .single ⟨trivial, trivial, held⟩ step,
        (flows.transfer.entry t k).trans held,
        orderly.counted.transfer flows.transfer, ?_, ?_⟩
      · have lengths := congrArg List.length moved
        rw [result, List.append_nil, List.length_append, Option.map_some, Option.getD_some,
          List.length_take, counts, counts] at lengths
        omega
      · have refs := flows.transfer.refs .write
        exact fun none_ => writers (refs.symm.trans none_)
  obtain ⟨ops, w', run, held', counted, empty, writers'⟩ := stuck
  obtain ⟨-, -, reads⟩ := drains ops w' run held'
  have read := reads 1 Nat.zero_lt_one
  rw [readNow_eq (counted.decode held') Nat.zero_lt_one, pipeReadRound_now, if_neg (not_not.mpr empty),
    if_neg writers', empty] at read
  cases read

/-! ### Polling -/

/-- The event is among `events`. -/
def Among (flag events : UInt16) : Prop := events &&& flag ≠ 0

instance (flag events : UInt16) : Decidable (Among flag events) := inferInstanceAs (Decidable (_ ≠ _))

/-- What is reported of a read end. -/
structure TellsRead (w : World) (t : Slot) (fd : Int) (k : Fd) (i : Fin 8) (events : UInt16) :
    Prop where
  readable : ∀ count, 0 < count → (Among pollIn (nativePipePoll w t fd events) ↔
    Among pollIn events ∧ ∃ r, readNow w t fd count = some r ∧ r.1 ≠ -11)
  hungUp : Among pollHup (nativePipePoll w t fd events) ↔ Drains w t k i

/-- What is reported of a write end. -/
structure TellsWrite (w : World) (t : Slot) (fd : Int) (events : UInt16) : Prop where
  writable : ∀ data, data ≠ [] → (Among pollOut (nativePipePoll w t fd events) ↔
    Among pollOut events ∧ ∃ n, 0 < n ∧ writeNow w t fd data = some n)
  broken : ∀ data, data ≠ [] → (Among pollErr (nativePipePoll w t fd events) ↔
    writeNow w t fd data = some (-32))

theorem among_read (p q : Prop) [Decidable p] [Decidable q] :
    (Among pollIn ((if p then pollIn else 0) ||| (if q then pollHup else 0)) ↔ p) ∧
      (Among pollHup ((if p then pollIn else 0) ||| (if q then pollHup else 0)) ↔ q) := by
  by_cases hp : p <;> by_cases hq : q <;> simp only [hp, hq, if_true, if_false] <;> decide

theorem among_write (p q : Prop) [Decidable p] [Decidable q] :
    (Among pollOut (if p then pollErr else if q then pollOut else 0) ↔ ¬p ∧ q) ∧
      (Among pollErr (if p then pollErr else if q then pollOut else 0) ↔ p) := by
  by_cases hp : p <;> by_cases hq : q <;> simp only [hp, hq, if_true, if_false] <;> decide

theorem readNow_ok (decoded : pipeDecode w t fd = some (k, i, .read)) {count : Nat}
    (some_ : 0 < count) :
    (∃ r, readNow w t fd count = some r ∧ r.1 ≠ -11) ↔
      (w.pipes i).count ≠ 0 ∨ (w.pipes i).writeRefs = 0 := by
  rw [readNow_eq decoded some_, pipeReadRound_now]
  by_cases full : (w.pipes i).count ≠ 0
  · rw [if_pos full]
    refine iff_of_true ⟨_, rfl, ?_⟩ (.inl full)
    show ((min count (w.pipes i).count : Nat) : Int) ≠ -11
    omega
  · rw [if_neg full]
    by_cases none_ : (w.pipes i).writeRefs = 0
    · rw [if_pos none_]
      exact iff_of_true ⟨_, rfl, by decide⟩ (.inr none_)
    · rw [if_neg none_]
      refine iff_of_false ?_ (fun either => either.elim full none_)
      rintro ⟨r, same, other⟩
      obtain rfl := Option.some.inj same
      exact other rfl

theorem tellsRead (orderly : Orderly w) (decoded : pipeDecode w t fd = some (k, i, .read))
    (events : UInt16) : TellsRead w t fd k i events := by
  have held := entry_of_decode decoded
  have polled : nativePipePoll w t fd events =
      (if Among pollIn events ∧ ((w.pipes i).count ≠ 0 ∨ (w.pipes i).writeRefs = 0) then pollIn
        else 0) |||
        (if (w.pipes i).writeRefs = 0 then pollHup else 0) := by
    unfold nativePipePoll
    rw [decoded]
    rfl
  obtain ⟨in_, hup⟩ := among_read
    (Among pollIn events ∧ ((w.pipes i).count ≠ 0 ∨ (w.pipes i).writeRefs = 0))
    ((w.pipes i).writeRefs = 0)
  rw [← polled] at in_ hup
  constructor
  · intro count some_
    rw [in_, readNow_ok decoded some_]
  · rw [hup]
    exact ⟨drains_of_no_writer orderly, no_writer_of_drains orderly held⟩

theorem tellsWrite (decoded : pipeDecode w t fd = some (k, i, .write)) (events : UInt16) :
    TellsWrite w t fd events := by
  have polled : nativePipePoll w t fd events =
      if (w.pipes i).readRefs = 0 then pollErr
      else if Among pollOut events ∧ (w.pipes i).count < 1024 then pollOut else 0 := by
    unfold nativePipePoll
    rw [decoded]
    rfl
  obtain ⟨out, err⟩ := among_write ((w.pipes i).readRefs = 0)
    (Among pollOut events ∧ (w.pipes i).count < 1024)
  rw [← polled] at out err
  constructor
  · intro data some_
    have length : 0 < data.length := List.length_pos_of_ne_nil some_
    rw [out, writeNow_eq decoded some_, pipeWriteRound_now]
    by_cases closed : (w.pipes i).readRefs = 0
    · rw [if_pos closed]
      refine iff_of_false (fun both => both.1 closed) ?_
      rintro ⟨-, n, pos, same⟩
      obtain rfl := Option.some.inj same
      exact absurd pos (by decide)
    · rw [if_neg closed]
      by_cases room : (w.pipes i).count < 1024
      · rw [if_pos room]
        constructor
        · rintro ⟨-, asked, -⟩
          exact ⟨asked, _, by omega, rfl⟩
        · rintro ⟨asked, -⟩
          exact ⟨closed, asked, room⟩
      · rw [if_neg room]
        refine iff_of_false (fun both => room both.2.2) ?_
        rintro ⟨-, n, pos, same⟩
        obtain rfl := Option.some.inj same
        exact absurd pos (by decide)
  · intro data some_
    rw [err, writeNow_eq decoded some_, pipeWriteRound_now]
    by_cases closed : (w.pipes i).readRefs = 0
    · rw [if_pos closed]
      exact iff_of_true closed rfl
    · rw [if_neg closed]
      refine iff_of_false closed ?_
      split
      · intro same
        have value : ((min data.length (1024 - (w.pipes i).count) : Nat) : Int) = -32 :=
          Option.some.inj same
        omega
      · nofun

theorem Boot.orderly (boot : Boot w) : Orderly w := by
  have unused : ∀ i, (w.pipes i).used ≠ true := by
    intro i
    rw [boot.pipes]
    nofun
  exact ⟨boot.counted, fun _ => ([], []), fun i used => absurd used (unused i),
    fun i used => absurd used (unused i)⟩

/-- **Poll tells what a read or a write would do**: the events asked for, and the hangup and
the error without being asked, in every state reached. -/
theorem run_poll {w₀ w : World} {ops : List Op} (boot : Boot w₀) (run : Run Step Fresh w₀ ops w)
    (t : Slot) (fd : Int) (k : Fd) (i : Fin 8) (events : UInt16) :
    (pipeDecode w t fd = some (k, i, .read) → TellsRead w t fd k i events) ∧
      (pipeDecode w t fd = some (k, i, .write) → TellsWrite w t fd events) := by
  have orderly : Orderly w := run.invariant boot.orderly fun orderly => orderly.step
  exact ⟨fun decoded => tellsRead orderly decoded events, fun decoded => tellsWrite decoded events⟩

/-- The last writer has gone and a byte is left. -/
theorem run_poll_hangup :
    ∃ w, Run Step Fresh booted
        [.taskInit 0 fun _ => true, .pipe2 0 0, .write 0 4 [7] false, .close 0 4] w ∧
      pipeDecode w 0 3 = some (3, 0, .read) ∧ TellsRead w 0 3 3 0 pollIn := by
  have done : ((runAll perform Fresh booted
      [.taskInit 0 fun _ => true, .pipe2 0 0, .write 0 4 [7] false, .close 0 4]).filter
      fun w => pipeDecode w 0 3 = some (3, 0, .read)).isSome = true := by
    decide
  obtain ⟨w, found⟩ := Option.isSome_iff_exists.mp done
  obtain ⟨ran, decoded⟩ := Option.filter_eq_some_iff.mp found
  have decoded := of_decide_eq_true decoded
  exact ⟨w, .of_runAll ran, decoded, (run_poll booted_boot (.of_runAll ran) 0 3 3 0 pollIn).1 decoded⟩

/-- A byte is in the pipe, and a poll that does not ask for `POLLIN` does not report it. -/
theorem unasked_event_unreported :
    ¬∀ (w : World) (ops : List Op) (t : Slot) (fd : Int) (k : Fd) (i : Fin 8) (events : UInt16),
      Run Step Fresh booted ops w → pipeDecode w t fd = some (k, i, .read) →
        (Among pollIn (nativePipePoll w t fd events) ↔
          ∃ r, readNow w t fd 1 = some r ∧ r.1 ≠ -11) := by
  intro all
  have done : ((runAll perform Fresh booted
      [.taskInit 0 fun _ => true, .pipe2 0 0, .write 0 4 [7] false]).filter
      fun w => pipeDecode w 0 3 = some (3, 0, .read) ∧ ¬Among pollIn (nativePipePoll w 0 3 0) ∧
        readNow w 0 3 1 = some (1, [7])).isSome = true := by
    decide
  obtain ⟨w, found⟩ := Option.isSome_iff_exists.mp done
  obtain ⟨ran, facts⟩ := Option.filter_eq_some_iff.mp found
  obtain ⟨decoded, silent, read⟩ := of_decide_eq_true facts
  exact silent ((all w _ 0 3 3 0 0 (.of_runAll ran) decoded).mpr ⟨_, read, by decide⟩)

end AtmKoala.Native
