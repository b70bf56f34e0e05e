import AtmKoala.Native.Pipes

/-!
The bytes that go through pipes, and every run of the calls on descriptors.

* `Flows` is what a round of a read or of a write does to the stream of a pipe.
* `perform_effect`: a call moves descriptors or bytes.
* `run_counted`: references are counted in every state reached.
* `run_stream`: what was read and what is buffered is what was written.
-/

namespace AtmKoala.Native

open Lib
open Sched (Slot)
open Option (map_eq_some_iff)
open Function (update_of_ne update_self)

variable {w w' w'' : World} {t : Slot} {k : Fd} {i : Fin 8} {e : PipeEnd}

/-! ### Transfers -/

/-- The bytes in a pipe, in the order they will be read. -/
def Pipe.stream (p : Pipe) : List UInt8 := contents p.buffer p.tail p.count

/-- The indices and the count of a pipe agree. -/
structure Pipe.Ok (p : Pipe) : Prop where
  count : p.count ≤ 1024
  head : p.head = ahead p.tail p.count

/-- Only the bytes and the waiters of pipe `i` have changed. -/
structure Transfer (w w' : World) (i : Fin 8) : Prop where
  tables : w'.tables = w.tables
  others : ∀ j, j ≠ i → w'.pipes j = w.pipes j
  refs : ∀ e, (w'.pipes i).refs e = (w.pipes i).refs e
  used : (w'.pipes i).used = (w.pipes i).used

theorem Transfer.entry (transfer : Transfer w w' i) (u : Slot) (j : Fd) :
    entry w' u j = entry w u j := by
  unfold Native.entry
  rw [transfer.tables]

/-- A transfer that stores a pipe with the same references. -/
theorem transfer_of_pipe {f : Pipe → Pipe} (refs : ∀ e, (f (w.pipes i)).refs e = (w.pipes i).refs e)
    (used : (f (w.pipes i)).used = (w.pipes i).used) (waiter : Option Slot) :
    Transfer w (wake (w.mapPipe i f) waiter) i ∧
      (wake (w.mapPipe i f) waiter).pipes i = f (w.pipes i) := by
  obtain ⟨tables, pipes⟩ := wake_tables (w := w.mapPipe i f) waiter
  have here : (wake (w.mapPipe i f) waiter).pipes i = f (w.pipes i) := by
    rw [pipes]
    exact update_self ..
  refine ⟨⟨tables, fun j ne => ?_, fun e => ?_, ?_⟩, here⟩
  · rw [pipes]
    exact update_of_ne ne ..
  · rw [here]
    exact refs e
  · rw [here]
    exact used

/-- The stream of pipe `i` has lost `gone` in front and got `come` behind. -/
structure Flows (w w' : World) (i : Fin 8) (gone come : List UInt8) : Prop where
  transfer : Transfer w w' i
  ok : (w.pipes i).Ok → (w'.pipes i).Ok
  stream : (w.pipes i).Ok → (w.pipes i).stream ++ come = gone ++ (w'.pipes i).stream

/-- Waiters are no part of the stream. -/
theorem flows_of_waiters {f : Pipe → Pipe} (waiter : Option Slot)
    (same : ∃ r s, f (w.pipes i) = { w.pipes i with readerWaiter := r, writerWaiter := s }) :
    Flows w (wake (w.mapPipe i f) waiter) i [] [] := by
  obtain ⟨r, s, same⟩ := same
  obtain ⟨transfer, here⟩ := transfer_of_pipe (w := w) (i := i) (f := f)
    (fun e => by rw [same]; cases e <;> rfl) (by rw [same]) waiter
  refine ⟨transfer, fun ok => ?_, fun _ => ?_⟩
  · rw [here, same]
    exact ⟨ok.count, ok.head⟩
  · rw [here, same, List.append_nil]
    rfl

theorem Flows.refl (w : World) (i : Fin 8) : Flows w w i [] [] where
  transfer := ⟨rfl, fun _ _ => rfl, fun _ => rfl, rfl⟩
  ok := id
  stream := fun _ => List.append_nil _

theorem pipeWakeWriter_mapPipe (f : Pipe → Pipe) :
    pipeWakeWriter (w.mapPipe i f) i = wake (w.mapPipe i f) (f (w.pipes i)).writerWaiter := by
  unfold pipeWakeWriter
  rw [show (w.mapPipe i f).pipes i = f (w.pipes i) from update_self ..]

theorem pipeWakeReader_mapPipe (f : Pipe → Pipe) :
    pipeWakeReader (w.mapPipe i f) i = wake (w.mapPipe i f) (f (w.pipes i)).readerWaiter := by
  unfold pipeWakeReader
  rw [show (w.mapPipe i f).pipes i = f (w.pipes i) from update_self ..]

theorem flows_of_take {f : Pipe → Pipe} {n : Nat} (below : n ≤ (w.pipes i).count)
    (taken : ∃ r, f (w.pipes i) = { w.pipes i with
      tail := ahead (w.pipes i).tail n, count := (w.pipes i).count - n, readerWaiter := r }) :
    Flows w (pipeWakeWriter (w.mapPipe i f) i) i
      (contents (w.pipes i).buffer (w.pipes i).tail n) [] := by
  obtain ⟨r, taken⟩ := taken
  rw [pipeWakeWriter_mapPipe]
  obtain ⟨transfer, here⟩ := transfer_of_pipe (w := w) (i := i) (f := f)
    (fun e => by rw [taken]; cases e <;> rfl) (by rw [taken]) (f (w.pipes i)).writerWaiter
  refine ⟨transfer, fun ok => ?_, fun ok => ?_⟩
  · rw [here, taken]
    refine ⟨(Nat.sub_le ..).trans ok.count, ?_⟩
    show (w.pipes i).head = ahead (ahead (w.pipes i).tail n) ((w.pipes i).count - n)
    rw [ahead_ahead, Nat.add_sub_cancel' below, ok.head]
  · rw [here, taken, List.append_nil]
    unfold Pipe.stream
    dsimp only
    rw [← contents_add, Nat.add_sub_cancel' below]

theorem flows_of_put {f : Pipe → Pipe} {xs : List UInt8} (room : (w.pipes i).count + xs.length ≤ 1024)
    (put : ∃ r, f (w.pipes i) = { w.pipes i with
      buffer := (putAt (w.pipes i).buffer xs (w.pipes i).head).1,
      head := (putAt (w.pipes i).buffer xs (w.pipes i).head).2,
      count := (w.pipes i).count + xs.length, writerWaiter := r }) :
    Flows w (pipeWakeReader (w.mapPipe i f) i) i [] xs := by
  obtain ⟨r, put⟩ := put
  rw [pipeWakeReader_mapPipe]
  obtain ⟨transfer, here⟩ := transfer_of_pipe (w := w) (i := i) (f := f)
    (fun e => by rw [put]; cases e <;> rfl) (by rw [put]) (f (w.pipes i)).readerWaiter
  refine ⟨transfer, fun ok => ?_, fun ok => ?_⟩
  · rw [here, put]
    refine ⟨room, ?_⟩
    show (putAt _ _ _).2 = ahead (w.pipes i).tail ((w.pipes i).count + xs.length)
    rw [putAt_index, ok.head, ahead_ahead]
  · rw [here, put, List.nil_append]
    unfold Pipe.stream
    dsimp only
    rw [ok.head, contents_putAt (w.pipes i).buffer xs (w.pipes i).tail (w.pipes i).count room]

/-- **A round of a read** returns the first bytes of the stream. -/
theorem pipeReadRound_flows (t : Slot) (i : Fin 8) (count : Nat) (nonblock : Bool) :
    Flows w (pipeReadRound w t i count nonblock).1 i
      (((pipeReadRound w t i count nonblock).2.map Prod.snd).getD []) [] := by
  unfold pipeReadRound
  dsimp only
  by_cases empty : (w.pipes i).count = 0
  · rw [if_neg (not_not.mpr empty)]
    split
    · refine flows_of_waiters (w := w) (i := i) none ?_
      dsimp only
      split
      · exact ⟨_, _, rfl⟩
      · exact ⟨_, _, rfl⟩
    · split
      · exact .refl w i
      · exact flows_of_waiters (w := w) (i := i)
          (f := fun p => { p with readerWaiter := some t }) none ⟨_, _, rfl⟩
  · rw [if_pos empty]
    simp only [takeFrom_eq, Option.map_some, Option.getD_some]
    refine flows_of_take (Nat.min_le_right ..) ?_
    split
    · exact ⟨_, rfl⟩
    · exact ⟨_, rfl⟩

/-- **A round of a write** appends what it accepts. -/
theorem pipeWriteRound_flows (t : Slot) (i : Fin 8) (data : List UInt8) (nonblock : Bool) :
    Flows w (pipeWriteRound w t i data nonblock).1 i []
      (data.take ((pipeWriteRound w t i data nonblock).2.getD 0).toNat) := by
  unfold pipeWriteRound
  dsimp only
  split
  · refine flows_of_waiters (w := w) (i := i) none ?_
    dsimp only
    split
    · exact ⟨_, _, rfl⟩
    · exact ⟨_, _, rfl⟩
  · split
    · rename_i room
      have length : (data.take (min data.length (1024 - (w.pipes i).count))).length =
          min data.length (1024 - (w.pipes i).count) := by
        rw [List.length_take]
        omega
      simp only [Option.getD_some, Int.toNat_natCast]
      refine flows_of_put (by omega) ?_
      rw [length]
      split
      · exact ⟨_, rfl⟩
      · exact ⟨_, rfl⟩
    · split
      · exact .refl w i
      · exact flows_of_waiters (w := w) (i := i)
          (f := fun p => { p with writerWaiter := some t }) none ⟨_, _, rfl⟩

/-! ### Calls -/

/-- A read that has returned. -/
structure Returned where
  pipe : Fin 8
  count : Nat
  result : Int
  bytes : List UInt8

/-- A write that has returned. -/
structure Accepted where
  pipe : Fin 8
  data : List UInt8
  result : Int

/-- The read that operation `op` ends, if it is on the read end of a pipe and does
not block. -/
def readBy (w : World) : Op → Option Returned
  | .read t fd count nonblock =>
    match pipeDecode w t fd with
    | some (_, i, .read) =>
      ((nativePipeRead w t fd count nonblock).bind Prod.snd).map fun r => ⟨i, count, r.1, r.2⟩
    | _ => none
  | .readAgain t i count nonblock =>
    ((resumeRead w t i count nonblock).bind Prod.snd).map fun r => ⟨i, count, r.1, r.2⟩
  | _ => none

/-- The write that operation `op` ends. -/
def writtenBy (w : World) : Op → Option Accepted
  | .write t fd data nonblock =>
    match pipeDecode w t fd with
    | some (_, i, .write) =>
      ((nativePipeWrite w t fd data nonblock).bind Prod.snd).map fun r => ⟨i, data, r⟩
    | _ => none
  | .writeAgain t i data nonblock =>
    ((resumeWrite w t i data nonblock).bind Prod.snd).map fun r => ⟨i, data, r⟩
  | _ => none

/-- The bytes `op` returns from pipe `i`. -/
def bytesRead (w : World) (op : Op) (i : Fin 8) : List UInt8 :=
  match readBy w op with
  | some r => if r.pipe = i then r.bytes else []
  | none => []

/-- The bytes `op` gets accepted by pipe `i`. -/
def bytesWritten (w : World) (op : Op) (i : Fin 8) : List UInt8 :=
  match writtenBy w op with
  | some a => if a.pipe = i then a.data.take a.result.toNat else []
  | none => []

/-- A table is set up for a task that holds no pipe: a new one, as
`native_app_spawn` has it. -/
def Fresh (w : World) : Op → Prop
  | .taskInit t _ => ∀ k, entry w t k = none
  | .taskInherit child _ => ∀ k, entry w child k = none
  | _ => True

instance (w : World) (op : Op) : Decidable (Fresh w op) := by
  apply op.casesOn (motive := fun op => Decidable (Fresh w op)) <;>
    (intros; dsimp only [Fresh]; infer_instance)

/-- Only the scheduler has gone on. -/
structure Still (w w' : World) : Prop where
  tables : w'.tables = w.tables
  pipes : w'.pipes = w.pipes

theorem Still.entry (still : Still w w') (u : Slot) (j : Fd) : entry w' u j = entry w u j := by
  unfold Native.entry
  rw [still.tables]

theorem blockInCall_still (blocked : blockInCall w t = some w') : Still w w' := by
  unfold blockInCall at blocked
  split at blocked
  · cases blocked
    exact ⟨rfl, rfl⟩
  · obtain ⟨s, -, rfl⟩ := map_eq_some_iff.mp blocked
    exact ⟨rfl, rfl⟩

theorem inert_nativeSocketOpen : Inert w (nativeSocketOpen w t).1 := by
  unfold nativeSocketOpen
  split
  · exact .refl w
  · split
    · exact .refl w
    · split
      · exact .refl w
      · rename_i k _ _ n _
        have := inert_setSocket (t := t) (k := k) (some n)
          (w := { w with sockets := Function.update w.sockets n (some t) })
        exact ⟨this.ready, this.pipeMap, this.pipes, this.sched⟩

theorem inert_nativeDirOpen (ok : Bool) : Inert w (nativeDirOpen w t ok) := by
  unfold nativeDirOpen
  split
  · exact .refl w
  · split
    · exact .refl w
    · split
      · exact inert_mapTable (fun _ => rfl) (fun _ => rfl)
      · exact .refl w

/-- Bytes have moved through pipe `i`, and the task may have left the processor. -/
structure Passed (w w' : World) (op : Op) (i : Fin 8) : Prop where
  flows : ∃ w₁, Flows w w₁ i (bytesRead w op i) (bytesWritten w op i) ∧ Still w₁ w'
  others : ∀ j, j ≠ i → bytesRead w op j = [] ∧ bytesWritten w op j = []

/-- No bytes have moved. -/
structure Rearranged (w w' : World) (op : Op) : Prop where
  moves : Moves op.task w w' ∨ ∃ w₁ k k' i, Made w w₁ op.task k k' i ∧ Moves op.task w₁ w'
  still : ∀ i, bytesRead w op i = [] ∧ bytesWritten w op i = []

theorem Rearranged.of_none {op : Op}
    (moves : Moves op.task w w' ∨ ∃ w₁ k k' i, Made w w₁ op.task k k' i ∧ Moves op.task w₁ w')
    (noRead : readBy w op = none) (noWrite : writtenBy w op = none) : Rearranged w w' op := by
  refine ⟨moves, fun i => ?_⟩
  unfold bytesRead bytesWritten
  rw [noRead, noWrite]
  exact ⟨rfl, rfl⟩

theorem resumeRead_flows {count : Nat} {nonblock : Bool} {r : Option (Int × List UInt8)}
    (done : resumeRead w t i count nonblock = some (w', r)) :
    ∃ w₁, Flows w w₁ i ((r.map Prod.snd).getD []) [] ∧ Still w₁ w' := by
  have flows := pipeReadRound_flows (w := w) t i count nonblock
  unfold resumeRead at done
  split at done
  · rename_i w₁ r₁ eq
    cases done
    rw [eq] at flows
    exact ⟨_, flows, rfl, rfl⟩
  · rename_i w₁ eq
    rw [eq] at flows
    obtain ⟨w₂, blocked, same⟩ := map_eq_some_iff.mp done
    cases same
    exact ⟨w₁, flows, blockInCall_still blocked⟩

theorem resumeWrite_flows {data : List UInt8} {nonblock : Bool} {r : Option Int}
    (done : resumeWrite w t i data nonblock = some (w', r)) :
    ∃ w₁, Flows w w₁ i [] (data.take (r.getD 0).toNat) ∧ Still w₁ w' := by
  have flows := pipeWriteRound_flows (w := w) t i data nonblock
  unfold resumeWrite at done
  split at done
  · rename_i w₁ r₁ eq
    cases done
    rw [eq] at flows
    exact ⟨_, flows, rfl, rfl⟩
  · rename_i w₁ eq
    rw [eq] at flows
    obtain ⟨w₂, blocked, same⟩ := map_eq_some_iff.mp done
    cases same
    exact ⟨w₁, flows, blockInCall_still blocked⟩

/-- A read on pipe `i` that came to `r`. -/
theorem passed_of_read {op : Op} {count : Nat} {r : Option (Int × List UInt8)}
    (flows : ∃ w₁, Flows w w₁ i ((r.map Prod.snd).getD []) [] ∧ Still w₁ w')
    (isRead : readBy w op = r.map fun r => ⟨i, count, r.1, r.2⟩) (noWrite : writtenBy w op = none) :
    Passed w w' op i := by
  have read : ∀ j, bytesRead w op j = if j = i then (r.map Prod.snd).getD [] else [] := by
    intro j
    unfold bytesRead
    rw [isRead]
    cases r with
    | none => simp
    | some r => simp [eq_comm]
  have written : ∀ j, bytesWritten w op j = [] := by
    intro j
    unfold bytesWritten
    rw [noWrite]
  constructor
  · rw [read, if_pos rfl, written]
    exact flows
  · intro j ne
    exact ⟨by rw [read, if_neg ne], written j⟩

/-- A write on pipe `i` that came to `r`. -/
theorem passed_of_write {op : Op} {data : List UInt8} {r : Option Int}
    (flows : ∃ w₁, Flows w w₁ i [] (data.take (r.getD 0).toNat) ∧ Still w₁ w')
    (noRead : readBy w op = none) (isWrite : writtenBy w op = r.map fun r => ⟨i, data, r⟩) :
    Passed w w' op i := by
  have written : ∀ j, bytesWritten w op j = if j = i then data.take (r.getD 0).toNat else [] := by
    intro j
    unfold bytesWritten
    rw [isWrite]
    cases r with
    | none => simp
    | some r => simp [eq_comm]
  have read : ∀ j, bytesRead w op j = [] := by
    intro j
    unfold bytesRead
    rw [noRead]
  constructor
  · rw [written, if_pos rfl, read]
    exact flows
  · intro j ne
    exact ⟨read j, by rw [written, if_neg ne]⟩

theorem read_effect {fd : Int} {count : Nat} {nonblock : Bool}
    (step : perform w (.read t fd count nonblock) = some w') :
    Rearranged w w' (.read t fd count nonblock) ∨ ∃ i, Passed w w' (.read t fd count nonblock) i := by
  obtain ⟨⟨w₁, r⟩, done, rfl⟩ := map_eq_some_iff.mp step
  have call := done
  unfold nativePipeRead at done
  split at done
  · rename_i k i decoded
    have isRead : readBy w (.read t fd count nonblock) = r.map fun r => ⟨i, count, r.1, r.2⟩ := by
      simp only [readBy, decoded, call, Option.bind_some]
    refine .inr ⟨i, passed_of_read ?_ isRead rfl⟩
    split at done
    · cases done
      exact ⟨w, .refl w i, rfl, rfl⟩
    · exact resumeRead_flows done
  · rename_i other
    cases done
    have noRead : readBy w (.read t fd count nonblock) = none := by
      unfold readBy
      dsimp only
      split
      · rename_i decoded
        exact absurd decoded (other _ _)
      · rfl
    exact .inl (.of_none (.inl .refl) noRead rfl)

theorem write_effect {fd : Int} {data : List UInt8} {nonblock : Bool}
    (step : perform w (.write t fd data nonblock) = some w') :
    Rearranged w w' (.write t fd data nonblock) ∨ ∃ i, Passed w w' (.write t fd data nonblock) i := by
  obtain ⟨⟨w₁, r⟩, done, rfl⟩ := map_eq_some_iff.mp step
  have call := done
  unfold nativePipeWrite at done
  split at done
  · rename_i k i decoded
    have isWrite : writtenBy w (.write t fd data nonblock) = r.map fun r => ⟨i, data, r⟩ := by
      simp only [writtenBy, decoded, call, Option.bind_some]
    refine .inr ⟨i, passed_of_write ?_ rfl isWrite⟩
    split at done
    · cases done
      refine ⟨w, ?_, rfl, rfl⟩
      simpa using Flows.refl w i
    · exact resumeWrite_flows done
  · rename_i other
    cases done
    have noWrite : writtenBy w (.write t fd data nonblock) = none := by
      unfold writtenBy
      dsimp only
      split
      · rename_i decoded
        exact absurd decoded (other _ _)
      · rfl
    exact .inl (.of_none (.inl .refl) rfl noWrite)

/-- A call that reads or writes. -/
def Op.Copies : Op → Prop
  | .read .. => True
  | .readAgain .. => True
  | .write .. => True
  | .writeAgain .. => True
  | _ => False

/-- The other calls change the descriptors of one task. -/
theorem perform_moves {op : Op} (counted : Counted w) (fresh : Fresh w op) (plain : ¬op.Copies)
    (step : perform w op = some w') :
    Moves op.task w w' ∨ ∃ w₁ k k' i, Made w w₁ op.task k k' i ∧ Moves op.task w₁ w' := by
  cases op with
  | taskInit t tty =>
    cases step
    exact .inl (nativeFdTaskInit_moves fresh tty)
  | taskCleanup t =>
    cases step
    exact .inl (nativeFdTaskCleanup_moves counted)
  | closeOnExec t =>
    cases step
    exact .inl nativeFdCloseOnExec_moves
  | taskInherit child parent =>
    cases step
    exact .inl (nativeFdTaskInherit_moves counted fresh)
  | openFile t ok flags =>
    cases step
    exact .inl (inert_nativeFdOpen ok flags).moves
  | pipe2 t flags =>
    cases step
    exact nativeFdPipe2_moves flags
  | close t fd =>
    cases step
    exact .inl (nativeFdClose_moves fd)
  | dup t fd =>
    cases step
    exact .inl (nativeFdDupMin_moves fd 0)
  | dup2 t fd newfd =>
    cases step
    exact .inl (nativeFdDup2_moves fd newfd)
  | dup3 t fd newfd flags =>
    cases step
    exact .inl (nativeFdDup3_moves fd newfd flags)
  | dupfd t fd arg cloexec =>
    cases step
    exact .inl (nativeFdFcntlDupfd_moves fd arg cloexec)
  | socketOpen t =>
    cases step
    exact .inl inert_nativeSocketOpen.moves
  | dirOpen t ok =>
    cases step
    exact .inl (inert_nativeDirOpen ok).moves
  | read t fd count nonblock => exact absurd trivial plain
  | readAgain t i count nonblock => exact absurd trivial plain
  | write t fd data nonblock => exact absurd trivial plain
  | writeAgain t i data nonblock => exact absurd trivial plain

/-- **What a call does**: it changes descriptors, or it moves bytes. -/
theorem perform_effect {op : Op} (counted : Counted w) (fresh : Fresh w op)
    (step : perform w op = some w') : Rearranged w w' op ∨ ∃ i, Passed w w' op i := by
  have plain : ¬op.Copies → readBy w op = none → writtenBy w op = none →
      Rearranged w w' op ∨ ∃ i, Passed w w' op i := fun plain noRead noWrite =>
    .inl (.of_none (perform_moves counted fresh plain step) noRead noWrite)
  cases op with
  | read t fd count nonblock => exact read_effect step
  | readAgain t i count nonblock =>
    obtain ⟨⟨w₁, r⟩, done, rfl⟩ := map_eq_some_iff.mp step
    have isRead : readBy w (.readAgain t i count nonblock) = r.map fun r => ⟨i, count, r.1, r.2⟩ := by
      simp only [readBy, done, Option.bind_some]
    exact .inr ⟨i, passed_of_read (resumeRead_flows done) isRead rfl⟩
  | write t fd data nonblock => exact write_effect step
  | writeAgain t i data nonblock =>
    obtain ⟨⟨w₁, r⟩, done, rfl⟩ := map_eq_some_iff.mp step
    refine .inr ⟨i, passed_of_write (resumeWrite_flows done) rfl ?_⟩
    simp only [writtenBy, done, Option.bind_some]
  | _ => exact plain id rfl rfl

/-! ### References -/

/-- A transfer of bytes is no change of references. -/
theorem Counted.transfer (counted : Counted w) (transfer : Transfer w w' i) : Counted w' := by
  have refs : ∀ j e, (w'.pipes j).refs e = (w.pipes j).refs e := by
    intro j e
    by_cases h : j = i
    · subst h
      exact transfer.refs e
    · rw [transfer.others j h]
  have used : ∀ j, (w'.pipes j).used = (w.pipes j).used := by
    intro j
    by_cases h : j = i
    · subst h
      exact transfer.used
    · rw [transfer.others j h]
  refine ⟨fun j e => ?_, fun j => ?_, fun u k p held => ?_⟩
  · rw [refs, counted.refs, ends_congr transfer.entry]
  · have read : (w'.pipes j).readRefs = (w.pipes j).readRefs := refs j .read
    have write : (w'.pipes j).writeRefs = (w.pipes j).writeRefs := refs j .write
    rw [used, read, write]
    exact counted.used j
  · rw [transfer.entry] at held
    exact counted.low u k p held

theorem Counted.still (counted : Counted w) (still : Still w w') : Counted w' := by
  refine ⟨fun i e => ?_, fun i => ?_, fun t k p held => ?_⟩
  · rw [still.pipes, counted.refs, ends_congr still.entry]
  · rw [still.pipes]
    exact counted.used i
  · rw [still.entry] at held
    exact counted.low t k p held

theorem Counted.step {op : Op} (counted : Counted w) (fresh : Fresh w op)
    (step : perform w op = some w') : Counted w' := by
  rcases perform_effect counted fresh step with ⟨moves, -⟩ | ⟨i, ⟨w₁, flows, still⟩, -⟩
  · rcases moves with moves | ⟨w₁, k, k', i, made, moves⟩
    · exact counted.moves moves
    · exact (counted.made made).moves moves
  · exact (counted.transfer flows.transfer).still still

theorem Boot.counted (boot : Boot w) : Counted w := by
  have none_ : ∀ t k, entry w t k = none := by
    intro t k
    unfold entry
    rw [if_neg (by rw [boot.tables t]; exact Bool.false_ne_true)]
  refine ⟨fun i e => ?_, fun i => ?_, fun t k p held => ?_⟩
  · have zero : ends w i e = 0 := by
      unfold ends occurrences
      rw [Finset.card_eq_zero, Finset.filter_eq_empty_iff]
      intro y _
      rw [none_]
      exact nofun
    rw [zero, boot.pipes i]
    cases e with
    | read => rfl
    | write => rfl
  · rw [boot.pipes i]
    simp [Pipe.zero]
  · rw [none_] at held
    cases held

/-- **References are counted in every state reached**: the references to an end of
a pipe are the descriptors open on it, a pipe is in use exactly while it has one,
and so every pipe descriptor names a pipe in use. -/
theorem run_counted {w₀ w : World} {ops : List Op} (boot : Boot w₀) (run : Run Step Fresh w₀ ops w) :
    (∀ i, (w.pipes i).readRefs = ends w i .read ∧ (w.pipes i).writeRefs = ends w i .write ∧
      ((w.pipes i).used = true ↔ (w.pipes i).readRefs ≠ 0 ∨ (w.pipes i).writeRefs ≠ 0)) ∧
      ∀ t k i e, entry w t k = some (i, e) → (w.pipes i).used = true := by
  have counted : Counted w := run.invariant boot.counted fun counted => counted.step
  exact ⟨fun i => ⟨counted.refs i .read, counted.refs i .write, counted.used i⟩,
    fun t k i e held => counted.used_of_entry held⟩

/-- A task creates a pipe and closes the write end. -/
theorem run_counted_close :
    ∃ w, Run Step Fresh booted [.taskInit 0 fun _ => true, .pipe2 0 0, .close 0 4] w ∧
      ends w 0 .read = 1 ∧ ends w 0 .write = 0 := by
  have done : ((runAll perform Fresh booted [.taskInit 0 fun _ => true, .pipe2 0 0, .close 0 4]).filter
      fun w => (w.pipes 0).readRefs = 1 ∧ (w.pipes 0).writeRefs = 0).isSome = true := by
    decide
  obtain ⟨w, found⟩ := Option.isSome_iff_exists.mp done
  obtain ⟨ran, refs⟩ := Option.filter_eq_some_iff.mp found
  obtain ⟨read, write⟩ := of_decide_eq_true refs
  obtain ⟨countedRead, countedWrite, -⟩ := (run_counted booted_boot (.of_runAll ran)).1 0
  exact ⟨w, .of_runAll ran, countedRead.symm.trans read, countedWrite.symm.trans write⟩

/-! ### Streams -/

/-- For each pipe the bytes read from it and the bytes written to it. -/
abbrev Log := Fin 8 → List UInt8 × List UInt8

/-- The log after an operation; it starts when the pipe is created. -/
def record (w : World) (op : Op) (log : Log) : Log := fun i =>
  if (w.pipes i).used then
    ((log i).1 ++ bytesRead w op i, (log i).2 ++ bytesWritten w op i)
  else ([], [])

/-- A call that keeps the log. -/
def performLogged (s : World × Log) (op : Op) : Option (World × Log) :=
  (perform s.1 op).map fun w => (w, record s.1 op s.2)

def LoggedStep (s : World × Log) (op : Op) (s' : World × Log) : Prop := performLogged s op = some s'

/-- **What was read and what is buffered is what was written.** -/
structure Streamed (w : World) (log : Log) : Prop where
  ok : ∀ i, (w.pipes i).used = true → (w.pipes i).Ok
  stream : ∀ i, (w.pipes i).used = true → (log i).1 ++ (w.pipes i).stream = (log i).2

/-- A pipe that is in use was in use before, with the same bytes. -/
structure Kept (p p' : Pipe) : Prop where
  used : p'.used = true → p.used = true
  stream : p'.used = true → p'.stream = p.stream
  ok : p'.used = true → p.Ok → p'.Ok

theorem Kept.refl (p : Pipe) : Kept p p := ⟨id, fun _ => rfl, fun _ => id⟩

theorem kept_drop (p : Pipe) (e : PipeEnd) : Kept p (p.drop e).settle := by
  unfold Pipe.settle
  split
  · exact ⟨nofun, nofun, nofun⟩
  · cases e with
    | read => exact ⟨id, fun _ => rfl, fun _ ok => ⟨ok.count, ok.head⟩⟩
    | write => exact ⟨id, fun _ => rfl, fun _ ok => ⟨ok.count, ok.head⟩⟩

theorem kept_add (p : Pipe) (e : PipeEnd) : Kept p (p.add e) := by
  cases e with
  | read => exact ⟨id, fun _ => rfl, fun _ ok => ⟨ok.count, ok.head⟩⟩
  | write => exact ⟨id, fun _ => rfl, fun _ ok => ⟨ok.count, ok.head⟩⟩

theorem kept_update {p : Pipe} (pipes : w'.pipes = Function.update w.pipes i p)
    (kept : Kept (w.pipes i) p) (j : Fin 8) : Kept (w.pipes j) (w'.pipes j) := by
  rw [pipes]
  by_cases h : j = i
  · subst h
    rw [update_self]
    exact kept
  · rw [update_of_ne h]
    exact .refl _

theorem Moves.kept (moves : Moves t w w') (j : Fin 8) : Kept (w.pipes j) (w'.pipes j) := by
  induction moves with
  | refl => exact .refl _
  | @tail w₁ w₂ _ move ih =>
    have one : Kept (w₁.pipes j) (w₂.pipes j) := by
      cases move with
      | same _ pipes _ =>
        rw [pipes]
        exact .refl _
      | dropped k i e held entries pipes _ => exact kept_update pipes (kept_drop _ e) j
      | added k i e free used _ low entries pipes _ => exact kept_update pipes (kept_add _ e) j
    exact ⟨fun used => ih.used (one.used used),
      fun used => (one.stream used).trans (ih.stream (one.used used)),
      fun used ok => one.ok used (ih.ok (one.used used) ok)⟩

theorem record_still {op : Op} {log : Log} (used : (w.pipes i).used = true)
    (still : bytesRead w op i = [] ∧ bytesWritten w op i = []) : record w op log i = log i := by
  unfold record
  rw [if_pos used, still.1, still.2, List.append_nil, List.append_nil]

theorem Streamed.kept {op : Op} {log : Log} {j : Fin 8} (streamed : Streamed w log)
    (still : bytesRead w op j = [] ∧ bytesWritten w op j = [])
    (kept : Kept (w.pipes j) (w'.pipes j)) (used : (w'.pipes j).used = true) :
    (w'.pipes j).Ok ∧ (record w op log j).1 ++ (w'.pipes j).stream = (record w op log j).2 := by
  have before := kept.used used
  rw [record_still before still, kept.stream used]
  exact ⟨kept.ok used (streamed.ok j before), streamed.stream j before⟩

/-- A new pipe is empty. -/
theorem new_ok : Pipe.new.Ok ∧ Pipe.new.stream = [] := ⟨⟨by decide, by decide⟩, rfl⟩

/-- **Streams are kept by every call.** -/
theorem Streamed.step {op : Op} {log : Log} (streamed : Streamed w log) (counted : Counted w)
    (fresh : Fresh w op) (step : perform w op = some w') : Streamed w' (record w op log) := by
  have each : ∀ j, (w'.pipes j).used = true →
      (w'.pipes j).Ok ∧ (record w op log j).1 ++ (w'.pipes j).stream = (record w op log j).2 := by
    intro j used
    rcases perform_effect counted fresh step with
      ⟨moves | ⟨w₁, k, k', i, made, moves⟩, still⟩ | ⟨i, ⟨w₁, flows, still⟩, others⟩
    · exact streamed.kept (still j) (moves.kept j) used
    · have kept := moves.kept j
      by_cases h : j = i
      · subst h
        have new : w₁.pipes j = Pipe.new := by
          rw [made.pipes, update_self]
        rw [new] at kept
        have started : record w op log j = ([], []) := by
          unfold record
          rw [if_neg (by rw [made.unused]; exact Bool.false_ne_true)]
        rw [started, kept.stream used, new_ok.2]
        exact ⟨kept.ok used new_ok.1, rfl⟩
      · have same : w₁.pipes j = w.pipes j := by
          rw [made.pipes, update_of_ne h]
        rw [same] at kept
        exact streamed.kept (still j) kept used
    · rw [still.pipes] at used ⊢
      by_cases h : j = i
      · subst h
        have before : (w.pipes j).used = true := flows.transfer.used.symm.trans used
        have ok := streamed.ok j before
        refine ⟨flows.ok ok, ?_⟩
        unfold record
        rw [if_pos before]
        dsimp only
        rw [List.append_assoc, ← flows.stream ok, ← List.append_assoc, streamed.stream j before]
      · have same := flows.transfer.others j h
        have kept : Kept (w.pipes j) (w₁.pipes j) := by
          rw [same]
          exact .refl _
        exact streamed.kept (others j h) kept used
  exact ⟨fun j used => (each j used).1, fun j used => (each j used).2⟩

/-! ### Results -/

/-- A round of a read for some bytes comes to 0 only at the end of the stream. -/
theorem pipeReadRound_eof {count : Nat} {nonblock : Bool} {bytes : List UInt8} (some_ : count ≠ 0)
    (eof : (pipeReadRound w t i count nonblock).2 = some (0, bytes)) :
    (w.pipes i).count = 0 ∧ (w.pipes i).writeRefs = 0 := by
  unfold pipeReadRound at eof
  dsimp only at eof
  split at eof
  · rename_i full
    have zero : ((min count (w.pipes i).count : Nat) : Int) = 0 :=
      congrArg Prod.fst (Option.some.inj eof)
    omega
  · rename_i empty
    split at eof
    · rename_i closed
      exact ⟨not_not.mp empty, closed⟩
    · split at eof
      · cases eof
      · cases eof

/-- A round of a write for some bytes fails with `EPIPE` exactly without readers. -/
theorem pipeWriteRound_epipe {data : List UInt8} {nonblock : Bool} {r : Int}
    (result : (pipeWriteRound w t i data nonblock).2 = some r) :
    r = -32 ↔ (w.pipes i).readRefs = 0 := by
  unfold pipeWriteRound at result
  dsimp only at result
  split at result
  · rename_i closed
    cases result
    simp [closed]
  · rename_i readers
    split at result
    · cases result
      simp only [readers, iff_false]
      omega
    · split at result
      · cases result
        simp [readers]
      · cases result

theorem resumeRead_result {count : Nat} {nonblock : Bool} {r : Int × List UInt8}
    (done : (resumeRead w t i count nonblock).bind Prod.snd = some r) :
    (pipeReadRound w t i count nonblock).2 = some r := by
  unfold resumeRead at done
  split at done
  · rename_i eq
    rw [eq]
    exact done
  · obtain ⟨x, blocked, result⟩ := Option.bind_eq_some_iff.mp done
    obtain ⟨w₂, -, rfl⟩ := map_eq_some_iff.mp blocked
    cases result

theorem resumeWrite_result {data : List UInt8} {nonblock : Bool} {r : Int}
    (done : (resumeWrite w t i data nonblock).bind Prod.snd = some r) :
    (pipeWriteRound w t i data nonblock).2 = some r := by
  unfold resumeWrite at done
  split at done
  · rename_i eq
    rw [eq]
    exact done
  · obtain ⟨x, blocked, result⟩ := Option.bind_eq_some_iff.mp done
    obtain ⟨w₂, -, rfl⟩ := map_eq_some_iff.mp blocked
    cases result

theorem readBy_eof {op : Op} {r : Returned} (read : readBy w op = some r) (some_ : r.count ≠ 0)
    (eof : r.result = 0) : (w.pipes r.pipe).count = 0 ∧ (w.pipes r.pipe).writeRefs = 0 := by
  cases op with
  | read t fd count nonblock =>
    unfold readBy at read
    dsimp only at read
    split at read
    · rename_i k i decoded
      obtain ⟨⟨n, bytes⟩, done, rfl⟩ := map_eq_some_iff.mp read
      obtain rfl : n = 0 := eof
      unfold nativePipeRead at done
      rw [decoded] at done
      dsimp only at done
      rw [if_neg some_] at done
      exact pipeReadRound_eof some_ (resumeRead_result done)
    · cases read
  | readAgain t i count nonblock =>
    obtain ⟨⟨n, bytes⟩, done, rfl⟩ := map_eq_some_iff.mp read
    obtain rfl : n = 0 := eof
    exact pipeReadRound_eof some_ (resumeRead_result done)
  | _ => cases read

theorem writtenBy_epipe {op : Op} {a : Accepted} (written : writtenBy w op = some a)
    (some_ : a.data ≠ []) : a.result = -32 ↔ (w.pipes a.pipe).readRefs = 0 := by
  cases op with
  | write t fd data nonblock =>
    unfold writtenBy at written
    dsimp only at written
    split at written
    · rename_i k i decoded
      obtain ⟨r, done, rfl⟩ := map_eq_some_iff.mp written
      unfold nativePipeWrite at done
      rw [decoded] at done
      dsimp only at done
      rw [if_neg some_] at done
      exact pipeWriteRound_epipe (resumeWrite_result done)
    · cases written
  | writeAgain t i data nonblock =>
    obtain ⟨r, done, rfl⟩ := map_eq_some_iff.mp written
    exact pipeWriteRound_epipe (resumeWrite_result done)
  | _ => cases written

/-- **Streams.** In every state reached, for every pipe in use, the bytes its reads
have returned followed by the buffered ones are the bytes its writes have accepted,
the indices and the count agree; the next read for some bytes returns 0 only if
nothing is buffered and no write end is open, and the next write of some bytes
fails with `EPIPE` exactly if no read end is open. -/
theorem run_stream {w₀ w : World} {log : Log} {ops : List Op} (boot : Boot w₀)
    (run : Run LoggedStep (fun s op => Fresh s.1 op) (w₀, fun _ => ([], [])) ops (w, log)) :
    (∀ i, (w.pipes i).used = true →
      (log i).1 ++ contents (w.pipes i).buffer (w.pipes i).tail (w.pipes i).count = (log i).2 ∧
      (w.pipes i).count ≤ 1024 ∧
      (w.pipes i).head.val = ((w.pipes i).tail.val + (w.pipes i).count) % 1024) ∧
    (∀ op r, readBy w op = some r → r.count ≠ 0 → r.result = 0 →
      (w.pipes r.pipe).count = 0 ∧ ends w r.pipe .write = 0) ∧
    ∀ op a, writtenBy w op = some a → a.data ≠ [] →
      (a.result = -32 ↔ ends w a.pipe .read = 0) := by
  have unused : ∀ i, ¬(w₀.pipes i).used = true := by
    intro i used
    rw [boot.pipes i] at used
    cases used
  have start : Counted w₀ ∧ Streamed w₀ fun _ => ([], []) :=
    ⟨boot.counted, fun i used => absurd used (unused i), fun i used => absurd used (unused i)⟩
  have reached : Counted w ∧ Streamed w log := by
    refine run.invariant (P := fun s => Counted s.1 ∧ Streamed s.1 s.2) start ?_
    rintro ⟨x, before⟩ op ⟨y, after⟩ ⟨counted, streamed⟩ fresh logged
    obtain ⟨z, step, same⟩ := map_eq_some_iff.mp logged
    cases same
    exact ⟨counted.step fresh step, streamed.step counted fresh step⟩
  obtain ⟨counted, streamed⟩ := reached
  refine ⟨fun i used => ⟨streamed.stream i used, (streamed.ok i used).count, ?_⟩, ?_, ?_⟩
  · rw [(streamed.ok i used).head, val_ahead]
  · intro op r read some_ eof
    obtain ⟨empty, closed⟩ := readBy_eof read some_ eof
    exact ⟨empty, (counted.refs r.pipe .write).symm.trans closed⟩
  · intro op a written some_
    rw [writtenBy_epipe written some_]
    exact Eq.congr_left (counted.refs a.pipe .read)

/-- Three bytes go in and two come out. -/
theorem run_stream_three :
    ∃ w log, Run LoggedStep (fun s op => Fresh s.1 op) (booted, fun _ => ([], []))
        [.taskInit 0 fun _ => true, .pipe2 0 0, .write 0 4 [1, 2, 3] false, .read 0 3 2 false]
        (w, log) ∧
      [1, 2] ++ contents (w.pipes 0).buffer (w.pipes 0).tail (w.pipes 0).count = [1, 2, 3] := by
  have done : ((runAll performLogged (fun s op => Fresh s.1 op) (booted, fun _ => ([], []))
      [.taskInit 0 fun _ => true, .pipe2 0 0, .write 0 4 [1, 2, 3] false, .read 0 3 2 false]).filter
      fun s => (s.1.pipes 0).used = true ∧ s.2 0 = ([1, 2], [1, 2, 3])).isSome = true := by
    decide
  obtain ⟨⟨w, log⟩, found⟩ := Option.isSome_iff_exists.mp done
  obtain ⟨ran, logged⟩ := Option.filter_eq_some_iff.mp found
  obtain ⟨used, logged⟩ := of_decide_eq_true logged
  have pair : log 0 = ([1, 2], [1, 2, 3]) := logged
  have streamed := ((run_stream booted_boot (.of_runAll ran)).1 0 used).1
  rw [pair] at streamed
  exact ⟨w, log, .of_runAll ran, streamed⟩

end AtmKoala.Native
