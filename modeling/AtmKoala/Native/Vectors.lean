import AtmKoala.Lib.Vectored
import AtmKoala.Native.Streams

/-!
Reads and writes of pipes on a vector of segments.

`native_fd_readv` and `native_fd_writev` work on a pipe segment by segment, through
`native_pipe_read` and `native_pipe_write`.

* `Pipe.taken` and `Pipe.put`: a round of a read or of a write as one change of the pipe, which
  composes; waking twice is waking once (`wake_wake`).
* `readLaw` and `writeLaw`: both are transfers in the sense of `Lib.Vectored`.
* `pipe_vectors`: a call on a vector is the call on one buffer unless the pipe runs empty, or
  full, at the end of a segment with more to come.
-/

namespace AtmKoala.Native

open Lib
open Vectored (Result Outcome call callOne callOne_eq call_refused Law Fails RunsDry)
open Sched (Slot)

variable {w w' : World} {t : Slot} {fd : Int} {k : Fd} {i : Fin 8} {e : PipeEnd}

/-! ### The calls -/

/-- `ATM_NATIVE_O_NONBLOCK` of a descriptor. -/
def nonblocking (w : World) (t : Slot) (fd : Int) : Bool :=
  match fdIdx fd with
  | none => false
  | some k => (w.tables t).flags k &&& oNonblock ≠ 0

/-- The read of one segment, in a call of `native_fd_read` or `native_fd_readv`. -/
def readSegment (t : Slot) (fd : Int) (w : World) (count : Nat) : Result World UInt8 :=
  nativePipeRead w t fd count (nonblocking w t fd)

/-- `native_pipe_write`, with the bytes it has taken. -/
def writeSegment (t : Slot) (fd : Int) (w : World) (data : List UInt8) : Result World UInt8 :=
  (nativePipeWrite w t fd data (nonblocking w t fd)).map
    (Prod.map id (Option.map fun n => (n, data.take n.toNat)))

/-- A write that goes on after it has waited. -/
def writeSegmentAgain (t : Slot) (i : Fin 8) (nonblock : Bool) (w : World) (data : List UInt8) :
    Result World UInt8 :=
  (resumeWrite w t i data nonblock).map (Prod.map id (Option.map fun n => (n, data.take n.toNat)))

section Calls

variable (others : List (World → World)) (w : World) (t : Slot) (fd : Int) (i : Fin 8)

/-- `native_fd_read` of a descriptor of pipe `i`; what is counted is `io_read_bytes`. -/
def nativeFdRead (count : Nat) : Option (World × Outcome UInt8 × List (World → World)) :=
  callOne (readSegment t fd) (fun v count => resumeRead v t i count (nonblocking w t fd)) others w count

/-- `native_fd_readv` of a descriptor of pipe `i`. -/
def nativeFdReadv (iov : List Nat) : Option (World × Outcome UInt8 × List (World → World)) :=
  if iov.length > 16 then some (w, .returned (-1) [] 0, others)
  else
    call (fun n => n) (readSegment t fd) (fun v count => resumeRead v t i count (nonblocking w t fd))
      others w iov

/-- `native_fd_write` of a descriptor of pipe `i`; what is counted is `io_write_bytes`. -/
def nativeFdWrite (data : List UInt8) : Option (World × Outcome UInt8 × List (World → World)) :=
  callOne (writeSegment t fd) (fun v => writeSegmentAgain t i (nonblocking w t fd) v) others w data

/-- `native_fd_writev` of a descriptor of pipe `i`. -/
def nativeFdWritev (iov : List (List UInt8)) : Option (World × Outcome UInt8 × List (World → World)) :=
  if iov.length > 16 then some (w, .returned (-1) [] 0, others)
  else
    call List.length (writeSegment t fd) (fun v => writeSegmentAgain t i (nonblocking w t fd) v)
      others w iov

end Calls

/-! ### One round -/

theorem wake_some (w : World) (t : Slot) : wake w (some t) =
    if (w.sched.pool t).state = .blocked then { w with sched := Sched.taskUnblock w.sched t } else w :=
  rfl

/-- Waking somebody again changes nothing. -/
theorem wake_wake (w : World) (waiter : Option Slot) : wake (wake w waiter) waiter = wake w waiter := by
  cases waiter with
  | none => rfl
  | some t =>
    rw [wake_some w]
    by_cases blocked : (w.sched.pool t).state = .blocked
    · rw [if_pos blocked, wake_some]
      dsimp only
      split
      · rename_i still
        have kept := Sched.taskUnblock_blocked blocked still
        rw [kept, kept]
      · rfl
    · rw [if_neg blocked, wake_some, if_neg blocked]

theorem wake_mapPipe (w : World) (i : Fin 8) (f : Pipe → Pipe) (waiter : Option Slot) :
    wake (w.mapPipe i f) waiter = (wake w waiter).mapPipe i f := by
  cases waiter with
  | none => rfl
  | some t =>
    unfold wake World.mapPipe
    dsimp only
    split
    · rfl
    · rfl

/-- Only what becomes of the pipe matters. -/
theorem mapPipe_congr {f g : Pipe → Pipe} (same : f (w.pipes i) = g (w.pipes i)) :
    w.mapPipe i f = w.mapPipe i g := by
  unfold World.mapPipe
  rw [same]

theorem wake_mapPipe_congr {f g : Pipe → Pipe} {x y : Option Slot}
    (same : f (w.pipes i) = g (w.pipes i)) (waiter : x = y) :
    (wake w x).mapPipe i f = (wake w y).mapPipe i g := by
  rw [waiter]
  exact mapPipe_congr (by rw [(wake_tables _).2, same])

theorem mapPipe_mapPipe (w : World) (i : Fin 8) (f g : Pipe → Pipe) :
    (w.mapPipe i f).mapPipe i g = w.mapPipe i fun p => g (f p) := by
  unfold World.mapPipe
  simp only [Function.update_self, Function.update_idem]

/-- Task `t` is no longer the one that waits to read. -/
def Pipe.readBy (p : Pipe) (t : Slot) : Pipe :=
  if p.readerWaiter = some t then { p with readerWaiter := none } else p

def Pipe.writtenBy (p : Pipe) (t : Slot) : Pipe :=
  if p.writerWaiter = some t then { p with writerWaiter := none } else p

/-- `n` bytes read by task `t`. -/
def Pipe.taken (p : Pipe) (t : Slot) (n : Nat) : Pipe :=
  { p with tail := ahead p.tail n, count := p.count - n }.readBy t

/-- Bytes written by task `t`. -/
def Pipe.put (p : Pipe) (t : Slot) (xs : List UInt8) : Pipe :=
  { p with
    buffer := (putAt p.buffer xs p.head).1
    head := (putAt p.buffer xs p.head).2
    count := p.count + xs.length }.writtenBy t

theorem readBy_readBy (p : Pipe) (t : Slot) : (p.readBy t).readBy t = p.readBy t := by
  unfold Pipe.readBy
  split
  · rw [if_neg (by simp)]
  · rfl

theorem taken_taken (p : Pipe) (t : Slot) (m n : Nat) :
    (p.taken t m).taken t n = p.taken t (m + n) := by
  unfold Pipe.taken Pipe.readBy
  by_cases waits : p.readerWaiter = some t
  · simp [waits, ahead_ahead, Nat.sub_sub]
  · simp [waits, ahead_ahead, Nat.sub_sub]

theorem put_put (p : Pipe) (t : Slot) (xs ys : List UInt8) :
    (p.put t xs).put t ys = p.put t (xs ++ ys) := by
  unfold Pipe.put Pipe.writtenBy
  by_cases waits : p.writerWaiter = some t
  · simp [waits, putAt_append, Nat.add_assoc]
  · simp [waits, putAt_append, Nat.add_assoc]

theorem Pipe.taken_fields (p : Pipe) (t : Slot) (n : Nat) :
    (p.taken t n).count = p.count - n ∧ (p.taken t n).writeRefs = p.writeRefs ∧
      (p.taken t n).used = p.used ∧ (p.taken t n).writerWaiter = p.writerWaiter ∧
      (p.taken t n).buffer = p.buffer ∧ (p.taken t n).tail = ahead p.tail n := by
  unfold Pipe.taken Pipe.readBy
  split
  · exact ⟨rfl, rfl, rfl, rfl, rfl, rfl⟩
  · exact ⟨rfl, rfl, rfl, rfl, rfl, rfl⟩

theorem Pipe.put_fields (p : Pipe) (t : Slot) (xs : List UInt8) :
    (p.put t xs).count = p.count + xs.length ∧ (p.put t xs).readRefs = p.readRefs ∧
      (p.put t xs).used = p.used ∧ (p.put t xs).readerWaiter = p.readerWaiter := by
  unfold Pipe.put Pipe.writtenBy
  split
  · exact ⟨rfl, rfl, rfl, rfl⟩
  · exact ⟨rfl, rfl, rfl, rfl⟩

/-- A round of a read that finds bytes. -/
theorem pipeReadRound_taken (count : Nat) (nonblock : Bool) (there : (w.pipes i).count ≠ 0) :
    pipeReadRound w t i count nonblock =
      ((wake w (w.pipes i).writerWaiter).mapPipe i (·.taken t (min count (w.pipes i).count)),
        some (((min count (w.pipes i).count : Nat) : Int),
          contents (w.pipes i).buffer (w.pipes i).tail (min count (w.pipes i).count))) := by
  unfold pipeReadRound
  dsimp only
  rw [if_pos there, takeFrom_eq, pipeWakeWriter_mapPipe, wake_mapPipe]
  refine congrArg₂ Prod.mk (wake_mapPipe_congr ?_ ?_) rfl
  · rfl
  · exact ((w.pipes i).taken_fields t (min count (w.pipes i).count)).2.2.2.1

/-- A round of a write that finds room. -/
theorem pipeWriteRound_put (data : List UInt8) (nonblock : Bool) (open_ : (w.pipes i).readRefs ≠ 0)
    (room : (w.pipes i).count < 1024) :
    pipeWriteRound w t i data nonblock =
      ((wake w (w.pipes i).readerWaiter).mapPipe i
          (·.put t (data.take (min data.length (1024 - (w.pipes i).count)))),
        some ((min data.length (1024 - (w.pipes i).count) : Nat) : Int)) := by
  have length : (data.take (min data.length (1024 - (w.pipes i).count))).length =
      min data.length (1024 - (w.pipes i).count) := by
    rw [List.length_take]
    omega
  have waiter := ((w.pipes i).put_fields t
    (data.take (min data.length (1024 - (w.pipes i).count)))).2.2.2
  unfold Pipe.put at waiter ⊢
  unfold pipeWriteRound
  dsimp only
  rw [if_neg open_, if_pos room, pipeWakeReader_mapPipe, wake_mapPipe]
  rw [length] at waiter ⊢
  refine congrArg₂ Prod.mk (wake_mapPipe_congr ?_ ?_) rfl
  · rfl
  · exact waiter

/-! ### Transfers -/

/-- Descriptor `fd` of task `t` is end `e` of pipe `i`; `flag` says whether it may not block. -/
def Held (t : Slot) (fd : Int) (k : Fd) (i : Fin 8) (e : PipeEnd) (flag : Bool) (w : World) : Prop :=
  pipeDecode w t fd = some (k, i, e) ∧ nonblocking w t fd = flag

theorem held_of_same {flag : Bool} (held : Held t fd k i e flag w) (tables : w'.tables t = w.tables t)
    (used : (w.pipes i).used = true → (w'.pipes i).used = true) : Held t fd k i e flag w' := by
  obtain ⟨decoded, blocks⟩ := held
  obtain ⟨idx, ready, low, mapped, isUsed⟩ := pipeDecode_some decoded
  refine ⟨?_, ?_⟩
  · unfold pipeDecode
    rw [idx]
    dsimp only
    rw [tables, if_pos ⟨ready, low⟩, mapped]
    dsimp only
    rw [if_pos (used isUsed)]
  · unfold nonblocking at blocks ⊢
    rw [tables]
    exact blocks

theorem held_of_mapPipe {flag : Bool} (held : Held t fd k i e flag w) (waiter : Option Slot)
    {f : Pipe → Pipe} (used : ∀ p, (f p).used = p.used) :
    Held t fd k i e flag ((wake w waiter).mapPipe i f) := by
  obtain ⟨tables, pipes⟩ := wake_tables (w := w) waiter
  refine held_of_same held (congrFun tables t) fun isUsed => ?_
  show (Function.update (wake w waiter).pipes i (f ((wake w waiter).pipes i)) i).used = true
  rw [Function.update_self, used, pipes, isUsed]

theorem pipe_mapPipe (w : World) (waiter : Option Slot) (i : Fin 8) (f : Pipe → Pipe) :
    ((wake w waiter).mapPipe i f).pipes i = f (w.pipes i) := by
  show Function.update _ i _ i = _
  rw [Function.update_self, (wake_tables _).2]

/-- A task that blocks keeps its descriptors. -/
theorem held_of_block {flag : Bool} {f : Pipe → Pipe} (held : Held t fd k i e flag w)
    (blocked : blockInCall (w.mapPipe i f) t = some w') (used : ∀ p, (f p).used = p.used) :
    Held t fd k i e flag w' := by
  have still := blockInCall_still blocked
  refine held_of_same (held_of_mapPipe held none used) (congrFun still.tables t) fun isUsed => ?_
  rw [still.pipes]
  exact isUsed

section Reads

variable {flag : Bool} {count : Nat}

theorem readSegment_eq (held : Held t fd k i .read flag w) (count : Nat) :
    readSegment t fd w count =
      if count = 0 then some (w, some (0, [])) else resumeRead w t i count flag := by
  unfold readSegment nativePipeRead
  rw [held.1, held.2]

theorem resumeRead_taken (there : (w.pipes i).count ≠ 0) (count : Nat) :
    resumeRead w t i count flag =
      some ((wake w (w.pipes i).writerWaiter).mapPipe i (·.taken t (min count (w.pipes i).count)),
        some (((min count (w.pipes i).count : Nat) : Int),
          contents (w.pipes i).buffer (w.pipes i).tail (min count (w.pipes i).count))) := by
  unfold resumeRead
  rw [pipeReadRound_taken count flag there]

theorem resumeRead_idle (empty : (w.pipes i).count = 0) (count : Nat) :
    resumeRead w t i count flag =
      if (w.pipes i).writeRefs = 0 then some (w.mapPipe i (·.readBy t), some (0, []))
      else if flag = true then some (w, some (-11, []))
      else (blockInCall (w.mapPipe i fun p => { p with readerWaiter := some t }) t).map (·, none) := by
  unfold resumeRead pipeReadRound
  dsimp only
  rw [if_neg (not_not.mpr empty)]
  split
  · rename_i w₁ r round
    split at round
    · rename_i over_
      cases round
      rw [if_pos over_]
      rfl
    · rename_i goes
      split at round
      · rename_i never
        cases round
        rw [if_neg goes, if_pos never]
      · cases round
  · rename_i w₁ round
    split at round
    · cases round
    · rename_i goes
      split at round
      · cases round
      · rename_i blocks
        cases round
        rw [if_neg goes, if_neg blocks]

end Reads

/-- **Reads are transfers** of the bytes in the pipe, at their end when no writer is left. -/
theorem readLaw (t : Slot) (fd : Int) (k : Fd) (i : Fin 8) (flag : Bool) :
    Law (Held t fd k i .read flag) (fun n => n) 0 (· + ·) (readSegment t fd)
      (fun w count => resumeRead w t i count flag) (fun w => (w.pipes i).count)
      (fun w => (w.pipes i).writeRefs = 0) where
  length_unit := rfl
  length_join _ _ := rfl
  join_empty a b empty := by
    have : b = 0 := empty
    rw [this]
    rfl
  empty_join a b empty := by
    have : a = 0 := empty
    rw [this]
    exact Nat.zero_add b
  empty held none_ := by
    rw [readSegment_eq held, if_pos none_]
  again_eq held pos := by
    rw [readSegment_eq held, if_neg (Nat.ne_of_gt pos)]
  moves {w a} held there pos := by
    rw [readSegment_eq held, if_neg (Nat.ne_of_gt pos), resumeRead_taken (Nat.ne_of_gt there)]
    have next := held_of_mapPipe (f := (·.taken t (min a (w.pipes i).count))) held
      (w.pipes i).writerWaiter fun p => (p.taken_fields t _).2.2.1
    have pipe := pipe_mapPipe w (w.pipes i).writerWaiter i (·.taken t (min a (w.pipes i).count))
    refine ⟨_, contents (w.pipes i).buffer (w.pipes i).tail (min a (w.pipes i).count), ?_,
      length_contents .., next, ?_, ?_, fun none_ over_ b posb => ?_⟩
    · rw [length_contents]
    · rw [pipe, (Pipe.taken_fields ..).1, length_contents]
    · rw [pipe, (Pipe.taken_fields ..).2.1]
    · rw [readSegment_eq next, if_neg (Nat.ne_of_gt posb), resumeRead_idle none_, if_pos over_]
      rw [mapPipe_mapPipe]
      refine congrArg (fun w => some (w, _)) (mapPipe_congr ?_)
      exact readBy_readBy _ t
  full {w a b} held there few := by
    have pos : 0 < a := Nat.lt_of_lt_of_le there few
    rw [readSegment_eq held, readSegment_eq held, if_neg (by omega), if_neg (by omega),
      resumeRead_taken (Nat.ne_of_gt there), resumeRead_taken (Nat.ne_of_gt there),
      Nat.min_eq_right few, Nat.min_eq_right (Nat.le_trans few (Nat.le_add_right a b))]
  split {w w₁ a b n xs m ys u} held pos less posb first second := by
    have there : (w.pipes i).count ≠ 0 := Nat.ne_of_gt (Nat.zero_lt_of_lt less)
    rw [readSegment_eq held, if_neg (Nat.ne_of_gt pos), resumeRead_taken there,
      Nat.min_eq_left (Nat.le_of_lt less)] at first
    obtain ⟨rfl, rfl, rfl⟩ : _ = w₁ ∧ (a : Int) = n ∧ _ = xs := by
      simpa only [Option.some.injEq, Prod.mk.injEq] using first
    have held₁ := held_of_mapPipe (f := (·.taken t a)) held (w.pipes i).writerWaiter
      fun p => (p.taken_fields t a).2.2.1
    have pipe := pipe_mapPipe w (w.pipes i).writerWaiter i (·.taken t a)
    have left : (((w.pipes i).taken t a)).count = (w.pipes i).count - a := (Pipe.taken_fields ..).1
    rw [readSegment_eq held₁, if_neg (Nat.ne_of_gt posb), resumeRead_taken (by rw [pipe, left]; omega),
      pipe, left, (Pipe.taken_fields ..).2.2.2.1, wake_mapPipe, wake_wake, mapPipe_mapPipe] at second
    obtain ⟨rfl, rfl, rfl⟩ : _ = u ∧ ((min b ((w.pipes i).count - a) : Nat) : Int) = m ∧ _ = ys := by
      simpa only [Option.some.injEq, Prod.mk.injEq] using second
    have sum : min (a + b) (w.pipes i).count = a + min b ((w.pipes i).count - a) := by omega
    rw [readSegment_eq held, if_neg (by omega), resumeRead_taken there, sum, contents_add]
    simp only [taken_taken, Int.natCast_add, ((w.pipes i).taken_fields t a).2.2.2.2.1,
      ((w.pipes i).taken_fields t a).2.2.2.2.2]
  same held idle posa posb := by
    rw [readSegment_eq held, readSegment_eq held, if_neg (Nat.ne_of_gt posa),
      if_neg (Nat.ne_of_gt posb), resumeRead_idle idle, resumeRead_idle idle]
  finished held idle pos over_ := by
    rw [readSegment_eq held, if_neg (Nat.ne_of_gt pos), resumeRead_idle idle, if_pos over_]
    exact ⟨_, rfl⟩
  stuck {w a} held idle pos goes := by
    rw [readSegment_eq held, if_neg (Nat.ne_of_gt pos), resumeRead_idle idle, if_neg goes]
    split
    · exact .inr (.inr ⟨w, -11, by decide, rfl⟩)
    · rcases blocked : blockInCall (w.mapPipe i fun p => { p with readerWaiter := some t }) t with
        - | w₁
      · exact .inl rfl
      · exact .inr (.inl ⟨w₁, rfl, held_of_block held blocked fun _ => rfl⟩)

section Writes

variable {flag : Bool} {data : List UInt8}

theorem writeSegment_eq (held : Held t fd k i .write flag w) (data : List UInt8) :
    writeSegment t fd w data =
      if data = [] then some (w, some (0, [])) else writeSegmentAgain t i flag w data := by
  unfold writeSegment nativePipeWrite writeSegmentAgain
  rw [held.1, held.2]
  dsimp only
  split
  · rename_i empty
    rw [empty]
    rfl
  · rfl

/-- The room in a pipe that somebody reads. -/
def room (i : Fin 8) (w : World) : Nat :=
  if (w.pipes i).readRefs = 0 then 0 else 1024 - (w.pipes i).count

theorem writeSegmentAgain_put (some_ : 0 < room i w) (data : List UInt8) :
    writeSegmentAgain t i flag w data =
      some ((wake w (w.pipes i).readerWaiter).mapPipe i (·.put t (data.take (room i w))),
        some ((((data.take (room i w)).length : Nat) : Int), data.take (room i w))) := by
  unfold room at some_ ⊢
  split at some_
  · exact absurd some_ (Nat.lt_irrefl 0)
  rename_i open_
  have least : min data.length (1024 - (w.pipes i).count) =
      (data.take (1024 - (w.pipes i).count)).length := by
    rw [List.length_take, Nat.min_comm]
  have same : data.take (data.take (1024 - (w.pipes i).count)).length =
      data.take (1024 - (w.pipes i).count) := by
    rw [← least, Nat.min_comm]
    exact List.take_eq_take_min.symm
  unfold writeSegmentAgain resumeWrite
  rw [if_neg open_, pipeWriteRound_put data flag open_ (by omega), least, same]
  dsimp only [Option.map_some, Prod.map_apply, id_eq]
  rw [Int.toNat_natCast, same]

theorem writeSegmentAgain_idle (full : room i w = 0) (data : List UInt8) :
    writeSegmentAgain t i flag w data =
      if (w.pipes i).readRefs = 0 then some (w.mapPipe i (·.writtenBy t), some (-32, []))
      else if flag = true then some (w, some (-11, []))
      else (blockInCall (w.mapPipe i fun p => { p with writerWaiter := some t }) t).map (·, none) := by
  unfold room at full
  unfold writeSegmentAgain resumeWrite pipeWriteRound
  dsimp only
  by_cases closed : (w.pipes i).readRefs = 0
  · rw [if_pos closed, if_pos closed]
    rfl
  · rw [if_neg closed] at full
    rw [if_neg closed, if_neg closed, if_neg (by omega)]
    by_cases never : flag = true
    · rw [if_pos never, if_pos never]
      rfl
    · rw [if_neg never, if_neg never]
      dsimp only
      rw [Option.map_map]
      rfl

end Writes

/-- **Writes are transfers** into the room of the pipe, which have no end. -/
theorem writeLaw (t : Slot) (fd : Int) (k : Fd) (i : Fin 8) (flag : Bool) :
    Law (Held t fd k i .write flag) List.length [] (· ++ ·) (writeSegment t fd)
      (fun w => writeSegmentAgain t i flag w) (room i) (fun _ => False) where
  length_unit := rfl
  length_join _ _ := List.length_append
  join_empty a b empty := by rw [List.length_eq_zero_iff.mp empty, List.append_nil]
  empty_join a b empty := by rw [List.length_eq_zero_iff.mp empty, List.nil_append]
  empty held none_ := by
    rw [writeSegment_eq held, if_pos (List.length_eq_zero_iff.mp none_)]
  again_eq held pos := by
    rw [writeSegment_eq held, if_neg (List.ne_nil_of_length_pos pos)]
  moves {w a} held there pos := by
    rw [writeSegment_eq held, if_neg (List.ne_nil_of_length_pos pos), writeSegmentAgain_put there]
    have next := held_of_mapPipe (f := (·.put t (a.take (room i w)))) held
      (w.pipes i).readerWaiter fun p => (p.put_fields t _).2.2.1
    have pipe := pipe_mapPipe w (w.pipes i).readerWaiter i (·.put t (a.take (room i w)))
    refine ⟨_, _, rfl, by rw [List.length_take, Nat.min_comm], next, ?_, Iff.rfl, nofun⟩
    rw [room, pipe, (Pipe.put_fields ..).1, (Pipe.put_fields ..).2.1]
    unfold room
    split
    · exact (Nat.zero_sub _).symm
    · omega
  full {w a b} held there few := by
    have pos : 0 < a.length := Nat.lt_of_lt_of_le there few
    rw [writeSegment_eq held, writeSegment_eq held, if_neg (List.ne_nil_of_length_pos pos),
      if_neg (List.append_ne_nil_of_left_ne_nil (List.ne_nil_of_length_pos pos) b),
      writeSegmentAgain_put there, writeSegmentAgain_put there, List.take_append_of_le_length few]
  split {w w₁ a b n xs m ys u} held pos less posb first second := by
    have there : 0 < room i w := Nat.zero_lt_of_lt less
    have nonempty := List.ne_nil_of_length_pos pos
    rw [writeSegment_eq held, if_neg nonempty, writeSegmentAgain_put there,
      List.take_of_length_le (Nat.le_of_lt less)] at first
    obtain ⟨rfl, rfl, rfl⟩ : _ = w₁ ∧ ((a.length : Nat) : Int) = n ∧ a = xs := by
      simpa only [Option.some.injEq, Prod.mk.injEq] using first
    have held₁ := held_of_mapPipe (f := (·.put t a)) held (w.pipes i).readerWaiter
      fun p => (p.put_fields t a).2.2.1
    have pipe := pipe_mapPipe w (w.pipes i).readerWaiter i (·.put t a)
    have left : room i ((wake w (w.pipes i).readerWaiter).mapPipe i (·.put t a)) =
        room i w - a.length := by
      rw [room, pipe, (Pipe.put_fields ..).1, (Pipe.put_fields ..).2.1]
      unfold room
      split
      · exact (Nat.zero_sub _).symm
      · omega
    rw [writeSegment_eq held₁, if_neg (List.ne_nil_of_length_pos posb),
      writeSegmentAgain_put (by rw [left]; omega), pipe, left, (Pipe.put_fields ..).2.2.2, wake_mapPipe,
      wake_wake, mapPipe_mapPipe] at second
    obtain ⟨rfl, rfl, rfl⟩ : _ = u ∧ (((b.take (room i w - a.length)).length : Nat) : Int) = m ∧
        b.take (room i w - a.length) = ys := by
      simpa only [Option.some.injEq, Prod.mk.injEq] using second
    have cut : (a ++ b).take (room i w) = a ++ b.take (room i w - a.length) := by
      rw [List.take_append, List.take_of_length_le (Nat.le_of_lt less)]
    rw [writeSegment_eq held, if_neg (List.append_ne_nil_of_left_ne_nil nonempty b),
      writeSegmentAgain_put there, cut, List.length_append, Int.natCast_add]
    simp only [put_put]
  same held idle posa posb := by
    rw [writeSegment_eq held, writeSegment_eq held, if_neg (List.ne_nil_of_length_pos posa),
      if_neg (List.ne_nil_of_length_pos posb), writeSegmentAgain_idle idle, writeSegmentAgain_idle idle]
  finished _ _ _ over_ := over_.elim
  stuck {w a} held idle pos _ := by
    rw [writeSegment_eq held, if_neg (List.ne_nil_of_length_pos pos), writeSegmentAgain_idle idle]
    split
    · exact .inr (.inr ⟨_, -32, by decide, rfl⟩)
    split
    · exact .inr (.inr ⟨w, -11, by decide, rfl⟩)
    · rcases blocked : blockInCall (w.mapPipe i fun p => { p with writerWaiter := some t }) t with
        - | w₁
      · exact .inl rfl
      · exact .inr (.inl ⟨w₁, rfl, held_of_block held blocked fun _ => rfl⟩)

/-! ### Calls on a vector -/

/-- What other tasks do while task `t` waits: its table is its own, and a pipe stays in use while
there is a descriptor for it. -/
structure Elsewhere (t : Slot) (act : World → World) : Prop where
  tables : ∀ w, (act w).tables t = w.tables t
  used : ∀ w k i e, entry w t k = some (i, e) → (w.pipes i).used = true →
    ((act w).pipes i).used = true

theorem Elsewhere.held {act : World → World} {flag : Bool} (elsewhere : Elsewhere t act)
    (held : Held t fd k i e flag w) : Held t fd k i e flag (act w) :=
  held_of_same held (elsewhere.tables w) (elsewhere.used w k i e (entry_of_decode held.1))

section Vectors

variable (others : List (World → World)) (w : World) (t : Slot) (fd : Int) (i : Fin 8)

/-- The bytes in the pipe end with a segment, more segments follow, and there are writers. -/
def RunsEmpty (iov : List Nat) : Prop :=
  RunsDry (fun n => n) 0 (· + ·) (readSegment t fd) (fun w => (w.pipes i).count)
    (fun w => (w.pipes i).writeRefs = 0) others w iov

/-- The room in the pipe ends with a segment, and more segments follow. -/
def RunsFull (iov : List (List UInt8)) : Prop :=
  RunsDry List.length [] (· ++ ·) (writeSegment t fd) (room i) (fun _ => False) others w iov

end Vectors

theorem fails_resumeRead (t : Slot) (i : Fin 8) (flag : Bool) :
    Fails fun w count => resumeRead w t i count flag := by
  intro w count w' n bytes runs neg
  by_cases there : (w.pipes i).count = 0
  · dsimp only at runs
    rw [resumeRead_idle there] at runs
    split at runs
    · injection runs with runs
      injection runs with _ runs
      injection runs with runs
      exact (Prod.mk.inj runs).2.symm
    split at runs
    · injection runs with runs
      injection runs with _ runs
      injection runs with runs
      exact (Prod.mk.inj runs).2.symm
    · obtain ⟨w₁, -, waits⟩ := Option.map_eq_some_iff.mp runs
      cases (Prod.mk.inj waits).2
  · dsimp only at runs
    rw [resumeRead_taken there] at runs
    injection runs with runs
    injection runs with _ runs
    injection runs with runs
    have value := (Prod.mk.inj runs).1
    omega

theorem fails_read (t : Slot) (fd : Int) : Fails (readSegment t fd) := by
  intro w count w' n bytes runs neg
  unfold readSegment nativePipeRead at runs
  split at runs
  · split at runs
    · cases runs
      rfl
    · exact fails_resumeRead t _ _ _ _ _ _ _ runs neg
  · cases runs
    rfl

/-- A write that fails has taken no byte. -/
theorem nil_of_taken {f : Option (World × Option Int)} {data bytes : List UInt8} {n : Int}
    (runs : f.map (Prod.map id (Option.map fun n => (n, data.take n.toNat))) = some (w', some (n, bytes)))
    (neg : n < 0) : bytes = [] := by
  obtain ⟨⟨w₁, r⟩, -, same⟩ := Option.map_eq_some_iff.mp runs
  obtain ⟨m, -, pair⟩ := Option.map_eq_some_iff.mp (Prod.mk.inj same).2
  obtain ⟨rfl, rfl⟩ := Prod.mk.inj pair
  rw [Int.toNat_of_nonpos (Int.le_of_lt neg), List.take_zero]

variable {others : List (World → World)}

/-- **Vectors on pipes.** A read or a write of a vector is that of one buffer, in the bytes, the
value, the pipe, the account and how often it waits, unless the pipe runs empty or full at the end
of a segment with more to come. On the wrong end this is so if there is a segment. -/
theorem pipe_vectors (decoded : pipeDecode w t fd = some (k, i, e))
    (elsewhere : ∀ act ∈ others, Elsewhere t act) :
    (∀ iov : List Nat, iov.length ≤ 16 →
      (nativeFdReadv others w t fd i iov = nativeFdRead others w t fd i iov.sum ↔
        if e = .read then ¬RunsEmpty others w t fd i iov else iov ≠ [])) ∧
    ∀ iov : List (List UInt8), iov.length ≤ 16 →
      (nativeFdWritev others w t fd i iov = nativeFdWrite others w t fd i iov.flatten ↔
        if e = .write then ¬RunsFull others w t fd i iov else iov ≠ []) := by
  have here : ∀ {e}, pipeDecode w t fd = some (k, i, e) → Held t fd k i e (nonblocking w t fd) w :=
    fun decoded => ⟨decoded, rfl⟩
  have keeps : ∀ e, ∀ act ∈ others, ∀ w', Held t fd k i e (nonblocking w t fd) w' →
      Held t fd k i e (nonblocking w t fd) (act w') := fun e act mem w' held => (elsewhere act mem).held held
  refine ⟨fun iov few => ?_, fun iov few => ?_⟩
  · unfold nativeFdReadv nativeFdRead
    rw [if_neg (by omega)]
    cases e with
    | read =>
      rw [if_pos rfl, @callOne_eq World Nat UInt8 (fun n => n) (readSegment t fd)
        (fun v count => resumeRead v t i count (nonblocking w t fd)) (fails_read t fd)
        (fails_resumeRead t i _) others w iov.sum]
      exact (readLaw t fd k i _).call_eq_iff (keeps .read) (here decoded) iov
    | write =>
      rw [if_neg (by decide)]
      refine call_refused (n := -1) (by decide) (fun count => ?_) others iov iov.sum
      unfold readSegment nativePipeRead
      rw [decoded]
  · unfold nativeFdWritev nativeFdWrite
    rw [if_neg (by omega)]
    cases e with
    | write =>
      have flat : iov.flatten = iov.foldr (· ++ ·) [] := by
        induction iov with
        | nil => rfl
        | cons a iov ih => rw [List.flatten_cons, List.foldr_cons, ih (by simp at few; omega)]
      rw [if_pos rfl, flat, @callOne_eq World (List UInt8) UInt8 List.length (writeSegment t fd)
        (fun v => writeSegmentAgain t i (nonblocking w t fd) v) (fun _ _ _ _ _ => nil_of_taken)
        (fun _ _ _ _ _ => nil_of_taken) others w]
      exact (writeLaw t fd k i _).call_eq_iff (keeps .write) (here decoded) iov
    | read =>
      rw [if_neg (by decide)]
      refine call_refused (n := -1) (by decide) (fun data => ?_) others iov iov.flatten
      unfold writeSegment nativePipeWrite
      rw [decoded]
      rfl

/-- Three of four bytes, into two segments. -/
theorem pipe_vectors_three :
    ∃ w, Run Step Fresh booted
        [.taskInit 0 fun _ => true, .pipe2 0 0, .write 0 4 [1, 2, 3, 4] false] w ∧
      nativeFdReadv [] w 0 3 0 [1, 2] = nativeFdRead [] w 0 3 0 3 := by
  have done : ((runAll perform Fresh booted
      [.taskInit 0 fun _ => true, .pipe2 0 0, .write 0 4 [1, 2, 3, 4] false]).filter
      fun w => pipeDecode w 0 3 = some (3, 0, .read) ∧ (w.pipes 0).count = 4).isSome = true := by
    decide
  obtain ⟨w, found⟩ := Option.isSome_iff_exists.mp done
  obtain ⟨ran, facts⟩ := Option.filter_eq_some_iff.mp found
  obtain ⟨decoded, four⟩ := of_decide_eq_true facts
  refine ⟨w, .of_runAll ran, ((pipe_vectors decoded fun _ mem => absurd mem List.not_mem_nil).1 [1, 2]
    (by decide)).mpr ?_⟩
  rw [if_pos rfl]
  rintro ⟨-, -, front, back, same, sum, -⟩
  have total : (front.map fun n : Nat => n).sum + (back.map fun n : Nat => n).sum = 3 := by
    rw [← List.sum_append, ← List.map_append, ← same]
    rfl
  have four : (front.map fun n : Nat => n).sum = 4 := sum.trans four
  omega

/-- **A segment that takes all there is.** Four bytes are in the pipe and two segments of four are
to be read: the call waits with the bytes in its hands, and where it may not wait it returns them
without counting them. -/
theorem boundary_waits :
    (∃ w, Run Step Fresh booted
        [.taskInit 0 fun _ => true, .pipe2 0 0, .write 0 4 [1, 2, 3, 4] false] w ∧
      pipeDecode w 0 3 = some (3, 0, .read) ∧
      (nativeFdReadv [] w 0 3 0 [4, 4]).map (·.2.1) = some .waiting ∧
      (nativeFdRead [] w 0 3 0 8).map (·.2.1) = some (.returned 4 [1, 2, 3, 4] 4)) ∧
    ∃ w, Run Step Fresh booted
        [.taskInit 0 fun _ => true, .pipe2 0 oNonblock, .write 0 4 [1, 2, 3, 4] false] w ∧
      pipeDecode w 0 3 = some (3, 0, .read) ∧
      (nativeFdReadv [] w 0 3 0 [4, 4]).map (·.2.1) = some (.returned 4 [1, 2, 3, 4] 0) ∧
      (nativeFdRead [] w 0 3 0 8).map (·.2.1) = some (.returned 4 [1, 2, 3, 4] 4) := by
  have found : ∀ flags (P : World → Prop) [DecidablePred P], ((runAll perform Fresh booted
      [.taskInit 0 fun _ => true, .pipe2 0 flags, .write 0 4 [1, 2, 3, 4] false]).filter
        fun w => P w).isSome = true →
      ∃ w, Run Step Fresh booted
        [.taskInit 0 fun _ => true, .pipe2 0 flags, .write 0 4 [1, 2, 3, 4] false] w ∧ P w := by
    intro flags P _ done
    obtain ⟨w, found⟩ := Option.isSome_iff_exists.mp done
    obtain ⟨ran, facts⟩ := Option.filter_eq_some_iff.mp found
    exact ⟨w, .of_runAll ran, of_decide_eq_true facts⟩
  exact ⟨found 0 _ (by decide), found oNonblock _ (by decide)⟩

end AtmKoala.Native
