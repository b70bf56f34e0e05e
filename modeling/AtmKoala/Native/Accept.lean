import AtmKoala.Native.Kinds

/-!
Accepting a connection among the other calls.

* `nativeSocketAccept` looks for a number without a file and a socket, and does not
  ask for a pipe; `Clear` is the condition under which this makes no difference.
* `chosen_free`: under that condition a number that is chosen was free.
* `run_apart`: descriptors have one kind in every state reached by calls that meet it.
-/

namespace AtmKoala.Native

open Lib
open Sched (Slot)

variable {w w' : World} {t : Slot} {k : Fd}

/-! ### Accepting a connection -/

/-- `native_socket_accept`: `listening` says whether the socket listens, and
`established` whether a connection comes about before the time is up. -/
def nativeSocketAccept (w : World) (t : Slot) (fd : Int) (listening established : Bool) :
    World × Int :=
  if (nativeSocketIsFd w t fd && listening) = false then (w, -1)
  else
    match (List.finRange 32).find? fun k => decide (3 ≤ k.val) &&
        ((w.tables t).fdMap k).isNone && ((w.tables t).socketMap k).isNone with
    | none => (w, -1)
    | some childFd =>
      match (List.finRange 16).find? fun n => (w.sockets n).isNone with
      | none => (w, -1)
      | some childSlot =>
        let w := { w with sockets := Function.update w.sockets childSlot (some t) }.setSocket t
          childFd (some childSlot)
        if established then (w, childFd.val)
        else
          ({ w.setSocket t childFd none with
              sockets := Function.update w.sockets childSlot none }, -1)

/-- The calls, with accepting a connection. -/
inductive Request where
  | call (op : Op)
  | accept (t : Slot) (fd : Int) (listening established : Bool)

def Request.task : Request → Slot
  | .call op => op.task
  | .accept t _ _ _ => t

def Request.perform (w : World) : Request → Option World
  | .call op => Native.perform w op
  | .accept t fd listening established => some (nativeSocketAccept w t fd listening established).1

/-- The numbers a call that looks for free ones has come up with. -/
def chosen (w : World) : Request → List Fd
  | .call (.openFile t ok flags) => (fdIdx (nativeFdOpen w t ok flags).2).toList
  | .call (.pipe2 t flags) =>
    if flags &&& ~~~(oCloexec ||| oNonblock) ≠ 0 then []
    else
      match (nativePipeCreate w t).2 with
      | none => []
      | some (readFd, writeFd) => [readFd, writeFd]
  | .call (.dup t fd) => (fdIdx (nativeFdDup w t fd).2).toList
  | .call (.dupfd t fd arg cloexec) => (fdIdx (nativeFdFcntlDupfd w t fd arg cloexec).2).toList
  | .call (.socketOpen t) => (nativeSocketOpen w t).2.toList
  | .accept t fd listening established =>
    (fdIdx (nativeSocketAccept w t fd listening established).2).toList
  | _ => []

/-- An accept that can succeed finds a free number below each number of a pipe. -/
def Clear (w : World) : Request → Prop
  | .call op => Fresh w op
  | .accept t fd listening established =>
    nativeSocketIsFd w t fd = true → listening = true → established = true →
      (∃ n, w.sockets n = none) →
        ∀ k : Fd, (w.tables t).pipeMap k ≠ none →
          ∃ j : Fd, 3 ≤ j.val ∧ j < k ∧ (w.tables t).free j = true

instance (w : World) (r : Request) : Decidable (Clear w r) := by
  apply r.casesOn (motive := fun r => Decidable (Clear w r)) <;>
    (intros; dsimp only [Clear]; infer_instance)

/-- A search goes through the numbers from below. -/
theorem le_of_find {n : Nat} {f : Fin n → Bool} {k j : Fin n} (found : (List.finRange n).find? f = some k)
    (also : f j = true) : k ≤ j := by
  obtain ⟨-, before, after, split_, none_⟩ := List.find?_eq_some_iff_append.mp found
  have mem := split_ ▸ List.mem_finRange j
  have sorted := split_ ▸ List.pairwise_lt_finRange n
  rcases List.mem_append.mp mem with earlier | later
  · have absent := none_ j earlier
    rw [also] at absent
    cases absent
  · rcases List.mem_cons.mp later with rfl | later
    · exact le_rfl
    · exact ((List.pairwise_cons.mp (List.pairwise_append.mp sorted).2.1).1 j later).le

/-- A search finds the lowest number there is. -/
theorem find_of_lowest {n : Nat} {f : Fin n → Bool} {k : Fin n} (also : f k = true)
    (lowest : ∀ j, f j = true → k ≤ j) : (List.finRange n).find? f = some k := by
  obtain ⟨j, found⟩ := Option.isSome_iff_exists.mp
    (List.find?_isSome.mpr ⟨k, List.mem_finRange k, also⟩ : ((List.finRange n).find? f).isSome)
  rw [found, le_antisymm (le_of_find found also) (lowest j (List.find?_some found))]

/-- A failed attempt is undone. -/
theorem level_refused {n : Fin 16} (unmapped : (w.tables t).socketMap k = none)
    (nobody : w.sockets n = none) :
    Level w
      { ({ w with sockets := Function.update w.sockets n (some t) }.setSocket t k (some n)).setSocket t
          k none with
        sockets := Function.update (Function.update w.sockets n (some t)) n none } := by
  refine ⟨fun u => ?_, fun u => ?_, fun u => ?_, fun u => ?_, ?_⟩
  case refine_5 =>
    show Function.update (Function.update w.sockets n (some t)) n none = w.sockets
    rw [Function.update_idem, ← nobody, Function.update_eq_self]
  case refine_3 =>
    by_cases h : u = t
    · subst h
      simp only [World.setSocket, mapTable_self, Function.update_idem]
      rw [← unmapped, Function.update_eq_self]
    · simp only [World.setSocket, mapTable_of_ne _ h]
  all_goals
    by_cases h : u = t
    · simp only [h, World.setSocket, mapTable_self]
    · simp only [World.setSocket, mapTable_of_ne _ h]

/-- What an accept does: nothing, or a socket of its own at a number that has
neither a file nor a socket, the lowest one. -/
theorem nativeSocketAccept_cases (fd : Int) (listening established : Bool) :
    (Level w (nativeSocketAccept w t fd listening established).1 ∧
        (nativeSocketAccept w t fd listening established).2 = -1) ∨
      ∃ (k : Fd) (n : Fin 16), nativeSocketIsFd w t fd = true ∧ listening = true ∧
        established = true ∧ w.sockets n = none ∧ 3 ≤ k.val ∧ (w.tables t).fdMap k = none ∧
        (w.tables t).socketMap k = none ∧
        (∀ j : Fd, 3 ≤ j.val → (w.tables t).fdMap j = none → (w.tables t).socketMap j = none →
          k ≤ j) ∧
        nativeSocketAccept w t fd listening established =
          ({ w with sockets := Function.update w.sockets n (some t) }.setSocket t k (some n),
            (k.val : Int)) := by
  unfold nativeSocketAccept
  split
  · exact .inl ⟨.refl w, rfl⟩
  · rename_i open_
    split
    · exact .inl ⟨.refl w, rfl⟩
    · rename_i k found
      split
      · exact .inl ⟨.refl w, rfl⟩
      · rename_i n unused
        have nobody := List.find?_some unused
        rw [Option.isNone_iff_eq_none] at nobody
        have pick := List.find?_some found
        simp only [Bool.and_eq_true, decide_eq_true_eq, Option.isNone_iff_eq_none] at pick
        obtain ⟨⟨low, noFile⟩, noSocket⟩ := pick
        dsimp only
        split
        · rename_i up
          simp only [Bool.and_eq_false_iff, not_or, Bool.not_eq_false] at open_
          refine .inr ⟨k, n, open_.1, open_.2, up, nobody, low, noFile, noSocket, ?_, rfl⟩
          exact fun j low' noFile' noSocket' => le_of_find found (by simp [low', noFile', noSocket'])
        · exact .inl ⟨level_refused noSocket nobody, rfl⟩

/-- Under `Clear` the number an accept picks is free. -/
theorem Clear.free {fd : Int} {n : Fin 16} {listening established : Bool}
    (clear : Clear w (.accept t fd listening established)) (open_ : nativeSocketIsFd w t fd = true)
    (listens : listening = true) (up : established = true) (nobody : w.sockets n = none)
    (noFile : (w.tables t).fdMap k = none) (noSocket : (w.tables t).socketMap k = none)
    (lowest : ∀ j : Fd, 3 ≤ j.val → (w.tables t).fdMap j = none → (w.tables t).socketMap j = none →
      k ≤ j) : (w.tables t).free k = true := by
  have noPipe : (w.tables t).pipeMap k = none := by
    by_contra pipe
    obtain ⟨j, low, below, free⟩ := clear open_ listens up ⟨n, nobody⟩ k pipe
    simp only [Table.free, Bool.and_eq_true, Option.isNone_iff_eq_none] at free
    exact absurd (lowest j low free.1.1 free.1.2) (not_le.mpr below)
  simp [Table.free, noFile, noSocket, noPipe]

theorem nativeSocketAccept_apart {fd : Int} {listening established : Bool} (apart : Apart w)
    (clear : Clear w (.accept t fd listening established)) :
    Apart (nativeSocketAccept w t fd listening established).1 := by
  rcases nativeSocketAccept_cases (w := w) (t := t) fd listening established with
    ⟨level, -⟩ | ⟨k, n, open_, listens, up, nobody, low, noFile, noSocket, lowest, done⟩
  · exact apart.level level
  · rw [done]
    have free := clear.free open_ listens up nobody noFile noSocket lowest
    exact apart.put (put_openSocket nobody low) fun b held => absurd held (not_holds_of_free free b)

/-- An accept is no matter of pipes. -/
theorem inert_nativeSocketAccept {fd : Int} {listening established : Bool} :
    Inert w (nativeSocketAccept w t fd listening established).1 := by
  have stored : ∀ (k : Fd) (n : Fin 16), Inert w
      ({ w with sockets := Function.update w.sockets n (some t) }.setSocket t k (some n)) := by
    intro k n
    have := inert_setSocket (t := t) (k := k) (some n)
      (w := { w with sockets := Function.update w.sockets n (some t) })
    exact ⟨this.ready, this.pipeMap, this.pipes, this.sched⟩
  unfold nativeSocketAccept
  split
  · exact .refl w
  · split
    · exact .refl w
    · split
      · exact .refl w
      · dsimp only
        split
        · exact stored _ _
        · have undone := (stored ‹_› ‹_›).trans (inert_setSocket (t := t) (k := ‹_›) none)
          exact ⟨undone.ready, undone.pipeMap, undone.pipes, undone.sched⟩

/-! ### Runs -/

/-- The pipes are counted and the entries are apart. -/
theorem Apart.request {r : Request} (apart : Apart w) (counted : Counted w) (clear : Clear w r)
    (step : r.perform w = some w') : Counted w' ∧ Apart w' := by
  cases r with
  | call op => exact ⟨counted.step clear step, apart.step counted step⟩
  | accept t fd listening established =>
    cases step
    exact ⟨counted.moves (inert_nativeSocketAccept.moves (t := t)),
      nativeSocketAccept_apart apart clear⟩

theorem Boot.apart (boot : Boot w) : Apart w := by
  have none_ : ∀ {t k a}, ¬holds w t k a := by
    intro t k a held
    have ready := holds_ready held
    rw [boot.tables t] at ready
    cases ready
  exact ⟨fun held => absurd held none_, fun held => absurd held none_, fun held => absurd held none_⟩

/-- The number an open chooses, if it comes back with one. -/
theorem nativeFdOpen_free {ok : Bool} {flags : UInt32}
    (out : fdIdx (nativeFdOpen w t ok flags).2 = some k) : (w.tables t).free k = true := by
  unfold nativeFdOpen at out
  split at out
  · cases out
  · rename_i j slot
    have free : (w.tables t).free j = true := by
      unfold nativeFdSlot at slot
      split at slot
      · cases slot
      · exact (free_of_pipeFdFree (List.find?_some slot)).2
    split at out
    · cases out
    · dsimp only at out
      split at out
      · rw [fdIdx_val] at out
        obtain rfl := Option.some.inj out
        exact free
      · cases out

theorem nativePipeCreate_free {readFd writeFd : Fd}
    (out : (nativePipeCreate w t).2 = some (readFd, writeFd)) :
    (w.tables t).free readFd = true ∧ (w.tables t).free writeFd = true := by
  unfold nativePipeCreate at out
  split at out
  · cases out
  · split at out
    · cases out
    · rename_i foundRead
      split at out
      · cases out
      · rename_i foundWrite
        split at out
        · cases out
        · cases out
          have pickWrite := List.find?_some foundWrite
          simp only [Bool.and_eq_true] at pickWrite
          exact ⟨(free_of_pipeFdFree (List.find?_some foundRead)).2,
            (free_of_pipeFdFree pickWrite.2).2⟩

theorem nativeSocketOpen_free (out : (nativeSocketOpen w t).2 = some k) :
    (w.tables t).free k = true := by
  unfold nativeSocketOpen at out
  split at out
  · cases out
  · split at out
    · cases out
    · rename_i found
      split at out
      · cases out
      · cases out
        exact (free_of_pipeFdFree (List.find?_some found)).2

/-- A copy comes back with the number it was made at, or with -1. -/
theorem nativePipeDup_out (fd : Int) (newfd : Fd) :
    (nativePipeDup w t fd newfd).2 = -1 ∨ (nativePipeDup w t fd newfd).2 = newfd.val := by
  unfold nativePipeDup
  split
  · exact .inl rfl
  · split
    · exact .inl rfl
    · exact .inr rfl

theorem dupOnto_out (fd : Int) (newfd : Fd) :
    (dupOnto w t fd newfd).2 = -1 ∨ (dupOnto w t fd newfd).2 = newfd.val := by
  unfold dupOnto
  split
  · have out := nativePipeDup_out (w := w) (t := t) fd newfd
    dsimp only
    split
    · exact out
    · exact out
  · split
    · exact .inl rfl
    · split
      · exact .inl rfl
      · exact .inr rfl

theorem nativeFdDupMin_free {fd minFd : Int}
    (out : fdIdx (nativeFdDupMin w t fd minFd).2 = some k) : (w.tables t).free k = true := by
  unfold nativeFdDupMin at out
  split at out
  · cases out
  · split at out
    · cases out
    · rename_i slot found
      have pick := List.find?_some found
      simp only [Bool.and_eq_true] at pick
      rcases dupOnto_out (w := w) (t := t) fd slot with failed | made
      · rw [failed] at out
        cases out
      · rw [made, fdIdx_val] at out
        obtain rfl := Option.some.inj out
        exact pick.2

theorem nativeFdFcntlDupfd_free {fd : Int} {arg : Int32} {cloexec : Bool}
    (out : fdIdx (nativeFdFcntlDupfd w t fd arg cloexec).2 = some k) :
    (w.tables t).free k = true := by
  unfold nativeFdFcntlDupfd at out
  split at out
  · cases out
  · dsimp only at out
    split at out
    · exact nativeFdDupMin_free out
    · split at out
      · cases out
      · split at out
        · exact nativeFdDupMin_free out
        · cases out

/-- What is chosen was free. -/
theorem chosen_free {r : Request} (clear : Clear w r) (mem : k ∈ chosen w r) :
    (w.tables r.task).free k = true := by
  unfold chosen at mem
  split at mem
  · exact nativeFdOpen_free (Option.mem_toList.mp mem)
  · split at mem
    · cases mem
    · split at mem
      · cases mem
      · rename_i out
        obtain ⟨freeRead, freeWrite⟩ := nativePipeCreate_free out
        rcases List.mem_pair.mp mem with rfl | rfl
        · exact freeRead
        · exact freeWrite
  · exact nativeFdDupMin_free (Option.mem_toList.mp mem)
  · exact nativeFdFcntlDupfd_free (Option.mem_toList.mp mem)
  · exact nativeSocketOpen_free (Option.mem_toList.mp mem)
  · rename_i t fd listening established
    have out := Option.mem_toList.mp mem
    rcases nativeSocketAccept_cases (w := w) (t := t) fd listening established with
      ⟨-, failed⟩ | ⟨j, n, open_, listens, up, nobody, -, noFile, noSocket, lowest, done⟩
    · rw [failed] at out
      cases out
    · rw [done, fdIdx_val] at out
      obtain rfl := Option.some.inj out
      exact clear.free open_ listens up nobody noFile noSocket lowest
  · cases mem

/-- **A descriptor number has one kind of entry** in every state reached by calls
whose accepts find a free number below those of the pipes, and then a call that
looks for a free number comes up with one that has no entry at all. -/
theorem run_apart {w₀ w : World} {rs : List Request} (boot : Boot w₀)
    (run : Run (fun w r w' => Request.perform w r = some w') Clear w₀ rs w) :
    (∀ t k, (w.tables t).ready = true →
      ((w.tables t).fdMap k = none ∧ (w.tables t).socketMap k = none) ∨
      ((w.tables t).fdMap k = none ∧ (w.tables t).pipeMap k = none) ∨
      ((w.tables t).socketMap k = none ∧ (w.tables t).pipeMap k = none)) ∧
      ∀ r, Clear w r → ∀ k ∈ chosen w r, (w.tables r.task).fdMap k = none ∧
        (w.tables r.task).socketMap k = none ∧ (w.tables r.task).pipeMap k = none := by
  have apart : Counted w ∧ Apart w := run.invariant (P := fun w => Counted w ∧ Apart w)
    ⟨boot.counted, boot.apart⟩ fun both => both.2.request both.1
  constructor
  · intro t k ready
    by_cases file : (w.tables t).fdMap k = none
    · by_cases pipe : (w.tables t).pipeMap k = none
      · exact .inr (.inl ⟨file, pipe⟩)
      · refine .inl ⟨file, ?_⟩
        cases socket : (w.tables t).socketMap k with
        | none => rfl
        | some n => cases apart.2.one (a := .pipe) (b := .socket n) ⟨ready, pipe⟩ ⟨ready, socket⟩
    · refine .inr (.inr ⟨?_, ?_⟩)
      · cases socket : (w.tables t).socketMap k with
        | none => rfl
        | some n => cases apart.2.one (a := .file) (b := .socket n) ⟨ready, file⟩ ⟨ready, socket⟩
      · by_contra pipe
        cases apart.2.one (a := .file) (b := .pipe) ⟨ready, file⟩ ⟨ready, pipe⟩
  · intro r clear k mem
    have free := chosen_free clear mem
    simpa only [Table.free, Bool.and_eq_true, Option.isNone_iff_eq_none, and_assoc] using free

/-- A server accepts a connection and copies standard output; its pipe lies above. -/
def serverRun : List Request :=
  [.call (.taskInit 0 fun _ => true), .call (.socketOpen 0), .call (.openFile 0 true 0),
    .call (.pipe2 0 0), .call (.close 0 4), .accept 0 3 true true, .call (.dup 0 1)]

theorem run_apart_server :
    ∃ w, Run (fun w r w' => Request.perform w r = some w') Clear booted serverRun w ∧
      (w.tables 0).socketMap 4 = some 1 ∧
      ((w.tables 0).fdMap 4 = none ∧ (w.tables 0).pipeMap 4 = none) := by
  have done : ((runAll Request.perform Clear booted serverRun).filter fun w =>
      (w.tables 0).ready = true ∧ (w.tables 0).socketMap 4 = some 1).isSome = true := by
    decide
  obtain ⟨w, found⟩ := Option.isSome_iff_exists.mp done
  obtain ⟨ran, held⟩ := Option.filter_eq_some_iff.mp found
  obtain ⟨ready, socket⟩ := of_decide_eq_true held
  refine ⟨w, .of_runAll ran, socket, ?_⟩
  rcases (run_apart booted_boot (.of_runAll ran)).1 0 4 ready with ⟨-, absent⟩ | only | ⟨absent, -⟩
  · rw [socket] at absent
    cases absent
  · exact only
  · rw [socket] at absent
    cases absent

/-- **A socket over a pipe.** The task has a listening socket at 3 and a pipe at 4
and 5. The accept gives the connection number 4, which is the pipe's. -/
theorem accept_shadows :
    ¬∀ (w : World) (rs : List Request),
      Run (fun w r w' => Request.perform w r = some w') Anything booted rs w →
        ∀ t k, (w.tables t).ready = true →
          ((w.tables t).fdMap k = none ∧ (w.tables t).socketMap k = none) ∨
          ((w.tables t).fdMap k = none ∧ (w.tables t).pipeMap k = none) ∨
          ((w.tables t).socketMap k = none ∧ (w.tables t).pipeMap k = none) := by
  intro all
  have done : ((runAll Request.perform Anything booted
      [.call (.taskInit 0 fun _ => true), .call (.socketOpen 0), .call (.pipe2 0 0),
        .accept 0 3 true true]).filter fun w =>
      (w.tables 0).ready = true ∧ (w.tables 0).socketMap 4 = some 1 ∧
        (w.tables 0).pipeMap 4 = some (0, .read)).isSome = true := by
    decide +kernel
  obtain ⟨w, found⟩ := Option.isSome_iff_exists.mp done
  obtain ⟨ran, held⟩ := Option.filter_eq_some_iff.mp found
  obtain ⟨ready, socket, pipe⟩ := of_decide_eq_true held
  rcases all w _ (.of_runAll ran) 0 4 ready with ⟨-, absent⟩ | ⟨-, absent⟩ | ⟨absent, -⟩
  · rw [socket] at absent
    cases absent
  · rw [pipe] at absent
    cases absent
  · rw [socket] at absent
    cases absent

end AtmKoala.Native
