import AtmKoala.Native.Streams
import AtmKoala.Native.Owners

/-!
One descriptor number, one kind of object.

* `holds w t k a`: descriptor `k` of task `t` has an entry of kind `a`. `Apart` says
  that it has entries of one kind only, and that a socket entry is the only one of a
  socket of the task's own.
* `Fewer` is a change that adds no entry, `Put` one that adds an entry, and `Level`
  one that leaves tables and sockets alone but for flags.
* `Apart.step`: the calls on descriptors keep the entries apart.
-/

namespace AtmKoala.Native

open Lib
open Sched (Slot)
open Option (map_eq_some_iff)
open Function (update_of_ne update_self)

variable {w w' w'' : World} {t : Slot} {k : Fd} {i : Fin 8} {e : PipeEnd}

/-! ### Kinds of entries -/

/-- What a descriptor number can stand for. -/
inductive Kind where
  | file
  | socket (n : Fin 16)
  | pipe
deriving DecidableEq

/-- Descriptor `k` of task `t` has an entry of this kind. -/
def holds (w : World) (t : Slot) (k : Fd) : Kind → Prop
  | .file => (w.tables t).ready = true ∧ (w.tables t).fdMap k ≠ none
  | .socket n => (w.tables t).ready = true ∧ (w.tables t).socketMap k = some n
  | .pipe => (w.tables t).ready = true ∧ (w.tables t).pipeMap k ≠ none

theorem holds_ready {a : Kind} (h : holds w t k a) : (w.tables t).ready = true := by
  cases a with
  | file => exact h.1
  | socket n => exact h.1
  | pipe => exact h.1

/-- **Descriptor numbers have one kind.** A socket entry is that of a socket which
belongs to the task, and no other descriptor has it. -/
structure Apart (w : World) : Prop where
  one : ∀ {t k a b}, holds w t k a → holds w t k b → a = b
  owned : ∀ {t k n}, holds w t k (.socket n) → w.sockets n = some t ∧ 3 ≤ k.val
  single : ∀ {t k k' n}, holds w t k (.socket n) → holds w t k' (.socket n) → k = k'

/-- No entry is added, and the sockets behind those that stay are as they were. -/
def Fewer (w w' : World) : Prop :=
  ∀ t k a, holds w' t k a → holds w t k a ∧ ∀ n, a = .socket n → w'.sockets n = w.sockets n

theorem Fewer.refl (w : World) : Fewer w w := fun _ _ _ h => ⟨h, fun _ _ => rfl⟩

theorem Fewer.trans (first : Fewer w w') (second : Fewer w' w'') : Fewer w w'' := by
  intro t k a h
  obtain ⟨h', same'⟩ := second t k a h
  obtain ⟨h'', same''⟩ := first t k a h'
  exact ⟨h'', fun n e => (same' n e).trans (same'' n e)⟩

theorem Apart.fewer (apart : Apart w) (fewer : Fewer w w') : Apart w' := by
  refine ⟨fun ha hb => ?_, fun h => ?_, fun h h' => ?_⟩
  · exact apart.one (fewer _ _ _ ha).1 (fewer _ _ _ hb).1
  · obtain ⟨before, same⟩ := fewer _ _ _ h
    obtain ⟨owner, low⟩ := apart.owned before
    exact ⟨(same _ rfl).trans owner, low⟩
  · exact apart.single (fewer _ _ _ h).1 (fewer _ _ _ h').1

/-- At most an entry of kind `a` is added for descriptor `k` of task `t`; if it is a
socket's, the socket was nobody's and is now the task's. -/
structure Put (w w' : World) (t : Slot) (k : Fd) (a : Kind) : Prop where
  entries : ∀ u j b, holds w' u j b → (u = t ∧ j = k ∧ b = a) ∨ holds w u j b
  sockets : ∀ n, a ≠ .socket n → w'.sockets n = w.sockets n
  new : ∀ n, a = .socket n → w.sockets n = none ∧ w'.sockets n = some t ∧ 3 ≤ k.val

/-- A descriptor without entries of another kind may be given one. -/
theorem Apart.put {a : Kind} (apart : Apart w) (put : Put w w' t k a)
    (only : ∀ b, holds w t k b → b = a) : Apart w' := by
  -- A socket entry from before is not of the socket that is put in place.
  have old : ∀ {u j n}, holds w u j (.socket n) → a ≠ .socket n := by
    rintro u j n h rfl
    have owner := (apart.owned h).1
    rw [(put.new n rfl).1] at owner
    cases owner
  refine ⟨fun {u j b c} hb hc => ?_, fun {u j n} h => ?_, fun {u j j' n} h h' => ?_⟩
  · rcases put.entries _ _ _ hb with ⟨rfl, rfl, rfl⟩ | hb
    · rcases put.entries _ _ _ hc with ⟨-, -, rfl⟩ | hc
      · rfl
      · exact (only c hc).symm
    · rcases put.entries _ _ _ hc with ⟨rfl, rfl, rfl⟩ | hc
      · exact only b hb
      · exact apart.one hb hc
  · rcases put.entries _ _ _ h with ⟨rfl, rfl, same⟩ | h
    · exact (put.new n same.symm).2
    · rw [put.sockets n (old h)]
      exact apart.owned h
  · rcases put.entries _ _ _ h with ⟨rfl, rfl, same⟩ | h
    · rcases put.entries _ _ _ h' with ⟨-, rfl, -⟩ | h'
      · rfl
      · exact absurd same.symm (old h')
    · rcases put.entries _ _ _ h' with ⟨-, -, same⟩ | h'
      · exact absurd same.symm (old h)
      · exact apart.single h h'

/-! ### What leaves the entries alone -/

/-- The tables and the sockets are as they were, but for flags. -/
structure Level (w w' : World) : Prop where
  ready : ∀ t, (w'.tables t).ready = (w.tables t).ready
  fdMap : ∀ t, (w'.tables t).fdMap = (w.tables t).fdMap
  socketMap : ∀ t, (w'.tables t).socketMap = (w.tables t).socketMap
  pipeMap : ∀ t, (w'.tables t).pipeMap = (w.tables t).pipeMap
  sockets : w'.sockets = w.sockets

theorem Level.refl (w : World) : Level w w :=
  ⟨fun _ => rfl, fun _ => rfl, fun _ => rfl, fun _ => rfl, rfl⟩

theorem Level.trans (first : Level w w') (second : Level w' w'') : Level w w'' :=
  ⟨fun t => (second.ready t).trans (first.ready t), fun t => (second.fdMap t).trans (first.fdMap t),
    fun t => (second.socketMap t).trans (first.socketMap t),
    fun t => (second.pipeMap t).trans (first.pipeMap t), second.sockets.trans first.sockets⟩

theorem Level.of_tables (tables : w'.tables = w.tables) (sockets : w'.sockets = w.sockets) :
    Level w w' :=
  ⟨fun _ => by rw [tables], fun _ => by rw [tables], fun _ => by rw [tables],
    fun _ => by rw [tables], sockets⟩

theorem Level.holds (level : Level w w') (t : Slot) (k : Fd) (a : Kind) :
    holds w' t k a ↔ holds w t k a := by
  cases a with
  | file => simp only [Native.holds, level.ready, level.fdMap]
  | socket n => simp only [Native.holds, level.ready, level.socketMap]
  | pipe => simp only [Native.holds, level.ready, level.pipeMap]

theorem Level.fewer (level : Level w w') : Fewer w w' := fun t k a h =>
  ⟨(level.holds t k a).mp h, fun _ _ => by rw [level.sockets]⟩

theorem Apart.level (apart : Apart w) (level : Level w w') : Apart w' := apart.fewer level.fewer

theorem level_setFlags (n : UInt32) : Level w (w.setFlags t k n) := by
  refine ⟨fun u => ?_, fun u => ?_, fun u => ?_, fun u => ?_, rfl⟩
  all_goals
    by_cases h : u = t
    · rw [h, World.setFlags, mapTable_self]
    · rw [World.setFlags, mapTable_of_ne _ h]

theorem level_atmPosixOpen (ok : Bool) : Level w (atmPosixOpen w ok).1 := by
  unfold atmPosixOpen
  split
  · exact .refl w
  · split
    · exact .refl w
    · exact .of_tables rfl rfl

theorem level_atmPosixClose (b : Fin 64) : Level w (atmPosixClose w b) := .of_tables rfl rfl

theorem level_fdExecReset : Level w (fdExecReset w t) := by
  obtain ⟨f, same⟩ := fdExecReset_changes w t
  rw [same]
  exact .of_tables rfl rfl

theorem level_fdExecDrop : Level w (fdExecDrop w t) := by
  obtain ⟨f, same⟩ := fdExecDrop_changes w t
  rw [same]
  exact .of_tables rfl rfl

theorem level_fdExecSet (value : Bool) : Level w (fdExecSet w t k value).1 := by
  obtain ⟨f, same⟩ := fdExecSet_changes w t k value
  rw [same]
  exact .of_tables rfl rfl

theorem level_wake (waiter : Option Slot) : Level w (wake w waiter) := by
  unfold wake
  split
  · exact .refl w
  · split
    · exact .of_tables rfl rfl
    · exact .refl w

theorem level_mapPipe (f : Pipe → Pipe) : Level w (w.mapPipe i f) := .of_tables rfl rfl

theorem level_wakeOther : Level w (wakeOther w i e) := by
  cases e with
  | read => exact level_wake _
  | write => exact level_wake _

theorem level_pipeMaybeFree : Level w (pipeMaybeFree w i) := by
  unfold pipeMaybeFree
  split
  · exact level_mapPipe _
  · exact .refl w

/-! ### Single entries -/

theorem holds_mapTable_of_ne {u : Slot} (ne : u ≠ t) (f : Table → Table) (j : Fd) (a : Kind) :
    holds (w.mapTable t f) u j a ↔ holds w u j a := by
  cases a with
  | file => simp only [holds, mapTable_of_ne f ne]
  | socket n => simp only [holds, mapTable_of_ne f ne]
  | pipe => simp only [holds, mapTable_of_ne f ne]

/-- An entry after a pipe entry was set. -/
theorem holds_setPipe {p : Option (Fin 8 × PipeEnd)} {u : Slot} {j : Fd} {a : Kind}
    (h : holds (w.setPipe t k p) u j a) :
    (u = t ∧ j = k ∧ a = .pipe ∧ p ≠ none) ∨ holds w u j a := by
  by_cases here : u = t
  · subst here
    cases a with
    | file => exact .inr (by simpa only [holds, World.setPipe, mapTable_self] using h)
    | socket n => exact .inr (by simpa only [holds, World.setPipe, mapTable_self] using h)
    | pipe =>
      simp only [holds, World.setPipe, mapTable_self] at h
      by_cases same : j = k
      · subst same
        rw [update_self] at h
        exact .inl ⟨rfl, rfl, rfl, h.2⟩
      · rw [update_of_ne same] at h
        exact .inr h
  · exact .inr ((holds_mapTable_of_ne here _ j a).mp h)

/-- An entry after a file entry was set. -/
theorem holds_setFd {x : Option (Fin 64)} {u : Slot} {j : Fd} {a : Kind}
    (h : holds (w.setFd t k x) u j a) :
    (u = t ∧ j = k ∧ a = .file ∧ x ≠ none) ∨ holds w u j a := by
  by_cases here : u = t
  · subst here
    cases a with
    | pipe => exact .inr (by simpa only [holds, World.setFd, mapTable_self] using h)
    | socket n => exact .inr (by simpa only [holds, World.setFd, mapTable_self] using h)
    | file =>
      simp only [holds, World.setFd, mapTable_self] at h
      by_cases same : j = k
      · subst same
        rw [update_self] at h
        exact .inl ⟨rfl, rfl, rfl, h.2⟩
      · rw [update_of_ne same] at h
        exact .inr h
  · exact .inr ((holds_mapTable_of_ne here _ j a).mp h)

/-- An entry after a socket entry was set. -/
theorem holds_setSocket {x : Option (Fin 16)} {u : Slot} {j : Fd} {a : Kind}
    (h : holds (w.setSocket t k x) u j a) :
    (u = t ∧ j = k ∧ ∃ n, a = .socket n ∧ x = some n) ∨
      (holds w u j a ∧ ∀ n, a = .socket n → ¬(u = t ∧ j = k)) := by
  by_cases here : u = t
  · subst here
    cases a with
    | pipe => exact .inr ⟨by simpa only [holds, World.setSocket, mapTable_self] using h, nofun⟩
    | file => exact .inr ⟨by simpa only [holds, World.setSocket, mapTable_self] using h, nofun⟩
    | socket n =>
      simp only [holds, World.setSocket, mapTable_self] at h
      by_cases same : j = k
      · subst same
        rw [update_self] at h
        exact .inl ⟨rfl, rfl, n, rfl, h.2⟩
      · rw [update_of_ne same] at h
        exact .inr ⟨h, fun _ _ e => same e.2⟩
  · exact .inr ⟨(holds_mapTable_of_ne here _ j a).mp h, fun _ _ e => here e.1⟩

theorem fewer_setPipe_none : Fewer w (w.setPipe t k none) := by
  intro u j a h
  rcases holds_setPipe h with ⟨-, -, -, absent⟩ | before
  · exact absurd rfl absent
  · exact ⟨before, fun _ _ => rfl⟩

theorem fewer_setFd_none : Fewer w (w.setFd t k none) := by
  intro u j a h
  rcases holds_setFd h with ⟨-, -, -, absent⟩ | before
  · exact absurd rfl absent
  · exact ⟨before, fun _ _ => rfl⟩

theorem put_setPipe (p : Option (Fin 8 × PipeEnd)) : Put w (w.setPipe t k p) t k .pipe :=
  ⟨fun _ _ _ h => (holds_setPipe h).imp_left fun new => ⟨new.1, new.2.1, new.2.2.1⟩,
    fun _ _ => rfl, nofun⟩

theorem put_setFd (x : Option (Fin 64)) : Put w (w.setFd t k x) t k .file :=
  ⟨fun _ _ _ h => (holds_setFd h).imp_left fun new => ⟨new.1, new.2.1, new.2.2.1⟩,
    fun _ _ => rfl, nofun⟩

/-- Closing a socket of the task's own. -/
theorem fewer_closeSocket {n : Fin 16} (apart : Apart w) (held : holds w t k (.socket n)) :
    Fewer w { w.setSocket t k none with sockets := Function.update w.sockets n none } := by
  intro u j a h
  rcases holds_setSocket (w := w) (x := none) h with ⟨-, -, m, -, absent⟩ | ⟨before, elsewhere⟩
  · cases absent
  · refine ⟨before, fun m e => ?_⟩
    subst e
    have other : m ≠ n := by
      rintro rfl
      have owner := (apart.owned held).1
      rw [(apart.owned before).1] at owner
      obtain rfl : u = t := Option.some.inj owner
      exact elsewhere m rfl ⟨rfl, apart.single before held⟩
    exact update_of_ne other ..

/-- Giving the task a socket that was nobody's. -/
theorem put_openSocket {n : Fin 16} (nobody : w.sockets n = none) (low : 3 ≤ k.val) :
    Put w ({ w with sockets := Function.update w.sockets n (some t) }.setSocket t k (some n)) t k
      (.socket n) := by
  refine ⟨fun u j b h => ?_, fun m ne => ?_, fun m same => ?_⟩
  · rcases holds_setSocket (w := { w with sockets := Function.update w.sockets n (some t) }) h with
      ⟨task, number, m, kind, same⟩ | ⟨before, -⟩
    · obtain rfl := Option.some.inj same
      exact .inl ⟨task, number, kind⟩
    · refine .inr ?_
      cases b with
      | file => exact before
      | socket m => exact before
      | pipe => exact before
  · have other : m ≠ n := fun e => ne (by rw [e])
    exact update_of_ne other ..
  · obtain rfl := Kind.socket.inj same
    exact ⟨nobody, update_self .., low⟩

/-- A free number has no entry of any kind. -/
theorem not_holds_of_free (free : (w.tables t).free k = true) (a : Kind) : ¬holds w t k a := by
  simp only [Table.free, Bool.and_eq_true, Option.isNone_iff_eq_none] at free
  cases a with
  | file => exact fun h => h.2 free.1.1
  | socket n => exact fun h => by rw [holds, free.1.2] at h; cases h.2
  | pipe => exact fun h => h.2 free.2

theorem free_of_pipeFdFree (free : pipeFdFree w t k = true) :
    3 ≤ k.val ∧ (w.tables t).free k = true := by
  simpa [pipeFdFree] using free

/-! ### The calls on sockets and pipes -/

theorem socket_of_isFd {fd : Int} (open_ : nativeSocketIsFd w t fd = true) :
    ∃ k n, fdIdx fd = some k ∧ holds w t k (.socket n) ∧ w.sockets n = some t := by
  unfold nativeSocketIsFd at open_
  split at open_
  · cases open_
  · rename_i k idx
    simp only [Bool.and_eq_true, Option.any_eq_true, decide_eq_true_eq] at open_
    obtain ⟨⟨ready, -⟩, n, mapped, owner⟩ := open_
    exact ⟨k, n, idx, ⟨ready, mapped⟩, owner⟩

/-- With entries apart every socket entry is open. -/
theorem Apart.isFd {n : Fin 16} (apart : Apart w) (held : holds w t k (.socket n)) :
    nativeSocketIsFd w t k.val = true := by
  obtain ⟨owner, low⟩ := apart.owned held
  simp [nativeSocketIsFd, fdIdx_val, held.1, held.2, low, owner]

theorem nativeSocketClose_fewer (apart : Apart w) (fd : Int) :
    Fewer w (nativeSocketClose w t fd).1 := by
  unfold nativeSocketClose
  split
  · exact .refl w
  · rename_i k idx
    split
    · exact .refl w
    · rename_i n mapped
      split
      · rename_i open_
        obtain ⟨k', n', idx', held, -⟩ := socket_of_isFd open_
        obtain rfl : k = k' := Option.some.inj (idx.symm.trans idx')
        obtain rfl : n = n' := Option.some.inj (mapped.symm.trans held.2)
        exact fewer_closeSocket apart held
      · exact .refl w

theorem nativePipeClose_fewer (fd : Int) : Fewer w (nativePipeClose w t fd).1 := by
  unfold nativePipeClose
  split
  · exact .refl w
  · exact fewer_setPipe_none.trans
      (((level_mapPipe _).trans level_wakeOther).trans level_pipeMaybeFree).fewer

theorem nativePipeCreate_apart (apart : Apart w) : Apart (nativePipeCreate w t).1 := by
  unfold nativePipeCreate
  split
  · exact apart
  · split
    · exact apart
    · rename_i readFd foundRead
      split
      · exact apart
      · rename_i writeFd foundWrite
        split
        · exact apart
        · rename_i i _
          obtain ⟨-, freeRead⟩ := free_of_pipeFdFree (List.find?_some foundRead)
          have pickWrite := List.find?_some foundWrite
          simp only [Bool.and_eq_true, decide_eq_true_eq] at pickWrite
          obtain ⟨-, freeWrite⟩ := free_of_pipeFdFree pickWrite.2
          have made := apart.level (level_mapPipe (i := i)
            fun _ => { Pipe.zero with used := true, readRefs := 1, writeRefs := 1 })
          refine (made.put (put_setPipe _) fun b held => ?_).put (put_setPipe _) fun b held => ?_
          · exact absurd held (not_holds_of_free freeRead b)
          · rcases holds_setPipe held with ⟨-, same, -⟩ | before
            · exact absurd same (Fin.ne_of_gt pickWrite.1)
            · exact absurd before (not_holds_of_free freeWrite b)

theorem nativePipeDup_apart (apart : Apart w) (oldfd : Int) (newfd : Fd) :
    Apart (nativePipeDup w t oldfd newfd).1 := by
  unfold nativePipeDup
  split
  · exact apart
  · split
    · exact apart
    · rename_i free
      obtain ⟨-, free⟩ := free_of_pipeFdFree (by simpa using free : pipeFdFree w t newfd = true)
      refine (apart.level (level_mapPipe _)).put (put_setPipe _) fun b held => ?_
      exact absurd held (not_holds_of_free free b)

theorem nativeSocketOpen_apart (apart : Apart w) : Apart (nativeSocketOpen w t).1 := by
  unfold nativeSocketOpen
  split
  · exact apart
  · split
    · exact apart
    · rename_i k found
      split
      · exact apart
      · rename_i n unused
        obtain ⟨low, free⟩ := free_of_pipeFdFree (List.find?_some found)
        have nobody := List.find?_some unused
        rw [Option.isNone_iff_eq_none] at nobody
        exact apart.put (put_openSocket nobody low) fun b held =>
          absurd held (not_holds_of_free free b)

/-! ### The calls on descriptors -/

theorem nativeFdClose_fewer (apart : Apart w) (fd : Int) : Fewer w (nativeFdClose w t fd).1 := by
  unfold nativeFdClose
  split
  · exact (nativePipeClose_fewer fd).trans ((level_setFlags 0).trans (level_fdExecSet false)).fewer
  · split
    · split
      · exact .refl w
      · exact (nativeSocketClose_fewer apart fd).trans
          ((level_setFlags 0).trans (level_fdExecSet false)).fewer
    · split
      · exact .refl w
      · exact fewer_setFd_none.trans ((level_setFlags 0).trans
          ((level_fdExecSet false).trans (level_atmPosixClose _))).fewer

theorem nativeFdCloseOnExec_apart (apart : Apart w) : Apart (nativeFdCloseOnExec w t) := by
  unfold nativeFdCloseOnExec
  split
  · exact apart
  · refine List.foldlRecOn _ _ apart fun w' apart k _ => ?_
    split
    · exact apart.fewer (nativeFdClose_fewer apart _)
    · exact apart

theorem nativeFdOpen_apart (apart : Apart w) (ok : Bool) (flags : UInt32) :
    Apart (nativeFdOpen w t ok flags).1 := by
  unfold nativeFdOpen
  split
  · exact apart
  · rename_i k slot
    have free : (w.tables t).free k = true := by
      unfold nativeFdSlot at slot
      split at slot
      · cases slot
      · exact (free_of_pipeFdFree (List.find?_some slot)).2
    have opened := level_atmPosixOpen (w := w) ok
    split
    · rename_i eq
      rw [eq] at opened
      exact apart.level opened
    · rename_i w₁ b eq
      rw [eq] at opened
      have stored : Apart (w₁.setFd t k (some b)) := (apart.level opened).put (put_setFd _)
        fun a held => absurd ((opened.holds t k a).mp held) (not_holds_of_free free a)
      have flagged := (level_setFlags (w := w₁.setFd t k (some b)) (t := t) (k := k)
        (flags &&& (oAccmode ||| oNonblock))).trans
          (level_fdExecSet (t := t) (k := k) (flags &&& oCloexec ≠ 0))
      dsimp only
      split
      · rename_i eq'
        rw [eq'] at flagged
        exact stored.level flagged
      · rename_i eq'
        rw [eq'] at flagged
        exact (stored.level (flagged.trans (level_atmPosixClose b))).fewer fewer_setFd_none

theorem nativeFdPipe2_apart (apart : Apart w) (flags : UInt32) :
    Apart (nativeFdPipe2 w t flags).1 := by
  unfold nativeFdPipe2
  split
  · exact apart
  · have made := nativePipeCreate_apart (t := t) apart
    split
    · rename_i eq
      rwa [eq] at made
    · rename_i w₁ readFd writeFd eq
      rw [eq] at made
      dsimp only
      set w₂ := (w₁.setFlags t readFd (flags &&& oNonblock)).setFlags t writeFd
        (1 ||| (flags &&& oNonblock))
      have flagged : Apart w₂ := made.level ((level_setFlags _).trans (level_setFlags _))
      have undone : ∀ w' : World, Apart w' →
          Apart (nativePipeClose (nativePipeClose w' t readFd.val).1 t writeFd.val).1 :=
        fun w' apart => (apart.fewer (nativePipeClose_fewer _)).fewer (nativePipeClose_fewer _)
      have first := flagged.level (level_fdExecSet (t := t) (k := readFd) (flags &&& oCloexec ≠ 0))
      split
      · rename_i eq₁
        rw [eq₁] at first
        exact undone _ first
      · rename_i w₃ eq₁
        rw [eq₁] at first
        have second := first.level
          (level_fdExecSet (t := t) (k := writeFd) (flags &&& oCloexec ≠ 0))
        split
        · rename_i eq₂
          rw [eq₂] at second
          exact undone _ second
        · rename_i eq₂
          rw [eq₂] at second
          exact second

/-- Copying onto a number without a socket and a pipe. -/
theorem dupOnto_apart (apart : Apart w) (fd : Int) {newfd : Fd}
    (only : ∀ a, holds w t newfd a → a = .file) : Apart (dupOnto w t fd newfd).1 := by
  unfold dupOnto
  split
  · have dup := nativePipeDup_apart (t := t) apart fd newfd
    dsimp only
    split
    · exact dup
    · exact dup.level ((level_setFlags _).trans (level_fdExecSet false))
  · split
    · exact apart
    · rename_i k b _
      have opened := level_atmPosixOpen (w := w) (w.vfsUsed b)
      unfold atmPosixDup
      split
      · rename_i eq
        rw [eq] at opened
        exact apart.level opened
      · rename_i eq
        rw [eq] at opened
        refine Apart.level ((apart.level opened).put (put_setFd _) fun a held => ?_)
          ((level_setFlags _).trans (level_fdExecSet false))
        exact only a ((opened.holds t newfd a).mp held)

theorem nativeFdDupMin_apart (apart : Apart w) (fd minFd : Int) :
    Apart (nativeFdDupMin w t fd minFd).1 := by
  unfold nativeFdDupMin
  split
  · exact apart
  · split
    · exact apart
    · rename_i slot found
      have pick := List.find?_some found
      simp only [Bool.and_eq_true] at pick
      exact dupOnto_apart apart fd fun a held => absurd held (not_holds_of_free pick.2 a)

theorem closeTarget_fewer (apart : Apart w) (newfd : Fd) : Fewer w (closeTarget w t newfd) := by
  unfold closeTarget
  split
  · exact nativePipeClose_fewer _
  · split
    · exact nativeSocketClose_fewer apart _
    · split
      · exact .refl w
      · exact (level_atmPosixClose _).fewer

theorem entry_of_holds (held : holds w t k .pipe) : ∃ p, entry w t k = some p := by
  obtain ⟨p, mapped⟩ := Option.ne_none_iff_exists'.mp held.2
  exact ⟨p, by unfold entry; rw [if_pos held.1, mapped]⟩

/-- What is left at the target of a `dup2` is the entry of a file, if any. -/
theorem closeTarget_only (apart : Apart w) (counted : Counted w) (newfd : Fd) :
    ∀ a, holds (closeTarget w t newfd) t newfd a → a = .file := by
  intro a held
  have before := (closeTarget_fewer apart newfd t newfd a held).1
  by_cases isPipe : nativePipeIsFd w t newfd.val = true
  · obtain ⟨⟨k, i, e⟩, decoded⟩ := Option.isSome_iff_exists.mp isPipe
    obtain ⟨idx, ready, -, mapped, -⟩ := pipeDecode_some decoded
    obtain rfl : newfd = k := Option.some.inj ((fdIdx_val newfd).symm.trans idx)
    have pipe : holds w t newfd .pipe := ⟨ready, by rw [mapped]; exact nofun⟩
    obtain rfl := apart.one before pipe
    rw [closeTarget, if_pos isPipe] at held
    obtain ⟨p, there⟩ := entry_of_holds held
    rw [(nativePipeClose_move decoded).1, if_pos ⟨rfl, rfl⟩] at there
    cases there
  by_cases isSocket : nativeSocketIsFd w t newfd.val = true
  · obtain ⟨k, n, idx, socket, owner⟩ := socket_of_isFd isSocket
    obtain rfl : newfd = k := Option.some.inj ((fdIdx_val newfd).symm.trans idx)
    obtain rfl := apart.one before socket
    rw [closeTarget, if_neg isPipe, if_pos isSocket] at held
    simp only [nativeSocketClose, fdIdx_val, socket.2, if_pos isSocket] at held
    have there : holds (w.setSocket t newfd none) t newfd (.socket n) := held
    rcases holds_setSocket there with ⟨-, -, m, -, absent⟩ | ⟨-, elsewhere⟩
    · cases absent
    · exact absurd ⟨rfl, rfl⟩ (elsewhere n rfl)
  cases a with
  | file => rfl
  | socket n => exact absurd (apart.isFd before) isSocket
  | pipe =>
    obtain ⟨⟨i, e⟩, entered⟩ := entry_of_holds before
    refine absurd ?_ isPipe
    rw [nativePipeIsFd, counted.decode entered]
    rfl

theorem nativeFdDup2_apart (apart : Apart w) (counted : Counted w) (fd newfd : Int) :
    Apart (nativeFdDup2 w t fd newfd).1 := by
  unfold nativeFdDup2
  split
  · exact apart
  · split
    · exact apart
    · split
      · exact apart
      · exact dupOnto_apart (apart.fewer (closeTarget_fewer apart _)) fd
          (closeTarget_only apart counted _)

theorem nativeFdDup3_apart (apart : Apart w) (counted : Counted w) (fd newfd : Int)
    (flags : UInt32) : Apart (nativeFdDup3 w t fd newfd flags).1 := by
  unfold nativeFdDup3
  split
  · exact apart
  · have dup := nativeFdDup2_apart (t := t) apart counted fd newfd
    dsimp only
    split
    · exact dup
    · rename_i k _
      have set_ := dup.level (level_fdExecSet (t := t) (k := k) (flags &&& oCloexec ≠ 0))
      split
      · rename_i eq
        rwa [eq] at set_
      · rename_i eq
        rw [eq] at set_
        exact set_.fewer (nativeFdClose_fewer set_ _)

theorem nativeFdFcntlDupfd_apart (apart : Apart w) (fd : Int) (arg : Int32) (cloexec : Bool) :
    Apart (nativeFdFcntlDupfd w t fd arg cloexec).1 := by
  unfold nativeFdFcntlDupfd
  split
  · exact apart
  · have dup := nativeFdDupMin_apart (t := t) apart fd arg.toInt
    dsimp only
    split
    · exact dup
    · split
      · exact dup
      · rename_i k _
        have set_ := dup.level (level_fdExecSet (t := t) (k := k) true)
        split
        · rename_i eq
          rwa [eq] at set_
        · rename_i eq
          rw [eq] at set_
          exact set_.fewer (nativeFdClose_fewer set_ _)

/-! ### Setting tables up and clearing them -/

/-- A table is set up without entries; the others are as they were. -/
theorem freshTable_holds {u : Slot} {j : Fd} {a : Kind} {f : Table → Table}
    (maps : ∀ table, (f table).fdMap = table.fdMap ∧ (f table).socketMap = table.socketMap ∧
      (f table).pipeMap = table.pipeMap)
    (h : holds ((freshTable w t).mapTable t f) u j a) : u ≠ t ∧ holds w u j a := by
  set w₁ := w.mapTable t fun table => { table with fdMap := fun _ => none, flags := fun _ => 0 }
    with w₁_eq
  have reset : Level w₁ (fdExecReset w₁ t) := level_fdExecReset
  by_cases here : u = t
  · subst here
    have empty : ((freshTable w u).tables u).fdMap j = none ∧
        ((freshTable w u).tables u).socketMap j = none ∧
        ((freshTable w u).tables u).pipeMap j = none := by
      refine ⟨freshTable_fdMap w j, ?_, freshTable_pipeMap w j⟩
      unfold freshTable nativeDirTaskInit nativePipeTaskInit nativeSocketTaskInit
      rw [mapTable_self, mapTable_self, mapTable_self]
    cases a with
    | file =>
      rw [holds, mapTable_self, (maps _).1] at h
      exact absurd empty.1 h.2
    | socket n =>
      rw [holds, mapTable_self, (maps _).2.1, empty.2.1] at h
      cases h.2
    | pipe =>
      rw [holds, mapTable_self, (maps _).2.2] at h
      exact absurd empty.2.2 h.2
  · refine ⟨here, ?_⟩
    rw [holds_mapTable_of_ne here] at h
    unfold freshTable nativeDirTaskInit nativePipeTaskInit nativeSocketTaskInit at h
    rw [holds_mapTable_of_ne here, holds_mapTable_of_ne here, holds_mapTable_of_ne here,
      reset.holds, w₁_eq, holds_mapTable_of_ne here] at h
    exact h

theorem freshTable_sockets (w : World) : (freshTable w t).sockets = w.sockets :=
  (level_fdExecReset (t := t)
    (w := w.mapTable t fun table => { table with fdMap := fun _ => none, flags := fun _ => 0 })).sockets

theorem freshTable_fewer {f : Table → Table}
    (maps : ∀ table, (f table).fdMap = table.fdMap ∧ (f table).socketMap = table.socketMap ∧
      (f table).pipeMap = table.pipeMap) : Fewer w ((freshTable w t).mapTable t f) := by
  intro u j a h
  refine ⟨(freshTable_holds maps h).2, fun n _ => ?_⟩
  show (freshTable w t).sockets n = w.sockets n
  rw [freshTable_sockets]

/-- A table may become ready as it is set up. -/
theorem ready_maps (table : Table) : ({ table with ready := true } : Table).fdMap = table.fdMap ∧
    ({ table with ready := true } : Table).socketMap = table.socketMap ∧
    ({ table with ready := true } : Table).pipeMap = table.pipeMap := ⟨rfl, rfl, rfl⟩

theorem nativeFdTaskInit_apart (apart : Apart w) (tty : Fin 3 → Bool) :
    Apart (nativeFdTaskInit w t tty) := by
  unfold nativeFdTaskInit
  dsimp only
  -- As for the owners, the table might become ready first; it holds files only.
  refine (List.foldlRecOn (motive := fun (w : World) =>
    Apart (w.setReady t) ∧ ∀ k a, holds (w.setReady t) t k a → a = .file) _ _ ⟨?_, ?_⟩ ?_).1
  · exact apart.fewer (freshTable_fewer ready_maps)
  · exact fun k a held => absurd rfl (freshTable_holds ready_maps held).1
  · intro w' ⟨apart, files⟩ k _
    rw [setFlags_setReady, setFd_setReady]
    have opened : Level (w'.setReady t) ((atmPosixOpen w' (tty k)).1.setReady t) := by
      have := level_atmPosixOpen (w := w'.setReady t) (tty k)
      rwa [atmPosixOpen_setReady] at this
    constructor
    · refine ((apart.level opened).put (put_setFd _) fun a held => ?_).level (level_setFlags _)
      exact files _ a ((opened.holds ..).mp held)
    · intro j a held
      rcases holds_setFd (((level_setFlags _).holds ..).mp held) with ⟨-, -, file, -⟩ | before
      · exact file
      · exact files j a ((opened.holds ..).mp before)

/-- A loop whose rounds add no entry. -/
theorem fewer_foldl {f : World → Fd → World} (apart : Apart w)
    (round : ∀ w k, Apart w → Fewer w (f w k)) (ks : List Fd) : Fewer w (ks.foldl f w) := by
  refine (List.foldlRecOn (motive := fun w' => Apart w' ∧ Fewer w w') _ _ ⟨apart, .refl w⟩ ?_).2
  intro w' ⟨apart, fewer⟩ k _
  exact ⟨apart.fewer (round w' k apart), fewer.trans (round w' k apart)⟩

theorem nativePipeTaskCleanup_fewer (apart : Apart w) : Fewer w (nativePipeTaskCleanup w t) := by
  refine fewer_foldl apart (fun w k _ => ?_) _
  split
  · exact nativePipeClose_fewer _
  · exact .refl w

theorem nativeSocketTaskCleanup_fewer (apart : Apart w) : Fewer w (nativeSocketTaskCleanup w t) := by
  refine fewer_foldl apart (fun w k apart => ?_) _
  split
  · exact nativeSocketClose_fewer apart _
  · exact .refl w

theorem level_nativeDirTaskInit : Level w (nativeDirTaskInit w t) := by
  refine ⟨fun u => ?_, fun u => ?_, fun u => ?_, fun u => ?_, rfl⟩
  all_goals
    by_cases h : u = t
    · rw [h, nativeDirTaskInit, mapTable_self]
    · rw [nativeDirTaskInit, mapTable_of_ne _ h]

/-- A table is put away. -/
theorem fewer_unready : Fewer w (w.mapTable t fun table => { table with ready := false }) := by
  intro u j a held
  by_cases here : u = t
  · subst here
    have closed := holds_ready held
    rw [mapTable_self] at closed
    cases closed
  · exact ⟨(holds_mapTable_of_ne here ..).mp held, fun _ _ => rfl⟩

theorem nativeFdTaskCleanup_fewer (apart : Apart w) : Fewer w (nativeFdTaskCleanup w t) := by
  rw [nativeFdTaskCleanup_eq]
  split
  · exact .refl w
  · have dirs : Level w (nativeDirTaskInit w t) := level_nativeDirTaskInit
    have pipes := dirs.fewer.trans (nativePipeTaskCleanup_fewer (t := t) (apart.level dirs))
    have sockets := pipes.trans (nativeSocketTaskCleanup_fewer (t := t) (apart.fewer pipes))
    have files := sockets.trans (fewer_foldl (apart.fewer sockets) (f := cleanupTurn t)
      (fun w k _ => by
          unfold cleanupTurn
          split
          · exact fewer_setFd_none.trans (level_setFlags 0).fewer
          · exact (level_atmPosixClose _).fewer.trans
              (fewer_setFd_none.trans (level_setFlags 0).fewer)) (List.finRange 32))
    exact (files.trans fewer_unready).trans level_fdExecDrop.fewer

theorem Level.put (level : Level w w') (a : Kind) (files : ∀ n, a ≠ .socket n) : Put w w' t k a :=
  ⟨fun u j b h => .inr ((level.holds u j b).mp h), fun _ _ => by rw [level.sockets],
    fun n e => absurd e (files n)⟩

theorem Put.after {a : Kind} (level : Level w w') (put : Put w' w'' t k a) : Put w w'' t k a :=
  ⟨fun u j b h => (put.entries u j b h).imp_right (level.holds u j b).mp,
    fun n ne => by rw [put.sockets n ne, level.sockets],
    fun n e => by rw [← level.sockets]; exact put.new n e⟩

theorem Put.before {a : Kind} (put : Put w w' t k a) (level : Level w' w'') : Put w w'' t k a :=
  ⟨fun u j b h => put.entries u j b ((level.holds u j b).mp h),
    fun n ne => by rw [level.sockets, put.sockets n ne],
    fun n e => by rw [level.sockets]; exact put.new n e⟩

/-- The child gets at most the one entry. -/
theorem inheritFd_put (child parent : Slot) (k : Fd) :
    ∃ a, Put w (inheritFd child parent w k).1 child k a := by
  unfold inheritFd
  dsimp only
  split
  · exact ⟨.file, (Level.refl w).put _ nofun⟩
  · split
    · rename_i b _
      have opened := level_atmPosixOpen (w := w) (w.vfsUsed b)
      refine ⟨.file, ?_⟩
      unfold atmPosixDup
      split
      · rename_i eq
        rw [eq] at opened
        exact opened.put _ nofun
      · rename_i eq
        rw [eq] at opened
        exact (Put.after opened (put_setFd _)).before ((level_setFlags _).trans (level_fdExecSet _))
    · split
      · refine ⟨.pipe, ?_⟩
        have inherited : Put w (nativePipeInherit w child parent k).1 child k .pipe := by
          unfold nativePipeInherit
          split
          · exact (Level.refl w).put _ nofun
          · split
            · exact (Level.refl w).put _ nofun
            · exact .after (level_mapPipe _) (put_setPipe _)
        split
        · exact inherited
        · exact inherited.before ((level_setFlags _).trans (level_fdExecSet _))
      · exact ⟨.file, (Level.refl w).put _ nofun⟩

theorem inheritFds_apart {ks : List Fd} (apart : Apart w) (child parent : Slot) (distinct : ks.Nodup)
    (empty : ∀ k ∈ ks, ∀ a, ¬holds w child k a) : Apart (inheritFds child parent w ks).1 := by
  induction ks generalizing w with
  | nil => exact apart
  | cons k ks ih =>
    obtain ⟨a, put⟩ := inheritFd_put (w := w) child parent k
    obtain ⟨new, distinct⟩ := List.nodup_cons.mp distinct
    have one := apart.put put fun b held => absurd held (empty k (List.mem_cons_self ..) b)
    unfold inheritFds
    split
    · rename_i w₁ eq
      rw [eq] at put one
      refine ih one distinct fun j mem b held => ?_
      rcases put.entries child j b held with ⟨-, rfl, -⟩ | before
      · exact new mem
      · exact empty j (List.mem_cons_of_mem _ mem) b before
    · rename_i eq
      rwa [eq] at one

theorem nativeFdTaskInherit_apart (apart : Apart w) (child parent : Slot) :
    Apart (nativeFdTaskInherit w child parent).1 := by
  unfold nativeFdTaskInherit
  split
  · exact apart
  · dsimp only
    have fresh := apart.fewer (freshTable_fewer (t := child) ready_maps)
    split
    · exact fresh.fewer (nativeFdTaskCleanup_fewer fresh)
    · have all := inheritFds_apart fresh child parent (List.nodup_finRange 32) fun k _ a held =>
        (freshTable_holds ready_maps held).1 rfl
      split
      · rename_i eq
        rwa [eq] at all
      · rename_i eq
        rw [eq] at all
        exact all.fewer (nativeFdTaskCleanup_fewer all)

/-! ### Streams -/

theorem level_nativeDirOpen (ok : Bool) : Level w (nativeDirOpen w t ok) := by
  unfold nativeDirOpen
  split
  · exact .refl w
  · split
    · exact .refl w
    · split
      · refine ⟨fun u => ?_, fun u => ?_, fun u => ?_, fun u => ?_, rfl⟩
        all_goals
          by_cases h : u = t
          · rw [h, mapTable_self]
          · rw [mapTable_of_ne _ h]
      · exact .refl w

theorem level_resumeRead {count : Nat} {nonblock : Bool} {r : Option (Int × List UInt8)}
    (done : resumeRead w t i count nonblock = some (w', r)) : Level w w' := by
  obtain ⟨s, p, rfl⟩ := resumeRead_changes done
  exact .of_tables rfl rfl

theorem level_resumeWrite {data : List UInt8} {nonblock : Bool} {r : Option Int}
    (done : resumeWrite w t i data nonblock = some (w', r)) : Level w w' := by
  obtain ⟨s, p, rfl⟩ := resumeWrite_changes done
  exact .of_tables rfl rfl

/-- The calls keep the entries apart. -/
theorem Apart.step {op : Op} (apart : Apart w) (counted : Counted w) (step : perform w op = some w') :
    Apart w' := by
  cases op with
  | taskInit t tty =>
    cases step
    exact nativeFdTaskInit_apart apart tty
  | taskCleanup t =>
    cases step
    exact apart.fewer (nativeFdTaskCleanup_fewer apart)
  | closeOnExec t =>
    cases step
    exact nativeFdCloseOnExec_apart apart
  | taskInherit child parent =>
    cases step
    exact nativeFdTaskInherit_apart apart child parent
  | openFile t ok flags =>
    cases step
    exact nativeFdOpen_apart apart ok flags
  | pipe2 t flags =>
    cases step
    exact nativeFdPipe2_apart apart flags
  | close t fd =>
    cases step
    exact apart.fewer (nativeFdClose_fewer apart fd)
  | dup t fd =>
    cases step
    exact nativeFdDupMin_apart apart fd 0
  | dup2 t fd newfd =>
    cases step
    exact nativeFdDup2_apart apart counted fd newfd
  | dup3 t fd newfd flags =>
    cases step
    exact nativeFdDup3_apart apart counted fd newfd flags
  | dupfd t fd arg cloexec =>
    cases step
    exact nativeFdFcntlDupfd_apart apart fd arg cloexec
  | socketOpen t =>
    cases step
    exact nativeSocketOpen_apart apart
  | dirOpen t ok =>
    cases step
    exact apart.level (level_nativeDirOpen ok)
  | read t fd count nonblock =>
    exact perform_read apart (fun done => apart.level (level_resumeRead done)) step
  | readAgain t i count nonblock =>
    obtain ⟨⟨w₁, r⟩, done, rfl⟩ := map_eq_some_iff.mp step
    exact apart.level (level_resumeRead done)
  | write t fd data nonblock =>
    exact perform_write apart (fun done => apart.level (level_resumeWrite done)) step
  | writeAgain t i data nonblock =>
    obtain ⟨⟨w₁, r⟩, done, rfl⟩ := map_eq_some_iff.mp step
    exact apart.level (level_resumeWrite done)

end AtmKoala.Native
