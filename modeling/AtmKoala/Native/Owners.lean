import AtmKoala.Native.Pipes

/-!
Descriptors of the VFS behind native descriptors.

* `Owned`: every VFS entry of a table names an open descriptor of the VFS, and no
  two entries name the same one.
* `Untouched` is what the functions on pipes, sockets and flags leave alone.
* `Lands`: the calls that duplicate a pipe do not aim at a VFS descriptor.
  `native_fd_dup2` closes the target and relies on the copy to overwrite the
  entry, and the copy of a pipe refuses an entry that is taken.
* `run_owned`: every run of calls that land.
-/

namespace AtmKoala.Native

open Lib
open Sched (Slot)
open Option (map_eq_some_iff)

variable {w w' w'' : World} {t : Slot} {k : Fd} {i : Fin 8} {e : PipeEnd} {b : Fin 64}

/-- The VFS descriptor behind descriptor `k` of task `t`. -/
def backend (w : World) (t : Slot) (k : Fd) : Option (Fin 64) :=
  if (w.tables t).ready then (w.tables t).fdMap k else none

/-- **VFS descriptors have one owner.** The first three are the console's. -/
structure Owned (w : World) : Prop where
  used : ∀ {t k b}, backend w t k = some b → w.vfsUsed b = true
  high : ∀ {t k b}, backend w t k = some b → 3 ≤ b.val
  single : ∀ {t k u j b}, backend w t k = some b → backend w u j = some b → t = u ∧ k = j

/-! ### What leaves the VFS alone -/

structure Untouched (w w' : World) : Prop where
  ready : ∀ t, (w'.tables t).ready = (w.tables t).ready
  fdMap : ∀ t, (w'.tables t).fdMap = (w.tables t).fdMap
  vfsUsed : w'.vfsUsed = w.vfsUsed

theorem Untouched.refl (w : World) : Untouched w w := ⟨fun _ => rfl, fun _ => rfl, rfl⟩

theorem Untouched.trans (first : Untouched w w') (second : Untouched w' w'') : Untouched w w'' :=
  ⟨fun t => (second.ready t).trans (first.ready t),
    fun t => (second.fdMap t).trans (first.fdMap t), second.vfsUsed.trans first.vfsUsed⟩

theorem Untouched.backend (same : Untouched w w') (t : Slot) (k : Fd) :
    backend w' t k = backend w t k := by
  unfold Native.backend
  rw [same.ready, same.fdMap]

theorem untouched_mapTable {f : Table → Table} (ready : ∀ table, (f table).ready = table.ready)
    (fdMap : ∀ table, (f table).fdMap = table.fdMap) : Untouched w (w.mapTable t f) := by
  refine ⟨fun u => ?_, fun u => ?_, rfl⟩
  · by_cases h : u = t
    · rw [h, mapTable_self, ready]
    · rw [mapTable_of_ne _ h]
  · by_cases h : u = t
    · rw [h, mapTable_self, fdMap]
    · rw [mapTable_of_ne _ h]

theorem untouched_setPipe (p : Option (Fin 8 × PipeEnd)) : Untouched w (w.setPipe t k p) :=
  untouched_mapTable (fun _ => rfl) (fun _ => rfl)

theorem untouched_setSocket (n : Option (Fin 16)) : Untouched w (w.setSocket t k n) :=
  untouched_mapTable (fun _ => rfl) (fun _ => rfl)

theorem untouched_setFlags (n : UInt32) : Untouched w (w.setFlags t k n) :=
  untouched_mapTable (fun _ => rfl) (fun _ => rfl)

theorem untouched_mapPipe (f : Pipe → Pipe) : Untouched w (w.mapPipe i f) :=
  ⟨fun _ => rfl, fun _ => rfl, rfl⟩

theorem untouched_fdExecReset : Untouched w (fdExecReset w t) := by
  obtain ⟨f, same⟩ := fdExecReset_changes w t
  rw [same]
  exact ⟨fun _ => rfl, fun _ => rfl, rfl⟩

theorem untouched_fdExecDrop : Untouched w (fdExecDrop w t) := by
  obtain ⟨f, same⟩ := fdExecDrop_changes w t
  rw [same]
  exact ⟨fun _ => rfl, fun _ => rfl, rfl⟩

theorem untouched_fdExecSet (value : Bool) : Untouched w (fdExecSet w t k value).1 := by
  obtain ⟨f, same⟩ := fdExecSet_changes w t k value
  rw [same]
  exact ⟨fun _ => rfl, fun _ => rfl, rfl⟩

theorem untouched_wake (waiter : Option Slot) : Untouched w (wake w waiter) := by
  unfold wake
  split
  · exact .refl w
  · split
    · exact ⟨fun _ => rfl, fun _ => rfl, rfl⟩
    · exact .refl w

theorem untouched_wakeOther : Untouched w (wakeOther w i e) := by
  cases e with
  | read => exact untouched_wake _
  | write => exact untouched_wake _

theorem untouched_pipeMaybeFree : Untouched w (pipeMaybeFree w i) := by
  unfold pipeMaybeFree
  split
  · exact untouched_mapPipe _
  · exact .refl _

theorem untouched_nativePipeClose (fd : Int) : Untouched w (nativePipeClose w t fd).1 := by
  unfold nativePipeClose
  split
  · exact .refl w
  · exact (untouched_setPipe none).trans ((untouched_mapPipe _).trans
      (untouched_wakeOther.trans untouched_pipeMaybeFree))

theorem untouched_nativePipeTaskCleanup : Untouched w (nativePipeTaskCleanup w t) := by
  unfold nativePipeTaskCleanup
  refine List.foldlRecOn _ _ (.refl w) fun w' same k _ => ?_
  split
  · exact same.trans (untouched_nativePipeClose _)
  · exact same

theorem untouched_nativePipeDup (oldfd : Int) (newfd : Fd) :
    Untouched w (nativePipeDup w t oldfd newfd).1 := by
  unfold nativePipeDup
  split
  · exact .refl w
  · split
    · exact .refl w
    · exact (untouched_mapPipe _).trans (untouched_setPipe _)

theorem untouched_nativePipeInherit (child parent : Slot) (k : Fd) :
    Untouched w (nativePipeInherit w child parent k).1 := by
  unfold nativePipeInherit
  split
  · exact .refl w
  · split
    · exact .refl w
    · exact (untouched_mapPipe _).trans (untouched_setPipe _)

theorem untouched_nativePipeCreate : Untouched w (nativePipeCreate w t).1 := by
  unfold nativePipeCreate
  split
  · exact .refl w
  · split
    · exact .refl w
    · split
      · exact .refl w
      · split
        · exact .refl w
        · exact (untouched_mapPipe _).trans ((untouched_setPipe _).trans (untouched_setPipe _))

theorem untouched_nativeSocketClose (fd : Int) : Untouched w (nativeSocketClose w t fd).1 := by
  unfold nativeSocketClose
  split
  · exact .refl w
  · split
    · exact .refl w
    · split
      · have := untouched_setSocket (w := w) (t := t) (k := ‹Fd›) none
        exact ⟨this.ready, this.fdMap, this.vfsUsed⟩
      · exact .refl w

theorem untouched_nativeSocketTaskCleanup : Untouched w (nativeSocketTaskCleanup w t) := by
  unfold nativeSocketTaskCleanup
  refine List.foldlRecOn _ _ (.refl w) fun w' same k _ => ?_
  split
  · exact same.trans (untouched_nativeSocketClose _)
  · exact same

theorem untouched_nativeSocketOpen : Untouched w (nativeSocketOpen w t).1 := by
  unfold nativeSocketOpen
  split
  · exact .refl w
  · split
    · exact .refl w
    · split
      · exact .refl w
      · rename_i k _ _ n _
        have := untouched_setSocket (t := t) (k := k) (some n)
          (w := { w with sockets := Function.update w.sockets n (some t) })
        exact ⟨this.ready, this.fdMap, this.vfsUsed⟩

theorem untouched_nativeDirOpen (ok : Bool) : Untouched w (nativeDirOpen w t ok) := by
  unfold nativeDirOpen
  split
  · exact .refl w
  · split
    · exact .refl w
    · split
      · exact untouched_mapTable (fun _ => rfl) (fun _ => rfl)
      · exact .refl w

theorem resumeRead_untouched {count : Nat} {nonblock : Bool} {r : Option (Int × List UInt8)}
    (done : resumeRead w t i count nonblock = some (w', r)) : Untouched w w' := by
  obtain ⟨s, p, rfl⟩ := resumeRead_changes done
  exact ⟨fun _ => rfl, fun _ => rfl, rfl⟩

theorem resumeWrite_untouched {data : List UInt8} {nonblock : Bool} {r : Option Int}
    (done : resumeWrite w t i data nonblock = some (w', r)) : Untouched w w' := by
  obtain ⟨s, p, rfl⟩ := resumeWrite_changes done
  exact ⟨fun _ => rfl, fun _ => rfl, rfl⟩

/-! ### Rules for owners -/

/-- Entries may be forgotten. -/
theorem Owned.fewer (owned : Owned w)
    (fewer : ∀ t k b, backend w' t k = some b → backend w t k = some b)
    (vfsUsed : w'.vfsUsed = w.vfsUsed) : Owned w' where
  used named := by
    rw [vfsUsed]
    exact owned.used (fewer _ _ _ named)
  high named := owned.high (fewer _ _ _ named)
  single first second := owned.single (fewer _ _ _ first) (fewer _ _ _ second)

theorem Owned.untouched (owned : Owned w) (same : Untouched w w') : Owned w' := by
  refine owned.fewer (fun t k b named => ?_) same.vfsUsed
  rwa [same.backend] at named

theorem backend_setFd (x : Option (Fin 64)) (u : Slot) (j : Fd) :
    backend (w.setFd t k x) u j =
      if u = t ∧ j = k ∧ (w.tables t).ready = true then x else backend w u j := by
  unfold backend World.setFd
  by_cases h : u = t
  · subst h
    rw [mapTable_self]
    by_cases hj : j = k
    · subst hj
      by_cases ready : (w.tables u).ready = true
      · simp [ready]
      · simp [ready]
    · simp [hj]
  · rw [mapTable_of_ne _ h]
    simp [h]

theorem Owned.forget (owned : Owned w) : Owned (w.setFd t k none) := by
  refine owned.fewer (fun u j b named => ?_) rfl
  rw [backend_setFd] at named
  split at named
  · cases named
  · exact named

theorem atmPosixOpen_some {ok : Bool} (opened : atmPosixOpen w ok = (w', some b)) :
    w' = { w with vfsUsed := Function.update w.vfsUsed b true } ∧ w.vfsUsed b = false ∧
      3 ≤ b.val := by
  unfold atmPosixOpen at opened
  split at opened
  · cases opened
  · split at opened
    · cases opened
    · rename_i c found
      cases opened
      have free := List.find?_some found
      simp only [decide_eq_true_eq] at free
      exact ⟨rfl, free.2, free.1⟩

theorem atmPosixOpen_none {ok : Bool} (opened : atmPosixOpen w ok = (w', none)) : w' = w := by
  unfold atmPosixOpen at opened
  split at opened
  · cases opened
    rfl
  · split at opened
    · cases opened
      rfl
    · cases opened

/-- A free descriptor goes into a table, over whatever was there. -/
theorem Owned.put (owned : Owned w) (free : w.vfsUsed b = false) (high : 3 ≤ b.val) :
    Owned (({ w with vfsUsed := Function.update w.vfsUsed b true } : World).setFd t k (some b)) := by
  have unnamed : ∀ u j, backend w u j ≠ some b := by
    intro u j named
    rw [owned.used named] at free
    cases free
  have cases_ : ∀ {u j c},
      backend (({ w with vfsUsed := Function.update w.vfsUsed b true } : World).setFd t k (some b)) u j =
        some c → (u = t ∧ j = k ∧ c = b) ∨ (c ≠ b ∧ backend w u j = some c) := by
    intro u j c named
    rw [backend_setFd] at named
    split at named
    · rename_i here
      exact .inl ⟨here.1, here.2.1, (Option.some.inj named).symm⟩
    · refine .inr ⟨?_, named⟩
      rintro rfl
      exact unnamed u j named
  constructor
  · intro u j c named
    show Function.update w.vfsUsed b true c = true
    rcases cases_ named with ⟨-, -, rfl⟩ | ⟨ne, old⟩
    · exact Function.update_self ..
    · rw [Function.update_of_ne ne]
      exact owned.used old
  · intro u j c named
    rcases cases_ named with ⟨-, -, rfl⟩ | ⟨-, old⟩
    · exact high
    · exact owned.high old
  · intro u j u' j' c first second
    rcases cases_ first with ⟨rfl, rfl, rfl⟩ | ⟨ne, old⟩
    · rcases cases_ second with ⟨rfl, rfl, -⟩ | ⟨ne, -⟩
      · exact ⟨rfl, rfl⟩
      · exact absurd rfl ne
    · rcases cases_ second with ⟨-, -, rfl⟩ | ⟨-, old'⟩
      · exact absurd rfl ne
      · exact owned.single old old'

theorem Owned.store {ok : Bool} (owned : Owned w) (opened : atmPosixOpen w ok = (w', some b)) :
    Owned (w'.setFd t k (some b)) := by
  obtain ⟨rfl, free, high⟩ := atmPosixOpen_some opened
  exact owned.put free high

/-- A descriptor is closed and its entry emptied. -/
theorem Owned.close (owned : Owned w) (named : backend w t k = some b) :
    Owned ((atmPosixClose w b).setFd t k none) := by
  have ready : (w.tables t).ready = true := by
    by_contra unready
    unfold backend at named
    rw [if_neg unready] at named
    cases named
  have left : ∀ {u j c}, backend ((atmPosixClose w b).setFd t k none) u j = some c →
      c ≠ b ∧ backend w u j = some c := by
    intro u j c found
    rw [backend_setFd] at found
    split at found
    · cases found
    · rename_i elsewhere
      have old : backend w u j = some c := found
      refine ⟨?_, old⟩
      rintro rfl
      obtain ⟨rfl, rfl⟩ := owned.single old named
      exact elsewhere ⟨rfl, rfl, ready⟩
  constructor
  · intro u j c found
    obtain ⟨ne, old⟩ := left found
    show Function.update w.vfsUsed b false c = true
    rw [Function.update_of_ne ne]
    exact owned.used old
  · intro u j c found
    exact owned.high (left found).2
  · intro u j u' j' c first second
    exact owned.single (left first).2 (left second).2

theorem backend_of_valid {fd : Int} (valid : fdValid w t fd = some (k, b)) :
    fdIdx fd = some k ∧ backend w t k = some b := by
  unfold fdValid at valid
  split at valid
  · cases valid
  · rename_i k' idx
    split at valid
    · rename_i ready
      obtain ⟨c, mapped, same⟩ := map_eq_some_iff.mp valid
      cases same
      refine ⟨idx, ?_⟩
      unfold backend
      rw [if_pos ready, mapped]
    · cases valid

/-! ### Owners through the calls -/

theorem freshTable_fdMap (w : World) (k : Fd) : ((freshTable w t).tables t).fdMap k = none := by
  have reset := untouched_fdExecReset (t := t)
    (w := w.mapTable t fun table => { table with fdMap := fun _ => none, flags := fun _ => 0 })
  unfold freshTable nativeDirTaskInit nativePipeTaskInit nativeSocketTaskInit
  rw [mapTable_self, mapTable_self, mapTable_self, reset.fdMap, mapTable_self]

theorem freshTable_others (w : World) {u : Slot} (ne : u ≠ t) :
    ((freshTable w t).tables u).ready = (w.tables u).ready ∧
      ((freshTable w t).tables u).fdMap = (w.tables u).fdMap := by
  have reset := untouched_fdExecReset (t := t)
    (w := w.mapTable t fun table => { table with fdMap := fun _ => none, flags := fun _ => 0 })
  unfold freshTable nativeDirTaskInit nativePipeTaskInit nativeSocketTaskInit
  rw [mapTable_of_ne _ ne, mapTable_of_ne _ ne, mapTable_of_ne _ ne, reset.ready, reset.fdMap,
    mapTable_of_ne _ ne]
  exact ⟨rfl, rfl⟩

theorem freshTable_vfsUsed (w : World) : (freshTable w t).vfsUsed = w.vfsUsed := by
  have reset := untouched_fdExecReset (t := t)
    (w := w.mapTable t fun table => { table with fdMap := fun _ => none, flags := fun _ => 0 })
  exact reset.vfsUsed

/-- A table may be emptied, and made ready at the same time. -/
theorem Owned.fresh (owned : Owned w) {f : Table → Table}
    (fdMap : ∀ table, (f table).fdMap = table.fdMap) : Owned ((freshTable w t).mapTable t f) := by
  refine owned.fewer (fun u j b named => ?_) (freshTable_vfsUsed w)
  unfold backend at named ⊢
  by_cases h : u = t
  · subst h
    rw [mapTable_self, fdMap, freshTable_fdMap] at named
    split at named
    · cases named
    · cases named
  · rw [mapTable_of_ne _ h, (freshTable_others w h).1, (freshTable_others w h).2] at named
    exact named

/-- An unopened console leaves its entry empty. -/
theorem Owned.storeOption {ok : Bool} {x : Option (Fin 64)} (owned : Owned w)
    (opened : atmPosixOpen w ok = (w', x)) : Owned (w'.setFd t k x) := by
  cases x with
  | none =>
    rw [atmPosixOpen_none opened]
    exact owned.forget
  | some b => exact owned.store opened

/-- A table that is set up. -/
def World.setReady (w : World) (t : Slot) : World :=
  w.mapTable t fun table => { table with ready := true }

theorem setFd_setReady (x : Option (Fin 64)) : (w.setFd t k x).setReady t = (w.setReady t).setFd t k x := by
  simp [World.setReady, World.setFd, World.mapTable]

theorem setFlags_setReady (n : UInt32) : (w.setFlags t k n).setReady t = (w.setReady t).setFlags t k n := by
  simp [World.setReady, World.setFlags, World.mapTable]

theorem atmPosixOpen_setReady (ok : Bool) :
    atmPosixOpen (w.setReady t) ok = ((atmPosixOpen w ok).1.setReady t, (atmPosixOpen w ok).2) := by
  unfold atmPosixOpen
  split
  · rfl
  · have same : (w.setReady t).vfsUsed = w.vfsUsed := rfl
    rw [same]
    split
    · rfl
    · rfl

theorem nativeFdTaskInit_owned (owned : Owned w) (tty : Fin 3 → Bool) :
    Owned (nativeFdTaskInit w t tty) := by
  unfold nativeFdTaskInit
  dsimp only
  -- The table becomes ready at the end, but it might as well at the start.
  refine List.foldlRecOn (motive := fun (w : World) => Owned (w.setReady t)) _ _ ?_ fun w' owned k _ => ?_
  · exact owned.fresh fun _ => rfl
  · rw [setFlags_setReady, setFd_setReady]
    exact (owned.storeOption (atmPosixOpen_setReady (tty k))).untouched (untouched_setFlags _)

theorem nativeFdTaskCleanup_owned (owned : Owned w) : Owned (nativeFdTaskCleanup w t) := by
  rw [nativeFdTaskCleanup_eq]
  split
  · exact owned
  · rename_i ready
    have open_ : (w.tables t).ready = true := by simpa using ready
    have dirs : Untouched w (nativeDirTaskInit w t) := untouched_mapTable (fun _ => rfl) (fun _ => rfl)
    have same : Untouched w
        (nativeSocketTaskCleanup (nativePipeTaskCleanup (nativeDirTaskInit w t) t) t) :=
      dirs.trans (untouched_nativePipeTaskCleanup.trans untouched_nativeSocketTaskCleanup)
    set w₁ := nativeSocketTaskCleanup (nativePipeTaskCleanup (nativeDirTaskInit w t) t) t
    have closed : Owned ((List.finRange 32).foldl (cleanupTurn t) w₁) ∧
        (((List.finRange 32).foldl (cleanupTurn t) w₁).tables t).ready = true := by
      refine List.foldlRecOn (motive := fun w => Owned w ∧ (w.tables t).ready = true) _ _
        ⟨owned.untouched same, (same.ready t).trans open_⟩ ?_
      rintro w' ⟨owned, ready⟩ k -
      unfold cleanupTurn
      cases mapped : (w'.tables t).fdMap k with
      | none =>
        refine ⟨owned.forget.untouched (untouched_setFlags 0), ?_⟩
        simpa [World.setFlags, World.setFd, World.mapTable] using ready
      | some b =>
        have named : backend w' t k = some b := by
          unfold backend
          rw [if_pos ready, mapped]
        refine ⟨(owned.close named).untouched (untouched_setFlags 0), ?_⟩
        simpa [World.setFlags, World.setFd, World.mapTable, atmPosixClose] using ready
    generalize (List.finRange 32).foldl _ w₁ = w₂ at closed ⊢
    suffices unready : Owned (w₂.mapTable t fun table => { table with ready := false }) from
      unready.untouched untouched_fdExecDrop
    refine closed.1.fewer (fun u j b named => ?_) rfl
    unfold backend at named ⊢
    by_cases h : u = t
    · subst h
      rw [mapTable_self] at named
      cases named
    · rwa [mapTable_of_ne _ h] at named

theorem nativeFdClose_owned (owned : Owned w) (fd : Int) : Owned (nativeFdClose w t fd).1 := by
  unfold nativeFdClose
  split
  · exact owned.untouched ((untouched_nativePipeClose fd).trans
      ((untouched_setFlags 0).trans (untouched_fdExecSet false)))
  · split
    · split
      · exact owned
      · exact owned.untouched ((untouched_nativeSocketClose fd).trans
          ((untouched_setFlags 0).trans (untouched_fdExecSet false)))
    · split
      · exact owned
      · rename_i k b valid
        obtain ⟨-, named⟩ := backend_of_valid valid
        dsimp only
        have closed := owned.close named
        have same := (untouched_setFlags (w := w.setFd t k none) (t := t) (k := k) 0).trans
          (untouched_fdExecSet (t := t) (k := k) false)
        -- Closing comes last in the source; the entry is empty by then.
        refine closed.untouched ⟨fun u => same.ready u, fun u => same.fdMap u, ?_⟩
        show Function.update _ b false = Function.update w.vfsUsed b false
        rw [same.vfsUsed]
        rfl

theorem nativeFdCloseOnExec_owned (owned : Owned w) : Owned (nativeFdCloseOnExec w t) := by
  unfold nativeFdCloseOnExec
  split
  · exact owned
  · refine List.foldlRecOn _ _ owned fun w' owned k _ => ?_
    split
    · exact nativeFdClose_owned owned _
    · exact owned

theorem nativeFdOpen_owned (owned : Owned w) (ok : Bool) (flags : UInt32) :
    Owned (nativeFdOpen w t ok flags).1 := by
  unfold nativeFdOpen
  split
  · exact owned
  · rename_i k found
    split
    · rename_i eq
      rw [atmPosixOpen_none eq]
      exact owned
    · rename_i w₁ b eq
      dsimp only
      have stored : Owned (w₁.setFd t k (some b)) := owned.store eq
      have flagged := stored.untouched (untouched_setFlags (t := t) (k := k)
        (flags &&& (oAccmode ||| oNonblock)))
      have same := untouched_fdExecSet (t := t) (k := k)
        (w := (w₁.setFd t k (some b)).setFlags t k (flags &&& (oAccmode ||| oNonblock)))
        (flags &&& oCloexec ≠ 0)
      split
      · rename_i eq'
        rw [eq'] at same
        exact flagged.untouched same
      · rename_i eq'
        rw [eq'] at same
        have ready : (w.tables t).ready = true := by
          unfold nativeFdSlot at found
          split at found
          · cases found
          · rename_i ready
            simpa using ready
        obtain ⟨rfl, -, -⟩ := atmPosixOpen_some eq
        refine (flagged.untouched same).close ?_
        rw [same.backend, (untouched_setFlags _).backend, backend_setFd]
        exact if_pos ⟨rfl, rfl, ready⟩

theorem nativeFdPipe2_untouched (flags : UInt32) : Untouched w (nativeFdPipe2 w t flags).1 := by
  unfold nativeFdPipe2
  split
  · exact .refl w
  · have created := untouched_nativePipeCreate (w := w) (t := t)
    split
    · rename_i eq
      rwa [eq] at created
    · rename_i w₁ readFd writeFd eq
      rw [eq] at created
      dsimp only
      have flagged := created.trans ((untouched_setFlags (t := t) (k := readFd)
        (flags &&& oNonblock)).trans (untouched_setFlags (t := t) (k := writeFd)
          (1 ||| (flags &&& oNonblock))))
      set w₂ := (w₁.setFlags t readFd (flags &&& oNonblock)).setFlags t writeFd
        (1 ||| (flags &&& oNonblock))
      have first := untouched_fdExecSet (w := w₂) (t := t) (k := readFd) (flags &&& oCloexec ≠ 0)
      split
      · rename_i eq₁
        rw [eq₁] at first
        exact (flagged.trans first).trans
          ((untouched_nativePipeClose _).trans (untouched_nativePipeClose _))
      · rename_i w₃ eq₁
        rw [eq₁] at first
        have second := untouched_fdExecSet (w := w₃) (t := t) (k := writeFd) (flags &&& oCloexec ≠ 0)
        split
        · rename_i eq₂
          rw [eq₂] at second
          exact ((flagged.trans first).trans second).trans
            ((untouched_nativePipeClose _).trans (untouched_nativePipeClose _))
        · rename_i eq₂
          rw [eq₂] at second
          exact (flagged.trans first).trans second

/-- A descriptor of the VFS is duplicated into a table. -/
theorem Owned.duplicate {c : Fin 64} {n : UInt32} {value : Bool} (owned : Owned w)
    (opened : atmPosixDup w c = (w', some b)) :
    Owned (fdExecSet ((w'.setFd t k (some b)).setFlags t k n) t k value).1 :=
  (owned.store opened).untouched ((untouched_setFlags n).trans (untouched_fdExecSet value))

theorem inheritFd_owned (owned : Owned w) (child parent : Slot) (k : Fd) :
    Owned (inheritFd child parent w k).1 := by
  unfold inheritFd
  dsimp only
  split
  · exact owned
  · split
    · split
      · rename_i eq
        rw [atmPosixOpen_none eq]
        exact owned
      · rename_i eq
        exact owned.duplicate eq
    · split
      · have same := untouched_nativePipeInherit (w := w) child parent k
        split
        · exact owned.untouched same
        · exact owned.untouched (same.trans ((untouched_setFlags _).trans (untouched_fdExecSet _)))
      · exact owned

theorem inheritFds_owned (owned : Owned w) (child parent : Slot) (ks : List Fd) :
    Owned (inheritFds child parent w ks).1 := by
  induction ks generalizing w with
  | nil => exact owned
  | cons k ks ih =>
    have one := inheritFd_owned owned child parent k
    unfold inheritFds
    split
    · rename_i eq
      rw [eq] at one
      exact ih one
    · rename_i eq
      rw [eq] at one
      exact one

theorem nativeFdTaskInherit_owned (owned : Owned w) (child parent : Slot) :
    Owned (nativeFdTaskInherit w child parent).1 := by
  unfold nativeFdTaskInherit
  split
  · exact owned
  · dsimp only
    have fresh : Owned ((freshTable w child).mapTable child fun table => { table with ready := true }) :=
      owned.fresh fun _ => rfl
    split
    · exact nativeFdTaskCleanup_owned fresh
    · have all := inheritFds_owned fresh child parent (List.finRange 32)
      split
      · rename_i eq
        rwa [eq] at all
      · rename_i eq
        rw [eq] at all
        exact nativeFdTaskCleanup_owned all

theorem dupOnto_owned (owned : Owned w) (fd : Int) (newfd : Fd) : Owned (dupOnto w t fd newfd).1 := by
  unfold dupOnto
  split
  · have same := untouched_nativePipeDup (w := w) (t := t) fd newfd
    dsimp only
    split
    · exact owned.untouched same
    · exact owned.untouched (same.trans ((untouched_setFlags _).trans (untouched_fdExecSet false)))
  · split
    · exact owned
    · split
      · rename_i eq
        rw [atmPosixOpen_none eq]
        exact owned
      · rename_i eq
        exact owned.duplicate eq

theorem nativeFdDupMin_owned (owned : Owned w) (fd minFd : Int) :
    Owned (nativeFdDupMin w t fd minFd).1 := by
  unfold nativeFdDupMin
  split
  · exact owned
  · split
    · exact owned
    · exact dupOnto_owned owned fd _

theorem nativeFdFcntlDupfd_owned (owned : Owned w) (fd : Int) (arg : Int32) (cloexec : Bool) :
    Owned (nativeFdFcntlDupfd w t fd arg cloexec).1 := by
  unfold nativeFdFcntlDupfd
  split
  · exact owned
  · have dup := nativeFdDupMin_owned (t := t) owned fd arg.toInt
    dsimp only
    split
    · exact dup
    · split
      · exact dup
      · rename_i k _
        have set_ := untouched_fdExecSet (w := (nativeFdDupMin w t fd arg.toInt).1) (t := t) (k := k) true
        split
        · rename_i eq
          rw [eq] at set_
          exact dup.untouched set_
        · rename_i eq
          rw [eq] at set_
          exact nativeFdClose_owned (dup.untouched set_) _

/-! ### Duplicating onto a descriptor -/

/-- `native_fd_dup2` is to copy a pipe over a descriptor of the VFS. -/
def Overwrites (w : World) (t : Slot) (fd newfd : Int) : Prop :=
  fd ≠ newfd ∧ nativePipeIsFd w t fd = true ∧ nativeSocketIsFd w t fd = false ∧
    nativePipeIsFd w t newfd = false ∧ nativeSocketIsFd w t newfd = false ∧
    (fdValid w t newfd).isSome = true

instance (w : World) (t : Slot) (fd newfd : Int) : Decidable (Overwrites w t fd newfd) := by
  unfold Overwrites
  infer_instance

/-- The calls that duplicate do not copy a pipe over a descriptor of the VFS. -/
def Lands (w : World) : Op → Prop
  | .dup2 t fd newfd => ¬Overwrites w t fd newfd
  | .dup3 t fd newfd flags => flags &&& ~~~oCloexec = 0 → ¬Overwrites w t fd newfd
  | _ => True

instance (w : World) (op : Op) : Decidable (Lands w op) := by
  apply op.casesOn (motive := fun op => Decidable (Lands w op)) <;>
    (intros; dsimp only [Lands]; infer_instance)

/-- There is a free descriptor, so a duplication succeeds. -/
theorem atmPosixOpen_of_free (free : w.vfsUsed b = false) (high : 3 ≤ b.val) :
    ∃ c w', atmPosixOpen w true = (w', some c) := by
  unfold atmPosixOpen
  rw [if_neg (by decide)]
  cases found : (List.finRange 64).find? fun b => 3 ≤ b.val ∧ w.vfsUsed b = false with
  | none =>
    have none_ := List.find?_eq_none.mp found b (List.mem_finRange b)
    simp [free, high] at none_
  | some c => exact ⟨c, _, rfl⟩

theorem fdIdx_inj {fd fd' : Int} (first : fdIdx fd = some k) (second : fdIdx fd' = some k) : fd = fd' := by
  unfold fdIdx at first second
  split at first
  · split at second
    · have := congrArg Fin.val (Option.some.inj (first.trans second.symm))
      simp only at this
      omega
    · cases second
  · cases first

/-- One descriptor of the VFS is copied over another one. -/
theorem dupOnto_closed {fd newfd : Int} {k j : Fd} {b c : Fin 64} (owned : Owned w)
    (noPipe : nativePipeIsFd w t fd = false) (source : fdValid w t fd = some (j, c))
    (target : fdValid w t newfd = some (k, b)) (ne : fd ≠ newfd) :
    Owned (dupOnto (atmPosixClose w b) t fd k).1 := by
  obtain ⟨idx, namedSource⟩ := backend_of_valid source
  obtain ⟨idx', namedTarget⟩ := backend_of_valid target
  have differ : c ≠ b := by
    rintro rfl
    obtain ⟨-, rfl⟩ := owned.single namedSource namedTarget
    exact ne (fdIdx_inj idx idx')
  have still : (atmPosixClose w b).vfsUsed c = true := by
    show Function.update w.vfsUsed b false c = true
    rw [Function.update_of_ne differ]
    exact owned.used namedSource
  have free : (atmPosixClose w b).vfsUsed b = false := Function.update_self ..
  obtain ⟨d, w₁, opened⟩ := atmPosixOpen_of_free free (owned.high namedTarget)
  have noPipe' : pipeDecode (atmPosixClose w b) t fd = none := by
    have : pipeDecode (atmPosixClose w b) t fd = pipeDecode w t fd := rfl
    rw [this]
    simpa [nativePipeIsFd] using noPipe
  have source' : fdValid (atmPosixClose w b) t fd = some (j, c) := source
  have dup : atmPosixDup (atmPosixClose w b) c = (w₁, some d) := by
    unfold atmPosixDup
    rw [still]
    exact opened
  unfold dupOnto
  rw [noPipe', source']
  dsimp only
  rw [dup]
  obtain ⟨rfl, free', high'⟩ := atmPosixOpen_some opened
  -- The entry is overwritten at once, so it does not matter that it was not emptied.
  have stored := (owned.close namedTarget).put (t := t) (k := k) free' high'
  have stored' : Owned (({ atmPosixClose w b with
      vfsUsed := Function.update (atmPosixClose w b).vfsUsed d true } : World).setFd t k (some d)) := by
    simpa [World.setFd, World.mapTable] using stored
  exact stored'.untouched ((untouched_setFlags _).trans (untouched_fdExecSet false))

theorem fdIdx_of_idx {fd : Int} (idx : fdIdx fd = some k) : (k.val : Int) = fd :=
  fdIdx_inj (fdIdx_val k) idx

theorem nativeFdDup2_owned (owned : Owned w) {fd newfd : Int} (lands : ¬Overwrites w t fd newfd) :
    Owned (nativeFdDup2 w t fd newfd).1 := by
  unfold nativeFdDup2
  split
  · exact owned
  · rename_i k idx
    split
    · exact owned
    · rename_i notSame
      split
      · exact owned
      · rename_i dup
        have at_ := fdIdx_of_idx idx
        have dups : (nativePipeIsFd w t fd = true ∨ (fdValid w t fd).isSome = true) ∧
            nativeSocketIsFd w t fd = false := by
          simpa [dupable] using dup
        have ne : fd ≠ newfd := by
          rintro rfl
          refine notSame ⟨rfl, ?_⟩
          simp only [Bool.or_eq_true]
          rcases dups.1 with pipe | valid
          · exact .inl (.inl pipe)
          · exact .inr valid
        unfold closeTarget
        rw [at_]
        split
        · exact dupOnto_owned (owned.untouched (untouched_nativePipeClose _)) fd k
        · rename_i notPipe
          split
          · exact dupOnto_owned (owned.untouched (untouched_nativeSocketClose _)) fd k
          · rename_i notSocket
            split
            · exact dupOnto_owned owned fd k
            · rename_i k' b target
              obtain ⟨idx', -⟩ := backend_of_valid target
              obtain rfl : k = k' := Option.some.inj (idx.symm.trans idx')
              have noPipe : nativePipeIsFd w t fd = false := by
                by_contra pipe
                exact lands ⟨ne, by simpa using pipe, dups.2, by simpa using notPipe,
                  by simpa using notSocket, by rw [target]; rfl⟩
              have valid : (fdValid w t fd).isSome = true := by
                rcases dups.1 with pipe | valid
                · rw [noPipe] at pipe
                  cases pipe
                · exact valid
              obtain ⟨⟨j, c⟩, source⟩ := Option.isSome_iff_exists.mp valid
              exact dupOnto_closed owned noPipe source target ne

theorem nativeFdDup3_owned (owned : Owned w) {fd newfd : Int} {flags : UInt32}
    (lands : flags &&& ~~~oCloexec = 0 → ¬Overwrites w t fd newfd) :
    Owned (nativeFdDup3 w t fd newfd flags).1 := by
  unfold nativeFdDup3
  split
  · exact owned
  · rename_i good
    have dup := nativeFdDup2_owned (t := t) owned (lands (by
      by_contra bad
      exact good (.inr bad)))
    dsimp only
    split
    · exact dup
    · rename_i k _
      have set_ := untouched_fdExecSet (w := (nativeFdDup2 w t fd newfd).1) (t := t) (k := k)
        (flags &&& oCloexec ≠ 0)
      split
      · rename_i eq
        rw [eq] at set_
        exact dup.untouched set_
      · rename_i eq
        rw [eq] at set_
        exact nativeFdClose_owned (dup.untouched set_) _

/-! ### Runs -/

theorem Owned.step {op : Op} (owned : Owned w) (lands : Lands w op) (step : perform w op = some w') :
    Owned w' := by
  cases op with
  | taskInit t tty =>
    cases step
    exact nativeFdTaskInit_owned owned tty
  | taskCleanup t =>
    cases step
    exact nativeFdTaskCleanup_owned owned
  | closeOnExec t =>
    cases step
    exact nativeFdCloseOnExec_owned owned
  | taskInherit child parent =>
    cases step
    exact nativeFdTaskInherit_owned owned child parent
  | openFile t ok flags =>
    cases step
    exact nativeFdOpen_owned owned ok flags
  | pipe2 t flags =>
    cases step
    exact owned.untouched (nativeFdPipe2_untouched flags)
  | close t fd =>
    cases step
    exact nativeFdClose_owned owned fd
  | dup t fd =>
    cases step
    exact nativeFdDupMin_owned owned fd 0
  | dup2 t fd newfd =>
    cases step
    exact nativeFdDup2_owned owned lands
  | dup3 t fd newfd flags =>
    cases step
    exact nativeFdDup3_owned owned lands
  | dupfd t fd arg cloexec =>
    cases step
    exact nativeFdFcntlDupfd_owned owned fd arg cloexec
  | socketOpen t =>
    cases step
    exact owned.untouched untouched_nativeSocketOpen
  | dirOpen t ok =>
    cases step
    exact owned.untouched (untouched_nativeDirOpen ok)
  | read t fd count nonblock =>
    exact perform_read owned (fun done => owned.untouched (resumeRead_untouched done)) step
  | readAgain t i count nonblock =>
    obtain ⟨⟨w₁, r⟩, done, rfl⟩ := map_eq_some_iff.mp step
    exact owned.untouched (resumeRead_untouched done)
  | write t fd data nonblock =>
    exact perform_write owned (fun done => owned.untouched (resumeWrite_untouched done)) step
  | writeAgain t i data nonblock =>
    obtain ⟨⟨w₁, r⟩, done, rfl⟩ := map_eq_some_iff.mp step
    exact owned.untouched (resumeWrite_untouched done)

theorem Boot.owned (boot : Boot w) : Owned w := by
  have none_ : ∀ {t k b}, backend w t k ≠ some b := by
    intro t k b named
    unfold backend at named
    rw [boot.tables t] at named
    cases named
  exact ⟨fun named => absurd named none_, fun named => absurd named none_,
    fun named => absurd named none_⟩

/-- **Every VFS descriptor has one owner**, in every state reached by calls that do
not copy a pipe over a descriptor of the VFS: what a table names is open, and
nothing is named twice. -/
theorem run_owned {w₀ w : World} {ops : List Op} (boot : Boot w₀) (run : Run Step Lands w₀ ops w) :
    (∀ t k b, backend w t k = some b → w.vfsUsed b = true) ∧
      ∀ t k u j b, backend w t k = some b → backend w u j = some b → t = u ∧ k = j := by
  have owned : Owned w := run.invariant boot.owned fun owned => owned.step
  exact ⟨fun _ _ _ named => owned.used named, fun _ _ _ _ _ first second => owned.single first second⟩

/-- Standard output is copied onto descriptor 5. -/
theorem run_owned_dup2 :
    ∃ w, Run Step Lands booted [.taskInit 0 fun _ => true, .dup2 0 1 5] w ∧
      backend w 0 5 = some 6 ∧ w.vfsUsed 6 = true := by
  have done : ((runAll perform Lands booted [.taskInit 0 fun _ => true, .dup2 0 1 5]).filter
      fun w => backend w 0 5 = some 6).isSome = true := by
    decide
  obtain ⟨w, found⟩ := Option.isSome_iff_exists.mp done
  obtain ⟨ran, named⟩ := Option.filter_eq_some_iff.mp found
  have named := of_decide_eq_true named
  exact ⟨w, .of_runAll ran, named, (run_owned booted_boot (.of_runAll ran)).1 0 5 6 named⟩

/-- **A pipe over a file.** `dup2` of a pipe onto standard output closes the
console and fails; the table still names it, and the next open of another task
gets the same descriptor. -/
theorem dup2_shares :
    ¬∀ (w : World) (ops : List Op), Run Step Anything booted ops w →
      (∀ t k b, backend w t k = some b → w.vfsUsed b = true) ∧
        ∀ t k u j b, backend w t k = some b → backend w u j = some b → t = u ∧ k = j := by
  intro all
  have done : ((runAll perform Anything booted
      [.taskInit 0 fun _ => true, .taskInit 1 fun _ => true, .pipe2 0 0, .dup2 0 3 1,
        .openFile 1 true 0]).filter
      fun w => backend w 0 1 = some 4 ∧ backend w 1 3 = some 4).isSome = true := by
    decide
  obtain ⟨w, found⟩ := Option.isSome_iff_exists.mp done
  obtain ⟨ran, named⟩ := Option.filter_eq_some_iff.mp found
  obtain ⟨first, second⟩ := of_decide_eq_true named
  obtain ⟨same, -⟩ := (all w _ (.of_runAll ran)).2 _ _ _ _ _ first second
  exact absurd same (by decide)

end AtmKoala.Native
